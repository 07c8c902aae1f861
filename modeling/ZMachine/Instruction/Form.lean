/-!
# Instruction forms

The first byte of an instruction fixes its form: how its operands are laid
out and which table its opcode number belongs to.
-/

namespace ZMachine

inductive Form where
  /-- Two operands, each a small constant or a variable. -/
  | twoOp
  | oneOp
  | zeroOp
  /-- Operand kinds in a specifier after the opcode byte. -/
  | variable
  /-- The byte `0xBE` from version 5 on, then an opcode byte. -/
  | extended
  deriving DecidableEq, Repr, Inhabited

namespace Form

def classify (version first : UInt8) : Form :=
  if first = 0xBE ∧ 4 < version then .extended
  else if first < 0x80 then .twoOp
  else if first < 0xB0 then .oneOp
  else if first < 0xC0 then .zeroOp
  else .variable

def name : Form → String
  | .twoOp => "2OP"
  | .oneOp => "1OP"
  | .zeroOp => "0OP"
  | .variable => "VAR"
  | .extended => "EXT"

end Form
end ZMachine
