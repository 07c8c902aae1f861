import ZMachine.Machine.Variable

/-!
# Instructions

An instruction in code is a form and an opcode in its first bytes, then its
operands.  Decoding evaluates the operands and leaves the program counter
behind them: the variable for a result and the branch, if there are any,
belong to the operation, which reads them when it needs them.
-/

namespace ZMachine

/-- How an operand is written in the code. -/
inductive OperandKind where
  | large
  | small
  | variable
  | omitted
  deriving DecidableEq, Repr, Inhabited

def OperandKind.ofBits (bits : Nat) : OperandKind :=
  match bits % 4 with
  | 0 => .large
  | 1 => .small
  | 2 => .variable
  | _ => .omitted

/-- At most eight operand values. -/
structure Operands where
  values : List UInt16 := []
  deriving DecidableEq, Repr, Inhabited

namespace Operands

def limit : Nat := 8

/-- Add a value; one for which there is no place is dropped. -/
def push (ops : Operands) (value : UInt16) : Operands :=
  if ops.values.length < limit then ⟨ops.values ++ [value]⟩ else ops

/-- An operand, or a default if it is not there. -/
def getD (ops : Operands) (i : Nat) (default : UInt16) : UInt16 :=
  ops.values.getD i default

/-- An operand, or `0` if it is not there. -/
def get (ops : Operands) (i : Nat) : UInt16 :=
  ops.getD i 0

end Operands

structure Instruction where
  /-- Address of the first byte. -/
  address : UInt32
  form : Form
  /-- Number in the table of the form; operations with two operands keep
  theirs when they are written in the variable form. -/
  opcode : UInt8
  operands : Operands
  deriving DecidableEq, Repr, Inhabited

/-- An instruction as it stands in a trace. -/
def Instruction.describe (i : Instruction) : String :=
  let operand (w : UInt16) : String := " #" ++ Numeral.hex 4 w.toNat
  Numeral.hex 5 i.address.toNat ++ ": " ++ i.form.name ++ ":" ++
    Numeral.markedHex 2 i.opcode.toNat ++ String.join (i.operands.values.map operand)

namespace Machine

open MachineM

variable {M H : Type} [AddressSpace M]

/-- Read an operand.  A variable operand 0 takes the top off the stack. -/
def loadOperand : OperandKind → MachineM M H UInt16
  | .large => fetchWord
  | .small => return (← fetchByte).toUInt16
  | .variable => do
    let n ← fetchByte
    if n = 0 then ofCore Core.pop else loadVariable n
  | .omitted => return 0

/-- Read operands by the two-bit fields of a specifier, of which `n` are left
and the highest comes first, up to the first that is omitted. -/
def loadOperands (specifier : Nat) : (n : Nat) → Operands → MachineM M H Operands
  | 0, ops => return ops
  | n + 1, ops => do
    let kind := OperandKind.ofBits (specifier >>> (2 * n))
    if kind = .omitted then return ops
    loadOperands specifier n (ops.push (← loadOperand kind))

/-- The operations that take up to eight operands have a specifier of two
bytes. -/
def hasLongSpecifier (opcode : UInt8) : Bool :=
  opcode = 0x2C ∨ opcode = 0x3A

/-- Read a specifier and the operands that it announces. -/
def loadSpecified (opcode : UInt8) : MachineM M H Operands := do
  if hasLongSpecifier opcode then
    loadOperands (← fetchWord).toNat 8 {}
  else
    loadOperands (← fetchByte).toNat 4 {}

/-- Operand of the long form: a bit of the first byte tells a variable from a
small constant. -/
def longKind (first bit : UInt8) : OperandKind :=
  if first &&& bit ≠ 0 then .variable else .small

/-- Read the instruction at the program counter. -/
def decode : MachineM M H Instruction := do
  let address := (← getCore).pc
  let first ← fetchByte
  let form := Form.classify (← version) first
  match form with
  | .extended =>
    let opcode ← fetchByte
    return { address, form, opcode, operands := ← loadSpecified opcode }
  | .twoOp =>
    let a ← loadOperand (longKind first 0x40)
    let b ← loadOperand (longKind first 0x20)
    return { address, form, opcode := first &&& 0x1F, operands := ⟨[a, b]⟩ }
  | .oneOp =>
    let a ← loadOperand (OperandKind.ofBits (first.toNat / 16))
    return { address, form, opcode := first &&& 0x0F, operands := ⟨[a]⟩ }
  | .zeroOp => return { address, form, opcode := first &&& 0x0F, operands := {} }
  | .variable =>
    let opcode := first &&& 0x3F
    return { address, form, opcode, operands := ← loadSpecified opcode }

end Machine
end ZMachine
