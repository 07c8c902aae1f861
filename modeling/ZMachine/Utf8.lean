/-!
# UTF-8

Bytes from outside need not be UTF-8.  The decoder reads them one at a time
and marks each maximal part that cannot be continued to a character by a
`none`; a text is valid if there is no mark, and the lossy text has a
replacement character for each.
-/

namespace ZMachine.Utf8

/-- A character under way: how many bytes are missing, the bits so far, and
the range of the next byte. -/
structure Unfinished where
  missing : Nat
  bits : Nat
  least : UInt8 := 0x80
  greatest : UInt8 := 0xBF
  deriving DecidableEq, Repr

/-- What the first byte of a character begins. -/
def start (b : UInt8) : List (Option Char) × Option Unfinished :=
  if b < 0x80 then ([some (Char.ofNat b.toNat)], none)
  else if b < 0xC2 then ([none], none)
  else if b < 0xE0 then ([], some { missing := 1, bits := b.toNat % 32 })
  else if b = 0xE0 then ([], some { missing := 2, bits := 0, least := 0xA0 })
  else if b = 0xED then ([], some { missing := 2, bits := 13, greatest := 0x9F })
  else if b < 0xF0 then ([], some { missing := 2, bits := b.toNat % 16 })
  else if b = 0xF0 then ([], some { missing := 3, bits := 0, least := 0x90 })
  else if b < 0xF4 then ([], some { missing := 3, bits := b.toNat % 8 })
  else if b = 0xF4 then ([], some { missing := 3, bits := 4, greatest := 0x8F })
  else ([none], none)

/-- What one more byte gives, and the character that is then under way. -/
def advance (p : Option Unfinished) (b : UInt8) : List (Option Char) × Option Unfinished :=
  match p with
  | none => start b
  | some p =>
    if p.least ≤ b ∧ b ≤ p.greatest then
      let bits := p.bits * 64 + b.toNat % 64
      if p.missing ≤ 1 then ([some (Char.ofNat bits)], none)
      else ([], some { missing := p.missing - 1, bits })
    else
      let (found, q) := start b
      (none :: found, q)

/-- The characters and marks in `bytes`, after those in `found`, which are in
reverse. -/
def decodeOnto (found : List (Option Char)) : Option Unfinished → List UInt8 → List (Option Char)
  | p, [] => (if p.isSome then none :: found else found).reverse
  | p, b :: rest =>
    let (more, p) := advance p b
    decodeOnto (more.reverse ++ found) p rest

def decode (bytes : List UInt8) : List (Option Char) :=
  decodeOnto [] none bytes

def isValid (bytes : List UInt8) : Bool :=
  (decode bytes).all Option.isSome

/-- The character that stands for bytes without meaning. -/
def replacement : Char := Char.ofNat 0xFFFD

def lossy (bytes : List UInt8) : String :=
  String.ofList ((decode bytes).map fun c => c.getD replacement)

end ZMachine.Utf8
