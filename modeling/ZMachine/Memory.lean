import ZMachine.Fault
import ZMachine.Word

/-!
# Story memory

Everything above this module sees story memory through `AddressSpace`: bytes
at natural-number addresses, any access of which may fail or change the
memory's own book-keeping.  Words are two byte accesses, the high byte first,
so an implementation only has to get bytes right.

`Image` is the plain implementation, an array of bytes.
-/

namespace ZMachine

/-- Computations on a memory that can fail.  A failed computation keeps the
memory that it had reached. -/
abbrev MemoryM (M : Type) := EStateM Fault M

class AddressSpace (M : Type) where
  size : M → Nat
  readByte : Nat → MemoryM M UInt8
  writeByte : Nat → UInt8 → MemoryM M Unit
  /-- Make every write lasting. -/
  flush : MemoryM M Unit

namespace Memory

variable {M : Type} [AddressSpace M]

def size : MemoryM M Nat := do
  return AddressSpace.size (← get)

def readByte (address : Nat) : MemoryM M UInt8 :=
  AddressSpace.readByte address

def writeByte (address : Nat) (value : UInt8) : MemoryM M Unit :=
  AddressSpace.writeByte address value

def readWord (address : Nat) : MemoryM M UInt16 := do
  let high ← readByte address
  let low ← readByte (address + 1)
  return wordOfBytes high low

def writeWord (address : Nat) (value : UInt16) : MemoryM M Unit := do
  writeByte address (highByte value)
  writeByte (address + 1) (lowByte value)

/-- The `count` bytes from `address` on, after those in `found`, which are in
reverse. -/
def readBytesOnto (found : List UInt8) (address : Nat) : (count : Nat) → MemoryM M (List UInt8)
  | 0 => return found.reverse
  | count + 1 => do
    let b ← readByte address
    readBytesOnto (b :: found) (address + 1) count

/-- The `count` bytes from `address` on. -/
def readBytes (address count : Nat) : MemoryM M (List UInt8) :=
  readBytesOnto [] address count

/-- The bytes from `address` up to the first zero, after those in `found`,
which are in reverse.  No more bytes are read than the memory holds, so the
first argument never runs out when it starts above the memory's size. -/
def readToZeroOnto : Nat → (found : List UInt8) → (address : Nat) → MemoryM M (List UInt8)
  | 0, _, address => do throw (.addressOutOfRange address (← size))
  | fuel + 1, found, address => do
    let b ← readByte address
    if b = 0 then return found.reverse
    else readToZeroOnto fuel (b :: found) (address + 1)

/-- The bytes from `address` up to the first zero. -/
def readToZero (address : Nat) : MemoryM M (List UInt8) := do
  readToZeroOnto ((← size) + 1) [] address

def writeBytes (address : Nat) : List UInt8 → MemoryM M Unit
  | [] => return
  | b :: bs => do
    writeByte address b
    writeBytes (address + 1) bs

end Memory

/-- A story held whole in memory. -/
structure Image where
  bytes : Array UInt8
  deriving DecidableEq, Repr, Inhabited

namespace Image

def readByte (address : Nat) : MemoryM Image UInt8 := fun m =>
  if h : address < m.bytes.size then .ok m.bytes[address] m
  else .error (.addressOutOfRange address m.bytes.size) m

def writeByte (address : Nat) (value : UInt8) : MemoryM Image Unit := fun m =>
  if h : address < m.bytes.size then .ok () ⟨m.bytes.set address value⟩
  else .error (.addressOutOfRange address m.bytes.size) m

instance : AddressSpace Image where
  size m := m.bytes.size
  readByte := readByte
  writeByte := writeByte
  flush := return

end Image
end ZMachine
