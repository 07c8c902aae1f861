import ZMachine.Machine.Restart

/-!
# Tables in memory

Arrays of bytes and words with signed indices, searches in a table, and
copies.
-/

namespace ZMachine.Machine

open MachineM

variable {M H : Type} [AddressSpace M] [Host H]

/-- Address of an element of an array; it wraps at the end of the addresses
that a word can name. -/
def elementAddress (base index : UInt16) (width : Nat) : Nat :=
  (ofSigned (base.toNat + signed index * width)).toNat

def loadWord (array index : UInt16) : MachineM M H Unit := do
  storeResult (← ofMemory (Memory.readWord (elementAddress array index 2)))

def loadByte (array index : UInt16) : MachineM M H Unit := do
  storeResult (← ofMemory (Memory.readByte (elementAddress array index 1))).toUInt16

def storeWord (array index value : UInt16) : MachineM M H Unit :=
  ofMemory (Memory.writeWord (elementAddress array index 2) value)

def storeByte (array index value : UInt16) : MachineM M H Unit :=
  ofMemory (Memory.writeByte (elementAddress array index 1) (lowByte value))

/-- Address of the first of `n` entries that equals a value. -/
def searchTable (words : Bool) (width : Nat) (value : UInt16) :
    (n address : Nat) → MemoryM M (Option Nat)
  | 0, _ => return none
  | n + 1, address => do
    let entry ← if words then Memory.readWord address
      else UInt8.toUInt16 <$> Memory.readByte address
    if entry = value then return some address
    else searchTable words width value n (address + width)

/-- Search a table whose entries are `form % 128` bytes wide and are compared
as words if bit 7 of `form` is set; store the address found and branch. -/
def scanTable (value table length form : UInt16) : MachineM M H Unit := do
  let words := form &&& 0x80 ≠ 0
  match ← ofMemory (searchTable words (form.toNat % 128) value length.toNat table.toNat) with
  | some address =>
    storeResult (UInt16.ofNat address)
    branch true
  | none =>
    storeResult 0
    branch false

/-- Copy a byte. -/
def copyByte (source target : Nat) : MemoryM M Unit := do
  Memory.writeByte target (← Memory.readByte source)

/-- Copy `n` bytes, the first one first. -/
def copyForward : (n source target : Nat) → MemoryM M Unit
  | 0, _, _ => return
  | n + 1, source, target => do
    copyByte source target
    copyForward n (source + 1) (target + 1)

/-- Copy `n` bytes, the last one first. -/
def copyBackward : (n source target : Nat) → MemoryM M Unit
  | 0, _, _ => return
  | n + 1, source, target => do
    copyByte (source + n) (target + n)
    copyBackward n source target

/-- Set `n` bytes to zero. -/
def clearBytes : (n address : Nat) → MemoryM M Unit
  | 0, _ => return
  | n + 1, address => do
    Memory.writeByte address 0
    clearBytes n (address + 1)

/-- Copy a table in the direction that keeps an overlap intact.  A negative
size copies forwards whatever the overlap, and target 0 clears the source. -/
def copyTable (source target size : UInt16) : MachineM M H Unit := do
  let n := (signed size).natAbs
  if target = 0 then
    ofMemory (clearBytes n source.toNat)
  else if signed size < 0 ∨ target < source ∨ source.toNat + n ≤ target.toNat then
    ofMemory (copyForward n source.toNat target.toNat)
  else
    ofMemory (copyBackward n source.toNat target.toNat)

end ZMachine.Machine
