import ZMachine.Memory.Storage
import ZMachine.Random

/-!
# The block cache

A story that is larger than memory is seen through a few slots of one block
each.  An access outside the resident blocks takes a slot, writes its block
back if it was changed, and loads the block that is wanted.  Until it is
written back, a changed slot is the only true copy of its block; the storage
sees changes at evictions and at `flush` only.

`BlockCache S extra` has `extra + 1` slots, so there is always one to take.
-/

namespace ZMachine

/-- How the slot to take is chosen. -/
inductive Eviction where
  /-- Any slot, by chance. -/
  | random
  /-- An empty slot if there is one, else the one whose last use is
  longest ago. -/
  | leastRecent
  deriving DecidableEq, Repr, Inhabited

def blockSize : Nat := 512

structure Slot where
  /-- Address of the first byte of the resident block. -/
  base : Option Nat := none
  dirty : Bool := false
  lastUsed : Nat := 0
  data : Vector UInt8 blockSize := Vector.replicate blockSize 0
  deriving DecidableEq, Repr

structure BlockCache (S : Type) (extra : Nat) where
  storage : S
  slots : Vector Slot (extra + 1)
  policy : Eviction
  stream : ChaCha.Stream
  /-- Size of the story. -/
  size : Nat
  /-- Number of accesses so far. -/
  tick : Nat

namespace BlockCache

variable {S : Type} {extra : Nat} [Storage S]

/-- An empty cache over a storage. -/
def ofStorage (extra : Nat) (policy : Eviction) (stream : ChaCha.Stream) (storage : S) :
    Except Fault (BlockCache S extra) :=
  match Storage.size storage with
  | .ok size storage =>
    .ok { storage, policy, stream, size, slots := Vector.replicate (extra + 1) {}, tick := 0 }
  | .error e _ => .error e

/-- First address of the block of an address. -/
def blockOf (address : Nat) : Nat :=
  address / blockSize * blockSize

/-- The bytes of a block that belong to the story: the last one may be
short. -/
def blockLength (c : BlockCache S extra) (base : Nat) : Nat :=
  min (c.size - base) blockSize

/-- The slot that holds a block. -/
def resident? (c : BlockCache S extra) (base : Nat) : Option (Fin (extra + 1)) :=
  c.slots.findFinIdx? fun s => s.base = some base

def setSlot (c : BlockCache S extra) (i : Fin (extra + 1)) (s : Slot) : BlockCache S extra :=
  { c with slots := c.slots.set i s }

/-- The first slot among those used longest ago. -/
def leastRecent (c : BlockCache S extra) : Fin (extra + 1) :=
  Fin.foldl (extra + 1)
    (fun best i => if c.slots[i].lastUsed < c.slots[best].lastUsed then i else best) 0

/-- The slot to take next. -/
def victim (c : BlockCache S extra) : Fin (extra + 1) × BlockCache S extra :=
  match c.policy with
  | .random =>
    let (i, stream) := pickLarge (extra + 1) c.stream
    (Fin.ofNat (extra + 1) i, { c with stream })
  | .leastRecent =>
    match c.slots.findFinIdx? fun s => s.base.isNone with
    | some i => (i, c)
    | none => (c.leastRecent, c)

/-- Write a slot's block to the storage if it was changed. -/
def writeBack (i : Fin (extra + 1)) : MemoryM (BlockCache S extra) Unit := fun c =>
  let slot := c.slots[i]
  match slot.base, slot.dirty with
  | some base, true =>
    match Storage.writeAt base (slot.data.toArray.extract 0 (c.blockLength base)) c.storage with
    | .ok _ storage => .ok () (setSlot { c with storage } i { slot with dirty := false })
    | .error e storage =>
      let reason := s!"write-back of block {Numeral.markedHex 4 base} failed: {e.message}"
      .error (.storage reason) { c with storage }
  | _, _ => .ok () c

/-- Fill a slot with a block from the storage.  A failed read leaves it
empty. -/
def loadBlock (i : Fin (extra + 1)) (base : Nat) : MemoryM (BlockCache S extra) Unit := fun c =>
  let empty : Slot := { lastUsed := c.slots[i].lastUsed }
  match Storage.readAt base (c.blockLength base) c.storage with
  | .ok bytes storage =>
    let data := Vector.ofFn fun k : Fin blockSize => bytes[k.val]?.getD 0
    .ok () (setSlot { c with storage } i { empty with base := some base, data })
  | .error e storage => .error e (setSlot { c with storage } i empty)

/-- Note that a slot is in use now. -/
def touch (i : Fin (extra + 1)) : MemoryM (BlockCache S extra) Unit := fun c =>
  .ok () (setSlot c i { c.slots[i] with lastUsed := c.tick })

/-- The slot that holds the block of an address, loading the block if
necessary. -/
def slotFor (address : Nat) : MemoryM (BlockCache S extra) (Fin (extra + 1)) := do
  let size := (← get).size
  if size ≤ address then
    throw (.addressOutOfRange address size)
  modify fun c => { c with tick := c.tick + 1 }
  match (← get).resident? (blockOf address) with
  | some i =>
    touch i
    return i
  | none =>
    let i ← modifyGet victim
    writeBack i
    loadBlock i (blockOf address)
    touch i
    return i

/-- Place of an address in its block. -/
def placeInBlock (address : Nat) : Fin blockSize :=
  ⟨address % blockSize, Nat.mod_lt _ (by decide)⟩

def readByte (address : Nat) : MemoryM (BlockCache S extra) UInt8 := do
  let i ← slotFor address
  return (← get).slots[i].data[placeInBlock address]

def writeByte (address : Nat) (value : UInt8) : MemoryM (BlockCache S extra) Unit := do
  let i ← slotFor address
  modify fun c =>
    let slot := c.slots[i]
    c.setSlot i { slot with data := slot.data.set (placeInBlock address) value, dirty := true }

/-- Write back every changed slot. -/
def flush : MemoryM (BlockCache S extra) Unit :=
  (List.finRange (extra + 1)).forM writeBack

instance : AddressSpace (BlockCache S extra) where
  size c := c.size
  readByte := readByte
  writeByte := writeByte
  flush := flush

end BlockCache
end ZMachine
