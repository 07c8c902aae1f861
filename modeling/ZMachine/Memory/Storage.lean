import ZMachine.Memory

/-!
# Storage

A storage is a region of bytes that is read and written in pieces.  An image
in memory can serve as one; `Disk` is one that keeps a journal of the
transfers asked of it and can be told to refuse them.
-/

namespace ZMachine

/-- Replace the bytes from `offset` on.  Data behind the end extends the
region, with zeros in between. -/
def overlay (bytes : Array UInt8) (offset : Nat) (data : Array UInt8) : Array UInt8 :=
  if data.isEmpty then bytes
  else
    bytes.extract 0 offset ++ Array.replicate (offset - bytes.size) 0 ++ data
      ++ bytes.extract (offset + data.size) bytes.size

class Storage (S : Type) where
  size : EStateM Fault S Nat
  /-- The bytes from an offset on, at most as many as asked for and fewer only
  at the end of the region. -/
  readAt : (offset length : Nat) → EStateM Fault S (Array UInt8)
  writeAt : (offset : Nat) → (data : Array UInt8) → EStateM Fault S Unit

namespace Storage

/-- Read a storage whole. -/
def load {S : Type} [Storage S] : EStateM Fault S Image := do
  let n ← size
  return ⟨← readAt 0 n⟩

end Storage

instance : Storage Image where
  size := return (← get).bytes.size
  readAt offset length := return (← get).bytes.extract offset (offset + length)
  writeAt offset data := modify fun image => { image with bytes := overlay image.bytes offset data }

inductive Transfer where
  | read (offset length : Nat)
  | write (offset length : Nat)
  deriving DecidableEq, Repr

structure Disk where
  bytes : Array UInt8
  /-- Transfers asked for, the latest first. -/
  journal : List Transfer := []
  refusesReads : Bool := false
  refusesWrites : Bool := false
  deriving DecidableEq, Repr

namespace Disk

def readAt (offset length : Nat) : EStateM Fault Disk (Array UInt8) := fun d =>
  let d := { d with journal := .read offset length :: d.journal }
  if d.refusesReads then .error (.storage "bad sector") d
  else .ok (d.bytes.extract offset (offset + length)) d

def writeAt (offset : Nat) (data : Array UInt8) : EStateM Fault Disk Unit := fun d =>
  let d := { d with journal := .write offset data.size :: d.journal }
  if d.refusesWrites then .error (.storage "disk full") d
  else .ok () { d with bytes := overlay d.bytes offset data }

instance : Storage Disk where
  size := fun d => .ok d.bytes.size d
  readAt := readAt
  writeAt := writeAt

end Disk
end ZMachine
