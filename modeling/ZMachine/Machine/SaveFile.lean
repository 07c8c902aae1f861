import ZMachine.Machine.Screen

/-!
# Saved games

There are none: saving and restoring tell the story that they failed, in the
way its version expects, and the story goes on.  The checksum of the story
file is computed, and `verify` accepts it whatever it is, since dynamic
memory changes while the story runs.
-/

namespace ZMachine.Machine

open MachineM

variable {M H : Type} [AddressSpace M] [Host H]

/-- A failure to save or restore: no branch before version 4, else a stored
0. -/
def refuseSave : MachineM M H Unit := do
  if (← version) < 4 then branch false else storeResult 0

/-- A failure to save or restore in the extended form. -/
def refuseExtendedSave : MachineM M H Unit :=
  storeResult 0

/-- Undo is not there at all. -/
def refuseUndo : MachineM M H Unit :=
  storeResult 0xFFFF

/-- Sum of `n` bytes modulo `2 ^ 16`. -/
def sumBytes (sum : UInt16) : (n address : Nat) → MemoryM M UInt16
  | 0, _ => return sum
  | n + 1, address => do
    let b ← Memory.readByte address
    sumBytes (sum + b.toUInt16) n (address + 1)

/-- First address that the checksum covers. -/
def checksumStart : Nat := 0x40

/-- Sum of the story's bytes behind the header. -/
def checksum : MachineM M H UInt16 := do
  let h ← header
  let size ← ofMemory Memory.size
  ofMemory (sumBytes 0 (min (h.storySize size) size - checksumStart) checksumStart)

def verify : MachineM M H Unit := do
  discard checksum
  branch true

end ZMachine.Machine
