import ZMachine.Machine.Screen

/-!
# Starting over

`restart` brings the machine back to the start of the story: dynamic memory
as it was loaded, fresh dice, an empty stack, no output tables.  Only the
scripting flag survives.
-/

namespace ZMachine.Machine

open MachineM

variable {M H : Type} [AddressSpace M] [Host H]

/-- Write back those bytes from `address` on that differ from what was
loaded. -/
def restoreBytes (address : Nat) : List UInt8 → MemoryM M Unit
  | [] => return
  | b :: rest => do
    if (← Memory.readByte address) ≠ b then
      Memory.writeByte address b
    restoreBytes (address + 1) rest

/-- New dice whose seed mixes the clock with chance. -/
def rollFromClock : MachineM M H Unit := do
  let now := Host.clock (← get).host
  modifyCore fun c =>
    let (chance, entropy) := c.entropy.next
    { c with dice := .ofChance (now ^^^ chance), entropy }

def restart : MachineM M H Unit := do
  match (← getCore).settings.randomSeed with
  | some seed => modifyCore fun c => { c with dice := .ofSeed seed }
  | none => rollFromClock
  let flags ← ofMemory (Memory.readWord Field.flags)
  ofMemory (restoreBytes 0 (← getCore).pristine)
  announceScreen
  announceInterpreter (flags &&& Flag.scripting ≠ 0)
  modifyCore fun c =>
    { c with
      pc := c.header.startPc.toUInt32
      sp := stackSize
      fp := stackSize - 1
      runState := .run
      halted := false
      streams := {}
      window := .lower }

/-- Make memory lasting and empty the display's buffers. -/
def close : MachineM M H Unit := do
  ofMemory AddressSpace.flush
  ofHost Host.flush

end ZMachine.Machine
