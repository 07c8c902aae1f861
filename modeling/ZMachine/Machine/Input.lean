import ZMachine.Dictionary
import ZMachine.Instruction.Operand
import ZMachine.Machine.Screen

/-!
# Input

Lines and keys come from the host.  A read may time out; the story's routine
for that is then run, and a value other than zero gives the read up.  Nothing
bounds how often a read can time out, so the loops here take fuel.
-/

namespace ZMachine.Machine

open MachineM

variable {M H : Type} [AddressSpace M] [Host H]

/-- Run the routine for a read that timed out; true if the read is over. -/
def interruptRead (run : MachineM M H UInt16) (routine : UInt16) : MachineM M H Bool := do
  let status ← call run .async [routine]
  return status ≠ 0 ∨ (← getCore).halted

/-- Ask for a line until there is one, the read is given up (`none`) or input
is closed, which ends the story. -/
def awaitLine (run : MachineM M H UInt16) (limit : Nat) (timeout routine : UInt16) :
    (fuel : Nat) → MachineM M H (Option (List UInt8))
  | 0 => throw .outOfFuel
  | fuel + 1 => do
    match ← ofHost (Host.readLine limit timeout) with
    | .given line => return some line
    | .closed =>
      modifyCore fun c => { c with halted := true }
      return none
    | .timedOut =>
      if ← interruptRead run routine then
        modify fun s => { s with host := Host.cancelLine s.host }
        return none
      awaitLine run limit timeout routine fuel

/-- Ask for a key in the same way; without one the answer is 0. -/
def awaitKey (run : MachineM M H UInt16) (timeout routine : UInt16) :
    (fuel : Nat) → MachineM M H UInt8
  | 0 => throw .outOfFuel
  | fuel + 1 => do
    match ← ofHost (Host.readKey timeout) with
    | .given key => return if key = ZString.lineFeed then ZString.newline else key
    | .closed =>
      modifyCore fun c => { c with halted := true }
      return 0
    | .timedOut =>
      if ← interruptRead run routine then return 0
      awaitKey run timeout routine fuel

/-- Capital letters of ASCII become small. -/
def toLower (c : UInt8) : UInt8 :=
  if 65 ≤ c ∧ c ≤ 90 then c + 32 else c

/-- Where a line buffer has room: the address of its text, the number of
bytes in it that are kept, and how many may follow them. -/
def lineRoom (version : UInt8) (buffer : Nat) : MemoryM M (Nat × Nat × Nat) := do
  let capacity ← Memory.readByte buffer
  if 4 < version then
    let old ← Memory.readByte (buffer + 1)
    let kept := min old.toNat capacity.toNat
    return (buffer + 2, kept, capacity.toNat - kept)
  else
    return (buffer + 1, 0, capacity.toNat - 1)

/-- Read a line into a line buffer, in small letters.  The result is the
character that ended it, or 0 if there is no line. -/
def readLine (fuel : Nat) (run : MachineM M H UInt16) (buffer timeout routine : UInt16) :
    MachineM M H UInt8 := do
  let version ← version
  let (start, kept, limit) ← ofMemory (lineRoom version buffer.toNat)
  ofHost Host.flush
  let line ← awaitLine run limit timeout routine fuel
  let length ← match line with
    | some line =>
      let text := (line.take limit).map toLower
      ofMemory (Memory.writeBytes (start + kept) text)
      pure (kept + text.length)
    | none => pure 0
  if 4 < version then
    ofMemory (Memory.writeByte (buffer.toNat + 1) (UInt8.ofNat length))
  else
    ofMemory (Memory.writeByte (start + length) 0)
  return if line.isSome then ZString.newline else 0

/-- Read a line and split it into tokens. -/
def readCommand (fuel : Nat) (run : MachineM M H UInt16) (ops : Operands) : MachineM M H Unit := do
  let h ← header
  if h.version < 4 then
    showStatus
  let terminator ← readLine fuel run (ops.get 0) (ops.get 2) (ops.get 3)
  if (← getCore).halted then return
  if ops.get 1 ≠ 0 then
    ofMemory (Dictionary.tokenise h.version (ops.get 0) (ops.get 1) h.dictionary false)
  if 4 < h.version then
    storeResult terminator.toUInt16

/-- Store a key.  There is only the keyboard; other devices answer 0. -/
def readKey (fuel : Nat) (run : MachineM M H UInt16) (ops : Operands) : MachineM M H Unit := do
  let key ←
    if 1 < ops.get 0 then pure 0
    else do
      ofHost Host.flush
      awaitKey run (ops.get 1) (ops.get 2) fuel
  storeResult key.toUInt16

/-- Split a line that is in memory, by the story's dictionary if no other is
given. -/
def tokeniseLine (ops : Operands) : MachineM M H Unit := do
  let h ← header
  let dictionary := if ops.get 2 = 0 then h.dictionary else ops.get 2
  ofMemory (Dictionary.tokenise h.version (ops.get 0) (ops.get 1) dictionary (ops.get 3 ≠ 0))

end ZMachine.Machine
