import ZMachine.Machine.Variable

/-!
# Routines

A call pushes a frame of four words: the return address in two halves, the
caller's frame pointer, and a word with the number of arguments and the kind
of the call.  The new frame pointer is just below them, and the locals follow
downwards.  A return drops the stack to the frame, takes the four words off
and delivers the value as the kind of the call says.

An asynchronous call runs its routine to the end before it comes back.  How
machine code is run is not known here, so `call` takes the run as an argument.
-/

namespace ZMachine

/-- What becomes of the value of a routine. -/
inductive CallKind where
  /-- It is stored in the variable named behind the call. -/
  | function
  /-- It is dropped. -/
  | procedure
  /-- It ends a run of its own. -/
  | async
  deriving DecidableEq, Repr, Inhabited

namespace CallKind

/-- The kind as it stands in the high byte of a frame's fourth word. -/
def bits : CallKind → UInt16
  | .function => 0x0000
  | .procedure => 0x0100
  | .async => 0x0200

/-- The kind in a frame's fourth word; unknown bits drop the value. -/
def ofFrame (word : UInt16) : CallKind :=
  if highByte word = 0 then .function
  else if highByte word = 2 then .async
  else .procedure

end CallKind

namespace Core

/-- Let the frame pointer point below the top of the stack.  Below a full
stack there is no place for it. -/
def placeFrame : CoreM Unit := fun c =>
  if c.sp = 0 then .error .registerUnderflow c
  else .ok () { c with fp := c.sp - 1 }

/-- Push the frame of a call and let the frame pointer point below it. -/
def enter (arguments : Nat) (kind : CallKind) : CoreM Unit := do
  let c ← get
  push (UInt16.ofNat (c.pc.toNat / 0x10000))
  push (UInt16.ofNat c.pc.toNat)
  push (UInt16.ofNat c.fp)
  push (UInt16.ofNat (arguments % 256) ||| kind.bits)
  placeFrame

/-- Take the current frame off the stack and go back to its caller. -/
def leave : CoreM CallKind := do
  modify fun c => { c with sp := c.fp + 1 }
  let word ← pop
  let fp ← pop
  let low ← pop
  let high ← pop
  if stackSize ≤ fp.toNat then
    throw .stackUnderflow
  modify fun c =>
    { c with fp := fp.toNat, pc := UInt32.ofNat (high.toNat * 0x10000 + low.toNat) }
  return CallKind.ofFrame word

end Core

namespace Machine

open MachineM

variable {M H : Type} [AddressSpace M]

/-- Push `n` locals.  Before version 5 each has a default in the code; an
argument takes its place. -/
def pushLocals : (n : Nat) → (arguments : List UInt16) → MachineM M H Unit
  | 0, _ => return
  | n + 1, arguments => do
    let initial ← if 4 < (← version) then pure 0 else fetchWord
    ofCore (Core.push (arguments.headD initial))
    pushLocals n arguments.tail

/-- Call the routine at the packed address that comes first, with the rest as
arguments.  Routine 0 does nothing and returns 0.  An asynchronous call
answers the value of the routine, any other answers 0 at once. -/
def call (run : MachineM M H UInt16) (kind : CallKind) (values : List UInt16) :
    MachineM M H UInt16 := do
  let routine := values.headD 0
  let arguments := values.tail
  if routine = 0 then
    if kind = .function then storeResult 0
    return 0
  ofCore (Core.enter arguments.length kind)
  modifyCore fun c => { c with pc := UInt32.ofNat (c.header.unpack routine) }
  let locals ← fetchByte
  pushLocals locals.toNat arguments
  if kind = .async then
    let status ← run
    modifyCore fun c => { c with runState := .run, status := 1 }
    return status
  return 0

/-- Return a value from the running routine. -/
def ret (value : UInt16) : MachineM M H Unit := do
  match ← ofCore Core.leave with
  | .async => modifyCore fun c => { c with runState := .stop, status := value }
  | .function => storeResult value
  | .procedure => return

/-- Read a branch and follow it if `flag` is as the branch asks.  Its first
byte has the sense in bit 7; bit 6 tells an offset of 6 bits from a signed one
of 14.  Offsets 0 and 1 return that value from the routine. -/
def branch (flag : Bool) : MachineM M H Unit := do
  let first ← fetchByte
  let near := UInt16.ofNat (first.toNat % 64)
  let offset ←
    if first &&& 0x40 ≠ 0 then pure near
    else do
      let second ← fetchByte
      let far := near <<< 8 ||| second.toUInt16
      pure (if far &&& 0x2000 ≠ 0 then far ||| 0xC000 else far)
  if flag = decide (0x80 ≤ first) then
    if offset = 0 ∨ offset = 1 then ret offset
    else modifyCore (Core.jumpBy offset)

/-- Store the frame pointer from version 5 on; before, drop the top word. -/
def catchFrame : MachineM M H Unit := do
  if 4 < (← version) then
    storeResult (UInt16.ofNat (← getCore).fp)
  else
    discard (ofCore Core.pop)

/-- Return a value from the routine whose frame pointer was stored by
`catchFrame`, dropping the frames below. -/
def throwTo (value target : UInt16) : MachineM M H Unit := do
  let fp := (← getCore).fp
  if target.toNat < fp then
    throw (.illegalThrow target.toNat fp)
  modifyCore fun c => { c with fp := target.toNat }
  ret value

/-- Branch if the routine was called with at least `n` arguments. -/
def checkArgumentCount (n : UInt16) : MachineM M H Unit := do
  let c ← getCore
  let supplied := (c.stack[c.fp + 1]?.getD 0) &&& 0x00ff
  branch (n ≤ supplied)

end Machine
end ZMachine
