import ZMachine.Machine.State

/-!
# Stack and locals

Words go on and off the stack at `sp`.  Local `n` of the running routine,
counted from 1, is the word at `fp - (n - 1)`.
-/

namespace ZMachine.Core

def push (value : UInt16) : CoreM Unit := fun c =>
  if c.sp = 0 then .error .stackOverflow c
  else .ok () { c with sp := c.sp - 1, stack := c.stack.setIfInBounds (c.sp - 1) value }

def pop : CoreM UInt16 := fun c =>
  match c.stack[c.sp]? with
  | some value => .ok value { c with sp := c.sp + 1 }
  | none => .error .stackUnderflow c

/-- The top word, left where it is. -/
def peek : CoreM UInt16 := fun c =>
  match c.stack[c.sp]? with
  | some value => .ok value c
  | none => .error .stackUnderflow c

/-- Put another word in place of the top one. -/
def replaceTop (value : UInt16) : CoreM Unit := fun c =>
  if c.sp < stackSize then .ok () { c with stack := c.stack.setIfInBounds c.sp value }
  else .error .stackUnderflow c

/-- Index of a local. -/
def localIndex (n : Nat) : CoreM Nat := fun c =>
  if n - 1 ≤ c.fp then .ok (c.fp - (n - 1)) c
  else .error .stackOverflow c

def readLocal (n : Nat) : CoreM UInt16 := do
  let i ← localIndex n
  match (← get).stack[i]? with
  | some value => return value
  | none => throw .stackUnderflow

def writeLocal (n : Nat) (value : UInt16) : CoreM Unit := do
  let i ← localIndex n
  if i < stackSize then
    modify fun c => { c with stack := c.stack.setIfInBounds i value }
  else
    throw .stackUnderflow

/-- Move the program counter by a branch offset, which is relative to two
bytes before it. -/
def jumpBy (offset : UInt16) (c : Core) : Core :=
  { c with pc := UInt32.ofInt ((c.pc.toNat : Int) + signed offset - 2) }

end ZMachine.Core
