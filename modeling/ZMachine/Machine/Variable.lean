import ZMachine.Machine.Stack

/-!
# Code bytes and variables

Code is read at the program counter, which moves on only if the read
succeeds.  Variable 0 is the top of the stack, 1 to 15 are locals, and the
others are globals in story memory.  Reading and writing variable 0 in place
leaves the size of the stack alone; storing a result in it pushes.
-/

namespace ZMachine.Machine

open MachineM

variable {M H : Type} [AddressSpace M]

def fetchByte : MachineM M H UInt8 := do
  let b ← ofMemory (Memory.readByte (← getCore).pc.toNat)
  modifyCore fun c => { c with pc := c.pc + 1 }
  return b

def fetchWord : MachineM M H UInt16 := do
  let w ← ofMemory (Memory.readWord (← getCore).pc.toNat)
  modifyCore fun c => { c with pc := c.pc + 2 }
  return w

def globalAddress (h : Header) (n : UInt8) : Nat :=
  h.globals.toNat + (n.toNat - 16) * 2

def loadVariable (n : UInt8) : MachineM M H UInt16 := do
  if n = 0 then ofCore Core.peek
  else if n < 16 then ofCore (Core.readLocal n.toNat)
  else ofMemory (Memory.readWord (globalAddress (← header) n))

def storeVariable (n : UInt8) (value : UInt16) : MachineM M H Unit := do
  if n = 0 then ofCore (Core.replaceTop value)
  else if n < 16 then ofCore (Core.writeLocal n.toNat value)
  else ofMemory (Memory.writeWord (globalAddress (← header) n) value)

/-- Store a result in the variable that the next code byte names. -/
def storeResult (value : UInt16) : MachineM M H Unit := do
  let n ← fetchByte
  if n = 0 then ofCore (Core.push value) else storeVariable n value

end ZMachine.Machine
