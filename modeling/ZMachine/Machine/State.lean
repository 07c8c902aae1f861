import ZMachine.Header
import ZMachine.Host
import ZMachine.Settings

/-!
# The machine

A machine is a story memory, a host and a core.  The core holds what belongs
to the processor alone: program counter, stack, run state, output streams.
Computations on the parts (`MemoryM`, `HostM`, `CoreM`) are lifted to
computations on the whole, `MachineM`, which keep the state that they had
reached when they fail.

The stack has a fixed number of words and grows downwards; `sp` is the index
of its top word and equals the size when the stack is empty.  The frame of the
running routine lies around `fp`: its saved words above, its locals from `fp`
downwards.
-/

namespace ZMachine

def stackSize : Nat := 1024

/-- Whether the innermost run goes on. -/
inductive RunState where
  | run
  | stop
  deriving DecidableEq, Repr, Inhabited

/-- A table in story memory that receives the output. -/
structure OutputTable where
  address : Nat
  /-- Characters written so far. -/
  count : UInt16
  deriving DecidableEq, Repr

structure Streams where
  /-- The screen is deselected. -/
  screenOff : Bool := false
  /-- Tables that are open, the innermost first. -/
  tables : List OutputTable := []
  deriving DecidableEq, Repr, Inhabited

structure Core where
  header : Header
  settings : Settings
  /-- Dynamic memory as it was loaded. -/
  pristine : List UInt8
  dice : Dice
  entropy : Entropy
  /-- Address of the next byte of code. -/
  pc : UInt32
  stack : Vector UInt16 stackSize := Vector.replicate stackSize 0
  sp : Nat := stackSize
  fp : Nat := stackSize - 1
  runState : RunState := .run
  /-- The value that the innermost run ends with. -/
  status : UInt16 := 1
  /-- The story has ended. -/
  halted : Bool := false
  window : Window := .lower
  streams : Streams := {}
  /-- Lines of the upper window. -/
  upperLines : UInt16 := 0

structure Machine (M H : Type) where
  memory : M
  host : H
  core : Core

abbrev CoreM := EStateM Fault Core

abbrev MachineM (M H : Type) := EStateM Fault (Machine M H)

namespace MachineM

variable {M H α : Type}

def ofMemory (x : MemoryM M α) : MachineM M H α
  | ⟨memory, host, core⟩ =>
    match x memory with
    | .ok a memory => .ok a ⟨memory, host, core⟩
    | .error e memory => .error e ⟨memory, host, core⟩

def ofHost (x : HostM H α) : MachineM M H α
  | ⟨memory, host, core⟩ =>
    match x host with
    | .ok a host => .ok a ⟨memory, host, core⟩
    | .error reason host => .error (.display reason) ⟨memory, host, core⟩

def ofCore (x : CoreM α) : MachineM M H α
  | ⟨memory, host, core⟩ =>
    match x core with
    | .ok a core => .ok a ⟨memory, host, core⟩
    | .error e core => .error e ⟨memory, host, core⟩

instance : MonadLift (MemoryM M) (MachineM M H) := ⟨ofMemory⟩

instance : MonadLift CoreM (MachineM M H) := ⟨ofCore⟩

def getCore : MachineM M H Core := fun s => .ok s.core s

def modifyCore (f : Core → Core) : MachineM M H Unit
  | ⟨memory, host, core⟩ => .ok () ⟨memory, host, f core⟩

def header : MachineM M H Header := fun s => .ok s.core.header s

def version : MachineM M H UInt8 := fun s => .ok s.core.header.version s

end MachineM

namespace Machine

variable {M H : Type} [AddressSpace M]

/-- Dice by the settings' seed, or by chance. -/
def seedDice (settings : Settings) (entropy : Entropy) : Dice × Entropy :=
  match settings.randomSeed with
  | some seed => (.ofSeed seed, entropy)
  | none =>
    let (seed, entropy) := entropy.next
    (.ofChance seed, entropy)

/-- A machine at the start of the story in a memory. -/
def load (settings : Settings) (entropy : Entropy) (host : H) (memory : M) :
    Except Fault (Machine M H) :=
  let reading : MemoryM M (Header × List UInt8) := do
    let header ← Header.load settings.leastVersion settings.greatestVersion
    let dynamicEnd := min header.dynamicSize.toNat (← Memory.size)
    return (header, ← Memory.readBytes 0 dynamicEnd)
  match reading memory with
  | .error e _ => .error e
  | .ok (header, pristine) memory =>
    let (dice, entropy) := seedDice settings entropy
    .ok { memory, host,
          core := { header, settings, pristine, dice, entropy, pc := header.startPc.toUInt32 } }

end Machine
end ZMachine
