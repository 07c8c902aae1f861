import ZMachine.Instruction.Operation
import ZMachine.Machine.Arithmetic
import ZMachine.Machine.Input
import ZMachine.Machine.SaveFile
import ZMachine.Machine.Table
import ZMachine.Property

/-!
# Running a story

`step` decodes the instruction at the program counter and carries it out.
`interpret` repeats that until the run is stopped or the story ends.  A read
that times out runs a routine of the story in between, with `interpret`
itself, so both take fuel: `interpret (n + 1)` gives each of its steps, and
the rest of its run, the fuel `n`.  A run that ends with some fuel ends in the
same way with more.
-/

namespace ZMachine.Machine

open MachineM

variable {M H : Type} [AddressSpace M] [Host H]

/-- Carry out an operation.  `run` is how the routine of a read that timed out
is run, and `fuel` bounds how often a read may time out. -/
def execute (fuel : Nat) (run : MachineM M H UInt16) (i : Instruction) :
    Operation → MachineM M H Unit :=
  let ops := i.operands
  let a := ops.get 0
  let b := ops.get 1
  fun
  | .returnTrue => ret 1
  | .returnFalse => ret 0
  | .print => printLiteral
  | .printReturn => printAndReturn
  | .noOperation => return
  | .save => refuseSave
  | .restore => refuseSave
  | .restart => restart
  | .returnPopped => do ret (← ofCore Core.pop)
  | .catchFrame => catchFrame
  | .quit => modifyCore fun c => { c with halted := true }
  | .newLine => newLine
  | .showStatus => do if (← version) < 4 then showStatus
  | .verify => verify
  | .piracy => branch true
  | .jumpZero => branch (a = 0)
  | .getSibling => do
    let sibling ← ofMemory (Object.readLink (← header) a .sibling)
    storeResult sibling
    branch (sibling ≠ 0)
  | .getChild => do
    let child ← ofMemory (Object.readLink (← header) a .child)
    storeResult child
    branch (child ≠ 0)
  | .getParent => do storeResult (← ofMemory (Object.readLink (← header) a .parent))
  | .getPropertyLength => do storeResult (← ofMemory (Property.length (← header) a))
  | .increment => discard (increment (lowByte a))
  | .decrement => discard (decrement (lowByte a))
  | .printAddress => printAddress a
  | .callFunction => discard (call run .function ops.values)
  | .callProcedure => discard (call run .procedure ops.values)
  | .removeObject => do ofMemory (Object.remove (← header) a)
  | .printObject => printObject a
  | .returnValue => ret a
  | .jump => modifyCore (Core.jumpBy a)
  | .printPacked => printPacked a
  | .load => loadInto (lowByte a)
  | .complementOrCall => do
    if 4 < (← version) then discard (call run .procedure [a]) else storeResult (~~~ a)
  | .jumpEqual => branchEqual ops.values
  | .jumpLess => branch (signed a < signed b)
  | .jumpGreater => branch (signed b < signed a)
  | .decrementCheck => do
    let value ← decrement (lowByte a)
    branch (signed value < signed b)
  | .incrementCheck => do
    let value ← increment (lowByte a)
    branch (signed b < signed value)
  | .jumpInside => do
    let parent ← ofMemory (Object.readLink (← header) a .parent)
    branch (parent = b)
  | .testBits => branch (~~~ a &&& b = 0)
  | .or => storeResult (a ||| b)
  | .and => storeResult (a &&& b)
  | .testAttribute => do branch (← ofMemory (Object.testAttribute (← header) a b))
  | .setAttribute => do ofMemory (Object.setAttribute (← header) a b)
  | .clearAttribute => do ofMemory (Object.clearAttribute (← header) a b)
  | .store => storeVariable (lowByte a) b
  | .insertObject => do ofMemory (Object.insert (← header) a b)
  | .loadWord => loadWord a b
  | .loadByte => loadByte a b
  | .getProperty => do storeResult (← ofMemory (Property.get (← header) a b))
  | .getPropertyAddress => do storeResult (← ofMemory (Property.dataAddress (← header) a b))
  | .getNextProperty => do storeResult (← ofMemory (Property.next (← header) a b))
  | .add => storeResult (a + b)
  | .subtract => storeResult (a - b)
  | .multiply => storeResult (a * b)
  | .divide => divide a b i.address
  | .remainder => remainder a b i.address
  | .throwValue => throwTo a b
  | .storeWord => storeWord a b (ops.get 2)
  | .storeByte => storeByte a b (ops.get 2)
  | .putProperty => do ofMemory (Property.put (← header) a b (ops.get 2))
  | .read => readCommand fuel run ops
  | .printCharacter => writeCharacter (lowByte a)
  | .printNumber => printNumber a
  | .random => random a
  | .push => ofCore (Core.push a)
  | .pull => do storeVariable (lowByte a) (← ofCore Core.pop)
  | .splitWindow => splitWindow a
  | .setWindow => setWindow a
  | .eraseWindow => eraseWindow a
  | .eraseLine => eraseLine a
  | .setCursor => setCursor a b
  | .getCursor => getCursor a
  | .setTextStyle => setTextStyle a
  | .bufferMode => setBufferMode a
  | .outputStream => outputStream a b
  | .readKey => readKey fuel run ops
  | .scanTable => scanTable a b (ops.get 2) (ops.getD 3 0x82)
  | .complement => storeResult (~~~ a)
  | .tokenise => tokeniseLine ops
  | .encodeText => encodeToTable a b (ops.get 2) (ops.get 3)
  | .copyTable => copyTable a b (ops.get 2)
  | .printTable => printTable a b (ops.getD 2 1) (ops.get 3)
  | .checkArgumentCount => checkArgumentCount a
  | .saveExtended => refuseExtendedSave
  | .restoreExtended => refuseExtendedSave
  | .logicalShift => storeResult (logicalShift a b)
  | .arithmeticShift => storeResult (arithmeticShift a b)
  | .setFont => storeResult (if a = 1 then 1 else 0)
  | .saveUndo => refuseUndo
  | .restoreUndo => refuseUndo

/-- Decode and carry out one instruction, running interrupts with `run`. -/
def stepWith (fuel : Nat) (run : MachineM M H UInt16) : MachineM M H Unit := do
  let i ← decode
  match Operation.ofOpcode? i.form i.opcode with
  | some operation => execute fuel run i operation
  | none => throw (.unknownOpcode i.form i.opcode i.address)

/-- Begin a run: its value is 1 unless a routine says otherwise. -/
def beginRun : MachineM M H Unit :=
  modifyCore fun c => { c with status := 1, runState := .run }

def isRunning (c : Core) : Bool :=
  c.runState = .run ∧ ¬ c.halted

/-- Go on with a run up to its end; the result is its value. -/
def resume : (fuel : Nat) → MachineM M H UInt16
  | 0 => throw .outOfFuel
  | n + 1 => do
    let c ← getCore
    if isRunning c then
      stepWith n (do beginRun; resume n)
      resume n
    else
      return c.status

/-- Run until the run is stopped or the story ends. -/
def interpret (fuel : Nat) : MachineM M H UInt16 := do
  beginRun
  resume fuel

/-- Decode and carry out one instruction. -/
def step (fuel : Nat) : MachineM M H Unit :=
  stepWith fuel (interpret fuel)

/-- At most `n` steps while the machine runs, after `made` earlier ones; the
result is how many were made in all. -/
def stepsAfter (fuel made : Nat) : (n : Nat) → MachineM M H Nat
  | 0 => return made
  | n + 1 => do
    if isRunning (← getCore) then
      step fuel
      stepsAfter fuel (made + 1) n
    else
      return made

/-- At most `n` steps while the machine runs; the result is how many were
made. -/
def steps (fuel n : Nat) : MachineM M H Nat :=
  stepsAfter fuel 0 n

end ZMachine.Machine
