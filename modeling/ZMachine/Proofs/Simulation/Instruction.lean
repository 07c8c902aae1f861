import ZMachine.Interpreter
import ZMachine.Proofs.Simulation.Machine

/-!
# Simulation of instructions

Most operations keep to what `MachineSim` allows, up to a return at the end:
a branch may leave the routine.  `execute` covers them all in one pass, with
the relation `Q` after a return left open.  The operations that pop words or
deal with frames themselves are `dealsWithFrames`; what they need depends on
the relation.
-/

namespace ZMachine

open MachineM

namespace Operation

/-- Operations that pop, call or run routines, throw, or start over. -/
def dealsWithFrames : Operation → Bool
  | returnPopped | catchFrame | pull | callFunction | callProcedure | complementOrCall
  | read | readKey | throwValue | restart => true
  | _ => false

/-- Operations that write the variable named by their first operand in
place. -/
def writesInPlace : Operation → Bool
  | increment | decrement | incrementCheck | decrementCheck | store => true
  | _ => false

end Operation

variable {M N H : Type} [AddressSpace M] [AddressSpace N]
variable {strict : Prop} {P Q : Machine M H → Machine N H → Prop}

namespace MachineSim

variable (h : MachineSim strict P)

include h

/-! ## Arithmetic and tables -/

theorem addToVariable {n : UInt8}
    (htop : n = 0 → ∀ value,
      Sim strict P P (ofCore (Core.replaceTop value)) (ofCore (Core.replaceTop value)))
    (amount : UInt16) :
    Sim strict P P (Machine.addToVariable n amount : MachineM M H UInt16)
      (Machine.addToVariable n amount : MachineM N H UInt16) :=
  .bind (h.loadVariable n) fun _ => .bind (h.storeVariable htop _) fun _ => .pure _

theorem loadInto (n : UInt8) :
    Sim strict P P (Machine.loadInto n : MachineM M H Unit)
      (Machine.loadInto n : MachineM N H Unit) :=
  .bind (h.loadVariable n) fun value => h.storeResult value

theorem divide (a b : UInt16) (pc : UInt32) :
    Sim strict P P (Machine.divide a b pc : MachineM M H Unit)
      (Machine.divide a b pc : MachineM N H Unit) :=
  .ite (fun _ => .throw _) fun _ => h.storeResult _

theorem remainder (a b : UInt16) (pc : UInt32) :
    Sim strict P P (Machine.remainder a b pc : MachineM M H Unit)
      (Machine.remainder a b pc : MachineM N H Unit) :=
  .ite (fun _ => .throw _) fun _ => h.storeResult _

theorem copyTable (source target size : UInt16) :
    Sim strict P P (Machine.copyTable source target size : MachineM M H Unit)
      (Machine.copyTable source target size : MachineM N H Unit) :=
  .ite (fun _ => h.ofMemory (.clearBytes _ _)) fun _ =>
    .ite (fun _ => h.ofMemory (.copyForward _ _ _)) fun _ => h.ofMemory (.copyBackward _ _ _)

theorem tokeniseLine (ops : Operands) :
    Sim strict P P (Machine.tokeniseLine ops : MachineM M H Unit)
      (Machine.tokeniseLine ops : MachineM N H Unit) :=
  .bind h.header fun _ => h.ofMemory (.tokenise _ _ _ _ _)

theorem checksum :
    Sim strict P P (Machine.checksum : MachineM M H UInt16)
      (Machine.checksum : MachineM N H UInt16) :=
  .bind h.header fun _ => .bind (h.ofMemory .size) fun _ => h.ofMemory (.sumBytes _ _ _)

section

variable [Host H]

theorem rollFromClock :
    Sim strict P P (Machine.rollFromClock : MachineM M H Unit)
      (Machine.rollFromClock : MachineM N H Unit) := by
  refine h.getBind fun s t _ hhost => ?_
  rw [hhost]
  exact h.adjust _ fun _ => ⟨rfl, rfl, rfl, rfl, rfl, id⟩

theorem random (range : UInt16) :
    Sim strict P P (Machine.random range : MachineM M H Unit)
      (Machine.random range : MachineM N H Unit) := by
  refine .ite (fun _ => .bind h.getCore fun c => ?_) fun _ => ?_
  · exact .bind (h.adjust _ fun _ => ⟨rfl, rfl, rfl, rfl, rfl, id⟩) fun _ => h.storeResult _
  · refine .iteBind (fun _ => h.rollFromClock) (fun _ => ?_) fun _ => h.storeResult 0
    exact h.adjust _ fun _ => ⟨rfl, rfl, rfl, rfl, rfl, id⟩

end

/-! ## Branches -/

section

variable (hPQ : ∀ s t, P s t → Q s t)
variable (hret : ∀ value, Sim strict P Q (Machine.ret value : MachineM M H Unit)
  (Machine.ret value : MachineM N H Unit))

include hPQ hret

theorem branch (flag : Bool) :
    Sim strict P Q (Machine.branch flag : MachineM M H Unit)
      (Machine.branch flag : MachineM N H Unit) := by
  have hstay : ∀ offset, Sim strict P Q (modifyCore (Core.jumpBy offset) : MachineM M H Unit)
      (modifyCore (Core.jumpBy offset) : MachineM N H Unit) :=
    fun offset => (h.adjust (Core.jumpBy offset) fun _ => ⟨rfl, rfl, rfl, rfl, rfl, id⟩).mono hPQ
  refine .bind h.fetchByte fun first => .ite (fun _ => ?_) fun _ =>
    .bind h.fetchByte fun second => ?_
  all_goals
    refine .bind (.pure _) fun offset => .ite (fun _ => ?_) fun _ => (Sim.pure ()).mono hPQ
    exact .ite (fun _ => hret offset) fun _ => hstay offset

theorem branchEqual (values : List UInt16) :
    Sim strict P Q (Machine.branchEqual values : MachineM M H Unit)
      (Machine.branchEqual values : MachineM N H Unit) := by
  cases values with
  | nil => exact h.branch hPQ hret false
  | cons a rest => exact h.branch hPQ hret _

theorem scanTable (value table length form : UInt16) :
    Sim strict P Q (Machine.scanTable value table length form : MachineM M H Unit)
      (Machine.scanTable value table length form : MachineM N H Unit) := by
  refine .bind (h.ofMemory (.searchTable _ _ _ _ _)) fun found => ?_
  cases found with
  | some address => exact .bind (h.storeResult _) fun _ => h.branch hPQ hret true
  | none => exact .bind (h.storeResult 0) fun _ => h.branch hPQ hret false

theorem refuseSave :
    Sim strict P Q (Machine.refuseSave : MachineM M H Unit)
      (Machine.refuseSave : MachineM N H Unit) :=
  .bind h.version fun _ =>
    .ite (fun _ => h.branch hPQ hret false) fun _ => (h.storeResult 0).mono hPQ

theorem checkArgumentCount (n : UInt16) :
    Sim strict P Q (Machine.checkArgumentCount n : MachineM M H Unit)
      (Machine.checkArgumentCount n : MachineM N H Unit) :=
  .bind h.getCore fun _ => h.branch hPQ hret _

/-! ## All operations -/

/-- An operation that leaves popping and frames alone, except for a return at
its end. -/
theorem execute [Host H] (fuel : Nat) (run : MachineM M H UInt16) (run' : MachineM N H UInt16)
    (i : Instruction) {op : Operation} (hop : op.dealsWithFrames = false)
    (htop : op.writesInPlace = true → lowByte (i.operands.get 0) = 0 → ∀ value,
      Sim strict P P (ofCore (Core.replaceTop value)) (ofCore (Core.replaceTop value))) :
    Sim strict P Q (Machine.execute fuel run i op) (Machine.execute fuel run' i op) := by
  have hbranch := h.branch hPQ hret
  have hstore : ∀ value, Sim strict P Q (Machine.storeResult value : MachineM M H Unit)
      (Machine.storeResult value : MachineM N H Unit) := fun value => (h.storeResult value).mono hPQ
  have hmemory : ∀ {x : MemoryM M Unit} {y : MemoryM N Unit}, Parametric x y →
      Sim strict P Q (ofMemory x) (ofMemory y) := fun hxy => (h.ofMemory hxy).mono hPQ
  have hhost : ∀ x : HostM H Unit, Sim strict P Q (MachineM.ofHost x) (MachineM.ofHost x) :=
    fun x => (h.ofHost x).mono hPQ
  cases op with
  | returnTrue => exact hret 1
  | returnFalse => exact hret 0
  | returnValue => exact hret _
  | printReturn => exact .bind h.printLiteral fun _ => .bind h.newLine fun _ => hret 1
  | noOperation => exact (Sim.pure ()).mono hPQ
  | quit => exact h.halt.mono hPQ
  | jump => exact (h.adjust (Core.jumpBy _) fun _ => ⟨rfl, rfl, rfl, rfl, rfl, id⟩).mono hPQ
  | push => exact (h.push _).mono hPQ
  -- Output and screen.
  | print => exact h.printLiteral.mono hPQ
  | newLine => exact h.newLine.mono hPQ
  | showStatus =>
      exact .bind h.version fun _ => .ite (fun _ => h.showStatus.mono hPQ) fun _ =>
        (Sim.pure ()).mono hPQ
  | printAddress => exact (h.printString _).discard.mono hPQ
  | printPacked => exact .bind h.header fun _ => (h.printString _).discard.mono hPQ
  | printObject => exact (h.printObject _).mono hPQ
  | printCharacter => exact (h.writeCharacter _).mono hPQ
  | printNumber => exact (h.writeText _).mono hPQ
  | printTable =>
      exact (Sim.ite (fun _ => .pure ()) fun _ => h.printRows _ _ _ _).mono hPQ
  | encodeText => exact (h.encodeToTable _ _ _ _).mono hPQ
  | outputStream => exact (h.outputStream _ _).mono hPQ
  | splitWindow => exact (h.splitWindow _).mono hPQ
  | setWindow => exact (h.setWindow _).mono hPQ
  | eraseWindow => exact hhost _
  | eraseLine => exact .ite (fun _ => hhost _) fun _ => (Sim.pure ()).mono hPQ
  | setCursor => exact (h.setCursor _ _).mono hPQ
  | getCursor => exact (h.getCursor _).mono hPQ
  | setTextStyle => exact hhost _
  | bufferMode => exact hhost _
  -- Branches.
  | piracy => exact hbranch true
  | jumpZero => exact hbranch _
  | jumpEqual => exact h.branchEqual hPQ hret _
  | jumpLess => exact hbranch _
  | jumpGreater => exact hbranch _
  | testBits => exact hbranch _
  | verify => exact .bind h.checksum.discard fun _ => hbranch true
  | save => exact h.refuseSave hPQ hret
  | restore => exact h.refuseSave hPQ hret
  | checkArgumentCount => exact h.checkArgumentCount hPQ hret _
  | scanTable => exact h.scanTable hPQ hret _ _ _ _
  | jumpInside =>
      exact .bind h.header fun _ => .bind (h.ofMemory (.readLink _ _ _)) fun _ => hbranch _
  | testAttribute =>
      exact .bind h.header fun _ => .bind (h.ofMemory (.testAttribute _ _ _)) fun _ => hbranch _
  | getSibling =>
      refine .bind h.header fun _ => .bind (h.ofMemory (.readLink _ _ _)) fun sibling => ?_
      exact .bind (h.storeResult sibling) fun _ => hbranch _
  | getChild =>
      refine .bind h.header fun _ => .bind (h.ofMemory (.readLink _ _ _)) fun child => ?_
      exact .bind (h.storeResult child) fun _ => hbranch _
  -- Objects and properties.
  | getParent => exact .bind h.header fun _ => .bind (h.ofMemory (.readLink _ _ _)) hstore
  | getPropertyLength =>
      exact .bind h.header fun _ => .bind (h.ofMemory (.propertyLength _ _)) hstore
  | getProperty => exact .bind h.header fun _ => .bind (h.ofMemory (.getProperty _ _ _)) hstore
  | getPropertyAddress =>
      exact .bind h.header fun _ => .bind (h.ofMemory (.propertyAddress _ _ _)) hstore
  | getNextProperty => exact .bind h.header fun _ => .bind (h.ofMemory (.nextProperty _ _ _)) hstore
  | putProperty => exact .bind h.header fun _ => hmemory (.putProperty _ _ _ _)
  | removeObject => exact .bind h.header fun _ => hmemory (.remove _ _)
  | insertObject => exact .bind h.header fun _ => hmemory (.insert _ _ _)
  | setAttribute => exact .bind h.header fun _ => hmemory (.setAttribute _ _ _)
  | clearAttribute => exact .bind h.header fun _ => hmemory (.clearAttribute _ _ _)
  -- Variables in place.
  | increment => exact (h.addToVariable (htop rfl) 1).discard.mono hPQ
  | decrement => exact (h.addToVariable (htop rfl) 0xFFFF).discard.mono hPQ
  | incrementCheck => exact .bind (h.addToVariable (htop rfl) 1) fun _ => hbranch _
  | decrementCheck => exact .bind (h.addToVariable (htop rfl) 0xFFFF) fun _ => hbranch _
  | store => exact (h.storeVariable (htop rfl) _).mono hPQ
  | load => exact (h.loadInto _).mono hPQ
  -- Words, arrays and tables.
  | or => exact hstore _
  | and => exact hstore _
  | add => exact hstore _
  | subtract => exact hstore _
  | multiply => exact hstore _
  | divide => exact (h.divide _ _ _).mono hPQ
  | remainder => exact (h.remainder _ _ _).mono hPQ
  | complement => exact hstore _
  | logicalShift => exact hstore _
  | arithmeticShift => exact hstore _
  | setFont => exact hstore _
  | saveUndo => exact hstore _
  | restoreUndo => exact hstore _
  | saveExtended => exact hstore _
  | restoreExtended => exact hstore _
  | random => exact (h.random _).mono hPQ
  | loadWord => exact .bind (h.ofMemory (.readWord _)) hstore
  | loadByte => exact .bind (h.ofMemory (.readByte _)) fun _ => hstore _
  | storeWord => exact hmemory (.writeWord _ _)
  | storeByte => exact hmemory (.writeByte _ _)
  | tokenise => exact (h.tokeniseLine _).mono hPQ
  | copyTable => exact (h.copyTable _ _ _).mono hPQ
  | returnPopped | catchFrame | pull | callFunction | callProcedure | complementOrCall
  | read | readKey | throwValue | restart => cases hop

end

end MachineSim

end ZMachine
