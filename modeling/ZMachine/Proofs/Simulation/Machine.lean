import ZMachine.Proofs.Simulation.Story

/-!
# Simulation between machines

Two machines over different memories run side by side with the same host and
the same core.  `LookSim` holds of a relation between them that reading
memory and variables respects, `CodeSim` if also the program counter may move
on; `MachineSim` asks in addition for what instructions do besides
taking words off the stack, entering and leaving routines: memory accesses,
host calls, pushes, writes to locals, changes of the core away from the stack.
What remains is left to the relation at hand, so the same lemmas serve
relations that say something about the stack.
-/

namespace ZMachine

open MachineM

/-! ## Computations on a part -/

namespace MachineM

variable {M H α : Type} {s s' : Machine M H} {a : α} {e : Fault}

theorem ofMemory_eq_ok_iff {x : MemoryM M α} :
    (ofMemory x : MachineM M H α) s = .ok a s' ↔
      ∃ memory, x s.memory = .ok a memory ∧ s' = { s with memory } := by
  simp only [ofMemory]
  cases x s.memory with
  | ok b memory => grind
  | error e memory => simp

theorem ofMemory_eq_error_iff {x : MemoryM M α} :
    (ofMemory x : MachineM M H α) s = .error e s' ↔
      ∃ memory, x s.memory = .error e memory ∧ s' = { s with memory } := by
  simp only [ofMemory]
  cases x s.memory with
  | ok b memory => simp
  | error e memory => grind

theorem ofHost_eq_ok_iff {x : HostM H α} :
    (ofHost x : MachineM M H α) s = .ok a s' ↔
      ∃ host, x s.host = .ok a host ∧ s' = { s with host } := by
  simp only [ofHost]
  cases x s.host with
  | ok b host => grind
  | error e host => simp

theorem ofHost_eq_error_iff {x : HostM H α} :
    (ofHost x : MachineM M H α) s = .error e s' ↔
      ∃ reason host, x s.host = .error reason host ∧ e = .display reason ∧
        s' = { s with host } := by
  simp only [ofHost]
  cases x s.host with
  | ok b host => simp
  | error reason host => grind

theorem ofCore_eq_ok_iff {x : CoreM α} :
    (ofCore x : MachineM M H α) s = .ok a s' ↔
      ∃ core, x s.core = .ok a core ∧ s' = { s with core } := by
  simp only [ofCore]
  cases x s.core with
  | ok b core => grind
  | error e core => simp

theorem ofCore_eq_error_iff {x : CoreM α} :
    (ofCore x : MachineM M H α) s = .error e s' ↔
      ∃ core, x s.core = .error e core ∧ s' = { s with core } := by
  simp only [ofCore]
  cases x s.core with
  | ok b core => simp
  | error e core => grind

end MachineM

theorem Core.readLocal_eq (n : Nat) (c : Core) :
    Core.readLocal n c =
      if n - 1 ≤ c.fp then
        match c.stack[c.fp - (n - 1)]? with
        | some value => .ok value c
        | none => .error .stackUnderflow c
      else .error .stackOverflow c := by
  by_cases hn : n - 1 ≤ c.fp
  · have hindex : Core.localIndex n c = .ok (c.fp - (n - 1)) c := by
      rw [Core.localIndex, if_pos hn]
    rw [Core.readLocal, bind_ok hindex, if_pos hn]
    refine (bind_ok rfl).trans ?_
    cases c.stack[c.fp - (n - 1)]? <;> rfl
  · have hindex : Core.localIndex n c = .error .stackOverflow c := by
      rw [Core.localIndex, if_neg hn]
    rw [Core.readLocal, bind_error hindex, if_neg hn]

/-- A core with an empty stack that belongs to no story. -/
def Core.blank (header : Header) (settings : Settings) : Core :=
  { header, settings, pristine := [], dice := .ofSeed 1, entropy := ⟨fun _ => 0, 0⟩, pc := 0 }

variable {M N H : Type} [AddressSpace M] [AddressSpace N] {α β : Type}

structure LookSim (strict : Prop) (P : Machine M H → Machine N H → Prop) : Prop where
  core_eq : ∀ s t, P s t → s.core = t.core
  ofMemory : ∀ {α : Type} {x : MemoryM M α} {y : MemoryM N α}, Parametric x y →
    Sim strict P P (ofMemory x) (ofMemory y)

structure CodeSim (strict : Prop) (P : Machine M H → Machine N H → Prop) : Prop
    extends LookSim strict P where
  movePc : ∀ f : UInt32 → UInt32,
    Sim strict P P (modifyCore fun c => { c with pc := f c.pc })
      (modifyCore fun c => { c with pc := f c.pc })

/-- What a machine was loaded with. -/
def Core.origin (c : Core) : Header × Settings × List UInt8 :=
  (c.header, c.settings, c.pristine)

/-- Stack, frame, origin and run state are the same, and an ended story has not
come back. -/
structure Core.Adjusted (c c' : Core) : Prop where
  stack_eq : c'.stack = c.stack
  sp_eq : c'.sp = c.sp
  fp_eq : c'.fp = c.fp
  origin_eq : c'.origin = c.origin
  runState_eq : c'.runState = c.runState
  halted : c.halted = true → c'.halted = true

def Core.IsAdjustment (f : Core → Core) : Prop :=
  ∀ c, Core.Adjusted c (f c)

structure MachineSim (strict : Prop) (P : Machine M H → Machine N H → Prop) : Prop
    extends CodeSim strict P where
  host_eq : ∀ s t, P s t → s.host = t.host
  ofHost : ∀ {α : Type} (x : HostM H α), Sim strict P P (ofHost x) (ofHost x)
  setHost : ∀ f : H → H,
    Sim strict P P (modify fun s => { s with host := f s.host } : MachineM M H Unit)
      (modify fun s => { s with host := f s.host } : MachineM N H Unit)
  adjust : ∀ f : Core → Core, Core.IsAdjustment f →
    Sim strict P P (modifyCore f) (modifyCore f)
  push : ∀ value, Sim strict P P (ofCore (Core.push value)) (ofCore (Core.push value))
  writeLocal : ∀ n value,
    Sim strict P P (ofCore (Core.writeLocal n value)) (ofCore (Core.writeLocal n value))

variable {strict : Prop} {P Q : Machine M H → Machine N H → Prop}

/-! ## Variables -/

namespace LookSim

theorem getCore (h : LookSim strict P) :
    Sim strict P P (getCore : MachineM M H Core) (MachineM.getCore : MachineM N H Core) :=
  .look h.core_eq

theorem header (h : LookSim strict P) :
    Sim strict P P (header : MachineM M H Header) (MachineM.header : MachineM N H Header) :=
  .look fun s t hst => by rw [h.core_eq s t hst]

theorem version (h : LookSim strict P) :
    Sim strict P P (version : MachineM M H UInt8) (MachineM.version : MachineM N H UInt8) :=
  .look fun s t hst => by rw [h.core_eq s t hst]

/-- A look at the core that may fail. -/
theorem inspect (h : LookSim strict P) {x : CoreM α} (hx : ∀ c, reached (x c) = c) :
    Sim strict P P (ofCore x) (ofCore x) where
  ok {s s' t a} hst hs := by
    obtain ⟨core, hcore, rfl⟩ := ofCore_eq_ok_iff.mp hs
    have hsame := hx s.core
    rw [hcore] at hsame
    subst hsame
    rw [h.core_eq s t hst] at hcore
    exact ⟨t, ofCore_eq_ok_iff.mpr ⟨_, hcore, rfl⟩, hst⟩
  error _ s s' t e hst hs := by
    obtain ⟨core, hcore, rfl⟩ := ofCore_eq_error_iff.mp hs
    have hsame := hx s.core
    rw [hcore] at hsame
    subst hsame
    rw [h.core_eq s t hst] at hcore
    exact ⟨t, ofCore_eq_error_iff.mpr ⟨_, hcore, rfl⟩, hst⟩

theorem peek (h : LookSim strict P) :
    Sim strict P P (ofCore Core.peek) (ofCore Core.peek) := by
  refine h.inspect fun c => ?_
  unfold Core.peek
  split <;> rfl

theorem readLocal (h : LookSim strict P) (n : Nat) :
    Sim strict P P (ofCore (Core.readLocal n)) (ofCore (Core.readLocal n)) := by
  refine h.inspect fun c => ?_
  rw [Core.readLocal_eq]
  split
  · split <;> rfl
  · rfl

theorem loadVariable (h : LookSim strict P) (n : UInt8) :
    Sim strict P P (Machine.loadVariable n : MachineM M H UInt16)
      (Machine.loadVariable n : MachineM N H UInt16) :=
  .ite (fun _ => h.peek) fun _ =>
    .ite (fun _ => h.readLocal n.toNat) fun _ =>
      .bind h.header fun _ => h.ofMemory (.readWord _)

theorem statusLine (h : LookSim strict P) :
    Sim strict P P (Machine.statusLine : MachineM M H (List UInt8))
      (Machine.statusLine : MachineM N H (List UInt8)) := by
  refine .bind (h.loadVariable 16) fun location => .bind (h.loadVariable 17) fun _ => ?_
  refine .bind (h.loadVariable 18) fun _ => .bind h.getCore fun c => ?_
  refine .bind (h.ofMemory (.readByte _)) fun _ => ?_
  exact .bind (h.ofMemory (.name c.header location)) fun _ => .pure _

theorem showStatus [Host H] (h : LookSim strict P)
    (hhost : ∀ x : HostM H Unit, Sim strict P P (MachineM.ofHost x) (MachineM.ofHost x)) :
    Sim strict P P (Machine.showStatus : MachineM M H Unit)
      (Machine.showStatus : MachineM N H Unit) :=
  .bind h.statusLine fun _ => hhost _

end LookSim

/-! ## Instructions -/

namespace CodeSim

theorem fetchByte (h : CodeSim strict P) :
    Sim strict P P (Machine.fetchByte : MachineM M H UInt8)
      (Machine.fetchByte : MachineM N H UInt8) :=
  .bind h.getCore fun c =>
    .bind (h.ofMemory (.readByte c.pc.toNat)) fun b => .bind (h.movePc (· + 1)) fun _ => .pure b

theorem fetchWord (h : CodeSim strict P) :
    Sim strict P P (Machine.fetchWord : MachineM M H UInt16)
      (Machine.fetchWord : MachineM N H UInt16) :=
  .bind h.getCore fun c =>
    .bind (h.ofMemory (.readWord c.pc.toNat)) fun w => .bind (h.movePc (· + 2)) fun _ => .pure w

section

variable (h : CodeSim strict P) (hpop : Sim strict P P (ofCore Core.pop) (ofCore Core.pop))

include h hpop

theorem loadOperand (kind : OperandKind) :
    Sim strict P P (Machine.loadOperand kind : MachineM M H UInt16)
      (Machine.loadOperand kind : MachineM N H UInt16) := by
  cases kind with
  | large => exact h.fetchWord
  | small => exact .bind h.fetchByte fun _ => .pure _
  | «variable» => exact .bind h.fetchByte fun n => .ite (fun _ => hpop) fun _ => h.loadVariable n
  | omitted => exact .pure 0

theorem loadOperands (specifier n : Nat) (ops : Operands) :
    Sim strict P P (Machine.loadOperands specifier n ops : MachineM M H Operands)
      (Machine.loadOperands specifier n ops : MachineM N H Operands) := by
  induction n generalizing ops with
  | zero => exact .pure ops
  | succ n ih =>
      refine .ite (fun _ => .pure ops) fun _ => .bind (h.loadOperand hpop _) fun value => ?_
      exact ih (ops.push value)

theorem loadSpecified (opcode : UInt8) :
    Sim strict P P (Machine.loadSpecified opcode : MachineM M H Operands)
      (Machine.loadSpecified opcode : MachineM N H Operands) :=
  .ite (fun _ => .bind h.fetchWord fun _ => h.loadOperands hpop _ _ _)
    fun _ => .bind h.fetchByte fun _ => h.loadOperands hpop _ _ _

theorem decode :
    Sim strict P P (Machine.decode : MachineM M H Instruction)
      (Machine.decode : MachineM N H Instruction) := by
  refine .bind h.getCore fun c => .bind h.fetchByte fun first => .bind h.version fun version => ?_
  cases Form.classify version first with
  | extended =>
      exact .bind h.fetchByte fun opcode => .bind (h.loadSpecified hpop opcode) fun _ => .pure _
  | twoOp =>
      refine .bind (h.loadOperand hpop _) fun a => .bind (h.loadOperand hpop _) fun b => ?_
      exact .pure _
  | oneOp => exact .bind (h.loadOperand hpop _) fun a => .pure _
  | zeroOp => exact .pure _
  | «variable» => exact .bind (h.loadSpecified hpop _) fun _ => .pure _

end

end CodeSim

namespace MachineSim

variable (h : MachineSim strict P)

include h

/-- Both sides see the same core and the same host. -/
theorem getBind {f : Machine M H → MachineM M H β} {g : Machine N H → MachineM N H β}
    (hfg : ∀ s t, s.core = t.core → s.host = t.host → Sim strict P Q (f s) (g t)) :
    Sim strict P Q (get >>= f) (get >>= g) where
  ok {s _ t _} hst hs := (hfg s t (h.core_eq s t hst) (h.host_eq s t hst)).ok hst hs
  error hstrict s _ t _ hst hs :=
    (hfg s t (h.core_eq s t hst) (h.host_eq s t hst)).error hstrict hst hs

theorem halt :
    Sim strict P P (modifyCore fun c => { c with halted := true })
      (modifyCore fun c => { c with halted := true }) :=
  h.adjust _ fun _ => ⟨rfl, rfl, rfl, rfl, rfl, fun _ => rfl⟩

/-! ## Results -/

theorem storeVariable {n : UInt8}
    (htop : n = 0 → ∀ value,
      Sim strict P P (ofCore (Core.replaceTop value)) (ofCore (Core.replaceTop value)))
    (value : UInt16) :
    Sim strict P P (Machine.storeVariable n value : MachineM M H Unit)
      (Machine.storeVariable n value : MachineM N H Unit) :=
  .ite (fun hn => htop hn value) fun _ =>
    .ite (fun _ => h.writeLocal n.toNat value) fun _ =>
      .bind h.header fun _ => h.ofMemory (.writeWord _ value)

theorem storeResult (value : UInt16) :
    Sim strict P P (Machine.storeResult value : MachineM M H Unit)
      (Machine.storeResult value : MachineM N H Unit) :=
  .bind h.fetchByte fun _ =>
    .ite (fun _ => h.push value) fun hn => h.storeVariable (fun hzero => absurd hzero hn) value

theorem pushLocals (n : Nat) (arguments : List UInt16) :
    Sim strict P P (Machine.pushLocals n arguments : MachineM M H Unit)
      (Machine.pushLocals n arguments : MachineM N H Unit) := by
  induction n generalizing arguments with
  | zero => exact .pure ()
  | succ n ih =>
      refine .bind h.version fun _ => .iteBind (fun _ => .pure 0) (fun _ => h.fetchWord) fun _ => ?_
      exact .bind (h.push _) fun _ => ih arguments.tail

/-! ## Output -/

theorem advanceTable :
    Sim strict P P (Machine.advanceTable : MachineM M H (Option Nat))
      (Machine.advanceTable : MachineM N H (Option Nat)) := by
  refine .bind h.getCore fun c => ?_
  cases c.streams.tables with
  | nil => exact .pure none
  | cons t outer =>
      exact .bind (h.adjust _ fun _ => ⟨rfl, rfl, rfl, rfl, rfl, id⟩) fun _ => .pure _

theorem encodeToTable (text length start table : UInt16) :
    Sim strict P P (Machine.encodeToTable text length start table : MachineM M H Unit)
      (Machine.encodeToTable text length start table : MachineM N H Unit) := by
  refine .bind (h.ofMemory (.readBytes _ _)) fun bytes => .bind h.version fun version => ?_
  split
  · refine .bind (h.ofMemory (.writeWord _ _)) fun _ => ?_
    exact .bind (h.ofMemory (.writeWord _ _)) fun _ => h.ofMemory (.writeWord _ _)
  · exact .pure ()

theorem changeFlags (f : UInt16 → UInt16) :
    Sim strict P P (Machine.changeFlags f : MachineM M H Unit)
      (Machine.changeFlags f : MachineM N H Unit) :=
  .bind (h.ofMemory (.readWord _)) fun flags => h.ofMemory (.writeWord _ (f flags))

theorem closeTable :
    Sim strict P P (Machine.closeTable : MachineM M H Unit)
      (Machine.closeTable : MachineM N H Unit) := by
  refine .bind h.getCore fun c => ?_
  cases c.streams.tables with
  | nil => exact .pure ()
  | cons t outer =>
      refine .bind (h.adjust _ fun _ => ⟨rfl, rfl, rfl, rfl, rfl, id⟩) fun _ => ?_
      exact h.ofMemory (.writeWord _ _)

theorem outputStream (number table : UInt16) :
    Sim strict P P (Machine.outputStream number table : MachineM M H Unit)
      (Machine.outputStream number table : MachineM N H Unit) := by
  refine .ite (fun _ => h.adjust _ fun _ => ⟨rfl, rfl, rfl, rfl, rfl, id⟩) fun _ => ?_
  refine .ite (fun _ => h.adjust _ fun _ => ⟨rfl, rfl, rfl, rfl, rfl, id⟩) fun _ => ?_
  refine .ite (fun _ => h.changeFlags _) fun _ => .ite (fun _ => h.changeFlags _) fun _ => ?_
  refine .ite (fun _ => h.adjust _ fun _ => ⟨rfl, rfl, rfl, rfl, rfl, id⟩) fun _ => ?_
  exact .ite (fun _ => h.closeTable) fun _ => .pure ()

variable [Host H]

theorem showByte (b : UInt8) :
    Sim strict P P (Machine.showByte b : MachineM M H Unit)
      (Machine.showByte b : MachineM N H Unit) :=
  .bind h.getCore fun _ => h.ofHost _

theorem writeCharacter (ch : UInt8) :
    Sim strict P P (Machine.writeCharacter ch : MachineM M H Unit)
      (Machine.writeCharacter ch : MachineM N H Unit) := by
  refine .bind h.advanceTable fun place => ?_
  cases place with
  | some address => exact h.ofMemory (.writeByte address ch)
  | none => exact .bind h.getCore fun _ => .ite (fun _ => .pure ()) fun _ => .forM h.showByte

theorem writeText (text : List UInt8) :
    Sim strict P P (Machine.writeText text : MachineM M H Unit)
      (Machine.writeText text : MachineM N H Unit) :=
  .forM h.writeCharacter

theorem newLine :
    Sim strict P P (Machine.newLine : MachineM M H Unit) (Machine.newLine : MachineM N H Unit) :=
  h.writeCharacter _

theorem printString (address : Nat) :
    Sim strict P P (Machine.printString address : MachineM M H Nat)
      (Machine.printString address : MachineM N H Nat) :=
  .bind h.header fun header =>
    .bind (h.ofMemory (.decodeString header address)) fun _ =>
      .bind (h.writeText _) fun _ => .pure _

theorem printLiteral :
    Sim strict P P (Machine.printLiteral : MachineM M H Unit)
      (Machine.printLiteral : MachineM N H Unit) :=
  .bind h.getCore fun _ =>
    .bind (h.printString _) fun _ => h.adjust _ fun _ => ⟨rfl, rfl, rfl, rfl, rfl, id⟩

theorem printObject (object : UInt16) :
    Sim strict P P (Machine.printObject object : MachineM M H Unit)
      (Machine.printObject object : MachineM N H Unit) :=
  .bind h.header fun header =>
    .bind (h.ofMemory (.name header object)) fun text => h.writeText text

theorem printRows (width skip height start : Nat) :
    Sim strict P P (Machine.printRows width skip height start : MachineM M H Unit)
      (Machine.printRows width skip height start : MachineM N H Unit) := by
  induction height generalizing start with
  | zero => exact .pure ()
  | succ height ih =>
      refine .bind (.forM fun column => ?_) fun _ => .ite (fun _ => ?_) fun _ => .pure ()
      · exact .bind (h.ofMemory (.readByte _)) fun b => h.writeCharacter b
      · exact .bind h.newLine fun _ => ih _

/-! ## The screen -/

theorem initializeScreen :
    Sim strict P P (Machine.initializeScreen : MachineM M H Unit)
      (Machine.initializeScreen : MachineM N H Unit) :=
  .bind (h.adjust _ fun _ => ⟨rfl, rfl, rfl, rfl, rfl, id⟩) fun _ =>
    .bind (h.ofHost _) fun _ => .bind (h.ofHost _) fun _ => h.ofHost _

theorem announceScreen :
    Sim strict P P (Machine.announceScreen : MachineM M H Unit)
      (Machine.announceScreen : MachineM N H Unit) := by
  refine .bind (h.ofMemory (.writeByte _ _)) fun _ => ?_
  refine .bind (h.ofMemory (.writeByte _ _)) fun _ => ?_
  refine h.getBind fun s t hcore hhost => ?_
  rw [hcore, hhost]
  refine .ite (fun _ => .bind (h.ofMemory (.readByte _)) fun b => ?_) fun _ => h.changeFlags _
  exact .bind (h.ofMemory (.writeByte _ _)) fun _ => h.changeFlags _

theorem announceInterpreter (scripting : Bool) :
    Sim strict P P (Machine.announceInterpreter scripting : MachineM M H Unit)
      (Machine.announceInterpreter scripting : MachineM N H Unit) := by
  refine .whenBind (fun _ => h.changeFlags _) fun _ => .bind h.getCore fun c => ?_
  -- Ten fields are filled one after the other.
  iterate 10 refine .bind (h.ofMemory (.writeByte _ _)) fun _ => ?_
  exact .ite (fun _ => h.newLine) fun _ => .pure ()

theorem setWindow (number : UInt16) :
    Sim strict P P (Machine.setWindow number : MachineM M H Unit)
      (Machine.setWindow number : MachineM N H Unit) :=
  .bind (h.adjust _ fun _ => ⟨rfl, rfl, rfl, rfl, rfl, id⟩) fun _ => h.ofHost _

theorem splitWindow (number : UInt16) :
    Sim strict P P (Machine.splitWindow number : MachineM M H Unit)
      (Machine.splitWindow number : MachineM N H Unit) := by
  refine .bind h.getCore fun c => .ite (fun _ => ?_) fun _ => ?_
  case' refine_1 =>
    refine .bind (h.adjust _ fun _ => ⟨rfl, rfl, rfl, rfl, rfl, id⟩) fun _ => ?_
    refine .bind (h.setWindow 0) fun _ => ?_
  case' refine_2 => refine .bind (h.adjust _ fun _ => ⟨rfl, rfl, rfl, rfl, rfl, id⟩) fun _ => ?_
  all_goals
    refine .bind h.getCore fun c => .bind (h.ofHost _) fun _ => ?_
    exact .ite (fun _ => h.ofHost _) fun _ => .pure ()

theorem setCursor (line column : UInt16) :
    Sim strict P P (Machine.setCursor line column : MachineM M H Unit)
      (Machine.setCursor line column : MachineM N H Unit) :=
  .bind h.getCore fun _ => .ite (fun _ => h.ofHost _) fun _ => .pure ()

theorem getCursor (table : UInt16) :
    Sim strict P P (Machine.getCursor table : MachineM M H Unit)
      (Machine.getCursor table : MachineM N H Unit) :=
  .bind (h.ofHost _) fun _ =>
    .bind (h.ofMemory (.writeWord _ _)) fun _ => h.ofMemory (.writeWord _ _)

theorem showStatus :
    Sim strict P P (Machine.showStatus : MachineM M H Unit)
      (Machine.showStatus : MachineM N H Unit) :=
  LookSim.showStatus h.toLookSim h.ofHost

end MachineSim
end ZMachine
