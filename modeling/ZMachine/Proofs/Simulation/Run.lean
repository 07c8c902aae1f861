import ZMachine.Proofs.Simulation.Instruction

/-!
# Simulation of runs

`FrameSim` adds to `MachineSim` what is done to the stack by operations that
pop words, enter and leave routines, throw or start over, and to the state of
the run.  A relation that allows these is respected by every operation, by runs
of any length and by the runs inside them.  `RunSim` allows every computation on
the core that keeps what the machine was loaded with.

`SameParts R` relates machines with the same host and the same core over
memories that `R` relates: such machines cannot be told apart from outside.
-/

namespace ZMachine

open MachineM

/-! ## The origin of a machine -/

/-- A computation on the core that keeps what the machine was loaded with. -/
def Core.KeepsOrigin {α : Type} (x : CoreM α) : Prop :=
  ∀ c, (reached (x c)).origin = c.origin

namespace Core.KeepsOrigin

variable {α β : Type}

theorem pure (a : α) : KeepsOrigin (Pure.pure a) := fun _ => rfl

theorem throw (e : Fault) : KeepsOrigin (MonadExcept.throw e : CoreM α) := fun _ => rfl

theorem change {f : Core → Core} (hf : ∀ c, (f c).origin = c.origin) :
    KeepsOrigin (modify f) := hf

theorem bind {x : CoreM α} {f : α → CoreM β} (hx : KeepsOrigin x)
    (hf : ∀ a, KeepsOrigin (f a)) : KeepsOrigin (x >>= f) := by
  intro c
  have hfirst := hx c
  cases h : x c with
  | ok a c' =>
      rw [h] at hfirst
      rw [bind_ok h]
      exact (hf a c').trans hfirst
  | error e c' =>
      rw [h] at hfirst
      rw [bind_error h]
      exact hfirst

theorem whenBind {c : Prop} [Decidable c] {x : CoreM Unit} {f : Unit → CoreM β}
    (hx : KeepsOrigin x) (hf : ∀ a, KeepsOrigin (f a)) :
    KeepsOrigin (if c then x >>= f else f ()) := by
  split
  · exact hx.bind hf
  · exact hf ()

theorem push (value : UInt16) : KeepsOrigin (Core.push value) := by
  intro c
  unfold Core.push
  split <;> rfl

theorem pop : KeepsOrigin Core.pop := by
  intro c
  unfold Core.pop
  split <;> rfl

theorem replaceTop (value : UInt16) : KeepsOrigin (Core.replaceTop value) := by
  intro c
  unfold Core.replaceTop
  split <;> rfl

theorem localIndex (n : Nat) : KeepsOrigin (Core.localIndex n) := by
  intro c
  unfold Core.localIndex
  split <;> rfl

theorem writeLocal (n : Nat) (value : UInt16) : KeepsOrigin (Core.writeLocal n value) := by
  refine .bind (.localIndex n) fun i => ?_
  split
  · exact .change fun _ => rfl
  · exact .throw _

theorem placeFrame : KeepsOrigin Core.placeFrame := by
  intro c
  unfold Core.placeFrame
  split <;> rfl

theorem enter (arguments : Nat) (kind : CallKind) : KeepsOrigin (Core.enter arguments kind) := by
  refine .bind (fun _ => rfl) fun c => ?_
  iterate 4 refine .bind (.push _) fun _ => ?_
  exact .placeFrame

theorem leave : KeepsOrigin Core.leave := by
  -- Stated for any values: the kernel would otherwise compute with the ones read.
  have hback : ∀ (fp : Nat) (pc : UInt32), KeepsOrigin (modify fun c => { c with fp, pc }) :=
    fun _ _ => .change fun _ => rfl
  refine .bind (.change fun _ => rfl) fun _ => ?_
  iterate 4 refine .bind .pop fun _ => ?_
  refine .whenBind (.throw _) fun _ => ?_
  exact .bind (hback _ _) fun _ => .pure _

end Core.KeepsOrigin

/-! ## Frames -/

/-- Leave the frame at an index, whichever is current. -/
def Core.unwind (fp : Nat) : CoreM CallKind := do
  modify fun c => { c with fp }
  leave

theorem Core.KeepsOrigin.unwind (fp : Nat) : KeepsOrigin (Core.unwind fp) :=
  .bind (.change fun _ => rfl) fun _ => .leave

/-- What becomes of a value once its frame is left. -/
def Machine.deliver {M H : Type} [AddressSpace M] (value : UInt16) : CallKind → MachineM M H Unit
  | .async => modifyCore fun c => { c with runState := .stop, status := value }
  | .function => Machine.storeResult value
  | .procedure => return

theorem MachineM.ofCore_bind {M H α β : Type} (x : CoreM α) (f : α → CoreM β) :
    (ofCore (x >>= f) : MachineM M H β) = ofCore x >>= fun a => ofCore (f a) := by
  funext s
  cases hx : x s.core with
  | ok a core => simp only [ofCore, bind, EStateM.bind, hx]
  | error e core => simp only [ofCore, bind, EStateM.bind, hx]

theorem Machine.ret_eq {M H : Type} [AddressSpace M] (value : UInt16) :
    (Machine.ret value : MachineM M H Unit) = ofCore Core.leave >>= Machine.deliver value := by
  refine congrArg (ofCore Core.leave >>= ·) (funext fun kind => ?_)
  cases kind <;> rfl

/-- A return takes a frame off and delivers the value. -/
theorem Machine.ret_ok {M H : Type} [AddressSpace M] {value : UInt16} {s s' : Machine M H}
    (h : Machine.ret value s = .ok () s') :
    ∃ kind c, Core.leave s.core = .ok kind c ∧
      Machine.deliver value kind { s with core := c } = .ok () s' := by
  rw [Machine.ret_eq] at h
  obtain ⟨kind, _, hleave, hdeliver⟩ := bind_eq_ok_iff.mp h
  obtain ⟨c, hc, rfl⟩ := ofCore_eq_ok_iff.mp hleave
  exact ⟨kind, c, hc, hdeliver⟩

/-- A return after the frame pointer has been set. -/
theorem Machine.unwind_eq {M H : Type} [AddressSpace M] (value : UInt16) (fp : Nat) :
    (do modifyCore fun c => { c with fp }
        Machine.ret value : MachineM M H Unit) =
      ofCore (Core.unwind fp) >>= Machine.deliver value := by
  rw [Machine.ret_eq, Core.unwind, MachineM.ofCore_bind, bind_assoc]
  rfl

/-- A change of the core that empties the stack. -/
def Core.IsReset (f : Core → Core) : Prop :=
  ∀ c, (f c).stack = c.stack ∧ (f c).sp = stackSize ∧ (f c).fp = stackSize - 1 ∧
    (f c).origin = c.origin

/-! ## Runs -/

variable {M N H : Type}

section

variable [AddressSpace M] [AddressSpace N]

structure FrameSim (strict : Prop) (P : Machine M H → Machine N H → Prop) : Prop
    extends MachineSim strict P where
  pop : Sim strict P P (ofCore Core.pop) (ofCore Core.pop)
  replaceTop : ∀ value,
    Sim strict P P (ofCore (Core.replaceTop value)) (ofCore (Core.replaceTop value))
  enter : ∀ arguments kind,
    Sim strict P P (ofCore (Core.enter arguments kind)) (ofCore (Core.enter arguments kind))
  leave : Sim strict P P (ofCore Core.leave) (ofCore Core.leave)
  unwind : ∀ fp, Sim strict P P (ofCore (Core.unwind fp)) (ofCore (Core.unwind fp))
  reset : ∀ f : Core → Core, Core.IsReset f → Sim strict P P (modifyCore f) (modifyCore f)
  setRun : ∀ state value,
    Sim strict P P (modifyCore fun c => { c with runState := state, status := value })
      (modifyCore fun c => { c with runState := state, status := value })

structure RunSim (strict : Prop) (P : Machine M H → Machine N H → Prop) : Prop
    extends FrameSim strict P where
  ofCore : ∀ {α : Type} {x : CoreM α}, Core.KeepsOrigin x →
    Sim strict P P (ofCore x) (ofCore x)
  pop := ofCore .pop
  replaceTop := fun value => ofCore (.replaceTop value)
  enter := fun arguments kind => ofCore (.enter arguments kind)
  leave := ofCore .leave
  unwind := fun fp => ofCore (.unwind fp)
  reset := fun _ hf => ofCore (.change fun c => (hf c).2.2.2)
  setRun := fun state value => ofCore <|
    .change (f := fun c => { c with runState := state, status := value }) fun _ => rfl

theorem RunSim.modifyCore {strict : Prop} {P : Machine M H → Machine N H → Prop}
    (h : RunSim strict P) {f : Core → Core} (hf : ∀ c, (f c).origin = c.origin) :
    Sim strict P P (modifyCore f) (MachineM.modifyCore f) :=
  h.ofCore (.change hf)

theorem MachineSim.deliver {strict : Prop} {P : Machine M H → Machine N H → Prop}
    (h : MachineSim strict P) {kind : CallKind} (hkind : kind ≠ .async) (value : UInt16) :
    Sim strict P P (Machine.deliver value kind) (Machine.deliver value kind) := by
  cases kind with
  | async => exact absurd rfl hkind
  | function => exact h.storeResult value
  | procedure => exact .pure ()

namespace FrameSim

variable {strict : Prop} {P : Machine M H → Machine N H → Prop} (h : FrameSim strict P)

include h

theorem deliver (value : UInt16) (kind : CallKind) :
    Sim strict P P (Machine.deliver value kind) (Machine.deliver value kind) := by
  by_cases hkind : kind = .async
  · subst hkind
    exact h.setRun .stop value
  · exact h.toMachineSim.deliver hkind value

theorem ret (value : UInt16) :
    Sim strict P P (Machine.ret value) (Machine.ret value) := by
  rw [Machine.ret_eq, Machine.ret_eq]
  exact .bind h.leave fun kind => h.deliver value kind

variable {run : MachineM M H UInt16} {run' : MachineM N H UInt16}

theorem call (hrun : Sim strict P P run run') (kind : CallKind) (values : List UInt16) :
    Sim strict P P (Machine.call run kind values) (Machine.call run' kind values) := by
  refine .ite (fun _ => .whenBind (fun _ => h.storeResult 0) fun _ => .pure 0) fun _ => ?_
  refine .bind (h.enter _ _) fun _ => ?_
  refine .bind (h.adjust _ fun _ => ⟨rfl, rfl, rfl, rfl, rfl, id⟩) fun _ => ?_
  refine .bind h.fetchByte fun locals => .bind (h.pushLocals _ _) fun _ => ?_
  refine .ite (fun _ => .bind hrun fun status => ?_) fun _ => .pure 0
  exact .bind (h.setRun .run 1) fun _ => .pure status

theorem catchFrame :
    Sim strict P P (Machine.catchFrame : MachineM M H Unit) Machine.catchFrame := by
  refine .bind h.version fun _ => .ite (fun _ => .bind h.getCore fun c => ?_) fun _ => ?_
  · exact h.storeResult _
  · exact h.pop.discard

theorem throwTo (value target : UInt16) :
    Sim strict P P (Machine.throwTo value target) (Machine.throwTo value target) := by
  refine .bind h.getCore fun c => .whenBind (fun _ => .throw _) fun _ => ?_
  dsimp only
  rw [Machine.unwind_eq, Machine.unwind_eq]
  exact .bind (h.unwind _) fun kind => h.deliver value kind

/-! ### Input -/

theorem interruptRead (hrun : Sim strict P P run run') (routine : UInt16) :
    Sim strict P P (Machine.interruptRead run routine) (Machine.interruptRead run' routine) :=
  .bind (h.call hrun .async [routine]) fun _ => .bind h.getCore fun _ => .pure _

variable [Host H]

theorem awaitLine (hrun : Sim strict P P run run')
    (limit : Nat) (timeout routine : UInt16) (fuel : Nat) :
    Sim strict P P (Machine.awaitLine run limit timeout routine fuel)
      (Machine.awaitLine run' limit timeout routine fuel) := by
  induction fuel with
  | zero => exact .throw _
  | succ fuel ih =>
      refine .bind (h.ofHost _) fun reply => ?_
      cases reply with
      | given line => exact .pure _
      | closed => exact .bind h.halt fun _ => .pure none
      | timedOut =>
          refine .bind (h.interruptRead hrun routine) fun ended => .ite (fun _ => ?_) fun _ => ih
          exact .bind (h.setHost _) fun _ => .pure none

theorem awaitKey (hrun : Sim strict P P run run') (timeout routine : UInt16) (fuel : Nat) :
    Sim strict P P (Machine.awaitKey run timeout routine fuel)
      (Machine.awaitKey run' timeout routine fuel) := by
  induction fuel with
  | zero => exact .throw _
  | succ fuel ih =>
      refine .bind (h.ofHost _) fun reply => ?_
      cases reply with
      | given key => exact .pure _
      | closed => exact .bind h.halt fun _ => .pure 0
      | timedOut =>
          exact .bind (h.interruptRead hrun routine) fun ended =>
            .ite (fun _ => .pure 0) fun _ => ih

theorem readLine (hrun : Sim strict P P run run')
    (fuel : Nat) (buffer timeout routine : UInt16) :
    Sim strict P P (Machine.readLine fuel run buffer timeout routine)
      (Machine.readLine fuel run' buffer timeout routine) := by
  refine .bind h.version fun version => .bind (h.ofMemory (.lineRoom version _)) fun room => ?_
  refine .bind (h.ofHost _) fun _ => .bind (h.awaitLine hrun _ timeout routine fuel) fun line => ?_
  cases line with
  | some line =>
      refine .bind (h.ofMemory (.writeBytes _ _)) fun _ => .bind (.pure _) fun length => ?_
      exact .iteBind (fun _ => h.ofMemory (.writeByte _ _)) (fun _ => h.ofMemory (.writeByte _ _))
        fun _ => .pure _
  | none =>
      refine .bind (.pure 0) fun length => ?_
      exact .iteBind (fun _ => h.ofMemory (.writeByte _ _)) (fun _ => h.ofMemory (.writeByte _ _))
        fun _ => .pure _

theorem readCommand (hrun : Sim strict P P run run') (fuel : Nat) (ops : Operands) :
    Sim strict P P (Machine.readCommand fuel run ops) (Machine.readCommand fuel run' ops) := by
  refine .bind h.header fun header => .whenBind (fun _ => h.showStatus) fun _ => ?_
  refine .bind (h.readLine hrun fuel _ _ _) fun terminator => .bind h.getCore fun c => ?_
  refine .ite (fun _ => .pure ()) fun _ => .whenBind (fun _ => ?_) fun _ => ?_
  · exact h.ofMemory (.tokenise _ _ _ _ _)
  · exact .ite (fun _ => h.storeResult _) fun _ => .pure ()

theorem readKey (hrun : Sim strict P P run run') (fuel : Nat) (ops : Operands) :
    Sim strict P P (Machine.readKey fuel run ops) (Machine.readKey fuel run' ops) := by
  refine .ite (fun _ => .bind (.pure 0) fun _ => h.storeResult _) fun _ => ?_
  refine .bind (h.ofHost _) fun _ => .bind (h.awaitKey hrun _ _ fuel) fun key => ?_
  exact h.storeResult _

/-! ### Steps -/

theorem restart :
    Sim strict P P (Machine.restart : MachineM M H Unit) Machine.restart := by
  refine .bind h.getCore fun c => ?_
  cases c.settings.randomSeed
  case' some seed => refine .bind (h.adjust _ fun _ => ⟨rfl, rfl, rfl, rfl, rfl, id⟩) fun _ => ?_
  case' none => refine .bind h.rollFromClock fun _ => ?_
  all_goals
    refine .bind (h.ofMemory (.readWord _)) fun flags => .bind h.getCore fun c => ?_
    refine .bind (h.ofMemory (.restoreBytes 0 c.pristine)) fun _ => ?_
    refine .bind h.announceScreen fun _ => .bind (h.announceInterpreter _) fun _ => ?_
    exact h.reset _ fun _ => ⟨rfl, rfl, rfl, rfl⟩

theorem execute (hrun : Sim strict P P run run') (fuel : Nat) (i : Instruction) (op : Operation) :
    Sim strict P P (Machine.execute fuel run i op) (Machine.execute fuel run' i op) := by
  cases hop : op.dealsWithFrames with
  | false =>
      exact h.toMachineSim.execute (fun _ _ => id) h.ret fuel run run' i hop
        fun _ _ value => h.replaceTop value
  | true =>
      cases op with
      | returnPopped => exact .bind h.pop fun value => h.ret value
      | catchFrame => exact h.catchFrame
      | pull =>
          exact .bind h.pop fun value =>
            h.storeVariable (fun _ _ => h.replaceTop _) value
      | callFunction => exact (h.call hrun .function _).discard
      | callProcedure => exact (h.call hrun .procedure _).discard
      | complementOrCall =>
          exact .bind h.version fun _ =>
            .ite (fun _ => (h.call hrun .procedure _).discard) fun _ => h.storeResult _
      | read => exact h.readCommand hrun fuel _
      | readKey => exact h.readKey hrun fuel _
      | throwValue => exact h.throwTo _ _
      | restart => exact h.restart
      | _ => cases hop

theorem stepWith (hrun : Sim strict P P run run') (fuel : Nat) :
    Sim strict P P (Machine.stepWith fuel run) (Machine.stepWith fuel run') := by
  refine .bind (h.decode h.pop) fun i => ?_
  cases Operation.ofOpcode? i.form i.opcode with
  | some op => exact h.execute hrun fuel i op
  | none => exact .throw _

omit [Host H] in
theorem beginRun :
    Sim strict P P (Machine.beginRun : MachineM M H Unit) Machine.beginRun :=
  h.setRun .run 1

theorem resume (fuel : Nat) :
    Sim strict P P (Machine.resume fuel : MachineM M H UInt16) (Machine.resume fuel) := by
  induction fuel with
  | zero => exact .throw _
  | succ n ih =>
      refine .bind h.getCore fun c => .ite (fun _ => ?_) fun _ => .pure _
      exact .bind (h.stepWith (.bind h.beginRun fun _ => ih) n) fun _ => ih

theorem interpret (fuel : Nat) :
    Sim strict P P (Machine.interpret fuel : MachineM M H UInt16) (Machine.interpret fuel) :=
  .bind h.beginRun fun _ => h.resume fuel

theorem step (fuel : Nat) :
    Sim strict P P (Machine.step fuel : MachineM M H Unit) (Machine.step fuel) :=
  h.stepWith (h.interpret fuel) fuel

theorem close : Sim strict P P (Machine.close : MachineM M H Unit) Machine.close :=
  .bind (h.ofMemory .flush) fun _ => h.ofHost _

end FrameSim

end

/-! ## Machines that differ in their memories only -/

structure SameParts (R : M → N → Prop) (s : Machine M H) (t : Machine N H) : Prop where
  memory : R s.memory t.memory
  host : s.host = t.host
  core : s.core = t.core

namespace SameParts

variable {strict : Prop} {R : M → N → Prop} {α : Type}

/-- Any computation on the core. -/
theorem ofCore (x : CoreM α) :
    Sim strict (SameParts (H := H) R) (SameParts R) (ofCore x) (ofCore x) where
  ok {s _ t _} hst hs := by
    obtain ⟨core, hx, rfl⟩ := ofCore_eq_ok_iff.mp hs
    rw [hst.core] at hx
    exact ⟨_, ofCore_eq_ok_iff.mpr ⟨core, hx, rfl⟩, hst.memory, hst.host, rfl⟩
  error _ s _ t _ hst hs := by
    obtain ⟨core, hx, rfl⟩ := ofCore_eq_error_iff.mp hs
    rw [hst.core] at hx
    exact ⟨_, ofCore_eq_error_iff.mpr ⟨core, hx, rfl⟩, hst.memory, hst.host, rfl⟩

theorem modifyCore (f : Core → Core) :
    Sim strict (SameParts (H := H) R) (SameParts R) (modifyCore f) (modifyCore f) :=
  ofCore (modify f)

variable [AddressSpace M] [AddressSpace N]

theorem machineSim (hR : MemorySim strict R) : MachineSim strict (SameParts (H := H) R) where
  core_eq _ _ hst := hst.core
  host_eq _ _ hst := hst.host
  ofMemory {_ x y} hxy := by
    constructor
    · intro s _ t _ hst hs
      obtain ⟨memory, hx, rfl⟩ := ofMemory_eq_ok_iff.mp hs
      obtain ⟨memory', hy, hmemory⟩ := (hxy strict R hR).ok hst.memory hx
      exact ⟨_, ofMemory_eq_ok_iff.mpr ⟨memory', hy, rfl⟩, hmemory, hst.host, hst.core⟩
    · intro hstrict s _ t _ hst hs
      obtain ⟨memory, hx, rfl⟩ := ofMemory_eq_error_iff.mp hs
      obtain ⟨memory', hy, hmemory⟩ := (hxy strict R hR).error hstrict hst.memory hx
      exact ⟨_, ofMemory_eq_error_iff.mpr ⟨memory', hy, rfl⟩, hmemory, hst.host, hst.core⟩
  ofHost x := by
    constructor
    · intro s _ t _ hst hs
      obtain ⟨host, hx, rfl⟩ := ofHost_eq_ok_iff.mp hs
      rw [hst.host] at hx
      exact ⟨_, ofHost_eq_ok_iff.mpr ⟨host, hx, rfl⟩, hst.memory, rfl, hst.core⟩
    · intro _ s _ t _ hst hs
      obtain ⟨reason, host, hx, rfl, rfl⟩ := ofHost_eq_error_iff.mp hs
      rw [hst.host] at hx
      exact ⟨_, ofHost_eq_error_iff.mpr ⟨reason, host, hx, rfl, rfl⟩, hst.memory, rfl, hst.core⟩
  setHost f := by
    constructor
    · intro s _ t _ hst hs
      cases hs
      exact ⟨_, rfl, hst.memory, congrArg f hst.host, hst.core⟩
    · intro _ s _ t _ _ hs
      cases hs
  movePc f := modifyCore _
  adjust f _ := modifyCore f
  push value := ofCore _
  writeLocal n value := ofCore _

theorem runSim (hR : MemorySim strict R) : RunSim strict (SameParts (H := H) R) where
  toMachineSim := machineSim hR
  ofCore _ := ofCore _

theorem close [Host H] (hR : MemorySim strict R) :
    Sim strict (SameParts (H := H) R) (SameParts R) Machine.close Machine.close :=
  (runSim hR).close

theorem parametric_reading (settings : Settings) :
    Parametric
      (do let header ← Header.load settings.leastVersion settings.greatestVersion
          let dynamicEnd := min header.dynamicSize.toNat (← Memory.size)
          return (header, ← Memory.readBytes 0 dynamicEnd) : MemoryM M (Header × List UInt8))
      (do let header ← Header.load settings.leastVersion settings.greatestVersion
          let dynamicEnd := min header.dynamicSize.toNat (← Memory.size)
          return (header, ← Memory.readBytes 0 dynamicEnd) : MemoryM N (Header × List UInt8)) :=
  .bind (.loadHeader _ _) fun _ => .bind .size fun _ => .bind (.readBytes 0 _) fun _ => .pure _

theorem load_ok (hR : MemorySim strict R) {m : M} {n : N} (hmn : R m n) {settings : Settings}
    {entropy : Entropy} {host : H} {s : Machine M H}
    (h : Machine.load settings entropy host m = .ok s) :
    ∃ t, Machine.load settings entropy host n = .ok t ∧ SameParts R s t := by
  unfold Machine.load at h ⊢
  dsimp only at h ⊢
  split at h <;> cases h
  next header pristine m' hx =>
    obtain ⟨n', hy, hmn'⟩ := (parametric_reading settings strict R hR).ok hmn hx
    exact ⟨_, by rw [hy], hmn', rfl, rfl⟩

/-- Loading a story reads memory, and nothing else depends on it. -/
theorem load {R : M → N → Prop} (hR : MemorySim True R) {m : M} {n : N} (hmn : R m n)
    (settings : Settings) (entropy : Entropy) (host : H) :
    (∃ e, Machine.load settings entropy host m = .error e ∧
        Machine.load settings entropy host n = .error e) ∨
      ∃ s t, Machine.load settings entropy host m = .ok s ∧
        Machine.load settings entropy host n = .ok t ∧ SameParts R s t := by
  cases hm : Machine.load settings entropy host m with
  | ok s =>
      obtain ⟨t, ht, hst⟩ := load_ok hR hmn hm
      exact .inr ⟨s, t, rfl, ht, hst⟩
  | error e =>
      refine .inl ⟨e, rfl, ?_⟩
      unfold Machine.load at hm ⊢
      dsimp only at hm ⊢
      split at hm <;> cases hm
      next m' hx =>
        obtain ⟨n', hy, -⟩ := (parametric_reading settings True R hR).error trivial hmn hx
        rw [hy]

end SameParts
end ZMachine
