import ZMachine.Proofs.Frame.Trace

/-!
# Operations that use the stack

How far an operation may reach into the stack depends on how many words there
belong to its routine.  `RoomSim` holds of a family of relations, one for every
such number, if a word may be popped or replaced as long as one is left.  Then
`RoomSim.execute` covers all operations, with calls and reads as hypotheses.

A read may call a routine each time it times out, and it goes on if the routine
answers zero.  `ReadSim` has one relation for the time before the answer, which
such a call has to give back, and one for what follows.

Failures do not count here.
-/

namespace ZMachine

open MachineM

variable {M N H : Type} [AddressSpace M] [AddressSpace N]
variable {P Q P' Q' : Machine M H → Machine N H → Prop} {α β : Type}

omit [AddressSpace M] [AddressSpace N] in
/-- A look at the core, with what is seen kept in mind. -/
theorem inspectBind (hcore : ∀ s t, P s t → s.core = t.core) (look : Core → α)
    {f : α → MachineM M H β} {g : α → MachineM N H β}
    (hfg : ∀ c, Sim False (fun s t => P s t ∧ s.core = c) Q (f (look c)) (g (look c))) :
    Sim False P Q ((fun s => .ok (look s.core) s : MachineM M H α) >>= f)
      ((fun s => .ok (look s.core) s : MachineM N H α) >>= g) := by
  refine ⟨?_, False.elim⟩
  intro s s' t a hst h
  change f (look s.core) s = _ at h
  change ∃ t', g (look t.core) t = _ ∧ _
  rw [← hcore s t hst]
  exact (hfg s.core).ok ⟨hst, rfl⟩ h

/-! ## Calls -/

/-- Enter a routine, up to its first instruction. -/
def Machine.enterRoutine (kind : CallKind) (values : List UInt16) : MachineM M H Unit := do
  ofCore (Core.enter values.tail.length kind)
  modifyCore fun c => { c with pc := UInt32.ofNat (c.header.unpack (values.headD 0)) }
  let locals ← Machine.fetchByte
  Machine.pushLocals locals.toNat values.tail

theorem Machine.call_eq (run : MachineM M H UInt16) (kind : CallKind) (values : List UInt16) :
    Machine.call run kind values =
      if values.headD 0 = 0 then
        if kind = .function then do Machine.storeResult 0; return 0 else return 0
      else do
        Machine.enterRoutine kind values
        if kind = .async then do
          let status ← run
          modifyCore fun c => { c with runState := .run, status := 1 }
          return status
        else return 0 := by
  simp only [Machine.call, Machine.enterRoutine, bind_assoc]

theorem enterRoutine_sim (hQ : MachineSim False Q) {kind : CallKind} {values : List UInt16}
    (henter : Sim False P Q (ofCore (Core.enter values.tail.length kind))
      (ofCore (Core.enter values.tail.length kind))) :
    Sim False P Q (Machine.enterRoutine kind values) (Machine.enterRoutine kind values) :=
  .bindThrough henter fun _ => .bind (hQ.adjust _ fun _ => ⟨rfl, rfl, rfl, rfl, rfl, id⟩) fun _ =>
    .bind hQ.fetchByte fun _ => hQ.pushLocals _ _

section

variable {run : MachineM M H UInt16} {run' : MachineM N H UInt16}

theorem callPlain_sim (hQ : MachineSim False Q) {kind : CallKind} (hkind : kind ≠ .async)
    (values : List UInt16) (hover : ∀ s t, P s t → Q s t)
    (hstore : Sim False P Q (Machine.storeResult 0) (Machine.storeResult 0))
    (henter : ∀ arguments, Sim False P Q (ofCore (Core.enter arguments kind))
      (ofCore (Core.enter arguments kind))) :
    Sim False P Q (Machine.call run kind values) (Machine.call run' kind values) := by
  rw [Machine.call_eq, Machine.call_eq]
  refine .ite (fun _ => .ite (fun _ => ?_) fun _ => ?_) fun _ => ?_
  · exact .bindThrough hstore fun _ => .pure 0
  · exact (Sim.pure 0).mono hover
  · refine .bindThrough (enterRoutine_sim hQ (henter _)) fun _ => ?_
    exact .ite (fun hasync => absurd hasync hkind) fun _ => .pure 0

theorem callAsync_sim (hP' : MachineSim False P') (values : List UInt16)
    (hover : ∀ s t, P s t → Q s t)
    (henter : ∀ arguments, Sim False P P' (ofCore (Core.enter arguments .async))
      (ofCore (Core.enter arguments .async)))
    (hrun : Sim False P' Q' run run')
    (hback : Sim False Q' Q (modifyCore fun c => { c with runState := .run, status := 1 })
      (modifyCore fun c => { c with runState := .run, status := 1 })) :
    Sim False P Q (Machine.call run .async values) (Machine.call run' .async values) := by
  rw [Machine.call_eq, Machine.call_eq]
  refine .ite (fun _ => .ite nofun fun _ => (Sim.pure 0).mono hover) fun _ => ?_
  refine .bindThrough (enterRoutine_sim hP' (henter _)) fun _ => ?_
  refine .ite (fun _ => .bindThrough hrun fun status => ?_) (fun hasync => absurd rfl hasync)
  exact .bindThrough hback fun _ => .pure status

end

/-! ## Reads -/

structure ReadSim (P Q : Machine M H → Machine N H → Prop) (run : MachineM M H UInt16)
    (run' : MachineM N H UInt16) : Prop where
  before : LookSim False P
  ofHost : ∀ {α : Type} (x : HostM H α), Sim False P P (ofHost x) (ofHost x)
  after : MachineSim False Q
  stay : ∀ s t, P s t → Q s t
  call : ∀ routine,
    Sim False P (fun s t => Q s t ∧ (s.core.halted = false → P s t))
      (Machine.call run .async [routine]) (Machine.call run' .async [routine])

namespace ReadSim

variable {run : MachineM M H UInt16} {run' : MachineM N H UInt16} (h : ReadSim P Q run run')

include h

/-- A read that is not over after an interrupt can be interrupted again. -/
theorem interruptBind {f : Bool → MachineM M H β} {g : Bool → MachineM N H β} (routine : UInt16)
    (hover : Sim False Q Q' (f true) (g true)) (hgoes : Sim False P Q' (f false) (g false)) :
    Sim False P Q' (Machine.interruptRead run routine >>= f)
      (Machine.interruptRead run' routine >>= g) := by
  refine ⟨?_, False.elim⟩
  intro s s' t b hst hs
  obtain ⟨ended, s₂, hinterrupt, hf⟩ := bind_eq_ok_iff.mp hs
  obtain ⟨status, s₁, hcall, hlook⟩ := bind_eq_ok_iff.mp hinterrupt
  cases hlook
  obtain ⟨t₁, hcall', hafter, hagain⟩ := (h.call routine).ok hst hcall
  have hinterrupt' : Machine.interruptRead run' routine t =
      .ok (decide (status ≠ 0 ∨ s₂.core.halted)) t₁ := by
    rw [h.after.core_eq s₂ t₁ hafter]
    exact bind_ok hcall'
  rw [bind_ok hinterrupt']
  cases hended : decide (status ≠ 0 ∨ s₂.core.halted) with
  | true =>
      rw [hended] at hf
      exact hover.ok hafter hf
  | false =>
      rw [hended] at hf
      have hhalted : s₂.core.halted = false := by
        have hnot := of_decide_eq_false hended
        exact Bool.eq_false_iff.mpr fun hhalted => hnot (.inr hhalted)
      exact hgoes.ok (hagain hhalted) hf

variable [Host H]

theorem awaitLine (limit : Nat) (timeout routine : UInt16) (fuel : Nat) :
    Sim False P Q (Machine.awaitLine run limit timeout routine fuel)
      (Machine.awaitLine run' limit timeout routine fuel) := by
  induction fuel with
  | zero => exact .throw _
  | succ fuel ih =>
      refine .bind (h.ofHost _) fun reply => ?_
      cases reply with
      | given line => exact (Sim.pure _).mono h.stay
      | closed => exact .bindThrough (h.after.halt.pre h.stay) fun _ => .pure none
      | timedOut => exact h.interruptBind routine (.bind (h.after.setHost _) fun _ => .pure none) ih

theorem awaitKey (timeout routine : UInt16) (fuel : Nat) :
    Sim False P Q (Machine.awaitKey run timeout routine fuel)
      (Machine.awaitKey run' timeout routine fuel) := by
  induction fuel with
  | zero => exact .throw _
  | succ fuel ih =>
      refine .bind (h.ofHost _) fun reply => ?_
      cases reply with
      | given key => exact (Sim.pure _).mono h.stay
      | closed => exact .bindThrough (h.after.halt.pre h.stay) fun _ => .pure 0
      | timedOut => exact h.interruptBind routine (.pure 0) ih

theorem readLine (fuel : Nat) (buffer timeout routine : UInt16) :
    Sim False P Q (Machine.readLine fuel run buffer timeout routine)
      (Machine.readLine fuel run' buffer timeout routine) := by
  refine .bind h.before.version fun version => ?_
  refine .bind (h.before.ofMemory (.lineRoom _ _)) fun room => .bind (h.ofHost _) fun _ => ?_
  refine .bindThrough (h.awaitLine _ timeout routine fuel) fun line => ?_
  cases line with
  | some line =>
      refine .bind (h.after.ofMemory (.writeBytes _ _)) fun _ => .bind (.pure _) fun length => ?_
      exact .iteBind (fun _ => h.after.ofMemory (.writeByte _ _))
        (fun _ => h.after.ofMemory (.writeByte _ _)) fun _ => .pure _
  | none =>
      refine .bind (.pure 0) fun length => ?_
      exact .iteBind (fun _ => h.after.ofMemory (.writeByte _ _))
        (fun _ => h.after.ofMemory (.writeByte _ _)) fun _ => .pure _

theorem readCommand (fuel : Nat) (ops : Operands) :
    Sim False P Q (Machine.readCommand fuel run ops) (Machine.readCommand fuel run' ops) := by
  refine .bind h.before.header fun header => ?_
  refine .whenBind (fun _ => h.before.showStatus h.ofHost) fun _ => ?_
  refine .bindThrough (h.readLine fuel _ _ _) fun terminator => ?_
  refine .bind h.after.getCore fun c => .ite (fun _ => .pure ()) fun _ => ?_
  refine .whenBind (fun _ => h.after.ofMemory (.tokenise _ _ _ _ _)) fun _ => ?_
  exact .ite (fun _ => h.after.storeResult _) fun _ => .pure ()

theorem readKey (fuel : Nat) (ops : Operands) :
    Sim False P Q (Machine.readKey fuel run ops) (Machine.readKey fuel run' ops) := by
  refine .ite (fun _ => ?_) fun _ => .bind (h.ofHost _) fun _ => ?_
  · exact .bindThrough ((Sim.pure 0).mono h.stay) fun _ => h.after.storeResult _
  · exact .bindThrough (h.awaitKey _ _ fuel) fun _ => h.after.storeResult _

end ReadSim

/-! ## Words of the routine -/

structure RoomSim (P : Nat → Machine M H → Machine N H → Prop)
    (Q : Machine M H → Machine N H → Prop) : Prop where
  sim : ∀ r, MachineSim False (P r)
  pop : ∀ r, Sim False (P (r + 1)) (P r) (ofCore Core.pop) (ofCore Core.pop)
  replaceTop : ∀ r value,
    Sim False (P (r + 1)) (P (r + 1)) (ofCore (Core.replaceTop value))
      (ofCore (Core.replaceTop value))
  ret : ∀ r value, Sim False (P r) Q (Machine.ret value) (Machine.ret value)
  stay : ∀ r s t, P r s t → Q s t

theorem Instruction.reach_of_writesInPlace {i : Instruction} {op : Operation}
    (hop : Operation.ofOpcode? i.form i.opcode = some op) (hwrites : op.writesInPlace = true)
    (hzero : lowByte (i.operands.get 0) = 0) (version : UInt8) : i.reach version = 1 := by
  cases op with
  | increment | decrement | incrementCheck | decrementCheck | store =>
      simp only [Instruction.reach, hop, if_pos hzero]
  | _ => cases hwrites

namespace RoomSim

variable {P : Nat → Machine M H → Machine N H → Prop} {P₀ : Machine M H → Machine N H → Prop}
variable (h : RoomSim P Q) {i : Instruction}
variable (hroom : ∀ r s t, P₀ s t → r ≤ i.reach s.core.header.version → P r s t)

include h hroom

theorem catchFrame (hcore : ∀ s t, P₀ s t → s.core = t.core)
    (hop : Operation.ofOpcode? i.form i.opcode = some .catchFrame) :
    Sim False P₀ Q Machine.catchFrame Machine.catchFrame := by
  refine inspectBind hcore (fun c => c.header.version) fun c => .ite (fun _ => ?_) fun hv => ?_
  · have hstore := Sim.bind (h.sim 0).getCore fun c => (h.sim 0).storeResult (UInt16.ofNat c.fp)
    exact (hstore.mono (h.stay 0)).pre fun s t hst => hroom 0 s t hst.1 (Nat.zero_le _)
  · refine ((h.pop 0).discard.mono (h.stay 0)).pre fun s t hst => hroom 1 s t hst.1 ?_
    obtain ⟨-, rfl⟩ := hst
    simp only [Instruction.reach, hop, if_neg hv, Nat.le_refl]

theorem pull (hop : Operation.ofOpcode? i.form i.opcode = some .pull) :
    Sim False P₀ Q
      (do Machine.storeVariable (lowByte (i.operands.get 0)) (← ofCore Core.pop))
      (do Machine.storeVariable (lowByte (i.operands.get 0)) (← ofCore Core.pop)) := by
  by_cases hzero : lowByte (i.operands.get 0) = 0
  · refine .bindThrough ((h.pop 1).pre fun s t hst => hroom 2 s t hst ?_) fun value => ?_
    · simp only [Instruction.reach, hop, if_pos hzero, Nat.le_refl]
    · exact ((h.sim 1).storeVariable (fun _ => h.replaceTop 0) value).mono (h.stay 1)
  · refine .bindThrough ((h.pop 0).pre fun s t hst => hroom 1 s t hst ?_) fun value => ?_
    · simp only [Instruction.reach, hop, if_neg hzero, Nat.le_refl]
    · exact ((h.sim 0).storeVariable (fun hn => absurd hn hzero) value).mono (h.stay 0)

variable [Host H] {run : MachineM M H UInt16} {run' : MachineM N H UInt16}

theorem executePlain (fuel : Nat) {op : Operation}
    (hop : Operation.ofOpcode? i.form i.opcode = some op) (hplain : op.dealsWithFrames = false) :
    Sim False P₀ Q (Machine.execute fuel run i op) (Machine.execute fuel run' i op) := by
  by_cases hplace : op.writesInPlace = true ∧ lowByte (i.operands.get 0) = 0
  · have hexecute := (h.sim 1).execute (h.stay 1) (h.ret 1) fuel run run' i hplain
      fun _ _ => h.replaceTop 0
    refine hexecute.pre fun s t hst => hroom 1 s t hst ?_
    exact Nat.le_of_eq (Instruction.reach_of_writesInPlace hop hplace.1 hplace.2 _).symm
  · have hexecute := (h.sim 0).execute (h.stay 0) (h.ret 0) fuel run run' i hplain
      fun hwrites hzero => absurd ⟨hwrites, hzero⟩ hplace
    exact hexecute.pre fun s t hst => hroom 0 s t hst (Nat.zero_le _)

/-- An instruction whose operands are loaded.  Throwing and starting over use
words of other routines, and are left to the relation at hand. -/
theorem execute (fuel : Nat) {op : Operation}
    (hop : Operation.ofOpcode? i.form i.opcode = some op)
    (hcore : ∀ s t, P₀ s t → s.core = t.core)
    (hcall : ∀ kind values, kind ≠ .async →
      Sim False P₀ Q (Machine.call run kind values) (Machine.call run' kind values))
    (hread : ReadSim P' Q' run run') (hbefore : ∀ s t, P₀ s t → P' s t)
    (hafter : ∀ s t, Q' s t → Q s t)
    (hthrow : op = .throwValue → ∀ value target,
      Sim False P₀ Q (Machine.throwTo value target) (Machine.throwTo value target))
    (hrestart : op = .restart → Sim False P₀ Q Machine.restart Machine.restart) :
    Sim False P₀ Q (Machine.execute fuel run i op) (Machine.execute fuel run' i op) := by
  cases hframes : op.dealsWithFrames with
  | false => exact h.executePlain hroom fuel hop hframes
  | true =>
      cases op with
      | returnPopped =>
          refine .bindThrough ((h.pop 0).pre fun s t hst => hroom 1 s t hst ?_) fun _ => h.ret 0 _
          simp only [Instruction.reach, hop, Nat.le_refl]
      | catchFrame => exact h.catchFrame hroom hcore hop
      | pull => exact h.pull hroom hop
      | callFunction => exact (hcall .function _ (by decide)).discard
      | callProcedure => exact (hcall .procedure _ (by decide)).discard
      | complementOrCall =>
          refine .bind (.look fun s t hst => by rw [hcore s t hst]) fun _ => ?_
          refine .ite (fun _ => ?_) fun _ => ?_
          · exact (hcall .procedure _ (by decide)).discard
          · refine (((h.sim 0).storeResult _).mono (h.stay 0)).pre fun s t hst => ?_
            exact hroom 0 s t hst (Nat.zero_le _)
      | read => exact ((hread.readCommand fuel _).mono hafter).pre hbefore
      | readKey => exact ((hread.readKey fuel _).mono hafter).pre hbefore
      | throwValue => exact hthrow rfl _ _
      | restart => exact hrestart rfl
      | _ => cases hframes

end RoomSim
end ZMachine
