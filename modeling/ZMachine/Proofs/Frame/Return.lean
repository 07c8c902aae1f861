import ZMachine.Host.Transcript
import ZMachine.Proofs.Frame.Inside
import ZMachine.Proofs.Frame.Operation

/-!
# The return of an asynchronous call

A run ends when the state of the machine says so, and this state is one for all
runs that are nested in each other: a return from an asynchronous call stops
the innermost run, and the caller of that call sets the state to running again.
So the run of a call is followed with its caller `k` and the moments `old`
before it at hand.  As long as the story goes on, the machine stays inside the
call (`Active`), and every call that a read makes there comes back with the
machine as it was (`Resumed`).  The run is over (`Ended`) with the return from
the frame of the call and not before.

Reads and runs depend on each other.  The operations are settled for any run
that does what is said of runs here, and runs then by induction on their fuel,
for all callers at once.
-/

namespace ZMachine

open MachineM

variable {M H : Type}

/-! ## Moments of a call -/

/-- The moments since `old` were all in frames up to index `n`. -/
def Low (n : Nat) (old seen : List (Moment M H)) : Prop :=
  ∃ new, seen = new ++ old ∧ ∀ m ∈ new, m.core.fp ≤ n

namespace Low

variable {n n' : Nat} {old mid seen : List (Moment M H)}

theorem refl (n : Nat) (old : List (Moment M H)) : Low n old old :=
  ⟨[], rfl, by simp⟩

theorem cons (h : Low n old seen) {m : Moment M H} (hm : m.core.fp ≤ n) :
    Low n old (m :: seen) := by
  obtain ⟨new, rfl, hnew⟩ := h
  exact ⟨m :: new, rfl, List.forall_mem_cons.mpr ⟨hm, hnew⟩⟩

theorem mono (h : Low n old seen) (hn : n ≤ n') : Low n' old seen := by
  obtain ⟨new, rfl, hnew⟩ := h
  exact ⟨new, rfl, fun m hm => Nat.le_trans (hnew m hm) hn⟩

theorem trans (h : Low n old mid) (h' : Low n mid seen) : Low n old seen := by
  obtain ⟨new, rfl, hnew⟩ := h
  obtain ⟨new', rfl, hnew'⟩ := h'
  refine ⟨new' ++ new, (List.append_assoc _ _ _).symm, fun m hm => ?_⟩
  exact (List.mem_append.mp hm).elim (hnew' m) (hnew m)

theorem subset (h : Low n old seen) : old ⊆ seen := by
  obtain ⟨new, rfl, -⟩ := h
  exact List.subset_append_right new old

theorem fp_le (h : Low n [] seen) : ∀ m ∈ seen, m.core.fp ≤ n := by
  obtain ⟨new, rfl, hnew⟩ := h
  rwa [List.append_nil]

end Low

/-! ## Where a run stands -/

theorem Core.Stable.full : Core.Stable fun c => c.sp = 0 where
  adjust _ hf h := (hf _).sp_eq.trans h
  push h hpush := absurd h (Nat.ne_of_gt (Core.push_eq_ok_iff.mp hpush).1)
  writeLocal h hwrite := by
    obtain rfl := Core.writeLocal_ok hwrite
    exact h

theorem Core.Stable.halted : Core.Stable fun c => c.halted = true where
  adjust _ hf h := (hf _).halted h
  push h hpush := by
    obtain ⟨-, rfl⟩ := Core.push_eq_ok_iff.mp hpush
    exact h
  writeLocal h hwrite := by
    obtain rfl := Core.writeLocal_ok hwrite
    exact h

theorem Core.Stable.runState (state : RunState) : Core.Stable fun c => c.runState = state where
  adjust _ hf h := (hf _).runState_eq.trans h
  push h hpush := by
    obtain ⟨-, rfl⟩ := Core.push_eq_ok_iff.mp hpush
    exact h
  writeLocal h hwrite := by
    obtain rfl := Core.writeLocal_ok hwrite
    exact h

/-- The run goes on, unless the story has ended. -/
def Goes (c : Core) : Prop :=
  c.halted = true ∨ c.runState = .run

theorem Goes.of_same {c c' : Core} (h : Goes c) (hhalted : c'.halted = c.halted)
    (hstate : c'.runState = c.runState) : Goes c' := by
  rwa [Goes, hhalted, hstate]

theorem goes_stable : Core.Stable Goes :=
  .or .halted (.runState .run)

variable (k : Core) (old : List (Moment M H))

/-- The run of the call that `k` made after the moments `old` has begun.  The
machine is inside the call, unless the stack is full or the story has ended. -/
def Begun (seen : List (Moment M H)) (c : Core) : Prop :=
  c.halted = true ∨ (Low (k.sp - 5) old seen ∧ (c.sp = 0 ∨ Core.Inside k c))

def Going (seen : List (Moment M H)) (c : Core) : Prop :=
  Begun k old seen c ∧ Goes c

/-- The machine is inside the call, and its run goes on. -/
def Active (seen : List (Moment M H)) (c : Core) : Prop :=
  Low (k.sp - 5) old seen ∧ Core.Inside k c ∧ Goes c

/-- The same in the middle of an instruction, with `r` words of its frame on
the stack. -/
def Acting (r : Nat) (seen : List (Moment M H)) (c : Core) : Prop :=
  Active k old seen c ∧ ∃ t rest, seen = .start t :: rest ∧ Room r t.core c

theorem begun_stable (seen : List (Moment M H)) : Core.Stable (Begun k old seen) :=
  .or .halted (.and (.const _) (.or .full (.inside k)))

theorem going_stable (seen : List (Moment M H)) : Core.Stable (Going k old seen) :=
  .and (begun_stable k old seen) goes_stable

theorem acting_stable (r : Nat) (seen : List (Moment M H)) : Core.Stable (Acting k old r seen) :=
  .and (.and (.const _) (.and (.inside k) goes_stable)) <|
    .ofExists fun t => .ofExists fun _ => .and (.const _) (room_stable r t.core)

variable {k old}

theorem Active.going {seen : List (Moment M H)} {c : Core} (h : Active k old seen c) :
    Going k old seen c :=
  ⟨.inr ⟨h.1, .inr h.2.1⟩, h.2.2⟩

variable [AddressSpace M]

variable (k old) in
/-- The call has come back with the machine `w`.  The last instruction began as
`t` in the frame of the call, and as `before` it returned from there the value
that is now the status. -/
structure ReturnedFrom (t before w : Machine M H) (seen : List (Moment M H)) : Prop where
  seen_eq : ∃ rest, seen = .start t :: rest
  low : Low (k.sp - 5) old seen
  caller : k.Framed
  entered : Core.Entered k t.core
  level : Core.Level t.core before.core
  ret : Machine.ret w.core.status before = .ok () w
  stop : w.core.runState = .stop
  restored : Core.Restored k w.core

variable (k old) in
def Returned (seen : List (Moment M H)) (w : Machine M H) : Prop :=
  ∃ t before, ReturnedFrom k old t before w seen

variable (k old) in
/-- The run of the call is over. -/
def Ended (seen : List (Moment M H)) (w : Machine M H) : Prop :=
  w.core.halted = true ∨ ∃ rest, seen = .finish w :: rest ∧ Returned k old rest w

variable (k old) in
/-- After an instruction of the call. -/
def Stepped (seen : List (Moment M H)) (w : Machine M H) : Prop :=
  Going k old seen w.core ∨ Returned k old seen w

/-! ## Returns -/

theorem ret_stepped (r : Nat) (value : UInt16) :
    Sim False (Beside (H := H) (Held (Acting (M := M) k old r))) (Beside (Granted (Stepped k old)))
      (Machine.ret value) (Machine.ret value) := by
  refine ⟨?_, False.elim⟩
  rintro s s' _ _ ⟨rfl, hs⟩ h
  obtain ⟨ht, hseen, kind, c, hc, hdeliver⟩ := ret_watched h
  refine ⟨_, ht, rfl, fun hdisciplined => ?_⟩
  rw [hseen] at hdisciplined ⊢
  obtain ⟨⟨hlow, hinside, hgoes⟩, t, rest, hstart, hroom⟩ := hs hdisciplined
  rcases hinside.leave hc with ⟨hplain, hinside'⟩ | ⟨rfl, hentered, hrestored⟩
  -- A return from a function or a procedure stays inside the call.
  · have hgoes' : Goes c := by
      obtain ⟨_, _, _, _, _, _, _, _, _, hleft⟩ := Core.leave_ok hc
      refine hgoes.of_same ?_ ?_ <;> rw [hleft] <;> rfl
    have hgoing : Held (Going k old) { s with core := c } :=
      fun _ => ⟨.inr ⟨hlow, .inr hinside'⟩, hgoes'⟩
    obtain ⟨_, _, _, hafter⟩ :=
      ((held_machineSim (going_stable k old)).deliver hplain value).ok ⟨rfl, hgoing⟩ hdeliver
    rw [Held, Granted, hseen] at hafter
    exact .inl (hafter hdisciplined)
  -- Otherwise the frame is that of the call, and it was when the instruction
  -- began.
  · cases hdeliver
    refine .inr ⟨t, s.unwatched, ⟨rest, hstart⟩, hlow, hinside.caller, ?_, hroom.1, ht, rfl,
      hrestored⟩
    have hfp := hroom.1.fp_eq
    refine hentered.of_sameAbove hfp.symm fun j hj => (hroom.1.above j ?_).symm
    rwa [← hfp]

/-! ## Calls -/

variable (k old) in
/-- About to make the call. -/
def Calling (seen : List (Moment M H)) (c : Core) : Prop :=
  seen = old ∧ c = k ∧ k.Framed

variable (k old) in
/-- Back where the call was made, unless the story has ended. -/
def Resumed (seen : List (Moment M H)) (c : Core) : Prop :=
  c.halted = true ∨ (Low k.fp old seen ∧ Core.Restored k c ∧ c.runState = .run)

theorem enter_begun (arguments : Nat) :
    Sim False (Beside (H := H) (Held (Calling (M := M) k old))) (Beside (Held (Begun k old)))
      (ofCore (Core.enter arguments .async)) (ofCore (Core.enter arguments .async)) := by
  refine held_ofCore fun seen c c' _ _ hcalling henter => ?_
  obtain ⟨rfl, rfl, hframed⟩ := hcalling
  exact .inr ⟨.refl _ _, Core.Inside.of_enter hframed henter⟩

theorem enter_going (arguments : Nat) {kind : CallKind} (hkind : kind ≠ .async) :
    Sim False (Beside (H := H) (Held (Active (M := M) k old))) (Beside (Held (Going k old)))
      (ofCore (Core.enter arguments kind)) (ofCore (Core.enter arguments kind)) := by
  refine held_ofCore fun seen c c' _ _ hactive henter => ?_
  obtain ⟨hlow, hinside, hgoes⟩ := hactive
  refine ⟨.inr ⟨hlow, hinside.enter hkind henter⟩, ?_⟩
  have hsize : c.sp ≤ stackSize := Nat.le_trans hinside.framed.sp_le hinside.framed.fp_lt
  obtain ⟨-, stack, rfl, -⟩ := Core.enter_ok hsize henter
  exact hgoes

theorem Ended.low {seen : List (Moment M H)} {w : Machine M H} (h : Ended k old seen w)
    (hgoes : w.core.halted ≠ true) : Low k.fp old seen := by
  obtain ⟨rest, rfl, t, before, h⟩ := h.resolve_left hgoes
  have hle := h.caller.sp_le
  exact (h.low.mono (by omega)).cons (Nat.le_of_eq h.restored.1)

theorem resumed_of_ended :
    Sim False (Beside (H := H) (Granted (Ended (M := M) k old))) (Beside (Held (Resumed k old)))
      (modifyCore fun c => { c with runState := .run, status := 1 })
      (modifyCore fun c => { c with runState := .run, status := 1 }) := by
  refine ⟨?_, False.elim⟩
  rintro s _ _ _ ⟨rfl, hs⟩ h
  cases h
  refine ⟨_, rfl, rfl, fun hdisciplined => ?_⟩
  have hended := hs hdisciplined
  by_cases hhalted : s.core.halted = true
  · exact .inl hhalted
  · obtain ⟨rest, -, t, before, h⟩ := hended.resolve_left hhalted
    exact .inr ⟨hended.low hhalted, h.restored, rfl⟩

/-- Inside a call, an inner call that comes back leaves everything as it
was. -/
theorem Resumed.active {k₁ c : Core} {old₁ seen : List (Moment M H)}
    (h : Resumed k₁ old₁ seen c) (hgoes : c.halted ≠ true)
    (hactive : (∀ m ∈ old₁, m.Disciplined) → Active k old old₁ k₁)
    (hdisciplined : ∀ m ∈ seen, m.Disciplined) : Active k old seen c := by
  obtain ⟨hlow, hrestored, hrun⟩ := h.resolve_left hgoes
  obtain ⟨hlow₁, hinside, -⟩ := hactive fun m hm => hdisciplined m (hlow.subset hm)
  refine ⟨hlow₁.trans (hlow.mono hinside.fp_le), ?_, .inr hrun⟩
  exact hinside.of_level (hrestored.level hinside.framed)

section

variable {run : MachineM (Watched M H) H UInt16} {run' : MachineM M H UInt16}
variable (hrun : ∀ k old, Sim False (Beside (Held (Begun k old))) (Beside (Granted (Ended k old)))
  run run')

include hrun

theorem call_resumed (values : List UInt16) :
    Sim False (Beside (Held fun seen c => Calling k old seen c ∧ Goes c))
      (Beside (Held (Resumed k old))) (Machine.call run .async values)
      (Machine.call run' .async values) := by
  refine callAsync_sim (held_machineSim (begun_stable k old)) values ?_ ?_ (hrun k old)
    resumed_of_ended
  · intro s t hst
    refine ⟨hst.1, fun hdisciplined => ?_⟩
    obtain ⟨⟨hseen, hcore, -⟩, hgoes⟩ := hst.2 hdisciplined
    refine hgoes.imp_right fun hrun => ⟨?_, ?_, hrun⟩
    · rw [hseen]
      exact .refl _ _
    · rw [hcore]
      exact ⟨rfl, rfl, rfl, fun _ _ => rfl⟩
  · intro arguments
    exact (enter_begun arguments).pre (beside_granted fun _ _ h => h.1)

theorem readSim_active :
    ReadSim (Beside (Held (Active k old))) (Beside (Held (Going k old))) run run' where
  before := held_lookSim _
  ofHost := held_ofHost _
  after := held_machineSim (going_stable k old)
  stay := beside_granted fun _ _ h => h.going
  call routine := by
    refine ⟨?_, False.elim⟩
    rintro s s' _ v ⟨rfl, hs⟩ h
    have hcalling : Held (fun seen c => Calling s.core s.memory.seen seen c ∧ Goes c) s := by
      intro hdisciplined
      obtain ⟨-, hinside, hgoes⟩ := hs hdisciplined
      exact ⟨⟨rfl, rfl, hinside.framed⟩, hgoes⟩
    obtain ⟨t, ht, hbeside, hresumed⟩ := (call_resumed hrun [routine]).ok ⟨rfl, hcalling⟩ h
    refine ⟨t, ht, ⟨hbeside, fun hseen => ?_⟩, fun hgoes => ⟨hbeside, fun hseen => ?_⟩⟩
    · by_cases hhalted : s'.core.halted = true
      · exact ⟨.inl hhalted, .inl hhalted⟩
      · exact ((hresumed hseen).active hhalted hs hseen).going
    · exact (hresumed hseen).active (Bool.eq_false_iff.mp hgoes) hs hseen

end

theorem call_going {run : MachineM (Watched M H) H UInt16} {run' : MachineM M H UInt16}
    {kind : CallKind} (hkind : kind ≠ .async) (values : List UInt16) :
    Sim False (Beside (Held (Active k old))) (Beside (Held (Going k old)))
      (Machine.call run kind values) (Machine.call run' kind values) := by
  have hgoing := held_machineSim (M := M) (H := H) (going_stable k old)
  have hstay : ∀ (s : Machine (Watched M H) H) t, Beside (Held (Active k old)) s t →
      Beside (Held (Going k old)) s t := beside_granted fun _ _ h => h.going
  exact callPlain_sim hgoing hkind values hstay ((hgoing.storeResult 0).pre hstay)
    fun arguments => enter_going arguments hkind

/-! ## Instructions -/

omit [AddressSpace M] in
theorem Acting.next {r r' : Nat} {seen : List (Moment M H)} {c c' : Core}
    (h : Acting k old r seen c) (hroom : ∀ {c₀}, Room r c₀ c → Room r' c₀ c')
    (hgoes : Goes c → Goes c') : Acting k old r' seen c' := by
  obtain ⟨⟨hlow, hinside, hgoes'⟩, t, rest, hseen, ht⟩ := h
  have hlevel := (hroom ⟨.refl hinside.framed, ht.2⟩).1
  exact ⟨⟨hlow, hinside.of_level hlevel, hgoes hgoes'⟩, t, rest, hseen, hroom ht⟩

theorem roomSim_stepped :
    RoomSim (fun r => Beside (H := H) (Held (Acting (M := M) k old r)))
      (Beside (Granted (Stepped k old))) where
  sim r := held_machineSim (acting_stable k old r)
  pop _ := held_ofCore fun _ _ _ _ _ h hpop => h.next (fun h => h.pop hpop) <| by
    obtain ⟨-, rfl⟩ := Core.pop_eq_ok_iff.mp hpop
    exact id
  replaceTop _ _ := held_ofCore fun _ _ _ _ _ h hreplace =>
    h.next (fun h => h.replaceTop hreplace) <| by
      obtain rfl := Core.replaceTop_ok hreplace
      exact id
  ret := ret_stepped
  stay _ := beside_granted fun _ _ h => .inl h.1.going

theorem Going.noted {seen : List (Moment M H)} {m : Moment M H}
    (h : Going k old seen m.core) (hm : m.Disciplined) :
    m.core.halted = true ∨ Active k old (m :: seen) m.core := by
  obtain ⟨hhalted | ⟨hlow, hplace⟩, hgoes⟩ := h
  · exact .inl hhalted
  · have hinside := hplace.resolve_left (Nat.ne_of_gt hm.1)
    exact .inr ⟨hlow.cons hinside.fp_le, hinside, hgoes⟩

variable (k old) in
/-- About to carry out a disciplined operation. -/
def Begins (i : Instruction) (op : Operation) (seen : List (Moment M H)) (c : Core) : Prop :=
  op ≠ .throwValue ∧ op ≠ .restart ∧ Acting k old (i.reach c.header.version) seen c

section

variable {run : MachineM (Watched M H) H UInt16} {run' : MachineM M H UInt16} [Host H]
variable (hrun : ∀ k old, Sim False (Beside (Held (Begun k old))) (Beside (Granted (Ended k old)))
  run run')

include hrun

theorem execute_stepped (fuel : Nat) {i : Instruction} {op : Operation}
    (hop : Operation.ofOpcode? i.form i.opcode = some op) :
    Sim False (Beside (Held (Begins k old i op))) (Beside (Granted (Stepped k old)))
      (Machine.execute fuel run i op) (Machine.execute fuel run' i op) := by
  have hactive : ∀ (s : Machine (Watched M H) H) t, Beside (Held (Begins k old i op)) s t →
      Beside (Held (Active k old)) s t := beside_granted fun _ _ h => h.2.2.1
  have hgoing : ∀ (s : Machine (Watched M H) H) t, Beside (Held (Going k old)) s t →
      Beside (Granted (Stepped k old)) s t := beside_granted fun _ _ h => .inl h
  refine roomSim_stepped.execute (fun r s t hst hr => ⟨hst.1, fun hseen => ?_⟩) fuel hop
    beside_core_eq (fun kind values hkind => ?_) (readSim_active hrun) hactive hgoing ?_ ?_
  · exact (hst.2 hseen).2.2.next (fun h => ⟨h.1, Nat.le_trans (Nat.add_le_add_left hr _) h.2⟩) id
  · exact ((call_going hkind values).mono hgoing).pre hactive
  · intro hthrow value target
    refine sim_of_undisciplined (fun _ _ h => h.1 hthrow) fun p => ?_
    exact (SameParts.runSim (Watched.memorySim p)).throwTo value target
  · intro hrestart
    refine sim_of_undisciplined (fun _ _ h => h.2.1 hrestart) fun p => ?_
    exact (SameParts.runSim (Watched.memorySim p)).restart

theorem stepWith_stepped (k : Core) (old : List (Moment M H)) (fuel : Nat) :
    Sim False
      (Beside (Granted fun seen w => Active k old seen w.core ∧ ∃ rest, seen = .start w :: rest))
      (Beside (Granted (Stepped k old))) (Machine.stepWith fuel run)
      (Machine.stepWith fuel run') := by
  refine stepWith_beside fuel (fun s d i op hs hdecode hseen hop hdisciplined => ?_)
    fun hop => execute_stepped hrun fuel hop
  rw [hseen] at hdisciplined ⊢
  obtain ⟨⟨hlow, hinside, hgoes⟩, rest, hrest⟩ := hs hdisciplined
  have hm : (Moment.start s.unwatched).Disciplined :=
    hdisciplined _ (by rw [hrest]; exact List.mem_cons_self)
  obtain ⟨hthrow, hrestart⟩ := hm.operation_ne hdecode hop
  have hroom := hm.room hinside.framed hdecode
  refine ⟨hthrow, hrestart, ⟨hlow, hinside.of_level hroom.1, ?_⟩, _, rest, hrest, hroom⟩
  obtain ⟨pc, sp, hcore, -⟩ := decode_ok hdecode
  rw [hcore]
  exact hgoes

/-! ## Runs -/

theorem noting_stepped (k : Core) (old : List (Moment M H)) (fuel : Nat) :
    Sim False (Beside (Granted fun seen w => Going k old seen w.core ∧ w.core.halted ≠ true))
      (Beside (Granted fun seen w => Going k old seen w.core ∨ Ended k old seen w))
      (Machine.noting (Machine.stepWith fuel run)) (Machine.stepWith fuel run') := by
  refine noting_beside (fun s hs hseen => ?_) (stepWith_stepped hrun k old fuel)
    fun s hs hseen => ?_
  · obtain ⟨hgoing, hhalted⟩ := hs fun m hm => hseen m (List.mem_cons_of_mem _ hm)
    have hnoted := Going.noted (m := .start s.unwatched) hgoing (hseen _ List.mem_cons_self)
    exact ⟨hnoted.resolve_left hhalted, _, rfl⟩
  · rcases hs fun m hm => hseen m (List.mem_cons_of_mem _ hm) with hgoing | hreturned
    · have hnoted := Going.noted (m := .finish s.unwatched) hgoing (hseen _ List.mem_cons_self)
      exact .inl (hnoted.elim (fun hhalted => ⟨.inl hhalted, .inl hhalted⟩) Active.going)
    · exact .inr (.inr ⟨_, rfl, hreturned⟩)

end

theorem beginRun_ended {f : MachineM (Watched M H) H UInt16} {g : MachineM M H UInt16}
    (hfg : Sim False (Beside (Granted fun seen w => Going k old seen w.core ∨ Ended k old seen w))
      (Beside (Granted (Ended k old))) f g) :
    Sim False (Beside (Held (Begun k old))) (Beside (Granted (Ended k old)))
      (do Machine.beginRun; f) (do Machine.beginRun; g) := by
  have hbegin : Sim False (Beside (H := H) (Held (Begun (M := M) k old)))
      (Beside (Held (Going k old))) Machine.beginRun Machine.beginRun := by
    refine held_modifyCore fun seen c hbegun => ⟨?_, .inr rfl⟩
    refine hbegun.imp_right (And.imp_right (Or.imp_right fun hinside => ?_))
    exact hinside.of_level ((Core.Level.refl hinside.framed).of_same rfl rfl rfl)
  exact .bindThrough hbegin fun _ => hfg.pre (beside_granted fun _ _ h => .inl h)

theorem Machine.isRunning_iff {c : Core} :
    Machine.isRunning c = true ↔ c.runState = .run ∧ c.halted ≠ true := by
  simp [Machine.isRunning]

variable [Host H]

theorem watchedResume_ended (fuel : Nat) (k : Core) (old : List (Moment M H)) :
    Sim False (Beside (Granted fun seen w => Going k old seen w.core ∨ Ended k old seen w))
      (Beside (Granted (Ended k old)))
      (Machine.watchedResume fuel : MachineM (Watched M H) H UInt16) (Machine.resume fuel) := by
  -- The calls that are made in this run have callers of their own.
  induction fuel generalizing k old with
  | zero => exact .throw _
  | succ n ih =>
      refine inspectBind beside_core_eq id fun c => .ite (fun hgoes => ?_) fun hends => ?_
      · have hstep := noting_stepped (fun k old => beginRun_ended (ih k old)) k old n
        refine .bindThrough (hstep.pre fun s t hst => ⟨hst.1.1, fun hseen => ?_⟩) fun _ => ih k old
        obtain ⟨⟨-, hs⟩, rfl⟩ := hst
        obtain ⟨hstate, hhalted⟩ := Machine.isRunning_iff.mp hgoes
        refine ⟨(hs hseen).resolve_right fun hended => ?_, hhalted⟩
        obtain ⟨rest, -, t', before, hreturned⟩ := hended.resolve_left hhalted
        cases hstate.symm.trans hreturned.stop
      · refine (Sim.pure c.status).mono fun s t hst => ⟨hst.1.1, fun hseen => ?_⟩
        obtain ⟨⟨-, hs⟩, rfl⟩ := hst
        refine (hs hseen).elim (fun hgoing => .inl (hgoing.2.elim id fun hstate => ?_)) id
        by_contra hhalted
        exact hends (Machine.isRunning_iff.mpr ⟨hstate, hhalted⟩)

theorem watchedResume_status {fuel : Nat} {s s' : Machine (Watched M H) H} {v : UInt16}
    (h : Machine.watchedResume fuel s = .ok v s') : v = s'.core.status := by
  induction fuel generalizing s with
  | zero => cases h
  | succ n ih =>
      obtain ⟨c, _, hlook, h⟩ := bind_eq_ok_iff.mp h
      cases hlook
      split at h
      next =>
        obtain ⟨_, s₁, -, hrest⟩ := bind_eq_ok_iff.mp h
        exact ih hrest
      next =>
        cases h
        rfl

/-! ## The call as a whole -/

/-- The moments of the run inside an asynchronous call, in order. -/
def Machine.callTrace (fuel : Nat) (values : List UInt16) (s : Machine M H) : List (Moment M H) :=
  (reached (Machine.call (do Machine.beginRun; Machine.watchedResume fuel) .async values
    s.watch)).memory.seen.reverse

theorem exists_watchedCall {fuel : Nat} {values : List UInt16} {s s' : Machine M H} {v : UInt16}
    (h : Machine.call (Machine.interpret fuel) .async values s = .ok v s') :
    ∃ w, Machine.call (do Machine.beginRun; Machine.watchedResume fuel) .async values s.watch =
      .ok v w ∧ w.unwatched = s' := by
  have hsame := (SameParts.runSim (H := H)
    (Watched.memorySim (M := M) (H := H) fun _ => True)).toFrameSim
  have hrun := Watched.watchedResume_sim
    (fun moment _ => Watched.note_shows (fun _ _ => id) moment) hsame fuel
  exact Watched.exists_ok (hsame.call (.bind hsame.beginRun fun _ => hrun) .async values) h

/-- An asynchronous call to a routine: what happens up to the end of its run. -/
theorem call_ended {fuel : Nat} {routine : UInt16} {arguments : List UInt16} {s : Machine M H}
    {w : Machine (Watched M H) H} {v : UInt16} (hframed : s.core.Framed) (hroutine : routine ≠ 0)
    (h : Machine.call (do Machine.beginRun; Machine.watchedResume fuel) .async
      (routine :: arguments) s.watch = .ok v w) :
    ∃ u, Granted (Ended s.core []) u ∧ v = u.core.status ∧
      w = { u with core := { u.core with runState := .run, status := 1 } } := by
  rw [Machine.call_eq, List.headD_cons, if_neg hroutine, if_pos rfl] at h
  obtain ⟨_, s₁, henter, h⟩ := bind_eq_ok_iff.mp h
  obtain ⟨status, u, hrun, h⟩ := bind_eq_ok_iff.mp h
  cases h
  have hcalling : Held (Calling s.core []) s.watch := fun _ => ⟨rfl, rfl, hframed⟩
  obtain ⟨_, _, rfl, hbegun⟩ := (enterRoutine_sim (held_machineSim (begun_stable s.core []))
    (enter_begun _)).ok ⟨rfl, hcalling⟩ henter
  obtain ⟨_, _, _, hended⟩ :=
    (beginRun_ended (watchedResume_ended fuel s.core [])).ok ⟨rfl, hbegun⟩ hrun
  obtain ⟨_, _, -, hresume⟩ := bind_eq_ok_iff.mp hrun
  exact ⟨u, hended, watchedResume_status hresume, rfl⟩

/-- An asynchronous call comes back where it was made, and its value is that of
the return from the frame of the routine. -/
theorem async_call_returns (fuel : Nat) (routine : UInt16) (arguments : List UInt16)
    (s s' : Machine M H) (v : UInt16) (hframed : s.core.Framed) (hroutine : routine ≠ 0)
    (hcall : Machine.call (Machine.interpret fuel) .async (routine :: arguments) s = .ok v s')
    (hhalted : s'.core.halted = false)
    (hdisciplined : ∀ m ∈ Machine.callTrace fuel (routine :: arguments) s, m.Disciplined) :
    s'.core.runState = .run ∧ s'.core.status = 1 ∧
      s'.core.pc = s.core.pc ∧ s'.core.sp = s.core.sp ∧ s'.core.fp = s.core.fp ∧
      (∀ j, s.core.sp ≤ j → s'.core.stack[j]? = s.core.stack[j]?) ∧
      ∃ front t before w,
        Machine.callTrace fuel (routine :: arguments) s = front ++ [.start t, .finish w] ∧
        (∀ m ∈ front, m.core.fp + 5 ≤ s.core.sp) ∧ Core.Entered s.core t.core ∧
        Core.Level t.core before.core ∧ Machine.ret v before = .ok () w ∧
        s' = { w with core := { w.core with runState := .run, status := 1 } } := by
  obtain ⟨w', hw, rfl⟩ := exists_watchedCall hcall
  have htrace : Machine.callTrace fuel (routine :: arguments) s = w'.memory.seen.reverse := by
    rw [Machine.callTrace, hw, reached]
  obtain ⟨u, hended, rfl, rfl⟩ := call_ended hframed hroutine hw
  rw [htrace] at hdisciplined ⊢
  have hseen : ∀ m ∈ u.memory.seen, m.Disciplined :=
    fun m hm => hdisciplined m (List.mem_reverse.mpr hm)
  obtain ⟨_, hfinish, t, before, hreturned⟩ :=
    (hended hseen).resolve_left (Bool.eq_false_iff.mp hhalted)
  obtain ⟨rest, rfl⟩ := hreturned.seen_eq
  obtain ⟨hfp, hsp, hpc, hwords⟩ := hreturned.restored
  refine ⟨rfl, rfl, hpc, hsp, hfp, hwords, rest.reverse, t, before, u.unwatched, ?_, fun m hm => ?_,
    hreturned.entered, hreturned.level, hreturned.ret, rfl⟩
  · simp only [hfinish, List.reverse_cons, List.append_assoc, List.cons_append, List.nil_append]
  · have hle := hreturned.entered.sp_eq
    have hbelow := hreturned.low.fp_le m (List.mem_cons_of_mem _ (List.mem_reverse.mp hm))
    omega

/-- A machine in the middle of a routine, with three more at hand.  The first
reads a key and returns it.  When the time for that is over, the second reads a
key in turn, and when its time is over, the third returns 0. -/
def nestedReader : Except Fault (Machine Image Transcript) :=
  let bytes : Array UInt8 :=
    Array.replicate 64 0 ++ #[1, 0xF6, 0x57, 1, 10, 18, 0, 0xB8] ++
      #[0, 0xF6, 0x57, 1, 10, 20, 0, 0xB1, 0, 0xB1]
  (Machine.load { randomSeed := some 1 } ⟨fun _ => 0, 0⟩
    { keys := [.timedOut, .timedOut, .given 66, .given 65] }
    (Image.mk (bytes.set! 0 5 |>.set! 7 64))).map fun s =>
      { s with core.stack := s.core.stack.setIfInBounds 42 1023, core.sp := 38, core.fp := 40 }

theorem async_call_returns_nested_reads :
    ∃ s s', nestedReader = .ok s ∧ s.core.Framed ∧
      Machine.call (Machine.interpret 5) .async [16, 5] s = .ok 65 s' ∧ s'.core.halted = false ∧
      (∀ m ∈ Machine.callTrace 5 [16, 5] s, m.Disciplined) ∧
      (Machine.callTrace 5 [16, 5] s).map (fun m => m.core.fp) =
        [33, 28, 24, 28, 28, 28, 33, 33, 33, 40] ∧
      s'.core.runState = .run ∧ s'.core.status = 1 ∧
      s'.core.pc = s.core.pc ∧ s'.core.sp = s.core.sp ∧ s'.core.fp = s.core.fp ∧
      (∀ j, s.core.sp ≤ j → s'.core.stack[j]? = s.core.stack[j]?) ∧
      ∃ front t before w, Machine.callTrace 5 [16, 5] s = front ++ [.start t, .finish w] ∧
        Core.Entered s.core t.core ∧ Core.Level t.core before.core ∧
        Machine.ret 65 before = .ok () w := by
  obtain ⟨s, hs, hcheck⟩ := exists_of_givesOk (x := nestedReader)
    (p := fun s => reachesOk (Machine.call (Machine.interpret 5) .async [16, 5] s) fun v s' =>
      decide ((v = 65 ∧ s'.core.halted = false) ∧
        (s.core.fp = 40 ∧ s.core.sp = 38 ∧ s.core.stack[42]? = some 1023) ∧
        (∀ m ∈ Machine.callTrace 5 [16, 5] s, m.Disciplined) ∧
        (Machine.callTrace 5 [16, 5] s).map (fun m => m.core.fp) =
          [33, 28, 24, 28, 28, 28, 33, 33, 33, 40])) (by decide +kernel)
  obtain ⟨v, s', hcall, hcheck'⟩ := exists_of_reachesOk hcheck
  obtain ⟨⟨rfl, hhalted⟩, ⟨hfp, hsp, hsaved⟩, hdisciplined, hfps⟩ := of_decide_eq_true hcheck'
  have hframed : s.core.Framed := by
    refine ⟨by rw [hfp]; decide, by rw [hfp, hsp]; decide, .frame ?_ ?_ .last⟩
    · rw [hfp, hsaved]
      rfl
    · rw [hfp]
      decide
  obtain ⟨hrun, hstatus, hpc, hsp', hfp', hwords, front, t, before, w, htrace, -, hentered,
    hlevel, hret, -⟩ :=
    async_call_returns 5 16 [5] s s' 65 hframed (by decide) hcall hhalted hdisciplined
  exact ⟨s, s', hs, hframed, hcall, hhalted, hdisciplined, hfps, hrun, hstatus, hpc, hsp',
    hfp', hwords, front, t, before, w, htrace, hentered, hlevel, hret⟩

end ZMachine
