import ZMachine.Proofs.Frame.Return
import ZMachine.Proofs.Frame.Throw

/-!
# The boundary of a frame

Nothing keeps an instruction from taking the words of its own frame off the
stack, or from writing over them: only the end of the whole stack is checked.
An instruction that has the words it uses in its frame cannot do harm.  What
it can do is said once, by `Machine.Does`: it stays in its frame, calls a
routine, returns, or sees the story end in an interrupt.  Runs inside a read
follow from that by induction on their fuel.
-/

namespace ZMachine

open MachineM

namespace Core

variable {c₀ c₁ c c' : Core}

theorem Level.trans (h : Level c₀ c₁) (h' : Level c₁ c) : Level c₀ c := by
  have habove := h'.above
  rw [h.fp_eq] at habove
  exact ⟨h'.framed, h'.fp_eq.trans h.fp_eq, habove.trans h.above⟩

/-- In the frame of the first core or below it, with nothing changed above that
frame. -/
structure Beneath (c₀ c : Core) : Prop where
  framed : c.Framed
  fp_le : c.fp ≤ c₀.fp
  above : SameAbove c₀.fp c.stack c₀.stack

theorem Level.beneath (h : Level c₀ c) : Beneath c₀ c :=
  ⟨h.framed, Nat.le_of_eq h.fp_eq, h.above⟩

theorem Beneath.trans (h : Beneath c₀ c₁) (h' : Beneath c₁ c) : Beneath c₀ c :=
  ⟨h'.framed, Nat.le_trans h'.fp_le h.fp_le, (h'.above.mono h.fp_le).trans h.above⟩

theorem beneath_of_enter (hc : c.Framed) {arguments : Nat} {kind : CallKind}
    (h : enter arguments kind c = .ok () c') : Beneath c c' := by
  obtain ⟨hframed, hentered⟩ := hc.entered h
  have hsp := hentered.sp_eq
  have hle := hc.sp_le
  exact ⟨hframed, by omega, fun j hj => hentered.above j (by omega)⟩

theorem Inside.beneath {k : Core} (h : Inside k c) : Beneath k c := by
  have hsp := h.entered.sp_eq
  have hle := h.caller.sp_le
  have hfp := h.fp_le
  dsimp only at hsp
  exact ⟨h.framed, by omega, fun j hj => h.entered.above j (by omega)⟩

/-! ## What an instruction does -/

/-- A run that went on still does. -/
def KeepsRun (c₀ c : Core) : Prop :=
  c₀.runState = .run → c.runState = .run

/-- A function or a procedure was called from the frame of the first core, and
the second is at the start of it. -/
def Opens (c₀ c₁ : Core) : Prop :=
  ∃ c arguments kind, Level c₀ c ∧ kind ≠ .async ∧ enter arguments kind c = .ok () c₁

/-- What an instruction may do short of a return. -/
inductive Moves (c₀ c : Core) : Prop where
  | stays (hlevel : Level c₀ c) (hrun : KeepsRun c₀ c)
  | opens {c₁ : Core} (hopens : Opens c₀ c₁) (hlevel : Level c₁ c) (hrun : KeepsRun c₀ c)
  | halts (hbeneath : Beneath c₀ c) (hhalted : c.halted = true)

theorem Opens.beneath (h : Opens c₀ c₁) : Beneath c₀ c₁ := by
  obtain ⟨c, arguments, kind, hlevel, -, henter⟩ := h
  exact hlevel.beneath.trans (beneath_of_enter hlevel.framed henter)

theorem Moves.beneath (h : Moves c₀ c) : Beneath c₀ c := by
  cases h with
  | stays hlevel _ => exact hlevel.beneath
  | opens hopens hlevel _ => exact hopens.beneath.trans hlevel.beneath
  | halts hbeneath _ => exact hbeneath

theorem Moves.of_level (h : Moves c₀ c) (hlevel : Level c c') (hrun : c'.runState = c.runState)
    (hhalted : c.halted = true → c'.halted = true) : Moves c₀ c' := by
  cases h with
  | stays hlevel₀ hrun₀ => exact .stays (hlevel₀.trans hlevel) fun h => hrun.trans (hrun₀ h)
  | opens hopens hlevel₀ hrun₀ =>
      exact .opens hopens (hlevel₀.trans hlevel) fun h => hrun.trans (hrun₀ h)
  | halts hbeneath hhalted₀ => exact .halts (hbeneath.trans hlevel.beneath) (hhalted hhalted₀)

theorem Stable.moves (c₀ : Core) : Stable (Moves c₀) where
  adjust {c} f hf h := by
    obtain ⟨hstack, hsp, hfp, -, hrun, hhalted⟩ := hf c
    exact h.of_level ((Level.refl h.beneath.framed).of_same hstack hsp hfp) hrun hhalted
  push h hpush := by
    have hlevel := (Level.refl h.beneath.framed).push hpush
    obtain ⟨-, rfl⟩ := push_eq_ok_iff.mp hpush
    exact h.of_level hlevel rfl id
  writeLocal h hwrite := by
    have hlevel := (Level.refl h.beneath.framed).writeLocal hwrite
    obtain rfl := writeLocal_ok hwrite
    exact h.of_level hlevel rfl id

theorem Stable.keepsRun (c₀ : Core) : Stable (KeepsRun c₀) where
  adjust f hf h hrun := (hf _).runState_eq.trans (h hrun)
  push h hpush := by
    obtain ⟨-, rfl⟩ := push_eq_ok_iff.mp hpush
    exact h
  writeLocal h hwrite := by
    obtain rfl := writeLocal_ok hwrite
    exact h

/-! ## Inside an interrupt -/

def Running (k c : Core) : Prop :=
  Inside k c ∧ c.runState = .run

/-- The run of an interrupt is over: it has come back to its caller, or the
story has ended. -/
def Over (k c : Core) : Prop :=
  (Beneath k c ∧ c.halted = true) ∨ (Restored k c ∧ c.runState = .stop)

/-- The same after the call that made the run. -/
def Back (k c : Core) : Prop :=
  (Beneath k c ∧ c.halted = true) ∨ (Restored k c ∧ KeepsRun k c)

theorem Stable.running (k : Core) : Stable (Running k) :=
  .and (.inside k) (.runState .run)

theorem Running.moves {k : Core} (h : Running k c₀) (hmoves : Moves c₀ c) :
    Running k c ∨ Over k c := by
  obtain ⟨hinside, hrun⟩ := h
  cases hmoves with
  | stays hlevel hkeeps => exact .inl ⟨hinside.of_level hlevel, hkeeps hrun⟩
  | opens hopens hlevel hkeeps =>
      obtain ⟨c₂, arguments, kind, hlevel₂, hkind, henter⟩ := hopens
      have hsize : c₂.sp ≤ stackSize := Nat.le_trans hlevel₂.framed.sp_le hlevel₂.framed.fp_lt
      have hinside₁ := ((hinside.of_level hlevel₂).enter hkind henter).resolve_left
        (sp_ne_zero_of_enter hsize henter)
      exact .inl ⟨hinside₁.of_level hlevel, hkeeps hrun⟩
  | halts hbeneath hhalted => exact .inr (.inl ⟨hinside.beneath.trans hbeneath, hhalted⟩)

/-- Back in the frame where the interrupted instruction was. -/
theorem Back.moves {k : Core} (hlevel : Level c₀ k) (hkeeps : KeepsRun c₀ k) (h : Back k c) :
    Moves c₀ c ∧ (c.halted = false → Level c₀ c ∧ KeepsRun c₀ c) := by
  rcases h with ⟨hbeneath, hhalted⟩ | ⟨hrestored, hkeeps'⟩
  · refine ⟨.halts (hlevel.beneath.trans hbeneath) hhalted, fun hgoes => ?_⟩
    rw [hhalted] at hgoes
    cases hgoes
  · have hlevel' := hlevel.trans (hrestored.level hlevel.framed)
    have hkeeps'' : KeepsRun c₀ c := fun hrun => hkeeps' (hkeeps hrun)
    exact ⟨.stays hlevel' hkeeps'', fun _ => ⟨hlevel', hkeeps''⟩⟩

end Core

variable {M H : Type} [AddressSpace M]

/-- What an instruction that began as `s` has done when it ends as `w`. -/
def Machine.Does (s w : Machine M H) : Prop :=
  s.core.Moves w.core ∨
    ∃ before value, Core.Level s.core before.core ∧ Core.KeepsRun s.core before.core ∧
      Machine.ret value before = .ok () w

theorem running_does {k : Core} {s w : Machine M H} (h : k.Running s.core) (hdoes : s.Does w) :
    k.Running w.core ∨ k.Over w.core := by
  rcases hdoes with hmoves | ⟨before, value, hlevel, hkeeps, hret⟩
  · exact h.moves hmoves
  have hinside : k.Inside before.core := h.1.of_level hlevel
  obtain ⟨kind, c, hc, hdeliver⟩ := Machine.ret_ok hret
  rcases hinside.leave hc with ⟨hplain, hinside'⟩ | ⟨rfl, -, hrestored⟩
  -- Only the return from the frame of the interrupt ends its run.
  · have hrun : c.runState = .run := by
      obtain ⟨_, _, _, _, _, _, _, _, _, rfl⟩ := Core.leave_ok hc
      exact hkeeps h.2
    have hsim := (Core.Stable.running k).machineSim (M := M) (H := H)
    have hstart : k.Running ({ before with core := c } : Machine M H).core := ⟨hinside', hrun⟩
    exact .inl ((hsim.deliver hplain value).holds hstart hdeliver)
  · cases hdeliver
    exact .inr (.inr ⟨hrestored, rfl⟩)

/-- A return goes to a frame further up. -/
theorem framed_of_ret {s w : Machine M H} (hs : s.core.Framed) {value : UInt16}
    (h : Machine.ret value s = .ok () w) : w.core.Framed ∧ s.core.fp < w.core.fp := by
  obtain ⟨kind, c, hc, hdeliver⟩ := Machine.ret_ok h
  obtain ⟨hframed, hlt, -⟩ := hs.leave hc
  have hlevel : Core.Level c w.core := by
    by_cases hplain : kind = .async
    · subst hplain
      cases hdeliver
      exact (Core.Level.refl hframed).of_same rfl rfl rfl
    · have hsim := (room_stable 0 c).machineSim (M := M) (H := H)
      have hstart : Room 0 c ({ s with core := c } : Machine M H).core :=
        ⟨.refl hframed, hframed.sp_le⟩
      exact ((hsim.deliver hplain value).holds hstart hdeliver).1
  rw [hlevel.fp_eq]
  exact ⟨hlevel.framed, hlt⟩

/-- The instruction that comes next uses no words above the frame pointer, and
it is no `throw` and no `restart`. -/
def Machine.KeepsToFrame (s : Machine M H) : Prop :=
  ∀ i k, Machine.decode s = .ok i k →
    Operation.ofOpcode? i.form i.opcode ≠ some .throwValue ∧
      Operation.ofOpcode? i.form i.opcode ≠ some .restart ∧
      k.core.sp + i.reach k.core.header.version ≤ s.core.fp + 1

theorem Moment.Disciplined.keepsToFrame {s : Machine M H} (h : (Moment.start s).Disciplined)
    (hs : s.core.Framed) : s.KeepsToFrame := by
  intro i k hdecode
  obtain ⟨hthrow, hrestart, hwords⟩ := h.2 (i, k) (mem_decoded? hdecode)
  refine ⟨hthrow, hrestart, Nat.le_trans (forall_lt_iff_le_max.mp hwords) ?_⟩
  exact Nat.max_le.mpr ⟨hs.sp_le, Nat.le_refl _⟩

theorem Machine.KeepsToFrame.room {s k : Machine M H} {i : Instruction} (h : s.KeepsToFrame)
    (hs : s.core.Framed) (hdecode : Machine.decode s = .ok i k) :
    Room (i.reach k.core.header.version) s.core k.core := by
  obtain ⟨-, -, hreach⟩ := h i k hdecode
  obtain ⟨pc, sp, hcore, -⟩ := decode_ok hdecode
  rw [hcore] at hreach ⊢
  refine ⟨⟨⟨hs.fp_lt, ?_, hs.chain⟩, rfl, fun _ _ => rfl⟩, hreach⟩
  exact Nat.le_trans (Nat.le_add_right _ _) hreach

/-! ## Operations -/

section

variable (p : Machine M H → Prop) (old : List (Moment M H))

/-- In an instruction that began in a machine with `p`, with `r` words of its
frame on the stack. -/
def Midway (r : Nat) (seen : List (Moment M H)) (c : Core) : Prop :=
  old ⊆ seen ∧ ∃ t, p t ∧ Room r t.core c ∧ t.core.KeepsRun c

def Moved (seen : List (Moment M H)) (c : Core) : Prop :=
  old ⊆ seen ∧ ∃ t, p t ∧ t.core.Moves c

def Done (seen : List (Moment M H)) (w : Machine M H) : Prop :=
  old ⊆ seen ∧ ∃ t, p t ∧ t.Does w

omit [AddressSpace M] in
theorem midway_stable (r : Nat) (seen : List (Moment M H)) : Core.Stable (Midway p old r seen) :=
  .and (.const _) <| .ofExists fun t =>
    .and (.const _) (.and (room_stable r t.core) (.keepsRun t.core))

omit [AddressSpace M] in
theorem moved_stable (seen : List (Moment M H)) : Core.Stable (Moved p old seen) :=
  .and (.const _) <| .ofExists fun t => .and (.const _) (.moves t.core)

end

variable {p : Machine M H → Prop} {old : List (Moment M H)}

omit [AddressSpace M] in
theorem Midway.moved {r : Nat} {seen : List (Moment M H)} {c : Core}
    (h : Midway p old r seen c) : Moved p old seen c := by
  obtain ⟨hold, t, ht, hroom, hkeeps⟩ := h
  exact ⟨hold, t, ht, .stays hroom.1 hkeeps⟩

omit [AddressSpace M] in
theorem Midway.next {r r' : Nat} {seen : List (Moment M H)} {c c' : Core}
    (h : Midway p old r seen c) (hroom : ∀ {c₀}, Room r c₀ c → Room r' c₀ c')
    (hrun : c'.runState = c.runState) : Midway p old r' seen c' := by
  obtain ⟨hold, t, ht, hroom₀, hkeeps⟩ := h
  exact ⟨hold, t, ht, hroom hroom₀, fun h => hrun.trans (hkeeps h)⟩

theorem ret_done (r : Nat) (value : UInt16) :
    Sim False (Beside (Held (Midway p old r))) (Beside (Granted (Done p old)))
      (Machine.ret value) (Machine.ret value) := by
  refine ⟨?_, False.elim⟩
  rintro s s' _ _ ⟨rfl, hs⟩ h
  obtain ⟨hret, hseen, -⟩ := ret_watched h
  refine ⟨_, hret, rfl, fun hdisciplined => ?_⟩
  rw [hseen] at hdisciplined ⊢
  obtain ⟨hold, t, ht, hroom, hkeeps⟩ := hs hdisciplined
  exact ⟨hold, t, ht, .inr ⟨s.unwatched, value, hroom.1, hkeeps, hret⟩⟩

theorem roomSim_done :
    RoomSim (fun r => Beside (Held (Midway p old r))) (Beside (Granted (Done p old))) where
  sim r := held_machineSim (midway_stable p old r)
  pop _ := held_ofCore fun _ _ _ _ _ h hpop => h.next (fun hroom => hroom.pop hpop) <| by
    obtain ⟨-, rfl⟩ := Core.pop_eq_ok_iff.mp hpop
    rfl
  replaceTop _ _ := held_ofCore fun _ _ _ _ _ h hreplace =>
    h.next (fun hroom => hroom.replaceTop hreplace) <| by
      obtain rfl := Core.replaceTop_ok hreplace
      rfl
  ret := ret_done
  stay _ := beside_granted fun _ _ h => by
    obtain ⟨hold, t, ht, hmoves⟩ := h.moved
    exact ⟨hold, t, ht, .inl hmoves⟩

theorem call_moved {run : MachineM (Watched M H) H UInt16} {run' : MachineM M H UInt16}
    {kind : CallKind} (hkind : kind ≠ .async) (values : List UInt16) :
    Sim False (Beside (Held (Midway p old 0))) (Beside (Held (Moved p old)))
      (Machine.call run kind values) (Machine.call run' kind values) := by
  have hmoved := held_machineSim (moved_stable p old)
  have hstay : ∀ (s : Machine (Watched M H) H) t, Beside (Held (Midway p old 0)) s t →
      Beside (Held (Moved p old)) s t := beside_granted fun _ _ h => h.moved
  refine callPlain_sim hmoved hkind values hstay ((hmoved.storeResult 0).pre hstay)
    fun arguments => held_ofCore fun seen c c' _ _ h henter => ?_
  obtain ⟨hold, t, ht, hroom, hkeeps⟩ := h
  obtain ⟨hframed, -⟩ := hroom.1.framed.entered henter
  have hsize : c.sp ≤ stackSize := Nat.le_trans hroom.1.framed.sp_le hroom.1.framed.fp_lt
  have hkept : c'.runState = c.runState := by
    obtain ⟨-, stack, rfl, -⟩ := Core.enter_ok hsize henter
    rfl
  refine ⟨hold, t, ht, .opens ⟨c, arguments, kind, hroom.1, hkind, henter⟩ (.refl hframed) ?_⟩
  exact fun h => hkept.trans (hkeeps h)

/-! ## Reads -/

/-- A run of an interrupt that was called from `k`. -/
def Interrupts (run : MachineM (Watched M H) H UInt16) (run' : MachineM M H UInt16) : Prop :=
  ∀ k old, Sim False (Beside (Held fun seen c => old ⊆ seen ∧ Core.Inside k c))
    (Beside (Held fun seen c => old ⊆ seen ∧ Core.Over k c)) run run'

section

variable {run : MachineM (Watched M H) H UInt16} {run' : MachineM M H UInt16}
variable (hrun : Interrupts run run')

include hrun

theorem call_back (k : Core) (old : List (Moment M H)) (values : List UInt16) :
    Sim False (Beside (Held (Calling k old))) (Beside (Held fun seen c => old ⊆ seen ∧ k.Back c))
      (Machine.call run .async values) (Machine.call run' .async values) := by
  refine callAsync_sim (held_machineSim fun _ => .and (.const _) (.inside k)) values ?_
    (fun arguments => ?_) (hrun k old) ?_
  · refine beside_granted fun seen w h => ?_
    obtain ⟨rfl, hcore, -⟩ := h
    rw [hcore]
    exact ⟨List.Subset.refl _, .inr ⟨⟨rfl, rfl, rfl, fun _ _ => rfl⟩, id⟩⟩
  · refine held_ofCore fun seen c c' _ _ h henter => ?_
    obtain ⟨rfl, rfl, hframed⟩ := h
    have hsize : c.sp ≤ stackSize := Nat.le_trans hframed.sp_le hframed.fp_lt
    refine ⟨List.Subset.refl _, (Core.Inside.of_enter hframed henter).resolve_left ?_⟩
    exact Core.sp_ne_zero_of_enter hsize henter
  · refine held_modifyCore fun seen c h => ⟨h.1, ?_⟩
    rcases h.2 with ⟨hbeneath, hhalted⟩ | ⟨hrestored, -⟩
    · have hsame : Core.Level c { c with runState := .run, status := 1 } :=
        (Core.Level.refl hbeneath.framed).of_same rfl rfl rfl
      exact .inl ⟨hbeneath.trans hsame.beneath, hhalted⟩
    · exact .inr ⟨hrestored, fun _ => rfl⟩

/-- A read that is interrupted goes on where it was. -/
theorem readSim_moved :
    ReadSim (Beside (Held (Midway p old 0))) (Beside (Held (Moved p old))) run run' where
  before := held_lookSim _
  ofHost := held_ofHost _
  after := held_machineSim (moved_stable p old)
  stay := beside_granted fun _ _ h => h.moved
  call routine := by
    refine ⟨?_, False.elim⟩
    rintro s s' _ v ⟨rfl, hs⟩ h
    have hcalling : Held (Calling s.core s.memory.seen) s := by
      intro hdisciplined
      obtain ⟨-, _, -, hroom, -⟩ := hs hdisciplined
      exact ⟨rfl, rfl, hroom.1.framed⟩
    obtain ⟨t, ht, hbeside, hback⟩ :=
      (call_back hrun s.core s.memory.seen [routine]).ok ⟨rfl, hcalling⟩ h
    have hafter : (∀ m ∈ s'.memory.seen, m.Disciplined) →
        Moved p old s'.memory.seen s'.core ∧
          (s'.core.halted = false → Midway p old 0 s'.memory.seen s'.core) := by
      intro hdisciplined
      obtain ⟨hsub, hback⟩ := hback hdisciplined
      obtain ⟨hold, t₀, ht₀, hroom, hkeeps⟩ := hs fun m hm => hdisciplined m (hsub hm)
      obtain ⟨hmoves, hagain⟩ := hback.moves hroom.1 hkeeps
      refine ⟨⟨List.Subset.trans hold hsub, t₀, ht₀, hmoves⟩, fun hgoes => ?_⟩
      obtain ⟨hlevel, hkeeps'⟩ := hagain hgoes
      exact ⟨List.Subset.trans hold hsub, t₀, ht₀, ⟨hlevel, hlevel.framed.sp_le⟩, hkeeps'⟩
    exact ⟨t, ht, ⟨hbeside, fun hseen => (hafter hseen).1⟩,
      fun hgoes => ⟨hbeside, fun hseen => (hafter hseen).2 hgoes⟩⟩

/-! ## Instructions -/

variable [Host H]

theorem execute_done (fuel : Nat) {i : Instruction} {op : Operation}
    (hop : Operation.ofOpcode? i.form i.opcode = some op) :
    Sim False
      (Beside (Held fun seen c => (op ≠ .throwValue ∧ op ≠ .restart) ∧
        Midway p old (i.reach c.header.version) seen c))
      (Beside (Granted (Done p old))) (Machine.execute fuel run i op)
      (Machine.execute fuel run' i op) := by
  have hroom : ∀ r seen (c : Core), Midway p old (i.reach c.header.version) seen c →
      r ≤ i.reach c.header.version → Midway p old r seen c := fun r seen c h hr =>
    h.next (fun hroom => ⟨hroom.1, Nat.le_trans (Nat.add_le_add_left hr _) hroom.2⟩) rfl
  have hdone : ∀ (s : Machine (Watched M H) H) t, Beside (Held (Moved p old)) s t →
      Beside (Granted (Done p old)) s t := beside_granted fun _ _ h => by
    obtain ⟨hold, t, ht, hmoves⟩ := h
    exact ⟨hold, t, ht, .inl hmoves⟩
  refine roomSim_done.execute (fun r s t hst hr => ⟨hst.1, fun hseen => ?_⟩) fuel hop
    beside_core_eq (fun kind values hkind => ?_) (readSim_moved hrun) ?_ hdone ?_ ?_
  · exact hroom r _ _ (hst.2 hseen).2 hr
  · refine ((call_moved hkind values).mono hdone).pre ?_
    exact beside_granted fun _ w h => hroom 0 _ w.core h.2 (Nat.zero_le _)
  · exact beside_granted fun _ w h => hroom 0 _ w.core h.2 (Nat.zero_le _)
  · intro hthrow value target
    refine sim_of_undisciplined (fun _ _ h => h.1.1 hthrow) fun p => ?_
    exact (SameParts.runSim (Watched.memorySim p)).throwTo value target
  · intro hrestart
    refine sim_of_undisciplined (fun _ _ h => h.1.2 hrestart) fun p => ?_
    exact (SameParts.runSim (Watched.memorySim p)).restart

variable (p old) in
theorem stepWith_done (hframed : ∀ t, p t → t.core.Framed) (fuel : Nat) :
    Sim False (Beside (Granted fun seen w => old ⊆ seen ∧ p w ∧ w.KeepsToFrame))
      (Beside (Granted (Done p old))) (Machine.stepWith fuel run)
      (Machine.stepWith fuel run') := by
  refine stepWith_beside fuel (fun s k i op hs hdecode hseen hop hdisciplined => ?_)
    fun hop => execute_done hrun fuel hop
  rw [hseen] at hdisciplined ⊢
  obtain ⟨hold, hp, hkeeps⟩ := hs hdisciplined
  obtain ⟨hthrow, hrestart, -⟩ := hkeeps i k.unwatched hdecode
  rw [hop] at hthrow hrestart
  have hrun : Core.KeepsRun s.unwatched.core k.unwatched.core := by
    obtain ⟨pc, sp, hcore, -⟩ := decode_ok hdecode
    rw [hcore]
    exact id
  exact ⟨⟨fun h => hthrow (congrArg some h), fun h => hrestart (congrArg some h)⟩,
    hold, s.unwatched, hp, hkeeps.room (hframed _ hp) hdecode, hrun⟩

/-- One instruction of an interrupt. -/
theorem noting_running (k : Core) (old : List (Moment M H)) (fuel : Nat) :
    Sim False (Beside (Held fun seen c => old ⊆ seen ∧ k.Running c))
      (Beside (Held fun seen c => old ⊆ seen ∧ (k.Running c ∨ k.Over c)))
      (Machine.noting (Machine.stepWith fuel run)) (Machine.stepWith fuel run') := by
  refine noting_beside (fun s hs hseen => ?_)
    (stepWith_done (fun t => k.Running t.core) old hrun (fun t ht => ht.1.framed) fuel)
    fun s hs hseen => ?_
  · obtain ⟨hold, hrunning⟩ := hs fun m hm => hseen m (List.mem_cons_of_mem _ hm)
    have hkeeps := (hseen _ List.mem_cons_self).keepsToFrame hrunning.1.framed
    exact ⟨List.subset_cons_of_subset _ hold, hrunning, hkeeps⟩
  · obtain ⟨hold, t, ht, hdoes⟩ := hs fun m hm => hseen m (List.mem_cons_of_mem _ hm)
    exact ⟨List.subset_cons_of_subset _ hold, running_does ht hdoes⟩

end

/-! ## Runs -/

variable [Host H]

omit [Host H] in
theorem interrupts_beginRun {f : MachineM (Watched M H) H UInt16} {g : MachineM M H UInt16}
    (hfg : ∀ (k : Core) old,
      Sim False (Beside (Held fun seen c => old ⊆ seen ∧ (k.Running c ∨ k.Over c)))
        (Beside (Held fun seen c => old ⊆ seen ∧ k.Over c)) f g) :
    Interrupts (do Machine.beginRun; f) (do Machine.beginRun; g) := by
  intro k old
  have hbegin : Sim False (Beside (H := H) (Held fun seen c => old ⊆ seen ∧ Core.Inside k c))
      (Beside (Held fun seen c => old ⊆ seen ∧ (k.Running c ∨ k.Over c)))
      Machine.beginRun Machine.beginRun := by
    refine held_modifyCore fun seen c h => ⟨h.1, .inl ⟨?_, rfl⟩⟩
    exact h.2.of_level ((Core.Level.refl h.2.framed).of_same rfl rfl rfl)
  exact .bindThrough hbegin fun _ => hfg k old

theorem watchedResume_over (fuel : Nat) (k : Core) (old : List (Moment M H)) :
    Sim False (Beside (Held fun seen c => old ⊆ seen ∧ (k.Running c ∨ k.Over c)))
      (Beside (Held fun seen c => old ⊆ seen ∧ k.Over c))
      (Machine.watchedResume fuel : MachineM (Watched M H) H UInt16) (Machine.resume fuel) := by
  -- An interrupt inside this run has a caller of its own.
  induction fuel generalizing k old with
  | zero => exact .throw _
  | succ n ih =>
      refine inspectBind beside_core_eq id fun c => .ite (fun hgoes => ?_) fun hends => ?_
      · obtain ⟨hstate, hhalted⟩ := Machine.isRunning_iff.mp hgoes
        have hstep := noting_running (interrupts_beginRun ih) k old n
        refine .bindThrough (hstep.pre fun s t hst => ⟨hst.1.1, fun hseen => ?_⟩) fun _ => ih k old
        obtain ⟨⟨-, hs⟩, rfl⟩ := hst
        obtain ⟨hold, hplace⟩ := hs hseen
        refine ⟨hold, hplace.resolve_right fun hover => ?_⟩
        rcases hover with ⟨-, hhalted'⟩ | ⟨-, hstop⟩
        · exact hhalted hhalted'
        · cases hstate.symm.trans hstop
      · refine (Sim.pure c.status).mono fun s t hst => ⟨hst.1.1, fun hseen => ?_⟩
        obtain ⟨⟨-, hs⟩, rfl⟩ := hst
        obtain ⟨hold, hplace⟩ := hs hseen
        refine ⟨hold, hplace.elim (fun hrunning => .inl ⟨hrunning.1.beneath, ?_⟩) id⟩
        by_contra hhalted
        exact hends (Machine.isRunning_iff.mpr ⟨hrunning.2, hhalted⟩)

/-! ## Steps -/

/-- The moments of the interrupts in a step, in order. -/
def Machine.interrupts (fuel : Nat) (s : Machine M H) : List (Moment M H) :=
  (reached (Machine.stepWith fuel (do Machine.beginRun; Machine.watchedResume fuel)
    s.watch)).memory.seen.reverse

theorem does_step {fuel : Nat} {s s' : Machine M H} (hframed : s.core.Framed)
    (hkeeps : s.KeepsToFrame) (hinterrupts : ∀ m ∈ Machine.interrupts fuel s, m.Disciplined)
    (h : Machine.step fuel s = .ok () s') : s.Does s' := by
  have hsame := (SameParts.runSim (H := H)
    (Watched.memorySim (M := M) (H := H) fun _ => True)).toFrameSim
  have hrun := Watched.watchedResume_sim
    (fun moment _ => Watched.note_shows (fun _ _ => id) moment) hsame fuel
  obtain ⟨w, hw, rfl⟩ := Watched.exists_ok (s := s.watch)
    (hsame.stepWith (.bind hsame.beginRun fun _ => hrun) fuel) h
  have hseen : ∀ m ∈ w.memory.seen, m.Disciplined := by
    intro m hm
    apply hinterrupts
    rw [Machine.interrupts, hw, reached]
    exact List.mem_reverse.mpr hm
  have hstart : Granted (fun seen w => [] ⊆ seen ∧ w = s ∧ w.KeepsToFrame) s.watch :=
    fun _ => ⟨List.nil_subset _, rfl, hkeeps⟩
  have hstep := stepWith_done (· = s) [] (interrupts_beginRun (watchedResume_over fuel))
    (fun t ht => ht ▸ hframed) fuel
  obtain ⟨_, _, rfl, hdone⟩ := hstep.ok ⟨rfl, hstart⟩ hw
  obtain ⟨-, t, rfl, hdoes⟩ := hdone hseen
  exact hdoes

/-! ## Words of the frame -/

omit [AddressSpace M] [Host H] in
/-- With none of its words left, a routine takes a word of its frame off. -/
theorem pop_beyond_frame {s : Machine M H} (hs : s.core.Framed) (hempty : s.core.fp < s.core.sp) :
    (s.core.fp + 1 = stackSize →
        outcome ((ofCore Core.pop : MachineM M H UInt16) s) = .error .stackUnderflow) ∧
      (s.core.fp + 1 < stackSize →
        ∃ word t, (ofCore Core.pop : MachineM M H UInt16) s = .ok word t ∧
          s.core.stack[s.core.fp + 1]? = some word ∧ t.core.sp = t.core.fp + 2) := by
  have hsp : s.core.sp = s.core.fp + 1 := Nat.le_antisymm hs.sp_le hempty
  refine ⟨fun hbottom => ?_, fun hinside => ?_⟩
  · have hpop : Core.pop s.core = .error .stackUnderflow s.core := Core.pop_of_ge (by omega)
    rw [ofCore_eq_error_iff.mpr ⟨_, hpop, rfl⟩]
    rfl
  · have hword : s.core.stack[s.core.fp + 1]? = some s.core.stack[s.core.fp + 1] :=
      Vector.getElem?_eq_getElem hinside
    have htop : s.core.stack[s.core.sp]? = some s.core.stack[s.core.fp + 1] := by
      rw [← hword, hsp]
    have hpop := Core.pop_eq_ok_iff.mpr ⟨htop, rfl⟩
    exact ⟨_, _, ofCore_eq_ok_iff.mpr ⟨_, hpop, rfl⟩, hword, congrArg (· + 1) hsp⟩

omit [Host H] in
/-- In the same place, a word that is stored goes into the frame. -/
theorem store_beyond_frame {s : Machine M H} (hs : s.core.Framed)
    (hempty : s.core.fp < s.core.sp) (value : UInt16) :
    (s.core.fp + 1 = stackSize →
        outcome (Machine.storeVariable 0 value s) = .error .stackUnderflow) ∧
      (s.core.fp + 1 < stackSize →
        ∃ t, Machine.storeVariable 0 value s = .ok () t ∧
          t.core.stack[t.core.fp + 1]? = some value) := by
  have hsp : s.core.sp = s.core.fp + 1 := Nat.le_antisymm hs.sp_le hempty
  have hstore : (Machine.storeVariable 0 value : MachineM M H Unit) =
      ofCore (Core.replaceTop value) := if_pos rfl
  rw [hstore]
  refine ⟨fun hbottom => ?_, fun hinside => ?_⟩
  · have hreplace : Core.replaceTop value s.core = .error .stackUnderflow s.core :=
      if_neg (by omega)
    rw [ofCore_eq_error_iff.mpr ⟨_, hreplace, rfl⟩]
    rfl
  · have hreplace : Core.replaceTop value s.core =
        .ok () { s.core with stack := s.core.stack.setIfInBounds s.core.sp value } :=
      if_pos (by omega)
    refine ⟨_, ofCore_eq_ok_iff.mpr ⟨_, hreplace, rfl⟩, ?_⟩
    dsimp only
    rw [hsp]
    exact Vector.getElem?_setIfInBounds_self_of_lt hinside

/-- An instruction that keeps to its frame returns to a frame further up, or it
leaves everything above its own frame alone.  That it keeps to its frame is not
checked: with none of its words left, a routine takes or overwrites the words of
its frame, and only at the bottom of the stack this fails. -/
theorem frame_boundary_unchecked (s : Machine M H) (hs : s.core.Framed) :
    (∀ fuel s', s.KeepsToFrame → (∀ m ∈ Machine.interrupts fuel s, m.Disciplined) →
      Machine.step fuel s = .ok () s' →
      s'.core.Framed ∧
        ((s'.core.fp ≤ s.core.fp ∧ ∀ j, s.core.fp < j → s'.core.stack[j]? = s.core.stack[j]?) ∨
          (s.core.fp < s'.core.fp ∧
            ∃ before value, Core.Level s.core before.core ∧
              Machine.ret value before = .ok () s'))) ∧
    (s.core.fp < s.core.sp → ∀ value,
      (s.core.fp + 1 = stackSize →
        outcome ((ofCore Core.pop : MachineM M H UInt16) s) = .error .stackUnderflow ∧
          outcome (Machine.storeVariable 0 value s) = .error .stackUnderflow) ∧
      (s.core.fp + 1 < stackSize →
        (∃ word t, (ofCore Core.pop : MachineM M H UInt16) s = .ok word t ∧
          s.core.stack[s.core.fp + 1]? = some word ∧ t.core.sp = t.core.fp + 2) ∧
        ∃ t, Machine.storeVariable 0 value s = .ok () t ∧
          t.core.stack[t.core.fp + 1]? = some value)) := by
  refine ⟨fun fuel s' hkeeps hinterrupts hstep => ?_, fun hempty value => ?_⟩
  · rcases does_step hs hkeeps hinterrupts hstep with hmoves | ⟨before, value, hlevel, -, hret⟩
    · have hbeneath := hmoves.beneath
      exact ⟨hbeneath.framed, .inl ⟨hbeneath.fp_le, hbeneath.above⟩⟩
    · obtain ⟨hframed, hup⟩ := framed_of_ret hlevel.framed hret
      rw [hlevel.fp_eq] at hup
      exact ⟨hframed, .inr ⟨hup, before, value, hlevel, hret⟩⟩
  · obtain ⟨hpop, hpop'⟩ := pop_beyond_frame hs hempty
    obtain ⟨hstore, hstore'⟩ := store_beyond_frame hs hempty value
    exact ⟨fun hbottom => ⟨hpop hbottom, hstore hbottom⟩,
      fun hinside => ⟨hpop' hinside, hstore' hinside⟩⟩

/-- A routine that is about to read a key.  Its time runs out, and so does that
of a key which the interrupt reads in turn. -/
def timedReader : Except Fault (Machine Image Transcript) :=
  nestedReader.map fun s => { s with core.pc := 65 }

theorem frame_boundary_unchecked_reader :
    ∃ s s' : Machine Image Transcript, timedReader = .ok s ∧ s.core.Framed ∧ s.KeepsToFrame ∧
      (∀ m ∈ Machine.interrupts 5 s, m.Disciplined) ∧
      (Machine.interrupts 5 s).map (fun m => m.core.fp) = [33, 29, 33, 33, 33, 40] ∧
      Machine.step 5 s = .ok () s' ∧ s'.core.fp = s.core.fp ∧ s'.core.Framed ∧
      (∀ j, s.core.fp < j → s'.core.stack[j]? = s.core.stack[j]?) ∧
      ∃ word t, (ofCore Core.pop : MachineM Image Transcript UInt16) { s with core.sp := 41 } =
          .ok word t ∧ t.core.sp = t.core.fp + 2 := by
  obtain ⟨s, hs, hcheck⟩ := exists_of_givesOk (x := timedReader)
    (p := fun s => reachesOk (Machine.step 5 s) fun _ s' =>
      decide ((s.core.fp = 40 ∧ s.core.sp = 38 ∧ s.core.stack[42]? = some 1023 ∧
          s'.core.fp = 40) ∧
        (Moment.start s).Disciplined ∧ (∀ m ∈ Machine.interrupts 5 s, m.Disciplined) ∧
        (Machine.interrupts 5 s).map (fun m => m.core.fp) = [33, 29, 33, 33, 33, 40]))
    (by decide +kernel)
  obtain ⟨_, s', hstep, hcheck⟩ := exists_of_reachesOk hcheck
  obtain ⟨⟨hfp, hsp, hsaved, hfp'⟩, hstart, hinterrupts, hfps⟩ := of_decide_eq_true hcheck
  have hframed (n : Nat) (hn : n ≤ 41) :
      ({ s with core.sp := n } : Machine Image Transcript).core.Framed := by
    apply Core.framed_of_saved <;> dsimp only <;> rw [hfp]
    · exact hn
    · decide
    · exact hsaved
  have hstarted : s.core.Framed := hframed s.core.sp (by rw [hsp]; decide)
  have hkeeps := hstart.keepsToFrame hstarted
  obtain ⟨hboundary, -⟩ := frame_boundary_unchecked s hstarted
  obtain ⟨-, hbeyond⟩ := frame_boundary_unchecked { s with core.sp := 41 }
    (hframed 41 (Nat.le_refl _))
  have hempty : s.core.fp < 41 := by
    rw [hfp]
    decide
  have hinside : s.core.fp + 1 < stackSize := by
    rw [hfp]
    decide
  obtain ⟨⟨word, t, hpop, -, hsp'⟩, -⟩ := (hbeyond hempty 0).2 hinside
  obtain ⟨hframed', hplace⟩ := hboundary 5 s' hkeeps hinterrupts hstep
  obtain ⟨-, habove⟩ := hplace.resolve_right fun hup => by
    rw [hfp, hfp'] at hup
    exact Nat.lt_irrefl _ hup.1
  exact ⟨s, s', hs, hstarted, hkeeps, hinterrupts, hfps, hstep, hfp'.trans hfp.symm,
    hframed', habove, word, t, hpop, hsp'⟩

end ZMachine
