import Mathlib.Logic.Relation
import ZMachine.Proofs.Frame.Inside
import ZMachine.Proofs.Frame.Operation
import ZMachine.Proofs.Frame.Throw

/-!
# Caught frames

A catch stores the pointer of the running frame.  Until the routine of that
frame returns, everything that is called from it lies below, and `Retains` says
what stays: the words above the frame, and plain frames that lead out to it.
A throw to the stored pointer then finds what a return would have found at the
time of the catch, and delivers the value alike.
-/

namespace ZMachine

open MachineM

variable {M H : Type} [AddressSpace M]

/-! ## A frame that stays in place -/

namespace Core

/-- The frame of a function or procedure, with the next one outwards. -/
def PlainFrame (stack : Vector UInt16 stackSize) (fp next : Nat) : Prop :=
  (∃ kind, kindAt stack fp = some kind ∧ kind ≠ .async) ∧
    stack[fp + 2]?.map UInt16.toNat = some next ∧ fp + 4 ≤ next

section

variable {stack stack' : Vector UInt16 stackSize} {base fp : Nat}

theorem le_of_plainFrames (h : Relation.ReflTransGen (PlainFrame stack) fp base) : fp ≤ base := by
  induction h with
  | refl => exact Nat.le_refl _
  | tail _ hframe ih =>
      obtain ⟨-, -, hfar⟩ := hframe
      omega

theorem plainFrames_of_sameAbove (h : Relation.ReflTransGen (PlainFrame stack) fp base)
    (hsame : SameAbove fp stack' stack) : Relation.ReflTransGen (PlainFrame stack') fp base := by
  induction h using Relation.ReflTransGen.head_induction_on with
  | refl => exact .refl
  | @head fp next hframe _ ih =>
      obtain ⟨hkind, hsaved, hfar⟩ := hframe
      have hframe' : PlainFrame stack' fp next := by
        refine ⟨?_, ?_, hfar⟩
        · rwa [kindAt, hsame _ (Nat.lt_succ_self _)]
        · rwa [hsame _ (by omega)]
      exact .head hframe' (ih (hsame.mono (by omega)))

end

/-- The frame of the first core is still in place in the second, which is in
the same routine or in functions and procedures that were called from it. -/
structure Retains (c₀ c : Core) : Prop where
  framed : c.Framed
  frames : Relation.ReflTransGen (PlainFrame c.stack) c.fp c₀.fp
  above : SameAbove c₀.fp c.stack c₀.stack
  origin_eq : c.origin = c₀.origin
  runState_eq : c.runState = c₀.runState

namespace Retains

variable {c₀ c c' : Core}

theorem refl (hc : c.Framed) : Retains c c :=
  ⟨hc, .refl, fun _ _ => rfl, rfl, rfl⟩

theorem fp_le (h : Retains c₀ c) : c.fp ≤ c₀.fp :=
  le_of_plainFrames h.frames

theorem of_level (h : Retains c₀ c) (hlevel : Level c c') (horigin : c'.origin = c.origin)
    (hrun : c'.runState = c.runState) : Retains c₀ c' where
  framed := hlevel.framed
  frames := by
    rw [hlevel.fp_eq]
    exact plainFrames_of_sameAbove h.frames hlevel.above
  above := (hlevel.above.mono h.fp_le).trans h.above
  origin_eq := horigin.trans h.origin_eq
  runState_eq := hrun.trans h.runState_eq

theorem adjusted (h : Retains c₀ c) (hadjusted : Adjusted c c') : Retains c₀ c' := by
  obtain ⟨hstack, hsp, hfp, horigin, hrun, -⟩ := hadjusted
  exact h.of_level ((Level.refl h.framed).of_same hstack hsp hfp) horigin hrun

theorem push (h : Retains c₀ c) {value : UInt16} (hpush : push value c = .ok () c') :
    Retains c₀ c' := by
  have hlevel := (Level.refl h.framed).push hpush
  obtain ⟨-, rfl⟩ := push_eq_ok_iff.mp hpush
  exact h.of_level hlevel rfl rfl

theorem pop (h : Retains c₀ c) (htop : c.sp ≤ c.fp) {value : UInt16}
    (hpop : pop c = .ok value c') : Retains c₀ c' := by
  have hlevel := (Level.refl h.framed).pop htop hpop
  obtain ⟨-, rfl⟩ := pop_eq_ok_iff.mp hpop
  exact h.of_level hlevel rfl rfl

theorem writeLocal (h : Retains c₀ c) {n : Nat} {value : UInt16}
    (hwrite : writeLocal n value c = .ok () c') : Retains c₀ c' := by
  have hlevel := (Level.refl h.framed).writeLocal hwrite
  obtain rfl := writeLocal_ok hwrite
  exact h.of_level hlevel rfl rfl

theorem enter (h : Retains c₀ c) {arguments : Nat} {kind : CallKind} (hkind : kind ≠ .async)
    (henter : enter arguments kind c = .ok () c') : Retains c₀ c' := by
  have hsize : c.sp ≤ stackSize := Nat.le_trans h.framed.sp_le h.framed.fp_lt
  have hpos := sp_ne_zero_of_enter hsize henter
  obtain ⟨hframed, hentered⟩ := h.framed.entered henter
  have hsp := hentered.sp_eq
  have hle := h.framed.sp_le
  have hsame : SameAbove c.fp c'.stack c.stack := fun j hj => hentered.above j (by omega)
  have hframe : PlainFrame c'.stack c'.fp c.fp :=
    ⟨⟨kind, kindAt_enter hsize henter hpos, hkind⟩, hentered.fp_eq, by omega⟩
  have hkept : c'.origin = c.origin ∧ c'.runState = c.runState := by
    obtain ⟨-, stack, rfl, -⟩ := enter_ok hsize henter
    exact ⟨rfl, rfl⟩
  exact {
    framed := hframed
    frames := .head hframe (plainFrames_of_sameAbove h.frames hsame)
    above := (hsame.mono h.fp_le).trans h.above
    origin_eq := hkept.1.trans h.origin_eq
    runState_eq := hkept.2.trans h.runState_eq }

/-- A return from below the frame leads to the next routine that was called
from it. -/
theorem leave (h : Retains c₀ c) (hbelow : c.fp < c₀.fp) {kind : CallKind}
    (hleave : leave c = .ok kind c') : kind ≠ .async ∧ Retains c₀ c' := by
  obtain ⟨hframed, -, -⟩ := h.framed.leave hleave
  rcases h.frames.cases_head with hsame | ⟨next, ⟨⟨kind', hkind, hplain⟩, hsaved, -⟩, hframes⟩
  · exact absurd hsame (Nat.ne_of_lt hbelow)
  · obtain rfl := Option.some.inj ((kindAt_leave hleave).symm.trans hkind)
    obtain ⟨word, fp, low, high, -, hfp, -, -, -, rfl⟩ := leave_ok hleave
    rw [hfp, Option.map_some, Option.some.injEq] at hsaved
    subst hsaved
    exact ⟨hplain, hframed, hframes, h.above, h.origin_eq, h.runState_eq⟩

end Retains

theorem Stable.retains (c₀ : Core) : Stable (Retains c₀) where
  adjust _ hf h := h.adjusted (hf _)
  push h hpush := h.push hpush
  writeLocal h hwrite := h.writeLocal hwrite

end Core

/-- What happens while the routine with a given frame has not returned. -/
inductive Machine.Works (base : Nat) : Machine M H → Machine M H → Prop where
  | call {run : MachineM M H UInt16} {kind : CallKind} {values : List UInt16} {answer : UInt16}
      {s s' : Machine M H} (hkind : kind ≠ .async)
      (h : Machine.call run kind values s = .ok answer s') : Works base s s'
  | ret {value : UInt16} {s s' : Machine M H} (hbelow : s.core.fp < base)
      (h : Machine.ret value s = .ok () s') : Works base s s'
  | push {value : UInt16} {s s' : Machine M H}
      (h : (ofCore (Core.push value) : MachineM M H Unit) s = .ok () s') : Works base s s'
  | pop {value : UInt16} {s s' : Machine M H} (hown : s.core.sp ≤ s.core.fp)
      (h : (ofCore Core.pop : MachineM M H UInt16) s = .ok value s') : Works base s s'
  | writeLocal {n : Nat} {value : UInt16} {s s' : Machine M H}
      (h : (ofCore (Core.writeLocal n value) : MachineM M H Unit) s = .ok () s') : Works base s s'
  /-- Anything in memory, outside and in the other registers. -/
  | elsewhere {s s' : Machine M H} (h : Core.Adjusted s.core s'.core) : Works base s s'

theorem retains_works {c₀ : Core} {s s' : Machine M H} (hs : c₀.Retains s.core)
    (h : Machine.Works c₀.fp s s') : c₀.Retains s'.core := by
  have hsim := (Core.Stable.retains c₀).machineSim (M := M) (H := H)
  cases h with
  | call hkind h =>
      refine
        (callPlain_sim hsim hkind _ (fun _ _ => id) (hsim.storeResult 0) fun n => ?_).holds hs h
      refine .holding fun hs h => ?_
      obtain ⟨c, hc, rfl⟩ := ofCore_eq_ok_iff.mp h
      exact hs.enter hkind hc
  | ret hbelow h =>
      obtain ⟨kind, c, hc, hdeliver⟩ := Machine.ret_ok h
      obtain ⟨hplain, hretains⟩ := hs.leave hbelow hc
      exact (hsim.deliver hplain _).holds hretains hdeliver
  | push h =>
      obtain ⟨c, hc, rfl⟩ := ofCore_eq_ok_iff.mp h
      exact hs.push hc
  | pop hown h =>
      obtain ⟨c, hc, rfl⟩ := ofCore_eq_ok_iff.mp h
      exact hs.pop hown hc
  | writeLocal h =>
      obtain ⟨c, hc, rfl⟩ := ofCore_eq_ok_iff.mp h
      exact hs.writeLocal hc
  | elsewhere h => exact hs.adjusted h

theorem retains_run {c₀ : Core} {s s' : Machine M H} (hs : c₀.Retains s.core)
    (h : Relation.ReflTransGen (Machine.Works c₀.fp) s s') : c₀.Retains s'.core := by
  induction h with
  | refl => exact hs
  | tail _ hwork ih => exact retains_works ih hwork

/-! ## Deliveries

A value is delivered alike to machines that differ in what lies below the
stack pointer, outside, or in registers that a delivery does not read. -/

structure Core.Alike (c c' : Core) : Prop where
  header_eq : c.header = c'.header
  pc_eq : c.pc = c'.pc
  sp_eq : c.sp = c'.sp
  fp_eq : c.fp = c'.fp
  runState_eq : c.runState = c'.runState
  words_eq : ∀ j, c.sp ≤ j → c.stack[j]? = c'.stack[j]?

namespace Core.Alike

/-- One word changes, and it is the only one that may come into view. -/
theorem set {c c' : Core} (h : Alike c c') {n i : Nat} (value : UInt16)
    (hview : ∀ j, n ≤ j → j < c.sp → j = i) :
    Alike { c with sp := n, stack := c.stack.setIfInBounds i value }
      { c' with sp := n, stack := c'.stack.setIfInBounds i value } where
  header_eq := h.header_eq
  pc_eq := h.pc_eq
  sp_eq := rfl
  fp_eq := h.fp_eq
  runState_eq := h.runState_eq
  words_eq := by
    intro j hj
    simp only [Vector.getElem?_setIfInBounds]
    by_cases hij : i = j
    · rw [if_pos hij, if_pos hij]
    · rw [if_neg hij, if_neg hij]
      apply h.words_eq
      by_contra hbelow
      exact hij (hview j hj (Nat.not_le.mp hbelow)).symm

theorem push (value : UInt16) : Sim True Alike Alike (Core.push value) (Core.push value) := by
  refine ⟨fun {c _ c' _} h hc => ?_, fun _ {c _ c' _} h hc => ?_⟩
  all_goals
    unfold Core.push at hc ⊢
    rw [← h.sp_eq]
    split at hc <;> cases hc
  · rw [if_neg ‹_›]
    exact ⟨_, rfl, h.set value fun j _ _ => by omega⟩
  · rw [if_pos ‹_›]
    exact ⟨c', rfl, h⟩

theorem writeLocal (n : Nat) (value : UInt16) :
    Sim True Alike Alike (Core.writeLocal n value) (Core.writeLocal n value) := by
  refine ⟨fun {c _ c' _} h hc => ?_, fun _ {c _ c' _} h hc => ?_⟩
  all_goals
    rw [writeLocal_eq] at hc ⊢
    rw [← h.fp_eq]
    split at hc
  · split at hc <;> cases hc
    rw [if_pos ‹_›, if_pos ‹_›]
    have hset := h.set (n := c.sp) (i := c.fp - (n - 1)) value fun j hj hlt => by omega
    exact ⟨_, rfl, h.header_eq, h.pc_eq, h.sp_eq, rfl, h.runState_eq, hset.words_eq⟩
  · cases hc
  · split at hc <;> cases hc
    rw [if_pos ‹_›, if_neg ‹_›]
    exact ⟨c', rfl, h⟩
  · cases hc
    rw [if_neg ‹_›]
    exact ⟨c', rfl, h⟩

end Core.Alike

/-- The same memory, and cores that are alike. -/
def Machine.Alike (s t : Machine M H) : Prop :=
  s.memory = t.memory ∧ s.core.Alike t.core

namespace Machine.Alike

variable {α β γ : Type}

omit [AddressSpace M] in
theorem ofMemory (x : MemoryM M α) :
    Sim True (Alike (H := H)) Alike (ofMemory x) (ofMemory x) := by
  refine ⟨fun {s _ t _} hst h => ?_, fun _ {s _ t _} hst h => ?_⟩
  · obtain ⟨hmemory, hcore⟩ := hst
    obtain ⟨memory, hx, rfl⟩ := ofMemory_eq_ok_iff.mp h
    rw [hmemory] at hx
    exact ⟨_, ofMemory_eq_ok_iff.mpr ⟨memory, hx, rfl⟩, rfl, hcore⟩
  · obtain ⟨hmemory, hcore⟩ := hst
    obtain ⟨memory, hx, rfl⟩ := ofMemory_eq_error_iff.mp h
    rw [hmemory] at hx
    exact ⟨_, ofMemory_eq_error_iff.mpr ⟨memory, hx, rfl⟩, rfl, hcore⟩

omit [AddressSpace M] in
theorem ofCore {x : CoreM α} (hx : Sim True Core.Alike Core.Alike x x) :
    Sim True (Alike (M := M) (H := H)) Alike (ofCore x) (ofCore x) := by
  refine ⟨fun {s _ t _} hst h => ?_, fun _ {s _ t _} hst h => ?_⟩
  · obtain ⟨c, hc, rfl⟩ := ofCore_eq_ok_iff.mp h
    obtain ⟨c', hc', halike⟩ := hx.ok hst.2 hc
    exact ⟨_, ofCore_eq_ok_iff.mpr ⟨c', hc', rfl⟩, hst.1, halike⟩
  · obtain ⟨c, hc, rfl⟩ := ofCore_eq_error_iff.mp h
    obtain ⟨c', hc', halike⟩ := hx.error trivial hst.2 hc
    exact ⟨_, ofCore_eq_error_iff.mpr ⟨c', hc', rfl⟩, hst.1, halike⟩

omit [AddressSpace M] in
theorem modifyCore {f : Core → Core} (hf : ∀ c c' : Core, c.Alike c' → (f c).Alike (f c')) :
    Sim True (Alike (M := M) (H := H)) Alike (modifyCore f) (modifyCore f) := by
  refine ⟨fun hst h => ?_, fun _ _ _ _ _ _ h => by cases h⟩
  cases h
  exact ⟨_, rfl, hst.1, hf _ _ hst.2⟩

omit [AddressSpace M] in
/-- A look at a register that machines alike have in common. -/
theorem lookBind (look : Core → γ) (hlook : ∀ c c' : Core, c.Alike c' → look c = look c')
    {f : γ → MachineM M H β} (hf : ∀ a, Sim True Alike Alike (f a) (f a)) :
    Sim True Alike Alike ((fun s => .ok (look s.core) s : MachineM M H γ) >>= f)
      ((fun s => .ok (look s.core) s : MachineM M H γ) >>= f) := by
  refine .bind ⟨fun hst h => ?_, fun _ _ _ _ _ _ h => by cases h⟩ hf
  cases h
  rw [hlook _ _ hst.2]
  exact ⟨_, rfl, hst⟩

theorem fetchByte : Sim True (Alike (M := M) (H := H)) Alike fetchByte fetchByte := by
  have hfetch : (Machine.fetchByte : MachineM M H UInt8) =
      (fun s => .ok s.core.pc s : MachineM M H UInt32) >>= fun pc => do
        let b ← MachineM.ofMemory (Memory.readByte pc.toNat)
        MachineM.modifyCore fun c => { c with pc := c.pc + 1 }
        return b := rfl
  rw [hfetch]
  refine lookBind (fun c => c.pc) (fun _ _ h => h.pc_eq) fun pc => ?_
  refine .bind (ofMemory (Memory.readByte pc.toNat)) fun b => .bind (modifyCore ?_) fun _ => .pure b
  intro c c' h
  exact ⟨h.header_eq, by rw [h.pc_eq], h.sp_eq, h.fp_eq, h.runState_eq, h.words_eq⟩

theorem storeResult (value : UInt16) :
    Sim True (Alike (M := M) (H := H)) Alike (storeResult value) (storeResult value) := by
  refine .bind fetchByte fun n => .ite (fun _ => ofCore (Core.Alike.push value)) fun hn => ?_
  refine .ite (fun hzero => absurd hzero hn) fun _ => .ite (fun _ => ?_) fun _ => ?_
  · exact ofCore (Core.Alike.writeLocal n.toNat value)
  · exact lookBind (fun c => c.header) (fun _ _ h => h.header_eq) fun _ => ofMemory _

theorem deliver (value : UInt16) (kind : CallKind) :
    Sim True (Alike (M := M) (H := H)) Alike (Machine.deliver value kind)
      (Machine.deliver value kind) := by
  cases kind with
  | async =>
      unfold Machine.deliver
      refine modifyCore fun c c' h => ?_
      exact ⟨h.header_eq, h.pc_eq, h.sp_eq, h.fp_eq, rfl, h.words_eq⟩
  | procedure => exact .pure ()
  | function => exact storeResult value

end Machine.Alike

/-! ## Throws as returns -/

/-- Everything of a core that a return from its frame depends on. -/
structure Core.SameFrame (c c' : Core) : Prop where
  header_eq : c.header = c'.header
  runState_eq : c.runState = c'.runState
  fp_eq : c.fp = c'.fp
  above : SameAbove c.fp c.stack c'.stack

theorem Core.SameFrame.leave {c c' : Core} (h : c.SameFrame c') :
    (∃ e d d', Core.leave c = .error e d ∧ Core.leave c' = .error e d') ∨
      ∃ kind d d', Core.leave c = .ok kind d ∧ Core.leave c' = .ok kind d' ∧ d.Alike d' := by
  obtain ⟨hheader, hrun, hfp, habove⟩ := h
  have hwords : ∀ i, c'.stack[c'.fp + (i + 1)]? = c.stack[c.fp + (i + 1)]? := by
    intro i
    rw [← hfp, habove _ (by omega)]
  rw [leave_eq c, leave_eq c', hwords 0, hwords 1, hwords 2, hwords 3, ← hfp]
  split
  · split
    · exact .inl ⟨_, _, _, rfl, rfl⟩
    · refine .inr ⟨_, _, _, rfl, rfl, hheader, rfl, rfl, rfl, hrun, fun j hj => ?_⟩
      exact habove j (by dsimp only at hj; omega)
  · exact .inl ⟨_, _, _, rfl, rfl⟩

theorem ret_of_sameFrame {s t : Machine M H} (hmemory : s.memory = t.memory)
    (hframe : s.core.SameFrame t.core) (value : UInt16) :
    outcome (Machine.ret value s) = outcome (Machine.ret value t) ∧
      ∀ s' t', Machine.ret value s = .ok () s' → Machine.ret value t = .ok () t' →
        s'.Alike t' := by
  rw [Machine.ret_eq]
  rcases hframe.leave with ⟨e, c, c', hc, hc'⟩ | ⟨kind, c, c', hc, hc', halike⟩
  · rw [bind_error (ofCore_eq_error_iff.mpr ⟨c, hc, rfl⟩),
      bind_error (ofCore_eq_error_iff.mpr ⟨c', hc', rfl⟩)]
    refine ⟨rfl, fun _ _ h => ?_⟩
    simp only [reduceCtorEq] at h
  · rw [bind_ok (ofCore_eq_ok_iff.mpr ⟨c, hc, rfl⟩), bind_ok (ofCore_eq_ok_iff.mpr ⟨c', hc', rfl⟩)]
    have hleft : Machine.Alike { s with core := c } { t with core := c' } := ⟨hmemory, halike⟩
    have hdeliver := (Machine.Alike.deliver value kind).call hleft
    refine ⟨hdeliver.1, fun s' t' hs' ht' => ?_⟩
    rw [hs', ht'] at hdeliver
    exact hdeliver.2

/-- A throw to a caught frame is a return from the routine that caught it, as
long as that routine has not returned. -/
theorem throw_returns_from_catch (s₀ s₁ s : Machine M H) (hframed : s₀.core.Framed)
    (hversion : 4 < s₀.core.header.version) (hcatch : Machine.catchFrame s₀ = .ok () s₁)
    (hworks : Relation.ReflTransGen (Machine.Works s₀.core.fp) s₁ s) (value : UInt16) :
    outcome (Machine.throwTo value (UInt16.ofNat s₀.core.fp) s) =
        outcome (Machine.ret value { s₀ with memory := s.memory }) ∧
      ∀ t t', Machine.throwTo value (UInt16.ofNat s₀.core.fp) s = .ok () t →
        Machine.ret value { s₀ with memory := s.memory } = .ok () t' →
        t.memory = t'.memory ∧ t.core.pc = t'.core.pc ∧ t.core.sp = t'.core.sp ∧
          t.core.fp = t'.core.fp ∧ t.core.runState = t'.core.runState ∧
          ∀ j, t.core.sp ≤ j → t.core.stack[j]? = t'.core.stack[j]? := by
  have htoken : (UInt16.ofNat s₀.core.fp).toNat = s₀.core.fp := by
    have hsize : stackSize = 1024 := rfl
    have hlt := hframed.fp_lt
    rw [UInt16.toNat_ofNat', Nat.mod_eq_of_lt (by omega)]
  have hstored : Machine.storeResult (UInt16.ofNat s₀.core.fp) s₀ = .ok () s₁ := by
    rw [Machine.catchFrame, bind_ok (rfl : version s₀ = .ok _ s₀), if_pos hversion] at hcatch
    exact hcatch
  have hsim := (Core.Stable.retains s₀.core).machineSim (M := M) (H := H)
  have hcaught : s₀.core.Retains s₁.core := (hsim.storeResult _).holds (.refl hframed) hstored
  have hretains := retains_run hcaught hworks
  have hframe : ({ s.core with fp := s₀.core.fp } : Core).SameFrame s₀.core :=
    ⟨congrArg Prod.fst hretains.origin_eq, hretains.runState_eq, rfl, hretains.above⟩
  rw [Machine.throwTo_eq, htoken, if_neg (Nat.not_lt.mpr hretains.fp_le)]
  obtain ⟨houtcome, halike⟩ := ret_of_sameFrame (s := { s with core.fp := s₀.core.fp })
    (t := { s₀ with memory := s.memory }) rfl hframe value
  refine ⟨houtcome, fun t t' ht ht' => ?_⟩
  obtain ⟨hmemory, hcore⟩ := halike t t' ht ht'
  exact ⟨hmemory, hcore.pc_eq, hcore.sp_eq, hcore.fp_eq, hcore.runState_eq, hcore.words_eq⟩

/-- Calls two deep and back, with words of each routine. -/
def detour : MachineM Image Transcript (List Nat) := do
  let _ ← Machine.call (pure 0) .function [20, 7]
  ofCore (Core.push 5)
  ofCore (Core.writeLocal 1 9)
  let _ ← Machine.call (pure 0) .procedure [20]
  let inner ← getCore
  Machine.ret 3
  let outer ← getCore
  let _ ← ofCore Core.pop
  let _ ← Machine.call (pure 0) .procedure [20, 8, 9]
  return [inner.fp, outer.sp, outer.fp]

theorem works_of_detour {s s' : Machine Image Transcript}
    (h : detour s = .ok [27, 32, 33] s') : Relation.ReflTransGen (Machine.Works 40) s s' := by
  obtain ⟨_, s₁, h₁, h⟩ := bind_eq_ok_iff.mp h
  obtain ⟨_, s₂, h₂, h⟩ := bind_eq_ok_iff.mp h
  obtain ⟨_, s₃, h₃, h⟩ := bind_eq_ok_iff.mp h
  obtain ⟨_, s₄, h₄, h⟩ := bind_eq_ok_iff.mp h
  obtain ⟨inner, _, hinner, h⟩ := bind_eq_ok_iff.mp h
  cases hinner
  obtain ⟨_, s₅, h₅, h⟩ := bind_eq_ok_iff.mp h
  obtain ⟨outer, _, houter, h⟩ := bind_eq_ok_iff.mp h
  cases houter
  obtain ⟨_, s₆, h₆, h⟩ := bind_eq_ok_iff.mp h
  obtain ⟨_, s₇, h₇, h⟩ := bind_eq_ok_iff.mp h
  injection h with hseen hlast
  simp only [List.cons.injEq, and_true] at hseen
  obtain ⟨hinner, hsp, hfp⟩ := hseen
  subst hlast
  have hfront : Relation.ReflTransGen (Machine.Works 40) s s₄ :=
    (((Relation.ReflTransGen.single (.call (by decide) h₁)).tail (.push h₂)).tail
      (.writeLocal h₃)).tail (.call (by decide) h₄)
  have hback : Machine.Works 40 s₄ s₅ := .ret (by rw [hinner]; decide) h₅
  have hown : s₅.core.sp ≤ s₅.core.fp := by
    rw [hsp, hfp]
    decide
  exact ((hfront.tail hback).tail (.pop hown h₆)).tail (.call (by decide) h₇)

theorem throw_returns_from_catch_deep :
    ∃ s₀ s₁ s t, catcher = .ok s₀ ∧ s₀.core.Framed ∧ Machine.catchFrame s₀ = .ok () s₁ ∧
      detour s₁ = .ok [27, 32, 33] s ∧ s.core.fp = 28 ∧
      Machine.throwTo 9 40 s = .ok () t ∧
      t.core.pc = 67 ∧ t.core.sp = 45 ∧ t.core.fp = 1023 ∧
      ∃ t', Machine.ret 9 { s₀ with memory := s.memory } = .ok () t' ∧ t.memory = t'.memory ∧
        t.core.pc = t'.core.pc ∧ t.core.sp = t'.core.sp ∧ t.core.fp = t'.core.fp ∧
        t.core.runState = t'.core.runState ∧
        ∀ j, t.core.sp ≤ j → t.core.stack[j]? = t'.core.stack[j]? := by
  obtain ⟨s₀, hs₀, hcheck⟩ := exists_of_givesOk (x := catcher)
    (p := fun s₀ => reachesOk (Machine.catchFrame s₀) fun _ s₁ =>
      reachesOk (detour s₁) fun seen s =>
        reachesOk (Machine.throwTo 9 40 s) fun _ t =>
          decide ((s₀.core.fp = 40 ∧ s₀.core.sp = 38 ∧ s₀.core.stack[42]? = some 1023 ∧
              4 < s₀.core.header.version) ∧
            (seen = [27, 32, 33] ∧ s.core.fp = 28) ∧
            t.core.pc = 67 ∧ t.core.sp = 45 ∧ t.core.fp = 1023)) (by decide +kernel)
  obtain ⟨_, s₁, hcatch, hcheck⟩ := exists_of_reachesOk hcheck
  obtain ⟨seen, s, hdetour, hcheck⟩ := exists_of_reachesOk hcheck
  obtain ⟨_, t, hthrow, hcheck⟩ := exists_of_reachesOk hcheck
  obtain ⟨⟨hfp, hsp, hsaved, hversion⟩, ⟨rfl, hdeep⟩, hpc, hsp', hfp'⟩ :=
    of_decide_eq_true hcheck
  have hframed : s₀.core.Framed := by
    apply Core.framed_of_saved <;> rw [hfp]
    · rw [hsp]
      decide
    · decide
    · exact hsaved
  have hworks : Relation.ReflTransGen (Machine.Works s₀.core.fp) s₁ s := by
    rw [hfp]
    exact works_of_detour hdetour
  obtain ⟨houtcome, hsame⟩ :=
    throw_returns_from_catch s₀ s₁ s hframed hversion hcatch hworks 9
  rw [hfp] at houtcome hsame
  change outcome (Machine.throwTo 9 40 s) = _ at houtcome
  rw [hthrow] at houtcome
  cases hret : Machine.ret 9 { s₀ with memory := s.memory } with
  | error e t' =>
      rw [hret] at houtcome
      cases houtcome
  | ok _ t' =>
      exact ⟨s₀, s₁, s, t, hs₀, hframed, hcatch, hdetour, hdeep, hthrow, hpc, hsp', hfp',
        t', hret, hsame t t' hthrow hret⟩

end ZMachine
