import ZMachine.Machine.Routine
import ZMachine.Proofs.Simulation

/-!
# Chains of frames

Frames, locals and evaluation words share one stack, and nothing in it marks
where one ends.  `Chain` follows the saved frame pointers outwards, each frame
at least four words below the next.  A core is `Framed` if its frame pointer
starts such a chain to the bottom of the stack and the stack pointer is at or
below the frame.

Only words above the frame pointer carry the chain.  A call puts four words
on top of it and a return takes exactly these off again, so both keep it;
pushes and locals lie below.
-/

namespace ZMachine.Core

/-- Saved frame pointers lead from a frame out to the frame at `last`. -/
inductive Chain (stack : Vector UInt16 stackSize) (last : Nat) : Nat → Prop where
  | last : Chain stack last last
  | frame {fp next : Nat} (hsaved : stack[fp + 2]?.map UInt16.toNat = some next)
      (hfar : fp + 4 ≤ next) (hnext : Chain stack last next) : Chain stack last fp

structure Framed (c : Core) : Prop where
  fp_lt : c.fp < stackSize
  sp_le : c.sp ≤ c.fp + 1
  chain : Chain c.stack (stackSize - 1) c.fp

/-- Two stacks with the same words above an index. -/
def SameAbove (i : Nat) (stack stack' : Vector UInt16 stackSize) : Prop :=
  ∀ j, i < j → stack[j]? = stack'[j]?

theorem SameAbove.trans {i : Nat} {stack stack' stack'' : Vector UInt16 stackSize}
    (h : SameAbove i stack stack') (h' : SameAbove i stack' stack'') :
    SameAbove i stack stack'' :=
  fun j hj => (h j hj).trans (h' j hj)

theorem SameAbove.mono {i k : Nat} {stack stack' : Vector UInt16 stackSize}
    (h : SameAbove i stack stack') (hik : i ≤ k) : SameAbove k stack stack' :=
  fun j hj => h j (Nat.lt_of_le_of_lt hik hj)

theorem sameAbove_set {i k : Nat} (hki : k ≤ i) (stack : Vector UInt16 stackSize) (value : UInt16) :
    SameAbove i (stack.setIfInBounds k value) stack := by
  intro j hj
  exact Vector.getElem?_setIfInBounds_ne (by omega)

namespace Chain

variable {stack stack' : Vector UInt16 stackSize} {last fp : Nat}

theorem of_sameAbove (hchain : Chain stack last fp) (hsame : SameAbove fp stack' stack) :
    Chain stack' last fp := by
  induction hchain with
  | last => exact .last
  | @frame fp next hsaved hfar _ ih =>
      refine .frame ?_ hfar (ih (hsame.mono (by omega)))
      rw [hsame (fp + 2) (by omega)]
      exact hsaved

theorem le (h : Chain stack last fp) : fp ≤ last := by
  induction h with
  | last => exact Nat.le_refl _
  | frame _ hfar _ ih => omega

theorem eq_or_exists (h : Chain stack last fp) :
    fp = last ∨
      ∃ next, stack[fp + 2]?.map UInt16.toNat = some next ∧ fp + 4 ≤ next ∧
        Chain stack last next := by
  cases h with
  | last => exact .inl rfl
  | frame hsaved hfar hnext => exact .inr ⟨_, hsaved, hfar, hnext⟩

end Chain

/-- A routine that was called from the bottom of the stack. -/
theorem framed_of_saved {c : Core} (hsp : c.sp ≤ c.fp + 1) (hfar : c.fp + 4 ≤ stackSize - 1)
    (hsaved : c.stack[c.fp + 2]? = some 1023) : c.Framed := by
  have hsize : stackSize = 1024 := rfl
  refine ⟨by omega, hsp, .frame ?_ hfar .last⟩
  rw [hsaved]
  rfl

/-! ## Words on and off the stack -/

theorem push_eq_ok_iff {value : UInt16} {c c' : Core} :
    push value c = .ok () c' ↔
      0 < c.sp ∧
        c' = { c with sp := c.sp - 1, stack := c.stack.setIfInBounds (c.sp - 1) value } := by
  unfold push
  split
  next hzero => simp [hzero]
  next hpos => simp [Nat.pos_of_ne_zero hpos, eq_comm]

theorem pop_eq_ok_iff {value : UInt16} {c c' : Core} :
    pop c = .ok value c' ↔ c.stack[c.sp]? = some value ∧ c' = { c with sp := c.sp + 1 } := by
  unfold pop
  cases c.stack[c.sp]? with
  | none => simp
  | some v => simp [eq_comm]

theorem pop_of_ge {c : Core} (h : stackSize ≤ c.sp) : pop c = .error .stackUnderflow c := by
  simp [pop, Vector.getElem?_eq_none h]

theorem replaceTop_ok {value : UInt16} {c c' : Core} (h : replaceTop value c = .ok () c') :
    c' = { c with stack := c.stack.setIfInBounds c.sp value } := by
  unfold replaceTop at h
  split at h <;> cases h
  rfl

theorem writeLocal_eq (n : Nat) (value : UInt16) (c : Core) :
    writeLocal n value c =
      if n - 1 ≤ c.fp then
        if c.fp - (n - 1) < stackSize then
          .ok () { c with stack := c.stack.setIfInBounds (c.fp - (n - 1)) value }
        else .error .stackUnderflow c
      else .error .stackOverflow c := by
  by_cases hn : n - 1 ≤ c.fp
  · have hindex : localIndex n c = .ok (c.fp - (n - 1)) c := by
      rw [localIndex, if_pos hn]
    rw [writeLocal, bind_ok hindex, if_pos hn]
    split <;> rfl
  · have hindex : localIndex n c = .error .stackOverflow c := by
      rw [localIndex, if_neg hn]
    rw [writeLocal, bind_error hindex, if_neg hn]

theorem writeLocal_ok {n : Nat} {value : UInt16} {c c' : Core}
    (h : writeLocal n value c = .ok () c') :
    c' = { c with stack := c.stack.setIfInBounds (c.fp - (n - 1)) value } := by
  rw [writeLocal_eq] at h
  split at h
  · split at h <;> cases h
    rfl
  · cases h

/-- The second core is still in the frame of the first, and nothing above that
frame's locals has changed. -/
structure Level (c₀ c : Core) : Prop where
  framed : c.Framed
  fp_eq : c.fp = c₀.fp
  above : SameAbove c₀.fp c.stack c₀.stack

namespace Level

variable {c₀ c c' : Core}

theorem refl (hc : c.Framed) : Level c c :=
  ⟨hc, rfl, fun _ _ => rfl⟩

theorem set (h : Level c₀ c) {i : Nat} (hi : i ≤ c.fp) (value : UInt16) {n : Nat}
    (hn : n ≤ c.fp + 1) :
    Level c₀ { c with sp := n, stack := c.stack.setIfInBounds i value } := by
  have hsame := sameAbove_set hi c.stack value
  refine ⟨⟨h.framed.fp_lt, hn, h.framed.chain.of_sameAbove hsame⟩, h.fp_eq, ?_⟩
  rw [h.fp_eq] at hsame
  exact hsame.trans h.above

theorem push (h : Level c₀ c) {value : UInt16} (hpush : push value c = .ok () c') :
    Level c₀ c' := by
  obtain ⟨hpos, rfl⟩ := push_eq_ok_iff.mp hpush
  have hsp := h.framed.sp_le
  exact h.set (by omega) value (by omega)

theorem writeLocal (h : Level c₀ c) {n : Nat} {value : UInt16}
    (hwrite : writeLocal n value c = .ok () c') : Level c₀ c' := by
  obtain rfl := writeLocal_ok hwrite
  exact h.set (Nat.sub_le _ _) value h.framed.sp_le

theorem replaceTop (h : Level c₀ c) (htop : c.sp ≤ c.fp) {value : UInt16}
    (hreplace : replaceTop value c = .ok () c') : Level c₀ c' := by
  obtain rfl := replaceTop_ok hreplace
  exact h.set htop value h.framed.sp_le

theorem pop (h : Level c₀ c) (htop : c.sp ≤ c.fp) {value : UInt16}
    (hpop : pop c = .ok value c') : Level c₀ c' := by
  obtain ⟨-, rfl⟩ := pop_eq_ok_iff.mp hpop
  exact ⟨⟨h.framed.fp_lt, Nat.succ_le_succ htop, h.framed.chain⟩, h.fp_eq, h.above⟩

theorem of_same (h : Level c₀ c) (hstack : c'.stack = c.stack) (hsp : c'.sp = c.sp)
    (hfp : c'.fp = c.fp) : Level c₀ c' := by
  obtain ⟨⟨hlt, hle, hchain⟩, heq, habove⟩ := h
  exact ⟨⟨by rwa [hfp], by rwa [hsp, hfp], by rwa [hstack, hfp]⟩, by rwa [hfp], by rwa [hstack]⟩

end Level

/-! ## Calls -/

/-- The second core is in a routine that the first one called: the four words
of its frame hold the registers of the first, and nothing above them has
changed. -/
structure Entered (k c : Core) : Prop where
  sp_eq : c.fp + 5 = k.sp
  fp_eq : c.stack[c.fp + 2]?.map UInt16.toNat = some k.fp
  low_eq : c.stack[c.fp + 3]? = some (UInt16.ofNat k.pc.toNat)
  high_eq : c.stack[c.fp + 4]? = some (UInt16.ofNat (k.pc.toNat / 0x10000))
  above : ∀ j, k.sp ≤ j → c.stack[j]? = k.stack[j]?

/-- Everything that a frame promises lies above the frame pointer. -/
theorem Entered.of_sameAbove {k c c' : Core} (h : Entered k c) (hfp : c'.fp = c.fp)
    (hsame : SameAbove c.fp c'.stack c.stack) : Entered k c' := by
  have hsp := h.sp_eq
  constructor
  · rw [hfp, hsp]
  · rw [hfp, hsame _ (by omega), h.fp_eq]
  · rw [hfp, hsame _ (by omega), h.low_eq]
  · rw [hfp, hsame _ (by omega), h.high_eq]
  · intro j hj
    rw [hsame j (by omega), h.above j hj]

/-- A call only saves registers. -/
theorem Entered.of_caller {k k' c : Core} (h : Entered k c) (hpc : k.pc = k'.pc)
    (hstack : k.stack = k'.stack) (hsp : k.sp = k'.sp) (hfp : k.fp = k'.fp) : Entered k' c := by
  obtain ⟨h₁, h₂, h₃, h₄, h₅⟩ := h
  rw [hsp] at h₁ h₅
  rw [hfp] at h₂
  rw [hpc] at h₃ h₄
  rw [hstack] at h₅
  exact ⟨h₁, h₂, h₃, h₄, h₅⟩

theorem placeFrame_eq_ok_iff {c c' : Core} :
    placeFrame c = .ok () c' ↔ 0 < c.sp ∧ c' = { c with fp := c.sp - 1 } := by
  unfold placeFrame
  split
  next hzero => simp [hzero]
  next hpos => simp [Nat.pos_of_ne_zero hpos, eq_comm]

theorem enter_ok {arguments : Nat} {kind : CallKind} {c c' : Core} (hsize : c.sp ≤ stackSize)
    (h : enter arguments kind c = .ok () c') :
    5 ≤ c.sp ∧ ∃ stack, c' = { c with sp := c.sp - 4, fp := c.sp - 5, stack } ∧
      stack[c.sp - 4]? = some (UInt16.ofNat (arguments % 256) ||| kind.bits) ∧
      stack[c.sp - 3]? = some (UInt16.ofNat c.fp) ∧
      stack[c.sp - 2]? = some (UInt16.ofNat c.pc.toNat) ∧
      stack[c.sp - 1]? = some (UInt16.ofNat (c.pc.toNat / 0x10000)) ∧
      ∀ j, c.sp ≤ j → stack[j]? = c.stack[j]? := by
  obtain ⟨_, _, hget, h⟩ := bind_eq_ok_iff.mp h
  cases hget
  obtain ⟨_, c₁, h₁, h⟩ := bind_eq_ok_iff.mp h
  obtain ⟨_, c₂, h₂, h⟩ := bind_eq_ok_iff.mp h
  obtain ⟨_, c₃, h₃, h⟩ := bind_eq_ok_iff.mp h
  obtain ⟨_, c₄, h₄, hplace⟩ := bind_eq_ok_iff.mp h
  obtain ⟨hpos₁, rfl⟩ := push_eq_ok_iff.mp h₁
  obtain ⟨hpos₂, rfl⟩ := push_eq_ok_iff.mp h₂
  obtain ⟨hpos₃, rfl⟩ := push_eq_ok_iff.mp h₃
  obtain ⟨hpos₄, rfl⟩ := push_eq_ok_iff.mp h₄
  obtain ⟨hpos₅, rfl⟩ := placeFrame_eq_ok_iff.mp hplace
  clear h₁ h₂ h₃ h₄ hplace
  simp only [Nat.sub_sub, Nat.reduceAdd] at hpos₁ hpos₂ hpos₃ hpos₄ hpos₅ ⊢
  refine ⟨by omega, _, rfl, ?_, ?_, ?_, ?_, fun j hj => ?_⟩
  all_goals simp (disch := omega) only [Vector.getElem?_setIfInBounds_ne,
    Vector.getElem?_setIfInBounds_self_of_lt]

/-- Unless it fills the stack, a call makes a frame and keeps the chain. -/
theorem Framed.enter {c c' : Core} (hc : c.Framed) {arguments : Nat} {kind : CallKind}
    (h : enter arguments kind c = .ok () c') :
    c'.sp = 0 ∨ (c'.Framed ∧ Entered c c') := by
  have hle := hc.sp_le
  have hlt := hc.fp_lt
  have hstack : stackSize = 1024 := rfl
  obtain ⟨hfour, stack, rfl, -, hsaved, hlow, hhigh, habove⟩ := enter_ok (by omega) h
  by_cases hfull : c.sp - 4 = 0
  · exact .inl hfull
  have hwords : c.sp - 5 + 2 = c.sp - 3 ∧ c.sp - 5 + 3 = c.sp - 2 ∧ c.sp - 5 + 4 = c.sp - 1 := by
    omega
  have hentered : Entered c { c with sp := c.sp - 4, fp := c.sp - 5, stack } := by
    refine ⟨by dsimp only; omega, ?_, ?_, ?_, habove⟩ <;> dsimp only
    · rw [hwords.1, hsaved, Option.map_some, UInt16.toNat_ofNat', Nat.mod_eq_of_lt (by omega)]
    · rw [hwords.2.1, hlow]
    · rw [hwords.2.2, hhigh]
  have hchain : Chain stack (stackSize - 1) c.fp :=
    hc.chain.of_sameAbove fun j hj => habove j (by omega)
  refine .inr ⟨⟨?_, ?_, .frame hentered.fp_eq ?_ hchain⟩, hentered⟩ <;> dsimp only <;> omega

theorem sp_ne_zero_of_enter {arguments : Nat} {kind : CallKind} {c c' : Core}
    (hsize : c.sp ≤ stackSize) (h : enter arguments kind c = .ok () c') : c'.sp ≠ 0 := by
  obtain ⟨hfive, stack, rfl, -⟩ := enter_ok hsize h
  dsimp only
  omega

theorem Framed.entered {c c' : Core} (hc : c.Framed) {arguments : Nat} {kind : CallKind}
    (h : Core.enter arguments kind c = .ok () c') : c'.Framed ∧ Entered c c' :=
  (hc.enter h).resolve_left (sp_ne_zero_of_enter (Nat.le_trans hc.sp_le hc.fp_lt) h)

/-! ## Returns -/

theorem leave_ok {kind : CallKind} {c c' : Core} (h : leave c = .ok kind c') :
    ∃ word fp low high : UInt16,
      c.stack[c.fp + 1]? = some word ∧ c.stack[c.fp + 2]? = some fp ∧
        c.stack[c.fp + 3]? = some low ∧ c.stack[c.fp + 4]? = some high ∧
        kind = CallKind.ofFrame word ∧
        c' = { c with
          sp := c.fp + 5
          fp := fp.toNat
          pc := UInt32.ofNat (high.toNat * 0x10000 + low.toNat) } := by
  obtain ⟨_, _, hdrop, h⟩ := bind_eq_ok_iff.mp h
  cases hdrop
  obtain ⟨word, c₁, h₁, h⟩ := bind_eq_ok_iff.mp h
  obtain ⟨fp, c₂, h₂, h⟩ := bind_eq_ok_iff.mp h
  obtain ⟨low, c₃, h₃, h⟩ := bind_eq_ok_iff.mp h
  obtain ⟨high, c₄, h₄, h⟩ := bind_eq_ok_iff.mp h
  obtain ⟨hword, rfl⟩ := pop_eq_ok_iff.mp h₁
  obtain ⟨hfp, rfl⟩ := pop_eq_ok_iff.mp h₂
  obtain ⟨hlow, rfl⟩ := pop_eq_ok_iff.mp h₃
  obtain ⟨hhigh, rfl⟩ := pop_eq_ok_iff.mp h₄
  split at h
  next => cases h
  next =>
    cases h
    exact ⟨word, fp, low, high, hword, hfp, hlow, hhigh, rfl, rfl⟩

/-- The bottom frame cannot be left, so a return goes one link of the chain
outwards. -/
theorem Framed.leave {c c' : Core} (hc : c.Framed) {kind : CallKind}
    (h : leave c = .ok kind c') :
    c'.Framed ∧ c.fp < c'.fp ∧ c'.stack = c.stack := by
  obtain ⟨word, fp, low, high, hword, hfp, -, -, -, rfl⟩ := leave_ok h
  rcases hc.chain.eq_or_exists with hbottom | ⟨next, hsaved, hfar, hnext⟩
  · rw [hbottom, Vector.getElem?_eq_none (by decide)] at hword
    cases hword
  · rw [hfp, Option.map_some, Option.some.injEq] at hsaved
    subst hsaved
    have hlt : c.fp < fp.toNat := by omega
    have hsp : c.fp + 5 ≤ fp.toNat + 1 := by omega
    exact ⟨⟨Nat.lt_succ_of_le hnext.le, hsp, hnext⟩, hlt, rfl⟩

/-- A return undoes the call whose frame is in place. -/
theorem Entered.leave {k c c' : Core} (hk : Entered k c) {kind : CallKind}
    (h : leave c = .ok kind c') :
    c'.fp = k.fp ∧ c'.sp = k.sp ∧ c'.pc = k.pc ∧
      ∀ j, k.sp ≤ j → c'.stack[j]? = k.stack[j]? := by
  obtain ⟨word, fp, low, high, -, hfp, hlow, hhigh, -, rfl⟩ := leave_ok h
  have hsaved := hk.fp_eq
  rw [hfp, Option.map_some, Option.some.injEq] at hsaved
  obtain rfl := Option.some.inj (hlow.symm.trans hk.low_eq)
  obtain rfl := Option.some.inj (hhigh.symm.trans hk.high_eq)
  refine ⟨hsaved, hk.sp_eq, ?_, hk.above⟩
  have hpc := k.pc.toNat_lt
  have hhalf : k.pc.toNat / 0x10000 < 0x10000 := by omega
  apply UInt32.toNat.inj
  simp only [UInt32.toNat_ofNat', UInt16.toNat_ofNat', Nat.mod_eq_of_lt hhalf]
  omega

end ZMachine.Core
