import ZMachine.Proofs.Frame.Link

/-!
# Inside an asynchronous call

The frame of an asynchronous call lies directly below the words of its caller
`k`.  A core is `Inside k` if that frame is in place and the saved frame
pointers lead out to it over frames of functions and procedures only.  Then no
return but that from the frame itself can end the run of the call, and that
return restores the caller.
-/

namespace ZMachine

theorem CallKind.ofFrame_or_bits (n : Nat) (kind : CallKind) :
    ofFrame (UInt16.ofNat (n % 256) ||| kind.bits) = kind := by
  have hall : ∀ i : Fin 256, ofFrame (UInt16.ofNat i ||| kind.bits) = kind := by
    cases kind <;> decide +kernel
  exact hall ⟨n % 256, Nat.mod_lt n (by decide)⟩

namespace Core

/-- The kind of the call that made the frame at an index. -/
def kindAt (stack : Vector UInt16 stackSize) (fp : Nat) : Option CallKind :=
  stack[fp + 1]?.map CallKind.ofFrame

theorem kindAt_enter {arguments : Nat} {kind : CallKind} {c c' : Core}
    (hsize : c.sp ≤ stackSize) (h : enter arguments kind c = .ok () c') (hpos : c'.sp ≠ 0) :
    kindAt c'.stack c'.fp = some kind := by
  obtain ⟨hfour, stack, rfl, hword, -⟩ := enter_ok hsize h
  have hindex : c.sp - 5 + 1 = c.sp - 4 := by
    dsimp only at hpos
    omega
  rw [kindAt, hindex, hword, Option.map_some, CallKind.ofFrame_or_bits]

theorem kindAt_leave {kind : CallKind} {c c' : Core} (h : leave c = .ok kind c') :
    kindAt c.stack c.fp = some kind := by
  obtain ⟨word, fp, low, high, hword, -, -, -, rfl, -⟩ := leave_ok h
  rw [kindAt, hword, Option.map_some]

/-- Frames of functions and procedures lead out to the frame of an
asynchronous call at `base`. -/
inductive Calls (stack : Vector UInt16 stackSize) (base : Nat) : Nat → Prop where
  | base (hkind : kindAt stack base = some .async) : Calls stack base base
  | frame {fp next : Nat} {kind : CallKind} (hkind : kindAt stack fp = some kind)
      (hplain : kind ≠ .async) (hsaved : stack[fp + 2]?.map UInt16.toNat = some next)
      (hfar : fp + 4 ≤ next) (hnext : Calls stack base next) : Calls stack base fp

namespace Calls

variable {stack stack' : Vector UInt16 stackSize} {base fp : Nat}

theorem le (h : Calls stack base fp) : fp ≤ base := by
  induction h with
  | base => exact Nat.le_refl _
  | frame _ _ _ hfar _ ih => omega

theorem of_sameAbove (h : Calls stack base fp) (hsame : SameAbove fp stack' stack) :
    Calls stack' base fp := by
  induction h with
  | base hkind =>
      refine .base ?_
      rwa [kindAt, hsame _ (Nat.lt_succ_self _)]
  | @frame fp next kind hkind hplain hsaved hfar _ ih =>
      refine .frame ?_ hplain ?_ hfar (ih (hsame.mono (by omega)))
      · rwa [kindAt, hsame _ (Nat.lt_succ_self _)]
      · rwa [hsame _ (by omega)]

theorem eq_or_exists (h : Calls stack base fp) :
    (fp = base ∧ kindAt stack fp = some .async) ∨
      ∃ next kind, kindAt stack fp = some kind ∧ kind ≠ .async ∧
        stack[fp + 2]?.map UInt16.toNat = some next ∧ Calls stack base next := by
  cases h with
  | base hkind => exact .inl ⟨rfl, hkind⟩
  | frame hkind hplain hsaved _ hnext => exact .inr ⟨_, _, hkind, hplain, hsaved, hnext⟩

end Calls

structure Inside (k c : Core) : Prop where
  caller : k.Framed
  framed : c.Framed
  entered : Entered k { c with fp := k.sp - 5 }
  calls : Calls c.stack (k.sp - 5) c.fp

/-- Registers and stack are as the caller had left them. -/
def Restored (k c : Core) : Prop :=
  c.fp = k.fp ∧ c.sp = k.sp ∧ c.pc = k.pc ∧ ∀ j, k.sp ≤ j → c.stack[j]? = k.stack[j]?

theorem Restored.level {k c : Core} (h : Restored k c) (hk : k.Framed) : Level k c := by
  obtain ⟨hfp, hsp, -, hwords⟩ := h
  have hle := hk.sp_le
  have habove : SameAbove k.fp c.stack k.stack := fun j hj => hwords j (by omega)
  refine ⟨⟨?_, ?_, ?_⟩, hfp, habove⟩
  · rw [hfp]
    exact hk.fp_lt
  · rw [hfp, hsp]
    exact hle
  · rw [hfp]
    exact hk.chain.of_sameAbove habove

namespace Inside

variable {k c c' : Core}

theorem fp_le (h : Inside k c) : c.fp ≤ k.sp - 5 :=
  h.calls.le

theorem of_level (h : Inside k c) (hlevel : Level c c') : Inside k c' := by
  refine ⟨h.caller, hlevel.framed, ?_, ?_⟩
  · exact h.entered.of_sameAbove rfl (hlevel.above.mono h.fp_le)
  · rw [hlevel.fp_eq]
    exact h.calls.of_sameAbove hlevel.above

theorem of_enter (hk : k.Framed) {arguments : Nat} (h : Core.enter arguments .async k = .ok () c) :
    c.sp = 0 ∨ Inside k c := by
  by_cases hfull : c.sp = 0
  · exact .inl hfull
  obtain ⟨hframed, hentered⟩ := (hk.enter h).resolve_left hfull
  have hsize : k.sp ≤ stackSize := Nat.le_trans hk.sp_le hk.fp_lt
  have hfp : c.fp = k.sp - 5 := by
    have hsp := hentered.sp_eq
    omega
  refine .inr ⟨hk, hframed, ?_, ?_⟩
  · rwa [← hfp]
  · rw [← hfp]
    exact .base (kindAt_enter hsize h hfull)

theorem enter (hc : Inside k c) {arguments : Nat} {kind : CallKind} (hkind : kind ≠ .async)
    (h : Core.enter arguments kind c = .ok () c') : c'.sp = 0 ∨ Inside k c' := by
  by_cases hfull : c'.sp = 0
  · exact .inl hfull
  obtain ⟨hframed, hentered⟩ := (hc.framed.enter h).resolve_left hfull
  have hsize : c.sp ≤ stackSize := Nat.le_trans hc.framed.sp_le hc.framed.fp_lt
  have hsp := hentered.sp_eq
  have hle := hc.framed.sp_le
  have hsame : SameAbove c.fp c'.stack c.stack := fun j hj => hentered.above j (by omega)
  refine .inr ⟨hc.caller, hframed, ?_, ?_⟩
  · exact hc.entered.of_sameAbove rfl (hsame.mono hc.fp_le)
  · exact .frame (kindAt_enter hsize h hfull) hkind hentered.fp_eq (by omega)
      (hc.calls.of_sameAbove hsame)

/-- A return leads to the next frame of the call, or it is from the frame of
the call itself. -/
theorem leave (hc : Inside k c) {kind : CallKind} (h : Core.leave c = .ok kind c') :
    (kind ≠ .async ∧ Inside k c') ∨ (kind = .async ∧ Entered k c ∧ Restored k c') := by
  have hkind := kindAt_leave h
  rcases hc.calls.eq_or_exists with ⟨hbase, hasync⟩ | ⟨next, kind', hkind', hplain, hsaved, hnext⟩
  · have hentered : Entered k c := hc.entered.of_sameAbove hbase fun _ _ => rfl
    exact .inr ⟨Option.some.inj (hkind.symm.trans hasync), hentered, hentered.leave h⟩
  · obtain rfl := Option.some.inj (hkind.symm.trans hkind')
    obtain ⟨hframed, -, -⟩ := hc.framed.leave h
    obtain ⟨word, fp, low, high, -, hfp, -, -, -, rfl⟩ := leave_ok h
    rw [hfp, Option.map_some, Option.some.injEq] at hsaved
    subst hsaved
    exact .inl ⟨hplain, hc.caller, hframed, hc.entered.of_sameAbove rfl fun _ _ => rfl, hnext⟩

end Inside

theorem Stable.inside (k : Core) : Stable (Inside k) where
  adjust _ hf h :=
    h.of_level ((Level.refl h.framed).of_same (hf _).stack_eq (hf _).sp_eq (hf _).fp_eq)
  push h hpush := h.of_level ((Level.refl h.framed).push hpush)
  writeLocal h hwrite := h.of_level ((Level.refl h.framed).writeLocal hwrite)

end Core
end ZMachine
