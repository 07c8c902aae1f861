import ZMachine.Proofs.Frame.Bounds
import ZMachine.Proofs.Restart.Reach

/-!
# Throws

A throw sets the frame pointer to the number it is given and then returns.  So
everything about it follows from what a return finds above the frame pointer,
which `Core.leave_eq` says in one equation, failures included.

A number below the size of the stack leaves the registers within their bounds,
whether or not there is a frame, and whatever its words are.  A number outside
the stack stays in the frame pointer.
-/

namespace ZMachine

open MachineM

namespace Core

theorem pop_of_lt {c : Core} (h : c.sp < stackSize) :
    pop c = .ok (c.stack[c.sp]?.getD 0) { c with sp := c.sp + 1 } := by
  simp [pop, Vector.getElem?_eq_getElem h]

/-- What a return finds above the frame pointer. -/
theorem leave_eq (c : Core) :
    leave c =
      if c.fp + 5 ≤ stackSize then
        if stackSize ≤ (c.stack[c.fp + 2]?.getD 0).toNat then
          .error .stackUnderflow { c with sp := c.fp + 5 }
        else
          .ok (CallKind.ofFrame (c.stack[c.fp + 1]?.getD 0))
            { c with
              sp := c.fp + 5
              fp := (c.stack[c.fp + 2]?.getD 0).toNat
              pc := UInt32.ofNat ((c.stack[c.fp + 4]?.getD 0).toNat * 0x10000 +
                (c.stack[c.fp + 3]?.getD 0).toNat) }
      else .error .stackUnderflow { c with sp := max (c.fp + 1) stackSize } := by
  have hdrop : leave c =
      (do
        let word ← pop
        let fp ← pop
        let low ← pop
        let high ← pop
        if stackSize ≤ fp.toNat then
          throw .stackUnderflow
        modify fun c =>
          { c with fp := fp.toNat, pc := UInt32.ofNat (high.toNat * 0x10000 + low.toNat) }
        return CallKind.ofFrame word : CoreM CallKind) { c with sp := c.fp + 1 } := rfl
  rw [hdrop]
  by_cases hfits : c.fp + 5 ≤ stackSize
  · rw [if_pos hfits]
    iterate 4 rw [bind_ok (pop_of_lt (by dsimp only; omega))]
    dsimp only
    split <;> rfl
  · rw [if_neg hfits]
    -- The words run out at the first, second, third or fourth pop.
    have hend : stackSize ≤ c.fp + 1 ∨ c.fp + 2 = stackSize ∨ c.fp + 3 = stackSize ∨
        c.fp + 4 = stackSize := by omega
    rcases hend with hend | hend | hend | hend
    · rw [bind_error (pop_of_ge hend), Nat.max_eq_left hend]
    · rw [bind_ok (pop_of_lt (by dsimp only; omega)), bind_error (pop_of_ge (by dsimp only; omega)),
        Nat.max_eq_right (by omega), ← hend]
    · iterate 2 rw [bind_ok (pop_of_lt (by dsimp only; omega))]
      rw [bind_error (pop_of_ge (by dsimp only; omega)), Nat.max_eq_right (by omega), ← hend]
    · iterate 3 rw [bind_ok (pop_of_lt (by dsimp only; omega))]
      rw [bind_error (pop_of_ge (by dsimp only; omega)), Nat.max_eq_right (by omega), ← hend]

/-! ## Bounds after failures -/

theorem Bounded.of_same {c c' : Core} (hc : c.Bounded) (hsp : c'.sp = c.sp) (hfp : c'.fp = c.fp) :
    c'.Bounded :=
  ⟨hsp ▸ hc.sp_le, hfp ▸ hc.fp_lt⟩

theorem Bounded.push {c : Core} (hc : c.Bounded) (value : UInt16) :
    (reached (push value c)).Bounded := by
  have hle := hc.sp_le
  unfold Core.push
  split
  · exact hc
  · exact ⟨by simp only [reached]; omega, hc.fp_lt⟩

theorem Bounded.writeLocal {c : Core} (hc : c.Bounded) (n : Nat) (value : UInt16) :
    (reached (writeLocal n value c)).Bounded := by
  rw [writeLocal_eq]
  split
  · split
    · exact hc.of_same rfl rfl
    · exact hc
  · exact hc

theorem Bounded.leave {c : Core} (hc : c.Bounded) : (reached (leave c)).Bounded := by
  obtain ⟨hsp, hfp⟩ := hc
  rw [leave_eq]
  split
  next hfits =>
    split
    next => exact ⟨hfits, hfp⟩
    next hsaved => exact ⟨hfits, Nat.lt_of_not_le hsaved⟩
  next => exact ⟨Nat.max_le.mpr ⟨hfp, Nat.le_refl _⟩, hfp⟩

end Core

variable {M H : Type} [AddressSpace M]

theorem machineSim_bounded :
    MachineSim True fun s t : Machine M H => SameParts Eq s t ∧ s.core.Bounded := by
  have h := SameParts.machineSim (H := H) (MemorySim.refl (M := M))
  have hcore : ∀ {α : Type} {x : CoreM α}, (∀ c, c.Bounded → (reached (x c)).Bounded) →
      Sim True (fun s t : Machine M H => SameParts Eq s t ∧ s.core.Bounded)
        (fun s t => SameParts Eq s t ∧ s.core.Bounded) (ofCore x) (ofCore x) := by
    intro α x hx
    apply (SameParts.ofCore x).keeping
    intro s hs
    rw [core_reached_ofCore]
    exact hx s.core hs
  have hchange : ∀ f : Core → Core, (∀ c, (f c).sp = c.sp ∧ (f c).fp = c.fp) →
      Sim True (fun s t : Machine M H => SameParts Eq s t ∧ s.core.Bounded)
        (fun s t => SameParts Eq s t ∧ s.core.Bounded) (modifyCore f) (modifyCore f) :=
    fun f hf => hcore (x := (modify f : CoreM Unit)) fun c hc => hc.of_same (hf c).1 (hf c).2
  refine {
    core_eq := fun _ _ hst => hst.1.core
    host_eq := fun _ _ hst => hst.1.host
    ofMemory := fun hxy => (h.ofMemory hxy).keeping fun s hs => ?_
    ofHost := fun x => (h.ofHost x).keeping fun s hs => ?_
    setHost := fun f => (h.setHost f).keeping fun s hs => hs
    movePc := fun f => hchange _ fun c => ⟨rfl, rfl⟩
    adjust := fun f hf => hchange f fun c => ⟨(hf c).sp_eq, (hf c).fp_eq⟩
    push := fun value => hcore fun c hc => hc.push value
    writeLocal := fun n value => hcore fun c hc => hc.writeLocal n value }
  · rwa [core_reached_ofMemory]
  · rwa [core_reached_ofHost]

theorem bounded_deliver {s : Machine M H} (hs : s.core.Bounded) (value : UInt16) (kind : CallKind) :
    (reached (Machine.deliver value kind s)).core.Bounded := by
  cases kind with
  | async => exact ⟨hs.sp_le, hs.fp_lt⟩
  | procedure => exact hs
  | function =>
      have hstore := (machineSim_bounded (M := M) (H := H)).storeResult value
      have hsame : SameParts Eq s s ∧ s.core.Bounded := ⟨⟨rfl, rfl, rfl⟩, hs⟩
      exact (hstore.call hsame).2.2

theorem bounded_ret {s : Machine M H} (hs : s.core.Bounded) (value : UInt16) :
    (reached (Machine.ret value s)).core.Bounded := by
  rw [Machine.ret_eq]
  have hleave := hs.leave
  rw [← core_reached_ofCore] at hleave
  cases h : (ofCore Core.leave : MachineM M H CallKind) s with
  | ok kind t =>
      rw [h] at hleave
      rw [bind_ok h]
      exact bounded_deliver hleave value kind
  | error e t =>
      rw [h] at hleave
      rw [bind_error h]
      exact hleave

/-! ## The registers after a throw -/

theorem Machine.throwTo_eq (value target : UInt16) (s : Machine M H) :
    Machine.throwTo value target s =
      if target.toNat < s.core.fp then .error (.illegalThrow target.toNat s.core.fp) s
      else Machine.ret value { s with core.fp := target.toNat } := by
  have hread : Machine.throwTo value target s =
      (do
        if target.toNat < s.core.fp then
          throw (.illegalThrow target.toNat s.core.fp)
        modifyCore fun c => { c with fp := target.toNat }
        Machine.ret value : MachineM M H Unit) s := rfl
  rw [hread]
  split <;> rfl

/-- From registers within their bounds, a throw leaves them so exactly if its
target is inside the stack, whatever the stack holds and however the throw
ends.  With any other target it finds no words and fails, and the target stays
in the frame pointer. -/
theorem throw_bounded_iff (s : Machine M H) (hs : s.core.Bounded) (value target : UInt16) :
    ((reached (Machine.throwTo value target s)).core.Bounded ↔ target.toNat < stackSize) ∧
      (stackSize ≤ target.toNat →
        Machine.throwTo value target s =
          .error .stackUnderflow
            { s with core := { s.core with fp := target.toNat, sp := target.toNat + 1 } }) := by
  have houtside : stackSize ≤ target.toNat →
      Machine.throwTo value target s =
        .error .stackUnderflow
          { s with core := { s.core with fp := target.toNat, sp := target.toNat + 1 } } := by
    intro htarget
    have hfp := hs.fp_lt
    have hleave : Core.leave { s.core with fp := target.toNat } =
        .error .stackUnderflow { s.core with fp := target.toNat, sp := target.toNat + 1 } := by
      rw [Core.leave_eq, if_neg (by dsimp only; omega), Nat.max_eq_left (by dsimp only; omega)]
    rw [Machine.throwTo_eq, if_neg (by omega), Machine.ret_eq]
    exact bind_error (ofCore_eq_error_iff.mpr ⟨_, hleave, rfl⟩)
  refine ⟨⟨?_, ?_⟩, houtside⟩
  · intro hbounded
    by_cases htarget : stackSize ≤ target.toNat
    · rw [houtside htarget] at hbounded
      exact hbounded.fp_lt
    · exact Nat.lt_of_not_le htarget
  · intro htarget
    rw [Machine.throwTo_eq]
    split
    · exact hs
    · have hmoved : ({ s with core.fp := target.toNat } : Machine M H).core.Bounded :=
        ⟨hs.sp_le, htarget⟩
      exact bounded_ret hmoved value

/-- A function with two words below its frame, called from the bottom of the
stack.  Its value goes to a global. -/
def catcher : Except Fault (Machine Image Transcript) :=
  let bytes : Array UInt8 :=
    Array.replicate 64 0 ++ #[1, 0, 16] ++ Array.replicate 13 0 ++ #[1] ++ Array.replicate 23 0
  (Machine.load { randomSeed := some 1 } ⟨fun _ => 0, 0⟩ {}
    (Image.mk (bytes.set! 0 5 |>.set! 7 64 |>.set! 13 100))).map fun s =>
      { s with
        core.stack := (s.core.stack.setIfInBounds 42 1023).setIfInBounds 43 66
        core.sp := 38
        core.fp := 40 }

theorem throw_bounded_iff_outside :
    ∃ s, catcher = .ok s ∧ s.core.Bounded ∧
      (reached (Machine.throwTo 0 1023 s)).core.Bounded ∧
      Machine.throwTo 0 65535 s =
        .error .stackUnderflow { s with core := { s.core with fp := 65535, sp := 65536 } } ∧
      ¬ (reached (Machine.throwTo 0 65535 s)).core.Bounded := by
  obtain ⟨s, hs, hcheck⟩ := exists_of_givesOk (x := catcher)
    (p := fun s => decide (s.core.sp = 38 ∧ s.core.fp = 40)) (by decide +kernel)
  obtain ⟨hsp, hfp⟩ := of_decide_eq_true hcheck
  have hbounded : s.core.Bounded := ⟨by rw [hsp]; decide, by rw [hfp]; decide⟩
  have hin := throw_bounded_iff s hbounded 0 1023
  have hout := throw_bounded_iff s hbounded 0 65535
  exact ⟨s, hs, hbounded, hin.1.mpr (by decide), hout.2 (by decide),
    fun h => absurd (hout.1.mp h) (by decide)⟩

end ZMachine
