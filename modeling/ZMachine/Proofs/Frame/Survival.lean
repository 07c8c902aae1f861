import ZMachine.Host.Transcript
import ZMachine.Proofs.Frame.Step

/-!
# Frames survive disciplined runs

The links between the moments of a trace add up.  As long as a routine has not
returned, the words above its frame stay, and the frames of the routines that
it called lead back to it along saved frame pointers.  So its return, when it
comes, is from its own frame, and the words it finds there are those of the
call.
-/

namespace ZMachine

variable {M H : Type}

/-- From moment `i` to moment `j` of a trace the routine of moment `i` has not
returned. -/
def Within (tr : List (Moment M H)) (i j : Nat) : Prop :=
  ∀ n m w, i ≤ n → n ≤ j → tr[i]? = some m → tr[n]? = some w → w.core.fp ≤ m.core.fp

theorem Within.of_succ {tr : List (Moment M H)} {i j : Nat} (h : Within tr i (j + 1)) :
    Within tr i j :=
  fun n m w hin hnj => h n m w hin (Nat.le_succ_of_le hnj)

variable [AddressSpace M]

/-- The way from `t` to `w` is a return from the frame of `t`.  With the frame
taken off and the value not yet stored, the registers are those of `k`, and so
are the words from its stack pointer on. -/
def ReturnsTo (k t w : Machine M H) : Prop :=
  ∃ before value kind c, Core.Level t.core before.core ∧ Machine.ret value before = .ok () w ∧
    Core.leave before.core = .ok kind c ∧
    c.fp = k.core.fp ∧ c.sp = k.core.sp ∧ c.pc = k.core.pc ∧
    ∀ j, k.core.sp ≤ j → c.stack[j]? = k.core.stack[j]?

/-! ## One link -/

namespace Link

variable {m : Moment M H} {w : Machine M H}

/-- A return follows the saved frame pointer. -/
theorem saved_eq (h : Link m w) (hout : m.core.fp < w.core.fp) :
    m.core.stack[m.core.fp + 2]?.map UInt16.toNat = some w.core.fp := by
  obtain ⟨before, value, kind, c, hbefore, -, hleave, hafter⟩ := h.returned hout
  obtain ⟨word, fp, low, high, -, hfp, -, -, -, rfl⟩ := Core.leave_ok hleave
  rw [hbefore.fp_eq, hbefore.above _ (by omega)] at hfp
  rw [hfp, hafter.fp_eq, Option.map_some]

/-- Saved frame pointers go on leading to a frame that is not left. -/
theorem chain (h : Link m w) (hm : m.Disciplined) (hframed : m.core.Framed) {last : Nat}
    (hchain : Core.Chain m.core.stack last m.core.fp) (hlast : w.core.fp ≤ last) :
    Core.Chain w.core.stack last w.core.fp := by
  rcases Nat.lt_trichotomy w.core.fp m.core.fp with hin | hsame | hout
  · obtain ⟨k, hk, hentered⟩ := h.called hin
    have hlevel := hm.level hframed hk
    have hfp := hlevel.fp_eq
    have hsp := hentered.sp_eq
    have hle := hlevel.framed.sp_le
    have hsaved := hentered.fp_eq
    rw [hfp] at hsaved
    refine .frame hsaved (by omega) (hchain.of_sameAbove fun j hj => ?_)
    exact h.above j hj (by omega)
  · rw [hsame]
    refine hchain.of_sameAbove fun j hj => h.above j hj ?_
    rwa [hsame]
  · rcases hchain.eq_or_exists with heq | ⟨next, hsaved, -, hnext⟩
    · omega
    · rw [h.saved_eq hout, Option.some.injEq] at hsaved
      subst hsaved
      refine hnext.of_sameAbove fun j hj => h.above j ?_ hj
      omega

/-- A frame is left from itself. -/
theorem fp_eq_of_left (h : Link m w) {last : Nat}
    (hchain : Core.Chain m.core.stack last m.core.fp) (hleft : last < w.core.fp) :
    m.core.fp = last := by
  have hle := hchain.le
  rcases hchain.eq_or_exists with heq | ⟨next, hsaved, -, hnext⟩
  · exact heq
  · rw [h.saved_eq (by omega), Option.some.injEq] at hsaved
    subst hsaved
    have hout := hnext.le
    omega

end Link

/-! ## Linked traces -/

section

variable {tr : List (Moment M H)}

variable (hlinks : tr.IsChain fun m w => Link m w.machine)

include hlinks

theorem link_of_getElem? {i : Nat} {m w : Moment M H} (hm : tr[i]? = some m)
    (hw : tr[i + 1]? = some w) : Link m w.machine := by
  obtain ⟨hi, rfl⟩ := List.getElem?_eq_some_iff.mp hm
  obtain ⟨hi', rfl⟩ := List.getElem?_eq_some_iff.mp hw
  exact List.isChain_iff_getElem.mp hlinks i hi'

theorem sameAbove_of_within {i j : Nat} {m w : Moment M H} (hij : i ≤ j)
    (hm : tr[i]? = some m) (hw : tr[j]? = some w) (hwithin : Within tr i j) :
    Core.SameAbove m.core.fp w.core.stack m.core.stack := by
  induction j, hij using Nat.le_induction generalizing w with
  | base =>
      obtain rfl := Option.some.inj (hm.symm.trans hw)
      exact fun _ _ => rfl
  | succ j hij ih =>
      have hlt : j < tr.length := Nat.lt_of_succ_lt (List.getElem?_eq_some_iff.mp hw).1
      have hu : tr[j]? = some tr[j] := List.getElem?_eq_getElem hlt
      have hbefore := hwithin j m tr[j] hij (Nat.le_succ j) hm hu
      have hafter := hwithin (j + 1) m w (by omega) (Nat.le_refl _) hm hw
      refine Core.SameAbove.trans (fun a ha => ?_) (ih hu hwithin.of_succ)
      exact (link_of_getElem? hlinks hu hw).above a (Nat.lt_of_le_of_lt hbefore ha)
        (Nat.lt_of_le_of_lt hafter ha)

variable (hframed : ∀ m ∈ tr, m.core.Framed) (hdisciplined : ∀ m ∈ tr, m.Disciplined)

include hframed hdisciplined

theorem chain_of_within {i j : Nat} {m w : Moment M H} (hij : i ≤ j)
    (hm : tr[i]? = some m) (hw : tr[j]? = some w) (hwithin : Within tr i j) :
    Core.Chain w.core.stack m.core.fp w.core.fp := by
  induction j, hij using Nat.le_induction generalizing w with
  | base =>
      obtain rfl := Option.some.inj (hm.symm.trans hw)
      exact .last
  | succ j hij ih =>
      have hlt : j < tr.length := Nat.lt_of_succ_lt (List.getElem?_eq_some_iff.mp hw).1
      have hu : tr[j]? = some tr[j] := List.getElem?_eq_getElem hlt
      have hmem : tr[j] ∈ tr := List.getElem_mem hlt
      have hlink := link_of_getElem? hlinks hu hw
      refine hlink.chain (hdisciplined _ hmem) (hframed _ hmem) (ih hu hwithin.of_succ) ?_
      exact hwithin (j + 1) m w (by omega) (Nat.le_refl _) hm hw

theorem returnsTo_of_within {i j : Nat} {m u t w : Moment M H} (hij : i + 1 ≤ j)
    (hm : tr[i]? = some m) (hu : tr[i + 1]? = some u) (ht : tr[j]? = some t)
    (hw : tr[j + 1]? = some w) (hcall : u.core.fp < m.core.fp) (hwithin : Within tr (i + 1) j)
    (hreturn : u.core.fp < w.core.fp) :
    t.core.fp = u.core.fp ∧
      ∃ k, m.caller? = some k ∧ ReturnsTo k t.machine w.machine := by
  have hlink := link_of_getElem? hlinks ht hw
  have hchain := chain_of_within hlinks hframed hdisciplined hij hu ht hwithin
  have hfp := hlink.fp_eq_of_left hchain hreturn
  obtain ⟨k, hk, hentered⟩ := (link_of_getElem? hlinks hm hu).called hcall
  obtain ⟨before, value, kind, c, hbefore, hret, hleave, -⟩ :=
    hlink.returned (Nat.lt_of_le_of_lt (Nat.le_of_eq hfp) hreturn)
  refine ⟨hfp, k, hk, before, value, kind, c, hbefore, hret, hleave, ?_⟩
  -- The frame of the call is still in place at `t`, and so it is where the
  -- return is made.
  have hat := hentered.of_sameAbove hfp (sameAbove_of_within hlinks hij hu ht hwithin)
  exact (hat.of_sameAbove hbefore.fp_eq hbefore.above).leave hleave

end

/-! ## Runs -/

variable [Host H]

theorem watched_ready (fuels : List Nat) :
    Sim False
      (Beside fun s : Machine (Watched M H) H =>
        Ready s ∧ ((∀ m ∈ s.memory.seen, m.Disciplined) → s.core.Framed))
      (Beside fun s => Ready s ∧ ((∀ m ∈ s.memory.seen, m.Disciplined) → s.core.Framed))
      (fuels.forM Machine.watchedStep) (fuels.forM Machine.step) := by
  refine .forM fun fuel => ?_
  refine ((watchedStep_poised fuel).mono fun s t hst => ?_).pre fun s t hst => ⟨hst.1, hst.2.1⟩
  obtain ⟨hbeside, hpoised⟩ := hst
  have hroom := hpoised.level_of_poised
  refine ⟨hbeside, hroom.placed_of_room.ready, fun hseen => ?_⟩
  obtain ⟨-, _, _, hlevel, -⟩ := hroom hseen
  exact hlevel.framed

/-- Frames survive a run that takes no words above the frame of the running
routine, never fills the stack, and neither throws nor starts over. -/
theorem frames_survive (fuels : List Nat) (s s' : Machine M H) (hframed : s.core.Framed)
    (hrun : fuels.forM Machine.step s = .ok () s')
    (hdisciplined : ∀ m ∈ Machine.trace fuels s, m.Disciplined) :
    (∀ n s₁, (fuels.take n).forM Machine.step s = .ok () s₁ → s₁.core.Framed) ∧
      (∀ m ∈ Machine.trace fuels s, m.core.Framed) ∧
      (∀ i j m w, i ≤ j → (Machine.trace fuels s)[i]? = some m →
        (Machine.trace fuels s)[j]? = some w → Within (Machine.trace fuels s) i j →
        ∀ a, m.core.fp < a → w.core.stack[a]? = m.core.stack[a]?) ∧
      ∀ i j m u t w, i + 1 ≤ j → (Machine.trace fuels s)[i]? = some m →
        (Machine.trace fuels s)[i + 1]? = some u → (Machine.trace fuels s)[j]? = some t →
        (Machine.trace fuels s)[j + 1]? = some w → u.core.fp < m.core.fp →
        Within (Machine.trace fuels s) (i + 1) j → u.core.fp < w.core.fp →
        t.core.fp = u.core.fp ∧
          ∃ k, m.caller? = some k ∧ ReturnsTo k t.machine w.machine := by
  have hstart : Ready s.watch := by
    refine fun _ => ⟨⟨?_, List.IsChain.nil⟩, .inr ⟨hframed, ?_⟩⟩ <;> simp [Machine.watch]
  obtain ⟨w, hw, -⟩ := Watched.forM_watchedStep (s := s.watch) hrun
  have htrace : Machine.trace fuels s = w.memory.seen.reverse := by
    rw [Machine.trace, hw, reached]
  have hseen : ∀ m ∈ w.memory.seen, m.Disciplined := by
    intro m hm
    apply hdisciplined
    rwa [htrace, List.mem_reverse]
  obtain ⟨_, _, _, hready, -⟩ := (watched_ready fuels).ok ⟨rfl, hstart, fun _ => hframed⟩ hw
  obtain ⟨⟨hall, hchain⟩, -⟩ := hready hseen
  rw [htrace] at hdisciplined ⊢
  have hlinks : w.memory.seen.reverse.IsChain fun m w => Link m w.machine :=
    List.isChain_reverse.mpr hchain
  have hall' : ∀ m ∈ w.memory.seen.reverse, m.core.Framed :=
    fun m hm => hall m (List.mem_reverse.mp hm)
  refine ⟨?_, hall', ?_, ?_⟩
  · intro n s₁ hprefix
    obtain ⟨w₁, hw₁, rfl⟩ := Watched.forM_watchedStep (s := s.watch) hprefix
    have hkept := (Watched.seen_suffix_of_take hw₁ hw).subset
    obtain ⟨_, _, _, -, hframed₁⟩ :=
      (watched_ready _).ok ⟨rfl, hstart, fun _ => hframed⟩ hw₁
    exact hframed₁ fun m hm => hseen m (hkept hm)
  · intro i j m w hij hm hw hwithin
    exact sameAbove_of_within hlinks hij hm hw hwithin
  · intro i j m u t w hij hm hu ht hw hcall hwithin hreturn
    exact returnsTo_of_within hlinks hall' hdisciplined hij hm hu ht hw hcall hwithin hreturn

/-- A machine that reads a key and is told twice that the time is over.  The
routine for that pushes a word and returns 0.  Then it calls a function, which
returns a word from the stack. -/
def interruptedReader : Except Fault (Machine Image Transcript) :=
  let bytes : Array UInt8 :=
    Array.replicate 64 0 ++ #[0xF6, 0x57, 1, 10, 20, 0, 0xE0, 0x7F, 22, 0, 0xBA] ++
      Array.replicate 5 0 ++ #[0, 0xE8, 0x7F, 7, 0xB1] ++
      Array.replicate 3 0 ++ #[1, 0xE8, 0x7F, 9, 0xB8]
  Machine.load { randomSeed := some 1 } ⟨fun _ => 0, 0⟩
    { keys := [.timedOut, .timedOut, .given 65] } (Image.mk (bytes.set! 0 5 |>.set! 7 64))

/-- The second interrupt of the read returns to where it was called. -/
theorem frames_survive_interrupted_read :
    ∃ s s', interruptedReader = .ok s ∧ s.core.Framed ∧
      [4, 1, 1, 1].forM Machine.step s = .ok () s' ∧
      (∀ m ∈ Machine.trace [4, 1, 1, 1] s, m.Disciplined) ∧ s'.core.Framed ∧
      ∃ m t w k, (Machine.trace [4, 1, 1, 1] s)[4]? = some m ∧
        (Machine.trace [4, 1, 1, 1] s)[7]? = some t ∧
        (Machine.trace [4, 1, 1, 1] s)[8]? = some w ∧ m.caller? = some k ∧
        ReturnsTo k t.machine w.machine := by
  obtain ⟨s, hs, hcheck⟩ := exists_of_givesOk (x := interruptedReader)
    (p := fun s => reachesOk ([4, 1, 1, 1].forM Machine.step s) fun _ _ =>
      decide ((s.core.fp = stackSize - 1 ∧ s.core.sp = stackSize) ∧
        (∀ m ∈ Machine.trace [4, 1, 1, 1] s, m.Disciplined) ∧
        (Machine.trace [4, 1, 1, 1] s).map (fun m => m.core.fp) =
          [1023, 1019, 1019, 1019, 1023, 1019, 1019, 1019, 1023,
            1023, 1023, 1018, 1018, 1018, 1018, 1023])) (by decide +kernel)
  obtain ⟨_, s', hrun, hcheck'⟩ := exists_of_reachesOk hcheck
  obtain ⟨⟨hfp, hsp⟩, hdisciplined, hfps⟩ := of_decide_eq_true hcheck'
  have hframed : s.core.Framed := ⟨by rw [hfp]; decide, by rw [hfp, hsp]; decide, hfp ▸ .last⟩
  obtain ⟨hsteps, -, -, hreturns⟩ :=
    frames_survive [4, 1, 1, 1] s s' hframed hrun hdisciplined
  refine ⟨s, s', hs, hframed, hrun, hdisciplined, hsteps 4 s' hrun, ?_⟩
  generalize Machine.trace [4, 1, 1, 1] s = tr at hfps hreturns
  have hlength : tr.length = 16 := by
    rw [← List.length_map (fun m => m.core.fp), hfps]
    rfl
  have hat : ∀ {n : Nat} {m : Moment Image Transcript}, tr[n]? = some m →
      (tr.map fun m => m.core.fp)[n]? = some m.core.fp := by
    intro n m hm
    rw [List.getElem?_map, hm, Option.map_some]
  rw [hfps] at hat
  obtain ⟨m, hm⟩ : ∃ m, tr[4]? = some m := ⟨_, List.getElem?_eq_getElem (by omega)⟩
  obtain ⟨u, hu⟩ : ∃ u, tr[5]? = some u := ⟨_, List.getElem?_eq_getElem (by omega)⟩
  obtain ⟨t, ht⟩ : ∃ t, tr[7]? = some t := ⟨_, List.getElem?_eq_getElem (by omega)⟩
  obtain ⟨w, hw⟩ : ∃ w, tr[8]? = some w := ⟨_, List.getElem?_eq_getElem (by omega)⟩
  have hfpm : 1023 = m.core.fp := Option.some.inj (hat hm)
  have hfpu : 1019 = u.core.fp := Option.some.inj (hat hu)
  have hfpw : 1023 = w.core.fp := Option.some.inj (hat hw)
  have hwithin : Within tr 5 7 := by
    intro n a b h5 h7 ha hb
    have hfpa : 1019 = a.core.fp := Option.some.inj (hat ha)
    obtain rfl | rfl | rfl : n = 5 ∨ n = 6 ∨ n = 7 := by omega
    all_goals exact Nat.le_of_eq ((Option.some.inj (hat hb)).symm.trans hfpa)
  obtain ⟨-, k, hk, hreturn⟩ :=
    hreturns 4 7 m u t w (by decide) hm hu ht hw (by omega) hwithin (by omega)
  exact ⟨m, t, w, k, hm, ht, hw, hk, hreturn⟩

end ZMachine
