import ZMachine.ZString.Decode
import ZMachine.ZString.Encode

/-!
# Words of z-characters

Three z-characters of five bits each fit into a word below its end mark.  The
words of a packed string give its z-characters back in order, filling
included, and the last word is the only one that is marked.  Marks and
z-characters together determine the words.
-/

namespace ZMachine.ZString

/-! ## One word -/

theorem toNat_packThree {a b c : UInt8} (ha : a < 32) (hb : b < 32) (hc : c < 32) :
    (packThree a b c).toNat = a.toNat * 1024 + b.toNat * 32 + c.toNat ∧
      (packThree a b c).toNat < 0x8000 := by
  have ha' : a.toNat < 32 := ha
  have hb' : b.toNat < 32 := hb
  have hc' : c.toNat < 32 := hc
  simp only [packThree, UInt16.toNat_ofNat']
  omega

theorem codes_packThree {a b c : UInt8} (ha : a < 32) (hb : b < 32) (hc : c < 32) :
    codes (packThree a b c) = [a, b, c] := by
  have ha' : a.toNat < 32 := ha
  have hb' : b.toNat < 32 := hb
  have hc' : c.toNat < 32 := hc
  have hfirst : (a.toNat * 1024 + b.toNat * 32 + c.toNat) / 1024 % 32 = a.toNat := by omega
  have hsecond : (a.toNat * 1024 + b.toNat * 32 + c.toNat) / 32 % 32 = b.toNat := by omega
  have hthird : (a.toNat * 1024 + b.toNat * 32 + c.toNat) % 32 = c.toNat := by omega
  rw [codes, (toNat_packThree ha hb hc).1, hfirst, hsecond, hthird]
  simp only [UInt8.ofNat_toNat]

theorem isEnd_eq_false {w : UInt16} (hw : w.toNat < 0x8000) : isEnd w = false := by
  simpa [isEnd] using hw

theorem toNat_endMarked {w : UInt16} (hw : w.toNat < 0x8000) :
    (endMarked w).toNat = w.toNat + 0x8000 := by
  have hor := Nat.shiftLeft_add_eq_or_of_lt (i := 15) (b := w.toNat) hw 1
  simp only [Nat.shiftLeft_eq] at hor
  rw [endMarked, UInt16.toNat_or, Nat.or_comm]
  simpa [Nat.add_comm] using hor.symm

theorem isEnd_endMarked {w : UInt16} (hw : w.toNat < 0x8000) : isEnd (endMarked w) = true := by
  simp [isEnd, toNat_endMarked hw]

theorem codes_endMarked {w : UInt16} (hw : w.toNat < 0x8000) :
    codes (endMarked w) = codes w := by
  have hfirst : (w.toNat + 0x8000) / 1024 % 32 = w.toNat / 1024 % 32 := by omega
  have hsecond : (w.toNat + 0x8000) / 32 % 32 = w.toNat / 32 % 32 := by omega
  have hthird : (w.toNat + 0x8000) % 32 = w.toNat % 32 := by omega
  rw [codes, codes, toNat_endMarked hw, hfirst, hsecond, hthird]

/-- A word is its end mark and its three z-characters. -/
theorem eq_of_codes_eq {v w : UInt16} (hmark : isEnd v = isEnd w) (hcodes : codes v = codes w) :
    v = w := by
  have hv := v.toNat_lt
  have hw := w.toNat_lt
  have htop : 0x8000 ≤ v.toNat ↔ 0x8000 ≤ w.toNat := decide_eq_decide.mp hmark
  simp only [codes, List.cons.injEq, ← UInt8.toNat_inj, UInt8.toNat_ofNat', and_true] at hcodes
  obtain ⟨hfirst, hsecond, hthird⟩ := hcodes
  rw [← UInt16.toNat_inj]
  omega

/-! ## Strings of words -/

theorem length_filled_mod (zs : List UInt8) : (filled zs).length % 3 = 0 := by
  cases zs with
  | nil => rfl
  | cons z zs =>
      simp only [filled, List.isEmpty_cons, List.length_append, List.length_replicate]
      simp only [Bool.false_eq_true, if_false]
      omega

theorem filled_ne_nil (zs : List UInt8) : filled zs ≠ [] := by
  cases zs with
  | nil => simp [filled]
  | cons z zs => simp [filled]

theorem lt_of_mem_filled {zs : List UInt8} (hzs : ∀ z ∈ zs, z < 32) :
    ∀ z ∈ filled zs, z < 32 := by
  intro z hz
  rcases List.mem_append.mp hz with hz | hz
  · exact hzs z hz
  · rw [List.eq_of_mem_replicate hz]
    decide

theorem packThrees_codes (zs : List UInt8) (hlength : zs.length % 3 = 0)
    (hzs : ∀ z ∈ zs, z < 32) :
    (packThrees zs).flatMap codes = zs ∧ ∀ w ∈ packThrees zs, w.toNat < 0x8000 := by
  fun_induction packThrees zs with
  | case1 a b c rest ih =>
      simp only [List.mem_cons, forall_eq_or_imp] at hzs
      obtain ⟨ha, hb, hc, hrest⟩ := hzs
      obtain ⟨hcodes, hbound⟩ := ih (by simp only [List.length_cons] at hlength; omega) hrest
      refine ⟨?_, fun w hw => ?_⟩
      · rw [List.flatMap_cons, codes_packThree ha hb hc, hcodes]
        rfl
      · rcases List.mem_cons.mp hw with rfl | hw
        · exact (toNat_packThree ha hb hc).2
        · exact hbound w hw
  | case2 zs hshort =>
      match zs, hshort with
      | [], _ => simp
      | [_], _ => simp at hlength
      | [_, _], _ => simp at hlength
      | a :: b :: c :: rest, hshort => exact absurd rfl (hshort a b c rest)

theorem eq_of_flatMap_codes_eq {words words' : List UInt16}
    (hmarks : words.map isEnd = words'.map isEnd)
    (hcodes : words.flatMap codes = words'.flatMap codes) : words = words' := by
  induction words generalizing words' with
  | nil => simpa using hmarks.symm
  | cons v words ih =>
      cases words' with
      | nil => simp at hmarks
      | cons w words' =>
          simp only [List.map_cons, List.cons.injEq] at hmarks
          rw [List.flatMap_cons, List.flatMap_cons] at hcodes
          obtain ⟨hhead, htail⟩ := List.append_inj hcodes rfl
          rw [eq_of_codes_eq hmarks.1 hhead, ih hmarks.2 htail]

theorem modify_last {α : Type} (f : α → α) (xs : List α) (x : α) :
    (xs ++ [x]).modify ((xs ++ [x]).length - 1) f = xs ++ [f x] := by
  simp only [List.length_append, List.length_singleton, Nat.add_sub_cancel]
  induction xs with
  | nil => rfl
  | cons y xs ih => simpa using ih

/-- A packed string is words without a mark and one with it, and spells out
the filled string. -/
theorem exists_pack_eq {zs : List UInt8} (hzs : ∀ z ∈ zs, z < 32) :
    ∃ (front : List UInt16) (last : UInt16), pack zs = front ++ [last] ∧
      (∀ w ∈ front, isEnd w = false) ∧ isEnd last = true ∧
      (pack zs).flatMap codes = filled zs := by
  obtain ⟨hcodes, hbound⟩ :=
    packThrees_codes (filled zs) (length_filled_mod zs) (lt_of_mem_filled hzs)
  have hne : packThrees (filled zs) ≠ [] := by
    intro hnil
    rw [hnil] at hcodes
    exact filled_ne_nil zs hcodes.symm
  obtain ⟨front, last, hwords⟩ : ∃ front last, packThrees (filled zs) = front ++ [last] :=
    ⟨_, _, (List.dropLast_concat_getLast hne).symm⟩
  rw [hwords] at hcodes hbound
  have hlast := hbound last (by simp)
  have hpack : pack zs = front ++ [endMarked last] := by
    rw [pack, hwords]
    exact modify_last endMarked front last
  refine ⟨front, endMarked last, hpack, fun w hw => ?_, isEnd_endMarked hlast, ?_⟩
  · exact isEnd_eq_false (hbound w (by simp [hw]))
  · rw [hpack, ← hcodes, List.flatMap_append, List.flatMap_append]
    simp [codes_endMarked hlast]

end ZMachine.ZString
