import Mathlib.Data.List.Basic
import ZMachine.Proofs.ZString.RoundTrip

/-!
# Words of dictionary entries

A text in dictionary form is cut or filled to nine z-characters, and the end
mark is set on the last word that counts.  So the words that count have the
same marks for every text.
-/

namespace ZMachine.ZString

/-! ## Z-characters fit into five bits -/

theorem locate_snd_lt (c : UInt8) : (locate c).2 < 26 := by
  unfold locate
  split
  next hlower =>
    have hle : 97 ≤ c.toNat := hlower.1
    have hge : c.toNat ≤ 122 := hlower.2
    simp only
    omega
  next =>
    split
    next hupper =>
      have hle : 65 ≤ c.toNat := hupper.1
      have hge : c.toNat ≤ 90 := hupper.2
      simp only
      omega
    next =>
      cases hfound : punctuationRow.idxOf? c with
      | none => simp
      | some place => simpa using (character_punctuation hfound).1

theorem lt_of_mem_encodeLocking (lock : Row) (text : List UInt8) :
    ∀ z ∈ encodeLocking lock text, z < 32 := by
  induction text generalizing lock with
  | nil => simp [encodeLocking]
  | cons c rest ih =>
      have hspell := lt_of_mem_spell (c := c) (r := (locate c).1) (locate_snd_lt c)
      have hshift : ∀ r : Row, UInt8.ofNat (r.val + 3) < 32 ∧ UInt8.ofNat (r.val + 1) < 32 := by
        decide
      unfold encodeLocking
      by_cases hspace : c = space
      · simpa [hspace] using ih lock
      · simp only [hspace, if_false]
        by_cases hlock : (locate c).1 = lock
        · simp only [hlock, if_true, List.mem_append]
          rintro z (hz | hz)
          · exact hspell z hz
          · exact ih lock z hz
        · simp only [hlock, if_false]
          split
          all_goals
            simp only [List.mem_cons, List.mem_append]
            rintro z (rfl | hz | hz)
          · exact (hshift _).1
          · exact hspell z hz
          · exact ih _ z hz
          · exact (hshift _).2
          · exact hspell z hz
          · exact ih _ z hz

theorem lt_of_mem_encode (version : UInt8) (text : List UInt8) :
    ∀ z ∈ encode version text, z < 32 := by
  unfold encode
  split
  · exact lt_of_mem_encodeLocking .lower text
  · exact lt_of_mem_encodeShifting text

/-! ## Marks -/

theorem length_packThrees (zs : List UInt8) : (packThrees zs).length = zs.length / 3 := by
  fun_induction packThrees zs with
  | case1 a b c rest ih =>
      simp only [List.length_cons, ih]
      omega
  | case2 zs hshort =>
      rcases zs with _ | ⟨a, _ | ⟨b, _ | ⟨c, rest⟩⟩⟩
      iterate 3 simp
      exact absurd rfl (hshort a b c rest)

theorem three_mul_significantWords_le (version : UInt8) : 3 * significantWords version ≤ 9 := by
  unfold significantWords
  split <;> decide

/-- The end marks of the words that count: one, on the last of them. -/
def endMarks (version : UInt8) : List Bool :=
  List.replicate (significantWords version - 1) false ++ [true]

/-- The part of a text's dictionary form that counts. -/
def dictionaryKey (version : UInt8) (text : List UInt8) : List UInt16 :=
  (dictionaryWords version text).take (significantWords version)

theorem lt_of_mem_nine (version : UInt8) (text : List UInt8) :
    ∀ z ∈ (encode version text ++ List.replicate 9 filler).take 9, z < 32 := by
  intro z hz
  rcases List.mem_append.mp (List.mem_of_mem_take hz) with hz | hz
  · exact lt_of_mem_encode version text z hz
  · rw [List.eq_of_mem_replicate hz]
    decide

theorem exists_packThrees_nine (version : UInt8) (text : List UInt8) :
    ∃ a b c, packThrees ((encode version text ++ List.replicate 9 filler).take 9) = [a, b, c] ∧
      a.toNat < 0x8000 ∧ b.toNat < 0x8000 ∧ c.toNat < 0x8000 := by
  have hlength : ((encode version text ++ List.replicate 9 filler).take 9).length = 9 := by
    simp
  have hwords := length_packThrees ((encode version text ++ List.replicate 9 filler).take 9)
  have hbound := (packThrees_codes _ (by rw [hlength]) (lt_of_mem_nine version text)).2
  rw [hlength] at hwords
  obtain ⟨a, b, c, habc⟩ := List.length_eq_three.mp hwords
  rw [habc] at hbound
  simp only [List.mem_cons, List.not_mem_nil, or_false, forall_eq_or_imp, forall_eq] at hbound
  exact ⟨a, b, c, habc, hbound⟩

theorem map_isEnd_dictionaryKey (version : UInt8) (text : List UInt8) :
    (dictionaryKey version text).map isEnd = endMarks version := by
  obtain ⟨a, b, c, habc, ha, hb, hc⟩ := exists_packThrees_nine version text
  unfold dictionaryKey dictionaryWords endMarks significantWords
  simp only [habc]
  by_cases hversion : version < 4
  · simp [hversion, isEnd_eq_false ha, isEnd_endMarked hb]
  · simp [hversion, isEnd_eq_false ha, isEnd_eq_false hb, isEnd_endMarked hc]

/-- The words that count are some without a mark and one with it, and spell out
the first z-characters of the filled text. -/
theorem exists_dictionaryKey_eq (version : UInt8) (text : List UInt8) :
    ∃ front last, dictionaryKey version text = front ++ [last] ∧
      (∀ w ∈ front, isEnd w = false) ∧ isEnd last = true ∧
      (dictionaryKey version text).length = significantWords version ∧
      (dictionaryKey version text).flatMap codes =
        (encode version text ++ List.replicate 9 filler).take (3 * significantWords version) := by
  obtain ⟨a, b, c, habc, ha, hb, hc⟩ := exists_packThrees_nine version text
  have hnine : codes a ++ codes b ++ codes c =
      (encode version text ++ List.replicate 9 filler).take 9 := by
    have hspelled := (packThrees_codes ((encode version text ++ List.replicate 9 filler).take 9)
      (by simp) (lt_of_mem_nine version text)).1
    rw [habc] at hspelled
    simpa using hspelled
  unfold dictionaryKey dictionaryWords significantWords
  simp only [habc]
  by_cases hearly : version < 4
  · refine ⟨[a], endMarked b, ?_⟩
    have hsix : codes a ++ codes b =
        (encode version text ++ List.replicate 9 filler).take 6 := by
      rw [← Nat.min_eq_left (show 6 ≤ 9 by decide), ← List.take_take, ← hnine]
      rfl
    simp [hearly, isEnd_eq_false ha, isEnd_endMarked hb, codes_endMarked hb, hsix]
  · refine ⟨[a, b], endMarked c, ?_⟩
    rw [List.append_assoc] at hnine
    simp [hearly, isEnd_eq_false ha, isEnd_eq_false hb, isEnd_endMarked hc, codes_endMarked hc,
      hnine]

end ZMachine.ZString
