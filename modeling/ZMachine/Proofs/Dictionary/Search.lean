import ZMachine.Dictionary
import ZMachine.Proofs.Image
import ZMachine.Proofs.ZString.DictionaryForm

/-!
# Searching a dictionary

The search by halving keeps no bounds.  It has an index and a step, moves by
the step towards the word and halves the step, and cuts the index to the
entries there are.  What carries it is a distance: with `k` probes to go, an
entry that equals the word is less than `1 <<< k / 2` away from the next probe.
Cutting the index cannot break this, because the entry is on the near side of
the cut.

Entries are compared as signed words but sorted as unsigned ones.  The two
orders agree on words with the same end marks, and all words of dictionary
form have the same marks.
-/

namespace ZMachine.Dictionary

open ZString (isEnd endMarks dictionaryKey LaidOut)

variable {d : Dictionary} {version : UInt8} {image : Image} {entries : List (List UInt16)}
variable {word entry : List UInt16}

/-! ## The order of words -/

/-- Order of two words by their parts, which are taken as signed numbers. -/
def compareParts : List UInt16 → List UInt16 → Ordering
  | part :: parts, entry :: rest =>
    match compare (signed part) (signed entry) with
    | .eq => compareParts parts rest
    | order => order
  | _, _ => .eq

theorem compareAt_image {address : Nat} (hlength : word.length = entry.length)
    (hlaid : LaidOut image entry address) :
    (compareAt word address : MemoryM Image Ordering) image =
      .ok (compareParts word entry) image := by
  induction word generalizing entry address with
  | nil => rfl
  | cons part parts ih =>
      cases entry with
      | nil => simp at hlength
      | cons w rest =>
          simp only [List.length_cons, Nat.add_right_cancel_iff] at hlength
          unfold compareAt compareParts
          rw [bind_ok hlaid.readWord]
          cases compare (signed part) (signed w) with
          | eq => exact ih hlength hlaid.tail
          | lt => rfl
          | gt => rfl

theorem signed_lt_iff {a b : UInt16} (h : isEnd a = isEnd b) : signed a < signed b ↔ a < b := by
  have ha := a.toNat_lt
  have hb := b.toNat_lt
  unfold isEnd at h
  rw [decide_eq_decide] at h
  rw [UInt16.lt_iff_toNat_lt]
  unfold signed
  split <;> split <;> omega

/-- With the same end marks, comparing as signed words is the lexicographic
order of unsigned ones. -/
theorem compareParts_eq (h : word.map isEnd = entry.map isEnd) :
    compareParts word entry = compareOfLessAndEq word entry := by
  induction word generalizing entry with
  | nil =>
      obtain rfl : entry = [] := by simpa using h.symm
      rfl
  | cons a parts ih =>
      cases entry with
      | nil => simp at h
      | cons b rest =>
          simp only [List.map_cons, List.cons.injEq] at h
          have hlt := signed_lt_iff h.1
          have hgt := signed_lt_iff h.1.symm
          have htail := ih h.2
          unfold compareParts
          rcases Nat.lt_trichotomy a.toNat b.toNat with hab | heq | hba
          · have hless : a < b := UInt16.lt_iff_toNat_lt.mpr hab
            have hcompare : compare (signed a) (signed b) = .lt :=
              Int.compare_eq_lt.mpr (hlt.mpr hless)
            simp [hcompare, compareOfLessAndEq, List.cons_lt_cons_iff, hless]
          · obtain rfl := UInt16.toNat_inj.mp heq
            have hcompare : compare (signed a) (signed a) = .eq := Int.compare_eq_eq.mpr rfl
            rw [hcompare]
            simp [htail, compareOfLessAndEq]
          · have hgreater : b < a := UInt16.lt_iff_toNat_lt.mpr hba
            have hcompare : compare (signed a) (signed b) = .gt :=
              Int.compare_eq_gt.mpr (hgt.mpr hgreater)
            have hnot : ¬ a < b := fun h => UInt16.lt_irrefl _ (UInt16.lt_trans h hgreater)
            have hne : a ≠ b := fun h => UInt16.lt_irrefl _ (h ▸ hgreater)
            simp [hcompare, compareOfLessAndEq, List.cons_lt_cons_iff, hnot, hne]

/-! ## Dictionaries in order -/

/-- The entries lie in an image at their addresses, below 64K, marked on the
last word that counts, and in ascending order. -/
structure Ordered (d : Dictionary) (version : UInt8) (image : Image)
    (entries : List (List UInt16)) : Prop where
  nonempty : 0 < entries.length
  laid : ∀ i entry, entries[i]? = some entry → LaidOut image entry (d.entryAddress i)
  low : ∀ i < entries.length, d.entryAddress i < 0x10000
  marked : ∀ entry ∈ entries, entry.map isEnd = endMarks version
  ascending : entries.Pairwise (· < ·)

/-- The address of the entry that equals a word, or 0 if there is none. -/
def Locates (d : Dictionary) (entries : List (List UInt16)) (word : List UInt16) (a : UInt16) :
    Prop :=
  (∃ i, entries[i]? = some word ∧ a = UInt16.ofNat (d.entryAddress i)) ∨ word ∉ entries ∧ a = 0

namespace Ordered

variable (hd : d.Ordered version image entries) (hword : word.map isEnd = endMarks version)

include hd

theorem lt_of_lt {i j : Nat} (hij : i < j) {e f : List UInt16} (he : entries[i]? = some e)
    (hf : entries[j]? = some f) : e < f := by
  obtain ⟨hi, rfl⟩ := List.getElem?_eq_some_iff.mp he
  obtain ⟨hj, rfl⟩ := List.getElem?_eq_some_iff.mp hf
  exact List.pairwise_iff_getElem.mp hd.ascending i j hi hj hij

theorem index_unique {i j : Nat} (hi : entries[i]? = some word) (hj : entries[j]? = some word) :
    i = j := by
  rcases Nat.lt_trichotomy i j with hij | hij | hij
  · exact absurd (hd.lt_of_lt hij hi hj) (List.lt_irrefl _)
  · exact hij
  · exact absurd (hd.lt_of_lt hij hj hi) (List.lt_irrefl _)

/-- The answer does not depend on how it is found. -/
theorem locates_unique {a b : UInt16} (ha : d.Locates entries word a)
    (hb : d.Locates entries word b) : a = b := by
  rcases ha with ⟨i, hi, rfl⟩ | ⟨hnot, rfl⟩
  · rcases hb with ⟨j, hj, rfl⟩ | ⟨hnot, -⟩
    · rw [hd.index_unique hi hj]
    · exact absurd (List.mem_of_getElem? hi) hnot
  · rcases hb with ⟨j, hj, -⟩ | ⟨-, rfl⟩
    · exact absurd (List.mem_of_getElem? hj) hnot
    · rfl

include hword

theorem compareAt_entry {i : Nat} {entry : List UInt16} (hi : entries[i]? = some entry) :
    (compareAt word (d.entryAddress i) : MemoryM Image Ordering) image =
      .ok (compareOfLessAndEq word entry) image := by
  have hmarks : word.map isEnd = entry.map isEnd :=
    hword.trans (hd.marked entry (List.mem_of_getElem? hi)).symm
  have hlength : word.length = entry.length := by simpa using congrArg List.length hmarks
  rw [compareAt_image hlength (hd.laid i entry hi), compareParts_eq hmarks]

theorem findLinear_image (n index : Nat) (hn : index + n = entries.length)
    (hbefore : ∀ i < index, entries[i]? ≠ some word) :
    ∃ a, (d.findLinear word n index : MemoryM Image UInt16) image = .ok a image ∧
      d.Locates entries word a := by
  induction n generalizing index with
  | zero =>
      refine ⟨0, rfl, .inr ⟨?_, rfl⟩⟩
      intro hmem
      obtain ⟨i, hi, rfl⟩ := List.getElem_of_mem hmem
      exact hbefore i (by omega) (List.getElem?_eq_getElem hi)
  | succ n ih =>
      have hindex : entries[index]? = some entries[index] := List.getElem?_eq_getElem (by omega)
      unfold findLinear
      rw [bind_ok (hd.compareAt_entry hword hindex)]
      by_cases heq : word = entries[index]
      · rw [← heq] at hindex ⊢
        have horder : compareOfLessAndEq word word = .eq := by
          simp [compareOfLessAndEq, List.lt_irrefl]
        rw [horder]
        exact ⟨_, rfl, .inl ⟨index, hindex, rfl⟩⟩
      · have hne : ∀ i < index + 1, entries[i]? ≠ some word := by
          intro i hi
          rcases Nat.lt_succ_iff_lt_or_eq.mp hi with hlt | rfl
          · exact hbefore i hlt
          · rw [hindex]
            simpa using Ne.symm heq
        have hrest := ih (index + 1) (by omega) hne
        unfold compareOfLessAndEq
        rw [if_neg heq]
        split
        · exact hrest
        · exact hrest

/-- The search by halving finds the word if its entry is less than a step away
from the next probe.  The step halves with every probe, so when none is left
there is no entry that near. -/
theorem findChopping_image (probes index : Nat)
    (hnear : ∀ t, entries[t]? = some word →
      t < min index (entries.length - 1) + 1 <<< probes / 2 ∧
        min index (entries.length - 1) < t + 1 <<< probes / 2) :
    ∃ a, (d.findChopping word (entries.length - 1) probes index : MemoryM Image UInt16) image =
        .ok a image ∧ d.Locates entries word a := by
  have hpos := hd.nonempty
  induction probes generalizing index with
  | zero =>
      refine ⟨0, rfl, .inr ⟨?_, rfl⟩⟩
      intro hmem
      obtain ⟨t, ht, rfl⟩ := List.getElem_of_mem hmem
      have := hnear t (List.getElem?_eq_getElem ht)
      omega
  | succ n ih =>
      generalize hi : min index (entries.length - 1) = i at hnear
      have hlast : i ≤ entries.length - 1 := by omega
      have hentry : entries[i]? = some entries[i] := List.getElem?_eq_getElem (by omega)
      have hdouble : 1 <<< (n + 1) / 2 = 1 <<< n := by rw [Nat.shiftLeft_succ]; omega
      have hhalf : n = 0 ∨ 1 <<< n = 2 * (1 <<< n / 2) := by
        cases n with
        | zero => exact .inl rfl
        | succ n => right; rw [Nat.shiftLeft_succ]; omega
      rw [hdouble] at hnear
      unfold findChopping
      simp only [hi]
      rw [bind_ok (hd.compareAt_entry hword hentry)]
      unfold compareOfLessAndEq
      by_cases hless : word < entries[i]
      · -- The entry is before the probe.
        rw [if_pos hless]
        apply ih
        intro t ht
        have hti : t < i := by
          rcases Nat.lt_trichotomy t i with hti | rfl | hit
          · exact hti
          · rw [hentry] at ht
            cases ht
            exact absurd hless (List.lt_irrefl _)
          · exact absurd hless (List.lt_asymm (hd.lt_of_lt hit hentry ht))
        have := hnear t ht
        rcases hhalf with rfl | hhalf
        · omega
        · omega
      · rw [if_neg hless]
        by_cases heq : word = entries[i]
        · rw [if_pos heq]
          exact ⟨_, rfl, .inl ⟨i, heq ▸ hentry, rfl⟩⟩
        · -- The entry is behind the probe.
          rw [if_neg heq]
          apply ih
          intro t ht
          obtain ⟨htlength, -⟩ := List.getElem?_eq_some_iff.mp ht
          have hit : i < t := by
            rcases Nat.lt_trichotomy t i with hti | rfl | hit
            · exact absurd (hd.lt_of_lt hti ht hentry) hless
            · rw [hentry] at ht
              cases ht
              exact absurd rfl heq
            · exact hit
          have := hnear t ht
          rcases hhalf with rfl | hhalf
          · omega
          · omega

end Ordered

theorem lt_two_shiftLeft_firstStep (n : Nat) : n < 2 * 1 <<< firstStep n := by
  have hlog := Nat.lt_log2_self (n := n / 2)
  unfold firstStep
  rw [Nat.one_shiftLeft]
  omega

section

variable {text : List UInt8} (hcount : d.count = entries.length)
variable (hd : d.Ordered version image entries)
variable (hword : (dictionaryKey version text).map isEnd = endMarks version)

include hcount hd hword

theorem find_chopping :
    ∃ a, (d.find version text : MemoryM Image UInt16) image = .ok a image ∧
      d.Locates entries (dictionaryKey version text) a := by
  have hpos := hd.nonempty
  have hreach := lt_two_shiftLeft_firstStep entries.length
  have hsearch := hd.findChopping_image hword (firstStep entries.length + 1)
    (1 <<< firstStep entries.length - 1) <| by
      intro t ht
      obtain ⟨hlength, -⟩ := List.getElem?_eq_some_iff.mp ht
      rw [Nat.shiftLeft_succ]
      omega
  unfold find
  rw [if_neg (by omega), if_neg (by omega), hcount]
  exact hsearch

theorem find_linear :
    ∃ a, ({ d with count := -d.count }.find version text : MemoryM Image UInt16) image =
        .ok a image ∧ d.Locates entries (dictionaryKey version text) a := by
  have hpos := hd.nonempty
  have hnegated : Ordered { d with count := -(entries.length : Int) } version image entries :=
    ⟨hd.nonempty, hd.laid, hd.low, hd.marked, hd.ascending⟩
  unfold find
  simp only [hcount]
  rw [if_neg (by omega), if_pos (by omega)]
  have hall : (-(entries.length : Int)).natAbs = entries.length := by simp
  rw [hall]
  exact hnegated.findLinear_image hword entries.length 0 (by simp) (by simp)

end

/-- Searching a dictionary in order by halving answers like looking at its
entries one by one: the address of the only entry with the words of the text,
or 0. -/
theorem find_like_linear
    {M : Type} [AddressSpace M] {R : M → Image → Prop} (hR : MemorySim True R)
    {m : M} (hm : R m image) (hcount : d.count = entries.length)
    (hd : d.Ordered version image entries) (text : List UInt8) :
    let word := dictionaryKey version text
    ∃ a : UInt16,
      ((∃ i, entries[i]? = some word ∧ (∀ j, entries[j]? = some word → j = i) ∧
          a.toNat = d.entryAddress i) ∨
        word ∉ entries ∧ a = 0) ∧
      (∃ m', R m' image ∧ d.find version text m = .ok a m') ∧
      ∃ m', R m' image ∧ { d with count := -d.count }.find version text m = .ok a m' := by
  intro word
  have hword : word.map isEnd = endMarks version := ZString.map_isEnd_dictionaryKey version text
  obtain ⟨a, hchop, ha⟩ := find_chopping hcount hd hword
  obtain ⟨b, hlinear, hb⟩ := find_linear hcount hd hword
  obtain rfl := hd.locates_unique ha hb
  refine ⟨a, ?_, Image.exists_ok hR (.findWord d version text) hm hchop,
    Image.exists_ok hR (.findWord _ version text) hm hlinear⟩
  rcases ha with ⟨i, hi, rfl⟩ | hnone
  · obtain ⟨hlength, -⟩ := List.getElem?_eq_some_iff.mp hi
    refine .inl ⟨i, hi, fun j hj => hd.index_unique hj hi, ?_⟩
    exact UInt16.toNat_ofNat_of_lt' (hd.low i hlength)
  · exact .inr hnone

/-- Entries of seven bytes for "go", "look" and "no" in version 3. -/
theorem find_like_linear_three_entries :
    let d : Dictionary := { separators := [], entrySize := 7, count := 3, entries := 16 }
    let entries := [[103, 111], [108, 111, 111, 107], [110, 111]].map (dictionaryKey 3)
    let image : Image :=
      ⟨(List.replicate 16 0 ++ entries.flatMap fun (entry : List UInt16) =>
        (entry.flatMap fun w => [highByte w, lowByte w]) ++ [0, 0, 0]).toArray⟩
    d.Ordered 3 image entries ∧
      d.find 3 [108, 111, 111, 107] image = .ok 23 image ∧
      d.find 3 [103, 111, 111] image = .ok 0 image := by
  intro d entries image
  have hlaid : ∀ i : Fin entries.length,
      LaidOut image (entries.get i) (d.entryAddress i) := by decide +kernel
  have hd : d.Ordered 3 image entries := by
    constructor
    · decide
    · intro i entry hi
      obtain ⟨hlt, rfl⟩ := List.getElem?_eq_some_iff.mp hi
      exact hlaid ⟨i, hlt⟩
    · decide +kernel
    · decide +kernel
    · decide +kernel
  refine ⟨hd, ?_, ?_⟩
  · obtain ⟨a, hanswer, ⟨_, rfl, hfound⟩, -⟩ :=
      find_like_linear MemorySim.refl rfl rfl hd [108, 111, 111, 107]
    rw [hfound]
    rcases hanswer with ⟨i, -, hunique, ha⟩ | ⟨hnot, -⟩
    · obtain rfl := hunique 1 (by decide +kernel)
      rw [show a = 23 from UInt16.toNat_inj.mp ha]
    · exact absurd (by decide +kernel) hnot
  · obtain ⟨a, hanswer, ⟨_, rfl, hfound⟩, -⟩ :=
      find_like_linear MemorySim.refl rfl rfl hd [103, 111, 111]
    rw [hfound]
    rcases hanswer with ⟨i, hi, -⟩ | ⟨-, rfl⟩
    · exact absurd (List.mem_of_getElem? hi) (by decide +kernel)
    · rfl

end ZMachine.Dictionary
