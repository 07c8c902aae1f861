import ZMachine.Proofs.Dictionary.Search

/-!
# Texts with the same entry

A dictionary knows a text by its first six or nine z-characters only.  Each of
them fits into five bits, so the words of an entry can be read back and no two
sequences share them.  What a search answers depends on a text through these
words alone.  And for texts that differ in them there is a dictionary that
knows one text and not the other: the one that lists the first text and nothing
else.
-/

namespace ZMachine

namespace ZString

/-- The number of z-characters of a text that count in a dictionary. -/
def significantCodes (version : UInt8) : Nat :=
  if version < 4 then 6 else 9

/-- The z-characters of a text that count in a dictionary, after filling up a
short text. -/
def leadingCodes (version : UInt8) (text : List UInt8) : List UInt8 :=
  ((encode version text).rightpad (significantCodes version) filler).take (significantCodes version)

theorem significantCodes_eq (version : UInt8) :
    significantCodes version = 3 * significantWords version := by
  unfold significantCodes significantWords
  split <;> rfl

theorem take_append_filler (zs : List UInt8) {n k : Nat} (hnk : n ≤ k) :
    (zs ++ List.replicate k filler).take n = (zs.rightpad n filler).take n := by
  have hmissing : min (n - zs.length) k = min (n - zs.length) (n - zs.length) := by omega
  simp only [List.rightpad, List.take_append, List.take_replicate, hmissing]

theorem flatMap_codes_dictionaryKey (version : UInt8) (text : List UInt8) :
    (dictionaryKey version text).flatMap codes = leadingCodes version text := by
  obtain ⟨_, _, -, -, -, -, hcodes⟩ := exists_dictionaryKey_eq version text
  rw [hcodes, take_append_filler _ (three_mul_significantWords_le version), ← significantCodes_eq,
    leadingCodes]

/-- Packing loses nothing: all keys have their end mark in the same place. -/
theorem dictionaryKey_eq_iff (version : UInt8) (s t : List UInt8) :
    dictionaryKey version s = dictionaryKey version t ↔
      leadingCodes version s = leadingCodes version t := by
  rw [← flatMap_codes_dictionaryKey, ← flatMap_codes_dictionaryKey]
  constructor
  · intro hkey
    rw [hkey]
  · intro hcodes
    have hmarks : (dictionaryKey version s).map isEnd = (dictionaryKey version t).map isEnd := by
      rw [map_isEnd_dictionaryKey, map_isEnd_dictionaryKey]
    exact eq_of_flatMap_codes_eq hmarks hcodes

end ZString

namespace Dictionary

open ZString (isEnd endMarks dictionaryKey leadingCodes laidOut_behind)

variable {version : UInt8} {s t : List UInt8}

theorem find_congr {M : Type} [AddressSpace M] (d : Dictionary)
    (hkey : dictionaryKey version s = dictionaryKey version t) :
    (d.find version s : MemoryM M UInt16) = d.find version t := by
  unfold dictionaryKey at hkey
  unfold find
  rw [hkey]

/-! ## Dictionaries with one entry -/

/-- A dictionary whose only entry stands at address 1. -/
def single : Dictionary := { separators := [], entrySize := 6, count := 1, entries := 1 }

/-- A memory with the only entry of `single`. -/
def singleImage (entry : List UInt16) : Image :=
  ⟨([0] ++ entry.flatMap fun w => [highByte w, lowByte w]).toArray⟩

theorem ordered_single {entry : List UInt16} (hmarks : entry.map isEnd = endMarks version) :
    single.Ordered version (singleImage entry) [entry] where
  nonempty := by simp
  laid i e he := by
    obtain ⟨hi, rfl⟩ := List.getElem?_eq_some_iff.mp he
    obtain rfl : i = 0 := by simpa using hi
    exact laidOut_behind [0] entry
  low i hi := by
    obtain rfl : i = 0 := by simpa using hi
    decide
  marked e he := by rwa [List.mem_singleton.mp he]
  ascending := List.pairwise_singleton _ _

theorem find_single (version : UInt8) (s t : List UInt8) :
    (single.find version t : MemoryM Image UInt16) (singleImage (dictionaryKey version s)) =
      .ok (if dictionaryKey version t = dictionaryKey version s then 1 else 0)
        (singleImage (dictionaryKey version s)) := by
  have hd := ordered_single (ZString.map_isEnd_dictionaryKey version s)
  obtain ⟨a, hfind, ha⟩ :=
    find_chopping (d := single) rfl hd (ZString.map_isEnd_dictionaryKey version t)
  rw [hfind]
  rcases ha with ⟨i, hi, rfl⟩ | ⟨hnot, rfl⟩
  · obtain ⟨hlength, -⟩ := List.getElem?_eq_some_iff.mp hi
    obtain rfl : i = 0 := by simpa using hlength
    rw [if_pos (List.mem_singleton.mp (List.mem_of_getElem? hi))]
    rfl
  · rw [if_neg (by simpa using hnot)]

/-- Two texts have the same words that count exactly if they have the same
z-characters that count, and exactly then every dictionary gives the same
answer for both, whatever the memory it stands in. -/
theorem find_agrees_iff_leadingCodes (version : UInt8) (s t : List UInt8) :
    (dictionaryKey version s = dictionaryKey version t ↔
        leadingCodes version s = leadingCodes version t) ∧
      (leadingCodes version s = leadingCodes version t ↔
        ∀ (M : Type) [AddressSpace M] (d : Dictionary),
          (d.find version s : MemoryM M UInt16) = d.find version t) := by
  have hiff := ZString.dictionaryKey_eq_iff version s t
  refine ⟨hiff, ?_⟩
  rw [← hiff]
  constructor
  · intro hkey M _ d
    exact d.find_congr hkey
  · -- The dictionary that lists only the first text tells the two apart.
    intro hall
    have hfind := congrFun (hall Image single) (singleImage (dictionaryKey version s))
    rw [find_single, find_single, if_pos rfl] at hfind
    by_cases hkey : dictionaryKey version t = dictionaryKey version s
    · exact hkey.symm
    · simp [hkey] at hfind

-- "inventory" is cut to "invent".  In "torch1" the cut falls behind the shift in
-- front of the digit, which then passes for filling.
example :
    leadingCodes 3 [105, 110, 118, 101, 110, 116, 111, 114, 121] =
        leadingCodes 3 [105, 110, 118, 101, 110, 116] ∧
      leadingCodes 3 [116, 111, 114, 99, 104, 49] = leadingCodes 3 [116, 111, 114, 99, 104] := by
  decide

end Dictionary
end ZMachine
