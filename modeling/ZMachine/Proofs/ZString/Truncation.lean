import ZMachine.Proofs.ZString.DictionaryForm

/-!
# What a dictionary entry holds

A text that is too long for a dictionary entry is cut off after six or nine
z-characters, and the cut may fall between a shift and its character or inside
an escape.  But a character is yielded by the last of its z-characters only, so
what is left of it in front of the cut yields nothing, and nothing follows that
could complete it: a text that is cut is not filled.  So an entry reads as the
longest front of its text that fits.
-/

namespace ZMachine.ZString

theorem encodeShifting_cons (c : UInt8) (rest : List UInt8) :
    encodeShifting (c :: rest) = encodeShifting [c] ++ encodeShifting rest := by
  simp [encodeShifting]

/-- The longest front of a text that is spelled by at most `n` z-characters. -/
def LongestFront (version : UInt8) (n : Nat) (text front : List UInt8) : Prop :=
  front <+: text ∧ (encode version front).length ≤ n ∧
    ∀ other, other <+: text → (encode version other).length ≤ n → other <+: front

section

variable {version : UInt8} (hversion : 3 ≤ version)

include hversion

/-! ## A character that is cut -/

theorem reads_shift {r : Row} (hr : r ≠ .lower) :
    Reads version {} [UInt8.ofNat (r.val + 3)] [] { row := r } := by
  match r with
  | 0 => exact absurd rfl hr
  | 1 => exact .silent (next_shift hversion rfl (.inl rfl)) (.done _)
  | 2 => exact .silent (next_shift hversion rfl (.inr rfl)) (.done _)

/-- Only the last z-character of a character yields something. -/
theorem exists_silent_front (c : UInt8) :
    ∃ front z r, encodeShifting [c] = front ++ [z] ∧ Reads version {} front [] r := by
  by_cases hspace : c = space
  · exact ⟨[], 0, {}, by simp [encodeShifting, hspace], .done _⟩
  have hcodes : encodeShifting [c] =
      if (locate c).1 = .lower then spell c (locate c)
      else UInt8.ofNat ((locate c).1.val + 3) :: spell c (locate c) := by
    simp [encodeShifting, hspace]
  rw [hcodes]
  by_cases hescape : (locate c).1 = .punctuation ∧ (locate c).2 = 0
  · have hshift := reads_shift hversion (r := .punctuation) (by decide)
    have hopen : Reading.next version { row := .punctuation } 6 =
        ({ pending := .escapeHigh }, .nothing) := next_of_five_lt rfl (by decide)
    have hfront : Reads version {} [5, 6, c >>> 5] [] { pending := .escapeLow (c >>> 5 <<< 5) } :=
      hshift.append (.silent hopen (.silent rfl (.done _)))
    refine ⟨[5, 6, c >>> 5], c &&& 0x1f, _, ?_, hfront⟩
    rw [spell, if_pos hescape, if_neg (by rw [hescape.1]; decide), hescape.1]
    rfl
  · rw [spell, if_neg hescape]
    by_cases hlower : (locate c).1 = .lower
    · exact ⟨[], _, {}, by rw [if_pos hlower]; rfl, .done _⟩
    · exact ⟨[_], _, _, by rw [if_neg hlower]; rfl, reads_shift hversion hlower⟩

theorem reads_cut {c : UInt8} {n : Nat} (hn : n < (encodeShifting [c]).length) :
    ∃ r, Reads version {} ((encodeShifting [c]).take n) [] r := by
  obtain ⟨front, z, r, hcodes, hfront⟩ := exists_silent_front hversion c
  rw [hcodes, List.length_append, List.length_singleton] at hn
  rw [← List.take_append_drop n front] at hfront
  obtain ⟨r', out, rest, hout, hreads, -⟩ := hfront.split
  obtain ⟨rfl, -⟩ := List.append_eq_nil_iff.mp hout.symm
  refine ⟨r', ?_⟩
  rw [hcodes, List.take_append_of_le_length (by omega)]
  exact hreads

/-! ## A text that is cut -/

theorem reads_take (text : List UInt8) {n k : Nat} (hnk : n ≤ k) :
    ∃ front r, LongestFront version n text front ∧
      Reads version {} ((encode version text ++ List.replicate k filler).take n)
        (front.map readBack) r := by
  simp only [LongestFront, encode_of_three_le hversion]
  induction text generalizing n with
  | nil =>
      obtain ⟨r, hreads⟩ := reads_fillers version n (r := {}) rfl
      refine ⟨[], r, ⟨List.prefix_refl _, Nat.zero_le n, fun _ hother _ => hother⟩, ?_⟩
      simpa [encodeShifting, List.take_replicate, Nat.min_eq_left hnk] using hreads
  | cons c rest ih =>
      rw [encodeShifting_cons, List.append_assoc]
      by_cases hfits : (encodeShifting [c]).length ≤ n
      · obtain ⟨front, r, ⟨hstart, hlength, hlongest⟩, hreads⟩ :=
          ih (n := n - (encodeShifting [c]).length) (by omega)
        have hchar : Reads version {} (encodeShifting [c]) [readBack c] {} :=
          .flatMap (reads_character hversion) [c]
        refine ⟨c :: front, r, ⟨?_, ?_, ?_⟩, ?_⟩
        · exact List.cons_prefix_cons.mpr ⟨rfl, hstart⟩
        · rw [encodeShifting_cons, List.length_append]
          omega
        · intro other hother hshort
          cases other with
          | nil => exact List.nil_prefix
          | cons c' other =>
              obtain ⟨rfl, hrest⟩ := List.cons_prefix_cons.mp hother
              rw [encodeShifting_cons, List.length_append] at hshort
              exact List.cons_prefix_cons.mpr ⟨rfl, hlongest other hrest (by omega)⟩
        · rw [List.take_append, List.take_of_length_le hfits]
          exact hchar.append hreads
      · obtain ⟨r, hreads⟩ := reads_cut hversion (Nat.not_le.mp hfits)
        refine ⟨[], r, ⟨List.nil_prefix, Nat.zero_le n, ?_⟩, ?_⟩
        · intro other hother hshort
          cases other with
          | nil => exact List.nil_prefix
          | cons c' other =>
              obtain ⟨rfl, -⟩ := List.cons_prefix_cons.mp hother
              rw [encodeShifting_cons, List.length_append] at hshort
              omega
        · rw [List.take_append_of_le_length (Nat.le_of_not_le hfits)]
          exact hreads

/-! ## Entries -/

theorem significantWords_of_three_le : significantWords version = if version = 3 then 2 else 3 := by
  have hiff : version < 4 ↔ version = 3 := by
    rw [UInt8.lt_iff_toNat_lt, ← UInt8.toNat_inj]
    have hle : 3 ≤ version.toNat := hversion
    simp
    omega
  rw [significantWords]
  simp only [hiff]

theorem decodeText_dictionaryKey {h : Header} (hheader : h.version = version) (text : List UInt8)
    {image : Image} {address : Nat} (hlaid : LaidOut image (dictionaryKey version text) address)
    (found : Array UInt8) :
    ∃ front, LongestFront version (3 * significantWords version) text front ∧
      decodeText h address ⟨image, found⟩ =
        .ok (address + 2 * significantWords version)
          ⟨image, found ++ (front.map readBack).toArray⟩ := by
  subst hheader
  obtain ⟨words, last, hkey, hwords, hlast, hlength, hcodes⟩ :=
    exists_dictionaryKey_eq h.version text
  obtain ⟨front, r, hlongest, hreads⟩ :=
    reads_take hversion text (three_mul_significantWords_le h.version)
  refine ⟨front, hlongest, ?_⟩
  rw [← hcodes, hkey] at hreads
  rw [hkey] at hlaid hlength
  rw [decodeText_of_words hwords hlast hreads hlaid found, hlength]

end

/-- A dictionary entry is read, wherever it stands in a memory that shows an
image, as the longest front of its text that it has room for. -/
theorem decodeText_dictionaryWords
    {M : Type} [AddressSpace M] {R : M → Image → Prop} (hR : MemorySim True R)
    {m : M} {image : Image} (hm : R m image) {h : Header} (hversion : 3 ≤ h.version)
    (text : List UInt8) {address : Nat}
    (hlaid : LaidOut image
      ((dictionaryWords h.version text).take (if h.version = 3 then 2 else 3)) address)
    (found : Array UInt8) :
    ∃ front m', LongestFront h.version (if h.version = 3 then 6 else 9) text front ∧
      R m' image ∧
      decodeText h address ⟨m, found⟩ =
        .ok (address + 2 * (if h.version = 3 then 2 else 3))
          ⟨m', found ++ (front.map readBack).toArray⟩ := by
  have hwords := significantWords_of_three_le hversion
  have hlimit : 3 * significantWords h.version = if h.version = 3 then 6 else 9 := by
    rw [hwords]
    split <;> rfl
  rw [← hwords] at hlaid ⊢
  obtain ⟨front, hlongest, hdecode⟩ := decodeText_dictionaryKey hversion rfl text hlaid found
  obtain ⟨m', hm', hdecode'⟩ := exists_decodeText hR hm hdecode
  exact ⟨front, m', hlimit ▸ hlongest, hm', hdecode'⟩

/-- The last of the four z-characters of an escape is cut off. -/
theorem decodeText_dictionaryWords_cut_escape :
    let h : Header := { (default : Header) with version := 5 }
    let text : List UInt8 := [108, 97, 109, 112, 10, 64, 46]
    let words := dictionaryWords h.version text
    let image : Image := ⟨([0] ++ words.flatMap fun w => [highByte w, lowByte w]).toArray⟩
    encode h.version text = [17, 6, 18, 21, 5, 7, 5, 6, 2, 0, 5, 18] ∧ LaidOut image words 1 ∧
      LongestFront h.version 9 text [108, 97, 109, 112, 10] ∧
      decodeText h 1 ⟨image, #[62]⟩ = .ok 7 ⟨image, #[62] ++ #[108, 97, 109, 112, 13]⟩ := by
  intro h text words image
  have hlaid : LaidOut image words 1 := laidOut_behind [0] words
  obtain ⟨front, _, hlongest, rfl, hdecode⟩ :=
    decodeText_dictionaryWords (h := h) MemorySim.refl rfl (by decide) text hlaid #[62]
  have hfront : front = [108, 97, 109, 112, 10] := by
    obtain ⟨hstart, hfits, hmax⟩ := hlongest
    have hfive := (hmax [108, 97, 109, 112, 10] (by decide) (by decide)).length_le
    have hseven := hstart.length_le
    have htake := List.prefix_iff_eq_take.mp hstart
    obtain hn | hn | hn : front.length = 5 ∨ front.length = 6 ∨ front.length = 7 := by
      simp only [List.length_cons, List.length_nil, text] at hfive hseven
      omega
    all_goals rw [hn] at htake
    · exact htake
    · exact absurd (htake ▸ hfits) (by decide)
    · exact absurd (htake ▸ hfits) (by decide)
  subst hfront
  exact ⟨by decide, hlaid, hlongest, hdecode⟩

end ZMachine.ZString
