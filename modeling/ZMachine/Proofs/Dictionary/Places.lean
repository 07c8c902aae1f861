import ZMachine.Proofs.Dictionary.Records

/-!
# Where records point

A record holds the place of its token, counted from the start of the line
buffer, in one byte.  Before version 5 a line has at most 254 bytes and begins
at 1, so every place fits.  From version 5 on a line can have 255 bytes and
begins at 2.  A token that is the last byte of such a line has place 256, which
does not fit: its record points at the first byte of the buffer.
-/

namespace ZMachine.Dictionary

variable {image image' : Image} {version : UInt8} {buffer : Nat} {s : Token.Span}

/-! ## The text of a line in its buffer -/

theorem getElem?_lineIn {i : Nat} (hi : i < (lineIn image version buffer).length) :
    (lineIn image version buffer)[i]? =
      some (image.byteAt (buffer + textOffset version + i)) := by
  -- What is taken is a front of all that follows in the image.
  have hfront : lineIn image version buffer <+:
      image.bytes.toList.drop (buffer + textOffset version) := by
    unfold lineIn textOffset
    split
    · exact List.take_prefix _ _
    · exact List.takeWhile_prefix _
  have hlength := hfront.length_le
  simp only [List.length_drop, Array.length_toList] at hlength
  rw [List.getElem?_eq_getElem hi, hfront.getElem hi]
  have hin : buffer + textOffset version + i < image.bytes.size := by omega
  simp [Image.byteAt, hin]

theorem text_lineIn (hs : s.stop ≤ (lineIn image version buffer).length) :
    s.text (lineIn image version buffer) =
      (List.range' (buffer + textOffset version + s.start) s.length).map image.byteAt := by
  apply List.ext_getElem?
  intro i
  unfold Token.Span.stop at hs
  unfold Token.Span.text
  by_cases hi : i < s.length
  · rw [List.getElem?_take_of_lt hi, List.getElem?_drop, getElem?_lineIn (by omega)]
    simp [hi, Nat.add_assoc]
  · rw [List.getElem?_eq_none (by simp; omega), List.getElem?_eq_none (by simp; omega)]

theorem length_lineIn_le (hlength : version ≤ 4 → (lineIn image version buffer).length ≤ 254) :
    (lineIn image version buffer).length ≤ 255 := by
  by_cases hversion : 4 < version
  · have hbyte := (image.byteAt (buffer + 1)).toNat_lt
    simp only [lineIn, if_pos hversion, List.length_take]
    omega
  · have hshort := hlength (UInt8.not_lt.mp hversion)
    omega

/-! ## Places in records -/

/-- The place of a token fits into a byte, but for one token. -/
theorem place_lt_or_last
    (hlength : version ≤ 4 → (lineIn image version buffer).length ≤ 254) (hpos : 0 < s.length)
    (hstop : s.stop ≤ (lineIn image version buffer).length) :
    textOffset version + s.start < 256 ∨ 4 < version ∧ s = ⟨254, 1⟩ := by
  unfold Token.Span.stop at hstop
  by_cases hversion : 4 < version
  · have hoffset : textOffset version = 2 := if_pos hversion
    have hlong := length_lineIn_le hlength
    by_cases hlast : s.start = 254
    · right
      refine ⟨hversion, ?_⟩
      have hone : s.length = 1 := by omega
      cases s
      exact congr (congrArg Token.Span.mk hlast) hone
    · left
      omega
  · left
    have hoffset : textOffset version = 1 := if_neg hversion
    have hshort := hlength (UInt8.not_lt.mp hversion)
    omega

/-- Where the buffer has not changed, a token's text is at its place. -/
theorem map_place_eq_text
    (hkept : ∀ a, buffer ≤ a → a < buffer + textOffset version +
      (lineIn image version buffer).length → image'.byteAt a = image.byteAt a)
    (hstop : s.stop ≤ (lineIn image version buffer).length) :
    (List.range' (buffer + (textOffset version + s.start)) s.length).map image'.byteAt =
      s.text (lineIn image version buffer) := by
  rw [text_lineIn hstop, ← Nat.add_assoc]
  apply List.map_congr_left
  intro a ha
  unfold Token.Span.stop at hstop
  simp only [List.mem_range'_1] at ha
  exact hkept a (by omega) (by omega)

/-- Every record has the length of its token and points at its text, with one
exception: from version 5 on, a token of one byte at position 254 has a record
that points at the first byte of the line buffer. -/
theorem record_points_at_token
    {M : Type} [AddressSpace M] {strict : Prop} {R : M → Image → Prop} (hR : MemorySim strict R)
    {m m' : M} (hm : R m image) {lineBuffer tokenBuffer dictionary : UInt16} {keepUnknown : Bool}
    (hlength : version ≤ 4 → (lineIn image version lineBuffer.toNat).length ≤ 254)
    (hapart : ∀ a, (inImage image dictionary.toNat).Probes version a →
      ¬ InTokenBuffer image tokenBuffer.toNat a)
    (hline : ∀ a, lineBuffer.toNat ≤ a →
      a < lineBuffer.toNat + textOffset version + (lineIn image version lineBuffer.toNat).length →
        ¬ InTokenBuffer image tokenBuffer.toNat a)
    (h : tokenise version lineBuffer tokenBuffer dictionary keepUnknown m = .ok () m') :
    let line := lineIn image version lineBuffer.toNat
    let spans := Token.tokens (inImage image dictionary.toNat).separators line
    let count := min spans.length (image.byteAt tokenBuffer.toNat).toNat
    ∃ image', R m' image' ∧
      ∀ i s, i < count → spans[i]? = some s →
        let record := tokenBuffer.toNat + 2 + 4 * i
        let n := (image'.byteAt (record + 2)).toNat
        let k := (image'.byteAt (record + 3)).toNat
        n = s.length ∧
          (k = textOffset version + s.start ∨ 4 < version ∧ s = ⟨254, 1⟩ ∧ k = 0) ∧
          ((List.range' (lineBuffer.toNat + k) n).map image'.byteAt = s.text line ↔
            (4 < version → s.start = 254 → s.text line = [image.byteAt lineBuffer.toNat])) := by
  intro line spans count
  obtain ⟨image', himage, hm'⟩ := (Parametric.tokenise _ _ _ _ _ strict R hR).ok hm h
  obtain ⟨-, hrecords, hchanged⟩ := tokenise_ok himage hapart
  have hrecorded : (recorded image version lineBuffer.toNat tokenBuffer.toNat
      dictionary.toNat).length = count := length_recorded _ _ _ _ _
  have hkept : ∀ a, lineBuffer.toNat ≤ a →
      a < lineBuffer.toNat + textOffset version + line.length →
        image'.byteAt a = image.byteAt a := by
    intro a hge hlt
    have hout := hline a hge hlt
    unfold InTokenBuffer at hout
    exact hchanged.other a (by omega)
  refine ⟨image', hm', fun i s hi hs => ?_⟩
  have htoken := Token.mem_tokens_iff.mp (List.mem_of_getElem? hs)
  have hstop : s.stop ≤ line.length := htoken.stop_le
  have hrecord := hrecords i s ((List.getElem?_take_of_lt (by omega)).trans hs)
  dsimp only
  rw [hrecord.length, hrecord.place]
  rcases place_lt_or_last hlength htoken.length_pos hstop with hfits | ⟨hversion, rfl⟩
  · have hn : (UInt8.ofNat s.length).toNat = s.length := by
      have hlong : line.length ≤ 255 := length_lineIn_le hlength
      unfold Token.Span.stop at hstop
      exact UInt8.toNat_ofNat_of_lt' (show s.length < 256 by omega)
    have hk : (UInt8.ofNat (textOffset version + s.start)).toNat = textOffset version + s.start :=
      UInt8.toNat_ofNat_of_lt' hfits
    rw [hn, hk]
    refine ⟨rfl, .inl rfl, iff_of_true (map_place_eq_text hkept hstop) fun hversion hstart => ?_⟩
    have hoffset : textOffset version = 2 := if_pos hversion
    omega
  · -- The place is 256, which is cut to 0.
    have hoffset : textOffset version = 2 := if_pos hversion
    have hfirst : image'.byteAt lineBuffer.toNat = image.byteAt lineBuffer.toNat :=
      hkept _ (Nat.le_refl _) (by omega)
    rw [text_lineIn hstop, hoffset]
    refine ⟨rfl, .inr ⟨hversion, rfl, rfl⟩, ?_⟩
    simp [hversion, hfirst, eq_comm]

/-- A story of version 5 with a full line at 0, of which the first and the last
byte are words, a token buffer at 257 and an empty dictionary at 267. -/
def fullLine : Image :=
  let line : List UInt8 := 97 :: List.replicate 253 32 ++ [98]
  ⟨(255 :: 255 :: line ++ 2 :: List.replicate 9 0 ++ [0, 6, 0, 0]).toArray⟩

theorem record_points_at_token_full_line :
    ∃ image', tokenise 5 0 257 267 false fullLine = .ok () image' ∧
      (List.range' (image'.byteAt 262).toNat (image'.byteAt 261).toNat).map image'.byteAt = [97] ∧
      (List.range' (image'.byteAt 266).toNat (image'.byteAt 265).toNat).map image'.byteAt ≠
        [98] := by
  have hdictionary : inImage fullLine (267 : UInt16).toNat = ⟨[], 6, 0, 271⟩ := by decide +kernel
  have htokens : Token.tokens [] (lineIn fullLine 5 (0 : UInt16).toNat) =
      [⟨0, 1⟩, ⟨254, 1⟩] := by decide +kernel
  have hlength : (lineIn fullLine 5 (0 : UInt16).toNat).length = 255 := by decide +kernel
  have hlimit : fullLine.byteAt (257 : UInt16).toNat = 2 := by decide +kernel
  have hapart : ∀ a, (inImage fullLine (267 : UInt16).toNat).Probes 5 a →
      ¬ InTokenBuffer fullLine (257 : UInt16).toNat a := by
    rintro a ⟨index, hindex, -⟩
    rw [hdictionary] at hindex
    cases hindex
  have hline : ∀ a, (0 : UInt16).toNat ≤ a →
      a < (0 : UInt16).toNat + textOffset 5 + (lineIn fullLine 5 (0 : UInt16).toNat).length →
        ¬ InTokenBuffer fullLine (257 : UInt16).toNat a := by
    rintro a - hlt ⟨hge, -⟩
    rw [hlength] at hlt
    have hge' : 257 ≤ a := hge
    have hlt' : a < 257 := hlt
    omega
  obtain ⟨_, image', hrun, -⟩ := exists_of_reachesOk
    (r := tokenise 5 0 257 267 false fullLine) (p := fun _ _ => true) (by decide +kernel)
  obtain ⟨_, rfl, hrecords⟩ :=
    record_points_at_token MemorySim.refl rfl (fun h => absurd h (by decide)) hapart hline hrun
  rw [hdictionary, htokens, hlimit] at hrecords
  have hfirst : Token.Span.text (lineIn fullLine 5 (0 : UInt16).toNat) ⟨0, 1⟩ = [97] := by
    decide +kernel
  have hlast : Token.Span.text (lineIn fullLine 5 (0 : UInt16).toNat) ⟨254, 1⟩ = [98] := by
    decide +kernel
  have hend : [98] ≠ [fullLine.byteAt (0 : UInt16).toNat] := by decide +kernel
  obtain ⟨-, -, hpoints⟩ := hrecords 0 ⟨0, 1⟩ (by decide) rfl
  obtain ⟨-, -, hpoints'⟩ := hrecords 1 ⟨254, 1⟩ (by decide) rfl
  rw [hfirst, UInt16.toNat_zero, Nat.zero_add] at hpoints
  rw [hlast, UInt16.toNat_zero, Nat.zero_add] at hpoints'
  refine ⟨_, hrun, hpoints.mpr fun _ h => absurd h (by decide), fun h => ?_⟩
  exact hend (hpoints'.mp h (by decide) rfl)

end ZMachine.Dictionary
