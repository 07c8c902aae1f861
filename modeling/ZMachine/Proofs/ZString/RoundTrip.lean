import ZMachine.Proofs.ZString.Decoding

/-!
# Encoded text reads back

`Reads` follows the automaton of the decoder over z-characters that refer to
no abbreviation, and says which characters it yields.  From version 3 on the
z-characters of each character bring the automaton back to where it started,
so those of a text yield the text, and the shifts that fill the last word
yield nothing.  Only the line feed does not survive: its place in the
punctuation row reads as the newline.
-/

namespace ZMachine.ZString

/-- The z-characters lead from one reading to another and yield a text. -/
inductive Reads (version : UInt8) : Reading → List UInt8 → List UInt8 → Reading → Prop where
  | done (r : Reading) : Reads version r [] [] r
  | silent {r r' r'' : Reading} {code : UInt8} {zs out : List UInt8}
      (hnext : r.next version code = (r', .nothing)) (hrest : Reads version r' zs out r'') :
      Reads version r (code :: zs) out r''
  | yield {r r' r'' : Reading} {code c : UInt8} {zs out : List UInt8}
      (hnext : r.next version code = (r', .character c)) (hrest : Reads version r' zs out r'') :
      Reads version r (code :: zs) (c :: out) r''

namespace Reads

variable {version : UInt8} {r r' r'' : Reading} {zs zs' out out' : List UInt8}

theorem append (h : Reads version r zs out r') (h' : Reads version r' zs' out' r'') :
    Reads version r (zs ++ zs') (out ++ out') r'' := by
  induction h with
  | done => exact h'
  | silent hnext _ ih => exact .silent hnext (ih h')
  | yield hnext _ ih => exact .yield hnext (ih h')

theorem split (h : Reads version r (zs ++ zs') out r'') :
    ∃ r' front back, out = front ++ back ∧ Reads version r zs front r' ∧
      Reads version r' zs' back r'' := by
  induction zs generalizing r out with
  | nil => exact ⟨r, [], out, rfl, .done r, h⟩
  | cons code zs ih =>
      cases h with
      | silent hnext hrest =>
          obtain ⟨r', front, back, hout, hfront, hback⟩ := ih hrest
          exact ⟨r', front, back, hout, .silent hnext hfront, hback⟩
      | yield hnext hrest =>
          obtain ⟨r', front, back, rfl, hfront, hback⟩ := ih hrest
          exact ⟨r', _ :: front, back, rfl, .yield hnext hfront, hback⟩

theorem flatMap {α : Type} {f : α → List UInt8} {g : α → UInt8}
    (h : ∀ a, Reads version r (f a) [g a] r) (as : List α) :
    Reads version r (as.flatMap f) (as.map g) r := by
  induction as with
  | nil => exact .done r
  | cons a as ih => exact (h a).append ih

end Reads

/-! ## What the decoder makes of it -/

section

variable {M : Type} [AddressSpace M] {h : Header} {expand : Nat → DecodeM M Unit}

theorem decodeCodes_of_reads
    {r r' : Reading} {zs out : List UInt8} (hreads : Reads h.version r zs out r')
    (m : M) (text : Array UInt8) :
    decodeCodes h expand r zs ⟨m, text⟩ = .ok r' ⟨m, text ++ out.toArray⟩ := by
  induction hreads generalizing text with
  | done => simp [decodeCodes, pure, EStateM.pure]
  | silent hnext _ ih =>
      simp only [decodeCodes, hnext]
      exact ih text
  | @yield r r' r'' code c zs out hnext _ ih =>
      simp only [decodeCodes, hnext]
      have hpush : text ++ (c :: out).toArray = text.push c ++ out.toArray := by simp
      rw [hpush]
      exact ih (text.push c)

end

/-! ## Characters -/

/-- What a character is read back as. -/
def readBack (c : UInt8) : UInt8 :=
  if c = lineFeed then newline else c

theorem next_of_five_lt {version code : UInt8} {r : Reading} (hr : r.pending = .nothing)
    (hcode : 5 < code) : r.next version code = r.alphabetic code := by
  rw [Reading.next, hr]
  exact if_pos hcode

theorem next_shift {version code : UInt8} (hversion : 3 ≤ version) {r : Reading}
    (hr : r.pending = .nothing) (hcode : code = 4 ∨ code = 5) :
    r.next version code =
      ({ r with row := Row.ofNat (code.toNat - 3), lock := .lower }, .nothing) := by
  have hlate : ¬ version < 3 := UInt8.not_lt.mpr hversion
  rw [Reading.next, hr]
  rcases hcode with rfl | rfl
  all_goals
    simp only [hlate, if_false]
    rw [if_neg (by decide), if_neg (by decide), Reading.controlLate, if_neg (by decide)]
    simp only [hr]

theorem toNat_ofNat_place {place : Nat} (hplace : place < 26) :
    (UInt8.ofNat (place + 6)).toNat = place + 6 := by
  simp only [UInt8.toNat_ofNat']
  omega

/-- A place of a row that is neither the escape nor the newline. -/
theorem reads_place {version : UInt8} {r : Reading} (hr : r.pending = .nothing)
    {place : Nat} (hplace : place < 26) (hordinary : r.row = .punctuation → 2 ≤ place) :
    Reads version r [UInt8.ofNat (place + 6)] [character r.row place] { r with row := r.lock } := by
  have hcode := toNat_ofNat_place hplace
  have hlt : 5 < UInt8.ofNat (place + 6) := by
    rw [UInt8.lt_iff_toNat_lt, hcode]
    simp
  refine .yield ?_ (.done _)
  have hescape : ¬ (r.row = .punctuation ∧ place = 0) := by
    rintro ⟨hrow, hzero⟩
    have := hordinary hrow
    omega
  have hnewline : ¬ (r.row = .punctuation ∧ place = 1) := by
    rintro ⟨hrow, hone⟩
    have := hordinary hrow
    omega
  simp only [next_of_five_lt hr hlt, Reading.alphabetic, hcode, Nat.add_sub_cancel,
    if_neg hescape, if_neg hnewline]

theorem halves_or (c : UInt8) : c >>> 5 <<< 5 ||| c &&& 0x1f = c := by
  have hbits : ∀ b : BitVec 8, b >>> 5 <<< 5 ||| b &&& 0x1f#8 = b := by decide
  exact UInt8.toBitVec_inj.mp (hbits c.toBitVec)

/-- The escape and a number in two halves. -/
theorem reads_escape (version c : UInt8) (lock : Row) :
    Reads version { row := .punctuation, lock } [6, c >>> 5, c &&& 0x1f] [c]
      { row := lock, lock } := by
  have hescape : Reading.next version { row := .punctuation, lock } 6 =
      ({ row := lock, lock, pending := .escapeHigh }, .nothing) :=
    next_of_five_lt rfl (by decide)
  have hlow : Reading.next version { row := lock, lock, pending := .escapeLow (c >>> 5 <<< 5) }
      (c &&& 0x1f) = ({ row := lock, lock }, .character c) := by
    rw [Reading.next]
    simp only [halves_or]
  exact .silent hescape (.silent rfl (.yield hlow (.done _)))

theorem reads_newline (version : UInt8) (lock : Row) :
    Reads version { row := .punctuation, lock } [7] [newline] { row := lock, lock } :=
  .yield (next_of_five_lt rfl (by decide)) (.done _)

theorem character_lower {place : Nat} (hplace : place < 26) :
    character .lower place = UInt8.ofNat (97 + place) := by
  simp [character, row, Row.lower, lowerRow, hplace]

theorem character_upper {place : Nat} (hplace : place < 26) :
    character .upper place = UInt8.ofNat (65 + place) := by
  simp [character, row, Row.upper, upperRow, hplace]

theorem character_punctuation {place : Nat} {c : UInt8}
    (hfound : punctuationRow.idxOf? c = some place) :
    place < 26 ∧ character .punctuation place = c := by
  obtain ⟨hlt, hget, -⟩ := List.idxOf?_eq_some_iff.mp hfound
  refine ⟨hlt, ?_⟩
  simp only [character, row, Row.punctuation, List.getD_eq_getElem?_getD,
    List.getElem?_eq_getElem hlt, hget, Option.getD_some]

/-- A character has a place of its own, shares that of the newline, or needs
the escape. -/
theorem locate_cases {c : UInt8} (hspace : c ≠ space) :
    (∃ r place, locate c = (r, place) ∧ place < 26 ∧ character r place = c ∧ c ≠ lineFeed ∧
        (r = .punctuation → 2 ≤ place)) ∨
      (c = lineFeed ∧ locate c = (.punctuation, 1)) ∨
      (c ≠ lineFeed ∧ locate c = (.punctuation, 0)) := by
  by_cases hfeed : c = lineFeed
  · subst hfeed
    exact .inr (.inl ⟨rfl, by decide⟩)
  unfold locate
  split
  next hlower =>
    obtain ⟨hle, hge⟩ := hlower
    have hle' : 97 ≤ c.toNat := hle
    have hge' : c.toNat ≤ 122 := hge
    have hplace : c.toNat - 97 < 26 := by omega
    have hsum : 97 + (c.toNat - 97) = c.toNat := by omega
    refine .inl ⟨_, _, rfl, hplace, ?_, hfeed, fun hrow => absurd hrow (by decide)⟩
    rw [character_lower hplace, hsum, UInt8.ofNat_toNat]
  next =>
    split
    next hupper =>
      obtain ⟨hle, hge⟩ := hupper
      have hle' : 65 ≤ c.toNat := hle
      have hge' : c.toNat ≤ 90 := hge
      have hplace : c.toNat - 65 < 26 := by omega
      have hsum : 65 + (c.toNat - 65) = c.toNat := by omega
      refine .inl ⟨_, _, rfl, hplace, ?_, hfeed, fun hrow => absurd hrow (by decide)⟩
      rw [character_upper hplace, hsum, UInt8.ofNat_toNat]
    next =>
      cases hfound : punctuationRow.idxOf? c with
      | none => exact .inr (.inr ⟨hfeed, rfl⟩)
      | some place =>
          obtain ⟨hplace, hcharacter⟩ := character_punctuation hfound
          refine .inl ⟨_, _, rfl, hplace, hcharacter, hfeed, fun _ => ?_⟩
          -- The first two places of the row are the space and the line feed.
          match place, hcharacter with
          | 0, hcharacter => exact absurd hcharacter.symm hspace
          | 1, hcharacter => exact absurd hcharacter.symm hfeed
          | place + 2, _ => exact Nat.le_add_left 2 place

/-- A character is read where its row is selected, and the row falls back to
the lock. -/
theorem reads_spell (version : UInt8) {c : UInt8} (hspace : c ≠ space) (lock : Row) :
    Reads version { row := (locate c).1, lock } (spell c (locate c)) [readBack c]
      { row := lock, lock } := by
  rcases locate_cases hspace with
    ⟨r, place, hlocate, hplace, hcharacter, hfeed, hordinary⟩ | ⟨rfl, hlocate⟩ |
      ⟨hfeed, hlocate⟩
  · have hspell : spell c (r, place) = [UInt8.ofNat (place + 6)] := by
      rw [spell, if_neg]
      rintro ⟨hrow, hzero⟩
      have := hordinary hrow
      omega
    rw [hlocate, hspell, readBack, if_neg hfeed, ← hcharacter]
    exact reads_place rfl hplace hordinary
  · rw [hlocate]
    exact reads_newline version lock
  · rw [hlocate, readBack, if_neg hfeed]
    exact reads_escape version c lock

/-- The z-characters of a character lead back to the start. -/
theorem reads_character {version : UInt8} (hversion : 3 ≤ version) (c : UInt8) :
    Reads version {}
      (if c = space then [0]
        else
          let spot := locate c
          if spot.1 = .lower then spell c spot
          else UInt8.ofNat (spot.1.val + 3) :: spell c spot)
      [readBack c] {} := by
  split
  next hspace =>
    subst hspace
    exact .yield rfl (.done _)
  next hspace =>
    have hspell := reads_spell version hspace .lower
    generalize locate c = spot at hspell
    obtain ⟨r, place⟩ := spot
    match r with
    | 0 => exact hspell
    | 1 => exact .silent (next_shift hversion rfl (.inl rfl)) hspell
    | 2 => exact .silent (next_shift hversion rfl (.inr rfl)) hspell

/-! ## Texts -/

theorem next_filler (version : UInt8) {r : Reading} (hr : r.pending = .nothing) :
    ∃ r', r.next version filler = (r', .nothing) ∧ r'.pending = .nothing := by
  by_cases hearly : version < 3
  · refine ⟨{ r with row := r.lock + Row.ofNat 5, lock := r.lock + Row.ofNat 5 }, ?_, hr⟩
    simp [Reading.next, hr, filler, hearly, Reading.controlEarly]
  · exact ⟨_, next_shift (UInt8.not_lt.mp hearly) hr (.inr rfl), hr⟩

theorem reads_fillers (version : UInt8) (n : Nat) {r : Reading} (hr : r.pending = .nothing) :
    ∃ r', Reads version r (List.replicate n filler) [] r' := by
  induction n generalizing r with
  | zero => exact ⟨r, .done r⟩
  | succ n ih =>
      obtain ⟨r₁, hnext, hr₁⟩ := next_filler version hr
      obtain ⟨r', hreads⟩ := ih hr₁
      exact ⟨r', .silent hnext hreads⟩

theorem encode_of_three_le {version : UInt8} (hversion : 3 ≤ version) (text : List UInt8) :
    encode version text = encodeShifting text :=
  if_neg (UInt8.not_lt.mpr hversion)

theorem reads_filled {version : UInt8} (hversion : 3 ≤ version) (text : List UInt8) :
    ∃ r', Reads version {} (filled (encode version text)) (text.map readBack) r' := by
  rw [encode_of_three_le hversion]
  obtain ⟨r', hfillers⟩ := reads_fillers version
    (if (encodeShifting text).isEmpty then 3 else (3 - (encodeShifting text).length % 3) % 3)
    (r := {}) rfl
  have htext : Reads version {} (encodeShifting text) (text.map readBack) {} :=
    .flatMap (reads_character hversion) text
  exact ⟨r', by simpa [filled] using htext.append hfillers⟩

theorem lt_of_mem_spell {c : UInt8} {r : Row} {place : Nat} (hplace : place < 26) :
    ∀ z ∈ spell c (r, place), z < 32 := by
  have hhigh : c >>> 5 < 32 := by
    rw [UInt8.lt_iff_toNat_lt, UInt8.toNat_shiftRight]
    have := c.toNat_lt
    simp [Nat.shiftRight_eq_div_pow]
    omega
  have hlow : c &&& 0x1f < 32 := by
    rw [UInt8.lt_iff_toNat_lt, UInt8.toNat_and]
    exact Nat.lt_of_le_of_lt Nat.and_le_right (by decide)
  intro z hz
  rw [spell] at hz
  split at hz
  · simp only [List.mem_cons, List.not_mem_nil, or_false] at hz
    rcases hz with rfl | rfl | rfl
    · decide
    · exact hhigh
    · exact hlow
  · rw [List.mem_singleton.mp hz, UInt8.lt_iff_toNat_lt, toNat_ofNat_place hplace]
    change place + 6 < 32
    omega

theorem lt_of_mem_encodeShifting (text : List UInt8) : ∀ z ∈ encodeShifting text, z < 32 := by
  intro z hz
  obtain ⟨c, -, hz⟩ := List.mem_flatMap.mp hz
  split at hz
  next =>
    rw [List.mem_singleton.mp hz]
    decide
  next hspace =>
    obtain ⟨r, place, hlocate, hplace⟩ : ∃ r place, locate c = (r, place) ∧ place < 26 := by
      rcases locate_cases hspace with ⟨r, place, hlocate, hplace, -⟩ | ⟨-, hlocate⟩ | ⟨-, hlocate⟩
      · exact ⟨r, place, hlocate, hplace⟩
      · exact ⟨_, _, hlocate, by decide⟩
      · exact ⟨_, _, hlocate, by decide⟩
    have hspell := lt_of_mem_spell (c := c) (r := r) hplace
    simp only [hlocate] at hz
    split at hz
    · exact hspell z hz
    · rcases List.mem_cons.mp hz with rfl | hz
      · match r with
        | 0 | 1 | 2 => decide
      · exact hspell z hz

/-! ## The round trip -/

theorem decodeText_of_words
    {h : Header} {front : List UInt16} {last : UInt16} (hfront : ∀ w ∈ front, isEnd w = false)
    (hlast : isEnd last = true) {out : List UInt8} {r' : Reading}
    (hreads : Reads h.version {} ((front ++ [last]).flatMap codes) out r') {image : Image}
    {address : Nat} (hlaid : LaidOut image (front ++ [last]) address) (found : Array UInt8) :
    decodeText h address ⟨image, found⟩ =
      .ok (address + 2 * (front ++ [last]).length) ⟨image, found ++ out.toArray⟩ := by
  rw [decodeText, decodeNested_eq 3 hfront hlast hlaid,
    bind_ok (decodeCodes_of_reads hreads image found)]
  rfl

theorem decodeText_of_reads
    {h : Header} {zs : List UInt8} (hsmall : ∀ z ∈ zs, z < 32) {out : List UInt8} {r' : Reading}
    (hreads : Reads h.version {} (filled zs) out r') {image : Image} {address : Nat}
    (hlaid : LaidOut image (pack zs) address) (found : Array UInt8) :
    decodeText h address ⟨image, found⟩ =
      .ok (address + 2 * (pack zs).length) ⟨image, found ++ out.toArray⟩ := by
  obtain ⟨front, last, hpack, hfront, hlast, hcodes⟩ := exists_pack_eq hsmall
  rw [← hcodes] at hreads
  rw [hpack] at hreads hlaid ⊢
  exact decodeText_of_words hfront hlast hreads hlaid found

theorem decodeText_image
    {h : Header} (hversion : 3 ≤ h.version) (text : List UInt8) {image : Image} {address : Nat}
    (hlaid : LaidOut image (pack (encode h.version text)) address) (found : Array UInt8) :
    decodeText h address ⟨image, found⟩ =
      .ok (address + 2 * (pack (encode h.version text)).length)
        ⟨image, found ++ (text.map readBack).toArray⟩ := by
  have hsmall : ∀ z ∈ encode h.version text, z < 32 := by
    rw [encode_of_three_le hversion]
    exact lt_of_mem_encodeShifting text
  obtain ⟨r', hreads⟩ := reads_filled hversion text
  exact decodeText_of_reads hsmall hreads hlaid found

/-- A string that is read from an image is read from every memory that shows
it. -/
theorem exists_decodeText
    {M : Type} [AddressSpace M] {R : M → Image → Prop} (hR : MemorySim True R)
    {m : M} {image : Image} (hm : R m image) {h : Header} {address after : Nat}
    {found text : Array UInt8}
    (himage : decodeText h address ⟨image, found⟩ = .ok after ⟨image, text⟩) :
    ∃ m', R m' image ∧ decodeText h address ⟨m, found⟩ = .ok after ⟨m', text⟩ := by
  have hsim := (DecodeSim.sameText hR).decodeNested h 4 address
  have hstart : SameText R ⟨m, found⟩ ⟨image, found⟩ := ⟨hm, rfl⟩
  unfold decodeText at himage ⊢
  cases hdecoded : decodeNested h 4 address ⟨m, found⟩ with
  | ok after d =>
      obtain ⟨m', text'⟩ := d
      obtain ⟨d', hd', hmemory, rfl⟩ := hsim.ok hstart hdecoded
      rw [himage] at hd'
      cases hd'
      exact ⟨m', hmemory, rfl⟩
  | error e d =>
      obtain ⟨d', hd', -⟩ := hsim.error trivial hstart hdecoded
      rw [himage] at hd'
      cases hd'

theorem exists_decodeText_error
    {M : Type} [AddressSpace M] {R : M → Image → Prop} (hR : MemorySim True R)
    {m : M} {image : Image} (hm : R m image) {h : Header} {address : Nat} {found : Array UInt8}
    {e : Fault} {d : Decoding Image} (himage : decodeText h address ⟨image, found⟩ = .error e d) :
    ∃ d', decodeText h address ⟨m, found⟩ = .error e d' := by
  have hstart : SameText R ⟨m, found⟩ ⟨image, found⟩ := ⟨hm, rfl⟩
  have houtcome := (((DecodeSim.sameText hR).decodeNested h 4 address).call hstart).1
  unfold decodeText at himage ⊢
  rw [himage] at houtcome
  cases hdecoded : decodeNested h 4 address ⟨m, found⟩ with
  | ok after d' =>
      rw [hdecoded] at houtcome
      cases houtcome
  | error e' d' =>
      rw [hdecoded] at houtcome
      cases houtcome
      exact ⟨d', rfl⟩

/-- Encoded text is read back, wherever it stands in a memory that shows an
image and whatever was found before it. -/
theorem decodeText_pack_encode
    {M : Type} [AddressSpace M] {R : M → Image → Prop} (hR : MemorySim True R)
    {m : M} {image : Image} (hm : R m image) {h : Header} (hversion : 3 ≤ h.version)
    (text : List UInt8) {address : Nat}
    (hlaid : LaidOut image (pack (encode h.version text)) address) (found : Array UInt8) :
    ∃ m', R m' image ∧
      decodeText h address ⟨m, found⟩ =
        .ok (address + 2 * (pack (encode h.version text)).length)
          ⟨m', found ++ (text.map readBack).toArray⟩ :=
  exists_decodeText hR hm (decodeText_image hversion text hlaid found)

theorem laidOut_behind (front : List UInt8) (words : List UInt16) :
    LaidOut ⟨(front ++ words.flatMap fun w => [highByte w, lowByte w]).toArray⟩ words
      front.length := by
  induction words generalizing front with
  | nil =>
      intro i w hw
      simp at hw
  | cons w words ih =>
      intro i w' hw'
      cases i with
      | zero =>
          cases hw'
          simp
      | succ i =>
          have hrest := ih (front ++ [highByte w, lowByte w]) i w' hw'
          simp only [List.length_append, List.length_cons, List.length_nil,
            List.append_assoc] at hrest
          rw [show front.length + 2 * (i + 1) = front.length + (0 + 1 + 1) + 2 * i by omega]
          exact hrest

/-- A text with a shift, a line feed and an escape, behind another byte. -/
theorem decodeText_pack_encode_mixed :
    let h : Header := { (default : Header) with version := 5 }
    let text : List UInt8 := [72, 105, 10, 64]
    let words := pack (encode h.version text)
    let image : Image := ⟨([0] ++ words.flatMap fun w => [highByte w, lowByte w]).toArray⟩
    words.length = 3 ∧ LaidOut image words 1 ∧
      ∃ m', m' = image ∧
        decodeText h 1 ⟨image, #[62]⟩ =
          .ok (1 + 2 * words.length) ⟨m', #[62] ++ #[72, 105, 13, 64]⟩ := by
  intro h text words image
  have hlaid : LaidOut image words 1 := laidOut_behind [0] words
  exact ⟨by decide, hlaid,
    decodeText_pack_encode MemorySim.refl rfl (by decide) text hlaid #[62]⟩

end ZMachine.ZString
