import ZMachine.Proofs.ZString.DictionaryForm

/-!
# Locking shifts

In versions 1 and 2 a shift counts from the row that is locked, so the two
sides have to agree on the lock.  After a shift for one character the encoder
goes on as if the lower row were locked, while the decoder falls back to the
row that is.  If that is another one they part there, and the next character
that is no blank is read from a wrong row.

`KeepsLock` says of a text that this never happens.  Such a text is read back,
and no other text is.
-/

namespace ZMachine.ZString

/-- A shift for one character is made only while the lower row is locked, or
where nothing but blanks follows. -/
def KeepsLock (lock : Row) : List UInt8 → Prop
  | [] => True
  | c :: rest =>
    if c = space ∨ (locate c).1 = lock then KeepsLock lock rest
    else if upcomingRow rest = (locate c).1 then KeepsLock (locate c).1 rest
    else if lock = .lower then KeepsLock .lower rest
    else ∀ b ∈ rest, b = space

instance decidableKeepsLock : (lock : Row) → (text : List UInt8) → Decidable (KeepsLock lock text)
  | _, [] => .isTrue trivial
  | lock, c :: rest =>
    have := decidableKeepsLock lock rest
    have := decidableKeepsLock (locate c).1 rest
    have := decidableKeepsLock .lower rest
    inferInstanceAs (Decidable (if c = space ∨ (locate c).1 = lock then _ else
      if upcomingRow rest = (locate c).1 then _ else if lock = .lower then _ else _))

/-- Between two characters while a row is locked. -/
def Reading.locked (lock : Row) : Reading := { row := lock, lock }

/-! ## Shifts -/

/-- The shift in front of a character, if it needs one. -/
def shifts (believed : Row) (c : UInt8) (rest : List UInt8) : List UInt8 :=
  if (locate c).1 = believed then []
  else if upcomingRow rest = (locate c).1 then [UInt8.ofNat (((locate c).1 - believed).val + 3)]
  else [UInt8.ofNat (((locate c).1 - believed).val + 1)]

/-- The row that the encoder takes to be locked after a character. -/
def believedAfter (believed : Row) (c : UInt8) (rest : List UInt8) : Row :=
  if (locate c).1 = believed then believed
  else if upcomingRow rest = (locate c).1 then (locate c).1
  else .lower

/-- The row that is locked after a character. -/
def lockAfter (lock believed : Row) (c : UInt8) (rest : List UInt8) : Row :=
  if (locate c).1 ≠ believed ∧ upcomingRow rest = (locate c).1 then
    lock + ((locate c).1 - believed)
  else lock

theorem shift_ne_zero {r lock : Row} (h : r ≠ lock) : r - lock ≠ 0 := by
  revert r lock
  decide

theorem add_shift (lock r : Row) : lock + (r - lock) = r := by
  revert lock r
  decide

section

variable {version : UInt8} (hversion : version < 3)

include hversion

theorem next_once (lock : Row) {shift : Row} (hshift : shift ≠ 0) :
    (Reading.locked lock).next version (UInt8.ofNat (shift.val + 1)) =
      ({ row := lock + shift, lock }, .nothing) := by
  match shift with
  | 0 => exact absurd rfl hshift
  | 1 => simp [Reading.locked, Reading.next, hversion, Reading.controlEarly]; rfl
  | 2 => simp [Reading.locked, Reading.next, hversion, Reading.controlEarly]; rfl

theorem next_lock (lock : Row) {shift : Row} (hshift : shift ≠ 0) :
    (Reading.locked lock).next version (UInt8.ofNat (shift.val + 3)) =
      (.locked (lock + shift), .nothing) := by
  match shift with
  | 0 => exact absurd rfl hshift
  | 1 => simp [Reading.locked, Reading.next, hversion, Reading.controlEarly]; rfl
  | 2 => simp [Reading.locked, Reading.next, hversion, Reading.controlEarly]; rfl

omit hversion in
theorem encodeLocking_cons {c : UInt8} (hspace : c ≠ space) (believed : Row) (rest : List UInt8) :
    encodeLocking believed (c :: rest) = shifts believed c rest ++
      (spell c (locate c) ++ encodeLocking (believedAfter believed c rest) rest) := by
  rw [encodeLocking, if_neg hspace, shifts, believedAfter]
  by_cases hrow : (locate c).1 = believed
  · simp [hrow]
  · by_cases hnext : upcomingRow rest = (locate c).1 <;> simp [hrow, hnext]

omit hversion in
theorem keepsLock_cons {c : UInt8} (hspace : c ≠ space) (lock : Row) (rest : List UInt8) :
    KeepsLock lock (c :: rest) ↔
      if lockAfter lock lock c rest = believedAfter lock c rest then
        KeepsLock (believedAfter lock c rest) rest
      else ∀ b ∈ rest, b = space := by
  rw [KeepsLock, lockAfter, believedAfter, add_shift]
  by_cases hrow : (locate c).1 = lock
  · simp [hrow]
  · by_cases hnext : upcomingRow rest = (locate c).1 <;> simp [hspace, hrow, hnext]

/-- The shifts before a character select its row, or one that is as far from
it as the two locks are from each other. -/
theorem reads_shifts (lock believed : Row) (c : UInt8) (rest : List UInt8) :
    Reads version (.locked lock) (shifts believed c rest) []
      { row := lock + ((locate c).1 - believed), lock := lockAfter lock believed c rest } := by
  rw [shifts, lockAfter]
  by_cases hrow : (locate c).1 = believed
  · have hstay : ∀ lock r : Row, lock + (r - r) = lock := by decide
    rw [hrow, hstay, if_pos rfl, if_neg fun h => h.1 rfl]
    exact .done _
  have hshift := shift_ne_zero hrow
  rw [if_neg hrow]
  by_cases hnext : upcomingRow rest = (locate c).1
  · rw [if_pos hnext, if_pos ⟨hrow, hnext⟩]
    exact .silent (next_lock hversion lock hshift) (.done _)
  · rw [if_neg hnext, if_neg fun h => hnext h.2]
    exact .silent (next_once hversion lock hshift) (.done _)

/-- One character while both sides agree on the lock. -/
theorem reads_agreed {c : UInt8} (hspace : c ≠ space) (lock : Row) (rest : List UInt8) :
    Reads version (.locked lock) (shifts lock c rest ++ spell c (locate c)) [readBack c]
      (.locked (lockAfter lock lock c rest)) := by
  have hshifts := reads_shifts hversion lock lock c rest
  rw [add_shift] at hshifts
  exact hshifts.append (reads_spell version hspace _)

/-! ## Texts that keep the lock -/

omit hversion in
theorem reads_blanks {text : List UInt8} (hblank : ∀ b ∈ text, b = space) (lock believed : Row) :
    Reads version (.locked lock) (encodeLocking believed text) (text.map readBack)
      (.locked lock) := by
  induction text with
  | nil => exact .done _
  | cons c rest ih =>
      obtain ⟨rfl, hrest⟩ := List.forall_mem_cons.mp hblank
      exact .yield rfl (ih hrest)

theorem reads_of_keepsLock {lock : Row} {text : List UInt8} (hkeeps : KeepsLock lock text) :
    ∃ lock', Reads version (.locked lock) (encodeLocking lock text) (text.map readBack)
      (.locked lock') := by
  induction text generalizing lock with
  | nil => exact ⟨lock, .done _⟩
  | cons c rest ih =>
      by_cases hspace : c = space
      · subst hspace
        obtain ⟨lock', hrest⟩ := ih (by simpa [KeepsLock] using hkeeps)
        exact ⟨lock', .yield rfl hrest⟩
      · have hhere := reads_agreed hversion hspace lock rest
        rw [keepsLock_cons hspace] at hkeeps
        rw [encodeLocking_cons hspace, ← List.append_assoc]
        split at hkeeps
        next hagree =>
          rw [← hagree] at hkeeps ⊢
          obtain ⟨lock', hrest⟩ := ih hkeeps
          exact ⟨lock', hhere.append hrest⟩
        next => exact ⟨_, hhere.append (reads_blanks hkeeps _ _)⟩

end

/-! ## Texts that do not -/

/-- What the z-characters yield up to some point is no beginning of the text,
or what all of them yield is not the text. -/
def Misreads (version : UInt8) (r : Reading) (zs text : List UInt8) : Prop :=
  ∃ front back out r', zs = front ++ back ∧ Reads version r front out r' ∧
    (¬ out <+: text ∨ back = [] ∧ out ≠ text)

section

variable {version : UInt8} {r r' : Reading} {zs zs' out text : List UInt8}

theorem Reads.misreads (h : Reads version r zs out r') (h' : Misreads version r' zs' text) :
    Misreads version r (zs ++ zs') (out ++ text) := by
  obtain ⟨front, back, out', r'', rfl, hreads, hwrong⟩ := h'
  refine ⟨zs ++ front, back, out ++ out', r'', by simp, h.append hreads, ?_⟩
  simpa [List.prefix_append_right_inj] using hwrong

/-- A single character that comes out wrong. -/
theorem Reads.misreads_cons {b c : UInt8} (h : Reads version r zs [b] r') (hne : b ≠ c) :
    Misreads version r (zs ++ zs') (c :: text) :=
  ⟨zs, zs', [b], r', rfl, h, .inl (by simp [hne])⟩

end

theorem spell_eq_cons (c : UInt8) (spot : Row × Nat) :
    spell c spot = UInt8.ofNat (spot.2 + 6) ::
      if spot.1 = .punctuation ∧ spot.2 = 0 then [c >>> 5, c &&& 0x1f] else [] := by
  obtain ⟨r, place⟩ := spot
  by_cases hescape : r = .punctuation ∧ place = 0
  · obtain ⟨rfl, rfl⟩ := hescape
    rfl
  · simp [spell, hescape]

theorem locate_character {r : Row} {place : Nat} (hplace : place < 26)
    (hordinary : r = .punctuation → 2 ≤ place) : locate (character r place) = (r, place) := by
  have hall : ∀ (r : Row) (place : Fin 26), (r = .punctuation → 2 ≤ place.val) →
      locate (character r place) = (r, place.val) := by
    decide
  exact hall r ⟨place, hplace⟩ hordinary

/-- Another row has another character at the same place. -/
theorem character_ne_readBack {c : UInt8} {r : Row} (hrow : r ≠ (locate c).1)
    (hordinary : r = .punctuation → 2 ≤ (locate c).2) :
    character r (locate c).2 ≠ readBack c := by
  intro heq
  have hlocate := locate_character (locate_snd_lt c) hordinary
  rw [heq, readBack] at hlocate
  split at hlocate
  next hfeed =>
    subst hfeed
    have hplace : (locate newline).2 = (locate lineFeed).2 := (Prod.ext_iff.mp hlocate).2
    exact absurd hplace (by decide)
  next => exact hrow (congrArg Prod.fst hlocate).symm

theorem newline_ne_readBack {c : UInt8} (hrow : (locate c).1 ≠ .punctuation) :
    newline ≠ readBack c := by
  rintro heq
  rw [readBack] at heq
  split at heq
  next hfeed =>
    subst hfeed
    exact hrow (by decide)
  next =>
    subst heq
    exact hrow (by decide)

theorem toNat_halves (a : UInt8) {b : UInt8} (hb : b < 32) :
    (a <<< 5 ||| b).toNat = a.toNat % 8 * 32 + b.toNat := by
  have hb' : b.toNat < 32 := hb
  have hor := Nat.shiftLeft_add_eq_or_of_lt (i := 5) (b := b.toNat) hb' (a.toNat % 8)
  have hshift : a.toNat <<< 5 % 256 = (a.toNat % 8) <<< 5 := by
    simp only [Nat.shiftLeft_eq]
    omega
  rw [UInt8.toNat_or, UInt8.toNat_shiftLeft]
  simp only [UInt8.toNat_ofNat, Nat.reduceMod, Nat.reducePow] at hshift ⊢
  rw [hshift, ← hor, Nat.shiftLeft_eq]

/-- Two z-characters that are taken for the halves of an escape do not spell
the letter in whose place the escape is. -/
theorem halves_ne_readBack {a b c : UInt8} (hb : b < 32) (hab : b = 1 → a = 6)
    (hrow : (locate c).1 ≠ .punctuation) (hplace : (locate c).2 = 0) :
    a <<< 5 ||| b ≠ readBack c := by
  have hfirst : ∀ r : Row, r ≠ .punctuation → character r 0 = 97 ∨ character r 0 = 65 := by
    decide
  have hletter : readBack c = 97 ∨ readBack c = 65 := by
    have hspace : c ≠ space := by
      rintro rfl
      exact hrow (by decide)
    rcases locate_cases hspace with ⟨r, place, hlocate, -, rfl, hfeed, -⟩ | ⟨-, hlocate⟩ |
      ⟨-, hlocate⟩
    · rw [hlocate] at hrow hplace
      obtain rfl : place = 0 := hplace
      rw [readBack, if_neg hfeed]
      exact hfirst r hrow
    · rw [hlocate] at hrow
      exact absurd rfl hrow
    · rw [hlocate] at hrow
      exact absurd rfl hrow
  intro heq
  have hsum := toNat_halves a hb
  have hb' : b.toNat < 32 := hb
  have hone : b = 1 := by
    apply UInt8.toNat_inj.mp
    rcases hletter with hletter | hletter
    all_goals
      rw [heq, hletter] at hsum
      simp only [UInt8.reduceToNat] at hsum ⊢
      omega
  rw [hone, hab hone] at heq
  rw [← heq] at hletter
  revert hletter
  decide

/-- A character whose row is not the selected one comes out wrong, whatever
follows. -/
theorem misreads_spell (version : UInt8) {c : UInt8} {r : Reading} (hr : r.pending = .nothing)
    (hrow : r.row ≠ (locate c).1) {zs : List UInt8} (hsmall : ∀ z ∈ zs, z < 32)
    (hhalves : ∀ a tail, zs = a :: 1 :: tail → a = 6) (text : List UInt8) :
    Misreads version r (spell c (locate c) ++ zs) (readBack c :: text) := by
  rw [spell_eq_cons]
  by_cases hordinary : r.row = .punctuation → 2 ≤ (locate c).2
  · exact (reads_place hr (locate_snd_lt c) hordinary).misreads_cons
      (character_ne_readBack hrow hordinary)
  obtain ⟨hpunctuation, hlow⟩ : r.row = .punctuation ∧ (locate c).2 < 2 := by
    simpa using hordinary
  have hother : (locate c).1 ≠ .punctuation := fun h => hrow (hpunctuation.trans h.symm)
  rw [if_neg fun h => hother h.1]
  obtain hplace | hplace : (locate c).2 = 0 ∨ (locate c).2 = 1 := by omega
  all_goals rw [hplace]
  · have hescape : r.next version 6 =
        ({ r with row := r.lock, pending := .escapeHigh }, .nothing) := by
      simp [next_of_five_lt hr (by decide : (5 : UInt8) < 6), Reading.alphabetic, hpunctuation]
    rcases zs with _ | ⟨a, _ | ⟨b, tail⟩⟩
    · exact ⟨[6], [], [], _, rfl, .silent hescape (.done _), .inr ⟨rfl, by simp⟩⟩
    · exact ⟨[6, a], [], [], _, rfl, .silent hescape (.silent rfl (.done _)),
        .inr ⟨rfl, by simp⟩⟩
    · have hreads : Reads version r [6, a, b] [a <<< 5 ||| b] { r with row := r.lock } :=
        .silent hescape (.silent rfl (.yield (by simp [Reading.next, hr]) (.done _)))
      refine hreads.misreads_cons (halves_ne_readBack (hsmall b (by simp)) ?_ hother hplace)
      rintro rfl
      exact hhalves a tail rfl
  · have hreads : Reads version r [7] [newline] { r with row := r.lock } :=
      .yield (by simp [next_of_five_lt hr (by decide : (5 : UInt8) < 7), Reading.alphabetic,
        hpunctuation]) (.done _)
    exact hreads.misreads_cons (newline_ne_readBack hother)

/-! The z-character 1 stands only in the escape of a character. -/

theorem place_code_ne_one {place : Nat} (hplace : place < 26) : UInt8.ofNat (place + 6) ≠ 1 := by
  intro heq
  have hcode := toNat_ofNat_place hplace
  rw [heq] at hcode
  simp only [UInt8.reduceToNat] at hcode
  omega

theorem ne_one_of_mem_shifts (believed : Row) (c : UInt8) (rest : List UInt8) :
    ∀ z ∈ shifts believed c rest, z ≠ 1 := by
  have hcodes : ∀ shift : Row, shift ≠ 0 →
      UInt8.ofNat (shift.val + 3) ≠ 1 ∧ UInt8.ofNat (shift.val + 1) ≠ 1 := by
    decide
  intro z hz
  rw [shifts] at hz
  split at hz
  next => simp at hz
  next hrow =>
    have hshift := hcodes _ (shift_ne_zero hrow)
    split at hz
    · rw [List.mem_singleton.mp hz]
      exact hshift.1
    · rw [List.mem_singleton.mp hz]
      exact hshift.2

theorem head_code_ne_one {believed : Row} {text : List UInt8} {n : Nat} {a : UInt8}
    {tail : List UInt8}
    (h : encodeLocking believed text ++ List.replicate n filler = a :: tail) : a ≠ 1 := by
  cases text with
  | nil =>
      have ha : a ∈ List.replicate n filler := by
        rw [encodeLocking, List.nil_append] at h
        simp [h]
      rw [List.eq_of_mem_replicate ha]
      decide
  | cons c rest =>
      by_cases hspace : c = space
      · rw [encodeLocking, if_pos hspace] at h
        rw [← (List.cons.inj h).1]
        decide
      · rw [encodeLocking_cons hspace, spell_eq_cons] at h
        cases hshifts : shifts believed c rest with
        | nil =>
            rw [hshifts] at h
            rw [← (List.cons.inj h).1]
            exact place_code_ne_one (locate_snd_lt c)
        | cons z zs =>
            rw [hshifts] at h
            rw [← (List.cons.inj h).1]
            exact ne_one_of_mem_shifts believed c rest z (by simp [hshifts])

theorem eq_six_of_second_code {believed : Row} {text : List UInt8} {n : Nat} {a : UInt8}
    {tail : List UInt8}
    (h : encodeLocking believed text ++ List.replicate n filler = a :: 1 :: tail) : a = 6 := by
  cases text with
  | nil =>
      have hone : 1 ∈ List.replicate n filler := by
        rw [encodeLocking, List.nil_append] at h
        simp [h]
      exact absurd (List.eq_of_mem_replicate hone) (by decide)
  | cons c rest =>
      by_cases hspace : c = space
      · rw [encodeLocking, if_pos hspace] at h
        exact absurd rfl (head_code_ne_one (List.cons.inj h).2)
      rw [encodeLocking_cons hspace, spell_eq_cons] at h
      have hone : shifts believed c rest = [] ∨ ∃ z, shifts believed c rest = [z] := by
        rw [shifts]
        split
        · exact .inl rfl
        · split <;> exact .inr ⟨_, rfl⟩
      obtain hshifts | ⟨z, hshifts⟩ := hone
      all_goals rw [hshifts] at h
      · obtain ⟨hhead, hrest⟩ := List.cons.inj h
        split at hrest
        next hescape =>
          rw [← hhead, hescape.2]
          rfl
        next => exact absurd rfl (head_code_ne_one hrest)
      · obtain ⟨hcode, -⟩ := List.cons.inj (List.cons.inj h).2
        exact absurd hcode (place_code_ne_one (locate_snd_lt c))

/-! ### Going astray -/

section

variable {version : UInt8} (hversion : version < 3)

include hversion

theorem misreads_of_ne {lock believed : Row} (hne : lock ≠ believed) {text : List UInt8}
    (htext : ¬ ∀ b ∈ text, b = space) (n : Nat) :
    Misreads version (.locked lock) (encodeLocking believed text ++ List.replicate n filler)
      (text.map readBack) := by
  induction text with
  | nil => simp at htext
  | cons c rest ih =>
      by_cases hspace : c = space
      · subst hspace
        have hblank : Reads version (.locked lock) [0] [space] (.locked lock) :=
          .yield rfl (.done _)
        exact hblank.misreads (ih (by simpa using htext))
      have hapart : ∀ lock believed r : Row, lock ≠ believed → lock + (r - believed) ≠ r := by
        decide
      rw [encodeLocking_cons hspace, List.append_assoc, List.append_assoc]
      refine (reads_shifts hversion lock believed c rest).misreads ?_
      refine misreads_spell version rfl (hapart _ _ _ hne) ?_ (fun _ _ => eq_six_of_second_code) _
      intro z hz
      rcases List.mem_append.mp hz with hz | hz
      · exact lt_of_mem_encodeLocking _ _ z hz
      · rw [List.eq_of_mem_replicate hz]
        decide

theorem misreads_of_not_keepsLock {lock : Row} {text : List UInt8}
    (hloses : ¬ KeepsLock lock text) (n : Nat) :
    Misreads version (.locked lock) (encodeLocking lock text ++ List.replicate n filler)
      (text.map readBack) := by
  induction text generalizing lock with
  | nil => exact absurd trivial hloses
  | cons c rest ih =>
      by_cases hspace : c = space
      · subst hspace
        have hblank : Reads version (.locked lock) [0] [space] (.locked lock) :=
          .yield rfl (.done _)
        exact hblank.misreads (ih (by simpa [KeepsLock] using hloses))
      rw [keepsLock_cons hspace] at hloses
      rw [encodeLocking_cons hspace, ← List.append_assoc, List.append_assoc]
      refine (reads_agreed hversion hspace lock rest).misreads ?_
      split at hloses
      next hagree =>
        rw [hagree]
        exact ih hloses
      next hapart => exact misreads_of_ne hversion hapart hloses n

end

/-! ## Which texts are read back -/

section

variable {h : Header} (hversion : h.version < 3) {text : List UInt8} {image : Image}
variable {address : Nat} (hlaid : LaidOut image (pack (encode h.version text)) address)

include hversion

theorem filled_encode_early (text : List UInt8) :
    ∃ n, filled (encode h.version text) =
      encodeLocking .lower text ++ List.replicate n filler := by
  rw [encode, if_pos hversion]
  exact ⟨_, rfl⟩

include hlaid

theorem decodeText_of_keepsLock (hkeeps : KeepsLock .lower text) (found : Array UInt8) :
    decodeText h address ⟨image, found⟩ =
      .ok (address + 2 * (pack (encode h.version text)).length)
        ⟨image, found ++ (text.map readBack).toArray⟩ := by
  obtain ⟨n, hfilled⟩ := filled_encode_early hversion text
  obtain ⟨lock, htext⟩ := reads_of_keepsLock hversion hkeeps
  obtain ⟨r', hfillers⟩ := reads_fillers h.version n (r := .locked lock) rfl
  have hreads := htext.append hfillers
  rw [← hfilled, List.append_nil] at hreads
  exact decodeText_of_reads (lt_of_mem_encode h.version text) hreads hlaid found

theorem keepsLock_of_decodeText {found : Array UInt8} {after : Nat} {d : Decoding Image}
    (hdecode : decodeText h address ⟨image, found⟩ = .ok after d)
    (htext : d.text = found ++ (text.map readBack).toArray) : KeepsLock .lower text := by
  by_contra hloses
  obtain ⟨n, hfilled⟩ := filled_encode_early hversion text
  obtain ⟨front, back, out, r, hsplit, hreads, hwrong⟩ :=
    misreads_of_not_keepsLock hversion hloses n
  obtain ⟨words, last, hpack, hwords, hlast, hcodes⟩ :=
    exists_pack_eq (lt_of_mem_encode h.version text)
  rw [hpack] at hlaid hcodes
  rw [decodeText, decodeNested_eq 3 hwords hlast hlaid] at hdecode
  obtain ⟨r', d, hall, hend⟩ := bind_eq_ok_iff.mp hdecode
  cases hend
  have hfront : decodeCodes h (fun target => discard (decodeNested h 3 target)) {} front
      ⟨image, found⟩ = .ok r ⟨image, found ++ out.toArray⟩ :=
    decodeCodes_of_reads hreads image found
  rw [hcodes, hfilled, hsplit, decodeCodes_append] at hall
  replace hall := (bind_ok hfront).symm.trans hall
  rcases hwrong with hwrong | ⟨rfl, hwrong⟩
  · have hexpand := fun image text target =>
      ((decodeSim_extends image text).decodeNested h 3 target).discard
    obtain ⟨-, more, hmore⟩ := decodeCodes_extends hexpand hall
    rw [htext, Array.append_assoc] at hmore
    have hlists := congrArg Array.toList (Array.append_right_inj found |>.mp hmore)
    exact hwrong ⟨more.toList, by simpa using hlists.symm⟩
  · cases hall
    have hlists := congrArg Array.toList (Array.append_right_inj found |>.mp htext)
    exact hwrong (by simpa using hlists)

end

/-- A text of version 1 or 2 is read back, wherever it stands in a memory that
shows an image, exactly if it keeps the lock. -/
theorem decodeText_pack_encode_iff_keepsLock
    {M : Type} [AddressSpace M] {R : M → Image → Prop} (hR : MemorySim True R)
    {m : M} {image : Image} (hm : R m image) {h : Header} (hversion : h.version < 3)
    (text : List UInt8) {address : Nat}
    (hlaid : LaidOut image (pack (encode h.version text)) address) (found : Array UInt8) :
    (∃ m', R m' image ∧
      decodeText h address ⟨m, found⟩ =
        .ok (address + 2 * (pack (encode h.version text)).length)
          ⟨m', found ++ (text.map readBack).toArray⟩) ↔
      KeepsLock .lower text := by
  constructor
  · rintro ⟨m', -, hdecode⟩
    have hstart : SameText R ⟨m, found⟩ ⟨image, found⟩ := ⟨hm, rfl⟩
    obtain ⟨d, hd, -, htext⟩ :=
      ((DecodeSim.sameText hR).decodeNested h 4 address).ok hstart hdecode
    exact keepsLock_of_decodeText hversion hlaid hd htext.symm
  · intro hkeeps
    exact exists_decodeText hR hm (decodeText_of_keepsLock hversion hlaid hkeeps found)

/-- Two capitals lock their row, the full stop after them is shifted to, and the
small letter after that is not read back. -/
theorem decodeText_pack_encode_iff_keepsLock_stop :
    let h : Header := { (default : Header) with version := 2 }
    let text : List UInt8 := [65, 66, 46, 99]
    let words := pack (encode h.version text)
    let image : Image := ⟨([0] ++ words.flatMap fun w => [highByte w, lowByte w]).toArray⟩
    encode h.version text = [4, 6, 7, 2, 18, 8] ∧ LaidOut image words 1 ∧
      ¬ KeepsLock .lower text ∧
      ¬ ∃ m', m' = image ∧
        decodeText h 1 ⟨image, #[]⟩ =
          .ok (1 + 2 * words.length) ⟨m', #[] ++ #[65, 66, 46, 99]⟩ := by
  intro h text words image
  have hlaid : LaidOut image words 1 := laidOut_behind [0] words
  have hiff := decodeText_pack_encode_iff_keepsLock MemorySim.refl rfl (by decide) text hlaid #[]
  have hloses : ¬ KeepsLock .lower text := by decide
  exact ⟨by decide, hlaid, hloses, fun hdecode => hloses (hiff.mp hdecode)⟩

end ZMachine.ZString
