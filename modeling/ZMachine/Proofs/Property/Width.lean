import ZMachine.Proofs.Logged
import ZMachine.Proofs.Property.Table

/-!
# The bytes of a property's value

A property is read and written as a byte or as a word, and the header says
which of them apart from the size of the data.  For a header of one byte the two
agree: a byte is taken exactly if the data is one byte.  A header of two bytes
always means a word, also where it gives the size 1.  The value of such a
property reaches one byte beyond its data, into the header of the next one.
`LongByte` names this case; in every other case the value lies inside the data.

Nothing is assumed of the table, so the header may be any that a search finds.
-/

namespace ZMachine.Property

variable {h : Header} {image image' : Image} {object property : UInt16} {e : Entry} {a : Nat}

/-! ## Headers as they stand in an image -/

def entryAt (h : Header) (image : Image) (a : Nat) : Entry :=
  let b := image.byteAt a
  let number := (b &&& h.propertyMask).toUInt16
  if isLong h b then
    { address := a, number, data := a + 2, size := longSize h (image.byteAt (a + 1))
      isByte := false }
  else
    { address := a, number, data := a + 1, size := shortSize h b, isByte := shortSize h b = 1 }

theorem readEntry_ok (hread : (readEntry h a : MemoryM Image Entry) image = .ok e image') :
    e = entryAt h image a ∧ image' = image := by
  unfold readEntry at hread
  obtain ⟨b, image₁, hbyte, hrest⟩ := bind_eq_ok_iff.mp hread
  obtain ⟨rfl, rfl⟩ := Image.readByte_ok hbyte
  unfold entryAt
  by_cases hlong : isLong h (image₁.byteAt a) = true
  · simp only [hlong, if_true] at hrest ⊢
    obtain ⟨size, image₂, hsize, hpure⟩ := bind_eq_ok_iff.mp hrest
    obtain ⟨rfl, rfl⟩ := Image.readByte_ok hsize
    cases hpure
    exact ⟨rfl, rfl⟩
  · simp only [hlong, Bool.false_eq_true, if_false] at hrest ⊢
    cases hrest
    exact ⟨rfl, rfl⟩

theorem descend_ok {fuel : Nat}
    (hwalk : (descend h property fuel a : MemoryM Image Entry) image = .ok e image') :
    (∃ place, e = entryAt h image place) ∧ image' = image := by
  induction fuel generalizing a with
  | zero =>
      obtain ⟨n, image₁, -, hthrow⟩ := bind_eq_ok_iff.mp hwalk
      cases hthrow
  | succ fuel ih =>
      obtain ⟨entry, image₁, hread, hrest⟩ := bind_eq_ok_iff.mp hwalk
      obtain ⟨rfl, rfl⟩ := readEntry_ok hread
      split at hrest
      · exact ih hrest
      · cases hrest
        exact ⟨⟨a, rfl⟩, rfl⟩

theorem first_ok (hfirst : (first h object : MemoryM Image Nat) image = .ok a image') :
    image' = image := by
  obtain ⟨table, image₁, htable, hrest⟩ := bind_eq_ok_iff.mp hfirst
  obtain ⟨w, image₂, hword, hpure⟩ := bind_eq_ok_iff.mp htable
  obtain ⟨-, rfl⟩ := Image.readWord_ok hword
  cases hpure
  obtain ⟨words, image₃, hwords, hpure⟩ := bind_eq_ok_iff.mp hrest
  obtain ⟨-, rfl⟩ := Image.readByte_ok hwords
  cases hpure
  rfl

/-- A property that is found has a header in the image, and searching changes
nothing. -/
theorem find_ok
    (hfind : (find h object property : MemoryM Image (Option Entry)) image = .ok (some e) image') :
    (∃ place, e = entryAt h image place) ∧ image' = image := by
  obtain ⟨start, image₁, hfirst, hrest⟩ := bind_eq_ok_iff.mp hfind
  obtain rfl := first_ok hfirst
  obtain ⟨n, image₂, hsize, hrest⟩ := bind_eq_ok_iff.mp hrest
  cases hsize
  obtain ⟨entry, image₃, hwalk, hpure⟩ := bind_eq_ok_iff.mp hrest
  obtain ⟨hentry, rfl⟩ := descend_ok hwalk
  split at hpure <;> cases hpure
  exact ⟨hentry, rfl⟩

/-! ## Where size and width disagree -/

/-- A single byte behind a header of two bytes. -/
def Entry.LongByte (e : Entry) : Prop :=
  e.size = 1 ∧ e.data = e.address + 2

instance (e : Entry) : Decidable e.LongByte :=
  inferInstanceAs (Decidable (e.size = 1 ∧ e.data = e.address + 2))

/-- Addresses of the value of a property, the last one first. -/
def Entry.span (e : Entry) : List Nat :=
  if e.isByte then [e.data] else [e.data + 1, e.data]

theorem entryAt_isByte_iff (h : Header) (image : Image) (a : Nat) :
    (entryAt h image a).isByte = true ↔
      (entryAt h image a).size = 1 ∧ ¬ (entryAt h image a).LongByte := by
  unfold Entry.LongByte entryAt
  by_cases hlong : isLong h (image.byteAt a) = true
  · simp [hlong]
  · simp [hlong]

theorem entryAt_size_pos (h : Header) (image : Image) (a : Nat) :
    0 < (entryAt h image a).size := by
  unfold entryAt
  by_cases hlong : isLong h (image.byteAt a) = true
  · have hversion := ((isLong_iff h _).mp hlong).1
    simp only [hlong, if_true, longSize_eq hversion]
    split <;> omega
  · simp only [hlong, Bool.false_eq_true, if_false, shortSize]
    split <;> omega

theorem Entry.LongByte.isByte_eq (hlong : e.LongByte) (he : e = entryAt h image a) :
    e.isByte = false := by
  have hbyte := entryAt_isByte_iff h image a
  rw [← he] at hbyte
  simpa [hlong] using hbyte

theorem Entry.LongByte.after_eq (hlong : e.LongByte) : e.after = e.data + 1 := by
  rw [Entry.after, hlong.1]

theorem isByte_of_not_longByte (hshort : ¬ e.LongByte) (he : e = entryAt h image a) :
    e.isByte = true ↔ e.size = 1 := by
  have hbyte := entryAt_isByte_iff h image a
  rw [← he] at hbyte
  simpa [hshort] using hbyte

theorem span_inside (hshort : ¬ e.LongByte) (he : e = entryAt h image a) :
    ∀ x ∈ e.span, e.data ≤ x ∧ x < e.after := by
  have hpos := entryAt_size_pos h image a
  rw [← he] at hpos
  unfold Entry.span Entry.after
  by_cases hsize : e.size = 1
  · simp [isByte_of_not_longByte hshort he, hsize]
  · simp only [isByte_of_not_longByte hshort he, hsize, if_false, List.mem_cons,
      List.not_mem_nil, or_false, forall_eq_or_imp, forall_eq]
    omega

/-! ## Values -/

/-- The value of a property as it stands in an image. -/
def Entry.valueIn (e : Entry) (image : Image) : UInt16 :=
  if e.isByte then (image.byteAt e.data).toUInt16 else image.wordAt e.data

/-- The image with another value for a property. -/
def Entry.assign (e : Entry) (image : Image) (value : UInt16) : Image :=
  if e.isByte then image.poke e.data (lowByte value) else image.pokeWord e.data value

theorem Entry.byteAt_assign (e : Entry) (image : Image) (value : UInt16) {x : Nat}
    (hx : x ∉ e.span) : (e.assign image value).byteAt x = image.byteAt x := by
  unfold Entry.span at hx
  unfold Entry.assign
  split at hx
  · rw [if_pos ‹_›]
    exact Image.byteAt_poke_of_ne _ (by simpa using hx) _
  · rw [if_neg ‹_›]
    simp only [List.mem_cons, List.not_mem_nil, or_false, not_or] at hx
    exact Image.byteAt_pokeWord_of_ne _ (by omega) _

@[simp] theorem Entry.size_assign (e : Entry) (image : Image) (value : UInt16) :
    (e.assign image value).bytes.size = image.bytes.size := by
  unfold Entry.assign
  split <;> simp

section

variable {M : Type} [AddressSpace M] {R : M → Image → Prop} (hR : MemorySim True R)
variable {l l₁ : Logged M} (hl : R l₁.memory image)
variable (hfind : find h object property l = .ok (some e) l₁) (hobject : object ≠ 0)
variable (hroom : ∀ x ∈ e.span, x < image.bytes.size)

include hR hl hfind hobject hroom

/-- Behind the search, nothing is read but the value. -/
theorem get_logged : ∃ l', R l'.memory image ∧
    get h object property l = .ok (e.valueIn image) l' ∧ l'.reads = e.span ++ l₁.reads := by
  unfold get
  rw [if_neg hobject, bind_ok hfind]
  unfold Entry.span at hroom
  unfold Entry.valueIn Entry.span
  by_cases hbyte : e.isByte = true
  · simp only [hbyte, if_true] at hroom ⊢
    obtain ⟨m, hm, hread⟩ := Image.exists_ok hR (.readByte e.data) hl
      (Image.readByte_of_lt (hroom _ (by simp)))
    rw [bind_ok (Logged.readByte_ok hread)]
    exact ⟨_, hm, rfl, rfl⟩
  · simp only [hbyte, Bool.false_eq_true, if_false] at hroom ⊢
    obtain ⟨m, hm, hread⟩ := Image.exists_ok hR (.readWord e.data) hl
      (Image.readWord_of_lt (hroom _ (by simp)))
    exact ⟨_, hm, Logged.readWord_ok hread, rfl⟩

theorem put_logged (value : UInt16) : ∃ l', R l'.memory (e.assign image value) ∧
    put h object property value l = .ok () l' ∧ l'.writes = e.span ++ l₁.writes := by
  unfold put
  rw [if_neg hobject, bind_ok hfind]
  unfold Entry.span at hroom
  unfold Entry.assign Entry.span
  by_cases hbyte : e.isByte = true
  · simp only [hbyte, if_true] at hroom ⊢
    obtain ⟨m, hm, hwrite⟩ := Image.exists_ok hR (.writeByte e.data (lowByte value)) hl
      (Image.writeByte_of_lt (hroom _ (by simp)) _)
    exact ⟨_, hm, Logged.writeByte_ok hwrite, rfl⟩
  · simp only [hbyte, Bool.false_eq_true, if_false] at hroom ⊢
    obtain ⟨m, hm, hwrite⟩ := Image.exists_ok hR (.writeWord e.data value) hl
      (Image.writeWord_of_lt (hroom _ (by simp)) _)
    exact ⟨_, hm, Logged.writeWord_ok hwrite, rfl⟩

end

/-- With its second byte behind the end of memory, a word is neither read nor
written. -/
theorem access_fails_at_end
    (hfind : (find h object property : MemoryM Image (Option Entry)) image = .ok (some e) image)
    (hobject : object ≠ 0) (hword : e.isByte = false) (hend : image.bytes.size ≤ e.data + 1) :
    (∃ fault, outcome ((get h object property : MemoryM Image UInt16) image) = .error fault) ∧
      ∀ value, ∃ fault,
        outcome ((put h object property value : MemoryM Image Unit) image) = .error fault := by
  constructor
  · obtain ⟨fault, hfault⟩ := Image.readWord_of_ge hend
    refine ⟨fault, ?_⟩
    rw [get, if_neg hobject, bind_ok hfind]
    simp only [hword, Bool.false_eq_true, if_false, hfault]
    rfl
  · intro value
    rw [put, if_neg hobject, bind_ok hfind]
    simp only [hword, Bool.false_eq_true, if_false]
    cases hwrite : (Memory.writeWord e.data value : MemoryM Image Unit) image with
    | ok _ image' => exact absurd (Image.writeWord_ok hwrite).1 (Nat.not_lt.mpr hend)
    | error fault image' => exact ⟨fault, rfl⟩

/-- A search that succeeds in a memory succeeds alike in the image that it
shows. -/
theorem exists_find {M : Type} [AddressSpace M] {R : M → Image → Prop} (hR : MemorySim True R)
    {m : M} (hm : R m image) (hfind : outcome (find h object property m) = .ok (some e)) :
    ∃ m₁ place, R m₁ image ∧ find h object property m = .ok (some e) m₁ ∧
      (find h object property : MemoryM Image (Option Entry)) image = .ok (some e) image ∧
      e = entryAt h image place := by
  rw [Image.outcome_eq hR (.findProperty h object property) hm] at hfind
  cases hrun : (find h object property : MemoryM Image (Option Entry)) image with
  | error fault image' =>
      rw [hrun] at hfind
      cases hfind
  | ok r image' =>
      rw [hrun] at hfind
      cases hfind
      obtain ⟨⟨place, he⟩, rfl⟩ := find_ok hrun
      obtain ⟨m₁, hm₁, hok⟩ := Image.exists_ok hR (.findProperty h object property) hm hrun
      exact ⟨m₁, place, hm₁, hok, rfl, he⟩

/-- Whatever header a search finds, reading and writing the property stays
inside its data, and one byte is taken as such, unless it stands behind a header
of two bytes: then the access is to a word, of which the second byte lies behind
the data. -/
theorem value_inside_unless_longByte
    {M : Type} [AddressSpace M] {R : M → Image → Prop} (hR : MemorySim True R) {l : Logged M}
    (hl : R l.memory image) (hfind : outcome (find h object property l) = .ok (some e))
    (hdata : e.after ≤ image.bytes.size) :
    (object = 0 → get h object property l = .ok 0 l ∧
      ∀ value, put h object property value l = .ok () l) ∧
    (object ≠ 0 → ∃ l₁, find h object property l = .ok (some e) l₁ ∧
      (¬ e.LongByte →
        (∃ l' reads, l'.reads = reads ++ l₁.reads ∧ (∀ x ∈ reads, e.data ≤ x ∧ x < e.after) ∧
          get h object property l =
            .ok (if e.size = 1 then (image.byteAt e.data).toUInt16 else image.wordAt e.data) l') ∧
        ∀ value, ∃ l' image' writes, R l'.memory image' ∧
          put h object property value l = .ok () l' ∧
          l'.writes = writes ++ l₁.writes ∧ (∀ x ∈ writes, e.data ≤ x ∧ x < e.after) ∧
          (if e.size = 1 then image'.byteAt e.data = lowByte value
            else image'.wordAt e.data = value) ∧
          image'.bytes.size = image.bytes.size ∧
          ∀ x, ¬ (e.data ≤ x ∧ x < e.after) → image'.byteAt x = image.byteAt x) ∧
      (e.LongByte → e.after < image.bytes.size →
        (∃ l' reads, l'.reads = reads ++ l₁.reads ∧ e.after ∈ reads ∧
          get h object property l = .ok (image.wordAt e.data) l') ∧
        ∀ value, ∃ l' image', R l'.memory image' ∧
          put h object property value l = .ok () l' ∧
          image'.byteAt e.data = highByte value ∧ image'.byteAt e.after = lowByte value) ∧
      (e.LongByte → e.after = image.bytes.size →
        (∃ fault, outcome (get h object property l) = .error fault) ∧
        ∀ value, ∃ fault, outcome (put h object property value l) = .error fault)) := by
  have hR' := Logged.memorySim hR
  constructor
  · rintro rfl
    exact ⟨rfl, fun _ => rfl⟩
  intro hobject
  obtain ⟨l₁, place, hl₁, hok, hfound, he⟩ := exists_find hR' hl hfind
  refine ⟨l₁, hok, fun hshort => ?_, fun hlong hroom => ?_, fun hlong hend => ?_⟩
  · have hbyte := isByte_of_not_longByte hshort he
    have hinside := span_inside hshort he
    have hroom : ∀ x ∈ e.span, x < image.bytes.size :=
      fun x hx => Nat.lt_of_lt_of_le (hinside x hx).2 hdata
    constructor
    · obtain ⟨l', -, hget, hreads⟩ := get_logged hR hl₁ hok hobject hroom
      simp only [Entry.valueIn, hbyte] at hget
      exact ⟨l', e.span, hreads, hinside, hget⟩
    · intro value
      obtain ⟨l', hl', hput, hwrites⟩ := put_logged hR hl₁ hok hobject hroom value
      refine ⟨l', _, e.span, hl', hput, hwrites, hinside, ?_, e.size_assign image value,
        fun x hx => e.byteAt_assign image value (mt (hinside x) hx)⟩
      simp only [Entry.assign, Entry.span, hbyte] at hroom ⊢
      by_cases hsize : e.size = 1
      · simp only [hsize, if_true] at hroom ⊢
        exact Image.byteAt_poke_self (hroom _ (by simp)) _
      · simp only [hsize, if_false] at hroom ⊢
        exact Image.wordAt_pokeWord_self (hroom _ (by simp)) _
  · have hword := hlong.isByte_eq he
    rw [hlong.after_eq] at hroom ⊢
    have hspan : ∀ x ∈ e.span, x < image.bytes.size := by
      simp only [Entry.span, hword, Bool.false_eq_true, if_false, List.mem_cons,
        List.not_mem_nil, or_false, forall_eq_or_imp, forall_eq]
      omega
    constructor
    · obtain ⟨l', -, hget, hreads⟩ := get_logged hR hl₁ hok hobject hspan
      simp only [Entry.valueIn, hword, Bool.false_eq_true, if_false] at hget
      exact ⟨l', e.span, hreads, by simp [Entry.span, hword], hget⟩
    · intro value
      obtain ⟨l', hl', hput, -⟩ := put_logged hR hl₁ hok hobject hspan value
      simp only [Entry.assign, hword, Bool.false_eq_true, if_false] at hl'
      exact ⟨l', _, hl', hput, Image.byteAt_pokeWord_high (by omega) _,
        Image.byteAt_pokeWord_low hroom _⟩
  · have hlast : image.bytes.size ≤ e.data + 1 := Nat.le_of_eq (hend.symm.trans hlong.after_eq)
    obtain ⟨hget, hput⟩ := access_fails_at_end hfound hobject (hlong.isByte_eq he) hlast
    rw [Image.outcome_eq hR' (.getProperty h object property) hl]
    refine ⟨hget, fun value => ?_⟩
    rw [Image.outcome_eq hR' (.putProperty h object property value) hl]
    exact hput value

/-- Property 5 is one byte behind a header of two, property 3 one byte behind a
header of one.  A value for the first damages the header of the second, which a
value for the second does not do to the end of the list. -/
theorem value_inside_unless_longByte_two_headers :
    let h : Header := { (Inhabited.default : Header) with version := 5, objects := 64 }
    let image : Image :=
      ⟨(Array.replicate 231 0).set! 203 224 |>.set! 225 0x85 |>.set! 226 0x81 |>.set! 227 0x2A
        |>.set! 228 3 |>.set! 229 7⟩
    let l : Logged Image := ⟨image, [], []⟩
    let long : Entry := ⟨225, 5, 227, 1, false⟩
    let short : Entry := ⟨228, 3, 229, 1, true⟩
    outcome (find h 1 5 l) = .ok (some long) ∧ long.LongByte ∧
      outcome (find h 1 3 l) = .ok (some short) ∧ ¬ short.LongByte ∧
      (∃ l', get h 1 5 l = .ok 0x2A03 l' ∧ 228 ∈ l'.reads) ∧
      (∃ l', put h 1 5 0x1234 l = .ok () l' ∧ l'.memory.byteAt 228 = 0x34) ∧
      ∃ l', put h 1 3 0x1234 l = .ok () l' ∧ l'.memory.byteAt 229 = 0x34 ∧
        l'.memory.byteAt 230 = 0 := by
  intro h image l long short
  have hlong : outcome (find h 1 5 l) = .ok (some long) := eq_ok_of_toOption (by decide +kernel)
  have hshort : outcome (find h 1 3 l) = .ok (some short) := eq_ok_of_toOption (by decide +kernel)
  have hword : image.wordAt long.data = 0x2A03 := by decide +kernel
  obtain ⟨l₁, -, -, hbeyond, -⟩ :=
    (value_inside_unless_longByte MemorySim.refl rfl hlong (by decide +kernel)).2 (by decide)
  obtain ⟨l₂, -, hinside, -⟩ :=
    (value_inside_unless_longByte MemorySim.refl rfl hshort (by decide +kernel)).2 (by decide)
  obtain ⟨⟨l', reads, hreads, hmem, hget⟩, hput⟩ := hbeyond (by decide) (by decide +kernel)
  obtain ⟨l'', image', rfl, hputLong, -, hnext⟩ := hput 0x1234
  obtain ⟨l₃, image', -, rfl, hputShort, -, -, hvalue, -, hother⟩ := (hinside (by decide)).2 0x1234
  refine ⟨hlong, by decide, hshort, by decide, ⟨l', hword ▸ hget, ?_⟩, ⟨l'', hputLong, hnext⟩,
    l₃, hputShort, hvalue, ?_⟩
  · rw [hreads]
    exact List.mem_append_left _ hmem
  · rw [hother 230 (by decide)]
    decide +kernel

end ZMachine.Property
