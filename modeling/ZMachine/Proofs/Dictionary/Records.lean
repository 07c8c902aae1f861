import ZMachine.Proofs.Image
import ZMachine.Proofs.Simulation.Story
import ZMachine.Proofs.Token.Partition

/-!
# Filling a token buffer

Lookups and writes alternate while a token buffer is filled.  A lookup reads
the words of the dictionary's entries and nothing else, so with the buffer
away from these it answers as it would have done before the first write, and
the records can be told in terms of the memory at the start: `IsRecord` says
what stands in one of them, and `tokenise_ok` that every other byte is as it was.
-/

namespace ZMachine.Dictionary

open Memory
open Image (Paired readWord_paired)

variable {image image' : Image} {version : UInt8} {d : Dictionary}

/-! ## Lines and dictionaries in an image -/

/-- Distance of the text from the start of its line buffer. -/
def textOffset (version : UInt8) : Nat :=
  if 4 < version then 2 else 1

/-- The text in a line buffer: as many bytes as a length byte says from version
5 on, and the bytes up to a zero before. -/
def lineIn (image : Image) (version : UInt8) (buffer : Nat) : List UInt8 :=
  if 4 < version then
    (image.bytes.toList.drop (buffer + 2)).take (image.byteAt (buffer + 1)).toNat
  else
    (image.bytes.toList.drop (buffer + 1)).takeWhile (· ≠ 0)

/-- The dictionary with its header at an address. -/
def inImage (image : Image) (address : Nat) : Dictionary :=
  let n := (image.byteAt address).toNat
  { separators := (image.bytes.toList.drop (address + 1)).take n
    entrySize := (image.byteAt (address + 1 + n)).toNat
    count := signed (image.wordAt (address + 2 + n))
    entries := address + 4 + n }

theorem readToZeroOnto_ok {fuel address : Nat} {found bytes : List UInt8}
    (h : (readToZeroOnto fuel found address : MemoryM Image (List UInt8)) image =
      .ok bytes image') :
    bytes = found.reverse ++ (image.bytes.toList.drop address).takeWhile (· ≠ 0) ∧
      image' = image := by
  induction fuel generalizing found address with
  | zero =>
      obtain ⟨n, image₁, -, hthrow⟩ := bind_eq_ok_iff.mp h
      cases hthrow
  | succ fuel ih =>
      obtain ⟨b, image₁, hbyte, hrest⟩ := bind_eq_ok_iff.mp h
      have hlist := Image.drop_toList (Image.lt_of_readByte_ok hbyte)
      obtain ⟨rfl, rfl⟩ := Image.readByte_ok hbyte
      rw [hlist]
      by_cases hzero : image₁.byteAt address = 0
      · rw [if_pos hzero] at hrest
        cases hrest
        simp [hzero]
      · rw [if_neg hzero] at hrest
        obtain ⟨rfl, rfl⟩ := ih hrest
        simp [hzero]

theorem lineText_ok {buffer offset : Nat} {line : List UInt8}
    (h : (lineText version buffer : MemoryM Image (Nat × List UInt8)) image =
      .ok (offset, line) image') :
    offset = textOffset version ∧ line = lineIn image version buffer ∧ image' = image := by
  unfold lineText at h
  unfold textOffset lineIn
  by_cases hversion : 4 < version
  · rw [if_pos hversion] at h ⊢
    obtain ⟨length, image₁, hlength, hrest⟩ := bind_eq_ok_iff.mp h
    obtain ⟨rfl, rfl⟩ := Image.readByte_ok hlength
    obtain ⟨text, image₂, htext, hpure⟩ := bind_eq_ok_iff.mp hrest
    obtain ⟨rfl, rfl⟩ := Image.readBytesOnto_ok htext
    cases hpure
    simp [hversion]
  · rw [if_neg hversion] at h ⊢
    obtain ⟨text, image₁, htext, hpure⟩ := bind_eq_ok_iff.mp h
    obtain ⟨n, image₂, hsize, hread⟩ := bind_eq_ok_iff.mp htext
    cases hsize
    obtain ⟨rfl, rfl⟩ := readToZeroOnto_ok hread
    cases hpure
    simp [hversion]

theorem load_ok {address : Nat}
    (h : (load address : MemoryM Image Dictionary) image = .ok d image') :
    d = inImage image address ∧ image' = image := by
  obtain ⟨n, image₁, hn, h₁⟩ := bind_eq_ok_iff.mp h
  obtain ⟨rfl, rfl⟩ := Image.readByte_ok hn
  obtain ⟨separators, image₂, hseparators, h₂⟩ := bind_eq_ok_iff.mp h₁
  obtain ⟨rfl, rfl⟩ := Image.readBytesOnto_ok hseparators
  obtain ⟨entrySize, image₃, hentrySize, h₃⟩ := bind_eq_ok_iff.mp h₂
  obtain ⟨rfl, rfl⟩ := Image.readByte_ok hentrySize
  obtain ⟨count, image₄, hcount, hpure⟩ := bind_eq_ok_iff.mp h₃
  obtain ⟨rfl, rfl⟩ := Image.readWord_ok hcount
  cases hpure
  exact ⟨rfl, rfl⟩

/-! ## What a search reads -/

/-- The address is in a word that a search compares. -/
def Probes (d : Dictionary) (version : UInt8) (a : Nat) : Prop :=
  ∃ index < d.count.natAbs, d.entryAddress index ≤ a ∧
    a < d.entryAddress index + 2 * ZString.significantWords version

section

variable {other : Image}

variable (hsize : image.bytes.size = other.bytes.size)

include hsize

theorem compareAt_paired (word : List UInt16) {address : Nat}
    (hsame : ∀ a, address ≤ a → a < address + 2 * word.length → image.byteAt a = other.byteAt a) :
    Sim False (Paired image other) (Paired image other) (compareAt word address)
      (compareAt word address) := by
  induction word generalizing address with
  | nil => exact .pure _
  | cons part parts ih =>
      simp only [List.length_cons] at hsame
      have hword : ∀ a, address ≤ a → a ≤ address + 1 → image.byteAt a = other.byteAt a :=
        fun a hge hle => hsame a hge (by omega)
      refine .bind (readWord_paired hsize hword) fun entry => ?_
      cases compare (signed part) (signed entry) with
      | eq => exact ih fun a hge hlt => hsame a (by omega) (by omega)
      | lt => exact .pure _
      | gt => exact .pure _

variable (hsame : ∀ a, d.Probes version a → image.byteAt a = other.byteAt a)
variable {word : List UInt16} (hword : word.length ≤ ZString.significantWords version)

include hsame hword

theorem compareAt_entry_paired {index : Nat} (hindex : index < d.count.natAbs) :
    Sim False (Paired image other) (Paired image other) (compareAt word (d.entryAddress index))
      (compareAt word (d.entryAddress index)) :=
  compareAt_paired hsize word fun a hge hlt => hsame a ⟨index, hindex, hge, by omega⟩

theorem findLinear_paired (n index : Nat) (hn : index + n ≤ d.count.natAbs) :
    Sim False (Paired image other) (Paired image other) (d.findLinear word n index)
      (d.findLinear word n index) := by
  induction n generalizing index with
  | zero => exact .pure 0
  | succ n ih =>
      refine .bind (compareAt_entry_paired hsize hsame hword (by omega)) fun order => ?_
      cases order with
      | eq => exact .pure _
      | lt => exact ih (index + 1) (by omega)
      | gt => exact ih (index + 1) (by omega)

theorem findChopping_paired {last : Nat} (hlast : last < d.count.natAbs) (probes index : Nat) :
    Sim False (Paired image other) (Paired image other) (d.findChopping word last probes index)
      (d.findChopping word last probes index) := by
  induction probes generalizing index with
  | zero => exact .pure 0
  | succ n ih =>
      refine .bind (compareAt_entry_paired hsize hsame hword (by omega)) fun order => ?_
      cases order with
      | eq => exact .pure _
      | gt => exact ih _
      | lt => exact ih _

omit hword in
/-- A search leaves the image alone and answers alike on every other one with
the same entries. -/
theorem find_paired {text : List UInt8} {w : UInt16}
    (h : (d.find version text : MemoryM Image UInt16) image = .ok w image') :
    image' = image ∧ (d.find version text : MemoryM Image UInt16) other = .ok w other := by
  have hsim : Sim False (Paired image other) (Paired image other) (d.find version text)
      (d.find version text) := by
    have hword : ((ZString.dictionaryWords version text).take
        (ZString.significantWords version)).length ≤ ZString.significantWords version :=
      List.length_take_le _ _
    refine .ite (fun _ => .pure 0) fun hcount => .ite (fun hneg => ?_) fun hneg => ?_
    · exact findLinear_paired hsize hsame hword _ _ (Nat.le_of_eq (Nat.zero_add _))
    · exact findChopping_paired hsize hsame hword (by omega) _ _
  obtain ⟨_, hother, rfl, rfl⟩ := hsim.ok ⟨rfl, rfl⟩ h
  exact ⟨rfl, hother⟩

end

theorem find_ok {text : List UInt8} {w : UInt16}
    (h : (d.find version text : MemoryM Image UInt16) image = .ok w image') : image' = image :=
  (find_paired (Eq.refl image.bytes.size) (fun _ _ => rfl) h).1

/-! ## Records -/

/-- The record of a token in `image'`, with the entry that the dictionary had
for it in `image`. -/
structure IsRecord (d : Dictionary) (version : UInt8) (line : List UInt8) (offset : Nat)
    (keepUnknown : Bool) (image image' : Image) (record : Nat) (s : Token.Span) : Prop where
  word : ∃ w : UInt16, (d.find version (s.text line) : MemoryM Image UInt16) image = .ok w image ∧
    image'.wordAt record = if w = 0 ∧ keepUnknown = true then image.wordAt record else w
  length : image'.byteAt (record + 2) = UInt8.ofNat s.length
  place : image'.byteAt (record + 3) = UInt8.ofNat (offset + s.start)

section

variable {image₁ : Image} {line : List UInt8} {offset entry room left : Nat} {keepUnknown : Bool}
variable {s : Token.Span} {spans : List Token.Span}

/-- A record stays one while its own bytes stay. -/
theorem IsRecord.kept (hrecord : IsRecord d version line offset keepUnknown image image₁ entry s)
    (hsame : ∀ x, entry ≤ x → x < entry + 4 → image'.byteAt x = image₁.byteAt x) :
    IsRecord d version line offset keepUnknown image image' entry s where
  word := by
    obtain ⟨w, hfind, hword⟩ := hrecord.word
    refine ⟨w, hfind, ?_⟩
    rw [← hword]
    exact Image.wordAt_congr fun x _ _ => hsame x (by omega) (by omega)
  length := by rw [hsame _ (by omega) (by omega), hrecord.length]
  place := by rw [hsame _ (by omega) (by omega), hrecord.place]

/-- What was written before, away from the record and the entries, does not
matter. -/
theorem IsRecord.since (hrecord : IsRecord d version line offset keepUnknown image₁ image' entry s)
    {a n : Nat} (hchanged : image.ChangedWithin image₁ a n) (hbefore : a + n ≤ entry)
    (hapart : ∀ x, d.Probes version x → ¬ (a ≤ x ∧ x < a + n)) :
    IsRecord d version line offset keepUnknown image image' entry s where
  word := by
    obtain ⟨w, hfind, hword⟩ := hrecord.word
    obtain ⟨-, hfind'⟩ :=
      find_paired hchanged.size_eq (fun x hx => hchanged.other x (hapart x hx)) hfind
    have hold : image₁.wordAt entry = image.wordAt entry :=
      Image.wordAt_congr fun x _ _ => hchanged.other x (by omega)
    rw [hold] at hword
    exact ⟨w, hfind', hword⟩
  length := hrecord.length
  place := hrecord.place

/-- One round of the loop: a record for the first token, and then the rest. -/
theorem writeTokens_cons
    (h : (d.writeTokens version line offset keepUnknown (room + 1) entry (s :: spans) :
      MemoryM Image Nat) image = .ok left image') :
    ∃ image₁, IsRecord d version line offset keepUnknown image image₁ entry s ∧
      image.ChangedWithin image₁ entry 4 ∧
      (d.writeTokens version line offset keepUnknown room (entry + 4) spans :
        MemoryM Image Nat) image₁ = .ok left image' := by
  obtain ⟨w, image₀, hfind, hwrites⟩ := bind_eq_ok_iff.mp h
  obtain rfl := find_ok hfind
  obtain ⟨image₁, hword, hchanged, hbytes⟩ : ∃ image₁ : Image,
      image₁.wordAt entry =
        (if w = 0 ∧ keepUnknown = true then image₀.wordAt entry else w) ∧
      image₀.ChangedWithin image₁ entry 4 ∧
      (do
        writeByte (entry + 2) (UInt8.ofNat s.length)
        writeByte (entry + 3) (UInt8.ofNat (offset + s.start))
        d.writeTokens version line offset keepUnknown room (entry + 4) spans :
          MemoryM Image Nat) image₁ = .ok left image' := by
    split at hwrites
    next hwritten =>
      obtain ⟨_, image₁, hpoke, hbytes⟩ := bind_eq_ok_iff.mp hwrites
      obtain ⟨hlt, rfl⟩ := Image.writeWord_ok hpoke
      refine ⟨_, ?_, (Image.ChangedWithin.pokeWord _ _ _).mono (by omega) (by omega), hbytes⟩
      rw [Image.wordAt_pokeWord_self hlt, if_neg (by grind)]
    next hkept =>
      refine ⟨_, ?_, .refl _ _ _, hwrites⟩
      rw [if_pos (by grind)]
  obtain ⟨_, image₂, hlength, hrest⟩ := bind_eq_ok_iff.mp hbytes
  obtain ⟨hlt, rfl⟩ := Image.writeByte_ok hlength
  obtain ⟨_, image₃, hplace, htokens⟩ := bind_eq_ok_iff.mp hrest
  obtain ⟨hlt', rfl⟩ := Image.writeByte_ok hplace
  refine ⟨_, ⟨⟨w, hfind, ?_⟩, ?_, ?_⟩, ?_, htokens⟩
  · rw [← hword]
    refine Image.wordAt_congr fun x _ _ => ?_
    rw [Image.byteAt_poke_of_ne _ (by omega), Image.byteAt_poke_of_ne _ (by omega)]
  · rw [Image.byteAt_poke_of_ne _ (by omega), Image.byteAt_poke_self hlt]
  · exact Image.byteAt_poke_self hlt' _
  · refine (hchanged.trans ((Image.ChangedWithin.poke _ _ _).mono ?_ ?_)).trans
      ((Image.ChangedWithin.poke _ _ _).mono ?_ ?_) <;> omega

/-- The whole loop: a record for every token that there is room for. -/
theorem writeTokens_ok
    (h : (d.writeTokens version line offset keepUnknown room entry spans :
      MemoryM Image Nat) image = .ok left image')
    (hapart : ∀ a, d.Probes version a → ¬ (entry ≤ a ∧ a < entry + 4 * room)) :
    left = room - spans.length ∧
      (∀ i s, (spans.take room)[i]? = some s →
        IsRecord d version line offset keepUnknown image image' (entry + 4 * i) s) ∧
      image.ChangedWithin image' entry (4 * (spans.take room).length) := by
  induction spans generalizing room entry image with
  | nil =>
      cases room <;> cases h <;> exact ⟨rfl, by simp, .refl _ _ _⟩
  | cons s spans ih =>
      cases room with
      | zero =>
          cases h
          exact ⟨(Nat.zero_sub _).symm, by simp, .refl _ _ _⟩
      | succ room =>
          obtain ⟨image₁, hfirst, hchanged, hrest⟩ := writeTokens_cons h
          obtain ⟨rfl, hrecords, hchanged'⟩ := ih hrest fun a ha hin =>
            hapart a ha (by omega)
          refine ⟨(Nat.succ_sub_succ _ _).symm, fun i t ht => ?_, ?_⟩
          · rw [List.take_succ_cons] at ht
            cases i with
            | zero =>
                obtain rfl : s = t := Option.some.inj ht
                exact hfirst.kept fun x _ _ => hchanged'.other x (by omega)
            | succ i =>
                have hplace : entry + 4 + 4 * i = entry + 4 * (i + 1) := by omega
                exact hplace ▸ (hrecords i t ht).since hchanged (by omega) fun x hx hin =>
                  hapart x hx (by omega)
          · rw [List.take_succ_cons, List.length_cons]
            exact (hchanged.mono (by omega) (by omega)).trans (hchanged'.mono (by omega) (by omega))

end

/-! ## The buffer as a whole -/

/-- The address is in a token buffer: the limit, the count, and as many records
as the limit allows. -/
def InTokenBuffer (image : Image) (buffer a : Nat) : Prop :=
  buffer ≤ a ∧ a < buffer + 2 + 4 * (image.byteAt buffer).toNat

/-- The tokens of a line that get a record. -/
def recorded (image : Image) (version : UInt8) (lineBuffer tokenBuffer dictionary : Nat) :
    List Token.Span :=
  (Token.tokens (inImage image dictionary).separators (lineIn image version lineBuffer)).take
    (image.byteAt tokenBuffer).toNat

theorem length_recorded (image : Image) (version : UInt8)
    (lineBuffer tokenBuffer dictionary : Nat) :
    (recorded image version lineBuffer tokenBuffer dictionary).length =
      min (Token.tokens (inImage image dictionary).separators
        (lineIn image version lineBuffer)).length (image.byteAt tokenBuffer).toNat := by
  rw [recorded, List.length_take, Nat.min_comm]

theorem tokenise_ok {lineBuffer tokenBuffer dictionary : UInt16} {keepUnknown : Bool}
    (h : tokenise version lineBuffer tokenBuffer dictionary keepUnknown image = .ok () image')
    (hapart : ∀ a, (inImage image dictionary.toNat).Probes version a →
      ¬ InTokenBuffer image tokenBuffer.toNat a) :
    let spans := recorded image version lineBuffer.toNat tokenBuffer.toNat dictionary.toNat
    image'.byteAt (tokenBuffer.toNat + 1) = UInt8.ofNat spans.length ∧
      (∀ i s, spans[i]? = some s →
        IsRecord (inImage image dictionary.toNat) version (lineIn image version lineBuffer.toNat)
          (textOffset version) keepUnknown image image' (tokenBuffer.toNat + 2 + 4 * i) s) ∧
      image.ChangedWithin image' (tokenBuffer.toNat + 1) (1 + 4 * spans.length) := by
  intro spans
  obtain ⟨⟨offset, line⟩, image₁, hline, h₁⟩ := bind_eq_ok_iff.mp h
  obtain ⟨rfl, rfl, rfl⟩ := lineText_ok hline
  obtain ⟨d, image₂, hload, h₂⟩ := bind_eq_ok_iff.mp h₁
  obtain ⟨rfl, rfl⟩ := load_ok hload
  obtain ⟨limit, image₃, hlimit, h₃⟩ := bind_eq_ok_iff.mp h₂
  obtain ⟨rfl, rfl⟩ := Image.readByte_ok hlimit
  obtain ⟨left, image₄, htokens, hcount⟩ := bind_eq_ok_iff.mp h₃
  obtain ⟨rfl, hrecords, hchanged⟩ := writeTokens_ok htokens fun a ha hin =>
    hapart a ha ⟨by omega, by omega⟩
  obtain ⟨hlt, rfl⟩ := Image.writeByte_ok hcount
  refine ⟨?_, fun i s hs => ?_, ?_⟩
  · have hwritten : ∀ limit tokens : Nat, limit - (limit - tokens) = min limit tokens := by omega
    rw [Image.byteAt_poke_self hlt, hwritten, ← List.length_take]
    rfl
  · exact (hrecords i s hs).kept fun x _ _ => Image.byteAt_poke_of_ne _ (by omega) _
  · change Image.ChangedWithin _ image₄ _ (4 * spans.length) at hchanged
    exact (hchanged.mono (by omega) (by omega)).trans
      ((Image.ChangedWithin.poke _ _ _).mono (by omega) (by omega))

/-- A line buffer is split and a token buffer filled: the second byte counts
the tokens up to the limit, each of them has its length and its entry in the
dictionary in its record, and nothing else changes.  With `keepUnknown`, a word
without an entry keeps what was there. -/
theorem tokenise_fills_buffer
    {M : Type} [AddressSpace M] {strict : Prop} {R : M → Image → Prop} (hR : MemorySim strict R)
    {m m' : M} (hm : R m image) {lineBuffer tokenBuffer dictionary : UInt16} {keepUnknown : Bool}
    (hlength : (lineIn image version lineBuffer.toNat).length ≤ 255)
    (hapart : ∀ a, (inImage image dictionary.toNat).Probes version a →
      ¬ InTokenBuffer image tokenBuffer.toNat a)
    (h : tokenise version lineBuffer tokenBuffer dictionary keepUnknown m = .ok () m') :
    let line := lineIn image version lineBuffer.toNat
    let d := inImage image dictionary.toNat
    let spans := Token.tokens d.separators line
    let count := min spans.length (image.byteAt tokenBuffer.toNat).toNat
    ∃ image', R m' image' ∧
      (image'.byteAt (tokenBuffer.toNat + 1)).toNat = count ∧
      (∀ i s, i < count → spans[i]? = some s →
        let record := tokenBuffer.toNat + 2 + 4 * i
        (image'.byteAt (record + 2)).toNat = s.length ∧
          ∃ w : UInt16,
            (d.find version (s.text line) : MemoryM Image UInt16) image = .ok w image ∧
              image'.wordAt record =
                if w = 0 ∧ keepUnknown = true then image.wordAt record else w) ∧
      image'.bytes.size = image.bytes.size ∧
      ∀ a, a ≠ tokenBuffer.toNat + 1 →
        ¬ (tokenBuffer.toNat + 2 ≤ a ∧ a < tokenBuffer.toNat + 2 + 4 * count) →
          image'.byteAt a = image.byteAt a := by
  intro line d spans count
  obtain ⟨image', himage, hm'⟩ := (Parametric.tokenise _ _ _ _ _ strict R hR).ok hm h
  obtain ⟨hcount, hrecords, hchanged⟩ := tokenise_ok himage hapart
  have hrecorded : (recorded image version lineBuffer.toNat tokenBuffer.toNat
      dictionary.toNat).length = count := length_recorded _ _ _ _ _
  rw [hrecorded] at hcount hchanged
  have hline : line.length ≤ 255 := hlength
  have hlimit := (image.byteAt tokenBuffer.toNat).toNat_lt
  refine ⟨image', hm', ?_, fun i s hi hs => ?_, hchanged.size_eq, fun a hne hout => ?_⟩
  · rw [hcount]
    exact UInt8.toNat_ofNat_of_lt' (show count < 256 by omega)
  · have hstop : s.start + s.length ≤ line.length :=
      (Token.mem_tokens_iff.mp (List.mem_of_getElem? hs)).stop_le
    have hrecord := hrecords i s ((List.getElem?_take_of_lt (by omega)).trans hs)
    refine ⟨?_, hrecord.word⟩
    rw [hrecord.length]
    exact UInt8.toNat_ofNat_of_lt' (show s.length < 256 by omega)
  · exact hchanged.other a (by omega)

/-- A story of version 3 that knows "go" and "in" and takes the comma for a
separator.  The line "go,up in" is at 16, a token buffer for three tokens at 32. -/
def threeTokens : Image :=
  ⟨#[1, 44, 4, 0, 2, 0x32, 0x85, 0x94, 0xA5, 0x3A, 0x65, 0x94, 0xA5, 0, 0, 0,
    20, 103, 111, 44, 117, 112, 32, 105, 110, 0, 0, 0, 0, 0, 0, 0,
    3, 0, 0xAA, 0xAA, 0, 0, 0xBB, 0xBB, 0, 0, 0xCC, 0xCC, 0, 0, 0xDD, 0xDD, 0xDD, 0xDD]⟩

theorem tokenise_fills_buffer_three :
    ∃ image', tokenise 3 16 32 0 true threeTokens = .ok () image' ∧
      image'.byteAt 33 = 3 ∧ image'.wordAt 34 = 5 ∧ image'.byteAt 36 = 2 ∧
      image'.wordAt 38 = 0xBBBB ∧ image'.byteAt 40 = 1 ∧ image'.byteAt 46 = 0xDD := by
  have hdictionary : inImage threeTokens (0 : UInt16).toNat = ⟨[44], 4, 2, 5⟩ := by decide +kernel
  have htokens : Token.tokens [44] (lineIn threeTokens 3 (16 : UInt16).toNat) =
      [⟨0, 2⟩, ⟨2, 1⟩, ⟨3, 2⟩, ⟨6, 2⟩] := by decide +kernel
  have hlength : (lineIn threeTokens 3 (16 : UInt16).toNat).length ≤ 255 := by decide +kernel
  have hapart : ∀ a, (inImage threeTokens (0 : UInt16).toNat).Probes 3 a →
      ¬ InTokenBuffer threeTokens (32 : UInt16).toNat a := by
    rintro a ⟨index, hindex, -, hlt⟩ ⟨hge, -⟩
    rw [hdictionary] at hindex hlt
    have hge' : 32 ≤ a := hge
    have hindex' : index < 2 := hindex
    have hlt' : a < 5 + index * 4 + 4 := hlt
    omega
  obtain ⟨_, image', hrun, -⟩ := exists_of_reachesOk
    (r := tokenise 3 16 32 0 true threeTokens) (p := fun _ _ => true) (by decide +kernel)
  obtain ⟨_, rfl, hcount, hrecords, -, hother⟩ :=
    tokenise_fills_buffer MemorySim.refl rfl hlength hapart hrun
  rw [hdictionary, htokens] at hcount hrecords hother
  obtain ⟨hgo, w, hfind, hword⟩ := hrecords 0 ⟨0, 2⟩ (by decide) rfl
  obtain ⟨hcomma, w', hfind', hword'⟩ := hrecords 1 ⟨2, 1⟩ (by decide) rfl
  have hw : (outcome (find ⟨[44], 4, 2, 5⟩ 3
      (Token.Span.text (lineIn threeTokens 3 (16 : UInt16).toNat) ⟨0, 2⟩)
      threeTokens)).toOption = some 5 := by decide +kernel
  have hw' : (outcome (find ⟨[44], 4, 2, 5⟩ 3
      (Token.Span.text (lineIn threeTokens 3 (16 : UInt16).toNat) ⟨2, 1⟩)
      threeTokens)).toOption = some 0 := by decide +kernel
  rw [hfind] at hw
  rw [hfind'] at hw'
  cases hw
  cases hw'
  refine ⟨_, hrun, UInt8.toNat_inj.mp hcount, hword, UInt8.toNat_inj.mp hgo, hword',
    UInt8.toNat_inj.mp hcomma, hother 46 (by decide) (by decide)⟩

end ZMachine.Dictionary
