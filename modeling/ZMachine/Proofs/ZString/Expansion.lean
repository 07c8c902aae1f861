import Mathlib.Logic.Relation
import ZMachine.Proofs.ZString.RoundTrip

/-!
# Abbreviations expand in place

From version 3 on a string is pieces of text and references to other strings.
A piece, of either kind, leaves the automaton of the decoder where it started,
so it does not matter where in a word a piece starts or what came before it:
the string is read piece by piece, and a reference is read as the string that
it leads to.

Strings refer to strings that refer to strings.  As long as no chain of
references from a string is longer than three, the string is read as its
expansion; and if some chain is, the decoder follows one to its fourth
reference and fails there.
-/

namespace ZMachine.ZString

/-- A piece of text, or a reference to an entry of an abbreviation table. -/
inductive Piece where
  | literal (text : List UInt8)
  | reference (table : Fin 3) (index : Fin 32)
  deriving DecidableEq, Repr

/-- The reference to entry `n` of the three tables. -/
def Piece.abbreviation (n : Nat) : Piece :=
  .reference ⟨n / 32 % 3, by omega⟩ ⟨n % 32, by omega⟩

def Piece.codes (version : UInt8) : Piece → List UInt8
  | .literal text => encode version text
  | .reference table index => [UInt8.ofNat (table + 1), UInt8.ofNat index]

/-- The z-characters of pieces one after the other. -/
def spelling (version : UInt8) (pieces : List Piece) : List UInt8 :=
  pieces.flatMap (Piece.codes version)

/-- An image and the pieces that the string at each address is made of. -/
structure Strings where
  header : Header
  image : Image
  pieces : Nat → List Piece

namespace Strings

/-- Where the tables hold the word for a reference. -/
def entry (S : Strings) (table : Fin 3) (index : Fin 32) : Nat :=
  S.header.abbreviations.toNat + 64 * table + 2 * index

/-- The address that a reference leads to. -/
def target (S : Strings) (table : Fin 3) (index : Fin 32) : Nat :=
  2 * (S.image.wordAt (S.entry table index)).toNat

/-- The words of the string at an address. -/
def words (S : Strings) (address : Nat) : List UInt16 :=
  pack (spelling S.header.version (S.pieces address))

/-- The string at an address stands in the image, and so do the entries that it
refers to. -/
structure Stands (S : Strings) (address : Nat) : Prop where
  laid : LaidOut S.image (S.words address) address
  entries : ∀ table index, .reference table index ∈ S.pieces address →
    S.entry table index + 1 < S.image.bytes.size

instance (S : Strings) (address : Nat) : Decidable (S.Stands address) :=
  decidable_of_iff
    (LaidOut S.image (S.words address) address ∧
      ∀ table index, .reference table index ∈ S.pieces address →
        S.entry table index + 1 < S.image.bytes.size)
    ⟨fun h => ⟨h.1, h.2⟩, fun h => ⟨h.laid, h.entries⟩⟩

/-- The addresses that pieces refer to. -/
def references (S : Strings) (pieces : List Piece) : List Nat :=
  pieces.filterMap fun
    | .literal _ => none
    | .reference table index => some (S.target table index)

def Refers (S : Strings) (a b : Nat) : Prop :=
  b ∈ S.references (S.pieces a)

/-- Where the chains of `n` references from the string at an address lead. -/
def nested (S : Strings) : Nat → Nat → List Nat
  | 0, a => [a]
  | n + 1, a => (S.references (S.pieces a)).flatMap (S.nested n)

/-- The text of pieces, with each reference as the text that it leads to. -/
inductive Expands (S : Strings) : List Piece → List UInt8 → Prop where
  | nil : S.Expands [] []
  | literal {text : List UInt8} {pieces : List Piece} {out : List UInt8}
      (hrest : S.Expands pieces out) :
      S.Expands (.literal text :: pieces) (text.map readBack ++ out)
  | reference {table : Fin 3} {index : Fin 32} {pieces : List Piece} {inner out : List UInt8}
      (hinner : S.Expands (S.pieces (S.target table index)) inner)
      (hrest : S.Expands pieces out) :
      S.Expands (.reference table index :: pieces) (inner ++ out)

theorem Expands.unique {S : Strings} {pieces : List Piece} {out out' : List UInt8}
    (h : S.Expands pieces out) (h' : S.Expands pieces out') : out = out' := by
  induction h generalizing out' with
  | nil =>
      cases h'
      rfl
  | literal _ ih =>
      cases h' with
      | literal hrest => rw [ih hrest]
  | reference _ _ ihinner ih =>
      cases h' with
      | reference hinner hrest => rw [ihinner hinner, ih hrest]

/-! ## Circles -/

theorem nested_ne_nil_of_circle {S : Strings} {a b : Nat}
    (hreach : Relation.TransGen S.Refers a b) (hcircle : Relation.TransGen S.Refers b b) (n : Nat) :
    S.nested n a ≠ [] := by
  induction n generalizing a with
  | zero => exact List.cons_ne_nil a []
  | succ n ih =>
      obtain ⟨c, hac, hcb⟩ := Relation.TransGen.head'_iff.mp hreach
      have hnext : Relation.TransGen S.Refers c b := by
        rcases Relation.reflTransGen_iff_eq_or_transGen.mp hcb with rfl | hcb
        · exact hcircle
        · exact hcb
      intro hnil
      exact ih hnext (List.flatMap_eq_nil_iff.mp hnil c hac)

end Strings

/-! ## Reading a text or failing -/

section

variable {α β : Type} {image : Image} {out out' : List UInt8} {a : α} {b : β} {bottom : Nat}
variable {x : DecodeM Image α} {f : α → DecodeM Image β}

/-- Whatever was found before, a computation leaves the image alone and adds a
text to it. -/
def Adds (image : Image) (out : List UInt8) (a : α) (x : DecodeM Image α) : Prop :=
  ∀ found, x ⟨image, found⟩ = .ok a ⟨image, found ++ out.toArray⟩

/-- Whatever was found before, a computation meets a string that is nested too
deeply. -/
def TooDeep (image : Image) (bottom : Nat) (x : DecodeM Image α) : Prop :=
  ∀ found, ∃ d, x ⟨image, found⟩ = .error (.nestedAbbreviation bottom) d

theorem Adds.pure (image : Image) (a : α) : Adds image [] a (Pure.pure a) :=
  fun found => by simp [Pure.pure, EStateM.pure]

theorem Adds.bind (hx : Adds image out a x) (hf : Adds image out' b (f a)) :
    Adds image (out ++ out') b (x >>= f) := by
  intro found
  rw [bind_ok (hx found), hf]
  simp

theorem Adds.bindPure (hx : Adds image out a x) (b : β) :
    Adds image out b (x >>= fun _ => Pure.pure b) := by
  intro found
  rw [bind_ok (hx found)]
  rfl

theorem Adds.bindTooDeep (hx : Adds image out a x) (hf : TooDeep image bottom (f a)) :
    TooDeep image bottom (x >>= f) := by
  intro found
  rw [bind_ok (hx found)]
  exact hf _

theorem TooDeep.bind (hx : TooDeep image bottom x) (f : α → DecodeM Image β) :
    TooDeep image bottom (x >>= f) := by
  intro found
  obtain ⟨d, hd⟩ := hx found
  exact ⟨d, bind_error hd⟩

end

namespace Strings

/-! ## Pieces -/

section

variable {S : Strings} (hversion : 3 ≤ S.header.version) (expand : Nat → DecodeM Image Unit)

include hversion

theorem adds_literal (text : List UInt8) :
    Adds S.image (text.map readBack) {}
      (decodeCodes S.header expand {} (Piece.codes S.header.version (.literal text))) := by
  rw [Piece.codes, encode_of_three_le hversion]
  exact decodeCodes_of_reads (.flatMap (reads_character hversion) text) S.image

theorem next_table (table : Fin 3) :
    Reading.next S.header.version {} (UInt8.ofNat (table + 1)) =
      ({ pending := .abbreviation (table + 1) }, .nothing) := by
  have hlate : ¬ S.header.version < 3 := UInt8.not_lt.mpr hversion
  simp only [Reading.next, hlate, if_false]
  revert table
  decide

theorem decodeCodes_reference {table : Fin 3} {index : Fin 32}
    (hentry : S.entry table index + 1 < S.image.bytes.size) (found : Array UInt8) :
    decodeCodes S.header expand {} (Piece.codes S.header.version (.reference table index))
        ⟨S.image, found⟩ =
      (do expand (S.target table index)
          return ({} : Reading)) ⟨S.image, found⟩ := by
  have hindex : (UInt8.ofNat index).toNat = index := by
    simp only [UInt8.toNat_ofNat']
    omega
  have haddress : S.header.abbreviations.toNat + (table.val + 1 - 1) * 64 +
      (UInt8.ofNat index).toNat * 2 = S.entry table index := by
    rw [hindex, entry]
    omega
  have hread : DecodeM.ofMemory (Memory.readWord (S.entry table index)) ⟨S.image, found⟩ =
      .ok (S.image.wordAt (S.entry table index)) ⟨S.image, found⟩ := by
    simp only [DecodeM.ofMemory, Image.readWord_of_lt hentry]
  have htarget : (S.image.wordAt (S.entry table index)).toNat * 2 = S.target table index :=
    Nat.mul_comm _ _
  simp only [Piece.codes, decodeCodes, next_table hversion, perform, pure_bind]
  simp only [Reading.next, bind_assoc, haddress]
  rw [bind_ok hread, htarget]

/-- A computation reads the expansion of pieces from which no chain of
references leads to one of these addresses, or fails at one of them. -/
def Settled (S : Strings) (pieces : List Piece) (bottoms : List Nat) {α : Type} (a : α)
    (x : DecodeM Image α) : Prop :=
  (bottoms = [] ∧ ∃ out, S.Expands pieces out ∧ Adds S.image out a x) ∨
    ∃ b ∈ bottoms, TooDeep S.image b x

/-- Pieces are read up to the first reference that fails. -/
theorem settled_pieces {levels : Nat} {pieces : List Piece}
    (hentries : ∀ table index, .reference table index ∈ pieces →
      S.entry table index + 1 < S.image.bytes.size)
    (hsettled : ∀ c ∈ S.references pieces,
      S.Settled (S.pieces c) (S.nested levels c) () (expand c)) :
    S.Settled pieces ((S.references pieces).flatMap (S.nested levels)) {}
      (decodeCodes S.header expand {} (spelling S.header.version pieces)) := by
  induction pieces with
  | nil => exact .inl ⟨rfl, [], .nil, .pure _ _⟩
  | cons piece pieces ih =>
      rw [spelling, List.flatMap_cons, ← spelling, decodeCodes_append]
      replace ih := ih fun _ _ hmem => hentries _ _ (.tail _ hmem)
      cases piece with
      | literal text =>
          have hliteral := adds_literal hversion expand text
          rcases ih hsettled with ⟨hnil, out, hexpands, hadds⟩ | ⟨b, hb, hdeep⟩
          · exact .inl ⟨hnil, _, .literal hexpands, hliteral.bind hadds⟩
          · exact .inr ⟨b, hb, hliteral.bindTooDeep hdeep⟩
      | reference table index =>
          have hpiece := decodeCodes_reference hversion expand (hentries table index (.head _))
          replace ih := ih fun c hc => hsettled c (.tail _ hc)
          have hcons : (S.references (.reference table index :: pieces)).flatMap (S.nested levels) =
              S.nested levels (S.target table index) ++
                (S.references pieces).flatMap (S.nested levels) := List.flatMap_cons
          rw [hcons]
          rcases hsettled (S.target table index) (.head _) with
            ⟨hnone, inner, hinner, hread⟩ | ⟨b, hb, hdeep⟩
          · have hreference : Adds S.image inner {} (decodeCodes S.header expand {}
                (Piece.codes S.header.version (.reference table index))) := by
              intro found
              rw [hpiece, bind_ok (hread found)]
              rfl
            rcases ih with ⟨hnil, out, hexpands, hadds⟩ | ⟨b, hb, hdeep⟩
            · refine .inl ⟨?_, _, .reference hinner hexpands, hreference.bind hadds⟩
              rw [hnone, hnil]
              rfl
            · exact .inr ⟨b, List.mem_append_right _ hb, hreference.bindTooDeep hdeep⟩
          · have hreference : TooDeep S.image b (decodeCodes S.header expand {}
                (Piece.codes S.header.version (.reference table index))) := by
              intro found
              rw [hpiece]
              exact hdeep.bind _ found
            exact .inr ⟨b, List.mem_append_left _ hb, hreference.bind _⟩

/-! ## Levels -/

theorem lt_of_mem_spelling (pieces : List Piece) :
    ∀ z ∈ spelling S.header.version pieces, z < 32 := by
  intro z hz
  obtain ⟨piece, -, hz⟩ := List.mem_flatMap.mp hz
  cases piece with
  | literal text =>
      rw [Piece.codes, encode_of_three_le hversion] at hz
      exact lt_of_mem_encodeShifting text z hz
  | reference table index =>
      have htable : ∀ table : Fin 3, UInt8.ofNat (table + 1) < 32 := by decide
      have hindex : ∀ index : Fin 32, UInt8.ofNat index < 32 := by decide
      simp only [Piece.codes, List.mem_cons, List.not_mem_nil, or_false] at hz
      rcases hz with rfl | rfl
      · exact htable table
      · exact hindex index

/-- A string that stands in the image is decoded like its pieces, with some
fillers after them. -/
theorem decodeNested_of_stands {a : Nat} (hstands : S.Stands a) (levels : Nat) :
    ∃ n, ∀ found, decodeNested S.header (levels + 1) a ⟨S.image, found⟩ =
      (do let r ← decodeCodes S.header
            (fun target => discard (decodeNested S.header levels target)) {}
            (spelling S.header.version (S.pieces a))
          let _ ← decodeCodes S.header
            (fun target => discard (decodeNested S.header levels target)) r
            (List.replicate n filler)
          return a + 2 * (S.words a).length) ⟨S.image, found⟩ := by
  obtain ⟨front, last, hpack, hfront, hlast, hcodes⟩ :=
    exists_pack_eq (lt_of_mem_spelling hversion (S.pieces a))
  have hlaid := hstands.laid
  rw [words] at hlaid ⊢
  rw [hpack] at hcodes hlaid ⊢
  obtain ⟨n, hfilled⟩ : ∃ n, filled (spelling S.header.version (S.pieces a)) =
    spelling S.header.version (S.pieces a) ++ List.replicate n filler := ⟨_, rfl⟩
  refine ⟨n, fun found => ?_⟩
  rw [decodeNested_eq levels hfront hlast hlaid, hcodes, hfilled, decodeCodes_append, bind_assoc]

theorem settled_string (levels : Nat) {a : Nat}
    (hstands : ∀ n < levels, ∀ b ∈ S.nested n a, S.Stands b) :
    S.Settled (S.pieces a) (S.nested levels a) (a + 2 * (S.words a).length)
      (decodeNested S.header levels a) := by
  induction levels generalizing a with
  | zero => exact .inr ⟨a, List.mem_singleton_self a, fun found => ⟨_, rfl⟩⟩
  | succ levels ih =>
      have hhere := hstands 0 (by omega) a (List.mem_singleton_self a)
      have hsettled : ∀ c ∈ S.references (S.pieces a),
          S.Settled (S.pieces c) (S.nested levels c) ()
            (discard (decodeNested S.header levels c)) := by
        intro c hc
        have hbelow : ∀ n < levels, ∀ b ∈ S.nested n c, S.Stands b := fun n hn b hb =>
          hstands (n + 1) (by omega) b (List.mem_flatMap.mpr ⟨c, hc, hb⟩)
        rw [discard_eq]
        rcases ih hbelow with ⟨hnil, out, hexpands, hadds⟩ | ⟨b, hb, hdeep⟩
        · exact .inl ⟨hnil, out, hexpands, hadds.bindPure ()⟩
        · exact .inr ⟨b, hb, hdeep.bind _⟩
      obtain ⟨n, hdecode⟩ := decodeNested_of_stands hversion hhere levels
      rcases settled_pieces hversion
          (fun target => discard (decodeNested S.header levels target)) hhere.entries hsettled with
        ⟨hnil, out, hexpands, hadds⟩ | ⟨b, hb, hdeep⟩
      · refine .inl ⟨hnil, out, hexpands, fun found => ?_⟩
        obtain ⟨r, hfillers⟩ := reads_fillers S.header.version n (r := {}) rfl
        rw [hdecode, bind_ok (hadds found), bind_ok (decodeCodes_of_reads hfillers _ _)]
        simp [pure, EStateM.pure]
      · refine .inr ⟨b, hb, fun found => ?_⟩
        rw [hdecode]
        exact hdeep.bind _ found

end

/-- A string whose chains of references are at most three long is read as its
expansion.  If one is longer, and certainly if references go in a circle, the
decoder fails at the end of a chain of four.  It does so in every memory that
shows the image, and whatever was found before. -/
theorem decodeText_expands {M : Type} [AddressSpace M] {R : M → Image → Prop}
    (hR : MemorySim True R) (S : Strings) (hversion : 3 ≤ S.header.version) {m : M}
    (hm : R m S.image) {a : Nat} (hstands : ∀ n ≤ 3, ∀ b ∈ S.nested n a, S.Stands b)
    (found : Array UInt8) :
    (S.nested 4 a = [] →
      ∃ out m', (∀ text, S.Expands (S.pieces a) text ↔ text = out) ∧ R m' S.image ∧
        decodeText S.header a ⟨m, found⟩ =
          .ok (a + 2 * (S.words a).length) ⟨m', found ++ out.toArray⟩) ∧
    (S.nested 4 a ≠ [] ∨
        (∃ b, Relation.ReflTransGen S.Refers a b ∧ Relation.TransGen S.Refers b b) →
      ∃ b ∈ S.nested 4 a, ∃ d,
        decodeText S.header a ⟨m, found⟩ = .error (.nestedAbbreviation b) d) := by
  have hsettled := settled_string hversion 4 fun n hn => hstands n (by omega)
  refine ⟨fun hnil => ?_, fun hlong => ?_⟩
  · rcases hsettled with ⟨-, out, hexpands, hadds⟩ | ⟨b, hb, -⟩
    · obtain ⟨m', hm', hdecode⟩ := exists_decodeText hR hm (hadds found)
      refine ⟨out, m', fun text => ⟨fun htext => htext.unique hexpands, ?_⟩, hm', hdecode⟩
      rintro rfl
      exact hexpands
    · rw [hnil] at hb
      cases hb
  · have hne : S.nested 4 a ≠ [] := by
      rcases hlong with hne | ⟨b, hreach, hcircle⟩
      · exact hne
      · exact nested_ne_nil_of_circle (Relation.TransGen.trans_right hreach hcircle) hcircle 4
    rcases hsettled with ⟨hnil, -⟩ | ⟨b, hb, hdeep⟩
    · exact absurd hnil hne
    · obtain ⟨d, himage⟩ := hdeep found
      exact ⟨b, hb, exists_decodeText_error hR hm himage⟩

/-- Four entries, a string at 8 that nests three others, and one at 20 that
refers to itself.  References start at each of the places in a word, and one is
split between two. -/
def nest : Strings where
  header := { (default : Header) with version := 3 }
  image := ⟨#[0, 7, 0, 8, 0, 9, 0, 10,
    0x10, 0xc1, 0x80, 0xe5, 0, 0,
    0x84, 0x28, 0xa4, 0x22, 0x94, 0xe5, 0xa8, 0x23]⟩
  pieces
    | 8 => [.literal [65], .abbreviation 0, .literal [98]]
    | 14 => [.abbreviation 1, .literal [99]]
    | 16 => [.literal [100], .abbreviation 2]
    | 18 => [.literal [10]]
    | 20 => [.literal [101], .abbreviation 3]
    | _ => []

theorem decodeText_expands_nest :
    (∀ n ≤ 3, ∀ b ∈ nest.nested n 8, nest.Stands b) ∧
      (∀ n ≤ 3, ∀ b ∈ nest.nested n 20, nest.Stands b) ∧
      nest.nested 3 8 = [18] ∧ nest.nested 4 8 = [] ∧ nest.nested 4 20 = [20] ∧
      nest.Expands (nest.pieces 8) [65, 100, 13, 99, 98] ∧
      decodeText nest.header 8 ⟨nest.image, #[62]⟩ =
        .ok 12 ⟨nest.image, #[62, 65, 100, 13, 99, 98]⟩ ∧
      ∃ d, decodeText nest.header 20 ⟨nest.image, #[]⟩ = .error (.nestedAbbreviation 20) d := by
  have hstands : ∀ n ≤ 3, ∀ b ∈ nest.nested n 8, nest.Stands b := by decide +kernel
  have hcircle : ∀ n ≤ 3, ∀ b ∈ nest.nested n 20, nest.Stands b := by decide +kernel
  have hbottom : nest.nested 4 20 = [20] := by decide +kernel
  have hversion : 3 ≤ nest.header.version := by decide
  have hend : nest.nested 4 8 = [] := by decide +kernel
  obtain ⟨out, _, hexpands, rfl, hdecode⟩ :=
    (decodeText_expands MemorySim.refl nest hversion rfl hstands #[62]).1 hend
  have hrun : decodeText nest.header 8 ⟨nest.image, #[62]⟩ =
      .ok 12 ⟨nest.image, #[62, 65, 100, 13, 99, 98]⟩ := rfl
  have hout : out = [65, 100, 13, 99, 98] := by
    rw [hrun] at hdecode
    have htext := congrArg (fun r => (reached r).text.toList) hdecode
    simpa [reached] using htext.symm
  obtain ⟨b, hb, hfails⟩ :=
    (decodeText_expands MemorySim.refl nest hversion rfl hcircle #[]).2 (.inl (by simp [hbottom]))
  rw [hbottom, List.mem_singleton] at hb
  subst hb
  exact ⟨hstands, hcircle, by decide +kernel, hend, hbottom, (hexpands _).mpr hout.symm, hrun,
    hfails⟩

end Strings

end ZMachine.ZString
