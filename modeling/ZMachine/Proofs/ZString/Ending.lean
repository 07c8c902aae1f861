import ZMachine.Proofs.ZString.Decoding

/-!
# Every string ends

`decodeText` bounds the words that it reads and the levels of abbreviations
before it starts.  `Runs` is the same loops without a bound on the words: they
go on until they find an end mark or something fails, and count how deep they
are.  A derivation is a run that comes to an end, and there is none for a run
that does not.

On every memory that shows an image they all come to an end, as `decodeText`
does.  A word that is read lies in memory, so a string without an end mark runs
into the end of memory; and each reference leads one level down, so a string
that refers to itself runs into the last level.
-/

namespace ZMachine.ZString

variable {M : Type} [AddressSpace M]

/-! ## Loops without a bound -/

/-- What is left to do: to decode a string, `depth` references away from the
first; its words from an address on; or before these the z-characters that are
left of a word, which is the last one or not. -/
inductive Job where
  | string (depth start : Nat)
  | words (depth address : Nat) (r : Reading)
  | codes (depth address : Nat) (r : Reading) (rest : List UInt8) (last : Bool)

inductive Runs (h : Header) :
    Job → Decoding M → EStateM.Result Fault (Decoding M) Nat → Prop where
  | tooDeep {depth start d} (hdeep : 3 < depth) :
      Runs h (.string depth start) d (.error (.nestedAbbreviation start) d)
  | string {depth start d result} (hdepth : ¬ 3 < depth)
      (hwords : Runs h (.words depth start {}) d result) :
      Runs h (.string depth start) d result
  | outside {depth address r d e d'}
      (hread : DecodeM.ofMemory (Memory.readWord address) d = .error e d') :
      Runs h (.words depth address r) d (.error e d')
  | word {depth address r d w d' result}
      (hread : DecodeM.ofMemory (Memory.readWord address) d = .ok w d')
      (hcodes : Runs h (.codes depth (address + 2) r (codes w) (isEnd w)) d' result) :
      Runs h (.words depth address r) d result
  | last {depth address r d} :
      Runs h (.codes depth address r [] true) d (.ok address d)
  | further {depth address r d result} (hwords : Runs h (.words depth address r) d result) :
      Runs h (.codes depth address r [] false) d result
  | silent {depth address r r' code rest last d result}
      (hnext : r.next h.version code = (r', .nothing))
      (hrest : Runs h (.codes depth address r' rest last) d result) :
      Runs h (.codes depth address r (code :: rest) last) d result
  | character {depth address r r' code c rest last d result}
      (hnext : r.next h.version code = (r', .character c))
      (hrest : Runs h (.codes depth address r' rest last) ⟨d.memory, d.text.push c⟩ result) :
      Runs h (.codes depth address r (code :: rest) last) d result
  | entryOutside {depth address r r' code table index rest last d e d'}
      (hnext : r.next h.version code = (r', .abbreviation table index))
      (hread : DecodeM.ofMemory
        (Memory.readWord (h.abbreviations.toNat + (table - 1) * 64 + index * 2)) d = .error e d') :
      Runs h (.codes depth address r (code :: rest) last) d (.error e d')
  | innerFails {depth address r r' code table index rest last d target d₁ e d'}
      (hnext : r.next h.version code = (r', .abbreviation table index))
      (hread : DecodeM.ofMemory
        (Memory.readWord (h.abbreviations.toNat + (table - 1) * 64 + index * 2)) d =
          .ok target d₁)
      (hinner : Runs h (.string (depth + 1) (target.toNat * 2)) d₁ (.error e d')) :
      Runs h (.codes depth address r (code :: rest) last) d (.error e d')
  | inner {depth address r r' code table index rest last d target d₁ after d₂ result}
      (hnext : r.next h.version code = (r', .abbreviation table index))
      (hread : DecodeM.ofMemory
        (Memory.readWord (h.abbreviations.toNat + (table - 1) * 64 + index * 2)) d =
          .ok target d₁)
      (hinner : Runs h (.string (depth + 1) (target.toNat * 2)) d₁ (.ok after d₂))
      (hrest : Runs h (.codes depth address r' rest last) d₂ result) :
      Runs h (.codes depth address r (code :: rest) last) d result

theorem Runs.unique {h : Header} {job : Job} {d : Decoding M}
    {result result' : EStateM.Result Fault (Decoding M) Nat} (hrun : Runs h job d result)
    (hrun' : Runs h job d result') : result = result' := by
  induction hrun generalizing result' with
  | tooDeep hdeep =>
      cases hrun' with
      | tooDeep => rfl
      | string hdepth => exact absurd hdeep hdepth
  | string hdepth _ ih =>
      cases hrun' with
      | tooDeep hdeep => exact absurd hdeep hdepth
      | string _ hwords => exact ih hwords
  | outside hread =>
      cases hrun' <;> grind
  | word hread _ ih =>
      cases hrun' <;> grind
  | last =>
      cases hrun'
      rfl
  | further _ ih =>
      cases hrun' with
      | further hwords => exact ih hwords
  | silent hnext _ ih =>
      cases hrun' <;> grind
  | character hnext _ ih =>
      cases hrun' <;> grind
  | entryOutside hnext hread =>
      cases hrun' <;> grind
  | innerFails hnext hread _ ih =>
      cases hrun' <;> grind
  | inner hnext hread _ _ ihinner ihrest =>
      cases hrun' <;> grind

/-! ## They end -/

section

variable {R : M → Image → Prop} (hR : MemorySim True R) {image : Image}

include hR

theorem readWord_call {d : Decoding M} (hd : R d.memory image) (address : Nat) :
    outcome (DecodeM.ofMemory (Memory.readWord address) d) =
        outcome (Memory.readWord address image) ∧
      R (reached (DecodeM.ofMemory (Memory.readWord address) d)).memory image := by
  have hstart : SameText R d ⟨image, d.text⟩ := ⟨hd, rfl⟩
  obtain ⟨houtcome, hmemory, -⟩ := ((DecodeSim.sameText hR).readWord address).call hstart
  by_cases hlt : address + 1 < image.bytes.size
  · have hread := Image.readWord_of_lt hlt
    simp only [DecodeM.ofMemory, hread, outcome, reached] at houtcome hmemory ⊢
    exact ⟨houtcome, hmemory⟩
  · obtain ⟨e, hread⟩ := Image.readWord_of_ge (Nat.not_lt.mp hlt)
    simp only [DecodeM.ofMemory, hread, outcome, reached] at houtcome hmemory ⊢
    exact ⟨houtcome, hmemory⟩

theorem lt_of_readWord_ok {d d' : Decoding M} (hd : R d.memory image) {address : Nat} {w : UInt16}
    (h : DecodeM.ofMemory (Memory.readWord address) d = .ok w d') :
    address + 1 < image.bytes.size := by
  apply Nat.lt_of_not_le
  intro hge
  obtain ⟨e, hread⟩ := Image.readWord_of_ge hge
  have houtcome := (readWord_call hR hd address).1
  rw [h, hread] at houtcome
  cases houtcome

theorem readWord_shows {d d' : Decoding M} (hd : R d.memory image) {address : Nat} {w : UInt16}
    (h : DecodeM.ofMemory (Memory.readWord address) d = .ok w d') : R d'.memory image := by
  have hreached := (readWord_call hR hd address).2
  rwa [h] at hreached

/-- From every memory that shows the image a job runs as a computation does,
and so does the memory after it. -/
def RunsAs (h : Header) (R : M → Image → Prop) (image : Image) (job : Job) (x : DecodeM M Nat) :
    Prop :=
  ∀ d, R d.memory image →
    Runs h job d (x d) ∧ ∀ after d', x d = .ok after d' → R d'.memory image

/-- A job fails as a computation of a reading does, or goes on after it. -/
def Leads (h : Header) (R : M → Image → Prop) (image : Image) (job : Job) (d : Decoding M)
    (next : Reading → Job) : EStateM.Result Fault (Decoding M) Reading → Prop
  | .error e d' => Runs h job d (.error e d')
  | .ok r d' => R d'.memory image ∧ ∀ result, Runs h (next r) d' result → Runs h job d result

omit hR in
theorem Leads.of_run {h : Header} {job job' : Job} {d d' : Decoding M} {next : Reading → Job}
    {y : EStateM.Result Fault (Decoding M) Reading} (hleads : Leads h R image job' d' next y)
    (hstep : ∀ result, Runs h job' d' result → Runs h job d result) :
    Leads h R image job d next y := by
  cases y with
  | error e d₁ => exact hstep _ hleads
  | ok r d₁ => exact ⟨hleads.1, fun result hrun => hstep result (hleads.2 result hrun)⟩

variable {h : Header} {depth : Nat} {nested : Nat → DecodeM M Nat}

theorem codes_lead
    (hnested : ∀ target, RunsAs h R image (.string (depth + 1) target) (nested target))
    (r : Reading) (zs : List UInt8) (address : Nat) (last : Bool) {d : Decoding M}
    (hd : R d.memory image) :
    Leads h R image (.codes depth address r zs last) d
      (fun r' => .codes depth address r' [] last)
      (decodeCodes h (fun target => discard (nested target)) r zs d) := by
  induction zs generalizing r d with
  | nil => exact ⟨hd, fun _ hrun => hrun⟩
  | cons code rest ih =>
      simp only [decodeCodes]
      cases hnext : r.next h.version code with
      | mk r' yielded =>
          cases yielded with
          | nothing => exact (ih r' hd).of_run fun _ => .silent hnext
          | character c =>
              exact (ih r' (d := ⟨d.memory, d.text.push c⟩) hd).of_run fun _ => .character hnext
          | abbreviation table index =>
              simp only [perform, bind_assoc, discard_eq, pure_bind]
              cases hread : DecodeM.ofMemory (Memory.readWord
                  (h.abbreviations.toNat + (table - 1) * 64 + index * 2)) d with
              | error e d₁ =>
                  rw [bind_error hread]
                  exact .entryOutside hnext hread
              | ok target d₁ =>
                  obtain ⟨hinner, hafter⟩ :=
                    hnested (target.toNat * 2) d₁ (readWord_shows hR hd hread)
                  rw [bind_ok hread]
                  cases hstring : nested (target.toNat * 2) d₁ with
                  | error e d₂ =>
                      rw [hstring] at hinner
                      rw [bind_error hstring]
                      exact .innerFails hnext hread hinner
                  | ok after d₂ =>
                      rw [hstring] at hinner
                      rw [bind_ok hstring]
                      exact (ih r' (hafter after d₂ hstring)).of_run fun _ =>
                        .inner hnext hread hinner

/-- The fuel never runs out: what remains of it reaches to the end of memory. -/
theorem words_run
    (hnested : ∀ target, RunsAs h R image (.string (depth + 1) target) (nested target))
    {fuel address : Nat} (hpos : 1 ≤ fuel) (hfuel : image.bytes.size ≤ address + fuel)
    (r : Reading) :
    RunsAs h R image (.words depth address r)
      (decodeWords h (fun target => discard (nested target)) fuel address r) := by
  induction fuel generalizing address r with
  | zero => omega
  | succ fuel ih =>
      intro d hd
      rw [decodeWords]
      cases hread : DecodeM.ofMemory (Memory.readWord address) d with
      | error e d₁ =>
          rw [bind_error hread]
          exact ⟨.outside hread, fun _ _ hok => by cases hok⟩
      | ok w d₁ =>
          have hlt := lt_of_readWord_ok hR hd hread
          have hleads := codes_lead hR hnested r (codes w) (address + 2) (isEnd w)
            (readWord_shows hR hd hread)
          rw [bind_ok hread]
          cases hcodes : decodeCodes h (fun target => discard (nested target)) r (codes w) d₁ with
          | error e d₂ =>
              rw [hcodes] at hleads
              rw [bind_error hcodes]
              exact ⟨.word hread hleads, fun _ _ hok => by cases hok⟩
          | ok r' d₂ =>
              rw [hcodes] at hleads
              obtain ⟨hd₂, hrun⟩ := hleads
              rw [bind_ok hcodes]
              -- The branch is on the mark, and so is the rule for the last z-character.
              by_cases hend : isEnd w = true
              · rw [if_pos hend]
                rw [hend] at hrun
                refine ⟨.word hread (hend ▸ hrun _ .last), fun after d' hok => ?_⟩
                cases hok
                exact hd₂
              · rw [if_neg hend]
                rw [Bool.eq_false_iff.mpr hend] at hrun
                have hreach : image.bytes.size ≤ address + 2 + fuel := by omega
                obtain ⟨hwords, hafter⟩ := ih (by omega) hreach r' d₂ hd₂
                refine ⟨.word hread ?_, hafter⟩
                rw [Bool.eq_false_iff.mpr hend]
                exact hrun _ (.further hwords)

theorem string_run (h : Header) {levels depth : Nat} (hlevels : depth + levels = 4)
    (start : Nat) :
    RunsAs h R image (.string depth start) (decodeNested h levels start) := by
  induction levels generalizing depth start with
  | zero => exact fun d _ => ⟨.tooDeep (by omega), fun _ _ hok => by cases hok⟩
  | succ levels ih =>
      intro d hd
      have hlook : DecodeM.ofMemory Memory.size d = .ok (AddressSpace.size d.memory) d := rfl
      have hsize : AddressSpace.size d.memory = image.bytes.size := hR.size_eq _ _ hd
      rw [decodeNested, bind_ok hlook, hsize]
      have hdeeper : depth + 1 + levels = 4 := by omega
      have hreach : image.bytes.size ≤ start + (image.bytes.size + 1) := by omega
      obtain ⟨hwords, hafter⟩ :=
        words_run hR (ih hdeeper) (Nat.le_add_left 1 _) hreach {} d hd
      exact ⟨.string (by omega) hwords, hafter⟩

end

/-! ## Where they end -/

/-- The word with index `k` is the first one from an address on that is
marked. -/
structure FirstMark (image : Image) (address k : Nat) : Prop where
  lt : address + 2 * k + 1 < image.bytes.size
  marked : 0x8000 ≤ (image.wordAt (address + 2 * k)).toNat
  unmarked : ∀ j < k, (image.wordAt (address + 2 * j)).toNat < 0x8000

theorem firstMark_zero {image : Image} {address : Nat} (hlt : address + 1 < image.bytes.size)
    (hend : isEnd (image.wordAt address) = true) : FirstMark image address 0 :=
  ⟨hlt, of_decide_eq_true hend, fun _ hj => absurd hj (Nat.not_lt_zero _)⟩

theorem FirstMark.succ {image : Image} {address k : Nat} (h : FirstMark image (address + 2) k)
    (hgoes : isEnd (image.wordAt address) = false) : FirstMark image address (k + 1) := by
  have hshift : ∀ j, address + 2 * (j + 1) = address + 2 + 2 * j := fun j => by omega
  obtain ⟨hlt, hmarked, hunmarked⟩ := h
  refine ⟨by rwa [hshift], by rwa [hshift], fun j hj => ?_⟩
  cases j with
  | zero => exact Nat.lt_of_not_le (of_decide_eq_false hgoes)
  | succ j =>
      rw [hshift]
      exact hunmarked j (by omega)

theorem decodeWords_ok {h : Header} {expand : Nat → DecodeM Image Unit}
    (hexpand : ∀ image text target,
      Sim False (Holding (Extends image text)) (Holding (Extends image text)) (expand target)
        (expand target))
    {image : Image} {fuel address after : Nat} {r : Reading} {text : Array UInt8}
    {d : Decoding Image}
    (hdecode : decodeWords h expand fuel address r ⟨image, text⟩ = .ok after d) :
    ∃ k, after = address + 2 * (k + 1) ∧ FirstMark image address k := by
  induction fuel generalizing address r text with
  | zero => cases hdecode
  | succ fuel ih =>
      rw [decodeWords] at hdecode
      obtain ⟨w, d₁, hread, hword⟩ := bind_eq_ok_iff.mp hdecode
      have hlt := lt_of_readWord_ok MemorySim.refl rfl hread
      rw [DecodeM.ofMemory, Image.readWord_of_lt hlt] at hread
      cases hread
      obtain ⟨r', ⟨image', text'⟩, hcodes, hrest⟩ := bind_eq_ok_iff.mp hword
      obtain ⟨rfl, -⟩ := decodeCodes_extends hexpand hcodes
      cases hend : isEnd (image'.wordAt address) with
      | true =>
          rw [if_pos hend] at hrest
          cases hrest
          exact ⟨0, rfl, firstMark_zero hlt hend⟩
      | false =>
          simp only [hend, Bool.false_eq_true, if_false] at hrest
          obtain ⟨k, rfl, hmark⟩ := ih hrest
          exact ⟨k + 1, by omega, hmark.succ hend⟩

/-! ## How they fail -/

/-- Every failure is as `E` says, and every result as `Q` says. -/
def Answers {α : Type} (E : Fault → Prop) (Q : α → Prop) (x : DecodeM Image α) : Prop :=
  ∀ d, (∀ a d', x d = .ok a d' → Q a) ∧ ∀ e d', x d = .error e d' → E e

namespace Answers

variable {E : Fault → Prop} {α β : Type} {Q : α → Prop} {Q' : β → Prop}

theorem pure {a : α} (ha : Q a) : Answers E Q (Pure.pure a) := by
  refine fun d => ⟨fun b d' h => ?_, fun e d' h => ?_⟩
  · cases h
    exact ha
  · cases h

theorem throw {e : Fault} (he : E e) : Answers E Q (MonadExcept.throw e) := by
  refine fun d => ⟨fun b d' h => ?_, fun e d' h => ?_⟩
  · cases h
  · cases h
    exact he

theorem bind {x : DecodeM Image α} {f : α → DecodeM Image β} (hx : Answers E Q x)
    (hf : ∀ a, Q a → Answers E Q' (f a)) : Answers E Q' (x >>= f) := by
  refine fun d => ⟨fun b d' h => ?_, fun e d' h => ?_⟩
  · obtain ⟨a, d₁, hok, hrest⟩ := bind_eq_ok_iff.mp h
    exact (hf a ((hx d).1 a d₁ hok) d₁).1 b d' hrest
  · rcases bind_eq_error_iff.mp h with herror | ⟨a, d₁, hok, hrest⟩
    · exact (hx d).2 e d' herror
    · exact (hf a ((hx d).1 a d₁ hok) d₁).2 e d' hrest

end Answers

/-- Memory that does not reach so far, or in versions that have abbreviations
one that is nested too deeply. -/
def DecodeFault (version : UInt8) (e : Fault) : Prop :=
  (∃ address size, e = .addressOutOfRange address size) ∨
    version ≠ 1 ∧ ∃ address, e = .nestedAbbreviation address

theorem readWord_answers (version : UInt8) (address : Nat) :
    Answers (DecodeFault version) (fun _ => True) (DecodeM.ofMemory (Memory.readWord address)) := by
  refine fun ⟨image, text⟩ => ⟨fun _ _ _ => trivial, fun e d' h => .inl ?_⟩
  simp only [DecodeM.ofMemory] at h
  split at h <;> cases h
  next hread =>
    obtain ⟨outside, rfl⟩ := Image.readWord_error hread
    exact ⟨outside, _, rfl⟩

/-- In version 1 nothing refers to an abbreviation. -/
def Reading.Plain (version : UInt8) (r : Reading) : Prop :=
  version = 1 → ∀ table, r.pending ≠ .abbreviation table

theorem next_plain {version : UInt8} {r : Reading} (hr : r.Plain version) (code : UInt8) :
    (r.next version code).1.Plain version ∧
      (version = 1 → ∀ table index, (r.next version code).2 ≠ .abbreviation table index) := by
  by_cases hone : version = 1
  · subst hone
    have hpending := hr rfl
    obtain ⟨row, lock, pending⟩ := r
    cases pending with
    | abbreviation table => exact absurd rfl (hpending table)
    | escapeHigh => simp [Reading.next, Reading.Plain]
    | escapeLow high => simp [Reading.next, Reading.Plain]
    | nothing =>
        have hearly : (1 : UInt8) < 3 := by decide
        simp only [Reading.next, Reading.Plain, Reading.alphabetic, Reading.controlEarly, hearly,
          if_true]
        repeat' split
        all_goals simp
  · exact ⟨fun h => absurd h hone, fun h => absurd h hone⟩

variable {h : Header} {expand : Nat → DecodeM Image Unit}

theorem decodeCodes_answers
    (hexpand : h.version ≠ 1 → ∀ target,
      Answers (DecodeFault h.version) (fun _ => True) (expand target))
    {r : Reading} (hr : r.Plain h.version) (zs : List UInt8) :
    Answers (DecodeFault h.version) (Reading.Plain h.version) (decodeCodes h expand r zs) := by
  induction zs generalizing r with
  | nil => exact .pure hr
  | cons code rest ih =>
      obtain ⟨hplain, hyield⟩ := next_plain hr code
      refine .bind (Q := fun _ => True) ?_ fun _ _ => ih hplain
      change Answers _ _ (perform h expand (r.next h.version code).2)
      cases hyielded : (r.next h.version code).2 with
      | nothing => exact .pure trivial
      | character c =>
          refine fun d => ⟨fun _ _ _ => trivial, fun e d' hemit => ?_⟩
          cases hemit
      | abbreviation table index =>
          have hversion : h.version ≠ 1 := fun hone => hyield hone table index hyielded
          exact .bind (readWord_answers _ _) fun target _ => hexpand hversion _

theorem decodeWords_answers
    (hexpand : h.version ≠ 1 → ∀ target,
      Answers (DecodeFault h.version) (fun _ => True) (expand target))
    (fuel address : Nat) {r : Reading} (hr : r.Plain h.version) :
    Answers (DecodeFault h.version) (fun _ => True) (decodeWords h expand fuel address r) := by
  induction fuel generalizing address r with
  | zero =>
      refine .bind (Q := fun _ => True) ?_ fun size _ => .throw (.inl ⟨address, size, rfl⟩)
      refine fun d => ⟨fun _ _ _ => trivial, fun e d' hsize => ?_⟩
      cases hsize
  | succ fuel ih =>
      refine .bind (readWord_answers _ _) fun w _ => ?_
      refine .bind (decodeCodes_answers hexpand hr _) fun r' hr' => ?_
      split
      · exact .pure trivial
      · exact ih _ hr'

theorem decodeNested_answers (h : Header) (levels : Nat) (hlevels : levels ≠ 0 ∨ h.version ≠ 1)
    (start : Nat) :
    Answers (DecodeFault h.version) (fun _ => True) (decodeNested h levels start) := by
  induction levels generalizing start with
  | zero =>
      have hversion : h.version ≠ 1 := hlevels.resolve_left fun hzero => hzero rfl
      exact .throw (.inr ⟨hversion, start, rfl⟩)
  | succ levels ih =>
      have hexpand : h.version ≠ 1 → ∀ target, Answers (DecodeFault h.version) (fun _ => True)
          (discard (decodeNested h levels target)) := by
        intro hversion target
        rw [discard_eq]
        exact .bind (ih (.inr hversion) target) fun _ _ => .pure trivial
      refine fun d => decodeWords_answers hexpand (AddressSpace.size d.memory + 1) start ?_ d
      intro _ table
      exact Pending.noConfusion

/-! ## Every decoding -/

/-- From every address of every memory that shows an image the unbounded loops
end, and as `decodeText` does.  A string that is read ends at the first mark, and
one that is not leads out of memory or, in versions with abbreviations, too
deep. -/
theorem decodeText_ends
    {M : Type} [AddressSpace M] {R : M → Image → Prop} (hR : MemorySim True R)
    {m : M} {image : Image} (hm : R m image) (h : Header) (start : Nat) (found : Array UInt8) :
    (∀ result, Runs h (.string 0 start) ⟨m, found⟩ result ↔
        result = decodeText h start ⟨m, found⟩) ∧
      (∀ after d, decodeText h start ⟨m, found⟩ = .ok after d →
        ∃ k, after = start + 2 * (k + 1) ∧ FirstMark image start k) ∧
      ∀ e d, decodeText h start ⟨m, found⟩ = .error e d → DecodeFault h.version e := by
  have hstart : SameText R ⟨m, found⟩ ⟨image, found⟩ := ⟨hm, rfl⟩
  have hsim := (DecodeSim.sameText hR).decodeNested h 4 start
  refine ⟨fun result => ?_, ?_, ?_⟩
  · have hrun : Runs h (.string 0 start) ⟨m, found⟩ (decodeText h start ⟨m, found⟩) :=
      (string_run hR h (rfl : 0 + 4 = 4) start ⟨m, found⟩ hm).1
    constructor
    · exact fun hresult => hresult.unique hrun
    · rintro rfl
      exact hrun
  · intro after d hdecode
    obtain ⟨d', himage, -⟩ := hsim.ok hstart hdecode
    have hexpand := fun image text target =>
      ((decodeSim_extends image text).decodeNested h 3 target).discard
    exact decodeWords_ok hexpand himage
  · intro e d hdecode
    obtain ⟨d', himage, -⟩ := hsim.error trivial hstart hdecode
    exact (decodeNested_answers h 4 (.inl (by decide)) start ⟨image, found⟩).2 e d' himage

/-- A string at 2 that refers to itself. -/
def cyclicStory : Image :=
  ⟨#[0x00, 0x01, 0x04, 0x05, 0x94, 0xa5]⟩

/-- It leads too deep where 1 is a reference, and is read to its second word
where 1 is the newline. -/
theorem decodeText_ends_cyclic :
    Runs { (default : Header) with version := 3 } (.string 0 2) ⟨cyclicStory, #[]⟩
        (.error (.nestedAbbreviation 2) ⟨cyclicStory, #[]⟩) ∧
      Runs { (default : Header) with version := 1 } (.string 0 2) ⟨cyclicStory, #[]⟩
        (.ok 6 ⟨cyclicStory, #[13, 32]⟩) ∧
      FirstMark cyclicStory 2 1 := by
  have hdeep : decodeText { (default : Header) with version := 3 } 2 ⟨cyclicStory, #[]⟩ =
      .error (.nestedAbbreviation 2) ⟨cyclicStory, #[]⟩ := rfl
  have hread : decodeText { (default : Header) with version := 1 } 2 ⟨cyclicStory, #[]⟩ =
      .ok 6 ⟨cyclicStory, #[13, 32]⟩ := rfl
  obtain ⟨hthree, -⟩ := decodeText_ends MemorySim.refl (m := cyclicStory) rfl
    { (default : Header) with version := 3 } 2 #[]
  obtain ⟨hone, hmark, -⟩ := decodeText_ends MemorySim.refl (m := cyclicStory) rfl
    { (default : Header) with version := 1 } 2 #[]
  obtain ⟨k, hafter, hmark⟩ := hmark 6 _ hread
  obtain rfl : k = 1 := by omega
  exact ⟨(hthree _).mpr hdeep.symm, (hone _).mpr hread.symm, hmark⟩

end ZMachine.ZString
