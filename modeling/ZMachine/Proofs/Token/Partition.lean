import ZMachine.Token

/-!
# Tokens partition the line

A search for a token may begin anywhere, also in the middle of a word, and
would then find a part of it.  Searches that go on where the last one stopped
never do: `Breaks` says of a position that no word runs across it, holds at the
start of the line, and holds again behind every token that is found.

What the tokens of a line are is said without a search.  `IsSeparator` and
`IsWord` look at the characters in a span and next to it.  Two spans of this
kind that share a position are equal, so a list of them that leaves out only
blanks is the list of them all.
-/

namespace ZMachine.Token

variable {separators text : List UInt8} {s t : Span} {pos : Nat}

/-! ## What a token is -/

/-- The character belongs to words. -/
def InWord (separators : List UInt8) (c : UInt8) : Prop :=
  c ∉ separators ∧ c ∉ builtIn

/-- The character ends words and is in no token. -/
def Blank (separators : List UInt8) (c : UInt8) : Prop :=
  c ∈ builtIn ∧ c ∉ separators

/-- First position behind the span. -/
def Span.stop (s : Span) : Nat :=
  s.start + s.length

def Span.Covers (s : Span) (i : Nat) : Prop :=
  s.start ≤ i ∧ i < s.stop

/-- One of the story's separators, by itself. -/
def IsSeparator (separators text : List UInt8) (s : Span) : Prop :=
  s.length = 1 ∧ ∃ c ∈ separators, text[s.start]? = some c

/-- A run of word characters that cannot be made longer on either side. -/
structure IsWord (separators text : List UInt8) (s : Span) : Prop where
  nonempty : 0 < s.length
  within : ∀ i, s.Covers i → ∃ c, text[i]? = some c ∧ InWord separators c
  before : ∀ i c, i + 1 = s.start → text[i]? = some c → ¬ InWord separators c
  behind : ∀ c, text[s.stop]? = some c → ¬ InWord separators c

def IsToken (separators text : List UInt8) (s : Span) : Prop :=
  IsSeparator separators text s ∨ IsWord separators text s

theorem IsSeparator.covers_iff (hs : IsSeparator separators text s) {i : Nat} :
    s.Covers i ↔ i = s.start := by
  have hlength := hs.1
  unfold Span.Covers Span.stop
  omega

theorem IsToken.length_pos (hs : IsToken separators text s) : 0 < s.length := by
  rcases hs with hs | hs
  · rw [hs.1]
    exact Nat.one_pos
  · exact hs.nonempty

theorem IsToken.covers_start (hs : IsToken separators text s) : s.Covers s.start := by
  have hpos := hs.length_pos
  unfold Span.Covers Span.stop
  omega

/-- The characters of a token. -/
theorem IsToken.character (hs : IsToken separators text s) {i : Nat} (hi : s.Covers i) :
    ∃ c, text[i]? = some c ∧ ¬ Blank separators c := by
  rcases hs with hs | hs
  · obtain ⟨c, hc, hat⟩ := hs.2
    rw [hs.covers_iff] at hi
    exact ⟨c, hi ▸ hat, fun hblank => hblank.2 hc⟩
  · obtain ⟨c, hat, hc⟩ := hs.within i hi
    exact ⟨c, hat, fun hblank => hc.2 hblank.1⟩

theorem IsToken.stop_le (hs : IsToken separators text s) : s.stop ≤ text.length := by
  have hpos := hs.length_pos
  have hlast : s.Covers (s.stop - 1) := by
    unfold Span.Covers Span.stop
    omega
  obtain ⟨c, hc, -⟩ := hs.character hlast
  have hlt := (List.getElem?_eq_some_iff.mp hc).1
  omega

/-! ## Tokens that share a position -/

theorem IsWord.start_le (hs : IsWord separators text s) (ht : IsWord separators text t) {i : Nat}
    (hsi : s.Covers i) (hti : t.Covers i) : t.start ≤ s.start := by
  -- Otherwise the character in front of `t` belongs to the word `s`.
  apply Nat.le_of_not_lt
  intro hlt
  have hin : s.Covers (t.start - 1) := by
    unfold Span.Covers at *
    omega
  obtain ⟨c, hc, hword⟩ := hs.within _ hin
  exact ht.before (t.start - 1) c (by omega) hc hword

theorem IsWord.stop_le_stop (hs : IsWord separators text s) (ht : IsWord separators text t)
    {i : Nat} (hsi : s.Covers i) (hti : t.Covers i) : s.stop ≤ t.stop := by
  apply Nat.le_of_not_lt
  intro hlt
  have hin : s.Covers t.stop := by
    unfold Span.Covers at *
    omega
  obtain ⟨c, hc, hword⟩ := hs.within _ hin
  exact ht.behind c hc hword

theorem IsSeparator.not_isWord (hs : IsSeparator separators text s)
    (ht : IsWord separators text t) : ¬ t.Covers s.start := by
  intro hcovers
  obtain ⟨c, hc, hat⟩ := hs.2
  obtain ⟨d, hd, hword⟩ := ht.within _ hcovers
  rw [hat] at hd
  cases hd
  exact hword.1 hc

theorem Span.ext_start_stop (hstart : s.start = t.start) (hstop : s.stop = t.stop) : s = t := by
  cases s
  cases t
  simp only [Span.stop, Span.mk.injEq] at *
  omega

theorem IsToken.eq_of_covers (hs : IsToken separators text s) (ht : IsToken separators text t)
    {i : Nat} (hsi : s.Covers i) (hti : t.Covers i) : s = t := by
  rcases hs with hs | hs <;> rcases ht with ht | ht
  · rw [hs.covers_iff] at hsi
    rw [ht.covers_iff] at hti
    have hlength := hs.1.trans ht.1.symm
    apply Span.ext_start_stop
    · exact hsi.symm.trans hti
    · rw [Span.stop, Span.stop, ← hsi, ← hti, hlength]
  · rw [hs.covers_iff] at hsi
    exact absurd (hsi ▸ hti) (hs.not_isWord ht)
  · rw [ht.covers_iff] at hti
    exact absurd (hti ▸ hsi) (ht.not_isWord hs)
  · apply Span.ext_start_stop
    · exact Nat.le_antisymm (ht.start_le hs hti hsi) (hs.start_le ht hsi hti)
    · exact Nat.le_antisymm (hs.stop_le_stop ht hsi hti) (ht.stop_le_stop hs hti hsi)

/-! ## One search -/

/-- No word runs across the position. -/
def Breaks (separators text : List UInt8) (pos : Nat) : Prop :=
  ∀ i c d, i + 1 = pos → text[i]? = some c → text[pos]? = some d →
    InWord separators c → ¬ InWord separators d

theorem breaks_zero (separators text : List UInt8) : Breaks separators text 0 :=
  fun _ _ _ hzero => absurd hzero (Nat.succ_ne_zero _)

theorem breaks_of_next {c : UInt8} (hc : text[pos]? = some c) (hword : ¬ InWord separators c) :
    Breaks separators text pos := by
  intro i b d _ _ hd _
  rw [hc] at hd
  cases hd
  exact hword

theorem breaks_of_last {c : UInt8} (hc : text[pos]? = some c) (hword : ¬ InWord separators c) :
    Breaks separators text (pos + 1) := by
  intro i b d hi hb _ hb'
  obtain rfl : i = pos := Nat.succ.inj hi
  rw [hc] at hb
  cases hb
  exact absurd hb' hword

theorem breaks_of_end (hend : text.length ≤ pos) : Breaks separators text pos := by
  intro i c d _ _ hd
  rw [List.getElem?_eq_none hend] at hd
  cases hd

/-- What a search from a position may answer: there are only blanks left, or a
token with nothing but blanks around it up to where the next search begins. -/
inductive Answers (separators text : List UInt8) (pos : Nat) : Nat × Option Span → Prop
  | nothing {after : Nat}
      (blanks : ∀ i c, pos ≤ i → text[i]? = some c → Blank separators c) :
      Answers separators text pos (after, none)
  | found {after : Nat} {s : Span} (token : IsToken separators text s) (start_le : pos ≤ s.start)
      (stop_le : s.stop ≤ after) (breaks : Breaks separators text after)
      (blanks : ∀ i c, pos ≤ i → i < after → ¬ s.Covers i → text[i]? = some c →
        Blank separators c) :
      Answers separators text pos (after, some s)

theorem Answers.skip {answer : Nat × Option Span} {c : UInt8} (hc : text[pos]? = some c)
    (hblank : Blank separators c) (h : Answers separators text (pos + 1) answer) :
    Answers separators text pos answer := by
  have hfirst : ∀ i d, i = pos → text[i]? = some d → Blank separators d := by
    rintro i d rfl hd
    rw [hc] at hd
    cases hd
    exact hblank
  cases h with
  | nothing blanks =>
      refine .nothing fun i d hi hd => ?_
      rcases Nat.eq_or_lt_of_le hi with heq | hlt
      · exact hfirst i d heq.symm hd
      · exact blanks i d hlt hd
  | found token start_le stop_le breaks blanks =>
      refine .found token (Nat.le_of_succ_le start_le) stop_le breaks fun i d hi hlt hout hd => ?_
      rcases Nat.eq_or_lt_of_le hi with heq | hgt
      · exact hfirst i d heq.symm hd
      · exact blanks i d hgt hlt hout hd

/-- A word that ends where the next search begins. -/
theorem IsWord.answers (hs : IsWord separators text s) (hstop : s.stop = pos)
    (hbreaks : Breaks separators text pos) : Answers separators text s.start (pos, some s) := by
  refine .found (.inr hs) (Nat.le_refl _) (Nat.le_of_eq hstop) hbreaks ?_
  intro i c hi hlt hout
  exact absurd ⟨hi, hstop ▸ hlt⟩ hout

theorem getElem?_of_drop_eq_cons {i : Nat} {c : UInt8} {rest : List UInt8}
    (h : text.drop i = c :: rest) : text[i]? = some c ∧ text.drop (i + 1) = rest := by
  constructor
  · rw [← List.head?_drop, h]
    rfl
  · rw [← List.tail_drop, h]
    rfl

/-- A search with a word under way finds the rest of this word. -/
theorem scan_word (word : Span) {rest : List UInt8} {i : Nat} (hrest : text.drop i = rest)
    (hstop : word.stop = i) (hpos : 0 < word.length)
    (hwithin : ∀ j, word.Covers j → ∃ c, text[j]? = some c ∧ InWord separators c)
    (hbefore : ∀ j c, j + 1 = word.start → text[j]? = some c → ¬ InWord separators c) :
    Answers separators text word.start (scan separators word i rest) := by
  induction rest generalizing word i with
  | nil =>
      have hend : text.length ≤ i := List.drop_eq_nil_iff.mp hrest
      have hword : IsWord separators text word :=
        ⟨hpos, hwithin, hbefore, fun c hc => by
          rw [List.getElem?_eq_none (hstop ▸ hend)] at hc
          cases hc⟩
      rw [scan, if_neg (Nat.ne_of_gt hpos)]
      exact hword.answers hstop (breaks_of_end hend)
  | cons c rest ih =>
      -- The search goes on only with a character of the word.
      obtain ⟨hc, htail⟩ := getElem?_of_drop_eq_cons hrest
      have hclosed (hend : ¬ InWord separators c) : IsWord separators text word := by
        refine ⟨hpos, hwithin, hbefore, fun d hd => ?_⟩
        rw [hstop, hc] at hd
        cases hd
        exact hend
      unfold scan
      split
      next hseparator =>
        have hend : ¬ InWord separators c := fun h => h.1 hseparator
        rw [if_neg (Nat.ne_of_gt hpos)]
        exact (hclosed hend).answers hstop (breaks_of_next hc hend)
      next hseparator =>
        split
        next hbuiltIn =>
          have hend : ¬ InWord separators c := fun h => h.2 hbuiltIn
          rw [if_neg (Nat.ne_of_gt hpos)]
          -- The blank behind the word is passed over with it.
          refine .found (.inr (hclosed hend)) (Nat.le_refl _)
            (Nat.le_succ_of_le (Nat.le_of_eq hstop)) (breaks_of_last hc hend) ?_
          intro j d hj hlt hout hd
          obtain rfl : j = i := by
            unfold Span.Covers at hout
            omega
          rw [hc] at hd
          cases hd
          exact ⟨hbuiltIn, hseparator⟩
        next hbuiltIn =>
          simp only [if_neg (Nat.ne_of_gt hpos)]
          refine ih ⟨word.start, word.length + 1⟩ htail ?_ (Nat.succ_pos _) ?_ hbefore
          · simp only [Span.stop] at hstop ⊢
            omega
          · intro j hj
            rcases Nat.lt_or_ge j i with hlt | hge
            · exact hwithin j ⟨hj.1, hstop ▸ hlt⟩
            · obtain rfl : j = i := by
                have hj' := hj.2
                simp only [Span.stop] at hj' hstop
                omega
              exact ⟨c, hc, hseparator, hbuiltIn⟩

/-- A search with no word under way. -/
theorem scan_answers {rest : List UInt8} {word : Span} {i : Nat} (hrest : text.drop i = rest)
    (hnone : word.length = 0) (hbreaks : Breaks separators text i) :
    Answers separators text i (scan separators word i rest) := by
  induction rest generalizing i with
  | nil =>
      rw [scan, if_pos hnone]
      refine .nothing fun j c hj hc => ?_
      rw [List.getElem?_eq_none (Nat.le_trans (List.drop_eq_nil_iff.mp hrest) hj)] at hc
      cases hc
  | cons c rest ih =>
      obtain ⟨hc, htail⟩ := getElem?_of_drop_eq_cons hrest
      unfold scan
      simp only [if_pos hnone]
      split
      next hseparator =>
        have hend : ¬ InWord separators c := fun h => h.1 hseparator
        refine .found (.inl ⟨rfl, c, hseparator, hc⟩) (Nat.le_refl _) (Nat.le_refl _)
          (breaks_of_last hc hend) ?_
        intro j d hj hlt hout
        exact absurd ⟨hj, hlt⟩ hout
      next hseparator =>
        split
        next hbuiltIn =>
          have hend : ¬ InWord separators c := fun h => h.2 hbuiltIn
          exact .skip hc ⟨hbuiltIn, hseparator⟩ (ih htail (breaks_of_last hc hend))
        next hbuiltIn =>
          rw [hnone]
          refine scan_word ⟨i, 0 + 1⟩ htail rfl Nat.one_pos ?_ ?_
          · intro j hj
            obtain rfl : j = i := Nat.le_antisymm (Nat.le_of_lt_succ hj.2) hj.1
            exact ⟨c, hc, hseparator, hbuiltIn⟩
          · intro j d hj hd hword
            exact hbreaks j d c hj hd hc hword ⟨hseparator, hbuiltIn⟩

theorem next_answers (hbreaks : Breaks separators text pos) :
    Answers separators text pos (next separators text pos) :=
  scan_answers rfl rfl hbreaks

/-! ## One search after the other -/

/-- Searches from a position on, each from where the last one stopped, find
these spans and then nothing more. -/
inductive Yields (separators text : List UInt8) : Nat → List Span → Prop
  | done {pos after : Nat} (h : next separators text pos = (after, none)) :
      Yields separators text pos []
  | found {pos after : Nat} {s : Span} {spans : List Span}
      (h : next separators text pos = (after, some s)) (rest : Yields separators text after spans) :
      Yields separators text pos (s :: spans)

theorem yields_tokensFrom (separators text : List UInt8) (pos : Nat) :
    Yields separators text pos (tokensFrom separators text pos) := by
  induction pos using tokensFrom.induct separators text with
  | case1 pos after h =>
      rw [tokensFrom, h]
      exact .done h
  | case2 pos after s h ih =>
      rw [tokensFrom, h]
      exact .found h ih

theorem Yields.eq_tokensFrom {spans : List Span} (h : Yields separators text pos spans) :
    spans = tokensFrom separators text pos := by
  induction h with
  | done h => rw [tokensFrom, h]
  | found h _ ih => rw [tokensFrom, h, ih]

/-- The spans are the tokens from a position on, in order. -/
structure Lists (separators text : List UInt8) (pos : Nat) (spans : List Span) : Prop where
  token : ∀ s ∈ spans, IsToken separators text s
  start_le : ∀ s ∈ spans, pos ≤ s.start
  ordered : spans.Pairwise fun s t => s.stop ≤ t.start
  covered : ∀ i c, pos ≤ i → text[i]? = some c → ¬ Blank separators c → ∃ s ∈ spans, s.Covers i

theorem Yields.lists {spans : List Span} (h : Yields separators text pos spans)
    (hbreaks : Breaks separators text pos) : Lists separators text pos spans := by
  induction h with
  | @done pos after h =>
      have hanswer := next_answers hbreaks
      rw [h] at hanswer
      obtain ⟨blanks⟩ := hanswer
      refine ⟨by simp, by simp, .nil, fun i c hi hc hblank => ?_⟩
      exact absurd (blanks i c hi hc) hblank
  | @found pos after s spans h _ ih =>
      have hanswer := next_answers hbreaks
      rw [h] at hanswer
      obtain - | ⟨token, start_le, stop_le, breaks, blanks⟩ := hanswer
      have hrest := ih breaks
      have hfrom : ∀ t ∈ spans, s.stop ≤ t.start := fun t ht =>
        Nat.le_trans stop_le (hrest.start_le t ht)
      constructor
      · exact List.forall_mem_cons.mpr ⟨token, hrest.token⟩
      · refine List.forall_mem_cons.mpr ⟨start_le, fun t ht => ?_⟩
        have hlast := hfrom t ht
        unfold Span.stop at hlast
        omega
      · exact List.pairwise_cons.mpr ⟨hfrom, hrest.ordered⟩
      · intro i c hi hc hblank
        by_cases hin : s.Covers i
        · exact ⟨s, List.mem_cons_self, hin⟩
        rcases Nat.lt_or_ge i after with hlt | hge
        · exact absurd (blanks i c hi hlt hin hc) hblank
        · obtain ⟨t, ht, hcovers⟩ := hrest.covered i c hge hc hblank
          exact ⟨t, List.mem_cons_of_mem s ht, hcovers⟩

theorem lists_tokens (separators text : List UInt8) :
    Lists separators text 0 (tokens separators text) :=
  (yields_tokensFrom separators text 0).lists (breaks_zero separators text)

theorem mem_tokens_iff : s ∈ tokens separators text ↔ IsToken separators text s := by
  have hlists := lists_tokens separators text
  constructor
  · exact hlists.token s
  · intro hs
    obtain ⟨c, hc, hblank⟩ := hs.character hs.covers_start
    obtain ⟨t, ht, hcovers⟩ := hlists.covered _ c (Nat.zero_le _) hc hblank
    rw [hs.eq_of_covers (hlists.token t ht) hs.covers_start hcovers]
    exact ht

/-- Searches from the start of a line end, and find its tokens: all separators
of the story and all words that cannot be made longer, from left to right.
Every character is in exactly one of them or is a blank. -/
theorem tokens_partition_line (separators text : List UInt8) :
    (∀ spans, Yields separators text 0 spans ↔ spans = tokens separators text) ∧
      (∀ s, s ∈ tokens separators text ↔
        IsSeparator separators text s ∨ IsWord separators text s) ∧
      (tokens separators text).Pairwise (fun s t => s.stop ≤ t.start) ∧
      (∀ s ∈ tokens separators text, 0 < s.length ∧ s.stop ≤ text.length) ∧
      ∀ i c, text[i]? = some c →
        (c ∈ builtIn ∧ c ∉ separators ∧ ∀ s ∈ tokens separators text, ¬ s.Covers i) ∨
          (¬ (c ∈ builtIn ∧ c ∉ separators) ∧
            ∃ s ∈ tokens separators text, s.Covers i ∧
              ∀ t ∈ tokens separators text, t.Covers i → t = s) := by
  have hlists := lists_tokens separators text
  refine ⟨fun spans => ⟨Yields.eq_tokensFrom, ?_⟩, fun s => mem_tokens_iff, hlists.ordered, ?_, ?_⟩
  · rintro rfl
    exact yields_tokensFrom separators text 0
  · intro s hs
    exact ⟨(hlists.token s hs).length_pos, (hlists.token s hs).stop_le⟩
  · intro i c hc
    by_cases hblank : Blank separators c
    · refine .inl ⟨hblank.1, hblank.2, fun s hs hcovers => ?_⟩
      obtain ⟨d, hd, hnot⟩ := (hlists.token s hs).character hcovers
      rw [hc] at hd
      cases hd
      exact hnot hblank
    · obtain ⟨s, hs, hcovers⟩ := hlists.covered i c (Nat.zero_le i) hc hblank
      refine .inr ⟨hblank, s, hs, hcovers, fun t ht hcovers' => ?_⟩
      exact (hlists.token t ht).eq_of_covers (hlists.token s hs) hcovers' hcovers

/-- The line "go.,in", where the full stop is a separator of the story and the
comma is not. -/
theorem tokens_partition_line_full_stop :
    tokens [46] [103, 111, 46, 44, 105, 110] = [⟨0, 2⟩, ⟨2, 1⟩, ⟨4, 2⟩] :=
  (((tokens_partition_line _ _).1 _).mp
    (.found rfl (.found rfl (.found rfl (.done rfl))))).symm

end ZMachine.Token
