/-!
# Tokens

A line of input falls into tokens.  The story's own separators are tokens of
one character; blanks and the built-in punctuation only end a word.  A
character that is both counts as the story's.
-/

namespace ZMachine.Token

/-- Blank, tab, line feed, form feed, and the characters `.`, `,`, `?`. -/
def builtIn : List UInt8 := [32, 9, 10, 12, 46, 44, 63]

/-- A piece of the line, by its first position and its length. -/
structure Span where
  start : Nat
  length : Nat
  deriving DecidableEq, Repr

/-- The text of a span. -/
def Span.text (line : List UInt8) (s : Span) : List UInt8 :=
  (line.drop s.start).take s.length

/-- Look for the next token in `rest`, whose first character stands at
position `i`; `word` is the word under way, if it is not empty. -/
def scan (separators : List UInt8) (word : Span) (i : Nat) :
    List UInt8 → Nat × Option Span
  | [] => (i, if word.length = 0 then none else some word)
  | c :: rest =>
    if c ∈ separators then
      if word.length = 0 then (i + 1, some ⟨i, 1⟩) else (i, some word)
    else if c ∈ builtIn then
      if word.length = 0 then scan separators word (i + 1) rest else (i + 1, some word)
    else
      let start := if word.length = 0 then i else word.start
      scan separators ⟨start, word.length + 1⟩ (i + 1) rest

/-- The first token from position `pos` on, after the position from which the
next search goes on. -/
def next (separators line : List UInt8) (pos : Nat) : Nat × Option Span :=
  scan separators ⟨pos, 0⟩ pos (line.drop pos)

theorem le_scan_fst (separators : List UInt8) (rest : List UInt8) (word : Span) (i : Nat) :
    i ≤ (scan separators word i rest).1 := by
  induction rest generalizing word i with
  | nil => simp [scan]
  | cons c rest ih =>
    unfold scan
    repeat' split
    all_goals first
      | exact Nat.le_refl i
      | exact Nat.le_succ i
      | exact Nat.le_trans (Nat.le_succ i) (ih _ (i + 1))

/-- A search that finds a token goes on behind it. -/
theorem lt_next_fst {separators line : List UInt8} {pos after : Nat} {s : Span}
    (h : next separators line pos = (after, some s)) : pos < after := by
  unfold next at h
  cases hrest : line.drop pos with
  | nil => simp [hrest, scan] at h
  | cons c rest =>
    rw [hrest] at h
    unfold scan at h
    simp only [if_true] at h
    split at h
    · cases h; exact Nat.lt_succ_self pos
    · split at h <;>
        exact Nat.lt_of_lt_of_eq (Nat.lt_of_succ_le (le_scan_fst separators rest _ (pos + 1)))
          (congrArg Prod.fst h)

/-- A search behind the end of the line finds nothing. -/
theorem next_eq_none {separators line : List UInt8} {pos : Nat} (h : line.length ≤ pos) :
    next separators line pos = (pos, none) := by
  simp [next, scan, List.drop_eq_nil_of_le h]

/-- The tokens from position `pos` on. -/
def tokensFrom (separators line : List UInt8) (pos : Nat) : List Span :=
  match _h : next separators line pos with
  | (_, none) => []
  | (after, some s) => s :: tokensFrom separators line after
termination_by line.length - pos
decreasing_by
  have hlt := lt_next_fst _h
  have : ¬ line.length ≤ pos := by
    intro hle
    rw [next_eq_none hle] at _h
    cases _h
  omega

/-- The tokens of a line, from left to right. -/
def tokens (separators line : List UInt8) : List Span :=
  tokensFrom separators line 0

end ZMachine.Token
