import Mathlib.Data.List.DropRight
import ZMachine.Host.Pipe
import ZMachine.Proofs.Simulation

/-!
# Lines of wrapped output

A pipe breaks a line when its column has reached the width, so the column has to
tell the length of the line.  Characters and breaks keep to that.  Reading a line
does not: it sets the column back and breaks nothing.  Characters that follow
are counted from 0 and join what is already on the line.

`Fits` says that no stretch between breaks is longer than the width.  It holds of
the output exactly if each line that is read leaves `Room` for the characters
behind it.  What is shown between breaks is always what was written.
-/

namespace ZMachine.Pipe

/-! ## Lines of a text -/

/-- No stretch without a break is longer than the width. -/
def Fits (width : Nat) (text : List Char) : Prop :=
  ∀ line, line <:+: text → '\n' ∉ line → line.length ≤ width

/-- Length of the line at the end of a text. -/
def lineLength (text : List Char) : Nat :=
  (text.rtakeWhile (· ≠ '\n')).length

variable {width : Nat} {text line : List Char} {c : Char}

theorem lineLength_break (text : List Char) : lineLength (text ++ ['\n']) = 0 := by
  simp [lineLength, List.rtakeWhile_concat_neg]

theorem lineLength_concat (text : List Char) (hc : c ≠ '\n') :
    lineLength (text ++ [c]) = lineLength text + 1 := by
  simp [lineLength, List.rtakeWhile_concat_pos, hc]

theorem length_le_lineLength (hline : line <:+ text) (hbreak : '\n' ∉ line) :
    line.length ≤ lineLength text := by
  obtain ⟨front, rfl⟩ := hline
  have hall : ∀ c ∈ line.reverse, decide (c ≠ '\n') = true := by
    intro c hc
    simp only [decide_eq_true_eq]
    rintro rfl
    exact hbreak (List.mem_reverse.mp hc)
  simp only [lineLength, List.rtakeWhile, List.reverse_append, List.length_reverse,
    List.takeWhile_append_of_pos hall, List.length_append]
  omega

theorem Fits.of_front {more : List Char} (h : Fits width more) (hfront : text <+: more) :
    Fits width text :=
  fun line hline => h line (hline.trans hfront.isInfix)

theorem Fits.lineLength_le (h : Fits width text) : lineLength text ≤ width := by
  apply h _ (List.rtakeWhile_suffix _ text).isInfix
  intro hbreak
  simpa using List.mem_rtakeWhile_imp hbreak

theorem fits_nil (width : Nat) : Fits width [] := by
  intro line hline _
  rw [List.infix_nil.mp hline]
  exact Nat.zero_le width

/-- A further character can only make the last line too long. -/
theorem fits_concat :
    Fits width (text ++ [c]) ↔ Fits width text ∧ lineLength (text ++ [c]) ≤ width := by
  constructor
  · intro h
    exact ⟨h.of_front (List.prefix_append text [c]), h.lineLength_le⟩
  · rintro ⟨hfits, hlast⟩ line hline hbreak
    rcases List.infix_concat_iff.mp hline with hsuffix | hinside
    · exact Nat.le_trans (length_le_lineLength hsuffix hbreak) hlast
    · exact hfits line hinside hbreak

/-! ## Calls -/

inductive Call where
  | write (b : UInt8)
  | read (limit : Nat) (timeout : UInt16)
  deriving DecidableEq, Repr

def Call.perform : Call → HostM Pipe Unit
  | .write b => Host.writeByte .lower b
  | .read limit timeout => discard (Host.readLine limit timeout)

/-- The pipe after calls, those that fail among them. -/
def after (calls : List Call) (p : Pipe) : Pipe :=
  stateAfter (calls.map Call.perform) p

/-- A line is read. -/
def answers (limit : Nat) (timeout : UInt16) (p : Pipe) : Bool :=
  match outcome (Host.readLine limit timeout p) with
  | .ok (.given _) => true
  | _ => false

/-- The character that a call shows. -/
def Call.shown : Call → Option Char
  | .write b => if b = 13 ∨ b = 10 then none else some (Char.ofNat b.toNat)
  | .read _ _ => none

/-- How many characters are shown before the next break or the next line that
is read. -/
def leading : List Call → Pipe → Nat
  | [], _ => 0
  | .write b :: calls, p =>
    if b = 13 ∨ b = 10 then 0 else leading calls (after [.write b] p) + 1
  | .read limit timeout :: calls, p =>
    if answers limit timeout p then 0 else leading calls (after [.read limit timeout] p)

/-- If a line is read now, the line of the output has room for the characters
that follow.  After a whole width of them there is a break. -/
def Room (p : Pipe) : List Call → Prop
  | .read limit timeout :: calls =>
    answers limit timeout p = true →
      lineLength p.output.toList + min p.width (leading calls (after [.read limit timeout] p)) ≤
        p.width
  | _ => True

/-! ## One call -/

theorem after_cons (call : Call) (calls : List Call) (p : Pipe) :
    after (call :: calls) p = after calls (after [call] p) := rfl

theorem after_write (b : UInt8) (p : Pipe) : after [.write b] p = writeLower b p := rfl

/-- There is no line, or it is lost, or it is given and the column is set
back. -/
theorem readLine_cases (limit : Nat) (p : Pipe) :
    readLine limit p = .ok .closed p ∨
      (∃ e rest, readLine limit p = .error e { p with input := rest }) ∨
      ∃ line rest, readLine limit p = .ok (.given line) { p with input := rest, column := 0 } := by
  have hget : (get : HostM Pipe Pipe) p = .ok p p := rfl
  unfold readLine
  rw [bind_ok hget]
  dsimp only
  split
  · exact .inl rfl
  · split
    · exact .inr (.inl ⟨_, _, rfl⟩)
    · exact .inr (.inr ⟨_, _, rfl⟩)

theorem after_read (limit : Nat) (timeout : UInt16) (p : Pipe) :
    ∃ input, after [.read limit timeout] p =
      { p with input, column := if answers limit timeout p then 0 else p.column } := by
  have hanswers : answers limit timeout p =
      match outcome (readLine limit p) with | .ok (.given _) => true | _ => false := rfl
  have hafter : after [.read limit timeout] p = reached ((discard (readLine limit)) p) := rfl
  rw [discard_eq] at hafter
  rw [hanswers, hafter]
  rcases readLine_cases limit p with hread | ⟨e, rest, hread⟩ | ⟨line, rest, hread⟩
  · rw [bind_ok hread, hread]
    exact ⟨p.input, rfl⟩
  · rw [bind_error hread, hread]
    exact ⟨rest, rfl⟩
  · rw [bind_ok hread, hread]
    exact ⟨rest, rfl⟩

theorem ofNat_ne_break {b : UInt8} (hb : b ≠ 10) : Char.ofNat b.toNat ≠ '\n' := by
  have hall : ∀ n : Fin 256, Char.ofNat n = '\n' → n = ⟨10, by decide⟩ := by decide +kernel
  intro hbreak
  have hten := hall ⟨b.toNat, b.toNat_lt⟩ hbreak
  exact hb (UInt8.toNat_inj.mp (congrArg Fin.val hten))

/-- The text grows by what a call shows, with a break before it if the line is
full. -/
theorem output_write (b : UInt8) (p : Pipe) :
    (after [.write b] p).output.toList = p.output.toList ++
      if b = 13 ∨ b = 10 then ['\n']
      else if p.width ≤ p.column then ['\n', Char.ofNat b.toNat] else [Char.ofNat b.toNat] := by
  rw [after_write, writeLower]
  split
  · simp
  · split <;> simp

theorem column_write (b : UInt8) (p : Pipe) :
    (after [.write b] p).column =
      if b = 13 ∨ b = 10 then 0 else if p.width ≤ p.column then 1 else p.column + 1 := by
  rw [after_write, writeLower]
  split
  · rfl
  · split <;> rfl

theorem lineLength_write (b : UInt8) (p : Pipe) :
    lineLength (after [.write b] p).output.toList =
      if b = 13 ∨ b = 10 then 0 else if p.width ≤ p.column then 1
      else lineLength p.output.toList + 1 := by
  rw [output_write]
  by_cases hbreak : b = 13 ∨ b = 10
  · simp only [hbreak, if_true, lineLength_break]
  have hshown := ofNat_ne_break (fun h => hbreak (.inr h))
  by_cases hfull : p.width ≤ p.column
  · simp only [hbreak, hfull, if_true, if_false]
    rw [List.append_cons, lineLength_concat _ hshown, lineLength_break]
  · simp only [hbreak, hfull, if_false, lineLength_concat _ hshown]

/-- Only the line that is written on can become too long. -/
theorem fits_write {p : Pipe} (hfits : Fits p.width p.output.toList) (b : UInt8) :
    Fits p.width (after [.write b] p).output.toList ↔
      lineLength (after [.write b] p).output.toList ≤ p.width := by
  refine ⟨Fits.lineLength_le, ?_⟩
  rw [output_write]
  split
  · exact fun hline => fits_concat.mpr ⟨hfits, hline⟩
  · split
    · rw [List.append_cons]
      have hbreak : Fits p.width (p.output.toList ++ ['\n']) := by
        rw [fits_concat, lineLength_break]
        exact ⟨hfits, Nat.zero_le _⟩
      exact fun hline => fits_concat.mpr ⟨hbreak, hline⟩
    · exact fun hline => fits_concat.mpr ⟨hfits, hline⟩

theorem output_read (limit : Nat) (timeout : UInt16) (p : Pipe) :
    (after [.read limit timeout] p).output = p.output := by
  obtain ⟨input, hread⟩ := after_read limit timeout p
  rw [hread]

theorem column_read (limit : Nat) (timeout : UInt16) (p : Pipe) :
    (after [.read limit timeout] p).column = if answers limit timeout p then 0 else p.column := by
  obtain ⟨input, hread⟩ := after_read limit timeout p
  rw [hread]

theorem width_call (call : Call) (p : Pipe) : (after [call] p).width = p.width := by
  cases call with
  | write b =>
      rw [after_write, writeLower]
      split
      · rfl
      · split <;> rfl
  | read limit timeout =>
      obtain ⟨input, hread⟩ := after_read limit timeout p
      rw [hread]

/-! ## Runs -/

theorem output_prefix_after (calls : List Call) (p : Pipe) :
    p.output.toList <+: (after calls p).output.toList := by
  induction calls generalizing p with
  | nil => exact List.prefix_refl _
  | cons call calls ih =>
      rw [after_cons]
      refine List.IsPrefix.trans ?_ (ih _)
      cases call with
      | write b =>
          rw [output_write]
          exact List.prefix_append _ _
      | read limit timeout => simp [output_read]

/-- Without its breaks the output is what was written. -/
theorem filter_output_after (calls : List Call) (p : Pipe) :
    (after calls p).output.toList.filter (· ≠ '\n') =
      p.output.toList.filter (· ≠ '\n') ++ calls.filterMap Call.shown := by
  induction calls generalizing p with
  | nil => simp [after, stateAfter]
  | cons call calls ih =>
      rw [after_cons, ih]
      cases call with
      | write b =>
          rw [output_write]
          by_cases hbreak : b = 13 ∨ b = 10
          · simp [Call.shown, hbreak]
          · have hshown := ofNat_ne_break (fun h => hbreak (.inr h))
            by_cases hfull : p.width ≤ p.column
            · simp [Call.shown, hbreak, hfull, hshown]
            · simp [Call.shown, hbreak, hfull, hshown]
      | read limit timeout =>
          rw [output_read, List.filterMap_cons_none rfl]

theorem forall_room_cons (call : Call) (calls : List Call) (p : Pipe) :
    (∀ front back, call :: calls = front ++ back → Room (after front p) back) ↔
      Room p (call :: calls) ∧
        ∀ front back, calls = front ++ back → Room (after front (after [call] p)) back := by
  constructor
  · intro h
    refine ⟨h [] _ rfl, fun front back hcalls => ?_⟩
    exact h (call :: front) back (by rw [hcalls, List.cons_append])
  · rintro ⟨hnow, hlater⟩ front back hcalls
    cases front with
    | nil =>
        rw [List.nil_append] at hcalls
        exact hcalls ▸ hnow
    | cons call' front =>
        obtain ⟨rfl, hrest⟩ := List.cons.inj hcalls
        exact hlater front back hrest

/-- The column may be behind the length of the line, never ahead of it, and a
break comes when the column reaches the width.  So what the next break leaves on
the line is told by the column.  By induction on the calls. -/
theorem fits_after_iff (calls : List Call) {p : Pipe} (hwidth : 1 ≤ p.width)
    (hfits : Fits p.width p.output.toList) (hcolumn : p.column ≤ lineLength p.output.toList) :
    Fits p.width (after calls p).output.toList ↔
      lineLength p.output.toList + min (p.width - p.column) (leading calls p) ≤ p.width ∧
        ∀ front back, calls = front ++ back → Room (after front p) back := by
  have hlength := hfits.lineLength_le
  induction calls generalizing p with
  | nil =>
      have hroom : ∀ front back, [] = front ++ back → Room (after front p) back := by
        intro front back hcalls
        obtain ⟨rfl, rfl⟩ := List.append_eq_nil_iff.mp hcalls.symm
        trivial
      simpa [after, stateAfter, leading, hfits, hlength] using hroom
  | cons call calls ih =>
      rw [forall_room_cons, after_cons]
      have hrest := ih (p := after [call] p)
      rw [width_call] at hrest
      cases call with
      | write b =>
          have hnow : Room p (.write b :: calls) := trivial
          have hline := lineLength_write b p
          have hcolumn' := column_write b p
          simp only [hnow, true_and, leading]
          -- A line that is too long stays in the output, whatever follows.
          by_cases hroom : lineLength (after [.write b] p).output.toList ≤ p.width
          · have hfits' := (fits_write hfits b).mpr hroom
            have hle : (after [.write b] p).column ≤
                lineLength (after [.write b] p).output.toList := by
              rw [hcolumn', hline]
              split
              · exact Nat.le_refl 0
              · split <;> omega
            refine (hrest hwidth hfits' hle hroom).trans (and_congr_left' ?_)
            grind
          · have hlong : ¬ Fits p.width (after calls (after [.write b] p)).output.toList :=
              fun hall => hroom (hall.of_front (output_prefix_after calls _)).lineLength_le
            simp only [hlong, false_iff]
            grind
      | read limit timeout =>
          have houtput := output_read limit timeout p
          have hcolumn' := column_read limit timeout p
          have hle : (after [.read limit timeout] p).column ≤ lineLength p.output.toList := by
            rw [hcolumn']
            split <;> omega
          rw [houtput] at hrest
          refine (hrest hwidth hfits hle hlength).trans ?_
          simp only [Room, leading]
          cases hanswers : answers limit timeout p with
          | true => simp [hcolumn', hanswers, hlength]
          | false => simp [hcolumn', hanswers]

/-- However characters of the lower window and reads of lines follow each other,
the output without its breaks is what was written.  All its lines fit exactly if
every line that is read leaves room for what is written next. -/
theorem lines_fit_iff_room {p : Pipe} (hwidth : 1 ≤ p.width) (hcolumn : p.column = 0)
    (houtput : p.output = #[]) (calls : List Call) :
    (after calls p).output.toList.filter (· ≠ '\n') = calls.filterMap Call.shown ∧
      (Fits p.width (after calls p).output.toList ↔
        ∀ front back, calls = front ++ back → Room (after front p) back) := by
  have hempty : p.output.toList = [] := by rw [houtput]
  have hline : lineLength [] = 0 := rfl
  have hfits : Fits p.width p.output.toList := hempty ▸ fits_nil p.width
  refine ⟨by rw [filter_output_after, hempty]; rfl, ?_⟩
  refine (fits_after_iff calls hwidth hfits (by omega)).trans (and_iff_right ?_)
  rw [hempty, hline]
  omega

/-- A line that is read after five characters makes the ten of them one line. -/
theorem lines_fit_iff_room_midline :
    let p : Pipe := { width := 8, input := [120, 10] }
    let front : List Call := [97, 98, 99, 100, 101].map .write
    let back : List Call := .read 10 0 :: [102, 103, 104, 105, 106].map .write
    p.column = 0 ∧ p.output = #[] ∧
      (after (front ++ back) p).output.toList.filter (· ≠ '\n') =
        (front ++ back).filterMap Call.shown ∧
      ¬ Fits p.width (after (front ++ back) p).output.toList := by
  intro p front back
  obtain ⟨hshown, hfits⟩ := lines_fit_iff_room (p := p) (by decide) rfl rfl (front ++ back)
  refine ⟨rfl, rfl, hshown, fun hall => ?_⟩
  have hroom : lineLength (after front p).output.toList + _ ≤ p.width :=
    hfits.mp hall front back rfl (by decide +kernel)
  exact absurd hroom (by decide +kernel)

end ZMachine.Pipe
