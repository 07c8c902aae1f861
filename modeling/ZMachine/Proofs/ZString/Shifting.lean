import ZMachine.Proofs.ZString.RoundTrip

/-!
# How far a shift reaches

From version 3 on a shift is meant for one z-character.  `marks` gives every
z-character of a string its role, where a rule tells from the z-characters in
front which row a letter is looked up in.  By the rule `rightBefore` only a
shift that stands directly before the letter counts.

The decoder follows another rule.  A blank leaves the selected row as it is, so
the shift that counts is the last z-character that is no blank.  Both rules give
a string the same roles unless a letter stands behind a shift with nothing but
blanks in between.
-/

namespace ZMachine.ZString

/-! ## Roles -/

/-- What a z-character is in its string. -/
inductive Role where
  | blank
  | shift (row : Row)
  /-- A place of a row, which may be the escape. -/
  | letter (row : Row)
  /-- The halves of an escaped character. -/
  | high
  | low (top : UInt8)
  | reference
  | index (table : Nat)
  deriving DecidableEq, Repr

structure Mark where
  code : UInt8
  role : Role
  deriving DecidableEq, Repr

/-- What the next z-character belongs to. -/
def Mark.pending (m : Mark) : Pending :=
  match m.role with
  | .letter row => if row = .punctuation ∧ m.code = 6 then .escapeHigh else .nothing
  | .high => .escapeLow (m.code <<< 5)
  | .reference => .abbreviation m.code.toNat
  | _ => .nothing

def Mark.yield (m : Mark) : Yield :=
  match m.role with
  | .blank => .character space
  | .letter row =>
    if row = .punctuation ∧ m.code = 6 then .nothing
    else if row = .punctuation ∧ m.code = 7 then .character newline
    else .character (character row (m.code.toNat - 6))
  | .low top => .character (top ||| m.code)
  | .index table => .abbreviation table m.code.toNat
  | _ => .nothing

def Mark.text (m : Mark) : List UInt8 :=
  match m.yield with
  | .character c => [c]
  | _ => []

/-- The row that a z-character selects for a letter. -/
def Mark.row (m : Mark) : Row :=
  match m.role with
  | .shift row => row
  | _ => .lower

/-- The role of a z-character that belongs to nothing in front of it. -/
def freshRole (row : Row) (code : UInt8) : Role :=
  if code = 0 then .blank
  else if code < 4 then .reference
  else if code < 6 then .shift (Row.ofNat (code.toNat - 3))
  else .letter row

def pendingBehind (front : List Mark) : Pending :=
  (front.getLast?.map Mark.pending).getD .nothing

/-- The role of a z-character behind others, where `rule` selects the row. -/
def roleBehind (rule : List Mark → Row) (front : List Mark) (code : UInt8) : Role :=
  match pendingBehind front with
  | .nothing => freshRole (rule front) code
  | .abbreviation table => .index table
  | .escapeHigh => .high
  | .escapeLow top => .low top

/-- The roles of z-characters that follow others. -/
def marksBehind (rule : List Mark → Row) : List Mark → List UInt8 → List Mark
  | _, [] => []
  | front, code :: codes =>
    let m : Mark := ⟨code, roleBehind rule front code⟩
    m :: marksBehind rule (front ++ [m]) codes

def marks (rule : List Mark → Row) (codes : List UInt8) : List Mark :=
  marksBehind rule [] codes

/-! ## Rules for rows -/

/-- A shift counts for the next z-character and for no other. -/
def rightBefore (front : List Mark) : Row :=
  (front.getLast?.map Mark.row).getD .lower

/-- A shift counts for the next z-character that is no blank. -/
def behindBlanks (front : List Mark) : Row :=
  rightBefore (front.filter (·.role ≠ .blank))

/-- A row is selected from behind a blank. -/
def Reaches (front : List Mark) : Prop :=
  (∃ m, front.getLast? = some m ∧ m.role = .blank) ∧ behindBlanks front ≠ .lower

@[simp] theorem pendingBehind_concat (front : List Mark) (m : Mark) :
    pendingBehind (front ++ [m]) = m.pending := by
  simp [pendingBehind]

@[simp] theorem rightBefore_concat (front : List Mark) (m : Mark) :
    rightBefore (front ++ [m]) = m.row := by
  simp [rightBefore]

theorem behindBlanks_concat_blank (front : List Mark) {m : Mark} (hblank : m.role = .blank) :
    behindBlanks (front ++ [m]) = behindBlanks front := by
  simp [behindBlanks, hblank]

theorem behindBlanks_concat (front : List Mark) {m : Mark} (hblank : m.role ≠ .blank) :
    behindBlanks (front ++ [m]) = m.row := by
  simp [behindBlanks, hblank]

theorem behindBlanks_eq_rightBefore_iff (front : List Mark) :
    behindBlanks front = rightBefore front ↔ ¬ Reaches front := by
  rcases List.eq_nil_or_concat front with rfl | ⟨front, m, rfl⟩
  · simp [behindBlanks, Reaches]
  · by_cases hblank : m.role = .blank
    · have hrow : m.row = .lower := by simp [Mark.row, hblank]
      simp [Reaches, behindBlanks_concat_blank front hblank, hblank, hrow]
    · simp [Reaches, behindBlanks_concat front hblank, hblank]

/-! ## Two rules on one string -/

section

variable {rule rule' : List Mark → Row} {front before after : List Mark} {codes : List UInt8}
variable {m : Mark} {row : Row}

theorem role_of_marksBehind (h : marksBehind rule front codes = before ++ m :: after) :
    m.role = roleBehind rule (front ++ before) m.code := by
  induction codes generalizing front before with
  | nil => simp [marksBehind] at h
  | cons code codes ih =>
      cases before with
      | nil =>
          obtain ⟨rfl, -⟩ := List.cons.inj h
          simp
      | cons m' before =>
          obtain ⟨rfl, hrest⟩ := List.cons.inj h
          rw [ih hrest]
          simp

theorem map_code_marksBehind : (marksBehind rule front codes).map Mark.code = codes := by
  induction codes generalizing front with
  | nil => rfl
  | cons code codes ih => exact congrArg (code :: ·) ih

theorem row_eq_of_roleBehind {code : UInt8} (h : roleBehind rule front code = .letter row) :
    row = rule front := by
  unfold roleBehind freshRole at h
  grind

theorem roleBehind_congr {code : UInt8}
    (h : ∀ row, roleBehind rule front code = .letter row → rule front = rule' front) :
    roleBehind rule front code = roleBehind rule' front code := by
  unfold roleBehind freshRole at h ⊢
  grind

/-- Two rules give a string the same roles exactly if they select the same row
for every letter. -/
theorem marksBehind_eq_iff :
    marksBehind rule front codes = marksBehind rule' front codes ↔
      ∀ before m after row, marksBehind rule front codes = before ++ m :: after →
        m.role = .letter row → rule (front ++ before) = rule' (front ++ before) := by
  constructor
  · intro heq before m after row hmarks hletter
    have hrole := role_of_marksBehind hmarks
    have hrole' := role_of_marksBehind (heq ▸ hmarks)
    rw [hletter] at hrole hrole'
    exact (row_eq_of_roleBehind hrole.symm).symm.trans (row_eq_of_roleBehind hrole'.symm)
  · intro hrows
    induction codes generalizing front with
    | nil => rfl
    | cons code codes ih =>
        have hrole : roleBehind rule front code = roleBehind rule' front code := by
          apply roleBehind_congr
          intro row hletter
          simpa using hrows [] ⟨code, roleBehind rule front code⟩ _ row rfl hletter
        simp only [marksBehind, ← hrole]
        congr 1
        apply ih
        intro before m after row hmarks hletter
        have htail := hrows (⟨code, roleBehind rule front code⟩ :: before) m after row
          (congrArg _ hmarks) hletter
        simpa using htail

end

/-! ## What the decoder follows -/

/-- The automaton behind z-characters with these roles. -/
def Reading.behind (front : List Mark) : Reading :=
  { row := behindBlanks front, pending := pendingBehind front }

/-- Inside a sequence no row is selected. -/
theorem behindBlanks_of_pending {front : List Mark} (h : pendingBehind front ≠ .nothing) :
    behindBlanks front = .lower := by
  rcases List.eq_nil_or_concat front with rfl | ⟨front, m, rfl⟩
  · rfl
  · rw [List.concat_eq_append, pendingBehind_concat] at h
    rw [List.concat_eq_append, behindBlanks_concat front (by grind [Mark.pending])]
    grind [Mark.pending, Mark.row]

theorem alphabetic_behind {front : List Mark} (hpending : pendingBehind front = .nothing)
    {m : Mark} (hrole : m.role = .letter (behindBlanks front)) (hcode : 5 < m.code) :
    (Reading.behind front).alphabetic m.code = (Reading.behind (front ++ [m]), m.yield) := by
  have hcode' : 5 < m.code.toNat := hcode
  have hfirst : m.code.toNat - 6 = 0 ↔ m.code = 6 := by
    simp only [← UInt8.toNat_inj, UInt8.toNat_ofNat]
    omega
  have hsecond : m.code.toNat - 6 = 1 ↔ m.code = 7 := by
    simp only [← UInt8.toNat_inj, UInt8.toNat_ofNat]
    omega
  have hrow : behindBlanks (front ++ [m]) = .lower := by
    rw [behindBlanks_concat front (by simp [hrole])]
    simp [Mark.row, hrole]
  simp only [Reading.alphabetic, Reading.behind, hfirst, hsecond, hpending, hrow,
    pendingBehind_concat, Mark.pending, Mark.yield, hrole]
  split
  · rfl
  · split <;> rfl

theorem next_fresh {version : UInt8} (hversion : 3 ≤ version) {front : List Mark}
    (hpending : pendingBehind front = .nothing) {m : Mark}
    (hrole : m.role = freshRole (behindBlanks front) m.code) (hplain : m.role ≠ .reference) :
    (Reading.behind front).next version m.code = (Reading.behind (front ++ [m]), m.yield) := by
  have hidle : (Reading.behind front).pending = .nothing := hpending
  unfold freshRole at hrole
  by_cases hblank : m.code = 0
  · rw [if_pos hblank] at hrole
    simp [Reading.next, Reading.behind, hpending, hblank, behindBlanks_concat_blank front hrole,
      Mark.pending, Mark.yield, hrole]
  rw [if_neg hblank] at hrole
  by_cases hreference : m.code < 4
  · rw [if_pos hreference] at hrole
    exact absurd hrole hplain
  rw [if_neg hreference] at hrole
  by_cases hshift : m.code < 6
  · rw [if_pos hshift] at hrole
    rw [next_shift hversion hidle (by grind)]
    simp [Reading.behind, hpending, behindBlanks_concat, Mark.pending, Mark.yield, Mark.row, hrole]
  · rw [if_neg hshift] at hrole
    have hcode : 5 < m.code := by grind
    rw [next_of_five_lt hidle hcode, alphabetic_behind hpending hrole hcode]

/-- One z-character moves the automaton by its role. -/
theorem next_behind {version : UInt8} (hversion : 3 ≤ version) {front : List Mark}
    (hfront : ∀ table, pendingBehind front ≠ .abbreviation table) {m : Mark}
    (hrole : m.role = roleBehind behindBlanks front m.code) (hplain : m.role ≠ .reference) :
    (Reading.behind front).next version m.code = (Reading.behind (front ++ [m]), m.yield) := by
  cases hpending : pendingBehind front with
  | nothing =>
      simp only [roleBehind, hpending] at hrole
      exact next_fresh hversion hpending hrole hplain
  | abbreviation table => exact absurd hpending (hfront table)
  | escapeHigh =>
      have hlower : behindBlanks front = .lower := behindBlanks_of_pending (by simp [hpending])
      simp only [roleBehind, hpending] at hrole
      simp [Reading.next, Reading.behind, hpending, behindBlanks_concat, hrole, Mark.pending,
        Mark.yield, Mark.row, hlower]
  | escapeLow top =>
      have hlower : behindBlanks front = .lower := behindBlanks_of_pending (by simp [hpending])
      simp only [roleBehind, hpending] at hrole
      simp [Reading.next, Reading.behind, hpending, behindBlanks_concat, hrole, Mark.pending,
        Mark.yield, Mark.row, hlower]

/-- Z-characters that refer to no abbreviation yield the text of their
roles. -/
theorem reads_marksBehind {version : UInt8} (hversion : 3 ≤ version) {front : List Mark}
    (hfront : ∀ table, pendingBehind front ≠ .abbreviation table) {codes : List UInt8}
    (hplain : ∀ m ∈ marksBehind behindBlanks front codes, m.role ≠ .reference) :
    ∃ r', Reads version (.behind front) codes
      ((marksBehind behindBlanks front codes).flatMap Mark.text) r' := by
  induction codes generalizing front with
  | nil => exact ⟨_, .done _⟩
  | cons code codes ih =>
      obtain ⟨m, hm⟩ : ∃ m : Mark, m = ⟨code, roleBehind behindBlanks front code⟩ := ⟨_, rfl⟩
      have hmarks : marksBehind behindBlanks front (code :: codes) =
          m :: marksBehind behindBlanks (front ++ [m]) codes := by
        rw [hm]
        rfl
      have hrole : m.role = roleBehind behindBlanks front m.code := by rw [hm]
      rw [hmarks] at hplain ⊢
      have hm' : m.role ≠ .reference := hplain m List.mem_cons_self
      have hpending : ∀ table, pendingBehind (front ++ [m]) ≠ .abbreviation table := by
        grind [pendingBehind_concat, Mark.pending]
      obtain ⟨r', hrest⟩ := ih hpending fun m' hmem => hplain m' (List.mem_cons_of_mem m hmem)
      have hnext := next_behind (m := m) hversion hfront hrole hm'
      have hcode : m.code = code := by rw [hm]
      rw [hcode] at hnext
      refine ⟨r', ?_⟩
      cases hyield : m.yield with
      | nothing =>
          rw [hyield] at hnext
          simpa [Mark.text, hyield] using Reads.silent hnext hrest
      | character c =>
          rw [hyield] at hnext
          simpa [Mark.text, hyield] using Reads.yield hnext hrest
      | abbreviation table index =>
          have hindex : m.role = .index table := by grind [Mark.yield]
          grind [roleBehind, freshRole]

/-! ## Strings in memory -/

/-- From version 3 on a string without references has the text of its roles,
where a letter is looked up in the row of the last z-character before it that is
no blank.  That is the row of the z-character directly before it unless a shift
reaches it from behind blanks, and strings where this happens are exactly those
that would have other roles if shifts did not reach over blanks. -/
theorem decodeText_shift_reaches
    {M : Type} [AddressSpace M] {R : M → Image → Prop} (hR : MemorySim True R)
    {m : M} {image : Image} (hm : R m image) {h : Header} (hversion : 3 ≤ h.version)
    {front : List UInt16} {last : UInt16} (hfront : ∀ w ∈ front, isEnd w = false)
    (hlast : isEnd last = true) {address : Nat} (hlaid : LaidOut image (front ++ [last]) address)
    (found : Array UInt8)
    (hplain : ∀ s ∈ marks behindBlanks ((front ++ [last]).flatMap codes), s.role ≠ .reference) :
    let zs := (front ++ [last]).flatMap codes
    (∃ m', R m' image ∧
      decodeText h address ⟨m, found⟩ =
        .ok (address + 2 * (front ++ [last]).length)
          ⟨m', found ++ ((marks behindBlanks zs).flatMap Mark.text).toArray⟩) ∧
    (marks behindBlanks zs).map Mark.code = zs ∧
    (∀ before s after row, marks behindBlanks zs = before ++ s :: after → s.role = .letter row →
      row = behindBlanks before ∧ (row = rightBefore before ↔ ¬ Reaches before)) ∧
    (marks behindBlanks zs = marks rightBefore zs ↔
      ∀ before s after row, marks behindBlanks zs = before ++ s :: after →
        s.role = .letter row → ¬ Reaches before) := by
  intro zs
  have hempty : ∀ table, pendingBehind [] ≠ .abbreviation table := nofun
  obtain ⟨r', hreads⟩ := reads_marksBehind hversion hempty hplain
  refine ⟨exists_decodeText hR hm (decodeText_of_words hfront hlast hreads hlaid found),
    map_code_marksBehind, ?_, ?_⟩
  · intro before s after row hmarks hletter
    have hrow : row = behindBlanks before :=
      row_eq_of_roleBehind ((role_of_marksBehind hmarks).symm.trans hletter)
    refine ⟨hrow, ?_⟩
    rw [hrow]
    exact behindBlanks_eq_rightBefore_iff before
  · simp only [← behindBlanks_eq_rightBefore_iff]
    exact marksBehind_eq_iff

/-- The first shift reaches over a blank, the second only its letter. -/
theorem decodeText_shift_reaches_over_blank :
    let h : Header := { (default : Header) with version := 3 }
    let image : Image := ⟨#[0x10, 0x06, 0x90, 0xC7]⟩
    let zs : List UInt8 := [4, 0, 6, 4, 6, 7]
    LaidOut image [0x1006, 0x90C7] 0 ∧
      (∃ m', m' = image ∧ decodeText h 0 ⟨image, #[]⟩ = .ok 4 ⟨m', #[32, 65, 65, 98]⟩) ∧
      marks behindBlanks zs ≠ marks rightBefore zs := by
  intro h image zs
  have hlaid : LaidOut image [0x1006, 0x90C7] 0 := by decide
  have hplain : ∀ s ∈ marks behindBlanks zs, s.role ≠ .reference := by decide
  have hfront : ∀ w ∈ ([0x1006] : List UInt16), isEnd w = false := by
    intro w hw
    rw [List.mem_singleton.mp hw]
    decide
  have hlast : isEnd 0x90C7 = true := by decide
  obtain ⟨hdecode, -, -, hroles⟩ :=
    decodeText_shift_reaches MemorySim.refl (rfl : image = image) (h := h) (by decide) hfront hlast
      hlaid #[] hplain
  refine ⟨hlaid, hdecode, fun heq => ?_⟩
  have hblank :=
    hroles.mp heq [⟨4, .shift .upper⟩, ⟨0, .blank⟩] ⟨6, .letter .upper⟩ _ .upper rfl rfl
  exact hblank ⟨⟨_, rfl, rfl⟩, by decide⟩

end ZMachine.ZString
