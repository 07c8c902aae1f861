import ZMachine.Machine.State
import ZMachine.Proofs.Image

/-!
# The account of output

A ledger keeps account of output without any memory: which characters went to
the screen, and which were written into each opening of a table.  `Records`
says that memory holds what the ledger has about tables, and it stays true with
every call as long as the openings do not get into each other's way.
-/

namespace ZMachine

/-! ## Calls and their account -/

/-- Only a call that opens a table looks at the one it is given. -/
inductive OutputCall where
  | write (ch : UInt8)
  | screen (on : Bool) (table : UInt16)
  | openTable (table : UInt16)
  | closeTable (table : UInt16)
  deriving DecidableEq, Repr

/-- A table from when it is opened, with the characters that were written
while it was the innermost one. -/
structure Opening where
  table : UInt16
  text : List UInt8 := []
  deriving DecidableEq, Repr

namespace Opening

def start (o : Opening) : Nat :=
  o.table.toNat + 2

/-- The count word and the text. -/
def Covers (o : Opening) (address : Nat) : Prop :=
  o.table.toNat ≤ address ∧ address < o.start + o.text.length

def Apart (o o' : Opening) : Prop :=
  ∀ address, o.Covers address → ¬ o'.Covers address

theorem Apart.symm {o o' : Opening} (h : o.Apart o') : o'.Apart o :=
  fun address ho' ho => h address ho ho'

def add (o : Opening) (ch : UInt8) : Opening :=
  { o with text := o.text ++ [ch] }

@[simp] theorem start_add (o : Opening) (ch : UInt8) : (o.add ch).start = o.start := rfl

@[simp] theorem length_add (o : Opening) (ch : UInt8) :
    (o.add ch).text.length = o.text.length + 1 := by
  simp [add]

theorem table_lt_start (o : Opening) : o.table.toNat < o.start := by
  unfold start
  omega

theorem covers_of_lt {o : Opening} {i : Nat} (hi : i < o.text.length) :
    o.Covers (o.start + i) := by
  have := o.table_lt_start
  constructor <;> omega

theorem Covers.add {o : Opening} {address : Nat} (h : o.Covers address) (ch : UInt8) :
    (o.add ch).Covers address := by
  obtain ⟨hlow, hhigh⟩ := h
  refine ⟨hlow, ?_⟩
  rw [start_add, length_add]
  omega

/-- The table as the machine keeps it. -/
def toTable (o : Opening) : OutputTable :=
  ⟨o.table.toNat, UInt16.ofNat o.text.length⟩

end Opening

/-- Openings lie in memory, apart from each other, and the count of each fits
in a word. -/
structure Fit (openings : List Opening) (size : Nat) : Prop where
  apart : openings.Pairwise Opening.Apart
  inside : ∀ o ∈ openings, o.start + o.text.length ≤ size
  counted : ∀ o ∈ openings, o.text.length < 0x10000

namespace Fit

variable {openings openings' front back : List Opening} {o : Opening} {size : Nat}

theorem sublist (h : Fit openings size) (hsub : openings'.Sublist openings) :
    Fit openings' size where
  apart := h.apart.sublist hsub
  inside o ho := h.inside o (hsub.subset ho)
  counted o ho := h.counted o (hsub.subset ho)

theorem perm (h : Fit openings size) (hperm : openings'.Perm openings) : Fit openings' size where
  apart := (hperm.pairwise_iff Opening.Apart.symm).mpr h.apart
  inside o ho := h.inside o (hperm.mem_iff.mp ho)
  counted o ho := h.counted o (hperm.mem_iff.mp ho)

/-- An opening fits if it does with a character more. -/
theorem of_add {ch : UInt8} (h : Fit (o.add ch :: back) size) : Fit (o :: back) size := by
  obtain ⟨hapart, hinside, hcounted⟩ := h
  rw [List.pairwise_cons] at hapart
  rw [List.forall_mem_cons, Opening.length_add] at hinside hcounted
  constructor
  · rw [List.pairwise_cons]
    exact ⟨fun x hx address ho => hapart.1 x hx address (ho.add ch), hapart.2⟩
  · rw [List.forall_mem_cons]
    exact ⟨Nat.le_of_succ_le hinside.1, hinside.2⟩
  · rw [List.forall_mem_cons]
    exact ⟨Nat.lt_of_succ_lt hcounted.1, hcounted.2⟩

end Fit

structure Ledger where
  screenOff : Bool
  /-- Characters that went to the screen. -/
  shown : List UInt8 := []
  /-- The innermost first. -/
  opened : List Opening := []
  closed : List Opening := []

namespace Ledger

def openings (l : Ledger) : List Opening :=
  l.opened ++ l.closed

def after (l : Ledger) : OutputCall → Ledger
  | .write ch =>
    match l.opened with
    | o :: outer => { l with opened := o.add ch :: outer }
    | [] => if l.screenOff then l else { l with shown := l.shown ++ [ch] }
  | .screen on _ => { l with screenOff := !on }
  | .openTable table => { l with opened := { table } :: l.opened }
  | .closeTable _ =>
    match l.opened with
    | o :: outer => { l with opened := outer, closed := o :: l.closed }
    | [] => l

def afterAll (l : Ledger) (calls : List OutputCall) : Ledger :=
  calls.foldl after l

/-- The openings stand in memory, and nothing else has changed.  A count is
written when its table is closed. -/
structure Records (l : Ledger) (before now : Image) : Prop where
  size_eq : now.bytes.size = before.bytes.size
  count : ∀ o ∈ l.closed, now.wordAt o.table.toNat = UInt16.ofNat o.text.length
  text : ∀ o ∈ l.openings, ∀ i ch, o.text[i]? = some ch → now.byteAt (o.start + i) = ch
  other : ∀ address, (∀ o ∈ l.closed, ¬ o.Covers address) →
    (∀ o ∈ l.opened, o.Covers address → address < o.start) →
    now.byteAt address = before.byteAt address

def streams (l : Ledger) : Streams :=
  ⟨l.screenOff, l.opened.map Opening.toTable⟩

variable {l : Ledger} {size : Nat} {o : Opening} {outer : List Opening}

theorem after_write_of_nil (h : l.opened = []) (ch : UInt8) :
    l.after (.write ch) = if l.screenOff then l else { l with shown := l.shown ++ [ch] } := by
  cases l
  cases h
  rfl

theorem after_write_of_cons (h : l.opened = o :: outer) (ch : UInt8) :
    l.after (.write ch) = { l with opened := o.add ch :: outer } := by
  simp only [after, h]

theorem after_close_of_nil (h : l.opened = []) (table : UInt16) :
    l.after (.closeTable table) = l := by
  simp only [after, h]

theorem after_close_of_cons (h : l.opened = o :: outer) (table : UInt16) :
    l.after (.closeTable table) = { l with opened := outer, closed := o :: l.closed } := by
  simp only [after, h]

theorem openings_of_cons (h : l.opened = o :: outer) :
    l.openings = o :: (outer ++ l.closed) := by
  rw [openings, h, List.cons_append]

/-- A ledger fits if it does after a further call. -/
theorem fit_of_after (call : OutputCall) (h : Fit (l.after call).openings size) :
    Fit l.openings size := by
  cases call with
  | write ch =>
      cases hopened : l.opened with
      | nil =>
          rw [after_write_of_nil hopened] at h
          split at h <;> exact h
      | cons o outer =>
          rw [after_write_of_cons hopened] at h
          rw [openings_of_cons hopened]
          exact h.of_add
  | screen on table => exact h
  | openTable table => exact h.sublist (List.sublist_cons_self _ _)
  | closeTable table =>
      cases hopened : l.opened with
      | nil =>
          rw [after_close_of_nil hopened] at h
          exact h
      | cons o outer =>
          rw [after_close_of_cons hopened] at h
          rw [openings_of_cons hopened]
          exact h.perm List.perm_middle.symm

theorem fit_of_afterAll {calls : List OutputCall} (h : Fit (l.afterAll calls).openings size) :
    Fit l.openings size := by
  induction calls generalizing l with
  | nil => exact h
  | cons call calls ih => exact fit_of_after call (ih h)

/-! ## Memory -/

namespace Records

variable {before now : Image}

theorem of_tables (h : l.Records before now) {l' : Ledger} (hopened : l'.opened = l.opened)
    (hclosed : l'.closed = l.closed) : l'.Records before now where
  size_eq := h.size_eq
  count := hclosed ▸ h.count
  text := by
    rw [openings, hopened, hclosed]
    exact h.text
  other := by
    rw [hopened, hclosed]
    exact h.other

/-- A change inside one opening does not reach the others. -/
theorem unchanged_of_apart {x : Opening} {now' : Image} (hx : x.Apart o)
    (hsame : ∀ address, ¬ o.Covers address → now'.byteAt address = now.byteAt address) :
    now'.wordAt x.table.toNat = now.wordAt x.table.toNat ∧
      ∀ i < x.text.length, now'.byteAt (x.start + i) = now.byteAt (x.start + i) := by
  have hbyte : ∀ address, x.Covers address → now'.byteAt address = now.byteAt address :=
    fun address hcovers => hsame address (hx address hcovers)
  constructor
  · unfold Image.wordAt
    rw [hbyte _ ⟨Nat.le_refl _, by unfold Opening.start; omega⟩,
      hbyte _ ⟨Nat.le_succ _, by unfold Opening.start; omega⟩]
  · exact fun i hi => hbyte _ (Opening.covers_of_lt hi)

theorem write (h : l.Records before now) (hopened : l.opened = o :: outer) (ch : UInt8)
    (hfit : Fit (l.after (.write ch)).openings now.bytes.size) :
    (l.after (.write ch)).Records before (now.poke (o.start + o.text.length) ch) := by
  have hopenings := openings_of_cons hopened
  rw [after_write_of_cons hopened] at hfit ⊢
  have hplace : (o.add ch).Covers (o.start + o.text.length) :=
    Opening.covers_of_lt (by rw [Opening.length_add]; exact Nat.lt_succ_self _)
  have hroom : o.start + o.text.length < now.bytes.size := by
    have := hfit.inside (o.add ch) List.mem_cons_self
    rw [Opening.start_add, Opening.length_add] at this
    omega
  have hapart : ∀ x ∈ outer ++ l.closed, x.Apart (o.add ch) := fun x hx =>
    ((List.pairwise_cons.mp hfit.apart).1 x hx).symm
  have hsame : ∀ address, ¬ (o.add ch).Covers address →
      (now.poke (o.start + o.text.length) ch).byteAt address = now.byteAt address := by
    intro address hnot
    refine Image.byteAt_poke_of_ne _ ?_ _
    rintro rfl
    exact hnot hplace
  constructor
  · rw [Image.size_poke, h.size_eq]
  · intro x hx
    rw [(unchanged_of_apart (hapart x (List.mem_append_right _ hx)) hsame).1]
    exact h.count x hx
  · intro x hx i c hi
    obtain ⟨hlt, -⟩ := List.getElem?_eq_some_iff.mp hi
    rcases List.mem_cons.mp hx with rfl | hx
    · rw [Opening.length_add] at hlt
      rw [Opening.start_add]
      rcases Nat.lt_or_eq_of_le (Nat.le_of_lt_succ hlt) with hlt | rfl
      · rw [Image.byteAt_poke_of_ne _ (by omega)]
        rw [Opening.add, List.getElem?_append_left hlt] at hi
        exact h.text o (by rw [hopenings]; exact List.mem_cons_self) i c hi
      · rw [Image.byteAt_poke_self hroom]
        simpa [Opening.add] using hi
    · rw [(unchanged_of_apart (hapart x hx) hsame).2 i hlt]
      exact h.text x (by rw [hopenings]; exact List.mem_cons_of_mem _ hx) i c hi
  · intro address hclosed hopen
    have hinner := hopen (o.add ch) List.mem_cons_self
    rw [Image.byteAt_poke_of_ne]
    · refine h.other address hclosed fun x hx hcovers => ?_
      rw [hopened] at hx
      rcases List.mem_cons.mp hx with rfl | hx
      · exact hinner (hcovers.add ch)
      · exact hopen x (List.mem_cons_of_mem _ hx) hcovers
    · rintro rfl
      exact absurd (hinner hplace) (by rw [Opening.start_add]; omega)

theorem close (h : l.Records before now) (hopened : l.opened = o :: outer) (table : UInt16)
    (hfit : Fit l.openings now.bytes.size) :
    (l.after (.closeTable table)).Records before
      (now.pokeWord o.table.toNat (UInt16.ofNat o.text.length)) := by
  have hopenings := openings_of_cons hopened
  rw [after_close_of_cons hopened]
  rw [hopenings] at hfit
  have hstart : o.start = o.table.toNat + 2 := rfl
  have hroom : o.table.toNat + 1 < now.bytes.size := by
    have := hfit.inside o List.mem_cons_self
    omega
  have hapart : ∀ x ∈ outer ++ l.closed, x.Apart o := fun x hx =>
    ((List.pairwise_cons.mp hfit.apart).1 x hx).symm
  have hsame : ∀ address, ¬ o.Covers address →
      (now.pokeWord o.table.toNat (UInt16.ofNat o.text.length)).byteAt address =
        now.byteAt address := by
    intro address hnot
    refine Image.byteAt_pokeWord_of_ne _ ?_ _
    unfold Opening.Covers at hnot
    omega
  constructor
  · rw [Image.size_pokeWord, h.size_eq]
  · intro x hx
    rcases List.mem_cons.mp hx with rfl | hx
    · exact Image.wordAt_pokeWord_self hroom _
    · rw [(unchanged_of_apart (hapart x (List.mem_append_right _ hx)) hsame).1]
      exact h.count x hx
  · intro x hx i c hi
    obtain ⟨hlt, -⟩ := List.getElem?_eq_some_iff.mp hi
    have hx' : x ∈ o :: (outer ++ l.closed) := List.perm_middle.mem_iff.mp hx
    have hbyte := h.text x (hopenings ▸ hx') i c hi
    rcases List.mem_cons.mp hx' with rfl | hx'
    · rw [Image.byteAt_pokeWord_of_ne _ (by omega), hbyte]
    · rw [(unchanged_of_apart (hapart x hx') hsame).2 i hlt, hbyte]
  · intro address hclosed hopen
    have hnot := hclosed o List.mem_cons_self
    rw [hsame address hnot]
    refine h.other address (fun x hx => hclosed x (List.mem_cons_of_mem _ hx)) ?_
    intro x hx hcovers
    rw [hopened] at hx
    rcases List.mem_cons.mp hx with rfl | hx
    · exact absurd hcovers hnot
    · exact hopen x hx hcovers

theorem openTable (h : l.Records before now) (table : UInt16) :
    (l.after (.openTable table)).Records before now where
  size_eq := h.size_eq
  count := h.count
  text x hx i c hi := by
    rcases List.mem_cons.mp hx with rfl | hx
    · cases hi
    · exact h.text x hx i c hi
  other address hclosed hopen :=
    h.other address hclosed fun x hx => hopen x (List.mem_cons_of_mem _ hx)

end Records
end Ledger
end ZMachine
