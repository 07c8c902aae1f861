import ZMachine.Host

/-!
# Hosts that keep a journal

A `Journal` notes every call that it gets and answers reads from a script.
It may refuse a call, by a rule that sees what was asked of it before.  A
`Teletype` does the same with as little as a host can do: it writes, reads
and has a clock.
-/

namespace ZMachine

inductive HostCall where
  | writeByte (window : Window) (b : UInt8)
  | readKey (timeout : UInt16)
  | readLine (limit : Nat) (timeout : UInt16)
  | splitWindow (lines : UInt16)
  | setWindow (window : Window)
  | eraseWindow (number : Int)
  | eraseLine
  | setCursor (line column : UInt16)
  | getCursor
  | setTextStyle (style : UInt16)
  | setBufferMode (buffered : Bool)
  | showStatus (line : List UInt8)
  | flush
  | cancelLine
  deriving DecidableEq, Repr

structure Journal where
  /-- Calls so far, the latest first. -/
  calls : List HostCall := []
  lines : List (Reply (List UInt8)) := []
  keys : List (Reply UInt8) := []
  clock : UInt64 := 0
  hasStatusLine : Bool := true
  /-- Where the cursor is said to be. -/
  cursor : UInt16 × UInt16 := (1, 1)
  /-- The reason why a call fails after earlier ones, if it does. -/
  refuse : List HostCall → HostCall → Option String := fun _ _ => none

namespace Journal

/-- Note a call, then refuse it or not. -/
def note (call : HostCall) : HostM Journal Unit := fun j =>
  let noted := { j with calls := call :: j.calls }
  match j.refuse j.calls call with
  | some reason => .error reason noted
  | none => .ok () noted

def readKey (timeout : UInt16) : HostM Journal (Reply UInt8) := do
  note (.readKey timeout)
  modifyGet fun j =>
    match j.keys with
    | [] => (.closed, j)
    | key :: rest => (key, { j with keys := rest })

def readLine (limit : Nat) (timeout : UInt16) : HostM Journal (Reply (List UInt8)) := do
  note (.readLine limit timeout)
  modifyGet fun j =>
    match j.lines with
    | [] => (.closed, j)
    | line :: rest => (line, { j with lines := rest })

instance : Host Journal where
  writeByte window b := note (.writeByte window b)
  readKey := readKey
  readLine := readLine
  clock j := j.clock
  cancelLine j := { j with calls := .cancelLine :: j.calls }
  splitWindow lines := note (.splitWindow lines)
  setWindow window := note (.setWindow window)
  eraseWindow number := note (.eraseWindow number)
  eraseLine := note .eraseLine
  setCursor line column := note (.setCursor line column)
  getCursor := do note .getCursor; return (← get).cursor
  setTextStyle style := note (.setTextStyle style)
  setBufferMode buffered := note (.setBufferMode buffered)
  showStatus line := note (.showStatus line)
  hasStatusLine j := j.hasStatusLine
  flush := note .flush

end Journal

structure Teletype where
  journal : Journal

namespace Teletype

def ofJournal {α : Type} (x : HostM Journal α) : HostM Teletype α
  | ⟨journal⟩ =>
    match x journal with
    | .ok a journal => .ok a ⟨journal⟩
    | .error reason journal => .error reason ⟨journal⟩

instance : Host Teletype where
  writeByte window b := ofJournal (Journal.note (.writeByte window b))
  readKey timeout := ofJournal (Journal.readKey timeout)
  readLine limit timeout := ofJournal (Journal.readLine limit timeout)
  clock t := t.journal.clock

end Teletype
end ZMachine
