import ZMachine.Host

/-!
# Transcripts

A host without a screen: it collects what is written to each window and
answers reads from a script that was made beforehand.  A line that is read is
echoed to the lower window, as a terminal would.
-/

namespace ZMachine

structure Transcript where
  /-- Everything written to the lower window and not erased. -/
  lower : Array UInt8 := #[]
  upper : Array UInt8 := #[]
  statusLine : List UInt8 := []
  cursor : UInt16 × UInt16 := (1, 1)
  upperLines : UInt16 := 0
  style : UInt16 := 0
  /-- Answers to reads of lines, after which input is closed. -/
  lines : List (Reply (List UInt8)) := []
  keys : List (Reply UInt8) := []
  /-- What was typed of the current line before a read timed out. -/
  typed : List UInt8 := []
  clock : UInt64 := 0

namespace Transcript

def writeByte (window : Window) (b : UInt8) : HostM Transcript Unit :=
  modify fun t =>
    match window with
    | .lower => { t with lower := t.lower.push (if b = 13 then 10 else b) }
    | .upper => { t with upper := t.upper.push b, cursor := (t.cursor.1, t.cursor.2 + 1) }

def readKey : HostM Transcript (Reply UInt8) :=
  modifyGet fun t =>
    match t.keys with
    | [] => (.closed, t)
    | key :: rest => (key, { t with keys := rest })

def readLine (limit : Nat) : HostM Transcript (Reply (List UInt8)) :=
  modifyGet fun t =>
    match t.lines with
    | [] => (.closed, t)
    | .given line :: rest =>
      let line := (t.typed ++ line).take limit
      (.given line, { t with lines := rest, typed := [], lower := t.lower ++ line.toArray.push 10 })
    | reply :: rest => (reply, { t with lines := rest })

def eraseWindow (n : Int) : HostM Transcript Unit :=
  modify fun t =>
    if n = 0 then { t with lower := #[] }
    else if n = 1 then { t with upper := #[] }
    else { t with lower := #[], upper := #[] }

instance : Host Transcript where
  writeByte := writeByte
  readKey _ := readKey
  readLine limit _ := readLine limit
  clock t := t.clock
  cancelLine t := { t with typed := [] }
  splitWindow lines := modify fun t => { t with upperLines := lines }
  eraseWindow := eraseWindow
  setCursor line column := modify fun t => { t with cursor := (line, column) }
  getCursor := return (← get).cursor
  setTextStyle style := modify fun t => { t with style }
  showStatus line := modify fun t => { t with statusLine := line }

/-- Add an answer to a later read of a line. -/
def addLine (reply : Reply (List UInt8)) (t : Transcript) : Transcript :=
  { t with lines := t.lines ++ [reply] }

def addKey (reply : Reply UInt8) (t : Transcript) : Transcript :=
  { t with keys := t.keys ++ [reply] }

/-- Type the start of the next line. -/
def typeAhead (text : List UInt8) (t : Transcript) : Transcript :=
  { t with typed := t.typed ++ text }

end Transcript
end ZMachine
