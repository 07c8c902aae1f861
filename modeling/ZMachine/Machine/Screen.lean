import ZMachine.Machine.Output

/-!
# The screen

The machine keeps the selected window and the height of the upper one; the
host draws.  In versions 1 to 3 the interpreter itself shows a status line:
the room on the left, and score and moves or the time on the right.
-/

namespace ZMachine.Machine

open MachineM

variable {M H : Type} [AddressSpace M] [Host H]

/-- Clear the display and go back to a single window. -/
def initializeScreen : MachineM M H Unit := do
  modifyCore fun c => { c with upperLines := 0, window := .lower }
  ofHost (Host.splitWindow 0)
  ofHost (Host.setWindow .lower)
  ofHost (Host.eraseWindow (-1))

/-- Tell the story what the screen can do: revision 1.0 of the standard, no
graphics, and for early stories whether there is a status line. -/
def announceScreen : MachineM M H Unit := do
  ofMemory (Memory.writeByte Field.standardMajor 1)
  ofMemory (Memory.writeByte Field.standardMinor 0)
  let s ← get
  if s.core.header.version < 4 ∧ ¬ (Host.hasStatusLine s.host ∧ s.core.settings.statusLine) then
    let b ← ofMemory (Memory.readByte Field.capabilities)
    ofMemory (Memory.writeByte Field.capabilities (b ||| Flag.noStatusLine))
  changeFlags (· &&& ~~~ Flag.graphics)

/-- Fill in the fields of the header that describe interpreter and screen, and
set the scripting flag if it is to survive. -/
def announceInterpreter (scripting : Bool) : MachineM M H Unit := do
  if scripting then
    changeFlags (· ||| Flag.scripting)
  let c ← getCore
  let rows := c.settings.screenRows
  let columns := c.settings.screenColumns
  let write (field : Nat) (value : UInt8) : MachineM M H Unit :=
    ofMemory (Memory.writeByte field value)
  write Field.interpreterNumber c.settings.interpreterNumber
  write Field.interpreterVersion (UInt8.ofNat c.settings.interpreterVersion.toNat)
  write Field.screenRows rows
  write Field.screenColumns columns
  write Field.screenLeft 0
  write Field.screenRight columns
  write Field.screenTop 0
  write Field.screenBottom rows
  write Field.fontWidth 1
  write Field.fontHeight 1
  if c.header.version < 4 then
    newLine

def setWindow (number : UInt16) : MachineM M H Unit := do
  let window := Window.ofNumber number
  modifyCore fun c => { c with window }
  ofHost (Host.setWindow window)

/-- Give the upper window a number of lines, to which early stories add the
status line.  One line is left for the lower window. -/
def splitWindow (number : UInt16) : MachineM M H Unit := do
  let c ← getCore
  let early := c.header.version < 4
  let lines := if early then number.toNat % 256 + 1 else number.toNat % 256
  if lines = 0 then
    modifyCore fun c => { c with upperLines := 0 }
    setWindow 0
  else
    let limit := c.settings.screenRows.toNat - 1
    modifyCore fun c => { c with upperLines := UInt16.ofNat (min lines limit) }
  ofHost (Host.splitWindow (← getCore).upperLines)
  if lines ≠ 0 ∧ early then
    ofHost (Host.eraseWindow 1)

def eraseWindow (number : UInt16) : MachineM M H Unit :=
  ofHost (Host.eraseWindow (signed number))

/-- Only the value 1 has a meaning. -/
def eraseLine (value : UInt16) : MachineM M H Unit :=
  if value = 1 then ofHost Host.eraseLine else return

/-- Move the cursor of the upper window; that of the lower window stays. -/
def setCursor (line column : UInt16) : MachineM M H Unit := do
  if (← getCore).window = .upper then
    ofHost (Host.setCursor line column)

/-- Write line and column of the cursor to a table. -/
def getCursor (table : UInt16) : MachineM M H Unit := do
  let (line, column) ← ofHost Host.getCursor
  ofMemory (Memory.writeWord table.toNat line)
  ofMemory (Memory.writeWord (table.toNat + 2) column)

def setTextStyle (style : UInt16) : MachineM M H Unit :=
  ofHost (Host.setTextStyle style)

def setBufferMode (mode : UInt16) : MachineM M H Unit :=
  ofHost (Host.setBufferMode (mode ≠ 0))

/-- A time of day on a clock of twelve hours, the hour in two places. -/
def timeText (hours minutes : UInt16) : String :=
  let suffix := if hours < 12 then "am" else "pm"
  let hour := if hours.toNat % 12 = 0 then 12 else hours.toNat % 12
  Numeral.decimal ' ' 2 hour ++ ":" ++ Numeral.decimal '0' 2 minutes.toNat ++ " " ++ suffix

/-- Width of the right-hand part of the status line. -/
def timeWidth : Nat := 21
def scoreWidth : Nat := 31

/-- Cut to a width, or padded with blanks. -/
def fit (width : Nat) (text : List UInt8) : List UInt8 :=
  (text ++ List.replicate (width - text.length) ZString.space).take width

/-- The status line, as wide as the screen. -/
def statusLine : MachineM M H (List UInt8) := do
  let location ← loadVariable 16
  let first ← loadVariable 17
  let second ← loadVariable 18
  let c ← getCore
  let columns := c.settings.screenColumns.toNat
  let capabilities ← ofMemory (Memory.readByte Field.capabilities)
  let (width, right) :=
    if capabilities &&& Flag.timeGame ≠ 0 then (timeWidth, " Time: " ++ timeText first second)
    else (scoreWidth, s!" Score: {signed first} Moves: {signed second}")
  let name ← ofMemory (Object.name c.header location)
  let left := fit (columns - width) (ZString.space :: name.flatMap ZString.display)
  return fit columns (left ++ right.toUTF8.toList)

def showStatus : MachineM M H Unit := do
  ofHost (Host.showStatus (← statusLine))

end ZMachine.Machine
