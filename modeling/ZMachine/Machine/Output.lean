import ZMachine.Machine.Routine
import ZMachine.Object
import ZMachine.ZString.Display
import ZMachine.ZString.Encode

/-!
# Output

A character goes to the innermost open output table if there is one, as it
is; otherwise to the screen, if that is selected, in the bytes that show it.
Tables nest: closing one writes the number of its characters in front of them
and goes on with the one outside it.
-/

namespace ZMachine.Machine

open MachineM

variable {M H : Type} [AddressSpace M] [Host H]

/-- Write one byte of text to the current window. -/
def showByte (b : UInt8) : MachineM M H Unit := do
  ofHost (Host.writeByte (← getCore).window b)

/-- Count a character in the innermost table; the result is its address. -/
def advanceTable : MachineM M H (Option Nat) := do
  match (← getCore).streams.tables with
  | [] => return none
  | t :: outer =>
    modifyCore fun c =>
      { c with streams := { c.streams with tables := { t with count := t.count + 1 } :: outer } }
    return some (t.address + 2 + t.count.toNat)

def writeCharacter (ch : UInt8) : MachineM M H Unit := do
  match ← advanceTable with
  | some address => ofMemory (Memory.writeByte address ch)
  | none =>
    if (← getCore).streams.screenOff then return
    (ZString.display ch).forM showByte

def writeText (text : List UInt8) : MachineM M H Unit :=
  text.forM writeCharacter

def newLine : MachineM M H Unit :=
  writeCharacter ZString.newline

/-- Print the string at an address; the result is the address after it. -/
def printString (address : Nat) : MachineM M H Nat := do
  let (text, after) ← ofMemory (ZString.decodeString (← header) address)
  writeText text
  return after

/-- Print the string that follows in the code. -/
def printLiteral : MachineM M H Unit := do
  let after ← printString (← getCore).pc.toNat
  modifyCore fun c => { c with pc := UInt32.ofNat after }

/-- Print the string that follows in the code and a newline, and return
true. -/
def printAndReturn : MachineM M H Unit := do
  printLiteral
  newLine
  ret 1

def printAddress (address : UInt16) : MachineM M H Unit :=
  discard (printString address.toNat)

def printPacked (packed : UInt16) : MachineM M H Unit := do
  discard (printString ((← header).unpack packed))

/-- The digits of a signed number. -/
def numberText (value : UInt16) : List UInt8 :=
  (toString (signed value)).toUTF8.toList

def printNumber (value : UInt16) : MachineM M H Unit :=
  writeText (numberText value)

def printObject (object : UInt16) : MachineM M H Unit := do
  writeText (← ofMemory (Object.name (← header) object))

/-- Print `height` rows of `width` characters from a table in which `skip`
bytes separate the rows. -/
def printRows (width skip : Nat) : (height start : Nat) → MachineM M H Unit
  | 0, _ => return
  | height + 1, start => do
    (List.range width).forM fun column => do
      writeCharacter (← ofMemory (Memory.readByte (start + column)))
    if height ≠ 0 then
      newLine
      printRows width skip height (start + width + skip)

def printTable (address width height skip : UInt16) : MachineM M H Unit :=
  if width = 0 then return
  else printRows width.toNat skip.toNat height.toNat address.toNat

/-- Encode `length` bytes of text from `start` on as a dictionary word. -/
def encodeToTable (text length start table : UInt16) : MachineM M H Unit := do
  let bytes ← ofMemory (Memory.readBytes (text.toNat + start.toNat) length.toNat)
  match ZString.dictionaryWords (← version) bytes with
  | [a, b, c] =>
    ofMemory (Memory.writeWord table.toNat a)
    ofMemory (Memory.writeWord (table.toNat + 2) b)
    ofMemory (Memory.writeWord (table.toNat + 4) c)
  | _ => return

/-- Set or clear bits of the flags word in the header. -/
def changeFlags (f : UInt16 → UInt16) : MachineM M H Unit := do
  let flags ← ofMemory (Memory.readWord Field.flags)
  ofMemory (Memory.writeWord Field.flags (f flags))

/-- Close the innermost output table. -/
def closeTable : MachineM M H Unit := do
  match (← getCore).streams.tables with
  | [] => return
  | t :: outer =>
    modifyCore fun c => { c with streams := { c.streams with tables := outer } }
    ofMemory (Memory.writeWord t.address t.count)

/-- Select a stream by its number, or deselect it by the negative of it: the
screen (1), the script (2), which is a flag for the host, or an output table
(3). -/
def outputStream (number table : UInt16) : MachineM M H Unit := do
  let n := signed number
  if n = 1 then
    modifyCore fun c => { c with streams := { c.streams with screenOff := false } }
  else if n = -1 then
    modifyCore fun c => { c with streams := { c.streams with screenOff := true } }
  else if n = 2 then changeFlags (· ||| Flag.scripting)
  else if n = -2 then changeFlags (· &&& ~~~ Flag.scripting)
  else if n = 3 then
    modifyCore fun c =>
      { c with streams := { c.streams with tables := ⟨table.toNat, 0⟩ :: c.streams.tables } }
  else if n = -3 then closeTable

end ZMachine.Machine
