import ZMachine.Memory

/-!
# The story header

The first 64 bytes of a story describe it: its version, where its tables are,
and what the interpreter tells it about the screen.  `Header.load` reads the
fields that never change, in the order of the checks: the version must lie in
the range that the settings allow, and an image with swapped bytes is refused.

How tables are laid out depends on the version alone; those rules are the
functions on `Header` below.
-/

namespace ZMachine

/-! Addresses inside the header. -/

namespace Field

def version : Nat := 0x00
def capabilities : Nat := 0x01
def release : Nat := 0x02
def residentSize : Nat := 0x04
def startPc : Nat := 0x06
def dictionary : Nat := 0x08
def objects : Nat := 0x0A
def globals : Nat := 0x0C
def dynamicSize : Nat := 0x0E
def flags : Nat := 0x10
def serial : Nat := 0x12
def abbreviations : Nat := 0x18
def fileSize : Nat := 0x1A
def checksum : Nat := 0x1C
def interpreterNumber : Nat := 0x1E
def interpreterVersion : Nat := 0x1F
def screenRows : Nat := 0x20
def screenColumns : Nat := 0x21
def screenLeft : Nat := 0x22
def screenRight : Nat := 0x23
def screenTop : Nat := 0x24
def screenBottom : Nat := 0x25
def fontWidth : Nat := 0x26
def fontHeight : Nat := 0x27
def unicodeTable : Nat := 0x22
def standardMajor : Nat := 0x32
def standardMinor : Nat := 0x33
def alphabet : Nat := 0x34

end Field

/-! Bits of the capabilities byte and of the flags word. -/

namespace Flag

def byteSwapped : UInt8 := 0x01
def timeGame : UInt8 := 0x02
def noStatusLine : UInt8 := 0x10
def scripting : UInt16 := 0x0001
def graphics : UInt16 := 0x0008

end Flag

structure Header where
  version : UInt8
  capabilities : UInt8
  release : UInt16
  /-- Six characters, by custom a date. -/
  serial : List UInt8
  residentSize : UInt16
  startPc : UInt16
  dictionary : UInt16
  objects : UInt16
  globals : UInt16
  dynamicSize : UInt16
  flags : UInt16
  abbreviations : UInt16
  /-- In units of `scaler`; zero in some early stories. -/
  fileSize : UInt16
  checksum : UInt16
  alphabet : UInt16
  /-- Present from version 5 on, otherwise zero. -/
  unicodeTable : UInt16
  deriving DecidableEq, Repr, Inhabited

namespace Header

open Memory

def load {M : Type} [AddressSpace M] (least greatest : UInt8) : MemoryM M Header := do
  let version ← readByte Field.version
  if version < least ∨ greatest < version then
    throw (.unsupportedVersion version least greatest)
  let capabilities ← readByte Field.capabilities
  if capabilities &&& Flag.byteSwapped ≠ 0 then
    throw .byteSwapped
  let serial ← readBytes Field.serial 6
  let release ← readWord Field.release
  let residentSize ← readWord Field.residentSize
  let startPc ← readWord Field.startPc
  let dictionary ← readWord Field.dictionary
  let objects ← readWord Field.objects
  let globals ← readWord Field.globals
  let dynamicSize ← readWord Field.dynamicSize
  let flags ← readWord Field.flags
  let abbreviations ← readWord Field.abbreviations
  let fileSize ← readWord Field.fileSize
  let checksum ← readWord Field.checksum
  let alphabet ← readWord Field.alphabet
  let unicodeTable ← if 5 ≤ version then readWord Field.unicodeTable else pure 0
  return { version, capabilities, release, serial, residentSize, startPc, dictionary,
           objects, globals, dynamicSize, flags, abbreviations, fileSize, checksum,
           alphabet, unicodeTable }

/-- Bytes per unit of a packed address. -/
def scaler (h : Header) : Nat :=
  if h.version < 4 then 2 else if h.version < 8 then 4 else 8

/-- The places by which a packed address is shifted to the left. -/
def scalerBits (h : Header) : Nat :=
  Nat.log2 h.scaler

/-- The bits of a property's first byte that hold its number. -/
def propertyMask (h : Header) : UInt8 :=
  if h.version < 4 then 0x1F else 0x3F

/-- The bits of a property's size byte that hold its size. -/
def propertySizeMask (h : Header) : UInt8 :=
  if h.version < 4 then 0xE0 else 0x3F

/-- Bytes in an object record. -/
def objectSize (h : Header) : Nat :=
  if h.version < 4 then 9 else 14

/-- One more than the number of property defaults. -/
def propertyLimit (h : Header) : Nat :=
  if h.version < 4 then 0x20 else 0x40

/-- Length of the story; the size of the memory if the header has none. -/
def storySize (h : Header) (memorySize : Nat) : Nat :=
  if h.fileSize = 0 then memorySize else h.fileSize.toNat * h.scaler

/-- Byte address of a packed routine or string address. -/
def unpack (h : Header) (packed : UInt16) : Nat :=
  packed.toNat * h.scaler

/-- The serial number, one character per byte. -/
def serialText (h : Header) : String :=
  String.ofList (h.serial.map fun b => Char.ofNat b.toNat)

open Numeral (markedHex) in
/-- A listing of the header for the player. -/
def describe (h : Header) : String :=
  let address (w : UInt16) := markedHex 4 w.toNat
  "\n" ++ String.join (List.map (· ++ "\n") [
    s!"Z-code version:           {h.version}",
    s!"Interpreter flags:        {markedHex 2 h.capabilities.toNat}",
    s!"Release number:           {h.release}",
    s!"Size of resident memory:  {address h.residentSize}",
    s!"Start PC:                 {address h.startPc}",
    s!"Dictionary address:       {address h.dictionary}",
    s!"Object table address:     {address h.objects}",
    s!"Global variables address: {address h.globals}",
    s!"Size of dynamic memory:   {address h.dynamicSize}",
    s!"Game flags:               {address h.flags}",
    s!"Serial number:            {h.serialText}",
    s!"Abbreviations address:    {address h.abbreviations}",
    s!"File size:                {markedHex 4 (h.fileSize.toNat * h.scaler)}",
    s!"Checksum:                 {address h.checksum}"])

end Header
end ZMachine
