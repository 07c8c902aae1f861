import ZMachine.Object

/-!
# Properties

The property table of an object starts with its short name: a byte that
counts words, then the words.  Properties follow in descending order of their
numbers, each a header of one or two bytes and its data, up to a zero byte.
A property that is missing has the default value that the table in front of
the objects gives.
-/

namespace ZMachine.Property

open Memory

/-- A property's header, read. -/
structure Entry where
  /-- Address of the header. -/
  address : Nat
  number : UInt16
  /-- Address of the first data byte. -/
  data : Nat
  size : Nat
  /-- The value is a byte and not a word. -/
  isByte : Bool
  deriving DecidableEq, Repr

/-- Address of the header after this property. -/
def Entry.after (e : Entry) : Nat :=
  e.data + e.size

/-- Size that a size byte gives before version 4, or that a short header gives
afterwards. -/
def shortSize (h : Header) (b : UInt8) : Nat :=
  if h.version < 4 then b.toNat / 32 + 1 else b.toNat / 64 % 2 + 1

/-- Size in the second byte of a long header, where 64 is written as 0. -/
def longSize (h : Header) (b : UInt8) : Nat :=
  if b &&& h.propertySizeMask = 0 then 64 else (b &&& h.propertySizeMask).toNat

/-- A header of two bytes, which exists from version 4 on. -/
def isLong (h : Header) (b : UInt8) : Bool :=
  4 ≤ h.version ∧ 0x80 ≤ b

section

variable {M : Type} [AddressSpace M]

/-- Read the header at an address. -/
def readEntry (h : Header) (address : Nat) : MemoryM M Entry := do
  let b ← readByte address
  let number := (b &&& h.propertyMask).toUInt16
  if isLong h b then
    let size := longSize h (← readByte (address + 1))
    return { address, number, data := address + 2, size, isByte := false }
  else
    let size := shortSize h b
    return { address, number, data := address + 1, size, isByte := size = 1 }

/-- Address of the first property header of an object. -/
def first (h : Header) (object : UInt16) : MemoryM M Nat := do
  let table ← Object.propertyTable h object
  let words ← readByte table
  return table + words.toNat * 2 + 1

/-- The first entry from `address` on whose number is at most `property`.
Headers lie one behind the other, so the first argument never runs out when
it starts above the memory's size. -/
def descend (h : Header) (property : UInt16) : Nat → (address : Nat) → MemoryM M Entry
  | 0, address => do throw (.addressOutOfRange address (← size))
  | fuel + 1, address => do
    let e ← readEntry h address
    if property < e.number then descend h property fuel e.after
    else return e

def find (h : Header) (object property : UInt16) : MemoryM M (Option Entry) := do
  let start ← first h object
  let e ← descend h property ((← size) + 1) start
  return if e.number = property ∧ property ≠ 0 then some e else none

/-- The value of a property that the object does not have. -/
def default (h : Header) (property : UInt16) : MemoryM M UInt16 :=
  readWord (h.objects.toNat + (property.toNat - 1) * 2)

def get (h : Header) (object property : UInt16) : MemoryM M UInt16 := do
  if object = 0 then return 0
  match ← find h object property with
  | some e => if e.isByte then return (← readByte e.data).toUInt16 else readWord e.data
  | none => default h property

/-- Address of a property's data, or `0` if the object does not have it. -/
def dataAddress (h : Header) (object property : UInt16) : MemoryM M UInt16 := do
  if object = 0 then return 0
  match ← find h object property with
  | some e => return UInt16.ofNat e.data
  | none => return 0

/-- The number after a property's in an object's list; `0` asks for the first
and answers the end. -/
def next (h : Header) (object property : UInt16) : MemoryM M UInt16 := do
  if object = 0 then return 0
  if property = 0 then
    return (← readEntry h (← first h object)).number
  match ← find h object property with
  | some e => return (← readEntry h e.after).number
  | none => throw (.missingProperty object property)

def put (h : Header) (object property value : UInt16) : MemoryM M Unit := do
  if object = 0 then return
  match ← find h object property with
  | some e => if e.isByte then writeByte e.data (lowByte value) else writeWord e.data value
  | none => throw (.missingProperty object property)

/-- Size of the property whose data starts at an address: it is in the byte
before. -/
def length (h : Header) (data : UInt16) : MemoryM M UInt16 := do
  if data = 0 then return 0
  let b ← readByte (data.toNat - 1)
  return UInt16.ofNat (if isLong h b then longSize h b else shortSize h b)

end

end ZMachine.Property
