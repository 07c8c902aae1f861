import ZMachine.ZString.Decode

/-!
# The object tree

Objects are records of fixed size behind the table of property defaults: an
attribute field, links to parent, sibling and child, and the address of the
property table.  Links are bytes before version 4 and words afterwards, so an
object's number says where its record is.

The children of an object are a list: the child link names the first and the
sibling links the others.  `remove` takes an object out of its parent's list
and `insert` puts it at the front of another.  The number 0 stands for no
object: reading through it gives 0 and writing through it does nothing.
-/

namespace ZMachine.Object

open Memory

inductive Link where
  | parent
  | sibling
  | child
  deriving DecidableEq, Repr

/-- Distance of a link from the start of the record. -/
def Link.offset (h : Header) : Link → Nat
  | .parent => if h.version < 4 then 4 else 6
  | .sibling => if h.version < 4 then 5 else 8
  | .child => if h.version < 4 then 6 else 10

/-- Address of the record of an object, which is numbered from 1. -/
def address (h : Header) (object : UInt16) : Nat :=
  h.objects.toNat + (h.propertyLimit - 1) * 2 + (object.toNat - 1) * h.objectSize

section

variable {M : Type} [AddressSpace M]

def readLink (h : Header) (object : UInt16) (link : Link) : MemoryM M UInt16 := do
  if object = 0 then return 0
  let place := address h object + link.offset h
  if h.version < 4 then
    return (← readByte place).toUInt16
  else
    readWord place

def writeLink (h : Header) (object : UInt16) (link : Link) (value : UInt16) : MemoryM M Unit := do
  if object = 0 then return
  let place := address h object + link.offset h
  if h.version < 4 then
    writeByte place (lowByte value)
  else
    writeWord place value

/-- Address of the property table of an object, which starts with its name. -/
def propertyTable (h : Header) (object : UInt16) : MemoryM M Nat := do
  let offset := if h.version < 4 then 7 else 12
  return (← readWord (address h object + offset)).toNat

/-- The short name of an object; empty if it has none. -/
def name (h : Header) (object : UInt16) : MemoryM M (List UInt8) := do
  if object = 0 then return []
  let table ← propertyTable h object
  if (← readByte table) = 0 then return []
  return (← ZString.decodeString h (table + 1)).1

/-- The longest list of siblings that is followed; a longer one does not
end. -/
def siblingLimit : Nat := 0x10000

/-- Follow the sibling links from `current` to the object before `object` and
let it point to `after` instead. -/
def unlink (h : Header) (object after : UInt16) : (limit : Nat) → UInt16 → MemoryM M Unit
  | 0, _ => return
  | limit + 1, current => do
    if current = 0 then return
    let following ← readLink h current .sibling
    if following = object then
      writeLink h current .sibling after
    else
      unlink h object after limit following

/-- Detach an object from its parent; it keeps its children. -/
def remove (h : Header) (object : UInt16) : MemoryM M Unit := do
  let parent ← readLink h object .parent
  if parent = 0 then return
  let sibling ← readLink h object .sibling
  let first ← readLink h parent .child
  if first = object then
    writeLink h parent .child sibling
  else
    unlink h object sibling siblingLimit first
  writeLink h object .parent 0
  writeLink h object .sibling 0

/-- Make an object the first child of another. -/
def insert (h : Header) (object destination : UInt16) : MemoryM M Unit := do
  if object = 0 ∨ destination = 0 then return
  remove h object
  let child ← readLink h destination .child
  writeLink h object .parent destination
  writeLink h object .sibling child
  writeLink h destination .child object

/-- The byte that holds an attribute. -/
def attributeAddress (h : Header) (object attr : UInt16) : Nat :=
  address h object + attr.toNat / 8

/-- The bit of an attribute in its byte; attribute 0 is the top bit. -/
def attributeMask (attr : UInt16) : UInt8 :=
  0x80 >>> UInt8.ofNat (attr.toNat % 8)

def testAttribute (h : Header) (object attr : UInt16) : MemoryM M Bool := do
  if object = 0 then return false
  let field ← readByte (attributeAddress h object attr)
  return field &&& attributeMask attr ≠ 0

def setAttribute (h : Header) (object attr : UInt16) : MemoryM M Unit := do
  if object = 0 then return
  let field ← readByte (attributeAddress h object attr)
  writeByte (attributeAddress h object attr) (field ||| attributeMask attr)

def clearAttribute (h : Header) (object attr : UInt16) : MemoryM M Unit := do
  if object = 0 then return
  let field ← readByte (attributeAddress h object attr)
  writeByte (attributeAddress h object attr) (field &&& ~~~ attributeMask attr)

end

end ZMachine.Object
