import ZMachine.Header
import ZMachine.Token
import ZMachine.ZString.Encode

/-!
# Dictionaries

A dictionary lists the words that a story knows, each in encoded form and at
a fixed distance from the next.  A positive count promises that the entries
are in ascending order, and the search then halves its step at every probe; a
negative count makes no promise, and every entry is looked at.

`tokenise` splits a line in memory into tokens and writes for each of them
the address of its dictionary entry, its length and its place in the line.
-/

namespace ZMachine

structure Dictionary where
  /-- Separators of the story, which are tokens of their own. -/
  separators : List UInt8
  entrySize : Nat
  /-- Number of entries, negative if they are not sorted. -/
  count : Int
  /-- Address of the first entry. -/
  entries : Nat
  deriving DecidableEq, Repr

namespace Dictionary

open Memory

variable {M : Type} [AddressSpace M]

def load (address : Nat) : MemoryM M Dictionary := do
  let n ← readByte address
  let separators ← readBytes (address + 1) n.toNat
  let entrySize ← readByte (address + 1 + n.toNat)
  let count ← readWord (address + 2 + n.toNat)
  return { separators, entrySize := entrySize.toNat, count := signed count,
           entries := address + 4 + n.toNat }

/-- Order of an encoded word against the entry at an address, comparing words
as signed numbers from left to right. -/
def compareAt : List UInt16 → Nat → MemoryM M Ordering
  | [], _ => return .eq
  | part :: parts, address => do
    let entry ← readWord address
    match compare (signed part) (signed entry) with
    | .eq => compareAt parts (address + 2)
    | order => return order

def entryAddress (d : Dictionary) (index : Nat) : Nat :=
  d.entries + index * d.entrySize

/-- Look at `n` entries from `index` on, one after the other. -/
def findLinear (d : Dictionary) (word : List UInt16) : (n index : Nat) → MemoryM M UInt16
  | 0, _ => return 0
  | n + 1, index => do
    match ← compareAt word (d.entryAddress index) with
    | .eq => return UInt16.ofNat (d.entryAddress index)
    | _ => findLinear d word n (index + 1)

/-- Probe at `index`, then half a step of `2 ^ n` up or down, and so on for
`n + 1` probes, the last of which moves no more. -/
def findChopping (d : Dictionary) (word : List UInt16) (last : Nat) :
    (probes index : Nat) → MemoryM M UInt16
  | 0, _ => return 0
  | n + 1, index => do
    let step := 1 <<< n / 2
    let index := min index last
    match ← compareAt word (d.entryAddress index) with
    | .eq => return UInt16.ofNat (d.entryAddress index)
    | .gt => findChopping d word last n (min (index + step) last)
    | .lt => findChopping d word last n (index - step)

/-- Exponent of the first step of the search by halving: the least power of
two above half the number of entries, and at least two. -/
def firstStep (count : Nat) : Nat :=
  Nat.log2 (count / 2) + 1

/-- Address of the entry of a word, or `0` if it has none. -/
def find (d : Dictionary) (version : UInt8) (text : List UInt8) : MemoryM M UInt16 :=
  let word := (ZString.dictionaryWords version text).take (ZString.significantWords version)
  if d.count = 0 then return 0
  else if d.count < 0 then d.findLinear word d.count.natAbs 0
  else
    let n := d.count.toNat
    d.findChopping word (n - 1) (firstStep n + 1) (1 <<< firstStep n - 1)

/-- A listing of the separators and sizes. -/
def describe (d : Dictionary) : String :=
  let counts :=
    s!"Number of separators: {d.separators.length}, entry size: {d.entrySize}" ++
      s!", entry count: {d.count}\n"
  let quoted (c : UInt8) : String := "'" ++ String.singleton (Char.ofNat c.toNat) ++ "' , "
  counts ++ "separators:\n" ++ String.join (d.separators.map quoted)

/-- The text in a line buffer, after its distance from the start of the
buffer.  From version 5 on a length byte precedes it; before, a zero ends
it. -/
def lineText (version : UInt8) (buffer : Nat) : MemoryM M (Nat × List UInt8) := do
  if 4 < version then
    let length ← readByte (buffer + 1)
    return (2, ← readBytes (buffer + 2) length.toNat)
  else
    return (1, ← readToZero (buffer + 1))

/-- Write the records of tokens from address `entry` on, as long as there is
`room`; the result is how much room is left.  With `keepUnknown`, the entry
address of a word that is not in the dictionary is left as it was. -/
def writeTokens (d : Dictionary) (version : UInt8) (line : List UInt8) (offset : Nat)
    (keepUnknown : Bool) : (room entry : Nat) → List Token.Span → MemoryM M Nat
  | room, _, [] => return room
  | 0, _, _ :: _ => return 0
  | room + 1, entry, s :: rest => do
    let word ← d.find version (s.text line)
    if word ≠ 0 ∨ ¬ keepUnknown then
      writeWord entry word
    writeByte (entry + 2) (UInt8.ofNat s.length)
    writeByte (entry + 3) (UInt8.ofNat (offset + s.start))
    writeTokens d version line offset keepUnknown room (entry + 4) rest

/-- Split the line in a line buffer and fill a token buffer.  The first byte
of the token buffer limits the number of records and the second receives it;
tokens without a record are dropped. -/
def tokenise (version : UInt8) (lineBuffer tokenBuffer dictionary : UInt16) (keepUnknown : Bool) :
    MemoryM M Unit := do
  let (offset, line) ← lineText version lineBuffer.toNat
  let d ← load dictionary.toNat
  let limit ← readByte tokenBuffer.toNat
  let spans := Token.tokens d.separators line
  let room ← d.writeTokens version line offset keepUnknown limit.toNat (tokenBuffer.toNat + 2) spans
  writeByte (tokenBuffer.toNat + 1) (UInt8.ofNat (limit.toNat - room))

end Dictionary
end ZMachine
