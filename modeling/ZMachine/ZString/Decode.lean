import ZMachine.Header
import ZMachine.ZString.Alphabet

/-!
# Decoding strings

A string is read word by word until the word with the top bit set.  Each of
its z-characters moves a small automaton, `Reading`, which says what the
z-character means: nothing yet, one character, or a reference to an
abbreviation.  Abbreviations are strings themselves and may refer to further
ones, three deep and no deeper.

The text found so far stays in the state of the computation, so it is there
also when decoding fails half way.
-/

namespace ZMachine.ZString

/-- What the next z-character belongs to, if it is no character by itself. -/
inductive Pending where
  | nothing
  /-- Index into an abbreviation table, `1` to `3`. -/
  | abbreviation (table : Nat)
  | escapeHigh
  | escapeLow (high : UInt8)
  deriving DecidableEq, Repr

/-- What a z-character yields. -/
inductive Yield where
  | nothing
  | character (c : UInt8)
  | abbreviation (table index : Nat)
  deriving DecidableEq, Repr

/-- State of the automaton between two z-characters: the row for the next
character, the row that shifts fall back to, and a sequence under way. -/
structure Reading where
  row : Row := .lower
  lock : Row := .lower
  pending : Pending := .nothing
  deriving DecidableEq, Repr

namespace Reading

/-- A z-character above 5 outside any sequence. -/
def alphabetic (r : Reading) (code : UInt8) : Reading × Yield :=
  let place := code.toNat - 6
  let after := { r with row := r.lock }
  if r.row = .punctuation ∧ place = 0 then ({ after with pending := .escapeHigh }, .nothing)
  else if r.row = .punctuation ∧ place = 1 then (after, .character newline)
  else (after, .character (character r.row place))

/-- The z-characters 1 to 5 in versions 1 and 2: the newline or the only
abbreviation table, two shifts for one character, two that lock. -/
def controlEarly (version : UInt8) (r : Reading) (code : UInt8) : Reading × Yield :=
  if code = 1 then
    if version = 1 then (r, .character newline)
    else ({ r with pending := .abbreviation 1 }, .nothing)
  else if code ≤ 3 then
    ({ r with row := r.lock + Row.ofNat (code.toNat + 2) }, .nothing)
  else
    let lock := r.lock + Row.ofNat code.toNat
    ({ r with row := lock, lock }, .nothing)

/-- The z-characters 1 to 5 from version 3 on: three abbreviation tables and
two shifts for one character. -/
def controlLate (r : Reading) (code : UInt8) : Reading × Yield :=
  if code < 4 then ({ r with pending := .abbreviation code.toNat }, .nothing)
  else ({ r with row := Row.ofNat (code.toNat - 3), lock := .lower }, .nothing)

def next (version : UInt8) (r : Reading) (code : UInt8) : Reading × Yield :=
  match r.pending with
  | .abbreviation table =>
    ({ r with row := r.lock, pending := .nothing }, .abbreviation table code.toNat)
  | .escapeHigh => ({ r with pending := .escapeLow (code <<< 5) }, .nothing)
  | .escapeLow high => ({ r with pending := .nothing }, .character (high ||| code))
  | .nothing =>
    if 5 < code then r.alphabetic code
    else if code = 0 then (r, .character space)
    else if version < 3 then r.controlEarly version code
    else r.controlLate code

end Reading

/-- The three z-characters of a word. -/
def codes (w : UInt16) : List UInt8 :=
  [UInt8.ofNat (w.toNat / 1024 % 32), UInt8.ofNat (w.toNat / 32 % 32), UInt8.ofNat (w.toNat % 32)]

/-- The mark on a string's last word. -/
def isEnd (w : UInt16) : Bool :=
  0x8000 ≤ w.toNat

/-- Memory being read and the text found so far. -/
structure Decoding (M : Type) where
  memory : M
  text : Array UInt8

abbrev DecodeM (M : Type) := EStateM Fault (Decoding M)

namespace DecodeM

variable {M α : Type}

def ofMemory (x : MemoryM M α) : DecodeM M α
  | ⟨memory, text⟩ =>
    match x memory with
    | .ok a memory => .ok a ⟨memory, text⟩
    | .error e memory => .error e ⟨memory, text⟩

def emit (c : UInt8) : DecodeM M Unit
  | ⟨memory, text⟩ => .ok () ⟨memory, text.push c⟩

end DecodeM

section

variable {M : Type} [AddressSpace M]

/-- Do what a z-character yields; `expand` decodes the string at an address. -/
def perform (h : Header) (expand : Nat → DecodeM M Unit) : Yield → DecodeM M Unit
  | .nothing => return
  | .character c => DecodeM.emit c
  | .abbreviation table index => do
    let entry := h.abbreviations.toNat + (table - 1) * 64 + index * 2
    let target ← DecodeM.ofMemory (Memory.readWord entry)
    expand (target.toNat * 2)

def decodeCodes (h : Header) (expand : Nat → DecodeM M Unit) :
    Reading → List UInt8 → DecodeM M Reading
  | r, [] => return r
  | r, code :: rest => do
    let (r, yielded) := r.next h.version code
    perform h expand yielded
    decodeCodes h expand r rest

/-- Words from `address` on up to the end mark; the result is the address
after the string.  Every word read lies in memory, so the first argument,
which bounds their number, never runs out when it starts at the memory's
size. -/
def decodeWords (h : Header) (expand : Nat → DecodeM M Unit) :
    Nat → Nat → Reading → DecodeM M Nat
  | 0, address, _ => do
    let size ← DecodeM.ofMemory Memory.size
    throw (.addressOutOfRange address size)
  | fuel + 1, address, r => do
    let w ← DecodeM.ofMemory (Memory.readWord address)
    let r ← decodeCodes h expand r (codes w)
    if isEnd w then return address + 2
    else decodeWords h expand fuel (address + 2) r

/-- Decode the string at an address with `levels` levels of strings still
allowed, counting its own. -/
def decodeNested (h : Header) : (levels : Nat) → (start : Nat) → DecodeM M Nat
  | 0, start => throw (.nestedAbbreviation start)
  | levels + 1, start => do
    let size ← DecodeM.ofMemory Memory.size
    decodeWords h (fun target => discard (decodeNested h levels target)) (size + 1) start {}

/-- Append the text of the string at an address and give the address after
it. -/
def decodeText (h : Header) (start : Nat) : DecodeM M Nat :=
  decodeNested h 4 start

/-- The text of the string at an address, with the address after it. -/
def decodeString (h : Header) (start : Nat) : MemoryM M (List UInt8 × Nat) := fun memory =>
  match decodeText h start ⟨memory, #[]⟩ with
  | .ok after d => .ok (d.text.toList, after) d.memory
  | .error e d => .error e d.memory

end

end ZMachine.ZString
