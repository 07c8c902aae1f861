import ZMachine.ZString.Alphabet

/-!
# Encoding text

A text becomes a sequence of z-characters (`encode`), and these become words
of three z-characters each, the last word marked by its top bit (`pack`).
Dictionary words have a fixed length instead: nine z-characters, of which the
first six count before version 4 (`dictionaryWords`).

From version 3 on a shift holds for one character.  Versions 1 and 2 also
have shifts that lock, and the encoder locks when the next character comes
from the same row.
-/

namespace ZMachine.ZString

/-- The z-character that fills unused places: a shift without effect. -/
def filler : UInt8 := 5

/-- The z-characters of a character once its row is selected: its place, and
after the escape its number in two halves. -/
def spell (c : UInt8) : Row × Nat → List UInt8
  | (r, place) =>
    if r = .punctuation ∧ place = 0 then [6, c >>> 5, c &&& 0x1f]
    else [UInt8.ofNat (place + 6)]

/-- One shift for each character outside the lower row. -/
def encodeShifting (text : List UInt8) : List UInt8 :=
  text.flatMap fun c =>
    if c = space then [0]
    else
      let spot := locate c
      if spot.1 = .lower then spell c spot
      else UInt8.ofNat (spot.1.val + 3) :: spell c spot

/-- Row of the first character of what follows; the lower row at the end. -/
def upcomingRow : List UInt8 → Row
  | [] => .lower
  | c :: _ => (locate c).1

/-- Shifts relative to the row `lock`, locking if the next character asks for
the same row. -/
def encodeLocking (lock : Row) : List UInt8 → List UInt8
  | [] => []
  | c :: rest =>
    if c = space then 0 :: encodeLocking lock rest
    else
      let spot := locate c
      if spot.1 = lock then spell c spot ++ encodeLocking lock rest
      else
        let shift := (spot.1 - lock).val
        if upcomingRow rest = spot.1 then
          UInt8.ofNat (shift + 3) :: (spell c spot ++ encodeLocking spot.1 rest)
        else
          UInt8.ofNat (shift + 1) :: (spell c spot ++ encodeLocking .lower rest)

/-- The z-characters of a text, without filling. -/
def encode (version : UInt8) (text : List UInt8) : List UInt8 :=
  if version < 3 then encodeLocking .lower text else encodeShifting text

/-- Three z-characters as a word without end mark. -/
def packThree (a b c : UInt8) : UInt16 :=
  UInt16.ofNat (a.toNat * 1024 + b.toNat * 32 + c.toNat)

def packThrees : List UInt8 → List UInt16
  | a :: b :: c :: rest => packThree a b c :: packThrees rest
  | _ => []

/-- Set the end mark on a word. -/
def endMarked (w : UInt16) : UInt16 := w ||| 0x8000

/-- Filled up to a multiple of three, and at least to three. -/
def filled (codes : List UInt8) : List UInt8 :=
  let missing := if codes.isEmpty then 3 else (3 - codes.length % 3) % 3
  codes ++ List.replicate missing filler

/-- The words of a string of z-characters. -/
def pack (codes : List UInt8) : List UInt16 :=
  let words := packThrees (filled codes)
  words.modify (words.length - 1) endMarked

/-- The number of words that a dictionary entry holds. -/
def significantWords (version : UInt8) : Nat :=
  if version < 4 then 2 else 3

/-- A text in dictionary form: three words, of which the first
`significantWords` count and carry the end mark. -/
def dictionaryWords (version : UInt8) (text : List UInt8) : List UInt16 :=
  let codes := (encode version text ++ List.replicate 9 filler).take 9
  (packThrees codes).modify (significantWords version - 1) endMarked

end ZMachine.ZString
