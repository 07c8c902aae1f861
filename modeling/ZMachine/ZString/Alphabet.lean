/-!
# Alphabets

A z-character from 6 to 31 names a place in one of three rows of 26
characters: lower case, upper case, punctuation.  The first place of the
punctuation row is no character but the escape that spells a character by its
number, and the second is the newline.
-/

namespace ZMachine.ZString

/-- A row of the alphabet table. -/
abbrev Row := Fin 3

def Row.lower : Row := 0
def Row.upper : Row := 1
def Row.punctuation : Row := 2

/-- The rows follow each other in a circle. -/
def Row.ofNat (n : Nat) : Row := ⟨n % 3, Nat.mod_lt n (by decide)⟩

/-- The ZSCII code of the newline. -/
def newline : UInt8 := 13

/-- The line feed, which stands for a newline in a text to be encoded. -/
def lineFeed : UInt8 := 10

def space : UInt8 := 32

def lowerRow : List UInt8 := (List.range 26).map fun i => UInt8.ofNat (97 + i)

def upperRow : List UInt8 := (List.range 26).map fun i => UInt8.ofNat (65 + i)

/-- The characters ` `, newline, `0123456789.,!?_#'"/\-:()`. -/
def punctuationRow : List UInt8 :=
  [32, 10, 48, 49, 50, 51, 52, 53, 54, 55, 56, 57,
    46, 44, 33, 63, 95, 35, 39, 34, 47, 92, 45, 58, 40, 41]

def row : Row → List UInt8
  | 0 => lowerRow
  | 1 => upperRow
  | 2 => punctuationRow

/-- The character at a place of a row. -/
def character (r : Row) (place : Nat) : UInt8 :=
  (row r).getD place 0

/-- Row and place of a character.  One that is in no row gets the escape. -/
def locate (c : UInt8) : Row × Nat :=
  if 97 ≤ c ∧ c ≤ 122 then (.lower, c.toNat - 97)
  else if 65 ≤ c ∧ c ≤ 90 then (.upper, c.toNat - 65)
  else (.punctuation, (punctuationRow.idxOf? c).getD 0)

end ZMachine.ZString
