import ZMachine.ZString.Alphabet

/-!
# Showing characters

A display takes bytes.  Printable ASCII goes to it as it is; arrows, line
drawing and the letters of German have stand-ins, and other control codes are
written in octal.
-/

namespace ZMachine.ZString

/-- The bytes that show a character on a display. -/
def display (c : UInt8) : List UInt8 :=
  if 32 ≤ c ∧ c ≤ 126 then [c]
  else if c = newline then [13]
  else if c = 0 then []
  else if c = 24 then [92]
  else if c = 25 then [47]
  else if c = 26 then [43]
  else if c = 27 then [45]
  else if c < 32 then 92 :: [c >>> 6, c >>> 3, c].map fun octal => (octal &&& 7) + 48
  else if 155 ≤ c ∧ c ≤ 163 then
    match c.toNat - 155 with
    | 0 => [97, 101]
    | 1 => [111, 101]
    | 2 => [117, 101]
    | 3 => [65, 101]
    | 4 => [79, 101]
    | 5 => [85, 101]
    | 6 => [115, 115]
    | 7 => [62, 62]
    | _ => [60, 60]
  else if c = 179 then [124]
  else if c = 186 then [35]
  else if c = 196 then [45]
  else if c = 205 then [61]
  else if 179 ≤ c ∧ c ≤ 218 then [43]
  else [63]

end ZMachine.ZString
