/-!
# Numerals

Addresses and opcodes are written in lower case hexadecimal, padded on the
left with zeros to a least width; control characters are written in octal.
-/

namespace ZMachine.Numeral

/-- Digits of `n` in base `base`, at least `width` of them. -/
def digits (base width n : Nat) : List Char :=
  let ds := Nat.toDigits base n
  List.replicate (width - ds.length) '0' ++ ds

def hex (width n : Nat) : String :=
  String.ofList (digits 16 width n)

/-- Hexadecimal after the marker `0x`; the width counts digits only. -/
def markedHex (width n : Nat) : String :=
  "0x" ++ hex width n

/-- Decimal, padded on the left with `pad` to a least width. -/
def decimal (pad : Char) (width n : Nat) : String :=
  let ds := Nat.toDigits 10 n
  String.ofList (List.replicate (width - ds.length) pad ++ ds)

end ZMachine.Numeral
