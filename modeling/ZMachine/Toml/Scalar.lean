import ZMachine.Toml.Item

/-!
# Numbers and times of TOML

Everything that is neither a string nor in brackets is one run of letters,
digits and a few signs.  The functions here say what such a run means.
-/

namespace ZMachine.Toml

def isScalar (c : Char) : Bool :=
  c.isAlphanum ∨ c = '_' ∨ c = '+' ∨ c = '-' ∨ c = '.' ∨ c = ':'

/-- Digits, of which single underscores may separate any two; the result
leaves the underscores out. -/
def grouped? (isDigit : Char → Bool) : List Char → Option (List Char)
  | [] => none
  | [c] => if isDigit c then some [c] else none
  | c :: '_' :: rest => if isDigit c then (c :: ·) <$> grouped? isDigit rest else none
  | c :: rest => if isDigit c then (c :: ·) <$> grouped? isDigit rest else none

/-- The number that digits write in a base. -/
def valueOf (base : Nat) (digits : List Char) : Nat :=
  digits.foldl
    (fun n c =>
      let d := if c.isDigit then c.toNat - '0'.toNat else c.toLower.toNat - 'a'.toNat + 10
      n * base + d)
    0

/-- A sign, if there is one, and what follows: true for minus. -/
def splitSign : List Char → Bool × List Char
  | '+' :: rest => (false, rest)
  | '-' :: rest => (true, rest)
  | cs => (false, cs)

/-- Decimal digits without a leading zero. -/
def decimal? (cs : List Char) : Option (List Char) := do
  let ds ← grouped? Char.isDigit cs
  if ds.head? = some '0' ∧ ds.length ≠ 1 then none else some ds

/-- A number that fits into 64 bits with sign. -/
def integerOf (negative : Bool) (n : Nat) : Option Item :=
  if negative then
    if n ≤ 0x8000000000000000 then some (.integer (-n)) else none
  else
    if n < 0x8000000000000000 then some (.integer n) else none

/-- Letters count as digits in either case. -/
def isHexDigit (c : Char) : Bool := c.isDigit ∨ ('a' ≤ c.toLower ∧ c.toLower ≤ 'f')

def integer? (cs : List Char) : Option Item :=
  match cs with
  | '0' :: 'x' :: rest => do
    integerOf false (valueOf 16 (← grouped? isHexDigit rest))
  | '0' :: 'o' :: rest => do
    integerOf false (valueOf 8 (← grouped? (fun c => '0' ≤ c ∧ c ≤ '7') rest))
  | '0' :: 'b' :: rest => do
    integerOf false (valueOf 2 (← grouped? (fun c => c = '0' ∨ c = '1') rest))
  | _ => do
    let (negative, rest) := splitSign cs
    integerOf negative (valueOf 10 (← decimal? rest))

/-- Whether `digits * 10 ^ exponent` is too large for a floating point number
of 64 bits: it is nearer to `2 ^ 1024` than to any smaller one. -/
def overflows (digits : List Char) (exponent : Int) : Bool :=
  let n := valueOf 10 digits
  let bound := 1 <<< 1024 - 1 <<< 970
  let size := (Nat.toDigits 10 n).length + exponent
  if n = 0 ∨ size < 300 then false
  else if 320 < size then true
  else if 0 ≤ exponent then bound ≤ n * Nat.pow 10 exponent.toNat
  else bound * Nat.pow 10 exponent.natAbs ≤ n

/-- A number with a fraction, an exponent or both.  It must not be too large,
though it may be too small. -/
def float? (cs : List Char) : Option Item := do
  let (negative, rest) := splitSign cs
  if rest = ['i', 'n', 'f'] ∨ rest = ['n', 'a', 'n'] then
    return .float (String.ofList cs)
  let (mantissa, power) := rest.span fun c => c ≠ 'e' ∧ c ≠ 'E'
  let (whole, fraction) := mantissa.span (· ≠ '.')
  if power.isEmpty ∧ fraction.isEmpty then none
  let whole ← decimal? whole
  let fraction ← if fraction.isEmpty then some [] else grouped? Char.isDigit (fraction.drop 1)
  let (down, digits) := splitSign (power.drop 1)
  let exponent ← if power.isEmpty then some ['0'] else grouped? Char.isDigit digits
  let shift : Int := if down then -(valueOf 10 exponent) else valueOf 10 exponent
  if ¬ negative ∧ overflows (whole ++ fraction) (shift - fraction.length) then none
  return .float (String.ofList cs)

/-- Two digits that make a number in a range. -/
def twoDigits? (least greatest : Nat) : List Char → Option (Nat × List Char)
  | a :: b :: rest =>
    let n := valueOf 10 [a, b]
    if a.isDigit ∧ b.isDigit ∧ least ≤ n ∧ n ≤ greatest then some (n, rest) else none
  | _ => none

def expect? (c : Char) : List Char → Option (List Char)
  | d :: rest => if d = c then some rest else none
  | [] => none

def daysIn (year month : Nat) : Nat :=
  if month = 2 then
    if year % 4 = 0 ∧ (year % 100 ≠ 0 ∨ year % 400 = 0) then 29 else 28
  else if month = 4 ∨ month = 6 ∨ month = 9 ∨ month = 11 then 30
  else 31

/-- A date, and what follows it. -/
def date? : List Char → Option (List Char)
  | a :: b :: c :: d :: rest => do
    if ¬ [a, b, c, d].all Char.isDigit then none
    let (month, rest) ← twoDigits? 1 12 (← expect? '-' rest)
    let (day, rest) ← twoDigits? 1 31 (← expect? '-' rest)
    if day ≤ daysIn (valueOf 10 [a, b, c, d]) month then some rest else none
  | _ => none

/-- A time of day with seconds, and what follows it. -/
def clock? (cs : List Char) : Option (List Char) := do
  let (_, rest) ← twoDigits? 0 23 cs
  let (_, rest) ← twoDigits? 0 59 (← expect? ':' rest)
  let (_, rest) ← twoDigits? 0 60 (← expect? ':' rest)
  match rest with
  | '.' :: fraction =>
    if (fraction.takeWhile Char.isDigit).isEmpty then none
    else some (fraction.dropWhile Char.isDigit)
  | _ => some rest

/-- An offset from universal time, or nothing at all. -/
def isOffset (cs : List Char) : Bool :=
  match cs with
  | [] => true
  | ['Z'] => true
  | ['z'] => true
  | sign :: rest =>
    (sign = '+' ∨ sign = '-') ∧
      (do let (_, rest) ← twoDigits? 0 23 rest
          let (_, rest) ← twoDigits? 0 59 (← expect? ':' rest)
          some rest) = some []

/-- A date, a time of day, or both with a letter `T` or a blank between
them. -/
def time? (cs : List Char) : Option Item :=
  let found :=
    match date? cs with
    | some [] => true
    | some (c :: rest) =>
      (c = 'T' ∨ c = 't' ∨ c = ' ') ∧ (clock? rest).map isOffset = some true
    | none => clock? cs = some []
  if found then some (.time (String.ofList cs)) else none

def scalar? (cs : List Char) : Option Item :=
  if cs = ['t', 'r', 'u', 'e'] then some (.boolean true)
  else if cs = ['f', 'a', 'l', 's', 'e'] then some (.boolean false)
  else (integer? cs).or ((float? cs).or (time? cs))

/-- Cut a scalar off.  A blank goes on with a time of day if a date is in
front of it. -/
def cutScalar (cs : List Char) : List Char × List Char :=
  let (token, rest) := cs.span isScalar
  match rest with
  | ' ' :: after =>
    let (clock, rest') := after.span isScalar
    if date? token = some [] ∧ ¬ clock.isEmpty then (token ++ ' ' :: clock, rest')
    else (token, rest)
  | _ => (token, rest)

end ZMachine.Toml
