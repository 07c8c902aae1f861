/-!
# Characters and strings of TOML

Line ends are taken as line feeds: a carriage return counts only in front of
one and is dropped there.  Strings are cut out of the text first and their
escapes are resolved afterwards.
-/

namespace ZMachine.Toml

/-- Line ends of two characters become line feeds. -/
def unifyLines : List Char → List Char
  | '\r' :: '\n' :: rest => '\n' :: unifyLines rest
  | c :: rest => c :: unifyLines rest
  | [] => []

def isBlank (c : Char) : Bool := c = ' ' ∨ c = '\t'

/-- A character that may stand in a comment or a string: no control
character but the tab. -/
def isText (c : Char) : Bool := c = '\t' ∨ (32 ≤ c.toNat ∧ c.toNat ≠ 127)

def skipBlanks (cs : List Char) : List Char := cs.dropWhile isBlank

/-- Skip blanks, line ends and comments; a comment must end with a line. -/
def skipLines (inComment : Bool) : List Char → Except String (List Char)
  | [] => if inComment then throw "unfinished comment" else return []
  | c :: rest =>
    if inComment then
      if c = '\n' then skipLines false rest
      else if isText c then skipLines true rest
      else throw "control character in a comment"
    else if isBlank c ∨ c = '\n' then skipLines false rest
    else if c = '#' then skipLines true rest
    else return c :: rest

/-- Skip blanks and a comment up to the end of the line, and the end. -/
def finishLine (cs : List Char) : Except String (List Char) :=
  let cs := skipBlanks cs
  let cs := if cs.head? = some '#' then cs.dropWhile isText else cs
  match cs with
  | [] => return []
  | '\n' :: rest => return rest
  | _ => throw "text after the end of an entry"

def hexDigit? (c : Char) : Option Nat :=
  if '0' ≤ c ∧ c ≤ '9' then some (c.toNat - '0'.toNat)
  else if 'a' ≤ c ∧ c ≤ 'f' then some (c.toNat - 'a'.toNat + 10)
  else if 'A' ≤ c ∧ c ≤ 'F' then some (c.toNat - 'A'.toNat + 10)
  else none

/-- The character whose number is written in hexadecimal digits. -/
def charOfHex? (digits : List Char) : Option Char := do
  let n ← digits.foldlM (fun n c => return n * 16 + (← hexDigit? c)) 0
  if n.isValidChar then some (Char.ofNat n) else none

/-- Resolve escapes.  A backslash at the end of a line of a long string takes
the white space after it away: `trim` is `some true` behind such a line end,
and `some false` in the blanks before it. -/
def unescape (long : Bool) (trim : Option Bool) : List Char → Option (List Char)
  | [] => if trim = some false then none else some []
  | c :: rest =>
    if trim.isSome ∧ isBlank c then unescape long trim rest
    else if trim.isSome ∧ c = '\n' then unescape long (some true) rest
    else if trim = some false then none
    else if c ≠ '\\' then (c :: ·) <$> unescape long none rest
    else
      match rest with
      | 'b' :: rest => ('\x08' :: ·) <$> unescape long none rest
      | 't' :: rest => ('\t' :: ·) <$> unescape long none rest
      | 'n' :: rest => ('\n' :: ·) <$> unescape long none rest
      | 'f' :: rest => ('\x0c' :: ·) <$> unescape long none rest
      | 'r' :: rest => ('\r' :: ·) <$> unescape long none rest
      | '"' :: rest => ('"' :: ·) <$> unescape long none rest
      | '\\' :: rest => ('\\' :: ·) <$> unescape long none rest
      | 'u' :: a :: b :: c :: d :: rest => do
        return (← charOfHex? [a, b, c, d]) :: (← unescape long none rest)
      | 'U' :: a :: b :: c :: d :: e :: f :: g :: h :: rest => do
        return (← charOfHex? [a, b, c, d, e, f, g, h]) :: (← unescape long none rest)
      | rest => if long then unescape long (some false) rest else none

/-- Characters up to a closing quote.  With `escapes`, the character after a
backslash does not close. -/
def cutShort (quote : Char) (escapes : Bool) (found : List Char) :
    List Char → Except String (List Char × List Char)
  | [] => throw "unfinished string"
  | c :: rest =>
    if c = quote then return (found.reverse, rest)
    else if escapes ∧ c = '\\' then
      match rest with
      | next :: rest => cutShort quote escapes (next :: c :: found) rest
      | [] => throw "unfinished string"
    else if isText c then cutShort quote escapes (c :: found) rest
    else throw "control character in a string"

/-- Three quotes close a long string; up to two more in front of them belong
to it. -/
def closeLong? (quote : Char) (cs : List Char) : Option (List Char × List Char) :=
  let n := min 5 (cs.takeWhile (· = quote)).length
  if n < 3 then none else some (List.replicate (n - 3) quote, cs.drop n)

/-- Characters up to three closing quotes. -/
def cutLong (quote : Char) (escapes : Bool) (found : List Char) :
    List Char → Except String (List Char × List Char)
  | [] => throw "unfinished string"
  | c :: rest =>
    match closeLong? quote (c :: rest) with
    | some (quotes, after) => return (found.reverse ++ quotes, after)
    | none =>
      if escapes ∧ c = '\\' then
        match rest with
        | next :: rest => cutLong quote escapes (next :: c :: found) rest
        | [] => throw "unfinished string"
      else if c = '\n' ∨ isText c then cutLong quote escapes (c :: found) rest
      else throw "control character in a string"

/-- A line end right behind the opening quotes of a long string is dropped. -/
def dropFirstLine : List Char → List Char
  | '\n' :: rest => rest
  | cs => cs

def resolve (long : Bool) (raw : List Char) : Except String String :=
  match unescape long none raw with
  | some cs => return String.ofList cs
  | none => throw "invalid escape"

/-- A string of one line, without its opening quote. -/
def shortString (quote : Char) (cs : List Char) : Except String (String × List Char) := do
  let (raw, rest) ← cutShort quote (quote = '"') [] cs
  let value ← if quote = '"' then resolve false raw else pure (String.ofList raw)
  return (value, rest)

/-- A string, without its opening quote. -/
def quoted (quote : Char) : List Char → Except String (String × List Char)
  | a :: b :: rest =>
    if a = quote ∧ b = quote then do
      let (raw, rest) ← cutLong quote (quote = '"') [] (dropFirstLine rest)
      let value ← if quote = '"' then resolve true raw else pure (String.ofList raw)
      return (value, rest)
    else shortString quote (a :: b :: rest)
  | cs => shortString quote cs

end ZMachine.Toml
