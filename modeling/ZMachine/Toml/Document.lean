import ZMachine.Toml.Scalar
import ZMachine.Toml.Text

/-!
# Reading TOML

The grammar of documents: names, values, entries, headers.  Brackets nest up
to a limit, which is what the recursion in `value` runs on; the loops over
items and lines use up characters.
-/

namespace ZMachine.Toml

/-- A reader takes an item off the text. -/
abbrev Reader (α : Type) := List Char → Except String (α × List Char)

def isBare (c : Char) : Bool := c.isAlphanum ∨ c = '_' ∨ c = '-'

/-- One part of a name. -/
def keyPart : Reader String
  | '"' :: rest => shortString '"' rest
  | '\'' :: rest => shortString '\'' rest
  | cs =>
    let (part, rest) := cs.span isBare
    if part.isEmpty then throw "missing key" else return (String.ofList part, rest)

/-- The number of brackets in each other, and of parts of a name, that is not
reached. -/
def nestingLimit : Nat := 80

/-- The parts of a dotted name, with blanks around them. -/
def keyParts : (fuel : Nat) → Reader (List String)
  | 0, _ => throw "key nested too deeply"
  | fuel + 1, cs => do
    let (part, rest) ← keyPart (skipBlanks cs)
    match skipBlanks rest with
    | '.' :: rest =>
      let (parts, rest) ← keyParts fuel rest
      return (part :: parts, rest)
    | rest => return ([part], rest)

def key : Reader (List String) := keyParts (nestingLimit - 1)

/-- The path and the last part of a name. -/
def splitLast (parts : List String) : List String × String :=
  (parts.dropLast, parts.getLastD "")

/-- An entry inside the table `entries`: name, equals sign, value. -/
def entry (value : Reader Item) (entries : Entries) : Reader Entries := fun cs => do
  let (parts, rest) ← key cs
  match rest with
  | '=' :: rest =>
    let (item, rest) ← value (skipBlanks rest)
    let (path, name) := splitLast parts
    return (← entries.setDotted name item path, rest)
  | _ => throw "missing equals sign"

/-- The items of an array after its opening bracket, onto those found. -/
def arrayItems (value : Reader Item) : (fuel : Nat) → List Item → Reader Item
  | 0, _, _ => throw "unfinished array"
  | fuel + 1, found, cs => do
    match ← skipLines false cs with
    | ']' :: rest => return (.array found.reverse, rest)
    | cs =>
      let (item, rest) ← value cs
      match ← skipLines false rest with
      | ',' :: rest => arrayItems value fuel (item :: found) rest
      | ']' :: rest => return (.array (item :: found).reverse, rest)
      | _ => throw "missing comma in an array"

/-- The entries of an inline table, of which there is at least one more. -/
def inlineEntries (value : Reader Item) : (fuel : Nat) → Entries → Reader Item
  | 0, _, _ => throw "unfinished inline table"
  | fuel + 1, found, cs => do
    let (entries, rest) ← entry value found cs
    match skipBlanks rest with
    | ',' :: rest => inlineEntries value fuel entries rest
    | '}' :: rest => return (.table .inline entries, rest)
    | _ => throw "missing comma in an inline table"

/-- A value; `depth` is how many brackets deeper it may go, less one. -/
def value : (depth : Nat) → Reader Item
  | 0, _ => throw "brackets nested too deeply"
  | depth + 1, cs => do
    match cs with
    | '"' :: rest =>
      let (s, rest) ← quoted '"' rest
      return (.string s, rest)
    | '\'' :: rest =>
      let (s, rest) ← quoted '\'' rest
      return (.string s, rest)
    | '[' :: rest =>
      if depth = 0 then throw "brackets nested too deeply"
      arrayItems (value depth) (rest.length + 1) [] rest
    | '{' :: rest =>
      if depth = 0 then throw "brackets nested too deeply"
      match skipBlanks rest with
      | '}' :: rest => return (.table .inline [], rest)
      | _ => inlineEntries (value depth) (rest.length + 1) [] rest
    | _ =>
      let (token, rest) := cutScalar cs
      match scalar? token with
      | some item => return (item, rest)
      | none => throw s!"invalid value {String.ofList token}"

/-- Document so far, and the path of the table whose entries follow. -/
structure Progress where
  root : Entries := []
  current : List String := []

/-- One line: nothing, a comment, a header or an entry. -/
def line (p : Progress) (cs : List Char) : Except String (Progress × List Char) := do
  match cs with
  | '\n' :: rest => return (p, rest)
  | '#' :: _ => return (p, ← finishLine cs)
  | '[' :: '[' :: rest =>
    let (parts, rest) ← key rest
    match rest with
    | ']' :: ']' :: rest =>
      let (path, name) := splitLast parts
      return ({ root := ← p.root.openElement path name, current := parts }, ← finishLine rest)
    | _ => throw "unfinished header"
  | '[' :: rest =>
    let (parts, rest) ← key rest
    match rest with
    | ']' :: rest =>
      let (path, name) := splitLast parts
      return ({ root := ← p.root.openTable path name, current := parts }, ← finishLine rest)
    | _ => throw "unfinished header"
  | _ =>
    let (parts, rest) ← key cs
    match rest with
    | '=' :: rest =>
      let (item, rest) ← value nestingLimit (skipBlanks rest)
      let (path, name) := splitLast parts
      let root ← p.root.modifyAt (Entries.setDotted name item path) p.current
      return ({ p with root }, ← finishLine rest)
    | _ => throw "missing equals sign"

/-- The lines of a document.  Each uses up a character at least. -/
def lines : (fuel : Nat) → Progress → List Char → Except String Entries
  | 0, p, _ => return p.root
  | fuel + 1, p, cs => do
    match skipBlanks cs with
    | [] => return p.root
    | cs =>
      let (p, rest) ← line p cs
      lines fuel p rest

/-- A mark for the order of bytes at the start of a text means nothing. -/
def dropByteOrderMark : List Char → List Char
  | c :: rest => if c = Char.ofNat 0xFEFF then rest else c :: rest
  | [] => []

/-- Read a document. -/
def parse (text : String) : Except String Entries :=
  let cs := unifyLines (dropByteOrderMark text.toList)
  lines (cs.length + 1) {} cs

end ZMachine.Toml
