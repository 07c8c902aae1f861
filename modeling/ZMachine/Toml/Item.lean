/-!
# TOML documents

A document is a table: names with items.  Items are values, tables and lists
of tables.  How a table came about decides what may be added to it later, so
each table remembers it.
-/

namespace ZMachine.Toml

/-- How a table came about. -/
inductive Origin where
  /-- A value in braces, which is complete. -/
  | inline
  /-- A header of its own. -/
  | header
  /-- The header of a table inside it. -/
  | implied
  /-- A dotted name. -/
  | dotted
  deriving DecidableEq, Repr

/-- An item.  Numbers with a fraction and points in time are kept as they are
written. -/
inductive Item where
  | string (value : String)
  | integer (value : Int)
  | float (literal : String)
  | boolean (value : Bool)
  | time (literal : String)
  | array (items : List Item)
  | table (origin : Origin) (entries : List (String × Item))
  | tables (elements : List (List (String × Item)))
  deriving Repr, Inhabited

abbrev Entries := List (String × Item)

namespace Entries

def find? (name : String) (entries : Entries) : Option Item :=
  entries.lookup name

/-- Give a name another item, or add it at the end. -/
def put (name : String) (item : Item) : Entries → Entries
  | [] => [(name, item)]
  | (key, old) :: rest =>
    if key = name then (key, item) :: rest else (key, old) :: put name item rest

/-- Set the item of a name inside the tables that `path` names, which are
made if they are missing.  Every one of them must come from a dotted name; on
the way to a deeper one, a table implied by a header will do, and so will the
last table of a list. -/
def setDotted (name : String) (item : Item) :
    (path : List String) → Entries → Except String Entries
  | [], entries =>
    match entries.find? name with
    | none => return entries.put name item
    | some _ => throw s!"duplicate key {name}"
  | key :: path, entries => do
    match entries.find? key with
    | none => return entries.put key (.table .dotted (← setDotted name item path []))
    | some (.table .dotted inner) =>
      return entries.put key (.table .dotted (← setDotted name item path inner))
    | some (.table .implied inner) =>
      if path.isEmpty then throw s!"duplicate key {key}"
      return entries.put key (.table .implied (← setDotted name item path inner))
    | some (.tables (last :: earlier)) =>
      if path.isEmpty then throw s!"duplicate key {key}"
      return entries.put key (.tables ((← setDotted name item path last) :: earlier))
    | some _ => throw s!"duplicate key {key}"

/-- Change the item of a name inside the tables that `path` names, for a
header.  Tables that are missing are implied; of a list of tables, which keeps
its latest table first, it is the latest one that counts. -/
def changeAt (change : Option Item → Option Item) (name : String) :
    (path : List String) → Entries → Except String Entries
  | [], entries =>
    match change (entries.find? name) with
    | some item => return entries.put name item
    | none => throw s!"duplicate key {name}"
  | key :: path, entries => do
    match entries.find? key with
    | none => return entries.put key (.table .implied (← changeAt change name path []))
    | some (.table .inline _) => throw s!"duplicate key {key}"
    | some (.table origin inner) =>
      return entries.put key (.table origin (← changeAt change name path inner))
    | some (.tables (last :: earlier)) =>
      return entries.put key (.tables ((← changeAt change name path last) :: earlier))
    | some _ => throw s!"duplicate key {key}"

/-- Open the table of a header, which must be new or implied. -/
def openTable (path : List String) (name : String) : Entries → Except String Entries :=
  changeAt
    (fun
      | none => some (.table .header [])
      | some (.table .implied inner) => some (.table .header inner)
      | some _ => none)
    name path

/-- Open one more table of a list of tables. -/
def openElement (path : List String) (name : String) : Entries → Except String Entries :=
  changeAt
    (fun
      | none => some (.tables [[]])
      | some (.tables elements) => some (.tables ([] :: elements))
      | some _ => none)
    name path

/-- Change the entries of the table that a header has opened. -/
def modifyAt (f : Entries → Except String Entries) :
    (path : List String) → Entries → Except String Entries
  | [], entries => f entries
  | key :: path, entries => do
    match entries.find? key with
    | some (.table origin inner) =>
      return entries.put key (.table origin (← modifyAt f path inner))
    | some (.tables (last :: earlier)) =>
      return entries.put key (.tables ((← modifyAt f path last) :: earlier))
    | _ => throw s!"no table {key}"

end Entries
end ZMachine.Toml
