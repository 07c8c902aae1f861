import ZMachine.FileSystem
import ZMachine.Settings
import ZMachine.Toml.Document
import ZMachine.Utf8

/-!
# Settings files

Settings are written as a TOML document.  A name that is missing keeps its
default, and names that mean nothing are ignored.
-/

namespace ZMachine
namespace Settings

open Toml (Item Entries)

/-- A number below a bound. -/
def natural (bound : Nat) (name : String) : Item → Except String Nat
  | .integer n =>
    if 0 ≤ n ∧ n < bound then return n.toNat else throw s!"{name}: {n} is out of range"
  | _ => throw s!"{name}: expected an integer"

def truth (name : String) : Item → Except String Bool
  | .boolean b => return b
  | _ => throw s!"{name}: expected true or false"

def letter (name : String) : Item → Except String Char
  | .string s =>
    match s.toList with
    | [c] => return c
    | _ => throw s!"{name}: expected one character"
  | _ => throw s!"{name}: expected one character"

def policy (name text : String) : Except String Eviction :=
  if text = "random" then return .random
  else if text = "lru" then return .leastRecent
  else throw s!"{name}: expected random or lru"

def holdsNothing : Item → Bool
  | .array [] => true
  | .table _ [] => true
  | _ => false

/-- A policy is named by a string, or by the one name in a table that holds
nothing. -/
def eviction? (name : String) : Item → Except String Eviction
  | .string s => policy name s
  | .table _ [(key, item)] =>
    if holdsNothing item then policy name key else throw s!"{name}: expected random or lru"
  | _ => throw s!"{name}: expected random or lru"

/-- The value of a name, or a default if it is missing. -/
def valueD {α : Type} (entries : Entries) (name : String) (read : String → Item → Except String α)
    (default : α) : Except String α :=
  match entries.find? name with
  | some item => read name item
  | none => return default

def byteD (entries : Entries) (name : String) (default : UInt8) : Except String UInt8 :=
  valueD entries name (fun name item => UInt8.ofNat <$> natural 0x100 name item) default

/-- The settings that the entries of a document make. -/
def ofEntries (e : Entries) : Except String Settings := do
  let std : Settings := {}
  return {
    cacheSlots := ← valueD e "cache_slots" (natural 0x10000000000000000) std.cacheSlots
    eviction := ← valueD e "eviction" eviction? std.eviction
    screenRows := ← byteD e "screen_rows" std.screenRows
    screenColumns := ← byteD e "screen_cols" std.screenColumns
    interpreterNumber := ← byteD e "interpreter_number" std.interpreterNumber
    interpreterVersion := ← valueD e "interpreter_version" letter std.interpreterVersion
    randomSeed := ← valueD e "random_seed"
      (fun name item => (some <| UInt64.ofNat ·) <$> natural 0x10000000000000000 name item)
      std.randomSeed
    statusLine := ← valueD e "status_line" truth std.statusLine
    leastVersion := ← byteD e "min_version" std.leastVersion
    greatestVersion := ← byteD e "max_version" std.greatestVersion }

/-- Read settings from the text of a document. -/
def ofToml (text : String) : Except Fault Settings :=
  (Toml.parse text >>= ofEntries).mapError Fault.settingsInvalid

/-- Read settings from a file, given what reading the file gave. -/
def ofFile (path : String) (bytes : Except Refusal (Array UInt8)) : Except Fault Settings :=
  match bytes with
  | .error r => throw (.settingsUnreadable path r.text)
  | .ok bytes =>
    if Utf8.isValid bytes.toList then ofToml (Utf8.lossy bytes.toList)
    else throw (.settingsUnreadable path "stream did not contain valid UTF-8")

end Settings
end ZMachine
