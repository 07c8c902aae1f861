import ZMachine.Host.Pipe
import ZMachine.Host.Transcript
import ZMachine.Quoted
import ZMachine.Session
import ZMachine.Settings.File

/-!
# The command line

What a command line asks for, and what comes of it: the text on the two
output streams and the exit code.  Files are given as a function from their
names to their contents, and the input as a list of bytes.
-/

namespace ZMachine.CommandLine

structure Options where
  story : String
  /-- Name of a settings file. -/
  settings : Option String := none
  /-- See the story through a block cache. -/
  cache : Bool := false
  /-- Take all input beforehand and show the transcript at the end. -/
  headless : Bool := false
  deriving DecidableEq, Repr

inductive Request where
  | help
  | refuse (reason : String)
  | play (options : Options)
  deriving DecidableEq, Repr

/-- Options so far; the story may come later. -/
structure Draft where
  story : Option String := none
  settings : Option String := none
  cache : Bool := false
  headless : Bool := false

def parseFrom (d : Draft) : List String → Request
  | [] =>
    match d.story with
    | none => .help
    | some story =>
      .play { story, settings := d.settings, cache := d.cache, headless := d.headless }
  | arg :: rest =>
    if arg = "--config" then
      match rest with
      | path :: rest => parseFrom { d with settings := some path } rest
      | [] => .refuse "--config needs a file name"
    else if arg = "--cache" then parseFrom { d with cache := true } rest
    else if arg = "--headless" then parseFrom { d with headless := true } rest
    else if arg = "-h" ∨ arg = "--help" then .help
    else if arg.startsWith "--" then .refuse s!"Unknown option {arg}"
    else parseFrom { d with story := some arg } rest

/-- The last argument that is no option names the story.  Without one, the
request is for help. -/
def parse (args : List String) : Request := parseFrom {} args

def usage (program : String) : String :=
  String.intercalate "\n" [
    "azip - Z-machine interpreter for Infocom and Inform stories",
    "",
    s!"Usage: {program} <story_file> [--config azip.toml] [--cache] [--headless]",
    "",
    "  --config <file>  read interpreter settings from a TOML file",
    "  --cache          page the story through a block cache instead of",
    "                   loading it whole (uses a scratch copy of the story)",
    "  --headless       read commands from stdin up front and print the",
    "                   transcript at exit",
    ""]

structure Outcome where
  code : UInt32 := 0
  out : String := ""
  err : String := ""
  deriving DecidableEq, Repr, Inhabited

/-- A fault as the value it is, for faults before the story begins. -/
def report : Fault → String
  | .storyOpen path reason =>
    s!"StoryOpen \x7b path: {Quoted.quote path}, reason: {Quoted.quote reason} \x7d"
  | .settingsUnreadable path reason =>
    let text := s!"cannot read {path}: {reason}"
    s!"Config({Quoted.quote text})"
  | .settingsInvalid reason => s!"Config({Quoted.quote reason})"
  | .storage reason => s!"Storage({Quoted.quote reason})"
  | e => e.message

def early (reason : String) : Outcome where
  code := 1
  err := s!"Error: {reason}\n"

/-- The number of blocks in a cache that nobody gave a size. -/
def usualSlots : Nat := 32

/-- A story that is ready to be played. -/
structure Ready where
  settings : Settings
  bytes : Array UInt8
  /-- Number of slots of the cache, if there is one. -/
  slots : Option Nat
  headless : Bool

def unreadable (story : String) : Refusal → String
  | .notFound =>
    s!"Story file not found: {story}\n\nPlease check the file path and that the file is readable."
  | .permissionDenied => s!"Permission denied reading story file: {story}"
  | r => s!"Cannot read story file '{story}': {r.text}"

/-- Read the settings and then the story. -/
def prepare (read : String → Except Refusal (Array UInt8)) (o : Options) :
    Except Outcome Ready := do
  let settings ←
    match o.settings with
    | none => pure {}
    | some path => (Settings.ofFile path (read path)).mapError fun e => early (report e)
  let slots :=
    if 0 < settings.cacheSlots then some settings.cacheSlots
    else if o.cache then some usualSlots
    else none
  match read o.story with
  | .ok bytes => return { settings, bytes, slots, headless := o.headless }
  | .error r =>
    if slots.isSome then throw (early (report (.storyOpen o.story r.ofCopy.plain)))
    else throw (early (unreadable o.story r))

/-- The lines of an input.  A carriage return belongs to the line end behind
it, and the last line may lack its end; `line` is the current line so far,
backwards. -/
def linesFrom (line : List UInt8) : List UInt8 → List (List UInt8)
  | [] => if line.isEmpty then [] else [line.reverse]
  | b :: rest =>
    if b = 10 then
      let line := if line.head? = some 13 then line.tail else line
      line.reverse :: linesFrom [] rest
    else linesFrom (b :: line) rest

def lines (input : List UInt8) : List (List UInt8) := linesFrom [] input

/-- Play a story on a host, seen through a cache if it has slots. -/
def playOn {H : Type} [Host H] (fuel : Nat) (entropy : Entropy) (r : Ready) (host : H) :
    Except Fault Unit × H :=
  match r.slots with
  | none => Session.play fuel r.settings entropy (Image.mk r.bytes) host
  | some slots =>
    let (seed, entropy) :=
      match r.settings.randomSeed with
      | some seed => (seed, entropy)
      | none => entropy.next
    let disk := Image.mk r.bytes
    match BlockCache.ofStorage (slots - 1) r.settings.eviction (ChaCha.ofSeed seed) disk with
    | .error e => (.error e, host)
    | .ok cache => Session.play fuel r.settings entropy cache host

def conclude (result : Except Fault Unit) (out : String) : Outcome :=
  match result with
  | .ok _ => { out }
  | .error .registerUnderflow =>
    { code := 101, out, err := s!"{Fault.registerUnderflow.message}\n" }
  | .error e => { code := 1, out, err := s!"\nFatal error: {e.message}\n" }

/-- Play a story with an input.  Without a screen, the transcript is shown
only if the story ends well. -/
def play (fuel : Nat) (entropy : Entropy) (clock : UInt64) (r : Ready) (input : List UInt8) :
    Outcome :=
  if r.headless then
    if Utf8.isValid input then
      let host : Transcript := { lines := (lines input).map Reply.given, clock }
      let (result, host) := playOn fuel entropy r host
      conclude result (if result.isOk then Utf8.lossy host.lower.toList else "")
    else
      let text := Quoted.quote "stream did not contain valid UTF-8"
      early s!"Error \x7b kind: InvalidData, message: {text} \x7d"
  else
    let host : Pipe := { Pipe.ofColumns r.settings.screenColumns input with clock }
    let (result, host) := playOn fuel entropy r host
    conclude result (String.ofList host.output.toList)

/-- Everything a command line does. -/
def run (fuel : Nat) (entropy : Entropy) (clock : UInt64) (program : String)
    (read : String → Except Refusal (Array UInt8)) (args : List String) (input : List UInt8) :
    Outcome :=
  match parse args with
  | .help => { out := usage program }
  | .refuse reason => { code := 2, out := usage program, err := s!"Error: {reason}\n" }
  | .play options =>
    match prepare read options with
    | .error outcome => outcome
    | .ok ready => play fuel entropy clock ready input

end ZMachine.CommandLine
