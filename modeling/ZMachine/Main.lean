import ZMachine.CommandLine

/-!
# The program

Reads the files and the input that the command line asks for, and prints what
comes of it.
-/

namespace ZMachine.Program

/-- More steps than a session lasts. -/
def stepBudget : Nat := 1 <<< 62

def refusalOf : IO.Error → Refusal
  | .noFileOrDirectory .. => .notFound
  | .permissionDenied .. => .permissionDenied
  | .inappropriateType _ code details =>
    if code = 20 then .notDirectory
    else if code = 21 then .isDirectory
    else .other s!"{details} (os error {code})"
  | e => .other (toString e)

def readFile (path : String) : IO (Except Refusal (Array UInt8)) := do
  try
    return .ok (← IO.FS.readBinFile path).data
  catch e =>
    return .error (refusalOf e)

partial def readAll (stream : IO.FS.Stream) (sofar : ByteArray) : IO ByteArray := do
  let piece ← stream.read 65536
  if piece.isEmpty then return sofar
  readAll stream (sofar ++ piece)

def finish (o : CommandLine.Outcome) : IO UInt32 := do
  IO.print o.out
  (← IO.getStdout).flush
  IO.eprint o.err
  return o.code

/-- Carry out a command line; the result is the exit code. -/
def perform (args : List String) : IO UInt32 := do
  let program := "azip"
  let seed := UInt64.ofNat (← IO.rand 0 0xFFFFFFFFFFFFFFFF)
  let entropy : Entropy := { word := fun i => seed + UInt64.ofNat i * 0x9E3779B97F4A7C15 }
  let clock := UInt64.ofNat (← IO.monoMsNow)
  match CommandLine.parse args with
  | .play options =>
    let story ← readFile options.story
    let settings ← match options.settings with
      | some path => readFile path
      | none => pure (.ok #[])
    let read (path : String) := if options.settings = some path then settings else story
    match CommandLine.prepare read options with
    | .error outcome => finish outcome
    | .ok ready =>
      let input ← readAll (← IO.getStdin) .empty
      finish (CommandLine.play stepBudget entropy clock ready input.toList)
  | _ =>
    finish (CommandLine.run stepBudget entropy clock program (fun _ => .error .notFound) args [])

end ZMachine.Program

def main (args : List String) : IO UInt32 :=
  ZMachine.Program.perform args
