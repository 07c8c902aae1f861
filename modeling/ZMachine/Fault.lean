import ZMachine.Instruction.Form
import ZMachine.Numeral

/-!
# Faults

A fault ends the session: the story asked for something that has no meaning,
or the storage or the display below it failed.  Conditions that a story can
handle (a save that is not available, a missing word) are values of the
operations and never faults.
-/

namespace ZMachine

inductive Fault where
  | unsupportedVersion (version least greatest : UInt8)
  | byteSwapped
  | storyOpen (path reason : String)
  | storage (reason : String)
  | addressOutOfRange (address size : Nat)
  | illegalThrow (target current : Nat)
  | unknownOpcode (form : Form) (opcode : UInt8) (pc : UInt32)
  | missingProperty (object property : UInt16)
  | stackOverflow
  | stackUnderflow
  | divisionByZero (pc : UInt32)
  | nestedAbbreviation (address : Nat)
  | display (reason : String)
  | settingsUnreadable (path reason : String)
  | settingsInvalid (reason : String)
  /-- A register was to go below zero.  The program stops on the spot, with
  nothing closed. -/
  | registerUnderflow
  /-- The step budget given to a run is spent; the story itself did not fail. -/
  | outOfFuel
  deriving DecidableEq, Repr, Inhabited

namespace Fault

open Numeral (markedHex)

def message : Fault → String
  | unsupportedVersion version least greatest =>
    s!"Unsupported zcode version {version} (interpreter handles {least}-{greatest})"
  | byteSwapped => "Story file is byte swapped"
  | storyOpen path reason => s!"Cannot open story file '{path}': {reason}"
  | storage reason => s!"Storage error: {reason}"
  | addressOutOfRange address size =>
    s!"Address {markedHex 4 address} out of range (story size {markedHex 4 size})"
  | illegalThrow target current =>
    s!"Illegal throw to frame {target} from frame {current}"
  | unknownOpcode form opcode pc =>
    s!"Unknown {form.name} opcode {markedHex 2 opcode.toNat} at PC {markedHex 4 pc.toNat}"
  | missingProperty object property => s!"Object {object} has no property {property}"
  | stackOverflow => "Stack overflow"
  | stackUnderflow => "Stack underflow"
  | divisionByZero pc => s!"Division by zero at PC {markedHex 4 pc.toNat}"
  | nestedAbbreviation address =>
    s!"Abbreviations nested too deeply at {markedHex 4 address}"
  | display reason => s!"Display error: {reason}"
  | settingsUnreadable path reason => s!"Configuration error: cannot read {path}: {reason}"
  | settingsInvalid reason => s!"Configuration error: {reason}"
  | registerUnderflow => "attempt to subtract with overflow"
  | outOfFuel => "Step budget spent"

end Fault
end ZMachine
