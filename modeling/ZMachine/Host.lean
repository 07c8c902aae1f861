import ZMachine.Fault

/-!
# Hosts

A host is what the machine talks to: a screen with two windows, a keyboard
and a clock.  It is a value of some type with an instance of `Host`, and each
call is a function on that value which may fail with a reason.  A host has to
write characters and to answer reads; the rest has a default that suits a
screen without windows.
-/

namespace ZMachine

inductive Window where
  /-- The scrolling window for the story's text. -/
  | lower
  /-- The window above it, which holds a status line or a picture. -/
  | upper
  deriving DecidableEq, Repr, Inhabited

def Window.ofNumber (n : UInt16) : Window :=
  if n = 1 then .upper else .lower

/-- Answer to a read. -/
inductive Reply (α : Type) where
  | given (a : α)
  | timedOut
  /-- There is no more input. -/
  | closed
  deriving DecidableEq, Repr

/-- Calls on a host; a failed one gives the reason. -/
abbrev HostM (H : Type) := EStateM String H

class Host (H : Type) where
  writeByte : Window → UInt8 → HostM H Unit
  /-- Wait for a key, as many tenths of a second as given, or for ever if that
  is `0`. -/
  readKey : (timeout : UInt16) → HostM H (Reply UInt8)
  /-- Wait for a line without its end, which should have at most `limit`
  bytes. -/
  readLine : (limit : Nat) → (timeout : UInt16) → HostM H (Reply (List UInt8))
  /-- Milliseconds since some moment. -/
  clock : H → UInt64
  /-- A read of a line that timed out is given up: what was typed is lost. -/
  cancelLine : H → H := id
  /-- Give the upper window a number of lines. -/
  splitWindow : (lines : UInt16) → HostM H Unit := fun _ => return
  setWindow : Window → HostM H Unit := fun _ => return
  /-- Erase the lower window (`0`), the upper one (`1`) or the screen. -/
  eraseWindow : Int → HostM H Unit := fun _ => return
  /-- Erase from the cursor to the end of the line. -/
  eraseLine : HostM H Unit := return
  setCursor : (line column : UInt16) → HostM H Unit := fun _ _ => return
  /-- Line and column of the cursor, counted from 1. -/
  getCursor : HostM H (UInt16 × UInt16) := return (1, 1)
  setTextStyle : UInt16 → HostM H Unit := fun _ => return
  setBufferMode : Bool → HostM H Unit := fun _ => return
  /-- Show a status line that fills the width of the screen. -/
  showStatus : List UInt8 → HostM H Unit := fun line => line.forM (writeByte .upper)
  hasStatusLine : H → Bool := fun _ => true
  flush : HostM H Unit := return

end ZMachine
