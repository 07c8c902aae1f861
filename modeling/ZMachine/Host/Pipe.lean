import ZMachine.Host
import ZMachine.Utf8

/-!
# Pipes

A host between two pipes.  Text of the lower window is wrapped at a fixed
width and the upper window is dropped.  Keys are single bytes of the input,
lines end with a line feed, and nothing is echoed.
-/

namespace ZMachine

structure Pipe where
  width : Nat
  /-- Characters on the current line of the output. -/
  column : Nat := 0
  output : Array Char := #[]
  /-- What is left of the input. -/
  input : List UInt8 := []
  /-- Cursor of the upper window, counted from 0. -/
  cursor : UInt16 × UInt16 := (0, 0)
  clock : UInt64 := 0

namespace Pipe

def ofColumns (columns : UInt8) (input : List UInt8) : Pipe where
  width := max columns.toNat 1
  input := input

/-- Write a character of the lower window, on a new line if the current one
is full. -/
def writeLower (b : UInt8) (p : Pipe) : Pipe :=
  if b = 13 ∨ b = 10 then { p with output := p.output.push '\n', column := 0 }
  else
    let c := Char.ofNat b.toNat
    if p.width ≤ p.column then { p with output := (p.output.push '\n').push c, column := 1 }
    else { p with output := p.output.push c, column := p.column + 1 }

def readKey : HostM Pipe (Reply UInt8) :=
  modifyGet fun p =>
    match p.input with
    | [] => (.closed, p)
    | b :: rest => (.given b, { p with input := rest })

/-- The bytes up to the first line feed and with it, and the bytes after
it. -/
def splitLine (bytes : List UInt8) : List UInt8 × List UInt8 :=
  let (line, rest) := bytes.span (· ≠ 10)
  (line ++ rest.take 1, rest.drop 1)

/-- A line without the line feeds and carriage returns at its end. -/
def trimEnd (line : List UInt8) : List UInt8 :=
  (line.reverse.dropWhile fun b => b = 10 ∨ b = 13).reverse

def readLine (limit : Nat) : HostM Pipe (Reply (List UInt8)) := do
  let (line, rest) := splitLine (← get).input
  if line.isEmpty then return .closed
  modify fun p => { p with input := rest }
  if ¬ Utf8.isValid line then
    throw "I/O error: stream did not contain valid UTF-8"
  modify fun p => { p with column := 0 }
  return .given ((trimEnd line).take limit)

instance : Host Pipe where
  writeByte
    | .lower, b => modify (writeLower b)
    | .upper, _ => return
  readKey _ := readKey
  readLine limit _ := readLine limit
  clock p := p.clock
  setWindow
    | .lower => return
    | .upper => modify fun p => { p with cursor := (0, 0) }
  setCursor line column :=
    modify fun p =>
      { p with cursor := (UInt16.ofNat (line.toNat - 1), UInt16.ofNat (column.toNat - 1)) }
  getCursor := return ((← get).cursor.1 + 1, (← get).cursor.2 + 1)
  showStatus _ := return
  hasStatusLine _ := false

end Pipe
end ZMachine
