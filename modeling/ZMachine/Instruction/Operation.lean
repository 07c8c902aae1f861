import ZMachine.Instruction.Form

/-!
# Operations

The operations of the machine and the tables in which forms and opcode
numbers name them.  Operations with two operands can be written in the long
and in the variable form, so these two forms share a table.
-/

namespace ZMachine

inductive Operation where
  | returnTrue
  | returnFalse
  | print
  | printReturn
  | noOperation
  | save
  | restore
  | restart
  | returnPopped
  /-- Drops the top of the stack before version 5. -/
  | catchFrame
  | quit
  | newLine
  /-- Does nothing from version 4 on. -/
  | showStatus
  | verify
  | piracy
  | jumpZero
  | getSibling
  | getChild
  | getParent
  | getPropertyLength
  | increment
  | decrement
  | printAddress
  | callFunction
  | callProcedure
  | removeObject
  | printObject
  | returnValue
  | jump
  | printPacked
  | load
  /-- Complement before version 5, a call without result afterwards. -/
  | complementOrCall
  | jumpEqual
  | jumpLess
  | jumpGreater
  | decrementCheck
  | incrementCheck
  | jumpInside
  | testBits
  | or
  | and
  | testAttribute
  | setAttribute
  | clearAttribute
  | store
  | insertObject
  | loadWord
  | loadByte
  | getProperty
  | getPropertyAddress
  | getNextProperty
  | add
  | subtract
  | multiply
  | divide
  | remainder
  | throwValue
  | storeWord
  | storeByte
  | putProperty
  | read
  | printCharacter
  | printNumber
  | random
  | push
  | pull
  | splitWindow
  | setWindow
  | eraseWindow
  | eraseLine
  | setCursor
  | getCursor
  | setTextStyle
  | bufferMode
  | outputStream
  | readKey
  | scanTable
  | complement
  | tokenise
  | encodeText
  | copyTable
  | printTable
  | checkArgumentCount
  | saveExtended
  | restoreExtended
  | logicalShift
  | arithmeticShift
  | setFont
  | saveUndo
  | restoreUndo
  deriving DecidableEq, Repr, Inhabited

namespace Operation

def zeroOp? : Nat → Option Operation
  | 0x00 => some returnTrue
  | 0x01 => some returnFalse
  | 0x02 => some print
  | 0x03 => some printReturn
  | 0x04 => some noOperation
  | 0x05 => some save
  | 0x06 => some restore
  | 0x07 => some restart
  | 0x08 => some returnPopped
  | 0x09 => some catchFrame
  | 0x0A => some quit
  | 0x0B => some newLine
  | 0x0C => some showStatus
  | 0x0D => some verify
  | 0x0F => some piracy
  | _ => none

def oneOp? : Nat → Option Operation
  | 0x00 => some jumpZero
  | 0x01 => some getSibling
  | 0x02 => some getChild
  | 0x03 => some getParent
  | 0x04 => some getPropertyLength
  | 0x05 => some increment
  | 0x06 => some decrement
  | 0x07 => some printAddress
  | 0x08 => some callFunction
  | 0x09 => some removeObject
  | 0x0A => some printObject
  | 0x0B => some returnValue
  | 0x0C => some jump
  | 0x0D => some printPacked
  | 0x0E => some load
  | 0x0F => some complementOrCall
  | _ => none

def manyOp? : Nat → Option Operation
  | 0x01 => some jumpEqual
  | 0x02 => some jumpLess
  | 0x03 => some jumpGreater
  | 0x04 => some decrementCheck
  | 0x05 => some incrementCheck
  | 0x06 => some jumpInside
  | 0x07 => some testBits
  | 0x08 => some or
  | 0x09 => some and
  | 0x0A => some testAttribute
  | 0x0B => some setAttribute
  | 0x0C => some clearAttribute
  | 0x0D => some store
  | 0x0E => some insertObject
  | 0x0F => some loadWord
  | 0x10 => some loadByte
  | 0x11 => some getProperty
  | 0x12 => some getPropertyAddress
  | 0x13 => some getNextProperty
  | 0x14 => some add
  | 0x15 => some subtract
  | 0x16 => some multiply
  | 0x17 => some divide
  | 0x18 => some remainder
  | 0x19 => some callFunction
  | 0x1A => some callProcedure
  | 0x1B => some noOperation
  | 0x1C => some throwValue
  | 0x20 => some callFunction
  | 0x21 => some storeWord
  | 0x22 => some storeByte
  | 0x23 => some putProperty
  | 0x24 => some read
  | 0x25 => some printCharacter
  | 0x26 => some printNumber
  | 0x27 => some random
  | 0x28 => some push
  | 0x29 => some pull
  | 0x2A => some splitWindow
  | 0x2B => some setWindow
  | 0x2C => some callFunction
  | 0x2D => some eraseWindow
  | 0x2E => some eraseLine
  | 0x2F => some setCursor
  | 0x30 => some getCursor
  | 0x31 => some setTextStyle
  | 0x32 => some bufferMode
  | 0x33 => some outputStream
  | 0x34 => some noOperation
  | 0x35 => some noOperation
  | 0x36 => some readKey
  | 0x37 => some scanTable
  | 0x38 => some complement
  | 0x39 => some callProcedure
  | 0x3A => some callProcedure
  | 0x3B => some tokenise
  | 0x3C => some encodeText
  | 0x3D => some copyTable
  | 0x3E => some printTable
  | 0x3F => some checkArgumentCount
  | _ => none

def extended? : Nat → Option Operation
  | 0x00 => some saveExtended
  | 0x01 => some restoreExtended
  | 0x02 => some logicalShift
  | 0x03 => some arithmeticShift
  | 0x04 => some setFont
  | 0x09 => some saveUndo
  | 0x0A => some restoreUndo
  | _ => none

/-- The operation that an opcode of a form names. -/
def ofOpcode? (form : Form) (opcode : UInt8) : Option Operation :=
  match form with
  | .zeroOp => zeroOp? opcode.toNat
  | .oneOp => oneOp? opcode.toNat
  | .twoOp => manyOp? opcode.toNat
  | .variable => manyOp? opcode.toNat
  | .extended => extended? opcode.toNat

end Operation
end ZMachine
