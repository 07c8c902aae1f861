import ZMachine.Machine.Restart

/-!
# Arithmetic

Operations on signed words that need more than an expression: division,
comparison with several values, stepping a variable, random numbers.
-/

namespace ZMachine.Machine

open MachineM

variable {M H : Type} [AddressSpace M] [Host H]

/-- Branch if the first value equals one of the others. -/
def branchEqual : List UInt16 → MachineM M H Unit
  | [] => branch false
  | a :: rest => branch (rest.contains a)

/-- Add an amount to a variable in place; the result is its new value. -/
def addToVariable (n : UInt8) (amount : UInt16) : MachineM M H UInt16 := do
  let value := (← loadVariable n) + amount
  storeVariable n value
  return value

def increment (n : UInt8) : MachineM M H UInt16 := addToVariable n 1

def decrement (n : UInt8) : MachineM M H UInt16 := addToVariable n 0xFFFF

/-- Store the value of a variable, which stays as it is. -/
def loadInto (n : UInt8) : MachineM M H Unit := do
  storeResult (← loadVariable n)

/-- Store a quotient, rounded towards zero; `pc` is where a division by zero
is reported. -/
def divide (a b : UInt16) (pc : UInt32) : MachineM M H Unit :=
  if b = 0 then throw (.divisionByZero pc)
  else storeResult (ofSigned ((signed a).tdiv (signed b)))

/-- Store a remainder, which has the sign of the dividend. -/
def remainder (a b : UInt16) (pc : UInt32) : MachineM M H Unit :=
  if b = 0 then throw (.divisionByZero pc)
  else storeResult (ofSigned ((signed a).tmod (signed b)))

/-- Store a throw of the dice for a positive range.  Zero makes the dice
unpredictable, a negative range seeds them; both store 0. -/
def random (range : UInt16) : MachineM M H Unit := do
  let n := signed range
  if 0 < n then
    let (value, dice) := (← getCore).dice.roll range
    modifyCore fun c => { c with dice }
    storeResult value
  else
    if n = 0 then rollFromClock
    else modifyCore fun c => { c with dice := .ofSeed (UInt64.ofNat n.natAbs) }
    storeResult 0

end ZMachine.Machine
