import ZMachine.Memory.Cache

/-!
# Settings

What a player can choose about the interpreter.  The defaults are those of an
interpreter for the IBM PC with a screen of 24 lines of 80 characters.
-/

namespace ZMachine

structure Settings where
  /-- Number of blocks in the cache; `0` holds the story whole in memory. -/
  cacheSlots : Nat := 0
  eviction : Eviction := .random
  screenRows : UInt8 := 24
  screenColumns : UInt8 := 80
  interpreterNumber : UInt8 := 6
  /-- The letter that tells versions of the interpreter apart. -/
  interpreterVersion : Char := 'B'
  /-- Seed for the story's dice and for evictions; by chance if missing. -/
  randomSeed : Option UInt64 := none
  /-- The display may show a status line in versions 1 to 3. -/
  statusLine : Bool := true
  /-- The story versions that are accepted. -/
  leastVersion : UInt8 := 1
  greatestVersion : UInt8 := 8
  deriving DecidableEq, Repr, Inhabited

end ZMachine
