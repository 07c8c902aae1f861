import ZMachine.Random.ChaCha

/-!
# Fair choices

A number below `n` is made from a word `v` of `b` random bits as the high
part of `v * n`.  It is fair once the low part stays inside a zone whose size
is a multiple of `n`; a word outside the zone is thrown away and the next one
is tried.  The number of tries is bounded by `tries`, after which the next
word counts whatever its low part: the chance of getting there is below
`2 ^ -128`.

`Dice` answers the story's requests for random numbers.  It is *predictable*
when its seed was fixed by the story or by the settings.
-/

namespace ZMachine

open ChaCha (Stream)

def tries : Nat := 128

/-- A number below `n` from words of `bits` bits that `next` takes off the
stream. -/
def pick (bits zone n : Nat) (next : Stream → Nat × Stream) :
    Nat → Stream → Nat × Stream
  | 0, s => let (v, s) := next s; ((v * n) >>> bits, s)
  | k + 1, s =>
    let (v, s) := next s
    if v * n % (1 <<< bits) ≤ zone then ((v * n) >>> bits, s)
    else pick bits zone n next k s

/-- A number below `n ≤ 2 ^ 32` from 32-bit words.  The zone is the largest
that a multiple of `n` allows. -/
def pickSmall (n : Nat) : Stream → Nat × Stream :=
  pick 32 (0xFFFFFFFF - (0x100000000 - n) % n) n
    (fun s => let (v, s) := s.next32; (v.toNat, s)) tries

/-- A number below `n ≤ 2 ^ 64` from 64-bit words.  The zone is `n` times the
largest power of two that fits. -/
def pickLarge (n : Nat) : Stream → Nat × Stream :=
  pick 64 (n <<< (63 - Nat.log2 n) - 1) n
    (fun s => let (v, s) := s.next64; (v.toNat, s)) tries

structure Dice where
  stream : Stream
  predictable : Bool
  deriving DecidableEq, Repr

namespace Dice

/-- Dice that repeat their throws for a repeated seed. -/
def ofSeed (seed : UInt64) : Dice where
  stream := ChaCha.ofSeed seed
  predictable := true

/-- Dice whose seed nobody chose. -/
def ofChance (seed : UInt64) : Dice where
  stream := ChaCha.ofSeed seed
  predictable := false

/-- A throw between `1` and `range`; an empty range gives `0` and takes no
random word. -/
def roll (dice : Dice) (range : UInt16) : UInt16 × Dice :=
  if range = 0 then (0, dice)
  else
    let (v, stream) := pickSmall range.toNat dice.stream
    (UInt16.ofNat (v + 1), { dice with stream })

end Dice

/-- Random words from outside the machine, one for each time that something
has to be seeded by chance. -/
structure Entropy where
  word : Nat → UInt64
  taken : Nat := 0

namespace Entropy

def next (e : Entropy) : UInt64 × Entropy :=
  (e.word e.taken, { e with taken := e.taken + 1 })

end Entropy
end ZMachine
