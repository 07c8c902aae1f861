/-!
# The ChaCha keystream

Pseudo-random words come from the ChaCha stream cipher with twelve rounds
under a key of eight words and a zero nonce.  Block `n` of the stream is a
function of the key and `n` alone, so the state of a generator is its key and
the number of words already taken.
-/

namespace ZMachine.ChaCha

abbrev Key := Vector UInt32 8
abbrev Block := Vector UInt32 16

def rotateLeft (x k : UInt32) : UInt32 :=
  x <<< k ||| x >>> (32 - k)

def rotateRight (x k : UInt32) : UInt32 :=
  x >>> k ||| x <<< (32 - k)

/-- One quarter round on the words at the four given places. -/
def quarterRound (s : Block) (a b c d : Fin 16) : Block :=
  let s := s.set a (s[a] + s[b])
  let s := s.set d (rotateLeft (s[d] ^^^ s[a]) 16)
  let s := s.set c (s[c] + s[d])
  let s := s.set b (rotateLeft (s[b] ^^^ s[c]) 12)
  let s := s.set a (s[a] + s[b])
  let s := s.set d (rotateLeft (s[d] ^^^ s[a]) 8)
  let s := s.set c (s[c] + s[d])
  s.set b (rotateLeft (s[b] ^^^ s[c]) 7)

/-- A round over the columns and a round over the diagonals. -/
def doubleRound (s : Block) : Block :=
  let s := quarterRound s 0 4 8 12
  let s := quarterRound s 1 5 9 13
  let s := quarterRound s 2 6 10 14
  let s := quarterRound s 3 7 11 15
  let s := quarterRound s 0 5 10 15
  let s := quarterRound s 1 6 11 12
  let s := quarterRound s 2 7 8 13
  quarterRound s 3 4 9 14

/-- The words that block `n` starts from. -/
def initial (key : Key) (n : UInt64) : Block :=
  #v[0x61707865, 0x3320646e, 0x79622d32, 0x6b206574,
    key[0], key[1], key[2], key[3], key[4], key[5], key[6], key[7],
    n.toUInt32, (n >>> 32).toUInt32, 0, 0]

def block (key : Key) (n : UInt64) : Block :=
  let start := initial key n
  Vector.zipWith (· + ·) (Nat.repeat doubleRound 6 start) start

/-- Word `i` of the keystream. -/
def word (key : Key) (i : Nat) : UInt32 :=
  (block key (UInt64.ofNat (i / 16)))[i % 16]

/-- A position in the keystream of a key. -/
structure Stream where
  key : Key
  taken : Nat
  deriving DecidableEq, Repr

namespace Stream

def next32 (s : Stream) : UInt32 × Stream :=
  (word s.key s.taken, { s with taken := s.taken + 1 })

/-- Two words make a long one, the low half first. -/
def next64 (s : Stream) : UInt64 × Stream :=
  let low := word s.key s.taken
  let high := word s.key (s.taken + 1)
  (high.toUInt64 <<< 32 ||| low.toUInt64, { s with taken := s.taken + 2 })

end Stream

/-- One step of the generator that spreads a seed over a key. -/
def seedStep (s : UInt64) : UInt64 :=
  s * 6364136223846793005 + 11634580027462260723

/-- The key word that a state of the seed generator gives. -/
def seedWord (s : UInt64) : UInt32 :=
  rotateRight ((s >>> 18 ^^^ s) >>> 27).toUInt32 (s >>> 59).toUInt32

/-- The stream of a seed: key word `i` comes from the seed stepped `i + 1`
times. -/
def ofSeed (seed : UInt64) : Stream where
  key := Vector.ofFn fun i : Fin 8 => seedWord (Nat.repeat seedStep (i.val + 1) seed)
  taken := 0

end ZMachine.ChaCha
