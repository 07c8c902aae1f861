/-!
# Words

The story's numbers are 16-bit words.  A word is read as an unsigned number
by `UInt16.toNat` and as a two's complement number by `signed`; `ofSigned`
goes back and wraps.  In memory a word is two bytes, the high one first.
-/

namespace ZMachine

/-- The number that a word stands for in two's complement. -/
def signed (w : UInt16) : Int :=
  if w.toNat < 0x8000 then w.toNat else (w.toNat : Int) - 0x10000

/-- The word that stands for an integer, taken modulo `2 ^ 16`. -/
def ofSigned (i : Int) : UInt16 :=
  UInt16.ofNat (i % 0x10000).toNat

/-- The word with the given high and low bytes. -/
def wordOfBytes (high low : UInt8) : UInt16 :=
  UInt16.ofNat (high.toNat * 256 + low.toNat)

def highByte (w : UInt16) : UInt8 :=
  UInt8.ofNat (w.toNat / 256)

def lowByte (w : UInt16) : UInt8 :=
  UInt8.ofNat w.toNat

theorem wordOfBytes_highByte_lowByte (w : UInt16) :
    wordOfBytes (highByte w) (lowByte w) = w := by
  apply UInt16.toNat_inj.mp
  have := w.toNat_lt
  simp [wordOfBytes, highByte, lowByte]
  omega

theorem highByte_wordOfBytes (high low : UInt8) : highByte (wordOfBytes high low) = high := by
  apply UInt8.toNat_inj.mp
  have := high.toNat_lt
  have := low.toNat_lt
  simp [wordOfBytes, highByte]
  omega

theorem lowByte_wordOfBytes (high low : UInt8) : lowByte (wordOfBytes high low) = low := by
  apply UInt8.toNat_inj.mp
  have := low.toNat_lt
  simp [wordOfBytes, lowByte]

theorem wordOfBytes_inj {high low high' low' : UInt8} :
    wordOfBytes high low = wordOfBytes high' low' ↔ high = high' ∧ low = low' := by
  constructor
  · intro heq
    exact ⟨by simpa only [highByte_wordOfBytes] using congrArg highByte heq,
      by simpa only [lowByte_wordOfBytes] using congrArg lowByte heq⟩
  · rintro ⟨rfl, rfl⟩
    rfl

theorem ofSigned_signed (w : UInt16) : ofSigned (signed w) = w := by
  apply UInt16.toNat_inj.mp
  have := w.toNat_lt
  unfold ofSigned signed
  split <;> simp <;> omega

/-- Shift left for positive `places`, right with zeros for negative ones. -/
def logicalShift (value places : UInt16) : UInt16 :=
  let p := signed places
  if 0 ≤ p then UInt16.ofNat (value.toNat <<< p.toNat)
  else UInt16.ofNat (value.toNat >>> p.natAbs)

/-- Shift left for positive `places`, right with copies of the sign for
negative ones. -/
def arithmeticShift (value places : UInt16) : UInt16 :=
  let p := signed places
  if 0 ≤ p then UInt16.ofNat (value.toNat <<< p.toNat)
  else ofSigned (signed value >>> p.natAbs)

end ZMachine
