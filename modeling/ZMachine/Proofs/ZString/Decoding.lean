import ZMachine.Proofs.Image
import ZMachine.Proofs.Simulation.Story
import ZMachine.Proofs.ZString.Packing

/-!
# Decoding from words

Decoding leaves memory alone and only adds to the text, whatever abbreviations
do in between.  So the words of a string, up to the one that is marked, are
decoded like the z-characters in them.
-/

namespace ZMachine.ZString

/-! ## Decoding adds to the text -/

/-- Decoding of an image that started with a text. -/
def Extends (image : Image) (text : Array UInt8) (d : Decoding Image) : Prop :=
  d.memory = image ∧ ∃ more, d.text = text ++ more

theorem decodeSim_extends (image : Image) (text : Array UInt8) :
    DecodeSim False (Holding (Extends image text)) where
  size := by
    apply Sim.holding
    intro d d' _ hd h
    cases h
    exact hd
  readWord address := by
    apply Sim.holding
    rintro ⟨image, found⟩ d' _ ⟨rfl, hmore⟩ h
    simp only [DecodeM.ofMemory] at h
    split at h <;> cases h
    next image' h =>
      exact ⟨(Image.readWord_holding (· = image) address).holds rfl h, hmore⟩
  emit c := by
    apply Sim.holding
    rintro ⟨image, found⟩ d' _ ⟨rfl, more, rfl⟩ h
    cases h
    exact ⟨rfl, more.push c, by simp⟩

section

variable {h : Header} {expand : Nat → DecodeM Image Unit}

theorem decodeCodes_append (r : Reading) (zs zs' : List UInt8) :
    decodeCodes h expand r (zs ++ zs') =
      decodeCodes h expand r zs >>= fun r => decodeCodes h expand r zs' := by
  induction zs generalizing r with
  | nil => simp [decodeCodes]
  | cons z zs ih => simp [decodeCodes, ih]

variable (hexpand : ∀ image text target,
  Sim False (Holding (Extends image text)) (Holding (Extends image text)) (expand target)
    (expand target))

include hexpand

theorem decodeCodes_extends {r r' : Reading} {zs : List UInt8} {image : Image}
    {text : Array UInt8} {d : Decoding Image}
    (hdecode : decodeCodes h expand r zs ⟨image, text⟩ = .ok r' d) : Extends image text d :=
  ((decodeSim_extends image text).decodeCodes (hexpand image text) r zs).holds
    ⟨rfl, #[], by simp⟩ hdecode

end

/-! ## Words that stand in memory -/

/-- The words stand in an image from an address on, the high byte first. -/
def LaidOut (image : Image) (words : List UInt16) (address : Nat) : Prop :=
  ∀ (i : Nat) (w : UInt16), words[i]? = some w →
    image.bytes[address + 2 * i]? = some (highByte w) ∧
      image.bytes[address + 2 * i + 1]? = some (lowByte w)

instance (image : Image) (words : List UInt16) (address : Nat) :
    Decidable (LaidOut image words address) :=
  decidable_of_iff
    (∀ i : Fin words.length, image.bytes[address + 2 * i]? = some (highByte (words.get i)) ∧
      image.bytes[address + 2 * i + 1]? = some (lowByte (words.get i))) <| by
    constructor
    · intro hall i w hw
      obtain ⟨hi, rfl⟩ := List.getElem?_eq_some_iff.mp hw
      exact hall ⟨i, hi⟩
    · intro hlaid i
      exact hlaid i _ (List.getElem?_eq_getElem i.isLt)

theorem LaidOut.tail {image : Image} {w : UInt16} {words : List UInt16} {address : Nat}
    (hlaid : LaidOut image (w :: words) address) : LaidOut image words (address + 2) := by
  intro i w' hw'
  have hbytes := hlaid (i + 1) w' hw'
  rw [show address + 2 * (i + 1) = address + 2 + 2 * i by omega] at hbytes
  exact hbytes

theorem LaidOut.readWord {image : Image} {w : UInt16} {words : List UInt16} {address : Nat}
    (hlaid : LaidOut image (w :: words) address) :
    Memory.readWord address image = .ok w image := by
  have hhigh : image.bytes[address]? = some (highByte w) := (hlaid 0 w rfl).1
  have hlow : image.bytes[address + 1]? = some (lowByte w) := (hlaid 0 w rfl).2
  have hread : ∀ {a : Nat} {b : UInt8}, image.bytes[a]? = some b →
      (Memory.readByte a : MemoryM Image UInt8) image = .ok b image := by
    intro a b hb
    obtain ⟨hlt, hget⟩ := Array.getElem?_eq_some_iff.mp hb
    simp only [Memory.readByte, AddressSpace.readByte, Image.readByte, dif_pos hlt, hget]
  rw [Memory.readWord, bind_ok (hread hhigh), bind_ok (hread hlow), wordOfBytes_highByte_lowByte]
  rfl

theorem LaidOut.decode_readWord {image : Image} {w : UInt16} {words : List UInt16} {address : Nat}
    (hlaid : LaidOut image (w :: words) address) (text : Array UInt8) :
    DecodeM.ofMemory (Memory.readWord address) ⟨image, text⟩ = .ok w ⟨image, text⟩ := by
  simp only [DecodeM.ofMemory, hlaid.readWord]

/-- There is room for the words in the image. -/
theorem LaidOut.length_le {image : Image} {words : List UInt16} {address : Nat}
    (hlaid : LaidOut image words address) : words.length ≤ image.bytes.size := by
  cases words with
  | nil => simp
  | cons w words =>
      have hlast : (w :: words)[words.length]? = some ((w :: words)[words.length]) :=
        List.getElem?_eq_getElem (by simp)
      obtain ⟨hlt, -⟩ := Array.getElem?_eq_some_iff.mp (hlaid _ _ hlast).2
      simp only [List.length_cons]
      omega

/-- The words of a string are decoded like the z-characters in them. -/
theorem decodeWords_eq {h : Header} {expand : Nat → DecodeM Image Unit}
    (hexpand : ∀ image text target,
      Sim False (Holding (Extends image text)) (Holding (Extends image text)) (expand target)
        (expand target))
    {image : Image} (front : List UInt16) {last : UInt16} (hfront : ∀ w ∈ front, isEnd w = false)
    (hlast : isEnd last = true) {r : Reading} {address fuel : Nat} (hfuel : front.length < fuel)
    (hlaid : LaidOut image (front ++ [last]) address) (text : Array UInt8) :
    decodeWords h expand fuel address r ⟨image, text⟩ =
      (do let _ ← decodeCodes h expand r ((front ++ [last]).flatMap codes)
          return address + 2 * (front.length + 1)) ⟨image, text⟩ := by
  induction front generalizing r address fuel text with
  | nil =>
      obtain ⟨fuel, rfl⟩ : ∃ n, fuel = n + 1 := ⟨fuel - 1, by simp at hfuel; omega⟩
      rw [decodeWords, bind_ok (hlaid.decode_readWord text)]
      simp [hlast]
  | cons w front ih =>
      obtain ⟨fuel, rfl⟩ : ∃ n, fuel = n + 1 := ⟨fuel - 1, by omega⟩
      have hw : isEnd w = false := hfront w (by simp)
      rw [decodeWords, bind_ok (hlaid.decode_readWord text), List.cons_append, List.flatMap_cons,
        decodeCodes_append, bind_assoc]
      cases hcodes : decodeCodes h expand r (codes w) ⟨image, text⟩ with
      | error e d => rw [bind_error hcodes, bind_error hcodes]
      | ok r₁ d =>
          obtain ⟨image₁, text₁⟩ := d
          obtain ⟨rfl, -⟩ := decodeCodes_extends hexpand hcodes
          rw [bind_ok hcodes, bind_ok hcodes]
          simp only [hw, Bool.false_eq_true, if_false]
          have hafter : address + 2 + 2 * (front.length + 1) =
              address + 2 * ((w :: front).length + 1) := by
            simp only [List.length_cons]
            omega
          rw [ih (fun w hw => hfront w (by simp [hw])) (by simpa using hfuel) hlaid.tail, hafter]

theorem decodeNested_eq {h : Header} (levels : Nat) {image : Image} {front : List UInt16}
    {last : UInt16} (hfront : ∀ w ∈ front, isEnd w = false) (hlast : isEnd last = true)
    {address : Nat} (hlaid : LaidOut image (front ++ [last]) address) (text : Array UInt8) :
    decodeNested h (levels + 1) address ⟨image, text⟩ =
      (do let _ ← decodeCodes h (fun target => discard (decodeNested h levels target)) {}
            ((front ++ [last]).flatMap codes)
          return address + 2 * (front ++ [last]).length) ⟨image, text⟩ := by
  have hroom := hlaid.length_le
  simp only [List.length_append, List.length_singleton] at hroom ⊢
  have hsize : DecodeM.ofMemory Memory.size ⟨image, text⟩ =
    .ok image.bytes.size ⟨image, text⟩ := rfl
  have hexpand := fun image text target =>
    ((decodeSim_extends image text).decodeNested h levels target).discard
  rw [decodeNested, bind_ok hsize]
  exact decodeWords_eq hexpand front hfront hlast (by omega) hlaid text

end ZMachine.ZString
