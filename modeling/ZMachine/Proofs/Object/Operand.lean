import ZMachine.Proofs.Object.Attribute
import ZMachine.Proofs.Restart.Reach

/-!
# Attribute operands that leave the attribute field

The number of an attribute comes from the story and is not compared with the
number of attributes that an object has.  It only says how many bytes behind the
start of the record the bit lies, so an operand that is too large runs on: over
the links and the property table of the same object, and then over the records
behind it.

All bytes of a record behind the attributes belong to one of its four pointers.
So it depends on `attr / 8` modulo the size of a record alone whether an operand
meets a pointer or only attributes, of this object or of a later one.
`pointers_change_iff_met` says which pointer is met, and when it changes.
-/

namespace ZMachine.Object

variable {h : Header} {image image' : Image} {o attr x : UInt16} {i : Nat}

/-! ## Pointers -/

/-- What a record holds behind the attributes. -/
inductive Pointer where
  | link (k : Link)
  | properties
  deriving DecidableEq, Repr

variable {p : Pointer}

namespace Pointer

/-- Distance of a pointer from the start of the record. -/
def offset (h : Header) : Pointer → Nat
  | .link k => k.offset h
  | .properties => if h.version < 4 then 7 else 12

/-- Bytes in a pointer. -/
def width (h : Header) : Pointer → Nat
  | .link _ => linkWidth h
  | .properties => 2

def place (h : Header) (x : UInt16) (p : Pointer) : Nat :=
  address h x + p.offset h

/-- Byte `i` of a record belongs to the pointer. -/
def Covers (h : Header) (p : Pointer) (i : Nat) : Prop :=
  p.offset h ≤ i ∧ i < p.offset h + p.width h

instance (h : Header) (p : Pointer) (i : Nat) : Decidable (p.Covers h i) :=
  inferInstanceAs (Decidable (p.offset h ≤ i ∧ i < p.offset h + p.width h))

theorem attributeBytes_le_offset (h : Header) (p : Pointer) : attributeBytes h ≤ p.offset h := by
  cases p with
  | link k => exact Object.attributeBytes_le_offset h k
  | properties =>
      simp only [attributeBytes, offset]
      split <;> omega

theorem offset_add_width_le (h : Header) (p : Pointer) :
    p.offset h + p.width h ≤ h.objectSize := by
  cases p with
  | link k => exact Object.offset_add_width_le h k
  | properties =>
      simp only [offset, width, Header.objectSize]
      split <;> omega

/-- The four pointers leave no gap behind the attributes. -/
theorem exists_covers (hfrom : attributeBytes h ≤ i) (hupto : i < h.objectSize) :
    ∃ p : Pointer, p.Covers h i := by
  have hparts : Covers h (.link .parent) i ∨ Covers h (.link .sibling) i ∨
      Covers h (.link .child) i ∨ Covers h .properties i := by
    unfold attributeBytes at hfrom
    unfold Header.objectSize at hupto
    simp only [Covers, offset, width, linkWidth, Link.offset]
    by_cases hversion : h.version < 4
    · simp only [hversion, if_true] at hfrom hupto ⊢
      omega
    · simp only [hversion, if_false] at hfrom hupto ⊢
      omega
  rcases hparts with hi | hi | hi | hi <;> exact ⟨_, hi⟩

end Pointer

/-- A pointer as it stands in an image. -/
def pointerOf (h : Header) (image : Image) (x : UInt16) (p : Pointer) : Nat :=
  if p.width h = 1 then (image.byteAt (p.place h x)).toNat
  else (image.wordAt (p.place h x)).toNat

theorem Pointer.width_eq (h : Header) (p : Pointer) : p.width h = 1 ∨ p.width h = 2 := by
  cases p with
  | link k =>
      simp only [width, linkWidth]
      split <;> simp
  | properties => exact .inr rfl

/-- A pointer is the same exactly if all its bytes are. -/
theorem pointerOf_eq_iff :
    pointerOf h image' x p = pointerOf h image x p ↔
      ∀ i, p.Covers h i → image'.byteAt (address h x + i) = image.byteAt (address h x + i) := by
  have hfirst : p.place h x = address h x + p.offset h := rfl
  have hsecond : p.place h x + 1 = address h x + (p.offset h + 1) := Nat.add_assoc _ _ _
  unfold pointerOf Pointer.Covers
  rcases p.width_eq h with hwidth | hwidth
  · rw [hwidth, if_pos rfl, if_pos rfl, UInt8.toNat_inj, hfirst]
    constructor
    · intro heq i hi
      obtain rfl : i = p.offset h := by omega
      exact heq
    · intro hsame
      exact hsame _ (by omega)
  · rw [hwidth, if_neg (by decide), if_neg (by decide), UInt16.toNat_inj, Image.wordAt,
      Image.wordAt, wordOfBytes_inj, hsecond, hfirst]
    constructor
    · rintro ⟨hhigh, hlow⟩ i hi
      obtain rfl | rfl : i = p.offset h ∨ i = p.offset h + 1 := by omega
      · exact hhigh
      · exact hlow
    · intro hsame
      exact ⟨hsame _ (by omega), hsame _ (by omega)⟩

/-! ## Where an operand leads -/

/-- The byte of an operand, told by the record in which it lies. -/
theorem attributeAddress_eq_iff (ho : o ≠ 0) (hx : x ≠ 0) (hi : i < h.objectSize) :
    address h x + i = attributeAddress h o attr ↔
      x.toNat = o.toNat + attr.toNat / 8 / h.objectSize ∧ i = attr.toNat / 8 % h.objectSize := by
  have hopos : 0 < o.toNat := UInt16.pos_iff_ne_zero.mpr ho
  have hxpos : 0 < x.toNat := UInt16.pos_iff_ne_zero.mpr hx
  have hsize : 0 < h.objectSize := by omega
  have hsplit := Nat.div_add_mod (attr.toNat / 8) h.objectSize
  have hrest := Nat.mod_lt (attr.toNat / 8) hsize
  generalize attr.toNat / 8 / h.objectSize = q at *
  generalize attr.toNat / 8 % h.objectSize = r at *
  have hplace : address h x + i = attributeAddress h o attr ↔
      (x.toNat - 1) * h.objectSize + i = (o.toNat - 1 + q) * h.objectSize + r := by
    unfold attributeAddress address
    rw [← hsplit, Nat.add_mul, Nat.mul_comm q]
    omega
  rw [hplace]
  constructor
  · intro heq
    have hdiv := congrArg (· / h.objectSize) heq
    have hmod := congrArg (· % h.objectSize) heq
    simp only [Nat.mul_comm _ h.objectSize, Nat.mul_add_div hsize, Nat.mul_add_mod,
      Nat.div_eq_of_lt hi, Nat.div_eq_of_lt hrest, Nat.mod_eq_of_lt hi,
      Nat.mod_eq_of_lt hrest] at hdiv hmod
    omega
  · rintro ⟨hnumber, rfl⟩
    rw [hnumber]
    congr 2
    omega

/-- The bits of a byte in which one has been given a value. -/
theorem getMsbD_withBit (field : UInt8) (attr : UInt16) (value : Bool) (hi : i < 8) :
    (withBit field attr value).toBitVec.getMsbD i =
      if i = attr.toNat % 8 then value else field.toBitVec.getMsbD i := by
  have hbit := bitIn_withBit field attr (UInt16.ofNat i) value
  have hnumber : (UInt16.ofNat i).toNat % 8 = i := by
    rw [UInt16.toNat_ofNat_of_lt' (Nat.lt_trans hi (by decide))]
    exact Nat.mod_eq_of_lt hi
  unfold bitIn at hbit
  rwa [hnumber] at hbit

theorem withBit_eq_self_iff (field : UInt8) (attr : UInt16) (value : Bool) :
    withBit field attr value = field ↔ bitIn field attr = value := by
  constructor
  · intro heq
    have hbit := bitIn_withBit field attr attr value
    rwa [heq, if_pos rfl] at hbit
  · intro hbit
    apply UInt8.toBitVec_inj.mp
    apply BitVec.eq_of_getMsbD_eq
    intro i hi
    rw [getMsbD_withBit field attr value hi]
    split
    next heq => rw [heq, ← hbit, bitIn]
    next => rfl

/-- Giving an attribute a value changes at most the byte that holds it. -/
theorem byteAt_withAttribute_ne_iff (hlt : attributeAddress h o attr < image.bytes.size)
    (value : Bool) (a : Nat) :
    (withAttribute h image o attr value).byteAt a ≠ image.byteAt a ↔
      a = attributeAddress h o attr ∧ attributeOf h image o attr ≠ value := by
  unfold withAttribute attributeOf
  by_cases ha : a = attributeAddress h o attr
  · subst ha
    rw [Image.byteAt_poke_self hlt, ne_eq, withBit_eq_self_iff]
    simp
  · rw [Image.byteAt_poke_of_ne _ ha]
    simp [ha]

/-- In that byte it changes at most one bit. -/
theorem getMsbD_withAttribute_ne_iff (hlt : attributeAddress h o attr < image.bytes.size)
    (value : Bool) (a : Nat) (hi : i < 8) :
    ((withAttribute h image o attr value).byteAt a).toBitVec.getMsbD i ≠
        (image.byteAt a).toBitVec.getMsbD i ↔
      attributeOf h image o attr ≠ value ∧ a = attributeAddress h o attr ∧ i = attr.toNat % 8 := by
  unfold withAttribute attributeOf bitIn
  by_cases ha : a = attributeAddress h o attr
  · subst ha
    rw [Image.byteAt_poke_self hlt, getMsbD_withBit _ _ _ hi]
    by_cases hplace : i = attr.toNat % 8
    · simp [hplace, eq_comm]
    · simp [hplace]
  · rw [Image.byteAt_poke_of_ne _ ha]
    simp [ha]

/-- An operand, taken as the number of an attribute, leads to a pointer. -/
def Meets (h : Header) (o attr x : UInt16) (p : Pointer) : Prop :=
  x.toNat = o.toNat + attr.toNat / 8 / h.objectSize ∧ p.Covers h (attr.toNat / 8 % h.objectSize)

instance (h : Header) (o attr x : UInt16) (p : Pointer) : Decidable (Meets h o attr x p) :=
  inferInstanceAs (Decidable (x.toNat = _ ∧ p.Covers h _))

theorem pointerOf_withAttribute_ne_iff (hlt : attributeAddress h o attr < image.bytes.size)
    (ho : o ≠ 0) (hx : x ≠ 0) (p : Pointer) (value : Bool) :
    pointerOf h (withAttribute h image o attr value) x p ≠ pointerOf h image x p ↔
      attributeOf h image o attr ≠ value ∧ Meets h o attr x p := by
  have hinside := p.offset_add_width_le h
  rw [ne_eq, pointerOf_eq_iff, not_forall]
  constructor
  · rintro ⟨i, hi⟩
    obtain ⟨hcovers, hchanged⟩ := Classical.not_imp.mp hi
    obtain ⟨hplace, hbit⟩ := (byteAt_withAttribute_ne_iff hlt value _).mp hchanged
    obtain ⟨hnumber, rfl⟩ := (attributeAddress_eq_iff ho hx (by have := hcovers.2; omega)).mp hplace
    exact ⟨hbit, hnumber, hcovers⟩
  · rintro ⟨hbit, hnumber, hcovers⟩
    refine ⟨_, Classical.not_imp.mpr ⟨hcovers, ?_⟩⟩
    have hplace := (attributeAddress_eq_iff ho hx (by have := hcovers.2; omega)).mpr ⟨hnumber, rfl⟩
    exact (byteAt_withAttribute_ne_iff hlt value _).mpr ⟨hplace, hbit⟩

/-! ## Setting and clearing -/

section

variable {M : Type} [AddressSpace M]

/-- Set an attribute or clear it. -/
def assignAttribute (h : Header) (o attr : UInt16) : Bool → MemoryM M Unit
  | true => setAttribute h o attr
  | false => clearAttribute h o attr

def readPointer (h : Header) (x : UInt16) : Pointer → MemoryM M Nat
  | .link k => do return (← readLink h x k).toNat
  | .properties => propertyTable h x

theorem assignAttribute_eq (ho : o ≠ 0) (value : Bool) :
    (assignAttribute h o attr value : MemoryM M Unit) =
      (Memory.readByte (attributeAddress h o attr) >>= fun field =>
        Memory.writeByte (attributeAddress h o attr) (withBit field attr value)) := by
  cases value <;> simp [assignAttribute, setAttribute, clearAttribute, withBit, ho]

theorem readPointer_ok {v : Nat} (hx : x ≠ 0)
    (hread : (readPointer h x p : MemoryM Image Nat) image = .ok v image') :
    v = pointerOf h image x p := by
  cases p with
  | link k =>
      obtain ⟨w, image₁, hlink, hpure⟩ := bind_eq_ok_iff.mp hread
      cases hpure
      unfold readLink at hlink
      rw [if_neg hx] at hlink
      unfold pointerOf Pointer.width linkWidth
      by_cases hversion : h.version < 4
      · simp only [hversion, if_true] at hlink ⊢
        obtain ⟨b, image₂, hbyte, hpure⟩ := bind_eq_ok_iff.mp hlink
        obtain ⟨rfl, -⟩ := Image.readByte_ok hbyte
        cases hpure
        rfl
      · simp only [hversion, if_false] at hlink ⊢
        obtain ⟨rfl, -⟩ := Image.readWord_ok hlink
        rfl
  | properties =>
      obtain ⟨w, image₁, hword, hpure⟩ := bind_eq_ok_iff.mp hread
      obtain ⟨rfl, -⟩ := Image.readWord_ok hword
      cases hpure
      rfl

theorem Parametric.readPointer (h : Header) (x : UInt16) (p : Pointer) :
    Parametric (readPointer h x p : MemoryM M Nat)
      (Object.readPointer h x p : MemoryM Image Nat) := by
  cases p with
  | link k => exact .bind (.readLink h x k) fun _ => .pure _
  | properties => exact .propertyTable h x

variable {R : M → Image → Prop} (hR : Showing R) {m : M} (hm : R m image)

include hR hm

theorem outcome_readPointer {v : Nat} (hx : x ≠ 0)
    (hread : outcome (readPointer h x p m) = .ok v) : v = pointerOf h image x p := by
  cases hrun : readPointer h x p m with
  | error e m' =>
      rw [hrun] at hread
      cases hread
  | ok w m' =>
      rw [hrun] at hread
      cases hread
      obtain ⟨image', hread', -⟩ :=
        (Parametric.readPointer h x p False R hR.toMemorySim).ok hm hrun
      exact readPointer_ok hx hread'

/-- Either the bit has its value, or the memory shows what it showed. -/
theorem assignAttribute_shows (ho : o ≠ 0) (value : Bool) :
    (∃ m', assignAttribute h o attr value m = .ok () m' ∧
      attributeAddress h o attr < image.bytes.size ∧
      R m' (withAttribute h image o attr value)) ∨
    ∃ e m', assignAttribute h o attr value m = .error e m' ∧ R m' image := by
  rw [assignAttribute_eq ho]
  cases hread : (Memory.readByte (attributeAddress h o attr) : MemoryM M UInt8) m with
  | error e m₁ => exact .inr ⟨e, m₁, bind_error hread, hR.readByte_error hm hread⟩
  | ok field m₁ =>
      obtain ⟨image₁, hread', hm₁⟩ := (hR.readByte _).ok hm hread
      have hlt := Image.lt_of_readByte_ok hread'
      obtain ⟨rfl, rfl⟩ := Image.readByte_ok hread'
      rw [bind_ok hread]
      cases hwrite : (Memory.writeByte (attributeAddress h o attr)
          (withBit (image₁.byteAt (attributeAddress h o attr)) attr value) : MemoryM M Unit) m₁ with
      | error e m₂ => exact .inr ⟨e, m₂, rfl, hR.writeByte_error hm₁ hwrite⟩
      | ok _ m₂ =>
          obtain ⟨image₂, hwrite', hm₂⟩ := (hR.writeByte _ _).ok hm₁ hwrite
          obtain ⟨-, rfl⟩ := Image.writeByte_ok hwrite'
          exact .inl ⟨m₂, rfl, hlt, hm₂⟩

/-- What setting or clearing leaves in memory: a bit differs there exactly if it
is that of the operand and had the other value, and a pointer exactly if the
operand leads to it. -/
theorem exists_assigned (o attr : UInt16) (value : Bool) :
    ∃ image', R (reached (assignAttribute h o attr value m)) image' ∧
      image'.bytes.size = image.bytes.size ∧
      (∀ a i, i < 8 →
        ((image'.byteAt a).toBitVec.getMsbD i ≠ (image.byteAt a).toBitVec.getMsbD i ↔
          outcome (assignAttribute h o attr value m) = .ok () ∧ o ≠ 0 ∧
            attributeOf h image o attr ≠ value ∧
            a = address h o + attr.toNat / 8 ∧ i = attr.toNat % 8)) ∧
      ∀ x p, x ≠ 0 → (pointerOf h image' x p ≠ pointerOf h image x p ↔
        outcome (assignAttribute h o attr value m) = .ok () ∧ o ≠ 0 ∧
          attributeOf h image o attr ≠ value ∧ Meets h o attr x p) := by
  by_cases ho : o = 0
  -- Object 0 is none: nothing is done, and that counts as success.
  · have hnothing : assignAttribute h o attr value m = .ok () m := by
      subst ho
      cases value <;> rfl
    refine ⟨image, by rwa [hnothing], rfl, fun a i _ => ?_, fun x p _ => ?_⟩
    · simp [ho]
    · simp [ho]
  · rcases assignAttribute_shows hR hm ho value with ⟨m', hok, hlt, hm'⟩ | ⟨e, m', herror, hm'⟩
    · refine ⟨withAttribute h image o attr value, by rwa [hok], Image.size_poke _ _ _,
        fun a i hi => ?_, fun x p hx => ?_⟩
      · rw [getMsbD_withAttribute_ne_iff hlt value a hi, hok, attributeAddress]
        simp [outcome, ho]
      · rw [pointerOf_withAttribute_ne_iff hlt ho hx, hok]
        simp [outcome, ho]
    · refine ⟨image, by rwa [herror], rfl, fun a i _ => ?_, fun x p _ => ?_⟩
      · simp [herror, outcome]
      · simp [herror, outcome]

end

theorem mod_lt_of_lt_attributeLimit (hattr : attr.toNat < attributeLimit h) :
    attr.toNat / 8 % h.objectSize < attributeBytes h := by
  have hfield := attributeBytes_le_size h
  unfold attributeLimit at hattr
  exact Nat.lt_of_le_of_lt (Nat.mod_le _ _) (by omega)

theorem not_meets_of_lt (hattr : attr.toNat / 8 % h.objectSize < attributeBytes h) :
    ¬ Meets h o attr x p := by
  rintro ⟨-, hfrom, -⟩
  have hbehind := p.attributeBytes_le_offset h
  omega

/-- Among the objects up to `n` there is one with a pointer to which the operand
leads, if it leads behind the attributes of one of them. -/
theorem exists_meets {n : UInt16} (ho : o ≠ 0)
    (hattr : attributeBytes h ≤ attr.toNat / 8 % h.objectSize)
    (hn : o.toNat + attr.toNat / 8 / h.objectSize ≤ n.toNat) :
    ∃ x p, InTable n.toNat x ∧ Meets h o attr x p := by
  have hopos : 0 < o.toNat := UInt16.pos_iff_ne_zero.mpr ho
  have hsize : 0 < h.objectSize := by
    unfold Header.objectSize
    split <;> decide
  have hlt : o.toNat + attr.toNat / 8 / h.objectSize < UInt16.size :=
    Nat.lt_of_le_of_lt hn n.toNat_lt
  obtain ⟨p, hp⟩ := Pointer.exists_covers hattr (Nat.mod_lt _ hsize)
  have hx := UInt16.toNat_ofNat_of_lt' hlt
  refine ⟨_, p, ⟨?_, ?_⟩, hx, hp⟩
  · apply UInt16.pos_iff_ne_zero.mp
    rw [UInt16.lt_iff_toNat_lt, hx]
    exact Nat.lt_of_lt_of_le hopos (Nat.le_add_right _ _)
  · rwa [hx]

/-- Whatever the operand is, setting or clearing an attribute changes at most one
bit of memory, counted from the start of the record, and so at most one pointer:
that of the object and the byte of its record to which the operand leads.  A
table of `n` objects keeps all its pointers exactly if the operation fails, there
is no object, the bit has the value already, or the operand leads to attributes
only or behind the table.  In range it does. -/
theorem pointers_change_iff_met
    {M : Type} [AddressSpace M] {R : M → Image → Prop} (hR : Showing R) {m : M}
    (hm : R m image) (o attr : UInt16) (value : Bool) :
    ∃ image', R (reached (assignAttribute h o attr value m)) image' ∧
      image'.bytes.size = image.bytes.size ∧
      (∀ a i, i < 8 →
        ((image'.byteAt a).toBitVec.getMsbD i ≠ (image.byteAt a).toBitVec.getMsbD i ↔
          outcome (assignAttribute h o attr value m) = .ok () ∧ o ≠ 0 ∧
            attributeOf h image o attr ≠ value ∧
            a = address h o + attr.toNat / 8 ∧ i = attr.toNat % 8)) ∧
      (∀ x p, x ≠ 0 → ∀ v, outcome (readPointer h x p m) = .ok v → v = pointerOf h image x p) ∧
      (∀ x p, x ≠ 0 → ∀ v,
        outcome (readPointer h x p (reached (assignAttribute h o attr value m))) = .ok v →
          v = pointerOf h image' x p) ∧
      (attr.toNat < attributeLimit h →
        ∀ x p, x ≠ 0 → pointerOf h image' x p = pointerOf h image x p) ∧
      (∀ x p, x ≠ 0 → (pointerOf h image' x p ≠ pointerOf h image x p ↔
        outcome (assignAttribute h o attr value m) = .ok () ∧ o ≠ 0 ∧
          attributeOf h image o attr ≠ value ∧ Meets h o attr x p)) ∧
      ∀ n : UInt16,
        (∀ x p, InTable n.toNat x → pointerOf h image' x p = pointerOf h image x p) ↔
          (∃ e, outcome (assignAttribute h o attr value m) = .error e) ∨ o = 0 ∨
            attributeOf h image o attr = value ∨
            attr.toNat / 8 % h.objectSize < attributeBytes h ∨
            n.toNat < o.toNat + attr.toNat / 8 / h.objectSize := by
  obtain ⟨image', hm', hsize, hbits, hpointers⟩ :=
    exists_assigned (h := h) hR hm o attr value
  refine ⟨image', hm', hsize, hbits, fun x p hx v => outcome_readPointer hR hm hx,
    fun x p hx v => outcome_readPointer hR hm' hx, ?_, hpointers, fun n => ⟨?_, ?_⟩⟩
  · intro hattr x p hx
    by_contra hne
    exact not_meets_of_lt (mod_lt_of_lt_attributeLimit hattr) ((hpointers x p hx).mp hne).2.2.2
  · intro hsame
    cases houtcome : outcome (assignAttribute h o attr value m) with
    | error e => exact .inl ⟨e, rfl⟩
    | ok _ =>
        -- None of the four excuses: the operand meets a pointer, which then differs.
        by_contra hharm
        simp only [reduceCtorEq, exists_false, false_or, not_or, Nat.not_lt] at hharm
        obtain ⟨ho, hbit, hbehind, hinside⟩ := hharm
        obtain ⟨x, p, hx, hmeets⟩ := exists_meets ho hbehind hinside
        exact (hpointers x p hx.1).mpr ⟨houtcome, ho, hbit, hmeets⟩ (hsame x p hx)
  · intro hharmless x p hx
    by_contra hne
    obtain ⟨hok, ho, hbit, hmeets⟩ := (hpointers x p hx.1).mp hne
    rcases hharmless with ⟨e, he⟩ | hzero | hsame | hattributes | hbeyond
    · rw [hok] at he
      cases he
    · exact ho hzero
    · exact hbit hsame
    · exact not_meets_of_lt hattributes hmeets
    · have hnumber := hmeets.1
      have hle := hx.2
      omega

/-- In version 5, byte 22 behind the start of record 1 is the first byte of the
sibling link in record 2. -/
theorem pointers_change_iff_met_next_record :
    let h : Header := { (default : Header) with version := 5, objects := 64 }
    let image : Image := ⟨(Array.replicate 218 0).set! 213 3⟩
    attributeOf h image 1 183 = false ∧ Meets h 1 183 2 (.link .sibling) ∧
      ∃ image', setAttribute h 1 183 image = .ok () image' ∧
        outcome (readLink h 2 .sibling image) = .ok 3 ∧
        outcome (readLink h 2 .sibling image') = .ok 0x103 ∧
        pointerOf h image' 2 (.link .sibling) ≠ pointerOf h image 2 (.link .sibling) ∧
        pointerOf h image' 1 .properties = pointerOf h image 1 .properties ∧
        (image'.byteAt 212).toBitVec.getMsbD 7 ≠ (image.byteAt 212).toBitVec.getMsbD 7 ∧
        (image'.byteAt 212).toBitVec.getMsbD 6 = (image.byteAt 212).toBitVec.getMsbD 6 := by
  intro h image
  have hbit : attributeOf h image 1 183 = false := by decide +kernel
  have hmeets : Meets h 1 183 2 (.link .sibling) := by decide +kernel
  have hbefore : outcome (readLink h 2 .sibling image) = .ok 3 :=
    eq_ok_of_toOption (by decide +kernel)
  have hafter : outcome (readLink h 2 .sibling (reached (setAttribute h 1 183 image))) =
      .ok 0x103 :=
    eq_ok_of_toOption (by decide +kernel)
  obtain ⟨image', hset⟩ : ∃ image', setAttribute h 1 183 image = .ok () image' :=
    ⟨_, eq_ok_reached (by decide +kernel)⟩
  obtain ⟨_, rfl, -, hbits, -, -, -, hpointers, -⟩ :=
    pointers_change_iff_met (h := h) (.of_strict MemorySim.refl) (Eq.refl image) 1 183 true
  rw [hset] at hafter
  rw [show assignAttribute h 1 183 true image = _ from hset] at hpointers hbits
  refine ⟨hbit, hmeets, image', hset, hbefore, hafter, ?_, ?_, ?_, ?_⟩
  · exact (hpointers 2 _ (by decide)).mpr ⟨rfl, by decide, by simp [hbit], hmeets⟩
  · by_contra hne
    obtain ⟨-, -, -, hown⟩ := (hpointers 1 _ (by decide)).mp hne
    exact absurd hown (by decide +kernel)
  · exact (hbits 212 7 (by decide)).mpr ⟨rfl, by decide, by simp [hbit], by decide, by decide⟩
  · by_contra hne
    obtain ⟨-, -, -, -, hplace⟩ := (hbits 212 6 (by decide)).mp hne
    exact absurd hplace (by decide)

/-- The first number behind the attributes of version 3 is the top bit of the
object's own parent link. -/
theorem setAttribute_damages_parent :
    let h : Header := { (default : Header) with version := 3, objects := 64 }
    let image : Image := ⟨(Array.replicate 144 0).set! 130 2⟩
    HasRecord h image 1 ∧ HasRecord h image 2 ∧
      outcome (readLink h 1 .parent image) = .ok 2 ∧
      ∃ image', setAttribute h 1 32 image = .ok () image' ∧
        outcome (readLink h 1 .parent image') = .ok 130 := by
  intro h image
  have hafter : outcome (readLink h 1 .parent (reached (setAttribute h 1 32 image))) = .ok 130 :=
    eq_ok_of_toOption (by decide +kernel)
  obtain ⟨image', hset⟩ : ∃ image', setAttribute h 1 32 image = .ok () image' :=
    ⟨_, eq_ok_reached (by decide +kernel)⟩
  rw [hset] at hafter
  exact ⟨by decide +kernel, by decide +kernel, eq_ok_of_toOption (by decide +kernel), image', hset,
    hafter⟩

end ZMachine.Object
