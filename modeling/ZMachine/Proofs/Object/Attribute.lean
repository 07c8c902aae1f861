import ZMachine.Proofs.Object.Move

/-!
# Attributes as independent bits

An object's record starts with its attributes, one bit each, the first one at
the top of the first byte.  Setting and clearing an attribute are one operation
here, `withAttribute`, which gives a single bit a value.  Records lie one behind
the other and the links lie behind the attributes, so the byte that holds the
bit belongs to eight attributes of this one object: the others of the eight keep
their bits, and whatever lies elsewhere keeps its bytes.
-/

namespace ZMachine.Object

variable {h : Header} {image image' : Image} {o o' attr attr' x : UInt16} {k : Link}

/-! ## Bits of a byte -/

/-- The bit of an attribute in the byte that holds it. -/
def bitIn (field : UInt8) (attr : UInt16) : Bool :=
  field.toBitVec.getMsbD (attr.toNat % 8)

/-- The byte with another bit for an attribute. -/
def withBit (field : UInt8) (attr : UInt16) (value : Bool) : UInt8 :=
  if value then field ||| attributeMask attr else field &&& ~~~ attributeMask attr

theorem toBitVec_attributeMask (attr : UInt16) :
    (attributeMask attr).toBitVec = BitVec.twoPow 8 (7 - attr.toNat % 8) := by
  have hall : ∀ r < 8, (0x80 >>> UInt8.ofNat r : UInt8).toBitVec = BitVec.twoPow 8 (7 - r) := by
    decide
  exact hall _ (Nat.mod_lt _ (by decide))

theorem bitIn_attributeMask (attr attr' : UInt16) :
    bitIn (attributeMask attr) attr' = decide (attr'.toNat % 8 = attr.toNat % 8) := by
  have hlt : attr.toNat % 8 < 8 := Nat.mod_lt _ (by decide)
  have hplace : 8 - (7 - attr.toNat % 8) - 1 = attr.toNat % 8 := by omega
  rw [bitIn, toBitVec_attributeMask, BitVec.getMsbD_twoPow, hplace]
  simp only [Bool.and_eq_right_iff_imp, decide_eq_true_eq]
  omega

theorem and_attributeMask_ne_zero (field : UInt8) (attr : UInt16) :
    field &&& attributeMask attr ≠ 0 ↔ bitIn field attr = true := by
  have hlt : attr.toNat % 8 < 8 := Nat.mod_lt _ (by decide)
  have hplace : 8 - 1 - attr.toNat % 8 = 7 - attr.toNat % 8 := by omega
  rw [bitIn, BitVec.getMsbD_eq_getLsbD, hplace, ne_eq, ← UInt8.toBitVec_inj, UInt8.toBitVec_and,
    toBitVec_attributeMask, BitVec.and_twoPow]
  cases field.toBitVec.getLsbD (7 - attr.toNat % 8) with
  | false => simp
  | true =>
      simp only [if_true, Bool.and_true, decide_eq_true_eq, hlt, iff_true]
      intro hzero
      have hbit := congrArg (BitVec.getLsbD · (7 - attr.toNat % 8)) hzero
      simp [BitVec.getLsbD_twoPow] at hbit
      omega

theorem bitIn_withBit (field : UInt8) (attr attr' : UInt16) (value : Bool) :
    bitIn (withBit field attr value) attr' =
      if attr'.toNat % 8 = attr.toNat % 8 then value else bitIn field attr' := by
  have hlt : attr'.toNat % 8 < 8 := Nat.mod_lt _ (by decide)
  have hmask := bitIn_attributeMask attr attr'
  unfold bitIn at hmask ⊢
  cases value with
  | true =>
      simp only [withBit, if_true, UInt8.toBitVec_or, BitVec.getMsbD_or, hmask]
      by_cases heq : attr'.toNat % 8 = attr.toNat % 8 <;> simp [heq]
  | false =>
      simp only [withBit, Bool.false_eq_true, if_false, UInt8.toBitVec_and, UInt8.toBitVec_not,
        BitVec.getMsbD_and, BitVec.getMsbD_not, hmask, hlt]
      by_cases heq : attr'.toNat % 8 = attr.toNat % 8 <;> simp [heq]

/-! ## Attributes in an image -/

/-- Bytes in the attribute field of a record. -/
def attributeBytes (h : Header) : Nat :=
  if h.version < 4 then 4 else 6

/-- The attributes that an object has are numbered below this. -/
def attributeLimit (h : Header) : Nat :=
  attributeBytes h * 8

/-- The record of an object lies in an image. -/
def HasRecord (h : Header) (image : Image) (o : UInt16) : Prop :=
  o ≠ 0 ∧ address h o + h.objectSize ≤ image.bytes.size

instance (h : Header) (image : Image) (o : UInt16) : Decidable (HasRecord h image o) :=
  inferInstanceAs (Decidable (o ≠ 0 ∧ address h o + h.objectSize ≤ image.bytes.size))

/-- An attribute as it stands in an image. -/
def attributeOf (h : Header) (image : Image) (o attr : UInt16) : Bool :=
  bitIn (image.byteAt (attributeAddress h o attr)) attr

/-- The image with another value for an attribute. -/
def withAttribute (h : Header) (image : Image) (o attr : UInt16) (value : Bool) : Image :=
  image.poke (attributeAddress h o attr)
    (withBit (image.byteAt (attributeAddress h o attr)) attr value)

theorem attributeBytes_le_offset (h : Header) (k : Link) : attributeBytes h ≤ k.offset h := by
  unfold attributeBytes
  cases k <;> simp only [Link.offset] <;> split <;> omega

theorem attributeBytes_le_size (h : Header) : attributeBytes h ≤ h.objectSize := by
  unfold attributeBytes Header.objectSize
  split <;> omega

theorem attributeAddress_bounds (hattr : attr.toNat < attributeLimit h) :
    address h o ≤ attributeAddress h o attr ∧
      attributeAddress h o attr < address h o + attributeBytes h := by
  unfold attributeLimit at hattr
  unfold attributeAddress
  omega

theorem HasRecord.attributeAddress_lt (ho : HasRecord h image o)
    (hattr : attr.toNat < attributeLimit h) : attributeAddress h o attr < image.bytes.size := by
  have hfield := (attributeAddress_bounds (o := o) hattr).2
  have hsize := attributeBytes_le_size h
  have hrecord := ho.2
  omega

/-- A place in one record is no place in another. -/
theorem eq_of_place_eq (ho : o ≠ 0) (ho' : o' ≠ 0) {i j : Nat} (hi : i < h.objectSize)
    (hj : j < h.objectSize) (hplace : address h o' + j = address h o + i) : o' = o := by
  apply UInt16.toNat_inj.mp
  rcases Nat.lt_trichotomy o'.toNat o.toNat with hlt | heq | hgt
  · have hrecord := address_add_size_le (h := h) ho' hlt
    omega
  · exact heq
  · have hrecord := address_add_size_le (h := h) ho hgt
    omega

theorem attributeOf_withAttribute (ho : HasRecord h image o) (ho' : o' ≠ 0)
    (hattr : attr.toNat < attributeLimit h) (hattr' : attr'.toNat < attributeLimit h)
    (value : Bool) :
    attributeOf h (withAttribute h image o attr value) o' attr' =
      if o' = o ∧ attr' = attr then value else attributeOf h image o' attr' := by
  unfold attributeOf withAttribute
  by_cases hplace : attributeAddress h o' attr' = attributeAddress h o attr
  · have hfield := attributeBytes_le_size h
    obtain rfl : o' = o := by
      unfold attributeLimit at hattr hattr'
      exact eq_of_place_eq ho.1 ho' (i := attr.toNat / 8) (by omega) (by omega) hplace
    have hbyte : attr'.toNat / 8 = attr.toNat / 8 := Nat.add_left_cancel hplace
    have hsame : attr'.toNat % 8 = attr.toNat % 8 ↔ attr' = attr := by
      rw [← UInt16.toNat_inj]
      omega
    rw [hplace, Image.byteAt_poke_self (ho.attributeAddress_lt hattr), bitIn_withBit]
    simp only [hsame, true_and]
  · have hne : ¬ (o' = o ∧ attr' = attr) := by
      rintro ⟨rfl, rfl⟩
      exact hplace rfl
    rw [Image.byteAt_poke_of_ne _ hplace, if_neg hne]

theorem changedWithin_withAttribute (image : Image) (o : UInt16)
    (hattr : attr.toNat < attributeLimit h) (value : Bool) :
    image.ChangedWithin (withAttribute h image o attr value) (address h o) (attributeBytes h) := by
  obtain ⟨hfrom, hupto⟩ := attributeAddress_bounds (o := o) hattr
  exact (Image.ChangedWithin.poke _ _ _).mono hfrom hupto

/-! ## Testing and changing them -/

theorem testAttribute_image (ho : HasRecord h image o) (hattr : attr.toNat < attributeLimit h) :
    (testAttribute h o attr : MemoryM Image Bool) image =
      .ok (attributeOf h image o attr) image := by
  unfold testAttribute attributeOf
  rw [if_neg ho.1, bind_ok (Image.readByte_of_lt (ho.attributeAddress_lt hattr))]
  simp only [and_attributeMask_ne_zero, Bool.decide_eq_true]
  rfl

theorem changeAttribute_image (ho : HasRecord h image o) (hattr : attr.toNat < attributeLimit h)
    (value : Bool) :
    (if value then setAttribute h o attr else clearAttribute h o attr : MemoryM Image Unit) image =
      .ok () (withAttribute h image o attr value) := by
  have hlt := ho.attributeAddress_lt hattr
  cases value with
  | true =>
      simp only [if_true, setAttribute]
      rw [if_neg ho.1, bind_ok (Image.readByte_of_lt hlt), Image.writeByte_of_lt hlt]
      rfl
  | false =>
      simp only [Bool.false_eq_true, if_false, clearAttribute]
      rw [if_neg ho.1, bind_ok (Image.readByte_of_lt hlt), Image.writeByte_of_lt hlt]
      rfl

/-! ## Links behind changed attributes -/

section

variable (hchanged : image.ChangedWithin image' (address h o) (attributeBytes h)) (ho : o ≠ 0)

include hchanged ho

/-- Behind the attributes, a record is not affected by changes to those of any
object. -/
theorem byteAt_behind_attributes (hx : x ≠ 0) {i : Nat} (hfrom : attributeBytes h ≤ i)
    (hupto : i < h.objectSize) :
    image'.byteAt (address h x + i) = image.byteAt (address h x + i) := by
  apply hchanged.other
  rintro ⟨hge, hlt⟩
  have hin : address h x + i = address h o + (address h x + i - address h o) := by omega
  obtain rfl := eq_of_place_eq ho hx (by omega) hupto hin
  omega

theorem readLink_alike (x : UInt16) (k : Link) :
    Sim True (Image.Paired image' image) (Image.Paired image' image) (readLink h x k)
      (readLink h x k) := by
  have hfrom := attributeBytes_le_offset h k
  have hupto := offset_add_width_le h k
  unfold linkWidth at hupto
  refine .ite (fun _ => .pure 0) fun hx => .ite (fun hversion => ?_) fun hversion => ?_
  · rw [if_pos hversion] at hupto
    have hsame := byteAt_behind_attributes hchanged ho hx hfrom (by omega)
    exact .bind (Image.readByte_paired hchanged.size_eq hsame) fun _ => .pure _
  · rw [if_neg hversion] at hupto
    refine Image.readWord_paired hchanged.size_eq fun a hge hle => ?_
    obtain ⟨i, rfl⟩ := Nat.exists_eq_add_of_le (Nat.le_trans (Nat.le_add_right _ _) hge)
    exact byteAt_behind_attributes hchanged ho hx (by omega) (by omega)

theorem propertyTable_alike (hx : x ≠ 0) :
    Sim True (Image.Paired image' image) (Image.Paired image' image) (propertyTable h x)
      (propertyTable h x) := by
  have hupto : attributeBytes h ≤ (if h.version < 4 then 7 else 12) ∧
      (if h.version < 4 then 7 else 12) + 1 < h.objectSize := by
    unfold attributeBytes Header.objectSize
    split <;> omega
  refine .bind (Image.readWord_paired hchanged.size_eq fun a hge hle => ?_) fun _ => .pure _
  obtain ⟨i, rfl⟩ := Nat.exists_eq_add_of_le (Nat.le_trans (Nat.le_add_right _ _) hge)
  exact byteAt_behind_attributes hchanged ho hx (by omega) (by omega)

end

/-- Setting or clearing an attribute succeeds, gives it that value and leaves
all others of all objects as they were, in every memory that shows an image with
the object.  No link changes, and no byte outside the attributes of the
object. -/
theorem attributes_are_independent
    {M : Type} [AddressSpace M] {R : M → Image → Prop} (hR : MemorySim True R) {m : M}
    (hm : R m image) (ho : HasRecord h image o) (hattr : attr.toNat < attributeLimit h)
    (value : Bool) :
    ∃ m' image', R m' image' ∧
      (if value then setAttribute h o attr else clearAttribute h o attr) m = .ok () m' ∧
      (∀ o' attr', HasRecord h image o' → attr'.toNat < attributeLimit h →
        ∃ old, outcome (testAttribute h o' attr' m) = .ok old ∧
          outcome (testAttribute h o' attr' m') =
            .ok (if o' = o ∧ attr' = attr then value else old)) ∧
      (∀ x k, outcome (readLink h x k m') = outcome (readLink h x k m)) ∧
      (∀ x, x ≠ 0 → outcome (propertyTable h x m') = outcome (propertyTable h x m)) ∧
      image'.bytes.size = image.bytes.size ∧
      ∀ a, ¬ (address h o ≤ a ∧ a < address h o + attributeBytes h) →
        image'.byteAt a = image.byteAt a := by
  have hparametric : Parametric
      (if value then setAttribute h o attr else clearAttribute h o attr : MemoryM M Unit)
      (if value then setAttribute h o attr else clearAttribute h o attr : MemoryM Image Unit) :=
    .ite (fun _ => .setAttribute h o attr) fun _ => .clearAttribute h o attr
  obtain ⟨m', hm', hok⟩ := Image.exists_ok hR hparametric hm (changeAttribute_image ho hattr value)
  have hchanged := changedWithin_withAttribute image o hattr value
  refine ⟨m', withAttribute h image o attr value, hm', hok, ?_, ?_, ?_, hchanged.size_eq,
    hchanged.other⟩
  · intro o' attr' ho' hattr'
    have ho'' : HasRecord h (withAttribute h image o attr value) o' :=
      ⟨ho'.1, hchanged.size_eq ▸ ho'.2⟩
    refine ⟨attributeOf h image o' attr', ?_, ?_⟩
    · rw [Image.outcome_eq hR (.testAttribute h o' attr') hm, testAttribute_image ho' hattr']
      rfl
    · rw [Image.outcome_eq hR (.testAttribute h o' attr') hm', testAttribute_image ho'' hattr',
        attributeOf_withAttribute ho ho'.1 hattr hattr']
      rfl
  · intro x k
    rw [Image.outcome_eq hR (.readLink h x k) hm, Image.outcome_eq hR (.readLink h x k) hm']
    exact Image.outcome_paired (readLink_alike hchanged ho.1 x k)
  · intro x hx
    rw [Image.outcome_eq hR (.propertyTable h x) hm, Image.outcome_eq hR (.propertyTable h x) hm']
    exact Image.outcome_paired (propertyTable_alike hchanged ho.1 hx)

/-- The last attribute of object 1, which shares its byte with one that is set
and lies next to the parent link. -/
theorem attributes_are_independent_last_bit :
    let h : Header := { (default : Header) with version := 5, objects := 64 }
    let image : Image := ⟨(Array.replicate 218 0).set! 195 2 |>.set! 197 2 |>.set! 204 0x80⟩
    HasRecord h image 1 ∧ HasRecord h image 2 ∧ (47 : UInt16).toNat < attributeLimit h ∧
      ∃ image', setAttribute h 1 47 image = .ok () image' ∧
        outcome (testAttribute h 1 47 image') = .ok true ∧
        outcome (testAttribute h 1 46 image') = outcome (testAttribute h 1 46 image) ∧
        outcome (testAttribute h 2 0 image') = outcome (testAttribute h 2 0 image) ∧
        outcome (readLink h 1 .parent image') = outcome (readLink h 1 .parent image) ∧
        image'.byteAt 197 = 2 := by
  intro h image
  have hone : HasRecord h image 1 := by decide +kernel
  have htwo : HasRecord h image 2 := by decide +kernel
  have hlast : (47 : UInt16).toNat < attributeLimit h := by decide
  obtain ⟨m', image', rfl, hok, hattributes, hlinks, -, -, hbytes⟩ :=
    attributes_are_independent MemorySim.refl rfl hone hlast true
  refine ⟨hone, htwo, hlast, m', hok, ?_, ?_, ?_, hlinks 1 .parent, ?_⟩
  · obtain ⟨old, -, hnew⟩ := hattributes 1 47 hone hlast
    exact hnew
  · obtain ⟨old, hold, hnew⟩ := hattributes 1 46 hone (by decide)
    rw [hold, hnew]
    rfl
  · obtain ⟨old, hold, hnew⟩ := hattributes 2 0 htwo (by decide)
    rw [hold, hnew]
    rfl
  · rw [hbytes 197 (by decide +kernel)]
    decide +kernel

end ZMachine.Object
