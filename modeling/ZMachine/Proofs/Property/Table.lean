import Mathlib.Tactic.MkIffOfInductiveProp
import ZMachine.Property
import ZMachine.Proofs.Image
import ZMachine.Proofs.Simulation.Story

/-!
# Property tables

A property table is a list of items, each a header and data, that lie one
behind the other up to a zero byte.  Three shapes of headers are in use: one
byte before version 4, and one or two bytes afterwards.  `Listed` says that a
list of items stands in an image.  Reading a header of the list gives its item
and the place of the next one, so the walk of `find` sees the items in order
and stops at the one it looks for, or where that one would be.
-/

namespace ZMachine.Property

/-- A property as it lies in a table. -/
structure Item where
  /-- Address of the header. -/
  address : Nat
  number : UInt16
  /-- Address of the data. -/
  data : Nat
  bytes : List UInt8
  deriving DecidableEq, Repr

/-- Address behind the data. -/
def Item.stop (i : Item) : Nat :=
  i.data + i.bytes.length

/-- The header of an item, read. -/
def Item.entry (i : Item) : Entry :=
  { address := i.address, number := i.number, data := i.data, size := i.bytes.length
    isByte := i.bytes.length = 1 }

/-! ## Headers -/

/-- One byte: the size less one in units of the numbers there are, and the
number. -/
@[mk_iff] structure ShortHeader (h : Header) (image : Image) (i : Item) : Prop where
  data_eq : i.data = i.address + 1
  size_pos : 1 ≤ i.bytes.length
  size_le : i.bytes.length ≤ if h.version < 4 then 8 else 2
  byte : (image.byteAt i.address).toNat =
    (i.bytes.length - 1) * h.propertyLimit + i.number.toNat

/-- Two bytes, both with their top bit set, of which the second has the size.
Size 64 is written as 0. -/
@[mk_iff] structure LongHeader (h : Header) (image : Image) (i : Item) : Prop where
  version_le : 4 ≤ h.version
  data_eq : i.data = i.address + 2
  size_ge : 3 ≤ i.bytes.length
  size_le : i.bytes.length ≤ 64
  first_top : 0x80 ≤ (image.byteAt i.address).toNat
  first_low : (image.byteAt i.address).toNat % 64 = i.number.toNat
  second_top : 0x80 ≤ (image.byteAt (i.address + 1)).toNat
  second_low : (image.byteAt (i.address + 1)).toNat % 64 = i.bytes.length % 64

/-- The item stands in the image. -/
@[mk_iff] structure Item.Stands (h : Header) (image : Image) (i : Item) : Prop where
  number_pos : 1 ≤ i.number.toNat
  number_lt : i.number.toNat < h.propertyLimit
  header : ShortHeader h image i ∨ LongHeader h image i
  data : ∀ k < i.bytes.length, i.bytes[k]? = some (image.byteAt (i.data + k))

instance (h : Header) (image : Image) (i : Item) : Decidable (ShortHeader h image i) :=
  decidable_of_iff' _ (shortHeader_iff h image i)

instance (h : Header) (image : Image) (i : Item) : Decidable (LongHeader h image i) :=
  decidable_of_iff' _ (longHeader_iff h image i)

instance (h : Header) (image : Image) (i : Item) : Decidable (i.Stands h image) :=
  decidable_of_iff' _ (Item.stands_iff h image i)

variable {h : Header} {image image' : Image} {items rest : List Item} {i : Item}

theorem toNat_and_low {b mask : UInt8} (k : Nat) (hmask : mask.toNat = Nat.pow 2 k - 1) :
    (b &&& mask).toNat = b.toNat % Nat.pow 2 k := by
  rw [UInt8.toNat_and, hmask]
  exact Nat.and_two_pow_sub_one_eq_mod _ _

theorem toNat_and_propertyMask (h : Header) (b : UInt8) :
    (b &&& h.propertyMask).toNat = b.toNat % h.propertyLimit := by
  unfold Header.propertyMask Header.propertyLimit
  split
  · exact toNat_and_low 5 rfl
  · exact toNat_and_low 6 rfl

theorem longSize_eq (hversion : 4 ≤ h.version) (b : UInt8) :
    longSize h b = if b.toNat % 64 = 0 then 64 else b.toNat % 64 := by
  have hmask : (b &&& h.propertySizeMask).toNat = b.toNat % 64 := by
    unfold Header.propertySizeMask
    rw [if_neg (UInt8.not_lt.mpr hversion)]
    exact toNat_and_low 6 rfl
  have hzero : b &&& h.propertySizeMask = 0 ↔ b.toNat % 64 = 0 := by
    rw [← UInt8.toNat_inj, hmask]
    rfl
  simp only [longSize, hzero, hmask]

theorem isLong_iff (h : Header) (b : UInt8) :
    isLong h b = true ↔ 4 ≤ h.version ∧ 0x80 ≤ b.toNat := by
  simp [isLong, UInt8.le_iff_toNat_le]

theorem ShortHeader.not_isLong (hshort : ShortHeader h image i)
    (hnumber : i.number.toNat < h.propertyLimit) :
    isLong h (image.byteAt i.address) = false := by
  have hbyte := hshort.byte
  have hsize := hshort.size_le
  rw [Bool.eq_false_iff, ne_eq, isLong_iff]
  rintro ⟨hversion, htop⟩
  have hlate : ¬ h.version < 4 := UInt8.not_lt.mpr hversion
  simp only [Header.propertyLimit, hlate, if_false] at hbyte hsize hnumber
  omega

theorem ShortHeader.shortSize_eq (hshort : ShortHeader h image i)
    (hnumber : i.number.toNat < h.propertyLimit) :
    shortSize h (image.byteAt i.address) = i.bytes.length := by
  have hbyte := hshort.byte
  have hpos := hshort.size_pos
  have hsize := hshort.size_le
  unfold shortSize
  by_cases hversion : h.version < 4
  · simp only [Header.propertyLimit, hversion, if_true] at hbyte hsize hnumber ⊢
    omega
  · simp only [Header.propertyLimit, hversion, if_false] at hbyte hsize hnumber ⊢
    omega

theorem LongHeader.longSize_eq (hlong : LongHeader h image i) :
    longSize h (image.byteAt (i.address + 1)) = i.bytes.length := by
  have hlow := hlong.second_low
  have hge := hlong.size_ge
  have hle := hlong.size_le
  rw [Property.longSize_eq hlong.version_le]
  split <;> omega

theorem Item.Stands.number_eq (hi : i.Stands h image) :
    (image.byteAt i.address &&& h.propertyMask).toUInt16 = i.number := by
  have hnumber := hi.number_lt
  apply UInt16.toNat_inj.mp
  rw [UInt8.toNat_toUInt16, toNat_and_propertyMask]
  rcases hi.header with hshort | hlong
  · rw [hshort.byte, Nat.mul_comm, Nat.mul_add_mod, Nat.mod_eq_of_lt hnumber]
  · have hlate : ¬ h.version < 4 := UInt8.not_lt.mpr hlong.version_le
    simp only [Header.propertyLimit, hlate, if_false]
    exact hlong.first_low

theorem Item.Stands.number_ne_zero (hi : i.Stands h image) : i.number ≠ 0 := by
  intro hzero
  have hpos := hi.number_pos
  simp [hzero] at hpos

theorem Item.Stands.readEntry_image (hi : i.Stands h image) (hroom : i.stop ≤ image.bytes.size) :
    (readEntry h i.address : MemoryM Image Entry) image = .ok i.entry image := by
  unfold Item.stop at hroom
  unfold readEntry
  rcases hi.header with hshort | hlong
  · have hdata := hshort.data_eq
    have hpos := hshort.size_pos
    rw [bind_ok (Image.readByte_of_lt (by omega))]
    simp only [hi.number_eq, hshort.not_isLong hi.number_lt, hshort.shortSize_eq hi.number_lt]
    simp [Item.entry, hdata, pure, EStateM.pure]
  · have hdata := hlong.data_eq
    have hsize := hlong.size_ge
    have hislong := (isLong_iff h _).mpr ⟨hlong.version_le, hlong.first_top⟩
    have hword : ¬ i.bytes.length = 1 := by omega
    rw [bind_ok (Image.readByte_of_lt (by omega))]
    simp only [hi.number_eq, hislong, if_true]
    rw [bind_ok (Image.readByte_of_lt (by omega)), hlong.longSize_eq]
    simp [Item.entry, hdata, hword, pure, EStateM.pure]

theorem readEntry_end {a : Nat} (ha : a < image.bytes.size) (hzero : image.byteAt a = 0) :
    ∃ e : Entry, e.number = 0 ∧
      (readEntry h a : MemoryM Image Entry) image = .ok e image := by
  have hshort : isLong h 0 = false := by simp [isLong]
  have hnumber : ((0 : UInt8) &&& h.propertyMask).toUInt16 = 0 := by simp
  unfold readEntry
  rw [bind_ok (Image.readByte_of_lt ha), hzero]
  simp only [hshort, hnumber]
  exact ⟨_, rfl, rfl⟩

/-! ## Lists of items -/

/-- The items lie one behind the other from an address on, up to a zero byte. -/
def Listed (h : Header) (image : Image) : Nat → List Item → Prop
  | a, [] => a < image.bytes.size ∧ image.byteAt a = 0
  | a, i :: rest => i.address = a ∧ i.Stands h image ∧ Listed h image i.stop rest

instance Listed.decidable (h : Header) (image : Image) :
    (a : Nat) → (items : List Item) → Decidable (Listed h image a items)
  | a, [] => inferInstanceAs (Decidable (a < image.bytes.size ∧ image.byteAt a = 0))
  | a, i :: rest =>
    have := Listed.decidable h image i.stop rest
    inferInstanceAs (Decidable (i.address = a ∧ i.Stands h image ∧ Listed h image i.stop rest))

/-- Address of the zero byte behind the items. -/
def stopOf : Nat → List Item → Nat
  | a, [] => a
  | _, i :: rest => stopOf i.stop rest

theorem Item.Stands.bounds (hi : i.Stands h image) :
    i.address < i.data ∧ i.data < i.stop := by
  unfold Item.stop
  rcases hi.header with hshort | hlong
  · have hdata := hshort.data_eq
    have hpos := hshort.size_pos
    omega
  · have hdata := hlong.data_eq
    have hsize := hlong.size_ge
    omega

theorem Listed.add_length_le {a : Nat} (hitems : Listed h image a items) :
    a + items.length ≤ stopOf a items := by
  induction items generalizing a with
  | nil => exact Nat.le_refl a
  | cons i rest ih =>
      obtain ⟨rfl, hi, hrest⟩ := hitems
      have hbounds := hi.bounds
      have hle := ih hrest
      simp only [List.length_cons, stopOf]
      omega

theorem Listed.stopOf_lt {a : Nat} (hitems : Listed h image a items) :
    stopOf a items < image.bytes.size := by
  induction items generalizing a with
  | nil => exact hitems.1
  | cons i rest ih => exact ih hitems.2.2

theorem Listed.suffix {a : Nat} {front : List Item} (hitems : Listed h image a (front ++ rest)) :
    Listed h image (stopOf a front) rest := by
  induction front generalizing a with
  | nil => exact hitems
  | cons i front ih => exact ih hitems.2.2

theorem Listed.mem {a : Nat} (hitems : Listed h image a items) (hi : i ∈ items) :
    i.Stands h image ∧ a ≤ i.address ∧ i.stop ≤ stopOf a items := by
  induction items generalizing a with
  | nil => cases hi
  | cons j rest ih =>
      obtain ⟨rfl, hj, hrest⟩ := hitems
      have hbounds := hj.bounds
      have hlength := hrest.add_length_le
      rcases List.mem_cons.mp hi with rfl | hi
      · refine ⟨hj, Nat.le_refl _, ?_⟩
        simp only [stopOf]
        omega
      · obtain ⟨hstands, hlow, hhigh⟩ := ih hrest hi
        exact ⟨hstands, by omega, hhigh⟩

theorem Listed.readEntry_mem {a : Nat} (hitems : Listed h image a items) (hi : i ∈ items) :
    (readEntry h i.address : MemoryM Image Entry) image = .ok i.entry image := by
  obtain ⟨hstands, -, hstop⟩ := hitems.mem hi
  have hlt := hitems.stopOf_lt
  exact hstands.readEntry_image (by omega)

/-- The number of the header where a list starts, and 0 where it ends. -/
def headNumber (items : List Item) : UInt16 :=
  (items.head?.map Item.number).getD 0

theorem Listed.readEntry_head {a : Nat} (hitems : Listed h image a items) :
    ∃ e : Entry, e.number = headNumber items ∧
      (readEntry h a : MemoryM Image Entry) image = .ok e image := by
  cases items with
  | nil => exact readEntry_end hitems.1 hitems.2
  | cons i rest =>
      have hread := hitems.readEntry_mem List.mem_cons_self
      rw [hitems.1] at hread
      exact ⟨i.entry, rfl, hread⟩

/-! ## Walking down the list -/

/-- Numbers fall along the list. -/
def Descending (items : List Item) : Prop :=
  items.Pairwise fun i j => j.number < i.number

instance (items : List Item) : Decidable (Descending items) :=
  inferInstanceAs (Decidable (items.Pairwise _))

/-- The item of a number. -/
def lookup (items : List Item) (property : UInt16) : Option Item :=
  items.find? fun i => i.number = property

theorem lookup_eq_none_of_lt {property : UInt16} (hlow : ∀ i ∈ items, i.number < property) :
    lookup items property = none := by
  unfold lookup
  rw [List.find?_eq_none]
  intro i hi
  simpa using UInt16.ne_of_lt (hlow i hi)

theorem lookup_eq_some_iff (hitems : Descending items) {property : UInt16} :
    lookup items property = some i ↔ i ∈ items ∧ i.number = property := by
  unfold lookup
  constructor
  · intro hfind
    exact ⟨List.mem_of_find?_eq_some hfind, by simpa using List.find?_some hfind⟩
  · rintro ⟨hi, rfl⟩
    obtain ⟨front, rest, rfl⟩ := List.append_of_mem hi
    rw [List.find?_append, List.find?_eq_none.mpr]
    · simp
    · intro j hj
      have hlt := (List.pairwise_append.mp hitems).2.2 j hj i List.mem_cons_self
      simpa using (UInt16.ne_of_lt hlt).symm

/-- What `find` answers about the entry where the walk stopped. -/
def hit (property : UInt16) (e : Entry) : Option Entry :=
  if e.number = property ∧ property ≠ 0 then some e else none

/-- The walk stops at the item of its number, if there is one.  The induction
follows the list: an item above the number is left behind, and below it no
later one can have it. -/
theorem Listed.descend_image {a fuel : Nat} (hitems : Listed h image a items)
    (hdesc : Descending items) (hfuel : items.length < fuel) (property : UInt16) :
    ∃ e, (descend h property fuel a : MemoryM Image Entry) image = .ok e image ∧
      hit property e = (lookup items property).map Item.entry := by
  induction items generalizing a fuel with
  | nil =>
      obtain ⟨fuel, rfl⟩ := Nat.exists_eq_add_one_of_ne_zero (Nat.ne_zero_of_lt hfuel)
      obtain ⟨e, hnumber, hread⟩ := hitems.readEntry_head
      replace hnumber : e.number = 0 := hnumber
      refine ⟨e, ?_, ?_⟩
      · unfold descend
        rw [bind_ok hread, if_neg (by simp [hnumber])]
        rfl
      · simp +contextual [hit, lookup, hnumber, eq_comm]
  | cons i rest ih =>
      obtain ⟨fuel, rfl⟩ := Nat.exists_eq_add_one_of_ne_zero (Nat.ne_zero_of_lt hfuel)
      obtain ⟨habove, hdesc⟩ := List.pairwise_cons.mp hdesc
      have hread := hitems.readEntry_mem List.mem_cons_self
      obtain ⟨rfl, hi, hrest⟩ := hitems
      by_cases hlt : property < i.number
      · obtain ⟨e, hwalk, hhit⟩ := ih hrest hdesc (Nat.lt_of_succ_lt_succ hfuel)
        refine ⟨e, ?_, ?_⟩
        · unfold descend
          rw [bind_ok hread, if_pos (by exact hlt)]
          exact hwalk
        · rw [hhit, lookup, lookup, List.find?_cons_of_neg]
          simpa using (UInt16.ne_of_lt hlt).symm
      · refine ⟨i.entry, ?_, ?_⟩
        · unfold descend
          rw [bind_ok hread, if_neg (by exact hlt)]
          rfl
        · by_cases heq : i.number = property
          · have hne : property ≠ 0 := heq ▸ hi.number_ne_zero
            simp [hit, lookup, Item.entry, heq, hne]
          · have hbelow : i.number < property :=
              UInt16.lt_of_le_of_ne (UInt16.not_lt.mp hlt) heq
            have hnone : lookup rest property = none :=
              lookup_eq_none_of_lt fun j hj => UInt16.lt_trans (habove j hj) hbelow
            rw [lookup, List.find?_cons_of_neg (by simpa using heq), ← lookup, hnone]
            simp [hit, Item.entry, heq]

end ZMachine.Property
