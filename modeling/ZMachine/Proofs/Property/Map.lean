import ZMachine.Proofs.Property.Table

/-!
# Properties as a finite map

The operations on properties read and write the list of items of an object's
table as a finite map from numbers to data.  The header of a property is
decoded twice: going forward by the walk and going backward, from the data, by
`length`.  Both give the size that the table was laid out with.  Writing a
property stays inside its data, so what is left is again a table, with one
item changed.
-/

namespace ZMachine.Property

variable {h : Header} {image image' : Image} {items rest : List Item} {i j : Item}
variable {object property value : UInt16} {a : Nat}

/-! ## The table of an object -/

/-- Address of the property table of an object. -/
def tableOf (h : Header) (image : Image) (object : UInt16) : Nat :=
  (image.wordAt (Object.address h object + if h.version < 4 then 7 else 12)).toNat

/-- Address of the first header, behind the object's name. -/
def firstOf (h : Header) (image : Image) (object : UInt16) : Nat :=
  tableOf h image object + (image.byteAt (tableOf h image object)).toNat * 2 + 1

theorem tableOf_lt_firstOf (h : Header) (image : Image) (object : UInt16) :
    tableOf h image object < firstOf h image object := by
  unfold firstOf
  omega

/-- The items are the property table of the object. -/
@[mk_iff]
structure Table (h : Header) (image : Image) (object : UInt16) (items : List Item) : Prop where
  object_ne : object ≠ 0
  record : Object.address h object + h.objectSize ≤ image.bytes.size
  listed : Listed h image (firstOf h image object) items
  descending : Descending items
  low : stopOf (firstOf h image object) items < 0x10000
  apart : stopOf (firstOf h image object) items < Object.address h object ∨
    Object.address h object + h.objectSize ≤ tableOf h image object

instance (h : Header) (image : Image) (object : UInt16) (items : List Item) :
    Decidable (Table h image object items) :=
  decidable_of_iff' _ (table_iff h image object items)

theorem Table.firstOf_lt (ht : Table h image object items) :
    firstOf h image object < image.bytes.size := by
  have hlength := ht.listed.add_length_le
  have hstop := ht.listed.stopOf_lt
  omega

theorem Table.first_image (ht : Table h image object items) :
    (first h object : MemoryM Image Nat) image = .ok (firstOf h image object) image := by
  have hrecord := ht.record
  have hfirst := ht.firstOf_lt
  have hname := tableOf_lt_firstOf h image object
  have htable : (Object.propertyTable h object : MemoryM Image Nat) image =
      .ok (tableOf h image object) image := by
    have hword : Object.address h object + (if h.version < 4 then 7 else 12) + 1 <
        image.bytes.size := by
      unfold Header.objectSize at hrecord
      split at hrecord <;> simp only [*, if_true, if_false] <;> omega
    unfold Object.propertyTable
    rw [bind_ok (Image.readWord_of_lt hword)]
    rfl
  unfold first
  rw [bind_ok htable, bind_ok (Image.readByte_of_lt (by omega))]
  rfl

theorem Table.find_image (ht : Table h image object items) (property : UInt16) :
    (find h object property : MemoryM Image (Option Entry)) image =
      .ok ((lookup items property).map Item.entry) image := by
  have hlength := ht.listed.add_length_le
  have hstop := ht.listed.stopOf_lt
  have hfuel : items.length < image.bytes.size + 1 := by omega
  obtain ⟨e, hwalk, hhit⟩ := ht.listed.descend_image ht.descending hfuel property
  have hsize : (Memory.size : MemoryM Image Nat) image = .ok image.bytes.size image := rfl
  unfold find
  rw [bind_ok ht.first_image, bind_ok hsize, bind_ok hwalk, ← hhit]
  rfl

theorem Table.find_of_mem (ht : Table h image object items) (hi : i ∈ items) :
    (find h object i.number : MemoryM Image (Option Entry)) image = .ok (some i.entry) image := by
  rw [ht.find_image, (lookup_eq_some_iff ht.descending).mpr ⟨hi, rfl⟩]
  rfl

theorem Table.find_of_absent (ht : Table h image object items)
    (habsent : ∀ i ∈ items, i.number ≠ property) :
    (find h object property : MemoryM Image (Option Entry)) image = .ok none image := by
  have hnone : lookup items property = none := by
    unfold lookup
    rw [List.find?_eq_none]
    simpa using habsent
  rw [ht.find_image, hnone]
  rfl

/-! ## Looking properties up -/

/-- The value of data: a single byte, or the word that the first two make. -/
def valueOf : List UInt8 → UInt16
  | [] => 0
  | [b] => b.toUInt16
  | b :: c :: _ => wordOfBytes b c

theorem Item.Stands.valueOf_eq (hi : i.Stands h image) :
    valueOf i.bytes =
      if i.bytes.length = 1 then (image.byteAt i.data).toUInt16 else image.wordAt i.data := by
  have hbounds := hi.bounds
  have hdata := hi.data
  unfold Item.stop at hbounds
  match hbytes : i.bytes with
  | [] => simp [hbytes] at hbounds
  | [b] =>
      have hb : b = image.byteAt i.data := by simpa [hbytes] using hdata 0
      simp [valueOf, hb]
  | b :: c :: tail =>
      have hb : b = image.byteAt i.data := by simpa [hbytes] using hdata 0
      have hc : c = image.byteAt (i.data + 1) := by simpa [hbytes] using hdata 1
      simp [valueOf, hb, hc, Image.wordAt]

theorem Table.get_of_mem (ht : Table h image object items) (hi : i ∈ items) :
    (get h object i.number : MemoryM Image UInt16) image = .ok (valueOf i.bytes) image := by
  obtain ⟨hstands, -, hstop⟩ := ht.listed.mem hi
  have hbounds := hstands.bounds
  have hlt := ht.listed.stopOf_lt
  unfold get
  rw [if_neg ht.object_ne, bind_ok (ht.find_of_mem hi), hstands.valueOf_eq]
  by_cases hbyte : i.bytes.length = 1
  · simp only [Item.entry, hbyte, decide_true, if_true]
    rw [bind_ok (Image.readByte_of_lt (by omega))]
    rfl
  · simp only [Item.entry, hbyte, decide_false, Bool.false_eq_true, if_false]
    unfold Item.stop at hbounds hstop
    exact Image.readWord_of_lt (by omega)

/-- The word for a property in the table of defaults. -/
def defaultOf (h : Header) (image : Image) (property : UInt16) : UInt16 :=
  image.wordAt (h.objects.toNat + (property.toNat - 1) * 2)

theorem Table.get_of_absent (ht : Table h image object items)
    (habsent : ∀ i ∈ items, i.number ≠ property) (hpos : 1 ≤ property.toNat)
    (hlimit : property.toNat < h.propertyLimit) :
    (get h object property : MemoryM Image UInt16) image =
      .ok (defaultOf h image property) image := by
  have hrecord := ht.record
  unfold Object.address at hrecord
  unfold get default defaultOf
  rw [if_neg ht.object_ne, bind_ok (ht.find_of_absent habsent)]
  exact Image.readWord_of_lt (by omega)

theorem Table.dataAddress_of_mem (ht : Table h image object items) (hi : i ∈ items) :
    (dataAddress h object i.number : MemoryM Image UInt16) image =
      .ok (UInt16.ofNat i.data) image := by
  unfold dataAddress
  rw [if_neg ht.object_ne, bind_ok (ht.find_of_mem hi)]
  rfl

theorem Table.dataAddress_of_absent (ht : Table h image object items)
    (habsent : ∀ i ∈ items, i.number ≠ property) :
    (dataAddress h object property : MemoryM Image UInt16) image = .ok 0 image := by
  unfold dataAddress
  rw [if_neg ht.object_ne, bind_ok (ht.find_of_absent habsent)]
  rfl

theorem Table.toNat_data (ht : Table h image object items) (hi : i ∈ items) :
    (UInt16.ofNat i.data).toNat = i.data := by
  obtain ⟨hstands, -, hstop⟩ := ht.listed.mem hi
  have hbounds := hstands.bounds
  have hlow := ht.low
  exact UInt16.toNat_ofNat_of_lt' (by simp [UInt16.size]; omega)

theorem Table.data_ne_zero (ht : Table h image object items) (hi : i ∈ items) :
    UInt16.ofNat i.data ≠ 0 := by
  intro hzero
  have hdata := ht.toNat_data hi
  have hbounds := (ht.listed.mem hi).1.bounds
  rw [hzero] at hdata
  simp at hdata
  omega

theorem Item.Stands.length_le (hi : i.Stands h image) : i.bytes.length ≤ 64 := by
  rcases hi.header with hshort | hlong
  · have hsize := hshort.size_le
    split at hsize <;> omega
  · exact hlong.size_le

/-- The byte before the data gives the size, whichever byte of the header it
is. -/
theorem Table.length_of_mem (ht : Table h image object items) (hi : i ∈ items) :
    (length h (UInt16.ofNat i.data) : MemoryM Image UInt16) image =
      .ok (UInt16.ofNat i.bytes.length) image := by
  obtain ⟨hstands, -, hstop⟩ := ht.listed.mem hi
  have hbounds := hstands.bounds
  have hlt := ht.listed.stopOf_lt
  unfold length
  rw [if_neg (ht.data_ne_zero hi), ht.toNat_data hi, bind_ok (Image.readByte_of_lt (by omega))]
  rcases hstands.header with hshort | hlong
  · have hbefore : i.data - 1 = i.address := by
      have hdata := hshort.data_eq
      omega
    rw [hbefore, hshort.not_isLong hstands.number_lt, hshort.shortSize_eq hstands.number_lt]
    rfl
  · have hbefore : i.data - 1 = i.address + 1 := by
      have hdata := hlong.data_eq
      omega
    rw [hbefore, (isLong_iff h _).mpr ⟨hlong.version_le, hlong.second_top⟩, hlong.longSize_eq]
    rfl

/-! ## Going through the numbers -/

/-- The number of the last item, and 0 before the first one. -/
def lastNumber (items : List Item) : UInt16 :=
  (items.getLast?.map Item.number).getD 0

theorem stopOf_concat (a : Nat) (front : List Item) (i : Item) :
    stopOf a (front ++ [i]) = i.stop := by
  induction front generalizing a with
  | nil => rfl
  | cons j front ih => exact ih j.stop

theorem Table.next_image {front : List Item} (ht : Table h image object (front ++ rest)) :
    (next h object (lastNumber front) : MemoryM Image UInt16) image =
      .ok (headNumber rest) image := by
  obtain ⟨e, hnumber, hread⟩ := ht.listed.suffix.readEntry_head
  unfold next
  rw [if_neg ht.object_ne, ← hnumber]
  rcases List.eq_nil_or_concat front with rfl | ⟨before, i, hfront⟩
  · have hlast : lastNumber [] = 0 := rfl
    rw [hlast, if_pos rfl, bind_ok ht.first_image]
    exact bind_ok hread
  · obtain rfl := hfront.trans List.concat_eq_append
    have hi : i ∈ before ++ [i] ++ rest := by simp
    have hne := (ht.listed.mem hi).1.number_ne_zero
    have hlast : lastNumber (before ++ [i]) = i.number := by simp [lastNumber]
    rw [stopOf_concat] at hread
    rw [hlast, if_neg hne, bind_ok (ht.find_of_mem hi)]
    exact bind_ok hread

theorem Table.next_of_absent (ht : Table h image object items)
    (habsent : ∀ i ∈ items, i.number ≠ property) (hne : property ≠ 0) :
    (next h object property : MemoryM Image UInt16) image =
      .error (.missingProperty object property) image := by
  unfold next
  rw [if_neg ht.object_ne, if_neg hne, bind_ok (ht.find_of_absent habsent)]
  rfl

section

variable {M : Type} [AddressSpace M]

/-- What `next` answers from a number on, up to the first 0, if that comes in
time. -/
def numbersFrom (h : Header) (object : UInt16) : (fuel : Nat) → UInt16 → MemoryM M (List UInt16)
  | 0, _ => return []
  | fuel + 1, property => do
    let number ← next h object property
    if number = 0 then return [0]
    return number :: (← numbersFrom h object fuel number)

end

theorem parametric_numbersFrom {M N : Type} [AddressSpace M] [AddressSpace N] (h : Header)
    (object : UInt16) (fuel : Nat) (property : UInt16) :
    Parametric (numbersFrom h object fuel property : MemoryM M _)
      (numbersFrom h object fuel property : MemoryM N _) := by
  induction fuel generalizing property with
  | zero => exact .pure _
  | succ fuel ih =>
      refine .bind (.nextProperty h object property) fun number => ?_
      refine .ite (fun _ => .pure _) fun _ => ?_
      exact .bind (ih number) fun numbers => .pure _

theorem Table.numbersFrom_image {front : List Item} {fuel : Nat}
    (ht : Table h image object (front ++ rest)) (hfuel : rest.length < fuel) :
    (numbersFrom h object fuel (lastNumber front) : MemoryM Image (List UInt16)) image =
      .ok (rest.map Item.number ++ [0]) image := by
  induction rest generalizing front fuel with
  | nil =>
      obtain ⟨fuel, rfl⟩ := Nat.exists_eq_add_one_of_ne_zero (Nat.ne_zero_of_lt hfuel)
      unfold numbersFrom
      rw [bind_ok ht.next_image]
      rfl
  | cons i rest ih =>
      obtain ⟨fuel, rfl⟩ := Nat.exists_eq_add_one_of_ne_zero (Nat.ne_zero_of_lt hfuel)
      have hne : headNumber (i :: rest) ≠ 0 :=
        (ht.listed.mem (i := i) (by simp)).1.number_ne_zero
      have hlast : lastNumber (front ++ [i]) = headNumber (i :: rest) := by
        simp [lastNumber, headNumber]
      have ht' : Table h image object (front ++ [i] ++ rest) := by simpa using ht
      have hrest := ih ht' (Nat.lt_of_succ_lt_succ hfuel)
      rw [hlast] at hrest
      unfold numbersFrom
      rw [bind_ok ht.next_image, if_neg hne, bind_ok hrest]
      rfl

/-! ## Writing -/

/-- Data with its value replaced. -/
def overwrite (value : UInt16) : List UInt8 → List UInt8
  | [] => []
  | [_] => [lowByte value]
  | _ :: _ :: tail => highByte value :: lowByte value :: tail

@[simp] theorem length_overwrite (value : UInt16) (bytes : List UInt8) :
    (overwrite value bytes).length = bytes.length := by
  match bytes with
  | [] | [_] | _ :: _ :: _ => simp [overwrite]

/-- The items with other data. -/
def refill (fill : Item → List UInt8) (items : List Item) : List Item :=
  items.map fun i => { i with bytes := fill i }

/-- The items with another value for a number. -/
def assign (property value : UInt16) (items : List Item) : List Item :=
  refill (fun i => if i.number = property then overwrite value i.bytes else i.bytes) items

theorem Item.Stands.refill {bytes : List UInt8} (hi : i.Stands h image)
    (hheader : ∀ x, i.address ≤ x → x < i.data → image'.byteAt x = image.byteAt x)
    (hlength : bytes.length = i.bytes.length)
    (hdata : ∀ k < bytes.length, bytes[k]? = some (image'.byteAt (i.data + k))) :
    ({ i with bytes := bytes } : Item).Stands h image' := by
  have hfirst := hheader i.address (Nat.le_refl _) hi.bounds.1
  refine ⟨hi.number_pos, hi.number_lt, ?_, hdata⟩
  rcases hi.header with hshort | hlong
  · obtain ⟨hdata_eq, hpos, hle, hbyte⟩ := hshort
    left
    constructor <;> simpa only [hlength, hfirst]
  · have hsecond : image'.byteAt (i.address + 1) = image.byteAt (i.address + 1) := by
      have hdata_eq := hlong.data_eq
      exact hheader _ (by omega) (by omega)
    obtain ⟨hversion, hdata_eq, hge, hle, htop, hlow, htop', hlow'⟩ := hlong
    right
    constructor <;> simpa only [hlength, hfirst, hsecond]

theorem Listed.refill {fill : Item → List UInt8} (hitems : Listed h image a items)
    (hsize : image'.bytes.size = image.bytes.size)
    (hheader : ∀ i ∈ items, ∀ x, i.address ≤ x → x < i.data → image'.byteAt x = image.byteAt x)
    (hend : image'.byteAt (stopOf a items) = image.byteAt (stopOf a items))
    (hlength : ∀ i ∈ items, (fill i).length = i.bytes.length)
    (hdata : ∀ i ∈ items, ∀ k < (fill i).length,
      (fill i)[k]? = some (image'.byteAt (i.data + k))) :
    Listed h image' a (refill fill items) ∧ stopOf a (refill fill items) = stopOf a items := by
  induction items generalizing a with
  | nil => exact ⟨⟨hsize ▸ hitems.1, hend.trans hitems.2⟩, rfl⟩
  | cons i rest ih =>
      obtain ⟨rfl, hi, hrest⟩ := hitems
      simp only [List.forall_mem_cons] at hheader hlength hdata
      have hstop : ({ i with bytes := fill i } : Item).stop = i.stop := by
        simp only [Item.stop, hlength.1]
      obtain ⟨hlisted, hstopOf⟩ := ih hrest hheader.2 hend hlength.2 hdata.2
      refine ⟨⟨rfl, hi.refill hheader.1 hlength.1 hdata.1, ?_⟩, ?_⟩
      · rw [hstop]
        exact hlisted
      · simp only [stopOf]
        rw [← hstopOf, ← hstop]
        rfl

theorem Listed.apart (hitems : Listed h image a items) (hi : i ∈ items) (hj : j ∈ items)
    (hne : i ≠ j) : i.stop ≤ j.address ∨ j.stop ≤ i.address := by
  induction items generalizing a with
  | nil => cases hi
  | cons k rest ih =>
      obtain ⟨rfl, -, hrest⟩ := hitems
      rcases List.mem_cons.mp hi with rfl | hi' <;> rcases List.mem_cons.mp hj with rfl | hj'
      · exact absurd rfl hne
      · exact .inl (hrest.mem hj').2.1
      · exact .inr (hrest.mem hi').2.1
      · exact ih hrest hi' hj'

/-- The data of an item got another value and nothing else changed. -/
structure Item.Overwritten (i : Item) (value : UInt16) (image image' : Image) : Prop where
  size_eq : image'.bytes.size = image.bytes.size
  byteAt_eq : ∀ x, x < i.data ∨ i.stop ≤ x → image'.byteAt x = image.byteAt x
  data : ∀ k < i.bytes.length,
    (overwrite value i.bytes)[k]? = some (image'.byteAt (i.data + k))

theorem Table.put_of_mem (ht : Table h image object items) (hi : i ∈ items) (value : UInt16) :
    ∃ image', i.Overwritten value image image' ∧
      (put h object i.number value : MemoryM Image Unit) image = .ok () image' := by
  obtain ⟨hstands, -, hstop⟩ := ht.listed.mem hi
  have hbounds := hstands.bounds
  have hlt := ht.listed.stopOf_lt
  have hdata := hstands.data
  unfold put
  rw [if_neg ht.object_ne, bind_ok (ht.find_of_mem hi)]
  unfold Item.stop at hbounds hstop
  rcases hbytes : i.bytes with _ | ⟨b, _ | ⟨c, tail⟩⟩
  · simp [hbytes] at hbounds
  · simp only [Item.entry, hbytes, List.length_singleton, decide_true, if_true]
    rw [Image.writeByte_of_lt (by omega)]
    refine ⟨_, ⟨Image.size_poke .., ?_, ?_⟩, rfl⟩
    · intro x hx
      apply Image.byteAt_poke_of_ne
      simp only [Item.stop, hbytes, List.length_singleton] at hx
      omega
    · intro k hk
      obtain rfl : k = 0 := by simpa [hbytes] using hk
      rw [Nat.add_zero, Image.byteAt_poke_self (by omega), hbytes]
      rfl
  · simp only [hbytes, List.length_cons] at hbounds hstop
    simp only [Item.entry, hbytes, List.length_cons]
    rw [if_neg (by simp), Image.writeWord_of_lt (by omega)]
    refine ⟨_, ⟨Image.size_pokeWord .., ?_, ?_⟩, rfl⟩
    · intro x hx
      apply Image.byteAt_pokeWord_of_ne
      simp only [Item.stop, hbytes, List.length_cons] at hx
      omega
    · intro k hk
      rcases k with _ | _ | k
      · rw [Nat.add_zero, Image.byteAt_pokeWord_high (by omega), hbytes]
        rfl
      · rw [Image.byteAt_pokeWord_low (by omega), hbytes]
        rfl
      · rw [Image.byteAt_pokeWord_of_ne _ (by omega), ← hdata (k + 2) hk, hbytes]
        rfl

theorem Table.put_of_absent (ht : Table h image object items)
    (habsent : ∀ i ∈ items, i.number ≠ property) (value : UInt16) :
    (put h object property value : MemoryM Image Unit) image =
      .error (.missingProperty object property) image := by
  unfold put
  rw [if_neg ht.object_ne, bind_ok (ht.find_of_absent habsent)]
  rfl

theorem Descending.eq_of_number (hitems : Descending items) (hi : i ∈ items) (hj : j ∈ items)
    (hnumber : i.number = j.number) : i = j := by
  have hfind := (lookup_eq_some_iff hitems).mpr ⟨hi, hnumber⟩
  rw [(lookup_eq_some_iff hitems).mpr ⟨hj, rfl⟩] at hfind
  exact (Option.some.inj hfind).symm

/-- The table behind a write.  The record and the name lie outside the data
that changed, so the table is found where it was. -/
theorem Table.assign (ht : Table h image object items) (hi : i ∈ items)
    (hdone : i.Overwritten value image image') :
    Table h image' object (assign i.number value items) := by
  have hrecord := ht.record
  have hapart := ht.apart
  obtain ⟨hstands, hfirst, hstop⟩ := ht.listed.mem hi
  have hbounds := hstands.bounds
  have hsame := hdone.byteAt_eq
  have hname := tableOf_lt_firstOf h image object
  have htable : tableOf h image' object = tableOf h image object := by
    have hoffset : (if h.version < 4 then 7 else 12) + 1 < h.objectSize := by
      unfold Header.objectSize
      split <;> omega
    unfold tableOf Image.wordAt
    rw [hsame _ (by omega), hsame _ (by omega)]
  have hfirstOf : firstOf h image' object = firstOf h image object := by
    unfold firstOf
    rw [htable, hsame _ (by omega)]
  have hlisted : Listed h image' (firstOf h image object) (Property.assign i.number value items) ∧
      stopOf (firstOf h image object) (Property.assign i.number value items) =
        stopOf (firstOf h image object) items := by
    apply ht.listed.refill hdone.size_eq
    · intro j hj x hlow hhigh
      apply hsame
      by_cases hij : i = j
      · exact .inl (hij ▸ hhigh)
      · have hjstop := (ht.listed.mem hj).1.bounds
        have hdisjoint := ht.listed.apart hi hj hij
        omega
    · exact hsame _ (.inr hstop)
    · intro j _
      split
      · exact length_overwrite ..
      · rfl
    · intro j hj k hk
      by_cases hnumber : j.number = i.number
      · obtain rfl := ht.descending.eq_of_number hj hi hnumber
        rw [if_pos rfl] at hk ⊢
        exact hdone.data k (by simpa using hk)
      · rw [if_neg hnumber] at hk ⊢
        have hjbounds := (ht.listed.mem hj).1.bounds
        have hdisjoint := ht.listed.apart hi hj fun hij => hnumber (congrArg _ hij.symm)
        rw [hsame _ (by unfold Item.stop at *; omega)]
        exact (ht.listed.mem hj).1.data k hk
  constructor
  · exact ht.object_ne
  · rw [hdone.size_eq]
    exact hrecord
  · rw [hfirstOf]
    exact hlisted.1
  · unfold Descending Property.assign refill
    rw [List.pairwise_map]
    exact ht.descending
  · rw [hfirstOf, hlisted.2]
    exact ht.low
  · rw [hfirstOf, htable, hlisted.2]
    exact hapart

/-! ## The laws -/

section

variable {M α : Type} [AddressSpace M]

/-- The computation answers `x` and leaves the memory showing the image. -/
def Answers (R : M → Image → Prop) (image : Image) (m : M) (c : MemoryM M α) (x : α) : Prop :=
  ∃ m', R m' image ∧ c m = .ok x m'

def Fails (R : M → Image → Prop) (image : Image) (m : M) (c : MemoryM M α) (e : Fault) : Prop :=
  ∃ m', R m' image ∧ c m = .error e m'

/-- The operations on properties are those of a finite map. -/
theorem table_is_finite_map {R : M → Image → Prop} (hR : MemorySim True R) {m : M}
    (hm : R m image) (ht : Table h image object items) :
    (∀ property, Answers R image m (find h object property)
      ((lookup items property).map Item.entry)) ∧
    (∀ i ∈ items, ∃ data size : UInt16,
      data.toNat = i.data ∧ data ≠ 0 ∧ size.toNat = i.bytes.length ∧
      Answers R image m (dataAddress h object i.number) data ∧
      Answers R image m (length h data) size ∧
      Answers R image m (get h object i.number) (valueOf i.bytes) ∧
      ∀ value, ∃ m' image', R m' image' ∧ put h object i.number value m = .ok () m' ∧
        Table h image' object (assign i.number value items) ∧
        image'.bytes.size = image.bytes.size ∧
        ∀ x, x < i.data ∨ i.stop ≤ x → image'.byteAt x = image.byteAt x) ∧
    (∀ property, (∀ i ∈ items, i.number ≠ property) →
      Answers R image m (dataAddress h object property) 0 ∧
      (1 ≤ property.toNat → property.toNat < h.propertyLimit →
        Answers R image m (get h object property) (defaultOf h image property)) ∧
      (property ≠ 0 →
        Fails R image m (next h object property) (.missingProperty object property)) ∧
      ∀ value, Fails R image m (put h object property value) (.missingProperty object property)) ∧
    (∀ front rest, items = front ++ rest →
      Answers R image m (next h object (lastNumber front)) (headNumber rest)) ∧
    ∀ fuel, items.length < fuel →
      Answers R image m (numbersFrom h object fuel 0) (items.map Item.number ++ [0]) := by
  refine ⟨?_, ?_, ?_, ?_, ?_⟩
  · intro property
    exact Image.exists_ok hR (.findProperty h object property) hm (ht.find_image property)
  · intro i hi
    have hle := (ht.listed.mem hi).1.length_le
    refine ⟨UInt16.ofNat i.data, UInt16.ofNat i.bytes.length, ht.toNat_data hi,
      ht.data_ne_zero hi, UInt16.toNat_ofNat_of_lt' (by simp [UInt16.size]; omega), ?_, ?_, ?_, ?_⟩
    · exact Image.exists_ok hR (.propertyAddress h object _) hm (ht.dataAddress_of_mem hi)
    · exact Image.exists_ok hR (.propertyLength h _) hm (ht.length_of_mem hi)
    · exact Image.exists_ok hR (.getProperty h object _) hm (ht.get_of_mem hi)
    · intro value
      obtain ⟨image', hdone, hput⟩ := ht.put_of_mem hi value
      obtain ⟨m', hm', hok⟩ := Image.exists_ok hR (.putProperty h object _ value) hm hput
      exact ⟨m', image', hm', hok, ht.assign hi hdone, hdone.size_eq, hdone.byteAt_eq⟩
  · intro property habsent
    refine ⟨?_, ?_, ?_, ?_⟩
    · exact Image.exists_ok hR (.propertyAddress h object _) hm (ht.dataAddress_of_absent habsent)
    · intro hpos hlimit
      exact Image.exists_ok hR (.getProperty h object _) hm (ht.get_of_absent habsent hpos hlimit)
    · intro hne
      exact Image.exists_error hR (.nextProperty h object _) hm (ht.next_of_absent habsent hne)
    · intro value
      exact
        Image.exists_error hR (.putProperty h object _ value) hm (ht.put_of_absent habsent value)
  · rintro front rest rfl
    exact Image.exists_ok hR (.nextProperty h object _) hm ht.next_image
  · intro fuel hfuel
    have ht' : Table h image object ([] ++ items) := ht
    exact Image.exists_ok hR (parametric_numbersFrom h object fuel 0) hm
      (ht'.numbersFrom_image hfuel)

/-- A byte, 64 bytes under a long header and a word. -/
theorem table_is_finite_map_three_headers :
    let h : Header := { (Inhabited.default : Header) with version := 5, objects := 64 }
    let image : Image :=
      ⟨(Array.replicate 279 0).set! 203 204 |>.set! 204 1 |>.set! 207 40 |>.set! 208 7
        |>.set! 209 0x94 |>.set! 210 0x80 |>.set! 211 0xAB |>.set! 212 0xCD |>.set! 275 69
        |>.set! 276 1 |>.set! 277 2⟩
    let items : List Item :=
      [⟨207, 40, 208, [7]⟩, ⟨209, 20, 211, 0xAB :: 0xCD :: List.replicate 62 0⟩,
        ⟨275, 5, 276, [1, 2]⟩]
    Table h image 1 items ∧
      Answers Eq image image (dataAddress h 1 20) 211 ∧
      Answers Eq image image (length h 211) 64 ∧
      Answers Eq image image (get h 1 20) 0xABCD ∧
      Answers Eq image image (get h 1 40) 7 ∧
      Answers Eq image image (get h 1 6) (defaultOf h image 6) ∧
      Fails Eq image image (next h 1 6) (.missingProperty 1 6) ∧
      Answers Eq image image (numbersFrom h 1 4 0) [40, 20, 5, 0] ∧
      ∃ image', put h 1 5 0x0304 image = .ok () image' ∧
        Table h image' 1 (assign 5 0x0304 items) := by
  intro h image items
  have ht : Table h image 1 items := by decide +kernel
  obtain ⟨-, hpresent, habsent, -, hnumbers⟩ := table_is_finite_map MemorySim.refl rfl ht
  obtain ⟨data, size, hdata, -, hsize, haddress, hlength, hlong, -⟩ :=
    hpresent ⟨209, 20, 211, _⟩ (.tail _ (.head _))
  obtain ⟨-, -, -, -, -, -, -, hbyte, -⟩ := hpresent ⟨207, 40, 208, _⟩ (.head _)
  obtain ⟨-, -, -, -, -, -, -, -, hput⟩ :=
    hpresent ⟨275, 5, 276, _⟩ (.tail _ (.tail _ (.head _)))
  obtain ⟨-, hdefault, hmissing, -⟩ := habsent 6 (by decide)
  obtain rfl : data = 211 := UInt16.toNat_inj.mp hdata
  obtain rfl : size = 64 := UInt16.toNat_inj.mp hsize
  obtain ⟨m', image', rfl, hok, htable, -⟩ := hput 0x0304
  exact ⟨ht, haddress, hlength, hlong, hbyte, hdefault (by decide) (by decide),
    hmissing (by decide), hnumbers 4 (by decide), m', hok, htable⟩

end

end ZMachine.Property
