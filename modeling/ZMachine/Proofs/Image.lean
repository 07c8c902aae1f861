import ZMachine.Memory
import ZMachine.Proofs.Simulation.Memory

/-!
# Images as functions from addresses to bytes

An access inside an image always succeeds, so its effect can be told by pure
functions: `byteAt` and `wordAt` look at an address, `poke` and `pokeWord`
change what is there.  Facts about what lies where in a story are stated with
these, and `exists_ok` carries them over to every memory that shows the image.
-/

namespace ZMachine.Image

/-- The byte at an address, and 0 behind the end. -/
def byteAt (image : Image) (address : Nat) : UInt8 :=
  image.bytes[address]?.getD 0

def wordAt (image : Image) (address : Nat) : UInt16 :=
  wordOfBytes (image.byteAt address) (image.byteAt (address + 1))

def poke (image : Image) (address : Nat) (value : UInt8) : Image :=
  ⟨image.bytes.setIfInBounds address value⟩

def pokeWord (image : Image) (address : Nat) (value : UInt16) : Image :=
  (image.poke address (highByte value)).poke (address + 1) (lowByte value)

/-- The image with other bytes from an address on. -/
def pokes (image : Image) (address : Nat) : List UInt8 → Image
  | [] => image
  | b :: bs => (image.poke address b).pokes (address + 1) bs

@[simp] theorem size_poke (image : Image) (address : Nat) (value : UInt8) :
    (image.poke address value).bytes.size = image.bytes.size := by
  simp [poke]

@[simp] theorem size_pokeWord (image : Image) (address : Nat) (value : UInt16) :
    (image.pokeWord address value).bytes.size = image.bytes.size := by
  simp [pokeWord]

theorem byteAt_poke_self {image : Image} {address : Nat} (h : address < image.bytes.size)
    (value : UInt8) : (image.poke address value).byteAt address = value := by
  simp [byteAt, poke, h]

theorem byteAt_poke_of_ne (image : Image) {address other : Nat} (h : other ≠ address)
    (value : UInt8) : (image.poke address value).byteAt other = image.byteAt other := by
  simp [byteAt, poke, h.symm]

theorem byteAt_pokeWord_of_ne (image : Image) {address other : Nat}
    (h : other < address ∨ address + 1 < other) (value : UInt16) :
    (image.pokeWord address value).byteAt other = image.byteAt other := by
  unfold pokeWord
  rw [byteAt_poke_of_ne _ (by omega), byteAt_poke_of_ne _ (by omega)]

theorem byteAt_pokeWord_high {image : Image} {address : Nat} (h : address < image.bytes.size)
    (value : UInt16) : (image.pokeWord address value).byteAt address = highByte value := by
  unfold pokeWord
  rw [byteAt_poke_of_ne _ (by omega), byteAt_poke_self h]

theorem byteAt_pokeWord_low {image : Image} {address : Nat} (h : address + 1 < image.bytes.size)
    (value : UInt16) : (image.pokeWord address value).byteAt (address + 1) = lowByte value := by
  unfold pokeWord
  rw [byteAt_poke_self (by simpa using h)]

theorem wordAt_congr {image other : Image} {a : Nat}
    (h : ∀ x, a ≤ x → x ≤ a + 1 → image.byteAt x = other.byteAt x) :
    image.wordAt a = other.wordAt a := by
  rw [wordAt, wordAt, h a (by omega) (by omega), h (a + 1) (by omega) (by omega)]

theorem wordAt_pokeWord_self {image : Image} {address : Nat} (h : address + 1 < image.bytes.size)
    (value : UInt16) : (image.pokeWord address value).wordAt address = value := by
  rw [wordAt, byteAt_pokeWord_high (by omega), byteAt_pokeWord_low h,
    wordOfBytes_highByte_lowByte]

@[simp] theorem size_pokes (image : Image) (address : Nat) (bytes : List UInt8) :
    (image.pokes address bytes).bytes.size = image.bytes.size := by
  induction bytes generalizing image address with
  | nil => rfl
  | cons b bs ih => rw [pokes, ih, size_poke]

theorem byteAt_pokes_of_outside (image : Image) {address other : Nat} {bytes : List UInt8}
    (h : other < address ∨ address + bytes.length ≤ other) :
    (image.pokes address bytes).byteAt other = image.byteAt other := by
  induction bytes generalizing image address with
  | nil => rfl
  | cons b bs ih =>
      simp only [List.length_cons] at h
      rw [pokes, ih _ (by omega), byteAt_poke_of_ne _ (by omega)]

theorem byteAt_pokes_of_inside {image : Image} {address k : Nat} {bytes : List UInt8}
    (hroom : address + bytes.length ≤ image.bytes.size) (hk : k < bytes.length) :
    bytes[k]? = some ((image.pokes address bytes).byteAt (address + k)) := by
  induction bytes generalizing image address k with
  | nil => cases hk
  | cons b bs ih =>
      simp only [List.length_cons] at hroom hk
      cases k with
      | zero =>
          have hbyte : ((image.poke address b).pokes (address + 1) bs).byteAt address = b := by
            rw [byteAt_pokes_of_outside _ (.inl (Nat.lt_add_one address)),
              byteAt_poke_self (by omega)]
          exact congrArg some hbyte.symm
      | succ k =>
          have hroom' : address + 1 + bs.length ≤ (image.poke address b).bytes.size := by
            rw [size_poke]
            omega
          rw [pokes, List.getElem?_cons_succ, ih hroom' (Nat.lt_of_succ_lt_succ hk),
            Nat.add_assoc, Nat.add_comm 1]

/-- The images differ at most in the `n` bytes from an address on. -/
structure ChangedWithin (image image' : Image) (address n : Nat) : Prop where
  size_eq : image'.bytes.size = image.bytes.size
  other : ∀ a, ¬ (address ≤ a ∧ a < address + n) → image'.byteAt a = image.byteAt a

namespace ChangedWithin

variable {image image₁ image₂ : Image} {address other n k : Nat}

theorem refl (image : Image) (address n : Nat) : image.ChangedWithin image address n :=
  ⟨rfl, fun _ _ => rfl⟩

theorem poke (image : Image) (address : Nat) (value : UInt8) :
    image.ChangedWithin (image.poke address value) address 1 :=
  ⟨size_poke _ _ _, fun a ha => byteAt_poke_of_ne _ (by omega) _⟩

theorem pokeWord (image : Image) (address : Nat) (value : UInt16) :
    image.ChangedWithin (image.pokeWord address value) address 2 :=
  ⟨size_pokeWord _ _ _, fun a ha => byteAt_pokeWord_of_ne _ (by omega) _⟩

theorem pokes (image : Image) (address : Nat) (bytes : List UInt8) :
    image.ChangedWithin (image.pokes address bytes) address bytes.length :=
  ⟨size_pokes _ _ _, fun a ha => byteAt_pokes_of_outside _ (by omega)⟩

theorem mono (h : image.ChangedWithin image₁ address n) (hfrom : other ≤ address)
    (hupto : address + n ≤ other + k) : image.ChangedWithin image₁ other k :=
  ⟨h.size_eq, fun a ha => h.other a (by omega)⟩

theorem trans (h : image.ChangedWithin image₁ address n)
    (h' : image₁.ChangedWithin image₂ address n) : image.ChangedWithin image₂ address n :=
  ⟨h'.size_eq.trans h.size_eq, fun a ha => (h'.other a ha).trans (h.other a ha)⟩

end ChangedWithin

/-! ## Accesses -/

theorem readByte_of_lt {image : Image} {address : Nat} (h : address < image.bytes.size) :
    (Memory.readByte address : MemoryM Image UInt8) image = .ok (image.byteAt address) image := by
  simp [Memory.readByte, AddressSpace.readByte, readByte, byteAt, h]

theorem writeByte_of_lt {image : Image} {address : Nat} (h : address < image.bytes.size)
    (value : UInt8) :
    (Memory.writeByte address value : MemoryM Image Unit) image =
      .ok () (image.poke address value) := by
  simp [Memory.writeByte, AddressSpace.writeByte, writeByte, poke, h, Array.setIfInBounds]

theorem readWord_of_lt {image : Image} {address : Nat} (h : address + 1 < image.bytes.size) :
    (Memory.readWord address : MemoryM Image UInt16) image = .ok (image.wordAt address) image := by
  unfold Memory.readWord
  rw [bind_ok (readByte_of_lt (by omega)), bind_ok (readByte_of_lt h)]
  rfl

theorem writeWord_of_lt {image : Image} {address : Nat} (h : address + 1 < image.bytes.size)
    (value : UInt16) :
    (Memory.writeWord address value : MemoryM Image Unit) image =
      .ok () (image.pokeWord address value) := by
  unfold Memory.writeWord
  rw [bind_ok (writeByte_of_lt (by omega) _), writeByte_of_lt (by simpa using h)]
  rfl

theorem writeBytes_of_le {image : Image} {address : Nat} {bytes : List UInt8}
    (h : address + bytes.length ≤ image.bytes.size) :
    (Memory.writeBytes address bytes : MemoryM Image Unit) image =
      .ok () (image.pokes address bytes) := by
  induction bytes generalizing image address with
  | nil => rfl
  | cons b bs ih =>
      simp only [List.length_cons] at h
      rw [Memory.writeBytes, bind_ok (writeByte_of_lt (by omega) b), ih (by rw [size_poke]; omega)]
      rfl

theorem readByte_of_ge {image : Image} {address : Nat} (h : image.bytes.size ≤ address) :
    ∃ e, (Memory.readByte address : MemoryM Image UInt8) image = .error e image := by
  refine ⟨.addressOutOfRange address image.bytes.size, ?_⟩
  simp [Memory.readByte, AddressSpace.readByte, readByte, Nat.not_lt.mpr h]

theorem readWord_of_ge {image : Image} {address : Nat} (h : image.bytes.size ≤ address + 1) :
    ∃ e, (Memory.readWord address : MemoryM Image UInt16) image = .error e image := by
  unfold Memory.readWord
  by_cases hlt : address < image.bytes.size
  · obtain ⟨e, he⟩ := readByte_of_ge h
    exact ⟨e, by rw [bind_ok (readByte_of_lt hlt), bind_error he]⟩
  · obtain ⟨e, he⟩ := readByte_of_ge (Nat.not_lt.mp hlt)
    exact ⟨e, bind_error he⟩

theorem readByte_ok {image image' : Image} {address : Nat} {b : UInt8}
    (h : (Memory.readByte address : MemoryM Image UInt8) image = .ok b image') :
    b = image.byteAt address ∧ image' = image := by
  by_cases hlt : address < image.bytes.size
  · rw [readByte_of_lt hlt] at h
    cases h
    exact ⟨rfl, rfl⟩
  · simp [Memory.readByte, AddressSpace.readByte, readByte, hlt] at h

theorem lt_of_readByte_ok {image image' : Image} {address : Nat} {b : UInt8}
    (h : (Memory.readByte address : MemoryM Image UInt8) image = .ok b image') :
    address < image.bytes.size := by
  apply Nat.lt_of_not_le
  intro hle
  obtain ⟨e, he⟩ := readByte_of_ge hle
  rw [he] at h
  cases h

theorem readWord_ok {image image' : Image} {address : Nat} {w : UInt16}
    (h : (Memory.readWord address : MemoryM Image UInt16) image = .ok w image') :
    w = image.wordAt address ∧ image' = image := by
  obtain ⟨high, image₁, hhigh, hrest⟩ := bind_eq_ok_iff.mp h
  obtain ⟨rfl, rfl⟩ := readByte_ok hhigh
  obtain ⟨low, image₂, hlow, hpure⟩ := bind_eq_ok_iff.mp hrest
  obtain ⟨rfl, rfl⟩ := readByte_ok hlow
  cases hpure
  exact ⟨rfl, rfl⟩

theorem readByte_error {image image' : Image} {address : Nat} {e : Fault}
    (h : (Memory.readByte address : MemoryM Image UInt8) image = .error e image') :
    e = .addressOutOfRange address image.bytes.size := by
  by_cases hlt : address < image.bytes.size
  · rw [readByte_of_lt hlt] at h
    cases h
  · simp only [Memory.readByte, AddressSpace.readByte, readByte, hlt, dif_neg,
      not_false_eq_true] at h
    cases h
    rfl

theorem readWord_error {image image' : Image} {address : Nat} {e : Fault}
    (h : (Memory.readWord address : MemoryM Image UInt16) image = .error e image') :
    ∃ outside, e = .addressOutOfRange outside image.bytes.size := by
  rcases bind_eq_error_iff.mp h with hhigh | ⟨_, image₁, hhigh, hrest⟩
  · exact ⟨_, readByte_error hhigh⟩
  · obtain ⟨-, rfl⟩ := readByte_ok hhigh
    rcases bind_eq_error_iff.mp hrest with hlow | ⟨_, _, -, hpure⟩
    · exact ⟨_, readByte_error hlow⟩
    · cases hpure

theorem writeByte_ok {image image' : Image} {address : Nat} {value : UInt8}
    (h : (Memory.writeByte address value : MemoryM Image Unit) image = .ok () image') :
    address < image.bytes.size ∧ image' = image.poke address value := by
  by_cases hlt : address < image.bytes.size
  · rw [writeByte_of_lt hlt] at h
    cases h
    exact ⟨hlt, rfl⟩
  · simp [Memory.writeByte, AddressSpace.writeByte, writeByte, hlt] at h

theorem writeWord_ok {image image' : Image} {address : Nat} {value : UInt16}
    (h : (Memory.writeWord address value : MemoryM Image Unit) image = .ok () image') :
    address + 1 < image.bytes.size ∧ image' = image.pokeWord address value := by
  obtain ⟨_, image₁, hhigh, hlow⟩ := bind_eq_ok_iff.mp h
  obtain ⟨-, rfl⟩ := writeByte_ok hhigh
  obtain ⟨hlt, rfl⟩ := writeByte_ok hlow
  exact ⟨by simpa using hlt, rfl⟩

theorem writeWord_of_ge {image : Image} {address : Nat} (h : image.bytes.size ≤ address + 1)
    (value : UInt16) :
    ∃ e image', (Memory.writeWord address value : MemoryM Image Unit) image = .error e image' := by
  cases hwrite : (Memory.writeWord address value : MemoryM Image Unit) image with
  | error e image' => exact ⟨e, image', rfl⟩
  | ok _ image' => exact absurd (writeWord_ok hwrite).1 (Nat.not_lt.mpr h)

theorem readBytesOnto_of_le {image : Image} (found : List UInt8) {address count : Nat}
    (h : address + count ≤ image.bytes.size) :
    (Memory.readBytesOnto found address count : MemoryM Image (List UInt8)) image =
      .ok (found.reverse ++ (List.range' address count).map image.byteAt) image := by
  induction count generalizing found address with
  | zero => simp [Memory.readBytesOnto, pure, EStateM.pure]
  | succ count ih =>
      unfold Memory.readBytesOnto
      rw [bind_ok (readByte_of_lt (by omega)), ih _ (by omega)]
      simp [List.range'_succ]

theorem drop_toList {image : Image} {address : Nat} (h : address < image.bytes.size) :
    image.bytes.toList.drop address =
      image.byteAt address :: image.bytes.toList.drop (address + 1) := by
  rw [List.drop_eq_getElem_cons (by simpa using h)]
  simp [byteAt, h]

theorem readBytesOnto_ok {image image' : Image} {found bytes : List UInt8} {address count : Nat}
    (h : (Memory.readBytesOnto found address count : MemoryM Image (List UInt8)) image =
      .ok bytes image') :
    bytes = found.reverse ++ (image.bytes.toList.drop address).take count ∧ image' = image := by
  induction count generalizing found address with
  | zero =>
      cases h
      simp
  | succ count ih =>
      obtain ⟨b, image₁, hbyte, hrest⟩ := bind_eq_ok_iff.mp h
      have hlist := drop_toList (lt_of_readByte_ok hbyte)
      obtain ⟨rfl, rfl⟩ := readByte_ok hbyte
      obtain ⟨rfl, rfl⟩ := ih hrest
      simp [hlist]

/-! ## Two images side by side -/

section

variable {strict : Prop} {image other : Image} {a : Nat}

/-- Each side stays at its own image. -/
def Paired (image other : Image) (i j : Image) : Prop :=
  i = image ∧ j = other

theorem readByte_paired (hsize : image.bytes.size = other.bytes.size)
    (hsame : image.byteAt a = other.byteAt a) :
    Sim strict (Paired image other) (Paired image other) (Memory.readByte a)
      (Memory.readByte a) where
  ok hpair h := by
    obtain ⟨rfl, rfl⟩ := hpair
    have hlt := lt_of_readByte_ok h
    obtain ⟨rfl, rfl⟩ := readByte_ok h
    exact ⟨_, hsame ▸ readByte_of_lt (hsize ▸ hlt), rfl, rfl⟩
  error _ i i' j e hpair h := by
    obtain ⟨rfl, rfl⟩ := hpair
    by_cases hlt : a < i.bytes.size
    · rw [readByte_of_lt hlt] at h
      cases h
    · have hlt' : ¬ a < j.bytes.size := hsize ▸ hlt
      simp only [Memory.readByte, AddressSpace.readByte, readByte, hlt, hlt', dif_neg,
        not_false_eq_true] at h ⊢
      cases h
      exact ⟨j, by rw [hsize], rfl, rfl⟩

theorem readWord_paired (hsize : image.bytes.size = other.bytes.size)
    (hsame : ∀ x, a ≤ x → x ≤ a + 1 → image.byteAt x = other.byteAt x) :
    Sim strict (Paired image other) (Paired image other) (Memory.readWord a)
      (Memory.readWord a) :=
  .bind (readByte_paired hsize (hsame a (by omega) (by omega))) fun _ =>
    .bind (readByte_paired hsize (hsame (a + 1) (by omega) (by omega))) fun _ => .pure _

/-- Two images on which a computation runs alike give the same answer. -/
theorem outcome_paired {α : Type} {x : MemoryM Image α}
    (h : Sim True (Paired image other) (Paired image other) x x) :
    outcome (x image) = outcome (x other) :=
  (h.call ⟨rfl, rfl⟩).1

end

/-! ## Invariants -/

section

variable (J : Image → Prop)

theorem readByte_holding (address : Nat) :
    Sim False (Holding J) (Holding J) (Memory.readByte address) (Memory.readByte address) := by
  apply Sim.holding
  intro image image' b himage h
  obtain ⟨-, rfl⟩ := Image.readByte_ok h
  exact himage

theorem readWord_holding (address : Nat) :
    Sim False (Holding J) (Holding J) (Memory.readWord address) (Memory.readWord address) :=
  .bind (readByte_holding J _) fun _ => .bind (readByte_holding J _) fun _ => .pure _

end

/-! ## Memories that show an image -/

variable {M : Type} [AddressSpace M] {R : M → Image → Prop} {α : Type}
variable {x : MemoryM M α} {y : MemoryM Image α}

theorem outcome_eq (hR : MemorySim True R) (hxy : Parametric x y) {m : M} {image : Image}
    (hm : R m image) : outcome (x m) = outcome (y image) :=
  ((hxy True R hR).call hm).1

/-- What succeeds on an image succeeds alike on every memory that shows it. -/
theorem exists_ok (hR : MemorySim True R) (hxy : Parametric x y) {m : M} {image image' : Image}
    (hm : R m image) {a : α} (hy : y image = .ok a image') :
    ∃ m', R m' image' ∧ x m = .ok a m' := by
  have hsim := hxy True R hR
  cases hx : x m with
  | ok b m' =>
      obtain ⟨image₁, hy₁, hm'⟩ := hsim.ok hm hx
      rw [hy] at hy₁
      cases hy₁
      exact ⟨m', hm', rfl⟩
  | error e m' =>
      obtain ⟨image₁, hy₁, -⟩ := hsim.error trivial hm hx
      rw [hy] at hy₁
      cases hy₁

theorem exists_error (hR : MemorySim True R) (hxy : Parametric x y) {m : M}
    {image image' : Image} (hm : R m image) {e : Fault} (hy : y image = .error e image') :
    ∃ m', R m' image' ∧ x m = .error e m' := by
  have hsim := hxy True R hR
  cases hx : x m with
  | ok b m' =>
      obtain ⟨image₁, hy₁, -⟩ := hsim.ok hm hx
      rw [hy] at hy₁
      cases hy₁
  | error e' m' =>
      obtain ⟨image₁, hy₁, hm'⟩ := hsim.error trivial hm hx
      rw [hy] at hy₁
      cases hy₁
      exact ⟨m', hm', rfl⟩

end ZMachine.Image
