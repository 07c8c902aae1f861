import ZMachine.Host.Transcript
import ZMachine.Machine.Table
import ZMachine.Proofs.Image
import ZMachine.Proofs.Logged
import ZMachine.Proofs.Simulation.Machine

/-!
# The addresses of array elements

The address of an element wraps at 64K, but not the address of the second byte
of a word.  So bytes, and words that do not begin at the last address, stay
within the addresses that a word can name.  A word at the last address has its
second byte at 0x10000: in a larger memory it is read and written there, and in
a smaller one the access fails.
-/

namespace ZMachine.Machine

open MachineM

/-- The ways to get at an element of an array. -/
inductive ElementAccess where
  | loadWord
  | loadByte
  | storeWord (value : UInt16)
  | storeByte (value : UInt16)

def ElementAccess.width : ElementAccess → Nat
  | loadWord | storeWord _ => 2
  | loadByte | storeByte _ => 1

section

variable {M H : Type} [AddressSpace M]

def ElementAccess.perform (array index : UInt16) : ElementAccess → MachineM M H Unit
  | loadWord => Machine.loadWord array index
  | loadByte => Machine.loadByte array index
  | storeWord value => Machine.storeWord array index value
  | storeByte value => Machine.storeByte array index value

/-- From `s`, the computation gets to `s₁` and is then done but for a result
that it may store. -/
def StoresOnlyFrom (x : MachineM M H Unit) (s s₁ : Machine M H) : Prop :=
  (∃ e, x s = .error e s₁) ∨ x s = .ok () s₁ ∨ ∃ result, x s = storeResult result s₁

theorem storesOnlyFrom_load {α : Type} (x : MemoryM M α) (f : α → UInt16) (s : Machine M H) :
    StoresOnlyFrom (ofMemory x >>= fun a => storeResult (f a)) s
      { s with memory := reached (x s.memory) } := by
  cases h : x s.memory with
  | error e memory => exact .inl ⟨e, bind_error (ofMemory_eq_error_iff.mpr ⟨memory, h, rfl⟩)⟩
  | ok a memory => exact .inr (.inr ⟨f a, bind_ok (ofMemory_eq_ok_iff.mpr ⟨memory, h, rfl⟩)⟩)

theorem storesOnlyFrom_store (x : MemoryM M Unit) (s : Machine M H) :
    StoresOnlyFrom (ofMemory x) s { s with memory := reached (x s.memory) } := by
  cases h : x s.memory with
  | error e memory => exact .inl ⟨e, ofMemory_eq_error_iff.mpr ⟨memory, h, rfl⟩⟩
  | ok a memory => exact .inr (.inl (ofMemory_eq_ok_iff.mpr ⟨memory, h, rfl⟩))

end

/-! ## Where an element lies -/

theorem elementAddress_eq (array index : UInt16) (width : Nat) :
    (elementAddress array index width : Int) = (array.toNat + signed index * width) % 0x10000 := by
  unfold elementAddress ofSigned
  have hnonneg := Int.emod_nonneg (array.toNat + signed index * width) (b := 0x10000) (by decide)
  have hlt := Int.emod_lt_of_pos (array.toNat + signed index * width) (b := 0x10000) (by decide)
  rw [UInt16.toNat_ofNat', Nat.mod_eq_of_lt (by omega)]
  exact Int.toNat_of_nonneg hnonneg

theorem elementAddress_lt (array index : UInt16) (width : Nat) :
    elementAddress array index width < 0x10000 :=
  UInt16.toNat_lt _

/-- A word that begins at the last address that a word can name. -/
def AtLastAddress (array index : UInt16) : Prop :=
  ((array.toNat : Int) + 2 * signed index) % 0x10000 = 0xFFFF

instance (array index : UInt16) : Decidable (AtLastAddress array index) :=
  inferInstanceAs (Decidable (_ = _))

theorem atLastAddress_iff (array index : UInt16) :
    AtLastAddress array index ↔ elementAddress array index 2 = 0xFFFF := by
  have heq := elementAddress_eq array index 2
  unfold AtLastAddress
  omega

theorem ElementAccess.end_le (access : ElementAccess) {array index : UInt16}
    (hnot : access.width = 2 → ¬ AtLastAddress array index) :
    elementAddress array index access.width + access.width ≤ 0x10000 := by
  have hlt := elementAddress_lt array index access.width
  rw [atLastAddress_iff] at hnot
  cases access with
  | loadByte | storeByte => exact hlt
  -- Only the second byte of a word can leave the range.
  | loadWord | storeWord =>
      have hne := hnot rfl
      simp only [width] at hlt ⊢
      omega

variable {M H : Type} [AddressSpace M]

theorem ElementAccess.perform_grown (access : ElementAccess) (array index : UInt16)
    (s : Machine (Logged M) H) :
    ∃ memory reads writes, Logged.Grown s.memory memory reads writes ∧
      StoresOnlyFrom (access.perform array index) s { s with memory } ∧
      ∀ a ∈ reads ++ writes, elementAddress array index access.width ≤ a ∧
        a < elementAddress array index access.width + access.width := by
  cases access with
  | loadWord =>
      have hstores := storesOnlyFrom_load (Memory.readWord (elementAddress array index 2)) id s
      -- One byte or two, as the first one can be read or not.
      rcases Logged.grown_readWord (elementAddress array index 2) s.memory with hgrown | hgrown
      all_goals exact ⟨_, _, _, hgrown, hstores, by simp [width]⟩
  | loadByte =>
      exact ⟨_, _, _, Logged.grown_readByte _ s.memory,
        storesOnlyFrom_load _ UInt8.toUInt16 s, by simp [width]⟩
  | storeWord value =>
      have hstores := storesOnlyFrom_store (Memory.writeWord (elementAddress array index 2) value) s
      rcases Logged.grown_writeWord (elementAddress array index 2) value s.memory with
        hgrown | hgrown
      all_goals exact ⟨_, _, _, hgrown, hstores, by simp [width]⟩
  | storeByte value =>
      exact ⟨_, _, _, Logged.grown_writeByte _ (lowByte value) s.memory,
        storesOnlyFrom_store _ s, by simp [width]⟩

/-! ## The last address -/

variable {R : M → Image → Prop} {image : Image} {array index : UInt16}

theorem loadWord_at_last (hR : MemorySim True R) {s : Machine (Logged M) H}
    (hs : R s.memory.memory image) (hlast : AtLastAddress array index)
    (hroom : 0x10000 < image.bytes.size) :
    ∃ memory, R memory.memory image ∧ memory.reads = 0x10000 :: 0xFFFF :: s.memory.reads ∧
      loadWord array index s =
        storeResult (wordOfBytes (image.byteAt 0xFFFF) (image.byteAt 0x10000))
          { s with memory } := by
  obtain ⟨m, hm, hread⟩ := Image.exists_ok hR (.readWord 0xFFFF) hs (Image.readWord_of_lt hroom)
  refine ⟨⟨m, 0x10000 :: 0xFFFF :: s.memory.reads, s.memory.writes⟩, hm, rfl, ?_⟩
  rw [loadWord, (atLastAddress_iff array index).mp hlast,
    bind_ok (ofMemory_eq_ok_iff.mpr ⟨_, Logged.readWord_ok hread, rfl⟩)]
  rfl

theorem storeWord_at_last (hR : MemorySim True R) {s : Machine (Logged M) H}
    (hs : R s.memory.memory image) (hlast : AtLastAddress array index)
    (hroom : 0x10000 < image.bytes.size) (value : UInt16) :
    ∃ memory image', R memory.memory image' ∧
      memory.writes = 0x10000 :: 0xFFFF :: s.memory.writes ∧
      storeWord array index value s = .ok () { s with memory } ∧
      image'.byteAt 0x10000 = lowByte value := by
  obtain ⟨m, hm, hwrite⟩ :=
    Image.exists_ok hR (.writeWord 0xFFFF value) hs (Image.writeWord_of_lt hroom value)
  refine ⟨⟨m, s.memory.reads, 0x10000 :: 0xFFFF :: s.memory.writes⟩, _, hm, rfl, ?_,
    Image.byteAt_pokeWord_low hroom value⟩
  rw [storeWord, (atLastAddress_iff array index).mp hlast]
  exact ofMemory_eq_ok_iff.mpr ⟨_, Logged.writeWord_ok hwrite, rfl⟩

theorem loadWord_at_last_fails (hR : MemorySim True R) {s : Machine M H} (hs : R s.memory image)
    (hlast : AtLastAddress array index) (hsize : image.bytes.size ≤ 0x10000) :
    ∃ e s', loadWord array index s = .error e s' := by
  obtain ⟨e, hend⟩ := Image.readWord_of_ge hsize
  obtain ⟨m, -, hread⟩ := Image.exists_error hR (.readWord 0xFFFF) hs hend
  refine ⟨e, { s with memory := m }, ?_⟩
  rw [loadWord, (atLastAddress_iff array index).mp hlast]
  exact bind_error (ofMemory_eq_error_iff.mpr ⟨m, hread, rfl⟩)

theorem storeWord_at_last_fails (hR : MemorySim True R) {s : Machine M H} (hs : R s.memory image)
    (hlast : AtLastAddress array index) (hsize : image.bytes.size ≤ 0x10000) (value : UInt16) :
    ∃ e s', storeWord array index value s = .error e s' := by
  obtain ⟨e, image', hend⟩ := Image.writeWord_of_ge hsize value
  obtain ⟨m, -, hwrite⟩ := Image.exists_error hR (.writeWord 0xFFFF value) hs hend
  refine ⟨e, { s with memory := m }, ?_⟩
  rw [storeWord, (atLastAddress_iff array index).mp hlast]
  exact ofMemory_eq_error_iff.mpr ⟨m, hwrite, rfl⟩

/-- Every access to an element touches only bytes below 0x10000, whatever the
memory, unless it is for a word at 0xFFFF.  There a memory with more than
0x10000 bytes is read and written at 0x10000, and a memory without gives an
error. -/
theorem element_below_64K_unless_last (array index : UInt16) (s : Machine (Logged M) H) :
    (∀ access : ElementAccess, (access.width = 2 → ¬ AtLastAddress array index) →
      ∃ memory reads writes, Logged.Grown s.memory memory reads writes ∧
        StoresOnlyFrom (access.perform array index) s { s with memory } ∧
        ∀ a ∈ reads ++ writes, a < 0x10000) ∧
    ∀ {R : M → Image → Prop} {image : Image}, MemorySim True R → R s.memory.memory image →
      AtLastAddress array index →
      (0x10000 < image.bytes.size →
        (∃ memory, R memory.memory image ∧
          memory.reads = 0x10000 :: 0xFFFF :: s.memory.reads ∧
          loadWord array index s =
            storeResult (wordOfBytes (image.byteAt 0xFFFF) (image.byteAt 0x10000))
              { s with memory }) ∧
        ∀ value, ∃ memory image', R memory.memory image' ∧
          memory.writes = 0x10000 :: 0xFFFF :: s.memory.writes ∧
          storeWord array index value s = .ok () { s with memory } ∧
          image'.byteAt 0x10000 = lowByte value) ∧
      (image.bytes.size ≤ 0x10000 →
        (∃ e s', loadWord array index s = .error e s') ∧
        ∀ value, ∃ e s', storeWord array index value s = .error e s') := by
  constructor
  · intro access hnot
    obtain ⟨memory, reads, writes, hgrown, hstores, htouched⟩ :=
      access.perform_grown array index s
    exact ⟨memory, reads, writes, hgrown, hstores, fun a ha =>
      Nat.lt_of_lt_of_le (htouched a ha).2 (access.end_le hnot)⟩
  · intro R image hR hs hlast
    constructor
    · intro hroom
      exact ⟨loadWord_at_last hR hs hlast hroom, storeWord_at_last hR hs hlast hroom⟩
    · intro hsize
      have hlogged := Logged.memorySim hR
      exact ⟨loadWord_at_last_fails hlogged hs hlast hsize,
        storeWord_at_last_fails hlogged hs hlast hsize⟩

/-- A machine with one byte more than a word can address. -/
def sixtyFourKAndOne : Machine (Logged Image) Transcript where
  memory := ⟨⟨Array.replicate 0x10001 7⟩, [], []⟩
  host := {}
  core := .blank default {}

theorem size_sixtyFourKAndOne : sixtyFourKAndOne.memory.memory.bytes.size = 0x10001 :=
  Array.size_replicate

/-- With word elements, element -1 of the array at 1 begins at 0xFFFF; with
byte elements, element -2 is there. -/
theorem element_below_64K_unless_last_at_one :
    AtLastAddress 1 0xFFFF ∧
    (∃ memory, loadWord 1 0xFFFF sixtyFourKAndOne =
        storeResult 0x0707 { sixtyFourKAndOne with memory } ∧
      memory.reads = [0x10000, 0xFFFF]) ∧
    (∃ memory, storeWord 1 0xFFFF 0x1234 sixtyFourKAndOne =
        .ok () { sixtyFourKAndOne with memory } ∧
      memory.writes = [0x10000, 0xFFFF] ∧ memory.memory.byteAt 0x10000 = 0x34) ∧
    ∃ memory reads writes, Logged.Grown sixtyFourKAndOne.memory memory reads writes ∧
      StoresOnlyFrom (loadByte 1 0xFFFE) sixtyFourKAndOne { sixtyFourKAndOne with memory } ∧
      ∀ a ∈ reads ++ writes, a < 0x10000 := by
  have hlast : AtLastAddress 1 0xFFFF := by decide +kernel
  have hroom : 0x10000 < sixtyFourKAndOne.memory.memory.bytes.size := by
    rw [size_sixtyFourKAndOne]
    decide
  have hbyte : ∀ a < 0x10001, sixtyFourKAndOne.memory.memory.byteAt a = 7 := by
    intro a ha
    simp only [sixtyFourKAndOne, Image.byteAt, Array.getElem?_replicate, if_pos ha,
      Option.getD_some]
  obtain ⟨hload, hstore⟩ :=
    ((element_below_64K_unless_last 1 0xFFFF sixtyFourKAndOne).2 MemorySim.refl rfl hlast).1 hroom
  refine ⟨hlast, ?_, ?_, ?_⟩
  · obtain ⟨memory, -, hreads, hrun⟩ := hload
    rw [hbyte _ (by decide), hbyte _ (by decide)] at hrun
    exact ⟨memory, hrun, hreads⟩
  · obtain ⟨memory, _, rfl, hwrites, hrun, hlow⟩ := hstore 0x1234
    exact ⟨memory, hrun, hwrites, hlow⟩
  · exact (element_below_64K_unless_last 1 0xFFFE sixtyFourKAndOne).1 .loadByte (by decide)

end ZMachine.Machine
