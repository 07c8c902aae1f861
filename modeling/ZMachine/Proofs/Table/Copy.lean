import ZMachine.Host.Transcript
import ZMachine.Machine.Table
import ZMachine.Proofs.Image
import ZMachine.Proofs.Simulation.Machine

/-!
# Copies of tables that overlap

A table is copied in place, byte by byte, and no byte may be overwritten before
it is read.  Going forwards this holds if the target begins at or before the
source, or behind it; going backwards, if the target does not begin before the
source.  So one of the two ways always does, and `copyTable` takes it.
-/

namespace ZMachine.Machine

open MachineM

variable {image image' : Image} {source target n : Nat}

/-- The target holds what the source held, and nothing else has changed. -/
structure Copied (image image' : Image) (source target n : Nat) : Prop where
  moved : ∀ i < n, image'.byteAt (target + i) = image.byteAt (source + i)
  changed : image.ChangedWithin image' target n

theorem copyByte_image (hsource : source < image.bytes.size) (htarget : target < image.bytes.size) :
    (copyByte source target : MemoryM Image Unit) image =
      .ok () (image.poke target (image.byteAt source)) := by
  rw [copyByte, bind_ok (Image.readByte_of_lt hsource), Image.writeByte_of_lt htarget]

/-- The first byte goes first: it must not lie in what is still to be read. -/
theorem Copied.first (htarget : target < image.bytes.size)
    (hapart : target ≤ source ∨ source + n < target)
    (hrest : Copied (image.poke target (image.byteAt source)) image' (source + 1) (target + 1) n) :
    Copied image image' source target (n + 1) where
  moved i hi := by
    cases i with
    | zero =>
        rw [hrest.changed.other _ (by omega)]
        exact Image.byteAt_poke_self htarget _
    | succ i =>
        have hmoved := hrest.moved i (by omega)
        rw [Image.byteAt_poke_of_ne _ (by omega)] at hmoved
        simpa only [Nat.add_assoc, Nat.add_comm 1] using hmoved
  changed := ((Image.ChangedWithin.poke _ _ _).mono (Nat.le_refl _) (by omega)).trans
    (hrest.changed.mono (by omega) (by omega))

/-- The last byte goes first. -/
theorem Copied.last (htarget : target + n < image.bytes.size) (hapart : source ≤ target)
    (hrest : Copied (image.poke (target + n) (image.byteAt (source + n))) image' source target n) :
    Copied image image' source target (n + 1) where
  moved i hi := by
    rcases Nat.lt_succ_iff_lt_or_eq.mp hi with hlt | rfl
    · rw [hrest.moved i hlt, Image.byteAt_poke_of_ne _ (by omega)]
    · rw [hrest.changed.other _ (by omega)]
      exact Image.byteAt_poke_self htarget _
  changed := ((Image.ChangedWithin.poke _ _ _).mono (by omega) (by omega)).trans
    (hrest.changed.mono (by omega) (by omega))

/-- Without its first address, a range still lies in memory. -/
theorem forall_succ_add_lt {start size : Nat} (h : ∀ i < n + 1, start + i < size) :
    ∀ i < n, start + 1 + i < size := by
  intro i hi
  have hnext := h (i + 1) (Nat.succ_lt_succ hi)
  omega

theorem copyForward_image (hsource : ∀ i < n, source + i < image.bytes.size)
    (htarget : ∀ i < n, target + i < image.bytes.size)
    (hapart : target ≤ source ∨ source + n ≤ target) :
    ∃ image', (copyForward n source target : MemoryM Image Unit) image = .ok () image' ∧
      Copied image image' source target n := by
  induction n generalizing image source target with
  | zero => exact ⟨image, rfl, fun i hi => absurd hi (Nat.not_lt_zero i), .refl _ _ _⟩
  | succ n ih =>
      have hread : source < image.bytes.size := hsource 0 (Nat.succ_pos n)
      have hwritten : target < image.bytes.size := htarget 0 (Nat.succ_pos n)
      have hsize := Image.size_poke image target (image.byteAt source)
      obtain ⟨image', hcopy, hrest⟩ := ih
        (hsize ▸ forall_succ_add_lt hsource) (hsize ▸ forall_succ_add_lt htarget) (by omega)
      refine ⟨image', ?_, hrest.first hwritten (by omega)⟩
      rw [copyForward, bind_ok (copyByte_image hread hwritten), hcopy]

theorem copyBackward_image (hsource : ∀ i < n, source + i < image.bytes.size)
    (htarget : ∀ i < n, target + i < image.bytes.size) (hapart : source ≤ target) :
    ∃ image', (copyBackward n source target : MemoryM Image Unit) image = .ok () image' ∧
      Copied image image' source target n := by
  induction n generalizing image with
  | zero => exact ⟨image, rfl, fun i hi => absurd hi (Nat.not_lt_zero i), .refl _ _ _⟩
  | succ n ih =>
      have hread := hsource n (Nat.lt_succ_self n)
      have hwritten := htarget n (Nat.lt_succ_self n)
      have hsize := Image.size_poke image (target + n) (image.byteAt (source + n))
      obtain ⟨image', hcopy, hrest⟩ := ih
        (fun i hi => hsize ▸ hsource i (Nat.lt_succ_of_lt hi))
        (fun i hi => hsize ▸ htarget i (Nat.lt_succ_of_lt hi))
      refine ⟨image', ?_, hrest.last hwritten hapart⟩
      rw [copyBackward, bind_ok (copyByte_image hread hwritten), hcopy]

variable {M H : Type} [AddressSpace M]

/-- A copy whose size is not negative behaves as if through a temporary: the
target gets what the source held, however the two overlap, and all other memory
is left alone. -/
theorem copyTable_keeps_overlap {R : M → Image → Prop} (hR : MemorySim True R)
    {s : Machine M H} (hs : R s.memory image) (source target size : UInt16) (hne : target ≠ 0)
    (hsize : size.toNat ≤ 32767)
    (hsource : ∀ i < size.toNat, source.toNat + i < image.bytes.size)
    (htarget : ∀ i < size.toNat, target.toNat + i < image.bytes.size) :
    ∃ memory image', copyTable source target size s = .ok () { s with memory } ∧
      R memory image' ∧ image'.bytes.size = image.bytes.size ∧
      (∀ i < size.toNat, image'.byteAt (target.toNat + i) = image.byteAt (source.toNat + i)) ∧
      ∀ a, ¬ (target.toNat ≤ a ∧ a < target.toNat + size.toNat) →
        image'.byteAt a = image.byteAt a := by
  suffices h : ∃ memory image', copyTable source target size s = .ok () { s with memory } ∧
      R memory image' ∧ Copied image image' source.toNat target.toNat size.toNat by
    obtain ⟨memory, image', hrun, hmemory, hcopied⟩ := h
    exact ⟨memory, image', hrun, hmemory, hcopied.changed.size_eq, hcopied.moved,
      hcopied.changed.other⟩
  have hsigned : signed size = size.toNat := if_pos (by omega)
  have hn : (signed size).natAbs = size.toNat := by rw [hsigned, Int.natAbs_natCast]
  unfold copyTable
  rw [if_neg hne, hn]
  by_cases hforward : target < source ∨ source.toNat + size.toNat ≤ target.toNat
  · have hapart : target.toNat ≤ source.toNat ∨ source.toNat + size.toNat ≤ target.toNat :=
      hforward.imp_left fun h => Nat.le_of_lt (UInt16.lt_iff_toNat_lt.mp h)
    obtain ⟨image', hcopy, hcopied⟩ := copyForward_image hsource htarget hapart
    obtain ⟨memory, hmemory, hrun⟩ := Image.exists_ok hR (.copyForward _ _ _) hs hcopy
    rw [if_pos (.inr hforward)]
    exact ⟨memory, image', ofMemory_eq_ok_iff.mpr ⟨memory, hrun, rfl⟩, hmemory, hcopied⟩
  · have hapart : source.toNat ≤ target.toNat :=
      Nat.le_of_not_lt fun h => hforward (.inl (UInt16.lt_iff_toNat_lt.mpr h))
    obtain ⟨image', hcopy, hcopied⟩ := copyBackward_image hsource htarget hapart
    obtain ⟨memory, hmemory, hrun⟩ := Image.exists_ok hR (.copyBackward _ _ _) hs hcopy
    rw [if_neg (not_or.mpr ⟨by omega, hforward⟩)]
    exact ⟨memory, image', ofMemory_eq_ok_iff.mpr ⟨memory, hrun, rfl⟩, hmemory, hcopied⟩

/-- A machine with eight bytes of memory. -/
def eightBytes : Machine Image Transcript where
  memory := ⟨#[10, 11, 12, 13, 14, 15, 16, 17]⟩
  host := {}
  core := .blank default {}

theorem copyTable_keeps_overlap_both_ways :
    (∃ memory, copyTable 1 3 4 eightBytes = .ok () { eightBytes with memory } ∧
      memory.byteAt 3 = 11 ∧ memory.byteAt 5 = 13 ∧ memory.byteAt 7 = 17) ∧
    ∃ memory, copyTable 3 1 4 eightBytes = .ok () { eightBytes with memory } ∧
      memory.byteAt 1 = 13 ∧ memory.byteAt 3 = 15 ∧ memory.byteAt 6 = 16 := by
  constructor
  · obtain ⟨_, image', hrun, rfl, -, hmoved, hother⟩ :=
      copyTable_keeps_overlap (s := eightBytes) MemorySim.refl rfl 1 3 4 (by decide) (by decide)
        (by decide) (by decide)
    exact ⟨_, hrun, hmoved 0 (by decide), hmoved 2 (by decide), hother 7 (by decide)⟩
  · obtain ⟨_, image', hrun, rfl, -, hmoved, hother⟩ :=
      copyTable_keeps_overlap (s := eightBytes) MemorySim.refl rfl 3 1 4 (by decide) (by decide)
        (by decide) (by decide)
    exact ⟨_, hrun, hmoved 0 (by decide), hmoved 2 (by decide), hother 6 (by decide)⟩

end ZMachine.Machine
