import ZMachine.Memory.Storage

/-!
# Lawful storages

A storage keeps bytes and may keep a book of its own beside them.  It is
lawful if its transfers move exactly the bytes that they are asked for: a
transfer that succeeds copies a stretch of the contents or lays data over
it, and one that fails leaves the contents alone.  Whether and when transfers
fail is left open, so that what is proved of a lawful storage holds under
every pattern of failures.

`ScheduledDisk` is the storage with an arbitrary such pattern.  The bytes of
an image and the disk with switches are lawful as well.
-/

namespace ZMachine

/-! ## Laying data over bytes -/

theorem size_overlay (bytes data : Array UInt8) (offset : Nat)
    (hfits : offset + data.size ≤ bytes.size) :
    (overlay bytes offset data).size = bytes.size := by
  unfold overlay
  split
  · rfl
  · simp only [Array.size_append, Array.size_extract, Array.size_replicate]
    omega

theorem getElem?_overlay (bytes data : Array UInt8) (offset i : Nat)
    (hfits : offset + data.size ≤ bytes.size) :
    (overlay bytes offset data)[i]? =
      if offset ≤ i ∧ i < offset + data.size then data[i - offset]?
      else bytes[i]? := by
  unfold overlay
  split
  next hempty =>
    have hsize : data.size = 0 := by simpa using hempty
    rw [if_neg (by omega)]
  next =>
    have hgap : offset - bytes.size = 0 := by omega
    have hbefore : min offset bytes.size - 0 = offset := by omega
    simp only [Array.getElem?_append, Array.size_append,
      Array.size_extract, Array.size_replicate, hgap, hbefore, Nat.add_zero]
    rcases Nat.lt_or_ge i offset with hbelow | hfrom
    · rw [if_pos (by omega), if_pos hbelow, if_pos hbelow, if_neg (by omega),
        Array.getElem?_extract, if_pos (by omega), Nat.zero_add]
    · rcases Nat.lt_or_ge i (offset + data.size) with hin | hbehind
      · rw [if_pos hin, if_neg (by omega), if_pos ⟨hfrom, hin⟩]
      · have hindex : offset + data.size + (i - (offset + data.size)) = i := by omega
        rw [if_neg (by omega), if_neg (by omega), Array.getElem?_extract, hindex]
        split
        next => rfl
        next hend => rw [Array.getElem?_eq_none (by omega)]

/-! ## The laws -/

class LawfulStorage (S : Type) [Storage S] where
  /-- The bytes of a storage, without its book-keeping. -/
  contents : S → Array UInt8
  /-- No transfer is going to fail. -/
  Reliable : S → Prop
  size_ok {s s' : S} {n : Nat} :
    Storage.size s = .ok n s' →
      n = (contents s).size ∧ contents s' = contents s ∧
        (Reliable s → Reliable s')
  readAt_ok {s s' : S} {offset length : Nat} {bytes : Array UInt8} :
    Storage.readAt offset length s = .ok bytes s' →
      bytes = (contents s).extract offset (offset + length) ∧
        contents s' = contents s ∧ (Reliable s → Reliable s')
  readAt_error {s s' : S} {offset length : Nat} {e : Fault} :
    Storage.readAt offset length s = .error e s' →
      contents s' = contents s ∧ ¬ Reliable s
  /-- Only data that fits into the contents is ever written. -/
  writeAt_ok {s s' : S} {offset : Nat} {data : Array UInt8} :
    offset + data.size ≤ (contents s).size →
      Storage.writeAt offset data s = .ok () s' →
        contents s' = overlay (contents s) offset data ∧
          (Reliable s → Reliable s')
  writeAt_error {s s' : S} {offset : Nat} {data : Array UInt8} {e : Fault} :
    Storage.writeAt offset data s = .error e s' →
      contents s' = contents s ∧ ¬ Reliable s
  size_error {s s' : S} {e : Fault} :
    Storage.size s = .error e s' → ¬ Reliable s

/-! ## Storages that follow them -/

instance : LawfulStorage Image where
  contents image := image.bytes
  Reliable _ := True
  size_ok h := by cases h; simp
  readAt_ok h := by cases h; simp
  readAt_error h := by cases h
  writeAt_ok _ h := by cases h; simp
  writeAt_error h := by cases h
  size_error h := by cases h

namespace Disk

theorem readAt_eq (offset length : Nat) (d : Disk) :
    readAt offset length d =
      let noted := { d with journal := .read offset length :: d.journal }
      if d.refusesReads then .error (.storage "bad sector") noted
      else .ok (d.bytes.extract offset (offset + length)) noted := rfl

theorem writeAt_eq (offset : Nat) (data : Array UInt8) (d : Disk) :
    writeAt offset data d =
      let noted := { d with journal := .write offset data.size :: d.journal }
      if d.refusesWrites then .error (.storage "disk full") noted
      else .ok () { noted with bytes := overlay d.bytes offset data } := rfl

end Disk

instance : LawfulStorage Disk where
  contents d := d.bytes
  Reliable d := d.refusesReads = false ∧ d.refusesWrites = false
  size_ok h := by cases h; simp
  readAt_ok h := by
    simp only [Storage.readAt, Disk.readAt_eq] at h
    split at h <;> cases h
    simp
  readAt_error h := by
    simp only [Storage.readAt, Disk.readAt_eq] at h
    split at h <;> cases h
    simp_all
  writeAt_ok _ h := by
    simp only [Storage.writeAt, Disk.writeAt_eq] at h
    split at h <;> cases h
    simp
  writeAt_error h := by
    simp only [Storage.writeAt, Disk.writeAt_eq] at h
    split at h <;> cases h
    simp_all
  size_error h := by cases h

/-! ## Failures by schedule -/

/-- A disk on which every transfer may fail, each in its own way. -/
structure ScheduledDisk where
  bytes : Array UInt8
  /-- The fault of each transfer by its number, `none` if it succeeds. -/
  faults : Nat → Option Fault
  /-- Transfers asked for so far. -/
  transfers : Nat := 0

namespace ScheduledDisk

def readAt (offset length : Nat) :
    EStateM Fault ScheduledDisk (Array UInt8) := fun d =>
  let next := { d with transfers := d.transfers + 1 }
  match d.faults d.transfers with
  | some e => .error e next
  | none => .ok (d.bytes.extract offset (offset + length)) next

def writeAt (offset : Nat) (data : Array UInt8) :
    EStateM Fault ScheduledDisk Unit := fun d =>
  let next := { d with transfers := d.transfers + 1 }
  match d.faults d.transfers with
  | some e => .error e next
  | none => .ok () { next with bytes := overlay d.bytes offset data }

instance : Storage ScheduledDisk where
  size := fun d => .ok d.bytes.size d
  readAt := readAt
  writeAt := writeAt

/-- The schedule has no fault from the next transfer on. -/
def FaultFree (d : ScheduledDisk) : Prop :=
  ∀ k, d.transfers ≤ k → d.faults k = none

theorem FaultFree.next
    {d : ScheduledDisk} (hfree : d.FaultFree) (bytes : Array UInt8) :
    FaultFree { d with bytes, transfers := d.transfers + 1 } := by
  intro k hk
  exact hfree k (Nat.le_of_succ_le hk)

instance : LawfulStorage ScheduledDisk where
  contents d := d.bytes
  Reliable := FaultFree
  size_ok h := by cases h; simp
  readAt_ok {s _ _ _ _} h := by
    simp only [Storage.readAt, readAt] at h
    split at h <;> cases h
    exact ⟨rfl, rfl, fun hfree => hfree.next s.bytes⟩
  readAt_error {s _ _ _ _} h := by
    simp only [Storage.readAt, readAt] at h
    split at h <;> cases h
    next hfault =>
      refine ⟨rfl, fun hfree => ?_⟩
      simp [hfree s.transfers (Nat.le_refl _)] at hfault
  writeAt_ok {s _ _ _} _ h := by
    simp only [Storage.writeAt, writeAt] at h
    split at h <;> cases h
    exact ⟨rfl, fun hfree => hfree.next _⟩
  writeAt_error {s _ _ _ _} h := by
    simp only [Storage.writeAt, writeAt] at h
    split at h <;> cases h
    next hfault =>
      refine ⟨rfl, fun hfree => ?_⟩
      simp [hfree s.transfers (Nat.le_refl _)] at hfault
  size_error h := by cases h

end ScheduledDisk
end ZMachine
