import ZMachine.Proofs.Cache.Refinement

/-!
# Counting what a cache reads

A storage with a meter notes the offset of every read.  A cache over it goes
through the same states as over the storage itself, so that the meter tells
which blocks a cache reads from its storage.
-/

namespace ZMachine

structure Metered (S : Type) where
  storage : S
  /-- Offsets read so far, the latest first. -/
  reads : List Nat

namespace Metered

variable {S α : Type}

/-- Let the storage itself do a transfer. -/
def lift (x : EStateM Fault S α) : EStateM Fault (Metered S) α := fun m =>
  match x m.storage with
  | .ok a storage => .ok a { m with storage }
  | .error e storage => .error e { m with storage }

theorem lift_eq_ok_iff {x : EStateM Fault S α} {m m' : Metered S} {a : α} :
    lift x m = .ok a m' ↔ ∃ storage, x m.storage = .ok a storage ∧ m' = { m with storage } := by
  simp only [lift]
  cases x m.storage with
  | ok b storage => grind
  | error e storage => simp

theorem lift_eq_error_iff {x : EStateM Fault S α} {m m' : Metered S} {e : Fault} :
    lift x m = .error e m' ↔
      ∃ storage, x m.storage = .error e storage ∧ m' = { m with storage } := by
  simp only [lift]
  cases x m.storage with
  | ok b storage => simp
  | error e storage => grind

variable [Storage S]

instance : Storage (Metered S) where
  size := lift Storage.size
  readAt offset length := fun m =>
    lift (Storage.readAt offset length) { m with reads := offset :: m.reads }
  writeAt offset data := lift (Storage.writeAt offset data)

open LawfulStorage (contents Reliable) in
instance [LawfulStorage S] : LawfulStorage (Metered S) where
  contents m := contents m.storage
  Reliable m := Reliable m.storage
  size_ok h := by
    obtain ⟨storage, hsize, rfl⟩ := lift_eq_ok_iff.mp h
    exact LawfulStorage.size_ok hsize
  readAt_ok h := by
    obtain ⟨storage, hread, rfl⟩ := lift_eq_ok_iff.mp h
    exact LawfulStorage.readAt_ok hread
  readAt_error h := by
    obtain ⟨storage, hread, rfl⟩ := lift_eq_error_iff.mp h
    exact LawfulStorage.readAt_error hread
  writeAt_ok hfits h := by
    obtain ⟨storage, hwrite, rfl⟩ := lift_eq_ok_iff.mp h
    exact LawfulStorage.writeAt_ok hfits hwrite
  writeAt_error h := by
    obtain ⟨storage, hwrite, rfl⟩ := lift_eq_error_iff.mp h
    exact LawfulStorage.writeAt_error hwrite
  size_error h := by
    obtain ⟨storage, hsize, rfl⟩ := lift_eq_error_iff.mp h
    exact LawfulStorage.size_error hsize

end Metered

namespace BlockCache

variable {S α : Type} {extra : Nat}

/-- The cache over the same storage with a meter. -/
def metered (c : BlockCache S extra) : BlockCache (Metered S) extra :=
  { c with storage := ⟨c.storage, []⟩ }

/-- The cache with its meter taken off. -/
def unmetered (c : BlockCache (Metered S) extra) : BlockCache S extra :=
  { c with storage := c.storage.storage }

@[simp] theorem slots_unmetered (c : BlockCache (Metered S) extra) :
    c.unmetered.slots = c.slots := rfl

@[simp] theorem storage_unmetered (c : BlockCache (Metered S) extra) :
    c.unmetered.storage = c.storage.storage := rfl

@[simp] theorem blockLength_unmetered (c : BlockCache (Metered S) extra) (base : Nat) :
    c.unmetered.blockLength base = c.blockLength base := rfl

def Shadows (c : BlockCache (Metered S) extra) (d : BlockCache S extra) : Prop :=
  c.unmetered = d

def withoutMeter : EStateM.Result Fault (BlockCache (Metered S) extra) α →
    EStateM.Result Fault (BlockCache S extra) α
  | .ok a c => .ok a c.unmetered
  | .error e c => .error e c.unmetered

theorem sim_shadows_iff {x : MemoryM (BlockCache (Metered S) extra) α}
    {y : MemoryM (BlockCache S extra) α} :
    Sim True Shadows Shadows x y ↔ ∀ c, y c.unmetered = withoutMeter (x c) := by
  constructor
  · intro h c
    cases hx : x c with
    | ok a c' =>
        obtain ⟨d, hy, rfl⟩ := h.ok rfl hx
        exact hy
    | error e c' =>
        obtain ⟨d, hy, rfl⟩ := h.error trivial rfl hx
        exact hy
  · intro h
    refine ⟨fun {c c' d a} hd hx => ?_, fun _ {c c' d e} hd hx => ?_⟩
    all_goals
      obtain rfl := hd
      exact ⟨c'.unmetered, by rw [h, hx, withoutMeter], rfl⟩

theorem victim_unmetered (c : BlockCache (Metered S) extra) :
    c.unmetered.victim = (c.victim.1, c.victim.2.unmetered) := by
  obtain ⟨storage, slots, policy, stream, size, tick⟩ := c
  cases policy with
  | random => rfl
  | leastRecent =>
      simp only [victim, unmetered]
      split <;> rfl

theorem sim_touch (i : Fin (extra + 1)) :
    Sim True Shadows Shadows
      (touch i : MemoryM (BlockCache (Metered S) extra) Unit) (touch i) :=
  sim_shadows_iff.mpr fun _ => rfl

variable [Storage S]

theorem sim_writeBack (i : Fin (extra + 1)) :
    Sim True Shadows Shadows
      (writeBack i : MemoryM (BlockCache (Metered S) extra) Unit) (writeBack i) := by
  refine sim_shadows_iff.mpr fun c => ?_
  simp only [writeBack, slots_unmetered, storage_unmetered, blockLength_unmetered]
  cases c.slots[i].base with
  | none => rfl
  | some base =>
      cases c.slots[i].dirty with
      | false => rfl
      | true =>
          simp only [Storage.writeAt, Metered.lift]
          cases Storage.writeAt base (c.slots[i].data.toArray.extract 0 (c.blockLength base))
            c.storage.storage <;> rfl

theorem sim_loadBlock (i : Fin (extra + 1)) (base : Nat) :
    Sim True Shadows Shadows
      (loadBlock i base : MemoryM (BlockCache (Metered S) extra) Unit) (loadBlock i base) := by
  refine sim_shadows_iff.mpr fun c => ?_
  simp only [loadBlock, slots_unmetered, storage_unmetered, blockLength_unmetered,
    Storage.readAt, Metered.lift]
  cases Storage.readAt base (c.blockLength base) c.storage.storage <;> rfl

theorem sim_slotFor (address : Nat) :
    Sim True Shadows Shadows
      (slotFor address : MemoryM (BlockCache (Metered S) extra) _) (slotFor address) := by
  refine sim_shadows_iff.mpr fun c => ?_
  rcases Nat.lt_or_ge address c.size with hlt | hge
  · have hresident : c.unmetered.ticked.resident? (blockOf address) =
        c.ticked.resident? (blockOf address) := rfl
    rw [slotFor_of_lt hlt, slotFor_of_lt (c := c.unmetered) hlt, hresident]
    cases c.ticked.resident? (blockOf address) with
    | some i => rfl
    | none =>
        have hvictim : c.unmetered.ticked.victim =
            (c.ticked.victim.1, c.ticked.victim.2.unmetered) := victim_unmetered c.ticked
        have hmiss := Sim.bind (sim_writeBack (S := S) c.ticked.victim.1) fun _ =>
          Sim.bind (sim_loadBlock c.ticked.victim.1 (blockOf address)) fun _ =>
            Sim.bind (sim_touch c.ticked.victim.1) fun _ => Sim.pure c.ticked.victim.1
        rw [hvictim]
        exact sim_shadows_iff.mp hmiss c.ticked.victim.2
  · rw [slotFor_of_le hge, slotFor_of_le (c := c.unmetered) hge]
    rfl

/-- A meter changes nothing that a cache does. -/
theorem memorySim_metered :
    MemorySim True (Shadows : BlockCache (Metered S) extra → BlockCache S extra → Prop) where
  size_eq c d h := congrArg size h
  readByte address :=
    .bind (sim_slotFor address) fun i => .look fun c d h => by rw [← h, slots_unmetered]
  writeByte address value :=
    .bind (sim_slotFor address) fun i => sim_shadows_iff.mpr fun c => rfl
  flush := .forM sim_writeBack

theorem writeBack_reads {c c' : BlockCache (Metered S) extra} {i : Fin (extra + 1)}
    (h : writeBack i c = .ok () c') : c'.storage.reads = c.storage.reads := by
  dsimp only [writeBack] at h
  split at h
  next =>
    split at h <;> cases h
    next hwrite =>
      obtain ⟨storage, -, rfl⟩ := Metered.lift_eq_ok_iff.mp hwrite
      rfl
  next =>
    cases h
    rfl

theorem loadBlock_reads {c c' : BlockCache (Metered S) extra} {i : Fin (extra + 1)} {base : Nat}
    (h : loadBlock i base c = .ok () c') : c'.storage.reads = base :: c.storage.reads := by
  dsimp only [loadBlock] at h
  split at h <;> cases h
  next hread =>
    obtain ⟨storage, -, rfl⟩ := Metered.lift_eq_ok_iff.mp hread
    rfl

end BlockCache
end ZMachine
