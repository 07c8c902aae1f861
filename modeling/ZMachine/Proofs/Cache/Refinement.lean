import ZMachine.Proofs.Cache.Consistency
import ZMachine.Proofs.Simulation.Memory

/-!
# The block cache refines flat memory

Every access goes through `slotFor`, which brings the block of an address into
a slot by way of `Follows` steps.  So an access that fails leaves the logical
contents alone, a read answers from them, and a write changes one byte of
them.  Flushing makes the storage equal to them.

Failures of the storage are the only ones that flat memory does not have:
over a storage that is reliable, a cache answers every sequence of calls as
the image of its logical contents does.
-/

namespace ZMachine.BlockCache

open LawfulStorage (contents Reliable)

variable {S : Type} {extra : Nat}

/-! ## Finding a slot -/

/-- Choosing a slot advances the random stream and nothing else. -/
theorem victim_snd (c : BlockCache S extra) :
    ∃ stream, c.victim.2 = { c with stream } := by
  unfold victim
  split
  next => exact ⟨_, rfl⟩
  next => split <;> exact ⟨c.stream, rfl⟩

variable [Storage S]

theorem slotFor_of_le {c : BlockCache S extra} {address : Nat}
    (h : c.size ≤ address) :
    slotFor address c = .error (.addressOutOfRange address c.size) c := by
  have hget : (get : MemoryM (BlockCache S extra) _) c = .ok c c := rfl
  rw [slotFor, bind_ok hget, if_pos h]
  rfl

/-- The cache once an access in range is counted. -/
def ticked (c : BlockCache S extra) : BlockCache S extra :=
  { c with tick := c.tick + 1 }

theorem slotFor_of_lt {c : BlockCache S extra} {address : Nat}
    (h : address < c.size) :
    slotFor address c =
      match c.ticked.resident? (blockOf address) with
      | some i => (do touch i; return i) c.ticked
      | none =>
          (do writeBack c.ticked.victim.1
              loadBlock c.ticked.victim.1 (blockOf address)
              touch c.ticked.victim.1
              return c.ticked.victim.1) c.ticked.victim.2 := by
  have hle : ¬ c.size ≤ address := Nat.not_le_of_lt h
  have hget : (get : MemoryM (BlockCache S extra) _) c = .ok c c := rfl
  have hticked : (get : MemoryM (BlockCache S extra) _) c.ticked = .ok c.ticked c.ticked := rfl
  have htick : (modify fun c => { c with tick := c.tick + 1 } :
      MemoryM (BlockCache S extra) Unit) c = .ok () c.ticked := rfl
  rw [slotFor, bind_ok hget, if_neg hle]
  refine (bind_ok htick).trans ((bind_ok hticked).trans ?_)
  cases c.ticked.resident? (blockOf address) <;> rfl

/-- An access finds its block in a slot, or takes a slot and loads it. -/
theorem slotFor_cases {c c' : BlockCache S extra} {address : Nat} {i : Fin (extra + 1)}
    (h : slotFor address c = .ok i c') :
    address < c.size ∧
      ((c.ticked.resident? (blockOf address) = some i ∧ touch i c.ticked = .ok () c') ∨
        (c.ticked.resident? (blockOf address) = none ∧ i = c.ticked.victim.1 ∧
          ∃ c₁ c₂, writeBack i c.ticked.victim.2 = .ok () c₁ ∧
            loadBlock i (blockOf address) c₁ = .ok () c₂ ∧ touch i c₂ = .ok () c')) := by
  have hlt : address < c.size := by
    refine Nat.lt_of_not_le fun hle => ?_
    rw [slotFor_of_le hle] at h
    cases h
  refine ⟨hlt, ?_⟩
  rw [slotFor_of_lt hlt] at h
  cases hfound : c.ticked.resident? (blockOf address) with
  | some j =>
      rw [hfound] at h
      obtain ⟨_, c₁, htouch, hret⟩ := bind_eq_ok_iff.mp h
      cases hret
      exact .inl ⟨rfl, htouch⟩
  | none =>
      rw [hfound] at h
      obtain ⟨_, c₁, hwrite, h⟩ := bind_eq_ok_iff.mp h
      obtain ⟨_, c₂, hload, h⟩ := bind_eq_ok_iff.mp h
      obtain ⟨_, c₃, htouch, hret⟩ := bind_eq_ok_iff.mp h
      cases hret
      exact .inr ⟨rfl, rfl, c₁, c₂, hwrite, hload, htouch⟩

variable [LawfulStorage S]

theorem Consistent.follows_ticked
    {c : BlockCache S extra} (hc : c.Consistent) : Follows c c.ticked :=
  hc.follows_of_same rfl rfl id (fun _ => rfl) (fun _ => rfl) (fun _ => rfl)

theorem Consistent.follows_touched
    {c c' : BlockCache S extra} (hc : c.Consistent) {i : Fin (extra + 1)}
    (h : touch i c = .ok () c') :
    Follows c c' ∧ ∀ j : Fin (extra + 1), (c'.slots.get j).base = (c.slots.get j).base := by
  cases h
  have hslot : ∀ j : Fin (extra + 1), ∃ lastUsed,
      (c.setSlot i { c.slots[i] with lastUsed := c.tick }).slots.get j =
        { c.slots.get j with lastUsed } := by
    intro j
    rw [slots_setSlot]
    split
    next heq =>
      subst heq
      exact ⟨c.tick, rfl⟩
    next => exact ⟨(c.slots.get j).lastUsed, rfl⟩
  constructor
  · refine hc.follows_of_same ?_ ?_ id (fun j => ?_) (fun j => ?_) (fun j => ?_)
    iterate 2 rfl
    all_goals
      obtain ⟨lastUsed, h⟩ := hslot j
      rw [h]
  · intro j
    obtain ⟨lastUsed, h⟩ := hslot j
    rw [h]

theorem Consistent.follows_victim
    {c : BlockCache S extra} (hc : c.Consistent) :
    Follows c c.victim.2 ∧
      ∀ j : Fin (extra + 1), (c.victim.2.slots.get j).base = (c.slots.get j).base := by
  obtain ⟨stream, h⟩ := c.victim_snd
  rw [h]
  exact ⟨hc.follows_of_same rfl rfl id (fun _ => rfl) (fun _ => rfl) (fun _ => rfl),
    fun _ => rfl⟩

theorem Consistent.slotFor_ok
    {c c' : BlockCache S extra} (hc : c.Consistent)
    {address : Nat} {i : Fin (extra + 1)}
    (h : slotFor address c = .ok i c') :
    address < c.size ∧ Follows c c' ∧ (c'.slots.get i).base = some (blockOf address) := by
  have hticked := hc.follows_ticked
  obtain ⟨hlt, ⟨hfound, htouch⟩ | ⟨hfound, rfl, c₁, c₂, hwrite, hload, htouch⟩⟩ := slotFor_cases h
  · obtain ⟨htouched, hbase⟩ := hticked.consistent.follows_touched htouch
    exact ⟨hlt, hticked.trans htouched, (hbase i).trans (base_of_resident?_eq_some hfound)⟩
  · have habsent := (resident?_eq_none_iff _ _).mp hfound
    obtain ⟨hvictim, hchosen⟩ := hticked.consistent.follows_victim
    obtain ⟨hwritten, hbases, -, hclean⟩ := hvictim.consistent.writeBack_ok hwrite
    have hsize : c₁.size = c.size :=
      ((hticked.trans hvictim).trans hwritten).size_eq
    have hstill : ∀ j : Fin (extra + 1), (c₁.slots.get j).base ≠ some (blockOf address) := by
      intro j
      rw [hbases j, hchosen j]
      exact habsent j
    obtain ⟨hloaded, hbase⟩ := hwritten.consistent.loadBlock_ok (blockOf_mod address)
      (Nat.lt_of_le_of_lt (blockOf_le address) (hsize ▸ hlt)) hstill hclean hload
    obtain ⟨htouched, hsame⟩ := hloaded.consistent.follows_touched htouch
    exact ⟨hlt, (((hticked.trans hvictim).trans hwritten).trans hloaded).trans htouched,
      (hsame _).trans hbase⟩

/-- An access in range fails only through the storage. -/
theorem Consistent.slotFor_error
    {c c' : BlockCache S extra} (hc : c.Consistent) {address : Nat} {e : Fault}
    (h : slotFor address c = .error e c') :
    Follows c c' ∧
      ((c.size ≤ address ∧ e = .addressOutOfRange address c.size) ∨
        (address < c.size ∧ ¬ Reliable c.storage)) := by
  by_cases hle : c.size ≤ address
  · rw [slotFor_of_le hle] at h
    cases h
    exact ⟨.refl hc, .inl ⟨hle, rfl⟩⟩
  · have hlt := Nat.lt_of_not_le hle
    have hticked := hc.follows_ticked
    rw [slotFor_of_lt hlt] at h
    cases hfound : c.ticked.resident? (blockOf address) with
    | some j =>
        rw [hfound] at h
        cases h
    | none =>
        rw [hfound] at h
        obtain ⟨hvictim, -⟩ := hticked.consistent.follows_victim
        have hbefore := hticked.trans hvictim
        rcases bind_eq_error_iff.mp h with hwrite | ⟨_, c₁, hwrite, h⟩
        · obtain ⟨hfollows, hfailed⟩ := hvictim.consistent.writeBack_error hwrite
          exact ⟨hbefore.trans hfollows, .inr ⟨hlt, mt hbefore.reliable hfailed⟩⟩
        · obtain ⟨hwritten, -, -, hclean⟩ := hvictim.consistent.writeBack_ok hwrite
          have hbefore := hbefore.trans hwritten
          rcases bind_eq_error_iff.mp h with hload | ⟨_, c₂, hload, h⟩
          · obtain ⟨hfollows, hfailed⟩ := hwritten.consistent.loadBlock_error hclean hload
            exact ⟨hbefore.trans hfollows, .inr ⟨hlt, mt hbefore.reliable hfailed⟩⟩
          · cases h

/-! ## Bytes -/

theorem Consistent.readByte_ok
    {c c' : BlockCache S extra} (hc : c.Consistent) {address : Nat} {b : UInt8}
    (h : readByte address c = .ok b c') :
    address < c.size ∧ Follows c c' ∧ b = c.logicalByte address := by
  obtain ⟨i, c₁, hslot, hret⟩ := bind_eq_ok_iff.mp h
  cases hret
  obtain ⟨hlt, hfollows, hbase⟩ := hc.slotFor_ok hslot
  refine ⟨hlt, hfollows, ?_⟩
  rw [← hfollows.logicalByte_eq address hlt,
    hfollows.consistent.logicalByte_of_slot hbase]
  rfl

theorem Consistent.readByte_error
    {c c' : BlockCache S extra} (hc : c.Consistent) {address : Nat} {e : Fault}
    (h : readByte address c = .error e c') :
    Follows c c' ∧
      ((c.size ≤ address ∧ e = .addressOutOfRange address c.size) ∨
        (address < c.size ∧ ¬ Reliable c.storage)) := by
  rcases bind_eq_error_iff.mp h with hslot | ⟨i, c₁, -, hret⟩
  · exact hc.slotFor_error hslot
  · cases hret

/-- A slot with a byte written to it. -/
def withByte (slot : Slot) (place : Fin blockSize) (value : UInt8) : Slot :=
  { slot with data := slot.data.set place value, dirty := true }

theorem Consistent.written
    {c : BlockCache S extra} (hc : c.Consistent) {i : Fin (extra + 1)}
    {address : Nat} (hi : (c.slots.get i).base = some (blockOf address)) (value : UInt8) :
    let c' := c.setSlot i (withByte (c.slots.get i) (placeInBlock address) value)
    c'.Consistent ∧
      ∀ a, c'.logicalByte a = if a = address then value else c.logicalByte a := by
  intro c'
  have hslot : ∀ j : Fin (extra + 1), c'.slots.get j =
      if j = i then withByte (c.slots.get i) (placeInBlock address) value
      else c.slots.get j :=
    fun j => slots_setSlot c i j _
  have hbase : ∀ j : Fin (extra + 1), (c'.slots.get j).base = (c.slots.get j).base := by
    intro j
    rw [hslot j]
    split
    next heq =>
      rw [heq]
      rfl
    next => rfl
  have hconsistent : c'.Consistent := by
    constructor
    · exact hc.size_eq
    · intro j k base hj hk
      rw [hbase] at hj hk
      exact hc.distinct j k base hj hk
    · intro j base hj
      rw [hbase] at hj
      exact hc.aligned j base hj
    · intro j a hj hdirty ha
      rw [hslot j] at hj hdirty ⊢
      split at hdirty
      next => cases hdirty
      next hne =>
        rw [if_neg hne] at hj ⊢
        exact hc.clean j a hj hdirty ha
  refine ⟨hconsistent, fun a => ?_⟩
  by_cases hblock : blockOf a = blockOf address
  · -- The written slot is the one that answers for `a`.
    have hi' : (c.slots.get i).base = some (blockOf a) := by rw [hi, hblock]
    rw [hconsistent.logicalByte_of_slot ((hbase i).trans hi'),
      hc.logicalByte_of_slot hi', hslot i, if_pos rfl]
    have hplace : (placeInBlock address).val = (placeInBlock a).val ↔ a = address := by
      have ha := blockOf_add_placeInBlock a
      have haddress := blockOf_add_placeInBlock address
      omega
    refine (Vector.getElem_set (placeInBlock address).isLt (placeInBlock a).isLt).trans ?_
    simp only [hplace]
    rfl
  · have hne : a ≠ address := fun h => hblock (by rw [h])
    rw [if_neg hne]
    cases hfound : c.resident? (blockOf a) with
    | some j =>
        have hj := base_of_resident?_eq_some hfound
        have hji : j ≠ i := by
          rintro rfl
          exact hblock (Option.some.inj (hj.symm.trans hi))
        rw [hconsistent.logicalByte_of_slot ((hbase j).trans hj),
          hc.logicalByte_of_slot hj, hslot j, if_neg hji]
    | none =>
        have habsent := (resident?_eq_none_iff c _).mp hfound
        rw [logicalByte_of_absent habsent,
          logicalByte_of_absent fun j => hbase j ▸ habsent j]
        rfl

theorem Consistent.writeByte_ok
    {c c' : BlockCache S extra} (hc : c.Consistent) {address : Nat} {value : UInt8}
    (h : writeByte address value c = .ok () c') :
    address < c.size ∧ c'.Consistent ∧ (Reliable c.storage → Reliable c'.storage) ∧
      c'.logical = c.logical.setIfInBounds address value := by
  obtain ⟨i, c₁, hslot, hmodify⟩ := bind_eq_ok_iff.mp h
  cases hmodify
  obtain ⟨hlt, hfollows, hbase⟩ := hc.slotFor_ok hslot
  obtain ⟨hconsistent, hbytes⟩ := hfollows.consistent.written hbase value
  refine ⟨hlt, hconsistent, hfollows.reliable, ?_⟩
  change (c₁.setSlot i (withByte (c₁.slots.get i) (placeInBlock address) value)).logical = _
  rw [← hfollows.logical_eq]
  apply Array.ext_getElem?
  intro a
  rw [getElem?_logical, Array.getElem?_setIfInBounds, getElem?_logical, hbytes a,
    size_logical, hfollows.size_eq]
  by_cases ha : a = address
  · subst ha
    simp [hlt, setSlot, hfollows.size_eq]
  · simp [ha, Ne.symm ha, setSlot, hfollows.size_eq]

theorem Consistent.writeByte_error
    {c c' : BlockCache S extra} (hc : c.Consistent) {address : Nat} {value : UInt8}
    {e : Fault} (h : writeByte address value c = .error e c') :
    Follows c c' ∧
      ((c.size ≤ address ∧ e = .addressOutOfRange address c.size) ∨
        (address < c.size ∧ ¬ Reliable c.storage)) := by
  rcases bind_eq_error_iff.mp h with hslot | ⟨i, c₁, -, hmodify⟩
  · exact hc.slotFor_error hslot
  · cases hmodify

/-! ## Flushing -/

theorem Consistent.writeBackAll_ok
    {c c' : BlockCache S extra} (hc : c.Consistent) (slots : List (Fin (extra + 1)))
    (h : slots.forM writeBack c = .ok () c') :
    Follows c c' ∧
      (∀ j : Fin (extra + 1), (c'.slots.get j).base = (c.slots.get j).base) ∧
      (∀ j : Fin (extra + 1), (c.slots.get j).dirty = false → (c'.slots.get j).dirty = false) ∧
      ∀ j ∈ slots, (c'.slots.get j).base = none ∨ (c'.slots.get j).dirty = false := by
  induction slots generalizing c with
  | nil =>
      cases h
      exact ⟨.refl hc, fun _ => rfl, fun _ => id, by simp⟩
  | cons i slots ih =>
      obtain ⟨_, c₁, hwrite, hrest⟩ := bind_eq_ok_iff.mp h
      obtain ⟨hfollows, hbase, hclean, hdone⟩ := hc.writeBack_ok hwrite
      obtain ⟨hfollows', hbase', hclean', hdone'⟩ := ih hfollows.consistent hrest
      refine ⟨hfollows.trans hfollows', fun j => (hbase' j).trans (hbase j),
        fun j hj => hclean' j (hclean j hj), fun j hj => ?_⟩
      rcases List.mem_cons.mp hj with rfl | hj
      · exact hdone.imp (hbase' j).trans (hclean' j)
      · exact hdone' j hj

theorem Consistent.writeBackAll_error
    {c c' : BlockCache S extra} (hc : c.Consistent) (slots : List (Fin (extra + 1)))
    {e : Fault} (h : slots.forM writeBack c = .error e c') :
    Follows c c' ∧ ¬ Reliable c.storage := by
  induction slots generalizing c with
  | nil => cases h
  | cons i slots ih =>
      rcases bind_eq_error_iff.mp h with hwrite | ⟨_, c₁, hwrite, hrest⟩
      · exact hc.writeBack_error hwrite
      · obtain ⟨hfollows, -⟩ := hc.writeBack_ok hwrite
        obtain ⟨hfollows', hfailed⟩ := ih hfollows.consistent hrest
        exact ⟨hfollows.trans hfollows', mt hfollows.reliable hfailed⟩

/-- With no changed slot left, slots and storage agree. -/
theorem Consistent.contents_eq_logical
    {c : BlockCache S extra} (hc : c.Consistent)
    (hclean : ∀ j : Fin (extra + 1), (c.slots.get j).base = none ∨ (c.slots.get j).dirty = false) :
    contents c.storage = c.logical := by
  apply Array.ext_getElem?
  intro a
  rw [getElem?_logical]
  split
  next ha =>
    have hbyte : c.logicalByte a = (contents c.storage).getD a 0 := by
      cases hfound : c.resident? (blockOf a) with
      | none => exact logicalByte_of_absent ((resident?_eq_none_iff c _).mp hfound)
      | some j =>
          have hj := base_of_resident?_eq_some hfound
          rw [hc.logicalByte_of_slot hj]
          refine hc.clean j a hj ((hclean j).resolve_left ?_) ha
          rw [hj]
          exact Option.some_ne_none _
    have ha' : a < (contents c.storage).size := hc.size_eq ▸ ha
    rw [hbyte, Array.getD_eq_getD_getElem?, Array.getElem?_eq_getElem ha']
    rfl
  next ha =>
    rw [Array.getElem?_eq_none_iff, hc.size_eq]
    omega

theorem Consistent.flush_ok
    {c c' : BlockCache S extra} (hc : c.Consistent) (h : flush c = .ok () c') :
    Follows c c' ∧ contents c'.storage = c.logical := by
  obtain ⟨hfollows, -, -, hclean⟩ := hc.writeBackAll_ok _ h
  refine ⟨hfollows, ?_⟩
  rw [hfollows.consistent.contents_eq_logical fun j => hclean j (List.mem_finRange j),
    hfollows.logical_eq]

theorem Consistent.flush_error
    {c c' : BlockCache S extra} (hc : c.Consistent) {e : Fault}
    (h : flush c = .error e c') :
    Follows c c' ∧ ¬ Reliable c.storage :=
  hc.writeBackAll_error _ h

/-! ## Flat memory beside a cache -/

/-- The image that holds the logical contents of a cache, over a storage that
is reliable if failures count. -/
structure Shows (strict : Prop) (c : BlockCache S extra) (image : Image) : Prop where
  consistent : c.Consistent
  reliable : strict → Reliable c.storage
  bytes_eq : image.bytes = c.logical

theorem Shows.follow
    {strict : Prop} {c c' : BlockCache S extra} {image : Image}
    (h : Shows strict c image) (hfollows : Follows c c') : Shows strict c' image where
  consistent := hfollows.consistent
  reliable hstrict := hfollows.reliable (h.reliable hstrict)
  bytes_eq := h.bytes_eq.trans hfollows.logical_eq.symm

theorem Shows.size_eq
    {strict : Prop} {c : BlockCache S extra} {image : Image}
    (h : Shows strict c image) : image.bytes.size = c.size := by
  rw [h.bytes_eq, size_logical]

theorem sim_readByte (strict : Prop) (address : Nat) :
    Sim strict (Shows strict) (Shows strict)
      (readByte address : MemoryM (BlockCache S extra) UInt8) (Image.readByte address) where
  ok {c c' image b} hshows h := by
    obtain ⟨hlt, hfollows, hb⟩ := hshows.consistent.readByte_ok h
    have hlt' : address < image.bytes.size := hshows.size_eq ▸ hlt
    refine ⟨image, ?_, hshows.follow hfollows⟩
    have hbyte : image.bytes[address]? = some b := by
      rw [hshows.bytes_eq, getElem?_logical, if_pos hlt, hb]
    rw [Array.getElem?_eq_getElem hlt'] at hbyte
    rw [Image.readByte, dif_pos hlt', Option.some.inj hbyte]
  error hstrict c c' image e hshows h := by
    obtain ⟨hfollows, hcause⟩ := hshows.consistent.readByte_error h
    refine ⟨image, ?_, hshows.follow hfollows⟩
    rcases hcause with ⟨hle, rfl⟩ | ⟨-, hfailed⟩
    · have hge : ¬ address < image.bytes.size := by
        rw [hshows.size_eq]
        omega
      rw [Image.readByte, dif_neg hge, hshows.size_eq]
    · exact absurd (hshows.reliable hstrict) hfailed

theorem sim_writeByte (strict : Prop) (address : Nat) (value : UInt8) :
    Sim strict (Shows strict) (Shows strict)
      (writeByte address value : MemoryM (BlockCache S extra) Unit)
      (Image.writeByte address value) where
  ok {c c' image _} hshows h := by
    obtain ⟨hlt, hconsistent, hreliable, hlogical⟩ := hshows.consistent.writeByte_ok h
    have hlt' : address < image.bytes.size := hshows.size_eq ▸ hlt
    refine ⟨⟨image.bytes.set address value⟩, ?_, hconsistent,
      fun hstrict => hreliable (hshows.reliable hstrict), ?_⟩
    · rw [Image.writeByte, dif_pos hlt']
    · rw [hlogical, ← hshows.bytes_eq, Array.setIfInBounds, dif_pos hlt']
  error hstrict c c' image e hshows h := by
    obtain ⟨hfollows, hcause⟩ := hshows.consistent.writeByte_error h
    refine ⟨image, ?_, hshows.follow hfollows⟩
    rcases hcause with ⟨hle, rfl⟩ | ⟨-, hfailed⟩
    · have hge : ¬ address < image.bytes.size := by
        rw [hshows.size_eq]
        omega
      rw [Image.writeByte, dif_neg hge, hshows.size_eq]
    · exact absurd (hshows.reliable hstrict) hfailed

theorem sim_flush (strict : Prop) :
    Sim strict (Shows strict) (Shows strict)
      (flush : MemoryM (BlockCache S extra) Unit) (return : MemoryM Image Unit) where
  ok {c c' image _} hshows h := by
    obtain ⟨hfollows, -⟩ := hshows.consistent.flush_ok h
    exact ⟨image, rfl, hshows.follow hfollows⟩
  error hstrict c c' image e hshows h := by
    obtain ⟨-, hfailed⟩ := hshows.consistent.flush_error h
    exact absurd (hshows.reliable hstrict) hfailed

theorem memorySim (strict : Prop) :
    MemorySim (M := BlockCache S extra) strict (Shows strict) where
  size_eq _ _ h := h.size_eq.symm
  readByte := sim_readByte strict
  writeByte := sim_writeByte strict
  flush := sim_flush strict

/-- Accesses keep a cache consistent, those that fail included. -/
theorem memorySim_consistent (n : Nat) :
    MemorySim True fun c d : BlockCache S extra => c = d ∧ c.Consistent ∧ c.size = n where
  size_eq _ _ h := by rw [h.1]
  readByte address := by
    refine .of_invariant (fun hinv h => ?_) (fun hinv h => ?_)
    · obtain ⟨-, hfollows, -⟩ := hinv.1.readByte_ok h
      exact ⟨hfollows.consistent, hfollows.size_eq.trans hinv.2⟩
    · obtain ⟨hfollows, -⟩ := hinv.1.readByte_error h
      exact ⟨hfollows.consistent, hfollows.size_eq.trans hinv.2⟩
  writeByte address value := by
    refine .of_invariant (fun hinv h => ?_) (fun hinv h => ?_)
    · obtain ⟨-, hconsistent, -, hlogical⟩ := hinv.1.writeByte_ok h
      refine ⟨hconsistent, ?_⟩
      rw [← size_logical, hlogical, Array.size_setIfInBounds, size_logical, hinv.2]
    · obtain ⟨hfollows, -⟩ := hinv.1.writeByte_error h
      exact ⟨hfollows.consistent, hfollows.size_eq.trans hinv.2⟩
  flush := by
    refine .of_invariant (fun hinv h => ?_) (fun hinv h => ?_)
    · obtain ⟨hfollows, -⟩ := hinv.1.flush_ok h
      exact ⟨hfollows.consistent, hfollows.size_eq.trans hinv.2⟩
    · obtain ⟨hfollows, -⟩ := hinv.1.flush_error h
      exact ⟨hfollows.consistent, hfollows.size_eq.trans hinv.2⟩

theorem ofStorage_ok
    {policy : Eviction} {stream : ChaCha.Stream} {storage : S} {c : BlockCache S extra}
    (h : ofStorage extra policy stream storage = .ok c) :
    c.Consistent ∧ c.logical = contents storage ∧
      (Reliable storage → Reliable c.storage) := by
  unfold ofStorage at h
  split at h
  next size storage' hsize =>
    cases h
    obtain ⟨hn, hcontents, hreliable⟩ := LawfulStorage.size_ok hsize
    have hempty : ∀ i : Fin (extra + 1),
        ((Vector.replicate (extra + 1) ({} : Slot)).get i).base = none :=
      fun i => congrArg Slot.base (Vector.getElem_replicate i.isLt)
    have hconsistent : Consistent
        { storage := storage', policy, stream, size,
          slots := Vector.replicate (extra + 1) {}, tick := 0 } := by
      constructor
      · rw [hcontents, hn]
      · intro i j base hi _
        cases (hempty i).symm.trans hi
      · intro i base hi
        cases (hempty i).symm.trans hi
      · intro i address hi _ _
        cases (hempty i).symm.trans hi
    refine ⟨hconsistent, ?_, hreliable⟩
    rw [← hconsistent.contents_eq_logical fun j => .inl (hempty j), hcontents]
  next => cases h

theorem exists_ofStorage
    {storage : S} (hreliable : Reliable storage) (extra : Nat) (policy : Eviction)
    (stream : ChaCha.Stream) :
    ∃ c, ofStorage extra policy stream storage = .ok c := by
  unfold ofStorage
  split
  next => exact ⟨_, rfl⟩
  next hsize => exact absurd hreliable (LawfulStorage.size_error hsize)

/-! ## Any sequence of calls under any failures -/

/-- What the user of a cache may rely on at any time. -/
structure Faithful (n : Nat) (c : BlockCache S extra) : Prop where
  size : c.logical.size = n
  read {address b c'} : readByte address c = .ok b c' →
    c.logical[address]? = some b ∧ c'.logical = c.logical
  write {address value c'} : writeByte address value c = .ok () c' →
    address < n ∧ c'.logical = c.logical.setIfInBounds address value
  read_fails {address e c'} : readByte address c = .error e c' → c'.logical = c.logical
  write_fails {address value e c'} :
    writeByte address value c = .error e c' → c'.logical = c.logical
  flush {c'} : flush c = .ok () c' →
    c'.logical = c.logical ∧ contents c'.storage = c.logical
  flush_fails {e c'} : BlockCache.flush c = .error e c' → c'.logical = c.logical
  /-- A call that succeeds does what it does on flat memory. -/
  perform {call : Memory.Call} {answer c'} : call.perform c = .ok answer c' →
    call.perform (Image.mk c.logical) = .ok answer ⟨c'.logical⟩

theorem Consistent.faithful {c : BlockCache S extra} (hc : c.Consistent) :
    Faithful c.size c where
  size := size_logical c
  read h := by
    obtain ⟨hlt, hfollows, hb⟩ := hc.readByte_ok h
    rw [getElem?_logical, if_pos hlt, hb]
    exact ⟨rfl, hfollows.logical_eq⟩
  write h := by
    obtain ⟨hlt, -, -, hlogical⟩ := hc.writeByte_ok h
    exact ⟨hlt, hlogical⟩
  read_fails h := (hc.readByte_error h).1.logical_eq
  write_fails h := (hc.writeByte_error h).1.logical_eq
  flush h := by
    obtain ⟨hfollows, hcontents⟩ := hc.flush_ok h
    exact ⟨hfollows.logical_eq, hcontents⟩
  flush_fails h := (hc.flush_error h).1.logical_eq
  perform {call _ _} h := by
    have hshows : Shows False c ⟨c.logical⟩ := ⟨hc, False.elim, rfl⟩
    obtain ⟨image, himage, hshows'⟩ :=
      (Parametric.perform call False _ (memorySim False)).ok hshows h
    rw [himage, ← hshows'.bytes_eq]

theorem Consistent.stateAfter
    {c : BlockCache S extra} (hc : c.Consistent) (calls : List Memory.Call) :
    (stateAfter (calls.map Memory.Call.perform) c).Consistent ∧
      (stateAfter (calls.map Memory.Call.perform) c).size = c.size :=
  (Sim.calls (fun call => Parametric.perform call True _ (memorySim_consistent c.size))
    calls ⟨rfl, hc, rfl⟩).2.2

/-- Whatever transfers fail, a cache behaves as flat memory that starts with
the contents of the storage, and where none fails it cannot be told from it. -/
theorem refines_flat_memory
    (storage : S) (extra : Nat) (policy : Eviction) (stream : ChaCha.Stream)
    (c : BlockCache S extra) (h : ofStorage extra policy stream storage = .ok c)
    (calls : List Memory.Call) :
    c.logical = contents storage ∧
      Faithful (contents storage).size (stateAfter (calls.map Memory.Call.perform) c) ∧
      (Reliable storage →
        outcomes (calls.map Memory.Call.perform) c =
          outcomes (calls.map Memory.Call.perform) (Image.mk (contents storage))) := by
  obtain ⟨hc, hlogical, hreliable⟩ := ofStorage_ok h
  obtain ⟨hafter, hsize⟩ := hc.stateAfter calls
  refine ⟨hlogical, ?_, fun hr => ?_⟩
  · rw [← hlogical, size_logical, ← hsize]
    exact hafter.faithful
  · have hshows : Shows True c ⟨contents storage⟩ := ⟨hc, fun _ => hreliable hr, hlogical.symm⟩
    exact (Sim.calls (fun call => Parametric.perform call True _ (memorySim True))
      calls hshows).1

/-- The first load succeeds and the write-back at the next one fails: the
second call is refused, and the third is answered from the changed slot. -/
theorem refines_flat_memory_failing_write_back :
    let disk : ScheduledDisk :=
      { bytes := Array.replicate 600 7
        faults := fun k => if k = 1 then some (.storage "disk full") else none }
    let calls : List Memory.Call := [.writeByte 0 9, .readByte 599, .readByte 0]
    ∃ c : BlockCache ScheduledDisk 0,
      ofStorage 0 .leastRecent (ChaCha.ofSeed 0) disk = .ok c ∧
        (outcomes (calls.map Memory.Call.perform) c).map (·.toOption) =
          [some .done, none, some (.byte 9)] ∧
        c.logical = Array.replicate 600 7 ∧
        Faithful 600 (stateAfter (calls.map Memory.Call.perform) c) := by
  intro disk calls
  have h := refines_flat_memory disk 0 .leastRecent (ChaCha.ofSeed 0) _ rfl calls
  have hsize : (contents disk).size = 600 := Array.size_replicate
  rw [hsize] at h
  exact ⟨_, rfl, by decide +kernel, h.1, h.2.1⟩

end ZMachine.BlockCache
