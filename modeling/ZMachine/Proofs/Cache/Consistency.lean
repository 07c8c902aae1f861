import ZMachine.Memory.Cache
import ZMachine.Proofs.Storage

/-!
# Consistency of the block cache

The logical contents of a cache are what its user sees: a byte of a resident
block is the byte in its slot, any other is the byte in the storage.  They are
well defined because the cache is consistent: no block is in two slots, and a
slot that is not dirty agrees with the storage.

Taking a slot, writing its block back and loading another one move blocks
without changing the logical contents, whether the transfers succeed or fail.
`Follows` is the relation between two caches of which the second comes about
in this way.
-/

namespace ZMachine

@[simp] theorem getElem_val_eq_get {α : Type} {n : Nat} (xs : Vector α n) (i : Fin n)
    (h : i.val < n) : getElem xs i.val h = xs.get i :=
  rfl

theorem holds_of_findFinIdx? {α : Type} {n : Nat} {xs : Vector α n} {p : α → Bool} {i : Fin n}
    (h : xs.findFinIdx? p = some i) : p (xs.get i) = true := by
  unfold Vector.findFinIdx? at h
  obtain ⟨k, hk, rfl⟩ := Option.map_eq_some_iff.mp h
  exact (Array.findFinIdx?_eq_some_iff.mp hk).1

namespace BlockCache

open LawfulStorage (contents Reliable)

/-! ## Blocks -/

theorem blockOf_add_placeInBlock (address : Nat) :
    blockOf address + (placeInBlock address).val = address := by
  simp only [blockOf, placeInBlock]
  exact Nat.div_add_mod' address blockSize

theorem blockOf_le (address : Nat) : blockOf address ≤ address := by
  have hsplit := blockOf_add_placeInBlock address
  omega

theorem blockOf_mod (address : Nat) : blockOf address % blockSize = 0 := by
  simp [blockOf]

/-- A block is named by its first address. -/
theorem blockOf_eq_iff {base : Nat} (hbase : base % blockSize = 0)
    (address : Nat) :
    blockOf address = base ↔ base ≤ address ∧ address < base + blockSize := by
  simp only [blockOf, blockSize] at *
  omega

variable {S : Type} {extra : Nat}

theorem slots_setSlot
    (c : BlockCache S extra) (i j : Fin (extra + 1)) (s : Slot) :
    (c.setSlot i s).slots.get j = if j = i then s else c.slots.get j := by
  by_cases hj : j = i
  · subst j
    rw [if_pos rfl]
    exact Vector.getElem_set_self i.isLt
  · have hval : i.val ≠ j.val := fun h => hj (Fin.ext h.symm)
    rw [if_neg hj]
    exact Vector.getElem_set_ne i.isLt j.isLt hval

theorem setSlot_setSlot
    (c : BlockCache S extra) (i : Fin (extra + 1)) (s s' : Slot) :
    (c.setSlot i s).setSlot i s' = c.setSlot i s' := by
  simp [setSlot]

theorem resident?_eq_none_iff (c : BlockCache S extra) (base : Nat) :
    c.resident? base = none ↔ ∀ i : Fin (extra + 1), (c.slots.get i).base ≠ some base := by
  unfold resident?
  rw [Vector.findFinIdx?_eq_none_iff]
  constructor
  · intro hnone i hi
    exact hnone (c.slots.get i) (Vector.getElem_mem i.isLt) (by simpa using hi)
  · intro hnone s hs
    obtain ⟨i, hi, rfl⟩ := Vector.mem_iff_getElem.mp hs
    have hslot : (getElem c.slots i hi).base ≠ some base := hnone ⟨i, hi⟩
    simpa using hslot

theorem base_of_resident?_eq_some
    {c : BlockCache S extra} {base : Nat} {i : Fin (extra + 1)}
    (h : c.resident? base = some i) : (c.slots.get i).base = some base := by
  have hfound := holds_of_findFinIdx? h
  simpa using hfound

/-! ## Logical contents -/

variable [Storage S] [LawfulStorage S]

/-- The byte of the resident slot of its block, or that of the storage. -/
def logicalByte (c : BlockCache S extra) (address : Nat) : UInt8 :=
  match c.resident? (blockOf address) with
  | some i => (c.slots.get i).data.get (placeInBlock address)
  | none => (contents c.storage).getD address 0

/-- What the user of a cache sees. -/
def logical (c : BlockCache S extra) : Array UInt8 :=
  Array.ofFn fun address : Fin c.size => c.logicalByte address

@[simp] theorem size_logical (c : BlockCache S extra) :
    c.logical.size = c.size := by
  simp [logical]

theorem getElem?_logical (c : BlockCache S extra) (address : Nat) :
    c.logical[address]? =
      if address < c.size then some (c.logicalByte address) else none := by
  simp [logical, Array.getElem?_ofFn]

structure Consistent (c : BlockCache S extra) : Prop where
  size_eq : (contents c.storage).size = c.size
  distinct : ∀ (i j : Fin (extra + 1)) (base : Nat),
    (c.slots.get i).base = some base → (c.slots.get j).base = some base → i = j
  aligned : ∀ (i : Fin (extra + 1)) (base : Nat),
    (c.slots.get i).base = some base → base % blockSize = 0 ∧ base < c.size
  clean : ∀ (i : Fin (extra + 1)) (address : Nat),
    (c.slots.get i).base = some (blockOf address) → (c.slots.get i).dirty = false →
      address < c.size →
        (c.slots.get i).data.get (placeInBlock address) =
          (contents c.storage).getD address 0

theorem logicalByte_of_absent
    {c : BlockCache S extra} {address : Nat}
    (habsent : ∀ i : Fin (extra + 1), (c.slots.get i).base ≠ some (blockOf address)) :
    c.logicalByte address = (contents c.storage).getD address 0 := by
  simp only [logicalByte, (resident?_eq_none_iff c _).mpr habsent]

theorem Consistent.logicalByte_of_slot
    {c : BlockCache S extra} (hc : c.Consistent)
    {i : Fin (extra + 1)} {address : Nat}
    (hi : (c.slots.get i).base = some (blockOf address)) :
    c.logicalByte address = (c.slots.get i).data.get (placeInBlock address) := by
  unfold logicalByte
  cases hfound : c.resident? (blockOf address) with
  | none => exact absurd hi ((resident?_eq_none_iff c _).mp hfound i)
  | some j =>
      have hj := base_of_resident?_eq_some hfound
      rw [hc.distinct j i _ hj hi]

/-- The second cache shows the same as the first, with blocks moved between
slots and storage. -/
structure Follows (c c' : BlockCache S extra) : Prop where
  consistent : c'.Consistent
  size_eq : c'.size = c.size
  logicalByte_eq : ∀ address, address < c.size →
    c'.logicalByte address = c.logicalByte address
  reliable : Reliable c.storage → Reliable c'.storage

theorem Follows.refl {c : BlockCache S extra} (hc : c.Consistent) :
    Follows c c :=
  ⟨hc, rfl, fun _ _ => rfl, id⟩

theorem Follows.trans
    {c c' c'' : BlockCache S extra}
    (h : Follows c c') (h' : Follows c' c'') : Follows c c'' where
  consistent := h'.consistent
  size_eq := h'.size_eq.trans h.size_eq
  logicalByte_eq address haddress := by
    rw [h'.logicalByte_eq address (h.size_eq ▸ haddress)]
    exact h.logicalByte_eq address haddress
  reliable hreliable := h'.reliable (h.reliable hreliable)

theorem Follows.logical_eq
    {c c' : BlockCache S extra} (h : Follows c c') :
    c'.logical = c.logical := by
  apply Array.ext_getElem?
  intro address
  rw [getElem?_logical, getElem?_logical, h.size_eq]
  split
  next haddress => rw [h.logicalByte_eq address haddress]
  next => rfl

/-- Nothing shows but bytes, blocks and dirty marks. -/
theorem Consistent.follows_of_same
    {c c' : BlockCache S extra} (hc : c.Consistent)
    (hsize : c'.size = c.size)
    (hbytes : contents c'.storage = contents c.storage)
    (hreliable : Reliable c.storage → Reliable c'.storage)
    (hbase : ∀ i : Fin (extra + 1), (c'.slots.get i).base = (c.slots.get i).base)
    (hdirty : ∀ i : Fin (extra + 1), (c'.slots.get i).dirty = (c.slots.get i).dirty)
    (hdata : ∀ i : Fin (extra + 1), (c'.slots.get i).data = (c.slots.get i).data) :
    Follows c c' := by
  have hconsistent : c'.Consistent := by
    constructor
    · rw [hbytes, hsize, hc.size_eq]
    · intro i j base hi hj
      rw [hbase] at hi hj
      exact hc.distinct i j base hi hj
    · intro i base hi
      rw [hbase] at hi
      rw [hsize]
      exact hc.aligned i base hi
    · intro i address hi hclean haddress
      rw [hbase] at hi
      rw [hdirty] at hclean
      rw [hdata, hbytes]
      exact hc.clean i address hi hclean (hsize ▸ haddress)
  refine ⟨hconsistent, hsize, ?_, hreliable⟩
  intro address _
  by_cases hresident : ∃ i : Fin (extra + 1), (c.slots.get i).base = some (blockOf address)
  · obtain ⟨i, hi⟩ := hresident
    rw [hc.logicalByte_of_slot hi,
      hconsistent.logicalByte_of_slot ((hbase i).trans hi), hdata]
  · have habsent : ∀ i : Fin (extra + 1), (c.slots.get i).base ≠ some (blockOf address) :=
      fun i hi => hresident ⟨i, hi⟩
    rw [logicalByte_of_absent habsent,
      logicalByte_of_absent fun i => (hbase i) ▸ habsent i, hbytes]

/-! ## Writing back -/

/-- A block laid over bytes takes the place of exactly its own stretch. -/
theorem getElem?_overlay_block
    (bytes : Array UInt8) (data : Vector UInt8 blockSize)
    {base address : Nat} (hbase : base % blockSize = 0)
    (hin : base < bytes.size) (haddress : address < bytes.size) :
    (overlay bytes base
        (data.toArray.extract 0 (min (bytes.size - base) blockSize)))[address]? =
      if blockOf address = base then some (data.get (placeInBlock address))
      else bytes[address]? := by
  have hlength :
      (data.toArray.extract 0 (min (bytes.size - base) blockSize)).size =
        min (bytes.size - base) blockSize := by
    rw [Array.size_extract, Vector.size_toArray]
    omega
  rw [getElem?_overlay _ _ _ _ (by omega), hlength]
  by_cases hblock : blockOf address = base
  · have hrange := (blockOf_eq_iff hbase address).mp hblock
    have hplace := blockOf_add_placeInBlock address
    have hdata : data.toArray.size = blockSize := data.size_toArray
    rw [if_pos hblock, if_pos (by omega),
      show address - base = (placeInBlock address).val by omega,
      Array.getElem?_extract_of_lt (by omega)]
    simp
  · have hrange := mt (blockOf_eq_iff hbase address).mpr hblock
    rw [if_neg hblock, if_neg (by omega)]

/-- A cache of which a block was written to the storage. -/
theorem Consistent.follows_stored
    {c : BlockCache S extra} (hc : c.Consistent)
    {i : Fin (extra + 1)} {base : Nat} (hi : (c.slots.get i).base = some base)
    {storage : S}
    (hbytes : contents storage =
      overlay (contents c.storage) base
        ((c.slots.get i).data.toArray.extract 0 (c.blockLength base)))
    (hreliable : Reliable c.storage → Reliable storage) :
    Follows c
      (setSlot { c with storage } i { c.slots.get i with dirty := false }) := by
  obtain ⟨hmod, hlt⟩ := hc.aligned i base hi
  have hslot : ∀ j : Fin (extra + 1),
      ((setSlot { c with storage } i
          { c.slots.get i with dirty := false }).slots.get j).base = (c.slots.get j).base ∧
        ((setSlot { c with storage } i
          { c.slots.get i with dirty := false }).slots.get j).data = (c.slots.get j).data := by
    intro j
    simp only [slots_setSlot]
    by_cases hj : j = i <;> simp [hj]
  have hbyte : ∀ address, address < c.size →
      (contents storage).getD address 0 =
        if blockOf address = base then (c.slots.get i).data.get (placeInBlock address)
        else (contents c.storage).getD address 0 := by
    intro address haddress
    simp only [Array.getD_eq_getD_getElem?, hbytes, blockLength, ← hc.size_eq]
    rw [getElem?_overlay_block _ _ hmod (hc.size_eq ▸ hlt) (hc.size_eq ▸ haddress)]
    split <;> simp
  have hconsistent : (setSlot { c with storage } i
      { c.slots.get i with dirty := false }).Consistent := by
    constructor
    · change (contents storage).size = c.size
      rw [hbytes, size_overlay, hc.size_eq]
      rw [Array.size_extract, Vector.size_toArray, blockLength, hc.size_eq]
      omega
    · intro j k b hj hk
      rw [(hslot j).1] at hj
      rw [(hslot k).1] at hk
      exact hc.distinct j k b hj hk
    · intro j b hj
      rw [(hslot j).1] at hj
      exact hc.aligned j b hj
    · intro j address hj hdirty haddress
      rw [(hslot j).1] at hj
      rw [(hslot j).2]
      change _ = (contents storage).getD address 0
      rw [hbyte address haddress]
      by_cases hblock : blockOf address = base
      · rw [if_pos hblock, hc.distinct j i _ hj (hblock ▸ hi)]
      · have hne : j ≠ i := by
          intro heq
          rw [heq, hi] at hj
          exact hblock (Option.some.inj hj).symm
        rw [slots_setSlot, if_neg hne] at hdirty
        rw [if_neg hblock]
        exact hc.clean j address hj hdirty haddress
  refine ⟨hconsistent, rfl, ?_, hreliable⟩
  intro address haddress
  by_cases hresident : ∃ j : Fin (extra + 1), (c.slots.get j).base = some (blockOf address)
  · obtain ⟨j, hj⟩ := hresident
    rw [hc.logicalByte_of_slot hj,
      hconsistent.logicalByte_of_slot ((hslot j).1.trans hj), (hslot j).2]
  · have habsent : ∀ j : Fin (extra + 1), (c.slots.get j).base ≠ some (blockOf address) :=
      fun j hj => hresident ⟨j, hj⟩
    rw [logicalByte_of_absent habsent,
      logicalByte_of_absent fun j => (hslot j).1 ▸ habsent j]
    change (contents storage).getD address 0 = _
    rw [hbyte address haddress,
      if_neg fun hblock : blockOf address = base => habsent i (hblock ▸ hi)]

/-- Nothing but the dirty mark of the slot changes, and that is gone. -/
theorem Consistent.writeBack_ok
    {c c' : BlockCache S extra} (hc : c.Consistent) {i : Fin (extra + 1)}
    (h : writeBack i c = .ok () c') :
    Follows c c' ∧
      (∀ j : Fin (extra + 1), (c'.slots.get j).base = (c.slots.get j).base) ∧
      (∀ j : Fin (extra + 1), (c.slots.get j).dirty = false → (c'.slots.get j).dirty = false) ∧
      ((c'.slots.get i).base = none ∨ (c'.slots.get i).dirty = false) := by
  dsimp only [writeBack] at h
  split at h
  next base hi hdirty =>
    obtain ⟨hmod, hlt⟩ := hc.aligned i base hi
    split at h
    next storage hwrite =>
      cases h
      have hfits : base + ((c.slots.get i).data.toArray.extract 0 (c.blockLength base)).size ≤
          (contents c.storage).size := by
        rw [Array.size_extract, Vector.size_toArray, blockLength, hc.size_eq]
        omega
      obtain ⟨hbytes, hreliable⟩ := LawfulStorage.writeAt_ok hfits hwrite
      refine ⟨hc.follows_stored hi hbytes hreliable, ?_, ?_, ?_⟩
      · intro j
        simp only [slots_setSlot]
        by_cases hj : j = i <;> simp [hj]
      · intro j hclean
        simp only [slots_setSlot]
        split
        · rfl
        · exact hclean
      · simp only [slots_setSlot]
        simp
    next => cases h
  next hclean =>
    cases h
    refine ⟨.refl hc, fun _ => rfl, fun _ => id, ?_⟩
    cases hbase : (c.slots.get i).base with
    | none => exact .inl rfl
    | some base =>
        right
        cases hdirty : (c.slots.get i).dirty with
        | false => rfl
        | true => exact (hclean base hbase hdirty).elim

theorem Consistent.writeBack_error
    {c c' : BlockCache S extra} (hc : c.Consistent) {i : Fin (extra + 1)}
    {e : Fault} (h : writeBack i c = .error e c') :
    Follows c c' ∧ ¬ Reliable c.storage := by
  dsimp only [writeBack] at h
  split at h
  next base hi hdirty =>
    split at h
    next => cases h
    next hwrite =>
      cases h
      obtain ⟨hbytes, hfailed⟩ := LawfulStorage.writeAt_error hwrite
      refine ⟨?_, hfailed⟩
      exact hc.follows_of_same rfl hbytes (fun hreliable => absurd hreliable hfailed)
        (fun _ => rfl) (fun _ => rfl) (fun _ => rfl)
  next => cases h

/-! ## Loading -/

/-- A slot whose block is safe in the storage may be emptied. -/
theorem Consistent.follows_emptied
    {c : BlockCache S extra} (hc : c.Consistent) {i : Fin (extra + 1)}
    (hclean : (c.slots.get i).base = none ∨ (c.slots.get i).dirty = false)
    {empty : Slot} (hempty : empty.base = none) :
    Follows c (c.setSlot i empty) := by
  have hslot : ∀ (j : Fin (extra + 1)) (base : Nat),
      ((c.setSlot i empty).slots.get j).base = some base →
        j ≠ i ∧ (c.setSlot i empty).slots.get j = c.slots.get j := by
    intro j base hj
    rw [slots_setSlot] at hj ⊢
    split at hj
    next => simp [hempty] at hj
    next hne => exact ⟨hne, if_neg hne⟩
  have hconsistent : (c.setSlot i empty).Consistent := by
    constructor
    · exact hc.size_eq
    · intro j k base hj hk
      rw [(hslot j base hj).2] at hj
      rw [(hslot k base hk).2] at hk
      exact hc.distinct j k base hj hk
    · intro j base hj
      rw [(hslot j base hj).2] at hj
      exact hc.aligned j base hj
    · intro j address hj hdirty haddress
      have hsame := (hslot j _ hj).2
      rw [hsame] at hj hdirty ⊢
      exact hc.clean j address hj hdirty haddress
  refine ⟨hconsistent, rfl, ?_, id⟩
  intro address haddress
  by_cases hresident : ∃ j : Fin (extra + 1),
      ((c.setSlot i empty).slots.get j).base = some (blockOf address)
  · obtain ⟨j, hj⟩ := hresident
    have hsame := (hslot j _ hj).2
    rw [hconsistent.logicalByte_of_slot hj, hsame]
    rw [hsame] at hj
    exact (hc.logicalByte_of_slot hj).symm
  · have habsent : ∀ j : Fin (extra + 1),
        ((c.setSlot i empty).slots.get j).base ≠ some (blockOf address) :=
      fun j hj => hresident ⟨j, hj⟩
    rw [logicalByte_of_absent habsent]
    change (contents c.storage).getD address 0 = _
    -- Only the emptied slot can have held the block, and it was clean.
    by_cases hi : (c.slots.get i).base = some (blockOf address)
    · have hdirty : (c.slots.get i).dirty = false := by
        rcases hclean with hnone | hdirty
        · rw [hnone] at hi
          cases hi
        · exact hdirty
      rw [hc.logicalByte_of_slot hi, hc.clean i address hi hdirty haddress]
    · rw [logicalByte_of_absent]
      intro j hj
      have hne : j ≠ i := fun heq => hi (heq ▸ hj)
      apply habsent j
      rw [slots_setSlot, if_neg hne]
      exact hj

/-- An empty slot may take a copy of a block that is in no slot. -/
theorem Consistent.follows_loaded
    {c : BlockCache S extra} (hc : c.Consistent) {i : Fin (extra + 1)}
    {base : Nat} (hmod : base % blockSize = 0) (hlt : base < c.size)
    (habsent : ∀ j : Fin (extra + 1), (c.slots.get j).base ≠ some base)
    {loaded : Slot} (hbase : loaded.base = some base)
    (hempty : (c.slots.get i).base = none)
    (hdata : ∀ address, blockOf address = base → address < c.size →
      loaded.data.get (placeInBlock address) = (contents c.storage).getD address 0) :
    Follows c (c.setSlot i loaded) := by
  have hslot : ∀ (j : Fin (extra + 1)) (b : Nat),
      ((c.setSlot i loaded).slots.get j).base = some b →
        (j = i ∧ b = base) ∨ (b ≠ base ∧ (c.slots.get j).base = some b ∧
          (c.setSlot i loaded).slots.get j = c.slots.get j) := by
    intro j b hj
    rw [slots_setSlot] at hj ⊢
    split at hj
    next heq =>
      rw [hbase] at hj
      exact .inl ⟨heq, (Option.some.inj hj).symm⟩
    next hne =>
      refine .inr ⟨?_, hj, if_neg hne⟩
      intro heq
      exact habsent j (heq ▸ hj)
  have hself : (c.setSlot i loaded).slots.get i = loaded := by
    rw [slots_setSlot, if_pos rfl]
  have hconsistent : (c.setSlot i loaded).Consistent := by
    constructor
    · exact hc.size_eq
    · intro j k b hj hk
      rcases hslot j b hj with ⟨hji, hb⟩ | ⟨hb, hj', -⟩
      · rcases hslot k b hk with ⟨hki, -⟩ | ⟨hb', -, -⟩
        · exact hji.trans hki.symm
        · exact absurd hb hb'
      · rcases hslot k b hk with ⟨-, hb'⟩ | ⟨-, hk', -⟩
        · exact absurd hb' hb
        · exact hc.distinct j k b hj' hk'
    · intro j b hj
      rcases hslot j b hj with ⟨-, hb⟩ | ⟨-, hj', -⟩
      · exact ⟨hb ▸ hmod, hb ▸ hlt⟩
      · exact hc.aligned j b hj'
    · intro j address hj hdirty haddress
      rcases hslot j _ hj with ⟨hji, hb⟩ | ⟨-, hj', hsame⟩
      · rw [hji, hself]
        exact hdata address hb haddress
      · rw [hsame] at hdirty ⊢
        exact hc.clean j address hj' hdirty haddress
  refine ⟨hconsistent, rfl, ?_, id⟩
  intro address haddress
  by_cases hblock : blockOf address = base
  · rw [hconsistent.logicalByte_of_slot (i := i) (by rw [hself, hbase, hblock]),
      hself, hdata address hblock haddress,
      logicalByte_of_absent fun j => hblock ▸ habsent j]
  · by_cases hresident : ∃ j : Fin (extra + 1), (c.slots.get j).base = some (blockOf address)
    · obtain ⟨j, hj⟩ := hresident
      have hne : j ≠ i := by
        intro heq
        rw [heq, hempty] at hj
        cases hj
      have hsame : (c.setSlot i loaded).slots.get j = c.slots.get j := by
        rw [slots_setSlot, if_neg hne]
      rw [hc.logicalByte_of_slot hj,
        hconsistent.logicalByte_of_slot (i := j) (by rw [hsame, hj]), hsame]
    · have hnone : ∀ j : Fin (extra + 1), (c.slots.get j).base ≠ some (blockOf address) :=
        fun j hj => hresident ⟨j, hj⟩
      rw [logicalByte_of_absent hnone, logicalByte_of_absent]
      · rfl
      · intro j hj
        rcases hslot j _ hj with ⟨-, hb⟩ | ⟨-, hj', -⟩
        · exact hblock hb
        · exact hnone j hj'

theorem Consistent.loadBlock_ok
    {c c' : BlockCache S extra} (hc : c.Consistent) {i : Fin (extra + 1)}
    {base : Nat} (hmod : base % blockSize = 0) (hlt : base < c.size)
    (habsent : ∀ j : Fin (extra + 1), (c.slots.get j).base ≠ some base)
    (hclean : (c.slots.get i).base = none ∨ (c.slots.get i).dirty = false)
    (h : loadBlock i base c = .ok () c') :
    Follows c c' ∧ (c'.slots.get i).base = some base := by
  dsimp only [loadBlock] at h
  split at h <;> cases h
  next bytes storage hread =>
    obtain ⟨hbytes, hcontents, hreliable⟩ := LawfulStorage.readAt_ok hread
    have hread : Follows c { c with storage } :=
      hc.follows_of_same rfl hcontents hreliable
        (fun _ => rfl) (fun _ => rfl) (fun _ => rfl)
    have hemptied : Follows { c with storage }
        (setSlot { c with storage } i { lastUsed := (c.slots.get i).lastUsed }) :=
      hread.consistent.follows_emptied hclean rfl
    rw [← setSlot_setSlot _ i { lastUsed := (c.slots.get i).lastUsed }]
    constructor
    · refine hread.trans (hemptied.trans ?_)
      apply hemptied.consistent.follows_loaded hmod hlt
      · intro j hj
        rw [slots_setSlot] at hj
        split at hj
        · cases hj
        · exact habsent j hj
      · rfl
      · rw [slots_setSlot, if_pos rfl]
      · intro address hblock haddress
        subst hblock
        have hplace := blockOf_add_placeInBlock address
        have hrange : address < (contents c.storage).size :=
          hc.size_eq ▸ haddress
        have hlength : (placeInBlock address).val < c.blockLength (blockOf address) := by
          rw [blockLength, ← hc.size_eq]
          omega
        change (Vector.ofFn fun k : Fin blockSize =>
          bytes[k.val]?.getD 0)[placeInBlock address] = (contents storage).getD address 0
        rw [hcontents, Array.getD_eq_getD_getElem?]
        simp only [Fin.getElem_fin, Vector.getElem_ofFn, hbytes]
        rw [Array.getElem?_extract_of_lt (by omega), Array.getElem?_eq_getElem hrange]
        simp only [hplace]
    · rw [setSlot_setSlot, slots_setSlot, if_pos rfl]

theorem Consistent.loadBlock_error
    {c c' : BlockCache S extra} (hc : c.Consistent) {i : Fin (extra + 1)}
    {base : Nat} {e : Fault}
    (hclean : (c.slots.get i).base = none ∨ (c.slots.get i).dirty = false)
    (h : loadBlock i base c = .error e c') :
    Follows c c' ∧ ¬ Reliable c.storage := by
  dsimp only [loadBlock] at h
  split at h <;> cases h
  next storage hread =>
    obtain ⟨hcontents, hfailed⟩ := LawfulStorage.readAt_error hread
    have hread : Follows c { c with storage } :=
      hc.follows_of_same rfl hcontents (fun hreliable => absurd hreliable hfailed)
        (fun _ => rfl) (fun _ => rfl) (fun _ => rfl)
    exact ⟨hread.trans (hread.consistent.follows_emptied hclean rfl), hfailed⟩

end BlockCache
end ZMachine
