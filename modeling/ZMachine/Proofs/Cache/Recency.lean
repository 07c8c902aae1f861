import Mathlib.Data.List.Induction
import ZMachine.Proofs.Cache.History
import ZMachine.Proofs.Cache.Metered

/-!
# The blocks of least recent use leave first

A cache that takes the slot used longest ago holds the front of its history, as
many blocks as it has slots: an access moves its block to the front, and the
block that drops out of the front is the one whose slot was taken.  Which blocks
are read from the storage follows from the history alone.
-/

namespace ZMachine.BlockCache

open History
open LawfulStorage (contents Reliable)

variable {S : Type} {extra : Nat} {c c' : BlockCache S extra} {i : Fin (extra + 1)}

/-! ## Resident blocks -/

def residents (c : BlockCache S extra) : List Nat :=
  c.slots.toList.filterMap Slot.base

theorem mem_residents {base : Nat} :
    base ∈ c.residents ↔ ∃ i : Fin (extra + 1), (c.slots.get i).base = some base := by
  simp only [residents, List.mem_filterMap, Vector.mem_toList_iff]
  constructor
  · rintro ⟨slot, hslot, hbase⟩
    obtain ⟨i, hi, rfl⟩ := Vector.mem_iff_getElem.mp hslot
    exact ⟨⟨i, hi⟩, hbase⟩
  · rintro ⟨i, hbase⟩
    exact ⟨c.slots.get i, Vector.getElem_mem i.isLt, hbase⟩

theorem not_mem_residents {base : Nat} (h : c.ticked.resident? base = none) :
    base ∉ c.residents := by
  intro hmem
  obtain ⟨i, hi⟩ := mem_residents.mp hmem
  exact (resident?_eq_none_iff c.ticked base).mp h i hi

theorem length_residents_lt (hempty : (c.slots.get i).base = none) :
    c.residents.length < extra + 1 := by
  have hle : c.residents.length ≤ extra + 1 :=
    Nat.le_trans (List.length_filterMap_le Slot.base _) (Nat.le_of_eq Vector.length_toList)
  refine Nat.lt_of_le_of_ne hle fun heq => ?_
  have hfull := List.filterMap_length_eq_length.mp (heq.trans (Vector.length_toList).symm)
  have hslot := hfull (c.slots.get i) (Vector.mem_toList_iff.mpr (Vector.getElem_mem i.isLt))
  rw [hempty] at hslot
  cases hslot

theorem length_residents_eq (hfull : ∀ i : Fin (extra + 1), (c.slots.get i).base ≠ none) :
    c.residents.length = extra + 1 := by
  refine (List.filterMap_length_eq_length.mpr fun slot hslot => ?_).trans Vector.length_toList
  obtain ⟨i, hi, rfl⟩ := Vector.mem_iff_getElem.mp (Vector.mem_toList_iff.mp hslot)
  exact Option.isSome_iff_ne_none.mpr (hfull ⟨i, hi⟩)

theorem foldl_least {n : Nat} (used : Fin n → Nat) (l : List (Fin n)) (best : Fin n) :
    let least := l.foldl (fun best i => if used i < used best then i else best) best
    used least ≤ used best ∧ ∀ i ∈ l, used least ≤ used i := by
  induction l generalizing best with
  | nil => exact ⟨Nat.le_refl _, fun i hi => absurd hi List.not_mem_nil⟩
  | cons first l ih =>
      obtain ⟨hbest, hrest⟩ := ih (if used first < used best then first else best)
      have hstep : used (if used first < used best then first else best) ≤ used best ∧
          used (if used first < used best then first else best) ≤ used first := by
        split <;> omega
      refine ⟨Nat.le_trans hbest hstep.1, fun i hi => ?_⟩
      rcases List.mem_cons.mp hi with rfl | hi
      · exact Nat.le_trans hbest hstep.2
      · exact hrest i hi

theorem leastRecent_le (c : BlockCache S extra) (j : Fin (extra + 1)) :
    (c.slots.get c.leastRecent).lastUsed ≤ (c.slots.get j).lastUsed := by
  unfold leastRecent
  rw [Fin.foldl_eq_finRange_foldl]
  exact (foldl_least (fun i => (c.slots.get i).lastUsed) _ 0).2 j (List.mem_finRange j)

/-- The slot to take is empty, or none is and this one was used longest ago. -/
theorem victim_of_leastRecent (hpolicy : c.policy = .leastRecent) :
    (c.slots.get c.victim.1).base = none ∨
      ((∀ i : Fin (extra + 1), (c.slots.get i).base ≠ none) ∧
        ∀ j : Fin (extra + 1),
          (c.slots.get c.victim.1).lastUsed ≤ (c.slots.get j).lastUsed) := by
  unfold victim
  rw [hpolicy]
  dsimp only
  split
  next i hfound =>
    left
    exact Option.isNone_iff_eq_none.mp (holds_of_findFinIdx? hfound)
  next hnone =>
    right
    refine ⟨fun i hi => ?_, c.leastRecent_le⟩
    have hslot := Vector.findFinIdx?_eq_none_iff.mp hnone (c.slots.get i)
      (Vector.getElem_mem i.isLt)
    rw [hi] at hslot
    exact hslot rfl

/-! ## Accesses -/

/-- An access to a byte. -/
inductive Access where
  | read (address : Nat)
  | write (address : Nat) (value : UInt8)
  deriving DecidableEq, Repr

namespace Access

def address : Access → Nat
  | read address => address
  | write address _ => address

def block (a : Access) : Nat :=
  blockOf a.address

def toCall : Access → Memory.Call
  | read address => .readByte address
  | write address value => .writeByte address value

def perform {M : Type} [AddressSpace M] (a : Access) : MemoryM M Memory.Answer :=
  a.toCall.perform

/-- What an access does to the slot of its block. -/
def effect (a : Access) (i : Fin (extra + 1)) (c : BlockCache S extra) : BlockCache S extra :=
  match a with
  | read _ => c
  | write address value => c.setSlot i (withByte (c.slots.get i) (placeInBlock address) value)

theorem storage_effect (a : Access) (i : Fin (extra + 1)) (c : BlockCache S extra) :
    (a.effect i c).storage = c.storage := by
  cases a <;> rfl

end Access

/-! ## One access -/

/-- What an access does to the slots: one of them is in use now and holds the block, either as
before or because it was taken for it. -/
structure Served (c c' : BlockCache S extra) (base : Nat) (i : Fin (extra + 1)) : Prop where
  policy_eq : c'.policy = c.policy
  tick_eq : c'.tick = c.tick + 1
  base_eq : (c'.slots.get i).base = some base
  lastUsed_eq : (c'.slots.get i).lastUsed = c.tick + 1
  other : ∀ j : Fin (extra + 1), j ≠ i → (c'.slots.get j).base = (c.slots.get j).base ∧
    (c'.slots.get j).lastUsed = (c.slots.get j).lastUsed
  chosen : (c.slots.get i).base = some base ∨ (base ∉ c.residents ∧ i = c.ticked.victim.1)

theorem Served.mem_residents {base x : Nat} (h : Served c c' base i) :
    x ∈ c'.residents ↔ x = base ∨ ∃ j : Fin (extra + 1), j ≠ i ∧ (c.slots.get j).base = some x := by
  rw [BlockCache.mem_residents]
  constructor
  · rintro ⟨j, hj⟩
    by_cases hji : j = i
    · rw [hji, h.base_eq] at hj
      exact .inl (Option.some.inj hj).symm
    · exact .inr ⟨j, hji, (h.other j hji).1.symm.trans hj⟩
  · rintro (rfl | ⟨j, hji, hj⟩)
    · exact ⟨i, h.base_eq⟩
    · exact ⟨j, (h.other j hji).1.trans hj⟩

theorem Served.effect {base : Nat} (h : Served c c' base i) (a : Access) :
    Served c (a.effect i c') base i := by
  cases a with
  | read address => exact h
  | write address value =>
      refine ⟨h.policy_eq, h.tick_eq, ?_, ?_, fun j hj => ?_, h.chosen⟩
      · rw [Access.effect, slots_setSlot, if_pos rfl]
        exact h.base_eq
      · rw [Access.effect, slots_setSlot, if_pos rfl]
        exact h.lastUsed_eq
      · rw [Access.effect, slots_setSlot, if_neg hj]
        exact h.other j hj

theorem touch_frame (h : touch i c = .ok () c') :
    c'.policy = c.policy ∧ c'.tick = c.tick ∧
      (c'.slots.get i).base = (c.slots.get i).base ∧ (c'.slots.get i).lastUsed = c.tick ∧
      ∀ j : Fin (extra + 1), j ≠ i → c'.slots.get j = c.slots.get j := by
  cases h
  refine ⟨rfl, rfl, ?_, ?_, fun j hj => ?_⟩
  · rw [slots_setSlot, if_pos rfl]
    rfl
  · rw [slots_setSlot, if_pos rfl]
  · rw [slots_setSlot, if_neg hj]

variable [Storage S]

theorem writeBack_frame (h : writeBack i c = .ok () c') :
    c'.policy = c.policy ∧ c'.tick = c.tick ∧
      ∀ j : Fin (extra + 1), (c'.slots.get j).base = (c.slots.get j).base ∧
        (c'.slots.get j).lastUsed = (c.slots.get j).lastUsed := by
  dsimp only [writeBack] at h
  split at h
  next =>
    split at h <;> cases h
    refine ⟨rfl, rfl, fun j => ?_⟩
    rw [slots_setSlot]
    split
    next heq =>
      subst heq
      exact ⟨rfl, rfl⟩
    next => exact ⟨rfl, rfl⟩
  next =>
    cases h
    exact ⟨rfl, rfl, fun j => ⟨rfl, rfl⟩⟩

theorem loadBlock_frame {base : Nat} (h : loadBlock i base c = .ok () c') :
    c'.policy = c.policy ∧ c'.tick = c.tick ∧ (c'.slots.get i).base = some base ∧
      ∀ j : Fin (extra + 1), j ≠ i → c'.slots.get j = c.slots.get j := by
  dsimp only [loadBlock] at h
  split at h <;> cases h
  refine ⟨rfl, rfl, ?_, fun j hj => ?_⟩
  · rw [slots_setSlot, if_pos rfl]
  · rw [slots_setSlot, if_neg hj]

theorem slotFor_served {address : Nat} (h : slotFor address c = .ok i c') :
    Served c c' (blockOf address) i := by
  obtain ⟨-, ⟨hfound, htouch⟩ | ⟨hfound, hi, c₁, c₂, hwrite, hload, htouch⟩⟩ := slotFor_cases h
  · have hbase := base_of_resident?_eq_some hfound
    obtain ⟨hpolicy, htick, hsame, hused, hother⟩ := touch_frame htouch
    refine ⟨hpolicy, htick, hsame.trans hbase, hused, fun j hj => ?_, .inl hbase⟩
    rw [hother j hj]
    exact ⟨rfl, rfl⟩
  · obtain ⟨stream, hvictim⟩ := c.ticked.victim_snd
    rw [hvictim] at hwrite
    obtain ⟨hpolicy, htick, hwritten⟩ := writeBack_frame hwrite
    obtain ⟨hpolicy₁, htick₁, hbase, hloaded⟩ := loadBlock_frame hload
    obtain ⟨hpolicy₂, htick₂, hsame, hused, htouched⟩ := touch_frame htouch
    have hcount : c₂.tick = c.tick + 1 := htick₁.trans htick
    refine ⟨hpolicy₂.trans (hpolicy₁.trans hpolicy), htick₂.trans hcount, hsame.trans hbase,
      hused.trans hcount, fun j hj => ?_, .inr ⟨not_mem_residents hfound, hi⟩⟩
    rw [htouched j hj, hloaded j hj]
    exact hwritten j

theorem slotFor_reads {c c' : BlockCache (Metered S) extra} {address : Nat}
    (h : slotFor address c = .ok i c') :
    c'.storage.reads =
      if blockOf address ∈ c.residents then c.storage.reads
      else blockOf address :: c.storage.reads := by
  obtain ⟨-, ⟨hfound, htouch⟩ | ⟨hfound, hi, c₁, c₂, hwrite, hload, htouch⟩⟩ := slotFor_cases h
  · have hmem : blockOf address ∈ c.residents :=
      mem_residents.mpr ⟨i, base_of_resident?_eq_some hfound⟩
    cases htouch
    rw [if_pos hmem]
    rfl
  · obtain ⟨stream, hvictim⟩ := c.ticked.victim_snd
    rw [hvictim] at hwrite
    have hreads := (loadBlock_reads hload).trans
      (congrArg (blockOf address :: ·) (writeBack_reads hwrite))
    cases htouch
    rw [if_neg (not_mem_residents hfound)]
    exact hreads

theorem Access.perform_of_slot {a : Access} (h : slotFor a.address c = .ok i c') :
    ∃ answer, a.perform c = .ok answer (a.effect i c') := by
  cases a with
  | read address =>
      have hread : (Memory.readByte address : MemoryM (BlockCache S extra) UInt8) c =
          .ok ((c'.slots.get i).data.get (placeInBlock address)) c' := bind_ok h
      exact ⟨_, bind_ok hread⟩
  | write address value =>
      have hwrite : (Memory.writeByte address value : MemoryM (BlockCache S extra) Unit) c =
          .ok () (Access.effect (.write address value) i c') := bind_ok h
      exact ⟨_, bind_ok hwrite⟩

/-! ## Histories of a cache -/

variable [LawfulStorage S]

theorem Consistent.nodup_residents (hc : c.Consistent) : c.residents.Nodup := by
  refine List.pairwise_filterMap.mpr (List.pairwise_iff_getElem.mpr ?_)
  intro j k hj hk hjk base hbase base' hbase' heq
  rw [Vector.length_toList] at hj hk
  rw [Vector.getElem_toList] at hbase hbase'
  have hsame := hc.distinct ⟨j, hj⟩ ⟨k, hk⟩ base hbase (heq ▸ hbase')
  exact Nat.ne_of_lt hjk (congrArg Fin.val hsame)

/-- A cache of the given size behind a history of accesses. -/
structure Tracks (n : Nat) (history : List Nat) (c : BlockCache S extra) : Prop where
  consistent : c.Consistent
  reliable : Reliable c.storage
  size_eq : c.size = n
  policy_eq : c.policy = .leastRecent
  tick_eq : c.tick = history.length
  lastUsed_eq : ∀ (i : Fin (extra + 1)) (base : Nat), (c.slots.get i).base = some base →
    (c.slots.get i).lastUsed = lastAccess history base
  residents_perm : c.residents.Perm (history.eraseDups.take (extra + 1))

variable {n : Nat} {history : List Nat} {base : Nat}

/-- A block that is found stays, and so do the others. -/
theorem Tracks.residents_hit (h : Tracks n history c) (hserved : Served c c' base i)
    (hbase : (c.slots.get i).base = some base) (x : Nat) :
    x ∈ c'.residents ↔ x ∈ (base :: history).eraseDups.take (extra + 1) := by
  have hfound : base ∈ history.eraseDups.take (extra + 1) :=
    h.residents_perm.mem_iff.mp (mem_residents.mpr ⟨i, hbase⟩)
  rw [eraseDups_cons, List.take_succ_cons, take_erase_of_mem hfound,
    ← (List.perm_cons_erase hfound).mem_iff, ← h.residents_perm.mem_iff, hserved.mem_residents,
    mem_residents]
  constructor
  · rintro (rfl | ⟨j, -, hj⟩)
    · exact ⟨i, hbase⟩
    · exact ⟨j, hj⟩
  · rintro ⟨j, hj⟩
    by_cases hji : j = i
    · rw [hji, hbase] at hj
      exact .inl (Option.some.inj hj).symm
    · exact .inr ⟨j, hji, hj⟩

/-- While a slot is empty, the cache holds every block of its history. -/
theorem Tracks.length_history (h : Tracks n history c) (hempty : (c.slots.get i).base = none) :
    history.eraseDups.length ≤ extra := by
  have hlength := h.residents_perm.length_eq
  have hlt := length_residents_lt hempty
  rw [List.length_take] at hlength
  omega

theorem Tracks.residents_fill (h : Tracks n history c) (hserved : Served c c' base i)
    (habsent : base ∉ c.residents) (hempty : (c.slots.get i).base = none) (x : Nat) :
    x ∈ c'.residents ↔ x ∈ (base :: history).eraseDups.take (extra + 1) := by
  have hall (k : Nat) (hk : extra ≤ k) : history.eraseDups.take k = history.eraseDups :=
    List.take_of_length_le (Nat.le_trans (h.length_history hempty) hk)
  have hperm := h.residents_perm
  rw [hall _ (Nat.le_succ extra)] at hperm
  have hnew : base ∉ history.eraseDups.take extra := by
    rw [hall _ (Nat.le_refl extra)]
    exact mt hperm.mem_iff.mpr habsent
  rw [eraseDups_cons, List.take_succ_cons, take_erase_of_not_mem hnew, hall _ (Nat.le_refl extra),
    List.mem_cons, ← hperm.mem_iff, hserved.mem_residents, mem_residents]
  refine or_congr_right ⟨fun ⟨j, _, hj⟩ => ⟨j, hj⟩, fun ⟨j, hj⟩ => ⟨j, fun hji => ?_, hj⟩⟩
  rw [hji, hempty] at hj
  cases hj

/-- The slot used longest ago holds the block that is last in the front of the history. -/
theorem Tracks.base_of_least (h : Tracks n history c) {last : Nat}
    (hfront : history.eraseDups.take (extra + 1) = history.eraseDups.take extra ++ [last])
    (hfull : (c.slots.get i).base ≠ none)
    (hleast : ∀ j : Fin (extra + 1), (c.slots.get i).lastUsed ≤ (c.slots.get j).lastUsed) :
    (c.slots.get i).base = some last := by
  obtain ⟨base, hbase⟩ := Option.ne_none_iff_exists'.mp hfull
  have hmem : base ∈ history.eraseDups.take extra ++ [last] := by
    rw [← hfront]
    exact h.residents_perm.mem_iff.mp (mem_residents.mpr ⟨i, hbase⟩)
  have hlast : last ∈ c.residents := by
    rw [h.residents_perm.mem_iff, hfront]
    exact List.mem_append_right _ (List.mem_singleton_self last)
  obtain ⟨j, hj⟩ := mem_residents.mp hlast
  -- the front is in the order of last access, so any other block of it was used after `last`
  rcases List.mem_append.mp hmem with hearlier | hself
  · have hordered := (pairwise_lastAccess history).sublist (List.take_sublist (extra + 1) _)
    rw [hfront, List.pairwise_append] at hordered
    have hlt := hordered.2.2 base hearlier last (List.mem_singleton_self last)
    have hle := hleast j
    rw [h.lastUsed_eq i base hbase, h.lastUsed_eq j last hj] at hle
    exact absurd hlt (Nat.not_lt_of_le hle)
  · rw [hbase, List.mem_singleton.mp hself]

theorem Tracks.residents_evict (h : Tracks n history c) (hserved : Served c c' base i)
    (habsent : base ∉ c.residents)
    (hfull : ∀ j : Fin (extra + 1), (c.slots.get j).base ≠ none)
    (hleast : ∀ j : Fin (extra + 1), (c.slots.get i).lastUsed ≤ (c.slots.get j).lastUsed)
    (x : Nat) :
    x ∈ c'.residents ↔ x ∈ (base :: history).eraseDups.take (extra + 1) := by
  have hlong : extra < history.eraseDups.length := by
    have hlength := h.residents_perm.length_eq
    rw [length_residents_eq hfull, List.length_take] at hlength
    omega
  have hfront := List.take_succ_eq_append_getElem hlong
  have hmem (y : Nat) : y ∈ c.residents ↔
      y ∈ history.eraseDups.take extra ∨ y = history.eraseDups[extra] := by
    rw [h.residents_perm.mem_iff, hfront, List.mem_append, List.mem_singleton]
  have hlast := h.base_of_least hfront (hfull i) hleast
  have hnew : base ∉ history.eraseDups.take extra := fun hbase =>
    habsent ((hmem base).mpr (.inl hbase))
  rw [eraseDups_cons, List.take_succ_cons, take_erase_of_not_mem hnew, List.mem_cons,
    hserved.mem_residents]
  -- every slot but the one taken holds a block of the front without its last
  refine or_congr_right ⟨?_, fun hx => ?_⟩
  · rintro ⟨j, hji, hj⟩
    refine ((hmem x).mp (mem_residents.mpr ⟨j, hj⟩)).resolve_right ?_
    rintro rfl
    exact hji (h.consistent.distinct j i _ hj hlast)
  · obtain ⟨j, hj⟩ := mem_residents.mp ((hmem x).mpr (.inl hx))
    refine ⟨j, fun hji => ?_, hj⟩
    have hnodup := (nodup_eraseDups history).sublist (List.take_sublist (extra + 1) _)
    rw [hji, hlast] at hj
    rw [hfront, List.nodup_append] at hnodup
    exact hnodup.2.2 x hx _ (List.mem_singleton_self _) (Option.some.inj hj).symm

theorem Tracks.step (h : Tracks n history c) (hserved : Served c c' base i)
    (hconsistent : c'.Consistent) (hreliable : Reliable c'.storage) (hsize : c'.size = n) :
    Tracks n (base :: history) c' where
  consistent := hconsistent
  reliable := hreliable
  size_eq := hsize
  policy_eq := hserved.policy_eq.trans h.policy_eq
  tick_eq := by rw [hserved.tick_eq, h.tick_eq, List.length_cons]
  lastUsed_eq j x hj := by
    unfold lastAccess
    by_cases hji : j = i
    · rw [hji, hserved.base_eq] at hj
      rw [hji, hserved.lastUsed_eq, h.tick_eq, if_pos (Option.some.inj hj).symm]
    · have hne : x ≠ base := by
        rintro rfl
        exact hji (hconsistent.distinct j i x hj hserved.base_eq)
      rw [(hserved.other j hji).1] at hj
      rw [(hserved.other j hji).2, if_neg hne, h.lastUsed_eq j x hj]
  residents_perm := by
    refine (List.perm_ext_iff_of_nodup hconsistent.nodup_residents
      ((nodup_eraseDups _).sublist (List.take_sublist _ _))).mpr fun x => ?_
    rcases hserved.chosen with hbase | ⟨habsent, rfl⟩
    · exact h.residents_hit hserved hbase x
    · rcases victim_of_leastRecent (c := c.ticked) h.policy_eq with hempty | ⟨hfull, hleast⟩
      · exact h.residents_fill hserved habsent hempty x
      · exact h.residents_evict hserved habsent hfull hleast x

/-- While a slot is empty no block leaves. -/
theorem Tracks.residents_stay (h : Tracks n history c) (h' : Tracks n (base :: history) c')
    (hempty : (c.slots.get i).base = none) {x : Nat} (hx : x ∈ c.residents) :
    x ∈ c'.residents := by
  have hlength := h.length_history hempty
  have hshort : (base :: history).eraseDups.length ≤ extra + 1 := by
    rw [eraseDups_cons, List.length_cons]
    exact Nat.succ_le_succ (Nat.le_trans List.length_erase_le hlength)
  have hmem := List.mem_eraseDups.mp (List.mem_of_mem_take (h.residents_perm.mem_iff.mp hx))
  rw [h'.residents_perm.mem_iff, List.take_of_length_le hshort, List.mem_eraseDups]
  exact List.mem_cons_of_mem base hmem

/-! ## Sequences of accesses -/

theorem Tracks.perform (h : Tracks n history c) {a : Access} (ha : a.address < n) :
    ∃ i c₁ answer, slotFor a.address c = .ok i c₁ ∧
      a.perform c = .ok answer (a.effect i c₁) ∧
      Tracks n (a.block :: history) (a.effect i c₁) := by
  cases hslot : slotFor a.address c with
  | error e c₁ =>
      obtain ⟨-, ⟨hle, -⟩ | ⟨-, hfailed⟩⟩ := h.consistent.slotFor_error hslot
      · exact absurd ha (Nat.not_lt_of_le (h.size_eq ▸ hle))
      · exact absurd h.reliable hfailed
  | ok i c₁ =>
      obtain ⟨answer, hperform⟩ := Access.perform_of_slot hslot
      obtain ⟨-, hfollows, hbase⟩ := h.consistent.slotFor_ok hslot
      have hconsistent : (a.effect i c₁).Consistent := by
        cases a with
        | read address => exact hfollows.consistent
        | write address value => exact (hfollows.consistent.written hbase value).1
      have hsize : (a.effect i c₁).size = c₁.size := by cases a <;> rfl
      have hreliable : Reliable (a.effect i c₁).storage := by
        rw [Access.storage_effect]
        exact hfollows.reliable h.reliable
      exact ⟨i, c₁, answer, rfl, hperform, h.step ((slotFor_served hslot).effect a) hconsistent
        hreliable (hsize.trans (hfollows.size_eq.trans h.size_eq))⟩

theorem Tracks.run (h : Tracks n [] c) (accesses : List Access)
    (hin : ∀ a ∈ accesses, a.address < n) :
    Tracks n (accesses.map Access.block).reverse
      (stateAfter (accesses.map Access.perform) c) := by
  induction accesses using List.reverseRecOn with
  | nil => exact h
  | append_singleton accesses a ih =>
      have hbefore := ih fun b hb => hin b (List.mem_append_left _ hb)
      obtain ⟨i, c₁, answer, -, hperform, hafter⟩ :=
        hbefore.perform (hin a (List.mem_append_right _ (List.mem_singleton_self a)))
      rw [List.map_append, List.map_append, List.map_singleton, List.map_singleton,
        stateAfter_concat, hperform, List.reverse_append]
      exact hafter

/-- The meter behind a run shows the misses of its history. -/
theorem Tracks.reads_run {c : BlockCache (Metered S) extra} (h : Tracks n [] c)
    (hreads : c.storage.reads = []) (accesses : List Access)
    (hin : ∀ a ∈ accesses, a.address < n) :
    (stateAfter (accesses.map Access.perform) c).storage.reads =
      misses (extra + 1) (accesses.map Access.block).reverse := by
  induction accesses using List.reverseRecOn with
  | nil => exact hreads
  | append_singleton accesses a ih =>
      have hearlier : ∀ b ∈ accesses, b.address < n := fun b hb => hin b (List.mem_append_left _ hb)
      have hbefore := h.run accesses hearlier
      obtain ⟨i, c₁, answer, hslot, hperform, -⟩ :=
        hbefore.perform (hin a (List.mem_append_right _ (List.mem_singleton_self a)))
      rw [List.map_append, List.map_append, List.map_singleton, List.map_singleton,
        stateAfter_concat, hperform, List.reverse_append]
      change (a.effect i c₁).storage.reads = misses (extra + 1) (a.block :: _)
      rw [Access.storage_effect, slotFor_reads hslot, ih hearlier, misses]
      simp only [hbefore.residents_perm.mem_iff]
      rfl

theorem Tracks.metered (h : Tracks n history c) : Tracks n history c.metered where
  consistent := ⟨h.consistent.size_eq, h.consistent.distinct, h.consistent.aligned,
    h.consistent.clean⟩
  reliable := h.reliable
  size_eq := h.size_eq
  policy_eq := h.policy_eq
  tick_eq := h.tick_eq
  lastUsed_eq := h.lastUsed_eq
  residents_perm := h.residents_perm

omit [LawfulStorage S] in
theorem empty_ofStorage {policy : Eviction} {storage : S} {stream : ChaCha.Stream}
    (h : ofStorage extra policy stream storage = .ok c) :
    c.policy = policy ∧ c.tick = 0 ∧ ∀ i : Fin (extra + 1), (c.slots.get i).base = none := by
  unfold ofStorage at h
  split at h <;> cases h
  exact ⟨rfl, rfl, fun i => congrArg Slot.base (Vector.getElem_replicate i.isLt)⟩

theorem tracks_ofStorage {storage : S} {stream : ChaCha.Stream} (hreliable : Reliable storage)
    (h : ofStorage extra .leastRecent stream storage = .ok c) :
    Tracks (contents storage).size [] c := by
  obtain ⟨hconsistent, hlogical, hstill⟩ := ofStorage_ok h
  obtain ⟨hpolicy, htick, hempty⟩ := empty_ofStorage h
  have habsent (i : Fin (extra + 1)) (base : Nat) : (c.slots.get i).base ≠ some base := by
    rw [hempty i]
    exact (Option.some_ne_none base).symm
  have hnone : c.residents = [] := by
    refine List.eq_nil_iff_forall_not_mem.mpr fun base hbase => ?_
    obtain ⟨i, hi⟩ := mem_residents.mp hbase
    exact habsent i base hi
  refine ⟨hconsistent, hstill hreliable, by rw [← hlogical, size_logical], hpolicy, htick,
    fun i base hi => absurd hi (habsent i base), ?_⟩
  rw [hnone]
  exact .refl []

/-- The blocks that a sequence of accesses reads from the storage, the latest first. -/
def reads (c : BlockCache S extra) (accesses : List Access) : List Nat :=
  (stateAfter (accesses.map Access.perform) c.metered).storage.reads

theorem reads_eq_misses (h : Tracks n [] c) {accesses : List Access}
    (hin : ∀ a ∈ accesses, a.address < n) :
    c.reads accesses = misses (extra + 1) (accesses.map Access.block).reverse :=
  h.metered.reads_run rfl accesses hin

omit [LawfulStorage S] in
theorem unmetered_run (c : BlockCache S extra) (accesses : List Access) :
    (stateAfter (accesses.map Access.perform) c.metered).unmetered =
      stateAfter (accesses.map Access.perform) c :=
  (Sim.calls (fun a : Access => Parametric.perform a.toCall True _ memorySim_metered) accesses
    (show Shadows c.metered c from rfl)).2

/-- A cache that evicts the block of least recent use holds the blocks used last, one for each
slot, and reads a block exactly when it is none of them. -/
theorem residents_are_most_recent (storage : S) (hreliable : Reliable storage) (extra : Nat)
    (stream : ChaCha.Stream) :
    ∃ c : BlockCache S extra, ofStorage extra .leastRecent stream storage = .ok c ∧
      ∀ accesses : List Access, (∀ a ∈ accesses, a.address < (contents storage).size) →
        let after := stateAfter (accesses.map Access.perform) c
        let recent := ((accesses.map Access.block).reverse.eraseDups).take (extra + 1)
        after.residents.Perm recent ∧
          (stateAfter (accesses.map Access.perform) c.metered).unmetered = after ∧
          (∀ a : Access, a.address < (contents storage).size →
            ∃ answer next, a.perform after = .ok answer next ∧
              ((∃ i : Fin (extra + 1), (after.slots.get i).base = none) →
                ∀ base ∈ after.residents, base ∈ next.residents) ∧
              c.reads (accesses ++ [a]) =
                if a.block ∈ recent then c.reads accesses else a.block :: c.reads accesses) ∧
          ∀ (more : Nat) (stream' : ChaCha.Stream) (d : BlockCache S more), extra ≤ more →
            ofStorage more .leastRecent stream' storage = .ok d →
              (d.reads accesses).Sublist (c.reads accesses) := by
  obtain ⟨c, hc⟩ := exists_ofStorage hreliable extra .leastRecent stream
  have htracks := tracks_ofStorage hreliable hc
  refine ⟨c, hc, fun accesses hin => ?_⟩
  intro after recent
  have hafter := htracks.run accesses hin
  refine ⟨hafter.residents_perm, unmetered_run c accesses, fun a ha => ?_,
    fun more stream' d hmore hd => ?_⟩
  · obtain ⟨i, c₁, answer, -, hperform, hnext⟩ := hafter.perform ha
    refine ⟨answer, _, hperform, fun ⟨j, hj⟩ base => hafter.residents_stay hnext hj, ?_⟩
    · have hin' : ∀ b ∈ accesses ++ [a], b.address < (contents storage).size := by
        intro b hb
        rcases List.mem_append.mp hb with hb | hb
        · exact hin b hb
        · rw [List.mem_singleton.mp hb]
          exact ha
      rw [reads_eq_misses htracks hin, reads_eq_misses htracks hin', List.map_append,
        List.reverse_append]
      rfl
  · rw [reads_eq_misses htracks hin, reads_eq_misses (tracks_ofStorage hreliable hd) hin]
    exact misses_sublist (Nat.succ_le_succ hmore) _

/-- With two slots, the block of address 0 has left after two others were used. -/
theorem residents_are_most_recent_two_slots :
    let accesses : List Access := [.read 0, .write 600 9, .read 1100, .read 600]
    ∃ c : BlockCache Image 1,
      ofStorage 1 .leastRecent (ChaCha.ofSeed 0) (Image.mk (Array.replicate 1600 7)) = .ok c ∧
        (stateAfter (accesses.map Access.perform) c).residents.Perm [512, 1024] ∧
        c.reads (accesses ++ [.read 3]) = 0 :: c.reads accesses ∧
        c.reads (accesses ++ [.read 1030]) = c.reads accesses := by
  intro accesses
  have hsize : (contents (Image.mk (Array.replicate 1600 7))).size = 1600 := Array.size_replicate
  obtain ⟨c, hc, hrun⟩ := residents_are_most_recent (Image.mk (Array.replicate 1600 7)) trivial 1
    (ChaCha.ofSeed 0)
  rw [hsize] at hrun
  obtain ⟨hresidents, -, hnext, -⟩ := hrun accesses (by decide)
  obtain ⟨-, -, -, -, hmiss⟩ := hnext (.read 3) (by decide)
  obtain ⟨-, -, -, -, hhit⟩ := hnext (.read 1030) (by decide)
  exact ⟨c, hc, hresidents, hmiss, hhit⟩

end ZMachine.BlockCache
