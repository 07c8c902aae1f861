import Mathlib.Data.List.Nodup
import Mathlib.Data.List.Perm.Subperm
import ZMachine.Proofs.Image
import ZMachine.Proofs.Object.Forest
import ZMachine.Proofs.Simulation.Story

/-!
# Moving objects

The records of objects hold their links, as bytes before version 4 and as
words afterwards.  Different links lie apart, so writing one changes one value
of the function `linksOf` and no byte that is not part of a link.  `remove`
and `insert` are then the moves of ordered forests: the walk along the sibling
links ends at the link that leads to the object, and what is written there
takes it out.
-/

namespace ZMachine.Object

variable {h : Header} {image image' : Image} {n : Nat} {x y o : UInt16} {k j : Link}

/-! ## Links in an image -/

/-- Bytes in a link. -/
def linkWidth (h : Header) : Nat :=
  if h.version < 4 then 1 else 2

def linkPlace (h : Header) (x : UInt16) (k : Link) : Nat :=
  address h x + k.offset h

/-- The links as they stand in an image; those of object 0 are 0. -/
def linksOf (h : Header) (image : Image) : Links := fun x k =>
  if x = 0 then 0
  else if h.version < 4 then (image.byteAt (linkPlace h x k)).toUInt16
  else image.wordAt (linkPlace h x k)

/-- The most objects that a link can tell apart. -/
def mostObjects (h : Header) : Nat :=
  if h.version < 4 then 255 else 65535

/-- Address behind the records of `n` objects. -/
def tableEnd (h : Header) (n : Nat) : Nat :=
  h.objects.toNat + (h.propertyLimit - 1) * 2 + n * h.objectSize

/-- An address in a parent, sibling or child link of one of `n` objects. -/
def IsLinkByte (h : Header) (n a : Nat) : Prop :=
  ∃ x k, InTable n x ∧ linkPlace h x k ≤ a ∧ a < linkPlace h x k + linkWidth h

theorem offset_add_width_le (h : Header) (k : Link) :
    k.offset h + linkWidth h ≤ h.objectSize := by
  unfold linkWidth Header.objectSize
  cases k <;> simp only [Link.offset] <;> split <;> omega

theorem address_add_size_le (hy : y ≠ 0) (hyx : y.toNat < x.toNat) :
    address h y + h.objectSize ≤ address h x := by
  have hpos : 0 < y.toNat := UInt16.pos_iff_ne_zero.mpr hy
  have hrecords : (y.toNat - 1 + 1) * h.objectSize ≤ (x.toNat - 1) * h.objectSize :=
    Nat.mul_le_mul_right _ (by omega)
  rw [Nat.succ_mul] at hrecords
  unfold address
  omega

theorem address_add_size_le_tableEnd (hx : InTable n x) :
    address h x + h.objectSize ≤ tableEnd h n := by
  have hpos : 0 < x.toNat := UInt16.pos_iff_ne_zero.mpr hx.1
  have hle := hx.2
  have hrecords : (x.toNat - 1 + 1) * h.objectSize ≤ n * h.objectSize :=
    Nat.mul_le_mul_right _ (by omega)
  rw [Nat.succ_mul] at hrecords
  unfold address tableEnd
  omega

theorem linkPlace_le_tableEnd (hx : InTable n x) (k : Link) :
    linkPlace h x k + linkWidth h ≤ tableEnd h n := by
  have hfits := offset_add_width_le h k
  have hrecord := address_add_size_le_tableEnd (h := h) hx
  unfold linkPlace
  omega

/-- Different links do not overlap. -/
theorem linkPlace_apart (hx : x ≠ 0) (hy : y ≠ 0) (hne : y = x → j ≠ k) :
    linkPlace h y j + linkWidth h ≤ linkPlace h x k ∨
      linkPlace h x k + linkWidth h ≤ linkPlace h y j := by
  have hj := offset_add_width_le h j
  have hk := offset_add_width_le h k
  unfold linkPlace
  rcases Nat.lt_trichotomy y.toNat x.toNat with hlt | heq | hgt
  · have hrecord := address_add_size_le (h := h) hy hlt
    omega
  · obtain rfl := UInt16.toNat_inj.mp heq
    have hjk := hne rfl
    unfold linkWidth
    cases j <;> cases k <;> simp only [Link.offset, ne_eq, not_true_eq_false] at hjk ⊢ <;>
      split <;> omega
  · have hrecord := address_add_size_le (h := h) hx hgt
    omega

theorem linksOf_le (h : Header) (image : Image) (x : UInt16) (k : Link) :
    (linksOf h image x k).toNat ≤ mostObjects h := by
  unfold linksOf mostObjects
  split
  · simp
  · split
    · have := (image.byteAt (linkPlace h x k)).toNat_lt
      simp
      omega
    · have := (image.wordAt (linkPlace h x k)).toNat_lt
      omega

/-! ## Reading and writing them -/

theorem readLink_image (hroom : tableEnd h n ≤ image.bytes.size) (hx : InTable n x) (k : Link) :
    (readLink h x k : MemoryM Image UInt16) image = .ok (linksOf h image x k) image := by
  have hplace := linkPlace_le_tableEnd (h := h) hx k
  unfold readLink linksOf
  unfold linkWidth at hplace
  simp only [hx.1, if_false]
  split
  · rw [if_pos ‹_›] at hplace
    rw [bind_ok (Image.readByte_of_lt (by unfold linkPlace at hplace; omega))]
    rfl
  · rw [if_neg ‹_›] at hplace
    exact Image.readWord_of_lt (by unfold linkPlace at hplace; omega)

/-- The image with another value in a link. -/
def pokeLink (h : Header) (image : Image) (x : UInt16) (k : Link) (value : UInt16) : Image :=
  if h.version < 4 then image.poke (linkPlace h x k) (lowByte value)
  else image.pokeWord (linkPlace h x k) value

theorem writeLink_image (hroom : tableEnd h n ≤ image.bytes.size) (hx : InTable n x) (k : Link)
    (value : UInt16) :
    (writeLink h x k value : MemoryM Image Unit) image = .ok () (pokeLink h image x k value) := by
  have hplace := linkPlace_le_tableEnd (h := h) hx k
  unfold writeLink pokeLink
  unfold linkWidth at hplace
  simp only [hx.1, if_false]
  split
  · rw [if_pos ‹_›] at hplace
    exact Image.writeByte_of_lt (by unfold linkPlace at hplace; omega) _
  · rw [if_neg ‹_›] at hplace
    exact Image.writeWord_of_lt (by unfold linkPlace at hplace; omega) _

theorem size_pokeLink (h : Header) (image : Image) (x : UInt16) (k : Link) (value : UInt16) :
    (pokeLink h image x k value).bytes.size = image.bytes.size := by
  unfold pokeLink
  split <;> simp

theorem byteAt_pokeLink {a : Nat}
    (ha : ¬ (linkPlace h x k ≤ a ∧ a < linkPlace h x k + linkWidth h)) (value : UInt16) :
    (pokeLink h image x k value).byteAt a = image.byteAt a := by
  unfold pokeLink
  unfold linkWidth at ha
  split
  · rw [if_pos ‹_›] at ha
    exact Image.byteAt_poke_of_ne _ (by omega) _
  · rw [if_neg ‹_›] at ha
    exact Image.byteAt_pokeWord_of_ne _ (by omega) _

theorem linksOf_pokeLink_self (hroom : tableEnd h n ≤ image.bytes.size) (hx : InTable n x)
    (k : Link) {value : UInt16} (hvalue : value.toNat ≤ mostObjects h) :
    linksOf h (pokeLink h image x k value) x k = value := by
  have hplace := linkPlace_le_tableEnd (h := h) hx k
  unfold linksOf pokeLink
  unfold linkWidth at hplace
  unfold mostObjects at hvalue
  simp only [hx.1, if_false]
  split
  · rw [if_pos ‹_›] at hplace hvalue
    rw [Image.byteAt_poke_self (by omega)]
    apply UInt16.toNat_inj.mp
    simp [lowByte]
    omega
  · rw [if_neg ‹_›] at hplace
    exact Image.wordAt_pokeWord_self (by omega) _

theorem linksOf_pokeLink_of_ne (hx : x ≠ 0) (hne : y = x → j ≠ k) (value : UInt16) :
    linksOf h (pokeLink h image x k value) y j = linksOf h image y j := by
  by_cases hy : y = 0
  · simp [linksOf, hy]
  · have happart := linkPlace_apart (h := h) hx hy hne
    have hframe : ∀ i < linkWidth h, (pokeLink h image x k value).byteAt (linkPlace h y j + i) =
        image.byteAt (linkPlace h y j + i) := by
      intro i hi
      exact byteAt_pokeLink (by omega) value
    unfold linksOf
    unfold linkWidth at hframe
    split
    · rfl
    · split
      · rw [if_pos ‹_›] at hframe
        rw [← Nat.add_zero (linkPlace h y j), hframe 0 (by omega)]
      · rw [if_neg ‹_›] at hframe
        unfold Image.wordAt
        rw [hframe 1 (by omega), ← Nat.add_zero (linkPlace h y j), hframe 0 (by omega)]

theorem linksOf_pokeLink (hroom : tableEnd h n ≤ image.bytes.size) (hx : InTable n x)
    (k : Link) {value : UInt16} (hvalue : value.toNat ≤ mostObjects h) :
    linksOf h (pokeLink h image x k value) = (linksOf h image).set x k value := by
  funext y j
  by_cases hyj : y = x ∧ j = k
  · obtain ⟨rfl, rfl⟩ := hyj
    rw [linksOf_pokeLink_self hroom hx _ hvalue, Links.set_self]
  · have hne : y = x → j ≠ k := fun hy hj => hyj ⟨hy, hj⟩
    rw [linksOf_pokeLink_of_ne hx.1 hne, Links.set_of_ne _ _ hne]

/-! ## Moves -/

/-- A list without repetition is short enough to be followed to its end. -/
theorem length_le_of_nodup {l : List UInt16} (hl : l.Nodup) : l.length ≤ siblingLimit := by
  have hnumbers : (l.map UInt16.toNat).Nodup :=
    hl.map fun _ _ heq => UInt16.toNat_inj.mp heq
  have hsubset : l.map UInt16.toNat ⊆ List.range siblingLimit := by
    intro i hi
    obtain ⟨x, -, rfl⟩ := List.mem_map.mp hi
    exact List.mem_range.mpr x.toNat_lt
  simpa using (List.Nodup.subperm hnumbers hsubset).length_le

/-- The links of an image have become `links`, and nothing else has
changed. -/
structure Relinked (h : Header) (n : Nat) (image image' : Image) (links : Links) : Prop where
  links_eq : linksOf h image' = links
  size_eq : image'.bytes.size = image.bytes.size
  byteAt_eq : ∀ a, ¬ IsLinkByte h n a → image'.byteAt a = image.byteAt a

variable {links : Links} {kids : UInt16 → List UInt16} {l : List UInt16} {d p : UInt16}

theorem Relinked.refl (h : Header) (n : Nat) (image : Image) :
    Relinked h n image image (linksOf h image) :=
  ⟨rfl, rfl, fun _ _ => rfl⟩

section

variable (hroom : tableEnd h n ≤ image.bytes.size)

include hroom

/-- One more link is written. -/
theorem Relinked.write (hdone : Relinked h n image image' links) (hx : InTable n x) (k : Link)
    {value : UInt16} (hvalue : value.toNat ≤ mostObjects h) :
    ∃ image'', (writeLink h x k value : MemoryM Image Unit) image' = .ok () image'' ∧
      Relinked h n image image'' (links.set x k value) := by
  have hroom' : tableEnd h n ≤ image'.bytes.size := by rw [hdone.size_eq]; exact hroom
  refine ⟨_, writeLink_image hroom' hx k value, ?_, ?_, ?_⟩
  · rw [linksOf_pokeLink hroom' hx k hvalue, hdone.links_eq]
  · rw [size_pokeLink, hdone.size_eq]
  · intro a ha
    rw [byteAt_pokeLink fun hin => ha ⟨x, k, hx, hin⟩, hdone.byteAt_eq a ha]

theorem Relinked.read (hdone : Relinked h n image image' links) (hx : InTable n x) (k : Link) :
    (readLink h x k : MemoryM Image UInt16) image' = .ok (links x k) image' := by
  rw [← hdone.links_eq]
  exact readLink_image (by rw [hdone.size_eq]; exact hroom) hx k

/-- The walk along sibling links ends at the one that leads to the object. -/
theorem unlink_image (hchain : Chain (linksOf h image) x .sibling l) (ho : o ∈ l)
    (hx : InTable n x) (hl : ∀ y ∈ l, InTable n y) {after : UInt16}
    (hafter : after.toNat ≤ mostObjects h) {limit : Nat} (hlimit : l.length ≤ limit) :
    ∃ image', (unlink h o after limit x : MemoryM Image Unit) image = .ok () image' ∧
      Relinked h n image image' ((linksOf h image).set (linkTo o x .sibling l).1
        (linkTo o x .sibling l).2 after) := by
  induction l generalizing x limit with
  | nil => simp at ho
  | cons y rest ih =>
      obtain ⟨hy, -, hrest⟩ := hchain
      obtain ⟨limit, rfl⟩ : ∃ m, limit = m + 1 := ⟨limit - 1, by simp at hlimit; omega⟩
      unfold unlink
      rw [if_neg hx.1, bind_ok (readLink_image hroom hx .sibling), hy]
      by_cases hyo : y = o
      · subst hyo
        simp only [linkTo, if_true]
        exact (Relinked.refl h n image).write hroom hx .sibling hafter
      · have hmem : o ∈ rest := by simpa [Ne.symm hyo] using ho
        simp only [List.mem_cons, forall_eq_or_imp] at hl
        simp only [List.length_cons, Nat.add_le_add_iff_right] at hlimit
        simp only [linkTo, hyo, if_false]
        exact ih hrest hmem hl.1 hl.2 hlimit

variable (hforest : Forest n (linksOf h image) kids)

include hforest

/-- The link of a parent's list that leads to a child is redirected, wherever
in the list the child is. -/
theorem redirect_image (ho : InTable n o) (hp : InTable n p)
    (hparent : linksOf h image o .parent = p) {after : UInt16}
    (hafter : after.toNat ≤ mostObjects h) :
    ∃ image', (if linksOf h image p .child = o then writeLink h p .child after
          else unlink h o after siblingLimit (linksOf h image p .child) :
        MemoryM Image Unit) image = .ok () image' ∧
      Relinked h n image image' ((linksOf h image).set (linkTo o p .child (kids p)).1
        (linkTo o p .child (kids p)).2 after) := by
  have hmem := (hforest.mem_iff p hp o ho).mpr hparent
  have hchain := hforest.chain p hp
  have hinside := hforest.inside p hp
  have hlength := length_le_of_nodup (hforest.nodup p hp)
  cases hkids : kids p with
  | nil => simp [hkids] at hmem
  | cons y rest =>
      rw [hkids] at hmem hchain hinside hlength
      obtain ⟨hy, -, hrest⟩ := hchain
      simp only [List.mem_cons, forall_eq_or_imp] at hinside
      rw [hy]
      by_cases hyo : y = o
      · simp only [linkTo, hyo, if_true]
        exact (Relinked.refl h n image).write hroom hp .child hafter
      · have hmem' : o ∈ rest := by simpa [Ne.symm hyo] using hmem
        simp only [linkTo, hyo, if_false]
        refine unlink_image hroom hrest hmem' hinside.1 hinside.2 hafter ?_
        simp only [List.length_cons] at hlength
        exact Nat.le_of_succ_le hlength

theorem remove_image (ho : InTable n o) :
    ∃ image' links', (remove h o : MemoryM Image Unit) image = .ok () image' ∧
      Relinked h n image image' links' ∧ Forest n links' (fun q => (kids q).erase o) ∧
      ∀ y, links' y .parent = if y = o then 0 else linksOf h image y .parent := by
  unfold remove
  rw [bind_ok (readLink_image hroom ho .parent)]
  by_cases hp : linksOf h image o .parent = 0
  · -- The object is in no list, so taking it out of all of them changes nothing.
    have hkids : ∀ q, InTable n q → (kids q).erase o = kids q := by
      intro q hq
      apply List.erase_of_not_mem
      rw [hforest.mem_iff q hq o ho, hp]
      exact hq.1.symm
    refine ⟨image, _, by rw [if_pos hp]; rfl, .refl h n image, hforest.congr hkids, fun y => ?_⟩
    by_cases hy : y = o
    · simp [hy, hp]
    · simp [hy]
  · have hparent : InTable n (linksOf h image o .parent) := ⟨hp, hforest.parent_le o ho⟩
    obtain ⟨image₁, hredirect, hdone₁⟩ := redirect_image hroom hforest ho hparent rfl
      (linksOf_le h image o .sibling)
    have hzero : (0 : UInt16).toNat ≤ mostObjects h := Nat.zero_le _
    obtain ⟨image₂, hwrite₂, hdone₂⟩ := hdone₁.write hroom ho .parent hzero
    obtain ⟨image₃, hwrite₃, hdone₃⟩ := hdone₂.write hroom ho .sibling hzero
    refine ⟨image₃, _, ?_, hdone₃, hforest.detach ho hparent rfl, fun y => ?_⟩
    · have hlast : (do writeLink h o .parent 0; writeLink h o .sibling 0 : MemoryM Image Unit)
          image₁ = .ok () image₃ := (bind_ok hwrite₂).trans hwrite₃
      rw [if_neg hp, bind_ok (readLink_image hroom ho .sibling),
        bind_ok (readLink_image hroom hparent .child)]
      by_cases hfirst : linksOf h image (linksOf h image o .parent) .child = o
      · rw [if_pos hfirst] at hredirect ⊢
        exact (bind_ok hredirect).trans hlast
      · rw [if_neg hfirst] at hredirect ⊢
        exact (bind_ok hredirect).trans hlast
    · exact Links.detach_parent (linkTo_snd_ne_parent (by simp) o)

theorem insert_image (hn : n ≤ mostObjects h) (ho : InTable n o) (hd : InTable n d) :
    ∃ image' links', (insert h o d : MemoryM Image Unit) image = .ok () image' ∧
      Relinked h n image image' links' ∧
      Forest n links' (fun q => if q = d then o :: (kids d).erase o else (kids q).erase o) ∧
      ∀ y, links' y .parent = if y = o then d else linksOf h image y .parent := by
  obtain ⟨image₁, links₁, hremove, hdone₁, hforest₁, hparent₁⟩ := remove_image hroom hforest ho
  have hloose : ∀ q, InTable n q → o ∉ (kids q).erase o :=
    fun q hq => (hforest.nodup q hq).not_mem_erase
  have hchild : (links₁ d .child).toNat ≤ mostObjects h := by
    rw [← hdone₁.links_eq]
    exact linksOf_le h image₁ d .child
  obtain ⟨image₂, hwrite₂, hdone₂⟩ := hdone₁.write hroom ho .parent (Nat.le_trans hd.2 hn)
  obtain ⟨image₃, hwrite₃, hdone₃⟩ := hdone₂.write hroom ho .sibling hchild
  obtain ⟨image₄, hwrite₄, hdone₄⟩ := hdone₃.write hroom hd .child (Nat.le_trans ho.2 hn)
  refine ⟨image₄, links₁.attach o d, ?_, hdone₄, hforest₁.attach ho hd hloose, fun y => ?_⟩
  · unfold insert
    rw [if_neg (by simp [ho.1, hd.1]), bind_ok hremove, bind_ok (hdone₁.read hroom hd .child),
      bind_ok hwrite₂, bind_ok hwrite₃, hwrite₄]
  · rw [Links.attach_parent, hparent₁]
    by_cases hy : y = o <;> simp [hy]

end

/-- Removing and inserting are moves in an ordered forest, in every memory
that shows an image with the objects: they succeed, the list of the new parent
gets the object in front, every other list is without it, and no byte outside
the links changes. -/
theorem moves_in_forest
    {M : Type} [AddressSpace M] {R : M → Image → Prop} (hR : MemorySim True R)
    {m : M} (hm : R m image) (hn : n ≤ mostObjects h) (hroom : tableEnd h n ≤ image.bytes.size)
    (hforest : Forest n (linksOf h image) kids) (ho : InTable n o) (hd : InTable n d) :
    (∃ m' image', R m' image' ∧ remove h o m = .ok () m' ∧
        Forest n (linksOf h image') (fun p => (kids p).erase o) ∧
        linksOf h image' o .parent = 0 ∧ (∀ p, InTable n p → o ∉ (kids p).erase o) ∧
        image'.bytes.size = image.bytes.size ∧
        ∀ a, ¬ IsLinkByte h n a → image'.byteAt a = image.byteAt a) ∧
      ∃ m' image', R m' image' ∧ insert h o d m = .ok () m' ∧
        Forest n (linksOf h image')
          (fun p => if p = d then o :: (kids d).erase o else (kids p).erase o) ∧
        (Acyclic n (linksOf h image) → d ≠ o → ¬ Descends n (linksOf h image) d o →
          Acyclic n (linksOf h image')) ∧
        image'.bytes.size = image.bytes.size ∧
        ∀ a, ¬ IsLinkByte h n a → image'.byteAt a = image.byteAt a := by
  constructor
  · obtain ⟨image', links', hremove, hdone, hforest', hparent⟩ := remove_image hroom hforest ho
    obtain ⟨m', hm', hok⟩ := Image.exists_ok hR (.remove h o) hm hremove
    obtain rfl := hdone.links_eq
    refine ⟨m', image', hm', hok, hforest', ?_, ?_, hdone.size_eq, hdone.byteAt_eq⟩
    · simp [hparent]
    · intro p hp
      exact (hforest.nodup p hp).not_mem_erase
  · obtain ⟨image', links', hinsert, hdone, hforest', hparent⟩ :=
      insert_image hroom hforest hn ho hd
    obtain ⟨m', hm', hok⟩ := Image.exists_ok hR (.insert h o d) hm hinsert
    obtain rfl := hdone.links_eq
    refine ⟨m', image', hm', hok, hforest', ?_, hdone.size_eq, hdone.byteAt_eq⟩
    intro hacyclic hdo habove
    exact hacyclic.moved hparent hdo habove

/-- Objects 2, 3 and 4 in object 1; the second of them is moved to the front
of the list that it is in. -/
theorem moves_in_forest_middle_child :
    let h : Header := { (default : Header) with version := 3, objects := 64 }
    let image : Image :=
      ⟨(Array.replicate 162 0).set! 132 2 |>.set! 139 1 |>.set! 140 3 |>.set! 148 1
        |>.set! 149 4 |>.set! 157 1⟩
    let kids : UInt16 → List UInt16 := fun p => if p = 1 then [2, 3, 4] else []
    tableEnd h 4 = image.bytes.size ∧ Forest 4 (linksOf h image) kids ∧
      Acyclic 4 (linksOf h image) ∧
      ∃ image', insert h 3 1 image = .ok () image' ∧
        Forest 4 (linksOf h image') (fun p => if p = 1 then [3, 2, 4] else []) ∧
        Acyclic 4 (linksOf h image') := by
  intro h image kids
  have hroom : tableEnd h 4 = image.bytes.size := by decide +kernel
  have hforest : Forest 4 (linksOf h image) kids := by decide +kernel
  have hchild : ∀ {x y}, ChildOf 4 (linksOf h image) x y → y = 1 ∧ x ≠ 1 := by
    have hall : ∀ x, InTable 4 x → ∀ y, InTable 4 y →
        linksOf h image x .parent = y → y = 1 ∧ x ≠ 1 := by decide +kernel
    rintro x y ⟨hx, hy, hparent⟩
    exact hall x hx y hy hparent
  have hone : ∀ {x y}, Descends 4 (linksOf h image) x y → y = 1 ∧ x ≠ 1 := by
    intro x y hxy
    obtain ⟨b, -, hlast⟩ := Relation.TransGen.tail'_iff.mp hxy
    obtain ⟨c, hfirst, -⟩ := Relation.TransGen.head'_iff.mp hxy
    exact ⟨(hchild hlast).1, (hchild hfirst).2⟩
  have hacyclic : Acyclic 4 (linksOf h image) := fun x hx => (hone hx).2 (hone hx).1
  obtain ⟨-, m', image', rfl, hok, hforest', hacyclic', -⟩ :=
    moves_in_forest (o := 3) (d := 1) MemorySim.refl rfl (by decide) (Nat.le_of_eq hroom) hforest
      (by decide) (by decide)
  refine ⟨hroom, hforest, hacyclic, m', hok, hforest'.congr ?_, ?_⟩
  · intro p hp
    by_cases hp1 : p = 1 <;> simp [kids, hp1]
  · exact hacyclic' hacyclic (by decide) fun habove => by simpa using (hone habove).1

end ZMachine.Object
