import Mathlib.Logic.Relation
import Mathlib.Tactic.MkIffOfInductiveProp
import ZMachine.Object

/-!
# Ordered forests in links

Objects `1` to `n` with their links form an ordered forest if the child link
of each starts a finite list of siblings, without repetition, of exactly the
objects that name it as their parent.  Here links are a function, and moves
are changes of that function: `detach` takes an object out of the list it is
in, by way of the one link that leads to it, and `attach` puts it in front of
another list.  Nothing is said about where the links are stored.

The link that leads to an object is either the child link of its parent or
the sibling link of the object before it.  `Chain` treats both alike, so first,
middle and last children need no separate arguments.
-/

namespace ZMachine.Object

/-- The value of every link of every object. -/
abbrev Links := UInt16 → Link → UInt16

def Links.set (links : Links) (x : UInt16) (k : Link) (value : UInt16) : Links :=
  fun y j => if y = x ∧ j = k then value else links y j

@[simp] theorem Links.set_self (links : Links) (x : UInt16) (k : Link) (value : UInt16) :
    links.set x k value x k = value := by
  simp [Links.set]

theorem Links.set_of_ne (links : Links) {x y : UInt16} {k j : Link} (value : UInt16)
    (h : y = x → j ≠ k) : links.set x k value y j = links y j := by
  unfold Links.set
  rw [if_neg fun heq => h heq.1 heq.2]

/-! ## Lists of siblings -/

/-- The list that starts at the link `k` of `x` and goes on along sibling
links up to a link that is 0. -/
def Chain (links : Links) (x : UInt16) (k : Link) : List UInt16 → Prop
  | [] => links x k = 0
  | y :: rest => links x k = y ∧ y ≠ 0 ∧ Chain links y .sibling rest

instance Chain.decidable (links : Links) :
    (x : UInt16) → (k : Link) → (l : List UInt16) → Decidable (Chain links x k l)
  | x, k, [] => inferInstanceAs (Decidable (links x k = 0))
  | x, k, y :: rest =>
    have := Chain.decidable links y .sibling rest
    inferInstanceAs (Decidable (links x k = y ∧ y ≠ 0 ∧ Chain links y .sibling rest))

variable {links links' : Links} {x y o : UInt16} {k j : Link} {l : List UInt16}

/-- A list depends on the link that starts it and the sibling links of its
members, so it can be hung from another link that has the same value. -/
theorem Chain.transfer (h : Chain links x k l) (hstart : links' y j = links x k)
    (hrest : ∀ z ∈ l, links' z .sibling = links z .sibling) : Chain links' y j l := by
  induction l generalizing x y k j with
  | nil => exact hstart.trans h
  | cons z rest ih =>
      obtain ⟨hz, hne, hchain⟩ := h
      simp only [List.mem_cons, forall_eq_or_imp] at hrest
      exact ⟨hstart.trans hz, hne, ih hchain hrest.1 hrest.2⟩

/-- The link that leads to `o` in a list that starts at the link `k` of `x`. -/
def linkTo (o : UInt16) (x : UInt16) (k : Link) : List UInt16 → UInt16 × Link
  | [] => (x, k)
  | y :: rest => if y = o then (x, k) else linkTo o y .sibling rest

theorem linkTo_cases (o x : UInt16) (k : Link) (l : List UInt16) :
    linkTo o x k l = (x, k) ∨ ∃ y ∈ l, linkTo o x k l = (y, .sibling) := by
  induction l generalizing x k with
  | nil => exact .inl rfl
  | cons y rest ih =>
      unfold linkTo
      by_cases hy : y = o
      · simp [hy]
      · right
        simp only [hy, if_false, List.mem_cons, exists_eq_or_imp]
        exact ih y .sibling

theorem linkTo_snd_ne_parent (hk : k ≠ .parent) (o : UInt16) :
    (linkTo o x k l).2 ≠ .parent := by
  rcases linkTo_cases o x k l with hlink | ⟨y, -, hlink⟩ <;> simp [hlink, hk]

/-- Letting the link that leads to an object lead to what follows it takes the
object out of its list.  The link that starts the list must not be one of a
member. -/
theorem Chain.splice (h : Chain links x k l) (ho : o ∈ l) (hnodup : l.Nodup)
    (hstart : k = .sibling → x ∉ l) :
    Chain (links.set (linkTo o x k l).1 (linkTo o x k l).2 (links o .sibling)) x k
      (l.erase o) := by
  induction l generalizing x k with
  | nil => simp at ho
  | cons y rest ih =>
      obtain ⟨hy, hne, hchain⟩ := h
      obtain ⟨hyrest, hnodup⟩ := List.nodup_cons.mp hnodup
      by_cases heq : y = o
      · subst heq
        simp only [linkTo, if_true, List.erase_cons_head]
        apply hchain.transfer (Links.set_self ..)
        intro z hz
        apply Links.set_of_ne
        rintro rfl rfl
        exact hstart rfl (List.mem_cons_of_mem y hz)
      · have hmem : o ∈ rest := by simpa [Ne.symm heq] using ho
        have herase : (y :: rest).erase o = y :: rest.erase o :=
          List.erase_cons_tail (by simpa using heq)
        simp only [linkTo, heq, if_false, herase]
        refine ⟨?_, hne, ih hchain hmem hnodup fun _ => hyrest⟩
        -- The link that is changed belongs to a member, so it does not start the list.
        rw [Links.set_of_ne, hy]
        rcases linkTo_cases o y .sibling rest with hlink | ⟨z, hz, hlink⟩
        · rw [hlink]
          rintro rfl rfl
          exact hstart rfl List.mem_cons_self
        · rw [hlink]
          rintro rfl rfl
          exact hstart rfl (List.mem_cons_of_mem y hz)

/-! ## Forests -/

/-- An object of a table of `n`. -/
def InTable (n : Nat) (x : UInt16) : Prop :=
  x ≠ 0 ∧ x.toNat ≤ n

instance (n : Nat) (x : UInt16) : Decidable (InTable n x) :=
  inferInstanceAs (Decidable (x ≠ 0 ∧ x.toNat ≤ n))

theorem forall_inTable_iff {n : Nat} {motive : UInt16 → Prop} :
    (∀ i ≤ n, InTable n (UInt16.ofNat i) → motive (UInt16.ofNat i)) ↔
      ∀ x, InTable n x → motive x := by
  constructor
  · intro hall x hx
    have hnumber := hall x.toNat hx.2
    rw [UInt16.ofNat_toNat] at hnumber
    exact hnumber hx
  · intro hall i _
    exact hall _

instance (n : Nat) (motive : UInt16 → Prop) [DecidablePred motive] :
    Decidable (∀ x, InTable n x → motive x) :=
  decidable_of_iff _ forall_inTable_iff

-- Going through the list is cheaper than going through all words.
instance (n : Nat) (l : List UInt16) : Decidable (∀ x ∈ l, InTable n x) :=
  List.decidableBAll _ l

/-- The links of objects `1` to `n` are well formed, and `kids` gives the list
of each. -/
@[mk_iff] structure Forest (n : Nat) (links : Links) (kids : UInt16 → List UInt16) : Prop where
  parent_le : ∀ x, InTable n x → (links x .parent).toNat ≤ n
  chain : ∀ p, InTable n p → Chain links p .child (kids p)
  nodup : ∀ p, InTable n p → (kids p).Nodup
  inside : ∀ p, InTable n p → ∀ x ∈ kids p, InTable n x
  mem_iff : ∀ p, InTable n p → ∀ x, InTable n x → (x ∈ kids p ↔ links x .parent = p)

instance (n : Nat) (links : Links) (kids : UInt16 → List UInt16) :
    Decidable (Forest n links kids) :=
  decidable_of_iff' _ (forest_iff n links kids)

/-- Take `o` out of the list in which the link at `place` leads to it. -/
def Links.detach (links : Links) (o : UInt16) (place : UInt16 × Link) : Links :=
  ((links.set place.1 place.2 (links o .sibling)).set o .parent 0).set o .sibling 0

/-- Put `o` in front of the list of `d`. -/
def Links.attach (links : Links) (o d : UInt16) : Links :=
  ((links.set o .parent d).set o .sibling (links d .child)).set d .child o

variable {n : Nat} {kids : UInt16 → List UInt16} {p d : UInt16}

theorem Links.detach_sibling {place : UInt16 × Link} (hx : x ≠ o)
    (hplace : (x, .sibling) ≠ place) : links.detach o place x .sibling = links x .sibling := by
  unfold Links.detach
  rw [set_of_ne _ _ fun h => absurd h hx, set_of_ne _ _ fun h => absurd h hx, set_of_ne]
  intro hfst hsnd
  exact hplace (Prod.ext hfst hsnd)

theorem Links.detach_child {place : UInt16 × Link} (hplace : (x, .child) ≠ place) :
    links.detach o place x .child = links x .child := by
  unfold Links.detach
  rw [set_of_ne _ _ (by simp), set_of_ne _ _ (by simp), set_of_ne]
  intro hfst hsnd
  exact hplace (Prod.ext hfst hsnd)

theorem Links.detach_parent {place : UInt16 × Link} (hplace : place.2 ≠ .parent) :
    links.detach o place x .parent = if x = o then 0 else links x .parent := by
  unfold Links.detach
  rw [set_of_ne _ _ (by simp)]
  by_cases hx : x = o
  · simp [hx]
  · rw [set_of_ne _ _ fun h => absurd h hx, set_of_ne _ _ fun _ => hplace.symm, if_neg hx]

theorem Links.attach_parent (links : Links) (o d x : UInt16) :
    links.attach o d x .parent = if x = o then d else links x .parent := by
  unfold Links.attach
  rw [set_of_ne _ _ (by simp), set_of_ne _ _ (by simp)]
  by_cases hx : x = o
  · simp [hx]
  · rw [set_of_ne _ _ fun heq => absurd heq hx, if_neg hx]

namespace Forest

/-- The link that leads to a child of `p` belongs to no list but that of
`p`. -/
theorem linkTo_apart (h : Forest n links kids) (hp : InTable n p) {q : UInt16}
    (hq : InTable n q) (hne : q ≠ p) (o : UInt16) :
    (q, .child) ≠ linkTo o p .child (kids p) ∧
      ∀ x ∈ kids q, (x, .sibling) ≠ linkTo o p .child (kids p) := by
  rcases linkTo_cases o p .child (kids p) with hlink | ⟨y, hy, hlink⟩
  · simp [hlink, hne]
  · rw [hlink]
    refine ⟨by simp, ?_⟩
    rintro x hx heq
    obtain rfl : x = y := congrArg Prod.fst heq
    have hxtable := h.inside q hq x hx
    have hxq := (h.mem_iff q hq x hxtable).mp hx
    have hxp := (h.mem_iff p hp x hxtable).mp hy
    exact hne (hxq.symm.trans hxp)

/-- Lists of numbers that are no objects do not matter. -/
theorem congr (h : Forest n links kids) {kids' : UInt16 → List UInt16}
    (hkids : ∀ p, InTable n p → kids' p = kids p) : Forest n links kids' where
  parent_le := h.parent_le
  chain p hp := by rw [hkids p hp]; exact h.chain p hp
  nodup p hp := by rw [hkids p hp]; exact h.nodup p hp
  inside p hp := by rw [hkids p hp]; exact h.inside p hp
  mem_iff p hp := by rw [hkids p hp]; exact h.mem_iff p hp

theorem detach (h : Forest n links kids) (ho : InTable n o) (hp : InTable n p)
    (hparent : links o .parent = p) :
    Forest n (links.detach o (linkTo o p .child (kids p))) fun q => (kids q).erase o := by
  have hmem : o ∈ kids p := (h.mem_iff p hp o ho).mpr hparent
  have hplace := linkTo_snd_ne_parent (x := p) (k := .child) (l := kids p) (by simp) o
  have hmemErase : ∀ q, InTable n q → ∀ x, x ∈ (kids q).erase o ↔ x ≠ o ∧ x ∈ kids q :=
    fun q hq x => (h.nodup q hq).mem_erase_iff
  constructor
  · intro x hx
    rw [Links.detach_parent hplace]
    split
    · simp
    · exact h.parent_le x hx
  · intro q hq
    by_cases hqp : q = p
    · subst hqp
      have hsplice := (h.chain q hq).splice hmem (h.nodup q hq) (by simp)
      apply hsplice.transfer
      · unfold Links.detach
        rw [Links.set_of_ne _ _ (by simp), Links.set_of_ne _ _ (by simp)]
      · intro z hz
        have hzo := ((hmemErase q hq z).mp hz).1
        unfold Links.detach
        rw [Links.set_of_ne _ _ fun heq => absurd heq hzo, Links.set_of_ne _ _ (by simp)]
    · obtain ⟨hchild, hsibling⟩ := h.linkTo_apart hp hq hqp o
      have hnot : o ∉ kids q := by
        intro hoq
        exact hqp ((h.mem_iff q hq o ho).mp hoq ▸ hparent)
      rw [List.erase_of_not_mem hnot]
      apply (h.chain q hq).transfer (Links.detach_child hchild)
      intro z hz
      exact Links.detach_sibling (fun heq => hnot (heq ▸ hz)) (hsibling z hz)
  · intro q hq
    exact (h.nodup q hq).erase o
  · intro q hq x hx
    exact h.inside q hq x (List.mem_of_mem_erase hx)
  · intro q hq x hx
    rw [hmemErase q hq, h.mem_iff q hq x hx, Links.detach_parent hplace]
    by_cases hxo : x = o
    · simp [hxo, hq.1.symm]
    · simp [hxo]

theorem attach (h : Forest n links kids) (ho : InTable n o) (hd : InTable n d)
    (hloose : ∀ q, InTable n q → o ∉ kids q) :
    Forest n (links.attach o d) fun q => if q = d then o :: kids d else kids q := by
  have hsibling : ∀ q, InTable n q → ∀ x ∈ kids q,
      links.attach o d x .sibling = links x .sibling := by
    intro q hq x hx
    have hxo : x ≠ o := fun heq => hloose q hq (heq ▸ hx)
    unfold Links.attach
    rw [Links.set_of_ne _ _ (by simp), Links.set_of_ne _ _ fun heq => absurd heq hxo,
      Links.set_of_ne _ _ (by simp)]
  constructor
  · intro x hx
    rw [Links.attach_parent]
    split
    · exact hd.2
    · exact h.parent_le x hx
  · intro q hq
    by_cases hqd : q = d
    · subst hqd
      simp only [if_true]
      refine ⟨Links.set_self .., ho.1, ?_⟩
      apply (h.chain q hq).transfer
      · unfold Links.attach
        rw [Links.set_of_ne _ _ (by simp), Links.set_self]
      · exact hsibling q hq
    · simp only [hqd, if_false]
      apply (h.chain q hq).transfer
      · unfold Links.attach
        rw [Links.set_of_ne _ _ fun heq => absurd heq hqd, Links.set_of_ne _ _ (by simp),
          Links.set_of_ne _ _ (by simp)]
      · exact hsibling q hq
  · intro q hq
    by_cases hqd : q = d
    · simp [hqd, hloose d hd, h.nodup d hd]
    · simp [hqd, h.nodup q hq]
  · intro q hq x hx
    by_cases hqd : q = d
    · simp only [hqd, if_true, List.mem_cons] at hx
      rcases hx with rfl | hx
      · exact ho
      · exact h.inside d hd x hx
    · simp only [hqd, if_false] at hx
      exact h.inside q hq x hx
  · intro q hq x hx
    rw [Links.attach_parent]
    by_cases hqd : q = d
    · subst hqd
      by_cases hxo : x = o
      · simp [hxo]
      · simp [hxo, h.mem_iff q hq x hx]
    · by_cases hxo : x = o
      · simp [hxo, hqd, hloose q hq, Ne.symm hqd]
      · simp [hxo, hqd, h.mem_iff q hq x hx]

end Forest

/-! ## Cycles -/

/-- `x` is a child of `y`. -/
def ChildOf (n : Nat) (links : Links) (x y : UInt16) : Prop :=
  InTable n x ∧ InTable n y ∧ links x .parent = y

def Descends (n : Nat) (links : Links) : UInt16 → UInt16 → Prop :=
  Relation.TransGen (ChildOf n links)

def Acyclic (n : Nat) (links : Links) : Prop :=
  ∀ x, ¬ Descends n links x x

section

variable (hmoved : ∀ x, links' x .parent = if x = o then d else links x .parent)

include hmoved

/-- Above the new parent nothing has changed, as long as the object that moves
is not there. -/
theorem descends_of_moved (hdo : d ≠ o) (habove : ¬ Descends n links d o)
    (h : Relation.ReflTransGen (ChildOf n links') d x) :
    Relation.ReflTransGen (ChildOf n links) d x := by
  induction h with
  | refl => exact .refl
  | @tail y z _ hstep ih =>
      obtain ⟨hy, hz, hparent⟩ := hstep
      by_cases hyo : y = o
      · subst hyo
        rcases Relation.reflTransGen_iff_eq_or_transGen.mp ih with heq | htrans
        · exact absurd heq.symm hdo
        · exact absurd htrans habove
      · rw [hmoved, if_neg hyo] at hparent
        exact ih.tail ⟨hy, hz, hparent⟩

/-- A way up that is new goes through the object that has moved. -/
theorem descends_or_through (h : Descends n links' x y) :
    Descends n links x y ∨
      Relation.ReflTransGen (ChildOf n links') x o ∧
        Relation.ReflTransGen (ChildOf n links') d y := by
  have hstep : ∀ {a b}, ChildOf n links' a b → ChildOf n links a b ∨ a = o ∧ d = b := by
    rintro a b ⟨ha, hb, hparent⟩
    rw [hmoved] at hparent
    by_cases hao : a = o
    · rw [if_pos hao] at hparent
      exact .inr ⟨hao, hparent⟩
    · rw [if_neg hao] at hparent
      exact .inl ⟨ha, hb, hparent⟩
  induction h with
  | single hab =>
      rcases hstep hab with hold | ⟨rfl, rfl⟩
      · exact .inl (.single hold)
      · exact .inr ⟨.refl, .refl⟩
  | @tail b c hxb hbc ih =>
      rcases ih with hold | ⟨hxo, hdb⟩
      · rcases hstep hbc with hbc' | ⟨rfl, rfl⟩
        · exact .inl (hold.tail hbc')
        · exact .inr ⟨hxb.to_reflTransGen, .refl⟩
      · exact .inr ⟨hxo, hdb.tail hbc⟩

theorem Acyclic.moved (h : Acyclic n links) (hdo : d ≠ o) (habove : ¬ Descends n links d o) :
    Acyclic n links' := by
  intro x hcycle
  rcases descends_or_through hmoved hcycle with hold | ⟨hxo, hdx⟩
  · exact h x hold
  · have hup := descends_of_moved hmoved hdo habove (hdx.trans hxo)
    rcases Relation.reflTransGen_iff_eq_or_transGen.mp hup with heq | htrans
    · exact hdo heq.symm
    · exact habove htrans

end

end ZMachine.Object
