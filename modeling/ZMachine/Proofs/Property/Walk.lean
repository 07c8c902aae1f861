import ZMachine.Proofs.Property.Width

/-!
# The walk along a property list ends

`find` bounds the headers that it reads before it starts.  `Walks` is the loop
without a bound: it goes on behind the data while the number is larger than the
one asked for, and notes the address of each header.  A derivation is a walk
that comes to an end.

Nothing is assumed of the table.  Every header gives a size of at least one
byte, so addresses rise along the walk, and sooner or later a header stops it
or reaches out of memory.  Which headers it meets is told by the image alone,
as `headerAt` does, so an entry that is found is always a header of the list
with the number asked for.  If numbers fall along the list, none is missed.
-/

namespace ZMachine.Property

variable {h : Header} {image image' : Image} {object property : UInt16} {a k n : Nat}

/-! ## Headers one behind the other -/

/-- Address of the header that follows `k` others, the first of them at `a`. -/
def headerAt (h : Header) (image : Image) (a : Nat) : Nat → Nat
  | 0 => a
  | k + 1 => headerAt h image (entryAt h image a).after k

def numberAt (h : Header) (image : Image) (a k : Nat) : UInt16 :=
  (entryAt h image (headerAt h image a k)).number

theorem lt_data (h : Header) (image : Image) (a : Nat) : a < (entryAt h image a).data := by
  unfold entryAt
  by_cases hlong : isLong h (image.byteAt a) = true
  · simp [hlong]
  · simp [hlong]

theorem add_one_lt_after (h : Header) (image : Image) (a : Nat) :
    a + 1 < (entryAt h image a).after := by
  have hdata := lt_data h image a
  have hsize := entryAt_size_pos h image a
  unfold Entry.after
  omega

theorem headerAt_succ (h : Header) (image : Image) (a k : Nat) :
    headerAt h image a (k + 1) = (entryAt h image (headerAt h image a k)).after := by
  induction k generalizing a with
  | zero => rfl
  | succ k ih => exact ih _

theorem headerAt_lt {j : Nat} (hjk : j < k) : headerAt h image a j < headerAt h image a k := by
  have hnext (i : Nat) : headerAt h image a i < headerAt h image a (i + 1) := by
    rw [headerAt_succ]
    exact Nat.lt_of_succ_lt (add_one_lt_after h image _)
  induction hjk with
  | refl => exact hnext j
  | step _ ih => exact Nat.lt_trans ih (hnext _)

theorem pairwise_headers (h : Header) (image : Image) (a n : Nat) :
    ((List.range n).map (headerAt h image a)).Pairwise (· < ·) :=
  List.pairwise_map.mpr (List.pairwise_lt_range.imp headerAt_lt)

/-- Numbers fall along the list, down to a 0 in memory. -/
structure Falls (h : Header) (image : Image) (a n : Nat) : Prop where
  inside : headerAt h image a n < image.bytes.size
  falls : ∀ k < n, numberAt h image a (k + 1) < numberAt h image a k
  ends : numberAt h image a n = 0

theorem Falls.number_lt (hfalls : Falls h image a n) {j : Nat} (hjk : j < k) (hk : k ≤ n) :
    numberAt h image a k < numberAt h image a j := by
  induction hjk with
  | refl => exact hfalls.falls j hk
  | step _ ih => exact UInt16.lt_trans (hfalls.falls _ hk) (ih (Nat.le_of_succ_le hk))

/-- Every header in front of the 0 lies in memory with its data. -/
theorem Falls.room (hfalls : Falls h image a n) (hk : k < n) :
    (entryAt h image (headerAt h image a k)).data ≤ image.bytes.size := by
  have hafter : (entryAt h image (headerAt h image a k)).after ≤ headerAt h image a n := by
    rw [← headerAt_succ]
    rcases Nat.eq_or_lt_of_le hk with rfl | hlt
    · exact Nat.le_refl _
    · exact Nat.le_of_lt (headerAt_lt hlt)
  have hinside := hfalls.inside
  unfold Entry.after at hafter
  omega

/-- A walk that only passes larger numbers comes no further than the 0. -/
theorem Falls.le_of_passed {last : Nat} (hfalls : Falls h image a last)
    (hpassed : ∀ k < n, property < numberAt h image a k) : n ≤ last := by
  apply Nat.le_of_not_lt
  intro hlast
  have hlarger := hpassed last hlast
  rw [hfalls.ends] at hlarger
  exact UInt16.not_lt_zero hlarger

/-! ## What is read -/

theorem readEntry_of_le (hroom : (entryAt h image a).data ≤ image.bytes.size) :
    (readEntry h a : MemoryM Image Entry) image = .ok (entryAt h image a) image := by
  have hlt : a < image.bytes.size := Nat.lt_of_lt_of_le (lt_data h image a) hroom
  unfold readEntry
  rw [bind_ok (Image.readByte_of_lt hlt)]
  unfold entryAt at hroom ⊢
  by_cases hlong : isLong h (image.byteAt a) = true
  · simp only [hlong, if_true] at hroom ⊢
    rw [bind_ok (Image.readByte_of_lt hroom)]
    rfl
  · simp only [hlong, Bool.false_eq_true, if_false]
    rfl

theorem readByte_of_size_le (h : image.bytes.size ≤ a) :
    (Memory.readByte a : MemoryM Image UInt8) image =
      .error (.addressOutOfRange a image.bytes.size) image := by
  obtain ⟨e, he⟩ := Image.readByte_of_ge h
  rw [he, Image.readByte_error he]

theorem readEntry_of_lt (houtside : image.bytes.size < (entryAt h image a).data) :
    ∃ outside, (readEntry h a : MemoryM Image Entry) image =
      .error (.addressOutOfRange outside image.bytes.size) image := by
  unfold readEntry
  by_cases hlt : a < image.bytes.size
  · rw [bind_ok (Image.readByte_of_lt hlt)]
    unfold entryAt at houtside
    by_cases hlong : isLong h (image.byteAt a) = true
    · simp only [hlong, if_true] at houtside ⊢
      rw [bind_error (readByte_of_size_le (Nat.le_of_lt_succ houtside))]
      exact ⟨_, rfl⟩
    · simp only [hlong, Bool.false_eq_true, if_false] at houtside
      omega
  · rw [bind_error (readByte_of_size_le (Nat.not_lt.mp hlt))]
    exact ⟨_, rfl⟩

theorem first_error {e : Fault}
    (hfirst : (first h object : MemoryM Image Nat) image = .error e image') :
    ∃ outside, e = .addressOutOfRange outside image.bytes.size := by
  rcases bind_eq_error_iff.mp hfirst with htable | ⟨table, image₁, htable, hrest⟩
  · rcases bind_eq_error_iff.mp htable with hword | ⟨w, image₁, -, hpure⟩
    · exact Image.readWord_error hword
    · cases hpure
  · obtain ⟨w, image₂, hword, hpure⟩ := bind_eq_ok_iff.mp htable
    obtain ⟨-, rfl⟩ := Image.readWord_ok hword
    cases hpure
    rcases bind_eq_error_iff.mp hrest with hbyte | ⟨words, image₃, -, hpure⟩
    · exact ⟨_, Image.readByte_error hbyte⟩
    · cases hpure

section

variable {M : Type} [AddressSpace M]

/-! ## The loop without a bound -/

/-- The walk from the header at an address on meets these headers. -/
inductive Walks (h : Header) (property : UInt16) :
    Nat → M → List Nat → EStateM.Result Fault M Entry → Prop where
  | outside {a m e m'} (hread : readEntry h a m = .error e m') :
      Walks h property a m [a] (.error e m')
  | stop {a m e m'} (hread : readEntry h a m = .ok e m') (hstop : ¬ property < e.number) :
      Walks h property a m [a] (.ok e m')
  | further {a m e m₁ visited result} (hread : readEntry h a m = .ok e m₁)
      (hlarger : property < e.number) (hrest : Walks h property e.after m₁ visited result) :
      Walks h property a m (a :: visited) result

theorem hit_eq_some_iff {e e' : Entry} :
    hit property e = some e' ↔ e = e' ∧ e.number = property ∧ property ≠ 0 := by
  unfold hit
  split <;> grind

/-- The search through the list of an object meets these headers. -/
inductive Searches (h : Header) (object property : UInt16) :
    M → List Nat → EStateM.Result Fault M (Option Entry) → Prop where
  | lost {m e m'} (hfirst : first h object m = .error e m') :
      Searches h object property m [] (.error e m')
  | outside {m start m₁ visited e m'} (hfirst : first h object m = .ok start m₁)
      (hwalk : Walks h property start m₁ visited (.error e m')) :
      Searches h object property m visited (.error e m')
  | ended {m start m₁ visited e m'} (hfirst : first h object m = .ok start m₁)
      (hwalk : Walks h property start m₁ visited (.ok e m')) :
      Searches h object property m visited
        (.ok (hit property e) m')

theorem Walks.unique {m : M} {visited visited' : List Nat}
    {result result' : EStateM.Result Fault M Entry} (hwalk : Walks h property a m visited result)
    (hwalk' : Walks h property a m visited' result') : visited' = visited ∧ result' = result := by
  induction hwalk generalizing visited' result' with
  | outside hread => cases hwalk' <;> grind
  | stop hread hstop => cases hwalk' <;> grind
  | further hread hlarger _ ih => cases hwalk' <;> grind

theorem Searches.unique {m : M} {visited visited' : List Nat}
    {result result' : EStateM.Result Fault M (Option Entry)}
    (hsearch : Searches h object property m visited result)
    (hsearch' : Searches h object property m visited' result') :
    visited' = visited ∧ result' = result := by
  cases hsearch with
  | lost hfirst => cases hsearch' <;> grind
  | outside hfirst hwalk => cases hsearch' <;> grind [hwalk.unique]
  | ended hfirst hwalk => cases hsearch' <;> grind [hwalk.unique]

/-! ## Memories that show an image -/

/-- Where and how a walk ends, as the image tells it. -/
def Rests (h : Header) (image : Image) (property : UInt16) (a : Nat) : Except Fault Entry → Prop
  | .ok e => e = entryAt h image a ∧ ¬ property < e.number ∧ e.data ≤ image.bytes.size
  | .error e => (∃ outside, e = .addressOutOfRange outside image.bytes.size) ∧
      image.bytes.size < (entryAt h image a).data

variable {R : M → Image → Prop} {m m' : M} (hR : MemorySim True R) (hm : R m image)

include hR hm

theorem readEntry_shown {e : Entry} (hread : readEntry h a m = .ok e m') :
    e = entryAt h image a ∧ R m' image ∧ e.data ≤ image.bytes.size := by
  obtain ⟨image', hread', hm'⟩ := (Parametric.readEntry h a True R hR).ok hm hread
  obtain ⟨rfl, rfl⟩ := readEntry_ok hread'
  refine ⟨rfl, hm', Nat.le_of_not_lt fun houtside => ?_⟩
  obtain ⟨outside, hfault⟩ := readEntry_of_lt houtside
  rw [hfault] at hread'
  cases hread'

/-- A header fails to be read only because it reaches out of memory. -/
theorem readEntry_refused {e : Fault} (hread : readEntry h a m = .error e m') :
    (∃ outside, e = .addressOutOfRange outside image.bytes.size) ∧
      image.bytes.size < (entryAt h image a).data := by
  obtain ⟨image', hread', -⟩ := (Parametric.readEntry h a True R hR).error trivial hm hread
  have houtside : image.bytes.size < (entryAt h image a).data := by
    apply Nat.lt_of_not_le
    intro hroom
    rw [readEntry_of_le hroom] at hread'
    cases hread'
  obtain ⟨outside, hfault⟩ := readEntry_of_lt houtside
  rw [hfault] at hread'
  cases hread'
  exact ⟨⟨outside, rfl⟩, houtside⟩

theorem Walks.headers {visited : List Nat} {result : EStateM.Result Fault M Entry}
    (hwalk : Walks h property a m visited result) :
    ∃ n, visited = (List.range (n + 1)).map (headerAt h image a) ∧
      (∀ k < n, property < numberAt h image a k) ∧
      Rests h image property (headerAt h image a n) (outcome result) := by
  induction hwalk with
  | outside hread =>
      exact ⟨0, rfl, nofun, readEntry_refused hR hm hread⟩
  | stop hread hstop =>
      obtain ⟨rfl, -, hroom⟩ := readEntry_shown hR hm hread
      exact ⟨0, rfl, nofun, rfl, hstop, hroom⟩
  | further hread hlarger _ ih =>
      obtain ⟨rfl, hm₁, -⟩ := readEntry_shown hR hm hread
      obtain ⟨n, rfl, hpassed, hrests⟩ := ih hm₁
      refine ⟨n + 1, ?_, ?_, hrests⟩
      · rw [List.range_succ_eq_map (n := n + 1), List.map_cons, List.map_map]
        rfl
      · intro k hk
        cases k with
        | zero => exact hlarger
        | succ k => exact hpassed k (Nat.lt_of_succ_lt_succ hk)

/-- The bound is never met, since every header takes an address further. -/
theorem descend_walks (h : Header) (property : UInt16) {fuel : Nat} (hpos : 0 < fuel) (a : Nat)
    (hfuel : image.bytes.size < a + fuel) :
    ∃ visited, Walks h property a m visited (descend h property fuel a m) := by
  induction fuel generalizing a m with
  | zero => exact absurd hpos (Nat.lt_irrefl 0)
  | succ fuel ih =>
      unfold descend
      cases hread : readEntry h a m with
      | error e m' =>
          rw [bind_error hread]
          exact ⟨_, .outside hread⟩
      | ok e m₁ =>
          rw [bind_ok hread]
          obtain ⟨rfl, hm₁, hroom⟩ := readEntry_shown hR hm hread
          by_cases hlarger : property < (entryAt h image a).number
          · have hafter := add_one_lt_after h image a
            have hdata := lt_data h image a
            obtain ⟨visited, hwalk⟩ := ih hm₁ (by omega) (entryAt h image a).after (by omega)
            rw [if_pos hlarger]
            exact ⟨_, .further hread hlarger hwalk⟩
          · rw [if_neg hlarger]
            exact ⟨_, .stop hread hlarger⟩

theorem find_searches (h : Header) (object property : UInt16) :
    ∃ visited, Searches h object property m visited (find h object property m) := by
  unfold find
  cases hfirst : first h object m with
  | error e m' =>
      rw [bind_error hfirst]
      exact ⟨_, .lost hfirst⟩
  | ok start m₁ =>
      obtain ⟨image₁, hfirst', hm₁⟩ := (Parametric.firstProperty h object True R hR).ok hm hfirst
      obtain rfl := first_ok hfirst'
      have hsize : (Memory.size : MemoryM M Nat) m₁ = .ok (AddressSpace.size m₁) m₁ := rfl
      have hshown : AddressSpace.size m₁ = image₁.bytes.size := hR.size_eq _ _ hm₁
      obtain ⟨visited, hwalk⟩ :=
        descend_walks hR hm₁ h property (Nat.zero_lt_succ (AddressSpace.size m₁)) start (by omega)
      rw [bind_ok hfirst, bind_ok hsize]
      cases hdescend : descend h property (AddressSpace.size m₁ + 1) start m₁ with
      | error e m' =>
          rw [bind_error hdescend]
          exact ⟨_, .outside hfirst (hdescend ▸ hwalk)⟩
      | ok e m' =>
          rw [bind_ok hdescend]
          exact ⟨_, .ended hfirst (hdescend ▸ hwalk)⟩

theorem Searches.headers {visited : List Nat} {result : EStateM.Result Fault M (Option Entry)}
    (hsearch : Searches h object property m visited result) :
    (∃ outside, visited = [] ∧
        outcome (first h object m) = .error (.addressOutOfRange outside image.bytes.size) ∧
        outcome result = .error (.addressOutOfRange outside image.bytes.size)) ∨
      ∃ start n last, outcome (first h object m) = .ok start ∧
        visited = (List.range (n + 1)).map (headerAt h image start) ∧
        (∀ k < n, property < numberAt h image start k) ∧
        Rests h image property (headerAt h image start n) last ∧
        outcome result = last.map (hit property) := by
  -- Finding the start leaves the memory as it was, so the walk is one on the same image.
  have hstart {start : Nat} {m₁ : M} (hfirst : first h object m = .ok start m₁) : R m₁ image := by
    obtain ⟨image₁, hfirst', hm₁⟩ := (Parametric.firstProperty h object True R hR).ok hm hfirst
    exact first_ok hfirst' ▸ hm₁
  cases hsearch with
  | lost hfirst =>
      obtain ⟨image₁, hfirst', -⟩ :=
        (Parametric.firstProperty h object True R hR).error trivial hm hfirst
      obtain ⟨outside, rfl⟩ := first_error hfirst'
      exact .inl ⟨outside, rfl, by rw [hfirst]; rfl, rfl⟩
  | outside hfirst hwalk =>
      obtain ⟨n, hvisited, hpassed, hrests⟩ := hwalk.headers hR (hstart hfirst)
      exact .inr ⟨_, n, _, by rw [hfirst]; rfl, hvisited, hpassed, hrests, rfl⟩
  | ended hfirst hwalk =>
      obtain ⟨n, hvisited, hpassed, hrests⟩ := hwalk.headers hR (hstart hfirst)
      exact .inr ⟨_, n, _, by rw [hfirst]; rfl, hvisited, hpassed, hrests, rfl⟩

end

/-! ## What a walk finds -/

/-- Along falling numbers a walk meets the number asked for exactly if it is on
the list. -/
theorem Falls.hit_iff {last : Nat} {final : Except Fault Entry} (hfalls : Falls h image a last)
    (hpassed : ∀ k < n, property < numberAt h image a k)
    (hrests : Rests h image property (headerAt h image a n) final) (hproperty : property ≠ 0) :
    (∃ e, final.map (hit property) = .ok (some e)) ↔
      ∃ k ≤ last, numberAt h image a k = property := by
  have hn : n ≤ last := hfalls.le_of_passed hpassed
  constructor
  · rintro ⟨e, hfound⟩
    cases final with
    | error _ => cases hfound
    | ok e' =>
        obtain ⟨rfl, hnumber, -⟩ := hit_eq_some_iff.mp (Except.ok.inj hfound)
        obtain ⟨rfl, -, -⟩ := hrests
        exact ⟨n, hn, hnumber⟩
  · rintro ⟨k, hk, hnumber⟩
    have hnk : n ≤ k := by
      apply Nat.le_of_not_lt
      intro hkn
      exact absurd hnumber.symm (UInt16.ne_of_lt (hpassed k hkn))
    cases final with
    | error e =>
        obtain ⟨-, houtside⟩ := hrests
        have hlast : n = last := by
          apply Nat.le_antisymm hn
          apply Nat.le_of_not_lt
          intro hlt
          exact absurd (hfalls.room hlt) (Nat.not_le.mpr houtside)
        obtain rfl : k = n := by omega
        exact absurd (hnumber.symm.trans (hlast ▸ hfalls.ends)) hproperty
    | ok e =>
        obtain ⟨rfl, hstop, -⟩ := hrests
        have hkn : k = n := by
          rcases Nat.eq_or_lt_of_le hnk with heq | hlt
          · exact heq.symm
          · exact absurd (hnumber ▸ hfalls.number_lt hlt hk) hstop
        subst hkn
        exact ⟨_, congrArg Except.ok (hit_eq_some_iff.mpr ⟨rfl, hnumber, hproperty⟩)⟩

/-- Where the header of the 0 lies in memory whole, nothing fails. -/
theorem Falls.exists_ok {last : Nat} {final : Except Fault Entry} (hfalls : Falls h image a last)
    (hwhole : (entryAt h image (headerAt h image a last)).data ≤ image.bytes.size)
    (hpassed : ∀ k < n, property < numberAt h image a k)
    (hrests : Rests h image property (headerAt h image a n) final) :
    ∃ e, final = .ok e := by
  cases final with
  | ok e => exact ⟨e, rfl⟩
  | error e =>
      obtain ⟨-, houtside⟩ := hrests
      rcases Nat.eq_or_lt_of_le (hfalls.le_of_passed hpassed) with rfl | hlt
      · exact absurd hwhole (Nat.not_le.mpr houtside)
      · exact absurd (hfalls.room hlt) (Nat.not_le.mpr houtside)

/-- On every image the search for a property comes to an end, at headers of
rising addresses, with the result that `find` gives.  It fails only at an
address outside memory.  What it finds is a header of the object's list with
the number asked for, and if numbers fall along the list down to a 0, it finds
every number that is there. -/
theorem search_ends {M : Type} [AddressSpace M] {R : M → Image → Prop} (hR : MemorySim True R)
    {m : M} {image : Image} (hm : R m image) (h : Header) (object property : UInt16) :
    (∃ visited : List Nat, visited.Pairwise (· < ·) ∧
      ∀ visited' result, Searches h object property m visited' result ↔
        visited' = visited ∧ result = find h object property m) ∧
    (∀ e, outcome (find h object property m) = .ok (some e) →
      e.number = property ∧ property ≠ 0 ∧
      ∃ start k, outcome (first h object m) = .ok start ∧
        e = entryAt h image (headerAt h image start k)) ∧
    (∀ e, outcome (find h object property m) = .error e →
      ∃ outside, e = .addressOutOfRange outside image.bytes.size) ∧
    ∀ start n, outcome (first h object m) = .ok start → Falls h image start n → property ≠ 0 →
      ((∃ e, outcome (find h object property m) = .ok (some e)) ↔
        ∃ k ≤ n, numberAt h image start k = property) ∧
      ((entryAt h image (headerAt h image start n)).data ≤ image.bytes.size →
        ∃ found, outcome (find h object property m) = .ok found) := by
  obtain ⟨visited, hsearch⟩ := find_searches hR hm h object property
  have honly : ∀ visited' result, Searches h object property m visited' result ↔
      visited' = visited ∧ result = find h object property m := by
    intro visited' result
    constructor
    · exact hsearch.unique
    · rintro ⟨rfl, rfl⟩
      exact hsearch
  rcases hsearch.headers hR hm with ⟨outside, rfl, hfirst, hfind⟩ |
    ⟨start, n, final, hfirst, rfl, hpassed, hrests, hfind⟩
  · simp only [hfirst, hfind]
    refine ⟨⟨[], .nil, honly⟩, nofun, ?_, nofun⟩
    rintro e ⟨⟩
    exact ⟨outside, rfl⟩
  · rw [hfirst, hfind]
    refine ⟨⟨_, pairwise_headers h image start (n + 1), honly⟩, ?_, ?_, ?_⟩
    · intro e hfound
      cases final with
      | error _ => cases hfound
      | ok e' =>
          obtain ⟨rfl, hnumber, hproperty⟩ := hit_eq_some_iff.mp (Except.ok.inj hfound)
          exact ⟨hnumber, hproperty, start, n, rfl, hrests.1⟩
    · intro e hfault
      cases final with
      | error _ =>
          cases hfault
          exact hrests.1
      | ok _ => cases hfault
    · rintro start' last ⟨⟩ hfalls hproperty
      refine ⟨hfalls.hit_iff hpassed hrests hproperty, fun hwhole => ?_⟩
      obtain ⟨e, rfl⟩ := hfalls.exists_ok hwhole hpassed hrests
      exact ⟨hit property e, rfl⟩

/-- The list of an object has the numbers 5, 2 and 0.  In the second image its
bytes are all ones, so that numbers never fall. -/
theorem search_ends_list_and_ones :
    let h : Header := { (Inhabited.default : Header) with version := 3, objects := 0 }
    let image : Image := ⟨(Array.replicate 80 0).set! 70 72 |>.set! 73 0x45 |>.set! 77 2⟩
    let ones : Image := ⟨(Array.replicate 200 0xFF).set! 69 0 |>.set! 70 72 |>.set! 72 0⟩
    outcome (first h 1 image) = .ok 73 ∧ Falls h image 73 2 ∧
      (∃ e, outcome (find h 1 2 image) = .ok (some e)) ∧
      (¬ ∃ e, outcome (find h 1 3 image) = .ok (some e)) ∧
      ∃ visited : List Nat, visited.Pairwise (· < ·) ∧
        Searches h 1 3 ones visited (find h 1 3 ones) := by
  intro h image ones
  have hfirst : outcome (first h 1 image) = .ok 73 := eq_ok_of_toOption (by decide +kernel)
  have hfalls : Falls h image 73 2 :=
    ⟨by decide +kernel, by decide +kernel, by decide +kernel⟩
  obtain ⟨-, -, -, hthere⟩ := search_ends MemorySim.refl (rfl : image = image) h 1 2
  obtain ⟨-, -, -, hmissing⟩ := search_ends MemorySim.refl (rfl : image = image) h 1 3
  obtain ⟨⟨visited, hrising, hends⟩, -⟩ := search_ends MemorySim.refl (rfl : ones = ones) h 1 3
  refine ⟨hfirst, hfalls, ?_, ?_, visited, hrising, (hends _ _).mpr ⟨rfl, rfl⟩⟩
  · exact (hthere 73 2 hfirst hfalls (by decide)).1.mpr ⟨1, by decide, by decide +kernel⟩
  · rw [(hmissing 73 2 hfirst hfalls (by decide)).1]
    decide +kernel

end ZMachine.Property
