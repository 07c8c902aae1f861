import Mathlib.Data.List.Perm.Subperm

/-!
# Histories of blocks

A history lists the blocks that were accessed, the latest first.  Without its
repetitions it is in the order of last access, and an access moves its block to
the front.  How many blocks of it a cache holds decides what it has to read: a
block is missed if it is not in the front of that length, and a longer front
misses less.
-/

namespace ZMachine.History

theorem nodup_eraseDups : (history : List Nat) → history.eraseDups.Nodup
  | [] => by simp
  | base :: history => by
      rw [List.eraseDups_cons, List.nodup_cons]
      exact ⟨by simp [List.mem_eraseDups], nodup_eraseDups _⟩
termination_by history => history.length
decreasing_by
  exact Nat.lt_succ_of_le (List.length_filter_le _ history)

theorem eraseDups_filter_ne (base : Nat) : (history : List Nat) →
    (history.filter (!· == base)).eraseDups = history.eraseDups.filter (!· == base)
  | [] => by simp
  | latest :: history => by
      rw [List.eraseDups_cons, List.filter_cons, List.filter_cons]
      by_cases hlatest : latest = base
      · subst hlatest
        simp only [BEq.rfl, Bool.not_true, Bool.false_eq_true, if_false]
        refine (List.filter_eq_self.mpr fun x hx => ?_).symm
        exact (List.mem_filter.mp (List.mem_eraseDups.mp hx)).2
      · simp only [beq_eq_false_iff_ne.mpr hlatest, Bool.not_false, if_true]
        rw [List.eraseDups_cons, ← eraseDups_filter_ne base, List.filter_filter, List.filter_filter]
        simp only [Bool.and_comm]
termination_by history => history.length
decreasing_by
  exact Nat.lt_succ_of_le (List.length_filter_le _ history)

/-- An access moves its block to the front. -/
theorem eraseDups_cons (base : Nat) (history : List Nat) :
    (base :: history).eraseDups = base :: history.eraseDups.erase base := by
  rw [List.eraseDups_cons, eraseDups_filter_ne, (nodup_eraseDups history).erase_eq_filter]
  rfl

variable {base : Nat} {l : List Nat} {n : Nat}

theorem take_erase_of_mem (h : base ∈ l.take (n + 1)) :
    (l.erase base).take n = (l.take (n + 1)).erase base := by
  induction l generalizing n with
  | nil => simp
  | cons first l ih =>
      by_cases hfirst : first = base
      · subst hfirst
        simp
      · have hrest : base ∈ l.take n := by
          rw [List.take_succ_cons, List.mem_cons] at h
          exact h.resolve_left (Ne.symm hfirst)
        cases n with
        | zero => simp at hrest
        | succ n => simp [hfirst, ih hrest]

theorem take_erase_of_not_mem (h : base ∉ l.take n) : (l.erase base).take n = l.take n := by
  induction l generalizing n with
  | nil => simp
  | cons first l ih =>
      cases n with
      | zero => rfl
      | succ n =>
          rw [List.take_succ_cons, List.mem_cons, not_or] at h
          simp [Ne.symm h.1, ih h.2]

/-- When a block was last accessed, as a number of accesses, and 0 for never. -/
def lastAccess : List Nat → Nat → Nat
  | [], _ => 0
  | latest :: history, base =>
    if base = latest then history.length + 1 else lastAccess history base

theorem lastAccess_le (history : List Nat) (base : Nat) :
    lastAccess history base ≤ history.length := by
  induction history with
  | nil => exact Nat.le_refl 0
  | cons latest history ih =>
      unfold lastAccess
      split
      · exact Nat.le_refl _
      · exact Nat.le_succ_of_le ih

theorem pairwise_lastAccess (history : List Nat) :
    history.eraseDups.Pairwise fun x y => lastAccess history y < lastAccess history x := by
  induction history with
  | nil => simp
  | cons latest history ih =>
      have hne {x : Nat} (hx : x ∈ history.eraseDups.erase latest) : x ≠ latest :=
        ((nodup_eraseDups history).mem_erase_iff.mp hx).1
      rw [eraseDups_cons, List.pairwise_cons]
      constructor
      · intro x hx
        rw [lastAccess, lastAccess, if_neg (hne hx), if_pos rfl]
        exact Nat.lt_succ_of_le (lastAccess_le history x)
      · refine (ih.sublist List.erase_sublist).imp_of_mem fun hx hy hxy => ?_
        rw [lastAccess, lastAccess, if_neg (hne hx), if_neg (hne hy)]
        exact hxy

/-- The blocks that are not found among the last `k` different ones before them, the latest
first. -/
def misses (k : Nat) : List Nat → List Nat
  | [] => []
  | base :: history =>
    if base ∈ history.eraseDups.take k then misses k history else base :: misses k history

theorem misses_sublist {k k' : Nat} (hk : k ≤ k') (history : List Nat) :
    (misses k' history).Sublist (misses k history) := by
  induction history with
  | nil => exact .slnil
  | cons base history ih =>
      have hfound : base ∈ history.eraseDups.take k → base ∈ history.eraseDups.take k' :=
        fun h => (List.take_sublist_take_left hk).subset h
      unfold misses
      by_cases hlong : base ∈ history.eraseDups.take k'
      · rw [if_pos hlong]
        split
        · exact ih
        · exact ih.cons base
      · rw [if_neg hlong, if_neg (mt hfound hlong)]
        exact ih.cons_cons base

end ZMachine.History
