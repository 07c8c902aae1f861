/-!
# Simulation between computations

Two computations on different states are compared by a relation between the
states.  `Sim strict P Q x y` says that from states related by `P`, whenever
`x` succeeds `y` succeeds with the same answer, and the new states are related
by `Q`.  A strict simulation also matches failures: both fail in the same way,
in states that `P` still relates.

With one state type and a relation that implies equality this is the logic of
invariants, so a fact about what an operation is made of has to be proved only
once to serve both purposes.
-/

namespace ZMachine

/-! ## Outcomes of composed computations -/

section

variable {ε σ α β : Type}

theorem bind_eq_ok_iff
    {x : EStateM ε σ α} {f : α → EStateM ε σ β} {s s' : σ} {b : β} :
    (x >>= f) s = .ok b s' ↔
      ∃ a s₁, x s = .ok a s₁ ∧ f a s₁ = .ok b s' := by
  simp only [bind, EStateM.bind]
  cases x s with
  | ok a s₁ => simp [and_assoc]
  | error e s₁ => simp

theorem bind_eq_error_iff
    {x : EStateM ε σ α} {f : α → EStateM ε σ β} {s s' : σ} {e : ε} :
    (x >>= f) s = .error e s' ↔
      x s = .error e s' ∨ ∃ a s₁, x s = .ok a s₁ ∧ f a s₁ = .error e s' := by
  simp only [bind, EStateM.bind]
  cases x s with
  | ok a s₁ => simp [and_assoc]
  | error e s₁ => simp

theorem bind_ok
    {x : EStateM ε σ α} {f : α → EStateM ε σ β} {s s₁ : σ} {a : α}
    (h : x s = .ok a s₁) : (x >>= f) s = f a s₁ := by
  simp only [bind, EStateM.bind, h]

theorem bind_error
    {x : EStateM ε σ α} {f : α → EStateM ε σ β} {s s₁ : σ} {e : ε}
    (h : x s = .error e s₁) : (x >>= f) s = .error e s₁ := by
  simp only [bind, EStateM.bind, h]

theorem discard_eq (x : EStateM ε σ α) : discard x = x >>= fun _ => pure () := by
  funext s
  cases hx : x s <;> simp [Functor.discard, Functor.mapConst, EStateM.map, bind, EStateM.bind,
    pure, EStateM.pure, hx]

end

/-! ## Simulation -/

variable {ε σ₁ σ₂ α β : Type}

structure Sim (strict : Prop) (P Q : σ₁ → σ₂ → Prop)
    (x : EStateM ε σ₁ α) (y : EStateM ε σ₂ α) : Prop where
  ok : ∀ {s₁ s₁' s₂ a}, P s₁ s₂ → x s₁ = .ok a s₁' →
    ∃ s₂', y s₂ = .ok a s₂' ∧ Q s₁' s₂'
  error : strict → ∀ {s₁ s₁' s₂ e}, P s₁ s₂ → x s₁ = .error e s₁' →
    ∃ s₂', y s₂ = .error e s₂' ∧ P s₁' s₂'

namespace Sim

variable {strict : Prop} {P Q R : σ₁ → σ₂ → Prop}

theorem mono {x : EStateM ε σ₁ α} {y : EStateM ε σ₂ α}
    (h : Sim strict P Q x y) (hpost : ∀ s₁ s₂, Q s₁ s₂ → R s₁ s₂) :
    Sim strict P R x y where
  ok hP hx := by
    obtain ⟨s₂', hy, hQ⟩ := h.ok hP hx
    exact ⟨s₂', hy, hpost _ _ hQ⟩
  error := h.error

theorem pre {x : EStateM ε σ₁ α} {y : EStateM ε σ₂ α}
    (h : Sim False Q R x y) (hpre : ∀ s₁ s₂, P s₁ s₂ → Q s₁ s₂) : Sim False P R x y where
  ok hP hx := h.ok (hpre _ _ hP) hx
  error := False.elim

theorem pure (a : α) :
    Sim strict P P (Pure.pure a : EStateM ε σ₁ α) (Pure.pure a) where
  ok hP hx := by
    cases hx
    exact ⟨_, rfl, hP⟩
  error _ _ _ _ _ _ hx := by cases hx

theorem throw (e : ε) :
    Sim strict P Q (MonadExcept.throw e : EStateM ε σ₁ α) (MonadExcept.throw e) where
  ok _ hx := by cases hx
  error _ _ _ _ _ hP hx := by
    cases hx
    exact ⟨_, rfl, hP⟩

theorem bind {x : EStateM ε σ₁ α} {y : EStateM ε σ₂ α}
    {f : α → EStateM ε σ₁ β} {g : α → EStateM ε σ₂ β}
    (hxy : Sim strict P P x y) (hfg : ∀ a, Sim strict P Q (f a) (g a)) :
    Sim strict P Q (x >>= f) (y >>= g) where
  ok hP h := by
    obtain ⟨a, s, hx, hf⟩ := bind_eq_ok_iff.mp h
    obtain ⟨t, hy, hPt⟩ := hxy.ok hP hx
    rw [bind_ok hy]
    exact (hfg a).ok hPt hf
  error hstrict _ _ _ _ hP h := by
    rcases bind_eq_error_iff.mp h with hx | ⟨a, s, hx, hf⟩
    · obtain ⟨t, hy, hPt⟩ := hxy.error hstrict hP hx
      exact ⟨t, bind_error hy, hPt⟩
    · obtain ⟨t, hy, hPt⟩ := hxy.ok hP hx
      rw [bind_ok hy]
      exact (hfg a).error hstrict hPt hf

/-- Where failures do not count, the relation in the middle is free. -/
theorem bindThrough {x : EStateM ε σ₁ α} {y : EStateM ε σ₂ α}
    {f : α → EStateM ε σ₁ β} {g : α → EStateM ε σ₂ β}
    (hxy : Sim False P Q x y) (hfg : ∀ a, Sim False Q R (f a) (g a)) :
    Sim False P R (x >>= f) (y >>= g) where
  ok hP h := by
    obtain ⟨a, s, hx, hf⟩ := bind_eq_ok_iff.mp h
    obtain ⟨t, hy, hQt⟩ := hxy.ok hP hx
    rw [bind_ok hy]
    exact (hfg a).ok hQt hf
  error := False.elim

theorem ite {c : Prop} [Decidable c]
    {x x' : EStateM ε σ₁ α} {y y' : EStateM ε σ₂ α}
    (hthen : c → Sim strict P Q x y) (helse : ¬ c → Sim strict P Q x' y') :
    Sim strict P Q (if c then x else x') (if c then y else y') := by
  by_cases hc : c
  · simpa only [if_pos hc] using hthen hc
  · simpa only [if_neg hc] using helse hc

/-- A choice with a common continuation. -/
theorem iteBind {c : Prop} [Decidable c]
    {x x' : EStateM ε σ₁ α} {y y' : EStateM ε σ₂ α}
    {f : α → EStateM ε σ₁ β} {g : α → EStateM ε σ₂ β}
    (hthen : c → Sim strict P P x y) (helse : ¬ c → Sim strict P P x' y')
    (hfg : ∀ a, Sim strict P Q (f a) (g a)) :
    Sim strict P Q (if c then x >>= f else x' >>= f) (if c then y >>= g else y' >>= g) :=
  .ite (fun hc => .bind (hthen hc) hfg) (fun hc => .bind (helse hc) hfg)

/-- A step that is made under a condition only. -/
theorem whenBind {c : Prop} [Decidable c]
    {x : EStateM ε σ₁ Unit} {y : EStateM ε σ₂ Unit}
    {f : Unit → EStateM ε σ₁ β} {g : Unit → EStateM ε σ₂ β}
    (hxy : c → Sim strict P P x y) (hfg : ∀ a, Sim strict P Q (f a) (g a)) :
    Sim strict P Q (if c then x >>= f else f ()) (if c then y >>= g else g ()) :=
  .ite (fun hc => .bind (hxy hc) hfg) (fun _ => hfg ())

/-- A look at the state that both sides answer alike. -/
theorem look {f : σ₁ → α} {g : σ₂ → α} (h : ∀ s₁ s₂, P s₁ s₂ → f s₁ = g s₂) :
    Sim strict P P (do return f (← get) : EStateM ε σ₁ α) (do return g (← get)) where
  ok hP hx := by
    cases hx
    exact ⟨_, by rw [h _ _ hP]; rfl, hP⟩
  error _ _ _ _ _ _ hx := by cases hx

theorem discard {x : EStateM ε σ₁ α} {y : EStateM ε σ₂ α}
    (h : Sim strict P Q x y) :
    Sim strict P Q (Functor.discard x) (Functor.discard y) where
  ok hP hx := by
    simp only [Functor.discard, Functor.mapConst, EStateM.map, Function.comp] at hx ⊢
    split at hx <;> cases hx
    next a s hx =>
      obtain ⟨t, hy, hQ⟩ := h.ok hP hx
      exact ⟨t, by simp [hy], hQ⟩
  error hstrict _ _ _ _ hP hx := by
    simp only [Functor.discard, Functor.mapConst, EStateM.map, Function.comp] at hx ⊢
    split at hx <;> cases hx
    next e s hx =>
      obtain ⟨t, hy, hPt⟩ := h.error hstrict hP hx
      exact ⟨t, by simp [hy], hPt⟩

theorem map {x : EStateM ε σ₁ α} {y : EStateM ε σ₂ α} (f : α → β)
    (h : Sim strict P P x y) :
    Sim strict P P (f <$> x) (f <$> y) := by
  change Sim strict P P (x >>= fun a => Pure.pure (f a)) (y >>= fun a => Pure.pure (f a))
  exact .bind h fun a => .pure (f a)

theorem forM {l : List α} {f : α → EStateM ε σ₁ Unit} {g : α → EStateM ε σ₂ Unit}
    (h : ∀ a, Sim strict P P (f a) (g a)) :
    Sim strict P P (l.forM f) (l.forM g) := by
  induction l with
  | nil => exact .pure ()
  | cons a l ih => exact .bind (h a) fun _ => ih

end Sim

/-! ## Invariants -/

section

variable {ε σ α β : Type} {I J : σ → Prop}

/-- Both sides are in one state, of which `I` holds. -/
def Holding (I : σ → Prop) (s t : σ) : Prop :=
  s = t ∧ I s

theorem Sim.holding {x : EStateM ε σ α} (h : ∀ {s s' a}, I s → x s = .ok a s' → J s') :
    Sim False (Holding I) (Holding J) x x where
  ok {s s' t a} hst hx := by
    obtain ⟨rfl, hs⟩ := hst
    exact ⟨s', hx, rfl, h hs hx⟩
  error := False.elim

theorem Sim.holds {x : EStateM ε σ α} (h : Sim False (Holding I) (Holding J) x x) {s s' : σ}
    {a : α} (hs : I s) (hx : x s = .ok a s') : J s' := by
  obtain ⟨_, _, -, hJ⟩ := h.ok ⟨rfl, hs⟩ hx
  exact hJ

theorem Sim.getBind {Q : σ → σ → Prop} {f : σ → EStateM ε σ β}
    (h : ∀ s, I s → Sim False (Holding I) Q (f s) (f s)) :
    Sim False (Holding I) Q (get >>= f) (get >>= f) where
  ok {s s' t a} hst hx := by
    obtain ⟨rfl, hs⟩ := hst
    exact (h s hs).ok ⟨rfl, hs⟩ hx
  error := False.elim

end

/-! ## Sequences of calls

The caller of a computation that fails still holds the state, and may go on
with another call. -/

section

variable {σ : Type}

def outcome : EStateM.Result ε σ α → Except ε α
  | .ok a _ => .ok a
  | .error e _ => .error e

theorem eq_ok_of_toOption {x : Except ε α} {a : α} (h : x.toOption = some a) : x = .ok a := by
  cases x <;> cases h
  rfl

def reached : EStateM.Result ε σ α → σ
  | .ok _ s => s
  | .error _ s => s

theorem eq_ok_reached {r : EStateM.Result ε σ α} {a : α} (h : (outcome r).toOption = some a) :
    r = .ok a (reached r) := by
  cases r <;> cases h
  rfl

/-- An answer that is given and passes a check. -/
def givesOk (x : Except ε α) (p : α → Bool) : Bool :=
  match x with
  | .ok a => p a
  | .error _ => false

theorem exists_of_givesOk {x : Except ε α} {p : α → Bool} (h : givesOk x p = true) :
    ∃ a, x = .ok a ∧ p a = true := by
  cases x with
  | ok a => exact ⟨a, rfl, h⟩
  | error e => cases h

/-- A success whose answer and state pass a check. -/
def reachesOk (r : EStateM.Result ε σ α) (p : α → σ → Bool) : Bool :=
  match r with
  | .ok a s => p a s
  | .error _ _ => false

theorem exists_of_reachesOk {r : EStateM.Result ε σ α} {p : α → σ → Bool}
    (h : reachesOk r p = true) : ∃ a s, r = .ok a s ∧ p a s = true := by
  cases r with
  | ok a s => exact ⟨a, s, rfl, h⟩
  | error e s => cases h

theorem outcome_bind_error {x : EStateM ε σ α} {f : α → EStateM ε σ β} {s : σ} {e : ε}
    (h : outcome (x s) = .error e) : outcome ((x >>= f) s) = .error e := by
  cases hx : x s with
  | ok a s' =>
      rw [hx] at h
      cases h
  | error e' s' =>
      rw [hx] at h
      cases h
      rw [bind_error hx]
      rfl

/-- The answer to each call of a sequence. -/
def outcomes : List (EStateM ε σ α) → σ → List (Except ε α)
  | [], _ => []
  | x :: xs, s => outcome (x s) :: outcomes xs (reached (x s))

def stateAfter (xs : List (EStateM ε σ α)) (s : σ) : σ :=
  xs.foldl (fun s x => reached (x s)) s

theorem stateAfter_concat (xs : List (EStateM ε σ α)) (x : EStateM ε σ α) (s : σ) :
    stateAfter (xs ++ [x]) s = reached (x (stateAfter xs s)) := by
  simp [stateAfter]

end

namespace Sim

variable {γ : Type} {P : σ₁ → σ₂ → Prop}

theorem call {x : EStateM ε σ₁ α} {y : EStateM ε σ₂ α} (h : Sim True P P x y)
    {s₁ : σ₁} {s₂ : σ₂} (hP : P s₁ s₂) :
    outcome (x s₁) = outcome (y s₂) ∧ P (reached (x s₁)) (reached (y s₂)) := by
  cases hx : x s₁ with
  | ok a s₁' =>
      obtain ⟨s₂', hy, hP'⟩ := h.ok hP hx
      rw [hy]
      exact ⟨rfl, hP'⟩
  | error e s₁' =>
      obtain ⟨s₂', hy, hP'⟩ := h.error trivial hP hx
      rw [hy]
      exact ⟨rfl, hP'⟩

/-- An invariant is a simulation of a computation by itself. -/
theorem of_invariant {σ : Type} {Inv : σ → Prop} {x : EStateM ε σ α}
    (hok : ∀ {s s' a}, Inv s → x s = .ok a s' → Inv s')
    (herror : ∀ {s s' e}, Inv s → x s = .error e s' → Inv s') :
    Sim True (fun s t => s = t ∧ Inv s) (fun s t => s = t ∧ Inv s) x x where
  ok {s s' _ _} hP hx := by
    obtain ⟨rfl, hs⟩ := hP
    exact ⟨s', hx, rfl, hok hs hx⟩
  error _ {s s' _ _} hP hx := by
    obtain ⟨rfl, hs⟩ := hP
    exact ⟨s', hx, rfl, herror hs hx⟩

theorem calls {f : γ → EStateM ε σ₁ α} {g : γ → EStateM ε σ₂ α}
    (h : ∀ call, Sim True P P (f call) (g call)) (calls : List γ)
    {s₁ : σ₁} {s₂ : σ₂} (hP : P s₁ s₂) :
    outcomes (calls.map f) s₁ = outcomes (calls.map g) s₂ ∧
      P (stateAfter (calls.map f) s₁) (stateAfter (calls.map g) s₂) := by
  induction calls generalizing s₁ s₂ with
  | nil => exact ⟨rfl, hP⟩
  | cons call calls ih =>
      obtain ⟨houtcome, hP'⟩ := (h call).call hP
      obtain ⟨hrest, hlast⟩ := ih hP'
      exact ⟨by simp only [List.map_cons, outcomes, houtcome, hrest], hlast⟩

end Sim
end ZMachine
