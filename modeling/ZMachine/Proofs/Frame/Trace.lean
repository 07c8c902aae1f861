import ZMachine.Proofs.Frame.Chain
import ZMachine.Proofs.Simulation.Run

/-!
# Traces

A run is watched by a memory that takes notes.  `Watched` stands in the place
of the story's memory, passes every byte access on and carries the moments
seen so far: the machine before and after each instruction, those of the runs
inside a read that timed out included.  The instructions are the same, so a
watched run does what the run itself does, and its notes are the `trace`.
-/

namespace ZMachine

open MachineM

variable {M H : Type}

inductive Moment (M H : Type) where
  | start (s : Machine M H)
  | finish (s : Machine M H)

def Moment.machine : Moment M H → Machine M H
  | start s => s
  | finish s => s

abbrev Moment.core (m : Moment M H) : Core :=
  m.machine.core

/-- A memory with the moments of a run, the latest first. -/
structure Watched (M H : Type) where
  memory : M
  seen : List (Moment M H)

namespace Watched

def lift {α : Type} (x : MemoryM M α) : MemoryM (Watched M H) α := fun w =>
  match x w.memory with
  | .ok a memory => .ok a { w with memory }
  | .error e memory => .error e { w with memory }

/-- The memory behind the notes, which are as `p` says. -/
def Shows (p : List (Moment M H) → Prop) (w : Watched M H) (m : M) : Prop :=
  w.memory = m ∧ p w.seen

theorem lift_sim {α : Type} (p : List (Moment M H) → Prop) (x : MemoryM M α) :
    Sim True (Shows p) (Shows p) (lift x) x where
  ok {w _ m _} hw h := by
    obtain ⟨rfl, hp⟩ := hw
    unfold lift at h
    split at h
    next hx =>
      cases h
      exact ⟨_, hx, rfl, hp⟩
    next => cases h
  error _ w _ m _ hw h := by
    obtain ⟨rfl, hp⟩ := hw
    unfold lift at h
    split at h
    next => cases h
    next hx =>
      cases h
      exact ⟨_, hx, rfl, hp⟩

variable [AddressSpace M]

instance : AddressSpace (Watched M H) where
  size w := AddressSpace.size w.memory
  readByte address := lift (AddressSpace.readByte address)
  writeByte address value := lift (AddressSpace.writeByte address value)
  flush := lift AddressSpace.flush

theorem memorySim (p : List (Moment M H) → Prop) : MemorySim True (Shows (M := M) p) where
  size_eq _ _ hw := congrArg AddressSpace.size hw.1
  readByte _ := lift_sim p _
  writeByte _ _ := lift_sim p _
  flush := lift_sim p _

end Watched

/-! ## Watched runs -/

namespace Machine

def watch (s : Machine M H) : Machine (Watched M H) H :=
  { s with memory := ⟨s.memory, []⟩ }

def unwatched (s : Machine (Watched M H) H) : Machine M H :=
  { s with memory := s.memory.memory }

def note (moment : Machine M H → Moment M H) : MachineM (Watched M H) H Unit :=
  modify fun s => { s with memory.seen := moment s.unwatched :: s.memory.seen }

def noting (x : MachineM (Watched M H) H Unit) : MachineM (Watched M H) H Unit := do
  note .start
  x
  note .finish

variable [AddressSpace M] [Host H]

/-- As `resume`, with a note of every instruction. -/
def watchedResume : (fuel : Nat) → MachineM (Watched M H) H UInt16
  | 0 => throw .outOfFuel
  | n + 1 => do
    let c ← getCore
    if isRunning c then
      noting (stepWith n (do beginRun; watchedResume n))
      watchedResume n
    else
      return c.status

/-- As `step`, with a note of every instruction. -/
def watchedStep (fuel : Nat) : MachineM (Watched M H) H Unit :=
  noting (stepWith fuel (do beginRun; watchedResume fuel))

/-- The moments of a number of steps, each with its fuel, in order. -/
def trace (fuels : List Nat) (s : Machine M H) : List (Moment M H) :=
  (reached (fuels.forM watchedStep s.watch)).memory.seen.reverse

end Machine

/-! ## Discipline -/

/-- How many words from the top of the stack on an instruction takes off or
uses in place, once its operands are loaded. -/
def Instruction.reach (version : UInt8) (i : Instruction) : Nat :=
  match Operation.ofOpcode? i.form i.opcode with
  | some .returnPopped => 1
  | some .catchFrame => if 4 < version then 0 else 1
  | some .pull => if lowByte (i.operands.get 0) = 0 then 2 else 1
  | some .increment | some .decrement | some .incrementCheck | some .decrementCheck
  | some .load | some .store => if lowByte (i.operands.get 0) = 0 then 1 else 0
  | _ => 0

namespace Moment

variable [AddressSpace M]

/-- The instruction that comes next, and the machine with its operands
loaded. -/
def decoded? : Moment M H → Option (Instruction × Machine M H)
  | start s =>
    match Machine.decode s with
    | .ok i k => some (i, k)
    | .error _ _ => none
  | finish _ => none

/-- The machine that makes a call before the next moment.  An instruction
calls when its operands are loaded; after the last instruction of an
interrupt it is the interrupted read that may call again. -/
def caller? : Moment M H → Option (Machine M H)
  | start s => (decoded? (start s)).map Prod.snd
  | finish s => some s

/-- The stack is not full, and the next instruction keeps to the words of the
running routine: it takes or uses none above the frame pointer, and it is no
`throw` and no `restart`. -/
def Disciplined (m : Moment M H) : Prop :=
  1 ≤ m.core.sp ∧ ∀ next ∈ m.decoded?,
    Operation.ofOpcode? next.1.form next.1.opcode ≠ some .throwValue ∧
      Operation.ofOpcode? next.1.form next.1.opcode ≠ some .restart ∧
      ∀ j < next.2.core.sp + next.1.reach next.2.core.header.version,
        m.core.sp ≤ j → j ≤ m.core.fp

theorem forall_lt_iff_le_max {n sp fp : Nat} :
    (∀ j < n, sp ≤ j → j ≤ fp) ↔ n ≤ max sp (fp + 1) := by
  constructor
  · intro h
    by_cases hn : n ≤ sp
    · exact Nat.le_trans hn (Nat.le_max_left _ _)
    · have hlast := h (n - 1) (by omega) (by omega)
      omega
  · intro h j hj hsp
    omega

instance (m : Moment M H) : Decidable m.Disciplined :=
  decidable_of_iff (1 ≤ m.core.sp ∧ ∀ next ∈ m.decoded?,
      Operation.ofOpcode? next.1.form next.1.opcode ≠ some .throwValue ∧
        Operation.ofOpcode? next.1.form next.1.opcode ≠ some .restart ∧
        next.2.core.sp + next.1.reach next.2.core.header.version ≤
          max m.core.sp (m.core.fp + 1)) <| by
    simp only [Disciplined, forall_lt_iff_le_max]

end Moment

/-! ## A watched run is a run -/

namespace Watched

open Machine

theorem unwatched_eq {p : List (Moment M H) → Prop} {s : Machine (Watched M H) H}
    {t : Machine M H} (h : SameParts (Shows p) s t) : s.unwatched = t := by
  obtain ⟨⟨hmemory, -⟩, hhost, hcore⟩ := h
  cases t
  cases hmemory
  cases hhost
  cases hcore
  rfl

/-- What runs alike whatever has been seen takes no note of its own. -/
theorem unwatched_ok {α : Type} {x : MachineM (Watched M H) H α} {y : MachineM M H α}
    (hxy : ∀ p, Sim True (SameParts (Shows p)) (SameParts (Shows p)) x y)
    {s s' : Machine (Watched M H) H} {a : α} (h : x s = .ok a s') :
    y s.unwatched = .ok a s'.unwatched ∧ s'.memory.seen = s.memory.seen := by
  have hshows : SameParts (Shows (· = s.memory.seen)) s s.unwatched := ⟨⟨rfl, rfl⟩, rfl, rfl⟩
  obtain ⟨t, ht, hsame⟩ := (hxy _).ok hshows h
  obtain rfl := unwatched_eq hsame
  exact ⟨ht, hsame.memory.2⟩

/-- What succeeds can be watched to its end. -/
theorem exists_ok {α : Type} {x : MachineM (Watched M H) H α} {y : MachineM M H α}
    (hxy : Sim True (SameParts (Shows fun _ => True)) (SameParts (Shows fun _ => True)) x y)
    {s : Machine (Watched M H) H} {t : Machine M H} {a : α} (h : y s.unwatched = .ok a t) :
    ∃ w, x s = .ok a w ∧ w.unwatched = t := by
  have hstart : SameParts (Shows fun _ => True) s s.unwatched := ⟨⟨rfl, trivial⟩, rfl, rfl⟩
  cases hw : x s with
  | ok b w =>
      obtain ⟨t', ht, hsame⟩ := hxy.ok hstart hw
      rw [h] at ht
      cases ht
      exact ⟨w, rfl, unwatched_eq hsame⟩
  | error e w =>
      obtain ⟨t', ht, -⟩ := hxy.error trivial hstart hw
      rw [h] at ht
      cases ht

section

variable {strict : Prop} {Q : Machine (Watched M H) H → Machine M H → Prop}
variable (hnote : ∀ moment : Machine M H → Moment M H, (∀ s, (moment s).machine = s) →
  Sim strict Q Q (note moment) (pure ()))

include hnote

theorem noting_sim {x : MachineM (Watched M H) H Unit} {y : MachineM M H Unit}
    (h : Sim strict Q Q x y) : Sim strict Q Q (noting x) y := by
  have hnoted := Sim.bind (hnote .start fun _ => rfl) fun _ =>
    Sim.bind h fun _ => hnote .finish fun _ => rfl
  rwa [pure_bind, bind_pure_unit] at hnoted

variable [AddressSpace M] [Host H] (h : FrameSim strict Q)

include h

theorem watchedResume_sim (fuel : Nat) :
    Sim strict Q Q (watchedResume fuel : MachineM (Watched M H) H UInt16)
      (resume fuel : MachineM M H UInt16) := by
  induction fuel with
  | zero => exact .throw _
  | succ n ih =>
      refine .bind h.getCore fun c => .ite (fun _ => ?_) fun _ => .pure _
      exact .bind (noting_sim hnote (h.stepWith (.bind h.beginRun fun _ => ih) n)) fun _ => ih

theorem watchedStep_sim (fuel : Nat) :
    Sim strict Q Q (watchedStep fuel : MachineM (Watched M H) H Unit)
      (step fuel : MachineM M H Unit) :=
  noting_sim hnote
    (h.stepWith (.bind h.beginRun fun _ => watchedResume_sim hnote h fuel) fuel)

end

theorem note_shows {strict : Prop} {p : List (Moment M H) → Prop}
    (hp : ∀ m seen, p seen → p (m :: seen)) (moment : Machine M H → Moment M H) :
    Sim strict (SameParts (Shows p)) (SameParts (Shows p)) (note moment) (pure ()) where
  ok hst h := by
    cases h
    exact ⟨_, rfl, ⟨hst.memory.1, hp _ _ hst.memory.2⟩, hst.host, hst.core⟩
  error _ _ _ _ _ _ h := by cases h

variable [AddressSpace M] [Host H]

theorem watchedStep_shows {p : List (Moment M H) → Prop} (hp : ∀ m seen, p seen → p (m :: seen))
    (fuel : Nat) :
    Sim True (SameParts (Shows p)) (SameParts (Shows p))
      (watchedStep fuel : MachineM (Watched M H) H Unit) (step fuel : MachineM M H Unit) :=
  watchedStep_sim (fun moment _ => note_shows hp moment)
    (SameParts.runSim (memorySim p)).toFrameSim fuel

theorem forM_watchedStep {fuels : List Nat} {s : Machine (Watched M H) H} {t : Machine M H}
    (h : fuels.forM step s.unwatched = .ok () t) :
    ∃ w, fuels.forM watchedStep s = .ok () w ∧ w.unwatched = t :=
  exists_ok (.forM (watchedStep_shows fun _ _ _ => trivial)) h

theorem seen_suffix {fuels : List Nat} {s w : Machine (Watched M H) H}
    (h : fuels.forM watchedStep s = .ok () w) : s.memory.seen <:+ w.memory.seen := by
  have hsim := Sim.forM (l := fuels) <|
    watchedStep_shows fun m seen (hseen : s.memory.seen <:+ seen) =>
      hseen.trans (List.suffix_cons m seen)
  have hstart : SameParts (Shows (s.memory.seen <:+ ·)) s s.unwatched :=
    ⟨⟨rfl, List.suffix_refl _⟩, rfl, rfl⟩
  obtain ⟨_, _, hsame⟩ := hsim.ok hstart h
  exact hsame.memory.2

/-- The notes of the first steps of a run are among those of the whole. -/
theorem seen_suffix_of_take {fuels : List Nat} {n : Nat} {s w₁ w : Machine (Watched M H) H}
    (hw₁ : (fuels.take n).forM watchedStep s = .ok () w₁)
    (hw : fuels.forM watchedStep s = .ok () w) : w₁.memory.seen <:+ w.memory.seen := by
  rw [List.forM_eq_forM] at hw₁ hw
  rw [← List.take_append_drop n fuels, List.forM_append, bind_ok hw₁] at hw
  exact seen_suffix hw

end Watched
end ZMachine
