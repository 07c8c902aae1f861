import ZMachine.Proofs.Cache.Refinement
import ZMachine.Proofs.Image
import ZMachine.Proofs.Simulation.Run

/-!
# What every operation keeps

A machine can be asked for many things besides a step: single operations,
calls, reads, accesses to its memory, other registers.  Whatever is asked, and
whether it is done or fails, the machine keeps what it was loaded with, and
its memory goes on showing an image of the same size.

A memory over a storage that may fail has accesses that flat memory does not
refuse.  `Showing` asks of those only that what is shown stays the same.
-/

namespace ZMachine

open MachineM

variable {M N H : Type} [AddressSpace M] [AddressSpace N]

/-! ## Memories whose accesses may fail -/

/-- What succeeds does what it does on the image, and what fails leaves the
image as it is. -/
structure Showing (R : M → Image → Prop) : Prop extends MemorySim False R where
  readByte_error : ∀ {m m' image address e}, R m image →
    AddressSpace.readByte address m = .error e m' → R m' image
  writeByte_error : ∀ {m m' image address value e}, R m image →
    AddressSpace.writeByte address value m = .error e m' → R m' image
  flush_error : ∀ {m m' image e}, R m image → AddressSpace.flush m = .error e m' → R m' image

theorem Showing.of_strict {R : M → Image → Prop} (hR : MemorySim True R) : Showing R where
  size_eq := hR.size_eq
  readByte address := ⟨(hR.readByte address).ok, False.elim⟩
  writeByte address value := ⟨(hR.writeByte address value).ok, False.elim⟩
  flush := ⟨hR.flush.ok, False.elim⟩
  readByte_error {m m' image address e} hm h := by
    obtain ⟨image', hy, hm'⟩ := (hR.readByte address).error trivial hm h
    simp only [AddressSpace.readByte, Image.readByte] at hy
    split at hy <;> cases hy
    exact hm'
  writeByte_error {m m' image address value e} hm h := by
    obtain ⟨image', hy, hm'⟩ := (hR.writeByte address value).error trivial hm h
    simp only [AddressSpace.writeByte, Image.writeByte] at hy
    split at hy <;> cases hy
    exact hm'
  flush_error hm h := by
    obtain ⟨image', hy, -⟩ := hR.flush.error trivial hm h
    cases hy

/-- A cache, whichever transfers of its storage fail. -/
theorem BlockCache.showing {S : Type} {extra : Nat} [Storage S] [LawfulStorage S] :
    Showing (M := BlockCache S extra) (BlockCache.Shows False) where
  toMemorySim := memorySim False
  readByte_error hm h := hm.follow (hm.consistent.readByte_error h).1
  writeByte_error hm h := hm.follow (hm.consistent.writeByte_error h).1
  flush_error hm h := hm.follow (hm.consistent.flush_error h).1

/-- The memory shows some image of a given size. -/
def ShowsSize (R : M → Image → Prop) (n : Nat) (m : M) : Prop :=
  ∃ image, R m image ∧ image.bytes.size = n

theorem Showing.memorySim_showsSize {R : M → Image → Prop} (hR : Showing R) (n : Nat) :
    MemorySim True fun m m' : M => m = m' ∧ ShowsSize R n m where
  size_eq _ _ h := by rw [h.1]
  readByte address := by
    apply Sim.of_invariant
    · rintro m m' b ⟨image, hm, hsize⟩ h
      obtain ⟨image', hy, hm'⟩ := (hR.readByte address).ok hm h
      obtain ⟨-, rfl⟩ := Image.readByte_ok hy
      exact ⟨image', hm', hsize⟩
    · rintro m m' e ⟨image, hm, hsize⟩ h
      exact ⟨image, hR.readByte_error hm h, hsize⟩
  writeByte address value := by
    apply Sim.of_invariant
    · rintro m m' u ⟨image, hm, hsize⟩ h
      obtain ⟨image', hy, hm'⟩ := (hR.writeByte address value).ok hm h
      obtain ⟨-, rfl⟩ := Image.writeByte_ok hy
      exact ⟨_, hm', by simpa using hsize⟩
    · rintro m m' e ⟨image, hm, hsize⟩ h
      exact ⟨image, hR.writeByte_error hm h, hsize⟩
  flush := by
    apply Sim.of_invariant
    · rintro m m' u ⟨image, hm, hsize⟩ h
      obtain ⟨image', hy, hm'⟩ := hR.flush.ok hm h
      cases hy
      exact ⟨image, hm', hsize⟩
    · rintro m m' e ⟨image, hm, hsize⟩ h
      exact ⟨image, hR.flush_error hm h, hsize⟩

/-! ## Operations from outside -/

/-- What can be asked of a machine. -/
inductive Machine.Act (H : Type) where
  | initializeScreen
  | announceScreen
  | announceInterpreter (scripting : Bool)
  | restart
  | interpret (fuel : Nat)
  | step (fuel : Nat)
  | decode
  | execute (fuel : Nat) (i : Instruction) (op : Operation)
  | call (fuel : Nat) (kind : CallKind) (values : List UInt16)
  | readLine (fuel : Nat) (buffer timeout routine : UInt16)
  | pop
  /-- Registers are given other values. -/
  | place (pc : UInt32) (sp fp : Nat)
  | memory (access : Memory.Call)
  /-- The world changes, for instance because a line is typed. -/
  | host (f : H → H)
  | close

def Machine.Act.perform [Host H] : Machine.Act H → MachineM M H Unit
  | .initializeScreen => Machine.initializeScreen
  | .announceScreen => Machine.announceScreen
  | .announceInterpreter scripting => Machine.announceInterpreter scripting
  | .restart => Machine.restart
  | .interpret fuel => discard (Machine.interpret fuel)
  | .step fuel => Machine.step fuel
  | .decode => discard Machine.decode
  | .execute fuel i op => Machine.execute fuel (Machine.interpret fuel) i op
  | .call fuel kind values => discard (Machine.call (Machine.interpret fuel) kind values)
  | .readLine fuel buffer timeout routine =>
    discard (Machine.readLine fuel (Machine.interpret fuel) buffer timeout routine)
  | .pop => discard (ofCore Core.pop)
  | .place pc sp fp => modifyCore fun c => { c with pc, sp, fp }
  | .memory access => discard (ofMemory access.perform)
  | .host f => modify fun s => { s with host := f s.host }
  | .close => Machine.close

theorem RunSim.perform [Host H] {strict : Prop} {P : Machine M H → Machine N H → Prop}
    (h : RunSim strict P) (act : Machine.Act H) :
    Sim strict P P (act.perform : MachineM M H Unit) act.perform := by
  cases act with
  | initializeScreen => exact h.initializeScreen
  | announceScreen => exact h.announceScreen
  | announceInterpreter scripting => exact h.announceInterpreter scripting
  | restart => exact h.restart
  | interpret fuel => exact (h.interpret fuel).discard
  | step fuel => exact h.step fuel
  | decode => exact (h.decode (h.ofCore .pop)).discard
  | execute fuel i op => exact h.execute (h.interpret fuel) fuel i op
  | call fuel kind values => exact (h.call (h.interpret fuel) kind values).discard
  | readLine fuel buffer timeout routine =>
      exact (h.readLine (h.interpret fuel) fuel buffer timeout routine).discard
  | pop => exact (h.ofCore .pop).discard
  | place pc sp fp => exact h.modifyCore (f := fun c => { c with pc, sp, fp }) fun _ => rfl
  | memory access => exact (h.ofMemory (.perform access)).discard
  | host f => exact h.setHost f
  | close => exact h.close

/-! ## The origin along a run -/

theorem Sim.keeping {ε σ₁ σ₂ α : Type} {strict : Prop} {P : σ₁ → σ₂ → Prop} {I : σ₁ → Prop}
    {x : EStateM ε σ₁ α} {y : EStateM ε σ₂ α} (h : Sim strict P P x y)
    (hI : ∀ s, I s → I (reached (x s))) :
    Sim strict (fun s t => P s t ∧ I s) (fun s t => P s t ∧ I s) x y where
  ok {s _ _ _} hst hx := by
    obtain ⟨t', hy, hst'⟩ := h.ok hst.1 hx
    have hs' := hI s hst.2
    rw [hx] at hs'
    exact ⟨t', hy, hst', hs'⟩
  error hstrict s _ _ _ hst hx := by
    obtain ⟨t', hy, hst'⟩ := h.error hstrict hst.1 hx
    have hs' := hI s hst.2
    rw [hx] at hs'
    exact ⟨t', hy, hst', hs'⟩

section

omit [AddressSpace M]

variable {α : Type} (s : Machine M H)

theorem core_reached_ofMemory (x : MemoryM M α) :
    (reached ((ofMemory x : MachineM M H α) s)).core = s.core := by
  simp only [ofMemory]
  cases x s.memory <;> rfl

theorem core_reached_ofHost (x : HostM H α) :
    (reached ((ofHost x : MachineM M H α) s)).core = s.core := by
  simp only [ofHost]
  cases x s.host <;> rfl

theorem core_reached_ofCore (x : CoreM α) :
    (reached ((ofCore x : MachineM M H α) s)).core = reached (x s.core) := by
  simp only [ofCore]
  cases x s.core <;> rfl

end

variable {R : M → N → Prop}

/-- Machines that differ in their memories only and have a given origin. -/
theorem runSim_origin {strict : Prop} (hR : MemorySim strict R)
    (o : Header × Settings × List UInt8) :
    RunSim strict fun (s : Machine M H) (t : Machine N H) =>
      SameParts R s t ∧ s.core.origin = o := by
  have h := SameParts.machineSim (H := H) hR
  have hcore : ∀ {α : Type} {x : CoreM α}, Core.KeepsOrigin x →
      Sim strict (fun (s : Machine M H) (t : Machine N H) => SameParts R s t ∧ s.core.origin = o)
        (fun s t => SameParts R s t ∧ s.core.origin = o) (ofCore x) (ofCore x) := by
    intro α x hx
    apply (SameParts.ofCore x).keeping
    intro s hs
    rw [core_reached_ofCore, hx, hs]
  refine {
    core_eq := fun _ _ hst => hst.1.core
    host_eq := fun _ _ hst => hst.1.host
    ofMemory := fun hxy => (h.ofMemory hxy).keeping fun s hs => ?_
    ofHost := fun x => (h.ofHost x).keeping fun s hs => ?_
    setHost := fun f => (h.setHost f).keeping fun s hs => hs
    movePc := fun f => hcore (.change (f := fun c => { c with pc := f c.pc }) fun _ => rfl)
    adjust := fun f hf => hcore (.change fun c => (hf c).origin_eq)
    push := fun value => hcore (.push value)
    writeLocal := fun n value => hcore (.writeLocal n value)
    ofCore := hcore }
  · rwa [core_reached_ofMemory]
  · rwa [core_reached_ofHost]

/-- After any acts, failed ones included, a machine has the origin that it was
loaded with and shows an image of the same size. -/
theorem stateAfter_origin [Host H] {R : M → Image → Prop} (hR : Showing R) {s : Machine M H}
    {image : Image} (hs : R s.memory image) (acts : List (Machine.Act H)) :
    (stateAfter (acts.map Machine.Act.perform) s).core.origin = s.core.origin ∧
      ShowsSize R image.bytes.size (stateAfter (acts.map Machine.Act.perform) s).memory := by
  have hrun := runSim_origin (H := H) (hR.memorySim_showsSize image.bytes.size)
    s.core.origin
  obtain ⟨-, hparts, horigin⟩ :=
    Sim.calls hrun.perform acts ⟨⟨⟨rfl, image, hs, rfl⟩, rfl, rfl⟩, rfl⟩
  exact ⟨horigin, hparts.memory.2⟩

end ZMachine
