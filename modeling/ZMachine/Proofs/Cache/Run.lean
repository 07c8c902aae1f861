import ZMachine.Host.Transcript
import ZMachine.Proofs.Cache.Refinement
import ZMachine.Proofs.Simulation.Run

/-!
# Machines over a block cache

A machine reaches its memory through byte accesses only, and over a reliable
storage a cache answers those as the image of its logical contents does.  So
a machine over a cache and a machine over the image go through the same
states, call by call, and fail in the same way.  Closing the first makes its
storage equal to the image of the second.
-/

namespace ZMachine

open LawfulStorage (contents Reliable)

variable {M H S : Type} {extra : Nat}

/-- The calls that run a machine once it is loaded. -/
inductive Machine.Call where
  | initializeScreen
  | restart
  | step (fuel : Nat)
  deriving DecidableEq, Repr

def Machine.Call.perform [AddressSpace M] [Host H] : Machine.Call → MachineM M H Unit
  | .initializeScreen => Machine.initializeScreen
  | .restart => Machine.restart
  | .step fuel => Machine.step fuel

theorem SameParts.perform {N : Type} [AddressSpace M] [AddressSpace N] [Host H]
    {strict : Prop} {R : M → N → Prop} (hR : MemorySim strict R) (call : Machine.Call) :
    Sim strict (SameParts (H := H) R) (SameParts R) call.perform call.perform := by
  cases call with
  | initializeScreen => exact (machineSim hR).initializeScreen
  | restart => exact (runSim hR).restart
  | step fuel => exact (runSim hR).step fuel

namespace BlockCache

variable [Storage S] [LawfulStorage S]

/-- Machines over a cache and over flat memory that cannot be told apart. -/
structure Agrees (s : Machine (BlockCache S extra) H) (t : Machine Image H) : Prop where
  core : s.core = t.core
  host : s.host = t.host
  memory : s.memory.logical = t.memory.bytes

theorem agrees_of_sameParts
    {strict : Prop} {s : Machine (BlockCache S extra) H} {t : Machine Image H}
    (h : SameParts (Shows strict) s t) : Agrees s t :=
  ⟨h.core, h.host, h.memory.bytes_eq.symm⟩

/-- Closing a machine over a reliable storage flushes its cache, whether or
not the display can be flushed after it. -/
theorem contents_after_close [Host H]
    {s : Machine (BlockCache S extra) H} (hc : s.memory.Consistent)
    (hreliable : Reliable s.memory.storage) :
    contents (reached (Machine.close s)).memory.storage =
      (reached (Machine.close s)).memory.logical := by
  cases hflush : flush s.memory with
  | error e c => exact absurd hreliable (hc.flush_error hflush).2
  | ok u c =>
      obtain ⟨hfollows, hcontents⟩ := hc.flush_ok hflush
      have hmemory : MachineM.ofMemory AddressSpace.flush s = .ok () { s with memory := c } :=
        MachineM.ofMemory_eq_ok_iff.mpr ⟨c, hflush, rfl⟩
      have hclose : Machine.close s =
          (MachineM.ofHost Host.flush : MachineM _ H Unit) { s with memory := c } :=
        bind_ok hmemory
      rw [← hfollows.logical_eq] at hcontents
      rw [hclose]
      cases hhost : (MachineM.ofHost Host.flush : MachineM _ H Unit) { s with memory := c } with
      | ok u s' =>
          obtain ⟨host, -, rfl⟩ := MachineM.ofHost_eq_ok_iff.mp hhost
          exact hcontents
      | error e s' =>
          obtain ⟨reason, host, -, -, rfl⟩ := MachineM.ofHost_eq_error_iff.mp hhost
          exact hcontents

/-- Over a reliable storage, a machine with a cache loads, runs and fails as
the machine with the story whole in memory does. -/
theorem machine_runs_like_image [Host H]
    (storage : S) (hreliable : Reliable storage) (extra : Nat) (policy : Eviction)
    (stream : ChaCha.Stream) (settings : Settings) (entropy : Entropy) (host : H) :
    ∃ cache : BlockCache S extra, ofStorage extra policy stream storage = .ok cache ∧
      let cached := Machine.load settings entropy host cache
      let flat := Machine.load settings entropy host (Image.mk (contents storage))
      (∃ e, cached = .error e ∧ flat = .error e) ∨
        ∃ s t, cached = .ok s ∧ flat = .ok t ∧ Agrees s t ∧ ∀ calls : List Machine.Call,
          let s' := stateAfter (calls.map Machine.Call.perform) s
          let t' := stateAfter (calls.map Machine.Call.perform) t
          outcomes (calls.map Machine.Call.perform) s =
              outcomes (calls.map Machine.Call.perform) t ∧
            Agrees s' t' ∧
            outcome (Machine.close s') = outcome (Machine.close t') ∧
            Agrees (reached (Machine.close s')) (reached (Machine.close t')) ∧
            contents (reached (Machine.close s')).memory.storage =
              (reached (Machine.close t')).memory.bytes := by
  obtain ⟨cache, hcache⟩ := exists_ofStorage hreliable extra policy stream
  obtain ⟨hc, hlogical, hkept⟩ := ofStorage_ok hcache
  have hshows : Shows True cache ⟨contents storage⟩ :=
    ⟨hc, fun _ => hkept hreliable, hlogical.symm⟩
  refine ⟨cache, hcache, ?_⟩
  rcases SameParts.load (memorySim True) hshows settings entropy host with
    herror | ⟨s, t, hs, ht, hst⟩
  · exact .inl herror
  · refine .inr ⟨s, t, hs, ht, agrees_of_sameParts hst, fun calls => ?_⟩
    obtain ⟨houtcomes, hafter⟩ :=
      Sim.calls (SameParts.perform (memorySim True)) calls hst
    obtain ⟨hclose, hclosed⟩ := (SameParts.close (memorySim True)).call hafter
    refine ⟨houtcomes, agrees_of_sameParts hafter, hclose, agrees_of_sameParts hclosed, ?_⟩
    rw [contents_after_close hafter.memory.consistent (hafter.memory.reliable trivial),
      hclosed.memory.bytes_eq]

/-- A story of version 5 whose code prints a digit and quits, in a cache of
one slot over a disk of two blocks. -/
theorem machine_runs_like_image_small_story :
    let disk : ScheduledDisk :=
      { bytes := (Array.replicate 600 0).set! 0 5 |>.set! 7 64 |>.set! 64 0xE5
          |>.set! 65 0x7F |>.set! 66 49 |>.set! 67 0xBA
        faults := fun _ => none }
    let load {M : Type} [AddressSpace M] (memory : M) : Except Fault (Machine M Transcript) :=
      Machine.load { randomSeed := some 1 } ⟨fun _ => 0, 0⟩ {} memory
    let calls : List Machine.Call := [.initializeScreen, .restart, .step 1, .step 1]
    ∃ (cache : BlockCache ScheduledDisk 0) (s : Machine _ Transcript) (t : Machine _ Transcript),
      ofStorage 0 .random (ChaCha.ofSeed 1) disk = .ok cache ∧
        load cache = .ok s ∧ load (Image.mk disk.bytes) = .ok t ∧
        outcomes (calls.map Machine.Call.perform) s =
          outcomes (calls.map Machine.Call.perform) t ∧
        (stateAfter (calls.map Machine.Call.perform) s).host.lower = #[49] := by
  intro disk load calls
  have hprinted :
      (match load (Image.mk disk.bytes) with
        | .ok t => (stateAfter (calls.map Machine.Call.perform) t).host.lower
        | .error _ => #[]) = #[49] := by decide +kernel
  obtain ⟨cache, hcache, ⟨e, -, hflat⟩ | ⟨s, t, hs, ht, -, hcalls⟩⟩ :=
    machine_runs_like_image disk (fun _ _ => rfl) 0 .random (ChaCha.ofSeed 1)
      { randomSeed := some 1 } ⟨fun _ => 0, 0⟩ ({} : Transcript)
  · have herror : load (Image.mk disk.bytes) = .error e := hflat
    rw [herror] at hprinted
    cases hprinted
  · have hok : load (Image.mk disk.bytes) = .ok t := ht
    rw [hok] at hprinted
    obtain ⟨houtcomes, hagrees, -⟩ := hcalls calls
    exact ⟨cache, s, t, hcache, hs, hok, houtcomes, hagrees.host ▸ hprinted⟩

end BlockCache
end ZMachine
