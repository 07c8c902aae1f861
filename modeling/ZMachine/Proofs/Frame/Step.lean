import ZMachine.Proofs.Frame.Link
import ZMachine.Proofs.Frame.Operation

/-!
# What a step does to frames

An instruction begins with its operands loaded.  Most operations stay in the
frame until they return, if they do.  Those that take words off the stack
reach no further than the frame, and calls make a new one.  A read that times
out calls a routine and watches it run, so reads are settled together with
runs, by induction on their fuel.
-/

namespace ZMachine

open MachineM

variable {M H : Type} [AddressSpace M]

/-- A return links the machine to the frame of the caller. -/
theorem ret_ready (r : Nat) (value : UInt16) :
    Sim False (Beside (H := H) (Under fun m : Moment M H => Room r m.core)) (Beside Ready)
      (Machine.ret value) (Machine.ret value) := by
  refine ⟨?_, False.elim⟩
  rintro s s' _ _ ⟨rfl, hs⟩ h
  obtain ⟨ht, hseen, kind, c, hc, hdeliver⟩ := ret_watched h
  refine ⟨_, ht, rfl, fun hdisciplined => ?_⟩
  rw [hseen] at hdisciplined ⊢
  obtain ⟨hlinked, m, hm, hlevel, -⟩ := hs hdisciplined
  obtain ⟨hframed, hlt, hstack⟩ := hlevel.framed.leave hc
  have hdelivered : Core.Level c s'.core := by
    cases kind with
    | async =>
        cases hdeliver
        exact (Core.Level.refl hframed).of_same rfl rfl rfl
    | procedure =>
        cases hdeliver
        exact .refl hframed
    | function =>
        have hmid : Held (fun _ => Room 0 c) { s with core := c } :=
          fun _ => ⟨.refl hframed, hframed.sp_le⟩
        have hstore :=
          (held_machineSim (M := M) (H := H) fun _ => room_stable 0 c).storeResult value
        obtain ⟨_, _, _, hafter⟩ := hstore.ok ⟨rfl, hmid⟩ hdeliver
        rw [Held, Granted, hseen] at hafter
        exact (hafter hdisciplined).1
  refine ⟨hlinked, .inr ⟨hdelivered.framed, ?_⟩⟩
  intro m' hm'
  obtain rfl := Option.mem_unique hm hm'
  have hout : m.core.fp < s'.core.fp := by
    rw [hdelivered.fp_eq, ← hlevel.fp_eq]
    exact hlt
  refine ⟨?_, fun hlt' => absurd hout (Nat.lt_asymm hlt'),
    fun _ => ⟨_, value, kind, c, hlevel, ht, hc, hdelivered⟩⟩
  intro j hj hj'
  have hjc : c.fp < j := by rwa [← hdelivered.fp_eq]
  calc s'.core.stack[j]?
      = c.stack[j]? := hdelivered.above j hjc
    _ = s.core.stack[j]? := congrArg (·[j]?) hstack
    _ = m.core.stack[j]? := hlevel.above j hj

/-! ## Calls -/

/-- Where a machine is after a run inside an instruction: the last moment is
the end of an instruction, or the story had already ended. -/
def Came (s : Machine (Watched M H) H) : Prop :=
  Under Placed s ∧ (Under Poised s ∨ s.core.halted = true)

theorem Came.of_poised {s : Machine (Watched M H) H} (hs : Under Poised s) : Came s :=
  ⟨hs.level_of_poised.placed_of_room, .inl hs⟩

theorem beside_placed (s : Machine (Watched M H) H) (t : Machine M H)
    (hst : Beside (Under Poised) s t) : Beside (Under Placed) s t :=
  ⟨hst.1, hst.2.level_of_poised.placed_of_room⟩

theorem enter_placed (arguments : Nat) (kind : CallKind) :
    Sim False (Beside (H := H) (Under (Poised (M := M)))) (Beside (Under Placed))
      (ofCore (Core.enter arguments kind)) (ofCore (Core.enter arguments kind)) := by
  refine under_ofCore fun m c c' _ hm hframed hpoised henter => ?_
  have hlevel := hpoised.level hm hframed
  rcases hlevel.framed.enter henter with hfull | ⟨hframed', hentered⟩
  · exact .inl hfull
  · obtain ⟨k, hk, hpc, hstack, hsp, hfp⟩ := hpoised
    refine .inr (.inr ⟨k, hk, hm.level hframed hk, hframed', ?_⟩)
    exact hentered.of_caller hpc hstack hsp hfp

theorem resumed_came :
    Sim False (Beside (H := H) (Came (M := M))) (Beside Came)
      (modifyCore fun c => { c with runState := .run, status := 1 })
      (modifyCore fun c => { c with runState := .run, status := 1 }) := by
  refine ⟨?_, False.elim⟩
  rintro s _ _ _ ⟨rfl, hplaced, hend⟩ h
  cases h
  refine ⟨_, rfl, rfl, ?_, ?_⟩
  · exact hplaced.next rfl fun _ _ _ h => h.next id fun hlevel => hlevel.of_same rfl rfl rfl
  · exact hend.imp_left fun hpoised => hpoised.next rfl fun _ _ _ h => h

section

variable {run : MachineM (Watched M H) H UInt16} {run' : MachineM M H UInt16}

theorem call_placed {kind : CallKind} (hkind : kind ≠ .async) (values : List UInt16) :
    Sim False (Beside (Under Poised)) (Beside (Under Placed))
      (Machine.call run kind values) (Machine.call run' kind values) := by
  refine callPlain_sim (under_machineSim placed_stable) hkind values beside_placed ?_
    fun arguments => enter_placed arguments kind
  have hstore := (under_machineSim fun m : Moment M H => room_stable 0 m.core).storeResult 0
  exact (hstore.pre fun s t hst => ⟨hst.1, hst.2.level_of_poised⟩).mono
    fun s t hst => ⟨hst.1, hst.2.placed_of_room⟩

variable (hrun : Sim False (Beside (Under Placed)) (Beside Came) run run')

include hrun

/-- An interrupted read can be interrupted again. -/
theorem readSim_placed : ReadSim (Beside (Under Poised)) (Beside (Under Placed)) run run' where
  before := held_lookSim _
  ofHost := held_ofHost _
  after := under_machineSim placed_stable
  stay := beside_placed
  call routine := by
    refine (callAsync_sim (under_machineSim placed_stable) [routine]
      (fun s t hst => ⟨hst.1, .of_poised hst.2⟩) (fun arguments => enter_placed arguments .async)
      hrun resumed_came).mono fun s t hst => ?_
    obtain ⟨hbeside, hplaced, hend⟩ := hst
    refine ⟨⟨hbeside, hplaced⟩, fun hgoes => ⟨hbeside, hend.resolve_right fun hhalted => ?_⟩⟩
    rw [hhalted] at hgoes
    cases hgoes

end

/-! ## Instructions -/

/-- About to carry out a disciplined operation. -/
def Opened (i : Instruction) (op : Operation) (m : Moment M H) (c : Core) : Prop :=
  Poised m c ∧ op ≠ .throwValue ∧ op ≠ .restart ∧ c.sp + i.reach c.header.version ≤ c.fp + 1

theorem Under.room {i : Instruction} {op : Operation} {s : Machine (Watched M H) H}
    (hs : Under (Opened i op) s) {r : Nat} (hr : r ≤ i.reach s.core.header.version) :
    Under (fun m => Room r m.core) s := by
  refine hs.next rfl fun m hm hframed h => ?_
  obtain ⟨hpoised, -, -, hreach⟩ := h
  exact ⟨hpoised.level hm hframed, by omega⟩

theorem roomSim_ready :
    RoomSim (fun r => Beside (H := H) (Under fun m : Moment M H => Room r m.core))
      (Beside Ready) where
  sim r := under_machineSim fun m => room_stable r m.core
  pop _ := under_ofCore fun _ _ _ _ _ _ h hpop => h.pop hpop
  replaceTop _ _ := under_ofCore fun _ _ _ _ _ _ h hreplace => h.replaceTop hreplace
  ret := ret_ready
  stay _ _ _ hst := ⟨hst.1, hst.2.placed_of_room.ready⟩

section

variable {run : MachineM (Watched M H) H UInt16} {run' : MachineM M H UInt16} [Host H]
variable (hrun : Sim False (Beside (Under Placed)) (Beside Came) run run')

include hrun

theorem execute_ready (fuel : Nat) {i : Instruction} {op : Operation}
    (hop : Operation.ofOpcode? i.form i.opcode = some op) :
    Sim False (Beside (Under (Opened i op))) (Beside Ready) (Machine.execute fuel run i op)
      (Machine.execute fuel run' i op) := by
  have hpoised : ∀ (s : Machine (Watched M H) H) t, Beside (Under (Opened i op)) s t →
      Beside (Under Poised) s t :=
    fun s t hst => ⟨hst.1, hst.2.next rfl fun _ _ _ h => h.1⟩
  have hready : ∀ (s : Machine (Watched M H) H) t, Beside (Under Placed) s t → Beside Ready s t :=
    fun s t hst => ⟨hst.1, hst.2.ready⟩
  refine roomSim_ready.execute (fun r s t hst hr => ⟨hst.1, hst.2.room hr⟩) fuel hop
    beside_core_eq (fun kind values hkind => ?_) (readSim_placed hrun) hpoised hready ?_ ?_
  · exact ((call_placed hkind values).mono hready).pre hpoised
  · intro hthrow value target
    refine sim_of_undisciplined (fun _ _ ⟨_, _, _, h⟩ => h.2.1 hthrow) fun p => ?_
    exact (SameParts.runSim (Watched.memorySim p)).throwTo value target
  · intro hrestart
    refine sim_of_undisciplined (fun _ _ ⟨_, _, _, h⟩ => h.2.2.1 hrestart) fun p => ?_
    exact (SameParts.runSim (Watched.memorySim p)).restart

/-! ## Runs -/

theorem stepWith_ready (fuel : Nat) :
    Sim False (Beside fun s => Under (fun m _ => m = .start s.unwatched) s) (Beside Ready)
      (Machine.stepWith fuel run) (Machine.stepWith fuel run') := by
  refine stepWith_beside fuel (fun s k i op hs hdecode hseen hop => ?_)
    fun hop => execute_ready hrun fuel hop
  refine hs.next hseen fun m hm hframed hstart => ?_
  subst hstart
  obtain ⟨hthrow, hrestart⟩ := hm.operation_ne hdecode hop
  refine ⟨⟨k.unwatched, ?_, rfl, rfl, rfl, rfl⟩, hthrow, hrestart, (hm.room hframed hdecode).2⟩
  rw [Moment.caller?, Option.mem_def.mp (Moment.mem_decoded? hdecode), Option.map_some]

theorem noting_poised (fuel : Nat) :
    Sim False (Beside Ready) (Beside (Under Poised))
      (Machine.noting (Machine.stepWith fuel run)) (Machine.stepWith fuel run') := by
  refine noting_beside (fun s hs hseen => ?_) (stepWith_ready hrun fuel) fun s hs hseen => ?_
  · exact ⟨hs.linked_cons rfl hseen, _, rfl, rfl⟩
  · exact ⟨hs.linked_cons rfl hseen, _, rfl, _, rfl, rfl, rfl, rfl, rfl⟩

end

/-- A run may begin only where it is sure to run, unless the story has ended. -/
theorem beginRun_bind {f : MachineM (Watched M H) H UInt16} {g : MachineM M H UInt16}
    (hfg : Sim False (Beside fun s => Under Placed s ∧ (Under Poised s ∨ s.core.runState = .run))
      (Beside Came) f g) :
    Sim False (Beside (Under Placed)) (Beside Came) (do Machine.beginRun; f)
      (do Machine.beginRun; g) := by
  refine ⟨?_, False.elim⟩
  rintro s s' _ a ⟨rfl, hs⟩ h
  refine hfg.ok ⟨rfl, ?_, .inr rfl⟩ h
  exact hs.next rfl fun _ _ _ hplaced => hplaced.next id fun hlevel => hlevel.of_same rfl rfl rfl

variable [Host H]

theorem watchedResume_came (fuel : Nat) :
    Sim False (Beside fun s => Under Placed s ∧ (Under Poised s ∨ s.core.runState = .run))
      (Beside Came) (Machine.watchedResume fuel : MachineM (Watched M H) H UInt16)
      (Machine.resume fuel : MachineM M H UInt16) := by
  induction fuel with
  | zero => exact .throw _
  | succ n ih =>
      refine inspectBind beside_core_eq id fun c => .ite (fun hgoes => ?_) fun hends => ?_
      · have hstep := noting_poised (beginRun_bind ih) n
        refine .bindThrough (hstep.pre fun s t hst => ⟨hst.1.1, hst.1.2.1.ready⟩) fun _ => ?_
        exact ih.pre fun s t hst => ⟨hst.1, hst.2.level_of_poised.placed_of_room, .inl hst.2⟩
      · refine (Sim.pure c.status).mono fun s t hst => ?_
        obtain ⟨⟨hbeside, hplaced, hend⟩, rfl⟩ := hst
        refine ⟨hbeside, hplaced, hend.imp_right fun hstate => ?_⟩
        simpa [Machine.isRunning, hstate] using hends

theorem watchedStep_poised (fuel : Nat) :
    Sim False (Beside Ready) (Beside (Under Poised))
      (Machine.watchedStep fuel : MachineM (Watched M H) H Unit) (Machine.step fuel) :=
  noting_poised (beginRun_bind (watchedResume_came fuel)) fuel

end ZMachine
