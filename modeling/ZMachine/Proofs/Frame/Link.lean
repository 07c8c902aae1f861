import Mathlib.Data.List.Chain
import ZMachine.Proofs.Frame.Trace

/-!
# Links between moments

`Link m w` says how the machine `w` at one moment of a trace comes out of the
moment `m` before it.  Either both are in the same frame, or `w` is in a
routine that was called in between, or it has returned; in each case the words
above both frames are the same.  `Ready` is the invariant of a watched
machine: if the trace so far is disciplined, its moments are linked, and the
machine is linked to the last of them.

Between calls and returns it is enough to know where the core stands after
the last moment: `Room`, `Poised` and `Placed` are such places.  A place that
pushes and locals keep is `Core.Stable`, and everything that `MachineSim`
covers keeps it.
-/

namespace ZMachine

open MachineM

/-! ## Links -/

variable {M H : Type} [AddressSpace M]

structure Link (m : Moment M H) (w : Machine M H) : Prop where
  above : ∀ j, m.core.fp < j → w.core.fp < j → w.core.stack[j]? = m.core.stack[j]?
  called : w.core.fp < m.core.fp → ∃ k, m.caller? = some k ∧ Core.Entered k.core w.core
  returned : m.core.fp < w.core.fp →
    ∃ before value kind c, Core.Level m.core before.core ∧ Machine.ret value before = .ok () w ∧
      Core.leave before.core = .ok kind c ∧ Core.Level c w.core

theorem Link.of_level {m : Moment M H} {w : Machine M H} (h : Core.Level m.core w.core) :
    Link m w where
  above j hj _ := h.above j hj
  called hlt := absurd h.fp_eq (Nat.ne_of_lt hlt)
  returned hlt := absurd h.fp_eq (Nat.ne_of_gt hlt)

theorem Link.of_entered {m : Moment M H} {k w : Machine M H} (hk : m.caller? = some k)
    (hlevel : Core.Level m.core k.core) (hw : Core.Entered k.core w.core) : Link m w := by
  have hsp := hw.sp_eq
  have hle := hlevel.framed.sp_le
  have hfp := hlevel.fp_eq
  refine ⟨?_, fun _ => ⟨k, hk, hw⟩, fun hlt => by omega⟩
  intro j hj _
  rw [hw.above j (by omega)]
  exact hlevel.above j hj

/-- Links between the moments of a trace, the latest first. -/
def Linked (seen : List (Moment M H)) : Prop :=
  (∀ m ∈ seen, m.core.Framed) ∧ seen.IsChain fun w m => Link m w.machine

theorem Linked.cons {seen : List (Moment M H)} (h : Linked seen) {w : Moment M H}
    (hframed : w.core.Framed) (hlink : ∀ m ∈ seen.head?, Link m w.machine) :
    Linked (w :: seen) :=
  ⟨List.forall_mem_cons.mpr ⟨hframed, h.1⟩, List.isChain_cons.mpr ⟨hlink, h.2⟩⟩

/-! ## Loaded operands -/

theorem CodeSim.of_core {p : Core → Prop} (hpc : ∀ c pc, p c → p { c with pc }) :
    CodeSim False fun s t : Machine M H => s = t ∧ p s.core where
  core_eq s t hst := by rw [hst.1]
  ofMemory {_ x y} hxy := by
    refine ⟨?_, False.elim⟩
    intro s s' t a hst hs
    obtain ⟨rfl, hp⟩ := hst
    obtain ⟨memory, hx, rfl⟩ := ofMemory_eq_ok_iff.mp hs
    obtain ⟨_, hy, rfl⟩ := (hxy True _ MemorySim.refl).ok rfl hx
    exact ⟨_, ofMemory_eq_ok_iff.mpr ⟨memory, hy, rfl⟩, rfl, hp⟩
  movePc f := by
    refine ⟨?_, False.elim⟩
    intro s s' t a hst hs
    obtain ⟨rfl, hp⟩ := hst
    cases hs
    exact ⟨_, rfl, rfl, hpc _ _ hp⟩

/-- Loading operands moves the program counter on and may take words off the
stack. -/
theorem decode_ok {s k : Machine M H} {i : Instruction} (h : Machine.decode s = .ok i k) :
    ∃ pc sp, k.core = { s.core with pc, sp } ∧ s.core.sp ≤ sp := by
  let p : Core → Prop := fun c => ∃ pc sp, c = { s.core with pc, sp } ∧ s.core.sp ≤ sp
  have hpc : ∀ c pc, p c → p { c with pc } := by
    rintro _ pc ⟨_, sp, rfl, hsp⟩
    exact ⟨pc, sp, rfl, hsp⟩
  have hpop : Sim False (fun s t : Machine M H => s = t ∧ p s.core) (fun s t => s = t ∧ p s.core)
      (ofCore Core.pop) (ofCore Core.pop) := by
    refine ⟨?_, False.elim⟩
    rintro s s' _ value ⟨rfl, pc, sp, hcore, hsp⟩ hs
    refine ⟨s', hs, rfl, ?_⟩
    obtain ⟨c, hc, rfl⟩ := ofCore_eq_ok_iff.mp hs
    obtain ⟨-, rfl⟩ := Core.pop_eq_ok_iff.mp hc
    rw [hcore]
    exact ⟨pc, sp + 1, rfl, Nat.le_succ_of_le hsp⟩
  have hstart : p s.core := ⟨_, _, rfl, Nat.le_refl _⟩
  obtain ⟨_, _, _, hp⟩ := ((CodeSim.of_core hpc).decode hpop).ok ⟨rfl, hstart⟩ h
  exact hp

/-- In the frame of the first core, with `r` words of it on the stack. -/
def Room (r : Nat) (c₀ c : Core) : Prop :=
  Core.Level c₀ c ∧ c.sp + r ≤ c.fp + 1

theorem Moment.mem_decoded? {s k : Machine M H} {i : Instruction}
    (h : Machine.decode s = .ok i k) : (i, k) ∈ (Moment.start s).decoded? := by
  simp only [Moment.decoded?, h, Option.mem_def]

/-- A disciplined instruction has the words that it reaches in its frame. -/
theorem Moment.Disciplined.room {s k : Machine M H} {i : Instruction}
    (hm : (Moment.start s).Disciplined) (hs : s.core.Framed) (h : Machine.decode s = .ok i k) :
    Room (i.reach k.core.header.version) s.core k.core := by
  have hwords := Moment.forall_lt_iff_le_max.mp (hm.2 _ (mem_decoded? h)).2.2
  have hreach := Nat.le_trans hwords (Nat.max_le.mpr ⟨hs.sp_le, Nat.le_refl _⟩)
  obtain ⟨pc, sp, hcore, -⟩ := decode_ok h
  rw [hcore] at hreach ⊢
  refine ⟨⟨⟨hs.fp_lt, ?_, hs.chain⟩, rfl, fun _ _ => rfl⟩, hreach⟩
  exact Nat.le_trans (Nat.le_add_right _ _) hreach

theorem Moment.Disciplined.operation_ne {s k : Machine M H} {i : Instruction} {op : Operation}
    (hm : (Moment.start s).Disciplined) (h : Machine.decode s = .ok i k)
    (hop : Operation.ofOpcode? i.form i.opcode = some op) : op ≠ .throwValue ∧ op ≠ .restart := by
  obtain ⟨hthrow, hrestart, -⟩ := hm.2 _ (mem_decoded? h)
  rw [hop] at hthrow hrestart
  exact ⟨fun h => hthrow (congrArg some h), fun h => hrestart (congrArg some h)⟩

/-- A call is made in the frame of the moment before it. -/
theorem Moment.Disciplined.level {m : Moment M H} (hm : m.Disciplined) (hframed : m.core.Framed)
    {k : Machine M H} (hk : m.caller? = some k) : Core.Level m.core k.core := by
  cases m with
  | finish s =>
      cases hk
      exact .refl hframed
  | start s =>
      simp only [Moment.caller?, Moment.decoded?] at hk
      split at hk
      next i k' hdecode =>
        cases hk
        exact (hm.room hframed hdecode).1
      next => cases hk

/-! ## Watched machines -/

/-- If the trace so far is disciplined, then it is with the machine as `Φ`
says. -/
def Granted (Φ : List (Moment M H) → Machine M H → Prop) (s : Machine (Watched M H) H) : Prop :=
  (∀ m ∈ s.memory.seen, m.Disciplined) → Φ s.memory.seen s.unwatched

/-- The same for a condition on the trace and the core. -/
def Held (Ψ : List (Moment M H) → Core → Prop) : Machine (Watched M H) H → Prop :=
  Granted fun seen w => Ψ seen w.core

/-- If the trace so far is disciplined, it is linked, and the core is as `Φ`
says after its last moment. -/
def Under (Φ : Moment M H → Core → Prop) : Machine (Watched M H) H → Prop :=
  Held fun seen c => Linked seen ∧ ∃ m ∈ seen.head?, Φ m c

/-- If the trace so far is disciplined, it is linked, and it can go on with the
machine as it is, unless the stack is full. -/
def Ready : Machine (Watched M H) H → Prop :=
  Granted fun seen w =>
    Linked seen ∧
      (w.core.sp = 0 ∨ (w.core.Framed ∧ ∀ m ∈ seen.head?, Link m w))

theorem Ready.linked_cons {s : Machine (Watched M H) H} (hs : Ready s) {m : Moment M H}
    (hm : m.machine = s.unwatched) (hseen : ∀ m' ∈ m :: s.memory.seen, m'.Disciplined) :
    Linked (m :: s.memory.seen) := by
  obtain ⟨hlinked, hplace⟩ := hs fun m' hm' => hseen m' (List.mem_cons_of_mem m hm')
  have hnotFull : s.core.sp ≠ 0 := by
    have hpos := (hseen m List.mem_cons_self).1
    rw [Moment.core, hm] at hpos
    exact Nat.ne_of_gt hpos
  obtain ⟨hframed, hlink⟩ := hplace.resolve_left hnotFull
  refine hlinked.cons ?_ ?_
  · rw [Moment.core, hm]
    exact hframed
  · rwa [hm]

/-- A watched machine with a property, beside the machine itself. -/
def Beside (Φ : Machine (Watched M H) H → Prop) (s : Machine (Watched M H) H)
    (t : Machine M H) : Prop :=
  s.unwatched = t ∧ Φ s

theorem beside_granted {Φ Φ' : List (Moment M H) → Machine M H → Prop}
    (h : ∀ seen w, Φ seen w → Φ' seen w) (s : Machine (Watched M H) H) (t : Machine M H)
    (hst : Beside (Granted Φ) s t) : Beside (Granted Φ') s t :=
  ⟨hst.1, fun hseen => h _ _ (hst.2 hseen)⟩

section

variable {Ψ Ψ' : List (Moment M H) → Core → Prop} {α : Type}

theorem Held.next {s s' : Machine (Watched M H) H} (hs : Held Ψ s)
    (hsame : s'.memory.seen = s.memory.seen)
    (h : ∀ seen, (∀ m ∈ seen, m.Disciplined) → Ψ seen s.core → Ψ' seen s'.core) : Held Ψ' s' := by
  intro hseen
  rw [hsame] at hseen ⊢
  exact h _ hseen (hs hseen)

theorem held_ofCore {x : CoreM α}
    (hx : ∀ seen c c' a, (∀ m ∈ seen, m.Disciplined) → Ψ seen c → x c = .ok a c' → Ψ' seen c') :
    Sim False (Beside (Held Ψ)) (Beside (Held Ψ')) (ofCore x) (ofCore x) := by
  refine ⟨?_, False.elim⟩
  rintro s s' _ a ⟨rfl, hs⟩ h
  obtain ⟨c, hc, rfl⟩ := ofCore_eq_ok_iff.mp h
  refine ⟨{ s.unwatched with core := c }, ofCore_eq_ok_iff.mpr ⟨c, hc, rfl⟩, rfl, ?_⟩
  exact hs.next rfl fun seen hseen hΨ => hx seen s.core c a hseen hΨ hc

theorem held_modifyCore {f : Core → Core} (hf : ∀ seen c, Ψ seen c → Ψ' seen (f c)) :
    Sim False (Beside (Held Ψ)) (Beside (Held Ψ')) (modifyCore f) (modifyCore f) := by
  refine held_ofCore (x := modify f) ?_
  intro seen c c' _ _ hΨ h
  cases h
  exact hf seen c hΨ

omit [AddressSpace M] in
theorem beside_core_eq {Φ : Machine (Watched M H) H → Prop} (s : Machine (Watched M H) H)
    (t : Machine M H) (hst : Beside Φ s t) : s.core = t.core := by
  obtain ⟨rfl, -⟩ := hst
  rfl

theorem held_lookSim (Ψ : List (Moment M H) → Core → Prop) : LookSim False (Beside (Held Ψ)) where
  core_eq := beside_core_eq
  ofMemory {_ x y} hxy := by
    refine ⟨?_, False.elim⟩
    rintro s s' _ a ⟨rfl, hs⟩ h
    obtain ⟨w, hx, rfl⟩ := ofMemory_eq_ok_iff.mp h
    have hsim := hxy True _ (Watched.memorySim (· = s.memory.seen))
    obtain ⟨m, hy, rfl, hseen⟩ := hsim.ok ⟨rfl, rfl⟩ hx
    refine ⟨_, ofMemory_eq_ok_iff.mpr ⟨_, hy, rfl⟩, rfl, ?_⟩
    exact hs.next hseen fun _ _ hΨ => hΨ

theorem held_ofHost (Ψ : List (Moment M H) → Core → Prop) (x : HostM H α) :
    Sim False (Beside (Held Ψ)) (Beside (Held Ψ)) (ofHost x) (ofHost x) := by
  refine ⟨?_, False.elim⟩
  rintro s s' _ a ⟨rfl, hs⟩ h
  obtain ⟨host, hx, rfl⟩ := ofHost_eq_ok_iff.mp h
  exact ⟨_, ofHost_eq_ok_iff.mpr ⟨host, hx, rfl⟩, rfl, hs⟩

theorem held_setHost (Ψ : List (Moment M H) → Core → Prop) (f : H → H) :
    Sim False (Beside (Held Ψ)) (Beside (Held Ψ))
      (modify fun s => { s with host := f s.host } : MachineM (Watched M H) H Unit)
      (modify fun s => { s with host := f s.host } : MachineM M H Unit) := by
  refine ⟨?_, False.elim⟩
  rintro s s' _ a ⟨rfl, hs⟩ h
  cases h
  exact ⟨_, rfl, rfl, hs⟩

/-- What an operation does between its calls and returns keeps `p`. -/
structure Core.Stable (p : Core → Prop) : Prop where
  adjust : ∀ {c} (f : Core → Core), Core.IsAdjustment f → p c → p (f c)
  push : ∀ {c c' value}, p c → Core.push value c = .ok () c' → p c'
  writeLocal : ∀ {c c' n value}, p c → Core.writeLocal n value c = .ok () c' → p c'

namespace Core.Stable

variable {ι : Type} {p q : Core → Prop}

theorem const (a : Prop) : Stable fun _ => a :=
  ⟨fun _ _ => id, fun h _ => h, fun h _ => h⟩

theorem and (hp : Stable p) (hq : Stable q) : Stable fun c => p c ∧ q c where
  adjust f hf := And.imp (hp.adjust f hf) (hq.adjust f hf)
  push h hpush := ⟨hp.push h.1 hpush, hq.push h.2 hpush⟩
  writeLocal h hwrite := ⟨hp.writeLocal h.1 hwrite, hq.writeLocal h.2 hwrite⟩

theorem or (hp : Stable p) (hq : Stable q) : Stable fun c => p c ∨ q c where
  adjust f hf := Or.imp (hp.adjust f hf) (hq.adjust f hf)
  push h hpush := h.imp (hp.push · hpush) (hq.push · hpush)
  writeLocal h hwrite := h.imp (hp.writeLocal · hwrite) (hq.writeLocal · hwrite)

theorem ofExists {p : ι → Core → Prop} (hp : ∀ i, Stable (p i)) : Stable fun c => ∃ i, p i c where
  adjust f hf := Exists.imp fun i => (hp i).adjust f hf
  push h hpush := h.imp fun i hi => (hp i).push hi hpush
  writeLocal h hwrite := h.imp fun i hi => (hp i).writeLocal hi hwrite

end Core.Stable

theorem Core.Stable.machineSim {p : Core → Prop} (hp : Core.Stable p) :
    MachineSim False (Holding fun s : Machine M H => p s.core) := by
  have hcore : ∀ {α : Type} {x : CoreM α}, (∀ {c c' a}, p c → x c = .ok a c' → p c') →
      Sim False (Holding fun s : Machine M H => p s.core) (Holding fun s => p s.core)
        (ofCore x) (ofCore x) := by
    intro α x hx
    refine .holding fun hs h => ?_
    obtain ⟨c, hc, rfl⟩ := ofCore_eq_ok_iff.mp h
    exact hx hs hc
  have hadjust : ∀ f : Core → Core, Core.IsAdjustment f →
      Sim False (Holding fun s : Machine M H => p s.core) (Holding fun s => p s.core)
        (modifyCore f) (modifyCore f) := by
    intro f hf
    refine .holding fun hs h => ?_
    cases h
    exact hp.adjust f hf hs
  have hcode := CodeSim.of_core (M := M) (H := H) (p := p) fun c pc hc =>
    hp.adjust (fun c => { c with pc }) (fun _ => ⟨rfl, rfl, rfl, rfl, rfl, id⟩) hc
  refine {
    core_eq := hcode.core_eq
    ofMemory := hcode.ofMemory
    movePc := hcode.movePc
    host_eq := fun s t hst => by rw [hst.1]
    ofHost := fun x => .holding fun hs h => ?_
    setHost := fun f => .holding fun hs h => ?_
    adjust := hadjust
    push := fun value => hcore hp.push
    writeLocal := fun n value => hcore hp.writeLocal }
  · obtain ⟨host, -, rfl⟩ := ofHost_eq_ok_iff.mp h
    exact hs
  · cases h
    exact hs

theorem held_machineSim (h : ∀ seen, Core.Stable (Ψ seen)) :
    MachineSim False (Beside (Held Ψ)) where
  toLookSim := held_lookSim Ψ
  movePc f := held_modifyCore fun seen _ hΨ =>
    (h seen).adjust (fun c => { c with pc := f c.pc })
      (fun _ => ⟨rfl, rfl, rfl, rfl, rfl, id⟩) hΨ
  host_eq _ _ hst := by
    obtain ⟨rfl, -⟩ := hst
    rfl
  ofHost := held_ofHost Ψ
  setHost := held_setHost Ψ
  adjust f hf := held_modifyCore fun seen _ hΨ => (h seen).adjust f hf hΨ
  push _ := held_ofCore fun seen _ _ _ _ hΨ hpush => (h seen).push hΨ hpush
  writeLocal _ _ := held_ofCore fun seen _ _ _ _ hΨ hwrite => (h seen).writeLocal hΨ hwrite

/-- What a disciplined run does not do leaves no disciplined trace. -/
theorem sim_of_undisciplined (hΨ : ∀ seen c, ¬ Ψ seen c)
    {Φ : List (Moment M H) → Machine M H → Prop}
    {x : MachineM (Watched M H) H α} {y : MachineM M H α}
    (hxy : ∀ p, Sim True (SameParts (Watched.Shows p)) (SameParts (Watched.Shows p)) x y) :
    Sim False (Beside (Held Ψ)) (Beside (Granted Φ)) x y := by
  refine ⟨?_, False.elim⟩
  rintro s s' _ a ⟨rfl, hs⟩ h
  obtain ⟨ht, hseen⟩ := Watched.unwatched_ok hxy h
  refine ⟨_, ht, rfl, fun hdisciplined => ?_⟩
  rw [hseen] at hdisciplined
  exact absurd (hs hdisciplined) (hΨ _ _)

end

section

variable {Φ Φ' : Machine (Watched M H) H → Prop}

omit [AddressSpace M] in
/-- An instruction between two notes. -/
theorem noting_beside {Φ₁ Φ₁' : Machine (Watched M H) H → Prop}
    {x : MachineM (Watched M H) H Unit} {y : MachineM M H Unit}
    (hstart : ∀ s, Φ s → Φ₁ { s with memory.seen := .start s.unwatched :: s.memory.seen })
    (hxy : Sim False (Beside Φ₁) (Beside Φ₁') x y)
    (hfinish : ∀ s, Φ₁' s → Φ' { s with memory.seen := .finish s.unwatched :: s.memory.seen }) :
    Sim False (Beside Φ) (Beside Φ') (Machine.noting x) y := by
  refine ⟨?_, False.elim⟩
  rintro s s' _ _ ⟨rfl, hs⟩ h
  obtain ⟨_, s₁, hnote, h⟩ := bind_eq_ok_iff.mp h
  obtain ⟨_, s₂, hx, hnote'⟩ := bind_eq_ok_iff.mp h
  cases hnote
  cases hnote'
  obtain ⟨_, hy, rfl, hs₂⟩ := hxy.ok ⟨rfl, hstart s hs⟩ hx
  exact ⟨_, hy, rfl, hfinish s₂ hs₂⟩

/-- A return is made alike with and without notes.  It takes a frame off and
delivers the value. -/
theorem ret_watched {s s' : Machine (Watched M H) H} {value : UInt16}
    (h : Machine.ret value s = .ok () s') :
    Machine.ret value s.unwatched = .ok () s'.unwatched ∧ s'.memory.seen = s.memory.seen ∧
      ∃ kind c, Core.leave s.core = .ok kind c ∧
        Machine.deliver value kind { s with core := c } = .ok () s' := by
  obtain ⟨ht, hseen⟩ :=
    Watched.unwatched_ok (fun p => (SameParts.runSim (Watched.memorySim p)).ret value) h
  exact ⟨ht, hseen, Machine.ret_ok h⟩

/-- An instruction is decoded alike with and without notes, so it is enough to
know what its operation does. -/
theorem stepWith_beside [Host H] {run : MachineM (Watched M H) H UInt16}
    {run' : MachineM M H UInt16} (fuel : Nat)
    {Φ₁ : Instruction → Operation → Machine (Watched M H) H → Prop}
    (hdecode : ∀ s k i op, Φ s → Machine.decode s.unwatched = .ok i k.unwatched →
      k.memory.seen = s.memory.seen → Operation.ofOpcode? i.form i.opcode = some op → Φ₁ i op k)
    (hexecute : ∀ {i op}, Operation.ofOpcode? i.form i.opcode = some op →
      Sim False (Beside (Φ₁ i op)) (Beside Φ') (Machine.execute fuel run i op)
        (Machine.execute fuel run' i op)) :
    Sim False (Beside Φ) (Beside Φ') (Machine.stepWith fuel run) (Machine.stepWith fuel run') := by
  refine ⟨?_, False.elim⟩
  rintro s s' _ _ ⟨rfl, hs⟩ h
  obtain ⟨i, k, hwatched, h⟩ := bind_eq_ok_iff.mp h
  obtain ⟨hplain, hseen⟩ := Watched.unwatched_ok (fun p =>
    (SameParts.machineSim (Watched.memorySim p)).decode (SameParts.ofCore Core.pop)) hwatched
  rw [Machine.stepWith, bind_ok hplain]
  cases hop : Operation.ofOpcode? i.form i.opcode with
  | none =>
      simp only [hop] at h
      cases h
  | some op =>
      simp only [hop] at h ⊢
      exact (hexecute hop).ok ⟨rfl, hdecode s k i op hs hplain hseen hop⟩ h

end

section

variable {Φ Ψ : Moment M H → Core → Prop} {α : Type}

theorem Under.next {s s' : Machine (Watched M H) H} (hs : Under Φ s)
    (hsame : s'.memory.seen = s.memory.seen)
    (h : ∀ m, m.Disciplined → m.core.Framed → Φ m s.core → Ψ m s'.core) : Under Ψ s' := by
  refine Held.next hs hsame fun seen hseen hΦ => ?_
  obtain ⟨hlinked, m, hm, hΦ⟩ := hΦ
  have hmem := List.mem_of_mem_head? hm
  exact ⟨hlinked, m, hm, h m (hseen m hmem) (hlinked.1 m hmem) hΦ⟩

theorem under_ofCore {x : CoreM α}
    (hx : ∀ m c c' a, m.Disciplined → m.core.Framed → Φ m c → x c = .ok a c' → Ψ m c') :
    Sim False (Beside (Under Φ)) (Beside (Under Ψ)) (ofCore x) (ofCore x) := by
  refine held_ofCore fun seen c c' a hseen hΦ h => ?_
  obtain ⟨hlinked, m, hm, hΦ⟩ := hΦ
  have hmem := List.mem_of_mem_head? hm
  exact ⟨hlinked, m, hm, hx m c c' a (hseen m hmem) (hlinked.1 m hmem) hΦ h⟩

theorem under_machineSim (h : ∀ m, Core.Stable (Φ m)) : MachineSim False (Beside (Under Φ)) :=
  held_machineSim fun _ => .and (.const _) (.ofExists fun m => .and (.const _) (h m))

end

/-! ## Places -/

/-- About to call. -/
def Poised (m : Moment M H) (c : Core) : Prop :=
  ∃ k, m.caller? = some k ∧ c.pc = k.core.pc ∧ c.stack = k.core.stack ∧
    c.sp = k.core.sp ∧ c.fp = k.core.fp

/-- In the frame of the moment or in one that was entered from it, unless the
stack is full. -/
def Placed (m : Moment M H) (c : Core) : Prop :=
  c.sp = 0 ∨ Core.Level m.core c ∨
    ∃ k, m.caller? = some k ∧ Core.Level m.core k.core ∧ c.Framed ∧ Core.Entered k.core c

omit [AddressSpace M] in
theorem room_stable (r : Nat) (c₀ : Core) : Core.Stable (Room r c₀) where
  adjust _ hf h :=
    ⟨h.1.of_same (hf _).stack_eq (hf _).sp_eq (hf _).fp_eq, by
      rw [(hf _).sp_eq, (hf _).fp_eq]
      exact h.2⟩
  push h hpush := by
    refine ⟨h.1.push hpush, ?_⟩
    have hroom := h.2
    obtain ⟨-, rfl⟩ := Core.push_eq_ok_iff.mp hpush
    dsimp only
    omega
  writeLocal h hwrite := by
    refine ⟨h.1.writeLocal hwrite, ?_⟩
    obtain rfl := Core.writeLocal_ok hwrite
    exact h.2

omit [AddressSpace M] in
theorem Room.pop {r : Nat} {c₀ c c' : Core} {value : UInt16} (h : Room (r + 1) c₀ c)
    (hpop : Core.pop c = .ok value c') : Room r c₀ c' := by
  obtain ⟨hlevel, hroom⟩ := h
  refine ⟨hlevel.pop (by omega) hpop, ?_⟩
  obtain ⟨-, rfl⟩ := Core.pop_eq_ok_iff.mp hpop
  dsimp only
  omega

omit [AddressSpace M] in
theorem Room.replaceTop {r : Nat} {c₀ c c' : Core} {value : UInt16} (h : Room (r + 1) c₀ c)
    (hreplace : Core.replaceTop value c = .ok () c') : Room (r + 1) c₀ c' := by
  obtain ⟨hlevel, hroom⟩ := h
  refine ⟨hlevel.replaceTop (by omega) hreplace, ?_⟩
  obtain rfl := Core.replaceTop_ok hreplace
  exact hroom

/-- A step that stays in the frame keeps the place, if it leaves a full stack
full. -/
theorem Placed.next {m : Moment M H} {c c' : Core} (h : Placed m c)
    (hfull : c.sp = 0 → c'.sp = 0) (hlevel : ∀ {c₀}, Core.Level c₀ c → Core.Level c₀ c') :
    Placed m c' := by
  rcases h with h | h | ⟨k, hk, hcaller, hframed, hentered⟩
  · exact .inl (hfull h)
  · exact .inr (.inl (hlevel h))
  · have hsame := hlevel (.refl hframed)
    have hentered' := hentered.of_sameAbove hsame.fp_eq hsame.above
    exact .inr (.inr ⟨k, hk, hcaller, hsame.framed, hentered'⟩)

theorem placed_stable (m : Moment M H) : Core.Stable (Placed m) where
  adjust _ hf h := by
    refine h.next (fun hfull => (hf _).sp_eq.trans hfull) fun hlevel => ?_
    exact hlevel.of_same (hf _).stack_eq (hf _).sp_eq (hf _).fp_eq
  push h hpush := by
    refine h.next (fun hfull => ?_) fun hlevel => hlevel.push hpush
    obtain ⟨hpos, -⟩ := Core.push_eq_ok_iff.mp hpush
    exact absurd hfull (Nat.ne_of_gt hpos)
  writeLocal h hwrite := by
    refine h.next (fun hfull => ?_) fun hlevel => hlevel.writeLocal hwrite
    obtain rfl := Core.writeLocal_ok hwrite
    exact hfull

theorem Poised.level {m : Moment M H} {c : Core} (h : Poised m c) (hm : m.Disciplined)
    (hframed : m.core.Framed) : Core.Level m.core c := by
  obtain ⟨k, hk, -, hstack, hsp, hfp⟩ := h
  exact (hm.level hframed hk).of_same hstack hsp hfp

theorem Under.level_of_poised {s : Machine (Watched M H) H} (hs : Under Poised s) :
    Under (fun m => Room 0 m.core) s := by
  refine hs.next rfl fun m hm hframed h => ?_
  have hlevel := h.level hm hframed
  exact ⟨hlevel, hlevel.framed.sp_le⟩

theorem Under.placed_of_room {s : Machine (Watched M H) H} {r : Nat}
    (hs : Under (fun m => Room r m.core) s) : Under Placed s :=
  hs.next rfl fun _ _ _ h => .inr (.inl h.1)

theorem Under.ready {s : Machine (Watched M H) H} (hs : Under Placed s) : Ready s := by
  intro hseen
  obtain ⟨hlinked, m, hm, hplaced⟩ := hs hseen
  refine ⟨hlinked, ?_⟩
  have honly : ∀ w, Link m w → ∀ m' ∈ s.memory.seen.head?, Link m' w := by
    intro w hw m' hm'
    rwa [← Option.mem_unique hm hm']
  rcases hplaced with hfull | hlevel | ⟨k, hk, hcaller, hframed, hentered⟩
  · exact .inl hfull
  · exact .inr ⟨hlevel.framed, honly _ (.of_level hlevel)⟩
  · exact .inr ⟨hframed, honly _ (.of_entered hk hcaller hentered)⟩

end ZMachine
