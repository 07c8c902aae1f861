import Mathlib.Logic.Relation
import ZMachine.Host.Transcript
import ZMachine.Proofs.Frame.Trace

/-!
# Accesses to the stack

Frames are plain words of the stack.  A story may take them off and put others
in their place, or throw to any number, so the frame pointer of a run can lead
anywhere and nothing is said here about what it finds there.  But a return
looks at the pointer that it takes up, and a throw to a place outside fails on
the words it does not find.

`Access` is one access inside the stack, and whatever a run does to the core is
a sequence of such accesses.  `Guarded` says what the operations on the stack do
from a core that is reached: the only index outside is that of the argument
count of the outermost routine, which has none.
-/

namespace ZMachine

open MachineM

namespace Core

structure Bounded (c : Core) : Prop where
  sp_le : c.sp ≤ stackSize
  fp_lt : c.fp < stackSize

/-- One access to the stack, at an index inside it, or a change of other parts
of the core. -/
inductive Access : Core → Core → Prop where
  | adjust {c c' : Core} (hstack : c'.stack = c.stack) (hsp : c'.sp = c.sp) (hfp : c'.fp = c.fp) :
      Access c c'
  | push {c : Core} {i : Nat} (value : UInt16) (hsp : c.sp = i + 1) (hi : i < stackSize) :
      Access c { c with sp := i, stack := c.stack.setIfInBounds i value }
  | pop {c : Core} (hsp : c.sp < stackSize) : Access c { c with sp := c.sp + 1 }
  | write {c : Core} {i : Nat} (value : UInt16) (hi : i < stackSize) :
      Access c { c with stack := c.stack.setIfInBounds i value }
  /-- Another frame becomes the current one. -/
  | frame {c : Core} {sp fp : Nat} (hsp : sp ≤ stackSize) (hfp : fp < stackSize) :
      Access c { c with sp, fp }

/-- Any number of accesses. -/
def Reaches : Core → Core → Prop :=
  Relation.ReflTransGen Access

theorem Access.bounded {c c' : Core} (h : Access c c') (hc : c.Bounded) : c'.Bounded := by
  obtain ⟨hsp, hfp⟩ := hc
  cases h with
  | adjust _ hsp' hfp' => exact ⟨hsp' ▸ hsp, hfp' ▸ hfp⟩
  | push _ _ hi => exact ⟨Nat.le_of_lt hi, hfp⟩
  | pop hlt => exact ⟨hlt, hfp⟩
  | write => exact ⟨hsp, hfp⟩
  | frame hsp' hfp' => exact ⟨hsp', hfp'⟩

theorem Reaches.bounded {c c' : Core} (h : Reaches c c') (hc : c.Bounded) : c'.Bounded := by
  induction h with
  | refl => exact hc
  | tail _ haccess ih => exact haccess.bounded ih

/-! ## Computations on the core -/

/-- A computation that, from a core within bounds, makes only accesses inside
the stack when it succeeds. -/
def StaysInside {α : Type} (x : CoreM α) : Prop :=
  ∀ c c' a, c.Bounded → x c = .ok a c' → Reaches c c'

namespace StaysInside

variable {α β : Type}

theorem bind {x : CoreM α} {f : α → CoreM β} (hx : StaysInside x)
    (hf : ∀ a, StaysInside (f a)) : StaysInside (x >>= f) := by
  intro c c' b hc h
  obtain ⟨a, c₁, hfirst, hrest⟩ := bind_eq_ok_iff.mp h
  have hreach := hx c c₁ a hc hfirst
  exact hreach.trans (hf a c₁ c' b (hreach.bounded hc) hrest)

theorem push (value : UInt16) : StaysInside (Core.push value) := by
  intro c c' _ hc h
  obtain ⟨hpos, rfl⟩ := push_eq_ok_iff.mp h
  have hle := hc.sp_le
  exact .single (.push value (by omega) (by omega))

theorem pop : StaysInside Core.pop := by
  intro c c' value _ h
  obtain ⟨hword, rfl⟩ := pop_eq_ok_iff.mp h
  obtain ⟨hlt, -⟩ := Vector.getElem?_eq_some_iff.mp hword
  exact .single (.pop hlt)

theorem replaceTop (value : UInt16) : StaysInside (Core.replaceTop value) := by
  intro c c' _ _ h
  unfold Core.replaceTop at h
  split at h <;> cases h
  next hlt => exact .single (.write value hlt)

theorem writeLocal (n : Nat) (value : UInt16) : StaysInside (Core.writeLocal n value) := by
  intro c c' _ hc h
  obtain rfl := writeLocal_ok h
  exact .single (.write value (Nat.lt_of_le_of_lt (Nat.sub_le _ _) hc.fp_lt))

theorem change {f : Core → Core} (hf : ∀ c, c.Bounded → Access c (f c)) :
    StaysInside (modify f) := by
  intro c c' _ hc h
  cases h
  exact .single (hf c hc)

/-- The registers are set, and the rest is no access. -/
theorem reset {f : Core → Core} (hf : IsReset f) : StaysInside (modify f) := by
  intro c c' _ hc h
  cases h
  obtain ⟨hstack, hsp, hfp, -⟩ := hf c
  have hempty : Access c { c with sp := stackSize, fp := stackSize - 1 } :=
    .frame (Nat.le_refl _) (by decide)
  exact Relation.ReflTransGen.tail (.single hempty) (.adjust hstack hsp hfp)

/-- The new frame pointer is the index below the stack pointer. -/
theorem enter (arguments : Nat) (kind : CallKind) : StaysInside (Core.enter arguments kind) := by
  have hget : StaysInside (get : CoreM Core) := by
    rintro c _ _ - ⟨⟩
    exact .refl
  refine hget.bind fun c => ?_
  iterate 4 refine (push _).bind fun _ => ?_
  intro c c' _ hc h
  obtain ⟨hpos, rfl⟩ := placeFrame_eq_ok_iff.mp h
  have hle := hc.sp_le
  exact .single (.frame hle (by omega))

/-- The saved frame pointer is looked at before it is taken up. -/
theorem leave : StaysInside Core.leave := by
  refine (change fun c hc => .frame hc.fp_lt hc.fp_lt).bind fun _ => ?_
  refine pop.bind fun word => pop.bind fun fp => pop.bind fun low => pop.bind fun high => ?_
  intro c c' _ hc h
  split at h
  next => cases h
  next hfp =>
    cases h
    have hframe : Access c { c with fp := fp.toNat } := .frame hc.sp_le (Nat.not_le.mp hfp)
    exact Relation.ReflTransGen.tail (.single hframe) (.adjust rfl rfl rfl)

/-- A return finds the words of a frame above the frame pointer, wherever that
came from. -/
theorem fp_lt_of_leave {c c' : Core} {kind : CallKind} (h : Core.leave c = .ok kind c') :
    c.fp < stackSize := by
  obtain ⟨word, fp, low, high, hword, -⟩ := leave_ok h
  obtain ⟨hlt, -⟩ := Vector.getElem?_eq_some_iff.mp hword
  omega

theorem unwind (fp : Nat) : StaysInside (Core.unwind fp) := by
  intro c c' kind hc h
  obtain ⟨_, c₁, hset, hleave⟩ := bind_eq_ok_iff.mp h
  cases hset
  have hframe : Access c { c with fp } := .frame hc.sp_le (fp_lt_of_leave hleave)
  exact .head hframe (leave _ _ _ (hframe.bounded hc) hleave)

end StaysInside

/-! ## What accesses look at -/

/-- What the accesses from this core come to, told by indices of the stack.  A
push, a pop or an access to a local is refused before it looks at the stack, or
it is made at an index inside.  The number of arguments is looked up in the word
above the frame pointer.  With the frame pointer at the last word, as in the
outermost routine, this is one word too far, and the number counts as 0. -/
structure Guarded (c : Core) : Prop where
  push : ∀ value, (c.sp = 0 ∧ Core.push value c = .error .stackOverflow c) ∨
    ∃ i : Fin stackSize, c.sp = i + 1 ∧
      Core.push value c = .ok () { c with sp := i, stack := c.stack.set i value i.isLt }
  pop : (c.sp = stackSize ∧ Core.pop c = .error .stackUnderflow c) ∨
    ∃ i : Fin stackSize, c.sp = i ∧ Core.pop c = .ok (c.stack.get i) { c with sp := i + 1 }
  readLocal : ∀ n, (c.fp < n - 1 ∧ Core.readLocal n c = .error .stackOverflow c) ∨
    ∃ i : Fin stackSize, c.fp = i + (n - 1) ∧ Core.readLocal n c = .ok (c.stack.get i) c
  writeLocal : ∀ n value,
    (c.fp < n - 1 ∧ Core.writeLocal n value c = .error .stackOverflow c) ∨
      ∃ i : Fin stackSize, c.fp = i + (n - 1) ∧
        Core.writeLocal n value c = .ok () { c with stack := c.stack.set i value i.isLt }
  argumentCount : ∀ {M H : Type} [AddressSpace M] (s : Machine M H) (n : UInt16), s.core = c →
    (c.fp + 1 = stackSize ∧ Machine.checkArgumentCount n s = Machine.branch (n ≤ 0) s) ∨
      ∃ i : Fin stackSize, c.fp + 1 = i ∧
        Machine.checkArgumentCount n s = Machine.branch (n ≤ c.stack.get i &&& 0x00ff) s

theorem stack_get (c : Core) (i : Fin stackSize) : c.stack[i.val]? = some (c.stack.get i) :=
  Vector.getElem?_eq_getElem i.isLt

theorem stack_set (c : Core) (i : Fin stackSize) (value : UInt16) :
    c.stack.setIfInBounds i value = c.stack.set i value i.isLt := by
  ext j hj
  rw [Vector.getElem_setIfInBounds hj, Vector.getElem_set]

theorem Bounded.guarded {c : Core} (hc : c.Bounded) : c.Guarded where
  push value := by
    have hle := hc.sp_le
    by_cases hzero : c.sp = 0
    · exact .inl ⟨hzero, if_pos hzero⟩
    · refine .inr ⟨⟨c.sp - 1, by omega⟩, by dsimp only; omega, ?_⟩
      rw [← stack_set]
      exact if_neg hzero
  pop := by
    by_cases hinside : c.sp < stackSize
    · exact .inr ⟨⟨c.sp, hinside⟩, rfl, pop_eq_ok_iff.mpr ⟨stack_get c ⟨c.sp, hinside⟩, rfl⟩⟩
    · have hend := Nat.le_antisymm hc.sp_le (Nat.not_lt.mp hinside)
      exact .inl ⟨hend, pop_of_ge (Nat.le_of_eq hend.symm)⟩
  readLocal n := by
    have hlt := hc.fp_lt
    rw [readLocal_eq]
    by_cases hn : n - 1 ≤ c.fp
    · let i : Fin stackSize := ⟨c.fp - (n - 1), by omega⟩
      refine .inr ⟨i, (Nat.sub_add_cancel hn).symm, ?_⟩
      rw [if_pos hn, show c.stack[c.fp - (n - 1)]? = _ from stack_get c i]
    · exact .inl ⟨Nat.not_le.mp hn, if_neg hn⟩
  writeLocal n value := by
    have hlt := hc.fp_lt
    rw [writeLocal_eq]
    by_cases hn : n - 1 ≤ c.fp
    · let i : Fin stackSize := ⟨c.fp - (n - 1), by omega⟩
      refine .inr ⟨i, (Nat.sub_add_cancel hn).symm, ?_⟩
      rw [if_pos hn, if_pos i.isLt, ← stack_set]
    · exact .inl ⟨Nat.not_le.mp hn, if_neg hn⟩
  argumentCount s n hs := by
    subst hs
    have hcheck : Machine.checkArgumentCount n s =
        Machine.branch (n ≤ s.core.stack[s.core.fp + 1]?.getD 0 &&& 0x00ff) s := rfl
    rw [hcheck]
    by_cases hinside : s.core.fp + 1 < stackSize
    · refine .inr ⟨⟨s.core.fp + 1, hinside⟩, rfl, ?_⟩
      rw [show s.core.stack[s.core.fp + 1]? = _ from stack_get s.core ⟨_, hinside⟩]
      rfl
    · have hend := Nat.le_antisymm hc.fp_lt (Nat.not_lt.mp hinside)
      refine .inl ⟨hend, ?_⟩
      rw [Vector.getElem?_eq_none (Nat.le_of_eq hend.symm)]
      rfl

end Core

/-! ## Runs -/

variable {M N H : Type} [AddressSpace M] [AddressSpace N]

theorem Sim.keepingOk {ε σ₁ σ₂ α : Type} {P : σ₁ → σ₂ → Prop} {I : σ₁ → Prop}
    {x : EStateM ε σ₁ α} {y : EStateM ε σ₂ α} (h : Sim True P P x y)
    (hI : ∀ {s s' a}, I s → x s = .ok a s' → I s') :
    Sim False (fun s t => P s t ∧ I s) (fun s t => P s t ∧ I s) x y where
  ok hst hx := by
    obtain ⟨t', hy, hst'⟩ := h.ok hst.1 hx
    exact ⟨t', hy, hst', hI hst.2 hx⟩
  error := False.elim

/-- Machines that differ in their memories only, in cores that are reached by
accesses inside the stack. -/
theorem frameSim_reaches {R : M → N → Prop} (hR : MemorySim True R) {start : Core}
    (hstart : start.Bounded) :
    FrameSim False fun (s : Machine M H) (t : Machine N H) =>
      SameParts R s t ∧ start.Reaches s.core := by
  have h := SameParts.machineSim (H := H) hR
  have hcore : ∀ {α : Type} {x : CoreM α}, Core.StaysInside x →
      Sim False (fun (s : Machine M H) (t : Machine N H) => SameParts R s t ∧ start.Reaches s.core)
        (fun s t => SameParts R s t ∧ start.Reaches s.core) (ofCore x) (ofCore x) := by
    intro α x hx
    apply Sim.keepingOk (SameParts.ofCore x)
    intro s s' a hs hok
    obtain ⟨core, hcore, rfl⟩ := ofCore_eq_ok_iff.mp hok
    exact hs.trans (hx _ _ _ (hs.bounded hstart) hcore)
  refine {
    core_eq := fun _ _ hst => hst.1.core
    host_eq := fun _ _ hst => hst.1.host
    ofMemory := fun hxy => (h.ofMemory hxy).keepingOk fun hs hok => ?_
    ofHost := fun x => (h.ofHost x).keepingOk fun hs hok => ?_
    setHost := fun f => (h.setHost f).keepingOk fun hs hok => ?_
    movePc := fun f => hcore <|
      .change (f := fun c => { c with pc := f c.pc }) fun _ _ => .adjust rfl rfl rfl
    adjust := fun f hf => hcore <|
      .change fun c _ => .adjust (hf c).stack_eq (hf c).sp_eq (hf c).fp_eq
    push := fun value => hcore (.push value)
    writeLocal := fun n value => hcore (.writeLocal n value)
    pop := hcore .pop
    replaceTop := fun value => hcore (.replaceTop value)
    enter := fun arguments kind => hcore (.enter arguments kind)
    leave := hcore .leave
    unwind := fun fp => hcore (.unwind fp)
    reset := fun f hf => hcore (.reset hf)
    setRun := fun state value => hcore <|
      .change (f := fun c => { c with runState := state, status := value })
        fun _ _ => .adjust rfl rfl rfl }
  · obtain ⟨_, -, rfl⟩ := ofMemory_eq_ok_iff.mp hok
    exact hs
  · obtain ⟨_, -, rfl⟩ := ofHost_eq_ok_iff.mp hok
    exact hs
  · cases hok
    exact hs

omit [AddressSpace N] in
theorem bounded_load {settings : Settings} {entropy : Entropy} {host : H} {memory : M}
    {s : Machine M H} (h : Machine.load settings entropy host memory = .ok s) :
    s.core.Bounded := by
  unfold Machine.load at h
  dsimp only at h
  split at h <;> cases h
  have hlast : stackSize - 1 < stackSize := by decide
  exact ⟨Nat.le_refl _, hlast⟩

variable [Host H]

omit [Host H] in
theorem Moment.decode_of_decoded (m : Moment M H) {i : Instruction} {k : Machine M H}
    (h : (i, k) ∈ m.decoded?) : Machine.decode m.machine = .ok i k := by
  cases m with
  | finish t => cases h
  | start t =>
      cases hdecode : Machine.decode t with
      | ok i' k' =>
          simp only [decoded?, hdecode, Option.mem_def] at h
          cases h
          exact hdecode
      | error e t' =>
          simp only [decoded?, hdecode, Option.mem_def] at h
          cases h

/-- The moments of a run are reached by accesses inside the stack. -/
theorem reaches_moments {s s' : Machine M H} (hs : s.core.Bounded) {fuels : List Nat}
    (hrun : fuels.forM Machine.step s = .ok () s') :
    ∀ m ∈ Machine.trace fuels s, s.core.Reaches m.core := by
  let p : List (Moment M H) → Prop := fun seen => ∀ m ∈ seen, s.core.Reaches m.core
  have hnote : ∀ moment : Machine M H → Moment M H, (∀ t, (moment t).machine = t) →
      Sim False (fun w t => SameParts (Watched.Shows p) w t ∧ s.core.Reaches w.core)
        (fun w t => SameParts (Watched.Shows p) w t ∧ s.core.Reaches w.core)
        (Machine.note moment) (pure ()) := by
    intro moment hmoment
    constructor
    · intro w w' t _ hwt h
      cases h
      obtain ⟨⟨⟨hmemory, hseen⟩, hhost, hcore⟩, hreach⟩ := hwt
      refine ⟨t, rfl, ⟨⟨hmemory, ?_⟩, hhost, hcore⟩, hreach⟩
      refine List.forall_mem_cons.mpr ⟨?_, hseen⟩
      rw [Moment.core, hmoment]
      exact hreach
    · exact False.elim
  have hsim := Sim.forM (l := fuels) <|
    Watched.watchedStep_sim hnote (frameSim_reaches (Watched.memorySim p) hs)
  obtain ⟨w, hw, -⟩ := Watched.forM_watchedStep (s := s.watch) hrun
  have hstart : SameParts (Watched.Shows p) s.watch s :=
    ⟨⟨rfl, fun _ hm => by cases hm⟩, rfl, rfl⟩
  obtain ⟨_, -, ⟨⟨-, hseen⟩, -, -⟩, -⟩ := hsim.ok ⟨hstart, .refl⟩ hw
  intro m hm
  rw [Machine.trace, hw] at hm
  exact hseen m (List.mem_reverse.mp hm)

/-- From a loaded machine on, whatever the story and the host do, a run changes
the stack by accesses inside it only, in nested runs and in the middle of
instructions as well.  Wherever such accesses lead, the pointers are within
their bounds and the next access is refused or inside the stack, but for the
number of arguments of a routine whose frame pointer is at the last word. -/
theorem stack_accesses_inside {settings : Settings} {entropy : Entropy} {host : H} {memory : M}
    {s s' : Machine M H} (hload : Machine.load settings entropy host memory = .ok s)
    {fuels : List Nat} (hrun : fuels.forM Machine.step s = .ok () s') :
    (∀ n s₁, (fuels.take n).forM Machine.step s = .ok () s₁ → s.core.Reaches s₁.core) ∧
      (∀ m ∈ Machine.trace fuels s, s.core.Reaches m.core ∧
        ∀ next ∈ m.decoded?, s.core.Reaches next.2.core) ∧
      ∀ c, s.core.Reaches c →
        c.stack.toArray.size = stackSize ∧ c.sp ≤ stackSize ∧ c.fp < stackSize ∧ c.Guarded := by
  have hbounded := bounded_load hload
  have hframe : FrameSim False
      fun (t t' : Machine M H) => SameParts Eq t t' ∧ s.core.Reaches t.core :=
    frameSim_reaches MemorySim.refl hbounded
  refine ⟨?_, ?_, ?_⟩
  · intro n s₁ hprefix
    have hsteps := Sim.forM (l := fuels.take n) hframe.step
    obtain ⟨_, -, -, hreach⟩ := hsteps.ok ⟨⟨rfl, rfl, rfl⟩, .refl⟩ hprefix
    exact hreach
  · intro m hm
    have hreach := reaches_moments hbounded hrun m hm
    refine ⟨hreach, ?_⟩
    intro next hnext
    obtain ⟨i, k⟩ := next
    have hdecode := m.decode_of_decoded hnext
    obtain ⟨_, -, -, hloaded⟩ := (hframe.decode hframe.pop).ok ⟨⟨rfl, rfl, rfl⟩, hreach⟩ hdecode
    exact hloaded
  · intro c hc
    obtain ⟨hsp, hfp⟩ := hc.bounded hbounded
    exact ⟨c.stack.size_toArray, hsp, hfp, Core.Bounded.guarded ⟨hsp, hfp⟩⟩

/-- A story whose routine takes the saved frame pointer off the stack, puts 5
in its place and returns.  Its caller then adds to a local, which is a word at
the far end of the stack. -/
def forgingStory : Image :=
  let bytes : Array UInt8 :=
    Array.replicate 64 0 ++ #[0xE0, 0x7F, 20, 0, 0x54, 1, 1, 1] ++ Array.replicate 8 0 ++
      #[0, 0xE9, 0x7F, 16, 0xE9, 0x7F, 16, 0xE8, 0x7F, 5, 0xE8, 0x7F, 0, 0xB0] ++
      Array.replicate 10 0
  ⟨bytes.set! 0 5 |>.set! 7 64 |>.set! 13 100⟩

def frameForger : Except Fault (Machine Image Transcript) :=
  Machine.load { randomSeed := some 1 } ⟨fun _ => 0, 0⟩ {} forgingStory

theorem stack_accesses_inside_forged_frame :
    ∃ s s', frameForger = .ok s ∧ (List.replicate 7 1).forM Machine.step s = .ok () s' ∧
      s'.core.fp = 5 ∧ s'.core.stack[5]? = some 1 ∧
      (∃ i : Fin stackSize, s'.core.fp = i ∧
        Core.readLocal 1 s'.core = .ok (s'.core.stack.get i) s'.core) ∧
      (Machine.trace (List.replicate 7 1) s).length = 14 ∧
      ∀ m ∈ Machine.trace (List.replicate 7 1) s,
        m.core.sp ≤ stackSize ∧ m.core.fp < stackSize := by
  obtain ⟨s, hs, hcheck⟩ := exists_of_givesOk (x := frameForger)
    (p := fun s => reachesOk ((List.replicate 7 1).forM Machine.step s) fun _ s' =>
      decide (s'.core.fp = 5 ∧ s'.core.stack[5]? = some 1 ∧
        (Machine.trace (List.replicate 7 1) s).length = 14)) (by decide +kernel)
  obtain ⟨_, s', hrun, hcheck'⟩ := exists_of_reachesOk hcheck
  obtain ⟨hfp, hword, hlength⟩ := of_decide_eq_true hcheck'
  obtain ⟨hsteps, hmoments, hinside⟩ := stack_accesses_inside hs hrun
  obtain ⟨-, -, -, hguarded⟩ := hinside s'.core (hsteps 7 s' hrun)
  refine ⟨s, s', hs, hrun, hfp, hword, ?_, hlength, fun m hm => ?_⟩
  · exact (hguarded.readLocal 1).resolve_left fun hrefused => Nat.not_lt_zero _ hrefused.1
  · obtain ⟨-, hsp, hfp, -⟩ := hinside m.core (hmoments m hm).1
    exact ⟨hsp, hfp⟩

/-- A story that begins with the question whether it has one argument. -/
def askingStory : Except Fault (Machine Image Transcript) :=
  let bytes : Array UInt8 := Array.replicate 64 0 ++ #[0xFF, 0x7F, 1, 0xC5, 0xBA]
  Machine.load { randomSeed := some 1 } ⟨fun _ => 0, 0⟩ {}
    (Image.mk (bytes.set! 0 5 |>.set! 7 64))

/-- The outermost routine has no word for the number of its arguments.  The check
looks behind the end of the stack, and the step succeeds. -/
theorem argument_count_behind_stack :
    ∃ s i k s', askingStory = .ok s ∧ Machine.decode s = .ok i k ∧
      Operation.ofOpcode? i.form i.opcode = some .checkArgumentCount ∧
      ¬ k.core.fp + 1 < stackSize ∧ k.core.stack[k.core.fp + 1]? = none ∧
      Machine.step 1 s = .ok () s' ∧ Machine.checkArgumentCount 1 k = .ok () s' := by
  obtain ⟨s, hs, hcheck⟩ := exists_of_givesOk (x := askingStory)
    (p := fun s => reachesOk (Machine.decode s) fun i k =>
      decide (Operation.ofOpcode? i.form i.opcode = some .checkArgumentCount ∧
        k.core.fp = stackSize - 1 ∧ i.operands.get 0 = 1 ∧
        (outcome (Machine.checkArgumentCount 1 k)).toOption = some ())) (by decide +kernel)
  obtain ⟨i, k, hdecode, hcheck'⟩ := exists_of_reachesOk hcheck
  obtain ⟨hoperation, hfp, hoperand, hchecked⟩ := of_decide_eq_true hcheck'
  have hstep : Machine.step 1 s = Machine.checkArgumentCount 1 k := by
    rw [Machine.step, Machine.stepWith, bind_ok hdecode, hoperation, ← hoperand]
    rfl
  have hbehind : k.core.fp + 1 = stackSize := by
    rw [hfp]
    rfl
  refine ⟨s, i, k, _, hs, hdecode, hoperation, Nat.not_lt.mpr (Nat.le_of_eq hbehind.symm),
    Vector.getElem?_eq_none (Nat.le_of_eq hbehind.symm), ?_, eq_ok_reached hchecked⟩
  rw [hstep]
  exact eq_ok_reached hchecked

end ZMachine
