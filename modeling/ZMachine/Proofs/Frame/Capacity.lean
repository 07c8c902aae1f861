import ZMachine.Host.Transcript
import ZMachine.Proofs.Frame.Chain
import ZMachine.Proofs.Image
import ZMachine.Proofs.Simulation.Run

/-!
# Room for calls

The frame of a call takes four words and one more for each local.  A call
fails with a stack overflow if there is less room.  There is one more case: if
exactly four words are left, they all go to the frame, and there is no place
for the frame pointer below them.

`calls_fill_stack` says so for one call and for any chain of nested calls,
which ends in one of the two ways if it is long enough.
-/

namespace ZMachine

open MachineM

/-! ## Frames -/

namespace Core

variable {c : Core} {arguments : Nat} {kind : CallKind}

theorem push_of_pos (h : 0 < c.sp) (value : UInt16) :
    push value c =
      .ok () { c with sp := c.sp - 1, stack := c.stack.setIfInBounds (c.sp - 1) value } :=
  if_neg (Nat.ne_of_gt h)

theorem push_of_full (h : c.sp = 0) (value : UInt16) : push value c = .error .stackOverflow c :=
  if_pos h

/-- With room for its four words, all that a frame still needs is its place. -/
theorem enter_of_ge (arguments : Nat) (kind : CallKind) (h : 4 ≤ c.sp) :
    ∃ c', c'.sp + 4 = c.sp ∧ enter arguments kind c = placeFrame c' := by
  unfold enter
  rw [bind_ok (rfl : (get : CoreM Core) c = .ok c c)]
  rw [bind_ok (push_of_pos (by omega) _)]
  iterate 3 rw [bind_ok (push_of_pos (by dsimp only; omega) _)]
  exact ⟨_, by dsimp only; omega, rfl⟩

theorem enter_of_gt (arguments : Nat) (kind : CallKind) (h : 4 < c.sp) :
    ∃ c', enter arguments kind c = .ok () c' := by
  obtain ⟨c', hsp, henter⟩ := enter_of_ge arguments kind (Nat.le_of_lt h)
  rw [henter]
  exact ⟨_, if_neg (by omega)⟩

theorem enter_of_eq (arguments : Nat) (kind : CallKind) (h : c.sp = 4) :
    ∃ c', enter arguments kind c = .error .registerUnderflow c' := by
  obtain ⟨c', hsp, henter⟩ := enter_of_ge arguments kind (Nat.le_of_eq h.symm)
  rw [henter]
  exact ⟨_, if_pos (by omega)⟩

theorem enter_of_lt (arguments : Nat) (kind : CallKind) (h : c.sp < 4) :
    ∃ c', enter arguments kind c = .error .stackOverflow c' := by
  unfold enter
  rw [bind_ok (rfl : (get : CoreM Core) c = .ok c c)]
  rcases Nat.eq_zero_or_pos c.sp with hzero | hpos
  · exact ⟨_, bind_error (push_of_full hzero _)⟩
  rw [bind_ok (push_of_pos hpos _)]
  by_cases hone : c.sp = 1
  · exact ⟨_, bind_error (push_of_full (by dsimp only; omega) _)⟩
  rw [bind_ok (push_of_pos (by dsimp only; omega) _)]
  by_cases htwo : c.sp = 2
  · exact ⟨_, bind_error (push_of_full (by dsimp only; omega) _)⟩
  rw [bind_ok (push_of_pos (by dsimp only; omega) _)]
  exact ⟨_, bind_error (push_of_full (by dsimp only; omega) _)⟩

/-- The second core has the four words of a frame that the first one made. -/
structure FrameWords (arguments : Nat) (kind : CallKind) (c c' : Core) : Prop where
  fp_eq : c'.fp + 5 = c.sp
  header_eq : c'.header = c.header
  word_eq : c'.stack[c'.fp + 1]? = some (UInt16.ofNat (arguments % 256) ||| kind.bits)
  saved_eq : c'.stack[c'.fp + 2]? = some (UInt16.ofNat c.fp)
  low_eq : c'.stack[c'.fp + 3]? = some (UInt16.ofNat c.pc.toNat)
  high_eq : c'.stack[c'.fp + 4]? = some (UInt16.ofNat (c.pc.toNat / 0x10000))
  above : ∀ j, c.sp ≤ j → c'.stack[j]? = c.stack[j]?

theorem frameWords_of_enter {c' : Core} (hsize : c.sp ≤ stackSize)
    (h : enter arguments kind c = .ok () c') :
    c'.sp = c'.fp + 1 ∧ FrameWords arguments kind c c' := by
  obtain ⟨hfive, stack, rfl, hword, hsaved, hlow, hhigh, habove⟩ := enter_ok hsize h
  have hindices : c.sp - 5 + 1 = c.sp - 4 ∧ c.sp - 5 + 2 = c.sp - 3 ∧ c.sp - 5 + 3 = c.sp - 2 ∧
      c.sp - 5 + 4 = c.sp - 1 := by omega
  obtain ⟨h₁, h₂, h₃, h₄⟩ := hindices
  refine ⟨h₁.symm, Nat.sub_add_cancel hfive, rfl, ?_, ?_, ?_, ?_, habove⟩ <;> dsimp only
  · rw [h₁, hword]
  · rw [h₂, hsaved]
  · rw [h₃, hlow]
  · rw [h₄, hhigh]

theorem FrameWords.of_sameAbove {c' c'' : Core} (h : FrameWords arguments kind c c')
    (hfp : c''.fp = c'.fp) (hheader : c''.header = c'.header)
    (hsame : SameAbove c'.fp c''.stack c'.stack) : FrameWords arguments kind c c'' := by
  have hsp := h.fp_eq
  constructor
  · rw [hfp, hsp]
  · rw [hheader, h.header_eq]
  · rw [hfp, hsame _ (by omega), h.word_eq]
  · rw [hfp, hsame _ (by omega), h.saved_eq]
  · rw [hfp, hsame _ (by omega), h.low_eq]
  · rw [hfp, hsame _ (by omega), h.high_eq]
  · intro j hj
    rw [hsame j (by omega), h.above j hj]

end Core

/-! ## Locals -/

/-- Bytes of the initial values of `n` locals. -/
def initialBytes (version : UInt8) (n : Nat) : Nat :=
  if 4 < version then 0 else 2 * n

/-- The initial value of the local with `i` others before it. -/
def Image.initialLocal (image : Image) (version : UInt8) (address i : Nat) : UInt16 :=
  if 4 < version then 0 else image.wordAt (address + 2 * i)

theorem Image.initialLocal_succ (image : Image) (version : UInt8) (address i : Nat) :
    image.initialLocal version address (i + 1) =
      image.initialLocal version (address + initialBytes version 1) i := by
  unfold initialLocal initialBytes
  split
  · rfl
  · rw [Nat.mul_add, Nat.add_comm (2 * i), Nat.add_assoc]

theorem initialBytes_succ (version : UInt8) (n : Nat) :
    initialBytes version (n + 1) = initialBytes version 1 + initialBytes version n := by
  unfold initialBytes
  split <;> omega

theorem pushLocals_succ {M H : Type} [AddressSpace M] (n : Nat) (arguments : List UInt16) :
    (Machine.pushLocals (n + 1) arguments : MachineM M H Unit) =
      (do
        let v ← version
        let initial ← (if 4 < v then pure 0 else Machine.fetchWord : MachineM M H UInt16)
        ofCore (Core.push (arguments.headD initial))
        Machine.pushLocals n arguments.tail) := by
  funext s
  rw [Machine.pushLocals, bind_ok (rfl : version s = .ok s.core.header.version s),
    bind_ok (rfl : version s = .ok s.core.header.version s)]
  split <;> rfl

section

variable {H : Type} {s : Machine Image H}

theorem fetchByte_image (h : s.core.pc.toNat < s.memory.bytes.size) :
    Machine.fetchByte s =
      .ok (s.memory.byteAt s.core.pc.toNat) { s with core.pc := s.core.pc + 1 } := by
  have hread : (ofMemory (Memory.readByte s.core.pc.toNat) : MachineM Image H UInt8) s =
      .ok (s.memory.byteAt s.core.pc.toNat) s :=
    ofMemory_eq_ok_iff.mpr ⟨_, Image.readByte_of_lt h, rfl⟩
  unfold Machine.fetchByte
  rw [bind_ok (rfl : getCore s = .ok s.core s), bind_ok hread]
  rfl

theorem fetchWord_image (h : s.core.pc.toNat + 1 < s.memory.bytes.size) :
    Machine.fetchWord s =
      .ok (s.memory.wordAt s.core.pc.toNat) { s with core.pc := s.core.pc + 2 } := by
  have hread : (ofMemory (Memory.readWord s.core.pc.toNat) : MachineM Image H UInt16) s =
      .ok (s.memory.wordAt s.core.pc.toNat) s :=
    ofMemory_eq_ok_iff.mpr ⟨_, Image.readWord_of_lt h, rfl⟩
  unfold Machine.fetchWord
  rw [bind_ok (rfl : getCore s = .ok s.core s), bind_ok hread]
  rfl

/-- The next initial value, if the code has it. -/
theorem fetchInitial_image
    (hcode : s.core.pc.toNat + initialBytes s.core.header.version 1 ≤ s.memory.bytes.size)
    (hwrap : s.core.pc.toNat + initialBytes s.core.header.version 1 < 0x100000000) :
    ∃ c, (if 4 < s.core.header.version then pure 0 else Machine.fetchWord : MachineM Image H UInt16)
          s = .ok (s.memory.initialLocal s.core.header.version s.core.pc.toNat 0)
            { s with core := c } ∧
      c.pc.toNat = s.core.pc.toNat + initialBytes s.core.header.version 1 ∧
      Core.Adjusted s.core c := by
  unfold Image.initialLocal
  unfold initialBytes at hcode hwrap ⊢
  split at hcode
  next hnew =>
    rw [if_pos hnew, if_pos hnew, if_pos hnew]
    exact ⟨s.core, rfl, rfl, rfl, rfl, rfl, rfl, rfl, id⟩
  next hold =>
    rw [if_neg hold] at hwrap
    rw [if_neg hold, if_neg hold, if_neg hold, fetchWord_image (by omega)]
    refine ⟨_, rfl, ?_, rfl, rfl, rfl, rfl, rfl, id⟩
    dsimp only
    rw [UInt32.toNat_add]
    exact Nat.mod_eq_of_lt hwrap

end

/-- Words were pushed, the first of them nearest to the old ones. -/
structure Core.Grown (n : Nat) (values : Nat → UInt16) (c c' : Core) : Prop where
  sp_eq : c'.sp + n = c.sp
  fp_eq : c'.fp = c.fp
  header_eq : c'.header = c.header
  values_eq : ∀ i < n, c'.stack[c.sp - (i + 1)]? = some (values i)
  above : ∀ j, c.sp ≤ j → c'.stack[j]? = c.stack[j]?

theorem Core.Grown.cons {n : Nat} {first : UInt16} {rest values : Nat → UInt16} {c c₁ c₂ : Core}
    (h₁ : Grown 1 (fun _ => first) c c₁) (h₂ : Grown n rest c₁ c₂) (hfirst : values 0 = first)
    (hrest : ∀ i, values (i + 1) = rest i) : Grown (n + 1) values c c₂ := by
  have hsp₁ := h₁.sp_eq
  have hsp₂ := h₂.sp_eq
  refine ⟨by omega, h₂.fp_eq.trans h₁.fp_eq, h₂.header_eq.trans h₁.header_eq, ?_, ?_⟩
  · intro i hi
    cases i with
    | zero =>
        rw [h₂.above _ (by omega), h₁.values_eq 0 (by decide), hfirst]
    | succ i =>
        have hindex : c.sp - (i + 1 + 1) = c₁.sp - (i + 1) := by omega
        rw [hindex, h₂.values_eq i (by omega), hrest]
  · intro j hj
    rw [h₂.above j (by omega), h₁.above j hj]

section

variable {H : Type} {s : Machine Image H}

theorem pushLocals_succ_of_full {n : Nat} {arguments : List UInt16}
    (hcode : s.core.pc.toNat + initialBytes s.core.header.version 1 ≤ s.memory.bytes.size)
    (hwrap : s.core.pc.toNat + initialBytes s.core.header.version 1 < 0x100000000)
    (hfull : s.core.sp = 0) :
    ∃ t, Machine.pushLocals (n + 1) arguments s = .error .stackOverflow t := by
  obtain ⟨c, hinitial, -, hc⟩ := fetchInitial_image hcode hwrap
  have hpush := Core.push_of_full (hc.sp_eq.trans hfull)
    (arguments.headD (s.memory.initialLocal s.core.header.version s.core.pc.toNat 0))
  rw [pushLocals_succ, bind_ok (rfl : version s = .ok s.core.header.version s), bind_ok hinitial,
    bind_error (ofCore_eq_error_iff.mpr ⟨c, hpush, rfl⟩)]
  exact ⟨_, rfl⟩

theorem pushLocals_succ_of_pos (n : Nat) (arguments : List UInt16)
    (hcode : s.core.pc.toNat + initialBytes s.core.header.version 1 ≤ s.memory.bytes.size)
    (hwrap : s.core.pc.toNat + initialBytes s.core.header.version 1 < 0x100000000)
    (hsize : s.core.sp ≤ stackSize) (hpos : 0 < s.core.sp) :
    ∃ c, Machine.pushLocals (n + 1) arguments s =
        Machine.pushLocals n arguments.tail { s with core := c } ∧
      c.pc.toNat = s.core.pc.toNat + initialBytes s.core.header.version 1 ∧
      s.core.Grown 1 (fun _ => arguments.headD
        (s.memory.initialLocal s.core.header.version s.core.pc.toNat 0)) c := by
  obtain ⟨c, hinitial, hpc, hc⟩ := fetchInitial_image hcode hwrap
  have hsp := hc.sp_eq
  have hpush := Core.push_of_pos (hsp ▸ hpos)
    (arguments.headD (s.memory.initialLocal s.core.header.version s.core.pc.toNat 0))
  rw [pushLocals_succ, bind_ok (rfl : version s = .ok s.core.header.version s), bind_ok hinitial,
    bind_ok (ofCore_eq_ok_iff.mpr ⟨_, hpush, rfl⟩)]
  refine ⟨_, rfl, hpc, ?_, hc.fp_eq, congrArg Prod.fst hc.origin_eq, ?_, ?_⟩
  · rw [hsp]
    exact Nat.sub_add_cancel hpos
  · intro i hi
    obtain rfl : i = 0 := by omega
    rw [hsp]
    exact Vector.getElem?_setIfInBounds_self_of_lt (by omega)
  · intro j hj
    rw [← hc.stack_eq]
    exact Vector.getElem?_setIfInBounds_ne (by omega)

end

theorem pushLocals_image {H : Type} {s : Machine Image H} (n : Nat) (arguments : List UInt16)
    (hsize : s.core.sp ≤ stackSize)
    (hcode : s.core.pc.toNat + initialBytes s.core.header.version n ≤ s.memory.bytes.size)
    (hwrap : s.core.pc.toNat + initialBytes s.core.header.version n < 0x100000000) :
    (s.core.sp < n → ∃ t, Machine.pushLocals n arguments s = .error .stackOverflow t) ∧
      (n ≤ s.core.sp → ∃ c, Machine.pushLocals n arguments s = .ok () { s with core := c } ∧
        s.core.Grown n (fun i => (arguments[i]?).getD
          (s.memory.initialLocal s.core.header.version s.core.pc.toNat i)) c) := by
  induction n generalizing s arguments with
  | zero => exact ⟨nofun, fun _ => ⟨s.core, rfl, rfl, rfl, rfl, nofun, fun _ _ => rfl⟩⟩
  | succ n ih =>
      rw [initialBytes_succ] at hcode hwrap
      rcases Nat.eq_zero_or_pos s.core.sp with hfull | hpos
      · exact ⟨fun _ => pushLocals_succ_of_full (by omega) (by omega) hfull,
          fun hroom => absurd hroom (by omega)⟩
      · obtain ⟨c, hstep, hpc, hgrown⟩ :=
          pushLocals_succ_of_pos n arguments (by omega) (by omega) hsize hpos
        have hsp := hgrown.sp_eq
        obtain ⟨hless, hmore⟩ := ih (s := { s with core := c }) arguments.tail
          (by dsimp only; omega) (by dsimp only; rw [hgrown.header_eq, hpc]; omega)
          (by dsimp only; rw [hgrown.header_eq, hpc]; omega)
        rw [hstep]
        refine ⟨fun h => hless (by dsimp only; omega), fun h => ?_⟩
        obtain ⟨c', hrun, hgrown'⟩ := hmore (by dsimp only; omega)
        refine ⟨c', hrun, hgrown.cons hgrown' ?_ fun i => ?_⟩
        · cases arguments <;> rfl
        · dsimp only
          rw [hgrown.header_eq, hpc, Image.initialLocal_succ, List.getElem?_tail]

/-! ## Calls -/

/-- A routine is called as a function or a procedure. -/
structure PlainCall where
  kind : CallKind
  routine : UInt16
  arguments : List UInt16
  plain : kind ≠ .async
  routine_ne : routine ≠ 0

namespace PlainCall

def address (call : PlainCall) (h : Header) : Nat :=
  h.unpack call.routine

def locals (call : PlainCall) (h : Header) (image : Image) : Nat :=
  (image.byteAt (call.address h)).toNat

/-- The routine's number of locals and their initial values are in memory. -/
def Readable (call : PlainCall) (h : Header) (image : Image) : Prop :=
  call.address h + 1 + initialBytes h.version (call.locals h image) ≤ image.bytes.size

instance decidableReadable (call : PlainCall) (h : Header) (image : Image) :
    Decidable (call.Readable h image) :=
  inferInstanceAs (Decidable (_ ≤ _))

/-- The second core has the frame of a call that the first one made, with the
routine's locals below it. -/
structure FrameOf (call : PlainCall) (image : Image) (c c' : Core) : Prop
    extends Core.FrameWords call.arguments.length call.kind c c' where
  sp_eq : c'.sp + call.locals c.header image = c'.fp + 1
  locals_eq : ∀ i < call.locals c.header image, c'.stack[c'.fp - i]? =
    some ((call.arguments[i]?).getD
      (image.initialLocal c.header.version (call.address c.header + 1) i))

variable {M H : Type} [AddressSpace M]

def make (run : MachineM M H UInt16) (call : PlainCall) : MachineM M H UInt16 :=
  Machine.call run call.kind (call.routine :: call.arguments)

theorem make_eq (run : MachineM M H UInt16) (call : PlainCall) :
    call.make run = (do
      ofCore (Core.enter call.arguments.length call.kind)
      modifyCore fun c => { c with pc := UInt32.ofNat (call.address c.header) }
      let locals ← Machine.fetchByte
      Machine.pushLocals locals.toNat call.arguments
      return 0) := by
  rw [make, Machine.call, List.headD_cons, List.tail_cons, if_neg call.routine_ne]
  simp only [if_neg call.plain]
  rfl

theorem toNat_address (call : PlainCall) (h : Header) :
    (UInt32.ofNat (call.address h)).toNat = call.address h ∧ call.address h ≤ 0x80000 := by
  have hroutine := call.routine.toNat_lt
  have hscaler : h.scaler ≤ 8 := by
    unfold Header.scaler
    split
    · decide
    · split <;> decide
  have hle : call.address h ≤ 0x80000 :=
    calc call.routine.toNat * h.scaler
        ≤ 0x10000 * 8 := Nat.mul_le_mul (Nat.le_of_lt hroutine) hscaler
      _ = 0x80000 := rfl
  refine ⟨?_, hle⟩
  rw [UInt32.toNat_ofNat']
  exact Nat.mod_eq_of_lt (by omega)

section

variable {s : Machine Image H} {call : PlainCall}

/-- A call from its frame on: its locals are still to be pushed. -/
theorem make_of_gt (hsize : s.core.sp ≤ stackSize)
    (hcall : call.Readable s.core.header s.memory) (run : MachineM Image H UInt16)
    (hroom : 4 < s.core.sp) :
    ∃ c, call.make run s =
        (do
          Machine.pushLocals (call.locals s.core.header s.memory) call.arguments
          return 0 : MachineM Image H UInt16) { s with core := c } ∧
      c.pc.toNat = call.address s.core.header + 1 ∧ c.sp = c.fp + 1 ∧
      Core.FrameWords call.arguments.length call.kind s.core c := by
  obtain ⟨c, henter⟩ := Core.enter_of_gt call.arguments.length call.kind hroom
  obtain ⟨hsp, hframe⟩ := Core.frameWords_of_enter hsize henter
  obtain ⟨haddress, hle⟩ := call.toNat_address s.core.header
  have hpc : ((UInt32.ofNat (call.address s.core.header)) + 1).toNat =
      call.address s.core.header + 1 := by
    rw [UInt32.toNat_add, haddress]
    exact Nat.mod_eq_of_lt (show call.address s.core.header + 1 < 0x100000000 by omega)
  have hmem : call.address s.core.header < s.memory.bytes.size :=
    Nat.lt_of_lt_of_le (by omega) (Nat.le_trans (Nat.le_add_right _ _) hcall)
  have hjump : (modifyCore fun c =>
        { c with pc := UInt32.ofNat (call.address c.header) } : MachineM Image H Unit)
      { s with core := c } =
      .ok () { s with core := { c with pc := UInt32.ofNat (call.address s.core.header) } } := by
    rw [← hframe.header_eq]
    rfl
  have hfetch := fetchByte_image
    (s := { s with core := { c with pc := UInt32.ofNat (call.address s.core.header) } })
    (haddress.symm ▸ hmem)
  rw [haddress] at hfetch
  refine ⟨{ c with pc := UInt32.ofNat (call.address s.core.header) + 1 }, ?_, hpc, hsp,
    hframe.of_sameAbove rfl rfl fun _ _ => rfl⟩
  rw [make_eq, bind_ok (ofCore_eq_ok_iff.mpr ⟨c, henter, rfl⟩), bind_ok hjump, bind_ok hfetch]
  rfl

theorem initialBytes_locals_le (call : PlainCall) (version : UInt8) (h : Header) (image : Image) :
    initialBytes version (call.locals h image) ≤ 512 := by
  have hlocals : call.locals h image < 256 := UInt8.toNat_lt _
  unfold initialBytes
  split <;> omega

/-- With room for the frame, it is the locals that matter. -/
theorem make_locals (hsize : s.core.sp ≤ stackSize)
    (hcall : call.Readable s.core.header s.memory) (run : MachineM Image H UInt16)
    (hframe : 4 < s.core.sp) :
    (s.core.sp < 4 + call.locals s.core.header s.memory →
        ∃ t, call.make run s = .error .stackOverflow t) ∧
      (4 + call.locals s.core.header s.memory ≤ s.core.sp →
        ∃ c, call.make run s = .ok 0 { s with core := c } ∧ call.FrameOf s.memory s.core c) := by
  obtain ⟨c, hmake, hpc, hsp, hwords⟩ := make_of_gt hsize hcall run hframe
  have hfp := hwords.fp_eq
  obtain ⟨-, hle⟩ := call.toNat_address s.core.header
  have hbytes := call.initialBytes_locals_le s.core.header.version s.core.header s.memory
  obtain ⟨hless, hmore⟩ := pushLocals_image (s := { s with core := c })
    (call.locals s.core.header s.memory) call.arguments (by dsimp only; omega)
    (by dsimp only; rw [hwords.header_eq, hpc]; exact hcall)
    (by dsimp only; rw [hwords.header_eq, hpc]; omega)
  rw [hmake]
  refine ⟨fun h => ?_, fun h => ?_⟩
  · obtain ⟨t, ht⟩ := hless (by dsimp only; omega)
    exact ⟨t, bind_error ht⟩
  · obtain ⟨c', hc', hgrown⟩ := hmore (by dsimp only; omega)
    have hsp' := hgrown.sp_eq
    dsimp only at hsp'
    refine ⟨c', bind_ok hc', ?_, ?_, fun i hi => ?_⟩
    · exact hwords.of_sameAbove hgrown.fp_eq hgrown.header_eq
        fun j hj => hgrown.above j (by dsimp only; omega)
    · rw [hgrown.fp_eq, hsp', hsp]
    · have hindex : c'.fp - i = c.sp - (i + 1) := by
        rw [hgrown.fp_eq, hsp]
        dsimp only
        omega
      rw [hindex, hgrown.values_eq i hi]
      dsimp only
      rw [hwords.header_eq, hpc]

theorem make_image (hsize : s.core.sp ≤ stackSize)
    (hcall : call.Readable s.core.header s.memory) (run : MachineM Image H UInt16) :
    (s.core.sp = 4 → ∃ t, call.make run s = .error .registerUnderflow t) ∧
      (s.core.sp ≠ 4 → s.core.sp < 4 + call.locals s.core.header s.memory →
        ∃ t, call.make run s = .error .stackOverflow t) ∧
      (s.core.sp ≠ 4 → 4 + call.locals s.core.header s.memory ≤ s.core.sp →
        ∃ c, call.make run s = .ok 0 { s with core := c } ∧ call.FrameOf s.memory s.core c) := by
  refine ⟨fun hfour => ?_, fun hfour hless => ?_, fun hfour hroom => ?_⟩
  · obtain ⟨c, hc⟩ := Core.enter_of_eq call.arguments.length call.kind hfour
    rw [make_eq]
    exact ⟨_, bind_error (ofCore_eq_error_iff.mpr ⟨c, hc, rfl⟩)⟩
  · by_cases hlt : s.core.sp < 4
    · obtain ⟨c, hc⟩ := Core.enter_of_lt call.arguments.length call.kind hlt
      rw [make_eq]
      exact ⟨_, bind_error (ofCore_eq_error_iff.mpr ⟨c, hc, rfl⟩)⟩
    · exact (make_locals hsize hcall run (by omega)).1 hless
  · exact (make_locals hsize hcall run (by omega)).2 hroom

end

/-! ## Chains of calls -/

variable {R : M → Image → Prop}

theorem make_shows (hR : MemorySim True R) (run : MachineM M H UInt16) (call : PlainCall) :
    Sim True (SameParts (H := H) R) (SameParts R) (call.make run) (call.make (pure 0)) := by
  rw [make_eq run, ← make_eq (pure 0)]
  exact (SameParts.runSim hR).call (.pure 0) _ _

theorem make_memory (hR : MemorySim True R) {s : Machine M H} {image : Image}
    (hs : R s.memory image) (hsize : s.core.sp ≤ stackSize) {call : PlainCall}
    (hcall : call.Readable s.core.header image) (run : MachineM M H UInt16) :
    (s.core.sp = 4 → outcome (call.make run s) = .error .registerUnderflow) ∧
      (s.core.sp ≠ 4 → s.core.sp < 4 + call.locals s.core.header image →
        outcome (call.make run s) = .error .stackOverflow) ∧
      (s.core.sp ≠ 4 → 4 + call.locals s.core.header image ≤ s.core.sp →
        ∃ t, call.make run s = .ok 0 t ∧ R t.memory image ∧ call.FrameOf image s.core t.core) := by
  let shown : Machine Image H := { memory := image, host := s.host, core := s.core }
  have hparts : SameParts R s shown := ⟨hs, rfl, rfl⟩
  obtain ⟨hsame, hreached⟩ := (make_shows hR run call).call hparts
  obtain ⟨hfour, hless, hroom⟩ := make_image (s := shown) hsize hcall (pure 0)
  rw [hsame]
  refine ⟨fun h => ?_, fun h h' => ?_, fun h h' => ?_⟩
  · obtain ⟨t, ht⟩ := hfour h
    rw [ht]
    rfl
  · obtain ⟨t, ht⟩ := hless h h'
    rw [ht]
    rfl
  · obtain ⟨c, hc, hframe⟩ := hroom h h'
    rw [hc] at hsame hreached
    cases hmake : call.make run s with
    | error e t =>
        rw [hmake] at hsame
        cases hsame
    | ok answer t =>
        rw [hmake] at hsame hreached
        cases hsame
        refine ⟨t, rfl, hreached.memory, ?_⟩
        rw [show t.core = c from hreached.core]
        exact hframe

/-- Words that a chain of nested calls takes. -/
def depth (h : Header) (image : Image) : List PlainCall → Nat
  | [] => 0
  | call :: chain => 4 + call.locals h image + depth h image chain

@[simp] theorem depth_nil (h : Header) (image : Image) : depth h image [] = 0 :=
  rfl

@[simp] theorem depth_cons (h : Header) (image : Image) (call : PlainCall)
    (chain : List PlainCall) :
    depth h image (call :: chain) = 4 + call.locals h image + depth h image chain :=
  rfl

def makeAll (run : MachineM M H UInt16) (chain : List PlainCall) : MachineM M H Unit :=
  chain.forM fun call => discard (call.make run)

theorem makeAll_cons (run : MachineM M H UInt16) (call : PlainCall) (chain : List PlainCall) :
    makeAll run (call :: chain) = call.make run >>= fun _ => makeAll run chain := by
  rw [makeAll, List.forM_eq_forM, List.forM_cons, discard_eq, bind_assoc]
  rfl

theorem makeAll_memory (hR : MemorySim True R) {s : Machine M H} {image : Image}
    (hs : R s.memory image) (hsize : s.core.sp ≤ stackSize) {chain : List PlainCall}
    (hchain : ∀ call ∈ chain, call.Readable s.core.header image) (run : MachineM M H UInt16) :
    ((∃ k < chain.length, depth s.core.header image (chain.take k) + 4 = s.core.sp) →
        outcome (makeAll run chain s) = .error .registerUnderflow) ∧
      ((∀ k < chain.length, depth s.core.header image (chain.take k) + 4 ≠ s.core.sp) →
        s.core.sp < depth s.core.header image chain →
        outcome (makeAll run chain s) = .error .stackOverflow) ∧
      ((∀ k < chain.length, depth s.core.header image (chain.take k) + 4 ≠ s.core.sp) →
        depth s.core.header image chain ≤ s.core.sp →
        ∃ t, makeAll run chain s = .ok () t ∧ R t.memory image ∧
          t.core.sp + depth s.core.header image chain = s.core.sp) := by
  induction chain generalizing s with
  | nil =>
      refine ⟨nofun, fun _ hlt => absurd hlt (Nat.not_lt_zero _), fun _ _ => ⟨s, rfl, hs, rfl⟩⟩
  | cons call chain ih =>
      obtain ⟨hfour, hless, hroom⟩ :=
        make_memory hR hs hsize (hchain call List.mem_cons_self) run
      rw [makeAll_cons]
      by_cases h : s.core.sp = 4
      · have hfirst : depth s.core.header image ((call :: chain).take 0) + 4 = s.core.sp := by
          simp [h]
        have hnot := fun hne : ∀ k < (call :: chain).length,
          depth s.core.header image ((call :: chain).take k) + 4 ≠ s.core.sp =>
            hne 0 (Nat.zero_lt_succ _) hfirst
        exact ⟨fun _ => outcome_bind_error (hfour h), fun hne => absurd hne hnot,
          fun hne => absurd hne hnot⟩
      by_cases hfits : 4 + call.locals s.core.header image ≤ s.core.sp
      · obtain ⟨t, ht, hmemory, hframe⟩ := hroom h hfits
        have hsp : t.core.sp + (4 + call.locals s.core.header image) = s.core.sp := by
          have hfp := hframe.fp_eq
          have hsp := hframe.sp_eq
          omega
        have hrest := ih hmemory (by omega) fun call hmem => by
          rw [hframe.header_eq]
          exact hchain call (List.mem_cons_of_mem _ hmem)
        rw [hframe.header_eq] at hrest
        obtain ⟨hsmall, hover, hdone⟩ := hrest
        have hshift : (∀ k < (call :: chain).length,
              depth s.core.header image ((call :: chain).take k) + 4 ≠ s.core.sp) →
            ∀ k < chain.length, depth s.core.header image (chain.take k) + 4 ≠ t.core.sp := by
          intro hne k hk heq
          refine hne (k + 1) (Nat.succ_lt_succ hk) ?_
          rw [List.take_succ_cons, depth_cons]
          omega
        rw [bind_ok ht, depth_cons]
        refine ⟨fun ⟨k, hk, heq⟩ => ?_, fun hne hlt => ?_, fun hne hle => ?_⟩
        · cases k with
          | zero => exact absurd heq.symm (by simpa using h)
          | succ k =>
              rw [List.take_succ_cons, depth_cons] at heq
              exact hsmall ⟨k, Nat.lt_of_succ_lt_succ hk, by omega⟩
        · exact hover (hshift hne) (by omega)
        · obtain ⟨t', ht', hmemory', hsp'⟩ := hdone (hshift hne) (by omega)
          exact ⟨t', ht', hmemory', by omega⟩
      · have hover : outcome ((call.make run >>= fun _ => makeAll run chain) s) =
            .error .stackOverflow := outcome_bind_error (hless h (by omega))
        refine ⟨fun ⟨k, _, hk⟩ => ?_, fun _ _ => hover, fun _ hle => ?_⟩
        · cases k with
          | zero => exact absurd hk.symm (by simpa using h)
          | succ k =>
              rw [List.take_succ_cons, depth_cons] at hk
              omega
        · rw [depth_cons] at hle
          omega

end PlainCall

/-- A call of a routine with `n` locals takes `4 + n` words, and with exactly
four words left it fails in its own way.  So a chain of nested calls that is
deeper than the stack ends in a stack overflow, unless some of its calls leave
exactly four words to the next one. -/
theorem calls_fill_stack {M H : Type} [AddressSpace M] {R : M → Image → Prop}
    (hR : MemorySim True R) (s : Machine M H) (image : Image) (hs : R s.memory image)
    (hsize : s.core.sp ≤ stackSize) (run : MachineM M H UInt16) :
    (∀ call : PlainCall, call.Readable s.core.header image →
      (s.core.sp = 4 → outcome (call.make run s) = .error .registerUnderflow) ∧
      (s.core.sp ≠ 4 → s.core.sp < 4 + call.locals s.core.header image →
        outcome (call.make run s) = .error .stackOverflow) ∧
      (s.core.sp ≠ 4 → 4 + call.locals s.core.header image ≤ s.core.sp →
        ∃ t, call.make run s = .ok 0 t ∧ R t.memory image ∧
          call.FrameOf image s.core t.core)) ∧
    ∀ chain : List PlainCall, (∀ call ∈ chain, call.Readable s.core.header image) →
      ((∃ k < chain.length, PlainCall.depth s.core.header image (chain.take k) + 4 = s.core.sp) →
        outcome (PlainCall.makeAll run chain s) = .error .registerUnderflow) ∧
      ((∀ k < chain.length, PlainCall.depth s.core.header image (chain.take k) + 4 ≠ s.core.sp) →
        s.core.sp < PlainCall.depth s.core.header image chain →
        outcome (PlainCall.makeAll run chain s) = .error .stackOverflow) ∧
      ((∀ k < chain.length, PlainCall.depth s.core.header image (chain.take k) + 4 ≠ s.core.sp) →
        PlainCall.depth s.core.header image chain ≤ s.core.sp →
        ∃ t, PlainCall.makeAll run chain s = .ok () t ∧ R t.memory image ∧
          t.core.sp + PlainCall.depth s.core.header image chain = s.core.sp) :=
  ⟨fun _ hcall => PlainCall.make_memory hR hs hsize hcall run,
    fun _ hchain => PlainCall.makeAll_memory hR hs hsize hchain run⟩

/-- A story with a routine that has one local. -/
def recursingStory : Except Fault (Machine Image Transcript) :=
  let bytes : Array UInt8 := Array.replicate 128 0
  Machine.load { randomSeed := some 1 } ⟨fun _ => 0, 0⟩ {}
    (Image.mk (bytes.set! 0 5 |>.set! 7 64 |>.set! 96 1))

/-- The routine of `recursingStory` is called. -/
def recursion : PlainCall :=
  ⟨.procedure, 24, [], by decide, by decide⟩

theorem depth_replicate_recursion {h : Header} {image : Image}
    (hlocals : recursion.locals h image = 1) (n : Nat) :
    PlainCall.depth h image (List.replicate n recursion) = 5 * n := by
  induction n with
  | zero => rfl
  | succ n ih =>
      rw [List.replicate_succ, PlainCall.depth_cons, hlocals, ih]
      omega

theorem calls_fill_stack_runaway :
    ∃ s t, recursingStory = .ok s ∧ s.core.sp = stackSize ∧
      recursion.Readable s.core.header s.memory ∧ recursion.locals s.core.header s.memory = 1 ∧
      PlainCall.makeAll (pure 0) (List.replicate 204 recursion) s = .ok () t ∧ t.core.sp = 4 ∧
      outcome (PlainCall.makeAll (pure 0) (List.replicate 300 recursion) s) =
        .error .registerUnderflow := by
  obtain ⟨s, hs, hcheck⟩ := exists_of_givesOk (x := recursingStory)
    (p := fun s => decide (s.core.sp = stackSize ∧
      recursion.Readable s.core.header s.memory ∧
      recursion.locals s.core.header s.memory = 1)) (by decide +kernel)
  obtain ⟨hsp, hreadable, hlocals⟩ := of_decide_eq_true hcheck
  have hdepth := depth_replicate_recursion hlocals
  have hsize : stackSize = 1024 := rfl
  have hall : ∀ n, ∀ call ∈ List.replicate n recursion,
      call.Readable s.core.header s.memory := by
    intro n call hmem
    rw [List.eq_of_mem_replicate hmem]
    exact hreadable
  obtain ⟨-, hchain⟩ := calls_fill_stack MemorySim.refl s s.memory rfl (Nat.le_of_eq hsp) (pure 0)
  obtain ⟨-, -, hdone⟩ := hchain (List.replicate 204 recursion) (hall 204)
  obtain ⟨hsmall, -, -⟩ := hchain (List.replicate 300 recursion) (hall 300)
  have htake : ∀ k n, k < n →
      PlainCall.depth s.core.header s.memory ((List.replicate n recursion).take k) = 5 * k := by
    intro k n hk
    rw [List.take_replicate, Nat.min_eq_left (Nat.le_of_lt hk), hdepth]
  obtain ⟨t, ht, -, hleft⟩ := hdone
    (fun k hk => by
      rw [List.length_replicate] at hk
      rw [htake k 204 hk]
      omega)
    (by rw [hdepth]; omega)
  rw [hdepth] at hleft
  refine ⟨s, t, hs, hsp, hreadable, hlocals, ht, by omega, hsmall ⟨204, ?_, ?_⟩⟩
  · rw [List.length_replicate]
    decide
  · rw [htake 204 300 (by decide), hsp, hsize]

end ZMachine
