import ZMachine.Proofs.Instruction.Decode

/-!
# Branches lead where they are written to

A branch stands behind an instruction in one byte or in two.  Bit 7 of the
first byte is the answer that the branch waits for, bit 6 tells the two forms
apart, and the offset is in the other bits: six of them without a sign, or
fourteen with one.  `Branch` is a branch before it is written, so its offset is
an integer, and `branch_written` says in terms of that integer what becomes of
the machine.
-/

namespace ZMachine

open MachineM

/-- The answer that a branch waits for, and its offset in one of two forms. -/
inductive Branch where
  | near (sense : Bool) (offset : Fin 64)
  | far (sense : Bool) (offset : Int) (hlow : -0x2000 ≤ offset) (hhigh : offset < 0x2000)

namespace Branch

def sense : Branch → Bool
  | near sense _ => sense
  | far sense _ _ _ => sense

def offset : Branch → Int
  | near _ offset => offset.val
  | far _ offset _ _ => offset

def senseBit (sense : Bool) : Nat :=
  if sense then 0x80 else 0

def bytes : Branch → List UInt8
  | near sense offset => [UInt8.ofNat (senseBit sense + 0x40 + offset)]
  | far sense offset _ _ =>
    let field := (offset % 0x4000).toNat
    [UInt8.ofNat (senseBit sense + field / 256), UInt8.ofNat (field % 256)]

/-! ## Bits -/

theorem first_near (sense : Bool) (offset : Fin 64) :
    let first := UInt8.ofNat (senseBit sense + 0x40 + offset)
    first &&& 0x40 ≠ 0 ∧ first.toNat % 64 = offset ∧ decide (0x80 ≤ first) = sense := by
  revert sense offset
  decide

theorem first_far (sense : Bool) {high : Nat} (hhigh : high < 64) :
    let first := UInt8.ofNat (senseBit sense + high)
    first &&& 0x40 = 0 ∧ first.toNat % 64 = high ∧ decide (0x80 ≤ first) = sense := by
  have hall : ∀ sense : Bool, ∀ high : Fin 64,
      let first := UInt8.ofNat (senseBit sense + high)
      first &&& 0x40 = 0 ∧ first.toNat % 64 = high ∧ decide (0x80 ≤ first) = sense := by
    decide
  exact hall sense ⟨high, hhigh⟩

theorem toNat_joined {high : Nat} (hhigh : high < 64) (low : UInt8) :
    (UInt16.ofNat high <<< 8 ||| low.toUInt16).toNat = high * 256 + low.toNat := by
  have hor := Nat.shiftLeft_add_eq_or_of_lt (i := 8) (b := low.toNat) low.toNat_lt high
  have hshift : (UInt16.ofNat high <<< 8).toNat = high <<< 8 := by
    simp [Nat.shiftLeft_eq]
    omega
  rw [UInt16.toNat_or, hshift, UInt8.toNat_toUInt16, ← hor, Nat.shiftLeft_eq]

/-- A field of fourteen bits with its sign in all the bits above. -/
def extended (w : UInt16) : UInt16 :=
  if w &&& 0x2000 ≠ 0 then w ||| 0xC000 else w

theorem and_signBit_ne_zero {w : UInt16} (hw : w.toNat < 0x4000) :
    w &&& 0x2000 ≠ 0 ↔ 0x2000 ≤ w.toNat := by
  have hbit : w.toBitVec.getLsbD 13 = decide (0x2000 ≤ w.toNat) := by
    rw [BitVec.getLsbD, UInt16.toNat_toBitVec, Nat.testBit_eq_decide_div_mod_eq]
    simp
    omega
  have hmask : (0x2000 : UInt16).toBitVec = BitVec.twoPow 16 13 := by decide
  rw [ne_eq, ← UInt16.toBitVec_inj, UInt16.toBitVec_and, hmask, BitVec.and_twoPow, hbit]
  by_cases hle : 0x2000 ≤ w.toNat
  · simp [hle]
    decide
  · simp [hle]

theorem toNat_or_signBits {w : UInt16} (hw : w.toNat < 0x4000) :
    (w ||| 0xC000).toNat = w.toNat + 0xC000 := by
  have hor := Nat.shiftLeft_add_eq_or_of_lt (i := 14) (b := w.toNat) hw 3
  simp only [Nat.shiftLeft_eq] at hor
  rw [UInt16.toNat_or, Nat.or_comm]
  simpa [Nat.add_comm] using hor.symm

theorem signed_extended {w : UInt16} (hw : w.toNat < 0x4000) :
    signed (extended w) =
      if 0x2000 ≤ w.toNat then (w.toNat : Int) - 0x4000 else w.toNat := by
  simp only [extended, and_signBit_ne_zero hw]
  split
  next hle =>
    rw [signed, toNat_or_signBits hw, if_neg (by omega)]
    omega
  next hlt => rw [signed, if_pos (by omega)]

/-- The field of an offset gives the offset back. -/
theorem signed_extended_field {offset : Int} (hlow : -0x2000 ≤ offset) (hhigh : offset < 0x2000)
    {w : UInt16} (hw : w.toNat = (offset % 0x4000).toNat) : signed (extended w) = offset := by
  rw [signed_extended (by omega), hw]
  split <;> omega

end Branch

/-! ## Reading a branch -/

section

variable {M H : Type} [AddressSpace M] {s s₁ s₂ : Machine M H}

/-- What is done about a branch that has been read. -/
def Machine.follow (flag sense : Bool) (offset : UInt16) : MachineM M H Unit :=
  if flag = sense then
    if offset = 0 ∨ offset = 1 then Machine.ret offset else modifyCore (Core.jumpBy offset)
  else return

theorem branch_near {first : UInt8} (hfetch : Machine.fetchByte s = .ok first s₁)
    (hform : first &&& 0x40 ≠ 0) (flag : Bool) :
    Machine.branch flag s =
      Machine.follow flag (0x80 ≤ first) (UInt16.ofNat (first.toNat % 64)) s₁ := by
  unfold Machine.branch
  rw [bind_ok hfetch, if_pos hform]
  rfl

theorem branch_far {first second : UInt8} (hfirst : Machine.fetchByte s = .ok first s₁)
    (hsecond : Machine.fetchByte s₁ = .ok second s₂) (hform : first &&& 0x40 = 0) (flag : Bool) :
    Machine.branch flag s =
      Machine.follow flag (0x80 ≤ first)
        (Branch.extended (UInt16.ofNat (first.toNat % 64) <<< 8 ||| second.toUInt16)) s₂ := by
  unfold Machine.branch
  rw [bind_ok hfirst, if_neg (by simp [hform]), bind_ok hsecond]
  rfl

variable {R : M → Image → Prop} (hR : MemorySim True R) {image : Image}

include hR

/-- Fetching the first byte of code that stands at the program counter leaves
the program counter at the rest of it. -/
theorem fetchByte_stands (hs : R s.memory image) (hsize : image.bytes.size < 0x100000000)
    {b : UInt8} {rest : List UInt8} (hcode : Stands image (b :: rest) s.core.pc.toNat)
    (hinside : Inside image (rest.length + 1) s.core.pc.toNat) :
    ∃ memory pc, R memory image ∧ pc.toNat = s.core.pc.toNat + 1 ∧
      Stands image rest pc.toNat ∧ Inside image rest.length pc.toNat ∧
      Machine.fetchByte s = .ok b ⟨memory, s.host, { s.core with pc }⟩ := by
  have hlt : s.core.pc.toNat < image.bytes.size := hinside 0 (Nat.succ_pos _)
  have hb : image.byteAt s.core.pc.toNat = b := hcode 0 b rfl hlt
  have hpc : (s.core.pc + 1).toNat = s.core.pc.toNat + 1 := by
    simp
    omega
  have hrest : Stands image rest (s.core.pc.toNat + 1) :=
    (show Stands image ([b] ++ rest) s.core.pc.toNat from hcode).append.2
  rw [Nat.add_comm] at hinside
  obtain ⟨memory, hmemory, hread⟩ :=
    Image.exists_ok hR (.readByte s.core.pc.toNat) hs (Image.readByte_of_lt hlt)
  have hbyte : (ofMemory (Memory.readByte s.core.pc.toNat) : MachineM M H UInt8) s =
      .ok b { s with memory } :=
    ofMemory_eq_ok_iff.mpr ⟨memory, hb ▸ hread, rfl⟩
  refine ⟨memory, s.core.pc + 1, hmemory, hpc, hpc ▸ hrest, hpc ▸ (inside_append.mp hinside).2, ?_⟩
  unfold Machine.fetchByte
  rw [bind_ok (rfl : getCore s = .ok s.core s), bind_ok hbyte]
  rfl

/-- A branch is read as its sense and a word for its offset, and its bytes are
used up. -/
theorem branch_follows (hs : R s.memory image) (hsize : image.bytes.size < 0x100000000)
    (b : Branch) (hcode : Stands image b.bytes s.core.pc.toNat)
    (hinside : Inside image b.bytes.length s.core.pc.toNat) :
    ∃ memory pc word, R memory image ∧ pc.toNat = s.core.pc.toNat + b.bytes.length ∧
      signed word = b.offset ∧
      ∀ flag, Machine.branch flag s =
        Machine.follow flag b.sense word ⟨memory, s.host, { s.core with pc }⟩ := by
  cases b with
  | near sense offset =>
      obtain ⟨hform, hoffset, hsense⟩ := Branch.first_near sense offset
      obtain ⟨memory, pc, hmemory, hpc, -, -, hfetch⟩ :=
        fetchByte_stands hR hs hsize hcode hinside
      have hword : signed (UInt16.ofNat offset) = (offset.val : Int) := by
        simp [signed]
        omega
      refine ⟨memory, pc, UInt16.ofNat offset, hmemory, hpc, hword, fun flag => ?_⟩
      rw [branch_near hfetch hform, hoffset, hsense]
      rfl
  | far sense offset hlow hhigh =>
      obtain ⟨field, hfield⟩ : ∃ field, field = (offset % 0x4000).toNat := ⟨_, rfl⟩
      have hhigh' : field / 256 < 64 := by omega
      obtain ⟨hform, hoffset, hsense⟩ := Branch.first_far sense hhigh'
      rw [Branch.bytes, ← hfield] at hcode
      obtain ⟨memory₁, pc₁, hmemory₁, hpc₁, hcode₁, hinside₁, hfirst⟩ :=
        fetchByte_stands hR hs hsize hcode hinside
      obtain ⟨memory, pc, hmemory, hpc, -, -, hsecond⟩ :=
        fetchByte_stands hR (s := ⟨memory₁, s.host, { s.core with pc := pc₁ }⟩) hmemory₁ hsize
          hcode₁ hinside₁
      have hlength : pc.toNat = s.core.pc.toNat + 2 := by
        rw [hpc]
        exact congrArg (· + 1) hpc₁
      have hlowByte : (UInt8.ofNat (field % 256)).toNat = field % 256 := by simp
      have hword := Branch.signed_extended_field hlow hhigh
        (w := UInt16.ofNat (field / 256) <<< 8 ||| (UInt8.ofNat (field % 256)).toUInt16) (by
          rw [Branch.toNat_joined hhigh', hlowByte]
          omega)
      refine ⟨memory, pc, _, hmemory, hlength, hword, fun flag => ?_⟩
      rw [branch_far hfirst hsecond hform, hoffset, hsense]
      rfl

end

/-! ## Where it leads -/

theorem eq_ofSigned_of_signed {word : UInt16} {i : Int} (h : signed word = i) :
    word = ofSigned i := by
  rw [← h, ofSigned_signed]

theorem toNat_jumpBy {c : Core} {word : UInt16} {i : Int} (h : signed word = i) :
    ((Core.jumpBy word c).pc.toNat : Int) = ((c.pc.toNat : Int) + i - 2) % 0x100000000 := by
  simp [Core.jumpBy, h, UInt32.ofInt]
  omega

/-- A branch that stands at the program counter is read to its last byte.  It
does no more than that if it waits for the other answer.  Else the offsets 0 and
1 return from the routine with that value, and any other leads to two bytes
before it, counted from behind the branch, and changes nothing but the program
counter. -/
theorem branch_written {M H : Type} [AddressSpace M] {R : M → Image → Prop}
    (hR : MemorySim True R) {s : Machine M H} {image : Image} (hs : R s.memory image)
    (hsize : image.bytes.size < 0x100000000) (b : Branch)
    (hcode : Stands image b.bytes s.core.pc.toNat)
    (hinside : Inside image b.bytes.length s.core.pc.toNat) (flag : Bool) :
    ∃ memory pc, R memory image ∧ pc.toNat = s.core.pc.toNat + b.bytes.length ∧
      (flag ≠ b.sense →
        Machine.branch flag s = .ok () ⟨memory, s.host, { s.core with pc }⟩) ∧
      (flag = b.sense → b.offset = 0 →
        Machine.branch flag s = Machine.ret 0 ⟨memory, s.host, { s.core with pc }⟩) ∧
      (flag = b.sense → b.offset = 1 →
        Machine.branch flag s = Machine.ret 1 ⟨memory, s.host, { s.core with pc }⟩) ∧
      (flag = b.sense → b.offset ≠ 0 → b.offset ≠ 1 →
        ∃ target : UInt32,
          (target.toNat : Int) = ((pc.toNat : Int) + b.offset - 2) % 0x100000000 ∧
          Machine.branch flag s = .ok () ⟨memory, s.host, { s.core with pc := target }⟩) := by
  obtain ⟨memory, pc, word, hmemory, hpc, hword, hbranch⟩ :=
    branch_follows hR hs hsize b hcode hinside
  refine ⟨memory, pc, hmemory, hpc, ?_⟩
  rw [hbranch, Machine.follow]
  refine ⟨fun hne => ?_, fun heq hzero => ?_, fun heq hone => ?_, fun heq hzero hone => ?_⟩
  · rw [if_neg hne]
    rfl
  · obtain rfl : word = 0 := eq_ofSigned_of_signed (hword.trans hzero)
    rw [if_pos heq, if_pos (.inl rfl)]
  · obtain rfl : word = 1 := eq_ofSigned_of_signed (hword.trans hone)
    rw [if_pos heq, if_pos (.inr rfl)]
  · have hjump : ¬ (word = 0 ∨ word = 1) := by
      rintro (rfl | rfl)
      · exact hzero hword.symm
      · exact hone hword.symm
    rw [if_pos heq, if_neg hjump]
    exact ⟨_, toNat_jumpBy (c := { s.core with pc }) hword, rfl⟩

/-- A return in one byte, and in two bytes a jump from 4 to below 0. -/
theorem branch_written_both_forms :
    let image : Image := ⟨#[0, 0x41, 0xBF, 0xFC]⟩
    let one : Branch := .near false ⟨1, by decide⟩
    let back : Branch := .far true (-4) (by decide) (by decide)
    let short : Machine Image Unit := { caller image with core.pc := 1 }
    let long : Machine Image Unit := { caller image with core.pc := 2 }
    one.bytes = [0x41] ∧ back.bytes = [0xBF, 0xFC] ∧
      Machine.branch true short = .ok () { short with core.pc := 2 } ∧
      Machine.branch false short = Machine.ret 1 { short with core.pc := 2 } ∧
      Machine.branch false long = .ok () { long with core.pc := 4 } ∧
      Machine.branch true long = .ok () { long with core.pc := 0xFFFFFFFE } := by
  intro image one back short long
  have hnear : Stands image one.bytes 1 ∧ Inside image 1 1 :=
    ⟨stands_of_byteAt (by decide), by unfold Inside; decide⟩
  have hfar : Stands image back.bytes 2 ∧ Inside image 2 2 :=
    ⟨stands_of_byteAt (by decide), by unfold Inside; decide⟩
  have hshort := branch_written MemorySim.refl (s := short) rfl (by decide) one
    hnear.1 hnear.2
  have hlong := branch_written MemorySim.refl (s := long) rfl (by decide) back
    hfar.1 hfar.2
  refine ⟨by decide, by decide, ?_, ?_, ?_, ?_⟩
  · obtain ⟨_, pc, rfl, hpc, hother, -⟩ := hshort true
    obtain rfl : pc = 2 := UInt32.toNat_inj.mp hpc
    exact hother (by decide)
  · obtain ⟨_, pc, rfl, hpc, -, -, hone, -⟩ := hshort false
    obtain rfl : pc = 2 := UInt32.toNat_inj.mp hpc
    exact hone rfl rfl
  · obtain ⟨_, pc, rfl, hpc, hother, -⟩ := hlong false
    obtain rfl : pc = 4 := UInt32.toNat_inj.mp hpc
    exact hother (by decide)
  · obtain ⟨_, pc, rfl, hpc, -, -, -, hjump⟩ := hlong true
    obtain rfl : pc = 4 := UInt32.toNat_inj.mp hpc
    obtain ⟨target, htarget, hbranch⟩ := hjump rfl (by decide) (by decide)
    obtain rfl : target = 0xFFFFFFFE := UInt32.toNat_inj.mp (Int.ofNat_inj.mp htarget)
    exact hbranch

end ZMachine
