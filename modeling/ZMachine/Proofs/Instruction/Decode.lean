import ZMachine.Proofs.Instruction.Encoding
import ZMachine.Proofs.Simulation.Run

/-!
# Decoding gives back what is written

`Delivers` follows a computation that reads code: where the code it reads
stands in memory, it answers what is expected of it and leaves the program
counter behind that code; it fails if a byte of the code is not in memory, or
if nothing is expected.  Such computations compose like the code they read.
-/

namespace ZMachine

open MachineM

/-- The code stands at an address, as far as there is memory. -/
def Stands (image : Image) (code : List UInt8) (address : Nat) : Prop :=
  ∀ i b, code[i]? = some b → address + i < image.bytes.size → image.byteAt (address + i) = b

/-- A number of bytes from an address on are in memory. -/
def Inside (image : Image) (length address : Nat) : Prop :=
  ∀ i < length, address + i < image.bytes.size

variable {H α β : Type}

/-- The machine with the program counter moved on and another stack
pointer. -/
def Machine.movedOn (s : Machine Image H) (n sp : Nat) : Machine Image H :=
  { s with core := { s.core with pc := s.core.pc + UInt32.ofNat n, sp } }

/-- Reading the code at the program counter gives the answer and the stack
pointer that are expected. -/
def Delivers (s : Machine Image H) (code : List UInt8) (x : MachineM Image H α)
    (expected : Option (α × Nat)) : Prop :=
  s.memory.bytes.size < 0x100000000 → Stands s.memory code s.core.pc.toNat →
    (∀ a sp, Inside s.memory code.length s.core.pc.toNat → expected = some (a, sp) →
      x s = .ok a (s.movedOn code.length sp)) ∧
    (¬ Inside s.memory code.length s.core.pc.toNat ∨ expected = none →
      ∃ e s', x s = .error e s')

/-! ## Composition -/

theorem Stands.append {image : Image} {front back : List UInt8} {address : Nat}
    (h : Stands image (front ++ back) address) :
    Stands image front address ∧ Stands image back (address + front.length) := by
  constructor
  · intro i b hi hlt
    obtain ⟨hlength, -⟩ := List.getElem?_eq_some_iff.mp hi
    exact h i b (by rw [List.getElem?_append_left hlength, hi]) hlt
  · intro i b hi hlt
    rw [Nat.add_assoc] at hlt ⊢
    refine h (front.length + i) b ?_ hlt
    rw [List.getElem?_append_right (by omega), Nat.add_sub_cancel_left, hi]

theorem inside_append {image : Image} {m n address : Nat} :
    Inside image (m + n) address ↔ Inside image m address ∧ Inside image n (address + m) := by
  constructor
  · intro h
    exact ⟨fun i hi => h i (by omega), fun i hi => by have := h (m + i) (by omega); omega⟩
  · rintro ⟨hm, hn⟩ i hi
    by_cases him : i < m
    · exact hm i him
    · have := hn (i - m) (by omega)
      omega

namespace Machine

variable {s : Machine Image H} {n sp : Nat}

theorem toNat_pc_movedOn (hsize : s.memory.bytes.size < 0x100000000)
    (hinside : Inside s.memory n s.core.pc.toNat) (sp : Nat) :
    (s.movedOn n sp).core.pc.toNat = s.core.pc.toNat + n := by
  have hpc := s.core.pc.toNat_lt
  have hlast : n = 0 ∨ s.core.pc.toNat + (n - 1) < s.memory.bytes.size := by
    rcases Nat.eq_zero_or_pos n with hn | hn
    · exact .inl hn
    · exact .inr (hinside (n - 1) (by omega))
  simp only [movedOn, UInt32.toNat_add, UInt32.toNat_ofNat']
  omega

theorem movedOn_movedOn (s : Machine Image H) (m n sp sp' : Nat) :
    (s.movedOn m sp).movedOn n sp' = s.movedOn (m + n) sp' := by
  simp [movedOn, UInt32.ofNat_add, UInt32.add_assoc]

theorem value_movedOn (s : Machine Image H) (n sp sp' : Nat) (o : Operand) :
    o.value (s.movedOn n sp).memory (s.movedOn n sp).core sp' = o.value s.memory s.core sp' := by
  apply Operand.value_congr <;> rfl

theorem valuesFrom_movedOn (s : Machine Image H) (n sp sp' : Nat) (operands : List Operand) :
    Operand.valuesFrom (s.movedOn n sp).memory (s.movedOn n sp).core sp' operands =
      Operand.valuesFrom s.memory s.core sp' operands := by
  apply Operand.valuesFrom_congr <;> rfl

theorem movedOn_zero (s : Machine Image H) (sp : Nat) :
    s.movedOn 0 sp = { s with core := { s.core with sp } } := by
  simp [movedOn]

end Machine

namespace Delivers

variable {s : Machine Image H} {code code' : List UInt8}

/-- What reads no code cannot fail for lack of it. -/
theorem still {x : MachineM Image H α} {expected : Option (α × Nat)}
    (hok : ∀ a sp, expected = some (a, sp) →
      x s = .ok a { s with core := { s.core with sp } })
    (herror : expected = none → ∃ e s', x s = .error e s') : Delivers s [] x expected := by
  intro _ _
  refine ⟨?_, ?_⟩
  · intro a sp _ hexpected
    rw [hok a sp hexpected, List.length_nil, Machine.movedOn_zero]
  · rintro (houtside | hnone)
    · exact absurd (fun _ hi => absurd hi (Nat.not_lt_zero _)) houtside
    · exact herror hnone

theorem pure (a : α) : Delivers s [] (Pure.pure a) (some (a, s.core.sp)) := by
  refine .still ?_ fun hnone => by cases hnone
  rintro _ _ ⟨⟩
  rfl

theorem bind {x : MachineM Image H α} {f : α → MachineM Image H β} {expected : Option (α × Nat)}
    {expected' : α → Nat → Option (β × Nat)} (hx : Delivers s code x expected)
    (hf : ∀ a sp, expected = some (a, sp) →
      Delivers (s.movedOn code.length sp) code' (f a) (expected' a sp)) :
    Delivers s (code ++ code') (x >>= f) (expected.bind fun (a, sp) => expected' a sp) := by
  intro hsize hstands
  obtain ⟨hfront, hback⟩ := hstands.append
  obtain ⟨hok, herror⟩ := hx hsize hfront
  rw [List.length_append, inside_append]
  by_cases hinside : Inside s.memory code.length s.core.pc.toNat
  case neg =>
    obtain ⟨e, s', hx⟩ := herror (.inl hinside)
    exact ⟨fun _ _ h => absurd h.1 hinside, fun _ => ⟨e, s', bind_error hx⟩⟩
  cases hexpected : expected with
  | none =>
      obtain ⟨e, s', hx⟩ := herror (.inr hexpected)
      refine ⟨?_, fun _ => ⟨e, s', bind_error hx⟩⟩
      intro _ _ _ hnone
      cases hnone
  | some p =>
      obtain ⟨a, sp⟩ := p
      have hpc := Machine.toNat_pc_movedOn hsize hinside sp
      rw [bind_ok (hok a sp hinside hexpected)]
      have hrest := hf a sp hexpected hsize
      rw [hpc] at hrest
      obtain ⟨hok', herror'⟩ := hrest hback
      refine ⟨?_, ?_⟩
      · intro b sp' hall hb
        rw [hok' b sp' hall.2 hb, Machine.movedOn_movedOn]
      · rintro (houtside | hnone)
        · exact herror' (.inl fun h => houtside ⟨hinside, h⟩)
        · exact herror' (.inr hnone)

/-- Behind code that gives its answer in any case. -/
theorem andThen {x : MachineM Image H α} {f : α → MachineM Image H β} {a : α} {sp : Nat}
    {expected : Option (β × Nat)} (hx : Delivers s code x (some (a, sp)))
    (hf : Delivers (s.movedOn code.length sp) code' (f a) expected) :
    Delivers s (code ++ code') (x >>= f) expected := by
  refine @bind H α β s code code' x f _ (fun _ _ => expected) hx fun a' sp' h => ?_
  cases h
  exact hf

theorem map {x : MachineM Image H α} {expected : Option (α × Nat)} (hx : Delivers s code x expected)
    (f : α → β) :
    Delivers s code (x >>= fun a => Pure.pure (f a))
      (expected.map fun (a, sp) => (f a, sp)) := by
  have h := hx.bind fun a sp _ => Delivers.pure (f a)
  rw [List.append_nil] at h
  exact Option.map_eq_bind .. ▸ h

/-- A look at the registers reads no code. -/
theorem look {f : Core → MachineM Image H α} {expected : Option (α × Nat)}
    (h : Delivers s code (f s.core) expected) : Delivers s code (getCore >>= f) expected :=
  h

theorem lookVersion {f : UInt8 → MachineM Image H α} {expected : Option (α × Nat)}
    (h : Delivers s code (f s.core.header.version) expected) :
    Delivers s code (MachineM.version >>= f) expected :=
  h

/-! ## Bytes and words of code -/

/-- Read what stands at the program counter and move on behind it. -/
theorem fetch {x : MemoryM Image α} {a : α}
    (hok : Inside s.memory code.length s.core.pc.toNat → Stands s.memory code s.core.pc.toNat →
      x s.memory = .ok a s.memory)
    (herror : ¬ Inside s.memory code.length s.core.pc.toNat → ∃ e, x s.memory = .error e s.memory) :
    Delivers s code
      (do let a ← ofMemory x
          modifyCore fun c => { c with pc := c.pc + UInt32.ofNat code.length }
          return a)
      (some (a, s.core.sp)) := by
  intro _ hstands
  refine ⟨?_, ?_⟩
  · rintro _ _ hinside ⟨⟩
    exact bind_ok (ofMemory_eq_ok_iff.mpr ⟨_, hok hinside hstands, rfl⟩)
  · rintro (houtside | hnone)
    · obtain ⟨e, he⟩ := herror houtside
      exact ⟨e, s, bind_error (ofMemory_eq_error_iff.mpr ⟨_, he, rfl⟩)⟩
    · cases hnone

theorem fetchByte (b : UInt8) : Delivers s [b] Machine.fetchByte (some (b, s.core.sp)) := by
  refine .look (fetch ?_ ?_)
  · intro hinside hstands
    have hlt : s.core.pc.toNat < s.memory.bytes.size := hinside 0 (by simp)
    have hbyte : s.memory.byteAt s.core.pc.toNat = b := hstands 0 b rfl hlt
    rw [Image.readByte_of_lt hlt, hbyte]
  · intro houtside
    refine Image.readByte_of_ge (Nat.not_lt.mp fun hlt => houtside fun i hi => ?_)
    rw [List.length_singleton, Nat.lt_one_iff] at hi
    exact hi ▸ hlt

theorem fetchWord (w : UInt16) :
    Delivers s [highByte w, lowByte w] Machine.fetchWord (some (w, s.core.sp)) := by
  refine .look (fetch ?_ ?_)
  · intro hinside hstands
    have hlt : s.core.pc.toNat + 1 < s.memory.bytes.size := hinside 1 (by simp)
    have hhigh : s.memory.byteAt s.core.pc.toNat = highByte w := hstands 0 _ rfl (by omega)
    have hlow : s.memory.byteAt (s.core.pc.toNat + 1) = lowByte w := hstands 1 _ rfl hlt
    rw [Image.readWord_of_lt hlt, Image.wordAt, hhigh, hlow, wordOfBytes_highByte_lowByte]
  · intro houtside
    refine Image.readWord_of_ge (Nat.not_lt.mp fun hlt => houtside fun i hi => ?_)
    change i < 2 at hi
    omega

/-! ## Operands -/

theorem pop :
    Delivers s [] (ofCore Core.pop) (s.core.stack[s.core.sp]?.map (·, s.core.sp + 1)) := by
  refine .still ?_ ?_
  · intro value sp hvalue
    obtain ⟨_, hword, ⟨⟩⟩ := Option.map_eq_some_iff.mp hvalue
    exact ofCore_eq_ok_iff.mpr ⟨_, by rw [Core.pop, hword], rfl⟩
  · intro hnone
    have hempty := Option.map_eq_none_iff.mp hnone
    exact ⟨_, s, ofCore_eq_error_iff.mpr ⟨_, by rw [Core.pop, hempty], rfl⟩⟩

theorem readLocal {number : UInt8} (hlocal : number < 16) :
    Delivers s [] (ofCore (Core.readLocal number.toNat))
      ((Operand.valueOf s.memory s.core number).map (·, s.core.sp)) := by
  rw [Operand.valueOf, if_pos hlocal]
  refine .still ?_ ?_
  · intro value sp hvalue
    obtain ⟨_, hword, ⟨⟩⟩ := Option.map_eq_some_iff.mp hvalue
    refine ofCore_eq_ok_iff.mpr ⟨s.core, ?_, rfl⟩
    split at hword
    next hindex => rw [Core.readLocal_eq, if_pos hindex, hword]
    next => cases hword
  · intro hnone
    have habsent := Option.map_eq_none_iff.mp hnone
    split at habsent
    next hindex =>
      refine ⟨.stackUnderflow, s, ofCore_eq_error_iff.mpr ⟨s.core, ?_, rfl⟩⟩
      rw [Core.readLocal_eq, if_pos hindex, habsent]
    next hindex =>
      refine ⟨.stackOverflow, s, ofCore_eq_error_iff.mpr ⟨s.core, ?_, rfl⟩⟩
      rw [Core.readLocal_eq, if_neg hindex]

theorem readGlobal {number : UInt8} (hglobal : ¬ number < 16) :
    Delivers s [] (ofMemory (Memory.readWord (Machine.globalAddress s.core.header number)))
      ((Operand.valueOf s.memory s.core number).map (·, s.core.sp)) := by
  rw [Operand.valueOf, if_neg hglobal]
  dsimp only
  refine .still ?_ ?_
  · intro value sp hvalue
    split at hvalue <;> cases hvalue
    next hlt => exact ofMemory_eq_ok_iff.mpr ⟨_, Image.readWord_of_lt hlt, rfl⟩
  · intro hnone
    split at hnone
    next => cases hnone
    next hge =>
      obtain ⟨e, he⟩ := Image.readWord_of_ge (Nat.not_lt.mp hge)
      exact ⟨e, s, ofMemory_eq_error_iff.mpr ⟨_, he, rfl⟩⟩

theorem loadVariable {number : UInt8} (hnumber : number ≠ 0) :
    Delivers s [] (Machine.loadVariable number)
      ((Operand.valueOf s.memory s.core number).map (·, s.core.sp)) := by
  unfold Machine.loadVariable
  rw [if_neg hnumber]
  by_cases hlocal : number < 16
  · rw [if_pos hlocal]
    exact .readLocal hlocal
  · rw [if_neg hlocal]
    exact .readGlobal hlocal

theorem loadOperand (o : Operand) :
    Delivers s o.bytes (Machine.loadOperand o.kind) (o.value s.memory s.core s.core.sp) := by
  cases o with
  | large value => exact .fetchWord value
  | small value => exact (fetchByte value).map UInt8.toUInt16
  | stored number =>
      rw [Operand.bytes, ← List.append_nil [number], Operand.value]
      refine (fetchByte number).andThen ?_
      by_cases hnumber : number = 0
      · rw [if_pos hnumber, if_pos hnumber]
        exact .pop
      · rw [if_neg hnumber, if_neg hnumber]
        exact .loadVariable hnumber

/-- Operands of which the specifier has announced those in front. -/
theorem loadOperands {n : Nat} {operands : List Operand} {ops : Operands} (front : List Nat)
    (hroom : operands.length ≤ n) (hlimit : ops.values.length + n ≤ Operands.limit) :
    Delivers s (operands.flatMap Operand.bytes)
      (Machine.loadOperands (joinFields (front ++ fieldsOf n operands)) n ops)
      ((Operand.valuesFrom s.memory s.core s.core.sp operands).map fun (values, sp) =>
        (⟨ops.values ++ values⟩, sp)) := by
  induction n generalizing s operands ops front with
  | zero =>
      obtain rfl := List.eq_nil_of_length_eq_zero (Nat.le_zero.mp hroom)
      simp only [Operand.valuesFrom, Option.map_some, List.append_nil]
      exact .pure ops
  | succ n ih =>
      rw [Machine.loadOperands]
      cases operands with
      | nil =>
          rw [fieldsOf_succ_nil, ofBits_joinFields front .omitted (Nat.zero_le n)]
          simp only [Operand.valuesFrom, Option.map_some, List.append_nil]
          exact .pure ops
      | cons o rest =>
          rw [List.length_cons] at hroom
          rw [fieldsOf_succ_cons, ofBits_joinFields front _ (by omega), if_neg o.kind_ne_omitted,
            List.flatMap_cons]
          have hpush : ∀ value, (ops.push value).values = ops.values ++ [value] := by
            intro value
            rw [Operands.push, if_pos (by omega)]
          have hall := (loadOperand o).bind fun value sp _ =>
            @ih (s.movedOn o.bytes.length sp) rest (ops.push value) (front ++ [o.kind.bits])
              (by omega) (by rw [hpush, List.length_append, List.length_singleton]; omega)
          simp only [hpush, Machine.valuesFrom_movedOn, List.append_assoc,
            List.singleton_append] at hall
          simp only [Operand.valuesFrom, Option.map_bind, Option.map_map, Function.comp_def]
          exact hall

theorem loadSpecified {opcode : UInt8} {operands : List Operand}
    (hroom : operands.length ≤ if opcode = 0x2C ∨ opcode = 0x3A then 8 else 4) :
    Delivers s (Code.specifier opcode operands ++ operands.flatMap Operand.bytes)
      (Machine.loadSpecified opcode)
      ((Operand.valuesFrom s.memory s.core s.core.sp operands).map fun (values, sp) =>
        (⟨values⟩, sp)) := by
  rw [Code.specifier, Machine.loadSpecified]
  by_cases hlong : opcode = 0x2C ∨ opcode = 0x3A
  · have hbytes : Machine.hasLongSpecifier opcode = true := decide_eq_true hlong
    rw [if_pos hlong] at hroom
    rw [if_pos hlong, if_pos hbytes]
    have hword := Code.toNat_longSpecifier hroom
    refine (fetchWord _).andThen ?_
    rw [hword]
    exact Machine.valuesFrom_movedOn s .. ▸ loadOperands [] hroom (by decide)
  · have hbytes : ¬ Machine.hasLongSpecifier opcode = true := mt of_decide_eq_true hlong
    rw [if_neg hlong] at hroom
    rw [if_neg hlong, if_neg hbytes]
    have hbyte := Code.toNat_shortSpecifier hroom
    refine (fetchByte _).andThen ?_
    rw [hbyte]
    exact Machine.valuesFrom_movedOn s .. ▸ loadOperands [] hroom (by decide)

/-! ## Instructions -/

/-- What follows the first byte, once its form is known. -/
def decodeAs (address : UInt32) (first : UInt8) : Form → MachineM Image H Instruction
  | .extended => do
    let opcode ← Machine.fetchByte
    return { address, form := .extended, opcode, operands := ← Machine.loadSpecified opcode }
  | .twoOp => do
    let a ← Machine.loadOperand (Machine.longKind first 0x40)
    let b ← Machine.loadOperand (Machine.longKind first 0x20)
    return { address, form := .twoOp, opcode := first &&& 0x1F, operands := ⟨[a, b]⟩ }
  | .oneOp => do
    let a ← Machine.loadOperand (OperandKind.ofBits (first.toNat / 16))
    return { address, form := .oneOp, opcode := first &&& 0x0F, operands := ⟨[a]⟩ }
  | .zeroOp => return { address, form := .zeroOp, opcode := first &&& 0x0F, operands := {} }
  | .variable => do
    let opcode := first &&& 0x3F
    return { address, form := .variable, opcode, operands := ← Machine.loadSpecified opcode }

theorem decode_eq : (Machine.decode : MachineM Image H Instruction) = (do
    let address := (← getCore).pc
    let first ← Machine.fetchByte
    decodeAs address first (Form.classify (← version) first)) := by
  refine congrArg (getCore >>= ·) (funext fun c => ?_)
  refine congrArg (Machine.fetchByte >>= ·) (funext fun first => ?_)
  refine congrArg (version >>= ·) (funext fun version => ?_)
  dsimp only
  cases Form.classify version first <;> rfl

variable (address : UInt32) (opcode : UInt8)

theorem listedInstruction {operands : List Operand} (form : Form)
    (hroom : operands.length ≤ if opcode = 0x2C ∨ opcode = 0x3A then 8 else 4) :
    Delivers s (Code.specifier opcode operands ++ operands.flatMap Operand.bytes)
      (do return ⟨address, form, opcode, ← Machine.loadSpecified opcode⟩)
      ((Operand.valuesFrom s.memory s.core s.core.sp operands).map fun (values, sp) =>
        ((⟨address, form, opcode, ⟨values⟩⟩ : Instruction), sp)) := by
  have h := (@loadSpecified H s opcode operands hroom).map fun operands =>
    (⟨address, form, opcode, operands⟩ : Instruction)
  rw [Option.map_map] at h
  exact h

theorem shortInstruction (operand : Operand) :
    Delivers s operand.bytes
      (do return ⟨address, .oneOp, opcode, ⟨[← Machine.loadOperand operand.kind]⟩⟩)
      ((Operand.valuesFrom s.memory s.core s.core.sp [operand]).map fun (values, sp) =>
        ((⟨address, .oneOp, opcode, ⟨values⟩⟩ : Instruction), sp)) := by
  have h := (@loadOperand H s operand).map fun a =>
    (⟨address, .oneOp, opcode, ⟨[a]⟩⟩ : Instruction)
  simp only [Operand.valuesFrom, Option.map_some, Option.map_bind, Function.comp_def]
  rw [Option.map_eq_bind] at h
  exact h

theorem longInstruction (first second : Operand) :
    Delivers s (first.bytes ++ second.bytes)
      (do
        let a ← Machine.loadOperand first.kind
        let b ← Machine.loadOperand second.kind
        return ⟨address, .twoOp, opcode, ⟨[a, b]⟩⟩)
      ((Operand.valuesFrom s.memory s.core s.core.sp [first, second]).map fun (values, sp) =>
        ((⟨address, .twoOp, opcode, ⟨values⟩⟩ : Instruction), sp)) := by
  have h := (@loadOperand H s first).bind fun a sp _ =>
    (@loadOperand H (s.movedOn first.bytes.length sp) second).map fun b =>
      (⟨address, .twoOp, opcode, ⟨[a, b]⟩⟩ : Instruction)
  simp only [Machine.value_movedOn, Option.map_eq_bind] at h
  simp only [Operand.valuesFrom, Option.map_eq_bind, Option.bind_assoc]
  exact h

theorem decode (code : Code s.core.header.version) :
    Delivers s code.bytes Machine.decode
      ((Operand.valuesFrom s.memory s.core s.core.sp code.operands).map fun (values, sp) =>
        (⟨s.core.pc, code.form, code.opcode, ⟨values⟩⟩, sp)) := by
  rw [decode_eq, Code.bytes, ← List.singleton_append]
  refine .look ((fetchByte code.first).andThen (.lookVersion ?_))
  change Delivers (s.movedOn 1 s.core.sp) _
    (decodeAs s.core.pc code.first (Form.classify s.core.header.version code.first)) _
  rw [← Machine.valuesFrom_movedOn s 1 s.core.sp]
  cases code with
  | long opcode first second hfirst hsecond =>
      obtain ⟨hform, hkind, hkind', hopcode⟩ :=
        Code.first_long s.core.header.version opcode hfirst hsecond
      rw [hform, decodeAs, hkind, hkind', hopcode]
      have h := @longInstruction H (s.movedOn 1 s.core.sp) s.core.pc (UInt8.ofNat opcode.val)
        first second
      rw [← List.append_nil second.bytes] at h
      exact h
  | short opcode operand =>
      obtain ⟨hform, hkind, hopcode⟩ :=
        Code.first_short s.core.header.version opcode operand
      rw [hform, decodeAs, hkind, hopcode]
      have h := @shortInstruction H (s.movedOn 1 s.core.sp) s.core.pc (UInt8.ofNat opcode.val)
        operand
      rw [← List.append_nil operand.bytes] at h
      exact h
  | bare opcode hversion =>
      obtain ⟨hform, hopcode⟩ := Code.first_bare opcode hversion
      rw [hform, decodeAs, hopcode]
      exact .pure _
  | listed opcode operands hroom =>
      obtain ⟨hform, hopcode⟩ :=
        Code.first_listed s.core.header.version opcode hroom
      have hnumber : ∀ opcode : Fin 64,
          (UInt8.ofNat opcode.val = 0x2C ∨ UInt8.ofNat opcode.val = 0x3A) ↔
            (opcode.val = 0x2C ∨ opcode.val = 0x3A) := by
        decide
      rw [hform, decodeAs, hopcode]
      simp only [← hnumber opcode] at hroom
      exact .listedInstruction _ _ _ hroom
  | extended opcode operands hversion hopcode hroom =>
      rw [Code.first, Code.classify_extended hversion]
      refine (fetchByte opcode).andThen ?_
      rw [← Machine.valuesFrom_movedOn (s.movedOn 1 s.core.sp) 1 s.core.sp]
      refine .listedInstruction _ _ _ ?_
      rw [if_neg (not_or.mpr hopcode)]
      exact hroom

/-! ## Answers -/

section

variable {x : MachineM Image H α} {expected : Option (α × Nat)} {s' : Machine Image H}

theorem of_ok (hx : Delivers s code x expected) (hsize : s.memory.bytes.size < 0x100000000)
    (hcode : Stands s.memory code s.core.pc.toNat) {a : α} (h : x s = .ok a s') :
    ∃ sp, Inside s.memory code.length s.core.pc.toNat ∧ expected = some (a, sp) ∧
      s' = s.movedOn code.length sp := by
  obtain ⟨hok, herror⟩ := hx hsize hcode
  by_cases hinside : Inside s.memory code.length s.core.pc.toNat
  case neg =>
    obtain ⟨e, s₁, hx⟩ := herror (.inl hinside)
    cases h.symm.trans hx
  cases hexpected : expected with
  | none =>
      obtain ⟨e, s₁, hx⟩ := herror (.inr hexpected)
      cases h.symm.trans hx
  | some p =>
      cases h.symm.trans (hok p.1 p.2 hinside hexpected)
      exact ⟨p.2, hinside, rfl, rfl⟩

theorem of_error (hx : Delivers s code x expected) (hsize : s.memory.bytes.size < 0x100000000)
    (hcode : Stands s.memory code s.core.pc.toNat) {e : Fault} (h : x s = .error e s') :
    ¬ Inside s.memory code.length s.core.pc.toNat ∨ expected = none := by
  by_cases hinside : Inside s.memory code.length s.core.pc.toNat
  case neg => exact .inl hinside
  refine .inr (Option.eq_none_iff_forall_ne_some.mpr fun p hp => ?_)
  cases h.symm.trans ((hx hsize hcode).1 p.1 p.2 hinside hp)

end

end Delivers

/-- Decoding inverts the encoding: what is written at the program counter comes
back with the values of its operands, and nothing changes but the program
counter, which stands behind the code, and the stack pointer.  It fails only
for a value or a byte of code that is not there. -/
theorem decode_written {M : Type} [AddressSpace M] {R : M → Image → Prop} (hR : MemorySim True R)
    {s : Machine M H} {image : Image} (hs : R s.memory image)
    (hsize : image.bytes.size < 0x100000000) (code : Code s.core.header.version)
    (hcode : Stands image code.bytes s.core.pc.toNat) :
    (∀ i s', Machine.decode s = .ok i s' →
      ∃ values sp memory pc,
        Operand.valuesFrom image s.core s.core.sp code.operands = some (values, sp) ∧
        i = ⟨s.core.pc, code.form, code.opcode, ⟨values⟩⟩ ∧ R memory image ∧
        pc.toNat = s.core.pc.toNat + code.bytes.length ∧
        s' = ⟨memory, s.host, { s.core with pc, sp }⟩) ∧
    ∀ e s', Machine.decode s = .error e s' →
      Operand.valuesFrom image s.core s.core.sp code.operands = none ∨
        ∃ i < code.bytes.length, image.bytes.size ≤ s.core.pc.toNat + i := by
  have hsim := (SameParts.machineSim (H := H) hR).decode (SameParts.ofCore _)
  have hparts : SameParts R s (⟨image, s.host, s.core⟩ : Machine Image H) := ⟨hs, rfl, rfl⟩
  have hdelivers := @Delivers.decode H ⟨image, s.host, s.core⟩ code
  refine ⟨?_, ?_⟩
  · intro i s' hdecode
    obtain ⟨t, ht, hmemory, hhost, hcore⟩ := hsim.ok hparts hdecode
    obtain ⟨sp, hinside, hexpected, rfl⟩ := hdelivers.of_ok hsize hcode ht
    obtain ⟨⟨values, sp'⟩, hvalues, heq⟩ := Option.map_eq_some_iff.mp hexpected
    cases heq
    refine ⟨values, sp, s'.memory, _, hvalues, rfl, hmemory,
      Machine.toNat_pc_movedOn hsize hinside sp, ?_⟩
    cases s'
    cases hhost
    cases hcore
    rfl
  · intro e s' hdecode
    obtain ⟨t, ht, -⟩ := hsim.error trivial hparts hdecode
    rcases hdelivers.of_error hsize hcode ht with houtside | hnone
    · refine .inr ?_
      simpa [Inside] using houtside
    · exact .inl (Option.map_eq_none_iff.mp hnone)

theorem stands_of_byteAt {image : Image} {code : List UInt8} {address : Nat}
    (h : ∀ i < code.length, code[i]? = some (image.byteAt (address + i))) :
    Stands image code address := by
  intro i b hi _
  obtain ⟨hlt, -⟩ := List.getElem?_eq_some_iff.mp hi
  exact Option.some.inj ((h i hlt).symm.trans hi)

/-- A call with a routine, a constant, two words from the stack and a global,
in which the first word that is popped is the third operand. -/
def callCode : Code 5 :=
  .listed 0x2C [.large 0x1234, .small 7, .stored 0, .stored 0, .stored 16] (by decide)

/-- The other long call, with all its eight operands. -/
def fullCallCode : Code 5 :=
  .listed 0x3A [.large 0x1234, .small 1, .stored 0, .small 3, .stored 0, .small 5, .stored 16,
    .small 7] (by decide)

/-- Code behind the only global. -/
def codeImage (code : Code 5) : Image :=
  ⟨#[0xBE, 0xEF] ++ code.bytes.toArray⟩

/-- Two words are on the stack, 22 above 11, and the globals are at 0. -/
def caller (image : Image) : Machine Image Unit where
  memory := image
  host := ()
  core :=
    { Core.blank { (default : Header) with version := 5 } {} with
      pc := 2
      sp := stackSize - 2
      stack := (Vector.replicate stackSize 11).setIfInBounds (stackSize - 2) 22 }

theorem decode_written_call :
    (∃ i s', Machine.decode (caller (codeImage callCode)) = .ok i s' ∧
      i = ⟨2, .variable, 0x2C, ⟨[0x1234, 7, 22, 11, 0xBEEF]⟩⟩ ∧
      s'.core.sp = stackSize ∧ s'.core.pc.toNat = 11) ∧
    ∃ i s', Machine.decode (caller (codeImage fullCallCode)) = .ok i s' ∧
      i = ⟨2, .variable, 0x3A, ⟨[0x1234, 1, 22, 3, 11, 5, 0xBEEF, 7]⟩⟩ ∧
      s'.core.sp = stackSize ∧ s'.core.pc.toNat = 14 := by
  have hdecode : ∀ (code : Code 5) (values : List UInt16),
      (codeImage code).bytes.size < 0x100000000 →
      (∀ i < code.bytes.length, code.bytes[i]? = some ((codeImage code).byteAt (2 + i))) →
      (∀ i < code.bytes.length, 2 + i < (codeImage code).bytes.size) →
      Operand.valuesFrom (codeImage code) (caller (codeImage code)).core (stackSize - 2)
        code.operands = some (values, stackSize) →
      ∃ i s', Machine.decode (caller (codeImage code)) = .ok i s' ∧
        i = ⟨2, code.form, code.opcode, ⟨values⟩⟩ ∧ s'.core.sp = stackSize ∧
        s'.core.pc.toNat = 2 + code.bytes.length := by
    intro code values hsize hbytes hinside hvalues
    obtain ⟨hok, herror⟩ :=
      @decode_written Unit Image _ _ MemorySim.refl (caller (codeImage code)) (codeImage code) rfl
        hsize code (stands_of_byteAt hbytes)
    cases h : Machine.decode (caller (codeImage code)) with
    | ok i s' =>
        obtain ⟨values', sp, memory, pc, hread, rfl, -, hpc, rfl⟩ := hok i s' h
        cases hvalues.symm.trans hread
        exact ⟨_, _, rfl, rfl, rfl, hpc⟩
    | error e s' =>
        rcases herror e s' h with hnone | ⟨i, hi, houtside⟩
        · cases hvalues.symm.trans hnone
        · exact absurd (hinside i hi) (Nat.not_lt.mpr houtside)
  exact ⟨hdecode callCode _ (by decide +kernel) (by decide +kernel) (by decide +kernel)
      (by decide +kernel),
    hdecode fullCallCode _ (by decide +kernel) (by decide +kernel) (by decide +kernel)
      (by decide +kernel)⟩

end ZMachine
