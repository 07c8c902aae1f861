import ZMachine.Instruction.Operand
import ZMachine.Proofs.Image

/-!
# How instructions are written

`Code` is an instruction before it is decoded: a form, an opcode and operands
that are still constants and numbers of variables.  A value of it can be
written in the version it belongs to, and `Code.bytes` writes it.  What its
operands stand for when the instruction is carried out, `Operand.valuesFrom`
tells from the memory, the registers and the stack, without any code.
-/

namespace ZMachine

/-! ## Operands -/

/-- An operand as it is written. -/
inductive Operand where
  | large (value : UInt16)
  | small (value : UInt8)
  /-- The value of a variable; variable 0 is taken off the stack. -/
  | stored (number : UInt8)
  deriving DecidableEq, Repr

/-- The field of a specifier that stands for a kind. -/
def OperandKind.bits : OperandKind → Nat
  | .large => 0
  | .small => 1
  | .variable => 2
  | .omitted => 3

theorem OperandKind.bits_lt (k : OperandKind) : k.bits < 4 := by
  cases k <;> decide

theorem OperandKind.ofBits_eq {n : Nat} {k : OperandKind} (h : n % 4 = k.bits) :
    OperandKind.ofBits n = k := by
  cases k <;> simp [OperandKind.ofBits, h, OperandKind.bits]

namespace Operand

def kind : Operand → OperandKind
  | large _ => .large
  | small _ => .small
  | stored _ => .variable

theorem kind_ne_omitted (o : Operand) : o.kind ≠ .omitted := by
  cases o <;> simp [kind]

def bytes : Operand → List UInt8
  | large value => [highByte value, lowByte value]
  | small value => [value]
  | stored number => [number]

def isStored : Operand → Bool
  | stored _ => true
  | _ => false

theorem kind_of_ne_large {o : Operand} (ho : o.kind ≠ .large) :
    o.kind = if o.isStored then .variable else .small := by
  cases o with
  | large value => exact absurd rfl ho
  | small value => rfl
  | stored number => rfl

/-- Locals and globals, as far as they can be read. -/
def valueOf (image : Image) (c : Core) (number : UInt8) : Option UInt16 :=
  if number < 16 then
    if number.toNat - 1 ≤ c.fp then c.stack[c.fp - (number.toNat - 1)]? else none
  else
    let address := c.header.globals.toNat + (number.toNat - 16) * 2
    if address + 1 < image.bytes.size then some (image.wordAt address) else none

/-- The value of an operand and the stack pointer after it, which starts at
`sp`. -/
def value (image : Image) (c : Core) (sp : Nat) : Operand → Option (UInt16 × Nat)
  | large value => some (value, sp)
  | small value => some (value.toUInt16, sp)
  | stored number =>
    if number = 0 then c.stack[sp]?.map (·, sp + 1)
    else (valueOf image c number).map (·, sp)

/-- The values of operands from left to right. -/
def valuesFrom (image : Image) (c : Core) : (sp : Nat) → List Operand → Option (List UInt16 × Nat)
  | sp, [] => some ([], sp)
  | sp, o :: rest =>
    (o.value image c sp).bind fun (value, sp) =>
      (valuesFrom image c sp rest).map fun (values, sp) => (value :: values, sp)

/-- Only the globals, the frame and the words of the stack matter. -/
theorem value_congr (image : Image) {c c' : Core} (hheader : c'.header = c.header)
    (hstack : c'.stack = c.stack) (hfp : c'.fp = c.fp) (sp : Nat) (o : Operand) :
    o.value image c' sp = o.value image c sp := by
  cases o <;> simp [value, valueOf, hheader, hstack, hfp]

theorem valuesFrom_congr (image : Image) {c c' : Core} (hheader : c'.header = c.header)
    (hstack : c'.stack = c.stack) (hfp : c'.fp = c.fp) (sp : Nat) (operands : List Operand) :
    valuesFrom image c' sp operands = valuesFrom image c sp operands := by
  induction operands generalizing sp with
  | nil => rfl
  | cons o rest ih => simp only [valuesFrom, value_congr image hheader hstack hfp, ih]

end Operand

/-! ## Specifiers -/

/-- Fields of two bits as one number, the first the highest. -/
def joinFields (fields : List Nat) : Nat :=
  fields.foldl (fun n field => n * 4 + field) 0

theorem joinFields_concat (fields : List Nat) (field : Nat) :
    joinFields (fields ++ [field]) = joinFields fields * 4 + field := by
  simp [joinFields]

/-- The fields behind can be shifted out. -/
theorem joinFields_append_shiftRight (front : List Nat) {back : List Nat}
    (hback : ∀ field ∈ back, field < 4) :
    joinFields (front ++ back) >>> (2 * back.length) = joinFields front := by
  rw [joinFields, List.foldl_append, ← joinFields]
  generalize joinFields front = n
  induction back generalizing n with
  | nil => rfl
  | cons field back ih =>
      have hfield : field < 4 := hback field (by simp)
      have hrest := ih (fun f hf => hback f (by simp [hf])) (n * 4 + field)
      have hlast : (n * 4 + field) >>> 2 = n := by
        rw [Nat.shiftRight_eq_div_pow]
        omega
      rw [List.foldl_cons, List.length_cons]
      change _ >>> (2 * back.length + 2) = n
      rw [Nat.shiftRight_add, hrest, hlast]

theorem joinFields_lt {fields : List Nat} (hfields : ∀ field ∈ fields, field < 4) :
    joinFields fields < 1 <<< (2 * fields.length) := by
  have hnone := joinFields_append_shiftRight [] hfields
  rw [List.nil_append, Nat.shiftRight_eq_div_pow] at hnone
  rw [Nat.one_shiftLeft]
  exact Nat.lt_of_div_eq_zero (Nat.two_pow_pos _) hnone

/-- The fields of a specifier with `n` places; in those that are left over the
operand is omitted. -/
def fieldsOf (n : Nat) (operands : List Operand) : List Nat :=
  operands.map (·.kind.bits) ++ List.replicate (n - operands.length) OperandKind.omitted.bits

theorem length_fieldsOf {n : Nat} {operands : List Operand} (h : operands.length ≤ n) :
    (fieldsOf n operands).length = n := by
  simp only [fieldsOf, List.length_append, List.length_map, List.length_replicate]
  omega

theorem lt_of_mem_fieldsOf (n : Nat) (operands : List Operand) :
    ∀ field ∈ fieldsOf n operands, field < 4 := by
  intro field hfield
  rcases List.mem_append.mp hfield with hfield | hfield
  · obtain ⟨o, -, rfl⟩ := List.mem_map.mp hfield
    exact o.kind.bits_lt
  · rw [List.eq_of_mem_replicate hfield]
    decide

theorem fieldsOf_succ_nil (n : Nat) :
    fieldsOf (n + 1) [] = OperandKind.omitted.bits :: fieldsOf n [] :=
  rfl

theorem fieldsOf_succ_cons (n : Nat) (o : Operand) (rest : List Operand) :
    fieldsOf (n + 1) (o :: rest) = o.kind.bits :: fieldsOf n rest := by
  simp [fieldsOf]

theorem ofBits_joinFields (front : List Nat) (k : OperandKind) {n : Nat} {operands : List Operand}
    (hroom : operands.length ≤ n) :
    OperandKind.ofBits (joinFields (front ++ k.bits :: fieldsOf n operands) >>> (2 * n)) = k := by
  have hshift := joinFields_append_shiftRight (front ++ [k.bits])
    (lt_of_mem_fieldsOf n operands)
  rw [List.append_assoc, List.singleton_append, length_fieldsOf hroom] at hshift
  rw [hshift, joinFields_concat]
  have hbits := k.bits_lt
  exact OperandKind.ofBits_eq (by omega)

/-! ## Instructions -/

/-- An instruction that can be written in a story of a version.  The two
operations that take up to eight operands have the opcodes 0x2C and 0x3A; with
these there is no extended form. -/
inductive Code (version : UInt8) where
  | long (opcode : Fin 32) (first second : Operand)
      (hfirst : first.kind ≠ .large) (hsecond : second.kind ≠ .large)
  | short (opcode : Fin 16) (operand : Operand)
  /-- From version 5 on the last but one opcode introduces the extended
  form. -/
  | bare (opcode : Fin 16) (hopcode : opcode.val = 14 → version ≤ 4)
  | listed (opcode : Fin 64) (operands : List Operand)
      (hroom : operands.length ≤ if opcode.val = 0x2C ∨ opcode.val = 0x3A then 8 else 4)
  | extended (opcode : UInt8) (operands : List Operand) (hversion : 4 < version)
      (hopcode : opcode ≠ 0x2C ∧ opcode ≠ 0x3A) (hroom : operands.length ≤ 4)

namespace Code

variable {version : UInt8}

def form : Code version → Form
  | long .. => .twoOp
  | short .. => .oneOp
  | bare .. => .zeroOp
  | listed .. => .variable
  | extended .. => .extended

def opcode : Code version → UInt8
  | long opcode .. => UInt8.ofNat opcode.val
  | short opcode .. => UInt8.ofNat opcode.val
  | bare opcode .. => UInt8.ofNat opcode.val
  | listed opcode .. => UInt8.ofNat opcode.val
  | extended opcode .. => opcode

def operands : Code version → List Operand
  | long _ first second .. => [first, second]
  | short _ operand => [operand]
  | bare .. => []
  | listed _ operands .. => operands
  | extended _ operands .. => operands

/-- A specifier of one byte, or of two for the operations that take up to
eight operands. -/
def specifier (opcode : UInt8) (operands : List Operand) : List UInt8 :=
  if opcode = 0x2C ∨ opcode = 0x3A then
    let word := UInt16.ofNat (joinFields (fieldsOf 8 operands))
    [highByte word, lowByte word]
  else [UInt8.ofNat (joinFields (fieldsOf 4 operands))]

theorem toNat_longSpecifier {operands : List Operand} (hroom : operands.length ≤ 8) :
    (UInt16.ofNat (joinFields (fieldsOf 8 operands))).toNat = joinFields (fieldsOf 8 operands) := by
  have hlt := joinFields_lt (lt_of_mem_fieldsOf 8 operands)
  rw [length_fieldsOf hroom] at hlt
  exact Nat.mod_eq_of_lt hlt

theorem toNat_shortSpecifier {operands : List Operand} (hroom : operands.length ≤ 4) :
    (UInt8.ofNat (joinFields (fieldsOf 4 operands))).toNat = joinFields (fieldsOf 4 operands) := by
  have hlt := joinFields_lt (lt_of_mem_fieldsOf 4 operands)
  rw [length_fieldsOf hroom] at hlt
  exact Nat.mod_eq_of_lt hlt

def first : Code version → UInt8
  | long opcode first second .. =>
    UInt8.ofNat ((if first.isStored then 0x40 else 0) + (if second.isStored then 0x20 else 0) +
      opcode.val)
  | short opcode operand => UInt8.ofNat (0x80 + operand.kind.bits * 0x10 + opcode.val)
  | bare opcode _ => UInt8.ofNat (0xB0 + opcode.val)
  | listed opcode .. => UInt8.ofNat (0xC0 + opcode.val)
  | extended .. => 0xBE

/-- What stands between the first byte and the operands. -/
def announcement : Code version → List UInt8
  | listed opcode operands _ => specifier (UInt8.ofNat opcode.val) operands
  | extended opcode operands .. => opcode :: specifier opcode operands
  | _ => []

def bytes (code : Code version) : List UInt8 :=
  code.first :: (code.announcement ++ code.operands.flatMap Operand.bytes)

/-! ## What the first byte tells -/

theorem classify_of_ne {b : UInt8} (hb : b = 0xBE → version ≤ 4) :
    Form.classify version b =
      if b < 0x80 then .twoOp else if b < 0xB0 then .oneOp else if b < 0xC0 then .zeroOp
      else .variable := by
  refine if_neg ?_
  rintro ⟨rfl, hversion⟩
  exact absurd (hb rfl) (UInt8.not_le.mpr hversion)

theorem first_long (version : UInt8) (opcode : Fin 32) {first second : Operand}
    (hfirst : first.kind ≠ .large) (hsecond : second.kind ≠ .large) :
    let b := (long opcode first second hfirst hsecond : Code version).first
    Form.classify version b = .twoOp ∧ Machine.longKind b 0x40 = first.kind ∧
      Machine.longKind b 0x20 = second.kind ∧ b &&& 0x1F = UInt8.ofNat opcode.val := by
  have hbits : ∀ (opcode : Fin 32) (x y : Bool),
      let b := UInt8.ofNat ((if x then 0x40 else 0) + (if y then 0x20 else 0) + opcode.val)
      b < 0x80 ∧ b ≠ 0xBE ∧ Machine.longKind b 0x40 = (if x then .variable else .small) ∧
        Machine.longKind b 0x20 = (if y then .variable else .small) ∧
        b &&& 0x1F = UInt8.ofNat opcode.val := by
    decide
  obtain ⟨hlt, hne, hkinds⟩ := hbits opcode first.isStored second.isStored
  rw [Operand.kind_of_ne_large hfirst, Operand.kind_of_ne_large hsecond]
  exact ⟨(classify_of_ne fun h => absurd h hne).trans (if_pos hlt), hkinds⟩

theorem first_short (version : UInt8) (opcode : Fin 16) (operand : Operand) :
    let b := (short opcode operand : Code version).first
    Form.classify version b = .oneOp ∧ OperandKind.ofBits (b.toNat / 16) = operand.kind ∧
      b &&& 0x0F = UInt8.ofNat opcode.val := by
  have hbits : ∀ (opcode : Fin 16) (bits : Fin 3),
      let b := UInt8.ofNat (0x80 + bits.val * 0x10 + opcode.val)
      ¬ b < 0x80 ∧ b < 0xB0 ∧ b ≠ 0xBE ∧ b.toNat / 16 % 4 = bits.val ∧
        b &&& 0x0F = UInt8.ofNat opcode.val := by
    decide
  have hkind : operand.kind.bits < 3 := by
    cases operand <;> simp [Operand.kind, OperandKind.bits]
  obtain ⟨hge, hlt, hne, hfield, hopcode⟩ := hbits opcode ⟨operand.kind.bits, hkind⟩
  refine ⟨?_, OperandKind.ofBits_eq hfield, hopcode⟩
  exact (classify_of_ne fun h => absurd h hne).trans (by rw [if_neg hge, if_pos hlt])

theorem first_bare (opcode : Fin 16) (hversion : opcode.val = 14 → version ≤ 4) :
    let b := (bare opcode hversion : Code version).first
    Form.classify version b = .zeroOp ∧ b &&& 0x0F = UInt8.ofNat opcode.val := by
  have hbits : ∀ opcode : Fin 16,
      let b := UInt8.ofNat (0xB0 + opcode.val)
      ¬ b < 0x80 ∧ ¬ b < 0xB0 ∧ b < 0xC0 ∧ (b = 0xBE → opcode.val = 14) ∧
        b &&& 0x0F = UInt8.ofNat opcode.val := by
    decide
  obtain ⟨hge, hge', hlt, hne, hopcode⟩ := hbits opcode
  refine ⟨?_, hopcode⟩
  exact (classify_of_ne fun h => hversion (hne h)).trans
    (by rw [if_neg hge, if_neg hge', if_pos hlt])

theorem first_listed (version : UInt8) (opcode : Fin 64) {operands : List Operand}
    (hroom : operands.length ≤ if opcode.val = 0x2C ∨ opcode.val = 0x3A then 8 else 4) :
    let b := (listed opcode operands hroom : Code version).first
    Form.classify version b = .variable ∧ b &&& 0x3F = UInt8.ofNat opcode.val := by
  have hbits : ∀ opcode : Fin 64,
      let b := UInt8.ofNat (0xC0 + opcode.val)
      ¬ b < 0x80 ∧ ¬ b < 0xB0 ∧ ¬ b < 0xC0 ∧ b ≠ 0xBE ∧ b &&& 0x3F = UInt8.ofNat opcode.val := by
    decide
  obtain ⟨hge, hge', hge'', hne, hopcode⟩ := hbits opcode
  refine ⟨?_, hopcode⟩
  exact (classify_of_ne fun h => absurd h hne).trans (by rw [if_neg hge, if_neg hge', if_neg hge''])

theorem classify_extended (hversion : 4 < version) : Form.classify version 0xBE = .extended :=
  if_pos ⟨rfl, hversion⟩

end Code
end ZMachine
