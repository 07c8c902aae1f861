import ZMachine.Dictionary
import ZMachine.Property
import ZMachine.Machine.Input
import ZMachine.Machine.SaveFile
import ZMachine.Machine.Table
import ZMachine.Proofs.Simulation.Memory

/-!
# Simulation of what a story keeps in memory

Headers, strings, objects, properties and dictionaries are read and changed
through the byte interface only.  Each of these computations is parametric in
the memory, by the composition of its parts; loops are followed by the
recursion that defines them.

Strings are decoded on a memory with the text found so far beside it.
`DecodeSim` is what has to be shown of a relation between such states.
-/

namespace ZMachine

variable {M N : Type} [AddressSpace M] [AddressSpace N] {α β : Type}

/-! ## Strings -/

namespace ZString

/-- Decodings of related memories with the same text. -/
def SameText (R : M → N → Prop) (d : Decoding M) (e : Decoding N) : Prop :=
  R d.memory e.memory ∧ d.text = e.text

/-- Reading a word, looking at the size and adding a character respect a
relation between decodings. -/
structure DecodeSim (strict : Prop) (P : Decoding M → Decoding N → Prop) : Prop where
  size : Sim strict P P (DecodeM.ofMemory Memory.size) (DecodeM.ofMemory Memory.size)
  readWord : ∀ address,
    Sim strict P P (DecodeM.ofMemory (Memory.readWord address))
      (DecodeM.ofMemory (Memory.readWord address))
  emit : ∀ c, Sim strict P P (DecodeM.emit c) (DecodeM.emit c)

namespace DecodeSim

variable {strict : Prop} {P : Decoding M → Decoding N → Prop} (hP : DecodeSim strict P)

include hP

section

variable {h : Header} {expand : Nat → DecodeM M Unit} {expand' : Nat → DecodeM N Unit}
variable (hexpand : ∀ target, Sim strict P P (expand target) (expand' target))

include hexpand

theorem perform (yielded : Yield) :
    Sim strict P P (perform h expand yielded) (perform h expand' yielded) := by
  cases yielded with
  | nothing => exact .pure ()
  | character c => exact hP.emit c
  | abbreviation table index =>
      exact .bind (hP.readWord _) fun target => hexpand (target.toNat * 2)

theorem decodeCodes (r : Reading) (codes : List UInt8) :
    Sim strict P P (decodeCodes h expand r codes) (decodeCodes h expand' r codes) := by
  induction codes generalizing r with
  | nil => exact .pure r
  | cons code rest ih => exact .bind (hP.perform hexpand _) fun _ => ih _

theorem decodeWords (fuel address : Nat) (r : Reading) :
    Sim strict P P (decodeWords h expand fuel address r)
      (decodeWords h expand' fuel address r) := by
  induction fuel generalizing address r with
  | zero => exact .bind hP.size fun _ => .throw _
  | succ fuel ih =>
      refine .bind (hP.readWord address) fun w => .bind (hP.decodeCodes hexpand r _) fun r => ?_
      split
      · exact .pure _
      · exact ih (address + 2) r

end

theorem decodeNested (h : Header) (levels start : Nat) :
    Sim strict P P (decodeNested (M := M) h levels start)
      (decodeNested (M := N) h levels start) := by
  induction levels generalizing start with
  | zero => exact .throw _
  | succ levels ih =>
      exact .bind hP.size fun size => hP.decodeWords (fun target => (ih target).discard) _ _ _

end DecodeSim

omit [AddressSpace M] [AddressSpace N] in
theorem ofMemory_sameText {strict : Prop} {R : M → N → Prop} {x : MemoryM M α} {y : MemoryM N α}
    (h : Sim strict R R x y) :
    Sim strict (SameText R) (SameText R) (DecodeM.ofMemory x) (DecodeM.ofMemory y) := by
  constructor
  · rintro ⟨m, text⟩ d' ⟨n, _⟩ a ⟨hR, rfl⟩ hx
    simp only [DecodeM.ofMemory] at hx ⊢
    split at hx <;> cases hx
    next m' hx =>
      obtain ⟨n', hy, hR'⟩ := h.ok hR hx
      exact ⟨⟨n', text⟩, by rw [hy], hR', rfl⟩
  · rintro hstrict ⟨m, text⟩ d' ⟨n, _⟩ e ⟨hR, rfl⟩ hx
    simp only [DecodeM.ofMemory] at hx ⊢
    split at hx <;> cases hx
    next m' hx =>
      obtain ⟨n', hy, hR'⟩ := h.error hstrict hR hx
      exact ⟨⟨n', text⟩, by rw [hy], hR', rfl⟩

theorem DecodeSim.sameText {strict : Prop} {R : M → N → Prop} (hR : MemorySim strict R) :
    DecodeSim strict (SameText R) where
  size := ofMemory_sameText (Parametric.size strict R hR)
  readWord address := ofMemory_sameText (Parametric.readWord address strict R hR)
  emit c := by
    constructor
    · rintro ⟨m, text⟩ d' ⟨n, _⟩ a ⟨hR, rfl⟩ hx
      cases hx
      exact ⟨⟨n, text.push c⟩, rfl, hR, rfl⟩
    · rintro - ⟨m, text⟩ d' ⟨n, _⟩ e - hx
      cases hx

end ZString

namespace Parametric

theorem decodeString (h : Header) (start : Nat) :
    Parametric (ZString.decodeString (M := M) h start) (ZString.decodeString (M := N) h start) := by
  intro strict R hR
  have hsim := (ZString.DecodeSim.sameText hR).decodeNested h 4 start
  have hempty : ∀ {m n}, R m n → ZString.SameText R ⟨m, #[]⟩ ⟨n, #[]⟩ := fun hmn => ⟨hmn, rfl⟩
  constructor
  · intro m m' n a hmn hx
    simp only [ZString.decodeString, ZString.decodeText] at hx ⊢
    split at hx <;> cases hx
    next after d hx =>
      obtain ⟨e, hy, hmemory, htext⟩ := hsim.ok (hempty hmn) hx
      exact ⟨e.memory, by rw [hy, htext], hmemory⟩
  · intro hstrict m m' n e hmn hx
    simp only [ZString.decodeString, ZString.decodeText] at hx ⊢
    split at hx <;> cases hx
    next d hx =>
      obtain ⟨d', hy, hmemory, -⟩ := hsim.error hstrict (hempty hmn) hx
      exact ⟨d'.memory, by rw [hy], hmemory⟩

/-! ## The header -/

theorem loadHeader (least greatest : UInt8) :
    Parametric (Header.load (M := M) least greatest) (Header.load (M := N) least greatest) := by
  refine .bind (.readByte _) fun version => .whenBind (fun _ => .throw _) fun _ => ?_
  refine .bind (.readByte _) fun _ => .whenBind (fun _ => .throw _) fun _ => ?_
  refine .bind (.readBytes _ _) fun _ => ?_
  -- Twelve fields are words that every version has.
  iterate 12 refine .bind (.readWord _) fun _ => ?_
  exact .iteBind (fun _ => .readWord _) (fun _ => .pure 0) fun _ => .pure _

/-! ## Objects -/

theorem readLink (h : Header) (object : UInt16) (link : Object.Link) :
    Parametric (Object.readLink (M := M) h object link) (Object.readLink (M := N) h object link) :=
  .ite (fun _ => .pure 0) fun _ =>
    .ite (fun _ => .bind (.readByte _) fun _ => .pure _) fun _ => .readWord _

theorem writeLink (h : Header) (object : UInt16) (link : Object.Link) (value : UInt16) :
    Parametric (Object.writeLink (M := M) h object link value)
      (Object.writeLink (M := N) h object link value) :=
  .ite (fun _ => .pure ()) fun _ =>
    .ite (fun _ => .writeByte _ _) fun _ => .writeWord _ _

theorem propertyTable (h : Header) (object : UInt16) :
    Parametric (Object.propertyTable (M := M) h object)
      (Object.propertyTable (M := N) h object) :=
  .bind (.readWord _) fun _ => .pure _

theorem name (h : Header) (object : UInt16) :
    Parametric (Object.name (M := M) h object) (Object.name (M := N) h object) :=
  .ite (fun _ => .pure []) fun _ =>
    .bind (propertyTable h object) fun table =>
      .bind (.readByte table) fun _ =>
        .ite (fun _ => .pure []) fun _ => .bind (decodeString h (table + 1)) fun _ => .pure _

theorem unlink (h : Header) (object after : UInt16) (limit : Nat) (current : UInt16) :
    Parametric (Object.unlink (M := M) h object after limit current)
      (Object.unlink (M := N) h object after limit current) := by
  induction limit generalizing current with
  | zero => exact .pure ()
  | succ limit ih =>
      refine .ite (fun _ => .pure ()) fun _ => ?_
      refine .bind (readLink h current .sibling) fun following => ?_
      exact .ite (fun _ => writeLink h current .sibling after) fun _ => ih following

theorem remove (h : Header) (object : UInt16) :
    Parametric (Object.remove (M := M) h object) (Object.remove (M := N) h object) := by
  refine .bind (readLink h object .parent) fun parent => .ite (fun _ => .pure ()) fun _ => ?_
  refine .bind (readLink h object .sibling) fun sibling => ?_
  refine .bind (readLink h parent .child) fun first => ?_
  refine .iteBind (fun _ => writeLink h parent .child sibling)
    (fun _ => unlink h object sibling Object.siblingLimit first) fun _ => ?_
  exact .bind (writeLink h object .parent 0) fun _ => writeLink h object .sibling 0

theorem insert (h : Header) (object destination : UInt16) :
    Parametric (Object.insert (M := M) h object destination)
      (Object.insert (M := N) h object destination) :=
  .ite (fun _ => .pure ()) fun _ =>
    .bind (remove h object) fun _ =>
      .bind (readLink h destination .child) fun child =>
        .bind (writeLink h object .parent destination) fun _ =>
          .bind (writeLink h object .sibling child) fun _ =>
            writeLink h destination .child object

theorem testAttribute (h : Header) (object attr : UInt16) :
    Parametric (Object.testAttribute (M := M) h object attr)
      (Object.testAttribute (M := N) h object attr) :=
  .ite (fun _ => .pure false) fun _ => .bind (.readByte _) fun _ => .pure _

theorem setAttribute (h : Header) (object attr : UInt16) :
    Parametric (Object.setAttribute (M := M) h object attr)
      (Object.setAttribute (M := N) h object attr) :=
  .ite (fun _ => .pure ()) fun _ => .bind (.readByte _) fun _ => .writeByte _ _

theorem clearAttribute (h : Header) (object attr : UInt16) :
    Parametric (Object.clearAttribute (M := M) h object attr)
      (Object.clearAttribute (M := N) h object attr) :=
  .ite (fun _ => .pure ()) fun _ => .bind (.readByte _) fun _ => .writeByte _ _

/-! ## Properties -/

theorem readEntry (h : Header) (address : Nat) :
    Parametric (Property.readEntry (M := M) h address) (Property.readEntry (M := N) h address) := by
  refine .bind (.readByte address) fun b => .ite (fun _ => ?_) fun _ => .pure _
  exact .bind (.readByte (address + 1)) fun _ => .pure _

theorem firstProperty (h : Header) (object : UInt16) :
    Parametric (Property.first (M := M) h object) (Property.first (M := N) h object) :=
  .bind (propertyTable h object) fun table => .bind (.readByte table) fun _ => .pure _

theorem descend (h : Header) (property : UInt16) (fuel address : Nat) :
    Parametric (Property.descend (M := M) h property fuel address)
      (Property.descend (M := N) h property fuel address) := by
  induction fuel generalizing address with
  | zero => exact .bind .size fun _ => .throw _
  | succ fuel ih =>
      exact .bind (readEntry h address) fun e => .ite (fun _ => ih e.after) fun _ => .pure e

theorem findProperty (h : Header) (object property : UInt16) :
    Parametric (Property.find (M := M) h object property)
      (Property.find (M := N) h object property) :=
  .bind (firstProperty h object) fun start =>
    .bind .size fun size => .bind (descend h property (size + 1) start) fun _ => .pure _

theorem getProperty (h : Header) (object property : UInt16) :
    Parametric (Property.get (M := M) h object property)
      (Property.get (M := N) h object property) := by
  refine .ite (fun _ => .pure 0) fun _ => .bind (findProperty h object property) fun found => ?_
  cases found with
  | some e =>
      exact .ite (fun _ => .bind (.readByte e.data) fun _ => .pure _) fun _ => .readWord e.data
  | none => exact .readWord _

theorem propertyAddress (h : Header) (object property : UInt16) :
    Parametric (Property.dataAddress (M := M) h object property)
      (Property.dataAddress (M := N) h object property) := by
  refine .ite (fun _ => .pure 0) fun _ => .bind (findProperty h object property) fun found => ?_
  cases found with
  | some e => exact .pure _
  | none => exact .pure 0

theorem nextProperty (h : Header) (object property : UInt16) :
    Parametric (Property.next (M := M) h object property)
      (Property.next (M := N) h object property) := by
  refine .ite (fun _ => .pure 0) fun _ => .ite (fun _ => ?_) fun _ => ?_
  · exact .bind (firstProperty h object) fun start => .bind (readEntry h start) fun _ => .pure _
  · refine .bind (findProperty h object property) fun found => ?_
    cases found with
    | some e => exact .bind (readEntry h e.after) fun _ => .pure _
    | none => exact .throw _

theorem putProperty (h : Header) (object property value : UInt16) :
    Parametric (Property.put (M := M) h object property value)
      (Property.put (M := N) h object property value) := by
  refine .ite (fun _ => .pure ()) fun _ => .bind (findProperty h object property) fun found => ?_
  cases found with
  | some e => exact .ite (fun _ => .writeByte e.data _) fun _ => .writeWord e.data value
  | none => exact .throw _

theorem propertyLength (h : Header) (data : UInt16) :
    Parametric (Property.length (M := M) h data) (Property.length (M := N) h data) :=
  .ite (fun _ => .pure 0) fun _ => .bind (.readByte _) fun _ => .pure _

/-! ## Dictionaries -/

theorem loadDictionary (address : Nat) :
    Parametric (Dictionary.load (M := M) address) (Dictionary.load (M := N) address) :=
  .bind (.readByte address) fun _ =>
    .bind (.readBytes _ _) fun _ =>
      .bind (.readByte _) fun _ => .bind (.readWord _) fun _ => .pure _

theorem compareAt (word : List UInt16) (address : Nat) :
    Parametric (Dictionary.compareAt (M := M) word address)
      (Dictionary.compareAt (M := N) word address) := by
  induction word generalizing address with
  | nil => exact .pure _
  | cons part parts ih =>
      refine .bind (.readWord address) fun entry => ?_
      cases compare (signed part) (signed entry) with
      | eq => exact ih (address + 2)
      | lt => exact .pure _
      | gt => exact .pure _

theorem findLinear (d : Dictionary) (word : List UInt16) (n index : Nat) :
    Parametric (d.findLinear (M := M) word n index) (d.findLinear (M := N) word n index) := by
  induction n generalizing index with
  | zero => exact .pure 0
  | succ n ih =>
      refine .bind (compareAt word (d.entryAddress index)) fun order => ?_
      cases order with
      | eq => exact .pure _
      | lt => exact ih (index + 1)
      | gt => exact ih (index + 1)

theorem findChopping (d : Dictionary) (word : List UInt16) (last probes index : Nat) :
    Parametric (d.findChopping (M := M) word last probes index)
      (d.findChopping (M := N) word last probes index) := by
  induction probes generalizing index with
  | zero => exact .pure 0
  | succ n ih =>
      refine .bind (compareAt word _) fun order => ?_
      cases order with
      | eq => exact .pure _
      | gt => exact ih _
      | lt => exact ih _

theorem findWord (d : Dictionary) (version : UInt8) (text : List UInt8) :
    Parametric (d.find (M := M) version text) (d.find (M := N) version text) :=
  .ite (fun _ => .pure 0) fun _ =>
    .ite (fun _ => findLinear d _ _ 0) fun _ => findChopping d _ _ _ _

theorem lineText (version : UInt8) (buffer : Nat) :
    Parametric (Dictionary.lineText (M := M) version buffer)
      (Dictionary.lineText (M := N) version buffer) :=
  .ite
    (fun _ => .bind (.readByte (buffer + 1)) fun _ => .bind (.readBytes _ _) fun _ => .pure _)
    (fun _ => .bind (.readToZero (buffer + 1)) fun _ => .pure _)

theorem writeTokens (d : Dictionary) (version : UInt8) (line : List UInt8) (offset : Nat)
    (keepUnknown : Bool) (room entry : Nat) (spans : List Token.Span) :
    Parametric (d.writeTokens (M := M) version line offset keepUnknown room entry spans)
      (d.writeTokens (M := N) version line offset keepUnknown room entry spans) := by
  induction spans generalizing room entry with
  | nil =>
      cases room with
      | zero => exact .pure 0
      | succ room => exact .pure _
  | cons s rest ih =>
      cases room with
      | zero => exact .pure 0
      | succ room =>
          refine .bind (findWord d version _) fun word => ?_
          refine .whenBind (fun _ => .writeWord entry word) fun _ => ?_
          refine .bind (.writeByte _ _) fun _ => .bind (.writeByte _ _) fun _ => ?_
          exact ih room (entry + 4)

theorem tokenise (version : UInt8) (lineBuffer tokenBuffer dictionary : UInt16)
    (keepUnknown : Bool) :
    Parametric (Dictionary.tokenise (M := M) version lineBuffer tokenBuffer dictionary keepUnknown)
      (Dictionary.tokenise (M := N) version lineBuffer tokenBuffer dictionary keepUnknown) :=
  .bind (lineText version _) fun _ =>
    .bind (loadDictionary _) fun d =>
      .bind (.readByte _) fun _ =>
        .bind (writeTokens d version _ _ keepUnknown _ _ _) fun _ => .writeByte _ _

/-! ## Tables and buffers -/

theorem restoreBytes (address : Nat) (bytes : List UInt8) :
    Parametric (Machine.restoreBytes (M := M) address bytes)
      (Machine.restoreBytes (M := N) address bytes) := by
  induction bytes generalizing address with
  | nil => exact .pure ()
  | cons b rest ih =>
      refine .bind (.readByte address) fun old => ?_
      exact .whenBind (fun _ => .writeByte address b) fun _ => ih (address + 1)

theorem lineRoom (version : UInt8) (buffer : Nat) :
    Parametric (Machine.lineRoom (M := M) version buffer)
      (Machine.lineRoom (M := N) version buffer) :=
  .bind (.readByte buffer) fun _ =>
    .ite (fun _ => .bind (.readByte (buffer + 1)) fun _ => .pure _) fun _ => .pure _

theorem searchTable (words : Bool) (width : Nat) (value : UInt16) (n address : Nat) :
    Parametric (Machine.searchTable (M := M) words width value n address)
      (Machine.searchTable (M := N) words width value n address) := by
  induction n generalizing address with
  | zero => exact .pure none
  | succ n ih =>
      refine .iteBind (fun _ => .readWord address) (fun _ => .map _ (.readByte address)) fun _ => ?_
      exact .ite (fun _ => .pure _) fun _ => ih (address + width)

theorem copyByte (source target : Nat) :
    Parametric (Machine.copyByte (M := M) source target)
      (Machine.copyByte (M := N) source target) :=
  .bind (.readByte source) fun b => .writeByte target b

theorem copyForward (n source target : Nat) :
    Parametric (Machine.copyForward (M := M) n source target)
      (Machine.copyForward (M := N) n source target) := by
  induction n generalizing source target with
  | zero => exact .pure ()
  | succ n ih => exact .bind (copyByte source target) fun _ => ih (source + 1) (target + 1)

theorem copyBackward (n source target : Nat) :
    Parametric (Machine.copyBackward (M := M) n source target)
      (Machine.copyBackward (M := N) n source target) := by
  induction n with
  | zero => exact .pure ()
  | succ n ih => exact .bind (copyByte (source + n) (target + n)) fun _ => ih

theorem clearBytes (n address : Nat) :
    Parametric (Machine.clearBytes (M := M) n address)
      (Machine.clearBytes (M := N) n address) := by
  induction n generalizing address with
  | zero => exact .pure ()
  | succ n ih => exact .bind (.writeByte address 0) fun _ => ih (address + 1)

theorem sumBytes (sum : UInt16) (n address : Nat) :
    Parametric (Machine.sumBytes (M := M) sum n address)
      (Machine.sumBytes (M := N) sum n address) := by
  induction n generalizing sum address with
  | zero => exact .pure sum
  | succ n ih => exact .bind (.readByte address) fun b => ih (sum + b.toUInt16) (address + 1)

end Parametric
end ZMachine
