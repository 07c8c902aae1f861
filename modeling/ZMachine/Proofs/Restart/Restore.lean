import ZMachine.Host.Transcript
import ZMachine.Proofs.Restart.Reach

/-!
# Restarting

`restart` writes the bytes back that were loaded, and then the header fields
that belong to the interpreter.  Before version 4 it also prints a newline,
and it forgets the open output tables only after that.  So if a table is open
the newline lands in it, in memory that has just been restored.

`restart_restores` says what is in dynamic memory after a restart, whatever
happened before it: each byte is what was loaded, but for the interpreter's
own fields and for that newline.
-/

namespace ZMachine

open MachineM

/-! ## Invariants of machines -/

variable {M H α β : Type}

/-- `K` holds of the core and `J` of the memory. -/
def Settled (K : Core → Prop) (J : Image → Prop) (s : Machine Image H) : Prop :=
  K s.core ∧ J s.memory

variable {K : Core → Prop} {J J' : Image → Prop} {c : Core} {n : Nat}

theorem ofMemory_holding {x : MemoryM Image α} (h : Sim False (Holding J) (Holding J') x x) :
    Sim False (Holding (Settled (H := H) K J)) (Holding (Settled K J')) (ofMemory x)
      (ofMemory x) := by
  apply Sim.holding
  intro s s' a hs hx
  obtain ⟨memory, hmemory, rfl⟩ := ofMemory_eq_ok_iff.mp hx
  exact ⟨hs.1, h.holds hs.2 hmemory⟩

theorem ofHost_holding (x : HostM H α) :
    Sim False (Holding (Settled K J)) (Holding (Settled K J)) (ofHost x) (ofHost x) := by
  apply Sim.holding
  intro s s' a hs hx
  obtain ⟨host, -, rfl⟩ := ofHost_eq_ok_iff.mp hx
  exact hs

theorem getCore_holding {Q : Machine Image H → Machine Image H → Prop}
    {f : Core → MachineM Image H β}
    (h : ∀ c, K c → Sim False (Holding (Settled K J)) Q (f c) (f c)) :
    Sim False (Holding (Settled K J)) Q (getCore >>= f) (getCore >>= f) where
  ok {s s' t a} hst hx := by
    obtain ⟨rfl, hs⟩ := hst
    exact (h s.core hs.1).ok ⟨rfl, hs⟩ hx
  error := False.elim

/-! ## Loading -/

section

variable (J)

theorem readBytesOnto_holding (found : List UInt8) (address count : Nat) :
    Sim False (Holding J) (Holding J) (Memory.readBytesOnto found address count)
      (Memory.readBytesOnto found address count) := by
  induction count generalizing found address with
  | zero => exact .pure _
  | succ count ih => exact .bind (Image.readByte_holding J _) fun b => ih _ _

theorem loadHeader_holding (least greatest : UInt8) :
    Sim False (Holding J) (Holding J) (Header.load least greatest)
      (Header.load least greatest) := by
  refine .bind (Image.readByte_holding J _) fun version => .whenBind (fun _ => .throw _) fun _ => ?_
  refine .bind (Image.readByte_holding J _) fun _ => .whenBind (fun _ => .throw _) fun _ => ?_
  refine .bind (readBytesOnto_holding J [] _ _) fun _ => ?_
  iterate 12 refine .bind (Image.readWord_holding J _) fun _ => ?_
  exact .iteBind (fun _ => Image.readWord_holding J _) (fun _ => .pure 0) fun _ => .pure _

end

/-- A machine has the bytes of dynamic memory that the image had. -/
theorem load_image {settings : Settings} {entropy : Entropy} {host : H} {image : Image}
    {t : Machine Image H} (h : Machine.load settings entropy host image = .ok t) :
    t.memory = image ∧ t.core.pristine =
      (List.range' 0 (min t.core.header.dynamicSize.toNat image.bytes.size)).map image.byteAt := by
  unfold Machine.load at h
  dsimp only at h
  split at h <;> cases h
  next header pristine memory hx =>
    obtain ⟨header', image', hheader, hrest⟩ := bind_eq_ok_iff.mp hx
    obtain rfl : image' = image := (loadHeader_holding (· = image) _ _).holds rfl hheader
    have hsize : (Memory.size : MemoryM Image Nat) image' = .ok image'.bytes.size image' := rfl
    have hread : (Memory.readBytes 0 (min header'.dynamicSize.toNat image'.bytes.size) :
        MemoryM Image (List UInt8)) image' = _ := Image.readBytesOnto_of_le [] (by omega)
    rw [bind_ok hsize, bind_ok hread] at hrest
    cases hrest
    exact ⟨rfl, rfl⟩

/-! ## Writing back -/

theorem restoreBytes_ok {bytes : List UInt8} {address : Nat} {image image' : Image}
    (h : Machine.restoreBytes address bytes image = .ok () image') :
    image.ChangedWithin image' address bytes.length ∧
      ∀ k b, bytes[k]? = some b → image'.byteAt (address + k) = b := by
  induction bytes generalizing address image with
  | nil =>
      cases h
      simp [Image.ChangedWithin.refl]
  | cons b rest ih =>
      obtain ⟨old, image₁, hread, hwrite⟩ := bind_eq_ok_iff.mp h
      obtain ⟨rfl, rfl⟩ := Image.readByte_ok hread
      -- The byte is right before the rest is restored, written or not.
      obtain ⟨image₂, hrest, hchanged, hhere⟩ : ∃ image₂,
          Machine.restoreBytes (address + 1) rest image₂ = .ok () image' ∧
            image₁.ChangedWithin image₂ address 1 ∧ image₂.byteAt address = b := by
        by_cases hold : image₁.byteAt address = b
        · rw [if_neg (not_not_intro hold)] at hwrite
          exact ⟨image₁, hwrite, .refl _ _ _, hold⟩
        · rw [if_pos hold] at hwrite
          obtain ⟨_, image₂, hbyte, hrest⟩ := bind_eq_ok_iff.mp hwrite
          obtain ⟨hlt, rfl⟩ := Image.writeByte_ok hbyte
          exact ⟨_, hrest, .poke _ _ _, Image.byteAt_poke_self hlt b⟩
      obtain ⟨hchanged', hrest'⟩ := ih hrest
      rw [List.length_cons]
      refine
        ⟨(hchanged.mono (by omega) (by omega)).trans (hchanged'.mono (by omega) (by omega)), ?_⟩
      intro k b' hk
      cases k with
      | zero =>
          obtain rfl : b = b' := by simpa using hk
          rw [Nat.add_zero, hchanged'.other address (by omega), hhere]
      | succ k =>
          rw [← hrest' k b' (by simpa using hk)]
          congr 1
          omega

/-! ## The interpreter's fields -/

/-- Header bytes that the interpreter fills in. -/
def IsOwned (a : Nat) : Prop :=
  a = 0x01 ∨ a = 0x10 ∨ a = 0x11 ∨ (0x1E ≤ a ∧ a ≤ 0x27) ∨ a = 0x32 ∨ a = 0x33

instance (a : Nat) : Decidable (IsOwned a) := by
  unfold IsOwned
  infer_instance

/-- An image of size `n` with the loaded bytes where the interpreter has no
fields of its own. -/
structure Intact (pristine : List UInt8) (n : Nat) (image : Image) : Prop where
  size_eq : image.bytes.size = n
  byteAt_eq : ∀ a b, pristine[a]? = some b → ¬ IsOwned a → image.byteAt a = b

variable {pristine : List UInt8}

theorem restoreBytes_intact (pristine : List UInt8) (n : Nat) :
    Sim False (Holding fun image => image.bytes.size = n) (Holding (Intact pristine n))
      (Machine.restoreBytes 0 pristine) (Machine.restoreBytes 0 pristine) := by
  apply Sim.holding
  intro image image' _ hsize h
  obtain ⟨hchanged, hbytes⟩ := restoreBytes_ok h
  refine ⟨hchanged.size_eq.trans hsize, fun a b ha _ => ?_⟩
  rw [← hbytes a b ha, Nat.zero_add]

theorem writeByte_intact {address : Nat} (howned : IsOwned address) (value : UInt8) :
    Sim False (Holding (Intact pristine n)) (Holding (Intact pristine n))
      (Memory.writeByte address value) (Memory.writeByte address value) := by
  apply Sim.holding
  intro image image' _ himage h
  obtain ⟨-, rfl⟩ := Image.writeByte_ok h
  constructor
  · simpa using himage.size_eq
  · intro a b ha hfree
    have hne : a ≠ address := by
      rintro rfl
      exact hfree howned
    rw [Image.byteAt_poke_of_ne _ hne]
    exact himage.byteAt_eq a b ha hfree

theorem changeFlags_intact (f : UInt16 → UInt16) :
    Sim False (Holding (Settled (H := H) K (Intact pristine n)))
      (Holding (Settled K (Intact pristine n))) (Machine.changeFlags f)
      (Machine.changeFlags f) := by
  refine .bind (ofMemory_holding (Image.readWord_holding _ _)) fun flags => ofMemory_holding ?_
  exact .bind (writeByte_intact (by decide) _) fun _ => writeByte_intact (by decide) _

variable [Host H]

theorem announceScreen_intact :
    Sim False (Holding (Settled (H := H) K (Intact pristine n)))
      (Holding (Settled K (Intact pristine n))) Machine.announceScreen Machine.announceScreen := by
  refine .bind (ofMemory_holding (writeByte_intact (by decide) _)) fun _ => ?_
  refine .bind (ofMemory_holding (writeByte_intact (by decide) _)) fun _ => .getBind fun s _ => ?_
  refine .ite (fun _ => ?_) fun _ => changeFlags_intact _
  refine .bind (ofMemory_holding (Image.readByte_holding _ _)) fun b => ?_
  exact .bind (ofMemory_holding (writeByte_intact (by decide) _)) fun _ => changeFlags_intact _

/-! ## The newline -/

/-- Where the newline of a restart is written, if it is. -/
def newlinePlace (c : Core) : Option Nat :=
  if c.header.version < 4 then
    c.streams.tables.head?.map fun t => t.address + 2 + t.count.toNat
  else none

/-- As loaded but for the interpreter's fields and a newline. -/
structure Announced (place : Option Nat) (pristine : List UInt8) (n : Nat) (image : Image) :
    Prop where
  size_eq : image.bytes.size = n
  byteAt_eq : ∀ a b, pristine[a]? = some b → ¬ IsOwned a →
    image.byteAt a = if place = some a then ZString.newline else b

theorem Intact.announced {image : Image} (h : Intact pristine n image) :
    Announced none pristine n image := by
  constructor
  · exact h.size_eq
  · simpa using h.byteAt_eq

theorem showByte_holding (b : UInt8) :
    Sim False (Holding (Settled (H := H) K J)) (Holding (Settled K J)) (Machine.showByte b)
      (Machine.showByte b) :=
  getCore_holding fun _ _ => ofHost_holding _

/-- With no table open, a newline is not written to memory. -/
theorem newLine_holding :
    Sim False (Holding (Settled (H := H) (·.streams.tables = []) J))
      (Holding (Settled (fun _ => True) J)) Machine.newLine Machine.newLine := by
  apply Sim.holding
  intro s s' _ hs h
  obtain ⟨place, s₁, hadvance, hshow⟩ := bind_eq_ok_iff.mp h
  have hcore : (getCore : MachineM Image H Core) s = .ok s.core s := rfl
  unfold Machine.advanceTable at hadvance
  rw [bind_ok hcore, hs.1] at hadvance
  cases hadvance
  have hsim : Sim False (Holding (Settled (H := H) (fun _ => True) J))
      (Holding (Settled (fun _ => True) J))
      (do if (← getCore).streams.screenOff then return
          (ZString.display ZString.newline).forM Machine.showByte)
      (do if (← getCore).streams.screenOff then return
          (ZString.display ZString.newline).forM Machine.showByte) :=
    getCore_holding fun c _ => .ite (fun _ => .pure ()) fun _ => .forM showByte_holding
  exact hsim.holds ⟨trivial, hs.2⟩ hshow

/-- The streams and the origin are those of `c`. -/
def Unmoved (c c' : Core) : Prop :=
  c'.origin = c.origin ∧ c'.streams = c.streams

theorem newLine_announced (hearly : c.header.version < 4) :
    Sim False (Holding (Settled (H := H) (Unmoved c) (Intact pristine n)))
      (Holding (Settled (fun _ => True) (Announced (newlinePlace c) pristine n)))
      Machine.newLine Machine.newLine := by
  apply Sim.holding
  intro s s' _ hs h
  obtain ⟨⟨-, hstreams⟩, hmemory⟩ := hs
  have hplace : newlinePlace c =
      c.streams.tables.head?.map fun t => t.address + 2 + t.count.toNat := if_pos hearly
  cases htables : c.streams.tables with
  | nil =>
      have hnone : s.core.streams.tables = [] := by rw [hstreams, htables]
      rw [hplace, htables]
      exact ⟨trivial, (newLine_holding.holds ⟨hnone, hmemory⟩ h).2.announced⟩
  | cons t outer =>
      obtain ⟨place, s₁, hadvance, h⟩ := bind_eq_ok_iff.mp h
      have hcore : (getCore : MachineM Image H Core) s = .ok s.core s := rfl
      unfold Machine.advanceTable at hadvance
      rw [bind_ok hcore, hstreams, htables] at hadvance
      cases hadvance
      obtain ⟨image, hwrite, rfl⟩ := ofMemory_eq_ok_iff.mp h
      obtain ⟨hlt, rfl⟩ := Image.writeByte_ok hwrite
      refine ⟨trivial, ?_, ?_⟩
      · simpa using hmemory.size_eq
      · intro a b ha hfree
        rw [hplace, htables]
        by_cases hat : t.address + 2 + t.count.toNat = a
        · subst hat
          rw [Image.byteAt_poke_self hlt]
          simp
        · rw [Image.byteAt_poke_of_ne _ (Ne.symm hat)]
          simpa [hat] using hmemory.byteAt_eq a b ha hfree

theorem announceInterpreter_announced (scripting : Bool) :
    Sim False (Holding (Settled (H := H) (Unmoved c) (Intact pristine n)))
      (Holding (Settled (fun _ => True) (Announced (newlinePlace c) pristine n)))
      (Machine.announceInterpreter scripting) (Machine.announceInterpreter scripting) := by
  refine .whenBind (fun _ => changeFlags_intact _) fun _ => getCore_holding fun c' hc' => ?_
  have hheader : c'.header = c.header := congrArg Prod.fst hc'.1
  iterate 10 refine .bind (ofMemory_holding (writeByte_intact (by decide) _)) fun _ => ?_
  refine .ite (fun hearly => ?_) fun hlate => ?_
  · exact newLine_announced (hheader ▸ hearly)
  · apply Sim.holding
    intro s s' _ hs h
    cases h
    have hplace : newlinePlace c = none := if_neg (hheader ▸ hlate)
    rw [hplace]
    exact ⟨trivial, hs.2.announced⟩

/-! ## The whole of it -/

/-- A restart that succeeds, stage by stage: new dice, the loaded bytes written
back, the two announcements, and the registers. -/
theorem restart_ok {t t' : Machine Image H} (h : Machine.restart t = .ok () t') :
    ∃ dice entropy image t₁ t₂,
      Machine.restoreBytes 0 t.core.pristine t.memory = .ok () image ∧
      Machine.announceScreen ⟨image, t.host, { t.core with dice, entropy }⟩ = .ok () t₁ ∧
      Machine.announceInterpreter (t.memory.wordAt Field.flags &&& Flag.scripting ≠ 0) t₁ =
        .ok () t₂ ∧
      t' = { t₂ with core := { t₂.core with
        pc := t₂.core.header.startPc.toUInt32
        sp := stackSize
        fp := stackSize - 1
        runState := .run
        halted := false
        streams := {}
        window := .lower } } := by
  have hcore (s : Machine Image H) : (getCore : MachineM Image H Core) s = .ok s.core s := rfl
  -- Seeded or not, the rest of the restart starts from the same machine with other dice.
  obtain ⟨dice, entropy, h⟩ : ∃ dice entropy,
      (do
        let flags ← ofMemory (Memory.readWord Field.flags)
        ofMemory (Machine.restoreBytes 0 (← getCore).pristine)
        Machine.announceScreen
        Machine.announceInterpreter (flags &&& Flag.scripting ≠ 0)
        modifyCore fun c =>
          { c with
            pc := c.header.startPc.toUInt32
            sp := stackSize
            fp := stackSize - 1
            runState := .run
            halted := false
            streams := {}
            window := .lower } : MachineM Image H Unit)
        { t with core := { t.core with dice, entropy } } = .ok () t' := by
    unfold Machine.restart at h
    rw [bind_ok (hcore t)] at h
    cases hseed : t.core.settings.randomSeed with
    | some seed =>
        rw [hseed] at h
        exact ⟨_, _, h⟩
    | none =>
        rw [hseed] at h
        exact ⟨_, _, h⟩
  obtain ⟨flags, s₁, hread, h⟩ := bind_eq_ok_iff.mp h
  obtain ⟨image₁, hflags, rfl⟩ := ofMemory_eq_ok_iff.mp hread
  obtain ⟨rfl, rfl⟩ := Image.readWord_ok hflags
  rw [bind_ok (hcore _)] at h
  obtain ⟨_, s₂, hback, h⟩ := bind_eq_ok_iff.mp h
  obtain ⟨image, hrestore, rfl⟩ := ofMemory_eq_ok_iff.mp hback
  obtain ⟨_, t₁, hscreen, h⟩ := bind_eq_ok_iff.mp h
  obtain ⟨_, t₂, hinterpreter, h⟩ := bind_eq_ok_iff.mp h
  cases h
  exact ⟨dice, entropy, image, t₁, t₂, hrestore, hscreen, hinterpreter, rfl⟩

theorem restart_image {t t' : Machine Image H} (h : Machine.restart t = .ok () t') :
    Announced (newlinePlace t.core) t.core.pristine t.memory.bytes.size t'.memory := by
  obtain ⟨dice, entropy, image, t₁, t₂, hrestore, hscreen, hinterpreter, rfl⟩ := restart_ok h
  have hintact : Intact t.core.pristine t.memory.bytes.size image :=
    (restoreBytes_intact _ _).holds rfl hrestore
  have hrestored : Settled (Unmoved t.core) (Intact t.core.pristine t.memory.bytes.size)
      ⟨image, t.host, { t.core with dice, entropy }⟩ := ⟨⟨rfl, rfl⟩, hintact⟩
  have hscreened : Settled (Unmoved t.core) (Intact t.core.pristine t.memory.bytes.size) t₁ :=
    announceScreen_intact.holds hrestored hscreen
  exact ((announceInterpreter_announced _).holds hscreened hinterpreter).2

/-- After a restart dynamic memory is as it was loaded, but for the header
bytes of the interpreter and, before version 4, a newline in the output table
that was open. -/
theorem restart_restores [AddressSpace M] {R : M → Image → Prop} (hR : Showing R)
    {m : M} {image : Image} (hm : R m image) {settings : Settings} {entropy : Entropy} {host : H}
    {loaded : Machine M H} (hload : Machine.load settings entropy host m = .ok loaded)
    (acts : List (Machine.Act H)) {restarted : Machine M H}
    (hrestart : Machine.restart (stateAfter (acts.map Machine.Act.perform) loaded) =
      .ok () restarted) :
    ∃ image', R restarted.memory image' ∧ image'.bytes.size = image.bytes.size ∧
      ∀ a, a < loaded.core.header.dynamicSize.toNat → a < image.bytes.size → ¬ IsOwned a →
        image'.byteAt a =
          if newlinePlace (stateAfter (acts.map Machine.Act.perform) loaded).core = some a then
            ZString.newline
          else image.byteAt a := by
  obtain ⟨t₀, ht₀, hloaded⟩ := SameParts.load_ok hR.toMemorySim hm hload
  obtain ⟨rfl, hpristine⟩ := load_image ht₀
  obtain ⟨horigin, image₁, hm₁, hsize⟩ := stateAfter_origin hR hloaded.memory acts
  generalize hs : stateAfter (acts.map Machine.Act.perform) loaded = s at *
  have hst : SameParts R s ⟨image₁, s.host, s.core⟩ := ⟨hm₁, rfl, rfl⟩
  obtain ⟨t', ht', hrestarted⟩ := (SameParts.runSim hR.toMemorySim).restart.ok hst hrestart
  have hannounced := restart_image ht'
  have hsame : s.core.pristine = loaded.core.pristine := congrArg (·.2.2) horigin
  refine ⟨t'.memory, hrestarted.memory, hannounced.size_eq.trans hsize, ?_⟩
  intro a hdynamic hmemory hfree
  rw [hloaded.core] at hdynamic
  apply hannounced.byteAt_eq a _ _ hfree
  simp only [hsame, hloaded.core, hpristine]
  rw [List.getElem?_map, List.getElem?_range' (by omega)]
  simp

/-- A story of version 3.  With a table open at 96 and one character in it, the
restart puts its newline at 99, where 42 was loaded. -/
theorem restart_restores_open_table :
    let image : Image :=
      ⟨(Array.replicate 256 0).set! 0 3 |>.set! 7 128 |>.set! 15 128 |>.set! 98 7 |>.set! 99 42⟩
    let load := Machine.load { randomSeed := some 1 } ⟨fun _ => 0, 0⟩ ({} : Transcript) image
    let operate (op : Operation) (values : List UInt16) : Machine.Act Transcript :=
      .execute 0 { (default : Instruction) with operands := ⟨values⟩ } op
    let acts : List (Machine.Act Transcript) :=
      [.memory (.writeByte 256 1), operate .outputStream [3, 96], operate .printCharacter [65]]
    ∃ loaded restarted, load = .ok loaded ∧
      (outcomes (acts.map Machine.Act.perform) loaded).map (·.isOk) = [false, true, true] ∧
      Machine.restart (stateAfter (acts.map Machine.Act.perform) loaded) = .ok () restarted ∧
      restarted.memory.byteAt 98 = 7 ∧ restarted.memory.byteAt 99 = ZString.newline ∧
      image.byteAt 99 = 42 := by
  intro image load operate acts
  obtain ⟨loaded, hload, hcheck⟩ := exists_of_givesOk (x := load)
    (p := fun s =>
      reachesOk (Machine.restart (stateAfter (acts.map Machine.Act.perform) s)) fun _ _ =>
        decide ((outcomes (acts.map Machine.Act.perform) s).map (·.isOk) = [false, true, true] ∧
          s.core.header.dynamicSize = 128 ∧
          newlinePlace (stateAfter (acts.map Machine.Act.perform) s).core = some 99))
    (by decide +kernel)
  obtain ⟨_, restarted, hrestart, hcheck⟩ := exists_of_reachesOk hcheck
  obtain ⟨houtcomes, hdynamic, hplace⟩ := of_decide_eq_true hcheck
  obtain ⟨image', rfl, -, hbytes⟩ :=
    restart_restores (.of_strict MemorySim.refl) rfl hload acts hrestart
  rw [hplace, hdynamic] at hbytes
  refine ⟨loaded, restarted, hload, houtcomes, hrestart, ?_, ?_, by decide +kernel⟩
  · rw [hbytes 98 (by decide) (by decide +kernel) (by decide)]
    decide +kernel
  · rw [hbytes 99 (by decide) (by decide +kernel) (by decide)]
    rfl

end ZMachine
