import ZMachine.Proofs.Restart.Restore

/-!
# The scripting flag across a restart

The player's wish for a script is a bit of the flags word, which lies in dynamic
memory.  `restart` looks at the bit, writes back what was loaded and sets the bit
again if it had been set.  It never clears it.  So a script that is on stays on,
but one that is off comes back if the story was loaded with the bit set.
`restart_scripting_eq` says so for every state of a machine in which no output
table is open: after a restart the bit is that of before or that of the story, as
far as the story's dynamic memory reaches over it.
-/

namespace ZMachine

open MachineM

/-! ## The bit -/

/-- The scripting bit of a flags word. -/
def Flag.isScripting (w : UInt16) : Bool :=
  w &&& Flag.scripting ≠ 0

/-- Address of the byte that holds the scripting bit. -/
def Field.scripting : Nat := Field.flags + 1

/-- The scripting bit as it stands in an image. -/
def Image.isScripting (image : Image) : Bool :=
  Flag.isScripting (image.wordAt Field.flags)

namespace Flag

theorem isScripting_eq_getLsbD (w : UInt16) : isScripting w = w.toBitVec.getLsbD 0 := by
  have hbit : scripting.toBitVec = BitVec.twoPow 16 0 := by decide
  have hzero : w &&& scripting = 0 ↔ w.toBitVec.getLsbD 0 = false := by
    rw [← UInt16.toBitVec_inj, UInt16.toBitVec_and, hbit, BitVec.and_twoPow]
    cases w.toBitVec.getLsbD 0 <;> decide
  unfold isScripting
  cases hw : w.toBitVec.getLsbD 0 with
  | false => exact decide_eq_false (not_not_intro (hzero.mpr hw))
  | true => exact decide_eq_true fun hnone => Bool.noConfusion (hw.symm.trans (hzero.mp hnone))

theorem isScripting_or_scripting (w : UInt16) : isScripting (w ||| scripting) = true := by
  simp [isScripting_eq_getLsbD, scripting]

theorem isScripting_without_graphics (w : UInt16) :
    isScripting (w &&& ~~~ graphics) = isScripting w := by
  simp [isScripting_eq_getLsbD, graphics]

theorem isScripting_wordOfBytes (high low : UInt8) :
    isScripting (wordOfBytes high low) = isScripting low.toUInt16 := by
  have hparity : ∀ w : UInt16, w.toBitVec.getLsbD 0 = decide (w.toNat % 2 = 1) := by
    intro w
    rw [BitVec.getLsbD, UInt16.toNat_toBitVec, Nat.testBit_zero]
  have hlow := low.toNat_lt
  have hhigh := high.toNat_lt
  rw [isScripting_eq_getLsbD, isScripting_eq_getLsbD, hparity, hparity]
  simp [wordOfBytes]
  omega

end Flag

variable {image image' : Image}

theorem Image.isScripting_eq (image : Image) :
    image.isScripting = Flag.isScripting (image.byteAt Field.scripting).toUInt16 :=
  Flag.isScripting_wordOfBytes _ _

theorem Image.isScripting_congr (h : image'.byteAt Field.scripting = image.byteAt Field.scripting) :
    image'.isScripting = image.isScripting := by
  rw [isScripting_eq, isScripting_eq, h]

/-! ## The bit in memory -/

variable {H : Type} {K : Core → Prop} {bit : Bool}

/-- The image has a given scripting bit. -/
def Marked (bit : Bool) (image : Image) : Prop :=
  image.isScripting = bit

theorem writeByte_marked {address : Nat} (hne : address ≠ Field.scripting) (value : UInt8) :
    Sim False (Holding (Marked bit)) (Holding (Marked bit)) (Memory.writeByte address value)
      (Memory.writeByte address value) := by
  apply Sim.holding
  intro image image' _ himage h
  obtain ⟨-, rfl⟩ := Image.writeByte_ok h
  exact (Image.isScripting_congr (Image.byteAt_poke_of_ne _ hne.symm _)).trans himage

/-- Changing flags changes the bit as the function on words does. -/
theorem changeFlags_marked {f : UInt16 → UInt16} {bit' : Bool}
    (hf : ∀ w, Flag.isScripting w = bit → Flag.isScripting (f w) = bit') :
    Sim False (Holding (Settled (H := H) K (Marked bit))) (Holding (Settled K (Marked bit')))
      (Machine.changeFlags f) (Machine.changeFlags f) := by
  apply Sim.holding
  intro s s' _ hs h
  obtain ⟨flags, s₁, hread, hwrite⟩ := bind_eq_ok_iff.mp h
  obtain ⟨image₁, hflags, rfl⟩ := ofMemory_eq_ok_iff.mp hread
  obtain ⟨rfl, rfl⟩ := Image.readWord_ok hflags
  obtain ⟨image₂, hchange, rfl⟩ := ofMemory_eq_ok_iff.mp hwrite
  obtain ⟨hlt, rfl⟩ := Image.writeWord_ok hchange
  refine ⟨hs.1, ?_⟩
  unfold Marked Image.isScripting
  rw [Image.wordAt_pokeWord_self hlt]
  exact hf _ hs.2

/-- The bit after the loaded bytes have been written back. -/
def restoredBit (pristine : List UInt8) (image : Image) : Bool :=
  match pristine[Field.scripting]? with
  | some b => Flag.isScripting b.toUInt16
  | none => image.isScripting

theorem restoreBytes_marked (pristine : List UInt8) (image : Image) :
    Sim False (Holding (· = image)) (Holding (Marked (restoredBit pristine image)))
      (Machine.restoreBytes 0 pristine) (Machine.restoreBytes 0 pristine) := by
  apply Sim.holding
  rintro _ image' _ rfl h
  obtain ⟨hchanged, hbytes⟩ := restoreBytes_ok h
  unfold Marked restoredBit
  cases hloaded : pristine[Field.scripting]? with
  | some b =>
      have hbyte := hbytes _ b hloaded
      rw [Nat.zero_add] at hbyte
      rw [Image.isScripting_eq, hbyte]
  | none =>
      have hbehind := List.getElem?_eq_none_iff.mp hloaded
      exact Image.isScripting_congr (hchanged.other _ (by omega))

/-! ## The parts of a restart -/

variable [Host H]

theorem announceScreen_marked :
    Sim False (Holding (Settled (H := H) K (Marked bit))) (Holding (Settled K (Marked bit)))
      Machine.announceScreen Machine.announceScreen := by
  have hflags : Sim False (Holding (Settled (H := H) K (Marked bit)))
      (Holding (Settled K (Marked bit))) (Machine.changeFlags (· &&& ~~~ Flag.graphics))
      (Machine.changeFlags (· &&& ~~~ Flag.graphics)) :=
    changeFlags_marked fun w hw => (Flag.isScripting_without_graphics w).trans hw
  refine .bind (ofMemory_holding (writeByte_marked (by decide) _)) fun _ => ?_
  refine .bind (ofMemory_holding (writeByte_marked (by decide) _)) fun _ => .getBind fun s _ => ?_
  refine .ite (fun _ => ?_) fun _ => hflags
  refine .bind (ofMemory_holding (Image.readByte_holding _ _)) fun b => ?_
  exact .bind (ofMemory_holding (writeByte_marked (by decide) _)) fun _ => hflags

/-- The fields behind the flags, and the newline if it goes to the screen. -/
theorem announceInterpreter_marked (scripting : Bool) :
    Sim False (Holding (Settled (H := H) (·.streams.tables = []) (Marked bit)))
      (Holding (Settled (fun _ => True) (Marked (scripting || bit))))
      (Machine.announceInterpreter scripting) (Machine.announceInterpreter scripting) := by
  have hfields : ∀ bit, Sim False (Holding (Settled (H := H) (·.streams.tables = []) (Marked bit)))
      (Holding (Settled (fun _ => True) (Marked bit)))
      (Machine.announceInterpreter false) (Machine.announceInterpreter false) := by
    intro bit
    refine getCore_holding fun c _ => ?_
    iterate 10 refine .bind (ofMemory_holding (writeByte_marked (by decide) _)) fun _ => ?_
    refine .ite (fun _ => newLine_holding) fun _ => ?_
    exact .mono (.pure ()) fun _ _ hst => ⟨hst.1, trivial, hst.2.2⟩
  cases scripting with
  | false => exact hfields bit
  | true =>
      exact .bindThrough (changeFlags_marked fun w _ => Flag.isScripting_or_scripting w)
        fun _ => hfields true

theorem restart_image_scripting {t t' : Machine Image H} (htables : t.core.streams.tables = [])
    (h : Machine.restart t = .ok () t') :
    t'.memory.isScripting = (t.memory.isScripting || restoredBit t.core.pristine t.memory) := by
  obtain ⟨dice, entropy, image, t₁, t₂, hrestore, hscreen, hinterpreter, rfl⟩ := restart_ok h
  have hmarked : Marked (restoredBit t.core.pristine t.memory) image :=
    (restoreBytes_marked _ _).holds rfl hrestore
  have hrestored : Settled (·.streams.tables = [])
      (Marked (restoredBit t.core.pristine t.memory))
      ⟨image, t.host, { t.core with dice, entropy }⟩ := ⟨htables, hmarked⟩
  have hscreened : Settled (·.streams.tables = [])
      (Marked (restoredBit t.core.pristine t.memory)) t₁ :=
    announceScreen_marked.holds hrestored hscreen
  exact ((announceInterpreter_marked _).holds hscreened hinterpreter).2

/-! ## The story's own bit -/

/-- Next to a bit that survives, only the bit that the story was loaded with
counts. -/
theorem or_restoredBit {pristine : List UInt8} {n : Nat} (story : Image)
    (hpristine : pristine = (List.range' 0 (min n story.bytes.size)).map story.byteAt) :
    (image.isScripting || restoredBit pristine image) =
      (image.isScripting || (decide (Field.scripting < n) && story.isScripting)) := by
  unfold restoredBit
  by_cases hinside : Field.scripting < min n story.bytes.size
  · have hloaded : pristine[Field.scripting]? = some (story.byteAt Field.scripting) := by
      rw [hpristine, List.getElem?_map, List.getElem?_range' hinside]
      simp
    have hn : Field.scripting < n := by omega
    simp [hloaded, hn, story.isScripting_eq]
  · have hloaded : pristine[Field.scripting]? = none := by
      rw [hpristine, List.getElem?_eq_none_iff, List.length_map, List.length_range']
      omega
    -- Behind its end an image reads 0, so a story too short to hold the bit has it clear.
    have hclear : (decide (Field.scripting < n) && story.isScripting) = false := by
      rw [Bool.and_eq_false_imp, decide_eq_true_eq]
      intro hn
      have hzero : story.byteAt Field.scripting = 0 := by
        unfold Image.byteAt
        rw [Array.getElem?_eq_none (by omega)]
        rfl
      rw [story.isScripting_eq, hzero]
      rfl
    rw [hloaded, hclear, Bool.or_false, Bool.or_self]

/-- After a restart the scripting bit is set if it was set before, and also if the
story was loaded with it and its dynamic memory reaches that far.  So it survives,
except that a script which is off is switched on by such a story. -/
theorem restart_scripting_eq {M : Type} [AddressSpace M] {strict : Prop} {R : M → Image → Prop}
    (hR : MemorySim strict R) {m : M} {story : Image} (hm : R m story) {settings : Settings}
    {entropy : Entropy} {host : H} {loaded s s' : Machine M H}
    (hload : Machine.load settings entropy host m = .ok loaded)
    (horigin : s.core.origin = loaded.core.origin) (hs : R s.memory image)
    (htables : s.core.streams.tables = []) (hrestart : Machine.restart s = .ok () s') :
    ∃ image', R s'.memory image' ∧
      image'.isScripting = (image.isScripting ||
        (decide (Field.scripting < loaded.core.header.dynamicSize.toNat) && story.isScripting)) ∧
      (image'.isScripting = image.isScripting ↔
        ¬ (image.isScripting = false ∧ story.isScripting = true ∧
          Field.scripting < loaded.core.header.dynamicSize.toNat)) := by
  obtain ⟨t₀, ht₀, hloaded⟩ := SameParts.load_ok hR hm hload
  obtain ⟨rfl, hpristine⟩ := load_image ht₀
  have hst : SameParts R s ⟨image, s.host, s.core⟩ := ⟨hs, rfl, rfl⟩
  obtain ⟨t', ht', hrestarted⟩ := (SameParts.runSim hR).restart.ok hst hrestart
  have hbit := restart_image_scripting htables ht'
  have hsame : s.core.pristine = t₀.core.pristine := by
    rw [← hloaded.core]
    exact congrArg (·.2.2) horigin
  rw [hsame, or_restoredBit _ hpristine, ← hloaded.core] at hbit
  refine ⟨t'.memory, hrestarted.memory, hbit, ?_⟩
  rw [hbit]
  cases image.isScripting <;> simp [and_comm]

/-- A story that is loaded with the bit set.  It switches its script off and
restarts, and the script is on again; left on, it stays on. -/
theorem restart_scripting_eq_switched_off :
    let story : Image :=
      ⟨(Array.replicate 128 0).set! 0 5 |>.set! 7 64 |>.set! 15 96 |>.set! 17 1⟩
    let load := Machine.load { randomSeed := some 1 } ⟨fun _ => 0, 0⟩ ({} : Transcript) story
    story.isScripting = true ∧ ∃ loaded off restarted restarted', load = .ok loaded ∧
      Machine.outputStream 0xFFFE 0 loaded = .ok () off ∧ off.memory.isScripting = false ∧
      Machine.restart off = .ok () restarted ∧ restarted.memory.isScripting = true ∧
      Machine.restart loaded = .ok () restarted' ∧ restarted'.memory.isScripting = true := by
  intro story load
  have hstory : story.isScripting = true := by decide +kernel
  obtain ⟨loaded, hload, hcheck⟩ := exists_of_givesOk (x := load)
    (p := fun s => reachesOk (Machine.outputStream 0xFFFE 0 s) fun _ off =>
      reachesOk (Machine.restart off) fun _ _ => reachesOk (Machine.restart s) fun _ _ =>
        decide (s.core.header.dynamicSize = 96 ∧ s.core.streams.tables = [] ∧
          s.memory.isScripting = true ∧ off.core.origin = s.core.origin ∧
          off.core.streams.tables = [] ∧ off.memory.isScripting = false)) (by decide +kernel)
  obtain ⟨_, off, hoff, hcheck⟩ := exists_of_reachesOk hcheck
  obtain ⟨_, restarted, hcomes, hcheck⟩ := exists_of_reachesOk hcheck
  obtain ⟨_, restarted', hstays, hcheck⟩ := exists_of_reachesOk hcheck
  obtain ⟨hdynamic, hnone, hon, horigin, hnone', hclear⟩ := of_decide_eq_true hcheck
  obtain ⟨_, rfl, hbit, -⟩ := restart_scripting_eq MemorySim.refl (Eq.refl story) hload
    horigin rfl hnone' hcomes
  obtain ⟨_, rfl, hbit', -⟩ := restart_scripting_eq MemorySim.refl (Eq.refl story) hload
    rfl rfl hnone hstays
  refine ⟨hstory, loaded, off, restarted, restarted', hload, hoff, hclear, hcomes, ?_, hstays, ?_⟩
  · rw [hbit, hdynamic, hstory]
    exact Bool.or_true _
  · rw [hbit', hon]
    rfl

end ZMachine
