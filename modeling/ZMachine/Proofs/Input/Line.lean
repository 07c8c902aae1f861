import ZMachine.Host.Journal
import ZMachine.Proofs.Image
import ZMachine.Proofs.Simulation.Run

/-!
# Reading a line into its buffer

A line buffer starts with its capacity.  Before version 5 the text follows at
once and ends in a zero, which takes one byte of the capacity; from version 5 on
there is a length byte between them, and text that is already in the buffer is
kept.  The host may time out any number of times before it answers, and it may
give a longer line than it was asked for.  Without a routine for timeouts the
read simply asks again, so that the last reply alone decides what is stored, and
cutting the line to the room that is left keeps it inside the buffer.
-/

namespace ZMachine.Machine

open MachineM

variable {image : Image} {version : UInt8} {buffer : Nat}

/-! ## The buffer -/

def capacityOf (image : Image) (buffer : Nat) : Nat :=
  (image.byteAt buffer).toNat

/-- Address of the text. -/
def textStart (version : UInt8) (buffer : Nat) : Nat :=
  if 4 < version then buffer + 2 else buffer + 1

/-- Bytes of earlier text that stay. -/
def keptIn (version : UInt8) (image : Image) (buffer : Nat) : Nat :=
  if 4 < version then min (image.byteAt (buffer + 1)).toNat (capacityOf image buffer) else 0

/-- Bytes that a line may have. -/
def roomIn (version : UInt8) (image : Image) (buffer : Nat) : Nat :=
  if 4 < version then capacityOf image buffer - keptIn version image buffer
  else capacityOf image buffer - 1

/-- Bytes behind the capacity that belong to the buffer. -/
def extentOf (version : UInt8) (capacity : Nat) : Nat :=
  if 4 < version then capacity + 1 else max capacity 1

theorem lineRoom_image (hbuffer : buffer + extentOf version (capacityOf image buffer) <
      image.bytes.size) :
    (lineRoom version buffer : MemoryM Image (Nat × Nat × Nat)) image =
      .ok (textStart version buffer, keptIn version image buffer, roomIn version image buffer)
        image := by
  unfold lineRoom
  rw [bind_ok (Image.readByte_of_lt (by omega))]
  unfold extentOf at hbuffer
  unfold textStart roomIn keptIn
  by_cases hversion : 4 < version
  · simp only [hversion, if_true] at hbuffer ⊢
    rw [bind_ok (Image.readByte_of_lt (by omega))]
    rfl
  · simp only [hversion, if_false]
    rfl

/-! ## What a read stores -/

/-- The part of a line that is stored. -/
def storedText (room : Nat) (line : List UInt8) : List UInt8 :=
  (line.take room).map toLower

/-- The image with the length of the text noted, or the text ended. -/
def endText (version : UInt8) (buffer : Nat) (image : Image) (length : Nat) : Image :=
  if 4 < version then image.poke (buffer + 1) (UInt8.ofNat length)
  else image.poke (textStart version buffer + length) 0

/-- The image behind a read that got a line, or none. -/
def withLine (version : UInt8) (image : Image) (buffer : Nat) : Option (List UInt8) → Image
  | none => endText version buffer image 0
  | some line =>
    let text := storedText (roomIn version image buffer) line
    let kept := keptIn version image buffer
    endText version buffer (image.pokes (textStart version buffer + kept) text)
      (kept + text.length)

theorem length_storedText_le (room : Nat) (line : List UInt8) :
    (storedText room line).length ≤ room := by
  simp only [storedText, List.length_map, List.length_take]
  omega

theorem kept_add_room_le (version : UInt8) (image : Image) (buffer : Nat) :
    textStart version buffer + keptIn version image buffer + roomIn version image buffer ≤
      buffer + 1 + extentOf version (capacityOf image buffer) := by
  unfold textStart roomIn keptIn extentOf
  split <;> omega

theorem withLine_closed (version : UInt8) (image : Image) (buffer : Nat) :
    withLine version image buffer none = image.poke (buffer + 1) 0 := by
  simp only [withLine, endText, textStart]
  split <;> rfl

theorem one_le_extentOf (version : UInt8) (capacity : Nat) : 1 ≤ extentOf version capacity := by
  unfold extentOf
  split <;> omega

theorem end_inside {length : Nat} (hversion : ¬ 4 < version)
    (hlength : length ≤ keptIn version image buffer + roomIn version image buffer) :
    textStart version buffer + length ≤ buffer + extentOf version (capacityOf image buffer) := by
  simp only [textStart, keptIn, roomIn, extentOf, hversion, if_false] at *
  omega

theorem endText_changed {length : Nat}
    (hlength : length ≤ keptIn version image buffer + roomIn version image buffer)
    (image' : Image) :
    image'.ChangedWithin (endText version buffer image' length) (buffer + 1)
      (extentOf version (capacityOf image buffer)) := by
  have hextent := one_le_extentOf version (capacityOf image buffer)
  unfold endText
  split
  next => exact (Image.ChangedWithin.poke _ _ _).mono (Nat.le_refl _) (by omega)
  next hversion =>
    have hstart : textStart version buffer = buffer + 1 := if_neg hversion
    have hinside := end_inside hversion hlength
    exact (Image.ChangedWithin.poke _ _ _).mono (by omega) (by omega)

theorem withLine_changed (version : UInt8) (image : Image) (buffer : Nat)
    (answer : Option (List UInt8)) :
    image.ChangedWithin (withLine version image buffer answer) (buffer + 1)
      (extentOf version (capacityOf image buffer)) := by
  cases answer with
  | none => exact endText_changed (Nat.zero_le _) image
  | some line =>
      have hlength := length_storedText_le (roomIn version image buffer) line
      have hupto := kept_add_room_le version image buffer
      have hstart : buffer + 1 ≤ textStart version buffer := by
        unfold textStart
        split <;> omega
      exact ((Image.ChangedWithin.pokes _ _ _).mono (by omega) (by omega)).trans
        (endText_changed (by omega) _)

/-- The byte that ends or measures the text is none of it. -/
theorem byteAt_endText_of_text {length k : Nat} (hk : k < length) (image : Image) :
    (endText version buffer image length).byteAt (textStart version buffer + k) =
      image.byteAt (textStart version buffer + k) := by
  unfold endText
  split
  next hversion =>
    have hstart : textStart version buffer = buffer + 2 := if_pos hversion
    rw [Image.byteAt_poke_of_ne _ (by omega)]
  next => rw [Image.byteAt_poke_of_ne _ (by omega)]

/-- The buffer holds what it kept, and then the line. -/
theorem text_withLine (line : List UInt8)
    (hbuffer : buffer + extentOf version (capacityOf image buffer) < image.bytes.size) :
    let kept := keptIn version image buffer
    let text := storedText (roomIn version image buffer) line
    (List.range' (textStart version buffer) (kept + text.length)).map
        (withLine version image buffer (some line)).byteAt =
      (List.range' (textStart version buffer) kept).map image.byteAt ++ text := by
  intro kept text
  have hlength : text.length ≤ roomIn version image buffer := length_storedText_le _ line
  have hupto := kept_add_room_le version image buffer
  have hroom : textStart version buffer + kept + text.length ≤ image.bytes.size := by omega
  refine List.ext_getElem? fun k => ?_
  rcases Nat.lt_or_ge k (kept + text.length) with hk | hk
  · rw [List.getElem?_map, List.getElem?_range' hk, Option.map_some, Nat.one_mul, withLine,
      byteAt_endText_of_text hk]
    rcases Nat.lt_or_ge k kept with hkept | hkept
    · rw [List.getElem?_append_left (by simpa using hkept), List.getElem?_map,
        List.getElem?_range' hkept, Option.map_some, Nat.one_mul,
        Image.byteAt_pokes_of_outside _ (.inl (by omega))]
    · have hplace : textStart version buffer + k =
          textStart version buffer + kept + (k - kept) := by omega
      rw [List.getElem?_append_right (by simpa using hkept), List.length_map, List.length_range',
        Image.byteAt_pokes_of_inside hroom (by omega), hplace]
  · rw [List.getElem?_eq_none (by simpa using hk), List.getElem?_eq_none (by simpa using hk)]

theorem end_withLine (line : List UInt8)
    (hbuffer : buffer + extentOf version (capacityOf image buffer) < image.bytes.size) :
    let length := keptIn version image buffer +
      (storedText (roomIn version image buffer) line).length
    (¬ 4 < version → (withLine version image buffer (some line)).byteAt
        (textStart version buffer + length) = 0) ∧
      (4 < version →
        ((withLine version image buffer (some line)).byteAt (buffer + 1)).toNat = length) := by
  intro length
  have hlength : length ≤ keptIn version image buffer + roomIn version image buffer :=
    Nat.add_le_add_left (length_storedText_le _ line) _
  have hextent := one_le_extentOf version (capacityOf image buffer)
  refine ⟨fun hversion => ?_, fun hversion => ?_⟩
  · have hinside := end_inside hversion hlength
    rw [withLine, endText, if_neg hversion,
      Image.byteAt_poke_self (by rw [Image.size_pokes]; omega)]
  · have hcapacity : (image.byteAt buffer).toNat < 256 := UInt8.toNat_lt _
    have hsum : length < 256 := by
      simp only [keptIn, roomIn, capacityOf, hversion, if_true] at hlength
      omega
    rw [withLine, endText, if_pos hversion,
      Image.byteAt_poke_self (by rw [Image.size_pokes]; omega)]
    exact Nat.mod_eq_of_lt hsum

/-! ## Replies of the host -/

variable {M H : Type} [AddressSpace M] [Host H]

/-- The host answers one read of a line after the other with these replies. -/
inductive Replies (limit : Nat) (timeout : UInt16) : H → List (Reply (List UInt8)) → H → Prop
  | done (host : H) : Replies limit timeout host [] host
  | next {host host₁ host₂ : H} {reply : Reply (List UInt8)} {rest : List (Reply (List UInt8))} :
      Host.readLine limit timeout host = .ok reply host₁ → Replies limit timeout host₁ rest host₂ →
        Replies limit timeout host (reply :: rest) host₂

/-- A reply that is no timeout: a line, or the end of input. -/
def lastReply : Option (List UInt8) → Reply (List UInt8)
  | some line => .given line
  | none => .closed

/-- A halted machine gives a read up as soon as it times out. -/
def takenBy (halted : Bool) (timeouts : Nat) (answer : Option (List UInt8)) :
    Option (List UInt8) :=
  if halted = true ∧ 0 < timeouts then none else answer

/-- Without a line the story is over. -/
def coreAfter (core : Core) : Option (List UInt8) → Core
  | some _ => core
  | none => { core with halted := true }

theorem takenBy_zero (halted : Bool) (answer : Option (List UInt8)) :
    takenBy halted 0 answer = answer :=
  if_neg fun h => Nat.lt_irrefl 0 h.2

theorem takenBy_running (n : Nat) (answer : Option (List UInt8)) :
    takenBy false n answer = answer :=
  if_neg fun h => Bool.false_ne_true h.1

theorem takenBy_halted (n : Nat) (answer : Option (List UInt8)) :
    takenBy true (n + 1) answer = none :=
  if_pos ⟨rfl, Nat.succ_pos n⟩

omit [Host H] in
theorem interruptRead_zero (run : MachineM M H UInt16) (s : Machine M H) :
    interruptRead run 0 s = .ok s.core.halted s := by
  have hcall : call run .async [0] s = .ok 0 s := rfl
  have hcore : (getCore : MachineM M H Core) s = .ok s.core s := rfl
  unfold interruptRead
  rw [bind_ok hcall, bind_ok hcore]
  simp [pure, EStateM.pure]

theorem awaitLine_replies (run : MachineM M H UInt16) {limit n fuel : Nat} {timeout : UInt16}
    {answer : Option (List UInt8)} {s : Machine M H} {host' : H}
    (hreplies : Replies limit timeout s.host
      (List.replicate n .timedOut ++ [lastReply answer]) host') (hfuel : n < fuel) :
    ∃ host'', awaitLine run limit timeout 0 fuel s =
      .ok (takenBy s.core.halted n answer)
        { s with host := host'', core := coreAfter s.core (takenBy s.core.halted n answer) } := by
  -- one reply is taken from the host for each unit of fuel
  induction fuel generalizing s n with
  | zero => exact absurd hfuel (Nat.not_lt_zero n)
  | succ fuel ih =>
      unfold awaitLine
      cases n with
      | zero =>
          cases hreplies with
          | next hreply _ =>
              rw [bind_ok (ofHost_eq_ok_iff.mpr ⟨_, hreply, rfl⟩), takenBy_zero]
              cases answer <;> exact ⟨_, rfl⟩
      | succ n =>
          cases hreplies with
          | next hreply hrest =>
              rw [bind_ok (ofHost_eq_ok_iff.mpr ⟨_, hreply, rfl⟩)]
              dsimp only
              rw [bind_ok (interruptRead_zero run _)]
              cases hhalted : s.core.halted with
              | true =>
                  have hcore : coreAfter s.core none = s.core := by
                    rw [coreAfter, ← hhalted]
                  rw [takenBy_halted, hcore]
                  exact ⟨_, rfl⟩
              | false =>
                  obtain ⟨host'', h⟩ := ih (s := { s with host := _ }) hrest
                    (Nat.lt_of_succ_lt_succ hfuel)
                  rw [hhalted, takenBy_running] at h
                  rw [takenBy_running]
                  exact ⟨host'', h⟩

/-! ## The read -/

omit [Host H] in
theorem endText_image {length : Nat} {key : UInt8} {t : Machine Image H}
    (hlength : length ≤ keptIn version image buffer + roomIn version image buffer)
    (hbuffer : buffer + extentOf version (capacityOf image buffer) < t.memory.bytes.size) :
    (if 4 < version then do
        ofMemory (Memory.writeByte (buffer + 1) (UInt8.ofNat length))
        pure key
      else do
        ofMemory (Memory.writeByte (textStart version buffer + length) 0)
        pure key : MachineM Image H UInt8) t =
      .ok key { t with memory := endText version buffer t.memory length } := by
  have hextent := one_le_extentOf version (capacityOf image buffer)
  unfold endText
  split
  next =>
    rw [bind_ok (ofMemory_eq_ok_iff.mpr ⟨_, Image.writeByte_of_lt (by omega) _, rfl⟩)]
    rfl
  next hversion =>
    have hinside := end_inside hversion hlength
    rw [bind_ok (ofMemory_eq_ok_iff.mpr ⟨_, Image.writeByte_of_lt (by omega) _, rfl⟩)]
    rfl

theorem readLine_image (run : MachineM Image H UInt16) {fuel : Nat} {buffer timeout : UInt16}
    {host host₀ host' : H} {core core' : Core} {answer : Option (List UInt8)}
    (hbuffer : buffer.toNat + extentOf core.header.version (capacityOf image buffer.toNat) <
      image.bytes.size)
    (hflush : Host.flush host = .ok () host₀)
    (hawait : awaitLine run (roomIn core.header.version image buffer.toNat) timeout 0 fuel
      ⟨image, host₀, core⟩ = .ok answer ⟨image, host', core'⟩) :
    readLine fuel run buffer timeout 0 ⟨image, host, core⟩ =
      .ok (if answer.isSome then ZString.newline else 0)
        ⟨withLine core.header.version image buffer.toNat answer, host', core'⟩ := by
  have hversion : (version : MachineM Image H UInt8) ⟨image, host, core⟩ =
      .ok core.header.version ⟨image, host, core⟩ := rfl
  have hroom : ofMemory (lineRoom core.header.version buffer.toNat) ⟨image, host, core⟩ =
      .ok _ ⟨image, host, core⟩ := ofMemory_eq_ok_iff.mpr ⟨_, lineRoom_image hbuffer, rfl⟩
  unfold readLine
  rw [bind_ok hversion, bind_ok hroom]
  dsimp only
  rw [bind_ok (ofHost_eq_ok_iff.mpr ⟨_, hflush, rfl⟩), bind_ok hawait]
  cases answer with
  | none => exact endText_image (Nat.zero_le _) hbuffer
  | some line =>
      let text := storedText (roomIn core.header.version image buffer.toNat) line
      let start := textStart core.header.version buffer.toNat +
        keptIn core.header.version image buffer.toNat
      have hlength : text.length ≤ _ := length_storedText_le _ line
      have hupto : start + _ ≤ _ := kept_add_room_le core.header.version image buffer.toNat
      have hwrite : (Memory.writeBytes start text : MemoryM Image Unit) image =
          .ok () (image.pokes start text) := Image.writeBytes_of_le (by omega)
      refine (bind_ok (ofMemory_eq_ok_iff.mpr ⟨_, hwrite, rfl⟩)).trans ?_
      exact endText_image (Nat.add_le_add_left hlength _) (by rwa [Image.size_pokes])

/-- Without a routine for timeouts no other code of the story runs. -/
theorem readLine_zero (run run' : MachineM M H UInt16) (fuel : Nat) (buffer timeout : UInt16) :
    readLine fuel run buffer timeout 0 = readLine fuel run' buffer timeout 0 := by
  have hinterrupt : interruptRead run 0 = interruptRead run' 0 := by
    funext s
    rw [interruptRead_zero, interruptRead_zero]
  have hawait (limit fuel : Nat) :
      awaitLine run limit timeout 0 fuel = awaitLine run' limit timeout 0 fuel := by
    induction fuel with
    | zero => rfl
    | succ fuel ih => simp only [awaitLine, hinterrupt, ih]
  simp only [readLine, hawait]

theorem readLine_sim {strict : Prop} {R : M → Image → Prop} (hR : MemorySim strict R)
    (run : MachineM M H UInt16) (fuel : Nat) (buffer timeout : UInt16) :
    Sim strict (SameParts R) (SameParts R) (readLine fuel run buffer timeout 0)
      (readLine fuel (throw .outOfFuel : MachineM Image H UInt16) buffer timeout 0) := by
  rw [readLine_zero run (throw .outOfFuel)]
  exact (SameParts.runSim hR).readLine (Sim.throw _) fuel buffer timeout 0

/-- Where every read of memory succeeds, so does the read of a line. -/
theorem readLine_stores {strict : Prop} {R : M → Image → Prop} (hR : MemorySim strict R)
    (run : MachineM M H UInt16) {fuel n : Nat} {buffer timeout : UInt16} {s : Machine M H}
    {host₀ host₁ : H} {answer : Option (List UInt8)} (hs : R s.memory image)
    (hbuffer : buffer.toNat + extentOf s.core.header.version (capacityOf image buffer.toNat) <
      image.bytes.size)
    (hflush : Host.flush s.host = .ok () host₀)
    (hreplies : Replies (roomIn s.core.header.version image buffer.toNat) timeout host₀
      (List.replicate n .timedOut ++ [lastReply answer]) host₁) (hfuel : n < fuel) :
    let taken := takenBy s.core.halted n answer
    (strict → ∃ key s', readLine fuel run buffer timeout 0 s = .ok key s') ∧
      ∀ key s', readLine fuel run buffer timeout 0 s = .ok key s' →
        R s'.memory (withLine s.core.header.version image buffer.toNat taken) ∧
          s'.core = coreAfter s.core taken := by
  let t : Machine Image H := ⟨image, s.host, s.core⟩
  have hst : SameParts R s t := ⟨hs, rfl, rfl⟩
  obtain ⟨host', hawait⟩ := awaitLine_replies (throw .outOfFuel : MachineM Image H UInt16)
    (s := ⟨image, host₀, s.core⟩) hreplies hfuel
  have himage := readLine_image _ hbuffer hflush hawait
  have hsim := readLine_sim hR run fuel buffer timeout
  refine ⟨fun hstrict => ?_, fun key s' hread => ?_⟩
  · cases hread : readLine fuel run buffer timeout 0 s with
    | ok key s' => exact ⟨key, s', rfl⟩
    | error e s' =>
        obtain ⟨t', herror, _⟩ := hsim.error hstrict hst hread
        cases himage.symm.trans herror
  · obtain ⟨t', ht', hparts⟩ := hsim.ok hst hread
    cases himage.symm.trans ht'
    exact ⟨hparts.memory, hparts.core⟩

/-- A line stays in its buffer, whatever the host gives.  The end of input leaves
the buffer empty and the machine halted.  A machine that is halted already gives
the read up at the first timeout, and then it ends in the same way. -/
theorem line_stays_in_buffer {strict : Prop} {R : M → Image → Prop} (hR : MemorySim strict R)
    (run : MachineM M H UInt16) (fuel n : Nat) (buffer timeout : UInt16)
    (answer : Option (List UInt8)) {s : Machine M H} {host₀ host₁ : H} (hs : R s.memory image)
    (hbuffer : buffer.toNat + extentOf s.core.header.version (capacityOf image buffer.toNat) <
      image.bytes.size)
    (hflush : Host.flush s.host = .ok () host₀)
    (hreplies : Replies (roomIn s.core.header.version image buffer.toNat) timeout host₀
      (List.replicate n .timedOut ++ [lastReply answer]) host₁) (hfuel : n < fuel) :
    let version := s.core.header.version
    let capacity := (image.byteAt buffer.toNat).toNat
    let kept := min (image.byteAt (buffer.toNat + 1)).toNat capacity
    let taken := takenBy s.core.halted n answer
    (strict → ∃ key s', readLine fuel run buffer timeout 0 s = .ok key s') ∧
      ∀ key s', readLine fuel run buffer timeout 0 s = .ok key s' →
        ∃ image', R s'.memory image' ∧
          (∀ line, taken = some line → ¬ 4 < version →
            let text := (line.take (capacity - 1)).map toLower
            (List.range' (buffer.toNat + 1) text.length).map image'.byteAt = text ∧
              image'.byteAt (buffer.toNat + 1 + text.length) = 0) ∧
          (∀ line, taken = some line → 4 < version →
            let text := (line.take (capacity - kept)).map toLower
            (List.range' (buffer.toNat + 2) (kept + text.length)).map image'.byteAt =
                (List.range' (buffer.toNat + 2) kept).map image.byteAt ++ text ∧
              (image'.byteAt (buffer.toNat + 1)).toNat = kept + text.length) ∧
          (taken = none → s'.core.halted = true ∧ image'.byteAt (buffer.toNat + 1) = 0 ∧
            ∀ a, a ≠ buffer.toNat + 1 → image'.byteAt a = image.byteAt a) ∧
          image'.bytes.size = image.bytes.size ∧
          ∀ a, ¬ (buffer.toNat + 1 ≤ a ∧ a ≤ buffer.toNat + extentOf version capacity) →
            image'.byteAt a = image.byteAt a := by
  intro version capacity kept taken
  obtain ⟨hexists, hstores⟩ := readLine_stores hR run hs hbuffer hflush hreplies hfuel
  refine ⟨hexists, fun key s' hread => ?_⟩
  obtain ⟨hmemory, hcore⟩ : R s'.memory (withLine version image buffer.toNat taken) ∧
    s'.core = coreAfter s.core taken := hstores key s' hread
  have hchanged := withLine_changed version image buffer.toNat taken
  refine ⟨_, hmemory, fun line htaken hversion => ?_, fun line htaken hversion => ?_,
    fun htaken => ?_, hchanged.size_eq, fun a ha => hchanged.other a ?_⟩
  · have htext := text_withLine line hbuffer
    have hend := (end_withLine line hbuffer).1 hversion
    simp only [textStart, keptIn, roomIn, version, hversion, if_false, Nat.zero_add] at htext hend
    rw [htaken]
    exact ⟨htext, hend⟩
  · have htext := text_withLine line hbuffer
    have hend := (end_withLine line hbuffer).2 hversion
    simp only [textStart, keptIn, roomIn, version, hversion, if_true] at htext hend
    rw [htaken]
    exact ⟨htext, hend⟩
  · have hextent := one_le_extentOf s.core.header.version (capacityOf image buffer.toNat)
    rw [htaken, withLine_closed]
    exact ⟨by rw [hcore, htaken, coreAfter], Image.byteAt_poke_self (by omega) _,
      fun a ha => Image.byteAt_poke_of_ne _ ha _⟩
  · exact fun hinside => ha ⟨hinside.1, Nat.le_of_lt_succ (by
      rw [Nat.succ_eq_add_one, Nat.add_right_comm]
      exact hinside.2)⟩

/-- A machine with a line buffer of six bytes, two of which are in use from version 5 on. -/
def promptedReader (version : UInt8) (lines : List (Reply (List UInt8))) :
    Machine Image Journal where
  memory := ⟨#[9, 6, 2, 103, 111, 0, 0, 0, 0, 77]⟩
  host := { lines }
  core := .blank { (default : Header) with version } {}

theorem line_stays_in_buffer_cut_or_closed :
    (∃ key s', readLine 3 (throw .outOfFuel) 1 10 0
        (promptedReader 5 [.timedOut, .timedOut, .given [32, 78, 79, 82, 84, 72]]) = .ok key s' ∧
      (List.range' 3 6).map s'.memory.byteAt = [103, 111, 32, 110, 111, 114] ∧
      (s'.memory.byteAt 2).toNat = 6 ∧ s'.memory.byteAt 9 = 77) ∧
    ∃ key s', readLine 2 (throw .outOfFuel) 1 10 0 (promptedReader 3 [.timedOut]) = .ok key s' ∧
      s'.core.halted = true ∧ s'.memory.byteAt 2 = 0 ∧ s'.memory.byteAt 3 = 103 := by
  constructor
  · obtain ⟨hexists, hread⟩ := line_stays_in_buffer
      (s := promptedReader 5 [.timedOut, .timedOut, .given [32, 78, 79, 82, 84, 72]])
      MemorySim.refl (throw .outOfFuel) 3 2 1 10 (some [32, 78, 79, 82, 84, 72]) rfl
      (by decide +kernel) rfl (.next rfl (.next rfl (.next rfl (.done _)))) (by decide)
    obtain ⟨key, s', h⟩ := hexists trivial
    obtain ⟨image', rfl, -, hlate, -, -, hother⟩ := hread key s' h
    obtain ⟨htext, hlength⟩ := hlate _ rfl (by decide)
    exact ⟨key, s', h, htext, hlength, hother 9 (by decide +kernel)⟩
  · obtain ⟨hexists, hread⟩ := line_stays_in_buffer (s := promptedReader 3 [.timedOut])
      MemorySim.refl (throw .outOfFuel) 2 1 1 10 none rfl (by decide +kernel) rfl
      (.next rfl (.next rfl (.done _))) (by decide)
    obtain ⟨key, s', h⟩ := hexists trivial
    obtain ⟨image', rfl, -, -, hclosed, -⟩ := hread key s' h
    obtain ⟨hhalted, hempty, hsame⟩ := hclosed rfl
    exact ⟨key, s', h, hhalted, hempty, hsame 3 (by decide)⟩

end ZMachine.Machine
