import ZMachine.Host.Transcript
import ZMachine.Proofs.Output.Ledger
import ZMachine.Proofs.Simulation.Run

/-!
# Output through nested tables

After any calls that write characters, select the screen and open and close
tables, the host has been given what the ledger says was shown, and memory
holds the openings of the ledger, whichever way the tables were nested.
-/

namespace ZMachine

open MachineM

variable {M H : Type} [AddressSpace M]

/-! ## Single calls -/

namespace Machine

variable {s : Machine M H}

theorem outputStream_screen (on : Bool) (table : UInt16) (s : Machine M H) :
    outputStream (if on then 1 else 0xFFFF) table s =
      .ok () { s with core := { s.core with streams := { s.core.streams with
        screenOff := !on } } } := by
  cases on <;> rfl

theorem outputStream_open (table : UInt16) (s : Machine M H) :
    outputStream 3 table s =
      .ok () { s with core := { s.core with streams := { s.core.streams with
        tables := ⟨table.toNat, 0⟩ :: s.core.streams.tables } } } :=
  rfl

theorem closeTable_none (hnone : s.core.streams.tables = []) : closeTable s = .ok () s := by
  refine (bind_ok rfl).trans ?_
  rw [hnone]
  rfl

theorem closeTable_some {s : Machine Image H} {table : OutputTable} {outer : List OutputTable}
    (hsome : s.core.streams.tables = table :: outer)
    (hroom : table.address + 1 < s.memory.bytes.size) :
    closeTable s = .ok ()
      { s with
        memory := s.memory.pokeWord table.address table.count
        core := { s.core with streams := { s.core.streams with tables := outer } } } := by
  refine (bind_ok rfl).trans ?_
  rw [hsome]
  refine (bind_ok rfl).trans ?_
  exact ofMemory_eq_ok_iff.mpr ⟨_, Image.writeWord_of_lt hroom _, rfl⟩

section

variable [Host H]

def showCharacter (window : Window) (ch : UInt8) : HostM H Unit :=
  (ZString.display ch).forM (Host.writeByte window)

omit [AddressSpace M] in
theorem forM_showByte (bytes : List UInt8) (s : Machine M H) :
    bytes.forM showByte s = ofHost (bytes.forM (Host.writeByte s.core.window)) s := by
  induction bytes generalizing s with
  | nil => rfl
  | cons b bytes ih =>
      change (showByte b >>= fun _ => bytes.forM showByte) s = ofHost (do
        Host.writeByte s.core.window b
        bytes.forM (Host.writeByte s.core.window)) s
      cases hb : (Host.writeByte s.core.window b : HostM H Unit) s.host with
      | ok _ host =>
          have hshow : showByte b s = .ok () { s with host } := ofHost_eq_ok_iff.mpr ⟨host, hb, rfl⟩
          rw [bind_ok hshow, ih]
          simp only [ofHost, bind_ok hb]
      | error reason host =>
          have hshow : showByte b s = .error (.display reason) { s with host } :=
            ofHost_eq_error_iff.mpr ⟨reason, host, hb, rfl, rfl⟩
          rw [bind_error hshow]
          simp only [ofHost, bind_error hb]

theorem writeCharacter_screen (hnone : s.core.streams.tables = []) (ch : UInt8) :
    writeCharacter ch s =
      if s.core.streams.screenOff then .ok () s else ofHost (showCharacter s.core.window ch) s := by
  have hplace : advanceTable s = .ok none s := by
    refine (bind_ok rfl).trans ?_
    rw [hnone]
    rfl
  rw [writeCharacter, bind_ok hplace]
  refine (bind_ok rfl).trans ?_
  split
  · rfl
  · exact forM_showByte _ s

theorem writeCharacter_table {s : Machine Image H} {table : OutputTable}
    {outer : List OutputTable} (hsome : s.core.streams.tables = table :: outer) (ch : UInt8)
    (hroom : table.address + 2 + table.count.toNat < s.memory.bytes.size) :
    writeCharacter ch s = .ok ()
      { s with
        memory := s.memory.poke (table.address + 2 + table.count.toNat) ch
        core := { s.core with streams := { s.core.streams with
          tables := { table with count := table.count + 1 } :: outer } } } := by
  have hplace : advanceTable s = .ok (some (table.address + 2 + table.count.toNat))
      { s with core := { s.core with streams := { s.core.streams with
        tables := { table with count := table.count + 1 } :: outer } } } := by
    refine (bind_ok rfl).trans ?_
    rw [hsome]
    rfl
  rw [writeCharacter, bind_ok hplace]
  exact ofMemory_eq_ok_iff.mpr ⟨_, Image.writeByte_of_lt hroom ch, rfl⟩

end

end Machine

variable [Host H]

def OutputCall.run : OutputCall → MachineM M H Unit
  | .write ch => Machine.writeCharacter ch
  | .screen on table => Machine.outputStream (if on then 1 else 0xFFFF) table
  | .openTable table => Machine.outputStream 3 table
  | .closeTable table => Machine.outputStream 0xFFFD table

omit [AddressSpace M] [Host H] in
theorem reached_ofHost {α : Type} (x : HostM H α) (s : Machine M H) :
    reached (ofHost x s) = { s with host := reached (x s.host) } := by
  cases hx : x s.host <;> simp [ofHost, reached, hx]

/-- A call fails only with what the host has to say. -/
def Reported (H : Type) [Host H] (window : Window) (answer : Except Fault Unit) : Prop :=
  answer = .ok () ∨
    ∃ (b : UInt8) (host host' : H) (reason : String),
      Host.writeByte window b host = .error reason host' ∧ answer = .error (.display reason)

omit [AddressSpace M] in
theorem reported_ofHost (window : Window) (bytes : List UInt8) (s : Machine M H) :
    Reported H window
      (outcome ((ofHost (bytes.forM (Host.writeByte window)) : MachineM M H Unit) s)) := by
  have hreason : ∀ {host host' : H} {reason}, bytes.forM (Host.writeByte window) host =
      .error reason host' → ∃ b host₁, Host.writeByte window b host₁ = .error reason host' := by
    induction bytes with
    | nil => exact fun h => by cases h
    | cons b bytes ih =>
        intro host host' reason h
        rcases bind_eq_error_iff.mp h with hb | ⟨_, host₁, -, hrest⟩
        · exact ⟨b, host, hb⟩
        · exact ih hrest
  cases h : (ofHost (bytes.forM (Host.writeByte window)) : MachineM M H Unit) s with
  | ok a s' => exact .inl rfl
  | error e s' =>
      obtain ⟨reason, host', hbytes, rfl, -⟩ := ofHost_eq_error_iff.mp h
      obtain ⟨b, host, hb⟩ := hreason hbytes
      exact .inr ⟨b, host, host', reason, hb, rfl⟩

/-! ## Sequences of calls -/

/-- The machine is as the ledger says it became from the first one. -/
structure Ledger.Accounts (l : Ledger) (s t : Machine Image H) : Prop where
  host : t.host = stateAfter (l.shown.map (Machine.showCharacter s.core.window)) s.host
  core : t.core = { s.core with streams := l.streams }
  memory : l.Records s.memory t.memory

namespace Ledger.Accounts

variable {l : Ledger} {s t : Machine Image H}

theorem streams_eq (h : l.Accounts s t) : t.core.streams = l.streams := by
  rw [h.core]

theorem tables_of_nil (h : l.Accounts s t) (hopened : l.opened = []) :
    t.core.streams.tables = [] := by
  rw [h.streams_eq, streams, hopened]
  rfl

theorem tables_of_cons (h : l.Accounts s t) {o : Opening} {outer : List Opening}
    (hopened : l.opened = o :: outer) :
    t.core.streams.tables = o.toTable :: outer.map Opening.toTable := by
  rw [h.streams_eq, streams, hopened]
  rfl

theorem core_with (h : l.Accounts s t) (streams : Streams) :
    { t.core with streams } = { s.core with streams } := by
  rw [h.core]

theorem writeScreen (h : l.Accounts s t) (hopened : l.opened = []) (ch : UInt8) :
    (l.after (.write ch)).Accounts s (reached (Machine.writeCharacter ch t)) ∧
      Reported H s.core.window (outcome (Machine.writeCharacter ch t)) := by
  have hwindow : t.core.window = s.core.window := by
    rw [h.core]
  have hoff : t.core.streams.screenOff = l.screenOff := by
    rw [h.streams_eq, streams]
  rw [Machine.writeCharacter_screen (h.tables_of_nil hopened), hwindow, hoff,
    after_write_of_nil hopened]
  by_cases hscreen : l.screenOff
  case pos =>
    rw [if_pos hscreen, if_pos hscreen]
    exact ⟨h, .inl rfl⟩
  rw [if_neg hscreen, if_neg hscreen]
  refine ⟨⟨?_, ?_, ?_⟩, reported_ofHost _ _ _⟩
  · rw [reached_ofHost, List.map_append, List.map_singleton, stateAfter_concat, ← h.host]
  · rw [reached_ofHost]
    exact h.core
  · rw [reached_ofHost]
    exact h.memory.of_tables rfl rfl

theorem writeTable (h : l.Accounts s t) {o : Opening} {outer : List Opening}
    (hopened : l.opened = o :: outer) (ch : UInt8)
    (hfit : Fit (l.after (.write ch)).openings s.memory.bytes.size) :
    (l.after (.write ch)).Accounts s (reached (Machine.writeCharacter ch t)) ∧
      outcome (Machine.writeCharacter ch t) = .ok () := by
  have hrecords := h.memory.write hopened ch (h.memory.size_eq ▸ hfit)
  rw [after_write_of_cons hopened] at hfit hrecords ⊢
  have hcounted := hfit.counted (o.add ch) List.mem_cons_self
  have hinside := hfit.inside (o.add ch) List.mem_cons_self
  rw [Opening.length_add] at hcounted hinside
  rw [Opening.start_add, ← h.memory.size_eq] at hinside
  have hcount : (UInt16.ofNat o.text.length).toNat = o.text.length :=
    UInt16.toNat_ofNat_of_lt' (Nat.lt_of_succ_lt hcounted)
  have hnext : UInt16.ofNat o.text.length + 1 = UInt16.ofNat (o.add ch).text.length := by
    rw [Opening.length_add, UInt16.ofNat_add]
    rfl
  have hroom : o.start + (UInt16.ofNat o.text.length).toNat < t.memory.bytes.size := by
    rw [hcount]
    exact Nat.lt_of_succ_le hinside
  rw [Machine.writeCharacter_table (h.tables_of_cons hopened) ch hroom, h.streams_eq]
  simp only [Opening.toTable, hcount, hnext]
  exact ⟨⟨h.host, h.core_with _, hrecords⟩, rfl⟩

theorem close (h : l.Accounts s t) (table : UInt16)
    (hfit : Fit l.openings s.memory.bytes.size) :
    (l.after (.closeTable table)).Accounts s (reached (Machine.closeTable t)) ∧
      outcome (Machine.closeTable t) = .ok () := by
  cases hopened : l.opened with
  | nil =>
      rw [Machine.closeTable_none (h.tables_of_nil hopened), after_close_of_nil hopened]
      exact ⟨h, rfl⟩
  | cons o outer =>
      rw [← h.memory.size_eq] at hfit
      have hrecords := h.memory.close hopened table hfit
      have hinside := hfit.inside o (by rw [openings_of_cons hopened]; exact List.mem_cons_self)
      have hroom : o.table.toNat + 1 < t.memory.bytes.size := by
        unfold Opening.start at hinside
        omega
      rw [Machine.closeTable_some (h.tables_of_cons hopened) hroom, h.streams_eq]
      rw [after_close_of_cons hopened] at hrecords ⊢
      exact ⟨⟨h.host, h.core_with _, hrecords⟩, rfl⟩

theorem call (h : l.Accounts s t) (call : OutputCall)
    (hfit : Fit (l.after call).openings s.memory.bytes.size) :
    (l.after call).Accounts s (reached (call.run t)) ∧
      Reported H s.core.window (outcome (call.run t)) := by
  cases call with
  | write ch =>
      cases hopened : l.opened with
      | nil => exact h.writeScreen hopened ch
      | cons o outer =>
          obtain ⟨haccounts, hok⟩ := h.writeTable hopened ch hfit
          exact ⟨haccounts, .inl hok⟩
  | screen on table =>
      rw [OutputCall.run, Machine.outputStream_screen, h.streams_eq]
      exact ⟨⟨h.host, h.core_with _, h.memory.of_tables rfl rfl⟩, .inl rfl⟩
  | openTable table =>
      rw [OutputCall.run, Machine.outputStream_open, h.streams_eq]
      exact ⟨⟨h.host, h.core_with _, h.memory.openTable table⟩, .inl rfl⟩
  | closeTable table =>
      obtain ⟨haccounts, hok⟩ := h.close table (fit_of_after _ hfit)
      exact ⟨haccounts, .inl hok⟩

theorem calls (h : l.Accounts s t) {calls : List OutputCall}
    (hfit : Fit (l.afterAll calls).openings s.memory.bytes.size) :
    (l.afterAll calls).Accounts s (stateAfter (calls.map OutputCall.run) t) ∧
      ∀ answer ∈ outcomes (calls.map OutputCall.run) t, Reported H s.core.window answer := by
  induction calls generalizing l t with
  | nil => exact ⟨h, fun _ hanswer => by cases hanswer⟩
  | cons call calls ih =>
      obtain ⟨hcall, hreported⟩ := h.call call (fit_of_afterAll hfit)
      obtain ⟨hlast, hrest⟩ := ih hcall hfit
      exact ⟨hlast, List.forall_mem_cons.mpr ⟨hreported, hrest⟩⟩

end Ledger.Accounts

theorem OutputCall.run_sim {N : Type} [AddressSpace N] {R : M → N → Prop} (hR : MemorySim True R)
    (call : OutputCall) : Sim True (SameParts (H := H) R) (SameParts R) call.run call.run := by
  have h := SameParts.machineSim (H := H) hR
  cases call with
  | write ch => exact h.writeCharacter ch
  | screen on table => exact h.outputStream _ table
  | openTable table => exact h.outputStream 3 table
  | closeTable table => exact h.outputStream 0xFFFD table

/-- The ledger before the first call. -/
def Ledger.blank (s : Machine M H) : Ledger where
  screenOff := s.core.streams.screenOff

theorem Ledger.accounts_blank {s : Machine Image H} (hnone : s.core.streams.tables = []) :
    (blank s).Accounts s s where
  host := rfl
  core := by
    have hstreams : (blank s).streams = s.core.streams := by
      simp only [streams, blank, List.map_nil]
      rw [← hnone]
    rw [hstreams]
  memory :=
    { size_eq := rfl
      count := fun _ ho => by cases ho
      text := fun _ ho => by cases ho
      other := fun _ _ _ => rfl }

/-- Output goes where the ledger says, as long as its openings fit: the host
gets the characters that were shown and nothing else, each opening stands in
memory and the rest of it is unchanged.  To close a table that is not there
changes nothing. -/
theorem output_follows_ledger {R : M → Image → Prop} (hR : MemorySim True R) {s : Machine M H}
    {image : Image} (hs : R s.memory image) (hnone : s.core.streams.tables = [])
    (calls : List OutputCall)
    (hfit : Fit ((Ledger.blank s).afterAll calls).openings image.bytes.size) :
    let l := (Ledger.blank s).afterAll calls
    let s' := stateAfter (calls.map OutputCall.run) s
    s'.host = stateAfter (l.shown.map (Machine.showCharacter s.core.window)) s.host ∧
      (∃ image', R s'.memory image' ∧ l.Records image image') ∧
      s'.core = { s.core with streams := l.streams } ∧
      (∀ answer ∈ outcomes (calls.map OutputCall.run) s, Reported H s.core.window answer) ∧
      ∀ (t : Machine M H) (table : UInt16), t.core.streams.tables = [] →
        (OutputCall.closeTable table).run t = .ok () t := by
  have hparts : SameParts R s (⟨image, s.host, s.core⟩ : Machine Image H) := ⟨hs, rfl, rfl⟩
  obtain ⟨houtcomes, hlast⟩ := Sim.calls (OutputCall.run_sim hR) calls hparts
  obtain ⟨⟨hhost, hcore, hmemory⟩, hanswers⟩ :=
    (Ledger.accounts_blank (s := ⟨image, s.host, s.core⟩) hnone).calls hfit
  refine ⟨hlast.host.trans hhost, ⟨_, hlast.memory, hmemory⟩, hlast.core.trans hcore, ?_, ?_⟩
  · rw [houtcomes]
    exact hanswers
  · exact fun t table ht => Machine.closeTable_none ht

/-- One table inside another, the screen deselected in between, and a table
closed that is not open. -/
def nestedOutput : List OutputCall :=
  [.write 65, .openTable 8, .write 66, .openTable 16, .write 67, .screen false 0, .closeTable 0,
    .write 68, .closeTable 0, .closeTable 0, .write 69, .screen true 0, .write 70]

def writer : Machine Image Transcript where
  memory := ⟨Array.replicate 24 0⟩
  host := {}
  core := .blank default {}

theorem output_follows_ledger_nested :
    let s' := stateAfter (nestedOutput.map OutputCall.run) writer
    Fit ((Ledger.blank writer).afterAll nestedOutput).openings writer.memory.bytes.size ∧
      s'.host.lower = #[65, 70] ∧ s'.memory.wordAt 8 = 2 ∧ s'.memory.byteAt 10 = 66 ∧
      s'.memory.byteAt 11 = 68 ∧ s'.memory.byteAt 12 = 0 ∧ s'.memory.wordAt 16 = 1 ∧
      s'.memory.byteAt 18 = 67 := by
  have hledger : (Ledger.blank writer).afterAll nestedOutput =
      ⟨false, [65, 70], [], [⟨8, [66, 68]⟩, ⟨16, [67]⟩]⟩ := rfl
  have hfit : Fit ((Ledger.blank writer).afterAll nestedOutput).openings
      writer.memory.bytes.size := by
    have hsize : writer.memory.bytes.size = 24 := rfl
    rw [hledger, hsize]
    constructor
    · simp only [Ledger.openings, List.nil_append, List.pairwise_cons, List.mem_singleton,
        forall_eq, Opening.Apart, Opening.Covers, Opening.start]
      simp
      omega
    · simp [Ledger.openings, Opening.start]
    · simp [Ledger.openings]
  have hmain := output_follows_ledger (R := Eq) MemorySim.refl rfl rfl nestedOutput hfit
  dsimp only at hmain ⊢
  rw [hledger] at hmain hfit ⊢
  generalize stateAfter (nestedOutput.map OutputCall.run) writer = s' at hmain ⊢
  obtain ⟨hhost, ⟨image', rfl, hrecords⟩, -⟩ := hmain
  have houter : (⟨8, [66, 68]⟩ : Opening) ∈ [⟨8, [66, 68]⟩, ⟨16, [67]⟩] := by decide
  have hinner : (⟨16, [67]⟩ : Opening) ∈ [⟨8, [66, 68]⟩, ⟨16, [67]⟩] := by decide
  have hbetween : s'.memory.byteAt 12 = writer.memory.byteAt 12 := by
    refine hrecords.other 12 ?_ fun _ ho => by cases ho
    simp [Opening.Covers, Opening.start]
  have hcount := hrecords.count _ houter
  have hcount' := hrecords.count _ hinner
  have hfirst := hrecords.text _ houter 0 66 rfl
  have hsecond := hrecords.text _ houter 1 68 rfl
  have honly := hrecords.text _ hinner 0 67 rfl
  simp only [Opening.start] at hfirst hsecond honly
  refine ⟨hfit, ?_, hcount, hfirst, hsecond, hbetween, hcount', honly⟩
  rw [hhost]
  rfl

end ZMachine
