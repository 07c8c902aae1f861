import ZMachine.Proofs.Simulation.Memory

/-!
# Memories that log their accesses

`Logged` stands in the place of a memory, passes every access on and keeps the
addresses of the bytes that were read and written.  What a computation does is
the same with the log as without, so the log tells which bytes the computation
itself looks at and changes, also where their values would not show it.
-/

namespace ZMachine

structure Logged (M : Type) where
  memory : M
  /-- Addresses of the bytes read, the latest first. -/
  reads : List Nat
  /-- Addresses of the bytes written, the latest first. -/
  writes : List Nat

namespace Logged

variable {M N α : Type}

/-- Pass a computation on and change the log, also if it fails. -/
def lift (log : Logged M → Logged M) (x : MemoryM M α) : MemoryM (Logged M) α := fun l =>
  match x l.memory with
  | .ok a memory => .ok a { log l with memory }
  | .error e memory => .error e { log l with memory }

theorem lift_ok (log : Logged M → Logged M) {x : MemoryM M α} {l : Logged M} {a : α} {memory : M}
    (h : x l.memory = .ok a memory) : lift log x l = .ok a { log l with memory } := by
  simp only [lift, h]

theorem exists_reached_lift (log : Logged M → Logged M) (x : MemoryM M α) (l : Logged M) :
    ∃ memory, reached (lift log x l) = { log l with memory } := by
  unfold lift
  split <;> exact ⟨_, rfl⟩

theorem lift_sim {strict : Prop} {R : M → N → Prop} (log : Logged M → Logged M)
    {x : MemoryM M α} {y : MemoryM N α} (h : Sim strict R R x y) :
    Sim strict (fun l n => R l.memory n) (fun l n => R l.memory n) (lift log x) y where
  ok {l _ n _} hl hx := by
    unfold lift at hx
    split at hx <;> cases hx
    next hx => exact h.ok hl hx
  error hstrict l _ n _ hl hx := by
    unfold lift at hx
    split at hx <;> cases hx
    next hx => exact h.error hstrict hl hx

/-- The log has grown by some reads and writes. -/
structure Grown (l l' : Logged M) (reads writes : List Nat) : Prop where
  reads_eq : l'.reads = reads ++ l.reads
  writes_eq : l'.writes = writes ++ l.writes

theorem Grown.trans {l l₁ l₂ : Logged M} {reads writes reads₁ writes₁ : List Nat}
    (h : Grown l l₁ reads writes) (h₁ : Grown l₁ l₂ reads₁ writes₁) :
    Grown l l₂ (reads₁ ++ reads) (writes₁ ++ writes) where
  reads_eq := by rw [h₁.reads_eq, h.reads_eq, List.append_assoc]
  writes_eq := by rw [h₁.writes_eq, h.writes_eq, List.append_assoc]

variable [AddressSpace M] [AddressSpace N]

def readByte (address : Nat) : MemoryM (Logged M) UInt8 :=
  lift (fun l => { l with reads := address :: l.reads }) (AddressSpace.readByte address)

def writeByte (address : Nat) (value : UInt8) : MemoryM (Logged M) Unit :=
  lift (fun l => { l with writes := address :: l.writes }) (AddressSpace.writeByte address value)

instance : AddressSpace (Logged M) where
  size l := AddressSpace.size l.memory
  readByte := readByte
  writeByte := writeByte
  flush := lift id AddressSpace.flush

/-- A log hides nothing of the memory behind it. -/
theorem memorySim {strict : Prop} {R : M → N → Prop} (hR : MemorySim strict R) :
    MemorySim strict fun (l : Logged M) n => R l.memory n where
  size_eq l n := hR.size_eq l.memory n
  readByte address := lift_sim _ (hR.readByte address)
  writeByte address value := lift_sim _ (hR.writeByte address value)
  flush := lift_sim _ hR.flush

variable {l : Logged M} {m : M} {a : Nat}

theorem readByte_ok {b : UInt8} (h : AddressSpace.readByte a l.memory = .ok b m) :
    Memory.readByte a l = .ok b { l with memory := m, reads := a :: l.reads } :=
  lift_ok (fun l => { l with reads := a :: l.reads }) h

theorem writeByte_ok {b : UInt8} (h : AddressSpace.writeByte a b l.memory = .ok () m) :
    Memory.writeByte a b l = .ok () { l with memory := m, writes := a :: l.writes } :=
  lift_ok (fun l => { l with writes := a :: l.writes }) h

theorem readWord_ok {w : UInt16} (h : Memory.readWord a l.memory = .ok w m) :
    Memory.readWord a l = .ok w { l with memory := m, reads := (a + 1) :: a :: l.reads } := by
  obtain ⟨high, m₁, hhigh, hrest⟩ := bind_eq_ok_iff.mp h
  obtain ⟨low, m₂, hlow, hpure⟩ := bind_eq_ok_iff.mp hrest
  cases hpure
  rw [Memory.readWord, bind_ok (readByte_ok hhigh), bind_ok (readByte_ok hlow)]
  rfl

theorem writeWord_ok {w : UInt16} (h : Memory.writeWord a w l.memory = .ok () m) :
    Memory.writeWord a w l =
      .ok () { l with memory := m, writes := (a + 1) :: a :: l.writes } := by
  obtain ⟨_, m₁, hhigh, hlow⟩ := bind_eq_ok_iff.mp h
  rw [Memory.writeWord, bind_ok (writeByte_ok hhigh), writeByte_ok hlow]

/-! ## Accesses that may fail -/

theorem grown_readByte (a : Nat) (l : Logged M) :
    Grown l (reached (Memory.readByte a l)) [a] [] := by
  obtain ⟨memory, h⟩ := exists_reached_lift (fun l => { l with reads := a :: l.reads })
    (AddressSpace.readByte a) l
  change reached (Memory.readByte a l) = _ at h
  rw [h]
  exact ⟨rfl, rfl⟩

theorem grown_writeByte (a : Nat) (b : UInt8) (l : Logged M) :
    Grown l (reached (Memory.writeByte a b l)) [] [a] := by
  obtain ⟨memory, h⟩ := exists_reached_lift (fun l => { l with writes := a :: l.writes })
    (AddressSpace.writeByte a b) l
  change reached (Memory.writeByte a b l) = _ at h
  rw [h]
  exact ⟨rfl, rfl⟩

/-- The second byte of a word is read only if the first one was. -/
theorem grown_readWord (a : Nat) (l : Logged M) :
    Grown l (reached (Memory.readWord a l)) [a] [] ∨
      Grown l (reached (Memory.readWord a l)) [a + 1, a] [] := by
  have hfirst := grown_readByte a l
  unfold Memory.readWord
  cases hhigh : Memory.readByte a l with
  | error e l₁ =>
      rw [hhigh] at hfirst
      rw [bind_error hhigh]
      exact .inl hfirst
  | ok high l₁ =>
      rw [hhigh] at hfirst
      rw [bind_ok hhigh]
      have hboth := hfirst.trans (grown_readByte (a + 1) l₁)
      right
      cases hlow : Memory.readByte (a + 1) l₁ with
      | error e l₂ =>
          rw [hlow] at hboth
          rw [bind_error hlow]
          exact hboth
      | ok low l₂ =>
          rw [hlow] at hboth
          rw [bind_ok hlow]
          exact hboth

theorem grown_writeWord (a : Nat) (w : UInt16) (l : Logged M) :
    Grown l (reached (Memory.writeWord a w l)) [] [a] ∨
      Grown l (reached (Memory.writeWord a w l)) [] [a + 1, a] := by
  have hfirst := grown_writeByte a (highByte w) l
  unfold Memory.writeWord
  cases hhigh : Memory.writeByte a (highByte w) l with
  | error e l₁ =>
      rw [hhigh] at hfirst
      rw [bind_error hhigh]
      exact .inl hfirst
  | ok _ l₁ =>
      rw [hhigh] at hfirst
      rw [bind_ok hhigh]
      exact .inr (hfirst.trans (grown_writeByte (a + 1) (lowByte w) l₁))

end Logged
end ZMachine
