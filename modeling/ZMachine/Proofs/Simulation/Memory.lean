import ZMachine.Memory
import ZMachine.Proofs.Simulation

/-!
# Simulation between memories

Everything that a story does with its memory is made of byte accesses.  So a
relation between two memories that byte accesses respect is respected by all
of it.  `MemorySim` is what has to be shown of the two memories, and
`Parametric` is what follows for a computation, whatever the relation is.
-/

namespace ZMachine

variable {M N : Type} [AddressSpace M] [AddressSpace N]

/-- The byte interface respects a relation between memories. -/
structure MemorySim (strict : Prop) (R : M → N → Prop) : Prop where
  size_eq : ∀ m n, R m n → AddressSpace.size m = AddressSpace.size n
  readByte : ∀ address,
    Sim strict R R (AddressSpace.readByte (M := M) address) (AddressSpace.readByte address)
  writeByte : ∀ address value,
    Sim strict R R (AddressSpace.writeByte (M := M) address value)
      (AddressSpace.writeByte address value)
  flush : Sim strict R R (AddressSpace.flush (M := M)) AddressSpace.flush

/-- A memory beside itself. -/
theorem MemorySim.refl : MemorySim True fun m n : M => m = n where
  size_eq _ _ h := by rw [h]
  readByte address := ⟨fun h hx => ⟨_, h ▸ hx, rfl⟩, fun _ _ _ _ _ h hx => ⟨_, h ▸ hx, rfl⟩⟩
  writeByte address value := ⟨fun h hx => ⟨_, h ▸ hx, rfl⟩, fun _ _ _ _ _ h hx => ⟨_, h ▸ hx, rfl⟩⟩
  flush := ⟨fun h hx => ⟨_, h ▸ hx, rfl⟩, fun _ _ _ _ _ h hx => ⟨_, h ▸ hx, rfl⟩⟩

/-- Two computations that respect every relation which byte accesses
respect. -/
def Parametric {α : Type} (x : MemoryM M α) (y : MemoryM N α) : Prop :=
  ∀ (strict : Prop) (R : M → N → Prop), MemorySim strict R → Sim strict R R x y

namespace Parametric

variable {α β : Type}

theorem pure (a : α) : Parametric (Pure.pure a : MemoryM M α) (Pure.pure a : MemoryM N α) :=
  fun _ _ _ => .pure a

theorem throw (e : Fault) :
    Parametric (MonadExcept.throw e : MemoryM M α) (MonadExcept.throw e : MemoryM N α) :=
  fun _ _ _ => .throw e

theorem bind {x : MemoryM M α} {y : MemoryM N α}
    {f : α → MemoryM M β} {g : α → MemoryM N β}
    (hxy : Parametric x y) (hfg : ∀ a, Parametric (f a) (g a)) :
    Parametric (x >>= f) (y >>= g) :=
  fun strict R h => .bind (hxy strict R h) fun a => hfg a strict R h

theorem map {x : MemoryM M α} {y : MemoryM N α} (f : α → β) (h : Parametric x y) :
    Parametric (f <$> x) (f <$> y) :=
  fun strict R hR => (h strict R hR).map f

theorem ite {c : Prop} [Decidable c] {x x' : MemoryM M α} {y y' : MemoryM N α}
    (hthen : c → Parametric x y) (helse : ¬ c → Parametric x' y') :
    Parametric (if c then x else x') (if c then y else y') :=
  fun strict R h => .ite (fun hc => hthen hc strict R h) (fun hc => helse hc strict R h)

theorem iteBind {c : Prop} [Decidable c] {x x' : MemoryM M α} {y y' : MemoryM N α}
    {f : α → MemoryM M β} {g : α → MemoryM N β}
    (hthen : c → Parametric x y) (helse : ¬ c → Parametric x' y')
    (hfg : ∀ a, Parametric (f a) (g a)) :
    Parametric (if c then x >>= f else x' >>= f) (if c then y >>= g else y' >>= g) :=
  .ite (fun hc => .bind (hthen hc) hfg) (fun hc => .bind (helse hc) hfg)

theorem whenBind {c : Prop} [Decidable c] {x : MemoryM M Unit} {y : MemoryM N Unit}
    {f : Unit → MemoryM M β} {g : Unit → MemoryM N β}
    (hxy : c → Parametric x y) (hfg : ∀ a, Parametric (f a) (g a)) :
    Parametric (if c then x >>= f else f ()) (if c then y >>= g else g ()) :=
  .ite (fun hc => .bind (hxy hc) hfg) (fun _ => hfg ())

theorem size : Parametric (Memory.size (M := M)) (Memory.size (M := N)) :=
  fun _ _ h => .look h.size_eq

theorem readByte (address : Nat) :
    Parametric (Memory.readByte (M := M) address) (Memory.readByte (M := N) address) :=
  fun _ _ h => h.readByte address

theorem writeByte (address : Nat) (value : UInt8) :
    Parametric (Memory.writeByte (M := M) address value)
      (Memory.writeByte (M := N) address value) :=
  fun _ _ h => h.writeByte address value

theorem flush : Parametric (AddressSpace.flush (M := M)) (AddressSpace.flush (M := N)) :=
  fun _ _ h => h.flush

theorem readWord (address : Nat) :
    Parametric (Memory.readWord (M := M) address) (Memory.readWord (M := N) address) :=
  .bind (readByte address) fun _ => .bind (readByte (address + 1)) fun _ => .pure _

theorem writeWord (address : Nat) (value : UInt16) :
    Parametric (Memory.writeWord (M := M) address value)
      (Memory.writeWord (M := N) address value) :=
  .bind (writeByte address _) fun _ => writeByte (address + 1) _

theorem readBytesOnto (found : List UInt8) (address count : Nat) :
    Parametric (Memory.readBytesOnto (M := M) found address count)
      (Memory.readBytesOnto (M := N) found address count) := by
  induction count generalizing found address with
  | zero => exact .pure _
  | succ count ih => exact .bind (readByte address) fun b => ih (b :: found) (address + 1)

theorem readBytes (address count : Nat) :
    Parametric (Memory.readBytes (M := M) address count)
      (Memory.readBytes (M := N) address count) :=
  readBytesOnto [] address count

theorem readToZeroOnto (fuel : Nat) (found : List UInt8) (address : Nat) :
    Parametric (Memory.readToZeroOnto (M := M) fuel found address)
      (Memory.readToZeroOnto (M := N) fuel found address) := by
  induction fuel generalizing found address with
  | zero => exact .bind size fun _ => .throw _
  | succ fuel ih =>
      exact .bind (readByte address) fun b =>
        .ite (fun _ => .pure _) fun _ => ih (b :: found) (address + 1)

theorem readToZero (address : Nat) :
    Parametric (Memory.readToZero (M := M) address) (Memory.readToZero (M := N) address) :=
  .bind size fun n => readToZeroOnto (n + 1) [] address

theorem writeBytes (address : Nat) (bytes : List UInt8) :
    Parametric (Memory.writeBytes (M := M) address bytes)
      (Memory.writeBytes (M := N) address bytes) := by
  induction bytes generalizing address with
  | nil => exact .pure ()
  | cons b bytes ih => exact .bind (writeByte address b) fun _ => ih (address + 1)

end Parametric

/-! ## Calls as data -/

namespace Memory

inductive Call where
  | readByte (address : Nat)
  | writeByte (address : Nat) (value : UInt8)
  | readWord (address : Nat)
  | writeWord (address : Nat) (value : UInt16)
  | flush
  deriving DecidableEq, Repr

inductive Answer where
  | byte (value : UInt8)
  | word (value : UInt16)
  | done
  deriving DecidableEq, Repr

def Call.perform : Call → MemoryM M Answer
  | readByte address => return .byte (← Memory.readByte address)
  | writeByte address value => do Memory.writeByte address value; return .done
  | readWord address => return .word (← Memory.readWord address)
  | writeWord address value => do Memory.writeWord address value; return .done
  | flush => do AddressSpace.flush; return .done

end Memory

theorem Parametric.perform (call : Memory.Call) :
    Parametric (call.perform : MemoryM M _) (call.perform : MemoryM N _) := by
  cases call with
  | readByte address => exact .bind (.readByte address) fun _ => .pure _
  | writeByte address value => exact .bind (.writeByte address value) fun _ => .pure _
  | readWord address => exact .bind (.readWord address) fun _ => .pure _
  | writeWord address value => exact .bind (.writeWord address value) fun _ => .pure _
  | flush => exact .bind .flush fun _ => .pure _

end ZMachine
