import ZMachine.Interpreter

/-!
# Sessions

Playing a story from its start to its end on a host.
-/

namespace ZMachine.Session

variable {M H : Type} [AddressSpace M] [Host H]

/-- Close the machine after a run.  A fault while closing is the one that
counts. -/
def closing (result : Except Fault Unit) (m : Machine M H) : Except Fault Unit × H :=
  match (Machine.close : MachineM M H Unit) m with
  | .error e m => (.error e, m.host)
  | .ok _ m => (result, m.host)

/-- Play the story in a memory.  The machine is closed also after a fault,
unless that stops the program.  The host shows what was written until then. -/
def play (fuel : Nat) (settings : Settings) (entropy : Entropy) (memory : M) (host : H) :
    Except Fault Unit × H :=
  match Machine.load settings entropy host memory with
  | .error e => (.error e, host)
  | .ok m =>
    match (do Machine.initializeScreen; Machine.restart : MachineM M H Unit) m with
    | .error e m => (.error e, m.host)
    | .ok _ m =>
      match Machine.interpret fuel m with
      | .error .registerUnderflow m => (.error .registerUnderflow, m.host)
      | .error e m => closing (.error e) m
      | .ok _ m => closing (.ok ()) m

end ZMachine.Session
