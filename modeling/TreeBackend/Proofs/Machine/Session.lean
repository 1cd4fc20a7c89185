import TreeBackend.Machine.Execution
import TreeBackend.Proofs.Outcome

/-!
# Sessions with a machine

A machine may be asked to run one function after the other.  Nothing is reset in between.
-/

namespace TreeBackend.Machine

/-- What may happen to a machine between two calls and in them: a call ends with a
result or in an error, what is printed goes elsewhere, a word of memory changes. -/
inductive Session (machine : Machine) : Machine → Prop where
  | start : Session machine machine
  | call {later final : Machine} {fuel : Nat} {entry : Label} {result : Int} :
      Session machine later → interpret fuel entry later = .ok result final →
      Session machine final
  | failedCall {later final : Machine} {fuel : Nat} {entry : Label} {reason : Interruption} :
      Session machine later → interpret fuel entry later = .error reason final →
      Session machine final
  | redirect {later : Machine} (sink : Sink) :
      Session machine later → Session machine { later with output := some sink }
  | overwrite {later : Machine} (address : Int) (value : Value) :
      Session machine later → Session machine (later.writeWord address value)

/-- The machine after calls one after the other, whether they succeed or not.  Each of them has a
number of statements to run, and the label of its function. -/
def afterCalls (machine : Machine) (calls : List (Nat × Label)) : Machine :=
  calls.foldl (fun later call => Outcome.state (interpret call.1 call.2 later)) machine

end TreeBackend.Machine
