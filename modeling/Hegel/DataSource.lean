/-
The data source: a test case as the callers outside of the engine see it.  A
refused draw ends the test case for its callers, and the calls after it fail
without doing anything.
-/
import Hegel.StateMachine

namespace Hegel

/-- What the callers of a data source are told. -/
inductive DataSourceError where
  | stopTest
  | assume
  | invalidArgument (message : String)
  | internal (error : MachineError)

/-- Why a call did not succeed: a draw failed, or the call turned the test
case down. -/
inductive CallError where
  | assumeViolation
  | draw (error : MachineError)

namespace CallError

/-- Whether the test case is over after the error. -/
def aborts : CallError → Bool
  | .draw (.engine _) => true
  | _ => false

def told : CallError → DataSourceError
  | .assumeViolation => .assume
  | .draw (.engine .overrun) => .stopTest
  | .draw (.engine .invalidTestCase) => .assume
  | .draw (.invalidArgument message) => .invalidArgument message
  | .draw error => .internal error

end CallError

/-- A test case as its callers see it. -/
structure NativeDataSource (Rng : Type) where
  inner : Source Rng
  aborted : Bool

section Calls

variable {Rng : Type}

namespace NativeDataSource

def abortedError (data : NativeDataSource Rng) : DataSourceError :=
  if data.inner.family.status = some .invalid then .assume else .stopTest

/-- Run a call that also has a state of its own; nothing runs after a draw was
refused. -/
def withNtc {Own Value : Type}
    (call : Attempt (Own × Source Rng) CallError Value) :
    Attempt (Own × NativeDataSource Rng) DataSourceError Value :=
  fun (own, data) =>
    if data.aborted then (.error data.abortedError, own, data)
    else
      match call (own, data.inner) with
      | (.ok value, own, inner) => (.ok value, own, ⟨inner, false⟩)
      | (.error error, own, inner) =>
          (.error error.told, own, ⟨inner, error.aborts⟩)

/-- A draw made for something that has a state of its own. -/
def drawing {Own Value : Type}
    (attempt : Attempt (Source Rng) MachineError Value) :
    Attempt (Own × Source Rng) CallError Value :=
  fun (own, source) =>
    match attempt source with
    | (.ok value, source) => (.ok value, own, source)
    | (.error error, source) => (.error (.draw error), own, source)

/-- A test case that makes the simplest choices, as many as it may. -/
def simplestData (maxSize : Nat) : NativeDataSource Unit :=
  ⟨⟨.new 8, ⟨.new [], ⟨[], none, none, maxSize, some ⟨.simplest, none⟩⟩⟩⟩, false⟩

end NativeDataSource

end Calls

end Hegel
