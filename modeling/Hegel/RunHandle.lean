/-
A run as the callers of the library drive it.  The engine is suspended at every
test case that it offers, and resumed by asking for the next one.  Calls on the
handles of a test case hold the handle's lock while they are under way, so that
calls of several threads come in any order and overlap.
-/
import Hegel.Reassembly
import Hegel.Shrinker

namespace Hegel

section Results

/-- The code that a call returns. -/
inductive HegelResult where
  | ok
  | stopTest
  | assume
  | invalidHandle
  | invalidArg
  | alreadyComplete
  | notComplete
  | internal
  | concurrentUse
deriving DecidableEq

/-- What a call returns, and the diagnostic that it leaves. -/
structure CallResult where
  code : HegelResult
  message : Option String
deriving DecidableEq

def CallResult.ok : CallResult := ⟨.ok, none⟩

/-- One failure of a run, with the blob that reproduces it. -/
structure HegelFailure where
  origin : String
  reproduceBlob : Option String

/-- How an exploration ends. -/
structure RunReport where
  failures : List HegelFailure
  nondeterministic : Bool

abbrev RunVerdict := Except RunError RunReport

structure HegelRunResult where
  failures : List HegelFailure
  error : Option RunError
  nondeterministic : Bool

/-- Replace what cannot be in a C string. -/
def cstringLossy (s : String) : String :=
  s.map fun c => if c = Char.ofNat 0 then Char.ofNat 0xFFFD else c

def HegelFailure.ofFailure (failure : HegelFailure) : HegelFailure :=
  ⟨cstringLossy failure.origin, failure.reproduceBlob.map cstringLossy⟩

namespace HegelRunResult

def fromError (error : RunError) : HegelRunResult :=
  ⟨[], some error, false⟩

def ofVerdict : RunVerdict → HegelRunResult
  | .ok report =>
      ⟨report.failures.map HegelFailure.ofFailure, none,
        report.nondeterministic⟩
  | .error error => fromError error

end HegelRunResult

inductive HegelRunStatus where
  | passed
  | failed
  | error
  | failedNondeterministic
deriving DecidableEq

def HegelRunResult.status (result : HegelRunResult) : HegelRunStatus :=
  if result.error.isSome then .error
  else if result.failures.isEmpty then .passed
  else if result.nondeterministic then .failedNondeterministic
  else .failed

/-- The outcome a caller reports.  An origin may be missing, and it may not be
valid UTF-8. -/
def reportedOutcome (status : Nat) (origin : Option (Option String)) :
    Except CallResult Outcome :=
  if status = 0 then .ok (.valid, none)
  else if status = 1 then .ok (.invalid, none)
  else if status = 2 then .ok (.earlyStop, none)
  else if status = 3 then
    match origin with
    | none => .ok (.interesting, some "Panic at <unknown>")
    | some (some origin) => .ok (.interesting, some origin)
    | some none => .error ⟨.invalidArg,
        some "hegel_mark_complete: origin is not valid UTF-8"⟩
  else .error ⟨.invalidArg,
    some ("hegel_mark_complete: unknown status " ++ toString status)⟩

end Results

section Handles

/-- State shared by every handle of a test case. -/
structure FamilyShared where
  ds : Nat
  completed : Bool
deriving DecidableEq

/-- What is being done under the lock of a handle. -/
inductive HandleLock where
  | free
  /-- A call on the test case, with its result so far. -/
  | operating (result : CallResult) (out : Option Nat)
  /-- A completion that has won and is about to be recorded. -/
  | completing (outcome : Outcome)

structure HegelTestCase where
  family : Nat
  stream : Nat
  aborted : Bool
  completed : Bool
  lock : HandleLock
  freed : Bool

/-- A new handle onto a stream of a family. -/
def HegelTestCase.onStream (family stream : Nat) : HegelTestCase :=
  ⟨family, stream, false, false, .free, false⟩

/-- The suspended engine: the outcomes that it has read, and the test case it
is waiting for. -/
structure EngineFuture where
  replies : List (Option RunResult)
  awaiting : Option Nat

structure HegelRun where
  engine : Option EngineFuture
  currentFamily : Option Nat
  result : Option HegelRunResult

/-- A test case that an engine offers. -/
structure CaseOffer (Rng : Type) where
  input : StreamInput Rng
  budget : Nat

def CaseOffer.start {Rng : Type} (offer : CaseOffer Rng) :
    TestCaseFamily Rng :=
  .start offer.input offer.budget

/-- An engine goes on by what it has read; the outcome of a test case that was
not concluded is missing. -/
abbrev EngineClient (Rng : Type) :=
  Client (CaseOffer Rng) (Option RunResult) RunVerdict

/-- An engine ends its run as soon as an outcome is missing. -/
def EngineClient.GivesUp {Rng : Type} (client : EngineClient Rng) : Prop :=
  ∀ replies, client (replies ++ [none]) = .stop (.error .usageError)

/-- Everything behind the interface: the test cases, the slot in which one is
handed over, the handles, and the run until it is freed.  The outcomes recorded
for test cases are kept for observers. -/
structure Libhegel (Rng : Type) where
  sources : List (TestCaseFamily Rng)
  slot : Option Nat
  families : List FamilyShared
  handles : List HegelTestCase
  run : Option HegelRun
  marked : List (Nat × Outcome)

end Handles

namespace Libhegel

variable {Rng : Type}

/-- A run that was set up. -/
def start : Libhegel Rng where
  sources := []
  slot := none
  families := []
  handles := []
  run := some ⟨some ⟨[], none⟩, none, none⟩
  marked := []

section Parts

variable (lib : Libhegel Rng)

/-- A handle that is still there: none is used after it was freed. -/
def handle (h : Nat) : Option HegelTestCase :=
  lib.handles[h]?.filter fun tc => !tc.freed

def setHandle (h : Nat) (tc : HegelTestCase) : Libhegel Rng :=
  { lib with handles := lib.handles.set h tc }

def setLock (h : Nat) (tc : HegelTestCase) (lock : HandleLock) :
    Libhegel Rng :=
  lib.setHandle h { tc with lock := lock }

def setSource (ds : Nat) (source : TestCaseFamily Rng) : Libhegel Rng :=
  { lib with sources := lib.sources.set ds source }

/-- The first completion of a family takes its place. -/
def claimFamily (family : Nat) : Libhegel Rng :=
  { lib with families := lib.families.modify family fun shared =>
      { shared with completed := true } }

/-- Record an outcome with the test case. -/
def markSource (ds : Nat) (outcome : Outcome) : Libhegel Rng :=
  { lib with
    sources := lib.sources.modify ds fun source => source.markComplete outcome
    marked := lib.marked ++ [(ds, outcome)] }

/-- The result of a finished run. -/
def runResult (run : HegelRun) : Except CallResult HegelRunResult :=
  match run.result with
  | some result => .ok result
  | none => .error ⟨.notComplete,
      some "hegel_run_result: run has not finished yet"⟩

end Parts

/-- How far an action has come: a call has returned, maybe with a new handle,
or it is under way. -/
inductive Progress where
  | returned (result : CallResult) (out : Option Nat)
  | underway

section Calls

variable (lib : Libhegel Rng)

/-- Begin a call on a test case. -/
def tcGuard (fnName : String) (tc : Option Nat) :
    Option (Progress × Libhegel Rng) :=
  match tc with
  | none => some (.returned ⟨.invalidHandle,
      some (fnName ++ ": test case pointer is null")⟩ none, lib)
  | some h => do
      let tc ← lib.handle h
      let family ← lib.families[tc.family]?
      if family.completed then
        return (.returned ⟨.alreadyComplete,
          some (fnName ++ ": test case is already complete")⟩ none, lib)
      else
        match tc.lock with
        | .free => return (.underway, lib.setLock h tc (.operating .ok none))
        | _ => return (.returned ⟨.concurrentUse, some (fnName ++
            ": test case handle is in use on another thread")⟩ none, lib)

/-- An operation that a handle makes on its stream. -/
inductive HandleOp where
  | draw (op : DrawOp)
  | cloneStream
  | startSpan (label : Nat)
  | stopSpan (discard : Bool)

def HandleOp.streamOp : HandleOp → StreamOp
  | .draw op => .draw op
  | .cloneStream => .cloneStream
  | .startSpan label => .record (.startSpan label)
  | .stopSpan discard => .record (.stopSpan discard)

/-- What callers are told about a refused draw. -/
def refusedResult : EngineError → CallResult
  | .overrun => ⟨.stopTest, none⟩
  | .invalidTestCase => ⟨.assume, none⟩

/-- What callers are told once their stream has been refused a draw. -/
def abortedResult (source : TestCaseFamily Rng) : CallResult :=
  if source.family.status = some .invalid then ⟨.assume, none⟩
  else ⟨.stopTest, none⟩

/-- Take over the reply to an operation of a handle. -/
def settle (h : Nat) (tc : HegelTestCase) : StreamReply → Libhegel Rng
  | .refused error =>
      lib.setHandle h { tc with
        aborted := true, lock := .operating (refusedResult error) none }
  | .cloned stream =>
      { lib.setLock h tc (.operating .ok (some lib.handles.length)) with
        handles := (lib.setLock h tc
          (.operating .ok (some lib.handles.length))).handles ++
            [.onStream tc.family stream] }
  | _ => lib.setLock h tc (.operating .ok none)

/-- Make an operation on the stream of a handle, within a call. -/
def perform (sampler : Sampler Rng) (h : Nat) (op : HandleOp) :
    Option (Progress × Libhegel Rng) := do
  let tc ← lib.handle h
  let family ← lib.families[tc.family]?
  let source ← lib.sources[family.ds]?
  match tc.lock with
  | .operating _ _ =>
      if tc.aborted then
        return (.underway,
          lib.setLock h tc (.operating (abortedResult source) none))
      else
        match step sampler source ⟨tc.stream, op.streamOp⟩ with
        | .error error => return (.underway, lib.setLock h tc
            (.operating ⟨.internal, some error.message⟩ none))
        | .ok (reply, source) =>
            return (.underway, (lib.setSource family.ds source).settle h tc reply)
  | _ => none

/-- Return from a call on a test case. -/
def leave (h : Nat) : Option (Progress × Libhegel Rng) := do
  let tc ← lib.handle h
  match tc.lock with
  | .operating result out =>
      return (.returned result out, lib.setLock h tc .free)
  | _ => none

/-- Complete a test case, up to the point where the first completion of the
family is found out.  A call that is under way on the handle is waited for. -/
def claim (tc : Option Nat) (status : Nat) (origin : Option (Option String)) :
    Option (Progress × Libhegel Rng) :=
  match tc with
  | none => some (.returned ⟨.invalidHandle,
      some "hegel_mark_complete: test case pointer is null"⟩ none, lib)
  | some h => do
      let tc ← lib.handle h
      let family ← lib.families[tc.family]?
      match tc.lock with
      | .free =>
          if tc.completed then
            return (.returned ⟨.alreadyComplete, none⟩ none, lib)
          else
            match reportedOutcome status origin with
            | .error result => return (.returned result none, lib)
            | .ok outcome =>
                if family.completed then
                  return (.returned .ok none,
                    lib.setHandle h { tc with completed := true })
                else
                  return (.underway, (lib.claimFamily tc.family).setHandle h
                    { tc with completed := true, lock := .completing outcome })
      | _ => none

/-- The first completion of a family records its outcome and returns. -/
def record (h : Nat) : Option (Progress × Libhegel Rng) := do
  let tc ← lib.handle h
  let family ← lib.families[tc.family]?
  match tc.lock with
  | .completing outcome =>
      return (.returned .ok none,
        (lib.markSource family.ds outcome).setLock h tc .free)
  | _ => none

/-- Free a handle on which no call is under way.  Its test case stays as it
is. -/
def freeTestCase (tc : Option Nat) : Option (Progress × Libhegel Rng) :=
  match tc with
  | none => some (.returned .ok none, lib)
  | some h => do
      let tc ← lib.handle h
      match tc.lock with
      | .free =>
          return (.returned .ok none, lib.setHandle h { tc with freed := true })
      | _ => none

end Calls

section Engine

variable (client : EngineClient Rng) (lib : Libhegel Rng)

/-- What an engine reads of the test case that it has waited for. -/
def readReplies (future : EngineFuture) : List (Option RunResult) :=
  match future.awaiting with
  | none => future.replies
  | some ds => future.replies ++ [lib.sources[ds]?.bind takeRun]

/-- Reading a test case puts its streams together. -/
def readSources (future : EngineFuture) : List (TestCaseFamily Rng) :=
  match future.awaiting with
  | none => lib.sources
  | some ds => lib.sources.modify ds fun source => source.reassemble 0

/-- Resume the engine until it offers a test case or finishes. -/
def pollEngine (future : EngineFuture) :
    Except RunVerdict EngineFuture × Libhegel Rng :=
  let replies := lib.readReplies future
  let sources := lib.readSources future
  match client replies with
  | .stop verdict => (.error verdict, { lib with sources := sources })
  | .request offer =>
      (.ok ⟨replies, some sources.length⟩,
        { lib with
          sources := sources ++ [offer.start]
          slot := some sources.length })

/-- The engine is done, and the run has its result. -/
def finish (result : HegelRunResult) : Libhegel Rng :=
  { lib with run := some ⟨none, none, some result⟩ }

/-- Hand out the test case that the engine has left in the slot. -/
def handOut (future : EngineFuture) : Progress × Libhegel Rng :=
  match lib.slot with
  | some ds =>
      (.returned .ok (some lib.handles.length),
        { lib with
          slot := none
          families := lib.families ++ [⟨ds, false⟩]
          handles := lib.handles ++ [.onStream lib.families.length 0]
          run := some ⟨some future, some lib.families.length, none⟩ })
  | none =>
      (.returned .ok none, lib.finish (.fromError (.internal
        ⟨"the engine suspended without offering a test case"⟩)))

/-- Whether the test case that was handed out last may still go on. -/
def inFlight (run : HegelRun) : Bool :=
  match run.currentFamily with
  | none => false
  | some family => lib.families[family]?.any fun shared => !shared.completed

/-- Ask for the next test case. -/
def nextTestCase : Option (Progress × Libhegel Rng) := do
  let run ← lib.run
  if lib.inFlight run then
    return (.returned ⟨.notComplete,
      some ("hegel_next_test_case: previous test case was not marked " ++
        "complete (call hegel_mark_complete before requesting the next " ++
        "case)")⟩ none, lib)
  else
    match run.engine with
    | none => return (.returned .ok none,
        { lib with run := some { run with currentFamily := none } })
    | some future =>
        match lib.pollEngine client future with
        | (.error verdict, lib) =>
            return (.returned .ok none, lib.finish (.ofVerdict verdict))
        | (.ok future, lib) => return lib.handOut future

/-- Complete a family with an outcome, unless that has been done. -/
def completeFamily (family : Nat) (outcome : Outcome) : Libhegel Rng :=
  match lib.families[family]? with
  | some shared =>
      if shared.completed then lib
      else (lib.claimFamily family).markSource shared.ds outcome
  | none => lib

/-- Free the run; a test case that is in flight is completed. -/
def freeRun : Option (Progress × Libhegel Rng) := do
  let run ← lib.run
  let lib := match run.currentFamily with
    | some family => lib.completeFamily family (.valid, none)
    | none => lib
  return (.returned .ok none, { lib with run := none })

end Engine

/-- The actions that the calls of all threads are made of. -/
inductive LibCall where
  | enter (fnName : String) (tc : Option Nat)
  | perform (h : Nat) (op : HandleOp)
  | leave (h : Nat)
  | claim (tc : Option Nat) (status : Nat) (origin : Option (Option String))
  | record (h : Nat)
  | freeTestCase (tc : Option Nat)
  | nextTestCase
  | freeRun

/-- Perform an action, if it is possible now. -/
def act (sampler : Sampler Rng) (client : EngineClient Rng)
    (lib : Libhegel Rng) : LibCall → Option (Progress × Libhegel Rng)
  | .enter fnName tc => lib.tcGuard fnName tc
  | .perform h op => lib.perform sampler h op
  | .leave h => lib.leave h
  | .claim tc status origin => lib.claim tc status origin
  | .record h => lib.record h
  | .freeTestCase tc => lib.freeTestCase tc
  | .nextTestCase => lib.nextTestCase client
  | .freeRun => lib.freeRun

/-- One action of some thread. -/
def Step (sampler : Sampler Rng) (client : EngineClient Rng)
    (lib lib' : Libhegel Rng) : Prop :=
  ∃ call progress, lib.act sampler client call = some (progress, lib')

/-- The test case that a run waits for has a handle that was not freed. -/
def Remains (lib : Libhegel Rng) (run : HegelRun) : Prop :=
  ∃ h tc, lib.handle h = some tc ∧ run.currentFamily = some tc.family

/-- Any number of actions of any threads, in any order. -/
abbrev Reaches (sampler : Sampler Rng) (client : EngineClient Rng) :
    Libhegel Rng → Libhegel Rng → Prop :=
  Relation.ReflTransGen (Step sampler client)

end Libhegel

end Hegel
