/-
The engine of a run.  Every execution of the test body is recorded: in the kind
ledger and the execution cache, in the counters, in the database, and in the
map from failure origins to their smallest examples.  A replay is served from
the cache when the same values were executed before.
-/
import Hegel.Streams
import Hegel.Persistence
import Hegel.Shrinker

namespace Hegel

/-- What a run is given: the body under test, cut off after a number of
actions, the random distributions, and the sizes that cached entries are
charged for. -/
structure EngineSetup (Rng : Type) where
  layout : Layout
  sampler : Sampler Rng
  body : Body
  fuel : Nat

abbrev InterestingMap := AList fun _ : String => List ChoiceNode

/-- The engine's state.  The operations emitted to the database and the
executed runs are kept for observers. -/
structure Engine (Rng : Type) where
  databaseKey : Option Bytes
  rng : Rng
  persister : Persister
  execCache : ExecCache
  kindLedger : KindLedger
  consecutiveDuplicates : Nat
  interesting : InterestingMap
  collectStatistics : Bool
  calls : Nat
  validTestCases : Nat
  invalidTestCases : Nat
  overrunTestCases : Nat
  testIsTrivial : Bool
  firstBugAt : Option Nat
  lastBugAt : Option Nat
  nondeterministic : Bool
  emitted : List DatabaseOp
  executed : List RunResult

/-- Insert an origin's first example, or replace the one it has by a smaller
one. -/
def updateInteresting (interesting : InterestingMap) (origin : String)
    (nodes : List ChoiceNode) : InterestingMap :=
  match interesting.lookup origin with
  | none => interesting.insert origin nodes
  | some stored =>
      if nodesSortKeyCmp nodes stored = .lt then
        interesting.insert origin nodes
      else interesting

namespace Engine

variable {Rng : Type}

def new (databaseKey : Option Bytes) (preexisting : List Bytes) (rng : Rng) :
    Engine Rng where
  databaseKey := databaseKey
  rng := rng
  persister := .new preexisting
  execCache := .withFullTierBound none
  kindLedger := ∅
  consecutiveDuplicates := 0
  interesting := ∅
  collectStatistics := false
  calls := 0
  validTestCases := 0
  invalidTestCases := 0
  overrunTestCases := 0
  testIsTrivial := false
  firstBugAt := none
  lastBugAt := none
  nondeterministic := false
  emitted := []
  executed := []

section Recording

variable [UBigBytes] (layout : Layout)

/-- Feed a run to the kind ledger and, unless it overran, to the execution
cache. -/
def recordExecution (engine : Engine Rng) (run : RunResult) :
    Option RunError × Engine Rng :=
  let (kindLedger, mismatch) := engine.kindLedger.observe run.nodes
  let engine := { engine with kindLedger := kindLedger }
  match mismatch with
  | some mismatch => (some (.nonDeterministic mismatch), engine)
  | none =>
      if run.status = .earlyStop then (none, engine)
      else
        let (execCache, recorded) := engine.execCache.record layout
          (serializeNodes run.nodes) run.status run.origin run.nodes run.spans
          (!engine.collectStatistics)
        let duplicates :=
          if engine.collectStatistics then
            if recorded.duplicate then engine.consecutiveDuplicates + 1 else 0
          else engine.consecutiveDuplicates
        (if recorded.verdictMismatch then some .flaky else none,
          { engine with
            execCache := execCache
            consecutiveDuplicates := duplicates })

/-- Save a failure, if the run has a database. -/
def persist (engine : Engine Rng) (origin : String)
    (nodes : List ChoiceNode) : Engine Rng :=
  match engine.databaseKey with
  | none => engine
  | some key =>
      let (ops, persister) := engine.persister.record key origin nodes
      { engine with
        persister := persister
        emitted := engine.emitted ++ ops }

/-- Count a run by its status; a failure is also saved and offered as an
example of its origin. -/
def recordStatus (engine : Engine Rng) (run : RunResult) : Engine Rng :=
  match run.status with
  | .valid => { engine with validTestCases := engine.validTestCases + 1 }
  | .invalid => { engine with invalidTestCases := engine.invalidTestCases + 1 }
  | .earlyStop =>
      { engine with overrunTestCases := engine.overrunTestCases + 1 }
  | .interesting =>
      let origin := run.origin.getD ""
      let engine := { engine with
        firstBugAt := engine.firstBugAt.or (some engine.calls)
        lastBugAt := some engine.calls }
      let engine := if engine.nondeterministic then engine
        else engine.persist origin run.nodes
      { engine with
        interesting :=
          updateInteresting engine.interesting origin run.nodes }

/-- Record everything about one executed run. -/
def recordRun (engine : Engine Rng) (run : RunResult) :
    Option RunError × Engine Rng :=
  let (mismatch, engine) :=
    if engine.nondeterministic then (none, engine)
    else engine.recordExecution layout run
  let trivial := run.nodes.isEmpty && decide (run.status ≠ .earlyStop) &&
    !engine.nondeterministic
  let engine := { engine with
    calls := engine.calls + 1
    testIsTrivial := engine.testIsTrivial || trivial
    executed := engine.executed ++ [run] }
  (mismatch, engine.recordStatus run)

/-- The recorded outcome of a query that was executed before. -/
def served (engine : Engine Rng) (choices : List ChoiceValue) :
    Option RunResult :=
  if engine.nondeterministic then none
  else (engine.execCache.serve (serializeChoices choices)).map fun hit =>
    ⟨hit.status, hit.nodes, hit.spans, hit.origin⟩

end Recording

/-- The failures as they are reported, the smallest one last; all of them or
only that one. -/
def report (engine : Engine Rng) (reportMultipleFailures : Bool) :
    List (String × List ChoiceNode) :=
  let originsSorted :=
    (engine.interesting.entries.map fun entry => (entry.1, entry.2)).mergeSort
      fun a b => (nodesSortKeyCmp b.2 a.2).isLE
  if reportMultipleFailures then originsSorted
  else originsSorted.getLast?.toList

end Engine

abbrev EngineM (Rng : Type) := Program (Engine Rng) RunError

section Operations

variable {Rng : Type} [UBigBytes] (setup : EngineSetup Rng)

/-- Execute one test case and record it; a driver that never reports an
outcome is at fault.  The answer holds the contradiction with an earlier run,
if recording found one. -/
def testFunction (start : TestCaseFamily Rng) :
    EngineM Rng (RunResult × Option RunError) :=
  .ofExec fun engine =>
    match execute setup.sampler setup.body setup.fuel start with
    | .error error => (.error (.internal error), engine)
    | .ok none => (.error .usageError, engine)
    | .ok (some execution) =>
        let (mismatch, engine) := engine.recordRun setup.layout execution.run
        (.ok (execution.run, mismatch), engine)

/-- The test case of a query that has to be executed. -/
def queryStart (choices : List ChoiceValue)
    (nodes : Option (List ChoiceNode)) (extend : Nat) :
    EngineM Rng (TestCaseFamily Rng) :=
  .ofExec fun engine =>
    if extend = 0 then (.ok (forChoices choices nodes), engine)
    else
      let (child, rng) := setup.sampler.spawn engine.rng
      (.ok (forProbe choices child (flattenedValuesLen choices + extend)),
        { engine with rng := rng })

/-- Replay choices and draw up to `extend` more, or serve the outcome of
having done so before. -/
def cachedTestFunction (choices : List ChoiceValue)
    (nodes : Option (List ChoiceNode)) (extend : Nat) :
    EngineM Rng RunResult := do
  match (← get).served choices with
  | some hit => return hit
  | none =>
      let start ← queryStart setup choices nodes extend
      match ← testFunction setup start with
      | (_, some error) => throw error
      | (run, none) => return run

/-- Answer the shrinker: only a failure of the origin being shrunk counts. -/
def engineShrinkRun (targetOrigin : String) (req : ShrinkRun) :
    EngineM Rng ShrinkOutcome := do
  let run ←
    match req with
    | .full nodes =>
        cachedTestFunction setup (nodes.map ChoiceNode.value) (some nodes) 0
    | .probe prefixValues maxSize =>
        cachedTestFunction setup prefixValues none
          (maxSize - prefixValues.length)
  return ⟨decide (run.status = .interesting) &&
    decide (run.origin = some targetOrigin), run.nodes, run.spans⟩

end Operations

/-- What a shrinker of the engine works in: the engine, how often the clock was
read, and the error that ended the run, if one did. -/
structure EngineWorld (Rng : Type) where
  engine : Engine Rng
  ticks : Nat
  failed : Option RunError

/-- The engine as the shrinker sees it.  The clock is whatever it is each time
it is read. -/
def engineShrinkProbe {Rng : Type} [UBigBytes] (setup : EngineSetup Rng)
    (clock : Nat → Option Nat) (targetOrigin : String) :
    ShrinkProbe (EngineWorld Rng) where
  run world req :=
    match (engineShrinkRun setup targetOrigin req).exec world.engine with
    | (.ok outcome, engine) => (.ok outcome, { world with engine := engine })
    | (.error error, engine) =>
        (.error (.error error),
          { world with engine := engine, failed := some error })
  now world := (clock world.ticks, { world with ticks := world.ticks + 1 })

end Hegel
