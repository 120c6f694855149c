/-
What a run of the engine executes.  The test function, the clock and the random
choices are those of an environment, which may answer differently each time;
every case that is offered to the test function is logged, with the engine that
recorded its outcome.
-/
import Hegel.Engine
import Hegel.Lib.Looping
import Hegel.Reconciliation

namespace Hegel

def bufferSize : Nat := 8 * 1024

section Requests

inductive Phase where
  | explicit
  | reuse
  | generate
  | target
  | shrink
deriving DecidableEq

/-- The settings that decide what is executed. -/
structure RunSettings where
  testCases : Nat
  phases : List Phase
  reportMultipleFailures : Bool
  suppressHealthCheck : List HealthCheck

abbrev Observations := AList fun _ : String => Binary64

/-- What a test case draws from: random choices; the simplest ones; given ones;
or given ones and random ones beyond them. -/
inductive CaseRequest where
  | random
  | simplest (maxSize : Nat)
  | choices (values : List ChoiceValue) (nodes : Option (List ChoiceNode))
  | probe (values : List ChoiceValue) (maxSize : Nat)

/-- What the execution of a test case showed. -/
structure CaseOutcome where
  run : RunResult
  targetObservations : Observations
  concurrentMachine : Bool

/-- Where a run executes a test case. -/
inductive CaseSite where
  | reuse
  | simplest
  | random
  | target
  | spanMutation
  | secondaryCorpus
  | verification
  | shrink
deriving DecidableEq

/-- What a run depends on besides its settings. -/
structure Environment (World Store : Type) where
  layout : Layout
  database : TestCaseDatabase Store
  stored : Store
  execute : World → CaseRequest → Except RunError CaseOutcome × World
  /-- A random number; it is reduced to the range that is asked for. -/
  random : World → Nat × World
  now : World → Option Nat × World
  /-- How long shrinking may take. -/
  shrinkBudget : Nat
  /-- Whether the first failure is more than ten seconds ago. -/
  firstBugLongAgo : World → Bool × World
  /-- Whether the tests have taken longer than the threshold. -/
  tooSlow : World → Bool

end Requests

section Observing

/-- The best score observed for a label and the choices that led to it. -/
structure BestTarget where
  score : Binary64
  choices : List ChoiceValue

abbrev TargetingState := AList fun _ : String => BestTarget

/-- The first observation of a label is kept until a better one is made. -/
def TargetingState.record (targeting : TargetingState)
    (choices : List ChoiceValue) (observations : Observations) :
    TargetingState :=
  observations.entries.foldl (fun targeting observation =>
    if (targeting.lookup observation.1).all fun best =>
        best.score.lt observation.2 then
      targeting.insert observation.1 ⟨observation.2, choices⟩
    else targeting) targeting

/-- When the targets are optimised. -/
structure TargetingSchedule where
  step : Nat
  nextAt : Nat

namespace TargetingSchedule

def new (maxTestCases : Nat) : TargetingSchedule :=
  let smallExampleCap := min (maxTestCases / 10) 50
  let step := max (max (maxTestCases / 2) (smallExampleCap + 1)) 10
  ⟨step, step⟩

def shouldFire (schedule : TargetingSchedule) (validTestCases : Nat) :
    Bool × TargetingSchedule :=
  if validTestCases < schedule.nextAt then (false, schedule)
  else (true, { schedule with
    nextAt := min (validTestCases + schedule.step) usizeMax })

end TargetingSchedule

/-- A test case that was offered to the test function: the engine that recorded
the outcome, and the outcome, if there was one. -/
structure ExecutedCase where
  site : CaseSite
  before : Engine Unit
  run : Option RunResult

/-- The state of a run.  The log of the executed cases is kept for
observers. -/
structure Explorer (World : Type) where
  engine : Engine Unit
  world : World
  targeting : TargetingState
  schedule : TargetingSchedule
  /-- The first failure is known to be long ago. -/
  late : Bool
  cases : List ExecutedCase

/-- The state before anything was executed. -/
def Explorer.new {World : Type} (settings : RunSettings)
    (databaseKey : Option Bytes) (preexisting : List Bytes) (world : World) :
    Explorer World where
  engine := .new databaseKey preexisting ()
  world := world
  targeting := ∅
  schedule := .new settings.testCases
  late := false
  cases := []

end Observing

/-- A concurrent machine makes the run nondeterministic; what earlier runs said
no longer counts. -/
def Engine.noticeConcurrency {Rng : Type} (engine : Engine Rng)
    (concurrentMachine : Bool) : Engine Rng :=
  if !engine.nondeterministic && concurrentMachine then
    { engine with
      nondeterministic := true
      execCache := engine.execCache.clear
      kindLedger := ∅
      consecutiveDuplicates := 0 }
  else engine

/-- What ends a run early. -/
inductive RunHalt where
  | error (error : RunError)
  | panic
deriving DecidableEq

abbrev ExploreM (World : Type) := Looping (Explorer World) RunHalt

/-- An operation of the engine that may end the run with an error. -/
def ExploreM.lift {World Value : Type}
    (run : Explorer World → Except RunError Value × Explorer World) :
    ExploreM World Value :=
  .ofResult fun explorer =>
    let (result, explorer) := run explorer
    (result.mapError .error, explorer)

section Executing

variable [UBigBytes]

/-- The contradiction with an earlier run that recording the case reported. -/
def ExecutedCase.contradiction (layout : Layout) (case : ExecutedCase) :
    Option RunError :=
  case.run.bind fun run => (case.before.recordRun layout run).1

variable {World Store : Type} (env : Environment World Store)

namespace Explorer

/-- Take over the outcome of a case. -/
def record (explorer : Explorer World) (site : CaseSite)
    (outcome : CaseOutcome) : Option RunError × Explorer World :=
  let before := explorer.engine.noticeConcurrency outcome.concurrentMachine
  let (mismatch, engine) := before.recordRun env.layout outcome.run
  let observed := match outcome.run.status with
    | .earlyStop => false
    | .invalid => false
    | _ => !outcome.targetObservations.entries.isEmpty
  (mismatch, { explorer with
    engine := engine
    targeting := if observed then
        explorer.targeting.record (outcome.run.nodes.map ChoiceNode.value)
          outcome.targetObservations
      else explorer.targeting
    cases := explorer.cases ++ [⟨site, before, some outcome.run⟩] })

/-- Execute a test case and record everything about it.  The answer holds the
contradiction with an earlier run, if recording found one. -/
def testFunction (site : CaseSite) (request : CaseRequest)
    (explorer : Explorer World) :
    Except RunError (CaseOutcome × Option RunError) × Explorer World :=
  let (answer, world) := env.execute explorer.world request
  match answer with
  | .error error =>
      (.error error, { explorer with
        world := world
        cases := explorer.cases ++ [⟨site, explorer.engine, none⟩] })
  | .ok outcome =>
      let (mismatch, explorer) :=
        { explorer with world := world }.record env site outcome
      (.ok (outcome, mismatch), explorer)

/-- Execute a test case; a contradiction is an error. -/
def runCase (site : CaseSite) (request : CaseRequest)
    (explorer : Explorer World) :
    Except RunError CaseOutcome × Explorer World :=
  match explorer.testFunction env site request with
  | (.ok (outcome, none), explorer) => (.ok outcome, explorer)
  | (.ok (_, some error), explorer) => (.error error, explorer)
  | (.error error, explorer) => (.error error, explorer)

/-- Replay choices and draw up to `extend` more, or serve the outcome of
having done so before. -/
def cachedTestFunction (site : CaseSite) (choices : List ChoiceValue)
    (nodes : Option (List ChoiceNode)) (extend : Nat)
    (explorer : Explorer World) :
    Except RunError RunResult × Explorer World :=
  match explorer.engine.served choices with
  | some hit => (.ok hit, explorer)
  | none =>
      let request := if extend = 0 then .choices choices nodes
        else .probe choices (flattenedValuesLen choices + extend)
      let (result, explorer) := explorer.runCase env site request
      (result.map CaseOutcome.run, explorer)

/-- What is stored under a key of the database now. -/
def fetch (explorer : Explorer World) (key : Bytes) : List Bytes :=
  env.database.fetch
    (env.database.applyAll env.stored explorer.engine.emitted) key

end Explorer

/-- A random number below a bound. -/
def choose (bound : Nat) : ExploreM World Nat :=
  .ofResult fun explorer =>
    let (number, world) := env.random explorer.world
    (.ok (number % bound), { explorer with world := world })

/-- Whether the first failure is long ago.  Once it is, it stays so. -/
def readLate : ExploreM World Bool :=
  .ofResult fun explorer =>
    if explorer.late || explorer.engine.firstBugAt.isNone then
      (.ok explorer.late, explorer)
    else
      let (late, world) := env.firstBugLongAgo explorer.world
      (.ok late, { explorer with world := world, late := late })

end Executing

end Hegel
