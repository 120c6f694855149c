/-
A whole run of the engine.  Stored failures are replayed, cases are generated,
and every failure that was found is executed once more and shrunk; what is left
in the end is reported.
-/
import Hegel.Generation
import Hegel.PassControl

namespace Hegel

section Reuse

variable {World Store : Type} [UBigBytes] (env : Environment World Store)
  (settings : RunSettings)

/-- Emit operations to the database. -/
def emit (ops : List DatabaseOp) : ExploreM World Unit :=
  Looping.modify fun explorer => { explorer with
    engine := { explorer.engine with
      emitted := explorer.engine.emitted ++ ops } }

def sortedShortlex (entries : List Bytes) : List Bytes :=
  entries.insertionSort fun a b => (shortlex a b).isLE

/-- Exchange one place after the other with a random one at or after it. -/
def shuffleFrom (i : Nat) : Nat → List Bytes → ExploreM World (List Bytes)
  | 0, extra => return extra
  | count + 1, extra => do
      let offset ← choose env (extra.length - i)
      let here := extra.getD i []
      let there := extra.getD (i + offset) []
      shuffleFrom (i + 1) count ((extra.set i there).set (i + offset) here)

/-- A tenth of the cases is replayed when more can be generated, and two at
least. -/
def desiredSize : Nat :=
  max (if .generate ∈ settings.phases then (settings.testCases + 9) / 10
    else settings.testCases) 2

/-- Some of the secondary entries, when there are few primary ones. -/
def secondaryEntries (key : Bytes) (primary : List Bytes) :
    ExploreM World (List Bytes) := do
  if primary.length < desiredSize settings then
    let explorer ← Looping.read
    let extra := (explorer.fetch env (secondaryKey key)).filter
      fun entry => entry ∉ primary
    let shortfall := desiredSize settings - primary.length
    if extra.length > shortfall then
      let shuffled ← shuffleFrom env 0 shortfall extra
      return sortedShortlex (shuffled.take shortfall)
    else return sortedShortlex extra
  else return []

/-- A replay that realised exactly the stored choices. -/
def alignedWith (stored : List ChoiceValue) (nodes : List ChoiceNode) : Bool :=
  decide (nodes.length = stored.length) &&
    (nodes.zip stored).all fun (node, value) => node.value.eq value

/-- An entry that is no failure any more is deleted everywhere. -/
def forget (key raw : Bytes) : ExploreM World Unit :=
  emit [.delete key raw, .delete (secondaryKey key) raw]

/-- What the replay of the entries so far has shown. -/
structure ReuseProgress where
  /-- Every failure was primary and is as it was stored. -/
  replayAligned : Bool
  foundInterestingInPrimary : Bool

/-- A replay failed again. -/
def ReuseProgress.failed (progress : ReuseProgress) (primary : Bool)
    (stored : List ChoiceValue) (outcome : CaseOutcome) : ReuseProgress where
  replayAligned := progress.replayAligned && primary &&
    alignedWith stored outcome.run.nodes
  foundInterestingInPrimary := progress.foundInterestingInPrimary || primary

/-- Replay an entry; the answer says whether to go on. -/
def replayEntry (key raw : Bytes) (primary : Bool) (progress : ReuseProgress) :
    ExploreM World (Bool × ReuseProgress) :=
  match deserializeChoices .usize64 raw with
  | .fault _ => Looping.halt .panic
  | .rejected => do
      forget key raw
      return (true, progress)
  | .done stored => do
      let outcome ← ExploreM.lift fun explorer =>
        explorer.runCase env .reuse (.probe stored bufferSize)
      let explorer ← Looping.read
      if outcome.run.status = .interesting then
        let progress := progress.failed primary stored outcome
        if !settings.reportMultipleFailures then return (false, progress)
        else if explorer.engine.nondeterministic then
          return (false, { progress with replayAligned := false })
        else return (true, progress)
      else
        forget key raw
        if explorer.engine.nondeterministic then
          return (false, { progress with replayAligned := false })
        else return (true, progress)

/-- Replay entries, the primary ones first; the secondary ones are left when a
primary one has failed. -/
def replayEntries (key : Bytes) :
    List (Bytes × Bool) → ReuseProgress → ExploreM World ReuseProgress
  | [], progress => return progress
  | (raw, primary) :: rest, progress => do
      if !primary && progress.foundInterestingInPrimary then return progress
      else
        let (again, progress) ←
          replayEntry env settings key raw primary progress
        if again then replayEntries key rest progress else return progress

/-- Replay what is stored; the answer is whether all failures are as they were
stored. -/
def reusePhase : ExploreM World Bool := do
  let explorer ← Looping.read
  match explorer.engine.databaseKey with
  | none => return false
  | some key =>
      if .reuse ∈ settings.phases then
        let primary := sortedShortlex (explorer.fetch env key)
        let extra ← secondaryEntries env settings key primary
        let progress ← replayEntries env settings key
          (primary.map (·, true) ++ extra.map (·, false))
          ⟨!primary.isEmpty, false⟩
        let explorer ← Looping.read
        return progress.replayAligned &&
          !explorer.engine.interesting.entries.isEmpty
      else return false

end Reuse

section Shrinking

variable {World Store : Type} [UBigBytes] (env : Environment World Store)
  (settings : RunSettings)

/-- The passes that run once before the others, and the others. -/
structure ShrinkPlan where
  coarse : PassCode
  passes : PassCode

/-- The engine as a shrinker sees it: only a failure of the origin being shrunk
counts. -/
def exploreShrinkProbe (targetOrigin : String) :
    ShrinkProbe (Explorer World) where
  run explorer req :=
    let (result, explorer) := match req with
      | .full nodes =>
          explorer.cachedTestFunction env .shrink
            (nodes.map ChoiceNode.value) (some nodes) 0
      | .probe prefixValues maxSize =>
          explorer.cachedTestFunction env .shrink prefixValues none
            (maxSize - prefixValues.length)
    match result with
    | .ok run =>
        (.ok ⟨decide (run.status = .interesting) &&
          decide (run.origin = some targetOrigin), run.nodes, run.spans⟩,
          explorer)
    | .error error => (.error (.error error), explorer)
  now explorer :=
    let (now, world) := env.now explorer.world
    (now, { explorer with world := world })

/-- Reduce coarsely, then run the other passes. -/
def runPlan (plan : ShrinkPlan) {World : Type} (testFn : ShrinkProbe World)
    (state : ShrinkState World) : Except RunError Unit × ShrinkState World :=
  let (reduced, state) := (plan.coarse.run testFn).exec state
  match absorbStop reduced with
  | .error error => (.error error, state)
  | .ok _ =>
      let (shrunk, state) := (plan.passes.run testFn).exec state
      (absorbStop shrunk, state)

/-- Shrink a failure; the answer is the sequence the shrinker ended on. -/
def shrinkFailure (plan : ShrinkPlan) (origin : String) (verify : RunResult)
    (deadline : Option Nat) : ExploreM World (List ChoiceNode) :=
  ExploreM.lift fun explorer =>
    let (result, state) := runPlan plan (exploreShrinkProbe env origin)
      (.start verify.nodes verify.spans deadline explorer)
    (result.map fun _ => state.shrinker.currentNodes, state.world)

/-- The largest of the failures, as it is stored. -/
def primaryMax (interesting : InterestingMap) : Option Bytes :=
  (sortedShortlex (newEntries interesting)).getLast?

/-- Replay a secondary entry.  What recording it reports is not looked at. -/
def replayDisplaced (raw : Bytes) : ExploreM World Unit :=
  match deserializeChoices .usize64 raw with
  | .fault _ => Looping.halt .panic
  | .rejected => return ()
  | .done stored => do
      let _ ← ExploreM.lift fun explorer =>
        explorer.testFunction env .secondaryCorpus (.choices stored none)
      return ()

/-- Replay the secondary entries that are no larger than the failures. -/
def replaySecondaryCorpus (key : Bytes) (largest : Option Bytes) :
    List Bytes → ExploreM World Unit
  | [] => return ()
  | raw :: rest => do
      if largest.any fun bytes => decide (shortlex raw bytes = .gt) then
        return ()
      else
        replayDisplaced env raw
        emit [.delete (secondaryKey key) raw]
        replaySecondaryCorpus key largest rest

/-- Replay the secondary corpus, if there is a database. -/
def secondaryReplay : ExploreM World Unit := do
  let explorer ← Looping.read
  match explorer.engine.databaseKey with
  | none => return ()
  | some key =>
      replaySecondaryCorpus env key (primaryMax explorer.engine.interesting)
        (sortedShortlex (explorer.fetch env (secondaryKey key)))

/-- The next origin that was not shrunk yet. -/
def pendingOrigin (interesting : InterestingMap)
    (shrunkOrigins : List String) : Option String :=
  ((interesting.keys.filter fun origin =>
    origin ∉ shrunkOrigins).insertionSort (· ≤ ·)).head?

def readNow : ExploreM World (Option Nat) :=
  .ofResult fun explorer =>
    let (now, world) := env.now explorer.world
    (.ok now, { explorer with world := world })

/-- Execute a failure once more and shrink it. -/
def shrinkOrigin (plan : Explorer World → String → ShrinkPlan)
    (deadline : Option Nat) (origin : String) : ExploreM World Unit := do
  let explorer ← Looping.read
  let initial := (explorer.engine.interesting.lookup origin).getD []
  let verify ← ExploreM.lift fun explorer =>
    explorer.runCase env .verification
      (.choices (initial.map ChoiceNode.value) (some initial))
  if verify.run.status ≠ .interesting ∨ verify.run.origin ≠ some origin then
    Looping.halt (.error .flaky)
  else
    let explorer ← Looping.read
    let shrunk ← shrinkFailure env (plan explorer origin) origin verify.run
      deadline
    Looping.modify fun explorer => { explorer with
      engine := { explorer.engine with
        interesting := explorer.engine.interesting.insert origin shrunk } }

/-- Shrink one origin after the other, also those found on the way. -/
def shrinkOrigins (plan : Explorer World → String → ShrinkPlan)
    (deadline : Option Nat) : ExploreM World Unit :=
  Looping.loop (fun shrunkOrigins => do
    let explorer ← Looping.read
    match pendingOrigin explorer.engine.interesting shrunkOrigins with
    | none => return .finish ()
    | some origin =>
        shrinkOrigin env plan deadline origin
        return .again (origin :: shrunkOrigins)) []

def shrinkPhase (plan : Explorer World → String → ShrinkPlan)
    (replayAligned : Bool) : ExploreM World Unit := do
  let explorer ← Looping.read
  if explorer.engine.interesting.entries.isEmpty = false ∧
      replayAligned = false ∧ .shrink ∈ settings.phases ∧
      explorer.engine.nondeterministic = false then
    secondaryReplay env
    let now ← readNow env
    shrinkOrigins env plan (now.map (· + env.shrinkBudget))
  else return ()

end Shrinking

/-- A failure as it is reported, with the choices to reproduce it if they
do. -/
structure Failure where
  origin : String
  choices : Option (List ChoiceValue)

/-- The report of a run, and what it leaves stored. -/
structure TestRunResult (Store : Type) where
  failures : List Failure
  nondeterministic : Bool
  stored : Store

section Running

variable {World Store : Type} [UBigBytes] (env : Environment World Store)
  (settings : RunSettings)

/-- The report of the failures that are left. -/
def conclude (engine : Engine Unit) : TestRunResult Store where
  failures := (engine.report settings.reportMultipleFailures).map
    fun (origin, nodes) => ⟨origin, if engine.nondeterministic then none
      else some (nodes.map ChoiceNode.value)⟩
  nondeterministic := engine.nondeterministic
  stored :=
    let stored := env.database.applyAll env.stored engine.emitted
    match engine.databaseKey with
    | none => stored
    | some key => reconcileDatabase env.database stored engine.nondeterministic
        key engine.interesting engine.persister

/-- A run of the engine. -/
def explore (plan : Explorer World → String → ShrinkPlan) :
    ExploreM World (TestRunResult Store) := do
  let replayAligned ← reusePhase env settings
  generationPhase env settings
  shrinkPhase env settings plan replayAligned
  let explorer ← Looping.read
  return conclude env settings explorer.engine

end Running

end Hegel
