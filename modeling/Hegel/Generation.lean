/-
The generation phase.  The simplest case comes first, then random ones in
batches; in between, targets are optimised and the spans of valid cases are
mutated.  Each of them has stopping conditions of its own.
-/
import Hegel.Targeting

namespace Hegel

def randomGenerationBatch : Nat := 10

def duplicateStop : Nat := randomGenerationBatch

def spanMutationAttempts : Nat := 5

def filterTooMuchThreshold : Nat := 50

def healthCheckMaxValid : Nat := 10

def maxOverrunDraws : Nat := 20

def minTestCalls : Nat := 10

def postBugExtraCalls : Nat := 1000

/-- How many cases may be rejected before the rate of valid ones is thought to
be below one in a hundred, and how many more for each valid one. -/
def invalidThresholds : Nat × Nat := (458, 100)

section Conditions

def withinInvalidBudget (engine : Engine Unit) : Bool :=
  decide (engine.invalidTestCases + engine.overrunTestCases ≤
    invalidThresholds.1 + invalidThresholds.2 * engine.validTestCases)

/-- Nothing valid was generated and nothing new turns up. -/
def exhausted (engine : Engine Unit) : Bool :=
  decide (engine.validTestCases = 0) &&
    decide (engine.consecutiveDuplicates ≥ duplicateStop)

/-- Without a failure there is always more to generate; after one, only for a
while and only to find others. -/
def shouldGenerateMore (engine : Engine Unit)
    (shrinkEnabled reportMultiple late : Bool) : Bool :=
  if engine.interesting.entries.isEmpty then true
  else if !shrinkEnabled || !reportMultiple then false
  else if late then false
  else
    match engine.firstBugAt with
    | none => false
    | some first =>
        let last := engine.lastBugAt.getD first
        let heuristic := min (min (first + postBugExtraCalls) usizeMax)
          (min (last * 2) usizeMax)
        decide (engine.calls < minTestCalls) || decide (engine.calls < heuristic)

variable (settings : RunSettings)

def RunSettings.suppressed (check : HealthCheck) : Bool :=
  decide (check ∈ settings.suppressHealthCheck)

/-- The calls that optimisation may take the run to. -/
def RunSettings.maxCalls : Nat :=
  settings.testCases * 10 % 2 ^ 64

def RunSettings.optimiser : Optimiser :=
  ⟨settings.testCases, settings.maxCalls⟩

/-- The counters leave room for another random case. -/
def underBudget (engine : Engine Unit) : Bool :=
  !engine.testIsTrivial &&
    decide (engine.validTestCases < settings.testCases) &&
    withinInvalidBudget engine && !exhausted engine

/-- The simplest case is too large. -/
def largeInitialCheck (outcome : CaseOutcome) : Bool :=
  !settings.suppressed .largeInitialTestCase &&
    (decide (outcome.run.status = .earlyStop) ||
      decide (outcome.run.status = .valid) &&
        decide (flattenedLen outcome.run.nodes * 2 > bufferSize))

/-- The health check that a random case fails. -/
def failedHealthCheck (engine : Engine Unit) (status : Status) (slow : Bool) :
    Option HealthCheck :=
  if !engine.interesting.entries.isEmpty then none
  else if engine.validTestCases ≥ healthCheckMaxValid then none
  else if status = .invalid ∧
      engine.invalidTestCases ≥ filterTooMuchThreshold ∧
      settings.suppressed .filterTooMuch = false then
    some .filterTooMuch
  else if engine.overrunTestCases ≥ maxOverrunDraws ∧
      settings.suppressed .testCasesTooLarge = false then
    some .testCasesTooLarge
  else if slow ∧ settings.suppressed .tooSlow = false then some .tooSlow
  else none

/-- Why a run whose generation is over is an error. -/
def generationError (engine : Engine Unit) : Option RunError :=
  if engine.validTestCases = 0 ∧ engine.interesting.entries.isEmpty ∧
      engine.invalidTestCases > 0 then
    if engine.testIsTrivial then some .unsatisfiable
    else if engine.consecutiveDuplicates ≥ duplicateStop ∧
        settings.suppressed .filterTooMuch = false then
      some (.healthCheck .filterTooMuch)
    else none
  else none

end Conditions

section Mutations

/-- The places of the spans with a label, in order. -/
def spansLabelled (spans : List Span) (label : String) : List (Nat × Nat) :=
  (((spans.filter fun span => span.label = label).map fun span =>
    (span.start, span.stop)).dedup).mergeSort
      fun a b => decide (toLex a ≤ toLex b)

/-- The places of the spans of each label that has several. -/
def spanGroups (spans : List Span) : List (List (Nat × Nat)) :=
  ((spans.map Span.label).dedup.map (spansLabelled spans)).filter
    fun group => decide (group.length ≥ 2)

/-- One span contains the other. -/
abbrev encloses (a b : Nat × Nat) : Prop :=
  a.1 ≤ b.1 ∧ b.2 ≤ a.2

/-- A span that contains another one is repeated before it; of two other spans
one takes the place of both. -/
def mutateSpans (values : List ChoiceValue) (a b : Nat × Nat)
    (donateFirst : Bool) : List ChoiceValue :=
  if encloses a b then values.take b.1 ++ values.drop a.1
  else
    let donor := if donateFirst then a else b
    let replacement := (values.take donor.2).drop donor.1
    let mid := if a.2 ≤ b.1 then (values.take b.1).drop a.2 else []
    values.take a.1 ++ replacement ++ mid ++ replacement ++ values.drop b.2

end Mutations

section Phase

variable {World Store : Type} [UBigBytes] (env : Environment World Store)
  (settings : RunSettings)

/-- Two different spans of one label, the one that starts first in front. -/
def chooseSpans (groups : List (List (Nat × Nat))) :
    ExploreM World ((Nat × Nat) × (Nat × Nat)) := do
  let groupIdx ← choose env groups.length
  let group := groups.getD groupIdx []
  let iA ← choose env group.length
  let iB ← choose env (group.length - 1)
  let a := group.getD iA (0, 0)
  let b := group.getD (if iB ≥ iA then iB + 1 else iB) (0, 0)
  return if a.1 > b.1 then (b, a) else (a, b)

/-- Of two spans that do not contain each other one is the donor. -/
def chooseDonor (a b : Nat × Nat) : ExploreM World Bool := do
  if encloses a b then return true
  else
    let donor ← choose env 2
    return decide (donor = 1)

/-- Mutate the spans of a case a few times, until a mutation fails or the
budget is used up. -/
def trySpanMutation (nodes : List ChoiceNode) (spans : List Span) :
    ExploreM World Unit :=
  if (spanGroups spans).isEmpty then return ()
  else
    Looping.loop (fun attempts =>
      match attempts with
      | 0 => return .finish ()
      | attempts + 1 => do
          let explorer ← Looping.read
          if explorer.engine.validTestCases ≥ settings.testCases then
            return .finish ()
          else
            let (a, b) ← chooseSpans env (spanGroups spans)
            let donateFirst ← chooseDonor env a b
            let attempt :=
              mutateSpans (nodes.map ChoiceNode.value) a b donateFirst
            let run ← ExploreM.lift fun explorer =>
              explorer.cachedTestFunction env .spanMutation attempt none
                (bufferSize - flattenedValuesLen attempt)
            if run.status = .interesting then return .finish ()
            else return .again attempts) spanMutationAttempts

/-- Whether another random case is to be generated. -/
def mayGenerate : ExploreM World Bool := do
  let explorer ← Looping.read
  if underBudget settings explorer.engine then
    let late ← readLate env
    return shouldGenerateMore explorer.engine
      (decide (.shrink ∈ settings.phases) && !explorer.engine.nondeterministic)
      settings.reportMultipleFailures late
  else return false

/-- Optimise the targets when it is time to. -/
def fireTargets : ExploreM World Unit := do
  let explorer ← Looping.read
  if .target ∈ settings.phases ∧ explorer.engine.nondeterministic = false ∧
      explorer.engine.interesting.entries.isEmpty ∧
      explorer.targeting.entries.isEmpty = false then
    let (fires, schedule) :=
      explorer.schedule.shouldFire explorer.engine.validTestCases
    Looping.modify fun explorer => { explorer with schedule := schedule }
    if fires then
      settings.optimiser.optimiseTargets env
    else return ()
  else return ()

/-- Mutate the spans of a valid case, once there are enough of them. -/
def mutateValid (outcome : CaseOutcome) : ExploreM World Unit := do
  let explorer ← Looping.read
  if explorer.engine.nondeterministic = false ∧
      outcome.run.status = .valid ∧
      (explorer.engine.validTestCases ≥ healthCheckMaxValid ∨
        explorer.engine.interesting.entries.isEmpty = false) then
    trySpanMutation env settings outcome.run.nodes outcome.run.spans
  else return ()

/-- A random case fails a health check, or it may be followed by trials and
mutations. -/
def followUp (outcome : CaseOutcome) : ExploreM World Unit := do
  let explorer ← Looping.read
  match failedHealthCheck settings explorer.engine outcome.run.status
      (env.tooSlow explorer.world) with
  | some check => Looping.halt (.error (.healthCheck check))
  | none =>
      fireTargets env settings
      mutateValid env settings outcome

def randomCase : ExploreM World Unit := do
  let outcome ← ExploreM.lift fun explorer =>
    explorer.runCase env .random .random
  followUp env settings outcome

def generateBatch : ExploreM World Unit :=
  Looping.loop (fun remaining =>
    match remaining with
    | 0 => return .finish ()
    | remaining + 1 => do
        if ← mayGenerate env settings then
          randomCase env settings
          return .again remaining
        else return .finish ()) randomGenerationBatch

def generateBatches : ExploreM World Unit :=
  Looping.loop (fun _ => do
    if ← mayGenerate env settings then
      generateBatch env settings
      return .again ()
    else return .finish ()) ()

/-- The simplest case is executed before any random one. -/
def probeSimplest : ExploreM World Unit := do
  let explorer ← Looping.read
  if explorer.engine.testIsTrivial = false ∧
      withinInvalidBudget explorer.engine ∧ settings.testCases > 1 then
    let outcome ← ExploreM.lift fun explorer =>
      explorer.runCase env .simplest (.simplest bufferSize)
    if largeInitialCheck settings outcome then
      Looping.halt (.error (.healthCheck .largeInitialTestCase))
    else return ()
  else return ()

/-- Generate cases, unless a failure was found before. -/
def generateCases : ExploreM World Unit := do
  let explorer ← Looping.read
  if .generate ∈ settings.phases ∧ explorer.engine.interesting.entries.isEmpty
  then
    probeSimplest env settings
    generateBatches env settings
  else return ()

def generationPhase : ExploreM World Unit := do
  Looping.modify fun explorer =>
    { explorer with engine := { explorer.engine with collectStatistics := true } }
  generateCases env settings
  let explorer ← Looping.read
  match generationError settings explorer.engine with
  | some error => Looping.halt (.error error)
  | none => Looping.modify fun explorer =>
      { explorer with
        engine := { explorer.engine with collectStatistics := false } }

end Phase

end Hegel
