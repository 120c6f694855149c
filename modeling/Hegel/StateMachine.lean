/-
The driver of a stateful test case.  Rules are handed out in rounds: at a join
point the machine decides whether to go on and which group of rules is current,
then every worker pulls rules of that group that its swarm flags leave
enabled.
-/
import Hegel.Draws
import Hegel.Lib.Attempt
import Mathlib.Data.Finset.Basic

namespace Hegel

/-- The test case a machine draws from: the family and one of its streams. -/
structure Source (Rng : Type) where
  family : FamilyCore
  stream : NativeTestCase Rng

/-- Why a call on a machine did not succeed. -/
inductive MachineError where
  /-- The stream refused a draw. -/
  | engine (error : EngineError)
  /-- A sampler failed. -/
  | sampler (error : InternalError)
  | invalidArgument (message : String)
  /-- A draw was asked for outside of its own bounds. -/
  | badDraw (error : InternalError)
  /-- An assertion of the machine did not hold. -/
  | assertion (message : String)
  /-- An index was out of range. -/
  | outOfRange

/-- Errors that point at a mistake in the machine itself. -/
def MachineError.isInternal : MachineError → Bool
  | .badDraw _ => true
  | .assertion _ => true
  | .outOfRange => true
  | _ => false

def attemptMultiplier : Int := 10

def minAttemptsWithoutSuccess : Int := 1000

def maxRoundRules : Int := 5

/-- The chance of another round, `1 - 2 ^ -32`. -/
def pContinue : Binary64 := .ofRatio (2 ^ 32 - 1) (2 ^ 32)

def pMaxConcurrency : Binary64 := .ofRatio 3 4

def labelFeatureFlag : Nat := 16

def labelConcurrency : Nat := 34

/-- Multiplication of 64-bit numbers that stops at their bounds. -/
def saturatingMul (a b : Int) : Int :=
  max (-2 ^ 63) (min (2 ^ 63 - 1) (a * b))

section Drawing

variable {Rng : Type} (sampler : Sampler Rng)

/-- One draw from the stream. -/
def drawValue (op : DrawOp) : Attempt (Source Rng) MachineError ChoiceValue :=
  fun source =>
    match op.request sampler source.family with
    | .error error => (.error (.badDraw error), source)
    | .ok request =>
        match performDraw request source.family source.stream with
        | .error error => (.error (.sampler error), source)
        | .ok (.ok value, family, stream) => (.ok value, ⟨family, stream⟩)
        | .ok (.error error, family, stream) =>
            (.error (.engine error), ⟨family, stream⟩)

def drawWeighted (p : Binary64) (forced : Option Bool) :
    Attempt (Source Rng) MachineError Bool := do
  let value ← drawValue sampler (.weighted p forced)
  Attempt.ofExcept (value.asBoolean.elim (.error .outOfRange) .ok)

def drawWeightedPrecise (p : Binary64) (forced : Option Bool) :
    Attempt (Source Rng) MachineError Bool := do
  let value ← drawValue sampler (.weightedPrecise p forced)
  Attempt.ofExcept (value.asBoolean.elim (.error .outOfRange) .ok)

def drawInt (minValue maxValue : Int) :
    Attempt (Source Rng) MachineError Int := do
  let value ← drawValue sampler (.integer minValue maxValue)
  Attempt.ofExcept (value.asInteger.elim (.error .outOfRange) .ok)

/-- A uniform index below a length. -/
def drawIndex (n : Nat) : Attempt (Source Rng) MachineError Nat := do
  let i ← drawInt sampler 0 (n - 1)
  return i.toNat

def openSpan (label : Nat) : Attempt (Source Rng) MachineError Unit :=
  Attempt.modify fun source =>
    let opened := source.stream.record.startSpan label
    let (family, record) :=
      if source.stream.record.spanStack.length + 1 > maxDepth then
        freezeStream (source.family.conclude .invalid none) opened
      else (source.family, opened)
    ⟨family, ⟨record, source.stream.input⟩⟩

def closeSpan : Attempt (Source Rng) MachineError Unit :=
  Attempt.modify fun source =>
    ⟨source.family,
      ⟨source.stream.record.stopSpan false, source.stream.input⟩⟩

/-- Draw inside a span, which is closed also when the draw is refused. -/
def spanned {Value : Type} (label : Nat)
    (attempt : Attempt (Source Rng) MachineError Value) :
    Attempt (Source Rng) MachineError Value :=
  fun source =>
    let (result, source) := attempt (openSpan label source).2
    (result, (closeSpan source).2)

/-- The level of concurrency, the largest one more often than not. -/
def drawConcurrency (minValue maxValue : Int) :
    Attempt (Source Rng) MachineError Int :=
  if minValue = maxValue then pure maxValue
  else spanned labelConcurrency do
    let largest ← drawWeighted sampler pMaxConcurrency none
    if largest then pure maxValue else drawInt sampler minValue maxValue

end Drawing

/-- Element of a vector that is there. -/
def elementAt {Value : Type} (values : List Value) (i : Nat) :
    Except MachineError Value :=
  match values[i]? with
  | some value => .ok value
  | none => .error .outOfRange

/-- Which rules are enabled for a worker; decided when first asked about. -/
structure FeatureFlags where
  pDisabled : Binary64
  isDisabled : List (Option Bool)
  /-- For every group the rules that may still have to be the enabled one. -/
  atLeastOneOf : List (Finset Nat)

structure WorkerState where
  flags : FeatureFlags
  stepsDrawn : Int
  stepsRejected : Int
  ruleOutstanding : Bool
  retryPending : Bool

/-- The driver of one stateful test case. -/
structure NativeStateMachine where
  groups : List (List Nat)
  groupIds : List Int
  concurrency : Int
  currentGroup : Nat
  roundsStarted : Int
  roundsRejected : Int
  invariantAlwaysCheck : List Bool
  workers : List WorkerState

/-- A worker at the start of a round. -/
def WorkerState.refreshed (worker : WorkerState) : WorkerState :=
  { worker with
    stepsDrawn := 0
    stepsRejected := 0
    ruleOutstanding := false
    retryPending := false }

section Flags

variable {Rng : Type} (sampler : Sampler Rng)

def FeatureFlags.new (groups : List (List Nat)) (numRules : Nat) :
    Attempt (Source Rng) MachineError FeatureFlags := do
  let raw ← drawInt sampler 0 254
  return {
    pDisabled := .ofRatio raw.toNat 255
    isDisabled := List.replicate numRules none
    atLeastOneOf := groups.map List.toFinset }

/-- What a query of a rule's flag is forced to. -/
def FeatureFlags.forced (flags : FeatureFlags) (group i : Nat) :
    Except MachineError (Option Bool) := do
  let candidates ← elementAt flags.atLeastOneOf group
  if candidates.card = 1 ∧ i ∈ candidates then return some false
  else elementAt flags.isDisabled i

/-- A decided flag, which also settles its group once it is enabled. -/
def FeatureFlags.decide (flags : FeatureFlags) (group i : Nat)
    (disabled : Bool) : FeatureFlags :=
  { flags with
    isDisabled := flags.isDisabled.set i (some disabled)
    atLeastOneOf := flags.atLeastOneOf.modify group fun candidates =>
      (if disabled then candidates else ∅).erase i }

/-- Drawing on behalf of something that keeps a state of its own. -/
def onSource {Own Value : Type}
    (attempt : Attempt (Source Rng) MachineError Value) :
    Attempt (Own × Source Rng) MachineError Value :=
  Attempt.zoom Prod.snd (fun outer source => (outer.1, source)) attempt

/-- Whether a rule is enabled, deciding it if need be. -/
def isEnabled (group i : Nat) :
    Attempt (FeatureFlags × Source Rng) MachineError Bool := do
  onSource (openSpan labelFeatureFlag)
  let (flags, _) ← Attempt.read
  let forced ← Attempt.ofExcept (flags.forced group i)
  let disabled ← onSource (drawWeighted sampler flags.pDisabled forced)
  Attempt.modify fun (flags, source) => (flags.decide group i disabled, source)
  onSource closeSpan
  return !disabled

/-- How a search among the members of a group ended. -/
inductive Search (Found : Type) where
  | found (rule : Nat)
  | exhausted (left : Found)

/-- Draw members until one is enabled, at most `tries` times; places known to
be disabled are not asked about again. -/
def tryMembers (group : Nat) (members : List Nat) :
    Nat → Finset Nat →
      Attempt (FeatureFlags × Source Rng) MachineError (Search (Finset Nat))
  | 0, knownBad => pure (.exhausted knownBad)
  | tries + 1, knownBad => do
      let k ← onSource (drawIndex sampler members.length)
      if k ∈ knownBad then tryMembers group members tries knownBad
      else do
        let rule ← Attempt.ofExcept (elementAt members k)
        let enabled ← isEnabled sampler group rule
        if enabled then return .found rule
        else tryMembers group members tries (insert k knownBad)

/-- Record the place of a rule that was chosen by enumeration. -/
def recordChoice (members : List Nat) (k : Nat) :
    Attempt (FeatureFlags × Source Rng) MachineError Unit := do
  let _ ← onSource (drawValue sampler
    (.integerForced 0 (members.length - 1) k))
  return ()

/-- Walk through the members from place `k` on, collecting the enabled places
until there are more than `speculative` of them. -/
def enumerateMembers (group : Nat) (members : List Nat) (knownBad : Finset Nat)
    (speculative : Nat) :
    Nat → List Nat → List Nat →
      Attempt (FeatureFlags × Source Rng) MachineError (Search (List Nat))
  | _, [], allowed => pure (.exhausted allowed)
  | k, rule :: rest, allowed =>
      if k ∈ knownBad then
        enumerateMembers group members knownBad speculative (k + 1) rest
          allowed
      else do
        let enabled ← isEnabled sampler group rule
        if enabled then
          if (allowed ++ [k]).length > speculative then do
            recordChoice sampler members k
            return .found rule
          else
            enumerateMembers group members knownBad speculative (k + 1) rest
              (allowed ++ [k])
        else
          enumerateMembers group members knownBad speculative (k + 1) rest
            allowed

/-- Select an enabled rule: a few tries, then one of all that are left. -/
def selectRule (members : List Nat) (group : Nat) :
    Attempt (FeatureFlags × Source Rng) MachineError Nat := do
  match ← tryMembers sampler group members 3 ∅ with
  | .found rule => return rule
  | .exhausted knownBad =>
      let maxGood := members.length - knownBad.card
      let speculative ← onSource (drawIndex sampler maxGood)
      match ← enumerateMembers sampler group members knownBad speculative 0
          members [] with
      | .found rule => return rule
      | .exhausted allowed =>
          if allowed.isEmpty then
            Attempt.refuse (.assertion "!allowed.is_empty()")
          else do
            let j ← onSource (drawIndex sampler allowed.length)
            let k ← Attempt.ofExcept (elementAt allowed j)
            recordChoice sampler members k
            Attempt.ofExcept (elementAt members k)

end Flags

namespace NativeStateMachine

/-- Sort one more rule into the groups, which are in order of appearance. -/
def addRule (registered : List Int × List (List Nat)) (rule : Int × Nat) :
    List Int × List (List Nat) :=
  match registered.1.findIdx? (· = rule.1) with
  | some group =>
      (registered.1, registered.2.modify group (· ++ [rule.2]))
  | none => (registered.1 ++ [rule.1], registered.2 ++ [[rule.2]])

/-- The identifiers of the groups, and the rules of each. -/
def registerGroups (ruleGroups : List Int) : List Int × List (List Nat) :=
  ruleGroups.zipIdx.foldl addRule ([], [])

section Construction

variable {Rng : Type} (sampler : Sampler Rng)

def newWorkers (groups : List (List Nat)) (numRules : Nat) :
    Nat → Attempt (Source Rng) MachineError (List WorkerState)
  | 0 => pure []
  | count + 1 => do
      let flags ← FeatureFlags.new sampler groups numRules
      let rest ← newWorkers groups numRules count
      return {
        flags
        stepsDrawn := 0
        stepsRejected := 0
        ruleOutstanding := false
        retryPending := false } :: rest

def new (ruleGroups : List Int) (invariantAlwaysCheck : List Bool)
    (minConcurrency maxConcurrency : Int) :
    Attempt (Source Rng) MachineError NativeStateMachine := do
  if ruleGroups.isEmpty then
    Attempt.refuse (.assertion
      "Stateful testing: there must be at least one rule")
  else if ¬ (minConcurrency ≥ 1 ∧ minConcurrency ≤ maxConcurrency) then
    Attempt.refuse (.assertion
      "Stateful testing: concurrency bounds must satisfy 1 <= min <= max")
  else do
    let (groupIds, groups) := registerGroups ruleGroups
    let concurrency ← drawConcurrency sampler minConcurrency maxConcurrency
    let workers ← newWorkers sampler groups ruleGroups.length
      concurrency.toNat
    return {
      groups
      groupIds
      concurrency
      currentGroup := 0
      roundsStarted := 0
      roundsRejected := 0
      invariantAlwaysCheck
      workers }

end Construction

section Calls

variable {Rng : Type} (sampler : Sampler Rng) (stepCount : Int)

/-- What the decision to go on is forced to at a join point. -/
def forcedContinue (machine : NativeStateMachine) : Option Bool :=
  let countedRounds := machine.roundsStarted - machine.roundsRejected
  let attemptCap :=
    if countedRounds = 0 then
      max (saturatingMul stepCount attemptMultiplier) minAttemptsWithoutSuccess
    else saturatingMul stepCount attemptMultiplier
  if countedRounds ≥ stepCount ∨ machine.roundsStarted ≥ attemptCap then
    some false
  else if machine.roundsStarted = 0 then some true
  else none

/-- The machine in a new round on a group. -/
def startRound (machine : NativeStateMachine) (group : Nat) :
    NativeStateMachine :=
  { machine with
    workers := machine.workers.map WorkerState.refreshed
    currentGroup := group
    roundsStarted := machine.roundsStarted + 1 }

/-- The group of the next round, drawn unless there is only one. -/
def drawGroup (machine : NativeStateMachine) :
    Attempt (NativeStateMachine × Source Rng) MachineError Nat :=
  if machine.groups.length = 1 then pure 0
  else onSource (drawIndex sampler machine.groups.length)

/-- Start a round and name its group. -/
def enterRound (machine : NativeStateMachine) (group : Nat) :
    Attempt (NativeStateMachine × Source Rng) MachineError (Option Int) := do
  Attempt.modify fun outer => (outer.1.startRound group, outer.2)
  let id ← Attempt.ofExcept (elementAt machine.groupIds group)
  return some id

/-- Start the next round, or stop the machine. -/
def nextGroup :
    Attempt (NativeStateMachine × Source Rng) MachineError (Option Int) := do
  let (machine, _) ← Attempt.read
  let more ← onSource (drawWeightedPrecise sampler pContinue
    (machine.forcedContinue stepCount))
  if more then do
    let group ← drawGroup sampler machine
    enterRound machine group
  else return none

/-- The index of a worker, if there is one of that number. -/
def checkedWorker (machine : NativeStateMachine) (workerIndex : Int) :
    Except MachineError Nat :=
  if 0 ≤ workerIndex ∧ workerIndex.toNat < machine.workers.length then
    .ok workerIndex.toNat
  else .error (.invalidArgument
    s!"worker_index must be in [0, {machine.concurrency}), got {workerIndex}")

/-- The chance that a worker runs another rule of its round. -/
def workerPContinue (worker : WorkerState) : Binary64 :=
  let completed := worker.stepsDrawn - worker.stepsRejected
  let attemptCap := saturatingMul maxRoundRules attemptMultiplier
  if worker.stepsDrawn ≥ attemptCap ∨ completed ≥ maxRoundRules then .zero
  else if worker.retryPending then .ofNat 1
  else .ofRatio (maxRoundRules - completed).toNat
    (maxRoundRules - completed + 1).toNat

/-- A worker that was handed a rule. -/
def handedRule (worker : WorkerState) : WorkerState :=
  { worker with
    stepsDrawn := worker.stepsDrawn + 1
    ruleOutstanding := true
    retryPending := false }

/-- Update one worker. -/
def updateWorker (machine : NativeStateMachine) (workerIdx : Nat)
    (f : WorkerState → WorkerState) : NativeStateMachine :=
  { machine with workers := machine.workers.modify workerIdx f }

/-- Work on the flags of one worker. -/
def onFlags {Value : Type} (workerIdx : Nat) (flags : FeatureFlags)
    (attempt : Attempt (FeatureFlags × Source Rng) MachineError Value) :
    Attempt (NativeStateMachine × Source Rng) MachineError Value :=
  Attempt.zoom (fun outer => (flags, outer.2))
    (fun outer inner => (outer.1.updateWorker workerIdx fun worker =>
      { worker with flags := inner.1 }, inner.2)) attempt

/-- Hand a rule of the current group to a worker. -/
def handOut (machine : NativeStateMachine) (workerIdx : Nat)
    (worker : WorkerState) :
    Attempt (NativeStateMachine × Source Rng) MachineError (Option Int) := do
  let members ← Attempt.ofExcept (elementAt machine.groups machine.currentGroup)
  let rule ← onFlags workerIdx worker.flags
    (selectRule sampler members machine.currentGroup)
  Attempt.modify fun (machine, source) =>
    (machine.updateWorker workerIdx handedRule, source)
  return some rule

/-- The next rule for a worker, or nothing once its round is over. -/
def nextRule (workerIndex : Int) :
    Attempt (NativeStateMachine × Source Rng) MachineError (Option Int) := do
  let (machine, _) ← Attempt.read
  let workerIdx ← Attempt.ofExcept (machine.checkedWorker workerIndex)
  if machine.roundsStarted = 0 then
    Attempt.refuse (.invalidArgument
      "state machine rule requested before the first next_group call")
  else do
    let worker ← Attempt.ofExcept (elementAt machine.workers workerIdx)
    if machine.concurrency = 1 then
      if worker.stepsDrawn ≥ 1 then return none
      else handOut sampler machine workerIdx worker
    else do
      let more ← onSource
        (drawWeighted sampler (workerPContinue worker) none)
      if more then handOut sampler machine workerIdx worker
      else return none

/-- A worker whose rule was rejected. -/
def rejectedRule (worker : WorkerState) : WorkerState :=
  { worker with
    ruleOutstanding := false
    stepsRejected := worker.stepsRejected + 1
    retryPending := true }

/-- The machine after the rule of a worker was rejected. -/
def rejectRule (machine : NativeStateMachine) (workerIdx : Nat) :
    NativeStateMachine :=
  let machine := machine.updateWorker workerIdx rejectedRule
  if machine.concurrency = 1 then
    { machine with roundsRejected := machine.roundsRejected + 1 }
  else machine

/-- Report that the rule a worker was handed last did not run. -/
def ruleRejected (machine : NativeStateMachine) (workerIndex : Int) :
    Except MachineError Unit × NativeStateMachine :=
  match machine.checkedWorker workerIndex with
  | .error error => (.error error, machine)
  | .ok workerIdx =>
      match elementAt machine.workers workerIdx with
      | .error error => (.error error, machine)
      | .ok worker =>
          if worker.ruleOutstanding then
            (.ok (), machine.rejectRule workerIdx)
          else
            (.error (.invalidArgument
              "rule_rejected called with no outstanding rule"), machine)

/-- Whether an invariant is to be checked at a join point. -/
def shouldCheckInvariant (invariantIndex : Int) :
    Attempt (NativeStateMachine × Source Rng) MachineError Bool := do
  let (machine, _) ← Attempt.read
  let always :=
    if 0 ≤ invariantIndex then
      machine.invariantAlwaysCheck[invariantIndex.toNat]?
    else none
  match always with
  | none => Attempt.refuse (.invalidArgument
      ("invariant_index must be in [0, " ++
        toString machine.invariantAlwaysCheck.length ++ "), got " ++
        toString invariantIndex))
  | some true => return true
  | some false => onSource (drawWeightedPrecise sampler
      (.ofRatio 1 (Binary64.roundNat stepCount.toNat)) none)

end Calls

end NativeStateMachine

end Hegel
