/-
The shrinker's bookkeeping.  A candidate is run through the test function and
becomes the current target when it fails and is smaller; the sequence it
displaces, the stall window and the positions that changed are recorded on the
way.  The history of runs is kept for observers and read by no operation.
-/
import Hegel.SortKey
import Hegel.ExecCache
import Hegel.State
import Hegel.Lib.Program
import Mathlib.Data.Finset.Basic

namespace Hegel

def maxShrinks : Nat := 500

inductive HealthCheck where
  | filterTooMuch
  | tooSlow
  | testCasesTooLarge
  | largeInitialTestCase
deriving DecidableEq

/-- Why a run ends without a report. -/
inductive RunError where
  | healthCheck (check : HealthCheck)
  | flaky
  | nonDeterministic (mismatch : KindMismatch)
  | unsatisfiable
  | usageError
  | internal (error : InternalError)
deriving DecidableEq

section Candidates

/-- A value under a constraint, if it fits. -/
def ChoiceKind.resolve : ChoiceKind → ChoiceValue → Option ChoiceData
  | .integer ic, .integer v =>
      if ic.validate v then some (.integer ic v) else none
  | .boolean bc, .boolean v => some (.boolean bc v)
  | .float fc, .float v => if fc.validate v then some (.float fc v) else none
  | .bytes bc, .bytes v => if bc.validate v then some (.bytes bc v) else none
  | .string sc, .string v =>
      if sc.validate v then some (.string sc v) else none
  | _, _ => none

namespace ChoiceData

/-- The same constraint with another value, if it fits; a clone takes a
realized record. -/
def withValue : ChoiceData → ChoiceValue → Option ChoiceData
  | .clone _, .clone (.realized stream) => some (.clone stream)
  | .clone _, .clone (.values _ _) => none
  | data, value => data.kind.resolve value

def isSimplest : ChoiceData → Except InternalError Bool
  | .integer ic v => .ok (decide (v = ic.simplest))
  | .boolean _ v => .ok (!v)
  | .float fc v => do return decide (v.bits = (← fc.simplest).bits)
  | .bytes bc v => .ok (decide (v = bc.simplest))
  | .string sc v => do return decide (v = (← sc.simplest))
  | .clone stream => .ok stream.nodes.isEmpty

def withSimplest : ChoiceData → Except InternalError ChoiceData
  | .integer ic _ => .ok (.integer ic ic.simplest)
  | .boolean bc _ => .ok (.boolean bc false)
  | .float fc _ => do return .float fc (← fc.simplest)
  | .bytes bc _ => .ok (.bytes bc bc.simplest)
  | .string sc _ => do return .string sc (← sc.simplest)
  | .clone _ => .ok (.clone .empty)

/-- Which variant the data is. -/
def discriminant : ChoiceData → Nat
  | .integer _ _ => 0
  | .boolean _ _ => 1
  | .float _ _ => 2
  | .bytes _ _ => 3
  | .string _ _ => 4
  | .clone _ => 5

end ChoiceData

namespace ChoiceNode

def withValue (node : ChoiceNode) (value : ChoiceValue) : Option ChoiceNode :=
  (node.data.withValue value).map fun data => .mk data node.wasForced

def withSimplest (node : ChoiceNode) : Except InternalError ChoiceNode := do
  return .mk (← node.data.withSimplest) node.wasForced

end ChoiceNode

end Candidates

/-- What the shrinker asks of the test function: replay nodes, or replay values
and draw at random beyond them. -/
inductive ShrinkRun where
  | full (nodes : List ChoiceNode)
  | probe (prefixValues : List ChoiceValue) (maxSize : Nat)

/-- What one run showed: whether it failed as wanted, and what it recorded. -/
structure ShrinkOutcome where
  isInteresting : Bool
  actualNodes : List ChoiceNode
  actualSpans : List Span

/-- What ends a shrink early. -/
inductive ShrinkHalt where
  | stop
  | error (error : RunError)
deriving DecidableEq

/-- The test function and the clock.  Both may answer differently each time
they are asked. -/
structure ShrinkProbe (World : Type) where
  run : World → ShrinkRun → Except ShrinkHalt ShrinkOutcome × World
  now : World → Option Nat × World

structure Shrinker where
  currentNodes : List ChoiceNode
  currentSpans : List Span
  improvements : Nat
  downgraded : List (List ChoiceValue)
  maxImprovements : Nat
  calls : Nat
  callsAtLastShrink : Nat
  maxStall : Nat
  lastCheckpointNodes : List ChoiceNode
  allChangedNodes : Finset Nat
  deadline : Option Nat
  timedOut : Bool

namespace Shrinker

def withProbe (initialNodes : List ChoiceNode) (initialSpans : List Span) :
    Shrinker where
  currentNodes := initialNodes
  currentSpans := initialSpans
  improvements := 0
  downgraded := []
  maxImprovements := maxShrinks
  calls := 0
  callsAtLastShrink := 0
  maxStall := maxShrinks
  lastCheckpointNodes := initialNodes
  allChangedNodes := ∅
  deadline := none
  timedOut := false

/-- Positions whose value differs join the changed ones; a change of shape
forgets them all. -/
def updateChangeTracking (prev new : List ChoiceNode) (changed : Finset Nat) :
    Finset Nat :=
  let shapePreserved := decide (prev.length = new.length) &&
    (prev.zip new).all fun (a, b) =>
      decide (a.data.discriminant = b.data.discriminant)
  if shapePreserved then
    (prev.zip new).zipIdx.foldl
      (fun changed entry =>
        if entry.1.1.valueRef.eq entry.1.2.valueRef then changed
        else insert entry.2 changed)
      changed
  else ∅

/-- Make a run's nodes and spans the current target. -/
def acceptImprovement (shrinker : Shrinker) (newNodes : List ChoiceNode)
    (newSpans : List Span) : Shrinker :=
  let grown :=
    min ((shrinker.calls - shrinker.callsAtLastShrink) * 2) usizeMax
  { shrinker with
    downgraded :=
      shrinker.downgraded ++ [shrinker.currentNodes.map ChoiceNode.value]
    improvements := shrinker.improvements + 1
    maxStall := if grown > shrinker.maxStall then grown else shrinker.maxStall
    callsAtLastShrink := shrinker.calls
    allChangedNodes := updateChangeTracking shrinker.lastCheckpointNodes
      newNodes shrinker.allChangedNodes
    currentNodes := newNodes
    currentSpans := newSpans }

/-- Forget the changed positions and compare with the current target from now
on. -/
def clearChangeTracking (shrinker : Shrinker) : Shrinker :=
  { shrinker with
    allChangedNodes := ∅
    lastCheckpointNodes := shrinker.currentNodes }

/-- Too many calls went by without an improvement. -/
def stalled (shrinker : Shrinker) : Bool :=
  decide (shrinker.improvements > 0) &&
    decide (shrinker.calls - shrinker.callsAtLastShrink ≥ shrinker.maxStall)

/-- The candidate changes a forced value in place. -/
def changesForced (shrinker : Shrinker) (nodes : List ChoiceNode) : Bool :=
  decide (nodes.length = shrinker.currentNodes.length) &&
    (nodes.zip shrinker.currentNodes).any fun (candidate, current) =>
      current.wasForced && !candidate.valueRef.eq current.valueRef

end Shrinker

/-- What became of a run: its nodes and spans replaced the target, through
acceptance or as an equal sequence with canonical values; it was compared with
the target and left; or its failure was not looked at. -/
inductive ShrinkEvent where
  | accepted (target : List ChoiceNode) (outcome : ShrinkOutcome)
  | canonicalised (target : List ChoiceNode) (outcome : ShrinkOutcome)
  | passedOver (target : List ChoiceNode) (outcome : ShrinkOutcome)
  | inspected (outcome : ShrinkOutcome)

def ShrinkEvent.outcome : ShrinkEvent → ShrinkOutcome
  | accepted _ outcome => outcome
  | canonicalised _ outcome => outcome
  | passedOver _ outcome => outcome
  | inspected outcome => outcome

structure ShrinkState (World : Type) where
  shrinker : Shrinker
  world : World
  history : List ShrinkEvent

/-- A shrinker that has done nothing yet. -/
def ShrinkState.start {World : Type} (initialNodes : List ChoiceNode)
    (initialSpans : List Span) (deadline : Option Nat) (world : World) :
    ShrinkState World :=
  ⟨{ Shrinker.withProbe initialNodes initialSpans with deadline := deadline },
    world, []⟩

abbrev ShrinkM (World : Type) := Program (ShrinkState World) ShrinkHalt

section Operations

variable {World : Type}

def modifyShrinker (change : Shrinker → Shrinker) : ShrinkM World PUnit :=
  modify fun state => { state with shrinker := change state.shrinker }

def note (event : ShrinkEvent) : ShrinkM World PUnit :=
  modify fun state => { state with history := state.history ++ [event] }

variable (testFn : ShrinkProbe World)

/-- Whether the deadline has passed; once it has, the clock is not asked
again. -/
def pastDeadline : ShrinkM World Bool :=
  .ofExec fun state =>
    if state.shrinker.timedOut then (.ok true, state)
    else
      match state.shrinker.deadline with
      | none => (.ok false, state)
      | some deadline =>
          let (now, world) := testFn.now state.world
          let passed := now.any fun now => decide (now ≥ deadline)
          (.ok passed,
            { state with
              world := world
              shrinker := { state.shrinker with timedOut := passed } })

/-- Run the test function. -/
def callTestFn (run : ShrinkRun) : ShrinkM World ShrinkOutcome :=
  .ofExec fun state =>
    let (answer, world) := testFn.run state.world run
    (answer, { state with world := world })

/-- Run the test function unless the deadline has passed. -/
def runTestFn (run : ShrinkRun) : ShrinkM World ShrinkOutcome := do
  if ← pastDeadline testFn then throw .stop
  else callTestFn testFn run

/-- Run the test function and count the call; a smaller failure becomes the
target. -/
def adopt (run : ShrinkRun) : ShrinkM World (Bool × ShrinkOutcome) := do
  let outcome ← runTestFn testFn run
  modifyShrinker fun shrinker => { shrinker with calls := shrinker.calls + 1 }
  let target := (← get).shrinker.currentNodes
  if outcome.isInteresting ∧
      nodesSortKeyCmp outcome.actualNodes target = .lt then
    note (.accepted target outcome)
    modifyShrinker fun shrinker =>
      shrinker.acceptImprovement outcome.actualNodes outcome.actualSpans
    return (true, outcome)
  else
    note (.passedOver target outcome)
    return (false, outcome)

/-- Try a candidate; the answer is whether it is the target now. -/
def consider (nodes : List ChoiceNode) : ShrinkM World Bool := do
  let shrinker := (← get).shrinker
  let current := shrinker.currentNodes
  let cmp := if nodes.length > current.length then
    nodes.take current.length else nodes
  if nodesSortKeyCmp nodes current = .eq then return true
  else if nodesSortKeyCmp current cmp = .lt then return false
  else if shrinker.changesForced nodes then return false
  else if shrinker.improvements ≥ shrinker.maxImprovements then throw .stop
  else if shrinker.stalled then return false
  else return (← adopt testFn (.full nodes)).1

/-- Replay values and draw at random beyond them. -/
def probe (prefixValues : List ChoiceValue) (maxSize : Nat) :
    ShrinkM World PUnit := do
  let shrinker := (← get).shrinker
  if shrinker.improvements ≥ shrinker.maxImprovements then throw .stop
  else if shrinker.stalled then return ()
  else
    let _ ← adopt testFn (.probe prefixValues maxSize)
    return ()

/-- Put values at positions, if all of them exist, are free and fit. -/
def assignValues : List (Nat × ChoiceValue) → List ChoiceNode →
    Option (List ChoiceNode)
  | [], attempt => some attempt
  | (i, v) :: rest, attempt => do
      let node ← attempt[i]?
      if node.wasForced then none
      else
        let replaced ← node.withValue v
        assignValues rest (attempt.set i replaced)

/-- Try replacing the values at some positions. -/
def replace (values : List (Nat × ChoiceValue)) : ShrinkM World Bool := do
  match assignValues values (← get).shrinker.currentNodes with
  | none => return false
  | some attempt => consider testFn attempt

/-- Run the test function for what it records; whether it failed is not looked
at and the call is not counted. -/
def inspect (run : ShrinkRun) : ShrinkM World ShrinkOutcome := do
  let outcome ← runTestFn testFn run
  note (.inspected outcome)
  return outcome

/-- Run the test function on a sequence that orders like the target with a
canonical value in it; a failure that is no larger becomes the target without
counting as an improvement. -/
def canonicalise (attempt : List ChoiceNode) : ShrinkM World PUnit := do
  let outcome ← runTestFn testFn (.full attempt)
  modifyShrinker fun shrinker => { shrinker with calls := shrinker.calls + 1 }
  let target := (← get).shrinker.currentNodes
  if outcome.isInteresting ∧
      (nodesSortKeyCmp outcome.actualNodes target).isLE then
    note (.canonicalised target outcome)
    modifyShrinker fun shrinker =>
      { shrinker with
        currentNodes := outcome.actualNodes
        currentSpans := outcome.actualSpans }
  else note (.passedOver target outcome)

end Operations

end Hegel
