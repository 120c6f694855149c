/-
Passes of the shrinker that do more than propose candidates: they run the test
function themselves, look at what a run recorded, or shrink the stream of a
clone with a shrinker of its own.  A loop whose bound can move is cut off after
a number of rounds.
-/
import Hegel.Shrinker

namespace Hegel

section Indices

def BooleanChoice.toIndex (_ : BooleanChoice) (value : Bool) : Nat :=
  value.toNat

def BooleanChoice.fromIndex (_ : BooleanChoice) (index : Nat) : Option Bool :=
  if index = 0 then some false else if index = 1 then some true else none

/-- The dense index of a value; a clone has none. -/
def ChoiceData.toIndex : ChoiceData → Except InternalError (Option Nat)
  | .integer ic v => .ok (some (ic.toIndex v))
  | .boolean bc v => .ok (some (bc.toIndex v))
  | .float fc v => do return some (← fc.toIndex v)
  | .bytes bc v => .ok (some (bc.toIndex v))
  | .string sc v => .ok (some (sc.toIndex v))
  | .clone _ => .ok none

/-- The value at a dense index. -/
def ChoiceKind.fromIndex (kind : ChoiceKind) (index : Nat) :
    Except InternalError (Option ChoiceValue) :=
  match kind with
  | .integer ic => .ok ((ic.fromIndex index).map .integer)
  | .boolean bc => .ok ((bc.fromIndex index).map .boolean)
  | .float fc => do return (← fc.fromIndex index).map .float
  | .bytes bc => do return (← bc.fromIndex index).map .bytes
  | .string sc => do return (← sc.fromIndex index).map .string
  | .clone => .ok none

end Indices

section Passes

variable {World : Type}

/-- An internal error ends the shrink. -/
def liftEngine {Value : Type} : Except InternalError Value → ShrinkM World Value
  | .ok value => pure value
  | .error error => throw (.error (.internal error))

variable (testFn : ShrinkProbe World)

section Discarded

/-- The ranges of discarded spans that do not overlap an earlier one. -/
def discardedRanges (spans : List Span) : List (Nat × Nat) :=
  spans.foldl (fun discarded span =>
    if span.stop > span.start ∧ span.discarded = true ∧
        discarded.getLast?.all (fun last => decide (span.start ≥ last.2)) then
      discarded ++ [(span.start, span.stop)]
    else discarded) []

/-- The nodes without a range. -/
def drain (nodes : List ChoiceNode) (range : Nat × Nat) : List ChoiceNode :=
  nodes.take range.1 ++ nodes.drop range.2

/-- Delete all discarded spans at once, again and again. -/
def removeDiscarded : Nat → ShrinkM World Bool
  | 0 => return false
  | rounds + 1 => do
      let shrinker := (← get).shrinker
      let discarded := discardedRanges shrinker.currentSpans
      if discarded.isEmpty then return true
      else if ← consider testFn
          (discarded.reverse.foldl drain shrinker.currentNodes) then
        removeDiscarded rounds
      else return false

end Discarded

section TrivialSpans

/-- Whether every choice of a span is forced or simplest. -/
def spanTrivial (spans : List Span) (spanIdx : Nat)
    (nodes : List ChoiceNode) : Except InternalError Bool :=
  match spans[spanIdx]? with
  | none => .ok false
  | some span =>
      let stop := min span.stop nodes.length
      if span.start > stop then .ok false
      else ((nodes.take stop).drop span.start).foldlM
        (fun trivial node =>
          if trivial then
            if node.wasForced then .ok true else node.data.isSimplest
          else .ok false)
        true

def simplifyNode (node : ChoiceNode) : Except InternalError ChoiceNode := do
  if node.wasForced then return node
  else if ← node.data.isSimplest then return node
  else node.withSimplest

/-- The nodes with every free choice of a span made simplest. -/
def simplifySpan (span : Span) (nodes : List ChoiceNode) :
    Except InternalError (List ChoiceNode) := do
  let inside ← ((nodes.take span.stop).drop span.start).mapM simplifyNode
  return nodes.take span.start ++ inside ++ nodes.drop span.stop

/-- Splice what a run recorded for a span into the target. -/
def retrySpan (i : Nat) (span : Span) (outcome : ShrinkOutcome) :
    ShrinkM World PUnit := do
  match outcome.actualSpans[i]? with
  | none => return ()
  | some newSpan =>
      if newSpan.start ≤ newSpan.stop ∧
          newSpan.stop ≤ outcome.actualNodes.length then
        let current := (← get).shrinker.currentNodes
        let _ ← consider testFn (current.take span.start ++
          (outcome.actualNodes.take newSpan.stop).drop newSpan.start ++
            current.drop span.stop)
        return ()
      else return ()

/-- Try one span with its simplest values, then with what they led to. -/
def tryTrivialSpan (i : Nat) (span : Span) : ShrinkM World PUnit := do
  let shrinker := (← get).shrinker
  if span.stop > shrinker.currentNodes.length then return ()
  else if ← liftEngine
      (spanTrivial shrinker.currentSpans i shrinker.currentNodes) then
    return ()
  else
    let attempt ← liftEngine (simplifySpan span shrinker.currentNodes)
    let (adopted, outcome) ← adopt testFn (.full attempt)
    if adopted then return ()
    else if (← get).shrinker.improvements = shrinker.improvements then
      retrySpan testFn i span outcome
    else return ()

def tryTrivialSpans : Nat → Nat → ShrinkM World PUnit
  | 0, _ => return ()
  | rounds + 1, i => do
      match (← get).shrinker.currentSpans[i]? with
      | none => return ()
      | some span =>
          tryTrivialSpan testFn i span
          tryTrivialSpans rounds (i + 1)

end TrivialSpans

section SpecialFloats

/-- The float at a position, if there still is one. -/
def floatAt (i : Nat) : ShrinkM World (Option Binary64) := do
  match (← get).shrinker.currentNodes[i]? with
  | some (.mk (.float _ v) _) => return some v
  | _ => return none

/-- The first of some admissible values that can stand at a position. -/
def stepTo (fc : FloatChoice) (i : Nat) :
    List Binary64 → ShrinkM World Bool
  | [] => return false
  | cand :: rest => do
      if fc.validate cand then
        if ← replace testFn [(i, .float cand)] then return true
        else stepTo fc i rest
      else stepTo fc i rest

/-- Replace a NaN by a number, or else by the canonical NaN.  All NaNs have one
sort key, so the latter is no improvement. -/
def canonicaliseNan (fc : FloatChoice) (i : Nat) (v : Binary64) :
    ShrinkM World PUnit := do
  let stepped ← stepTo testFn fc i [.maxFinite, .infinity]
  if !stepped && decide (v.bits ≠ Binary64.nan.bits) &&
      fc.validate .nan then
    let current := (← get).shrinker.currentNodes
    match current[i]? with
    | none => return ()
    | some node =>
        canonicalise testFn
          (current.set i (.mk (.float fc .nan) node.wasForced))
  else return ()

/-- Replace an infinity that is still there by the largest number. -/
def leaveInfinity (fc : FloatChoice) (i : Nat) : ShrinkM World PUnit := do
  match ← floatAt i with
  | none => return ()
  | some v =>
      if v.isInfinite then
        let cand := if Binary64.zero.lt v then .maxFinite
          else Binary64.maxFinite.neg
        let _ ← stepTo testFn fc i [cand]
        return ()
      else return ()

/-- Replace an infinity by the positive one, then by the largest number. -/
def stepFromInfinity (fc : FloatChoice) (i : Nat) (v : Binary64) :
    ShrinkM World PUnit := do
  if v.lt .zero then
    let _ ← stepTo testFn fc i [.infinity]
    leaveInfinity testFn fc i
  else leaveInfinity testFn fc i

def leaveNan (fc : FloatChoice) (i : Nat) : ShrinkM World PUnit := do
  match ← floatAt i with
  | none => return ()
  | some v =>
      if v.isNan then canonicaliseNan testFn fc i v else return ()

/-- Deal with infinities, then with NaNs, at a position that still holds a
float. -/
def leaveSpecial (fc : FloatChoice) (i : Nat) : ShrinkM World PUnit := do
  match ← floatAt i with
  | none => return ()
  | some v =>
      if v.isInfinite then
        stepFromInfinity testFn fc i v
        leaveNan testFn fc i
      else leaveNan testFn fc i

/-- The part of shrinking a float that deals with infinities and NaNs. -/
def shrinkSpecialFloat (i : Nat) : ShrinkM World PUnit := do
  match (← get).shrinker.currentNodes[i]? with
  | some (.mk (.float fc v) _) =>
      let s ← liftEngine fc.simplest
      if s.bits ≠ v.bits then
        let _ ← replace testFn [(i, .float s)]
        leaveSpecial testFn fc i
      else leaveSpecial testFn fc i
  | _ => return ()

end SpecialFloats

section Mutation

def randomAttempts : Nat := 3

def divergentRandomAttempts : Nat := 32

def maxMutateNodes : Nat := 32

/-- Replay a snapshot with one value mutated; the answer is whether the run
kept its length but drew another kind of choice after the mutation. -/
def replayObservingDivergence (snapshot : List ChoiceNode)
    (newVal : ChoiceValue) (i : Nat) : ShrinkM World Bool := do
  let shrinker := (← get).shrinker
  if shrinker.improvements ≥ shrinker.maxImprovements then throw .stop
  else if shrinker.stalled then return false
  else
    match snapshot[i]?.bind (·.withValue newVal) with
    | none => return false
    | some replaced =>
        let (_, outcome) ← adopt testFn (.full (snapshot.set i replaced))
        return decide (outcome.actualNodes.length = snapshot.length) &&
          ((outcome.actualNodes.zip snapshot).drop (i + 1)).any
            fun (actual, expected) => decide (actual.kind ≠ expected.kind)

def indexOffset (currentIdx delta : Nat) (up : Bool) : Option Nat :=
  if up then some (currentIdx + delta)
  else if currentIdx < delta then none
  else some (currentIdx - delta)

/-- The values with an index near a node's own. -/
def mutationCandidates (node : ChoiceNode) (currentIdx : Nat) :
    Except InternalError (List ChoiceValue) :=
  ([1, 2, 3, 4, 5].flatMap fun delta => [(delta, true), (delta, false)]).foldlM
    (fun candidates (delta, up) =>
      match indexOffset currentIdx delta up with
      | none => .ok candidates
      | some newIdx => do
          match ← node.kind.fromIndex newIdx with
          | some v =>
              if !v.eq node.value && !candidates.any v.eq then
                return candidates ++ [v]
              else return candidates
          | none => return candidates)
    []

/-- Several random continuations of the same values. -/
def probeAgain (prefixValues : List ChoiceValue) (maxSize : Nat) :
    Nat → ShrinkM World PUnit
  | 0 => return ()
  | attempts + 1 => do
      probe testFn prefixValues maxSize
      probeAgain prefixValues maxSize attempts

/-- Mutate a later node too, with the nodes in between at their simplest. -/
def mutatePair (snapshot : List ChoiceNode) (prefixValues : List ChoiceValue)
    (maxSize i j : Nat) : ShrinkM World PUnit := do
  match snapshot[j]? with
  | none => return ()
  | some node =>
      match ← liftEngine (node.kind.fromIndex 1) with
      | none => return ()
      | some unitVal =>
          let between ← liftEngine (((snapshot.take j).drop (i + 1)).mapM
            fun node => node.data.simplestValue)
          probeAgain testFn (prefixValues ++ between ++ [unitVal]) maxSize
            randomAttempts

def mutateTo (snapshot : List ChoiceNode) (i : Nat) (newVal : ChoiceValue) :
    ShrinkM World PUnit := do
  let prefixValues := (snapshot.take i).map ChoiceNode.value ++ [newVal]
  let maxSize := flattenedLen snapshot
  if ← replayObservingDivergence testFn snapshot newVal i then
    probeAgain testFn prefixValues maxSize divergentRandomAttempts
    mutatePair testFn snapshot prefixValues maxSize i (i + 1)
    mutatePair testFn snapshot prefixValues maxSize i (i + 2)
  else return ()

/-- Mutate one node of the target, unless it is forced or a sequence. -/
def mutateNode (i : Nat) (snapshot : List ChoiceNode) (node : ChoiceNode) :
    ShrinkM World PUnit := do
  if node.wasForced || node.data.discriminant = 3 ||
      node.data.discriminant = 4 then
    return ()
  else
    match ← liftEngine node.data.toIndex with
    | none => return ()
    | some currentIdx =>
        let candidates ← liftEngine (mutationCandidates node currentIdx)
        candidates.forM (mutateTo testFn snapshot i)

def mutateFrom : Nat → Nat → ShrinkM World PUnit
  | 0, _ => return ()
  | rounds + 1, i => do
      let snapshot := (← get).shrinker.currentNodes
      match snapshot[i]? with
      | none => return ()
      | some node =>
          mutateNode testFn i snapshot node
          mutateFrom rounds (i + 1)

def mutateAndShrink (rounds : Nat) : ShrinkM World PUnit := do
  if (← get).shrinker.currentNodes.length > maxMutateNodes then return ()
  else mutateFrom testFn rounds 0

end Mutation

section Deletion

/-- The first of some regions whose deletion is considered successfully. -/
def deleteRegion (attempt : List ChoiceNode) (deficit : Nat) :
    List Nat → ShrinkM World Bool
  | [] => return false
  | j :: rest => do
      if ← consider testFn (attempt.take j ++ attempt.drop (j + deficit)) then
        return true
      else deleteRegion attempt deficit rest

/-- Replace a value; when the run with it comes out shorter, delete as much
after it. -/
def tryReplaceWithDeletion (idx : Nat) (value : ChoiceValue)
    (expectedLen : Nat) : ShrinkM World Bool := do
  if ← replace testFn [(idx, value)] then return true
  else
    let current := (← get).shrinker.currentNodes
    match current[idx]?.bind (·.withValue value) with
    | none => return false
    | some replaced =>
        let attempt := current.set idx replaced
        let outcome ← inspect testFn (.full attempt)
        let deficit := expectedLen - outcome.actualNodes.length
        let start := attempt.length - deficit
        if outcome.actualNodes.length ≥ expectedLen then return false
        else if start ≤ idx then return false
        else
          deleteRegion testFn attempt deficit
            (List.range' (idx + 1) (start - idx)).reverse

end Deletion

section Alternatives

/-- Random continuations until one improves the target. -/
def probeUntilImproved (prefixValues : List ChoiceValue)
    (maxSize epoch : Nat) : Nat → ShrinkM World Bool
  | 0 => return false
  | attempts + 1 => do
      probe testFn prefixValues maxSize
      if (← get).shrinker.improvements > epoch then return true
      else probeUntilImproved prefixValues maxSize epoch attempts

/-- Lower an integer, repairing what follows at random. -/
def tryLowerNodeAsAlternative (i : Nat) (v : Int) : ShrinkM World Bool := do
  if ← replace testFn [(i, .integer v)] then return true
  else
    let shrinker := (← get).shrinker
    let prefixValues :=
      (shrinker.currentNodes.take i).map ChoiceNode.value ++ [.integer v]
    probeUntilImproved testFn prefixValues
      (flattenedLen shrinker.currentNodes + 16) shrinker.improvements 3

/-- The first of some smaller values that an integer can be lowered to. -/
def lowerTo (i : Nat) : List Int → ShrinkM World PUnit
  | [] => return ()
  | v :: rest => do
      if ← tryLowerNodeAsAlternative testFn i v then return ()
      else lowerTo i rest

/-- Two sequences differ in length or in a later kind of choice. -/
def shapeChanged (i : Nat) (current actual : List ChoiceNode) : Bool :=
  decide (actual.length ≠ current.length) ||
    ((current.zip actual).drop (i + 1)).any fun (a, b) =>
      decide (a.data.discriminant ≠ b.data.discriminant)

/-- Lower a small integer that selects a branch: only when zero in its place
changes the shape of the run. -/
def reduceAlternative (i : Nat) (current : List ChoiceNode)
    (node : ChoiceNode) : ShrinkM World PUnit := do
  match node with
  | .mk (.integer ic currentVal) wasForced =>
      if wasForced || currentVal > 10 || ic.minValue ≠ 0 then return ()
      else
        let zeroed := current.set i (.mk (.integer ic 0) wasForced)
        let outcome ← inspect testFn (.full zeroed)
        if shapeChanged i current outcome.actualNodes then
          lowerTo testFn i
            ((List.range currentVal.toNat).map fun v => Int.ofNat v)
        else return ()
  | _ => return ()

def reduceEachAlternative : Nat → Nat → ShrinkM World PUnit
  | 0, _ => return ()
  | rounds + 1, i => do
      let current := (← get).shrinker.currentNodes
      match current[i]? with
      | none => return ()
      | some node =>
          reduceAlternative testFn i current node
          reduceEachAlternative rounds (i + 1)

end Alternatives

section Clones

/-- The template with another stream in the clone at a position. -/
def spliceChild (template : List ChoiceNode) (i : Nat)
    (child : List ChoiceNode) : List ChoiceNode :=
  match template[i]? with
  | none => template
  | some node => template.set i (.mk (.clone (.new child [])) node.wasForced)

/-- What a run realised for the clone at a position. -/
def realisedChild (i : Nat) (outcome : ShrinkOutcome) : ShrinkOutcome :=
  match outcome.actualNodes[i]? with
  | some (.mk (.clone stream) _) =>
      ⟨outcome.isInteresting, stream.nodes, stream.spans⟩
  | _ => ⟨false, [], []⟩

/-- What a nested shrinker asks for, asked of the outer test function. -/
def nestedRun (template : List ChoiceNode) (outerValues : List ChoiceValue)
    (i : Nat) : ShrinkRun → ShrinkRun
  | .full child => .full (spliceChild template i child)
  | .probe prefixValues maxSize =>
      let values := outerValues.set i (.clone (.fromValues prefixValues))
      .probe values
        (flattenedValuesLen values + (maxSize - prefixValues.length))

/-- The test function of a nested shrinker.  Its world is the outer one with
the outer history. -/
def nestedCloneProbe (template : List ChoiceNode)
    (outerValues : List ChoiceValue) (i : Nat) :
    ShrinkProbe (World × List ShrinkEvent) where
  run world req :=
    match testFn.run world.1 (nestedRun template outerValues i req) with
    | (.error halt, outer) => (.error halt, (outer, world.2))
    | (.ok outcome, outer) =>
        (.ok (realisedChild i outcome),
          (outer, world.2 ++ [.inspected outcome]))
  now world :=
    let (now, outer) := testFn.now world.1
    (now, (outer, world.2))

/-- A nested shrinker over the stream of a clone, watching the outer
deadline. -/
def nestedStart (state : ShrinkState World) (stream : RealizedStream) :
    ShrinkState (World × List ShrinkEvent) :=
  .start stream.nodes stream.spans state.shrinker.deadline
    (state.world, state.history)

/-- Go on after a nested shrink with the sequence it ended on; being stopped is
no error. -/
def afterNested (state : ShrinkState World) :
    Except ShrinkHalt PUnit × ShrinkState (World × List ShrinkEvent) →
      Except ShrinkHalt (List ChoiceNode) × ShrinkState World
  | (.error (.error error), final) =>
      (.error (.error error),
        ⟨state.shrinker, final.world.1, final.world.2⟩)
  | (_, final) =>
      (.ok final.shrinker.currentNodes,
        ⟨{ state.shrinker with
            timedOut := state.shrinker.timedOut || final.shrinker.timedOut },
          final.world.1, final.world.2⟩)

/-- Shrink the stream of the clone at a position by itself. -/
def shrinkNested
    (nestedShrink : ShrinkProbe (World × List ShrinkEvent) →
      ShrinkM (World × List ShrinkEvent) PUnit)
    (i : Nat) (stream : RealizedStream) : ShrinkM World (List ChoiceNode) :=
  .ofExec fun state =>
    let template := state.shrinker.currentNodes
    let nested := nestedCloneProbe testFn template
      (template.map ChoiceNode.value) i
    afterNested state ((nestedShrink nested).exec (nestedStart state stream))

def shrinkCloneStreamAt
    (nestedShrink : ShrinkProbe (World × List ShrinkEvent) →
      ShrinkM (World × List ShrinkEvent) PUnit)
    (i : Nat) (node : ChoiceNode) : ShrinkM World PUnit := do
  match node with
  | .mk (.clone stream) _ =>
      if stream.nodes.isEmpty then return ()
      else
        let finalChild ← shrinkNested testFn nestedShrink i stream
        let _ ← consider testFn
          (spliceChild (← get).shrinker.currentNodes i finalChild)
        return ()
  | _ => return ()

def shrinkCloneStreams
    (nestedShrink : ShrinkProbe (World × List ShrinkEvent) →
      ShrinkM (World × List ShrinkEvent) PUnit) :
    Nat → Nat → ShrinkM World PUnit
  | 0, _ => return ()
  | rounds + 1, i => do
      match (← get).shrinker.currentNodes[i]? with
      | none => return ()
      | some node =>
          shrinkCloneStreamAt testFn nestedShrink i node
          shrinkCloneStreams nestedShrink rounds (i + 1)

end Clones

end Passes

end Hegel
