/-
Soundness of shrinking.  Every pass is made of the shrinker's operations, so
whatever passes run in whatever order, and wherever they are stopped, the
target is the initial one or what one failing run recorded, and it never grows.
-/
import Hegel.ShrinkPasses
import Hegel.ShrinkRuns

namespace Hegel

/-- A pass, or a candidate of a pass that only proposes.  Passes over clones
run a schedule of their own. -/
inductive ShrinkPass where
  | consider (nodes : List ChoiceNode)
  | probe (prefixValues : List ChoiceValue) (maxSize : Nat)
  | replace (values : List (Nat × ChoiceValue))
  | inspect (run : ShrinkRun)
  | clearChangeTracking
  | enterIteration
  | growMaxStall (target : Nat)
  | removeDiscarded (rounds : Nat)
  | tryTrivialSpans (rounds : Nat)
  | shrinkSpecialFloat (i : Nat)
  | mutateAndShrink (rounds : Nat)
  | tryReplaceWithDeletion (idx : Nat) (value : ChoiceValue)
      (expectedLen : Nat)
  | reduceEachAlternative (rounds : Nat)
  | shrinkCloneStreams (schedule : List ShrinkPass) (rounds : Nat)

mutual

def ShrinkPass.perform :
    ShrinkPass → ∀ {World : Type}, ShrinkProbe World → ShrinkM World PUnit
  | .consider nodes, _, testFn => do
      let _ ← Hegel.consider testFn nodes
  | .probe prefixValues maxSize, _, testFn =>
      Hegel.probe testFn prefixValues maxSize
  | .replace values, _, testFn => do
      let _ ← Hegel.replace testFn values
  | .inspect run, _, testFn => do
      let _ ← Hegel.inspect testFn run
  | .clearChangeTracking, _, testFn =>
      ShrinkCall.clearChangeTracking.perform testFn
  | .enterIteration, _, testFn => ShrinkCall.enterIteration.perform testFn
  | .growMaxStall target, _, testFn =>
      (ShrinkCall.growMaxStall target).perform testFn
  | .removeDiscarded rounds, _, testFn => do
      let _ ← Hegel.removeDiscarded testFn rounds
  | .tryTrivialSpans rounds, _, testFn => Hegel.tryTrivialSpans testFn rounds 0
  | .shrinkSpecialFloat i, _, testFn => Hegel.shrinkSpecialFloat testFn i
  | .mutateAndShrink rounds, _, testFn => Hegel.mutateAndShrink testFn rounds
  | .tryReplaceWithDeletion idx value expectedLen, _, testFn => do
      let _ ← Hegel.tryReplaceWithDeletion testFn idx value expectedLen
  | .reduceEachAlternative rounds, _, testFn =>
      Hegel.reduceEachAlternative testFn rounds 0
  | .shrinkCloneStreams schedule rounds, _, testFn =>
      Hegel.shrinkCloneStreams testFn
        (fun nested => ShrinkPass.performAll schedule nested) rounds 0

def ShrinkPass.performAll :
    List ShrinkPass → ∀ {World : Type}, ShrinkProbe World →
      ShrinkM World PUnit
  | [], _, _ => return ()
  | pass :: rest, _, testFn => do
      pass.perform testFn
      ShrinkPass.performAll rest testFn

end

section Following

open Program

variable {World : Type} {testFn : ShrinkProbe World}
  {holds : ∀ Value : Type, ShrinkM World Value → Prop}

/-- A property of programs that sequencing keeps and that the two ways of
running the test function have; then every pass has it. -/
structure PassLogic (testFn : ShrinkProbe World)
    (holds : ∀ Value : Type, ShrinkM World Value → Prop) : Prop where
  pure : ∀ {Value : Type} (value : Value), holds Value (Pure.pure value)
  throw : ∀ {Value : Type} (halt : ShrinkHalt),
    holds Value (MonadExcept.throw halt)
  bind : ∀ {Value Value' : Type} {program : ShrinkM World Value}
    {next : Value → ShrinkM World Value'}, holds Value program →
      (∀ value, holds Value' (next value)) → holds Value' (program >>= next)
  get : holds (ShrinkState World) MonadState.get
  adopt : ∀ run, holds _ (Hegel.adopt testFn run)
  inspect : ∀ run, holds _ (Hegel.inspect testFn run)

theorem PassLogic.ite (_ : PassLogic testFn holds) {Value : Type}
    {condition : Prop} [Decidable condition]
    {first second : ShrinkM World Value}
    (hfirst : condition → holds Value first)
    (hsecond : ¬condition → holds Value second) :
    holds Value (if condition then first else second) := by
  by_cases hcondition : condition
  · rw [if_pos hcondition]
    exact hfirst hcondition
  · rw [if_neg hcondition]
    exact hsecond hcondition

theorem follows_call (testFn : ShrinkProbe World) (call : ShrinkCall) :
    Follows (ShrinkMove testFn) (call.perform testFn) :=
  follows_of_move fun _ => ⟨call, rfl⟩

/-- Going along a relation is such a property if running the test function
does. -/
theorem follows_passLogic
    {move : ShrinkState World → ShrinkState World → Prop}
    (hadopt : ∀ run, Follows move (adopt testFn run))
    (hinspect : ∀ run, Follows move (inspect testFn run)) :
    PassLogic testFn fun _ => Follows move where
  pure := follows_pure
  throw := follows_throw
  bind := follows_bind
  get := follows_get
  adopt := hadopt
  inspect := hinspect

/-- Passes move along the operations of a shrinker. -/
theorem shrinkMove_passLogic (testFn : ShrinkProbe World) :
    PassLogic testFn fun _ => Follows (ShrinkMove testFn) := by
  apply follows_passLogic
  · intro run
    apply follows_of_move
    intro state
    refine ⟨.adopt run, ?_⟩
    rw [ShrinkCall.perform, after_bind_pure]
  · intro run
    apply follows_of_move
    intro state
    refine ⟨.inspect run, ?_⟩
    rw [ShrinkCall.perform, after_bind_pure]

section Sites

variable (hlogic : PassLogic testFn holds)

include hlogic

theorem consider_holds (nodes : List ChoiceNode) :
    holds _ (consider testFn nodes) := by
  rw [consider]
  apply hlogic.bind hlogic.get
  intro state
  apply hlogic.ite (fun _ => hlogic.pure _) fun _ => ?_
  apply hlogic.ite (fun _ => hlogic.pure _) fun _ => ?_
  apply hlogic.ite (fun _ => hlogic.pure _) fun _ => ?_
  apply hlogic.ite (fun _ => hlogic.throw _) fun _ => ?_
  apply hlogic.ite (fun _ => hlogic.pure _) fun _ => ?_
  apply hlogic.bind (hlogic.adopt _)
  intro answer
  exact hlogic.pure _

theorem probe_holds (prefixValues : List ChoiceValue) (maxSize : Nat) :
    holds _ (probe testFn prefixValues maxSize) := by
  rw [probe]
  apply hlogic.bind hlogic.get
  intro state
  apply hlogic.ite (fun _ => hlogic.throw _) fun _ => ?_
  apply hlogic.ite (fun _ => hlogic.pure _) fun _ => ?_
  apply hlogic.bind (hlogic.adopt _)
  intro answer
  exact hlogic.pure _

theorem replayObservingDivergence_holds (snapshot : List ChoiceNode)
    (newVal : ChoiceValue) (i : Nat) :
    holds _ (replayObservingDivergence testFn snapshot newVal i) := by
  rw [replayObservingDivergence]
  apply hlogic.bind hlogic.get
  intro state
  apply hlogic.ite (fun _ => hlogic.throw _) fun _ => ?_
  apply hlogic.ite (fun _ => hlogic.pure _) fun _ => ?_
  cases snapshot[i]?.bind (·.withValue newVal) with
  | none => exact hlogic.pure _
  | some replaced =>
      apply hlogic.bind (hlogic.adopt _)
      intro answer
      exact hlogic.pure _

end Sites

/-- A property of programs that sequencing keeps and that the operations have
from which passes are made, except for the one that simplifies spans. -/
structure OperationLogic (testFn : ShrinkProbe World)
    (holds : ∀ Value : Type, ShrinkM World Value → Prop) : Prop where
  pure : ∀ {Value : Type} (value : Value), holds Value (Pure.pure value)
  throw : ∀ {Value : Type} (halt : ShrinkHalt),
    holds Value (MonadExcept.throw halt)
  bind : ∀ {Value Value' : Type} {program : ShrinkM World Value}
    {next : Value → ShrinkM World Value'}, holds Value program →
      (∀ value, holds Value' (next value)) → holds Value' (program >>= next)
  get : holds (ShrinkState World) MonadState.get
  inspect : ∀ run, holds _ (Hegel.inspect testFn run)
  consider : ∀ nodes, holds _ (Hegel.consider testFn nodes)
  probe : ∀ prefixValues maxSize, holds _ (Hegel.probe testFn prefixValues maxSize)
  replayObservingDivergence : ∀ snapshot newVal i,
    holds _ (Hegel.replayObservingDivergence testFn snapshot newVal i)

theorem PassLogic.operations (hlogic : PassLogic testFn holds) :
    OperationLogic testFn holds where
  pure := hlogic.pure
  throw := hlogic.throw
  bind := hlogic.bind
  get := hlogic.get
  inspect := hlogic.inspect
  consider := consider_holds hlogic
  probe := probe_holds hlogic
  replayObservingDivergence := replayObservingDivergence_holds hlogic

theorem OperationLogic.ite (_ : OperationLogic testFn holds) {Value : Type}
    {condition : Prop} [Decidable condition]
    {first second : ShrinkM World Value}
    (hfirst : condition → holds Value first)
    (hsecond : ¬condition → holds Value second) :
    holds Value (if condition then first else second) := by
  by_cases hcondition : condition
  · rw [if_pos hcondition]
    exact hfirst hcondition
  · rw [if_neg hcondition]
    exact hsecond hcondition

theorem OperationLogic.forM (hlogic : OperationLogic testFn holds) {Value : Type}
    {program : Value → ShrinkM World PUnit}
    (hprogram : ∀ value, holds PUnit (program value)) (values : List Value) :
    holds PUnit (values.forM program) := by
  induction values with
  | nil => exact hlogic.pure _
  | cons value rest ih => exact hlogic.bind (hprogram value) fun _ => ih

section Passes

variable (hlogic : OperationLogic testFn holds)

include hlogic

theorem liftEngine_holds {Value : Type}
    (result : Except InternalError Value) :
    holds Value (liftEngine result) := by
  cases result with
  | ok value => exact hlogic.pure value
  | error error => exact hlogic.throw _

theorem replace_holds (values : List (Nat × ChoiceValue)) :
    holds _ (replace testFn values) := by
  rw [replace]
  apply hlogic.bind hlogic.get
  intro state
  cases assignValues values state.shrinker.currentNodes with
  | none => exact hlogic.pure _
  | some attempt => exact hlogic.consider attempt

theorem removeDiscarded_holds (rounds : Nat) :
    holds _ (removeDiscarded testFn rounds) := by
  induction rounds with
  | zero => exact hlogic.pure _
  | succ rounds ih =>
      rw [removeDiscarded]
      apply hlogic.bind hlogic.get
      intro state
      apply hlogic.ite (fun _ => hlogic.pure _) fun _ => ?_
      apply hlogic.bind (hlogic.consider _)
      intro adopted
      exact hlogic.ite (fun _ => ih) fun _ => hlogic.pure _

theorem retrySpan_holds (i : Nat) (span : Span) (outcome : ShrinkOutcome) :
    holds _ (retrySpan testFn i span outcome) := by
  rw [retrySpan]
  cases outcome.actualSpans[i]? with
  | none => exact hlogic.pure _
  | some newSpan =>
      apply hlogic.ite (fun _ => ?_) (fun _ => hlogic.pure _)
      apply hlogic.bind hlogic.get
      intro state
      apply hlogic.bind (hlogic.consider _)
      intro adopted
      exact hlogic.pure _

theorem floatAt_holds (i : Nat) :
    holds _ (floatAt i : ShrinkM World (Option Binary64)) := by
  rw [floatAt]
  apply hlogic.bind hlogic.get
  intro state
  split <;> exact hlogic.pure _

theorem stepTo_holds (fc : FloatChoice) (i : Nat) (cands : List Binary64) :
    holds _ (stepTo testFn fc i cands) := by
  induction cands with
  | nil => exact hlogic.pure _
  | cons cand rest ih =>
      rw [stepTo]
      apply hlogic.ite (fun _ => ?_) fun _ => ih
      apply hlogic.bind (replace_holds hlogic _)
      intro adopted
      exact hlogic.ite (fun _ => hlogic.pure _) fun _ => ih

theorem canonicaliseNan_holds
    (hcanonicalise : ∀ attempt,
      holds _ (canonicalise testFn attempt))
    (fc : FloatChoice) (i : Nat) (v : Binary64) :
    holds _ (canonicaliseNan testFn fc i v) := by
  rw [canonicaliseNan]
  apply hlogic.bind (stepTo_holds hlogic fc i _)
  intro stepped
  apply hlogic.ite (fun _ => ?_) (fun _ => hlogic.pure _)
  apply hlogic.bind hlogic.get
  intro state
  dsimp only
  cases state.shrinker.currentNodes[i]? with
  | none => exact hlogic.pure _
  | some node => exact hcanonicalise _

theorem leaveInfinity_holds (fc : FloatChoice) (i : Nat) :
    holds _ (leaveInfinity testFn fc i) := by
  rw [leaveInfinity]
  apply hlogic.bind (floatAt_holds hlogic i)
  intro found
  cases found with
  | none => exact hlogic.pure _
  | some v =>
      apply hlogic.ite (fun _ => ?_) (fun _ => hlogic.pure _)
      apply hlogic.bind (stepTo_holds hlogic fc i _)
      intro adopted
      exact hlogic.pure _

theorem stepFromInfinity_holds (fc : FloatChoice) (i : Nat)
    (v : Binary64) :
    holds _ (stepFromInfinity testFn fc i v) := by
  rw [stepFromInfinity]
  apply hlogic.ite (fun _ => ?_) fun _ => leaveInfinity_holds hlogic fc i
  apply hlogic.bind (stepTo_holds hlogic fc i _)
  intro adopted
  exact leaveInfinity_holds hlogic fc i

theorem leaveNan_holds
    (hcanonicalise : ∀ attempt,
      holds _ (canonicalise testFn attempt))
    (fc : FloatChoice) (i : Nat) :
    holds _ (leaveNan testFn fc i) := by
  rw [leaveNan]
  apply hlogic.bind (floatAt_holds hlogic i)
  intro found
  cases found with
  | none => exact hlogic.pure _
  | some v =>
      exact hlogic.ite
        (fun _ => canonicaliseNan_holds hlogic hcanonicalise fc i v)
        fun _ => hlogic.pure _

theorem leaveSpecial_holds
    (hcanonicalise : ∀ attempt,
      holds _ (canonicalise testFn attempt))
    (fc : FloatChoice) (i : Nat) :
    holds _ (leaveSpecial testFn fc i) := by
  rw [leaveSpecial]
  apply hlogic.bind (floatAt_holds hlogic i)
  intro found
  cases found with
  | none => exact hlogic.pure _
  | some v =>
      apply hlogic.ite (fun _ => ?_)
        fun _ => leaveNan_holds hlogic hcanonicalise fc i
      apply hlogic.bind (stepFromInfinity_holds hlogic fc i v)
      intro _
      exact leaveNan_holds hlogic hcanonicalise fc i

theorem shrinkSpecialFloat_holds
    (hcanonicalise : ∀ attempt,
      holds _ (canonicalise testFn attempt))
    (i : Nat) :
    holds _ (shrinkSpecialFloat testFn i) := by
  rw [shrinkSpecialFloat]
  apply hlogic.bind hlogic.get
  intro state
  split
  case h_1 fc v wasForced _ =>
    apply hlogic.bind (liftEngine_holds hlogic _)
    intro s
    apply hlogic.ite (fun _ => ?_)
      fun _ => leaveSpecial_holds hlogic hcanonicalise fc i
    apply hlogic.bind (replace_holds hlogic _)
    intro adopted
    exact leaveSpecial_holds hlogic hcanonicalise fc i
  case h_2 => exact hlogic.pure _

theorem probeAgain_holds (prefixValues : List ChoiceValue)
    (maxSize attempts : Nat) :
    holds _ (probeAgain testFn prefixValues maxSize attempts) := by
  induction attempts with
  | zero => exact hlogic.pure _
  | succ attempts ih =>
      rw [probeAgain]
      exact hlogic.bind (hlogic.probe prefixValues maxSize)
        fun _ => ih

theorem mutatePair_holds (snapshot : List ChoiceNode)
    (prefixValues : List ChoiceValue) (maxSize i j : Nat) :
    holds _ (mutatePair testFn snapshot prefixValues maxSize i j) := by
  rw [mutatePair]
  cases snapshot[j]? with
  | none => exact hlogic.pure _
  | some node =>
      apply hlogic.bind (liftEngine_holds hlogic _)
      intro unit
      cases unit with
      | none => exact hlogic.pure _
      | some unitVal =>
          apply hlogic.bind (liftEngine_holds hlogic _)
          intro between
          exact probeAgain_holds hlogic _ maxSize randomAttempts

theorem mutateTo_holds (snapshot : List ChoiceNode) (i : Nat)
    (newVal : ChoiceValue) :
    holds _ (mutateTo testFn snapshot i newVal) := by
  rw [mutateTo]
  apply hlogic.bind (hlogic.replayObservingDivergence snapshot newVal i)
  intro diverged
  apply hlogic.ite (fun _ => ?_) (fun _ => hlogic.pure _)
  apply hlogic.bind (probeAgain_holds hlogic _ _ _)
  intro _
  apply hlogic.bind (mutatePair_holds hlogic snapshot _ _ i (i + 1))
  intro _
  exact mutatePair_holds hlogic snapshot _ _ i (i + 2)

theorem mutateNode_holds (i : Nat) (snapshot : List ChoiceNode)
    (node : ChoiceNode) :
    holds _ (mutateNode testFn i snapshot node) := by
  rw [mutateNode]
  apply hlogic.ite (fun _ => hlogic.pure _) fun _ => ?_
  apply hlogic.bind (liftEngine_holds hlogic _)
  intro index
  cases index with
  | none => exact hlogic.pure _
  | some currentIdx =>
      apply hlogic.bind (liftEngine_holds hlogic _)
      intro candidates
      exact hlogic.forM (mutateTo_holds hlogic snapshot i) candidates

theorem mutateAndShrink_holds (rounds : Nat) :
    holds _ (mutateAndShrink testFn rounds) := by
  have hfrom : ∀ i, holds _ (mutateFrom testFn rounds i) := by
    induction rounds with
    | zero => exact fun i => hlogic.pure _
    | succ rounds ih =>
        intro i
        rw [mutateFrom]
        apply hlogic.bind hlogic.get
        intro state
        dsimp only
        cases state.shrinker.currentNodes[i]? with
        | none => exact hlogic.pure _
        | some node =>
            apply hlogic.bind (mutateNode_holds hlogic i _ node)
            intro _
            exact ih (i + 1)
  rw [mutateAndShrink]
  apply hlogic.bind hlogic.get
  intro state
  exact hlogic.ite (fun _ => hlogic.pure _) fun _ => hfrom 0

theorem deleteRegion_holds (attempt : List ChoiceNode) (deficit : Nat)
    (starts : List Nat) :
    holds _ (deleteRegion testFn attempt deficit starts) := by
  induction starts with
  | nil => exact hlogic.pure _
  | cons j rest ih =>
      rw [deleteRegion]
      apply hlogic.bind (hlogic.consider _)
      intro adopted
      exact hlogic.ite (fun _ => hlogic.pure _) fun _ => ih

theorem tryReplaceWithDeletion_holds (idx : Nat) (value : ChoiceValue)
    (expectedLen : Nat) :
    holds _ (tryReplaceWithDeletion testFn idx value expectedLen) := by
  rw [tryReplaceWithDeletion]
  apply hlogic.bind (replace_holds hlogic _)
  intro adopted
  apply hlogic.ite (fun _ => hlogic.pure _) fun _ => ?_
  apply hlogic.bind hlogic.get
  intro state
  dsimp only
  cases state.shrinker.currentNodes[idx]?.bind (·.withValue value) with
  | none => exact hlogic.pure _
  | some replaced =>
      apply hlogic.bind (hlogic.inspect _)
      intro outcome
      apply hlogic.ite (fun _ => hlogic.pure _) fun _ => ?_
      apply hlogic.ite (fun _ => hlogic.pure _) fun _ => ?_
      exact deleteRegion_holds hlogic _ _ _

theorem probeUntilImproved_holds (prefixValues : List ChoiceValue)
    (maxSize epoch attempts : Nat) :
    holds _
      (probeUntilImproved testFn prefixValues maxSize epoch attempts) := by
  induction attempts with
  | zero => exact hlogic.pure _
  | succ attempts ih =>
      rw [probeUntilImproved]
      apply hlogic.bind (hlogic.probe prefixValues maxSize)
      intro _
      apply hlogic.bind hlogic.get
      intro state
      exact hlogic.ite (fun _ => hlogic.pure _) fun _ => ih

theorem tryLowerNodeAsAlternative_holds (i : Nat) (v : Int) :
    holds _ (tryLowerNodeAsAlternative testFn i v) := by
  rw [tryLowerNodeAsAlternative]
  apply hlogic.bind (replace_holds hlogic _)
  intro adopted
  apply hlogic.ite (fun _ => hlogic.pure _) fun _ => ?_
  apply hlogic.bind hlogic.get
  intro state
  exact probeUntilImproved_holds hlogic _ _ _ 3

theorem lowerTo_holds (i : Nat) (values : List Int) :
    holds _ (lowerTo testFn i values) := by
  induction values with
  | nil => exact hlogic.pure _
  | cons v rest ih =>
      rw [lowerTo]
      apply hlogic.bind (tryLowerNodeAsAlternative_holds hlogic i v)
      intro lowered
      exact hlogic.ite (fun _ => hlogic.pure _) fun _ => ih

theorem reduceAlternative_holds (i : Nat) (current : List ChoiceNode)
    (node : ChoiceNode) :
    holds _ (reduceAlternative testFn i current node) := by
  unfold reduceAlternative
  split
  · apply hlogic.ite (fun _ => hlogic.pure _) fun _ => ?_
    apply hlogic.bind (hlogic.inspect _)
    intro outcome
    exact hlogic.ite (fun _ => lowerTo_holds hlogic i _)
      fun _ => hlogic.pure _
  · exact hlogic.pure _

theorem reduceEachAlternative_holds (rounds i : Nat) :
    holds _ (reduceEachAlternative testFn rounds i) := by
  induction rounds generalizing i with
  | zero => exact hlogic.pure _
  | succ rounds ih =>
      rw [reduceEachAlternative]
      apply hlogic.bind hlogic.get
      intro state
      dsimp only
      cases state.shrinker.currentNodes[i]? with
      | none => exact hlogic.pure _
      | some node =>
          apply hlogic.bind (reduceAlternative_holds hlogic i _ node)
          intro _
          exact ih (i + 1)

section Clones

variable {nestedShrink : ShrinkProbe (World × List ShrinkEvent) →
    ShrinkM (World × List ShrinkEvent) PUnit}
  (hnested : ∀ i stream, holds _ (shrinkNested testFn nestedShrink i stream))

include hnested

theorem shrinkCloneStreamAt_holds (i : Nat) (node : ChoiceNode) :
    holds _ (shrinkCloneStreamAt testFn nestedShrink i node) := by
  unfold shrinkCloneStreamAt
  split
  · apply hlogic.ite (fun _ => hlogic.pure _) fun _ => ?_
    apply hlogic.bind (hnested i _)
    intro finalChild
    apply hlogic.bind hlogic.get
    intro state
    apply hlogic.bind (hlogic.consider _)
    intro adopted
    exact hlogic.pure _
  · exact hlogic.pure _

theorem shrinkCloneStreams_holds (rounds i : Nat) :
    holds _ (shrinkCloneStreams testFn nestedShrink rounds i) := by
  induction rounds generalizing i with
  | zero => exact hlogic.pure _
  | succ rounds ih =>
      rw [shrinkCloneStreams]
      apply hlogic.bind hlogic.get
      intro state
      cases state.shrinker.currentNodes[i]? with
      | none => exact hlogic.pure _
      | some node =>
          apply hlogic.bind (shrinkCloneStreamAt_holds hlogic hnested i node)
          intro _
          exact ih (i + 1)

end Clones

end Passes

section TrivialSpans

variable (hlogic : PassLogic testFn holds)

include hlogic

theorem tryTrivialSpan_holds (i : Nat) (span : Span) :
    holds _ (tryTrivialSpan testFn i span) := by
  rw [tryTrivialSpan]
  apply hlogic.bind hlogic.get
  intro state
  apply hlogic.ite (fun _ => hlogic.pure _) fun _ => ?_
  apply hlogic.bind (liftEngine_holds hlogic.operations _)
  intro trivial
  apply hlogic.ite (fun _ => hlogic.pure _) fun _ => ?_
  apply hlogic.bind (liftEngine_holds hlogic.operations _)
  intro attempt
  apply hlogic.bind (hlogic.adopt _)
  intro answer
  apply hlogic.ite (fun _ => hlogic.pure _) fun _ => ?_
  apply hlogic.bind hlogic.get
  intro state'
  exact hlogic.ite (fun _ => retrySpan_holds hlogic.operations i span _)
    fun _ => hlogic.pure _

theorem tryTrivialSpans_holds (rounds i : Nat) :
    holds _ (tryTrivialSpans testFn rounds i) := by
  induction rounds generalizing i with
  | zero => exact hlogic.pure _
  | succ rounds ih =>
      rw [tryTrivialSpans]
      apply hlogic.bind hlogic.get
      intro state
      cases state.shrinker.currentSpans[i]? with
      | none => exact hlogic.pure _
      | some span =>
          apply hlogic.bind (tryTrivialSpan_holds hlogic i span)
          intro _
          exact ih (i + 1)

end TrivialSpans

end Following

section Nested

open Program

variable {World : Type}

/-- What an operation can do to the world: run the test function or read the
clock. -/
inductive WorldStep (testFn : ShrinkProbe World) (world : World) :
    World → Prop
  | ran (run : ShrinkRun) : WorldStep testFn world (testFn.run world run).2
  | read : WorldStep testFn world (testFn.now world).2

theorem worldSteps_of_ticks {testFn : ShrinkProbe World}
    {world world' : World} (hticks : testFn.Ticks world world') :
    Relation.ReflTransGen (WorldStep testFn) world world' := by
  cases hticks with
  | still => exact .refl
  | read => exact .single .read

theorem worldSteps_of_runs {testFn : ShrinkProbe World}
    {world world' : World} {answer : Except ShrinkHalt ShrinkOutcome}
    (hruns : testFn.Runs world answer world') :
    Relation.ReflTransGen (WorldStep testFn) world world' := by
  obtain ⟨asked, run, hticks, hrun⟩ := hruns
  have hran : WorldStep testFn asked world' := by
    have hworld : (testFn.run asked run).2 = world' := congrArg Prod.snd hrun
    rw [← hworld]
    exact .ran run
  exact (worldSteps_of_ticks hticks).tail hran

/-- However a shrink goes, its world has moved by such steps. -/
theorem worldSteps_of_reaches {testFn : ShrinkProbe World}
    {state state' : ShrinkState World}
    (hreaches : ShrinkReaches testFn state state') :
    Relation.ReflTransGen (WorldStep testFn) state.world state'.world := by
  induction hreaches with
  | refl => exact .refl
  | tail _ hlast ih =>
      cases hlast.effect with
      | kept _ _ hticks => exact ih.trans (worldSteps_of_ticks hticks)
      | halted _ hruns => exact ih.trans (worldSteps_of_runs hruns)
      | passedOver _ hruns => exact ih.trans (worldSteps_of_runs hruns)
      | inspected _ hruns => exact ih.trans (worldSteps_of_runs hruns)
      | accepted _ hruns => exact ih.trans (worldSteps_of_runs hruns)
      | canonicalised _ hruns => exact ih.trans (worldSteps_of_runs hruns)

variable (testFn : ShrinkProbe World)

variable {template : List ChoiceNode} {outerValues : List ChoiceValue}
  {i : Nat}

/-- What a nested shrink does to its world, the outer shrinker could have
done. -/
theorem nested_worldStep (shrinker : Shrinker)
    {world world' : World × List ShrinkEvent}
    (hstep : WorldStep (nestedCloneProbe testFn template outerValues i)
      world world') :
    ShrinkMove testFn ⟨shrinker, world.1, world.2⟩
      ⟨shrinker, world'.1, world'.2⟩ := by
  obtain ⟨outer, history⟩ := world
  cases hstep with
  | ran run =>
      refine ⟨.visit (nestedRun template outerValues i run), ?_⟩
      rw [ShrinkCall.perform, after_bind_pure, visit, nestedCloneProbe]
      dsimp only
      cases hanswer : testFn.run outer (nestedRun template outerValues i run)
        with
      | mk answer outer' =>
          have hexec : (callTestFn testFn
              (nestedRun template outerValues i run)).exec
                ⟨shrinker, outer, history⟩ =
              (answer, ⟨shrinker, outer', history⟩) := by
            rw [callTestFn, exec_ofExec]
            simp only [hanswer]
          cases answer with
          | error halt => rw [after_bind_error hexec]
          | ok outcome =>
              rw [after_bind_ok hexec, after_bind_pure]
              rfl
  | read => exact ⟨.readClock, rfl⟩

theorem nested_reaches (shrinker : Shrinker)
    {world world' : World × List ShrinkEvent}
    (hsteps : Relation.ReflTransGen
      (WorldStep (nestedCloneProbe testFn template outerValues i))
      world world') :
    ShrinkReaches testFn ⟨shrinker, world.1, world.2⟩
      ⟨shrinker, world'.1, world'.2⟩ := by
  induction hsteps with
  | refl => exact .refl
  | tail _ hlast ih => exact ih.tail (nested_worldStep testFn shrinker hlast)

/-- A program for a nested shrinker, and what it is made of. -/
abbrev NestedShrink (World : Type) :=
  ShrinkProbe (World × List ShrinkEvent) →
    ShrinkM (World × List ShrinkEvent) PUnit

variable {nestedShrink : NestedShrink World}

/-- Taking over a timeout is one operation at most. -/
theorem latched_reaches (state : ShrinkState World) (timedOut : Bool) :
    ShrinkReaches testFn state
      { state with
        shrinker := { state.shrinker with
          timedOut := state.shrinker.timedOut || timedOut } } := by
  cases timedOut with
  | false =>
      simp only [Bool.or_false]
      exact .refl
  | true =>
      simp only [Bool.or_true]
      exact .single ⟨.latchTimeout, rfl⟩

theorem afterNested_reaches {state : ShrinkState World}
    {nested : Except ShrinkHalt PUnit × ShrinkState (World × List ShrinkEvent)}
    (houter : ShrinkReaches testFn state
      ⟨state.shrinker, nested.2.world.1, nested.2.world.2⟩) :
    ShrinkReaches testFn state (afterNested state nested).2 := by
  obtain ⟨result, final⟩ := nested
  cases result with
  | error halt =>
      cases halt with
      | error error => exact houter
      | stop => exact houter.trans (latched_reaches testFn _ _)
  | ok value => exact houter.trans (latched_reaches testFn _ _)

theorem shrinkNested_follows
    (hnested : ∀ nested, Follows (ShrinkMove nested) (nestedShrink nested))
    (i : Nat) (stream : RealizedStream) :
    Follows (ShrinkMove testFn)
      (shrinkNested testFn nestedShrink i stream) := by
  intro state
  rw [after, shrinkNested, exec_ofExec]
  dsimp only
  have hreaches := hnested (nestedCloneProbe testFn state.shrinker.currentNodes
    (state.shrinker.currentNodes.map ChoiceNode.value) i)
    (nestedStart state stream)
  have hsteps := worldSteps_of_reaches hreaches
  exact afterNested_reaches testFn
    (nested_reaches testFn state.shrinker hsteps)

end Nested

section Schedules

open Program

/-- A property of programs over any test function that all operations have and
that nested shrinks hand on; then every pass has it. -/
structure PassFamily
    (holds : ∀ {World : Type}, ShrinkProbe World → ∀ Value : Type,
      ShrinkM World Value → Prop) : Prop where
  logic : ∀ {World : Type} (testFn : ShrinkProbe World),
    PassLogic testFn (holds testFn)
  call : ∀ {World : Type} (testFn : ShrinkProbe World) (call : ShrinkCall),
    holds testFn PUnit (call.perform testFn)
  nested : ∀ {World : Type} (testFn : ShrinkProbe World)
    {nestedShrink : NestedShrink World},
    (∀ nested, holds nested PUnit (nestedShrink nested)) →
      ∀ i stream, holds testFn _ (shrinkNested testFn nestedShrink i stream)

section Families

variable {holds : ∀ {World : Type}, ShrinkProbe World → ∀ Value : Type,
  ShrinkM World Value → Prop}

mutual

theorem ShrinkPass.perform_holds (hfamily : PassFamily holds) :
    ∀ (pass : ShrinkPass) {World : Type} (testFn : ShrinkProbe World),
      holds testFn PUnit (pass.perform testFn)
  | .consider nodes, _, testFn =>
      (hfamily.logic testFn).bind
        (consider_holds (hfamily.logic testFn) nodes)
        fun _ => (hfamily.logic testFn).pure _
  | .probe prefixValues maxSize, _, testFn =>
      probe_holds (hfamily.logic testFn) prefixValues maxSize
  | .replace values, _, testFn =>
      (hfamily.logic testFn).bind
        (replace_holds (hfamily.logic testFn).operations values)
        fun _ => (hfamily.logic testFn).pure _
  | .inspect run, _, testFn =>
      (hfamily.logic testFn).bind ((hfamily.logic testFn).inspect run)
        fun _ => (hfamily.logic testFn).pure _
  | .clearChangeTracking, _, testFn => hfamily.call testFn .clearChangeTracking
  | .enterIteration, _, testFn => hfamily.call testFn .enterIteration
  | .growMaxStall target, _, testFn =>
      hfamily.call testFn (.growMaxStall target)
  | .removeDiscarded rounds, _, testFn =>
      (hfamily.logic testFn).bind
        (removeDiscarded_holds (hfamily.logic testFn).operations rounds)
        fun _ => (hfamily.logic testFn).pure _
  | .tryTrivialSpans rounds, _, testFn =>
      tryTrivialSpans_holds (hfamily.logic testFn) rounds 0
  | .shrinkSpecialFloat i, _, testFn =>
      shrinkSpecialFloat_holds (hfamily.logic testFn).operations
        (fun attempt => hfamily.call testFn (.canonicalise attempt)) i
  | .mutateAndShrink rounds, _, testFn =>
      mutateAndShrink_holds (hfamily.logic testFn).operations rounds
  | .tryReplaceWithDeletion idx value expectedLen, _, testFn =>
      (hfamily.logic testFn).bind
        (tryReplaceWithDeletion_holds (hfamily.logic testFn).operations idx value
          expectedLen)
        fun _ => (hfamily.logic testFn).pure _
  | .reduceEachAlternative rounds, _, testFn =>
      reduceEachAlternative_holds (hfamily.logic testFn).operations rounds 0
  | .shrinkCloneStreams schedule rounds, _, testFn =>
      shrinkCloneStreams_holds (hfamily.logic testFn).operations
        (hfamily.nested testFn
          fun nested => ShrinkPass.performAll_holds hfamily schedule nested)
        rounds 0

theorem ShrinkPass.performAll_holds (hfamily : PassFamily holds) :
    ∀ (schedule : List ShrinkPass) {World : Type}
      (testFn : ShrinkProbe World),
      holds testFn PUnit (ShrinkPass.performAll schedule testFn)
  | [], _, testFn => (hfamily.logic testFn).pure _
  | pass :: rest, _, testFn =>
      (hfamily.logic testFn).bind
        (ShrinkPass.perform_holds hfamily pass testFn)
        fun _ => ShrinkPass.performAll_holds hfamily rest testFn

end

end Families

/-- Going along the operations of a shrinker is such a property. -/
theorem shrinkMove_passFamily :
    PassFamily fun testFn _ => Follows (ShrinkMove testFn) where
  logic := shrinkMove_passLogic
  call := follows_call
  nested testFn _ := shrinkNested_follows testFn

/-- Any number of passes in any order only perform operations. -/
theorem ShrinkPass.performAll_follows (schedule : List ShrinkPass)
    {World : Type} (testFn : ShrinkProbe World) :
    Follows (ShrinkMove testFn) (ShrinkPass.performAll schedule testFn) :=
  ShrinkPass.performAll_holds shrinkMove_passFamily schedule testFn

/-- A shrinker is sound at every moment: any schedule of passes only performs
operations; after any number of operations the target is the initial pair or
one that a failing run returned, and improvements and displaced sequences are
counted right; and from any moment to any later one the target never grows. -/
theorem shrinker_sound {World : Type} (testFn : ShrinkProbe World)
    (nodes : List ChoiceNode) (spans : List Span) (deadline : Option Nat)
    (world : World) :
    (∀ schedule, ShrinkReaches testFn (.start nodes spans deadline world)
      ((ShrinkPass.performAll schedule testFn).after
        (.start nodes spans deadline world))) ∧
      ∀ state, ShrinkReaches testFn (.start nodes spans deadline world) state →
        state.Sound testFn nodes spans ∧
          ∀ later, ShrinkReaches testFn state later →
            (nodesSortKeyCmp later.currentNodes state.currentNodes).isLE := by
  constructor
  · intro schedule
    exact ShrinkPass.performAll_follows schedule testFn _
  · intro state hreaches
    constructor
    · exact sound_of_reaches hreaches (sound_start nodes spans deadline world)
    · intro later hlater
      exact descends_of_reaches hlater

end Schedules

end Hegel
