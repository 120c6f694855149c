/-
Contradictions between executions.  Recording a case reports a contradiction
beside the outcome; every place that executes cases turns it into an error, and
every place that absorbs what ended a part of a run lets errors through.  So a
run with a contradiction ends with it, except when a secondary entry is
replayed.
-/
import Hegel.RunPhases

namespace Hegel

section Passes

open Program

variable {World : Type}

/-- A test function whose answer is the one alarm that a run raises, if any; the
clock raises none. -/
structure ShrinkProbe.Surfaces (testFn : ShrinkProbe World)
    (alarms : World → List RunError) : Prop where
  run : ∀ world req, alarms world = [] → alarms (testFn.run world req).2 = [] ∨
    ∃ error, alarms (testFn.run world req).2 = [error] ∧
      (testFn.run world req).1 = .error (.error error)
  now : ∀ world, alarms (testFn.now world).2 = alarms world

def ShrinkState.alarms (alarms : World → List RunError)
    (state : ShrinkState World) : List ShrinkHalt :=
  (alarms state.world).map .error

section Operations

variable {testFn : ShrinkProbe World} {alarms : World → List RunError}
  (hprobe : testFn.Surfaces alarms)

include hprobe

theorem pastDeadline_surfaces :
    Surfaces (ShrinkState.alarms alarms) (pastDeadline testFn) := by
  apply surfaces_of_quiet
  intro state
  obtain ⟨passed, state', hexec, hticks, -⟩ := pastDeadline_exec testFn state
  have hsame : ∀ world, testFn.Ticks state.world world →
      alarms world = alarms state.world := by
    intro world hticks
    cases hticks with
    | still => rfl
    | read => exact hprobe.now _
  rw [after, hexec, ShrinkState.alarms, ShrinkState.alarms, hsame _ hticks]

theorem callTestFn_surfaces (run : ShrinkRun) :
    Surfaces (ShrinkState.alarms alarms) (callTestFn testFn run) := by
  intro state hstate
  rw [ShrinkState.alarms, List.map_eq_nil_iff] at hstate
  rcases hprobe.run state.world run hstate with hquiet | ⟨error, hraised, hrun⟩
  · left
    show (alarms (testFn.run state.world run).2).map _ = []
    rw [hquiet, List.map_nil]
  · refine .inr ⟨.error error, ?_, hrun⟩
    show (alarms (testFn.run state.world run).2).map _ = [_]
    rw [hraised, List.map_singleton]

theorem runTestFn_surfaces (run : ShrinkRun) :
    Surfaces (ShrinkState.alarms alarms) (runTestFn testFn run) := by
  apply surfaces_bind (pastDeadline_surfaces hprobe)
  intro passed
  exact surfaces_ite (fun _ => surfaces_throw _)
    fun _ => callTestFn_surfaces hprobe run

omit hprobe in
theorem modifyShrinker_surfaces (change : Shrinker → Shrinker) :
    Surfaces (ShrinkState.alarms alarms)
      (modifyShrinker change : ShrinkM World PUnit) :=
  surfaces_modify fun _ => rfl

omit hprobe in
theorem note_surfaces (event : ShrinkEvent) :
    Surfaces (ShrinkState.alarms alarms) (note event : ShrinkM World PUnit) :=
  surfaces_modify fun _ => rfl

theorem adopt_surfaces (run : ShrinkRun) :
    Surfaces (ShrinkState.alarms alarms) (adopt testFn run) := by
  apply surfaces_bind (runTestFn_surfaces hprobe run)
  intro outcome
  apply surfaces_bind (modifyShrinker_surfaces _)
  intro _
  apply surfaces_bind surfaces_get
  intro state
  apply surfaces_ite
  · intro _
    apply surfaces_bind (note_surfaces _)
    intro _
    apply surfaces_bind (modifyShrinker_surfaces _)
    intro _
    exact surfaces_pure _
  · intro _
    apply surfaces_bind (note_surfaces _)
    intro _
    exact surfaces_pure _

theorem inspect_surfaces (run : ShrinkRun) :
    Surfaces (ShrinkState.alarms alarms) (inspect testFn run) := by
  apply surfaces_bind (runTestFn_surfaces hprobe run)
  intro outcome
  apply surfaces_bind (note_surfaces _)
  intro _
  exact surfaces_pure _

theorem canonicalise_surfaces (attempt : List ChoiceNode) :
    Surfaces (ShrinkState.alarms alarms) (canonicalise testFn attempt) := by
  apply surfaces_bind (runTestFn_surfaces hprobe _)
  intro outcome
  apply surfaces_bind (modifyShrinker_surfaces _)
  intro _
  apply surfaces_bind surfaces_get
  intro state
  apply surfaces_ite
  · intro _
    apply surfaces_bind (note_surfaces _)
    intro _
    exact modifyShrinker_surfaces _
  · exact fun _ => note_surfaces _

theorem call_surfaces (call : ShrinkCall) :
    Surfaces (ShrinkState.alarms alarms) (call.perform testFn) := by
  cases call with
  | adopt run =>
      exact surfaces_bind (adopt_surfaces hprobe run)
        fun _ => surfaces_pure _
  | inspect run =>
      exact surfaces_bind (inspect_surfaces hprobe run)
        fun _ => surfaces_pure _
  | canonicalise attempt => exact canonicalise_surfaces hprobe attempt
  | visit run =>
      refine surfaces_bind ?_ fun _ => surfaces_pure _
      apply surfaces_bind (callTestFn_surfaces hprobe run)
      intro outcome
      apply surfaces_bind (note_surfaces _)
      intro _
      exact surfaces_pure _
  | readClock =>
      apply surfaces_modify
      intro state
      rw [ShrinkState.alarms, ShrinkState.alarms, hprobe.now]
  | latchTimeout => exact modifyShrinker_surfaces _
  | clearChangeTracking => exact modifyShrinker_surfaces _
  | enterIteration => exact modifyShrinker_surfaces _
  | growMaxStall target => exact modifyShrinker_surfaces _

theorem surfaces_passLogic :
    PassLogic testFn fun _ => Surfaces (ShrinkState.alarms alarms) where
  pure := surfaces_pure
  throw := surfaces_throw
  bind := surfaces_bind
  get := surfaces_get
  adopt := adopt_surfaces hprobe
  inspect := inspect_surfaces hprobe

/-- A nested shrink raises the alarms of the test function around it. -/
theorem nestedCloneProbe_surfaces (template : List ChoiceNode)
    (outerValues : List ChoiceValue) (i : Nat) :
    (nestedCloneProbe testFn template outerValues i).Surfaces
      fun world => alarms world.1 := by
  constructor
  · intro world req hworld
    have hrun := hprobe.run world.1 (nestedRun template outerValues i req)
      hworld
    rw [nestedCloneProbe]
    dsimp only
    rcases hanswer : testFn.run world.1 (nestedRun template outerValues i req)
      with ⟨answer, outer⟩
    rw [hanswer] at hrun
    cases answer with
    | error halt =>
        rcases hrun with hquiet | ⟨error, hraised, herror⟩
        · exact .inl hquiet
        · cases herror
          exact .inr ⟨error, hraised, rfl⟩
    | ok outcome =>
        rcases hrun with hquiet | ⟨error, -, herror⟩
        · exact .inl hquiet
        · cases herror
  · exact fun world => hprobe.now world.1

end Operations

/-- Every alarm of the test function surfaces, whatever the alarms are. -/
def SurfacesAlarms {World : Type} (testFn : ShrinkProbe World)
    (Value : Type) (program : ShrinkM World Value) : Prop :=
  ∀ alarms, testFn.Surfaces alarms →
    Surfaces (ShrinkState.alarms alarms) program

/-- Where the result is no error of the run there is no alarm. -/
theorem quiet_of_result {Value : Type} {alarms : World → List RunError}
    {state : ShrinkState World} {result : Except ShrinkHalt Value}
    (hreached : state.alarms alarms = [] ∨
      ∃ halt, state.alarms alarms = [halt] ∧ result = .error halt)
    (hresult : ∀ error, result ≠ .error (.error error)) :
    state.alarms alarms = [] := by
  refine hreached.resolve_right ?_
  rintro ⟨halt, hraised, herror⟩
  obtain ⟨error, -, rfl⟩ := List.map_eq_singleton_iff.mp hraised
  exact hresult error herror

theorem shrinkNested_surfaces (testFn : ShrinkProbe World)
    {nestedShrink : NestedShrink World}
    (hnested : ∀ nested, SurfacesAlarms nested PUnit (nestedShrink nested))
    (i : Nat) (stream : RealizedStream) :
    SurfacesAlarms testFn _ (shrinkNested testFn nestedShrink i stream) := by
  intro alarms hprobe state hstate
  have hinner := nestedCloneProbe_surfaces hprobe state.shrinker.currentNodes
    (state.shrinker.currentNodes.map ChoiceNode.value) i
  have hreached := hnested _ _ hinner (nestedStart state stream) hstate
  rw [after, shrinkNested, exec_ofExec]
  rw [after] at hreached
  dsimp only at hreached ⊢
  generalize (nestedShrink _).exec (nestedStart state stream) = reached
    at hreached ⊢
  obtain ⟨result, final⟩ := reached
  cases result with
  | ok value => exact .inl (quiet_of_result hreached (by simp))
  | error halt =>
      cases halt with
      | stop => exact .inl (quiet_of_result hreached (by simp))
      | error error =>
          rcases hreached with hquiet | ⟨halt, hraised, herror⟩
          · exact .inl hquiet
          · cases herror
            exact .inr ⟨.error error, hraised, rfl⟩

theorem surfaces_passFamily : PassFamily SurfacesAlarms where
  logic _ := {
    pure value _ hprobe := (surfaces_passLogic hprobe).pure value
    throw halt _ hprobe := (surfaces_passLogic hprobe).throw halt
    bind hfirst hnext alarms hprobe := (surfaces_passLogic hprobe).bind
      (hfirst alarms hprobe) fun value => hnext value alarms hprobe
    get _ hprobe := (surfaces_passLogic hprobe).get
    adopt run _ hprobe := adopt_surfaces hprobe run
    inspect run _ hprobe := inspect_surfaces hprobe run }
  call _ call _ hprobe := call_surfaces hprobe call
  nested := shrinkNested_surfaces

end Passes

section Absorbing

open Program

variable {World : Type} {alarms : World → List RunError}

def ShrinkState.nodeAlarms (alarms : World → List RunError)
    (state : ShrinkState World) : List PassExit :=
  (state.alarms alarms).map .halt

variable {Value : Type}

theorem onNode_surfaces {program : ShrinkM World Value}
    (hsurfaces : Surfaces (ShrinkState.alarms alarms) program) :
    Surfaces (ShrinkState.nodeAlarms alarms) program.onNode := by
  intro state hstate
  have hreached := hsurfaces state (List.map_eq_nil_iff.mp hstate)
  rw [after, ShrinkM.onNode, exec_ofExec]
  rw [after] at hreached
  rcases hreached with hquiet | ⟨halt, hraised, herror⟩
  · left
    show ((program.exec state).2.alarms alarms).map _ = []
    rw [hquiet, List.map_nil]
  · refine .inr ⟨.halt halt, ?_, ?_⟩
    · show ((program.exec state).2.alarms alarms).map _ = [_]
      rw [hraised, List.map_singleton]
    · show (program.exec state).1.mapError _ = _
      rw [herror]
      rfl

/-- Absorbing that a node is gone lets every alarm through. -/
theorem absorbNodeGone_surfaces {program : PassM World Value}
    (hsurfaces : Surfaces (ShrinkState.nodeAlarms alarms) program) :
    Surfaces (ShrinkState.alarms alarms) (absorbNodeGone program) := by
  intro state hstate
  have hreached := hsurfaces state (List.map_eq_nil_iff.mpr hstate)
  rw [after, absorbNodeGone, exec_ofExec]
  rw [after] at hreached
  rcases hreached with hquiet | ⟨exit, hraised, herror⟩
  · exact .inl (List.map_eq_nil_iff.mp hquiet)
  · obtain ⟨halt, hhalts, rfl⟩ := List.map_eq_singleton_iff.mp hraised
    refine .inr ⟨halt, hhalts, ?_⟩
    show absorbNodeGoneResult (program.exec state).1 = _
    rw [herror]
    rfl

/-- Whatever a pass does, every alarm surfaces. -/
theorem PassCode.perform_surfaces (code : PassCode) :
    ∀ {World : Type} (testFn : ShrinkProbe World)
      (alarms : World → List RunError), testFn.Surfaces alarms →
        Surfaces (ShrinkState.nodeAlarms alarms) (code.perform testFn) := by
  induction code with
  | done => exact fun _ _ _ => surfaces_pure _
  | nodeGone => exact fun _ _ _ => surfaces_throw _
  | stop => exact fun _ _ _ => surfaces_throw _
  | fail error => exact fun _ _ _ => surfaces_throw _
  | look next ih =>
      intro _ testFn alarms hprobe
      apply surfaces_bind surfaces_get
      intro state
      exact ih state.shrinker testFn alarms hprobe
  | consider nodes next ih =>
      intro _ testFn alarms hprobe
      apply surfaces_bind (onNode_surfaces
        (consider_holds (surfaces_passLogic hprobe) nodes))
      exact fun adopted => ih adopted testFn alarms hprobe
  | replace values next ih =>
      intro _ testFn alarms hprobe
      apply surfaces_bind (onNode_surfaces
        (replace_holds (surfaces_passLogic hprobe).operations values))
      exact fun adopted => ih adopted testFn alarms hprobe
  | probe prefixValues maxSize next ih =>
      intro _ testFn alarms hprobe
      apply surfaces_bind (onNode_surfaces
        (probe_holds (surfaces_passLogic hprobe) prefixValues maxSize))
      exact fun _ => ih testFn alarms hprobe
  | runTestFn run next ih =>
      intro _ testFn alarms hprobe
      apply surfaces_bind (onNode_surfaces (inspect_surfaces hprobe run))
      exact fun outcome => ih outcome testFn alarms hprobe
  | call operation next ih =>
      intro _ testFn alarms hprobe
      apply surfaces_bind (onNode_surfaces (call_surfaces hprobe operation))
      exact fun _ => ih testFn alarms hprobe
  | pass routine next ih =>
      intro _ testFn alarms hprobe
      apply surfaces_bind (onNode_surfaces
        (routine.perform_holds surfaces_passFamily testFn alarms hprobe))
      exact fun _ => ih testFn alarms hprobe
  | node work next ihWork ih =>
      intro _ testFn alarms hprobe
      apply surfaces_bind (onNode_surfaces
        (absorbNodeGone_surfaces (ihWork testFn alarms hprobe)))
      exact fun _ => ih testFn alarms hprobe
  | cloneStream i nested next ihNested ih =>
      intro World testFn alarms hprobe
      apply surfaces_bind surfaces_get
      intro state
      cases state.shrinker.currentNodes[i]? with
      | none => exact ih testFn alarms hprobe
      | some clone =>
          have hnested : ∀ inner : ShrinkProbe (World × List ShrinkEvent),
              SurfacesAlarms inner PUnit
                (absorbNodeGone (nested.perform inner)) :=
            fun inner alarms hinner =>
              absorbNodeGone_surfaces (ihNested inner alarms hinner)
          apply surfaces_bind (onNode_surfaces (shrinkCloneStreamAt_holds
            (surfaces_passLogic hprobe).operations
            (fun i stream => shrinkNested_surfaces testFn hnested i stream
              alarms hprobe) i clone))
          exact fun _ => ih testFn alarms hprobe

theorem PassCode.run_surfaces (code : PassCode) {testFn : ShrinkProbe World}
    (hprobe : testFn.Surfaces alarms) :
    Surfaces (ShrinkState.alarms alarms) (code.run testFn) :=
  absorbNodeGone_surfaces (code.perform_surfaces testFn alarms hprobe)

/-- Absorbing that a shrink was stopped lets every alarm through. -/
theorem runPlan_surfaces (plan : ShrinkPlan) {testFn : ShrinkProbe World}
    (hprobe : testFn.Surfaces alarms) (state : ShrinkState World)
    (hstate : alarms state.world = []) :
    alarms (runPlan plan testFn state).2.world = [] ∨
      ∃ error, alarms (runPlan plan testFn state).2.world = [error] ∧
        (runPlan plan testFn state).1 = .error error := by
  have habsorbed : ∀ (code : PassCode) (state : ShrinkState World),
      alarms state.world = [] →
        alarms ((code.run testFn).exec state).2.world = [] ∨
          ∃ error, alarms ((code.run testFn).exec state).2.world = [error] ∧
            absorbStop ((code.run testFn).exec state).1 = .error error := by
    intro code state hstate
    have hreached := code.run_surfaces hprobe state
      (List.map_eq_nil_iff.mpr hstate)
    rcases hreached with hquiet | ⟨halt, hraised, herror⟩
    · exact .inl (List.map_eq_nil_iff.mp hquiet)
    · obtain ⟨error, herrors, rfl⟩ := List.map_eq_singleton_iff.mp hraised
      refine .inr ⟨error, herrors, ?_⟩
      rw [herror]
      rfl
  have hcoarse := habsorbed plan.coarse state hstate
  rw [runPlan]
  rcases hreduced : (plan.coarse.run testFn).exec state with ⟨reduced, middle⟩
  rw [hreduced] at hcoarse
  dsimp only at hcoarse ⊢
  cases hresult : absorbStop reduced with
  | error error =>
      rw [hresult] at hcoarse
      exact hcoarse
  | ok value =>
      rw [hresult] at hcoarse
      rcases hcoarse with hquiet | ⟨error, -, herror⟩
      · exact habsorbed plan.passes middle hquiet
      · cases herror

end Absorbing

section Exploring

variable {World Store : Type} [UBigBytes] (layout : Layout)

/-- The contradictions that recording reported, except where a secondary entry
was replayed. -/
def Explorer.alarms (explorer : Explorer World) : List RunError :=
  explorer.cases.filterMap fun case =>
    if case.site = .secondaryCorpus then none else case.contradiction layout

theorem alarms_append (explorer : Explorer World) {after : Explorer World}
    {case : ExecutedCase} (hcases : after.cases = explorer.cases ++ [case])
    (hexplorer : explorer.alarms layout = []) :
    after.alarms layout = (if case.site = .secondaryCorpus then none
      else case.contradiction layout).toList := by
  rw [Explorer.alarms] at hexplorer ⊢
  rw [hcases, List.filterMap_append, hexplorer, List.nil_append]
  cases hcase : (if case.site = .secondaryCorpus then none
      else case.contradiction layout) with
  | none => simp [hcase]
  | some error => simp [hcase]

/-- A contradiction is an error of kind drift or a changed verdict. -/
theorem contradiction_error {case : ExecutedCase} {error : RunError}
    (hcase : case.contradiction layout = some error) :
    error = .flaky ∨ ∃ mismatch, error = .nonDeterministic mismatch := by
  obtain ⟨run, -, hrecorded⟩ := Option.bind_eq_some_iff.mp hcase
  rw [Engine.recordRun] at hrecorded
  dsimp only at hrecorded
  split at hrecorded
  · cases hrecorded
  · rw [Engine.recordExecution] at hrecorded
    dsimp only at hrecorded
    split at hrecorded
    case h_1 mismatch _ =>
      cases hrecorded
      exact .inr ⟨mismatch, rfl⟩
    case h_2 =>
      split at hrecorded
      · cases hrecorded
      · dsimp only at hrecorded
        split at hrecorded
        · cases hrecorded
          exact .inl rfl
        · cases hrecorded

variable (env : Environment World Store)

/-- The last case is the only one that can raise an alarm. -/
theorem testFunction_alarms (site : CaseSite) (request : CaseRequest)
    {explorer : Explorer World} (hexplorer : explorer.alarms env.layout = []) :
    match explorer.testFunction env site request with
    | (.ok (_, mismatch), after) => after.alarms env.layout =
        (if site = .secondaryCorpus then none else mismatch).toList
    | (.error _, after) => after.alarms env.layout = [] := by
  rw [Explorer.testFunction]
  rcases env.execute explorer.world request with ⟨answer, world⟩
  cases answer with
  | error error =>
      dsimp only
      rw [alarms_append env.layout explorer rfl hexplorer]
      simp [ExecutedCase.contradiction]
  | ok outcome =>
      dsimp only [Explorer.record]
      rw [alarms_append env.layout explorer rfl hexplorer]
      rfl

theorem runCase_alarms {site : CaseSite} (hsite : site ≠ .secondaryCorpus)
    (request : CaseRequest) {explorer : Explorer World}
    (hexplorer : explorer.alarms env.layout = []) :
    (explorer.runCase env site request).2.alarms env.layout = [] ∨
      ∃ error, (explorer.runCase env site request).2.alarms env.layout =
          [error] ∧
        (explorer.runCase env site request).1 = .error error := by
  have htested := testFunction_alarms env site request hexplorer
  rw [Explorer.runCase]
  rcases htest : explorer.testFunction env site request with ⟨answer, after⟩
  rw [htest] at htested
  cases answer with
  | error error => exact .inl htested
  | ok value =>
      obtain ⟨outcome, mismatch⟩ := value
      dsimp only at htested
      rw [if_neg hsite] at htested
      cases mismatch with
      | none => exact .inl htested
      | some error => exact .inr ⟨error, htested, rfl⟩

theorem cachedTestFunction_alarms {site : CaseSite}
    (hsite : site ≠ .secondaryCorpus) (choices : List ChoiceValue)
    (nodes : Option (List ChoiceNode)) (extend : Nat)
    {explorer : Explorer World} (hexplorer : explorer.alarms env.layout = []) :
    let reached := explorer.cachedTestFunction env site choices nodes extend
    reached.2.alarms env.layout = [] ∨
      ∃ error, reached.2.alarms env.layout = [error] ∧
        reached.1 = .error error := by
  dsimp only
  rw [Explorer.cachedTestFunction]
  cases explorer.engine.served choices with
  | some hit => exact .inl hexplorer
  | none =>
      dsimp only
      generalize (if extend = 0 then CaseRequest.choices choices nodes
        else .probe choices (flattenedValuesLen choices + extend)) = request
      rcases runCase_alarms env hsite request hexplorer with
        hquiet | ⟨error, hraised, herror⟩
      · exact .inl hquiet
      · refine .inr ⟨error, hraised, ?_⟩
        rw [herror]
        rfl

/-- What the shrinker is told of a query. -/
theorem told_alarms (targetOrigin : String)
    (reached : Except RunError RunResult × Explorer World)
    (hreached : reached.2.alarms env.layout = [] ∨
      ∃ error, reached.2.alarms env.layout = [error] ∧
        reached.1 = .error error) :
    let answered : Except ShrinkHalt ShrinkOutcome × Explorer World :=
      match reached.1 with
      | .ok run => (.ok ⟨decide (run.status = .interesting) &&
          decide (run.origin = some targetOrigin), run.nodes, run.spans⟩,
          reached.2)
      | .error error => (.error (.error error), reached.2)
    answered.2.alarms env.layout = [] ∨
      ∃ error, answered.2.alarms env.layout = [error] ∧
        answered.1 = .error (.error error) := by
  obtain ⟨result, after⟩ := reached
  cases result with
  | ok run =>
      exact .inl (hreached.resolve_right (by rintro ⟨_, -, h⟩; cases h))
  | error error =>
      rcases hreached with hquiet | ⟨raised, hraised, herror⟩
      · exact .inl hquiet
      · cases herror
        exact .inr ⟨error, hraised, rfl⟩

/-- The engine answers a shrinker with the alarm that a run raises. -/
theorem exploreShrinkProbe_surfaces (targetOrigin : String) :
    (exploreShrinkProbe env targetOrigin).Surfaces
      fun explorer => explorer.alarms env.layout := by
  constructor
  · intro explorer req hexplorer
    rw [exploreShrinkProbe]
    dsimp only
    cases req with
    | full nodes =>
        exact told_alarms env targetOrigin _ (cachedTestFunction_alarms env (by decide) _ _ _
          hexplorer)
    | probe prefixValues maxSize =>
        exact told_alarms env targetOrigin _ (cachedTestFunction_alarms env (by decide) _ _ _
          hexplorer)
  · exact fun _ => rfl

end Exploring

section Phases

open Looping

variable {World Store : Type} [UBigBytes] (env : Environment World Store)
  (settings : RunSettings)

/-- The contradictions as what ends a run. -/
def Environment.alarms (explorer : Explorer World) : List RunHalt :=
  (explorer.alarms env.layout).map .error

variable {env}

/-- An operation that answers with the alarm it raises. -/
theorem lift_surfaces {Value : Type}
    {run : Explorer World → Except RunError Value × Explorer World}
    (hrun : ∀ explorer : Explorer World, explorer.alarms env.layout = [] →
      (run explorer).2.alarms env.layout = [] ∨
        ∃ error, (run explorer).2.alarms env.layout = [error] ∧
          (run explorer).1 = .error error) :
    Surfaces env.alarms (ExploreM.lift run) := by
  apply surfaces_ofResult
  intro explorer hexplorer
  rcases hrun explorer (List.map_eq_nil_iff.mp hexplorer) with
    hquiet | ⟨error, hraised, herror⟩
  · exact .inl (List.map_eq_nil_iff.mpr hquiet)
  · refine .inr ⟨.error error, ?_, ?_⟩
    · rw [Environment.alarms]
      dsimp only
      rw [hraised, List.map_singleton]
    · dsimp only
      rw [herror]
      rfl

/-- An operation that executes nothing. -/
theorem quiet_surfaces {Value : Type}
    {run : Explorer World → Except RunHalt Value × Explorer World}
    (hcases : ∀ explorer, (run explorer).2.cases = explorer.cases) :
    Surfaces env.alarms (ofResult run) := by
  apply surfaces_ofResult
  intro explorer hexplorer
  left
  rw [Environment.alarms, Explorer.alarms, hcases]
  exact hexplorer

variable (env)

theorem choose_surfaces (bound : Nat) :
    Surfaces env.alarms (choose env bound) :=
  quiet_surfaces fun _ => rfl

theorem runCase_surfaces {site : CaseSite} (hsite : site ≠ .secondaryCorpus)
    (request : CaseRequest) :
    Surfaces env.alarms (ExploreM.lift fun explorer =>
      explorer.runCase env site request) :=
  lift_surfaces fun _ => runCase_alarms env hsite request

section Targeting

variable (optimiser : Optimiser)

theorem runTrial_surfaces (choices : List ChoiceValue) :
    Surfaces env.alarms (optimiser.runTrial env choices) := by
  apply surfaces_bind surfaces_read
  intro explorer
  apply surfaces_ite (fun _ => surfaces_pure _)
  intro _
  apply surfaces_bind (runCase_surfaces env (by decide) _)
  intro outcome
  exact surfaces_pure _

theorem tryReplace_surfaces (target : String) (idx : Nat) (delta : Int)
    (climb : Climb) :
    Surfaces env.alarms (optimiser.tryReplace env target idx delta climb) := by
  apply surfaces_ite (fun _ => surfaces_pure _)
  intro _
  cases climb.nodes[idx]? with
  | none => exact surfaces_halt _
  | some node =>
      dsimp only
      cases stepChoice node delta with
      | none => exact surfaces_pure _
      | some newVal =>
          apply surfaces_ite
          · intro _
            apply surfaces_bind (runTrial_surfaces env optimiser _)
            intro trial
            cases trial with
            | none => exact surfaces_pure _
            | some trial => exact surfaces_pure _
          · exact fun _ => surfaces_halt _

theorem climbFrom_surfaces (target : String) (idx : Nat) (sign : Int)
    (climb : Climb) :
    Surfaces env.alarms (optimiser.climbFrom env target idx sign climb) := by
  apply surfaces_loop
  rintro ⟨search, climbing⟩
  dsimp only
  cases FindInteger.probe search with
  | none => exact surfaces_pure _
  | some k =>
      apply surfaces_bind (tryReplace_surfaces env optimiser target idx _ _)
      intro answer
      exact surfaces_pure _

theorem climbNode_surfaces (target : String) (idx : Nat) (climb : Climb) :
    Surfaces env.alarms (optimiser.climbNode env target idx climb) := by
  rw [Optimiser.climbNode]
  cases climb.nodes[idx]? with
  | none => exact surfaces_halt _
  | some node =>
      apply surfaces_ite
      · intro _
        apply surfaces_bind (climbFrom_surfaces env optimiser target idx 1 _)
        intro climbed
        exact surfaces_ite
          (fun _ => climbFrom_surfaces env optimiser target idx (-1) _)
          fun _ => surfaces_pure _
      · exact fun _ => surfaces_pure _

theorem hillClimb_surfaces (target : String) (maxImprovements : Nat) :
    Surfaces env.alarms
      (optimiser.hillClimb env target maxImprovements) := by
  apply surfaces_bind surfaces_read
  intro explorer
  cases explorer.targeting.lookup target with
  | none => exact surfaces_halt _
  | some best =>
      apply surfaces_bind (runTrial_surfaces env optimiser _)
      intro trial
      cases trial with
      | none => exact surfaces_pure _
      | some trial =>
          apply surfaces_ite
          · intro _
            apply surfaces_loop
            intro climb
            apply surfaces_ite
            · intro _
              apply surfaces_ite (fun _ => surfaces_pure _)
              intro _
              apply surfaces_ite (fun _ => surfaces_pure _)
              intro _
              apply surfaces_bind (climbNode_surfaces env optimiser target _ _)
              intro climbed
              exact surfaces_pure _
            · exact fun _ => surfaces_pure _
          · exact fun _ => surfaces_pure _

theorem climbTargets_surfaces (maxImprovements : Nat) (anyImprovements : Bool)
    (targets : List String) :
    Surfaces env.alarms (optimiser.climbTargets env maxImprovements
      anyImprovements targets) := by
  induction targets generalizing anyImprovements with
  | nil => exact surfaces_pure _
  | cons target rest ih =>
      apply surfaces_bind (hillClimb_surfaces env optimiser target _)
      intro improvements
      exact ih _

theorem optimiseTargets_surfaces :
    Surfaces env.alarms (optimiser.optimiseTargets env) := by
  apply surfaces_bind surfaces_read
  intro explorer
  apply surfaces_loop
  intro maxImprovements
  apply surfaces_bind surfaces_read
  intro before
  apply surfaces_bind (climbTargets_surfaces env optimiser _ _ _)
  intro anyImprovements
  apply surfaces_bind surfaces_read
  intro after
  exact surfaces_ite (fun _ => surfaces_pure _) fun _ => surfaces_pure _

end Targeting

section Generation

theorem trySpanMutation_surfaces (nodes : List ChoiceNode)
    (spans : List Span) :
    Surfaces env.alarms (trySpanMutation env settings nodes spans) := by
  apply surfaces_ite (fun _ => surfaces_pure _)
  intro _
  apply surfaces_loop
  intro attempts
  cases attempts with
  | zero => exact surfaces_pure _
  | succ attempts =>
      apply surfaces_bind surfaces_read
      intro explorer
      apply surfaces_ite (fun _ => surfaces_pure _)
      intro _
      have hspans : Surfaces env.alarms (chooseSpans env (spanGroups spans)) := by
        apply surfaces_bind (choose_surfaces env _)
        intro groupIdx
        apply surfaces_bind (choose_surfaces env _)
        intro iA
        apply surfaces_bind (choose_surfaces env _)
        intro iB
        exact surfaces_pure _
      apply surfaces_bind hspans
      rintro ⟨a, b⟩
      have hdonor : Surfaces env.alarms (chooseDonor env a b) := by
        apply surfaces_ite (fun _ => surfaces_pure _)
        intro _
        apply surfaces_bind (choose_surfaces env _)
        intro donor
        exact surfaces_pure _
      apply surfaces_bind hdonor
      intro donateFirst
      apply surfaces_bind (lift_surfaces fun _ =>
        cachedTestFunction_alarms env (by decide) _ _ _)
      intro run
      exact surfaces_ite (fun _ => surfaces_pure _) fun _ => surfaces_pure _

theorem mayGenerate_surfaces :
    Surfaces env.alarms (mayGenerate env settings) := by
  apply surfaces_bind surfaces_read
  intro explorer
  apply surfaces_ite
  · intro _
    have hlate : Surfaces env.alarms (readLate env) := by
      apply quiet_surfaces
      intro explorer
      split <;> rfl
    apply surfaces_bind hlate
    intro late
    exact surfaces_pure _
  · exact fun _ => surfaces_pure _

theorem fireTargets_surfaces :
    Surfaces env.alarms (fireTargets env settings) := by
  apply surfaces_bind surfaces_read
  intro explorer
  apply surfaces_ite
  · intro _
    apply surfaces_bind
    · exact surfaces_modify fun _ => rfl
    · intro _
      exact surfaces_ite (fun _ => optimiseTargets_surfaces env _)
        fun _ => surfaces_pure _
  · exact fun _ => surfaces_pure _

theorem randomCase_surfaces :
    Surfaces env.alarms (randomCase env settings) := by
  apply surfaces_bind (runCase_surfaces env (by decide) _)
  intro outcome
  apply surfaces_bind surfaces_read
  intro explorer
  cases failedHealthCheck settings explorer.engine outcome.run.status
      (env.tooSlow explorer.world) with
  | some check => exact surfaces_halt _
  | none =>
      apply surfaces_bind (fireTargets_surfaces env settings)
      intro _
      apply surfaces_bind surfaces_read
      intro explorer
      exact surfaces_ite
        (fun _ => trySpanMutation_surfaces env settings _ _)
        fun _ => surfaces_pure _

theorem generateBatches_surfaces :
    Surfaces env.alarms (generateBatches env settings) := by
  apply surfaces_loop
  intro _
  apply surfaces_bind (mayGenerate_surfaces env settings)
  intro may
  apply surfaces_ite
  · intro _
    have hbatch : Surfaces env.alarms (generateBatch env settings) := by
      apply surfaces_loop
      intro remaining
      cases remaining with
      | zero => exact surfaces_pure _
      | succ remaining =>
          apply surfaces_bind (mayGenerate_surfaces env settings)
          intro may
          apply surfaces_ite
          · intro _
            apply surfaces_bind (randomCase_surfaces env settings)
            intro _
            exact surfaces_pure _
          · exact fun _ => surfaces_pure _
    apply surfaces_bind hbatch
    intro _
    exact surfaces_pure _
  · exact fun _ => surfaces_pure _

theorem probeSimplest_surfaces :
    Surfaces env.alarms (probeSimplest env settings) := by
  apply surfaces_bind surfaces_read
  intro explorer
  apply surfaces_ite
  · intro _
    apply surfaces_bind (runCase_surfaces env (by decide) _)
    intro outcome
    exact surfaces_ite (fun _ => surfaces_halt _) fun _ => surfaces_pure _
  · exact fun _ => surfaces_pure _

theorem generateCases_surfaces :
    Surfaces env.alarms (generateCases env settings) := by
  apply surfaces_bind surfaces_read
  intro explorer
  apply surfaces_ite
  · intro _
    apply surfaces_bind (probeSimplest_surfaces env settings)
    intro _
    exact generateBatches_surfaces env settings
  · exact fun _ => surfaces_pure _

theorem generationPhase_surfaces :
    Surfaces env.alarms (generationPhase env settings) := by
  apply surfaces_bind
  · exact surfaces_modify fun _ => rfl
  · intro _
    apply surfaces_bind (generateCases_surfaces env settings)
    intro _
    apply surfaces_bind surfaces_read
    intro explorer
    cases generationError settings explorer.engine with
    | some error => exact surfaces_halt _
    | none => exact surfaces_modify fun _ => rfl

end Generation

section Replaying

theorem emit_surfaces (ops : List DatabaseOp) :
    Surfaces env.alarms (emit ops) :=
  surfaces_modify fun _ => rfl

theorem shuffleFrom_surfaces (i count : Nat) (extra : List Bytes) :
    Surfaces env.alarms (shuffleFrom env i count extra) := by
  induction count generalizing i extra with
  | zero => exact surfaces_pure _
  | succ count ih =>
      apply surfaces_bind (choose_surfaces env _)
      intro offset
      exact ih _ _

theorem secondaryEntries_surfaces (key : Bytes) (primary : List Bytes) :
    Surfaces env.alarms (secondaryEntries env settings key primary) := by
  apply surfaces_ite
  · intro _
    apply surfaces_bind surfaces_read
    intro explorer
    apply surfaces_ite
    · intro _
      apply surfaces_bind (shuffleFrom_surfaces env _ _ _)
      intro shuffled
      exact surfaces_pure _
    · exact fun _ => surfaces_pure _
  · exact fun _ => surfaces_pure _

theorem replayEntry_surfaces (key raw : Bytes) (primary : Bool)
    (progress : ReuseProgress) :
    Surfaces env.alarms
      (replayEntry env settings key raw primary progress) := by
  rw [replayEntry]
  cases deserializeChoices .usize64 raw with
  | fault reason => exact surfaces_halt _
  | rejected =>
      apply surfaces_bind (emit_surfaces env _)
      intro _
      exact surfaces_pure _
  | done stored =>
      apply surfaces_bind (runCase_surfaces env (by decide) _)
      intro outcome
      apply surfaces_bind surfaces_read
      intro explorer
      apply surfaces_ite
      · intro _
        apply surfaces_ite (fun _ => surfaces_pure _)
        intro _
        exact surfaces_ite (fun _ => surfaces_pure _) fun _ => surfaces_pure _
      · intro _
        apply surfaces_bind (emit_surfaces env _)
        intro _
        exact surfaces_ite (fun _ => surfaces_pure _) fun _ => surfaces_pure _

theorem replayEntries_surfaces (key : Bytes) (entries : List (Bytes × Bool))
    (progress : ReuseProgress) :
    Surfaces env.alarms (replayEntries env settings key entries progress) := by
  induction entries generalizing progress with
  | nil => exact surfaces_pure _
  | cons entry rest ih =>
      apply surfaces_ite (fun _ => surfaces_pure _)
      intro _
      apply surfaces_bind (replayEntry_surfaces env settings key _ _ _)
      intro answer
      exact surfaces_ite (fun _ => ih _) fun _ => surfaces_pure _

theorem reusePhase_surfaces :
    Surfaces env.alarms (reusePhase env settings) := by
  apply surfaces_bind surfaces_read
  intro explorer
  cases explorer.engine.databaseKey with
  | none => exact surfaces_pure _
  | some key =>
      apply surfaces_ite
      · intro _
        apply surfaces_bind (secondaryEntries_surfaces env settings key _)
        intro extra
        apply surfaces_bind (replayEntries_surfaces env settings key _ _)
        intro progress
        apply surfaces_bind surfaces_read
        intro explorer
        exact surfaces_pure _
      · exact fun _ => surfaces_pure _

/-- A contradiction of a secondary entry raises no alarm, since it is not
counted. -/
theorem replaySecondaryCorpus_surfaces (key : Bytes) (largest : Option Bytes)
    (entries : List Bytes) :
    Surfaces env.alarms (replaySecondaryCorpus env key largest entries) := by
  induction entries with
  | nil => exact surfaces_pure _
  | cons raw rest ih =>
      apply surfaces_ite (fun _ => surfaces_pure _)
      intro _
      have hreplay : Surfaces env.alarms (replayDisplaced env raw) := by
        rw [replayDisplaced]
        cases deserializeChoices .usize64 raw with
        | fault reason => exact surfaces_halt _
        | rejected => exact surfaces_pure _
        | done stored =>
            apply surfaces_bind
            · apply lift_surfaces
              intro explorer hexplorer
              have htested := testFunction_alarms env .secondaryCorpus
                (.choices stored none) hexplorer
              left
              split at htested
              case h_1 hrun =>
                rw [hrun]
                exact htested
              case h_2 hrun =>
                rw [hrun]
                exact htested
            · exact fun _ => surfaces_pure _
      apply surfaces_bind hreplay
      intro _
      apply surfaces_bind (emit_surfaces env _)
      intro _
      exact ih

theorem shrinkOrigin_surfaces (plan : Explorer World → String → ShrinkPlan)
    (deadline : Option Nat) (origin : String) :
    Surfaces env.alarms (shrinkOrigin env plan deadline origin) := by
  apply surfaces_bind surfaces_read
  intro explorer
  apply surfaces_bind (runCase_surfaces env (by decide) _)
  intro verify
  apply surfaces_ite (fun _ => surfaces_halt _)
  intro _
  apply surfaces_bind surfaces_read
  intro verified
  apply surfaces_bind
  · apply lift_surfaces
    intro explorer hexplorer
    rcases runPlan_surfaces (plan verified origin)
      (exploreShrinkProbe_surfaces env origin)
      (.start verify.run.nodes verify.run.spans deadline explorer)
      hexplorer with hquiet | ⟨error, hraised, herror⟩
    · exact .inl hquiet
    · refine .inr ⟨error, hraised, ?_⟩
      dsimp only
      rw [herror]
      rfl
  · intro shrunk
    exact surfaces_modify fun _ => rfl

theorem shrinkPhase_surfaces (plan : Explorer World → String → ShrinkPlan)
    (replayAligned : Bool) :
    Surfaces env.alarms (shrinkPhase env settings plan replayAligned) := by
  apply surfaces_bind surfaces_read
  intro explorer
  apply surfaces_ite
  · intro _
    have hsecondary : Surfaces env.alarms (secondaryReplay env) := by
      apply surfaces_bind surfaces_read
      intro explorer
      cases explorer.engine.databaseKey with
      | none => exact surfaces_pure _
      | some key => exact replaySecondaryCorpus_surfaces env key _ _
    apply surfaces_bind hsecondary
    intro _
    have hnow : Surfaces env.alarms (readNow env) :=
      quiet_surfaces fun _ => rfl
    apply surfaces_bind hnow
    intro now
    apply surfaces_loop
    intro shrunkOrigins
    apply surfaces_bind surfaces_read
    intro explorer
    cases pendingOrigin explorer.engine.interesting shrunkOrigins with
    | none => exact surfaces_pure _
    | some origin =>
        apply surfaces_bind (shrinkOrigin_surfaces env plan _ origin)
        intro _
        exact surfaces_pure _
  · exact fun _ => surfaces_pure _

theorem explore_surfaces (plan : Explorer World → String → ShrinkPlan) :
    Surfaces env.alarms (explore env settings plan) := by
  apply surfaces_bind (reusePhase_surfaces env settings)
  intro replayAligned
  apply surfaces_bind (generationPhase_surfaces env settings)
  intro _
  apply surfaces_bind (shrinkPhase_surfaces env settings plan replayAligned)
  intro _
  apply surfaces_bind surfaces_read
  intro explorer
  exact surfaces_pure _

end Replaying

/-- A run in which recording a case reports a contradiction ends with it, at
once and wherever the case was executed, if no replay of a secondary entry
contradicts an earlier execution. -/
theorem explore_contradiction (plan : Explorer World → String → ShrinkPlan)
    (databaseKey : Option Bytes) (preexisting : List Bytes) (world : World)
    (fuel : Nat) :
    let start := Explorer.new settings databaseKey preexisting world
    let reached := explore env settings plan fuel start
    (∀ case ∈ reached.2.cases, case.site = .secondaryCorpus →
      case.contradiction env.layout = none) →
      ∀ case ∈ reached.2.cases, ∀ error,
        case.contradiction env.layout = some error →
          reached.1 = some (.error (.error error)) ∧
            (error = .flaky ∨
              ∃ mismatch, error = .nonDeterministic mismatch) := by
  intro start reached hsecondary case hmem error hcase
  have halarm : error ∈ reached.2.alarms env.layout := by
    apply List.mem_filterMap.mpr
    refine ⟨case, hmem, ?_⟩
    by_cases hsite : case.site = .secondaryCorpus
    · rw [hsecondary case hmem hsite] at hcase
      cases hcase
    · rw [if_neg hsite]
      exact hcase
  refine ⟨?_, contradiction_error env.layout hcase⟩
  rcases explore_surfaces env settings plan start rfl fuel with
    hquiet | ⟨halt, hraised, herror⟩
  · rw [List.map_eq_nil_iff.mp hquiet] at halarm
    exact absurd halarm List.not_mem_nil
  · obtain ⟨raised, hsingle, rfl⟩ := List.map_eq_singleton_iff.mp hraised
    have hsame : reached.2.alarms env.layout = [raised] := hsingle
    rw [hsame, List.mem_singleton] at halarm
    rw [halarm]
    exact herror

end Phases

section Samples

/-- A test that draws the digit five and fails, except in its second execution:
then it draws a boolean and passes. -/
def driftingOutcome : Nat → CaseOutcome
  | 1 => ⟨⟨.valid, [.mk (.boolean ⟨.zero⟩ false) false], [], none⟩, ∅, false⟩
  | _ => ⟨⟨.interesting,
      [.mk (.integer ⟨0, 9, 0, IntegerChoice.digits_ordered⟩ 5) false], [],
      some "panic"⟩, ∅, false⟩

/-- The failure is stored with a digit that is not drawn any more; a boolean is
stored as a displaced failure, or nothing is. -/
def driftingEnvironment (displaced : List Bytes) :
    Environment Nat DatabaseFiles where
  layout := ⟨0, 0, 0⟩
  database := directoryTestCaseDatabase
  stored := directoryTestCaseDatabase.applyAll ∅
    (.save [97] [2, 0, 0, 0, 0, 10, 1, 0, 0, 0, 5, 0, 10, 1, 0, 0, 0, 1] ::
      displaced.map (.save (secondaryKey [97])))
  execute executions _ := (.ok (driftingOutcome executions), executions + 1)
  random executions := (0, executions)
  now executions := (none, executions)
  shrinkBudget := 300
  firstBugLongAgo executions := (false, executions)
  tooSlow _ := false

def replayAndShrink : RunSettings := ⟨10, [.reuse, .shrink], true, []⟩

/-- The second execution replays the displaced failure.  It draws another kind
than the first one did, and the failure is reported nevertheless. -/
theorem explore_swallows :
    let _digits := UBigBytes.digits
    let env := driftingEnvironment [[1, 0, 0, 0, 1, 0]]
    let reached := explore env replayAndShrink (fun _ _ => ⟨.done, .done⟩) 4
      (.new replayAndShrink (some [97]) [] 0)
    ¬∀ case ∈ reached.2.cases, case.contradiction env.layout ≠ none →
      ∃ error, reached.1 = some (.error (.error error)) ∧
        (error = .flaky ∨ ∃ mismatch, error = .nonDeterministic mismatch) := by
  intro _digits env reached hends
  have hraised : (reached.2.cases.any fun case =>
      (case.contradiction env.layout).isSome) = true := by
    decide +kernel
  rw [List.any_eq_true] at hraised
  obtain ⟨case, hmem, hcase⟩ := hraised
  obtain ⟨error, herror, -⟩ := hends case hmem (Option.isSome_iff_ne_none.mp hcase)
  have hreport : reached.1.any Except.isOk = true := by
    decide +kernel
  rw [herror] at hreport
  cases hreport

/-- Without a displaced failure, the second execution is the verification of the
first. -/
theorem explore_contradiction_verified :
    let _digits := UBigBytes.digits
    let env := driftingEnvironment []
    let reached := explore env replayAndShrink (fun _ _ => ⟨.done, .done⟩) 4
      (.new replayAndShrink (some [97]) [] 0)
    ∀ case ∈ reached.2.cases, ∀ error,
      case.contradiction env.layout = some error →
        reached.1 = some (.error (.error error)) ∧
          (error = .flaky ∨
            ∃ mismatch, error = .nonDeterministic mismatch) := by
  intro _digits env
  apply explore_contradiction env replayAndShrink (fun _ _ => ⟨.done, .done⟩)
    (some [97]) [] 0 4
  intro case hmem hsite
  have hquiet : ((explore env replayAndShrink (fun _ _ => ⟨.done, .done⟩) 4
      (.new replayAndShrink (some [97]) [] 0)).2.cases.all fun case =>
        case.site != .secondaryCorpus) = true := by
    decide +kernel
  rw [List.all_eq_true] at hquiet
  have hother := hquiet case hmem
  rw [hsite] at hother
  cases hother

end Samples

end Hegel
