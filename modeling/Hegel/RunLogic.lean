/-
What a whole run keeps.  A run offers cases to the test function, deletes
entries that it read from the database, and lets a shrunk failure take the
place of its first example; what these three keep, and what is blind to the
rest, every part of a run keeps.  A failure is only replaced by one of its
origin that was executed.
-/
import Hegel.EngineShrinks
import Hegel.RunPhases

namespace Hegel

section Passes

open Program

variable {World Value : Type}
  {move : ShrinkState World → ShrinkState World → Prop}

theorem onNode_follows {program : ShrinkM World Value}
    (hfollows : Follows move program) : Follows move program.onNode :=
  hfollows

theorem absorbNodeGone_follows {program : PassM World Value}
    (hfollows : Follows move program) : Follows move (absorbNodeGone program) :=
  hfollows

/-- Whatever a pass does, it only performs operations of the shrinker. -/
theorem PassCode.perform_follows (code : PassCode) :
    ∀ {World : Type} (testFn : ShrinkProbe World),
      Follows (ShrinkMove testFn) (code.perform testFn) := by
  induction code with
  | done => exact fun _ => follows_pure _
  | nodeGone => exact fun _ => follows_throw _
  | stop => exact fun _ => follows_throw _
  | fail error => exact fun _ => follows_throw _
  | look next ih =>
      intro _ testFn
      apply follows_bind follows_get
      intro state
      exact ih state.shrinker testFn
  | consider nodes next ih =>
      intro _ testFn
      apply follows_bind (onNode_follows
        (consider_holds (shrinkMove_passLogic testFn) nodes))
      exact fun adopted => ih adopted testFn
  | replace values next ih =>
      intro _ testFn
      apply follows_bind (onNode_follows
        (replace_holds (shrinkMove_passLogic testFn).operations values))
      exact fun adopted => ih adopted testFn
  | probe prefixValues maxSize next ih =>
      intro _ testFn
      apply follows_bind (onNode_follows
        (probe_holds (shrinkMove_passLogic testFn) prefixValues maxSize))
      exact fun _ => ih testFn
  | runTestFn run next ih =>
      intro _ testFn
      apply follows_bind (onNode_follows
        ((shrinkMove_passLogic testFn).inspect run))
      exact fun outcome => ih outcome testFn
  | call operation next ih =>
      intro _ testFn
      apply follows_bind (onNode_follows (follows_call testFn operation))
      exact fun _ => ih testFn
  | pass routine next ih =>
      intro _ testFn
      apply follows_bind (onNode_follows
        (routine.perform_holds shrinkMove_passFamily testFn))
      exact fun _ => ih testFn
  | node work next ihWork ih =>
      intro _ testFn
      apply follows_bind (onNode_follows
        (absorbNodeGone_follows (ihWork testFn)))
      exact fun _ => ih testFn
  | cloneStream i nested next ihNested ih =>
      intro World testFn
      apply follows_bind follows_get
      intro state
      cases state.shrinker.currentNodes[i]? with
      | none => exact ih testFn
      | some clone =>
          apply follows_bind (onNode_follows (shrinkCloneStreamAt_holds
            (shrinkMove_passLogic testFn).operations
            (fun i stream => shrinkNested_follows testFn
              (fun inner => absorbNodeGone_follows (ihNested inner)) i stream)
            i clone))
          exact fun _ => ih testFn

/-- So does a plan. -/
theorem runPlan_reaches (plan : ShrinkPlan) (testFn : ShrinkProbe World)
    (state : ShrinkState World) :
    ShrinkReaches testFn state (runPlan plan testFn state).2 := by
  have hcoarse := absorbNodeGone_follows
    (plan.coarse.perform_follows testFn) state
  rw [runPlan]
  rw [after] at hcoarse
  rcases hreduced : (plan.coarse.run testFn).exec state with ⟨reduced, middle⟩
  rw [← PassCode.run, hreduced] at hcoarse
  dsimp only at hcoarse ⊢
  cases absorbStop reduced with
  | error error => exact hcoarse
  | ok value =>
      exact hcoarse.trans
        (absorbNodeGone_follows (plan.passes.perform_follows testFn) middle)

end Passes

variable {World Store : Type}

/-- What was recorded is the same, but for whether statistics are collected. -/
structure Explorer.SameRecord (explorer after : Explorer World) : Prop where
  engine : ∃ collectStatistics, after.engine =
    { explorer.engine with collectStatistics := collectStatistics }
  cases : after.cases = explorer.cases

theorem Explorer.SameRecord.of_engine {explorer after : Explorer World}
    (hengine : after.engine = explorer.engine)
    (hcases : after.cases = explorer.cases) : explorer.SameRecord after :=
  ⟨⟨explorer.engine.collectStatistics, hengine⟩, hcases⟩

/-- The explorer after some operations were emitted to the database. -/
def Explorer.emitting (explorer : Explorer World) (ops : List DatabaseOp) :
    Explorer World :=
  { explorer with
    engine := { explorer.engine with
      emitted := explorer.engine.emitted ++ ops } }

/-- The explorer after an example was replaced. -/
def Explorer.replacing (explorer : Explorer World) (origin : String)
    (nodes : List ChoiceNode) : Explorer World :=
  { explorer with
    engine := { explorer.engine with
      interesting := explorer.engine.interesting.insert origin nodes } }

/-- The operation deletes the entry under the key or under its secondary
one. -/
def DatabaseOp.Deletes (key raw : Bytes) (op : DatabaseOp) : Prop :=
  op = .delete key raw ∨ op = .delete (secondaryKey key) raw

/-- An invariant of runs.  Under it what is read from the database is known, and
only executed runs are served. -/
structure ExploreLogic [UBigBytes] (env : Environment World Store)
    (databaseKey : Option Bytes) (known : Bytes → Prop)
    (inv : Explorer World → Prop) : Prop where
  keyed : ∀ {explorer}, inv explorer →
    explorer.engine.databaseKey = databaseKey
  tested : ∀ {explorer} site request, inv explorer →
    inv (explorer.testFunction env site request).2
  unrecorded : ∀ {explorer after}, explorer.SameRecord after → inv explorer →
    inv after
  fetched : ∀ {explorer key raw}, inv explorer → databaseKey = some key →
    raw ∈ explorer.fetch env key ∨ raw ∈ explorer.fetch env (secondaryKey key) →
      known raw
  deleted : ∀ {explorer key raw ops}, inv explorer → databaseKey = some key →
    known raw → (∀ op ∈ ops, DatabaseOp.Deletes key raw op) →
      inv (explorer.emitting ops)
  served : ∀ {explorer choices run}, inv explorer →
    explorer.engine.served choices = some run → run ∈ explorer.engine.executed
  replaced : ∀ {explorer origin run}, inv explorer →
    run ∈ explorer.engine.executed → run.FailsWith origin →
      inv (explorer.replacing origin run.nodes)

section Testing

variable [UBigBytes] (env : Environment World Store)
  {databaseKey : Option Bytes} {known : Bytes → Prop}
  {inv : Explorer World → Prop}

/-- What an operation that may execute a case does; what it answers with was
executed. -/
structure Explorer.Tests (inv : Explorer World → Prop)
    (explorer : Explorer World) (answer : Except RunError RunResult)
    (after : Explorer World) : Prop where
  inv : inv after
  executed : explorer.engine.executed ⊆ after.engine.executed
  answered : ∀ run, answer = .ok run → run ∈ after.engine.executed

omit [UBigBytes] in
theorem Engine.noticeConcurrency_executed {Rng : Type} (engine : Engine Rng)
    (concurrentMachine : Bool) :
    (engine.noticeConcurrency concurrentMachine).executed =
      engine.executed := by
  rw [Engine.noticeConcurrency]
  split
  · rfl
  · rfl

/-- An outcome is appended to what was executed. -/
theorem testFunction_executed (site : CaseSite) (request : CaseRequest)
    (explorer : Explorer World) :
    (explorer.testFunction env site request).2.engine.executed =
      explorer.engine.executed ++
        match (explorer.testFunction env site request).1 with
        | .ok (outcome, _) => [outcome.run]
        | .error _ => [] := by
  rw [Explorer.testFunction]
  rcases env.execute explorer.world request with ⟨answer, world⟩
  cases answer with
  | error error => exact (List.append_nil _).symm
  | ok outcome =>
      have hrecords := (explorer.engine.noticeConcurrency
        outcome.concurrentMachine).records_recordRun outcome.run env.layout
      exact hrecords.executed.trans
        (congrArg (· ++ [outcome.run]) (Engine.noticeConcurrency_executed _ _))

variable {env} (hlogic : ExploreLogic env databaseKey known inv)

include hlogic

theorem runCase_tests (site : CaseSite) (request : CaseRequest)
    {explorer : Explorer World} (hinv : inv explorer) :
    explorer.Tests inv
      ((explorer.runCase env site request).1.map CaseOutcome.run)
      (explorer.runCase env site request).2 := by
  have hafter := hlogic.tested site request hinv
  have hexecuted := testFunction_executed env site request explorer
  rw [Explorer.runCase]
  rcases htest : explorer.testFunction env site request with ⟨answer, after⟩
  rw [htest] at hafter hexecuted
  have hsubset : explorer.engine.executed ⊆ after.engine.executed := by
    intro run hrun
    rw [hexecuted]
    exact List.mem_append_left _ hrun
  cases answer with
  | error error => exact ⟨hafter, hsubset, nofun⟩
  | ok value =>
      obtain ⟨outcome, mismatch⟩ := value
      cases mismatch with
      | some error => exact ⟨hafter, hsubset, nofun⟩
      | none =>
          refine ⟨hafter, hsubset, ?_⟩
          rintro run hrun
          cases hrun
          rw [hexecuted]
          exact List.mem_append_right _ (List.mem_singleton_self _)

theorem cachedTestFunction_tests (site : CaseSite) (choices : List ChoiceValue)
    (nodes : Option (List ChoiceNode)) (extend : Nat)
    {explorer : Explorer World} (hinv : inv explorer) :
    explorer.Tests inv
      (explorer.cachedTestFunction env site choices nodes extend).1
      (explorer.cachedTestFunction env site choices nodes extend).2 := by
  rw [Explorer.cachedTestFunction]
  cases hserved : explorer.engine.served choices with
  | some hit =>
      refine ⟨hinv, fun _ hrun => hrun, ?_⟩
      rintro run hrun
      cases hrun
      exact hlogic.served hinv hserved
  | none => exact runCase_tests hlogic site _ hinv

omit [UBigBytes] hlogic in
/-- What the shrinker is told of a query. -/
theorem Explorer.Tests.told {explorer : Explorer World} (origin : String)
    {reached : Except RunError RunResult × Explorer World}
    (htests : explorer.Tests inv reached.1 reached.2) :
    let told : Except ShrinkHalt ShrinkOutcome × Explorer World :=
      match reached.1 with
      | .ok run => (.ok ⟨decide (run.status = .interesting) &&
          decide (run.origin = some origin), run.nodes, run.spans⟩,
          reached.2)
      | .error error => (.error (.error error), reached.2)
    inv told.2 ∧ explorer.engine.executed ⊆ told.2.engine.executed ∧
      ∀ outcome, told.1 = .ok outcome →
        ∃ run ∈ told.2.engine.executed, Reports origin run outcome := by
  obtain ⟨answer, after⟩ := reached
  obtain ⟨hafter, hsubset, hanswered⟩ := htests
  cases answer with
  | error error => exact ⟨hafter, hsubset, by simp⟩
  | ok run =>
      refine ⟨hafter, hsubset, ?_⟩
      rintro outcome houtcome
      cases houtcome
      exact ⟨run, hanswered run rfl, reports_run origin run⟩

/-- What the shrinker is told about was executed. -/
theorem exploreShrinkProbe_tests (origin : String) (req : ShrinkRun)
    {explorer : Explorer World} (hinv : inv explorer) :
    let reached := (exploreShrinkProbe env origin).run explorer req
    inv reached.2 ∧ explorer.engine.executed ⊆ reached.2.engine.executed ∧
      ∀ outcome, reached.1 = .ok outcome →
        ∃ run ∈ reached.2.engine.executed, Reports origin run outcome := by
  cases req with
  | full nodes => exact (cachedTestFunction_tests hlogic _ _ _ _ hinv).told origin
  | probe prefixValues maxSize =>
      exact (cachedTestFunction_tests hlogic _ _ _ _ hinv).told origin

/-- Looking at the clock leaves what was recorded alone. -/
theorem exploreTicks_inv {origin : String} {explorer after : Explorer World}
    (hticks : (exploreShrinkProbe env origin).Ticks explorer after)
    (hinv : inv explorer) :
    inv after ∧ after.engine.executed = explorer.engine.executed := by
  cases hticks with
  | still => exact ⟨hinv, rfl⟩
  | read =>
      have hsame : explorer.SameRecord
          ((exploreShrinkProbe env origin).now explorer).2 :=
        .of_engine rfl rfl
      exact ⟨hlogic.unrecorded hsame hinv, rfl⟩

theorem exploreRuns_inv {origin : String} {explorer after : Explorer World}
    {answer : Except ShrinkHalt ShrinkOutcome}
    (hruns : (exploreShrinkProbe env origin).Runs explorer answer after)
    (hinv : inv explorer) :
    inv after ∧ explorer.engine.executed ⊆ after.engine.executed ∧
      ∀ outcome, answer = .ok outcome →
        ∃ run ∈ after.engine.executed, Reports origin run outcome := by
  obtain ⟨asked, req, hticks, hrun⟩ := hruns
  obtain ⟨hasked, hexecuted⟩ := exploreTicks_inv hlogic hticks hinv
  have htests := exploreShrinkProbe_tests hlogic origin req hasked
  rw [hrun, hexecuted] at htests
  exact htests

end Testing

section Shrinking

variable [UBigBytes] {env : Environment World Store}
  {databaseKey : Option Bytes} {known : Bytes → Prop}
  {inv : Explorer World → Prop}

/-- While a failure is shrunk, the shrinker's failures were executed. -/
structure ShrinkState.Explores (env : Environment World Store)
    (inv : Explorer World → Prop) (origin : String) (first : RunResult)
    (state : ShrinkState (Explorer World)) : Prop where
  inv : inv state.world
  sound : state.Sound (exploreShrinkProbe env origin) first.nodes first.spans
  failing : first ∈ state.world.engine.executed ∧ first.FailsWith origin
  recorded : ∀ event ∈ state.history, event.outcome.isInteresting = true →
    ∃ run ∈ state.world.engine.executed, run.FailsWith origin ∧
      run.nodes = event.outcome.actualNodes

variable {origin : String} {first : RunResult}
  {state state' : ShrinkState (Explorer World)}

theorem ShrinkState.Explores.step
    (hlogic : ExploreLogic env databaseKey known inv)
    (hexplores : state.Explores env inv origin first)
    (hmove : ShrinkMove (exploreShrinkProbe env origin) state state') :
    state'.Explores env inv origin first := by
  have hsound := hexplores.sound.step hmove.effect
  obtain ⟨events, hhistory, hobserves⟩ := hmove.effect.observes
  -- what happened before stays executed
  have hgrown : ∀ hnew : ∀ event ∈ events, event.outcome.isInteresting = true →
      ∃ run ∈ state'.world.engine.executed, run.FailsWith origin ∧
        run.nodes = event.outcome.actualNodes,
      inv state'.world →
      state.world.engine.executed ⊆ state'.world.engine.executed →
        state'.Explores env inv origin first := by
    intro hnew hinv hsubset
    refine ⟨hinv, hsound, ⟨hsubset hexplores.failing.1, hexplores.failing.2⟩, ?_⟩
    intro event hevent hinteresting
    rw [hhistory, List.mem_append] at hevent
    rcases hevent with hold | hadded
    · obtain ⟨run, hrun, hfails⟩ :=
        hexplores.recorded event hold hinteresting
      exact ⟨run, hsubset hrun, hfails⟩
    · exact hnew event hadded hinteresting
  cases hobserves with
  | quiet hticks =>
      obtain ⟨hinv, hexecuted⟩ := exploreTicks_inv hlogic hticks hexplores.inv
      exact hgrown nofun hinv (fun _ hrun => hexecuted.symm ▸ hrun)
  | halted halt hruns =>
      obtain ⟨hinv, hsubset, -⟩ := exploreRuns_inv hlogic hruns hexplores.inv
      exact hgrown nofun hinv hsubset
  | answered event hruns =>
      obtain ⟨hinv, hsubset, hreported⟩ :=
        exploreRuns_inv hlogic hruns hexplores.inv
      refine hgrown ?_ hinv hsubset
      intro other hother hinteresting
      rw [List.mem_singleton] at hother
      subst hother
      obtain ⟨run, hrun, hreports⟩ := hreported _ rfl
      exact ⟨run, hrun, hreports.isInteresting.mp hinteresting,
        hreports.actualNodes.symm⟩

theorem ShrinkState.Explores.reaches
    (hlogic : ExploreLogic env databaseKey known inv)
    (hexplores : state.Explores env inv origin first)
    (hreaches : ShrinkReaches (exploreShrinkProbe env origin) state state') :
    state'.Explores env inv origin first := by
  induction hreaches with
  | refl => exact hexplores
  | tail _ hmove ih => exact ih.step hlogic hmove

/-- What a shrink ends on was executed and failed. -/
theorem runPlan_explores (hlogic : ExploreLogic env databaseKey known inv)
    (plan : ShrinkPlan) (deadline : Option Nat) {explorer : Explorer World}
    (hinv : inv explorer) (hfirst : first ∈ explorer.engine.executed)
    (hfails : first.FailsWith origin) :
    let state := (runPlan plan (exploreShrinkProbe env origin)
      (.start first.nodes first.spans deadline explorer)).2
    inv state.world ∧ ∃ run ∈ state.world.engine.executed,
      run.FailsWith origin ∧ run.nodes = state.currentNodes := by
  have hstart : ShrinkState.Explores env inv origin first
      (.start first.nodes first.spans deadline explorer) :=
    ⟨hinv, sound_start _ _ _ _, ⟨hfirst, hfails⟩, nofun⟩
  have hexplores := hstart.reaches hlogic
    (runPlan_reaches plan (exploreShrinkProbe env origin) _)
  refine ⟨hexplores.inv, ?_⟩
  rcases hexplores.sound.paired with ⟨hnodes, -⟩ | ⟨event, hevent, houtcome⟩
  · exact ⟨first, hexplores.failing.1, hexplores.failing.2, hnodes.symm⟩
  · have hinteresting : event.outcome.isInteresting = true := by rw [houtcome]
    obtain ⟨run, hrun, hfailed, hnodes⟩ :=
      hexplores.recorded event hevent hinteresting
    exact ⟨run, hrun, hfailed, by rw [hnodes, houtcome]⟩

end Shrinking

section Phases

open Looping

/-- The invariant holds, and what is reported is what the state shows. -/
def Explorer.Ends [UBigBytes] (env : Environment World Store)
    (settings : RunSettings) (inv : Explorer World → Prop)
    (result : Option (Except RunHalt (TestRunResult Store)))
    (after : Explorer World) : Prop :=
  inv after ∧ ∀ report, result = some (.ok report) →
    report = conclude env settings after.engine

variable [UBigBytes] {env : Environment World Store} (settings : RunSettings)
  {databaseKey : Option Bytes} {known : Bytes → Prop}
  {inv : Explorer World → Prop}
  (hlogic : ExploreLogic env databaseKey known inv)

include hlogic

theorem runCase_keeps (site : CaseSite) (request : CaseRequest) :
    Keeps inv (ExploreM.lift fun explorer =>
      explorer.runCase env site request) :=
  keeps_ofResult fun _ hinv => (runCase_tests hlogic site request hinv).inv

/-- The outcome that comes out was executed. -/
theorem runCase_meets (site : CaseSite) (request : CaseRequest)
    {explorer : Explorer World} (hinv : inv explorer) :
    Meets (ExploreM.lift fun explorer => explorer.runCase env site request)
      explorer fun result after => inv after ∧ ∀ outcome,
        result = some (.ok outcome) → outcome.run ∈ after.engine.executed := by
  have htests := runCase_tests hlogic site request hinv
  apply meets_ofResult
  dsimp only
  rcases hrun : explorer.runCase env site request with ⟨answer, after⟩
  rw [hrun] at htests
  refine ⟨htests.inv, ?_⟩
  intro outcome houtcome
  cases answer with
  | error error => cases houtcome
  | ok value =>
      cases houtcome
      exact htests.answered _ rfl

/-- An operation that changes nothing that was recorded. -/
theorem unrecorded_keeps {Value : Type}
    {run : Explorer World → Except RunHalt Value × Explorer World}
    (hrun : ∀ explorer : Explorer World,
      explorer.SameRecord (run explorer).2) :
    Keeps inv (ofResult run) :=
  keeps_ofResult fun explorer hinv => hlogic.unrecorded (hrun explorer) hinv

theorem choose_keeps (bound : Nat) : Keeps inv (choose env bound) :=
  unrecorded_keeps hlogic fun _ => .of_engine rfl rfl

section Targeting

variable (optimiser : Optimiser)

theorem runTrial_keeps (choices : List ChoiceValue) :
    Keeps inv (optimiser.runTrial env choices) := by
  apply keeps_read
  intro explorer _
  apply keeps_ite (fun _ => keeps_pure _)
  intro _
  apply keeps_bind (runCase_keeps hlogic _ _)
  intro outcome
  exact keeps_pure _

theorem tryReplace_keeps (target : String) (idx : Nat) (delta : Int)
    (climb : Climb) :
    Keeps inv (optimiser.tryReplace env target idx delta climb) := by
  apply keeps_ite (fun _ => keeps_pure _)
  intro _
  cases climb.nodes[idx]? with
  | none => exact keeps_halt _
  | some node =>
      dsimp only
      cases stepChoice node delta with
      | none => exact keeps_pure _
      | some newVal =>
          apply keeps_ite
          · intro _
            apply keeps_bind (runTrial_keeps hlogic optimiser _)
            intro trial
            cases trial with
            | none => exact keeps_pure _
            | some trial => exact keeps_pure _
          · exact fun _ => keeps_halt _

theorem climbFrom_keeps (target : String) (idx : Nat) (sign : Int)
    (climb : Climb) :
    Keeps inv (optimiser.climbFrom env target idx sign climb) := by
  apply keeps_loop
  rintro ⟨search, climbing⟩
  dsimp only
  cases FindInteger.probe search with
  | none => exact keeps_pure _
  | some k =>
      apply keeps_bind (tryReplace_keeps hlogic optimiser target idx _ _)
      intro answer
      exact keeps_pure _

theorem climbNode_keeps (target : String) (idx : Nat) (climb : Climb) :
    Keeps inv (optimiser.climbNode env target idx climb) := by
  rw [Optimiser.climbNode]
  cases climb.nodes[idx]? with
  | none => exact keeps_halt _
  | some node =>
      apply keeps_ite
      · intro _
        apply keeps_bind (climbFrom_keeps hlogic optimiser target idx 1 _)
        intro climbed
        exact keeps_ite
          (fun _ => climbFrom_keeps hlogic optimiser target idx (-1) _)
          fun _ => keeps_pure _
      · exact fun _ => keeps_pure _

theorem climbRound_keeps (target : String) (maxImprovements : Nat)
    (climb : Climb) :
    Keeps inv (optimiser.climbRound env target maxImprovements climb) := by
  apply keeps_ite
  · intro _
    apply keeps_ite (fun _ => keeps_pure _)
    intro _
    apply keeps_ite (fun _ => keeps_pure _)
    intro _
    apply keeps_bind (climbNode_keeps hlogic optimiser target _ _)
    intro climbed
    exact keeps_pure _
  · exact fun _ => keeps_pure _

theorem hillClimb_keeps (target : String) (maxImprovements : Nat) :
    Keeps inv (optimiser.hillClimb env target maxImprovements) := by
  apply keeps_read
  intro explorer _
  cases explorer.targeting.lookup target with
  | none => exact keeps_halt _
  | some best =>
      apply keeps_bind (runTrial_keeps hlogic optimiser _)
      intro trial
      cases trial with
      | none => exact keeps_pure _
      | some trial =>
          apply keeps_ite
          · intro _
            exact keeps_loop (climbRound_keeps hlogic optimiser target _) _
          · exact fun _ => keeps_pure _

theorem climbTargets_keeps (maxImprovements : Nat) (anyImprovements : Bool)
    (targets : List String) :
    Keeps inv (optimiser.climbTargets env maxImprovements anyImprovements
      targets) := by
  induction targets generalizing anyImprovements with
  | nil => exact keeps_pure _
  | cons target rest ih =>
      apply keeps_bind (hillClimb_keeps hlogic optimiser target _)
      intro improvements
      exact ih _

theorem optimiseTargets_keeps :
    Keeps inv (optimiser.optimiseTargets env) := by
  apply keeps_read
  intro explorer _
  apply keeps_loop
  intro maxImprovements
  apply keeps_read
  intro before _
  apply keeps_bind (climbTargets_keeps hlogic optimiser _ _ _)
  intro anyImprovements
  apply keeps_read
  intro after _
  exact keeps_ite (fun _ => keeps_pure _) fun _ => keeps_pure _

end Targeting

section Generation

theorem chooseSpans_keeps (groups : List (List (Nat × Nat))) :
    Keeps inv (chooseSpans env groups) := by
  apply keeps_bind (choose_keeps hlogic _)
  intro groupIdx
  apply keeps_bind (choose_keeps hlogic _)
  intro iA
  apply keeps_bind (choose_keeps hlogic _)
  intro iB
  exact keeps_pure _

theorem chooseDonor_keeps (a b : Nat × Nat) :
    Keeps inv (chooseDonor env a b) := by
  apply keeps_ite (fun _ => keeps_pure _)
  intro _
  apply keeps_bind (choose_keeps hlogic _)
  intro donor
  exact keeps_pure _

theorem trySpanMutation_keeps (nodes : List ChoiceNode) (spans : List Span) :
    Keeps inv (trySpanMutation env settings nodes spans) := by
  apply keeps_ite (fun _ => keeps_pure _)
  intro _
  apply keeps_loop
  intro attempts
  cases attempts with
  | zero => exact keeps_pure _
  | succ attempts =>
      apply keeps_read
      intro explorer _
      apply keeps_ite (fun _ => keeps_pure _)
      intro _
      apply keeps_bind (chooseSpans_keeps hlogic _)
      rintro ⟨a, b⟩
      apply keeps_bind (chooseDonor_keeps hlogic a b)
      intro donateFirst
      apply keeps_bind
      · exact keeps_ofResult fun explorer hinv =>
          (cachedTestFunction_tests hlogic _ _ _ _ hinv).inv
      · intro run
        exact keeps_ite (fun _ => keeps_pure _) fun _ => keeps_pure _

theorem mayGenerate_keeps : Keeps inv (mayGenerate env settings) := by
  apply keeps_read
  intro explorer _
  apply keeps_ite
  · intro _
    have hlate : Keeps inv (readLate env) := by
      apply unrecorded_keeps hlogic
      intro explorer
      split
      · exact .of_engine rfl rfl
      · exact .of_engine rfl rfl
    apply keeps_bind hlate
    intro late
    exact keeps_pure _
  · exact fun _ => keeps_pure _

theorem fireTargets_keeps : Keeps inv (fireTargets env settings) := by
  apply keeps_read
  intro explorer _
  apply keeps_ite
  · intro _
    apply keeps_bind
    · apply keeps_modify
      intro explorer hinv
      refine hlogic.unrecorded ?_ hinv
      exact .of_engine rfl rfl
    · intro _
      exact keeps_ite (fun _ => optimiseTargets_keeps hlogic _)
        fun _ => keeps_pure _
  · exact fun _ => keeps_pure _

theorem randomCase_keeps : Keeps inv (randomCase env settings) := by
  apply keeps_bind (runCase_keeps hlogic _ _)
  intro outcome
  apply keeps_read
  intro explorer _
  cases failedHealthCheck settings explorer.engine outcome.run.status
      (env.tooSlow explorer.world) with
  | some check => exact keeps_halt _
  | none =>
      apply keeps_bind (fireTargets_keeps settings hlogic)
      intro _
      apply keeps_read
      intro explorer _
      exact keeps_ite (fun _ => trySpanMutation_keeps settings hlogic _ _)
        fun _ => keeps_pure _

theorem generateBatch_keeps : Keeps inv (generateBatch env settings) := by
  apply keeps_loop
  intro remaining
  cases remaining with
  | zero => exact keeps_pure _
  | succ remaining =>
      apply keeps_bind (mayGenerate_keeps settings hlogic)
      intro may
      apply keeps_ite
      · intro _
        apply keeps_bind (randomCase_keeps settings hlogic)
        intro _
        exact keeps_pure _
      · exact fun _ => keeps_pure _

theorem generateCases_keeps : Keeps inv (generateCases env settings) := by
  apply keeps_read
  intro explorer _
  apply keeps_ite
  · intro _
    have hsimplest : Keeps inv (probeSimplest env settings) := by
      apply keeps_read
      intro explorer _
      apply keeps_ite
      · intro _
        apply keeps_bind (runCase_keeps hlogic _ _)
        intro outcome
        exact keeps_ite (fun _ => keeps_halt _) fun _ => keeps_pure _
      · exact fun _ => keeps_pure _
    apply keeps_bind hsimplest
    intro _
    apply keeps_loop
    intro _
    apply keeps_bind (mayGenerate_keeps settings hlogic)
    intro may
    apply keeps_ite
    · intro _
      apply keeps_bind (generateBatch_keeps settings hlogic)
      intro _
      exact keeps_pure _
    · exact fun _ => keeps_pure _
  · exact fun _ => keeps_pure _

theorem generationPhase_keeps : Keeps inv (generationPhase env settings) := by
  apply keeps_bind
  · exact keeps_modify fun explorer hinv => hlogic.unrecorded ⟨⟨true, rfl⟩, rfl⟩ hinv
  · intro _
    apply keeps_bind (generateCases_keeps settings hlogic)
    intro _
    apply keeps_read
    intro explorer _
    cases generationError settings explorer.engine with
    | some error => exact keeps_halt _
    | none =>
        exact keeps_modify fun explorer hinv =>
          hlogic.unrecorded ⟨⟨false, rfl⟩, rfl⟩ hinv

end Generation

section Replaying

theorem choose_supplies {bound : Nat} (hbound : 0 < bound) :
    Supplies inv (· < bound) (choose env bound) := by
  apply supplies_ofResult
  intro explorer hinv
  refine ⟨hlogic.unrecorded ?_ hinv, ?_⟩
  · exact .of_engine rfl rfl
  · rintro value hvalue
    cases hvalue
    exact Nat.mod_lt _ hbound

omit [UBigBytes] hlogic in
theorem forall_mem_exchange {holds : Bytes → Prop} {entries : List Bytes}
    (hentries : ∀ raw ∈ entries, holds raw) {i j : Nat}
    (hi : i < entries.length) (hj : j < entries.length) :
    ∀ raw ∈ (entries.set i (entries.getD j [])).set j (entries.getD i []),
      holds raw := by
  intro raw hraw
  rw [List.getD_eq_getElem?_getD, List.getD_eq_getElem?_getD,
    List.getElem?_eq_getElem hi, List.getElem?_eq_getElem hj,
    Option.getD_some, Option.getD_some] at hraw
  rcases List.mem_or_eq_of_mem_set hraw with hset | rfl
  · rcases List.mem_or_eq_of_mem_set hset with hold | rfl
    · exact hentries raw hold
    · exact hentries _ (List.getElem_mem hj)
  · exact hentries _ (List.getElem_mem hi)

/-- Shuffling brings nothing in. -/
theorem shuffleFrom_supplies (i count : Nat) {extra : List Bytes}
    (hcount : i + count ≤ extra.length) (hextra : ∀ raw ∈ extra, known raw) :
    Supplies inv (fun shuffled => ∀ raw ∈ shuffled, known raw)
      (shuffleFrom env i count extra) := by
  induction count generalizing i extra with
  | zero => exact supplies_pure hextra
  | succ count ih =>
      have hbound : 0 < extra.length - i := by omega
      apply supplies_bind (choose_supplies hlogic hbound)
      intro offset hoffset
      apply ih
      · rw [List.length_set, List.length_set]
        omega
      · exact forall_mem_exchange hextra (by omega) (by omega)

omit [UBigBytes] hlogic in
theorem mem_sortedShortlex {entries : List Bytes} {raw : Bytes} :
    raw ∈ sortedShortlex entries ↔ raw ∈ entries :=
  (List.perm_insertionSort _ _).mem_iff

theorem secondaryEntries_supplies {key : Bytes}
    (hkey : databaseKey = some key) (primary : List Bytes) :
    Supplies inv (fun extra => ∀ raw ∈ extra, known raw)
      (secondaryEntries env settings key primary) := by
  apply supplies_ite
  · intro _
    apply supplies_bind supplies_read
    intro explorer hinv
    have hextra : ∀ raw ∈ (explorer.fetch env (secondaryKey key)).filter
        fun entry => entry ∉ primary, known raw :=
      fun raw hraw =>
        hlogic.fetched hinv hkey (.inr (List.mem_filter.mp hraw).1)
    apply supplies_ite
    · intro hshort
      apply supplies_bind (shuffleFrom_supplies hlogic _ _
        (by rw [Nat.zero_add]; exact Nat.le_of_lt hshort) hextra)
      intro shuffled hshuffled
      apply supplies_pure
      intro raw hraw
      exact hshuffled raw (List.mem_of_mem_take (mem_sortedShortlex.mp hraw))
    · intro _
      apply supplies_pure
      intro raw hraw
      exact hextra raw (mem_sortedShortlex.mp hraw)
  · exact fun _ => supplies_pure nofun

/-- Deleting an entry that was read. -/
theorem delete_keeps {key raw : Bytes} (hkey : databaseKey = some key)
    (hknown : known raw) {ops : List DatabaseOp}
    (hops : ∀ op ∈ ops, op.Deletes key raw) : Keeps inv (emit ops) :=
  keeps_modify fun _ hinv => hlogic.deleted hinv hkey hknown hops

theorem forget_keeps {key raw : Bytes} (hkey : databaseKey = some key)
    (hknown : known raw) : Keeps inv (forget key raw) := by
  apply delete_keeps hlogic hkey hknown
  intro op hop
  rcases List.mem_cons.mp hop with rfl | hop
  · exact .inl rfl
  · exact .inr (List.mem_singleton.mp hop)

theorem replayEntry_keeps {key raw : Bytes} (hkey : databaseKey = some key)
    (hknown : known raw) (primary : Bool) (progress : ReuseProgress) :
    Keeps inv (replayEntry env settings key raw primary progress) := by
  rw [replayEntry]
  cases deserializeChoices .usize64 raw with
  | fault reason => exact keeps_halt _
  | rejected =>
      apply keeps_bind (forget_keeps hlogic hkey hknown)
      intro _
      exact keeps_pure _
  | done stored =>
      apply keeps_bind (runCase_keeps hlogic _ _)
      intro outcome
      apply keeps_read
      intro explorer _
      apply keeps_ite
      · intro _
        apply keeps_ite (fun _ => keeps_pure _)
        intro _
        exact keeps_ite (fun _ => keeps_pure _) fun _ => keeps_pure _
      · intro _
        apply keeps_bind (forget_keeps hlogic hkey hknown)
        intro _
        exact keeps_ite (fun _ => keeps_pure _) fun _ => keeps_pure _

theorem replayEntries_keeps {key : Bytes} (hkey : databaseKey = some key)
    {entries : List (Bytes × Bool)} (hentries : ∀ entry ∈ entries, known entry.1)
    (progress : ReuseProgress) :
    Keeps inv (replayEntries env settings key entries progress) := by
  induction entries generalizing progress with
  | nil => exact keeps_pure _
  | cons entry rest ih =>
      obtain ⟨hentry, hrest⟩ := List.forall_mem_cons.mp hentries
      apply keeps_ite (fun _ => keeps_pure _)
      intro _
      apply keeps_bind (replayEntry_keeps settings hlogic hkey hentry _ _)
      intro answer
      exact keeps_ite (fun _ => ih hrest _) fun _ => keeps_pure _

theorem reusePhase_keeps : Keeps inv (reusePhase env settings) := by
  apply keeps_read
  intro explorer hinv
  cases hstored : explorer.engine.databaseKey with
  | none => exact keeps_pure _
  | some key =>
      have hkey : databaseKey = some key := (hlogic.keyed hinv).symm.trans hstored
      apply keeps_ite
      · intro _
        apply keeps_supplied (secondaryEntries_supplies settings hlogic hkey _)
        intro extra hextra
        have hentries : ∀ entry ∈
            (sortedShortlex (explorer.fetch env key)).map (·, true) ++
              extra.map (·, false), known entry.1 := by
          intro entry hentry
          rcases List.mem_append.mp hentry with hprimary | hsecondary
          · obtain ⟨raw, hraw, rfl⟩ := List.mem_map.mp hprimary
            exact hlogic.fetched hinv hkey (.inl (mem_sortedShortlex.mp hraw))
          · obtain ⟨raw, hraw, rfl⟩ := List.mem_map.mp hsecondary
            exact hextra raw hraw
        apply keeps_bind (replayEntries_keeps settings hlogic hkey hentries _)
        intro progress
        apply keeps_read
        intro explorer _
        exact keeps_pure _
      · exact fun _ => keeps_pure _

theorem replaySecondaryCorpus_keeps {key : Bytes}
    (hkey : databaseKey = some key) (largest : Option Bytes)
    {entries : List Bytes} (hentries : ∀ raw ∈ entries, known raw) :
    Keeps inv (replaySecondaryCorpus env key largest entries) := by
  induction entries with
  | nil => exact keeps_pure _
  | cons raw rest ih =>
      obtain ⟨hraw, hrest⟩ := List.forall_mem_cons.mp hentries
      apply keeps_ite (fun _ => keeps_pure _)
      intro _
      have hreplay : Keeps inv (replayDisplaced env raw) := by
        rw [replayDisplaced]
        cases deserializeChoices .usize64 raw with
        | fault reason => exact keeps_halt _
        | rejected => exact keeps_pure _
        | done stored =>
            apply keeps_bind
            · exact keeps_ofResult fun _ hinv => hlogic.tested _ _ hinv
            · exact fun _ => keeps_pure _
      apply keeps_bind hreplay
      intro _
      apply keeps_bind
      · apply delete_keeps hlogic hkey hraw
        intro op hop
        exact .inr (List.mem_singleton.mp hop)
      · intro _
        exact ih hrest

theorem shrinkFailure_meets (plan : ShrinkPlan) (deadline : Option Nat)
    {origin : String} {verify : RunResult} {explorer : Explorer World}
    (hinv : inv explorer) (hverify : verify ∈ explorer.engine.executed)
    (hfails : verify.FailsWith origin) :
    Meets (shrinkFailure env plan origin verify deadline) explorer
      fun result after => inv after ∧ ∀ nodes, result = some (.ok nodes) →
        ∃ run ∈ after.engine.executed, run.FailsWith origin ∧
          run.nodes = nodes := by
  have hend := runPlan_explores hlogic plan deadline hinv hverify hfails
  rw [shrinkFailure]
  apply meets_ofResult
  dsimp only at hend ⊢
  generalize runPlan plan (exploreShrinkProbe env origin) _ = reached at hend ⊢
  obtain ⟨result, final⟩ := reached
  refine ⟨hend.1, ?_⟩
  intro nodes hnodes
  cases result with
  | error error => cases hnodes
  | ok value =>
      cases hnodes
      exact hend.2

/-- A failure is verified and shrunk from that execution. -/
theorem shrinkOrigin_keeps (plan : Explorer World → String → ShrinkPlan)
    (deadline : Option Nat) (origin : String) :
    Keeps inv (shrinkOrigin env plan deadline origin) := by
  apply keeps_read
  intro explorer _ state hstate
  apply meets_bind
  refine (runCase_meets hlogic _ _ hstate).mono ?_
  rintro result verified ⟨hverified, hexecuted⟩
  cases result with
  | none => exact hverified
  | some result =>
      cases result with
      | error reason => exact hverified
      | ok verify =>
          dsimp only
          split
          case isTrue => exact meets_halt hverified
          case isFalse hfails =>
            rw [not_or, not_not, not_not] at hfails
            apply meets_bind
            apply meets_read
            apply meets_bind
            refine (shrinkFailure_meets hlogic _ deadline hverified
              (hexecuted verify rfl) hfails).mono ?_
            rintro result shrunk ⟨hshrunk, htarget⟩
            cases result with
            | none => exact hshrunk
            | some result =>
                cases result with
                | error reason => exact hshrunk
                | ok nodes =>
                    apply meets_modify
                    obtain ⟨run, hrun, hfailed, rfl⟩ := htarget nodes rfl
                    exact hlogic.replaced hshrunk hrun hfailed

theorem shrinkPhase_keeps (plan : Explorer World → String → ShrinkPlan)
    (replayAligned : Bool) :
    Keeps inv (shrinkPhase env settings plan replayAligned) := by
  apply keeps_read
  intro explorer _
  apply keeps_ite
  · intro _
    have hsecondary : Keeps inv (secondaryReplay env) := by
      apply keeps_read
      intro explorer hinv
      cases hstored : explorer.engine.databaseKey with
      | none => exact keeps_pure _
      | some key =>
          have hkey : databaseKey = some key :=
            (hlogic.keyed hinv).symm.trans hstored
          apply replaySecondaryCorpus_keeps hlogic hkey
          intro raw hraw
          exact hlogic.fetched hinv hkey (.inr (mem_sortedShortlex.mp hraw))
    apply keeps_bind hsecondary
    intro _
    have hnow : Keeps inv (readNow env) :=
      unrecorded_keeps hlogic fun _ => .of_engine rfl rfl
    apply keeps_bind hnow
    intro now
    apply keeps_loop
    intro shrunkOrigins
    apply keeps_read
    intro explorer _
    cases pendingOrigin explorer.engine.interesting shrunkOrigins with
    | none => exact keeps_pure _
    | some origin =>
        apply keeps_bind (shrinkOrigin_keeps hlogic plan _ origin)
        intro _
        exact keeps_pure _
  · exact fun _ => keeps_pure _

/-- A run keeps the invariant, and reports what its last state shows. -/
theorem explore_meets (plan : Explorer World → String → ShrinkPlan)
    {explorer : Explorer World} (hinv : inv explorer) :
    Meets (explore env settings plan) explorer
      (Explorer.Ends env settings inv) := by
  have hstop : ∀ after, inv after →
      Explorer.Ends env settings inv none after ∧
        ∀ reason, Explorer.Ends env settings inv (some (.error reason)) after :=
    fun after hafter =>
      ⟨⟨hafter, by simp⟩, fun _ => ⟨hafter, by simp⟩⟩
  rw [explore]
  refine (reusePhase_keeps settings hlogic).meets_bind hinv hstop ?_
  intro replayAligned reused hreused
  refine (generationPhase_keeps settings hlogic).meets_bind hreused hstop ?_
  intro _ generated hgenerated
  refine (shrinkPhase_keeps settings hlogic plan replayAligned).meets_bind
    hgenerated hstop ?_
  intro _ shrunk hshrunk
  apply meets_bind
  apply meets_read
  apply meets_pure
  refine ⟨hshrunk, ?_⟩
  rintro report hreport
  cases hreport
  rfl

end Replaying

end Phases

end Hegel
