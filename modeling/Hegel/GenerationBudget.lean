/-
The budget of the generation phase.  Every executed case moves the counters, and
a random case that the counters allow lowers what they still allow; optimising
lowers the calls that are left, and mutations come a few at a time with a random
case.  So the phase comes to an end, and only the simplest case can be executed
when there are enough valid ones.
-/
import Hegel.RunPhases

namespace Hegel

section Counting

variable {Rng : Type}

/-- What recording a run does to the counters. -/
structure Engine.Counts (engine : Engine Rng) (status : Status)
    (engine' : Engine Rng) : Prop where
  calls : engine'.calls = engine.calls + 1
  valid : engine'.validTestCases =
    engine.validTestCases + if status = .valid then 1 else 0
  invalid : engine'.invalidTestCases =
    engine.invalidTestCases + if status = .invalid then 1 else 0
  overrun : engine'.overrunTestCases =
    engine.overrunTestCases + if status = .earlyStop then 1 else 0
  quiet : status ≠ .interesting → engine'.interesting = engine.interesting ∧
    engine'.firstBugAt = engine.firstBugAt
  failed : status = .interesting →
    engine'.interesting.entries.isEmpty = false ∧
      engine'.firstBugAt = engine.firstBugAt.or (some (engine.calls + 1))

/-- The counters are the same. -/
structure Engine.SameCounts (engine engine' : Engine Rng) : Prop where
  calls : engine'.calls = engine.calls
  valid : engine'.validTestCases = engine.validTestCases
  invalid : engine'.invalidTestCases = engine.invalidTestCases
  overrun : engine'.overrunTestCases = engine.overrunTestCases
  interesting : engine'.interesting = engine.interesting
  firstBugAt : engine'.firstBugAt = engine.firstBugAt

theorem Engine.SameCounts.refl (engine : Engine Rng) :
    engine.SameCounts engine :=
  ⟨rfl, rfl, rfl, rfl, rfl, rfl⟩

theorem Engine.SameCounts.counts {engine middle engine' : Engine Rng}
    {status : Status} (hsame : engine.SameCounts middle)
    (hcounts : middle.Counts status engine') : engine.Counts status engine' := by
  constructor
  · rw [hcounts.calls, hsame.calls]
  · rw [hcounts.valid, hsame.valid]
  · rw [hcounts.invalid, hsame.invalid]
  · rw [hcounts.overrun, hsame.overrun]
  · intro hstatus
    obtain ⟨hinteresting, hfirst⟩ := hcounts.quiet hstatus
    exact ⟨hinteresting.trans hsame.interesting,
      hfirst.trans hsame.firstBugAt⟩
  · intro hstatus
    obtain ⟨hinteresting, hfirst⟩ := hcounts.failed hstatus
    rw [hsame.firstBugAt, hsame.calls] at hfirst
    exact ⟨hinteresting, hfirst⟩

theorem noticeConcurrency_sameCounts (engine : Engine Rng)
    (concurrentMachine : Bool) :
    engine.SameCounts (engine.noticeConcurrency concurrentMachine) := by
  rw [Engine.noticeConcurrency]
  split
  · exact ⟨rfl, rfl, rfl, rfl, rfl, rfl⟩
  · exact .refl engine

theorem updateInteresting_nonempty (interesting : InterestingMap)
    (origin : String) (nodes : List ChoiceNode) :
    (updateInteresting interesting origin nodes).entries.isEmpty = false := by
  have hnonempty : ∀ map : InterestingMap, origin ∈ map →
      map.entries.isEmpty = false := by
    intro map hmem
    cases hentries : map.entries with
    | nil =>
        have hkeys : origin ∈ map.keys := hmem
        rw [AList.keys, hentries] at hkeys
        exact absurd hkeys List.not_mem_nil
    | cons => rfl
  rw [updateInteresting]
  cases hlookup : interesting.lookup origin with
  | none => exact hnonempty _ (AList.mem_insert _ |>.mpr (.inl rfl))
  | some stored =>
      dsimp only
      split
      · exact hnonempty _ (AList.mem_insert _ |>.mpr (.inl rfl))
      · exact hnonempty _ (AList.lookup_isSome.mp (by rw [hlookup]; rfl))

variable [UBigBytes]

theorem recordExecution_sameCounts (engine : Engine Rng) (layout : Layout)
    (run : RunResult) :
    engine.SameCounts (engine.recordExecution layout run).2 := by
  rw [Engine.recordExecution]
  cases engine.kindLedger.observe run.nodes with
  | mk kindLedger mismatch =>
      cases mismatch with
      | some mismatch => exact ⟨rfl, rfl, rfl, rfl, rfl, rfl⟩
      | none =>
          dsimp only
          split <;> exact ⟨rfl, rfl, rfl, rfl, rfl, rfl⟩

theorem persist_sameCounts (engine : Engine Rng) (origin : String)
    (nodes : List ChoiceNode) :
    engine.SameCounts (engine.persist origin nodes) := by
  rw [Engine.persist]
  cases engine.databaseKey with
  | none => exact .refl engine
  | some key => exact ⟨rfl, rfl, rfl, rfl, rfl, rfl⟩

/-- A run is counted by its status. -/
theorem recordStatus_counts (engine : Engine Rng) (run : RunResult)
    {calls : Nat} (hcalls : engine.calls = calls + 1) :
    Engine.Counts { engine with calls := calls } run.status
      (engine.recordStatus run) := by
  rw [Engine.recordStatus]
  cases hstatus : run.status with
  | valid => exact ⟨hcalls, rfl, rfl, rfl, fun _ => ⟨rfl, rfl⟩, nofun⟩
  | invalid => exact ⟨hcalls, rfl, rfl, rfl, fun _ => ⟨rfl, rfl⟩, nofun⟩
  | earlyStop => exact ⟨hcalls, rfl, rfl, rfl, fun _ => ⟨rfl, rfl⟩, nofun⟩
  | interesting =>
      dsimp only
      have hsaved : Engine.SameCounts
          { engine with
            firstBugAt := engine.firstBugAt.or (some engine.calls)
            lastBugAt := some engine.calls }
          (if engine.nondeterministic then
            { engine with
              firstBugAt := engine.firstBugAt.or (some engine.calls)
              lastBugAt := some engine.calls }
          else Engine.persist
            { engine with
              firstBugAt := engine.firstBugAt.or (some engine.calls)
              lastBugAt := some engine.calls } (run.origin.getD "")
                run.nodes) := by
        split
        · exact .refl _
        · exact persist_sameCounts _ _ _
      constructor
      · exact hsaved.calls.trans hcalls
      · exact hsaved.valid
      · exact hsaved.invalid
      · exact hsaved.overrun
      · exact fun hne => absurd rfl hne
      · intro _
        constructor
        · exact updateInteresting_nonempty _ _ _
        · exact hsaved.firstBugAt.trans (by rw [hcalls])

theorem recordRun_counts (engine : Engine Rng) (layout : Layout)
    (run : RunResult) :
    engine.Counts run.status (engine.recordRun layout run).2 := by
  rw [Engine.recordRun]
  have hentered : engine.SameCounts (if engine.nondeterministic then
      (none, engine) else engine.recordExecution layout run).2 := by
    split
    · exact .refl engine
    · exact recordExecution_sameCounts engine layout run
  generalize (if engine.nondeterministic then (none, engine)
    else engine.recordExecution layout run) = recorded at hentered
  obtain ⟨mismatch, entered⟩ := recorded
  have hstatus := recordStatus_counts
    { entered with
      calls := entered.calls + 1
      testIsTrivial := entered.testIsTrivial || (run.nodes.isEmpty &&
        decide (run.status ≠ .earlyStop) && !entered.nondeterministic)
      executed := entered.executed ++ [run] } run rfl
  refine Engine.SameCounts.counts ?_ hstatus
  exact ⟨hentered.calls, hentered.valid, hentered.invalid, hentered.overrun,
    hentered.interesting, hentered.firstBugAt⟩

end Counting

section Budget

/-- How many more random cases may come before and after the first failure. -/
def windowLeft (engine : Engine Unit) : Nat :=
  match engine.firstBugAt with
  | none => minTestCalls + postBugExtraCalls + 1
  | some first =>
      if engine.interesting.entries.isEmpty then
        minTestCalls + postBugExtraCalls + 1 + first
      else max (minTestCalls - engine.calls)
        (first + postBugExtraCalls - engine.calls)

/-- How many more random cases the counters allow. -/
def RunSettings.casesLeft (settings : RunSettings) (engine : Engine Unit) :
    Nat :=
  (settings.testCases - engine.validTestCases) +
    (invalidThresholds.1 + 1 + invalidThresholds.2 * settings.testCases -
      (engine.invalidTestCases + engine.overrunTestCases)) +
    windowLeft engine

variable {settings : RunSettings} {engine engine' : Engine Unit}
  {status : Status}

theorem windowLeft_quiet (hcounts : engine.Counts status engine')
    (hstatus : status ≠ .interesting) :
    windowLeft engine' ≤ windowLeft engine := by
  obtain ⟨hinteresting, hfirst⟩ := hcounts.quiet hstatus
  have hcalls := hcounts.calls
  rw [windowLeft, windowLeft, hinteresting, hfirst]
  cases engine.firstBugAt with
  | none => exact le_rfl
  | some first =>
      dsimp only
      split
      · exact le_rfl
      · omega

/-- A failure uses up the window, unless the window was over. -/
theorem windowLeft_failed (hcounts : engine.Counts status engine')
    (hstatus : status = .interesting) :
    windowLeft engine' ≤ windowLeft engine ∧
      (∀ shrinkEnabled reportMultiple late,
        shouldGenerateMore engine shrinkEnabled reportMultiple late = true →
          windowLeft engine' < windowLeft engine) := by
  obtain ⟨hinteresting, hfirst⟩ := hcounts.failed hstatus
  have hcalls := hcounts.calls
  rw [windowLeft, windowLeft, hinteresting, hfirst]
  simp only [minTestCalls, postBugExtraCalls, Bool.false_eq_true, if_false]
  cases hbug : engine.firstBugAt with
  | none =>
      simp only [Option.none_or]
      constructor
      · omega
      · intros
        omega
  | some first =>
      simp only [Option.some_or]
      cases hempty : engine.interesting.entries.isEmpty with
      | true =>
          simp only [if_true]
          constructor
          · omega
          · intros
            omega
      | false =>
          simp only [Bool.false_eq_true, if_false]
          constructor
          · omega
          · intro shrinkEnabled reportMultiple late hmore
            rw [shouldGenerateMore, hempty, hbug] at hmore
            simp only [Bool.false_eq_true, if_false] at hmore
            split at hmore
            · simp at hmore
            · split at hmore
              · simp at hmore
              · rw [Bool.or_eq_true, decide_eq_true_eq, decide_eq_true_eq,
                  minTestCalls, postBugExtraCalls] at hmore
                generalize usizeMax = bound at hmore
                omega

/-- No case raises what is allowed. -/
theorem casesLeft_le (hcounts : engine.Counts status engine') :
    settings.casesLeft engine' ≤ settings.casesLeft engine := by
  have hwindow : windowLeft engine' ≤ windowLeft engine := by
    by_cases hstatus : status = .interesting
    · exact (windowLeft_failed hcounts hstatus).1
    · exact windowLeft_quiet hcounts hstatus
  rw [RunSettings.casesLeft, RunSettings.casesLeft, hcounts.valid,
    hcounts.invalid, hcounts.overrun]
  omega

/-- A random case lowers it. -/
theorem casesLeft_lt (hcounts : engine.Counts status engine')
    (hunder : underBudget settings engine = true)
    {shrinkEnabled reportMultiple late : Bool}
    (hmore : shouldGenerateMore engine shrinkEnabled reportMultiple late =
      true) :
    settings.casesLeft engine' < settings.casesLeft engine := by
  rw [underBudget] at hunder
  simp only [Bool.and_eq_true, decide_eq_true_eq, withinInvalidBudget]
    at hunder
  obtain ⟨⟨⟨-, hvalid⟩, hinvalid⟩, -⟩ := hunder
  rw [RunSettings.casesLeft, RunSettings.casesLeft, hcounts.valid,
    hcounts.invalid, hcounts.overrun]
  simp only [invalidThresholds] at hinvalid ⊢
  cases hstatus : status with
  | interesting =>
      have hwindow := (windowLeft_failed hcounts hstatus).2 _ _ _ hmore
      simp only [reduceCtorEq, if_false]
      omega
  | valid =>
      have hwindow := windowLeft_quiet hcounts (by rw [hstatus]; decide)
      simp only [reduceCtorEq, if_false, if_true]
      omega
  | invalid =>
      have hwindow := windowLeft_quiet hcounts (by rw [hstatus]; decide)
      simp only [reduceCtorEq, if_false, if_true]
      omega
  | earlyStop =>
      have hwindow := windowLeft_quiet hcounts (by rw [hstatus]; decide)
      simp only [reduceCtorEq, if_false, if_true]
      omega

end Budget

section Offering

variable {World Store : Type}

/-- What offering a case does. -/
structure Explorer.Offers (explorer after : Explorer World) : Prop where
  cases : ∃ case : ExecutedCase, after.cases = explorer.cases ++ [case] ∧
    case.before.validTestCases = explorer.engine.validTestCases
  late : after.late = explorer.late
  counts : after.engine = explorer.engine ∨
    ∃ status, explorer.engine.Counts status after.engine

/-- An outcome is counted; only a case without one is not. -/
structure Explorer.Runs {Value : Type} (explorer : Explorer World)
    (result : Except RunError Value) (after : Explorer World) : Prop where
  offers : explorer.Offers after
  counts : ∀ value, result = .ok value →
    ∃ status, explorer.engine.Counts status after.engine

variable [UBigBytes] (env : Environment World Store)

theorem testFunction_runs (site : CaseSite) (request : CaseRequest)
    (explorer : Explorer World) :
    explorer.Runs (explorer.testFunction env site request).1
      (explorer.testFunction env site request).2 := by
  rw [Explorer.testFunction]
  cases env.execute explorer.world request with
  | mk answer world =>
      cases answer with
      | error error =>
          dsimp only
          constructor
          · exact ⟨⟨_, rfl, rfl⟩, rfl, .inl rfl⟩
          · exact fun _ hvalue => absurd hvalue (by simp)
      | ok outcome =>
          have hnoticed := noticeConcurrency_sameCounts explorer.engine
            outcome.concurrentMachine
          have hcounts := hnoticed.counts
            (recordRun_counts _ env.layout outcome.run)
          constructor
          · exact ⟨⟨_, rfl, hnoticed.valid⟩, rfl, .inr ⟨_, hcounts⟩⟩
          · exact fun _ _ => ⟨_, hcounts⟩

theorem runCase_runs (site : CaseSite) (request : CaseRequest)
    (explorer : Explorer World) :
    explorer.Runs (explorer.runCase env site request).1
      (explorer.runCase env site request).2 := by
  have hruns := testFunction_runs env site request explorer
  rw [Explorer.runCase]
  cases hanswer : explorer.testFunction env site request with
  | mk answer after =>
      rw [hanswer] at hruns
      cases answer with
      | error error =>
          exact ⟨hruns.offers, fun _ hvalue => absurd hvalue (by simp)⟩
      | ok value =>
          obtain ⟨outcome, mismatch⟩ := value
          cases mismatch with
          | some error =>
              exact ⟨hruns.offers, fun _ hvalue => absurd hvalue (by simp)⟩
          | none => exact ⟨hruns.offers, fun _ _ => hruns.counts _ rfl⟩

/-- A query is served or executed. -/
theorem cachedTestFunction_runs (site : CaseSite) (choices : List ChoiceValue)
    (nodes : Option (List ChoiceNode)) (extend : Nat)
    (explorer : Explorer World) :
    (explorer.cachedTestFunction env site choices nodes extend).2 = explorer ∨
      explorer.Offers
        (explorer.cachedTestFunction env site choices nodes extend).2 := by
  rw [Explorer.cachedTestFunction]
  cases explorer.engine.served choices with
  | some hit => exact .inl rfl
  | none => exact .inr (runCase_runs env site _ explorer).offers

end Offering

section Progress

variable {World Store : Type}

/-- What the counters and the calls that are left allow.  A random case may be
followed by five mutations. -/
def RunSettings.potential (settings : RunSettings) (engine : Engine Unit) :
    Nat :=
  6 * settings.casesLeft engine + (settings.maxCalls - engine.calls)

/-- Cases were executed while there were too few valid ones, and were paid for,
except for a few. -/
structure RunSettings.Progress (settings : RunSettings) (slack : Int)
    (explorer after : Explorer World) : Prop where
  spends : ∃ new : List ExecutedCase, after.cases = explorer.cases ++ new ∧
    (∀ case ∈ new, case.before.validTestCases < settings.testCases) ∧
      (new.length : Int) + settings.potential after.engine ≤
        settings.potential explorer.engine + slack
  casesLeft : settings.casesLeft after.engine ≤
    settings.casesLeft explorer.engine
  calls : explorer.engine.calls ≤ after.engine.calls
  late : explorer.late = true → after.late = true

variable {settings : RunSettings} {slack slack' : Int}
  {explorer middle after : Explorer World}

/-- Nothing was executed. -/
theorem RunSettings.Progress.still (hengine : after.engine = explorer.engine)
    (hcases : after.cases = explorer.cases)
    (hlate : explorer.late = true → after.late = true) :
    settings.Progress 0 explorer after := by
  constructor
  · refine ⟨[], by rw [hcases, List.append_nil],
      fun _ hmem => absurd hmem List.not_mem_nil, ?_⟩
    rw [hengine, List.length_nil]
    omega
  · rw [hengine]
  · rw [hengine]
  · exact hlate

theorem RunSettings.Progress.refl (explorer : Explorer World) :
    settings.Progress 0 explorer explorer :=
  .still rfl rfl id

theorem RunSettings.Progress.mono
    (hprogress : settings.Progress slack explorer after)
    (hle : slack ≤ slack') : settings.Progress slack' explorer after := by
  obtain ⟨new, hcases, hvalid, hlength⟩ := hprogress.spends
  exact ⟨⟨new, hcases, hvalid, by omega⟩, hprogress.casesLeft, hprogress.calls,
    hprogress.late⟩

theorem RunSettings.Progress.trans
    (hfirst : settings.Progress slack explorer middle)
    (hsecond : settings.Progress slack' middle after) :
    settings.Progress (slack + slack') explorer after := by
  obtain ⟨new, hcases, hvalid, hlength⟩ := hfirst.spends
  obtain ⟨new', hcases', hvalid', hlength'⟩ := hsecond.spends
  constructor
  · refine ⟨new ++ new', ?_, ?_, ?_⟩
    · rw [hcases', hcases, List.append_assoc]
    · intro case hmem
      rcases List.mem_append.mp hmem with hmem | hmem
      · exact hvalid case hmem
      · exact hvalid' case hmem
    · rw [List.length_append]
      push_cast
      omega
  · exact hsecond.casesLeft.trans hfirst.casesLeft
  · exact hfirst.calls.trans hsecond.calls
  · exact fun hlate => hsecond.late (hfirst.late hlate)

/-- Any case costs one at most. -/
theorem Explorer.Offers.progress (hoffers : explorer.Offers after)
    (hvalid : explorer.engine.validTestCases < settings.testCases) :
    settings.Progress 1 explorer after := by
  obtain ⟨case, hcases, hbefore⟩ := hoffers.cases
  have hleft : settings.casesLeft after.engine ≤
        settings.casesLeft explorer.engine ∧
      explorer.engine.calls ≤ after.engine.calls := by
    rcases hoffers.counts with hsame | ⟨status, hcounts⟩
    · rw [hsame]
      exact ⟨le_rfl, le_rfl⟩
    · rw [hcounts.calls]
      exact ⟨casesLeft_le hcounts, Nat.le_succ _⟩
  constructor
  · refine ⟨[case], hcases, ?_, ?_⟩
    · intro other hmem
      rw [List.mem_singleton.mp hmem, hbefore]
      exact hvalid
    · rw [RunSettings.potential, RunSettings.potential, List.length_singleton]
      omega
  · exact hleft.1
  · exact hleft.2
  · exact fun hlate => hoffers.late.trans hlate

/-- A counted case while there are calls left costs nothing. -/
theorem Explorer.Offers.trial (hoffers : explorer.Offers after)
    (hvalid : explorer.engine.validTestCases < settings.testCases)
    (hcalls : explorer.engine.calls < settings.maxCalls) {status : Status}
    (hcounts : explorer.engine.Counts status after.engine) :
    settings.Progress 0 explorer after := by
  obtain ⟨case, hcases, hbefore⟩ := hoffers.cases
  have hleft : settings.casesLeft after.engine ≤
      settings.casesLeft explorer.engine := casesLeft_le hcounts
  have hcalled := hcounts.calls
  constructor
  · refine ⟨[case], hcases, ?_, ?_⟩
    · intro other hmem
      rw [List.mem_singleton.mp hmem, hbefore]
      exact hvalid
    · rw [RunSettings.potential, RunSettings.potential, List.length_singleton]
      omega
  · exact hleft
  · omega
  · exact fun hlate => hoffers.late.trans hlate

/-- A random case pays for five more. -/
theorem Explorer.Offers.random (hoffers : explorer.Offers after)
    (hunder : underBudget settings explorer.engine = true)
    {shrinkEnabled reportMultiple late : Bool}
    (hmore : shouldGenerateMore explorer.engine shrinkEnabled reportMultiple
      late = true) {status : Status}
    (hcounts : explorer.engine.Counts status after.engine) :
    settings.Progress (-5) explorer after ∧
      settings.casesLeft after.engine < settings.casesLeft explorer.engine := by
  obtain ⟨case, hcases, hbefore⟩ := hoffers.cases
  have hleft := casesLeft_lt hcounts hunder hmore
  have hcalled := hcounts.calls
  have hvalid : explorer.engine.validTestCases < settings.testCases := by
    rw [underBudget] at hunder
    simp only [Bool.and_eq_true, decide_eq_true_eq] at hunder
    exact hunder.1.1.2
  constructor
  · constructor
    · refine ⟨[case], hcases, ?_, ?_⟩
      · intro other hmem
        rw [List.mem_singleton.mp hmem, hbefore]
        exact hvalid
      · rw [RunSettings.potential, RunSettings.potential,
          List.length_singleton]
        omega
    · exact hleft.le
    · omega
    · exact fun hlate => hoffers.late.trans hlate
  · exact hleft

/-- What was executed before cost nothing. -/
theorem RunSettings.Progress.andThen
    (hfirst : settings.Progress 0 explorer middle)
    (hsecond : settings.Progress slack middle after) :
    settings.Progress slack explorer after :=
  (hfirst.trans hsecond).mono (by omega)

/-- Trials were executed while there were calls left. -/
structure RunSettings.Tries (settings : RunSettings)
    (explorer after : Explorer World) : Prop where
  progress : settings.Progress 0 explorer after
  within : explorer.engine.calls < after.engine.calls →
    explorer.engine.calls < settings.maxCalls

theorem RunSettings.Tries.refl (explorer : Explorer World) :
    settings.Tries explorer explorer :=
  ⟨.refl explorer, fun hlt => absurd hlt (lt_irrefl _)⟩

theorem RunSettings.Tries.trans (hfirst : settings.Tries explorer middle)
    (hsecond : settings.Tries middle after) :
    settings.Tries explorer after := by
  constructor
  · exact hfirst.progress.andThen hsecond.progress
  · intro hlt
    rcases hfirst.progress.calls.lt_or_eq with hless | hsame
    · exact hfirst.within hless
    · rw [hsame]
      exact hsecond.within (hsame ▸ hlt)

end Progress

section Optimising

open Looping

variable {World Store : Type} {explorer : Explorer World}

theorem yields_lift {Value : Type}
    {run : Explorer World → Except RunError Value × Explorer World}
    {post : Except RunHalt Value → Explorer World → Prop}
    (hok : ∀ value after, run explorer = (.ok value, after) →
      post (.ok value) after)
    (herror : ∀ error after, run explorer = (.error error, after) →
      post (.error (.error error)) after) :
    (ExploreM.lift run).Yields explorer post := by
  apply yields_ofResult
  cases hrun : run explorer with
  | mk result after =>
      cases result with
      | ok value => exact hok value after hrun
      | error error => exact herror error after hrun

section Steps

variable {settings : RunSettings} {middle after : Explorer World}
  {climb climbing climbed : Climb}

/-- A step of a climb executed trials; without any the sequence is the same. -/
structure Climb.Steps (settings : RunSettings) (explorer : Explorer World)
    (climb : Climb) (after : Explorer World) (climbed : Climb) : Prop where
  tries : settings.Tries explorer after
  kept : after.engine.calls = explorer.engine.calls →
    climbed.nodes = climb.nodes
  i : climbed.i = climb.i
  prevLen : climbed.prevLen = climb.prevLen

theorem Climb.Steps.refl (explorer : Explorer World) (climb : Climb) :
    climb.Steps settings explorer explorer climb :=
  ⟨.refl explorer, fun _ => rfl, rfl, rfl⟩

theorem Climb.Steps.trans
    (hfirst : climb.Steps settings explorer middle climbing)
    (hsecond : climbing.Steps settings middle after climbed) :
    climb.Steps settings explorer after climbed := by
  have hbefore := hfirst.tries.progress.calls
  have hafter := hsecond.tries.progress.calls
  constructor
  · exact hfirst.tries.trans hsecond.tries
  · intro hsame
    rw [hsecond.kept (by omega), hfirst.kept (by omega)]
  · exact hsecond.i.trans hfirst.i
  · exact hsecond.prevLen.trans hfirst.prevLen

theorem considerTrial_position (target : String) (climb : Climb)
    (trial : CaseOutcome) :
    (climb.considerTrial target trial).2.i = climb.i ∧
      (climb.considerTrial target trial).2.prevLen = climb.prevLen := by
  rw [Climb.considerTrial]
  split
  · exact ⟨rfl, rfl⟩
  · split
    · exact ⟨rfl, rfl⟩
    · split <;> exact ⟨rfl, rfl⟩

end Steps

variable [UBigBytes] (env : Environment World Store) (settings : RunSettings)

theorem runTrial_yields (choices : List ChoiceValue) :
    (settings.optimiser.runTrial env choices).Yields explorer fun
      | .ok none, after => after = explorer
      | .ok (some _), after => settings.Tries explorer after ∧
          explorer.engine.calls < after.engine.calls
      | .error _, after => settings.Progress 1 explorer after := by
  apply yields_bind
  apply yields_read
  apply yields_ite
  · exact fun _ => yields_pure rfl
  · intro hbudget
    simp only [Optimiser.budgetExhausted, Bool.or_eq_true, decide_eq_true_eq,
      not_or, not_le] at hbudget
    have hvalid : explorer.engine.validTestCases < settings.testCases :=
      hbudget.1.2
    have hcalls : explorer.engine.calls < settings.maxCalls := hbudget.2
    have hruns := runCase_runs env .target (.probe choices bufferSize) explorer
    apply yields_bind
    apply yields_lift
    · intro outcome after hrun
      rw [hrun] at hruns
      obtain ⟨status, hcounts⟩ := hruns.counts outcome rfl
      apply yields_pure
      refine ⟨⟨hruns.offers.trial hvalid hcalls hcounts, fun _ => hcalls⟩, ?_⟩
      exact lt_of_lt_of_eq (Nat.lt_succ_self _) hcounts.calls.symm
    · intro error after hrun
      rw [hrun] at hruns
      exact hruns.offers.progress hvalid

theorem tryReplace_yields (target : String) (idx : Nat) (delta : Int)
    (climb : Climb) :
    (settings.optimiser.tryReplace env target idx delta climb).Yields explorer
      fun
      | .ok (_, climbed), after => climb.Steps settings explorer after climbed
      | .error _, after => settings.Progress 1 explorer after := by
  apply yields_ite
  · exact fun _ => yields_pure (.refl explorer climb)
  · intro _
    cases climb.nodes[idx]? with
    | none => exact yields_halt ((RunSettings.Progress.refl explorer).mono (by omega))
    | some node =>
        dsimp only
        cases stepChoice node delta with
        | none => exact yields_pure (.refl explorer climb)
        | some newVal =>
            apply yields_ite
            · intro _
              apply yields_bind
              refine (runTrial_yields env settings _).mono ?_
              intro result after hafter
              cases result with
              | error error => exact hafter
              | ok trial =>
                  cases trial with
                  | none =>
                      rw [hafter]
                      exact yields_pure (.refl explorer climb)
                  | some trial =>
                      obtain ⟨htries, hcalls⟩ := hafter
                      obtain ⟨hi, hprevLen⟩ :=
                        considerTrial_position target climb trial
                      apply yields_pure
                      exact ⟨htries, fun hsame => absurd hsame hcalls.ne',
                        hi, hprevLen⟩
            · intro _
              exact yields_halt ((RunSettings.Progress.refl explorer).mono (by omega))

/-- Stepping a value in one direction comes to an end. -/
theorem climbFrom_yields (target : String) (idx : Nat) (sign : Int)
    (climb : Climb) :
    (settings.optimiser.climbFrom env target idx sign climb).Yields explorer
      fun
      | .ok climbed, after => climb.Steps settings explorer after climbed
      | .error _, after => settings.Progress 1 explorer after := by
  apply yields_loop (InvImage.wf
    (fun pair : (FindInteger × Climb) × Explorer World =>
      FindInteger.remaining pair.1.1) wellFounded_lt)
    fun pair state => FindInteger.Valid pair.1 ∧
      climb.Steps settings explorer state pair.2
  · rintro ⟨search, climbing⟩ state ⟨hvalid, hsteps⟩
    dsimp only at hvalid hsteps ⊢
    cases hprobe : FindInteger.probe search with
    | none => exact yields_pure hsteps
    | some k =>
        apply yields_bind
        refine (tryReplace_yields env settings target idx _ climbing).mono ?_
        intro result after hafter
        cases result with
        | error error => exact hsteps.tries.progress.andThen hafter
        | ok answer =>
            obtain ⟨ok, climbed⟩ := answer
            apply yields_pure
            refine ⟨⟨FindInteger.record_valid hvalid ok,
              hsteps.trans hafter⟩, ?_⟩
            exact FindInteger.remaining_record_lt hvalid hprobe ok
  · exact ⟨FindInteger.valid_new, .refl explorer climb⟩

theorem climbNode_yields (target : String) (idx : Nat) (climb : Climb) :
    (settings.optimiser.climbNode env target idx climb).Yields explorer fun
      | .ok climbed, after => climb.Steps settings explorer after climbed
      | .error _, after => settings.Progress 1 explorer after := by
  rw [Optimiser.climbNode]
  cases climb.nodes[idx]? with
  | none => exact yields_halt ((RunSettings.Progress.refl explorer).mono
      (by omega))
  | some node =>
      apply yields_ite
      · intro _
        apply yields_bind
        refine (climbFrom_yields env settings target idx 1 climb).mono ?_
        intro result middle hup
        cases result with
        | error error => exact hup
        | ok climbing =>
            apply yields_ite
            · intro _
              refine (climbFrom_yields env settings target idx (-1)
                climbing).mono ?_
              intro result after hdown
              cases result with
              | error error => exact hup.tries.progress.andThen hdown
              | ok climbed => exact hup.trans hdown
            · exact fun _ => yields_pure hup
      · exact fun _ => yields_pure (.refl explorer climb)

/-- Rounds of a climb execute trials, leave a change of length behind or go
down. -/
def ClimbBelow (settings : RunSettings) :
    Climb × Explorer World → Climb × Explorer World → Prop :=
  InvImage (Prod.Lex (· < ·) (Prod.Lex (· < ·) (· < ·)))
    fun pair : Climb × Explorer World =>
      (settings.maxCalls - pair.2.engine.calls,
        (decide (pair.1.nodes.length ≠ pair.1.prevLen)).toNat,
        (pair.1.i + 1).toNat)

omit [UBigBytes] in
theorem climbBelow_wellFounded :
    WellFounded (@ClimbBelow World settings) :=
  InvImage.wf _ (WellFounded.prod_lex wellFounded_lt
    (WellFounded.prod_lex wellFounded_lt wellFounded_lt))

omit [UBigBytes] in
/-- Going on to the position before is a step down, whatever trials were
executed at this one. -/
theorem climb_descends {maxCalls calls calls' : Nat} {climb climbed : Climb}
    (hcalls : calls ≤ calls') (hwithin : calls < calls' → calls < maxCalls)
    (hkept : calls' = calls → climbed.nodes = climb.nodes)
    (hi : climbed.i = climb.i) (hprevLen : climbed.prevLen = climb.prevLen)
    (hpos : 0 ≤ climb.i) :
    Prod.Lex (· < ·) (Prod.Lex (· < ·) (· < ·))
      (maxCalls - calls',
        (decide (climbed.nodes.length ≠ climbed.prevLen)).toNat,
        (climbed.i - 1 + 1).toNat)
      (maxCalls - calls, (decide (climb.nodes.length ≠ climb.prevLen)).toNat,
        (climb.i + 1).toNat) := by
  rcases hcalls.lt_or_eq with hcalled | hsame
  · have hroom := hwithin hcalled
    exact .left _ _ (by omega)
  · rw [hkept hsame.symm, hprevLen, hi, ← hsame]
    exact .right _ (.right _ (by omega))

omit [UBigBytes] in
theorem climbBelow_of_steps {climb climbed : Climb} {after : Explorer World}
    (hsteps : climb.Steps settings explorer after climbed) (hi : 0 ≤ climb.i) :
    ClimbBelow settings ({ climbed with i := climbed.i - 1 }, after)
      (climb, explorer) :=
  climb_descends hsteps.tries.progress.calls hsteps.tries.within hsteps.kept
    hsteps.i hsteps.prevLen hi

theorem climbRound_yields (target : String) (maxImprovements : Nat)
    (climb : Climb) :
    (settings.optimiser.climbRound env target maxImprovements climb).Yields
      explorer fun
      | .ok (.again climbed), after => settings.Tries explorer after ∧
          ClimbBelow settings (climbed, after) (climb, explorer)
      | .ok (.finish _), after => settings.Tries explorer after
      | .error _, after => settings.Progress 1 explorer after := by
  apply yields_ite
  · rintro ⟨hi, -⟩
    apply yields_ite
    · intro hchanged
      apply yields_pure
      refine ⟨.refl explorer, .right _ (.left _ _ ?_)⟩
      rw [decide_eq_true hchanged, decide_eq_false (not_not.mpr rfl)]
      decide
    · intro hsame
      apply yields_ite
      · intro _
        apply yields_pure
        exact ⟨.refl explorer, climbBelow_of_steps settings
          (.refl explorer climb) hi⟩
      · intro _
        apply yields_bind
        refine (climbNode_yields env settings target _ _).mono ?_
        intro result after hafter
        cases result with
        | error error => exact hafter
        | ok climbed =>
            apply yields_pure
            exact ⟨hafter.tries, climbBelow_of_steps settings
              ⟨hafter.tries, hafter.kept, hafter.i, hafter.prevLen⟩ hi⟩
  · exact fun _ => yields_pure (.refl explorer)

/-- A climb comes to an end. -/
theorem hillClimb_yields (target : String) (maxImprovements : Nat) :
    (settings.optimiser.hillClimb env target maxImprovements).Yields explorer
      fun
      | .ok _, after => settings.Tries explorer after
      | .error _, after => settings.Progress 1 explorer after := by
  apply yields_bind
  apply yields_read
  dsimp only
  cases explorer.targeting.lookup target with
  | none => exact yields_halt ((RunSettings.Progress.refl explorer).mono
      (by omega))
  | some best =>
      apply yields_bind
      refine (runTrial_yields env settings best.choices).mono ?_
      intro result middle hmiddle
      cases result with
      | error error => exact hmiddle
      | ok trial =>
          cases trial with
          | none =>
              rw [hmiddle]
              exact yields_pure (.refl explorer)
          | some trial =>
              apply yields_ite
              · intro _
                apply yields_loop (climbBelow_wellFounded settings)
                  fun _ state => settings.Tries explorer state
                · intro climb state htries
                  refine (climbRound_yields env settings target
                    maxImprovements climb).mono ?_
                  intro result after hafter
                  cases result with
                  | error error => exact htries.progress.andThen hafter
                  | ok round =>
                      cases round with
                      | again climbed =>
                          exact ⟨htries.trans hafter.1, hafter.2⟩
                      | finish improvements => exact htries.trans hafter
                · exact hmiddle.1
              · exact fun _ => yields_pure hmiddle.1

theorem climbTargets_yields (maxImprovements : Nat) (anyImprovements : Bool)
    (targets : List String) :
    (settings.optimiser.climbTargets env maxImprovements anyImprovements
      targets).Yields explorer fun
      | .ok _, after => settings.Tries explorer after
      | .error _, after => settings.Progress 1 explorer after := by
  induction targets generalizing explorer anyImprovements with
  | nil => exact yields_pure (.refl explorer)
  | cons target rest ih =>
      apply yields_bind
      refine (hillClimb_yields env settings target maxImprovements).mono ?_
      intro result middle hmiddle
      cases result with
      | error error => exact hmiddle
      | ok improvements =>
          refine (ih _).mono ?_
          intro result after hafter
          cases result with
          | error error => exact hmiddle.progress.andThen hafter
          | ok any => exact hmiddle.trans hafter

/-- Optimising comes to an end; its trials cost nothing. -/
theorem optimiseTargets_yields :
    (settings.optimiser.optimiseTargets env).Yields explorer fun
      | .ok _, after => settings.Tries explorer after
      | .error _, after => settings.Progress 1 explorer after := by
  apply yields_bind
  apply yields_read
  apply yields_loop (InvImage.wf
    (fun pair : Nat × Explorer World =>
      settings.maxCalls - pair.2.engine.calls) wellFounded_lt)
    fun _ state => settings.Tries explorer state
  · intro maxImprovements state htries
    apply yields_bind
    apply yields_read
    apply yields_bind
    refine (climbTargets_yields env settings maxImprovements false _).mono ?_
    intro result after hafter
    cases result with
    | error error => exact htries.progress.andThen hafter
    | ok anyImprovements =>
        apply yields_bind
        apply yields_read
        apply yields_ite
        · exact fun _ => yields_pure (htries.trans hafter)
        · intro hagain
          apply yields_pure
          refine ⟨htries.trans hafter, ?_⟩
          simp only [Bool.or_eq_true, decide_eq_true_eq, not_or] at hagain
          have hcalls := hafter.progress.calls
          have hwithin := hafter.within (by omega)
          show settings.maxCalls - after.engine.calls <
            settings.maxCalls - state.engine.calls
          omega
  · exact .refl explorer

end Optimising

section Mutating

open Looping

variable {World Store : Type} {explorer middle after : Explorer World}

/-- Nothing was executed; only the world may have moved. -/
structure Explorer.SameRun (explorer after : Explorer World) : Prop where
  engine : after.engine = explorer.engine
  cases : after.cases = explorer.cases
  late : after.late = explorer.late

theorem Explorer.SameRun.trans (hfirst : explorer.SameRun middle)
    (hsecond : middle.SameRun after) : explorer.SameRun after :=
  ⟨hsecond.engine.trans hfirst.engine, hsecond.cases.trans hfirst.cases,
    hsecond.late.trans hfirst.late⟩

theorem Explorer.SameRun.progress {settings : RunSettings}
    (hsame : explorer.SameRun after) : settings.Progress 0 explorer after :=
  .still hsame.engine hsame.cases fun hlate => hsame.late.trans hlate

section Choosing

variable (env : Environment World Store)

theorem choose_yields (bound : Nat) :
    (choose env bound).Yields explorer fun
      | .ok _, after => explorer.SameRun after
      | .error _, _ => False := by
  apply yields_ofResult
  exact ⟨rfl, rfl, rfl⟩

theorem chooseSpans_yields (groups : List (List (Nat × Nat))) :
    (chooseSpans env groups).Yields explorer fun
      | .ok _, after => explorer.SameRun after
      | .error _, _ => False := by
  apply yields_bind
  refine (choose_yields env _).mono ?_
  intro result first hfirst
  cases result with
  | error error => exact hfirst.elim
  | ok groupIdx =>
      apply yields_bind
      refine (choose_yields env _).mono ?_
      intro result second hsecond
      cases result with
      | error error => exact hsecond.elim
      | ok iA =>
          apply yields_bind
          refine (choose_yields env _).mono ?_
          intro result third hthird
          cases result with
          | error error => exact hthird.elim
          | ok iB => exact yields_pure ((hfirst.trans hsecond).trans hthird)

theorem chooseDonor_yields (a b : Nat × Nat) :
    (chooseDonor env a b).Yields explorer fun
      | .ok _, after => explorer.SameRun after
      | .error _, _ => False := by
  apply yields_ite
  · exact fun _ => yields_pure ⟨rfl, rfl, rfl⟩
  · intro _
    apply yields_bind
    refine (choose_yields env 2).mono ?_
    intro result after hafter
    cases result with
    | error error => exact hafter.elim
    | ok donor => exact yields_pure hafter

end Choosing

variable [UBigBytes] (env : Environment World Store) (settings : RunSettings)

theorem cachedTestFunction_yields (site : CaseSite)
    (choices : List ChoiceValue) (nodes : Option (List ChoiceNode))
    (extend : Nat) :
    (ExploreM.lift fun explorer => explorer.cachedTestFunction env site choices
      nodes extend).Yields explorer fun _ after =>
        after = explorer ∨ explorer.Offers after := by
  have hruns := cachedTestFunction_runs env site choices nodes extend explorer
  apply yields_lift
  · intro run after hrun
    rw [hrun] at hruns
    exact hruns
  · intro error after hrun
    rw [hrun] at hruns
    exact hruns

/-- Every mutation costs one case at most. -/
theorem trySpanMutation_yields (nodes : List ChoiceNode) (spans : List Span) :
    (trySpanMutation env settings nodes spans).Yields explorer fun _ after =>
      settings.Progress 5 explorer after := by
  apply yields_ite
  · exact fun _ => yields_pure
      ((RunSettings.Progress.refl explorer).mono (by decide))
  · intro _
    apply yields_loop (InvImage.wf
      (fun pair : Nat × Explorer World => pair.1) wellFounded_lt)
      fun attempts state => attempts ≤ 5 ∧
        settings.Progress (5 - attempts) explorer state
    · rintro attempts state ⟨hattempts, hprogress⟩
      cases attempts with
      | zero => exact yields_pure (hprogress.mono (by omega))
      | succ attempts =>
          apply yields_bind
          apply yields_read
          apply yields_ite
          · exact fun _ => yields_pure (hprogress.mono (by omega))
          · intro hvalid
            rw [not_le] at hvalid
            apply yields_bind
            refine (chooseSpans_yields env _).mono ?_
            intro result first hfirst
            cases result with
            | error error => exact hfirst.elim
            | ok pair =>
                obtain ⟨a, b⟩ := pair
                apply yields_bind
                refine (chooseDonor_yields env a b).mono ?_
                intro result second hsecond
                cases result with
                | error error => exact hsecond.elim
                | ok donateFirst =>
                    have hsame := hfirst.trans hsecond
                    apply yields_bind
                    have hcost : ∀ after : Explorer World,
                        after = second ∨ second.Offers after →
                        settings.Progress (5 - attempts) explorer after := by
                      rintro after (rfl | hoffers)
                      · exact (hprogress.trans hsame.progress).mono (by omega)
                      · have hpaid := hoffers.progress
                          (hsame.engine ▸ hvalid)
                        exact ((hprogress.trans hsame.progress).trans
                          hpaid).mono (by omega)
                    refine (cachedTestFunction_yields env _ _ _ _).mono ?_
                    intro result after hafter
                    have hpaid := hcost after hafter
                    cases result with
                    | error error => exact hpaid.mono (by omega)
                    | ok run =>
                        apply yields_ite
                        · exact fun _ => yields_pure (hpaid.mono (by omega))
                        · intro _
                          apply yields_pure
                          exact ⟨⟨by omega, hpaid⟩, Nat.lt_succ_self attempts⟩
    · refine ⟨le_rfl, ?_⟩
      exact (RunSettings.Progress.refl explorer).mono (by decide)

end Mutating

section Generating

open Looping

variable {World Store : Type} {explorer : Explorer World}

/-- Whether a random case is generated, by what is known about the first
failure. -/
def RunSettings.generatesMore (settings : RunSettings) (engine : Engine Unit)
    (late : Bool) : Bool :=
  underBudget settings engine &&
    shouldGenerateMore engine
      (decide (.shrink ∈ settings.phases) && !engine.nondeterministic)
      settings.reportMultipleFailures late

/-- The answer is by the counters and by what is known now. -/
structure RunSettings.Decides (settings : RunSettings)
    (explorer : Explorer World) (may : Bool) (after : Explorer World) :
    Prop where
  engine : after.engine = explorer.engine
  cases : after.cases = explorer.cases
  late : explorer.late = true → after.late = true
  decided : may = settings.generatesMore explorer.engine after.late

theorem RunSettings.Decides.progress {settings : RunSettings} {may : Bool}
    {after : Explorer World} (hdecides : settings.Decides explorer may after) :
    settings.Progress 0 explorer after :=
  .still hdecides.engine hdecides.cases hdecides.late

theorem readLate_yields (env : Environment World Store) :
    (readLate env).Yields explorer fun
      | .ok late, after => after.engine = explorer.engine ∧
          after.cases = explorer.cases ∧
            (explorer.late = true → after.late = true) ∧ late = after.late
      | .error _, _ => False := by
  apply yields_ofResult
  by_cases hknown :
      (explorer.late || explorer.engine.firstBugAt.isNone) = true
  · rw [if_pos hknown]
    exact ⟨rfl, rfl, id, rfl⟩
  · rw [if_neg hknown]
    refine ⟨rfl, rfl, fun hlate => ?_, rfl⟩
    rw [hlate, Bool.true_or] at hknown
    exact absurd rfl hknown

theorem mayGenerate_yields (env : Environment World Store)
    (settings : RunSettings) :
    (mayGenerate env settings).Yields explorer fun
      | .ok may, after => settings.Decides explorer may after
      | .error _, _ => False := by
  apply yields_bind
  apply yields_read
  apply yields_ite
  · intro hunder
    apply yields_bind
    refine (readLate_yields env).mono ?_
    intro result after hafter
    cases result with
    | error error => exact hafter.elim
    | ok late =>
        obtain ⟨hengine, hcases, hlate, rfl⟩ := hafter
        apply yields_pure
        exact ⟨hengine, hcases, hlate, by
          rw [RunSettings.generatesMore, hunder, Bool.true_and]⟩
  · intro hover
    apply yields_pure
    exact ⟨rfl, rfl, id, by
      rw [RunSettings.generatesMore, Bool.eq_false_iff.mpr hover,
        Bool.false_and]⟩

variable [UBigBytes] (env : Environment World Store) (settings : RunSettings)

theorem fireTargets_yields :
    (fireTargets env settings).Yields explorer fun
      | .ok _, after => settings.Progress 0 explorer after
      | .error _, after => settings.Progress 1 explorer after := by
  apply yields_bind
  apply yields_read
  apply yields_ite
  · intro _
    apply yields_bind
    apply yields_modify
    have hscheduled : settings.Progress 0 explorer
        { explorer with schedule := (explorer.schedule.shouldFire
            explorer.engine.validTestCases).2 } :=
      .still rfl rfl id
    apply yields_ite
    · intro _
      refine (optimiseTargets_yields env settings).mono ?_
      intro result after hafter
      cases result with
      | error error => exact hscheduled.andThen hafter
      | ok value => exact hscheduled.andThen hafter.progress
    · exact fun _ => yields_pure hscheduled
  · exact fun _ => yields_pure (.refl explorer)

/-- What follows a random case costs five more. -/
theorem followUp_yields (outcome : CaseOutcome) :
    (followUp env settings outcome).Yields explorer fun _ after =>
      settings.Progress 5 explorer after := by
  apply yields_bind
  apply yields_read
  dsimp only
  cases failedHealthCheck settings explorer.engine outcome.run.status
      (env.tooSlow explorer.world) with
  | some check =>
      exact yields_halt ((RunSettings.Progress.refl explorer).mono (by decide))
  | none =>
      apply yields_bind
      refine (fireTargets_yields env settings).mono ?_
      intro result middle hmiddle
      cases result with
      | error error => exact hmiddle.mono (by decide)
      | ok value =>
          apply yields_bind
          apply yields_read
          apply yields_ite
          · intro _
            refine (trySpanMutation_yields env settings _ _).mono ?_
            exact fun _ after hafter => hmiddle.andThen hafter
          · exact fun _ => yields_pure (hmiddle.mono (by decide))

/-- A random case pays for what follows it. -/
theorem randomCase_yields {late : Bool}
    (hmay : settings.generatesMore explorer.engine late = true) :
    (randomCase env settings).Yields explorer fun
      | .ok _, after => settings.Progress 0 explorer after ∧
          settings.casesLeft after.engine < settings.casesLeft explorer.engine
      | .error _, after => settings.Progress 1 explorer after := by
  rw [RunSettings.generatesMore, Bool.and_eq_true] at hmay
  obtain ⟨hunder, hmore⟩ := hmay
  have hruns := runCase_runs env .random .random explorer
  apply yields_bind
  apply yields_lift
  · intro outcome middle hrun
    rw [hrun] at hruns
    obtain ⟨status, hcounts⟩ := hruns.counts outcome rfl
    obtain ⟨hpaid, hless⟩ := hruns.offers.random hunder hmore hcounts
    refine (followUp_yields env settings outcome).mono ?_
    intro result after hafter
    have hprogress := hpaid.trans hafter
    cases result with
    | error error => exact hprogress.mono (by decide)
    | ok value =>
        exact ⟨hprogress.mono (by decide), hafter.casesLeft.trans_lt hless⟩
  · intro error after hrun
    rw [hrun] at hruns
    have hvalid : explorer.engine.validTestCases < settings.testCases := by
      rw [underBudget] at hunder
      simp only [Bool.and_eq_true, decide_eq_true_eq] at hunder
      exact hunder.1.1.2
    exact hruns.offers.progress hvalid

/-- A batch that may begin executes a random case, unless the first failure
became long ago in between. -/
theorem generateBatch_yields
    (hmay : settings.generatesMore explorer.engine explorer.late = true) :
    (generateBatch env settings).Yields explorer fun
      | .ok _, after => settings.Progress 0 explorer after ∧
          (settings.casesLeft after.engine <
              settings.casesLeft explorer.engine ∨
            (explorer.late = false ∧ after.late = true))
      | .error _, after => settings.Progress 1 explorer after := by
  apply yields_loop (InvImage.wf
    (fun pair : Nat × Explorer World => pair.1) wellFounded_lt)
    fun remaining state => settings.Progress 0 explorer state ∧
      (settings.casesLeft state.engine < settings.casesLeft explorer.engine ∨
        0 < remaining ∧ state = explorer)
  · rintro remaining state ⟨hprogress, hstarted⟩
    cases remaining with
    | zero =>
        apply yields_pure
        refine ⟨hprogress, .inl ?_⟩
        exact hstarted.resolve_right fun hzero => absurd hzero.1 (lt_irrefl _)
    | succ remaining =>
        apply yields_bind
        refine (mayGenerate_yields env settings).mono ?_
        intro result asked hasked
        cases result with
        | error error => exact hasked.elim
        | ok may =>
            have hprogress' := hprogress.andThen hasked.progress
            apply yields_ite
            · intro hyes
              have hagain : settings.generatesMore asked.engine asked.late =
                  true := by
                rw [hasked.engine, ← hasked.decided, hyes]
              apply yields_bind
              refine (randomCase_yields env settings hagain).mono ?_
              intro result after hafter
              cases result with
              | error error => exact hprogress'.andThen hafter
              | ok value =>
                  obtain ⟨hcase, hless⟩ := hafter
                  apply yields_pure
                  refine ⟨⟨hprogress'.andThen hcase, .inl ?_⟩,
                    Nat.lt_succ_self remaining⟩
                  exact hless.trans_le hprogress'.casesLeft
            · intro hno
              apply yields_pure
              refine ⟨hprogress', ?_⟩
              rcases hstarted with hless | ⟨-, rfl⟩
              · rw [hasked.engine]
                exact .inl hless
              · right
                have hdecided := hasked.decided
                rw [Bool.eq_false_iff.mpr hno] at hdecided
                -- The counters are the same, so only the time can differ.
                have hdiffers : asked.late ≠ state.late := by
                  intro hsame
                  rw [hsame, hmay] at hdecided
                  exact absurd hdecided (by decide)
                cases hlate : state.late with
                | true =>
                    rw [hasked.late hlate, hlate] at hdiffers
                    exact absurd rfl hdiffers
                | false =>
                    rw [hlate] at hdiffers
                    exact ⟨rfl, Bool.ne_false_iff.mp hdiffers⟩
  · exact ⟨.refl explorer, .inr ⟨by decide, rfl⟩⟩

/-- Batches execute random cases, or the first failure becomes long ago. -/
def BatchBelow (settings : RunSettings) :
    Unit × Explorer World → Unit × Explorer World → Prop :=
  InvImage (Prod.Lex (· < ·) (· < ·)) fun pair : Unit × Explorer World =>
    (settings.casesLeft pair.2.engine, (!pair.2.late).toNat)

/-- Generating random cases comes to an end. -/
theorem generateBatches_yields :
    (generateBatches env settings).Yields explorer fun
      | .ok _, after => settings.Progress 0 explorer after
      | .error _, after => settings.Progress 1 explorer after := by
  have hwf : WellFounded (@BatchBelow World settings) :=
    InvImage.wf _ (WellFounded.prod_lex wellFounded_lt wellFounded_lt)
  apply yields_loop hwf fun _ state => settings.Progress 0 explorer state
  · intro _ state hprogress
    apply yields_bind
    refine (mayGenerate_yields env settings).mono ?_
    intro result asked hasked
    cases result with
    | error error => exact hasked.elim
    | ok may =>
        have hprogress' := hprogress.andThen hasked.progress
        apply yields_ite
        · intro hyes
          have hmay : settings.generatesMore asked.engine asked.late =
              true := by
            rw [hasked.engine, ← hasked.decided, hyes]
          apply yields_bind
          refine (generateBatch_yields env settings hmay).mono ?_
          intro result after hafter
          cases result with
          | error error => exact hprogress'.andThen hafter
          | ok value =>
              obtain ⟨hbatch, hbelow⟩ := hafter
              apply yields_pure
              refine ⟨hprogress'.andThen hbatch, ?_⟩
              show Prod.Lex _ _ (_, _) (_, _)
              dsimp only
              rw [← hasked.engine]
              rcases hbelow with hless | ⟨hearly, hlate⟩
              · exact .left _ _ hless
              · rcases hbatch.casesLeft.lt_or_eq with hless | hsame
                · exact .left _ _ hless
                · rw [hsame]
                  refine .right _ ?_
                  have hbefore : state.late = false := by
                    cases hstate : state.late with
                    | false => rfl
                    | true =>
                        rw [hasked.late hstate] at hearly
                        exact absurd hearly (by decide)
                  rw [hlate, hbefore]
                  decide
        · exact fun _ => yields_pure hprogress'
  · exact .refl explorer

end Generating

section Phase

open Looping

variable {World Store : Type} {explorer : Explorer World}

/-- The simplest case is executed although there are enough valid ones. -/
structure RunSettings.Overspends (settings : RunSettings)
    (explorer : Explorer World) : Prop where
  generates : .generate ∈ settings.phases
  noFailure : explorer.engine.interesting.entries.isEmpty = true
  drawsData : explorer.engine.testIsTrivial = false
  withinInvalid : withinInvalidBudget explorer.engine = true
  several : settings.testCases > 1
  enough : settings.testCases ≤ explorer.engine.validTestCases

/-- The most cases that the generation phase executes. -/
def RunSettings.generationBound (settings : RunSettings)
    (engine : Engine Unit) : Nat :=
  settings.potential engine + 2

/-- Few cases were executed since, and none with enough valid ones, except when
the simplest one was. -/
def RunSettings.KeepsBudget (settings : RunSettings)
    (explorer after : Explorer World) : Prop :=
  ∃ new : List ExecutedCase, after.cases = explorer.cases ++ new ∧
    new.length ≤ settings.generationBound explorer.engine ∧
      ((∀ case ∈ new, case.before.validTestCases < settings.testCases) ↔
        ¬settings.Overspends explorer)

theorem RunSettings.Progress.keepsBudget {settings : RunSettings}
    {after : Explorer World} (hprogress : settings.Progress 2 explorer after)
    (hthrifty : ¬settings.Overspends explorer) :
    settings.KeepsBudget explorer after := by
  obtain ⟨new, hcases, hvalid, hlength⟩ := hprogress.spends
  refine ⟨new, hcases, ?_, fun _ => hthrifty, fun _ => hvalid⟩
  rw [RunSettings.generationBound]
  omega

variable [UBigBytes] (env : Environment World Store) (settings : RunSettings)

/-- The simplest case costs one at most, unless there are enough valid ones. -/
theorem probeSimplest_yields (hthrifty : explorer.engine.testIsTrivial = false →
      withinInvalidBudget explorer.engine = true → settings.testCases > 1 →
        explorer.engine.validTestCases < settings.testCases) :
    (probeSimplest env settings).Yields explorer fun _ after =>
      settings.Progress 1 explorer after := by
  apply yields_bind
  apply yields_read
  apply yields_ite
  · rintro ⟨hdraws, hwithin, hseveral⟩
    have hvalid := hthrifty hdraws hwithin hseveral
    have hruns := runCase_runs env .simplest (.simplest bufferSize) explorer
    apply yields_bind
    apply yields_lift
    · intro outcome after hrun
      rw [hrun] at hruns
      have hpaid := hruns.offers.progress hvalid
      apply yields_ite
      · exact fun _ => yields_halt hpaid
      · exact fun _ => yields_pure hpaid
    · intro error after hrun
      rw [hrun] at hruns
      exact hruns.offers.progress hvalid
  · exact fun _ => yields_pure
      ((RunSettings.Progress.refl explorer).mono (by decide))

/-- With enough valid cases no random case is generated. -/
theorem generateBatches_enough
    (henough : settings.testCases ≤ explorer.engine.validTestCases) :
    (generateBatches env settings).Yields explorer fun _ after =>
      after.cases = explorer.cases := by
  have hover : ∀ late, settings.generatesMore explorer.engine late = false := by
    intro late
    rw [RunSettings.generatesMore, underBudget,
      decide_eq_false (not_lt.mpr henough)]
    simp
  apply yields_loop_finish
  apply yields_bind
  refine (mayGenerate_yields env settings).mono ?_
  intro result asked hasked
  cases result with
  | error error => exact hasked.elim
  | ok may =>
      apply yields_ite
      · intro hyes
        rw [hasked.decided, hover] at hyes
        exact absurd hyes (by decide)
      · exact fun _ => yields_pure hasked.cases

theorem overspends_yields (hoverspends : settings.Overspends explorer) :
    (generateCases env settings).Yields explorer fun _ after =>
      settings.KeepsBudget explorer after := by
  have hkeeps : ∀ middle after : Explorer World, explorer.Offers middle →
      after.cases = middle.cases → settings.KeepsBudget explorer after := by
    intro middle after hoffers hsame
    obtain ⟨case, hcases, hbefore⟩ := hoffers.cases
    refine ⟨[case], hsame.trans hcases, ?_, ?_, fun hno => absurd hoverspends hno⟩
    · rw [RunSettings.generationBound, List.length_singleton]
      omega
    · intro hvalid
      have hlt := hvalid case (List.mem_singleton_self case)
      rw [hbefore] at hlt
      exact absurd hoverspends.enough (not_le.mpr hlt)
  have hruns := runCase_runs env .simplest (.simplest bufferSize) explorer
  apply yields_bind
  apply yields_read
  dsimp only
  rw [if_pos ⟨hoverspends.generates, hoverspends.noFailure⟩]
  apply yields_bind
  apply yields_bind
  apply yields_read
  dsimp only
  rw [if_pos ⟨hoverspends.drawsData, hoverspends.withinInvalid,
    hoverspends.several⟩]
  apply yields_bind
  apply yields_lift
  · intro outcome middle hrun
    rw [hrun] at hruns
    apply yields_ite
    · exact fun _ => yields_halt (hkeeps middle middle hruns.offers rfl)
    · intro _
      obtain ⟨status, hcounts⟩ := hruns.counts outcome rfl
      have henough : settings.testCases ≤ middle.engine.validTestCases := by
        rw [hcounts.valid]
        exact hoverspends.enough.trans (Nat.le_add_right _ _)
      apply yields_pure
      refine (generateBatches_enough env settings henough).mono ?_
      exact fun _ after hafter => hkeeps middle after hruns.offers hafter
  · intro error after hrun
    rw [hrun] at hruns
    exact hkeeps after after hruns.offers rfl

theorem generateCases_yields :
    (generateCases env settings).Yields explorer fun _ after =>
      settings.KeepsBudget explorer after := by
  by_cases hoverspends : settings.Overspends explorer
  · exact overspends_yields env settings hoverspends
  · apply yields_bind
    apply yields_read
    apply yields_ite
    · rintro ⟨hgenerates, hnoFailure⟩
      have hthrifty : explorer.engine.testIsTrivial = false →
          withinInvalidBudget explorer.engine = true →
            settings.testCases > 1 →
              explorer.engine.validTestCases < settings.testCases := by
        intro hdraws hwithin hseveral
        by_contra hvalid
        exact hoverspends ⟨hgenerates, hnoFailure, hdraws, hwithin, hseveral,
          not_lt.mp hvalid⟩
      apply yields_bind
      refine (probeSimplest_yields env settings hthrifty).mono ?_
      intro result middle hmiddle
      cases result with
      | error error => exact (hmiddle.mono (by decide)).keepsBudget hoverspends
      | ok value =>
          refine (generateBatches_yields env settings).mono ?_
          intro result after hafter
          cases result with
          | error error => exact (hmiddle.trans hafter).keepsBudget hoverspends
          | ok value =>
              exact ((hmiddle.trans hafter).mono (by decide)).keepsBudget
                hoverspends
    · intro _
      exact yields_pure (((RunSettings.Progress.refl explorer).mono
        (by decide)).keepsBudget hoverspends)

/-- The generation phase comes to an end, whatever the test cases do, and
executes a bounded number of them.  It executes none when there are enough valid
ones, exactly if the simplest case is not executed then. -/
theorem generationPhase_budget :
    (generationPhase env settings).Yields explorer fun _ after =>
      ∃ new : List ExecutedCase, after.cases = explorer.cases ++ new ∧
        new.length ≤ settings.generationBound explorer.engine ∧
          ((∀ case ∈ new, case.before.validTestCases < settings.testCases) ↔
            ¬settings.Overspends explorer) := by
  apply yields_bind
  apply yields_modify
  apply yields_bind
  refine (generateCases_yields env settings).mono ?_
  intro result after hafter
  have hkeeps : settings.KeepsBudget explorer after := by
    obtain ⟨new, hcases, hlength, hvalid⟩ := hafter
    refine ⟨new, hcases, hlength, hvalid.trans (not_congr ?_)⟩
    exact ⟨fun h => ⟨h.1, h.2, h.3, h.4, h.5, h.6⟩,
      fun h => ⟨h.1, h.2, h.3, h.4, h.5, h.6⟩⟩
  cases result with
  | error error => exact hkeeps
  | ok value =>
      apply yields_bind
      apply yields_read
      dsimp only
      cases generationError settings after.engine with
      | some error => exact yields_halt hkeeps
      | none => exact yields_modify hkeeps

end Phase

section Sample

/-- A boolean that was drawn. -/
def drawnBoolean (b : Bool) : List ChoiceNode :=
  [.mk (.boolean ⟨.zero⟩ b) false]

/-- The test passes whichever boolean it draws. -/
def passed (b : Bool) : CaseOutcome :=
  ⟨⟨.valid, drawnBoolean b, [], none⟩, ∅, false⟩

/-- A test that draws a boolean and passes, with both booleans stored. -/
def passingEnvironment : Environment Unit DatabaseFiles where
  layout := ⟨0, 0, 0⟩
  database := directoryTestCaseDatabase
  stored := directoryTestCaseDatabase.applyAll ∅
    [.save [97] [1, 0, 0, 0, 1, 0], .save [97] [1, 0, 0, 0, 1, 1]]
  execute _ request :=
    match request with
    | .probe [.boolean b] _ => (.ok (passed b), ())
    | .choices [.boolean b] _ => (.ok (passed b), ())
    | .random => (.ok (passed true), ())
    | _ => (.ok (passed false), ())
  random _ := (0, ())
  now _ := (none, ())
  shrinkBudget := 300
  firstBugLongAgo _ := (false, ())
  tooSlow _ := false

def twoCases : RunSettings := ⟨2, [.reuse, .generate], true, []⟩

/-- Both stored entries pass when they are replayed, which is all the budget
there is; the simplest case is executed nevertheless. -/
theorem generationPhase_overspends :
    let _digits := UBigBytes.digits
    let stored := [[1, 0, 0, 0, 1, 0], [1, 0, 0, 0, 1, 1]]
    let final := (explore passingEnvironment twoCases
      (fun _ _ => ⟨.done, .done⟩) 4 (.new twoCases (some [97]) stored ())).2
    ¬∀ case ∈ final.cases, case.site = .simplest →
      case.before.validTestCases < twoCases.testCases := by
  intro _digits stored final hbudget
  have hsimplest : (final.cases.any fun case =>
      decide (case.site = .simplest) &&
        decide (twoCases.testCases ≤ case.before.validTestCases)) = true := by
    decide +kernel
  rw [List.any_eq_true] at hsimplest
  obtain ⟨case, hmem, hcase⟩ := hsimplest
  rw [Bool.and_eq_true, decide_eq_true_eq, decide_eq_true_eq] at hcase
  exact absurd (hbudget case hmem hcase.1) (not_lt.mpr hcase.2)

end Sample

end Hegel
