/-
What a run reports.  The examples that are kept are the nodes of executed
failures, each under the origin that it was recorded for, and no origin that
failed loses its example; what is reported are therefore the origins of the
executed failures.
-/
import Hegel.Contradictions
import Hegel.EngineRuns
import Hegel.RunLogic

namespace Hegel

/-- The run is recorded as a failure of the origin. -/
def RunResult.FailsAs (run : RunResult) (origin : String) : Prop :=
  run.status = .interesting ∧ run.origin.getD "" = origin

theorem RunResult.FailsWith.failsAs {run : RunResult} {origin : String}
    (hfails : run.FailsWith origin) : run.FailsAs origin :=
  ⟨hfails.1, by rw [hfails.2, Option.getD_some]⟩

variable {Rng : Type}

namespace Engine

/-- The examples and the served entries come from executed runs, and every
origin that failed has an example. -/
structure Accounts [UBigBytes] (engine : Engine Rng) : Prop where
  stored : ∀ origin stored, engine.interesting.lookup origin = some stored →
    ∃ run ∈ engine.executed, run.FailsAs origin ∧ run.nodes = stored
  covered : ∀ run ∈ engine.executed, ∀ origin, run.FailsAs origin →
    ∃ stored, engine.interesting.lookup origin = some stored
  cached : ∀ key hit, engine.execCache.full.lookup key = some hit →
    ∃ run ∈ engine.executed, hit = run.cached

variable [UBigBytes] {engine engine' : Engine Rng} {run : RunResult}

theorem accounts_new (databaseKey : Option Bytes) (preexisting : List Bytes)
    (rng : Rng) : (Engine.new databaseKey preexisting rng).Accounts where
  stored _ _ hstored := by cases hstored
  covered _ hrun := absurd hrun List.not_mem_nil
  cached _ _ hhit := by cases hhit

/-- A failure is recorded under its origin, and an example stays under its
own. -/
theorem Accounts.records (haccounts : engine.Accounts)
    (hrecords : engine.Records run engine') : engine'.Accounts := by
  have hmine : run ∈ engine'.executed := hrecords.mem.mpr (.inr rfl)
  constructor
  · intro origin stored hstored
    rcases hrecords.lookup hstored with hbefore | ⟨hstatus, rfl, hnodes⟩
    · obtain ⟨other, hother, hfails⟩ := haccounts.stored origin stored hbefore
      exact ⟨other, hrecords.mem.mpr (.inl hother), hfails⟩
    · exact ⟨run, hmine, ⟨hstatus, rfl⟩, hnodes⟩
  · intro other hother origin hfails
    rcases hrecords.mem.mp hother with hold | rfl
    · obtain ⟨stored, hstored⟩ := haccounts.covered other hold origin hfails
      obtain ⟨stored', hstored', -⟩ := hrecords.lowers origin stored hstored
      exact ⟨stored', hstored'⟩
    · obtain ⟨hstatus, rfl⟩ := hfails
      rw [hrecords.interesting, if_pos hstatus]
      obtain ⟨stored, hstored, -⟩ := updateInteresting_offered
        engine.interesting (other.origin.getD "") other.nodes
      exact ⟨stored, hstored⟩
  · intro key hit hhit
    rcases hrecords.cached key hit hhit with hold | ⟨-, -, hserved⟩
    · obtain ⟨other, hother, hserved⟩ := haccounts.cached key hit hold
      exact ⟨other, hrecords.mem.mpr (.inl hother), hserved⟩
    · exact ⟨run, hmine, hserved⟩

/-- Clearing the cache loses no example. -/
theorem Accounts.noticeConcurrency (haccounts : engine.Accounts)
    (concurrentMachine : Bool) :
    (engine.noticeConcurrency concurrentMachine).Accounts := by
  rw [Engine.noticeConcurrency]
  split
  · refine ⟨haccounts.stored, haccounts.covered, ?_⟩
    intro key hit hhit
    cases hhit
  · exact haccounts

/-- An example may give way to another failure of its origin. -/
theorem Accounts.replaced (haccounts : engine.Accounts) {origin : String}
    (hrun : run ∈ engine.executed) (hfails : run.FailsAs origin) :
    { engine with
      interesting := engine.interesting.insert origin run.nodes }.Accounts := by
  refine ⟨?_, ?_, haccounts.cached⟩
  · intro other stored hstored
    by_cases hother : other = origin
    · subst hother
      rw [AList.lookup_insert, Option.some.injEq] at hstored
      exact ⟨run, hrun, hfails, hstored⟩
    · rw [AList.lookup_insert_ne hother] at hstored
      exact haccounts.stored other stored hstored
  · intro executed hexecuted other hfailed
    by_cases hother : other = origin
    · subst hother
      exact ⟨run.nodes, AList.lookup_insert _⟩
    · obtain ⟨stored, hstored⟩ :=
        haccounts.covered executed hexecuted other hfailed
      exact ⟨stored, (AList.lookup_insert_ne hother).trans hstored⟩

/-- A served run was executed. -/
theorem Accounts.served (haccounts : engine.Accounts)
    {choices : List ChoiceValue} (hserved : engine.served choices = some run) :
    run ∈ engine.executed := by
  obtain ⟨hit, hhit, rfl⟩ := served_eq_some hserved
  obtain ⟨other, hother, rfl⟩ := haccounts.cached _ _ hhit
  exact hother

section Keys

/-- Recording a run leaves the database key alone. -/
theorem recordRun_databaseKey (engine : Engine Rng) (run : RunResult)
    (layout : Layout) :
    (engine.recordRun layout run).2.databaseKey = engine.databaseKey := by
  have hentered :
      (if engine.nondeterministic then (none, engine)
        else engine.recordExecution layout run).2.databaseKey =
          engine.databaseKey := by
    split
    · rfl
    · rw [recordExecution]
      dsimp only
      split
      · rfl
      · split
        · rfl
        · rfl
  have hpersist : ∀ (engine : Engine Rng) origin nodes,
      (engine.persist origin nodes).databaseKey = engine.databaseKey := by
    intro engine origin nodes
    rw [persist]
    split
    · rfl
    · rfl
  have hstatus : ∀ engine : Engine Rng,
      (engine.recordStatus run).databaseKey = engine.databaseKey := by
    intro engine
    rw [recordStatus]
    cases run.status with
    | valid => rfl
    | invalid => rfl
    | earlyStop => rfl
    | interesting =>
        dsimp only
        split
        · rfl
        · exact hpersist _ _ _
  rw [recordRun]
  generalize (if engine.nondeterministic then (none, engine)
    else engine.recordExecution layout run) = recorded at hentered
  obtain ⟨mismatch, entered⟩ := recorded
  exact (hstatus _).trans hentered

omit [UBigBytes] in
theorem noticeConcurrency_databaseKey (engine : Engine Rng)
    (concurrentMachine : Bool) :
    (engine.noticeConcurrency concurrentMachine).databaseKey =
      engine.databaseKey := by
  rw [Engine.noticeConcurrency]
  split
  · rfl
  · rfl

omit [UBigBytes] in
/-- Each origin is reported once. -/
theorem report_origins_nodup (engine : Engine Rng)
    (reportMultipleFailures : Bool) :
    ((engine.report reportMultipleFailures).map Prod.fst).Nodup := by
  have hkeys : ((engine.interesting.entries.map
      fun entry => (entry.1, entry.2)).map Prod.fst).Nodup := by
    rw [List.map_map]
    exact engine.interesting.nodupKeys
  rw [report]
  cases reportMultipleFailures with
  | true =>
      rw [if_pos rfl]
      exact ((List.mergeSort_perm _ _).map Prod.fst).nodup_iff.mpr hkeys
  | false =>
      rw [if_neg Bool.false_ne_true]
      cases (List.mergeSort _ _).getLast? with
      | none => exact List.nodup_nil
      | some reported => exact List.nodup_singleton _

omit [UBigBytes] in
theorem length_report_false (engine : Engine Rng) :
    (engine.report false).length ≤ 1 := by
  rw [report, if_neg Bool.false_ne_true]
  exact Option.length_toList_le

omit [UBigBytes] in
/-- Nothing is reported only if nothing is stored. -/
theorem report_eq_nil {engine : Engine Rng} {reportMultipleFailures : Bool}
    (hreport : engine.report reportMultipleFailures = []) (origin : String) :
    engine.interesting.lookup origin = none := by
  have hall : engine.report true = [] := by
    cases reportMultipleFailures with
    | true => exact hreport
    | false =>
        rw [report] at hreport ⊢
        simp only [Bool.false_eq_true, if_false, Option.toList_eq_nil_iff,
          List.getLast?_eq_none_iff] at hreport
        simp only [if_true]
        exact hreport
  cases hstored : engine.interesting.lookup origin with
  | none => rfl
  | some nodes =>
      have hmem := mem_report.mpr hstored
      rw [hall] at hmem
      cases hmem

end Keys

end Engine

variable {World Store : Type}

/-- What holds throughout a run: the executed runs are those of the log, and
the examples account for them. -/
structure Explorer.Accounted [UBigBytes] (databaseKey : Option Bytes)
    (explorer : Explorer World) : Prop where
  keyed : explorer.engine.databaseKey = databaseKey
  logged : explorer.engine.executed =
    explorer.cases.filterMap ExecutedCase.run
  accounts : explorer.engine.Accounts

section Accounting

variable [UBigBytes] {databaseKey : Option Bytes} {explorer : Explorer World}

theorem Explorer.Accounted.tested (env : Environment World Store)
    (haccounted : explorer.Accounted databaseKey) (site : CaseSite)
    (request : CaseRequest) :
    (explorer.testFunction env site request).2.Accounted databaseKey := by
  rw [Explorer.testFunction]
  rcases env.execute explorer.world request with ⟨answer, world⟩
  cases answer with
  | error error =>
      refine ⟨haccounted.keyed, ?_, haccounted.accounts⟩
      rw [List.filterMap_append]
      exact haccounted.logged.trans (List.append_nil _).symm
  | ok outcome =>
      have hrecords := (explorer.engine.noticeConcurrency
        outcome.concurrentMachine).records_recordRun outcome.run env.layout
      refine ⟨?_, ?_, (haccounted.accounts.noticeConcurrency _).records hrecords⟩
      · exact (Engine.recordRun_databaseKey _ _ _).trans
          ((Engine.noticeConcurrency_databaseKey _ _).trans haccounted.keyed)
      · have hexecuted := hrecords.executed
        rw [Engine.noticeConcurrency_executed, haccounted.logged] at hexecuted
        refine hexecuted.trans ?_
        change _ = (explorer.cases ++ [(⟨site, _, some outcome.run⟩ :
          ExecutedCase)]).filterMap ExecutedCase.run
        rw [List.filterMap_append]
        rfl

/-- The parts of a run keep the account. -/
theorem accounted_logic (env : Environment World Store)
    (databaseKey : Option Bytes) :
    ExploreLogic env databaseKey (fun _ => True)
      (Explorer.Accounted databaseKey) where
  keyed haccounted := haccounted.keyed
  tested site request haccounted := haccounted.tested env site request
  unrecorded := by
    rintro explorer after ⟨⟨collectStatistics, hengine⟩, hcases⟩ haccounted
    obtain ⟨hkeyed, hlogged, hstored, hcovered, hcached⟩ := haccounted
    refine ⟨?_, ?_, ?_⟩
    · rw [hengine]
      exact hkeyed
    · rw [hengine, hcases]
      exact hlogged
    · rw [hengine]
      exact ⟨hstored, hcovered, hcached⟩
  fetched _ _ _ := trivial
  deleted haccounted _ _ _ :=
    ⟨haccounted.keyed, haccounted.logged, haccounted.accounts.stored,
      haccounted.accounts.covered, haccounted.accounts.cached⟩
  served haccounted hserved := haccounted.accounts.served hserved
  replaced haccounted hrun hfails :=
    ⟨haccounted.keyed, haccounted.logged,
      haccounted.accounts.replaced hrun hfails.failsAs⟩

variable (env : Environment World Store) (settings : RunSettings)

end Accounting

end Hegel
