/-
What the engine records.  An execution enters the ledger, the cache and the
counters, and a failure is offered as an example of its origin; the examples
and the served entries therefore come from executed runs, and no executed
failure is smaller than the example of its origin.
-/
import Hegel.Engine
import Hegel.Replay

namespace Hegel

variable {Rng : Type}

/-- The run failed with the origin. -/
def RunResult.FailsWith (run : RunResult) (origin : String) : Prop :=
  run.status = .interesting ∧ run.origin = some origin

/-- The entry that serves a run again. -/
def RunResult.cached (run : RunResult) : CachedRun :=
  ⟨run.status, run.origin, run.nodes, run.spans⟩

/-- The body under test has the result when it is started somehow. -/
def EngineSetup.Produces (setup : EngineSetup Rng) (run : RunResult) : Prop :=
  ∃ input budget replies,
    execute setup.sampler setup.body setup.fuel (.start input budget) =
      .ok (some ⟨replies, run⟩)

/-- A failure has an origin. -/
theorem EngineSetup.Produces.failsWith {setup : EngineSetup Rng}
    {run : RunResult} (hproduces : setup.Produces run)
    (hstatus : run.status = .interesting) :
    run.FailsWith (run.origin.getD "") := by
  obtain ⟨input, budget, replies, hexecute⟩ := hproduces
  obtain ⟨finished, -, -, htake⟩ := execute_eq_some hexecute
  refine ⟨hstatus, ?_⟩
  rw [takeRun] at htake
  split at htake
  case h_1 conclusion root hconclusion hroot =>
    obtain ⟨status, origin⟩ := conclusion
    dsimp only at htake
    rw [Option.some.injEq] at htake
    subst htake
    cases status with
    | interesting => rfl
    | valid => cases hstatus
    | invalid => cases hstatus
    | earlyStop => cases hstatus
  case h_2 => cases htake

section Examples

/-- Every stored example is still there or gave way to one that is no
larger. -/
def Lowers (interesting interesting' : InterestingMap) : Prop :=
  ∀ origin stored, interesting.lookup origin = some stored →
    ∃ stored', interesting'.lookup origin = some stored' ∧
      (nodesSortKeyCmp stored' stored).isLE

theorem Lowers.refl (interesting : InterestingMap) :
    Lowers interesting interesting :=
  fun _ stored hstored => ⟨stored, hstored, Std.ReflCmp.isLE_rfl⟩

theorem Lowers.trans {first second third : InterestingMap}
    (hfirst : Lowers first second) (hsecond : Lowers second third) :
    Lowers first third := by
  intro origin stored hstored
  obtain ⟨stored', hstored', hle⟩ := hfirst origin stored hstored
  obtain ⟨stored'', hstored'', hle'⟩ := hsecond origin stored' hstored'
  exact ⟨stored'', hstored'', Std.TransCmp.isLE_trans hle' hle⟩

/-- Writing an example that is no larger than the stored one. -/
theorem lowers_insert_iff {interesting : InterestingMap} {origin : String}
    {nodes : List ChoiceNode} :
    Lowers interesting (interesting.insert origin nodes) ↔
      ∀ stored, interesting.lookup origin = some stored →
        (nodesSortKeyCmp nodes stored).isLE := by
  constructor
  · intro hlowers stored hstored
    obtain ⟨stored', hstored', hle⟩ := hlowers origin stored hstored
    rw [AList.lookup_insert, Option.some.injEq] at hstored'
    rw [hstored']
    exact hle
  · intro hle other stored hstored
    by_cases hother : other = origin
    · subst hother
      exact ⟨nodes, AList.lookup_insert _, hle stored hstored⟩
    · exact ⟨stored, (AList.lookup_insert_ne hother).trans hstored,
        Std.ReflCmp.isLE_rfl⟩

variable (interesting : InterestingMap) (origin : String)
  (nodes : List ChoiceNode)

theorem updateInteresting_lowers :
    Lowers interesting (updateInteresting interesting origin nodes) := by
  rw [updateInteresting]
  cases hstored : interesting.lookup origin with
  | none =>
      rw [lowers_insert_iff, hstored]
      exact fun _ hnone => by cases hnone
  | some stored =>
      dsimp only
      split
      case isTrue hlt =>
        rw [lowers_insert_iff, hstored]
        intro stored' hsame
        rw [← Option.some.inj hsame, hlt]
        rfl
      case isFalse => exact .refl interesting

/-- Afterwards the origin has an example that is no larger than the one
offered. -/
theorem updateInteresting_offered :
    ∃ stored,
      (updateInteresting interesting origin nodes).lookup origin =
          some stored ∧
        (nodesSortKeyCmp stored nodes).isLE := by
  rw [updateInteresting]
  cases hstored : interesting.lookup origin with
  | none => exact ⟨nodes, AList.lookup_insert _, Std.ReflCmp.isLE_rfl⟩
  | some stored =>
      dsimp only
      split
      case isTrue => exact ⟨nodes, AList.lookup_insert _, Std.ReflCmp.isLE_rfl⟩
      case isFalse hnot => exact ⟨stored, hstored, isLE_of_not_lt hnot⟩

/-- An example is an old one or the one offered. -/
theorem lookup_updateInteresting {other : String} {stored : List ChoiceNode}
    (hstored : (updateInteresting interesting origin nodes).lookup other =
      some stored) :
    interesting.lookup other = some stored ∨
      other = origin ∧ stored = nodes := by
  have hinsert : (interesting.insert origin nodes).lookup other =
      some stored → interesting.lookup other = some stored ∨
        other = origin ∧ stored = nodes := by
    intro hinserted
    by_cases hother : other = origin
    · rw [hother, AList.lookup_insert, Option.some.injEq] at hinserted
      exact .inr ⟨hother, hinserted.symm⟩
    · rw [AList.lookup_insert_ne hother] at hinserted
      exact .inl hinserted
  rw [updateInteresting] at hstored
  split at hstored
  · exact hinsert hstored
  · split at hstored
    · exact hinsert hstored
    · exact .inl hstored

end Examples

namespace Engine

section Recording

variable [UBigBytes] (engine : Engine Rng) (run : RunResult)

/-- What the cache of an engine serves, another one served before, or it is the
run. -/
def CachesOnly (engine : Engine Rng) (run : RunResult)
    (engine' : Engine Rng) : Prop :=
  ∀ key hit, engine'.execCache.full.lookup key = some hit →
    engine.execCache.full.lookup key = some hit ∨
      run.status ≠ .earlyStop ∧ key = serializeNodes run.nodes ∧
        hit = run.cached

/-- Entering a run into the ledger and the cache leaves the examples alone. -/
theorem recordExecution_spec (layout : Layout) :
    (engine.recordExecution layout run).2.interesting = engine.interesting ∧
      (engine.recordExecution layout run).2.executed = engine.executed ∧
        engine.CachesOnly run (engine.recordExecution layout run).2 := by
  rw [recordExecution]
  cases engine.kindLedger.observe run.nodes with
  | mk kindLedger mismatch =>
      cases mismatch with
      | some mismatch => exact ⟨rfl, rfl, fun _ _ => .inl⟩
      | none =>
          dsimp only
          split
          case isTrue => exact ⟨rfl, rfl, fun _ _ => .inl⟩
          case isFalse hstatus =>
            refine ⟨rfl, rfl, fun key hit hhit => ?_⟩
            rcases ExecCache.lookup_record hhit with hold | ⟨hkey, hentry⟩
            · exact .inl hold
            · exact .inr ⟨hstatus, hkey, hentry⟩

theorem persist_frame (origin : String) (nodes : List ChoiceNode) :
    (engine.persist origin nodes).interesting = engine.interesting ∧
      (engine.persist origin nodes).executed = engine.executed ∧
        (engine.persist origin nodes).execCache = engine.execCache := by
  rw [persist]
  cases engine.databaseKey with
  | none => exact ⟨rfl, rfl, rfl⟩
  | some key => exact ⟨rfl, rfl, rfl⟩

/-- A failure is offered as an example; nothing else touches the examples. -/
theorem recordStatus_spec :
    (engine.recordStatus run).interesting =
        (if run.status = .interesting then
          updateInteresting engine.interesting (run.origin.getD "") run.nodes
        else engine.interesting) ∧
      (engine.recordStatus run).executed = engine.executed ∧
        (engine.recordStatus run).execCache = engine.execCache := by
  rw [recordStatus]
  cases run.status with
  | valid => exact ⟨rfl, rfl, rfl⟩
  | invalid => exact ⟨rfl, rfl, rfl⟩
  | earlyStop => exact ⟨rfl, rfl, rfl⟩
  | interesting =>
      dsimp only
      split
      · exact ⟨rfl, rfl, rfl⟩
      · obtain ⟨hinteresting, hexecuted, hcache⟩ := persist_frame
          { engine with
            firstBugAt := engine.firstBugAt.or (some engine.calls)
            lastBugAt := some engine.calls } (run.origin.getD "") run.nodes
        rw [hinteresting, if_pos rfl]
        exact ⟨rfl, hexecuted, hcache⟩

/-- What recording a run does to the executed runs, the examples and the
cache. -/
structure Records (engine : Engine Rng) (run : RunResult)
    (engine' : Engine Rng) : Prop where
  executed : engine'.executed = engine.executed ++ [run]
  interesting : engine'.interesting =
    if run.status = .interesting then
      updateInteresting engine.interesting (run.origin.getD "") run.nodes
    else engine.interesting
  cached : engine.CachesOnly run engine'

theorem records_recordRun (layout : Layout) :
    engine.Records run (engine.recordRun layout run).2 := by
  have hentered :
      let entered := (if engine.nondeterministic then (none, engine)
        else engine.recordExecution layout run).2
      entered.interesting = engine.interesting ∧
        entered.executed = engine.executed ∧
          engine.CachesOnly run entered := by
    dsimp only
    split
    · exact ⟨rfl, rfl, fun _ _ => .inl⟩
    · exact engine.recordExecution_spec run layout
  rw [recordRun]
  generalize (if engine.nondeterministic then (none, engine)
    else engine.recordExecution layout run) = recorded at hentered
  obtain ⟨mismatch, entered⟩ := recorded
  obtain ⟨hinteresting, hexecuted, hcached⟩ := hentered
  dsimp only at hinteresting hexecuted hcached ⊢
  obtain ⟨hinteresting', hexecuted', hcache'⟩ := recordStatus_spec
    { entered with
      calls := entered.calls + 1
      testIsTrivial := entered.testIsTrivial || (run.nodes.isEmpty &&
        decide (run.status ≠ .earlyStop) && !entered.nondeterministic)
      executed := entered.executed ++ [run] } run
  constructor
  · rw [hexecuted', hexecuted]
  · rw [hinteresting', hinteresting]
  · intro key hit hhit
    rw [hcache'] at hhit
    exact hcached key hit hhit

end Recording

/-- The examples and the cache come from executed runs, and no executed failure
is smaller than the example of its origin. -/
structure Consistent [UBigBytes] (setup : EngineSetup Rng)
    (engine : Engine Rng) : Prop where
  produced : ∀ run ∈ engine.executed, setup.Produces run
  stored : ∀ origin stored, engine.interesting.lookup origin = some stored →
    ∃ run ∈ engine.executed, run.FailsWith origin ∧ run.nodes = stored
  smallest : ∀ run ∈ engine.executed, ∀ origin, run.FailsWith origin →
    ∃ stored, engine.interesting.lookup origin = some stored ∧
      (nodesSortKeyCmp stored run.nodes).isLE
  cached : ∀ key hit, engine.execCache.full.lookup key = some hit →
    ∃ run ∈ engine.executed, run.status ≠ .earlyStop ∧
      key = serializeNodes run.nodes ∧ hit = run.cached

theorem consistent_new [UBigBytes] (setup : EngineSetup Rng)
    (databaseKey : Option Bytes) (preexisting : List Bytes) (rng : Rng) :
    (Engine.new databaseKey preexisting rng).Consistent setup where
  produced _ hrun := absurd hrun List.not_mem_nil
  stored _ _ hstored := by cases hstored
  smallest _ hrun := absurd hrun List.not_mem_nil
  cached _ _ hhit := by cases hhit

section Recorded

variable [UBigBytes] {setup : EngineSetup Rng} {engine engine' : Engine Rng}
  {run : RunResult}

theorem Records.lowers (hrecords : engine.Records run engine') :
    Lowers engine.interesting engine'.interesting := by
  rw [hrecords.interesting]
  split
  · exact updateInteresting_lowers _ _ _
  · exact .refl _

theorem Records.mem (hrecords : engine.Records run engine')
    {other : RunResult} :
    other ∈ engine'.executed ↔ other ∈ engine.executed ∨ other = run := by
  rw [hrecords.executed, List.mem_append, List.mem_singleton]

/-- An example was there before, or it is the run's. -/
theorem Records.lookup (hrecords : engine.Records run engine')
    {origin : String} {stored : List ChoiceNode}
    (hstored : engine'.interesting.lookup origin = some stored) :
    engine.interesting.lookup origin = some stored ∨
      run.status = .interesting ∧ run.origin.getD "" = origin ∧
        run.nodes = stored := by
  rw [hrecords.interesting] at hstored
  split at hstored
  case isTrue hstatus =>
    rcases lookup_updateInteresting _ _ _ hstored with hbefore | ⟨rfl, rfl⟩
    · exact .inl hbefore
    · exact .inr ⟨hstatus, rfl, rfl⟩
  case isFalse => exact .inl hstored

theorem Consistent.records (hconsistent : engine.Consistent setup)
    (hproduces : setup.Produces run) (hrecords : engine.Records run engine') :
    engine'.Consistent setup := by
  constructor
  · intro other hother
    rcases hrecords.mem.mp hother with hold | rfl
    · exact hconsistent.produced other hold
    · exact hproduces
  · intro origin stored hstored
    rcases hrecords.lookup hstored with hbefore | ⟨hstatus, rfl, hnodes⟩
    · obtain ⟨other, hother, hfails⟩ :=
        hconsistent.stored origin stored hbefore
      exact ⟨other, hrecords.mem.mpr (.inl hother), hfails⟩
    · exact ⟨run, hrecords.mem.mpr (.inr rfl), hproduces.failsWith hstatus,
        hnodes⟩
  · intro other hother origin hfails
    rcases hrecords.mem.mp hother with hold | rfl
    · obtain ⟨stored, hstored, hle⟩ :=
        hconsistent.smallest other hold origin hfails
      obtain ⟨stored', hstored', hle'⟩ :=
        hrecords.lowers origin stored hstored
      exact ⟨stored', hstored', Std.TransCmp.isLE_trans hle' hle⟩
    · have horigin : other.origin.getD "" = origin := by
        rw [hfails.2, Option.getD_some]
      rw [hrecords.interesting, if_pos hfails.1, horigin]
      exact updateInteresting_offered _ _ _
  · intro key hit hhit
    rcases hrecords.cached key hit hhit with hold | hnew
    · obtain ⟨other, hother, hserved⟩ := hconsistent.cached key hit hold
      exact ⟨other, hrecords.mem.mpr (.inl hother), hserved⟩
    · exact ⟨run, hrecords.mem.mpr (.inr rfl), hnew⟩

/-- The random generator is of no consequence. -/
theorem Consistent.reseeded (hconsistent : engine.Consistent setup)
    (rng : Rng) : { engine with rng := rng }.Consistent setup :=
  ⟨hconsistent.produced, hconsistent.stored, hconsistent.smallest,
    hconsistent.cached⟩

/-- What is served is in the cache. -/
theorem served_eq_some {choices : List ChoiceValue}
    (hserved : engine.served choices = some run) :
    ∃ hit, engine.execCache.full.lookup (serializeChoices choices) = some hit ∧
      run = ⟨hit.status, hit.nodes, hit.spans, hit.origin⟩ := by
  rw [Engine.served] at hserved
  split at hserved
  · cases hserved
  · rw [Option.map_eq_some_iff] at hserved
    obtain ⟨hit, hhit, hrun⟩ := hserved
    exact ⟨hit, hhit, hrun.symm⟩

/-- A served run was executed. -/
theorem Consistent.served (hconsistent : engine.Consistent setup)
    {choices : List ChoiceValue} (hserved : engine.served choices = some run) :
    run ∈ engine.executed ∧ run.status ≠ .earlyStop ∧
      serializeChoices choices = serializeNodes run.nodes := by
  obtain ⟨hit, hhit, rfl⟩ := served_eq_some hserved
  obtain ⟨other, hother, hstatus, hkey, rfl⟩ := hconsistent.cached _ _ hhit
  exact ⟨hother, hstatus, hkey⟩

end Recorded

end Engine

section Queries

theorem queryStart_exec (setup : EngineSetup Rng)
    (engine : Engine Rng) (choices : List ChoiceValue)
    (nodes : Option (List ChoiceNode)) (extend : Nat) :
    ∃ rng input budget, (queryStart setup choices nodes extend).exec engine =
      (.ok (.start input budget), { engine with rng := rng }) := by
  rw [queryStart, Program.exec_ofExec]
  split
  · exact ⟨engine.rng, _, _, rfl⟩
  · exact ⟨_, _, _, rfl⟩

variable [UBigBytes] {setup : EngineSetup Rng} {engine : Engine Rng}

/-- At most one run is executed and recorded; the random generator may have
moved. -/
inductive Executes (setup : EngineSetup Rng) (engine : Engine Rng) :
    Option RunResult → Engine Rng → Prop
  | refused (rng : Rng) :
      Executes setup engine none { engine with rng := rng }
  | recorded (rng : Rng) {run : RunResult} (hproduces : setup.Produces run)
      {engine' : Engine Rng}
      (hrecords : { engine with rng := rng }.Records run engine') :
      Executes setup engine (some run) engine'

theorem Executes.consistent {run : Option RunResult} {engine' : Engine Rng}
    (hexecutes : Executes setup engine run engine')
    (hconsistent : engine.Consistent setup) : engine'.Consistent setup := by
  cases hexecutes with
  | refused rng => exact hconsistent.reseeded rng
  | recorded rng hproduces hrecords =>
      exact (hconsistent.reseeded rng).records hproduces hrecords

theorem Executes.lowers {run : Option RunResult} {engine' : Engine Rng}
    (hexecutes : Executes setup engine run engine') :
    Lowers engine.interesting engine'.interesting := by
  cases hexecutes with
  | refused rng => exact .refl _
  | recorded rng hproduces hrecords => exact hrecords.lowers

theorem Executes.mem {run : Option RunResult} {engine' : Engine Rng}
    (hexecutes : Executes setup engine run engine') {other : RunResult} :
    other ∈ engine'.executed ↔ other ∈ engine.executed ∨ run = some other := by
  cases hexecutes with
  | refused rng => simp
  | recorded rng hproduces hrecords =>
      rw [hrecords.mem, Option.some.injEq, eq_comm (a := other)]

/-- A test case is executed and its run recorded, unless the driver is at
fault. -/
theorem testFunction_executes (rng : Rng) (input : StreamInput Rng)
    (budget : Nat) :
    ∃ run, Executes setup engine run
        ((testFunction setup (.start input budget)).after
          { engine with rng := rng }) ∧
      ∀ result mismatch, ((testFunction setup (.start input budget)).exec
        { engine with rng := rng }).1 = .ok (result, mismatch) →
          run = some result := by
  rw [Program.after, testFunction, Program.exec_ofExec]
  cases hexecute : execute setup.sampler setup.body setup.fuel
      (.start input budget) with
  | error error => exact ⟨none, .refused rng, fun _ _ hok => by cases hok⟩
  | ok execution =>
      cases execution with
      | none => exact ⟨none, .refused rng, fun _ _ hok => by cases hok⟩
      | some execution =>
          refine ⟨some execution.run, ?_, ?_⟩
          · apply Executes.recorded rng ⟨input, budget, execution.replies,
              hexecute⟩
            exact Engine.records_recordRun _ execution.run setup.layout
          · intro result mismatch hok
            rw [(Prod.mk.inj (Except.ok.inj hok)).1]

/-- A query is answered with a run that the cache holds or that is executed
now, or it fails. -/
inductive QueryEffect (setup : EngineSetup Rng) (engine : Engine Rng)
    (choices : List ChoiceValue) :
    Except RunError RunResult × Engine Rng → Prop
  | served {run : RunResult} (hserved : engine.served choices = some run) :
      QueryEffect setup engine choices (.ok run, engine)
  | answered {run : RunResult} {engine' : Engine Rng}
      (hexecutes : Executes setup engine (some run) engine') :
      QueryEffect setup engine choices (.ok run, engine')
  | failed (error : RunError) {run : Option RunResult}
      {engine' : Engine Rng} (hexecutes : Executes setup engine run engine') :
      QueryEffect setup engine choices (.error error, engine')

theorem cachedTestFunction_effect (choices : List ChoiceValue)
    (nodes : Option (List ChoiceNode)) (extend : Nat) :
    QueryEffect setup engine choices
      ((cachedTestFunction setup choices nodes extend).exec engine) := by
  rw [cachedTestFunction, Program.exec_bind, Program.exec_get]
  cases hserved : engine.served choices with
  | some hit =>
      simp only [hserved, Program.exec_pure]
      exact .served hserved
  | none =>
      obtain ⟨rng, input, budget, hstart⟩ :=
        queryStart_exec setup engine choices nodes extend
      simp only [hserved, Program.exec_bind, hstart]
      obtain ⟨run, hexecutes, hrun⟩ :=
        @testFunction_executes _ _ setup engine rng input budget
      rw [Program.after] at hexecutes
      cases hexec : (testFunction setup (.start input budget)).exec
          { engine with rng := rng } with
      | mk result engine' =>
          rw [hexec] at hexecutes hrun
          cases result with
          | error error => exact .failed error hexecutes
          | ok answer =>
              obtain ⟨answer, mismatch⟩ := answer
              rw [hrun answer mismatch rfl] at hexecutes
              cases mismatch with
              | some error => exact .failed error hexecutes
              | none => exact .answered hexecutes

end Queries

end Hegel
