/-
Serving a query from the cache instead of executing it.  What the full tier
holds was executed and is small, so its key has only one reading; the query
then has the values that the run recorded, and executing it replays the run.
-/
import Hegel.Blob
import Hegel.DrawCounts
import Hegel.EngineRecords
import Hegel.ValueCode

namespace Hegel

variable {Rng : Type}

section Small

/-- An entry is charged no more than all of them. -/
theorem ExecCache.cost_le_totalCost {layout : Layout} {full : FullTier}
    {key : List UInt8} {entry : CachedRun}
    (hentry : full.lookup key = some entry) :
    entry.cost layout key.length ≤ totalCost layout full := by
  rw [← totalCost_erase hentry]
  exact Nat.le_add_left _ _

/-- Keys are charged for, so those of the full tier are short. -/
theorem ExecCache.Consistent.length_key {layout : Layout} {cache : ExecCache}
    (hcache : cache.Consistent layout) {key : List UInt8} {entry : CachedRun}
    (hentry : cache.full.lookup key = some entry) :
    key.length ≤ cache.bound := by
  have hcost : entry.cost layout key.length ≤ cache.fullBytes := by
    rw [hcache.tracked.bytes_eq]
    exact cost_le_totalCost hentry
  have hkey : key.length ≤ entry.cost layout key.length := by
    rw [CachedRun.cost, Nat.add_assoc, Nat.add_assoc]
    exact Nat.le_add_right _ _
  exact (hkey.trans hcost).trans hcache.bytes_le

variable [UBigBytes]

theorem keys_of_length_lt {values : List ChoiceValue}
    (hcoherent : RefsCoherent (valueRefs values))
    (hlength : (serializeChoices values).length < 2 ^ 32) : Keys values := by
  obtain ⟨hcount, hshort⟩ := serialized_short hlength
  exact keys_of_short hcount hshort hcoherent

end Small

section Replayed

variable {sampler : Sampler Rng} {body : Body} {fuel : Nat}
  {input : StreamInput Rng} {budget : Nat} {execution : Execution}

/-- What was executed caches right lengths. -/
theorem nodesCoherent_of_execute
    (hrun : execute sampler body fuel (.start input budget) =
      .ok (some execution)) : NodesCoherent execution.run.nodes := by
  obtain ⟨finished, hfinished, -, htake⟩ := execute_eq_some hrun
  have hreaches := Interaction.reaches_of_run hfinished
  obtain ⟨root, hroot, hnodes, -⟩ := takeRun_root hreaches htake
  rw [hnodes]
  exact TestCaseFamily.nodesCoherent_realized hreaches
    (List.mem_of_getElem? hroot)

/-- A run that is not reported to have overrun did not. -/
theorem not_overran_of_takeRun {final : TestCaseFamily Rng}
    {outcome : Outcome} {run : RunResult}
    (htake : takeRun (final.markComplete outcome) = some run)
    (hstatus : run.status ≠ .earlyStop) : ¬final.Overran :=
  fun ⟨_, hoverran⟩ => hstatus (status_of_takeRun htake hoverran)

/-- Values weigh what the nodes weigh that read alike. -/
theorem flattenedValuesLen_eq_of_refs {choices : List ChoiceValue}
    {nodes : List ChoiceNode} (hnodes : NodesCoherent nodes)
    (hvalues : valueRefs choices = nodeRefs nodes) :
    flattenedValuesLen choices = flattenedLen nodes := by
  obtain ⟨hcoherent, hcount⟩ := nodeRefs_coherent hnodes
  rw [← hvalues] at hcoherent hcount
  rw [hcount, flattenedValuesLen_eq hcoherent]

/-- Room for one more draw than a run recorded replays the run, although the
case could draw more. -/
theorem forProbe_replays {choices : List ChoiceValue} {extend : Nat}
    (hrun : execute sampler body fuel (.start input budget) =
      .ok (some execution))
    (hdepth : Interaction.Along (step sampler) WithinCloneDepth body fuel []
      (.start input budget))
    (hvalues : valueRefs choices = nodeRefs execution.run.nodes)
    (hstatus : execution.run.status ≠ .earlyStop) (hextend : extend ≠ 0)
    (rng : Rng) :
    execute sampler body fuel
        (forProbe choices rng (flattenedValuesLen choices + extend)) =
      .ok (some execution) := by
  apply execute_mirrors hrun (.inl hdepth)
  intro finished hfinished htake
  have hran := not_overran_of_takeRun htake hstatus
  have hreaches := Interaction.reaches_of_run hfinished
  obtain ⟨root, hroot, hnodes, -⟩ := takeRun_root hreaches htake
  have hdraws := TestCaseFamily.totalDraws_le hreaches hran
  have hrecorded : flattenedValuesLen choices = finished.state.totalNodes := by
    rw [flattenedValuesLen_eq_of_refs (nodesCoherent_of_execute hrun) hvalues,
      hnodes, TestCaseFamily.flattenedLen_realized hreaches hroot]
  have husize : finished.state.family.totalDraws ≤ usizeMax := by
    have hwithin := (TestCaseFamily.ordered_of_reaches hreaches).within
    have hbudget := (TestCaseFamily.grows_of_reaches hreaches).budget
    rw [family_start] at hbudget
    rw [hbudget] at hwithin
    exact (hwithin.resolve_right hran).trans (Nat.min_le_right _ _)
  refine start_mirrors hfinished htake rfl hvalues ?_ (.inr hran) (.inr ?_)
  · exact (Nat.min_le_left _ _).trans (Nat.le_max_right _ _)
  · apply le_min _ husize
    apply le_trans _ (Nat.le_max_left _ _)
    omega

end Replayed

section Caching

variable [UBigBytes] {setup : EngineSetup Rng} {engine : Engine Rng}

/-- The full tier holds runs of the body under test, in small entries. -/
structure ExecCache.HoldsRuns (setup : EngineSetup Rng) (cache : ExecCache) :
    Prop where
  consistent : cache.Consistent setup.layout
  bounded : cache.bound = fullTierMaxBytes
  produced : ∀ key hit, cache.full.lookup key = some hit →
    ∃ run, setup.Produces run ∧ run.status ≠ .earlyStop ∧
      key = serializeNodes run.nodes ∧ hit = run.cached

theorem ExecCache.holdsRuns_new (setup : EngineSetup Rng) :
    (ExecCache.withFullTierBound none).HoldsRuns setup where
  consistent := consistent_withFullTierBound none
  bounded := rfl
  produced _ _ hhit := by cases hhit

theorem ExecCache.HoldsRuns.clear {cache : ExecCache}
    (hcache : cache.HoldsRuns setup) : cache.clear.HoldsRuns setup where
  consistent := consistent_clear cache
  bounded := hcache.bounded
  produced _ _ hhit := by cases hhit

theorem ExecCache.HoldsRuns.record {cache : ExecCache}
    (hcache : cache.HoldsRuns setup) {run : RunResult}
    (hproduces : setup.Produces run) (hstatus : run.status ≠ .earlyStop)
    (keepFull : Bool) :
    (cache.record setup.layout (serializeNodes run.nodes) run.status run.origin
      run.nodes run.spans keepFull).1.HoldsRuns setup where
  consistent := hcache.consistent.record _ _ _ _ _ _
  bounded := (bound_apply cache (.record _ _ _ _ _ _)).trans hcache.bounded
  produced key hit hhit := by
    rcases lookup_record hhit with hold | ⟨hkey, hentry⟩
    · exact hcache.produced key hit hold
    · exact ⟨run, hproduces, hstatus, hkey, hentry⟩

/-- Entering a run keeps what the cache holds. -/
theorem Engine.holdsRuns_recordExecution
    (hengine : engine.execCache.HoldsRuns setup) {run : RunResult}
    (hproduces : setup.Produces run) :
    (engine.recordExecution setup.layout run).2.execCache.HoldsRuns setup := by
  rw [recordExecution]
  cases engine.kindLedger.observe run.nodes with
  | mk kindLedger mismatch =>
      cases mismatch with
      | some mismatch => exact hengine
      | none =>
          dsimp only
          split
          case isTrue => exact hengine
          case isFalse hstatus => exact hengine.record hproduces hstatus _

theorem Engine.holdsRuns_recordRun
    (hengine : engine.execCache.HoldsRuns setup) {run : RunResult}
    (hproduces : setup.Produces run) :
    (engine.recordRun setup.layout run).2.execCache.HoldsRuns setup := by
  have hentered : (if engine.nondeterministic then (none, engine)
      else engine.recordExecution setup.layout run).2.execCache.HoldsRuns
        setup := by
    split
    · exact hengine
    · exact holdsRuns_recordExecution hengine hproduces
  rw [recordRun]
  generalize (if engine.nondeterministic then (none, engine)
    else engine.recordExecution setup.layout run) = recorded at hentered
  obtain ⟨mismatch, entered⟩ := recorded
  dsimp only at hentered ⊢
  rw [(recordStatus_spec _ run).2.2]
  exact hentered

theorem holdsRuns_testFunction (hengine : engine.execCache.HoldsRuns setup)
    (input : StreamInput Rng) (budget : Nat) :
    ((testFunction setup (.start input budget)).after
      engine).execCache.HoldsRuns setup := by
  rw [Program.after, testFunction, Program.exec_ofExec]
  cases hexecute : execute setup.sampler setup.body setup.fuel
      (.start input budget) with
  | error error => exact hengine
  | ok execution =>
      cases execution with
      | none => exact hengine
      | some execution =>
          exact Engine.holdsRuns_recordRun hengine
            ⟨input, budget, execution.replies, hexecute⟩

end Caching

section Queries

variable [UBigBytes] {setup : EngineSetup Rng} {engine : Engine Rng}

theorem holdsRuns_cachedTestFunction
    (hengine : engine.execCache.HoldsRuns setup) (choices : List ChoiceValue)
    (nodes : Option (List ChoiceNode)) (extend : Nat) :
    ((cachedTestFunction setup choices nodes extend).after
      engine).execCache.HoldsRuns setup := by
  rw [Program.after, cachedTestFunction, Program.exec_bind, Program.exec_get]
  cases hserved : engine.served choices with
  | some hit =>
      simp only [hserved, Program.exec_pure]
      exact hengine
  | none =>
      obtain ⟨rng, input, budget, hstart⟩ :=
        queryStart_exec setup engine choices nodes extend
      simp only [hserved, Program.exec_bind, hstart]
      have htested : ((testFunction setup (.start input budget)).after
          { engine with rng := rng }).execCache.HoldsRuns setup :=
        @holdsRuns_testFunction _ _ _ { engine with rng := rng } hengine input
          budget
      rw [Program.after] at htested
      generalize (testFunction setup (.start input budget)).exec
        { engine with rng := rng } = answer at htested
      obtain ⟨result, engine'⟩ := answer
      cases result with
      | error error => exact htested
      | ok answer =>
          obtain ⟨run, mismatch⟩ := answer
          cases mismatch with
          | some error => exact htested
          | none => exact htested

/-- An answer comes from the cache, or the query is executed. -/
theorem cachedTestFunction_ok {choices : List ChoiceValue}
    {nodes : Option (List ChoiceNode)} {extend : Nat} {run : RunResult}
    {engine' : Engine Rng}
    (hanswer : (cachedTestFunction setup choices nodes extend).exec engine =
      (.ok run, engine')) :
    engine.served choices = some run ∨
      ∃ start replies,
        ((queryStart setup choices nodes extend).exec engine).1 = .ok start ∧
          execute setup.sampler setup.body setup.fuel start =
            .ok (some ⟨replies, run⟩) := by
  rw [cachedTestFunction, Program.exec_bind, Program.exec_get] at hanswer
  cases hserved : engine.served choices with
  | some hit =>
      simp only [hserved, Program.exec_pure] at hanswer
      cases hanswer
      exact .inl rfl
  | none =>
      obtain ⟨rng, input, budget, hstart⟩ :=
        queryStart_exec setup engine choices nodes extend
      simp only [hserved, Program.exec_bind, hstart] at hanswer
      refine .inr ⟨.start input budget, ?_⟩
      rw [hstart]
      rw [testFunction, Program.exec_ofExec] at hanswer
      cases hexecute : execute setup.sampler setup.body setup.fuel
          (.start input budget) with
      | error error =>
          simp only [hexecute] at hanswer
          cases hanswer
      | ok execution =>
          cases execution with
          | none =>
              simp only [hexecute] at hanswer
              cases hanswer
          | some execution =>
              simp only [hexecute] at hanswer
              generalize Engine.recordRun setup.layout _ execution.run =
                recorded at hanswer
              obtain ⟨mismatch, recorded⟩ := recorded
              cases mismatch with
              | some error => cases hanswer
              | none =>
                  cases hanswer
                  exact ⟨execution.replies, rfl, rfl⟩

/-- The body under test never nests clones too deeply. -/
def EngineSetup.WithinDepth (setup : EngineSetup Rng) : Prop :=
  ∀ input budget, Interaction.Along (step setup.sampler) WithinCloneDepth
    setup.body setup.fuel [] (.start input budget)

/-- The query of a served answer has the values that the run recorded. -/
theorem ExecCache.HoldsRuns.served (hengine : engine.execCache.HoldsRuns setup)
    {choices : List ChoiceValue} (hbuilt : ValuesBuilt choices)
    {run : RunResult} (hserved : engine.served choices = some run) :
    setup.Produces run ∧ run.status ≠ .earlyStop ∧
      valueRefs choices = nodeRefs run.nodes := by
  rw [Engine.served] at hserved
  split at hserved
  case isTrue => cases hserved
  case isFalse =>
    rw [Option.map_eq_some_iff] at hserved
    obtain ⟨hit, hhit, rfl⟩ := hserved
    obtain ⟨run, hproduces, hstatus, hkey, rfl⟩ := hengine.produced _ _ hhit
    refine ⟨hproduces, hstatus, ?_⟩
    have hsmall : (serializeChoices choices).length < 2 ^ 32 := by
      have hbound := hengine.consistent.length_key hhit
      rw [hengine.bounded] at hbound
      exact Nat.lt_of_le_of_lt hbound (by decide)
    have hnodes : serializeNodes run.nodes =
        serializeChoices (run.nodes.map ChoiceNode.value) := by
      simp [serializeNodes, serializeChoices, Function.comp_def]
    obtain ⟨input, budget, replies, hexecute⟩ := hproduces
    have hcoherent : RefsCoherent
        (valueRefs (run.nodes.map ChoiceNode.value)) := by
      rw [valueRefs_map_value]
      exact (nodeRefs_coherent (nodesCoherent_of_execute hexecute)).1
    have hleft := keys_of_length_lt (valueRefs_coherent hbuilt) hsmall
    have hright : Keys (run.nodes.map ChoiceNode.value) := by
      apply keys_of_length_lt hcoherent
      rw [← hnodes, ← hkey]
      exact hsmall
    rw [hnodes, serializeChoices_eq_iff hleft hright, sameValues_iff,
      valueRefs_map_value] at hkey
    exact hkey

/-- A served answer is what executing its query gives. -/
theorem ExecCache.HoldsRuns.executes
    (hengine : engine.execCache.HoldsRuns setup) (hdepth : setup.WithinDepth)
    {choices : List ChoiceValue} (hbuilt : ValuesBuilt choices)
    {run : RunResult} (hserved : engine.served choices = some run)
    (nodes : Option (List ChoiceNode)) (extend : Nat) :
    ∃ start replies,
      ((queryStart setup choices nodes extend).exec engine).1 = .ok start ∧
        execute setup.sampler setup.body setup.fuel start =
          .ok (some ⟨replies, run⟩) := by
  obtain ⟨⟨input, budget, replies, hexecute⟩, hstatus, hvalues⟩ :=
    hengine.served hbuilt hserved
  rw [queryStart, Program.exec_ofExec]
  split
  case isTrue =>
    refine ⟨_, replies, rfl, ?_⟩
    apply execute_mirrors hexecute (.inl (hdepth input budget))
    intro finished hfinished htake
    exact forChoices_mirrors hfinished htake hvalues nodes
  case isFalse hextend =>
    exact ⟨_, replies, rfl, forProbe_replays hexecute (hdepth input budget)
      hvalues hstatus hextend _⟩

/-- What happens between queries: a test case is executed; a query is
answered; or anything else changes and the cache is kept or cleared. -/
inductive CacheStep (setup : EngineSetup Rng) :
    Engine Rng → Engine Rng → Prop
  | tested {engine : Engine Rng} (input : StreamInput Rng) (budget : Nat) :
      CacheStep setup engine
        ((testFunction setup (.start input budget)).after engine)
  | queried {engine : Engine Rng} (choices : List ChoiceValue)
      (nodes : Option (List ChoiceNode)) (extend : Nat) :
      CacheStep setup engine
        ((cachedTestFunction setup choices nodes extend).after engine)
  | adjusted {engine engine' : Engine Rng}
      (hcache : engine'.execCache = engine.execCache ∨
        engine'.execCache = engine.execCache.clear) :
      CacheStep setup engine engine'

theorem CacheStep.holdsRuns {engine' : Engine Rng}
    (hstep : CacheStep setup engine engine')
    (hengine : engine.execCache.HoldsRuns setup) :
    engine'.execCache.HoldsRuns setup := by
  cases hstep with
  | tested input budget => exact holdsRuns_testFunction hengine input budget
  | queried choices nodes extend =>
      exact holdsRuns_cachedTestFunction hengine choices nodes extend
  | adjusted hcache =>
      rcases hcache with hkept | hcleared
      · rw [hkept]
        exact hengine
      · rw [hcleared]
        exact hengine.clear

theorem holdsRuns_of_history {databaseKey : Option Bytes}
    {preexisting : List Bytes} {rng : Rng}
    (hhistory : Relation.ReflTransGen (CacheStep setup)
      (.new databaseKey preexisting rng) engine) :
    engine.execCache.HoldsRuns setup := by
  induction hhistory with
  | refl => exact ExecCache.holdsRuns_new setup
  | tail _ hlast ih => exact hlast.holdsRuns ih

/-- After any history, what a query is answered with is what executing it
gives, however long the body may run. -/
theorem cachedTestFunction_executes (setup : EngineSetup Rng)
    (hdepth : setup.WithinDepth) {databaseKey : Option Bytes}
    {preexisting : List Bytes} {rng : Rng} {engine : Engine Rng}
    (hhistory : Relation.ReflTransGen (CacheStep setup)
      (.new databaseKey preexisting rng) engine)
    {choices : List ChoiceValue} (hbuilt : ValuesBuilt choices)
    (nodes : Option (List ChoiceNode)) (extend : Nat) {run : RunResult}
    {engine' : Engine Rng}
    (hanswer : (cachedTestFunction setup choices nodes extend).exec engine =
      (.ok run, engine')) :
    ∃ start replies,
      ((queryStart setup choices nodes extend).exec engine).1 = .ok start ∧
        ∀ fuel, setup.fuel ≤ fuel →
          execute setup.sampler setup.body fuel start =
            .ok (some ⟨replies, run⟩) := by
  have hexecutes : ∃ start replies,
      ((queryStart setup choices nodes extend).exec engine).1 = .ok start ∧
        execute setup.sampler setup.body setup.fuel start =
          .ok (some ⟨replies, run⟩) := by
    rcases cachedTestFunction_ok hanswer with hserved | hexecuted
    · exact (holdsRuns_of_history hhistory).executes hdepth hbuilt hserved
        nodes extend
    · exact hexecuted
  obtain ⟨start, replies, hstart, hexecute⟩ := hexecutes
  exact ⟨start, replies, hstart, fun fuel hfuel =>
    execute_mono hfuel hexecute⟩

end Queries

section Sample

/-- The body that clones, with entries charged one byte for each node. -/
def cloningSetup : EngineSetup Unit :=
  ⟨⟨1, 1, 1⟩, .simplest, cloningBody, 6⟩

/-- An engine that executed the body once. -/
def cloningEngine : Engine Unit :=
  letI := UBigBytes.digits
  (testFunction cloningSetup (.start ⟨[.integer 7], none, none, 8,
    some ⟨.simplest, none⟩⟩ 8)).after (.new none [] ())

/-- What it recorded, with a clone of bare values. -/
def cloningChoices : List ChoiceValue :=
  [.integer 1, .clone (.fromValues [.integer 0]), .boolean true]

/-- The query is served, although it might draw three more choices, and
executing it gives the same. -/
theorem cachedTestFunction_executes_sample :
    (@Engine.served _ .digits cloningEngine cloningChoices).isSome = true ∧
      ∃ run engine',
        (@cachedTestFunction _ .digits cloningSetup cloningChoices none 3).exec
            cloningEngine = (.ok run, engine') ∧
          ∃ start replies,
            ((queryStart cloningSetup cloningChoices none 3).exec
                cloningEngine).1 = .ok start ∧
              ∀ fuel, 6 ≤ fuel →
                execute Sampler.simplest cloningBody fuel start =
                  .ok (some ⟨replies, run⟩) := by
  have hserved : (@Engine.served _ .digits cloningEngine
      cloningChoices).isSome = true := by decide +kernel
  have hdepth : cloningSetup.WithinDepth := by
    intro input budget
    apply @along_withinCloneDepth _ _ cloningBody 6 0 (by decide)
    intro stream hstream
    rw [List.mem_singleton.mp hstream]
    exact le_refl _
  have hbuilt : ValuesBuilt cloningChoices :=
    ⟨trivial, CloneRecord.fromValues_built ⟨trivial, trivial⟩, trivial,
      trivial⟩
  have htested : @CacheStep _ .digits cloningSetup (.new none [] ())
      cloningEngine := @CacheStep.tested _ .digits _ _ _ _
  have hanswered : ((@cachedTestFunction _ .digits cloningSetup cloningChoices
      none 3).exec cloningEngine).1.isOk = true := by decide +kernel
  obtain ⟨⟨result, engine'⟩, hanswer⟩ :
      ∃ answer, (@cachedTestFunction _ .digits cloningSetup cloningChoices
        none 3).exec cloningEngine = answer := ⟨_, rfl⟩
  rw [hanswer] at hanswered
  cases result with
  | error error => cases hanswered
  | ok run =>
      exact ⟨hserved, run, engine', hanswer, @cachedTestFunction_executes _ .digits
        cloningSetup hdepth _ _ _ _ (.single htested) _ hbuilt none 3 _
        _ hanswer⟩

end Sample

end Hegel
