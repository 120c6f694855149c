/-
Runs of the engine.  A run explores and shrinks one origin after another; when
a shrink stops its target is written back over whatever is stored.  Nothing is
lost when the target is no larger than any failure that the shrinker did not
compare with it.
-/
import Hegel.EngineShrinks
import Hegel.ShrinkSoundness

namespace Hegel

variable {Rng : Type}

/-- A moment of an engine's run: between executions, or inside the shrink of an
origin. -/
inductive EngineRun (Rng : Type) where
  | exploring (engine : Engine Rng) (ticks : Nat) (shrunkOrigins : List String)
  | shrinking (origin : String) (state : ShrinkState (EngineWorld Rng))
      (shrunkOrigins : List String)

def EngineRun.engine : EngineRun Rng → Engine Rng
  | exploring engine _ _ => engine
  | shrinking _ state _ => state.world.engine

/-- The run before anything was executed. -/
def EngineRun.start (databaseKey : Option Bytes) (preexisting : List Bytes)
    (rng : Rng) : EngineRun Rng :=
  .exploring (.new databaseKey preexisting rng) 0 []

section Runs

variable [UBigBytes] (setup : EngineSetup Rng) (clock : Nat → Option Nat)

/-- One step of a run: a test case is executed or a query is answered; a shrink
begins by executing the stored example once more; the shrinker performs an
operation; or it stops, wherever it is, and its target is written back if the
write is allowed. -/
inductive EngineStep (allowed : ShrinkState (EngineWorld Rng) → Prop) :
    EngineRun Rng → EngineRun Rng → Prop
  | tested {engine ticks shrunkOrigins} (input : StreamInput Rng)
      (budget : Nat) :
      EngineStep allowed (.exploring engine ticks shrunkOrigins)
        (.exploring ((testFunction setup (.start input budget)).after engine)
          ticks shrunkOrigins)
  | replayed {engine ticks shrunkOrigins} (choices : List ChoiceValue)
      (nodes : Option (List ChoiceNode)) (extend : Nat) :
      EngineStep allowed (.exploring engine ticks shrunkOrigins)
        (.exploring
          ((cachedTestFunction setup choices nodes extend).after engine)
          ticks shrunkOrigins)
  | began {engine engine' ticks shrunkOrigins origin initial verify}
      (deadline : Option Nat)
      (hsteady : engine.nondeterministic = false)
      (hpending : origin ∉ shrunkOrigins)
      (hinitial : engine.interesting.lookup origin = some initial)
      (hverify : (testFunction setup (forChoices
          (initial.map ChoiceNode.value) (some initial))).exec engine =
        (.ok (verify, none), engine'))
      (hfails : verify.FailsWith origin) :
      EngineStep allowed (.exploring engine ticks shrunkOrigins)
        (.shrinking origin
          (.start verify.nodes verify.spans deadline ⟨engine', ticks, none⟩)
          shrunkOrigins)
  | shrank {origin state state' shrunkOrigins}
      (hmove : ShrinkMove (engineShrinkProbe setup clock origin) state
        state') :
      EngineStep allowed (.shrinking origin state shrunkOrigins)
        (.shrinking origin state' shrunkOrigins)
  | wroteBack {origin state shrunkOrigins}
      (hfailed : state.world.failed = none) (hallowed : allowed state) :
      EngineStep allowed (.shrinking origin state shrunkOrigins)
        (.exploring
          { state.world.engine with
            interesting :=
              state.world.engine.interesting.insert origin state.currentNodes }
          state.world.ticks (origin :: shrunkOrigins))

/-- Any number of steps in any order. -/
abbrev EngineReaches (allowed : ShrinkState (EngineWorld Rng) → Prop) :
    EngineRun Rng → EngineRun Rng → Prop :=
  Relation.ReflTransGen (EngineStep setup clock allowed)

omit [UBigBytes] in
theorem mem_report {engine : Engine Rng} {origin : String}
    {nodes : List ChoiceNode} :
    (origin, nodes) ∈ engine.report true ↔
      engine.interesting.lookup origin = some nodes := by
  rw [Engine.report]
  simp only [if_true, List.mem_mergeSort, List.mem_map, Prod.mk.injEq]
  constructor
  · rintro ⟨entry, hentry, rfl, rfl⟩
    exact AList.mem_lookup_iff.mpr hentry
  · intro hstored
    exact ⟨⟨origin, nodes⟩, AList.mem_lookup_iff.mp hstored, rfl, rfl⟩

omit [UBigBytes] in
/-- What is reported is stored. -/
theorem lookup_of_mem_report {engine : Engine Rng}
    {reportMultipleFailures : Bool} {origin : String} {nodes : List ChoiceNode}
    (hreported : (origin, nodes) ∈ engine.report reportMultipleFailures) :
    engine.interesting.lookup origin = some nodes := by
  cases reportMultipleFailures with
  | true => exact mem_report.mp hreported
  | false =>
      apply mem_report.mp
      rw [Engine.report] at hreported ⊢
      simp only [Bool.false_eq_true, if_false, Option.mem_toList] at hreported
      simp only [if_true]
      exact List.mem_of_getLast? hreported

/-- What holds at every moment of a run whose writes are lossless. -/
def EngineRun.Sound : EngineRun Rng → Prop
  | exploring engine _ _ => engine.Consistent setup
  | shrinking origin state _ =>
      ∃ first, Shrinks setup clock origin first state

variable {setup : EngineSetup Rng} {clock : Nat → Option Nat}
  {run run' : EngineRun Rng}

theorem EngineRun.Sound.consistent (hsound : run.Sound setup clock) :
    run.engine.Consistent setup := by
  cases run with
  | exploring engine ticks shrunkOrigins => exact hsound
  | shrinking origin state shrunkOrigins =>
      obtain ⟨first, hshrinks⟩ := hsound
      exact hshrinks.consistent

/-- Executing a stored example once more gives the run it is from. -/
theorem verify_spec {engine engine' : Engine Rng} {origin : String}
    {initial : List ChoiceNode} {verify : RunResult}
    (hconsistent : engine.Consistent setup)
    (hinitial : engine.interesting.lookup origin = some initial)
    (hverify : (testFunction setup (forChoices
        (initial.map ChoiceNode.value) (some initial))).exec engine =
      (.ok (verify, none), engine')) :
    verify ∈ engine.executed ∧ verify.nodes = initial ∧
      engine.Records verify engine' := by
  obtain ⟨run, hrun, hfails, rfl⟩ := hconsistent.stored origin initial hinitial
  obtain ⟨input, budget, replies, hexecute⟩ := hconsistent.produced run hrun
  have hstatus : run.status ≠ .invalid := by
    rw [hfails.1]
    decide
  have hreplay := replay_of_not_invalid (some run.nodes) hexecute hstatus
  rw [testFunction, Program.exec_ofExec, hreplay] at hverify
  simp only [Prod.mk.injEq, Except.ok.injEq] at hverify
  obtain ⟨⟨rfl, -⟩, rfl⟩ := hverify
  exact ⟨hrun, rfl, engine.records_recordRun run setup.layout⟩

/-- A shrink begins with everything compared. -/
theorem shrinks_start {engine engine' : Engine Rng} {origin : String}
    {initial : List ChoiceNode} {verify : RunResult}
    (hconsistent : engine.Consistent setup)
    (hinitial : engine.interesting.lookup origin = some initial)
    (hverify : (testFunction setup (forChoices
        (initial.map ChoiceNode.value) (some initial))).exec engine =
      (.ok (verify, none), engine'))
    (hfails : verify.FailsWith origin) (deadline : Option Nat) (ticks : Nat) :
    Shrinks setup clock origin verify
      (.start verify.nodes verify.spans deadline ⟨engine', ticks, none⟩) := by
  obtain ⟨hmem, hnodes, hrecords⟩ :=
    verify_spec hconsistent hinitial hverify
  constructor
  · exact hconsistent.records (hconsistent.produced verify hmem) hrecords
  · exact sound_start _ _ _ _
  · exact ⟨hrecords.mem.mpr (.inr rfl), hfails⟩
  · exact fun event hevent => absurd hevent List.not_mem_nil
  · intro _ run hrun hrunFails
    refine .inl ?_
    rcases hrecords.mem.mp hrun with hold | rfl
    · obtain ⟨stored, hstored, hle⟩ :=
        hconsistent.smallest run hold origin hrunFails
      rw [hinitial, Option.some.injEq] at hstored
      rw [hnodes, hstored]
      exact hle
    · exact Std.ReflCmp.isLE_rfl

/-- A lossless write keeps the engine consistent. -/
theorem Shrinks.wroteBack {origin : String} {first : RunResult}
    {state : ShrinkState (EngineWorld Rng)}
    (hshrinks : Shrinks setup clock origin first state)
    (hlowers : Lowers state.world.engine.interesting
      (state.world.engine.interesting.insert origin state.currentNodes)) :
    { state.world.engine with
      interesting := state.world.engine.interesting.insert origin
        state.currentNodes }.Consistent setup := by
  obtain ⟨hproduced, hstored, hsmallest, hcached⟩ := hshrinks.consistent
  refine ⟨hproduced, ?_, ?_, hcached⟩
  · intro other stored hlookup
    dsimp only at hlookup
    by_cases hother : other = origin
    · subst hother
      rw [AList.lookup_insert, Option.some.injEq] at hlookup
      subst hlookup
      exact hshrinks.target
    · rw [AList.lookup_insert_ne hother] at hlookup
      exact hstored other stored hlookup
  · intro run hrun other hfails
    obtain ⟨stored, hlookup, hle⟩ := hsmallest run hrun other hfails
    obtain ⟨stored', hlookup', hle'⟩ := hlowers other stored hlookup
    exact ⟨stored', hlookup', Std.TransCmp.isLE_trans hle' hle⟩

/-- One step of a run whose writes are lossless. -/
theorem EngineRun.Sound.step (hsound : run.Sound setup clock)
    (hstep : EngineStep setup clock ShrinkState.Lossless run run') :
    run'.Sound setup clock ∧
      Lowers run.engine.interesting run'.engine.interesting := by
  cases hstep with
  | @tested engine ticks shrunkOrigins input budget =>
      obtain ⟨ran, hexecutes, -⟩ :=
        @testFunction_executes _ _ setup engine engine.rng input budget
      exact ⟨hexecutes.consistent hsound, hexecutes.lowers⟩
  | @replayed engine ticks shrunkOrigins choices nodes extend =>
      have heffect := @cachedTestFunction_effect _ _ setup engine choices nodes
        extend
      rw [EngineRun.Sound, EngineRun.engine, EngineRun.engine, Program.after]
      generalize (cachedTestFunction setup choices nodes extend).exec engine =
        reached at heffect
      cases heffect with
      | served hserved => exact ⟨hsound, .refl _⟩
      | answered hexecutes =>
          exact ⟨hexecutes.consistent hsound, hexecutes.lowers⟩
      | failed error hexecutes =>
          exact ⟨hexecutes.consistent hsound, hexecutes.lowers⟩
  | began deadline hsteady hpending hinitial hverify hfails =>
      obtain ⟨-, -, hrecords⟩ := verify_spec hsound hinitial hverify
      exact ⟨⟨_, shrinks_start hsound hinitial hverify hfails _ _⟩,
        hrecords.lowers⟩
  | shrank hmove =>
      obtain ⟨first, hshrinks⟩ := hsound
      obtain ⟨hshrinks', hlowers⟩ := hshrinks.step hmove
      exact ⟨⟨first, hshrinks'⟩, hlowers⟩
  | wroteBack hfailed hlossless =>
      obtain ⟨first, hshrinks⟩ := hsound
      have hlowers := (hshrinks.lowers_iff hfailed).mpr hlossless
      exact ⟨hshrinks.wroteBack hlowers, hlowers⟩

/-- A whole run whose writes are lossless. -/
theorem EngineRun.Sound.reaches (hsound : run.Sound setup clock)
    (hreaches : EngineReaches setup clock ShrinkState.Lossless run run') :
    run'.Sound setup clock ∧
      Lowers run.engine.interesting run'.engine.interesting := by
  induction hreaches with
  | refl => exact ⟨hsound, .refl _⟩
  | tail _ hlast ih =>
      obtain ⟨hsound', hlowers⟩ := ih
      obtain ⟨hsound'', hlowers'⟩ := hsound'.step hlast
      exact ⟨hsound'', hlowers.trans hlowers'⟩

/-- A shrink goes on as its passes do. -/
theorem shrinking_reaches (allowed : ShrinkState (EngineWorld Rng) → Prop)
    {origin : String} {state state' : ShrinkState (EngineWorld Rng)}
    (hreaches : ShrinkReaches (engineShrinkProbe setup clock origin) state
      state') (shrunkOrigins : List String) :
    EngineReaches setup clock allowed (.shrinking origin state shrunkOrigins)
      (.shrinking origin state' shrunkOrigins) := by
  induction hreaches with
  | refl => exact .refl
  | tail _ hlast ih => exact ih.tail (.shrank hlast)

/-- In a run that writes back only targets no larger than the failures passed
by, the stored examples never grow and what is reported for an origin is no
larger than any failure of it that was executed; and as long as a shrink can be
written back, these are the only targets whose write does not let an example
grow. -/
theorem engine_monotone (setup : EngineSetup Rng) (clock : Nat → Option Nat)
    (databaseKey : Option Bytes) (preexisting : List Bytes) (rng : Rng)
    (run : EngineRun Rng)
    (hreaches : EngineReaches setup clock ShrinkState.Lossless
      (.start databaseKey preexisting rng) run) :
    (∀ later, EngineReaches setup clock ShrinkState.Lossless run later →
      Lowers run.engine.interesting later.engine.interesting) ∧
    (∀ reportMultipleFailures origin nodes,
      (origin, nodes) ∈ run.engine.report reportMultipleFailures →
        ∀ executed ∈ run.engine.executed, executed.FailsWith origin →
          (nodesSortKeyCmp nodes executed.nodes).isLE) ∧
    ∀ origin state shrunkOrigins,
      run = .shrinking origin state shrunkOrigins →
        state.world.failed = none →
          (Lowers state.world.engine.interesting
            (state.world.engine.interesting.insert origin
              state.currentNodes) ↔ state.Lossless) := by
  have hstart : (EngineRun.start databaseKey preexisting rng).Sound setup
      clock := Engine.consistent_new setup databaseKey preexisting rng
  have hsound := (hstart.reaches hreaches).1
  refine ⟨?_, ?_, ?_⟩
  · intro later hlater
    exact (hsound.reaches hlater).2
  · intro reportMultipleFailures origin nodes hreported executed hexecuted
      hfails
    obtain ⟨stored, hstored, hle⟩ :=
      hsound.consistent.smallest executed hexecuted origin hfails
    rw [lookup_of_mem_report hreported, Option.some.injEq] at hstored
    rw [hstored]
    exact hle
  · rintro origin state shrunkOrigins rfl hfailed
    obtain ⟨first, hshrinks⟩ := hsound
    exact hshrinks.lowers_iff hfailed

end Runs

section Overwriting

local instance referenceBytes : UBigBytes := UBigBytes.digits

/-- A body that fails on every integer it draws. -/
def failingBody : Body
  | [] => .request ⟨0, .draw (.integer 0 10)⟩
  | _ => .stop (.interesting, some "failure")

def failingSetup : EngineSetup Unit :=
  ⟨⟨1, 1, 1⟩, Sampler.simplest, failingBody, 2⟩

/-- The body has failed on 5. -/
def failingEngine : Engine Unit :=
  (testFunction failingSetup (forChoices [.integer 5] none)).after
    (.new none [] ())

/-- The stored example is executed once more. -/
def failingVerify : Except RunError (RunResult × Option RunError) ×
    Engine Unit :=
  let initial := (failingEngine.interesting.lookup "failure").getD []
  (testFunction failingSetup
    (forChoices (initial.map ChoiceNode.value) (some initial))).exec
      failingEngine

/-- The shrink of the example begins; it has to stop at time 1. -/
def failingStart : ShrinkState (EngineWorld Unit) :=
  match failingVerify with
  | (.ok (verify, _), engine) =>
      .start verify.nodes verify.spans (some 1) ⟨engine, 0, none⟩
  | (.error _, engine) => .start [] [] (some 1) ⟨engine, 0, none⟩

/-- The shrink after its first pass, which looked at what 0 does. -/
def failingState : ShrinkState (EngineWorld Unit) :=
  (reduceEachAlternative (engineShrinkProbe failingSetup some "failure")
    2 0).after failingStart

theorem failingVerify_accepted :
    (match failingVerify.1 with
      | .ok (run, none) => decide (run.status = .interesting) &&
          decide (run.origin = some "failure")
      | _ => false) = true := by
  decide +kernel

theorem failingStart_reaches
    (allowed : ShrinkState (EngineWorld Unit) → Prop) :
    EngineReaches failingSetup some allowed (.start none [] ())
      (.shrinking "failure" failingStart []) := by
  have hinitial : failingEngine.interesting.lookup "failure" =
      some ((failingEngine.interesting.lookup "failure").getD []) := by
    have hsome : (failingEngine.interesting.lookup "failure").isSome = true :=
      by decide +kernel
    obtain ⟨initial, hlookup⟩ := Option.isSome_iff_exists.mp hsome
    rw [hlookup, Option.getD_some]
  have hverify : ∃ verify,
      failingVerify = (.ok (verify, none), failingVerify.2) ∧
        verify.FailsWith "failure" := by
    have haccepted := failingVerify_accepted
    generalize failingVerify = reached at haccepted
    obtain ⟨result, engine⟩ := reached
    dsimp only at haccepted
    split at haccepted
    case h_1 run =>
      rw [Bool.and_eq_true, decide_eq_true_iff, decide_eq_true_iff]
        at haccepted
      exact ⟨run, rfl, haccepted⟩
    case h_2 => cases haccepted
  obtain ⟨verify, hverify, hfails⟩ := hverify
  have hstart : failingStart = .start verify.nodes verify.spans (some 1)
      ⟨failingVerify.2, 0, none⟩ := by
    rw [failingStart, hverify]
  rw [hstart]
  have htested : EngineStep failingSetup some allowed (.start none [] ())
      (.exploring failingEngine 0 []) := .tested _ _
  exact (Relation.ReflTransGen.single htested).tail
    (.began (some 1) rfl List.not_mem_nil hinitial hverify hfails)

theorem failingState_reaches
    (allowed : ShrinkState (EngineWorld Unit) → Prop) :
    EngineReaches failingSetup some allowed (.start none [] ())
      (.shrinking "failure" failingState []) :=
  (failingStart_reaches allowed).trans
    (shrinking_reaches allowed
      (reduceEachAlternative_holds (shrinkMove_passLogic _).operations 2 0 _) [])

/-- The failure on 0 is recorded while the shrinker looks at it; time is up
when 0 is proposed, and the failure on 5 is written over it. -/
theorem engine_monotone_fails :
    ∃ after,
      EngineReaches failingSetup some (fun _ => True) (.start none [] ())
        (.shrinking "failure" failingState []) ∧
      ((replace (engineShrinkProbe failingSetup some "failure")
        [(0, .integer 0)]).exec failingState).1 = .error .stop ∧
      EngineStep failingSetup some (fun _ => True)
        (.shrinking "failure" failingState []) after ∧
      ¬Lowers failingState.world.engine.interesting
        after.engine.interesting ∧
      ∃ nodes, ("failure", nodes) ∈ after.engine.report true ∧
        ∃ executed ∈ after.engine.executed, executed.FailsWith "failure" ∧
          nodesSortKeyCmp nodes executed.nodes = .gt := by
  have hfailed : failingState.world.failed = none := by decide +kernel
  have hlarger : nodesSortKeyCmp failingState.currentNodes
      ((failingState.world.engine.interesting.lookup "failure").getD []) =
        .gt := by decide +kernel
  have hsome : (failingState.world.engine.interesting.lookup
      "failure").isSome = true := by decide +kernel
  obtain ⟨stored, hstored⟩ := Option.isSome_iff_exists.mp hsome
  rw [hstored, Option.getD_some] at hlarger
  have hstops : ((replace (engineShrinkProbe failingSetup some "failure")
      [(0, .integer 0)]).exec failingState).1 = .error .stop := by
    decide +kernel
  refine ⟨_, failingState_reaches _, hstops, .wroteBack hfailed trivial, ?_,
    failingState.currentNodes, ?_, ?_⟩
  · intro hlowers
    have hle := lowers_insert_iff.mp hlowers stored hstored
    rw [hlarger] at hle
    cases hle
  · rw [mem_report]
    exact AList.lookup_insert _
  · have hstart : (EngineRun.start none [] ()).Sound failingSetup some :=
      Engine.consistent_new failingSetup none [] ()
    have hsound := (hstart.reaches (failingState_reaches _)).1
    obtain ⟨executed, hexecuted, hfails, rfl⟩ :=
      hsound.consistent.stored "failure" stored hstored
    exact ⟨executed, hexecuted, hfails, hlarger⟩

/-- The shrink after 0 was proposed and accepted. -/
def shrunkState : ShrinkState (EngineWorld Unit) :=
  (replace (engineShrinkProbe failingSetup some "failure")
    [(0, .integer 0)]).after failingStart

theorem shrunkState_reaches (allowed : ShrinkState (EngineWorld Unit) → Prop) :
    EngineReaches failingSetup some allowed (.start none [] ())
      (.shrinking "failure" shrunkState []) :=
  (failingStart_reaches allowed).trans
    (shrinking_reaches allowed
      (replace_holds (shrinkMove_passLogic _).operations [(0, .integer 0)] _) [])

/-- The run that finds the failure on 5, shrinks it to 0 and writes that
back. -/
theorem engine_monotone_sample :
    ∃ run nodes,
      EngineReaches failingSetup some ShrinkState.Lossless (.start none [] ())
        run ∧
      ("failure", nodes) ∈ run.engine.report true ∧
      (∃ executed ∈ run.engine.executed, executed.FailsWith "failure" ∧
        nodesSortKeyCmp nodes executed.nodes = .lt) ∧
      ∀ executed ∈ run.engine.executed, executed.FailsWith "failure" →
        (nodesSortKeyCmp nodes executed.nodes).isLE := by
  have hfailed : shrunkState.world.failed = none := by decide +kernel
  have hlossless : shrunkState.Lossless := by
    have hhistory : (shrunkState.history.all fun event => event.compared) =
        true := by decide +kernel
    intro event hevent hunseen
    rw [List.all_eq_true.mp hhistory event hevent] at hunseen
    cases hunseen
  have hreaches := (shrunkState_reaches ShrinkState.Lossless).tail
    (.wroteBack hfailed hlossless)
  have hreported : ("failure", shrunkState.currentNodes) ∈
      Engine.report { shrunkState.world.engine with
        interesting := shrunkState.world.engine.interesting.insert "failure"
          shrunkState.currentNodes } true := by
    rw [mem_report]
    exact AList.lookup_insert _
  have hexecuted : (shrunkState.world.engine.executed.any fun executed =>
      decide (executed.status = .interesting) &&
        decide (executed.origin = some "failure") &&
        decide (nodesSortKeyCmp shrunkState.currentNodes executed.nodes =
          .lt)) = true := by
    decide +kernel
  refine ⟨_, _, hreaches, hreported, ?_, ?_⟩
  · obtain ⟨executed, hmem, hfound⟩ := List.any_eq_true.mp hexecuted
    rw [Bool.and_eq_true, Bool.and_eq_true, decide_eq_true_iff,
      decide_eq_true_iff, decide_eq_true_iff] at hfound
    exact ⟨executed, hmem, hfound.1, hfound.2⟩
  · exact (engine_monotone failingSetup some none [] () _ hreaches).2.1 true
      "failure" shrunkState.currentNodes hreported

end Overwriting

end Hegel
