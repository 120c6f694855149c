/-
Shrinking in the engine.  The shrinker's executions are recorded like any
others, so the stored examples can improve while a shrink is going on; the
invariant relates what was recorded since the shrink began to the shrinker's
own history.
-/
import Hegel.EngineRecords
import Hegel.ShrinkRuns

namespace Hegel

variable {Rng : Type}

section Probes

/-- What the shrinker is told about a run. -/
structure Reports (origin : String) (run : RunResult)
    (outcome : ShrinkOutcome) : Prop where
  isInteresting : outcome.isInteresting = true ↔ run.FailsWith origin
  actualNodes : outcome.actualNodes = run.nodes

theorem reports_run (origin : String) (run : RunResult) :
    Reports origin run ⟨decide (run.status = .interesting) &&
      decide (run.origin = some origin), run.nodes, run.spans⟩ := by
  constructor
  · rw [Bool.and_eq_true, decide_eq_true_iff, decide_eq_true_iff]
    exact Iff.rfl
  · rfl

variable [UBigBytes] {setup : EngineSetup Rng} {clock : Nat → Option Nat}
  {origin : String}

/-- What one run for the shrinker does to the engine. -/
structure ProbeEffect (setup : EngineSetup Rng) (origin : String)
    (world : EngineWorld Rng) (answer : Except ShrinkHalt ShrinkOutcome)
    (world' : EngineWorld Rng) : Prop where
  consistent : world'.engine.Consistent setup
  lowers : Lowers world.engine.interesting world'.engine.interesting
  executed : world.engine.executed ⊆ world'.engine.executed
  failed : world'.failed = none →
    world.failed = none ∧ ∃ outcome, answer = .ok outcome
  reported : ∀ outcome, answer = .ok outcome →
    ∃ run ∈ world'.engine.executed, Reports origin run outcome ∧
      ∀ other ∈ world'.engine.executed,
        other ∈ world.engine.executed ∨ other = run

/-- The shrinker's runs are queries of the engine. -/
theorem engineShrinkRun_query (req : ShrinkRun) :
    ∃ choices nodes extend, engineShrinkRun setup origin req = do
      let run ← cachedTestFunction setup choices nodes extend
      return ⟨decide (run.status = .interesting) &&
        decide (run.origin = some origin), run.nodes, run.spans⟩ := by
  cases req with
  | full nodes => exact ⟨_, _, _, rfl⟩
  | probe prefixValues maxSize => exact ⟨_, _, _, rfl⟩

theorem QueryEffect.probeEffect {world : EngineWorld Rng}
    {choices : List ChoiceValue} {run : RunResult} {engine' : Engine Rng}
    (hconsistent : world.engine.Consistent setup)
    (heffect : QueryEffect setup world.engine choices (.ok run, engine'))
    {outcome : ShrinkOutcome} (hreports : Reports origin run outcome) :
    ProbeEffect setup origin world (.ok outcome)
      { world with engine := engine' } := by
  cases heffect with
  | served hserved =>
      refine ⟨hconsistent, .refl _, fun _ => id, fun h => ⟨h, _, rfl⟩, ?_⟩
      intro outcome' hok
      rw [← Except.ok.inj hok]
      exact ⟨run, (hconsistent.served hserved).1, hreports,
        fun _ hother => .inl hother⟩
  | answered hexecutes =>
      refine ⟨hexecutes.consistent hconsistent, hexecutes.lowers,
        fun _ hother => hexecutes.mem.mpr (.inl hother),
        fun h => ⟨h, _, rfl⟩, ?_⟩
      intro outcome' hok
      rw [← Except.ok.inj hok]
      refine ⟨run, hexecutes.mem.mpr (.inr rfl), hreports, ?_⟩
      intro other hother
      rcases hexecutes.mem.mp hother with hold | hnew
      · exact .inl hold
      · exact .inr (Option.some.inj hnew).symm

theorem engineShrinkProbe_run {world world' : EngineWorld Rng}
    {req : ShrinkRun} {answer : Except ShrinkHalt ShrinkOutcome}
    (hconsistent : world.engine.Consistent setup)
    (hrun : (engineShrinkProbe setup clock origin).run world req =
      (answer, world')) :
    ProbeEffect setup origin world answer world' := by
  obtain ⟨choices, nodes, extend, hquery⟩ :=
    @engineShrinkRun_query _ _ setup origin req
  have heffect := @cachedTestFunction_effect _ _ setup world.engine choices
    nodes extend
  dsimp only [engineShrinkProbe] at hrun
  rw [hquery, Program.exec_bind] at hrun
  cases hexec : (cachedTestFunction setup choices nodes extend).exec
      world.engine with
  | mk result engine' =>
      rw [hexec] at heffect hrun
      cases result with
      | ok run =>
          simp only [Program.exec_pure, Prod.mk.injEq] at hrun
          obtain ⟨rfl, rfl⟩ := hrun
          exact heffect.probeEffect hconsistent (reports_run origin run)
      | error error =>
          simp only [Prod.mk.injEq] at hrun
          obtain ⟨rfl, rfl⟩ := hrun
          cases heffect with
          | failed _ hexecutes =>
              constructor
              · exact hexecutes.consistent hconsistent
              · exact hexecutes.lowers
              · exact fun _ hother => hexecutes.mem.mpr (.inl hother)
              · intro hnone
                cases hnone
              · intro outcome hok
                cases hok

/-- Looking at the clock leaves the engine alone. -/
theorem ticks_engine {world world' : EngineWorld Rng}
    (hticks : (engineShrinkProbe setup clock origin).Ticks world world') :
    world'.engine = world.engine ∧ world'.failed = world.failed := by
  cases hticks with
  | still => exact ⟨rfl, rfl⟩
  | read => exact ⟨rfl, rfl⟩

theorem runs_probeEffect {world world' : EngineWorld Rng}
    {answer : Except ShrinkHalt ShrinkOutcome}
    (hconsistent : world.engine.Consistent setup)
    (hruns : (engineShrinkProbe setup clock origin).Runs world answer
      world') :
    ProbeEffect setup origin world answer world' := by
  obtain ⟨asked, req, hticks, hrun⟩ := hruns
  obtain ⟨hengine, hfailed⟩ := ticks_engine hticks
  rw [← hengine] at hconsistent
  obtain ⟨hconsistent', hlowers, hexecuted, hfailed', hreported⟩ :=
    engineShrinkProbe_run hconsistent hrun
  rw [hengine] at hlowers hexecuted hreported
  rw [hfailed] at hfailed'
  exact ⟨hconsistent', hlowers, hexecuted, hfailed', hreported⟩

end Probes

section Shrinking

variable {World : Type}

/-- What one operation of the shrinker adds to its history and asks of the
test function. -/
inductive Observes (testFn : ShrinkProbe World)
    (state state' : ShrinkState World) : List ShrinkEvent → Prop
  | quiet (hticks : testFn.Ticks state.world state'.world) :
      Observes testFn state state' []
  | halted (halt : ShrinkHalt)
      (hruns : testFn.Runs state.world (.error halt) state'.world) :
      Observes testFn state state' []
  | answered (event : ShrinkEvent)
      (hruns : testFn.Runs state.world (.ok event.outcome) state'.world) :
      Observes testFn state state' [event]

theorem ShrinkEffect.observes {testFn : ShrinkProbe World}
    {state state' : ShrinkState World}
    (heffect : ShrinkEffect testFn state state') :
    ∃ events, state'.history = state.history ++ events ∧
      Observes testFn state state' events := by
  cases heffect with
  | kept hsame hhistory hticks =>
      exact ⟨[], by rw [hhistory, List.append_nil], .quiet hticks⟩
  | halted halt hruns hsame hhistory =>
      exact ⟨[], by rw [hhistory, List.append_nil], .halted halt hruns⟩
  | passedOver outcome hruns hsame hhistory =>
      exact ⟨_, hhistory, .answered _ hruns⟩
  | inspected outcome hruns hsame hhistory =>
      exact ⟨_, hhistory, .answered _ hruns⟩
  | accepted outcome hruns _ _ _ _ _ _ hhistory =>
      exact ⟨_, hhistory, .answered _ hruns⟩
  | canonicalised outcome hruns _ _ _ _ _ _ hhistory =>
      exact ⟨_, hhistory, .answered _ hruns⟩

/-- Every failure that was not compared with the target is no smaller than
it. -/
def ShrinkState.Lossless (state : ShrinkState World) : Prop :=
  ∀ event ∈ state.history, event.compared = false →
    event.outcome.isInteresting = true →
      (nodesSortKeyCmp state.currentNodes event.outcome.actualNodes).isLE

variable [UBigBytes]

/-- What holds while an origin is shrunk from a failure of it: every failure of
it since then is in the shrinker's history, unless the run has ended. -/
structure Shrinks (setup : EngineSetup Rng) (clock : Nat → Option Nat)
    (origin : String) (first : RunResult)
    (state : ShrinkState (EngineWorld Rng)) : Prop where
  consistent : state.world.engine.Consistent setup
  sound : state.Sound (engineShrinkProbe setup clock origin) first.nodes
    first.spans
  failing : first ∈ state.world.engine.executed ∧ first.FailsWith origin
  recorded : ∀ event ∈ state.history, event.outcome.isInteresting = true →
    ∃ run ∈ state.world.engine.executed, run.FailsWith origin ∧
      run.nodes = event.outcome.actualNodes
  covered : state.world.failed = none →
    ∀ run ∈ state.world.engine.executed, run.FailsWith origin →
      (nodesSortKeyCmp first.nodes run.nodes).isLE ∨
        ∃ event ∈ state.history, event.outcome.isInteresting = true ∧
          event.outcome.actualNodes = run.nodes

variable {setup : EngineSetup Rng} {clock : Nat → Option Nat} {origin : String}
  {first : RunResult} {state state' : ShrinkState (EngineWorld Rng)}

/-- One operation keeps the invariant, and only lowers the stored examples. -/
theorem Shrinks.step (hshrinks : Shrinks setup clock origin first state)
    (hmove : ShrinkMove (engineShrinkProbe setup clock origin) state state') :
    Shrinks setup clock origin first state' ∧
      Lowers state.world.engine.interesting
        state'.world.engine.interesting := by
  have hsound := hshrinks.sound.step hmove.effect
  obtain ⟨events, hhistory, hobserves⟩ := hmove.effect.observes
  cases hobserves with
  | quiet hticks =>
      obtain ⟨hengine, hfailed⟩ := ticks_engine hticks
      rw [List.append_nil] at hhistory
      rw [hengine]
      refine ⟨⟨?_, hsound, ?_, ?_, ?_⟩, .refl _⟩
      · rw [hengine]
        exact hshrinks.consistent
      · rw [hengine]
        exact hshrinks.failing
      · rw [hengine, hhistory]
        exact hshrinks.recorded
      · rw [hengine, hfailed, hhistory]
        exact hshrinks.covered
  | halted halt hruns =>
      obtain ⟨hconsistent, hlowers, hexecuted, hfailed, -⟩ :=
        runs_probeEffect hshrinks.consistent hruns
      rw [List.append_nil] at hhistory
      refine ⟨⟨hconsistent, hsound, ?_, ?_, ?_⟩, hlowers⟩
      · exact ⟨hexecuted hshrinks.failing.1, hshrinks.failing.2⟩
      · rw [hhistory]
        intro event hevent hinteresting
        obtain ⟨run, hrun, hreported⟩ :=
          hshrinks.recorded event hevent hinteresting
        exact ⟨run, hexecuted hrun, hreported⟩
      · intro hnone
        obtain ⟨-, outcome, hok⟩ := hfailed hnone
        cases hok
  | answered event hruns =>
      obtain ⟨hconsistent, hlowers, hexecuted, hfailed, hreported⟩ :=
        runs_probeEffect hshrinks.consistent hruns
      obtain ⟨run, hrun, hreports, hothers⟩ := hreported _ rfl
      refine ⟨⟨hconsistent, hsound, ?_, ?_, ?_⟩, hlowers⟩
      · exact ⟨hexecuted hshrinks.failing.1, hshrinks.failing.2⟩
      · intro other hother hinteresting
        rw [hhistory, List.mem_append, List.mem_singleton] at hother
        rcases hother with hold | rfl
        · obtain ⟨earlier, hearlier, hsame⟩ :=
            hshrinks.recorded other hold hinteresting
          exact ⟨earlier, hexecuted hearlier, hsame⟩
        · exact ⟨run, hrun, hreports.isInteresting.mp hinteresting,
            hreports.actualNodes.symm⟩
      · intro hnone other hother hfails
        rw [hhistory]
        rcases hothers other hother with hold | rfl
        · rcases hshrinks.covered (hfailed hnone).1 other hold hfails with
            hlarge | ⟨event', hevent', hsame⟩
          · exact .inl hlarge
          · exact .inr ⟨event', List.mem_append_left _ hevent', hsame⟩
        · exact .inr ⟨event, List.mem_append_right _
            (List.mem_singleton_self event),
              hreports.isInteresting.mpr hfails, hreports.actualNodes⟩

/-- Writing the target back loses nothing exactly when no smaller failure was
passed by. -/
theorem Shrinks.lowers_iff (hshrinks : Shrinks setup clock origin first state)
    (hfailed : state.world.failed = none) :
    Lowers state.world.engine.interesting
        (state.world.engine.interesting.insert origin state.currentNodes) ↔
      state.Lossless := by
  rw [lowers_insert_iff]
  constructor
  · intro hle event hevent _ hinteresting
    obtain ⟨run, hrun, hfails, hnodes⟩ :=
      hshrinks.recorded event hevent hinteresting
    obtain ⟨stored, hstored, hsmallest⟩ :=
      hshrinks.consistent.smallest run hrun origin hfails
    rw [← hnodes]
    exact Std.TransCmp.isLE_trans (hle stored hstored) hsmallest
  · intro hlossless stored hstored
    obtain ⟨run, hrun, hfails, rfl⟩ :=
      hshrinks.consistent.stored origin stored hstored
    rcases hshrinks.covered hfailed run hrun hfails with
      hlarge | ⟨event, hevent, hinteresting, hnodes⟩
    · exact Std.TransCmp.isLE_trans hshrinks.sound.lowest.1 hlarge
    · rw [← hnodes]
      cases hcompared : event.compared with
      | true =>
          exact hshrinks.sound.lowest.2 event hevent hcompared hinteresting
      | false => exact hlossless event hevent hcompared hinteresting

/-- The target is a failure of the origin. -/
theorem Shrinks.target (hshrinks : Shrinks setup clock origin first state) :
    ∃ run ∈ state.world.engine.executed, run.FailsWith origin ∧
      run.nodes = state.currentNodes := by
  rcases hshrinks.sound.paired with ⟨hnodes, -⟩ | ⟨event, hevent, houtcome⟩
  · exact ⟨first, hshrinks.failing.1, hshrinks.failing.2, hnodes.symm⟩
  · have hinteresting : event.outcome.isInteresting = true := by rw [houtcome]
    obtain ⟨run, hrun, hfails, hnodes⟩ :=
      hshrinks.recorded event hevent hinteresting
    exact ⟨run, hrun, hfails, by rw [hnodes, houtcome]⟩

end Shrinking

end Hegel
