/-
Runs of the shrinker.  Whatever the passes ask for and in whatever order, every
operation keeps the target, replaces it through acceptance, or replaces it by
one that is no larger; a run is any sequence of operations.
-/
import Hegel.Shrinker

namespace Hegel

variable {World : Type}

namespace ShrinkProbe

/-- At most one look at the clock. -/
inductive Ticks (testFn : ShrinkProbe World) (world : World) : World → Prop
  | still : Ticks testFn world world
  | read : Ticks testFn world (testFn.now world).2

/-- One run of the test function, perhaps after a look at the clock. -/
def Runs (testFn : ShrinkProbe World) (world : World)
    (answer : Except ShrinkHalt ShrinkOutcome) (world' : World) : Prop :=
  ∃ asked run, testFn.Ticks world asked ∧
    testFn.run asked run = (answer, world')

/-- The test function can give the answer. -/
def Answers (testFn : ShrinkProbe World) (outcome : ShrinkOutcome) : Prop :=
  ∃ world run, (testFn.run world run).1 = .ok outcome

theorem Runs.answers {testFn : ShrinkProbe World} {world world' : World}
    {outcome : ShrinkOutcome}
    (hruns : testFn.Runs world (.ok outcome) world') :
    testFn.Answers outcome := by
  obtain ⟨asked, run, -, hrun⟩ := hruns
  exact ⟨asked, run, by rw [hrun]⟩

end ShrinkProbe

namespace ShrinkState

def currentNodes (state : ShrinkState World) : List ChoiceNode :=
  state.shrinker.currentNodes

/-- Only the world and the timeout latch may differ. -/
structure Retimed (state state' : ShrinkState World) : Prop where
  history : state'.history = state.history
  shrinker : ∃ timedOut,
    state'.shrinker = { state.shrinker with timedOut := timedOut }

theorem Retimed.refl (state : ShrinkState World) : state.Retimed state :=
  ⟨rfl, state.shrinker.timedOut, rfl⟩

theorem Retimed.trans {first second third : ShrinkState World}
    (hfirst : first.Retimed second) (hsecond : second.Retimed third) :
    first.Retimed third := by
  obtain ⟨timedOut, hshrinker⟩ := hfirst.shrinker
  obtain ⟨timedOut', hshrinker'⟩ := hsecond.shrinker
  refine ⟨hsecond.history.trans hfirst.history, timedOut', ?_⟩
  rw [hshrinker', hshrinker]

/-- The target and what is recorded about its predecessors are the same. -/
structure SameTarget (state state' : ShrinkState World) : Prop where
  currentNodes : state'.shrinker.currentNodes = state.shrinker.currentNodes
  currentSpans : state'.shrinker.currentSpans = state.shrinker.currentSpans
  improvements : state'.shrinker.improvements = state.shrinker.improvements
  downgraded : state'.shrinker.downgraded = state.shrinker.downgraded

theorem Retimed.sameTarget {state state' : ShrinkState World}
    (hretimed : state.Retimed state') : state.SameTarget state' := by
  obtain ⟨timedOut, hshrinker⟩ := hretimed.shrinker
  constructor <;> rw [hshrinker]

end ShrinkState

section Effects

/-- A run of the test function is refused, halts or is answered; the shrinker
itself stays as it was. -/
inductive RunEffect (testFn : ShrinkProbe World) (state : ShrinkState World) :
    Except ShrinkHalt ShrinkOutcome × ShrinkState World → Prop
  | refused {state'} (hticks : testFn.Ticks state.world state'.world)
      (hretimed : state.Retimed state') :
      RunEffect testFn state (.error .stop, state')
  | halted {state'} (halt : ShrinkHalt)
      (hruns : testFn.Runs state.world (.error halt) state'.world)
      (hretimed : state.Retimed state') :
      RunEffect testFn state (.error halt, state')
  | answered {state'} (outcome : ShrinkOutcome)
      (hruns : testFn.Runs state.world (.ok outcome) state'.world)
      (hretimed : state.Retimed state') :
      RunEffect testFn state (.ok outcome, state')

variable (testFn : ShrinkProbe World) (state : ShrinkState World)

theorem pastDeadline_exec :
    ∃ passed state', (pastDeadline testFn).exec state = (.ok passed, state') ∧
      testFn.Ticks state.world state'.world ∧ state.Retimed state' := by
  rw [pastDeadline, Program.exec_ofExec]
  by_cases htimedOut : state.shrinker.timedOut = true
  · rw [if_pos htimedOut]
    exact ⟨true, state, rfl, .still, .refl state⟩
  · rw [if_neg htimedOut]
    cases state.shrinker.deadline with
    | none => exact ⟨false, state, rfl, .still, .refl state⟩
    | some deadline => exact ⟨_, _, rfl, .read, rfl, _, rfl⟩

theorem callTestFn_effect {testFn : ShrinkProbe World}
    {state : ShrinkState World} {world : World}
    (hticks : testFn.Ticks world state.world) (run : ShrinkRun) :
    RunEffect testFn { state with world := world }
      ((callTestFn testFn run).exec state) := by
  rw [callTestFn, Program.exec_ofExec]
  cases hanswer : testFn.run state.world run with
  | mk answer world' =>
      cases answer with
      | error halt =>
          exact .halted halt ⟨state.world, run, hticks, hanswer⟩ ⟨rfl, _, rfl⟩
      | ok outcome =>
          exact .answered outcome ⟨state.world, run, hticks, hanswer⟩
            ⟨rfl, _, rfl⟩

theorem runTestFn_effect (run : ShrinkRun) :
    RunEffect testFn state ((runTestFn testFn run).exec state) := by
  obtain ⟨passed, state', hexec, hticks, hretimed⟩ :=
    pastDeadline_exec testFn state
  rw [runTestFn, Program.exec_bind, hexec]
  cases passed with
  | true => exact .refused hticks hretimed
  | false =>
      have heffect := callTestFn_effect hticks run
      simp only [Bool.false_eq_true, if_false]
      generalize (callTestFn testFn run).exec state' = reached at heffect
      have hback : state.Retimed { state' with world := state.world } :=
        ⟨hretimed.history, hretimed.shrinker⟩
      cases heffect with
      | refused hticks' hretimed' =>
          exact .refused hticks' (hback.trans hretimed')
      | halted halt hruns hretimed' =>
          exact .halted halt hruns (hback.trans hretimed')
      | answered outcome hruns hretimed' =>
          exact .answered outcome hruns (hback.trans hretimed')

/-- What one operation does to the target, the history and the world. -/
inductive ShrinkEffect (testFn : ShrinkProbe World)
    (state state' : ShrinkState World) : Prop
  | kept (hsame : state.SameTarget state')
      (hhistory : state'.history = state.history)
      (hticks : testFn.Ticks state.world state'.world)
  | halted (halt : ShrinkHalt)
      (hruns : testFn.Runs state.world (.error halt) state'.world)
      (hsame : state.SameTarget state')
      (hhistory : state'.history = state.history)
  | passedOver (outcome : ShrinkOutcome)
      (hruns : testFn.Runs state.world (.ok outcome) state'.world)
      (hsame : state.SameTarget state')
      (hhistory : state'.history =
        state.history ++ [.passedOver state.currentNodes outcome])
      (hlarge : outcome.isInteresting = true →
        nodesSortKeyCmp outcome.actualNodes state.currentNodes ≠ .lt)
  | inspected (outcome : ShrinkOutcome)
      (hruns : testFn.Runs state.world (.ok outcome) state'.world)
      (hsame : state.SameTarget state')
      (hhistory : state'.history = state.history ++ [.inspected outcome])
  | accepted (outcome : ShrinkOutcome)
      (hruns : testFn.Runs state.world (.ok outcome) state'.world)
      (hinteresting : outcome.isInteresting = true)
      (hsmaller :
        nodesSortKeyCmp outcome.actualNodes state.currentNodes = .lt)
      (hnodes : state'.currentNodes = outcome.actualNodes)
      (hspans : state'.shrinker.currentSpans = outcome.actualSpans)
      (himprovements :
        state'.shrinker.improvements = state.shrinker.improvements + 1)
      (hdowngraded : state'.shrinker.downgraded = state.shrinker.downgraded ++
        [state.currentNodes.map ChoiceNode.value])
      (hhistory : state'.history =
        state.history ++ [.accepted state.currentNodes outcome])
  | canonicalised (outcome : ShrinkOutcome)
      (hruns : testFn.Runs state.world (.ok outcome) state'.world)
      (hinteresting : outcome.isInteresting = true)
      (hle : (nodesSortKeyCmp outcome.actualNodes state.currentNodes).isLE)
      (hnodes : state'.currentNodes = outcome.actualNodes)
      (hspans : state'.shrinker.currentSpans = outcome.actualSpans)
      (himprovements :
        state'.shrinker.improvements = state.shrinker.improvements)
      (hdowngraded : state'.shrinker.downgraded = state.shrinker.downgraded)
      (hhistory : state'.history =
        state.history ++ [.canonicalised state.currentNodes outcome])

theorem adopt_effect (run : ShrinkRun) :
    ShrinkEffect testFn state ((adopt testFn run).after state) := by
  have heffect := runTestFn_effect testFn state run
  rw [adopt]
  cases hexec : (runTestFn testFn run).exec state with
  | mk result state' =>
      rw [hexec] at heffect
      cases heffect with
      | refused hticks hretimed =>
          rw [Program.after_bind_error hexec]
          exact .kept hretimed.sameTarget hretimed.history hticks
      | halted halt hruns hretimed =>
          rw [Program.after_bind_error hexec]
          exact .halted halt hruns hretimed.sameTarget hretimed.history
      | answered outcome hruns hretimed =>
          have hsame := hretimed.sameTarget
          have hnodes : state'.shrinker.currentNodes = state.currentNodes :=
            hsame.currentNodes
          rw [Program.after_bind_ok hexec, Program.after]
          simp only [Program.exec_bind, modifyShrinker, Program.exec_modify,
            Program.exec_get, hnodes]
          by_cases hadopted : outcome.isInteresting = true ∧
              nodesSortKeyCmp outcome.actualNodes state.currentNodes = .lt
          · simp only [if_pos hadopted, Program.exec_bind, note,
              Program.exec_modify, Program.exec_pure]
            refine .accepted outcome hruns hadopted.1 hadopted.2 rfl rfl
              ?_ ?_ ?_
            · simp only [Shrinker.acceptImprovement, hsame.improvements]
            · simp only [Shrinker.acceptImprovement, hsame.downgraded]
            · simp only [hretimed.history]
          · simp only [if_neg hadopted, Program.exec_bind, note,
              Program.exec_modify, Program.exec_pure]
            refine .passedOver outcome hruns ?_ ?_ ?_
            · exact ⟨rfl, hsame.currentSpans, hsame.improvements,
                hsame.downgraded⟩
            · simp only [hretimed.history]
            · intro hinteresting hlt
              exact hadopted ⟨hinteresting, hlt⟩

theorem canonicalise_effect (attempt : List ChoiceNode) :
    ShrinkEffect testFn state ((canonicalise testFn attempt).after state) := by
  have heffect := runTestFn_effect testFn state (.full attempt)
  rw [canonicalise]
  cases hexec : (runTestFn testFn (.full attempt)).exec state with
  | mk result state' =>
      rw [hexec] at heffect
      cases heffect with
      | refused hticks hretimed =>
          rw [Program.after_bind_error hexec]
          exact .kept hretimed.sameTarget hretimed.history hticks
      | halted halt hruns hretimed =>
          rw [Program.after_bind_error hexec]
          exact .halted halt hruns hretimed.sameTarget hretimed.history
      | answered outcome hruns hretimed =>
          have hsame := hretimed.sameTarget
          have hnodes : state'.shrinker.currentNodes = state.currentNodes :=
            hsame.currentNodes
          rw [Program.after_bind_ok hexec, Program.after]
          simp only [Program.exec_bind, modifyShrinker, Program.exec_modify,
            Program.exec_get, hnodes]
          by_cases hadopted : outcome.isInteresting = true ∧
              (nodesSortKeyCmp outcome.actualNodes state.currentNodes).isLE
          · simp only [if_pos hadopted, Program.exec_bind, note,
              Program.exec_modify]
            refine .canonicalised outcome hruns hadopted.1 hadopted.2 rfl rfl
              ?_ ?_ ?_
            · exact hsame.improvements
            · exact hsame.downgraded
            · simp only [hretimed.history]
          · simp only [if_neg hadopted, note, Program.exec_modify]
            refine .passedOver outcome hruns ?_ ?_ ?_
            · exact ⟨rfl, hsame.currentSpans, hsame.improvements,
                hsame.downgraded⟩
            · simp only [hretimed.history]
            · intro hinteresting hlt
              apply hadopted
              rw [hlt]
              exact ⟨hinteresting, rfl⟩

end Effects

/-- One operation of a pass.  A nested shrink runs the test function of the
outer one behind its back, and both watch the same clock. -/
inductive ShrinkCall where
  | adopt (run : ShrinkRun)
  | inspect (run : ShrinkRun)
  | canonicalise (attempt : List ChoiceNode)
  | visit (run : ShrinkRun)
  | readClock
  | latchTimeout
  | clearChangeTracking
  | enterIteration
  | growMaxStall (target : Nat)

section Calls

variable (testFn : ShrinkProbe World)

/-- Run the test function of an outer shrinker. -/
def visit (run : ShrinkRun) : ShrinkM World ShrinkOutcome := do
  let outcome ← callTestFn testFn run
  note (.inspected outcome)
  return outcome

def readClock : ShrinkM World PUnit :=
  modify fun state => { state with world := (testFn.now state.world).2 }

def ShrinkCall.perform : ShrinkCall → ShrinkM World PUnit
  | adopt run => do let _ ← Hegel.adopt testFn run
  | inspect run => do let _ ← Hegel.inspect testFn run
  | canonicalise attempt => Hegel.canonicalise testFn attempt
  | visit run => do let _ ← Hegel.visit testFn run
  | readClock => Hegel.readClock testFn
  | latchTimeout => modifyShrinker fun shrinker =>
      { shrinker with timedOut := true }
  | clearChangeTracking => modifyShrinker Shrinker.clearChangeTracking
  | enterIteration => modifyShrinker fun shrinker =>
      { shrinker with callsAtLastShrink := shrinker.calls }
  | growMaxStall target => modifyShrinker fun shrinker =>
      { shrinker with maxStall := max target shrinker.maxStall }

/-- An operation takes the shrinker from one moment to the next. -/
def ShrinkMove (state state' : ShrinkState World) : Prop :=
  ∃ call : ShrinkCall, state' = (call.perform testFn).after state

/-- Any number of operations in any order. -/
abbrev ShrinkReaches : ShrinkState World → ShrinkState World → Prop :=
  Relation.ReflTransGen (ShrinkMove testFn)

theorem Program.after_bind_pure {State Halt Value Value' : Type}
    (program : Program State Halt Value) (value : Value') (state : State) :
    (program >>= fun _ => pure value).after state = program.after state := by
  cases hexec : program.exec state with
  | mk result state' =>
      have hafter : program.after state = state' := congrArg Prod.snd hexec
      cases result with
      | ok _ => rw [Program.after_bind_ok hexec, hafter, Program.after,
          Program.exec_pure]
      | error halt => rw [Program.after_bind_error hexec, hafter]

theorem inspect_effect (state : ShrinkState World) (run : ShrinkRun) :
    ShrinkEffect testFn state ((inspect testFn run).after state) := by
  have heffect := runTestFn_effect testFn state run
  rw [inspect]
  cases hexec : (runTestFn testFn run).exec state with
  | mk result state' =>
      rw [hexec] at heffect
      cases heffect with
      | refused hticks hretimed =>
          rw [Program.after_bind_error hexec]
          exact .kept hretimed.sameTarget hretimed.history hticks
      | halted halt hruns hretimed =>
          rw [Program.after_bind_error hexec]
          exact .halted halt hruns hretimed.sameTarget hretimed.history
      | answered outcome hruns hretimed =>
          have hsame := hretimed.sameTarget
          rw [Program.after_bind_ok hexec, Program.after_bind_pure]
          refine .inspected outcome hruns ?_ ?_
          · exact ⟨hsame.currentNodes, hsame.currentSpans, hsame.improvements,
              hsame.downgraded⟩
          · exact congrArg (· ++ _) hretimed.history

theorem visit_effect (state : ShrinkState World) (run : ShrinkRun) :
    ShrinkEffect testFn state ((visit testFn run).after state) := by
  have heffect : RunEffect testFn state ((callTestFn testFn run).exec state) :=
    callTestFn_effect .still run
  rw [visit]
  cases hexec : (callTestFn testFn run).exec state with
  | mk result state' =>
      rw [hexec] at heffect
      cases heffect with
      | refused hticks hretimed =>
          rw [Program.after_bind_error hexec]
          exact .kept hretimed.sameTarget hretimed.history hticks
      | halted halt hruns hretimed =>
          rw [Program.after_bind_error hexec]
          exact .halted halt hruns hretimed.sameTarget hretimed.history
      | answered outcome hruns hretimed =>
          have hsame := hretimed.sameTarget
          rw [Program.after_bind_ok hexec, Program.after_bind_pure]
          refine .inspected outcome hruns ?_ ?_
          · exact ⟨hsame.currentNodes, hsame.currentSpans, hsame.improvements,
              hsame.downgraded⟩
          · exact congrArg (· ++ _) hretimed.history

/-- Every operation has one of the effects. -/
theorem ShrinkMove.effect {testFn : ShrinkProbe World}
    {state state' : ShrinkState World}
    (hmove : ShrinkMove testFn state state') :
    ShrinkEffect testFn state state' := by
  obtain ⟨call, rfl⟩ := hmove
  cases call with
  | adopt run =>
      rw [ShrinkCall.perform, Program.after_bind_pure]
      exact adopt_effect testFn state run
  | inspect run =>
      rw [ShrinkCall.perform, Program.after_bind_pure]
      exact inspect_effect testFn state run
  | canonicalise attempt => exact canonicalise_effect testFn state attempt
  | visit run =>
      rw [ShrinkCall.perform, Program.after_bind_pure]
      exact visit_effect testFn state run
  | readClock => exact .kept ⟨rfl, rfl, rfl, rfl⟩ rfl .read
  | latchTimeout => exact .kept ⟨rfl, rfl, rfl, rfl⟩ rfl .still
  | clearChangeTracking => exact .kept ⟨rfl, rfl, rfl, rfl⟩ rfl .still
  | enterIteration => exact .kept ⟨rfl, rfl, rfl, rfl⟩ rfl .still
  | growMaxStall target => exact .kept ⟨rfl, rfl, rfl, rfl⟩ rfl .still

end Calls

namespace ShrinkEvent

/-- The sequence that an acceptance displaced. -/
def displaced : ShrinkEvent → Option (List ChoiceValue)
  | accepted target _ => some (target.map ChoiceNode.value)
  | _ => none

/-- The target went strictly down, through acceptance. -/
def decreases : ShrinkEvent → Bool
  | accepted target outcome =>
      decide (nodesSortKeyCmp outcome.actualNodes target = .lt)
  | _ => false

/-- The run was compared with the target. -/
def compared : ShrinkEvent → Bool
  | inspected _ => false
  | _ => true

end ShrinkEvent

/-- What holds of a shrinker that started from the given nodes and spans. -/
structure ShrinkState.Sound (testFn : ShrinkProbe World)
    (nodes : List ChoiceNode) (spans : List Span)
    (state : ShrinkState World) : Prop where
  answered : ∀ event ∈ state.history, testFn.Answers event.outcome
  paired : state.currentNodes = nodes ∧ state.shrinker.currentSpans = spans ∨
    ∃ event ∈ state.history, event.outcome =
      ⟨true, state.currentNodes, state.shrinker.currentSpans⟩
  improvements : state.shrinker.improvements =
    state.history.countP ShrinkEvent.decreases
  downgraded : state.shrinker.downgraded =
    state.history.filterMap ShrinkEvent.displaced
  balanced : state.shrinker.improvements = state.shrinker.downgraded.length
  lowest : (nodesSortKeyCmp state.currentNodes nodes).isLE ∧
    ∀ event ∈ state.history, event.compared = true →
      event.outcome.isInteresting = true →
        (nodesSortKeyCmp state.currentNodes event.outcome.actualNodes).isLE

section Soundness

variable {testFn : ShrinkProbe World} {nodes : List ChoiceNode}
  {spans : List Span} {state state' : ShrinkState World}

theorem ShrinkEffect.descends (heffect : ShrinkEffect testFn state state') :
    (nodesSortKeyCmp state'.currentNodes state.currentNodes).isLE := by
  cases heffect with
  | kept hsame =>
      rw [ShrinkState.currentNodes, hsame.currentNodes]
      exact Std.ReflCmp.isLE_rfl
  | halted halt hruns hsame =>
      rw [ShrinkState.currentNodes, hsame.currentNodes]
      exact Std.ReflCmp.isLE_rfl
  | passedOver outcome hruns hsame =>
      rw [ShrinkState.currentNodes, hsame.currentNodes]
      exact Std.ReflCmp.isLE_rfl
  | inspected outcome hruns hsame =>
      rw [ShrinkState.currentNodes, hsame.currentNodes]
      exact Std.ReflCmp.isLE_rfl
  | accepted outcome hruns hinteresting hsmaller hnodes =>
      rw [hnodes, hsmaller]
      rfl
  | canonicalised outcome hruns hinteresting hle hnodes =>
      rw [hnodes]
      exact hle

theorem sound_start (nodes : List ChoiceNode) (spans : List Span)
    (deadline : Option Nat) (world : World) :
    (ShrinkState.start nodes spans deadline world).Sound testFn nodes
      spans where
  answered _ hmem := absurd hmem List.not_mem_nil
  paired := .inl ⟨rfl, rfl⟩
  improvements := rfl
  downgraded := rfl
  balanced := rfl
  lowest := ⟨Std.ReflCmp.isLE_rfl, fun _ hmem => absurd hmem List.not_mem_nil⟩

/-- A target that is no larger than a sound one is no larger than what that one
was compared with. -/
theorem ShrinkState.Sound.lower (hsound : state.Sound testFn nodes spans)
    {target : List ChoiceNode}
    (hle : (nodesSortKeyCmp target state.currentNodes).isLE) :
    (nodesSortKeyCmp target nodes).isLE ∧
      ∀ event ∈ state.history, event.compared = true →
        event.outcome.isInteresting = true →
          (nodesSortKeyCmp target event.outcome.actualNodes).isLE := by
  constructor
  · exact Std.TransCmp.isLE_trans hle hsound.lowest.1
  · intro event hmem hcompared hinteresting
    exact Std.TransCmp.isLE_trans hle
      (hsound.lowest.2 event hmem hcompared hinteresting)

/-- A run whose failure is not a smaller target leaves the shrinker sound. -/
theorem ShrinkState.Sound.same (hsound : state.Sound testFn nodes spans)
    (hsame : state.SameTarget state') {events : List ShrinkEvent}
    (hhistory : state'.history = state.history ++ events)
    (hanswers : ∀ event ∈ events, testFn.Answers event.outcome)
    (hplain : ∀ event ∈ events,
      event.decreases = false ∧ event.displaced = none)
    (hlarge : ∀ event ∈ events, event.compared = true →
      event.outcome.isInteresting = true →
        (nodesSortKeyCmp state.currentNodes
          event.outcome.actualNodes).isLE) :
    state'.Sound testFn nodes spans := by
  have hnodes : state'.currentNodes = state.currentNodes := hsame.currentNodes
  have hcount : events.countP ShrinkEvent.decreases = 0 := by
    rw [List.countP_eq_zero]
    intro event hmem
    simp [(hplain event hmem).1]
  have hdisplaced : events.filterMap ShrinkEvent.displaced = [] := by
    rw [List.filterMap_eq_nil_iff]
    exact fun event hmem => (hplain event hmem).2
  constructor
  · intro event hmem
    rw [hhistory] at hmem
    rcases List.mem_append.mp hmem with hold | hnew
    · exact hsound.answered event hold
    · exact hanswers event hnew
  · rw [hnodes, hsame.currentSpans, hhistory]
    rcases hsound.paired with hinitial | ⟨event, hmem, houtcome⟩
    · exact .inl hinitial
    · exact .inr ⟨event, List.mem_append_left _ hmem, houtcome⟩
  · rw [hsame.improvements, hhistory, List.countP_append, hcount]
    exact hsound.improvements
  · rw [hsame.downgraded, hhistory, List.filterMap_append, hdisplaced,
      List.append_nil]
    exact hsound.downgraded
  · rw [hsame.improvements, hsame.downgraded]
    exact hsound.balanced
  · rw [hnodes, hhistory]
    constructor
    · exact hsound.lowest.1
    · intro event hmem
      rcases List.mem_append.mp hmem with hold | hnew
      · exact hsound.lowest.2 event hold
      · exact hlarge event hnew

/-- A failure that replaces the target becomes the new pair. -/
theorem ShrinkState.Sound.replaced (hsound : state.Sound testFn nodes spans)
    {outcome : ShrinkOutcome} {event : ShrinkEvent}
    (hanswers : testFn.Answers outcome)
    (hinteresting : outcome.isInteresting = true)
    (hle : (nodesSortKeyCmp outcome.actualNodes state.currentNodes).isLE)
    (hnodes : state'.currentNodes = outcome.actualNodes)
    (hspans : state'.shrinker.currentSpans = outcome.actualSpans)
    (hhistory : state'.history = state.history ++ [event])
    (hevent : event.outcome = outcome)
    (himprovements : state'.shrinker.improvements =
      state.shrinker.improvements + [event].countP ShrinkEvent.decreases)
    (hdowngraded : state'.shrinker.downgraded =
      state.shrinker.downgraded ++ [event].filterMap ShrinkEvent.displaced)
    (hone : [event].countP ShrinkEvent.decreases =
      ([event].filterMap ShrinkEvent.displaced).length) :
    state'.Sound testFn nodes spans := by
  obtain ⟨hstart, hlower⟩ := hsound.lower hle
  constructor
  · intro other hmem
    rw [hhistory] at hmem
    rcases List.mem_append.mp hmem with hold | hnew
    · exact hsound.answered other hold
    · rw [List.mem_singleton.mp hnew, hevent]
      exact hanswers
  · refine .inr ⟨event, ?_, ?_⟩
    · rw [hhistory]
      exact List.mem_append_right _ (List.mem_singleton_self event)
    · rw [hevent, hnodes, hspans, ← hinteresting]
  · rw [himprovements, hhistory, List.countP_append, hsound.improvements]
  · rw [hdowngraded, hhistory, List.filterMap_append, hsound.downgraded]
  · rw [himprovements, hdowngraded, List.length_append, hsound.balanced, hone]
  · rw [hnodes, hhistory]
    constructor
    · exact hstart
    · intro other hmem
      rcases List.mem_append.mp hmem with hold | hnew
      · exact hlower other hold
      · rw [List.mem_singleton.mp hnew, hevent]
        exact fun _ _ => Std.ReflCmp.isLE_rfl

theorem ShrinkState.Sound.step (hsound : state.Sound testFn nodes spans)
    (heffect : ShrinkEffect testFn state state') :
    state'.Sound testFn nodes spans := by
  cases heffect with
  | kept hsame hhistory =>
      have hnone : state'.history = state.history ++ [] := by
        rw [hhistory, List.append_nil]
      apply hsound.same hsame hnone
      all_goals simp
  | halted halt hruns hsame hhistory =>
      have hnone : state'.history = state.history ++ [] := by
        rw [hhistory, List.append_nil]
      apply hsound.same hsame hnone
      all_goals simp
  | passedOver outcome hruns hsame hhistory hlarge =>
      apply hsound.same hsame hhistory
      · intro event hmem
        rw [List.mem_singleton.mp hmem]
        exact hruns.answers
      · simp [ShrinkEvent.decreases, ShrinkEvent.displaced]
      · intro event hmem _ hinteresting
        rw [List.mem_singleton.mp hmem] at hinteresting ⊢
        exact isLE_of_not_lt (hlarge hinteresting)
  | inspected outcome hruns hsame hhistory =>
      apply hsound.same hsame hhistory
      · intro event hmem
        rw [List.mem_singleton.mp hmem]
        exact hruns.answers
      · simp [ShrinkEvent.decreases, ShrinkEvent.displaced]
      · simp [ShrinkEvent.compared]
  | accepted outcome hruns hinteresting hsmaller hnodes hspans himprovements
      hdowngraded hhistory =>
      have hle : (nodesSortKeyCmp outcome.actualNodes
          state.currentNodes).isLE := by
        rw [hsmaller]
        rfl
      have hone : [ShrinkEvent.accepted state.currentNodes outcome].countP
          ShrinkEvent.decreases = 1 := by
        simp [ShrinkEvent.decreases, hsmaller]
      apply hsound.replaced hruns.answers hinteresting hle hnodes hspans hhistory rfl
      · rw [himprovements, hone]
      · exact hdowngraded
      · rw [hone]
        rfl
  | canonicalised outcome hruns hinteresting hle hnodes hspans himprovements
      hdowngraded hhistory =>
      apply hsound.replaced hruns.answers hinteresting hle hnodes hspans hhistory rfl
      · exact himprovements
      · exact hdowngraded.trans (List.append_nil _).symm
      · rfl

theorem sound_of_reaches (hreaches : ShrinkReaches testFn state state')
    (hsound : state.Sound testFn nodes spans) :
    state'.Sound testFn nodes spans := by
  induction hreaches with
  | refl => exact hsound
  | tail _ hlast ih => exact ih.step hlast.effect

theorem descends_of_reaches (hreaches : ShrinkReaches testFn state state') :
    (nodesSortKeyCmp state'.currentNodes state.currentNodes).isLE := by
  induction hreaches with
  | refl => exact Std.ReflCmp.isLE_rfl
  | tail _ hlast ih => exact Std.TransCmp.isLE_trans hlast.effect.descends ih

end Soundness

end Hegel
