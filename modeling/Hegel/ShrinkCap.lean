/-
The cap on improvements.  Candidates are run only below the cap, except at two
places: spans are made trivial at any time, and a canonical NaN is taken at any
time and without being counted.  So the cap holds in the runs in which no such
span is a smaller failure at the cap and no canonical NaN is one.
-/
import Hegel.ChangeTracking

namespace Hegel

variable {World : Type}

/-- A smaller failure that became the target without being counted. -/
def ShrinkEvent.uncounted : ShrinkEvent → Bool
  | canonicalised target outcome =>
      decide (nodesSortKeyCmp outcome.actualNodes target = .lt)
  | _ => false

namespace ShrinkState

def uncounted (state : ShrinkState World) : Nat :=
  state.history.countP ShrinkEvent.uncounted

/-- The improvements, whether they were counted or not. -/
def accepted (state : ShrinkState World) : Nat :=
  state.shrinker.improvements + state.uncounted

def WithinCap (state : ShrinkState World) : Prop :=
  state.accepted ≤ state.shrinker.maxImprovements

/-- All improvements were counted, and there are no more than the cap. -/
structure Accounted (state : ShrinkState World) : Prop where
  uncounted : state.uncounted = 0
  improvements : state.shrinker.improvements ≤ state.shrinker.maxImprovements

theorem accounted_iff (state : ShrinkState World) :
    state.Accounted ↔ state.WithinCap ∧ state.uncounted = 0 := by
  rw [WithinCap, accepted]
  constructor
  · intro haccounted
    rw [haccounted.uncounted]
    exact ⟨haccounted.improvements, rfl⟩
  · rintro ⟨hwithin, huncounted⟩
    rw [huncounted] at hwithin
    exact ⟨huncounted, hwithin⟩

/-- The cap stays, and improvements are not taken back. -/
structure Rises (state state' : ShrinkState World) : Prop where
  cap : state'.shrinker.maxImprovements = state.shrinker.maxImprovements
  improvements : state.shrinker.improvements ≤ state'.shrinker.improvements
  uncounted : state.uncounted ≤ state'.uncounted

/-- Improvements are made below the cap only, and are counted. -/
structure Capped (state state' : ShrinkState World) : Prop
    extends state.Rises state' where
  accounted : state.Accounted → state'.Accounted

theorem Rises.refl (state : ShrinkState World) : state.Rises state :=
  ⟨rfl, le_rfl, le_rfl⟩

theorem Rises.trans {first second third : ShrinkState World}
    (hfirst : first.Rises second) (hsecond : second.Rises third) :
    first.Rises third :=
  ⟨hsecond.cap.trans hfirst.cap, hfirst.improvements.trans hsecond.improvements,
    hfirst.uncounted.trans hsecond.uncounted⟩

/-- What exceeds the cap does so from then on. -/
theorem Rises.accounted_of_accounted {state state' : ShrinkState World}
    (hrises : state.Rises state') (haccounted : state'.Accounted) :
    state.Accounted where
  uncounted := Nat.le_zero.mp (haccounted.uncounted ▸ hrises.uncounted)
  improvements := by
    have hwithin := haccounted.improvements
    rw [hrises.cap] at hwithin
    exact hrises.improvements.trans hwithin

theorem Capped.trans {first second third : ShrinkState World}
    (hfirst : first.Capped second) (hsecond : second.Capped third) :
    first.Capped third :=
  ⟨hfirst.toRises.trans hsecond.toRises, hsecond.accounted ∘ hfirst.accounted⟩

theorem Capped.of_same {state state' : ShrinkState World}
    (hcap : state'.shrinker.maxImprovements = state.shrinker.maxImprovements)
    (himprovements :
      state'.shrinker.improvements = state.shrinker.improvements)
    (huncounted : state'.uncounted = state.uncounted) :
    state.Capped state' := by
  refine ⟨⟨hcap, himprovements.ge, huncounted.ge⟩, fun haccounted => ⟨?_, ?_⟩⟩
  · exact huncounted.trans haccounted.uncounted
  · rw [himprovements, hcap]
    exact haccounted.improvements

theorem Capped.refl (state : ShrinkState World) : state.Capped state :=
  .of_same rfl rfl rfl

theorem uncounted_append (state : ShrinkState World) (event : ShrinkEvent) :
    ({ state with history := state.history ++ [event] } :
      ShrinkState World).uncounted =
        state.uncounted + (if event.uncounted then 1 else 0) := by
  rw [uncounted, List.countP_append, List.countP_singleton]
  rfl

/-- What is not canonicalised adds nothing that is not counted. -/
theorem uncounted_append_of_quiet (state : ShrinkState World)
    {event : ShrinkEvent} (hquiet : event.uncounted = false) :
    ({ state with history := state.history ++ [event] } :
      ShrinkState World).uncounted = state.uncounted := by
  rw [uncounted_append, hquiet]
  rfl

theorem Retimed.capped {state state' : ShrinkState World}
    (hretimed : state.Retimed state') : state.Capped state' := by
  obtain ⟨timedOut, hshrinker⟩ := hretimed.shrinker
  apply Capped.of_same
  · rw [hshrinker]
  · rw [hshrinker]
  · rw [uncounted, hretimed.history, uncounted]

end ShrinkState

section Operations

variable (testFn : ShrinkProbe World)

/-- The test function answers to a run with a failure smaller than the
target. -/
def Improves (run : ShrinkRun) (state : ShrinkState World) : Prop :=
  ∃ outcome state', (runTestFn testFn run).exec state = (.ok outcome, state') ∧
    outcome.isInteresting = true ∧
      nodesSortKeyCmp outcome.actualNodes state.currentNodes = .lt

/-- An answered run improves the target if what it recorded does. -/
theorem improves_iff {run : ShrinkRun} {state state' : ShrinkState World}
    {outcome : ShrinkOutcome}
    (hrun : (runTestFn testFn run).exec state = (.ok outcome, state')) :
    Improves testFn run state ↔ outcome.isInteresting = true ∧
      nodesSortKeyCmp outcome.actualNodes state.currentNodes = .lt := by
  constructor
  · rintro ⟨outcome', state'', hexec, hsmaller⟩
    rw [hrun] at hexec
    obtain ⟨hresult, -⟩ := Prod.mk.inj hexec
    obtain rfl := Except.ok.inj hresult
    exact hsmaller
  · exact fun hsmaller => ⟨outcome, state', hrun, hsmaller⟩

theorem not_improves_of_halted {run : ShrinkRun}
    {state state' : ShrinkState World} {halt : ShrinkHalt}
    (hrun : (runTestFn testFn run).exec state = (.error halt, state')) :
    ¬Improves testFn run state := by
  rintro ⟨outcome, state'', hexec, -⟩
  rw [hrun] at hexec
  cases hexec

/-- A run is counted as an improvement exactly when it is one. -/
theorem adopt_counts (run : ShrinkRun) (state : ShrinkState World) :
    let reached := (adopt testFn run).exec state
    reached.2.shrinker.maxImprovements = state.shrinker.maxImprovements ∧
      ((Improves testFn run state ∧
          (∃ outcome, reached.1 = .ok (true, outcome)) ∧
            reached.2.shrinker.improvements =
              state.shrinker.improvements + 1) ∨
        (¬Improves testFn run state ∧
          (∀ outcome, reached.1 ≠ .ok (true, outcome)) ∧
            reached.2.shrinker.improvements =
              state.shrinker.improvements)) := by
  intro reached
  have heffect := runTestFn_effect testFn state run
  have hreached : reached = (adopt testFn run).exec state := rfl
  rw [adopt, Program.exec_bind] at hreached
  rcases hrun : (runTestFn testFn run).exec state with ⟨result, state'⟩
  rw [hrun] at heffect hreached
  cases heffect with
  | refused _ hretimed =>
      obtain ⟨timedOut, hshrinker⟩ := hretimed.shrinker
      rw [hreached]
      dsimp only
      rw [hshrinker]
      exact ⟨rfl, .inr ⟨not_improves_of_halted testFn hrun, (by simp), rfl⟩⟩
  | halted halt _ hretimed =>
      obtain ⟨timedOut, hshrinker⟩ := hretimed.shrinker
      rw [hreached]
      dsimp only
      rw [hshrinker]
      exact ⟨rfl, .inr ⟨not_improves_of_halted testFn hrun, (by simp), rfl⟩⟩
  | answered outcome _ hretimed =>
      obtain ⟨timedOut, hshrinker⟩ := hretimed.shrinker
      have hnodes : state'.shrinker.currentNodes = state.currentNodes := by
        rw [hshrinker]
        rfl
      have himproves := improves_iff testFn hrun
      simp only [Program.exec_bind, modifyShrinker, Program.exec_modify,
        Program.exec_get, hnodes] at hreached
      by_cases hsmaller : outcome.isInteresting = true ∧
          nodesSortKeyCmp outcome.actualNodes state.currentNodes = .lt
      · simp only [if_pos hsmaller, Program.exec_bind, note,
          Program.exec_modify, Program.exec_pure] at hreached
        rw [hreached]
        dsimp only [Shrinker.acceptImprovement]
        rw [hshrinker]
        exact ⟨rfl, .inl ⟨himproves.mpr hsmaller, ⟨outcome, rfl⟩, rfl⟩⟩
      · simp only [if_neg hsmaller, Program.exec_bind, note,
          Program.exec_modify, Program.exec_pure] at hreached
        rw [hreached]
        dsimp only
        rw [hshrinker]
        refine ⟨rfl, .inr ⟨fun himproved => hsmaller (himproves.mp himproved),
          ?_, rfl⟩⟩
        intro outcome' heq
        cases heq

/-- Two states with the same improvements left out of the count. -/
def SameUncounted (state state' : ShrinkState World) : Prop :=
  state'.uncounted = state.uncounted

theorem uncounted_of_follows {Value : Type} {program : ShrinkM World Value}
    (hfollows : Program.Follows SameUncounted program)
    (state : ShrinkState World) :
    (program.after state).uncounted = state.uncounted := by
  have hsteps := hfollows state
  generalize program.after state = state' at hsteps ⊢
  induction hsteps with
  | refl => rfl
  | tail _ hlast ih => exact hlast.trans ih

theorem runTestFn_uncounted (run : ShrinkRun) :
    Program.Follows SameUncounted (runTestFn testFn run) := by
  apply Program.follows_of_move
  intro state
  have heffect := runTestFn_effect testFn state run
  rw [Program.after]
  generalize (runTestFn testFn run).exec state = reached at heffect
  have hsame {state' : ShrinkState World} (hretimed : state.Retimed state') :
      SameUncounted state state' := by
    rw [SameUncounted, ShrinkState.uncounted, hretimed.history,
      ShrinkState.uncounted]
  cases heffect with
  | refused _ hretimed => exact hsame hretimed
  | halted _ _ hretimed => exact hsame hretimed
  | answered _ _ hretimed => exact hsame hretimed

theorem note_uncounted {event : ShrinkEvent}
    (hquiet : event.uncounted = false) :
    Program.Follows SameUncounted (note event : ShrinkM World PUnit) :=
  Program.follows_of_move fun state => state.uncounted_append_of_quiet hquiet

theorem modifyShrinker_uncounted (change : Shrinker → Shrinker) :
    Program.Follows SameUncounted
      (modifyShrinker change : ShrinkM World PUnit) :=
  Program.follows_of_move fun _ => rfl

theorem adopt_uncounted (run : ShrinkRun) :
    Program.Follows SameUncounted (adopt testFn run) := by
  apply Program.follows_bind (runTestFn_uncounted testFn run)
  intro outcome
  apply Program.follows_bind (modifyShrinker_uncounted _)
  intro _
  apply Program.follows_bind Program.follows_get
  intro state
  apply Program.follows_ite
  · intro _
    apply Program.follows_bind (note_uncounted rfl)
    intro _
    exact Program.follows_bind (modifyShrinker_uncounted _)
      fun _ => Program.follows_pure _
  · intro _
    exact Program.follows_bind (note_uncounted rfl)
      fun _ => Program.follows_pure _

/-- Taking a canonical sequence changes no counter, and leaves an improvement
out of the count exactly when it is one. -/
theorem canonicalise_counts (attempt : List ChoiceNode)
    (state : ShrinkState World) :
    let state' := (canonicalise testFn attempt).after state
    state'.shrinker.maxImprovements = state.shrinker.maxImprovements ∧
      state'.shrinker.improvements = state.shrinker.improvements ∧
        ((Improves testFn (.full attempt) state ∧
            state'.uncounted = state.uncounted + 1) ∨
          (¬Improves testFn (.full attempt) state ∧
            state'.uncounted = state.uncounted)) := by
  intro reached
  have heffect := runTestFn_effect testFn state (.full attempt)
  have hcount := uncounted_of_follows
    (runTestFn_uncounted testFn (.full attempt)) state
  have hreached : reached = (canonicalise testFn attempt).after state := rfl
  rcases hrun : (runTestFn testFn (.full attempt)).exec state with
    ⟨result, state'⟩
  rw [hrun] at heffect
  rw [Program.after, hrun] at hcount
  cases heffect with
  | refused _ hretimed =>
      obtain ⟨timedOut, hshrinker⟩ := hretimed.shrinker
      rw [canonicalise, Program.after_bind_error hrun] at hreached
      rw [hreached, hshrinker]
      exact ⟨rfl, rfl, .inr ⟨not_improves_of_halted testFn hrun, hcount⟩⟩
  | halted _ _ hretimed =>
      obtain ⟨timedOut, hshrinker⟩ := hretimed.shrinker
      rw [canonicalise, Program.after_bind_error hrun] at hreached
      rw [hreached, hshrinker]
      exact ⟨rfl, rfl, .inr ⟨not_improves_of_halted testFn hrun, hcount⟩⟩
  | answered outcome _ hretimed =>
      obtain ⟨timedOut, hshrinker⟩ := hretimed.shrinker
      have hnodes : state'.shrinker.currentNodes = state.currentNodes := by
        rw [hshrinker]
        rfl
      rw [canonicalise, Program.after, Program.exec_bind, hrun] at hreached
      simp only [Program.exec_bind, modifyShrinker, Program.exec_modify,
        Program.exec_get, hnodes] at hreached
      rw [improves_iff testFn hrun]
      by_cases hfails : outcome.isInteresting = true ∧
          (nodesSortKeyCmp outcome.actualNodes state.currentNodes).isLE = true
      · simp only [if_pos hfails, Program.exec_bind, note,
          Program.exec_modify] at hreached
        refine ⟨by rw [hreached, hshrinker], by rw [hreached, hshrinker], ?_⟩
        have huncounted : reached.uncounted = state'.uncounted +
            (if decide (nodesSortKeyCmp outcome.actualNodes
              state.currentNodes = .lt) then 1 else 0) := by
          rw [hreached]
          exact state'.uncounted_append (.canonicalised state.currentNodes outcome)
        rw [huncounted, hcount]
        by_cases hsmaller :
            nodesSortKeyCmp outcome.actualNodes state.currentNodes = .lt
        · exact .inl ⟨⟨hfails.1, hsmaller⟩, by rw [decide_eq_true hsmaller]; rfl⟩
        · exact .inr ⟨fun himproves => hsmaller himproves.2, by
            rw [decide_eq_false hsmaller]; rfl⟩
      · simp only [if_neg hfails, note, Program.exec_modify] at hreached
        refine ⟨by rw [hreached, hshrinker], by rw [hreached, hshrinker],
          .inr ⟨?_, ?_⟩⟩
        · rintro ⟨hinteresting, hsmaller⟩
          exact hfails ⟨hinteresting, by rw [hsmaller]; rfl⟩
        · rw [hreached, ← hcount]
          exact state'.uncounted_append_of_quiet rfl

end Operations

section Keeping

/-- Wherever the program stops, it has kept to the cap. -/
def KeepsCap {Value : Type} (program : ShrinkM World Value) : Prop :=
  ∀ state : ShrinkState World, state.Capped (program.after state)

variable {Value Value' : Type}

theorem keepsCap_pure (value : Value) :
    KeepsCap (pure value : ShrinkM World Value) :=
  fun state => .refl state

theorem keepsCap_throw (halt : ShrinkHalt) :
    KeepsCap (throw halt : ShrinkM World Value) :=
  fun state => .refl state

theorem keepsCap_get : KeepsCap (get : ShrinkM World (ShrinkState World)) :=
  fun state => .refl state

/-- What goes on after a program that has kept to the cap. -/
theorem capped_bind {state : ShrinkState World}
    {program : ShrinkM World Value} {next : Value → ShrinkM World Value'}
    (hprogram : state.Capped (program.after state))
    (hnext : ∀ value, KeepsCap (next value)) :
    state.Capped ((program >>= next).after state) := by
  rw [Program.after] at hprogram
  rcases hexec : program.exec state with ⟨result, state'⟩
  rw [hexec] at hprogram
  cases result with
  | ok value =>
      rw [Program.after_bind_ok hexec]
      exact hprogram.trans (hnext value state')
  | error halt =>
      rw [Program.after_bind_error hexec]
      exact hprogram

theorem keepsCap_bind {program : ShrinkM World Value}
    {next : Value → ShrinkM World Value'} (hprogram : KeepsCap program)
    (hnext : ∀ value, KeepsCap (next value)) : KeepsCap (program >>= next) :=
  fun state => capped_bind (hprogram state) hnext

theorem capped_ite {state : ShrinkState World} {condition : Prop}
    [Decidable condition] {first second : ShrinkM World Value}
    (hfirst : condition → state.Capped (first.after state))
    (hsecond : ¬condition → state.Capped (second.after state)) :
    state.Capped
      (Program.after (if condition then first else second) state) := by
  by_cases hcondition : condition
  · rw [if_pos hcondition]
    exact hfirst hcondition
  · rw [if_neg hcondition]
    exact hsecond hcondition

theorem keepsCap_modifyShrinker {change : Shrinker → Shrinker}
    (hcap : ∀ shrinker,
      (change shrinker).maxImprovements = shrinker.maxImprovements)
    (himprovements : ∀ shrinker,
      (change shrinker).improvements = shrinker.improvements) :
    KeepsCap (modifyShrinker change : ShrinkM World PUnit) :=
  fun _ => .of_same (hcap _) (himprovements _) rfl

theorem keepsCap_note {event : ShrinkEvent}
    (hquiet : event.uncounted = false) :
    KeepsCap (note event : ShrinkM World PUnit) :=
  fun state => .of_same rfl rfl (state.uncounted_append_of_quiet hquiet)

variable (testFn : ShrinkProbe World)

theorem runTestFn_keepsCap (run : ShrinkRun) :
    KeepsCap (runTestFn testFn run) := by
  intro state
  have heffect := runTestFn_effect testFn state run
  rw [Program.after]
  generalize (runTestFn testFn run).exec state = reached at heffect
  cases heffect with
  | refused _ hretimed => exact hretimed.capped
  | halted _ _ hretimed => exact hretimed.capped
  | answered _ _ hretimed => exact hretimed.capped

theorem inspect_keepsCap (run : ShrinkRun) : KeepsCap (inspect testFn run) := by
  apply keepsCap_bind (runTestFn_keepsCap testFn run)
  intro outcome
  exact keepsCap_bind (keepsCap_note rfl) fun _ => keepsCap_pure outcome

theorem visit_keepsCap (run : ShrinkRun) : KeepsCap (visit testFn run) := by
  apply keepsCap_bind
  · intro state
    rw [callTestFn, Program.after, Program.exec_ofExec]
    exact .of_same rfl rfl rfl
  · intro outcome
    exact keepsCap_bind (keepsCap_note rfl) fun _ => keepsCap_pure outcome

theorem canonicalise_rises (attempt : List ChoiceNode)
    (state : ShrinkState World) :
    state.Rises ((canonicalise testFn attempt).after state) := by
  obtain ⟨hcap, hcount, ⟨-, huncounted⟩ | ⟨-, huncounted⟩⟩ :=
    canonicalise_counts testFn attempt state
  · exact ⟨hcap, hcount.ge, huncounted ▸ Nat.le_succ _⟩
  · exact ⟨hcap, hcount.ge, huncounted.ge⟩

/-- Taking a canonical sequence is accounted for unless it is an
improvement. -/
theorem canonicalise_accounted {attempt : List ChoiceNode}
    {state : ShrinkState World} (haccounted : state.Accounted) :
    ((canonicalise testFn attempt).after state).Accounted ↔
      ¬Improves testFn (.full attempt) state := by
  obtain ⟨hcap, hcount, ⟨himproves, huncounted⟩ | ⟨hquiet, huncounted⟩⟩ :=
    canonicalise_counts testFn attempt state
  · refine iff_of_false (fun hafter => ?_) fun hquiet => hquiet himproves
    have hnone := hafter.uncounted
    omega
  · exact iff_of_true
      ((ShrinkState.Capped.of_same hcap hcount huncounted).accounted haccounted)
      hquiet

theorem adopt_rises (run : ShrinkRun) (state : ShrinkState World) :
    state.Rises ((adopt testFn run).after state) := by
  have huncounted := uncounted_of_follows (adopt_uncounted testFn run) state
  obtain ⟨hcap, ⟨-, -, hcount⟩ | ⟨-, -, hcount⟩⟩ := adopt_counts testFn run state
  · exact ⟨hcap, hcount ▸ Nat.le_succ _, huncounted.ge⟩
  · exact ⟨hcap, hcount.ge, huncounted.ge⟩

/-- Below the cap, one improvement more keeps to it. -/
theorem adopt_capped {run : ShrinkRun} {state : ShrinkState World}
    (hbelow : ¬state.shrinker.improvements ≥ state.shrinker.maxImprovements) :
    state.Capped ((adopt testFn run).after state) := by
  refine ⟨adopt_rises testFn run state, fun haccounted => ⟨?_, ?_⟩⟩
  · rw [uncounted_of_follows (adopt_uncounted testFn run) state]
    exact haccounted.uncounted
  · obtain ⟨hcap, ⟨-, -, hcount⟩ | ⟨-, -, hcount⟩⟩ :=
      adopt_counts testFn run state
    · rw [Program.after, hcap, hcount]
      omega
    · rw [Program.after, hcap, hcount]
      exact haccounted.improvements

theorem consider_keepsCap (nodes : List ChoiceNode) :
    KeepsCap (consider testFn nodes) := by
  intro state
  rw [consider, Program.after_bind_ok (Program.exec_get state)]
  apply capped_ite (fun _ => .refl state) fun _ => ?_
  apply capped_ite (fun _ => .refl state) fun _ => ?_
  apply capped_ite (fun _ => .refl state) fun _ => ?_
  apply capped_ite (fun _ => .refl state) fun hbelow => ?_
  apply capped_ite (fun _ => .refl state) fun _ => ?_
  exact capped_bind (adopt_capped testFn hbelow) fun _ => keepsCap_pure _

theorem probe_keepsCap (prefixValues : List ChoiceValue) (maxSize : Nat) :
    KeepsCap (probe testFn prefixValues maxSize) := by
  intro state
  rw [probe, Program.after_bind_ok (Program.exec_get state)]
  apply capped_ite (fun _ => .refl state) fun hbelow => ?_
  apply capped_ite (fun _ => .refl state) fun _ => ?_
  exact capped_bind (adopt_capped testFn hbelow) fun _ => keepsCap_pure _

theorem replayObservingDivergence_keepsCap (snapshot : List ChoiceNode)
    (newVal : ChoiceValue) (i : Nat) :
    KeepsCap (replayObservingDivergence testFn snapshot newVal i) := by
  intro state
  rw [replayObservingDivergence, Program.after_bind_ok (Program.exec_get state)]
  apply capped_ite (fun _ => .refl state) fun hbelow => ?_
  apply capped_ite (fun _ => .refl state) fun _ => ?_
  cases snapshot[i]?.bind (·.withValue newVal) with
  | none => exact .refl state
  | some replaced =>
      exact capped_bind (adopt_capped testFn hbelow) fun _ => keepsCap_pure _

/-- The operations that passes are made of keep to the cap. -/
theorem keepsCap_operations :
    OperationLogic testFn fun _ program => KeepsCap program where
  pure := keepsCap_pure
  throw := keepsCap_throw
  bind := keepsCap_bind
  get := keepsCap_get
  inspect := inspect_keepsCap testFn
  consider := consider_keepsCap testFn
  probe := probe_keepsCap testFn
  replayObservingDivergence := replayObservingDivergence_keepsCap testFn

/-- What a nested shrink does to the outer history is inspect runs. -/
theorem worldStep_uncounted {template : List ChoiceNode}
    {outerValues : List ChoiceValue} {i : Nat}
    {world world' : World × List ShrinkEvent}
    (hstep : WorldStep (nestedCloneProbe testFn template outerValues i)
      world world') :
    world'.2.countP ShrinkEvent.uncounted =
      world.2.countP ShrinkEvent.uncounted := by
  cases hstep with
  | ran run =>
      rw [nestedCloneProbe]
      dsimp only
      cases testFn.run world.1 (nestedRun template outerValues i run) with
      | mk answer outer =>
          cases answer with
          | error halt => rfl
          | ok outcome =>
              dsimp only
              rw [List.countP_append]
              rfl
  | read => rfl

theorem worldSteps_uncounted {template : List ChoiceNode}
    {outerValues : List ChoiceValue} {i : Nat}
    {world world' : World × List ShrinkEvent}
    (hsteps : Relation.ReflTransGen
      (WorldStep (nestedCloneProbe testFn template outerValues i))
      world world') :
    world'.2.countP ShrinkEvent.uncounted =
      world.2.countP ShrinkEvent.uncounted := by
  induction hsteps with
  | refl => rfl
  | tail _ hlast ih => exact (worldStep_uncounted testFn hlast).trans ih

/-- A nested shrink counts for itself. -/
theorem shrinkNested_keepsCap {nestedShrink : NestedShrink World}
    (hnested : ∀ nested,
      Program.Follows (ShrinkMove nested) (nestedShrink nested))
    (i : Nat) (stream : RealizedStream) :
    KeepsCap (shrinkNested testFn nestedShrink i stream) := by
  intro state
  have huncounted := worldSteps_uncounted testFn (worldSteps_of_reaches
    (hnested (nestedCloneProbe testFn state.shrinker.currentNodes
      (state.shrinker.currentNodes.map ChoiceNode.value) i)
      (nestedStart state stream)))
  rw [Program.after, shrinkNested, Program.exec_ofExec]
  dsimp only
  rw [Program.after] at huncounted
  generalize (nestedShrink _).exec _ = nested at huncounted
  rw [afterNested.eq_def]
  split
  · exact .of_same rfl rfl huncounted
  · exact .of_same rfl rfl huncounted

end Keeping

section Runs

variable (testFn : ShrinkProbe World)

/-- At the cap, the span with its simplest values is a smaller failure. -/
def TrivialSpanExceeds (i : Nat) (span : Span) (state : ShrinkState World) :
    Prop :=
  state.shrinker.maxImprovements ≤ state.shrinker.improvements ∧
    span.stop ≤ state.shrinker.currentNodes.length ∧
    spanTrivial state.shrinker.currentSpans i state.shrinker.currentNodes =
      .ok false ∧
    ∃ attempt,
      simplifySpan span state.shrinker.currentNodes = .ok attempt ∧
        Improves testFn (.full attempt) state

/-- No span exceeds the cap while the spans are made trivial one by one. -/
def TrivialSpansRespectCap : Nat → Nat → ShrinkState World → Prop
  | 0, _, _ => True
  | rounds + 1, i, state =>
      match state.shrinker.currentSpans[i]? with
      | none => True
      | some span =>
          ¬TrivialSpanExceeds testFn i span state ∧
            match (tryTrivialSpan testFn i span).exec state with
            | (.ok _, state') => TrivialSpansRespectCap rounds (i + 1) state'
            | (.error _, _) => True

/-- The target with the canonical NaN in the place of another one, where it is
tried. -/
def canonicalNan (fc : FloatChoice) (i : Nat) (v : Binary64) :
    ShrinkM World (Option (List ChoiceNode)) := do
  let stepped ← stepTo testFn fc i [.maxFinite, .infinity]
  if !stepped && decide (v.bits ≠ Binary64.nan.bits) &&
      fc.validate .nan then
    let current := (← get).shrinker.currentNodes
    return current[i]?.map fun node =>
      current.set i (.mk (.float fc .nan) node.wasForced)
  else return none

def canonicalNanAt (fc : FloatChoice) (i : Nat) :
    ShrinkM World (Option (List ChoiceNode)) := do
  match ← floatAt i with
  | none => return none
  | some v => if v.isNan then canonicalNan testFn fc i v else return none

def canonicalSpecial (fc : FloatChoice) (i : Nat) :
    ShrinkM World (Option (List ChoiceNode)) := do
  match ← floatAt i with
  | none => return none
  | some v =>
      if v.isInfinite then
        stepFromInfinity testFn fc i v
        canonicalNanAt testFn fc i
      else canonicalNanAt testFn fc i

/-- The pass over a float up to the canonical sequence that it tries, if it
does. -/
def canonicalFloat (i : Nat) : ShrinkM World (Option (List ChoiceNode)) := do
  match (← get).shrinker.currentNodes[i]? with
  | some (.mk (.float fc v) _) =>
      let s ← liftEngine fc.simplest
      if s.bits ≠ v.bits then
        let _ ← replace testFn [(i, .float s)]
        canonicalSpecial testFn fc i
      else canonicalSpecial testFn fc i
  | _ => return none

/-- The pass over a float comes to a canonical sequence that is a smaller
failure. -/
def CanonicalNanImproves (i : Nat) (state : ShrinkState World) : Prop :=
  ∃ attempt state',
    (canonicalFloat testFn i).exec state = (.ok (some attempt), state') ∧
      Improves testFn (.full attempt) state'

/-- While a pass is performed, no span exceeds the cap and no canonical NaN is
an improvement. -/
structure PassRespectsCap (pass : ShrinkPass) (state : ShrinkState World) :
    Prop where
  spans : ∀ rounds, pass = .tryTrivialSpans rounds →
    TrivialSpansRespectCap testFn rounds 0 state
  nans : ∀ i, pass = .shrinkSpecialFloat i →
    ¬CanonicalNanImproves testFn i state

/-- The passes respect the cap, performed one by one. -/
def RespectsCap : List ShrinkPass → ShrinkState World → Prop
  | [], _ => True
  | pass :: rest, state => PassRespectsCap testFn pass state ∧
      match (pass.perform testFn).exec state with
      | (.ok _, state') => RespectsCap rest state'
      | (.error _, _) => True

variable {state state' : ShrinkState World}

/-- No operation takes an improvement back. -/
theorem ShrinkMove.rises (hmove : ShrinkMove testFn state state') :
    state.Rises state' := by
  obtain ⟨call, rfl⟩ := hmove
  cases call with
  | adopt run =>
      rw [ShrinkCall.perform, Program.after_bind_pure]
      exact adopt_rises testFn run state
  | inspect run =>
      rw [ShrinkCall.perform, Program.after_bind_pure]
      exact (inspect_keepsCap testFn run state).toRises
  | canonicalise attempt => exact canonicalise_rises testFn attempt state
  | visit run =>
      rw [ShrinkCall.perform, Program.after_bind_pure]
      exact (visit_keepsCap testFn run state).toRises
  | readClock => exact ⟨rfl, le_rfl, le_rfl⟩
  | latchTimeout => exact ⟨rfl, le_rfl, le_rfl⟩
  | clearChangeTracking => exact ⟨rfl, le_rfl, le_rfl⟩
  | enterIteration => exact ⟨rfl, le_rfl, le_rfl⟩
  | growMaxStall target => exact ⟨rfl, le_rfl, le_rfl⟩

theorem rises_of_reaches (hreaches : ShrinkReaches testFn state state') :
    state.Rises state' := by
  induction hreaches with
  | refl => exact .refl state
  | tail _ hlast ih => exact ih.trans (hlast.rises testFn)

/-- A sequence of programs keeps within the cap when both parts do, the second
only where it is performed. -/
theorem accounted_bind_iff {program : ShrinkM World PUnit}
    {next : ShrinkM World PUnit} {first : Prop}
    {second : ShrinkState World → Prop}
    (hfirst : (program.after state).Accounted ↔ first)
    (hrises : ∀ state' : ShrinkState World, state'.Rises (next.after state'))
    (hsecond : ∀ state' : ShrinkState World, state'.Accounted →
      ((next.after state').Accounted ↔ second state')) :
    ((program >>= fun _ => next).after state).Accounted ↔
      first ∧ match program.exec state with
        | (.ok _, state') => second state'
        | (.error _, _) => True := by
  rw [← hfirst]
  rcases hexec : program.exec state with ⟨result, state'⟩
  have hafter : program.after state = state' := congrArg Prod.snd hexec
  rw [hafter]
  cases result with
  | ok value =>
      rw [Program.after_bind_ok hexec]
      constructor
      · intro haccounted
        have hmiddle := (hrises state').accounted_of_accounted haccounted
        exact ⟨hmiddle, (hsecond state' hmiddle).mp haccounted⟩
      · rintro ⟨hmiddle, hrest⟩
        exact (hsecond state' hmiddle).mpr hrest
  | error halt =>
      rw [Program.after_bind_error hexec]
      exact (and_iff_left trivial).symm

theorem liftEngine_ok {Value : Type} (value : Value) :
    (liftEngine (.ok value) : ShrinkM World Value) = pure value := rfl

theorem liftEngine_error {Value : Type} (error : InternalError) :
    (liftEngine (.error error) : ShrinkM World Value) =
      throw (.error (.internal error)) := rfl

/-- A run that is made at any time exceeds the cap exactly when it improves the
target at the cap, if it is left alone after an improvement. -/
theorem adopted_accounted {run : ShrinkRun} (haccounted : state.Accounted)
    {next : Bool × ShrinkOutcome → ShrinkM World PUnit}
    (hadopted : ∀ outcome, next (true, outcome) = pure ⟨⟩)
    (hnext : ∀ outcome, KeepsCap (next (false, outcome))) :
    ((adopt testFn run >>= next).after state).Accounted ↔
      ¬(state.shrinker.maxImprovements ≤ state.shrinker.improvements ∧
        Improves testFn run state) := by
  have hcounts := adopt_counts testFn run state
  have huncounted := uncounted_of_follows (adopt_uncounted testFn run) state
  rcases hexec : (adopt testFn run).exec state with ⟨result, state'⟩
  rw [Program.after, hexec] at huncounted
  rw [hexec] at hcounts
  obtain ⟨hcap, ⟨himproves, ⟨outcome, hresult⟩, hcount⟩ |
    ⟨hquiet, hresult, hcount⟩⟩ := hcounts
  · dsimp only at hcap hresult hcount
    subst hresult
    rw [Program.after_bind_ok hexec, hadopted, and_iff_left himproves]
    show state'.Accounted ↔ _
    constructor
    · intro hafter hcapped
      have hbelow := hafter.improvements
      omega
    · intro hbelow
      exact ⟨huncounted.trans haccounted.uncounted, by omega⟩
  · refine iff_of_true ?_ fun hexceeds => hquiet hexceeds.2
    have hkept : state'.Accounted :=
      (ShrinkState.Capped.of_same hcap hcount huncounted).accounted haccounted
    cases result with
    | error halt =>
        rw [Program.after_bind_error hexec]
        exact hkept
    | ok answer =>
        obtain ⟨adopted, outcome⟩ := answer
        obtain rfl : adopted = false := Bool.eq_false_iff.mpr fun htrue =>
          hresult outcome (htrue ▸ rfl)
        rw [Program.after_bind_ok hexec]
        exact (hnext outcome state').accounted hkept

/-- Making one span trivial exceeds the cap exactly when it improves the target
at the cap. -/
theorem tryTrivialSpan_accounted (i : Nat) (span : Span)
    (haccounted : state.Accounted) :
    ((tryTrivialSpan testFn i span).after state).Accounted ↔
      ¬TrivialSpanExceeds testFn i span state := by
  have hspared (hquiet : ¬TrivialSpanExceeds testFn i span state) :
      state.Accounted ↔ ¬TrivialSpanExceeds testFn i span state :=
    iff_of_true haccounted hquiet
  rw [tryTrivialSpan, Program.after_bind_ok (Program.exec_get state)]
  by_cases hstop : span.stop > state.shrinker.currentNodes.length
  · rw [if_pos hstop]
    exact hspared fun hexceeds => absurd hexceeds.2.1 (Nat.not_le.mpr hstop)
  · rw [if_neg hstop]
    cases htrivial : spanTrivial state.shrinker.currentSpans i
      state.shrinker.currentNodes with
    | error error =>
        rw [liftEngine_error, Program.after_bind_error (Program.exec_throw _ _)]
        refine hspared fun hexceeds => ?_
        exact absurd (htrivial.symm.trans hexceeds.2.2.1) (by simp)
    | ok trivial =>
        rw [liftEngine_ok, Program.after_bind_ok (Program.exec_pure _ _)]
        cases trivial with
        | true =>
            refine hspared fun hexceeds => ?_
            exact absurd (htrivial.symm.trans hexceeds.2.2.1) (by simp)
        | false =>
            rw [if_neg Bool.false_ne_true]
            cases hattempt :
              simplifySpan span state.shrinker.currentNodes with
            | error error =>
                rw [liftEngine_error,
                  Program.after_bind_error (Program.exec_throw _ _)]
                refine hspared fun hexceeds => ?_
                obtain ⟨attempt, hsome, -⟩ := hexceeds.2.2.2
                exact absurd (hattempt.symm.trans hsome) (by simp)
            | ok attempt =>
                rw [liftEngine_ok, Program.after_bind_ok (Program.exec_pure _ _)]
                have hexceeds : TrivialSpanExceeds testFn i span state ↔
                    state.shrinker.maxImprovements ≤
                      state.shrinker.improvements ∧
                        Improves testFn (.full attempt) state := by
                  constructor
                  · rintro ⟨hcap, -, -, attempt', hsome, himproves⟩
                    obtain rfl := Except.ok.inj (hattempt.symm.trans hsome)
                    exact ⟨hcap, himproves⟩
                  · rintro ⟨hcap, himproves⟩
                    exact ⟨hcap, Nat.not_lt.mp hstop, htrivial, attempt,
                      hattempt, himproves⟩
                rw [hexceeds]
                apply adopted_accounted testFn haccounted
                · exact fun outcome => rfl
                · intro outcome
                  apply keepsCap_bind keepsCap_get
                  intro reached state'
                  apply capped_ite
                  · exact fun _ => retrySpan_holds (keepsCap_operations testFn)
                      i span outcome state'
                  · exact fun _ => .refl state'

theorem tryTrivialSpans_accounted (rounds i : Nat) (haccounted : state.Accounted) :
    ((tryTrivialSpans testFn rounds i).after state).Accounted ↔
      TrivialSpansRespectCap testFn rounds i state := by
  induction rounds generalizing i state with
  | zero => exact iff_of_true haccounted trivial
  | succ rounds ih =>
      rw [tryTrivialSpans, Program.after_bind_ok (Program.exec_get state),
        TrivialSpansRespectCap]
      cases state.shrinker.currentSpans[i]? with
      | none => exact iff_of_true haccounted trivial
      | some span =>
          apply accounted_bind_iff
            (tryTrivialSpan_accounted testFn i span haccounted)
          · exact fun state' => rises_of_reaches testFn
              (tryTrivialSpans_holds (shrinkMove_passLogic testFn) rounds (i + 1)
                state')
          · exact fun state' hstate => ih (i + 1) hstate

/-- Try a canonical sequence, if there is one. -/
def tryCanonical : Option (List ChoiceNode) → ShrinkM World PUnit
  | none => return ()
  | some attempt => canonicalise testFn attempt

theorem canonicaliseNan_eq (fc : FloatChoice) (i : Nat) (v : Binary64) :
    canonicaliseNan testFn fc i v =
      canonicalNan testFn fc i v >>= tryCanonical testFn := by
  rw [canonicaliseNan, canonicalNan, bind_assoc]
  congr 1
  funext stepped
  split
  · rw [bind_assoc]
    congr 1
    funext state
    dsimp only
    cases state.shrinker.currentNodes[i]? with
    | none => rfl
    | some node => rfl
  · rfl

theorem leaveNan_eq (fc : FloatChoice) (i : Nat) :
    leaveNan testFn fc i =
      canonicalNanAt testFn fc i >>= tryCanonical testFn := by
  rw [leaveNan, canonicalNanAt, bind_assoc]
  congr 1
  funext found
  cases found with
  | none => rfl
  | some v =>
      dsimp only
      split
      · exact canonicaliseNan_eq testFn fc i v
      · rfl

theorem leaveSpecial_eq (fc : FloatChoice) (i : Nat) :
    leaveSpecial testFn fc i =
      canonicalSpecial testFn fc i >>= tryCanonical testFn := by
  rw [leaveSpecial, canonicalSpecial, bind_assoc]
  congr 1
  funext found
  cases found with
  | none => rfl
  | some v =>
      dsimp only
      rw [leaveNan_eq]
      split
      · rw [bind_assoc]
      · rfl

theorem shrinkSpecialFloat_eq (i : Nat) :
    shrinkSpecialFloat testFn i =
      canonicalFloat testFn i >>= tryCanonical testFn := by
  rw [shrinkSpecialFloat, canonicalFloat, bind_assoc]
  congr 1
  funext state
  rcases state.shrinker.currentNodes[i]? with _ | ⟨data, wasForced⟩
  · rfl
  · cases data with
    | float fc v =>
        dsimp only
        rw [bind_assoc]
        congr 1
        funext s
        rw [leaveSpecial_eq]
        split
        · rw [bind_assoc]
        · rfl
    | _ => rfl

theorem canonicalNanAt_keepsCap (fc : FloatChoice) (i : Nat) :
    KeepsCap (canonicalNanAt testFn fc i) := by
  have hlogic := keepsCap_operations testFn
  apply keepsCap_bind (floatAt_holds hlogic i)
  intro found
  cases found with
  | none => exact keepsCap_pure none
  | some v =>
      apply hlogic.ite (fun _ => ?_) fun _ => keepsCap_pure none
      apply keepsCap_bind (stepTo_holds hlogic fc i _)
      intro stepped
      apply hlogic.ite (fun _ => ?_) fun _ => keepsCap_pure none
      exact keepsCap_bind keepsCap_get fun _ => keepsCap_pure _

theorem canonicalSpecial_keepsCap (fc : FloatChoice) (i : Nat) :
    KeepsCap (canonicalSpecial testFn fc i) := by
  have hlogic := keepsCap_operations testFn
  apply keepsCap_bind (floatAt_holds hlogic i)
  intro found
  cases found with
  | none => exact keepsCap_pure none
  | some v =>
      apply hlogic.ite (fun _ => ?_)
        fun _ => canonicalNanAt_keepsCap testFn fc i
      exact keepsCap_bind (stepFromInfinity_holds hlogic fc i v)
        fun _ => canonicalNanAt_keepsCap testFn fc i

/-- Up to the canonical sequence, the pass over a float keeps to the cap. -/
theorem canonicalFloat_keepsCap (i : Nat) :
    KeepsCap (canonicalFloat testFn i) := by
  have hlogic := keepsCap_operations testFn
  apply keepsCap_bind keepsCap_get
  intro state
  split
  case h_1 fc v wasForced _ =>
    apply keepsCap_bind (liftEngine_holds hlogic _)
    intro s
    apply hlogic.ite (fun _ => ?_) fun _ => canonicalSpecial_keepsCap testFn fc i
    exact keepsCap_bind (replace_holds hlogic _)
      fun _ => canonicalSpecial_keepsCap testFn fc i
  case h_2 => exact keepsCap_pure none

theorem shrinkSpecialFloat_accounted (i : Nat) (haccounted : state.Accounted) :
    ((shrinkSpecialFloat testFn i).after state).Accounted ↔
      ¬CanonicalNanImproves testFn i state := by
  have hkept := (canonicalFloat_keepsCap testFn i state).accounted haccounted
  rw [shrinkSpecialFloat_eq]
  rcases hexec : (canonicalFloat testFn i).exec state with ⟨result, state'⟩
  rw [Program.after, hexec] at hkept
  have hquiet (hnone : ∀ attempt, result ≠ .ok (some attempt)) :
      ¬CanonicalNanImproves testFn i state := by
    rintro ⟨attempt, state'', hattempt, -⟩
    rw [hexec] at hattempt
    exact hnone attempt (congrArg Prod.fst hattempt)
  cases result with
  | error halt =>
      rw [Program.after_bind_error hexec]
      exact iff_of_true hkept (hquiet (by simp))
  | ok found =>
      rw [Program.after_bind_ok hexec]
      cases found with
      | none => exact iff_of_true hkept (hquiet (by simp))
      | some attempt =>
          rw [tryCanonical, canonicalise_accounted testFn hkept]
          apply not_congr
          constructor
          · exact fun himproves => ⟨attempt, state', hexec, himproves⟩
          · rintro ⟨attempt', state'', hattempt, himproves⟩
            rw [hexec] at hattempt
            obtain ⟨hresult, rfl⟩ := Prod.mk.inj hattempt
            obtain rfl := Option.some.inj (Except.ok.inj hresult)
            exact himproves

/-- The passes that neither make spans trivial nor look at NaNs keep to the
cap. -/
theorem perform_keepsCap (pass : ShrinkPass)
    (hspans : ∀ rounds, pass ≠ .tryTrivialSpans rounds)
    (hfloats : ∀ i, pass ≠ .shrinkSpecialFloat i) :
    KeepsCap (pass.perform testFn) := by
  have hlogic := keepsCap_operations testFn
  cases pass with
  | consider nodes =>
      exact keepsCap_bind (consider_keepsCap testFn nodes)
        fun _ => keepsCap_pure _
  | probe prefixValues maxSize => exact probe_keepsCap testFn prefixValues maxSize
  | replace values =>
      exact keepsCap_bind (replace_holds hlogic values)
        fun _ => keepsCap_pure _
  | inspect run =>
      exact keepsCap_bind (inspect_keepsCap testFn run) fun _ => keepsCap_pure _
  | clearChangeTracking =>
      exact keepsCap_modifyShrinker (fun _ => rfl) fun _ => rfl
  | enterIteration =>
      exact keepsCap_modifyShrinker (fun _ => rfl) fun _ => rfl
  | growMaxStall target =>
      exact keepsCap_modifyShrinker (fun _ => rfl) fun _ => rfl
  | removeDiscarded rounds =>
      exact keepsCap_bind (removeDiscarded_holds hlogic rounds)
        fun _ => keepsCap_pure _
  | tryTrivialSpans rounds => exact absurd rfl (hspans rounds)
  | shrinkSpecialFloat i => exact absurd rfl (hfloats i)
  | mutateAndShrink rounds => exact mutateAndShrink_holds hlogic rounds
  | tryReplaceWithDeletion idx value expectedLen =>
      exact keepsCap_bind (tryReplaceWithDeletion_holds hlogic idx value
        expectedLen) fun _ => keepsCap_pure _
  | reduceEachAlternative rounds =>
      exact reduceEachAlternative_holds hlogic rounds 0
  | shrinkCloneStreams schedule rounds =>
      exact shrinkCloneStreams_holds hlogic
        (fun i stream => shrinkNested_keepsCap testFn
          (fun nested => ShrinkPass.performAll_follows schedule nested)
          i stream) rounds 0

theorem perform_accounted_iff (pass : ShrinkPass)
    (haccounted : state.Accounted) :
    ((pass.perform testFn).after state).Accounted ↔
      PassRespectsCap testFn pass state := by
  by_cases hspans : ∃ rounds, pass = .tryTrivialSpans rounds
  · obtain ⟨rounds, rfl⟩ := hspans
    rw [ShrinkPass.perform, tryTrivialSpans_accounted testFn rounds 0 haccounted]
    constructor
    · refine fun hrespects => ⟨fun rounds' hsame => ?_, fun i hsame => ?_⟩
      · obtain rfl := ShrinkPass.tryTrivialSpans.inj hsame
        exact hrespects
      · cases hsame
    · exact fun hrespects => hrespects.spans rounds rfl
  · have hspans' : ∀ rounds, pass ≠ .tryTrivialSpans rounds :=
      fun rounds hsame => hspans ⟨rounds, hsame⟩
    by_cases hfloats : ∃ i, pass = .shrinkSpecialFloat i
    · obtain ⟨i, rfl⟩ := hfloats
      rw [ShrinkPass.perform, shrinkSpecialFloat_accounted testFn i haccounted]
      constructor
      · refine fun hquiet => ⟨fun rounds hsame => ?_, fun i' hsame => ?_⟩
        · cases hsame
        · obtain rfl := ShrinkPass.shrinkSpecialFloat.inj hsame
          exact hquiet
      · exact fun hrespects => hrespects.nans i rfl
    · have hfloats' : ∀ i, pass ≠ .shrinkSpecialFloat i :=
        fun i hsame => hfloats ⟨i, hsame⟩
      refine iff_of_true ((perform_keepsCap testFn pass hspans' hfloats'
        state).accounted haccounted) ⟨fun rounds hsame => ?_, fun i hsame => ?_⟩
      · exact absurd hsame (hspans' rounds)
      · exact absurd hsame (hfloats' i)

theorem performAll_accounted_iff (schedule : List ShrinkPass)
    (haccounted : state.Accounted) :
    ((ShrinkPass.performAll schedule testFn).after state).Accounted ↔
      RespectsCap testFn schedule state := by
  induction schedule generalizing state with
  | nil =>
      rw [ShrinkPass.performAll]
      exact iff_of_true haccounted trivial
  | cons pass rest ih =>
      rw [ShrinkPass.performAll, RespectsCap]
      apply accounted_bind_iff (perform_accounted_iff testFn pass haccounted)
      · exact fun state' => rises_of_reaches testFn
          (ShrinkPass.performAll_follows rest testFn state')
      · exact fun state' hstate => ih hstate

/-- From any moment at which the cap is kept and all improvements were counted,
passes in whatever order accept no more of them than the cap, and count them
all, exactly when they respect the cap. -/
theorem performAll_within_iff (schedule : List ShrinkPass)
    (state : ShrinkState World) (hwithin : state.WithinCap)
    (hcounted : state.uncounted = 0) :
    let after := (ShrinkPass.performAll schedule testFn).after state
    after.WithinCap ∧ after.uncounted = 0 ↔
      RespectsCap testFn schedule state := by
  intro after
  rw [← after.accounted_iff]
  exact performAll_accounted_iff testFn schedule
    (state.accounted_iff.mpr ⟨hwithin, hcounted⟩)

end Runs

section Samples

def digitSpan : Span :=
  ⟨0, 1, "digit", 0, none, false⟩

/-- Everything that is run fails and records what was asked for. -/
def failingProbe : ShrinkProbe PUnit where
  run world request :=
    match request with
    | .full nodes => (.ok ⟨true, nodes, [digitSpan]⟩, world)
    | .probe _ _ => (.error .stop, world)
  now world := (none, world)

/-- A digit in a span, and no improvements allowed. -/
def cappedStart : ShrinkState PUnit :=
  let start : ShrinkState PUnit := .start
    [.mk (.integer ⟨0, 9, 0, IntegerChoice.digits_ordered⟩ 5) false]
    [digitSpan] none ⟨⟩
  { start with shrinker := { start.shrinker with maxImprovements := 0 } }

theorem performAll_within_start :
    let schedule : List ShrinkPass :=
      [.removeDiscarded 2, .shrinkSpecialFloat 0, .tryTrivialSpans 2]
    let after := (ShrinkPass.performAll schedule failingProbe).after cappedStart
    after.WithinCap ∧ after.uncounted = 0 ↔
      RespectsCap failingProbe schedule cappedStart :=
  performAll_within_iff failingProbe _ cappedStart le_rfl rfl

/-- The digit is made trivial although no improvement is allowed. -/
theorem tryTrivialSpans_exceeds :
    let after :=
      (ShrinkPass.performAll [.tryTrivialSpans 2] failingProbe).after cappedStart
    after.shrinker.maxImprovements = 0 ∧ after.accepted = 1 := by
  decide +kernel

/-- Nothing may be changed and no improvements are allowed: the canonical form
of a NaN is taken all the same, and the digits are dropped with it. -/
example :
    let start : ShrinkState PUnit := .start
      (nanAndDigits.map fun node => .mk node.data true) [digitsSpan] none ⟨⟩
    let after := (ShrinkPass.performAll [.shrinkSpecialFloat 0] nanProbe).after
      { start with shrinker := { start.shrinker with maxImprovements := 0 } }
    after.shrinker.maxImprovements = 0 ∧ after.accepted = 1 := by
  decide +kernel

end Samples

end Hegel
