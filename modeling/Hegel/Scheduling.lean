/-
The schedule of the shrink passes.  A pass is stepped as long as its steps
improve the target; an iteration steps every pass, and iterations go on as long
as any pass improved the target in the last one.  Every improvement descends
the order that shrinking follows, so the schedule comes to an end.
-/
import Hegel.ChangeTracking
import Hegel.Lib.Looping

namespace Hegel

section Lowering

variable {World : Type}

/-- What a run records has its caches right and its spans inside. -/
structure ShrinkOutcome.Realized (outcome : ShrinkOutcome) : Prop where
  coherent : NodesCoherent outcome.actualNodes
  inside : ∀ span ∈ outcome.actualSpans,
    span.stop ≤ outcome.actualNodes.length

/-- A test function that answers with what a run recorded. -/
structure RealizedProbe (World : Type) extends ShrinkProbe World where
  realized : ∀ world request outcome,
    (run world request).1 = .ok outcome → outcome.Realized

namespace ShrinkState

/-- The target is what a run recorded. -/
structure Realized (state : ShrinkState World) : Prop where
  coherent : NodesCoherent state.shrinker.currentNodes
  inside : ∀ span ∈ state.shrinker.currentSpans,
    span.stop ≤ state.shrinker.currentNodes.length

/-- The target stays, or improvements take it strictly down. -/
structure Lowers (state state' : ShrinkState World) : Prop where
  realized : state.Realized → state'.Realized
  improvements : state.shrinker.improvements ≤ state'.shrinker.improvements
  kept : state'.shrinker.improvements = state.shrinker.improvements →
    state'.currentNodes = state.currentNodes
  lowered : state.shrinker.improvements < state'.shrinker.improvements →
    nodesSortKeyCmp state'.currentNodes state.currentNodes = .lt

theorem Lowers.refl (state : ShrinkState World) : state.Lowers state where
  realized hrealized := hrealized
  improvements := le_rfl
  kept _ := rfl
  lowered hlt := absurd hlt (lt_irrefl _)

theorem Lowers.trans {first second third : ShrinkState World}
    (hfirst : first.Lowers second) (hsecond : second.Lowers third) :
    first.Lowers third where
  realized hrealized := hsecond.realized (hfirst.realized hrealized)
  improvements := hfirst.improvements.trans hsecond.improvements
  kept hsame := by
    have hle := hfirst.improvements
    have hle' := hsecond.improvements
    rw [hsecond.kept (by omega), hfirst.kept (by omega)]
  lowered hlt := by
    rcases hfirst.improvements.lt_or_eq with hless | hsame
    · rcases hsecond.improvements.lt_or_eq with hless' | hsame'
      · exact Std.TransCmp.lt_trans (hsecond.lowered hless')
          (hfirst.lowered hless)
      · rw [hsecond.kept hsame'.symm]
        exact hfirst.lowered hless
    · rw [← hfirst.kept hsame.symm]
      exact hsecond.lowered (hsame ▸ hlt)

/-- Nothing that matters for the target has changed. -/
theorem SameTarget.lowers {state state' : ShrinkState World}
    (hsame : state.SameTarget state') : state.Lowers state' where
  realized hrealized := by
    constructor
    · rw [hsame.currentNodes]
      exact hrealized.coherent
    · rw [hsame.currentNodes, hsame.currentSpans]
      exact hrealized.inside
  improvements := hsame.improvements.ge
  kept _ := hsame.currentNodes
  lowered hlt := absurd hlt (by rw [hsame.improvements]; exact lt_irrefl _)

end ShrinkState

theorem lowers_of_follows {Value : Type} {program : ShrinkM World Value}
    (hfollows : program.Follows ShrinkState.Lowers)
    (state : ShrinkState World) : state.Lowers (program.after state) := by
  have hreaches := hfollows state
  generalize program.after state = final at hreaches ⊢
  induction hreaches with
  | refl => exact .refl state
  | tail _ hlast ih => exact ih.trans hlast

variable (testFn : RealizedProbe World)

/-- Taking a smaller failure lowers the target, and every run that is taken
counts as an improvement. -/
theorem adopt_lowers (run : ShrinkRun) (state : ShrinkState World) :
    state.Lowers ((adopt testFn.toShrinkProbe run).after state) ∧
      ∀ outcome state',
        (adopt testFn.toShrinkProbe run).exec state =
          (.ok (true, outcome), state') →
        state.shrinker.improvements < state'.shrinker.improvements := by
  have heffect := runTestFn_effect testFn.toShrinkProbe state run
  rw [adopt, Program.after, Program.exec_bind]
  generalize (runTestFn testFn.toShrinkProbe run).exec state = reached
    at heffect
  cases heffect with
  | refused hticks hretimed =>
      exact ⟨hretimed.sameTarget.lowers, fun _ _ h => absurd h (by simp)⟩
  | halted halt hruns hretimed =>
      exact ⟨hretimed.sameTarget.lowers, fun _ _ h => absurd h (by simp)⟩
  | @answered state' outcome hruns hretimed =>
      have hsame := hretimed.sameTarget
      have hnodes : state'.shrinker.currentNodes = state.currentNodes :=
        hsame.currentNodes
      simp only [Program.exec_bind, modifyShrinker, Program.exec_modify,
        Program.exec_get, hnodes]
      by_cases hadopted : outcome.isInteresting = true ∧
          nodesSortKeyCmp outcome.actualNodes state.currentNodes = .lt
      · simp only [if_pos hadopted, Program.exec_bind, note,
          Program.exec_modify, Program.exec_pure]
        obtain ⟨world, request, hanswer⟩ := hruns.answers
        have hrealized := testFn.realized world request outcome hanswer
        have hmore : state.shrinker.improvements <
            state'.shrinker.improvements + 1 := by
          rw [hsame.improvements]
          exact Nat.lt_succ_self _
        constructor
        · constructor
          · exact fun _ => ⟨hrealized.coherent, hrealized.inside⟩
          · exact hmore.le
          · exact fun hkept => absurd hkept hmore.ne'
          · exact fun _ => hadopted.2
        · intro _ final hexec
          cases hexec
          exact hmore
      · simp only [if_neg hadopted, Program.exec_bind, note,
          Program.exec_modify, Program.exec_pure]
        constructor
        · exact ShrinkState.SameTarget.lowers ⟨rfl, hsame.currentSpans,
            hsame.improvements, hsame.downgraded⟩
        · exact fun _ _ hexec => absurd hexec (by simp)

/-- Runs only lower the target. -/
theorem lowers_passLogic :
    PassLogic testFn.toShrinkProbe
      fun _ => Program.Follows ShrinkState.Lowers := by
  apply follows_passLogic
  · intro run
    exact Program.follows_of_move fun state =>
      (adopt_lowers testFn run state).1
  · intro run
    apply Program.follows_of_move
    intro state
    have heffect := runTestFn_effect testFn.toShrinkProbe state run
    rw [inspect, Program.after, Program.exec_bind]
    generalize (runTestFn testFn.toShrinkProbe run).exec state = reached
      at heffect
    cases heffect with
    | refused hticks hretimed => exact hretimed.sameTarget.lowers
    | halted halt hruns hretimed => exact hretimed.sameTarget.lowers
    | answered outcome hruns hretimed =>
        have hsame := hretimed.sameTarget
        exact ShrinkState.SameTarget.lowers ⟨hsame.currentNodes,
          hsame.currentSpans, hsame.improvements, hsame.downgraded⟩

/-- A candidate that is the target now was equal to it or has improved it. -/
theorem consider_true {nodes : List ChoiceNode}
    {state state' : ShrinkState World}
    (hexec : (consider testFn.toShrinkProbe nodes).exec state =
      (.ok true, state')) :
    nodesSortKeyCmp nodes state.currentNodes = .eq ∨
      state.shrinker.improvements < state'.shrinker.improvements := by
  rw [consider, Program.exec_bind, Program.exec_get] at hexec
  by_cases hequal : nodesSortKeyCmp nodes state.currentNodes = .eq
  · exact .inl hequal
  · right
    simp only [ShrinkState.currentNodes] at hequal
    simp only [if_neg hequal] at hexec
    generalize (if nodes.length > state.shrinker.currentNodes.length then
      nodes.take state.shrinker.currentNodes.length else nodes) = cmp at hexec
    split at hexec
    · simp at hexec
    · split at hexec
      · simp at hexec
      · split at hexec
        · simp at hexec
        · split at hexec
          · simp at hexec
          · have hadopt := (adopt_lowers testFn (.full nodes) state).2
            rw [Program.exec_bind] at hexec
            revert hexec
            generalize hreached :
              (adopt testFn.toShrinkProbe (.full nodes)).exec state = reached
            obtain ⟨result, final⟩ := reached
            cases result with
            | error halt => simp
            | ok answer =>
                intro hexec
                obtain ⟨adopted, outcome⟩ := answer
                simp only [Program.exec_pure, Prod.mk.injEq,
                  Except.ok.injEq] at hexec
                obtain ⟨rfl, rfl⟩ := hexec
                exact hadopt outcome final hreached

end Lowering

section Discarding

variable {World : Type}

theorem mem_discardedRanges {spans : List Span} {range : Nat × Nat}
    (hmem : range ∈ discardedRanges spans) :
    range.1 < range.2 ∧ ∃ span ∈ spans, span.stop = range.2 := by
  suffices hfold : ∀ found : List (Nat × Nat),
      range ∈ spans.foldl (fun discarded span =>
        if span.stop > span.start ∧ span.discarded = true ∧
            discarded.getLast?.all (fun last => decide (span.start ≥ last.2))
        then discarded ++ [(span.start, span.stop)] else discarded) found →
      range ∈ found ∨
        (range.1 < range.2 ∧ ∃ span ∈ spans, span.stop = range.2) by
    rcases hfold [] hmem with hnil | hfound
    · exact absurd hnil List.not_mem_nil
    · exact hfound
  clear hmem
  induction spans with
  | nil => exact fun found hmem => .inl hmem
  | cons span rest ih =>
      intro found hmem
      rcases ih _ hmem with hbefore | ⟨hlt, other, hother, hstop⟩
      · dsimp only at hbefore
        split at hbefore
        case isTrue hnew =>
          rcases List.mem_append.mp hbefore with hold | hlast
          · exact .inl hold
          · rw [List.mem_singleton.mp hlast]
            exact .inr ⟨hnew.1, span, List.mem_cons_self, rfl⟩
        case isFalse => exact .inl hbefore
      · exact .inr ⟨hlt, other, List.mem_cons_of_mem span hother, hstop⟩

theorem length_drain (nodes : List ChoiceNode) {range : Nat × Nat}
    (hrange : range.1 < range.2) :
    (drain nodes range).length ≤ nodes.length ∧
      (range.2 ≤ nodes.length → (drain nodes range).length < nodes.length) := by
  rw [drain, List.length_append, List.length_take, List.length_drop]
  omega

/-- Deleting ranges, the first of which is inside, leaves fewer nodes. -/
theorem length_foldl_drain {ranges : List (Nat × Nat)}
    (hranges : ∀ range ∈ ranges, range.1 < range.2)
    (nodes : List ChoiceNode) :
    (ranges.foldl drain nodes).length ≤ nodes.length ∧
      (∀ first, ranges.head? = some first → first.2 ≤ nodes.length →
        (ranges.foldl drain nodes).length < nodes.length) := by
  induction ranges generalizing nodes with
  | nil => exact ⟨le_rfl, nofun⟩
  | cons range rest ih =>
      obtain ⟨hle, hlt⟩ :=
        length_drain nodes (hranges range List.mem_cons_self)
      have hrest := (ih (fun other hmem =>
        hranges other (List.mem_cons_of_mem range hmem)) (drain nodes range)).1
      constructor
      · exact hrest.trans hle
      · intro first hfirst hinside
        cases hfirst
        exact lt_of_le_of_lt hrest (hlt hinside)

theorem nodesSortKeyCmp_length {a b : List ChoiceNode}
    (heq : nodesSortKeyCmp a b = .eq) : a.length = b.length := by
  rw [nodesSortKeyCmp, Ordering.then_eq_eq, Ordering.then_eq_eq] at heq
  exact Nat.compare_eq_eq.mp heq.2.1

variable (testFn : RealizedProbe World)

/-- One deletion of all discarded spans. -/
def removeDiscardedOnce : ShrinkM World (Round Unit Bool) := do
  let shrinker := (← get).shrinker
  let discarded := discardedRanges shrinker.currentSpans
  if discarded.isEmpty then return .finish true
  else if ← consider testFn.toShrinkProbe
      (discarded.reverse.foldl drain shrinker.currentNodes) then
    return .again ()
  else return .finish false

end Discarding

section Schedule

variable {World : Type}

/-- A shrink pass.  It changes the target by improvements only. -/
structure PassRoutine (World : Type) where
  name : String
  run : ShrinkM World PUnit
  /-- Whether stepping it again may do something else. -/
  stochastic : Bool
  lowers : ∀ state : ShrinkState World, state.Lowers (run.after state)

/-- A pass and how often it was stepped, improved the target and shortened
it. -/
structure ScheduledPass (World : Type) where
  routine : PassRoutine World
  calls : Nat
  shrinks : Nat
  deletions : Nat

def ScheduledPass.new (routine : PassRoutine World) : ScheduledPass World :=
  ⟨routine, 0, 0, 0⟩

/-- A step that came to its end, with the shrinker before and after. -/
structure PassStep (World : Type) where
  idx : Nat
  routine : PassRoutine World
  before : Shrinker
  after : Shrinker

/-- The shrinker, the passes and the locals of the loops over them, with the
steps of the current iteration for observers. -/
structure Scheduler (World : Type) where
  shrink : ShrinkState World
  passes : List (ScheduledPass World)
  anyRan : Bool
  canDiscard : Bool
  callsAtLoopStart : Nat
  maxCallsPerFailingStep : Nat
  reorderKeys : List Int
  beforeNodesLen : Nat
  epochBeforePass : Nat
  failures : Nat
  steps : List (PassStep World)

def stochasticMaxFailures : Nat := 6

def PassRoutine.maxFailures (routine : PassRoutine World) : Nat :=
  if routine.stochastic then stochasticMaxFailures else 1

abbrev SchedulerM (World : Type) := Looping (Scheduler World) ShrinkHalt

/-- Let the shrinker do something. -/
def onShrinker {Value : Type} (program : ShrinkM World Value) :
    SchedulerM World Value :=
  .ofResult fun scheduler =>
    let (result, shrink) := program.exec scheduler.shrink
    (result, { scheduler with shrink := shrink })

namespace Scheduler

/-- Before anything was run. -/
def start (shrink : ShrinkState World) (passes : List (ScheduledPass World)) :
    Scheduler World :=
  ⟨shrink, passes, true, false, 0, 1, [], 0, 0, 0, []⟩

def changePass (scheduler : Scheduler World) (idx : Nat)
    (change : ScheduledPass World → ScheduledPass World) : Scheduler World :=
  { scheduler with passes := scheduler.passes.modify idx change }

def changeShrinker (scheduler : Scheduler World)
    (change : Shrinker → Shrinker) : Scheduler World :=
  { scheduler with
    shrink := { scheduler.shrink with
      shrinker := change scheduler.shrink.shrinker } }

/-- A new iteration, with a fresh stall window. -/
def beginIteration (scheduler : Scheduler World) : Scheduler World :=
  { scheduler.changeShrinker fun shrinker =>
      { shrinker with callsAtLastShrink := shrinker.calls } with
    anyRan := false
    steps := [] }

def enterPasses (canDiscard : Bool) (scheduler : Scheduler World) :
    Scheduler World :=
  { scheduler with
    canDiscard := canDiscard
    callsAtLoopStart := scheduler.shrink.shrinker.calls
    maxCallsPerFailingStep := 1
    reorderKeys := List.replicate scheduler.passes.length 0 }

def enterPass (scheduler : Scheduler World) : Scheduler World :=
  { scheduler with
    beforeNodesLen := scheduler.shrink.currentNodes.length
    epochBeforePass := scheduler.shrink.shrinker.improvements
    failures := 0 }

/-- Make the stall window long enough for the calls of the passes. -/
def growMaxStall (scheduler : Scheduler World) : Scheduler World :=
  let span := scheduler.shrink.shrinker.calls - scheduler.callsAtLoopStart
  let target :=
    min (min (scheduler.maxCallsPerFailingStep * 2) usizeMax + span) usizeMax
  scheduler.changeShrinker fun shrinker =>
    { shrinker with
      maxStall := if target > shrinker.maxStall then target
        else shrinker.maxStall }

def countCall (idx : Nat) (scheduler : Scheduler World) : Scheduler World :=
  scheduler.changePass idx fun pass => { pass with calls := pass.calls + 1 }

/-- Note that a step came to its end. -/
def noteStep (idx : Nat) (routine : PassRoutine World)
    (before scheduler : Scheduler World) : Scheduler World :=
  { scheduler with
    steps := scheduler.steps ++
      [⟨idx, routine, before.shrink.shrinker, scheduler.shrink.shrinker⟩] }

/-- A step improved the target. -/
def countShrink (idx : Nat) (scheduler : Scheduler World) : Scheduler World :=
  let shorter := decide
    (scheduler.shrink.currentNodes.length < scheduler.beforeNodesLen)
  { scheduler.changePass idx fun pass =>
      { pass with
        shrinks := pass.shrinks + 1
        deletions := if shorter then pass.deletions + 1
          else pass.deletions } with
    anyRan := true
    failures := 0 }

/-- A step made calls without improving the target. -/
def countFailure (initialCalls : Nat) (scheduler : Scheduler World) :
    Scheduler World :=
  { scheduler with
    maxCallsPerFailingStep := max scheduler.maxCallsPerFailingStep
      (scheduler.shrink.shrinker.calls - initialCalls)
    failures := scheduler.failures + 1 }

/-- Passes that shortened the target come first, useless ones last. -/
def keyPass (idx : Nat) (scheduler : Scheduler World) : Scheduler World :=
  { scheduler with
    reorderKeys := scheduler.reorderKeys.set idx
      (if scheduler.shrink.currentNodes.length < scheduler.beforeNodesLen then
        -1
      else if scheduler.shrink.shrinker.improvements >
          scheduler.epochBeforePass then 0
      else 1) }

/-- Put the passes in the order of their keys, equal ones as they were. -/
def reorder (scheduler : Scheduler World) : Scheduler World :=
  let indexed := scheduler.passes.zipIdx.map fun (pass, i) =>
    (scheduler.reorderKeys.getD i 0, pass)
  { scheduler with
    passes := (indexed.mergeSort fun a b => decide (a.1 ≤ b.1)).map Prod.snd }

end Scheduler

variable (testFn : RealizedProbe World)

/-- Delete all discarded spans, again and again. -/
def discardAll : SchedulerM World Bool :=
  .loop (fun _ => onShrinker (removeDiscardedOnce testFn)) ()

/-- Judge a step by what it did to the target. -/
def judgeStep (idx : Nat) (before : Scheduler World) :
    SchedulerM World (Round Unit Unit) := do
  let shrinker := (← .read).shrink.shrinker
  if shrinker.improvements > before.shrink.shrinker.improvements then
    .modify (Scheduler.countShrink idx)
    return .again ()
  else if before.shrink.shrinker.calls ≠ shrinker.calls then
    .modify (Scheduler.countFailure before.shrink.shrinker.calls)
    return .again ()
  else return .finish ()

/-- Step a pass, unless it failed too often. -/
def stepPass (idx : Nat) : SchedulerM World (Round Unit Unit) := do
  let scheduler ← .read
  match scheduler.passes[idx]? with
  | none => return .finish ()
  | some pass =>
      if scheduler.failures < pass.routine.maxFailures then
        .modify Scheduler.growMaxStall
        .modify (Scheduler.countCall idx)
        let before ← .read
        onShrinker pass.routine.run
        .modify (Scheduler.noteStep idx pass.routine before)
        judgeStep idx before
      else return .finish ()

/-- Delete discarded spans unless some could not be deleted. -/
def discardAgain : SchedulerM World Unit := do
  if (← .read).canDiscard then
    let canDiscard ← discardAll testFn
    .modify fun scheduler => { scheduler with canDiscard := canDiscard }
  else return ()

/-- Step one pass as long as that helps. -/
def runPass (idx : Nat) : SchedulerM World Unit := do
  discardAgain testFn
  .modify Scheduler.enterPass
  .loop (fun _ => stepPass idx) ()
  .modify (Scheduler.keyPass idx)

/-- Step every pass, if any pass ran in the iteration before. -/
def runPasses : SchedulerM World (Round Unit Unit) := do
  if (← .read).anyRan then
    .modify Scheduler.beginIteration
    let canDiscard ← discardAll testFn
    .modify (Scheduler.enterPasses canDiscard)
    .forEach (runPass testFn) (List.range (← .read).passes.length)
    .modify Scheduler.reorder
    return .again ()
  else return .finish ()

/-- Step the passes until none of them improves the target. -/
def fixateShrinkPasses : SchedulerM World Unit :=
  .loop (fun _ => runPasses testFn) ()

end Schedule

section Descent

/-- Strictly below in the order of realised sequences. -/
def NodesBelow (a b : List ChoiceNode) : Prop :=
  NodesCoherent a ∧ NodesCoherent b ∧ nodesSortKeyCmp a b = .lt

theorem wellFounded_nodesBelow : WellFounded NodesBelow := by
  apply Subrelation.wf (r := InvImage
    (fun a b => Rose.forestCmp (shortlexCmp compare) a b = .lt) keyForest)
  · intro a b hbelow
    rw [InvImage, ← keyForestCmp, ← nodesSortKeyCmp_eq hbelow.1 hbelow.2.1]
    exact hbelow.2.2
  · exact InvImage.wf keyForest (Rose.wellFounded_forestCmp wellFounded_labelCmp)

variable {World : Type}

theorem NodesBelow.trans {a b c : List ChoiceNode} (hab : NodesBelow a b)
    (hbc : NodesBelow b c) : NodesBelow a c :=
  ⟨hab.1, hbc.2.1, Std.TransCmp.lt_trans hab.2.2 hbc.2.2⟩

namespace ShrinkState

/-- An improvement goes strictly below. -/
theorem Lowers.below {state state' : ShrinkState World}
    (hlowers : state.Lowers state') (hrealized : state.Realized)
    (himproved : state.shrinker.improvements < state'.shrinker.improvements) :
    NodesBelow state'.currentNodes state.currentNodes :=
  ⟨(hlowers.realized hrealized).coherent, hrealized.coherent,
    hlowers.lowered himproved⟩

theorem Lowers.below_or_kept {state state' : ShrinkState World}
    (hlowers : state.Lowers state') (hrealized : state.Realized) :
    NodesBelow state'.currentNodes state.currentNodes ∨
      state'.currentNodes = state.currentNodes := by
  rcases hlowers.improvements.lt_or_eq with hless | hsame
  · exact .inl (hlowers.below hrealized hless)
  · exact .inr (hlowers.kept hsame.symm)

end ShrinkState

theorem onShrinker_yields {Value : Type} {program : ShrinkM World Value}
    {scheduler : Scheduler World}
    {post : Except ShrinkHalt Value → Scheduler World → Prop}
    (hpost : post (program.exec scheduler.shrink).1
      { scheduler with shrink := program.after scheduler.shrink }) :
    (onShrinker program).Yields scheduler post :=
  Looping.yields_ofResult hpost

variable (testFn : RealizedProbe World)

theorem removeDiscardedOnce_lowers (state : ShrinkState World) :
    state.Lowers ((removeDiscardedOnce testFn).after state) := by
  apply lowers_of_follows
  apply Program.follows_bind Program.follows_get
  intro reached
  apply Program.follows_ite (fun _ => Program.follows_pure _) fun _ => ?_
  apply Program.follows_bind (consider_holds (lowers_passLogic testFn) _)
  intro adopted
  exact Program.follows_ite (fun _ => Program.follows_pure _)
    fun _ => Program.follows_pure _

/-- Deleting goes on only after an improvement: what is left of the target is
shorter, so it was not the target before. -/
theorem removeDiscardedOnce_again {state state' : ShrinkState World}
    (hrealized : state.Realized)
    (hexec : (removeDiscardedOnce testFn).exec state = (.ok (.again ()), state')) :
    NodesBelow state'.currentNodes state.currentNodes := by
  have hlowers := removeDiscardedOnce_lowers testFn state
  rw [Program.after, hexec] at hlowers
  apply hlowers.below hrealized
  rw [removeDiscardedOnce, Program.exec_bind, Program.exec_get] at hexec
  by_cases hempty :
      (discardedRanges state.shrinker.currentSpans).isEmpty = true
  · simp only [if_pos hempty, Program.exec_pure] at hexec
    cases hexec
  · simp only [if_neg hempty, Program.exec_bind] at hexec
    generalize hranges : discardedRanges state.shrinker.currentSpans = ranges
      at hexec hempty
    generalize hconsider : (consider testFn.toShrinkProbe
      (ranges.reverse.foldl drain state.shrinker.currentNodes)).exec state =
        reached at hexec
    obtain ⟨result, final⟩ := reached
    cases result with
    | error halt => cases hexec
    | ok adopted =>
        cases adopted with
        | false => cases hexec
        | true =>
            cases hexec
            rcases consider_true testFn hconsider with hequal | himproved
            · have hlength := nodesSortKeyCmp_length hequal
              have hordered : ∀ range ∈ ranges.reverse,
                  range.1 < range.2 := by
                intro range hmem
                rw [List.mem_reverse, ← hranges] at hmem
                exact (mem_discardedRanges hmem).1
              have hshort := (length_foldl_drain hordered
                state.shrinker.currentNodes).2
              obtain ⟨first, hfirst⟩ : ∃ first,
                  ranges.reverse.head? = some first := by
                cases hhead : ranges.reverse.head? with
                | none => simp_all
                | some first => exact ⟨first, rfl⟩
              have hmem : first ∈ discardedRanges
                  state.shrinker.currentSpans := by
                rw [hranges]
                exact List.mem_reverse.mp (List.mem_of_mem_head? hfirst)
              obtain ⟨span, hspan, hstop⟩ := (mem_discardedRanges hmem).2
              have hinside := hshort first hfirst
                (hstop ▸ hrealized.inside span hspan)
              exact absurd hlength hinside.ne
            · exact himproved

/-- Deleting discarded spans comes to an end and only lowers the target. -/
theorem discardAll_yields {scheduler : Scheduler World}
    (hrealized : scheduler.shrink.Realized)
    {post : Except ShrinkHalt Bool → Scheduler World → Prop}
    (hpost : ∀ result shrink, scheduler.shrink.Lowers shrink →
      post result { scheduler with shrink := shrink }) :
    (discardAll testFn).Yields scheduler post := by
  apply Looping.yields_loop
    (InvImage.wf (fun pair : Unit × Scheduler World =>
      pair.2.shrink.currentNodes) wellFounded_nodesBelow)
    (fun _ s => ∃ shrink, s = { scheduler with shrink := shrink } ∧
      scheduler.shrink.Lowers shrink)
  · rintro _ _ ⟨shrink, rfl, hlowers⟩
    apply Looping.yields_ofResult
    have honce := removeDiscardedOnce_lowers testFn shrink
    have hagain := fun state' => @removeDiscardedOnce_again _ testFn shrink
      state' (hlowers.realized hrealized)
    rw [Program.after] at honce
    generalize (removeDiscardedOnce testFn).exec shrink = reached
      at honce hagain
    obtain ⟨result, shrink'⟩ := reached
    have hdown := hlowers.trans honce
    cases result with
    | error halt => exact hpost (.error halt) shrink' hdown
    | ok round =>
        cases round with
        | again _ => exact ⟨⟨shrink', rfl, hdown⟩, hagain shrink' rfl⟩
        | finish value => exact hpost (.ok value) shrink' hdown
  · exact ⟨scheduler.shrink, rfl, .refl _⟩

end Descent

section Steps

variable {World : Type}

/-- No more improvements and deletions are recorded than calls. -/
structure ScheduledPass.Balanced (pass : ScheduledPass World) : Prop where
  shrinks : pass.shrinks ≤ pass.calls
  deletions : pass.deletions ≤ pass.calls

/-- The step left the target as it was. -/
structure PassStep.Kept (step : PassStep World) : Prop where
  currentNodes : step.after.currentNodes = step.before.currentNodes
  improvements : step.after.improvements = step.before.improvements

/-- The passes are the given ones in some order, with balanced counters. -/
structure Scheduler.Accounted (routines : List (PassRoutine World))
    (scheduler : Scheduler World) : Prop where
  perm : (scheduler.passes.map ScheduledPass.routine).Perm routines
  balanced : ∀ pass ∈ scheduler.passes, pass.Balanced

/-- What holds during an iteration over passes in an order, from a target. -/
structure Scheduler.Within (order : List (PassRoutine World))
    (origin : List ChoiceNode) (scheduler : Scheduler World) : Prop where
  realized : scheduler.shrink.Realized
  ordered : scheduler.passes.map ScheduledPass.routine = order
  balanced : ∀ pass ∈ scheduler.passes, pass.Balanced
  target : NodesBelow scheduler.shrink.currentNodes origin ∨
    scheduler.shrink.currentNodes = origin
  ran : scheduler.anyRan = true →
    NodesBelow scheduler.shrink.currentNodes origin
  numbered : ∀ step ∈ scheduler.steps,
    order[step.idx]? = some step.routine
  quiet : scheduler.anyRan = false → ∀ step ∈ scheduler.steps, step.Kept

/-- The passes at these places were stepped. -/
def Scheduler.Covers (scheduler : Scheduler World) (done : List Nat) : Prop :=
  ∀ idx ∈ done, ∃ step ∈ scheduler.steps, step.idx = idx

theorem map_routine_modify (passes : List (ScheduledPass World)) (idx : Nat)
    {change : ScheduledPass World → ScheduledPass World}
    (hchange : ∀ pass, (change pass).routine = pass.routine) :
    (passes.modify idx change).map ScheduledPass.routine =
      passes.map ScheduledPass.routine := by
  induction passes generalizing idx with
  | nil => cases idx <;> rfl
  | cons pass rest ih =>
      cases idx with
      | zero => simp [hchange]
      | succ idx => simp [ih]

theorem forall_mem_modify {Item : Type} {holds : Item → Prop}
    {items : List Item} {change : Item → Item} (idx : Nat)
    (hitems : ∀ item ∈ items, holds item)
    (hchange : ∀ item, holds item → holds (change item)) :
    ∀ item ∈ items.modify idx change, holds item := by
  induction items generalizing idx with
  | nil => cases idx <;> exact hitems
  | cons head rest ih =>
      rw [List.forall_mem_cons] at hitems
      cases idx with
      | zero =>
          rw [List.modify_zero_cons, List.forall_mem_cons]
          exact ⟨hchange head hitems.1, hitems.2⟩
      | succ idx =>
          rw [List.modify_succ_cons, List.forall_mem_cons]
          exact ⟨hitems.1, ih idx hitems.2⟩

variable {order : List (PassRoutine World)} {origin : List ChoiceNode}
  {scheduler : Scheduler World} {idx : Nat} {routine : PassRoutine World}
  {shrink : ShrinkState World}

theorem ScheduledPass.Balanced.called {pass : ScheduledPass World}
    (hbalanced : pass.Balanced) :
    ScheduledPass.Balanced { pass with calls := pass.calls + 1 } :=
  ⟨hbalanced.shrinks.trans (Nat.le_succ _),
    hbalanced.deletions.trans (Nat.le_succ _)⟩

/-- An improvement that follows a call is covered by it. -/
theorem ScheduledPass.Balanced.improved {pass : ScheduledPass World}
    (hbalanced : pass.Balanced) (shorter : Bool) :
    ScheduledPass.Balanced
      { pass with
        calls := pass.calls + 1
        shrinks := pass.shrinks + 1
        deletions := if shorter then pass.deletions + 1
          else pass.deletions } := by
  have hdeletions := hbalanced.deletions
  constructor
  · exact Nat.succ_le_succ hbalanced.shrinks
  · show (if shorter then pass.deletions + 1 else pass.deletions) ≤
      pass.calls + 1
    split <;> omega

namespace Scheduler

theorem Within.accounted (hwithin : scheduler.Within order origin) :
    scheduler.Accounted order :=
  ⟨List.Perm.of_eq hwithin.ordered, hwithin.balanced⟩

/-- Where the shrinker goes, the iteration goes on. -/
theorem Within.lowered (hwithin : scheduler.Within order origin)
    (hlowers : scheduler.shrink.Lowers shrink) :
    { scheduler with shrink := shrink }.Within order origin where
  realized := hlowers.realized hwithin.realized
  ordered := hwithin.ordered
  balanced := hwithin.balanced
  target := by
    rcases hlowers.below_or_kept hwithin.realized with hbelow | hkept
    · rcases hwithin.target with hbefore | hbefore
      · exact .inl (hbelow.trans hbefore)
      · exact .inl (hbefore ▸ hbelow)
    · exact hkept ▸ hwithin.target
  ran hran := by
    rcases hlowers.below_or_kept hwithin.realized with hbelow | hkept
    · exact hbelow.trans (hwithin.ran hran)
    · exact hkept ▸ hwithin.ran hran
  numbered := hwithin.numbered
  quiet := hwithin.quiet

/-- A step is about to run. -/
def called (scheduler : Scheduler World) (idx : Nat) : Scheduler World :=
  countCall idx scheduler.growMaxStall

/-- A step has run. -/
def stepped (scheduler : Scheduler World) (idx : Nat)
    (routine : PassRoutine World) (shrink : ShrinkState World) :
    Scheduler World :=
  noteStep idx routine (scheduler.called idx)
    { scheduler.called idx with shrink := shrink }

theorem Within.called (hwithin : scheduler.Within order origin) (idx : Nat) :
    (scheduler.called idx).Within order origin where
  realized := ⟨hwithin.realized.coherent, hwithin.realized.inside⟩
  ordered := by
    refine (map_routine_modify _ idx ?_).trans hwithin.ordered
    exact fun _ => rfl
  balanced := forall_mem_modify idx hwithin.balanced fun _ hbalanced =>
    hbalanced.called
  target := hwithin.target
  ran := hwithin.ran
  numbered := hwithin.numbered
  quiet := hwithin.quiet

theorem Within.numbered_stepped (hwithin : scheduler.Within order origin)
    (hplace : order[idx]? = some routine) :
    ∀ step ∈ (scheduler.stepped idx routine shrink).steps,
      order[step.idx]? = some step.routine := by
  intro step hmem
  rcases List.mem_append.mp hmem with hold | hnew
  · exact hwithin.numbered step hold
  · rw [List.mem_singleton.mp hnew]
    exact hplace

/-- A step that did not improve the target kept it. -/
theorem Within.kept (hwithin : scheduler.Within order origin)
    (hplace : order[idx]? = some routine)
    (hlowers : (scheduler.called idx).shrink.Lowers shrink)
    (hsame : shrink.shrinker.improvements =
      scheduler.shrink.shrinker.improvements) :
    (scheduler.stepped idx routine shrink).Within order origin := by
  have hlowered := (hwithin.called idx).lowered hlowers
  constructor
  · exact hlowered.realized
  · exact hlowered.ordered
  · exact hlowered.balanced
  · exact hlowered.target
  · exact hlowered.ran
  · exact hwithin.numbered_stepped hplace
  · intro hran step hmem
    rcases List.mem_append.mp hmem with hold | hnew
    · exact hwithin.quiet hran step hold
    · rw [List.mem_singleton.mp hnew]
      exact ⟨hlowers.kept hsame, hsame⟩

/-- A step that improved the target is counted. -/
theorem Within.improved (hwithin : scheduler.Within order origin)
    (hplace : order[idx]? = some routine)
    (hlowers : (scheduler.called idx).shrink.Lowers shrink)
    (himproved : scheduler.shrink.shrinker.improvements <
      shrink.shrinker.improvements) :
    (countShrink idx
      (scheduler.stepped idx routine shrink)).Within order origin := by
  have hlowered := (hwithin.called idx).lowered hlowers
  have hbelow : NodesBelow shrink.currentNodes origin := by
    have hstep := hlowers.below (hwithin.called idx).realized himproved
    rcases hwithin.target with hbefore | hbefore
    · exact hstep.trans hbefore
    · exact hbefore ▸ hstep
  constructor
  · exact hlowered.realized
  · refine (map_routine_modify _ idx ?_).trans hlowered.ordered
    exact fun _ => rfl
  · show ∀ pass ∈ (scheduler.passes.modify idx _).modify idx _, _
    rw [List.modify_modify_eq]
    exact forall_mem_modify idx hwithin.balanced fun _ hbalanced =>
      hbalanced.improved _
  · exact .inl hbelow
  · exact fun _ => hbelow
  · exact hwithin.numbered_stepped hplace
  · exact fun hran => absurd hran (by simp [countShrink])

theorem Within.failed (hwithin : scheduler.Within order origin)
    (initialCalls : Nat) :
    (countFailure initialCalls scheduler).Within order origin :=
  ⟨hwithin.realized, hwithin.ordered, hwithin.balanced, hwithin.target,
    hwithin.ran, hwithin.numbered, hwithin.quiet⟩

theorem Covers.stepped {done : List Nat} (hcovers : scheduler.Covers done)
    (idx : Nat) (routine : PassRoutine World) (shrink : ShrinkState World) :
    (scheduler.stepped idx routine shrink).Covers (done ++ [idx]) := by
  intro other hmem
  rcases List.mem_append.mp hmem with hold | hnew
  · obtain ⟨step, hstep, hidx⟩ := hcovers other hold
    exact ⟨step, List.mem_append_left _ hstep, hidx⟩
  · exact ⟨_, List.mem_append_right _ (List.mem_singleton_self _),
      (List.mem_singleton.mp hnew).symm⟩

end Scheduler

/-- Every step improves the target or uses up a retry. -/
def StepBelow (s s' : Scheduler World) : Prop :=
  Prod.Lex NodesBelow (· < ·)
    (s.shrink.currentNodes, stochasticMaxFailures - s.failures)
    (s'.shrink.currentNodes, stochasticMaxFailures - s'.failures)

theorem wellFounded_stepBelow :
    WellFounded (StepBelow : Scheduler World → Scheduler World → Prop) :=
  InvImage.wf (fun s : Scheduler World =>
    (s.shrink.currentNodes, stochasticMaxFailures - s.failures))
    (WellFounded.prod_lex wellFounded_nodesBelow Nat.lt_wfRel.wf)

theorem maxFailures_bounds (routine : PassRoutine World) :
    1 ≤ routine.maxFailures ∧ routine.maxFailures ≤ stochasticMaxFailures := by
  rw [PassRoutine.maxFailures]
  split <;> decide

/-- A step goes on after an improvement or a failure, and ends otherwise. -/
theorem judgeStep_yields (hwithin : scheduler.Within order origin)
    (hplace : order[idx]? = some routine)
    (hlowers : (scheduler.called idx).shrink.Lowers shrink)
    (hfailures : scheduler.failures < stochasticMaxFailures) :
    (judgeStep idx (scheduler.called idx)).Yields
      (scheduler.stepped idx routine shrink) fun
      | .ok (.again _), after => after.Within order origin ∧
          after.steps = (scheduler.stepped idx routine shrink).steps ∧
          StepBelow after scheduler
      | .ok (.finish _), after =>
          after = scheduler.stepped idx routine shrink ∧
            after.Within order origin
      | .error _, _ => False := by
  apply Looping.yields_bind
  apply Looping.yields_read
  apply Looping.yields_ite
  · intro himproved
    apply Looping.yields_bind
    apply Looping.yields_modify
    apply Looping.yields_pure
    refine ⟨hwithin.improved hplace hlowers himproved, rfl, .left _ _ ?_⟩
    exact hlowers.below (hwithin.called idx).realized himproved
  · intro hsame
    have hkept : shrink.shrinker.improvements =
        scheduler.shrink.shrinker.improvements :=
      le_antisymm (not_lt.mp hsame) hlowers.improvements
    have hwithin' := hwithin.kept hplace hlowers hkept
    apply Looping.yields_ite
    · intro hcalls
      apply Looping.yields_bind
      apply Looping.yields_modify
      apply Looping.yields_pure
      refine ⟨hwithin'.failed _, rfl, ?_⟩
      have hnodes : shrink.currentNodes = scheduler.shrink.currentNodes :=
        hlowers.kept hkept
      rw [StepBelow]
      show Prod.Lex _ _ (shrink.currentNodes,
        stochasticMaxFailures - (scheduler.failures + 1)) _
      rw [hnodes]
      exact .right _ (by omega)
    · intro _
      exact Looping.yields_pure ⟨rfl, hwithin'⟩

/-- Stepping a pass goes on downwards, notes every step, and has noted one
when it ends. -/
theorem stepPass_yields {done : List Nat}
    (hwithin : scheduler.Within order origin) (hidx : idx < order.length)
    (hcovers : scheduler.Covers done)
    (hstarted : scheduler.failures = 0 ∨ scheduler.Covers (done ++ [idx])) :
    (stepPass idx).Yields scheduler fun
      | .ok (.again _), after => (after.Within order origin ∧
          after.Covers (done ++ [idx])) ∧ StepBelow after scheduler
      | .ok (.finish _), after => after.Within order origin ∧
          after.Covers (done ++ [idx])
      | .error _, after => after.Accounted order := by
  apply Looping.yields_bind
  apply Looping.yields_read
  have hlength : idx < scheduler.passes.length := by
    rw [← List.length_map ScheduledPass.routine, hwithin.ordered]
    exact hidx
  obtain ⟨pass, hpass⟩ : ∃ pass, scheduler.passes[idx]? = some pass :=
    ⟨_, List.getElem?_eq_getElem hlength⟩
  have hplace : order[idx]? = some pass.routine := by
    rw [← hwithin.ordered, List.getElem?_map, hpass]
    rfl
  obtain ⟨hleast, hmost⟩ := maxFailures_bounds pass.routine
  simp only [hpass]
  apply Looping.yields_ite
  · intro hfailures
    apply Looping.yields_bind
    apply Looping.yields_modify
    apply Looping.yields_bind
    apply Looping.yields_modify
    apply Looping.yields_bind
    apply Looping.yields_read
    apply Looping.yields_bind
    apply onShrinker_yields
    have hlowers := pass.routine.lowers (scheduler.called idx).shrink
    generalize (pass.routine.run.exec _).1 = result
    cases result with
    | error halt =>
        exact ((hwithin.called idx).lowered hlowers).accounted
    | ok _ =>
        apply Looping.yields_bind
        apply Looping.yields_modify
        have hcovers' := hcovers.stepped idx pass.routine
          (pass.routine.run.after (scheduler.called idx).shrink)
        apply (judgeStep_yields hwithin hplace hlowers
          (hfailures.trans_le hmost)).mono
        intro result after hjudged
        cases result with
        | error halt => exact absurd hjudged id
        | ok round =>
            cases round with
            | again _ =>
                obtain ⟨hafter, hsteps, hbelow⟩ := hjudged
                refine ⟨⟨hafter, ?_⟩, hbelow⟩
                rw [Scheduler.Covers, hsteps]
                exact hcovers'
            | finish _ =>
                obtain ⟨rfl, hafter⟩ := hjudged
                exact ⟨hafter, hcovers'⟩
  · intro hfailed
    apply Looping.yields_pure
    rcases hstarted with hzero | hdone
    · omega
    · exact ⟨hwithin, hdone⟩

variable (testFn : RealizedProbe World)

theorem discardAgain_yields {done : List Nat}
    (hwithin : scheduler.Within order origin)
    (hcovers : scheduler.Covers done) :
    (discardAgain testFn).Yields scheduler fun
      | .ok (), after => after.Within order origin ∧ after.Covers done
      | .error _, after => after.Accounted order := by
  apply Looping.yields_bind
  apply Looping.yields_read
  apply Looping.yields_ite
  · intro _
    apply Looping.yields_bind
    apply discardAll_yields testFn hwithin.realized
    intro result shrink hlowers
    have hlowered := hwithin.lowered hlowers
    cases result with
    | error halt => exact hlowered.accounted
    | ok canDiscard =>
        apply Looping.yields_modify
        exact ⟨⟨hlowered.realized, hlowered.ordered, hlowered.balanced,
          hlowered.target, hlowered.ran, hlowered.numbered, hlowered.quiet⟩,
          hcovers⟩
  · exact fun _ => Looping.yields_pure ⟨hwithin, hcovers⟩

/-- A pass comes to its end and has been stepped by then. -/
theorem runPass_yields {done : List Nat}
    (hwithin : scheduler.Within order origin) (hidx : idx < order.length)
    (hcovers : scheduler.Covers done) :
    (runPass testFn idx).Yields scheduler fun
      | .ok (), after => after.Within order origin ∧
          after.Covers (done ++ [idx])
      | .error _, after => after.Accounted order := by
  apply Looping.yields_bind
  apply (discardAgain_yields testFn hwithin hcovers).mono
  intro result entered hentered
  cases result with
  | error halt => exact hentered
  | ok _ =>
      obtain ⟨hbefore, hcovered⟩ := hentered
      apply Looping.yields_bind
      apply Looping.yields_modify
      apply Looping.yields_bind
      apply Looping.yields_loop (InvImage.wf Prod.snd wellFounded_stepBelow)
        (fun _ s => s.Within order origin ∧ s.Covers done ∧
          (s.failures = 0 ∨ s.Covers (done ++ [idx])))
      · rintro _ s ⟨hs, hdone, hstarted⟩
        apply (stepPass_yields hs hidx hdone hstarted).mono
        intro result after hstep
        cases result with
        | error halt => exact hstep
        | ok round =>
            cases round with
            | again _ =>
                obtain ⟨⟨hafter, hsteps⟩, hbelow⟩ := hstep
                refine ⟨⟨hafter, ?_, .inr hsteps⟩, hbelow⟩
                exact fun other hmem =>
                  hsteps other (List.mem_append_left _ hmem)
            | finish _ =>
                obtain ⟨hafter, hsteps⟩ := hstep
                apply Looping.yields_modify
                exact ⟨⟨hafter.realized, hafter.ordered, hafter.balanced,
                  hafter.target, hafter.ran, hafter.numbered, hafter.quiet⟩,
                  hsteps⟩
      · exact ⟨⟨hbefore.realized, hbefore.ordered, hbefore.balanced,
          hbefore.target, hbefore.ran, hbefore.numbered, hbefore.quiet⟩,
          hcovered, .inl rfl⟩

end Steps

section Iterations

variable {World : Type} {routines : List (PassRoutine World)}
  {scheduler : Scheduler World}

/-- In the last iteration every pass was stepped, and every step kept the
target. -/
def Scheduler.Fixated (routines : List (PassRoutine World))
    (scheduler : Scheduler World) : Prop :=
  ∃ order : List (PassRoutine World), order.Perm routines ∧
    (∀ idx, idx < order.length → ∃ step ∈ scheduler.steps, step.idx = idx) ∧
    ∀ step ∈ scheduler.steps,
      order[step.idx]? = some step.routine ∧ step.Kept

/-- What holds between iterations. -/
structure Scheduler.Between (routines : List (PassRoutine World))
    (scheduler : Scheduler World) : Prop where
  realized : scheduler.shrink.Realized
  accounted : scheduler.Accounted routines
  fixated : scheduler.anyRan = false → scheduler.Fixated routines

/-- An iteration improves the target or is the last one. -/
def IterationBelow (s s' : Scheduler World) : Prop :=
  Prod.Lex NodesBelow (· < ·)
    (s.shrink.currentNodes, s.anyRan.toNat)
    (s'.shrink.currentNodes, s'.anyRan.toNat)

theorem wellFounded_iterationBelow :
    WellFounded
      (IterationBelow : Scheduler World → Scheduler World → Prop) :=
  InvImage.wf (fun s : Scheduler World =>
    (s.shrink.currentNodes, s.anyRan.toNat))
    (WellFounded.prod_lex wellFounded_nodesBelow Nat.lt_wfRel.wf)

/-- Reordering moves the passes around and leaves them as they are. -/
theorem reorder_perm (scheduler : Scheduler World) :
    scheduler.reorder.passes.Perm scheduler.passes := by
  have hsorted := List.mergeSort_perm
    (scheduler.passes.zipIdx.map fun entry =>
      (scheduler.reorderKeys.getD entry.2 0, entry.1))
    fun a b => decide (a.1 ≤ b.1)
  refine (hsorted.map Prod.snd).trans ?_
  rw [List.map_map]
  exact List.Perm.of_eq (List.zipIdx_map_fst 0 scheduler.passes)

theorem Scheduler.Accounted.trans {order : List (PassRoutine World)}
    (haccounted : scheduler.Accounted order) (hperm : order.Perm routines) :
    scheduler.Accounted routines :=
  ⟨haccounted.perm.trans hperm, haccounted.balanced⟩

/-- After an iteration the passes are accounted for, and if none of them
improved the target it is a fixed point. -/
theorem between_reorder {order : List (PassRoutine World)}
    {origin : List ChoiceNode} (hwithin : scheduler.Within order origin)
    (hperm : order.Perm routines)
    (hcovers : scheduler.Covers (List.range order.length)) :
    scheduler.reorder.Between routines := by
  have hpasses := reorder_perm scheduler
  constructor
  · exact hwithin.realized
  · constructor
    · exact (hpasses.map _).trans ((List.Perm.of_eq hwithin.ordered).trans hperm)
    · exact fun pass hmem => hwithin.balanced pass (hpasses.mem_iff.mp hmem)
  · intro hquiet
    refine ⟨order, hperm, ?_, ?_⟩
    · exact fun idx hidx => hcovers idx (List.mem_range.mpr hidx)
    · exact fun step hmem =>
        ⟨hwithin.numbered step hmem, hwithin.quiet hquiet step hmem⟩

theorem Scheduler.Within.iterationBelow {order : List (PassRoutine World)}
    {before : Scheduler World}
    (hwithin : scheduler.Within order before.shrink.currentNodes)
    (hran : before.anyRan = true) :
    IterationBelow scheduler.reorder before := by
  cases hany : scheduler.anyRan with
  | true => exact .left _ _ (hwithin.ran hany)
  | false =>
      rcases hwithin.target with hbelow | hsame
      · exact .left _ _ hbelow
      · have hflag : scheduler.anyRan.toNat < before.anyRan.toNat := by
          rw [hany, hran]
          decide
        show Prod.Lex _ _ (scheduler.shrink.currentNodes, _) _
        rw [hsame]
        exact .right _ hflag

variable (testFn : RealizedProbe World)

/-- An iteration steps all passes. -/
theorem runAll_yields {order : List (PassRoutine World)}
    {origin : List ChoiceNode} (hwithin : scheduler.Within order origin) :
    (Looping.forEach (runPass testFn)
      (List.range scheduler.passes.length)).Yields scheduler fun
      | .ok (), after => after.Within order origin ∧
          after.Covers (List.range order.length)
      | .error _, after => after.Accounted order := by
  have hlength : scheduler.passes.length = order.length := by
    rw [← hwithin.ordered, List.length_map]
  rw [hlength]
  apply Looping.yields_forEach
    (fun done s => s.Within order origin ∧ s.Covers done)
  · rintro done idx s hbegin ⟨hs, hcovers⟩
    have hmem : idx ∈ List.range order.length :=
      hbegin.subset (List.mem_append_right _ (List.mem_singleton_self idx))
    apply (runPass_yields testFn hs (List.mem_range.mp hmem) hcovers).mono
    intro result after hafter
    cases result with
    | error halt => exact hafter
    | ok _ => exact hafter
  · exact fun s hs => hs
  · exact ⟨hwithin, fun _ hmem => absurd hmem List.not_mem_nil⟩

theorem runPasses_yields (hbetween : scheduler.Between routines) :
    (runPasses testFn).Yields scheduler fun
      | .ok (.again _), after => after.Between routines ∧
          IterationBelow after scheduler
      | .ok (.finish _), after => after.Fixated routines ∧
          after.Accounted routines
      | .error _, after => after.Accounted routines := by
  apply Looping.yields_bind
  apply Looping.yields_read
  apply Looping.yields_ite
  · intro hran
    generalize horder : scheduler.passes.map ScheduledPass.routine = order
    have hperm : order.Perm routines := horder ▸ hbetween.accounted.perm
    have hbegun : scheduler.beginIteration.Within order
        scheduler.shrink.currentNodes := by
      constructor
      · exact ⟨hbetween.realized.coherent, hbetween.realized.inside⟩
      · exact horder
      · exact hbetween.accounted.balanced
      · exact .inr rfl
      · exact nofun
      · exact fun _ hmem => absurd hmem List.not_mem_nil
      · exact fun _ _ hmem => absurd hmem List.not_mem_nil
    apply Looping.yields_bind
    apply Looping.yields_modify
    apply Looping.yields_bind
    apply discardAll_yields testFn hbegun.realized
    intro result shrink hlowers
    have hlowered := hbegun.lowered hlowers
    cases result with
    | error halt => exact hlowered.accounted.trans hperm
    | ok canDiscard =>
        apply Looping.yields_bind
        apply Looping.yields_modify
        apply Looping.yields_bind
        apply Looping.yields_read
        apply Looping.yields_bind
        have hentered : (Scheduler.enterPasses canDiscard
            { scheduler.beginIteration with shrink := shrink }).Within order
              scheduler.shrink.currentNodes :=
          ⟨hlowered.realized, hlowered.ordered, hlowered.balanced,
            hlowered.target, hlowered.ran, hlowered.numbered, hlowered.quiet⟩
        apply (runAll_yields testFn hentered).mono
        intro result after hafter
        cases result with
        | error halt => exact hafter.trans hperm
        | ok _ =>
            obtain ⟨hwithin, hcovers⟩ := hafter
            apply Looping.yields_bind
            apply Looping.yields_modify
            apply Looping.yields_pure
            exact ⟨between_reorder hwithin hperm hcovers,
              hwithin.iterationBelow hran⟩
  · intro hquiet
    exact Looping.yields_pure
      ⟨hbetween.fixated (Bool.not_eq_true _ ▸ hquiet), hbetween.accounted⟩

end Iterations

section Samples

/-- A pass made of runs that are compared with the target or looked at. -/
def PassRoutine.ofMoves {World : Type} {testFn : RealizedProbe World}
    (name : String) (stochastic : Bool) (run : ShrinkM World PUnit)
    (hfollows : PassLogic testFn.toShrinkProbe
      (fun _ => Program.Follows ShrinkState.Lowers) →
        run.Follows ShrinkState.Lowers) : PassRoutine World where
  name := name
  run := run
  stochastic := stochastic
  lowers := lowers_of_follows (hfollows (lowers_passLogic testFn))

/-- Some of the passes in the order of the source. -/
def samplePasses {World : Type} (testFn : RealizedProbe World) :
    List (PassRoutine World) :=
  [.ofMoves "try_trivial_spans" false
      (tryTrivialSpans testFn.toShrinkProbe 64 0)
      fun hlogic => tryTrivialSpans_holds hlogic 64 0,
    .ofMoves "lower_common_node_offset" false
      (lowerCommonNodeOffset testFn.toShrinkProbe)
      fun hlogic => lowerCommonNodeOffset_holds hlogic.operations
        (Program.follows_of_move fun _ =>
          ShrinkState.SameTarget.lowers ⟨rfl, rfl, rfl, rfl⟩),
    .ofMoves "mutate_and_shrink" true
      (mutateAndShrink testFn.toShrinkProbe 64)
      fun hlogic => mutateAndShrink_holds hlogic.operations 64]

/-- A test that fails for every digit above two. -/
def digitProbe : RealizedProbe PUnit where
  run world request :=
    match request with
    | .full (.mk (.integer _ v) _ :: _) =>
        (.ok ⟨decide (v > 2), [.mk (.integer digitIntegers v) false], []⟩,
          world)
    | _ => (.ok ⟨false, [], []⟩, world)
  now world := (none, world)
  realized := by
    intro world request outcome hanswer
    split at hanswer
    · cases hanswer
      constructor
      · simp [NodesCoherent, ChoiceNode.Coherent, ChoiceData.Coherent]
      · exact nofun
    · cases hanswer
      constructor
      · simp [NodesCoherent]
      · exact nofun

end Samples

end Hegel
