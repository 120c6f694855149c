/-
Which positions have changed.  Acceptance records the positions whose value
moved since the last checkpoint, and lowering a common offset reads the node at
every one of them.  A canonical NaN replaces the target without being recorded,
so the positions stay in range exactly as long as no such replacement ends at
or before one of them.
-/
import Hegel.FindInteger
import Hegel.ShrinkSoundness
import Mathlib.Data.Finset.Sort

namespace Hegel

section Lowering

/-- An integer that is away from its target. -/
structure OffsetInteger where
  index : Nat
  target : Int
  distance : Nat
  sign : Int

/-- The integers at some positions that are away from their targets. -/
def offsetIntegers (nodes : List ChoiceNode) :
    List Nat → Except InternalError (List OffsetInteger)
  | [] => .ok []
  | i :: rest =>
      match nodes[i]? with
      | none =>
          .error ⟨"internal assertion failed: i < self.current_nodes.len()"⟩
      | some (.mk (.integer ic v) _) =>
          let target := ic.clampedShrinkTowards
          if v = target then offsetIntegers nodes rest
          else do
            return ⟨i, target, (v - target).natAbs,
              if v ≥ target then 1 else -1⟩ :: (← offsetIntegers nodes rest)
      | some _ => offsetIntegers nodes rest

/-- The offset that all of the integers have from their targets. -/
def commonOffset (integers : List OffsetInteger) : Except InternalError Nat :=
  match (integers.map OffsetInteger.distance).min? with
  | none => .error ⟨"lower_common_node_offset: no distances despite " ++
      "multiple changed nodes"⟩
  | some offset =>
      if offset > 0 then .ok offset
      else .error ⟨"internal assertion failed: offset.sign() == Sign::Plus"⟩

/-- Where an integer goes when the common offset is lowered. -/
def OffsetInteger.lowered (integer : OffsetInteger)
    (offset newOffset : Nat) (signMultiplier : Int) : Int :=
  let newDistance : Int := newOffset + (integer.distance - offset : Nat)
  if integer.sign * signMultiplier ≥ 0 then integer.target + newDistance
  else integer.target - newDistance

variable {World : Type} (testFn : ShrinkProbe World)

/-- Lower the common offset by some steps. -/
def lowerOffsetBy (integers : List OffsetInteger) (offset : Nat)
    (signMultiplier : Int) (n : Nat) : ShrinkM World Bool :=
  if n > offset then return false
  else
    replace testFn (integers.map fun integer =>
      (integer.index,
        .integer (integer.lowered offset (offset - n) signMultiplier)))

def Shrinker.changedNodes (shrinker : Shrinker) : List Nat :=
  shrinker.allChangedNodes.sort

/-- Lower the offset that the changed integers have in common, on their own
side of the targets and then on the other. -/
def lowerCommonNodeOffset : ShrinkM World PUnit := do
  let shrinker := (← get).shrinker
  let changed := shrinker.changedNodes
  if changed.length ≤ 1 then return ()
  else
    let integers ←
      liftEngine (offsetIntegers shrinker.currentNodes changed)
    if integers.length ≤ 1 then return ()
    else
      let offset ← liftEngine (commonOffset integers)
      FindInteger.drive (lowerOffsetBy testFn integers offset 1)
        FindInteger.rounds .new
      FindInteger.drive (lowerOffsetBy testFn integers offset (-1))
        FindInteger.rounds .new
      modifyShrinker Shrinker.clearChangeTracking

end Lowering

namespace Shrinker

/-- Every tracked position exists in the current target. -/
def ChangedInRange (shrinker : Shrinker) : Prop :=
  ∀ i ∈ shrinker.allChangedNodes, i < shrinker.currentNodes.length

/-- The tracked positions exist in the target and at the checkpoint. -/
structure Tracked (shrinker : Shrinker) : Prop where
  current : shrinker.ChangedInRange
  checkpoint : ∀ i ∈ shrinker.allChangedNodes,
    i < shrinker.lastCheckpointNodes.length

/-- The target and what is tracked about it are the same. -/
structure SameTracking (shrinker shrinker' : Shrinker) : Prop where
  currentNodes : shrinker'.currentNodes = shrinker.currentNodes
  allChangedNodes : shrinker'.allChangedNodes = shrinker.allChangedNodes
  lastCheckpointNodes :
    shrinker'.lastCheckpointNodes = shrinker.lastCheckpointNodes

theorem SameTracking.tracked {shrinker shrinker' : Shrinker}
    (hsame : shrinker.SameTracking shrinker') (htracked : shrinker.Tracked) :
    shrinker'.Tracked := by
  constructor
  · intro i hmem
    rw [hsame.allChangedNodes] at hmem
    rw [hsame.currentNodes]
    exact htracked.current i hmem
  · intro i hmem
    rw [hsame.allChangedNodes] at hmem
    rw [hsame.lastCheckpointNodes]
    exact htracked.checkpoint i hmem

/-- Folding over the pairs only adds their positions. -/
theorem mem_foldl_changed {i : Nat}
    (entries : List ((ChoiceNode × ChoiceNode) × Nat)) (changed : Finset Nat)
    (hmem : i ∈ entries.foldl (fun changed entry =>
        if entry.1.1.valueRef.eq entry.1.2.valueRef then changed
        else insert entry.2 changed) changed) :
    i ∈ changed ∨ ∃ entry ∈ entries, entry.2 = i := by
  induction entries generalizing changed with
  | nil => exact .inl hmem
  | cons entry rest ih =>
      rcases ih _ hmem with hold | ⟨other, hother, hindex⟩
      · by_cases heq : entry.1.1.valueRef.eq entry.1.2.valueRef = true
        · simp only [if_pos heq] at hold
          exact .inl hold
        · simp only [if_neg heq] at hold
          rcases Finset.mem_insert.mp hold with hnew | hbefore
          · exact .inr ⟨entry, List.mem_cons_self, hnew.symm⟩
          · exact .inl hbefore
      · exact .inr ⟨other, List.mem_cons_of_mem _ hother, hindex⟩

/-- What is still tracked after an acceptance was tracked before or is a
position of the new target, and no position was lost. -/
theorem mem_updateChangeTracking {prev new : List ChoiceNode}
    {changed : Finset Nat} {i : Nat}
    (hmem : i ∈ updateChangeTracking prev new changed) :
    prev.length = new.length ∧ (i ∈ changed ∨ i < new.length) := by
  rw [updateChangeTracking] at hmem
  split_ifs at hmem with hshape
  · have hlength : prev.length = new.length :=
      of_decide_eq_true (Bool.and_eq_true_iff.mp hshape).1
    constructor
    · exact hlength
    · rcases mem_foldl_changed _ changed hmem with hold | ⟨entry, hentry, hindex⟩
      · exact .inl hold
      · right
        have hbound := List.snd_lt_of_mem_zipIdx hentry
        rw [List.length_zip] at hbound
        omega
  · exact absurd hmem (Finset.notMem_empty i)

theorem acceptImprovement_tracked {shrinker : Shrinker}
    (htracked : shrinker.Tracked) (nodes : List ChoiceNode)
    (spans : List Span) : (shrinker.acceptImprovement nodes spans).Tracked := by
  have hinside : ∀ i ∈ updateChangeTracking shrinker.lastCheckpointNodes nodes
      shrinker.allChangedNodes, i < nodes.length ∧
        i < shrinker.lastCheckpointNodes.length := by
    intro i hmem
    obtain ⟨hlength, hold | hnew⟩ := mem_updateChangeTracking hmem
    · have hbefore := htracked.checkpoint i hold
      exact ⟨hlength ▸ hbefore, hbefore⟩
    · exact ⟨hnew, hlength ▸ hnew⟩
  constructor
  · exact fun i hmem => (hinside i hmem).1
  · exact fun i hmem => (hinside i hmem).2

theorem clearChangeTracking_tracked (shrinker : Shrinker) :
    shrinker.clearChangeTracking.Tracked := by
  constructor
  · exact fun i hmem => absurd hmem (Finset.notMem_empty i)
  · exact fun i hmem => absurd hmem (Finset.notMem_empty i)

theorem withProbe_tracked (nodes : List ChoiceNode) (spans : List Span) :
    (Shrinker.withProbe nodes spans).Tracked := by
  constructor
  · exact fun i hmem => absurd hmem (Finset.notMem_empty i)
  · exact fun i hmem => absurd hmem (Finset.notMem_empty i)

end Shrinker

section Calls

variable {World : Type} (testFn : ShrinkProbe World)

/-- Trying a canonical NaN makes what the run recorded the target. -/
def Canonicalises (state : ShrinkState World) (attempt : List ChoiceNode)
    (outcome : ShrinkOutcome) : Prop :=
  ((runTestFn testFn (.full attempt)).exec state).1 = .ok outcome ∧
    outcome.isInteresting = true ∧
      (nodesSortKeyCmp outcome.actualNodes
        state.shrinker.currentNodes).isLE = true

/-- Where an operation makes a run with a canonical NaN the target, that run
went beyond all tracked positions. -/
def ShrinkCall.KeepsChanged (state : ShrinkState World) : ShrinkCall → Prop
  | canonicalise attempt => ∀ outcome,
      Canonicalises testFn state attempt outcome →
        ∀ i ∈ state.shrinker.allChangedNodes, i < outcome.actualNodes.length
  | _ => True

/-- The shrinker after some operations. -/
def performCalls (calls : List ShrinkCall) (state : ShrinkState World) :
    ShrinkState World :=
  calls.foldl (fun state call => (call.perform testFn).after state) state

theorem ShrinkState.Retimed.sameTracking {state state' : ShrinkState World}
    (hretimed : state.Retimed state') :
    state.shrinker.SameTracking state'.shrinker := by
  obtain ⟨timedOut, hshrinker⟩ := hretimed.shrinker
  constructor <;> rw [hshrinker]

variable {testFn}

theorem RunEffect.sameTracking {state : ShrinkState World}
    {reached : Except ShrinkHalt ShrinkOutcome × ShrinkState World}
    (heffect : RunEffect testFn state reached) :
    state.shrinker.SameTracking reached.2.shrinker := by
  cases heffect with
  | refused _ hretimed => exact hretimed.sameTracking
  | halted _ _ hretimed => exact hretimed.sameTracking
  | answered _ _ hretimed => exact hretimed.sameTracking

theorem adopt_tracked {state : ShrinkState World}
    (htracked : state.shrinker.Tracked) (run : ShrinkRun) :
    ((adopt testFn run).after state).shrinker.Tracked := by
  have hsame := (runTestFn_effect testFn state run).sameTracking
  rw [adopt]
  cases hexec : (runTestFn testFn run).exec state with
  | mk result state' =>
      rw [hexec] at hsame
      have htracked' := hsame.tracked htracked
      cases result with
      | error halt =>
          rw [Program.after_bind_error hexec]
          exact htracked'
      | ok outcome =>
          rw [Program.after_bind_ok hexec, Program.after]
          simp only [Program.exec_bind, modifyShrinker, Program.exec_modify,
            Program.exec_get]
          by_cases hadopted : outcome.isInteresting = true ∧
              nodesSortKeyCmp outcome.actualNodes
                state'.shrinker.currentNodes = .lt
          · simp only [if_pos hadopted, Program.exec_bind, note,
              Program.exec_modify, Program.exec_pure]
            apply Shrinker.acceptImprovement_tracked
            exact ⟨htracked'.current, htracked'.checkpoint⟩
          · simp only [if_neg hadopted, Program.exec_bind, note,
              Program.exec_modify, Program.exec_pure]
            exact ⟨htracked'.current, htracked'.checkpoint⟩

/-- A canonical NaN may replace the target and touches nothing that is
tracked. -/
theorem canonicalise_tracking (state : ShrinkState World)
    (attempt : List ChoiceNode) :
    let state' := (canonicalise testFn attempt).after state
    state'.shrinker.allChangedNodes = state.shrinker.allChangedNodes ∧
      state'.shrinker.lastCheckpointNodes =
        state.shrinker.lastCheckpointNodes ∧
      ((∃ outcome, Canonicalises testFn state attempt outcome ∧
          state'.shrinker.currentNodes = outcome.actualNodes) ∨
        (∀ outcome, ¬Canonicalises testFn state attempt outcome) ∧
          state'.shrinker.currentNodes = state.shrinker.currentNodes) := by
  have hsame := (runTestFn_effect testFn state (.full attempt)).sameTracking
  rw [canonicalise]
  cases hexec : (runTestFn testFn (.full attempt)).exec state with
  | mk result state' =>
      rw [hexec] at hsame
      cases result with
      | error halt =>
          rw [Program.after_bind_error hexec]
          refine ⟨hsame.allChangedNodes, hsame.lastCheckpointNodes, .inr ?_⟩
          constructor
          · intro outcome hcanonicalises
            rw [Canonicalises, hexec] at hcanonicalises
            exact absurd hcanonicalises.1 (by simp)
          · exact hsame.currentNodes
      | ok outcome =>
          have hnodes : state'.shrinker.currentNodes =
              state.shrinker.currentNodes := hsame.currentNodes
          rw [Program.after_bind_ok hexec, Program.after]
          simp only [Program.exec_bind, modifyShrinker, Program.exec_modify,
            Program.exec_get, hnodes]
          by_cases hadopted : outcome.isInteresting = true ∧
              (nodesSortKeyCmp outcome.actualNodes
                state.shrinker.currentNodes).isLE
          · simp only [if_pos hadopted, Program.exec_bind, note,
              Program.exec_modify]
            refine ⟨hsame.allChangedNodes, hsame.lastCheckpointNodes, .inl ?_⟩
            refine ⟨outcome, ?_, rfl⟩
            rw [Canonicalises, hexec]
            exact ⟨rfl, hadopted⟩
          · simp only [if_neg hadopted, note, Program.exec_modify]
            refine ⟨hsame.allChangedNodes, hsame.lastCheckpointNodes, .inr ?_⟩
            constructor
            · intro other hcanonicalises
              rw [Canonicalises, hexec] at hcanonicalises
              obtain ⟨hother, hinteresting⟩ := hcanonicalises
              cases hother
              exact hadopted hinteresting
            · trivial

theorem inspect_sameTracking (state : ShrinkState World) (run : ShrinkRun) :
    state.shrinker.SameTracking
      ((inspect testFn run).after state).shrinker := by
  have hsame := (runTestFn_effect testFn state run).sameTracking
  rw [inspect]
  cases hexec : (runTestFn testFn run).exec state with
  | mk result state' =>
      rw [hexec] at hsame
      cases result with
      | error halt =>
          rw [Program.after_bind_error hexec]
          exact hsame
      | ok outcome =>
          rw [Program.after_bind_ok hexec, Program.after_bind_pure]
          exact hsame

theorem visit_sameTracking (state : ShrinkState World) (run : ShrinkRun) :
    state.shrinker.SameTracking
      ((visit testFn run).after state).shrinker := by
  have hsame : state.shrinker.SameTracking
      ((callTestFn testFn run).exec state).2.shrinker :=
    (callTestFn_effect .still run).sameTracking
  rw [visit]
  cases hexec : (callTestFn testFn run).exec state with
  | mk result state' =>
      rw [hexec] at hsame
      cases result with
      | error halt =>
          rw [Program.after_bind_error hexec]
          exact hsame
      | ok outcome =>
          rw [Program.after_bind_ok hexec, Program.after_bind_pure]
          exact hsame

/-- An operation that keeps the tracked positions in range keeps all that is
tracked. -/
theorem ShrinkCall.tracked {state : ShrinkState World}
    (htracked : state.shrinker.Tracked) {call : ShrinkCall}
    (hkeeps : call.KeepsChanged testFn state) :
    ((call.perform testFn).after state).shrinker.Tracked := by
  cases call with
  | canonicalise attempt =>
      rw [perform]
      obtain ⟨hchanged, hcheckpoint, hnodes⟩ :=
        @canonicalise_tracking _ testFn state attempt
      rcases hnodes with ⟨outcome, hcanonicalises, hnodes⟩ | ⟨hnone, hnodes⟩
      · constructor
        · intro i hmem
          rw [hnodes]
          exact hkeeps outcome hcanonicalises i (hchanged ▸ hmem)
        · intro i hmem
          rw [hcheckpoint]
          exact htracked.checkpoint i (hchanged ▸ hmem)
      · exact Shrinker.SameTracking.tracked ⟨hnodes, hchanged, hcheckpoint⟩
          htracked
  | adopt run =>
      rw [perform, Program.after_bind_pure]
      exact adopt_tracked htracked run
  | inspect run =>
      rw [perform, Program.after_bind_pure]
      exact (inspect_sameTracking state run).tracked htracked
  | visit run =>
      rw [perform, Program.after_bind_pure]
      exact (visit_sameTracking state run).tracked htracked
  | readClock => exact htracked
  | latchTimeout => exact ⟨htracked.current, htracked.checkpoint⟩
  | clearChangeTracking =>
      exact Shrinker.clearChangeTracking_tracked state.shrinker
  | enterIteration => exact ⟨htracked.current, htracked.checkpoint⟩
  | growMaxStall target => exact ⟨htracked.current, htracked.checkpoint⟩

/-- Only an operation that keeps the tracked positions in range leaves them
there. -/
theorem ShrinkCall.keepsChanged_of_inRange {state : ShrinkState World}
    {call : ShrinkCall}
    (hrange : ((call.perform testFn).after state).shrinker.ChangedInRange) :
    call.KeepsChanged testFn state := by
  cases call with
  | canonicalise attempt =>
      intro outcome hcanonicalises i hmem
      rw [perform] at hrange
      obtain ⟨hchanged, -, ⟨other, hother, hnodes⟩ | ⟨hnone, -⟩⟩ :=
        @canonicalise_tracking _ testFn state attempt
      · cases hother.1.symm.trans hcanonicalises.1
        rw [← hnodes]
        exact hrange i (hchanged ▸ hmem)
      · exact absurd hcanonicalises (hnone outcome)
  | adopt run => trivial
  | inspect run => trivial
  | visit run => trivial
  | readClock => trivial
  | latchTimeout => trivial
  | clearChangeTracking => trivial
  | enterIteration => trivial
  | growMaxStall target => trivial

theorem performCalls_concat (calls : List ShrinkCall) (call : ShrinkCall)
    (state : ShrinkState World) :
    performCalls testFn (calls ++ [call]) state =
      (call.perform testFn).after (performCalls testFn calls state) := by
  rw [performCalls, List.foldl_append]
  rfl

/-- Operations that each keep the tracked positions in range keep them there
together. -/
theorem performCalls_tracked {state : ShrinkState World}
    (htracked : state.shrinker.Tracked) {calls : List ShrinkCall}
    (hkeeps : ∀ done call, done ++ [call] <+: calls →
      call.KeepsChanged testFn (performCalls testFn done state)) :
    (performCalls testFn calls state).shrinker.Tracked := by
  induction calls using List.reverseRecOn with
  | nil => exact htracked
  | append_singleton calls call ih =>
      rw [performCalls_concat]
      apply ShrinkCall.tracked
      · apply ih
        intro done other hbegin
        exact hkeeps done other (hbegin.trans (List.prefix_append calls [call]))
      · exact hkeeps calls call List.prefix_rfl

/-- Going along operations is performing some of them. -/
theorem exists_calls_of_reaches {state state' : ShrinkState World}
    (hreaches : ShrinkReaches testFn state state') :
    ∃ calls, state' = performCalls testFn calls state := by
  induction hreaches with
  | refl => exact ⟨[], rfl⟩
  | tail _ hlast ih =>
      obtain ⟨calls, rfl⟩ := ih
      obtain ⟨call, rfl⟩ := hlast
      exact ⟨calls ++ [call], (performCalls_concat calls call state).symm⟩

end Calls

section Passes

open Program

variable {World : Type} {testFn : ShrinkProbe World}
  {holds : ∀ Value : Type, ShrinkM World Value → Prop}
  (hlogic : OperationLogic testFn holds)

include hlogic

theorem drive_holds {predicate : Nat → ShrinkM World Bool}
    (hpredicate : ∀ n, holds _ (predicate n)) (rounds : Nat)
    (search : FindInteger) :
    holds _ (FindInteger.drive predicate rounds search) := by
  induction rounds generalizing search with
  | zero => exact hlogic.pure _
  | succ rounds ih =>
      rw [FindInteger.drive]
      cases search.probe with
      | none => exact hlogic.pure _
      | some n => exact hlogic.bind (hpredicate n) fun ok => ih _

theorem lowerOffsetBy_holds (integers : List OffsetInteger) (offset : Nat)
    (signMultiplier : Int) (n : Nat) :
    holds _ (lowerOffsetBy testFn integers offset signMultiplier n) := by
  apply hlogic.ite
  · exact fun _ => hlogic.pure _
  · exact fun _ => replace_holds hlogic _

theorem lowerCommonNodeOffset_holds
    (hclear : holds _ (modifyShrinker Shrinker.clearChangeTracking)) :
    holds _ (lowerCommonNodeOffset testFn) := by
  apply hlogic.bind hlogic.get
  intro state
  apply hlogic.ite
  · exact fun _ => hlogic.pure _
  · intro _
    apply hlogic.bind (liftEngine_holds hlogic _)
    intro integers
    apply hlogic.ite
    · exact fun _ => hlogic.pure _
    · intro _
      apply hlogic.bind (liftEngine_holds hlogic _)
      intro offset
      apply hlogic.bind
        (drive_holds hlogic (lowerOffsetBy_holds hlogic integers offset 1) _ _)
      intro _
      apply hlogic.bind
        (drive_holds hlogic
          (lowerOffsetBy_holds hlogic integers offset (-1)) _ _)
      intro _
      exact hclear

omit hlogic

variable (testFn)

/-- A pass, or the lowering of a common offset. -/
inductive TrackingPass where
  | pass (inner : ShrinkPass)
  | lowerCommonNodeOffset

def TrackingPass.perform : TrackingPass → ShrinkM World PUnit
  | .pass inner => inner.perform testFn
  | .lowerCommonNodeOffset => Hegel.lowerCommonNodeOffset testFn

/-- Passes in any order. -/
def TrackingPass.performAll (schedule : List TrackingPass) :
    ShrinkM World PUnit :=
  schedule.forM (TrackingPass.perform testFn)

theorem TrackingPass.performAll_follows (schedule : List TrackingPass) :
    Follows (ShrinkMove testFn) (TrackingPass.performAll testFn schedule) := by
  apply follows_forM
  intro pass
  cases pass with
  | pass inner =>
      exact ShrinkPass.perform_holds shrinkMove_passFamily inner testFn
  | lowerCommonNodeOffset =>
      exact lowerCommonNodeOffset_holds (shrinkMove_passLogic testFn).operations
        (follows_call testFn .clearChangeTracking)

/-- The nodes at positions in range can be read. -/
theorem offsetIntegers_ok {nodes : List ChoiceNode} {indices : List Nat}
    (hrange : ∀ i ∈ indices, i < nodes.length) :
    ∃ integers, offsetIntegers nodes indices = .ok integers := by
  induction indices with
  | nil => exact ⟨[], rfl⟩
  | cons i rest ih =>
      obtain ⟨integers, hrest⟩ :=
        ih fun j hmem => hrange j (List.mem_cons_of_mem i hmem)
      have hnode := List.getElem?_eq_getElem (hrange i List.mem_cons_self)
      rw [offsetIntegers, hnode]
      split
      · contradiction
      · dsimp only
        split
        · exact ⟨integers, hrest⟩
        · rw [hrest]
          exact ⟨_, rfl⟩
      · exact ⟨integers, hrest⟩

/-- A position that cannot be read ends the shrink. -/
theorem lowerCommonNodeOffset_trips {testFn : ShrinkProbe World}
    {state : ShrinkState World} {error : InternalError}
    (hmany : 1 < state.shrinker.changedNodes.length)
    (herror : offsetIntegers state.shrinker.currentNodes
      state.shrinker.changedNodes = .error error) :
    (lowerCommonNodeOffset testFn).exec state =
      (.error (.error (.internal error)), state) := by
  rw [lowerCommonNodeOffset, Program.exec_bind, Program.exec_get]
  simp only [if_neg (not_le.mpr hmany), herror, liftEngine,
    Program.exec_bind, Program.exec_throw]

end Passes

/-- Passes in any order are runs of operations, and in a run the tracked
positions are in range at every moment, where the lowering of a common offset
can read all of them, exactly when each canonical NaN that becomes the target
in it was run beyond all positions tracked by then. -/
theorem changedNodes_inRange_iff {World : Type} (testFn : ShrinkProbe World)
    (nodes : List ChoiceNode) (spans : List Span) (deadline : Option Nat)
    (world : World) :
    let start := ShrinkState.start nodes spans deadline world
    (∀ schedule, ∃ calls,
      (TrackingPass.performAll testFn schedule).after start =
        performCalls testFn calls start) ∧
      ∀ calls,
        (∀ done, done <+: calls →
          let shrinker := (performCalls testFn done start).shrinker
          shrinker.ChangedInRange ∧ ∃ integers,
            offsetIntegers shrinker.currentNodes shrinker.changedNodes =
              .ok integers) ↔
        ∀ done call, done ++ [call] <+: calls →
          call.KeepsChanged testFn (performCalls testFn done start) := by
  intro start
  constructor
  · intro schedule
    exact exists_calls_of_reaches
      (TrackingPass.performAll_follows testFn schedule start)
  · intro calls
    constructor
    · intro hrange done call hbegin
      apply ShrinkCall.keepsChanged_of_inRange
      rw [← performCalls_concat]
      exact (hrange _ hbegin).1
    · intro hkeeps done hbegin
      have htracked : (performCalls testFn done start).shrinker.Tracked := by
        apply performCalls_tracked
        · exact ⟨(Shrinker.withProbe_tracked nodes spans).current,
            (Shrinker.withProbe_tracked nodes spans).checkpoint⟩
        · exact fun before call hbefore =>
            hkeeps before call (hbefore.trans hbegin)
      refine ⟨htracked.current, ?_⟩
      apply offsetIntegers_ok
      intro i hmem
      exact htracked.current i ((Finset.mem_sort _).mp hmem)

section Samples

def nanFloats : FloatChoice where
  minValue := .negInfinity
  maxValue := .infinity
  allowNan := true
  allowInfinity := true
  smallestNonzeroMagnitude := ⟨1, Binary64.one_lt⟩
  minValue_number := Binary64.negInfinity_isNan
  maxValue_number := Binary64.infinity_isNan

def digitIntegers : IntegerChoice := ⟨0, 9, 0, by decide⟩

/-- A NaN that is not the canonical one, and two digits. -/
def nanAndDigits : List ChoiceNode :=
  [.mk (.float nanFloats ⟨2047 * 2 ^ 52 + 1, by decide⟩) false,
    .mk (.integer digitIntegers 5) false, .mk (.integer digitIntegers 7) false]

def digitsSpan : Span := ⟨1, 3, "digits", 0, none, false⟩

/-- A test that fails for every NaN and only draws the digits after one that is
not canonical. -/
def nanProbe : ShrinkProbe PUnit where
  run world run :=
    match run with
    | .full (.mk (.float fc v) forced :: rest) =>
        if v.bits = Binary64.nan.bits then
          (.ok ⟨true, [.mk (.float fc v) forced], []⟩, world)
        else
          (.ok ⟨v.isNan, .mk (.float fc v) forced :: rest, [digitsSpan]⟩, world)
    | _ => (.ok ⟨false, [], []⟩, world)
  now world := (none, world)

/-- Both digits are lowered and tracked, the canonical NaN drops them, and
lowering their common offset trips over the first. -/
theorem changedNodes_outOfRange :
    let reached := (TrackingPass.performAll nanProbe
      [.pass (.tryTrivialSpans 1), .pass (.shrinkSpecialFloat 0)]).after
        (.start nanAndDigits [digitsSpan] none PUnit.unit)
    ¬reached.shrinker.ChangedInRange ∧
      ((lowerCommonNodeOffset nanProbe).exec reached).1 =
        .error (.error (.internal
          ⟨"internal assertion failed: i < self.current_nodes.len()"⟩)) := by
  intro reached
  have hchanged : reached.shrinker.changedNodes = [1, 2] := by
    have hset : reached.shrinker.allChangedNodes = {1, 2} := by
      decide +kernel
    rw [Shrinker.changedNodes, hset, Finset.sort_insert]
    all_goals simp
  constructor
  · intro hrange
    have hlost := hrange 2 (by decide +kernel)
    exact absurd hlost (by decide +kernel)
  · rw [lowerCommonNodeOffset_trips]
    · rw [hchanged]
      decide
    · rw [hchanged]
      rfl

end Samples

end Hegel
