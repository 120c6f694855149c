/-
Recursive draws.  The engine decides leaf or branch for every part of a value,
depth first, and keeps account of the children its branches turn out to have.
An attempt with too many leaves is retried, and one that was mispriced is
discarded when it is finished; both leave the account and the spans in order.
-/
import Hegel.Collections
import Hegel.Lib.Traversal

namespace Hegel

open Traversal (Shape Tracker)

/-- State of one recursive draw. -/
structure RecursionState where
  maxDepth : Nat
  maxLeaves : Nat
  attempt : Nat
  leaves : Nat
  baseSpanDepth : Nat
  target : Nat
  branchProbability : Binary64
  closedChildren : Nat
  closedBranches : Nat
  /-- Depth and number of children so far, the deepest branch first. -/
  openBranches : List (Nat × Nat)
  reprices : Nat

namespace RecursionState

/-- Count a leaf unless there are as many as there may be. -/
def countLeaf (state : RecursionState) : Bool × RecursionState :=
  if state.leaves ≥ state.maxLeaves then (false, state)
  else (true, { state with leaves := state.leaves + 1 })

/-- The open branches that a decision at some depth ends. -/
def finished (state : RecursionState) (depth : Nat) : List (Nat × Nat) :=
  state.openBranches.takeWhile fun branch => decide (depth ≤ branch.1)

/-- Move branches into the closed totals and keep the others. -/
def close (state : RecursionState) (finished remaining : List (Nat × Nat)) :
    RecursionState :=
  { state with
    closedChildren := state.closedChildren + (finished.map Prod.snd).sum
    closedBranches := state.closedBranches + finished.length
    openBranches := remaining }

/-- Close what a decision ends; the decision is a child of the deepest branch
that is still open. -/
def observeDecision (state : RecursionState) (depth : Nat) : RecursionState :=
  let remaining := state.openBranches.dropWhile fun branch =>
    decide (depth ≤ branch.1)
  state.close (state.finished depth)
    (if 0 < depth then Tracker.addChildren 1 remaining else remaining)

def observeBranch (state : RecursionState) (depth : Nat) : RecursionState :=
  { state with openBranches := (depth, 0) :: state.openBranches }

def closeRemainingBranches (state : RecursionState) : RecursionState :=
  state.close state.openBranches []

def discardOpenBranches (state : RecursionState) : RecursionState :=
  { state with openBranches := [] }

end RecursionState

/-- The prices of branches, which are floating-point functions of the state:
what an attempt starts from, what a decision at some depth is drawn with, and
whether a completed attempt was mispriced. -/
structure RecursionPricing where
  priced : RecursionState → Binary64
  decision : RecursionState → Nat → Binary64
  mispriced : RecursionState → Bool

def recursionMaxAttempts : Nat := 9

def recursionMaxReprices : Nat := 2

def recursionLargeTargetProbability : Binary64 := .ofRatio 3 4

def labelInteger : Nat := 26

def labelBoolean : Nat := 28

/-- Close spans as discarded while there are more than some number open. -/
def StreamRecord.unwind (depth : Nat) : Nat → StreamRecord → StreamRecord
  | 0, record => record
  | fuel + 1, record =>
      if record.spanStack.length > depth then
        unwind depth fuel (record.stopSpan true)
      else record

/-- Every open span can be closed. -/
def Source.unwind {Rng : Type} (source : Source Rng) (depth : Nat) :
    Source Rng :=
  { source with
    stream := ⟨source.stream.record.unwind depth
      source.stream.record.spanStack.length, source.stream.input⟩ }

section Calls

variable {Rng : Type} (pricing : RecursionPricing) (sampler : Sampler Rng)

/-- The number of leaves to aim for: one, or any number that there may be. -/
def recursionTarget (maxLeaves : Nat) :
    Attempt (Source Rng) MachineError Nat := do
  if maxLeaves < 2 then return 1
  else
    let large ← spanned labelBoolean
      (drawWeightedPrecise sampler recursionLargeTargetProbability none)
    if large then
      let value ← spanned labelInteger
        (drawValue sampler (.integerUniform 2 maxLeaves))
      Attempt.ofExcept (value.asId.elim (.error .outOfRange) .ok)
    else return 1

def newRecursionState (maxDepth maxLeaves : Nat) :
    Attempt (Source Rng) MachineError RecursionState := do
  let source ← Attempt.read
  let target ← recursionTarget sampler maxLeaves
  let state : RecursionState := {
    maxDepth := maxDepth
    maxLeaves := maxLeaves
    attempt := 0
    leaves := 0
    baseSpanDepth := source.stream.record.spanStack.length
    target := target
    branchProbability := .zero
    closedChildren := 0
    closedBranches := 0
    openBranches := []
    reprices := 0 }
  return { state with branchProbability := pricing.priced state }

/-- Decide whether a part of the value at some depth is a branch.  At the
depth limit the decision is drawn all the same. -/
def recursionBranch (depth : Nat) :
    Attempt (RecursionState × Source Rng) CallError Bool := do
  Attempt.modify fun (state, source) => (state.observeDecision depth, source)
  let (state, _) ← Attempt.read
  let p :=
    if depth ≥ state.maxDepth then .zero else pricing.decision state depth
  let branch ← NativeDataSource.drawing
    (spanned labelBoolean (drawWeightedPrecise sampler p none))
  if branch then
    Attempt.modify fun (state, source) => (state.observeBranch depth, source)
  return branch

/-- The next attempt, with the price that the account now gives. -/
def RecursionState.repriced (state : RecursionState) : RecursionState :=
  { state with branchProbability := pricing.priced state }

/-- Discard an attempt that had too many leaves. -/
def recursionRetry : Attempt (RecursionState × Source Rng) CallError Unit := do
  Attempt.modify fun (state, source) =>
    ({ state.discardOpenBranches with
        leaves := 0
        attempt := state.attempt + 1 },
      source.unwind state.baseSpanDepth)
  let (state, _) ← Attempt.read
  if state.attempt ≥ recursionMaxAttempts then
    Attempt.modify fun (state, source) => (state, source.rejected)
    Attempt.refuse (.draw (.engine .invalidTestCase))
  else
    Attempt.modify fun (state, source) => (state.repriced pricing, source)

/-- Decide whether a completed attempt is accepted; one that was mispriced is
discarded, but not for ever. -/
def recursionFinish : Attempt (RecursionState × Source Rng) CallError Bool := do
  Attempt.modify fun (state, source) => (state.closeRemainingBranches, source)
  let (state, _) ← Attempt.read
  if state.reprices ≥ recursionMaxReprices then return true
  else if !pricing.mispriced state then return true
  else
    Attempt.modify fun (state, source) =>
      (({ state with
          leaves := 0
          reprices := state.reprices + 1 } : RecursionState).repriced pricing,
        source.unwind state.baseSpanDepth)
    return false

namespace NativeDataSource

def newRecursion (maxDepth maxLeaves : Nat) :
    Attempt (Unit × NativeDataSource Rng) DataSourceError RecursionState :=
  withNtc (drawing (newRecursionState pricing sampler maxDepth maxLeaves))

def recursionBranch (depth : Nat) :
    Attempt (RecursionState × NativeDataSource Rng) DataSourceError Bool :=
  withNtc (Hegel.recursionBranch pricing sampler depth)

def recursionLeaf :
    Attempt (RecursionState × NativeDataSource Rng) DataSourceError Bool :=
  withNtc fun (state, source) =>
    (.ok state.countLeaf.1, state.countLeaf.2, source)

def recursionRetry :
    Attempt (RecursionState × NativeDataSource Rng) DataSourceError Unit :=
  withNtc (Hegel.recursionRetry pricing)

def recursionFinish :
    Attempt (RecursionState × NativeDataSource Rng) DataSourceError Bool :=
  withNtc (Hegel.recursionFinish pricing)

/-- The spans that are open, the innermost one first. -/
def spanStack (data : NativeDataSource Rng) : List Nat :=
  data.inner.stream.record.spanStack

end NativeDataSource

end Calls

section Unwinding

/-- Unwinding leaves the outermost spans. -/
theorem StreamRecord.spanStack_unwind (depth : Nat) {fuel : Nat}
    {record : StreamRecord} (hfuel : record.spanStack.length ≤ fuel) :
    (record.unwind depth fuel).spanStack =
      record.spanStack.drop (record.spanStack.length - depth) := by
  induction fuel generalizing record with
  | zero =>
      have hnil := List.length_eq_zero_iff.mp (Nat.le_zero.mp hfuel)
      rw [unwind, hnil, List.drop_nil]
  | succ fuel ih =>
      rw [unwind]
      by_cases hdeeper : record.spanStack.length > depth
      · rw [if_pos hdeeper]
        have htail : (record.stopSpan true).spanStack =
            record.spanStack.tail := by
          rw [stopSpan]
          cases hstack : record.spanStack with
          | nil => simp [hstack]
          | cons idx rest => rfl
        have hless : (record.stopSpan true).spanStack.length ≤ fuel := by
          rw [htail, List.length_tail]
          omega
        rw [ih hless, htail, List.length_tail, ← List.drop_one,
          List.drop_drop]
        congr 1
        omega
      · rw [if_neg hdeeper, show record.spanStack.length - depth = 0 by omega,
          List.drop_zero]

variable {Rng : Type}

theorem Source.spanStack_unwind (source : Source Rng) {base : List Nat}
    (hbase : base <:+ source.stream.record.spanStack) :
    (source.unwind base.length).stream.record.spanStack = base := by
  obtain ⟨opened, hstack⟩ := hbase
  change (StreamRecord.unwind _ _ _).spanStack = base
  rw [StreamRecord.spanStack_unwind _ (le_refl _), ← hstack,
    List.length_append, Nat.add_sub_cancel, List.drop_left]

end Unwinding

/-- What happened in a recursive draw: the decisions of the attempt, the
numbers of children of the branches it closed and of those closed before it,
its leaves, and how often an attempt was retried and discarded. -/
structure RecursionProgress where
  decisions : List (Nat × Bool)
  closed : List Nat
  earlier : List Nat
  leaves : Nat
  retries : Nat
  reprices : Nat

namespace RecursionProgress

def none : RecursionProgress :=
  ⟨[], [], [], 0, 0, 0⟩

/-- Another decision, which closes branches with some numbers of children. -/
def decided (progress : RecursionProgress) (decision : Nat × Bool)
    (closed : List Nat) : RecursionProgress :=
  { progress with
    decisions := progress.decisions ++ [decision]
    closed := progress.closed ++ closed }

def asked (progress : RecursionProgress) (counted : Bool) :
    RecursionProgress :=
  if counted then { progress with leaves := progress.leaves + 1 } else progress

/-- The next attempt, when an attempt has closed its last branches. -/
def next (progress : RecursionProgress) (closed : List Nat) :
    RecursionProgress :=
  { progress with
    decisions := []
    closed := []
    earlier := progress.earlier ++ progress.closed ++ closed
    leaves := 0 }

def retried (progress : RecursionProgress) : RecursionProgress :=
  { progress.next [] with retries := progress.retries + 1 }

def discarded (progress : RecursionProgress) (closed : List Nat) :
    RecursionProgress :=
  { progress.next closed with reprices := progress.reprices + 1 }

/-- The numbers of children of all branches closed so far. -/
def account (progress : RecursionProgress) : List Nat :=
  progress.earlier ++ progress.closed

end RecursionProgress

section Runs

variable {Rng : Type}

namespace NativeDataSource

/-- Runs of a recursive draw by calls that succeed; in between anything may
happen to the test case.  A draw goes on after a finish that discards. -/
inductive RecursionRun (pricing : RecursionPricing) (sampler : Sampler Rng)
    (start : RecursionState) : RecursionProgress → RecursionState → Prop
  | start : RecursionRun pricing sampler start .none start
  | decide {progress : RecursionProgress} {state after : RecursionState}
      {data data' : NativeDataSource Rng} {depth : Nat} {branch : Bool}
      (hrun : RecursionRun pricing sampler start progress state)
      (hcall : recursionBranch pricing sampler depth (state, data) =
        (.ok branch, after, data')) :
      RecursionRun pricing sampler start (progress.decided (depth, branch)
        ((state.finished depth).map Prod.snd)) after
  | leaf {progress : RecursionProgress} {state after : RecursionState}
      {data data' : NativeDataSource Rng} {counted : Bool}
      (hrun : RecursionRun pricing sampler start progress state)
      (hcall : recursionLeaf (state, data) = (.ok counted, after, data')) :
      RecursionRun pricing sampler start (progress.asked counted) after
  | retry {progress : RecursionProgress} {state after : RecursionState}
      {data data' : NativeDataSource Rng}
      (hrun : RecursionRun pricing sampler start progress state)
      (hcall : recursionRetry pricing (state, data) = (.ok (), after, data')) :
      RecursionRun pricing sampler start progress.retried after
  | finish {progress : RecursionProgress} {state after : RecursionState}
      {data data' : NativeDataSource Rng}
      (hrun : RecursionRun pricing sampler start progress state)
      (hcall : recursionFinish pricing (state, data) =
        (.ok false, after, data')) :
      RecursionRun pricing sampler start
        (progress.discarded (state.openBranches.map Prod.snd)) after

variable {pricing : RecursionPricing} {sampler : Sampler Rng}
  {state after : RecursionState} {data data' : NativeDataSource Rng}

theorem withNtc_ok {Own Value : Type}
    {call : Attempt (Own × Source Rng) CallError Value} {own own' : Own}
    {value : Value}
    (hcall : withNtc call (own, data) = (.ok value, own', data')) :
    ∃ inner, data' = ⟨inner, false⟩ ∧
      call (own, data.inner) = (.ok value, own', inner) := by
  rw [withNtc] at hcall
  by_cases haborted : data.aborted = true
  · rw [if_pos haborted] at hcall
    cases hcall
  · rw [if_neg haborted] at hcall
    rcases houtcome : call (own, data.inner) with ⟨result, own₁, inner⟩
    rw [houtcome] at hcall
    cases result with
    | ok value =>
        cases hcall
        exact ⟨inner, rfl, rfl⟩
    | error error => cases hcall

/-- A decision closes what it ends, and opens a branch if it is one. -/
theorem recursionBranch_ok {depth : Nat} {branch : Bool}
    (hcall : recursionBranch pricing sampler depth (state, data) =
      (.ok branch, after, data')) :
    after = if branch then (state.observeDecision depth).observeBranch depth
      else state.observeDecision depth := by
  obtain ⟨inner, rfl, hdone⟩ := withNtc_ok hcall
  simp only [Hegel.recursionBranch, bind, Attempt.bind, Attempt.modify,
    Attempt.read, drawing] at hdone
  generalize hdraw : spanned labelBoolean _ data.inner = drawn at hdone
  obtain ⟨result, source⟩ := drawn
  cases result with
  | error error => cases hdone
  | ok answer =>
      cases answer with
      | true =>
          cases hdone
          rfl
      | false =>
          cases hdone
          rfl

theorem recursionLeaf_ok {counted : Bool}
    (hcall : recursionLeaf (state, data) = (.ok counted, after, data')) :
    (counted, after) = state.countLeaf := by
  obtain ⟨inner, rfl, hdone⟩ := withNtc_ok hcall
  cases hdone
  rfl

/-- A retry that succeeds starts the next attempt. -/
theorem recursionRetry_ok
    (hcall : recursionRetry pricing (state, data) = (.ok (), after, data')) :
    state.attempt + 1 < recursionMaxAttempts ∧
      after = ({ state.discardOpenBranches with
        leaves := 0
        attempt := state.attempt + 1 } : RecursionState).repriced pricing := by
  obtain ⟨inner, rfl, hdone⟩ := withNtc_ok hcall
  simp only [Hegel.recursionRetry, bind, Attempt.bind, Attempt.modify,
    Attempt.read] at hdone
  by_cases hlast : state.attempt + 1 ≥ recursionMaxAttempts
  · rw [if_pos hlast] at hdone
    cases hdone
  · rw [if_neg hlast] at hdone
    cases hdone
    exact ⟨Nat.lt_of_not_le hlast, rfl⟩

/-- The state after a finish. -/
theorem recursionFinish_ok {accepted : Bool}
    (hcall : recursionFinish pricing (state, data) =
      (.ok accepted, after, data')) :
    if accepted then after = state.closeRemainingBranches
    else state.reprices < recursionMaxReprices ∧
      after = ({ state.closeRemainingBranches with
        leaves := 0
        reprices := state.reprices + 1 } : RecursionState).repriced pricing := by
  obtain ⟨inner, rfl, hdone⟩ := withNtc_ok hcall
  simp only [Hegel.recursionFinish, bind, Attempt.bind, Attempt.modify,
    Attempt.read] at hdone
  by_cases hmost : state.closeRemainingBranches.reprices ≥ recursionMaxReprices
  · rw [if_pos hmost] at hdone
    cases hdone
    rfl
  · rw [if_neg hmost] at hdone
    by_cases hfair : (!pricing.mispriced state.closeRemainingBranches) = true
    · rw [if_pos hfair] at hdone
      cases hdone
      rfl
    · rw [if_neg hfair] at hdone
      cases hdone
      exact ⟨Nat.lt_of_not_le hmost, rfl⟩

/-- A new draw has done nothing yet. -/
theorem newRecursion_ok {maxDepth maxLeaves : Nat} {start : RecursionState}
    (hcall : newRecursion pricing sampler maxDepth maxLeaves ((), data) =
      (.ok start, (), data')) :
    start.maxLeaves = maxLeaves ∧
      start.baseSpanDepth = data.spanStack.length ∧ start.attempt = 0 ∧
      start.leaves = 0 ∧ start.closedChildren = 0 ∧ start.closedBranches = 0 ∧
      start.openBranches = [] ∧ start.reprices = 0 := by
  obtain ⟨inner, rfl, hdone⟩ := withNtc_ok hcall
  simp only [drawing, newRecursionState, bind, Attempt.bind,
    Attempt.read] at hdone
  generalize hdraw : recursionTarget sampler maxLeaves data.inner = drawn
    at hdone
  obtain ⟨result, source⟩ := drawn
  cases result with
  | error error => cases hdone
  | ok target =>
      cases hdone
      exact ⟨rfl, rfl, rfl, rfl, rfl, rfl, rfl, rfl⟩

/-- A retry leaves the spans open that were open to start with, also when it
turns the test case down. -/
theorem recursionRetry_spanStack {base : List Nat}
    (hopen : data.aborted = false) (hdepth : state.baseSpanDepth = base.length)
    (hbase : base <:+ data.spanStack) :
    (recursionRetry pricing (state, data)).2.2.spanStack = base := by
  rw [recursionRetry, withNtc, hopen, if_neg Bool.false_ne_true]
  simp only [Hegel.recursionRetry, bind, Attempt.bind, Attempt.modify,
    Attempt.read, hdepth]
  by_cases hlast : state.attempt + 1 ≥ recursionMaxAttempts
  · rw [if_pos hlast]
    exact data.inner.spanStack_unwind hbase
  · rw [if_neg hlast]
    exact data.inner.spanStack_unwind hbase

theorem recursionFinish_spanStack {base : List Nat}
    (hdepth : state.baseSpanDepth = base.length)
    (hbase : base <:+ data.spanStack)
    (hcall : recursionFinish pricing (state, data) =
      (.ok false, after, data')) :
    data'.spanStack = base := by
  obtain ⟨inner, rfl, hdone⟩ := withNtc_ok hcall
  simp only [Hegel.recursionFinish, bind, Attempt.bind, Attempt.modify,
    Attempt.read] at hdone
  by_cases hmost : state.closeRemainingBranches.reprices ≥ recursionMaxReprices
  · rw [if_pos hmost] at hdone
    cases hdone
  · rw [if_neg hmost] at hdone
    by_cases hfair : (!pricing.mispriced state.closeRemainingBranches) = true
    · rw [if_pos hfair] at hdone
      cases hdone
    · rw [if_neg hfair] at hdone
      cases hdone
      change (data.inner.unwind state.baseSpanDepth).stream.record.spanStack = _
      rw [hdepth]
      exact data.inner.spanStack_unwind hbase

/-- What holds of a recursive draw between its calls. -/
structure RecursionInvariant (maxLeaves baseSpanDepth : Nat)
    (progress : RecursionProgress) (state : RecursionState) : Prop where
  maxLeaves_eq : state.maxLeaves = maxLeaves
  baseSpanDepth_eq : state.baseSpanDepth = baseSpanDepth
  tracked : Tracker.empty.track progress.decisions =
    ⟨state.openBranches, progress.closed⟩
  closedChildren_eq : state.closedChildren = progress.account.sum
  closedBranches_eq : state.closedBranches = progress.account.length
  leaves_eq : state.leaves = progress.leaves
  leaves_le : progress.leaves ≤ maxLeaves
  attempt_eq : state.attempt = progress.retries
  retries_lt : progress.retries < recursionMaxAttempts
  reprices_eq : state.reprices = progress.reprices
  reprices_le : progress.reprices ≤ recursionMaxReprices

section Steps

variable {maxLeaves baseSpanDepth : Nat} {progress : RecursionProgress}

/-- A decision is tracked. -/
theorem RecursionInvariant.decide
    (hkept : RecursionInvariant maxLeaves baseSpanDepth progress state)
    {depth : Nat} {branch : Bool}
    (hcall : recursionBranch pricing sampler depth (state, data) =
      (.ok branch, after, data')) :
    RecursionInvariant maxLeaves baseSpanDepth (progress.decided (depth, branch)
      ((state.finished depth).map Prod.snd)) after := by
  have hafter := recursionBranch_ok hcall
  have hsame : after = { state.observeDecision depth with
      openBranches := after.openBranches } := by
    rw [hafter]
    cases branch with
    | true => rfl
    | false => rfl
  have haccount : (progress.decided (depth, branch)
      ((state.finished depth).map Prod.snd)).account =
        progress.account ++ (state.finished depth).map Prod.snd :=
    (List.append_assoc _ _ _).symm
  have htracked : Tracker.empty.track (progress.decisions ++ [(depth, branch)]) =
      ⟨after.openBranches,
        progress.closed ++ (state.finished depth).map Prod.snd⟩ := by
    rw [Tracker.track_append, hkept.tracked, hafter]
    cases branch with
    | true => rfl
    | false => rfl
  rw [hsame]
  exact {
    maxLeaves_eq := hkept.maxLeaves_eq
    baseSpanDepth_eq := hkept.baseSpanDepth_eq
    tracked := htracked
    closedChildren_eq := by
      rw [haccount, List.sum_append, ← hkept.closedChildren_eq]
      rfl
    closedBranches_eq := by
      rw [haccount, List.length_append, List.length_map,
        ← hkept.closedBranches_eq]
      rfl
    leaves_eq := hkept.leaves_eq
    leaves_le := hkept.leaves_le
    attempt_eq := hkept.attempt_eq
    retries_lt := hkept.retries_lt
    reprices_eq := hkept.reprices_eq
    reprices_le := hkept.reprices_le }

/-- A leaf is counted only when there may be another one. -/
theorem RecursionInvariant.leaf
    (hkept : RecursionInvariant maxLeaves baseSpanDepth progress state)
    {counted : Bool}
    (hcall : recursionLeaf (state, data) = (.ok counted, after, data')) :
    RecursionInvariant maxLeaves baseSpanDepth (progress.asked counted)
      after := by
  have hafter := recursionLeaf_ok hcall
  rw [RecursionState.countLeaf] at hafter
  by_cases hfull : state.leaves ≥ state.maxLeaves
  · rw [if_pos hfull] at hafter
    cases hafter
    exact hkept
  · rw [if_neg hfull, hkept.leaves_eq, hkept.maxLeaves_eq] at hafter
    cases hafter
    rw [hkept.leaves_eq, hkept.maxLeaves_eq] at hfull
    exact {
      maxLeaves_eq := rfl
      baseSpanDepth_eq := hkept.baseSpanDepth_eq
      tracked := hkept.tracked
      closedChildren_eq := hkept.closedChildren_eq
      closedBranches_eq := hkept.closedBranches_eq
      leaves_eq := rfl
      leaves_le := Nat.lt_of_not_le hfull
      attempt_eq := hkept.attempt_eq
      retries_lt := hkept.retries_lt
      reprices_eq := hkept.reprices_eq
      reprices_le := hkept.reprices_le }

/-- A retry keeps what the attempt has closed. -/
theorem RecursionInvariant.retry
    (hkept : RecursionInvariant maxLeaves baseSpanDepth progress state)
    (hcall : recursionRetry pricing (state, data) = (.ok (), after, data')) :
    RecursionInvariant maxLeaves baseSpanDepth progress.retried after := by
  obtain ⟨hmore, rfl⟩ := recursionRetry_ok hcall
  have haccount : progress.retried.account = progress.account := by
    change progress.earlier ++ progress.closed ++ [] ++ [] = _
    rw [List.append_nil, List.append_nil]
    rfl
  exact {
    maxLeaves_eq := hkept.maxLeaves_eq
    baseSpanDepth_eq := hkept.baseSpanDepth_eq
    tracked := rfl
    closedChildren_eq := by
      rw [haccount]
      exact hkept.closedChildren_eq
    closedBranches_eq := by
      rw [haccount]
      exact hkept.closedBranches_eq
    leaves_eq := rfl
    leaves_le := Nat.zero_le _
    attempt_eq := congrArg Nat.succ hkept.attempt_eq
    retries_lt := by
      rw [hkept.attempt_eq] at hmore
      exact hmore
    reprices_eq := hkept.reprices_eq
    reprices_le := hkept.reprices_le }

/-- Closing the last branches adds them to the account. -/
theorem RecursionInvariant.closeRemainingBranches
    (hkept : RecursionInvariant maxLeaves baseSpanDepth progress state) :
    state.closeRemainingBranches.closedChildren =
        (progress.account ++ state.openBranches.map Prod.snd).sum ∧
      state.closeRemainingBranches.closedBranches =
        (progress.account ++ state.openBranches.map Prod.snd).length := by
  constructor
  · rw [List.sum_append, ← hkept.closedChildren_eq]
    rfl
  · rw [List.length_append, List.length_map, ← hkept.closedBranches_eq]
    rfl

/-- A finish that discards keeps what the attempt has closed. -/
theorem RecursionInvariant.finish
    (hkept : RecursionInvariant maxLeaves baseSpanDepth progress state)
    (hcall : recursionFinish pricing (state, data) =
      (.ok false, after, data')) :
    RecursionInvariant maxLeaves baseSpanDepth
      (progress.discarded (state.openBranches.map Prod.snd)) after := by
  obtain ⟨hmore, rfl⟩ := recursionFinish_ok hcall
  obtain ⟨hchildren, hbranches⟩ := hkept.closeRemainingBranches
  have haccount :
      (progress.discarded (state.openBranches.map Prod.snd)).account =
        progress.account ++ state.openBranches.map Prod.snd :=
    List.append_nil _
  exact {
    maxLeaves_eq := hkept.maxLeaves_eq
    baseSpanDepth_eq := hkept.baseSpanDepth_eq
    tracked := rfl
    closedChildren_eq := by
      rw [haccount]
      exact hchildren
    closedBranches_eq := by
      rw [haccount]
      exact hbranches
    leaves_eq := rfl
    leaves_le := Nat.zero_le _
    attempt_eq := hkept.attempt_eq
    retries_lt := hkept.retries_lt
    reprices_eq := congrArg Nat.succ hkept.reprices_eq
    reprices_le := by
      rw [hkept.reprices_eq] at hmore
      exact hmore }

end Steps

variable {start : RecursionState} {progress : RecursionProgress}

theorem RecursionRun.invariant {maxDepth maxLeaves : Nat}
    (hnew : newRecursion pricing sampler maxDepth maxLeaves ((), data) =
      (.ok start, (), data'))
    (hrun : RecursionRun pricing sampler start progress state) :
    RecursionInvariant maxLeaves data.spanStack.length progress state := by
  induction hrun with
  | start =>
      obtain ⟨hleaves, hspans, hattempt, hnone, hchildren, hbranches, hopen,
        hreprices⟩ := newRecursion_ok hnew
      exact {
        maxLeaves_eq := hleaves
        baseSpanDepth_eq := hspans
        tracked := by
          rw [hopen]
          rfl
        closedChildren_eq := hchildren
        closedBranches_eq := hbranches
        leaves_eq := hnone
        leaves_le := Nat.zero_le _
        attempt_eq := hattempt
        retries_lt := by
          show 0 < 9
          omega
        reprices_eq := hreprices
        reprices_le := Nat.zero_le _ }
  | decide hrun hcall ih => exact ih.decide hcall
  | leaf hrun hcall ih => exact ih.leaf hcall
  | retry hrun hcall ih => exact ih.retry hcall
  | finish hrun hcall ih => exact ih.finish hcall

/-- A finish that closes a whole traversal accounts for all its branches. -/
theorem RecursionInvariant.whole {maxLeaves baseSpanDepth : Nat}
    (hkept : RecursionInvariant maxLeaves baseSpanDepth progress state)
    {tree : Shape} (hwhole : progress.decisions = tree.preorder 0)
    {accepted : Bool}
    (hcall : recursionFinish pricing (state, data) =
      (.ok accepted, after, data')) :
    after.closedChildren =
        (progress.earlier ++ Tracker.arities (tree.branches 0)).sum ∧
      after.closedBranches =
        (progress.earlier ++ Tracker.arities (tree.branches 0)).length := by
  have hall := Tracker.all_track_preorder tree
  rw [← hwhole, hkept.tracked] at hall
  have hclosed := hkept.closeRemainingBranches
  rw [RecursionProgress.account, List.append_assoc, hall] at hclosed
  have hafter := recursionFinish_ok hcall
  cases accepted with
  | true =>
      rw [if_pos rfl] at hafter
      rw [hafter]
      exact hclosed
  | false =>
      obtain ⟨-, rfl⟩ := hafter
      exact hclosed

/-- The account of a recursive draw.  Of an attempt that is retried it has
the branches that were complete before the last decision. -/
theorem recursion_protocol {maxDepth maxLeaves : Nat}
    (hnew : newRecursion pricing sampler maxDepth maxLeaves ((), data) =
      (.ok start, (), data'))
    (hrun : RecursionRun pricing sampler start progress state) :
    Tracker.Nested state.openBranches ∧
    (∀ tree : Shape, progress.decisions <+: tree.preorder 0 →
      progress.closed = Tracker.arities
        (Tracker.passed progress.decisions.length (tree.branches 0))) ∧
    (state.closedChildren = progress.account.sum ∧
      state.closedBranches = progress.account.length) ∧
    (∀ (tree : Shape) accepted (now : NativeDataSource Rng) after now',
      progress.decisions = tree.preorder 0 →
      recursionFinish pricing (state, now) = (.ok accepted, after, now') →
      after.closedChildren =
          (progress.earlier ++ Tracker.arities (tree.branches 0)).sum ∧
        after.closedBranches =
          (progress.earlier ++ Tracker.arities (tree.branches 0)).length) ∧
    (∀ (tree : Shape) (now : NativeDataSource Rng) after now',
      progress.decisions <+: tree.preorder 0 →
      recursionRetry pricing (state, now) = (.ok (), after, now') →
      after.closedChildren = (progress.earlier ++ Tracker.arities
          (Tracker.passed progress.decisions.length (tree.branches 0))).sum ∧
        after.closedBranches = (progress.earlier ++ Tracker.arities
          (Tracker.passed progress.decisions.length
            (tree.branches 0))).length) ∧
    progress.leaves ≤ maxLeaves ∧ progress.retries ≤ 8 ∧
    progress.reprices ≤ 2 ∧
    (∀ now : NativeDataSource Rng, now.aborted = false →
      data.spanStack <:+ now.spanStack →
      (recursionRetry pricing (state, now)).2.2.spanStack = data.spanStack) ∧
    (∀ (now : NativeDataSource Rng) after now',
      data.spanStack <:+ now.spanStack →
      recursionFinish pricing (state, now) = (.ok false, after, now') →
      now'.spanStack = data.spanStack) := by
  have hkept := hrun.invariant hnew
  have hclosed : ∀ tree : Shape, progress.decisions <+: tree.preorder 0 →
      progress.closed = Tracker.arities
        (Tracker.passed progress.decisions.length (tree.branches 0)) := by
    intro tree hinitial
    have htracked := Tracker.closed_track_of_prefix hinitial
    rw [hkept.tracked] at htracked
    exact htracked
  have hnested : Tracker.Nested state.openBranches := by
    have htracked := Tracker.nested_track progress.decisions
      (show Tracker.Nested Tracker.empty.opened from List.Pairwise.nil)
    rw [hkept.tracked] at htracked
    exact htracked
  constructor
  · exact hnested
  constructor
  · exact hclosed
  constructor
  · exact ⟨hkept.closedChildren_eq, hkept.closedBranches_eq⟩
  constructor
  · intro tree accepted now after now' hwhole hcall
    exact hkept.whole hwhole hcall
  constructor
  · intro tree now after now' hinitial hcall
    obtain ⟨-, rfl⟩ := recursionRetry_ok hcall
    rw [← hclosed tree hinitial]
    exact ⟨hkept.closedChildren_eq, hkept.closedBranches_eq⟩
  constructor
  · exact hkept.leaves_le
  constructor
  · exact Nat.le_of_lt_succ hkept.retries_lt
  constructor
  · exact hkept.reprices_le
  constructor
  · intro now hopen hbase
    exact recursionRetry_spanStack hopen hkept.baseSpanDepth_eq hbase
  · intro now after now' hbase hcall
    exact recursionFinish_spanStack hkept.baseSpanDepth_eq hbase hcall

/-- Prices that make every part above the depth limit a branch. -/
def certainBranches : RecursionPricing :=
  ⟨fun _ => .zero, fun _ _ => .ofNat 1, fun _ => true⟩

/-- A branch whose only child is a leaf. -/
def loneLeaf : Shape :=
  .branch [.leaf]

/-- The draw of it, at a depth limit of one. -/
def loneStart : RecursionState :=
  ⟨1, 1, 0, 0, 0, 1, .zero, 0, 0, [], 0⟩

theorem newRecursion_loneStart :
    newRecursion certainBranches Sampler.simplest 1 1 ((), simplestData 8) =
      (.ok loneStart, (), simplestData 8) :=
  rfl

/-- The lone leaf is decided and drawn. -/
theorem loneLeaf_run :
    ∃ progress state,
      RecursionRun certainBranches Sampler.simplest loneStart progress state ∧
      progress.decisions = loneLeaf.preorder 0 ∧ progress.leaves = 1 ∧
      state = { loneStart with leaves := 1, openBranches := [(0, 1)] } := by
  have hroot : ∃ data', recursionBranch certainBranches Sampler.simplest 0
      (loneStart, simplestData 8) =
        (.ok true, { loneStart with openBranches := [(0, 0)] }, data') :=
    ⟨_, rfl⟩
  have hchild : ∃ data', recursionBranch certainBranches Sampler.simplest 1
      ({ loneStart with openBranches := [(0, 0)] }, simplestData 8) =
        (.ok false, { loneStart with openBranches := [(0, 1)] }, data') :=
    ⟨_, rfl⟩
  obtain ⟨_, hroot⟩ := hroot
  obtain ⟨_, hchild⟩ := hchild
  have hleaf : recursionLeaf
      ({ loneStart with openBranches := [(0, 1)] }, simplestData 8) =
        (.ok true, { loneStart with leaves := 1, openBranches := [(0, 1)] },
          simplestData 8) :=
    rfl
  exact ⟨_, _, ((RecursionRun.start.decide hroot).decide hchild).leaf hleaf,
    rfl, rfl, rfl⟩

theorem recursion_protocol_sample :
    ∃ progress state,
      RecursionRun certainBranches Sampler.simplest loneStart progress state ∧
      progress.decisions = loneLeaf.preorder 0 ∧
      progress.leaves = 1 ∧ progress.leaves ≤ 1 ∧
      Tracker.Nested state.openBranches := by
  obtain ⟨progress, state, hrun, hwhole, hleaves, -⟩ := loneLeaf_run
  have hprotocol := recursion_protocol newRecursion_loneStart hrun
  obtain ⟨hnested, -, -, -, -, hbound, -⟩ := hprotocol
  exact ⟨progress, state, hrun, hwhole, hleaves, hbound, hnested⟩

/-- A test case with some spans, of which one is open. -/
def openSpanData (idx : Nat) : NativeDataSource Unit :=
  let data := simplestData 8
  let spans := List.replicate (idx + 1) ⟨0, 0, "1", 0, .none, false⟩
  ⟨⟨data.inner.family, ⟨{ data.inner.stream.record with
    spans := spans, spanStack := [idx] }, data.inner.stream.input⟩⟩, false⟩

/-- A retry discards the branch that the last decision completed; and a span
that was opened in place of one of the first ones stays open. -/
theorem recursionRetry_lastBranch :
    (∃ progress state after data',
      RecursionRun certainBranches Sampler.simplest loneStart progress state ∧
      progress.decisions = loneLeaf.preorder 0 ∧ progress.leaves = 1 ∧
      recursionRetry certainBranches (state, simplestData 8) =
        (.ok (), after, data') ∧
      after.closedBranches = 0 ∧ (loneLeaf.branches 0).length = 1) ∧
    (∃ start after data',
      newRecursion certainBranches Sampler.simplest 1 1 ((), openSpanData 0) =
        (.ok start, (), openSpanData 0) ∧
      recursionRetry certainBranches (start, openSpanData 1) =
        (.ok (), after, data') ∧
      (openSpanData 0).spanStack = [0] ∧ data'.spanStack = [1]) := by
  constructor
  · obtain ⟨progress, state, hrun, hwhole, hleaves, rfl⟩ := loneLeaf_run
    exact ⟨_, _, _, _, hrun, hwhole, hleaves, rfl, rfl, rfl⟩
  · exact ⟨_, _, _, rfl, rfl, rfl, rfl⟩

end NativeDataSource

end Runs

end Hegel
