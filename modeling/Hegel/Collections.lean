/-
Collections of variable size.  An element is asked for until a draw says stop;
the size is forced from both of its ends, and rejected elements make the
collection stop early or turn the test case down, so that elements are not
rejected for ever.
-/
import Hegel.DataSource
import Hegel.FloatLeast
import Hegel.MachineSelection

namespace Hegel

/-- State of a collection.  Sizes are compared as floating-point numbers, and
a collection without a largest size has an infinite one. -/
structure ManyState where
  minSize : Nat
  maxSize : Binary64
  pContinue : Binary64
  count : Nat
  rejections : Nat
  forceStop : Bool

namespace ManyState

/-- A collection without elements yet; any chance of going on will do. -/
def new (minSize : Nat) (maxSize : Option Nat) (pContinue : Binary64) :
    ManyState where
  minSize := minSize
  maxSize := maxSize.elim .infinity .ofNat
  pContinue := pContinue
  count := 0
  rejections := 0
  forceStop := false

/-- Whether there is only one size. -/
def isFixed (state : ManyState) : Bool :=
  (Binary64.ofNat state.minSize).numEq state.maxSize

/-- What the draw for another element is forced to. -/
def forced (state : ManyState) : Option Bool :=
  if state.forceStop then some false
  else if state.count < state.minSize then some true
  else if state.maxSize.le (.ofNat state.count) then some false
  else none

def counted (state : ManyState) : ManyState :=
  { state with count := state.count + 1 }

def uncounted (state : ManyState) : ManyState :=
  { state with
    count := state.count - 1
    rejections := state.rejections + 1 }

def stopped (state : ManyState) : ManyState :=
  { state with forceStop := true }

/-- Whether more elements were rejected than the collection can bear. -/
def isExhausted (state : ManyState) : Bool :=
  decide (state.rejections > max 3 (2 * state.count))

end ManyState

section Calls

variable {Rng : Type} (sampler : Sampler Rng)

/-- Whether there is to be another element; nothing is drawn when there is
only one size. -/
def ManyState.shouldContinue (state : ManyState) :
    Attempt (Source Rng) MachineError Bool :=
  if state.isFixed then pure (decide (state.count < state.minSize))
  else drawWeighted sampler state.pContinue state.forced

/-- Ask for another element. -/
def manyMore : Attempt (ManyState × Source Rng) CallError Bool := do
  let (state, _) ← Attempt.read
  let shouldContinue ←
    NativeDataSource.drawing (state.shouldContinue sampler)
  if shouldContinue then
    Attempt.modify fun (state, source) => (state.counted, source)
  return shouldContinue

/-- The test case, turned down. -/
def Source.rejected (source : Source Rng) : Source Rng :=
  { source with family := source.family.conclude .invalid none }

/-- Take the last element back. -/
def manyReject : Attempt (ManyState × Source Rng) CallError Unit := do
  let (state, _) ← Attempt.read
  if state.count = 0 then
    Attempt.refuse (.draw (.assertion "state.count > 0"))
  else
    Attempt.modify fun (state, source) => (state.uncounted, source)
    let (state, _) ← Attempt.read
    if state.isExhausted then
      if state.count < state.minSize then
        Attempt.modify fun (state, source) => (state, source.rejected)
        Attempt.refuse (.draw (.engine .invalidTestCase))
      else
        Attempt.modify fun (state, source) => (state.stopped, source)

namespace NativeDataSource

def collectionMore :
    Attempt (ManyState × NativeDataSource Rng) DataSourceError Bool :=
  withNtc (manyMore sampler)

def collectionReject :
    Attempt (ManyState × NativeDataSource Rng) DataSourceError Unit :=
  withNtc manyReject

end NativeDataSource

end Calls

section Outcomes

variable {Rng : Type} {sampler : Sampler Rng}

namespace ManyState

/-- The answers to another element that a state leaves open. -/
def Allows (state : ManyState) (answer : Bool) : Prop :=
  if state.isFixed then answer = decide (state.count < state.minSize)
  else ∀ f, state.forced = some f → answer = f

/-- Whether a state leaves nothing but to stop. -/
def Stops (state : ManyState) : Prop :=
  ¬ state.Allows true

theorem not_allows_of_forceStop {state : ManyState}
    (hfixed : state.isFixed = false) (hstop : state.forceStop = true) :
    state.Stops := by
  intro hallows
  rw [Allows, if_neg (by rw [hfixed]; exact Bool.false_ne_true)] at hallows
  have hforced : state.forced = some false := by
    rw [forced, if_pos hstop]
  exact Bool.noConfusion (hallows false hforced)

end ManyState

namespace NativeDataSource

/-- What a call for another element does. -/
inductive MoreOutcome (state : ManyState) (data : NativeDataSource Rng) :
    Except DataSourceError Bool × ManyState × NativeDataSource Rng → Prop
  | accepted (inner : Source Rng) (hopen : data.aborted = false)
      (hallows : state.Allows true) :
      MoreOutcome state data (.ok true, state.counted, ⟨inner, false⟩)
  | stopped (inner : Source Rng) (hopen : data.aborted = false)
      (hallows : state.Allows false) :
      MoreOutcome state data (.ok false, state, ⟨inner, false⟩)
  | failed (error : DataSourceError) (after : NativeDataSource Rng)
      (haborted : data.aborted = true → after.aborted = true) :
      MoreOutcome state data (.error error, state, after)

theorem shouldContinue_allows {state : ManyState} {source after : Source Rng}
    {answer : Bool}
    (hdraw : state.shouldContinue sampler source = (.ok answer, after)) :
    state.Allows answer := by
  rw [ManyState.shouldContinue] at hdraw
  rw [ManyState.Allows]
  by_cases hfixed : state.isFixed = true
  · rw [if_pos hfixed] at hdraw ⊢
    cases hdraw
    rfl
  · rw [if_neg hfixed] at hdraw ⊢
    intro f hforced
    have hyields := @drawWeighted_yields Rng sampler source state.pContinue
      state.forced
    rw [Attempt.Meets, hdraw] at hyields
    apply hyields.2
    rw [hforced]
    rfl

theorem collectionMore_outcome (state : ManyState)
    (data : NativeDataSource Rng) :
    MoreOutcome state data (collectionMore sampler (state, data)) := by
  rw [collectionMore, withNtc]
  by_cases haborted : data.aborted = true
  · rw [if_pos haborted]
    exact .failed _ _ id
  rw [if_neg haborted]
  have hopen : data.aborted = false := by simpa using haborted
  simp only [manyMore, bind, Attempt.bind, Attempt.read, drawing]
  rcases hdraw : state.shouldContinue sampler data.inner with ⟨result, inner⟩
  cases result with
  | ok answer =>
      have hallows := shouldContinue_allows hdraw
      cases answer with
      | true => exact .accepted inner hopen hallows
      | false => exact .stopped inner hopen hallows
  | error error => exact .failed _ _ (fun h => absurd h haborted)

/-- What taking the last element back does. -/
inductive RejectOutcome (state : ManyState) (data : NativeDataSource Rng) :
    Except DataSourceError Unit × ManyState × NativeDataSource Rng → Prop
  | aborted (hclosed : data.aborted = true) :
      RejectOutcome state data (.error data.abortedError, state, data)
  | nothing (hopen : data.aborted = false) (hcount : state.count = 0)
      (error : DataSourceError) :
      RejectOutcome state data (.error error, state, data)
  | taken (hopen : data.aborted = false) (hcount : 0 < state.count)
      (hbearable : state.uncounted.isExhausted = false) :
      RejectOutcome state data (.ok (), state.uncounted, data)
  | stopping (hopen : data.aborted = false) (hcount : 0 < state.count)
      (hexhausted : state.uncounted.isExhausted = true)
      (henough : state.minSize ≤ state.uncounted.count) :
      RejectOutcome state data (.ok (), state.uncounted.stopped, data)
  | turnedDown (hopen : data.aborted = false) (hcount : 0 < state.count)
      (hexhausted : state.uncounted.isExhausted = true)
      (htooFew : state.uncounted.count < state.minSize) :
      RejectOutcome state data
        (.error .assume, state.uncounted, ⟨data.inner.rejected, true⟩)

theorem collectionReject_outcome (state : ManyState)
    (data : NativeDataSource Rng) :
    RejectOutcome state data (collectionReject (state, data)) := by
  rw [collectionReject, withNtc]
  by_cases haborted : data.aborted = true
  · rw [if_pos haborted]
    exact .aborted haborted
  rw [if_neg haborted]
  have hopen : data.aborted = false := by simpa using haborted
  have hsame : (⟨data.inner, false⟩ : NativeDataSource Rng) = data := by
    rw [← hopen]
  simp only [manyReject, bind, Attempt.bind, Attempt.read]
  by_cases hcount : state.count = 0
  · simp only [if_pos hcount]
    have houtcome := RejectOutcome.nothing hopen hcount
      (CallError.told (.draw (.assertion "state.count > 0")))
    rw [← hsame] at houtcome ⊢
    exact houtcome
  simp only [if_neg hcount, Attempt.bind, Attempt.modify, Attempt.read]
  have hpos := Nat.pos_of_ne_zero hcount
  by_cases hexhausted : state.uncounted.isExhausted = true
  · simp only [if_pos hexhausted]
    by_cases htooFew : state.uncounted.count < state.uncounted.minSize
    · simp only [if_pos htooFew, Attempt.bind]
      exact .turnedDown hopen hpos hexhausted htooFew
    · simp only [if_neg htooFew]
      have houtcome := RejectOutcome.stopping hopen hpos hexhausted
        (Nat.le_of_not_lt htooFew)
      rw [← hsame] at houtcome ⊢
      exact houtcome
  · simp only [if_neg hexhausted]
    have houtcome := RejectOutcome.taken hopen hpos (by simpa using hexhausted)
    rw [← hsame] at houtcome ⊢
    exact houtcome

end NativeDataSource

end Outcomes

section Runs

/-- A call on a collection, with its answer. -/
inductive ManyEvent where
  | more (result : Except DataSourceError Bool)
  | reject (result : Except DataSourceError Unit)

/-- A call with the state it left. -/
structure ManyCall where
  event : ManyEvent
  after : ManyState

def ManyEvent.isReject : ManyEvent → Bool
  | .more _ => false
  | .reject _ => true

/-- The calls so far, the last one first. -/
def rejectionCount (calls : List ManyCall) : Nat :=
  calls.countP fun call => call.event.isReject

/-- The most elements there were after any call. -/
def largestCount : List ManyCall → Nat
  | [] => 0
  | call :: earlier => max call.after.count (largestCount earlier)

/-- Whether the last call was answered with another element. -/
def JustAccepted : List ManyCall → Prop
  | [] => False
  | call :: _ => call.event = .more (.ok true)

variable {Rng : Type}

namespace NativeDataSource

/-- Runs of a collection: its calls, the last one first, its state, and whether
its test case is known to be over.  Only an element that was just asked for is
rejected; in between anything may happen to the test case, but once over it
stays over. -/
inductive ManyRun (sampler : Sampler Rng) (start : ManyState) :
    List ManyCall → ManyState → Bool → Prop
  | start : ManyRun sampler start [] start false
  | more {calls : List ManyCall} {state after : ManyState} {aborted : Bool}
      {data data' : NativeDataSource Rng} {result : Except DataSourceError Bool}
      (hrun : ManyRun sampler start calls state aborted)
      (haborted : aborted = true → data.aborted = true)
      (hcall : collectionMore sampler (state, data) = (result, after, data')) :
      ManyRun sampler start (⟨.more result, after⟩ :: calls) after data'.aborted
  | reject {calls : List ManyCall} {state after : ManyState} {aborted : Bool}
      {data data' : NativeDataSource Rng} {result : Except DataSourceError Unit}
      (hrun : ManyRun sampler start calls state aborted)
      (haborted : aborted = true → data.aborted = true)
      (hlast : JustAccepted calls)
      (hcall : collectionReject (state, data) = (result, after, data')) :
      ManyRun sampler start (⟨.reject result, after⟩ :: calls) after data'.aborted

/-- What holds of a collection between its calls. -/
structure ManyInvariant (minSize : Nat) (maxSize : Option Nat)
    (calls : List ManyCall) (state : ManyState) (aborted : Bool) : Prop where
  minSize_eq : state.minSize = minSize
  maxSize_eq : state.maxSize = maxSize.elim .infinity .ofNat
  le_maxSize : ∀ n, maxSize = some n → state.count ≤ n
  le_fixed : state.isFixed = true → state.count ≤ minSize
  forceStop_fixed : state.isFixed = true → state.forceStop = false
  minSize_le : state.forceStop = true → minSize ≤ state.count
  le_largest : state.count ≤ largestCount calls
  counted : aborted = false → rejectionCount calls = state.rejections
  /-- Unless the collection was stopped, it can bear its rejections. -/
  bearable : aborted = false → state.forceStop = false →
    state.rejections ≤ max 3 (2 * state.count)
  rejections_le : rejectionCount calls ≤ max 3 (2 * largestCount calls) + 1
  accepted : JustAccepted calls →
    aborted = false ∧ state.forceStop = false ∧ 0 < state.count

variable {sampler : Sampler Rng} {minSize : Nat} {maxSize : Option Nat}
  {calls : List ManyCall} {state : ManyState} {aborted : Bool}

theorem manyInvariant_new (minSize : Nat) (maxSize : Option Nat)
    (pContinue : Binary64) :
    ManyInvariant minSize maxSize [] (.new minSize maxSize pContinue) false where
  minSize_eq := rfl
  maxSize_eq := rfl
  le_maxSize _ _ := Nat.zero_le _
  le_fixed _ := Nat.zero_le _
  forceStop_fixed _ := rfl
  minSize_le := nofun
  le_largest := Nat.zero_le _
  counted _ := rfl
  bearable _ _ := Nat.zero_le _
  rejections_le := Nat.zero_le _
  accepted := nofun

theorem le_ofNat_self {n : Nat} (hn : n ≤ usizeMax) :
    (Binary64.ofNat n).le (.ofNat n) = true := by
  have hfinite : (Binary64.ofNat n).isFinite = true := by
    apply Binary64.isFinite_ofNat
    rw [usizeMax] at hn
    omega
  have hnan := isNan_of_isFinite hfinite
  rw [Hegel.le_iff hnan hnan]

/-- An element that is asked for has a place. -/
theorem ManyInvariant.allows_true
    (hkept : ManyInvariant minSize maxSize calls state aborted)
    (hbound : ∀ n, maxSize = some n → minSize ≤ n ∧ n ≤ usizeMax)
    (hallows : state.Allows true) :
    state.forceStop = false ∧ (∀ n, maxSize = some n → state.count < n) ∧
      (state.isFixed = true → state.count < minSize) := by
  rw [ManyState.Allows] at hallows
  by_cases hfixed : state.isFixed = true
  · rw [if_pos hfixed, hkept.minSize_eq] at hallows
    have hbelow : state.count < minSize := of_decide_eq_true hallows.symm
    exact ⟨hkept.forceStop_fixed hfixed,
      fun n hn => hbelow.trans_le (hbound n hn).1, fun _ => hbelow⟩
  · rw [if_neg hfixed] at hallows
    have hforce : state.forceStop = false := by
      by_contra hstop
      have hforced : state.forced = some false := by
        rw [ManyState.forced, if_pos (by simpa using hstop)]
      exact Bool.noConfusion (hallows false hforced)
    refine ⟨hforce, fun n hn => ?_, fun h => absurd h hfixed⟩
    obtain ⟨hmin, husize⟩ := hbound n hn
    refine lt_of_le_of_ne (hkept.le_maxSize n hn) fun hcount => ?_
    have hmax : state.maxSize.le (.ofNat state.count) = true := by
      rw [hkept.maxSize_eq, hn, hcount]
      exact le_ofNat_self husize
    have hforced : state.forced = some false := by
      rw [ManyState.forced, hforce, if_neg Bool.false_ne_true, if_pos hmax,
        hkept.minSize_eq, if_neg (by omega)]
    exact Bool.noConfusion (hallows false hforced)

/-- A collection that stops is large enough. -/
theorem ManyInvariant.allows_false
    (hkept : ManyInvariant minSize maxSize calls state aborted)
    (hallows : state.Allows false) : minSize ≤ state.count := by
  rw [ManyState.Allows, hkept.minSize_eq] at hallows
  by_cases hfixed : state.isFixed = true
  · rw [if_pos hfixed] at hallows
    exact Nat.le_of_not_lt (of_decide_eq_false hallows.symm)
  · rw [if_neg hfixed] at hallows
    by_cases hstop : state.forceStop = true
    · exact hkept.minSize_le hstop
    · by_contra hbelow
      have hforced : state.forced = some true := by
        rw [ManyState.forced, if_neg hstop, hkept.minSize_eq,
          if_pos (Nat.lt_of_not_le hbelow)]
      exact Bool.noConfusion (hallows true hforced)

theorem largestCount_cons (call : ManyCall) (calls : List ManyCall) :
    largestCount (call :: calls) =
      max call.after.count (largestCount calls) :=
  rfl

theorem rejectionCount_more (result : Except DataSourceError Bool)
    (after : ManyState) (calls : List ManyCall) :
    rejectionCount (⟨.more result, after⟩ :: calls) = rejectionCount calls :=
  List.countP_cons_of_neg Bool.false_ne_true

theorem rejectionCount_reject (result : Except DataSourceError Unit)
    (after : ManyState) (calls : List ManyCall) :
    rejectionCount (⟨.reject result, after⟩ :: calls) =
      rejectionCount calls + 1 :=
  List.countP_cons_of_pos rfl

/-- A call that leaves the state and does not ask for an element. -/
theorem ManyInvariant.idle {event : ManyEvent} {aborted' : Bool}
    (hkept : ManyInvariant minSize maxSize calls state aborted)
    (hstill : aborted' = false → aborted = false ∧ event.isReject = false)
    (hevent : event ≠ .more (.ok true))
    (hrejections : rejectionCount (⟨event, state⟩ :: calls) ≤
      max 3 (2 * largestCount (⟨event, state⟩ :: calls)) + 1) :
    ManyInvariant minSize maxSize (⟨event, state⟩ :: calls) state aborted' where
  minSize_eq := hkept.minSize_eq
  maxSize_eq := hkept.maxSize_eq
  le_maxSize := hkept.le_maxSize
  le_fixed := hkept.le_fixed
  forceStop_fixed := hkept.forceStop_fixed
  minSize_le := hkept.minSize_le
  le_largest := le_max_left _ _
  counted hopen := by
    obtain ⟨hopen, hreject⟩ := hstill hopen
    rw [← hkept.counted hopen, rejectionCount, List.countP_cons_of_neg]
    · rfl
    · rw [hreject]
      exact nofun
  bearable hopen := hkept.bearable (hstill hopen).1
  rejections_le := hrejections
  accepted h := absurd h hevent

/-- One element less is still within the bounds. -/
theorem ManyInvariant.uncounted_le
    (hkept : ManyInvariant minSize maxSize calls state aborted) :
    (∀ n, maxSize = some n → state.uncounted.count ≤ n) ∧
      (state.isFixed = true → state.uncounted.count ≤ minSize) :=
  ⟨fun n hn => (Nat.sub_le _ _).trans (hkept.le_maxSize n hn),
    fun hfixed => (Nat.sub_le _ _).trans (hkept.le_fixed hfixed)⟩

/-- Asking for an element keeps the invariant. -/
theorem ManyInvariant.more {data data' : NativeDataSource Rng}
    {result : Except DataSourceError Bool} {after : ManyState}
    (hkept : ManyInvariant minSize maxSize calls state aborted)
    (hbound : ∀ n, maxSize = some n → minSize ≤ n ∧ n ≤ usizeMax)
    (haborted : aborted = true → data.aborted = true)
    (hcall : collectionMore sampler (state, data) = (result, after, data')) :
    ManyInvariant minSize maxSize (⟨.more result, after⟩ :: calls) after
      data'.aborted := by
  have houtcome := @collectionMore_outcome Rng sampler state data
  rw [hcall] at houtcome
  have hopen' : data.aborted = false → aborted = false := by
    intro hopen
    by_contra htrue
    rw [haborted (by simpa using htrue)] at hopen
    cases hopen
  have hmono := hkept.rejections_le
  cases houtcome with
  | accepted inner hopen hallows =>
      obtain ⟨hforce, hmax, hfixed⟩ := hkept.allows_true hbound hallows
      have hrejections := hkept.bearable (hopen' hopen) hforce
      have hcounted := hkept.counted (hopen' hopen)
      exact {
        minSize_eq := hkept.minSize_eq
        maxSize_eq := hkept.maxSize_eq
        le_maxSize := hmax
        le_fixed := hfixed
        forceStop_fixed := hkept.forceStop_fixed
        minSize_le := fun h => absurd (hforce.symm.trans h) (by decide)
        le_largest := le_max_left _ _
        counted := fun _ => hcounted
        bearable := fun _ _ => by
          show state.rejections ≤ max 3 (2 * (state.count + 1))
          omega
        rejections_le := by
          rw [rejectionCount_more, largestCount_cons]
          omega
        accepted := fun _ => ⟨rfl, hforce, Nat.succ_pos _⟩ }
  | stopped inner hopen hallows =>
      refine hkept.idle (fun _ => ⟨hopen' hopen, rfl⟩) nofun ?_
      rw [rejectionCount_more, largestCount_cons]
      omega
  | failed error after' hclosed =>
      have hstill : data'.aborted = false → aborted = false := by
        intro hopen
        apply hopen'
        by_contra htrue
        rw [hclosed (by simpa using htrue)] at hopen
        cases hopen
      refine hkept.idle (fun hopen => ⟨hstill hopen, rfl⟩) nofun ?_
      rw [rejectionCount_more, largestCount_cons]
      omega

/-- Taking back the element that was just accepted keeps the invariant. -/
theorem ManyInvariant.reject {data data' : NativeDataSource Rng}
    {result : Except DataSourceError Unit} {after : ManyState}
    (hkept : ManyInvariant minSize maxSize calls state aborted)
    (hlast : JustAccepted calls)
    (hcall : collectionReject (state, data) = (result, after, data')) :
    ManyInvariant minSize maxSize (⟨.reject result, after⟩ :: calls) after
      data'.aborted := by
  obtain ⟨hopen, hforce, hcount⟩ := hkept.accepted hlast
  have hcounted := hkept.counted hopen
  have hbearable := hkept.bearable hopen hforce
  have hlargest := hkept.le_largest
  have hrejections : rejectionCount (⟨.reject result, after⟩ :: calls) ≤
      max 3 (2 * largestCount (⟨.reject result, after⟩ :: calls)) + 1 := by
    rw [rejectionCount_reject, largestCount_cons]
    omega
  have hbelow : state.uncounted.count + 1 = state.count :=
    Nat.sub_add_cancel hcount
  have houtcome := collectionReject_outcome state data
  rw [hcall] at houtcome
  cases houtcome with
  | aborted hclosed =>
      refine hkept.idle (fun h => ?_) nofun hrejections
      cases h.symm.trans hclosed
  | nothing hopen' hzero error => omega
  | taken hopen' hpos hfits =>
      have hfits' : state.uncounted.rejections ≤
          max 3 (2 * state.uncounted.count) :=
        Nat.le_of_not_lt (of_decide_eq_false hfits)
      exact {
        minSize_eq := hkept.minSize_eq
        maxSize_eq := hkept.maxSize_eq
        le_maxSize := hkept.uncounted_le.1
        le_fixed := hkept.uncounted_le.2
        forceStop_fixed := hkept.forceStop_fixed
        minSize_le := fun h => absurd (hforce.symm.trans h) (by decide)
        le_largest := le_max_left _ _
        counted := fun _ => by
          rw [rejectionCount_reject, hcounted]
          rfl
        bearable := fun _ _ => hfits'
        rejections_le := hrejections
        accepted := by rintro ⟨⟩ }
  | stopping hopen' hpos hexhausted henough =>
      rw [hkept.minSize_eq] at henough
      have hloose : state.isFixed = false := by
        by_contra hfixed
        have := hkept.le_fixed (by simpa using hfixed)
        omega
      exact {
        minSize_eq := hkept.minSize_eq
        maxSize_eq := hkept.maxSize_eq
        le_maxSize := hkept.uncounted_le.1
        le_fixed := fun h => absurd (hloose.symm.trans h) (by decide)
        forceStop_fixed := fun h => absurd (hloose.symm.trans h) (by decide)
        minSize_le := fun _ => henough
        le_largest := le_max_left _ _
        counted := fun _ => by
          rw [rejectionCount_reject, hcounted]
          rfl
        bearable := fun _ => nofun
        rejections_le := hrejections
        accepted := by rintro ⟨⟩ }
  | turnedDown hopen' hpos hexhausted htooFew =>
      exact {
        minSize_eq := hkept.minSize_eq
        maxSize_eq := hkept.maxSize_eq
        le_maxSize := hkept.uncounted_le.1
        le_fixed := hkept.uncounted_le.2
        forceStop_fixed := hkept.forceStop_fixed
        minSize_le := fun h => absurd (hforce.symm.trans h) (by decide)
        le_largest := le_max_left _ _
        counted := nofun
        bearable := nofun
        rejections_le := hrejections
        accepted := by rintro ⟨⟩ }

theorem ManyRun.invariant {pContinue : Binary64}
    (hbound : ∀ n, maxSize = some n → minSize ≤ n ∧ n ≤ usizeMax)
    (hrun : ManyRun sampler (.new minSize maxSize pContinue) calls state
      aborted) :
    ManyInvariant minSize maxSize calls state aborted := by
  induction hrun with
  | start => exact manyInvariant_new minSize maxSize pContinue
  | more hrun haborted hcall ih => exact ih.more hbound haborted hcall
  | reject hrun haborted hlast hcall ih => exact ih.reject hlast hcall

variable {start : ManyState}

/-- Every call stands at the end of a run of its own. -/
theorem ManyRun.of_mem (hrun : ManyRun sampler start calls state aborted)
    {call : ManyCall} (hmem : call ∈ calls) :
    ∃ earlier aborted', ManyRun sampler start (call :: earlier) call.after
      aborted' := by
  induction hrun with
  | start => cases hmem
  | more hrun haborted hcall ih =>
      rcases List.mem_cons.mp hmem with rfl | hmem
      · exact ⟨_, _, hrun.more haborted hcall⟩
      · exact ih hmem
  | reject hrun haborted hlast hcall ih =>
      rcases List.mem_cons.mp hmem with rfl | hmem
      · exact ⟨_, _, hrun.reject haborted hlast hcall⟩
      · exact ih hmem

/-- After a stop that was forced nothing changes any more: no element is
asked for, so none is rejected. -/
theorem ManyRun.stopped_for_good
    (hrun : ManyRun sampler start calls state aborted)
    {later earlier : List ManyCall} {call : ManyCall}
    (hcalls : calls = later ++ call :: earlier)
    (hevent : call.event = .more (.ok false)) (hstops : call.after.Stops) :
    state = call.after ∧
      ∀ call' ∈ later, ∃ result, call'.event = .more result ∧
        result ≠ .ok true := by
  induction hrun generalizing later with
  | start => simp at hcalls
  | @more calls state after aborted data data' result hrun haborted hcall ih =>
      cases later with
      | nil =>
          obtain ⟨rfl, -⟩ := List.cons.inj hcalls
          exact ⟨rfl, nofun⟩
      | cons last later =>
          obtain ⟨rfl, hrest⟩ := List.cons.inj hcalls
          obtain ⟨rfl, hlater⟩ := ih hrest
          have houtcome := @collectionMore_outcome Rng sampler call.after data
          rw [hcall] at houtcome
          have hsame : after = call.after ∧ result ≠ .ok true := by
            cases houtcome with
            | accepted inner hopen hallows => exact absurd hallows hstops
            | stopped inner hopen hallows => exact ⟨rfl, nofun⟩
            | failed error after' hclosed => exact ⟨rfl, nofun⟩
          refine ⟨hsame.1, fun call' hmem => ?_⟩
          rcases List.mem_cons.mp hmem with rfl | hmem
          · exact ⟨result, rfl, hsame.2⟩
          · exact hlater call' hmem
  | @reject calls state after aborted data data' result hrun haborted hlast
      hcall ih =>
      cases later with
      | nil =>
          obtain ⟨rfl, -⟩ := List.cons.inj hcalls
          cases hevent
      | cons last later =>
          obtain ⟨-, hrest⟩ := List.cons.inj hcalls
          obtain ⟨-, hlater⟩ := ih hrest
          -- the rejected element was asked for after the stop
          exfalso
          subst hrest
          cases later with
          | nil =>
              have haccepted : call.event = .more (.ok true) := hlast
              rw [hevent] at haccepted
              cases haccepted
          | cons previous later =>
              obtain ⟨result', hprevious, hne⟩ :=
                hlater previous List.mem_cons_self
              have haccepted : previous.event = .more (.ok true) := hlast
              rw [hprevious] at haccepted
              cases haccepted
              exact hne rfl

/-- The protocol of a collection: its size stays within its bounds, it stops
no earlier and for good, and it bears a bounded number of rejections. -/
theorem collection_protocol {pContinue : Binary64}
    (hbound : ∀ n, maxSize = some n → minSize ≤ n ∧ n ≤ usizeMax)
    (hrun : ManyRun sampler (.new minSize maxSize pContinue) calls state
      aborted) :
    (∀ n, maxSize = some n → ∀ call ∈ calls, call.after.count ≤ n) ∧
    (∀ call ∈ calls, call.event = .more (.ok false) →
      minSize ≤ call.after.count) ∧
    (∀ call ∈ calls, call.after.forceStop = true → call.after.Stops) ∧
    (∀ later call earlier, calls = later ++ call :: earlier →
      call.event = .more (.ok false) → call.after.Stops →
      ∀ call' ∈ later, call'.event ≠ .more (.ok true)) ∧
    rejectionCount calls ≤ max 3 (2 * largestCount calls) + 1 := by
  refine ⟨?_, ?_, ?_, ?_, (hrun.invariant hbound).rejections_le⟩
  · intro n hn call hmem
    obtain ⟨earlier, aborted', hearlier⟩ := hrun.of_mem hmem
    exact (hearlier.invariant hbound).le_maxSize n hn
  · rintro ⟨event, after⟩ hmem hevent
    obtain ⟨earlier, aborted', hearlier⟩ := hrun.of_mem hmem
    dsimp only at hevent
    subst hevent
    cases hearlier with
    | @more calls state _ aborted data data' result hbefore haborted hcall =>
        have houtcome := @collectionMore_outcome Rng sampler state data
        rw [hcall] at houtcome
        cases houtcome with
        | stopped inner hopen hallows =>
            exact (hbefore.invariant hbound).allows_false hallows
  · intro call hmem hstop
    obtain ⟨earlier, aborted', hearlier⟩ := hrun.of_mem hmem
    have hloose : call.after.isFixed = false := by
      by_contra hfixed
      have hnot := (hearlier.invariant hbound).forceStop_fixed
        (by simpa using hfixed)
      exact Bool.noConfusion (hnot.symm.trans hstop)
    exact ManyState.not_allows_of_forceStop hloose hstop
  · intro later call earlier hcalls hevent hstops call' hmem heq
    obtain ⟨-, hlater⟩ := hrun.stopped_for_good hcalls hevent hstops
    obtain ⟨result, hmore, hne⟩ := hlater call' hmem
    rw [hmore] at heq
    exact hne (ManyEvent.more.inj heq)

/-- One element is rejected and another one is asked for. -/
theorem collection_protocol_sample :
    ∃ calls state aborted,
      ManyRun Sampler.simplest (.new 1 (some 3) .zero) calls state aborted ∧
      JustAccepted calls ∧ rejectionCount calls = 1 ∧
        rejectionCount calls ≤ max 3 (2 * largestCount calls) + 1 := by
  have hnew := @ManyRun.start _ Sampler.simplest (.new 1 (some 3) .zero)
  have hfirst := @ManyRun.more _ _ _ _ _ _ _ (simplestData 8) _ _ hnew nofun rfl
  have hrejected :=
    @ManyRun.reject _ _ _ _ _ _ _ (simplestData 8) _ _ hfirst nofun rfl rfl
  have hsecond :=
    @ManyRun.more _ _ _ _ _ _ _ (simplestData 8) _ _ hrejected nofun rfl
  have hprotocol := collection_protocol (fun n hn => by
    cases hn
    decide) hsecond
  exact ⟨_, _, _, hsecond, rfl, rfl, hprotocol.2.2.2.2⟩

end NativeDataSource

end Runs

end Hegel
