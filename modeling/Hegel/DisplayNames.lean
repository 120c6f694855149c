/-
The names under which draws are reported.  A repeatable name gets the first
suffix from its count on that no reported name has; any other name is reported
as it is, and may then repeat one that a suffix was added to.
-/
import Mathlib.Data.List.AList
import Mathlib.Data.Finset.Card
import Std.Data.String.ToNat

namespace Hegel

/-- Why a draw gets no name; a mistake in the caller. -/
inductive NamingError where
  | inconsistentRepeatable (name : String) (was now : Bool)
  | usedMoreThanOnce (name : String)
deriving DecidableEq

/-- What the test cases of one naming scope share. -/
structure DrawState where
  namedDrawCounts : AList fun _ : String => Nat
  namedDrawRepeatable : AList fun _ : String => Bool
  allocatedDisplayNames : Finset String

/-- A draw with a name, made through any test case of the scope. -/
structure NamedDraw where
  name : String
  repeatable : Bool
deriving DecidableEq

namespace DrawState

def new : DrawState :=
  ⟨∅, ∅, ∅⟩

/-- Check the flag of a name, or note it when the name is new. -/
def checkRepeatable (state : DrawState) (draw : NamedDraw) :
    Except NamingError DrawState :=
  match state.namedDrawRepeatable.lookup draw.name with
  | some prev =>
      if prev ≠ draw.repeatable then
        .error (.inconsistentRepeatable draw.name prev draw.repeatable)
      else .ok state
  | none =>
      .ok { state with namedDrawRepeatable :=
        state.namedDrawRepeatable.insert draw.name draw.repeatable }

/-- How often a name was drawn, this draw included. -/
def currentCount (state : DrawState) (name : String) : Nat :=
  ((state.namedDrawCounts.lookup name).map (· + 1)).getD 1

def countDraw (state : DrawState) (name : String) : DrawState :=
  { state with namedDrawCounts :=
    state.namedDrawCounts.insert name (state.currentCount name) }

def suffixed (name : String) (candidate : Nat) : String :=
  name ++ "_" ++ candidate.repr

/-- Walk up the candidates while their names are taken.  One more candidate
than there are names suffices. -/
def searchSuffix (taken : Finset String) (name : String) : Nat → Nat → Nat
  | 0, candidate => candidate
  | fuel + 1, candidate =>
      if suffixed name candidate ∈ taken then
        searchSuffix taken name fuel (candidate + 1)
      else candidate

/-- The name that a draw is reported under. -/
def display (state : DrawState) (draw : NamedDraw) (count : Nat) : String :=
  if draw.repeatable then
    suffixed draw.name (searchSuffix state.allocatedDisplayNames draw.name
      state.allocatedDisplayNames.card count)
  else draw.name

def allocate (state : DrawState) (display : String) : DrawState :=
  { state with
    allocatedDisplayNames := insert display state.allocatedDisplayNames }

/-- Validate and count a draw, and allocate its name if output is emitted. -/
def allocateDisplayName (emit : Bool) (state : DrawState) (draw : NamedDraw) :
    Except NamingError (Option String) × DrawState :=
  match state.checkRepeatable draw with
  | .error error => (.error error, state)
  | .ok state =>
      let count := state.currentCount draw.name
      let state := state.countDraw draw.name
      if !draw.repeatable && decide (count > 1) then
        (.error (.usedMoreThanOnce draw.name), state)
      else if !emit then (.ok none, state)
      else
        let display := state.display draw count
        (.ok (some display), state.allocate display)

/-- The names that a sequence of draws is reported under, and the state it
leaves. -/
def displayNames (emit : Bool) : DrawState → List NamedDraw → List String
  | _, [] => []
  | state, draw :: rest =>
      let (result, state) := state.allocateDisplayName emit draw
      result.toOption.join.toList ++ displayNames emit state rest

end DrawState

namespace DrawState

section Search

variable {taken : Finset String} {name : String}

theorem suffixed_injective (name : String) :
    Function.Injective (suffixed name) := by
  intro a b heq
  rw [suffixed, suffixed, String.append_right_inj] at heq
  exact Nat.repr_injective heq

/-- The search ends on a name that is free, or it only met taken ones. -/
theorem searchSuffix_spec (taken : Finset String) (name : String)
    (fuel candidate : Nat) :
    suffixed name (searchSuffix taken name fuel candidate) ∉ taken ∨
      ∀ i ≤ fuel, suffixed name (candidate + i) ∈ taken := by
  induction fuel generalizing candidate with
  | zero =>
      rw [searchSuffix]
      by_cases hmem : suffixed name candidate ∈ taken
      · right
        intro i hi
        rwa [Nat.le_zero.mp hi]
      · exact .inl hmem
  | succ fuel ih =>
      rw [searchSuffix]
      split
      case isFalse hfree => exact .inl hfree
      case isTrue hmem =>
        rcases ih (candidate + 1) with hfree | htaken
        · exact .inl hfree
        · right
          intro i hi
          cases i with
          | zero => exact hmem
          | succ i =>
              have hlater := htaken i (Nat.le_of_succ_le_succ hi)
              rwa [Nat.add_assoc, Nat.add_comm 1 i] at hlater

/-- There are too few names for all candidates to be taken. -/
theorem searchSuffix_free (taken : Finset String) (name : String)
    (candidate : Nat) :
    suffixed name (searchSuffix taken name taken.card candidate) ∉ taken := by
  rcases searchSuffix_spec taken name taken.card candidate with hfree | htaken
  · exact hfree
  · have hcard : (Finset.range (taken.card + 1)).card ≤ taken.card := by
      apply Finset.card_le_card_of_injOn fun i => suffixed name (candidate + i)
      · intro i hi
        exact htaken i (Nat.le_of_lt_succ (Finset.mem_range.mp hi))
      · intro i _ j _ heq
        exact Nat.add_left_cancel (suffixed_injective name heq)
    rw [Finset.card_range] at hcard
    omega

end Search

/-- Names are counted from the draw on that notes their flag. -/
structure Registered (state : DrawState) : Prop where
  counted : ∀ name, name ∈ state.namedDrawCounts ↔
    name ∈ state.namedDrawRepeatable
  positive : ∀ name count, state.namedDrawCounts.lookup name = some count →
    0 < count

theorem registered_new : Registered .new where
  counted _ := Iff.rfl
  positive _ _ hcount := by cases hcount

/-- A name that is reported as it is, because no draw had it, was not reported
before. -/
def Unclaimed (state : DrawState) (draw : NamedDraw) : Prop :=
  draw.repeatable = false → draw.name ∉ state.namedDrawCounts →
    draw.name ∉ state.allocatedDisplayNames

section Allocation

variable {state : DrawState} {draw : NamedDraw}

/-- The flag of a name is as before, or the name is new. -/
theorem checkRepeatable_ok {state' : DrawState}
    (hstate : state.Registered)
    (hcheck : state.checkRepeatable draw = .ok state') :
    state'.namedDrawCounts = state.namedDrawCounts ∧
      state'.allocatedDisplayNames = state.allocatedDisplayNames ∧
        ∀ name, name ∈ state'.namedDrawRepeatable ↔
          name = draw.name ∨ name ∈ state.namedDrawCounts := by
  rw [checkRepeatable] at hcheck
  cases hlookup : state.namedDrawRepeatable.lookup draw.name with
  | some prev =>
      simp only [hlookup] at hcheck
      split at hcheck
      case isTrue => cases hcheck
      case isFalse =>
        cases hcheck
        refine ⟨rfl, rfl, fun name => ?_⟩
        rw [hstate.counted]
        constructor
        · exact .inr
        · rintro (rfl | hmem)
          · exact AList.lookup_isSome.mp (Option.isSome_of_eq_some hlookup)
          · exact hmem
  | none =>
      simp only [hlookup] at hcheck
      cases hcheck
      refine ⟨rfl, rfl, fun name => ?_⟩
      rw [hstate.counted]
      exact AList.mem_insert _

theorem checkRepeatable_error {error : NamingError}
    (hstate : state.Registered)
    (hcheck : state.checkRepeatable draw = .error error) :
    draw.name ∈ state.namedDrawCounts := by
  rw [checkRepeatable] at hcheck
  cases hlookup : state.namedDrawRepeatable.lookup draw.name with
  | none =>
      simp only [hlookup] at hcheck
      cases hcheck
  | some prev =>
      rw [hstate.counted]
      exact AList.lookup_isSome.mp (Option.isSome_of_eq_some hlookup)

theorem registered_countDraw {state' : DrawState} (hstate : state.Registered)
    (hcheck : state.checkRepeatable draw = .ok state') :
    (state'.countDraw draw.name).Registered := by
  obtain ⟨hcounts, -, hflags⟩ := checkRepeatable_ok hstate hcheck
  constructor
  · intro name
    rw [countDraw, AList.mem_insert, hcounts, hflags]
  · intro name count hcount
    rw [countDraw] at hcount
    by_cases hname : name = draw.name
    · subst hname
      rw [AList.lookup_insert, Option.some.injEq] at hcount
      rw [← hcount, currentCount]
      cases state'.namedDrawCounts.lookup draw.name with
      | none => exact Nat.one_pos
      | some before => exact Nat.succ_pos before
    · rw [AList.lookup_insert_ne hname, hcounts] at hcount
      exact hstate.positive name count hcount

/-- What allocating a name does while output is emitted: the draw is refused,
which a new name never is, or it gets a name that is free exactly when the
name was not claimed. -/
inductive Allocation (state : DrawState) (draw : NamedDraw) :
    Except NamingError (Option String) × DrawState → Prop
  | refused (error : NamingError) {state' : DrawState}
      (hknown : draw.repeatable = false → draw.name ∈ state.namedDrawCounts)
      (hsame : state'.allocatedDisplayNames = state.allocatedDisplayNames)
      (hstate : state'.Registered) :
      Allocation state draw (.error error, state')
  | named (display : String) {state' : DrawState}
      (hfree : display ∉ state.allocatedDisplayNames ↔ state.Unclaimed draw)
      (hadded : state'.allocatedDisplayNames =
        insert display state.allocatedDisplayNames)
      (hstate : state'.Registered) :
      Allocation state draw (.ok (some display), state')

theorem allocateDisplayName_allocation (hstate : state.Registered) :
    Allocation state draw (state.allocateDisplayName true draw) := by
  rw [allocateDisplayName]
  cases hcheck : state.checkRepeatable draw with
  | error error =>
      exact .refused error (fun _ => checkRepeatable_error hstate hcheck) rfl
        hstate
  | ok checked =>
      obtain ⟨hcounts, hallocated, -⟩ := checkRepeatable_ok hstate hcheck
      have hregistered := registered_countDraw hstate hcheck
      have hcount : checked.currentCount draw.name > 1 ↔
          draw.name ∈ state.namedDrawCounts := by
        rw [currentCount, hcounts, ← AList.lookup_isSome]
        cases hlookup : state.namedDrawCounts.lookup draw.name with
        | none => simp
        | some before =>
            have hpositive := hstate.positive _ _ hlookup
            simpa using hpositive
      dsimp only
      split
      case isTrue hrepeated =>
        rw [Bool.and_eq_true, decide_eq_true_eq, hcount] at hrepeated
        exact .refused _ (fun _ => hrepeated.2) hallocated hregistered
      case isFalse hfirst =>
        refine .named _ ?_ ?_ ⟨hregistered.counted, hregistered.positive⟩
        · rw [display, Unclaimed]
          cases hrepeatable : draw.repeatable with
          | true =>
              have hfree := searchSuffix_free checked.allocatedDisplayNames
                draw.name (checked.currentCount draw.name)
              rw [hallocated] at hfree
              simpa [countDraw, hallocated] using hfree
          | false =>
              have hnew : draw.name ∉ state.namedDrawCounts := by
                rw [← hcount]
                simpa [hrepeatable] using hfirst
              simp [hnew]
        · rw [allocate, ← hallocated]
          rfl

end Allocation

/-- Every draw of the sequence that is reported under its own name finds the
name unclaimed. -/
def AllUnclaimed : DrawState → List NamedDraw → Prop
  | _, [] => True
  | state, draw :: rest =>
      state.Unclaimed draw ∧
        AllUnclaimed (state.allocateDisplayName true draw).2 rest

/-- The names of a sequence of draws, beside those that were there before. -/
theorem displayNames_fresh_iff {state : DrawState} (hstate : state.Registered)
    (draws : List NamedDraw) :
    ((displayNames true state draws).Nodup ∧
        ∀ name ∈ displayNames true state draws,
          name ∉ state.allocatedDisplayNames) ↔
      AllUnclaimed state draws := by
  induction draws generalizing state with
  | nil => simp [displayNames, AllUnclaimed]
  | cons draw rest ih =>
      rw [displayNames, AllUnclaimed]
      have hallocation := @allocateDisplayName_allocation state draw hstate
      generalize state.allocateDisplayName true draw = answer at hallocation
      cases hallocation with
      | refused error hknown hsame hregistered =>
          have hrest := ih hregistered
          rw [hsame] at hrest
          have hunclaimed : state.Unclaimed draw :=
            fun hliteral hnew => absurd (hknown hliteral) hnew
          rw [and_iff_right hunclaimed, ← hrest]
          rfl
      | named display hfree hadded hregistered =>
          rw [← ih hregistered, ← hfree, hadded]
          show ((display :: displayNames true _ rest).Nodup ∧
            ∀ name ∈ display :: displayNames true _ rest, _) ↔ _
          rw [List.nodup_cons, List.forall_mem_cons]
          constructor
          · rintro ⟨⟨hdisplay, hnodup⟩, hnew, hothers⟩
            refine ⟨hnew, hnodup, fun name hname hmem => ?_⟩
            rcases Finset.mem_insert.mp hmem with rfl | hold
            · exact hdisplay hname
            · exact hothers name hname hold
          · rintro ⟨hnew, hnodup, hothers⟩
            refine ⟨⟨fun hmem => ?_, hnodup⟩, hnew, fun name hname hold => ?_⟩
            · exact hothers display hmem (Finset.mem_insert_self _ _)
            · exact hothers name hname (Finset.mem_insert_of_mem hold)

/-- The reported names differ exactly when no draw is reported under its own
name after a suffix made the same one. -/
theorem displayNames_nodup_iff (draws : List NamedDraw) :
    (displayNames true .new draws).Nodup ↔ AllUnclaimed .new draws := by
  rw [← displayNames_fresh_iff registered_new]
  constructor
  · exact fun hnodup => ⟨hnodup, fun _ _ => Finset.notMem_empty _⟩
  · exact fun hfresh => hfresh.1

/-- A repeatable name takes the suffixed one that a later draw has. -/
theorem displayNames_repeat :
    displayNames true .new [⟨"x", true⟩, ⟨"x_1", false⟩] = ["x_1", "x_1"] ∧
      ¬(displayNames true .new [⟨"x", true⟩, ⟨"x_1", false⟩]).Nodup := by
  have hnames : displayNames true .new [⟨"x", true⟩, ⟨"x_1", false⟩] =
      ["x_1", "x_1"] := by decide +kernel
  refine ⟨hnames, ?_⟩
  rw [hnames]
  decide

end DrawState

end Hegel
