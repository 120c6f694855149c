/-
Rejecting a rule.  A worker may report its last rule as rejected; asking for
the next rule is said to complete the one before, but the machine only takes
note of that when there is a next rule.
-/
import Hegel.MachineRounds

namespace Hegel

section Histories

variable {events later earlier : List MachineEvent} {handOut : MachineEvent}
  {workerIndex : Int}

/-- The latest rule handed to a worker among some calls, latest first, with
the calls made since. -/
structure LastHandOut (workerIndex : Int) (events later : List MachineEvent)
    (handOut : MachineEvent) (earlier : List MachineEvent) : Prop where
  split : events = later ++ handOut :: earlier
  handed : handOut.handsOut workerIndex = true
  last : ∀ event ∈ later, event.handsOut workerIndex = false

/-- The worker's most recent request in the current round was answered with a
rule, which has not been rejected since. -/
def RuleOpen (workerIndex : Int) (events : List MachineEvent) : Prop :=
  ∃ later handOut earlier,
    LastHandOut workerIndex (currentRound events) later handOut earlier ∧
      ∀ event ∈ later, event.pulls workerIndex = false ∧
        event.rejects workerIndex = false

/-- Since its last rule, which has not been rejected, the worker has asked
again in the same round and got nothing. -/
def Lingers (workerIndex : Int) (events : List MachineEvent) : Prop :=
  ∃ later handOut earlier,
    LastHandOut workerIndex (currentRound events) later handOut earlier ∧
      (∀ event ∈ later, event.rejects workerIndex = false) ∧
      ∃ event ∈ later, event.pulls workerIndex = true

theorem LastHandOut.later_eq
    (hlast : LastHandOut workerIndex events later handOut earlier) :
    later = events.takeWhile fun event => !event.handsOut workerIndex := by
  have hskipped : ∀ event ∈ later, (!event.handsOut workerIndex) = true := by
    intro event hevent
    rw [hlast.last event hevent]
    rfl
  rw [hlast.split, List.takeWhile_append_of_pos hskipped,
    List.takeWhile_cons_of_neg (by simp [hlast.handed]), List.append_nil]

/-- What the machine remembers: the last rule has not been rejected. -/
theorem handedUnrejected_iff (workerIndex : Int) (round : List MachineEvent) :
    handedUnrejected workerIndex round = true ↔
      ∃ later handOut earlier,
        LastHandOut workerIndex round later handOut earlier ∧
          ∀ event ∈ later, event.rejects workerIndex = false := by
  induction round with
  | nil =>
      constructor
      · intro h; cases h
      · rintro ⟨later, handOut, earlier, hlast, -⟩
        exact absurd hlast.split (by simp)
  | cons event round ih =>
      rw [handedUnrejected]
      constructor
      · intro hopen
        split at hopen
        next hhanded =>
            exact ⟨[], event, round, ⟨rfl, hhanded, by simp⟩, by simp⟩
        next hother =>
            split at hopen
            next => cases hopen
            next hkept =>
                obtain ⟨later, handOut, earlier, hlast, hkeeps⟩ := ih.mp hopen
                refine ⟨event :: later, handOut, earlier,
                  ⟨by rw [hlast.split, List.cons_append], hlast.handed, ?_⟩, ?_⟩
                · exact List.forall_mem_cons.mpr
                    ⟨Bool.eq_false_iff.mpr hother, hlast.last⟩
                · exact List.forall_mem_cons.mpr
                    ⟨Bool.eq_false_iff.mpr hkept, hkeeps⟩
      · rintro ⟨later, handOut, earlier, hlast, hkeeps⟩
        cases later with
        | nil =>
            obtain ⟨rfl, -⟩ := List.cons.inj hlast.split
            rw [if_pos hlast.handed]
        | cons first later =>
            obtain ⟨rfl, hsplit⟩ := List.cons.inj hlast.split
            have hfirst := hlast.last event List.mem_cons_self
            have hkept := hkeeps event List.mem_cons_self
            rw [hfirst, hkept, if_neg Bool.false_ne_true,
              if_neg Bool.false_ne_true]
            exact ih.mpr ⟨later, handOut, earlier, ⟨hsplit, hlast.handed,
              fun e he => hlast.last e (List.mem_cons_of_mem _ he)⟩,
              fun e he => hkeeps e (List.mem_cons_of_mem _ he)⟩

/-- Either the worker has not asked again, or it has and got nothing. -/
theorem handedUnrejected_cases (workerIndex : Int)
    (events : List MachineEvent) :
    handedUnrejected workerIndex (currentRound events) = true ↔
      RuleOpen workerIndex events ∨ Lingers workerIndex events := by
  rw [handedUnrejected_iff]
  constructor
  · rintro ⟨later, handOut, earlier, hlast, hkeeps⟩
    by_cases hagain : ∃ event ∈ later, event.pulls workerIndex = true
    · exact .inr ⟨later, handOut, earlier, hlast, hkeeps, hagain⟩
    · refine .inl ⟨later, handOut, earlier, hlast, fun event hevent => ?_⟩
      refine ⟨Bool.eq_false_iff.mpr fun hpulls => ?_, hkeeps event hevent⟩
      exact hagain ⟨event, hevent, hpulls⟩
  · rintro (⟨later, handOut, earlier, hlast, hsince⟩ |
      ⟨later, handOut, earlier, hlast, hkeeps, -⟩)
    · exact ⟨later, handOut, earlier, hlast, fun event hevent =>
        (hsince event hevent).2⟩
    · exact ⟨later, handOut, earlier, hlast, hkeeps⟩

theorem not_ruleOpen_of_lingers (hlingers : Lingers workerIndex events) :
    ¬ RuleOpen workerIndex events := by
  rintro ⟨later, handOut, earlier, hlast, hsince⟩
  obtain ⟨later', handOut', earlier', hlast', -, event, hevent, hpulls⟩ :=
    hlingers
  rw [hlast'.later_eq, ← hlast.later_eq] at hevent
  rw [(hsince event hevent).1] at hpulls
  cases hpulls

end Histories

namespace NativeStateMachine

/-- Rejecting succeeds exactly when the worker's last request was answered with
a rule that has not been rejected, and otherwise changes nothing. -/
def RejectionConforms (machine : NativeStateMachine)
    (events : List MachineEvent) (workerIndex : Int) : Prop :=
  ((machine.ruleRejected workerIndex).1 = .ok () ↔
    RuleOpen workerIndex events) ∧
  ((machine.ruleRejected workerIndex).1 ≠ .ok () →
    (∃ message, (machine.ruleRejected workerIndex).1 =
      .error (.invalidArgument message)) ∧
    (machine.ruleRejected workerIndex).2 = machine)

section Rejections

variable {Rng : Type} {sampler : Sampler Rng} {stepCount : Int}
  {ruleGroups : List Int} {machine : NativeStateMachine}
  {events : List MachineEvent}

/-- Rejecting succeeds as long as the last rule has not been rejected. -/
theorem Tracks.ruleRejected_ok (htracks : Tracks machine events)
    (workerIndex : Int) :
    (machine.ruleRejected workerIndex).1 = .ok () ↔
      handedUnrejected workerIndex (currentRound events) = true := by
  have hcases := ruleRejected_cases machine workerIndex
  generalize machine.ruleRejected workerIndex = answer at hcases ⊢
  obtain ⟨result, after⟩ := answer
  dsimp only at hcases ⊢
  cases hcases with
  | rejected workerIdx worker hindex hworker houtstanding =>
      subst hindex
      rw [← (htracks.workers workerIdx worker hworker).outstanding]
      exact ⟨fun _ => houtstanding, fun _ => rfl⟩
  | refused message hnone =>
      constructor
      · simp
      · intro hopen
        obtain ⟨later, handOut, earlier, hlast, -⟩ :=
          (handedUnrejected_iff _ _).mp hopen
        have hmem : handOut ∈ currentRound events := by
          rw [hlast.split]
          simp
        obtain ⟨i, rfl, hlt⟩ := htracks.present handOut
          ((List.takeWhile_sublist _).subset hmem) workerIndex hlast.handed
        have hworker := List.getElem?_eq_getElem hlt
        have htracked := (htracks.workers i _ hworker).outstanding
        rw [hnone i _ rfl hworker, hopen] at htracked
        cases htracked

/-- Rejections follow the protocol exactly while no worker has asked again
without getting a rule. -/
theorem ruleRejected_conforms
    (hreaches : Reaches sampler stepCount ruleGroups machine events)
    (workerIndex : Int) :
    RejectionConforms machine events workerIndex ↔
      ¬ Lingers workerIndex events := by
  have hok := hreaches.tracks.ruleRejected_ok workerIndex
  have hcases := handedUnrejected_cases workerIndex events
  have hunchanged : (machine.ruleRejected workerIndex).1 ≠ .ok () →
      (∃ message, (machine.ruleRejected workerIndex).1 =
        .error (.invalidArgument message)) ∧
      (machine.ruleRejected workerIndex).2 = machine := by
    have hrejected := ruleRejected_cases machine workerIndex
    generalize machine.ruleRejected workerIndex = answer at hrejected ⊢
    obtain ⟨result, after⟩ := answer
    dsimp only at hrejected ⊢
    intro hrefused
    cases hrejected with
    | rejected workerIdx worker hindex hworker houtstanding =>
        exact absurd rfl hrefused
    | refused message hnone => exact ⟨⟨message, rfl⟩, rfl⟩
  rw [RejectionConforms, hok, hcases]
  constructor
  · rintro ⟨hiff, -⟩ hlingers
    exact not_ruleOpen_of_lingers hlingers (hiff.mp (.inr hlingers))
  · intro hnot
    exact ⟨or_iff_left hnot, hunchanged⟩

end Rejections

/-- A single worker was handed a rule and asked for another one. -/
def askedAgain : NativeStateMachine × List MachineEvent :=
  let first := singleRule.perform .simplest 50 simplestSource .nextGroup
  let second := first.2.perform .simplest 50 simplestSource (.nextRule 0)
  let third := second.2.perform .simplest 50 simplestSource (.nextRule 0)
  (third.2, [third.1, second.1, first.1])

theorem reaches_askedAgain :
    Reaches .simplest 50 [7] askedAgain.1 askedAgain.2 :=
  .call (.call reaches_singleRule simplestSource (.nextRule 0))
    simplestSource (.nextRule 0)

/-- The worker that was handed a rule last can reject it. -/
theorem ruleRejected_conforms_sample :
    RejectionConforms bothHanded.1 bothHanded.2 1 := by
  apply (ruleRejected_conforms reaches_bothHanded 1).mpr
  rintro ⟨later, handOut, earlier, hlast, -, event, hevent, -⟩
  have hlatest : (currentRound bothHanded.2).takeWhile
      (fun event => !event.handsOut 1) = [] := by rfl
  rw [hlast.later_eq, hlatest] at hevent
  cases hevent

/-- The rule before the refused request can still be rejected. -/
theorem ruleRejected_conforms_fails :
    ¬ ∀ machine events, Reaches .simplest 50 [7] machine events →
      ∀ workerIndex, RejectionConforms machine events workerIndex := by
  intro hconforms
  have hok : (askedAgain.1.ruleRejected 0).1 = .ok () := by rfl
  have hevents : ∃ earlier, currentRound askedAgain.2 =
      .nextRule 0 (.ok none) :: earlier := ⟨_, by rfl⟩
  obtain ⟨later, handOut, earlier, hlast, hsince⟩ :=
    (hconforms _ _ reaches_askedAgain 0).1.mp hok
  obtain ⟨before, hround⟩ := hevents
  have hsplit := hlast.split
  rw [hround] at hsplit
  cases later with
  | nil =>
      have hhanded := hlast.handed
      rw [← (List.cons.inj hsplit).1] at hhanded
      cases hhanded
  | cons event later =>
      have hpulls := (hsince event List.mem_cons_self).1
      rw [← (List.cons.inj hsplit).1] at hpulls
      cases hpulls

end NativeStateMachine

end Hegel
