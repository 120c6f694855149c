/-
Runs of calls on a machine.  Workers and the root handle call in any order and
every call finds the test case in any state, so that the draws can come out in
every way they can at all; the machine stays in working order throughout.
-/
import Hegel.MachineCalls

namespace Hegel

/-- A call on a machine. -/
inductive MachineCall where
  | nextGroup
  | nextRule (workerIndex : Int)
  | ruleRejected (workerIndex : Int)
  | shouldCheckInvariant (invariantIndex : Int)

/-- A call with its answer. -/
inductive MachineEvent where
  | nextGroup (result : Except MachineError (Option Int))
  | nextRule (workerIndex : Int) (result : Except MachineError (Option Int))
  | ruleRejected (workerIndex : Int) (result : Except MachineError Unit)
  | shouldCheckInvariant (invariantIndex : Int)
      (result : Except MachineError Bool)

/-- The answer points at a mistake in the machine. -/
def MachineEvent.isInternal : MachineEvent → Bool
  | .nextGroup (.error error) => error.isInternal
  | .nextRule _ (.error error) => error.isInternal
  | .ruleRejected _ (.error error) => error.isInternal
  | .shouldCheckInvariant _ (.error error) => error.isInternal
  | _ => false

namespace NativeStateMachine

section Runs

variable {Rng : Type} (sampler : Sampler Rng) (stepCount : Int)

/-- Answer one call, drawing from a test case. -/
def perform (machine : NativeStateMachine) (source : Source Rng) :
    MachineCall → MachineEvent × NativeStateMachine
  | .nextGroup =>
      let (result, state) := nextGroup sampler stepCount (machine, source)
      (.nextGroup result, state.1)
  | .nextRule workerIndex =>
      let (result, state) := nextRule sampler workerIndex (machine, source)
      (.nextRule workerIndex result, state.1)
  | .ruleRejected workerIndex =>
      let (result, machine) := machine.ruleRejected workerIndex
      (.ruleRejected workerIndex result, machine)
  | .shouldCheckInvariant invariantIndex =>
      let (result, state) := shouldCheckInvariant sampler stepCount
        invariantIndex (machine, source)
      (.shouldCheckInvariant invariantIndex result, state.1)

/-- The machines that calls lead to, with the calls so far, latest first. -/
inductive Reaches (ruleGroups : List Int) :
    NativeStateMachine → List MachineEvent → Prop where
  | new (invariantAlwaysCheck : List Bool) (minConcurrency maxConcurrency : Int)
      (source : Source Rng) (machine : NativeStateMachine)
      (hnew : (new sampler ruleGroups invariantAlwaysCheck minConcurrency
        maxConcurrency source).1 = .ok machine) :
      Reaches ruleGroups machine []
  | call {machine : NativeStateMachine} {events : List MachineEvent}
      (hreaches : Reaches ruleGroups machine events) (source : Source Rng)
      (call : MachineCall) :
      Reaches ruleGroups (machine.perform sampler stepCount source call).2
        ((machine.perform sampler stepCount source call).1 :: events)

end Runs

section Validity

variable {Rng : Type} {sampler : Sampler Rng} {stepCount : Int}
  {ruleGroups : List Int} {machine : NativeStateMachine}

/-- Updating a worker keeps the machine in order if its flags stay valid. -/
theorem Valid.updateWorker (hvalid : machine.Valid ruleGroups)
    (workerIdx : Nat) {f : WorkerState → WorkerState}
    (hf : ∀ worker, worker.flags.Valid machine.groups ruleGroups.length →
      (f worker).flags.Valid machine.groups ruleGroups.length) :
    (machine.updateWorker workerIdx f).Valid ruleGroups := by
  constructor
  · exact hvalid.registered
  · exact hvalid.currentGroup_lt
  · rw [NativeStateMachine.updateWorker, List.length_modify]
    exact hvalid.concurrency_eq
  · intro worker hworker
    obtain ⟨i, hi⟩ := List.mem_iff_getElem?.mp hworker
    simp only [NativeStateMachine.updateWorker] at hi
    by_cases heq : workerIdx = i
    · subst heq
      rw [List.getElem?_modify_eq] at hi
      obtain ⟨old, hold, rfl⟩ := Option.map_eq_some_iff.mp hi
      exact hf old (hvalid.flags old (List.mem_of_getElem? hold))
    · rw [List.getElem?_modify_ne _ _ heq] at hi
      exact hvalid.flags worker (List.mem_of_getElem? hi)

theorem Valid.startRound (hvalid : machine.Valid ruleGroups) {group : Nat}
    (hgroup : group < machine.groups.length) :
    (machine.startRound group).Valid ruleGroups := by
  constructor
  · exact hvalid.registered
  · exact hgroup
  · rw [NativeStateMachine.startRound, List.length_map]
    exact hvalid.concurrency_eq
  · intro worker hworker
    obtain ⟨old, hold, rfl⟩ := List.mem_map.mp hworker
    exact hvalid.flags old hold

theorem Valid.rejectRule (hvalid : machine.Valid ruleGroups) (workerIdx : Nat) :
    (machine.rejectRule workerIdx).Valid ruleGroups := by
  have hupdated := hvalid.updateWorker workerIdx (f := rejectedRule)
    fun _ hworker => hworker
  rw [NativeStateMachine.rejectRule]
  split
  · exact ⟨hupdated.registered, hupdated.currentGroup_lt,
      hupdated.concurrency_eq, hupdated.flags⟩
  · exact hupdated

/-- The cases of a call, as one relation between machines. -/
inductive Called (stepCount : Int) (ruleGroups : List Int)
    (machine : NativeStateMachine) :
    MachineEvent → NativeStateMachine → Prop where
  | nextGroup {result : Except MachineError (Option Int)}
      {after : NativeStateMachine}
      (hcalled : GroupCalled stepCount machine result after) :
      Called stepCount ruleGroups machine (.nextGroup result) after
  | nextRule {workerIndex : Int} {result : Except MachineError (Option Int)}
      {after : NativeStateMachine}
      (hcalled : RuleCalled ruleGroups machine workerIndex result after) :
      Called stepCount ruleGroups machine (.nextRule workerIndex result) after
  | ruleRejected {workerIndex : Int} {result : Except MachineError Unit}
      {after : NativeStateMachine}
      (hcalled : RejectCalled machine workerIndex result after) :
      Called stepCount ruleGroups machine (.ruleRejected workerIndex result)
        after
  | shouldCheckInvariant {invariantIndex : Int}
      {result : Except MachineError Bool}
      (hinternal : ∀ error, result = .error error → error.isInternal = false) :
      Called stepCount ruleGroups machine
        (.shouldCheckInvariant invariantIndex result) machine

theorem perform_called (hvalid : machine.Valid ruleGroups)
    (source : Source Rng) (call : MachineCall) :
    Called stepCount ruleGroups machine
      (machine.perform sampler stepCount source call).1
      (machine.perform sampler stepCount source call).2 := by
  cases call with
  | nextGroup => exact .nextGroup (nextGroup_cases hvalid)
  | nextRule workerIndex => exact .nextRule (nextRule_cases hvalid workerIndex)
  | ruleRejected workerIndex =>
      exact .ruleRejected (ruleRejected_cases machine workerIndex)
  | shouldCheckInvariant invariantIndex =>
      have hcases : (shouldCheckInvariant sampler stepCount
          invariantIndex).Meets (machine, source) _ :=
        shouldCheckInvariant_cases invariantIndex
      rw [Attempt.Meets] at hcases
      simp only [perform]
      rcases hanswer : shouldCheckInvariant sampler stepCount invariantIndex
        (machine, source) with ⟨result, after⟩
      rw [hanswer] at hcases
      cases result with
      | ok value =>
          rw [hcases.1]
          exact .shouldCheckInvariant (by simp)
      | error error =>
          rw [hcases.1]
          refine .shouldCheckInvariant ?_
          rintro other ⟨⟩
          exact hcases.2

theorem Called.valid {event : MachineEvent} {after : NativeStateMachine}
    (hcalled : Called stepCount ruleGroups machine event after)
    (hvalid : machine.Valid ruleGroups) : after.Valid ruleGroups := by
  cases hcalled with
  | nextGroup hcalled =>
      cases hcalled with
      | started group id hallowed hgroup hid => exact hvalid.startRound hgroup
      | stopped hallowed => exact hvalid
      | refused error hinternal => exact hvalid
  | nextRule hcalled =>
      cases hcalled with
      | handed workerIdx worker members rule flags hindex hworker hstarted
          hroom hmembers hfound hflags =>
          exact hvalid.updateWorker workerIdx fun worker _ => hflags
      | finished => exact hvalid
      | refused error hinternal => exact hvalid
      | abandoned workerIdx flags error hinternal hflags =>
          exact hvalid.updateWorker workerIdx fun worker _ => hflags
  | ruleRejected hcalled =>
      cases hcalled with
      | rejected workerIdx worker hindex hworker houtstanding =>
          exact hvalid.rejectRule workerIdx
      | refused message hnone => exact hvalid
  | shouldCheckInvariant hinternal => exact hvalid

theorem Called.not_internal {event : MachineEvent} {after : NativeStateMachine}
    (hcalled : Called stepCount ruleGroups machine event after) :
    event.isInternal = false := by
  cases hcalled with
  | nextGroup hcalled =>
      cases hcalled with
      | started group id hallowed hgroup hid => rfl
      | stopped hallowed => rfl
      | refused error hinternal => exact hinternal
  | nextRule hcalled =>
      cases hcalled with
      | handed workerIdx worker members rule flags hindex hworker hstarted
          hroom hmembers hfound hflags => rfl
      | finished => rfl
      | refused error hinternal => exact hinternal
      | abandoned workerIdx flags error hinternal hflags => exact hinternal
  | ruleRejected hcalled =>
      cases hcalled with
      | rejected workerIdx worker hindex hworker houtstanding => rfl
      | refused message hnone => rfl
  | @shouldCheckInvariant invariantIndex result hinternal =>
      cases result with
      | ok value => rfl
      | error error => exact hinternal error rfl

theorem Reaches.valid {events : List MachineEvent}
    (hreaches : Reaches sampler stepCount ruleGroups machine events) :
    machine.Valid ruleGroups := by
  induction hreaches with
  | new invariantAlwaysCheck minConcurrency maxConcurrency source machine hnew =>
      exact (new_ok hnew).valid
  | call hreaches source call ih => exact (perform_called ih source call).valid ih

/-- The group announced last. -/
def announcedGroup : List MachineEvent → Option Int
  | [] => none
  | .nextGroup (.ok (some id)) :: _ => some id
  | _ :: events => announcedGroup events

/-- Rounds are about the group that was announced. -/
theorem Called.announced {event : MachineEvent} {after : NativeStateMachine}
    {events : List MachineEvent}
    (hcalled : Called stepCount ruleGroups machine event after)
    (hannounced : machine.roundsStarted ≠ 0 →
      machine.groupIds[machine.currentGroup]? = announcedGroup events) :
    after.roundsStarted ≠ 0 →
      after.groupIds[after.currentGroup]? = announcedGroup (event :: events) := by
  cases hcalled with
  | nextGroup hcalled =>
      cases hcalled with
      | started group id hallowed hgroup hid => exact fun _ => hid
      | stopped hallowed => exact hannounced
      | refused error hinternal => exact hannounced
  | nextRule hcalled =>
      cases hcalled with
      | handed workerIdx worker members rule flags hindex hworker hstarted
          hroom hmembers hfound hflags => exact hannounced
      | finished => exact hannounced
      | refused error hinternal => exact hannounced
      | abandoned workerIdx flags error hinternal hflags => exact hannounced
  | ruleRejected hcalled =>
      cases hcalled with
      | rejected workerIdx worker hindex hworker houtstanding =>
          rw [NativeStateMachine.rejectRule]
          split
          · exact hannounced
          · exact hannounced
      | refused message hnone => exact hannounced
  | shouldCheckInvariant hinternal => exact hannounced

theorem Reaches.announced {events : List MachineEvent}
    (hreaches : Reaches sampler stepCount ruleGroups machine events) :
    machine.roundsStarted ≠ 0 →
      machine.groupIds[machine.currentGroup]? = announcedGroup events := by
  induction hreaches with
  | new invariantAlwaysCheck minConcurrency maxConcurrency source machine hnew =>
      exact fun hstarted => absurd (new_ok hnew).roundsStarted hstarted
  | call hreaches source call ih =>
      exact (perform_called hreaches.valid source call).announced ih

/-- A rule that is handed out belongs to the announced group and is enabled for
its worker, for whom no group is ever disabled altogether, and no call runs
into an assertion of the machine. -/
theorem nextRule_selects {events : List MachineEvent}
    (hreaches : Reaches sampler stepCount ruleGroups machine events) :
    (∀ worker ∈ machine.workers, ∀ members ∈ machine.groups,
      ∃ rule ∈ members, ¬ IsDisabled worker.flags rule) ∧
      ∀ source call,
        (machine.perform sampler stepCount source call).1.isInternal = false ∧
        ∀ workerIndex rule,
          (machine.perform sampler stepCount source call).1 =
            .nextRule workerIndex (.ok (some rule)) →
          ∃ (workerIdx index : Nat) (worker : WorkerState) (id : Int),
            workerIndex = workerIdx ∧ rule = index ∧
            (machine.perform sampler stepCount source
              call).2.workers[workerIdx]? = some worker ∧
            IsEnabled worker.flags index ∧ ruleGroups[index]? = some id ∧
            announcedGroup events = some id := by
  have hvalid := hreaches.valid
  constructor
  · intro worker hworker members hmembers
    obtain ⟨g, hg⟩ := List.mem_iff_getElem?.mp hmembers
    exact (hvalid.flags worker hworker).exists_not_disabled hg
  · intro source call
    have hcalled := @perform_called Rng sampler stepCount ruleGroups machine
      hvalid source call
    constructor
    · exact hcalled.not_internal
    · intro workerIndex rule hevent
      rw [hevent] at hcalled
      generalize (machine.perform sampler stepCount source call).2 = after
        at hcalled ⊢
      cases hcalled with
      | nextRule hcalled =>
          cases hcalled with
          | handed workerIdx worker members index flags hindex hworker hstarted
              hroom hmembers hfound hflags =>
              have hid : machine.currentGroup < machine.groupIds.length :=
                hvalid.registered.length_eq.symm ▸ hvalid.currentGroup_lt
              have hid := List.getElem?_eq_getElem hid
              refine ⟨workerIdx, index, handedRule (withFlags flags worker), _,
                hindex, rfl, ?_, hfound.2,
                (hvalid.registered.mem_iff _ _ _ hid hmembers index).mp
                  hfound.1, (hreaches.announced hstarted).symm.trans hid⟩
              simp only [NativeStateMachine.updateWorker]
              rw [List.getElem?_modify_eq, hworker]
              rfl

end Validity

/-- A test case that draws the simplest values throughout. -/
def simplestSource : Source Unit :=
  ⟨.new 100, ⟨.new [], ⟨[], none, some (), usizeMax, none⟩⟩⟩

/-- One rule and one worker, before the first round. -/
def singleRule : NativeStateMachine where
  groups := [[0]]
  groupIds := [7]
  concurrency := 1
  currentGroup := 0
  roundsStarted := 0
  roundsRejected := 0
  invariantAlwaysCheck := []
  workers := [⟨⟨.zero, [none], [{0}]⟩, 0, 0, false, false⟩]

theorem reaches_singleRule :
    Reaches .simplest 50 [7]
      (singleRule.perform .simplest 50 simplestSource .nextGroup).2
      [(singleRule.perform .simplest 50 simplestSource .nextGroup).1] :=
  .call (.new [] 1 1 simplestSource singleRule (by rfl)) simplestSource
    .nextGroup

theorem nextRule_selects_sample :
    let machine :=
      (singleRule.perform .simplest 50 simplestSource .nextGroup).2
    let events :=
      [(singleRule.perform .simplest 50 simplestSource .nextGroup).1]
    ∃ (workerIdx index : Nat) (worker : WorkerState) (id : Int),
      (0 : Int) = workerIdx ∧ (0 : Int) = index ∧
      (machine.perform .simplest 50 simplestSource
        (.nextRule 0)).2.workers[workerIdx]? = some worker ∧
      IsEnabled worker.flags index ∧ ([7] : List Int)[index]? = some id ∧
      announcedGroup events = some id :=
  ((nextRule_selects reaches_singleRule).2 simplestSource (.nextRule 0)).2 0 0
    (by rfl)

end NativeStateMachine

end Hegel
