/-
The counters of a machine against the history of calls.  They count the rounds
and, for every worker, the rules handed out and rejected since the last join
point; the budget of rounds and of rules within a round follows.
-/
import Hegel.MachineRuns

namespace Hegel

namespace MachineEvent

/-- The call started a round. -/
def startsRound : MachineEvent → Bool
  | nextGroup (.ok (some _)) => true
  | _ => false

/-- The worker asked for a rule. -/
def pulls (workerIndex : Int) : MachineEvent → Bool
  | nextRule index _ => index == workerIndex
  | _ => false

/-- The worker was handed a rule. -/
def handsOut (workerIndex : Int) : MachineEvent → Bool
  | nextRule index (.ok (some _)) => index == workerIndex
  | _ => false

/-- A rule was handed out. -/
def isHandOut : MachineEvent → Bool
  | nextRule _ (.ok (some _)) => true
  | _ => false

/-- A rule was reported as rejected. -/
def isRejection : MachineEvent → Bool
  | ruleRejected _ (.ok _) => true
  | _ => false

/-- The worker's rule was reported as rejected. -/
def rejects (workerIndex : Int) : MachineEvent → Bool
  | ruleRejected index (.ok _) => index == workerIndex
  | _ => false

end MachineEvent

/-- The calls since the last round was started. -/
def currentRound (events : List MachineEvent) : List MachineEvent :=
  events.takeWhile fun event => !event.startsRound

def startedRounds (events : List MachineEvent) : Nat :=
  events.countP MachineEvent.startsRound

def rejectedRules (events : List MachineEvent) : Nat :=
  events.countP MachineEvent.isRejection

/-- Rules handed to a worker in the current round. -/
def handOuts (workerIndex : Int) (events : List MachineEvent) : Nat :=
  (currentRound events).countP (MachineEvent.handsOut workerIndex)

/-- Rules of a worker rejected in the current round. -/
def rejections (workerIndex : Int) (events : List MachineEvent) : Nat :=
  (currentRound events).countP (MachineEvent.rejects workerIndex)

/-- Among some calls, latest first, the last rule handed to a worker has not
been rejected. -/
def handedUnrejected (workerIndex : Int) : List MachineEvent → Bool
  | [] => false
  | event :: events =>
      if event.handsOut workerIndex then true
      else if event.rejects workerIndex then false
      else handedUnrejected workerIndex events

section Histories

variable {event : MachineEvent} {events : List MachineEvent}

theorem currentRound_of_start (hstart : event.startsRound = true) :
    currentRound (event :: events) = [] := by
  rw [currentRound, List.takeWhile_cons, hstart]
  rfl

theorem currentRound_of_not_start (hstart : event.startsRound = false) :
    currentRound (event :: events) = event :: currentRound events := by
  rw [currentRound, List.takeWhile_cons, hstart]
  rfl

end Histories

namespace NativeStateMachine

theorem getElem?_updateWorker (machine : NativeStateMachine)
    (workerIdx i : Nat) (f : WorkerState → WorkerState) :
    (machine.updateWorker workerIdx f).workers[i]? =
      if workerIdx = i then machine.workers[i]?.map f
      else machine.workers[i]? := by
  rw [updateWorker]
  split
  next heq =>
      subst heq
      exact List.getElem?_modify_eq _ _ _
  next hne => exact List.getElem?_modify_ne _ _ hne

/-- What the state of a worker says about the calls of the current round. -/
structure TracksWorker (worker : WorkerState) (workerIndex : Int)
    (events : List MachineEvent) : Prop where
  drawn : worker.stepsDrawn = handOuts workerIndex events
  rejected : worker.stepsRejected = rejections workerIndex events
  outstanding : worker.ruleOutstanding =
    handedUnrejected workerIndex (currentRound events)

/-- What a machine's counters say about the calls so far. -/
structure Tracks (machine : NativeStateMachine) (events : List MachineEvent) :
    Prop where
  started : machine.roundsStarted = startedRounds events
  rejected : machine.roundsRejected =
    if machine.concurrency = 1 then (rejectedRules events : Int) else 0
  workers : ∀ (i : Nat) worker, machine.workers[i]? = some worker →
    TracksWorker worker i events
  present : ∀ event ∈ events, ∀ workerIndex,
    event.handsOut workerIndex = true →
      ∃ i : Nat, workerIndex = i ∧ i < machine.workers.length

/-- A call that neither starts a round nor hands out nor rejects a rule. -/
structure Idle (event : MachineEvent) : Prop where
  startsRound : event.startsRound = false
  isRejection : event.isRejection = false
  handsOut : ∀ workerIndex, event.handsOut workerIndex = false
  rejects : ∀ workerIndex, event.rejects workerIndex = false

section Tracking

variable {machine after : NativeStateMachine} {event : MachineEvent}
  {events : List MachineEvent}

theorem Tracks.present_cons (htracks : Tracks machine events)
    (hnew : ∀ workerIndex, event.handsOut workerIndex = true →
      ∃ i : Nat, workerIndex = i ∧ i < machine.workers.length) :
    ∀ other ∈ event :: events, ∀ workerIndex,
      other.handsOut workerIndex = true →
        ∃ i : Nat, workerIndex = i ∧ i < machine.workers.length := by
  intro other hother
  rcases List.mem_cons.mp hother with rfl | hold
  · exact hnew
  · exact htracks.present other hold

/-- Nothing is counted for an idle call. -/
theorem Idle.worker (hidle : Idle event) {worker : WorkerState}
    {workerIndex : Int} (htracks : TracksWorker worker workerIndex events) :
    TracksWorker worker workerIndex (event :: events) := by
  constructor
  · rw [htracks.drawn, handOuts, handOuts,
      currentRound_of_not_start hidle.startsRound, List.countP_cons,
      hidle.handsOut, if_neg Bool.false_ne_true, Nat.add_zero]
  · rw [htracks.rejected, rejections, rejections,
      currentRound_of_not_start hidle.startsRound, List.countP_cons,
      hidle.rejects, if_neg Bool.false_ne_true, Nat.add_zero]
  · rw [htracks.outstanding, currentRound_of_not_start hidle.startsRound,
      handedUnrejected, hidle.handsOut, hidle.rejects,
      if_neg Bool.false_ne_true, if_neg Bool.false_ne_true]

theorem Idle.tracks (hidle : Idle event) (htracks : Tracks machine events)
    (hstarted : after.roundsStarted = machine.roundsStarted)
    (hrejected : after.roundsRejected = machine.roundsRejected)
    (hconcurrency : after.concurrency = machine.concurrency)
    (hlength : after.workers.length = machine.workers.length)
    (hworkers : ∀ (i : Nat) worker, after.workers[i]? = some worker →
      TracksWorker worker i events) :
    Tracks after (event :: events) := by
  constructor
  · rw [hstarted, htracks.started, startedRounds, startedRounds,
      List.countP_cons, hidle.startsRound, if_neg Bool.false_ne_true,
      Nat.add_zero]
  · rw [hrejected, htracks.rejected, hconcurrency, rejectedRules,
      rejectedRules, List.countP_cons, hidle.isRejection,
      if_neg Bool.false_ne_true, Nat.add_zero]
  · exact fun i worker hworker => hidle.worker (hworkers i worker hworker)
  · rw [hlength]
    exact htracks.present_cons fun workerIndex hnew => by
      rw [hidle.handsOut] at hnew
      cases hnew

theorem tracks_startRound (htracks : Tracks machine events) (group : Nat)
    (id : Int) :
    Tracks (machine.startRound group)
      (.nextGroup (.ok (some id)) :: events) := by
  constructor
  · rw [startRound, htracks.started, startedRounds, startedRounds,
      List.countP_cons_of_pos (by rfl)]
    rfl
  · rw [startRound, htracks.rejected, rejectedRules, rejectedRules,
      List.countP_cons_of_neg (by intro h; cases h)]
  · intro i worker hworker
    rw [startRound, List.getElem?_map] at hworker
    obtain ⟨old, -, rfl⟩ := Option.map_eq_some_iff.mp hworker
    constructor
    · rw [handOuts, currentRound_of_start rfl]
      rfl
    · rw [rejections, currentRound_of_start rfl]
      rfl
    · rw [currentRound_of_start rfl]
      rfl
  · rw [startRound, List.length_map]
    exact htracks.present_cons fun workerIndex hnew => by cases hnew

/-- Handing a rule to one worker counts for that worker only. -/
theorem tracks_handed (htracks : Tracks machine events) {workerIdx : Nat}
    {worker : WorkerState} (hworker : machine.workers[workerIdx]? = some worker)
    (flags : FeatureFlags) (rule : Int) :
    Tracks (machine.updateWorker workerIdx (handedRule ∘ withFlags flags))
      (.nextRule workerIdx (.ok (some rule)) :: events) := by
  have hround : currentRound (.nextRule workerIdx (.ok (some rule)) :: events) =
      .nextRule workerIdx (.ok (some rule)) :: currentRound events :=
    currentRound_of_not_start rfl
  constructor
  · rw [updateWorker, htracks.started, startedRounds, startedRounds,
      List.countP_cons_of_neg (by intro h; cases h)]
  · rw [updateWorker, htracks.rejected, rejectedRules, rejectedRules,
      List.countP_cons_of_neg (by intro h; cases h)]
  · intro i other hother
    rw [getElem?_updateWorker] at hother
    by_cases heq : workerIdx = i
    · subst heq
      rw [if_pos rfl, hworker] at hother
      obtain rfl := Option.some.inj hother
      have hold := htracks.workers workerIdx worker hworker
      constructor
      · rw [handOuts, hround, List.countP_cons_of_pos (by
          simp [MachineEvent.handsOut])]
        simp only [Function.comp_apply, handedRule, withFlags, hold.drawn,
          handOuts, Nat.cast_add, Nat.cast_one]
      · rw [rejections, hround, List.countP_cons_of_neg (by
          simp [MachineEvent.rejects])]
        exact hold.rejected
      · rw [hround, handedUnrejected, if_pos (by
          simp [MachineEvent.handsOut])]
        rfl
    · rw [if_neg heq] at hother
      have hold := htracks.workers i other hother
      have hne : ¬ ((workerIdx : Int) = i) := fun h => heq (Int.ofNat_inj.mp h)
      constructor
      · rw [handOuts, hround, List.countP_cons_of_neg (by
          simp [MachineEvent.handsOut, hne])]
        exact hold.drawn
      · rw [rejections, hround, List.countP_cons_of_neg (by
          simp [MachineEvent.rejects])]
        exact hold.rejected
      · rw [hround, handedUnrejected, if_neg (by
          simp [MachineEvent.handsOut, hne]), if_neg (by
          simp [MachineEvent.rejects])]
        exact hold.outstanding
  · rw [updateWorker, List.length_modify]
    exact htracks.present_cons fun workerIndex hnew =>
      ⟨workerIdx, (beq_iff_eq.mp hnew).symm,
        (List.getElem?_eq_some_iff.mp hworker).1⟩

theorem workers_rejectRule (machine : NativeStateMachine) (workerIdx : Nat) :
    (machine.rejectRule workerIdx).workers =
      (machine.updateWorker workerIdx rejectedRule).workers := by
  rw [rejectRule]
  split <;> rfl

/-- Rejecting the rule of one worker counts for that worker only. -/
theorem tracks_rejected (htracks : Tracks machine events) {workerIdx : Nat}
    {worker : WorkerState} (hworker : machine.workers[workerIdx]? = some worker) :
    Tracks (machine.rejectRule workerIdx)
      (.ruleRejected workerIdx (.ok ()) :: events) := by
  have hround : currentRound (.ruleRejected workerIdx (.ok ()) :: events) =
      .ruleRejected workerIdx (.ok ()) :: currentRound events :=
    currentRound_of_not_start rfl
  constructor
  · have hsame : (machine.rejectRule workerIdx).roundsStarted =
        machine.roundsStarted := by
      rw [rejectRule]
      split <;> rfl
    rw [hsame, htracks.started, startedRounds, startedRounds,
      List.countP_cons_of_neg (by intro h; cases h)]
  · have hrejected := htracks.rejected
    rw [rejectedRules, List.countP_cons_of_pos (by rfl), rejectRule]
    by_cases hsingle : machine.concurrency = 1
    · rw [if_pos hsingle] at hrejected
      rw [if_pos (by exact hsingle), if_pos (by exact hsingle)]
      simp only [hrejected, rejectedRules, updateWorker, Nat.cast_add,
        Nat.cast_one]
    · rw [if_neg hsingle] at hrejected
      rw [if_neg (by exact hsingle), if_neg (by exact hsingle)]
      exact hrejected
  · intro i other hother
    rw [workers_rejectRule, getElem?_updateWorker] at hother
    by_cases heq : workerIdx = i
    · subst heq
      rw [if_pos rfl, hworker] at hother
      obtain rfl := Option.some.inj hother
      have hold := htracks.workers workerIdx worker hworker
      constructor
      · rw [handOuts, hround, List.countP_cons_of_neg (by
          simp [MachineEvent.handsOut])]
        exact hold.drawn
      · rw [rejections, hround, List.countP_cons_of_pos (by
          simp [MachineEvent.rejects])]
        simp only [rejectedRule, hold.rejected, rejections, Nat.cast_add,
          Nat.cast_one]
      · rw [hround, handedUnrejected, if_neg (by
          simp [MachineEvent.handsOut]), if_pos (by
          simp [MachineEvent.rejects])]
        rfl
    · rw [if_neg heq] at hother
      have hold := htracks.workers i other hother
      have hne : ¬ ((workerIdx : Int) = i) := fun h => heq (Int.ofNat_inj.mp h)
      constructor
      · rw [handOuts, hround, List.countP_cons_of_neg (by
          simp [MachineEvent.handsOut])]
        exact hold.drawn
      · rw [rejections, hround, List.countP_cons_of_neg (by
          simp [MachineEvent.rejects, hne])]
        exact hold.rejected
      · rw [hround, handedUnrejected, if_neg (by
          simp [MachineEvent.handsOut]), if_neg (by
          simp [MachineEvent.rejects, hne])]
        exact hold.outstanding
  · rw [workers_rejectRule, updateWorker, List.length_modify]
    exact htracks.present_cons fun workerIndex hnew => by cases hnew

/-- One call is counted as it should be. -/
theorem Called.tracks {stepCount : Int} {ruleGroups : List Int}
    (hcalled : Called stepCount ruleGroups machine event after)
    (htracks : Tracks machine events) : Tracks after (event :: events) := by
  have hsame : ∀ event, Idle event → Tracks machine (event :: events) :=
    fun event hidle => hidle.tracks htracks rfl rfl rfl rfl htracks.workers
  cases hcalled with
  | nextGroup hcalled =>
      cases hcalled with
      | started group id hallowed hgroup hid =>
          exact tracks_startRound htracks group id
      | stopped hallowed =>
          exact hsame _ ⟨rfl, rfl, fun _ => rfl, fun _ => rfl⟩
      | refused error hinternal =>
          exact hsame _ ⟨rfl, rfl, fun _ => rfl, fun _ => rfl⟩
  | nextRule hcalled =>
      cases hcalled with
      | handed workerIdx worker members rule flags hindex hworker hstarted
          hroom hmembers hfound hflags =>
          subst hindex
          exact tracks_handed htracks hworker flags rule
      | finished => exact hsame _ ⟨rfl, rfl, fun _ => rfl, fun _ => rfl⟩
      | refused error hinternal =>
          exact hsame _ ⟨rfl, rfl, fun _ => rfl, fun _ => rfl⟩
      | abandoned workerIdx flags error hinternal hflags =>
          refine Idle.tracks ⟨rfl, rfl, fun _ => rfl, fun _ => rfl⟩ htracks
            rfl rfl rfl (List.length_modify _ _ _) ?_
          intro i worker hworker
          rw [getElem?_updateWorker] at hworker
          split at hworker
          next =>
              obtain ⟨old, hold, rfl⟩ := Option.map_eq_some_iff.mp hworker
              have htracked := htracks.workers i old hold
              exact ⟨htracked.drawn, htracked.rejected, htracked.outstanding⟩
          next => exact htracks.workers i worker hworker
  | ruleRejected hcalled =>
      cases hcalled with
      | rejected workerIdx worker hindex hworker houtstanding =>
          subst hindex
          exact tracks_rejected htracks hworker
      | refused message hnone =>
          exact hsame _ ⟨rfl, rfl, fun _ => rfl, fun _ => rfl⟩
  | shouldCheckInvariant hinternal =>
      exact hsame _ ⟨rfl, rfl, fun _ => rfl, fun _ => rfl⟩

end Tracking

section Budget

variable {Rng : Type} {sampler : Sampler Rng} {stepCount : Int}
  {ruleGroups : List Int} {machine after : NativeStateMachine}
  {event : MachineEvent} {events : List MachineEvent}

theorem Reaches.tracks
    (hreaches : Reaches sampler stepCount ruleGroups machine events) :
    Tracks machine events := by
  induction hreaches with
  | new invariantAlwaysCheck minConcurrency maxConcurrency source machine hnew =>
      have hstarted := new_ok hnew
      constructor
      · exact hstarted.roundsStarted
      · rw [hstarted.roundsRejected]
        split <;> rfl
      · intro i worker hworker
        have hfresh := hstarted.fresh worker (List.mem_of_getElem? hworker)
        exact ⟨hfresh.stepsDrawn, hfresh.stepsRejected,
          hfresh.ruleOutstanding⟩
      · exact fun event hevent => absurd hevent List.not_mem_nil
  | call hreaches source call ih =>
      exact (perform_called hreaches.valid source call).tracks ih

/-- The bounds of one worker within a round. -/
structure WorkerBudget (concurrency : Int) (worker : WorkerState) : Prop where
  nonneg : 0 ≤ worker.stepsRejected
  outstanding : worker.ruleOutstanding = true →
    worker.stepsRejected < worker.stepsDrawn
  rejected_le : worker.stepsRejected ≤ worker.stepsDrawn
  single : concurrency = 1 → worker.stepsDrawn ≤ 1
  attempts : concurrency ≠ 1 → worker.stepsDrawn ≤ 50
  completed : concurrency ≠ 1 → worker.stepsDrawn - worker.stepsRejected ≤ 5

/-- The bounds on the rounds of a machine.  With a single worker a rejection
is counted at most once for every round. -/
structure Budget (stepCount : Int) (machine : NativeStateMachine) : Prop where
  counted_le : machine.roundsStarted - machine.roundsRejected ≤ stepCount
  started_le : machine.roundsStarted ≤ max (10 * stepCount) 1000
  many : machine.concurrency ≠ 1 → machine.roundsRejected = 0
  started_nonneg : 0 ≤ machine.roundsStarted
  single : machine.concurrency = 1 → ∀ worker ∈ machine.workers,
    (machine.roundsStarted = 0 ∧ machine.roundsRejected = 0 ∧
      worker.stepsDrawn = 0) ∨
    machine.roundsRejected + 1 ≤ machine.roundsStarted + worker.stepsRejected
  workers : ∀ worker ∈ machine.workers,
    WorkerBudget machine.concurrency worker

theorem saturatingMul_le {a : Int} (ha : 1 ≤ a) :
    saturatingMul a attemptMultiplier ≤ 10 * a := by
  rw [saturatingMul, attemptMultiplier]
  omega

/-- A round is only started within the budget. -/
theorem room_of_forcedContinue (hstep : 1 ≤ stepCount)
    (hallowed : machine.forcedContinue stepCount ≠ some false) :
    machine.roundsStarted - machine.roundsRejected < stepCount ∧
      machine.roundsStarted < max (10 * stepCount) 1000 := by
  have hmul := saturatingMul_le hstep
  have hcap : (if machine.roundsStarted - machine.roundsRejected = 0 then
      max (saturatingMul stepCount attemptMultiplier) minAttemptsWithoutSuccess
      else saturatingMul stepCount attemptMultiplier) ≤
        max (10 * stepCount) 1000 := by
    rw [minAttemptsWithoutSuccess]
    split <;> omega
  obtain ⟨hcounted, hstarted⟩ :=
    not_or.mp fun hfull => hallowed (if_pos hfull)
  exact ⟨Int.not_le.mp hcounted, (Int.not_le.mp hstarted).trans_le hcap⟩

theorem Budget.rejected_le (hbudget : Budget stepCount machine)
    (hvalid : machine.Valid ruleGroups) :
    machine.roundsRejected ≤ machine.roundsStarted := by
  have hnonneg := hbudget.started_nonneg
  by_cases hsingle : machine.concurrency = 1
  · have hlength := hvalid.concurrency_eq
    have hpos : 0 < machine.workers.length := by omega
    have hworker := List.getElem_mem hpos
    have hbounds := hbudget.workers _ hworker
    have hdrawn := hbounds.single hsingle
    have hle := hbounds.rejected_le
    rcases hbudget.single hsingle _ hworker with ⟨-, hnone, -⟩ | hcounted
    · omega
    · omega
  · rw [hbudget.many hsingle]
    exact hnonneg

theorem Budget.startRound (hbudget : Budget stepCount machine)
    (hvalid : machine.Valid ruleGroups) (hstep : 1 ≤ stepCount)
    (hallowed : machine.forcedContinue stepCount ≠ some false) (group : Nat) :
    Budget stepCount (machine.startRound group) := by
  obtain ⟨hcounted, hstarted⟩ := room_of_forcedContinue hstep hallowed
  have hrejected := hbudget.rejected_le hvalid
  rw [NativeStateMachine.startRound]
  constructor
  · dsimp only
    omega
  · dsimp only
    omega
  · exact hbudget.many
  · have hnonneg := hbudget.started_nonneg
    dsimp only
    omega
  · intro _ worker hworker
    obtain ⟨old, -, rfl⟩ := List.mem_map.mp hworker
    right
    simp only [WorkerState.refreshed]
    omega
  · intro worker hworker
    obtain ⟨old, -, rfl⟩ := List.mem_map.mp hworker
    exact ⟨le_rfl, (by intro h; cases h), le_rfl, fun _ => Int.zero_le_ofNat 1,
      fun _ => Int.zero_le_ofNat 50, fun _ => by simp [WorkerState.refreshed]⟩

/-- Members of an updated list of workers. -/
theorem mem_updateWorker {workerIdx : Nat} {f : WorkerState → WorkerState}
    {worker : WorkerState}
    (hworker : worker ∈ (machine.updateWorker workerIdx f).workers) :
    worker ∈ machine.workers ∨ ∃ old,
      machine.workers[workerIdx]? = some old ∧ worker = f old := by
  obtain ⟨i, hi⟩ := List.mem_iff_getElem?.mp hworker
  rw [getElem?_updateWorker] at hi
  split at hi
  next heq =>
      subst heq
      obtain ⟨old, hold, rfl⟩ := Option.map_eq_some_iff.mp hi
      exact .inr ⟨old, hold, rfl⟩
  next => exact .inl (List.mem_of_getElem? hi)

/-- Replacing a worker by one with no fewer rejections keeps the bounds on the
rounds. -/
theorem Budget.updateWorker (hbudget : Budget stepCount machine)
    {workerIdx : Nat} {f : WorkerState → WorkerState}
    (hrounds : ∀ worker, machine.workers[workerIdx]? = some worker →
      machine.concurrency = 1 →
      (machine.roundsStarted = 0 ∧ machine.roundsRejected = 0 ∧
        (f worker).stepsDrawn = 0) ∨
      machine.roundsRejected + 1 ≤
        machine.roundsStarted + (f worker).stepsRejected)
    (hworker : ∀ worker, machine.workers[workerIdx]? = some worker →
      WorkerBudget machine.concurrency (f worker)) :
    Budget stepCount (machine.updateWorker workerIdx f) := by
  constructor
  · exact hbudget.counted_le
  · exact hbudget.started_le
  · exact hbudget.many
  · exact hbudget.started_nonneg
  · intro hsingle worker hmem
    rcases mem_updateWorker hmem with hold | ⟨old, hold, rfl⟩
    · exact hbudget.single hsingle worker hold
    · exact hrounds old hold hsingle
  · intro worker hmem
    rcases mem_updateWorker hmem with hold | ⟨old, hold, rfl⟩
    · exact hbudget.workers worker hold
    · exact hworker old hold

theorem Budget.handed (hbudget : Budget stepCount machine) {workerIdx : Nat}
    {worker : WorkerState} (hworker : machine.workers[workerIdx]? = some worker)
    (hstarted : machine.roundsStarted ≠ 0) (hroom : machine.HasRoom worker)
    (flags : FeatureFlags) :
    Budget stepCount
      (machine.updateWorker workerIdx (handedRule ∘ withFlags flags)) := by
  apply hbudget.updateWorker
  · intro other hother hsingle
    rcases hbudget.single hsingle other (List.mem_of_getElem? hother) with
      ⟨hnone, -, -⟩ | hcounted
    · exact absurd hnone hstarted
    · exact .inr hcounted
  · intro other hother
    obtain rfl := Option.some.inj (hworker.symm.trans hother)
    have hold := hbudget.workers worker (List.mem_of_getElem? hworker)
    have hnonneg := hold.nonneg
    have hle := hold.rejected_le
    constructor
    · exact hnonneg
    · intro _
      simp only [Function.comp_apply, handedRule, withFlags]
      omega
    · simp only [Function.comp_apply, handedRule, withFlags]
      omega
    · intro hsingle
      have hlt := hroom.single hsingle
      simp only [Function.comp_apply, handedRule, withFlags]
      omega
    · intro hmany
      have hlt := hroom.attempts hmany
      simp only [Function.comp_apply, handedRule, withFlags]
      omega
    · intro hmany
      have hlt := hroom.completed hmany
      simp only [Function.comp_apply, handedRule, withFlags]
      omega

theorem Budget.rejectRule (hbudget : Budget stepCount machine)
    (hvalid : machine.Valid ruleGroups) {workerIdx : Nat}
    {worker : WorkerState} (hworker : machine.workers[workerIdx]? = some worker)
    (houtstanding : worker.ruleOutstanding = true) :
    Budget stepCount (machine.rejectRule workerIdx) := by
  have hold := hbudget.workers worker (List.mem_of_getElem? hworker)
  have hlt := hold.outstanding houtstanding
  have hnonneg := hold.nonneg
  have hrejected : WorkerBudget machine.concurrency (rejectedRule worker) := by
    constructor
    · simp only [rejectedRule]
      omega
    · intro h
      cases h
    · simp only [rejectedRule]
      omega
    · exact hold.single
    · exact hold.attempts
    · intro hmany
      have hcompleted := hold.completed hmany
      simp only [rejectedRule]
      omega
  rw [NativeStateMachine.rejectRule]
  by_cases hsingle : machine.concurrency = 1
  · have hlength := hvalid.concurrency_eq
    obtain ⟨only, honly⟩ := List.length_eq_one_iff.mp
      (by omega : machine.workers.length = 1)
    have hfirst : workerIdx = 0 ∧ only = worker := by
      rw [honly, List.getElem?_singleton] at hworker
      split at hworker
      next hzero => exact ⟨hzero, Option.some.inj hworker⟩
      next => cases hworker
    obtain ⟨rfl, rfl⟩ := hfirst
    have hworkers : (machine.updateWorker 0 rejectedRule).workers =
        [rejectedRule only] := by
      rw [NativeStateMachine.updateWorker, honly]
      rfl
    have hrounds := hbudget.single hsingle only (by simp [honly])
    have hcounted := hbudget.counted_le
    rw [if_pos (by exact hsingle)]
    constructor
    · simp only [NativeStateMachine.updateWorker]
      omega
    · exact hbudget.started_le
    · exact fun hmany => absurd hsingle hmany
    · exact hbudget.started_nonneg
    · intro _ other hother
      rw [hworkers, List.mem_singleton] at hother
      subst hother
      right
      simp only [rejectedRule, NativeStateMachine.updateWorker]
      omega
    · intro other hother
      rw [hworkers, List.mem_singleton] at hother
      subst hother
      exact hrejected
  · rw [if_neg (by exact hsingle)]
    apply hbudget.updateWorker
    · exact fun _ _ hone => absurd hone hsingle
    · intro other hother
      rw [← Option.some.inj (hworker.symm.trans hother)]
      exact hrejected

/-- Other flags do not matter for the bounds. -/
theorem Budget.withFlags (hbudget : Budget stepCount machine)
    (workerIdx : Nat) (flags : FeatureFlags) :
    Budget stepCount (machine.updateWorker workerIdx (withFlags flags)) := by
  apply hbudget.updateWorker
  · exact fun worker hworker hsingle =>
      hbudget.single hsingle worker (List.mem_of_getElem? hworker)
  · intro worker hworker
    have hold := hbudget.workers worker (List.mem_of_getElem? hworker)
    exact ⟨hold.nonneg, hold.outstanding, hold.rejected_le, hold.single,
      hold.attempts, hold.completed⟩

theorem Called.budget (hcalled : Called stepCount ruleGroups machine event after)
    (hstep : 1 ≤ stepCount) (hvalid : machine.Valid ruleGroups)
    (hbudget : Budget stepCount machine) : Budget stepCount after := by
  cases hcalled with
  | nextGroup hcalled =>
      cases hcalled with
      | started group id hallowed hgroup hid =>
          exact hbudget.startRound hvalid hstep hallowed group
      | stopped hallowed => exact hbudget
      | refused error hinternal => exact hbudget
  | nextRule hcalled =>
      cases hcalled with
      | handed workerIdx worker members rule flags hindex hworker hstarted
          hroom hmembers hfound hflags =>
          exact hbudget.handed hworker hstarted hroom flags
      | finished => exact hbudget
      | refused error hinternal => exact hbudget
      | abandoned workerIdx flags error hinternal hflags =>
          exact hbudget.withFlags workerIdx flags
  | ruleRejected hcalled =>
      cases hcalled with
      | rejected workerIdx worker hindex hworker houtstanding =>
          exact hbudget.rejectRule hvalid hworker houtstanding
      | refused message hnone => exact hbudget
  | shouldCheckInvariant hinternal => exact hbudget

theorem Reaches.budget (hstep : 1 ≤ stepCount)
    (hreaches : Reaches sampler stepCount ruleGroups machine events) :
    Budget stepCount machine := by
  induction hreaches with
  | new invariantAlwaysCheck minConcurrency maxConcurrency source machine hnew =>
      have hstarted := new_ok hnew
      have hrounds := hstarted.roundsStarted
      have hrejected := hstarted.roundsRejected
      constructor
      · omega
      · omega
      · exact fun _ => hrejected
      · omega
      · exact fun _ worker hworker =>
          .inl ⟨hrounds, hrejected, (hstarted.fresh worker hworker).stepsDrawn⟩
      · intro worker hworker
        have hfresh := hstarted.fresh worker hworker
        have hdrawn := hfresh.stepsDrawn
        have hrejected := hfresh.stepsRejected
        constructor
        · omega
        · intro houtstanding
          rw [hfresh.ruleOutstanding] at houtstanding
          cases houtstanding
        · omega
        · exact fun _ => by omega
        · exact fun _ => by omega
        · exact fun _ => by omega
  | call hreaches source call ih =>
      exact (perform_called hreaches.valid source call).budget hstep
        hreaches.valid ih

/-- Nothing is handed to a worker that does not exist. -/
theorem Tracks.handOuts_eq_zero (htracks : Tracks machine events)
    {workerIndex : Int} (hnone : ∀ i : Nat, workerIndex = i →
      machine.workers.length ≤ i) : handOuts workerIndex events = 0 := by
  rw [handOuts, List.countP_eq_zero]
  intro event hevent hhanded
  obtain ⟨i, hindex, hlt⟩ := htracks.present event
    ((List.takeWhile_sublist _).subset hevent) workerIndex hhanded
  exact absurd (hnone i hindex) (Nat.not_le.mpr hlt)

/-- With a single worker all rules are handed to it. -/
theorem Tracks.countP_isHandOut (htracks : Tracks machine events)
    (hsingle : machine.workers.length = 1) :
    (currentRound events).countP MachineEvent.isHandOut = handOuts 0 events := by
  rw [handOuts]
  apply List.countP_congr
  intro event hevent
  have hpresent := htracks.present event
    ((List.takeWhile_sublist _).subset hevent)
  constructor
  · intro hhanded
    cases event with
    | nextRule workerIndex result =>
        match result, hhanded with
        | .ok (some rule), _ =>
            obtain ⟨i, rfl, hlt⟩ := hpresent workerIndex (beq_self_eq_true _)
            have hzero : i = 0 := by omega
            subst hzero
            exact beq_self_eq_true _
    | nextGroup result => cases hhanded
    | ruleRejected workerIndex result => cases hhanded
    | shouldCheckInvariant invariantIndex result => cases hhanded
  · intro hhanded
    cases event with
    | nextRule workerIndex result =>
        match result, hhanded with
        | .ok (some rule), _ => rfl
    | nextGroup result => cases hhanded
    | ruleRejected workerIndex result => cases hhanded
    | shouldCheckInvariant invariantIndex result => cases hhanded

/-- Rounds that do not count toward the budget: with a single worker those
whose rule was rejected. -/
def rejectedRounds (machine : NativeStateMachine)
    (events : List MachineEvent) : Nat :=
  if machine.concurrency = 1 then rejectedRules events else 0

theorem Tracks.rejectedRounds (htracks : Tracks machine events) :
    machine.roundsRejected = rejectedRounds machine events := by
  rw [htracks.rejected, NativeStateMachine.rejectedRounds]
  split <;> rfl

/-- The decision to start the first round is forced. -/
theorem forcedContinue_of_not_started (hstep : 1 ≤ stepCount)
    (hstarted : machine.roundsStarted = 0)
    (hrejected : machine.roundsRejected = 0) :
    machine.forcedContinue stepCount = some true := by
  rw [forcedContinue, hstarted, hrejected]
  have hcap : ¬ ((0 : Int) - 0 ≥ stepCount ∨ (0 : Int) ≥
      if (0 : Int) - 0 = 0 then max (saturatingMul stepCount attemptMultiplier)
        minAttemptsWithoutSuccess
      else saturatingMul stepCount attemptMultiplier) := by
    rw [if_pos (by rfl), minAttemptsWithoutSuccess]
    omega
  exact (if_neg hcap).trans (if_pos rfl)

/-- A draw that the stream refuses, or whose sampler fails. -/
inductive DrawRefused (sampler : Sampler Rng) (op : DrawOp)
    (source : Source Rng) : MachineError → Prop
  | stream {request : DrawRequest Rng} {error : EngineError}
      {family : FamilyCore} {stream : NativeTestCase Rng}
      (hrequest : op.request sampler source.family = .ok request)
      (hrefused : performDraw request source.family source.stream =
        .ok (.error error, family, stream)) :
      DrawRefused sampler op source (.engine error)
  | sampler {request : DrawRequest Rng} {error : InternalError}
      (hrequest : op.request sampler source.family = .ok request)
      (hfailed : performDraw request source.family source.stream =
        .error error) :
      DrawRefused sampler op source (.sampler error)

/-- A draw that starting a round takes is refused: the decision to go on, or
after it the choice among several groups. -/
inductive RoundRefused (sampler : Sampler Rng) (forced : Option Bool)
    (machine : NativeStateMachine) (source : Source Rng) :
    MachineError → Prop
  | decision {error : MachineError}
      (hrefused : DrawRefused sampler (.weightedPrecise pContinue forced)
        source error) :
      RoundRefused sampler forced machine source error
  | group {error : MachineError} {drawn : Source Rng}
      (hseveral : machine.groups.length ≠ 1)
      (hdecided : drawWeightedPrecise sampler pContinue forced source =
        (.ok true, drawn))
      (hrefused : DrawRefused sampler
        (.integer 0 (machine.groups.length - 1)) drawn error) :
      RoundRefused sampler forced machine source error

theorem drawValue_refused {op : DrawOp} {source after : Source Rng}
    {error : MachineError}
    (hdraw : drawValue sampler op source = (.error error, after))
    (hinternal : error.isInternal = false) :
    DrawRefused sampler op source error := by
  rw [drawValue] at hdraw
  cases hrequest : op.request sampler source.family with
  | error reason =>
      rw [hrequest] at hdraw
      cases hdraw
      cases hinternal
  | ok request =>
      rw [hrequest] at hdraw
      dsimp only at hdraw
      rcases hperform : performDraw request source.family source.stream with
        reason | ⟨answer, family, stream⟩
      · rw [hperform] at hdraw
        cases hdraw
        exact .sampler hrequest hperform
      · rw [hperform] at hdraw
        cases answer with
        | ok value => cases hdraw
        | error reason =>
            cases hdraw
            exact .stream hrequest hperform

/-- Reading a value that was drawn does not fail. -/
theorem ofExcept_elim_error {Value : Type} {value : Option Value}
    {source after : Source Rng} {error : MachineError}
    (hread : (Attempt.ofExcept (value.elim (.error .outOfRange) .ok) :
      Attempt (Source Rng) MachineError Value) source = (.error error, after)) :
    error.isInternal = true := by
  cases value with
  | none =>
      cases hread
      rfl
  | some value => cases hread

theorem drawWeightedPrecise_refused {p : Binary64} {forced : Option Bool}
    {source after : Source Rng} {error : MachineError}
    (hdraw : drawWeightedPrecise sampler p forced source =
      (.error error, after))
    (hinternal : error.isInternal = false) :
    DrawRefused sampler (.weightedPrecise p forced) source error := by
  rcases Attempt.bind_error hdraw with hrefused | ⟨value, middle, -, hread⟩
  · exact drawValue_refused hrefused hinternal
  · rw [ofExcept_elim_error hread] at hinternal
    cases hinternal

theorem drawIndex_refused {n : Nat} {source after : Source Rng}
    {error : MachineError}
    (hdraw : drawIndex sampler n source = (.error error, after))
    (hinternal : error.isInternal = false) :
    DrawRefused sampler (.integer 0 (n - 1)) source error := by
  rcases Attempt.bind_error hdraw with hdraw | ⟨i, middle, -, hreturned⟩
  · rcases Attempt.bind_error hdraw with hrefused | ⟨value, middle, -, hread⟩
    · exact drawValue_refused hrefused hinternal
    · rw [ofExcept_elim_error hread] at hinternal
      cases hinternal
  · cases hreturned

/-- A join point only fails because a draw is refused. -/
theorem nextGroup_refused {source : Source Rng} {error : MachineError}
    {after : NativeStateMachine × Source Rng}
    (hcalled : nextGroup sampler stepCount (machine, source) =
      (.error error, after))
    (hinternal : error.isInternal = false) :
    RoundRefused sampler (machine.forcedContinue stepCount) machine source
      error := by
  rcases Attempt.bind_error hcalled with hread |
    ⟨state, middle, hread, hstarting⟩
  · cases hread
  cases hread
  rcases Attempt.bind_error hstarting with hdecision |
    ⟨more, ⟨machine', drawn⟩, hdecided, hrest⟩
  · rcases hdraw : drawWeightedPrecise sampler pContinue
      (machine.forcedContinue stepCount) source with ⟨result, drawn⟩
    rw [onSource, Attempt.zoom, hdraw] at hdecision
    cases hdecision
    exact .decision (drawWeightedPrecise_refused hdraw hinternal)
  · rcases hdraw : drawWeightedPrecise sampler pContinue
      (machine.forcedContinue stepCount) source with ⟨result, drawn'⟩
    rw [onSource, Attempt.zoom, hdraw] at hdecided
    cases hdecided
    cases more with
    | false => cases hrest
    | true =>
        rw [if_pos rfl] at hrest
        rcases Attempt.bind_error hrest with hgroup |
          ⟨group, middle, -, hentered⟩
        · rw [drawGroup] at hgroup
          split at hgroup
          case isTrue => cases hgroup
          case isFalse hseveral =>
            rcases hindex : drawIndex sampler machine.groups.length drawn with
              ⟨result, left⟩
            rw [onSource, Attempt.zoom, hindex] at hgroup
            cases hgroup
            exact .group hseveral hdraw (drawIndex_refused hindex hinternal)
        · -- the round has been started, and its group has a name
          rcases Attempt.bind_error hentered with hstarted |
            ⟨_, started, -, hnamed⟩
          · cases hstarted
          rcases Attempt.bind_error hnamed with hid |
            ⟨id, named, -, hreturned⟩
          · have helement : elementAt machine.groupIds group = .error error :=
              congrArg Prod.fst hid
            rw [elementAt] at helement
            split at helement
            · cases helement
            · cases helement
              cases hinternal
          · cases hreturned

/-- The first join point starts a round unless a draw that this takes is
refused, and all bounds on rounds and rules are kept. -/
theorem rounds_within_budget (hstep : 1 ≤ stepCount)
    (hreaches : Reaches sampler stepCount ruleGroups machine events) :
    (startedRounds events = 0 → ∀ source,
      (∃ id, (nextGroup sampler stepCount (machine, source)).1 =
        .ok (some id)) ∨
      ∃ error, (nextGroup sampler stepCount (machine, source)).1 =
        .error error ∧ RoundRefused sampler (some true) machine source error) ∧
      (startedRounds events - rejectedRounds machine events : Int) ≤
        stepCount ∧
      (startedRounds events : Int) ≤ max (10 * stepCount) 1000 ∧
      rejectedRounds machine events ≤ startedRounds events ∧
      (machine.concurrency = 1 →
        (currentRound events).countP MachineEvent.isHandOut ≤ 1) ∧
      (1 < machine.concurrency → ∀ workerIndex,
        handOuts workerIndex events ≤ 50 ∧
        handOuts workerIndex events - rejections workerIndex events ≤ 5) := by
  have hvalid := hreaches.valid
  have htracks := hreaches.tracks
  have hbudget := hreaches.budget hstep
  have hstarted := htracks.started
  have hrejected := htracks.rejectedRounds
  have hrejectedLe := hbudget.rejected_le hvalid
  refine ⟨?_, ?_, ?_, by omega, ?_, ?_⟩
  · intro hnone source
    have hforced := forcedContinue_of_not_started hstep
      (by omega : machine.roundsStarted = 0) (by omega)
    have hcalled : (nextGroup sampler stepCount).Meets (machine, source) _ :=
      nextGroup_cases hvalid
    rw [Attempt.Meets] at hcalled
    rcases hanswer : nextGroup sampler stepCount (machine, source) with
      ⟨result, after, drawn⟩
    rw [hanswer] at hcalled
    dsimp only at hcalled ⊢
    cases hcalled with
    | started group id hallowed hgroup hid => exact .inl ⟨id, rfl⟩
    | stopped hallowed => exact absurd hforced hallowed
    | refused error hinternal =>
        refine .inr ⟨error, rfl, ?_⟩
        rw [← hforced]
        exact nextGroup_refused hanswer hinternal
  · have hcounted := hbudget.counted_le
    omega
  · have hbound := hbudget.started_le
    omega
  · intro hsingle
    have hlength := hvalid.concurrency_eq
    have hone : machine.workers.length = 1 := by omega
    have hworker := List.getElem?_eq_getElem (by omega : 0 < machine.workers.length)
    have hdrawn := (htracks.workers 0 _ hworker).drawn
    have hbound := (hbudget.workers _ (List.mem_of_getElem? hworker)).single
      hsingle
    rw [htracks.countP_isHandOut hone]
    exact_mod_cast hdrawn ▸ hbound
  · intro hmany workerIndex
    by_cases hpresent : ∃ i : Nat, workerIndex = i ∧ i < machine.workers.length
    · obtain ⟨i, rfl, hlt⟩ := hpresent
      have hworker := List.getElem?_eq_getElem hlt
      have htracked := htracks.workers i _ hworker
      have hdrawn := htracked.drawn
      have hrejections := htracked.rejected
      have hbounds := hbudget.workers _ (List.mem_of_getElem? hworker)
      have hattempts := hbounds.attempts (by omega)
      have hcompleted := hbounds.completed (by omega)
      omega
    · have hzero := htracks.handOuts_eq_zero fun i hindex =>
        Nat.le_of_not_lt fun hlt => hpresent ⟨i, hindex, hlt⟩
      omega

end Budget

section Samples

/-- A test case that replays some values and draws the simplest ones beyond
them. -/
def replaying (values : List ChoiceValue) : Source Unit :=
  ⟨.new 100, ⟨.new [], ⟨values, none, some (), usizeMax, none⟩⟩⟩

/-- Two workers and two rules of one group, before the first round. -/
def twoWorkers : NativeStateMachine where
  groups := [[0, 1]]
  groupIds := [7]
  concurrency := 2
  currentGroup := 0
  roundsStarted := 0
  roundsRejected := 0
  invariantAlwaysCheck := []
  workers := List.replicate 2
    ⟨⟨.ofRatio 0 255, [none, none], [{0, 1}]⟩, 0, 0, false, false⟩

theorem reaches_twoWorkers : Reaches .simplest 50 [7, 7] twoWorkers [] :=
  .new [] 2 2 simplestSource twoWorkers (by rfl)

/-- A machine with its calls so far, after one call more. -/
def afterCall (run : NativeStateMachine × List MachineEvent)
    (values : List ChoiceValue) (call : MachineCall) :
    NativeStateMachine × List MachineEvent :=
  let answer := run.1.perform .simplest 50 (replaying values) call
  (answer.2, answer.1 :: run.2)

/-- Both workers are handed the second rule, and the first one rejects it. -/
def bothHanded : NativeStateMachine × List MachineEvent :=
  let pulled := [.boolean true, .integer 1, .boolean false]
  let started := afterCall (twoWorkers, []) [] .nextGroup
  let first := afterCall started pulled (.nextRule 0)
  let rejected := afterCall first [] (.ruleRejected 0)
  afterCall rejected pulled (.nextRule 1)

theorem reaches_bothHanded :
    Reaches .simplest 50 [7, 7] bothHanded.1 bothHanded.2 :=
  .call (.call (.call (.call reaches_twoWorkers _ _) _ _) _ _) _ _

theorem rounds_within_budget_sample :
    startedRounds bothHanded.2 = 1 ∧
      rejectedRounds bothHanded.1 bothHanded.2 ≤ 1 ∧
      1 < bothHanded.1.concurrency ∧
      rejections 0 bothHanded.2 = 1 ∧
      ∀ workerIndex ∈ [0, 1], handOuts workerIndex bothHanded.2 = 1 ∧
        handOuts workerIndex bothHanded.2 ≤ 50 ∧
        handOuts workerIndex bothHanded.2 -
          rejections workerIndex bothHanded.2 ≤ 5 := by
  obtain ⟨-, -, -, hrejected, -, hworkers⟩ :=
    rounds_within_budget (by decide) reaches_bothHanded
  have hstarted : startedRounds bothHanded.2 = 1 := by rfl
  have hmany : 1 < bothHanded.1.concurrency := by decide +kernel
  refine ⟨hstarted, hstarted ▸ hrejected, hmany, by rfl, ?_⟩
  intro workerIndex hindex
  refine ⟨?_, hworkers hmany workerIndex⟩
  rcases List.mem_pair.mp hindex with rfl | rfl
  · rfl
  · rfl

end Samples

end NativeStateMachine

end Hegel
