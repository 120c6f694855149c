/-
What one call on a machine can do.  Each call is taken apart once, into the
answers it can give with the machine it leaves behind; everything about runs
of calls is read off these cases.
-/
import Hegel.MachineSelection

namespace Hegel

namespace NativeStateMachine

section Groups

/-- The groups of the rules seen so far. -/
structure Registered (done : List Int)
    (registered : List Int × List (List Nat)) : Prop where
  length_eq : registered.1.length = registered.2.length
  nodup : registered.1.Nodup
  covers : ∀ id ∈ done, id ∈ registered.1
  nonempty : ∀ members ∈ registered.2, members ≠ []
  mem_iff : ∀ (g : Nat) id members, registered.1[g]? = some id →
    registered.2[g]? = some members →
      ∀ rule : Nat, rule ∈ members ↔ done[rule]? = some id

theorem getElem?_concat_eq_some {done : List Int} {id id' : Int} {rule : Nat} :
    (done ++ [id'])[rule]? = some id ↔
      done[rule]? = some id ∨ (rule = done.length ∧ id' = id) := by
  rw [List.getElem?_append]
  split
  next hlt =>
      constructor
      · exact .inl
      · rintro (hold | ⟨rfl, -⟩)
        · exact hold
        · exact absurd hlt (Nat.lt_irrefl _)
  next hge =>
      rw [List.getElem?_eq_none (Nat.le_of_not_lt hge), List.getElem?_singleton]
      constructor
      · intro hnew
        split at hnew
        next hzero => exact .inr ⟨by omega, Option.some.inj hnew⟩
        next => exact absurd hnew (by simp)
      · rintro (hold | ⟨rfl, rfl⟩)
        · exact absurd hold (by simp)
        · simp

theorem addRule_registered {done : List Int} {id : Int}
    {registered : List Int × List (List Nat)}
    (hregistered : Registered done registered) :
    Registered (done ++ [id]) (addRule registered (id, done.length)) := by
  rw [addRule]
  cases hfind : registered.1.findIdx? (· = id) with
  | some group =>
      obtain ⟨hlt, hid, -⟩ := List.findIdx?_eq_some_iff_getElem.mp hfind
      have hid : registered.1[group]? = some id := by
        rw [List.getElem?_eq_getElem hlt, of_decide_eq_true hid]
      constructor
      · rw [List.length_modify]
        exact hregistered.length_eq
      · exact hregistered.nodup
      · intro other hother
        rcases List.mem_append.mp hother with hold | hnew
        · exact hregistered.covers other hold
        · obtain rfl := List.mem_singleton.mp hnew
          exact List.mem_of_getElem? hid
      · intro members hmembers
        obtain ⟨g, hg⟩ := List.mem_iff_getElem?.mp hmembers
        by_cases heq : group = g
        · subst heq
          rw [List.getElem?_modify_eq] at hg
          obtain ⟨old, -, rfl⟩ := Option.map_eq_some_iff.mp hg
          exact List.append_ne_nil_of_right_ne_nil _ (List.cons_ne_nil _ _)
        · rw [List.getElem?_modify_ne _ _ heq] at hg
          exact hregistered.nonempty members (List.mem_of_getElem? hg)
      · intro g other members hother hg rule
        rw [getElem?_concat_eq_some]
        by_cases heq : group = g
        · subst heq
          obtain rfl := Option.some.inj (hid.symm.trans hother)
          rw [List.getElem?_modify_eq] at hg
          obtain ⟨old, hold, rfl⟩ := Option.map_eq_some_iff.mp hg
          rw [List.mem_append, List.mem_singleton,
            hregistered.mem_iff group id old hid hold]
          simp
        · rw [List.getElem?_modify_ne _ _ heq] at hg
          rw [hregistered.mem_iff g other members hother hg]
          constructor
          · exact .inl
          · rintro (hold | ⟨-, rfl⟩)
            · exact hold
            · exact absurd ((List.getElem?_inj hlt
                hregistered.nodup).mp (hid.trans hother.symm)) heq
  | none =>
      have hfresh : id ∉ registered.1 := by
        intro hmem
        have hnone := List.findIdx?_eq_none_iff.mp hfind id hmem
        simp at hnone
      constructor
      · rw [List.length_append, List.length_append, hregistered.length_eq]
        rfl
      · exact List.nodup_append.mpr ⟨hregistered.nodup,
          List.nodup_singleton id, fun a ha b hb => by
            rw [List.mem_singleton.mp hb]
            rintro rfl
            exact hfresh ha⟩
      · intro other hother
        rcases List.mem_append.mp hother with hold | hnew
        · exact List.mem_append_left _ (hregistered.covers other hold)
        · exact List.mem_append_right _ hnew
      · intro members hmembers
        rcases List.mem_append.mp hmembers with hold | hnew
        · exact hregistered.nonempty members hold
        · rw [List.mem_singleton.mp hnew]
          exact List.cons_ne_nil _ _
      · intro g other members hother hg rule
        rw [getElem?_concat_eq_some]
        rcases getElem?_concat_eq_some.mp hother with hother | ⟨rfl, rfl⟩
        · have hlt := (List.getElem?_eq_some_iff.mp hother).1
          rw [hregistered.length_eq] at hlt
          rw [List.getElem?_append_left hlt] at hg
          rw [hregistered.mem_iff g other members hother hg]
          constructor
          · exact .inl
          · rintro (hold | ⟨-, rfl⟩)
            · exact hold
            · exact absurd (List.mem_of_getElem? hother) hfresh
        · rw [hregistered.length_eq, List.getElem?_concat_length] at hg
          rw [← Option.some.inj hg, List.mem_singleton]
          constructor
          · exact fun hrule => .inr ⟨hrule, rfl⟩
          · rintro (hold | ⟨hrule, -⟩)
            · exact absurd
                (hregistered.covers _ (List.mem_of_getElem? hold)) hfresh
            · exact hrule

theorem registerGroups_registered (ruleGroups : List Int) :
    Registered ruleGroups (registerGroups ruleGroups) := by
  induction ruleGroups using List.reverseRecOn with
  | nil =>
      constructor
      · rfl
      · exact List.nodup_nil
      · exact fun id hid => absurd hid List.not_mem_nil
      · exact fun members hmembers => absurd hmembers List.not_mem_nil
      · exact fun g id members hid => by cases hid
  | append_singleton done id ih =>
      have hfold : registerGroups (done ++ [id]) =
          addRule (registerGroups done) (id, done.length) := by
        rw [registerGroups, List.zipIdx_append, List.foldl_append]
        simp [registerGroups]
      rw [hfold]
      exact addRule_registered ih

/-- Every rule is in exactly one group, and no group is empty. -/
theorem Registered.grouped {done : List Int}
    {registered : List Int × List (List Nat)}
    (hregistered : Registered done registered) :
    Grouped registered.2 done.length := by
  have hid : ∀ (g : Nat) members, registered.2[g]? = some members →
      ∃ id, registered.1[g]? = some id := by
    intro g members hgroup
    have hlt := (List.getElem?_eq_some_iff.mp hgroup).1
    rw [← hregistered.length_eq] at hlt
    exact ⟨_, List.getElem?_eq_getElem hlt⟩
  constructor
  · exact hregistered.nonempty
  · intro g members hgroup rule hrule
    obtain ⟨id, hid⟩ := hid g members hgroup
    have hplace := (hregistered.mem_iff g id members hid hgroup rule).mp hrule
    exact (List.getElem?_eq_some_iff.mp hplace).1
  · intro g g' members members' hgroup hgroup' rule hrule hrule'
    obtain ⟨id, hid₁⟩ := hid g members hgroup
    obtain ⟨id', hid₂⟩ := hid g' members' hgroup'
    have hplace := (hregistered.mem_iff g id members hid₁ hgroup rule).mp hrule
    have hplace' :=
      (hregistered.mem_iff g' id' members' hid₂ hgroup' rule).mp hrule'
    rw [hplace] at hplace'
    obtain rfl := Option.some.inj hplace'
    exact (List.getElem?_inj (List.getElem?_eq_some_iff.mp hid₁).1
      hregistered.nodup).mp (hid₁.trans hid₂.symm)

end Groups

/-- A machine in working order: its groups are those of the given rules, and
the flags of its workers are valid for them. -/
structure Valid (ruleGroups : List Int) (machine : NativeStateMachine) :
    Prop where
  registered : Registered ruleGroups (machine.groupIds, machine.groups)
  currentGroup_lt : machine.currentGroup < machine.groups.length
  concurrency_eq : machine.concurrency = machine.workers.length
  flags : ∀ worker ∈ machine.workers,
    worker.flags.Valid machine.groups ruleGroups.length

/-- A worker with other flags. -/
def withFlags (flags : FeatureFlags) (worker : WorkerState) : WorkerState :=
  { worker with flags := flags }

theorem updateWorker_updateWorker (machine : NativeStateMachine)
    (workerIdx : Nat) (f g : WorkerState → WorkerState) :
    (machine.updateWorker workerIdx f).updateWorker workerIdx g =
      machine.updateWorker workerIdx (g ∘ f) := by
  simp only [updateWorker, List.modify_modify_eq]

/-- The bounds of a worker's round leave room for another rule. -/
structure HasRoom (machine : NativeStateMachine) (worker : WorkerState) :
    Prop where
  single : machine.concurrency = 1 → worker.stepsDrawn < 1
  attempts : machine.concurrency ≠ 1 → worker.stepsDrawn < 50
  completed : machine.concurrency ≠ 1 →
    worker.stepsDrawn - worker.stepsRejected < 5

/-- The answers of `nextGroup`. -/
inductive GroupCalled (stepCount : Int) (machine : NativeStateMachine) :
    Except MachineError (Option Int) → NativeStateMachine → Prop where
  | started (group : Nat) (id : Int)
      (hallowed : machine.forcedContinue stepCount ≠ some false)
      (hgroup : group < machine.groups.length)
      (hid : machine.groupIds[group]? = some id) :
      GroupCalled stepCount machine (.ok (some id)) (machine.startRound group)
  | stopped (hallowed : machine.forcedContinue stepCount ≠ some true) :
      GroupCalled stepCount machine (.ok none) machine
  | refused (error : MachineError) (hinternal : error.isInternal = false) :
      GroupCalled stepCount machine (.error error) machine

/-- The answers of `nextRule`. -/
inductive RuleCalled (ruleGroups : List Int) (machine : NativeStateMachine)
    (workerIndex : Int) :
    Except MachineError (Option Int) → NativeStateMachine → Prop where
  | handed (workerIdx : Nat) (worker : WorkerState) (members : List Nat)
      (rule : Nat) (flags : FeatureFlags) (hindex : workerIndex = workerIdx)
      (hworker : machine.workers[workerIdx]? = some worker)
      (hstarted : machine.roundsStarted ≠ 0) (hroom : machine.HasRoom worker)
      (hmembers : machine.groups[machine.currentGroup]? = some members)
      (hfound : Found members flags rule)
      (hflags : flags.Valid machine.groups ruleGroups.length) :
      RuleCalled ruleGroups machine workerIndex (.ok (some rule))
        (machine.updateWorker workerIdx (handedRule ∘ withFlags flags))
  | finished : RuleCalled ruleGroups machine workerIndex (.ok none) machine
  | refused (error : MachineError) (hinternal : error.isInternal = false) :
      RuleCalled ruleGroups machine workerIndex (.error error) machine
  | abandoned (workerIdx : Nat) (flags : FeatureFlags) (error : MachineError)
      (hinternal : error.isInternal = false)
      (hflags : flags.Valid machine.groups ruleGroups.length) :
      RuleCalled ruleGroups machine workerIndex (.error error)
        (machine.updateWorker workerIdx (withFlags flags))

/-- The answers of `ruleRejected`. -/
inductive RejectCalled (machine : NativeStateMachine) (workerIndex : Int) :
    Except MachineError Unit → NativeStateMachine → Prop where
  | rejected (workerIdx : Nat) (worker : WorkerState)
      (hindex : workerIndex = workerIdx)
      (hworker : machine.workers[workerIdx]? = some worker)
      (houtstanding : worker.ruleOutstanding = true) :
      RejectCalled machine workerIndex (.ok ()) (machine.rejectRule workerIdx)
  | refused (message : String)
      (hnone : ∀ (workerIdx : Nat) worker, workerIndex = workerIdx →
        machine.workers[workerIdx]? = some worker →
          worker.ruleOutstanding = false) :
      RejectCalled machine workerIndex (.error (.invalidArgument message))
        machine

section Calls

variable {Rng : Type} {sampler : Sampler Rng} {stepCount : Int}
  {ruleGroups : List Int} {machine : NativeStateMachine} {source : Source Rng}

/-- A draw leaves the machine alone. -/
theorem draw_bind {Own Value Value' : Type} {own : Own}
    {attempt : Attempt (Source Rng) MachineError Value} {good : Value → Prop}
    {next : Value → Attempt (Own × Source Rng) MachineError Value'}
    {post : Except MachineError Value' → Own × Source Rng → Prop}
    (hattempt : attempt.Meets source (Yields (fun _ => True)
      fun value _ => good value))
    (hok : ∀ value source, good value → (next value).Meets (own, source) post)
    (herror : ∀ error source, error.isInternal = false →
      post (.error error) (own, source)) :
    Attempt.Meets (onSource attempt >>= next) (own, source) post := by
  apply Attempt.meets_bind
  apply (onSource_yields hattempt).mono
  rintro result ⟨own', source'⟩ hresult
  cases result with
  | ok value =>
      obtain ⟨rfl, hgood⟩ := hresult
      exact hok value source' hgood
  | error error =>
      obtain ⟨rfl, hinternal⟩ := hresult
      exact herror error source' hinternal

theorem drawGroup_yields (hvalid : machine.Valid ruleGroups) :
    (drawGroup sampler machine).Meets (machine, source)
      (Yields (fun state => state.1 = machine) fun group _ =>
        group < machine.groups.length) := by
  have hgroups : 0 < machine.groups.length :=
    Nat.lt_of_le_of_lt (Nat.zero_le _) hvalid.currentGroup_lt
  rw [drawGroup]
  split
  · exact ⟨rfl, hgroups⟩
  · exact onSource_yields (drawIndex_yields hgroups)

theorem nextGroup_cases (hvalid : machine.Valid ruleGroups) :
    (nextGroup sampler stepCount).Meets (machine, source)
      fun result state => GroupCalled stepCount machine result state.1 := by
  rw [nextGroup]
  apply Attempt.meets_bind
  apply Attempt.meets_read
  apply draw_bind (drawWeightedPrecise_yields _ _)
  · intro more source hmore
    have hforced : ∀ f, machine.forcedContinue stepCount = some f →
        more = f := by
      intro f hf
      exact hmore f (by rw [hf]; rfl)
    cases more with
    | false => exact .stopped fun htrue => absurd (hforced true htrue) (by simp)
    | true =>
        rw [if_pos rfl]
        apply Attempt.meets_bind
        apply (drawGroup_yields hvalid).mono
        rintro result ⟨machine', source'⟩ hresult
        cases result with
        | error error =>
            obtain ⟨rfl, hinternal⟩ := hresult
            exact .refused error hinternal
        | ok group =>
            obtain ⟨rfl, hgroup⟩ := hresult
            have hid : group < machine'.groupIds.length :=
              hvalid.registered.length_eq.symm ▸ hgroup
            have hid := List.getElem?_eq_getElem hid
            apply Attempt.meets_bind
            apply Attempt.meets_modify
            apply Attempt.meets_bind
            apply Attempt.meets_ofExcept
            rw [elementAt, hid]
            exact .started group _ (fun hfalse => absurd (hforced false hfalse) (by simp))
              hgroup hid
  · intro error source hinternal
    exact .refused error hinternal

/-- Handing out a rule selects among the members of the current group. -/
theorem handOut_cases (hvalid : machine.Valid ruleGroups) {workerIndex : Int}
    {workerIdx : Nat} {worker : WorkerState} (hindex : workerIndex = workerIdx)
    (hworker : machine.workers[workerIdx]? = some worker)
    (hstarted : machine.roundsStarted ≠ 0) (hroom : machine.HasRoom worker) :
    (handOut sampler machine workerIdx worker).Meets (machine, source)
      fun result state =>
        RuleCalled ruleGroups machine workerIndex result state.1 := by
  have hmembers := List.getElem?_eq_getElem hvalid.currentGroup_lt
  have hflags := hvalid.flags worker (List.mem_of_getElem? hworker)
  have hselect : (selectRule sampler _ machine.currentGroup).Meets
      (worker.flags, source) _ :=
    selectRule_yields hvalid.registered.grouped hmembers hflags
  rw [handOut]
  apply Attempt.meets_bind
  apply Attempt.meets_ofExcept
  rw [elementAt, hmembers]
  apply Attempt.meets_bind
  apply Attempt.meets_zoom
  apply hselect.mono
  rintro result ⟨flags, source'⟩ hresult
  cases result with
  | error error =>
      exact .abandoned workerIdx flags error hresult.2 hresult.1.valid
  | ok rule =>
      apply Attempt.meets_bind
      apply Attempt.meets_modify
      change RuleCalled ruleGroups machine workerIndex (.ok (some (rule : Int)))
        ((machine.updateWorker workerIdx (withFlags flags)).updateWorker
          workerIdx handedRule)
      rw [updateWorker_updateWorker]
      exact .handed workerIdx worker _ rule flags hindex hworker hstarted hroom
        hmembers hresult.2 hresult.1.valid

theorem checkedWorker_cases (machine : NativeStateMachine) (workerIndex : Int) :
    (∃ (workerIdx : Nat) (worker : WorkerState), workerIndex = workerIdx ∧
      machine.workers[workerIdx]? = some worker ∧
      machine.checkedWorker workerIndex = .ok workerIdx) ∨
    ∃ message, machine.checkedWorker workerIndex =
      .error (.invalidArgument message) := by
  rw [checkedWorker]
  by_cases hrange : 0 ≤ workerIndex ∧
      workerIndex.toNat < machine.workers.length
  · refine .inl ⟨workerIndex.toNat, _, (Int.toNat_of_nonneg hrange.1).symm,
      List.getElem?_eq_getElem hrange.2, if_pos hrange⟩
  · exact .inr ⟨_, if_neg hrange⟩

theorem nextRule_cases (hvalid : machine.Valid ruleGroups) (workerIndex : Int) :
    (nextRule sampler workerIndex).Meets (machine, source)
      fun result state =>
        RuleCalled ruleGroups machine workerIndex result state.1 := by
  rw [nextRule]
  apply Attempt.meets_bind
  apply Attempt.meets_read
  apply Attempt.meets_bind
  apply Attempt.meets_ofExcept
  rcases checkedWorker_cases machine workerIndex with
    ⟨workerIdx, worker, hindex, hworker, hchecked⟩ | ⟨message, hchecked⟩
  · rw [hchecked]
    dsimp only
    split
    next hnone => exact .refused _ rfl
    next hstarted =>
        apply Attempt.meets_bind
        apply Attempt.meets_ofExcept
        rw [elementAt, hworker]
        dsimp only
        split
        next hsingle =>
            split
            next hdrawn => exact .finished
            next hdrawn =>
                exact handOut_cases hvalid hindex hworker hstarted
                  ⟨fun _ => Int.not_le.mp hdrawn,
                    fun hmany => absurd hsingle hmany,
                    fun hmany => absurd hsingle hmany⟩
        next hmany =>
            apply draw_bind (drawWeighted_yields _ _)
            · intro more source hmore
              cases more with
              | false => exact .finished
              | true =>
                  have hroom : ¬ (worker.stepsDrawn ≥ 50 ∨
                      worker.stepsDrawn - worker.stepsRejected ≥ 5) := by
                    intro hexhausted
                    have hzero : workerPContinue worker = .zero :=
                      if_pos hexhausted
                    rw [hzero] at hmore
                    exact absurd (hmore false (by decide)) (by simp)
                  rw [if_pos rfl]
                  exact handOut_cases hvalid hindex hworker hstarted
                    ⟨fun hsingle => absurd hsingle hmany,
                      fun _ => by omega, fun _ => by omega⟩
            · intro error source hinternal
              exact .refused error hinternal
  · rw [hchecked]
    exact .refused _ rfl

theorem ruleRejected_cases (machine : NativeStateMachine)
    (workerIndex : Int) :
    RejectCalled machine workerIndex (machine.ruleRejected workerIndex).1
      (machine.ruleRejected workerIndex).2 := by
  rw [ruleRejected]
  rcases checkedWorker_cases machine workerIndex with
    ⟨workerIdx, worker, hindex, hworker, hchecked⟩ | ⟨message, hchecked⟩
  · rw [hchecked]
    dsimp only
    rw [elementAt, hworker]
    dsimp only
    split
    next houtstanding =>
        exact .rejected workerIdx worker hindex hworker houtstanding
    next hnone =>
        refine .refused _ ?_
        intro workerIdx' worker' hindex' hworker'
        obtain rfl := Int.ofNat_inj.mp (hindex.symm.trans hindex')
        obtain rfl := Option.some.inj (hworker.symm.trans hworker')
        exact Bool.eq_false_iff.mpr hnone
  · rw [hchecked]
    refine .refused message ?_
    intro workerIdx worker hindex hworker
    have hlt := (List.getElem?_eq_some_iff.mp hworker).1
    rw [checkedWorker, if_pos ⟨by omega, by omega⟩] at hchecked
    exact absurd hchecked (by simp)

theorem shouldCheckInvariant_cases (invariantIndex : Int) :
    (shouldCheckInvariant sampler stepCount invariantIndex).Meets
      (machine, source) (Yields (fun state => state.1 = machine)
        fun _ _ => True) := by
  rw [shouldCheckInvariant]
  apply Attempt.meets_bind
  apply Attempt.meets_read
  dsimp only
  split
  next => exact ⟨rfl, rfl⟩
  next => exact ⟨rfl, trivial⟩
  next =>
      apply (onSource_yields (drawWeightedPrecise_yields _ _)).mono
      intro result after hresult
      exact hresult.mono (fun _ hkept => hkept) fun _ _ _ _ => trivial

end Calls

section Construction

variable {Rng : Type} {sampler : Sampler Rng} {source : Source Rng}

/-- Flags nothing has been asked of. -/
theorem valid_newFlags {groups : List (List Nat)} {numRules : Nat}
    (hgrouped : Grouped groups numRules) (pDisabled : Binary64) :
    FeatureFlags.Valid groups numRules
      ⟨pDisabled, List.replicate numRules none, groups.map List.toFinset⟩ := by
  constructor
  · exact List.length_replicate
  · exact List.length_map _
  · intro g members candidates hgroup hcandidates
    rw [List.getElem?_map, hgroup] at hcandidates
    obtain rfl := Option.some.inj hcandidates
    refine .undecided ?_ ?_ ?_
    · have hne := hgrouped.nonempty members (List.mem_of_getElem? hgroup)
      obtain ⟨rule, hrule⟩ := List.exists_mem_of_ne_nil members hne
      exact ⟨rule, List.mem_toFinset.mpr hrule⟩
    · exact fun rule hrule => List.mem_toFinset.mp hrule
    · intro rule hrule
      rw [if_pos (List.mem_toFinset.mpr hrule), List.getElem?_replicate,
        if_pos (hgrouped.lt g members hgroup rule hrule)]

/-- Workers before the first round. -/
structure Fresh (groups : List (List Nat)) (numRules : Nat)
    (worker : WorkerState) : Prop where
  flags : worker.flags.Valid groups numRules
  stepsDrawn : worker.stepsDrawn = 0
  stepsRejected : worker.stepsRejected = 0
  ruleOutstanding : worker.ruleOutstanding = false

theorem newWorkers_yields {groups : List (List Nat)} {numRules : Nat}
    (hgrouped : Grouped groups numRules) (count : Nat) :
    (newWorkers sampler groups numRules count).Meets source
      (Yields (fun _ => True) fun workers _ => workers.length = count ∧
        ∀ worker ∈ workers, Fresh groups numRules worker) := by
  induction count generalizing source with
  | zero => exact ⟨trivial, rfl, fun worker h => absurd h List.not_mem_nil⟩
  | succ count ih =>
      have hflags : (FeatureFlags.new sampler groups numRules).Meets source
          (Yields (fun _ => True) fun flags _ =>
            flags.Valid groups numRules) := by
        rw [FeatureFlags.new]
        apply meets_bind_yields (drawInt_yields (by decide))
        intro raw after _ _
        exact ⟨trivial, valid_newFlags hgrouped _⟩
      rw [newWorkers]
      apply meets_bind_yields hflags
      intro flags after _ hvalid
      apply meets_bind_yields ih
      rintro rest final - ⟨hlength, hfresh⟩
      refine ⟨trivial, by rw [List.length_cons, hlength], ?_⟩
      intro worker hworker
      rcases List.mem_cons.mp hworker with rfl | hrest
      · exact ⟨hvalid, rfl, rfl, rfl⟩
      · exact hfresh worker hrest

theorem spanned_yields {Value : Type} {label : Nat}
    {attempt : Attempt (Source Rng) MachineError Value} {good : Value → Prop}
    (hattempt : ∀ source, attempt.Meets source (Yields (fun _ => True)
      fun value _ => good value)) :
    (spanned label attempt).Meets source (Yields (fun _ => True)
      fun value _ => good value) := by
  have hresult := hattempt (openSpan label source).2
  rw [Attempt.Meets] at hresult ⊢
  simp only [spanned]
  rcases hanswer : attempt (openSpan label source).2 with ⟨result, after⟩
  rw [hanswer] at hresult
  cases result with
  | ok value => exact hresult
  | error error => exact hresult

theorem drawConcurrency_yields {minValue maxValue : Int}
    (h : minValue ≤ maxValue) :
    (drawConcurrency sampler minValue maxValue).Meets source
      (Yields (fun _ => True) fun v _ => minValue ≤ v ∧ v ≤ maxValue) := by
  rw [drawConcurrency]
  split
  next heq => exact ⟨trivial, h, le_rfl⟩
  next hne =>
      apply spanned_yields
      intro source
      apply meets_bind_yields (drawWeighted_yields _ _)
      intro largest after _ _
      cases largest with
      | true => exact ⟨trivial, h, le_rfl⟩
      | false => exact drawInt_yields h

/-- A new machine is in working order and has not done anything. -/
structure Started (ruleGroups : List Int) (machine : NativeStateMachine) :
    Prop where
  valid : machine.Valid ruleGroups
  roundsStarted : machine.roundsStarted = 0
  roundsRejected : machine.roundsRejected = 0
  fresh : ∀ worker ∈ machine.workers,
    Fresh machine.groups ruleGroups.length worker

theorem new_yields {ruleGroups : List Int} (invariantAlwaysCheck : List Bool)
    {minConcurrency maxConcurrency : Int} (hrules : ruleGroups ≠ [])
    (hmin : 1 ≤ minConcurrency) (hmax : minConcurrency ≤ maxConcurrency) :
    (new sampler ruleGroups invariantAlwaysCheck minConcurrency
        maxConcurrency).Meets source
      (Yields (fun _ => True) fun machine _ => Started ruleGroups machine) := by
  have hregistered := registerGroups_registered ruleGroups
  have hgroups : 0 < (registerGroups ruleGroups).2.length := by
    obtain ⟨id, hid⟩ := List.exists_mem_of_ne_nil ruleGroups hrules
    rw [← hregistered.length_eq]
    exact List.length_pos_of_mem (hregistered.covers id hid)
  rw [new, if_neg (by simp [hrules]), if_neg (not_not_intro ⟨hmin, hmax⟩)]
  apply meets_bind_yields (drawConcurrency_yields hmax)
  rintro concurrency after - ⟨hlow, -⟩
  apply meets_bind_yields (newWorkers_yields hregistered.grouped concurrency.toNat)
  rintro workers final - ⟨hlength, hfresh⟩
  refine ⟨trivial, ⟨hregistered, hgroups, ?_, ?_⟩, rfl, rfl, hfresh⟩
  · exact (by omega : concurrency = workers.length)
  · exact fun worker hworker => (hfresh worker hworker).flags

/-- Without rules or with bad bounds no machine is made. -/
theorem new_ok {ruleGroups : List Int} {invariantAlwaysCheck : List Bool}
    {minConcurrency maxConcurrency : Int} {machine : NativeStateMachine}
    (hnew : (new sampler ruleGroups invariantAlwaysCheck minConcurrency
      maxConcurrency source).1 = .ok machine) :
    Started ruleGroups machine := by
  by_cases hrules : ruleGroups = []
  · rw [new, if_pos (by simp [hrules])] at hnew
    cases hnew
  · by_cases hbounds : minConcurrency ≥ 1 ∧ minConcurrency ≤ maxConcurrency
    · have hyields : (new sampler ruleGroups invariantAlwaysCheck
          minConcurrency maxConcurrency).Meets source _ :=
        new_yields invariantAlwaysCheck hrules hbounds.1 hbounds.2
      rw [Attempt.Meets, hnew] at hyields
      exact hyields.2
    · rw [new, if_neg (by simp [hrules]), if_pos hbounds] at hnew
      cases hnew

end Construction

end NativeStateMachine

end Hegel
