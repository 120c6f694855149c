/-
Pools of variables.  A pool keeps the identifiers in the order they were added
and marks the consumed ones, which leave it only once nothing active follows
them.  Seen through its active identifiers it is an ordered set, from which a
consumed identifier never comes back.
-/
import Hegel.DataSource
import Hegel.Identifiers
import Hegel.MachineSelection

namespace Hegel

/-- A pool of variable identifiers. -/
structure NativeVariables where
  variableIds : List Int
  removed : Finset Int

namespace NativeVariables

def new : NativeVariables :=
  ⟨[], ∅⟩

def add (pool : NativeVariables) (id : Int) : NativeVariables :=
  { pool with variableIds := pool.variableIds ++ [id] }

/-- The identifiers that were not consumed, in the order of their addition. -/
def active (pool : NativeVariables) : List Int :=
  pool.variableIds.filter (· ∉ pool.removed)

/-- Pop consumed identifiers, which come with the last one first. -/
def trim (removed : Finset Int) : List Int → NativeVariables
  | [] => ⟨[], removed⟩
  | last :: earlier =>
      if last ∈ removed then trim (removed.erase last) earlier
      else ⟨(last :: earlier).reverse, removed⟩

def consume (pool : NativeVariables) (variableId : Int) : NativeVariables :=
  trim (insert variableId pool.removed) pool.variableIds.reverse

end NativeVariables

def labelFreshId : Nat := 32

def labelSetChoice : Nat := 33

section Calls

variable {Rng : Type} (sampler : Sampler Rng)

def drawId (op : DrawOp) : Attempt (Source Rng) MachineError Int := do
  let value ← drawValue sampler op
  Attempt.ofExcept (value.asInteger.elim (.error .outOfRange) .ok)

/-- An identifier that no stream of the family has drawn before. -/
def freshId : Attempt (Source Rng) MachineError Int :=
  spanned labelFreshId (drawId sampler .freshId)

def chooseFrom (members : List Int) : Attempt (Source Rng) MachineError Int :=
  spanned labelSetChoice (drawId sampler (.fromSet members))

namespace NativeDataSource

def poolAdd :
    Attempt (NativeVariables × NativeDataSource Rng) DataSourceError Int :=
  withNtc do
    let variableId ← drawing (freshId sampler)
    Attempt.modify fun (pool, source) => (pool.add variableId, source)
    return variableId

def poolGenerate (consume : Bool) :
    Attempt (NativeVariables × NativeDataSource Rng) DataSourceError Int :=
  withNtc do
    let (pool, _) ← Attempt.read
    if pool.active.isEmpty then Attempt.refuse .assumeViolation
    else
      let variableId ← drawing (chooseFrom sampler pool.active)
      if consume then
        Attempt.modify fun (pool, source) => (pool.consume variableId, source)
      return variableId

end NativeDataSource

end Calls

section Trimming

namespace NativeVariables

theorem active_eq_of_reversed (pool : NativeVariables) :
    pool.active = (pool.variableIds.reverse.filter (· ∉ pool.removed)).reverse := by
  rw [← List.filter_reverse, List.reverse_reverse, active]

/-- Popped identifiers were not active. -/
theorem trim_active (removed : Finset Int) (reversed : List Int)
    (hnodup : reversed.Nodup) :
    (trim removed reversed).active =
      (reversed.filter (· ∉ removed)).reverse := by
  induction reversed generalizing removed with
  | nil => rfl
  | cons last earlier ih =>
      obtain ⟨hlast, hearlier⟩ := List.nodup_cons.mp hnodup
      by_cases hremoved : last ∈ removed
      · have hsame : earlier.filter (· ∉ removed.erase last) =
            earlier.filter (· ∉ removed) := by
          apply List.filter_congr
          intro id hid
          have hne : id ≠ last := fun heq => hlast (heq ▸ hid)
          simp [hne]
        rw [trim, if_pos hremoved, ih _ hearlier, hsame,
          List.filter_cons_of_neg (by simpa using hremoved)]
      · rw [trim, if_neg hremoved, active_eq_of_reversed, List.reverse_reverse]

theorem trim_variableIds_sublist (removed : Finset Int) (reversed : List Int) :
    (trim removed reversed).variableIds.Sublist reversed.reverse := by
  induction reversed generalizing removed with
  | nil => exact List.Sublist.refl _
  | cons last earlier ih =>
      by_cases hremoved : last ∈ removed
      · rw [trim, if_pos hremoved, List.reverse_cons]
        exact (ih _).trans (List.sublist_append_left _ _)
      · rw [trim, if_neg hremoved]

theorem trim_removed_subset (removed : Finset Int) (reversed : List Int) :
    (trim removed reversed).removed ⊆ removed := by
  induction reversed generalizing removed with
  | nil => exact Finset.Subset.refl _
  | cons last earlier ih =>
      by_cases hremoved : last ∈ removed
      · rw [trim, if_pos hremoved]
        exact (ih _).trans (Finset.erase_subset _ _)
      · rw [trim, if_neg hremoved]

end NativeVariables

end Trimming

section Refinement

/-- A pool stands for the identifiers that were added to it, less those that
were consumed. -/
structure NativeVariables.Represents (pool : NativeVariables)
    (added consumed : List Int) : Prop where
  active : pool.active = added.filter (· ∉ consumed)
  nodup : pool.variableIds.Nodup
  known : ∀ id ∈ pool.variableIds, id ∈ added
  removed : ∀ id ∈ pool.removed, id ∈ added
  consumed : ∀ id ∈ consumed, id ∈ added

namespace NativeVariables

variable {pool : NativeVariables} {added consumed : List Int}

theorem new_represents : new.Represents [] [] where
  active := rfl
  nodup := List.nodup_nil
  known := nofun
  removed := nofun
  consumed := nofun

/-- An identifier that is new to the pool becomes its last one. -/
theorem Represents.add (hrep : pool.Represents added consumed) {id : Int}
    (hfresh : id ∉ added) :
    (pool.add id).Represents (added ++ [id]) consumed where
  active := by
    have hremoved : id ∉ pool.removed := fun h => hfresh (hrep.removed id h)
    have hconsumed : id ∉ consumed := fun h => hfresh (hrep.consumed id h)
    have hactive := hrep.active
    rw [NativeVariables.active] at hactive
    rw [NativeVariables.active, NativeVariables.add, List.filter_append,
      List.filter_append, hactive]
    simp [hremoved, hconsumed]
  nodup := by
    refine List.nodup_append.mpr ⟨hrep.nodup, List.nodup_singleton id, ?_⟩
    intro other hother same hsame heq
    rw [List.mem_singleton.mp hsame] at heq
    exact hfresh (heq ▸ hrep.known other hother)
  known := by
    intro other hother
    rcases List.mem_append.mp hother with hother | hother
    · exact List.mem_append_left _ (hrep.known other hother)
    · exact List.mem_append_right _ hother
  removed other hother := List.mem_append_left _ (hrep.removed other hother)
  consumed other hother := List.mem_append_left _ (hrep.consumed other hother)

/-- A consumed identifier leaves the pool, wherever in it it was. -/
theorem Represents.consume (hrep : pool.Represents added consumed) {id : Int}
    (hactive : id ∈ pool.active) :
    (pool.consume id).Represents added (consumed ++ [id]) where
  active := by
    have hleft : ∀ other, decide (other ∉ insert id pool.removed) =
        (decide (other ≠ id) && decide (other ∉ pool.removed)) := by
      intro other
      simp
    have hright : ∀ other, decide (other ∉ consumed ++ [id]) =
        (decide (other ≠ id) && decide (other ∉ consumed)) := by
      intro other
      simp [and_comm]
    have hsame := hrep.active
    rw [NativeVariables.active] at hsame
    rw [NativeVariables.consume,
      trim_active _ _ (List.nodup_reverse.mpr hrep.nodup), List.filter_reverse,
      List.reverse_reverse, List.filter_congr (fun other _ => hleft other),
      List.filter_congr (l := added) (fun other _ => hright other),
      ← List.filter_filter, ← List.filter_filter, hsame]
  nodup := by
    have hsub := trim_variableIds_sublist (insert id pool.removed)
      pool.variableIds.reverse
    rw [List.reverse_reverse] at hsub
    exact hrep.nodup.sublist hsub
  known := by
    have hsub := trim_variableIds_sublist (insert id pool.removed)
      pool.variableIds.reverse
    rw [List.reverse_reverse] at hsub
    exact fun other hother => hrep.known other (hsub.subset hother)
  removed := by
    intro other hother
    have hmem := trim_removed_subset _ _ hother
    rcases Finset.mem_insert.mp hmem with rfl | hmem
    · exact hrep.known other (List.mem_of_mem_filter hactive)
    · exact hrep.removed other hmem
  consumed := by
    intro other hother
    rcases List.mem_append.mp hother with hother | hother
    · exact hrep.consumed other hother
    · rw [List.mem_singleton.mp hother]
      exact hrep.known id (List.mem_of_mem_filter hactive)

end NativeVariables

end Refinement

section Outcomes

variable {Rng : Type} {sampler : Sampler Rng}

/-- One of several identifiers is one of them. -/
theorem drawFromSet_reply_mem {used : IdSet} {members : List Int}
    {request : DrawRequest Rng} {drawn : Drawn} {wasForced : Bool}
    (hrequest : drawFromSet sampler used members = .ok request)
    (hproduces : request.Produces drawn wasForced) :
    ∃ id ∈ members, drawn.reply = .integer id := by
  rw [drawFromSet] at hrequest
  have hmembers : ∀ id, id ∈ (members.insertionSort (· ≤ ·)).dedup →
      id ∈ members := fun id hid =>
    (List.mem_insertionSort _).mp (List.mem_dedup.mp hid)
  cases hsorted : (members.insertionSort (· ≤ ·)).dedup with
  | nil =>
      rw [hsorted] at hrequest
      cases hrequest
  | cons smallest rest =>
      rw [hsorted] at hrequest hmembers
      simp only [] at hrequest
      by_cases hneg : smallest < 0
      · rw [if_pos hneg] at hrequest
        cases hrequest
      rw [if_neg hneg] at hrequest
      by_cases hhigh : (smallest :: rest).getLast (List.cons_ne_nil _ _) >
          (used.largest + 1).toNat
      · rw [if_pos hhigh] at hrequest
        cases hrequest
      rw [if_neg hhigh] at hrequest
      cases hrequest
      obtain ⟨raw, rfl⟩ := Draw.typed_eq hproduces.1
      exact ⟨_, hmembers _ (chooseMember_mem List.mem_cons_self), rfl⟩

theorem drawValue_fromSet {members : List Int} {source after : Source Rng}
    {value : ChoiceValue}
    (hdraw : drawValue sampler (.fromSet members) source = (.ok value, after)) :
    ∃ id ∈ members, value = .integer id := by
  rw [drawValue] at hdraw
  cases hrequest : (DrawOp.fromSet members).request sampler source.family with
  | error error =>
      simp only [hrequest] at hdraw
      cases hdraw
  | ok request =>
      simp only [hrequest] at hdraw
      cases hperform : performDraw request source.family source.stream with
      | error error =>
          simp only [hperform] at hdraw
          cases hdraw
      | ok answer =>
          simp only [hperform] at hdraw
          cases performDraw_cases hperform with
          | refused hconcluded => cases hdraw
          | overran draws hopen hdraws => cases hdraw
          | drew drawn input wasForced hopen hbudget hproduces =>
              cases hdraw
              exact drawFromSet_reply_mem hrequest hproduces

theorem chooseFrom_mem {members : List Int} {source after : Source Rng}
    {id : Int}
    (hchoose : chooseFrom sampler members source = (.ok id, after)) :
    id ∈ members := by
  rw [chooseFrom, spanned] at hchoose
  have hresult := congrArg Prod.fst hchoose
  change (Attempt.bind (drawValue sampler (.fromSet members)) _
    (openSpan labelSetChoice source).2).1 = .ok id at hresult
  rw [Attempt.bind] at hresult
  rcases hdraw : drawValue sampler (.fromSet members)
    (openSpan labelSetChoice source).2 with ⟨result, drawn⟩
  rw [hdraw] at hresult
  cases result with
  | error error => cases hresult
  | ok value =>
      obtain ⟨chosen, hmem, rfl⟩ := drawValue_fromSet hdraw
      cases hresult
      exact hmem

namespace NativeDataSource

variable {pool : NativeVariables} {data : NativeDataSource Rng}

theorem poolAdd_eq (pool : NativeVariables) (data : NativeDataSource Rng) :
    poolAdd sampler (pool, data) =
      if data.aborted then (.error data.abortedError, pool, data)
      else match freshId sampler data.inner with
        | (.ok id, inner) => (.ok id, pool.add id, ⟨inner, false⟩)
        | (.error error, inner) =>
            (.error (CallError.draw error).told, pool,
              ⟨inner, (CallError.draw error).aborts⟩) := by
  rw [poolAdd, withNtc]
  by_cases haborted : data.aborted = true
  · rw [if_pos haborted, if_pos haborted]
  · rw [if_neg haborted, if_neg haborted]
    simp only [bind, Attempt.bind, drawing]
    rcases freshId sampler data.inner with ⟨result, inner⟩
    cases result with
    | ok id => rfl
    | error error => rfl

theorem poolGenerate_eq (pool : NativeVariables) (data : NativeDataSource Rng)
    (consume : Bool) :
    poolGenerate sampler consume (pool, data) =
      if data.aborted then (.error data.abortedError, pool, data)
      else if pool.active.isEmpty then (.error .assume, pool, ⟨data.inner, false⟩)
      else match chooseFrom sampler pool.active data.inner with
        | (.ok id, inner) =>
            (.ok id, if consume then pool.consume id else pool, ⟨inner, false⟩)
        | (.error error, inner) =>
            (.error (CallError.draw error).told, pool,
              ⟨inner, (CallError.draw error).aborts⟩) := by
  rw [poolGenerate, withNtc]
  by_cases haborted : data.aborted = true
  · rw [if_pos haborted, if_pos haborted]
  · rw [if_neg haborted, if_neg haborted]
    simp only [bind, Attempt.bind, Attempt.read]
    by_cases hempty : pool.active.isEmpty = true
    · simp only [if_pos hempty]
      rfl
    · simp only [if_neg hempty, Attempt.bind, drawing]
      rcases chooseFrom sampler pool.active data.inner with ⟨result, inner⟩
      cases result with
      | ok id => cases consume <;> rfl
      | error error => rfl

end NativeDataSource

end Outcomes

section Runs

/-- A call on a pool, with its answer. -/
inductive PoolEvent where
  | added (result : Except DataSourceError Int)
  | generated (consume : Bool) (result : Except DataSourceError Int)

def PoolEvent.addedId : PoolEvent → Option Int
  | .added (.ok id) => some id
  | _ => none

def PoolEvent.consumedId : PoolEvent → Option Int
  | .generated true (.ok id) => some id
  | _ => none

@[simp] theorem PoolEvent.addedId_generated (consume : Bool)
    (result : Except DataSourceError Int) :
    (PoolEvent.generated consume result).addedId = none :=
  rfl

@[simp] theorem PoolEvent.consumedId_added
    (result : Except DataSourceError Int) :
    (PoolEvent.added result).consumedId = none :=
  rfl

def addedIds (events : List PoolEvent) : List Int :=
  events.filterMap PoolEvent.addedId

def consumedIds (events : List PoolEvent) : List Int :=
  events.filterMap PoolEvent.consumedId

theorem addedIds_concat (events : List PoolEvent) (event : PoolEvent) :
    addedIds (events ++ [event]) = addedIds events ++ event.addedId.toList := by
  rw [addedIds, List.filterMap_append]
  cases h : event.addedId with
  | none => simp [h, addedIds]
  | some id => simp [h, addedIds]

theorem consumedIds_concat (events : List PoolEvent) (event : PoolEvent) :
    consumedIds (events ++ [event]) =
      consumedIds events ++ event.consumedId.toList := by
  rw [consumedIds, List.filterMap_append]
  cases h : event.consumedId with
  | none => simp [h, consumedIds]
  | some id => simp [h, consumedIds]

namespace NativeDataSource

variable {Rng : Type} {sampler : Sampler Rng}

/-- Pools with the calls that were made on them.  In between, anything may
happen to the test case. -/
inductive PoolRun (sampler : Sampler Rng) :
    List PoolEvent → NativeVariables → Prop
  | new : PoolRun sampler [] .new
  | add {events : List PoolEvent} {pool : NativeVariables}
      (hrun : PoolRun sampler events pool) (data : NativeDataSource Rng) :
      PoolRun sampler (events ++ [.added (poolAdd sampler (pool, data)).1])
        (poolAdd sampler (pool, data)).2.1
  | generate {events : List PoolEvent} {pool : NativeVariables}
      (hrun : PoolRun sampler events pool) (data : NativeDataSource Rng)
      (consume : Bool) :
      PoolRun sampler
        (events ++ [.generated consume
          (poolGenerate sampler consume (pool, data)).1])
        (poolGenerate sampler consume (pool, data)).2.1

/-- What one call adds to the history is what it does to the pool. -/
theorem poolAdd_represents {pool : NativeVariables} {added consumed : List Int}
    (hrep : pool.Represents added consumed) (data : NativeDataSource Rng)
    (hfresh : ∀ id, (poolAdd sampler (pool, data)).1 = .ok id → id ∉ added) :
    (poolAdd sampler (pool, data)).2.1.Represents
      (added ++ (PoolEvent.added
        (poolAdd sampler (pool, data)).1).addedId.toList) consumed := by
  rw [poolAdd_eq] at hfresh ⊢
  by_cases haborted : data.aborted = true
  · simpa only [if_pos haborted, PoolEvent.addedId, Option.toList_none,
      List.append_nil] using hrep
  · simp only [if_neg haborted] at hfresh ⊢
    generalize freshId sampler data.inner = answer at hfresh ⊢
    obtain ⟨result, inner⟩ := answer
    cases result with
    | ok id => exact hrep.add (hfresh id rfl)
    | error error =>
        simpa only [PoolEvent.addedId, Option.toList_none, List.append_nil]
          using hrep

theorem poolGenerate_represents {pool : NativeVariables}
    {added consumed : List Int} (hrep : pool.Represents added consumed)
    (data : NativeDataSource Rng) (consume : Bool) :
    (poolGenerate sampler consume (pool, data)).2.1.Represents added
      (consumed ++ (PoolEvent.generated consume
        (poolGenerate sampler consume (pool, data)).1).consumedId.toList) := by
  rw [poolGenerate_eq]
  have hsame : pool.Represents added (consumed ++ []) := by
    rw [List.append_nil]
    exact hrep
  have hfailed : ∀ error : DataSourceError, (PoolEvent.generated consume
      (.error error)).consumedId.toList = [] := by
    intro error
    cases consume <;> rfl
  by_cases haborted : data.aborted = true
  · rw [if_pos haborted]
    simpa only [hfailed] using hsame
  · rw [if_neg haborted]
    by_cases hempty : pool.active.isEmpty = true
    · rw [if_pos hempty]
      simpa only [hfailed] using hsame
    · rw [if_neg hempty]
      rcases hchoose : chooseFrom sampler pool.active data.inner with
        ⟨result, inner⟩
      cases result with
      | ok id =>
          cases consume with
          | true => exact hrep.consume (chooseFrom_mem hchoose)
          | false => exact hsame
      | error error => simpa only [hfailed] using hsame

/-- Whatever was added and consumed, the pool stands for what is left. -/
theorem PoolRun.represents {events : List PoolEvent} {pool : NativeVariables}
    (hrun : PoolRun sampler events pool)
    (hdistinct : (addedIds events).Nodup) :
    pool.Represents (addedIds events) (consumedIds events) := by
  induction hrun with
  | new => exact NativeVariables.new_represents
  | @add events pool hrun data ih =>
      rw [addedIds_concat] at hdistinct ⊢
      rw [consumedIds_concat]
      have hrep := ih (List.nodup_append.mp hdistinct).1
      rw [PoolEvent.consumedId_added, Option.toList_none, List.append_nil]
      apply poolAdd_represents hrep
      intro id hresult hmem
      rw [hresult] at hdistinct
      exact (List.nodup_append.mp hdistinct).2.2 id hmem id
        (List.mem_singleton_self id) rfl
  | @generate events pool hrun data consume ih =>
      rw [addedIds_concat] at hdistinct ⊢
      rw [consumedIds_concat]
      rw [PoolEvent.addedId_generated, Option.toList_none, List.append_nil]
        at hdistinct ⊢
      exact poolGenerate_represents (ih hdistinct) data consume

/-- A pool is the ordered set of the identifiers that were added and not
consumed: one of them is returned, and a pool without any turns the call down
before anything is drawn. -/
theorem pool_refines_orderedSet {events : List PoolEvent}
    {pool : NativeVariables} (hrun : PoolRun sampler events pool)
    (hdistinct : (addedIds events).Nodup) :
    pool.active = (addedIds events).filter (· ∉ consumedIds events) ∧
    ∀ (data : NativeDataSource Rng) (consume : Bool)
      (result : Except DataSourceError Int) (pool' : NativeVariables)
      (data' : NativeDataSource Rng),
      poolGenerate sampler consume (pool, data) = (result, pool', data') →
      (∀ id, result = .ok id →
        id ∈ pool.active ∧ id ∉ consumedIds events) ∧
      (pool.active = [] → data.aborted = false →
        result = .error .assume ∧ data' = data) ∧
      (∀ error, result = .error error → pool' = pool ∧
        (pool.active = [] ∨ data.aborted = true ∨
          ∃ refusal, (chooseFrom sampler pool.active data.inner).1 =
            .error refusal)) := by
  have hactive := (hrun.represents hdistinct).active
  refine ⟨hactive, fun data consume result pool' data' hcall => ?_⟩
  rw [poolGenerate_eq] at hcall
  by_cases haborted : data.aborted = true
  · rw [if_pos haborted] at hcall
    cases hcall
    refine ⟨nofun, fun _ hrunning => ?_, fun error _ => ⟨rfl, .inr (.inl haborted)⟩⟩
    rw [haborted] at hrunning
    cases hrunning
  rw [if_neg haborted] at hcall
  by_cases hempty : pool.active.isEmpty = true
  · rw [if_pos hempty] at hcall
    cases hcall
    refine ⟨nofun, fun _ hrunning => ⟨rfl, ?_⟩, fun error _ =>
      ⟨rfl, .inl (List.isEmpty_iff.mp hempty)⟩⟩
    rw [← hrunning]
  rw [if_neg hempty] at hcall
  rcases hchoose : chooseFrom sampler pool.active data.inner with
    ⟨chosen, inner⟩
  rw [hchoose] at hcall
  have hnonempty : pool.active ≠ [] := fun h =>
    hempty (List.isEmpty_iff.mpr h)
  cases chosen with
  | ok id =>
      cases hcall
      refine ⟨?_, fun h => absurd h hnonempty, nofun⟩
      rintro _ ⟨⟩
      have hmem := chooseFrom_mem hchoose
      refine ⟨hmem, ?_⟩
      rw [hactive] at hmem
      simpa using (List.mem_filter.mp hmem).2
  | error error =>
      cases hcall
      exact ⟨nofun, fun h => absurd h hnonempty,
        fun _ _ => ⟨rfl, .inr (.inr ⟨error, rfl⟩)⟩⟩

/-- A new pool and a test case that is told what to draw. -/
def emptyPool : NativeVariables × NativeDataSource Unit :=
  (.new, ⟨⟨.new 8, ⟨.new [], ⟨[.integer 0, .integer 1, .integer 2, .integer 1,
    .integer 2], none, none, 8, some ⟨.simplest, none⟩⟩⟩⟩, false⟩)

/-- The pool after it was given three identifiers. -/
def threeAdded : NativeVariables × NativeDataSource Unit :=
  let add := fun pool => (poolAdd Sampler.simplest pool).2
  add (add (add emptyPool))

/-- The second of them is consumed. -/
def middleConsumed : NativeVariables × NativeDataSource Unit :=
  (poolGenerate Sampler.simplest true threeAdded).2

/-- The third one is consumed as well. -/
def endConsumed : NativeVariables × NativeDataSource Unit :=
  (poolGenerate Sampler.simplest true middleConsumed).2

def addingEvents : List PoolEvent :=
  [.added (.ok 0), .added (.ok 1), .added (.ok 2)]

def consumingEvents : List PoolEvent :=
  addingEvents ++ [.generated true (.ok 1)] ++ [.generated true (.ok 2)]

theorem poolRun_adding : PoolRun Sampler.simplest addingEvents threeAdded.1 := by
  have hone : PoolRun Sampler.simplest [.added (.ok 0)]
      (poolAdd Sampler.simplest emptyPool).2.1 := PoolRun.new.add emptyPool.2
  have htwo : PoolRun Sampler.simplest [.added (.ok 0), .added (.ok 1)]
      (poolAdd Sampler.simplest (poolAdd Sampler.simplest emptyPool).2).2.1 :=
    hone.add (poolAdd Sampler.simplest emptyPool).2.2
  exact htwo.add
    (poolAdd Sampler.simplest (poolAdd Sampler.simplest emptyPool).2).2.2

theorem poolRun_consuming :
    PoolRun Sampler.simplest consumingEvents endConsumed.1 := by
  have hmiddle : PoolRun Sampler.simplest
      (addingEvents ++ [.generated true (.ok 1)]) middleConsumed.1 :=
    poolRun_adding.generate threeAdded.2 true
  exact hmiddle.generate middleConsumed.2 true

/-- An identifier consumed in the middle stays until there is nothing active
behind it. -/
theorem pool_refines_orderedSet_sample :
    PoolRun Sampler.simplest consumingEvents endConsumed.1 ∧
      middleConsumed.1 = ⟨[0, 1, 2], {1}⟩ ∧ endConsumed.1 = ⟨[0], ∅⟩ ∧
      endConsumed.1.active = [0] ∧
      ∃ id pool' data', poolGenerate Sampler.simplest false endConsumed =
        (.ok id, pool', data') ∧
      id ∈ endConsumed.1.active ∧ id ∉ consumedIds consumingEvents := by
  obtain ⟨hactive, hgenerate⟩ :=
    pool_refines_orderedSet poolRun_consuming (by decide)
  have hcall : poolGenerate Sampler.simplest false endConsumed =
      (.ok 0, ⟨[0], ∅⟩, _) := rfl
  exact ⟨poolRun_consuming, rfl, rfl, hactive, _, _, _, hcall,
    (hgenerate _ _ _ _ _ hcall).1 0 rfl⟩

/-- A test case without room for another draw returns nothing from a pool that
has an active identifier. -/
theorem poolGenerate_overrun :
    PoolRun Sampler.simplest [.added (.ok 0)] ⟨[0], ∅⟩ ∧
      (NativeVariables.mk [0] ∅).active ≠ [] ∧
      ∃ data', poolGenerate Sampler.simplest false (⟨[0], ∅⟩, simplestData 0) =
        (.error .stopTest, ⟨[0], ∅⟩, data') :=
  ⟨PoolRun.new.add (simplestData 8), by decide, _, rfl⟩

end NativeDataSource

end Runs

end Hegel
