/-
Putting the streams of a concluded test case together while other operations
go on.  The clones of a stream are taken from it once, frozen, put together
themselves and stored in the stream's nodes; a stream without clones left is
never changed again.
-/
import Hegel.CloneTree

namespace Hegel

variable {Rng : Type} {sampler : Sampler Rng}

namespace StreamRecord

/-- Take the clones out of a record. -/
def drain (record : StreamRecord) : StreamRecord :=
  { record with cloneChildren := [] }

/-- Store what a clone realized in its node. -/
def fill (record : StreamRecord) (idx : Nat) (below : StreamRecord) :
    StreamRecord :=
  { record with
    nodes := record.nodes.modify idx fun node =>
      .mk (.clone (.new below.nodes below.spans)) node.wasForced }

/-- What putting streams together may do to a record: its clones are taken
and nodes are replaced. -/
structure Thins (record later : StreamRecord) : Prop where
  cloneId : later.cloneId = record.cloneId
  length : later.nodes.length = record.nodes.length
  cloneChildren : later.cloneChildren = record.cloneChildren ∨
    later.cloneChildren = []

theorem Thins.refl (record : StreamRecord) : record.Thins record :=
  ⟨rfl, rfl, .inl rfl⟩

theorem Thins.trans {first second third : StreamRecord}
    (hfirst : first.Thins second) (hsecond : second.Thins third) :
    first.Thins third where
  cloneId := hsecond.cloneId.trans hfirst.cloneId
  length := hsecond.length.trans hfirst.length
  cloneChildren := by
    rcases hsecond.cloneChildren with hsame | hempty
    · rw [hsame]
      exact hfirst.cloneChildren
    · exact .inr hempty

theorem Thins.drained {record later : StreamRecord}
    (hthins : record.Thins later) (hdrained : record.cloneChildren = []) :
    later.cloneChildren = [] := by
  rcases hthins.cloneChildren with hsame | hempty
  · rw [hsame, hdrained]
  · exact hempty

theorem SameTree.thins {record later : StreamRecord}
    (hsame : record.SameTree later) : record.Thins later where
  cloneId := hsame.cloneId
  length := congrArg List.length hsame.nodes
  cloneChildren := .inl hsame.cloneChildren

theorem thins_drain (record : StreamRecord) : record.Thins record.drain :=
  ⟨rfl, rfl, .inr rfl⟩

theorem thins_fill (record : StreamRecord) (idx : Nat)
    (below : StreamRecord) : record.Thins (record.fill idx below) :=
  ⟨rfl, List.length_modify _ _ _, .inl rfl⟩

/-- A record without clones keeps its nodes. -/
def Keeps (record later : StreamRecord) : Prop :=
  record.cloneChildren = [] →
    later.cloneChildren = [] ∧ later.nodes = record.nodes

theorem Keeps.refl (record : StreamRecord) : record.Keeps record :=
  fun hdrained => ⟨hdrained, rfl⟩

theorem Keeps.trans {first second third : StreamRecord}
    (hfirst : first.Keeps second) (hsecond : second.Keeps third) :
    first.Keeps third := by
  intro hdrained
  obtain ⟨hdrained', hnodes⟩ := hfirst hdrained
  obtain ⟨hdrained'', hnodes'⟩ := hsecond hdrained'
  exact ⟨hdrained'', hnodes'.trans hnodes⟩

theorem SameTree.keeps {record later : StreamRecord}
    (hsame : record.SameTree later) : record.Keeps later :=
  fun hdrained => ⟨hsame.cloneChildren.trans hdrained, hsame.nodes⟩

end StreamRecord

namespace TestCaseFamily

/-- Change the record of one stream. -/
def modifyRecord (state : TestCaseFamily Rng) (handle : Nat)
    (change : StreamRecord → StreamRecord) : TestCaseFamily Rng :=
  { state with
    streams := state.streams.modify handle fun stream =>
      ⟨change stream.record, stream.input⟩ }

/-- Freeze one stream. -/
def freezeAt (state : TestCaseFamily Rng) (handle : Nat) :
    TestCaseFamily Rng :=
  match state.streams[handle]? with
  | some stream =>
      { state.modifyRecord handle fun record =>
          (freezeStream state.family record).2 with
        family := (freezeStream state.family stream.record).1 }
  | none => state

/-- Replace every clone node of a stream by the record of its stream, once the
case is concluded. -/
def reassembleStream :
    Nat → TestCaseFamily Rng → Nat → TestCaseFamily Rng
  | 0, state, _ => state
  | levels + 1, state, handle =>
      match state.streams[handle]? with
      | some stream =>
          if state.family.status.isNone then state
          else
            stream.record.cloneChildren.foldl
              (fun state (idx, child) =>
                let state := reassembleStream levels (state.freezeAt child) child
                match state.streams[child]? with
                | some below =>
                    state.modifyRecord handle fun record =>
                      record.fill idx below.record
                | none => state)
              (state.modifyRecord handle StreamRecord.drain)
      | none => state

def reassemble (state : TestCaseFamily Rng) (handle : Nat) :
    TestCaseFamily Rng :=
  state.reassembleStream (maxCloneDepth + 1) handle

section Modify

variable {state : TestCaseFamily Rng} {handle : Nat}
  {change : StreamRecord → StreamRecord}

theorem modifyRecord_getElem?_eq {stream : NativeTestCase Rng}
    (hstream : state.streams[handle]? = some stream) :
    (state.modifyRecord handle change).streams[handle]? =
      some ⟨change stream.record, stream.input⟩ := by
  rw [modifyRecord, List.getElem?_modify_eq, hstream]
  rfl

theorem modifyRecord_getElem?_ne {other : Nat} (hne : handle ≠ other) :
    (state.modifyRecord handle change).streams[other]? =
      state.streams[other]? :=
  List.getElem?_modify_ne _ _ hne

theorem Follows.modifyRecord {related : StreamRecord → StreamRecord → Prop}
    (hrefl : ∀ record, related record record)
    (hchange : ∀ stream, state.streams[handle]? = some stream →
      related stream.record (change stream.record)) :
    state.Follows related (state.modifyRecord handle change) := by
  intro other stream hstream
  by_cases hsame : handle = other
  · subst hsame
    exact ⟨_, modifyRecord_getElem?_eq hstream, hchange stream hstream⟩
  · rw [modifyRecord_getElem?_ne hsame]
    exact ⟨stream, hstream, hrefl _⟩

end Modify

/-- One turn of the loop over the clones of a stream. -/
def spliceChild (levels handle : Nat) (state : TestCaseFamily Rng)
    (clone : Nat × Nat) : TestCaseFamily Rng :=
  let state := reassembleStream levels (state.freezeAt clone.2) clone.2
  match state.streams[clone.2]? with
  | some below =>
      state.modifyRecord handle fun record => record.fill clone.1 below.record
  | none => state

theorem reassembleStream_succ {state : TestCaseFamily Rng} {handle : Nat}
    {stream : NativeTestCase Rng}
    (hstream : state.streams[handle]? = some stream)
    (hconcluded : state.family.conclusion.isSome) (levels : Nat) :
    state.reassembleStream (levels + 1) handle =
      stream.record.cloneChildren.foldl (spliceChild levels handle)
        (state.modifyRecord handle StreamRecord.drain) := by
  obtain ⟨verdict, hverdict⟩ := Option.isSome_iff_exists.mp hconcluded
  rw [reassembleStream, hstream]
  simp only [FamilyCore.status_concluded hverdict]
  rfl

theorem freezeAt_concluded {state : TestCaseFamily Rng}
    (hconcluded : state.family.conclusion.isSome) (handle : Nat) :
    state.freezeAt handle = state.modifyRecord handle StreamRecord.freeze := by
  obtain ⟨verdict, hverdict⟩ := Option.isSome_iff_exists.mp hconcluded
  rw [freezeAt]
  cases hstream : state.streams[handle]? with
  | none =>
      simp only []
      rw [modifyRecord, List.modify_eq_self
        (List.getElem?_eq_none_iff.mp hstream)]
  | some stream =>
      simp only [freezeStream_concluded hverdict]
      rfl

/-- What putting streams together does to a concluded case. -/
structure Thins (state later : TestCaseFamily Rng) : Prop where
  family : later.family = state.family
  length : later.streams.length = state.streams.length
  streams : state.Follows StreamRecord.Thins later

theorem Thins.refl (state : TestCaseFamily Rng) : state.Thins state :=
  ⟨rfl, rfl, .of_streams StreamRecord.Thins.refl rfl⟩

theorem Thins.trans {first second third : TestCaseFamily Rng}
    (hfirst : first.Thins second) (hsecond : second.Thins third) :
    first.Thins third where
  family := hsecond.family.trans hfirst.family
  length := hsecond.length.trans hfirst.length
  streams := hfirst.streams.trans (fun _ _ _ => StreamRecord.Thins.trans)
    hsecond.streams

theorem thins_modifyRecord (state : TestCaseFamily Rng) (handle : Nat)
    {change : StreamRecord → StreamRecord}
    (hchange : ∀ record : StreamRecord, record.Thins (change record)) :
    state.Thins (state.modifyRecord handle change) where
  family := rfl
  length := List.length_modify _ _ _
  streams := .modifyRecord StreamRecord.Thins.refl fun _ _ => hchange _

theorem thins_spliceChild {levels : Nat}
    (hlevels : ∀ (state : TestCaseFamily Rng) (handle : Nat),
      state.family.conclusion.isSome →
        state.Thins (state.reassembleStream levels handle))
    {state : TestCaseFamily Rng} (hconcluded : state.family.conclusion.isSome)
    (handle : Nat) (clone : Nat × Nat) :
    state.Thins (spliceChild levels handle state clone) := by
  have hfrozen := state.thins_modifyRecord clone.2 fun record =>
    record.sameTree_freeze.thins
  have hbelow := hfrozen.trans (hlevels _ clone.2 hconcluded)
  rw [spliceChild, freezeAt_concluded hconcluded]
  split
  · exact hbelow.trans (thins_modifyRecord _ _ fun record =>
      record.thins_fill _ _)
  · exact hbelow

theorem thins_reassembleStream {state : TestCaseFamily Rng}
    (hconcluded : state.family.conclusion.isSome) (levels handle : Nat) :
    state.Thins (state.reassembleStream levels handle) := by
  induction levels generalizing state handle with
  | zero => exact .refl state
  | succ levels ih =>
      cases hstream : state.streams[handle]? with
      | none =>
          rw [reassembleStream, hstream]
          exact .refl state
      | some stream =>
          have hfold : ∀ (clones : List (Nat × Nat))
              (mid : TestCaseFamily Rng), state.Thins mid →
                state.Thins (clones.foldl (spliceChild levels handle) mid) := by
            intro clones
            induction clones with
            | nil => exact fun mid hmid => hmid
            | cons clone rest ihClones =>
                intro mid hmid
                have hmidConcluded : mid.family.conclusion.isSome := by
                  rw [hmid.family]
                  exact hconcluded
                exact ihClones _ (hmid.trans (thins_spliceChild
                  (fun _ handle h => ih h handle) hmidConcluded handle clone))
          rw [reassembleStream_succ hstream hconcluded]
          exact hfold _ _ (state.thins_modifyRecord handle
            StreamRecord.thins_drain)

/-- Streams without clones are left alone. -/
theorem keeps_reassembleStream {state : TestCaseFamily Rng}
    (hconcluded : state.family.conclusion.isSome) (levels handle : Nat) :
    state.Follows StreamRecord.Keeps (state.reassembleStream levels handle) := by
  induction levels generalizing state handle with
  | zero => exact .of_streams StreamRecord.Keeps.refl rfl
  | succ levels ih =>
      cases hstream : state.streams[handle]? with
      | none =>
          rw [reassembleStream, hstream]
          exact .of_streams StreamRecord.Keeps.refl rfl
      | some stream =>
          rw [reassembleStream_succ hstream hconcluded]
          by_cases hdrained : stream.record.cloneChildren = []
          · rw [hdrained]
            apply Follows.modifyRecord StreamRecord.Keeps.refl
            intro stream' hstream' _
            exact ⟨rfl, rfl⟩
          -- the clones stand in the way only of their own parent
          have hfold : ∀ (clones : List (Nat × Nat))
              (mid : TestCaseFamily Rng), state.Thins mid →
                ∀ other stream', other ≠ handle →
                  mid.streams[other]? = some stream' →
                  ∃ later : NativeTestCase Rng,
                    (clones.foldl (spliceChild levels handle)
                      mid).streams[other]? = some later ∧
                    stream'.record.Keeps later.record := by
            intro clones
            induction clones with
            | nil => exact fun mid _ other stream' _ h =>
                ⟨stream', h, .refl _⟩
            | cons clone rest ihClones =>
                intro mid hmid other stream' hne hother
                have hmidConcluded : mid.family.conclusion.isSome := by
                  rw [hmid.family]
                  exact hconcluded
                have hthins := hmid.trans (thins_spliceChild
                  (fun _ handle h => thins_reassembleStream h levels handle)
                  hmidConcluded handle clone)
                have hfrozen : mid.Follows StreamRecord.Keeps
                    (mid.modifyRecord clone.2 StreamRecord.freeze) :=
                  .modifyRecord StreamRecord.Keeps.refl
                    fun _ _ => (StreamRecord.sameTree_freeze _).keeps
                obtain ⟨frozen, hat, hkept⟩ := hfrozen other stream' hother
                obtain ⟨below, hbelow, hkept'⟩ :=
                  @ih (mid.modifyRecord clone.2 StreamRecord.freeze)
                    hmidConcluded clone.2 other frozen hat
                have hspliced : (spliceChild levels handle mid
                    clone).streams[other]? = some below := by
                  rw [spliceChild, freezeAt_concluded hmidConcluded]
                  split
                  · rw [modifyRecord_getElem?_ne fun h => hne h.symm]
                    exact hbelow
                  · exact hbelow
                obtain ⟨later, hlater, hkept''⟩ :=
                  ihClones _ hthins other below hne hspliced
                exact ⟨later, hlater, (hkept.trans hkept').trans hkept''⟩
          intro other stream' hother
          by_cases hne : other = handle
          · subst hne
            rw [hstream, Option.some.injEq] at hother
            subst hother
            have hthins := thins_reassembleStream hconcluded (levels + 1) other
            rw [reassembleStream_succ hstream hconcluded] at hthins
            obtain ⟨later, hlater, -⟩ := hthins.streams other stream hstream
            exact ⟨later, hlater, fun h => absurd h hdrained⟩
          · rw [← modifyRecord_getElem?_ne (fun h => hne h.symm)] at hother
            exact hfold _ _ (state.thins_modifyRecord handle
              StreamRecord.thins_drain) other stream' hne hother

/-- A stream whose clones were taken. -/
def Drained (state : TestCaseFamily Rng) (handle : Nat) : Prop :=
  ∃ stream : NativeTestCase Rng, state.streams[handle]? = some stream ∧
    stream.record.cloneChildren = []

theorem Drained.later {state later : TestCaseFamily Rng} {handle : Nat}
    (hdrained : state.Drained handle) (hthins : state.Thins later) :
    later.Drained handle := by
  obtain ⟨stream, hstream, hempty⟩ := hdrained
  obtain ⟨stream', hstream', hthinned⟩ := hthins.streams handle stream hstream
  exact ⟨stream', hstream', hthinned.drained hempty⟩

/-- A change that leaves clones alone drains nothing. -/
theorem drained_modifyRecord {state : TestCaseFamily Rng} {handle : Nat}
    {change : StreamRecord → StreamRecord}
    (hchange : ∀ record : StreamRecord,
      (change record).cloneChildren = record.cloneChildren) {other : Nat} :
    (state.modifyRecord handle change).Drained other ↔ state.Drained other := by
  by_cases hsame : handle = other
  · subst hsame
    cases hstream : state.streams[handle]? with
    | none => simp [Drained, modifyRecord, hstream]
    | some stream =>
        simp [Drained, modifyRecord, hstream, hchange]
  · rw [Drained, modifyRecord_getElem?_ne hsame, Drained]

/-- Outside of the streams being worked on, below a drained stream every
stream that `base` has there is drained. -/
def ClosedBelow (base : TestCaseFamily Rng) (active : List Nat)
    (state : TestCaseFamily Rng) : Prop :=
  ∀ (handle : Nat) (stream : NativeTestCase Rng), handle ∉ active →
    base.streams[handle]? = some stream → state.Drained handle →
      ∀ child ∈ stream.record.cloneChildren, state.Drained child.2

theorem closedBelow_modifyRecord {base state : TestCaseFamily Rng}
    {active : List Nat} {handle : Nat} {change : StreamRecord → StreamRecord}
    (hclosed : ClosedBelow base active state)
    (hchange : ∀ record : StreamRecord,
      (change record).cloneChildren = record.cloneChildren) :
    ClosedBelow base active (state.modifyRecord handle change) := by
  intro other stream hactive hstream hdrained child hchild
  rw [drained_modifyRecord hchange] at hdrained ⊢
  exact hclosed other stream hactive hstream hdrained child hchild

/-- Putting a stream together drains it and everything below it. -/
theorem closedBelow_reassembleStream {base : TestCaseFamily Rng}
    (hlayered : base.Layered) (hconcluded : base.family.conclusion.isSome)
    {levels handle : Nat} {active : List Nat} {state : TestCaseFamily Rng}
    (hthins : base.Thins state) (hclosed : ClosedBelow base active state)
    {stream : NativeTestCase Rng}
    (hstream : base.streams[handle]? = some stream)
    (hlevels : maxCloneDepth + 1 ≤ levels + stream.record.cloneId.length) :
    ClosedBelow base active (state.reassembleStream levels handle) ∧
      (state.reassembleStream levels handle).Drained handle := by
  induction levels generalizing handle active state stream with
  | zero =>
      have hdepth := hlayered.depth stream (List.mem_of_getElem? hstream)
      omega
  | succ levels ih =>
      obtain ⟨current, hcurrent, hthinned⟩ := hthins.streams handle stream hstream
      have hstateConcluded : state.family.conclusion.isSome := by
        rw [hthins.family]
        exact hconcluded
      rw [reassembleStream_succ hcurrent hstateConcluded]
      have hdrainThins := hthins.trans (state.thins_modifyRecord handle
        StreamRecord.thins_drain)
      have hdrained : (state.modifyRecord handle
          StreamRecord.drain).Drained handle :=
        ⟨_, modifyRecord_getElem?_eq hcurrent, rfl⟩
      have hother : ∀ other, other ≠ handle →
          ((state.modifyRecord handle StreamRecord.drain).Drained other ↔
            state.Drained other) := by
        intro other hne
        rw [Drained, modifyRecord_getElem?_ne (fun h => hne h.symm), Drained]
      -- while the stream is worked on, it is drained before its clones are
      have hactive : ClosedBelow base (handle :: active)
          (state.modifyRecord handle StreamRecord.drain) := by
        intro other stream' hout hstream' hdrained' child hchild
        have hne : other ≠ handle := fun h => hout (h ▸ List.mem_cons_self)
        have hbelow := hclosed other stream'
          (fun h => hout (List.mem_cons_of_mem _ h)) hstream'
          ((hother other hne).mp hdrained') child hchild
        exact hbelow.later (state.thins_modifyRecord handle
          StreamRecord.thins_drain)
      have hfold : ∀ (clones : List (Nat × Nat)) (mid : TestCaseFamily Rng),
          (∀ clone ∈ clones, clone ∈ stream.record.cloneChildren) →
          base.Thins mid → ClosedBelow base (handle :: active) mid →
          mid.Thins (clones.foldl (spliceChild levels handle) mid) ∧
            ClosedBelow base (handle :: active)
              (clones.foldl (spliceChild levels handle) mid) ∧
            ∀ clone ∈ clones,
              (clones.foldl (spliceChild levels handle) mid).Drained
                clone.2 := by
        intro clones
        induction clones with
        | nil => exact fun mid _ _ hmid => ⟨.refl mid, hmid, by simp⟩
        | cons clone rest ihClones =>
            intro mid hsubset hmid hmidClosed
            have hmidConcluded : mid.family.conclusion.isSome := by
              rw [hmid.family]
              exact hconcluded
            have hthinsSplice := thins_spliceChild
              (fun _ handle h => thins_reassembleStream h levels handle)
              hmidConcluded handle clone
            obtain ⟨-, below, hbelow, hlevel⟩ := hlayered.children stream
              (List.mem_of_getElem? hstream) clone
              (hsubset clone List.mem_cons_self)
            obtain ⟨hclosedBelow, hdrainedBelow⟩ := ih
              (hmid.trans (mid.thins_modifyRecord clone.2 fun record =>
                record.sameTree_freeze.thins))
              (closedBelow_modifyRecord hmidClosed fun record =>
                record.sameTree_freeze.cloneChildren)
              hbelow (by omega)
            have hspliced : ClosedBelow base (handle :: active)
                  (spliceChild levels handle mid clone) ∧
                (spliceChild levels handle mid clone).Drained clone.2 := by
              rw [spliceChild, freezeAt_concluded hmidConcluded]
              split
              · constructor
                · exact closedBelow_modifyRecord hclosedBelow fun _ => rfl
                · rw [drained_modifyRecord]
                  · exact hdrainedBelow
                  · exact fun _ => rfl
              · exact ⟨hclosedBelow, hdrainedBelow⟩
            obtain ⟨hrest, hclosedRest, hdrainedRest⟩ := ihClones _
              (fun c hc => hsubset c (List.mem_cons_of_mem _ hc))
              (hmid.trans hthinsSplice) hspliced.1
            refine ⟨hthinsSplice.trans hrest, hclosedRest, ?_⟩
            intro c hc
            rcases List.mem_cons.mp hc with rfl | hlater
            · exact hspliced.2.later hrest
            · exact hdrainedRest c hlater
      obtain ⟨hafter, hclosedAfter, hdrainedAfter⟩ :=
        hfold current.record.cloneChildren _ (by
          rcases hthinned.cloneChildren with hsame | hempty
          · rw [hsame]
            exact fun _ h => h
          · rw [hempty]
            exact fun _ h => by cases h) hdrainThins hactive
      refine ⟨?_, hdrained.later hafter⟩
      intro other stream' hout hstream' hdrainedOther child hchild
      by_cases hne : other = handle
      · subst hne
        rw [hstream, Option.some.injEq] at hstream'
        subst hstream'
        rcases hthinned.cloneChildren with hsame | hempty
        · rw [← hsame] at hchild
          exact hdrainedAfter child hchild
        · -- it was drained before, and so were its clones
          have hbefore := hclosed other stream hout hstream
            ⟨current, hcurrent, hempty⟩ child hchild
          exact hbefore.later ((state.thins_modifyRecord other
            StreamRecord.thins_drain).trans hafter)
      · refine hclosedAfter other stream' ?_ hstream' hdrainedOther child hchild
        intro hmem
        rcases List.mem_cons.mp hmem with heq | hin
        · exact hne heq
        · exact hout hin

/-- Where a stream of `base` stands while streams are put together: it is as
it was, up to freezing, or it holds what it realizes. -/
structure Staged (base : TestCaseFamily Rng)
    (record current : StreamRecord) : Prop where
  cloneId : current.cloneId = record.cloneId
  spans : current.freeze.spans = record.freeze.spans
  stage : (current.cloneChildren = record.cloneChildren ∧
      current.nodes = record.nodes) ∨
    (current.cloneChildren = [] ∧ current.nodes = base.realized record)

theorem freeze_freeze (record : StreamRecord) :
    record.freeze.freeze = record.freeze := by
  apply freeze_of_frozen
  rw [StreamRecord.freeze]
  cases hfrozen : record.frozen with
  | true => exact hfrozen
  | false => rfl

/-- Freezing looks at the spans and at the number of nodes. -/
theorem freeze_spans_congr {record record' : StreamRecord}
    (hfrozen : record'.frozen = record.frozen)
    (hspans : record'.spans = record.spans)
    (hstack : record'.spanStack = record.spanStack)
    (hlength : record'.nodes.length = record.nodes.length) :
    record'.freeze.spans = record.freeze.spans := by
  rw [StreamRecord.freeze, StreamRecord.freeze, hfrozen]
  cases record.frozen with
  | true => exact hspans
  | false =>
      simp only [Bool.false_eq_true, if_false]
      rw [hspans, hstack, hlength]

theorem Staged.freeze {base : TestCaseFamily Rng}
    {record current : StreamRecord} (hstaged : base.Staged record current) :
    base.Staged record current.freeze := by
  have hsame := current.sameTree_freeze
  constructor
  · rw [hsame.cloneId, hstaged.cloneId]
  · rw [freeze_freeze, hstaged.spans]
  · rw [hsame.cloneChildren, hsame.nodes]
    exact hstaged.stage

/-- Every stream at a level or below it is staged. -/
def StagedFrom (base : TestCaseFamily Rng) (level : Nat)
    (state : TestCaseFamily Rng) : Prop :=
  ∀ (handle : Nat) (stream : NativeTestCase Rng),
    base.streams[handle]? = some stream →
      level ≤ stream.record.cloneId.length →
        ∃ current : NativeTestCase Rng, state.streams[handle]? = some current ∧
          base.Staged stream.record current.record

/-- Streams above a level are as they were. -/
def SameAbove (base : TestCaseFamily Rng) (level : Nat)
    (state later : TestCaseFamily Rng) : Prop :=
  ∀ (handle : Nat) (stream : NativeTestCase Rng),
    base.streams[handle]? = some stream →
      stream.record.cloneId.length < level →
        later.streams[handle]? = state.streams[handle]?

/-- What putting one stream together comes to: nothing above it changes, what
is below stays staged, and the stream itself holds what it realizes. -/
structure Realizes (base : TestCaseFamily Rng) (handle : Nat)
    (stream : NativeTestCase Rng) (state later : TestCaseFamily Rng) :
    Prop where
  above : base.SameAbove stream.record.cloneId.length state later
  staged : base.StagedFrom stream.record.cloneId.length later
  self : ∀ before : NativeTestCase Rng, state.streams[handle]? = some before →
    ∃ after : NativeTestCase Rng, later.streams[handle]? = some after ∧
      after.record.nodes = base.realized stream.record ∧
      after.record.spans = before.record.spans ∧
      after.record.frozen = before.record.frozen

/-- Halfway through the clones of a stream: the stream has the nodes filled in
so far, everything below it is staged, and nothing else changed. -/
structure Working (base : TestCaseFamily Rng) (handle : Nat)
    (stream current : NativeTestCase Rng) (state mid : TestCaseFamily Rng)
    (nodes : List ChoiceNode) : Prop where
  family : mid.family = base.family
  below : base.StagedFrom (stream.record.cloneId.length + 1) mid
  others : ∀ (other : Nat) (stream' : NativeTestCase Rng),
    base.streams[other]? = some stream' →
      stream'.record.cloneId.length ≤ stream.record.cloneId.length →
        other ≠ handle → mid.streams[other]? = state.streams[other]?
  own : mid.streams[handle]? =
    some ⟨{ current.record.drain with nodes := nodes }, current.input⟩

theorem Staged.modifyRecord_freeze {base mid : TestCaseFamily Rng}
    {level : Nat} (hstaged : base.StagedFrom level mid) (handle : Nat) :
    base.StagedFrom level (mid.modifyRecord handle StreamRecord.freeze) := by
  intro other stream hstream hlevel
  obtain ⟨current, hcurrent, hat⟩ := hstaged other stream hstream hlevel
  by_cases hsame : handle = other
  · subst hsame
    exact ⟨_, modifyRecord_getElem?_eq hcurrent, hat.freeze⟩
  · rw [modifyRecord_getElem?_ne hsame]
    exact ⟨current, hcurrent, hat⟩

theorem Working.spliceChild {base state mid : TestCaseFamily Rng}
    {levels handle : Nat} {stream current : NativeTestCase Rng}
    {nodes : List ChoiceNode} (hlayered : base.Layered)
    (hconcluded : base.family.conclusion.isSome)
    (hlevels : ∀ (handle : Nat) (stream : NativeTestCase Rng)
      (state : TestCaseFamily Rng), state.family = base.family →
        base.StagedFrom stream.record.cloneId.length state →
          base.streams[handle]? = some stream →
            maxCloneDepth + 1 ≤ levels + stream.record.cloneId.length →
              base.Realizes handle stream state
                (state.reassembleStream levels handle))
    (hstream : base.streams[handle]? = some stream)
    (hdepth : maxCloneDepth ≤ levels + stream.record.cloneId.length)
    (hworking : base.Working handle stream current state mid nodes)
    {clone : Nat × Nat} (hclone : clone ∈ stream.record.cloneChildren) :
    base.Working handle stream current state
      (spliceChild levels handle mid clone)
      (StreamRecord.graft base.records
        (maxCloneDepth - stream.record.cloneId.length) nodes clone) := by
  obtain ⟨-, child, hchild, hlevel⟩ :=
    hlayered.children stream (List.mem_of_getElem? hstream) clone hclone
  have hchildDepth := hlayered.depth child (List.mem_of_getElem? hchild)
  have hmidConcluded : mid.family.conclusion.isSome := by
    rw [hworking.family]
    exact hconcluded
  obtain ⟨before, hbefore, hat⟩ :=
    hworking.below clone.2 child hchild (by omega)
  have hrealizes := hlevels clone.2 child
    (mid.modifyRecord clone.2 StreamRecord.freeze) hworking.family
    (by rw [hlevel]; exact Staged.modifyRecord_freeze hworking.below clone.2)
    hchild (by omega)
  obtain ⟨after, hafter, hnodes, hspans, -⟩ :=
    hrealizes.self _ (modifyRecord_getElem?_eq hbefore)
  -- streams that are not below this one are out of the clone's reach
  have houtside : ∀ (other : Nat) (stream' : NativeTestCase Rng),
      base.streams[other]? = some stream' →
        stream'.record.cloneId.length ≤ stream.record.cloneId.length →
          ((mid.modifyRecord clone.2 StreamRecord.freeze).reassembleStream
            levels clone.2).streams[other]? = mid.streams[other]? := by
    intro other stream' hother hle
    rw [hrealizes.above other stream' hother (by omega),
      modifyRecord_getElem?_ne]
    intro heq
    subst heq
    rw [hchild, Option.some.injEq] at hother
    subst hother
    omega
  have hsplice : TestCaseFamily.spliceChild levels handle mid clone =
      ((mid.modifyRecord clone.2 StreamRecord.freeze).reassembleStream levels
        clone.2).modifyRecord handle fun record =>
          record.fill clone.1 after.record := by
    rw [TestCaseFamily.spliceChild, freezeAt_concluded hmidConcluded, hafter]
  rw [hsplice]
  constructor
  · have hthins : (mid.modifyRecord clone.2 StreamRecord.freeze).Thins _ :=
      @thins_reassembleStream _ (mid.modifyRecord clone.2 StreamRecord.freeze)
        hmidConcluded levels clone.2
    exact hthins.family.trans hworking.family
  · intro other stream' hother hle
    rw [modifyRecord_getElem?_ne]
    · rw [← hlevel] at hle
      exact hrealizes.staged other stream' hother hle
    · intro heq
      subst heq
      rw [hstream, Option.some.injEq] at hother
      subst hother
      omega
  · intro other stream' hother hle hne
    rw [modifyRecord_getElem?_ne (fun h => hne h.symm),
      houtside other stream' hother hle]
    exact hworking.others other stream' hother hle hne
  · have hown := houtside handle stream hstream (le_refl _)
    rw [hworking.own] at hown
    rw [modifyRecord_getElem?_eq hown]
    have hrecord : base.records[clone.2]? = some child.record := by
      rw [records, List.getElem?_map, hchild]
      rfl
    have hlevelsEq : maxCloneDepth + 1 - child.record.cloneId.length =
        maxCloneDepth - stream.record.cloneId.length := by
      omega
    rw [StreamRecord.graft, hrecord]
    simp only [StreamRecord.fill, hnodes, hspans, hat.spans, realized,
      hlevelsEq, StreamRecord.reassemble_sameTree child.record.sameTree_freeze]

/-- Putting a stream together gives it the nodes that it realizes. -/
theorem reassembleStream_realizes {base : TestCaseFamily Rng}
    (hlayered : base.Layered) (hconcluded : base.family.conclusion.isSome)
    {levels handle : Nat} {state : TestCaseFamily Rng}
    {stream : NativeTestCase Rng} (hfamily : state.family = base.family)
    (hstaged : base.StagedFrom stream.record.cloneId.length state)
    (hstream : base.streams[handle]? = some stream)
    (hlevels : maxCloneDepth + 1 ≤ levels + stream.record.cloneId.length) :
    base.Realizes handle stream state
      (state.reassembleStream levels handle) := by
  induction levels generalizing handle state stream with
  | zero =>
      have hdepth := hlayered.depth stream (List.mem_of_getElem? hstream)
      omega
  | succ levels ih =>
      have hdepth := hlayered.depth stream (List.mem_of_getElem? hstream)
      obtain ⟨current, hcurrent, hat⟩ :=
        hstaged handle stream hstream (le_refl _)
      have hstateConcluded : state.family.conclusion.isSome := by
        rw [hfamily]
        exact hconcluded
      rw [reassembleStream_succ hcurrent hstateConcluded]
      have hstart : base.Working handle stream current state
          (state.modifyRecord handle StreamRecord.drain)
          current.record.nodes := by
        constructor
        · exact hfamily
        · intro other stream' hother hle
          rw [modifyRecord_getElem?_ne]
          · exact hstaged other stream' hother (by omega)
          · intro heq
            subst heq
            rw [hstream, Option.some.injEq] at hother
            subst hother
            omega
        · intro other stream' hother hle hne
          exact modifyRecord_getElem?_ne fun h => hne h.symm
        · rw [modifyRecord_getElem?_eq hcurrent]
          rfl
      have hfold : ∀ (clones : List (Nat × Nat)) (mid : TestCaseFamily Rng)
          (nodes : List ChoiceNode),
          (∀ clone ∈ clones, clone ∈ stream.record.cloneChildren) →
          base.Working handle stream current state mid nodes →
          base.Working handle stream current state
            (clones.foldl (TestCaseFamily.spliceChild levels handle) mid)
            (clones.foldl (StreamRecord.graft base.records
              (maxCloneDepth - stream.record.cloneId.length)) nodes) := by
        intro clones
        induction clones with
        | nil => exact fun mid nodes _ hmid => hmid
        | cons clone rest ihClones =>
            intro mid nodes hsubset hmid
            apply ihClones _ _ fun c hc => hsubset c (List.mem_cons_of_mem _ hc)
            exact hmid.spliceChild hlayered hconcluded
              (fun handle stream state hf hs hb hl => ih hf hs hb hl) hstream
              (by omega) (hsubset clone List.mem_cons_self)
      have hdone : base.Working handle stream current state
          (current.record.cloneChildren.foldl
            (TestCaseFamily.spliceChild levels handle)
            (state.modifyRecord handle StreamRecord.drain))
          (base.realized stream.record) := by
        rcases hat.stage with ⟨hchildren, hnodes⟩ | ⟨hempty, hnodes⟩
        · have hlevelsEq : maxCloneDepth + 1 - stream.record.cloneId.length =
              maxCloneDepth - stream.record.cloneId.length + 1 := by
            omega
          rw [realized, hlevelsEq, StreamRecord.reassemble_succ, hchildren,
            ← hnodes]
          exact hfold _ _ _ (fun _ h => h) hstart
        · rw [hempty, ← hnodes]
          exact hstart
      constructor
      · intro other stream' hother hlt
        apply hdone.others other stream' hother (le_of_lt hlt)
        intro heq
        subst heq
        rw [hstream, Option.some.injEq] at hother
        subst hother
        omega
      · intro other stream' hother hle
        by_cases hself : other = handle
        · subst hself
          rw [hstream, Option.some.injEq] at hother
          subst hother
          refine ⟨_, hdone.own, hat.cloneId, ?_, .inr ⟨rfl, rfl⟩⟩
          rw [← hat.spans]
          refine freeze_spans_congr ?_ ?_ ?_ ?_
          · rfl
          · rfl
          · rfl
          change (base.realized stream.record).length = _
          rw [realized, StreamRecord.length_reassemble]
          rcases hat.stage with ⟨-, hnodes⟩ | ⟨-, hnodes⟩
          · rw [hnodes]
          · rw [hnodes, realized, StreamRecord.length_reassemble]
        · rcases Nat.lt_or_ge stream.record.cloneId.length
            stream'.record.cloneId.length with hlt | hge
          · exact hdone.below other stream' hother hlt
          · rw [hdone.others other stream' hother hge hself]
            exact hstaged other stream' hother hle
      · intro before hbefore
        rw [hcurrent, Option.some.injEq] at hbefore
        subst hbefore
        exact ⟨_, hdone.own, rfl, rfl, rfl⟩

/-- The nodes that are taken from a finished case are those its root holds
after putting it together. -/
theorem reassemble_root {input : StreamInput Rng} {budget : Nat}
    {final : TestCaseFamily Rng} {outcome : Outcome} {run : RunResult}
    (hreaches : Interaction.Reaches (step sampler) (start input budget) final)
    (htake : takeRun (final.markComplete outcome) = some run) :
    ∃ root : NativeTestCase Rng,
      ((final.markComplete outcome).reassemble 0).streams[0]? = some root ∧
        run.nodes = root.record.nodes ∧ run.spans = root.record.spans := by
  obtain ⟨root, hroot, hnodes, hspans⟩ := takeRun_root hreaches htake
  have hlayered : (final.markComplete outcome).Layered :=
    ⟨(rooted_of_reaches hreaches).layered.children,
      (rooted_of_reaches hreaches).layered.depth⟩
  have hrealizes := reassembleStream_realizes hlayered
    (final.family.conclude_isSome _ _) rfl
    (fun _ stream hstream _ => ⟨stream, hstream, rfl, rfl, .inl ⟨rfl, rfl⟩⟩)
    hroot (Nat.le_add_right (maxCloneDepth + 1) _)
  obtain ⟨root', hroot', hnodes', hspans', -⟩ := hrealizes.self root hroot
  exact ⟨root', hroot', hnodes.trans hnodes'.symm,
    hspans.trans hspans'.symm⟩

end TestCaseFamily

end Hegel
