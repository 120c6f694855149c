/-
The streams of one test case worked on side by side.  Operations on the
streams and attempts to put streams together come in any order; the first
conclusion stands, all streams draw from one budget, and a stream that was put
together is never changed again.
-/
import Hegel.Reassembly

namespace Hegel

variable {Rng : Type} {sampler : Sampler Rng}

/-- What can happen to a test case: a stream answers a request, or a stream is
put together. -/
inductive FamilyStep (sampler : Sampler Rng) (state : TestCaseFamily Rng) :
    TestCaseFamily Rng → Prop where
  | answered {request : StreamRequest} {reply : StreamReply}
      {next : TestCaseFamily Rng}
      (hanswer : step sampler state request = .ok (reply, next)) :
      FamilyStep sampler state next
  | reassembled (handle : Nat) :
      FamilyStep sampler state (state.reassemble handle)

/-- Any number of operations by any streams, in any order. -/
abbrev FamilyReaches (sampler : Sampler Rng) :
    TestCaseFamily Rng → TestCaseFamily Rng → Prop :=
  Relation.ReflTransGen (FamilyStep sampler)

/-- The verdicts an operation may conclude a running case with. -/
inductive StreamOp.Attempts : StreamOp → Outcome → Prop where
  | overrunDraw (op : DrawOp) : Attempts (.draw op) (.earlyStop, none)
  | overrunClone : Attempts .cloneStream (.earlyStop, none)
  | deepClone : Attempts .cloneStream (.invalid, none)
  | deepSpan (label : Nat) : Attempts (.record (.startSpan label))
      (.invalid, none)
  | freeze : Attempts (.record .freeze) (.valid, none)
  | conclude (status : Status) (origin : Option String) :
      Attempts (.record (.conclude status origin)) (status, origin)

section Attempts

theorem recordStep_attempts {family : FamilyCore} {record : StreamRecord}
    (hopen : family.conclusion = none) {op : RecordOp} {verdict : Outcome}
    (hverdict : (recordStep family record op).2.1.conclusion = some verdict) :
    StreamOp.Attempts (.record op) verdict := by
  cases op with
  | startSpan label =>
      rw [recordStep, startSpan] at hverdict
      by_cases hdeep : record.spanStack.length + 1 > maxDepth
      · simp only [if_pos hdeep] at hverdict
        rw [FamilyCore.conclude_open hopen] at hverdict
        have hconcluded :
            (family.withConclusion .invalid none).conclusion =
              some (.invalid, none) := rfl
        rw [(freezeStream_concludes _ _).stands _ hconcluded,
          Option.some.injEq] at hverdict
        rw [← hverdict]
        exact .deepSpan label
      · simp only [if_neg hdeep, hopen] at hverdict
        cases hverdict
  | stopSpan discard =>
      rw [recordStep] at hverdict
      simp [hopen] at hverdict
  | freeze =>
      rw [recordStep, freezeStream] at hverdict
      cases hfrozen : record.frozen with
      | true => simp [hfrozen, hopen] at hverdict
      | false =>
          simp only [hfrozen, FamilyCore.conclude_open hopen] at hverdict
          cases hverdict
          exact .freeze
  | conclude status origin =>
      rw [recordStep, FamilyCore.conclude_open hopen] at hverdict
      cases hverdict
      exact .conclude status origin

/-- A running case is only concluded by an operation that attempts it. -/
theorem step_attempts {state next : TestCaseFamily Rng}
    {request : StreamRequest} {reply : StreamReply} {verdict : Outcome}
    (hopen : state.family.conclusion = none)
    (hanswer : step sampler state request = .ok (reply, next))
    (hverdict : next.family.conclusion = some verdict) :
    request.op.Attempts verdict := by
  cases hop : request.op with
  | record op =>
      rw [step] at hanswer
      cases hstream : state.streams[request.handle]? with
      | none =>
          simp only [hstream] at hanswer
          cases hanswer
          simp [hopen] at hverdict
      | some stream =>
          simp only [hstream, hop] at hanswer
          cases hanswer
          exact recordStep_attempts hopen hverdict
  | draw op =>
      cases step_cases hanswer with
      | unchanged => simp [hopen] at hverdict
      | overran draws =>
          cases hverdict
          exact .overrunDraw op
      | drew =>
          rw [FamilyCore.register_conclusion] at hverdict
          exact absurd (hopen.symm.trans hverdict) (by simp)
      | tooDeep hstream hclone => simp [hop] at hclone
      | cloned => exact absurd (hopen.symm.trans hverdict) (by simp)
      | recorded hstream hrecord => simp [hop] at hrecord
  | cloneStream =>
      cases step_cases hanswer with
      | unchanged => simp [hopen] at hverdict
      | overran draws =>
          cases hverdict
          exact .overrunClone
      | drew =>
          rw [FamilyCore.register_conclusion] at hverdict
          exact absurd (hopen.symm.trans hverdict) (by simp)
      | tooDeep =>
          cases hverdict
          exact .deepClone
      | cloned => exact absurd (hopen.symm.trans hverdict) (by simp)
      | recorded hstream hrecord => simp [hop] at hrecord

/-- An explicit verdict on a running case becomes its conclusion. -/
theorem step_conclude {state : TestCaseFamily Rng} {handle : Nat}
    {stream : NativeTestCase Rng}
    (hstream : state.streams[handle]? = some stream)
    (hopen : state.family.conclusion = none) (status : Status)
    (origin : Option String) :
    ∃ next, step sampler state ⟨handle, .record (.conclude status origin)⟩ =
        .ok (.done, next) ∧
      next.family.conclusion = some (status, origin) := by
  simp only [step, hstream, recordStep, FamilyCore.conclude_open hopen]
  exact ⟨_, rfl, rfl⟩

end Attempts

namespace TestCaseFamily

/-- The choices recorded over all streams. -/
def totalNodes (state : TestCaseFamily Rng) : Nat :=
  (state.streams.map fun stream => stream.record.nodes.length).sum

theorem sum_map_set {Value : Type} (size : Value → Nat) {values : List Value}
    {idx : Nat} {value : Value} (hvalue : values[idx]? = some value)
    (value' : Value) :
    ((values.set idx value').map size).sum + size value =
      (values.map size).sum + size value' := by
  induction values generalizing idx with
  | nil => cases hvalue
  | cons head rest ih =>
      cases idx with
      | zero =>
          cases hvalue
          simp only [List.set_cons_zero, List.map_cons, List.sum_cons]
          omega
      | succ idx =>
          have hrest := ih hvalue
          simp only [List.set_cons_succ, List.map_cons, List.sum_cons]
          omega

/-- One stream is replaced by one that recorded more. -/
theorem totalNodes_set {state : TestCaseFamily Rng} {handle more : Nat}
    {stream stream' : NativeTestCase Rng}
    (hstream : state.streams[handle]? = some stream)
    (hmore : stream'.record.nodes.length = stream.record.nodes.length + more)
    (family : FamilyCore) :
    totalNodes ⟨family, state.streams.set handle stream'⟩ =
      state.totalNodes + more := by
  have hsum := sum_map_set
    (fun stream : NativeTestCase Rng => stream.record.nodes.length) hstream
    stream'
  simp only [hmore] at hsum
  simp only [totalNodes]
  omega

/-- A clone is one more choice of its parent; its own stream is empty. -/
theorem totalNodes_addClone {state : TestCaseFamily Rng} {handle : Nat}
    {stream : NativeTestCase Rng}
    (hstream : state.streams[handle]? = some stream)
    (childRng : Option Rng) (input : StreamInput Rng) :
    (state.addClone handle stream childRng input).totalNodes =
      state.totalNodes + 1 := by
  have hset : totalNodes ⟨state.family.counted,
      state.streams.set handle
        ⟨stream.record.pushClone state.streams.length, input⟩⟩ =
      state.totalNodes + 1 :=
    totalNodes_set hstream (List.length_append ..) _
  rw [← hset, totalNodes, totalNodes, addClone, List.map_append,
    List.sum_append]
  rfl

theorem Thins.totalNodes {state later : TestCaseFamily Rng}
    (hthins : state.Thins later) : later.totalNodes = state.totalNodes := by
  rw [TestCaseFamily.totalNodes, TestCaseFamily.totalNodes]
  congr 1
  apply List.ext_getElem?
  intro handle
  rw [List.getElem?_map, List.getElem?_map]
  cases hstream : state.streams[handle]? with
  | none =>
      rw [List.getElem?_eq_none_iff, ← hthins.length,
        ← List.getElem?_eq_none_iff] at hstream
      rw [hstream]
  | some stream =>
      obtain ⟨stream', hstream', hthinned⟩ :=
        hthins.streams handle stream hstream
      rw [hstream', Option.map_some, Option.map_some, hthinned.length]

theorem reassemble_open {state : TestCaseFamily Rng}
    (hopen : state.family.conclusion = none) (handle : Nat) :
    state.reassemble handle = state := by
  rw [reassemble, reassembleStream]
  cases state.streams[handle]? with
  | none => rfl
  | some stream => simp only [FamilyCore.status_open hopen, Option.isNone_none, if_true]

theorem thins_reassemble (state : TestCaseFamily Rng) (handle : Nat) :
    state.Thins (state.reassemble handle) := by
  cases hconcluded : state.family.conclusion with
  | none =>
      rw [reassemble_open hconcluded]
      exact .refl state
  | some verdict =>
      exact thins_reassembleStream (Option.isSome_of_eq_some hconcluded) _ _

/-- What holds of a test case at every moment: its streams are in layers, and
together they recorded no more than was drawn and no more than the budget. -/
structure Accounted (state : TestCaseFamily Rng) : Prop where
  layered : state.Layered
  drawn : state.totalNodes ≤ state.family.totalDraws
  within : state.totalNodes ≤ state.family.budget

theorem accounted_start (input : StreamInput Rng) (budget : Nat) :
    (start input budget).Accounted where
  layered := layered_start input budget
  drawn := le_refl _
  within := Nat.zero_le _

theorem Layered.thins {state later : TestCaseFamily Rng}
    (hlayered : state.Layered) (hthins : state.Thins later) :
    later.Layered := by
  have hback : ∀ stream ∈ later.streams, ∃ stream₀ ∈ state.streams,
      stream₀.record.Thins stream.record := by
    intro stream hstream
    obtain ⟨handle, hlt, rfl⟩ := List.mem_iff_getElem.mp hstream
    rw [hthins.length] at hlt
    obtain ⟨stream', hstream', hthinned⟩ :=
      hthins.streams handle _ (List.getElem?_eq_getElem hlt)
    obtain ⟨hlt', heq⟩ := List.getElem?_eq_some_iff.mp hstream'
    rw [heq]
    exact ⟨_, List.getElem_mem hlt, hthinned⟩
  constructor
  · intro stream hstream child hchild
    obtain ⟨stream₀, hstream₀, hthinned⟩ := hback stream hstream
    have hchild₀ : child ∈ stream₀.record.cloneChildren := by
      rcases hthinned.cloneChildren with hsame | hempty
      · rwa [← hsame]
      · rw [hempty] at hchild
        cases hchild
    obtain ⟨hpos, below, hbelow, hlevel⟩ :=
      hlayered.children stream₀ hstream₀ child hchild₀
    obtain ⟨below', hbelow', hthinned'⟩ :=
      hthins.streams child.2 below hbelow
    exact ⟨hpos, below', hbelow', by
      rw [hthinned'.cloneId, hthinned.cloneId, hlevel]⟩
  · intro stream hstream
    obtain ⟨stream₀, hstream₀, hthinned⟩ := hback stream hstream
    rw [hthinned.cloneId]
    exact hlayered.depth stream₀ hstream₀

theorem accounted_answered {state next : TestCaseFamily Rng}
    {request : StreamRequest} {reply : StreamReply}
    (haccounted : state.Accounted)
    (hanswer : step sampler state request = .ok (reply, next)) :
    next.Accounted := by
  obtain ⟨hlayered, hdrawn, hwithin⟩ := haccounted
  have hnext := layered_step hlayered hanswer
  cases step_cases hanswer with
  | unchanged => exact ⟨hlayered, hdrawn, hwithin⟩
  | overran draws hopen hdraws => exact ⟨hnext, hdrawn.trans hdraws, hwithin⟩
  | @drew stream op drawRequest drawn input wasForced hstream hrequest hopen
      hbudget hproduces =>
      have hmore : (stream.recordDrawn input drawn
          wasForced).record.nodes.length = stream.record.nodes.length + 1 :=
        List.length_append ..
      have htotal := totalNodes_set hstream hmore
        (state.family.counted.register drawn)
      refine ⟨hnext, ?_, ?_⟩
      · rw [htotal, FamilyCore.register_totalDraws]
        exact Nat.succ_le_succ hdrawn
      · rw [htotal, FamilyCore.register_budget]
        exact Nat.succ_le_of_lt (Nat.lt_of_le_of_lt hdrawn hbudget)
  | @tooDeep stream hstream hop hopen hbudget hdepth =>
      have htotal : totalNodes ⟨state.family.counted.withConclusion .invalid none,
          state.streams.set request.handle
            ⟨stream.record.freeze, stream.input⟩⟩ = state.totalNodes + 0 :=
        totalNodes_set hstream
          (congrArg List.length stream.record.sameTree_freeze.nodes) _
      refine ⟨hnext, ?_, ?_⟩
      · rw [htotal]
        exact hdrawn.trans (Nat.le_succ _)
      · rw [htotal]
        exact hwithin
  | @cloned stream childRng input hstream hopen hbudget hdepth =>
      have htotal : (state.addClone request.handle stream childRng
          input).totalNodes = state.totalNodes + 1 :=
        totalNodes_addClone hstream childRng input
      refine ⟨hnext, ?_, ?_⟩
      · rw [htotal]
        exact Nat.succ_le_succ hdrawn
      · rw [htotal]
        exact Nat.succ_le_of_lt (Nat.lt_of_le_of_lt hdrawn hbudget)
  | @recorded stream op family record hstream hop hrecorded hfamily hrecord =>
      have htotal : totalNodes ⟨family, state.streams.set request.handle
          ⟨record, stream.input⟩⟩ = state.totalNodes + 0 :=
        totalNodes_set hstream (congrArg List.length hrecord.nodes) _
      refine ⟨hnext, ?_, ?_⟩
      · rw [htotal, hfamily.same]
        exact hdrawn
      · rw [htotal, hfamily.same]
        exact hwithin

theorem accounted_familyStep {state next : TestCaseFamily Rng}
    (haccounted : state.Accounted) (hstep : FamilyStep sampler state next) :
    next.Accounted := by
  cases hstep with
  | answered hanswer => exact accounted_answered haccounted hanswer
  | reassembled handle =>
      have hthins := state.thins_reassemble handle
      obtain ⟨hlayered, hdrawn, hwithin⟩ := haccounted
      refine ⟨hlayered.thins hthins, ?_, ?_⟩
      · rw [hthins.totalNodes, hthins.family]
        exact hdrawn
      · rw [hthins.totalNodes, hthins.family]
        exact hwithin

theorem accounted_of_familyReaches {input : StreamInput Rng} {budget : Nat}
    {state : TestCaseFamily Rng}
    (hreaches : FamilyReaches sampler (start input budget) state) :
    state.Accounted := by
  induction hreaches with
  | refl => exact accounted_start input budget
  | tail _ hstep ih => exact accounted_familyStep ih hstep

/-- The budget is the one the case was started with. -/
theorem budget_of_familyReaches {state later : TestCaseFamily Rng}
    (hreaches : FamilyReaches sampler state later) :
    later.family.budget = state.family.budget := by
  induction hreaches with
  | refl => rfl
  | tail _ hstep ih =>
      rw [← ih]
      cases hstep with
      | answered hanswer => exact (grows_step hanswer).budget
      | reassembled handle => rw [(thins_reassemble _ handle).family]

/-- What stays of a concluded case: the conclusion, and the nodes of streams
whose clones were taken. -/
structure Settled (state later : TestCaseFamily Rng) : Prop where
  conclusion : later.family.conclusion = state.family.conclusion
  keeps : state.Follows StreamRecord.Keeps later

theorem settled_familyStep {state next : TestCaseFamily Rng}
    {verdict : Outcome} (hconcluded : state.family.conclusion = some verdict)
    (hstep : FamilyStep sampler state next) : state.Settled next := by
  cases hstep with
  | answered hanswer =>
      obtain ⟨hstands, hsame⟩ := (grows_step hanswer).concluded verdict hconcluded
      refine ⟨hstands.trans hconcluded.symm, ?_⟩
      intro handle stream hstream
      obtain ⟨stream', hstream', htree⟩ := hsame handle stream hstream
      exact ⟨stream', hstream', htree.keeps⟩
  | reassembled handle =>
      refine ⟨by rw [(state.thins_reassemble handle).family], ?_⟩
      exact keeps_reassembleStream (Option.isSome_of_eq_some hconcluded) _ _

theorem settled_of_familyReaches {state later : TestCaseFamily Rng}
    {verdict : Outcome} (hconcluded : state.family.conclusion = some verdict)
    (hreaches : FamilyReaches sampler state later) : state.Settled later := by
  induction hreaches with
  | refl => exact ⟨rfl, .of_streams StreamRecord.Keeps.refl rfl⟩
  | tail _ hstep ih =>
      have hnext :=
        settled_familyStep (ih.conclusion.trans hconcluded) hstep
      exact ⟨hnext.conclusion.trans ih.conclusion,
        ih.keeps.trans (fun _ _ _ => StreamRecord.Keeps.trans) hnext.keeps⟩

/-- A stream that putting `handle` together takes a snapshot of: the stream
itself and, recursively, the clones of every such stream. -/
inductive Snapshots (state : TestCaseFamily Rng) (handle : Nat) :
    Nat → Prop where
  | self : Snapshots state handle handle
  | clone {parent : Nat} {above : NativeTestCase Rng} {child : Nat × Nat}
      (hparent : Snapshots state handle parent)
      (habove : state.streams[parent]? = some above)
      (hchild : child ∈ above.record.cloneChildren) :
      Snapshots state handle child.2

/-- Every stream that was snapshotted has its clones taken. -/
theorem snapshots_drained {state : TestCaseFamily Rng}
    (hlayered : state.Layered) (hconcluded : state.family.conclusion.isSome)
    {handle snapshot : Nat} (hsnapshot : state.Snapshots handle snapshot)
    (hhandle : handle < state.streams.length) :
    (state.reassemble handle).Drained snapshot := by
  have hstream := List.getElem?_eq_getElem hhandle
  have hclosed : ClosedBelow state [] state := by
    intro other stream _ hother hdrained child hchild
    obtain ⟨stream', hstream', hempty⟩ := hdrained
    rw [hother, Option.some.injEq] at hstream'
    rw [hstream', hempty] at hchild
    cases hchild
  have hdepth := hlayered.depth _ (List.mem_of_getElem? hstream)
  obtain ⟨hbelow, hself⟩ := closedBelow_reassembleStream hlayered hconcluded
    (.refl state) hclosed hstream (Nat.le_add_right (maxCloneDepth + 1) _)
  induction hsnapshot with
  | self => exact hself
  | clone hparent habove hchild ih =>
      exact hbelow _ _ List.not_mem_nil habove ih _ hchild

end TestCaseFamily

/-- What a test case keeps to, whatever its streams do from here on. -/
structure ConcludesOnce (sampler : Sampler Rng) (budget : Nat)
    (state : TestCaseFamily Rng) : Prop where
  /-- The status that is read without the lock is that of the conclusion. -/
  mirror : state.family.status = state.family.conclusion.map Prod.fst
  /-- All streams together recorded no more than the budget. -/
  within : state.totalNodes ≤ budget
  /-- A running case takes the verdict that the operation attempts. -/
  first : state.family.conclusion = none →
    ∀ request reply next verdict,
      step sampler state request = .ok (reply, next) →
        next.family.conclusion = some verdict → request.op.Attempts verdict
  /-- An explicit verdict is not turned down by a running case. -/
  wins : state.family.conclusion = none →
    ∀ handle stream status origin, state.streams[handle]? = some stream →
      ∃ next, step sampler state ⟨handle, .record (.conclude status origin)⟩ =
          .ok (.done, next) ∧
        next.family.conclusion = some (status, origin)
  /-- A conclusion never changes. -/
  stands : ∀ verdict, state.family.conclusion = some verdict →
    ∀ later, FamilyReaches sampler state later →
      later.family.conclusion = some verdict
  /-- Nothing changes the nodes of a stream that was put together. -/
  snapshot : state.family.conclusion.isSome →
    ∀ handle snapshot stream, handle < state.streams.length →
      state.Snapshots handle snapshot →
        (state.reassemble handle).streams[snapshot]? = some stream →
          ∀ later, FamilyReaches sampler (state.reassemble handle) later →
            ∃ stream' : NativeTestCase Rng,
              later.streams[snapshot]? = some stream' ∧
                stream'.record.nodes = stream.record.nodes

/-- From the start of any test case on, in every order of operations, the
first conclusion stands, the budget holds over all streams, and snapshots are
final. -/
theorem family_concludes_once {input : StreamInput Rng} {budget : Nat}
    {state : TestCaseFamily Rng}
    (hreaches : FamilyReaches sampler (.start input budget) state) :
    ConcludesOnce sampler budget state := by
  have haccounted := TestCaseFamily.accounted_of_familyReaches hreaches
  constructor
  · exact state.family.mirrored
  · have hwithin := haccounted.within
    rw [TestCaseFamily.budget_of_familyReaches hreaches] at hwithin
    exact hwithin.trans (Nat.min_le_left _ _)
  · intro hopen request reply next verdict hanswer hverdict
    exact step_attempts hopen hanswer hverdict
  · intro hopen handle stream status origin hstream
    exact step_conclude hstream hopen status origin
  · intro verdict hverdict later hlater
    rw [(TestCaseFamily.settled_of_familyReaches hverdict hlater).conclusion]
    exact hverdict
  · intro hconcluded handle snapshot stream hhandle hsnapshot hstream later
      hlater
    obtain ⟨verdict, hverdict⟩ := Option.isSome_iff_exists.mp hconcluded
    obtain ⟨stream₀, hstream₀, hempty⟩ := TestCaseFamily.snapshots_drained
      haccounted.layered hconcluded hsnapshot hhandle
    rw [hstream, Option.some.injEq] at hstream₀
    subst hstream₀
    have hverdict' : (state.reassemble handle).family.conclusion =
        some verdict := by
      rw [(state.thins_reassemble handle).family, hverdict]
    obtain ⟨stream', hstream', hkeeps⟩ :=
      (TestCaseFamily.settled_of_familyReaches hverdict' hlater).keeps snapshot
        stream hstream
    exact ⟨stream', hstream', (hkeeps hempty).2⟩

/-- A clone fails first; the root's verdict comes too late, and putting the
root together stores the clone's choice in it. -/
theorem family_concludes_once_sample :
    ∃ state : TestCaseFamily Unit,
      FamilyReaches Sampler.simplest
        (.start ⟨[], none, none, 8, some ⟨.simplest, none⟩⟩ 8) state ∧
      state.family.conclusion = some (.interesting, some "clone") ∧
      state.records.map (fun record => flattenedLen record.nodes) = [2, 1] ∧
      ConcludesOnce Sampler.simplest 8 state := by
  have hreaches : FamilyReaches Sampler.simplest
      (.start ⟨[], none, none, 8, some ⟨.simplest, none⟩⟩ 8) _ :=
    .tail (.tail (.tail (.tail (.tail .refl
      (@FamilyStep.answered _ _ _ ⟨0, .cloneStream⟩ _ _ rfl))
      (@FamilyStep.answered _ _ _ ⟨1, .draw (.integer 0 3)⟩ _ _ rfl))
      (@FamilyStep.answered _ _ _
        ⟨1, .record (.conclude .interesting (some "clone"))⟩ _ _ rfl))
      (@FamilyStep.answered _ _ _ ⟨0, .record (.conclude .valid none)⟩ _ _ rfl))
      (.reassembled 0)
  exact ⟨_, hreaches, rfl, rfl, family_concludes_once hreaches⟩

end Hegel
