/-
The spans that an executed test case reports.  The streams cloned during a run
are frozen when the streams are put together again, which closes their open
spans; the root is not, so that a span left open on it keeps the width it was
opened with.
-/
import Hegel.SpanForest

namespace Hegel

variable {Rng : Type} {sampler : Sampler Rng}

/-- What a result reports for a stream: its own nodes and spans for the root,
those within the clone node of its parent for every other stream. -/
inductive Reported (state : TestCaseFamily Rng) (run : RunResult) :
    Nat → List ChoiceNode → List Span → Prop where
  | root : Reported state run 0 run.nodes run.spans
  | clone {parent idx handle : Nat} {nodes : List ChoiceNode}
      {spans : List Span} {above : NativeTestCase Rng}
      {realized : RealizedStream} {wasForced : Bool}
      (hparent : Reported state run parent nodes spans)
      (habove : state.streams[parent]? = some above)
      (hchild : (idx, handle) ∈ above.record.cloneChildren)
      (hnode : nodes[idx]? = some (.mk (.clone realized) wasForced)) :
      Reported state run handle realized.nodes realized.spans

/-- Every span that was open in a state of the run is reported with its end at
the last choice of its stream. -/
def OpenSpansClosed (concluding final : TestCaseFamily Rng)
    (run : RunResult) : Prop :=
  ∀ (handle : Nat) (stream : NativeTestCase Rng),
    concluding.streams[handle]? = some stream →
      (∃ nodes spans, Reported final run handle nodes spans) ∧
      ∀ nodes spans, Reported final run handle nodes spans →
        ∀ idx ∈ stream.record.spanStack, ∃ span : Span,
          spans[idx]? = some span ∧ span.stop = nodes.length

/-- Nothing was recorded on the root within the spans still open on it. -/
def RootSpansEmpty (final : TestCaseFamily Rng) : Prop :=
  ∀ root : NativeTestCase Rng, final.streams[0]? = some root →
    ∀ idx ∈ root.record.spanStack, ∀ span : Span,
      root.record.spans[idx]? = some span →
        span.start = root.record.nodes.length

namespace StreamRecord

/-- What can happen to the spans of a record that takes no more choices. -/
structure Settles (record later : StreamRecord) : Prop where
  nodes : later.nodes = record.nodes
  length : record.spans.length ≤ later.spans.length
  kept : ∀ (idx : Nat) (span : Span), later.spans[idx]? = some span →
    (record.spans.length ≤ idx ∧ span.start = record.nodes.length) ∨
      ∃ before : Span, record.spans[idx]? = some before ∧
        span.start = before.start ∧
          (span.stop = before.stop ∨ span.stop = record.nodes.length)
  closed : ∀ idx ∈ record.spanStack, idx ∈ later.spanStack ∨
    ∃ span : Span, later.spans[idx]? = some span ∧
      span.stop = record.nodes.length
  opened : ∀ idx ∈ later.spanStack,
    idx ∈ record.spanStack ∨ record.spans.length ≤ idx

namespace Settles

theorem refl (record : StreamRecord) : record.Settles record where
  nodes := rfl
  length := le_refl _
  kept _ span hspan := .inr ⟨span, hspan, rfl, .inl rfl⟩
  closed _ hidx := .inl hidx
  opened _ hidx := .inl hidx

theorem trans {first second third : StreamRecord}
    (hfirst : first.Settles second) (hsecond : second.Settles third) :
    first.Settles third where
  nodes := hsecond.nodes.trans hfirst.nodes
  length := hfirst.length.trans hsecond.length
  kept idx span hspan := by
    have hnodes := congrArg List.length hfirst.nodes
    rcases hsecond.kept idx span hspan with
      ⟨hnew, hstart⟩ | ⟨mid, hmid, hstart, hstop⟩
    · exact .inl ⟨hfirst.length.trans hnew, hstart.trans hnodes⟩
    · rcases hfirst.kept idx mid hmid with
        ⟨hnew, hstart'⟩ | ⟨before, hbefore, hstart', hstop'⟩
      · exact .inl ⟨hnew, hstart.trans hstart'⟩
      · refine .inr ⟨before, hbefore, hstart.trans hstart', ?_⟩
        rcases hstop with hstop | hstop
        · rw [hstop]
          exact hstop'
        · exact .inr (hstop.trans hnodes)
  closed idx hidx := by
    have hnodes := congrArg List.length hfirst.nodes
    rcases hfirst.closed idx hidx with hopen | ⟨mid, hmid, hstop⟩
    · rcases hsecond.closed idx hopen with hopen' | ⟨span, hspan, hstop⟩
      · exact .inl hopen'
      · exact .inr ⟨span, hspan, hstop.trans hnodes⟩
    · right
      have hlt := (List.getElem?_eq_some_iff.mp hmid).1
      have hspan := List.getElem?_eq_getElem (hlt.trans_le hsecond.length)
      refine ⟨_, hspan, ?_⟩
      rcases hsecond.kept idx _ hspan with
        ⟨hnew, -⟩ | ⟨mid', hmid', -, hsame | hlast⟩
      · omega
      · rw [hmid, Option.some.injEq] at hmid'
        rw [hsame, ← hmid', hstop]
      · exact hlast.trans hnodes
  opened idx hidx := by
    rcases hsecond.opened idx hidx with hopen | hnew
    · exact hfirst.opened idx hopen
    · exact .inr (hfirst.length.trans hnew)

theorem startSpan {record : StreamRecord} (label : Nat) :
    record.Settles (record.startSpan label) where
  nodes := rfl
  length := by
    rw [StreamRecord.startSpan, List.length_append]
    exact Nat.le_add_right _ _
  kept idx span hspan := by
    rw [StreamRecord.startSpan, List.getElem?_append] at hspan
    split at hspan
    · exact .inr ⟨span, hspan, rfl, .inl rfl⟩
    · rename_i hge
      have hmem := List.mem_of_getElem? hspan
      rw [List.mem_singleton.mp hmem]
      exact .inl ⟨Nat.le_of_not_lt hge, rfl⟩
  closed idx hidx := .inl (List.mem_cons_of_mem _ hidx)
  opened idx hidx := by
    rcases List.mem_cons.mp hidx with rfl | hold
    · exact .inr (le_refl _)
    · exact .inl hold

theorem stopSpan {record : StreamRecord} (hnested : record.Nested)
    (discard : Bool) : record.Settles (record.stopSpan discard) := by
  rw [StreamRecord.stopSpan]
  cases hstack : record.spanStack with
  | nil => exact .refl record
  | cons top rest =>
      constructor
      · rfl
      · rw [List.length_modify]
      · intro idx span hspan
        right
        rw [List.getElem?_modify] at hspan
        obtain ⟨before, hbefore, rfl⟩ := Option.map_eq_some_iff.mp hspan
        refine ⟨before, hbefore, ?_⟩
        by_cases htop : top = idx <;> simp [htop]
      · intro idx hidx
        rw [hstack] at hidx
        rcases List.mem_cons.mp hidx with rfl | hrest
        · right
          obtain ⟨span, hspan, -⟩ := hnested.chain idx rest (by rw [hstack])
          rw [List.getElem?_modify_eq, hspan]
          exact ⟨_, rfl, rfl⟩
        · exact .inl hrest
      · intro idx hidx
        left
        rw [hstack]
        exact List.mem_cons_of_mem _ hidx

theorem freeze {record : StreamRecord} (hnested : record.Nested) :
    record.Settles record.freeze := by
  cases hfrozen : record.frozen with
  | true =>
      rw [freeze_of_frozen hfrozen]
      exact .refl record
  | false =>
      constructor
      · exact record.freeze_nodes
      · rw [freeze_spans record hfrozen, length_closedSpans]
      · intro idx span hspan
        right
        rw [freeze_spans record hfrozen, closedSpans_getElem?] at hspan
        obtain ⟨before, hbefore, rfl⟩ := Option.map_eq_some_iff.mp hspan
        refine ⟨before, hbefore, ?_⟩
        by_cases hopen : idx ∈ record.spanStack <;> simp [hopen]
      · intro idx hidx
        right
        obtain ⟨span, -, -, hspan, -⟩ := hnested.open_span hidx
        rw [freeze_spans record hfrozen, closedSpans_of_open hidx hspan]
        exact ⟨_, rfl, rfl⟩
      · intro idx hidx
        rw [StreamRecord.freeze, hfrozen] at hidx
        exact absurd hidx List.not_mem_nil

end Settles

end StreamRecord

section Steps

theorem freezeStream_settles {record : StreamRecord} (hnested : record.Nested)
    (family : FamilyCore) : record.Settles (freezeStream family record).2 := by
  rw [freezeStream]
  cases record.frozen with
  | true => exact .refl record
  | false => exact .freeze hnested

theorem recordStep_settles {record : StreamRecord} (hnested : record.Nested)
    (family : FamilyCore) (op : RecordOp) :
    record.Settles (recordStep family record op).2.2 := by
  cases op with
  | startSpan label =>
      rw [recordStep, startSpan]
      by_cases hdeep : record.spanStack.length + 1 > maxDepth
      · simp only [if_pos hdeep]
        exact (StreamRecord.Settles.startSpan label).trans
          (freezeStream_settles (hnested.startSpan label) _)
      · simp only [if_neg hdeep]
        exact .startSpan label
  | stopSpan discard => exact .stopSpan hnested discard
  | freeze => exact freezeStream_settles hnested family
  | conclude status origin => exact .refl record

namespace TestCaseFamily

/-- In a concluded case only spans change. -/
theorem settles_step {state next : TestCaseFamily Rng}
    {request : StreamRequest} {reply : StreamReply} (hnested : state.Nested)
    (hconcluded : state.family.conclusion.isSome)
    (hanswer : step sampler state request = .ok (reply, next)) :
    state.Follows StreamRecord.Settles next := by
  have habsurd : state.family.conclusion ≠ none := by
    intro hopen
    rw [hopen] at hconcluded
    cases hconcluded
  cases step_cases hanswer with
  | unchanged => exact .of_streams StreamRecord.Settles.refl rfl
  | overran draws hopen => exact absurd hopen habsurd
  | drew drawn input wasForced hstream hrequest hopen =>
      exact absurd hopen habsurd
  | tooDeep hstream hop hopen => exact absurd hopen habsurd
  | cloned childRng input hstream hopen => exact absurd hopen habsurd
  | @recorded stream op family record hstream hop hrecorded hfamily hrecord =>
      have hmem := List.mem_of_getElem? hstream
      have hsettles :=
        recordStep_settles (hnested.records stream hmem) state.family op
      rw [hrecorded] at hsettles
      exact .of_set StreamRecord.Settles.refl hstream hsettles
        (List.append_nil _).symm

theorem settles_of_reaches {state final : TestCaseFamily Rng}
    (hnested : state.Nested) (hconcluded : state.family.conclusion.isSome)
    (hreaches : Interaction.Reaches (step sampler) state final) :
    state.Follows StreamRecord.Settles final := by
  have hall : final.Nested ∧ final.family.conclusion.isSome ∧
      state.Follows StreamRecord.Settles final := by
    induction hreaches with
    | refl =>
        exact ⟨hnested, hconcluded, .of_streams StreamRecord.Settles.refl rfl⟩
    | tail _ hlast ih =>
        obtain ⟨request, reply, hanswer⟩ := hlast
        obtain ⟨hnested, hconcluded, hsettles⟩ := ih
        obtain ⟨verdict, hverdict⟩ := Option.isSome_iff_exists.mp hconcluded
        refine ⟨nested_step hnested hanswer, ?_, ?_⟩
        · exact Option.isSome_of_eq_some
            ((grows_step hanswer).concluded verdict hverdict).1
        · exact hsettles.trans (fun _ _ _ => StreamRecord.Settles.trans)
            (settles_step hnested hconcluded hanswer)
  exact hall.2.2

end TestCaseFamily

end Steps

section Report

variable {input : StreamInput Rng} {budget : Nat}
  {final : TestCaseFamily Rng} {outcome : Outcome} {run : RunResult}

/-- What a clone's node in its parent holds. -/
theorem clone_reported
    (hreaches : Interaction.Reaches (step sampler) (.start input budget) final)
    {parent idx handle : Nat} {above : NativeTestCase Rng}
    (habove : final.streams[parent]? = some above)
    (hchild : (idx, handle) ∈ above.record.cloneChildren) :
    0 < handle ∧ ∃ (stream : NativeTestCase Rng) (wasForced : Bool),
      final.streams[handle]? = some stream ∧
      (final.realized above.record)[idx]? =
        some (.mk (.clone (.new (final.realized stream.record)
          stream.record.freeze.spans)) wasForced) := by
  have hmem := List.mem_of_getElem? habove
  have hrooted := TestCaseFamily.rooted_of_reaches hreaches
  have hordered :=
    (TestCaseFamily.ordered_of_reaches hreaches).children above hmem
  obtain ⟨hpos, below, hbelow, hlevel⟩ :=
    hrooted.layered.children above hmem _ hchild
  have hdepth := hrooted.layered.depth below (List.mem_of_getElem? hbelow)
  rw [hlevel] at hdepth
  have hnode := List.getElem?_eq_getElem (hordered.within _ hchild)
  exact ⟨hpos, below, _, hbelow,
    realized_child hordered hchild hnode hbelow hdepth hlevel⟩

/-- Whatever is reported for a stream is what it realizes in the end; only
the root's spans are not closed. -/
theorem reported_stream
    (hreaches : Interaction.Reaches (step sampler) (.start input budget) final)
    (htake : takeRun (final.markComplete outcome) = some run)
    {handle : Nat} {nodes : List ChoiceNode} {spans : List Span}
    (hreported : Reported final run handle nodes spans) :
    ∃ stream : NativeTestCase Rng, final.streams[handle]? = some stream ∧
      nodes = final.realized stream.record ∧
      spans = if handle = 0 then stream.record.spans
        else stream.record.freeze.spans := by
  induction hreported with
  | root =>
      obtain ⟨root, hroot, hnodes, hspans⟩ := takeRun_root hreaches htake
      exact ⟨root, hroot, hnodes, hspans⟩
  | clone hparent habove hchild hnode ih =>
      obtain ⟨stream, hstream, rfl, -⟩ := ih
      rw [habove, Option.some.injEq] at hstream
      subst hstream
      obtain ⟨hpos, below, wasForced, hbelow, hat⟩ :=
        clone_reported hreaches habove hchild
      rw [hat, Option.some.injEq] at hnode
      cases hnode
      exact ⟨below, hbelow, rfl, (if_neg (Nat.ne_of_gt hpos)).symm⟩

/-- Every stream is reported. -/
theorem stream_reported
    (hreaches : Interaction.Reaches (step sampler) (.start input budget) final)
    (htake : takeRun (final.markComplete outcome) = some run)
    {handle : Nat} {stream : NativeTestCase Rng}
    (hstream : final.streams[handle]? = some stream) :
    ∃ nodes spans, Reported final run handle nodes spans := by
  induction handle using Nat.strong_induction_on generalizing stream with
  | _ handle ih =>
      rcases Nat.eq_zero_or_pos handle with rfl | hpos
      · exact ⟨_, _, .root⟩
      · obtain ⟨parent, idx, above, hlt, habove, hchild⟩ :=
          (TestCaseFamily.rooted_of_reaches hreaches).parents handle stream
            hstream hpos
        obtain ⟨nodes, spans, hparent⟩ := ih parent hlt habove
        obtain ⟨above', habove', rfl, -⟩ := reported_stream hreaches htake hparent
        rw [habove, Option.some.injEq] at habove'
        subst habove'
        obtain ⟨-, below, wasForced, hbelow, hat⟩ :=
          clone_reported hreaches habove hchild
        exact ⟨_, _, .clone hparent habove hchild hat⟩

/-- A span that was open when the case was concluded is closed by freezing. -/
theorem freeze_closes {record later : StreamRecord} (hnested : later.Nested)
    (hsettles : record.Settles later) {idx : Nat}
    (hopen : idx ∈ record.spanStack) :
    ∃ span : Span, later.freeze.spans[idx]? = some span ∧
      span.stop = later.nodes.length := by
  cases hfrozen : later.frozen with
  | true =>
      rw [freeze_of_frozen hfrozen]
      rcases hsettles.closed idx hopen with hstill | ⟨span, hspan, hstop⟩
      · obtain ⟨span, -, -, hspan, -⟩ := hnested.open_span hstill
        have hstart := hnested.settled hfrozen idx hstill span hspan
        exact ⟨span, hspan,
          (hnested.placeholder idx hstill span hspan).trans hstart⟩
      · rw [hsettles.nodes]
        exact ⟨span, hspan, hstop⟩
  | false =>
      rw [StreamRecord.freeze_spans later hfrozen]
      by_cases hstill : idx ∈ later.spanStack
      · obtain ⟨span, -, -, hspan, -⟩ := hnested.open_span hstill
        exact ⟨_, StreamRecord.closedSpans_of_open hstill hspan, rfl⟩
      · rcases hsettles.closed idx hopen with hstill' | ⟨span, hspan, hstop⟩
        · exact absurd hstill' hstill
        · rw [StreamRecord.closedSpans_of_closed hstill, hsettles.nodes]
          exact ⟨span, hspan, hstop⟩

end Report

/-- The spans that were open in the state that concluded a run are all
reported closed if and only if nothing was recorded within the spans that are
still open on the root at the end. -/
theorem open_spans_reported_closed_iff {input : StreamInput Rng} {budget : Nat}
    {body : Body} {fuel : Nat}
    {finished : Finished (TestCaseFamily Rng) StreamReply Outcome}
    {run : RunResult} {concluding : TestCaseFamily Rng}
    (hrun : Interaction.run (step sampler) body fuel [] (.start input budget) =
      .ok (some finished))
    (htake : takeRun (finished.state.markComplete finished.verdict) = some run)
    (hbefore : Interaction.Reaches (step sampler) (.start input budget)
      concluding)
    (hafter : Interaction.Reaches (step sampler) concluding finished.state)
    (hconcluding : concluding.family.conclusion.isSome ∨
      concluding = finished.state) :
    OpenSpansClosed concluding finished.state run ↔
      RootSpansEmpty finished.state := by
  have hreaches := Interaction.reaches_of_run hrun
  have hnested := TestCaseFamily.nested_of_reaches hreaches
  have hsettles :
      concluding.Follows StreamRecord.Settles finished.state := by
    rcases hconcluding with hconcluded | rfl
    · exact TestCaseFamily.settles_of_reaches
        (TestCaseFamily.nested_of_reaches hbefore) hconcluded hafter
    · exact .of_streams StreamRecord.Settles.refl rfl
  constructor
  · intro hclosed root hroot idx hopen span hspan
    obtain ⟨before, hbefore, -⟩ :=
      (TestCaseFamily.grows_of_reaches hbefore).streams 0 _ rfl
    obtain ⟨root', hroot', hlater⟩ := hsettles 0 before hbefore
    rw [hroot, Option.some.injEq] at hroot'
    subst hroot'
    obtain ⟨root', hroot', hnodes, hspans⟩ := takeRun_root hreaches htake
    rw [hroot, Option.some.injEq] at hroot'
    subst hroot'
    have hstop := (hnested.records root (List.mem_of_getElem? hroot)).placeholder
      idx hopen span hspan
    rcases hlater.opened idx hopen with hold | hnew
    · obtain ⟨span', hspan', hend⟩ :=
        (hclosed 0 before hbefore).2 _ _ .root idx hold
      rw [hspans, hspan, Option.some.injEq] at hspan'
      rw [← hstop, hspan', hend, hnodes, TestCaseFamily.realized,
        StreamRecord.length_reassemble]
    · rcases hlater.kept idx span hspan with ⟨-, hstart⟩ | ⟨old, hold, -⟩
      · rw [hlater.nodes, hstart]
      · have hlt := (List.getElem?_eq_some_iff.mp hold).1
        omega
  · intro hempty handle stream hstream
    obtain ⟨stream', hstream', hlater⟩ := hsettles handle stream hstream
    have hrecord := hnested.records stream' (List.mem_of_getElem? hstream')
    refine ⟨stream_reported hreaches htake hstream', ?_⟩
    intro nodes spans hreported idx hopen
    obtain ⟨stream'', hstream'', rfl, rfl⟩ :=
      reported_stream hreaches htake hreported
    rw [hstream', Option.some.injEq] at hstream''
    subst hstream''
    rw [TestCaseFamily.realized, StreamRecord.length_reassemble]
    by_cases hroot : handle = 0
    · subst hroot
      rw [if_pos rfl]
      rcases hlater.closed idx hopen with hstill | ⟨span, hspan, hstop⟩
      · obtain ⟨span, -, -, hspan, -⟩ := hrecord.open_span hstill
        exact ⟨span, hspan, (hrecord.placeholder idx hstill span hspan).trans
          (hempty stream' hstream' idx hstill span hspan)⟩
      · rw [hlater.nodes]
        exact ⟨span, hspan, hstop⟩
    · rw [if_neg hroot]
      exact freeze_closes hrecord hlater hopen

/-- A body that fails within a span of a cloned stream. -/
def failingInClone : Body
  | [] => .request ⟨0, .cloneStream⟩
  | [_] => .request ⟨1, .record (.startSpan 5)⟩
  | [_, _] => .request ⟨1, .draw (.integer 0 3)⟩
  | _ => .stop (.interesting, some "failure")

/-- The open span of the clone is reported around the clone's choice. -/
theorem open_spans_reported_closed_iff_sample :
    ∃ (finished : Finished (TestCaseFamily Unit) StreamReply Outcome)
      (run : RunResult),
      Interaction.run (step Sampler.simplest) failingInClone 4 []
          (.start ⟨[], none, none, 8, some ⟨.simplest, none⟩⟩ 8) =
        .ok (some finished) ∧
      takeRun (finished.state.markComplete finished.verdict) = some run ∧
      finished.state.records.map StreamRecord.spanStack = [[], [0]] ∧
      OpenSpansClosed finished.state finished.state run := by
  have hrun : Interaction.run (step Sampler.simplest) failingInClone 4 []
      (.start ⟨[], none, none, 8, some ⟨.simplest, none⟩⟩ 8) =
        .ok (some _) := rfl
  refine ⟨_, _, hrun, rfl, rfl, ?_⟩
  apply (open_spans_reported_closed_iff hrun rfl
    (Interaction.reaches_of_run hrun) .refl (.inr rfl)).mpr
  intro root hroot idx hidx
  cases hroot
  cases hidx

/-- A body that fails within a span of the root. -/
def failingInSpan : Body
  | [] => .request ⟨0, .record (.startSpan 5)⟩
  | [_] => .request ⟨0, .draw (.integer 0 3)⟩
  | _ => .stop (.interesting, some "failure")

/-- The open span of the root is reported without the root's choice. -/
theorem open_span_reported_empty :
    ∃ (finished : Finished (TestCaseFamily Unit) StreamReply Outcome)
      (run : RunResult),
      Interaction.run (step Sampler.simplest) failingInSpan 3 []
          (.start ⟨[.integer 2], none, none, 1, none⟩ 8) =
        .ok (some finished) ∧
      takeRun (finished.state.markComplete finished.verdict) = some run ∧
      run.nodes.length = 1 ∧
      run.spans = [⟨0, 0, toString 5, 0, none, false⟩] ∧
      ¬ OpenSpansClosed finished.state finished.state run := by
  refine ⟨_, _, rfl, rfl, rfl, rfl, ?_⟩
  intro hclosed
  obtain ⟨span, hspan, hstop⟩ :=
    (hclosed 0 _ rfl).2 _ _ .root 0 List.mem_cons_self
  cases hspan
  cases hstop

end Hegel
