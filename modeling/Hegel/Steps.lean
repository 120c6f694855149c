/-
What one answered request does to a test case: nothing, a conclusion, one more
node, one more stream, or a change of spans.  Every invariant of runs is read
off this list.
-/
import Hegel.DrawLaws
import Hegel.Streams

namespace Hegel

variable {Rng : Type}

namespace FamilyCore

/-- The family after a draw was counted. -/
def counted (family : FamilyCore) : FamilyCore :=
  { family with totalDraws := family.totalDraws + 1 }

/-- The family after it ran out of data. -/
def overran (family : FamilyCore) (draws : Nat) : FamilyCore :=
  { family.withConclusion .earlyStop none with totalDraws := draws }

@[simp] theorem register_conclusion (family : FamilyCore) (drawn : Drawn) :
    (family.register drawn).conclusion = family.conclusion := by
  rw [register]
  cases drawn.freshId <;> rfl

@[simp] theorem register_totalDraws (family : FamilyCore) (drawn : Drawn) :
    (family.register drawn).totalDraws = family.totalDraws := by
  rw [register]
  cases drawn.freshId <;> rfl

@[simp] theorem register_budget (family : FamilyCore) (drawn : Drawn) :
    (family.register drawn).budget = family.budget := by
  rw [register]
  cases drawn.freshId <;> rfl

theorem register_freshIds {family family' : FamilyCore} (drawn : Drawn)
    (hids : family'.freshIds = family.freshIds) :
    (family'.register drawn).freshIds = (family.register drawn).freshIds := by
  rw [register, register]
  cases drawn.freshId with
  | none => exact hids
  | some id => simp only [hids]

theorem status_open {family : FamilyCore}
    (hopen : family.conclusion = none) : family.status = none := by
  rw [status, family.mirrored, hopen]
  rfl

theorem status_concluded {family : FamilyCore} {verdict : Outcome}
    (hconcluded : family.conclusion = some verdict) :
    family.status = some verdict.1 := by
  rw [status, family.mirrored, hconcluded]
  rfl

theorem conclude_open {family : FamilyCore} (hopen : family.conclusion = none)
    (status : Status) (origin : Option String) :
    family.conclude status origin =
      family.withConclusion status origin := by
  rw [conclude, hopen]

theorem conclude_concluded {family : FamilyCore} {verdict : Outcome}
    (hconcluded : family.conclusion = some verdict) (status : Status)
    (origin : Option String) : family.conclude status origin = family := by
  rw [conclude, hconcluded]

theorem conclude_isSome (family : FamilyCore) (status : Status)
    (origin : Option String) :
    (family.conclude status origin).conclusion.isSome := by
  cases hconcluded : family.conclusion with
  | none =>
      rw [conclude_open hconcluded]
      rfl
  | some verdict =>
      rw [conclude_concluded hconcluded, hconcluded]
      rfl

end FamilyCore

section PreChoice

variable {family : FamilyCore} {stream : NativeTestCase Rng}

theorem preChoice_concluded {status : Status} {origin : Option String}
    (hconcluded : family.conclusion = some (status, origin)) :
    preChoice family stream = (.error (refusal status), family) := by
  rw [preChoice, FamilyCore.status_concluded hconcluded]

theorem preChoice_full (hopen : family.conclusion = none)
    (hfull : stream.input.maxSize ≤ stream.record.nodes.length) :
    preChoice family stream =
      (.error .overrun, family.overran family.totalDraws) := by
  rw [preChoice, FamilyCore.status_open hopen]
  simp only [ge_iff_le, if_pos hfull]
  rw [family.conclude_open hopen]
  rfl

theorem preChoice_taken (hopen : family.conclusion = none)
    (hroom : stream.record.nodes.length < stream.input.maxSize)
    (hbudget : family.totalDraws < family.budget) :
    preChoice family stream = (.ok (), family.counted) := by
  rw [preChoice, FamilyCore.status_open hopen]
  simp only [ge_iff_le, if_neg (Nat.not_le.mpr hroom)]
  simp only [FamilyCore.tryTakeDraw, hbudget, decide_true, if_true]
  rfl

/-- Reserving a choice is refused, overruns, or takes one draw. -/
inductive PreChoice (family : FamilyCore) (stream : NativeTestCase Rng) :
    Except EngineError Unit × FamilyCore → Prop where
  | refused {status : Status} {origin : Option String}
      (hconcluded : family.conclusion = some (status, origin)) :
      PreChoice family stream (.error (refusal status), family)
  | overran (draws : Nat) (hopen : family.conclusion = none)
      (hdraws : family.totalDraws ≤ draws) :
      PreChoice family stream (.error .overrun, family.overran draws)
  | taken (hopen : family.conclusion = none)
      (hroom : stream.record.nodes.length < stream.input.maxSize)
      (hbudget : family.totalDraws < family.budget) :
      PreChoice family stream (.ok (), family.counted)

theorem preChoice_cases (family : FamilyCore) (stream : NativeTestCase Rng) :
    PreChoice family stream (preChoice family stream) := by
  cases hconcluded : family.conclusion with
  | some verdict =>
      rw [preChoice_concluded hconcluded]
      exact .refused hconcluded
  | none =>
      by_cases hfull : stream.input.maxSize ≤ stream.record.nodes.length
      · rw [preChoice_full hconcluded hfull]
        exact .overran _ hconcluded (le_refl _)
      · by_cases hbudget : family.totalDraws < family.budget
        · rw [preChoice_taken hconcluded (Nat.lt_of_not_le hfull) hbudget]
          exact .taken hconcluded (Nat.lt_of_not_le hfull) hbudget
        · have hspent : preChoice family stream =
              (.error .overrun, family.overran (family.totalDraws + 1)) := by
            rw [preChoice, FamilyCore.status_open hconcluded]
            simp only [ge_iff_le, if_neg hfull]
            simp only [FamilyCore.tryTakeDraw, hbudget, decide_false,
              Bool.false_eq_true, if_false]
            exact Prod.ext rfl (FamilyCore.conclude_open
              (show family.counted.conclusion = none from hconcluded) _ _)
          rw [hspent]
          exact .overran _ hconcluded (Nat.le_succ _)

end PreChoice

section Draw

variable {family : FamilyCore} {stream : NativeTestCase Rng}

/-- What performing a draw comes to. -/
inductive DrawEffect (request : DrawRequest Rng) (family : FamilyCore)
    (stream : NativeTestCase Rng) :
    Except EngineError ChoiceValue × FamilyCore × NativeTestCase Rng → Prop where
  | refused {status : Status} {origin : Option String}
      (hconcluded : family.conclusion = some (status, origin)) :
      DrawEffect request family stream
        (.error (refusal status), family, stream)
  | overran (draws : Nat) (hopen : family.conclusion = none)
      (hdraws : family.totalDraws ≤ draws) :
      DrawEffect request family stream
        (.error .overrun, family.overran draws, stream)
  | drew (drawn : Drawn) (input : StreamInput Rng) (wasForced : Bool)
      (hopen : family.conclusion = none)
      (hbudget : family.totalDraws < family.budget)
      (hproduces : request.Produces drawn wasForced) :
      DrawEffect request family stream
        (.ok drawn.reply, family.counted.register drawn,
          stream.recordDrawn input drawn wasForced)

theorem Draw.pun_produces {draw : Draw Rng} {value : ChoiceValue}
    {original : Option ChoiceNode} {drawn : Drawn}
    (hpun : draw.pun value original = .ok drawn) : draw.Produces drawn := by
  cases original with
  | none => exact .unit hpun
  | some node =>
      obtain ⟨simplest, hsimplest, hbranch⟩ := bind_eq_ok hpun
      split at hbranch
      · exact .simplest hbranch
      · exact .unit hbranch

/-- What resolving a choice comes to. -/
theorem resolveChoice_cases {draw : Draw Rng}
    {answer : Except EngineError Drawn × FamilyCore × StreamInput Rng}
    (hanswer : resolveChoice draw family stream = .ok answer) :
    (∃ status origin, family.conclusion = some (status, origin) ∧
      answer = (.error (refusal status), family, stream.input)) ∨
    (∃ draws, family.conclusion = none ∧ family.totalDraws ≤ draws ∧
      answer = (.error .overrun, family.overran draws, stream.input)) ∨
    ∃ drawn input, family.conclusion = none ∧
      family.totalDraws < family.budget ∧ draw.Produces drawn ∧
        answer = (.ok drawn, family.counted, input) := by
  rw [resolveChoice] at hanswer
  have hcases := preChoice_cases family stream
  generalize preChoice family stream = outcome at hanswer hcases
  cases hcases with
  | refused hconcluded =>
      cases hanswer
      exact .inl ⟨_, _, hconcluded, rfl⟩
  | overran draws hopen hdraws =>
      cases hanswer
      exact .inr (.inl ⟨draws, hopen, hdraws, rfl⟩)
  | taken hopen hroom hbudget =>
      simp only [] at hanswer
      cases hvalue : stream.input.prefixValues[stream.record.nodes.length]? with
      | some value =>
          simp only [hvalue] at hanswer
          cases hreplayed : draw.fromPrefix value with
          | some drawn =>
              simp only [hreplayed] at hanswer
              cases hanswer
              exact .inr (.inr ⟨drawn, _, hopen, hbudget,
                .replayed value hreplayed, rfl⟩)
          | none =>
              -- the replayed value gives way to the simplest or to the unit
              simp only [hreplayed] at hanswer
              obtain ⟨drawn, hpun, heq⟩ := bind_eq_ok hanswer
              cases heq
              refine .inr (.inr ⟨drawn, _, hopen, hbudget, ?_, rfl⟩)
              exact Draw.pun_produces hpun
      | none =>
          simp only [hvalue] at hanswer
          cases htemplate : stream.input.trailingTemplate with
          | some template =>
              simp only [htemplate] at hanswer
              by_cases hspent : template.count = some 0
              · rw [if_pos hspent] at hanswer
                cases hanswer
                have hconclude := FamilyCore.conclude_open
                  (show family.counted.conclusion = none from hopen)
                  .earlyStop none
                rw [hconclude]
                exact .inr (.inl
                  ⟨family.totalDraws + 1, hopen, Nat.le_succ _, rfl⟩)
              · rw [if_neg hspent] at hanswer
                obtain ⟨drawn, hsimplest, heq⟩ := bind_eq_ok hanswer
                cases heq
                exact .inr (.inr ⟨drawn, _, hopen, hbudget,
                  .simplest hsimplest, rfl⟩)
          | none =>
              simp only [htemplate] at hanswer
              cases hrng : stream.input.rng with
              | some rng =>
                  simp only [hrng] at hanswer
                  obtain ⟨⟨drawn, rng'⟩, hsample, heq⟩ := bind_eq_ok hanswer
                  cases heq
                  exact .inr (.inr ⟨drawn, _, hopen, hbudget,
                    .sampled rng rng' hsample, rfl⟩)
              | none =>
                  simp only [hrng] at hanswer
                  cases hanswer

theorem performDraw_cases {request : DrawRequest Rng}
    {answer : Except EngineError ChoiceValue × FamilyCore × NativeTestCase Rng}
    (hanswer : performDraw request family stream = .ok answer) :
    DrawEffect request family stream answer := by
  cases request with
  | resolve draw =>
      obtain ⟨resolved, hresolved, heq⟩ := bind_eq_ok hanswer
      rcases resolveChoice_cases hresolved with
        ⟨status, origin, hconcluded, rfl⟩ | ⟨draws, hopen, hdraws, rfl⟩ |
        ⟨drawn, input, hopen, hbudget, hproduces, rfl⟩
      · cases heq
        exact .refused hconcluded
      · cases heq
        exact .overran draws hopen hdraws
      · cases heq
        exact .drew drawn input false hopen hbudget ⟨hproduces, rfl⟩
  | forced drawn =>
      rw [performDraw] at hanswer
      have hcases := preChoice_cases family stream
      generalize preChoice family stream = outcome at hanswer hcases
      cases hcases with
      | refused hconcluded =>
          cases hanswer
          exact .refused hconcluded
      | overran draws hopen hdraws =>
          cases hanswer
          exact .overran draws hopen hdraws
      | taken hopen hroom hbudget =>
          cases hanswer
          exact .drew drawn stream.input true hopen hbudget ⟨rfl, rfl⟩

/-- A recorded value that stands where it was recorded is drawn again. -/
theorem performDraw_replays {request : DrawRequest Rng} {drawn : Drawn}
    {wasForced : Bool} {value : ChoiceValue} (hlawful : request.Lawful)
    (hproduces : request.Produces drawn wasForced)
    (hopen : family.conclusion = none)
    (hroom : stream.record.nodes.length < stream.input.maxSize)
    (hbudget : family.totalDraws < family.budget)
    (hvalue : stream.input.prefixValues[stream.record.nodes.length]? =
      some value)
    (href : value.ref = drawn.data.value.ref) :
    performDraw request family stream =
      .ok (.ok drawn.reply, family.counted.register drawn,
        stream.recordDrawn stream.input drawn wasForced) := by
  cases request with
  | resolve draw =>
      obtain ⟨hproduces, rfl⟩ := hproduces
      have hreplayed : draw.fromPrefix value = some drawn := by
        rw [hlawful.reads_ref value drawn.data.value href]
        exact hlawful.replays drawn hproduces
      rw [performDraw, resolveChoice, preChoice_taken hopen hroom hbudget]
      simp only [hvalue, hreplayed]
      rfl
  | forced given =>
      obtain ⟨rfl, rfl⟩ := hproduces
      rw [performDraw, preChoice_taken hopen hroom hbudget]

/-- A stream that is full overruns. -/
theorem performDraw_full (request : DrawRequest Rng)
    (hopen : family.conclusion = none)
    (hfull : stream.input.maxSize ≤ stream.record.nodes.length) :
    performDraw request family stream =
      .ok (.error .overrun, family.overran family.totalDraws, stream) := by
  cases request with
  | resolve draw =>
      rw [performDraw, resolveChoice, preChoice_full hopen hfull]
      rfl
  | forced given => rw [performDraw, preChoice_full hopen hfull]

theorem performDraw_concluded (request : DrawRequest Rng) {status : Status}
    {origin : Option String}
    (hconcluded : family.conclusion = some (status, origin)) :
    performDraw request family stream =
      .ok (.error (refusal status), family, stream) := by
  cases request with
  | resolve draw =>
      rw [performDraw, resolveChoice, preChoice_concluded hconcluded]
      rfl
  | forced given => rw [performDraw, preChoice_concluded hconcluded]

end Draw

section Clone

variable {sampler : Sampler Rng} {state : TestCaseFamily Rng} {handle : Nat}
  {stream : NativeTestCase Rng}

theorem freeze_of_frozen {record : StreamRecord}
    (hfrozen : record.frozen = true) : record.freeze = record := by
  rw [StreamRecord.freeze, if_pos hfrozen]

/-- Freezing a stream of a concluded family. -/
theorem freezeStream_concluded {family : FamilyCore} {verdict : Outcome}
    (hconcluded : family.conclusion = some verdict) (record : StreamRecord) :
    freezeStream family record = (family, record.freeze) := by
  rw [freezeStream]
  cases hfrozen : record.frozen with
  | true =>
      rw [if_pos rfl, freeze_of_frozen hfrozen]
  | false =>
      rw [if_neg (by simp), FamilyCore.conclude_concluded hconcluded]

/-- The state after a clone was recorded. -/
def TestCaseFamily.addClone (state : TestCaseFamily Rng) (handle : Nat)
    (stream : NativeTestCase Rng) (childRng : Option Rng)
    (input : StreamInput Rng) : TestCaseFamily Rng :=
  ⟨state.family.counted,
    state.streams.set handle
      ⟨stream.record.pushClone state.streams.length, input⟩ ++
      [⟨.new (stream.record.cloneId ++ [stream.record.cloneCounter]),
        stream.input.forClone stream.record.nodes.length childRng⟩]⟩

theorem cloneStream_concluded {status : Status} {origin : Option String}
    (hconcluded : state.family.conclusion = some (status, origin)) :
    cloneStream sampler state handle stream =
      (.refused (refusal status), state) := by
  rw [cloneStream, preChoice_concluded hconcluded]

theorem cloneStream_full (hopen : state.family.conclusion = none)
    (hfull : stream.input.maxSize ≤ stream.record.nodes.length) :
    cloneStream sampler state handle stream =
      (.refused .overrun,
        ⟨state.family.overran state.family.totalDraws, state.streams⟩) := by
  rw [cloneStream, preChoice_full hopen hfull]

/-- A clone takes its own source of randomness, if its parent has one. -/
theorem cloneStream_taken (hopen : state.family.conclusion = none)
    (hroom : stream.record.nodes.length < stream.input.maxSize)
    (hbudget : state.family.totalDraws < state.family.budget)
    (hdepth : stream.record.cloneId.length + 1 ≤ maxCloneDepth) :
    cloneStream sampler state handle stream =
      (.cloned state.streams.length,
        state.addClone handle stream (stream.input.spawn sampler).1
          (stream.input.spawn sampler).2) := by
  rw [cloneStream, preChoice_taken hopen hroom hbudget]
  simp only [gt_iff_lt, if_neg (Nat.not_lt.mpr hdepth)]
  rfl

/-- What cloning a stream comes to. -/
inductive CloneEffect (sampler : Sampler Rng) (state : TestCaseFamily Rng)
    (handle : Nat) (stream : NativeTestCase Rng) :
    StreamReply × TestCaseFamily Rng → Prop where
  | refused {status : Status} {origin : Option String}
      (hconcluded : state.family.conclusion = some (status, origin)) :
      CloneEffect sampler state handle stream (.refused (refusal status), state)
  | overran (draws : Nat) (hopen : state.family.conclusion = none)
      (hdraws : state.family.totalDraws ≤ draws) :
      CloneEffect sampler state handle stream
        (.refused .overrun, ⟨state.family.overran draws, state.streams⟩)
  | tooDeep (hopen : state.family.conclusion = none)
      (hbudget : state.family.totalDraws < state.family.budget)
      (hdepth : maxCloneDepth < stream.record.cloneId.length + 1) :
      CloneEffect sampler state handle stream
        (.refused .invalidTestCase,
          ⟨state.family.counted.withConclusion .invalid none,
            state.streams.set handle ⟨stream.record.freeze, stream.input⟩⟩)
  | cloned (hopen : state.family.conclusion = none)
      (hbudget : state.family.totalDraws < state.family.budget)
      (hdepth : stream.record.cloneId.length + 1 ≤ maxCloneDepth) :
      CloneEffect sampler state handle stream
        (.cloned state.streams.length,
          state.addClone handle stream (stream.input.spawn sampler).1
            (stream.input.spawn sampler).2)

theorem cloneStream_cases (sampler : Sampler Rng)
    (state : TestCaseFamily Rng) (handle : Nat)
    (stream : NativeTestCase Rng) :
    CloneEffect sampler state handle stream
      (cloneStream sampler state handle stream) := by
  have hcases := preChoice_cases state.family stream
  cases houtcome : preChoice state.family stream with
  | mk result family =>
      rw [houtcome] at hcases
      cases hcases with
      | refused hconcluded =>
          rw [cloneStream_concluded hconcluded]
          exact .refused hconcluded
      | overran draws hopen hdraws =>
          rw [cloneStream, houtcome]
          exact .overran draws hopen hdraws
      | taken hopen hroom hbudget =>
          by_cases hdepth : stream.record.cloneId.length + 1 ≤ maxCloneDepth
          · rw [cloneStream_taken hopen hroom hbudget hdepth]
            exact .cloned hopen hbudget hdepth
          · rw [cloneStream, houtcome]
            simp only [gt_iff_lt, if_pos (Nat.lt_of_not_le hdepth)]
            have hconclude := FamilyCore.conclude_open
              (show state.family.counted.conclusion = none from hopen)
              .invalid none
            rw [hconclude, freezeStream_concluded rfl]
            exact .tooDeep hopen hbudget (Nat.lt_of_not_le hdepth)

end Clone

section Record

variable {family : FamilyCore} {record : StreamRecord}

/-- The same choices and the same clones; spans may differ. -/
structure StreamRecord.SameTree (record record' : StreamRecord) : Prop where
  nodes : record'.nodes = record.nodes
  cloneId : record'.cloneId = record.cloneId
  cloneChildren : record'.cloneChildren = record.cloneChildren

theorem StreamRecord.sameTree_freeze (record : StreamRecord) :
    record.SameTree record.freeze := by
  rw [freeze]
  cases record.frozen <;> exact ⟨rfl, rfl, rfl⟩

theorem StreamRecord.sameTree_startSpan (record : StreamRecord) (label : Nat) :
    record.SameTree (record.startSpan label) :=
  ⟨rfl, rfl, rfl⟩

theorem StreamRecord.sameTree_stopSpan (record : StreamRecord)
    (discard : Bool) : record.SameTree (record.stopSpan discard) := by
  rw [stopSpan]
  cases record.spanStack <;> exact ⟨rfl, rfl, rfl⟩

theorem StreamRecord.SameTree.trans {first second third : StreamRecord}
    (hfirst : first.SameTree second) (hsecond : second.SameTree third) :
    first.SameTree third where
  nodes := hsecond.nodes.trans hfirst.nodes
  cloneId := hsecond.cloneId.trans hfirst.cloneId
  cloneChildren := hsecond.cloneChildren.trans hfirst.cloneChildren

theorem freezeStream_sameTree (family : FamilyCore) (record : StreamRecord) :
    record.SameTree (freezeStream family record).2 := by
  rw [freezeStream]
  cases record.frozen with
  | true => exact ⟨rfl, rfl, rfl⟩
  | false => exact record.sameTree_freeze

theorem recordStep_sameTree (family : FamilyCore) (record : StreamRecord)
    (op : RecordOp) : record.SameTree (recordStep family record op).2.2 := by
  cases op with
  | startSpan label =>
      rw [recordStep, startSpan]
      have hopened := record.sameTree_startSpan label
      by_cases hdeep : record.spanStack.length + 1 > maxDepth
      · simp only [if_pos hdeep]
        exact hopened.trans (freezeStream_sameTree _ _)
      · simp only [if_neg hdeep]
        exact hopened
  | stopSpan discard => exact record.sameTree_stopSpan discard
  | freeze => exact freezeStream_sameTree family record
  | conclude status origin => exact ⟨rfl, rfl, rfl⟩

/-- A change of the conclusion that keeps an earlier one. -/
structure FamilyCore.Concludes (family family' : FamilyCore) : Prop where
  same : family' =
    { family with
      conclusion := family'.conclusion
      concludedStatus := family'.concludedStatus
      mirrored := family'.mirrored }
  stands : ∀ verdict, family.conclusion = some verdict →
    family'.conclusion = some verdict

theorem FamilyCore.Concludes.refl (family : FamilyCore) :
    family.Concludes family :=
  ⟨rfl, fun _ h => h⟩

theorem FamilyCore.Concludes.trans {first second third : FamilyCore}
    (hfirst : first.Concludes second) (hsecond : second.Concludes third) :
    first.Concludes third where
  same := by
    rw [hsecond.same, hfirst.same]
  stands verdict h := hsecond.stands verdict (hfirst.stands verdict h)

theorem FamilyCore.concludes_conclude (family : FamilyCore) (status : Status)
    (origin : Option String) :
    family.Concludes (family.conclude status origin) := by
  cases hconcluded : family.conclusion with
  | none =>
      rw [FamilyCore.conclude_open hconcluded]
      exact ⟨rfl, fun verdict h => by simp [hconcluded] at h⟩
  | some verdict =>
      rw [FamilyCore.conclude_concluded hconcluded]
      exact .refl family

theorem freezeStream_concludes (family : FamilyCore) (record : StreamRecord) :
    family.Concludes (freezeStream family record).1 := by
  rw [freezeStream]
  cases record.frozen with
  | true => exact .refl family
  | false => exact family.concludes_conclude .valid none

theorem recordStep_concludes (family : FamilyCore) (record : StreamRecord)
    (op : RecordOp) : family.Concludes (recordStep family record op).2.1 := by
  cases op with
  | startSpan label =>
      rw [recordStep, startSpan]
      by_cases hdeep : record.spanStack.length + 1 > maxDepth
      · simp only [if_pos hdeep]
        exact (family.concludes_conclude .invalid none).trans
          (freezeStream_concludes _ _)
      · simp only [if_neg hdeep]
        exact .refl family
  | stopSpan discard => exact .refl family
  | freeze => exact freezeStream_concludes family record
  | conclude status origin => exact family.concludes_conclude status origin

end Record

section Step

variable {sampler : Sampler Rng} {state : TestCaseFamily Rng}
  {request : StreamRequest}

/-- What one answered request does. -/
inductive StepEffect (sampler : Sampler Rng) (state : TestCaseFamily Rng)
    (request : StreamRequest) : TestCaseFamily Rng → Prop where
  | unchanged : StepEffect sampler state request state
  | overran (draws : Nat) (hopen : state.family.conclusion = none)
      (hdraws : state.family.totalDraws ≤ draws) :
      StepEffect sampler state request
        ⟨state.family.overran draws, state.streams⟩
  | drew {stream : NativeTestCase Rng} {op : DrawOp}
      {drawRequest : DrawRequest Rng} (drawn : Drawn)
      (input : StreamInput Rng) (wasForced : Bool)
      (hstream : state.streams[request.handle]? = some stream)
      (hrequest : op.request sampler state.family = .ok drawRequest)
      (hopen : state.family.conclusion = none)
      (hbudget : state.family.totalDraws < state.family.budget)
      (hproduces : drawRequest.Produces drawn wasForced) :
      StepEffect sampler state request
        ⟨state.family.counted.register drawn,
          state.streams.set request.handle
            (stream.recordDrawn input drawn wasForced)⟩
  | tooDeep {stream : NativeTestCase Rng}
      (hstream : state.streams[request.handle]? = some stream)
      (hop : request.op = .cloneStream)
      (hopen : state.family.conclusion = none)
      (hbudget : state.family.totalDraws < state.family.budget)
      (hdepth : maxCloneDepth < stream.record.cloneId.length + 1) :
      StepEffect sampler state request
        ⟨state.family.counted.withConclusion .invalid none,
          state.streams.set request.handle
            ⟨stream.record.freeze, stream.input⟩⟩
  | cloned {stream : NativeTestCase Rng} (childRng : Option Rng)
      (input : StreamInput Rng)
      (hstream : state.streams[request.handle]? = some stream)
      (hopen : state.family.conclusion = none)
      (hbudget : state.family.totalDraws < state.family.budget)
      (hdepth : stream.record.cloneId.length + 1 ≤ maxCloneDepth) :
      StepEffect sampler state request
        (state.addClone request.handle stream childRng input)
  | recorded {stream : NativeTestCase Rng} {op : RecordOp}
      {family : FamilyCore} {record : StreamRecord}
      (hstream : state.streams[request.handle]? = some stream)
      (hop : request.op = .record op)
      (hrecorded : (recordStep state.family stream.record op).2 =
        (family, record))
      (hfamily : state.family.Concludes family)
      (hrecord : stream.record.SameTree record) :
      StepEffect sampler state request
        ⟨family, state.streams.set request.handle ⟨record, stream.input⟩⟩

theorem set_getElem?_self {Value : Type} {values : List Value} {idx : Nat}
    {value : Value} (hvalue : values[idx]? = some value) :
    values.set idx value = values := by
  obtain ⟨hlt, rfl⟩ := List.getElem?_eq_some_iff.mp hvalue
  exact List.set_getElem_self hlt

/-- Replacing one stream by another keeps what holds of all streams. -/
theorem forall_mem_set {Value : Type} {values : List Value}
    {holds : Value → Prop} (hvalues : ∀ v ∈ values, holds v) {value : Value}
    (hvalue : holds value) (idx : Nat) :
    ∀ v ∈ values.set idx value, holds v := by
  intro v hv
  rcases List.mem_or_eq_of_mem_set hv with hmem | rfl
  · exact hvalues v hmem
  · exact hvalue

theorem step_cases {reply : StreamReply} {next : TestCaseFamily Rng}
    (hanswer : step sampler state request = .ok (reply, next)) :
    StepEffect sampler state request next := by
  rw [step] at hanswer
  cases hstream : state.streams[request.handle]? with
  | none =>
      simp only [hstream] at hanswer
      cases hanswer
      exact .unchanged
  | some stream =>
      simp only [hstream] at hanswer
      have hself := set_getElem?_self hstream
      cases hop : request.op with
      | draw op =>
          simp only [hop] at hanswer
          obtain ⟨drawRequest, hrequest, hrest⟩ := bind_eq_ok hanswer
          obtain ⟨answer, hperformed, heq⟩ := bind_eq_ok hrest
          cases performDraw_cases hperformed with
          | refused hconcluded =>
              cases heq
              rw [hself]
              exact .unchanged
          | overran draws hopen hdraws =>
              cases heq
              rw [hself]
              exact .overran draws hopen hdraws
          | drew drawn input wasForced hopen hbudget hproduces =>
              cases heq
              exact .drew drawn input wasForced hstream hrequest hopen hbudget
                hproduces
      | cloneStream =>
          simp only [hop] at hanswer
          have hcases := cloneStream_cases sampler state request.handle stream
          generalize cloneStream sampler state request.handle stream = answer
            at hanswer hcases
          cases hanswer
          cases hcases with
          | refused hconcluded => exact .unchanged
          | overran draws hopen hdraws => exact .overran draws hopen hdraws
          | tooDeep hopen hbudget hdepth =>
              exact .tooDeep hstream hop hopen hbudget hdepth
          | cloned hopen hbudget hdepth =>
              exact .cloned _ _ hstream hopen hbudget hdepth
      | record op =>
          simp only [hop] at hanswer
          cases hanswer
          exact .recorded hstream hop rfl (recordStep_concludes _ _ op)
            (recordStep_sameTree _ _ op)

end Step

end Hegel
