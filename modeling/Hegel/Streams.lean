/-
Running a test body against the streams of a test case.  The body addresses
streams by handle and sees what every operation returned; when it has stopped,
the case is concluded and the streams are put together again.
-/
import Hegel.Draws
import Hegel.Lib.Interaction

namespace Hegel

/-- An operation that draws nothing. -/
inductive RecordOp where
  | startSpan (label : Nat)
  | stopSpan (discard : Bool)
  | freeze
  | conclude (status : Status) (origin : Option String)

/-- An operation on one stream. -/
inductive StreamOp where
  | draw (op : DrawOp)
  | cloneStream
  | record (op : RecordOp)

/-- An operation with the stream it goes to. -/
structure StreamRequest where
  handle : Nat
  op : StreamOp

/-- What an operation returns. -/
inductive StreamReply where
  | drawn (value : ChoiceValue)
  | refused (error : EngineError)
  | cloned (handle : Nat)
  | spanOpened (idx : Nat)
  | done
  | noStream

/-- The verdict a body reports. -/
abbrev Outcome := Status × Option String

abbrev Body := Client StreamRequest StreamReply Outcome

section Cloning

variable {Rng : Type} (sampler : Sampler Rng)

/-- The node that stands for a running clone. -/
def clonePlaceholder : ChoiceNode :=
  .mk (.clone .empty) false

/-- Record a clone whose stream has the given handle. -/
def StreamRecord.pushClone (record : StreamRecord) (handle : Nat) :
    StreamRecord :=
  { record.pushNode clonePlaceholder with
    cloneCounter := record.cloneCounter + 1
    cloneChildren := record.cloneChildren ++ [(record.nodes.length, handle)] }

/-- What a clone at a position replays. -/
def StreamInput.childPrefix (input : StreamInput Rng) (idx : Nat) :
    List ChoiceValue × Option (List ChoiceNode) :=
  match input.prefixValues[idx]? with
  | some (.clone record) => (record.ownedValues, record.realizedNodes)
  | _ => ([], none)

/-- Split a random source off for a clone. -/
def StreamInput.spawn (input : StreamInput Rng) :
    Option Rng × StreamInput Rng :=
  match input.rng with
  | some rng =>
      let (child, rng) := sampler.spawn rng
      (some child, { input with rng := some rng })
  | none => (none, input)

/-- The input of a clone. -/
def StreamInput.forClone (input : StreamInput Rng) (idx : Nat)
    (childRng : Option Rng) : StreamInput Rng :=
  let (childPrefix, childPrefixNodes) := input.childPrefix idx
  let childTemplate := input.trailingTemplate.map fun template =>
    { template with count := none }
  { prefixValues := childPrefix
    prefixNodes := childPrefixNodes
    rng := childRng
    maxSize :=
      if childRng.isSome || childTemplate.isSome then usizeMax
      else childPrefix.length
    trailingTemplate := childTemplate }

/-- Create an independent stream that occupies one choice position. -/
def cloneStream (state : TestCaseFamily Rng) (handle : Nat)
    (stream : NativeTestCase Rng) : StreamReply × TestCaseFamily Rng :=
  match preChoice state.family stream with
  | (.error error, family) => (.refused error, { state with family := family })
  | (.ok (), family) =>
      if stream.record.cloneId.length + 1 > maxCloneDepth then
        let (family, record) :=
          freezeStream (family.conclude .invalid none) stream.record
        (.refused .invalidTestCase,
          ⟨family, state.streams.set handle ⟨record, stream.input⟩⟩)
      else
        let child := state.streams.length
        let (childRng, input) := stream.input.spawn sampler
        let childId := stream.record.cloneId ++ [stream.record.cloneCounter]
        (.cloned child,
          ⟨family,
            state.streams.set handle ⟨stream.record.pushClone child, input⟩ ++
              [⟨.new childId,
                stream.input.forClone stream.record.nodes.length childRng⟩]⟩)

end Cloning

section Server

variable {Rng : Type} (sampler : Sampler Rng)

/-- Open a span; opening one too deep makes the case invalid. -/
def startSpan (family : FamilyCore) (record : StreamRecord) (label : Nat) :
    StreamReply × FamilyCore × StreamRecord :=
  let opened := record.startSpan label
  let reply := StreamReply.spanOpened record.spans.length
  if record.spanStack.length + 1 > maxDepth then
    (reply, freezeStream (family.conclude .invalid none) opened)
  else (reply, family, opened)

/-- An operation that only concerns one stream's record. -/
def recordStep (family : FamilyCore) (record : StreamRecord) :
    RecordOp → StreamReply × FamilyCore × StreamRecord
  | .startSpan label => startSpan family record label
  | .stopSpan discard => (.done, family, record.stopSpan discard)
  | .freeze => (.done, freezeStream family record)
  | .conclude status origin => (.done, family.conclude status origin, record)

/-- Answer one operation. -/
def step : Server (TestCaseFamily Rng) StreamRequest StreamReply InternalError :=
  fun state request =>
    match state.streams[request.handle]? with
    | none => .ok (.noStream, state)
    | some stream =>
        match request.op with
        | .draw op => do
            let drawRequest ← op.request sampler state.family
            let (result, family, stream) ←
              performDraw drawRequest state.family stream
            let reply :=
              match result with
              | .ok value => StreamReply.drawn value
              | .error error => .refused error
            return (reply, ⟨family, state.streams.set request.handle stream⟩)
        | .cloneStream =>
            .ok (cloneStream sampler state request.handle stream)
        | .record op =>
            let (reply, family, record) :=
              recordStep state.family stream.record op
            .ok (reply,
              ⟨family, state.streams.set request.handle ⟨record, stream.input⟩⟩)

end Server

section Construction

variable {Rng : Type}

/-- A family whose root stream has drawn nothing yet; a budget is a 64-bit
number. -/
def TestCaseFamily.start (input : StreamInput Rng) (budget : Nat) :
    TestCaseFamily Rng :=
  ⟨.new (min budget usizeMax), [⟨.new [], input⟩]⟩

/-- Replay choices, then follow a template. -/
def forChoicesAndTemplate (choices : List ChoiceValue)
    (prefixNodes : Option (List ChoiceNode))
    (trailing : Option ChoiceTemplate) (maxSize : Nat) :
    TestCaseFamily Rng :=
  let maxSize := max maxSize choices.length
  .start ⟨choices, prefixNodes, none, maxSize, trailing⟩
    (if trailing.isSome then maxSize else usizeMax)

def forChoices (choices : List ChoiceValue)
    (prefixNodes : Option (List ChoiceNode)) : TestCaseFamily Rng :=
  forChoicesAndTemplate choices prefixNodes none choices.length

/-- Replay choices, then draw at random up to a total. -/
def forProbe (choices : List ChoiceValue) (rng : Rng) (maxSize : Nat) :
    TestCaseFamily Rng :=
  let maxSize := max maxSize choices.length
  .start ⟨choices, none, some rng, maxSize, none⟩ maxSize

end Construction

/-- The outcome of an executed test case. -/
structure RunResult where
  status : Status
  nodes : List ChoiceNode
  spans : List Span
  origin : Option String

section Execution

variable {Rng : Type} (sampler : Sampler Rng)

/-- Report a verdict; an earlier conclusion stands. -/
def TestCaseFamily.markComplete (state : TestCaseFamily Rng)
    (outcome : Outcome) : TestCaseFamily Rng :=
  { state with family := state.family.conclude outcome.1 outcome.2 }

def TestCaseFamily.records (state : TestCaseFamily Rng) :
    List StreamRecord :=
  state.streams.map NativeTestCase.record

/-- The nodes of a stream after putting the streams together again, which only
a concluded family does. -/
def takeNodes (family : FamilyCore) (records : List StreamRecord)
    (record : StreamRecord) : List ChoiceNode :=
  if family.conclusion.isSome then
    record.reassemble records (maxCloneDepth + 1)
  else record.nodes

/-- Only a failure has an origin. -/
def takeOutcome : Outcome → Outcome
  | (.interesting, origin) => (.interesting, some (origin.getD ""))
  | (status, _) => (status, none)

/-- The result of a case, if it was concluded. -/
def takeRun (state : TestCaseFamily Rng) : Option RunResult :=
  match state.family.conclusion, state.records.head? with
  | some conclusion, some root =>
      let (status, origin) := takeOutcome conclusion
      some ⟨status, takeNodes state.family state.records root, root.spans,
        origin⟩
  | _, _ => none

/-- What one execution of a body shows: the replies it saw and the result. -/
structure Execution where
  replies : List StreamReply
  run : RunResult

/-- Execute a body, for at most `fuel` actions. -/
def execute (body : Body) (fuel : Nat) (start : TestCaseFamily Rng) :
    Except InternalError (Option Execution) :=
  match Interaction.run (step sampler) body fuel [] start with
  | .error error => .error error
  | .ok none => .ok none
  | .ok (some finished) =>
      .ok ((takeRun (finished.state.markComplete finished.verdict)).map
        fun run => ⟨finished.replies, run⟩)

end Execution

end Hegel
