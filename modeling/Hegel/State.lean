/-
The state of one test case.  A test case is a family of streams: the root and
the streams cloned from it, each with its own values to replay and its own
record, all sharing one conclusion, one draw budget and one registry of fresh
identifiers.  Streams are kept in the order of their creation and named by
their position.
-/
import Hegel.ExecCache
import Mathlib.Data.List.Sort
import Mathlib.Data.List.Dedup

namespace Hegel

/-- Deepest nesting of spans. -/
def maxDepth : Nat := 1000

def usizeMax : Nat := 2 ^ 64 - 1

/-- Kind of fallback a template produces. -/
inductive ChoiceTemplateKind where
  | simplest
deriving DecidableEq

/-- What draws past the explicit values resolve to; without a count the
template never runs out. -/
structure ChoiceTemplate where
  kind : ChoiceTemplateKind
  count : Option Nat
deriving DecidableEq

/-- Why a draw returned no value. -/
inductive EngineError where
  | overrun
  | invalidTestCase
deriving DecidableEq

/-- Identifiers in ascending order; none of them is negative. -/
structure IdSet where
  ids : List Nat
  sorted : ids.Pairwise (· ≤ ·)

namespace IdSet

def empty : IdSet :=
  ⟨[], List.Pairwise.nil⟩

def insert (id : Nat) (used : IdSet) : IdSet :=
  if id ∈ used.ids then used
  else ⟨used.ids.orderedInsert (· ≤ ·) id, used.sorted.orderedInsert id _⟩

/-- The largest identifier, or `-1`. -/
def largest (used : IdSet) : Int :=
  (used.ids.getLast?.map Int.ofNat).getD (-1)

/-- Walk the identifiers upwards until the candidate is skipped. -/
def unusedFrom (candidate : Nat) : List Nat → Nat
  | [] => candidate
  | id :: rest =>
      if id > candidate then candidate
      else if id = candidate then unusedFrom (candidate + 1) rest
      else unusedFrom candidate rest

def smallestUnusedId (used : IdSet) : Nat :=
  unusedFrom 0 used.ids

end IdSet

/-- State shared by every stream of one test case.  The status is kept a
second time, to be read without taking the lock of the conclusion; there is
none until the case is concluded. -/
structure FamilyCore where
  conclusion : Option (Status × Option String)
  concludedStatus : Option Status
  totalDraws : Nat
  budget : Nat
  freshIds : IdSet
  mirrored : concludedStatus = conclusion.map Prod.fst

namespace FamilyCore

def new (budget : Nat) : FamilyCore :=
  ⟨none, none, 0, budget, .empty, rfl⟩

def status (family : FamilyCore) : Option Status :=
  family.concludedStatus

/-- The family with a conclusion, and with its status in both places. -/
def withConclusion (family : FamilyCore) (status : Status)
    (origin : Option String) : FamilyCore :=
  { family with
    conclusion := some (status, origin)
    concludedStatus := some status
    mirrored := rfl }

/-- Claim the conclusion; the first caller wins. -/
def conclude (family : FamilyCore) (status : Status)
    (origin : Option String) : FamilyCore :=
  match family.conclusion with
  | none => family.withConclusion status origin
  | some _ => family

/-- Reserve one draw, which is counted even when the budget is exhausted. -/
def tryTakeDraw (family : FamilyCore) : Bool × FamilyCore :=
  (decide (family.totalDraws < family.budget),
    { family with totalDraws := family.totalDraws + 1 })

end FamilyCore

/-- What a stream has recorded. -/
structure StreamRecord where
  nodes : List ChoiceNode
  frozen : Bool
  /-- The position in the clone tree. -/
  cloneId : List Nat
  cloneCounter : Nat
  /-- Streams cloned from this one, with the index of the clone node. -/
  cloneChildren : List (Nat × Nat)
  spans : List Span
  /-- Open spans, the innermost first. -/
  spanStack : List Nat
  hasDiscards : Bool

/-- Where a stream takes its values from. -/
structure StreamInput (Rng : Type) where
  prefixValues : List ChoiceValue
  prefixNodes : Option (List ChoiceNode)
  rng : Option Rng
  maxSize : Nat
  trailingTemplate : Option ChoiceTemplate

/-- One stream. -/
structure NativeTestCase (Rng : Type) where
  record : StreamRecord
  input : StreamInput Rng

/-- All streams of one test case, named by their position; the root is the
first one. -/
structure TestCaseFamily (Rng : Type) where
  family : FamilyCore
  streams : List (NativeTestCase Rng)

namespace StreamRecord

def new (cloneId : List Nat) : StreamRecord where
  nodes := []
  frozen := false
  cloneId := cloneId
  cloneCounter := 0
  cloneChildren := []
  spans := []
  spanStack := []
  hasDiscards := false

def pushNode (record : StreamRecord) (node : ChoiceNode) : StreamRecord :=
  { record with nodes := record.nodes ++ [node] }

/-- Open a span at the current position. -/
def startSpan (record : StreamRecord) (label : Nat) : StreamRecord :=
  { record with
    spans := record.spans ++
      [⟨record.nodes.length, record.nodes.length, toString label,
        record.spanStack.length, record.spanStack.head?, false⟩]
    spanStack := record.spans.length :: record.spanStack }

/-- Close the innermost span. -/
def stopSpan (record : StreamRecord) (discard : Bool) : StreamRecord :=
  match record.spanStack with
  | [] => record
  | idx :: rest =>
      { record with
        spans := record.spans.modify idx fun span =>
          { span with stop := record.nodes.length, discarded := discard }
        spanStack := rest
        hasDiscards := record.hasDiscards || discard }

/-- Close all open spans at the current position. -/
def freeze (record : StreamRecord) : StreamRecord :=
  if record.frozen then record
  else
    { record with
      frozen := true
      spans := record.spanStack.foldl
        (fun spans idx => spans.modify idx fun span =>
          { span with stop := record.nodes.length }) record.spans
      spanStack := [] }

/-- Replace every clone node by the record of its stream; below the levels
that remain, nodes stay as they are. -/
def reassemble (records : List StreamRecord) :
    Nat → StreamRecord → List ChoiceNode
  | 0, record => record.nodes
  | levels + 1, record =>
      record.cloneChildren.foldl (fun nodes (idx, handle) =>
        match records[handle]? with
        | some child =>
            nodes.modify idx fun node =>
              .mk (.clone (.new (reassemble records levels child.freeze)
                child.freeze.spans)) node.wasForced
        | none => nodes) record.nodes

end StreamRecord

/-- Freezing also concludes the family, as valid unless it was concluded. -/
def freezeStream (family : FamilyCore) (record : StreamRecord) :
    FamilyCore × StreamRecord :=
  if record.frozen then (family, record)
  else (family.conclude .valid none, record.freeze)

/-- A drawn value with everything that is recorded about it. -/
structure Drawn where
  data : ChoiceData
  reply : ChoiceValue
  /-- The identifier to register, for a fresh one. -/
  freshId : Option Nat

/-- How one typed draw resolves: the two fallbacks, the test of a replayed
value, and the random sample. -/
structure Draw (Rng : Type) where
  simplest : Except InternalError Drawn
  unit : Except InternalError Drawn
  fromPrefix : ChoiceValue → Option Drawn
  random : Rng → Except InternalError (Drawn × Rng)

/-- A draw to resolve, or a value recorded without being drawn. -/
inductive DrawRequest (Rng : Type) where
  | resolve (draw : Draw Rng)
  | forced (drawn : Drawn)

/-- The simplest value of some data's constraint. -/
def ChoiceData.simplestValue : ChoiceData → Except InternalError ChoiceValue
  | .integer ic _ => .ok (.integer ic.simplest)
  | .boolean bc _ => .ok (.boolean bc.simplest)
  | .float fc _ => do return .float (← fc.simplest)
  | .bytes bc _ => .ok (.bytes bc.simplest)
  | .string sc _ => do return .string (← sc.simplest)
  | .clone _ => .ok (.clone .empty)

section Resolution

variable {Rng : Type}

/-- The error that stands for a conclusion. -/
def refusal (status : Status) : EngineError :=
  if status = .invalid then .invalidTestCase else .overrun

/-- Reserve one choice position. -/
def preChoice (family : FamilyCore) (stream : NativeTestCase Rng) :
    Except EngineError Unit × FamilyCore :=
  match family.status with
  | some status => (.error (refusal status), family)
  | none =>
      if stream.record.nodes.length ≥ stream.input.maxSize then
        (.error .overrun, family.conclude .earlyStop none)
      else
        let (taken, family) := family.tryTakeDraw
        if taken then (.ok (), family)
        else (.error .overrun, family.conclude .earlyStop none)

/-- What a replayed value that does not fit resolves to: the simplest value if
it was its original node's simplest value. -/
def Draw.pun (draw : Draw Rng) (prefixValue : ChoiceValue) :
    Option ChoiceNode → Except InternalError Drawn
  | some node => do
      let simplest ← node.data.simplestValue
      if prefixValue.eq simplest then draw.simplest else draw.unit
  | none => draw.unit

/-- Resolve a draw from the replayed values, the template or the random
source, in this order. -/
def resolveChoice (draw : Draw Rng) (family : FamilyCore)
    (stream : NativeTestCase Rng) :
    Except InternalError
      (Except EngineError Drawn × FamilyCore × StreamInput Rng) :=
  let input := stream.input
  match preChoice family stream with
  | (.error error, family) => .ok (.error error, family, input)
  | (.ok (), family) =>
      let idx := stream.record.nodes.length
      match input.prefixValues[idx]? with
      | some prefixValue =>
          match draw.fromPrefix prefixValue with
          | some drawn => .ok (.ok drawn, family, input)
          | none => do
              let drawn ← draw.pun prefixValue
                (input.prefixNodes.bind fun nodes => nodes[idx]?)
              return (.ok drawn, family, input)
      | none =>
          match input.trailingTemplate with
          | some template =>
              if template.count = some 0 then
                .ok (.error .overrun, family.conclude .earlyStop none, input)
              else do
                let drawn ←
                  match template.kind with
                  | .simplest => draw.simplest
                let template :=
                  { template with count := template.count.map (· - 1) }
                return (.ok drawn, family,
                  { input with trailingTemplate := some template })
          | none =>
              match input.rng with
              | some rng => do
                  let (drawn, rng) ← draw.random rng
                  return (.ok drawn, family, { input with rng := some rng })
              | none => .error
                  ⟨"resolve_choice: no RNG available for random generation"⟩

/-- Register a fresh identifier. -/
def FamilyCore.register (family : FamilyCore) (drawn : Drawn) : FamilyCore :=
  match drawn.freshId with
  | some id => { family with freshIds := family.freshIds.insert id }
  | none => family

/-- Append the node of a drawn value. -/
def NativeTestCase.recordDrawn (stream : NativeTestCase Rng)
    (input : StreamInput Rng) (drawn : Drawn) (wasForced : Bool) :
    NativeTestCase Rng :=
  ⟨stream.record.pushNode (.mk drawn.data wasForced), input⟩

/-- One draw: resolve the choice and record it. -/
def performDraw (request : DrawRequest Rng) (family : FamilyCore)
    (stream : NativeTestCase Rng) :
    Except InternalError
      (Except EngineError ChoiceValue × FamilyCore × NativeTestCase Rng) :=
  match request with
  | .resolve draw => do
      match ← resolveChoice draw family stream with
      | (.error error, family, input) =>
          return (.error error, family, { stream with input := input })
      | (.ok drawn, family, input) =>
          return (.ok drawn.reply, family.register drawn,
            stream.recordDrawn input drawn false)
  | .forced drawn =>
      match preChoice family stream with
      | (.error error, family) => .ok (.error error, family, stream)
      | (.ok (), family) =>
          .ok (.ok drawn.reply, family.register drawn,
            stream.recordDrawn stream.input drawn true)

end Resolution

end Hegel
