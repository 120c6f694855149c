/-
Choice values and choice nodes.  A node pairs a constraint with the value drawn
under it; the node of a cloned stream carries that stream's own nodes and
spans, and the value of a clone position may be stored as bare values or as
such a realized stream.  Both shapes are read through one borrowed view.
-/
import Hegel.Choices

namespace Hegel

/-- One recorded span of a stream's choices. -/
structure Span where
  start : Nat
  stop : Nat
  label : String
  depth : Nat
  parent : Option Nat
  discarded : Bool
deriving DecidableEq

mutual

/-- A constraint paired with the value drawn under it. -/
inductive ChoiceData where
  | integer (constraint : IntegerChoice) (value : Int)
  | boolean (constraint : BooleanChoice) (value : Bool)
  | float (constraint : FloatChoice) (value : Binary64)
  | bytes (constraint : BytesChoice) (value : List UInt8)
  | string (constraint : StringChoice) (value : List UInt32)
  | clone (stream : RealizedStream)

/-- The realized execution of one cloned stream, with its flattened length
cached. -/
inductive RealizedStream where
  | mk (nodes : List ChoiceNode) (spans : List Span) (flatLen : Nat)

/-- A recorded choice. -/
inductive ChoiceNode where
  | mk (data : ChoiceData) (wasForced : Bool)

end

namespace RealizedStream

def nodes : RealizedStream → List ChoiceNode
  | mk nodes _ _ => nodes

def spans : RealizedStream → List Span
  | mk _ spans _ => spans

def flatLen : RealizedStream → Nat
  | mk _ _ flatLen => flatLen

end RealizedStream

namespace ChoiceNode

def data : ChoiceNode → ChoiceData
  | mk data _ => data

def wasForced : ChoiceNode → Bool
  | mk _ wasForced => wasForced

end ChoiceNode

/-- How many choices one piece of data counts for. -/
def ChoiceData.weight : ChoiceData → Nat
  | .clone stream => 1 + stream.flatLen
  | _ => 1

/-- Total number of choices, counting the children of clone nodes. -/
def flattenedLen (nodes : List ChoiceNode) : Nat :=
  (nodes.map fun node => node.data.weight).sum

namespace RealizedStream

/-- A realized stream from an execution. -/
def new (nodes : List ChoiceNode) (spans : List Span) : RealizedStream :=
  mk nodes spans (flattenedLen nodes)

/-- A clone that drew nothing. -/
def empty : RealizedStream :=
  new [] []

def len (stream : RealizedStream) : Nat :=
  stream.nodes.length

end RealizedStream

mutual

/-- A choice value as it is replayed and stored. -/
inductive ChoiceValue where
  | integer (value : Int)
  | boolean (value : Bool)
  | float (value : Binary64)
  | bytes (value : List UInt8)
  | string (value : List UInt32)
  | clone (record : CloneRecord)

/-- The choice sequence of a cloned stream: bare values, or the realized
stream of an execution. -/
inductive CloneRecord where
  | values (values : List ChoiceValue) (flatLen : Nat)
  | realized (stream : RealizedStream)

end

/-- The value half of a node's data. -/
def ChoiceData.value : ChoiceData → ChoiceValue
  | .integer _ v => .integer v
  | .boolean _ v => .boolean v
  | .float _ v => .float v
  | .bytes _ v => .bytes v
  | .string _ v => .string v
  | .clone stream => .clone (.realized stream)

def ChoiceNode.value (node : ChoiceNode) : ChoiceValue :=
  node.data.value

namespace CloneRecord

def flatLen : CloneRecord → Nat
  | values _ flatLen => flatLen
  | realized stream => stream.flatLen

def ownedValues : CloneRecord → List ChoiceValue
  | values children _ => children
  | realized stream => stream.nodes.map ChoiceNode.value

def realizedNodes : CloneRecord → Option (List ChoiceNode)
  | values _ _ => none
  | realized stream => some stream.nodes

end CloneRecord

/-- How many choices one value counts for. -/
def ChoiceValue.weight : ChoiceValue → Nat
  | .clone record => 1 + record.flatLen
  | _ => 1

def flattenedValuesLen (values : List ChoiceValue) : Nat :=
  (values.map ChoiceValue.weight).sum

/-- A record from bare child values. -/
def CloneRecord.fromValues (values : List ChoiceValue) : CloneRecord :=
  .values values (flattenedValuesLen values)

/-- A record that drew nothing. -/
def CloneRecord.empty : CloneRecord :=
  .realized .empty

/-- Borrowed view of a value.  A clone is read through its cached length and
its child values, whichever way they are stored. -/
inductive ChoiceValueRef where
  | integer (value : Int)
  | boolean (value : Bool)
  | float (value : Binary64)
  | bytes (value : List UInt8)
  | string (value : List UInt32)
  | clone (flatLen : Nat) (values : List ChoiceValueRef)

mutual

def ChoiceData.valueRef : ChoiceData → ChoiceValueRef
  | .integer _ v => .integer v
  | .boolean _ v => .boolean v
  | .float _ v => .float v
  | .bytes _ v => .bytes v
  | .string _ v => .string v
  | .clone stream => stream.valueRef

def RealizedStream.valueRef : RealizedStream → ChoiceValueRef
  | .mk nodes _ flatLen => .clone flatLen (nodeRefs nodes)

def ChoiceNode.valueRef : ChoiceNode → ChoiceValueRef
  | .mk data _ => data.valueRef

/-- The values of a node sequence. -/
def nodeRefs : List ChoiceNode → List ChoiceValueRef
  | [] => []
  | node :: rest => node.valueRef :: nodeRefs rest

end

mutual

def ChoiceValue.ref : ChoiceValue → ChoiceValueRef
  | .integer v => .integer v
  | .boolean v => .boolean v
  | .float v => .float v
  | .bytes v => .bytes v
  | .string v => .string v
  | .clone record => record.ref

def CloneRecord.ref : CloneRecord → ChoiceValueRef
  | .values values flatLen => .clone flatLen (valueRefs values)
  | .realized stream => stream.valueRef

def valueRefs : List ChoiceValue → List ChoiceValueRef
  | [] => []
  | value :: rest => value.ref :: valueRefs rest

end

mutual

/-- How many choices a value stands for, clones counted with everything below
them. -/
def ChoiceValueRef.count : ChoiceValueRef → Nat
  | .clone _ values => 1 + refsCount values
  | _ => 1

def refsCount : List ChoiceValueRef → Nat
  | [] => 0
  | value :: rest => value.count + refsCount rest

end

mutual

/-- Whether every cached length is the count it stands for. -/
def ChoiceValueRef.Coherent : ChoiceValueRef → Prop
  | .clone flatLen values => flatLen = refsCount values ∧ RefsCoherent values
  | _ => True

def RefsCoherent : List ChoiceValueRef → Prop
  | [] => True
  | value :: rest => value.Coherent ∧ RefsCoherent rest

end

mutual

/-- How deeply clones nest in a value. -/
def ChoiceValueRef.cloneDepth : ChoiceValueRef → Nat
  | .clone _ values => 1 + refsDepth values
  | _ => 0

def refsDepth : List ChoiceValueRef → Nat
  | [] => 0
  | value :: rest => max value.cloneDepth (refsDepth rest)

end

mutual

/-- Equality of values: floats bit for bit, clones by their child values. -/
def ChoiceValueRef.eq : ChoiceValueRef → ChoiceValueRef → Bool
  | .integer a, .integer b => decide (a = b)
  | .boolean a, .boolean b => decide (a = b)
  | .float a, .float b => decide (a.bits = b.bits)
  | .bytes a, .bytes b => decide (a = b)
  | .string a, .string b => decide (a = b)
  | .clone flatLen values, .clone flatLen' values' =>
      decide (flatLen = flatLen') &&
        decide (values.length = values'.length) && refsEq values values'
  | _, _ => false

def refsEq : List ChoiceValueRef → List ChoiceValueRef → Bool
  | a :: as, b :: bs => a.eq b && refsEq as bs
  | _, _ => true

end

/-- Equality of owned values is equality of their views. -/
def ChoiceValue.eq (a b : ChoiceValue) : Bool :=
  a.ref.eq b.ref

/-- Equality of sequences of values. -/
def SameValues (left right : List ChoiceValue) : Prop :=
  List.Forall₂ (fun a b => a.eq b = true) left right

/-- Induction over a node sequence that also assumes the statement for the
children of clone nodes. -/
theorem nodesInduction {motive : List ChoiceNode → Prop}
    (nil : motive [])
    (scalar : ∀ data forced rest,
      (∀ stream, data ≠ ChoiceData.clone stream) → motive rest →
      motive (.mk data forced :: rest))
    (clone : ∀ nodes spans flatLen forced rest, motive nodes → motive rest →
      motive (.mk (.clone (.mk nodes spans flatLen)) forced :: rest)) :
    ∀ nodes, motive nodes
  | [] => nil
  | .mk (.integer ic v) forced :: rest =>
      scalar _ forced rest (by simp) (nodesInduction nil scalar clone rest)
  | .mk (.boolean bc v) forced :: rest =>
      scalar _ forced rest (by simp) (nodesInduction nil scalar clone rest)
  | .mk (.float fc v) forced :: rest =>
      scalar _ forced rest (by simp) (nodesInduction nil scalar clone rest)
  | .mk (.bytes bc v) forced :: rest =>
      scalar _ forced rest (by simp) (nodesInduction nil scalar clone rest)
  | .mk (.string sc v) forced :: rest =>
      scalar _ forced rest (by simp) (nodesInduction nil scalar clone rest)
  | .mk (.clone (.mk nodes spans flatLen)) forced :: rest =>
      clone nodes spans flatLen forced rest
        (nodesInduction nil scalar clone nodes)
        (nodesInduction nil scalar clone rest)

/-- Induction over views. -/
theorem refsInduction {motive : List ChoiceValueRef → Prop}
    (nil : motive [])
    (scalar : ∀ value rest,
      (∀ flatLen values, value ≠ ChoiceValueRef.clone flatLen values) →
      motive rest → motive (value :: rest))
    (clone : ∀ flatLen values rest, motive values → motive rest →
      motive (.clone flatLen values :: rest)) :
    ∀ values, motive values
  | [] => nil
  | .integer v :: rest =>
      scalar _ rest (by simp) (refsInduction nil scalar clone rest)
  | .boolean v :: rest =>
      scalar _ rest (by simp) (refsInduction nil scalar clone rest)
  | .float v :: rest =>
      scalar _ rest (by simp) (refsInduction nil scalar clone rest)
  | .bytes v :: rest =>
      scalar _ rest (by simp) (refsInduction nil scalar clone rest)
  | .string v :: rest =>
      scalar _ rest (by simp) (refsInduction nil scalar clone rest)
  | .clone flatLen values :: rest =>
      clone flatLen values rest (refsInduction nil scalar clone values)
        (refsInduction nil scalar clone rest)

theorem nodeRefs_eq_map (nodes : List ChoiceNode) :
    nodeRefs nodes = nodes.map ChoiceNode.valueRef := by
  induction nodes with
  | nil => rfl
  | cons node rest ih => rw [nodeRefs, ih, List.map_cons]

theorem valueRefs_eq_map (values : List ChoiceValue) :
    valueRefs values = values.map ChoiceValue.ref := by
  induction values with
  | nil => rfl
  | cons value rest ih => rw [valueRefs, ih, List.map_cons]

/-- With right caches, adding up the cached weights counts everything. -/
theorem flattenedValuesLen_eq {values : List ChoiceValue}
    (hvalues : RefsCoherent (valueRefs values)) :
    flattenedValuesLen values = refsCount (valueRefs values) := by
  induction values with
  | nil => rfl
  | cons value rest ih =>
      rw [valueRefs, RefsCoherent] at hvalues
      rw [valueRefs, refsCount, ← ih hvalues.2, flattenedValuesLen,
        flattenedValuesLen, List.map_cons, List.sum_cons]
      refine congrArg (· + (rest.map ChoiceValue.weight).sum) ?_
      cases value with
      | clone record =>
          cases record with
          | values children flatLen =>
              exact congrArg (1 + ·) hvalues.1.1
          | realized stream =>
              obtain ⟨nodes, spans, flatLen⟩ := stream
              exact congrArg (1 + ·) hvalues.1.1
      | _ => rfl

/-- Taking the value out of a node does not change what is read. -/
@[simp] theorem ChoiceData.ref_value (data : ChoiceData) :
    data.value.ref = data.valueRef := by
  cases data <;> rfl

@[simp] theorem ChoiceNode.ref_value (node : ChoiceNode) :
    node.value.ref = node.valueRef := by
  cases node
  exact ChoiceData.ref_value _

/-- The source's equality test decides equality of views. -/
theorem refsEq_eq_true_iff (left right : List ChoiceValueRef)
    (hlength : left.length = right.length) :
    refsEq left right = true ↔ left = right := by
  induction left using refsInduction generalizing right with
  | nil =>
      rw [List.length_eq_zero_iff.mp hlength.symm]
      simp [refsEq]
  | scalar value rest hvalue ih =>
      cases right with
      | nil => simp at hlength
      | cons value' rest' =>
          have hrest := ih rest' (by simpa using hlength)
          rw [refsEq, Bool.and_eq_true, hrest, List.cons.injEq]
          refine and_congr_left fun _ => ?_
          cases value <;> cases value' <;>
            simp_all [ChoiceValueRef.eq, Binary64.ext_bits_iff]
  | clone flatLen values rest ihValues ihRest =>
      cases right with
      | nil => simp at hlength
      | cons value' rest' =>
          have hrest := ihRest rest' (by simpa using hlength)
          rw [refsEq, Bool.and_eq_true, hrest, List.cons.injEq]
          refine and_congr_left fun _ => ?_
          cases value' with
          | clone flatLen' values' =>
              rw [ChoiceValueRef.eq, Bool.and_eq_true, Bool.and_eq_true,
                decide_eq_true_eq, decide_eq_true_eq,
                ChoiceValueRef.clone.injEq, and_assoc]
              refine and_congr_right fun _ => ?_
              refine ⟨fun h => (ihValues values' h.1).mp h.2, fun h => ?_⟩
              subst h
              exact ⟨rfl, (ihValues values rfl).mpr rfl⟩
          | _ => simp [ChoiceValueRef.eq]

theorem ChoiceValueRef.eq_iff (left right : ChoiceValueRef) :
    left.eq right = true ↔ left = right := by
  have hsingle := refsEq_eq_true_iff [left] [right] rfl
  simpa [refsEq] using hsingle

theorem sameValues_iff (left right : List ChoiceValue) :
    SameValues left right ↔ valueRefs left = valueRefs right := by
  constructor
  · intro hsame
    induction hsame with
    | nil => rfl
    | cons hhead _ ih =>
        rw [valueRefs, valueRefs, (ChoiceValueRef.eq_iff _ _).mp hhead, ih]
  · intro hrefs
    induction left generalizing right with
    | nil =>
        cases right with
        | nil => exact .nil
        | cons b bs => exact absurd hrefs (by simp [valueRefs])
    | cons a as ih =>
        cases right with
        | nil => exact absurd hrefs (by simp [valueRefs])
        | cons b bs =>
            rw [valueRefs, valueRefs, List.cons.injEq] at hrefs
            exact .cons ((ChoiceValueRef.eq_iff _ _).mpr hrefs.1)
              (ih bs hrefs.2)

end Hegel
