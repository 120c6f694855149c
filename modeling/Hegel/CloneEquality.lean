/-
Equality of values across the ways a clone is stored.  A clone is borrowed from
a record or from a bare stream, and its children are bare values or the values
of nodes.  Two borrowed clones that are one object are equal at once; otherwise
cached lengths, then numbers of children, then children are compared.  Which
clones are one object is not a matter of their values, so it is given for every
place that a comparison meets.
-/
import Hegel.SortKey

namespace Hegel

open Binary64

/-- What a borrowed clone is borrowed from. -/
inductive CloneHolder where
  | record
  | stream
deriving DecidableEq

/-- Borrowed view of a value that tells what each clone is borrowed from. -/
inductive BorrowedValue where
  | integer (value : Int)
  | boolean (value : Bool)
  | float (value : Binary64)
  | bytes (value : List UInt8)
  | string (value : List UInt32)
  | clone (holder : CloneHolder) (flatLen : Nat) (values : List BorrowedValue)

mutual

def ChoiceData.borrow : ChoiceData → BorrowedValue
  | .integer _ v => .integer v
  | .boolean _ v => .boolean v
  | .float _ v => .float v
  | .bytes _ v => .bytes v
  | .string _ v => .string v
  | .clone stream => stream.borrow .stream

/-- A stream by itself, or as the children of a record. -/
def RealizedStream.borrow : RealizedStream → CloneHolder → BorrowedValue
  | .mk nodes _ flatLen, holder => .clone holder flatLen (borrowNodes nodes)

def ChoiceNode.borrow : ChoiceNode → BorrowedValue
  | .mk data _ => data.borrow

def borrowNodes : List ChoiceNode → List BorrowedValue
  | [] => []
  | node :: rest => node.borrow :: borrowNodes rest

end

mutual

def ChoiceValue.borrow : ChoiceValue → BorrowedValue
  | .integer v => .integer v
  | .boolean v => .boolean v
  | .float v => .float v
  | .bytes v => .bytes v
  | .string v => .string v
  | .clone record => record.borrow

def CloneRecord.borrow : CloneRecord → BorrowedValue
  | .values values flatLen => .clone .record flatLen (borrowValues values)
  | .realized stream => stream.borrow .record

def borrowValues : List ChoiceValue → List BorrowedValue
  | [] => []
  | value :: rest => value.borrow :: borrowValues rest

end

mutual

/-- Equality of borrowed values.  A place is the list of child positions that
leads to it, and `identical` tells whether what is compared there is one
object. -/
def BorrowedValue.eq (identical : List Nat → Bool) :
    BorrowedValue → BorrowedValue → Bool
  | .integer a, .integer b => decide (a = b)
  | .boolean a, .boolean b => decide (a = b)
  | .float a, .float b => decide (a.bits = b.bits)
  | .bytes a, .bytes b => decide (a = b)
  | .string a, .string b => decide (a = b)
  | .clone holder flatLen values, .clone holder' flatLen' values' =>
      (decide (holder = holder') && identical []) ||
        (decide (flatLen = flatLen') &&
          decide (values.length = values'.length) &&
            borrowedEq identical 0 values values')
  | _, _ => false

/-- Child by child, from a position on. -/
def borrowedEq (identical : List Nat → Bool) (i : Nat) :
    List BorrowedValue → List BorrowedValue → Bool
  | a :: as, b :: bs =>
      a.eq (fun path => identical (i :: path)) b &&
        borrowedEq identical (i + 1) as bs
  | _, _ => true

end

/-- One write to a hasher.  What an integer feeds is left to the backing
library. -/
inductive HashWrite where
  | isize (value : Int)
  | usize (value : Nat)
  | u8 (value : UInt8)
  | u64 (value : Nat)
  | bytes (value : List UInt8)
  | words (value : List UInt32)
  | integer (value : Int)
deriving DecidableEq

mutual

/-- What a value feeds to the hasher: its discriminant, then its content; the
cached length of a clone is not fed. -/
def BorrowedValue.hash : BorrowedValue → List HashWrite
  | .integer v => [.isize 0, .integer v]
  | .boolean v => [.isize 1, .u8 (if v then 1 else 0)]
  | .float v => [.isize 2, .u64 v.bits]
  | .bytes v => [.isize 3, .usize v.length, .bytes v]
  | .string v => [.isize 4, .usize v.length, .words v]
  | .clone _ _ values =>
      .isize 5 :: .usize values.length :: hashValues values

def hashValues : List BorrowedValue → List HashWrite
  | [] => []
  | value :: rest => value.hash ++ hashValues rest

end

/-- Equality of owned values; clones that share their record are equal at
once. -/
def ChoiceValue.eqOwned (sameRecord : Bool) (identical : List Nat → Bool) :
    ChoiceValue → ChoiceValue → Bool
  | .integer a, .integer b => decide (a = b)
  | .boolean a, .boolean b => decide (a = b)
  | .float a, .float b => decide (a.bits = b.bits)
  | .bytes a, .bytes b => decide (a = b)
  | .string a, .string b => decide (a = b)
  | .clone a, .clone b => sameRecord || a.borrow.eq identical b.borrow
  | _, _ => false

section Pointers

mutual

/-- Whether clones that are one object read the same, wherever a comparison
meets them. -/
def BorrowedValue.SharedReads (identical : List Nat → Bool) :
    BorrowedValue → BorrowedValue → Prop
  | .clone holder flatLen values, .clone holder' flatLen' values' =>
      (holder = holder' → identical [] = true →
        flatLen = flatLen' ∧ values = values') ∧
        SharedRead identical 0 values values'
  | _, _ => True

def SharedRead (identical : List Nat → Bool) (i : Nat) :
    List BorrowedValue → List BorrowedValue → Prop
  | a :: as, b :: bs =>
      a.SharedReads (fun path => identical (i :: path)) b ∧
        SharedRead identical (i + 1) as bs
  | _, _ => True

end

/-- Which of the clones that a comparison meets are one object. -/
structure Pointers (a b : BorrowedValue) where
  identical : List Nat → Bool
  sound : a.SharedReads identical b

/-- The same for owned values, whose records may be shared. -/
structure OwnedPointers (a b : ChoiceValue) extends
    Pointers a.borrow b.borrow where
  sameRecord : Bool
  sameRecord_sound : sameRecord = true → a = b

/-- Induction over borrowed values that also assumes the statement for the
children of clones. -/
theorem borrowedInduction {motive : List BorrowedValue → Prop}
    (nil : motive [])
    (scalar : ∀ value rest,
      (∀ holder flatLen values,
        value ≠ BorrowedValue.clone holder flatLen values) →
      motive rest → motive (value :: rest))
    (clone : ∀ holder flatLen values rest, motive values → motive rest →
      motive (.clone holder flatLen values :: rest)) :
    ∀ values, motive values
  | [] => nil
  | .integer v :: rest =>
      scalar _ rest (by simp) (borrowedInduction nil scalar clone rest)
  | .boolean v :: rest =>
      scalar _ rest (by simp) (borrowedInduction nil scalar clone rest)
  | .float v :: rest =>
      scalar _ rest (by simp) (borrowedInduction nil scalar clone rest)
  | .bytes v :: rest =>
      scalar _ rest (by simp) (borrowedInduction nil scalar clone rest)
  | .string v :: rest =>
      scalar _ rest (by simp) (borrowedInduction nil scalar clone rest)
  | .clone holder flatLen values :: rest =>
      clone holder flatLen values rest
        (borrowedInduction nil scalar clone values)
        (borrowedInduction nil scalar clone rest)

/-- Where no two things are one object there is nothing to read. -/
theorem sharedRead_false (i : Nat) (left right : List BorrowedValue) :
    SharedRead (fun _ => false) i left right := by
  induction left using borrowedInduction generalizing i right with
  | nil => cases right <;> exact trivial
  | scalar value rest hvalue ih =>
      cases right with
      | nil => exact trivial
      | cons value' rest' =>
          refine ⟨?_, ih (i + 1) rest'⟩
          cases value with
          | clone holder flatLen values =>
              exact absurd rfl (hvalue holder flatLen values)
          | _ => exact trivial
  | clone holder flatLen values rest ihValues ihRest =>
      cases right with
      | nil => exact trivial
      | cons value' rest' =>
          refine ⟨?_, ihRest (i + 1) rest'⟩
          cases value' with
          | clone holder' flatLen' values' =>
              exact ⟨fun _ h => (by cases h), ihValues 0 values'⟩
          | _ => exact trivial

/-- A value read beside itself reads the same everywhere. -/
theorem sharedRead_self (identical : List Nat → Bool) (i : Nat)
    (values : List BorrowedValue) : SharedRead identical i values values := by
  induction values using borrowedInduction generalizing identical i with
  | nil => exact trivial
  | scalar value rest hvalue ih =>
      refine ⟨?_, ih identical (i + 1)⟩
      cases value with
      | clone holder flatLen values =>
          exact absurd rfl (hvalue holder flatLen values)
      | _ => exact trivial
  | clone holder flatLen values rest ihValues ihRest =>
      refine ⟨⟨fun _ _ => ⟨rfl, rfl⟩, ?_⟩, ihRest identical (i + 1)⟩
      exact ihValues _ 0

/-- Nothing is shared. -/
def Pointers.apart (a b : BorrowedValue) : Pointers a b where
  identical := fun _ => false
  sound := (sharedRead_false 0 [a] [b]).1

/-- A value beside itself, shared wherever one likes. -/
def Pointers.self (identical : List Nat → Bool) (a : BorrowedValue) :
    Pointers a a where
  identical := identical
  sound := by
    have hshared := sharedRead_self
      (fun path => identical path.tail) 0 [a]
    exact hshared.1

end Pointers

section Views

mutual

/-- The view without what clones are borrowed from. -/
def BorrowedValue.ref : BorrowedValue → ChoiceValueRef
  | .integer v => .integer v
  | .boolean v => .boolean v
  | .float v => .float v
  | .bytes v => .bytes v
  | .string v => .string v
  | .clone _ flatLen values => .clone flatLen (borrowedRefs values)

def borrowedRefs : List BorrowedValue → List ChoiceValueRef
  | [] => []
  | value :: rest => value.ref :: borrowedRefs rest

end

theorem length_borrowedRefs (values : List BorrowedValue) :
    (borrowedRefs values).length = values.length := by
  induction values with
  | nil => rfl
  | cons value rest ih =>
      rw [borrowedRefs, List.length_cons, ih, List.length_cons]

theorem borrowedRefs_borrowNodes (nodes : List ChoiceNode) :
    borrowedRefs (borrowNodes nodes) = nodeRefs nodes := by
  induction nodes using nodesInduction with
  | nil => rfl
  | scalar data forced rest hdata ih =>
      rw [borrowNodes, borrowedRefs, ih, nodeRefs]
      cases data with
      | clone stream => exact absurd rfl (hdata stream)
      | _ => rfl
  | clone nodes spans flatLen forced rest ihNodes ihRest =>
      rw [borrowNodes, borrowedRefs, ihRest, nodeRefs, ChoiceNode.borrow,
        ChoiceData.borrow, RealizedStream.borrow, BorrowedValue.ref, ihNodes,
        ChoiceNode.valueRef, ChoiceData.valueRef, RealizedStream.valueRef]

/-- Induction over owned values that also assumes the statement for the
children of records of bare values. -/
theorem valuesInduction {motive : List ChoiceValue → Prop}
    (nil : motive [])
    (scalar : ∀ value rest, (∀ record, value ≠ ChoiceValue.clone record) →
      motive rest → motive (value :: rest))
    (values : ∀ children flatLen rest, motive children → motive rest →
      motive (.clone (.values children flatLen) :: rest))
    (realized : ∀ stream rest, motive rest →
      motive (.clone (.realized stream) :: rest)) :
    ∀ sequence, motive sequence
  | [] => nil
  | .integer v :: rest =>
      scalar _ rest (by simp)
        (valuesInduction nil scalar values realized rest)
  | .boolean v :: rest =>
      scalar _ rest (by simp)
        (valuesInduction nil scalar values realized rest)
  | .float v :: rest =>
      scalar _ rest (by simp)
        (valuesInduction nil scalar values realized rest)
  | .bytes v :: rest =>
      scalar _ rest (by simp)
        (valuesInduction nil scalar values realized rest)
  | .string v :: rest =>
      scalar _ rest (by simp)
        (valuesInduction nil scalar values realized rest)
  | .clone (.values children flatLen) :: rest =>
      values children flatLen rest
        (valuesInduction nil scalar values realized children)
        (valuesInduction nil scalar values realized rest)
  | .clone (.realized stream) :: rest =>
      realized stream rest (valuesInduction nil scalar values realized rest)

theorem ref_borrow_stream (stream : RealizedStream) (holder : CloneHolder) :
    (stream.borrow holder).ref = stream.valueRef := by
  obtain ⟨nodes, spans, flatLen⟩ := stream
  rw [RealizedStream.borrow, BorrowedValue.ref, borrowedRefs_borrowNodes,
    RealizedStream.valueRef]

theorem borrowedRefs_borrowValues (values : List ChoiceValue) :
    borrowedRefs (borrowValues values) = valueRefs values := by
  induction values using valuesInduction with
  | nil => rfl
  | scalar value rest hvalue ih =>
      rw [borrowValues, borrowedRefs, ih, valueRefs]
      cases value with
      | clone record => exact absurd rfl (hvalue record)
      | _ => rfl
  | values children flatLen rest ihChildren ihRest =>
      rw [borrowValues, borrowedRefs, ihRest, valueRefs, ChoiceValue.borrow,
        CloneRecord.borrow, BorrowedValue.ref, ihChildren, ChoiceValue.ref,
        CloneRecord.ref]
  | realized stream rest ih =>
      rw [borrowValues, borrowedRefs, ih, valueRefs, ChoiceValue.borrow,
        CloneRecord.borrow, ref_borrow_stream, ChoiceValue.ref,
        CloneRecord.ref]

theorem ChoiceData.ref_borrow (data : ChoiceData) :
    data.borrow.ref = data.valueRef := by
  cases data with
  | clone stream => exact ref_borrow_stream stream .stream
  | _ => rfl

theorem ChoiceValue.ref_borrow (value : ChoiceValue) :
    value.borrow.ref = value.ref := by
  have hsingle := borrowedRefs_borrowValues [value]
  simpa [borrowValues, borrowedRefs, valueRefs] using hsingle

/-- Equality of borrowed values is equality of their views, whatever is one
object. -/
theorem borrowedEq_eq_true_iff {identical : List Nat → Bool} {i : Nat}
    {left right : List BorrowedValue} (hlength : left.length = right.length)
    (hshared : SharedRead identical i left right) :
    borrowedEq identical i left right = true ↔
      borrowedRefs left = borrowedRefs right := by
  induction left using borrowedInduction generalizing identical i right with
  | nil =>
      rw [List.length_eq_zero_iff.mp hlength.symm]
      simp [borrowedEq]
  | scalar value rest hvalue ih =>
      cases right with
      | nil => simp at hlength
      | cons value' rest' =>
          rw [SharedRead] at hshared
          rw [borrowedEq, Bool.and_eq_true, borrowedRefs, borrowedRefs,
            List.cons.injEq, ih (by simpa using hlength) hshared.2]
          refine and_congr_left fun _ => ?_
          cases value with
          | clone holder flatLen values =>
              exact absurd rfl (hvalue holder flatLen values)
          | _ =>
              cases value' <;>
                simp [BorrowedValue.eq, BorrowedValue.ref, ext_bits_iff]
  | clone holder flatLen values rest ihValues ihRest =>
      cases right with
      | nil => simp at hlength
      | cons value' rest' =>
          rw [SharedRead] at hshared
          rw [borrowedEq, Bool.and_eq_true, borrowedRefs, borrowedRefs,
            List.cons.injEq, ihRest (by simpa using hlength) hshared.2]
          refine and_congr_left fun _ => ?_
          cases value' with
          | clone holder' flatLen' values' =>
              obtain ⟨hone, hvalues⟩ := hshared.1
              rw [BorrowedValue.eq, BorrowedValue.ref, BorrowedValue.ref,
                ChoiceValueRef.clone.injEq, Bool.or_eq_true, Bool.and_eq_true,
                Bool.and_eq_true, Bool.and_eq_true, decide_eq_true_eq,
                decide_eq_true_eq, decide_eq_true_eq]
              constructor
              · rintro (⟨hholder, hidentical⟩ | ⟨⟨hflat, hchildren⟩, heq⟩)
                · obtain ⟨rfl, rfl⟩ := hone hholder hidentical
                  exact ⟨rfl, rfl⟩
                · exact ⟨hflat, (ihValues hchildren hvalues).mp heq⟩
              · rintro ⟨hflat, hrefs⟩
                have hchildren : values.length = values'.length := by
                  rw [← length_borrowedRefs, hrefs, length_borrowedRefs]
                exact .inr ⟨⟨hflat, hchildren⟩,
                  (ihValues hchildren hvalues).mpr hrefs⟩
          | _ => simp [BorrowedValue.eq, BorrowedValue.ref]

theorem BorrowedValue.eq_iff {a b : BorrowedValue} (pointers : Pointers a b) :
    a.eq pointers.identical b = true ↔ a.ref = b.ref := by
  have hshared : SharedRead (fun path => pointers.identical path.tail) 0
      [a] [b] := ⟨pointers.sound, trivial⟩
  have hlength : [a].length = [b].length := rfl
  have hsingle := borrowedEq_eq_true_iff hlength hshared
  simpa [borrowedEq, borrowedRefs] using hsingle

/-- Equal views feed the hasher the same. -/
theorem hashValues_eq_of_refs {left right : List BorrowedValue}
    (hrefs : borrowedRefs left = borrowedRefs right) :
    hashValues left = hashValues right := by
  induction left using borrowedInduction generalizing right with
  | nil =>
      cases right with
      | nil => rfl
      | cons value' rest' => simp [borrowedRefs] at hrefs
  | scalar value rest hvalue ih =>
      cases right with
      | nil => simp [borrowedRefs] at hrefs
      | cons value' rest' =>
          rw [borrowedRefs, borrowedRefs, List.cons.injEq] at hrefs
          rw [hashValues, hashValues, ih hrefs.2]
          refine congrArg (· ++ hashValues rest') ?_
          have hvalue' := hrefs.1
          cases value with
          | clone holder flatLen values =>
              exact absurd rfl (hvalue holder flatLen values)
          | _ =>
              cases value' <;>
                simp_all [BorrowedValue.ref, BorrowedValue.hash]
  | clone holder flatLen values rest ihValues ihRest =>
      cases right with
      | nil => simp [borrowedRefs] at hrefs
      | cons value' rest' =>
          rw [borrowedRefs, borrowedRefs, List.cons.injEq] at hrefs
          rw [hashValues, hashValues, ihRest hrefs.2]
          refine congrArg (· ++ hashValues rest') ?_
          have hvalue' := hrefs.1
          cases value' with
          | clone holder' flatLen' values' =>
              rw [BorrowedValue.ref, BorrowedValue.ref,
                ChoiceValueRef.clone.injEq] at hvalue'
              have hchildren : values.length = values'.length := by
                rw [← length_borrowedRefs, hvalue'.2, length_borrowedRefs]
              rw [BorrowedValue.hash, BorrowedValue.hash, hchildren,
                ihValues hvalue'.2]
          | _ => simp [BorrowedValue.ref] at hvalue'

theorem BorrowedValue.hash_eq_of_ref {a b : BorrowedValue}
    (href : a.ref = b.ref) : a.hash = b.hash := by
  have hsingle : hashValues [a] = hashValues [b] := by
    apply hashValues_eq_of_refs
    rw [borrowedRefs, borrowedRefs, href]
    rfl
  simpa [hashValues] using hsingle

end Views

section Meaning

/-- What a value is: a scalar or a sequence, or the values of a clone's
children. -/
inductive PlainValue where
  | integer (value : Int)
  | boolean (value : Bool)
  | float (value : Binary64)
  | bytes (value : List UInt8)
  | string (value : List UInt32)
  | clone (values : List PlainValue)

mutual

def ChoiceValueRef.plain : ChoiceValueRef → PlainValue
  | .integer v => .integer v
  | .boolean v => .boolean v
  | .float v => .float v
  | .bytes v => .bytes v
  | .string v => .string v
  | .clone _ values => .clone (plainValues values)

def plainValues : List ChoiceValueRef → List PlainValue
  | [] => []
  | value :: rest => value.plain :: plainValues rest

end

mutual

/-- How many choices a value stands for. -/
def PlainValue.count : PlainValue → Nat
  | .clone values => 1 + plainCount values
  | _ => 1

def plainCount : List PlainValue → Nat
  | [] => 0
  | value :: rest => value.count + plainCount rest

end

theorem plainCount_plainValues (values : List ChoiceValueRef) :
    plainCount (plainValues values) = refsCount values := by
  induction values using refsInduction with
  | nil => rfl
  | scalar value rest hvalue ih =>
      rw [plainValues, plainCount, refsCount, ih]
      cases value with
      | clone flatLen values => exact absurd rfl (hvalue flatLen values)
      | _ => rfl
  | clone flatLen values rest ihValues ihRest =>
      rw [plainValues, plainCount, refsCount, ihRest, ChoiceValueRef.plain,
        PlainValue.count, ihValues, ChoiceValueRef.count]

/-- With right caches the view of a value says no more than the value is. -/
theorem refs_eq_iff_plainValues {left right : List ChoiceValueRef}
    (hleft : RefsCoherent left) (hright : RefsCoherent right) :
    left = right ↔ plainValues left = plainValues right := by
  refine ⟨congrArg plainValues, fun hplain => ?_⟩
  induction left using refsInduction generalizing right with
  | nil =>
      cases right with
      | nil => rfl
      | cons value' rest' => simp [plainValues] at hplain
  | scalar value rest hvalue ih =>
      cases right with
      | nil => simp [plainValues] at hplain
      | cons value' rest' =>
          rw [plainValues, plainValues, List.cons.injEq] at hplain
          rw [ih hleft.2 hright.2 hplain.2]
          refine congrArg (· :: rest') ?_
          have hvalue' := hplain.1
          cases value with
          | clone flatLen values => exact absurd rfl (hvalue flatLen values)
          | _ => cases value' <;> simp_all [ChoiceValueRef.plain]
  | clone flatLen values rest ihValues ihRest =>
      cases right with
      | nil => simp [plainValues] at hplain
      | cons value' rest' =>
          rw [plainValues, plainValues, List.cons.injEq] at hplain
          rw [ihRest hleft.2 hright.2 hplain.2]
          refine congrArg (· :: rest') ?_
          have hvalue' := hplain.1
          cases value' with
          | clone flatLen' values' =>
              rw [ChoiceValueRef.plain, ChoiceValueRef.plain,
                PlainValue.clone.injEq] at hvalue'
              obtain ⟨hflat, hvalues⟩ := hleft.1
              obtain ⟨hflat', hvalues'⟩ := hright.1
              have hsame := ihValues hvalues hvalues' hvalue'
              rw [hflat, hflat', hsame]
          | _ => simp [ChoiceValueRef.plain] at hvalue'

theorem ChoiceValueRef.eq_iff_plain {a b : ChoiceValueRef}
    (ha : a.Coherent) (hb : b.Coherent) : a = b ↔ a.plain = b.plain := by
  have hleft : RefsCoherent [a] := ⟨ha, trivial⟩
  have hright : RefsCoherent [b] := ⟨hb, trivial⟩
  have hsingle := refs_eq_iff_plainValues hleft hright
  simpa [plainValues] using hsingle

end Meaning

section Constructors

mutual

/-- Whether every clone in a value is what a constructor makes of its
children. -/
def ChoiceValue.Built : ChoiceValue → Prop
  | .clone record => record.Built
  | _ => True

def CloneRecord.Built : CloneRecord → Prop
  | .values children flatLen =>
      CloneRecord.values children flatLen = .fromValues children ∧
        ValuesBuilt children
  | .realized stream => stream.Coherent

def ValuesBuilt : List ChoiceValue → Prop
  | [] => True
  | value :: rest => value.Built ∧ ValuesBuilt rest

end

theorem CloneRecord.fromValues_built {values : List ChoiceValue}
    (hvalues : ValuesBuilt values) : (CloneRecord.fromValues values).Built :=
  ⟨rfl, hvalues⟩

/-- Nodes whose streams were realized cache right lengths. -/
theorem nodeRefs_coherent {nodes : List ChoiceNode}
    (hnodes : NodesCoherent nodes) :
    RefsCoherent (nodeRefs nodes) ∧
      flattenedLen nodes = refsCount (nodeRefs nodes) := by
  induction nodes using nodesInduction with
  | nil => exact ⟨trivial, rfl⟩
  | scalar data forced rest hdata ih =>
      obtain ⟨hrest, hcount⟩ := ih hnodes.2
      rw [nodeRefs, flattenedLen_cons, hcount, refsCount, RefsCoherent]
      cases data with
      | clone stream => exact absurd rfl (hdata stream)
      | _ => exact ⟨⟨trivial, hrest⟩, rfl⟩
  | clone nodes spans flatLen forced rest ihNodes ihRest =>
      obtain ⟨⟨hflat, hchildren⟩, hnodes⟩ := hnodes
      obtain ⟨hvalues, hcount⟩ := ihNodes hchildren
      obtain ⟨hrest, hcountRest⟩ := ihRest hnodes
      rw [nodeRefs, flattenedLen_cons, hcountRest, refsCount]
      refine ⟨⟨⟨hflat.trans hcount, hvalues⟩, hrest⟩, ?_⟩
      rw [ChoiceNode.valueRef, ChoiceData.valueRef, RealizedStream.valueRef,
        ChoiceValueRef.count, ← hcount, ← hflat]
      rfl

theorem RealizedStream.Coherent.ref {stream : RealizedStream}
    (hstream : stream.Coherent) : stream.valueRef.Coherent := by
  obtain ⟨nodes, spans, flatLen⟩ := stream
  obtain ⟨hflat, hnodes⟩ := hstream
  obtain ⟨hvalues, hcount⟩ := nodeRefs_coherent hnodes
  exact ⟨hflat.trans hcount, hvalues⟩

/-- Values whose records were constructed cache right lengths. -/
theorem valueRefs_coherent {values : List ChoiceValue}
    (hvalues : ValuesBuilt values) : RefsCoherent (valueRefs values) := by
  induction values using valuesInduction with
  | nil => exact trivial
  | scalar value rest hvalue ih =>
      refine ⟨?_, ih hvalues.2⟩
      cases value with
      | clone record => exact absurd rfl (hvalue record)
      | _ => exact trivial
  | values children flatLen rest ihChildren ihRest =>
      obtain ⟨⟨hmade, hchildren⟩, hrest⟩ := hvalues
      have hcoherent := ihChildren hchildren
      rw [CloneRecord.fromValues, CloneRecord.values.injEq] at hmade
      exact ⟨⟨hmade.2.trans (flattenedValuesLen_eq hcoherent), hcoherent⟩,
        ihRest hrest⟩
  | realized stream rest ih =>
      exact ⟨RealizedStream.Coherent.ref hvalues.1, ih hvalues.2⟩

theorem ChoiceValue.Built.ref {value : ChoiceValue} (hvalue : value.Built) :
    value.ref.Coherent := by
  have hsingle : ValuesBuilt [value] := ⟨hvalue, trivial⟩
  exact (valueRefs_coherent hsingle).1

end Constructors

/-- A value where it is kept, built by the constructors: owned, or beside its
constraint in a node. -/
inductive KeptValue where
  | owned (value : ChoiceValue) (built : value.Built)
  | inNode (data : ChoiceData) (coherent : data.Coherent)

namespace KeptValue

def borrow : KeptValue → BorrowedValue
  | owned value _ => value.borrow
  | inNode data _ => data.borrow

/-- The value that is kept. -/
def plain (kept : KeptValue) : PlainValue :=
  kept.borrow.ref.plain

theorem coherent (kept : KeptValue) : kept.borrow.ref.Coherent := by
  cases kept with
  | owned value built =>
      rw [borrow, ChoiceValue.ref_borrow]
      exact built.ref
  | inNode data hdata =>
      rw [borrow, ChoiceData.ref_borrow]
      cases data with
      | clone stream => exact RealizedStream.Coherent.ref hdata
      | _ => exact trivial

/-- Kept values are equal when they are the same value, however they are kept
and whatever they share. -/
theorem eq_iff (a b : KeptValue) (pointers : Pointers a.borrow b.borrow) :
    a.borrow.eq pointers.identical b.borrow = true ↔ a.plain = b.plain := by
  rw [BorrowedValue.eq_iff pointers]
  exact ChoiceValueRef.eq_iff_plain a.coherent b.coherent

end KeptValue

/-- Sharing records changes no answer about owned values. -/
theorem ChoiceValue.eqOwned_eq {a b : ChoiceValue}
    (pointers : OwnedPointers a b) :
    a.eqOwned pointers.sameRecord pointers.identical b =
      a.borrow.eq pointers.identical b.borrow := by
  cases a with
  | clone record =>
      cases b with
      | clone record' =>
          rw [eqOwned]
          cases hsame : pointers.sameRecord with
          | false => rfl
          | true =>
              have hequal := pointers.sameRecord_sound hsame
              have hrefs : (ChoiceValue.clone record).borrow.ref =
                  (ChoiceValue.clone record').borrow.ref := by
                rw [hequal]
              exact ((BorrowedValue.eq_iff pointers.toPointers).mpr hrefs).symm
      | _ =>
          cases record with
          | values children flatLen => rfl
          | realized stream =>
              obtain ⟨nodes, spans, flatLen⟩ := stream
              rfl
  | _ =>
      cases b with
      | clone record' =>
          cases record' with
          | values children flatLen => rfl
          | realized stream =>
              obtain ⟨nodes, spans, flatLen⟩ := stream
              rfl
      | _ => rfl

/-- The cached length of a constructed record is the number of choices below
it. -/
theorem CloneRecord.flatLen_eq {record : CloneRecord} (hrecord : record.Built) :
    record.flatLen = plainCount (plainValues (valueRefs record.ownedValues)) := by
  have hvalue : (ChoiceValue.clone record).Built := hrecord
  have hcoherent := hvalue.ref
  rw [plainCount_plainValues]
  cases record with
  | values children flatLen => exact hcoherent.1
  | realized stream =>
      obtain ⟨nodes, spans, flatLen⟩ := stream
      have hvalues : valueRefs (nodes.map ChoiceNode.value) = nodeRefs nodes := by
        rw [valueRefs_eq_map, nodeRefs_eq_map, List.map_map]
        exact congrArg (nodes.map ·) (funext ChoiceNode.ref_value)
      rw [ownedValues, RealizedStream.nodes, hvalues]
      exact hcoherent.1

/-- Equality of values that the constructors made is semantic, through records
of bare values, records of realized nodes and bare streams at every depth.
Whatever is one object, two kept values are equal exactly when they are the
same value, as they would be if nothing was shared, and then they feed the
hasher the same; owned values may take the shortcut of a shared record; this
equality is an equivalence; and every cached length counts the choices
below. -/
theorem choiceValue_equality_semantic :
    (∀ (a b : KeptValue) (pointers : Pointers a.borrow b.borrow),
      (a.borrow.eq pointers.identical b.borrow = true ↔ a.plain = b.plain) ∧
        a.borrow.eq pointers.identical b.borrow =
          a.borrow.eq (fun _ => false) b.borrow ∧
        (a.borrow.eq pointers.identical b.borrow = true →
          a.borrow.hash = b.borrow.hash)) ∧
      (∀ (a b : ChoiceValue) (pointers : OwnedPointers a b),
        a.eqOwned pointers.sameRecord pointers.identical b =
          a.borrow.eq (fun _ => false) b.borrow) ∧
      (Equivalence fun a b : KeptValue =>
        a.borrow.eq (fun _ => false) b.borrow = true) ∧
      (∀ record : {record : CloneRecord // record.Built},
        record.val.flatLen =
          plainCount (plainValues (valueRefs record.val.ownedValues))) ∧
      (∀ stream : {stream : RealizedStream // stream.Coherent},
        stream.val.flatLen =
          plainCount (plainValues (nodeRefs stream.val.nodes))) := by
  have hsame : ∀ {a b : BorrowedValue} (pointers : Pointers a b),
      a.eq pointers.identical b = a.eq (fun _ => false) b := by
    intro a b pointers
    rw [Bool.eq_iff_iff, BorrowedValue.eq_iff pointers]
    exact (BorrowedValue.eq_iff (Pointers.apart a b)).symm
  refine ⟨fun a b pointers => ⟨a.eq_iff b pointers, hsame pointers, ?_⟩,
    ?_, ?_, ?_, ?_⟩
  · intro hequal
    exact BorrowedValue.hash_eq_of_ref ((BorrowedValue.eq_iff pointers).mp hequal)
  · intro a b pointers
    rw [ChoiceValue.eqOwned_eq pointers, hsame pointers.toPointers]
  · have hplain : ∀ a b : KeptValue,
        a.borrow.eq (fun _ => false) b.borrow = true ↔ a.plain = b.plain :=
      fun a b => a.eq_iff b (.apart a.borrow b.borrow)
    constructor
    · intro a
      exact (hplain a a).mpr rfl
    · intro a b hab
      exact (hplain b a).mpr ((hplain a b).mp hab).symm
    · intro a b c hab hbc
      exact (hplain a c).mpr (((hplain a b).mp hab).trans ((hplain b c).mp hbc))
  · rintro ⟨record, hrecord⟩
    exact CloneRecord.flatLen_eq hrecord
  · rintro ⟨⟨nodes, spans, flatLen⟩, hflat, hnodes⟩
    rw [plainCount_plainValues]
    exact hflat.trans (nodeRefs_coherent hnodes).2

end Hegel
