/-
The value encoding is a prefix code.  Tags tell the kinds apart, lengths are
announced before what varies in length, and equal bytes are equal values; so
encodings can be concatenated without separators and still tell any two
sequences of values apart.
-/
import Hegel.ExecCache
import Hegel.Lib.PrefixCode
import Hegel.StorageRoundTrip

namespace Hegel

/-- The type tag of a value. -/
def ChoiceValueRef.tag : ChoiceValueRef → UInt8
  | .integer _ => 0
  | .boolean _ => 1
  | .float _ => 2
  | .bytes _ => 3
  | .string _ => 4
  | .clone _ _ => 5

theorem codepoint_isPrefixCode :
    IsPrefixCode (fun cp : UInt32 => leBytes 4 cp.toNat) fun _ => True := by
  intro a _ b _ front back heq
  obtain ⟨hvalue, hrest⟩ :=
    leBytes_append_cancel a.toNat_lt b.toNat_lt heq
  exact ⟨UInt32.toNat_inj.mp hvalue, hrest⟩

theorem codepoints_cancel {a b : List UInt32} (ha : a.length < 2 ^ 32)
    (hb : b.length < 2 ^ 32) {front back : List UInt8}
    (heq : (leBytes 4 a.length ++ a.flatMap fun cp => leBytes 4 cp.toNat) ++
        front =
      (leBytes 4 b.length ++ b.flatMap fun cp => leBytes 4 cp.toNat) ++
        back) :
    a = b ∧ front = back := by
  rw [List.append_assoc, List.append_assoc] at heq
  obtain ⟨hlength, hrest⟩ := leBytes_append_cancel ha hb heq
  exact cancels_flatMap (fun cp _ => codepoint_isPrefixCode cp trivial)
    (fun _ _ => trivial) hlength hrest

section Encoding

variable [UBigBytes]

/-- What follows the tag. -/
def ChoiceValueRef.payload : ChoiceValueRef → List UInt8
  | .integer v => serializeAnyInteger v
  | .boolean v => [UInt8.ofNat v.toNat]
  | .float v => leBytes 8 v.bits
  | .bytes v => lengthPrefixed 4 v
  | .string v => leBytes 4 v.length ++ v.flatMap fun cp => leBytes 4 cp.toNat
  | .clone _ children => serializeChoiceList children

theorem serializeOneChoice_eq (value : ChoiceValueRef) :
    serializeOneChoice value = value.tag :: value.payload := by
  cases value <;> rfl

theorem serializeEntries_eq_flatMap (values : List ChoiceValueRef) :
    serializeEntries values = values.flatMap serializeOneChoice := by
  induction values with
  | nil => rfl
  | cons value rest ih => rw [serializeEntries, ih, List.flatMap_cons]

/-- Values whose lengths fit and whose cached lengths are right. -/
def ChoiceValueRef.Keyable (value : ChoiceValueRef) : Prop :=
  value.Short ∧ value.Coherent

theorem keyable_of_mem {values : List ChoiceValueRef}
    (hshort : RefsShort values) (hcoherent : RefsCoherent values) :
    ∀ value ∈ values, value.Keyable := by
  induction values with
  | nil => simp
  | cons value rest ih =>
      intro other hother
      rcases List.mem_cons.mp hother with rfl | hrest
      · exact ⟨hshort.1, hcoherent.1⟩
      · exact ih hshort.2 hcoherent.2 other hrest

theorem serializeAnyInteger_cancel {a b : Int}
    (ha : (toSignedBytesLe a).length < 2 ^ 32)
    (hb : (toSignedBytesLe b).length < 2 ^ 32) {front back : List UInt8}
    (heq : serializeAnyInteger a ++ front = serializeAnyInteger b ++ back) :
    a = b ∧ front = back := by
  have hcancel := lengthPrefixed_append_cancel ha hb
    (List.cons.inj heq).2
  refine ⟨?_, hcancel.2⟩
  rw [← fromSignedBytesLe_toSignedBytesLe a, hcancel.1,
    fromSignedBytesLe_toSignedBytesLe]

/-- A list of values cancels if each of the values does. -/
theorem serializeChoiceList_cancel {left right : List ChoiceValueRef}
    (hleft : left.length < 2 ^ 32) (hright : right.length < 2 ^ 32)
    (hcancels : ∀ a ∈ left, CancelsAt serializeOneChoice
      ChoiceValueRef.Keyable a)
    (hkeyable : ∀ b ∈ right, b.Keyable) {front back : List UInt8}
    (heq : serializeChoiceList left ++ front =
      serializeChoiceList right ++ back) :
    left = right ∧ front = back := by
  rw [serializeChoiceList, serializeChoiceList, List.append_assoc,
    List.append_assoc, serializeEntries_eq_flatMap,
    serializeEntries_eq_flatMap] at heq
  obtain ⟨hlength, hrest⟩ := leBytes_append_cancel hleft hright heq
  exact cancels_flatMap hcancels hkeyable hlength hrest

/-- Telling a value apart comes down to telling apart the payloads of values
with the same tag. -/
theorem cancelsAt_of_payload {a : ChoiceValueRef}
    (hpayload : ∀ b : ChoiceValueRef, b.Keyable → a.tag = b.tag →
      ∀ front back, a.payload ++ front = b.payload ++ back →
        a = b ∧ front = back) :
    CancelsAt serializeOneChoice ChoiceValueRef.Keyable a := by
  intro b hb front back heq
  rw [serializeOneChoice_eq, serializeOneChoice_eq, List.cons_append,
    List.cons_append, List.cons.injEq] at heq
  exact hpayload b hb heq.1 front back heq.2

theorem cancelsAt_scalar {a : ChoiceValueRef} (ha : a.Keyable)
    (hscalar : ∀ flatLen values, a ≠ .clone flatLen values) :
    CancelsAt serializeOneChoice ChoiceValueRef.Keyable a := by
  apply cancelsAt_of_payload
  intro b hb htag front back heq
  cases a with
  | clone flatLen values => exact absurd rfl (hscalar flatLen values)
  | integer v =>
      cases b with
      | integer w =>
          obtain ⟨hvalue, hrest⟩ := serializeAnyInteger_cancel ha.1 hb.1 heq
          exact ⟨congrArg _ hvalue, hrest⟩
      | _ => exact absurd htag (by simp [ChoiceValueRef.tag])
  | boolean v =>
      cases b with
      | boolean w =>
          obtain ⟨hbyte, hrest⟩ := List.cons.inj heq
          refine ⟨?_, hrest⟩
          cases v <;> cases w <;> simp_all
      | _ => exact absurd htag (by simp [ChoiceValueRef.tag])
  | float v =>
      cases b with
      | float w =>
          obtain ⟨hbits, hrest⟩ := leBytes_append_cancel v.isLt w.isLt heq
          exact ⟨congrArg _ (Binary64.ext_bits hbits), hrest⟩
      | _ => exact absurd htag (by simp [ChoiceValueRef.tag])
  | bytes v =>
      cases b with
      | bytes w =>
          obtain ⟨hvalue, hrest⟩ := lengthPrefixed_append_cancel ha.1 hb.1 heq
          exact ⟨congrArg _ hvalue, hrest⟩
      | _ => exact absurd htag (by simp [ChoiceValueRef.tag])
  | string v =>
      cases b with
      | string w =>
          obtain ⟨hvalue, hrest⟩ := codepoints_cancel ha.1 hb.1 heq
          exact ⟨congrArg _ hvalue, hrest⟩
      | _ => exact absurd htag (by simp [ChoiceValueRef.tag])

theorem cancelsAt_clone {flatLen : Nat} {values : List ChoiceValueRef}
    (ha : (ChoiceValueRef.clone flatLen values).Keyable)
    (hvalues : ∀ value ∈ values, CancelsAt serializeOneChoice
      ChoiceValueRef.Keyable value) :
    CancelsAt serializeOneChoice ChoiceValueRef.Keyable
      (.clone flatLen values) := by
  apply cancelsAt_of_payload
  intro b hb htag front back heq
  cases b with
  | clone flatLen' values' =>
      obtain ⟨⟨hlength', hshort'⟩, hlen', hcoherent'⟩ := hb
      obtain ⟨hsame, hrest⟩ := serializeChoiceList_cancel ha.1.1 hlength'
        hvalues (keyable_of_mem hshort' hcoherent') heq
      have hflat := ha.2.1
      rw [hsame, ← hlen'] at hflat
      rw [hsame, hflat]
      exact ⟨rfl, hrest⟩
  | _ => exact absurd htag (by simp [ChoiceValueRef.tag])

theorem cancelsAt_of_mem (values : List ChoiceValueRef)
    (hvalues : ∀ value ∈ values, value.Keyable) :
    ∀ value ∈ values, CancelsAt serializeOneChoice
      ChoiceValueRef.Keyable value := by
  induction values using refsInduction with
  | nil => simp
  | scalar value rest hscalar ih =>
      rw [List.forall_mem_cons] at hvalues ⊢
      exact ⟨cancelsAt_scalar hvalues.1 hscalar, ih hvalues.2⟩
  | clone flatLen values rest ihValues ihRest =>
      rw [List.forall_mem_cons] at hvalues ⊢
      have hchildren : ∀ value ∈ values, value.Keyable :=
        keyable_of_mem hvalues.1.1.2 hvalues.1.2.2
      exact ⟨cancelsAt_clone hvalues.1 (ihValues hchildren),
        ihRest hvalues.2⟩

/-- No value's encoding can be mistaken for another's, whatever follows. -/
theorem serializeOneChoice_isPrefixCode :
    IsPrefixCode serializeOneChoice ChoiceValueRef.Keyable := by
  intro value hvalue
  exact cancelsAt_of_mem [value] (by simpa using hvalue) value
    List.mem_cons_self

end Encoding

namespace KindLedger

variable [UBigBytes]

/-- The bytes whose digest the ledger looks up after some nodes. -/
def prefixInput (nodes : List ChoiceNode) : List UInt8 :=
  nodes.flatMap fun node => serializeOneChoice node.valueRef

/-- The ledger's fold with the digest of every prefix taken afresh. -/
def observeAfter (entries : KindLedger) (front : List ChoiceNode) :
    List ChoiceNode → KindLedger × Option KindMismatch
  | [] => (entries, none)
  | node :: rest =>
      match observeKind entries (Digest.of (prefixInput front)) node.kind with
      | .error mismatch => (entries, some mismatch)
      | .ok entries => observeAfter entries (front ++ [node]) rest

theorem observeFrom_eq_observeAfter (entries : KindLedger)
    (front nodes : List ChoiceNode) :
    observeFrom entries (Digest.of (prefixInput front)) nodes =
      observeAfter entries front nodes := by
  induction nodes generalizing entries front with
  | nil => rfl
  | cons node rest ih =>
      have hdigest : (Digest.of (prefixInput front)).update
          (serializeOneChoice node.valueRef) =
            Digest.of (prefixInput (front ++ [node])) := by
        rw [prefixInput, prefixInput, List.flatMap_append,
          List.flatMap_singleton, Digest.of, Digest.of, Digest.update_append]
      rw [observeFrom, observeAfter, hdigest]
      cases observeKind entries (Digest.of (prefixInput front)) node.kind with
      | error mismatch => rfl
      | ok entries => exact ih entries (front ++ [node])

/-- The rolling digest is the digest of the values drawn so far. -/
theorem observe_eq_observeAfter (entries : KindLedger)
    (nodes : List ChoiceNode) :
    entries.observe nodes = observeAfter entries [] nodes :=
  observeFrom_eq_observeAfter entries [] nodes

end KindLedger

section Keys

variable [UBigBytes]

/-- Sequences of values that keys are made of. -/
structure Keys (values : List ChoiceValue) : Prop where
  length_lt : values.length < 2 ^ 32
  keyable : ∀ value ∈ values, value.ref.Keyable

variable {left right : List ChoiceValue}

theorem keys_of_short (hcount : left.length < 2 ^ 32)
    (hshort : RefsShort (valueRefs left))
    (hcoherent : RefsCoherent (valueRefs left)) : Keys left := by
  refine ⟨hcount, fun value hvalue => ?_⟩
  apply keyable_of_mem hshort hcoherent
  rw [valueRefs_eq_map]
  exact List.mem_map_of_mem hvalue

theorem Keys.forall_ref (hvalues : Keys left) :
    ∀ value ∈ left.map ChoiceValue.ref, value.Keyable := by
  intro value hvalue
  obtain ⟨owned, howned, rfl⟩ := List.mem_map.mp hvalue
  exact hvalues.keyable owned howned

/-- Concatenated encodings are equal for equal sequences only. -/
theorem flatMap_serializeOneChoice_eq_iff (hleft : Keys left)
    (hright : Keys right) :
    (left.flatMap fun value => serializeOneChoice value.ref) =
        (right.flatMap fun value => serializeOneChoice value.ref) ↔
      SameValues left right := by
  have hmap : ∀ values : List ChoiceValue,
      (values.flatMap fun value => serializeOneChoice value.ref) =
        (values.map ChoiceValue.ref).flatMap serializeOneChoice :=
    fun values => by rw [List.flatMap_map]
  rw [sameValues_iff, valueRefs_eq_map, valueRefs_eq_map, hmap, hmap]
  constructor
  · apply serializeOneChoice_isPrefixCode.flatMap_injective
    · intro value
      rw [serializeOneChoice_eq]
      exact List.cons_ne_nil _ _
    · exact hleft.forall_ref
    · exact hright.forall_ref
  · intro hrefs
    rw [hrefs]

/-- Keys are equal for equal sequences only. -/
theorem serializeChoices_eq_iff (hleft : Keys left) (hright : Keys right) :
    serializeChoices left = serializeChoices right ↔
      SameValues left right := by
  rw [sameValues_iff, valueRefs_eq_map, valueRefs_eq_map,
    serializeChoices, serializeChoices]
  constructor
  · intro heq
    have hcancels : ∀ a ∈ left.map ChoiceValue.ref,
        CancelsAt serializeOneChoice ChoiceValueRef.Keyable a :=
      fun a ha => serializeOneChoice_isPrefixCode a (hleft.forall_ref a ha)
    have hend := congrArg (· ++ []) heq
    exact (serializeChoiceList_cancel (by simpa using hleft.length_lt)
      (by simpa using hright.length_lt) hcancels hright.forall_ref hend).1
  · intro hrefs
    rw [hrefs]

/-- Two sequences of values have the same concatenated encodings, the same
cache key and, drawn by two runs, the same ledger input, exactly when they are
equal; and no encoding is a proper prefix of another. -/
theorem valueCode_uniquelyDecodable (left right : List ChoiceValue)
    (hleft : Keys left) (hright : Keys right) :
    ((left.flatMap fun value => serializeOneChoice value.ref) =
        (right.flatMap fun value => serializeOneChoice value.ref) ↔
      SameValues left right) ∧
    (∀ a ∈ left, ∀ b ∈ right,
      serializeOneChoice a.ref <+: serializeOneChoice b.ref →
        serializeOneChoice a.ref = serializeOneChoice b.ref ∧
          a.eq b = true) ∧
    (serializeChoices left = serializeChoices right ↔
      SameValues left right) ∧
    ∀ first second : List ChoiceNode, first.map ChoiceNode.value = left →
      second.map ChoiceNode.value = right →
        (serializeNodes first = serializeNodes second ↔
          SameValues left right) ∧
        (KindLedger.prefixInput first = KindLedger.prefixInput second ↔
          SameValues left right) := by
  have hnodes : ∀ nodes : List ChoiceNode,
      serializeNodes nodes = serializeChoices (nodes.map ChoiceNode.value) ∧
        KindLedger.prefixInput nodes =
          (nodes.map ChoiceNode.value).flatMap fun value =>
            serializeOneChoice value.ref := by
    intro nodes
    simp [serializeNodes, serializeChoices, KindLedger.prefixInput,
      List.flatMap_map, Function.comp_def]
  refine ⟨flatMap_serializeOneChoice_eq_iff hleft hright, ?_,
    serializeChoices_eq_iff hleft hright, ?_⟩
  · intro a ha b hb hfront
    have href : a.ref = b.ref :=
      serializeOneChoice_isPrefixCode.eq_of_prefix (hleft.keyable a ha)
        (hright.keyable b hb) hfront
    exact ⟨by rw [href], (ChoiceValueRef.eq_iff _ _).mpr href⟩
  · rintro first second rfl rfl
    rw [(hnodes first).1, (hnodes second).1, (hnodes first).2,
      (hnodes second).2]
    exact ⟨serializeChoices_eq_iff hleft hright,
      flatMap_serializeOneChoice_eq_iff hleft hright⟩

end Keys

theorem keys_sample : @Keys .digits storableSample := by
  let reference := UBigBytes.digits
  exact keys_of_short (by decide) storable_sample.short
    storable_sample.coherent

theorem valueCode_uniquelyDecodable_sample :
    @serializeChoices .digits storableSample =
        @serializeChoices .digits (storableSample.take 2) ↔
      SameValues storableSample (storableSample.take 2) := by
  have htake : @Keys .digits (storableSample.take 2) := by
    let reference := UBigBytes.digits
    exact ⟨by decide, fun value hvalue =>
      keys_sample.keyable value (List.mem_of_mem_take hvalue)⟩
  exact (@valueCode_uniquelyDecodable .digits _ _ keys_sample
    htake).2.2.1

end Hegel
