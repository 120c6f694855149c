/-
Whatever is stored is read back.  The decoder follows the encoding block by
block; the clone levels it still allows are an upper bound for the nesting of
what is left to read.
-/
import Hegel.Database

namespace Hegel

section Short

variable [UBigBytes]

mutual

/-- Whether all lengths fit into the 32 bits reserved for them. -/
def ChoiceValueRef.Short : ChoiceValueRef → Prop
  | .integer v => (toSignedBytesLe v).length < 2 ^ 32
  | .bytes v => v.length < 2 ^ 32
  | .string v => v.length < 2 ^ 32
  | .clone _ values => values.length < 2 ^ 32 ∧ RefsShort values
  | _ => True

def RefsShort : List ChoiceValueRef → Prop
  | [] => True
  | value :: rest => value.Short ∧ RefsShort rest

end

end Short

mutual

/-- The value the decoder builds, all of its clones stored as bare values. -/
def ChoiceValueRef.owned : ChoiceValueRef → ChoiceValue
  | .integer v => .integer v
  | .boolean v => .boolean v
  | .float v => .float v
  | .bytes v => .bytes v
  | .string v => .string v
  | .clone _ values => .clone (.fromValues (refsOwned values))

def refsOwned : List ChoiceValueRef → List ChoiceValue
  | [] => []
  | value :: rest => value.owned :: refsOwned rest

end

/-- With right caches, rebuilding does not change the value. -/
theorem valueRefs_refsOwned {values : List ChoiceValueRef}
    (hvalues : RefsCoherent values) :
    valueRefs (refsOwned values) = values := by
  induction values using refsInduction with
  | nil => rfl
  | scalar value rest hvalue ih =>
      rw [refsOwned, valueRefs, ih hvalues.2]
      refine congrArg (· :: rest) ?_
      cases value with
      | clone flatLen values => exact absurd rfl (hvalue flatLen values)
      | _ => rfl
  | clone flatLen values rest ihValues ihRest =>
      obtain ⟨⟨hlen, hcoherent⟩, hrest⟩ := hvalues
      have hrefs := ihValues hcoherent
      have hcount : flattenedValuesLen (refsOwned values) =
          refsCount values := by
        rw [flattenedValuesLen_eq (by rw [hrefs]; exact hcoherent), hrefs]
      rw [refsOwned, valueRefs, ihRest hrest, ChoiceValueRef.owned,
        ChoiceValue.ref, CloneRecord.fromValues, CloneRecord.ref, hrefs,
        hcount, hlen]

section Blocks

variable {machine : Machine} {bytes : List UInt8} {pos : Nat}

theorem readU32_block (hexact : machine.ExactTo bytes.length) {n : Nat}
    (hn : n < 2 ^ 32) (hblock : BlockAt bytes pos (leBytes 4 n)) :
    readU32 machine bytes pos = .done (n, pos + 4) := by
  have hend := hblock.end_le
  have hslice := hblock.slice
  rw [LittleEndian.length_leBytes] at hend hslice
  rw [readU32, hexact _ _ hend, Checked.done_bind, if_neg (by omega), hslice,
    Checked.done_bind, LittleEndian.ofLeBytes_leBytes hn]
  rfl

theorem deserializeAnyInteger_block [UBigBytes]
    (hexact : machine.ExactTo bytes.length) {v : Int}
    (hv : (toSignedBytesLe v).length < 2 ^ 32)
    (hblock : BlockAt bytes pos (serializeAnyInteger v)) :
    deserializeAnyInteger machine bytes pos =
      .done (v, pos + (serializeAnyInteger v).length) := by
  rw [serializeAnyInteger] at hblock ⊢
  have hlen := hblock.tail.left
  have hmag := hblock.tail.right
  have hlenEnd := hlen.end_le
  have hlenSlice := hlen.getSlice
  have hmagEnd := hmag.end_le
  have hmagSlice := hmag.getSlice
  rw [LittleEndian.length_leBytes] at hlenEnd hlenSlice hmagEnd hmagSlice
  rw [deserializeAnyInteger, hblock.getByte, Checked.done_bind,
    hexact _ _ hblock.lt_length, Checked.done_bind, if_pos rfl,
    hexact _ _ hlenEnd, Checked.done_bind, hlenSlice, Checked.done_bind]
  simp only []
  rw [LittleEndian.ofLeBytes_leBytes hv, hexact _ _ hmagEnd,
    Checked.done_bind, hmagSlice, Checked.done_bind,
    fromSignedBytesLe_toSignedBytesLe, List.length_cons,
    List.length_append, LittleEndian.length_leBytes]
  have hnext : pos + 1 + 4 + (toSignedBytesLe v).length =
      pos + (4 + (toSignedBytesLe v).length + 1) := by omega
  rw [hnext]
  rfl

theorem deserializeBytes_block (hexact : machine.ExactTo bytes.length)
    {v : List UInt8} (hv : v.length < 2 ^ 32)
    (hblock : BlockAt bytes pos (leBytes 4 v.length ++ v)) :
    deserializeBytes machine bytes pos =
      .done (v, pos + (4 + v.length)) := by
  have hpayload := hblock.right
  have hend := hpayload.end_le
  have hslice := hpayload.slice
  rw [LittleEndian.length_leBytes] at hend hslice
  rw [deserializeBytes, readU32_block hexact hv hblock.left,
    Checked.done_bind]
  simp only []
  rw [hexact _ _ hend, Checked.done_bind, if_neg (by omega), hslice,
    Checked.done_bind, Nat.add_assoc]
  rfl

theorem length_codepoints (v : List UInt32) :
    (v.flatMap fun cp => leBytes 4 cp.toNat).length = v.length * 4 := by
  induction v with
  | nil => rfl
  | cons cp rest ih =>
      rw [List.flatMap_cons, List.length_append, ih,
        LittleEndian.length_leBytes, List.length_cons]
      omega

theorem deserializeCodepoints_block (hexact : machine.ExactTo bytes.length)
    {v : List UInt32}
    (hblock : BlockAt bytes pos (v.flatMap fun cp => leBytes 4 cp.toNat)) :
    deserializeCodepoints machine bytes v.length pos =
      .done (v, pos + v.length * 4) := by
  induction v generalizing pos with
  | nil => rfl
  | cons cp rest ih =>
      rw [List.flatMap_cons] at hblock
      have hrest := hblock.right
      have hend := hblock.left.end_le
      have hslice := hblock.left.slice
      rw [LittleEndian.length_leBytes] at hrest hend hslice
      rw [List.length_cons, deserializeCodepoints, hexact _ _ hend,
        Checked.done_bind, hslice, Checked.done_bind, ih hrest,
        Checked.done_bind, LittleEndian.ofLeBytes_leBytes cp.toNat_lt,
        UInt32.ofNat_toNat]
      simp only [Checked.pure_eq_done, Nat.add_mul, Nat.one_mul,
        Nat.add_assoc, Nat.add_comm]

theorem deserializeString_block (hexact : machine.ExactTo bytes.length)
    {v : List UInt32} (hv : v.length < 2 ^ 32)
    (hblock : BlockAt bytes pos
      (leBytes 4 v.length ++ v.flatMap fun cp => leBytes 4 cp.toNat)) :
    deserializeString machine bytes pos =
      .done (v, pos + (4 + v.length * 4)) := by
  have hpayload := hblock.right
  have hend := hpayload.end_le
  rw [LittleEndian.length_leBytes] at hpayload hend
  rw [length_codepoints] at hend
  rw [deserializeString, readU32_block hexact hv hblock.left,
    Checked.done_bind]
  simp only []
  rw [if_neg (by omega), hexact _ _ hend, Checked.done_bind,
    if_neg (by omega), deserializeCodepoints_block hexact hpayload,
    Nat.add_assoc]

end Blocks

section Entries

variable [UBigBytes] {machine : Machine} {bytes : List UInt8}
  {children : Nat → Checked (List ChoiceValue × Nat)}

/-- A scalar entry is read back, however clones are decoded. -/
theorem deserializeEntry_scalar (hexact : machine.ExactTo bytes.length)
    {value : ChoiceValueRef}
    (hvalue : ∀ flatLen values, value ≠ .clone flatLen values)
    (hshort : value.Short) {pos : Nat}
    (hblock : BlockAt bytes pos (serializeOneChoice value)) :
    deserializeEntry machine bytes children pos =
      .done (value.owned, pos + (serializeOneChoice value).length) := by
  have hstep : ∀ {tag : UInt8} {payload : List UInt8},
      BlockAt bytes pos (tag :: payload) → ¬pos ≥ bytes.length ∧
        byteAt bytes pos = .done tag ∧ machine.add pos 1 = .done (pos + 1) :=
    fun h => ⟨Nat.not_le.mpr h.lt_length, h.byteAt, hexact _ _ h.lt_length⟩
  rw [deserializeEntry]
  cases value with
  | clone flatLen values => exact absurd rfl (hvalue flatLen values)
  | integer v =>
      rw [serializeOneChoice] at hblock ⊢
      obtain ⟨hpos, htag, hnext⟩ := hstep hblock
      rw [if_neg hpos, htag, Checked.done_bind, hnext, Checked.done_bind]
      simp only [UInt8.toNat_zero]
      rw [deserializeAnyInteger_block hexact hshort hblock.tail,
        Checked.done_bind, List.length_cons, Nat.add_assoc, Nat.add_comm 1]
      rfl
  | boolean v =>
      rw [serializeOneChoice] at hblock ⊢
      obtain ⟨hpos, htag, hnext⟩ := hstep hblock
      have hbyte := hblock.tail
      rw [if_neg hpos, htag, Checked.done_bind, hnext, Checked.done_bind]
      simp only [UInt8.toNat_one]
      rw [if_neg (Nat.not_le.mpr hbyte.lt_length), hbyte.byteAt,
        Checked.done_bind, hexact _ _ hbyte.lt_length, Checked.done_bind]
      cases v <;> rfl
  | float v =>
      rw [serializeOneChoice] at hblock ⊢
      obtain ⟨hpos, htag, hnext⟩ := hstep hblock
      have hend := hblock.tail.end_le
      have hslice := hblock.tail.slice
      rw [LittleEndian.length_leBytes] at hend hslice
      rw [if_neg hpos, htag, Checked.done_bind, hnext, Checked.done_bind]
      simp only [show (2 : UInt8).toNat = 2 from rfl]
      rw [hexact _ _ hend, Checked.done_bind, if_neg (by omega), hslice,
        Checked.done_bind, LittleEndian.ofLeBytes_leBytes v.isLt,
        Binary64.ofBits_bits, List.length_cons, LittleEndian.length_leBytes]
      rfl
  | bytes v =>
      rw [serializeOneChoice] at hblock ⊢
      obtain ⟨hpos, htag, hnext⟩ := hstep hblock
      rw [if_neg hpos, htag, Checked.done_bind, hnext, Checked.done_bind]
      simp only [show (3 : UInt8).toNat = 3 from rfl]
      rw [deserializeBytes_block hexact hshort hblock.tail,
        Checked.done_bind, List.length_cons, List.length_append,
        LittleEndian.length_leBytes, Nat.add_assoc, Nat.add_comm 1]
      rfl
  | string v =>
      rw [serializeOneChoice] at hblock ⊢
      obtain ⟨hpos, htag, hnext⟩ := hstep hblock
      rw [if_neg hpos, htag, Checked.done_bind, hnext, Checked.done_bind]
      simp only [show (4 : UInt8).toNat = 4 from rfl]
      rw [deserializeString_block hexact hshort hblock.tail,
        Checked.done_bind, List.length_cons, List.length_append,
        LittleEndian.length_leBytes, length_codepoints, Nat.add_assoc,
        Nat.add_comm 1]
      rfl

/-- A clone entry is read back if the list below it is. -/
theorem deserializeEntry_clone (hexact : machine.ExactTo bytes.length)
    {values : List ChoiceValueRef} {flatLen pos : Nat}
    (hblock : BlockAt bytes pos (serializeOneChoice (.clone flatLen values)))
    (hchildren : children (pos + 1) = .done (refsOwned values,
      pos + 1 + (serializeChoiceList values).length)) :
    deserializeEntry machine bytes children pos =
      .done ((ChoiceValueRef.clone flatLen values).owned,
        pos + (serializeOneChoice (.clone flatLen values)).length) := by
  rw [serializeOneChoice] at hblock ⊢
  rw [deserializeEntry, if_neg (Nat.not_le.mpr hblock.lt_length),
    hblock.byteAt, Checked.done_bind, hexact _ _ hblock.lt_length,
    Checked.done_bind]
  simp only [show (5 : UInt8).toNat = 5 from rfl]
  rw [hchildren, Checked.done_bind, List.length_cons, Nat.add_assoc,
    Nat.add_comm 1]
  rfl

/-- Entries are read back at any number of levels that leaves room for the
clones among them. -/
theorem deserializeEntries_block (hexact : machine.ExactTo bytes.length)
    (values : List ChoiceValueRef) (hshort : RefsShort values) {levels : Nat}
    (hdepth : refsDepth values ≤ levels) {pos : Nat}
    (hblock : BlockAt bytes pos (serializeEntries values)) :
    deserializeEntries machine bytes
        (deserializeChoiceList machine bytes levels) values.length pos =
      .done (refsOwned values, pos + (serializeEntries values).length) := by
  induction values using refsInduction generalizing levels pos with
  | nil => rfl
  | scalar value rest hvalue ih =>
      rw [refsDepth] at hdepth
      rw [serializeEntries] at hblock ⊢
      rw [List.length_cons, deserializeEntries,
        deserializeEntry_scalar hexact hvalue hshort.1 hblock.left,
        Checked.done_bind]
      simp only []
      rw [ih hshort.2 (by omega) hblock.right, Checked.done_bind,
        List.length_append, Nat.add_assoc]
      rfl
  | clone flatLen values rest ihValues ihRest =>
      rw [refsDepth, ChoiceValueRef.cloneDepth] at hdepth
      rw [serializeEntries] at hblock ⊢
      obtain ⟨⟨hcount, hvalues⟩, hrest⟩ := hshort
      cases levels with
      | zero => omega
      | succ levels =>
          have hlist := hblock.left
          rw [serializeOneChoice] at hlist
          have hchildren : deserializeChoiceList machine bytes (levels + 1)
              (pos + 1) = .done (refsOwned values,
                pos + 1 + (serializeChoiceList values).length) := by
            have hentries := hlist.tail.right
            rw [LittleEndian.length_leBytes] at hentries
            rw [deserializeChoiceList,
              readU32_block hexact hcount hlist.tail.left, Checked.done_bind]
            simp only []
            rw [ihValues hvalues (by omega) hentries, serializeChoiceList,
              List.length_append, LittleEndian.length_leBytes,
              Nat.add_assoc (pos + 1)]
          rw [List.length_cons, deserializeEntries,
            deserializeEntry_clone hexact hblock.left hchildren,
            Checked.done_bind]
          simp only []
          rw [ihRest hrest (by omega) hblock.right, Checked.done_bind,
            List.length_append, Nat.add_assoc]
          rfl

end Entries

/-- Values that can be stored: lengths fit into 32 bits, clones nest within
the limit, and cached lengths are right. -/
structure Storable [UBigBytes] (values : List ChoiceValue) : Prop where
  length_lt : values.length < 2 ^ 32
  short : RefsShort (valueRefs values)
  depth_le : refsDepth (valueRefs values) ≤ maxCloneDepth
  coherent : RefsCoherent (valueRefs values)

section RoundTrip

variable [UBigBytes]

/-- The decoder returns the rebuilt values. -/
theorem deserializeChoices_serializeChoices {values : List ChoiceValue}
    (hvalues : Storable values) {machine : Machine}
    (hexact : machine.ExactTo (serializeChoices values).length) :
    deserializeChoices machine (serializeChoices values) =
      .done (refsOwned (valueRefs values)) := by
  have hlength : (valueRefs values).length = values.length := by
    rw [valueRefs_eq_map, List.length_map]
  have hcount : (valueRefs values).length < 2 ^ 32 :=
    hlength ▸ hvalues.length_lt
  rw [deserializeChoices, deserializeChoiceList]
  generalize hbytes : serializeChoices values = bytes at *
  have hblock : BlockAt bytes 0 (serializeChoiceList (valueRefs values)) := by
    rw [← hbytes, serializeChoices, ← valueRefs_eq_map]
    exact BlockAt.self _
  rw [serializeChoiceList] at hblock
  have hentries := hblock.right
  rw [LittleEndian.length_leBytes] at hentries
  rw [readU32_block hexact hcount hblock.left, Checked.done_bind]
  simp only []
  rw [deserializeEntries_block hexact _ hvalues.short hvalues.depth_le
    hentries]
  rfl

/-- Stored values are read back as equal values, and nodes are stored exactly
as their values are, however the clone records among them are kept. -/
theorem storage_roundTrip (values : List ChoiceValue)
    (hvalues : Storable values) :
    (∃ read, deserializeChoices .unbounded (serializeChoices values) =
        .done read ∧ SameValues read values) ∧
      ((serializeChoices values).length < 2 ^ 64 →
        ∃ read, deserializeChoices .usize64 (serializeChoices values) =
          .done read ∧ SameValues read values) ∧
      ∀ nodes : List ChoiceNode,
        serializeNodes nodes = serializeChoices (nodes.map ChoiceNode.value) ∧
        (SameValues (nodes.map ChoiceNode.value) values →
          serializeNodes nodes = serializeChoices values) := by
  have hread : SameValues (refsOwned (valueRefs values)) values :=
    (sameValues_iff _ _).mpr (valueRefs_refsOwned hvalues.coherent)
  have hnodes : ∀ nodes : List ChoiceNode,
      serializeNodes nodes =
        serializeChoices (nodes.map ChoiceNode.value) := by
    intro nodes
    simp [serializeNodes, serializeChoices, Function.comp_def]
  constructor
  · exact ⟨_, deserializeChoices_serializeChoices hvalues
      (exactTo_unbounded _), hread⟩
  · constructor
    · intro hlength
      exact ⟨_, deserializeChoices_serializeChoices hvalues
        (exactTo_usize64 hlength), hread⟩
    · intro nodes
      constructor
      · exact hnodes nodes
      · intro heq
        have hrefs := (sameValues_iff _ _).mp heq
        rw [valueRefs_eq_map, valueRefs_eq_map] at hrefs
        rw [hnodes nodes, serializeChoices, serializeChoices, hrefs]

end RoundTrip

/-- Negative and empty values below nested clones, in both storage shapes. -/
def storableSample : List ChoiceValue :=
  [.integer (-300), .boolean true, .float .nan, .bytes [], .string [0x1F600],
    .clone (.fromValues [.clone .empty, .integer 128])]

theorem storable_sample : @Storable .digits storableSample := by
  let reference := UBigBytes.digits
  have hnegative : (toSignedBytesLe (-300)).length < 2 ^ 32 := by decide
  have hpositive : (toSignedBytesLe 128).length < 2 ^ 32 := by decide
  have hbytes : ([] : List UInt8).length < 2 ^ 32 := by decide
  have hstring : [(0x1F600 : UInt32)].length < 2 ^ 32 := by decide
  have hinner : ([] : List ChoiceValueRef).length < 2 ^ 32 := by decide
  have houter : (valueRefs [.clone .empty, .integer 128]).length < 2 ^ 32 :=
    by decide
  refine ⟨by decide, ⟨hnegative, trivial, trivial, hbytes, hstring,
    ⟨houter, ⟨hinner, trivial⟩, hpositive, trivial⟩, trivial⟩, by decide, ?_⟩
  exact ⟨trivial, trivial, trivial, trivial, trivial,
    ⟨rfl, ⟨rfl, trivial⟩, trivial, trivial⟩, trivial⟩

theorem storage_roundTrip_sample :
    ∃ read, @deserializeChoices .digits .unbounded
        (@serializeChoices .digits storableSample) = .done read ∧
      SameValues read storableSample :=
  (@storage_roundTrip .digits storableSample storable_sample).1

end Hegel
