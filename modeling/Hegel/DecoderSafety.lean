/-
The decoder of stored choices is safe on every byte string.  Positions stay
inside the input, so no addition overflows and no access is out of range; what
is decoded nests within the clone limit and caches the right lengths.
-/
import Hegel.Database

namespace Hegel

/-- A byte slice: no allocation exceeds the signed address range. -/
structure ByteSlice where
  bytes : List UInt8
  length_lt : bytes.length < 2 ^ 63

section Reads

variable {bytes : List UInt8}

/-- Reading a length moves four bytes ahead. -/
theorem ensures_readU32 (hbytes : bytes.length < 2 ^ 63) {pos : Nat}
    (hpos : pos ≤ bytes.length) :
    (readU32 .usize64 bytes pos).Ensures fun result =>
      result.1 < 2 ^ 32 ∧ pos < result.2 ∧ result.2 ≤ bytes.length := by
  apply Checked.ensures_bind (ensures_add (by omega))
  rintro stop rfl
  by_cases hstop : pos + 4 > bytes.length
  · rw [if_pos hstop]
    exact Checked.ensures_rejected
  · rw [if_neg hstop]
    apply Checked.ensures_bind (ensures_slice (by omega) (by omega))
    intro raw hraw
    have hlt := LittleEndian.ofLeBytes_lt raw
    rw [hraw, Nat.add_sub_cancel_left] at hlt
    exact ⟨hlt, by omega, by omega⟩

theorem ensures_deserializeAnyInteger [UBigBytes]
    (hbytes : bytes.length < 2 ^ 63) (pos : Nat) :
    (deserializeAnyInteger .usize64 bytes pos).Ensures fun result =>
      pos < result.2 ∧ result.2 ≤ bytes.length := by
  apply Checked.ensures_bind ensures_getByte
  intro sub hpos
  apply Checked.ensures_bind (ensures_add (by omega))
  rintro next rfl
  by_cases hsub : sub = 10
  · rw [if_pos hsub]
    apply Checked.ensures_bind (ensures_add (by omega))
    rintro stop rfl
    apply Checked.ensures_bind ensures_getSlice
    rintro lenRaw ⟨-, hstop, hlength⟩
    have hlen := LittleEndian.ofLeBytes_lt lenRaw
    rw [hlength, Nat.add_sub_cancel_left] at hlen
    apply Checked.ensures_bind (ensures_add (by omega))
    rintro stop rfl
    apply Checked.ensures_bind ensures_getSlice
    rintro mag ⟨hle, hend, -⟩
    exact ⟨by simp only []; omega, hend⟩
  · rw [if_neg hsub]
    cases hformat : nativeFormat sub.toNat with
    | none => exact Checked.ensures_rejected
    | some format =>
        obtain ⟨width, signed⟩ := format
        have hwidth : width ≤ 16 := by
          unfold nativeFormat at hformat
          split at hformat <;> simp at hformat <;> omega
        apply Checked.ensures_bind (ensures_add (by omega))
        rintro stop rfl
        apply Checked.ensures_bind ensures_getSlice
        rintro raw ⟨hle, hend, -⟩
        exact ⟨by simp only []; omega, hend⟩

/-- Codepoints are read inside a range that was checked beforehand. -/
theorem ensures_deserializeCodepoints (hbytes : bytes.length < 2 ^ 63)
    (len : Nat) {pos : Nat} (hpos : pos + len * 4 ≤ bytes.length) :
    (deserializeCodepoints .usize64 bytes len pos).Ensures fun result =>
      result.2 = pos + len * 4 := by
  induction len generalizing pos with
  | zero => exact rfl
  | succ len ih =>
      apply Checked.ensures_bind (ensures_add (by omega))
      rintro stop rfl
      apply Checked.ensures_bind (ensures_slice (by omega) (by omega))
      intro raw _
      apply Checked.ensures_bind (ih (by omega))
      rintro ⟨rest, next⟩ hnext
      simp only [] at hnext
      show next = pos + (len + 1) * 4
      omega

theorem ensures_deserializeBytes (hbytes : bytes.length < 2 ^ 63) {pos : Nat}
    (hpos : pos ≤ bytes.length) :
    (deserializeBytes .usize64 bytes pos).Ensures fun result =>
      pos < result.2 ∧ result.2 ≤ bytes.length := by
  apply Checked.ensures_bind (ensures_readU32 hbytes hpos)
  rintro ⟨len, next⟩ ⟨hlen, hnext, hend⟩
  simp only [] at hlen hnext hend
  apply Checked.ensures_bind (ensures_add (by omega))
  rintro stop rfl
  by_cases hstop : next + len > bytes.length
  · rw [if_pos hstop]
    exact Checked.ensures_rejected
  · rw [if_neg hstop]
    apply Checked.ensures_bind (ensures_slice (by omega) (by omega))
    intro raw _
    exact ⟨by simp only []; omega, by simp only []; omega⟩

theorem ensures_deserializeString (hbytes : bytes.length < 2 ^ 63)
    {pos : Nat} (hpos : pos ≤ bytes.length) :
    (deserializeString .usize64 bytes pos).Ensures fun result =>
      pos < result.2 ∧ result.2 ≤ bytes.length := by
  apply Checked.ensures_bind (ensures_readU32 hbytes hpos)
  rintro ⟨len, next⟩ ⟨hlen, hnext, hend⟩
  simp only [] at hlen hnext hend
  by_cases hlarge : len * 4 ≥ 2 ^ 64
  · omega
  · simp only [if_neg hlarge]
    apply Checked.ensures_bind (ensures_add (by omega))
    rintro stop rfl
    by_cases hstop : next + len * 4 > bytes.length
    · rw [if_pos hstop]
      exact Checked.ensures_rejected
    · rw [if_neg hstop]
      apply (ensures_deserializeCodepoints hbytes len (by omega)).mono
      intro result hresult
      rw [hresult]
      omega

end Reads

/-- What is known about decoded values and the position behind them: they
nest below the levels, cache the right lengths, and took at least one byte
for each choice. -/
structure DecodedWithin (bytes : List UInt8) (levels start : Nat)
    (result : List ChoiceValue × Nat) : Prop where
  start_le : start ≤ result.2
  le_length : result.2 ≤ bytes.length
  coherent : RefsCoherent (valueRefs result.1)
  depth_lt : refsDepth (valueRefs result.1) < levels
  count_le : refsCount (valueRefs result.1) ≤ result.2 - start

section Entries

variable {bytes : List UInt8} {levels : Nat}
  {children : Nat → Checked (List ChoiceValue × Nat)}

/-- A scalar entry is one choice, and took at least its tag. -/
theorem decodedWithin_scalar {value : ChoiceValue} {pos next : Nat}
    (hvalue : ∀ record, value ≠ .clone record) (hpos : pos < next)
    (hnext : next ≤ bytes.length) :
    DecodedWithin bytes (levels + 1) pos ([value], next) := by
  have hfacts : value.ref.Coherent ∧ value.ref.cloneDepth = 0 ∧
      value.ref.count = 1 := by
    cases value with
    | clone record => exact absurd rfl (hvalue record)
    | _ => exact ⟨True.intro, rfl, rfl⟩
  obtain ⟨hcoherent, hdepth, hcount⟩ := hfacts
  refine ⟨hpos.le, hnext, ⟨hcoherent, True.intro⟩, ?_, ?_⟩
  · simp [valueRefs, refsDepth, hdepth]
  · simp only [valueRefs, refsCount, hcount]
    omega

/-- A clone entry counts itself and its children. -/
theorem decodedWithin_clone {values : List ChoiceValue} {pos next : Nat}
    (hvalues : DecodedWithin bytes levels (pos + 1) (values, next)) :
    DecodedWithin bytes (levels + 1) pos
      ([.clone (.fromValues values)], next) := by
  obtain ⟨hstart, hlength, hcoherent, hdepth, hcount⟩ := hvalues
  simp only [] at hstart hlength hcoherent hdepth hcount
  refine ⟨by simp only []; omega, hlength,
    ⟨⟨flattenedValuesLen_eq hcoherent, hcoherent⟩, True.intro⟩, ?_, ?_⟩
  · simp only [valueRefs, ChoiceValue.ref, CloneRecord.fromValues,
      CloneRecord.ref, refsDepth, ChoiceValueRef.cloneDepth]
    omega
  · simp only [valueRefs, ChoiceValue.ref, CloneRecord.fromValues,
      CloneRecord.ref, refsCount, ChoiceValueRef.count]
    omega

/-- One entry is decoded safely if the list below a clone is. -/
theorem ensures_deserializeEntry [UBigBytes] (hbytes : bytes.length < 2 ^ 63)
    (hchildren : ∀ pos ≤ bytes.length,
      (children pos).Ensures (DecodedWithin bytes levels pos))
    (pos : Nat) :
    (deserializeEntry .usize64 bytes children pos).Ensures fun result =>
      DecodedWithin bytes (levels + 1) pos ([result.1], result.2) := by
  rw [deserializeEntry]
  by_cases hpos : pos ≥ bytes.length
  · rw [if_pos hpos]
    exact Checked.ensures_rejected
  · rw [if_neg hpos]
    apply Checked.ensures_bind (ensures_byteAt (by omega))
    intro tag _
    apply Checked.ensures_bind (ensures_add (by omega))
    rintro next rfl
    split
    -- integer
    · apply Checked.ensures_bind (ensures_deserializeAnyInteger hbytes _)
      rintro ⟨value, next⟩ ⟨hnext, hend⟩
      exact decodedWithin_scalar (by simp) (by simp only [] at hnext; omega)
        hend
    -- boolean
    · by_cases hmissing : pos + 1 ≥ bytes.length
      · rw [if_pos hmissing]
        exact Checked.ensures_rejected
      · rw [if_neg hmissing]
        apply Checked.ensures_bind (ensures_byteAt (by omega))
        intro byte _
        apply Checked.ensures_bind (ensures_add (by omega))
        rintro next rfl
        exact decodedWithin_scalar (by simp) (by omega) (by omega)
    -- float
    · apply Checked.ensures_bind (ensures_add (by omega))
      rintro stop rfl
      by_cases hstop : pos + 1 + 8 > bytes.length
      · rw [if_pos hstop]
        exact Checked.ensures_rejected
      · rw [if_neg hstop]
        apply Checked.ensures_bind (ensures_slice (by omega) (by omega))
        intro raw _
        exact decodedWithin_scalar (by simp) (by omega) (by omega)
    -- bytes
    · apply Checked.ensures_bind (ensures_deserializeBytes hbytes (by omega))
      rintro ⟨value, next⟩ ⟨hnext, hend⟩
      exact decodedWithin_scalar (by simp) (by simp only [] at hnext; omega)
        hend
    -- string
    · apply Checked.ensures_bind (ensures_deserializeString hbytes (by omega))
      rintro ⟨value, next⟩ ⟨hnext, hend⟩
      exact decodedWithin_scalar (by simp) (by simp only [] at hnext; omega)
        hend
    -- clone
    · apply Checked.ensures_bind (hchildren (pos + 1) (by omega))
      rintro ⟨values, next⟩ hvalues
      exact decodedWithin_clone hvalues
    · exact Checked.ensures_rejected

theorem DecodedWithin.append {value : ChoiceValue}
    {rest : List ChoiceValue} {pos middle next : Nat}
    (hvalue : DecodedWithin bytes levels pos ([value], middle))
    (hrest : DecodedWithin bytes levels middle (rest, next)) :
    DecodedWithin bytes levels pos (value :: rest, next) := by
  obtain ⟨hstart, hlength, hcoherent, hdepth, hcount⟩ := hvalue
  obtain ⟨hstart', hlength', hcoherent', hdepth', hcount'⟩ := hrest
  simp only [valueRefs, refsDepth, refsCount] at *
  exact ⟨by simp only []; omega, hlength', ⟨hcoherent.1, hcoherent'⟩,
    by simp only [valueRefs, refsDepth]; omega,
    by simp only [valueRefs, refsCount]; omega⟩

theorem ensures_deserializeEntries [UBigBytes]
    (hbytes : bytes.length < 2 ^ 63)
    (hchildren : ∀ pos ≤ bytes.length,
      (children pos).Ensures (DecodedWithin bytes levels pos))
    (count : Nat) {pos : Nat} (hpos : pos ≤ bytes.length) :
    (deserializeEntries .usize64 bytes children count pos).Ensures
      (DecodedWithin bytes (levels + 1) pos) := by
  induction count generalizing pos with
  | zero =>
      exact ⟨Nat.le_refl _, hpos, True.intro, Nat.zero_lt_succ _,
        Nat.zero_le _⟩
  | succ count ih =>
      apply Checked.ensures_bind
        (ensures_deserializeEntry hbytes hchildren pos)
      rintro ⟨value, middle⟩ hvalue
      apply Checked.ensures_bind (ih hvalue.le_length)
      rintro ⟨rest, next⟩ hrest
      exact hvalue.append hrest

end Entries

/-- A list is decoded safely whatever number of levels is still allowed. -/
theorem ensures_deserializeChoiceList [UBigBytes] {bytes : List UInt8}
    (hbytes : bytes.length < 2 ^ 63) (levels : Nat) {start : Nat}
    (hstart : start ≤ bytes.length) :
    (deserializeChoiceList .usize64 bytes levels start).Ensures
      (DecodedWithin bytes levels start) := by
  induction levels generalizing start with
  | zero => exact Checked.ensures_rejected
  | succ levels ih =>
      apply Checked.ensures_bind (ensures_readU32 hbytes hstart)
      rintro ⟨count, pos⟩ ⟨-, hpos, hend⟩
      simp only [] at hpos hend
      apply (ensures_deserializeEntries hbytes (fun _ => ih) count hend).mono
      rintro result ⟨hle, hlength, hcoherent, hdepth, hcount⟩
      exact ⟨by omega, hlength, hcoherent, hdepth, by omega⟩

/-- Any bytes are decoded without a fault and without leaving the input; the
values decoded nest within the clone limit, every clone record in them caches
the number of its leaves, and there are no more choices than bytes. -/
theorem deserializeChoices_robust [UBigBytes] (input : ByteSlice) :
    (∀ reason, deserializeChoices .usize64 input.bytes ≠ .fault reason) ∧
      (∀ values stop, deserializeChoiceList .usize64 input.bytes
        (maxCloneDepth + 1) 0 = .done (values, stop) →
          stop ≤ input.bytes.length) ∧
      ∀ values, deserializeChoices .usize64 input.bytes = .done values →
        refsDepth (valueRefs values) ≤ maxCloneDepth ∧
          RefsCoherent (valueRefs values) ∧
          refsCount (valueRefs values) ≤ input.bytes.length := by
  have hlist := ensures_deserializeChoiceList input.length_lt
    (maxCloneDepth + 1) (Nat.zero_le _)
  have hchoices : (deserializeChoices .usize64 input.bytes).Ensures
      fun values => refsDepth (valueRefs values) ≤ maxCloneDepth ∧
        RefsCoherent (valueRefs values) ∧
        refsCount (valueRefs values) ≤ input.bytes.length := by
    apply Checked.ensures_bind hlist
    rintro ⟨values, stop⟩ ⟨-, hlength, hcoherent, hdepth, hcount⟩
    simp only [] at hlength hcoherent hdepth hcount
    exact ⟨Nat.lt_succ_iff.mp hdepth, hcoherent, by omega⟩
  constructor
  · exact Checked.not_fault_of_ensures hchoices
  · constructor
    · intro values stop hdone
      rw [hdone] at hlist
      exact hlist.le_length
    · intro values hdone
      rw [hdone] at hchoices
      exact hchoices

end Hegel
