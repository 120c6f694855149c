/-
Failure blobs: the choices of a failing test case as one line of text.  The
stored form of the choices, raw or compressed under a marker byte, is written
in base64.  Compression is not part of the program and appears here as a
parameter.
-/
import Hegel.Base64
import Hegel.StorageRoundTrip

namespace Hegel

/-- The compression at the level the encoder asks for, and the inflation of a
stream up to a given size. -/
structure Zlib where
  compressToVecZlib : List UInt8 → List UInt8
  decompressToVecZlibWithLimit : List UInt8 → Nat → Option (List UInt8)

/-- Inflation returns what was deflated, whenever that is within the limit. -/
def Zlib.Inverts (zlib : Zlib) : Prop :=
  ∀ raw limit, raw.length ≤ limit →
    zlib.decompressToVecZlibWithLimit (zlib.compressToVecZlib raw) limit =
      some raw

def prefixRaw : UInt8 := 0

def prefixZlib : UInt8 := 1

/-- Upper bound for the decompressed size of a payload. -/
def maxDecompressedLen : Nat := 16 <<< 20

section Blob

variable [UBigBytes] (zlib : Zlib)

def encodeFailure (choices : List ChoiceValue) : List UInt8 :=
  let raw := serializeChoices choices
  let compressed := zlib.compressToVecZlib raw
  let (marker, body) :=
    if compressed.length < raw.length ∧ raw.length ≤ maxDecompressedLen then
      (prefixZlib, compressed)
    else (prefixRaw, raw)
  base64Encode (marker :: body)

def decodeFailure (machine : Machine) (blob : List UInt8) :
    Checked (List ChoiceValue) :=
  match base64Decode blob with
  | none => Checked.rejected
  | some [] => Checked.rejected
  | some (marker :: rest) =>
      if marker = prefixRaw then deserializeChoices machine rest
      else if marker = prefixZlib then
        match zlib.decompressToVecZlibWithLimit rest maxDecompressedLen with
        | some raw => deserializeChoices machine raw
        | none => Checked.rejected
      else Checked.rejected

end Blob

section Sizes

variable [UBigBytes]

/-- A payload is not longer than what it is stored as. -/
theorem short_of_length_lt {value : ChoiceValueRef}
    (hscalar : ∀ flatLen values, value ≠ .clone flatLen values)
    (hlength : (serializeOneChoice value).length < 2 ^ 32) : value.Short := by
  cases value with
  | clone flatLen values => exact absurd rfl (hscalar flatLen values)
  | integer v =>
      simp only [serializeOneChoice, serializeAnyInteger, List.length_cons,
        List.length_append] at hlength
      exact (by omega : (toSignedBytesLe v).length < 2 ^ 32)
  | bytes v =>
      simp only [serializeOneChoice, List.length_cons,
        List.length_append] at hlength
      exact (by omega : v.length < 2 ^ 32)
  | string v =>
      simp only [serializeOneChoice, List.length_cons, List.length_append,
        length_codepoints] at hlength
      exact (by omega : v.length < 2 ^ 32)
  | boolean v => trivial
  | float v => trivial

theorem length_le_serializeEntries (values : List ChoiceValueRef) :
    values.length ≤ (serializeEntries values).length := by
  induction values with
  | nil => exact le_rfl
  | cons value rest ih =>
      have hvalue : 0 < (serializeOneChoice value).length := by
        cases value <;> exact Nat.succ_pos _
      rw [serializeEntries, List.length_append, List.length_cons]
      omega

/-- All lengths fit when the whole stored form is that short. -/
theorem refsShort_of_length_lt {values : List ChoiceValueRef}
    (hlength : (serializeEntries values).length < 2 ^ 32) :
    RefsShort values := by
  induction values using refsInduction with
  | nil => trivial
  | scalar value rest hscalar ih =>
      rw [serializeEntries, List.length_append] at hlength
      exact ⟨short_of_length_lt hscalar (by omega), ih (by omega)⟩
  | clone flatLen values rest ihValues ihRest =>
      rw [serializeEntries, List.length_append, serializeOneChoice,
        List.length_cons, List.length_append] at hlength
      have hcount := length_le_serializeEntries values
      exact ⟨⟨by omega, ihValues (by omega)⟩, ihRest (by omega)⟩

end Sizes

/-- Choices whose blob can be replayed: clones nest within the limit, cached
lengths are right, and the stored form is within the bound for inflation or
at least within the lengths the format can express. -/
structure Replayable [UBigBytes] (choices : List ChoiceValue) : Prop where
  depth_le : refsDepth (valueRefs choices) ≤ maxCloneDepth
  coherent : RefsCoherent (valueRefs choices)
  fits : (serializeChoices choices).length ≤ maxDecompressedLen ∨
    (choices.length < 2 ^ 32 ∧ RefsShort (valueRefs choices) ∧
      (serializeChoices choices).length < 2 ^ 64)

section RoundTrip

variable [UBigBytes]

theorem Replayable.length_lt {choices : List ChoiceValue}
    (hchoices : Replayable choices) :
    (serializeChoices choices).length < 2 ^ 64 := by
  rcases hchoices.fits with hsmall | ⟨-, -, hlength⟩
  · exact Nat.lt_of_le_of_lt hsmall (by decide)
  · exact hlength

/-- Everything in a short serialisation is short. -/
theorem serialized_short {values : List ChoiceValue}
    (hlength : (serializeChoices values).length < 2 ^ 32) :
    values.length < 2 ^ 32 ∧ RefsShort (valueRefs values) := by
  rw [serializeChoices, serializeChoiceList, ← valueRefs_eq_map,
    List.length_append] at hlength
  have hentries : (serializeEntries (valueRefs values)).length < 2 ^ 32 := by
    omega
  have hcount := length_le_serializeEntries (valueRefs values)
  rw [valueRefs_eq_map, List.length_map, ← valueRefs_eq_map] at hcount
  exact ⟨by omega, refsShort_of_length_lt hentries⟩

theorem Replayable.storable {choices : List ChoiceValue}
    (hchoices : Replayable choices) : Storable choices := by
  rcases hchoices.fits with hsmall | ⟨hcount, hshort, -⟩
  · have hbound : maxDecompressedLen < 2 ^ 32 := by decide
    obtain ⟨hcount, hshort⟩ := serialized_short (hsmall.trans_lt hbound)
    exact ⟨hcount, hshort, hchoices.depth_le, hchoices.coherent⟩
  · exact ⟨hcount, hshort, hchoices.depth_le, hchoices.coherent⟩

/-- The decoder takes the branch the encoder chose. -/
theorem decodeFailure_encodeFailure {zlib : Zlib} (hzlib : zlib.Inverts)
    (machine : Machine) (choices : List ChoiceValue) :
    decodeFailure zlib machine (encodeFailure zlib choices) =
      deserializeChoices machine (serializeChoices choices) := by
  by_cases hkept : (zlib.compressToVecZlib (serializeChoices choices)).length <
        (serializeChoices choices).length ∧
      (serializeChoices choices).length ≤ maxDecompressedLen
  · simp only [decodeFailure, encodeFailure, if_pos hkept,
      base64Decode_base64Encode]
    rw [if_neg (by decide), if_pos trivial, hzlib _ _ hkept.2]
  · simp only [decodeFailure, encodeFailure, if_neg hkept,
      base64Decode_base64Encode]
    rw [if_pos trivial]

/-- Blobs are read back as the choices they were made from, base64 as the
bytes it was made from, and only padded base64 is read at all. -/
theorem failureBlob_roundTrip :
    (∀ zlib : Zlib, zlib.Inverts → ∀ choices, Replayable choices →
      ∃ read, decodeFailure zlib .usize64 (encodeFailure zlib choices) =
        .done read ∧ SameValues read choices) ∧
      (∀ bytes, base64Decode (base64Encode bytes) = some bytes) ∧
      ∀ text, (base64Decode text).isSome ↔
        ∃ digits pad, Padded text digits pad := by
  constructor
  · intro zlib hzlib choices hchoices
    rw [decodeFailure_encodeFailure hzlib]
    exact (storage_roundTrip choices hchoices.storable).2.1
      hchoices.length_lt
  · exact ⟨base64Decode_base64Encode, isSome_base64Decode⟩

end RoundTrip

/-- A payload that deflates well. -/
def deflatedSample : List ChoiceValue :=
  [.bytes (List.replicate 40 0)]

/-- The zlib stream of the stored sample. -/
def deflatedStream : List UInt8 :=
  [120, 156, 99, 100, 96, 96, 96, 214, 96, 32, 30, 0, 0, 7, 201, 0, 45]

/-- Deflates the sample as zlib does, and marks everything else as stored. -/
def sampleZlib : Zlib where
  compressToVecZlib raw :=
    if raw = @serializeChoices .digits deflatedSample then deflatedStream
    else 0 :: raw
  decompressToVecZlibWithLimit stream limit :=
    if stream = deflatedStream then
      if limit < 49 then none
      else some (@serializeChoices .digits deflatedSample)
    else if limit < stream.tail.length then none
    else some stream.tail

theorem inverts_sampleZlib : sampleZlib.Inverts := by
  intro raw limit hlimit
  simp only [sampleZlib]
  by_cases hraw : raw = @serializeChoices .digits deflatedSample
  · have hlength : raw.length = 49 := by
      rw [hraw]
      rfl
    rw [if_pos hraw, if_pos rfl, if_neg (by omega), hraw]
  · rw [if_neg hraw, if_neg, List.tail_cons, if_neg (by omega)]
    intro heq
    exact absurd (List.cons.inj heq).1 (by decide)

theorem replayable_deflatedSample : @Replayable .digits deflatedSample := by
  let reference := UBigBytes.digits
  refine ⟨by decide, ⟨trivial, trivial⟩, .inl ?_⟩
  exact (by decide : (serializeChoices deflatedSample).length ≤
    maxDecompressedLen)

theorem failureBlob_roundTrip_sample :
    ∃ read, @decodeFailure .digits sampleZlib .usize64
        (@encodeFailure .digits sampleZlib deflatedSample) = .done read ∧
      SameValues read deflatedSample :=
  (@failureBlob_roundTrip .digits).1 sampleZlib inverts_sampleZlib
    deflatedSample replayable_deflatedSample

end Hegel
