/-
The stored form of choice values.  A list of values is a 32-bit count followed
by one tagged entry each; variable-length payloads carry a 32-bit length and a
clone is stored as the list of its child values.  The decoder checks every
access, so that corrupt storage is rejected rather than followed.
-/
import Hegel.Bignum
import Hegel.ChoiceNode
import Hegel.Lib.Checked

namespace Hegel

/-- Deepest nesting of cloned streams. -/
def maxCloneDepth : Nat := 100

section Encoding

variable [UBigBytes]

/-- Sub-tag, length and two's-complement bytes of an integer. -/
def serializeAnyInteger (v : Int) : List UInt8 :=
  let mag := toSignedBytesLe v
  10 :: (leBytes 4 mag.length ++ mag)

mutual

/-- One value with its type tag. -/
def serializeOneChoice : ChoiceValueRef → List UInt8
  | .integer v => 0 :: serializeAnyInteger v
  | .boolean v => [1, UInt8.ofNat v.toNat]
  | .float v => 2 :: leBytes 8 v.bits
  | .bytes v => 3 :: (leBytes 4 v.length ++ v)
  | .string v =>
      4 :: (leBytes 4 v.length ++ v.flatMap fun cp => leBytes 4 cp.toNat)
  | .clone _ children =>
      5 :: (leBytes 4 children.length ++ serializeEntries children)
  termination_by structural choice => choice

/-- Entries follow each other without separators. -/
def serializeEntries : List ChoiceValueRef → List UInt8
  | [] => []
  | choice :: rest => serializeOneChoice choice ++ serializeEntries rest

end

def serializeChoiceList (choices : List ChoiceValueRef) : List UInt8 :=
  leBytes 4 choices.length ++ serializeEntries choices

def serializeChoices (choices : List ChoiceValue) : List UInt8 :=
  serializeChoiceList (choices.map ChoiceValue.ref)

/-- The realized values of nodes in the same encoding. -/
def serializeNodes (nodes : List ChoiceNode) : List UInt8 :=
  serializeChoiceList (nodes.map ChoiceNode.valueRef)

end Encoding

section Decoding

variable [UBigBytes] (machine : Machine) (bytes : List UInt8)

/-- A 32-bit length, which must be there in full. -/
def readU32 (pos : Nat) : Checked (Nat × Nat) := do
  let stop ← machine.add pos 4
  if stop > bytes.length then Checked.rejected
  else do
    let raw ← slice bytes pos stop
    return (ofLeBytes raw, stop)

/-- Width and signedness of the legacy fixed-width integer formats. -/
def nativeFormat : Nat → Option (Nat × Bool)
  | 0 => some (1, true)
  | 1 => some (2, true)
  | 2 => some (4, true)
  | 3 => some (8, true)
  | 4 => some (16, true)
  | 5 => some (1, false)
  | 6 => some (2, false)
  | 7 => some (4, false)
  | 8 => some (8, false)
  | 9 => some (16, false)
  | _ => none

def deserializeAnyInteger (pos : Nat) : Checked (Int × Nat) := do
  let sub ← getByte bytes pos
  let pos ← machine.add pos 1
  if sub = 10 then do
    let stop ← machine.add pos 4
    let lenRaw ← getSlice bytes pos stop
    let pos := stop
    let stop ← machine.add pos (ofLeBytes lenRaw)
    let mag ← getSlice bytes pos stop
    return (fromSignedBytesLe mag, stop)
  else
    match nativeFormat sub.toNat with
    | some (width, signed) => do
        let stop ← machine.add pos width
        let raw ← getSlice bytes pos stop
        return (if signed then signedValue raw else ofLeBytes raw, stop)
    | none => Checked.rejected

/-- Codepoints, four bytes each. -/
def deserializeCodepoints : Nat → Nat → Checked (List UInt32 × Nat)
  | 0, pos => Checked.done ([], pos)
  | len + 1, pos => do
      let stop ← machine.add pos 4
      let raw ← slice bytes pos stop
      let (rest, pos) ← deserializeCodepoints len stop
      return (UInt32.ofNat (ofLeBytes raw) :: rest, pos)

/-- The payload of a byte string. -/
def deserializeBytes (pos : Nat) : Checked (List UInt8 × Nat) := do
  let (len, pos) ← readU32 machine bytes pos
  let stop ← machine.add pos len
  if stop > bytes.length then Checked.rejected
  else do
    let raw ← slice bytes pos stop
    return (raw, stop)

/-- The payload of a codepoint string. -/
def deserializeString (pos : Nat) : Checked (List UInt32 × Nat) := do
  let (len, pos) ← readU32 machine bytes pos
  if len * 4 ≥ 2 ^ 64 then Checked.rejected
  else do
    let stop ← machine.add pos (len * 4)
    if stop > bytes.length then Checked.rejected
    else deserializeCodepoints machine bytes len pos

/-- One tagged entry; `children` decodes the list below a clone. -/
def deserializeEntry (children : Nat → Checked (List ChoiceValue × Nat))
    (pos : Nat) : Checked (ChoiceValue × Nat) :=
  if pos ≥ bytes.length then Checked.rejected
  else do
    let tag ← byteAt bytes pos
    let pos ← machine.add pos 1
    match tag.toNat with
    | 0 => do
        let (value, pos) ← deserializeAnyInteger machine bytes pos
        return (.integer value, pos)
    | 1 =>
        if pos ≥ bytes.length then Checked.rejected
        else do
          let byte ← byteAt bytes pos
          let pos ← machine.add pos 1
          return (.boolean (decide (byte ≠ 0)), pos)
    | 2 => do
        let stop ← machine.add pos 8
        if stop > bytes.length then Checked.rejected
        else do
          let raw ← slice bytes pos stop
          return (.float (Binary64.ofBits (ofLeBytes raw)), stop)
    | 3 => do
        let (value, pos) ← deserializeBytes machine bytes pos
        return (.bytes value, pos)
    | 4 => do
        let (value, pos) ← deserializeString machine bytes pos
        return (.string value, pos)
    | 5 => do
        let (values, pos) ← children pos
        return (.clone (.fromValues values), pos)
    | _ => Checked.rejected

/-- As many entries as were announced. -/
def deserializeEntries (children : Nat → Checked (List ChoiceValue × Nat)) :
    Nat → Nat → Checked (List ChoiceValue × Nat)
  | 0, pos => Checked.done ([], pos)
  | count + 1, pos => do
      let (value, pos) ← deserializeEntry machine bytes children pos
      let (rest, pos) ← deserializeEntries children count pos
      return (value :: rest, pos)

/-- A counted list.  The source counts the depth upwards and rejects beyond
`maxCloneDepth`; here the levels still allowed are counted down. -/
def deserializeChoiceList : Nat → Nat → Checked (List ChoiceValue × Nat)
  | 0, _ => Checked.rejected
  | levels + 1, start => do
      let (count, pos) ← readU32 machine bytes start
      deserializeEntries machine bytes (deserializeChoiceList levels) count pos

def deserializeChoices : Checked (List ChoiceValue) := do
  let (choices, _) ← deserializeChoiceList machine bytes (maxCloneDepth + 1) 0
  return choices

end Decoding

end Hegel
