/-
The constraints a choice is drawn under: bounded integers, booleans, byte
strings, codepoint strings and floats.  Every constraint knows its simplest
value, a second-simplest value to fall back on, which values it admits, and a
dense index of its values.
-/
import Hegel.FloatIndex
import Hegel.IntervalSet
import Hegel.Lib.Numeration

namespace Hegel

/-- A violated invariant of the engine itself; the source also keeps the
program location it was detected at. -/
structure InternalError where
  message : String
deriving DecidableEq

/-- An integer choice with bounded range. -/
structure IntegerChoice where
  minValue : Int
  maxValue : Int
  /-- The preferred value, clamped into the range before it is used. -/
  shrinkTowards : Int
  ordered : minValue ≤ maxValue
deriving DecidableEq

namespace IntegerChoice

/-- The digits are a range. -/
theorem digits_ordered : (0 : Int) ≤ 9 := by decide

def clampedShrinkTowards (ic : IntegerChoice) : Int :=
  if ic.shrinkTowards < ic.minValue then ic.minValue
  else if ic.shrinkTowards > ic.maxValue then ic.maxValue
  else ic.shrinkTowards

def simplest (ic : IntegerChoice) : Int :=
  ic.clampedShrinkTowards

def validate (ic : IntegerChoice) (value : Int) : Bool :=
  decide (ic.minValue ≤ value) && decide (value ≤ ic.maxValue)

def unit (ic : IntegerChoice) : Int :=
  let s := ic.simplest
  if ic.validate (s + 1) then s + 1
  else if ic.validate (s - 1) then s - 1
  else s

/-- Distance to the preferred value, then the side. -/
def sortKey (ic : IntegerChoice) (value : Int) : Nat × Bool :=
  let target := ic.clampedShrinkTowards
  ((value - target).natAbs, decide (value < target))

def maxIndex (ic : IntegerChoice) : Nat :=
  (ic.maxValue - ic.minValue).natAbs

/-- Values alternate between the two sides of the preferred value until one
side is exhausted. -/
def toIndex (ic : IntegerChoice) (value : Int) : Nat :=
  let s := ic.simplest
  if value = s then 0
  else
    let above := (ic.maxValue - s).natAbs
    let below := (s - ic.minValue).natAbs
    let dAbs := (value - s).natAbs
    let count := min (dAbs - 1) above + min (dAbs - 1) below
    if value > s then count + 1
    else (if dAbs ≤ above then count + 1 else count) + 1

def fromIndex (ic : IntegerChoice) (index : Nat) : Option Int :=
  let s := ic.simplest
  if index = 0 then some s
  else
    let above := (ic.maxValue - s).natAbs
    let below := (s - ic.minValue).natAbs
    if index > above + below then none
    else
      let twoA := min above below * 2
      let (d, up) : Nat × Bool :=
        if index ≤ twoA then ((index + 1) / 2, index % 2 != 0)
        else (index - min above below, decide (above > below))
      if up then some (s + d) else some (s - d)

end IntegerChoice

/-- A boolean choice drawn with probability `p` of `true`. -/
structure BooleanChoice where
  p : Binary64
deriving DecidableEq

namespace BooleanChoice

def simplest (_ : BooleanChoice) : Bool := false

def unit (_ : BooleanChoice) : Bool := true

end BooleanChoice

/-- Shortlex index of a sequence of digits, all admissible shorter sequences
first; the exponent is a `u32` in the source. -/
def sequenceIndex (base minSize : Nat) (digits : List Nat) : Nat :=
  let offset :=
    (List.range' minSize (digits.length - minSize)).foldl
      (fun offset length => offset + base ^ (length % 2 ^ 32)) 0
  let position :=
    digits.foldl (fun position digit => position * base + digit) 0
  offset + position

/-- Walk the lengths until the remaining index falls inside one, then take it
apart digit by digit. -/
def sequenceFromIndex {Value : Type} (base : Nat)
    (decode : Nat → Except InternalError Value) :
    List Nat → Nat → Except InternalError (Option (List Value))
  | [], _ => .ok none
  | length :: rest, remaining =>
      let bucket := base ^ (length % 2 ^ 32)
      if remaining < bucket then do
        let result ← (Numeration.lowDigits base length remaining).mapM decode
        return some result.reverse
      else sequenceFromIndex base decode rest (remaining - bucket)

/-- A byte-string choice with bounded length. -/
structure BytesChoice where
  minSize : Nat
  maxSize : Nat
  ordered : minSize ≤ maxSize
deriving DecidableEq

namespace BytesChoice

def simplest (bc : BytesChoice) : List UInt8 :=
  List.replicate bc.minSize 0

def unit (bc : BytesChoice) : List UInt8 :=
  if bc.minSize > 0 then List.replicate (bc.minSize - 1) 0 ++ [1]
  else if bc.maxSize > 0 then [1]
  else bc.simplest

def validate (bc : BytesChoice) (value : List UInt8) : Bool :=
  decide (bc.minSize ≤ value.length) && decide (value.length ≤ bc.maxSize)

def toIndex (bc : BytesChoice) (value : List UInt8) : Nat :=
  sequenceIndex 256 bc.minSize (value.map UInt8.toNat)

def maxIndex (bc : BytesChoice) : Nat :=
  bc.toIndex (List.replicate bc.maxSize 0xff)

/-- One byte out of a digit; the error is unreachable below base 256. -/
def byteOfDigit (digit : Nat) : Except InternalError UInt8 :=
  if digit < 256 then .ok (UInt8.ofNat digit)
  else .error ⟨"BytesChoice::from_index: byte digit > 255"⟩

def fromIndex (bc : BytesChoice) (index : Nat) :
    Except InternalError (Option (List UInt8)) :=
  sequenceFromIndex 256 byteOfDigit
    (List.range' bc.minSize (bc.maxSize + 1 - bc.minSize)) index

end BytesChoice

/-- A string choice over a codepoint alphabet, with bounded length.  Only the
empty string can be drawn from an empty alphabet. -/
structure StringChoice where
  intervals : Alphabet
  minSize : Nat
  maxSize : Nat
  ordered : minSize ≤ maxSize
  drawable : intervals.isEmpty = false ∨ maxSize = 0
deriving DecidableEq

namespace StringChoice

/-- Rank of a codepoint in the shrink order of the alphabet. -/
def codepointKey (sc : StringChoice) (codepoint : UInt32) : Nat :=
  sc.intervals.indexFromCodepointInShrinkOrder codepoint.toNat % 2 ^ 32

def keyToCodepoint (sc : StringChoice) (key : Nat) : Option UInt32 :=
  if key ≥ sc.intervals.len then none
  else some (UInt32.ofNat (sc.intervals.charInShrinkOrder key))

def simplestCodepoint (sc : StringChoice) : Except InternalError UInt32 :=
  if sc.intervals.isEmpty then
    .error ⟨"StringChoice::simplest_codepoint: empty alphabet"⟩
  else .ok (UInt32.ofNat (sc.intervals.charInShrinkOrder 0))

def simplest (sc : StringChoice) : Except InternalError (List UInt32) :=
  if sc.minSize = 0 then .ok []
  else do return List.replicate sc.minSize (← sc.simplestCodepoint)

/-- The fallback string: the last simplest codepoint replaced by the second
one, or one codepoint more when there is no second one. -/
def unit (sc : StringChoice) : Except InternalError (List UInt32) :=
  if sc.intervals.isEmpty then sc.simplest
  else do
    let simplestCp ← sc.simplestCodepoint
    match sc.keyToCodepoint 1 with
    | some cp =>
        if cp ≠ simplestCp then
          if sc.minSize > 0 then
            return (← sc.simplest).dropLast ++ [cp]
          else if sc.maxSize > 0 then return [cp]
          else sc.simplest
        else if sc.minSize < sc.maxSize then
          return List.replicate (sc.minSize + 1) simplestCp
        else sc.simplest
    | none =>
        if sc.minSize < sc.maxSize then
          return List.replicate (sc.minSize + 1) simplestCp
        else sc.simplest

def validate (sc : StringChoice) (value : List UInt32) : Bool :=
  if !(decide (sc.minSize ≤ value.length) &&
      decide (value.length ≤ sc.maxSize)) then false
  else value.all fun cp => sc.intervals.contains cp.toNat

def alphaSize (sc : StringChoice) : Nat :=
  sc.intervals.len

def codepointAtRank (sc : StringChoice) (rank : Nat) :
    Except InternalError UInt32 :=
  match sc.keyToCodepoint (rank % 2 ^ 32) with
  | some codepoint => .ok codepoint
  | none => .error
      ⟨s!"StringChoice::codepoint_at_rank: rank {rank} outside the alphabet"⟩

def maxIndex (sc : StringChoice) : Nat :=
  (List.range' sc.minSize (sc.maxSize + 1 - sc.minSize)).foldl
    (fun total length => total + sc.alphaSize ^ (length % 2 ^ 32)) 0 - 1

def toIndex (sc : StringChoice) (value : List UInt32) : Nat :=
  sequenceIndex sc.alphaSize sc.minSize (value.map sc.codepointKey)

/-- One codepoint out of a digit; a rank is a `u64` in the source. -/
def codepointOfDigit (sc : StringChoice) (digit : Nat) :
    Except InternalError UInt32 :=
  if digit < 2 ^ 64 then sc.codepointAtRank digit
  else .error ⟨"StringChoice::from_index: rank does not fit in u64"⟩

def fromIndex (sc : StringChoice) (index : Nat) :
    Except InternalError (Option (List UInt32)) :=
  if sc.alphaSize ≠ 0 ∨ sc.maxSize = 0 then
    sequenceFromIndex sc.alphaSize sc.codepointOfDigit
      (List.range' sc.minSize (sc.maxSize + 1 - sc.minSize)) index
  else .error
    ⟨"StringChoice::from_index: empty alphabet with nonzero max_size"⟩

end StringChoice

/-- Less-than-or-equal that puts `-0.0` strictly below `0.0`. -/
def signAwareLte (x y : Binary64) : Bool :=
  if x.numEq .zero && y.numEq .zero then
    let sx : Int := if x.isSignNegative then -1 else 1
    let sy : Int := if y.isSignNegative then -1 else 1
    decide (sx ≤ sy)
  else x.le y

/-- A float choice with bounded range.  The draws layer refuses bounds that
are not numbers. -/
structure FloatChoice where
  minValue : Binary64
  maxValue : Binary64
  allowNan : Bool
  allowInfinity : Bool
  /-- Values strictly between zero and this magnitude are not admitted. -/
  smallestNonzeroMagnitude : Binary64
  minValue_number : minValue.isNan = false
  maxValue_number : maxValue.isNan = false
deriving DecidableEq

/-- The largest rank of a finite float. -/
def maxFiniteGlobalRank : Nat :=
  (2 ^ 63 ||| 2046 * 2 ^ 52 ||| (2 ^ 52 - 1)) * 2 + 1

/-- Rank of a float: finite floats by index and sign, then the infinities,
then the NaN payloads. -/
def floatGlobalRank (v : Binary64) : Nat :=
  if v.isNan then
    let nanOffset := v.bits % 2 ^ 52 ^^^ 2 ^ 51
    let sign := v.bits / 2 ^ 63
    maxFiniteGlobalRank + 3 + nanOffset * 2 + sign
  else if v.isInfinite then
    if Binary64.zero.lt v then maxFiniteGlobalRank + 1
    else maxFiniteGlobalRank + 2
  else
    let isNeg := v.isSignNegative
    let mag := if isNeg then v.neg else v
    floatToIndex mag * 2 + isNeg.toNat

/-- The float of a rank. -/
def floatFromGlobalRank (rank : Nat) : Option Binary64 :=
  if rank > maxFiniteGlobalRank then
    let offset := rank - maxFiniteGlobalRank
    if offset = 1 then some .infinity
    else if offset = 2 then some .negInfinity
    else
      let nanRel := offset - 3
      let sign := nanRel % 2
      let mantissaBase := nanRel / 2
      if 2 ^ 64 ≤ mantissaBase ∨ mantissaBase / 2 ^ 52 ≠ 0 then none
      else
        let mantissa := mantissaBase ^^^ 2 ^ 51
        let v := Binary64.ofBits (sign * 2 ^ 63 ||| 0x7FF * 2 ^ 52 ||| mantissa)
        if v.isNan then some v else none
  else
    let isNeg := rank % 2 = 1
    let magIdx := rank / 2
    if 2 ^ 64 ≤ magIdx then none
    else if magIdx / 2 ^ 63 = 0 ∧ magIdx / 2 ^ 56 ≠ 0 then none
    else
      let mag := indexToFloat magIdx
      some (if isNeg then mag.neg else mag)

namespace FloatChoice

def validate (fc : FloatChoice) (v : Binary64) : Bool :=
  if v.isNan then fc.allowNan
  else if v.isInfinite then
    if !fc.allowInfinity then false
    else if v.numEq .negInfinity && Binary64.negInfinity.lt fc.minValue then
      false
    else if v.numEq .infinity && fc.maxValue.lt .infinity then false
    else true
  else if !v.numEq .zero && v.abs.lt fc.smallestNonzeroMagnitude then false
  else signAwareLte fc.minValue v && signAwareLte v fc.maxValue

/-- The order of a float's index paired with its side. -/
def keyLt (a b : Nat × Bool) : Bool :=
  decide (a.1 < b.1) || (decide (a.1 = b.1) && !a.2 && b.2)

/-- The simplest positive candidate with its key, if the range has one. -/
def simplestPositive (fc : FloatChoice) :
    Option ((Nat × Bool) × Binary64) :=
  if Binary64.zero.lt fc.maxValue then
    let lo := fc.minValue.max fc.smallestNonzeroMagnitude
    let hi := fc.maxValue.min .maxFinite
    if lo.le hi then
      let v := simplestInRange lo hi
      some ((floatToIndex v, false), v)
    else none
  else none

/-- The better of the positive candidate and the simplest negative one. -/
def simplestFinite (fc : FloatChoice) : Option ((Nat × Bool) × Binary64) :=
  let best := fc.simplestPositive
  if fc.minValue.lt .zero then
    let lo := fc.maxValue.neg.max fc.smallestNonzeroMagnitude
    let hi := fc.minValue.neg.min .maxFinite
    if lo.le hi then
      let v := simplestInRange lo hi
      let key := (floatToIndex v, true)
      match best with
      | none => some (key, v.neg)
      | some (bestKey, _) => if keyLt key bestKey then some (key, v.neg) else best
    else best
  else best

def simplest (fc : FloatChoice) : Except InternalError Binary64 :=
  if fc.validate .zero then .ok .zero
  else if fc.validate .negZero then .ok .negZero
  else
    match fc.simplestFinite with
    | some (_, v) => .ok v
    | none =>
        if fc.allowInfinity && fc.validate .infinity then .ok .infinity
        else if fc.allowInfinity && fc.validate .negInfinity then
          .ok .negInfinity
        else if fc.allowNan then .ok .nan
        else .error ⟨"FloatChoice::simplest: no valid float for this choice"⟩

def unit (fc : FloatChoice) : Except InternalError Binary64 := do
  let s ← fc.simplest
  if s.isNan then return s
  else
    let base := floatToIndex s.abs
    let near := [1, 2, 3].flatMap fun offset =>
      let vMag := indexToFloat ((base + offset) % 2 ^ 64)
      [vMag, vMag.neg]
    match near.find? fun v => !v.isNan && fc.validate v with
    | some v => return v
    | none =>
        let ends := [fc.minValue, fc.maxValue, s.neg]
        match ends.find? fun v =>
            !v.isNan && decide (v.bits ≠ s.bits) && fc.validate v with
        | some v => return v
        | none => return s

/-- Index of the magnitude, then the sign; NaN comes last. -/
def sortKey (_ : FloatChoice) (v : Binary64) : Nat × Bool :=
  if v.isNan then (2 ^ 64 - 1, false)
  else
    let isNeg := v.isSignNegative
    let mag := if isNeg then v.neg else v
    (floatToIndex mag, isNeg)

def maxIndex (_ : FloatChoice) : Nat :=
  maxFiniteGlobalRank + 2 + 2 ^ 53

/-- Rank above the simplest value; the subtraction underflows, and panics,
for a float of smaller rank. -/
def toIndex (fc : FloatChoice) (value : Binary64) :
    Except InternalError Nat := do
  return floatGlobalRank value - floatGlobalRank (← fc.simplest)

def fromIndex (fc : FloatChoice) (index : Nat) :
    Except InternalError (Option Binary64) := do
  let raw := floatGlobalRank (← fc.simplest) + index
  match floatFromGlobalRank raw with
  | none => return none
  | some value => return if fc.validate value then some value else none

end FloatChoice

end Hegel
