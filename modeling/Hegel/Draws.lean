/-
The typed draws.  Every draw pairs a constraint with the way its values are
replayed, replaced and sampled; random values come from a sampler that keeps
to the constraint it is given.
-/
import Hegel.State

namespace Hegel

/-- The random samplers over a source of randomness.  A float sample may still
miss the constraint and is checked by its caller. -/
structure Sampler (Rng : Type) where
  spawn : Rng → Rng × Rng
  integer : IntegerChoice → Rng → Except InternalError (Int × Rng)
  uniform : IntegerChoice → Rng → Int × Rng
  position : Nat → Rng → Nat × Rng
  float : FloatChoice → Rng → Except InternalError (Binary64 × Rng)
  bytes : BytesChoice → Rng → Except InternalError (List UInt8 × Rng)
  string : StringChoice → Rng → Except InternalError (List UInt32 × Rng)
  boolean : Binary64 → Rng → Bool × Rng
  booleanPrecise : Binary64 → Rng → Bool × Rng
  integer_valid : ∀ (ic : IntegerChoice) rng v rng', integer ic rng = .ok (v, rng') →
    ic.validate v = true
  uniform_valid : ∀ (ic : IntegerChoice) rng, ic.validate (uniform ic rng).1 = true
  position_lt : ∀ n rng, 0 < n → (position n rng).1 < n
  bytes_valid : ∀ (bc : BytesChoice) rng v rng', bytes bc rng = .ok (v, rng') →
    bc.validate v = true
  string_valid : ∀ (sc : StringChoice) rng v rng', string sc rng = .ok (v, rng') →
    sc.validate v = true

/-- A requested draw. -/
inductive DrawOp where
  | integer (minValue maxValue : Int)
  | integerUniform (minValue maxValue : Nat)
  | integerForced (minValue maxValue forced : Int)
  | freshId
  | fromSet (members : List Int)
  | float (kind : FloatChoice)
  | bytes (minSize maxSize : Nat)
  | string (intervals : Alphabet) (minSize maxSize : Nat)
  | weighted (p : Binary64) (forced : Option Bool)
  | weightedPrecise (p : Binary64) (forced : Option Bool)

/-- A value drawn under a constraint and returned as it is. -/
def Drawn.plain (data : ChoiceData) : Drawn :=
  ⟨data, data.value, none⟩

section Typed

variable {Rng Value : Type}

/-- A draw of typed values: a replayed value is taken if it has the type and
is valid. -/
def Draw.typed (drawn : Value → Drawn) (validate : Value → Bool)
    (extract : ChoiceValue → Option Value)
    (simplest unit : Except InternalError Value)
    (sample : Rng → Except InternalError (Value × Rng)) : Draw Rng where
  simplest := simplest.map drawn
  unit := unit.map drawn
  fromPrefix value := ((extract value).filter validate).map drawn
  random rng := (sample rng).map fun (v, rng) => (drawn v, rng)

end Typed

namespace ChoiceValue

def asInteger : ChoiceValue → Option Int
  | integer v => some v
  | _ => none

def asBoolean : ChoiceValue → Option Bool
  | boolean v => some v
  | _ => none

def asFloat : ChoiceValue → Option Binary64
  | float v => some v
  | _ => none

def asBytes : ChoiceValue → Option (List UInt8)
  | bytes v => some v
  | _ => none

def asString : ChoiceValue → Option (List UInt32)
  | string v => some v
  | _ => none

/-- An identifier is a natural number. -/
def asId (value : ChoiceValue) : Option Nat :=
  value.asInteger.bind fun n => if 0 ≤ n then some n.toNat else none

end ChoiceValue

section Draws

variable {Rng : Type} (sampler : Sampler Rng)

/-- Shared by the integer draws. -/
def drawIntegerFrom (kind : IntegerChoice)
    (sample : Rng → Except InternalError (Int × Rng)) : Draw Rng :=
  .typed (fun v => .plain (.integer kind v)) kind.validate
    ChoiceValue.asInteger (.ok kind.simplest) (.ok kind.unit) sample

def drawInteger (minValue maxValue : Int) :
    Except InternalError (DrawRequest Rng) :=
  if h : minValue ≤ maxValue then
    let kind : IntegerChoice := ⟨minValue, maxValue, 0, h⟩
    .ok (.resolve (drawIntegerFrom kind (sampler.integer kind)))
  else .error ⟨s!"Invalid range [{minValue}, {maxValue}]"⟩

/-- Without the shaping of `drawInteger`. -/
def drawIntegerUniform (minValue maxValue : Nat) :
    Except InternalError (DrawRequest Rng) :=
  if h : (minValue : Int) ≤ maxValue then
    let kind : IntegerChoice := ⟨minValue, maxValue, 0, h⟩
    .ok (.resolve
      (drawIntegerFrom kind fun rng => .ok (sampler.uniform kind rng)))
  else .error ⟨s!"Invalid range [{minValue}, {maxValue}]"⟩

/-- Recorded without consulting the replayed values or the random source. -/
def drawIntegerForced (minValue maxValue forced : Int) :
    Except InternalError (DrawRequest Rng) :=
  if h : minValue ≤ forced ∧ forced ≤ maxValue then
    .ok (.forced (.plain
      (.integer ⟨minValue, maxValue, 0, h.1.trans h.2⟩ forced)))
  else .error
    ⟨s!"forced value {forced} outside [{minValue}, {maxValue}]"⟩

/-- The window of identifiers recorded beside one of them. -/
def idWindow (windowHi : Nat) : IntegerChoice where
  minValue := 0
  maxValue := windowHi
  shrinkTowards := 0
  ordered := Int.natCast_nonneg windowHi

/-- An identifier that is unused in the family, recorded by value; a replayed
one that is in use is repaired to the smallest unused one. -/
def drawFreshId (used : IdSet) : DrawRequest Rng :=
  let windowHi := (used.largest + 2).toNat
  let fallback := used.smallestUnusedId
  .resolve (.typed
    (fun id : Nat => ⟨.integer (idWindow windowHi) id, .integer id, some id⟩)
    (fun id => decide (id ≤ windowHi) && decide (id ∉ used.ids))
    ChoiceValue.asId (.ok fallback) (.ok fallback)
    (fun rng => .ok (fallback, rng)))

/-- The largest member that is not above a value, or the smallest one. -/
def chooseMember (smallest : Int) (sorted : List Int) (raw : Int) : Int :=
  ((sorted.takeWhile (· ≤ raw)).getLast?).getD smallest

/-- One of several identifiers, recorded by value. -/
def drawFromSet (used : IdSet) (members : List Int) :
    Except InternalError (DrawRequest Rng) :=
  match (members.insertionSort (· ≤ ·)).dedup with
  | [] => .error ⟨"draw_from_set requires at least one member"⟩
  | smallest :: rest =>
      let sorted := smallest :: rest
      let windowHi := (used.largest + 1).toNat
      if smallest < 0 then
        .error ⟨"draw_from_set requires nonnegative members"⟩
      else if sorted.getLast (List.cons_ne_nil _ _) > windowHi then
        .error ⟨"draw_from_set members must be identifiers from draw_fresh_id"⟩
      else
        .ok (.resolve (.typed
          (fun raw => .plain (.integer (idWindow windowHi)
            (chooseMember smallest sorted raw)))
          (idWindow windowHi).validate
          ChoiceValue.asInteger (.ok smallest) (.ok smallest)
          (fun rng =>
            let (idx, rng) := sampler.position sorted.length rng
            .ok (sorted.getD idx smallest, rng))))

/-- A sample that misses the constraint gives way to the simplest value. -/
def biasedFloatSample (kind : FloatChoice) (rng : Rng) :
    Except InternalError (Binary64 × Rng) := do
  let (f, rng) ← sampler.float kind rng
  if kind.validate f then return (f, rng) else return (← kind.simplest, rng)

def drawFloat (kind : FloatChoice) : DrawRequest Rng :=
  .resolve (.typed (fun v => .plain (.float kind v)) kind.validate
    ChoiceValue.asFloat kind.simplest kind.unit
    (biasedFloatSample sampler kind))

def drawBytes (minSize maxSize : Nat) :
    Except InternalError (DrawRequest Rng) :=
  if h : minSize ≤ maxSize then
    let kind : BytesChoice := ⟨minSize, maxSize, h⟩
    .ok (.resolve (.typed (fun v => .plain (.bytes kind v)) kind.validate
      ChoiceValue.asBytes (.ok kind.simplest) (.ok kind.unit)
      (sampler.bytes kind)))
  else .error
    ⟨s!"min_size ({minSize}) must be <= max_size ({maxSize})"⟩

/-- The codepoints that are characters. -/
def codepointsToString (codepoints : List UInt32) : List UInt32 :=
  codepoints.filter fun cp => decide (Nat.isValidChar cp.toNat)

def drawString (intervals : Alphabet) (minSize maxSize : Nat) :
    Except InternalError (DrawRequest Rng) :=
  if h : minSize ≤ maxSize then
    if hdrawable : intervals.isEmpty = false ∨ maxSize = 0 then
      let kind : StringChoice := ⟨intervals, minSize, maxSize, h, hdrawable⟩
      .ok (.resolve (.typed
        (fun v => ⟨.string kind v, .string (codepointsToString v), none⟩)
        kind.validate ChoiceValue.asString kind.simplest kind.unit
        (sampler.string kind)))
    else .error
      ⟨"draw_string with empty alphabet must have max_size == 0"⟩
  else .error ⟨"internal assertion failed: min_size <= max_size"⟩

/-- The value a probability outside the open unit interval forces. -/
def forcedBoolean (p : Binary64) (forced : Option Bool) : Option Bool :=
  forced.or
    (if p.le .zero then some false
    else if (Binary64.ofNat 1).le p then some true
    else none)

/-- A boolean with probability `p` of being true. -/
def weightedWith (p : Binary64) (forced : Option Bool)
    (sample : Binary64 → Rng → Bool × Rng) : DrawRequest Rng :=
  let kind : BooleanChoice := ⟨p⟩
  match forcedBoolean p forced with
  | some f => .forced (.plain (.boolean kind f))
  | none =>
      .resolve (.typed (fun v => .plain (.boolean kind v)) (fun _ => true)
        ChoiceValue.asBoolean (.ok kind.simplest) (.ok kind.unit)
        (fun rng => .ok (sample p rng)))

def weighted (p : Binary64) (forced : Option Bool) : DrawRequest Rng :=
  weightedWith p forced sampler.boolean

def weightedPrecise (p : Binary64) (forced : Option Bool) :
    DrawRequest Rng :=
  weightedWith p forced sampler.booleanPrecise

/-- What a requested draw asks of its stream. -/
def DrawOp.request (family : FamilyCore) :
    DrawOp → Except InternalError (DrawRequest Rng)
  | .integer minValue maxValue => drawInteger sampler minValue maxValue
  | .integerUniform minValue maxValue =>
      drawIntegerUniform sampler minValue maxValue
  | .integerForced minValue maxValue forced =>
      drawIntegerForced minValue maxValue forced
  | .freshId => .ok (drawFreshId family.freshIds)
  | .fromSet members => drawFromSet sampler family.freshIds members
  | .float kind => .ok (drawFloat sampler kind)
  | .bytes minSize maxSize => drawBytes sampler minSize maxSize
  | .string intervals minSize maxSize =>
      drawString sampler intervals minSize maxSize
  | .weighted p forced => .ok (Hegel.weighted sampler p forced)
  | .weightedPrecise p forced => .ok (Hegel.weightedPrecise sampler p forced)

end Draws

end Hegel
