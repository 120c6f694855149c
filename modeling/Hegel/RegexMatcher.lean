/-
The matcher that generated texts are filtered with.  Groups are those that were
captured before; a repeated item, a group and an assertion are matched once at
a place, and only what follows is tried again.
-/
import Hegel.RegexCharacters
import Mathlib.Data.List.AList

namespace Hegel

/-- What groups have captured. -/
abbrev Groups : Type := AList fun _ : Nat => List Char

/-- The text to match, and the tables its characters are looked up in. -/
structure Subject where
  tables : CaseTables
  data : UnicodeData
  chars : List Char

/-- The flags within a group that adds some and takes others away. -/
def scopedFlags (flags addFlags delFlags : Nat) : Nat :=
  (flags ||| addFlags) ^^^ ((flags ||| addFlags) &&& delFlags)

/-- The largest number of repetitions, unless there is none. -/
def repeatLimit (max : Nat) : Option Nat :=
  if max = maxRepeatCount then none else some max

section Positions

variable (text : Subject)

def isWordBoundary (pos : Nat) : Bool :=
  let before := decide (pos > 0) &&
    text.chars[pos - 1]?.any (isUniWord text.data)
  let after := text.chars[pos]?.any (isUniWord text.data)
  before != after

/-- Whether a position is one that the code stands for. -/
def atMatches (pos flags : Nat) : AtCode → Bool
  | .beginningString => pos == 0
  | .beginning =>
      if hasFlag flags sreFlagMultiline then
        pos == 0 || text.chars[pos - 1]? == some '\n'
      else pos == 0
  | .atEnd =>
      if hasFlag flags sreFlagMultiline then
        pos == text.chars.length || text.chars[pos]? == some '\n'
      else
        pos == text.chars.length ||
          pos + 1 == text.chars.length && text.chars[pos]? == some '\n'
  | .endString => pos == text.chars.length
  | .boundary => isWordBoundary text pos
  | .nonBoundary => !isWordBoundary text pos

/-- Whether what a group has captured comes next. -/
def repeatsAt (val : List Char) (pos flags : Nat) : Bool :=
  decide (pos + val.length ≤ text.chars.length) &&
    ((text.chars.drop pos).zip val).all fun (c, vc) =>
      charsEq text.tables c vc flags

end Positions

section Loops

variable (step : Nat → Option Nat) (rest : Nat → Option Nat)
  (limit : Option Nat)

/-- Where an item leads that is repeated as long as it moves on, the last
position first, and whether it then matched without moving on. -/
def greedyPositions : Nat → Nat → List Nat → List Nat × Bool
  | 0, cur, earlier => (cur :: earlier, false)
  | rounds + 1, cur, earlier =>
      if limit.any fun m => decide (earlier.length ≥ m) then
        (cur :: earlier, false)
      else
        match step cur with
        | some next =>
            if next > cur then greedyPositions rounds next (cur :: earlier)
            else (cur :: earlier, true)
        | none => (cur :: earlier, false)

def matchMaxRepeat (min rounds pos : Nat) : Option Nat :=
  let (positions, zeroWidth) := greedyPositions step limit rounds pos []
  let mnEff := if zeroWidth then 0 else min
  if positions.length - 1 < mnEff then none
  else (positions.take (positions.length - mnEff)).findSome? rest

/-- The repetitions that a lazy repeat starts with: where they lead and their
number. -/
def lazyStart (min : Nat) : Nat → Nat → Nat → Option (Nat × Nat)
  | 0, cur, count => some (cur, count)
  | rounds + 1, cur, count =>
      if count < min then
        match step cur with
        | none => none
        | some next =>
            if next ≤ cur then some (cur, min)
            else lazyStart min rounds next (count + 1)
      else some (cur, count)

/-- Go on with the rest, and with one more repetition if that fails. -/
def lazyRest : Nat → Nat → Nat → Option Nat
  | 0, _, _ => none
  | rounds + 1, cur, count =>
      match rest cur with
      | some stop => some stop
      | none =>
          if limit.any fun m => decide (count ≥ m) then none
          else
            match step cur with
            | none => none
            | some next =>
                if next ≤ cur then none
                else lazyRest rounds next (count + 1)

def matchMinRepeat (min rounds pos : Nat) : Option Nat := do
  let (cur, count) ← lazyStart step min rounds pos 0
  lazyRest step rest limit rounds cur count

/-- Where a possessive repeat ends, the number of its repetitions, and whether
the item then matched without moving on. -/
def possessiveEnd : Nat → Nat → Nat → Nat × Nat × Bool
  | 0, cur, count => (cur, count, false)
  | rounds + 1, cur, count =>
      if limit.any fun m => decide (count ≥ m) then (cur, count, false)
      else
        match step cur with
        | some next =>
            if next > cur then possessiveEnd rounds next (count + 1)
            else (cur, count, true)
        | none => (cur, count, false)

def matchPossessiveRepeat (min rounds pos : Nat) : Option Nat :=
  let (cur, count, zeroWidth) := possessiveEnd step limit rounds pos 0
  if count < min ∧ zeroWidth = false then none else rest cur

def matchRepeat (kind : RepeatKind) (min max rounds pos : Nat) : Option Nat :=
  match kind with
  | .greedy => matchMaxRepeat step rest (repeatLimit max) min rounds pos
  | .lazy => matchMinRepeat step rest (repeatLimit max) min rounds pos
  | .possessive =>
      matchPossessiveRepeat step rest (repeatLimit max) min rounds pos

end Loops

theorem sizeOf_append {α : Type} [SizeOf α] (front back : List α) :
    sizeOf (front ++ back) = sizeOf front + sizeOf back - 1 := by
  induction front with
  | nil => simp
  | cons a front ih =>
      have hback : 0 < sizeOf back := by cases back <;> simp
      simp only [List.cons_append, List.cons.sizeOf_spec, ih]
      omega

/-- Where the operations end that are matched from a position on. -/
def matchSeq (text : Subject) (ops : SubPattern) (pos flags : Nat)
    (groups : Groups) : Option Nat :=
  match ops with
  | [] => some pos
  | .literal cp :: rest => do
      let want ← charFromU32 cp
      let got ← text.chars[pos]?
      if charsEq text.tables got want flags then
        matchSeq text rest (pos + 1) flags groups
      else none
  | .notLiteral cp :: rest => do
      let banned ← charFromU32 cp
      let got ← text.chars[pos]?
      if charsEq text.tables got banned flags then none
      else matchSeq text rest (pos + 1) flags groups
  | .any :: rest => do
      let got ← text.chars[pos]?
      if anyMatches got flags then matchSeq text rest (pos + 1) flags groups
      else none
  | .inSet items :: rest => do
      let got ← text.chars[pos]?
      if charMatchesSet text.tables text.data items got flags then
        matchSeq text rest (pos + 1) flags groups
      else none
  | .position code :: rest =>
      if atMatches text pos flags code then
        matchSeq text rest pos flags groups
      else none
  | .branch branches :: rest =>
      branches.attach.findSome? fun br =>
        matchSeq text (br.val ++ rest) pos flags groups
  | .subpattern _ addFlags delFlags p :: rest => do
      let stop ← matchSeq text p pos (scopedFlags flags addFlags delFlags)
        groups
      matchSeq text rest stop flags groups
  | .atomicGroup p :: rest => do
      let stop ← matchSeq text p pos flags groups
      matchSeq text rest stop flags groups
  | .groupRef gid :: rest => do
      let val ← groups.lookup gid
      if repeatsAt text val pos flags then
        matchSeq text rest (pos + val.length) flags groups
      else none
  | .groupRefExists condGroup yes no :: rest =>
      if condGroup ∈ groups then
        matchSeq text (yes ++ rest) pos flags groups
      else
        match no with
        | some no => matchSeq text (no ++ rest) pos flags groups
        | none => matchSeq text rest pos flags groups
  | .assert _ p :: rest =>
      if (matchSeq text p pos flags groups).isSome then
        matchSeq text rest pos flags groups
      else none
  | .assertNot _ p :: rest =>
      if (matchSeq text p pos flags groups).isNone then
        matchSeq text rest pos flags groups
      else none
  | .failure :: _ => none
  | .repeated kind min max item :: rest =>
      -- every repetition but the last moves on
      matchRepeat (fun cur => matchSeq text item cur flags groups)
        (fun cur => matchSeq text rest cur flags groups) kind min max
        (text.chars.length + 1) pos
termination_by sizeOf ops
decreasing_by
  all_goals
    simp only [sizeOf_append, List.cons.sizeOf_spec, Option.some.sizeOf_spec,
      OpCode.branch.sizeOf_spec, OpCode.subpattern.sizeOf_spec,
      OpCode.groupRefExists.sizeOf_spec, OpCode.atomicGroup.sizeOf_spec,
      OpCode.assert.sizeOf_spec, OpCode.assertNot.sizeOf_spec,
      OpCode.repeated.sizeOf_spec]
  all_goals try omega
  have hbranch := List.sizeOf_lt_of_mem br.property
  omega

theorem matchSeq_branch {text : Subject} {branches : List SubPattern}
    {rest : SubPattern} {pos flags : Nat} {groups : Groups} :
    matchSeq text (.branch branches :: rest) pos flags groups =
      branches.findSome? fun br =>
        matchSeq text (br ++ rest) pos flags groups := by
  have hunattach := @List.findSome?_subtype SubPattern Nat (· ∈ branches)
    branches.attach (fun br => matchSeq text (br.val ++ rest) pos flags groups)
    (fun br => matchSeq text (br ++ rest) pos flags groups) fun _ _ => rfl
  rw [matchSeq, hunattach, List.unattach_attach]

/-- Whether the pattern matches the whole text, or a part of it. -/
def wholeMatch (text : Subject) (parsed : ParsedPattern) (fullmatch : Bool)
    (groups : Groups) : Bool :=
  if fullmatch then
    (matchSeq text (parsed.pattern ++ [.position .endString]) 0 parsed.flags
      groups).isSome
  else
    (List.range (text.chars.length + 1)).any fun start =>
      (matchSeq text parsed.pattern start parsed.flags groups).isSome

end Hegel
