/-
Plain groups kept.  The parser takes the parentheses of a group that only
encloses off its tree.  Here they are kept: the same computations build a tree
in which repetitions are only of what a quantifier may follow, and taking the
parentheses off that tree gives the tree of the parser.
-/
import Hegel.RegexShape

namespace Hegel

open Parsing

section Keeping

variable (names : NameClasses) (rounds : Nat)

/-- Repeat the last operation, with its parentheses. -/
def keepLast (here : Nat) (this : PatternToken) (min max : Nat)
    (subpattern : SubPattern) : Parsing SubPattern :=
  match subpattern.getLast? with
  | none => notRepeatable "nothing to repeat" here this
  | some (.position _) => notRepeatable "nothing to repeat" here this
  | some op =>
      if isRepeatOpcode op then notRepeatable "multiple repeat" here this
      else do
        let kind ← repeatKind
        pure (subpattern.dropLast ++ [.repeated kind min max [op]])

def keepRepeat (firstChar : Char) (this : PatternToken)
    (subpattern : SubPattern) : Parsing SubPattern := do
  let here ← tell
  let bounds ← repeatBounds rounds here this
  match bounds with
  | none => pure (subpattern ++ [.literal firstChar.toNat])
  | some (min, max) => keepLast here this min max subpattern

/-- The character of a quantifier. -/
def repeatChar : PatternToken → Option Char
  | [c] => if c ∈ repeatChars then some c else none
  | _ => none

def keepToken (below : Level) (this : PatternToken) (verbose first : Bool)
    (subpattern : SubPattern) : Parsing (Bool × SubPattern) :=
  match repeatChar this with
  | some firstChar => do
      let subpattern ← keepRepeat rounds firstChar this subpattern
      pure (verbose, subpattern)
  | none => parseToken names rounds below this verbose first subpattern

def keepTokens (below : Level) (first : Bool) :
    Nat → Bool → SubPattern → Parsing SubPattern
  | 0, _, _ => fault .exhausted
  | left + 1, verbose, subpattern => do
      let next ← nextToken
      match next with
      | none => pure subpattern
      | some this =>
          if this = ['|'] ∨ this = [')'] then pure subpattern
          else do
            advance
            let (verbose, subpattern) ←
              keepToken names rounds below this verbose first subpattern
            keepTokens below first left verbose subpattern

def keepSeq (below : Level) (nested : Nat) (verbose first : Bool) :
    Parsing SubPattern :=
  if nested > maxNesting then Parsing.error "regex nesting too deep" 0
  else keepTokens names rounds below first rounds verbose []

/-- Alternatives as they are written. -/
def keepAlternatives : List SubPattern → SubPattern
  | [item] => item
  | items => [.branch items]

def keepSub (below : Level) (nested : Nat) (verbose : Bool) :
    Parsing SubPattern := do
  let items ← parseAlternatives below nested rounds verbose []
  pure (keepAlternatives items)

def keepLevels : Nat → Nat → Level
  | 0, _ => ⟨fun _ => fault .exhausted, fun _ _ => fault .exhausted⟩
  | count + 1, nested =>
      let below := keepLevels count (nested + 1)
      ⟨keepSub rounds below nested, keepSeq names rounds below nested⟩

end Keeping

/-- The tree of a pattern with its plain groups. -/
def keptTree (names : NameClasses) (pattern : List Char) (flags : Nat) :
    Except ParseFault SubPattern :=
  match Tokenizer.new pattern with
  | .error error => .error (.refused error)
  | .ok source =>
      ((keepLevels names (pattern.length + 1) (maxNesting + 3) 0).parseSub
        (hasFlag flags sreFlagVerbose) ⟨source, RegexState.new flags⟩).1

section Stripping

mutual

/-- What an operation is when the parentheses of plain groups are taken off.
Alternatives are then joined, and nothing is left of a lookahead for nothing. -/
def OpCode.stripped (op : OpCode) : SubPattern :=
  match op with
  | .subpattern none 0 0 p => stripSeq p
  | .subpattern group addFlags delFlags p =>
      [.subpattern group addFlags delFlags (stripSeq p)]
  | .branch items => joinAlternatives (stripItems items)
  | .groupRefExists condGroup yes no =>
      [.groupRefExists condGroup (stripSeq yes) (stripOption no)]
  | .assert direction p => [.assert direction (stripSeq p)]
  | .assertNot direction p =>
      [if (stripSeq p).isEmpty then .failure
        else .assertNot direction (stripSeq p)]
  | .atomicGroup p => [.atomicGroup (stripSeq p)]
  | .repeated kind min max item => [.repeated kind min max (stripSeq item)]
  | op => [op]
termination_by structural op

def stripSeq (p : List OpCode) : SubPattern :=
  match p with
  | [] => []
  | op :: rest => op.stripped ++ stripSeq rest
termination_by structural p

def stripItems (items : List (List OpCode)) : List SubPattern :=
  match items with
  | [] => []
  | p :: rest => stripSeq p :: stripItems rest
termination_by structural items

def stripOption (no : Option (List OpCode)) : Option SubPattern :=
  match no with
  | none => none
  | some p => some (stripSeq p)
termination_by structural no

end

/-- An operation whose own parentheses are kept. -/
def OpCode.stripInside : OpCode → OpCode
  | .subpattern group addFlags delFlags p =>
      .subpattern group addFlags delFlags (stripSeq p)
  | .groupRefExists condGroup yes no =>
      .groupRefExists condGroup (stripSeq yes) (stripOption no)
  | .assert direction p => .assert direction (stripSeq p)
  | .assertNot direction p =>
      if (stripSeq p).isEmpty then .failure
      else .assertNot direction (stripSeq p)
  | .atomicGroup p => .atomicGroup (stripSeq p)
  | .repeated kind min max item => .repeated kind min max (stripSeq item)
  | op => op

def OpCode.isBranch : OpCode → Bool
  | .branch _ => true
  | _ => false

/-- No repetition is directly of an anchor or of a repetition, and none becomes
one unless it is of a plain group. -/
def OpCode.Guarded : OpCode → Prop
  | .repeated _ _ _ item =>
      isBare item = false ∧
        (isBare (stripSeq item) = true → ∃ p, item = [.subpattern none 0 0 p])
  | _ => True

theorem stripItems_eq (items : List SubPattern) :
    stripItems items = items.map stripSeq := by
  induction items with
  | nil => rfl
  | cons p items ih => rw [stripItems, ih, List.map_cons]

theorem stripSeq_singleton (op : OpCode) : stripSeq [op] = op.stripped := by
  rw [stripSeq, stripSeq, List.append_nil]

/-- A quantifier repeats an operation without the parentheses around it. -/
theorem stripped_eq {op : OpCode} (hbranch : op.isBranch = false) :
    op.stripped = repeatedItem op.stripInside := by
  cases op with
  | branch items => cases hbranch
  | subpattern group addFlags delFlags p =>
      rw [OpCode.stripInside]
      cases group with
      | some gid => rw [OpCode.stripped, repeatedItem] <;> simp
      | none =>
          rcases addFlags with - | addFlags
          · rcases delFlags with - | delFlags
            · rfl
            · rw [OpCode.stripped, repeatedItem] <;> simp
          · rw [OpCode.stripped, repeatedItem] <;> simp
  | assertNot direction p =>
      rw [OpCode.stripped, OpCode.stripInside]
      split <;> rfl
  | _ => rfl

theorem isPlain_stripInside (op : OpCode) :
    isPlain op.stripInside = isPlain op := by
  cases op with
  | subpattern group addFlags delFlags p =>
      rw [OpCode.stripInside]
      cases group with
      | some gid => rfl
      | none =>
          rcases addFlags with - | addFlags
          · rcases delFlags with - | delFlags
            · rfl
            · rfl
          · rfl
  | assertNot direction p =>
      rw [OpCode.stripInside]
      split <;> rfl
  | _ => rfl

/-- What is stripped has no plain groups left side by side. -/
theorem stripped_plain (op : OpCode) :
    ∀ inner ∈ op.stripped, isPlain inner = false := by
  induction op using OpCode.induction with
  | step op ih =>
      have hseq : ∀ p ∈ op.nested, ∀ inner ∈ stripSeq p,
          isPlain inner = false := by
        intro p hp
        replace ih := ih p hp
        clear hp
        induction p with
        | nil =>
            intro inner hinner
            cases hinner
        | cons first p ihp =>
            obtain ⟨hfirst, hrest⟩ := List.forall_mem_cons.mp ih
            exact List.forall_mem_append.mpr ⟨hfirst, ihp hrest⟩
      cases hbranch : op.isBranch with
      | true =>
          cases op with
          | branch items =>
              rw [OpCode.stripped, stripItems_eq]
              apply joinAlternatives_plain
              intro item hitem
              obtain ⟨p, hp, rfl⟩ := List.mem_map.mp hitem
              exact hseq p hp
          | _ => cases hbranch
      | false =>
          cases hplain : isPlain op with
          | true =>
              obtain ⟨p, rfl⟩ := isPlain_eq_true hplain
              exact hseq p (List.mem_singleton_self p)
          | false =>
              have hinside := (isPlain_stripInside op).trans hplain
              rw [stripped_eq hbranch, repeatedItem_of_plain hinside]
              exact List.forall_mem_singleton.mpr hinside

theorem stripSeq_plain (p : SubPattern) :
    ∀ op ∈ stripSeq p, isPlain op = false := by
  induction p with
  | nil =>
      intro op hop
      cases hop
  | cons first p ih =>
      exact List.forall_mem_append.mpr ⟨stripped_plain first, ih⟩

theorem inlinePlain_of_plain {p : SubPattern}
    (hp : ∀ op ∈ p, isPlain op = false) : inlinePlain p = p := by
  induction p with
  | nil => rfl
  | cons op p ih =>
      obtain ⟨hop, hrest⟩ := List.forall_mem_cons.mp hp
      rw [inlinePlain, inlined_of_plain hop, ih hrest, List.singleton_append]

/-- Taking the parentheses off at the end of a sequence is what is left to
do. -/
theorem inlinePlain_stripInside {kept : SubPattern}
    (hbranch : ∀ op ∈ kept, op.isBranch = false) :
    inlinePlain (kept.map OpCode.stripInside) = stripSeq kept := by
  induction kept with
  | nil => rfl
  | cons op kept ih =>
      obtain ⟨hop, hrest⟩ := List.forall_mem_cons.mp hbranch
      rw [List.map_cons, inlinePlain, ih hrest, stripSeq, stripped_eq hop]
      congr 1
      cases hplain : isPlain op with
      | true =>
          obtain ⟨p, rfl⟩ := isPlain_eq_true hplain
          exact inlinePlain_of_plain (stripSeq_plain p)
      | false =>
          have hinside := (isPlain_stripInside op).trans hplain
          rw [inlined_of_plain hinside, repeatedItem_of_plain hinside]

end Stripping

end Hegel
