/-
The parser of patterns.  Alternatives are parsed by sequences and groups in
sequences by alternatives, each one level further down; a level is given what
the level below it parses.
-/
import Hegel.RegexTokenizer

namespace Hegel

open Parsing

/-- Every item once, in the order they first appear in. -/
def uniqSet (items : List SetItem) : List SetItem :=
  items.foldl (fun seen item =>
    if item ∈ seen then seen else seen ++ [item]) []

def isRepeatOpcode : OpCode → Bool
  | .repeated _ _ _ _ => true
  | _ => false

/-- What the operations of every item begin with, and what is left of them. -/
def takeShared : SubPattern → List SubPattern → SubPattern × List SubPattern
  | [], others => ([], [] :: others)
  | op :: first, others =>
      if others.all fun item => decide (item.head? = some op) then
        let (shared, items) := takeShared first (others.map List.tail)
        (op :: shared, items)
      else ([], (op :: first) :: others)

/-- The one set that alternatives of single characters are. -/
def flattenSet : List SubPattern → Option (List SetItem)
  | [] => some []
  | item :: rest =>
      match item with
      | [.literal cp] => (flattenSet rest).map (.literal cp :: ·)
      | [.inSet inner] =>
          if inner.head? = some .negate then none
          else (flattenSet rest).map (inner ++ ·)
      | _ => none

/-- Alternatives behind what they share. -/
def joinShared (shared : SubPattern) (items : List SubPattern) : SubPattern :=
  match flattenSet items with
  | some set => shared ++ [.inSet (uniqSet set)]
  | none => shared ++ [.branch items]

/-- Alternatives as operations, with what they share in front. -/
def joinAlternatives : List SubPattern → SubPattern
  | [] => []
  | [item] => item
  | item :: others =>
      let (shared, items) := takeShared item others
      joinShared shared items

mutual

/-- A group that only encloses is replaced by what it encloses. -/
def OpCode.inlined (op : OpCode) : SubPattern :=
  match op with
  | .subpattern none 0 0 p => inlinePlain p
  | op => [op]
termination_by structural op

def inlinePlain (p : List OpCode) : SubPattern :=
  match p with
  | [] => []
  | op :: rest => op.inlined ++ inlinePlain rest
termination_by structural p

end

/-- What is parsed one level further down. -/
structure Level where
  parseSub : Bool → Parsing SubPattern
  parse : Bool → Bool → Parsing SubPattern

def typeFlags : Nat := sreFlagAscii ||| sreFlagLocale ||| sreFlagUnicode

def ClassEscape.item : ClassEscape → SetItem
  | .literal cp => .literal cp
  | .category cat => .category cat

def ClassEscape.endpoint : ClassEscape → Option Nat
  | .literal cp => some cp
  | .category _ => none

/-- A character or an escape between brackets. -/
def setCode (cur : PatternToken) : Parsing ClassEscape := do
  let first ← unwrap cur.head?
  if first = escapeMark then classEscape cur
  else pure (.literal first.toNat)

def badRange {Value : Type} (cur that : PatternToken) : Parsing Value :=
  Parsing.error
    ("bad character range " ++ String.ofList cur ++ "-" ++ String.ofList that)
    (cur.length + 1 + that.length)

def unterminatedSet {Value : Type} (here : Nat) : Parsing Value := do
  let offset ← since here
  Parsing.error "unterminated character set" offset

/-- The range between two ends. -/
def setRange (cur that : PatternToken) (code1 code2 : ClassEscape) :
    Parsing SetItem :=
  match code1.endpoint, code2.endpoint with
  | some lo, some hi =>
      if hi < lo then badRange cur that else pure (.range lo hi)
  | _, _ => badRange cur that

/-- The items of a set up to its closing bracket. -/
def setItems (here : Nat) : Nat → List SetItem → Parsing (List SetItem)
  | 0, _ => fault .exhausted
  | rounds + 1, set => do
      let got ← get
      match got with
      | none => unterminatedSet here
      | some cur =>
          if cur = [']'] ∧ set ≠ [] then pure set
          else do
            let code1 ← setCode cur
            let dash ← takeMatch '-'
            if dash then do
              let that ← get
              match that with
              | none => unterminatedSet here
              | some that =>
                  if that = [']'] then
                    pure (set ++ [code1.item, .literal '-'.toNat])
                  else do
                    let code2 ← setCode that
                    let range ← setRange cur that code1 code2
                    setItems here rounds (set ++ [range])
            else setItems here rounds (set ++ [code1.item])

/-- A set as an operation; a single character needs no set. -/
def setOperation (negate : Bool) : List SetItem → OpCode
  | [.literal cp] => if negate then .notLiteral cp else .literal cp
  | set => .inSet (if negate then .negate :: set else set)

def parseSet (rounds : Nat) : Parsing OpCode := do
  let here ← tell
  let negate ← takeMatch '^'
  let set ← setItems (here - 1) rounds []
  pure (setOperation negate (uniqSet set))

/-- The digits that come next, after others. -/
def digitsFrom : Nat → List Char → Parsing (List Char)
  | 0, _ => fault .exhausted
  | rounds + 1, text => do
      let c ← peekNextChar
      if c.any fun c => decide (c ∈ digits) then do
        let more ← get
        let more ← unwrap more
        digitsFrom rounds (text ++ more)
      else pure text

def repetitionNumber (text : List Char) : Parsing Nat :=
  match fromStrRadix 10 (2 ^ 64) text with
  | none => Parsing.error "the repetition number is too large" 0
  | some parsed =>
      if parsed ≥ maxRepeatCount then
        Parsing.error "the repetition number is too large" 0
      else pure parsed

/-- The bounds that two numbers spell, each of which may be left out. -/
def repetitionBounds (here : Nat) (lo hi : List Char) :
    Parsing (Nat × Nat) := do
  let min ← if lo.isEmpty then pure 0 else repetitionNumber lo
  if hi.isEmpty then pure (min, maxRepeatCount)
  else do
    let max ← repetitionNumber hi
    if max < min then do
      let offset ← since here
      Parsing.error "min repeat greater than max repeat" offset
    else pure (min, max)

/-- The bounds between braces, or nothing when the brace is only a
character. -/
def braceBounds (rounds here : Nat) : Parsing (Option (Nat × Nat)) := do
  let c ← peekNextChar
  if c = some (.ofNat 125) then pure none
  else do
    let lo ← digitsFrom rounds []
    let comma ← takeMatch ','
    let hi ← if comma then digitsFrom rounds [] else pure lo
    let closed ← takeMatch (.ofNat 125)
    if closed then do
      let bounds ← repetitionBounds here lo hi
      pure (some bounds)
    else do
      seek here
      pure none

def repeatBounds (rounds here : Nat) (this : PatternToken) :
    Parsing (Option (Nat × Nat)) :=
  if this = ['?'] then pure (some (0, 1))
  else if this = ['*'] then pure (some (0, maxRepeatCount))
  else if this = ['+'] then pure (some (1, maxRepeatCount))
  else if this = [.ofNat 123] then braceBounds rounds here
  else fault .internal

def repeatKind : Parsing RepeatKind := do
  let lazily ← takeMatch '?'
  if lazily then pure .lazy
  else do
    let possessive ← takeMatch '+'
    if possessive then pure .possessive else pure .greedy

/-- What a quantifier repeats of the operation before it. -/
def repeatedItem : OpCode → SubPattern
  | .subpattern none 0 0 p => p
  | other => [other]

def notRepeatable {Value : Type} (msg : String) (here : Nat)
    (this : PatternToken) : Parsing Value := do
  let offset ← since here
  Parsing.error msg (offset + this.length)

/-- Repeat the last operation. -/
def repeatLast (here : Nat) (this : PatternToken) (min max : Nat)
    (subpattern : SubPattern) : Parsing SubPattern :=
  match subpattern.getLast? with
  | none => notRepeatable "nothing to repeat" here this
  | some (.position _) => notRepeatable "nothing to repeat" here this
  | some op =>
      if isRepeatOpcode op then notRepeatable "multiple repeat" here this
      else do
        let kind ← repeatKind
        pure (subpattern.dropLast ++
          [.repeated kind min max (repeatedItem op)])

def parseRepeat (rounds : Nat) (firstChar : Char) (this : PatternToken)
    (subpattern : SubPattern) : Parsing SubPattern := do
  let here ← tell
  let bounds ← repeatBounds rounds here this
  match bounds with
  | none => pure (subpattern ++ [.literal firstChar.toNat])
  | some (min, max) => repeatLast here this min max subpattern

def missingParen {Value : Type} (start : Nat) : Parsing Value := do
  let offset ← since start
  Parsing.error "missing ), unterminated subpattern" offset

section Flags

variable (names : NameClasses)

def unknownFlag {Value : Type} (missing : String) (c : Char) (ch : PatternToken) :
    Parsing Value :=
  Parsing.error (if names.isAlphabetic c then "unknown flag" else missing)
    ch.length

/-- The flags to add, with the token after them. -/
def addedFlags : Nat → PatternToken → Nat → Parsing (PatternToken × Nat)
  | 0, _, _ => fault .exhausted
  | rounds + 1, ch, addFlags => do
      let c ← unwrap ch.head?
      match flagForChar c with
      | none => fault .internal
      | some flag =>
          if ch = ['L'] then
            Parsing.error
              "bad inline flags: cannot use 'L' flag with a str pattern" 0
          else if hasFlag flag typeFlags &&
              (addFlags ||| flag) &&& typeFlags != flag then
            Parsing.error
              "bad inline flags: flags 'a', 'u' and 'L' are incompatible" 0
          else do
            let got ← get
            match got with
            | none => Parsing.error "missing -, : or )" 0
            | some n =>
                if n = [')'] ∨ n = ['-'] ∨ n = [':'] then
                  pure (n, addFlags ||| flag)
                else do
                  let c ← unwrap n.head?
                  if (flagForChar c).isNone then
                    unknownFlag names "missing -, : or )" c n
                  else addedFlags rounds n (addFlags ||| flag)

/-- The flags to take away, up to the colon. -/
def deletedFlags : Nat → PatternToken → Nat → Parsing Nat
  | 0, _, _ => fault .exhausted
  | rounds + 1, ch, delFlags => do
      let c ← unwrap ch.head?
      let flag ← unwrap (flagForChar c)
      if hasFlag flag typeFlags then
        Parsing.error
          "bad inline flags: cannot turn off flags 'a', 'u' and 'L'" 0
      else do
        let got ← get
        match got with
        | none => Parsing.error "missing :" 0
        | some n =>
            if n = [':'] then pure (delFlags ||| flag)
            else do
              let c ← unwrap n.head?
              if (flagForChar c).isNone then
                unknownFlag names "missing :" c n
              else deletedFlags rounds n (delFlags ||| flag)

/-- The flags behind a minus. -/
def minusFlags (rounds : Nat) : Parsing Nat := do
  let got ← get
  match got with
  | none => Parsing.error "missing flag" 0
  | some n => do
      let c ← unwrap n.head?
      if (flagForChar c).isNone then unknownFlag names "missing flag" c n
      else deletedFlags names rounds n 0

/-- Flags for the whole pattern, or those a group adds and takes away. -/
def parseFlags (rounds : Nat) (firstCh : Char) :
    Parsing (Option (Nat × Nat)) := do
  let (ch, addFlags) ←
    if firstCh = '-' then pure (['-'], 0)
    else addedFlags names rounds [firstCh] 0
  if ch = [')'] then do
    modifyState fun state => { state with flags := state.flags ||| addFlags }
    pure none
  else do
    let delFlags ←
      if ch = ['-'] then minusFlags names rounds
      else if ch = [':'] then pure 0
      else fault .internal
    if addFlags &&& delFlags != 0 then
      Parsing.error "bad inline flags: flag turned on and off" 1
    else pure (some (addFlags, delFlags))

end Flags

/-- What is known of a group when its content starts. -/
structure GroupOpening where
  capture : Bool
  atomic : Bool
  name : Option (List Char)
  addFlags : Nat
  delFlags : Nat

def GroupOpening.capturing (name : Option (List Char)) : GroupOpening :=
  ⟨true, false, name, 0, 0⟩

def GroupOpening.plain : GroupOpening :=
  ⟨false, false, none, 0, 0⟩

def GroupOpening.atomically : GroupOpening :=
  ⟨false, true, none, 0, 0⟩

def GroupOpening.flagged (addFlags delFlags : Nat) : GroupOpening :=
  ⟨false, false, none, addFlags, delFlags⟩

section Sequences

variable (names : NameClasses) (rounds : Nat) (below : Level)

/-- Open a group if it captures. -/
def enterGroup (g : GroupOpening) : Parsing (Option Nat) :=
  if g.capture then do
    let gid ← opengroup g.name
    pure (some gid)
  else pure none

def leaveGroup : Option Nat → Parsing Unit
  | none => pure ()
  | some gid => modifyState fun state => state.closegroup gid

/-- The content of a group and its closing parenthesis. -/
def groupBody (start : Nat) (verbose : Bool) (g : GroupOpening) :
    Parsing OpCode := do
  let group ← enterGroup g
  let p ← below.parseSub ((verbose || hasFlag g.addFlags sreFlagVerbose) &&
    !hasFlag g.delFlags sreFlagVerbose)
  let closed ← takeMatch ')'
  if !closed then missingParen start
  else do
    leaveGroup group
    if g.atomic then
      if group.isSome then fault .internal else pure (.atomicGroup p)
    else pure (.subpattern group g.addFlags g.delFlags p)

/-- A reference to a closed group by its name. -/
def namedReference : Parsing OpCode := do
  let n ← getuntilFrom ')' "group name" rounds []
  checkgroupname names n 1
  let state ← getState
  match state.groupdict.lookup n with
  | none =>
      Parsing.error ("unknown group name '" ++ String.ofList n ++ "'")
        (n.length + 1)
  | some gid =>
      if !state.checkgroup gid then
        Parsing.error "cannot refer to an open group" (n.length + 1)
      else do
        checklookbehindgroup gid
        pure (.groupRef gid)

def unknownPExtension {Value : Type} : Parsing Value := do
  let got ← get
  match got with
  | none => Parsing.error "unexpected end of pattern" 0
  | some ch =>
      Parsing.error ("unknown extension ?P" ++ String.ofList ch)
        (ch.length + 2)

/-- The end of an assertion, with its content. -/
def assertion (start : Nat) (direction : Int) (marker : PatternToken)
    (p : SubPattern) : Parsing OpCode := do
  let closed ← takeMatch ')'
  if !closed then missingParen start
  else if marker = ['='] then pure (.assert direction p)
  else if !p.isEmpty then pure (.assertNot direction p)
  else pure .failure

def lookahead (start : Nat) (verbose : Bool) (marker : PatternToken) :
    Parsing OpCode := do
  let p ← below.parseSub verbose
  assertion start 1 marker p

/-- Within the outermost of them, no reference to a group that is opened in it
is allowed. -/
def lookbehind (start : Nat) (verbose : Bool) : Parsing OpCode := do
  let got ← get
  match got with
  | none => Parsing.error "unexpected end of pattern" 0
  | some lookch =>
      if lookch ≠ ['='] ∧ lookch ≠ ['!'] then
        Parsing.error ("unknown extension ?<" ++ String.ofList lookch)
          (lookch.length + 2)
      else do
        let saved ← getState
        modifyState fun state =>
          { state with
            lookbehindgroups :=
              some (state.lookbehindgroups.getD state.groups) }
        let p ← below.parseSub verbose
        modifyState fun state =>
          { state with
            lookbehindgroups :=
              if saved.lookbehindgroups.isNone then none
              else state.lookbehindgroups }
        assertion start (-1) lookch p

/-- The group that a condition names. -/
def namedCondition (condname : List Char) : Parsing Nat := do
  checkgroupname names condname 1
  let state ← getState
  match state.groupdict.lookup condname with
  | none =>
      Parsing.error ("unknown group name '" ++ String.ofList condname ++ "'")
        (condname.length + 1)
  | some g => pure g

/-- The group that a condition numbers; it is looked for at the end. -/
def numberedCondition (condname : List Char) : Parsing Nat :=
  match fromStrRadix 10 (2 ^ 32) condname with
  | none =>
      Parsing.error ("invalid group reference " ++ String.ofList condname)
        (condname.length + 1)
  | some parsed =>
      if parsed = 0 then
        Parsing.error "bad group number" (condname.length + 1)
      else if parsed ≥ maxGroups then
        Parsing.error ("invalid group reference " ++ toString parsed)
          (condname.length + 1)
      else do
        let here ← tell
        modifyState fun state =>
          if parsed ∈ state.grouprefpos then state
          else
            { state with
              grouprefpos := state.grouprefpos.insert parsed
                (here - (condname.length + 1)) }
        pure parsed

/-- The branch of a conditional for when its group has captured nothing. -/
def otherBranch (verbose : Bool) : Parsing (Option SubPattern) := do
  let other ← takeMatch '|'
  if other then do
    let no ← below.parse verbose false
    let next ← peekNextChar
    if next = some '|' then
      Parsing.error "conditional backref with more than two branches" 0
    else pure (some no)
  else pure none

def conditional (start : Nat) (verbose : Bool) : Parsing OpCode := do
  let condname ← getuntilFrom ')' "group name" rounds []
  let condgroup ←
    if condname.isEmpty || !condname.all fun c => decide (c ∈ digits) then
      namedCondition names condname
    else numberedCondition condname
  checklookbehindgroup condgroup
  let yes ← below.parse verbose false
  let no ← otherBranch below verbose
  let closed ← takeMatch ')'
  if !closed then missingParen start
  else pure (.groupRefExists condgroup yes no)

/-- Skip a comment in parentheses. -/
def parenComment (start : Nat) : Nat → Parsing Unit
  | 0 => fault .exhausted
  | rounds + 1 => do
      let next ← nextToken
      if next = none then do
        let offset ← since start
        Parsing.error "missing ), unterminated comment" offset
      else do
        let got ← get
        if got = some [')'] then pure () else parenComment start rounds

/-- Flags right behind the question mark: for a group, or for the whole
pattern at its start. -/
def inlineFlags (start : Nat) (verbose first : Bool) (subpattern : SubPattern)
    (c : Char) : Parsing (Bool × SubPattern) := do
  let flags ← parseFlags names rounds c
  match flags with
  | some (addFlags, delFlags) => do
      let op ← groupBody below start verbose (.flagged addFlags delFlags)
      pure (verbose, subpattern ++ [op])
  | none =>
      if !first || !subpattern.isEmpty then do
        let offset ← since start
        Parsing.error "global flags not at the start of the expression" offset
      else do
        let state ← getState
        pure (hasFlag state.flags sreFlagVerbose, subpattern)

/-- What begins with a question mark and the letter P. -/
def pExtension (start : Nat) (verbose : Bool) : Parsing OpCode := do
  let named ← takeMatch '<'
  if named then do
    let n ← getuntilFrom '>' "group name" rounds []
    checkgroupname names n 1
    groupBody below start verbose (.capturing (some n))
  else do
    let reference ← takeMatch '='
    if reference then namedReference names rounds else unknownPExtension

/-- What a group is that adds one operation. -/
def groupOperation (start : Nat) (verbose : Bool) (ch : PatternToken) :
    Option (Parsing OpCode) :=
  if ch = ['P'] then some (pExtension names rounds below start verbose)
  else if ch = [':'] then some (groupBody below start verbose .plain)
  else if ch = ['='] ∨ ch = ['!'] then
    some (lookahead below start verbose ch)
  else if ch = ['<'] then some (lookbehind below start verbose)
  else if ch = ['('] then
    some (conditional names rounds below start verbose)
  else if ch = ['>'] then some (groupBody below start verbose .atomically)
  else none

def extension (start : Nat) (verbose first : Bool) (subpattern : SubPattern)
    (ch : PatternToken) : Parsing (Bool × SubPattern) :=
  if ch = ['#'] then do
    parenComment start rounds
    pure (verbose, subpattern)
  else
    match groupOperation names rounds below start verbose ch with
    | some operation => do
        let op ← operation
        pure (verbose, subpattern ++ [op])
    | none => do
        let c ← unwrap ch.head?
        if (flagForChar c).isSome || ch == ['-'] then
          inlineFlags names rounds below start verbose first subpattern c
        else
          Parsing.error ("unknown extension ?" ++ String.ofList ch)
            (ch.length + 1)

def parseGroup (verbose first : Bool) (subpattern : SubPattern) :
    Parsing (Bool × SubPattern) := do
  let here ← tell
  let special ← takeMatch '?'
  if special then do
    let got ← get
    match got with
    | none => Parsing.error "unexpected end of pattern" 0
    | some ch =>
        extension names rounds below (here - 1) verbose first subpattern ch
  else do
    let op ← groupBody below (here - 1) verbose (.capturing none)
    pure (verbose, subpattern ++ [op])

/-- Skip a comment to the end of its line. -/
def lineComment : Nat → Parsing Unit
  | 0 => fault .exhausted
  | rounds + 1 => do
      let got ← get
      if got = none ∨ got = some ['\n'] then pure ()
      else lineComment rounds

/-- The operations so far with what a token adds, once it has been read. -/
def parseToken (this : PatternToken) (verbose first : Bool)
    (subpattern : SubPattern) : Parsing (Bool × SubPattern) := do
  let firstChar ← unwrap this.head?
  if verbose && this.length == 1 && decide (firstChar ∈ whitespace) then
    pure (verbose, subpattern)
  else if verbose && this.length == 1 && firstChar == '#' then do
    lineComment rounds
    pure (verbose, subpattern)
  else if firstChar = escapeMark then do
    let op ← escapeCode this
    pure (verbose, subpattern ++ [op])
  else if firstChar ∉ specialChars then
    pure (verbose, subpattern ++ [.literal firstChar.toNat])
  else if this = ['['] then do
    let op ← parseSet rounds
    pure (verbose, subpattern ++ [op])
  else if this.length == 1 && decide (firstChar ∈ repeatChars) then do
    let subpattern ← parseRepeat rounds firstChar this subpattern
    pure (verbose, subpattern)
  else if this = ['.'] then pure (verbose, subpattern ++ [.any])
  else if this = ['('] then
    parseGroup names rounds below verbose first subpattern
  else if this = ['^'] then
    pure (verbose, subpattern ++ [.position .beginning])
  else if this = ['$'] then
    pure (verbose, subpattern ++ [.position .atEnd])
  else fault .internal

/-- The operations up to a bar, a closing parenthesis or the end. -/
def parseTokens (first : Bool) :
    Nat → Bool → SubPattern → Parsing SubPattern
  | 0, _, _ => fault .exhausted
  | left + 1, verbose, subpattern => do
      let next ← nextToken
      match next with
      | none => pure subpattern
      | some this =>
          if this = ['|'] ∨ this = [')'] then pure subpattern
          else do
            advance
            let (verbose, subpattern) ←
              parseToken names rounds below this verbose first subpattern
            parseTokens first left verbose subpattern

def parse (nested : Nat) (verbose first : Bool) : Parsing SubPattern :=
  if nested > maxNesting then Parsing.error "regex nesting too deep" 0
  else do
    let subpattern ← parseTokens names rounds below first rounds verbose []
    pure (inlinePlain subpattern)

/-- Sequences with bars between them. -/
def parseAlternatives (nested : Nat) :
    Nat → Bool → List SubPattern → Parsing (List SubPattern)
  | 0, _, _ => fault .exhausted
  | left + 1, verbose, items => do
      let item ← below.parse verbose (nested == 0 && items.isEmpty)
      let bar ← takeMatch '|'
      if bar then do
        let state ← getState
        parseAlternatives nested left
          (if nested = 0 then hasFlag state.flags sreFlagVerbose else verbose)
          (items ++ [item])
      else pure (items ++ [item])

def parseSub (nested : Nat) (verbose : Bool) : Parsing SubPattern := do
  let items ← parseAlternatives below nested rounds verbose []
  pure (joinAlternatives items)

end Sequences

/-- So many levels, from a depth of nesting on. -/
def levels (names : NameClasses) (rounds : Nat) : Nat → Nat → Level
  | 0, _ => ⟨fun _ => fault .exhausted, fun _ _ => fault .exhausted⟩
  | count + 1, nested =>
      let below := levels names rounds count (nested + 1)
      ⟨parseSub rounds below nested, parse names rounds below nested⟩

def fixFlags (flags : Nat) : Except ParseError Nat :=
  if hasFlag flags sreFlagLocale then
    .error ⟨"cannot use LOCALE flag with a str pattern", 0⟩
  else if !hasFlag flags sreFlagAscii then .ok (flags ||| sreFlagUnicode)
  else if hasFlag flags sreFlagUnicode then
    .error ⟨"ASCII and UNICODE flags are incompatible", 0⟩
  else .ok flags

/-- Refuse conditions on groups that there are not. -/
def checkConditions (state : RegexState) : Parsing Unit :=
  match state.grouprefpos.entries.find? fun entry =>
      decide (entry.1 ≥ state.groups) with
  | none => pure ()
  | some entry =>
      fault (.refused
        ⟨"invalid group reference " ++ toString entry.1, entry.2⟩)

/-- A whole pattern, with the flags it is left with. -/
def parseWhole (names : NameClasses) (rounds flags : Nat) :
    Parsing ParsedPattern := do
  let p ← (levels names rounds (maxNesting + 3) 0).parseSub
    (hasFlag flags sreFlagVerbose)
  let state ← getState
  match fixFlags state.flags with
  | .error error => fault (.refused error)
  | .ok flags => do
      let next ← nextToken
      if next = none then do
        checkConditions state
        pure ⟨p, flags⟩
      else if next = some [')'] then
        Parsing.error "unbalanced parenthesis" 0
      else fault .internal

def parsePattern (names : NameClasses) (pattern : List Char) (flags : Nat) :
    Except ParseFault ParsedPattern :=
  match Tokenizer.new pattern with
  | .error error => .error (.refused error)
  | .ok source =>
      (parseWhole names (pattern.length + 1) flags
        ⟨source, RegexState.new flags⟩).1

end Hegel
