/-
Draws of texts that match a pattern.  Operations append to the text in turn;
what depends on text that is still to come is checked once it is there.
-/
import Hegel.Domains
import Hegel.RegexMatcher

namespace Hegel

/-- Characters that nodes stand for, kept from one draw to the next.  A node is
known by its path in the tree; without an alphabet its items are enough. -/
structure RegexCaches where
  inCache : AList fun _ : List Nat × Nat × Nat => List Char
  charCache : AList fun _ : Nat × Nat => List Char
  defaultInSet : AList fun _ : List SetItem × Nat => List Char
  defaultNotLiteral : AList fun _ : Nat × Nat => List Char

structure PendingAnchor where
  charPos : Nat
  code : AtCode
  flags : Nat

/-- An assertion to check against the final text. -/
structure PendingAssertNot where
  charPos : Nat
  direction : Int
  pattern : SubPattern
  flags : Nat
  groups : Groups

structure GenState where
  groups : Groups
  flags : Nat
  fullmatch : Bool
  pendingAnchors : List PendingAnchor
  pendingAsserts : List PendingAssertNot
  pendingLookaheads : List PendingAssertNot
  needsWholeMatch : Bool

/-- A text that is being generated. -/
structure Generation where
  state : GenState
  caches : RegexCaches
  out : List Char

def GenState.new (flags : Nat) (fullmatch : Bool) : GenState where
  groups := ∅
  flags := flags
  fullmatch := fullmatch
  pendingAnchors := []
  pendingAsserts := []
  pendingLookaheads := []
  needsWholeMatch := false

namespace Generation

variable (gen : Generation)

def push (c : Char) : Generation :=
  { gen with out := gen.out ++ [c] }

def pushStr (s : List Char) : Generation :=
  { gen with out := gen.out ++ s }

def withFlags (flags : Nat) : Generation :=
  { gen with state := { gen.state with flags := flags } }

/-- Remember what was appended to a shorter text. -/
def capture (gid before : Nat) : Generation :=
  { gen with state := { gen.state with
      groups := gen.state.groups.insert gid (gen.out.drop before) } }

def pendAnchor (code : AtCode) : Generation :=
  { gen with state := { gen.state with
      pendingAnchors := gen.state.pendingAnchors ++
        [⟨gen.out.length, code, gen.state.flags⟩] } }

/-- An assertion at the end of the text so far. -/
def assertion (direction : Int) (p : SubPattern) : PendingAssertNot :=
  ⟨gen.out.length, direction, p, gen.state.flags, gen.state.groups⟩

def pendAssert (direction : Int) (p : SubPattern) : Generation :=
  { gen with state := { gen.state with
      pendingAsserts := gen.state.pendingAsserts ++
        [gen.assertion direction p] } }

def pendLookahead (direction : Int) (p : SubPattern) : Generation :=
  { gen with state := { gen.state with
      pendingLookaheads := gen.state.pendingLookaheads ++
        [gen.assertion direction p] } }

def demandWholeMatch : Generation :=
  { gen with state := { gen.state with needsWholeMatch := true } }

def withCaches (caches : RegexCaches) : Generation :=
  { gen with caches := caches }

end Generation

namespace RegexCaches

variable (caches : RegexCaches)

def addInSet (key : List Nat × Nat × Nat) (chars : List Char) : RegexCaches :=
  { caches with inCache := caches.inCache.insert key chars }

def addChars (key : Nat × Nat) (chars : List Char) : RegexCaches :=
  { caches with charCache := caches.charCache.insert key chars }

def addDefaultInSet (key : List SetItem × Nat) (chars : List Char) :
    RegexCaches :=
  { caches with defaultInSet := caches.defaultInSet.insert key chars }

def addDefaultNotLiteral (key : Nat × Nat) (chars : List Char) :
    RegexCaches :=
  { caches with
    defaultNotLiteral := caches.defaultNotLiteral.insert key chars }

def empty : RegexCaches := ⟨∅, ∅, ∅, ∅⟩

end RegexCaches

/-- A violated invariant, reported as such. -/
def orInternal {Value : Type} :
    Except InternalError Value → Except MachineError Value
  | .ok value => .ok value
  | .error error => .error (.assertion error.message)

section Drawing

variable {Rng : Type} {Own : Type}

/-- Turn the test case down. -/
def markInvalid {Value : Type} :
    Attempt (Own × Source Rng) MachineError Value := do
  Attempt.modify fun (own, source) => (own, source.rejected)
  Attempt.refuse (.engine .invalidTestCase)

variable (sampler : Sampler Rng)

/-- A character of the alphabet; without one a printable one of ASCII. -/
def drawAnyChar (alphabet : Option IntervalSet) :
    Attempt (Own × Source Rng) MachineError Char :=
  match alphabet with
  | none => do
      let cp ← onSource (drawInt sampler 32 126)
      Attempt.ofExcept ((charFromU32 cp.toNat).elim
        (.error (.assertion ("draw_any_char: printable-ASCII draw " ++
          toString cp ++ " is not a char"))) .ok)
  | some intervals =>
      if intervals.len = 0 then markInvalid
      else do
        let idx ← onSource (drawInt sampler 0 (intervals.len - 1))
        let cp ← Attempt.ofExcept ((intervals.get idx).elim
          (.error (.assertion ("draw_any_char: alphabet index " ++
            toString idx ++ " out of bounds"))) .ok)
        Attempt.ofExcept ((charFromU32 cp).elim
          (.error (.assertion ("draw_any_char: alphabet codepoint " ++
            toString cp ++ " is not a char"))) .ok)

/-- A place in a list of characters, most often one of the first. -/
def drawCharIndex (n : Nat) :
    Attempt (Own × Source Rng) MachineError Int :=
  if n > 256 then do
    let early ← onSource (drawWeighted sampler (.ofRatio 4 5) none)
    if early then onSource (drawInt sampler 0 255)
    else onSource (drawInt sampler 256 (n - 1))
  else onSource (drawInt sampler 0 (n - 1))

end Drawing

section Generating

variable {Rng : Type} (sampler : Sampler Rng)

/-- What is done with a text that is being generated. -/
abbrev Generating (Rng Value : Type) : Type :=
  Attempt (Generation × Source Rng) MachineError Value

def readGeneration : Generating Rng Generation := do
  let (gen, _) ← Attempt.read
  return gen

def change (f : Generation → Generation) : Generating Rng Unit :=
  Attempt.modify fun (gen, source) => (f gen, source)

def emitFromChars (chars : List Char) : Generating Rng Unit :=
  if chars.isEmpty then markInvalid
  else do
    let idx ← drawCharIndex sampler chars.length
    let c ← Attempt.ofExcept (elementAt chars idx.toNat)
    change (·.push c)

/-- Append a character that has to be in the alphabet. -/
def emitAllowed (alphabet : Option IntervalSet) (c : Char) :
    Generating Rng Unit :=
  if alphabetAllows alphabet c then change (·.push c) else markInvalid

def drawPadChars (alphabet : Option IntervalSet) : Nat → Generating Rng Unit
  | 0 => pure ()
  | n + 1 => do
      let c ← drawAnyChar sampler alphabet
      change (·.push c)
      drawPadChars alphabet n

def drawPad (alphabet : Option IntervalSet) : Generating Rng Unit := do
  let n ← onSource (drawInt sampler 0 10)
  drawPadChars sampler alphabet n.toNat

/-- Go on as long as there is to be another repetition; `rounds` bounds their
number. -/
def repeatMany (body : Generating Rng Unit) :
    Nat → ManyState → Generating Rng Unit
  | 0, _ => Attempt.refuse (.assertion "repeatMany: out of rounds")
  | rounds + 1, state => do
      let (answer, state) ← onSource (state.more sampler)
      if answer then do
        body
        repeatMany body rounds state
      else pure ()

/-- The characters kept under a key, computed if there are none. -/
def cachedOr {Key : Type} [DecidableEq Key]
    (cache : RegexCaches → AList fun _ : Key => List Char)
    (add : RegexCaches → Key → List Char → RegexCaches) (key : Key)
    (compute : Except InternalError (List Char)) :
    Generating Rng (List Char) := do
  let gen ← readGeneration
  match (cache gen.caches).lookup key with
  | some chars => return chars
  | none => do
      let chars ← Attempt.ofExcept (orInternal compute)
      change fun gen => gen.withCaches (add gen.caches key chars)
      return chars

/-- The tables that characters are looked up in, and the chance of another
repetition. -/
structure RegexTables where
  tables : CaseTables
  data : UnicodeData
  lengthPContinue : Nat → Option Nat → Binary64

variable (t : RegexTables) (alphabet : Option IntervalSet) (rounds : Nat)

/-- The characters of a set that a node at a path emits. -/
def inSetChars (path : List Nat) (items : List SetItem) (flags : Nat) :
    Generating Rng (List Char) :=
  match alphabet with
  | none => cachedOr RegexCaches.defaultInSet RegexCaches.addDefaultInSet
      (items, flags &&& (sreFlagIgnorecase ||| sreFlagAscii))
      (buildInSet t.tables t.data items flags none)
  | some intervals => cachedOr RegexCaches.inCache RegexCaches.addInSet
      (path, items.length, flags)
      (buildInSet t.tables t.data items flags (some intervals))

def notLiteralCharsOf (cp : Nat) (c : Char) (flags : Nat) :
    Generating Rng (List Char) :=
  match alphabet with
  | none =>
      cachedOr RegexCaches.defaultNotLiteral RegexCaches.addDefaultNotLiteral
        (c.toNat, flags &&& sreFlagIgnorecase)
        (.ok (notLiteralChars t.tables c flags none))
  | some intervals => cachedOr RegexCaches.charCache RegexCaches.addChars
      (cp, flags &&& sreFlagIgnorecase)
      (.ok (notLiteralChars t.tables c flags (some intervals)))

def anyCharsOf (flags : Nat) : Generating Rng (List Char) :=
  match alphabet with
  | none => pure (anyChars flags none)
  | some intervals => cachedOr RegexCaches.charCache RegexCaches.addChars
      (2 ^ 32 - 1, flags &&& sreFlagDotall)
      (.ok (anyChars flags (some intervals)))

/-- A letter, or its swapped case when case is ignored. -/
def generateLiteral (c : Char) (flags : Nat) : Generating Rng Unit :=
  match if hasFlag flags sreFlagIgnorecase then charSwapcase t.tables c
    else none with
  | some sw => do
      let which ← onSource (drawInt sampler 0 1)
      emitAllowed alphabet (if which = 0 then c else sw)
  | none => emitAllowed alphabet c

def generatePosition (code : AtCode) : Generating Rng Unit := do
  let gen ← readGeneration
  match code with
  | .beginningString => if gen.out.isEmpty then pure () else markInvalid
  | .beginning =>
      if gen.out.isEmpty ∨ hasFlag gen.state.flags sreFlagMultiline ∧
        gen.out.getLast? = some '\n' then pure ()
      else markInvalid
  | _ => change (·.pendAnchor code)

mutual

def OpCode.generate (path : List Nat) (op : OpCode) : Generating Rng Unit :=
  match op with
  | .literal cp => do
      let c ← Attempt.ofExcept (orInternal (codepointToChar cp))
      let gen ← readGeneration
      generateLiteral sampler t alphabet c gen.state.flags
  | .notLiteral cp => do
      let c ← Attempt.ofExcept (orInternal (codepointToChar cp))
      let gen ← readGeneration
      let chars ← notLiteralCharsOf t alphabet cp c gen.state.flags
      emitFromChars sampler chars
  | .any => do
      let gen ← readGeneration
      let chars ← anyCharsOf alphabet gen.state.flags
      emitFromChars sampler chars
  | .position code => generatePosition code
  | .inSet items => do
      let gen ← readGeneration
      let chars ← inSetChars t alphabet path items gen.state.flags
      emitFromChars sampler chars
  | .branch items => do
      let idx ← onSource (drawInt sampler 0 (items.length - 1))
      generateBranch path idx.toNat 0 items
  | .subpattern group addFlags delFlags p => do
      let before ← readGeneration
      change (·.withFlags (scopedFlags before.state.flags addFlags delFlags))
      generateSeq path 0 p
      change (·.withFlags before.state.flags)
      match group with
      | some gid => change (·.capture gid before.out.length)
      | none => pure ()
  | .groupRef gid => do
      let gen ← readGeneration
      match gen.state.groups.lookup gid with
      | some val => change (·.pushStr val)
      | none => markInvalid
  | .groupRefExists condGroup yes no => do
      let gen ← readGeneration
      if condGroup ∈ gen.state.groups then generateSeq (0 :: path) 0 yes
      else
        match no with
        | some no => generateSeq (1 :: path) 0 no
        | none => pure ()
  | .assert direction p => do
      let gen ← readGeneration
      if gen.state.fullmatch then change (·.pendAssert direction p)
      else generateSeq path 0 p
  | .assertNot direction p => do
      let gen ← readGeneration
      if direction < 0 then
        if (List.range (gen.out.length + 1)).any fun start =>
            matchSeq ⟨t.tables, t.data, gen.out⟩ p start gen.state.flags
              gen.state.groups = some gen.out.length then markInvalid
        else pure ()
      else change (·.pendLookahead direction p)
  | .failure => markInvalid
  | .atomicGroup p => do
      change (·.demandWholeMatch)
      generateSeq path 0 p
  | .repeated kind min max item => do
      change fun gen =>
        if kind = .possessive then gen.demandWholeMatch else gen
      repeatMany sampler (generateSeq path 0 item) rounds
        (.new min (repeatLimit max) (t.lengthPContinue min (repeatLimit max)))

def generateSeq (path : List Nat) (i : Nat) (ops : List OpCode) :
    Generating Rng Unit :=
  match ops with
  | [] => pure ()
  | op :: rest => do
      op.generate (i :: path)
      generateSeq path (i + 1) rest

/-- Generate one of several alternatives. -/
def generateBranch (path : List Nat) (idx i : Nat)
    (items : List (List OpCode)) : Generating Rng Unit :=
  match items with
  | [] => Attempt.refuse .outOfRange
  | p :: rest =>
      if i = idx then generateSeq (i :: path) 0 p
      else generateBranch path idx (i + 1) rest

end

mutual

/-- The first operation, also within groups that it starts with. -/
def OpCode.effectiveFirst : OpCode → Option OpCode
  | .subpattern _ _ _ p => effectiveFirst p
  | .atomicGroup p => effectiveFirst p
  | op => some op

def effectiveFirst : List OpCode → Option OpCode
  | [] => none
  | op :: _ => op.effectiveFirst

end

mutual

/-- The last operation, also within groups that it ends with. -/
def OpCode.effectiveLast : OpCode → Option OpCode
  | .subpattern _ _ _ p => effectiveLast p
  | .atomicGroup p => effectiveLast p
  | op => some op

def effectiveLast : List OpCode → Option OpCode
  | [] => none
  | [op] => op.effectiveLast
  | _ :: rest => effectiveLast rest

end

variable (parsed : ParsedPattern) (fullmatch : Bool)

/-- What comes before the pattern, unless it is anchored there. -/
def drawPrefix : Generating Rng Unit :=
  match effectiveFirst parsed.pattern with
  | some (.position .beginningString) => pure ()
  | some (.position .beginning) =>
      if hasFlag parsed.flags sreFlagMultiline ∧
          alphabetAllows alphabet '\n' = true then do
        drawPad sampler alphabet
        change fun gen => if gen.out.isEmpty then gen else gen.push '\n'
      else pure ()
  | _ => drawPad sampler alphabet

/-- A line break that ends the pattern's line, and what may follow it. -/
def drawLineEnd : Generating Rng Unit := do
  let more ← onSource (drawWeighted sampler (.ofRatio 1 2) none)
  if more then do
    change (·.push '\n')
    if hasFlag parsed.flags sreFlagMultiline then drawPad sampler alphabet
    else pure ()
  else pure ()

/-- What comes after the pattern, unless it is anchored there. -/
def drawSuffix : Generating Rng Unit :=
  match effectiveLast parsed.pattern with
  | some (.position .endString) => pure ()
  | some (.position .atEnd) =>
      if alphabetAllows alphabet '\n' then drawLineEnd sampler alphabet parsed
      else pure ()
  | _ => drawPad sampler alphabet

/-- Whether an assertion finds its pattern, in its direction. -/
def PendingAssertNot.holds (text : Subject) (pending : PendingAssertNot) :
    Bool :=
  if pending.direction ≥ 0 then
    (matchSeq text pending.pattern pending.charPos pending.flags
      pending.groups).isSome
  else
    (List.range (pending.charPos + 1)).any fun start =>
      matchSeq text pending.pattern start pending.flags pending.groups =
        some pending.charPos

namespace GenState

def needsFinalChecks (state : GenState) : Bool :=
  !state.pendingAnchors.isEmpty || !state.pendingAsserts.isEmpty ||
    !state.pendingLookaheads.isEmpty || state.needsWholeMatch

/-- Whether the final text passes all checks that were put off. -/
def passes (state : GenState) (text : Subject) : Bool :=
  (state.pendingAnchors.all fun anchor =>
    atMatches text anchor.charPos anchor.flags anchor.code) &&
  (state.pendingAsserts.all fun pending => pending.holds text) &&
  (state.pendingLookaheads.all fun pending =>
    (matchSeq text pending.pattern pending.charPos pending.flags
      pending.groups).isNone) &&
  (!state.needsWholeMatch || wholeMatch text parsed fullmatch state.groups)

end GenState

/-- The text, if it passes its checks. -/
def checkedText : Generating Rng (Option (List Char)) := do
  let gen ← readGeneration
  if gen.state.needsFinalChecks &&
      !gen.state.passes parsed fullmatch ⟨t.tables, t.data, gen.out⟩ then
    return none
  else return some gen.out

def unanchored (pad : Generating Rng Unit) : Generating Rng Unit :=
  if fullmatch then pure () else pad

def generateText : Generating Rng (Option (List Char)) :=
  if parsed.pattern.isEmpty then do
    unanchored fullmatch (drawPad sampler alphabet)
    let gen ← readGeneration
    return some gen.out
  else do
    unanchored fullmatch (drawPrefix sampler alphabet parsed)
    generateSeq sampler t alphabet rounds [] 0 parsed.pattern
    unanchored fullmatch (drawSuffix sampler alphabet parsed)
    checkedText t parsed fullmatch

/-- One attempt; only the caches are kept. -/
def generateRegexAttempt :
    Attempt (RegexCaches × Source Rng) MachineError (Option (List Char)) :=
  fun (caches, source) =>
    let (result, gen, source) :=
      generateText sampler t alphabet rounds parsed fullmatch
        (⟨.new parsed.flags fullmatch, caches, []⟩, source)
    (result, gen.caches, source)

def maxAttempts : Nat := 5

def generateAttempts :
    Nat → Attempt (RegexCaches × Source Rng) MachineError (List Char)
  | 0 => markInvalid
  | attempts + 1 => do
      let s ← generateRegexAttempt sampler t alphabet rounds parsed fullmatch
      match s with
      | some s => return s
      | none => generateAttempts attempts

/-- Draw a text that matches a pattern, as a whole or in a part of it. -/
def generateRegex :
    Attempt (RegexCaches × Source Rng) MachineError (List Char) :=
  generateAttempts sampler t alphabet rounds parsed fullmatch maxAttempts

end Generating

end Hegel
