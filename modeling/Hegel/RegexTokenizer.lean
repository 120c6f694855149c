/-
Tokens of patterns.  A backslash and the character after it are one token.
Positions that are subtracted and places that are looked up are checked, so
that a parse which would panic is told from one that is refused.
-/
import Hegel.Lib.Attempt
import Hegel.RegexSyntax
import Mathlib.Data.List.AList

namespace Hegel

structure ParseError where
  msg : String
  pos : Nat

/-- Why a parse ends without a result.  Only the first reason is an error that
a caller sees; the last one is that a loop or a recursion was cut off. -/
inductive ParseFault where
  | refused (error : ParseError)
  | internal
  | panicked
  | exhausted

/-- One character, or a backslash with a character. -/
abbrev PatternToken : Type := List Char

structure Tokenizer where
  chars : List Char
  index : Nat
  next : Option PatternToken

structure RegexState where
  flags : Nat
  groupdict : AList fun _ : List Char => Nat
  groupwidths : List (Option (Nat × Nat))
  lookbehindgroups : Option Nat
  grouprefpos : AList fun _ : Nat => Nat

/-- What a parser has of its pattern and of the groups in it. -/
structure RegexParser where
  source : Tokenizer
  state : RegexState

abbrev Parsing (Value : Type) : Type := Attempt RegexParser ParseFault Value

/-- Which characters names are made of. -/
structure NameClasses where
  isAlphabetic : Char → Bool
  isAlphanumeric : Char → Bool

def escapeMark : Char := .ofNat 92

def digits : List Char := "0123456789".toList

def octdigits : List Char := "01234567".toList

def hexdigits : List Char := "0123456789abcdefABCDEF".toList

def asciiletters : List Char :=
  "abcdefghijklmnopqrstuvwxyzABCDEFGHIJKLMNOPQRSTUVWXYZ".toList

def whitespace : List Char :=
  [' ', .ofNat 9, .ofNat 10, .ofNat 13, .ofNat 11, .ofNat 12]

def specialChars : List Char :=
  ['.', escapeMark, '[', .ofNat 123, '(', ')', '*', '+', '?', '^', '$', '|']

def repeatChars : List Char := ['*', '+', '?', .ofNat 123]

namespace RegexState

def new (flags : Nat) : RegexState where
  flags := flags
  groupdict := ∅
  groupwidths := [none]
  lookbehindgroups := none
  grouprefpos := ∅

variable (state : RegexState)

def groups : Nat :=
  state.groupwidths.length

def closegroup (gid : Nat) : RegexState :=
  { state with groupwidths := state.groupwidths.set gid (some (0, 0)) }

/-- Whether a group has been closed. -/
def checkgroup (gid : Nat) : Bool :=
  match state.groupwidths[gid]? with
  | some (some _) => true
  | _ => false

end RegexState

/-- Read the token at the index. -/
def Tokenizer.advanced (t : Tokenizer) : Except ParseError Tokenizer :=
  match t.chars[t.index]? with
  | none => .ok { t with next := none }
  | some ch =>
      if ch = escapeMark then
        match t.chars[t.index + 1]? with
        | none => .error ⟨"bad escape (end of pattern)", t.chars.length - 1⟩
        | some nx =>
            .ok { t with next := some [ch, nx], index := t.index + 1 + 1 }
      else .ok { t with next := some [ch], index := t.index + 1 }

def Tokenizer.new (pattern : List Char) : Except ParseError Tokenizer :=
  Tokenizer.advanced ⟨pattern, 0, none⟩

namespace Parsing

def fault {Value : Type} (reason : ParseFault) : Parsing Value :=
  Attempt.refuse reason

/-- A value that must be there. -/
def unwrap {Value : Type} : Option Value → Parsing Value
  | some value => pure value
  | none => fault .panicked

def checkedSub (x y : Nat) : Parsing Nat :=
  if y ≤ x then pure (x - y) else fault .panicked

def getState : Parsing RegexState :=
  fun p => (.ok p.state, p)

def modifyState (f : RegexState → RegexState) : Parsing Unit :=
  fun p => (.ok (), { p with state := f p.state })

/-- The token that comes next. -/
def nextToken : Parsing (Option PatternToken) :=
  fun p => (.ok p.source.next, p)

/-- Go on with another tokenizer, unless there is none. -/
def become (source : Except ParseError Tokenizer) : Parsing Unit :=
  fun p =>
    match source with
    | .ok source => (.ok (), { p with source := source })
    | .error error => (.error (.refused error), p)

def advance : Parsing Unit :=
  fun p => become p.source.advanced p

def seek (index : Nat) : Parsing Unit :=
  fun p => become (Tokenizer.advanced { p.source with index := index }) p

/-- Where the next token starts. -/
def tell : Parsing Nat :=
  fun p => checkedSub p.source.index (p.source.next.getD []).length p

/-- Refuse the pattern, at an offset before the next token. -/
def error {Value : Type} (msg : String) (offset : Nat) : Parsing Value := do
  let here ← tell
  fault (.refused ⟨msg, here - offset⟩)

/-- How far the next token is from a place. -/
def since (here : Nat) : Parsing Nat := do
  let now ← tell
  pure (now - here)

def peekNextChar : Parsing (Option Char) := do
  let next ← nextToken
  pure (next.bind List.head?)

def takeMatch (ch : Char) : Parsing Bool := do
  let next ← nextToken
  if next = some [ch] then do
    advance
    pure true
  else pure false

def get : Parsing (Option PatternToken) := do
  let this ← nextToken
  advance
  pure this

/-- At most so many characters of a set. -/
def getwhile (charset : List Char) : Nat → Parsing (List Char)
  | 0 => pure []
  | n + 1 => do
      let next ← nextToken
      match next with
      | some [c] =>
          if c ∈ charset then do
            advance
            let rest ← getwhile charset n
            pure (c :: rest)
          else pure []
      | _ => pure []

/-- The text before a terminator, with what was read of it so far. -/
def getuntilFrom (terminator : Char) (name : String) :
    Nat → List Char → Parsing (List Char)
  | 0, _ => fault .exhausted
  | rounds + 1, result => do
      let c ← get
      match c with
      | none =>
          if result.isEmpty then error ("missing " ++ name) 0
          else error ("missing " ++ String.singleton terminator ++
            ", unterminated name") result.length
      | some s =>
          if s = [terminator] then
            if result.isEmpty then error ("missing " ++ name) 1
            else pure result
          else getuntilFrom terminator name rounds (result ++ s)

end Parsing

section Names

variable (names : NameClasses)

def isIdStart (c : Char) : Bool :=
  c == '_' || names.isAlphabetic c

def isIdContinue (c : Char) : Bool :=
  c == '_' || names.isAlphanumeric c

def isPythonIdentifier : List Char → Bool
  | [] => false
  | first :: rest => isIdStart names first && rest.all (isIdContinue names)

def checkgroupname (name : List Char) (offset : Nat) : Parsing Unit :=
  if isPythonIdentifier names name then pure ()
  else Parsing.error
    ("bad character in group name '" ++ String.ofList name ++ "'")
    (name.length + offset)

end Names

open Parsing

/-- Open the next group, under a name if it has one. -/
def opengroup (name : Option (List Char)) : Parsing Nat := do
  let state ← getState
  let gid := state.groups
  modifyState fun state =>
    { state with groupwidths := state.groupwidths ++ [none] }
  if gid + 1 > maxGroups then fault (.refused ⟨"too many groups", 0⟩)
  else
    match name with
    | none => pure gid
    | some n =>
        match state.groupdict.lookup n with
        | some ogid => fault (.refused ⟨"redefinition of group name '" ++
            String.ofList n ++ "' as group " ++ toString gid ++
            "; was group " ++ toString ogid, 0⟩)
        | none => do
            modifyState fun state =>
              { state with groupdict := state.groupdict.insert n gid }
            pure gid

def checklookbehindgroup (gid : Nat) : Parsing Unit := do
  let state ← getState
  match state.lookbehindgroups with
  | none => pure ()
  | some lb =>
      if !state.checkgroup gid then
        Parsing.error "cannot refer to an open group" 0
      else if gid ≥ lb then
        Parsing.error
          "cannot refer to group defined in the same lookbehind subpattern" 0
      else pure ()

/-- The letter of an escape with the number it stands for. -/
def escapeLiterals : List (Char × Nat) :=
  [('a', 7), ('b', 8), ('f', 12), ('n', 10), ('r', 13), ('t', 9), ('v', 11),
    (escapeMark, 92)]

def lookupEscapeLiteral : PatternToken → Option Nat
  | [mark, c] => if mark = escapeMark then escapeLiterals.lookup c else none
  | _ => none

inductive CategoryCode where
  | position (code : AtCode)
  | inSet (code : ChCode)

def categories : List (Char × CategoryCode) :=
  [('A', .position .beginningString), ('b', .position .boundary),
    ('B', .position .nonBoundary), ('d', .inSet .digit),
    ('D', .inSet .notDigit), ('s', .inSet .space), ('S', .inSet .notSpace),
    ('w', .inSet .word), ('W', .inSet .notWord), ('Z', .position .endString)]

def lookupCategory : PatternToken → Option CategoryCode
  | [mark, c] => if mark = escapeMark then categories.lookup c else none
  | _ => none

def flagForChar : Char → Option Nat
  | 'i' => some sreFlagIgnorecase
  | 'L' => some sreFlagLocale
  | 'm' => some sreFlagMultiline
  | 's' => some sreFlagDotall
  | 'x' => some sreFlagVerbose
  | 'a' => some sreFlagAscii
  | 'u' => some sreFlagUnicode
  | _ => none

/-- The value of a digit. -/
def digitValue (c : Char) : Option Nat :=
  if '0' ≤ c ∧ c ≤ '9' then some (c.toNat - '0'.toNat)
  else if 'a' ≤ c ∧ c ≤ 'z' then some (c.toNat - 'a'.toNat + 10)
  else if 'A' ≤ c ∧ c ≤ 'Z' then some (c.toNat - 'A'.toNat + 10)
  else none

/-- The number that digits spell after others. -/
def digitsValue (radix : Nat) : Nat → List Char → Option Nat
  | value, [] => some value
  | value, c :: rest =>
      match digitValue c with
      | some d =>
          if d < radix then digitsValue radix (value * radix + d) rest
          else none
      | none => none

/-- The number below a bound that a text spells.  A leading plus is not read
here, as no caller has one. -/
def fromStrRadix (radix bound : Nat) (text : List Char) : Option Nat :=
  if text.isEmpty then none
  else (digitsValue radix 0 text).filter fun value => decide (value < bound)

def parseEscapeValue (escape text : List Char) (radix : Nat) : Parsing Nat :=
  match fromStrRadix radix (2 ^ 32) text with
  | some value => pure value
  | none =>
      Parsing.error ("bad escape " ++ String.ofList escape) escape.length

/-- An escape with so many hexadecimal digits, and its value. -/
def hexEscape (escape : PatternToken) (count : Nat) :
    Parsing (List Char × Nat) := do
  let more ← getwhile hexdigits count
  let escape := escape ++ more
  if escape.length ≠ count + 2 then
    Parsing.error ("incomplete escape " ++ String.ofList escape) escape.length
  else do
    let n ← parseEscapeValue escape (escape.drop 2) 16
    pure (escape, n)

/-- Such an escape, refused when it is not the number of a character. -/
def scalarEscape (escape : PatternToken) (count : Nat)
    (msg : List Char → String) : Parsing Nat := do
  let (escape, n) ← hexEscape escape count
  if (charFromU32 n).isNone then Parsing.error (msg escape) escape.length
  else pure n

def surrogateMsg (escape : List Char) : String :=
  "surrogate codepoint " ++ String.ofList escape ++
    " cannot appear in a string"

def badEscapeMsg (escape : List Char) : String :=
  "bad escape " ++ String.ofList escape

def namedEscapeMsg : String :=
  "\x5cN\x7b...\x7d named unicode escapes not yet supported in native " ++
    "regex parser"

/-- The value of an escape that is made of octal digits. -/
def octalEscape (escape : List Char) : Parsing Nat := do
  let n ← parseEscapeValue escape (escape.drop 1) 8
  if n > 255 then
    Parsing.error ("octal escape value " ++ String.ofList escape ++
      " outside of range 0-0o377") escape.length
  else pure n

/-- What an escape stands for within a set. -/
inductive ClassEscape where
  | literal (cp : Nat)
  | category (code : ChCode)

def classEscape (escape : PatternToken) : Parsing ClassEscape :=
  match lookupEscapeLiteral escape, lookupCategory escape with
  | some cp, _ => pure (.literal cp)
  | none, some (.inSet cat) => pure (.category cat)
  | none, _ =>
      match escape[1]? with
      | none => Parsing.error "bad escape (end of pattern)" 0
      | some c =>
          if c = 'x' then do
            let (_, n) ← hexEscape escape 2
            pure (.literal n)
          else if c = 'u' then do
            let n ← scalarEscape escape 4 surrogateMsg
            pure (.literal n)
          else if c = 'U' then do
            let n ← scalarEscape escape 8 badEscapeMsg
            pure (.literal n)
          else if c = 'N' then Parsing.error namedEscapeMsg 0
          else if c ∈ octdigits then do
            let more ← getwhile octdigits 2
            let n ← octalEscape (escape ++ more)
            pure (.literal n)
          else if c ∈ digits then
            Parsing.error (badEscapeMsg escape) escape.length
          else if c ∈ asciiletters then
            Parsing.error (badEscapeMsg escape) escape.length
          else pure (.literal c.toNat)

/-- A reference to a closed group by its number. -/
def groupReference (escape : List Char) : Parsing OpCode := do
  let group ← parseEscapeValue escape (escape.drop 1) 10
  let state ← getState
  if group < state.groups then
    if !state.checkgroup group then
      Parsing.error "cannot refer to an open group" escape.length
    else do
      checklookbehindgroup group
      pure (.groupRef group)
  else do
    let offset ← checkedSub escape.length 1
    Parsing.error ("invalid group reference " ++ toString group) offset

/-- Whether the first two digits of an escape are octal. -/
def startsOctal (escape : List Char) : Parsing Bool := do
  let first ← unwrap escape[1]?
  if first ∈ octdigits then do
    let second ← unwrap escape[2]?
    pure (decide (second ∈ octdigits))
  else pure false

/-- An escape of two digits; with a third one it is octal. -/
def secondDigit (escape : PatternToken) : Parsing OpCode := do
  let more ← get
  let more ← unwrap more
  let escape := escape ++ more
  let octal ← startsOctal escape
  let third ← peekNextChar
  if octal && third.any fun c => decide (c ∈ octdigits) then do
    let more ← get
    let more ← unwrap more
    let n ← octalEscape (escape ++ more)
    pure (.literal n)
  else groupReference escape

def numericEscape (escape : PatternToken) : Parsing OpCode := do
  let nxt ← peekNextChar
  if nxt.any fun c => decide (c ∈ digits) then secondDigit escape
  else groupReference escape

/-- The operation that an escape stands for outside of sets. -/
def escapeCode (escape : PatternToken) : Parsing OpCode :=
  match lookupCategory escape, lookupEscapeLiteral escape with
  | some (.position code), _ => pure (.position code)
  | some (.inSet cat), _ => pure (.inSet [.category cat])
  | none, some cp => pure (.literal cp)
  | none, none =>
      match escape[1]? with
      | none => Parsing.error "bad escape (end of pattern)" 0
      | some c =>
          if c = 'x' then do
            let (_, n) ← hexEscape escape 2
            pure (.literal n)
          else if c = 'u' then do
            let n ← scalarEscape escape 4 surrogateMsg
            pure (.literal n)
          else if c = 'U' then do
            let n ← scalarEscape escape 8 badEscapeMsg
            pure (.literal n)
          else if c = 'N' then Parsing.error namedEscapeMsg 0
          else if c = '0' then do
            let more ← getwhile octdigits 2
            let escape := escape ++ more
            let n ← parseEscapeValue escape (escape.drop 1) 8
            pure (.literal n)
          else if c ∈ digits then numericEscape escape
          else if c ∈ asciiletters then
            Parsing.error (badEscapeMsg escape) escape.length
          else pure (.literal c.toNat)

end Hegel
