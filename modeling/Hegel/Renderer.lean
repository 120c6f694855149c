/-
Laying out a printed document.  Text is written as it comes while nothing waits
in the buffer; a breakable waits there, with everything after it, until its
group has to break for the line to fit or until a newline is written.
-/
import Mathlib.Data.List.Basic

namespace Hegel

abbrev Text := List Char

inductive PrinterError where
  | deadSlot
  | unbalancedGroup
  | noSpeculation
  | unresolvedDeferred
  | nothingToResolve
deriving DecidableEq

/-- A printing command; a splice stands for the content of a slot. -/
inductive Cmd where
  | text (s : Text)
  | breakable (sep : Text)
  | ifBreak (s : Text)
  | hardBreak
  | beginGroup (indent : Nat) (opening : Text)
  | endGroup (close : Text)
  | shiftIndent (delta : Int)
  | comment (s : Text)
  | splice (slot : Nat)
deriving DecidableEq

inductive Token where
  | text (content : Text) (width : Nat)
  | breakable (sep : Text) (width : Nat) (indent : Int) (group : Nat)
  | ifBreak (content : Text) (group : Nat)
  | comment (content : Text)
deriving DecidableEq

def Token.width : Token → Nat
  | text _ width => width
  | breakable _ width _ _ => width
  | ifBreak _ _ => 0
  | comment _ => 0

structure Group where
  depth : Nat
  indent : Nat
  pending : Nat
  wantBreak : Bool
  comment : Bool
deriving DecidableEq

def Group.root : Group :=
  ⟨0, 0, 0, false, false⟩

structure Slot where
  commands : List Cmd
  speculation : List (List Cmd)
  dead : Bool
deriving DecidableEq

def spaces (n : Int) : Text :=
  List.replicate n.toNat ' '

/-- A piece of the output.  What a breakable became is kept with the group it
belongs to. -/
inductive Piece where
  | text (content : Text)
  | newline (owner : Option Nat) (indent : Int)
  | separator (owner : Nat) (sep : Text)
deriving DecidableEq

def Piece.render : Piece → Text
  | text content => content
  | newline _ indent => '\n' :: spaces indent
  | separator _ sep => sep

/-- The characters that trimming removes: those of the Unicode property
`White_Space`. -/
def isWhitespace (c : Char) : Bool :=
  let n := c.toNat
  (9 ≤ n && n ≤ 13) || n == 32 || n == 0x85 || n == 0xA0 || n == 0x1680 ||
    (0x2000 ≤ n && n ≤ 0x200A) || n == 0x2028 || n == 0x2029 || n == 0x202F ||
    n == 0x205F || n == 0x3000

def trimStart (s : Text) : Text :=
  s.dropWhile isWhitespace

/-- The groups that are forced to break, and the stack of open ones. -/
abbrev CommentMarks := List Bool × List Nat

def markCommentGroup (splice : List Cmd → CommentMarks → CommentMarks)
    (slots : List Slot) (marks : CommentMarks) : Cmd → CommentMarks
  | .beginGroup _ _ => (marks.1 ++ [false], marks.1.length :: marks.2)
  | .endGroup _ => (marks.1, marks.2.tail)
  | .comment _ =>
      (marks.2.foldl (fun force id => force.set id true) marks.1, marks.2)
  | .splice id => splice ((slots[id]?.map Slot.commands).getD []) marks
  | _ => marks

/-- Every group with a comment in it is marked.  The number bounds how deep
slots are nested. -/
def markCommentGroups (slots : List Slot) :
    Nat → List Cmd → CommentMarks → CommentMarks
  | 0, cmds, marks => cmds.foldl (markCommentGroup (fun _ => id) slots) marks
  | nesting + 1, cmds, marks =>
      cmds.foldl (markCommentGroup (markCommentGroups slots nesting) slots) marks

/-- Stacks and buffers start with what is taken from them first: the innermost
group, the oldest token. -/
structure Renderer where
  maxWidth : Nat
  forceBreak : List Bool
  out : List Piece
  outputWidth : Nat
  atLineStart : Bool
  buffer : List Token
  bufferWidth : Nat
  pendingComments : Text
  indentation : Int
  groups : List Group
  groupStack : List Nat
  groupQueue : List (List Nat)
deriving DecidableEq

namespace Renderer

def new (maxWidth : Nat) (forceBreak : List Bool) : Renderer where
  maxWidth
  forceBreak
  out := []
  outputWidth := 0
  atLineStart := true
  buffer := []
  bufferWidth := 0
  pendingComments := []
  indentation := 0
  groups := [.root]
  groupStack := [0]
  groupQueue := [[0]]

def group (r : Renderer) (id : Nat) : Group :=
  r.groups.getD id .root

/-- The innermost open group; the outermost one is never closed. -/
def innermost (r : Renderer) : Nat :=
  r.groupStack.headD 0

def queueRemove (r : Renderer) (id : Nat) : Renderer :=
  { r with groupQueue :=
      r.groupQueue.modify (r.group id).depth fun level => level.erase id }

def emitPendingComments (r : Renderer) : Renderer :=
  { r with out := r.out ++ [.text r.pendingComments], pendingComments := [] }

/-- Write text to the current line. -/
def write (r : Renderer) (content : Text) (width : Nat) : Renderer :=
  { r with
    out := r.out ++ [.text content]
    outputWidth := r.outputWidth + width
    atLineStart := if width > 0 then false else r.atLineStart }

/-- Start a new line. -/
def startLine (r : Renderer) (owner : Option Nat) (indent : Int) : Renderer :=
  let r := r.emitPendingComments
  { r with
    out := r.out ++ [.newline owner indent]
    outputWidth := indent.toNat
    atLineStart := true }

/-- One breakable of the group is no longer waiting. -/
def countOut (r : Renderer) (id : Nat) : Renderer :=
  { r with groups :=
      r.groups.modify id fun group =>
        { group with pending := group.pending - 1 } }

def outputToken (r : Renderer) : Token → Renderer
  | .text content width => r.write content width
  | .ifBreak content id =>
      if (r.group id).wantBreak then r.write content content.length else r
  | .comment content =>
      { r with pendingComments := r.pendingComments ++ content }
  | .breakable sep width indent id =>
      let r := r.countOut id
      if (r.group id).wantBreak then r.startLine (some id) indent
      else
        let r := if (r.group id).pending = 0 then r.queueRemove id else r
        { r with
          out := r.out ++ [.separator id sep]
          outputWidth := r.outputWidth + width
          atLineStart := if width > 0 then false else r.atLineStart }

/-- Output the tokens of the buffer. -/
def flushTokens : List Token → Renderer → Renderer
  | [], r => r
  | token :: rest, r =>
      flushTokens rest ({ r with buffer := rest }.outputToken token)

def flush (r : Renderer) : Renderer :=
  { flushTokens r.buffer r with bufferWidth := 0 }

/-- Write a newline, for a breakable of a group or for none. -/
def newline (r : Renderer) (owner : Option Nat) : Renderer :=
  let r := r.flush
  r.startLine owner r.indentation

/-- Output tokens of the buffer as long as a condition holds. -/
def popWhile (condition : Renderer → Bool) : List Token → Renderer → Renderer
  | [], r => r
  | token :: rest, r =>
      if condition r then
        popWhile condition rest
          ({ r with
            buffer := rest
            bufferWidth := r.bufferWidth - token.width }.outputToken token)
      else r

/-- The levels of the queue after a group is taken out of it, the group, and
all groups that now break: those on the levels before, too. -/
def deqLevels (r : Renderer) :
    List (List Nat) → List (List Nat) × Option Nat × List Nat
  | [] => ([], none, [])
  | level :: rest =>
      match level.find? fun id => (r.group id).pending > 0 with
      | some id => (level.erase id :: rest, some id, [id])
      | none =>
          let (rest, found, broken) := deqLevels r rest
          ([] :: rest, found, level ++ broken)

def setWantBreak (r : Renderer) (id : Nat) : Renderer :=
  { r with groups :=
      r.groups.modify id fun group => { group with wantBreak := true } }

def deq (r : Renderer) : Renderer × Option Nat :=
  let (levels, found, broken) := r.deqLevels r.groupQueue
  (broken.foldl setWantBreak { r with groupQueue := levels }, found)

/-- The next token is no breakable. -/
def frontIsText (r : Renderer) : Bool :=
  match r.buffer with
  | [] => false
  | .breakable _ _ _ _ :: _ => false
  | _ :: _ => true

/-- Break groups, outermost first, until the line fits.  Every round takes a
group from the queue, so its size bounds the number of rounds. -/
def breakGroups : Nat → Renderer → Renderer
  | 0, r => r
  | rounds + 1, r =>
      if r.outputWidth + r.bufferWidth > r.maxWidth then
        match r.deq with
        | (r, none) => r
        | (r, some id) =>
            let r := popWhile (fun r => (r.group id).pending > 0) r.buffer r
            breakGroups rounds (popWhile frontIsText r.buffer r)
      else r

def breakOuterGroups (r : Renderer) : Renderer :=
  breakGroups r.groupQueue.flatten.length r

/-- Text that follows text is joined to it. -/
def pushText (s : Text) : List Token → List Token
  | [] => [.text s s.length]
  | [.text content width] => [.text (content ++ s) (width + s.length)]
  | token :: rest => token :: pushText s rest

def text (r : Renderer) (s : Text) : Renderer :=
  if r.buffer.isEmpty then r.write s s.length
  else
    { r with
      buffer := pushText s r.buffer
      bufferWidth := r.bufferWidth + s.length }.breakOuterGroups

def breakable (r : Renderer) (sep : Text) : Renderer :=
  let id := r.innermost
  if (r.group id).wantBreak then r.newline (some id)
  else
    { r with
      buffer := r.buffer ++
        [Token.breakable sep sep.length r.indentation id]
      bufferWidth := r.bufferWidth + sep.length
      groups := r.groups.modify id fun group =>
        { group with pending := group.pending + 1 } }.breakOuterGroups

def ifBreak (r : Renderer) (s : Text) : Renderer :=
  let id := r.innermost
  if (r.group id).wantBreak then r.text s
  else { r with buffer := r.buffer ++ [.ifBreak s id] }

def comment (r : Renderer) (s : Text) : Renderer :=
  if r.buffer.isEmpty then
    { r with pendingComments := r.pendingComments ++ s }
  else { r with buffer := r.buffer ++ [.comment s] }

/-- Put a group on the level of its depth. -/
def enqueue (id : Nat) : Nat → List (List Nat) → List (List Nat)
  | 0, [] => [[id]]
  | 0, level :: rest => (level ++ [id]) :: rest
  | depth + 1, [] => [] :: enqueue id depth []
  | depth + 1, level :: rest => level :: enqueue id depth rest

def beginGroup (r : Renderer) (indent : Nat) (opening : Text) : Renderer :=
  let r := if opening.isEmpty then r else r.text opening
  let depth := (r.group r.innermost).depth + 1
  let id := r.groups.length
  let comment := r.forceBreak.getD id false
  { r with
    groups := r.groups ++ [⟨depth, indent, 0, comment, comment⟩]
    groupStack := id :: r.groupStack
    groupQueue := enqueue id depth r.groupQueue
    indentation := r.indentation + indent }

def endGroup (r : Renderer) (close : Text) : Except PrinterError Renderer :=
  match r.groupStack with
  | id :: parent :: rest =>
      let group := r.group id
      let r := { r with
        groupStack := parent :: rest
        indentation := r.indentation - group.indent }
      let r :=
        if group.comment && !(r.buffer.isEmpty && r.atLineStart) then
          r.newline none
        else r
      let close := if group.comment then trimStart close else close
      let r := if (r.group id).pending = 0 then r.queueRemove id else r
      .ok (if close.isEmpty then r else r.text close)
  | _ => .error .unbalancedGroup

def execute (splice : List Cmd → Renderer → Except PrinterError Renderer)
    (slots : List Slot) (r : Renderer) : Cmd → Except PrinterError Renderer
  | .text s => .ok (r.text s)
  | .breakable sep => .ok (r.breakable sep)
  | .ifBreak s => .ok (r.ifBreak s)
  | .hardBreak => .ok (r.newline none)
  | .beginGroup indent opening => .ok (r.beginGroup indent opening)
  | .endGroup close => r.endGroup close
  | .shiftIndent delta => .ok { r with indentation := r.indentation + delta }
  | .comment s => .ok (r.comment s)
  | .splice id => splice ((slots[id]?.map Slot.commands).getD []) r

/-- Execute commands.  The number bounds how deep slots are nested. -/
def run (slots : List Slot) :
    Nat → List Cmd → Renderer → Except PrinterError Renderer
  | 0, cmds, r => cmds.foldlM (execute (fun _ => .ok) slots) r
  | nesting + 1, cmds, r => cmds.foldlM (execute (run slots nesting) slots) r

def finish (r : Renderer) : List Piece :=
  r.flush.emitPendingComments.out

end Renderer

/-- Lay out a document with its slots spliced in.  A slot only holds splices of
later ones, so their number bounds how deep they are nested. -/
def layOut (maxWidth : Nat) (slots : List Slot) (main : List Cmd) :
    Except PrinterError (List Piece) :=
  let force := (markCommentGroups slots slots.length main ([false], [])).1
  (Renderer.run slots slots.length main (.new maxWidth force)).map
    Renderer.finish

end Hegel
