/-
The transcript of a layout: what every part of the output comes from, what
became of every breakable and of every text that is only for broken groups, and
when a group was set to break.  It is kept next to the renderer, which does not
read it.
-/
import Hegel.LayoutGroups

namespace Hegel

/-- A part of the output, or a decision that has none. -/
inductive LayoutEvent where
  | text (s : Text)
  | ifBreak (owner : Nat) (s : Text) (shown : Bool)
  | comment (s : Text)
  | broken (owner : Nat) (sep : Text) (indent : Int)
  | flat (owner : Nat) (sep : Text)
  | newline (indent : Int)
  | decided (owner : Nat)
deriving DecidableEq

def LayoutEvent.render : LayoutEvent → Text
  | text s => s
  | ifBreak _ s shown => if shown then s else []
  | comment s => s
  | broken _ _ indent => '\n' :: spaces indent
  | flat _ sep => sep
  | newline indent => '\n' :: spaces indent
  | decided _ => []

/-- What became of a breakable: whether it is a newline. -/
def LayoutEvent.break : LayoutEvent → Option (Nat × Bool)
  | broken id _ _ => some (id, true)
  | flat id _ => some (id, false)
  | _ => none

/-- A renderer with the transcript of its output.  The parts of text that waits
are kept for every token, the comments that wait one by one. -/
structure Transcriber where
  renderer : Renderer
  parts : List (List LayoutEvent)
  comments : List Text
  events : List LayoutEvent

namespace Transcriber

open Renderer (frontIsText enqueue)

def new (maxWidth : Nat) (forceBreak : List Bool) : Transcriber :=
  ⟨.new maxWidth forceBreak, [], [], []⟩

/-- What a token becomes when it is output. -/
def tokenEvents (t : Transcriber) : Token → List LayoutEvent
  | .text _ _ => t.parts.headD []
  | .ifBreak content id =>
      [.ifBreak id content (t.renderer.group id).wantBreak]
  | .comment _ => []
  | .breakable sep _ indent id =>
      if (t.renderer.group id).wantBreak then
        t.comments.map LayoutEvent.comment ++ [.broken id sep indent]
      else [.flat id sep]

/-- The comments that wait after a token is output. -/
def tokenComments (t : Transcriber) : Token → List Text
  | .comment content => t.comments ++ [content]
  | .breakable _ _ _ id =>
      if (t.renderer.group id).wantBreak then [] else t.comments
  | _ => t.comments

def pop (t : Transcriber) (token : Token) (rest : List Token) (width : Nat) :
    Transcriber where
  renderer := t.renderer.pop token rest width
  parts := t.parts.tail
  comments := t.tokenComments token
  events := t.events ++ t.tokenEvents token

def flushTokens : List Token → Transcriber → Transcriber
  | [], t => t
  | token :: rest, t =>
      flushTokens rest (t.pop token rest t.renderer.bufferWidth)

def flush (t : Transcriber) : Transcriber :=
  let t := flushTokens t.renderer.buffer t
  { t with renderer := { t.renderer with bufferWidth := 0 } }

/-- A newline, for a breakable of a group or for none. -/
def newline (t : Transcriber) (owner : Option (Nat × Text)) : Transcriber :=
  let t := t.flush
  let indent := t.renderer.indentation
  { renderer := t.renderer.startLine (owner.map Prod.fst) indent
    parts := t.parts
    comments := []
    events := t.events ++ t.comments.map LayoutEvent.comment ++
      [owner.elim (.newline indent) fun (id, sep) => .broken id sep indent] }

def popWhile (condition : Renderer → Bool) :
    List Token → Transcriber → Transcriber
  | [], t => t
  | token :: rest, t =>
      if condition t.renderer then
        popWhile condition rest
          (t.pop token rest (t.renderer.bufferWidth - token.width))
      else t

def deq (t : Transcriber) : Transcriber × Option Nat :=
  let broken := (t.renderer.deqLevels t.renderer.groupQueue).2.2
  ({ t with
      renderer := t.renderer.deq.1
      events := t.events ++ broken.map LayoutEvent.decided },
    t.renderer.deq.2)

def breakGroups : Nat → Transcriber → Transcriber
  | 0, t => t
  | rounds + 1, t =>
      if t.renderer.outputWidth + t.renderer.bufferWidth >
          t.renderer.maxWidth then
        match t.deq with
        | (t, none) => t
        | (t, some id) =>
            let t := popWhile (fun r => (r.group id).pending > 0)
              t.renderer.buffer t
            breakGroups rounds (popWhile frontIsText t.renderer.buffer t)
      else t

def breakOuterGroups (t : Transcriber) : Transcriber :=
  t.breakGroups t.renderer.groupQueue.flatten.length

/-- Text that follows text belongs to the same token. -/
def pushPart (event : LayoutEvent) :
    List Token → List (List LayoutEvent) → List (List LayoutEvent)
  | [], parts => parts ++ [[event]]
  | [.text _ _], part :: rest => (part ++ [event]) :: rest
  | _ :: tokens, part :: rest => part :: pushPart event tokens rest
  | _ :: _, [] => [[event]]

/-- Text of some origin. -/
def textFrom (t : Transcriber) (origin : Text → LayoutEvent) (s : Text) :
    Transcriber :=
  if t.renderer.buffer.isEmpty then
    { t with
      renderer := t.renderer.write s s.length
      events := t.events ++ [origin s] }
  else
    { t with
      renderer := { t.renderer with
        buffer := Renderer.pushText s t.renderer.buffer
        bufferWidth := t.renderer.bufferWidth + s.length }
      parts := pushPart (origin s) t.renderer.buffer t.parts }.breakOuterGroups

def text (t : Transcriber) (s : Text) : Transcriber :=
  t.textFrom .text s

def breakable (t : Transcriber) (sep : Text) : Transcriber :=
  let r := t.renderer
  let id := r.innermost
  if (r.group id).wantBreak then t.newline (some (id, sep))
  else
    { t with
      renderer := { r with
        buffer := r.buffer ++
          [Token.breakable sep sep.length r.indentation id]
        bufferWidth := r.bufferWidth + sep.length
        groups := r.groups.modify id fun group =>
          { group with pending := group.pending + 1 } }
      parts := t.parts ++ [[]] }.breakOuterGroups

def ifBreak (t : Transcriber) (s : Text) : Transcriber :=
  let r := t.renderer
  let id := r.innermost
  if (r.group id).wantBreak then t.textFrom (.ifBreak id · true) s
  else
    { t with
      renderer := { r with buffer := r.buffer ++ [.ifBreak s id] }
      parts := t.parts ++ [[]] }

def comment (t : Transcriber) (s : Text) : Transcriber :=
  if t.renderer.buffer.isEmpty then
    { t with
      renderer := t.renderer.comment s
      comments := t.comments ++ [s] }
  else
    { t with
      renderer := t.renderer.comment s
      parts := t.parts ++ [[]] }

/-- The group that the renderer adds after the opening text. -/
def enterGroup (r : Renderer) (indent : Nat) : Renderer :=
  let depth := (r.group r.innermost).depth + 1
  let id := r.groups.length
  let comment := r.forceBreak.getD id false
  { r with
    groups := r.groups ++ [⟨depth, indent, 0, comment, comment⟩]
    groupStack := id :: r.groupStack
    groupQueue := enqueue id depth r.groupQueue
    indentation := r.indentation + indent }

/-- The opening or closing text of a group. -/
def delimiter (t : Transcriber) (s : Text) : Transcriber :=
  if s.isEmpty then t else t.text s

def beginGroup (t : Transcriber) (indent : Nat) (opening : Text) :
    Transcriber :=
  let t := t.delimiter opening
  { t with renderer := enterGroup t.renderer indent }

/-- A group with a comment in it is closed on a line of its own. -/
def freshLine (t : Transcriber) (comment : Bool) : Transcriber :=
  if comment && !(t.renderer.buffer.isEmpty && t.renderer.atLineStart) then
    t.newline none
  else t

/-- A group of which nothing waits leaves the queue. -/
def leaveQueue (t : Transcriber) (id : Nat) : Transcriber :=
  if (t.renderer.group id).pending = 0 then
    { t with renderer := t.renderer.queueRemove id }
  else t

/-- The group is no longer open. -/
def leaveGroup (r : Renderer) (stack : List Nat) (indent : Nat) : Renderer :=
  { r with groupStack := stack, indentation := r.indentation - indent }

def endGroup (t : Transcriber) (close : Text) :
    Except PrinterError Transcriber :=
  match t.renderer.groupStack with
  | id :: parent :: rest =>
      let group := t.renderer.group id
      let r := leaveGroup t.renderer (parent :: rest) group.indent
      let t := { t with renderer := r }
      let t := (t.freshLine group.comment).leaveQueue id
      .ok (t.delimiter (if group.comment then trimStart close else close))
  | _ => .error .unbalancedGroup

/-- A document without slots. -/
def execute (t : Transcriber) : Cmd → Except PrinterError Transcriber
  | .text s => .ok (t.text s)
  | .breakable sep => .ok (t.breakable sep)
  | .ifBreak s => .ok (t.ifBreak s)
  | .hardBreak => .ok (t.newline none)
  | .beginGroup indent opening => .ok (t.beginGroup indent opening)
  | .endGroup close => t.endGroup close
  | .shiftIndent delta =>
      .ok { t with renderer :=
        { t.renderer with indentation := t.renderer.indentation + delta } }
  | .comment s => .ok (t.comment s)
  | .splice _ => .ok t

def run (t : Transcriber) (cmds : List Cmd) :
    Except PrinterError Transcriber :=
  cmds.foldlM execute t

def finish (t : Transcriber) : List LayoutEvent :=
  t.flush.events ++ t.flush.comments.map LayoutEvent.comment

end Transcriber

/-- The transcript of a document. -/
def transcript (maxWidth : Nat) (slots : List Slot) (main : List Cmd) :
    Except PrinterError (List LayoutEvent) :=
  let cmds := inlined slots slots.length main
  let force := (markCommentGroups [] 0 cmds ([false], [])).1
  ((Transcriber.new maxWidth force).run cmds).map Transcriber.finish

namespace Transcriber

section Erasure

variable (t : Transcriber)

/-- What the transcriber does to its renderer the renderer does itself. -/
theorem renderer_flushTokens (tokens : List Token) :
    (flushTokens tokens t).renderer =
      Renderer.flushTokens tokens t.renderer := by
  induction tokens generalizing t with
  | nil => rfl
  | cons token rest ih =>
      rw [flushTokens, ih]
      rfl

theorem renderer_flush : t.flush.renderer = t.renderer.flush := by
  rw [flush, Renderer.flush, ← renderer_flushTokens]

theorem renderer_newline (owner : Option (Nat × Text)) :
    (t.newline owner).renderer =
      t.renderer.newline (owner.map Prod.fst) := by
  rw [newline, Renderer.newline, ← renderer_flush]

theorem renderer_popWhile (condition : Renderer → Bool) (tokens : List Token) :
    (popWhile condition tokens t).renderer =
      Renderer.popWhile condition tokens t.renderer := by
  induction tokens generalizing t with
  | nil => rfl
  | cons token rest ih =>
      rw [popWhile, Renderer.popWhile]
      by_cases hcondition : condition t.renderer = true
      · rw [if_pos hcondition, if_pos hcondition, ih]
        rfl
      · rw [if_neg hcondition, if_neg hcondition]

theorem renderer_breakGroups (rounds : Nat) :
    (t.breakGroups rounds).renderer = t.renderer.breakGroups rounds := by
  induction rounds generalizing t with
  | zero => rfl
  | succ rounds ih =>
      rw [breakGroups, Renderer.breakGroups]
      by_cases hover : t.renderer.outputWidth + t.renderer.bufferWidth >
          t.renderer.maxWidth
      · rw [if_pos hover, if_pos hover, deq]
        dsimp only
        rcases t.renderer.deq with ⟨r, found⟩
        cases found with
        | none => rfl
        | some id =>
            dsimp only
            rw [ih, renderer_popWhile, renderer_popWhile]
      · rw [if_neg hover, if_neg hover]

theorem renderer_breakOuterGroups :
    t.breakOuterGroups.renderer = t.renderer.breakOuterGroups :=
  t.renderer_breakGroups _

theorem renderer_textFrom (origin : Text → LayoutEvent) (s : Text) :
    (t.textFrom origin s).renderer = t.renderer.text s := by
  rw [textFrom, Renderer.text]
  by_cases hempty : t.renderer.buffer.isEmpty = true
  · rw [if_pos hempty, if_pos hempty]
  · rw [if_neg hempty, if_neg hempty, renderer_breakOuterGroups]

theorem renderer_breakable (sep : Text) :
    (t.breakable sep).renderer = t.renderer.breakable sep := by
  rw [breakable, Renderer.breakable]
  by_cases hbroken : (t.renderer.group t.renderer.innermost).wantBreak = true
  · rw [if_pos hbroken, if_pos hbroken, renderer_newline]
    rfl
  · rw [if_neg hbroken, if_neg hbroken, renderer_breakOuterGroups]

theorem renderer_ifBreak (s : Text) :
    (t.ifBreak s).renderer = t.renderer.ifBreak s := by
  rw [ifBreak, Renderer.ifBreak]
  by_cases hbroken : (t.renderer.group t.renderer.innermost).wantBreak = true
  · rw [if_pos hbroken, if_pos hbroken, renderer_textFrom]
  · rw [if_neg hbroken, if_neg hbroken]

theorem renderer_comment (s : Text) :
    (t.comment s).renderer = t.renderer.comment s := by
  rw [comment]
  split_ifs
  · rfl
  · rfl

theorem renderer_delimiter (s : Text) :
    (t.delimiter s).renderer =
      if s.isEmpty then t.renderer else t.renderer.text s := by
  rw [delimiter]
  split_ifs
  · rfl
  · exact t.renderer_textFrom _ s

theorem renderer_beginGroup (indent : Nat) (opening : Text) :
    (t.beginGroup indent opening).renderer =
      t.renderer.beginGroup indent opening := by
  rw [beginGroup, Renderer.beginGroup, ← renderer_delimiter]
  rfl

theorem renderer_freshLine (comment : Bool) :
    (t.freshLine comment).renderer =
      if comment && !(t.renderer.buffer.isEmpty && t.renderer.atLineStart) then
        t.renderer.newline none
      else t.renderer := by
  rw [freshLine]
  split_ifs
  · exact t.renderer_newline none
  · rfl

theorem renderer_leaveQueue (id : Nat) :
    (t.leaveQueue id).renderer =
      if (t.renderer.group id).pending = 0 then t.renderer.queueRemove id
      else t.renderer := by
  rw [leaveQueue]
  split_ifs
  · rfl
  · rfl

theorem renderer_endGroup (close : Text) :
    (t.endGroup close).map renderer = t.renderer.endGroup close := by
  rw [endGroup, Renderer.endGroup]
  rcases t.renderer.groupStack with - | ⟨id, - | ⟨parent, rest⟩⟩
  · rfl
  · rfl
  · dsimp only
    change Except.ok (renderer _) = Except.ok _
    rw [renderer_delimiter, renderer_leaveQueue, renderer_freshLine]
    rfl

theorem renderer_execute (cmd : Cmd) :
    (t.execute cmd).map renderer =
      Renderer.execute (fun _ => .ok) [] t.renderer cmd := by
  cases cmd with
  | text s => exact congrArg Except.ok (t.renderer_textFrom _ s)
  | breakable sep => exact congrArg Except.ok (t.renderer_breakable sep)
  | ifBreak s => exact congrArg Except.ok (t.renderer_ifBreak s)
  | hardBreak => exact congrArg Except.ok (t.renderer_newline none)
  | beginGroup indent opening =>
      exact congrArg Except.ok (t.renderer_beginGroup indent opening)
  | endGroup close => exact t.renderer_endGroup close
  | shiftIndent delta => rfl
  | comment s => exact congrArg Except.ok (t.renderer_comment s)
  | splice id => rfl

theorem renderer_run (cmds : List Cmd) :
    (t.run cmds).map renderer = Renderer.run [] 0 cmds t.renderer := by
  induction cmds generalizing t with
  | nil => rfl
  | cons cmd rest ih =>
      rw [run, Renderer.run, List.foldlM_cons, List.foldlM_cons,
        ← renderer_execute]
      cases hdone : t.execute cmd with
      | error e => rfl
      | ok next => exact ih next

end Erasure

end Transcriber

end Hegel
