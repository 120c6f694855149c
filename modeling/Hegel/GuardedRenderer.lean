/-
The renderer with its faults.  Every pop from the buffer, every index and every
subtraction says what it needs, every loop has an end, and the counts are
compared with the buffer between any two steps; a renderer whose counts are
right never faults.
-/
import Hegel.LayoutGroups
import Hegel.LineWidth

namespace Hegel

/-- What the renderer would panic at, a loop that does not end, or counts that
differ from the buffer. -/
inductive RenderFault where
  | emptyBuffer
  | underflow
  | outOfRange
  | unbounded
  | drift
deriving DecidableEq

/-- What stops the renderer. -/
inductive RenderStop where
  | error (error : PrinterError)
  | fault (fault : RenderFault)
deriving DecidableEq

abbrev Guarded := Except RenderStop

def demand (condition : Prop) [Decidable condition] (fault : RenderFault) :
    Guarded Unit :=
  if condition then .ok () else .error (.fault fault)

/-- What is demanded and holds changes nothing. -/
theorem demand_bind {condition : Prop} [Decidable condition] {α : Type}
    (hcondition : condition) (fault : RenderFault) (next : Unit → Guarded α) :
    (demand condition fault >>= next) = next () := by
  rw [demand, if_pos hcondition]
  rfl

namespace Renderer

/-- The pending counts and the width are those of the buffer. -/
structure Tracks (r : Renderer) : Prop where
  pending : ∀ id < r.groups.length,
    (r.group id).pending = (waiting r.buffer).count id
  width : r.bufferWidth = tokensWidth r.buffer

instance (r : Renderer) : Decidable r.Tracks :=
  decidable_of_iff
    ((∀ id < r.groups.length,
      (r.group id).pending = (waiting r.buffer).count id) ∧
      r.bufferWidth = tokensWidth r.buffer)
    ⟨fun h => ⟨h.1, h.2⟩, fun h => ⟨h.pending, h.width⟩⟩

section Guards

def guardedOutput (r : Renderer) (token : Token) : Guarded Renderer := do
  match token with
  | .breakable _ _ _ id =>
      demand (id < r.groups.length) .outOfRange
      demand (0 < (r.group id).pending) .underflow
      demand ((r.group id).depth < r.groupQueue.length) .outOfRange
  | .ifBreak _ id => demand (id < r.groups.length) .outOfRange
  | .text _ _ => pure ()
  | .comment _ => pure ()
  return r.outputToken token

def guardedPop (r : Renderer) : Guarded Renderer :=
  match r.buffer with
  | [] => .error (.fault .emptyBuffer)
  | token :: rest => do
      demand (token.width ≤ r.bufferWidth) .underflow
      guardedOutput
        { r with buffer := rest, bufferWidth := r.bufferWidth - token.width }
        token

/-- Pop as long as a condition holds, whether or not anything is left. -/
def guardedPopWhile (condition : Renderer → Bool) :
    Nat → Renderer → Guarded Renderer
  | 0, _ => .error (.fault .unbounded)
  | rounds + 1, r => do
      demand r.Tracks .drift
      if condition r then
        let r ← r.guardedPop
        guardedPopWhile condition rounds r
      else return r

/-- Output tokens as long as a group waits, and the text behind them. -/
def guardedDrain (id : Nat) (r : Renderer) : Guarded Renderer := do
  let r ← guardedPopWhile (fun r => (r.group id).pending > 0)
    (r.buffer.length + 1) r
  guardedPopWhile frontIsText (r.buffer.length + 1) r

def guardedBreak : Nat → Renderer → Guarded Renderer
  | 0, _ => .error (.fault .unbounded)
  | rounds + 1, r => do
      demand r.Tracks .drift
      if r.outputWidth + r.bufferWidth > r.maxWidth then
        demand (∀ id ∈ r.groupQueue.flatten, id < r.groups.length) .outOfRange
        match r.deq with
        | (r, none) => return r
        | (r, some id) =>
            let r ← guardedDrain id r
            guardedBreak rounds r
      else return r

def guardedBreakOuter (r : Renderer) : Guarded Renderer :=
  guardedBreak (r.groupQueue.flatten.length + 1) r

def guardedText (r : Renderer) (s : Text) : Guarded Renderer :=
  if r.buffer.isEmpty then return r.write s s.length
  else
    guardedBreakOuter { r with
      buffer := pushText s r.buffer
      bufferWidth := r.bufferWidth + s.length }

/-- The width stays as it is until all tokens are out. -/
def guardedFlush : List Token → Renderer → Guarded Renderer
  | [], r => return { r with bufferWidth := 0 }
  | token :: rest, r => do
      let r ← guardedOutput { r with buffer := rest } token
      guardedFlush rest r

def guardedNewline (r : Renderer) (owner : Option Nat) :
    Guarded Renderer := do
  let r ← guardedFlush r.buffer r
  return r.startLine owner r.indentation

def demandInnermost (r : Renderer) : Guarded Unit := do
  demand (r.groupStack ≠ []) .outOfRange
  demand (r.innermost < r.groups.length) .outOfRange

def guardedBreakable (r : Renderer) (sep : Text) : Guarded Renderer := do
  r.demandInnermost
  let id := r.innermost
  if (r.group id).wantBreak then r.guardedNewline (some id)
  else
    guardedBreakOuter { r with
      buffer := r.buffer ++
        [Token.breakable sep sep.length r.indentation id]
      bufferWidth := r.bufferWidth + sep.length
      groups := r.groups.modify id fun group =>
        { group with pending := group.pending + 1 } }

def guardedIfBreak (r : Renderer) (s : Text) : Guarded Renderer := do
  r.demandInnermost
  let id := r.innermost
  if (r.group id).wantBreak then r.guardedText s
  else return { r with buffer := r.buffer ++ [.ifBreak s id] }

def guardedBeginGroup (r : Renderer) (indent : Nat) (opening : Text) :
    Guarded Renderer := do
  let r ← if opening.isEmpty then pure r else r.guardedText opening
  r.demandInnermost
  demand (r.groups.length < r.forceBreak.length) .outOfRange
  return r.beginGroup indent []

/-- A closed group leaves the queue if nothing of it waits. -/
def guardedLeave (r : Renderer) (id : Nat) (close : Text) :
    Guarded Renderer := do
  demand ((r.group id).depth < r.groupQueue.length) .outOfRange
  let r := if (r.group id).pending = 0 then r.queueRemove id else r
  if close.isEmpty then return r else r.guardedText close

def guardedEndGroup (r : Renderer) (close : Text) : Guarded Renderer :=
  match r.groupStack with
  | id :: parent :: rest => do
      demand (id < r.groups.length) .outOfRange
      let group := r.group id
      let r := { r with
        groupStack := parent :: rest
        indentation := r.indentation - group.indent }
      let r ←
        if group.comment && !(r.buffer.isEmpty && r.atLineStart) then
          r.guardedNewline none
        else pure r
      r.guardedLeave id (if group.comment then trimStart close else close)
  | _ => .error (.error .unbalancedGroup)

def guardedCommand (splice : List Cmd → Renderer → Guarded Renderer)
    (slots : List Slot) (r : Renderer) : Cmd → Guarded Renderer
  | .text s => r.guardedText s
  | .breakable sep => r.guardedBreakable sep
  | .ifBreak s => r.guardedIfBreak s
  | .hardBreak => r.guardedNewline none
  | .beginGroup indent opening => r.guardedBeginGroup indent opening
  | .endGroup close => r.guardedEndGroup close
  | .shiftIndent delta =>
      .ok { r with indentation := r.indentation + delta }
  | .comment s => .ok (r.comment s)
  | .splice id =>
      match slots[id]? with
      | none => .error (.fault .outOfRange)
      | some slot => splice slot.commands r

def guardedExecute (splice : List Cmd → Renderer → Guarded Renderer)
    (slots : List Slot) (r : Renderer) (cmd : Cmd) : Guarded Renderer := do
  let r ← guardedCommand splice slots r cmd
  demand r.Tracks .drift
  return r

def guardedRun (slots : List Slot) :
    Nat → List Cmd → Renderer → Guarded Renderer
  | 0, cmds, r =>
      cmds.foldlM
        (guardedExecute (fun _ _ => .error (.fault .unbounded)) slots) r
  | nesting + 1, cmds, r =>
      cmds.foldlM (guardedExecute (guardedRun slots nesting) slots) r

end Guards

end Renderer

def guardedLayOut (maxWidth : Nat) (slots : List Slot) (main : List Cmd) :
    Guarded (List Piece) := do
  let force := (markCommentGroups slots slots.length main ([false], [])).1
  let r ← Renderer.guardedRun slots slots.length main (.new maxWidth force)
  let r ← Renderer.guardedFlush r.buffer r
  return r.emitPendingComments.out

end Hegel
