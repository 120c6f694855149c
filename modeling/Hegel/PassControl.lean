/-
The control flow of the shrink passes.  A pass that works node by node gives a
node up when it is gone, and only that is absorbed before the next node; a
shrink that is stopped keeps its target, and only that is absorbed by the
engine.  A pass is written as a tree: it may look at the shrinker at any time
and go on as the answers tell it.
-/
import Hegel.ShrinkSoundness

namespace Hegel

/-- What ends the work of a pass on a node. -/
inductive PassExit where
  | halt (halt : ShrinkHalt)
  | nodeGone
deriving DecidableEq

abbrev PassM (World : Type) := Program (ShrinkState World) PassExit

section Absorbing

variable {World Value : Type}

def absorbNodeGoneResult : Except PassExit Value → Except ShrinkHalt PUnit
  | .error (.halt halt) => .error halt
  | _ => .ok ⟨⟩

/-- Go on with the next node when one is gone. -/
def absorbNodeGone (program : PassM World Value) : ShrinkM World PUnit :=
  .ofExec fun state =>
    let (result, state) := program.exec state
    (absorbNodeGoneResult result, state)

/-- An operation of the shrinker in the work on a node. -/
def ShrinkM.onNode (program : ShrinkM World Value) : PassM World Value :=
  .ofExec fun state =>
    let (result, state) := program.exec state
    (result.mapError .halt, state)

/-- Being stopped is no error of a run. -/
def absorbStop : Except ShrinkHalt Value → Except RunError Unit
  | .error (.error error) => .error error
  | _ => .ok ()

end Absorbing

/-- A pass, or the rest of one.  The work on a node is absorbed; the stream of
a clone is shrunk by a pass of its own. -/
inductive PassCode where
  | done
  | nodeGone
  | stop
  | fail (error : InternalError)
  | look (next : Shrinker → PassCode)
  | consider (nodes : List ChoiceNode) (next : Bool → PassCode)
  | replace (values : List (Nat × ChoiceValue)) (next : Bool → PassCode)
  | probe (prefixValues : List ChoiceValue) (maxSize : Nat) (next : PassCode)
  | runTestFn (run : ShrinkRun) (next : ShrinkOutcome → PassCode)
  | call (operation : ShrinkCall) (next : PassCode)
  | pass (routine : ShrinkPass) (next : PassCode)
  | node (work next : PassCode)
  | cloneStream (i : Nat) (nested next : PassCode)

namespace PassCode

/-- The work on a node that the code stands for. -/
def perform : PassCode → ∀ {World : Type}, ShrinkProbe World → PassM World PUnit
  | .done, _, _ => return ()
  | .nodeGone, _, _ => throw .nodeGone
  | .stop, _, _ => throw (.halt .stop)
  | .fail error, _, _ => throw (.halt (.error (.internal error)))
  | .look next, _, testFn => do
      let state ← get
      (next state.shrinker).perform testFn
  | .consider nodes next, _, testFn => do
      let adopted ← (Hegel.consider testFn nodes).onNode
      (next adopted).perform testFn
  | .replace values next, _, testFn => do
      let adopted ← (Hegel.replace testFn values).onNode
      (next adopted).perform testFn
  | .probe prefixValues maxSize next, _, testFn => do
      (Hegel.probe testFn prefixValues maxSize).onNode
      next.perform testFn
  | .runTestFn run next, _, testFn => do
      let outcome ← (inspect testFn run).onNode
      (next outcome).perform testFn
  | .call operation next, _, testFn => do
      (operation.perform testFn).onNode
      next.perform testFn
  | .pass routine next, _, testFn => do
      (routine.perform testFn).onNode
      next.perform testFn
  | .node work next, _, testFn => do
      (absorbNodeGone (work.perform testFn)).onNode
      next.perform testFn
  | .cloneStream i nested next, _, testFn => do
      let state ← get
      match state.shrinker.currentNodes[i]? with
      | none => next.perform testFn
      | some clone =>
          (shrinkCloneStreamAt testFn
            (fun inner => absorbNodeGone (nested.perform inner)) i clone).onNode
          next.perform testFn

/-- A whole pass; there is no node left that could be gone. -/
def run (code : PassCode) {World : Type} (testFn : ShrinkProbe World) :
    ShrinkM World PUnit :=
  absorbNodeGone (code.perform testFn)

end PassCode

end Hegel
