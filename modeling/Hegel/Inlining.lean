/-
A document with slots is laid out as the flat one that has the content of every
slot in its place.
-/
import Hegel.Renderer

namespace Hegel

def inlineCmd (splice : List Cmd → List Cmd) (slots : List Slot) :
    Cmd → List Cmd
  | .splice id => splice ((slots[id]?.map Slot.commands).getD [])
  | cmd => [cmd]

/-- The commands with those of the slots in place of their splices, as deep as
the number says. -/
def inlined (slots : List Slot) : Nat → List Cmd → List Cmd
  | 0, cmds => cmds.flatMap (inlineCmd (fun _ => []) slots)
  | nesting + 1, cmds => cmds.flatMap (inlineCmd (inlined slots nesting) slots)

/-- Commands without splices. -/
def Flat (cmds : List Cmd) : Prop :=
  ∀ id, Cmd.splice id ∉ cmds

section Splices

variable {slots : List Slot}

theorem flat_flatMap {cmds : List Cmd} {splice : List Cmd → List Cmd}
    (hsplice : ∀ inner, Flat (splice inner)) :
    Flat (cmds.flatMap (inlineCmd splice slots)) := by
  intro id hmem
  obtain ⟨cmd, -, hcmd⟩ := List.mem_flatMap.mp hmem
  cases cmd with
  | splice slot => exact hsplice _ id hcmd
  | text s => simp [inlineCmd] at hcmd
  | breakable sep => simp [inlineCmd] at hcmd
  | ifBreak s => simp [inlineCmd] at hcmd
  | hardBreak => simp [inlineCmd] at hcmd
  | beginGroup indent opening => simp [inlineCmd] at hcmd
  | endGroup close => simp [inlineCmd] at hcmd
  | shiftIndent delta => simp [inlineCmd] at hcmd
  | comment s => simp [inlineCmd] at hcmd

theorem flat_inlined (nesting : Nat) (cmds : List Cmd) :
    Flat (inlined slots nesting cmds) := by
  induction nesting generalizing cmds with
  | zero => exact flat_flatMap fun _ id hmem => by cases hmem
  | succ nesting ih => exact flat_flatMap ih

theorem inlineCmd_of_ne {splice : List Cmd → List Cmd} {cmd : Cmd}
    (hcmd : ∀ id, cmd ≠ .splice id) : inlineCmd splice slots cmd = [cmd] := by
  cases cmd with
  | splice id => exact absurd rfl (hcmd id)
  | _ => rfl

theorem inlined_flat (nesting : Nat) {cmds : List Cmd} (hflat : Flat cmds) :
    inlined slots nesting cmds = cmds := by
  have hsame : ∀ splice : List Cmd → List Cmd,
      cmds.flatMap (inlineCmd splice slots) = cmds := by
    intro splice
    have hcmd : ∀ cmd ∈ cmds, inlineCmd splice slots cmd = [cmd] :=
      fun cmd hmem => inlineCmd_of_ne fun id h => hflat id (h ▸ hmem)
    rw [List.flatMap_congr hcmd]
    exact List.flatMap_singleton' cmds
  cases nesting with
  | zero => exact hsame _
  | succ nesting => exact hsame _

/-- Marking the inlined commands marks those of the slots in place. -/
theorem foldl_inlined {splice : List Cmd → List Cmd}
    {inner outer : List Cmd → CommentMarks → CommentMarks}
    (hsplice : ∀ cmds marks, outer cmds marks =
      (splice cmds).foldl (markCommentGroup inner []) marks)
    (cmds : List Cmd) (marks : CommentMarks) :
    cmds.foldl (markCommentGroup outer slots) marks =
      (cmds.flatMap (inlineCmd splice slots)).foldl
        (markCommentGroup inner []) marks := by
  induction cmds generalizing marks with
  | nil => rfl
  | cons cmd rest ih =>
      rw [List.foldl_cons, ih, List.flatMap_cons, List.foldl_append]
      congr 1
      cases cmd with
      | splice id => exact hsplice _ _
      | _ => rfl

theorem markCommentGroups_inlined (nesting : Nat) (cmds : List Cmd)
    (marks : CommentMarks) :
    markCommentGroups slots nesting cmds marks =
      markCommentGroups [] 0 (inlined slots nesting cmds) marks := by
  induction nesting generalizing cmds marks with
  | zero =>
      rw [markCommentGroups, markCommentGroups, inlined]
      apply foldl_inlined
      exact fun _ _ => rfl
  | succ nesting ih =>
      rw [markCommentGroups, markCommentGroups, inlined]
      exact foldl_inlined ih cmds marks

/-- Executing the inlined commands executes those of the slots in place. -/
theorem foldlM_inlined {splice : List Cmd → List Cmd}
    {inner outer : List Cmd → Renderer → Except PrinterError Renderer}
    (hsplice : ∀ cmds r, outer cmds r =
      (splice cmds).foldlM (Renderer.execute inner []) r)
    (cmds : List Cmd) (r : Renderer) :
    cmds.foldlM (Renderer.execute outer slots) r =
      (cmds.flatMap (inlineCmd splice slots)).foldlM
        (Renderer.execute inner []) r := by
  induction cmds generalizing r with
  | nil => rfl
  | cons cmd rest ih =>
      have hone : Renderer.execute outer slots r cmd =
          (inlineCmd splice slots cmd).foldlM
            (Renderer.execute inner []) r := by
        by_cases hcmd : ∃ id, cmd = .splice id
        · obtain ⟨id, rfl⟩ := hcmd
          exact hsplice _ r
        · have hne : ∀ id, cmd ≠ .splice id := fun id h => hcmd ⟨id, h⟩
          rw [inlineCmd_of_ne hne, List.foldlM_cons]
          simp only [List.foldlM_nil, bind_pure]
          cases cmd with
          | splice id => exact absurd rfl (hne id)
          | _ => rfl
      rw [List.foldlM_cons, List.flatMap_cons, List.foldlM_append, hone]
      simp only [ih]

theorem run_inlined (nesting : Nat) (cmds : List Cmd) (r : Renderer) :
    Renderer.run slots nesting cmds r =
      Renderer.run [] 0 (inlined slots nesting cmds) r := by
  induction nesting generalizing cmds r with
  | zero =>
      rw [Renderer.run, Renderer.run, inlined]
      apply foldlM_inlined
      exact fun _ _ => rfl
  | succ nesting ih =>
      rw [Renderer.run, Renderer.run, inlined]
      exact foldlM_inlined ih cmds r

/-- A document with slots is laid out as the flat one. -/
theorem layOut_inlined (maxWidth : Nat) (slots : List Slot) (main : List Cmd) :
    layOut maxWidth slots main =
      layOut maxWidth [] (inlined slots slots.length main) := by
  rw [layOut, layOut, markCommentGroups_inlined, run_inlined]
  rfl

end Splices

end Hegel
