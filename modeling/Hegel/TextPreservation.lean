/-
Text and comments of a document.  Whatever the width, the texts come out in
order and so do the comments, each at the end of a line; and every group that
is open at a comment is broken.
-/
import Hegel.TranscriptRuns

namespace Hegel

/-- The text that is written as such. -/
def LayoutEvent.word : LayoutEvent → Option Text
  | .text s => some s
  | _ => none

/-- The open groups after a command, and the number of the next one. -/
def openGroup (groups : List Nat × Nat) : Cmd → List Nat × Nat
  | .beginGroup _ _ => (groups.2 :: groups.1, groups.2 + 1)
  | .endGroup _ => (groups.1.tail, groups.2)
  | _ => groups

/-- The groups that are open after some commands. -/
def openGroups (cmds : List Cmd) : List Nat × Nat :=
  cmds.foldl openGroup ([], 1)

/-- The texts of a document, given the groups whose closing text is trimmed,
the open groups and the number of the next one. -/
def docTexts (trimmed : List Bool) : List Nat → Nat → List Cmd → List Text
  | _, _, [] => []
  | stack, next, .text s :: rest => s :: docTexts trimmed stack next rest
  | stack, next, .beginGroup _ opening :: rest =>
      opening :: docTexts trimmed (next :: stack) (next + 1) rest
  | stack, next, .endGroup close :: rest =>
      (if trimmed.getD (stack.headD 0) false then trimStart close else close) ::
        docTexts trimmed stack.tail next rest
  | stack, next, _ :: rest => docTexts trimmed stack next rest

/-- A comment is made while some group is open. -/
def CommentedIn (cmds : List Cmd) (id : Nat) : Prop :=
  ∃ before s after, cmds = before ++ .comment s :: after ∧
    id ∈ (openGroups before).1

section Marks

/-- The marks after some commands. -/
def commentMarks (cmds : List Cmd) : CommentMarks :=
  cmds.foldl (markCommentGroup (fun _ => id) []) ([false], [])

theorem openGroups_concat (cmds : List Cmd) (cmd : Cmd) :
    openGroups (cmds ++ [cmd]) = openGroup (openGroups cmds) cmd := by
  rw [openGroups, List.foldl_append]
  rfl

theorem commentMarks_concat (cmds : List Cmd) (cmd : Cmd) :
    commentMarks (cmds ++ [cmd]) =
      markCommentGroup (fun _ => id) [] (commentMarks cmds) cmd := by
  rw [commentMarks, List.foldl_append]
  rfl

theorem length_foldl_set (stack : List Nat) (force : List Bool) :
    (stack.foldl (fun force id => force.set id true) force).length =
      force.length := by
  induction stack generalizing force with
  | nil => rfl
  | cons id rest ih => rw [List.foldl_cons, ih, List.length_set]

theorem getD_foldl_set (stack : List Nat) {force : List Bool} {id : Nat}
    (hstack : ∀ x ∈ stack, x < force.length) :
    (stack.foldl (fun force id => force.set id true) force).getD id false =
      (force.getD id false || decide (id ∈ stack)) := by
  induction stack generalizing force with
  | nil => simp
  | cons x rest ih =>
      rw [List.foldl_cons, ih fun y hy => by
        rw [List.length_set]
        exact hstack y (List.mem_cons_of_mem _ hy)]
      have hx := hstack x List.mem_cons_self
      rw [List.getD_eq_getElem?_getD, List.getD_eq_getElem?_getD,
        List.getElem?_set]
      by_cases hsame : x = id
      · simp [hsame, hsame ▸ hx]
      · simp [hsame, Ne.symm hsame]

/-- The marks keep track of the open groups. -/
theorem commentMarks_open (cmds : List Cmd) :
    (commentMarks cmds).2 = (openGroups cmds).1 ∧
      (commentMarks cmds).1.length = (openGroups cmds).2 ∧
      0 < (openGroups cmds).2 ∧
      ∀ id ∈ (openGroups cmds).1, id ≠ 0 ∧ id < (openGroups cmds).2 := by
  induction cmds using List.reverseRecOn with
  | nil => exact ⟨rfl, rfl, Nat.one_pos, nofun⟩
  | append_singleton cmds cmd ih =>
      obtain ⟨hstack, hlength, hpos, hknown⟩ := ih
      rw [openGroups_concat, commentMarks_concat]
      cases cmd with
      | beginGroup indent opening =>
          refine ⟨?_, ?_, Nat.succ_pos _, ?_⟩
          · rw [markCommentGroup, openGroup, hstack, hlength]
          · rw [markCommentGroup, openGroup, List.length_append, hlength]
            rfl
          · intro id hid
            rcases List.mem_cons.mp hid with rfl | hid
            · exact ⟨hpos.ne', Nat.lt_succ_self _⟩
            · exact ⟨(hknown id hid).1, (hknown id hid).2.trans
                (Nat.lt_succ_self _)⟩
      | endGroup close =>
          refine ⟨congrArg List.tail hstack, hlength, hpos, fun id hid => ?_⟩
          exact hknown id (List.mem_of_mem_tail hid)
      | comment s =>
          refine ⟨hstack, ?_, hpos, hknown⟩
          exact (length_foldl_set _ _).trans hlength
      | _ => exact ⟨hstack, hlength, hpos, hknown⟩

/-- Only a comment puts a comment into groups. -/
theorem commentedIn_concat {cmds : List Cmd} {cmd : Cmd} {id : Nat} :
    CommentedIn (cmds ++ [cmd]) id ↔ CommentedIn cmds id ∨
      ((∃ s, cmd = .comment s) ∧ id ∈ (openGroups cmds).1) := by
  constructor
  · rintro ⟨before, s, after, heq, hid⟩
    rcases List.eq_nil_or_concat after with rfl | ⟨after', last, rfl⟩
    · obtain ⟨rfl, hcmd⟩ := List.append_inj' heq rfl
      exact .inr ⟨⟨s, List.singleton_inj.mp hcmd⟩, hid⟩
    · rw [List.concat_eq_append, ← List.cons_append, ← List.append_assoc] at heq
      exact .inl ⟨before, s, after', (List.append_inj' heq rfl).1, hid⟩
  · rintro (⟨before, s, after, rfl, hid⟩ | ⟨⟨s, rfl⟩, hid⟩)
    · exact ⟨before, s, after ++ [cmd], by simp, hid⟩
    · exact ⟨cmds, s, [], rfl, hid⟩

/-- The marked groups are those with a comment in them. -/
theorem getD_commentMarks (cmds : List Cmd) (id : Nat) :
    (commentMarks cmds).1.getD id false = true ↔ CommentedIn cmds id := by
  induction cmds using List.reverseRecOn with
  | nil =>
      constructor
      · intro hforce
        cases id with
        | zero => cases hforce
        | succ id => cases hforce
      · rintro ⟨before, s, after, heq, -⟩
        simp at heq
  | append_singleton cmds cmd ih =>
      obtain ⟨hstack, hlength, -, hknown⟩ := commentMarks_open cmds
      have hother : (∀ s, cmd ≠ .comment s) →
          (CommentedIn (cmds ++ [cmd]) id ↔ CommentedIn cmds id) := by
        intro hne
        rw [commentedIn_concat]
        refine or_iff_left ?_
        rintro ⟨⟨s, hs⟩, -⟩
        exact hne s hs
      rw [commentMarks_concat]
      cases cmd with
      | comment s =>
          rw [markCommentGroup, getD_foldl_set, Bool.or_eq_true, ih, hstack,
            decide_eq_true_eq, commentedIn_concat]
          · simp
          · intro x hx
            rw [hstack] at hx
            rw [hlength]
            exact (hknown x hx).2
      | beginGroup indent opening =>
          rw [hother nofun, ← ih, markCommentGroup]
          by_cases hid : id < (commentMarks cmds).1.length
          · rw [List.getD_append _ _ _ _ hid]
          · rw [List.getD_append_right _ _ _ _ (Nat.le_of_not_lt hid),
              List.getD_eq_default _ _ (Nat.le_of_not_lt hid)]
            cases id - (commentMarks cmds).1.length <;> rfl
      | endGroup close => rw [hother nofun, ← ih, markCommentGroup]
      | splice slot => exact ih.trans (hother nofun).symm
      | _ => exact ih.trans (hother nofun).symm

theorem forcedGroups_iff (cmds : List Cmd) (id : Nat) :
    (forcedGroups cmds).getD id false = true ↔ CommentedIn cmds id :=
  getD_commentMarks cmds id

end Marks

section Texts

/-- The text of an origin. -/
def Origin.word : Origin → Option Text
  | .text s => some s
  | _ => none

theorem word_origin (event : LayoutEvent) :
    event.word = event.origin.bind Origin.word := by
  cases event <;> rfl

theorem flatten_delimiterOrigins (s : Text) :
    ((Transcriber.delimiterOrigins s).filterMap Origin.word).flatten = s := by
  rw [Transcriber.delimiterOrigins]
  by_cases hempty : s.isEmpty = true
  · rw [if_pos hempty, List.isEmpty_iff.mp hempty]
    rfl
  · rw [if_neg hempty]
    exact List.append_nil s

/-- The texts of what a document consists of are its texts. -/
theorem word_docOrigins (force : List Bool) (stack : List Nat) (next : Nat)
    (cmds : List Cmd) :
    ((docOrigins force stack next cmds).filterMap Origin.word).flatten =
      (docTexts force stack next cmds).flatten := by
  induction cmds generalizing stack next with
  | nil => rfl
  | cons cmd rest ih =>
      cases cmd with
      | text s =>
          rw [docOrigins, docTexts]
          exact congrArg (s ++ ·) (ih stack next)
      | beginGroup indent opening =>
          rw [docOrigins, docTexts, List.filterMap_append,
            List.flatten_append, flatten_delimiterOrigins, ih]
          rfl
      | endGroup close =>
          rw [docOrigins, docTexts, List.filterMap_append,
            List.flatten_append, flatten_delimiterOrigins, ih]
          rfl
      | _ => exact ih stack next

end Texts

/-- The output of a document is that of a transcript.  It has every comment
once and in order, each followed by a newline, another comment or the end;
groups with a comment in them are broken; and it has all texts in order. -/
theorem layOut_preserves_text (maxWidth : Nat) (slots : List Slot)
    (main : List Cmd)
    (hbalanced : Closes 0 (inlined slots slots.length main) = true) :
    ∃ pieces events trimmed, layOut maxWidth slots main = .ok pieces ∧
      transcript maxWidth slots main = .ok events ∧
      events.flatMap LayoutEvent.render = pieces.flatMap Piece.render ∧
      events.filterMap LayoutEvent.break = breaks pieces ∧
      events.filterMap LayoutEvent.remark =
        (inlined slots slots.length main).filterMap Cmd.remark ∧
      events.IsChain LayoutEvent.Follows ∧
      (∀ id, CommentedIn (inlined slots slots.length main) id →
        (id, false) ∉ breaks pieces) ∧
      (∀ id, trimmed.getD id false = true ↔
        CommentedIn (inlined slots slots.length main) id) ∧
      (events.filterMap LayoutEvent.word).flatten =
        (docTexts trimmed [0] 1 (inlined slots slots.length main)).flatten := by
  obtain ⟨pieces, t, hlaid, -, htranscript, hevents⟩ :=
    transcript_transcribes maxWidth slots main hbalanced
  generalize inlined slots slots.length main = cmds at hevents
  refine ⟨pieces, t.finish, forcedGroups cmds, hlaid, htranscript,
    hevents.rendered, hevents.breaks, hevents.remarks, hevents.followed, ?_,
    forcedGroups_iff cmds, ?_⟩
  · intro id hcommented hflat
    obtain ⟨before, s, after, rfl, hid⟩ := hcommented
    have hne := ((commentMarks_open before).2.2.2 id hid).1
    have hforced := hevents.forced id false hflat hne
      ((forcedGroups_iff _ id).mpr ⟨before, s, after, rfl, hid⟩)
    cases hforced
  · rw [← word_docOrigins, ← hevents.origins, List.filterMap_filterMap]
    congr 1
    exact List.filterMap_congr fun event _ => word_origin event

/-- A group with a comment in it, whose closing text starts with a blank. -/
def commentedGroup : List Cmd :=
  [.beginGroup 1 ['{'], .comment ['/', '/', 'c'], .endGroup [' ', '}']]

theorem layOut_preserves_text_sample :
    ∃ pieces events, layOut 80 [] commentedGroup = .ok pieces ∧
      transcript 80 [] commentedGroup = .ok events ∧
      events.filterMap LayoutEvent.remark = [['/', '/', 'c']] := by
  obtain ⟨pieces, events, -, hlaid, htranscript, -, -, hremarks, -⟩ :=
    layOut_preserves_text 80 [] commentedGroup (by decide)
  exact ⟨pieces, events, hlaid, htranscript, hremarks⟩

def trimEnd (s : Text) : Text :=
  (s.reverse.dropWhile isWhitespace).reverse

/-- It is the start of the closing text that is trimmed, not its end. -/
theorem layOut_trims_start :
    ∃ pieces events, layOut 80 [] commentedGroup = .ok pieces ∧
      transcript 80 [] commentedGroup = .ok events ∧
      pieces.flatMap Piece.render = ['{', '/', '/', 'c', '\n', '}'] ∧
      (events.filterMap LayoutEvent.word).flatten = ['{', '}'] ∧
      ['{', '}'] ≠ ['{'] ++ [' ', '}'] ∧
      ['{', '}'] ≠ ['{'] ++ trimEnd [' ', '}'] :=
  ⟨_, _, rfl, rfl, by decide, by decide, by decide, by decide⟩

end Hegel
