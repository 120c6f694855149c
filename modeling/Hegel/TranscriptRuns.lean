/-
The transcript of a document.  Every operation adds what it prints, so the
transcript has the texts, the breakables and the texts for broken groups of the
document in order, and its comments in order.
-/
import Hegel.TranscriptLaw

namespace Hegel

namespace Transcriber

/-- An operation that adds something to a document. -/
structure Adds (t : Transcriber) (origins : List Origin) (remarks : List Text)
    (t' : Transcriber) : Prop where
  sound : t'.Sound
  origins : t'.origins = t.origins ++ origins
  remarks : t'.remarks = t.remarks ++ remarks
  forceBreak : t'.renderer.forceBreak = t.renderer.forceBreak

section Operations

variable {t t' t'' : Transcriber} {origins origins' : List Origin}
  {remarks remarks' : List Text}

theorem Advances.adds (h : Advances t t') : Adds t [] [] t' :=
  ⟨h.sound, h.origins.trans (List.append_nil _).symm,
    h.remarks.trans (List.append_nil _).symm, h.forceBreak⟩

theorem Adds.trans (h : Adds t origins remarks t')
    (h' : Adds t' origins' remarks' t'') :
    Adds t (origins ++ origins') (remarks ++ remarks') t'' where
  sound := h'.sound
  origins := by rw [h'.origins, h.origins, List.append_assoc]
  remarks := by rw [h'.remarks, h.remarks, List.append_assoc]
  forceBreak := h'.forceBreak.trans h.forceBreak

theorem Adds.advances (h : Adds t origins remarks t') (h' : Advances t' t'') :
    Adds t origins remarks t'' where
  sound := h'.sound
  origins := h'.origins.trans h.origins
  remarks := h'.remarks.trans h.remarks
  forceBreak := h'.forceBreak.trans h.forceBreak

theorem Advances.then (h : Advances t t') (h' : Adds t' origins remarks t'') :
    Adds t origins remarks t'' where
  sound := h'.sound
  origins := by rw [h'.origins, h.origins]
  remarks := by rw [h'.remarks, h.remarks]
  forceBreak := h'.forceBreak.trans h.forceBreak

/-- The parts of text that was joined. -/
theorem made_pushPart {r : Renderer} {event : LayoutEvent}
    (hwritten : event.Written r) {parts : List (List LayoutEvent)}
    {tokens : List Token} (hmade : List.Forall₂ (Token.Made r) parts tokens) :
    List.Forall₂ (Token.Made r) (pushPart event tokens parts)
      (Renderer.pushText event.render tokens) := by
  have hpart : ∀ width, Token.Made r [event] (.text event.render width) := by
    intro width
    refine ⟨List.flatMap_singleton .., fun e he => ?_⟩
    rw [List.mem_singleton.mp he]
    exact hwritten
  induction hmade with
  | nil => exact List.Forall₂.cons (hpart _) .nil
  | @cons part token parts tokens hpart' hrest ih =>
      have hkeep : (∀ content width, token = .text content width →
            tokens ≠ []) →
          List.Forall₂ (Token.Made r)
            (pushPart event (token :: tokens) (part :: parts))
            (Renderer.pushText event.render (token :: tokens)) := by
        intro hnot
        rw [pushPart, Renderer.pushText]
        · exact List.Forall₂.cons hpart' ih
        · exact fun content width htoken hnil => hnot content width htoken hnil
        · exact fun content width htoken hnil => hnot content width htoken hnil
      cases token with
      | text content width =>
          cases tokens with
          | nil =>
              cases hrest
              refine List.Forall₂.cons ⟨?_, fun e he => ?_⟩ .nil
              · rw [List.flatMap_append, hpart'.1, List.flatMap_singleton]
              · rcases List.mem_append.mp he with he | he
                · exact hpart'.2 e he
                · rw [List.mem_singleton.mp he]
                  exact hwritten
          | cons next rest => exact hkeep fun _ _ _ => List.cons_ne_nil _ _
      | breakable sep width indent id => exact hkeep (by simp)
      | ifBreak content id => exact hkeep (by simp)
      | comment content => exact hkeep (by simp)

theorem origins_pushPart {r : Renderer} {event : LayoutEvent}
    {origin : Origin} (horigin : event.origin = some origin) (s : Text)
    {parts : List (List LayoutEvent)} {tokens : List Token}
    (hmade : List.Forall₂ (Token.Made r) parts tokens) :
    (List.zipWith Token.origins (pushPart event tokens parts)
        (Renderer.pushText s tokens)).flatten =
      (List.zipWith Token.origins parts tokens).flatten ++ [origin] := by
  have hevent : [event].filterMap LayoutEvent.origin = [origin] := by
    simp [horigin]
  induction hmade with
  | nil =>
      rw [pushPart, Renderer.pushText]
      simp [Token.origins, horigin]
  | @cons part token parts tokens hpart hrest ih =>
      have hkeep : (∀ content width, token = .text content width →
            tokens ≠ []) →
          (List.zipWith Token.origins
              (pushPart event (token :: tokens) (part :: parts))
              (Renderer.pushText s (token :: tokens))).flatten =
            (List.zipWith Token.origins (part :: parts)
              (token :: tokens)).flatten ++ [origin] := by
        intro hnot
        rw [pushPart, Renderer.pushText]
        · rw [List.zipWith_cons_cons, List.zipWith_cons_cons,
            List.flatten_cons, List.flatten_cons, ih, List.append_assoc]
        · exact fun content width htoken hnil => hnot content width htoken hnil
        · exact fun content width htoken hnil => hnot content width htoken hnil
      cases token with
      | text content width =>
          cases tokens with
          | nil =>
              cases hrest
              rw [pushPart, Renderer.pushText]
              simp only [List.zipWith_cons_cons, List.zipWith_nil_left,
                Token.origins, List.filterMap_append, hevent,
                List.flatten_cons, List.flatten_nil, List.append_nil]
          | cons next rest => exact hkeep fun _ _ _ => List.cons_ne_nil _ _
      | breakable sep width indent id => exact hkeep (by simp)
      | ifBreak content id => exact hkeep (by simp)
      | comment content => exact hkeep (by simp)

theorem remark_pushText (s : Text) (tokens : List Token) :
    (Renderer.pushText s tokens).filterMap Token.remark =
      tokens.filterMap Token.remark := by
  induction tokens using Renderer.pushText.induct with
  | case1 => rfl
  | case2 content width => rfl
  | case3 token rest hnot ih =>
      rw [Renderer.pushText, List.filterMap_cons, List.filterMap_cons, ih]
      exact hnot

/-- Text that has to wait. -/
theorem adds_pushText (ht : t.Sound) {from' : Text → LayoutEvent} {s : Text}
    {origin : Origin} (hwritten : (from' s).Written t.renderer)
    (hrender : (from' s).render = s) (horigin : (from' s).origin = some origin) :
    Adds t [origin] [] { t with
      renderer := { t.renderer with
        buffer := Renderer.pushText s t.renderer.buffer
        bufferWidth := t.renderer.bufferWidth + s.length }
      parts := pushPart (from' s) t.renderer.buffer t.parts } := by
  let r : Renderer := { t.renderer with
    buffer := Renderer.pushText s t.renderer.buffer
    bufferWidth := t.renderer.bufferWidth + s.length }
  have hmade := made_pushPart hwritten ht.made
  rw [hrender] at hmade
  have hsame : Grows t.renderer r := grows_of_groups rfl rfl
  have hsound := @Sound.append r t ht
    (pushPart (from' s) t.renderer.buffer t.parts) t.comments [] []
    (List.append_nil _).symm rfl rfl ht.held (made_mono hmade hsame) hsame
    (addable_nil r)
  rw [List.append_nil] at hsound
  refine ⟨hsound, ?_, ?_, rfl⟩
  · rw [Transcriber.origins, origins_pushPart horigin s ht.made,
      ← List.append_assoc]
    rfl
  · rw [Transcriber.remarks, remark_pushText, List.append_nil]
    rfl

/-- Text is added. -/
theorem adds_textFrom (ht : t.Sound) {from' : Text → LayoutEvent} {s : Text}
    {origin : Origin} (hwritten : (from' s).Written t.renderer)
    (hrender : (from' s).render = s) (horigin : (from' s).origin = some origin) :
    Adds t [origin] [] (t.textFrom from' s) := by
  rw [textFrom]
  by_cases hempty : t.renderer.buffer.isEmpty = true
  · rw [if_pos hempty]
    have hnil := List.isEmpty_iff.mp hempty
    have hsame : Grows t.renderer (t.renderer.write s s.length) :=
      grows_of_groups rfl rfl
    have hbreak : [from' s].filterMap LayoutEvent.break = [] :=
      break_written fun event hmem => List.mem_singleton.mp hmem ▸ hwritten
    have hbuffer : (t.renderer.write s s.length).buffer = [] := hnil
    refine ⟨@Sound.append _ t ht t.parts t.comments [from' s] [.text s] rfl ?_
      hbreak ht.held (made_mono ht.made hsame) hsame ?_, ?_, ?_, rfl⟩
    · simp [hrender, Piece.render]
    · exact addable_written fun event hmem =>
        List.mem_singleton.mp hmem ▸ hwritten
    · rw [Transcriber.origins, Transcriber.origins, hbuffer, hnil]
      simp [horigin]
    · rw [Transcriber.remarks, Transcriber.remarks, hbuffer, hnil]
      simp [(remark_break_of_written hwritten).1]
  · rw [if_neg hempty]
    have hadds := adds_pushText ht hwritten hrender horigin
    exact hadds.advances (advances_breakGroups hadds.sound _)

/-- The breakable that a newline stands for, if any. -/
def ownerOrigins (owner : Option (Nat × Text)) : List Origin :=
  owner.toList.map fun (id, sep) => .breakable id sep

theorem adds_newline (ht : t.Sound) (owner : Option (Nat × Text))
    (hbroken : ∀ entry ∈ owner,
      (t.renderer.group entry.1).wantBreak = true) :
    Adds t (ownerOrigins owner) [] (t.newline owner) ∧
      (t.newline owner).renderer.buffer = [] := by
  obtain ⟨hflush, hempty⟩ := advances_flush ht
  refine ⟨hflush.then ?_, hempty⟩
  have hf := hflush.sound
  replace hbroken : ∀ entry ∈ owner,
      (t.flush.renderer.group entry.1).wantBreak = true :=
    fun entry hentry => hflush.breaks _ (hbroken entry hentry)
  rw [newline]
  dsimp only
  generalize t.flush = f at hempty hf hbroken
  generalize hevent : (owner.elim (LayoutEvent.newline f.renderer.indentation)
    fun entry => .broken entry.1 entry.2 f.renderer.indentation) = event
  have hends : event.endsComment = true ∧ event.remark = none ∧
      event.render = '\n' :: spaces f.renderer.indentation ∧
      [event].filterMap LayoutEvent.break = Hegel.breaks
        [.newline (owner.map Prod.fst) f.renderer.indentation] ∧
      [event].filterMap LayoutEvent.origin = ownerOrigins owner ∧
      ∀ id sep indent, event = .broken id sep indent →
        (f.renderer.group id).wantBreak = true := by
    rw [← hevent]
    cases owner with
    | none => exact ⟨rfl, rfl, rfl, rfl, rfl, (by simp)⟩
    | some owner =>
        refine ⟨rfl, rfl, rfl, rfl, rfl, fun id sep indent h => ?_⟩
        obtain ⟨rfl, -, -⟩ := LayoutEvent.broken.inj h
        exact hbroken owner rfl
  obtain ⟨hends, hremark, hrender, hbreak, horigin, hwant⟩ := hends
  have hparts : f.parts = [] := by
    have hmade := hf.made
    rw [hempty] at hmade
    exact List.forall₂_nil_right_iff.mp hmade
  let r := f.renderer.startLine (owner.map Prod.fst) f.renderer.indentation
  have hsame : Grows f.renderer r := grows_of_groups rfl rfl
  have hsound := @Sound.append r f hf f.parts []
    (f.comments.map LayoutEvent.comment ++ [event])
    [.text f.renderer.pendingComments,
      .newline (owner.map Prod.fst) f.renderer.indentation]
    (List.append_assoc _ _ _)
    (by
      rw [List.flatMap_append, render_comments, hf.held]
      simp [Piece.render, hrender])
    (by
      rw [List.filterMap_append, break_comments, hbreak]
      rfl)
    rfl (made_mono hf.made hsame) hsame
    (addable_line _ hends hremark fun id sep indent h =>
      hsame.breaks (hwant id sep indent h))
  rw [← List.append_assoc] at hsound
  have hbuffer : r.buffer = [] := hempty
  refine ⟨hsound, ?_, ?_, rfl⟩
  · rw [origins, origins, hbuffer, hempty, hparts, List.filterMap_append,
      List.filterMap_append, origin_comments, horigin]
    simp
  · rw [remarks, remarks, hbuffer, hempty, List.filterMap_append,
      List.filterMap_append, remark_comments]
    simp [hremark]

/-- A token that waits is added. -/
theorem adds_push (ht : t.Sound) {r : Renderer} {token : Token}
    (hout : r.out = t.renderer.out)
    (hpending : r.pendingComments = t.renderer.pendingComments)
    (hbuffer : r.buffer = t.renderer.buffer ++ [token])
    (hgrows : Grows t.renderer r) (hmade : Token.Made r [] token) :
    Adds t (token.origins []) token.remark.toList
      { t with renderer := r, parts := t.parts ++ [[]] } := by
  have hlength := ht.made.length_eq
  have hsound := @Sound.append r t ht (t.parts ++ [[]]) t.comments [] []
    (hout.trans (List.append_nil _).symm) rfl rfl
    (ht.held.trans hpending.symm)
    (by
      rw [hbuffer]
      exact List.rel_append (made_mono ht.made hgrows) (.cons hmade .nil))
    hgrows (addable_nil r)
  rw [List.append_nil] at hsound
  refine ⟨hsound, ?_, ?_, hgrows.forceBreak⟩
  · rw [Transcriber.origins, Transcriber.origins, hbuffer,
      List.zipWith_append hlength, List.flatten_append, ← List.append_assoc]
    simp
  · rw [Transcriber.remarks, Transcriber.remarks, hbuffer,
      List.filterMap_append, ← List.append_assoc]
    cases htoken : token.remark <;> simp [htoken]

/-- A breakable that has to wait. -/
theorem adds_pushBreakable (ht : t.Sound) (sep : Text) :
    Adds t [.breakable t.renderer.innermost sep] [] { t with
      renderer := { t.renderer with
        buffer := t.renderer.buffer ++ [Token.breakable sep sep.length
          t.renderer.indentation t.renderer.innermost]
        bufferWidth := t.renderer.bufferWidth + sep.length
        groups := t.renderer.groups.modify t.renderer.innermost fun group =>
          { group with pending := group.pending + 1 } }
      parts := t.parts ++ [[]] } := by
  exact @adds_push t ht { t.renderer with
    buffer := t.renderer.buffer ++ [Token.breakable sep sep.length
      t.renderer.indentation t.renderer.innermost]
    bufferWidth := t.renderer.bufferWidth + sep.length
    groups := t.renderer.groups.modify t.renderer.innermost fun group =>
      { group with pending := group.pending + 1 } } _ rfl rfl rfl
    (grows_modify rfl rfl (fun _ => rfl) fun _ => rfl) rfl

theorem adds_breakable (ht : t.Sound) (sep : Text) :
    Adds t [.breakable t.renderer.innermost sep] [] (t.breakable sep) := by
  rw [breakable]
  by_cases hbroken : (t.renderer.group t.renderer.innermost).wantBreak = true
  · rw [if_pos hbroken]
    refine (adds_newline ht (some (t.renderer.innermost, sep)) ?_).1
    intro entry hentry
    obtain rfl := Option.some.inj hentry
    exact hbroken
  · rw [if_neg hbroken]
    have hpush := adds_pushBreakable ht sep
    exact hpush.advances (advances_breakGroups hpush.sound _)

theorem adds_ifBreak (ht : t.Sound)
    (hopen : t.renderer.innermost < t.renderer.groups.length) (s : Text) :
    Adds t [.ifBreak t.renderer.innermost s] [] (t.ifBreak s) := by
  rw [ifBreak]
  by_cases hbroken : (t.renderer.group t.renderer.innermost).wantBreak = true
  · rw [if_pos hbroken]
    exact adds_textFrom ht ⟨rfl, hbroken⟩ rfl rfl
  · rw [if_neg hbroken]
    exact @adds_push t ht { t.renderer with
      buffer := t.renderer.buffer ++ [.ifBreak s t.renderer.innermost] } _
      rfl rfl rfl (grows_of_groups rfl rfl) ⟨rfl, hopen⟩

theorem adds_comment (ht : t.Sound) (s : Text) :
    Adds t [] [s] (t.comment s) := by
  rw [comment]
  by_cases hempty : t.renderer.buffer.isEmpty = true
  · rw [if_pos hempty]
    have hnil := List.isEmpty_iff.mp hempty
    have hcomment : t.renderer.comment s = { t.renderer with
        pendingComments := t.renderer.pendingComments ++ s } :=
      if_pos hempty
    rw [hcomment]
    let r : Renderer := { t.renderer with
      pendingComments := t.renderer.pendingComments ++ s }
    have hgrows : Grows t.renderer r := grows_of_groups rfl rfl
    have hsound := @Sound.append r t ht t.parts (t.comments ++ [s]) [] []
      (List.append_nil _).symm rfl rfl
      (by
        rw [List.flatten_append, ht.held]
        exact congrArg _ (List.append_nil s))
      (made_mono ht.made hgrows) hgrows (addable_nil _)
    rw [List.append_nil] at hsound
    refine ⟨hsound, (List.append_nil _).symm, ?_, rfl⟩
    rw [Transcriber.remarks, Transcriber.remarks, hnil]
    simp
  · rw [if_neg hempty]
    have hcomment : t.renderer.comment s = { t.renderer with
        buffer := t.renderer.buffer ++ [.comment s] } :=
      if_neg hempty
    rw [hcomment]
    exact @adds_push t ht { t.renderer with
      buffer := t.renderer.buffer ++ [.comment s] } _ rfl rfl rfl
      (grows_of_groups rfl rfl) rfl

/-- An empty delimiter is left out. -/
def delimiterOrigins (s : Text) : List Origin :=
  if s.isEmpty then [] else [.text s]

theorem adds_delimiter (ht : t.Sound) (s : Text) :
    Adds t (delimiterOrigins s) [] (t.delimiter s) := by
  rw [delimiter, delimiterOrigins]
  split_ifs
  · exact (advances_refl ht).adds
  · exact adds_textFrom ht trivial rfl rfl

theorem grows_enterGroup (r : Renderer) (indent : Nat) :
    Grows r (enterGroup r indent) := by
  have hlength : (enterGroup r indent).groups.length = r.groups.length + 1 :=
    List.length_append
  have hold : ∀ id < r.groups.length,
      (enterGroup r indent).group id = r.group id := by
    intro id hid
    exact List.getD_append _ _ _ _ hid
  constructor
  · exact hlength.ge.trans' (Nat.le_succ _)
  · intro id hid
    rw [hold id hid]
  · intro id hid
    rw [hold id hid]
  · rfl
  · intro id hlt hle
    obtain rfl : id = r.groups.length := by omega
    have hnew : (enterGroup r indent).group r.groups.length =
        ⟨(r.group r.innermost).depth + 1, indent, 0,
          r.forceBreak.getD r.groups.length false,
          r.forceBreak.getD r.groups.length false⟩ := by
      rw [enterGroup, Renderer.group, List.getD_append_right _ _ _ _ le_rfl,
        Nat.sub_self]
      rfl
    rw [Forced, hnew]
    exact ⟨rfl, id⟩

theorem adds_beginGroup (ht : t.Sound) (indent : Nat) (opening : Text) :
    Adds t (delimiterOrigins opening) [] (t.beginGroup indent opening) := by
  have hdelimiter := adds_delimiter ht opening
  exact hdelimiter.advances (hdelimiter.sound.congr rfl rfl rfl
    (grows_enterGroup _ indent))

theorem adds_freshLine (ht : t.Sound) (comment : Bool) :
    Adds t [] [] (t.freshLine comment) := by
  rw [freshLine]
  split_ifs
  · exact (adds_newline ht none (by simp)).1
  · exact (advances_refl ht).adds

theorem advances_leaveQueue (ht : t.Sound) (id : Nat) :
    Advances t (t.leaveQueue id) := by
  rw [leaveQueue]
  split_ifs
  · exact ht.congr rfl rfl rfl (grows_of_groups rfl rfl)
  · exact advances_refl ht

/-- Closing a group adds its closing text, which is trimmed if there was a
comment in the group. -/
theorem adds_endGroup (ht : t.Sound) {id : Nat} {outer : List Nat}
    (hstack : t.renderer.groupStack = id :: outer)
    (hid : id < t.renderer.groups.length) (hne : id ≠ 0) {close : Text}
    (hend : t.endGroup close = .ok t') :
    Adds t (delimiterOrigins
      (if t.renderer.forceBreak.getD id false then trimStart close
        else close)) [] t' := by
  rw [endGroup, hstack] at hend
  cases outer with
  | nil => cases hend
  | cons parent rest =>
      obtain rfl := Except.ok.inj hend
      have hleave := ht.congr (r := leaveGroup t.renderer (parent :: rest)
        (t.renderer.group id).indent) rfl rfl rfl (grows_of_groups rfl rfl)
      have hline := adds_freshLine hleave.sound (t.renderer.group id).comment
      have hqueue := advances_leaveQueue hline.sound id
      rw [(ht.forced id hid hne).1] at hqueue hline ⊢
      exact (hleave.then (hline.advances hqueue)).trans
        (adds_delimiter hqueue.sound _)

end Operations

end Transcriber

def Cmd.remark : Cmd → Option Text
  | .comment s => some s
  | _ => none

open Transcriber (delimiterOrigins) in
/-- What a document consists of besides comments and fixed newlines, given the
groups that are forced to break, the open groups and the number of the next
one.  The closing text of a group that is forced to break is trimmed. -/
def docOrigins (force : List Bool) : List Nat → Nat → List Cmd → List Origin
  | _, _, [] => []
  | stack, next, .text s :: rest => .text s :: docOrigins force stack next rest
  | stack, next, .breakable sep :: rest =>
      .breakable (stack.headD 0) sep :: docOrigins force stack next rest
  | stack, next, .ifBreak s :: rest =>
      .ifBreak (stack.headD 0) s :: docOrigins force stack next rest
  | stack, next, .beginGroup _ opening :: rest =>
      delimiterOrigins opening ++
        docOrigins force (next :: stack) (next + 1) rest
  | stack, next, .endGroup close :: rest =>
      delimiterOrigins (if force.getD (stack.headD 0) false then
          trimStart close else close) ++
        docOrigins force stack.tail next rest
  | stack, next, _ :: rest => docOrigins force stack next rest

namespace Transcriber

section Run

/-- Between the commands of a document. -/
structure Ready (force : List Bool) (opened : Nat) (t : Transcriber) :
    Prop where
  sound : t.Sound
  settled : t.renderer.Settled
  forceBreak : t.renderer.forceBreak = force
  rooted : t.renderer.groupStack.getLast? = some 0
  opened : t.renderer.groupStack.length = opened + 1

variable {force : List Bool} {opened opened' : Nat} {t : Transcriber}

theorem Ready.mem (ht : t.Ready force opened) :
    ∀ id ∈ t.renderer.groupStack, id < t.renderer.groups.length :=
  fun id hid => ht.settled.known id
    (List.mem_append_left _ (List.mem_append_right _ hid))

/-- The innermost group is open. -/
theorem Ready.innermost_mem (ht : t.Ready force opened) :
    t.renderer.innermost ∈ t.renderer.groupStack := by
  rw [Renderer.innermost]
  cases hstack : t.renderer.groupStack with
  | nil => exact absurd hstack ht.settled.inhabited
  | cons id outer => exact List.mem_cons_self

/-- A group in another one is not the outermost one. -/
theorem Ready.nested (ht : t.Ready force opened) {id parent : Nat}
    {rest : List Nat} (hopen : t.renderer.groupStack = id :: parent :: rest) :
    id ≠ 0 ∧ id < t.renderer.groups.length := by
  refine ⟨?_, ht.mem id (hopen ▸ List.mem_cons_self)⟩
  rintro rfl
  have hrooted := ht.rooted
  rw [hopen, List.getLast?_cons_cons] at hrooted
  have hstacked := ht.settled.stacked
  rw [hopen] at hstacked
  exact Nat.lt_irrefl _ ((List.pairwise_cons.mp hstacked).1 0
    (List.mem_of_getLast? hrooted))

theorem ready_execute (ht : t.Ready force opened) {cmd : Cmd}
    (hopened : groupsAfter opened cmd = some opened') :
    ∃ t', t.execute cmd = .ok t' ∧ t'.Ready force opened' ∧
      t'.remarks = t.remarks ++ cmd.remark.toList ∧
      ∀ rest, t'.origins ++ docOrigins force t'.renderer.groupStack
          t'.renderer.groups.length rest =
        t.origins ++ docOrigins force t.renderer.groupStack
          t.renderer.groups.length (cmd :: rest) := by
  -- most commands neither open nor close a group
  have hkeep : ∀ {t' : Transcriber} {origins : List Origin}
      {remarks : List Text}, Adds t origins remarks t' →
      t'.renderer.Settled → Renderer.SameNesting t.renderer t'.renderer →
      t'.Ready force opened ∧ ∀ rest,
        t'.origins ++ docOrigins force t'.renderer.groupStack
            t'.renderer.groups.length rest =
          t.origins ++ (origins ++ docOrigins force t.renderer.groupStack
            t.renderer.groups.length rest) := by
    intro t' origins remarks hadds hsettled hnesting
    refine ⟨⟨hadds.sound, hsettled, hadds.forceBreak.trans ht.forceBreak, ?_,
      ?_⟩, fun rest => ?_⟩
    · rw [hnesting.groupStack]
      exact ht.rooted
    · rw [hnesting.groupStack]
      exact ht.opened
    · rw [hnesting.groupStack, hnesting.length, hadds.origins,
        List.append_assoc]
  cases cmd with
  | text s =>
      obtain rfl := Option.some.inj hopened
      obtain ⟨hsettled, hcontinues⟩ := Renderer.settled_text ht.settled s
      rw [← renderer_textFrom t .text s] at hsettled hcontinues
      have hadds := @adds_textFrom t ht.sound .text s _ trivial rfl rfl
      obtain ⟨hready, horigins⟩ := hkeep hadds hsettled hcontinues.nesting
      exact ⟨_, rfl, hready, hadds.remarks, horigins⟩
  | ifBreak s =>
      obtain rfl := Option.some.inj hopened
      obtain ⟨hsettled, hcontinues⟩ := Renderer.settled_ifBreak ht.settled s
      rw [← renderer_ifBreak] at hsettled hcontinues
      have hadds := adds_ifBreak ht.sound
        (ht.mem _ ht.innermost_mem) s
      obtain ⟨hready, horigins⟩ := hkeep hadds hsettled hcontinues.nesting
      exact ⟨_, rfl, hready, hadds.remarks, horigins⟩
  | comment s =>
      obtain rfl := Option.some.inj hopened
      obtain ⟨hsettled, hcontinues⟩ := Renderer.settled_comment ht.settled s
      rw [← renderer_comment] at hsettled hcontinues
      have hadds := adds_comment ht.sound s
      obtain ⟨hready, horigins⟩ := hkeep hadds hsettled hcontinues.nesting
      exact ⟨_, rfl, hready, hadds.remarks, horigins⟩
  | splice id =>
      obtain rfl := Option.some.inj hopened
      obtain ⟨hready, horigins⟩ := hkeep (advances_refl ht.sound).adds
        ht.settled (Renderer.sameNesting_refl _)
      exact ⟨_, rfl, hready, (List.append_nil _).symm, horigins⟩
  | shiftIndent delta =>
      obtain rfl := Option.some.inj hopened
      obtain ⟨hsettled, hcontinues⟩ := @Renderer.Settled.congr t.renderer
        { t.renderer with indentation := t.renderer.indentation + delta }
        ht.settled rfl rfl rfl rfl rfl
      have hadds := (ht.sound.congr (r := { t.renderer with
        indentation := t.renderer.indentation + delta }) rfl rfl rfl
        (grows_of_groups rfl rfl)).adds
      obtain ⟨hready, horigins⟩ := hkeep hadds hsettled hcontinues.nesting
      exact ⟨_, rfl, hready, hadds.remarks, horigins⟩
  | hardBreak =>
      obtain rfl := Option.some.inj hopened
      obtain ⟨hsettled, hnesting, -⟩ :=
        @Renderer.settled_newline _ ht.settled none (by simp)
      rw [← show (t.newline none).renderer = t.renderer.newline none from
        t.renderer_newline none] at hsettled hnesting
      have hadds := (adds_newline ht.sound none (by simp)).1
      obtain ⟨hready, horigins⟩ := hkeep hadds hsettled hnesting
      exact ⟨_, rfl, hready, hadds.remarks, horigins⟩
  | breakable sep =>
      obtain rfl := Option.some.inj hopened
      obtain ⟨hsettled, hnesting, -⟩ := Renderer.settled_breakable ht.settled sep
      rw [← renderer_breakable] at hsettled hnesting
      have hadds := adds_breakable ht.sound sep
      obtain ⟨hready, horigins⟩ := hkeep hadds hsettled hnesting
      exact ⟨_, rfl, hready, hadds.remarks, horigins⟩
  | beginGroup indent opening =>
      obtain rfl := Option.some.inj hopened
      obtain ⟨hsettled, hstack, hlength, -⟩ :=
        Renderer.settled_beginGroup ht.settled indent opening
      rw [← renderer_beginGroup] at hsettled hstack hlength
      have hadds := adds_beginGroup ht.sound indent opening
      refine ⟨_, rfl, ⟨hadds.sound, hsettled,
        hadds.forceBreak.trans ht.forceBreak, ?_, ?_⟩, hadds.remarks,
        fun rest => ?_⟩
      · rw [hstack, List.getLast?_cons, ht.rooted]
        rfl
      · rw [hstack, List.length_cons, ht.opened]
      · rw [hstack, hlength, hadds.origins, List.append_assoc]
        rfl
  | endGroup close =>
      cases opened with
      | zero => cases hopened
      | succ opened =>
          obtain rfl := Option.some.inj hopened
          obtain ⟨r', hend⟩ := Renderer.endGroup_ok ht.opened close
          obtain ⟨hsettled, hstack, hlength, -⟩ :=
            Renderer.settled_endGroup ht.settled hend
          rw [← renderer_endGroup] at hend
          cases hdone : t.endGroup close with
          | error e =>
              rw [hdone] at hend
              cases hend
          | ok t' =>
              rw [hdone] at hend
              obtain rfl := Except.ok.inj hend
              -- the group on top is not the outermost one
              obtain ⟨id, parent, rest, hopen⟩ : ∃ id parent rest,
                  t.renderer.groupStack = id :: parent :: rest := by
                have hlength := ht.opened
                rcases hopen : t.renderer.groupStack with
                  - | ⟨id, - | ⟨parent, rest⟩⟩
                · rw [hopen] at hlength
                  cases hlength
                · rw [hopen] at hlength
                  cases hlength
                · exact ⟨id, parent, rest, rfl⟩
              have hrooted := ht.rooted
              rw [hopen, List.getLast?_cons_cons] at hrooted
              obtain ⟨hne, hid⟩ := ht.nested hopen
              have hadds := adds_endGroup ht.sound hopen hid hne hdone
              rw [ht.forceBreak] at hadds
              refine ⟨t', hdone, ⟨hadds.sound, hsettled,
                hadds.forceBreak.trans ht.forceBreak, ?_, ?_⟩, hadds.remarks,
                fun rest => ?_⟩
              · rw [hstack, hopen]
                exact hrooted
              · rw [hstack, List.length_tail, ht.opened]
                rfl
              · rw [hstack, hlength, hadds.origins, List.append_assoc, hopen]
                rfl

/-- Executing a document that closes no group too many adds it. -/
theorem ready_run (ht : t.Ready force opened) {cmds : List Cmd}
    (hcloses : Closes opened cmds = true) :
    ∃ t' opened', t.run cmds = .ok t' ∧ t'.Ready force opened' ∧
      t'.remarks = t.remarks ++ cmds.filterMap Cmd.remark ∧
      t'.origins = t.origins ++ docOrigins force t.renderer.groupStack
        t.renderer.groups.length cmds := by
  induction cmds generalizing t opened with
  | nil => exact ⟨t, opened, rfl, ht, (List.append_nil _).symm,
      (List.append_nil _).symm⟩
  | cons cmd rest ih =>
      rw [Closes, List.foldlM_cons] at hcloses
      cases hopened : groupsAfter opened cmd with
      | none =>
          rw [hopened] at hcloses
          cases hcloses
      | some opened' =>
          rw [hopened] at hcloses
          obtain ⟨t', hok, ht', hremarks, horigins⟩ := ready_execute ht hopened
          obtain ⟨t'', last, hrun, hlast, hremarks', horigins'⟩ :=
            ih ht' hcloses
          refine ⟨t'', last, ?_, hlast, ?_, horigins'.trans (horigins rest)⟩
          · rw [run, List.foldlM_cons, hok]
            exact hrun
          · rw [hremarks', hremarks, List.append_assoc, List.filterMap_cons]
            cases cmd.remark <;> rfl

theorem ready_new (maxWidth : Nat) (force : List Bool) :
    (new maxWidth force).Ready force 0 := by
  refine ⟨⟨rfl, rfl, rfl, .nil, List.isChain_nil, nofun, nofun, nofun, nofun,
    nofun, nofun, ?_⟩, Renderer.settled_new maxWidth force, rfl, rfl, rfl⟩
  intro id hid hne
  exact absurd (Nat.lt_one_iff.mp hid) hne

end Run

end Transcriber

/-- The groups of a document that are forced to break. -/
def forcedGroups (cmds : List Cmd) : List Bool :=
  (markCommentGroups [] 0 cmds ([false], [])).1

/-- What a transcript says of a document and of what is laid out, some groups
being broken in the end. -/
structure Transcribes (cmds : List Cmd) (pieces : List Piece)
    (broken : Nat → Bool) (events : List LayoutEvent) : Prop where
  rendered : events.flatMap LayoutEvent.render = pieces.flatMap Piece.render
  breaks : events.filterMap LayoutEvent.break = breaks pieces
  origins : events.filterMap LayoutEvent.origin =
    docOrigins (forcedGroups cmds) [0] 1 cmds
  remarks : events.filterMap LayoutEvent.remark = cmds.filterMap Cmd.remark
  followed : events.IsChain LayoutEvent.Follows
  decides : ∀ id b, (id, b) ∈ Hegel.breaks pieces → b = broken id
  forced : ∀ id b, (id, b) ∈ Hegel.breaks pieces → id ≠ 0 →
    (forcedGroups cmds).getD id false = true → b = true
  shown : ∀ id s, .ifBreak id s true ∈ events → broken id = true
  hidden : ∀ id s, .ifBreak id s false ∈ events → (broken id = true ↔
    List.Sublist [.ifBreak id s false, .decided id] events)
  timely : ∀ id sep indent s,
    ¬ List.Sublist [.broken id sep indent, .ifBreak id s false] events

open Transcriber in
/-- Every document that closes no group too many has a transcript. -/
theorem transcript_transcribes (maxWidth : Nat) (slots : List Slot)
    (main : List Cmd)
    (hbalanced : Closes 0 (inlined slots slots.length main) = true) :
    ∃ pieces t, layOut maxWidth slots main = .ok pieces ∧
      (new maxWidth (forcedGroups (inlined slots slots.length main))).run
        (inlined slots slots.length main) = .ok t ∧
      transcript maxWidth slots main = .ok t.finish ∧
      Transcribes (inlined slots slots.length main) pieces
        (fun id => (t.flush.renderer.group id).wantBreak) t.finish := by
  rw [layOut_inlined, transcript]
  generalize inlined slots slots.length main = cmds at hbalanced
  obtain ⟨t, opened, hrun, ht, hremarks, horigins⟩ :=
    ready_run (ready_new maxWidth (forcedGroups cmds)) hbalanced
  obtain ⟨hflush, hempty⟩ := advances_flush ht.sound
  have hsound := hflush.sound
  have hparts : t.flush.parts = [] := by
    have hmade := hsound.made
    rw [hempty] at hmade
    exact List.forall₂_nil_right_iff.mp hmade
  have hsettled : t.flush.renderer.Settled := by
    rw [renderer_flush]
    exact (Renderer.settled_flush ht.settled).1
  have hlaid : layOut maxWidth [] cmds = .ok (t.flush.renderer.out ++
      [.text t.flush.renderer.pendingComments]) := by
    have hrenderer := renderer_run (new maxWidth (forcedGroups cmds)) cmds
    rw [hrun] at hrenderer
    rw [renderer_flush, layOut]
    dsimp only [List.length_nil]
    rw [show Renderer.new maxWidth (markCommentGroups [] 0 cmds
      ([false], [])).1 = (new maxWidth (forcedGroups cmds)).renderer from rfl,
      ← hrenderer]
    rfl
  have hbreaks : breaks (t.flush.renderer.out ++
      [.text t.flush.renderer.pendingComments]) =
        breaks t.flush.renderer.out := by
    rw [breaks_append]
    exact List.append_nil _
  refine ⟨_, t, hlaid, hrun, ?_, ?_⟩
  · exact congrArg (Except.map finish) hrun
  · have hmem : ∀ {event : LayoutEvent}, event.remark = none →
        (event ∈ t.finish ↔ event ∈ t.flush.events) := by
      intro event hremark
      rw [finish, List.mem_append]
      refine or_iff_left fun h => ?_
      obtain ⟨s, -, rfl⟩ := List.mem_map.mp h
      cases hremark
    constructor
    · rw [finish, List.flatMap_append, render_comments, hsound.rendered,
        hsound.held, List.flatMap_append]
      simp [Piece.render]
    · rw [finish, List.filterMap_append, break_comments, List.append_nil,
        hbreaks, hsound.breaks]
    · have hall := hflush.origins.trans horigins
      rw [Transcriber.origins, hempty, hparts] at hall
      rw [finish, List.filterMap_append, origin_comments]
      exact hall
    · have hall := hflush.remarks.trans hremarks
      rw [Transcriber.remarks, hempty] at hall
      rw [finish, List.filterMap_append, remark_comments]
      exact (List.append_nil _).symm.trans hall
    · have hcomments := @follows_comments t.flush.comments (.newline 0) rfl
      apply hsound.followed.append hcomments.left_of_append
      intro event hlast next _ hsome
      rw [hsound.finished event hlast] at hsome
      cases hsome
    · intro id b hid
      rw [hbreaks] at hid
      cases b with
      | true => exact (hsettled.broken id hid).symm
      | false => exact (hsettled.flat id hid).symm
    · intro id b hid hne hforce
      rw [hbreaks] at hid
      have hlt := hsettled.written _ hid
      obtain ⟨hcomment, hwant⟩ := hsound.forced id hlt hne
      rw [hflush.forceBreak, ht.forceBreak, hforce] at hcomment
      cases b with
      | true => rfl
      | false => exact (hsettled.flat id hid).symm.trans (hwant hcomment)
    · exact fun id s hid => hsound.shown id s ((hmem rfl).mp hid)
    · intro id s hid
      rw [hsound.decided id s ((hmem rfl).mp hid), finish, pair_sublist_append]
      have hnone : ∀ event ∈ t.flush.comments.map LayoutEvent.comment,
          event ≠ .decided id := by
        rintro event hevent rfl
        obtain ⟨s, -, hs⟩ := List.mem_map.mp hevent
        cases hs
      constructor
      · exact .inl
      · rintro (h | ⟨-, h⟩ | h)
        · exact h
        · exact absurd rfl (hnone _ h)
        · exact absurd rfl (hnone _ (h.subset (by simp)))
    · intro id sep indent s hsub
      have hnone : ∀ event ∈ t.flush.comments.map LayoutEvent.comment,
          event ≠ .ifBreak id s false := by
        rintro event hevent rfl
        obtain ⟨s, -, hs⟩ := List.mem_map.mp hevent
        cases hs
      rw [finish, pair_sublist_append] at hsub
      rcases hsub with h | ⟨-, h⟩ | h
      · exact hsound.timely id sep indent s h
      · exact hnone _ h rfl
      · exact hnone (.ifBreak id s false) (h.subset (by simp)) rfl

end Hegel
