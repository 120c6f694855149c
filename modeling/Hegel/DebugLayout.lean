/-
Laying out a debug representation.  Where the lines are long enough the text
comes out as it is; elsewhere some of its spaces become a newline and an
indentation, each after a comma or after the opening brace of a struct.
-/
import Hegel.DebugSource
import Hegel.InlinePrinting
import Hegel.TextPreservation

namespace Hegel

/-- A text, given what comes before it from its end on, and what becomes of it
when it is wrapped. -/
inductive Wrapped : Text → Text → Text → Prop where
  | done (before : Text) : Wrapped before [] []
  | keep {before s out : Text} {c : Char} (rest : Wrapped (c :: before) s out) :
      Wrapped before (c :: s) (c :: out)
  | wrap {before s out : Text} (indent : Nat) (hbefore : MayBreak before)
      (rest : Wrapped (' ' :: before) s out) :
      Wrapped before (' ' :: s) ('\n' :: List.replicate indent ' ' ++ out)

/-- The command that an origin is from. -/
def Origin.cmd : Origin → Cmd
  | .text s => .text s
  | .ifBreak _ s => .ifBreak s
  | .breakable _ sep => .breakable sep

section Wrapping

variable {before s out : Text}

theorem Wrapped.append (prior : Text)
    (hrest : Wrapped (prior.reverse ++ before) s out) :
    Wrapped before (prior ++ s) (prior ++ out) := by
  induction prior generalizing before with
  | nil => exact hrest
  | cons c rest ih =>
      refine .keep (ih ?_)
      rw [List.reverse_cons, List.append_assoc] at hrest
      exact hrest

/-- What no transcript of a plain document has. -/
def LayoutEvent.Plain (event : LayoutEvent) : Prop :=
  event.remark = none ∧ ∀ indent, event ≠ .newline indent

theorem wrapped_of_placed {events : List LayoutEvent}
    (hplain : ∀ event ∈ events, event.Plain)
    (hplaced : Placed before
      ((events.filterMap LayoutEvent.origin).map Origin.cmd)) :
    Wrapped before
      (flatText ((events.filterMap LayoutEvent.origin).map Origin.cmd))
      (events.flatMap LayoutEvent.render) := by
  induction events generalizing before with
  | nil => exact .done before
  | cons event rest ih =>
      have hrest : ∀ event ∈ rest, event.Plain :=
        fun e he => hplain e (List.mem_cons_of_mem _ he)
      obtain ⟨hremark, hline⟩ := hplain event List.mem_cons_self
      cases event with
      | text s => exact (ih hrest hplaced).append s
      | ifBreak id s shown => exact hplaced.elim
      | comment s => cases hremark
      | broken id sep indent =>
          obtain ⟨rfl, hmay, hplaced⟩ := hplaced
          exact .wrap indent.toNat hmay (ih hrest hplaced)
      | flat id sep =>
          obtain ⟨rfl, hmay, hplaced⟩ := hplaced
          exact .keep (ih hrest hplaced)
      | newline indent => exact absurd rfl (hline indent)
      | decided id => exact ih hrest hplaced

/-- Where nothing breaks the text stays as it is. -/
theorem flat_of_unbroken {events : List LayoutEvent}
    (hplain : ∀ event ∈ events, event.Plain)
    (hplaced : Placed before
      ((events.filterMap LayoutEvent.origin).map Origin.cmd))
    (hunbroken : ∀ id sep indent, .broken id sep indent ∉ events) :
    events.flatMap LayoutEvent.render =
      flatText ((events.filterMap LayoutEvent.origin).map Origin.cmd) := by
  induction events generalizing before with
  | nil => rfl
  | cons event rest ih =>
      have hrest : ∀ event ∈ rest, event.Plain :=
        fun e he => hplain e (List.mem_cons_of_mem _ he)
      have hunbroken' : ∀ id sep indent, .broken id sep indent ∉ rest :=
        fun id sep indent h =>
          hunbroken id sep indent (List.mem_cons_of_mem _ h)
      obtain ⟨hremark, hline⟩ := hplain event List.mem_cons_self
      cases event with
      | text s => exact congrArg (s ++ ·) (ih hrest hplaced hunbroken')
      | ifBreak id s shown => exact hplaced.elim
      | comment s => cases hremark
      | broken id sep indent =>
          exact absurd List.mem_cons_self (hunbroken id sep indent)
      | flat id sep =>
          exact congrArg (sep ++ ·) (ih hrest hplaced.2.2 hunbroken')
      | newline indent => exact absurd rfl (hline indent)
      | decided id => exact ih hrest hplaced hunbroken'

theorem placed_text (s : Text) (cmds : List Cmd) :
    Placed before ((Transcriber.delimiterOrigins s).map Origin.cmd ++ cmds) ↔
      Placed (s.reverse ++ before) cmds := by
  rw [Transcriber.delimiterOrigins]
  by_cases hempty : s.isEmpty = true
  · rw [if_pos hempty, List.isEmpty_iff.mp hempty]
    rfl
  · rw [if_neg hempty]
    rfl

theorem flatText_delimiter (s : Text) :
    flatText ((Transcriber.delimiterOrigins s).map Origin.cmd) = s := by
  rw [Transcriber.delimiterOrigins]
  by_cases hempty : s.isEmpty = true
  · rw [if_pos hempty, List.isEmpty_iff.mp hempty]
    rfl
  · rw [if_neg hempty]
    exact List.append_nil s

/-- Without groups that are forced to break, a document consists of what its
commands are when nothing breaks. -/
theorem placed_docOrigins {force : List Bool}
    (hforce : ∀ id, force.getD id false = false) (stack : List Nat)
    (next : Nat) {cmds : List Cmd} (hplaced : Placed before cmds) :
    Placed before ((docOrigins force stack next cmds).map Origin.cmd) ∧
      flatText ((docOrigins force stack next cmds).map Origin.cmd) =
        flatText cmds := by
  induction cmds generalizing before stack next with
  | nil => exact ⟨trivial, rfl⟩
  | cons cmd rest ih =>
      cases cmd with
      | text s =>
          obtain ⟨hrest, hflat⟩ := ih stack next hplaced
          exact ⟨hrest, congrArg (s ++ ·) hflat⟩
      | breakable sep =>
          obtain ⟨hsep, hmay, hplaced⟩ := hplaced
          obtain ⟨hrest, hflat⟩ := ih stack next hplaced
          exact ⟨⟨hsep, hmay, hrest⟩, congrArg (sep ++ ·) hflat⟩
      | beginGroup indent opening =>
          obtain ⟨hrest, hflat⟩ := ih (next :: stack) (next + 1) hplaced
          rw [docOrigins, List.map_append, placed_text, flatText_append,
            flatText_delimiter, hflat]
          exact ⟨hrest, rfl⟩
      | endGroup close =>
          obtain ⟨hrest, hflat⟩ := ih stack.tail next hplaced
          rw [docOrigins, hforce, if_neg Bool.false_ne_true, List.map_append,
            placed_text, flatText_append, flatText_delimiter, hflat]
          exact ⟨hrest, rfl⟩
      | _ => exact hplaced.elim

end Wrapping

namespace Transcriber

/-- So far every newline is for a breakable. -/
def Calm (t : Transcriber) : Prop :=
  ∀ indent, .newline indent ∉ t.events

section Calmness

variable {t t' : Transcriber}

/-- Output that goes on starts no line for nothing. -/
theorem Calm.advances (hcalm : t.Calm) (h : Advances t t') : t'.Calm :=
  fun indent hline => hcalm indent (h.lines indent hline)

theorem calm_newline (ht : t.Sound) (hcalm : t.Calm) (owner : Nat × Text) :
    (t.newline (some owner)).Calm := by
  have hflush := hcalm.advances (advances_flush ht).1
  intro indent hline
  rw [newline, List.append_assoc] at hline
  rcases List.mem_append.mp hline with hold | hline
  · exact hflush indent hold
  rcases List.mem_append.mp hline with hcomment | hline
  · obtain ⟨s, -, hs⟩ := List.mem_map.mp hcomment
    cases hs
  · cases List.mem_singleton.mp hline

theorem calm_text (ht : t.Sound) (hcalm : t.Calm) (s : Text) :
    (t.text s).Calm := by
  rw [text, textFrom]
  split_ifs
  · intro indent hline
    rcases List.mem_append.mp hline with hold | hline
    · exact hcalm indent hold
    · cases List.mem_singleton.mp hline
  · have hadds := @adds_pushText t ht .text s _ trivial rfl rfl
    exact fun indent hline => hcalm indent
      ((advances_breakGroups hadds.sound _).lines indent hline)

theorem calm_breakable (ht : t.Sound) (hcalm : t.Calm) (sep : Text) :
    (t.breakable sep).Calm := by
  rw [breakable]
  split_ifs
  · exact calm_newline ht hcalm _
  · have hadds := adds_pushBreakable ht sep
    exact fun indent hline => hcalm indent
      ((advances_breakGroups hadds.sound _).lines indent hline)

theorem calm_delimiter (ht : t.Sound) (hcalm : t.Calm) (s : Text) :
    (t.delimiter s).Calm := by
  rw [delimiter]
  split_ifs
  · exact hcalm
  · exact calm_text ht hcalm s

end Calmness

end Transcriber

namespace Renderer

def Unbroken (r : Renderer) : Prop :=
  ∀ group ∈ r.groups, group.wantBreak = false ∧ group.comment = false

/-- No group breaks, none is forced to, and there is room for so much text. -/
structure Roomy (width : Nat) (r : Renderer) : Prop where
  fits : r.outputWidth + r.bufferWidth + width ≤ r.maxWidth
  unbroken : r.Unbroken
  unforced : ∀ id, r.forceBreak.getD id false = false

section Room

variable {width : Nat} {r : Renderer}

theorem forall_modify {P : Group → Prop} {groups : List Group}
    {f : Group → Group} (hgroups : ∀ group ∈ groups, P group)
    (hf : ∀ group, P group → P (f group)) (id : Nat) :
    ∀ group ∈ groups.modify id f, P group := by
  induction groups generalizing id with
  | nil => rwa [List.modify_nil]
  | cons first rest ih =>
      obtain ⟨hfirst, hrest⟩ := List.forall_mem_cons.mp hgroups
      cases id with
      | zero =>
          rw [List.modify_zero_cons]
          exact List.forall_mem_cons.mpr ⟨hf first hfirst, hrest⟩
      | succ id =>
          rw [List.modify_succ_cons]
          exact List.forall_mem_cons.mpr ⟨hfirst, ih hrest id⟩

theorem Unbroken.group (hr : r.Unbroken) (id : Nat) :
    (r.group id).wantBreak = false ∧ (r.group id).comment = false := by
  rw [Renderer.group, List.getD_eq_getElem?_getD]
  cases hgroup : r.groups[id]? with
  | none => exact ⟨rfl, rfl⟩
  | some group => exact hr group (List.mem_of_getElem? hgroup)

/-- A line that fits is left as it is. -/
theorem breakOuterGroups_of_fits
    (hfits : r.outputWidth + r.bufferWidth ≤ r.maxWidth) :
    r.breakOuterGroups = r := by
  rw [breakOuterGroups]
  cases r.groupQueue.flatten.length with
  | zero => rfl
  | succ rounds => rw [breakGroups, if_neg (Nat.not_lt_of_le hfits)]

theorem roomy_text {s : Text} (hr : r.Roomy (s.length + width)) :
    (r.text s).Roomy width := by
  have hfits := hr.fits
  rw [text]
  split_ifs
  · refine ⟨?_, hr.unbroken, hr.unforced⟩
    dsimp only [write]
    omega
  · rw [breakOuterGroups_of_fits (by dsimp only; omega)]
    refine ⟨?_, hr.unbroken, hr.unforced⟩
    dsimp only
    omega

theorem roomy_breakable {sep : Text} (hr : r.Roomy (sep.length + width)) :
    (r.breakable sep).Roomy width := by
  have hfits := hr.fits
  rw [breakable, if_neg (by rw [(hr.unbroken.group _).1]; simp),
    breakOuterGroups_of_fits (by dsimp only; omega)]
  refine ⟨?_, ?_, hr.unforced⟩
  · dsimp only
    omega
  · apply forall_modify hr.unbroken
    exact fun _ h => h

theorem roomy_delimiter {s : Text} (hr : r.Roomy (s.length + width)) :
    (if s.isEmpty then r else r.text s).Roomy width := by
  by_cases hempty : s.isEmpty = true
  · rw [if_pos hempty]
    rw [List.isEmpty_iff.mp hempty, List.length_nil, Nat.zero_add] at hr
    exact hr
  · rw [if_neg hempty]
    exact roomy_text hr

theorem roomy_beginGroup {opening : Text} (indent : Nat)
    (hr : r.Roomy (opening.length + width)) :
    (r.beginGroup indent opening).Roomy width := by
  have hopened := roomy_delimiter hr
  refine ⟨hopened.fits, ?_, hopened.unforced⟩
  intro group hgroup
  rcases List.mem_append.mp hgroup with hold | hnew
  · exact hopened.unbroken group hold
  · obtain rfl := List.mem_singleton.mp hnew
    exact ⟨hopened.unforced _, hopened.unforced _⟩

theorem roomy_endGroup {close : Text} (hr : r.Roomy (close.length + width))
    {r' : Renderer} (hend : r.endGroup close = .ok r') : r'.Roomy width := by
  rw [endGroup] at hend
  rcases hstack : r.groupStack with - | ⟨id, - | ⟨parent, rest⟩⟩
  · rw [hstack] at hend
    cases hend
  · rw [hstack] at hend
    cases hend
  · rw [hstack] at hend
    dsimp only at hend
    rw [(hr.unbroken.group id).2] at hend
    simp only [Bool.false_and, Bool.false_eq_true, if_false] at hend
    obtain rfl := Except.ok.inj hend
    apply roomy_delimiter
    split_ifs
    · exact ⟨hr.fits, hr.unbroken, hr.unforced⟩
    · exact ⟨hr.fits, hr.unbroken, hr.unforced⟩

theorem unbroken_outputToken (hr : r.Unbroken) (token : Token) :
    (r.outputToken token).Unbroken := by
  cases token with
  | text content contentWidth => exact hr
  | comment content => exact hr
  | ifBreak content id =>
      rw [outputToken]
      split_ifs
      · exact hr
      · exact hr
  | breakable sep sepWidth indent id =>
      have hcount : (r.countOut id).Unbroken := by
        apply forall_modify hr
        exact fun _ h => h
      rw [outputToken]
      dsimp only
      rw [if_neg (by rw [(hcount.group _).1]; simp)]
      split_ifs <;> exact hcount

/-- What waits is written without breaking anything. -/
theorem unbroken_flush (hr : r.Unbroken) : r.flush.Unbroken := by
  have htokens : ∀ (tokens : List Token) {r : Renderer}, r.Unbroken →
      (flushTokens tokens r).Unbroken := by
    intro tokens
    induction tokens with
    | nil => exact id
    | cons token rest ih =>
        refine fun hr => ih (unbroken_outputToken ?_ token)
        exact hr
  exact htokens r.buffer hr

end Room

end Renderer

section Plainness

variable {before : Text} {cmds : List Cmd}

/-- Such commands have no comments and no splices. -/
theorem plain_of_placed (hplaced : Placed before cmds) :
    (∀ s, Cmd.comment s ∉ cmds) ∧ Flat cmds := by
  induction cmds generalizing before with
  | nil => exact ⟨nofun, nofun⟩
  | cons cmd rest ih =>
      have hcons : ∀ {before : Text}, Placed before rest →
          (∀ s, cmd ≠ .comment s) → (∀ id, cmd ≠ .splice id) →
          (∀ s, Cmd.comment s ∉ cmd :: rest) ∧ Flat (cmd :: rest) := by
        intro before hrest hcomment hsplice
        obtain ⟨hcomments, hflat⟩ := ih hrest
        exact ⟨fun s => List.not_mem_cons_of_ne_of_not_mem
            (hcomment s).symm (hcomments s),
          fun id => List.not_mem_cons_of_ne_of_not_mem
            (hsplice id).symm (hflat id)⟩
      cases cmd with
      | text s => exact hcons hplaced (by simp) (by simp)
      | breakable sep => exact hcons hplaced.2.2 (by simp) (by simp)
      | beginGroup indent opening => exact hcons hplaced (by simp) (by simp)
      | endGroup close => exact hcons hplaced (by simp) (by simp)
      | _ => exact hplaced.elim

theorem forcedGroups_of_placed (hplaced : Placed before cmds) (id : Nat) :
    (forcedGroups cmds).getD id false = false := by
  rw [Bool.eq_false_iff, ne_eq, forcedGroups_iff]
  rintro ⟨first, s, last, rfl, -⟩
  exact (plain_of_placed hplaced).1 s
    (List.mem_append_right _ List.mem_cons_self)

end Plainness

namespace Transcriber

section Runs

variable {force : List Bool} {opened opened' : Nat} {t t' : Transcriber}
  {before : Text} {cmds : List Cmd}

theorem calm_endGroup (ht : t.Ready force opened) (hcalm : t.Calm)
    (hforce : ∀ id, force.getD id false = false) {close : Text}
    (hend : t.endGroup close = .ok t') : t'.Calm := by
  rw [endGroup] at hend
  rcases hstack : t.renderer.groupStack with - | ⟨id, - | ⟨parent, rest⟩⟩
  · rw [hstack] at hend
    cases hend
  · rw [hstack] at hend
    cases hend
  · rw [hstack] at hend
    obtain rfl := Except.ok.inj hend
    obtain ⟨hne, hid⟩ := ht.nested hstack
    have hcomment : (t.renderer.group id).comment = false := by
      rw [(ht.sound.forced id hid hne).1, ht.forceBreak]
      exact hforce id
    have hleave := ht.sound.congr (r := leaveGroup t.renderer
      (parent :: rest) (t.renderer.group id).indent) rfl rfl rfl
      (grows_of_groups rfl rfl)
    have hqueue := advances_leaveQueue hleave.sound id
    rw [hcomment, freshLine, if_neg (by simp)]
    exact calm_delimiter hqueue.sound
      ((hcalm.advances hleave).advances hqueue) _

theorem calm_run (ht : t.Ready force opened) (hcalm : t.Calm)
    (hforce : ∀ id, force.getD id false = false) (hplaced : Placed before cmds)
    (hcloses : Closes opened cmds = true) (hrun : t.run cmds = .ok t') :
    t'.Calm := by
  induction cmds generalizing t opened before with
  | nil =>
      obtain rfl := Except.ok.inj hrun
      exact hcalm
  | cons cmd rest ih =>
      rw [Closes, List.foldlM_cons] at hcloses
      cases hopened : groupsAfter opened cmd with
      | none =>
          rw [hopened] at hcloses
          cases hcloses
      | some next =>
          rw [hopened] at hcloses
          obtain ⟨t₁, hok, ht₁, -⟩ := ready_execute ht hopened
          rw [run, List.foldlM_cons, hok] at hrun
          cases cmd with
          | text s =>
              obtain rfl := Except.ok.inj hok
              exact ih ht₁ (calm_text ht.sound hcalm s) hplaced hcloses hrun
          | breakable sep =>
              obtain rfl := Except.ok.inj hok
              exact ih ht₁ (calm_breakable ht.sound hcalm sep) hplaced.2.2
                hcloses hrun
          | beginGroup indent opening =>
              obtain rfl := Except.ok.inj hok
              exact ih ht₁ (calm_delimiter ht.sound hcalm opening) hplaced
                hcloses hrun
          | endGroup close =>
              exact ih ht₁ (calm_endGroup ht hcalm hforce hok) hplaced hcloses
                hrun
          | _ => exact hplaced.elim

end Runs

end Transcriber

namespace Renderer

theorem roomy_run {width : Nat} {r r' : Renderer} {before : Text}
    {cmds : List Cmd} (hplaced : Placed before cmds)
    (hr : r.Roomy ((flatText cmds).length + width))
    (hrun : run [] 0 cmds r = .ok r') : r'.Roomy width := by
  induction cmds generalizing r before with
  | nil =>
      obtain rfl := Except.ok.inj hrun
      rwa [flatText, List.flatMap_nil, List.length_nil, Nat.zero_add] at hr
  | cons cmd rest ih =>
      rw [flatText, List.flatMap_cons, List.length_append, Nat.add_assoc] at hr
      rw [run, List.foldlM_cons] at hrun
      cases cmd with
      | text s => exact ih hplaced (roomy_text hr) hrun
      | breakable sep => exact ih hplaced.2.2 (roomy_breakable hr) hrun
      | beginGroup indent opening =>
          exact ih hplaced (roomy_beginGroup indent hr) hrun
      | endGroup close =>
          rw [execute] at hrun
          cases hend : r.endGroup close with
          | error e =>
              rw [hend] at hrun
              cases hrun
          | ok r₁ =>
              rw [hend] at hrun
              exact ih hplaced (roomy_endGroup hr hend) hrun
      | _ => exact hplaced.elim

theorem roomy_new {maxWidth : Nat} {force : List Bool} {width : Nat}
    (hforce : ∀ id, force.getD id false = false) (hfits : width ≤ maxWidth) :
    (new maxWidth force).Roomy width := by
  refine ⟨?_, ?_, hforce⟩
  · rw [new]
    dsimp only
    omega
  · intro group hgroup
    obtain rfl := List.mem_singleton.mp hgroup
    exact ⟨rfl, rfl⟩

end Renderer

/-- A finished document is printed inline. -/
theorem Document.finish_eq (maxWidth : Nat) {cmds : List Cmd}
    (hflat : Flat cmds) :
    Document.finish maxWidth cmds =
      (layOut maxWidth [] cmds).map fun out => out.flatMap Piece.render := by
  have hplain : (Printer.new maxWidth).Plain := ⟨rfl, rfl, rfl, rfl, rfl⟩
  rw [← Printer.printInline_eq maxWidth hflat, Document.finish, printInline]
  rcases Printer.dispatch_flat hflat hplain rfl with
    ⟨-, herror⟩ | ⟨-, p, hfold, hplain', -⟩
  · rw [herror]
    rfl
  · have hresolve : p.resolve.2 = p := by
      rw [Printer.resolve, if_neg (by simp [hplain'.2.2.1])]
    rw [hfold]
    change p.resolve.2.value.1 = p.value.1
    rw [hresolve]

/-- Commands that print a text lay it out as it is or wrapped. -/
theorem Prints.finish {cmds : List Cmd} {s : Text} (hprints : Prints cmds s)
    (maxWidth : Nat) :
    ∃ out, Document.finish maxWidth cmds = .ok out ∧
      (s.length ≤ maxWidth → out = s) ∧ Wrapped [] s out := by
  have hplaced := hprints.placed []
  obtain ⟨hcomments, hflat⟩ := plain_of_placed hplaced
  have hcloses : Closes 0 cmds = true := by
    rw [Closes, hprints.closed]
    rfl
  have hforce := forcedGroups_of_placed hplaced
  obtain ⟨pieces, t, hlaid, hrun, -, hevents⟩ := transcript_transcribes
    maxWidth [] cmds (by rwa [inlined_flat _ hflat])
  rw [inlined_flat _ hflat] at hrun hevents
  have hcalm : t.flush.Calm := by
    have hnew := Transcriber.ready_new maxWidth (forcedGroups cmds)
    obtain ⟨t', opened, hrun', ht, -⟩ := Transcriber.ready_run hnew hcloses
    obtain rfl := Except.ok.inj (hrun.symm.trans hrun')
    exact (Transcriber.calm_run hnew (by intro _ h; cases h) hforce hplaced hcloses
      hrun).advances
      (Transcriber.advances_flush ht.sound).1
  have hplain : ∀ event ∈ t.finish, event.Plain := by
    intro event hevent
    have hnone : t.finish.filterMap LayoutEvent.remark = [] := by
      rw [hevents.remarks, List.filterMap_eq_nil_iff]
      intro cmd hcmd
      cases cmd with
      | comment s => exact absurd hcmd (hcomments s)
      | _ => rfl
    have hremark := List.filterMap_eq_nil_iff.mp hnone event hevent
    refine ⟨hremark, ?_⟩
    rintro indent rfl
    rw [Transcriber.finish] at hevent
    rcases List.mem_append.mp hevent with hevent | hevent
    · exact hcalm indent hevent
    · obtain ⟨s, -, hs⟩ := List.mem_map.mp hevent
      cases hs
  obtain ⟨horigins, htext⟩ :=
    placed_docOrigins hforce [0] 1 hplaced
  rw [← hevents.origins] at horigins htext
  rw [hprints.flat] at htext
  refine ⟨pieces.flatMap Piece.render, ?_, ?_, ?_⟩
  · rw [Document.finish_eq maxWidth hflat, hlaid]
    rfl
  · intro hfits
    rw [← hevents.rendered, flat_of_unbroken hplain horigins, htext]
    intro id sep indent hbroken
    -- the group would have to break, and none does
    have hroomy : t.renderer.Roomy 0 := by
      have hrenderer := Transcriber.renderer_run
        (Transcriber.new maxWidth (forcedGroups cmds)) cmds
      rw [hrun] at hrenderer
      refine Renderer.roomy_run hplaced (Renderer.roomy_new hforce ?_)
        hrenderer.symm
      rwa [hprints.flat]
    have hunbroken := (Renderer.unbroken_flush hroomy.unbroken).group id
    have hbreak : (id, true) ∈ breaks pieces := by
      rw [← hevents.breaks]
      exact List.mem_filterMap.mpr ⟨_, hbroken, rfl⟩
    have hdecided := hevents.decides id true hbreak
    rw [Transcriber.renderer_flush, hunbroken.1] at hdecided
    cases hdecided
  · rw [← hevents.rendered, ← htext]
    exact wrapped_of_placed hplain horigins

/-- A debug representation is printed as it is where it fits on a line.
Elsewhere the output differs in single spaces, each after a comma or after the
opening brace of a struct, that became a newline and an indentation. -/
theorem printDebugRepr_preserves_text {repr : Text} (hline : '\n' ∉ repr)
    (maxWidth : Nat) :
    ∃ out, Document.finish maxWidth (printDebugRepr repr) = .ok out ∧
      (repr.length ≤ maxWidth → out = repr) ∧ Wrapped [] repr out :=
  (printDebugRepr_prints hline).finish maxWidth

def structRepr : Text :=
  ['S', ' ', '{', ' ', 'a', ':', ' ', '1', ' ', '}']

theorem printDebugRepr_preserves_text_sample :
    Document.finish 9 (printDebugRepr structRepr) =
        .ok ['S', ' ', '{', '\n', ' ', ' ', ' ', ' ', 'a', ':', ' ', '1', ' ',
          '}'] ∧
      Document.finish 10 (printDebugRepr structRepr) = .ok structRepr := by
  obtain ⟨out, hfinish, hout, -⟩ :=
    @printDebugRepr_preserves_text structRepr (by decide) 10
  refine ⟨rfl, ?_⟩
  rw [hfinish, hout (by decide)]

end Hegel
