/-
A group breaks as a whole.  Every operation of the renderer keeps what holds of
the waiting breakables, and those of a document come out in order, each as what
its group decided.
-/
import Hegel.LayoutInvariant
import Hegel.Inlining

namespace Hegel

namespace Renderer

section Loops

variable {r : Renderer}

/-- Only the groups, the queue, the buffer and the output matter. -/
theorem Settled.congr {r' : Renderer} (hr : r.Settled)
    (hgroups : r'.groups = r.groups) (hstack : r'.groupStack = r.groupStack)
    (hqueue : r'.groupQueue = r.groupQueue)
    (hwaiting : waiting r'.buffer = waiting r.buffer)
    (hbreaks : breaks r'.out = breaks r.out) :
    r'.Settled ∧ Continues r r' := by
  have hgroup : r'.group = r.group := by
    funext id
    rw [group, group, hgroups]
  have hqueued : r'.queued = r.queued := by rw [queued, queued, hqueue]
  refine ⟨⟨?_, ?_, ?_⟩,
    ⟨hstack, by rw [hgroups], fun id => by rw [hgroup]⟩, ?_, ?_⟩
  · constructor
    · rw [hgroup, hwaiting]
      exact hr.counted
    · rw [hwaiting, hstack, hqueued, hgroups]
      exact hr.known
    · rw [hbreaks, hgroups]
      exact hr.written
    · rw [Levelled, hgroup, hqueue]
      exact hr.levelled
    · rw [hgroup, hwaiting]
      exact hr.nested
    · rw [hgroup, hwaiting, hstack]
      exact hr.opened
    · rw [hgroup, hstack]
      exact hr.stacked
    · rw [hstack]
      exact hr.inhabited
    · rw [hgroup, hbreaks]
      exact hr.broken
    · rw [hgroup, hbreaks]
      exact hr.flat
  · rw [hgroup, hwaiting]
    exact hr.unbroken
  · rw [hbreaks, hqueued]
    exact hr.unqueued
  · intro id hid
    rwa [hgroup]
  · rw [order, order, hwaiting, hbreaks]

theorem settled_flush (hr : r.Settled) :
    r.flush.Settled ∧ Continues r r.flush ∧ r.flush.buffer = [] := by
  obtain ⟨hdrained, hcontinues, hempty⟩ := draining_flushTokens hr.draining
  have hsettled : (flushTokens r.buffer r).Settled := by
    apply hdrained.settled
    rw [hempty]
    simp [waiting]
  obtain ⟨hflush, hcontinues'⟩ := hsettled.congr
    (show r.flush.groups = _ from rfl) rfl rfl rfl rfl
  exact ⟨hflush, hcontinues.trans hcontinues', hempty⟩

theorem known_of_wantBreak {id : Nat}
    (hwant : (r.group id).wantBreak = true) : id < r.groups.length := by
  by_contra hle
  rw [group, List.getD_eq_default _ _ (Nat.le_of_not_lt hle)] at hwant
  cases hwant

/-- A newline is written for a group that breaks or for none. -/
theorem settled_newline (hr : r.Settled) {owner : Option Nat}
    (howner : ∀ id ∈ owner, (r.group id).wantBreak = true) :
    (r.newline owner).Settled ∧ SameNesting r (r.newline owner) ∧
      (r.newline owner).order = r.order ++ owner.toList := by
  obtain ⟨hflush, hcontinues, hempty⟩ := settled_flush hr
  have hbreaks : breaks (r.newline owner).out =
      breaks r.flush.out ++ (owner.map fun id => (id, true)).toList := by
    rw [newline, startLine, emitPendingComments]
    dsimp only
    rw [breaks_append, breaks_append, List.append_assoc]
    cases owner <;> rfl
  have hgroup : (r.newline owner).group = r.flush.group := rfl
  have hmem : ∀ id broken, (id, broken) ∈ breaks (r.newline owner).out →
      (id, broken) ∈ breaks r.flush.out ∨
        (broken = true ∧ (r.flush.group id).wantBreak = true) := by
    intro id broken hid
    rw [hbreaks, List.mem_append] at hid
    refine hid.imp_right fun hid => ?_
    cases owner with
    | none => cases hid
    | some other =>
        simp only [Option.map_some, Option.toList_some, List.mem_singleton,
          Prod.mk.injEq] at hid
        obtain ⟨rfl, rfl⟩ := hid
        exact ⟨rfl, hcontinues.breaking id (howner id rfl)⟩
  refine ⟨⟨⟨hflush.counted, hflush.known, ?_, hflush.levelled, hflush.nested,
    hflush.opened, hflush.stacked, hflush.inhabited, ?_, ?_⟩,
    hflush.unbroken, ?_⟩, ?_, ?_⟩
  · rintro ⟨id, broken⟩ hid
    rcases hmem id broken hid with hold | ⟨-, hwant⟩
    · exact hflush.written _ hold
    · exact known_of_wantBreak hwant
  · intro id hid
    rcases hmem id true hid with hold | ⟨-, hwant⟩
    · exact hflush.broken id hold
    · exact hwant
  · intro id hid
    rcases hmem id false hid with hold | ⟨hfalse, -⟩
    · exact hflush.flat id hold
    · cases hfalse
  · intro id hid
    rcases hmem id false hid with hold | ⟨hfalse, -⟩
    · exact hflush.unqueued id hold
    · cases hfalse
  · exact ⟨hcontinues.nesting.groupStack, hcontinues.nesting.length,
      hcontinues.nesting.depth⟩
  · have hwaiting : waiting (r.newline owner).buffer = [] := by
      rw [show (r.newline owner).buffer = [] from hempty]
      rfl
    have horder := hcontinues.order
    rw [order, hempty] at horder
    rw [order, hwaiting, hbreaks, ← horder, List.map_append]
    cases owner <;> simp [waiting]

theorem setWantBreaks (broken : List Nat) (hknown : ∀ id ∈ broken,
      id < r.groups.length) :
    let r' := broken.foldl setWantBreak r
    r'.out = r.out ∧ r'.buffer = r.buffer ∧ r'.groupStack = r.groupStack ∧
      r'.groupQueue = r.groupQueue ∧ r'.groups.length = r.groups.length ∧
      ∀ x, r'.group x = { r.group x with
        wantBreak := (r.group x).wantBreak || decide (x ∈ broken) } := by
  induction broken generalizing r with
  | nil => simp
  | cons id rest ih =>
      have hlength : (r.setWantBreak id).groups.length = r.groups.length :=
        List.length_modify ..
      have hrest : ∀ id' ∈ rest,
          id' < (r.setWantBreak id).groups.length := by
        intro id' hid'
        rw [hlength]
        exact hknown id' (List.mem_cons_of_mem _ hid')
      obtain ⟨hout, hbuffer, hstack, hqueue, hlength', hgroup⟩ := ih hrest
      refine ⟨hout, hbuffer, hstack, hqueue, hlength'.trans hlength, ?_⟩
      intro x
      rw [List.foldl_cons, hgroup,
        group_setWantBreak r x (hknown id List.mem_cons_self)]
      by_cases hx : x = id
      · simp [hx]
      · simp [hx]

/-- Taking a group out of the queue breaks it; without one to take, nothing
changes but that the idle groups break. -/
theorem settled_deq (hr : r.Settled) :
    (r.deq.2 = none → r.deq.1.Settled) ∧ r.deq.1.Draining r.deq.2 ∧
      Continues r r.deq.1 := by
  have hdeq := r.dequeued hr.levelled
  rw [deq]
  dsimp only
  generalize r.deqLevels r.groupQueue = result at hdeq
  obtain ⟨levels, found, broken⟩ := result
  dsimp only at hdeq ⊢
  have hknown : ∀ id ∈ broken,
      id < ({ r with groupQueue := levels } : Renderer).groups.length := by
    intro id hid
    exact hr.known id (List.mem_append_right _ (hdeq.marked id hid).1)
  obtain ⟨hout, hbuffer, hstack, hqueue, hlength, hgroup⟩ :=
    setWantBreaks broken hknown
  generalize broken.foldl setWantBreak { r with groupQueue := levels } = r'
    at hout hbuffer hstack hqueue hlength hgroup
  replace hgroup : ∀ x, r'.group x = { r.group x with
      wantBreak := (r.group x).wantBreak || decide (x ∈ broken) } := hgroup
  have hdepth : (fun id => (r'.group id).depth) =
      fun id => (r.group id).depth := funext fun id => by rw [hgroup]
  have hqueued : ∀ id ∈ r'.queued, id ∈ r.queued ∧ id ∉ broken := by
    intro id hid
    rw [queued, hqueue] at hid
    exact hdeq.left id hid
  have hidle : ∀ id ∈ broken, id ∈ waiting r.buffer → found = some id := by
    intro id hid hwaiting
    refine (hdeq.marked id hid).2.resolve_right fun hpending => ?_
    rw [hr.counted] at hpending
    exact List.count_eq_zero.mp hpending hwaiting
  have hconsistent : r'.Consistent := by
    constructor
    · intro id
      rw [hgroup, hbuffer]
      exact hr.counted id
    · intro id hid
      rw [hbuffer, hstack, List.mem_append] at hid
      rw [hlength]
      apply hr.known id
      exact List.mem_append.mpr (hid.imp_right fun h => (hqueued id h).1)
    · rw [hout, hlength]
      exact hr.written
    · rw [Levelled, hdepth, hqueue]
      exact hdeq.levelled
    · rw [hdepth, hbuffer]
      exact hr.nested
    · rw [hdepth, hbuffer, hstack]
      exact hr.opened
    · rw [hstack]
      refine hr.stacked.imp ?_
      intro inner outer hlt
      rw [hgroup, hgroup]
      exact hlt
    · rw [hstack]
      exact hr.inhabited
    · intro id hid
      rw [hout] at hid
      rw [hgroup, hr.broken id hid, Bool.true_or]
    · intro id hid
      rw [hout] at hid
      have hleft : id ∉ broken := fun h =>
        hr.unqueued id hid (hdeq.marked id h).1
      rw [hgroup, hr.flat id hid, Bool.false_or, decide_eq_false hleft]
  have hunqueued : ∀ id, (id, false) ∈ breaks r'.out → id ∉ r'.queued := by
    intro id hid hmem
    rw [hout] at hid
    exact hr.unqueued id hid (hqueued id hmem).1
  have hunbroken : ∀ id ∈ waiting r'.buffer,
      (r'.group id).wantBreak = true → found = some id := by
    intro id hid hwant
    rw [hbuffer] at hid
    rw [hgroup, hr.unbroken id hid, Bool.false_or, decide_eq_true_eq] at hwant
    exact hidle id hwant hid
  refine ⟨?_, ⟨hconsistent, ?_, hunbroken, ?_, ?_⟩, ?_⟩
  · rintro rfl
    refine ⟨hconsistent, ?_, hunqueued⟩
    intro id hid
    by_contra hwant
    cases hunbroken id hid (by simpa using hwant)
  · intro x hx
    rw [hgroup, decide_eq_true (hdeq.taken x hx).1, Bool.or_true]
  · intro x hx id hid
    rw [queued, hqueue] at hid
    rw [hgroup, hgroup]
    exact (hdeq.taken x hx).2.2 id hid
  · exact fun id hflat hmem => absurd hmem (hunqueued id hflat)
  · refine ⟨⟨hstack, hlength, fun id => by rw [hgroup]⟩, ?_, ?_⟩
    · intro id hid
      rw [hgroup, hid, Bool.true_or]
    · rw [order, order, hout, hbuffer]

/-- Output tokens until nothing of a group that breaks waits, and the text behind
them. -/
theorem settled_drain {id : Nat} (hr : r.Draining (some id)) :
    let drained := popWhile (fun r => (r.group id).pending > 0) r.buffer r
    (popWhile frontIsText drained.buffer drained).Settled ∧
      Continues r (popWhile frontIsText drained.buffer drained) := by
  have hcondition : ∀ r : Renderer,
      decide ((r.group id).pending > 0) = true →
        r.Draining (some id) → ∀ x ∈ some id, x ∈ waiting r.buffer := by
    intro r hpending hr x hx
    obtain rfl := Option.mem_some_iff.mp hx
    rw [decide_eq_true_eq, hr.counted] at hpending
    exact List.count_pos_iff.mp hpending
  obtain ⟨hdrained, hcontinues, hstop⟩ := draining_popWhile hcondition hr
  dsimp only
  generalize popWhile (fun r => decide ((r.group id).pending > 0))
    r.buffer r = drained at hdrained hcontinues hstop
  have hgone : id ∉ waiting drained.buffer := by
    intro hmem
    have hpending : (drained.group id).pending > 0 := by
      rw [hdrained.counted]
      exact List.count_pos_iff.mpr hmem
    rw [hstop (decide_eq_true hpending)] at hmem
    cases hmem
  have hsettled : drained.Settled := by
    apply hdrained.settled
    intro x _
    refine ⟨by simp, fun y hy => ?_⟩
    rwa [← Option.mem_some_iff.mp hy]
  obtain ⟨hend, htext⟩ := settled_popWhile_text hsettled
  exact ⟨hend, hcontinues.trans htext⟩

theorem settled_breakGroups (hr : r.Settled) (rounds : Nat) :
    (breakGroups rounds r).Settled ∧ Continues r (breakGroups rounds r) := by
  induction rounds generalizing r with
  | zero => exact ⟨hr, continues_refl r⟩
  | succ rounds ih =>
      rw [breakGroups]
      by_cases hover : r.outputWidth + r.bufferWidth > r.maxWidth
      · rw [if_pos hover]
        obtain ⟨hnone, hdraining, hcontinues⟩ := settled_deq hr
        generalize r.deq = result at hnone hdraining hcontinues
        obtain ⟨r', found⟩ := result
        cases found with
        | none => exact ⟨hnone rfl, hcontinues⟩
        | some id =>
            obtain ⟨hsettled, hcontinues'⟩ := settled_drain hdraining
            obtain ⟨hend, hcontinues''⟩ := ih hsettled
            exact ⟨hend, (hcontinues.trans hcontinues').trans hcontinues''⟩
      · rw [if_neg hover]
        exact ⟨hr, continues_refl r⟩

end Loops

section Operations

variable {r : Renderer}

theorem settled_write (hr : r.Settled) (content : Text) (width : Nat) :
    (r.write content width).Settled ∧ Continues r (r.write content width) :=
  hr.congr rfl rfl rfl rfl (breaks_write content width)

theorem settled_text (hr : r.Settled) (s : Text) :
    (r.text s).Settled ∧ Continues r (r.text s) := by
  rw [text]
  by_cases hempty : r.buffer.isEmpty = true
  · rw [if_pos hempty]
    exact settled_write hr s s.length
  · rw [if_neg hempty, breakOuterGroups]
    obtain ⟨hpushed, hcontinues⟩ := @Settled.congr r
      { r with
        buffer := pushText s r.buffer
        bufferWidth := r.bufferWidth + s.length }
      hr rfl rfl rfl (waiting_pushText s r.buffer) rfl
    obtain ⟨hbroken, hcontinues'⟩ := settled_breakGroups hpushed _
    exact ⟨hbroken, hcontinues.trans hcontinues'⟩

theorem settled_comment (hr : r.Settled) (s : Text) :
    (r.comment s).Settled ∧ Continues r (r.comment s) := by
  rw [comment]
  by_cases hempty : r.buffer.isEmpty = true
  · rw [if_pos hempty]
    exact hr.congr rfl rfl rfl rfl rfl
  · rw [if_neg hempty]
    refine hr.congr rfl rfl rfl ?_ rfl
    simp [waiting, Token.owner]

theorem settled_ifBreak (hr : r.Settled) (s : Text) :
    (r.ifBreak s).Settled ∧ Continues r (r.ifBreak s) := by
  rw [ifBreak]
  by_cases hbroken : (r.group r.innermost).wantBreak = true
  · rw [if_pos hbroken]
    exact settled_text hr s
  · rw [if_neg hbroken]
    refine hr.congr rfl rfl rfl ?_ rfl
    simp [waiting, Token.owner]

theorem innermost_mem (hr : r.Settled) : r.innermost ∈ r.groupStack := by
  rw [innermost]
  cases hstack : r.groupStack with
  | nil => exact absurd hstack hr.inhabited
  | cons id rest => exact List.mem_cons_self

/-- The innermost group is deeper than all others that are open. -/
theorem le_innermost (hr : r.Settled) {id : Nat} (hid : id ∈ r.groupStack) :
    id = r.innermost ∨ (r.group id).depth < (r.group r.innermost).depth := by
  rw [innermost]
  have hstacked := hr.stacked
  cases hstack : r.groupStack with
  | nil => exact absurd hstack hr.inhabited
  | cons inner outer =>
      rw [hstack] at hid hstacked
      refine (List.mem_cons.mp hid).imp_right fun hid => ?_
      exact (List.pairwise_cons.mp hstacked).1 id hid

/-- A breakable of an open group that does not break may wait. -/
theorem settled_pushBreakable (hr : r.Settled)
    (hbroken : ¬ (r.group r.innermost).wantBreak = true) (sep : Text) :
    let pushed : Renderer := { r with
      buffer := r.buffer ++
        [Token.breakable sep sep.length r.indentation r.innermost]
      bufferWidth := r.bufferWidth + sep.length
      groups := r.groups.modify r.innermost fun group =>
        { group with pending := group.pending + 1 } }
    pushed.Settled ∧ SameNesting r pushed ∧
      (∀ x, pushed.group x = if x = r.innermost then
        { r.group x with pending := (r.group x).pending + 1 }
        else r.group x) ∧
      pushed.order = r.order ++ [r.innermost] := by
  have hinner := innermost_mem hr
  have hknown : r.innermost < r.groups.length := by
    apply hr.known
    simp [hinner]
  dsimp only
  generalize hpushed : ({ r with
    buffer := r.buffer ++
      [Token.breakable sep sep.length r.indentation r.innermost]
    bufferWidth := r.bufferWidth + sep.length
    groups := r.groups.modify r.innermost fun group =>
      { group with pending := group.pending + 1 } } : Renderer) = pushed
  have hgroup : ∀ x, pushed.group x = if x = r.innermost then
      { r.group x with pending := (r.group x).pending + 1 }
      else r.group x := by
    intro x
    rw [← hpushed]
    exact getD_modify (.inl hknown) x
  have hdepth : (fun id => (pushed.group id).depth) =
      fun id => (r.group id).depth := by
    funext id
    rw [hgroup]
    split_ifs <;> rfl
  have hwant : ∀ id,
      (pushed.group id).wantBreak = (r.group id).wantBreak := by
    intro id
    rw [hgroup]
    split_ifs <;> rfl
  have hwaiting : waiting pushed.buffer =
      waiting r.buffer ++ [r.innermost] := by
    rw [← hpushed]
    exact waiting_append _ _
  have hout : pushed.out = r.out := by rw [← hpushed]
  have hstack : pushed.groupStack = r.groupStack := by rw [← hpushed]
  have hqueue : pushed.groupQueue = r.groupQueue := by rw [← hpushed]
  have hlength : pushed.groups.length = r.groups.length := by
    rw [← hpushed]
    exact List.length_modify ..
  refine ⟨⟨⟨?_, ?_, ?_, ?_, ?_, ?_, ?_, ?_, ?_, ?_⟩, ?_, ?_⟩,
    ⟨hstack, hlength, fun id => congrFun hdepth id⟩, hgroup, ?_⟩
  · intro id
    rw [hgroup, hwaiting, List.count_append, List.count_singleton]
    have hcounted := hr.counted id
    by_cases hid : id = r.innermost
    · rw [hid] at hcounted
      simp [hid, hcounted]
    · simp [hid, Ne.symm hid, hcounted]
  · intro id hid
    rw [hlength]
    rw [hwaiting, hstack, queued, hqueue] at hid
    by_cases hinner' : id = r.innermost
    · rwa [hinner']
    · apply hr.known id
      simpa [hinner', queued] using hid
  · rw [hout, hlength]
    exact hr.written
  · rw [Levelled, hdepth, hqueue]
    exact hr.levelled
  · rw [hdepth, hwaiting]
    exact hr.nested.concat hr.opened hinner
  · rw [hdepth, hwaiting, hstack]
    exact hr.opened.concat fun other hother => le_innermost hr hother
  · rw [hstack]
    refine hr.stacked.imp ?_
    intro inner outer hlt
    rw [congrFun hdepth inner, congrFun hdepth outer]
    exact hlt
  · rw [hstack]
    exact hr.inhabited
  · intro id hid
    rw [hout] at hid
    rw [hwant]
    exact hr.broken id hid
  · intro id hid
    rw [hout] at hid
    rw [hwant]
    exact hr.flat id hid
  · intro id hid
    rw [hwant]
    rw [hwaiting, List.mem_append, List.mem_singleton] at hid
    rcases hid with hid | rfl
    · exact hr.unbroken id hid
    · exact Bool.eq_false_iff.mpr hbroken
  · intro id hid
    rw [hout] at hid
    rw [queued, hqueue]
    exact hr.unqueued id hid
  · rw [order, hwaiting, hout, ← List.append_assoc]
    rfl

/-- A breakable either waits or is a newline at once. -/
theorem settled_breakable (hr : r.Settled) (sep : Text) :
    (r.breakable sep).Settled ∧ SameNesting r (r.breakable sep) ∧
      (r.breakable sep).order = r.order ++ [r.innermost] := by
  rw [breakable]
  by_cases hbroken : (r.group r.innermost).wantBreak = true
  · rw [if_pos hbroken]
    apply settled_newline hr
    intro id hid
    rwa [← Option.mem_some_iff.mp hid]
  · rw [if_neg hbroken, breakOuterGroups]
    obtain ⟨hpushed, hnesting, -, horder⟩ :=
      settled_pushBreakable hr hbroken sep
    obtain ⟨hend, hcontinues⟩ := settled_breakGroups hpushed _
    exact ⟨hend, hnesting.trans hcontinues.nesting,
      hcontinues.order.trans horder⟩

/-- A new group has nothing waiting. -/
theorem settled_beginGroup (hr : r.Settled) (indent : Nat) (opening : Text) :
    (r.beginGroup indent opening).Settled ∧
      (r.beginGroup indent opening).groupStack =
        r.groups.length :: r.groupStack ∧
      (r.beginGroup indent opening).groups.length = r.groups.length + 1 ∧
      (r.beginGroup indent opening).order = r.order := by
  have hopening : (if opening.isEmpty then r else r.text opening).Settled ∧
      Continues r (if opening.isEmpty then r else r.text opening) := by
    split_ifs
    · exact ⟨hr, continues_refl r⟩
    · exact settled_text hr opening
  rw [beginGroup]
  dsimp only
  generalize (if opening.isEmpty then r else r.text opening) = opened
    at hopening
  obtain ⟨ho, hcontinues⟩ := hopening
  rw [← hcontinues.nesting.groupStack, ← hcontinues.nesting.length,
    ← hcontinues.order]
  generalize hbegun : ({ opened with
    groups := opened.groups ++ [⟨(opened.group opened.innermost).depth + 1,
      indent, 0, opened.forceBreak.getD opened.groups.length false,
      opened.forceBreak.getD opened.groups.length false⟩]
    groupStack := opened.groups.length :: opened.groupStack
    groupQueue := enqueue opened.groups.length
      ((opened.group opened.innermost).depth + 1) opened.groupQueue
    indentation := opened.indentation + indent } : Renderer) = begun
  have hgroup : ∀ x, x ≠ opened.groups.length →
      begun.group x = opened.group x := by
    intro x hx
    rw [← hbegun, group, group]
    by_cases hlt : x < opened.groups.length
    · exact List.getD_append _ _ _ _ hlt
    · rw [List.getD_eq_default]
      · exact (List.getD_eq_default _ _ (Nat.le_of_not_lt hlt)).symm
      · rw [List.length_append, List.length_singleton]
        omega
  have hnew : (begun.group opened.groups.length).depth =
        (opened.group opened.innermost).depth + 1 ∧
      (begun.group opened.groups.length).pending = 0 := by
    rw [← hbegun, group, List.getD_eq_getElem?_getD]
    simp
  have hfresh : ∀ x ∈ waiting opened.buffer ++ opened.groupStack ++
      opened.queued, x ≠ opened.groups.length :=
    fun x hx => Nat.ne_of_lt (ho.known x hx)
  have hwaiting : ∀ x ∈ waiting opened.buffer, x ≠ opened.groups.length :=
    fun x hx => hfresh x (by simp [hx])
  have hopenDepth : ∀ x ∈ opened.groupStack,
      (begun.group x).depth = (opened.group x).depth :=
    fun x hx => by rw [hgroup x (hfresh x (by simp [hx]))]
  have hqueued : ∀ x ∈ opened.queued, x ≠ opened.groups.length :=
    fun x hx => hfresh x (by simp [hx])
  have hbuffer : begun.buffer = opened.buffer := by rw [← hbegun]
  have hout : begun.out = opened.out := by rw [← hbegun]
  have hstack : begun.groupStack =
      opened.groups.length :: opened.groupStack := by rw [← hbegun]
  have hlength : begun.groups.length = opened.groups.length + 1 := by
    rw [← hbegun]
    simp
  have hlevels : LevelledFrom (fun id => (begun.group id).depth) 0
      opened.groupQueue :=
    ho.levelled.congr fun x hx => by rw [hgroup x (hqueued x hx)]
  obtain ⟨hlevelled, hmem⟩ := hlevels.enqueue
    (hnew.1.trans (Nat.zero_add _).symm)
    (fun h => hqueued _ h rfl)
  have hqueue : begun.groupQueue = enqueue opened.groups.length
      ((opened.group opened.innermost).depth + 1) opened.groupQueue := by
    rw [← hbegun]
  rw [← hqueue] at hlevelled hmem
  have hwritten : ∀ id broken, (id, broken) ∈ breaks opened.out →
      begun.group id = opened.group id :=
    fun id broken hid => hgroup id (Nat.ne_of_lt (ho.written _ hid))
  refine ⟨⟨⟨?_, ?_, ?_, hlevelled, ?_, ?_, ?_, ?_, ?_, ?_⟩, ?_, ?_⟩, rfl,
    List.length_append, ?_⟩
  · intro id
    rw [hbuffer]
    by_cases hid : id = opened.groups.length
    · rw [hid, hnew.2]
      exact (List.count_eq_zero.mpr fun h => hwaiting _ h rfl).symm
    · rw [hgroup id hid]
      exact ho.counted id
  · intro id hid
    rw [hbuffer, hstack, List.mem_append, queued, hmem] at hid
    rw [hlength]
    by_cases hsame : id = opened.groups.length
    · omega
    · apply Nat.lt_succ_of_lt
      apply ho.known id
      simpa [hsame, queued, or_assoc] using hid
  · intro entry hentry
    rw [hout] at hentry
    rw [hlength]
    exact Nat.lt_succ_of_lt (ho.written entry hentry)
  · rw [hbuffer]
    exact ho.nested.congr fun x hx => by rw [hgroup x (hwaiting x hx)]
  · rw [hbuffer, hstack]
    have hopened := ho.opened.congr
      fun x hx => congrArg Group.depth (hgroup x (hwaiting x hx))
    intro id hid before after heq
    rcases List.mem_cons.mp hid with rfl | hid
    · exact absurd rfl (hwaiting _ (by rw [heq]; simp))
    · exact hopened id hid before after heq
  · rw [hstack, List.pairwise_cons]
    constructor
    · intro outer houter
      rw [hnew.1, hopenDepth outer houter]
      rcases le_innermost ho houter with rfl | hlt
      · exact Nat.lt_succ_self _
      · exact Nat.lt_succ_of_lt hlt
    · refine ho.stacked.imp_of_mem ?_
      intro inner outer hinner houter hlt
      rw [hopenDepth inner hinner, hopenDepth outer houter]
      exact hlt
  · rw [hstack]
    exact List.cons_ne_nil _ _
  · intro id hid
    rw [hout] at hid
    rw [hwritten id true hid]
    exact ho.broken id hid
  · intro id hid
    rw [hout] at hid
    rw [hwritten id false hid]
    exact ho.flat id hid
  · intro id hid
    rw [hbuffer] at hid
    rw [hgroup id (hwaiting id hid)]
    exact ho.unbroken id hid
  · intro id hid
    rw [hout] at hid
    rw [queued, hmem]
    rintro (hmem | rfl)
    · exact ho.unqueued id hid hmem
    · exact Nat.lt_irrefl _ (ho.written _ hid)
  · rw [order, order, hbuffer, hout]

theorem settled_queueRemove (hr : r.Settled) (id : Nat) :
    (r.queueRemove id).Settled ∧ Continues r (r.queueRemove id) := by
  obtain ⟨hlevelled, hmem⟩ := hr.levelled.remove (Nat.zero_add _).symm
  refine ⟨⟨⟨hr.counted, ?_, hr.written, hlevelled, hr.nested, hr.opened,
    hr.stacked, hr.inhabited, hr.broken, hr.flat⟩, hr.unbroken, ?_⟩,
    ⟨rfl, rfl, fun _ => rfl⟩, fun _ h => h, rfl⟩
  · intro x hx
    apply hr.known x
    rw [List.mem_append] at hx ⊢
    exact hx.imp_right fun h => ((hmem x).mp h).1
  · exact fun x hx h => hr.unqueued x hx ((hmem x).mp h).1

/-- A group is no longer open. -/
theorem settled_groupStack (hr : r.Settled) {id parent : Nat}
    {rest : List Nat} (hstack : r.groupStack = id :: parent :: rest)
    (indentation : Int) :
    Settled { r with groupStack := parent :: rest, indentation } := by
  have hopened := hr.opened
  have hstacked := hr.stacked
  have hknown := hr.known
  rw [hstack] at hopened hstacked hknown
  refine ⟨⟨hr.counted, ?_, hr.written, hr.levelled, hr.nested, ?_,
    (List.pairwise_cons.mp hstacked).2, List.cons_ne_nil _ _, hr.broken,
    hr.flat⟩, hr.unbroken, hr.unqueued⟩
  · intro x hx
    apply hknown x
    simp only [List.mem_append, List.mem_cons] at hx ⊢
    tauto
  · exact fun x hx => hopened x (List.mem_cons_of_mem _ hx)

/-- Closing a group leaves those around it open. -/
theorem settled_endGroup (hr : r.Settled) {close : Text} {r' : Renderer}
    (hend : r.endGroup close = .ok r') :
    r'.Settled ∧ r'.groupStack = r.groupStack.tail ∧
      r'.groups.length = r.groups.length ∧ r'.order = r.order := by
  rw [endGroup] at hend
  cases hstack : r.groupStack with
  | nil => exact absurd hstack hr.inhabited
  | cons id outer =>
      rw [hstack] at hend
      cases outer with
      | nil => cases hend
      | cons parent rest =>
          obtain rfl := Except.ok.inj hend
          have hclosed := settled_groupStack hr hstack
            (r.indentation - (r.group id).indent)
          generalize hcut : ({ r with
            groupStack := parent :: rest
            indentation := r.indentation - (r.group id).indent } : Renderer) =
              closed at hclosed
          have hstackCut : closed.groupStack = parent :: rest := by
            rw [← hcut]
          have hlengthCut : closed.groups.length = r.groups.length := by
            rw [← hcut]
          have horderCut : closed.order = r.order := by
            rw [← hcut]
            rfl
          have hbroken : ∀ fresh : Bool,
              (if fresh then closed.newline none else closed).Settled ∧
                SameNesting closed
                  (if fresh then closed.newline none else closed) ∧
                (if fresh then closed.newline none else closed).order =
                  closed.order := by
            intro fresh
            cases fresh with
            | false => exact ⟨hclosed, sameNesting_refl closed, rfl⟩
            | true =>
                have hnewline := @settled_newline _ hclosed none (by simp)
                rwa [Option.toList_none, List.append_nil] at hnewline
          obtain ⟨hline, hnesting, horder⟩ := hbroken ((r.group id).comment &&
            !(closed.buffer.isEmpty && closed.atLineStart))
          generalize (if ((r.group id).comment &&
            !(closed.buffer.isEmpty && closed.atLineStart)) = true then
              closed.newline none else closed) = line at hline hnesting horder
          have hremoved : (if (line.group id).pending = 0 then
                line.queueRemove id else line).Settled ∧
              Continues line (if (line.group id).pending = 0 then
                line.queueRemove id else line) := by
            split_ifs
            · exact settled_queueRemove hline id
            · exact ⟨hline, continues_refl line⟩
          generalize (if (line.group id).pending = 0 then
            line.queueRemove id else line) = removed at hremoved
          obtain ⟨hremoved, hcontinues⟩ := hremoved
          have htext : ∀ close : Text,
              (if close.isEmpty then removed else removed.text close).Settled ∧
                Continues removed
                  (if close.isEmpty then removed else removed.text close) := by
            intro close
            split_ifs
            · exact ⟨hremoved, continues_refl removed⟩
            · exact settled_text hremoved close
          obtain ⟨hdone, hcontinues'⟩ := htext
            (if (r.group id).comment then trimStart close else close)
          refine ⟨hdone, ?_, ?_, ?_⟩
          · exact hcontinues'.nesting.groupStack.trans
              (hcontinues.nesting.groupStack.trans
                (hnesting.groupStack.trans hstackCut))
          · exact hcontinues'.nesting.length.trans
              (hcontinues.nesting.length.trans
                (hnesting.length.trans hlengthCut))
          · exact hcontinues'.order.trans
              (hcontinues.order.trans (horder.trans horderCut))

/-- A group can be closed if it is not the outermost one. -/
theorem endGroup_ok {opened : Nat} (hopened : r.groupStack.length = opened + 2)
    (close : Text) : ∃ r', r.endGroup close = .ok r' := by
  rw [endGroup]
  cases hstack : r.groupStack with
  | nil => simp [hstack] at hopened
  | cons id outer =>
      cases outer with
      | nil => simp [hstack] at hopened
      | cons parent rest => exact ⟨_, rfl⟩

end Operations

end Renderer

/-- The group that every breakable of a document belongs to, given the open
groups and the number of the next one. -/
def breakableOwners : List Nat → Nat → List Cmd → List Nat
  | _, _, [] => []
  | stack, next, .breakable _ :: rest =>
      stack.headD 0 :: breakableOwners stack next rest
  | stack, next, .beginGroup _ _ :: rest =>
      breakableOwners (next :: stack) (next + 1) rest
  | stack, next, .endGroup _ :: rest => breakableOwners stack.tail next rest
  | stack, next, _ :: rest => breakableOwners stack next rest

/-- How many groups are open after a command, unless it closes one too many. -/
def groupsAfter (opened : Nat) : Cmd → Option Nat
  | .beginGroup _ _ => some (opened + 1)
  | .endGroup _ => if opened = 0 then none else some (opened - 1)
  | _ => some opened

/-- So many groups being open, none is closed too many. -/
def Closes (opened : Nat) (cmds : List Cmd) : Bool :=
  (cmds.foldlM groupsAfter opened).isSome

namespace Renderer

section Run

variable {r : Renderer}

theorem settled_new (maxWidth : Nat) (forceBreak : List Bool) :
    (new maxWidth forceBreak).Settled := by
  have hgroup : ∀ id, (new maxWidth forceBreak).group id = .root := by
    intro id
    cases id <;> rfl
  refine ⟨⟨?_, ?_, ?_, ?_, ?_, ?_, ?_, ?_, ?_, ?_⟩, ?_, ?_⟩
  · intro id
    rw [hgroup]
    rfl
  · intro id hid
    simpa [new, waiting, queued] using hid
  · simp [new, breaks]
  · exact ⟨⟨List.nodup_singleton 0,
      fun id _ => congrArg Group.depth (hgroup id)⟩, trivial⟩
  · intro before between after id heq
    simp [new, waiting] at heq
  · intro id _ before after heq
    simp [new, waiting] at heq
  · exact List.pairwise_singleton _ _
  · exact List.cons_ne_nil _ _
  · simp [new, breaks]
  · simp [new, breaks]
  · simp [new, waiting]
  · simp [new, breaks]

/-- A command closes a group too many, or it puts its breakable in place. -/
theorem settled_execute (hr : r.Settled) {opened : Nat}
    (hopened : r.groupStack.length = opened + 1) (cmd : Cmd) :
    (groupsAfter opened cmd = none ∧
      execute (fun _ => .ok) [] r cmd = .error .unbalancedGroup) ∨
    ∃ opened' r', groupsAfter opened cmd = some opened' ∧
      execute (fun _ => .ok) [] r cmd = .ok r' ∧ r'.Settled ∧
      r'.groupStack.length = opened' + 1 ∧
      ∀ rest, r'.order ++ breakableOwners r'.groupStack r'.groups.length rest =
        r.order ++ breakableOwners r.groupStack r.groups.length (cmd :: rest) := by
  -- most commands neither open nor close a group nor have a breakable
  have hkeep : ∀ r' : Renderer, SameNesting r r' → r'.order = r.order →
      r'.groupStack.length = opened + 1 ∧ ∀ rest,
        r'.order ++ breakableOwners r'.groupStack r'.groups.length rest =
          r.order ++ breakableOwners r.groupStack r.groups.length rest := by
    intro r' hnesting horder
    rw [hnesting.groupStack, hnesting.length, horder]
    exact ⟨hopened, fun _ => rfl⟩
  cases cmd with
  | text s =>
      obtain ⟨hr', hcontinues⟩ := settled_text hr s
      exact .inr ⟨opened, _, rfl, rfl, hr',
        hkeep _ hcontinues.nesting hcontinues.order⟩
  | ifBreak s =>
      obtain ⟨hr', hcontinues⟩ := settled_ifBreak hr s
      exact .inr ⟨opened, _, rfl, rfl, hr',
        hkeep _ hcontinues.nesting hcontinues.order⟩
  | comment s =>
      obtain ⟨hr', hcontinues⟩ := settled_comment hr s
      exact .inr ⟨opened, _, rfl, rfl, hr',
        hkeep _ hcontinues.nesting hcontinues.order⟩
  | splice id =>
      exact .inr ⟨opened, r, rfl, rfl, hr, hkeep r (sameNesting_refl r) rfl⟩
  | shiftIndent delta =>
      obtain ⟨hr', hcontinues⟩ := @Settled.congr r
        { r with indentation := r.indentation + delta } hr rfl rfl rfl rfl rfl
      exact .inr ⟨opened, _, rfl, rfl, hr',
        hkeep _ hcontinues.nesting hcontinues.order⟩
  | hardBreak =>
      obtain ⟨hr', hnesting, horder⟩ := @settled_newline _ hr none (by simp)
      rw [Option.toList_none, List.append_nil] at horder
      exact .inr ⟨opened, _, rfl, rfl, hr', hkeep _ hnesting horder⟩
  | breakable sep =>
      obtain ⟨hr', hnesting, horder⟩ := settled_breakable hr sep
      refine .inr ⟨opened, _, rfl, rfl, hr', ?_, fun rest => ?_⟩
      · rw [hnesting.groupStack, hopened]
      · rw [hnesting.groupStack, hnesting.length, horder, List.append_assoc]
        rfl
  | beginGroup indent opening =>
      obtain ⟨hr', hstack, hlength, horder⟩ :=
        settled_beginGroup hr indent opening
      refine .inr ⟨opened + 1, _, rfl, rfl, hr', ?_, fun rest => ?_⟩
      · rw [hstack, List.length_cons, hopened]
      · rw [hstack, hlength, horder]
        rfl
  | endGroup close =>
      cases opened with
      | zero =>
          refine .inl ⟨rfl, ?_⟩
          obtain ⟨id, hstack⟩ := List.length_eq_one_iff.mp hopened
          rw [execute, endGroup, hstack]
      | succ opened =>
          obtain ⟨r', hend⟩ := endGroup_ok hopened close
          obtain ⟨hr', hstack, hlength, horder⟩ := settled_endGroup hr hend
          refine .inr ⟨opened, r', rfl, hend, hr', ?_, fun rest => ?_⟩
          · rw [hstack, List.length_tail, hopened]
            rfl
          · rw [hstack, hlength, horder]
            rfl

/-- Executing commands that close no group too many lays out their breakables
in order. -/
theorem settled_run (hr : r.Settled) {cmds : List Cmd} {opened : Nat}
    (hopened : r.groupStack.length = opened + 1)
    (hcloses : Closes opened cmds = true) :
    ∃ r', run [] 0 cmds r = .ok r' ∧ r'.Settled ∧
      r'.order = r.order ++
        breakableOwners r.groupStack r.groups.length cmds := by
  induction cmds generalizing r opened with
  | nil => exact ⟨r, rfl, hr, by simp [breakableOwners]⟩
  | cons cmd rest ih =>
      rw [Closes, List.foldlM_cons] at hcloses
      rcases settled_execute hr hopened cmd with
        ⟨hnone, -⟩ | ⟨opened', r', hsome, hok, hr', hopened', horder⟩
      · rw [hnone] at hcloses
        cases hcloses
      · rw [hsome] at hcloses
        obtain ⟨r'', hrun, hend, horder'⟩ := ih hr' hopened' hcloses
        refine ⟨r'', ?_, hend, horder'.trans (horder rest)⟩
        rw [run, List.foldlM_cons, hok]
        exact hrun

/-- Closing a group too many is an error. -/
theorem run_unbalanced (hr : r.Settled) {cmds : List Cmd} {opened : Nat}
    (hopened : r.groupStack.length = opened + 1)
    (hcloses : Closes opened cmds = false) :
    run [] 0 cmds r = .error .unbalancedGroup := by
  induction cmds generalizing r opened with
  | nil => cases hcloses
  | cons cmd rest ih =>
      rw [Closes, List.foldlM_cons] at hcloses
      rw [run, List.foldlM_cons]
      rcases settled_execute hr hopened cmd with
        ⟨-, herror⟩ | ⟨opened', r', hsome, hok, hr', hopened', -⟩
      · rw [herror]
        rfl
      · rw [hsome] at hcloses
        rw [hok]
        exact ih hr' hopened' hcloses

end Run

end Renderer

/-- Whatever the width, a balanced document is laid out with every breakable in
its place and the breakables of a group all newlines or all separators. -/
theorem layOut_groups_uniform (maxWidth : Nat) (slots : List Slot)
    (main : List Cmd)
    (hbalanced : Closes 0 (inlined slots slots.length main) = true) :
    ∃ pieces, layOut maxWidth slots main = .ok pieces ∧
      ∃ broken : Nat → Bool, breaks pieces =
        (breakableOwners [0] 1 (inlined slots slots.length main)).map
          fun id => (id, broken id) := by
  rw [layOut_inlined]
  generalize inlined slots slots.length main = cmds at hbalanced
  rw [layOut]
  generalize (markCommentGroups [] ([] : List Slot).length cmds
    ([false], [])).1 = force
  obtain ⟨r, hrun, hr, horder⟩ := Renderer.settled_run
    (Renderer.settled_new maxWidth force) rfl hbalanced
  obtain ⟨hflush, hcontinues, hempty⟩ := Renderer.settled_flush hr
  refine ⟨r.finish, ?_, fun id => (r.flush.group id).wantBreak, ?_⟩
  · rw [List.length_nil, hrun]
    rfl
  · have hbreaks : breaks r.finish = breaks r.flush.out := by
      rw [Renderer.finish, Renderer.emitPendingComments]
      simp [breaks, Piece.break]
    have howners : (breaks r.flush.out).map Prod.fst =
        breakableOwners [0] 1 cmds := by
      have hfinal := hcontinues.order.trans horder
      rw [Renderer.order, hempty] at hfinal
      simpa [waiting, Renderer.order, Renderer.new, breaks] using hfinal
    rw [hbreaks, ← howners, List.map_map]
    have hself : ∀ entry ∈ breaks r.flush.out,
        ((fun id => (id, (r.flush.group id).wantBreak)) ∘ Prod.fst) entry =
          id entry := by
      rintro ⟨id, broken⟩ hentry
      cases broken with
      | true => exact congrArg (id, ·) (hflush.broken id hentry)
      | false => exact congrArg (id, ·) (hflush.flat id hentry)
    rw [List.map_congr_left hself, List.map_id]

/-- The outer list breaks and the inner one does not. -/
theorem layOut_groups_uniform_sample :
    ∃ pieces, layOut 12 [] [.beginGroup 1 ['['], .text ['a', ','],
        .breakable [' '], .beginGroup 1 ['('], .text ['b', ','],
        .breakable [' '], .text ['c', 'c', 'c', 'c'], .endGroup [')'],
        .endGroup [']']] = .ok pieces ∧
      ∃ broken : Nat → Bool,
        breaks pieces = [1, 2].map fun id => (id, broken id) :=
  layOut_groups_uniform 12 [] _ (by decide)

end Hegel
