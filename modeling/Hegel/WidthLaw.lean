/-
The width of lines.  What waits fits on the line between any two operations;
breaking groups moves it to new lines until it does so again.  A line that is
too wide with a separator on it starts at a breakable that overhangs, and is
too wide by no more than that.
-/
import Hegel.LineWidth

namespace Hegel

namespace Renderer

/-- What is measured, the lowest column behind the buffer being `stop`. -/
def Located (overhangs future : List Nat) (stop : Nat) (r : Renderer) : Prop :=
  ∃ low, lowAfter low r.buffer = stop ∧ r.Measured overhangs future low

section Pop

variable {r : Renderer} {token : Token} {rest : List Token}
  {overhangs future : List Nat} {stop : Nat}

theorem length_flatten_modify_erase (levels : List (List Nat))
    (level id : Nat) :
    (levels.modify level fun group => group.erase id).flatten.length ≤
      levels.flatten.length := by
  induction levels generalizing level with
  | nil => simp
  | cons head rest ih =>
      cases level with
      | zero =>
          have hle := List.length_erase_le (a := id) (l := head)
          simpa using hle
      | succ level => simpa using ih level

theorem length_queued_pop (width : Nat) :
    (r.pop token rest width).queued.length ≤ r.queued.length := by
  cases token with
  | text content contentWidth => exact Nat.le_refl _
  | comment content => exact Nat.le_refl _
  | ifBreak content id =>
      rw [pop, outputToken]
      split_ifs <;> exact Nat.le_refl _
  | breakable sep breakWidth indent id =>
      rw [pop, outputToken]
      dsimp only
      by_cases hbroken : (({ r with buffer := rest, bufferWidth := width } :
          Renderer).countOut id |>.group id).wantBreak = true
      · rw [if_pos hbroken]
        exact Nat.le_refl _
      · rw [if_neg hbroken]
        by_cases hlast : (({ r with buffer := rest, bufferWidth := width } :
            Renderer).countOut id |>.group id).pending = 0
        · rw [if_pos hlast]
          exact length_flatten_modify_erase _ _ _
        · rw [if_neg hlast]
          exact Nat.le_refl _

theorem Located.pop (hr : r.Located overhangs future stop)
    (hbuffer : r.buffer = token :: rest) (width : Nat) :
    (r.pop token rest width).Located overhangs future stop := by
  obtain ⟨low, hstop, hmeasured⟩ := hr
  refine ⟨token.lowest low, ?_, hmeasured.pop hbuffer width (buffer_pop width)⟩
  rw [buffer_pop, ← hstop, hbuffer, lowAfter]

theorem Located.congr {r' : Renderer} (hr : r.Located overhangs future stop)
    (hbuffer : r'.buffer = r.buffer) (hout : r'.out = r.out)
    (hwidth : r'.outputWidth = r.outputWidth)
    (hmax : r'.maxWidth = r.maxWidth)
    (hcomments : r'.pendingComments = r.pendingComments) :
    r'.Located overhangs future stop := by
  obtain ⟨low, hstop, hm⟩ := hr
  refine ⟨low, by rw [hbuffer, hstop], ⟨?_, ?_, ?_, ?_, ?_, ?_, ?_, ?_, ?_⟩⟩
  · rw [hbuffer]
    exact hm.plain
  · rw [hcomments, hm.uncommented]
  · rw [hwidth, hout, hm.width]
  · rw [hwidth]
    exact hm.low_le
  · rw [hout, hbuffer, hm.ahead]
  · rw [hout, hmax]
    exact hm.finished
  · rw [hout, hmax, hwidth, hbuffer]
    exact hm.reaches
  · rw [hout, hmax, hwidth, hbuffer]
    exact hm.reachesTail
  · rw [hmax, hbuffer]
    exact hm.spaced

theorem Located.plain (hr : r.Located overhangs future stop)
    (hbuffer : r.buffer = token :: rest) : token.Plain := by
  obtain ⟨low, -, hmeasured⟩ := hr
  exact hmeasured.plain token (by rw [hbuffer]; exact List.mem_cons_self)

theorem Located.uncommented (hr : r.Located overhangs future stop) :
    r.pendingComments = [] := by
  obtain ⟨low, -, hmeasured⟩ := hr
  exact hmeasured.uncommented

/-- A line starts without a separator. -/
theorem unflat_pop (hr : r.Located overhangs future stop)
    (hbuffer : r.buffer = token :: rest) (width : Nat) {id : Nat}
    (howner : token.owner = some id) (hwant : (r.group id).wantBreak = true) :
    (scanLines overhangs (r.pop token rest width).out).current.flat =
      false := by
  rcases @pop_plain r token rest (hr.plain hbuffer) hr.uncommented width with
    ⟨sep, breakWidth, indent, id', rfl, hbroken, hout, -⟩ |
    ⟨sep, breakWidth, indent, id', rfl, hflat, -, -⟩ |
    ⟨content, rfl, -, -⟩
  · rw [hout, scanLines_concat]
    rfl
  · obtain rfl := Option.some.inj howner
    rw [hwant] at hflat
    cases hflat
  · cases howner

/-- Text is no separator. -/
theorem flat_pop_text (hr : r.Located overhangs future stop)
    (hbuffer : r.buffer = token :: rest) (width : Nat)
    (howner : token.owner = none) :
    (scanLines overhangs (r.pop token rest width).out).current.flat =
      (scanLines overhangs r.out).current.flat := by
  rcases @pop_plain r token rest (hr.plain hbuffer) hr.uncommented width with
    ⟨sep, breakWidth, indent, id', rfl, -, -, -⟩ |
    ⟨sep, breakWidth, indent, id', rfl, -, -, -⟩ |
    ⟨content, rfl, hout, -⟩
  · cases howner
  · cases howner
  · rw [hout, scanLines_concat]
    rfl

/-- What does not break adds its width. -/
theorem outputWidth_pop (hr : r.Located overhangs future stop)
    (hbuffer : r.buffer = token :: rest) (width : Nat)
    (hunbroken : ∀ id, token.owner = some id →
      (r.group id).wantBreak = false) :
    (r.pop token rest width).outputWidth = r.outputWidth + token.width := by
  rcases @pop_plain r token rest (hr.plain hbuffer) hr.uncommented width with
    ⟨sep, breakWidth, indent, id', rfl, hbroken, -, -⟩ |
    ⟨sep, breakWidth, indent, id', rfl, -, -, hwidth⟩ |
    ⟨content, rfl, -, hwidth⟩
  · rw [hunbroken id' rfl] at hbroken
    cases hbroken
  · exact hwidth
  · exact hwidth

/-- Outputting stops at the condition or at the end. -/
theorem popWhile_stops (condition : Renderer → Bool)
    (hcondition : condition (popWhile condition r.buffer r) = true) :
    (popWhile condition r.buffer r).buffer = [] := by
  generalize hbuffer : r.buffer = buffer at hcondition ⊢
  induction buffer generalizing r with
  | nil => exact hbuffer
  | cons token rest ih =>
      rw [popWhile] at hcondition ⊢
      by_cases hholds : condition r = true
      · rw [if_pos hholds] at hcondition ⊢
        exact ih (buffer_pop _) hcondition
      · rw [if_neg hholds] at hcondition
        exact absurd hcondition hholds

end Pop

/-- What holds between operations, given the overhangs of all breakables and of
those to come.  What waits starts with a breakable, and there is no separator on
the current line. -/
structure Steady (overhangs future : List Nat) (stop : Nat) (r : Renderer) :
    Prop where
  settled : r.Settled
  queues : r.Queues none
  located : r.Located overhangs future stop
  counted : r.bufferWidth = tokensWidth r.buffer
  front : r.frontIsText = false
  unflat : (scanLines overhangs r.out).current.flat = false

/-- What waits fits on the line. -/
def Fits (r : Renderer) : Prop :=
  r.outputWidth + r.bufferWidth ≤ r.maxWidth ∨ r.buffer = []

section Breaking

variable {r : Renderer} {overhangs future : List Nat} {stop : Nat}

theorem owner_of_front (hfront : r.frontIsText = false) {token : Token}
    {rest : List Token} (hbuffer : r.buffer = token :: rest) :
    token.owner.isSome := by
  rw [frontIsText, hbuffer] at hfront
  cases token with
  | breakable sep width indent id => rfl
  | text content width => cases hfront
  | ifBreak content id => cases hfront
  | comment content => cases hfront

theorem front_of_owner {token : Token} {rest : List Token}
    (hbuffer : r.buffer = token :: rest) (howner : token.owner.isSome) :
    r.frontIsText = false := by
  rw [frontIsText, hbuffer]
  cases token with
  | breakable sep width indent id => rfl
  | text content width => cases howner
  | ifBreak content id => cases howner
  | comment content => cases howner

/-- If no breakable waits, nothing does. -/
theorem Steady.buffer_eq_nil (hr : r.Steady overhangs future stop)
    (hwaiting : waiting r.buffer = []) : r.buffer = [] := by
  cases hbuffer : r.buffer with
  | nil => rfl
  | cons token rest =>
      have howner := owner_of_front hr.front hbuffer
      rw [hbuffer, waiting_cons] at hwaiting
      cases token with
      | breakable sep width indent id => cases hwaiting
      | text content width => cases howner
      | ifBreak content id => cases howner
      | comment content => cases howner

/-- While tokens are output for a group that breaks, or for none: what changed
since the start. -/
structure Breaking (overhangs future : List Nat) (stop : Nat)
    (target : Option Nat) (r start : Renderer) : Prop where
  draining : r.Draining target
  queues : r.Queues target
  located : r.Located overhangs future stop
  counted : r.bufferWidth = tokensWidth r.buffer
  shape : SameShape start r
  queued : r.queued.length ≤ start.queued.length
  unflat : (∀ id ∈ target, (r.group id).pending = 0) →
    (scanLines overhangs r.out).current.flat = false

variable {start : Renderer} {target : Option Nat}

/-- Outputting a token while a group breaks that waits. -/
theorem Breaking.pop {id : Nat} {token : Token} {rest : List Token}
    (hr : r.Breaking overhangs future stop (some id) start)
    (hbuffer : r.buffer = token :: rest) (hpending : 0 < (r.group id).pending) :
    (r.pop token rest (r.bufferWidth - token.width)).Breaking overhangs future
      stop (some id) start := by
  have hwaiting : id ∈ waiting r.buffer := by
    rw [hr.draining.counted] at hpending
    exact List.count_pos_iff.mp hpending
  have hdraining := hr.draining.pop hbuffer (r.bufferWidth - token.width)
    (fun x hx => by rwa [← Option.mem_some_iff.mp hx])
  have hout := @outputs_pop r token rest hr.draining.levelled
    (r.bufferWidth - token.width)
  have hplain := hr.located.plain hbuffer
  constructor
  · exact hdraining
  · exact hr.queues.pop hr.draining.toConsistent hbuffer _
      (hr.queues.closed hr.draining hbuffer hwaiting)
  · exact hr.located.pop hbuffer _
  · rw [bufferWidth_pop, buffer_pop, hr.counted, hbuffer, tokensWidth_cons,
      Nat.add_sub_cancel_left]
  · exact hr.shape.trans (sameShape_pop hplain _)
  · exact Nat.le_trans (length_queued_pop _) hr.queued
  · intro hdone
    have hpending' := hout.pending id
    rw [hdone id rfl] at hpending'
    have howner : token.owner = some id := by
      cases howner : token.owner with
      | none =>
          rw [howner] at hpending'
          exact absurd hpending (Nat.not_lt_of_le (Nat.le_of_eq hpending'.symm))
      | some other =>
          rw [howner, Option.toList_some, List.count_singleton] at hpending'
          by_cases hsame : other = id
          · rw [hsame]
          · rw [if_neg (by simpa using hsame)] at hpending'
            exact absurd hpending
              (Nat.not_lt_of_le (Nat.le_of_eq hpending'.symm))
    exact unflat_pop hr.located hbuffer _ howner (hr.draining.wants id rfl)

/-- Outputting text while no group breaks. -/
theorem Breaking.pop_text {token : Token} {rest : List Token}
    (hr : r.Breaking overhangs future stop none start)
    (hbuffer : r.buffer = token :: rest) (howner : token.owner = none) :
    (r.pop token rest (r.bufferWidth - token.width)).Breaking overhangs future
      stop none start := by
  constructor
  · exact hr.draining.pop hbuffer _ (by simp)
  · refine hr.queues.pop hr.draining.toConsistent hbuffer _ ?_
    intro id hid
    rw [howner] at hid
    cases hid
  · exact hr.located.pop hbuffer _
  · rw [bufferWidth_pop, buffer_pop, hr.counted, hbuffer, tokensWidth_cons,
      Nat.add_sub_cancel_left]
  · exact hr.shape.trans (sameShape_pop (hr.located.plain hbuffer) _)
  · exact Nat.le_trans (length_queued_pop _) hr.queued
  · intro _
    rw [flat_pop_text hr.located hbuffer _ howner]
    exact hr.unflat (by simp)

theorem sameShape_deq (hr : r.Settled) : SameShape r r.deq.1 := by
  have hdeq := r.dequeued hr.levelled
  have hknown : ∀ id ∈ (r.deqLevels r.groupQueue).2.2,
      id < ({ r with groupQueue := (r.deqLevels r.groupQueue).1 } :
        Renderer).groups.length := by
    intro id hid
    exact hr.known id (List.mem_append_right _ (hdeq.marked id hid).1)
  obtain ⟨-, -, -, -, -, hgroup⟩ := setWantBreaks _ hknown
  have hgroup' : ∀ id, r.deq.1.group id = _ := hgroup
  obtain ⟨levels, groups, heq⟩ := r.deq_eq
  constructor
  · rw [heq]
  · rw [heq]
  · rw [heq]
  · rw [heq]
  · intro id
    rw [hgroup']
    rfl
  · intro id
    rw [hgroup']
    rfl

theorem Steady.deq (hr : r.Steady overhangs future stop) :
    r.deq.1.Breaking overhangs future stop r.deq.2 r.deq.1 := by
  obtain ⟨-, hdraining, -⟩ := settled_deq hr.settled
  obtain ⟨hqueues, -, -⟩ := hr.queues.deq hr.settled
  obtain ⟨levels, groups, heq⟩ := r.deq_eq
  constructor
  · exact hdraining
  · exact hqueues
  · rw [heq]
    exact hr.located.congr rfl rfl rfl rfl rfl
  · rw [heq]
    exact hr.counted
  · exact sameShape_refl _
  · exact Nat.le_refl _
  · intro _
    rw [heq]
    exact hr.unflat

/-- A group that breaks does so completely, and nothing waits before the next
breakable. -/
theorem Breaking.finish {id : Nat}
    (hr : r.Breaking overhangs future stop (some id) start) :
    let drained := popWhile (fun r => (r.group id).pending > 0) r.buffer r
    let r' := popWhile frontIsText drained.buffer drained
    r'.Steady overhangs future stop ∧ SameShape start r' ∧
      r'.queued.length ≤ start.queued.length := by
  have hdrained : (popWhile (fun r => decide ((r.group id).pending > 0))
      r.buffer r).Breaking overhangs future stop (some id) start := by
    apply @popWhile_induction r
      (fun r => r.Breaking overhangs future stop (some id) start)
    · intro r token rest hpending hbuffer hr
      exact ⟨hr.pop hbuffer (of_decide_eq_true hpending), buffer_pop _⟩
    · exact hr
  have hstop := @popWhile_stops r
    (fun r => decide ((r.group id).pending > 0))
  dsimp only
  generalize popWhile (fun r => decide ((r.group id).pending > 0))
    r.buffer r = drained at hdrained hstop
  have hpending : (drained.group id).pending = 0 := by
    by_contra hne
    have hempty := hstop (decide_eq_true (Nat.pos_of_ne_zero hne))
    apply hne
    rw [hdrained.draining.counted, hempty]
    rfl
  have hgone : id ∉ waiting drained.buffer := by
    rw [hdrained.draining.counted] at hpending
    exact List.count_eq_zero.mp hpending
  have hsettled : drained.Settled := by
    apply hdrained.draining.settled
    intro x _
    exact ⟨by simp, fun y hy => by rwa [← Option.mem_some_iff.mp hy]⟩
  have hnone : drained.Breaking overhangs future stop none start := by
    refine ⟨hsettled.draining, ⟨?_, hdrained.queues.opened,
      hdrained.queues.outward⟩, hdrained.located, hdrained.counted,
      hdrained.shape, hdrained.queued, fun _ => hdrained.unflat ?_⟩
    · intro x hx
      refine .inl ((hdrained.queues.waiting x hx).resolve_right ?_)
      intro hsame
      rw [← Option.some.inj hsame] at hx
      exact hgone hx
    · intro x hx
      rwa [← Option.mem_some_iff.mp hx]
  have htext : (popWhile frontIsText drained.buffer drained).Breaking overhangs
      future stop none start := by
    apply @popWhile_induction drained
      (fun r => r.Breaking overhangs future stop none start)
    · intro r token rest hfront hbuffer hr
      refine ⟨hr.pop_text hbuffer ?_, buffer_pop _⟩
      rw [frontIsText, hbuffer] at hfront
      cases token with
      | breakable sep width indent id => cases hfront
      | text content width => rfl
      | ifBreak content id => rfl
      | comment content => rfl
    · exact hnone
  have hfront := @popWhile_stops drained frontIsText
  obtain ⟨hend, -⟩ := settled_popWhile_text hsettled
  generalize popWhile frontIsText drained.buffer drained = r'
    at htext hfront hend
  refine ⟨⟨hend, htext.queues, htext.located, htext.counted, ?_,
    htext.unflat (by simp)⟩, htext.shape, htext.queued⟩
  rw [Bool.eq_false_iff]
  intro hholds
  rw [frontIsText, hfront hholds] at hholds
  cases hholds

/-- Groups break until the line fits or nothing waits. -/
theorem steady_breakGroups (hr : r.Steady overhangs future stop) {rounds : Nat}
    (hrounds : r.queued.length ≤ rounds) :
    (breakGroups rounds r).Steady overhangs future stop ∧
      (breakGroups rounds r).Fits ∧ SameShape r (breakGroups rounds r) := by
  induction rounds generalizing r with
  | zero =>
      have hempty : r.buffer = [] := by
        apply hr.buffer_eq_nil
        rw [List.eq_nil_iff_forall_not_mem]
        intro id hid
        have hqueued := (hr.queues.waiting id hid).resolve_right (by simp)
        rw [List.length_eq_zero_iff.mp (Nat.le_zero.mp hrounds)] at hqueued
        cases hqueued
      exact ⟨hr, .inr hempty, sameShape_refl r⟩
  | succ rounds ih =>
      rw [breakGroups]
      by_cases hover : r.outputWidth + r.bufferWidth > r.maxWidth
      · rw [if_pos hover]
        have hbreaking := hr.deq
        have hshape := sameShape_deq hr.settled
        obtain ⟨hsettled, -, -⟩ := settled_deq hr.settled
        obtain ⟨-, hnone, hlength⟩ := hr.queues.deq hr.settled
        have hbuffer : r.deq.1.buffer = r.buffer := by
          obtain ⟨levels, groups, heq⟩ := r.deq_eq
          rw [heq]
        generalize r.deq = result
          at hbreaking hshape hsettled hnone hlength hbuffer
        obtain ⟨r', found⟩ := result
        dsimp only at hbreaking hshape hsettled hnone hlength hbuffer ⊢
        cases found with
        | none =>
            have hempty : r'.buffer = [] := by
              rw [hbuffer]
              exact hr.buffer_eq_nil (hnone rfl)
            refine ⟨⟨hsettled rfl, hbreaking.queues, hbreaking.located,
              hbreaking.counted, ?_, hbreaking.unflat (by simp)⟩, .inr hempty,
              hshape⟩
            rw [frontIsText, hempty]
        | some id =>
            obtain ⟨hsteady, hshape', hlength'⟩ := hbreaking.finish
            obtain ⟨hend, hfits, hshape''⟩ := ih hsteady (by
              rw [Option.toList_some, List.length_singleton] at hlength
              omega)
            exact ⟨hend, hfits, (hshape.trans hshape').trans hshape''⟩
      · rw [if_neg hover]
        exact ⟨hr, .inl (Nat.le_of_not_gt hover), sameShape_refl r⟩

end Breaking

section Operations

variable {r : Renderer} {overhangs future : List Nat} {stop : Nat}

theorem Steady.breakOuterGroups (hr : r.Steady overhangs future stop) :
    r.breakOuterGroups.Steady overhangs future stop ∧
      r.breakOuterGroups.Fits ∧ SameShape r r.breakOuterGroups :=
  steady_breakGroups hr (Nat.le_refl _)

theorem steady_write (hr : r.Steady overhangs future stop)
    (hbuffer : r.buffer = []) (s : Text) :
    (r.write s s.length).Steady overhangs future (stop + s.length) := by
  obtain ⟨low, hstop, hm⟩ := hr.located
  have hempty : (r.write s s.length).buffer = [] := hbuffer
  have hscan : scanLines overhangs (r.write s s.length).out = _ :=
    scanLines_concat overhangs r.out (.text s)
  simp only [LineScan.step] at hscan
  rw [hbuffer] at hstop
  refine ⟨(settled_write hr.settled s s.length).1,
    ⟨hr.queues.waiting, hr.queues.opened, hr.queues.outward⟩,
    ⟨low + s.length, ?_, ?_⟩, hr.counted, hr.front, ?_⟩
  · rw [hempty, ← hstop]
    rfl
  · constructor
    · rw [hempty]
      exact fun _ h => by cases h
    · exact hm.uncommented
    · rw [hscan, Line.width, List.length_append]
      exact congrArg (· + s.length) hm.width
    · exact Nat.add_le_add_right hm.low_le _
    · have hahead := hm.ahead
      rw [hbuffer] at hahead
      rw [hscan, hempty]
      exact hahead
    · rw [hscan]
      exact hm.finished
    · rw [hempty]
      exact fun _ => trivial
    · rw [hempty]
      exact fun _ _ h => by cases h
    · rw [hempty]
      trivial
  · rw [hscan]
    exact hr.unflat

theorem steady_pushText (hr : r.Steady overhangs future stop)
    (hbuffer : r.buffer ≠ []) (s : Text) :
    Steady overhangs future (stop + s.length)
      { r with
        buffer := pushText s r.buffer
        bufferWidth := r.bufferWidth + s.length } := by
  obtain ⟨token, rest, hcons⟩ := List.exists_cons_of_ne_nil hbuffer
  have howner := owner_of_front hr.front hcons
  have hpushed : pushText s r.buffer = token :: pushText s rest := by
    rw [hcons, pushText_cons s howner]
  obtain ⟨low, hstop, hm⟩ := hr.located
  obtain ⟨hsettled, -⟩ := @Settled.congr r
    { r with
      buffer := pushText s r.buffer
      bufferWidth := r.bufferWidth + s.length }
    hr.settled rfl rfl rfl (waiting_pushText s r.buffer) rfl
  refine ⟨hsettled, ⟨?_, hr.queues.opened, hr.queues.outward⟩,
    ⟨low, ?_, ?_⟩, ?_, ?_, hr.unflat⟩
  · rw [waiting_pushText]
    exact hr.queues.waiting
  · rw [lowAfter_pushText, hstop]
  · refine ⟨plain_pushText s hm.plain, hm.uncommented, hm.width,
      hm.low_le, ?_, hm.finished, fun h => (hm.reaches h).pushText s, ?_,
      hm.spaced.pushText s⟩
    · rw [tokenOverhangs_pushText]
      exact hm.ahead
    · intro token' rest' heq
      obtain ⟨rfl, rfl⟩ := List.cons.inj (hpushed.symm.trans heq)
      exact (hm.reachesTail token rest hcons).pushText s
  · rw [tokensWidth_pushText, hr.counted]
  · exact front_of_owner hpushed howner

/-- Text goes to the line or waits. -/
theorem steady_text (hr : r.Steady overhangs future stop) (s : Text) :
    (r.text s).Steady overhangs future (stop + s.length) ∧
      (r.text s).Fits ∧ SameShape r (r.text s) := by
  rw [text]
  by_cases hempty : r.buffer.isEmpty = true
  · rw [if_pos hempty]
    have hbuffer := List.isEmpty_iff.mp hempty
    exact ⟨steady_write hr hbuffer s, .inr hbuffer,
      ⟨rfl, rfl, rfl, rfl, fun _ => rfl, fun _ => rfl⟩⟩
  · rw [if_neg hempty]
    have hpushed := steady_pushText hr
      (fun h => hempty (List.isEmpty_iff.mpr h)) s
    obtain ⟨hsteady, hfits, hshape⟩ := hpushed.breakOuterGroups
    exact ⟨hsteady, hfits, hshape.groupStack, hshape.maxWidth,
      hshape.indentation, hshape.forceBreak, hshape.indent, hshape.comment⟩

/-- A breakable that waits stands where what waits before it ends. -/
theorem steady_pushBreakable {sep : Text}
    (hr : r.Steady overhangs
      ((r.indentation.toNat - (stop + sep.length)) :: future) stop)
    (hfits : r.Fits) (hbroken : ¬ (r.group r.innermost).wantBreak = true) :
    let pushed : Renderer := { r with
      buffer := r.buffer ++
        [Token.breakable sep sep.length r.indentation r.innermost]
      bufferWidth := r.bufferWidth + sep.length
      groups := r.groups.modify r.innermost fun group =>
        { group with pending := group.pending + 1 } }
    pushed.Steady overhangs future
        (min (stop + sep.length) r.indentation.toNat) ∧
      SameShape r pushed := by
  obtain ⟨hsettled, -, hgroup, -⟩ := settled_pushBreakable hr.settled hbroken sep
  obtain ⟨low, hstop, hm⟩ := hr.located
  dsimp only at hsettled hgroup ⊢
  generalize htoken : Token.breakable sep sep.length r.indentation r.innermost =
    token at hsettled hgroup ⊢
  have howner : token.owner = some r.innermost := by rw [← htoken]; rfl
  have hwidth : token.width = sep.length := by rw [← htoken]; rfl
  have hinside : r.buffer ≠ [] →
      r.outputWidth + tokensWidth r.buffer ≤ r.maxWidth := by
    intro hne
    rw [← hr.counted]
    exact hfits.resolve_right hne
  refine ⟨⟨hsettled, ⟨?_, ?_, ?_⟩, ⟨low, ?_, ?_⟩, ?_, ?_, hr.unflat⟩, ?_⟩
  · intro id hid
    rw [waiting_append, List.mem_append] at hid
    rcases hid with hid | hid
    · exact hr.queues.waiting id hid
    · rw [waiting_cons, howner] at hid
      obtain rfl : id = r.innermost := by simpa [waiting] using hid
      exact .inl ((hr.queues.opened _ (innermost_mem hr.settled)).resolve_right
        hbroken)
  · intro id hid
    rw [hgroup]
    refine (hr.queues.opened id hid).imp_right fun hwant => ?_
    split_ifs <;> exact hwant
  · refine hr.queues.outward.imp ?_
    intro inner outer himp
    rw [hgroup, hgroup]
    split_ifs <;> exact himp
  · rw [lowAfter_concat, hstop, ← htoken]
    rfl
  · refine ⟨?_, hm.uncommented, hm.width, hm.low_le, ?_, hm.finished, ?_, ?_,
      ?_⟩
    · intro other hother
      rcases List.mem_append.mp hother with hother | hother
      · exact hm.plain other hother
      · rw [List.mem_singleton.mp hother, ← htoken]
        rfl
    · refine hm.ahead.trans ?_
      rw [tokenOverhangs_concat, hstop, ← htoken, List.append_assoc]
      rfl
    · intro hflat
      rw [hr.unflat] at hflat
      cases hflat
    · intro first rest heq
      cases hbuffer : r.buffer with
      | nil =>
          rw [hbuffer, List.nil_append] at heq
          obtain ⟨-, rfl⟩ := List.cons.inj heq
          trivial
      | cons head tail =>
          have hle := hinside (by rw [hbuffer]; exact List.cons_ne_nil _ _)
          rw [hbuffer, List.cons_append] at heq
          obtain ⟨rfl, rfl⟩ := List.cons.inj heq
          rw [hbuffer, tokensWidth_cons] at hle
          refine (hm.reachesTail head tail hbuffer).concat fun _ => ?_
          omega
    · by_cases hbuffer : r.buffer = []
      · rw [hbuffer]
        exact ⟨fun _ => trivial, trivial⟩
      · have hle := hinside hbuffer
        have hlow := hm.low_le
        refine hm.spaced.concat fun _ => ?_
        omega
  · rw [tokensWidth_append, hr.counted, tokensWidth_cons, hwidth]
    rfl
  · cases hbuffer : r.buffer with
    | nil => exact front_of_owner rfl (by rw [howner]; rfl)
    | cons head tail =>
        exact front_of_owner rfl (owner_of_front hr.front hbuffer)
  · refine ⟨rfl, rfl, rfl, rfl, fun id => ?_, fun id => ?_⟩
    · rw [hgroup]
      split_ifs <;> rfl
    · rw [hgroup]
      split_ifs <;> rfl

/-- Nothing breaks when all that waits is output. -/
theorem located_flush (hr : r.Settled)
    (hlocated : r.Located overhangs future stop) :
    r.flush.Located overhangs future stop ∧ SameShape r r.flush ∧
      r.flush.outputWidth = r.outputWidth + tokensWidth r.buffer := by
  obtain ⟨-, -, hempty⟩ := settled_flush hr
  have hflushed : (flushTokens r.buffer r).Draining none ∧
      (flushTokens r.buffer r).Located overhangs future stop ∧
      SameShape r (flushTokens r.buffer r) ∧
      (flushTokens r.buffer r).outputWidth +
        tokensWidth (flushTokens r.buffer r).buffer =
          r.outputWidth + tokensWidth r.buffer := by
    apply @flushTokens_induction r fun r' => r'.Draining none ∧
      r'.Located overhangs future stop ∧ SameShape r r' ∧
      r'.outputWidth + tokensWidth r'.buffer =
        r.outputWidth + tokensWidth r.buffer
    · rintro r' token rest hbuffer ⟨hdraining, hlocated', hshape, htotal⟩
      have hwidth := outputWidth_pop hlocated' hbuffer r'.bufferWidth
        (fun id howner => by
          rw [Bool.eq_false_iff]
          intro hwant
          have hnone := hdraining.unbroken id (by
            rw [hbuffer, waiting_cons, howner]
            exact List.mem_cons_self) hwant
          cases hnone)
      refine ⟨⟨hdraining.pop hbuffer _ (by simp), hlocated'.pop hbuffer _,
        hshape.trans (sameShape_pop (hlocated'.plain hbuffer) _), ?_⟩,
        buffer_pop _⟩
      rw [hbuffer, tokensWidth_cons] at htotal
      rw [hwidth, buffer_pop]
      omega
    · exact ⟨hr.draining, hlocated, sameShape_refl r, rfl⟩
  obtain ⟨-, hlocated', hshape, htotal⟩ := hflushed
  have hbuffer : (flushTokens r.buffer r).buffer = [] := hempty
  rw [hbuffer] at htotal
  exact ⟨hlocated'.congr rfl rfl rfl rfl rfl,
    ⟨hshape.groupStack, hshape.maxWidth, hshape.indentation, hshape.forceBreak,
      hshape.indent, hshape.comment⟩, htotal⟩

/-- The line that is output then keeps its bound. -/
theorem width_flush (hr : r.Steady overhangs future stop) (hfits : r.Fits)
    (hflat : (scanLines overhangs r.flush.out).current.flat = true) :
    (scanLines overhangs r.flush.out).current.width ≤ r.maxWidth := by
  obtain ⟨⟨low, -, hm⟩, -, htotal⟩ := located_flush hr.settled hr.located
  rw [← hm.width, htotal, ← hr.counted]
  refine hfits.resolve_right fun hempty => ?_
  rw [flush, hempty, flushTokens, hr.unflat] at hflat
  cases hflat

/-- If all open groups break, what is output belongs to none of them. -/
theorem queues_flush (hr : r.Settled) (hq : r.Queues none)
    (hbroken : ∀ id ∈ r.groupStack, (r.group id).wantBreak = true) :
    r.flush.Queues none := by
  have hflushed : (flushTokens r.buffer r).Draining none ∧
      (flushTokens r.buffer r).Queues none ∧
      ∀ id ∈ (flushTokens r.buffer r).groupStack,
        ((flushTokens r.buffer r).group id).wantBreak = true := by
    apply @flushTokens_induction r fun r' => r'.Draining none ∧
      r'.Queues none ∧ ∀ id ∈ r'.groupStack, (r'.group id).wantBreak = true
    · rintro r' token rest hbuffer ⟨hdraining, hq', hbroken'⟩
      have hout := @outputs_pop r' token rest hdraining.levelled r'.bufferWidth
      refine ⟨⟨hdraining.pop hbuffer _ (by simp),
        hq'.pop hdraining.toConsistent hbuffer _ ?_, ?_⟩, buffer_pop _⟩
      · intro id _ hflat hopen
        rw [hbroken' id hopen] at hflat
        cases hflat
      · intro id hid
        rw [hout.nesting.groupStack] at hid
        rw [hout.wantBreak]
        exact hbroken' id hid
    · exact ⟨hr.draining, hq, hbroken⟩
  obtain ⟨-, hqueues, -⟩ := hflushed
  exact ⟨hqueues.waiting, hqueues.opened, hqueues.outward⟩

/-- A breakable of a group that breaks starts a line. -/
theorem steady_newline {sep : Text}
    (hr : r.Steady overhangs
      ((r.indentation.toNat - (stop + sep.length)) :: future) stop)
    (hfits : r.Fits) (hbroken : (r.group r.innermost).wantBreak = true) :
    (r.newline (some r.innermost)).Steady overhangs future
        (min (stop + sep.length) r.indentation.toNat) ∧
      (r.newline (some r.innermost)).Fits ∧
      SameShape r (r.newline (some r.innermost)) := by
  obtain ⟨hsettled, -, -⟩ := @settled_newline _ hr.settled (some r.innermost)
    (fun id hid => by rwa [← Option.mem_some_iff.mp hid])
  obtain ⟨-, -, hempty⟩ := settled_flush hr.settled
  obtain ⟨⟨low, hstop, hm⟩, hshape, -⟩ := located_flush hr.settled hr.located
  have hopen : ∀ id ∈ r.groupStack, (r.group id).wantBreak = true := by
    have houtward := hr.queues.outward
    rw [innermost] at hbroken
    cases hstack : r.groupStack with
    | nil => exact absurd hstack hr.settled.inhabited
    | cons inner outer =>
        rw [hstack] at houtward hbroken
        intro id hid
        rcases List.mem_cons.mp hid with rfl | hid
        · exact hbroken
        · exact (List.pairwise_cons.mp houtward).1 id hid hbroken
  have hqueues := queues_flush hr.settled hr.queues hopen
  have hwidth := width_flush hr hfits
  have hindent := hshape.indentation
  have hout : (r.newline (some r.innermost)).out = r.flush.out ++ [.text []] ++
      [.newline (some r.innermost) r.indentation] := by
    rw [newline, startLine, emitPendingComments]
    dsimp only
    rw [hm.uncommented, hindent]
  have hscan := congrArg (scanLines overhangs) hout
  rw [scanLines_concat, scanLines_concat] at hscan
  simp only [LineScan.step, List.append_nil] at hscan
  have hbuffer : (r.newline (some r.innermost)).buffer = [] := hempty
  rw [hempty] at hstop
  refine ⟨⟨hsettled, ⟨hqueues.waiting, hqueues.opened, hqueues.outward⟩,
    ⟨_, congrArg (lowAfter _) hbuffer, ?_⟩, ?_, ?_, ?_⟩, .inr hbuffer,
    ⟨hshape.groupStack, hshape.maxWidth, hshape.indentation, hshape.forceBreak,
      hshape.indent, hshape.comment⟩⟩
  · have hahead := hm.ahead
    rw [hempty] at hahead
    have hstart : (r.newline (some r.innermost)).outputWidth =
        r.indentation.toNat := congrArg Int.toNat hindent
    have hmax : (r.newline (some r.innermost)).maxWidth = r.maxWidth :=
      hshape.maxWidth
    constructor
    · rw [hbuffer]
      exact fun _ h => by cases h
    · rfl
    · rw [hscan, hstart, Line.width, length_spaces]
    · rw [hstart]
      exact Nat.min_le_right _ _
    · rw [hscan, hbuffer, hahead]
      rfl
    · rw [hscan, hmax]
      intro line hline hflat
      rcases List.mem_append.mp hline with hold | hnew
      · rw [← hshape.maxWidth]
        exact hm.finished line hold hflat
      · rw [List.mem_singleton.mp hnew] at hflat ⊢
        exact Nat.le_add_right_of_le (hwidth hflat)
    · rw [hbuffer]
      exact fun _ => trivial
    · rw [hbuffer]
      exact fun _ _ h => by cases h
    · rw [hbuffer]
      trivial
  · rw [hbuffer]
    rfl
  · rw [frontIsText, hbuffer]
  · rw [hscan]

/-- A breakable waits or starts a line. -/
theorem steady_breakable {sep : Text}
    (hr : r.Steady overhangs
      ((r.indentation.toNat - (stop + sep.length)) :: future) stop)
    (hfits : r.Fits) :
    (r.breakable sep).Steady overhangs future
        (min (stop + sep.length) r.indentation.toNat) ∧
      (r.breakable sep).Fits ∧ SameShape r (r.breakable sep) := by
  rw [breakable]
  by_cases hbroken : (r.group r.innermost).wantBreak = true
  · rw [if_pos hbroken]
    exact steady_newline hr hfits hbroken
  · rw [if_neg hbroken]
    obtain ⟨hpushed, hshape⟩ := steady_pushBreakable hr hfits hbroken
    obtain ⟨hsteady, hfits', hshape'⟩ := hpushed.breakOuterGroups
    exact ⟨hsteady, hfits', hshape.trans hshape'⟩

theorem mem_enqueue (id steps : Nat) (levels : List (List Nat)) (x : Nat) :
    x ∈ (enqueue id steps levels).flatten ↔ x ∈ levels.flatten ∨ x = id := by
  induction steps, levels using enqueue.induct with
  | case1 => simp [enqueue]
  | case2 level rest =>
      simp only [enqueue, List.flatten_cons, List.mem_append,
        List.mem_singleton]
      tauto
  | case3 steps ih => simpa [enqueue] using ih
  | case4 steps level rest ih => simp [enqueue, ih, or_assoc]

/-- The open groups and their indents; no group has a comment in it. -/
structure Frames (maxWidth : Nat) (indents : List Nat) (r : Renderer) :
    Prop where
  maxWidth : r.maxWidth = maxWidth
  indentation : r.indentation = indents.sum
  stacked : (r.groupStack.map fun id => (r.group id).indent) = indents ++ [0]
  uncommented : ∀ id, (r.group id).comment = false
  unforced : ∀ id, r.forceBreak.getD id false = false

theorem Frames.congr {maxWidth : Nat} {indents : List Nat} {r' : Renderer}
    (hf : r.Frames maxWidth indents) (hshape : SameShape r r') :
    r'.Frames maxWidth indents where
  maxWidth := hshape.maxWidth.trans hf.maxWidth
  indentation := hshape.indentation.trans hf.indentation
  stacked := by
    rw [hshape.groupStack, ← hf.stacked]
    exact List.map_congr_left fun id _ => hshape.indent id
  uncommented id := (hshape.comment id).trans (hf.uncommented id)
  unforced id := by
    rw [hshape.forceBreak]
    exact hf.unforced id

/-- A group does not break when it begins. -/
theorem steady_beginGroup {maxWidth : Nat} {indents : List Nat}
    (hr : r.Steady overhangs future stop) (hfits : r.Fits)
    (hf : r.Frames maxWidth indents) (indent : Nat) (opening : Text) :
    (r.beginGroup indent opening).Steady overhangs future
        (stop + opening.length) ∧
      (r.beginGroup indent opening).Fits ∧
      (r.beginGroup indent opening).Frames maxWidth (indent :: indents) := by
  obtain ⟨hsettled, -, -, -⟩ := settled_beginGroup hr.settled indent opening
  have hopening : (if opening.isEmpty then r else r.text opening).Steady
        overhangs future (stop + opening.length) ∧
      (if opening.isEmpty then r else r.text opening).Fits ∧
      SameShape r (if opening.isEmpty then r else r.text opening) := by
    by_cases hempty : opening.isEmpty = true
    · rw [if_pos hempty, List.isEmpty_iff.mp hempty]
      exact ⟨hr, hfits, sameShape_refl r⟩
    · rw [if_neg hempty]
      exact steady_text hr opening
  rw [beginGroup] at hsettled ⊢
  generalize (if opening.isEmpty then r else r.text opening) = opened
    at hopening hsettled
  obtain ⟨ho, hfits', hshape⟩ := hopening
  have hf' := hf.congr hshape
  rw [hf'.unforced] at hsettled ⊢
  generalize hbegun : ({ opened with
    groups := opened.groups ++ [⟨(opened.group opened.innermost).depth + 1,
      indent, 0, false, false⟩]
    groupStack := opened.groups.length :: opened.groupStack
    groupQueue := enqueue opened.groups.length
      ((opened.group opened.innermost).depth + 1) opened.groupQueue
    indentation := opened.indentation + indent } : Renderer) = begun
    at hsettled ⊢
  have hold : ∀ x, x ≠ opened.groups.length →
      begun.group x = opened.group x := by
    intro x hx
    rw [← hbegun, group, group]
    by_cases hlt : x < opened.groups.length
    · exact List.getD_append _ _ _ _ hlt
    · rw [List.getD_eq_default]
      · exact (List.getD_eq_default _ _ (Nat.le_of_not_lt hlt)).symm
      · rw [List.length_append, List.length_singleton]
        omega
  have hnew : (begun.group opened.groups.length).wantBreak = false ∧
      (begun.group opened.groups.length).comment = false ∧
      (begun.group opened.groups.length).indent = indent := by
    rw [← hbegun, group, List.getD_eq_getElem?_getD]
    simp
  have hfresh : ∀ x ∈ opened.groupStack, x ≠ opened.groups.length :=
    fun x hx => Nat.ne_of_lt (ho.settled.known x (by simp [hx]))
  have hqueued : ∀ x, x ∈ begun.queued ↔
      x ∈ opened.queued ∨ x = opened.groups.length := by
    intro x
    rw [← hbegun]
    exact mem_enqueue _ _ _ x
  have hstack : begun.groupStack =
      opened.groups.length :: opened.groupStack := by rw [← hbegun]
  have hbuffer : begun.buffer = opened.buffer := by rw [← hbegun]
  refine ⟨⟨hsettled, ⟨?_, ?_, ?_⟩, ?_, ?_, ?_, ?_⟩, ?_,
    ⟨?_, ?_, ?_, ?_, ?_⟩⟩
  · intro id hid
    rw [hbuffer] at hid
    rw [hqueued]
    exact .inl (.inl ((ho.queues.waiting id hid).resolve_right (by simp)))
  · intro id hid
    rw [hstack] at hid
    rw [hqueued]
    rcases List.mem_cons.mp hid with rfl | hid
    · exact .inl (.inr rfl)
    · rw [hold id (hfresh id hid)]
      exact (ho.queues.opened id hid).imp_left .inl
  · rw [hstack, List.pairwise_cons]
    constructor
    · intro outer _ hwant
      rw [hnew.1] at hwant
      cases hwant
    · refine ho.queues.outward.imp_of_mem ?_
      intro inner outer hinner houter himp
      rw [hold inner (hfresh inner hinner), hold outer (hfresh outer houter)]
      exact himp
  · rw [← hbegun]
    exact ho.located.congr rfl rfl rfl rfl rfl
  · rw [← hbegun]
    exact ho.counted
  · rw [← hbegun]
    exact ho.front
  · rw [← hbegun]
    exact ho.unflat
  · rw [← hbegun]
    exact hfits'
  · rw [← hbegun]
    exact hf'.maxWidth
  · rw [← hbegun]
    dsimp only
    rw [hf'.indentation, List.sum_cons, Int.add_comm]
    exact (Int.natCast_add _ _).symm
  · rw [hstack, List.map_cons, hnew.2.2, List.cons_append, ← hf'.stacked]
    congr 1
    exact List.map_congr_left fun id hid => by rw [hold id (hfresh id hid)]
  · intro id
    by_cases hid : id = opened.groups.length
    · rw [hid]
      exact hnew.2.1
    · rw [hold id hid]
      exact hf'.uncommented id
  · rw [← hbegun]
    exact hf'.unforced

/-- A group that is closed leaves the queue if nothing of it waits. -/
theorem queues_queueRemove (hr : r.Settled) (hq : r.Queues none) {id : Nat}
    (hclosed : id ∉ r.groupStack) (hpending : (r.group id).pending = 0) :
    (r.queueRemove id).Queues none := by
  obtain ⟨-, hmem⟩ := hr.levelled.remove (Nat.zero_add (r.group id).depth).symm
  have hleft : ∀ x, x ≠ id → x ∈ r.queued → x ∈ (r.queueRemove id).queued :=
    fun x hx hqueued => (hmem x).mpr ⟨hqueued, hx⟩
  refine ⟨fun x hx => ?_, fun x hx => ?_, hq.outward⟩
  · have hne : x ≠ id := by
      rintro rfl
      rw [hr.counted] at hpending
      exact List.count_eq_zero.mp hpending hx
    exact (hq.waiting x hx).imp_left (hleft x hne)
  · have hne : x ≠ id := by
      rintro rfl
      exact hclosed hx
    exact (hq.opened x hx).imp_left (hleft x hne)

/-- The innermost group may be closed. -/
theorem steady_endGroup {maxWidth indent : Nat} {indents : List Nat}
    (hr : r.Steady overhangs future stop) (hfits : r.Fits)
    (hf : r.Frames maxWidth (indent :: indents)) (close : Text) :
    ∃ r', r.endGroup close = .ok r' ∧
      r'.Steady overhangs future (stop + close.length) ∧ r'.Fits ∧
      r'.Frames maxWidth indents := by
  have hframes := hf.stacked
  have hstacked := hr.settled.stacked
  have hopened := hr.queues.opened
  have houtward := hr.queues.outward
  rw [endGroup]
  cases hstack : r.groupStack with
  | nil => simp [hstack] at hframes
  | cons id outer =>
      cases outer with
      | nil => simp [hstack] at hframes
      | cons parent rest =>
          rw [hstack] at hframes hstacked hopened houtward
          rw [List.map_cons, List.cons_append] at hframes
          obtain ⟨hindent, hparents⟩ := List.cons.inj hframes
          dsimp only
          rw [hf.uncommented, Bool.false_and, if_neg Bool.false_ne_true,
            if_neg Bool.false_ne_true, hindent]
          have hsettled := settled_groupStack hr.settled hstack
            (r.indentation - indent)
          have hsum : r.indentation - indent = (indents.sum : Nat) := by
            rw [hf.indentation, List.sum_cons]
            omega
          generalize hclosed : ({ r with
            groupStack := parent :: rest
            indentation := r.indentation - indent } : Renderer) = closed
            at hsettled ⊢
          have hqueues : closed.Queues none := by
            rw [← hclosed]
            exact ⟨hr.queues.waiting,
              fun x hx => hopened x (List.mem_cons_of_mem _ hx),
              (List.pairwise_cons.mp houtward).2⟩
          have hnotin : id ∉ closed.groupStack := by
            rw [← hclosed]
            intro hmem
            exact Nat.lt_irrefl _ ((List.pairwise_cons.mp hstacked).1 id hmem)
          have hsteady : (if (closed.group id).pending = 0 then
                closed.queueRemove id else closed).Steady overhangs future stop ∧
              (if (closed.group id).pending = 0 then
                closed.queueRemove id else closed).Fits ∧
              (if (closed.group id).pending = 0 then closed.queueRemove id
                else closed).Frames maxWidth indents := by
            have hlocated : closed.Located overhangs future stop := by
              rw [← hclosed]
              exact hr.located.congr rfl rfl rfl rfl rfl
            have hcounted : closed.bufferWidth = tokensWidth closed.buffer := by
              rw [← hclosed]
              exact hr.counted
            have hfront : closed.frontIsText = false := by
              rw [← hclosed]
              exact hr.front
            have hunflat :
                (scanLines overhangs closed.out).current.flat = false := by
              rw [← hclosed]
              exact hr.unflat
            have hfits' : closed.Fits := by
              rw [← hclosed]
              exact hfits
            have hf' : closed.Frames maxWidth indents := by
              rw [← hclosed]
              exact ⟨hf.maxWidth, hsum, hparents, hf.uncommented, hf.unforced⟩
            by_cases hpending : (closed.group id).pending = 0
            · rw [if_pos hpending]
              exact ⟨⟨(settled_queueRemove hsettled id).1,
                queues_queueRemove hsettled hqueues hnotin hpending,
                hlocated.congr rfl rfl rfl rfl rfl, hcounted, hfront, hunflat⟩,
                hfits',
                ⟨hf'.maxWidth, hf'.indentation, hf'.stacked, hf'.uncommented,
                  hf'.unforced⟩⟩
            · rw [if_neg hpending]
              exact ⟨⟨hsettled, hqueues, hlocated, hcounted, hfront, hunflat⟩,
                hfits', hf'⟩
          generalize (if (closed.group id).pending = 0 then
            closed.queueRemove id else closed) = removed at hsteady
          obtain ⟨hremoved, hfits', hf'⟩ := hsteady
          refine ⟨_, rfl, ?_⟩
          by_cases hempty : close.isEmpty = true
          · rw [if_pos hempty, List.isEmpty_iff.mp hempty]
            exact ⟨hremoved, hfits', hf'⟩
          · rw [if_neg hempty]
            obtain ⟨htext, hfits'', hshape⟩ := steady_text hremoved close
            exact ⟨htext, hfits'', hf'.congr hshape⟩

end Operations

/-- Before commands, so many groups being open. -/
def Ready (maxWidth : Nat) (overhangs : List Nat) (opened : Nat)
    (cmds : List Cmd) (r : Renderer) : Prop :=
  ∃ stop indents, indents.length = opened ∧
    r.Steady overhangs (Hegel.overhangs stop indents cmds) stop ∧ r.Fits ∧
      r.Frames maxWidth indents

section Run

variable {r : Renderer} {maxWidth : Nat} {all : List Nat}

/-- A command that closes no group too many. -/
theorem ready_execute {opened opened' : Nat} {cmd : Cmd} {rest : List Cmd}
    (hr : r.Ready maxWidth all opened (cmd :: rest))
    (hplain : cmd.isPlain = true)
    (hafter : groupsAfter opened cmd = some opened') :
    ∃ r', execute (fun _ => .ok) [] r cmd = .ok r' ∧
      r'.Ready maxWidth all opened' rest := by
  obtain ⟨stop, indents, hlength, hsteady, hfits, hf⟩ := hr
  cases cmd with
  | text s =>
      obtain ⟨hs, hfits', hshape⟩ := steady_text hsteady s
      obtain rfl := Option.some.inj hafter
      exact ⟨_, rfl, _, indents, hlength, hs, hfits', hf.congr hshape⟩
  | breakable sep =>
      have hindent : r.indentation.toNat = indents.sum := by
        rw [hf.indentation, Int.toNat_natCast]
      rw [overhangs, ← hindent] at hsteady
      obtain ⟨hs, hfits', hshape⟩ := steady_breakable hsteady hfits
      obtain rfl := Option.some.inj hafter
      rw [hindent] at hs
      exact ⟨_, rfl, _, indents, hlength, hs, hfits', hf.congr hshape⟩
  | beginGroup indent opening =>
      obtain ⟨hs, hfits', hf'⟩ :=
        steady_beginGroup hsteady hfits hf indent opening
      obtain rfl := Option.some.inj hafter
      exact ⟨_, rfl, _, indent :: indents, congrArg (· + 1) hlength, hs, hfits',
        hf'⟩
  | endGroup close =>
      cases indents with
      | nil =>
          rw [← hlength] at hafter
          cases hafter
      | cons indent indents =>
          obtain ⟨r', hend, hs, hfits', hf'⟩ :=
            steady_endGroup hsteady hfits hf close
          rw [← hlength] at hafter
          obtain rfl := Option.some.inj hafter
          exact ⟨r', hend, _, indents, rfl, hs, hfits', hf'⟩
  | ifBreak s => cases hplain
  | hardBreak => cases hplain
  | shiftIndent delta => cases hplain
  | comment s => cases hplain
  | splice id => cases hplain

theorem ready_run {opened : Nat} {cmds : List Cmd}
    (hr : r.Ready maxWidth all opened cmds)
    (hplain : ∀ cmd ∈ cmds, cmd.isPlain = true)
    (hcloses : Closes opened cmds = true) :
    ∃ r' opened', run [] 0 cmds r = .ok r' ∧
      r'.Ready maxWidth all opened' [] := by
  induction cmds generalizing r opened with
  | nil => exact ⟨r, opened, rfl, hr⟩
  | cons cmd rest ih =>
      rw [Closes, List.foldlM_cons] at hcloses
      rw [List.forall_mem_cons] at hplain
      cases hafter : groupsAfter opened cmd with
      | none =>
          rw [hafter] at hcloses
          cases hcloses
      | some opened' =>
          rw [hafter] at hcloses
          obtain ⟨r', hok, hready⟩ := ready_execute hr hplain.1 hafter
          obtain ⟨r'', opened'', hrun, hend⟩ := ih hready hplain.2 hcloses
          refine ⟨r'', opened'', ?_, hend⟩
          rw [run, List.foldlM_cons, hok]
          exact hrun

/-- The lines that are finished keep their bound, and so does the last. -/
theorem ready_finish {opened : Nat} (hr : r.Ready maxWidth all opened []) :
    ∀ line ∈ outputLines all r.finish, line.flat = true →
      line.width ≤ maxWidth + line.overhang := by
  obtain ⟨stop, indents, -, hsteady, hfits, hf⟩ := hr
  obtain ⟨⟨low, -, hm⟩, hshape, -⟩ :=
    located_flush hsteady.settled hsteady.located
  have hwidth := width_flush hsteady hfits
  have hmax := hshape.maxWidth.trans hf.maxWidth
  have hout : r.finish = r.flush.out ++ [.text []] := by
    rw [finish, emitPendingComments, hm.uncommented]
  have hscan := congrArg (scanLines all) hout
  rw [scanLines_concat] at hscan
  simp only [LineScan.step, List.append_nil] at hscan
  rw [outputLines, hscan]
  intro line hline hflat
  rcases List.mem_append.mp hline with hold | hlast
  · rw [← hmax]
    exact hm.finished line hold hflat
  · rw [List.mem_singleton.mp hlast] at hflat ⊢
    rw [← hf.maxWidth]
    exact Nat.le_add_right_of_le (hwidth hflat)

/-- Without comments no group is forced to break. -/
theorem unforced_markCommentGroups {cmds : List Cmd}
    (hplain : ∀ cmd ∈ cmds, cmd.isPlain = true) {marks : CommentMarks}
    (hmarks : ∀ id, marks.1.getD id false = false) (id : Nat) :
    (markCommentGroups [] 0 cmds marks).1.getD id false = false := by
  rw [markCommentGroups]
  induction cmds generalizing marks with
  | nil => exact hmarks id
  | cons cmd rest ih =>
      rw [List.forall_mem_cons] at hplain
      rw [List.foldl_cons]
      apply ih hplain.2
      intro other
      cases cmd with
      | text s => exact hmarks other
      | breakable sep => exact hmarks other
      | endGroup close => exact hmarks other
      | beginGroup indent opening =>
          rw [markCommentGroup, List.getD_eq_getElem?_getD,
            List.getElem?_append]
          split_ifs with hlt
          · rw [← List.getD_eq_getElem?_getD]
            exact hmarks other
          · rw [List.getElem?_singleton]
            split_ifs <;> rfl
      | ifBreak s => cases hplain.1
      | hardBreak => cases hplain.1
      | shiftIndent delta => cases hplain.1
      | comment s => cases hplain.1
      | splice id => cases hplain.1

theorem ready_new {cmds : List Cmd} {forceBreak : List Bool}
    (hforce : ∀ id, forceBreak.getD id false = false) :
    (new maxWidth forceBreak).Ready maxWidth (overhangs 0 [] cmds) 0 cmds := by
  have hgroup : ∀ id, (new maxWidth forceBreak).group id = .root := by
    intro id
    cases id <;> rfl
  refine ⟨0, [], rfl, ⟨settled_new maxWidth forceBreak, ⟨?_, ?_, ?_⟩,
    ⟨0, rfl, ⟨?_, rfl, rfl, Nat.le_refl _, rfl, ?_, ?_, ?_, trivial⟩⟩, rfl, rfl,
    rfl⟩, .inr rfl, ⟨rfl, rfl, rfl, fun id => ?_, hforce⟩⟩
  · simp [new, waiting]
  · simp [new, queued]
  · exact List.pairwise_singleton _ _
  · simp [new]
  · simp [new, scanLines]
  · exact fun _ => trivial
  · simp [new]
  · rw [hgroup]
    rfl

end Run

end Renderer

/-- Whatever the width, a line with a separator on it is too wide by no more
than the breakable overhangs that it starts at. -/
theorem layOut_width (maxWidth : Nat) (slots : List Slot) (main : List Cmd)
    (hplain : ∀ cmd ∈ inlined slots slots.length main, cmd.isPlain = true)
    (hbalanced : Closes 0 (inlined slots slots.length main) = true) :
    ∃ pieces, layOut maxWidth slots main = .ok pieces ∧
      let lines := outputLines
        (overhangs 0 [] (inlined slots slots.length main)) pieces
      pieces.flatMap Piece.render =
          List.intercalate ['\n'] (lines.map Line.content) ∧
        ∀ line ∈ lines, line.flat = true →
          line.width ≤ maxWidth + line.overhang := by
  rw [layOut_inlined]
  generalize inlined slots slots.length main = cmds at hplain hbalanced
  have hforce := Renderer.unforced_markCommentGroups hplain
    (show ∀ id, ([false], ([] : List Nat)).1.getD id false = false from
      fun id => by cases id <;> rfl)
  obtain ⟨r, opened, hrun, hready⟩ := Renderer.ready_run
    (Renderer.ready_new hforce) hplain hbalanced
  refine ⟨r.finish, ?_, render_outputLines _ _, Renderer.ready_finish hready⟩
  rw [layOut, List.length_nil, hrun]
  rfl

/-- The first line breaks only after both words of the inner group were found to
fit on it; from the indentation on they do not. -/
theorem layOut_width_sample :
    ∃ pieces, layOut 5 [] [.beginGroup 3 [], .breakable [],
        .beginGroup 0 [], .text ['a'], .breakable [' '], .text ['b'],
        .endGroup [], .breakable [' '], .text ['c', 'c'], .endGroup []] =
          .ok pieces ∧
      let lines := outputLines (overhangs 0 [] [.beginGroup 3 [],
        .breakable [], .beginGroup 0 [], .text ['a'], .breakable [' '],
        .text ['b'], .endGroup [], .breakable [' '], .text ['c', 'c'],
        .endGroup []]) pieces
      pieces.flatMap Piece.render =
          List.intercalate ['\n'] (lines.map Line.content) ∧
        ∀ line ∈ lines, line.flat = true → line.width ≤ 5 + line.overhang :=
  layOut_width 5 [] _ (by decide) (by decide)

/-- That line is too wide, and the inner group is a separator on it. -/
theorem layOut_overwide_separator :
    ∃ cmds : List Cmd, (∀ cmd ∈ inlined [] 0 cmds, cmd.isPlain = true) ∧
      Closes 0 (inlined [] 0 cmds) = true ∧
      ∃ pieces, layOut 5 [] cmds = .ok pieces ∧
        ∃ line ∈ outputLines [] pieces, 5 < line.width ∧ line.flat = true := by
  refine ⟨[.beginGroup 3 [], .breakable [], .beginGroup 0 [], .text ['a'],
    .breakable [' '], .text ['b'], .endGroup [], .breakable [' '],
    .text ['c', 'c'], .endGroup []], by decide, by decide, _, rfl, ?_⟩
  refine ⟨⟨[' ', ' ', ' ', 'a', ' ', 'b'], 0, true⟩, ?_, by decide, rfl⟩
  decide

end Hegel
