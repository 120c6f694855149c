/-
The renderer does not fault.  What its tokens and levels refer to exists, its
width is that of the buffer, and a group that is still to be counted out has a
breakable in the buffer; so the guarded renderer does what the renderer does,
between commands and within them.
-/
import Hegel.GuardedRenderer
import Hegel.WidthLaw

namespace Hegel

/-- The group a token asks about when it is output. -/
def Token.named : Token → Option Nat
  | .breakable _ _ _ id => some id
  | .ifBreak _ id => some id
  | _ => none

namespace Renderer

/-- The groups of the tokens and the levels of the groups exist. -/
structure Placed (r : Renderer) : Prop where
  named : ∀ token ∈ r.buffer, ∀ id ∈ token.named, id < r.groups.length
  levels : ∀ id, (r.group id).depth < r.groupQueue.length

/-- The width is right, too. -/
structure Backed (r : Renderer) : Prop extends Placed r where
  width : r.bufferWidth = tokensWidth r.buffer

section Popping

variable {r : Renderer} {token : Token} {rest : List Token}

theorem tracks_of (hr : r.Consistent) (hbacked : r.Backed) : r.Tracks :=
  ⟨fun id _ => hr.counted id, hbacked.width⟩

theorem backed_new (maxWidth : Nat) (forceBreak : List Bool) :
    (new maxWidth forceBreak).Backed := by
  refine ⟨⟨nofun, fun id => ?_⟩, rfl⟩
  have hroot : (new maxWidth forceBreak).group id = .root := by
    cases id <;> rfl
  rw [hroot]
  exact Nat.one_pos

theorem levels_outputToken (r : Renderer) (token : Token) :
    (r.outputToken token).groupQueue.length = r.groupQueue.length := by
  cases token with
  | text content width => rfl
  | comment content => rfl
  | ifBreak content id =>
      rw [outputToken]
      split_ifs <;> rfl
  | breakable sep width indent id =>
      rw [outputToken]
      dsimp only
      by_cases hbroken : ((r.countOut id).group id).wantBreak = true
      · rw [if_pos hbroken]
        rfl
      · rw [if_neg hbroken]
        by_cases hlast : ((r.countOut id).group id).pending = 0
        · rw [if_pos hlast]
          exact List.length_modify ..
        · rw [if_neg hlast]
          rfl

/-- Every token that is output finds its group, and a breakable is counted. -/
theorem guardedOutput_eq (hr : r.Consistent) (hplaced : r.Placed)
    (hbuffer : r.buffer = token :: rest) (width : Nat) :
    guardedOutput { r with buffer := rest, bufferWidth := width } token =
      .ok (r.pop token rest width) := by
  have hmem : token ∈ r.buffer := by
    rw [hbuffer]
    exact List.mem_cons_self
  have hnamed := hplaced.named token hmem
  cases token with
  | text content tokenWidth => rfl
  | comment content => rfl
  | ifBreak content id =>
      have hknown : id < r.groups.length := hnamed id rfl
      exact demand_bind hknown _ _
  | breakable sep tokenWidth indent id =>
      have hknown : id < r.groups.length := hnamed id rfl
      have hpending : 0 < (r.group id).pending := by
        rw [hr.counted, hbuffer]
        exact List.count_pos_iff.mpr List.mem_cons_self
      have hlevel := hplaced.levels id
      refine (demand_bind hknown _ _).trans ?_
      refine (demand_bind hpending _ _).trans ?_
      exact demand_bind hlevel _ _

theorem guardedPop_eq (hr : r.Consistent) (hbacked : r.Backed)
    (hbuffer : r.buffer = token :: rest) :
    r.guardedPop =
      .ok (r.pop token rest (r.bufferWidth - token.width)) := by
  have hwidth : token.width ≤ r.bufferWidth := by
    rw [hbacked.width, hbuffer, tokensWidth_cons]
    exact Nat.le_add_right _ _
  rw [guardedPop, hbuffer]
  refine (demand_bind hwidth _ _).trans ?_
  exact guardedOutput_eq hr hbacked.toPlaced hbuffer _

theorem Placed.pop (hplaced : r.Placed) (hr : r.Consistent)
    (hbuffer : r.buffer = token :: rest) (width : Nat) :
    (r.pop token rest width).Placed := by
  have hout := @outputs_pop r token rest hr.levelled width
  constructor
  · intro other hother id hid
    rw [buffer_pop] at hother
    rw [hout.nesting.length]
    apply hplaced.named other _ id hid
    rw [hbuffer]
    exact List.mem_cons_of_mem token hother
  · intro id
    rw [hout.nesting.depth, Renderer.pop, levels_outputToken]
    exact hplaced.levels id

theorem Backed.pop (hbacked : r.Backed) (hr : r.Consistent)
    (hbuffer : r.buffer = token :: rest) :
    (r.pop token rest (r.bufferWidth - token.width)).Backed := by
  refine ⟨hbacked.toPlaced.pop hr hbuffer _, ?_⟩
  rw [bufferWidth_pop, buffer_pop, hbacked.width, hbuffer, tokensWidth_cons,
    Nat.add_sub_cancel_left]

/-- Tokens are popped as long as the condition holds, and it only holds while
there are any. -/
theorem guardedPopWhile_eq {condition : Renderer → Bool}
    (hcondition : ∀ r : Renderer, r.Consistent → condition r = true →
      r.buffer ≠ [])
    (hr : r.Consistent) (hbacked : r.Backed) {rounds : Nat}
    (hrounds : r.buffer.length < rounds) :
    guardedPopWhile condition rounds r =
        .ok (popWhile condition r.buffer r) ∧
      (popWhile condition r.buffer r).Consistent ∧
      (popWhile condition r.buffer r).Backed ∧
      (popWhile condition r.buffer r).queued.length ≤ r.queued.length := by
  generalize hbuffer : r.buffer = buffer at hrounds
  induction buffer generalizing r rounds with
  | nil =>
      obtain ⟨rounds, rfl⟩ := Nat.exists_eq_succ_of_ne_zero
        (Nat.ne_zero_of_lt hrounds)
      have hstop : ¬condition r = true := fun h => hcondition r hr h hbuffer
      refine ⟨?_, hr, hbacked, Nat.le_refl _⟩
      refine (demand_bind (tracks_of hr hbacked) _ _).trans ?_
      exact if_neg hstop
  | cons token rest ih =>
      obtain ⟨rounds, rfl⟩ := Nat.exists_eq_succ_of_ne_zero
        (Nat.ne_zero_of_lt hrounds)
      have htracks := tracks_of hr hbacked
      rw [popWhile]
      by_cases hholds : condition r = true
      · have hpop := guardedPop_eq hr hbacked hbuffer
        obtain ⟨heq, hr', hbacked', hlength⟩ := ih (hr.pop hbuffer _)
          (hbacked.pop hr hbuffer) (buffer_pop _)
          (Nat.lt_of_succ_lt_succ hrounds)
        rw [if_pos hholds]
        refine ⟨?_, hr', hbacked',
          Nat.le_trans hlength (length_queued_pop _)⟩
        refine (demand_bind htracks _ _).trans ?_
        refine (if_pos hholds).trans ?_
        rw [hpop]
        exact heq
      · rw [if_neg hholds]
        refine ⟨?_, hr, hbacked, Nat.le_refl _⟩
        refine (demand_bind htracks _ _).trans ?_
        exact if_neg hholds

end Popping

section Breaking

variable {r : Renderer}

theorem length_deqLevels (r : Renderer) (levels : List (List Nat)) :
    (r.deqLevels levels).1.length = levels.length := by
  induction levels with
  | nil => rfl
  | cons level rest ih =>
      rw [deqLevels]
      cases level.find? fun id => (r.group id).pending > 0 with
      | some id => rfl
      | none => exact congrArg (· + 1) ih

/-- Without any group in the queue, none is taken and none breaks. -/
theorem deqLevels_of_empty (r : Renderer) {levels : List (List Nat)}
    (hempty : levels.flatten = []) :
    r.deqLevels levels = (levels, none, []) := by
  induction levels with
  | nil => rfl
  | cons level rest ih =>
      rw [List.flatten_cons, List.append_eq_nil_iff] at hempty
      rw [deqLevels, hempty.1, ih hempty.2]
      rfl

theorem deq_of_empty (hempty : r.queued = []) : r.deq = (r, none) := by
  rw [deq, deqLevels_of_empty r hempty]
  rfl

theorem groupQueue_deq (r : Renderer) :
    r.deq.1.groupQueue = (r.deqLevels r.groupQueue).1 := by
  obtain ⟨groups, heq⟩ := foldl_setWantBreak (r.deqLevels r.groupQueue).2.2
    { r with groupQueue := (r.deqLevels r.groupQueue).1 }
  exact congrArg Renderer.groupQueue heq

theorem backed_deq (hr : r.Settled) (hbacked : r.Backed) :
    r.deq.1.Backed ∧
      r.deq.1.queued.length + r.deq.2.toList.length ≤ r.queued.length := by
  obtain ⟨-, -, hcontinues⟩ := settled_deq hr
  obtain ⟨levels, groups, heq⟩ := r.deq_eq
  have hlevels : r.deq.1.groupQueue.length = r.groupQueue.length := by
    rw [groupQueue_deq, length_deqLevels]
  have hbuffer : r.deq.1.buffer = r.buffer := by rw [heq]
  have hwidth : r.deq.1.bufferWidth = r.bufferWidth := by rw [heq]
  refine ⟨⟨⟨?_, ?_⟩, ?_⟩, ?_⟩
  · intro token htoken id hid
    rw [hbuffer] at htoken
    rw [hcontinues.nesting.length]
    exact hbacked.named token htoken id hid
  · intro id
    rw [hcontinues.nesting.depth, hlevels]
    exact hbacked.levels id
  · rw [hwidth, hbuffer]
    exact hbacked.width
  · rw [queued, groupQueue_deq]
    exact (r.deqLevels_left hr.levelled).2.2

theorem guardedDrain_eq {id : Nat} (hr : r.Consistent) (hbacked : r.Backed) :
    let drained := popWhile (fun r => (r.group id).pending > 0) r.buffer r
    guardedDrain id r = .ok (popWhile frontIsText drained.buffer drained) ∧
      (popWhile frontIsText drained.buffer drained).Backed ∧
      (popWhile frontIsText drained.buffer drained).queued.length ≤
        r.queued.length := by
  have hpending : ∀ r : Renderer, r.Consistent →
      decide ((r.group id).pending > 0) = true → r.buffer ≠ [] := by
    intro r hr hpending hempty
    rw [decide_eq_true_eq, hr.counted, hempty] at hpending
    exact absurd hpending (Nat.lt_irrefl 0)
  have hfront : ∀ r : Renderer, r.Consistent → r.frontIsText = true →
      r.buffer ≠ [] := by
    intro r _ hfront hempty
    rw [frontIsText, hempty] at hfront
    cases hfront
  obtain ⟨heq, hdrained, hbacked', hlength⟩ :=
    guardedPopWhile_eq hpending hr hbacked (Nat.lt_succ_self _)
  obtain ⟨heq', -, hbacked'', hlength'⟩ :=
    guardedPopWhile_eq hfront hdrained hbacked' (Nat.lt_succ_self _)
  refine ⟨?_, hbacked'', Nat.le_trans hlength' hlength⟩
  rw [guardedDrain, heq]
  exact heq'

/-- A round of breaking demands nothing that does not hold. -/
theorem guardedBreak_succ (hr : r.Settled) (hbacked : r.Backed)
    (rounds : Nat) :
    guardedBreak (rounds + 1) r =
      if r.outputWidth + r.bufferWidth > r.maxWidth then
        match r.deq with
        | (r, none) => .ok r
        | (r, some id) => guardedDrain id r >>= guardedBreak rounds
      else .ok r := by
  have hknown : ∀ id ∈ r.groupQueue.flatten, id < r.groups.length := by
    intro id hid
    apply hr.known id
    rw [List.mem_append]
    exact .inr hid
  refine (demand_bind (tracks_of hr.toConsistent hbacked) _ _).trans ?_
  by_cases hover : r.outputWidth + r.bufferWidth > r.maxWidth
  · refine (if_pos hover).trans ?_
    refine (demand_bind hknown _ _).trans ?_
    exact (if_pos hover).symm
  · exact (if_neg hover).trans (if_neg hover).symm

/-- Groups break until the line fits or the queue is empty. -/
theorem guardedBreak_eq (hr : r.Settled) (hbacked : r.Backed) {rounds : Nat}
    (hrounds : r.queued.length ≤ rounds) :
    guardedBreak (rounds + 1) r = .ok (breakGroups rounds r) ∧
      (breakGroups rounds r).Backed := by
  induction rounds generalizing r with
  | zero =>
      have hempty : r.queued = [] :=
        List.length_eq_zero_iff.mp (Nat.le_zero.mp hrounds)
      refine ⟨?_, hbacked⟩
      rw [guardedBreak_succ hr hbacked, deq_of_empty hempty]
      exact ite_self _
  | succ rounds ih =>
      rw [guardedBreak_succ hr hbacked, breakGroups]
      by_cases hover : r.outputWidth + r.bufferWidth > r.maxWidth
      · rw [if_pos hover, if_pos hover]
        obtain ⟨-, hdraining, -⟩ := settled_deq hr
        obtain ⟨hbacked', hlength⟩ := backed_deq hr hbacked
        generalize r.deq = result at hdraining hbacked' hlength
        obtain ⟨r', found⟩ := result
        cases found with
        | none => exact ⟨rfl, hbacked'⟩
        | some id =>
            obtain ⟨hsettled, -⟩ := settled_drain hdraining
            obtain ⟨hdrain, hbacked'', hlength'⟩ :=
              @guardedDrain_eq r' id hdraining.toConsistent hbacked'
            rw [Option.toList_some, List.length_singleton] at hlength
            dsimp only at hdrain hlength ⊢
            rw [hdrain]
            exact ih hsettled hbacked'' (by omega)
      · rw [if_neg hover, if_neg hover]
        exact ⟨rfl, hbacked⟩

theorem guardedBreakOuter_eq (hr : r.Settled) (hbacked : r.Backed) :
    r.guardedBreakOuter = .ok r.breakOuterGroups ∧
      r.breakOuterGroups.Backed :=
  guardedBreak_eq hr hbacked (Nat.le_refl _)

end Breaking

section Forcing

variable (r : Renderer)

@[simp] theorem forceBreak_outputToken (token : Token) :
    (r.outputToken token).forceBreak = r.forceBreak := by
  cases token with
  | text content width => rfl
  | comment content => rfl
  | ifBreak content id =>
      rw [outputToken]
      split_ifs <;> rfl
  | breakable sep width indent id =>
      rw [outputToken]
      dsimp only
      by_cases hbroken : ((r.countOut id).group id).wantBreak = true
      · rw [if_pos hbroken]
        rfl
      · rw [if_neg hbroken]
        by_cases hlast : ((r.countOut id).group id).pending = 0
        · rw [if_pos hlast]
          rfl
        · rw [if_neg hlast]
          rfl

theorem forceBreak_popWhile (condition : Renderer → Bool)
    (buffer : List Token) :
    (popWhile condition buffer r).forceBreak = r.forceBreak := by
  induction buffer generalizing r with
  | nil => rfl
  | cons token rest ih =>
      rw [popWhile]
      split_ifs
      · rw [ih, forceBreak_outputToken]
      · rfl

theorem forceBreak_deq : r.deq.1.forceBreak = r.forceBreak := by
  obtain ⟨levels, groups, heq⟩ := r.deq_eq
  rw [heq]

theorem forceBreak_breakGroups (rounds : Nat) :
    (breakGroups rounds r).forceBreak = r.forceBreak := by
  induction rounds generalizing r with
  | zero => rfl
  | succ rounds ih =>
      have hdeq := r.forceBreak_deq
      rw [breakGroups]
      split_ifs
      · generalize r.deq = result at hdeq
        obtain ⟨r', found⟩ := result
        cases found with
        | none => exact hdeq
        | some id =>
            dsimp only at hdeq ⊢
            rw [ih, forceBreak_popWhile, forceBreak_popWhile, hdeq]
      · rfl

theorem forceBreak_text (s : Text) : (r.text s).forceBreak = r.forceBreak := by
  rw [text]
  split_ifs
  · rfl
  · exact forceBreak_breakGroups _ _

theorem forceBreak_flushTokens (buffer : List Token) :
    (flushTokens buffer r).forceBreak = r.forceBreak := by
  induction buffer generalizing r with
  | nil => rfl
  | cons token rest ih => rw [flushTokens, ih, forceBreak_outputToken]

theorem forceBreak_newline (owner : Option Nat) :
    (r.newline owner).forceBreak = r.forceBreak :=
  forceBreak_flushTokens r r.buffer

theorem forceBreak_beginGroup (indent : Nat) (opening : Text) :
    (r.beginGroup indent opening).forceBreak = r.forceBreak := by
  rw [beginGroup]
  dsimp only
  split_ifs
  · rfl
  · exact forceBreak_text r opening

theorem forceBreak_endGroup {close : Text} {r' : Renderer}
    (hend : r.endGroup close = .ok r') : r'.forceBreak = r.forceBreak := by
  rw [endGroup] at hend
  split at hend
  · obtain rfl := Except.ok.inj hend
    split_ifs <;> simp [forceBreak_text, forceBreak_newline, queueRemove]
  · cases hend

/-- Which groups must break does not change. -/
theorem forceBreak_execute {slots : List Slot} {cmd : Cmd} {r' : Renderer}
    (hok : execute (fun _ => .ok) slots r cmd = .ok r') :
    r'.forceBreak = r.forceBreak := by
  cases cmd with
  | endGroup close => exact forceBreak_endGroup r hok
  | text s =>
      obtain rfl := Except.ok.inj hok
      exact forceBreak_text r s
  | breakable sep =>
      obtain rfl := Except.ok.inj hok
      rw [breakable]
      split_ifs
      · exact forceBreak_newline _ _
      · exact forceBreak_breakGroups _ _
  | ifBreak s =>
      obtain rfl := Except.ok.inj hok
      rw [ifBreak]
      split_ifs
      · exact forceBreak_text r s
      · rfl
  | hardBreak =>
      obtain rfl := Except.ok.inj hok
      exact forceBreak_newline r none
  | beginGroup indent opening =>
      obtain rfl := Except.ok.inj hok
      exact forceBreak_beginGroup r indent opening
  | shiftIndent delta =>
      obtain rfl := Except.ok.inj hok
      rfl
  | comment s =>
      obtain rfl := Except.ok.inj hok
      rw [comment]
      split_ifs <;> rfl
  | splice id =>
      obtain rfl := Except.ok.inj hok
      rfl

end Forcing

section Operations

variable {r : Renderer}

theorem named_pushText {s : Text} {buffer : List Token} {token : Token}
    (htoken : token ∈ pushText s buffer) :
    token.named = none ∨ token ∈ buffer := by
  induction buffer using pushText.induct with
  | case1 =>
      rw [pushText, List.mem_singleton] at htoken
      exact .inl (by rw [htoken]; rfl)
  | case2 content width =>
      rw [pushText, List.mem_singleton] at htoken
      exact .inl (by rw [htoken]; rfl)
  | case3 head rest hnot ih =>
      rw [pushText] at htoken
      · rcases List.mem_cons.mp htoken with rfl | hrest
        · exact .inr List.mem_cons_self
        · exact (ih hrest).imp_right (List.mem_cons_of_mem head)
      · exact hnot

theorem guardedText_eq (hr : r.Settled) (hbacked : r.Backed) (s : Text) :
    r.guardedText s = .ok (r.text s) ∧ (r.text s).Backed := by
  rw [guardedText, text]
  by_cases hempty : r.buffer.isEmpty = true
  · rw [if_pos hempty, if_pos hempty]
    exact ⟨rfl, ⟨hbacked.named, hbacked.levels⟩, hbacked.width⟩
  · rw [if_neg hempty, if_neg hempty]
    obtain ⟨hpushed, -⟩ := @Settled.congr r
      { r with
        buffer := pushText s r.buffer
        bufferWidth := r.bufferWidth + s.length }
      hr rfl rfl rfl (waiting_pushText s r.buffer) rfl
    apply guardedBreakOuter_eq hpushed
    refine ⟨⟨?_, hbacked.levels⟩, ?_⟩
    · intro token htoken id hid
      rcases named_pushText htoken with hnone | hmem
      · rw [hnone] at hid
        cases hid
      · exact hbacked.named token hmem id hid
    · dsimp only
      rw [tokensWidth_pushText, hbacked.width]

theorem guardedFlush_eq (hr : r.Settled) (hplaced : r.Placed) :
    guardedFlush r.buffer r = .ok r.flush ∧ r.flush.Backed := by
  suffices htokens : guardedFlush r.buffer r = .ok r.flush ∧
      (flushTokens r.buffer r).Placed by
    obtain ⟨-, -, hempty⟩ := settled_flush hr
    refine ⟨htokens.1, ⟨htokens.2.named, htokens.2.levels⟩, ?_⟩
    rw [hempty]
    rfl
  have hconsistent := hr.toConsistent
  clear hr
  rw [flush]
  generalize hbuffer : r.buffer = buffer
  induction buffer generalizing r with
  | nil => exact ⟨rfl, hplaced⟩
  | cons token rest ih =>
      have hout := guardedOutput_eq hconsistent hplaced hbuffer r.bufferWidth
      obtain ⟨heq, hplaced'⟩ := ih (hplaced.pop hconsistent hbuffer _)
        (hconsistent.pop hbuffer r.bufferWidth) (buffer_pop _)
      refine ⟨?_, hplaced'⟩
      rw [guardedFlush]
      exact (congrArg (· >>= guardedFlush rest) hout).trans heq

theorem guardedNewline_eq (hr : r.Settled) (hbacked : r.Backed)
    (owner : Option Nat) :
    r.guardedNewline owner = .ok (r.newline owner) ∧
      (r.newline owner).Backed := by
  obtain ⟨heq, hflush⟩ := guardedFlush_eq hr hbacked.toPlaced
  rw [guardedNewline, heq]
  exact ⟨rfl, ⟨hflush.named, hflush.levels⟩, hflush.width⟩

theorem demandInnermost_bind (hr : r.Settled) {α : Type}
    (next : Unit → Guarded α) : (r.demandInnermost >>= next) = next () := by
  have hinner : r.innermost < r.groups.length := by
    apply hr.known
    simp [innermost_mem hr]
  have hdemand : r.demandInnermost = .ok () :=
    (demand_bind hr.inhabited _ _).trans (if_pos hinner)
  rw [hdemand]
  rfl

theorem guardedBreakable_eq (hr : r.Settled) (hbacked : r.Backed)
    (sep : Text) :
    r.guardedBreakable sep = .ok (r.breakable sep) ∧
      (r.breakable sep).Backed := by
  rw [guardedBreakable, demandInnermost_bind hr, breakable]
  dsimp only
  by_cases hbroken : (r.group r.innermost).wantBreak = true
  · rw [if_pos hbroken, if_pos hbroken]
    exact guardedNewline_eq hr hbacked (some r.innermost)
  · rw [if_neg hbroken, if_neg hbroken]
    obtain ⟨hpushed, hnesting, -, -⟩ := settled_pushBreakable hr hbroken sep
    apply guardedBreakOuter_eq hpushed
    refine ⟨⟨?_, ?_⟩, ?_⟩
    · intro token htoken id hid
      rw [hnesting.length]
      rcases List.mem_append.mp htoken with hold | hnew
      · exact hbacked.named token hold id hid
      · rw [List.mem_singleton.mp hnew] at hid
        obtain rfl := Option.mem_some_iff.mp hid
        apply hr.known
        simp [innermost_mem hr]
    · intro id
      rw [hnesting.depth]
      exact hbacked.levels id
    · dsimp only
      rw [tokensWidth_append, hbacked.width]
      rfl

theorem guardedIfBreak_eq (hr : r.Settled) (hbacked : r.Backed) (s : Text) :
    r.guardedIfBreak s = .ok (r.ifBreak s) ∧ (r.ifBreak s).Backed := by
  rw [guardedIfBreak, demandInnermost_bind hr, ifBreak]
  dsimp only
  by_cases hbroken : (r.group r.innermost).wantBreak = true
  · rw [if_pos hbroken, if_pos hbroken]
    exact guardedText_eq hr hbacked s
  · rw [if_neg hbroken, if_neg hbroken]
    refine ⟨rfl, ⟨?_, hbacked.levels⟩, ?_⟩
    · intro token htoken id hid
      rcases List.mem_append.mp htoken with hold | hnew
      · exact hbacked.named token hold id hid
      · rw [List.mem_singleton.mp hnew] at hid
        obtain rfl := Option.mem_some_iff.mp hid
        apply hr.known
        simp [innermost_mem hr]
    · dsimp only
      rw [tokensWidth_append, hbacked.width]
      rfl

theorem backed_comment (hbacked : r.Backed) (s : Text) :
    (r.comment s).Backed := by
  rw [comment]
  by_cases hempty : r.buffer.isEmpty = true
  · rw [if_pos hempty]
    exact ⟨⟨hbacked.named, hbacked.levels⟩, hbacked.width⟩
  · rw [if_neg hempty]
    refine ⟨⟨?_, hbacked.levels⟩, ?_⟩
    · intro token htoken id hid
      rcases List.mem_append.mp htoken with hold | hnew
      · exact hbacked.named token hold id hid
      · rw [List.mem_singleton.mp hnew] at hid
        cases hid
    · dsimp only
      rw [tokensWidth_append, hbacked.width]
      rfl

theorem length_enqueue (id depth : Nat) (levels : List (List Nat)) :
    (enqueue id depth levels).length = max levels.length (depth + 1) := by
  induction depth generalizing levels with
  | zero => cases levels <;> simp [enqueue]
  | succ depth ih =>
      cases levels with
      | nil => simp [enqueue, ih]
      | cons level rest =>
          simp only [enqueue, List.length_cons, ih]
          omega

/-- The new group is on a level, which exists by then. -/
theorem backed_openGroup (hbacked : r.Backed) (indent : Nat) :
    (r.beginGroup indent []).Backed := by
  have hlength : (r.beginGroup indent []).groups.length =
      r.groups.length + 1 := List.length_append
  have hqueue : (r.beginGroup indent []).groupQueue.length =
      max r.groupQueue.length ((r.group r.innermost).depth + 1 + 1) :=
    length_enqueue _ _ _
  refine ⟨⟨?_, ?_⟩, hbacked.width⟩
  · intro token htoken id hid
    rw [hlength]
    exact Nat.lt_succ_of_lt (hbacked.named token htoken id hid)
  · intro id
    rw [hqueue]
    by_cases hold : id < r.groups.length
    · have hsame : (r.beginGroup indent []).group id = r.group id :=
        List.getD_append _ _ _ _ hold
      have hlevel := hbacked.levels id
      rw [hsame]
      exact Nat.lt_of_lt_of_le hlevel (Nat.le_max_left _ _)
    · by_cases hnew : id = r.groups.length
      · have hdepth : ((r.beginGroup indent []).group id).depth =
            (r.group r.innermost).depth + 1 := by
          rw [hnew, group, List.getD_eq_getElem?_getD]
          simp [beginGroup]
        rw [hdepth]
        exact Nat.lt_of_lt_of_le (Nat.lt_succ_self _) (Nat.le_max_right _ _)
      · have hnone : (r.beginGroup indent []).group id = .root := by
          apply List.getD_eq_default
          have := hlength
          omega
        rw [hnone]
        exact Nat.lt_of_lt_of_le (Nat.zero_lt_succ _) (Nat.le_max_right _ _)

/-- Opening text is written before the group is there. -/
theorem beginGroup_eq (r : Renderer) (indent : Nat) (opening : Text) :
    r.beginGroup indent opening =
      (if opening.isEmpty then r else r.text opening).beginGroup indent [] :=
  rfl

theorem guardedBeginGroup_eq (hr : r.Settled) (hbacked : r.Backed)
    (indent : Nat) (opening : Text)
    (hforce : r.groups.length < r.forceBreak.length) :
    r.guardedBeginGroup indent opening = .ok (r.beginGroup indent opening) ∧
      (r.beginGroup indent opening).Backed := by
  have hopen : ∀ opened : Renderer, opened.Settled →
      opened.groups.length < opened.forceBreak.length →
      (do
        opened.demandInnermost
        demand (opened.groups.length < opened.forceBreak.length) .outOfRange
        return opened.beginGroup indent [] : Guarded Renderer) =
          .ok (opened.beginGroup indent []) :=
    fun opened hopened hforce =>
      (demandInnermost_bind hopened _).trans (demand_bind hforce _ _)
  rw [beginGroup_eq]
  by_cases hempty : opening.isEmpty = true
  · rw [if_pos hempty]
    refine ⟨?_, backed_openGroup hbacked indent⟩
    exact (if_pos hempty).trans (hopen r hr hforce)
  · rw [if_neg hempty]
    obtain ⟨hsettled, hcontinues⟩ := settled_text hr opening
    obtain ⟨heq, hbacked'⟩ := guardedText_eq hr hbacked opening
    refine ⟨?_, backed_openGroup hbacked' indent⟩
    refine (if_neg hempty).trans ?_
    rw [heq]
    apply hopen _ hsettled
    rw [hcontinues.nesting.length, forceBreak_text]
    exact hforce

theorem backed_queueRemove (hbacked : r.Backed) (id : Nat) :
    (r.queueRemove id).Backed := by
  refine ⟨⟨hbacked.named, fun other => ?_⟩, hbacked.width⟩
  have hlength : (r.queueRemove id).groupQueue.length =
      r.groupQueue.length := List.length_modify ..
  rw [hlength]
  exact hbacked.levels other

theorem guardedLeave_eq (hr : r.Settled) (hbacked : r.Backed) (id : Nat)
    (close : Text) :
    let left := if (r.group id).pending = 0 then r.queueRemove id else r
    r.guardedLeave id close =
        .ok (if close.isEmpty then left else left.text close) ∧
      (if close.isEmpty then left else left.text close).Backed := by
  have hleft : (if (r.group id).pending = 0 then
        r.queueRemove id else r).Settled ∧
      (if (r.group id).pending = 0 then r.queueRemove id else r).Backed := by
    split_ifs
    · exact ⟨(settled_queueRemove hr id).1, backed_queueRemove hbacked id⟩
    · exact ⟨hr, hbacked⟩
  rw [guardedLeave, demand_bind (hbacked.levels id)]
  dsimp only
  generalize (if (r.group id).pending = 0 then
    r.queueRemove id else r) = left at hleft
  by_cases hempty : close.isEmpty = true
  · rw [if_pos hempty, if_pos hempty]
    exact ⟨rfl, hleft.2⟩
  · rw [if_neg hempty, if_neg hempty]
    exact guardedText_eq hleft.1 hleft.2 close

theorem guardedEndGroup_eq (hr : r.Settled) (hbacked : r.Backed)
    (close : Text) :
    r.guardedEndGroup close = (r.endGroup close).mapError .error ∧
      ∀ r', r.endGroup close = .ok r' → r'.Backed := by
  rw [guardedEndGroup, endGroup]
  cases hstack : r.groupStack with
  | nil => exact absurd hstack hr.inhabited
  | cons id outer =>
      cases outer with
      | nil => exact ⟨rfl, (by simp)⟩
      | cons parent rest =>
          have hknown : id < r.groups.length := by
            apply hr.known
            simp [hstack]
          have hclosed := settled_groupStack hr hstack
            (r.indentation - (r.group id).indent)
          have hbacked' : Backed { r with
              groupStack := parent :: rest
              indentation := r.indentation - (r.group id).indent } :=
            ⟨⟨hbacked.named, hbacked.levels⟩, hbacked.width⟩
          dsimp only
          rw [demand_bind hknown]
          by_cases hfresh : ((r.group id).comment &&
              !(r.buffer.isEmpty && r.atLineStart)) = true
          · obtain ⟨heq, hline⟩ := guardedNewline_eq hclosed hbacked' none
            obtain ⟨hsettled, -, -⟩ := @settled_newline _ hclosed none (by simp)
            obtain ⟨hleave, hdone⟩ := guardedLeave_eq hsettled hline id
              (if (r.group id).comment then trimStart close else close)
            rw [if_pos hfresh, if_pos hfresh, heq]
            refine ⟨hleave, ?_⟩
            rintro r' hok
            obtain rfl := Except.ok.inj hok
            exact hdone
          · obtain ⟨hleave, hdone⟩ := guardedLeave_eq hclosed hbacked' id
              (if (r.group id).comment then trimStart close else close)
            rw [if_neg hfresh, if_neg hfresh]
            refine ⟨hleave, ?_⟩
            rintro r' hok
            obtain rfl := Except.ok.inj hok
            exact hdone

end Operations

section Commands

/-- How many groups commands open. -/
def groupsOpened (cmds : List Cmd) : Nat :=
  cmds.countP fun
    | .beginGroup _ _ => true
    | _ => false

theorem groupsOpened_append (cmds cmds' : List Cmd) :
    groupsOpened (cmds ++ cmds') = groupsOpened cmds + groupsOpened cmds' :=
  List.countP_append

/-- What running commands keeps, and how many groups it opens. -/
structure Kept (r r' : Renderer) (opened : Nat) : Prop where
  settled : r'.Settled
  backed : r'.Backed
  forceBreak : r'.forceBreak = r.forceBreak
  length : r'.groups.length = r.groups.length + opened

theorem Kept.trans {r r' r'' : Renderer} {opened opened' : Nat}
    (h : Kept r r' opened) (h' : Kept r' r'' opened') :
    Kept r r'' (opened + opened') where
  settled := h'.settled
  backed := h'.backed
  forceBreak := h'.forceBreak.trans h.forceBreak
  length := by rw [h'.length, h.length, Nat.add_assoc]

/-- The guarded computation is the other one, and what that ends in is kept. -/
structure Guards (guarded : Guarded Renderer)
    (plain : Except PrinterError Renderer) (r : Renderer) (opened : Nat) :
    Prop where
  same : guarded = plain.mapError .error
  kept : ∀ r', plain = .ok r' → Kept r r' opened

variable {r : Renderer}

theorem guards_ok {guarded : Guarded Renderer} {r' : Renderer} {opened : Nat}
    (hsame : guarded = .ok r') (hkept : Kept r r' opened) :
    Guards guarded (.ok r') r opened where
  same := hsame
  kept r'' hok := by
    obtain rfl := Except.ok.inj hok
    exact hkept

theorem Guards.bind {guarded : Guarded Renderer}
    {plain : Except PrinterError Renderer} {opened opened' : Nat}
    (h : Guards guarded plain r opened)
    {guardedNext : Renderer → Guarded Renderer}
    {next : Renderer → Except PrinterError Renderer}
    (hnext : ∀ r', Kept r r' opened →
      Guards (guardedNext r') (next r') r' opened') :
    Guards (guarded >>= guardedNext) (plain >>= next) r
      (opened + opened') := by
  rw [h.same]
  cases hplain : plain with
  | error e => exact ⟨rfl, nofun⟩
  | ok r' =>
      have hkept := h.kept r' hplain
      obtain ⟨hsame, hrest⟩ := hnext r' hkept
      exact ⟨hsame, fun r'' hok => hkept.trans (hrest r'' hok)⟩

theorem Guards.audited {guarded : Guarded Renderer}
    {plain : Except PrinterError Renderer} {opened : Nat}
    (h : Guards guarded plain r opened) :
    Guards (guarded >>= fun r => do
      demand r.Tracks .drift
      return r) plain r opened where
  same := by
    rw [h.same]
    cases hplain : plain with
    | error e => rfl
    | ok r' =>
        have hkept := h.kept r' hplain
        exact demand_bind (tracks_of hkept.settled.toConsistent hkept.backed)
          _ _
  kept := h.kept

/-- What a command other than a splice does is guarded. -/
theorem guards_command (hr : r.Settled) (hbacked : r.Backed)
    {splice : List Cmd → Renderer → Except PrinterError Renderer}
    {guardedSplice : List Cmd → Renderer → Guarded Renderer}
    {slots : List Slot} {cmd : Cmd} (hcmd : ∀ id, cmd ≠ .splice id)
    (hforce : r.groups.length + groupsOpened [cmd] ≤ r.forceBreak.length) :
    Guards (guardedCommand guardedSplice slots r cmd)
      (execute splice slots r cmd) r (groupsOpened [cmd]) := by
  have hsame : ∀ r', execute splice slots r cmd = .ok r' →
      r'.forceBreak = r.forceBreak := by
    intro r' hok
    apply @forceBreak_execute r slots cmd
    cases cmd with
    | splice id => exact absurd rfl (hcmd id)
    | _ => exact hok
  cases cmd with
  | splice id => exact absurd rfl (hcmd id)
  | text s =>
      obtain ⟨heq, hbacked'⟩ := guardedText_eq hr hbacked s
      obtain ⟨hsettled, hcontinues⟩ := settled_text hr s
      exact guards_ok heq ⟨hsettled, hbacked', hsame _ rfl,
        hcontinues.nesting.length⟩
  | breakable sep =>
      obtain ⟨heq, hbacked'⟩ := guardedBreakable_eq hr hbacked sep
      obtain ⟨hsettled, hnesting, -⟩ := settled_breakable hr sep
      exact guards_ok heq ⟨hsettled, hbacked', hsame _ rfl, hnesting.length⟩
  | ifBreak s =>
      obtain ⟨heq, hbacked'⟩ := guardedIfBreak_eq hr hbacked s
      obtain ⟨hsettled, hcontinues⟩ := settled_ifBreak hr s
      exact guards_ok heq ⟨hsettled, hbacked', hsame _ rfl,
        hcontinues.nesting.length⟩
  | hardBreak =>
      obtain ⟨heq, hbacked'⟩ := guardedNewline_eq hr hbacked none
      obtain ⟨hsettled, hnesting, -⟩ := @settled_newline r hr none (by simp)
      exact guards_ok heq ⟨hsettled, hbacked', hsame _ rfl, hnesting.length⟩
  | beginGroup indent opening =>
      obtain ⟨heq, hbacked'⟩ :=
        guardedBeginGroup_eq hr hbacked indent opening hforce
      obtain ⟨hsettled, -, hlength, -⟩ := settled_beginGroup hr indent opening
      exact guards_ok heq ⟨hsettled, hbacked', hsame _ rfl, hlength⟩
  | endGroup close =>
      obtain ⟨heq, hbacked'⟩ := guardedEndGroup_eq hr hbacked close
      refine ⟨heq, fun r' hok => ?_⟩
      obtain ⟨hsettled, -, hlength, -⟩ := settled_endGroup hr hok
      exact ⟨hsettled, hbacked' r' hok, hsame r' hok, hlength⟩
  | shiftIndent delta =>
      obtain ⟨hsettled, -⟩ := @Settled.congr r
        { r with indentation := r.indentation + delta } hr rfl rfl rfl rfl rfl
      exact guards_ok rfl ⟨hsettled,
        ⟨⟨hbacked.named, hbacked.levels⟩, hbacked.width⟩, rfl, rfl⟩
  | comment s =>
      obtain ⟨hsettled, hcontinues⟩ := settled_comment hr s
      exact guards_ok rfl ⟨hsettled, backed_comment hbacked s, hsame _ rfl,
        hcontinues.nesting.length⟩

/-- Commands are guarded one after the other, those of the slots at their
splices. -/
theorem guards_foldlM {slots : List Slot}
    {splice : List Cmd → Renderer → Except PrinterError Renderer}
    {guardedSplice : List Cmd → Renderer → Guarded Renderer}
    {inline : List Cmd → List Cmd} {cmds : List Cmd}
    (hsplice : ∀ id, .splice id ∈ cmds → ∃ slot, slots[id]? = some slot ∧
      ∀ r : Renderer, r.Settled → r.Backed →
        r.groups.length + groupsOpened (inline slot.commands) ≤
          r.forceBreak.length →
        Guards (guardedSplice slot.commands r) (splice slot.commands r) r
          (groupsOpened (inline slot.commands)))
    (hr : r.Settled) (hbacked : r.Backed)
    (hforce : r.groups.length +
      groupsOpened (cmds.flatMap (inlineCmd inline slots)) ≤
        r.forceBreak.length) :
    Guards (cmds.foldlM (guardedExecute guardedSplice slots) r)
      (cmds.foldlM (execute splice slots) r) r
      (groupsOpened (cmds.flatMap (inlineCmd inline slots))) := by
  induction cmds generalizing r with
  | nil => exact guards_ok rfl ⟨hr, hbacked, rfl, rfl⟩
  | cons cmd rest ih =>
      rw [List.flatMap_cons, groupsOpened_append] at hforce ⊢
      have hone : Guards (guardedCommand guardedSplice slots r cmd)
          (execute splice slots r cmd) r
          (groupsOpened (inlineCmd inline slots cmd)) := by
        by_cases hcmd : ∃ id, cmd = .splice id
        · obtain ⟨id, rfl⟩ := hcmd
          obtain ⟨slot, hslot, hguards⟩ := hsplice id List.mem_cons_self
          rw [guardedCommand, execute, inlineCmd, hslot]
          rw [inlineCmd, hslot] at hforce
          apply hguards r hr hbacked
          exact Nat.le_trans (Nat.add_le_add_left (Nat.le_add_right _ _) _)
            hforce
        · have hne : ∀ id, cmd ≠ .splice id := fun id h => hcmd ⟨id, h⟩
          rw [inlineCmd_of_ne hne] at hforce ⊢
          apply guards_command hr hbacked hne
          exact Nat.le_trans (Nat.add_le_add_left (Nat.le_add_right _ _) _)
            hforce
      rw [List.foldlM_cons, List.foldlM_cons]
      apply hone.audited.bind
      intro r' hkept
      apply ih (fun id hid => hsplice id (List.mem_cons_of_mem cmd hid))
        hkept.settled hkept.backed
      rw [hkept.length, hkept.forceBreak, Nat.add_assoc]
      exact hforce

/-- Splices are of slots that exist, and those in a slot of later ones, so that
the number of slots bounds how deep they are nested. -/
theorem guards_run {slots : List Slot}
    (hlater : ∀ (id : Nat) (slot : Slot), slots[id]? = some slot →
      ∀ inner, .splice inner ∈ slot.commands →
        inner < slots.length ∧ id < inner)
    (nesting : Nat) {cmds : List Cmd}
    (hcmds : ∀ id, .splice id ∈ cmds →
      id < slots.length ∧ slots.length ≤ id + nesting)
    (hr : r.Settled) (hbacked : r.Backed)
    (hforce : r.groups.length + groupsOpened (inlined slots nesting cmds) ≤
      r.forceBreak.length) :
    Guards (guardedRun slots nesting cmds r) (run slots nesting cmds r) r
      (groupsOpened (inlined slots nesting cmds)) := by
  induction nesting generalizing cmds r with
  | zero =>
      apply guards_foldlM _ hr hbacked hforce
      intro id hid
      have hbounds := hcmds id hid
      omega
  | succ nesting ih =>
      apply guards_foldlM _ hr hbacked hforce
      intro id hid
      obtain ⟨hlt, hle⟩ := hcmds id hid
      refine ⟨slots[id], List.getElem?_eq_getElem hlt, ?_⟩
      intro r hr hbacked hforce
      apply ih _ hr hbacked hforce
      intro inner hinner
      obtain ⟨hinnerLt, hafter⟩ := hlater id slots[id]
        (List.getElem?_eq_getElem hlt) inner hinner
      exact ⟨hinnerLt, by omega⟩

end Commands

end Renderer

end Hegel
