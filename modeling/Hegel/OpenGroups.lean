/-
What waits can still break.  An open group that does not break yet is in the
queue, and no breakable of it was written as a separator; so every breakable
that waits belongs to a group in the queue, and breaking goes on until the line
fits or nothing waits.
-/
import Hegel.LayoutGroups

namespace Hegel

namespace Renderer

/-- While tokens are output for a group that breaks or for none: everything else
that waits is in the queue, so is every open group that does not break, and the
groups around an open one that breaks do so, too. -/
structure Queues (target : Option Nat) (r : Renderer) : Prop where
  waiting : ∀ id ∈ waiting r.buffer, id ∈ r.queued ∨ target = some id
  opened : ∀ id ∈ r.groupStack,
    id ∈ r.queued ∨ (r.group id).wantBreak = true
  outward : r.groupStack.Pairwise fun inner outer =>
    (r.group inner).wantBreak = true → (r.group outer).wantBreak = true

section Deq

variable {depth : Nat → Nat} {d : Nat}

/-- What is not broken is left, the broken groups lie no deeper, and a group
that is found is taken out. -/
theorem deqLevels_left (r : Renderer) {levels : List (List Nat)}
    (hlevels : LevelledFrom depth d levels) :
    (∀ x ∈ levels.flatten, x ∈ (r.deqLevels levels).1.flatten ∨
        x ∈ (r.deqLevels levels).2.2) ∧
      (∀ x ∈ (r.deqLevels levels).2.2, ∀ y ∈ (r.deqLevels levels).1.flatten,
        depth x ≤ depth y) ∧
      (r.deqLevels levels).1.flatten.length +
        (r.deqLevels levels).2.1.toList.length ≤ levels.flatten.length := by
  induction levels generalizing d with
  | nil => simp [deqLevels]
  | cons level rest ih =>
      obtain ⟨⟨hnodup, hlevel⟩, hrest⟩ := hlevels
      rw [deqLevels]
      cases hfind : level.find? fun id => (r.group id).pending > 0 with
      | some id =>
          have hid := List.mem_of_find?_eq_some hfind
          refine ⟨?_, ?_, ?_⟩
          · intro x hx
            simp only [List.flatten_cons, List.mem_append,
              hnodup.mem_erase_iff, List.mem_singleton] at hx ⊢
            tauto
          · intro x hx y hy
            rw [List.mem_singleton.mp hx, hlevel id hid]
            simp only [List.flatten_cons, List.mem_append] at hy
            rcases hy with hy | hy
            · exact Nat.le_of_eq (hlevel y (List.mem_of_mem_erase hy)).symm
            · exact Nat.le_of_succ_le (hrest.le_depth hy)
          · have hlength := List.length_erase_of_mem hid
            have hpos := List.length_pos_of_mem hid
            simp only [List.flatten_cons, List.length_append,
              Option.toList_some, List.length_singleton]
            omega
      | none =>
          obtain ⟨hleft, hbroken, hlength⟩ := ih hrest
          have hdequeued := r.dequeued hrest
          generalize r.deqLevels rest = result
            at hleft hbroken hlength hdequeued
          obtain ⟨levels', found, broken⟩ := result
          refine ⟨?_, ?_, ?_⟩
          · intro x hx
            simp only [List.flatten_cons, List.mem_append,
              List.nil_append] at hx ⊢
            rcases hx with hx | hx
            · exact .inr (.inl hx)
            · exact (hleft x hx).imp_right .inr
          · intro x hx y hy
            simp only [List.flatten_cons, List.nil_append] at hy
            rcases List.mem_append.mp hx with hx | hx
            · rw [hlevel x hx]
              exact Nat.le_of_succ_le (hdequeued.levelled.le_depth hy)
            · exact hbroken x hx y hy
          · simp only [List.flatten_cons, List.nil_append, List.length_append]
            dsimp only at hlength
            omega

end Deq

section Pop

variable {r : Renderer} {token : Token} {rest : List Token}
  {target : Option Nat}

/-- Only a group whose last breakable is written as a separator leaves the
queue. -/
theorem mem_queued_outputToken (hlevelled : r.Levelled) {id : Nat}
    (hid : id ∈ r.queued) :
    id ∈ (r.outputToken token).queued ∨ (token.owner = some id ∧
      (r.group id).wantBreak = false ∧ (r.group id).pending ≤ 1) := by
  cases token with
  | text content width => exact .inl hid
  | comment content => exact .inl hid
  | ifBreak content owner =>
      rw [outputToken]
      split_ifs
      · exact .inl hid
      · exact .inl hid
  | breakable sep width indent owner =>
      have hgroup : ∀ x, (r.countOut owner).group x = _ := r.group_countOut
      rw [outputToken]
      dsimp only
      by_cases hbroken : ((r.countOut owner).group owner).wantBreak = true
      · rw [if_pos hbroken]
        exact .inl hid
      · rw [if_neg hbroken]
        by_cases hlast : ((r.countOut owner).group owner).pending = 0
        · rw [if_pos hlast]
          by_cases hsame : id = owner
          · subst hsame
            rw [hgroup, if_pos rfl] at hbroken hlast
            refine .inr ⟨rfl, Bool.eq_false_iff.mpr hbroken, ?_⟩
            dsimp only at hlast
            omega
          · have hlevels : LevelledFrom
                (fun x => ((r.countOut owner).group x).depth) 0
                r.groupQueue := by
              apply hlevelled.congr
              intro x _
              rw [hgroup]
              split_ifs <;> rfl
            have hremoved := hlevels.remove
              (Nat.zero_add ((r.countOut owner).group owner).depth).symm
            exact .inl ((hremoved.2 id).mpr ⟨hid, hsame⟩)
        · rw [if_neg hlast]
          exact .inl hid

/-- A token may be output unless it is a separator of an open group. -/
theorem Queues.pop (hq : r.Queues target) (hr : r.Consistent)
    (hbuffer : r.buffer = token :: rest) (width : Nat)
    (hclosed : ∀ id, token.owner = some id →
      (r.group id).wantBreak = false → id ∉ r.groupStack) :
    (r.pop token rest width).Queues target := by
  have hout := @outputs_pop r token rest hr.levelled width
  have hbuffer' : (r.pop token rest width).buffer = rest := hout.buffer
  have hwaiting : Hegel.waiting r.buffer =
      token.owner.toList ++ Hegel.waiting rest := by
    rw [hbuffer, waiting_cons]
  have hkept : ∀ id ∈ r.queued, id ∈ (r.pop token rest width).queued ∨
      (token.owner = some id ∧ (r.group id).wantBreak = false ∧
        (r.group id).pending ≤ 1) := by
    have hlevelled : Levelled { r with buffer := rest, bufferWidth := width } :=
      hr.levelled
    exact fun id hid => mem_queued_outputToken hlevelled hid
  constructor
  · intro id hid
    rw [hbuffer'] at hid
    have hmem : id ∈ Hegel.waiting r.buffer := by
      rw [hwaiting]
      exact List.mem_append_right _ hid
    refine (hq.waiting id hmem).imp_left fun hqueued => ?_
    refine (hkept id hqueued).resolve_right ?_
    rintro ⟨howner, -, hpending⟩
    rw [hr.counted, hwaiting, howner, Option.toList_some,
      List.singleton_append, List.count_cons_self] at hpending
    have hcount := List.count_pos_iff.mpr hid
    omega
  · intro id hid
    rw [hout.nesting.groupStack] at hid
    rw [hout.wantBreak]
    rcases hq.opened id hid with hqueued | hwant
    · refine .inl ((hkept id hqueued).resolve_right ?_)
      rintro ⟨howner, hflat, -⟩
      exact hclosed id howner hflat hid
    · exact .inr hwant
  · rw [hout.nesting.groupStack]
    refine hq.outward.imp ?_
    intro inner outer himp
    rw [hout.wantBreak, hout.wantBreak]
    exact himp

/-- While a group waits that breaks, what is written as a separator before its
last breakable belongs to no open group. -/
theorem Queues.closed {x : Nat} (hq : r.Queues (some x))
    (hr : r.Draining (some x)) (hbuffer : r.buffer = token :: rest)
    (hx : x ∈ Hegel.waiting r.buffer) :
    ∀ id, token.owner = some id → (r.group id).wantBreak = false →
      id ∉ r.groupStack := by
  intro id howner hflat hopen
  have hbroken := hr.wants x rfl
  have hne : x ≠ id := by
    rintro rfl
    rw [hbroken] at hflat
    cases hflat
  have hwaiting : Hegel.waiting r.buffer = [] ++ id :: Hegel.waiting rest := by
    rw [hbuffer, waiting_cons, howner]
    rfl
  have hafter : x ∈ Hegel.waiting rest := by
    rw [hwaiting, List.nil_append, List.mem_cons] at hx
    exact hx.resolve_left hne
  have hdeeper := (hr.opened id hopen [] (Hegel.waiting rest) hwaiting x
    hafter).resolve_left hne
  have hqueued : id ∈ r.queued := by
    refine (hq.waiting id ?_).resolve_right ?_
    · rw [hwaiting]
      simp
    · intro htarget
      exact hne (Option.some.inj htarget)
  exact absurd (hr.lowest x rfl id hqueued) (Nat.not_le_of_lt hdeeper)

end Pop

section Loops

variable {r : Renderer}

/-- Outputting tokens as long as a condition holds keeps what each step
keeps. -/
theorem popWhile_induction {holds : Renderer → Prop}
    {condition : Renderer → Bool}
    (hpop : ∀ (r : Renderer) (token : Token) (rest : List Token),
      condition r = true → r.buffer = token :: rest → holds r →
        holds (r.pop token rest (r.bufferWidth - token.width)) ∧
          (r.pop token rest (r.bufferWidth - token.width)).buffer = rest)
    (hr : holds r) : holds (popWhile condition r.buffer r) := by
  generalize hbuffer : r.buffer = buffer
  induction buffer generalizing r with
  | nil => exact hr
  | cons token rest ih =>
      rw [popWhile]
      by_cases hcondition : condition r = true
      · rw [if_pos hcondition]
        obtain ⟨hnext, hrest⟩ := hpop r token rest hcondition hbuffer hr
        exact ih hnext hrest
      · rw [if_neg hcondition]
        exact hr

/-- So does outputting all of them. -/
theorem flushTokens_induction {holds : Renderer → Prop}
    (hpop : ∀ (r : Renderer) (token : Token) (rest : List Token),
      r.buffer = token :: rest → holds r →
        holds (r.pop token rest r.bufferWidth) ∧
          (r.pop token rest r.bufferWidth).buffer = rest)
    (hr : holds r) : holds (flushTokens r.buffer r) := by
  generalize hbuffer : r.buffer = buffer
  induction buffer generalizing r with
  | nil => exact hr
  | cons token rest ih =>
      obtain ⟨hnext, hrest⟩ := hpop r token rest hbuffer hr
      exact ih hnext hrest

/-- Taking a group out of the queue leaves what waits in it, but for that
group; and something is taken as long as something waits. -/
theorem Queues.deq (hq : r.Queues none) (hr : r.Settled) :
    r.deq.1.Queues r.deq.2 ∧ (r.deq.2 = none → Hegel.waiting r.buffer = []) ∧
      r.deq.1.queued.length + r.deq.2.toList.length ≤ r.queued.length := by
  have hdeq := r.dequeued hr.levelled
  have hleft := r.deqLevels_left hr.levelled
  rw [Renderer.deq]
  dsimp only
  generalize r.deqLevels r.groupQueue = result at hdeq hleft
  obtain ⟨levels, found, broken⟩ := result
  dsimp only at hdeq hleft ⊢
  obtain ⟨hleft, hlow, hlength⟩ := hleft
  have hknown : ∀ id ∈ broken,
      id < ({ r with groupQueue := levels } : Renderer).groups.length := by
    intro id hid
    exact hr.known id (List.mem_append_right _ (hdeq.marked id hid).1)
  obtain ⟨-, hbuffer, hstack, hqueue, -, hgroup⟩ := setWantBreaks broken hknown
  generalize broken.foldl setWantBreak { r with groupQueue := levels } = r'
    at hbuffer hstack hqueue hgroup
  replace hgroup : ∀ x, r'.group x = { r.group x with
      wantBreak := (r.group x).wantBreak || decide (x ∈ broken) } := hgroup
  have hwaiting : ∀ id ∈ Hegel.waiting r.buffer, id ∈ r.queued := by
    intro id hid
    exact (hq.waiting id hid).resolve_right (by simp)
  have hfound : ∀ id ∈ broken, id ∈ Hegel.waiting r.buffer → found = some id := by
    intro id hid hmem
    refine (hdeq.marked id hid).2.resolve_right fun hpending => ?_
    rw [hr.counted] at hpending
    exact List.count_eq_zero.mp hpending hmem
  refine ⟨⟨?_, ?_, ?_⟩, ?_, ?_⟩
  · intro id hid
    rw [hbuffer] at hid
    rw [queued, hqueue]
    exact (hleft id (hwaiting id hid)).imp_right fun h => hfound id h hid
  · intro id hid
    rw [hstack] at hid
    rw [queued, hqueue, hgroup]
    rcases hq.opened id hid with hqueued | hwant
    · refine (hleft id hqueued).imp_right fun h => ?_
      rw [decide_eq_true h, Bool.or_true]
    · exact .inr (by rw [hwant, Bool.true_or])
  · rw [hstack]
    refine (hq.outward.and hr.stacked).imp_of_mem ?_
    rintro inner outer - houter ⟨himp, hdepth⟩ hinner
    rw [hgroup, Bool.or_eq_true, decide_eq_true_eq] at hinner
    rw [hgroup, Bool.or_eq_true, decide_eq_true_eq]
    rcases hinner with hinner | hinner
    · exact .inl (himp hinner)
    · rcases hq.opened outer houter with hqueued | hwant
      · refine .inr ((hleft outer hqueued).resolve_left fun hmem => ?_)
        exact absurd (hlow inner hinner outer hmem) (Nat.not_le_of_lt hdepth)
      · exact .inl hwant
  · intro hnone
    rw [List.eq_nil_iff_forall_not_mem]
    intro id hid
    rcases hleft id (hwaiting id hid) with hmem | hmem
    · rw [hdeq.all hnone] at hmem
      cases hmem
    · have hsome := hfound id hmem hid
      rw [hnone] at hsome
      cases hsome
  · rw [queued, hqueue]
    exact hlength

end Loops

end Renderer

end Hegel
