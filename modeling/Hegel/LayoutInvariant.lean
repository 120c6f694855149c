/-
The breakables that wait in the buffer.  Once one of a group was written as its
separator the group is out of the queue, and once the group breaks none of it
waits any more; while tokens are output, the groups that are only partly
written are those whose last breakable comes before that of the broken group.
-/
import Hegel.GroupQueue
import Mathlib.Data.List.GetD

namespace Hegel

def Token.owner : Token → Option Nat
  | .breakable _ _ _ id => some id
  | _ => none

/-- The groups of the waiting breakables, in order. -/
def waiting (buffer : List Token) : List Nat :=
  buffer.filterMap Token.owner

/-- What became of a breakable: whether it is a newline. -/
def Piece.break : Piece → Option (Nat × Bool)
  | .newline (some id) _ => some (id, true)
  | .separator id _ => some (id, false)
  | _ => none

def breaks (out : List Piece) : List (Nat × Bool) :=
  out.filterMap Piece.break

/-- Between two breakables of one group there are only its own and those of
groups inside it. -/
def NestedOwners (depth : Nat → Nat) (owners : List Nat) : Prop :=
  ∀ before between after id, owners = before ++ id :: between ++ id :: after →
    ∀ other ∈ between, other = id ∨ depth id < depth other

/-- The same after the first breakable of a group that is still open. -/
def OpenOwners (depth : Nat → Nat) (stack owners : List Nat) : Prop :=
  ∀ id ∈ stack, ∀ before after, owners = before ++ id :: after →
    ∀ other ∈ after, other = id ∨ depth id < depth other

section Owners

variable {depth : Nat → Nat} {stack owners first second : List Nat} {id : Nat}

@[simp] theorem waiting_append (first second : List Token) :
    waiting (first ++ second) = waiting first ++ waiting second :=
  List.filterMap_append

@[simp] theorem breaks_append (first second : List Piece) :
    breaks (first ++ second) = breaks first ++ breaks second :=
  List.filterMap_append

theorem waiting_cons (token : Token) (rest : List Token) :
    waiting (token :: rest) = token.owner.toList ++ waiting rest := by
  rw [waiting, List.filterMap_cons]
  cases token.owner <;> rfl

theorem waiting_pushText (s : Text) (buffer : List Token) :
    waiting (Renderer.pushText s buffer) = waiting buffer := by
  induction buffer using Renderer.pushText.induct with
  | case1 => rfl
  | case2 content width => rfl
  | case3 token rest hnot ih =>
      rw [Renderer.pushText, waiting_cons, waiting_cons, ih]
      exact hnot

theorem NestedOwners.of_append (h : NestedOwners depth (first ++ second)) :
    NestedOwners depth second := by
  intro before between after id heq
  apply h (first ++ before) between after id
  rw [heq]
  simp

theorem OpenOwners.of_append (h : OpenOwners depth stack (first ++ second)) :
    OpenOwners depth stack second := by
  intro id hid before after heq
  apply h id hid (first ++ before) after
  rw [heq]
  simp

theorem NestedOwners.congr {depth' : Nat → Nat}
    (h : NestedOwners depth owners)
    (hsame : ∀ x ∈ owners, depth' x = depth x) :
    NestedOwners depth' owners := by
  intro before between after id heq other hother
  rw [hsame id (by simp [heq]), hsame other (by simp [heq, hother])]
  exact h before between after id heq other hother

theorem OpenOwners.congr {depth' : Nat → Nat}
    (h : OpenOwners depth stack owners)
    (hsame : ∀ x ∈ owners, depth' x = depth x) :
    OpenOwners depth' stack owners := by
  intro id hid before after heq other hother
  rw [hsame id (by simp [heq]), hsame other (by simp [heq, hother])]
  exact h id hid before after heq other hother

/-- A breakable of an open group may follow. -/
theorem NestedOwners.concat (hnested : NestedOwners depth owners)
    (hopen : OpenOwners depth stack owners) (hid : id ∈ stack) :
    NestedOwners depth (owners ++ [id]) := by
  intro before between after other heq
  rcases List.eq_nil_or_concat after with rfl | ⟨after', last, rfl⟩
  · obtain ⟨howners, hlast⟩ := List.append_inj' heq rfl
    obtain rfl : id = other := by simpa using hlast
    exact hopen id hid before between howners
  · rw [List.concat_eq_append, ← List.cons_append, ← List.append_assoc] at heq
    exact hnested before between after' other (List.append_inj' heq rfl).1

/-- A breakable of the innermost group may follow. -/
theorem OpenOwners.concat (hopen : OpenOwners depth stack owners)
    (hid : ∀ other ∈ stack, other = id ∨ depth other < depth id) :
    OpenOwners depth stack (owners ++ [id]) := by
  intro outer houter before after heq
  rcases List.eq_nil_or_concat after with rfl | ⟨after', last, rfl⟩
  · intro other hother
    cases hother
  · rw [List.concat_eq_append, ← List.cons_append, ← List.append_assoc] at heq
    obtain ⟨howners, hlast⟩ := List.append_inj' heq rfl
    obtain rfl : id = last := by simpa using hlast
    intro other hother
    rw [List.concat_eq_append] at hother
    rcases List.mem_append.mp hother with hother | hother
    · exact hopen outer houter before after' howners other hother
    · rw [List.mem_singleton.mp hother]
      rcases hid outer houter with rfl | hlt
      · exact .inl rfl
      · exact .inr hlt

end Owners

namespace Renderer

section Groups

theorem getD_modify {groups : List Group} {f : Group → Group} {id : Nat}
    (hid : id < groups.length ∨ f .root = .root) (x : Nat) :
    (groups.modify id f).getD x .root =
      if x = id then f (groups.getD x .root) else groups.getD x .root := by
  rw [List.getD_eq_getElem?_getD, List.getD_eq_getElem?_getD,
    List.getElem?_modify]
  by_cases hsame : x = id
  · subst hsame
    rw [if_pos rfl]
    by_cases hx : x < groups.length
    · rw [List.getElem?_eq_getElem hx]
      simp
    · rw [List.getElem?_eq_none (Nat.le_of_not_lt hx)]
      exact (hid.resolve_left hx).symm
  · rw [if_neg hsame]
    simp [Ne.symm hsame]

variable (r : Renderer) {id : Nat} (x : Nat)

theorem group_countOut : (r.countOut id).group x =
    if x = id then { r.group x with pending := (r.group x).pending - 1 }
    else r.group x :=
  getD_modify (.inr rfl) x

theorem group_setWantBreak (hid : id < r.groups.length) :
    (r.setWantBreak id).group x =
      if x = id then { r.group x with wantBreak := true } else r.group x :=
  getD_modify (.inl hid) x

end Groups

section Marks

theorem foldl_setWantBreak (broken : List Nat) (r : Renderer) :
    ∃ groups, broken.foldl setWantBreak r = { r with groups } := by
  induction broken generalizing r with
  | nil => exact ⟨r.groups, rfl⟩
  | cons id rest ih =>
      obtain ⟨groups, hgroups⟩ := ih (r.setWantBreak id)
      exact ⟨groups, hgroups⟩

/-- Only the queue changes and which groups break. -/
theorem deq_eq (r : Renderer) :
    ∃ levels groups, r.deq.1 = { r with groupQueue := levels, groups } := by
  obtain ⟨groups, hgroups⟩ := foldl_setWantBreak
    (r.deqLevels r.groupQueue).2.2
    { r with groupQueue := (r.deqLevels r.groupQueue).1 }
  exact ⟨_, groups, hgroups⟩

end Marks

/-- What no output changes: how the groups are nested. -/
structure SameNesting (r r' : Renderer) : Prop where
  groupStack : r'.groupStack = r.groupStack
  length : r'.groups.length = r.groups.length
  depth : ∀ id, (r'.group id).depth = (r.group id).depth

/-- The groups in the queue. -/
def queued (r : Renderer) : List Nat :=
  r.groupQueue.flatten

def Levelled (r : Renderer) : Prop :=
  LevelledFrom (fun id => (r.group id).depth) 0 r.groupQueue

/-- What the output of a token does. -/
structure Outputs (r : Renderer) (token : Token) (r' : Renderer) : Prop where
  nesting : SameNesting r r'
  buffer : r'.buffer = r.buffer
  wantBreak : ∀ id, (r'.group id).wantBreak = (r.group id).wantBreak
  pending : ∀ id, (r'.group id).pending =
    (r.group id).pending - token.owner.toList.count id
  breaks : breaks r'.out = Hegel.breaks r.out ++
    (token.owner.map fun id => (id, (r.group id).wantBreak)).toList
  levelled : r'.Levelled
  queue : ∀ id ∈ r'.queued, id ∈ r.queued
  removed : ∀ id ∈ token.owner, (r.group id).wantBreak = false →
    (r.group id).pending ≤ 1 → id ∉ r'.queued

theorem sameNesting_refl (r : Renderer) : SameNesting r r :=
  ⟨rfl, rfl, fun _ => rfl⟩

theorem SameNesting.trans {r r' r'' : Renderer} (h : SameNesting r r')
    (h' : SameNesting r' r'') : SameNesting r r'' where
  groupStack := h'.groupStack.trans h.groupStack
  length := h'.length.trans h.length
  depth id := (h'.depth id).trans (h.depth id)

section Output

variable {r : Renderer}

/-- Text changes nothing about groups. -/
theorem outputs_text {r' : Renderer} {token : Token}
    (hlevelled : r.Levelled) (howner : token.owner = none)
    (hgroups : r'.groups = r.groups) (hstack : r'.groupStack = r.groupStack)
    (hqueue : r'.groupQueue = r.groupQueue) (hbuffer : r'.buffer = r.buffer)
    (hbreaks : Hegel.breaks r'.out = Hegel.breaks r.out) :
    Outputs r token r' := by
  have hgroup : ∀ id, r'.group id = r.group id := by
    intro id
    rw [group, group, hgroups]
  constructor
  · exact ⟨hstack, by rw [hgroups], fun id => by rw [hgroup]⟩
  · exact hbuffer
  · intro id
    rw [hgroup]
  · intro id
    rw [hgroup, howner]
    rfl
  · rw [hbreaks, howner]
    simp
  · rw [Levelled, hqueue]
    exact hlevelled.congr fun id _ => by rw [hgroup]
  · intro id hid
    rwa [queued, hqueue] at hid
  · intro id hid
    rw [howner] at hid
    cases hid

theorem breaks_write (content : Text) (width : Nat) :
    breaks (r.write content width).out = breaks r.out := by
  simp [write, breaks, Piece.break]

theorem outputs_outputToken (hlevelled : r.Levelled) (token : Token) :
    Outputs r token (r.outputToken token) := by
  cases token with
  | text content width =>
      exact outputs_text hlevelled rfl rfl rfl rfl rfl (breaks_write _ _)
  | comment content => exact outputs_text hlevelled rfl rfl rfl rfl rfl rfl
  | ifBreak content id =>
      rw [outputToken]
      by_cases hbroken : (r.group id).wantBreak = true
      · rw [if_pos hbroken]
        exact outputs_text hlevelled rfl rfl rfl rfl rfl (breaks_write _ _)
      · rw [if_neg hbroken]
        exact outputs_text hlevelled rfl rfl rfl rfl rfl rfl
  | breakable sep width indent owner =>
      have hgroup : ∀ id, (r.countOut owner).group id = _ :=
        r.group_countOut
      have hdepth : ∀ id,
          ((r.countOut owner).group id).depth = (r.group id).depth := by
        intro id
        rw [hgroup]
        split_ifs <;> rfl
      have hwant : ∀ id,
          ((r.countOut owner).group id).wantBreak =
            (r.group id).wantBreak := by
        intro id
        rw [hgroup]
        split_ifs <;> rfl
      have hpending : ∀ id, ((r.countOut owner).group id).pending =
          (r.group id).pending - [owner].count id := by
        intro id
        rw [hgroup, List.count_singleton]
        by_cases hsame : id = owner
        · simp [hsame]
        · simp [hsame, Ne.symm hsame]
      have hlength : (r.countOut owner).groups.length = r.groups.length :=
        List.length_modify ..
      have hlevels : LevelledFrom
          (fun id => ((r.countOut owner).group id).depth) 0 r.groupQueue :=
        hlevelled.congr fun id _ => hdepth id
      rw [outputToken]
      dsimp only
      by_cases hbroken : (r.group owner).wantBreak = true
      · rw [if_pos ((hwant owner).trans hbroken)]
        constructor
        · exact ⟨rfl, hlength, hdepth⟩
        · rfl
        · exact hwant
        · exact hpending
        · simp only [startLine, emitPendingComments, countOut, breaks_append,
            Token.owner, Option.map_some, hbroken, List.append_assoc]
          rfl
        · exact hlevels
        · exact fun _ h => h
        · intro id hid hflat
          obtain rfl : owner = id := by simpa [Token.owner] using hid
          rw [hbroken] at hflat
          cases hflat
      · have hflat : (r.group owner).wantBreak = false :=
          Bool.eq_false_iff.mpr hbroken
        rw [if_neg ((hwant owner).trans_ne hbroken)]
        have hremoved := hlevels.remove
          (Nat.zero_add ((r.countOut owner).group owner).depth).symm
        by_cases hlast : ((r.countOut owner).group owner).pending = 0
        · rw [if_pos hlast]
          constructor
          · exact ⟨rfl, hlength, hdepth⟩
          · rfl
          · exact hwant
          · exact hpending
          · simp only [queueRemove, countOut, breaks_append, Token.owner,
              Option.map_some, hflat]
            rfl
          · exact hremoved.1
          · exact fun id hid => ((hremoved.2 id).mp hid).1
          · intro id hid _ _
            obtain rfl : owner = id := by simpa [Token.owner] using hid
            exact fun hmem => ((hremoved.2 owner).mp hmem).2 rfl
        · rw [if_neg hlast]
          constructor
          · exact ⟨rfl, hlength, hdepth⟩
          · rfl
          · exact hwant
          · exact hpending
          · simp only [countOut, breaks_append, Token.owner, Option.map_some,
              hflat]
            rfl
          · exact hlevels
          · exact fun _ h => h
          · intro id hid _ hpending'
            obtain rfl : owner = id := by simpa [Token.owner] using hid
            rw [hpending, List.count_singleton_self] at hlast
            omega

end Output

/-- What holds of the renderer at any time. -/
structure Consistent (r : Renderer) : Prop where
  counted : ∀ id, (r.group id).pending = (waiting r.buffer).count id
  known : ∀ id ∈ waiting r.buffer ++ r.groupStack ++ r.queued,
    id < r.groups.length
  written : ∀ entry ∈ breaks r.out, entry.1 < r.groups.length
  levelled : r.Levelled
  nested : NestedOwners (fun id => (r.group id).depth) (waiting r.buffer)
  opened : OpenOwners (fun id => (r.group id).depth) r.groupStack
    (waiting r.buffer)
  stacked : r.groupStack.Pairwise fun inner outer =>
    (r.group outer).depth < (r.group inner).depth
  inhabited : r.groupStack ≠ []
  broken : ∀ id, (id, true) ∈ breaks r.out → (r.group id).wantBreak = true
  flat : ∀ id, (id, false) ∈ breaks r.out → (r.group id).wantBreak = false

/-- Between operations: no breakable of a broken group waits, and a group with
a separator cannot break any more. -/
structure Settled (r : Renderer) : Prop extends Consistent r where
  unbroken : ∀ id ∈ waiting r.buffer, (r.group id).wantBreak = false
  unqueued : ∀ id, (id, false) ∈ breaks r.out → id ∉ r.queued

/-- While tokens are output, for a group that breaks or for none: a group with
a separator that is in the queue still waits, and does so before the last
breakable of the group that breaks. -/
structure Draining (target : Option Nat) (r : Renderer) : Prop
    extends Consistent r where
  wants : ∀ x ∈ target, (r.group x).wantBreak = true
  unbroken : ∀ id ∈ waiting r.buffer, (r.group id).wantBreak = true →
    target = some id
  lowest : ∀ x ∈ target, ∀ id ∈ r.queued,
    (r.group x).depth ≤ (r.group id).depth
  remaining : ∀ id, (id, false) ∈ breaks r.out → id ∈ r.queued →
    id ∈ waiting r.buffer ∧ ∀ x ∈ target, ∃ before after,
      waiting r.buffer = before ++ x :: after ∧ id ∈ before

section Pop

variable {r : Renderer} {token : Token} {rest : List Token}

/-- Take the first token out of the buffer and output it. -/
def pop (r : Renderer) (token : Token) (rest : List Token) (width : Nat) :
    Renderer :=
  { r with buffer := rest, bufferWidth := width }.outputToken token

theorem buffer_outputToken (r : Renderer) (token : Token) :
    (r.outputToken token).buffer = r.buffer ∧
      (r.outputToken token).bufferWidth = r.bufferWidth := by
  cases token with
  | text content width => exact ⟨rfl, rfl⟩
  | comment content => exact ⟨rfl, rfl⟩
  | ifBreak content id =>
      rw [outputToken]
      split_ifs <;> exact ⟨rfl, rfl⟩
  | breakable sep width indent id =>
      rw [outputToken]
      dsimp only
      split_ifs <;> exact ⟨rfl, rfl⟩

theorem buffer_pop (width : Nat) : (r.pop token rest width).buffer = rest :=
  (buffer_outputToken _ token).1

theorem bufferWidth_pop (width : Nat) :
    (r.pop token rest width).bufferWidth = width :=
  (buffer_outputToken _ token).2

theorem outputs_pop (hlevelled : r.Levelled) (width : Nat) :
    Outputs { r with buffer := rest, bufferWidth := width } token
      (r.pop token rest width) := by
  have hlevelled' : Levelled { r with buffer := rest, bufferWidth := width } :=
    hlevelled
  exact outputs_outputToken hlevelled' token

theorem Consistent.pop (hr : r.Consistent) (hbuffer : r.buffer = token :: rest)
    (width : Nat) : (r.pop token rest width).Consistent := by
  have hout := @outputs_pop r token rest hr.levelled width
  have hwaiting : waiting r.buffer = token.owner.toList ++ waiting rest := by
    rw [hbuffer, waiting_cons]
  have hdepth : (fun id => ((r.pop token rest width).group id).depth) =
      fun id => (r.group id).depth := funext hout.nesting.depth
  have hbuffer' : (r.pop token rest width).buffer = rest := hout.buffer
  constructor
  · intro id
    refine (hout.pending id).trans ?_
    rw [hbuffer']
    have hcount := hr.counted id
    rw [hwaiting, List.count_append] at hcount
    exact Nat.sub_eq_of_eq_add (hcount.trans (Nat.add_comm _ _))
  · intro id hid
    rw [hbuffer', hout.nesting.groupStack, List.append_assoc,
      List.mem_append] at hid
    rw [hout.nesting.length]
    apply hr.known id
    rw [hwaiting, List.append_assoc, List.append_assoc]
    apply List.mem_append_right
    rw [List.mem_append]
    refine hid.imp_right fun hid => ?_
    rw [List.mem_append] at hid ⊢
    exact hid.imp_right (hout.queue id)
  · intro entry hentry
    rw [hout.breaks, List.mem_append] at hentry
    rw [hout.nesting.length]
    rcases hentry with hentry | hentry
    · exact hr.written entry hentry
    · cases howner : token.owner with
      | none => simp [howner] at hentry
      | some owner =>
          simp only [howner, Option.map_some, Option.toList_some,
            List.mem_singleton] at hentry
          rw [hentry]
          apply hr.known owner
          simp [hwaiting, howner]
  · exact hout.levelled
  · rw [hbuffer', hdepth]
    exact (hwaiting ▸ hr.nested).of_append
  · rw [hbuffer', hdepth, hout.nesting.groupStack]
    exact (hwaiting ▸ hr.opened).of_append
  · rw [hout.nesting.groupStack]
    refine hr.stacked.imp ?_
    intro inner outer hlt
    rw [hout.nesting.depth, hout.nesting.depth]
    exact hlt
  · rw [hout.nesting.groupStack]
    exact hr.inhabited
  · intro id hid
    rw [hout.breaks, List.mem_append] at hid
    rw [hout.wantBreak]
    rcases hid with hid | hid
    · exact hr.broken id hid
    · cases howner : token.owner with
      | none => simp [howner] at hid
      | some owner =>
          simp only [howner, Option.map_some, Option.toList_some,
            List.mem_singleton, Prod.mk.injEq] at hid
          rw [hid.1, ← hid.2]
  · intro id hid
    rw [hout.breaks, List.mem_append] at hid
    rw [hout.wantBreak]
    rcases hid with hid | hid
    · exact hr.flat id hid
    · cases howner : token.owner with
      | none => simp [howner] at hid
      | some owner =>
          simp only [howner, Option.map_some, Option.toList_some,
            List.mem_singleton, Prod.mk.injEq] at hid
          rw [hid.1, ← hid.2]

/-- Another breakable keeps what it was when the token is output. -/
theorem mem_breaks_pop (hlevelled : r.Levelled) {width id : Nat}
    (hid : (id, false) ∈ breaks (r.pop token rest width).out) :
    (id, false) ∈ breaks r.out ∨
      (token.owner = some id ∧ (r.group id).wantBreak = false) := by
  have hout := @outputs_pop r token rest hlevelled width
  rw [hout.breaks, List.mem_append] at hid
  refine hid.imp_right fun hid => ?_
  cases howner : token.owner with
  | none => simp [howner] at hid
  | some owner =>
      simp only [howner, Option.map_some, Option.toList_some,
        List.mem_singleton, Prod.mk.injEq] at hid
      obtain ⟨rfl, hwant⟩ := hid
      exact ⟨rfl, hwant.symm⟩

theorem Draining.pop {target : Option Nat} (hr : r.Draining target)
    (hbuffer : r.buffer = token :: rest) (width : Nat)
    (htarget : ∀ x ∈ target, x ∈ waiting r.buffer) :
    (r.pop token rest width).Draining target := by
  have hout := @outputs_pop r token rest hr.levelled width
  have hwaiting : waiting r.buffer = token.owner.toList ++ waiting rest := by
    rw [hbuffer, waiting_cons]
  have hbuffer' : (r.pop token rest width).buffer = rest := hout.buffer
  refine ⟨hr.toConsistent.pop hbuffer width, ?_, ?_, ?_, ?_⟩
  · intro x hx
    rw [hout.wantBreak]
    exact hr.wants x hx
  · intro id hid
    rw [hout.wantBreak]
    rw [hbuffer'] at hid
    apply hr.unbroken id
    rw [hwaiting]
    exact List.mem_append_right _ hid
  · intro x hx id hid
    rw [hout.nesting.depth, hout.nesting.depth]
    exact hr.lowest x hx id (hout.queue id hid)
  · intro id hflat hqueued
    rw [hbuffer']
    have hqueued' : id ∈ r.queued := hout.queue id hqueued
    -- a separator of this group may just have been written
    have hlatest : token.owner = some id → (r.group id).wantBreak = false →
        id ∈ waiting rest ∧ ∀ x ∈ target, ∃ before after,
          waiting rest = before ++ x :: after ∧ id ∈ before := by
      intro howner hwant
      have hpending : 1 < (r.group id).pending := by
        by_contra hle
        exact hout.removed id howner hwant (Nat.le_of_not_lt hle) hqueued
      rw [hr.counted, hwaiting, howner, Option.toList_some,
        List.singleton_append, List.count_cons_self] at hpending
      have hmem : id ∈ waiting rest :=
        List.count_pos_iff.mp (Nat.lt_of_succ_lt_succ hpending)
      refine ⟨hmem, fun x hx => ?_⟩
      have hne : x ≠ id := by
        rintro rfl
        rw [hr.wants x hx] at hwant
        cases hwant
      have hx' := htarget x hx
      rw [hwaiting, howner, Option.toList_some, List.singleton_append,
        List.mem_cons] at hx'
      obtain ⟨before, after, hsplit⟩ :=
        List.append_of_mem (hx'.resolve_left hne)
      refine ⟨before, after, hsplit, ?_⟩
      rw [hsplit, List.mem_append, List.mem_cons] at hmem
      rcases hmem with hmem | rfl | hmem
      · exact hmem
      · exact absurd rfl hne
      · -- the broken group would be inside this one
        obtain ⟨between, after', rfl⟩ := List.append_of_mem hmem
        have hinside := hr.nested [] (before ++ x :: between) after' id
          (by rw [hwaiting, howner, hsplit]; simp) x (by simp)
        rcases hinside with rfl | hdeeper
        · exact absurd rfl hne
        · exact absurd (hr.lowest x hx id hqueued') (Nat.not_le_of_lt hdeeper)
    rcases mem_breaks_pop hr.levelled hflat with hflat | ⟨howner, hwant⟩
    · obtain ⟨hmem, hbefore⟩ := hr.remaining id hflat hqueued'
      by_cases howner : token.owner = some id
      · exact hlatest howner (hr.flat id hflat)
      · have hfirst : id ∉ token.owner.toList := by
          rwa [Option.mem_toList]
        rw [hwaiting] at hmem hbefore
        refine ⟨(List.mem_append.mp hmem).resolve_left hfirst, ?_⟩
        intro x hx
        obtain ⟨before, after, hsplit, hmemBefore⟩ := hbefore x hx
        cases howner' : token.owner with
        | none =>
            rw [howner', Option.toList_none, List.nil_append] at hsplit
            exact ⟨before, after, hsplit, hmemBefore⟩
        | some owner =>
            rw [howner', Option.toList_some, List.singleton_append] at hsplit
            cases before with
            | nil => cases hmemBefore
            | cons head before =>
                obtain ⟨hhead, htail⟩ := List.cons.inj hsplit
                refine ⟨before, after, htail, ?_⟩
                refine (List.mem_cons.mp hmemBefore).resolve_left fun hid => ?_
                rw [hid, ← hhead] at howner
                exact howner howner'
    · exact hlatest howner hwant

/-- When nothing of it waits any more, the group that breaks is done. -/
theorem Draining.settled {target : Option Nat} (hr : r.Draining target)
    (hdone : ∀ id ∈ waiting r.buffer, target ≠ none ∧ ∀ x ∈ target,
      x ∉ waiting r.buffer) : r.Settled := by
  refine ⟨hr.toConsistent, ?_, ?_⟩
  · intro id hid
    by_contra hwant
    have htarget := hr.unbroken id hid (by simpa using hwant)
    exact (hdone id hid).2 id htarget hid
  · intro id hflat hqueued
    obtain ⟨hmem, hbefore⟩ := hr.remaining id hflat hqueued
    obtain ⟨hsome, hgone⟩ := hdone id hmem
    obtain ⟨x, hx⟩ := Option.ne_none_iff_exists'.mp hsome
    obtain ⟨before, after, hsplit, -⟩ := hbefore x hx
    apply hgone x hx
    rw [hsplit]
    simp

theorem Settled.draining (hr : r.Settled) : r.Draining none where
  toConsistent := hr.toConsistent
  wants := by simp
  unbroken id hid hwant := by
    rw [hr.unbroken id hid] at hwant
    cases hwant
  lowest := by simp
  remaining id hflat hqueued := absurd hqueued (hr.unqueued id hflat)

/-- Tokens that are no breakables may be output at any time. -/
theorem Settled.pop (hr : r.Settled) (hbuffer : r.buffer = token :: rest)
    (howner : token.owner = none) (width : Nat) :
    (r.pop token rest width).Settled := by
  have hout := @outputs_pop r token rest hr.levelled width
  have hbuffer' : (r.pop token rest width).buffer = rest := hout.buffer
  refine ⟨hr.toConsistent.pop hbuffer width, ?_, ?_⟩
  · intro id hid
    rw [hout.wantBreak]
    apply hr.unbroken id
    rw [hbuffer, waiting_cons, howner]
    rwa [hbuffer'] at hid
  · intro id hflat hqueued
    rcases mem_breaks_pop hr.levelled hflat with hflat | ⟨hsome, -⟩
    · exact hr.unqueued id hflat (hout.queue id hqueued)
    · rw [howner] at hsome
      cases hsome

/-- The groups of all breakables so far, in order. -/
def order (r : Renderer) : List Nat :=
  (breaks r.out).map Prod.fst ++ waiting r.buffer

/-- Nothing is lost on the way: the breakables keep their order, and a group
that breaks will break. -/
structure Continues (r r' : Renderer) : Prop where
  nesting : SameNesting r r'
  breaking : ∀ id, (r.group id).wantBreak = true →
    (r'.group id).wantBreak = true
  order : r'.order = r.order

theorem continues_refl (r : Renderer) : Continues r r :=
  ⟨sameNesting_refl r, fun _ h => h, rfl⟩

theorem Continues.trans {r r' r'' : Renderer} (h : Continues r r')
    (h' : Continues r' r'') : Continues r r'' :=
  ⟨h.nesting.trans h'.nesting, fun id hid => h'.breaking id (h.breaking id hid),
    h'.order.trans h.order⟩

theorem continues_pop (hlevelled : r.Levelled)
    (hbuffer : r.buffer = token :: rest) (width : Nat) :
    Continues r (r.pop token rest width) := by
  have hout := @outputs_pop r token rest hlevelled width
  constructor
  · exact ⟨hout.nesting.groupStack, hout.nesting.length, hout.nesting.depth⟩
  · intro id hid
    rw [hout.wantBreak]
    exact hid
  · have hbuffer' : (r.pop token rest width).buffer = rest := hout.buffer
    rw [order, order, hout.breaks, hbuffer', hbuffer, waiting_cons,
      List.map_append, List.append_assoc]
    congr 1
    cases token.owner <;> rfl

/-- Output tokens for a group that breaks, as long as it waits, or for none. -/
theorem draining_popWhile {target : Option Nat} {condition : Renderer → Bool}
    (hcondition : ∀ r, condition r = true → r.Draining target →
      ∀ x ∈ target, x ∈ waiting r.buffer)
    (hr : r.Draining target) :
    (popWhile condition r.buffer r).Draining target ∧
      Continues r (popWhile condition r.buffer r) ∧
      (condition (popWhile condition r.buffer r) = true →
        (popWhile condition r.buffer r).buffer = []) := by
  generalize hbuffer : r.buffer = buffer
  induction buffer generalizing r with
  | nil => exact ⟨hr, continues_refl r, fun _ => hbuffer⟩
  | cons token rest ih =>
      rw [popWhile]
      by_cases hholds : condition r = true
      · rw [if_pos hholds]
        have hpop := hr.pop hbuffer (r.bufferWidth - token.width)
          (hcondition r hholds hr)
        have hcontinues := continues_pop hr.levelled hbuffer
          (r.bufferWidth - token.width)
        have hbuffer' :
            (r.pop token rest (r.bufferWidth - token.width)).buffer = rest :=
          (outputs_pop hr.levelled _).buffer
        obtain ⟨hend, hcontinues', hstop⟩ := ih hpop hbuffer'
        exact ⟨hend, hcontinues.trans hcontinues', hstop⟩
      · rw [if_neg hholds]
        exact ⟨hr, continues_refl r, fun h => absurd h hholds⟩

/-- Output what comes before the next breakable. -/
theorem settled_popWhile_text (hr : r.Settled) :
    (popWhile frontIsText r.buffer r).Settled ∧
      Continues r (popWhile frontIsText r.buffer r) := by
  generalize hbuffer : r.buffer = buffer
  induction buffer generalizing r with
  | nil => exact ⟨hr, continues_refl r⟩
  | cons token rest ih =>
      rw [popWhile]
      by_cases htext : r.frontIsText = true
      · rw [if_pos htext]
        have howner : token.owner = none := by
          rw [frontIsText, hbuffer] at htext
          cases token with
          | breakable sep width indent id => cases htext
          | text content width => rfl
          | ifBreak content id => rfl
          | comment content => rfl
        have hpop := hr.pop hbuffer howner (r.bufferWidth - token.width)
        have hcontinues := continues_pop hr.levelled hbuffer
          (r.bufferWidth - token.width)
        have hbuffer' :
            (r.pop token rest (r.bufferWidth - token.width)).buffer = rest :=
          (outputs_pop hr.levelled _).buffer
        obtain ⟨hend, hcontinues'⟩ := ih hpop hbuffer'
        exact ⟨hend, hcontinues.trans hcontinues'⟩
      · rw [if_neg htext]
        exact ⟨hr, continues_refl r⟩

theorem draining_flushTokens (hr : r.Draining none) :
    (flushTokens r.buffer r).Draining none ∧
      Continues r (flushTokens r.buffer r) ∧
      (flushTokens r.buffer r).buffer = [] := by
  generalize hbuffer : r.buffer = buffer
  induction buffer generalizing r with
  | nil => exact ⟨hr, continues_refl r, hbuffer⟩
  | cons token rest ih =>
      have hpop := hr.pop hbuffer r.bufferWidth (by simp)
      have hcontinues := continues_pop hr.levelled hbuffer r.bufferWidth
      have hbuffer' : (r.pop token rest r.bufferWidth).buffer = rest :=
        (outputs_pop hr.levelled _).buffer
      obtain ⟨hend, hcontinues', hempty⟩ := ih hpop hbuffer'
      exact ⟨hend, hcontinues.trans hcontinues', hempty⟩

end Pop

end Renderer

end Hegel
