/-
Text that is only for broken groups.  It waits in the buffer until its group is
decided or until it is taken out for another reason; a group that is set to
break while one of its texts is gone has left that text out.
-/
import Hegel.TranscriptRuns

namespace Hegel

/-- The group of a breakable. -/
def Origin.owner : Origin → Option Nat
  | .breakable id _ => some id
  | _ => none

/-- All breakables of a group are newlines. -/
def RendersBroken (pieces : List Piece) (id : Nat) : Prop :=
  ∀ b, (id, b) ∈ breaks pieces → b = true

/-- Every text of a group comes after a breakable of it. -/
def BreakablesFirst (cmds : List Cmd) (id : Nat) : Prop :=
  ∀ before s after, docOrigins (forcedGroups cmds) [0] 1 cmds =
    before ++ .ifBreak id s :: after → id ∈ before.filterMap Origin.owner

/-- A group is set to break after one of its texts was left out. -/
def BreaksLate (events : List LayoutEvent) (id : Nat) : Prop :=
  ∃ s, List.Sublist [.ifBreak id s false, .decided id] events

namespace Renderer

/-- The states in which groups are set to break for the line to fit: every
round that finds the line too long starts with one. -/
def breakings : Nat → Renderer → List Renderer
  | 0, _ => []
  | rounds + 1, r =>
      if r.outputWidth + r.bufferWidth > r.maxWidth then
        r :: match r.deq with
          | (_, none) => []
          | (r, some id) =>
              let r := popWhile (fun r => (r.group id).pending > 0) r.buffer r
              breakings rounds (popWhile frontIsText r.buffer r)
      else []

def outerBreakings (r : Renderer) : List Renderer :=
  breakings r.groupQueue.flatten.length r

def textBreakings (r : Renderer) (s : Text) : List Renderer :=
  if r.buffer.isEmpty then []
  else
    { r with
      buffer := pushText s r.buffer
      bufferWidth := r.bufferWidth + s.length }.outerBreakings

def delimiterBreakings (r : Renderer) (s : Text) : List Renderer :=
  if s.isEmpty then [] else r.textBreakings s

def breakableBreakings (r : Renderer) (sep : Text) : List Renderer :=
  if (r.group r.innermost).wantBreak then []
  else
    { r with
      buffer := r.buffer ++
        [Token.breakable sep sep.length r.indentation r.innermost]
      bufferWidth := r.bufferWidth + sep.length
      groups := r.groups.modify r.innermost fun group =>
        { group with pending := group.pending + 1 } }.outerBreakings

/-- The states in which a command sets groups to break.  The closing text of a
group is written after all that closes it. -/
def executeBreakings (r : Renderer) : Cmd → List Renderer
  | .text s => r.textBreakings s
  | .breakable sep => r.breakableBreakings sep
  | .ifBreak s =>
      if (r.group r.innermost).wantBreak then r.textBreakings s else []
  | .beginGroup _ opening => r.delimiterBreakings opening
  | .endGroup close =>
      match r.endGroup [] with
      | .ok closed => closed.delimiterBreakings
          (if (r.group r.innermost).comment then trimStart close else close)
      | .error _ => []
  | _ => []

/-- The texts of a group in the buffer. -/
def textsWaiting (r : Renderer) (id : Nat) : Nat :=
  r.buffer.countP fun
    | .ifBreak _ owner => owner == id
    | _ => false

/-- If the next thing to do is to break groups, and this one is among those that
start to break, then all of its texts so far are in the buffer. -/
def KeepsTexts (id written : Nat) (r : Renderer) : Prop :=
  id ∈ (r.deqLevels r.groupQueue).2.2 → (r.group id).wantBreak = false →
    r.textsWaiting id = written

/-- The texts for a group in a command. -/
def textsOf (r : Renderer) (id : Nat) : Cmd → Nat
  | .ifBreak _ => if r.innermost = id then 1 else 0
  | _ => 0

/-- Whenever the group starts to break, all of its texts so far are in the
buffer. -/
def TextsAwait (id : Nat) : Nat → List Cmd → Renderer → Prop
  | _, [], _ => True
  | written, cmd :: rest, r =>
      (∀ r' ∈ r.executeBreakings cmd, r'.KeepsTexts id written) ∧
        match Renderer.execute (fun _ => .ok) [] r cmd with
        | .ok r' => TextsAwait id (written + r.textsOf id cmd) rest r'
        | .error _ => True

end Renderer

section Owners

theorem owner_break (event : LayoutEvent) :
    event.break.map Prod.fst = event.origin.bind Origin.owner := by
  cases event <;> rfl

theorem owner_delimiterOrigins (s : Text) :
    (Transcriber.delimiterOrigins s).filterMap Origin.owner = [] := by
  rw [Transcriber.delimiterOrigins]
  split_ifs
  · rfl
  · rfl

theorem owner_docOrigins (force : List Bool) (stack : List Nat) (next : Nat)
    (cmds : List Cmd) :
    (docOrigins force stack next cmds).filterMap Origin.owner =
      breakableOwners stack next cmds := by
  induction cmds generalizing stack next with
  | nil => rfl
  | cons cmd rest ih =>
      cases cmd with
      | breakable sep => exact congrArg (stack.headD 0 :: ·) (ih stack next)
      | beginGroup indent opening =>
          rw [docOrigins, List.filterMap_append, owner_delimiterOrigins, ih]
          rfl
      | endGroup close =>
          rw [docOrigins, List.filterMap_append, owner_delimiterOrigins, ih]
          rfl
      | _ => exact ih stack next

variable {cmds : List Cmd} {pieces : List Piece} {broken : Nat → Bool}
  {events : List LayoutEvent}

/-- Every breakable of the document is in the output. -/
theorem Transcribes.owners (h : Transcribes cmds pieces broken events) :
    (Hegel.breaks pieces).map Prod.fst = breakableOwners [0] 1 cmds := by
  rw [← owner_docOrigins (forcedGroups cmds), ← h.origins, ← h.breaks,
    List.filterMap_filterMap, List.map_filterMap]
  exact List.filterMap_congr fun event _ => owner_break event

theorem Transcribes.rendersBroken (h : Transcribes cmds pieces broken events)
    {id : Nat} (hid : id ∈ breakableOwners [0] 1 cmds) :
    RendersBroken pieces id ↔ broken id = true := by
  rw [← h.owners] at hid
  obtain ⟨⟨id, b⟩, hmem, rfl⟩ := List.mem_map.mp hid
  constructor
  · exact fun hall => (h.decides id b hmem).symm.trans (hall b hmem)
  · exact fun hbroken b hb => (h.decides id b hb).trans hbroken

/-- The texts of a group follow it exactly if it does not break late. -/
theorem Transcribes.follows_iff (h : Transcribes cmds pieces broken events)
    {id : Nat} (hid : id ∈ breakableOwners [0] 1 cmds) :
    (∀ s shown, .ifBreak id s shown ∈ events →
        (shown = true ↔ RendersBroken pieces id)) ↔
      ¬ BreaksLate events id := by
  rw [h.rendersBroken hid]
  constructor
  · rintro hfollows ⟨s, hlate⟩
    have hmem : .ifBreak id s false ∈ events :=
      hlate.subset List.mem_cons_self
    exact Bool.false_ne_true
      ((hfollows s false hmem).mpr ((h.hidden id s hmem).mpr hlate))
  · intro htimely s shown hmem
    cases shown with
    | true => exact iff_of_true rfl (h.shown id s hmem)
    | false =>
        refine iff_of_false Bool.false_ne_true fun hbroken => ?_
        exact htimely ⟨s, (h.hidden id s hmem).mp hbroken⟩

/-- A group with a breakable before each of its texts does not break late. -/
theorem Transcribes.not_breaksLate
    (h : Transcribes cmds pieces broken events) {id : Nat}
    (hfirst : BreakablesFirst cmds id) : ¬ BreaksLate events id := by
  rintro ⟨s, hlate⟩
  have hmem : .ifBreak id s false ∈ events := hlate.subset List.mem_cons_self
  have hbroken := (h.hidden id s hmem).mpr hlate
  obtain ⟨first, last, rfl⟩ := List.append_of_mem hmem
  have horigins := h.origins
  rw [List.filterMap_append, List.filterMap_cons] at horigins
  have howner := hfirst _ s _ horigins.symm
  rw [List.filterMap_filterMap] at howner
  obtain ⟨event, hevent, hid⟩ := List.mem_filterMap.mp howner
  cases event with
  | broken owner sep indent =>
      obtain rfl : owner = id := Option.some.inj hid
      refine h.timely owner sep indent s ?_
      exact (List.singleton_sublist.mpr hevent).append
        (List.singleton_sublist.mpr List.mem_cons_self)
  | flat owner sep =>
      obtain rfl : owner = id := Option.some.inj hid
      have hflat : (owner, false) ∈ Hegel.breaks pieces := by
        rw [← h.breaks]
        exact List.mem_filterMap.mpr
          ⟨_, List.mem_append_left _ hevent, rfl⟩
      rw [← h.decides owner false hflat] at hbroken
      cases hbroken
  | _ => cases hid

end Owners

namespace Transcriber

variable {t t' t'' : Transcriber} {id : Nat}

section Quiet

/-- Output that sets no group to break. -/
def Quiet (t t' : Transcriber) : Prop :=
  ∃ events, t'.events = t.events ++ events ∧ ∀ id, .decided id ∉ events

theorem quiet_of_events (hevents : t'.events = t.events) : Quiet t t' :=
  ⟨[], hevents.trans (List.append_nil _).symm, fun _ => List.not_mem_nil⟩

theorem Quiet.trans (h : Quiet t t') (h' : Quiet t' t'') : Quiet t t'' := by
  obtain ⟨first, hfirst, hnone⟩ := h
  obtain ⟨second, hsecond, hnone'⟩ := h'
  refine ⟨first ++ second, ?_, fun id hmem => ?_⟩
  · rw [hsecond, hfirst, List.append_assoc]
  · exact (List.mem_append.mp hmem).elim (hnone id) (hnone' id)

theorem Quiet.breaksLate (h : Quiet t t') :
    BreaksLate t'.events id ↔ BreaksLate t.events id := by
  obtain ⟨events, hevents, hnone⟩ := h
  rw [hevents]
  refine exists_congr fun s => ?_
  rw [pair_sublist_append]
  constructor
  · rintro (h | ⟨-, h⟩ | h)
    · exact h
    · exact absurd h (hnone id)
    · exact absurd (h.subset (by simp)) (hnone id)
  · exact .inl

theorem decided_notMem_tokenEvents (ht : t.Sound) {token : Token}
    {rest : List Token} (hbuffer : t.renderer.buffer = token :: rest) :
    .decided id ∉ t.tokenEvents token := by
  intro hmem
  cases token with
  | text content width =>
      have hmade := ht.made
      rw [hbuffer] at hmade
      obtain ⟨part, parts, hpart, -, hparts⟩ :=
        List.forall₂_cons_right_iff.mp hmade
      rw [tokenEvents, hparts] at hmem
      exact hpart.2 _ hmem
  | ifBreak content owner => cases List.mem_singleton.mp hmem
  | comment content => cases hmem
  | breakable sep width indent owner =>
      rw [tokenEvents] at hmem
      split_ifs at hmem
      · rcases List.mem_append.mp hmem with hmem | hmem
        · obtain ⟨s, -, hs⟩ := List.mem_map.mp hmem
          cases hs
        · cases List.mem_singleton.mp hmem
      · cases List.mem_singleton.mp hmem

theorem quiet_pop (ht : t.Sound) {token : Token} {rest : List Token}
    (hbuffer : t.renderer.buffer = token :: rest) (width : Nat) :
    Quiet t (t.pop token rest width) :=
  ⟨_, rfl, fun _ => decided_notMem_tokenEvents ht hbuffer⟩

theorem quiet_popWhile (ht : t.Sound) (condition : Renderer → Bool) :
    Quiet t (popWhile condition t.renderer.buffer t) := by
  generalize hbuffer : t.renderer.buffer = buffer
  induction buffer generalizing t with
  | nil => exact quiet_of_events rfl
  | cons token rest ih =>
      rw [popWhile]
      by_cases hcondition : condition t.renderer = true
      · rw [if_pos hcondition]
        have hpop := ht.pop hbuffer (t.renderer.bufferWidth - token.width)
        exact (quiet_pop ht hbuffer _).trans
          (ih hpop.sound (Renderer.buffer_pop _))
      · rw [if_neg hcondition]
        exact quiet_of_events rfl

theorem quiet_flush (ht : t.Sound) : Quiet t t.flush := by
  have htokens : Quiet t (flushTokens t.renderer.buffer t) := by
    generalize hbuffer : t.renderer.buffer = buffer
    induction buffer generalizing t with
    | nil => exact quiet_of_events rfl
    | cons token rest ih =>
        have hpop := ht.pop hbuffer t.renderer.bufferWidth
        exact (quiet_pop ht hbuffer _).trans
          (ih hpop.sound (Renderer.buffer_pop _))
  exact htokens.trans (quiet_of_events rfl)

theorem decided_notMem_comments (comments : List Text) :
    .decided id ∉ comments.map LayoutEvent.comment := by
  intro hmem
  obtain ⟨s, -, hs⟩ := List.mem_map.mp hmem
  cases hs

theorem quiet_newline (ht : t.Sound) (owner : Option (Nat × Text)) :
    Quiet t (t.newline owner) := by
  refine (quiet_flush ht).trans ⟨_, List.append_assoc _ _ _, fun id hmem => ?_⟩
  rcases List.mem_append.mp hmem with hmem | hmem
  · exact decided_notMem_comments _ hmem
  · cases owner with
    | none => cases List.mem_singleton.mp hmem
    | some entry => cases List.mem_singleton.mp hmem

theorem quiet_freshLine (ht : t.Sound) (comment : Bool) :
    Quiet t (t.freshLine comment) := by
  rw [freshLine]
  split_ifs
  · exact quiet_newline ht none
  · exact quiet_of_events rfl

theorem quiet_leaveQueue (t : Transcriber) (id : Nat) :
    Quiet t (t.leaveQueue id) := by
  rw [leaveQueue]
  split_ifs
  · exact quiet_of_events rfl
  · exact quiet_of_events rfl

theorem quiet_finish (ht : t.Sound) :
    BreaksLate t.finish id ↔ BreaksLate t.events id := by
  have hcomments : Quiet t.flush { t.flush with events := t.finish } :=
    ⟨_, rfl, fun _ => decided_notMem_comments _⟩
  exact hcomments.breaksLate.trans (quiet_flush ht).breaksLate

end Quiet

section Accounting

/-- A text for the group. -/
def textFor (id : Nat) : Origin → Bool
  | .ifBreak owner _ => owner == id
  | _ => false

/-- While a group is undecided, only tokens of their own stand for its texts in
the buffer. -/
theorem countP_buffer {r : Renderer} {parts : List (List LayoutEvent)}
    {buffer : List Token} (hmade : List.Forall₂ (Token.Made r) parts buffer)
    (hopen : (r.group id).wantBreak = false) :
    (List.zipWith Token.origins parts buffer).flatten.countP (textFor id) =
      ({ r with buffer := buffer } : Renderer).textsWaiting id := by
  induction hmade with
  | nil => rfl
  | @cons part token parts tokens hpart _ ih =>
      rw [List.zipWith_cons_cons, List.flatten_cons, List.countP_append, ih,
        Renderer.textsWaiting, Renderer.textsWaiting]
      dsimp only
      rw [List.countP_cons, Nat.add_comm]
      congr 1
      cases token with
      | text content width =>
          refine List.countP_eq_zero.mpr fun origin hmem => ?_
          obtain ⟨event, hevent, horigin⟩ := List.mem_filterMap.mp hmem
          have hwritten := hpart.2 event hevent
          cases event with
          | text s =>
              obtain rfl := Option.some.inj horigin
              exact Bool.false_ne_true
          | ifBreak owner s shown =>
              obtain rfl := Option.some.inj horigin
              intro howner
              rw [textFor, beq_iff_eq] at howner
              have hwant := hwritten.2
              rw [howner, hopen] at hwant
              exact Bool.false_ne_true hwant
          | _ => cases hwritten
      | ifBreak content owner => exact List.countP_singleton
      | breakable sep width indent owner => rfl
      | comment content => rfl

/-- A text of an undecided group was left out if it waits no more. -/
theorem leftOut_iff (ht : t.Sound)
    (hopen : (t.renderer.group id).wantBreak = false) :
    (∃ s, .ifBreak id s false ∈ t.events) ↔
      t.renderer.textsWaiting id ≠ t.origins.countP (textFor id) := by
  have hwaiting := countP_buffer ht.made hopen
  rw [origins, List.countP_append, hwaiting]
  have hpositive : t.renderer.textsWaiting id ≠
      (t.events.filterMap LayoutEvent.origin).countP (textFor id) +
        t.renderer.textsWaiting id ↔
      0 < (t.events.filterMap LayoutEvent.origin).countP (textFor id) := by
    omega
  refine Iff.trans ?_ hpositive.symm
  rw [List.countP_pos_iff]
  constructor
  · rintro ⟨s, hmem⟩
    exact ⟨.ifBreak id s, List.mem_filterMap.mpr ⟨_, hmem, rfl⟩, beq_self_eq_true id⟩
  · rintro ⟨origin, hmem, htext⟩
    obtain ⟨event, hevent, horigin⟩ := List.mem_filterMap.mp hmem
    cases event with
    | ifBreak owner s shown =>
        obtain rfl := Option.some.inj horigin
        rw [textFor, beq_iff_eq] at htext
        subst htext
        cases shown with
        | true =>
            rw [ht.shown owner s hevent] at hopen
            cases hopen
        | false => exact ⟨s, hevent⟩
    | comment s => cases horigin
    | newline indent => cases horigin
    | decided owner => cases horigin
    | _ =>
        obtain rfl := Option.some.inj horigin
        cases htext

theorem breaksLate_iff (ht : t.Sound) :
    BreaksLate t.events id ↔ (∃ s, .ifBreak id s false ∈ t.events) ∧
      (t.renderer.group id).wantBreak = true := by
  constructor
  · rintro ⟨s, hlate⟩
    have hmem : .ifBreak id s false ∈ t.events :=
      hlate.subset List.mem_cons_self
    exact ⟨⟨s, hmem⟩, (ht.decided id s hmem).mpr hlate⟩
  · rintro ⟨⟨s, hmem⟩, hbroken⟩
    exact ⟨s, (ht.decided id s hmem).mp hbroken⟩

end Accounting

section Breaking

variable {written : Nat}

theorem breaksLate_deq (ht : t.Sound)
    (hwritten : (t.renderer.group id).wantBreak = false →
      t.origins.countP (textFor id) = written) :
    BreaksLate t.deq.1.events id ↔
      BreaksLate t.events id ∨ ¬ t.renderer.KeepsTexts id written := by
  have hdeq : BreaksLate t.deq.1.events id ↔ BreaksLate t.events id ∨
      (∃ s, .ifBreak id s false ∈ t.events) ∧
        id ∈ (t.renderer.deqLevels t.renderer.groupQueue).2.2 := by
    rw [BreaksLate, BreaksLate, ← exists_and_right, ← exists_or]
    refine exists_congr fun s => ?_
    rw [deq, pair_sublist_append]
    refine or_congr_right ⟨?_, fun h => .inl ⟨h.1, List.mem_map_of_mem h.2⟩⟩
    rintro (⟨hmem, h⟩ | h)
    · obtain ⟨owner, howner, heq⟩ := List.mem_map.mp h
      cases heq
      exact ⟨hmem, howner⟩
    · obtain ⟨owner, -, heq⟩ := List.mem_map.mp (h.subset List.mem_cons_self)
      cases heq
  rw [hdeq, Renderer.KeepsTexts]
  cases hopen : (t.renderer.group id).wantBreak with
  | true =>
      constructor
      · rintro (h | ⟨h, -⟩)
        · exact .inl h
        · exact .inl ((breaksLate_iff ht).mpr ⟨h, hopen⟩)
      · rintro (h | h)
        · exact .inl h
        · exact absurd (fun _ hfalse => absurd hfalse (by simp)) h
  | false =>
      refine or_congr_right ?_
      rw [leftOut_iff ht hopen, hwritten hopen]
      constructor
      · rintro ⟨hgone, hmem⟩ hkeeps
        exact hgone (hkeeps hmem rfl)
      · intro h
        rw [Classical.not_imp, Classical.not_imp] at h
        exact ⟨h.2.2, h.1⟩

/-- Breaking groups is late for a group exactly if some round of it is. -/
theorem breaksLate_breakGroups (ht : t.Sound) (rounds : Nat)
    (hwritten : (t.renderer.group id).wantBreak = false →
      t.origins.countP (textFor id) = written) :
    BreaksLate (t.breakGroups rounds).events id ↔ BreaksLate t.events id ∨
      ∃ r ∈ t.renderer.breakings rounds, ¬ r.KeepsTexts id written := by
  induction rounds generalizing t with
  | zero =>
      rw [breakGroups, Renderer.breakings]
      simp
  | succ rounds ih =>
      rw [breakGroups, Renderer.breakings]
      by_cases hover : t.renderer.outputWidth + t.renderer.bufferWidth >
          t.renderer.maxWidth
      · rw [if_pos hover, if_pos hover]
        have hadvances := advances_deq ht
        have hlate := breaksLate_deq ht hwritten
        have hsame : t.renderer.deq = (t.deq.1.renderer, t.deq.2) := rfl
        rw [hsame]
        generalize t.deq = result at hadvances hlate
        obtain ⟨t', found⟩ := result
        cases found with
        | none =>
            rw [List.exists_mem_cons_iff, hlate]
            simp
        | some owner =>
            have hdrained := advances_popWhile hadvances.sound fun r =>
              decide ((r.group owner).pending > 0)
            have htext := advances_popWhile hdrained.sound
              Renderer.frontIsText
            have hquiet := (quiet_popWhile hadvances.sound fun r =>
              decide ((r.group owner).pending > 0)).trans
                (quiet_popWhile hdrained.sound Renderer.frontIsText)
            have hall := (hadvances.trans hdrained).trans htext
            rw [ih htext.sound, hquiet.breaksLate, hlate,
              List.exists_mem_cons_iff, or_assoc, renderer_popWhile,
              renderer_popWhile]
            intro hopen
            rw [hall.origins]
            apply hwritten
            cases hbroken : (t.renderer.group id).wantBreak with
            | true =>
                rw [hall.breaks id hbroken] at hopen
                cases hopen
            | false => rfl
      · rw [if_neg hover, if_neg hover]
        simp

theorem breaksLate_textFrom (ht : t.Sound) {from' : Text → LayoutEvent}
    {s : Text} {origin : Origin} (hfrom : (from' s).Written t.renderer)
    (hrender : (from' s).render = s) (horigin : (from' s).origin = some origin)
    (hwritten : (t.renderer.group id).wantBreak = false →
      (t.origins ++ [origin]).countP (textFor id) = written) :
    BreaksLate (t.textFrom from' s).events id ↔ BreaksLate t.events id ∨
      ∃ r ∈ t.renderer.textBreakings s, ¬ r.KeepsTexts id written := by
  rw [textFrom, Renderer.textBreakings]
  by_cases hempty : t.renderer.buffer.isEmpty = true
  · rw [if_pos hempty, if_pos hempty]
    have hquiet : Quiet t { t with
        renderer := t.renderer.write s s.length
        events := t.events ++ [from' s] } := by
      refine ⟨_, rfl, fun owner hmem => ?_⟩
      rw [← List.mem_singleton.mp hmem] at hfrom
      exact hfrom
    rw [hquiet.breaksLate]
    simp
  · rw [if_neg hempty, if_neg hempty]
    have hadds := adds_pushText ht hfrom hrender horigin
    refine breaksLate_breakGroups hadds.sound _ fun hopen => ?_
    rw [hadds.origins]
    exact hwritten hopen

theorem breaksLate_text (ht : t.Sound) (s : Text)
    (hwritten : t.origins.countP (textFor id) = written) :
    BreaksLate (t.text s).events id ↔ BreaksLate t.events id ∨
      ∃ r ∈ t.renderer.textBreakings s, ¬ r.KeepsTexts id written := by
  refine @breaksLate_textFrom t id written ht .text s (.text s) trivial rfl rfl
    fun _ => ?_
  rw [List.countP_append, hwritten]
  rfl

theorem breaksLate_delimiter (ht : t.Sound) (s : Text)
    (hwritten : t.origins.countP (textFor id) = written) :
    BreaksLate (t.delimiter s).events id ↔ BreaksLate t.events id ∨
      ∃ r ∈ t.renderer.delimiterBreakings s, ¬ r.KeepsTexts id written := by
  rw [delimiter, Renderer.delimiterBreakings]
  split_ifs
  · simp
  · exact breaksLate_text ht s hwritten

theorem breaksLate_breakable (ht : t.Sound) (sep : Text)
    (hwritten : t.origins.countP (textFor id) = written) :
    BreaksLate (t.breakable sep).events id ↔ BreaksLate t.events id ∨
      ∃ r ∈ t.renderer.breakableBreakings sep, ¬ r.KeepsTexts id written := by
  rw [breakable, Renderer.breakableBreakings]
  by_cases hbroken : (t.renderer.group t.renderer.innermost).wantBreak = true
  · rw [if_pos hbroken, if_pos hbroken, (quiet_newline ht _).breaksLate]
    simp
  · rw [if_neg hbroken, if_neg hbroken]
    have hadds := adds_pushBreakable ht sep
    refine breaksLate_breakGroups hadds.sound _ fun _ => ?_
    rw [hadds.origins, List.countP_append, hwritten]
    rfl

/-- A text for a broken group is written at once, and is one more for it. -/
theorem breaksLate_ifBreak (ht : t.Sound) (s : Text)
    (hwritten : t.origins.countP (textFor id) = written) :
    BreaksLate (t.ifBreak s).events id ↔ BreaksLate t.events id ∨
      ∃ r ∈ t.renderer.executeBreakings (.ifBreak s),
        ¬ r.KeepsTexts id written := by
  rw [ifBreak, Renderer.executeBreakings]
  by_cases hbroken : (t.renderer.group t.renderer.innermost).wantBreak = true
  · rw [if_pos hbroken, if_pos hbroken]
    refine breaksLate_textFrom ht ⟨rfl, hbroken⟩ rfl rfl fun hopen => ?_
    have hother : t.renderer.innermost ≠ id := by
      rintro rfl
      rw [hbroken] at hopen
      cases hopen
    rw [List.countP_append, hwritten, List.countP_singleton, textFor,
      beq_eq_false_iff_ne.mpr hother]
    rfl
  · rw [if_neg hbroken, if_neg hbroken]
    simp

/-- The group on top is closed, but its closing text is still to come. -/
def closed (t : Transcriber) (owner : Nat) (outer : List Nat) : Transcriber :=
  let group := t.renderer.group owner
  let t := { t with renderer := leaveGroup t.renderer outer group.indent }
  (t.freshLine group.comment).leaveQueue owner

theorem endGroup_eq {owner parent : Nat} {rest : List Nat}
    (hstack : t.renderer.groupStack = owner :: parent :: rest) (close : Text) :
    t.endGroup close = .ok ((t.closed owner (parent :: rest)).delimiter
      (if (t.renderer.group owner).comment then trimStart close else close)) := by
  rw [endGroup, hstack]
  rfl

theorem endGroup_nil {owner parent : Nat} {rest : List Nat}
    (hstack : t.renderer.groupStack = owner :: parent :: rest) :
    t.renderer.endGroup [] =
      .ok (t.closed owner (parent :: rest)).renderer := by
  rw [← renderer_endGroup, endGroup_eq hstack]
  have hnone : (if (t.renderer.group owner).comment then trimStart []
      else []) = [] := by
    split_ifs <;> rfl
  rw [hnone]
  rfl

theorem breaksLate_endGroup (ht : t.Sound) {close : Text}
    (hend : t.endGroup close = .ok t')
    (hwritten : t.origins.countP (textFor id) = written) :
    BreaksLate t'.events id ↔ BreaksLate t.events id ∨
      ∃ r ∈ t.renderer.executeBreakings (.endGroup close),
        ¬ r.KeepsTexts id written := by
  rw [Renderer.executeBreakings, Renderer.innermost]
  rcases hstack : t.renderer.groupStack with - | ⟨owner, - | ⟨parent, rest⟩⟩
  · rw [endGroup, hstack] at hend
    cases hend
  · rw [endGroup, hstack] at hend
    cases hend
  · rw [endGroup_eq hstack] at hend
    obtain rfl := Except.ok.inj hend
    have hleave := ht.congr (r := leaveGroup t.renderer (parent :: rest)
      (t.renderer.group owner).indent) rfl rfl rfl (grows_of_groups rfl rfl)
    have hline := adds_freshLine hleave.sound (t.renderer.group owner).comment
    have hqueue := advances_leaveQueue hline.sound owner
    have hquiet : Quiet t (t.closed owner (parent :: rest)) :=
      (quiet_freshLine hleave.sound (t.renderer.group owner).comment).trans
        (quiet_leaveQueue _ owner)
    have hall : (t.closed owner (parent :: rest)).origins = t.origins ++ [] :=
      (hleave.then (hline.advances hqueue)).origins
    rw [List.append_nil] at hall
    rw [← hquiet.breaksLate, endGroup_nil hstack]
    exact breaksLate_delimiter hqueue.sound _ (hall ▸ hwritten)

/-- A command is late for a group exactly if it sets groups to break in a state
in which some text of the group is gone. -/
theorem breaksLate_execute (ht : t.Sound) {cmd : Cmd}
    (hdone : t.execute cmd = .ok t')
    (hwritten : t.origins.countP (textFor id) = written) :
    BreaksLate t'.events id ↔ BreaksLate t.events id ∨
      ∃ r ∈ t.renderer.executeBreakings cmd, ¬ r.KeepsTexts id written := by
  have hnone {t' : Transcriber} (hquiet : Quiet t t') :
      BreaksLate t'.events id ↔ BreaksLate t.events id ∨
        ∃ r ∈ ([] : List Renderer), ¬ r.KeepsTexts id written := by
    rw [hquiet.breaksLate]
    simp
  cases cmd with
  | text s =>
      obtain rfl := Except.ok.inj hdone
      exact breaksLate_text ht s hwritten
  | breakable sep =>
      obtain rfl := Except.ok.inj hdone
      exact breaksLate_breakable ht sep hwritten
  | ifBreak s =>
      obtain rfl := Except.ok.inj hdone
      exact breaksLate_ifBreak ht s hwritten
  | beginGroup indent opening =>
      obtain rfl := Except.ok.inj hdone
      exact breaksLate_delimiter ht opening hwritten
  | endGroup close => exact breaksLate_endGroup ht hdone hwritten
  | hardBreak =>
      obtain rfl := Except.ok.inj hdone
      exact hnone (quiet_newline ht none)
  | shiftIndent delta =>
      obtain rfl := Except.ok.inj hdone
      exact hnone (quiet_of_events rfl)
  | comment s =>
      obtain rfl := Except.ok.inj hdone
      refine hnone (quiet_of_events ?_)
      rw [comment]
      split_ifs <;> rfl
  | splice slot =>
      obtain rfl := Except.ok.inj hdone
      exact hnone (quiet_of_events rfl)

/-- Texts are counted as they are recorded. -/
theorem countP_docOrigins (force : List Bool) (r : Renderer) (next : Nat)
    (cmd : Cmd) :
    (docOrigins force r.groupStack next [cmd]).countP (textFor id) =
      r.textsOf id cmd := by
  have hdelimiter (s : Text) :
      (delimiterOrigins s ++ []).countP (textFor id) = 0 := by
    rw [delimiterOrigins]
    split_ifs <;> rfl
  cases cmd with
  | ifBreak s =>
      rw [docOrigins, docOrigins, List.countP_singleton, textFor,
        Renderer.textsOf, Renderer.innermost]
      simp only [beq_iff_eq]
  | beginGroup indent opening => exact hdelimiter opening
  | endGroup close => exact hdelimiter _
  | _ => rfl

theorem breaksLate_run {force : List Bool} {opened : Nat}
    (ht : t.Ready force opened) {cmds : List Cmd}
    (hcloses : Closes opened cmds = true) (hrun : t.run cmds = .ok t')
    (hwritten : t.origins.countP (textFor id) = written) :
    BreaksLate t'.events id ↔
      BreaksLate t.events id ∨ ¬ t.renderer.TextsAwait id written cmds := by
  induction cmds generalizing t opened written with
  | nil =>
      obtain rfl := Except.ok.inj hrun
      exact (or_iff_left fun hnot => hnot trivial).symm
  | cons cmd rest ih =>
      rw [Closes, List.foldlM_cons] at hcloses
      cases hopened : groupsAfter opened cmd with
      | none =>
          rw [hopened] at hcloses
          cases hcloses
      | some opened' =>
          rw [hopened] at hcloses
          obtain ⟨reached, hok, hready, -, horigins⟩ := ready_execute ht hopened
          have hlate := @breaksLate_execute t reached id written ht.sound cmd
            hok hwritten
          have hcount : reached.origins.countP (textFor id) =
              written + t.renderer.textsOf id cmd := by
            have hall := horigins []
            rw [docOrigins, List.append_nil] at hall
            rw [hall, List.countP_append, hwritten, countP_docOrigins]
          have hexecute := t.renderer_execute cmd
          rw [hok] at hexecute
          rw [run, List.foldlM_cons, hok] at hrun
          rw [ih hready hcloses hrun hcount, hlate, Renderer.TextsAwait,
            ← hexecute, or_assoc, not_and_or]
          simp only [not_forall, exists_prop]
          rfl

end Breaking

end Transcriber

open Transcriber in
/-- Texts that are only for broken groups are all decided, in order.  Those of a
group with a breakable are written exactly if it breaks, unless it is set to
break in a state in which one of them has left the buffer; that does not happen
if they come after a breakable of the group. -/
theorem layOut_ifBreak_iff (maxWidth : Nat) (slots : List Slot)
    (main : List Cmd)
    (hbalanced : Closes 0 (inlined slots slots.length main) = true) :
    let cmds := inlined slots slots.length main
    ∃ pieces events, layOut maxWidth slots main = .ok pieces ∧
      transcript maxWidth slots main = .ok events ∧
      events.flatMap LayoutEvent.render = pieces.flatMap Piece.render ∧
      events.filterMap LayoutEvent.break = breaks pieces ∧
      events.filterMap LayoutEvent.origin =
        docOrigins (forcedGroups cmds) [0] 1 cmds ∧
      ∀ id ∈ breakableOwners [0] 1 cmds,
        ((∀ s shown, .ifBreak id s shown ∈ events →
            (shown = true ↔ RendersBroken pieces id)) ↔
          (Renderer.new maxWidth (forcedGroups cmds)).TextsAwait id 0 cmds) ∧
        (BreakablesFirst cmds id →
          (Renderer.new maxWidth (forcedGroups cmds)).TextsAwait id 0 cmds) := by
  intro cmds
  obtain ⟨pieces, t, hlaid, hrun, htranscript, h⟩ :=
    transcript_transcribes maxWidth slots main hbalanced
  have hstart := ready_new maxWidth (forcedGroups cmds)
  obtain ⟨t', _, hrun', hready, -⟩ := ready_run hstart hbalanced
  obtain rfl : t' = t := Except.ok.inj (hrun'.symm.trans hrun)
  have hlate (id : Nat) : ¬ BreaksLate t'.finish id ↔
      (Renderer.new maxWidth (forcedGroups cmds)).TextsAwait id 0 cmds := by
    have hnone : ¬ BreaksLate (new maxWidth (forcedGroups cmds)).events id := by
      rintro ⟨s, hsub⟩
      cases hsub
    rw [quiet_finish hready.sound, breaksLate_run hstart hbalanced hrun rfl,
      or_iff_right hnone, not_not]
    rfl
  refine ⟨pieces, t'.finish, hlaid, htranscript, h.rendered, h.breaks,
    h.origins, fun id hid => ⟨?_, fun hfirst => ?_⟩⟩
  · rw [← hlate id]
    exact h.follows_iff hid
  · exact (hlate id).mp (h.not_breaksLate hfirst)

/-- The text of the inner group waits behind a breakable of the outer one. -/
def waitingGroup : List Cmd :=
  [.breakable [' '], .beginGroup 1 ['('], .ifBreak [','], .text ['a'],
    .breakable [' '], .text ['b', 'b', 'b', 'b', 'b'], .endGroup [')']]

theorem layOut_ifBreak_iff_sample :
    ∃ pieces events, layOut 80 [] waitingGroup = .ok pieces ∧
      transcript 80 [] waitingGroup = .ok events ∧
      ((∀ s shown, .ifBreak 1 s shown ∈ events →
          (shown = true ↔ RendersBroken pieces 1)) ↔
        (Renderer.new 80 (forcedGroups waitingGroup)).TextsAwait 1 0
          waitingGroup) := by
  obtain ⟨pieces, events, hlaid, htranscript, -, -, -, hfollows⟩ :=
    layOut_ifBreak_iff 80 [] waitingGroup (by decide)
  exact ⟨pieces, events, hlaid, htranscript, (hfollows 1 (by decide)).1⟩

/-- When the outer group breaks the text is left out, and then the inner group
breaks. -/
theorem layOut_ifBreak_late :
    ∃ pieces events, layOut 6 [] waitingGroup = .ok pieces ∧
      transcript 6 [] waitingGroup = .ok events ∧
      pieces.flatMap Piece.render =
        ['\n', '(', 'a', '\n', ' ', 'b', 'b', 'b', 'b', 'b', ')'] ∧
      .ifBreak 1 [','] false ∈ events ∧
      1 ∈ breakableOwners [0] 1 waitingGroup ∧
      (1, true) ∈ breaks pieces ∧ RendersBroken pieces 1 := by
  refine ⟨_, _, rfl, rfl, by decide, by decide, by decide, by decide, ?_⟩
  intro b hb
  cases b with
  | true => rfl
  | false => exact absurd hb (by decide)

end Hegel
