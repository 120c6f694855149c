/-
What holds of every transcript.  It renders as the output, comments are at the
end of their line, and a group that breaks after one of its texts was left out
was set to break after it.  Output that goes on loses nothing and puts nothing
in between.
-/
import Hegel.Transcript
import Mathlib.Data.List.Chain
import Mathlib.Data.List.Forall2

namespace Hegel

/-- What keeps its place in a document. -/
inductive Origin where
  | text (s : Text)
  | ifBreak (owner : Nat) (s : Text)
  | breakable (owner : Nat) (sep : Text)
deriving DecidableEq

namespace LayoutEvent

def origin : LayoutEvent → Option Origin
  | text s => some (.text s)
  | ifBreak id s _ => some (.ifBreak id s)
  | broken id sep _ => some (.breakable id sep)
  | flat id sep => some (.breakable id sep)
  | _ => none

/-- The comment that is written. -/
def remark : LayoutEvent → Option Text
  | comment s => some s
  | _ => none

/-- What may follow a comment. -/
def endsComment : LayoutEvent → Bool
  | comment _ => true
  | broken _ _ _ => true
  | newline _ => true
  | _ => false

/-- What comes after a comment is on the next line or a comment, too. -/
def Follows (event next : LayoutEvent) : Prop :=
  event.remark.isSome → next.endsComment = true

/-- Text of a token, as far as it can be known before the token is output. -/
def Written (r : Renderer) : LayoutEvent → Prop
  | text _ => True
  | ifBreak id _ shown => shown = true ∧ (r.group id).wantBreak = true
  | _ => False

end LayoutEvent

namespace Token

/-- What a token comes from, its text being of some parts. -/
def origins (parts : List LayoutEvent) : Token → List Origin
  | text _ _ => parts.filterMap LayoutEvent.origin
  | ifBreak content id => [.ifBreak id content]
  | breakable sep _ _ id => [.breakable id sep]
  | comment _ => []

def remark : Token → Option Text
  | comment content => some content
  | _ => none

/-- A token of some parts; only text has any. -/
def Made (r : Renderer) (parts : List LayoutEvent) : Token → Prop
  | text content _ =>
      parts.flatMap LayoutEvent.render = content ∧
        ∀ event ∈ parts, event.Written r
  | ifBreak _ id => parts = [] ∧ id < r.groups.length
  | _ => parts = []

end Token

namespace Transcriber

/-- Everything so far that keeps its place. -/
def origins (t : Transcriber) : List Origin :=
  t.events.filterMap LayoutEvent.origin ++
    (List.zipWith Token.origins t.parts t.renderer.buffer).flatten

/-- All comments so far. -/
def remarks (t : Transcriber) : List Text :=
  t.events.filterMap LayoutEvent.remark ++ t.comments ++
    t.renderer.buffer.filterMap Token.remark

/-- A group that starts with a comment in it breaks. -/
def Forced (r : Renderer) (id : Nat) : Prop :=
  (r.group id).comment = r.forceBreak.getD id false ∧
    ((r.group id).comment = true → (r.group id).wantBreak = true)

/-- What holds of a transcript at any time. -/
structure Sound (t : Transcriber) : Prop where
  rendered : t.events.flatMap LayoutEvent.render =
    t.renderer.out.flatMap Piece.render
  breaks : t.events.filterMap LayoutEvent.break = breaks t.renderer.out
  held : t.comments.flatten = t.renderer.pendingComments
  made : List.Forall₂ (Token.Made t.renderer) t.parts t.renderer.buffer
  followed : t.events.IsChain LayoutEvent.Follows
  finished : ∀ event ∈ t.events.getLast?, event.remark = none
  shown : ∀ id s, .ifBreak id s true ∈ t.events →
    (t.renderer.group id).wantBreak = true
  known : ∀ id s, .ifBreak id s false ∈ t.events →
    id < t.renderer.groups.length
  decided : ∀ id s, .ifBreak id s false ∈ t.events →
    ((t.renderer.group id).wantBreak = true ↔
      List.Sublist [.ifBreak id s false, .decided id] t.events)
  broken : ∀ id sep indent, .broken id sep indent ∈ t.events →
    (t.renderer.group id).wantBreak = true
  timely : ∀ id sep indent s,
    ¬ List.Sublist [.broken id sep indent, .ifBreak id s false] t.events
  forced : ∀ id < t.renderer.groups.length, id ≠ 0 → Forced t.renderer id

/-- Output that goes on: nothing is lost and nothing is put in between. -/
structure Advances (t t' : Transcriber) : Prop where
  sound : t'.Sound
  origins : t'.origins = t.origins
  remarks : t'.remarks = t.remarks
  forceBreak : t'.renderer.forceBreak = t.renderer.forceBreak
  breaks : ∀ id, (t.renderer.group id).wantBreak = true →
    (t'.renderer.group id).wantBreak = true
  lines : ∀ indent, .newline indent ∈ t'.events → .newline indent ∈ t.events

section Events

/-- Where a pair of elements comes from. -/
theorem pair_sublist_append {α : Type} {a b : α} {l l' : List α} :
    List.Sublist [a, b] (l ++ l') ↔ List.Sublist [a, b] l ∨
      (a ∈ l ∧ b ∈ l') ∨ List.Sublist [a, b] l' := by
  rw [List.sublist_append_iff]
  constructor
  · rintro ⟨first, second, heq, hfirst, hsecond⟩
    rcases first with - | ⟨x, - | ⟨y, rest⟩⟩
    · rw [List.nil_append] at heq
      exact .inr (.inr (heq ▸ hsecond))
    · obtain ⟨rfl, rfl⟩ := List.cons.inj heq
      exact .inr (.inl ⟨List.singleton_sublist.mp hfirst,
        List.singleton_sublist.mp hsecond⟩)
    · obtain ⟨rfl, hrest⟩ := List.cons.inj heq
      obtain ⟨rfl, hnil⟩ := List.cons.inj hrest
      rw [(List.append_eq_nil_iff.mp hnil.symm).1] at hfirst
      exact .inl hfirst
  · rintro (h | ⟨ha, hb⟩ | h)
    · exact ⟨[a, b], [], rfl, h, List.nil_sublist _⟩
    · exact ⟨[a], [b], rfl, List.singleton_sublist.mpr ha,
        List.singleton_sublist.mpr hb⟩
    · exact ⟨[], [a, b], rfl, List.nil_sublist _, h⟩

theorem render_comments (comments : List Text) :
    (comments.map LayoutEvent.comment).flatMap LayoutEvent.render =
      comments.flatten := by
  rw [List.flatMap_def, List.map_map]
  exact congrArg List.flatten (List.map_id comments)

theorem remark_comments (comments : List Text) :
    (comments.map LayoutEvent.comment).filterMap LayoutEvent.remark =
      comments := by
  rw [List.filterMap_map]
  exact List.filterMap_some

theorem origin_comments (comments : List Text) :
    (comments.map LayoutEvent.comment).filterMap LayoutEvent.origin = [] := by
  rw [List.filterMap_map]
  exact List.filterMap_eq_nil_iff.mpr fun _ _ => rfl

theorem break_comments (comments : List Text) :
    (comments.map LayoutEvent.comment).filterMap LayoutEvent.break = [] := by
  rw [List.filterMap_map]
  exact List.filterMap_eq_nil_iff.mpr fun _ _ => rfl

/-- Comments may be followed by a new line. -/
theorem follows_comments (comments : List Text) {event : LayoutEvent}
    (hends : event.endsComment = true) :
    (comments.map LayoutEvent.comment ++ [event]).IsChain
      LayoutEvent.Follows := by
  induction comments with
  | nil => exact List.isChain_singleton _
  | cons s rest ih =>
      rw [List.map_cons, List.cons_append]
      cases rest with
      | nil => exact List.isChain_pair.mpr fun _ => hends
      | cons s' rest => exact List.isChain_cons_cons.mpr ⟨fun _ => rfl, ih⟩

/-- Without comments anything may follow. -/
theorem follows_of_remark {events : List LayoutEvent}
    (hnone : ∀ event ∈ events, event.remark = none) :
    events.IsChain LayoutEvent.Follows := by
  induction events with
  | nil => exact List.isChain_nil
  | cons event rest ih =>
      apply (ih fun e he => hnone e (List.mem_cons_of_mem _ he)).cons
      intro next _ hsome
      rw [hnone event List.mem_cons_self] at hsome
      cases hsome

end Events

/-- Groups are added, and those there are do not start to break. -/
structure Grows (r r' : Renderer) : Prop where
  length_le : r.groups.length ≤ r'.groups.length
  wantBreak : ∀ id < r.groups.length,
    (r'.group id).wantBreak = (r.group id).wantBreak
  comment : ∀ id < r.groups.length,
    (r'.group id).comment = (r.group id).comment
  forceBreak : r'.forceBreak = r.forceBreak
  added : ∀ id < r'.groups.length, r.groups.length ≤ id → Forced r' id

/-- Events that may be added to a transcript. -/
structure Addable (r : Renderer) (events : List LayoutEvent) : Prop where
  followed : events.IsChain LayoutEvent.Follows
  finished : ∀ event ∈ events.getLast?, event.remark = none
  shown : ∀ id s, .ifBreak id s true ∈ events → (r.group id).wantBreak = true
  hidden : ∀ id s, .ifBreak id s false ∈ events →
    id < r.groups.length ∧ (r.group id).wantBreak = false
  undecided : ∀ id, .decided id ∉ events
  broken : ∀ id sep indent, .broken id sep indent ∈ events →
    (r.group id).wantBreak = true
  timely : ∀ id sep indent s,
    ¬ List.Sublist [.broken id sep indent, .ifBreak id s false] events

section Adding

variable {r r' : Renderer}

/-- There are no groups that break but those of the renderer. -/
theorem lt_of_wantBreak {id : Nat} (hwant : (r.group id).wantBreak = true) :
    id < r.groups.length := by
  by_contra hid
  rw [Renderer.group, List.getD_eq_getElem?_getD,
    List.getElem?_eq_none (Nat.le_of_not_lt hid)] at hwant
  cases hwant

theorem Grows.breaks (hsame : Grows r r') {id : Nat}
    (hwant : (r.group id).wantBreak = true) :
    (r'.group id).wantBreak = true :=
  (hsame.wantBreak id (lt_of_wantBreak hwant)).trans hwant

theorem addable_nil (r : Renderer) : Addable r [] :=
  ⟨List.isChain_nil, nofun, nofun, nofun, nofun, nofun, nofun⟩

/-- One event that is no comment, and no text for a broken group. -/
theorem addable_singleton {event : LayoutEvent} (hremark : event.remark = none)
    (hplain : ∀ id s shown, event ≠ .ifBreak id s shown)
    (hundecided : ∀ id, event ≠ .decided id)
    (hflat : ∀ id sep indent, event ≠ .broken id sep indent) :
    Addable r [event] where
  followed := List.isChain_singleton event
  finished e he := by
    obtain rfl : event = e := by simpa using he
    exact hremark
  shown id s hmem :=
    absurd (List.mem_singleton.mp hmem).symm (hplain id s true)
  hidden id s hmem :=
    absurd (List.mem_singleton.mp hmem).symm (hplain id s false)
  undecided id hmem :=
    absurd (List.mem_singleton.mp hmem).symm (hundecided id)
  broken id sep indent hmem :=
    absurd (List.mem_singleton.mp hmem).symm (hflat id sep indent)
  timely id sep indent s hsub :=
    absurd (List.mem_singleton.mp (hsub.subset List.mem_cons_self)).symm
      (hflat id sep indent)

theorem addable_ifBreak (s : Text) {id : Nat} (hid : id < r.groups.length) :
    Addable r [.ifBreak id s (r.group id).wantBreak] where
  followed := List.isChain_singleton _
  finished e he := by
    obtain rfl : _ = e := by simpa using he
    rfl
  shown id' s' hmem := by
    obtain ⟨rfl, -, hshown⟩ :=
      LayoutEvent.ifBreak.inj (List.mem_singleton.mp hmem)
    exact hshown.symm
  hidden id' s' hmem := by
    obtain ⟨rfl, -, hhidden⟩ :=
      LayoutEvent.ifBreak.inj (List.mem_singleton.mp hmem)
    exact ⟨hid, hhidden.symm⟩
  undecided id' hmem := by
    cases List.mem_singleton.mp hmem
  broken id' sep indent hmem := by
    cases List.mem_singleton.mp hmem
  timely id' sep indent s' hsub := by
    cases List.mem_singleton.mp (hsub.subset List.mem_cons_self)

/-- What is written is neither a comment nor a breakable. -/
theorem remark_break_of_written {event : LayoutEvent}
    (hwritten : event.Written r) :
    event.remark = none ∧ event.break = none := by
  cases event with
  | text s => exact ⟨rfl, rfl⟩
  | ifBreak id s shown => exact ⟨rfl, rfl⟩
  | _ => cases hwritten

theorem addable_written {parts : List LayoutEvent}
    (hwritten : ∀ event ∈ parts, event.Written r) : Addable r parts := by
  have hremark : ∀ event ∈ parts, event.remark = none :=
    fun event hmem => (remark_break_of_written (hwritten event hmem)).1
  constructor
  · exact follows_of_remark hremark
  · exact fun event hlast => hremark event (List.mem_of_getLast? hlast)
  · exact fun id s hmem => (hwritten _ hmem).2
  · intro id s hmem
    cases (hwritten _ hmem).1
  · exact fun id hmem => hwritten _ hmem
  · exact fun id sep indent hmem => (hwritten _ hmem).elim
  · exact fun id sep indent s hsub =>
      (hwritten _ (hsub.subset List.mem_cons_self)).elim

/-- Comments with a new line behind them. -/
theorem addable_line (comments : List Text) {event : LayoutEvent}
    (hends : event.endsComment = true) (hremark : event.remark = none)
    (hbroken : ∀ id sep indent, event = .broken id sep indent →
      (r.group id).wantBreak = true) :
    Addable r (comments.map LayoutEvent.comment ++ [event]) := by
  have hother : ∀ other ∈ comments.map LayoutEvent.comment ++ [event],
      (∃ s, other = .comment s) ∨ other = event := by
    intro other hmem
    rcases List.mem_append.mp hmem with hmem | hmem
    · obtain ⟨s, -, hs⟩ := List.mem_map.mp hmem
      exact .inl ⟨s, hs.symm⟩
    · exact .inr (List.mem_singleton.mp hmem)
  constructor
  · exact follows_comments comments hends
  · intro last hlast
    obtain rfl : event = last := by simpa using hlast
    exact hremark
  · intro id s hmem
    rcases hother _ hmem with ⟨s, hs⟩ | hs
    · cases hs
    · rw [← hs] at hends
      cases hends
  · intro id s hmem
    rcases hother _ hmem with ⟨s, hs⟩ | hs
    · cases hs
    · rw [← hs] at hends
      cases hends
  · intro id hmem
    rcases hother _ hmem with ⟨s, hs⟩ | hs
    · cases hs
    · rw [← hs] at hends
      cases hends
  · intro id sep indent hmem
    rcases hother _ hmem with ⟨s, hs⟩ | hs
    · cases hs
    · exact hbroken id sep indent hs.symm
  · intro id sep indent s hsub
    have hmem : .ifBreak id s false ∈
        comments.map LayoutEvent.comment ++ [event] := hsub.subset (by simp)
    rcases hother _ hmem with ⟨s', hs⟩ | hs
    · cases hs
    · rw [← hs] at hends
      cases hends

/-- Adding what was output keeps a transcript sound. -/
theorem Sound.append {t : Transcriber} (ht : t.Sound)
    {parts : List (List LayoutEvent)} {comments : List Text}
    {events : List LayoutEvent} {pieces : List Piece}
    (hout : r'.out = t.renderer.out ++ pieces)
    (hrendered : events.flatMap LayoutEvent.render =
      pieces.flatMap Piece.render)
    (hbreaks : events.filterMap LayoutEvent.break = Hegel.breaks pieces)
    (hheld : comments.flatten = r'.pendingComments)
    (hmade : List.Forall₂ (Token.Made r') parts r'.buffer)
    (hsame : Grows t.renderer r') (hadd : Addable r' events) :
    Sound ⟨r', parts, comments, t.events ++ events⟩ := by
  constructor
  · rw [List.flatMap_append, hrendered, ht.rendered, hout, List.flatMap_append]
  · rw [List.filterMap_append, hbreaks, ht.breaks, hout, breaks_append]
  · exact hheld
  · exact hmade
  · apply ht.followed.append hadd.followed
    intro event hlast next _ hsome
    rw [ht.finished event hlast] at hsome
    cases hsome
  · intro event hlast
    rw [List.getLast?_append] at hlast
    cases hnew : events.getLast? with
    | none =>
        rw [hnew] at hlast
        exact ht.finished event hlast
    | some last =>
        rw [hnew] at hlast
        obtain rfl : last = event := by simpa using hlast
        exact hadd.finished last hnew
  · intro id s hmem
    rcases List.mem_append.mp hmem with hmem | hmem
    · exact hsame.breaks (ht.shown id s hmem)
    · exact hadd.shown id s hmem
  · intro id s hmem
    rcases List.mem_append.mp hmem with hmem | hmem
    · exact (ht.known id s hmem).trans_le hsame.length_le
    · exact (hadd.hidden id s hmem).1
  · intro id s hmem
    have hlate : List.Sublist [.ifBreak id s false, .decided id]
        (t.events ++ events) ↔
          List.Sublist [.ifBreak id s false, .decided id] t.events := by
      rw [pair_sublist_append]
      constructor
      · rintro (h | ⟨-, h⟩ | h)
        · exact h
        · exact absurd h (hadd.undecided id)
        · exact absurd (h.subset (by simp)) (hadd.undecided id)
      · exact .inl
    rw [hlate]
    by_cases hearlier : .ifBreak id s false ∈ t.events
    · rw [hsame.wantBreak id (ht.known id s hearlier)]
      exact ht.decided id s hearlier
    · have hnew := (List.mem_append.mp hmem).resolve_left hearlier
      rw [(hadd.hidden id s hnew).2]
      constructor
      · simp
      · exact fun h => absurd (h.subset List.mem_cons_self) hearlier
  · intro id sep indent hmem
    rcases List.mem_append.mp hmem with hmem | hmem
    · exact hsame.breaks (ht.broken id sep indent hmem)
    · exact hadd.broken id sep indent hmem
  · intro id sep indent s hsub
    rcases pair_sublist_append.mp hsub with h | ⟨hbroken, hhidden⟩ | h
    · exact ht.timely id sep indent s h
    · have hwant := hsame.breaks (ht.broken id sep indent hbroken)
      rw [(hadd.hidden id s hhidden).2] at hwant
      cases hwant
    · exact hadd.timely id sep indent s h
  · intro id hid hne
    by_cases hearlier : id < t.renderer.groups.length
    · rw [Forced, hsame.comment id hearlier, hsame.wantBreak id hearlier,
        hsame.forceBreak]
      exact ht.forced id hearlier hne
    · exact hsame.added id hid (Nat.le_of_not_lt hearlier)

/-- What is made stays so while no group stops to break. -/
theorem Token.Made.mono {parts : List LayoutEvent} {token : Token}
    (hmade : token.Made r parts) (hlength : r.groups.length ≤ r'.groups.length)
    (hwant : ∀ id, (r.group id).wantBreak = true →
      (r'.group id).wantBreak = true) : token.Made r' parts := by
  cases token with
  | text content width =>
      refine ⟨hmade.1, fun event hmem => ?_⟩
      have hwritten := hmade.2 event hmem
      cases event with
      | text s => trivial
      | ifBreak id s shown => exact ⟨hwritten.1, hwant id hwritten.2⟩
      | _ => cases hwritten
  | ifBreak content id => exact ⟨hmade.1, hmade.2.trans_le hlength⟩
  | breakable sep width indent id => exact hmade
  | comment content => exact hmade

theorem made_mono {parts : List (List LayoutEvent)} {tokens : List Token}
    (hmade : List.Forall₂ (Token.Made r) parts tokens)
    (hsame : Grows r r') : List.Forall₂ (Token.Made r') parts tokens :=
  hmade.imp fun _ _ h =>
    Token.Made.mono h hsame.length_le fun _ => hsame.breaks

end Adding

section Output

variable {t : Transcriber} {token : Token} {rest : List Token}

theorem grows_of_groups {r r' : Renderer} (hgroups : r'.groups = r.groups)
    (hforce : r'.forceBreak = r.forceBreak) : Grows r r' := by
  have hgroup : r'.group = r.group := by
    funext id
    rw [Renderer.group, Renderer.group, hgroups]
  constructor
  · rw [hgroups]
  · intro id _
    rw [hgroup]
  · intro id _
    rw [hgroup]
  · exact hforce
  · intro id hlt hle
    rw [hgroups] at hlt
    exact absurd hlt (Nat.not_lt_of_le hle)

/-- Changing what is pending of a group. -/
theorem grows_modify {r r' : Renderer} {id : Nat} {f : Group → Group}
    (hgroups : r'.groups = r.groups.modify id f)
    (hforce : r'.forceBreak = r.forceBreak)
    (hwant : ∀ group, (f group).wantBreak = group.wantBreak)
    (hcomment : ∀ group, (f group).comment = group.comment) :
    Grows r r' := by
  have hgroup : ∀ x < r.groups.length, r'.group x = r.group x ∨
      r'.group x = f (r.group x) := by
    intro x hx
    rw [Renderer.group, Renderer.group, hgroups, List.getD_eq_getElem?_getD,
      List.getD_eq_getElem?_getD, List.getElem?_modify,
      List.getElem?_eq_getElem hx]
    by_cases hsame : id = x
    · simp [hsame]
    · simp [hsame]
  have hlength : r'.groups.length = r.groups.length := by
    rw [hgroups, List.length_modify]
  constructor
  · exact hlength.ge
  · intro x hx
    rcases hgroup x hx with h | h
    · rw [h]
    · rw [h, hwant]
  · intro x hx
    rcases hgroup x hx with h | h
    · rw [h]
    · rw [h, hcomment]
  · exact hforce
  · intro x hlt hle
    rw [hlength] at hlt
    exact absurd hlt (Nat.not_lt_of_le hle)

theorem grows_pop (width : Nat) :
    Grows t.renderer (t.renderer.pop token rest width) := by
  cases token with
  | text content contentWidth => exact grows_of_groups rfl rfl
  | comment content => exact grows_of_groups rfl rfl
  | ifBreak content id =>
      rw [Renderer.pop, Renderer.outputToken]
      split_ifs
      · exact grows_of_groups rfl rfl
      · exact grows_of_groups rfl rfl
  | breakable sep sepWidth indent id =>
      have hpop : (t.renderer.pop (.breakable sep sepWidth indent id) rest
          width).groups = t.renderer.groups.modify id (fun group =>
            { group with pending := group.pending - 1 }) ∧
          (t.renderer.pop (.breakable sep sepWidth indent id) rest
            width).forceBreak = t.renderer.forceBreak := by
        rw [Renderer.pop, Renderer.outputToken]
        dsimp only
        split_ifs <;> exact ⟨rfl, rfl⟩
      exact grows_modify hpop.1 hpop.2 (fun _ => rfl) fun _ => rfl

/-- What is counted out breaks as before. -/
theorem wantBreak_countOut (r : Renderer) (id x : Nat) :
    ((r.countOut id).group x).wantBreak = (r.group x).wantBreak := by
  rw [Renderer.group_countOut]
  split_ifs <;> rfl

theorem break_written {r : Renderer} {parts : List LayoutEvent}
    (hwritten : ∀ event ∈ parts, event.Written r) :
    parts.filterMap LayoutEvent.break = [] :=
  List.filterMap_eq_nil_iff.mpr fun event hmem =>
    (remark_break_of_written (hwritten event hmem)).2

theorem remark_written {r : Renderer} {parts : List LayoutEvent}
    (hwritten : ∀ event ∈ parts, event.Written r) :
    parts.filterMap LayoutEvent.remark = [] :=
  List.filterMap_eq_nil_iff.mpr fun event hmem =>
    (remark_break_of_written (hwritten event hmem)).1

/-- What a token becomes is what it comes from. -/
theorem origin_tokenEvents {part : List LayoutEvent}
    {parts : List (List LayoutEvent)} (hparts : t.parts = part :: parts) :
    (t.tokenEvents token).filterMap LayoutEvent.origin =
      token.origins part := by
  cases token with
  | text content width =>
      rw [tokenEvents, hparts]
      rfl
  | ifBreak content id => rfl
  | comment content => rfl
  | breakable sep width indent id =>
      rw [tokenEvents]
      split_ifs
      · rw [List.filterMap_append, origin_comments]
        rfl
      · rfl

theorem remark_tokenEvents {part : List LayoutEvent}
    {parts : List (List LayoutEvent)} (hparts : t.parts = part :: parts)
    (hmade : token.Made t.renderer part) :
    (t.tokenEvents token).filterMap LayoutEvent.remark ++
        t.tokenComments token = t.comments ++ token.remark.toList := by
  cases token with
  | text content width =>
      rw [tokenEvents, hparts, List.headD_cons, remark_written hmade.2]
      exact (List.append_nil _).symm
  | ifBreak content id => exact (List.append_nil _).symm
  | comment content => rfl
  | breakable sep width indent id =>
      rw [tokenEvents, tokenComments]
      split_ifs
      · rw [List.filterMap_append, remark_comments]
        simp [LayoutEvent.remark, Token.remark]
      · simp [LayoutEvent.remark, Token.remark]

/-- Fixed newlines are not put in when tokens are output. -/
theorem newline_notMem_tokenEvents (ht : t.Sound) {indent : Int}
    (hbuffer : t.renderer.buffer = token :: rest) :
    .newline indent ∉ t.tokenEvents token := by
  intro hmem
  cases token with
  | text content width =>
      have hmade := ht.made
      rw [hbuffer] at hmade
      obtain ⟨part, parts, hpart, -, hparts⟩ :=
        List.forall₂_cons_right_iff.mp hmade
      rw [tokenEvents, hparts] at hmem
      exact hpart.2 _ hmem
  | ifBreak content id => cases List.mem_singleton.mp hmem
  | comment content => cases hmem
  | breakable sep width indent' id =>
      rw [tokenEvents] at hmem
      split_ifs at hmem
      · rcases List.mem_append.mp hmem with hmem | hmem
        · obtain ⟨s, -, hs⟩ := List.mem_map.mp hmem
          cases hs
        · cases List.mem_singleton.mp hmem
      · cases List.mem_singleton.mp hmem

/-- Outputting a token keeps the transcript. -/
theorem Sound.pop (ht : t.Sound) (hbuffer : t.renderer.buffer = token :: rest)
    (width : Nat) : Advances t (t.pop token rest width) := by
  have hmade := ht.made
  rw [hbuffer] at hmade
  obtain ⟨part, parts, hpart, hrest, hparts⟩ :=
    List.forall₂_cons_right_iff.mp hmade
  have hsame := @grows_pop t token rest width
  have hbuffer' : (t.renderer.pop token rest width).buffer = rest :=
    Renderer.buffer_pop width
  have hmade' : List.Forall₂ (Token.Made (t.renderer.pop token rest width))
      t.parts.tail (t.renderer.pop token rest width).buffer := by
    rw [hbuffer', hparts]
    exact made_mono hrest hsame
  have hlines : ∀ indent, .newline indent ∈ t.events ++ t.tokenEvents token →
      .newline indent ∈ t.events := fun indent hmem =>
    (List.mem_append.mp hmem).resolve_right
      (newline_notMem_tokenEvents ht hbuffer)
  refine ⟨?_, ?_, ?_, hsame.forceBreak, fun _ => hsame.breaks, hlines⟩
  · cases token with
    | text content contentWidth =>
        refine @Sound.append _ t ht _ _ _ [.text content] rfl ?_ ?_ ht.held
          hmade' hsame ?_
        · rw [tokenEvents, hparts, List.headD_cons, hpart.1]
          simp [Piece.render]
        · rw [tokenEvents, hparts, List.headD_cons, break_written hpart.2]
          rfl
        · rw [tokenEvents, hparts, List.headD_cons]
          exact addable_written (Token.Made.mono hpart hsame.length_le
            fun _ => hsame.breaks).2
    | comment content =>
        refine @Sound.append _ t ht _ _ [] [] (List.append_nil _).symm rfl rfl
          ?_ hmade' hsame (addable_nil _)
        rw [tokenComments, List.flatten_append, ht.held]
        exact congrArg _ (List.append_nil content)
    | ifBreak content id =>
        have hadd : Addable (t.renderer.pop (.ifBreak content id) rest width)
            [.ifBreak id content (t.renderer.group id).wantBreak] := by
          rw [← hsame.wantBreak id hpart.2]
          exact addable_ifBreak content (hpart.2.trans_le hsame.length_le)
        by_cases hbroken : (t.renderer.group id).wantBreak = true
        · refine @Sound.append _ t ht _ _ _ [.text content] ?_ ?_ rfl ?_
            hmade' hsame hadd
          · rw [Renderer.pop, Renderer.outputToken, if_pos]
            · rfl
            · exact hbroken
          · rw [tokenEvents, hbroken]
            rfl
          · rw [Renderer.pop, Renderer.outputToken, if_pos]
            · exact ht.held
            · exact hbroken
        · refine @Sound.append _ t ht _ _ _ [] ?_ ?_ rfl ?_ hmade' hsame hadd
          · rw [Renderer.pop, Renderer.outputToken, if_neg]
            · exact (List.append_nil _).symm
            · exact hbroken
          · rw [tokenEvents, Bool.eq_false_iff.mpr hbroken]
            rfl
          · rw [Renderer.pop, Renderer.outputToken, if_neg]
            · exact ht.held
            · exact hbroken
    | breakable sep sepWidth indent id =>
        have hwant := wantBreak_countOut
          { t.renderer with buffer := rest, bufferWidth := width } id id
        have hgroup : (({ t.renderer with
            buffer := rest, bufferWidth := width } : Renderer).group
              id).wantBreak = (t.renderer.group id).wantBreak := rfl
        by_cases hbroken : (t.renderer.group id).wantBreak = true
        · refine @Sound.append _ t ht _ _ _
            [.text t.renderer.pendingComments, .newline (some id) indent]
            ?_ ?_ ?_ ?_ hmade' hsame ?_
          · rw [Renderer.pop, Renderer.outputToken]
            dsimp only
            rw [if_pos (hwant.trans (hgroup.trans hbroken))]
            exact List.append_assoc _ _ _
          · rw [tokenEvents, if_pos hbroken, List.flatMap_append,
              render_comments, ht.held]
            simp [Piece.render, LayoutEvent.render]
          · rw [tokenEvents, if_pos hbroken, List.filterMap_append,
              break_comments]
            rfl
          · rw [Renderer.pop, Renderer.outputToken]
            dsimp only
            rw [if_pos (hwant.trans (hgroup.trans hbroken)), tokenComments,
              if_pos hbroken]
            rfl
          · rw [tokenEvents, if_pos hbroken]
            refine addable_line t.comments rfl rfl fun id' sep' indent' h => ?_
            obtain ⟨rfl, -, -⟩ := LayoutEvent.broken.inj h
            exact hsame.breaks hbroken
        · have hflat := (hwant.trans hgroup).trans_ne hbroken
          refine @Sound.append _ t ht _ _ _ [.separator id sep]
            ?_ ?_ ?_ ?_ hmade' hsame ?_
          · rw [Renderer.pop, Renderer.outputToken]
            dsimp only
            rw [if_neg hflat]
            split_ifs <;> rfl
          · rw [tokenEvents, if_neg hbroken]
            rfl
          · rw [tokenEvents, if_neg hbroken]
            rfl
          · rw [Renderer.pop, Renderer.outputToken, tokenComments,
              if_neg hbroken]
            dsimp only
            rw [if_neg hflat]
            split_ifs <;> exact ht.held
          · rw [tokenEvents, if_neg hbroken]
            exact addable_singleton rfl (by simp) (by simp) (by simp)
  · rw [origins, origins, hbuffer, hparts, List.zipWith_cons_cons,
      List.flatten_cons, ← origin_tokenEvents hparts, ← List.append_assoc,
      ← List.filterMap_append, Transcriber.pop, hbuffer', hparts]
    rfl
  · have htoken := remark_tokenEvents hparts hpart
    rw [remarks, remarks, hbuffer, Transcriber.pop, hbuffer',
      List.filterMap_append, List.append_assoc (List.filterMap _ t.events),
      htoken]
    simp only [List.filterMap_cons, List.append_assoc]
    cases token.remark <;> rfl

end Output

section Loops

variable {t t' : Transcriber}

theorem advances_refl (ht : t.Sound) : Advances t t :=
  ⟨ht, rfl, rfl, rfl, fun _ h => h, fun _ h => h⟩

theorem Advances.trans {t'' : Transcriber} (h : Advances t t')
    (h' : Advances t' t'') : Advances t t'' :=
  ⟨h'.sound, h'.origins.trans h.origins, h'.remarks.trans h.remarks,
    h'.forceBreak.trans h.forceBreak, fun id hid => h'.breaks id (h.breaks id hid),
    fun indent hmem => h.lines indent (h'.lines indent hmem)⟩

/-- What a renderer holds besides its output, its buffer and its comments
does not matter. -/
theorem Sound.congr (ht : t.Sound) {r : Renderer} (hout : r.out = t.renderer.out)
    (hbuffer : r.buffer = t.renderer.buffer)
    (hpending : r.pendingComments = t.renderer.pendingComments)
    (hsame : Grows t.renderer r) :
    Advances t { t with renderer := r } := by
  have hsound := @Sound.append r t ht t.parts t.comments [] []
    (hout.trans (List.append_nil _).symm) rfl rfl (ht.held.trans hpending.symm)
    (by
      rw [hbuffer]
      exact made_mono ht.made hsame) hsame (addable_nil r)
  rw [List.append_nil] at hsound
  refine ⟨hsound, ?_, ?_, hsame.forceBreak, fun _ => hsame.breaks,
    fun _ h => h⟩
  · rw [origins, origins, hbuffer]
  · rw [remarks, remarks, hbuffer]

theorem advances_popWhile (ht : t.Sound) (condition : Renderer → Bool) :
    Advances t (popWhile condition t.renderer.buffer t) := by
  generalize hbuffer : t.renderer.buffer = buffer
  induction buffer generalizing t with
  | nil => exact advances_refl ht
  | cons token rest ih =>
      rw [popWhile]
      by_cases hcondition : condition t.renderer = true
      · rw [if_pos hcondition]
        have hpop := ht.pop hbuffer (t.renderer.bufferWidth - token.width)
        exact hpop.trans (ih hpop.sound (Renderer.buffer_pop _))
      · rw [if_neg hcondition]
        exact advances_refl ht

/-- Flushing leaves nothing but comments waiting. -/
theorem advances_flush (ht : t.Sound) :
    Advances t t.flush ∧ t.flush.renderer.buffer = [] := by
  have htokens : Advances t (flushTokens t.renderer.buffer t) ∧
      (flushTokens t.renderer.buffer t).renderer.buffer = [] := by
    generalize hbuffer : t.renderer.buffer = buffer
    induction buffer generalizing t with
    | nil => exact ⟨advances_refl ht, hbuffer⟩
    | cons token rest ih =>
        have hpop := ht.pop hbuffer t.renderer.bufferWidth
        obtain ⟨hrest, hempty⟩ := ih hpop.sound (Renderer.buffer_pop _)
        exact ⟨hpop.trans hrest, hempty⟩
  exact ⟨htokens.1.trans (htokens.1.sound.congr rfl rfl rfl
    (grows_of_groups rfl rfl)), htokens.2⟩

/-- Setting groups to break is recorded. -/
theorem wantBreak_setWantBreaks (broken : List Nat) {r : Renderer} {id : Nat}
    (hid : id < r.groups.length) :
    ((broken.foldl Renderer.setWantBreak r).group id).wantBreak = true ↔
      (r.group id).wantBreak = true ∨ id ∈ broken := by
  induction broken generalizing r with
  | nil => simp
  | cons x rest ih =>
      have hlength : (r.setWantBreak x).groups.length = r.groups.length :=
        List.length_modify ..
      rw [List.foldl_cons, ih (hid.trans_eq hlength.symm), List.mem_cons,
        ← or_assoc]
      refine or_congr_left ?_
      rw [Renderer.group, Renderer.group, Renderer.setWantBreak,
        List.getD_eq_getElem?_getD, List.getD_eq_getElem?_getD,
        List.getElem?_modify, List.getElem?_eq_getElem hid]
      by_cases hsame : x = id
      · simp [hsame]
      · simp [hsame, Ne.symm hsame]

theorem wantBreak_deq {r : Renderer} {id : Nat} (hid : id < r.groups.length) :
    (r.deq.1.group id).wantBreak = true ↔ (r.group id).wantBreak = true ∨
      id ∈ (r.deqLevels r.groupQueue).2.2 :=
  @wantBreak_setWantBreaks (r.deqLevels r.groupQueue).2.2
    { r with groupQueue := (r.deqLevels r.groupQueue).1 } id hid

theorem length_deq (r : Renderer) :
    r.deq.1.groups.length = r.groups.length := by
  have hmarks : ∀ (broken : List Nat) (r : Renderer),
      (broken.foldl Renderer.setWantBreak r).groups.length =
        r.groups.length := by
    intro broken
    induction broken with
    | nil => exact fun _ => rfl
    | cons id rest ih => exact fun r => (ih _).trans (List.length_modify ..)
  exact hmarks _ _

theorem comment_deq (r : Renderer) (id : Nat) :
    (r.deq.1.group id).comment = (r.group id).comment := by
  have hmarks : ∀ (broken : List Nat) (r : Renderer),
      ((broken.foldl Renderer.setWantBreak r).group id).comment =
        (r.group id).comment := by
    intro broken
    induction broken with
    | nil => exact fun _ => rfl
    | cons x rest ih =>
        intro r
        rw [List.foldl_cons, ih, Renderer.group, Renderer.setWantBreak,
          List.getD_eq_getElem?_getD, List.getElem?_modify]
        rw [Renderer.group, List.getD_eq_getElem?_getD]
        cases r.groups[id]? with
        | none => rfl
        | some group =>
            by_cases hsame : x = id
            · simp [hsame]
            · simp [hsame]
  exact hmarks _ _

/-- Breaking groups is what the transcript says of them. -/
theorem advances_deq (ht : t.Sound) : Advances t t.deq.1 := by
  obtain ⟨levels, groups, hdeq⟩ := t.renderer.deq_eq
  have hlength := length_deq t.renderer
  have hwant := @wantBreak_deq t.renderer
  let marks := (t.renderer.deqLevels t.renderer.groupQueue).2.2.map
    LayoutEvent.decided
  have hmark : ∀ event, event ∈ marks → ∃ id, event = .decided id := by
    intro event hmem
    obtain ⟨id, -, hid⟩ := List.mem_map.mp hmem
    exact ⟨id, hid.symm⟩
  have hnone : ∀ {β : Type} (f : LayoutEvent → Option β),
      (∀ id, f (.decided id) = none) → marks.filterMap f = [] := by
    intro β f hf
    apply List.filterMap_eq_nil_iff.mpr
    intro event hmem
    obtain ⟨id, rfl⟩ := hmark event hmem
    exact hf id
  have hremark : ∀ event ∈ marks, event.remark = none := by
    intro event hmem
    obtain ⟨id, rfl⟩ := hmark event hmem
    rfl
  have hold : ∀ id s shown, .ifBreak id s shown ∈ t.events ++ marks →
      .ifBreak id s shown ∈ t.events := by
    intro id s shown hmem
    rcases List.mem_append.mp hmem with hmem | hmem
    · exact hmem
    · obtain ⟨x, hx⟩ := hmark _ hmem
      cases hx
  have hsame : t.deq.1 = ⟨t.renderer.deq.1, t.parts, t.comments,
      t.events ++ marks⟩ := rfl
  have hbuffer : t.renderer.deq.1.buffer = t.renderer.buffer := by rw [hdeq]
  have hforce : t.renderer.deq.1.forceBreak = t.renderer.forceBreak := by
    rw [hdeq]
  have hkept : ∀ id, (t.renderer.group id).wantBreak = true →
      (t.renderer.deq.1.group id).wantBreak = true :=
    fun id hbroken => (hwant (lt_of_wantBreak hbroken)).mpr (.inl hbroken)
  have hlines : ∀ indent, .newline indent ∈ t.events ++ marks →
      .newline indent ∈ t.events := by
    intro indent hmem
    refine (List.mem_append.mp hmem).resolve_right fun h => ?_
    obtain ⟨id, hid⟩ := hmark _ h
    cases hid
  refine ⟨?_, ?_, ?_, hforce, hkept, hlines⟩
  · rw [hsame]
    constructor
    · have hrender : marks.flatMap LayoutEvent.render = [] := by
        apply List.flatMap_eq_nil_iff.mpr
        intro event hmem
        obtain ⟨id, rfl⟩ := hmark event hmem
        rfl
      rw [List.flatMap_append, hrender, List.append_nil, ht.rendered, hdeq]
    · rw [List.filterMap_append, hnone _ fun _ => rfl, List.append_nil,
        ht.breaks, hdeq]
    · rw [hdeq]
      exact ht.held
    · dsimp only
      rw [hbuffer]
      exact ht.made.imp fun _ _ h => Token.Made.mono h hlength.ge hkept
    · apply ht.followed.append (follows_of_remark hremark)
      intro event hlast next _ hsome
      rw [ht.finished event hlast] at hsome
      cases hsome
    · intro event hlast
      rw [List.getLast?_append] at hlast
      cases hnew : marks.getLast? with
      | none =>
          rw [hnew] at hlast
          exact ht.finished event hlast
      | some last =>
          rw [hnew] at hlast
          obtain rfl : last = event := by simpa using hlast
          exact hremark last (List.mem_of_getLast? hnew)
    · intro id s hmem
      exact hkept id (ht.shown id s (hold id s true hmem))
    · intro id s hmem
      exact (ht.known id s (hold id s false hmem)).trans_eq hlength.symm
    · intro id s hmem
      have hearlier := hold id s false hmem
      rw [hwant (ht.known id s hearlier), pair_sublist_append,
        ht.decided id s hearlier]
      refine or_congr_right ⟨fun h => ?_, ?_⟩
      · exact .inl ⟨hearlier, List.mem_map_of_mem h⟩
      · rintro (⟨-, h⟩ | h)
        · obtain ⟨x, hx, heq⟩ := List.mem_map.mp h
          cases heq
          exact hx
        · obtain ⟨x, hx⟩ := hmark _ (h.subset List.mem_cons_self)
          cases hx
    · intro id sep indent hmem
      have hearlier : .broken id sep indent ∈ t.events := by
        rcases List.mem_append.mp hmem with hmem | hmem
        · exact hmem
        · obtain ⟨x, hx⟩ := hmark _ hmem
          cases hx
      exact hkept id (ht.broken id sep indent hearlier)
    · intro id sep indent s hsub
      rcases pair_sublist_append.mp hsub with h | ⟨-, h⟩ | h
      · exact ht.timely id sep indent s h
      · obtain ⟨x, hx⟩ := hmark _ h
        cases hx
      · obtain ⟨x, hx⟩ := hmark _ (h.subset List.mem_cons_self)
        cases hx
    · intro id hid hne
      rw [hlength] at hid
      obtain ⟨hcomment, hbroken⟩ := ht.forced id hid hne
      rw [Forced, comment_deq, hforce]
      exact ⟨hcomment, fun h => hkept id (hbroken h)⟩
  · rw [hsame, origins, origins, List.filterMap_append, hnone _ fun _ => rfl,
      List.append_nil, hbuffer]
  · rw [hsame, remarks, remarks, List.filterMap_append, hnone _ fun _ => rfl,
      List.append_nil, hbuffer]

theorem advances_breakGroups (ht : t.Sound) (rounds : Nat) :
    Advances t (t.breakGroups rounds) := by
  induction rounds generalizing t with
  | zero => exact advances_refl ht
  | succ rounds ih =>
      rw [breakGroups]
      by_cases hover : t.renderer.outputWidth + t.renderer.bufferWidth >
          t.renderer.maxWidth
      · rw [if_pos hover]
        have hdeq := advances_deq ht
        generalize t.deq = result at hdeq
        obtain ⟨t', found⟩ := result
        cases found with
        | none => exact hdeq
        | some id =>
            have hdrained := advances_popWhile hdeq.sound fun r =>
              decide ((r.group id).pending > 0)
            have htext := advances_popWhile hdrained.sound
              Renderer.frontIsText
            exact ((hdeq.trans hdrained).trans htext).trans (ih htext.sound)
      · rw [if_neg hover]
        exact advances_refl ht

end Loops

end Transcriber

end Hegel
