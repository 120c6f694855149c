/-
Trees of accepted patterns.  What a parser has built is followed with the
groups it has opened and closed, from the tokens of a sequence up to the whole
pattern.
-/
import Hegel.ParserEscapes

namespace Hegel

open Parsing

/-- How often a group that only encloses is opened in a text, at most. -/
def plainGroups : List Char → Nat
  | [] => 0
  | c :: rest =>
      (if "(?:".toList.isPrefixOf (c :: rest) then 1 else 0) +
        plainGroups rest

theorem plainGroups_suffix {rest start : List Char} (hrest : rest <:+ start) :
    plainGroups rest ≤ plainGroups start := by
  obtain ⟨before, rfl⟩ := hrest
  induction before with
  | nil => exact Nat.le_refl _
  | cons c before ih => exact ih.trans (Nat.le_add_left _ _)

theorem plainGroups_open (rest : List Char) :
    plainGroups rest + 1 ≤ plainGroups ('(' :: '?' :: ':' :: rest) := by
  have hhere : "(?:".toList.isPrefixOf ('(' :: '?' :: ':' :: rest) = true := by
    simp [List.isPrefixOf]
  have hlater : plainGroups rest ≤ plainGroups ('?' :: ':' :: rest) :=
    plainGroups_suffix ⟨['?', ':'], rfl⟩
  rw [plainGroups, if_pos hhere]
  omega

namespace RegexState

/-- Named groups have been opened; the whole pattern is not one of them. -/
structure Sound (s : RegexState) : Prop where
  started : 0 < s.groups
  named : ∀ n gid, s.groupdict.lookup n = some gid → 0 < gid ∧ gid < s.groups

/-- A group that has been opened, or will be looked for at the end. -/
def Knows (s : RegexState) (gid : Nat) : Prop :=
  gid < s.groups ∨ gid ∈ s.grouprefpos

theorem checkgroup_iff {s : RegexState} {gid : Nat} :
    s.checkgroup gid = true ↔ ∃ width, s.groupwidths[gid]? = some (some width) := by
  unfold checkgroup
  split
  next width hwidth => simp [hwidth]
  next hne => simpa using fun width hwidth => hne width hwidth

/-- What happens to the groups while something is parsed in which these events
are met: all that are opened are closed. -/
structure Follows (s s' : RegexState) (events : List PatternEvent) : Prop where
  widths : ∃ added, s'.groupwidths = s.groupwidths ++ added ∧
    ∀ width ∈ added, width.isSome = true
  closes : ∀ gid, .closes gid ∈ events ↔ s.groups ≤ gid ∧ gid < s'.groups
  refs : RefsClosed {gid | s.checkgroup gid = true} events
  tests : ∀ gid, .tests gid ∈ events → 0 < gid ∧ s'.Knows gid
  kept : ∀ gid ∈ s.grouprefpos, gid ∈ s'.grouprefpos
  sound : s.Sound → s'.Sound

namespace Follows

variable {s s₁ s' : RegexState} {events later : List PatternEvent}

theorem groups_le (hfollows : s.Follows s' events) : s.groups ≤ s'.groups := by
  obtain ⟨added, hwidths, -⟩ := hfollows.widths
  rw [groups, groups, hwidths, List.length_append]
  exact Nat.le_add_right _ _

theorem knows (hfollows : s.Follows s' events) {gid : Nat}
    (hknows : s.Knows gid) : s'.Knows gid :=
  hknows.imp (fun hlt => hlt.trans_le hfollows.groups_le)
    (hfollows.kept gid)

theorem checkgroup_iff (hfollows : s.Follows s' events) (gid : Nat) :
    s'.checkgroup gid = true ↔
      s.checkgroup gid = true ∨ .closes gid ∈ events := by
  obtain ⟨added, hwidths, hclosed⟩ := hfollows.widths
  rw [RegexState.checkgroup_iff, RegexState.checkgroup_iff, hfollows.closes,
    groups, groups, hwidths, List.length_append]
  by_cases hlt : gid < s.groupwidths.length
  · rw [List.getElem?_append_left hlt]
    constructor
    · exact .inl
    · exact fun h => h.resolve_right fun hle => by omega
  · rw [List.getElem?_append_right (by omega)]
    have hnone : s.groupwidths[gid]? = none :=
      List.getElem?_eq_none (by omega)
    simp only [hnone, reduceCtorEq, exists_false, false_or]
    constructor
    · rintro ⟨width, hwidth⟩
      have hbound := (List.getElem?_eq_some_iff.mp hwidth).1
      omega
    · rintro ⟨hle, hgid⟩
      have hbound : gid - s.groupwidths.length < added.length := by omega
      have hsome := hclosed _ (List.getElem_mem hbound)
      obtain ⟨width, hwidth⟩ := Option.isSome_iff_exists.mp hsome
      exact ⟨width, by rw [List.getElem?_eq_getElem hbound, hwidth]⟩

/-- Nothing is met, and the groups stay as they are. -/
theorem idle (hwidths : s'.groupwidths = s.groupwidths)
    (hdict : s'.groupdict = s.groupdict)
    (hkept : ∀ gid ∈ s.grouprefpos, gid ∈ s'.grouprefpos) :
    s.Follows s' [] where
  widths := ⟨[], by rw [hwidths, List.append_nil], nofun⟩
  closes := by
    intro gid
    rw [groups, groups, hwidths]
    simp
  refs := refsClosed_of_none nofun
  tests := nofun
  kept := hkept
  sound := by
    intro hsound
    refine ⟨?_, ?_⟩
    · rw [groups, hwidths]
      exact hsound.started
    · rw [hdict, groups, hwidths]
      exact hsound.named

theorem trans (hfirst : s.Follows s₁ events) (hsecond : s₁.Follows s' later) :
    s.Follows s' (events ++ later) where
  widths := by
    obtain ⟨added, hwidths, hclosed⟩ := hfirst.widths
    obtain ⟨added', hwidths', hclosed'⟩ := hsecond.widths
    refine ⟨added ++ added', ?_, List.forall_mem_append.mpr ⟨hclosed, hclosed'⟩⟩
    rw [hwidths', hwidths, List.append_assoc]
  closes := by
    intro gid
    have hle := hfirst.groups_le
    have hle' := hsecond.groups_le
    rw [List.mem_append, hfirst.closes, hsecond.closes]
    omega
  refs := by
    refine refsClosed_append.mpr ⟨hfirst.refs, hsecond.refs.mono ?_⟩
    exact fun gid hgid => (hfirst.checkgroup_iff gid).mp hgid
  tests := by
    intro gid hgid
    rcases List.mem_append.mp hgid with hgid | hgid
    · exact (hfirst.tests gid hgid).imp_right hsecond.knows
    · exact hsecond.tests gid hgid
  kept := fun gid hgid => hsecond.kept gid (hfirst.kept gid hgid)
  sound := fun hsound => hsecond.sound (hfirst.sound hsound)

theorem condense (hfollows : s.Follows s' events)
    (hcondenses : Condenses events later) : s.Follows s' later :=
  { hfollows with
    closes := fun gid =>
      (hcondenses.mem_iff (.closes gid)).trans (hfollows.closes gid)
    refs := hcondenses.refsClosed hfollows.refs
    tests := fun gid hgid =>
      hfollows.tests gid ((hcondenses.mem_iff (.tests gid)).mp hgid) }

/-- A reference to a closed group is met. -/
theorem refer {gid : Nat} (hclosed : s.checkgroup gid = true) :
    s.Follows s [.refers gid] := by
  have hidle : s.Follows s [] := idle rfl rfl fun _ hgid => hgid
  refine { hidle with closes := ?_, refs := ?_, tests := ?_ }
  · intro gid'
    simp
  · intro before gid' after heq
    have hmem : PatternEvent.refers gid' ∈ [PatternEvent.refers gid] := by
      rw [heq]
      exact List.mem_append_right _ List.mem_cons_self
    have hsame := PatternEvent.refers.inj (List.mem_singleton.mp hmem)
    exact .inl (hsame ▸ hclosed)
  · intro gid' hgid'
    simp at hgid'

/-- A condition on a group is met. -/
theorem test {gid : Nat} (hpos : 0 < gid) (hknows : s.Knows gid) :
    s.Follows s [.tests gid] := by
  have hidle : s.Follows s [] := idle rfl rfl fun _ hgid => hgid
  refine { hidle with closes := ?_, refs := ?_, tests := ?_ }
  · intro gid'
    simp
  · exact refsClosed_of_none (by simp)
  · intro gid' hgid'
    cases List.mem_singleton.mp hgid'
    exact ⟨hpos, hknows⟩

theorem insertBare (hfollows : s.Follows s' (events ++ later)) :
    s.Follows s' (events ++ .bare :: later) := by
  refine { hfollows with closes := ?_, refs := ?_, tests := ?_ }
  · intro gid
    rw [← hfollows.closes]
    simp
  · have hrefs := refsClosed_append.mp hfollows.refs
    refine refsClosed_append.mpr ⟨hrefs.1, ?_⟩
    rw [← List.singleton_append]
    refine refsClosed_append.mpr ⟨refsClosed_of_none (by simp), ?_⟩
    exact hrefs.2.mono fun gid hgid => .inl hgid
  · intro gid hgid
    refine hfollows.tests gid ?_
    simpa using hgid

end Follows

/-- A group is opened, and closed when its content has been parsed. -/
theorem follows_group {s s₁ s₂ : RegexState} {events : List PatternEvent}
    (hwidths : s₁.groupwidths = s.groupwidths ++ [none])
    (hrefpos : s₁.grouprefpos = s.grouprefpos)
    (hsound : s.Sound → s₁.Sound) (hfollows : s₁.Follows s₂ events) :
    s.Follows (s₂.closegroup s.groups)
      (.opens s.groups :: (events ++ [.closes s.groups])) := by
  have hgroups : s₁.groups = s.groups + 1 := by
    rw [groups, groups, hwidths, List.length_append]
    rfl
  have hlength : (s₂.closegroup s.groups).groups = s₂.groups :=
    List.length_set
  obtain ⟨added, hadded, hclosed⟩ := hfollows.widths
  refine ⟨⟨some (0, 0) :: added, ?_, ?_⟩, ?_, ?_, ?_, ?_, ?_⟩
  · rw [closegroup, hadded, hwidths, groups, List.append_assoc,
      List.set_append_right _ _ (Nat.le_refl _), Nat.sub_self]
    rfl
  · exact List.forall_mem_cons.mpr ⟨rfl, hclosed⟩
  · intro gid
    have hle := hfollows.groups_le
    have hcloses := hfollows.closes gid
    simp only [List.mem_cons, List.mem_append, reduceCtorEq, false_or,
      List.not_mem_nil, or_false, PatternEvent.closes.injEq]
    rw [hcloses, hlength]
    omega
  · rw [← List.singleton_append]
    refine refsClosed_append.mpr ⟨refsClosed_of_none (by simp), ?_⟩
    refine refsClosed_append.mpr ⟨hfollows.refs.mono ?_, ?_⟩
    · intro gid hgid
      obtain ⟨width, hwidth⟩ := checkgroup_iff.mp hgid
      rw [hwidths] at hwidth
      refine .inl (checkgroup_iff.mpr ⟨width, ?_⟩)
      by_cases hlt : gid < s.groupwidths.length
      · rwa [List.getElem?_append_left hlt] at hwidth
      · rw [List.getElem?_append_right (by omega)] at hwidth
        have hmem := List.mem_of_getElem? hwidth
        simp at hmem
    · exact refsClosed_of_none (by simp)
  · intro gid hgid
    have htests : PatternEvent.tests gid ∈ events := by simpa using hgid
    refine (hfollows.tests gid htests).imp_right fun hknows => ?_
    exact hknows.imp_left fun hlt => hlength ▸ hlt
  · intro gid hgid
    exact hfollows.kept gid (hrefpos ▸ hgid)
  · intro hs
    have hs₂ := hfollows.sound (hsound hs)
    refine ⟨hlength ▸ hs₂.started, fun n gid hlookup => ?_⟩
    rw [hlength]
    exact hs₂.named n gid hlookup

end RegexState

/-- Operations that have been built between two places of a pattern.  Every
plain group pays for one repetition that its parentheses would have kept from
an anchor or from another repetition. -/
structure Building (n : Nat) (start rest : List Char) (s s' : RegexState)
    (ops : SubPattern) : Prop where
  unread : rest <:+ start
  shaped : ∀ op ∈ ops, op.Shaped n
  follows : s.Follows s' (seqEvents ops)
  paid : (seqEvents ops).count .bare + ops.countP isPlain +
    plainGroups rest ≤ plainGroups start

namespace Building

variable {n m : Nat} {start mid rest : List Char} {s s₁ s' : RegexState}
  {ops ops' : SubPattern} {op : OpCode}

theorem nothing (hrest : rest <:+ start) : Building n start rest s s [] where
  unread := hrest
  shaped := nofun
  follows := .idle rfl rfl fun _ hgid => hgid
  paid := by
    have hle := plainGroups_suffix hrest
    simpa [seqEvents] using hle

theorem append (hfirst : Building n start mid s s₁ ops)
    (hsecond : Building n mid rest s₁ s' ops') :
    Building n start rest s s' (ops ++ ops') where
  unread := hsecond.unread.trans hfirst.unread
  shaped := List.forall_mem_append.mpr ⟨hfirst.shaped, hsecond.shaped⟩
  follows := by
    rw [seqEvents_append]
    exact hfirst.follows.trans hsecond.follows
  paid := by
    have hpaid := hfirst.paid
    have hpaid' := hsecond.paid
    rw [seqEvents_append, List.count_append, List.countP_append]
    omega

theorem mono (hbuilding : Building n start rest s s' ops) (hle : n ≤ m) :
    Building m start rest s s' ops :=
  { hbuilding with shaped := fun op hop => (hbuilding.shaped op hop).mono hle }

/-- More of the pattern is read, and the groups stay as they are. -/
theorem skip (hbuilding : Building n start mid s s₁ ops) (hrest : rest <:+ mid)
    (hidle : s₁.Follows s' []) : Building n start rest s s' ops := by
  have hmore : Building n mid rest s₁ s' [] := by
    refine { nothing (s := s₁) hrest with follows := hidle }
  have happend := hbuilding.append hmore
  rwa [List.append_nil] at happend

theorem leaf (hrest : rest <:+ start) (hleaf : LeafOf s op) :
    Building n start rest s s [op] where
  unread := hrest
  shaped := by
    have hshaped : op.Shaped (0 + op.layers) :=
      OpCode.Shaped.nest hleaf.wellFormed (by rw [hleaf.nested]; exact nofun)
    rw [hleaf.flat] at hshaped
    exact List.forall_mem_singleton.mpr (hshaped.mono (Nat.zero_le n))
  follows := by
    rw [seqEvents, seqEvents, List.append_nil]
    rcases hleaf.events with hevents | ⟨gid, hevents, hclosed⟩
    · rw [hevents]
      exact .idle rfl rfl fun _ hgid => hgid
    · rw [hevents]
      exact .refer hclosed
  paid := by
    have hle := plainGroups_suffix hrest
    have hcount : (seqEvents [op]).count .bare = 0 := by
      rw [seqEvents, seqEvents, List.append_nil]
      rcases hleaf.events with hevents | ⟨gid, hevents, -⟩
      · rw [hevents]
        rfl
      · rw [hevents]
        simp
    have hplain : [op].countP isPlain = 0 := by
      simp [hleaf.plain]
    omega

theorem repeated {min max : Nat} {kind : RepeatKind}
    (hbuilding : Building n start mid s s' (ops ++ [op])) (hle : min ≤ max)
    (hposition : ∀ code, op ≠ .position code)
    (hrepeat : isRepeatOpcode op = false) (hrest : rest <:+ mid) :
    Building n start rest s s'
      (ops ++ [.repeated kind min max (repeatedItem op)]) := by
  obtain ⟨hbefore, hop⟩ := List.forall_mem_append.mp hbuilding.shaped
  have hitem := repeatedItem_shaped (List.forall_mem_singleton.mp hop)
  have hwell : (OpCode.repeated kind min max (repeatedItem op)).WellFormed :=
    hle
  have hshaped : (OpCode.repeated kind min max (repeatedItem op)).Shaped n :=
    OpCode.Shaped.nest hwell (List.forall_mem_singleton.mpr hitem)
  have hfollows := hbuilding.follows
  have hpaid := hbuilding.paid
  have hsuffix := plainGroups_suffix hrest
  have hnew : isPlain (.repeated kind min max (repeatedItem op)) = false := rfl
  simp only [seqEvents_append, seqEvents, List.append_nil,
    List.count_append, List.countP_append, List.countP_singleton] at hfollows hpaid
  rcases @repeated_events kind min max op hposition hrepeat with
    hevents | ⟨hplain, hevents⟩
  · refine ⟨hrest.trans hbuilding.unread, ?_, ?_, ?_⟩
    · exact List.forall_mem_append.mpr
        ⟨hbefore, List.forall_mem_singleton.mpr hshaped⟩
    · rw [seqEvents_append, seqEvents, seqEvents, List.append_nil, hevents]
      exact hfollows
    · simp only [seqEvents_append, seqEvents, List.append_nil,
        List.count_append, List.countP_append, List.countP_singleton, hevents,
        hnew, Bool.false_eq_true, if_false]
      omega
  · refine ⟨hrest.trans hbuilding.unread, ?_, ?_, ?_⟩
    · exact List.forall_mem_append.mpr
        ⟨hbefore, List.forall_mem_singleton.mpr hshaped⟩
    · rw [seqEvents_append, seqEvents, seqEvents, List.append_nil, hevents]
      exact hfollows.insertBare
    · rw [if_pos hplain] at hpaid
      simp only [seqEvents_append, seqEvents, List.append_nil,
        List.count_append, List.countP_append, List.countP_singleton, hevents,
        hnew, List.count_cons_self, Bool.false_eq_true, if_false]
      omega

theorem inlined (hbuilding : Building n start rest s s' ops) :
    Building n start rest s s' (inlinePlain ops) := by
  have hunwraps := inlinePlain_unwraps (n := n) ops
  have hplain : (inlinePlain ops).countP isPlain = 0 :=
    List.countP_eq_zero.mpr fun op hop => by
      rw [hunwraps.plain op hop]
      exact Bool.false_ne_true
  refine ⟨hbuilding.unread, hunwraps.shaped hbuilding.shaped, ?_, ?_⟩
  · rw [hunwraps.events]
    exact hbuilding.follows
  · have hpaid := hbuilding.paid
    rw [hunwraps.events, hplain]
    omega

theorem joined {items : List SubPattern}
    (hbuilding : Building n start rest s s' items.flatten)
    (hplain : ∀ item ∈ items, ∀ op ∈ item, isPlain op = false) :
    Building (n + 1) start rest s s' (joinAlternatives items) := by
  have hshaped : ∀ item ∈ items, ∀ op ∈ item, op.Shaped n :=
    fun item hitem op hop =>
      hbuilding.shaped op (List.mem_flatten_of_mem hitem hop)
  have hcondenses := joinAlternatives_condenses
    fun item hitem op hop => (hshaped item hitem op hop).every.here
  rw [branchEvents_eq] at hcondenses
  have hnone : (joinAlternatives items).countP isPlain = 0 :=
    List.countP_eq_zero.mpr fun op hop => by
      rw [joinAlternatives_plain hplain op hop]
      exact Bool.false_ne_true
  refine ⟨hbuilding.unread, joinAlternatives_shaped hshaped,
    hbuilding.follows.condense hcondenses, ?_⟩
  have hpaid := hbuilding.paid
  have hcount := hcondenses.count_le .bare
  omega

/-- An operation that is little more than what it encloses. -/
structure Encloses (p : SubPattern) (op : OpCode) : Prop where
  wellFormed : op.WellFormed
  layers : op.layers ≤ 1
  events : op.events = seqEvents p
  nested : ∀ q ∈ op.nested, ∀ inner ∈ q, inner ∈ p

theorem enclose (hcontent : Building m mid rest s s' ops) (hm : m < n)
    (hmid : mid <:+ start) (hop : Encloses ops op)
    (hpaid : isPlain op = true → plainGroups mid + 1 ≤ plainGroups start) :
    Building n start rest s s' [op] := by
  have hshaped : op.Shaped (m + op.layers) :=
    OpCode.Shaped.nest hop.wellFormed fun q hq inner hinner =>
      hcontent.shaped inner (hop.nested q hq inner hinner)
  have hle : m + op.layers ≤ n := by
    have hlayers := hop.layers
    omega
  refine ⟨hcontent.unread.trans hmid, ?_, ?_, ?_⟩
  · exact List.forall_mem_singleton.mpr (hshaped.mono hle)
  · rw [seqEvents, seqEvents, List.append_nil, hop.events]
    exact hcontent.follows
  · have hcount := hcontent.paid
    have hsuffix := plainGroups_suffix hmid
    rw [seqEvents, seqEvents, List.append_nil, hop.events,
      List.countP_singleton]
    split
    case isTrue hplain =>
        have hopen := hpaid hplain
        omega
    case isFalse => omega

theorem capture {addFlags delFlags : Nat}
    (hwidths : s₁.groupwidths = s.groupwidths ++ [none])
    (hrefpos : s₁.grouprefpos = s.grouprefpos)
    (hsound : s.Sound → s₁.Sound) (hcontent : Building m mid rest s₁ s' ops)
    (hm : m < n) (hmid : mid <:+ start) :
    Building n start rest s (s'.closegroup s.groups)
      [.subpattern (some s.groups) addFlags delFlags ops] := by
  have hwell : (OpCode.subpattern (some s.groups) addFlags delFlags
      ops).WellFormed := trivial
  have hshaped : (OpCode.subpattern (some s.groups) addFlags delFlags
      ops).Shaped (m + 1) :=
    OpCode.Shaped.nest hwell (List.forall_mem_singleton.mpr hcontent.shaped)
  have hevents : seqEvents [.subpattern (some s.groups) addFlags delFlags ops] =
      .opens s.groups :: (seqEvents ops ++ [.closes s.groups]) := by
    rw [seqEvents, seqEvents, OpCode.events, List.append_nil]
  refine ⟨hcontent.unread.trans hmid, ?_, ?_, ?_⟩
  · exact List.forall_mem_singleton.mpr (hshaped.mono hm)
  · rw [hevents]
    exact RegexState.follows_group hwidths hrefpos hsound hcontent.follows
  · have hcount := hcontent.paid
    have hsuffix := plainGroups_suffix hmid
    have hbares : (PatternEvent.opens s.groups ::
        (seqEvents ops ++ [.closes s.groups])).count .bare =
        (seqEvents ops).count .bare := by
      simp
    have hplain : isPlain (.subpattern (some s.groups) addFlags delFlags ops) =
        false := rfl
    rw [hevents, hbares, List.countP_singleton, hplain]
    simp only [Bool.false_eq_true, if_false]
    omega

theorem condition {gid k : Nat} {s₂ : RegexState} {mid' : List Char}
    {yes : SubPattern} {no : Option SubPattern} (hidle : s.Follows s₁ [])
    (hpos : 0 < gid) (hknows : s₁.Knows gid)
    (hyes : Building m mid mid' s₁ s₂ yes)
    (hno : Building k mid' rest s₂ s' (no.getD [])) (hm : m < n) (hk : k < n)
    (hmid : mid <:+ start) :
    Building n start rest s s' [.groupRefExists gid yes no] := by
  have hboth := (hyes.mono (Nat.le_max_left m k)).append
    (hno.mono (Nat.le_max_right m k))
  have hinner : ∀ q ∈ (OpCode.groupRefExists gid yes no).nested,
      ∀ inner ∈ q, inner ∈ yes ++ no.getD [] := by
    refine List.forall_mem_cons.mpr ⟨fun inner => List.mem_append_left _, ?_⟩
    intro q hq inner hinner
    rw [Option.mem_toList.mp hq]
    exact List.mem_append_right _ hinner
  have hwell : (OpCode.groupRefExists gid yes no).WellFormed := trivial
  have hshaped : (OpCode.groupRefExists gid yes no).Shaped (max m k + 1) :=
    OpCode.Shaped.nest hwell fun q hq inner hin =>
      hboth.shaped inner (hinner q hq inner hin)
  have hevents : seqEvents [.groupRefExists gid yes no] =
      .tests gid :: seqEvents (yes ++ no.getD []) := by
    rw [seqEvents, seqEvents, OpCode.events, List.append_nil,
      seqEvents_append]
    cases no <;> rfl
  refine ⟨hboth.unread.trans hmid, ?_, ?_, ?_⟩
  · refine List.forall_mem_singleton.mpr (hshaped.mono ?_)
    omega
  · rw [hevents]
    exact (hidle.trans (.test hpos hknows)).trans hboth.follows
  · have hcount := hboth.paid
    have hsuffix := plainGroups_suffix hmid
    have hplain : isPlain (.groupRefExists gid yes no) = false := rfl
    rw [hevents, List.count_cons_of_ne (by simp), List.countP_singleton, hplain]
    simp only [Bool.false_eq_true, if_false]
    omega

end Building

/-- The outcome of a level: nested less deep than so much, without plain groups
and up to one of some characters or the end. -/
structure Parsed (n : Nat) (ends rest rest' : List Char) (s s' : RegexState)
    (p : SubPattern) : Prop where
  built : ∃ m < n, Building m rest rest' s s' p
  plain : ∀ op ∈ p, isPlain op = false
  ends : ∀ c, rest'.head? = some c → c ∈ ends

def FitsSub (pattern : List Char) (rounds n : Nat)
    (parseSub : Bool → Parsing SubPattern) : Prop :=
  ∀ verbose rest s, rest.length < rounds → s.Sound →
    Reads pattern (parseSub verbose) rest s fun p rest' s' =>
      Parsed n [')'] rest rest' s s' p

def FitsSeq (pattern : List Char) (rounds n : Nat)
    (parse : Bool → Bool → Parsing SubPattern) : Prop :=
  ∀ verbose first rest s, rest.length < rounds → s.Sound →
    Reads pattern (parse verbose first) rest s fun p rest' s' =>
      Parsed n [')', '|'] rest rest' s s' p

section Groups

variable {Value : Type} {pattern start rest : List Char} {s : RegexState}
  {names : NameClasses} {rounds n : Nat} {below : Level}

theorem sound_of_opened {s₁ : RegexState}
    (hwidths : s₁.groupwidths = s.groupwidths ++ [none])
    (hnamed : ∀ n gid, s₁.groupdict.lookup n = some gid →
      s.groupdict.lookup n = some gid ∨ gid = s.groups)
    (hsound : s.Sound) : s₁.Sound := by
  have hgroups : s₁.groups = s.groups + 1 := by
    rw [RegexState.groups, hwidths, List.length_append]
    rfl
  have hstarted := hsound.started
  refine ⟨by omega, fun n gid hlookup => ?_⟩
  rcases hnamed n gid hlookup with hbefore | hnew
  · have hbounds := hsound.named n gid hbefore
    omega
  · omega

theorem reads_opengroup {name : Option (List Char)}
    {good : Nat → List Char → RegexState → Prop}
    (hgood : ∀ s₁ : RegexState, s₁.groupwidths = s.groupwidths ++ [none] →
      s₁.grouprefpos = s.grouprefpos → (s.Sound → s₁.Sound) →
      good s.groups rest s₁) :
    Reads pattern (opengroup name) rest s good := by
  refine reads_bind (reads_getState (reads_bind (reads_modifyState ?_)))
  split
  case isTrue => exact reads_refused
  case isFalse =>
      cases name with
      | none =>
          refine reads_pure (hgood _ rfl rfl ?_)
          exact sound_of_opened rfl fun n gid hlookup => .inl hlookup
      | some name =>
          dsimp only
          split
          next => exact reads_refused
          next =>
              refine reads_bind (reads_modifyState (reads_pure ?_))
              refine hgood _ rfl rfl (sound_of_opened rfl ?_)
              intro n gid hlookup
              by_cases hsame : n = name
              · subst hsame
                rw [AList.lookup_insert] at hlookup
                exact .inr (Option.some.inj hlookup).symm
              · rw [AList.lookup_insert_ne hsame] at hlookup
                exact .inl hlookup

theorem reads_missingParen {good : Value → List Char → RegexState → Prop}
    {here : Nat} : Reads pattern (missingParen here) rest s good :=
  reads_bind (reads_since fun _ => reads_error)

/-- A closing parenthesis, or the pattern is refused. -/
theorem reads_closeParen {here : Nat} {next : Parsing Value}
    {good : Value → List Char → RegexState → Prop}
    (hnext : ∀ rest', rest = ')' :: rest' →
      Reads pattern next rest' s good) :
    Reads pattern (takeMatch ')' >>= fun closed =>
      if !closed then missingParen here else next) rest s good := by
  refine reads_bind (reads_takeMatch (by decide) ?_ ?_)
  · intro rest' hrest
    exact hnext rest' hrest
  · intro _
    exact reads_missingParen

/-- Openings of groups that a parser makes. -/
structure GroupOpening.Proper (g : GroupOpening) (start rest : List Char) :
    Prop where
  atomic : g.atomic = true → g.capture = false
  paid : g.capture = false → g.atomic = false → g.addFlags = 0 →
    g.delFlags = 0 → plainGroups rest + 1 ≤ plainGroups start

theorem reads_groupBody {here : Nat} {verbose : Bool} {g : GroupOpening}
    {good : OpCode → List Char → RegexState → Prop}
    (hbelow : FitsSub pattern rounds n below.parseSub)
    (hrounds : rest.length < rounds) (hsound : s.Sound)
    (hstart : rest <:+ start) (hg : g.Proper start rest)
    (hgood : ∀ op rest' s', Building n start rest' s s' [op] →
      rest' <:+ rest → good op rest' s') :
    Reads pattern (groupBody below here verbose g) rest s good := by
  rw [groupBody, enterGroup]
  cases hcapture : g.capture with
  | true =>
      rw [if_pos rfl]
      refine reads_bind (reads_bind (reads_opengroup fun s₁ hwidths hrefpos
        hsound₁ => reads_pure ?_))
      refine reads_bind ((hbelow _ rest s₁ hrounds (hsound₁ hsound)).mono ?_)
      rintro p rest₁ s₂ ⟨⟨m, hm, hbuilt⟩, -, -⟩
      refine reads_closeParen fun rest₂ hrest₁ => ?_
      have hrest₂ : rest₂ <:+ rest₁ := hrest₁ ▸ List.suffix_cons _ _
      refine reads_bind (reads_modifyState ?_)
      have hatomic : g.atomic = false := by
        cases hatomic : g.atomic with
        | false => rfl
        | true => exact absurd (hg.atomic hatomic) (by rw [hcapture]; nofun)
      rw [hatomic, if_neg Bool.false_ne_true]
      refine reads_pure (hgood _ rest₂ _ ?_ (hrest₂.trans hbuilt.unread))
      have hcontent := hbuilt.skip hrest₂ (.idle rfl rfl fun _ hgid => hgid)
      exact hcontent.capture hwidths hrefpos hsound₁ hm hstart
  | false =>
      rw [if_neg Bool.false_ne_true]
      refine reads_bind (reads_pure ?_)
      refine reads_bind ((hbelow _ rest s hrounds hsound).mono ?_)
      rintro p rest₁ s₂ ⟨⟨m, hm, hbuilt⟩, -, -⟩
      refine reads_closeParen fun rest₂ hrest₁ => ?_
      have hrest₂ : rest₂ <:+ rest₁ := hrest₁ ▸ List.suffix_cons _ _
      have hcontent := hbuilt.skip hrest₂ (.idle rfl rfl fun _ hgid => hgid)
      have hread := hrest₂.trans hbuilt.unread
      have hsame : ∀ q ∈ [p], ∀ inner ∈ q, inner ∈ p :=
        List.forall_mem_singleton.mpr fun _ hinner => hinner
      refine reads_bind (reads_pure ?_)
      cases hatomic : g.atomic with
      | true =>
          rw [if_pos rfl]
          refine reads_pure (hgood _ rest₂ s₂ ?_ hread)
          exact hcontent.enclose hm hstart
            ⟨trivial, Nat.le_refl 1, rfl, hsame⟩ nofun
      | false =>
          rw [if_neg Bool.false_ne_true]
          refine reads_pure (hgood _ rest₂ s₂ ?_ hread)
          refine hcontent.enclose hm hstart
            ⟨trivial, Nat.le_refl 1, rfl, hsame⟩ fun hplain => ?_
          obtain ⟨q, hq⟩ := isPlain_eq_true hplain
          simp only [OpCode.subpattern.injEq, true_and] at hq
          exact hg.paid hcapture hatomic hq.1 hq.2.1

theorem reads_checkgroupname {name : List Char} {offset : Nat}
    {good : Unit → List Char → RegexState → Prop} (hgood : good () rest s) :
    Reads pattern (checkgroupname names name offset) rest s good := by
  rw [checkgroupname]
  split
  case isTrue => exact reads_pure hgood
  case isFalse => exact reads_error

theorem reads_namedReference {good : OpCode → List Char → RegexState → Prop}
    (hrounds : rest.length < rounds)
    (hgood : ∀ op rest', LeafOf s op → rest' <:+ rest → good op rest' s) :
    Reads pattern (namedReference names rounds) rest s good := by
  refine reads_bind (reads_getuntilFrom hrounds fun n rest₁ hrest₁ => ?_)
  refine reads_bind (reads_checkgroupname (reads_bind (reads_getState ?_)))
  split
  next => exact reads_error
  next gid _ =>
      split
      case isTrue => exact reads_error
      case isFalse hclosed =>
          rw [Bool.not_eq_true, Bool.not_eq_false'] at hclosed
          refine reads_bind (reads_checklookbehindgroup (reads_pure ?_))
          exact hgood _ rest₁ (leafOf_groupRef hclosed) hrest₁

theorem reads_unknownPExtension
    {good : Value → List Char → RegexState → Prop} :
    Reads pattern unknownPExtension rest s good := by
  refine reads_bind (reads_get (fun _ => reads_error) ?_)
  rintro ch rest₁ - -
  exact reads_error

theorem reads_assertion {here : Nat} {direction : Int} {marker : PatternToken}
    {p : SubPattern} {good : OpCode → List Char → RegexState → Prop}
    (hgood : ∀ op rest', Building.Encloses p op → isPlain op = false →
      rest = ')' :: rest' → good op rest' s) :
    Reads pattern (assertion here direction marker p) rest s good := by
  have hsame : ∀ q ∈ [p], ∀ inner ∈ q, inner ∈ p :=
    List.forall_mem_singleton.mpr fun _ hinner => hinner
  refine reads_closeParen fun rest₁ hrest => ?_
  split
  case isTrue =>
      refine reads_pure (hgood _ rest₁ ?_ rfl hrest)
      exact ⟨trivial, Nat.le_refl 1, rfl, hsame⟩
  case isFalse =>
      cases p with
      | nil =>
          refine reads_pure (hgood _ rest₁ ?_ rfl hrest)
          exact ⟨trivial, Nat.zero_le 1, rfl, nofun⟩
      | cons op p =>
          refine reads_pure (hgood _ rest₁ ?_ rfl hrest)
          exact ⟨trivial, Nat.le_refl 1, rfl, hsame⟩

theorem reads_lookahead {here : Nat} {verbose : Bool} {marker : PatternToken}
    {good : OpCode → List Char → RegexState → Prop}
    (hbelow : FitsSub pattern rounds n below.parseSub)
    (hrounds : rest.length < rounds) (hsound : s.Sound)
    (hstart : rest <:+ start)
    (hgood : ∀ op rest' s', Building n start rest' s s' [op] →
      rest' <:+ rest → good op rest' s') :
    Reads pattern (lookahead below here verbose marker) rest s good := by
  refine reads_bind ((hbelow verbose rest s hrounds hsound).mono ?_)
  rintro p rest₁ s₁ ⟨⟨m, hm, hbuilt⟩, -, -⟩
  refine reads_assertion fun op rest₂ hop hplain hrest₁ => ?_
  have hrest₂ : rest₂ <:+ rest₁ := hrest₁ ▸ List.suffix_cons _ _
  refine hgood op rest₂ s₁ ?_ (hrest₂.trans hbuilt.unread)
  have hcontent := hbuilt.skip hrest₂ (.idle rfl rfl fun _ hgid => hgid)
  exact hcontent.enclose hm hstart hop (by rw [hplain]; nofun)

theorem reads_lookbehind {here : Nat} {verbose : Bool}
    {good : OpCode → List Char → RegexState → Prop}
    (hbelow : FitsSub pattern rounds n below.parseSub)
    (hrounds : rest.length < rounds) (hsound : s.Sound)
    (hstart : rest <:+ start)
    (hgood : ∀ op rest' s', Building n start rest' s s' [op] →
      rest' <:+ rest → good op rest' s') :
    Reads pattern (lookbehind below here verbose) rest s good := by
  refine reads_bind (reads_get (fun _ => reads_error) ?_)
  rintro lookch rest₁ - rfl
  have hsuffix := List.suffix_append lookch rest₁
  have hle := hsuffix.length_le
  dsimp only
  split
  case isTrue => exact reads_error
  case isFalse =>
      refine reads_bind (reads_getState (reads_bind (reads_modifyState ?_)))
      have hentered : RegexState.Sound { s with
          lookbehindgroups := some (s.lookbehindgroups.getD s.groups) } :=
        ⟨hsound.started, hsound.named⟩
      refine reads_bind ((hbelow verbose rest₁ _ (by omega) hentered).mono ?_)
      rintro p rest₂ s₂ ⟨⟨m, hm, hbuilt⟩, -, -⟩
      refine reads_bind (reads_modifyState ?_)
      refine reads_assertion fun op rest₃ hop hplain hrest₂ => ?_
      have hrest₃ : rest₃ <:+ rest₂ := hrest₂ ▸ List.suffix_cons _ _
      refine hgood op rest₃ _ ?_ ((hrest₃.trans hbuilt.unread).trans hsuffix)
      have hentering : s.Follows { s with
          lookbehindgroups := some (s.lookbehindgroups.getD s.groups) } [] :=
        .idle rfl rfl fun gid hgid => hgid
      have hinside : Building m rest₁ rest₂ s s₂ p :=
        ⟨hbuilt.unread, hbuilt.shaped, hentering.trans hbuilt.follows,
          hbuilt.paid⟩
      refine Building.enclose (hinside.skip hrest₃ ?_) hm
        (hsuffix.trans hstart) hop (by rw [hplain]; nofun)
      exact .idle rfl rfl fun _ hgid => hgid

theorem reads_namedCondition {condname : List Char}
    {good : Nat → List Char → RegexState → Prop} (hsound : s.Sound)
    (hgood : ∀ gid, 0 < gid → s.Knows gid → good gid rest s) :
    Reads pattern (namedCondition names condname) rest s good := by
  refine reads_bind (reads_checkgroupname (reads_bind (reads_getState ?_)))
  split
  next => exact reads_error
  next gid hlookup =>
      obtain ⟨hpos, hlt⟩ := hsound.named condname gid hlookup
      exact reads_pure (hgood gid hpos (.inl hlt))

theorem reads_numberedCondition {condname : List Char}
    {good : Nat → List Char → RegexState → Prop}
    (hgood : ∀ gid s₁, 0 < gid → s₁.Knows gid → s.Follows s₁ [] →
      good gid rest s₁) :
    Reads pattern (numberedCondition condname) rest s good := by
  rw [numberedCondition]
  split
  next => exact reads_error
  next gid _ =>
      split_ifs with hzero hlarge
      · exact reads_error
      · exact reads_error
      · refine reads_bind (reads_tell fun here _ _ => ?_)
        refine reads_bind (reads_modifyState (reads_pure ?_))
        refine hgood gid _ (Nat.pos_of_ne_zero hzero) ?_ ?_
        · split
          case isTrue hmem => exact .inr hmem
          case isFalse => exact .inr ((AList.mem_insert _).mpr (.inl rfl))
        · split
          case isTrue => exact .idle rfl rfl fun _ hgid => hgid
          case isFalse =>
              exact .idle rfl rfl fun _ hgid => (AList.mem_insert _).mpr (.inr hgid)

theorem reads_otherBranch {verbose : Bool}
    {good : Option SubPattern → List Char → RegexState → Prop}
    (hbelow : FitsSeq pattern rounds n below.parse)
    (hrounds : rest.length < rounds) (hsound : s.Sound) (hn : 0 < n)
    (hgood : ∀ no rest' s', (∃ m < n, Building m rest rest' s s' (no.getD [])) →
      good no rest' s') :
    Reads pattern (otherBranch below verbose) rest s good := by
  refine reads_bind (reads_takeMatch (by decide) ?_ ?_)
  · rintro rest₁ rfl
    have hsuffix := List.suffix_cons '|' rest₁
    have hle := hsuffix.length_le
    refine reads_bind ((hbelow verbose false rest₁ s (by omega) hsound).mono ?_)
    rintro p rest₂ s₁ ⟨⟨m, hm, hbuilt⟩, -, -⟩
    refine reads_bind (reads_peekNextChar ?_)
    split
    case isTrue => exact reads_error
    case isFalse =>
        refine reads_pure (hgood (some p) rest₂ s₁ ⟨m, hm, ?_⟩)
        exact (Building.nothing hsuffix).append hbuilt
  · intro _
    exact reads_pure
      (hgood none rest s ⟨0, hn, .nothing (List.suffix_refl rest)⟩)

theorem reads_conditional {here : Nat} {verbose : Bool}
    {good : OpCode → List Char → RegexState → Prop}
    (hbelow : FitsSeq pattern rounds n below.parse)
    (hrounds : rest.length < rounds) (hsound : s.Sound)
    (hstart : rest <:+ start)
    (hgood : ∀ op rest' s', Building n start rest' s s' [op] →
      rest' <:+ rest → good op rest' s') :
    Reads pattern (conditional names rounds below here verbose) rest s
      good := by
  have hbranches : ∀ (gid : Nat) (rest₁ : List Char) (s₁ : RegexState),
      rest₁ <:+ rest → 0 < gid → s₁.Knows gid → s.Follows s₁ [] →
      Reads pattern (do
        checklookbehindgroup gid
        let yes ← below.parse verbose false
        let no ← otherBranch below verbose
        let closed ← takeMatch ')'
        if !closed then missingParen here
        else pure (.groupRefExists gid yes no)) rest₁ s₁ good := by
    intro gid rest₁ s₁ hrest₁ hpos hknows hidle
    have hle := hrest₁.length_le
    refine reads_bind (reads_checklookbehindgroup ?_)
    refine reads_bind ((hbelow verbose false rest₁ s₁ (by omega)
      (hidle.sound hsound)).mono ?_)
    rintro yes rest₂ s₂ ⟨⟨m, hm, hyes⟩, -, -⟩
    have hle' := hyes.unread.length_le
    refine reads_bind (reads_otherBranch hbelow (by omega)
      (hyes.follows.sound (hidle.sound hsound)) (by omega) ?_)
    rintro no rest₃ s₃ ⟨k, hk, hno⟩
    refine reads_closeParen fun rest₄ hrest₃ => reads_pure ?_
    have hrest₄ : rest₄ <:+ rest₃ := hrest₃ ▸ List.suffix_cons _ _
    have hno' := hno.skip hrest₄ (.idle rfl rfl fun _ hgid => hgid)
    refine hgood _ rest₄ s₃ ?_ ?_
    · exact Building.condition hidle hpos hknows hyes hno' hm hk
        (hrest₁.trans hstart)
    · exact ((hrest₄.trans hno.unread).trans hyes.unread).trans hrest₁
  refine reads_bind (reads_getuntilFrom hrounds fun condname rest₁ hrest₁ => ?_)
  split
  case isTrue =>
      refine reads_bind (reads_namedCondition hsound fun gid hpos hknows => ?_)
      exact hbranches gid rest₁ s hrest₁ hpos hknows
        (.idle rfl rfl fun _ hgid => hgid)
  case isFalse =>
      refine reads_bind (reads_numberedCondition
        fun gid s₁ hpos hknows hidle => ?_)
      exact hbranches gid rest₁ s₁ hrest₁ hpos hknows hidle

theorem reads_parenComment {here : Nat}
    {good : Unit → List Char → RegexState → Prop} (hrounds : rest.length < rounds)
    (hgood : ∀ rest', rest' <:+ rest → good () rest' s) :
    Reads pattern (parenComment here rounds) rest s good := by
  induction rounds generalizing rest with
  | zero => exact absurd hrounds (Nat.not_lt_zero _)
  | succ rounds ih =>
      refine reads_bind (reads_nextToken ?_ ?_)
      · intro _
        rw [if_pos rfl]
        exact reads_bind (reads_since fun _ => reads_error)
      · rintro token rest₁ htoken rfl
        rw [if_neg nofun]
        refine reads_bind (reads_get (fun hnil => ?_) ?_)
        · have hpos := htoken.length_pos
          rw [List.append_eq_nil_iff.mp hnil |>.1] at hpos
          cases hpos
        · intro got rest₂ hgot hrest₂
          have hsuffix : rest₂ <:+ token ++ rest₁ :=
            hrest₂ ▸ List.suffix_append got rest₂
          split
          case isTrue => exact reads_pure (hgood rest₂ hsuffix)
          case isFalse =>
              have hpos := hgot.length_pos
              rw [hrest₂, List.length_append] at hrounds
              refine ih (by omega) fun rest' hrest' => ?_
              exact hgood rest' (hrest'.trans hsuffix)

theorem reads_lineComment {good : Unit → List Char → RegexState → Prop}
    (hrounds : rest.length < rounds)
    (hgood : ∀ rest', rest' <:+ rest → good () rest' s) :
    Reads pattern (lineComment rounds) rest s good := by
  induction rounds generalizing rest with
  | zero => exact absurd hrounds (Nat.not_lt_zero _)
  | succ rounds ih =>
      refine reads_bind (reads_get ?_ ?_)
      · rintro rfl
        rw [if_pos (.inl rfl)]
        exact reads_pure (hgood [] (List.suffix_refl _))
      · rintro token rest₁ htoken rfl
        have hsuffix := List.suffix_append token rest₁
        split
        case isTrue => exact reads_pure (hgood rest₁ hsuffix)
        case isFalse =>
            have hpos := htoken.length_pos
            rw [List.length_append] at hrounds
            refine ih (by omega) fun rest' hrest' => ?_
            exact hgood rest' (hrest'.trans hsuffix)

end Groups

end Hegel
