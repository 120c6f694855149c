/-
The shape of syntax trees: what single operations must be, how deep groups and
alternatives are nested, and what is met when a tree is read from left to
right.  What alternatives share is met once less when it is moved in front.
-/
import Hegel.RegexParser
import Mathlib.Data.Set.Basic
import Mathlib.Logic.Relation

namespace Hegel

/-- The number of a character. -/
def IsScalar (cp : Nat) : Prop :=
  ∃ c : Char, cp = c.toNat

def SetItem.WellFormed : SetItem → Prop
  | .literal cp => IsScalar cp
  | .negate => True
  | .range lo hi => IsScalar lo ∧ IsScalar hi ∧ lo ≤ hi
  | .category _ => True

/-- A set names something, and is negated at most in front. -/
structure WellFormedSet (items : List SetItem) : Prop where
  each : ∀ item ∈ items, item.WellFormed
  names : ∃ item ∈ items, item ≠ .negate
  once : .negate ∉ items.tail

def OpCode.WellFormed : OpCode → Prop
  | .literal cp => IsScalar cp
  | .notLiteral cp => IsScalar cp
  | .inSet items => WellFormedSet items
  | .repeated _ min max _ => min ≤ max
  | _ => True

/-- Whether an operation nests what is in it one level deeper. -/
def OpCode.layers : OpCode → Nat
  | .branch _ => 1
  | .subpattern _ _ _ _ => 1
  | .groupRefExists _ _ _ => 1
  | .assert _ _ => 1
  | .assertNot _ _ => 1
  | .atomicGroup _ => 1
  | _ => 0

/-- Whether a repetition is directly of an anchor or of a repetition. -/
def isBare : SubPattern → Bool
  | [.position _] => true
  | [.repeated _ _ _ _] => true
  | _ => false

/-- What is met on the way through a tree. -/
inductive PatternEvent where
  | opens (gid : Nat)
  | closes (gid : Nat)
  | refers (gid : Nat)
  | tests (gid : Nat)
  | bare
deriving DecidableEq

mutual

/-- How deep groups and alternatives are nested. -/
def OpCode.depth (op : OpCode) : Nat :=
  match op with
  | .branch items => branchDepth items + 1
  | .subpattern _ _ _ p => seqDepth p + 1
  | .groupRefExists _ yes no => max (seqDepth yes) (optionDepth no) + 1
  | .assert _ p => seqDepth p + 1
  | .assertNot _ p => seqDepth p + 1
  | .atomicGroup p => seqDepth p + 1
  | .repeated _ _ _ item => seqDepth item
  | _ => 0
termination_by structural op

def seqDepth (p : List OpCode) : Nat :=
  match p with
  | [] => 0
  | op :: rest => max op.depth (seqDepth rest)
termination_by structural p

def branchDepth (items : List (List OpCode)) : Nat :=
  match items with
  | [] => 0
  | p :: rest => max (seqDepth p) (branchDepth rest)
termination_by structural items

def optionDepth (no : Option (List OpCode)) : Nat :=
  match no with
  | none => 0
  | some p => seqDepth p
termination_by structural no

end

mutual

/-- What is met in an operation, from left to right. -/
def OpCode.events (op : OpCode) : List PatternEvent :=
  match op with
  | .branch items => branchEvents items
  | .subpattern none _ _ p => seqEvents p
  | .subpattern (some gid) _ _ p =>
      .opens gid :: (seqEvents p ++ [.closes gid])
  | .groupRef gid => [.refers gid]
  | .groupRefExists condGroup yes no =>
      .tests condGroup :: (seqEvents yes ++ optionEvents no)
  | .assert _ p => seqEvents p
  | .assertNot _ p => seqEvents p
  | .atomicGroup p => seqEvents p
  | .repeated _ _ _ item =>
      if isBare item then .bare :: seqEvents item else seqEvents item
  | _ => []
termination_by structural op

def seqEvents (p : List OpCode) : List PatternEvent :=
  match p with
  | [] => []
  | op :: rest => op.events ++ seqEvents rest
termination_by structural p

def branchEvents (items : List (List OpCode)) : List PatternEvent :=
  match items with
  | [] => []
  | p :: rest => seqEvents p ++ branchEvents rest
termination_by structural items

def optionEvents (no : Option (List OpCode)) : List PatternEvent :=
  match no with
  | none => []
  | some p => seqEvents p
termination_by structural no

end

theorem seqEvents_append (p q : List OpCode) :
    seqEvents (p ++ q) = seqEvents p ++ seqEvents q := by
  induction p with
  | nil => rfl
  | cons op p ih =>
      rw [List.cons_append, seqEvents, ih, seqEvents, List.append_assoc]

theorem branchEvents_eq (items : List SubPattern) :
    branchEvents items = seqEvents items.flatten := by
  induction items with
  | nil => rfl
  | cons p items ih =>
      rw [branchEvents, ih, List.flatten_cons, seqEvents_append]

theorem seqDepth_le_iff {p : List OpCode} {n : Nat} :
    seqDepth p ≤ n ↔ ∀ op ∈ p, op.depth ≤ n := by
  induction p with
  | nil => simp [seqDepth]
  | cons op p ih => rw [seqDepth, Nat.max_le, ih, List.forall_mem_cons]

theorem branchDepth_le_iff {items : List SubPattern} {n : Nat} :
    branchDepth items ≤ n ↔ ∀ p ∈ items, ∀ op ∈ p, op.depth ≤ n := by
  induction items with
  | nil => simp [branchDepth]
  | cons p items ih =>
      rw [branchDepth, Nat.max_le, ih, seqDepth_le_iff, List.forall_mem_cons]

theorem optionDepth_le_iff {no : Option SubPattern} {n : Nat} :
    optionDepth no ≤ n ↔ ∀ p ∈ no.toList, ∀ op ∈ p, op.depth ≤ n := by
  cases no with
  | none => simp [optionDepth]
  | some p =>
      rw [optionDepth, seqDepth_le_iff]
      simp

theorem OpCode.depth_le_iff {op : OpCode} {n : Nat} :
    op.depth ≤ n + op.layers ↔
      ∀ p ∈ op.nested, ∀ inner ∈ p, inner.depth ≤ n := by
  cases op with
  | branch items =>
      rw [OpCode.depth, OpCode.layers, Nat.add_le_add_iff_right,
        branchDepth_le_iff, OpCode.nested]
  | groupRefExists condGroup yes no =>
      rw [OpCode.depth, OpCode.layers, Nat.add_le_add_iff_right, Nat.max_le,
        seqDepth_le_iff, optionDepth_le_iff, OpCode.nested,
        List.forall_mem_cons]
  | repeated kind min max item =>
      change seqDepth item ≤ n ↔ _
      rw [seqDepth_le_iff, OpCode.nested, List.forall_mem_singleton]
  | subpattern group addFlags delFlags p =>
      rw [OpCode.depth, OpCode.layers, Nat.add_le_add_iff_right,
        seqDepth_le_iff, OpCode.nested, List.forall_mem_singleton]
  | assert direction p =>
      rw [OpCode.depth, OpCode.layers, Nat.add_le_add_iff_right,
        seqDepth_le_iff, OpCode.nested, List.forall_mem_singleton]
  | assertNot direction p =>
      rw [OpCode.depth, OpCode.layers, Nat.add_le_add_iff_right,
        seqDepth_le_iff, OpCode.nested, List.forall_mem_singleton]
  | atomicGroup p =>
      rw [OpCode.depth, OpCode.layers, Nat.add_le_add_iff_right,
        seqDepth_le_iff, OpCode.nested, List.forall_mem_singleton]
  | _ => simp [OpCode.depth, OpCode.nested]

/-- Well-formed throughout and nested at most so deep. -/
structure OpCode.Shaped (n : Nat) (op : OpCode) : Prop where
  every : op.Every OpCode.WellFormed
  depth : op.depth ≤ n

namespace OpCode.Shaped

variable {n m : Nat} {op : OpCode}

theorem mono (hshaped : op.Shaped n) (hle : n ≤ m) : op.Shaped m :=
  ⟨hshaped.every, hshaped.depth.trans hle⟩

theorem nest (hop : op.WellFormed)
    (hnested : ∀ p ∈ op.nested, ∀ inner ∈ p, inner.Shaped n) :
    op.Shaped (n + op.layers) where
  every := .intro hop fun p hp inner hinner => (hnested p hp inner hinner).every
  depth := OpCode.depth_le_iff.mpr fun p hp inner hinner =>
    (hnested p hp inner hinner).depth

theorem inside (hshaped : op.Shaped n) :
    ∀ p ∈ op.nested, ∀ inner ∈ p, inner.Shaped n := by
  intro p hp inner hinner
  refine ⟨hshaped.every.inside p hp inner hinner, ?_⟩
  have hdepth : op.depth ≤ n + op.layers :=
    hshaped.depth.trans (Nat.le_add_right n _)
  exact OpCode.depth_le_iff.mp hdepth p hp inner hinner

end OpCode.Shaped

/-- Every reference comes after the end of its group, unless that had been
closed before. -/
def RefsClosed (closed : Set Nat) (events : List PatternEvent) : Prop :=
  ∀ before gid after, events = before ++ .refers gid :: after →
    gid ∈ closed ∨ .closes gid ∈ before

/-- A block that was met before is left out where it is met again. -/
inductive Drops : List PatternEvent → List PatternEvent → Prop where
  | again (before block between after : List PatternEvent) :
      Drops (before ++ (block ++ (between ++ (block ++ after))))
        (before ++ (block ++ (between ++ after)))

abbrev Condenses : List PatternEvent → List PatternEvent → Prop :=
  Relation.ReflTransGen Drops

section Events

variable {closed : Set Nat} {events events' : List PatternEvent}

theorem refsClosed_append {later : List PatternEvent} :
    RefsClosed closed (events ++ later) ↔ RefsClosed closed events ∧
      RefsClosed {gid | gid ∈ closed ∨ .closes gid ∈ events} later := by
  constructor
  · intro hrefs
    constructor
    · rintro before gid after rfl
      exact hrefs before gid (after ++ later) (by simp)
    · rintro before gid after rfl
      have hclosed := hrefs (events ++ before) gid after (by simp)
      rw [List.mem_append] at hclosed
      exact or_assoc.mpr hclosed
  · rintro ⟨hevents, hlater⟩ before gid after heq
    rcases List.append_eq_append_iff.mp heq with
      ⟨between, hbefore, hrest⟩ | ⟨between, hrest, hafter⟩
    · subst hbefore
      rw [List.mem_append]
      exact or_assoc.mp (hlater between gid after hrest)
    · cases between with
      | nil =>
          rw [List.append_nil] at hrest
          subst hrest
          have hclosed := hlater [] gid after hafter.symm
          exact hclosed.resolve_right nofun
      | cons event between =>
          rw [List.cons_append] at hafter
          obtain ⟨rfl, -⟩ := List.cons.inj hafter
          exact hevents before gid between hrest

theorem RefsClosed.mono {closed' : Set Nat} (hrefs : RefsClosed closed events)
    (hsub : closed ⊆ closed') : RefsClosed closed' events :=
  fun before gid after heq =>
    (hrefs before gid after heq).imp_left fun hgid => hsub hgid

theorem refsClosed_of_none (hnone : ∀ gid, .refers gid ∉ events) :
    RefsClosed closed events := by
  rintro before gid after rfl
  exact absurd (List.mem_append_right _ List.mem_cons_self) (hnone gid)

theorem Drops.mem_iff (hdrops : Drops events events') (event : PatternEvent) :
    event ∈ events' ↔ event ∈ events := by
  cases hdrops with
  | again before block between after =>
      simp only [List.mem_append]
      tauto

theorem Drops.count_le (hdrops : Drops events events') (event : PatternEvent) :
    events'.count event ≤ events.count event := by
  cases hdrops with
  | again before block between after =>
      simp only [List.count_append]
      omega

theorem Drops.refsClosed (hdrops : Drops events events')
    (hrefs : RefsClosed closed events) : RefsClosed closed events' := by
  cases hdrops with
  | again before block between after =>
      simp only [refsClosed_append] at hrefs ⊢
      obtain ⟨hbefore, hblock, hbetween, -, hafter⟩ := hrefs
      refine ⟨hbefore, hblock, hbetween, hafter.mono fun gid hgid => ?_⟩
      rcases hgid with hgid | hgid
      · exact hgid
      · exact .inl (.inr hgid)

theorem Condenses.mem_iff (hcondenses : Condenses events events')
    (event : PatternEvent) : event ∈ events' ↔ event ∈ events := by
  induction hcondenses with
  | refl => exact Iff.rfl
  | tail _ hdrops ih => exact (hdrops.mem_iff event).trans ih

theorem Condenses.count_le (hcondenses : Condenses events events')
    (event : PatternEvent) : events'.count event ≤ events.count event := by
  induction hcondenses with
  | refl => exact Nat.le_refl _
  | tail _ hdrops ih => exact (hdrops.count_le event).trans ih

theorem Condenses.refsClosed (hcondenses : Condenses events events')
    (hrefs : RefsClosed closed events) : RefsClosed closed events' := by
  induction hcondenses with
  | refl => exact hrefs
  | tail _ hdrops ih => exact hdrops.refsClosed ih

theorem Condenses.append_left (hcondenses : Condenses events events')
    (before : List PatternEvent) :
    Condenses (before ++ events) (before ++ events') := by
  refine hcondenses.lift (before ++ ·) ?_
  rintro _ _ ⟨before', block, between, after⟩
  have hagain := Drops.again (before ++ before') block between after
  rwa [List.append_assoc, List.append_assoc] at hagain

end Events

section Alternatives

/-- An operation that is in front of every item is met once less for each of
them when it is taken off. -/
theorem tails_condense {op : OpCode} {others : List SubPattern}
    (hothers : ∀ item ∈ others, item.head? = some op)
    (between : List PatternEvent) :
    Condenses (op.events ++ (between ++ branchEvents others))
      (op.events ++ (between ++ branchEvents (others.map List.tail))) := by
  induction others generalizing between with
  | nil => exact .refl
  | cons item others ih =>
      obtain ⟨hitem, hrest⟩ := List.forall_mem_cons.mp hothers
      cases item with
      | nil => cases hitem
      | cons op' item =>
          cases Option.some.inj hitem
          have hagain := Drops.again [] op.events between
            (seqEvents item ++ branchEvents others)
          have hlater := ih hrest (between ++ seqEvents item)
          simp only [List.nil_append, List.append_assoc] at hagain hlater
          rw [List.map_cons, List.tail_cons, branchEvents, branchEvents,
            seqEvents, List.append_assoc]
          exact .head hagain hlater

theorem takeShared_condenses (first : SubPattern) (others : List SubPattern) :
    Condenses (branchEvents (first :: others))
      (seqEvents (takeShared first others).1 ++
        branchEvents (takeShared first others).2) := by
  induction first generalizing others with
  | nil => exact .refl
  | cons op first ih =>
      rw [takeShared]
      split
      case isTrue hall =>
          have hothers : ∀ item ∈ others, item.head? = some op :=
            fun item hitem => of_decide_eq_true (List.all_eq_true.mp hall item hitem)
          have htails := tails_condense hothers (seqEvents first)
          have hlater := (ih (others.map List.tail)).append_left op.events
          rw [branchEvents] at hlater
          rw [branchEvents, seqEvents, seqEvents, List.append_assoc,
            List.append_assoc]
          exact htails.trans hlater
      case isFalse => exact .refl

theorem takeShared_forall {P : OpCode → Prop} (first : SubPattern)
    (others : List SubPattern) (hfirst : ∀ op ∈ first, P op)
    (hothers : ∀ item ∈ others, ∀ op ∈ item, P op) :
    (∀ op ∈ (takeShared first others).1, P op) ∧
      ∀ item ∈ (takeShared first others).2, ∀ op ∈ item, P op := by
  induction first generalizing others with
  | nil => exact ⟨nofun, List.forall_mem_cons.mpr ⟨hfirst, hothers⟩⟩
  | cons op first ih =>
      obtain ⟨hop, hrest⟩ := List.forall_mem_cons.mp hfirst
      rw [takeShared]
      split
      case isTrue =>
          have htails : ∀ item ∈ others.map List.tail, ∀ op ∈ item, P op := by
            intro tail htail op' hop'
            obtain ⟨item, hitem, rfl⟩ := List.mem_map.mp htail
            exact hothers item hitem op' (List.mem_of_mem_tail hop')
          obtain ⟨hshared, hitems⟩ := ih (others.map List.tail) hrest htails
          exact ⟨List.forall_mem_cons.mpr ⟨hop, hshared⟩, hitems⟩
      case isFalse =>
          exact ⟨nofun, List.forall_mem_cons.mpr ⟨hfirst, hothers⟩⟩

theorem takeShared_ne_nil (first : SubPattern) (others : List SubPattern) :
    (takeShared first others).2 ≠ [] := by
  induction first generalizing others with
  | nil => exact List.cons_ne_nil _ _
  | cons op first ih =>
      rw [takeShared]
      split
      case isTrue => exact ih _
      case isFalse => exact List.cons_ne_nil _ _

end Alternatives

section Sets

theorem mem_uniqSet {items : List SetItem} {item : SetItem} :
    item ∈ uniqSet items ↔ item ∈ items := by
  have hfold : ∀ seen : List SetItem,
      item ∈ items.foldl (fun seen item =>
        if item ∈ seen then seen else seen ++ [item]) seen ↔
      item ∈ seen ∨ item ∈ items := by
    induction items with
    | nil => simp
    | cons other items ih =>
        intro seen
        rw [List.foldl_cons, ih]
        by_cases hseen : other ∈ seen
        · rw [if_pos hseen, List.mem_cons]
          constructor
          · exact Or.imp_right .inr
          · rintro (hmem | rfl | hmem)
            · exact .inl hmem
            · exact .inl hseen
            · exact .inr hmem
        · rw [if_neg hseen, List.mem_append, List.mem_singleton,
            List.mem_cons, or_assoc]
  rw [uniqSet, hfold]
  simp

/-- Items that may be put into a set. -/
structure Positive (items : List SetItem) : Prop where
  each : ∀ item ∈ items, item.WellFormed
  unnegated : .negate ∉ items

theorem Positive.append {items items' : List SetItem} (hitems : Positive items)
    (hitems' : Positive items') : Positive (items ++ items') := by
  refine ⟨?_, ?_⟩
  · exact List.forall_mem_append.mpr ⟨hitems.each, hitems'.each⟩
  · rw [List.mem_append]
    exact not_or.mpr ⟨hitems.unnegated, hitems'.unnegated⟩

theorem Positive.uniqSet {items : List SetItem} (hitems : Positive items) :
    Positive (uniqSet items) := by
  refine ⟨fun item hitem => hitems.each item (mem_uniqSet.mp hitem), ?_⟩
  rw [mem_uniqSet]
  exact hitems.unnegated

theorem Positive.wellFormed {items : List SetItem} (hitems : Positive items)
    (hsome : items ≠ []) : WellFormedSet items where
  each := hitems.each
  names := by
    obtain ⟨item, hitem⟩ := List.exists_mem_of_ne_nil items hsome
    exact ⟨item, hitem, fun h => hitems.unnegated (h ▸ hitem)⟩
  once := fun hmem => hitems.unnegated (List.mem_of_mem_tail hmem)

theorem Positive.negated {items : List SetItem} (hitems : Positive items)
    (hsome : items ≠ []) : WellFormedSet (.negate :: items) where
  each := List.forall_mem_cons.mpr ⟨trivial, hitems.each⟩
  names := by
    obtain ⟨item, hitem, hne⟩ := (hitems.wellFormed hsome).names
    exact ⟨item, List.mem_cons_of_mem _ hitem, hne⟩
  once := hitems.unnegated

theorem uniqSet_ne_nil {items : List SetItem} (hsome : items ≠ []) :
    uniqSet items ≠ [] := by
  obtain ⟨item, hitem⟩ := List.exists_mem_of_ne_nil items hsome
  exact List.ne_nil_of_mem (mem_uniqSet.mpr hitem)

theorem WellFormedSet.positive {items : List SetItem}
    (hitems : WellFormedSet items) (hhead : items.head? ≠ some .negate) :
    Positive items := by
  refine ⟨hitems.each, fun hmem => ?_⟩
  cases items with
  | nil => cases hmem
  | cons item items =>
      rcases List.mem_cons.mp hmem with rfl | hmem
      · exact hhead rfl
      · exact hitems.once hmem

/-- Alternatives that are made into one set. -/
theorem flattenSet_spec {items : List SubPattern} {set : List SetItem}
    (hset : flattenSet items = some set)
    (hitems : ∀ item ∈ items, ∀ op ∈ item, op.WellFormed) :
    Positive set ∧ (items ≠ [] → set ≠ []) ∧ branchEvents items = [] := by
  induction items generalizing set with
  | nil =>
      cases hset
      exact ⟨⟨nofun, nofun⟩, fun h => absurd rfl h, rfl⟩
  | cons item items ih =>
      obtain ⟨hitem, hrest⟩ := List.forall_mem_cons.mp hitems
      unfold flattenSet at hset
      split at hset
      next cp =>
          obtain ⟨more, hmore, rfl⟩ := Option.map_eq_some_iff.mp hset
          obtain ⟨hpositive, -, hevents⟩ := ih hmore hrest
          refine ⟨?_, fun _ => List.cons_ne_nil _ _, ?_⟩
          · refine ⟨List.forall_mem_cons.mpr ⟨?_, hpositive.each⟩, ?_⟩
            · exact hitem (.literal cp) (List.mem_singleton_self _)
            · simpa using hpositive.unnegated
          · rw [branchEvents, hevents]
            rfl
      next inner =>
          split at hset
          case isTrue => cases hset
          case isFalse hhead =>
              obtain ⟨more, hmore, rfl⟩ := Option.map_eq_some_iff.mp hset
              obtain ⟨hpositive, -, hevents⟩ := ih hmore hrest
              have hinner : WellFormedSet inner :=
                hitem (.inSet inner) (List.mem_singleton_self _)
              refine ⟨(hinner.positive hhead).append hpositive, fun _ => ?_, ?_⟩
              · obtain ⟨first, hfirst, -⟩ := hinner.names
                exact List.ne_nil_of_mem (List.mem_append_left _ hfirst)
              · rw [branchEvents, hevents]
                rfl
      next => cases hset

end Sets

section Joining

variable {n : Nat} {shared : SubPattern} {items : List SubPattern}

theorem joinShared_condenses
    (hitems : ∀ item ∈ items, ∀ op ∈ item, op.WellFormed) :
    seqEvents (joinShared shared items) =
      seqEvents shared ++ branchEvents items := by
  rw [joinShared]
  split
  next set hset =>
      rw [seqEvents_append, (flattenSet_spec hset hitems).2.2]
      rfl
  next =>
      rw [seqEvents_append, seqEvents, OpCode.events, seqEvents,
        List.append_nil]

theorem joinShared_shaped (hshared : ∀ op ∈ shared, op.Shaped n)
    (hitems : ∀ item ∈ items, ∀ op ∈ item, op.Shaped n)
    (hsome : items ≠ []) :
    ∀ op ∈ joinShared shared items, op.Shaped (n + 1) := by
  have hmoved : ∀ op ∈ shared, op.Shaped (n + 1) :=
    fun op hop => (hshared op hop).mono (Nat.le_succ n)
  rw [joinShared]
  split
  next set hset =>
      obtain ⟨hpositive, hset', -⟩ :=
        flattenSet_spec hset fun q hq op hop => (hitems q hq op hop).every.here
      have hwell : (OpCode.inSet (uniqSet set)).WellFormed :=
        hpositive.uniqSet.wellFormed (uniqSet_ne_nil (hset' hsome))
      exact List.forall_mem_append.mpr ⟨hmoved,
        List.forall_mem_singleton.mpr (OpCode.Shaped.nest hwell nofun)⟩
  next =>
      have hwell : (OpCode.branch items).WellFormed := trivial
      exact List.forall_mem_append.mpr ⟨hmoved,
        List.forall_mem_singleton.mpr (OpCode.Shaped.nest hwell hitems)⟩

theorem joinAlternatives_condenses
    (hitems : ∀ item ∈ items, ∀ op ∈ item, op.WellFormed) :
    Condenses (branchEvents items) (seqEvents (joinAlternatives items)) := by
  match items, hitems with
  | [], _ => exact .refl
  | [item], _ =>
      rw [branchEvents, branchEvents, List.append_nil]
      exact .refl
  | item :: other :: others, hitems =>
      obtain ⟨hitem, hothers⟩ := List.forall_mem_cons.mp hitems
      have hforall := takeShared_forall item (other :: others) hitem hothers
      change Condenses _ (seqEvents (joinShared _ _))
      rw [joinShared_condenses hforall.2]
      exact takeShared_condenses item (other :: others)

theorem joinAlternatives_shaped
    (hitems : ∀ item ∈ items, ∀ op ∈ item, op.Shaped n) :
    ∀ op ∈ joinAlternatives items, op.Shaped (n + 1) := by
  match items, hitems with
  | [], _ => exact nofun
  | [item], hitems =>
      intro op hop
      exact (hitems item (List.mem_singleton_self _) op hop).mono
        (Nat.le_succ n)
  | item :: other :: others, hitems =>
      obtain ⟨hitem, hothers⟩ := List.forall_mem_cons.mp hitems
      have hforall := takeShared_forall item (other :: others) hitem hothers
      exact joinShared_shaped hforall.1 hforall.2 (takeShared_ne_nil _ _)

/-- Whether an operation is a group that only encloses. -/
def isPlain : OpCode → Bool
  | .subpattern none 0 0 _ => true
  | _ => false

theorem joinShared_plain (hshared : ∀ op ∈ shared, isPlain op = false) :
    ∀ op ∈ joinShared shared items, isPlain op = false := by
  rw [joinShared]
  split
  next => exact List.forall_mem_append.mpr
            ⟨hshared, List.forall_mem_singleton.mpr rfl⟩
  next => exact List.forall_mem_append.mpr
            ⟨hshared, List.forall_mem_singleton.mpr rfl⟩

theorem joinAlternatives_plain
    (hitems : ∀ item ∈ items, ∀ op ∈ item, isPlain op = false) :
    ∀ op ∈ joinAlternatives items, isPlain op = false := by
  match items, hitems with
  | [], _ => exact nofun
  | [item], hitems => exact hitems item (List.mem_singleton_self _)
  | item :: other :: others, hitems =>
      obtain ⟨hitem, hothers⟩ := List.forall_mem_cons.mp hitems
      have hforall := takeShared_forall item (other :: others) hitem hothers
      exact joinShared_plain hforall.1

end Joining

section Inlining

variable {n : Nat}

theorem isPlain_eq_true {op : OpCode} (hplain : isPlain op = true) :
    ∃ p, op = .subpattern none 0 0 p := by
  unfold isPlain at hplain
  split at hplain
  next p => exact ⟨p, rfl⟩
  next => cases hplain

theorem inlined_of_plain {op : OpCode} (hplain : isPlain op = false) :
    op.inlined = [op] := by
  unfold isPlain at hplain
  split at hplain
  next => cases hplain
  next hne =>
      cases op with
      | subpattern group addFlags delFlags p =>
          rw [OpCode.inlined]
          exact hne
      | _ => rfl

/-- Replacing a plain group by what it encloses changes nothing that is met,
and leaves no plain group. -/
structure Unwraps (n : Nat) (p p' : SubPattern) : Prop where
  events : seqEvents p' = seqEvents p
  plain : ∀ op ∈ p', isPlain op = false
  shaped : (∀ op ∈ p, op.Shaped n) → ∀ op ∈ p', op.Shaped n

theorem inlinePlain_of_forall {p : SubPattern}
    (hp : ∀ op ∈ p, Unwraps n [op] op.inlined) :
    Unwraps n p (inlinePlain p) := by
  induction p with
  | nil => exact ⟨rfl, nofun, fun _ => nofun⟩
  | cons op p ih =>
      obtain ⟨hop, hrest⟩ := List.forall_mem_cons.mp hp
      have hlater := ih hrest
      refine ⟨?_, ?_, fun hshaped => ?_⟩
      · rw [inlinePlain, seqEvents_append, hop.events, hlater.events,
          ← seqEvents_append, List.singleton_append]
      · exact List.forall_mem_append.mpr ⟨hop.plain, hlater.plain⟩
      · obtain ⟨hfirst, hshaped⟩ := List.forall_mem_cons.mp hshaped
        exact List.forall_mem_append.mpr
          ⟨hop.shaped (List.forall_mem_singleton.mpr hfirst),
            hlater.shaped hshaped⟩

theorem inlined_unwraps (op : OpCode) : Unwraps n [op] op.inlined := by
  induction op using OpCode.induction with
  | step op ih =>
      cases hplain : isPlain op with
      | false =>
          rw [inlined_of_plain hplain]
          exact ⟨rfl, List.forall_mem_singleton.mpr hplain, id⟩
      | true =>
          obtain ⟨p, rfl⟩ := isPlain_eq_true hplain
          have hinside := inlinePlain_of_forall
            (ih p (List.mem_singleton_self p))
          refine ⟨?_, hinside.plain, fun hshaped => hinside.shaped ?_⟩
          · rw [OpCode.inlined, hinside.events, seqEvents, OpCode.events,
              seqEvents, List.append_nil]
          · exact (List.forall_mem_singleton.mp hshaped).inside p
              (List.mem_singleton_self p)

theorem inlinePlain_unwraps (p : SubPattern) : Unwraps n p (inlinePlain p) :=
  inlinePlain_of_forall fun op _ => inlined_unwraps op

end Inlining

section Repeating

/-- Only the parentheses of plain groups are taken off. -/
theorem repeatedItem_of_plain {op : OpCode} (hplain : isPlain op = false) :
    repeatedItem op = [op] := by
  cases op with
  | subpattern group addFlags delFlags p =>
      rw [repeatedItem]
      rintro q ⟨rfl, rfl, rfl, rfl⟩
      cases hplain
  | _ => rfl

/-- Repeating the last operation leaves what is met as it is, except for what
was wrapped in a plain group. -/
theorem repeated_events {kind : RepeatKind} {min max : Nat} {op : OpCode}
    (hposition : ∀ code, op ≠ .position code)
    (hrepeat : isRepeatOpcode op = false) :
    (OpCode.repeated kind min max (repeatedItem op)).events = op.events ∨
      isPlain op = true ∧
        (OpCode.repeated kind min max (repeatedItem op)).events =
          .bare :: op.events := by
  cases hplain : isPlain op with
  | true =>
      obtain ⟨p, rfl⟩ := isPlain_eq_true hplain
      rw [repeatedItem, OpCode.events, OpCode.events]
      split
      case isTrue => exact .inr ⟨rfl, rfl⟩
      case isFalse => exact .inl rfl
  | false =>
      have hbare : isBare [op] = false := by
        cases op with
        | position code => exact absurd rfl (hposition code)
        | repeated kind min max item => cases hrepeat
        | _ => rfl
      left
      rw [repeatedItem_of_plain hplain, OpCode.events, hbare, if_neg Bool.false_ne_true, seqEvents,
        seqEvents, List.append_nil]

theorem repeatedItem_shaped {n : Nat} {op : OpCode} (hop : op.Shaped n) :
    ∀ inner ∈ repeatedItem op, inner.Shaped n := by
  unfold repeatedItem
  split
  next p => exact hop.inside p (List.mem_singleton_self p)
  next => exact List.forall_mem_singleton.mpr hop

end Repeating

end Hegel
