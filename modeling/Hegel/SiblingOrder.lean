/-
Reordering sibling spans.  The judge of an ordering puts the choices of the
spans into the proposed order over a snapshot of the target and asks whether
that is the target now; what is between the spans stays where it is, whatever
has become of the target since.
-/
import Hegel.Lib.Weaving
import Hegel.Shrinker
import Hegel.ShrinkOrdering
import Hegel.SpanForest

namespace Hegel

section Judge

/-- The nodes from one position up to another, which must exist. -/
def sliceNodes (nodes : List ChoiceNode) (start stop : Nat) :
    Option (List ChoiceNode) :=
  if start ≤ stop ∧ stop ≤ nodes.length then some (nodes.extract start stop)
  else none

/-- The choices and the sibling spans that are put into order. -/
structure ReorderJudge where
  snapshotNodes : List ChoiceNode
  endpoints : List (Nat × Nat)

namespace ReorderJudge

variable (judge : ReorderJudge)

/-- What follows the place of a span: the gap up to the next span, or all that
is left. -/
def gapAfter (k targetEnd : Nat) : Option (List ChoiceNode) :=
  if k + 1 < judge.endpoints.length then do
    let (nextStart, _) ← judge.endpoints[k + 1]?
    sliceNodes judge.snapshotNodes targetEnd nextStart
  else sliceNodes judge.snapshotNodes targetEnd judge.snapshotNodes.length

/-- Fill the places of the remaining spans. -/
def fill (permutation : List Nat) :
    Nat → List (Nat × Nat) → List ChoiceNode → Option (List ChoiceNode)
  | _, [], attempt => some attempt
  | k, (_, targetEnd) :: rest, attempt => do
      let srcIdx ← permutation[k]?
      let (srcStart, srcEnd) ← judge.endpoints[srcIdx]?
      let piece ← sliceNodes judge.snapshotNodes srcStart srcEnd
      let gap ← judge.gapAfter k targetEnd
      fill permutation (k + 1) rest (attempt ++ piece ++ gap)

/-- The candidate for a permutation; there is none after an access out of
range. -/
def attempt (permutation : List Nat) : Option (List ChoiceNode) := do
  let (firstStart, _) ← judge.endpoints[0]?
  let before ← sliceNodes judge.snapshotNodes 0 firstStart
  judge.fill permutation 0 judge.endpoints before

end ReorderJudge

/-- Why a judge gives no verdict. -/
inductive JudgeHalt where
  | outOfRange
  | shrink (halt : ShrinkHalt)

variable {World : Type} (testFn : ShrinkProbe World)

def ReorderJudge.accept (judge : ReorderJudge) (permutation : List Nat)
    (state : ShrinkState World) :
    Except JudgeHalt Bool × ShrinkState World :=
  match judge.attempt permutation with
  | none => (.error .outOfRange, state)
  | some attempt =>
      let (verdict, state) := (consider testFn attempt).exec state
      (verdict.mapError .shrink, state)

/-- The spans at some indices that have a parent and a label. -/
def siblingEndpoints (spans : List Span) (parent : Option Nat) (label : String)
    (childIndices : List Nat) : List (Nat × Nat) :=
  childIndices.filterMap fun i => do
    let span ← spans[i]?
    if span.parent = parent ∧ span.label = label then
      some (span.start, span.stop)
    else none

/-- Put the sibling spans at some indices into order. -/
def reorderSiblings {Key : Type} [Preorder Key] [DecidableLE Key]
    (keys : List ChoiceNode → Key) (spans : List Span) (nodes : List ChoiceNode)
    (parent : Option Nat) (label : String) (childIndices : List Nat) :
    Looping (OrderingState (ShrinkState World)) JudgeHalt Unit :=
  let endpoints := siblingEndpoints spans parent label childIndices
  if endpoints.length ≤ 1 then pure ()
  else if endpoints.any fun range => decide (range.2 > nodes.length) then pure ()
  else
    let cachedKeys := endpoints.map fun range => keys (pieceAt nodes range)
    let judge : ReorderJudge := ⟨nodes, endpoints⟩
    shrinkOrdering (fun i => cachedKeys.getD i (keys [])) (judge.accept testFn)
      endpoints.length

end Judge

namespace ReorderJudge

variable {judge : ReorderJudge} {permutation : List Nat}

/-- What is between the spans of a snapshot. -/
def gaps (judge : ReorderJudge) : List (List ChoiceNode) :=
  gapsFrom judge.snapshotNodes 0 judge.endpoints

/-- The choices in the spans. -/
def pieces (judge : ReorderJudge) : List (List ChoiceNode) :=
  judge.endpoints.map (pieceAt judge.snapshotNodes)

/-- The snapshot with its spans in another order and its gaps in place. -/
def Permutes (judge : ReorderJudge) (permutation : List Nat)
    (candidate : List ChoiceNode) : Prop :=
  candidate = weave judge.gaps (permutation.map (judge.pieces.getD · [])) ∧
    candidate.Perm judge.snapshotNodes ∧
    candidate.length = judge.snapshotNodes.length

theorem sliceNodes_eq {nodes : List ChoiceNode} {start stop : Nat}
    (hle : start ≤ stop) (hstop : stop ≤ nodes.length) :
    sliceNodes nodes start stop = some (nodes.extract start stop) :=
  if_pos ⟨hle, hstop⟩

theorem extract_length (nodes : List ChoiceNode) (start : Nat) :
    nodes.extract start nodes.length = nodes.drop start := by
  rw [List.extract_eq_take_drop]
  exact List.take_of_length_le (by rw [List.length_drop])

variable (horder : InOrder 0 judge.endpoints judge.snapshotNodes.length)
  (hperm : permutation.Perm (List.range judge.endpoints.length))

include horder in
/-- The spans can be cut out of the snapshot. -/
theorem piece_eq {idx : Nat} (hidx : idx < judge.endpoints.length) :
    sliceNodes judge.snapshotNodes judge.endpoints[idx].1
        judge.endpoints[idx].2 = some (judge.pieces.getD idx []) := by
  obtain ⟨hle, hstop⟩ := horder.inside (List.getElem_mem hidx)
  have hlookup : judge.pieces.getD idx [] =
      pieceAt judge.snapshotNodes judge.endpoints[idx] := by
    rw [pieces, List.getD_eq_getElem _ _ (by rwa [List.length_map]),
      List.getElem_map]
  rw [sliceNodes_eq hle hstop, hlookup, pieceAt]

include horder hperm in
/-- A place takes the choices of the span that the permutation puts there. -/
theorem fill_cons {k : Nat} (hk : k < permutation.length) (range : Nat × Nat)
    (rest : List (Nat × Nat)) (attempt : List ChoiceNode) :
    judge.fill permutation k (range :: rest) attempt =
      (judge.gapAfter k range.2).bind fun gap =>
        judge.fill permutation (k + 1) rest
          (attempt ++ judge.pieces.getD permutation[k] [] ++ gap) := by
  have hsrc : permutation[k] < judge.endpoints.length :=
    List.mem_range.mp (hperm.mem_iff.mp (List.getElem_mem hk))
  have hlookup : permutation[k]? = some permutation[k] :=
    List.getElem?_eq_getElem hk
  have hendpoint : judge.endpoints[permutation[k]]? =
      some judge.endpoints[permutation[k]] := List.getElem?_eq_getElem hsrc
  have hpiece := piece_eq horder hsrc
  rw [fill, hlookup, Option.bind_eq_bind, Option.bind_some, hendpoint,
    Option.bind_eq_bind, Option.bind_some]
  dsimp only
  rw [hpiece, Option.bind_eq_bind, Option.bind_some]

include horder hperm in
/-- Every place is filled, and the gap behind it follows. -/
theorem fill_eq (done : List (Nat × Nat)) {rest : List (Nat × Nat)}
    {range : Nat × Nat}
    (hsplit : judge.endpoints = done ++ range :: rest)
    (hrest : InOrder range.2 rest judge.snapshotNodes.length)
    (attempt : List ChoiceNode) :
    judge.fill permutation done.length (range :: rest) attempt =
      some (attempt ++ weave ([] :: gapsFrom judge.snapshotNodes range.2 rest)
        ((permutation.drop done.length).map (judge.pieces.getD · []))) := by
  induction rest generalizing done range attempt with
  | nil =>
      have hplaces : judge.endpoints.length = done.length + 1 := by
        rw [hsplit, List.length_append, List.length_singleton]
      have hlength : permutation.length = done.length + 1 := by
        rw [hperm.length_eq, List.length_range, hplaces]
      have hk : done.length < permutation.length := by omega
      have hgap : judge.gapAfter done.length range.2 =
          some (judge.snapshotNodes.drop range.2) := by
        rw [gapAfter, if_neg (by omega), sliceNodes_eq hrest (Nat.le_refl _),
          extract_length]
      have hover : permutation.drop (done.length + 1) = [] :=
        List.drop_of_length_le hlength.le
      rw [fill_cons horder hperm hk, hgap, Option.bind_some, fill,
        List.drop_eq_getElem_cons hk, hover]
      simp [gapsFrom, weave]
  | cons next rest ih =>
      have hplaces : judge.endpoints.length =
          done.length + (rest.length + 2) := by
        rw [hsplit, List.length_append, List.length_cons, List.length_cons]
      have hlength : permutation.length = judge.endpoints.length := by
        rw [hperm.length_eq, List.length_range]
      have hk : done.length < permutation.length := by omega
      have hnext : judge.endpoints[done.length + 1]? = some next := by
        rw [hsplit, List.getElem?_append_right (by omega)]
        simp
      have hgap : judge.gapAfter done.length range.2 =
          some (judge.snapshotNodes.extract range.2 next.1) := by
        rw [gapAfter, if_pos (by omega), hnext, Option.bind_eq_bind,
          Option.bind_some]
        exact sliceNodes_eq hrest.1 (Nat.le_trans hrest.2.1 hrest.2.2.le)
      have hmoved : judge.endpoints = (done ++ [range]) ++ next :: rest := by
        rw [hsplit, List.append_assoc, List.singleton_append]
      have hrec := ih (done ++ [range]) hmoved hrest.2.2
      rw [List.length_append, List.length_singleton] at hrec
      rw [fill_cons horder hperm hk, hgap, Option.bind_some, hrec,
        List.drop_eq_getElem_cons hk, List.map_cons, gapsFrom]
      have hk' : done.length + 1 < permutation.length := by omega
      rw [List.drop_eq_getElem_cons hk', List.map_cons]
      simp only [weave, List.nil_append, List.append_assoc]

include horder hperm in
/-- The candidate is the snapshot with its spans permuted. -/
theorem attempt_eq (hsome : judge.endpoints ≠ []) :
    judge.attempt permutation =
      some (weave judge.gaps (permutation.map (judge.pieces.getD · []))) := by
  obtain ⟨first, rest, hsplit⟩ := List.exists_cons_of_ne_nil hsome
  have hwhole := horder
  rw [hsplit] at hwhole
  have hfirst : judge.endpoints[0]? = some first := by
    rw [hsplit]
    rfl
  have hbefore : sliceNodes judge.snapshotNodes 0 first.1 =
      some (judge.snapshotNodes.extract 0 first.1) :=
    sliceNodes_eq (Nat.zero_le first.1)
      (Nat.le_trans hwhole.2.1 hwhole.2.2.le)
  have hfill := fill_eq horder hperm [] hsplit hwhole.2.2
    (judge.snapshotNodes.extract 0 first.1)
  rw [List.length_nil, List.drop_zero, append_weave, List.append_nil,
    ← hsplit] at hfill
  rw [attempt, hfirst, Option.bind_eq_bind, Option.bind_some]
  dsimp only
  rw [hbefore, Option.bind_eq_bind, Option.bind_some, hfill, gaps, hsplit,
    gapsFrom]

include horder hperm in
/-- Its choices are those of the snapshot. -/
theorem permutes_weave :
    judge.Permutes permutation
      (weave judge.gaps (permutation.map (judge.pieces.getD · []))) := by
  have hpieces : (permutation.map (judge.pieces.getD · [])).Perm
      judge.pieces := by
    apply perm_map_getD
    rwa [pieces, List.length_map]
  have hwhole := weave_gapsFrom judge.snapshotNodes horder
  rw [List.drop_zero] at hwhole
  have hsame : (weave judge.gaps
      (permutation.map (judge.pieces.getD · []))).Perm judge.snapshotNodes :=
    (weave_perm_of_perm judge.gaps hpieces).trans (List.Perm.of_eq hwhole)
  exact ⟨rfl, hsame, hsame.length_eq⟩

end ReorderJudge

/-- Siblings of a forest of spans follow one another. -/
theorem siblingEndpoints_inOrder {spans : List Span} {count : Nat}
    (hforest : SpanForest count spans) (parent : Option Nat) (label : String)
    {childIndices : List Nat} (hsorted : childIndices.Pairwise (· < ·)) :
    InOrder 0 (siblingEndpoints spans parent label childIndices) count := by
  suffices hchain : ∀ (indices : List Nat) (start : Nat), start ≤ count →
      indices.Pairwise (· < ·) →
      (∀ idx ∈ indices, ∀ span, spans[idx]? = some span →
        span.parent = parent → start ≤ span.start) →
      InOrder start (siblingEndpoints spans parent label indices) count from
    hchain childIndices 0 (Nat.zero_le count) hsorted
      fun _ _ _ _ _ => Nat.zero_le _
  intro indices
  induction indices with
  | nil => exact fun _ hstart _ _ => hstart
  | cons idx rest ih =>
      intro start hstart hpairs hbehind
      obtain ⟨hlater, hrest⟩ := List.pairwise_cons.mp hpairs
      have hskip := ih start hstart hrest fun other hmem =>
        hbehind other (List.mem_cons_of_mem idx hmem)
      rw [siblingEndpoints, List.filterMap_cons]
      cases hspan : spans[idx]? with
      | none => exact hskip
      | some span =>
          rw [Option.bind_eq_bind, Option.bind_some]
          by_cases hsame : span.parent = parent ∧ span.label = label
          · rw [if_pos hsame]
            have hinterval := hforest.interval idx span hspan
            refine ⟨hbehind idx List.mem_cons_self span hspan hsame.1,
              hinterval.1, ?_⟩
            apply ih span.stop hinterval.2 hrest
            intro other hmem sibling hsibling hparent
            exact hforest.siblings idx other span sibling (hlater other hmem)
              hspan hsibling (hsame.1.trans hparent.symm)
          · rw [if_neg hsame]
            exact hskip

section Ordering

variable {World Key : Type} [Preorder Key] [DecidableLE Key]
  [Std.Total (α := Key) (· ≤ ·)]

theorem accept_permutes (testFn : ShrinkProbe World) (keys : Nat → Key)
    {judge : ReorderJudge}
    (horder : InOrder 0 judge.endpoints judge.snapshotNodes.length)
    (state : ShrinkState World) :
    (shrinkOrdering keys (judge.accept testFn)
      judge.endpoints.length).Yields ⟨state, []⟩ fun _ after =>
        ∀ t ∈ after.tries,
          ∃ candidate, judge.attempt t.permutation = some candidate ∧
            judge.Permutes t.permutation candidate := by
  by_cases hsome : judge.endpoints = []
  · have hfew : judge.endpoints.length ≤ 1 := by
      rw [hsome]
      exact Nat.zero_le 1
    rw [shrinkOrdering, if_pos hfew]
    exact Looping.yields_pure fun t hmem => absurd hmem List.not_mem_nil
  · refine (shrinkOrdering_tried judge.endpoints.length state).mono ?_
    intro _ after htried t hmem
    have hperm := htried.perm hmem
    exact ⟨_, ReorderJudge.attempt_eq horder hperm hsome,
      ReorderJudge.permutes_weave horder hperm⟩

/-- Whatever order of the sibling spans is tried, the candidate is the snapshot
with their choices permuted and with the gaps between them in place. -/
theorem reorder_permutes (testFn : ShrinkProbe World) (keys : Nat → Key)
    (judge : ReorderJudge)
    (horder : InOrder 0 judge.endpoints judge.snapshotNodes.length) :
    weave judge.gaps judge.pieces = judge.snapshotNodes ∧
    (∀ permutation : List Nat, judge.endpoints ≠ [] →
      permutation.Perm (List.range judge.endpoints.length) →
        ∃ candidate, judge.attempt permutation = some candidate ∧
          judge.Permutes permutation candidate) ∧
    ∀ state : ShrinkState World,
      (shrinkOrdering keys (judge.accept testFn)
        judge.endpoints.length).Yields ⟨state, []⟩ fun _ after =>
          ∀ t ∈ after.tries,
            ∃ candidate, judge.attempt t.permutation = some candidate ∧
              judge.Permutes t.permutation candidate := by
  refine ⟨?_, ?_, accept_permutes testFn keys horder⟩
  · have hwhole := weave_gapsFrom judge.snapshotNodes horder
    rwa [List.drop_zero] at hwhole
  · intro permutation hsome hperm
    exact ⟨_, ReorderJudge.attempt_eq horder hperm hsome,
      ReorderJudge.permutes_weave horder hperm⟩

/-- A flag, two spans of flags with one between them, and a last flag. -/
def flagSpans : ReorderJudge :=
  ⟨[false, true, true, false, true, false].map fun flag =>
    .mk (.boolean ⟨.zero⟩ flag) false, [(1, 3), (4, 5)]⟩

/-- The run is over whatever is asked. -/
def stoppedProbe : ShrinkProbe Unit where
  run world _ := (.error .stop, world)
  now world := (none, world)

theorem reorder_permutes_flags :
    weave flagSpans.gaps flagSpans.pieces = flagSpans.snapshotNodes ∧
    (∀ permutation : List Nat, flagSpans.endpoints ≠ [] →
      permutation.Perm (List.range flagSpans.endpoints.length) →
        ∃ candidate, flagSpans.attempt permutation = some candidate ∧
          flagSpans.Permutes permutation candidate) ∧
    ∀ state : ShrinkState Unit,
      (shrinkOrdering (fun i => 1 - i) (flagSpans.accept stoppedProbe)
        flagSpans.endpoints.length).Yields ⟨state, []⟩ fun _ after =>
          ∀ t ∈ after.tries,
            ∃ candidate, flagSpans.attempt t.permutation = some candidate ∧
              flagSpans.Permutes t.permutation candidate :=
  reorder_permutes stoppedProbe (fun i => 1 - i) flagSpans (by decide)

/-- The sibling spans of a forest are put into order without an access out of
range, and only permutations of the nodes are tried. -/
theorem reorderSiblings_permutes (testFn : ShrinkProbe World)
    (keys : List ChoiceNode → Key) {spans : List Span} {nodes : List ChoiceNode}
    (hforest : SpanForest nodes.length spans) (parent : Option Nat)
    (label : String) {childIndices : List Nat}
    (hsorted : childIndices.Pairwise (· < ·)) (state : ShrinkState World) :
    (reorderSiblings testFn keys spans nodes parent label childIndices).Yields
      ⟨state, []⟩ fun _ after => ∀ t ∈ after.tries,
        ∃ candidate,
          ReorderJudge.attempt ⟨nodes, siblingEndpoints spans parent label
            childIndices⟩ t.permutation = some candidate ∧
          candidate.Perm nodes := by
  have horder := siblingEndpoints_inOrder hforest parent label hsorted
  have hnone : ∀ t ∈ (⟨state, []⟩ : OrderingState (ShrinkState World)).tries,
      ∃ candidate,
        ReorderJudge.attempt ⟨nodes, siblingEndpoints spans parent label
          childIndices⟩ t.permutation = some candidate ∧
        candidate.Perm nodes :=
    fun t hmem => absurd hmem List.not_mem_nil
  rw [reorderSiblings]
  apply Looping.yields_ite
  · exact fun _ => Looping.yields_pure hnone
  · intro _
    apply Looping.yields_ite
    · exact fun _ => Looping.yields_pure hnone
    · intro _
      refine (accept_permutes testFn _
        horder state).mono ?_
      intro _ after htries t hmem
      obtain ⟨candidate, hattempt, _, hperm, _⟩ := htries t hmem
      exact ⟨candidate, hattempt, hperm⟩

end Ordering

end Hegel
