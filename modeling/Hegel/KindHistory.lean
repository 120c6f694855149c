/-
The kind ledger over a history of runs.  An entry always goes back to a draw
of an observed run, and until the ledger is full every draw of a quiet history
has its entry; so a contradiction is reported when, and while there is room
only when, two runs draw different kinds after the same values.
-/
import Hegel.ValueCode

namespace Hegel

/-- Values as the ledger tells them apart. -/
def drawnValues (nodes : List ChoiceNode) : List ChoiceValueRef :=
  nodes.map ChoiceNode.valueRef

/-- A run draws a choice of some kind right after some values. -/
def DrawsAfter (nodes : List ChoiceNode) (values : List ChoiceValueRef)
    (kind : ChoiceKind) : Prop :=
  ∃ front node rest, nodes = front ++ node :: rest ∧
    drawnValues front = values ∧ node.kind = kind

/-- What is drawn next is determined by the values drawn so far. -/
def DrawnBy (program : List ChoiceValueRef → ChoiceKind)
    (nodes : List ChoiceNode) : Prop :=
  ∀ values kind, DrawsAfter nodes values kind → kind = program values

namespace KindLedger

theorem observeKind_error {entries : KindLedger} {digest : Digest}
    {kind : ChoiceKind} {mismatch : KindMismatch}
    (hobserve : entries.observeKind digest kind = .error mismatch) :
    ∃ expected, entries.lookup digest = some expected ∧ expected ≠ kind := by
  rw [observeKind] at hobserve
  cases hlookup : entries.lookup digest with
  | none =>
      rw [hlookup] at hobserve
      simp only at hobserve
      split at hobserve <;> exact absurd hobserve (by simp)
  | some expected =>
      rw [hlookup] at hobserve
      simp only at hobserve
      split at hobserve
      next hne => exact ⟨expected, rfl, hne⟩
      next => exact absurd hobserve (by simp)

/-- What accepting a draw does to the ledger. -/
structure Accepts (entries next : KindLedger) (digest : Digest)
    (kind : ChoiceKind) : Prop where
  kept : ∀ other found, entries.lookup other = some found →
    next.lookup other = some found
  new : ∀ other found, next.lookup other = some found →
    entries.lookup other = some found ∨ (other = digest ∧ found = kind)
  room : next.keys.length < kindLedgerCap → next.lookup digest = some kind
  grows : entries.keys.length ≤ next.keys.length
  agrees : ∀ found, entries.lookup digest = some found → found = kind

theorem observeKind_ok {entries next : KindLedger} {digest : Digest}
    {kind : ChoiceKind}
    (hobserve : entries.observeKind digest kind = .ok next) :
    Accepts entries next digest kind := by
  rw [observeKind] at hobserve
  cases hlookup : entries.lookup digest with
  | some expected =>
      rw [hlookup] at hobserve
      simp only at hobserve
      split at hobserve
      next => exact absurd hobserve (by simp)
      next heq =>
          have hkind : expected = kind := not_not.mp heq
          cases hobserve
          constructor
          · exact fun _ _ hfound => hfound
          · exact fun _ _ hfound => .inl hfound
          · exact fun _ => by rw [hlookup, hkind]
          · exact le_rfl
          · intro found hfound
            rw [hlookup] at hfound
            exact (Option.some.inj hfound).symm.trans hkind
  | none =>
      rw [hlookup] at hobserve
      simp only at hobserve
      have hfresh : digest ∉ entries := by
        rw [← AList.lookup_eq_none]
        exact hlookup
      split at hobserve
      next hroom =>
          cases hobserve
          constructor
          · intro other found hfound
            rw [AList.lookup_insert_ne]
            · exact hfound
            · rintro rfl
              rw [hlookup] at hfound
              exact absurd hfound (by simp)
          · intro other found hfound
            by_cases heq : other = digest
            · subst heq
              rw [AList.lookup_insert] at hfound
              exact .inr ⟨rfl, (Option.some.inj hfound).symm⟩
            · rw [AList.lookup_insert_ne heq] at hfound
              exact .inl hfound
          · exact fun _ => AList.lookup_insert entries
          · rw [AList.keys_insert, List.erase_of_not_mem hfresh,
              List.length_cons]
            exact Nat.le_succ _
          · intro found hfound
            rw [hlookup] at hfound
            exact absurd hfound (by simp)
      next hfull =>
          cases hobserve
          constructor
          · exact fun _ _ hfound => hfound
          · exact fun _ _ hfound => .inl hfound
          · exact fun hroom => absurd hroom hfull
          · exact le_rfl
          · intro found hfound
            rw [hlookup] at hfound
            exact absurd hfound (by simp)

variable [UBigBytes]

/-- The digest looked up for the draw that follows some nodes. -/
def digestAfter (nodes : List ChoiceNode) : Digest :=
  Digest.of (prefixInput nodes)

omit [UBigBytes] in
theorem length_drawnValues (nodes : List ChoiceNode) :
    (drawnValues nodes).length = nodes.length :=
  List.length_map _

theorem prefixInput_eq (nodes : List ChoiceNode) :
    prefixInput nodes = (drawnValues nodes).flatMap serializeOneChoice := by
  rw [prefixInput, drawnValues, List.flatMap_map]

/-- The digest is taken of the values alone. -/
theorem digestAfter_congr {front back : List ChoiceNode}
    (hvalues : drawnValues front = drawnValues back) :
    digestAfter front = digestAfter back := by
  rw [digestAfter, digestAfter, prefixInput_eq, prefixInput_eq, hvalues]

/-- Every entry goes back to a draw of one of the runs. -/
def Entered (runs : List (List ChoiceNode)) (entries : KindLedger) : Prop :=
  ∀ digest kind, entries.lookup digest = some kind →
    ∃ nodes ∈ runs, ∃ front node rest, nodes = front ++ node :: rest ∧
      digest = digestAfter front ∧ node.kind = kind

theorem Entered.mono {first second : List (List ChoiceNode)}
    {entries : KindLedger} (hentered : Entered first entries)
    (hsubset : first ⊆ second) : Entered second entries := by
  intro digest kind hlookup
  obtain ⟨nodes, hmem, hdraw⟩ := hentered digest kind hlookup
  exact ⟨nodes, hsubset hmem, hdraw⟩

/-- A run that starts with another one makes all of its draws. -/
theorem Entered.extend {runs : List (List ChoiceNode)}
    {front rest : List ChoiceNode} {entries : KindLedger}
    (hentered : Entered (front :: runs) entries) :
    Entered ((front ++ rest) :: runs) entries := by
  intro digest kind hlookup
  obtain ⟨nodes, hmem, before, node, after, hnodes, hdraw⟩ :=
    hentered digest kind hlookup
  rcases List.mem_cons.mp hmem with rfl | hold
  · refine ⟨_, List.mem_cons_self, before, node, after ++ rest, ?_, hdraw⟩
    rw [hnodes, List.append_assoc, List.cons_append]
  · exact ⟨nodes, List.mem_cons_of_mem _ hold, before, node, after, hnodes,
      hdraw⟩

/-- One draw keeps the entries accounted for. -/
theorem Accepts.entered {runs : List (List ChoiceNode)}
    {front : List ChoiceNode} {node : ChoiceNode} {entries next : KindLedger}
    (haccepts : Accepts entries next (digestAfter front) node.kind)
    (hentered : Entered (front :: runs) entries) :
    Entered ((front ++ [node]) :: runs) next := by
  intro digest kind hlookup
  rcases haccepts.new digest kind hlookup with hold | ⟨rfl, rfl⟩
  · exact hentered.extend digest kind hold
  · exact ⟨_, List.mem_cons_self, front, node, [], rfl, rfl, rfl⟩

/-- The ledger after a run, and what it has told the run's draws. -/
structure Observed (entries final : KindLedger) (front rest : List ChoiceNode) :
    Prop where
  kept : ∀ digest found, entries.lookup digest = some found →
    final.lookup digest = some found
  grows : entries.keys.length ≤ final.keys.length
  complete : final.keys.length < kindLedgerCap →
    ∀ before node after, rest = before ++ node :: after →
      final.lookup (digestAfter (front ++ before)) = some node.kind
  agrees : ∀ before node after, rest = before ++ node :: after →
    ∀ found, entries.lookup (digestAfter (front ++ before)) = some found →
      found = node.kind

theorem observeAfter_observed {entries : KindLedger}
    {front rest : List ChoiceNode}
    (hquiet : (observeAfter entries front rest).2 = none) :
    Observed entries (observeAfter entries front rest).1 front rest := by
  induction rest generalizing entries front with
  | nil =>
      constructor
      · exact fun _ _ hfound => hfound
      · exact le_rfl
      · intro _ before node after hrest
        exact absurd hrest (by simp)
      · intro before node after hrest
        exact absurd hrest (by simp)
  | cons node rest ih =>
      rw [observeAfter] at hquiet ⊢
      cases hobserve : entries.observeKind (Digest.of (prefixInput front))
          node.kind with
      | error mismatch =>
          rw [hobserve] at hquiet
          exact absurd hquiet (by simp)
      | ok next =>
          rw [hobserve] at hquiet
          have haccepts := observeKind_ok hobserve
          have hrest := ih hquiet
          constructor
          · intro digest found hfound
            exact hrest.kept digest found (haccepts.kept digest found hfound)
          · exact haccepts.grows.trans hrest.grows
          · intro hroom before other after hsplit
            cases before with
            | nil =>
                obtain ⟨rfl, rfl⟩ := List.cons.inj hsplit
                rw [List.append_nil]
                exact hrest.kept _ _
                  (haccepts.room (Nat.lt_of_le_of_lt hrest.grows hroom))
            | cons first before =>
                obtain ⟨rfl, rfl⟩ := List.cons.inj hsplit
                have hlookup := hrest.complete hroom before other after rfl
                rw [List.append_assoc] at hlookup
                exact hlookup
          · intro before other after hsplit found hfound
            cases before with
            | nil =>
                obtain ⟨rfl, rfl⟩ := List.cons.inj hsplit
                rw [List.append_nil] at hfound
                exact haccepts.agrees found hfound
            | cons first before =>
                obtain ⟨rfl, rfl⟩ := List.cons.inj hsplit
                refine hrest.agrees before other after rfl found ?_
                rw [List.append_assoc]
                exact haccepts.kept _ _ hfound

theorem observeAfter_entered {runs : List (List ChoiceNode)}
    {entries : KindLedger} {front : List ChoiceNode} (rest : List ChoiceNode)
    (hentered : Entered (front :: runs) entries) :
    Entered ((front ++ rest) :: runs) (observeAfter entries front rest).1 := by
  induction rest generalizing entries front with
  | nil =>
      rw [List.append_nil]
      exact hentered
  | cons node rest ih =>
      rw [observeAfter]
      cases hobserve : entries.observeKind (Digest.of (prefixInput front))
          node.kind with
      | error mismatch => exact hentered.extend
      | ok next =>
          have hrest := ih ((observeKind_ok hobserve).entered hentered)
          rw [List.append_assoc] at hrest
          exact hrest

/-- A reported draw disagrees with an entry made before it. -/
theorem observeAfter_reports {runs : List (List ChoiceNode)}
    {entries : KindLedger} {front rest : List ChoiceNode}
    (hentered : Entered (front :: runs) entries)
    (hreport : (observeAfter entries front rest).2 ≠ none) :
    ∃ before node after, rest = before ++ node :: after ∧
      ∃ nodes ∈ (front ++ before) :: runs, ∃ earlier drawn later,
        nodes = earlier ++ drawn :: later ∧
          digestAfter (front ++ before) = digestAfter earlier ∧
          drawn.kind ≠ node.kind := by
  induction rest generalizing entries front with
  | nil => exact absurd rfl hreport
  | cons node rest ih =>
      rw [observeAfter] at hreport
      cases hobserve : entries.observeKind (Digest.of (prefixInput front))
          node.kind with
      | error mismatch =>
          obtain ⟨expected, hlookup, hne⟩ := observeKind_error hobserve
          obtain ⟨nodes, hmem, earlier, drawn, later, hnodes, hdigest, hkind⟩ :=
            hentered _ _ hlookup
          refine ⟨[], node, rest, rfl, nodes, ?_, earlier, drawn, later,
            hnodes, ?_, ?_⟩
          · rwa [List.append_nil]
          · rw [List.append_nil]
            exact hdigest
          · rwa [hkind]
      | ok next =>
          rw [hobserve] at hreport
          obtain ⟨before, other, after, rfl, hdraw⟩ :=
            ih ((observeKind_ok hobserve).entered hentered) hreport
          rw [List.append_assoc] at hdraw
          exact ⟨node :: before, other, after, rfl, hdraw⟩

/-- The ledger after a history of runs; contradictions do not end it. -/
def afterRuns (runs : List (List ChoiceNode)) : KindLedger :=
  runs.foldl (fun entries nodes => (entries.observe nodes).1) ∅

theorem afterRuns_concat (runs : List (List ChoiceNode))
    (nodes : List ChoiceNode) :
    afterRuns (runs ++ [nodes]) = ((afterRuns runs).observe nodes).1 := by
  rw [afterRuns, List.foldl_concat, ← afterRuns]

/-- Nothing has been reported so far. -/
def Quiet (runs : List (List ChoiceNode)) : Prop :=
  ∀ earlier nodes later, runs = earlier ++ nodes :: later →
    ((afterRuns earlier).observe nodes).2 = none

theorem Quiet.init {runs : List (List ChoiceNode)} {nodes : List ChoiceNode}
    (hquiet : Quiet (runs ++ [nodes])) : Quiet runs := by
  intro earlier other later hruns
  refine hquiet earlier other (later ++ [nodes]) ?_
  rw [hruns, List.append_assoc, List.cons_append]

/-- Different values drawn at the start of some runs have different digests. -/
def CollisionFree (runs : List (List ChoiceNode)) : Prop :=
  ∀ left ∈ runs, ∀ right ∈ runs, ∀ front back,
    front <+: left → back <+: right →
      digestAfter front = digestAfter back →
        drawnValues front = drawnValues back

/-- A run draws another kind than an earlier one, after the same values. -/
def Contradicts (runs : List (List ChoiceNode)) (nodes : List ChoiceNode) :
    Prop :=
  ∃ earlier ∈ runs, ∃ values kind kind', DrawsAfter earlier values kind ∧
    DrawsAfter nodes values kind' ∧ kind ≠ kind'

theorem afterRuns_entered (runs : List (List ChoiceNode)) :
    Entered runs (afterRuns runs) := by
  induction runs using List.reverseRecOn with
  | nil =>
      intro digest kind hlookup
      cases hlookup
  | append_singleton runs nodes ih =>
      have hstart : Entered ([] :: runs) (afterRuns runs) :=
        ih.mono (List.subset_cons_self _ _)
      have hnext := observeAfter_entered nodes hstart
      rw [afterRuns_concat, observe_eq_observeAfter]
      refine hnext.mono ?_
      intro other hother
      simp only [List.nil_append, List.mem_cons] at hother
      exact List.mem_append.mpr (hother.symm.imp_right (by simp))

theorem contradicts_of_report {runs : List (List ChoiceNode)}
    {nodes : List ChoiceNode} (hfree : CollisionFree (runs ++ [nodes]))
    (hreport : ((afterRuns runs).observe nodes).2 ≠ none) :
    Contradicts runs nodes := by
  have hstart : Entered ([] :: runs) (afterRuns runs) :=
    (afterRuns_entered runs).mono (List.subset_cons_self _ _)
  rw [observe_eq_observeAfter] at hreport
  obtain ⟨before, node, after, hnodes, other, hmem, earlier, drawn, later,
    hother, hdigest, hne⟩ := observeAfter_reports hstart hreport
  rw [List.nil_append] at hmem hdigest
  have hself : nodes ∈ runs ++ [nodes] := by simp
  have hbefore : before <+: nodes := ⟨node :: after, hnodes.symm⟩
  have hearlier : earlier <+: other := ⟨drawn :: later, hother.symm⟩
  rcases List.mem_cons.mp hmem with rfl | hold
  · -- shorter prefixes of the same run hold fewer values
    have hvalues := hfree nodes hself nodes hself _ _ hbefore
      (hearlier.trans hbefore) hdigest
    have hlength := congrArg List.length hvalues
    rw [hother, length_drawnValues, length_drawnValues, List.length_append,
      List.length_cons] at hlength
    omega
  · have hvalues := hfree nodes hself other (List.mem_append_left _ hold) _ _
      hbefore hearlier hdigest
    exact ⟨other, hold, drawnValues before, drawn.kind, node.kind,
      ⟨earlier, drawn, later, hother, hvalues.symm, rfl⟩,
      ⟨before, node, after, hnodes, rfl, rfl⟩, hne⟩

/-- While there is room, every draw of a quiet history has its entry. -/
theorem afterRuns_complete {runs : List (List ChoiceNode)}
    (hquiet : Quiet runs)
    (hroom : (afterRuns runs).keys.length < kindLedgerCap) :
    ∀ nodes ∈ runs, ∀ front node rest, nodes = front ++ node :: rest →
      (afterRuns runs).lookup (digestAfter front) = some node.kind := by
  induction runs using List.reverseRecOn with
  | nil =>
      intro nodes hmem
      exact absurd hmem List.not_mem_nil
  | append_singleton runs nodes ih =>
      have hlast := hquiet runs nodes [] rfl
      rw [observe_eq_observeAfter] at hlast
      have hobserved := observeAfter_observed hlast
      rw [afterRuns_concat, observe_eq_observeAfter] at hroom ⊢
      intro other hmem front node rest hother
      rcases List.mem_append.mp hmem with hold | hnew
      · refine hobserved.kept _ _ ?_
        exact ih hquiet.init (Nat.lt_of_le_of_lt hobserved.grows hroom)
          other hold front node rest hother
      · obtain rfl := List.mem_singleton.mp hnew
        have hlookup := hobserved.complete hroom front node rest hother
        rwa [List.nil_append] at hlookup

theorem report_of_contradicts {runs : List (List ChoiceNode)}
    {nodes : List ChoiceNode} (hquiet : Quiet runs)
    (hroom : (afterRuns runs).keys.length < kindLedgerCap)
    (hcontradicts : Contradicts runs nodes) :
    ((afterRuns runs).observe nodes).2 ≠ none := by
  intro hnone
  obtain ⟨other, hmem, values, kind, kind', hdrawn, hdraws, hne⟩ :=
    hcontradicts
  obtain ⟨earlier, drawn, later, hother, rfl, rfl⟩ := hdrawn
  obtain ⟨before, node, after, hnodes, hvalues, rfl⟩ := hdraws
  rw [observe_eq_observeAfter] at hnone
  have hlookup := afterRuns_complete hquiet hroom other hmem earlier drawn
    later hother
  have hdigest : digestAfter earlier = digestAfter ([] ++ before) :=
    digestAfter_congr hvalues.symm
  rw [hdigest] at hlookup
  exact hne ((observeAfter_observed hnone).agrees before node after hnodes
    drawn.kind hlookup)

/-- Runs of one program are never reported, and while the ledger has room a
run is reported exactly when it contradicts an earlier one. -/
theorem kindLedger_reports :
    (∀ program runs nodes, CollisionFree (runs ++ [nodes]) →
      (∀ other ∈ runs ++ [nodes], DrawnBy program other) →
        ((afterRuns runs).observe nodes).2 = none) ∧
      ∀ runs nodes, CollisionFree (runs ++ [nodes]) → Quiet runs →
        (afterRuns runs).keys.length < kindLedgerCap →
          (((afterRuns runs).observe nodes).2 ≠ none ↔
            Contradicts runs nodes) := by
  constructor
  · intro program runs nodes hfree hprogram
    by_contra hreport
    obtain ⟨other, hmem, values, kind, kind', hdrawn, hdraws, hne⟩ :=
      contradicts_of_report hfree hreport
    have hfirst := hprogram other (List.mem_append_left _ hmem) _ _ hdrawn
    have hsecond := hprogram nodes (by simp) _ _ hdraws
    exact hne (hfirst.trans hsecond.symm)
  · intro runs nodes hfree hquiet hroom
    exact ⟨contradicts_of_report hfree,
      report_of_contradicts hquiet hroom⟩

theorem CollisionFree.subset {first second : List (List ChoiceNode)}
    (hfree : CollisionFree second) (hsubset : first ⊆ second) :
    CollisionFree first :=
  fun left hleft right hright =>
    hfree left (hsubset hleft) right (hsubset hright)

/-- For values whose lengths fit, only the hash itself can collide. -/
theorem collisionFree_of_digests {runs : List (List ChoiceNode)}
    (hkeyable : ∀ nodes ∈ runs, ∀ value ∈ drawnValues nodes, value.Keyable)
    (hdigests : ∀ left ∈ runs, ∀ right ∈ runs, ∀ front back,
      front <+: left → back <+: right →
        digestAfter front = digestAfter back →
          prefixInput front = prefixInput back) :
    CollisionFree runs := by
  intro left hleft right hright front back hfront hback hdigest
  have hinput := hdigests left hleft right hright front back hfront hback
    hdigest
  rw [prefixInput_eq, prefixInput_eq] at hinput
  apply serializeOneChoice_isPrefixCode.flatMap_injective _ _ _ hinput
  · intro value
    rw [serializeOneChoice_eq]
    exact List.cons_ne_nil _ _
  · intro value hvalue
    exact hkeyable left hleft value
      ((hfront.map ChoiceNode.valueRef).subset hvalue)
  · intro value hvalue
    exact hkeyable right hright value
      ((hback.map ChoiceNode.valueRef).subset hvalue)

end KindLedger

namespace KindLedger

/-- A coin and a byte string drawn in its place. -/
def coinNode : ChoiceNode :=
  .mk (.boolean ⟨.zero⟩ true) false

def bytesNode : ChoiceNode :=
  .mk (.bytes ⟨0, 1, by decide⟩ []) false

theorem keyable_coinNode [UBigBytes] : coinNode.valueRef.Keyable :=
  ⟨trivial, trivial⟩

theorem keyable_bytesNode [UBigBytes] : bytesNode.valueRef.Keyable :=
  ⟨(by decide : ([] : List UInt8).length < 2 ^ 32), trivial⟩

theorem collisionFree_sample :
    @CollisionFree .digits [[coinNode], [coinNode, bytesNode], [bytesNode]] := by
  let reference := UBigBytes.digits
  apply collisionFree_of_digests
  · simp only [drawnValues, List.forall_mem_cons, List.map_cons, List.map_nil]
    have hcoin := keyable_coinNode
    have hbytes := keyable_bytesNode
    simp [hcoin, hbytes]
  · have hdigests : ∀ left ∈ [[coinNode], [coinNode, bytesNode], [bytesNode]],
        ∀ right ∈ [[coinNode], [coinNode, bytesNode], [bytesNode]],
          ∀ front ∈ left.inits, ∀ back ∈ right.inits,
            digestAfter front = digestAfter back →
              prefixInput front = prefixInput back := by
      decide +kernel
    intro left hleft right hright front back hfront hback
    exact hdigests left hleft right hright front
      ((List.mem_inits front left).mpr hfront) back
      ((List.mem_inits back right).mpr hback)

theorem drawnBy_sample :
    ∀ nodes ∈ [[coinNode], [coinNode, bytesNode]],
      DrawnBy (fun values => if values = [] then coinNode.kind
        else bytesNode.kind) nodes := by
  intro nodes hnodes
  simp only [List.mem_cons, List.not_mem_nil, or_false] at hnodes
  rintro values kind ⟨front, node, rest, hsplit, rfl, rfl⟩
  cases front with
  | nil =>
      rcases hnodes with rfl | rfl <;>
        simp [(List.cons.inj hsplit).1, drawnValues]
  | cons first front =>
      rcases hnodes with rfl | rfl
      · exact absurd (List.cons.inj hsplit).2 (by simp)
      · have hrest := (List.cons.inj hsplit).2
        cases front with
        | nil => simp [(List.cons.inj hrest).1, drawnValues]
        | cons second front =>
            exact absurd (List.cons.inj hrest).2 (by simp)

theorem kindLedger_reports_sample :
    (@observe .digits (@afterRuns .digits [[coinNode]])
        [coinNode, bytesNode]).2 = none ∧
      ((@observe .digits (@afterRuns .digits [[coinNode]]) [bytesNode]).2 ≠
          none ↔
        Contradicts [[coinNode]] [bytesNode]) := by
  let reference := UBigBytes.digits
  have hreports := @kindLedger_reports reference
  constructor
  · refine hreports.1 _ [[coinNode]] [coinNode, bytesNode] ?_ drawnBy_sample
    exact collisionFree_sample.subset (by simp)
  · refine hreports.2 [[coinNode]] [bytesNode] ?_ ?_ (by decide +kernel)
    · exact collisionFree_sample.subset (by simp)
    · intro earlier nodes later hruns
      cases earlier with
      | nil =>
          obtain rfl := (List.cons.inj hruns).1
          decide +kernel
      | cons first earlier =>
          exact absurd (List.cons.inj hruns).2 (by simp)

end KindLedger

end Hegel
