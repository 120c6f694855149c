/-
Replaying a test case from the values it recorded.  The replayed run is led
through the first one: at every position of every stream it finds the value
that the first run recorded there in the end, so both answer every request
alike.
-/
import Hegel.CloneTree
import Hegel.Reassembly

namespace Hegel

variable {Rng : Type} {sampler : Sampler Rng}

section Family

variable {draws : Nat} {family mirror : FamilyCore}

/-- A family that answers like another one.  Once the first is concluded its
count no longer matters; until then the budget has to cover what the first one
draws, `draws` in the end. -/
structure FamilyCore.Mirrors (draws : Nat) (family mirror : FamilyCore) :
    Prop where
  conclusion : mirror.conclusion = family.conclusion
  freshIds : mirror.freshIds = family.freshIds
  totalDraws : family.conclusion = none →
    mirror.totalDraws = family.totalDraws
  budget : family.budget ≤ mirror.budget ∨ draws ≤ mirror.budget

theorem FamilyCore.Mirrors.overran (hmirrors : family.Mirrors draws mirror)
    (taken taken' : Nat) :
    (family.overran taken).Mirrors draws (mirror.overran taken') where
  conclusion := rfl
  freshIds := hmirrors.freshIds
  totalDraws hopen := by cases hopen
  budget := hmirrors.budget

theorem FamilyCore.Mirrors.counted (hmirrors : family.Mirrors draws mirror) :
    family.counted.Mirrors draws mirror.counted where
  conclusion := hmirrors.conclusion
  freshIds := hmirrors.freshIds
  totalDraws hopen := congrArg (· + 1) (hmirrors.totalDraws hopen)
  budget := hmirrors.budget

theorem FamilyCore.Mirrors.register (hmirrors : family.Mirrors draws mirror)
    (drawn : Drawn) :
    (family.register drawn).Mirrors draws (mirror.register drawn) where
  conclusion := by
    rw [register_conclusion, register_conclusion, hmirrors.conclusion]
  freshIds := register_freshIds drawn hmirrors.freshIds
  totalDraws hopen := by
    rw [register_conclusion] at hopen
    rw [register_totalDraws, register_totalDraws, hmirrors.totalDraws hopen]
  budget := by
    rw [register_budget, register_budget]
    exact hmirrors.budget

theorem FamilyCore.Mirrors.conclude (hmirrors : family.Mirrors draws mirror)
    (status : Status) (origin : Option String) :
    (family.conclude status origin).Mirrors draws
      (mirror.conclude status origin) := by
  cases hconcluded : family.conclusion with
  | none =>
      rw [conclude_open hconcluded,
        conclude_open (hmirrors.conclusion.trans hconcluded)]
      exact ⟨rfl, hmirrors.freshIds, (fun h => by cases h), hmirrors.budget⟩
  | some verdict =>
      rw [conclude_concluded hconcluded,
        conclude_concluded (hmirrors.conclusion.trans hconcluded)]
      exact hmirrors

theorem freezeStream_mirrors (hmirrors : family.Mirrors draws mirror)
    (record : StreamRecord) :
    (freezeStream mirror record).2 = (freezeStream family record).2 ∧
      (freezeStream family record).1.Mirrors draws
        (freezeStream mirror record).1 := by
  rw [freezeStream, freezeStream]
  cases record.frozen with
  | true => exact ⟨rfl, hmirrors⟩
  | false => exact ⟨rfl, hmirrors.conclude .valid none⟩

/-- Operations that draw nothing only look at the record. -/
theorem recordStep_mirrors (hmirrors : family.Mirrors draws mirror)
    (record : StreamRecord) (op : RecordOp) :
    (recordStep mirror record op).1 = (recordStep family record op).1 ∧
      (recordStep mirror record op).2.2 = (recordStep family record op).2.2 ∧
        (recordStep family record op).2.1.Mirrors draws
          (recordStep mirror record op).2.1 := by
  cases op with
  | startSpan label =>
      rw [recordStep, recordStep, startSpan, startSpan]
      by_cases hdeep : record.spanStack.length + 1 > maxDepth
      · simp only [if_pos hdeep]
        obtain ⟨hrecord, hfamily⟩ := freezeStream_mirrors
          (hmirrors.conclude .invalid none) (record.startSpan label)
        exact ⟨trivial, hrecord, hfamily⟩
      · simp only [if_neg hdeep]
        exact ⟨trivial, trivial, hmirrors⟩
  | stopSpan discard => exact ⟨rfl, rfl, hmirrors⟩
  | freeze =>
      obtain ⟨hrecord, hfamily⟩ := freezeStream_mirrors hmirrors record
      exact ⟨rfl, hrecord, hfamily⟩
  | conclude status origin => exact ⟨rfl, rfl, hmirrors.conclude status origin⟩

/-- A draw only asks its family which identifiers are in use. -/
theorem DrawOp.request_mirrors (hmirrors : family.Mirrors draws mirror)
    (op : DrawOp) : op.request sampler mirror = op.request sampler family := by
  cases op with
  | freshId => rw [DrawOp.request, DrawOp.request, hmirrors.freshIds]
  | fromSet members => rw [DrawOp.request, DrawOp.request, hmirrors.freshIds]
  | _ => rfl

end Family

/-- Whether a case ran out of data. -/
def TestCaseFamily.Overran (state : TestCaseFamily Rng) : Prop :=
  ∃ origin, state.family.conclusion = some (.earlyStop, origin)

/-- The case does not end as an invalid one. -/
def TestCaseFamily.Completes (state : TestCaseFamily Rng) : Prop :=
  ∀ origin, state.family.conclusion ≠ some (.invalid, origin)

/-- The input replays what its stream has recorded in the end, and then
either ends or is not reached again. -/
structure Feeds (final : TestCaseFamily Rng) (handle : Nat)
    (input : StreamInput Rng) : Prop where
  template : input.trailingTemplate = none
  values : ∀ stream, final.streams[handle]? = some stream →
    valueRefs input.prefixValues = nodeRefs (final.realized stream.record)
  room : min input.prefixValues.length usizeMax ≤ input.maxSize
  ends : input.rng = none ∧ input.maxSize ≤ input.prefixValues.length ∨
    ¬final.Overran

/-- A test case that answers like another one that ends in `final`. -/
structure TestCaseFamily.Mirrors (final state mirror : TestCaseFamily Rng) :
    Prop where
  records : mirror.records = state.records
  family : state.family.Mirrors final.family.totalDraws mirror.family
  feeds : ∀ (handle : Nat) (stream : NativeTestCase Rng),
    mirror.streams[handle]? = some stream → Feeds final handle stream.input
  ordered : state.Ordered
  budget : state.family.budget ≤ usizeMax

section Positions

variable {final : TestCaseFamily Rng} {handle : Nat}
  {input : StreamInput Rng}

theorem valueRefs_getElem? {values : List ChoiceValue}
    {nodes : List ChoiceNode} (hrefs : valueRefs values = nodeRefs nodes)
    {idx : Nat} {node : ChoiceNode} (hnode : nodes[idx]? = some node) :
    ∃ value, values[idx]? = some value ∧ value.ref = node.valueRef := by
  rw [valueRefs_eq_map, nodeRefs_eq_map] at hrefs
  have hat := congrArg (fun refs => refs[idx]?) hrefs
  simp only [List.getElem?_map, hnode, Option.map_some,
    Option.map_eq_some_iff] at hat
  exact hat

theorem length_of_valueRefs {values : List ChoiceValue}
    {nodes : List ChoiceNode} (hrefs : valueRefs values = nodeRefs nodes) :
    values.length = nodes.length := by
  rw [valueRefs_eq_map, nodeRefs_eq_map] at hrefs
  simpa using congrArg List.length hrefs

/-- The values of recorded nodes read as the nodes do. -/
theorem valueRefs_map_value (nodes : List ChoiceNode) :
    valueRefs (nodes.map ChoiceNode.value) = nodeRefs nodes := by
  rw [valueRefs_eq_map, nodeRefs_eq_map, List.map_map]
  exact List.map_congr_left fun node _ => node.ref_value

/-- A clone is read through its child values. -/
theorem CloneRecord.valueRefs_ownedValues {record : CloneRecord}
    {flatLen : Nat} {refs : List ChoiceValueRef}
    (href : record.ref = .clone flatLen refs) :
    valueRefs record.ownedValues = refs := by
  cases record with
  | values values flatLen' =>
      rw [CloneRecord.ref, ChoiceValueRef.clone.injEq] at href
      exact href.2
  | realized stream =>
      obtain ⟨nodes, spans, flatLen'⟩ := stream
      rw [CloneRecord.ref, RealizedStream.valueRef,
        ChoiceValueRef.clone.injEq] at href
      rw [← href.2]
      exact valueRefs_map_value nodes

theorem pushed_getElem? {record : StreamRecord} {node : ChoiceNode}
    {nodes : List ChoiceNode} (hgrows : (record.pushNode node).nodes <+: nodes) :
    nodes[record.nodes.length]? = some node := by
  obtain ⟨rest, rfl⟩ := hgrows
  rw [StreamRecord.pushNode, List.append_assoc,
    List.getElem?_append_right (le_refl _), Nat.sub_self]
  rfl

/-- A node that was pushed stays where it is, unless it stands for a clone. -/
theorem realized_pushNode {record later : StreamRecord} {node : ChoiceNode}
    (hordered : record.ChildrenOrdered)
    (hgrows : (record.pushNode node).Grows later) :
    (final.realized later)[record.nodes.length]? = some node := by
  obtain ⟨extra, hextra, hbound⟩ := hgrows.cloneChildren
  have hnode := pushed_getElem? hgrows.nodes
  rw [TestCaseFamily.realized, StreamRecord.reassemble_getElem?_of_ne, hnode]
  intro child hchild heq
  rw [hextra] at hchild
  rcases List.mem_append.mp hchild with hmem | hmem
  · have hlt := hordered.within child hmem
    omega
  · have hle := hbound child hmem
    rw [StreamRecord.pushNode, List.length_append, List.length_singleton] at hle
    omega

/-- The position of a clone holds what its stream has in the end. -/
theorem realized_pushClone {record later : StreamRecord}
    {child : NativeTestCase Rng} {childHandle : Nat}
    (hordered : later.ChildrenOrdered)
    (hgrows : (record.pushClone childHandle).Grows later)
    (hchild : final.streams[childHandle]? = some child)
    (hdepth : record.cloneId.length + 1 ≤ maxCloneDepth)
    (hlevel : child.record.cloneId.length = record.cloneId.length + 1) :
    ∃ spans wasForced, (final.realized later)[record.nodes.length]? =
      some (.mk (.clone (.new (final.realized child.record) spans))
        wasForced) := by
  obtain ⟨extra, hextra, -⟩ := hgrows.cloneChildren
  have hmem : (record.nodes.length, childHandle) ∈ later.cloneChildren := by
    rw [hextra]
    exact List.mem_append_left _ (List.mem_append_right _
      (List.mem_singleton_self _))
  have hlater : later.cloneId.length = record.cloneId.length :=
    congrArg List.length hgrows.cloneId
  rw [← hlater] at hdepth hlevel
  exact ⟨_, _, realized_child hordered hmem (pushed_getElem? hgrows.nodes) hchild
    hdepth hlevel⟩

theorem Feeds.length (hfeeds : Feeds final handle input)
    {stream : NativeTestCase Rng}
    (hstream : final.streams[handle]? = some stream) :
    input.prefixValues.length = stream.record.nodes.length := by
  rw [length_of_valueRefs (hfeeds.values stream hstream),
    TestCaseFamily.realized, StreamRecord.length_reassemble]

/-- The stream of a replayed clone replays the clone. -/
theorem Feeds.forClone (hfeeds : Feeds final handle input)
    {parent child : NativeTestCase Rng} {idx childHandle : Nat}
    (hparent : final.streams[handle]? = some parent)
    (hchild : final.streams[childHandle]? = some child)
    {spans : List Span} {wasForced : Bool}
    (hnode : (final.realized parent.record)[idx]? =
      some (.mk (.clone (.new (final.realized child.record) spans)) wasForced))
    {childRng : Option Rng} (hrng : input.rng = none → childRng = none) :
    Feeds final childHandle (input.forClone idx childRng) := by
  obtain ⟨value, hvalue, href⟩ :=
    valueRefs_getElem? (hfeeds.values parent hparent) hnode
  obtain ⟨record, rfl⟩ : ∃ record, value = .clone record := by
    cases value with
    | clone record => exact ⟨record, rfl⟩
    | _ => cases href
  have hrefs : valueRefs record.ownedValues =
      nodeRefs (final.realized child.record) :=
    CloneRecord.valueRefs_ownedValues href
  have hchildPrefix : input.childPrefix idx =
      (record.ownedValues, record.realizedNodes) := by
    rw [StreamInput.childPrefix, hvalue]
  have htemplate := hfeeds.template
  rw [StreamInput.forClone, hchildPrefix, htemplate]
  cases childRng with
  | some rng =>
      refine ⟨rfl, ?_, Nat.min_le_right _ _, .inr ?_⟩
      · intro stream hstream
        rw [hchild, Option.some.injEq] at hstream
        rw [← hstream]
        exact hrefs
      · rcases hfeeds.ends with ⟨hnone, -⟩ | hran
        · cases hrng hnone
        · exact hran
  | none =>
      refine ⟨rfl, ?_, Nat.min_le_left _ _, .inl ⟨rfl, le_refl _⟩⟩
      intro stream hstream
      rw [hchild, Option.some.injEq] at hstream
      rw [← hstream]
      exact hrefs

/-- Splitting off a source of randomness does not change what is replayed. -/
theorem Feeds.spawn (hfeeds : Feeds final handle input) :
    Feeds final handle (input.spawn sampler).2 := by
  rw [StreamInput.spawn]
  cases hrng : input.rng with
  | none => exact hfeeds
  | some rng =>
      refine ⟨hfeeds.template, hfeeds.values, hfeeds.room, .inr ?_⟩
      rcases hfeeds.ends with ⟨hnone, -⟩ | hran
      · rw [hrng] at hnone
        cases hnone
      · exact hran

theorem spawn_none (hrng : input.rng = none) :
    (input.spawn sampler).1 = none := by
  rw [StreamInput.spawn, hrng]

end Positions

section Simulation

variable {final state mirror next : TestCaseFamily Rng}
  {request : StreamRequest} {reply : StreamReply}

/-- Every stream has its copy. -/
theorem TestCaseFamily.Mirrors.copy (hmirrors : mirror.records = state.records)
    {handle : Nat} {stream : NativeTestCase Rng}
    (hstream : state.streams[handle]? = some stream) :
    ∃ input, mirror.streams[handle]? = some ⟨stream.record, input⟩ := by
  have hat := congrArg (fun records => records[handle]?) hmirrors
  simp only [TestCaseFamily.records, List.getElem?_map, hstream,
    Option.map_some, Option.map_eq_some_iff] at hat
  obtain ⟨copy, hcopy, hrecord⟩ := hat
  exact ⟨copy.input, by rw [hcopy, ← hrecord]⟩

/-- The same record on both sides, with what the copy replays. -/
theorem TestCaseFamily.Mirrors.set
    (hmirrors : TestCaseFamily.Mirrors final state mirror)
    {family mirrorFamily : FamilyCore}
    (hfamily : family.Mirrors final.family.totalDraws mirrorFamily)
    {handle : Nat} {record : StreamRecord} {input copyInput : StreamInput Rng}
    (hfeeds : Feeds final handle copyInput)
    (hordered : TestCaseFamily.Ordered
      ⟨family, state.streams.set handle ⟨record, input⟩⟩)
    (hbudget : family.budget ≤ usizeMax) :
    TestCaseFamily.Mirrors final
      ⟨family, state.streams.set handle ⟨record, input⟩⟩
      ⟨mirrorFamily, mirror.streams.set handle ⟨record, copyInput⟩⟩ where
  records := by
    have hrecords := hmirrors.records
    simp only [TestCaseFamily.records, List.map_set] at hrecords ⊢
    rw [hrecords]
  family := hfamily
  feeds handle' stream hstream := by
    by_cases hsame : handle = handle'
    · subst hsame
      have hlt : handle < mirror.streams.length := by
        have hlt := (List.getElem?_eq_some_iff.mp hstream).1
        rwa [List.length_set] at hlt
      rw [List.getElem?_set_self hlt, Option.some.injEq] at hstream
      rw [← hstream]
      exact hfeeds
    · rw [List.getElem?_set_ne hsame] at hstream
      exact hmirrors.feeds handle' stream hstream
  ordered := hordered
  budget := hbudget

/-- Where the first run overran, the copy is full. -/
theorem TestCaseFamily.Mirrors.full
    (hmirrors : TestCaseFamily.Mirrors final state mirror)
    {stream : NativeTestCase Rng} {input : StreamInput Rng}
    (hstream : state.streams[request.handle]? = some stream)
    (hcopy : mirror.streams[request.handle]? = some ⟨stream.record, input⟩)
    {draws : Nat} (hreaches : Interaction.Reaches (step sampler)
      ⟨state.family.overran draws, state.streams⟩ final) :
    input.maxSize ≤ stream.record.nodes.length := by
  have hfeeds := hmirrors.feeds _ _ hcopy
  obtain ⟨hconcluded, hfollows⟩ :=
    (TestCaseFamily.grows_of_reaches hreaches).concluded _ rfl
  obtain ⟨later, hlater, hsame⟩ := hfollows _ _ hstream
  have hlength := hfeeds.length hlater
  rw [hsame.nodes] at hlength
  rcases hfeeds.ends with ⟨-, hends⟩ | hran
  · exact hends.trans hlength.le
  · exact absurd ⟨none, hconcluded⟩ hran

/-- Where the first run recorded something, the copy has room for it. -/
theorem TestCaseFamily.Mirrors.room
    (hmirrors : TestCaseFamily.Mirrors final state mirror)
    {stream : NativeTestCase Rng} {input : StreamInput Rng}
    (hstream : state.streams[request.handle]? = some stream)
    (hcopy : mirror.streams[request.handle]? = some ⟨stream.record, input⟩)
    (hopen : state.family.conclusion = none)
    (hbudget : state.family.totalDraws < state.family.budget)
    (hdraws : state.family.totalDraws < final.family.totalDraws)
    (hlt : stream.record.nodes.length < input.prefixValues.length) :
    stream.record.nodes.length < input.maxSize ∧
      mirror.family.totalDraws < mirror.family.budget := by
  have hroom := (hmirrors.feeds _ _ hcopy).room
  have hcounted :=
    hmirrors.ordered.counted stream (List.mem_of_getElem? hstream)
  have husize := hmirrors.budget
  have htotal := hmirrors.family.totalDraws hopen
  have hcovered := hmirrors.family.budget
  constructor
  · simp only [] at hroom
    omega
  · omega

theorem mirrors_draw {op : DrawOp}
    (hmirrors : TestCaseFamily.Mirrors final state mirror)
    (hop : request.op = .draw op)
    (hanswer : step sampler state request = .ok (reply, next))
    (hreaches : Interaction.Reaches (step sampler) next final)
    {stream : NativeTestCase Rng}
    (hstream : state.streams[request.handle]? = some stream) :
    ∃ next', step sampler mirror request = .ok (reply, next') ∧
      TestCaseFamily.Mirrors final next next' := by
  have hgrows := TestCaseFamily.grows_of_reaches hreaches
  have hordered := TestCaseFamily.ordered_step hmirrors.ordered hanswer
  have hbudgetNext : next.family.budget ≤ usizeMax := by
    rw [(TestCaseFamily.grows_step hanswer).budget]
    exact hmirrors.budget
  obtain ⟨input, hcopy⟩ := TestCaseFamily.Mirrors.copy hmirrors.records hstream
  have hfeeds : Feeds final request.handle input :=
    hmirrors.feeds _ _ hcopy
  rw [step] at hanswer ⊢
  simp only [hstream, hop] at hanswer
  simp only [hcopy, hop]
  obtain ⟨drawRequest, hrequest, hrest⟩ := bind_eq_ok hanswer
  obtain ⟨answer, hperformed, heq⟩ := bind_eq_ok hrest
  rw [DrawOp.request_mirrors hmirrors.family, hrequest]
  cases performDraw_cases hperformed with
  | refused hconcluded =>
      cases heq
      have hrefused : performDraw drawRequest mirror.family
          ⟨stream.record, input⟩ = _ :=
        performDraw_concluded _ (hmirrors.family.conclusion.trans hconcluded)
      refine ⟨_, by simp only [bind, Except.bind, hrefused]; rfl, ?_⟩
      exact hmirrors.set hmirrors.family hfeeds hordered hbudgetNext
  | overran draws hopen hdraws =>
      cases heq
      rw [set_getElem?_self hstream] at hreaches
      have hfull := hmirrors.full hstream hcopy hreaches
      have hoverran : performDraw drawRequest mirror.family
          ⟨stream.record, input⟩ = _ :=
        performDraw_full _ (hmirrors.family.conclusion.trans hopen) hfull
      refine ⟨_, by simp only [bind, Except.bind, hoverran]; rfl, ?_⟩
      exact hmirrors.set (hmirrors.family.overran _ _) hfeeds hordered
        hbudgetNext
  | drew drawn drawnInput wasForced hopen hbudget hproduces =>
      cases heq
      have hmem := List.mem_of_getElem? hstream
      have hhandle := (List.getElem?_eq_some_iff.mp hstream).1
      -- in the end the drawn node stands where it was recorded
      obtain ⟨later, hlater, hlaterGrows⟩ :=
        hgrows.streams request.handle _ (List.getElem?_set_self hhandle)
      obtain ⟨value, hvalue, href⟩ := valueRefs_getElem?
        (hfeeds.values later hlater)
        (realized_pushNode (hmirrors.ordered.children stream hmem) hlaterGrows)
      have hlt := (List.getElem?_eq_some_iff.mp hvalue).1
      have hdraws := hgrows.totalDraws
      rw [FamilyCore.register_totalDraws] at hdraws
      obtain ⟨hroom, hcovered⟩ :=
        hmirrors.room hstream hcopy hopen hbudget hdraws hlt
      have hreplays : performDraw drawRequest mirror.family
          ⟨stream.record, input⟩ = _ :=
        performDraw_replays (DrawOp.request_lawful sampler hrequest) hproduces
          (hmirrors.family.conclusion.trans hopen) hroom hcovered hvalue
          (href.trans (ChoiceData.ref_value _).symm)
      refine ⟨_, by simp only [bind, Except.bind, hreplays]; rfl, ?_⟩
      exact hmirrors.set (hmirrors.family.counted.register drawn) hfeeds
        hordered hbudgetNext

theorem mirrors_clone
    (hmirrors : TestCaseFamily.Mirrors final state mirror)
    (hop : request.op = .cloneStream)
    (hanswer : step sampler state request = .ok (reply, next))
    (hreaches : Interaction.Reaches (step sampler) next final)
    {stream : NativeTestCase Rng}
    (hstream : state.streams[request.handle]? = some stream)
    (hdepth : stream.record.cloneId.length + 1 ≤ maxCloneDepth ∨
      final.Completes) :
    ∃ next', step sampler mirror request = .ok (reply, next') ∧
      TestCaseFamily.Mirrors final next next' := by
  have hgrows := TestCaseFamily.grows_of_reaches hreaches
  have hordered := TestCaseFamily.ordered_step hmirrors.ordered hanswer
  have hbudgetNext : next.family.budget ≤ usizeMax := by
    rw [(TestCaseFamily.grows_step hanswer).budget]
    exact hmirrors.budget
  obtain ⟨input, hcopy⟩ := TestCaseFamily.Mirrors.copy hmirrors.records hstream
  have hfeeds : Feeds final request.handle input :=
    hmirrors.feeds _ _ hcopy
  have hfinal : final.Ordered :=
    hreaches.invariant (fun _ _ _ _ => TestCaseFamily.ordered_step) hordered
  rw [step] at hanswer ⊢
  simp only [hstream, hop] at hanswer
  simp only [hcopy, hop]
  have hcases := cloneStream_cases sampler state request.handle stream
  generalize cloneStream sampler state request.handle stream = answer
    at hanswer hcases
  cases hanswer
  cases hcases with
  | refused hconcluded =>
      rw [cloneStream_concluded (hmirrors.family.conclusion.trans hconcluded)]
      exact ⟨_, rfl, hmirrors⟩
  | overran draws hopen hdraws =>
      have hfull := hmirrors.full hstream hcopy hreaches
      rw [cloneStream_full (hmirrors.family.conclusion.trans hopen) hfull]
      exact ⟨_, rfl, hmirrors.records, hmirrors.family.overran _ _,
        hmirrors.feeds, hordered, hbudgetNext⟩
  | tooDeep hopen hbudget htooDeep =>
      rcases hdepth with hdepth | hcompletes
      · omega
      · exact absurd (hgrows.concluded _ rfl).1 (hcompletes none)
  | cloned hopen hbudget hwithin =>
      have hmem := List.mem_of_getElem? hstream
      have hhandle := (List.getElem?_eq_some_iff.mp hstream).1
      have hcount : mirror.streams.length = state.streams.length := by
        simpa [TestCaseFamily.records] using
          congrArg List.length hmirrors.records
      -- in the end the clone's position holds the clone's own record
      obtain ⟨later, hlater, hlaterGrows⟩ :=
        hgrows.streams request.handle ⟨stream.record.pushClone
            state.streams.length, (stream.input.spawn sampler).2⟩ (by
          rw [TestCaseFamily.addClone, List.getElem?_append_left (by simpa),
            List.getElem?_set_self hhandle])
      obtain ⟨child, hchild, hchildGrows⟩ :=
        hgrows.streams state.streams.length _ (by
          rw [TestCaseFamily.addClone, List.getElem?_append_right (by simp),
            List.length_set, Nat.sub_self]
          rfl)
      have hlevel : child.record.cloneId.length =
          stream.record.cloneId.length + 1 := by
        rw [hchildGrows.cloneId]
        exact List.length_append
      obtain ⟨spans, wasForced, hnode⟩ := realized_pushClone
        (hfinal.children later (List.mem_of_getElem? hlater)) hlaterGrows
        hchild hwithin hlevel
      obtain ⟨value, hvalue, -⟩ :=
        valueRefs_getElem? (hfeeds.values later hlater) hnode
      have hlt := (List.getElem?_eq_some_iff.mp hvalue).1
      obtain ⟨hroom, hcovered⟩ :=
        hmirrors.room hstream hcopy hopen hbudget hgrows.totalDraws hlt
      have htaken : cloneStream sampler mirror request.handle
          ⟨stream.record, input⟩ = _ :=
        cloneStream_taken (hmirrors.family.conclusion.trans hopen) hroom
          hcovered hwithin
      rw [htaken, hcount]
      refine ⟨_, rfl, ?_, hmirrors.family.counted, ?_, hordered, hbudgetNext⟩
      · have hrecords := hmirrors.records
        simp only [TestCaseFamily.records, TestCaseFamily.addClone,
          List.map_append, List.map_set] at hrecords ⊢
        rw [hrecords, hcount]
        rfl
      · intro handle' stream' hstream'
        rw [TestCaseFamily.addClone] at hstream'
        by_cases hnew : handle' < mirror.streams.length
        · rw [List.getElem?_append_left (by rwa [List.length_set])] at hstream'
          by_cases hsame : request.handle = handle'
          · subst hsame
            rw [List.getElem?_set_self hnew, Option.some.injEq] at hstream'
            rw [← hstream']
            exact hfeeds.spawn
          · rw [List.getElem?_set_ne hsame] at hstream'
            exact hmirrors.feeds handle' stream' hstream'
        · rw [List.getElem?_append_right (by simpa using hnew),
            List.length_set, List.getElem?_singleton] at hstream'
          by_cases hlast : handle' - mirror.streams.length = 0
          · rw [if_pos hlast, Option.some.injEq] at hstream'
            have hchildHandle : handle' = state.streams.length := by omega
            rw [← hstream', hchildHandle]
            exact hfeeds.forClone hlater hchild hnode spawn_none
          · rw [if_neg hlast] at hstream'
            cases hstream'

theorem mirrors_record {op : RecordOp}
    (hmirrors : TestCaseFamily.Mirrors final state mirror)
    (hop : request.op = .record op)
    (hanswer : step sampler state request = .ok (reply, next))
    {stream : NativeTestCase Rng}
    (hstream : state.streams[request.handle]? = some stream) :
    ∃ next', step sampler mirror request = .ok (reply, next') ∧
      TestCaseFamily.Mirrors final next next' := by
  have hordered := TestCaseFamily.ordered_step hmirrors.ordered hanswer
  have hbudgetNext : next.family.budget ≤ usizeMax := by
    rw [(TestCaseFamily.grows_step hanswer).budget]
    exact hmirrors.budget
  obtain ⟨input, hcopy⟩ := TestCaseFamily.Mirrors.copy hmirrors.records hstream
  obtain ⟨hreply, hrecord, hfamily⟩ :=
    recordStep_mirrors hmirrors.family stream.record op
  rw [step] at hanswer ⊢
  simp only [hstream, hop] at hanswer
  simp only [hcopy, hop]
  cases hanswer
  rw [hreply, hrecord]
  exact ⟨_, rfl, hmirrors.set hfamily (hmirrors.feeds _ _ hcopy) hordered
    hbudgetNext⟩

/-- A request that would nest clones too deeply is not made. -/
def WithinCloneDepth (state : TestCaseFamily Rng) (request : StreamRequest) :
    Prop :=
  request.op = .cloneStream →
    ∀ stream, state.streams[request.handle]? = some stream →
      stream.record.cloneId.length + 1 ≤ maxCloneDepth

/-- The copy answers as the first run did. -/
theorem mirrors_step
    (hmirrors : TestCaseFamily.Mirrors final state mirror)
    (hdepth : WithinCloneDepth state request ∨ final.Completes)
    (hanswer : step sampler state request = .ok (reply, next))
    (hreaches : Interaction.Reaches (step sampler) next final) :
    ∃ next', step sampler mirror request = .ok (reply, next') ∧
      TestCaseFamily.Mirrors final next next' := by
  cases hstream : state.streams[request.handle]? with
  | none =>
      have habsent : mirror.streams[request.handle]? = none := by
        have hat := congrArg (fun records => records[request.handle]?)
          hmirrors.records
        simpa [TestCaseFamily.records, hstream] using hat
      rw [step] at hanswer ⊢
      simp only [hstream] at hanswer
      simp only [habsent]
      cases hanswer
      exact ⟨mirror, rfl, hmirrors⟩
  | some stream =>
      cases hop : request.op with
      | draw op => exact mirrors_draw hmirrors hop hanswer hreaches hstream
      | cloneStream =>
          exact mirrors_clone hmirrors hop hanswer hreaches hstream
            (hdepth.imp_left fun hwithin => hwithin hop stream hstream)
      | record op => exact mirrors_record hmirrors hop hanswer hstream

end Simulation

section Execution

variable {body : Body} {fuel : Nat} {start mirror : TestCaseFamily Rng}
  {execution : Execution}

/-- A finished execution with its run. -/
theorem execute_eq_some
    (hrun : execute sampler body fuel start = .ok (some execution)) :
    ∃ finished, Interaction.run (step sampler) body fuel [] start =
        .ok (some finished) ∧
      finished.replies = execution.replies ∧
        takeRun (finished.state.markComplete finished.verdict) =
          some execution.run := by
  rw [execute] at hrun
  split at hrun
  case h_1 => cases hrun
  case h_2 => cases hrun
  case h_3 finished hfinished =>
    rw [Except.ok.injEq, Option.map_eq_some_iff] at hrun
    obtain ⟨run, htake, rfl⟩ := hrun
    exact ⟨finished, hfinished, rfl, htake⟩

/-- More fuel does not change a finished execution. -/
theorem execute_mono {fuel' : Nat} (hle : fuel ≤ fuel')
    (hrun : execute sampler body fuel start = .ok (some execution)) :
    execute sampler body fuel' start = .ok (some execution) := by
  obtain ⟨finished, hfinished, hreplies, htake⟩ := execute_eq_some hrun
  rw [execute, Interaction.run_mono hle hfinished]
  simp only [htake, hreplies, Option.map_some]

/-- The result only depends on the conclusion and the records. -/
theorem takeRun_mirrors {final final' : TestCaseFamily Rng}
    (hmirrors : TestCaseFamily.Mirrors final final final')
    (outcome : Outcome) :
    takeRun (final'.markComplete outcome) =
      takeRun (final.markComplete outcome) := by
  have hconclusion : (final'.markComplete outcome).family.conclusion =
      (final.markComplete outcome).family.conclusion :=
    (hmirrors.family.conclude outcome.1 outcome.2).conclusion
  have hrecords : (final'.markComplete outcome).records =
      (final.markComplete outcome).records := hmirrors.records
  have hnodes : ∀ records record,
      takeNodes (final'.markComplete outcome).family records record =
        takeNodes (final.markComplete outcome).family records record := by
    intro records record
    simp only [takeNodes, hconclusion]
  rw [takeRun, takeRun, hrecords, hconclusion]
  simp only [hnodes]

/-- A test case that has concluded stays as it has, whatever its outcome. -/
theorem status_of_takeRun {final : TestCaseFamily Rng} {outcome : Outcome}
    {run : RunResult} {status : Status} {origin : Option String}
    (htake : takeRun (final.markComplete outcome) = some run)
    (hconcluded : final.family.conclusion = some (status, origin)) :
    run.status = status := by
  have hstands : (final.markComplete outcome).family.conclusion =
      some (status, origin) := by
    rw [TestCaseFamily.markComplete]
    simp only [FamilyCore.conclude_concluded hconcluded, hconcluded]
  rw [takeRun, hstands] at htake
  cases hroot : (final.markComplete outcome).records.head? with
  | none => simp [hroot] at htake
  | some root =>
      simp only [hroot, takeOutcome, Option.some.injEq] at htake
      rw [← htake]
      cases status <;> rfl

/-- A run that is not reported as invalid was not concluded as invalid. -/
theorem completes_of_takeRun {final : TestCaseFamily Rng} {outcome : Outcome}
    {run : RunResult} (htake : takeRun (final.markComplete outcome) = some run)
    (hstatus : run.status ≠ .invalid) : final.Completes :=
  fun _ hinvalid => hstatus (status_of_takeRun htake hinvalid)

/-- A test case that is led through another one has its result, if no clone is
too deep or the result shows that none was. -/
theorem execute_mirrors
    (hrun : execute sampler body fuel start = .ok (some execution))
    (hdepth : Interaction.Along (step sampler) WithinCloneDepth body fuel []
      start ∨ execution.run.status ≠ .invalid)
    (hmirrors : ∀ finished, Interaction.run (step sampler) body fuel [] start =
        .ok (some finished) →
      takeRun (finished.state.markComplete finished.verdict) =
        some execution.run →
      TestCaseFamily.Mirrors finished.state start mirror) :
    execute sampler body fuel mirror = .ok (some execution) := by
  obtain ⟨finished, hfinished, hreplies, htake⟩ := execute_eq_some hrun
  have hstart := hmirrors finished hfinished htake
  have hsimulated : ∃ final', Interaction.run (step sampler) body fuel []
      mirror = .ok (some ⟨finished.verdict, finished.replies, final'⟩) ∧
        TestCaseFamily.Mirrors finished.state finished.state final' := by
    rcases hdepth with hdepth | hstatus
    · exact Interaction.run_simulates
        (fun (final state mirror : TestCaseFamily Rng) _ _ _ hmirrors hwithin =>
          mirrors_step hmirrors (.inl hwithin))
        hfinished hdepth hstart
    · have hcompletes := completes_of_takeRun htake hstatus
      have hstep : ∀ (final state mirror : TestCaseFamily Rng)
          (request : StreamRequest) (reply : StreamReply)
          (next : TestCaseFamily Rng),
          final.Completes ∧ TestCaseFamily.Mirrors final state mirror →
          True → step sampler state request = .ok (reply, next) →
          Interaction.Reaches (step sampler) next final →
          ∃ next', step sampler mirror request = .ok (reply, next') ∧
            (final.Completes ∧ TestCaseFamily.Mirrors final next next') := by
        intro final state mirror request reply next hrelated _ hanswer hreaches
        obtain ⟨next', hanswer', hnext⟩ :=
          mirrors_step hrelated.2 (.inr hrelated.1) hanswer hreaches
        exact ⟨next', hanswer', hrelated.1, hnext⟩
      obtain ⟨final', hrun', hrelated⟩ := Interaction.run_simulates hstep
        hfinished (Interaction.along_true _ _ _) ⟨hcompletes, hstart⟩
      exact ⟨final', hrun', hrelated.2⟩
  obtain ⟨final', hfinal', hrelated⟩ := hsimulated
  rw [execute, hfinal']
  simp only [takeRun_mirrors hrelated, htake, hreplies, Option.map_some]

theorem family_start (input : StreamInput Rng) (budget : Nat) :
    (TestCaseFamily.start input budget).family = .new (min budget usizeMax) :=
  rfl

/-- A case that is given the recorded values is led through the first run, if
it ends with them or the first run did not overrun. -/
theorem start_mirrors {input input' : StreamInput Rng} {budget budget' : Nat}
    {finished : Finished (TestCaseFamily Rng) StreamReply Outcome}
    {run : RunResult}
    (hfinished : Interaction.run (step sampler) body fuel []
      (.start input budget) = .ok (some finished))
    (htake : takeRun (finished.state.markComplete finished.verdict) = some run)
    (htemplate : input'.trailingTemplate = none)
    (hvalues : valueRefs input'.prefixValues = nodeRefs run.nodes)
    (hroom : min input'.prefixValues.length usizeMax ≤ input'.maxSize)
    (hends : input'.rng = none ∧ input'.maxSize ≤ input'.prefixValues.length ∨
      ¬finished.state.Overran)
    (hbudget : min budget usizeMax ≤ min budget' usizeMax ∨
      finished.state.family.totalDraws ≤ min budget' usizeMax) :
    TestCaseFamily.Mirrors finished.state (.start input budget)
      (.start input' budget') := by
  obtain ⟨root, hroot, hnodes, -⟩ :=
    takeRun_root (Interaction.reaches_of_run hfinished) htake
  refine ⟨rfl, ⟨rfl, rfl, fun _ => rfl, hbudget⟩, ?_,
    TestCaseFamily.ordered_start input budget, Nat.min_le_right _ _⟩
  intro handle stream hstream
  cases handle with
  | succ handle => cases hstream
  | zero =>
      cases hstream
      refine ⟨htemplate, ?_, hroom, hends⟩
      intro root' hroot'
      rw [hroot, Option.some.injEq] at hroot'
      rw [← hroot', ← hnodes]
      exact hvalues

/-- A replay of the recorded values is led through the first run. -/
theorem forChoices_mirrors {input : StreamInput Rng} {budget : Nat}
    {finished : Finished (TestCaseFamily Rng) StreamReply Outcome}
    {run : RunResult}
    (hfinished : Interaction.run (step sampler) body fuel []
      (.start input budget) = .ok (some finished))
    (htake : takeRun (finished.state.markComplete finished.verdict) = some run)
    {choices : List ChoiceValue} (hvalues : valueRefs choices = nodeRefs run.nodes)
    (prefixNodes : Option (List ChoiceNode)) :
    TestCaseFamily.Mirrors finished.state (.start input budget)
      (forChoices choices prefixNodes) := by
  apply start_mirrors hfinished htake rfl hvalues
  · exact (Nat.min_le_left _ _).trans (Nat.le_max_right _ _)
  · exact .inl ⟨rfl, max_le (le_refl _) (le_refl _)⟩
  · exact .inl (le_min (Nat.min_le_right _ _) (Nat.min_le_right _ _))

/-- The nodes of an execution are those at its root, put together. -/
theorem execute_reassembled {input : StreamInput Rng} {budget : Nat}
    (hrun : execute sampler body fuel (.start input budget) =
      .ok (some execution)) :
    ∃ finished root, Interaction.run (step sampler) body fuel []
        (.start input budget) = .ok (some finished) ∧
      ((finished.state.markComplete finished.verdict).reassemble
        0).streams[0]? = some root ∧
      execution.run.nodes = root.record.nodes := by
  obtain ⟨finished, hfinished, -, htake⟩ := execute_eq_some hrun
  obtain ⟨root, hroot, hnodes, -⟩ := TestCaseFamily.reassemble_root
    (Interaction.reaches_of_run hfinished) htake
  exact ⟨finished, root, hfinished, hroot, hnodes⟩

/-- Replay is a fixpoint: the body sees the same replies, records the same
nodes and spans, and ends with the same status and origin, when it is run
again on the values of its first run, which are those at its root when that is
put together. -/
theorem replay_fixpoint (sampler : Sampler Rng) (body : Body) (fuel : Nat)
    (input : StreamInput Rng) (budget : Nat) (execution : Execution)
    (prefixNodes : Option (List ChoiceNode))
    (hrun : execute sampler body fuel (.start input budget) =
      .ok (some execution))
    (hdepth : Interaction.Along (step sampler) WithinCloneDepth body fuel []
      (.start input budget)) :
    execute sampler body fuel
        (forChoices (execution.run.nodes.map ChoiceNode.value) prefixNodes) =
      .ok (some execution) ∧
    ∃ finished root, Interaction.run (step sampler) body fuel []
        (.start input budget) = .ok (some finished) ∧
      ((finished.state.markComplete finished.verdict).reassemble
        0).streams[0]? = some root ∧
      execution.run.nodes = root.record.nodes := by
  refine ⟨?_, execute_reassembled hrun⟩
  apply execute_mirrors hrun (.inl hdepth)
  intro finished hfinished htake
  exact forChoices_mirrors hfinished htake (valueRefs_map_value _) prefixNodes

/-- A run that was not reported as invalid needs no bound on its clones. -/
theorem replay_of_not_invalid {input : StreamInput Rng} {budget : Nat}
    (prefixNodes : Option (List ChoiceNode))
    (hrun : execute sampler body fuel (.start input budget) =
      .ok (some execution))
    (hstatus : execution.run.status ≠ .invalid) :
    execute sampler body fuel
        (forChoices (execution.run.nodes.map ChoiceNode.value) prefixNodes) =
      .ok (some execution) := by
  apply execute_mirrors hrun (.inr hstatus)
  intro finished hfinished htake
  exact forChoices_mirrors hfinished htake (valueRefs_map_value _) prefixNodes

end Execution

section Depth

/-- Clones nest no deeper than there were requests. -/
theorem along_withinCloneDepth (body : Body) {fuel depth : Nat}
    (hfuel : depth + fuel ≤ maxCloneDepth) {state : TestCaseFamily Rng}
    (hdepth : ∀ stream ∈ state.streams,
      stream.record.cloneId.length ≤ depth) (replies : List StreamReply) :
    Interaction.Along (step sampler) WithinCloneDepth body fuel replies
      state := by
  induction fuel generalizing depth state replies with
  | zero => exact trivial
  | succ fuel ih =>
      rw [Interaction.Along]
      cases body replies with
      | stop verdict => exact trivial
      | request request =>
          refine ⟨fun _ stream hstream => ?_, fun reply next hanswer => ?_⟩
          · have hle := hdepth stream (List.mem_of_getElem? hstream)
            omega
          · apply @ih (depth + 1) (by omega)
            have hlater : ∀ stream ∈ state.streams,
                stream.record.cloneId.length ≤ depth + 1 :=
              fun stream hstream => (hdepth stream hstream).trans
                (Nat.le_succ depth)
            cases step_cases hanswer with
            | unchanged => exact hlater
            | overran draws hopen hdraws => exact hlater
            | @drew stream op drawRequest drawn input wasForced hstream
                hrequest hopen hbudget hproduces =>
                apply forall_mem_set hlater
                exact hlater stream (List.mem_of_getElem? hstream)
            | @tooDeep stream hstream hop hopen hbudget htooDeep =>
                apply forall_mem_set hlater
                rw [stream.record.sameTree_freeze.cloneId]
                exact hlater stream (List.mem_of_getElem? hstream)
            | @cloned stream childRng input hstream hopen hbudget hwithin =>
                have hmem := List.mem_of_getElem? hstream
                intro stream' hstream'
                rcases List.mem_append.mp hstream' with hold | hnew
                · refine forall_mem_set hlater ?_ _ stream' hold
                  exact hlater stream hmem
                · rw [List.mem_singleton.mp hnew]
                  have hle := hdepth stream hmem
                  simpa [StreamRecord.new] using hle
            | @recorded stream op family record hstream hop hrecorded hfamily hrecord =>
                apply forall_mem_set hlater
                rw [hrecord.cloneId]
                exact hlater stream (List.mem_of_getElem? hstream)

/-- A body that draws, clones, draws from the clone and forces a draw. -/
def cloningBody : Body
  | [] => .request ⟨0, .draw (.integer 0 3)⟩
  | [_] => .request ⟨0, .cloneStream⟩
  | [_, _] => .request ⟨1, .draw .freshId⟩
  | [_, _, _] => .request ⟨0, .draw (.weighted .zero (some true))⟩
  | _ => .stop (.interesting, some "failure")

/-- The first run replays an integer out of range and then follows a
template; its own values are replayed to the same end. -/
theorem replay_fixpoint_sample :
    ∃ execution : Execution,
      execute Sampler.simplest cloningBody 6
          (.start ⟨[.integer 7], none, none, 8, some ⟨.simplest, none⟩⟩ 8) =
        .ok (some execution) ∧
      execution.run.nodes.length = 3 ∧
        execute Sampler.simplest cloningBody 6
            (forChoices (execution.run.nodes.map ChoiceNode.value) none) =
          .ok (some execution) := by
  have hdepth : Interaction.Along (step Sampler.simplest) WithinCloneDepth
      cloningBody 6 [] (.start ⟨[.integer 7], none, none, 8,
        some ⟨.simplest, none⟩⟩ 8) := by
    apply @along_withinCloneDepth _ _ cloningBody 6 0 (by decide)
    intro stream hstream
    rw [List.mem_singleton.mp hstream]
    exact le_refl _
  exact ⟨_, rfl, rfl, (replay_fixpoint _ _ _ _ _ _ none rfl hdepth).1⟩

end Depth

end Hegel
