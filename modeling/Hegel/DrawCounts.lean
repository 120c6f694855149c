/-
How many choices a test case drew.  Every choice stands in the record of one
stream, and putting the streams together puts every record in one place; so the
flattened length of what a case realized is the number of choices in all of its
streams, and the number of its draws.
-/
import Hegel.Conclusion
import Hegel.Replay
import Hegel.NodeValidity
import Hegel.CloneEquality

namespace Hegel

variable {Rng : Type} {sampler : Sampler Rng}

/-- A choice that counts once and caches no wrong length: no clone, or one that
drew nothing. -/
structure ChoiceNode.Single (node : ChoiceNode) : Prop where
  weight : node.data.weight = 1
  coherent : node.Coherent

section Drawing

variable {Value : Type} {drawn : Value → Drawn} {validate : Value → Bool}
  {extract : ChoiceValue → Option Value}
  {simplest unit : Except InternalError Value}
  {sample : Rng → Except InternalError (Value × Rng)}

/-- A typed draw hands out typed values. -/
theorem Draw.typed_drawn {d : Drawn}
    (hd : (Draw.typed drawn validate extract simplest unit sample).Produces d) :
    ∃ v, drawn v = d := by
  cases hd with
  | simplest hdrawn =>
      obtain ⟨v, -, rfl⟩ := map_eq_ok hdrawn
      exact ⟨v, rfl⟩
  | unit hdrawn =>
      obtain ⟨v, -, rfl⟩ := map_eq_ok hdrawn
      exact ⟨v, rfl⟩
  | replayed value hdrawn =>
      obtain ⟨v, -, rfl⟩ := Option.map_eq_some_iff.mp hdrawn
      exact ⟨v, rfl⟩
  | sampled rng rng' hdrawn =>
      obtain ⟨⟨v, rng''⟩, -, heq⟩ := map_eq_ok hdrawn
      cases heq
      exact ⟨v, rfl⟩

theorem weightedWith_scalar {p : Binary64} {forced : Option Bool}
    {sample : Binary64 → Rng → Bool × Rng} {d : Drawn} {wasForced : Bool}
    (hproduces : (weightedWith p forced sample).Produces d wasForced)
    (stream : RealizedStream) : d.data ≠ .clone stream := by
  rw [weightedWith] at hproduces
  cases hforced : forcedBoolean p forced with
  | some f =>
      simp only [hforced] at hproduces
      rw [hproduces.1]
      exact fun h => by cases h
  | none =>
      simp only [hforced] at hproduces
      obtain ⟨v, rfl⟩ := Draw.typed_drawn hproduces.1
      exact fun h => by cases h

/-- No clone is drawn. -/
theorem DrawOp.request_scalar {family : FamilyCore} {op : DrawOp}
    {request : DrawRequest Rng} {d : Drawn} {wasForced : Bool}
    (hrequest : op.request sampler family = .ok request)
    (hproduces : request.Produces d wasForced) (stream : RealizedStream) :
    d.data ≠ .clone stream := by
  cases op with
  | integer minValue maxValue =>
      rw [DrawOp.request, drawInteger] at hrequest
      split at hrequest
      case isFalse => cases hrequest
      case isTrue =>
        cases hrequest
        obtain ⟨v, rfl⟩ := Draw.typed_drawn hproduces.1
        exact fun h => by cases h
  | integerUniform minValue maxValue =>
      rw [DrawOp.request, drawIntegerUniform] at hrequest
      split at hrequest
      case isFalse => cases hrequest
      case isTrue =>
        cases hrequest
        obtain ⟨v, rfl⟩ := Draw.typed_drawn hproduces.1
        exact fun h => by cases h
  | integerForced minValue maxValue forced =>
      rw [DrawOp.request, drawIntegerForced] at hrequest
      split at hrequest
      case isFalse => cases hrequest
      case isTrue =>
        cases hrequest
        rw [hproduces.1]
        exact fun h => by cases h
  | freshId =>
      cases hrequest
      obtain ⟨v, rfl⟩ := Draw.typed_drawn hproduces.1
      exact fun h => by cases h
  | fromSet members =>
      rw [DrawOp.request, drawFromSet] at hrequest
      split at hrequest
      case h_1 => cases hrequest
      case h_2 smallest rest _ =>
        dsimp only at hrequest
        split_ifs at hrequest
        cases hrequest
        obtain ⟨v, rfl⟩ := Draw.typed_drawn hproduces.1
        exact fun h => by cases h
  | float kind =>
      cases hrequest
      obtain ⟨v, rfl⟩ := Draw.typed_drawn hproduces.1
      exact fun h => by cases h
  | bytes minSize maxSize =>
      rw [DrawOp.request, drawBytes] at hrequest
      split at hrequest
      case isFalse => cases hrequest
      case isTrue =>
        cases hrequest
        obtain ⟨v, rfl⟩ := Draw.typed_drawn hproduces.1
        exact fun h => by cases h
  | string intervals minSize maxSize =>
      rw [DrawOp.request, drawString] at hrequest
      split_ifs at hrequest
      cases hrequest
      obtain ⟨v, rfl⟩ := Draw.typed_drawn hproduces.1
      exact fun h => by cases h
  | weighted p forced =>
      cases hrequest
      exact weightedWith_scalar hproduces stream
  | weightedPrecise p forced =>
      cases hrequest
      exact weightedWith_scalar hproduces stream

end Drawing

theorem single_of_scalar {data : ChoiceData} (wasForced : Bool)
    (hdata : ∀ stream, data ≠ .clone stream) :
    ChoiceNode.Single (.mk data wasForced) where
  weight := weight_of_not_clone hdata
  coherent := by
    cases data with
    | clone stream => exact absurd rfl (hdata stream)
    | _ => trivial

theorem single_clonePlaceholder : clonePlaceholder.Single where
  weight := rfl
  coherent := ⟨rfl, trivial⟩

namespace TestCaseFamily

/-- All nodes of all streams count once. -/
def Singles (state : TestCaseFamily Rng) : Prop :=
  ∀ stream ∈ state.streams, ∀ node ∈ stream.record.nodes, node.Single

theorem singles_of_reaches {input : StreamInput Rng} {budget : Nat}
    {state : TestCaseFamily Rng}
    (hreaches : Interaction.Reaches (step sampler) (.start input budget)
      state) : state.Singles := by
  refine hreaches.invariant (fun _ _ _ _ hsingles hanswer => ?_) ?_
  · exact nodes_step (fun _ _ _ wasForced hrequest hproduces =>
      single_of_scalar wasForced (DrawOp.request_scalar hrequest hproduces))
      single_clonePlaceholder hsingles hanswer
  · intro stream hstream node hnode
    rw [List.mem_singleton.mp hstream] at hnode
    cases hnode

/-- Every stream but the root is the clone of one stream, once: what is summed
up over all clones and the root is summed up over all streams. -/
def ClonesOnce (state : TestCaseFamily Rng) : Prop :=
  ∀ size : Nat → Nat,
    (state.streams.map fun stream =>
      (stream.record.cloneChildren.map fun child => size child.2).sum).sum +
        size 0 = ((List.range state.streams.length).map size).sum

theorem clonesOnce_set {state : TestCaseFamily Rng} {handle : Nat}
    {stream stream' : NativeTestCase Rng} (hclones : state.ClonesOnce)
    (hstream : state.streams[handle]? = some stream)
    (hsame : stream'.record.cloneChildren = stream.record.cloneChildren)
    (family : FamilyCore) :
    ClonesOnce ⟨family, state.streams.set handle stream'⟩ := by
  intro size
  have hsum := sum_map_set (fun stream : NativeTestCase Rng =>
    (stream.record.cloneChildren.map fun child => size child.2).sum) hstream
    stream'
  have hbefore := hclones size
  simp only [hsame] at hsum
  simp only [List.length_set]
  omega

theorem clonesOnce_step {state next : TestCaseFamily Rng}
    {request : StreamRequest} {reply : StreamReply}
    (hclones : state.ClonesOnce)
    (hanswer : step sampler state request = .ok (reply, next)) :
    next.ClonesOnce := by
  cases step_cases hanswer with
  | unchanged => exact hclones
  | overran draws hopen hdraws => exact hclones
  | @drew stream op drawRequest drawn input wasForced hstream hrequest hopen
      hbudget hproduces =>
      refine clonesOnce_set hclones hstream ?_ _
      rfl
  | @tooDeep stream hstream hop hopen hbudget hdepth =>
      exact clonesOnce_set hclones hstream
        stream.record.sameTree_freeze.cloneChildren _
  | @cloned stream childRng input hstream hopen hbudget hdepth =>
      intro size
      have hsum := sum_map_set (fun stream : NativeTestCase Rng =>
        (stream.record.cloneChildren.map fun child => size child.2).sum) hstream
        ⟨stream.record.pushClone state.streams.length, input⟩
      have hbefore := hclones size
      simp only [StreamRecord.pushClone, List.map_append, List.sum_append,
        List.map_cons, List.map_nil, List.sum_cons, List.sum_nil,
        Nat.add_zero] at hsum
      simp only [addClone, StreamRecord.pushClone, StreamRecord.new,
        List.map_append, List.sum_append, List.map_cons, List.map_nil,
        List.sum_cons, List.sum_nil, List.length_append, List.length_set,
        List.length_singleton, List.range_succ, Nat.add_zero]
      omega
  | @recorded stream op family record hstream hop hrecorded hfamily hrecord =>
      exact clonesOnce_set hclones hstream hrecord.cloneChildren _

theorem clonesOnce_of_reaches {input : StreamInput Rng} {budget : Nat}
    {state : TestCaseFamily Rng}
    (hreaches : Interaction.Reaches (step sampler) (.start input budget)
      state) : state.ClonesOnce := by
  refine hreaches.invariant (fun _ _ _ _ => clonesOnce_step) ?_
  intro size
  simp [start, StreamRecord.new]

end TestCaseFamily

section Flattening

variable {records : List StreamRecord} {levels : Nat}

theorem flattenedLen_of_single {nodes : List ChoiceNode}
    (hsingles : ∀ node ∈ nodes, node.Single) :
    flattenedLen nodes = nodes.length := by
  induction nodes with
  | nil => rfl
  | cons node rest ih =>
      rw [List.forall_mem_cons] at hsingles
      rw [flattenedLen_cons, hsingles.1.weight, ih hsingles.2,
        List.length_cons, Nat.add_comm]

/-- The flattened length of what a stream has after putting it together. -/
def realizedLen (records : List StreamRecord) (levels handle : Nat) : Nat :=
  match records[handle]? with
  | some record => flattenedLen (record.reassemble records levels)
  | none => 0

/-- Filling in a clone adds what its stream has. -/
theorem flattenedLen_graft {nodes : List ChoiceNode} {child : Nat × Nat}
    {node : ChoiceNode} (hnode : nodes[child.1]? = some node)
    (hsingle : node.Single) :
    flattenedLen (StreamRecord.graft records levels nodes child) =
      flattenedLen nodes + realizedLen records levels child.2 := by
  rw [StreamRecord.graft, realizedLen]
  cases records[child.2]? with
  | none => rfl
  | some below =>
      have hsum := TestCaseFamily.sum_map_set
        (fun node : ChoiceNode => node.data.weight) hnode
        (.mk (.clone (.new (below.reassemble records levels)
          below.freeze.spans)) node.wasForced)
      have hfilled : (ChoiceNode.mk (.clone (.new
          (below.reassemble records levels) below.freeze.spans))
            node.wasForced).data.weight =
              1 + flattenedLen (below.reassemble records levels) := rfl
      dsimp only at hsum ⊢
      rw [hfilled, hsingle.weight] at hsum
      rw [StreamRecord.reassemble_sameTree below.sameTree_freeze,
        List.modify_eq_set_getElem?, hnode, flattenedLen, flattenedLen]
      simp only [Option.map_eq_map, Option.map_some, Option.getD_some]
      omega

/-- So does filling in all clones of a stream. -/
theorem flattenedLen_foldl_graft {children : List (Nat × Nat)}
    {nodes : List ChoiceNode}
    (hdistinct : children.Pairwise fun a b => a.1 < b.1)
    (hplaces : ∀ child ∈ children, ∃ node, nodes[child.1]? = some node ∧
      node.Single) :
    flattenedLen (children.foldl (StreamRecord.graft records levels) nodes) =
      flattenedLen nodes +
        (children.map fun child => realizedLen records levels child.2).sum := by
  induction children generalizing nodes with
  | nil => rfl
  | cons child rest ih =>
      rw [List.pairwise_cons] at hdistinct
      rw [List.forall_mem_cons] at hplaces
      obtain ⟨⟨node, hnode, hsingle⟩, hrest⟩ := hplaces
      rw [List.foldl_cons, List.map_cons, List.sum_cons, ih hdistinct.2,
        flattenedLen_graft hnode hsingle, Nat.add_assoc]
      intro other hother
      obtain ⟨node', hnode', hsingle'⟩ := hrest other hother
      refine ⟨node', ?_, hsingle'⟩
      rw [StreamRecord.graft_getElem?_of_ne, hnode']
      exact Nat.ne_of_lt (hdistinct.1 other hother)

/-- A stream has its own choices and those of its clones. -/
theorem flattenedLen_reassemble {record : StreamRecord}
    (hordered : record.ChildrenOrdered)
    (hsingles : ∀ node ∈ record.nodes, node.Single) :
    flattenedLen (record.reassemble records (levels + 1)) =
      record.nodes.length + (record.cloneChildren.map fun child =>
        realizedLen records levels child.2).sum := by
  rw [StreamRecord.reassemble_succ,
    flattenedLen_foldl_graft hordered.increasing, flattenedLen_of_single hsingles]
  intro child hchild
  have hlt := hordered.within child hchild
  exact ⟨_, List.getElem?_eq_getElem hlt, hsingles _ (List.getElem_mem hlt)⟩

theorem nodesCoherent_iff {nodes : List ChoiceNode} :
    NodesCoherent nodes ↔ ∀ node ∈ nodes, node.Coherent := by
  induction nodes with
  | nil => simp [NodesCoherent]
  | cons node rest ih => rw [NodesCoherent, ih, List.forall_mem_cons]

theorem nodesCoherent_of_single {nodes : List ChoiceNode}
    (hsingles : ∀ node ∈ nodes, node.Single) : NodesCoherent nodes :=
  nodesCoherent_iff.mpr fun node hnode => (hsingles node hnode).coherent

theorem nodesCoherent_graft {nodes : List ChoiceNode} {child : Nat × Nat}
    (hbelow : ∀ record ∈ records,
      NodesCoherent (record.reassemble records levels))
    (hnodes : NodesCoherent nodes) :
    NodesCoherent (StreamRecord.graft records levels nodes child) := by
  rw [StreamRecord.graft]
  cases hrecord : records[child.2]? with
  | none => exact hnodes
  | some below =>
      dsimp only
      rw [StreamRecord.reassemble_sameTree below.sameTree_freeze,
        List.modify_eq_set_getElem?]
      cases hnode : nodes[child.1]? with
      | none => exact hnodes
      | some node =>
          rw [nodesCoherent_iff] at hnodes ⊢
          apply forall_mem_set hnodes
          exact RealizedStream.new_coherent
            (hbelow below (List.mem_of_getElem? hrecord)) below.freeze.spans

/-- Putting streams together caches right lengths. -/
theorem nodesCoherent_reassemble
    (hsingles : ∀ record ∈ records, ∀ node ∈ record.nodes, node.Single)
    {record : StreamRecord} (hrecord : record ∈ records) :
    NodesCoherent (record.reassemble records levels) := by
  induction levels generalizing record with
  | zero => exact nodesCoherent_of_single (hsingles record hrecord)
  | succ levels ih =>
      have hnodes : NodesCoherent record.nodes :=
        nodesCoherent_of_single (hsingles record hrecord)
      rw [StreamRecord.reassemble_succ]
      generalize record.nodes = nodes at hnodes
      induction record.cloneChildren generalizing nodes with
      | nil => exact hnodes
      | cons child rest ihRest =>
          rw [List.foldl_cons]
          apply ihRest
          exact nodesCoherent_graft (fun below hbelow => ih hbelow) hnodes

end Flattening

namespace TestCaseFamily

/-- The length of each stream, at the level where it stands. -/
def streamLen (final : TestCaseFamily Rng) (handle : Nat) : Nat :=
  match final.streams[handle]? with
  | some stream => flattenedLen (final.realized stream.record)
  | none => 0

/-- What a case realized has the choices of all its streams. -/
theorem flattenedLen_realized {input : StreamInput Rng} {budget : Nat}
    {final : TestCaseFamily Rng} {root : NativeTestCase Rng}
    (hreaches : Interaction.Reaches (step sampler) (.start input budget) final)
    (hroot : final.streams[0]? = some root) :
    flattenedLen (final.realized root.record) = final.totalNodes := by
  have hordered := ordered_of_reaches hreaches
  have hsingles := singles_of_reaches hreaches
  have hlayered := (rooted_of_reaches hreaches).layered
  have hparts : ∀ stream ∈ final.streams,
      flattenedLen (final.realized stream.record) =
        stream.record.nodes.length +
          (stream.record.cloneChildren.map fun child => final.streamLen child.2).sum := by
    intro stream hstream
    have hdepth := hlayered.depth stream hstream
    have hlevels : maxCloneDepth + 1 - stream.record.cloneId.length =
        maxCloneDepth - stream.record.cloneId.length + 1 := by omega
    rw [realized, hlevels, flattenedLen_reassemble
      (hordered.children stream hstream) (hsingles stream hstream)]
    congr 2
    apply List.map_congr_left
    intro child hchild
    obtain ⟨-, below, hbelow, hlevel⟩ :=
      hlayered.children stream hstream child hchild
    have hrecord : final.records[child.2]? = some below.record := by
      rw [records, List.getElem?_map, hbelow]
      rfl
    have hlevels' : maxCloneDepth - stream.record.cloneId.length =
        maxCloneDepth + 1 - below.record.cloneId.length := by omega
    simp only [realizedLen, streamLen, hrecord, hbelow, realized, hlevels']
  have hall : ((List.range final.streams.length).map final.streamLen).sum =
      (final.streams.map fun stream =>
        flattenedLen (final.realized stream.record)).sum := by
    congr 1
    apply List.ext_getElem
    · simp
    · intro handle hlt hlt'
      rw [List.length_map, List.length_range] at hlt
      simp [streamLen, List.getElem?_eq_getElem hlt]
  have hsum : (final.streams.map fun stream =>
      flattenedLen (final.realized stream.record)).sum =
        final.totalNodes + (final.streams.map fun stream =>
          (stream.record.cloneChildren.map fun child =>
            final.streamLen child.2).sum).sum := by
    rw [totalNodes, ← List.sum_map_add]
    exact congrArg List.sum (List.map_congr_left hparts)
  have hroot' : final.streamLen 0 = flattenedLen (final.realized root.record) := by
    simp only [streamLen, hroot]
  have honce := clonesOnce_of_reaches hreaches final.streamLen
  omega

/-- What a case realized caches right lengths. -/
theorem nodesCoherent_realized {input : StreamInput Rng} {budget : Nat}
    {final : TestCaseFamily Rng} {stream : NativeTestCase Rng}
    (hreaches : Interaction.Reaches (step sampler) (.start input budget) final)
    (hstream : stream ∈ final.streams) :
    NodesCoherent (final.realized stream.record) := by
  have hsingles := singles_of_reaches hreaches
  apply nodesCoherent_reassemble
  · intro record hrecord
    obtain ⟨other, hother, rfl⟩ := List.mem_map.mp hrecord
    exact hsingles other hother
  · exact List.mem_map_of_mem hstream

section Tally

/-- While a case runs its draws are its choices.  A clone that is too deep is
drawn but not recorded; nothing is drawn after it. -/
structure Tallied (state : TestCaseFamily Rng) : Prop where
  running : state.family.conclusion = none →
    state.family.totalDraws = state.totalNodes
  ended : ¬state.Overran → state.family.totalDraws ≤ state.totalNodes + 1

theorem tallied_of_eq {state : TestCaseFamily Rng}
    (hdraws : state.family.totalDraws = state.totalNodes) : state.Tallied where
  running _ := hdraws
  ended _ := hdraws.le.trans (Nat.le_succ _)

theorem tallied_step {state next : TestCaseFamily Rng}
    {request : StreamRequest} {reply : StreamReply} (htallied : state.Tallied)
    (hanswer : step sampler state request = .ok (reply, next)) :
    next.Tallied := by
  cases step_cases hanswer with
  | unchanged => exact htallied
  | overran draws hopen hdraws =>
      exact ⟨(fun h => by cases h), fun h => absurd ⟨none, rfl⟩ h⟩
  | @drew stream op drawRequest drawn input wasForced hstream hrequest hopen
      hbudget hproduces =>
      have hmore : (stream.recordDrawn input drawn
          wasForced).record.nodes.length = stream.record.nodes.length + 1 :=
        List.length_append ..
      apply tallied_of_eq
      rw [totalNodes_set hstream hmore, FamilyCore.register_totalDraws,
        ← htallied.running hopen]
      rfl
  | @tooDeep stream hstream hop hopen hbudget hdepth =>
      refine ⟨(fun h => by cases h), fun _ => ?_⟩
      have hsame : (NativeTestCase.mk stream.record.freeze
          stream.input).record.nodes.length =
            stream.record.nodes.length + 0 :=
        congrArg List.length stream.record.sameTree_freeze.nodes
      rw [totalNodes_set hstream hsame, Nat.add_zero,
        ← htallied.running hopen]
      exact le_refl _
  | @cloned stream childRng input hstream hopen hbudget hdepth =>
      apply tallied_of_eq
      rw [totalNodes_addClone hstream, ← htallied.running hopen]
      rfl
  | @recorded stream op family record hstream hop hrecorded hfamily hrecord =>
      have hsame : (NativeTestCase.mk record stream.input).record.nodes.length =
          stream.record.nodes.length + 0 :=
        congrArg List.length hrecord.nodes
      have hdraws : family.totalDraws = state.family.totalDraws := by
        rw [hfamily.same]
      refine ⟨fun hopen => ?_, fun hran => ?_⟩
      · rw [totalNodes_set hstream hsame, Nat.add_zero, hdraws]
        apply htallied.running
        cases hconcluded : state.family.conclusion with
        | none => rfl
        | some verdict =>
            exact absurd (hopen.symm.trans (hfamily.stands _ hconcluded))
              (by simp)
      · rw [totalNodes_set hstream hsame, Nat.add_zero, hdraws]
        apply htallied.ended
        rintro ⟨origin, hconcluded⟩
        exact hran ⟨origin, hfamily.stands _ hconcluded⟩

/-- A case that did not overrun drew its choices, and at most one clone that
was too deep. -/
theorem totalDraws_le {input : StreamInput Rng} {budget : Nat}
    {final : TestCaseFamily Rng}
    (hreaches : Interaction.Reaches (step sampler) (.start input budget) final)
    (hran : ¬final.Overran) :
    final.family.totalDraws ≤ final.totalNodes + 1 := by
  have htallied : final.Tallied :=
    hreaches.invariant (fun _ _ _ _ => tallied_step) (tallied_of_eq rfl)
  exact htallied.ended hran

end Tally

end TestCaseFamily

end Hegel
