/-
The tree of streams.  Every stream's clones stand at increasing positions of
its record, streams only grow while a test case runs, and putting the streams
together again fills in exactly the clone positions.
-/
import Hegel.Steps

namespace Hegel

variable {Rng : Type} {sampler : Sampler Rng}

namespace StreamRecord

/-- Fill in one clone position. -/
def graft (records : List StreamRecord) (levels : Nat)
    (nodes : List ChoiceNode) (child : Nat × Nat) : List ChoiceNode :=
  match records[child.2]? with
  | some record =>
      nodes.modify child.1 fun node =>
        .mk (.clone (.new (reassemble records levels record.freeze)
          record.freeze.spans)) node.wasForced
  | none => nodes

theorem reassemble_succ (records : List StreamRecord) (levels : Nat)
    (record : StreamRecord) :
    reassemble records (levels + 1) record =
      record.cloneChildren.foldl (graft records levels) record.nodes := rfl

variable {records : List StreamRecord} {levels : Nat}

theorem graft_getElem?_of_ne {nodes : List ChoiceNode} {child : Nat × Nat}
    {idx : Nat} (hne : child.1 ≠ idx) :
    (graft records levels nodes child)[idx]? = nodes[idx]? := by
  rw [graft]
  cases records[child.2]? with
  | none => rfl
  | some record => exact List.getElem?_modify_ne _ _ hne

theorem length_graft (nodes : List ChoiceNode) (child : Nat × Nat) :
    (graft records levels nodes child).length = nodes.length := by
  rw [graft]
  cases records[child.2]? with
  | none => rfl
  | some record => exact List.length_modify _ _ _

theorem foldl_graft_getElem?_of_ne {children : List (Nat × Nat)} {idx : Nat}
    (hne : ∀ child ∈ children, child.1 ≠ idx) (nodes : List ChoiceNode) :
    (children.foldl (graft records levels) nodes)[idx]? = nodes[idx]? := by
  induction children generalizing nodes with
  | nil => rfl
  | cons child rest ih =>
      rw [List.foldl_cons, ih fun c hc => hne c (List.mem_cons_of_mem _ hc),
        graft_getElem?_of_ne (hne child List.mem_cons_self)]

/-- Clones stand at increasing positions of the record. -/
structure ChildrenOrdered (record : StreamRecord) : Prop where
  increasing : record.cloneChildren.Pairwise fun a b => a.1 < b.1
  within : ∀ child ∈ record.cloneChildren, child.1 < record.nodes.length

/-- Putting streams together leaves the other positions alone. -/
theorem reassemble_getElem?_of_ne {record : StreamRecord} {idx : Nat}
    (hne : ∀ child ∈ record.cloneChildren, child.1 ≠ idx) :
    (reassemble records levels record)[idx]? = record.nodes[idx]? := by
  cases levels with
  | zero => rfl
  | succ levels =>
      rw [reassemble_succ]
      exact foldl_graft_getElem?_of_ne hne _

/-- A clone position holds the record of its stream. -/
theorem reassemble_getElem?_of_mem {record child : StreamRecord}
    {idx handle : Nat} {node : ChoiceNode}
    (hordered : record.ChildrenOrdered)
    (hmem : (idx, handle) ∈ record.cloneChildren)
    (hnode : record.nodes[idx]? = some node)
    (hchild : records[handle]? = some child) :
    (reassemble records (levels + 1) record)[idx]? =
      some (.mk (.clone (.new (reassemble records levels child.freeze)
        child.freeze.spans)) node.wasForced) := by
  obtain ⟨before, after, hsplit⟩ := List.append_of_mem hmem
  have hincreasing := hordered.increasing
  rw [hsplit, List.pairwise_append, List.pairwise_cons] at hincreasing
  obtain ⟨-, ⟨hafter, -⟩, hbefore⟩ := hincreasing
  have hkept : (before.foldl (graft records levels) record.nodes)[idx]? =
      some node := by
    rw [foldl_graft_getElem?_of_ne, hnode]
    intro c hc heq
    have hlt := hbefore c hc _ List.mem_cons_self
    omega
  rw [reassemble_succ, hsplit, List.foldl_append, List.foldl_cons,
    foldl_graft_getElem?_of_ne, graft, hchild]
  · simp only []
    rw [List.getElem?_modify_eq, hkept]
    rfl
  · intro c hc heq
    have hlt := hafter c hc
    omega

theorem length_reassemble (records : List StreamRecord) (levels : Nat)
    (record : StreamRecord) :
    (reassemble records levels record).length = record.nodes.length := by
  cases levels with
  | zero => rfl
  | succ levels =>
      have hfold : ∀ (children : List (Nat × Nat)) (nodes : List ChoiceNode),
          (children.foldl (graft records levels) nodes).length =
            nodes.length := by
        intro children
        induction children with
        | nil => exact fun nodes => rfl
        | cons child rest ih =>
            intro nodes
            rw [List.foldl_cons, ih, length_graft]
      rw [reassemble_succ, hfold]

/-- Spans play no part in putting streams together. -/
theorem reassemble_sameTree {record record' : StreamRecord}
    (hsame : record.SameTree record') :
    reassemble records levels record' = reassemble records levels record := by
  cases levels with
  | zero => exact hsame.nodes
  | succ levels =>
      rw [reassemble_succ, reassemble_succ, hsame.nodes, hsame.cloneChildren]

/-- What a stream's record can become: more nodes, and more clones among the
new nodes. -/
structure Grows (record later : StreamRecord) : Prop where
  nodes : record.nodes <+: later.nodes
  cloneChildren : ∃ extra, later.cloneChildren = record.cloneChildren ++ extra ∧
    ∀ child ∈ extra, record.nodes.length ≤ child.1
  cloneId : later.cloneId = record.cloneId

theorem SameTree.grows {record later : StreamRecord}
    (hsame : record.SameTree later) : record.Grows later where
  nodes := by rw [hsame.nodes]
  cloneChildren := ⟨[], by rw [hsame.cloneChildren, List.append_nil], by simp⟩
  cloneId := hsame.cloneId

theorem SameTree.refl (record : StreamRecord) : record.SameTree record :=
  ⟨rfl, rfl, rfl⟩

theorem Grows.trans {first second third : StreamRecord}
    (hfirst : first.Grows second) (hsecond : second.Grows third) :
    first.Grows third where
  nodes := hfirst.nodes.trans hsecond.nodes
  cloneChildren := by
    have hlength := hfirst.nodes.length_le
    obtain ⟨extra, hextra, hbound⟩ := hfirst.cloneChildren
    obtain ⟨extra', hextra', hbound'⟩ := hsecond.cloneChildren
    refine ⟨extra ++ extra', by rw [hextra', hextra, List.append_assoc], ?_⟩
    intro child hchild
    rcases List.mem_append.mp hchild with hmem | hmem
    · exact hbound child hmem
    · exact hlength.trans (hbound' child hmem)
  cloneId := hsecond.cloneId.trans hfirst.cloneId

theorem grows_pushNode (record : StreamRecord) (node : ChoiceNode) :
    record.Grows (record.pushNode node) where
  nodes := List.prefix_append _ _
  cloneChildren := ⟨[], (List.append_nil _).symm, by simp⟩
  cloneId := rfl

theorem grows_pushClone (record : StreamRecord) (handle : Nat) :
    record.Grows (record.pushClone handle) where
  nodes := List.prefix_append _ _
  cloneChildren := by
    refine ⟨[(record.nodes.length, handle)], rfl, fun child hchild => ?_⟩
    rw [List.mem_singleton.mp hchild]
  cloneId := rfl

theorem ChildrenOrdered.sameTree {record record' : StreamRecord}
    (hordered : record.ChildrenOrdered) (hsame : record.SameTree record') :
    record'.ChildrenOrdered where
  increasing := by
    rw [hsame.cloneChildren]
    exact hordered.increasing
  within := by
    rw [hsame.cloneChildren, hsame.nodes]
    exact hordered.within

theorem ChildrenOrdered.pushNode {record : StreamRecord}
    (hordered : record.ChildrenOrdered) (node : ChoiceNode) :
    (record.pushNode node).ChildrenOrdered where
  increasing := hordered.increasing
  within child hchild := by
    have hlt := hordered.within child hchild
    rw [StreamRecord.pushNode, List.length_append]
    omega

theorem ChildrenOrdered.pushClone {record : StreamRecord}
    (hordered : record.ChildrenOrdered) (handle : Nat) :
    (record.pushClone handle).ChildrenOrdered where
  increasing := by
    rw [StreamRecord.pushClone, List.pairwise_append]
    refine ⟨hordered.increasing, List.pairwise_singleton _ _, ?_⟩
    intro a ha b hb
    rw [List.mem_singleton.mp hb]
    exact hordered.within a ha
  within child hchild := by
    rw [StreamRecord.pushClone] at hchild
    rw [StreamRecord.pushClone, StreamRecord.pushNode, List.length_append,
      List.length_singleton]
    rcases List.mem_append.mp hchild with hmem | hmem
    · have hlt := hordered.within child hmem
      omega
    · rw [List.mem_singleton.mp hmem]
      omega

end StreamRecord

namespace TestCaseFamily

/-- Every stream is still there, with its record related to what it was. -/
def Follows (related : StreamRecord → StreamRecord → Prop)
    (state later : TestCaseFamily Rng) : Prop :=
  ∀ (handle : Nat) (stream : NativeTestCase Rng),
    state.streams[handle]? = some stream →
      ∃ stream' : NativeTestCase Rng, later.streams[handle]? = some stream' ∧
        related stream.record stream'.record

section Follows

variable {related : StreamRecord → StreamRecord → Prop}
  {state mid later : TestCaseFamily Rng}

theorem Follows.of_streams (hrefl : ∀ record, related record record)
    (hstreams : later.streams = state.streams) : state.Follows related later := by
  intro handle stream hstream
  exact ⟨stream, by rwa [hstreams], hrefl _⟩

theorem Follows.trans
    (htrans : ∀ first second third, related first second →
      related second third → related first third)
    (hfirst : state.Follows related mid) (hsecond : mid.Follows related later) :
    state.Follows related later := by
  intro handle stream hstream
  obtain ⟨stream', hstream', hrelated⟩ := hfirst handle stream hstream
  obtain ⟨stream'', hstream'', hrelated'⟩ := hsecond handle stream' hstream'
  exact ⟨stream'', hstream'', htrans _ _ _ hrelated hrelated'⟩

/-- One stream is replaced, and others may come after it. -/
theorem Follows.of_set (hrefl : ∀ record, related record record)
    {handle : Nat} {stream stream' : NativeTestCase Rng}
    {extra : List (NativeTestCase Rng)}
    (hstream : state.streams[handle]? = some stream)
    (hrelated : related stream.record stream'.record)
    (hstreams : later.streams = state.streams.set handle stream' ++ extra) :
    state.Follows related later := by
  intro handle' other hother
  have hlt := (List.getElem?_eq_some_iff.mp hother).1
  rw [hstreams, List.getElem?_append_left (by rwa [List.length_set])]
  by_cases hsame : handle = handle'
  · subst hsame
    rw [hstream, Option.some.injEq] at hother
    subst hother
    exact ⟨stream', List.getElem?_set_self hlt, hrelated⟩
  · rw [List.getElem?_set_ne hsame]
    exact ⟨other, hother, hrefl _⟩

end Follows

/-- What a test case can become: its streams grow and its draws are counted,
until it is concluded; then its choices and its conclusion stay. -/
structure Grows (state later : TestCaseFamily Rng) : Prop where
  streams : state.Follows StreamRecord.Grows later
  totalDraws : state.family.totalDraws ≤ later.family.totalDraws
  budget : later.family.budget = state.family.budget
  concluded : ∀ verdict, state.family.conclusion = some verdict →
    later.family.conclusion = some verdict ∧
      state.Follows StreamRecord.SameTree later

theorem Grows.refl (state : TestCaseFamily Rng) : state.Grows state where
  streams := .of_streams (fun record => (StreamRecord.SameTree.refl record).grows)
    rfl
  totalDraws := le_refl _
  budget := rfl
  concluded _ hconcluded :=
    ⟨hconcluded, .of_streams StreamRecord.SameTree.refl rfl⟩

theorem Grows.trans {first second third : TestCaseFamily Rng}
    (hfirst : first.Grows second) (hsecond : second.Grows third) :
    first.Grows third where
  streams := hfirst.streams.trans (fun _ _ _ => StreamRecord.Grows.trans)
    hsecond.streams
  totalDraws := hfirst.totalDraws.trans hsecond.totalDraws
  budget := hsecond.budget.trans hfirst.budget
  concluded verdict hconcluded := by
    obtain ⟨hconcluded', hsame⟩ := hfirst.concluded verdict hconcluded
    obtain ⟨hconcluded'', hsame'⟩ := hsecond.concluded verdict hconcluded'
    exact ⟨hconcluded'', hsame.trans (fun _ _ _ => StreamRecord.SameTree.trans)
      hsame'⟩

theorem grows_step {state next : TestCaseFamily Rng} {request : StreamRequest}
    {reply : StreamReply}
    (hanswer : step sampler state request = .ok (reply, next)) :
    state.Grows next := by
  have hgrows : ∀ record : StreamRecord, record.Grows record :=
    fun record => (StreamRecord.SameTree.refl record).grows
  cases step_cases hanswer with
  | unchanged => exact .refl state
  | overran draws hopen hdraws =>
      refine ⟨.of_streams hgrows rfl, hdraws, rfl, fun verdict h => ?_⟩
      simp [hopen] at h
  | @drew stream op drawRequest drawn input wasForced hstream hrequest hopen
      hbudget hproduces =>
      refine ⟨.of_set hgrows hstream (stream.record.grows_pushNode _)
        (List.append_nil _).symm, ?_, ?_, fun verdict h => ?_⟩
      · rw [FamilyCore.register_totalDraws]
        exact Nat.le_succ _
      · rw [FamilyCore.register_budget]
        rfl
      · simp [hopen] at h
  | @tooDeep stream hstream hop hopen hbudget hdepth =>
      refine ⟨.of_set hgrows hstream stream.record.sameTree_freeze.grows
        (List.append_nil _).symm, Nat.le_succ _, rfl, fun verdict h => ?_⟩
      simp [hopen] at h
  | @cloned stream childRng input hstream hopen hbudget hdepth =>
      refine ⟨.of_set hgrows hstream (stream.record.grows_pushClone _) rfl,
        Nat.le_succ _, rfl, fun verdict h => ?_⟩
      simp [hopen] at h
  | @recorded stream op family record hstream hop hrecorded hfamily hrecord =>
      refine ⟨.of_set hgrows hstream hrecord.grows (List.append_nil _).symm,
        ?_, ?_, fun verdict h => ⟨hfamily.stands verdict h, ?_⟩⟩
      · rw [hfamily.same]
      · rw [hfamily.same]
      · exact .of_set StreamRecord.SameTree.refl hstream hrecord
          (List.append_nil _).symm

theorem grows_of_reaches {state later : TestCaseFamily Rng}
    (hreaches : Interaction.Reaches (step sampler) state later) :
    state.Grows later :=
  hreaches.related Grows.refl (fun _ _ _ => Grows.trans)
    (fun _ _ _ _ => grows_step)

/-- What holds of the streams of every test case: clones stand in order, no
record is longer than the number of draws, and draws keep to the budget unless
the case overran. -/
structure Ordered (state : TestCaseFamily Rng) : Prop where
  children : ∀ stream ∈ state.streams, stream.record.ChildrenOrdered
  counted : ∀ stream ∈ state.streams,
    stream.record.nodes.length ≤ state.family.totalDraws
  within : state.family.totalDraws ≤ state.family.budget ∨
    ∃ origin, state.family.conclusion = some (.earlyStop, origin)

theorem ordered_start (input : StreamInput Rng) (budget : Nat) :
    (start input budget).Ordered where
  children stream hstream := by
    rw [List.mem_singleton.mp hstream]
    exact ⟨List.Pairwise.nil, by simp [StreamRecord.new]⟩
  counted stream hstream := by
    rw [List.mem_singleton.mp hstream]
    exact le_refl _
  within := .inl (Nat.zero_le _)

theorem ordered_step {state next : TestCaseFamily Rng}
    {request : StreamRequest} {reply : StreamReply} (hordered : state.Ordered)
    (hanswer : step sampler state request = .ok (reply, next)) :
    next.Ordered := by
  obtain ⟨hchildren, hcounted, hwithin⟩ := hordered
  have hlater : ∀ stream ∈ state.streams,
      stream.record.nodes.length ≤ state.family.totalDraws + 1 :=
    fun stream hstream => (hcounted stream hstream).trans (Nat.le_succ _)
  cases step_cases hanswer with
  | unchanged => exact ⟨hchildren, hcounted, hwithin⟩
  | overran draws hopen hdraws =>
      exact ⟨hchildren,
        fun stream hstream => (hcounted stream hstream).trans hdraws,
        .inr ⟨none, rfl⟩⟩
  | @drew stream op drawRequest drawn input wasForced hstream hrequest hopen
      hbudget hproduces =>
      have hmem := List.mem_of_getElem? hstream
      refine ⟨forall_mem_set hchildren ((hchildren stream hmem).pushNode _) _,
        ?_, .inl ?_⟩
      · rw [FamilyCore.register_totalDraws]
        apply forall_mem_set hlater
        simp only [NativeTestCase.recordDrawn, StreamRecord.pushNode,
          List.length_append, List.length_singleton]
        exact Nat.succ_le_succ (hcounted stream hmem)
      · rw [FamilyCore.register_totalDraws, FamilyCore.register_budget]
        exact hbudget
  | @tooDeep stream hstream hop hopen hbudget hdepth =>
      have hmem := List.mem_of_getElem? hstream
      have hsame := stream.record.sameTree_freeze
      refine ⟨forall_mem_set hchildren ((hchildren stream hmem).sameTree hsame)
        _, forall_mem_set hlater ?_ _, .inl hbudget⟩
      rw [hsame.nodes]
      exact hlater stream hmem
  | @cloned stream childRng input hstream hopen hbudget hdepth =>
      have hmem := List.mem_of_getElem? hstream
      refine ⟨?_, ?_, .inl hbudget⟩
      · intro stream' hstream'
        rcases List.mem_append.mp hstream' with hold | hnew
        · exact forall_mem_set hchildren ((hchildren stream hmem).pushClone _) _
            stream' hold
        · rw [List.mem_singleton.mp hnew]
          exact ⟨List.Pairwise.nil, by simp [StreamRecord.new]⟩
      · intro stream' hstream'
        rcases List.mem_append.mp hstream' with hold | hnew
        · refine forall_mem_set hlater ?_ _ stream' hold
          simp only [StreamRecord.pushClone, StreamRecord.pushNode,
            List.length_append, List.length_singleton]
          exact Nat.succ_le_succ (hcounted stream hmem)
        · rw [List.mem_singleton.mp hnew]
          exact Nat.zero_le _
  | @recorded stream op family record hstream hop hrecorded hfamily hrecord =>
      have hmem := List.mem_of_getElem? hstream
      refine ⟨forall_mem_set hchildren ((hchildren stream hmem).sameTree
        hrecord) _, ?_, ?_⟩
      · rw [hfamily.same]
        apply forall_mem_set hcounted
        rw [hrecord.nodes]
        exact hcounted stream hmem
      · rcases hwithin with hle | ⟨origin, hearly⟩
        · left
          rw [hfamily.same]
          exact hle
        · exact .inr ⟨origin, hfamily.stands _ hearly⟩

/-- Every clone of a stream exists one level below it, and levels are bounded. -/
structure Layered (state : TestCaseFamily Rng) : Prop where
  children : ∀ stream ∈ state.streams, ∀ child ∈ stream.record.cloneChildren,
    0 < child.2 ∧ ∃ below : NativeTestCase Rng,
      state.streams[child.2]? = some below ∧
        below.record.cloneId.length = stream.record.cloneId.length + 1
  depth : ∀ stream ∈ state.streams,
    stream.record.cloneId.length ≤ maxCloneDepth

/-- Streams form a tree: every stream but the root stands among the clones of
an earlier one. -/
structure Rooted (state : TestCaseFamily Rng) : Prop where
  layered : state.Layered
  root : ∃ root : NativeTestCase Rng, state.streams[0]? = some root ∧
    root.record.cloneId = []
  parents : ∀ (handle : Nat) (stream : NativeTestCase Rng),
    state.streams[handle]? = some stream → 0 < handle →
      ∃ (parent idx : Nat) (above : NativeTestCase Rng), parent < handle ∧
        state.streams[parent]? = some above ∧
        (idx, handle) ∈ above.record.cloneChildren

theorem layered_start (input : StreamInput Rng) (budget : Nat) :
    (start input budget).Layered where
  children stream hstream := by
    rw [List.mem_singleton.mp hstream]
    simp [StreamRecord.new]
  depth stream hstream := by
    rw [List.mem_singleton.mp hstream]
    exact Nat.zero_le _

theorem rooted_start (input : StreamInput Rng) (budget : Nat) :
    (start input budget).Rooted where
  layered := layered_start input budget
  root := ⟨_, rfl, rfl⟩
  parents handle stream hstream hpos := by
    have hlt := (List.getElem?_eq_some_iff.mp hstream).1
    rw [start, List.length_singleton] at hlt
    omega

/-- Clones that were there stay below the stream they were made from. -/
theorem Layered.later {state next : TestCaseFamily Rng}
    (hlayered : state.Layered) (hgrows : state.Grows next) :
    ∀ stream ∈ state.streams, ∀ child ∈ stream.record.cloneChildren,
      0 < child.2 ∧ ∃ below : NativeTestCase Rng,
        next.streams[child.2]? = some below ∧
          below.record.cloneId.length = stream.record.cloneId.length + 1 := by
  intro stream hstream child hchild
  obtain ⟨hpos, below, hbelow, hlength⟩ :=
    hlayered.children stream hstream child hchild
  obtain ⟨below', hbelow', hlater⟩ := hgrows.streams child.2 below hbelow
  exact ⟨hpos, below', hbelow', by rw [hlater.cloneId, hlength]⟩

/-- The stream that a clone adds. -/
theorem addClone_getElem? (state : TestCaseFamily Rng) (handle : Nat)
    (stream : NativeTestCase Rng) (childRng : Option Rng)
    (input : StreamInput Rng) :
    (state.addClone handle stream childRng
        input).streams[state.streams.length]? =
      some ⟨.new (stream.record.cloneId ++ [stream.record.cloneCounter]),
        stream.input.forClone stream.record.nodes.length childRng⟩ := by
  rw [addClone, List.getElem?_append_right (by rw [List.length_set]),
    List.length_set, Nat.sub_self, List.getElem?_cons_zero]

theorem layered_step {state next : TestCaseFamily Rng}
    {request : StreamRequest} {reply : StreamReply}
    (hlayered : state.Layered)
    (hanswer : step sampler state request = .ok (reply, next)) :
    next.Layered := by
  have hgrows := grows_step hanswer
  -- all but a clone leave the streams where they are
  have hsame : ∀ (handle : Nat) (stream stream' : NativeTestCase Rng),
      state.streams[handle]? = some stream →
      stream'.record.cloneId = stream.record.cloneId →
      stream'.record.cloneChildren = stream.record.cloneChildren →
      next.streams = state.streams.set handle stream' → next.Layered := by
    intro handle stream stream' hstream hid hchildren hstreams
    have hmem := List.mem_of_getElem? hstream
    constructor
    · intro other hother
      rw [hstreams] at hother
      rcases List.mem_or_eq_of_mem_set hother with hold | rfl
      · exact hlayered.later hgrows other hold
      · rw [hchildren, hid]
        exact hlayered.later hgrows stream hmem
    · rw [hstreams]
      apply forall_mem_set hlayered.depth
      rw [hid]
      exact hlayered.depth stream hmem
  cases step_cases hanswer with
  | unchanged => exact hlayered
  | overran draws hopen hdraws => exact ⟨hlayered.children, hlayered.depth⟩
  | @drew stream op drawRequest drawn input wasForced hstream hrequest hopen
      hbudget hproduces =>
      exact hsame _ stream (stream.recordDrawn input drawn wasForced) hstream rfl
        rfl rfl
  | @tooDeep stream hstream hop hopen hbudget hdepth =>
      have htree := stream.record.sameTree_freeze
      exact hsame _ stream _ hstream htree.cloneId htree.cloneChildren rfl
  | @cloned stream childRng input hstream hopen hbudget hdepth =>
      have hmem := List.mem_of_getElem? hstream
      constructor
      · intro stream' hstream'
        rcases List.mem_append.mp hstream' with hset | hlast
        · rcases List.mem_or_eq_of_mem_set hset with hold | rfl
          · exact hlayered.later hgrows stream' hold
          · intro child hchild
            rcases List.mem_append.mp hchild with hold | hlastChild
            · exact hlayered.later hgrows stream hmem child hold
            · rw [List.mem_singleton.mp hlastChild]
              have hlt := (List.getElem?_eq_some_iff.mp hstream).1
              refine ⟨Nat.zero_lt_of_lt hlt, _,
                state.addClone_getElem? _ _ _ _, ?_⟩
              simp [StreamRecord.new, StreamRecord.pushClone,
                StreamRecord.pushNode]
        · rw [List.mem_singleton.mp hlast]
          simp [StreamRecord.new]
      · intro stream' hstream'
        rcases List.mem_append.mp hstream' with hset | hlast
        · refine forall_mem_set hlayered.depth ?_ _ stream' hset
          exact hlayered.depth stream hmem
        · rw [List.mem_singleton.mp hlast]
          simpa [StreamRecord.new] using hdepth
  | @recorded stream op family record hstream hop hrecorded hfamily hrecord =>
      exact hsame _ stream _ hstream hrecord.cloneId hrecord.cloneChildren rfl

/-- The place of a stream in the tree stays. -/
theorem Rooted.later {state next : TestCaseFamily Rng}
    (hrooted : state.Rooted) (hgrows : state.Grows next) {handle : Nat}
    (hold : handle < state.streams.length) (hpos : 0 < handle) :
    ∃ (parent idx : Nat) (above : NativeTestCase Rng), parent < handle ∧
      next.streams[parent]? = some above ∧
      (idx, handle) ∈ above.record.cloneChildren := by
  obtain ⟨parent, idx, above, hlt, habove, hchild⟩ :=
    hrooted.parents handle _ (List.getElem?_eq_getElem hold) hpos
  obtain ⟨above', habove', hlater⟩ := hgrows.streams parent above habove
  obtain ⟨extra, hextra, -⟩ := hlater.cloneChildren
  refine ⟨parent, idx, above', hlt, habove', ?_⟩
  rw [hextra]
  exact List.mem_append_left _ hchild

theorem rooted_step {state next : TestCaseFamily Rng}
    {request : StreamRequest} {reply : StreamReply} (hrooted : state.Rooted)
    (hanswer : step sampler state request = .ok (reply, next)) :
    next.Rooted := by
  have hgrows := grows_step hanswer
  obtain ⟨root, hroot, hid⟩ := hrooted.root
  obtain ⟨root', hroot', hlater⟩ := hgrows.streams 0 root hroot
  refine ⟨layered_step hrooted.layered hanswer,
    ⟨root', hroot', hlater.cloneId.trans hid⟩, ?_⟩
  intro handle stream hstream hpos
  by_cases hold : handle < state.streams.length
  · exact hrooted.later hgrows hold hpos
  · -- only a clone makes a new stream
    have hlt := (List.getElem?_eq_some_iff.mp hstream).1
    cases step_cases hanswer with
    | unchanged => exact absurd hlt hold
    | overran draws hopen hdraws => exact absurd hlt hold
    | drew drawn input wasForced hstream =>
        rw [List.length_set] at hlt
        exact absurd hlt hold
    | tooDeep hstream =>
        rw [List.length_set] at hlt
        exact absurd hlt hold
    | @cloned above childRng input habove hopen hbudget hdepth =>
        rw [addClone, List.length_append, List.length_set,
          List.length_singleton] at hlt
        have heq : handle = state.streams.length := by omega
        have hparent := (List.getElem?_eq_some_iff.mp habove).1
        refine ⟨request.handle, above.record.nodes.length,
          ⟨above.record.pushClone state.streams.length, input⟩, ?_, ?_, ?_⟩
        · rw [heq]
          exact hparent
        · rw [addClone, List.getElem?_append_left
            (by rwa [List.length_set]), List.getElem?_set_self hparent]
        · simp [StreamRecord.pushClone, heq]
    | recorded hstream =>
        rw [List.length_set] at hlt
        exact absurd hlt hold

theorem rooted_of_reaches {input : StreamInput Rng} {budget : Nat}
    {final : TestCaseFamily Rng}
    (hreaches : Interaction.Reaches (step sampler) (start input budget) final) :
    final.Rooted :=
  hreaches.invariant (fun _ _ _ _ => rooted_step) (rooted_start input budget)

theorem ordered_of_reaches {input : StreamInput Rng} {budget : Nat}
    {final : TestCaseFamily Rng}
    (hreaches : Interaction.Reaches (step sampler) (start input budget) final) :
    final.Ordered :=
  hreaches.invariant (fun _ _ _ _ => ordered_step) (ordered_start input budget)

end TestCaseFamily

/-- The nodes a stream has after putting all streams together. -/
def TestCaseFamily.realized (state : TestCaseFamily Rng)
    (record : StreamRecord) : List ChoiceNode :=
  record.reassemble state.records
    (maxCloneDepth + 1 - record.cloneId.length)

/-- A clone position holds what its stream has in the end. -/
theorem realized_child {final : TestCaseFamily Rng} {above : StreamRecord}
    {child : NativeTestCase Rng} {idx handle : Nat} {node : ChoiceNode}
    (hordered : above.ChildrenOrdered)
    (hmem : (idx, handle) ∈ above.cloneChildren)
    (hnode : above.nodes[idx]? = some node)
    (hchild : final.streams[handle]? = some child)
    (hdepth : above.cloneId.length + 1 ≤ maxCloneDepth)
    (hlevel : child.record.cloneId.length = above.cloneId.length + 1) :
    (final.realized above)[idx]? =
      some (.mk (.clone (.new (final.realized child.record)
        child.record.freeze.spans)) node.wasForced) := by
  have hrecord : final.records[handle]? = some child.record := by
    rw [TestCaseFamily.records, List.getElem?_map, hchild]
    rfl
  have hlevels : maxCloneDepth + 1 - above.cloneId.length =
      maxCloneDepth + 1 - child.record.cloneId.length + 1 := by
    omega
  rw [TestCaseFamily.realized, hlevels,
    StreamRecord.reassemble_getElem?_of_mem hordered hmem hnode hrecord,
    StreamRecord.reassemble_sameTree child.record.sameTree_freeze]
  rfl

/-- A result has the nodes that the root stream realizes in the end, and the
root's own spans. -/
theorem takeRun_root {input : StreamInput Rng} {budget : Nat}
    {final : TestCaseFamily Rng} {outcome : Outcome} {run : RunResult}
    (hreaches : Interaction.Reaches (step sampler) (.start input budget) final)
    (htake : takeRun (final.markComplete outcome) = some run) :
    ∃ root, final.streams[0]? = some root ∧
      run.nodes = final.realized root.record ∧
        run.spans = root.record.spans := by
  obtain ⟨root, hroot, hgrows⟩ :=
    (TestCaseFamily.grows_of_reaches hreaches).streams 0 _ rfl
  have hlevels : maxCloneDepth + 1 - root.record.cloneId.length =
      maxCloneDepth + 1 := by
    rw [hgrows.cloneId]
    rfl
  have hhead : (final.markComplete outcome).records.head? =
      some root.record := by
    rw [List.head?_eq_getElem?, TestCaseFamily.records, List.getElem?_map]
    exact congrArg (Option.map NativeTestCase.record) hroot
  have hconcluded : (final.markComplete outcome).family.conclusion.isSome :=
    final.family.conclude_isSome _ _
  obtain ⟨verdict, hverdict⟩ := Option.isSome_iff_exists.mp hconcluded
  rw [takeRun, hhead, hverdict] at htake
  simp only [Option.some.injEq] at htake
  refine ⟨root, hroot, ?_, ?_⟩
  · rw [← htake, takeNodes, if_pos hconcluded, TestCaseFamily.realized, hlevels]
    rfl
  · rw [← htake]

end Hegel
