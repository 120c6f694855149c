/-
Every recorded node is valid for the constraint recorded beside it, in every
stream and after any operations, whatever values are replayed and whatever
comes after them.
-/
import Hegel.Steps

namespace Hegel

variable {Rng : Type} {sampler : Sampler Rng}

/-- All nodes of a test case carry values their constraints admit. -/
def TestCaseFamily.NodesValid (state : TestCaseFamily Rng) : Prop :=
  ∀ stream ∈ state.streams, ∀ node ∈ stream.record.nodes,
    node.data.validate = true

/-- A request records nothing but valid data. -/
theorem DrawRequest.Lawful.validate {request : DrawRequest Rng}
    (hlawful : request.Lawful) {drawn : Drawn} {wasForced : Bool}
    (hproduces : request.Produces drawn wasForced) :
    drawn.data.validate = true := by
  cases request with
  | resolve draw => exact hlawful.valid drawn hproduces.1
  | forced given =>
      obtain ⟨rfl, -⟩ := hproduces
      exact hlawful

/-- What holds of everything that is recorded holds of all nodes after any
operation. -/
theorem nodes_step {holds : ChoiceNode → Prop}
    {state next : TestCaseFamily Rng} {request : StreamRequest}
    {reply : StreamReply}
    (hdrawn : ∀ (op : DrawOp) (drawRequest : DrawRequest Rng) (drawn : Drawn)
      (wasForced : Bool), op.request sampler state.family = .ok drawRequest →
        drawRequest.Produces drawn wasForced → holds (.mk drawn.data wasForced))
    (hclone : holds clonePlaceholder)
    (hnodes : ∀ stream ∈ state.streams, ∀ node ∈ stream.record.nodes,
      holds node)
    (hanswer : step sampler state request = .ok (reply, next)) :
    ∀ stream ∈ next.streams, ∀ node ∈ stream.record.nodes, holds node := by
  cases step_cases hanswer with
  | unchanged => exact hnodes
  | overran draws hopen hdraws => exact hnodes
  | @drew stream op drawRequest drawn input wasForced hstream hrequest hopen
      hbudget hproduces =>
      apply forall_mem_set hnodes
      intro node hnode
      rcases List.mem_append.mp hnode with hold | hnew
      · exact hnodes stream (List.mem_of_getElem? hstream) node hold
      · rw [List.mem_singleton.mp hnew]
        exact hdrawn op drawRequest drawn wasForced hrequest hproduces
  | @tooDeep stream hstream hop hopen hbudget hdepth =>
      apply forall_mem_set hnodes
      intro node hnode
      rw [stream.record.sameTree_freeze.nodes] at hnode
      exact hnodes stream (List.mem_of_getElem? hstream) node hnode
  | @cloned stream childRng input hstream hopen hbudget hdepth =>
      intro stream' hstream'
      rcases List.mem_append.mp hstream' with hold | hnew
      · refine forall_mem_set hnodes ?_ _ stream' hold
        intro node hnode
        rcases List.mem_append.mp hnode with hold | hnew
        · exact hnodes stream (List.mem_of_getElem? hstream) node hold
        · rw [List.mem_singleton.mp hnew]
          exact hclone
      · rw [List.mem_singleton.mp hnew]
        intro node hnode
        cases hnode
  | @recorded stream op family record hstream hop hrecorded hfamily hrecord =>
      apply forall_mem_set hnodes
      intro node hnode
      rw [hrecord.nodes] at hnode
      exact hnodes stream (List.mem_of_getElem? hstream) node hnode

/-- One operation keeps the nodes valid. -/
theorem nodesValid_step {state next : TestCaseFamily Rng}
    {request : StreamRequest} {reply : StreamReply}
    (hvalid : state.NodesValid)
    (hanswer : step sampler state request = .ok (reply, next)) :
    next.NodesValid :=
  nodes_step (fun _ _ _ _ hrequest hproduces =>
    (DrawOp.request_lawful sampler hrequest).validate hproduces) rfl hvalid
      hanswer

/-- From the start of any test case, every operation on any of its streams
keeps all recorded nodes valid. -/
theorem recordedNodes_valid (sampler : Sampler Rng) (input : StreamInput Rng)
    (budget : Nat) {state : TestCaseFamily Rng}
    (hreaches : Interaction.Reaches (step sampler) (.start input budget)
      state) : state.NodesValid := by
  refine hreaches.invariant (fun _ _ _ _ => nodesValid_step) ?_
  intro stream hstream node hnode
  rw [List.mem_singleton.mp hstream] at hnode
  cases hnode

/-- Neither replayed value fits its draw, and both give way to a valid one. -/
theorem recordedNodes_valid_sample :
    ∃ state, Interaction.Reaches (step Sampler.simplest)
        (.start ⟨[.integer 7, .boolean true], none, none, 2, none⟩ 8) state ∧
      state.records.map StreamRecord.nodes =
        [[.mk (.integer ⟨0, 3, 0, by decide⟩ 1) false,
          .mk (.bytes ⟨1, 2, by decide⟩ [1]) false]] ∧
      state.NodesValid := by
  have hreaches : Interaction.Reaches (step Sampler.simplest)
      (.start ⟨[.integer 7, .boolean true], none, none, 2, none⟩ 8) _ :=
    .tail (.tail .refl ⟨⟨0, .draw (.integer 0 3)⟩, _, rfl⟩)
      ⟨⟨0, .draw (.bytes 1 2)⟩, _, rfl⟩
  exact ⟨_, hreaches, rfl, recordedNodes_valid _ _ _ hreaches⟩

end Hegel
