/-
Nodes given by the lists of their children.  If no node is a child twice, going
down from some roots that are nobody's children meets every node once.
-/
import Mathlib.Data.List.Nodup
import Mathlib.Data.List.Perm.Basic

namespace Hegel

variable {Node : Type} (kids : Node → List Node)

/-- Some nodes, each with its descendants behind it, down to a depth. -/
def descendants : Nat → List Node → List Node
  | 0, nodes => nodes
  | depth + 1, nodes =>
      nodes.flatMap fun node => node :: descendants depth (kids node)

/-- The descendants of one generation. -/
def generation : Nat → List Node → List Node
  | 0, nodes => nodes
  | depth + 1, nodes => generation depth (nodes.flatMap kids)

/-- No node is a child twice. -/
structure OneParent : Prop where
  nodup : ∀ node, (kids node).Nodup
  disjoint : ∀ parent parent', parent ≠ parent' →
    List.Disjoint (kids parent) (kids parent')

variable {kids}

theorem descendants_flatMap (depth : Nat) (nodes : List Node)
    (f : Node → List Node) :
    descendants kids depth (nodes.flatMap f) =
      nodes.flatMap fun node => descendants kids depth (f node) := by
  cases depth with
  | zero => rfl
  | succ depth => exact List.flatMap_assoc

/-- Depth first or by generations, the nodes are the same. -/
theorem descendants_perm (depth : Nat) (nodes : List Node) :
    (descendants kids depth nodes).Perm
      ((List.range (depth + 1)).flatMap
        fun age => generation kids age nodes) := by
  induction depth generalizing nodes with
  | zero =>
      rw [List.range_one, List.flatMap_singleton]
      exact List.Perm.refl _
  | succ depth ih =>
      have hsplit : (descendants kids (depth + 1) nodes).Perm
          (nodes ++ descendants kids depth (nodes.flatMap kids)) := by
        rw [descendants, descendants_flatMap]
        have happend := List.flatMap_append_perm nodes (fun node => [node])
          fun node => descendants kids depth (kids node)
        rw [List.flatMap_singleton'] at happend
        exact happend.symm
      refine hsplit.trans ?_
      rw [List.range_succ_eq_map, List.flatMap_cons, List.flatMap_map]
      exact (ih (nodes.flatMap kids)).append_left nodes

variable (hone : OneParent kids)

include hone in
theorem OneParent.nodup_flatMap {nodes : List Node} (hnodes : nodes.Nodup) :
    (nodes.flatMap kids).Nodup := by
  rw [List.nodup_flatMap]
  exact ⟨fun node _ => hone.nodup node,
    hnodes.imp fun {node node'} => hone.disjoint node node'⟩

theorem generation_succ (depth : Nat) (nodes : List Node) :
    generation kids (depth + 1) nodes =
      (generation kids depth nodes).flatMap kids := by
  induction depth generalizing nodes with
  | zero => rfl
  | succ depth ih => exact ih (nodes.flatMap kids)

include hone in
theorem nodup_generation (depth : Nat) {nodes : List Node}
    (hnodes : nodes.Nodup) : (generation kids depth nodes).Nodup := by
  induction depth generalizing nodes with
  | zero => exact hnodes
  | succ depth ih => exact ih (hone.nodup_flatMap hnodes)

include hone in
/-- A node of two generations has a parent of two generations, and so on up to
a root with a parent. -/
theorem disjoint_generation {nodes : List Node}
    (hroots : ∀ node ∈ nodes, ∀ parent, node ∉ kids parent) {age age' : Nat}
    (hlt : age < age') :
    List.Disjoint (generation kids age nodes)
      (generation kids age' nodes) := by
  induction age generalizing age' with
  | zero =>
      intro node hroot hlater
      obtain ⟨older, rfl⟩ :=
        Nat.exists_eq_succ_of_ne_zero (Nat.ne_zero_of_lt hlt)
      rw [generation_succ] at hlater
      obtain ⟨parent, -, hchild⟩ := List.mem_flatMap.mp hlater
      exact hroots node hroot parent hchild
  | succ age ih =>
      intro node hfirst hlater
      obtain ⟨older, rfl⟩ :=
        Nat.exists_eq_succ_of_ne_zero (Nat.ne_zero_of_lt hlt)
      rw [generation_succ] at hfirst hlater
      obtain ⟨parent, hparent, hchild⟩ := List.mem_flatMap.mp hfirst
      obtain ⟨parent', hparent', hchild'⟩ := List.mem_flatMap.mp hlater
      obtain rfl : parent = parent' := by
        by_contra hne
        exact hone.disjoint parent parent' hne hchild hchild'
      exact ih (Nat.lt_of_succ_lt_succ hlt) hparent hparent'

include hone in
/-- Every node is met once. -/
theorem nodup_descendants (depth : Nat) {nodes : List Node}
    (hnodes : nodes.Nodup)
    (hroots : ∀ node ∈ nodes, ∀ parent, node ∉ kids parent) :
    (descendants kids depth nodes).Nodup := by
  rw [(descendants_perm depth nodes).nodup_iff, List.nodup_flatMap]
  refine ⟨fun age _ => nodup_generation hone age hnodes, ?_⟩
  refine List.pairwise_lt_range.imp ?_
  exact fun {age age'} hlt => disjoint_generation hone hroots hlt

end Hegel
