/-
The order that shrinking descends.  Node sequences compare by flattened length,
then by length, then key by key; keys of different kinds live in one order, and
the key of a clone node is its own stream compared the same way.
-/
import Hegel.ChoiceNode
import Hegel.Lib.RoseOrder

namespace Hegel

/-- Per-element keys of a sequence value. -/
inductive SeqKeys where
  | bytes (value : List UInt8)
  | string (constraint : StringChoice) (value : List UInt32)

def SeqKeys.keys : SeqKeys → List Nat
  | bytes value => value.map UInt8.toNat
  | string sc value => value.map sc.codepointKey

/-- A node's sort key: scalars first, then sequences, then clones. -/
inductive NodeSortKeyRef where
  | scalar (magnitude : Nat) (negative : Bool)
  | seq (keys : SeqKeys)
  | clone (stream : RealizedStream)

namespace NodeSortKeyRef

def category : NodeSortKeyRef → Nat
  | scalar _ _ => 0
  | seq _ => 1
  | clone _ => 2

/-- Comparison of keys, given the comparison of clone streams. -/
def cmpWith (streamsCmp : RealizedStream → RealizedStream → Ordering) :
    NodeSortKeyRef → NodeSortKeyRef → Ordering
  | scalar am an, scalar bm bn =>
      (compare am bm).then (compare an.toNat bn.toNat)
  | clone a, clone b => streamsCmp a b
  | seq a, seq b => shortlexCmp compare a.keys b.keys
  | a, b => compare a.category b.category

end NodeSortKeyRef

def ChoiceData.sortKeyRef : ChoiceData → NodeSortKeyRef
  | .integer ic v => .scalar (ic.sortKey v).1 (ic.sortKey v).2
  | .boolean _ v => .scalar v.toNat false
  | .float fc v => .scalar (fc.sortKey v).1 (fc.sortKey v).2
  | .bytes _ v => .seq (.bytes v)
  | .string sc v => .seq (.string sc v)
  | .clone stream => .clone stream

def ChoiceNode.sortKeyRef (node : ChoiceNode) : NodeSortKeyRef :=
  node.data.sortKeyRef

mutual

/-- The order between two nodes' keys; only clones recurse. -/
def dataKeyCmp : ChoiceData → ChoiceData → Ordering
  | .clone a, .clone b => realizedStreamsCmp a b
  | a, b =>
      NodeSortKeyRef.cmpWith (fun _ _ => .eq) a.sortKeyRef b.sortKeyRef
  termination_by structural a => a

/-- The order between two realized clone streams. -/
def realizedStreamsCmp : RealizedStream → RealizedStream → Ordering
  | .mk nodes _ flatLen, .mk nodes' _ flatLen' =>
      (compare flatLen flatLen').then
        ((compare nodes.length nodes'.length).then
          (elementwiseNodesCmp nodes nodes'))

def nodeKeyCmp : ChoiceNode → ChoiceNode → Ordering
  | .mk a _, .mk b _ => dataKeyCmp a b

/-- Per-node key comparison of two equal-length sequences. -/
def elementwiseNodesCmp : List ChoiceNode → List ChoiceNode → Ordering
  | a :: as, b :: bs => (nodeKeyCmp a b).then (elementwiseNodesCmp as bs)
  | _, _ => .eq

end

/-- The order on sort keys of nodes. -/
def NodeSortKeyRef.cmp : NodeSortKeyRef → NodeSortKeyRef → Ordering :=
  cmpWith realizedStreamsCmp

/-- The shortlex order on node sequences. -/
def nodesSortKeyCmp (a b : List ChoiceNode) : Ordering :=
  (compare (flattenedLen a) (flattenedLen b)).then
    ((compare a.length b.length).then (elementwiseNodesCmp a b))

mutual

/-- Whether every cached length below the data is the length it stands for. -/
def ChoiceData.Coherent : ChoiceData → Prop
  | .clone stream => stream.Coherent
  | _ => True

def RealizedStream.Coherent : RealizedStream → Prop
  | .mk nodes _ flatLen => flatLen = flattenedLen nodes ∧ NodesCoherent nodes

def ChoiceNode.Coherent : ChoiceNode → Prop
  | .mk data _ => data.Coherent

/-- The node sequences whose streams were built by the constructors. -/
def NodesCoherent : List ChoiceNode → Prop
  | [] => True
  | node :: rest => node.Coherent ∧ NodesCoherent rest

end

/-- Realizing a coherent sequence caches the right length. -/
theorem RealizedStream.new_coherent {nodes : List ChoiceNode}
    (hnodes : NodesCoherent nodes) (spans : List Span) :
    (RealizedStream.new nodes spans).Coherent :=
  ⟨rfl, hnodes⟩

/-- A realised node sequence. -/
def RealizedNodes := {nodes : List ChoiceNode // NodesCoherent nodes}

/-- The key of a scalar or sequence node as one list of numbers; the padding
makes every sequence longer than every scalar. -/
def NodeSortKeyRef.label : NodeSortKeyRef → List Nat
  | scalar magnitude negative => [magnitude, negative.toNat]
  | seq keys => 0 :: 0 :: 0 :: keys.keys
  | clone _ => []

mutual

/-- The tree of keys behind a node. -/
def ChoiceData.keyTree : ChoiceData → Rose (List Nat)
  | .clone stream => stream.keyTree
  | data => .leaf data.sortKeyRef.label

def RealizedStream.keyTree : RealizedStream → Rose (List Nat)
  | .mk nodes _ _ => .node (keyForest nodes)

def ChoiceNode.keyTree : ChoiceNode → Rose (List Nat)
  | .mk data _ => data.keyTree

/-- The forest of keys behind a node sequence. -/
def keyForest : List ChoiceNode → List (Rose (List Nat))
  | [] => []
  | node :: rest => node.keyTree :: keyForest rest

end

theorem length_keyForest (nodes : List ChoiceNode) :
    (keyForest nodes).length = nodes.length := by
  induction nodes with
  | nil => rfl
  | cons node rest ih => rw [keyForest, List.length_cons, ih, List.length_cons]

theorem flattenedLen_cons (node : ChoiceNode) (rest : List ChoiceNode) :
    flattenedLen (node :: rest) = node.data.weight + flattenedLen rest := by
  rw [flattenedLen, flattenedLen, List.map_cons, List.sum_cons]

theorem keyTree_of_not_clone {data : ChoiceData}
    (hdata : ∀ stream, data ≠ .clone stream) :
    data.keyTree = .leaf data.sortKeyRef.label := by
  cases data with
  | clone stream => exact absurd rfl (hdata stream)
  | _ => rfl

theorem weight_of_not_clone {data : ChoiceData}
    (hdata : ∀ stream, data ≠ .clone stream) : data.weight = 1 := by
  cases data with
  | clone stream => exact absurd rfl (hdata stream)
  | _ => rfl

/-- In a realised sequence the flattened length is the size of the forest. -/
theorem forestSize_keyForest {nodes : List ChoiceNode}
    (hnodes : NodesCoherent nodes) :
    Rose.forestSize (keyForest nodes) = flattenedLen nodes := by
  induction nodes using nodesInduction with
  | nil => rfl
  | scalar data forced rest hdata ih =>
      rw [keyForest, Rose.forestSize, ih hnodes.2, flattenedLen_cons,
        ChoiceNode.keyTree, keyTree_of_not_clone hdata, Rose.size]
      exact congrArg (· + flattenedLen rest) (weight_of_not_clone hdata).symm
  | clone nodes spans flatLen forced rest ihNodes ihRest =>
      obtain ⟨⟨hflat, hcoherent⟩, hrest⟩ := hnodes
      rw [keyForest, Rose.forestSize, ihRest hrest, flattenedLen_cons,
        ChoiceNode.keyTree, ChoiceData.keyTree, RealizedStream.keyTree,
        Rose.size, ihNodes hcoherent, ← hflat]
      rfl

theorem compare_add_right (a b c : Nat) :
    compare (a + c) (b + c) = compare a b := by
  rcases Nat.lt_trichotomy a b with hlt | heq | hgt
  · rw [Nat.compare_eq_lt.mpr hlt,
      Nat.compare_eq_lt.mpr (Nat.add_lt_add_right hlt c)]
  · rw [heq]
    simp
  · rw [Nat.compare_eq_gt.mpr hgt,
      Nat.compare_eq_gt.mpr (Nat.add_lt_add_right hgt c)]

/-- Scalar and sequence keys compare as their labels do. -/
theorem shortlexCmp_label {a b : NodeSortKeyRef}
    (streamsCmp : RealizedStream → RealizedStream → Ordering)
    (ha : ∀ stream, a ≠ .clone stream) (hb : ∀ stream, b ≠ .clone stream) :
    shortlexCmp compare a.label b.label = a.cmpWith streamsCmp b := by
  cases a with
  | clone stream => exact absurd rfl (ha stream)
  | scalar am an =>
      cases b with
      | clone stream => exact absurd rfl (hb stream)
      | scalar bm bn =>
          simp [NodeSortKeyRef.label, NodeSortKeyRef.cmpWith, shortlexCmp,
            elementsCmp]
      | seq b =>
          have hlength : compare 2 (b.keys.length + 3) = .lt :=
            Nat.compare_eq_lt.mpr (by omega)
          rw [shortlexCmp, NodeSortKeyRef.label, NodeSortKeyRef.label]
          simp only [List.length_cons, List.length_nil, hlength]
          rfl
  | seq a =>
      cases b with
      | clone stream => exact absurd rfl (hb stream)
      | scalar bm bn =>
          have hlength : compare (a.keys.length + 3) 2 = .gt :=
            Nat.compare_eq_gt.mpr (by omega)
          rw [shortlexCmp, NodeSortKeyRef.label, NodeSortKeyRef.label]
          simp only [List.length_cons, List.length_nil, hlength]
          rfl
      | seq b =>
          simp [NodeSortKeyRef.label, NodeSortKeyRef.cmpWith, shortlexCmp,
            elementsCmp, compare_add_right]

theorem sortKeyRef_of_not_clone {data : ChoiceData}
    (hdata : ∀ stream, data ≠ .clone stream) (stream : RealizedStream) :
    data.sortKeyRef ≠ .clone stream := by
  cases data with
  | clone stream => exact absurd rfl (hdata stream)
  | _ => simp [ChoiceData.sortKeyRef]

theorem dataKeyCmp_eq_cmpWith {a b : ChoiceData}
    (ha : ∀ stream, a ≠ .clone stream) :
    dataKeyCmp a b =
      NodeSortKeyRef.cmpWith (fun _ _ => .eq) a.sortKeyRef b.sortKeyRef := by
  cases a with
  | clone stream => exact absurd rfl (ha stream)
  | _ => cases b <;> rfl

/-- The abstract order on forests of keys. -/
def keyForestCmp : List (Rose (List Nat)) → List (Rose (List Nat)) → Ordering :=
  Rose.forestCmp (shortlexCmp compare)

/-- Key by key, node sequences compare as their forests do root by root. -/
theorem rootsCmp_keyForest {a b : List ChoiceNode} (ha : NodesCoherent a)
    (hb : NodesCoherent b) :
    Rose.rootsCmp (shortlexCmp compare) (keyForest a) (keyForest b) =
      elementwiseNodesCmp a b := by
  induction a using nodesInduction generalizing b with
  | nil => cases b <;> rfl
  | scalar data forced rest hdata ih =>
      cases b with
      | nil => rfl
      | cons node rest' =>
          obtain ⟨data', forced'⟩ := node
          rw [keyForest, keyForest, Rose.rootsCmp_cons, ih ha.2 hb.2,
            elementwiseNodesCmp, nodeKeyCmp, dataKeyCmp_eq_cmpWith hdata,
            ChoiceNode.keyTree, ChoiceNode.keyTree, keyTree_of_not_clone hdata]
          refine congrArg (Ordering.then · _) ?_
          have hkey := sortKeyRef_of_not_clone hdata
          by_cases hdata' : ∀ stream, data' ≠ .clone stream
          · rw [keyTree_of_not_clone hdata', Rose.cmp]
            exact shortlexCmp_label _ hkey (sortKeyRef_of_not_clone hdata')
          · obtain ⟨stream, rfl⟩ : ∃ stream, data' = .clone stream := by
              simpa using hdata'
            obtain ⟨nodes, spans, flatLen⟩ := stream
            cases data with
            | clone stream => exact absurd rfl (hdata stream)
            | _ => rfl
  | clone nodes spans flatLen forced rest ihNodes ihRest =>
      cases b with
      | nil => rfl
      | cons node rest' =>
          obtain ⟨data', forced'⟩ := node
          rw [keyForest, keyForest, Rose.rootsCmp_cons, ihRest ha.2 hb.2,
            elementwiseNodesCmp, nodeKeyCmp]
          refine congrArg (Ordering.then · _) ?_
          cases data' with
          | clone stream =>
              obtain ⟨nodes', spans', flatLen'⟩ := stream
              obtain ⟨⟨hflat, hnodes⟩, _⟩ := ha
              obtain ⟨⟨hflat', hnodes'⟩, _⟩ := hb
              rw [ChoiceNode.keyTree, ChoiceNode.keyTree, ChoiceData.keyTree,
                ChoiceData.keyTree, RealizedStream.keyTree,
                RealizedStream.keyTree, Rose.cmp_node, Rose.forestCmp,
                forestSize_keyForest hnodes, forestSize_keyForest hnodes',
                length_keyForest, length_keyForest, ihNodes hnodes hnodes',
                dataKeyCmp, realizedStreamsCmp, hflat, hflat']
          | _ => rfl

/-- The order on realised sequences is the order on their forests of keys. -/
theorem nodesSortKeyCmp_eq {a b : List ChoiceNode} (ha : NodesCoherent a)
    (hb : NodesCoherent b) :
    nodesSortKeyCmp a b = keyForestCmp (keyForest a) (keyForest b) := by
  rw [nodesSortKeyCmp, keyForestCmp, Rose.forestCmp, forestSize_keyForest ha,
    forestSize_keyForest hb, length_keyForest, length_keyForest,
    rootsCmp_keyForest ha hb]

namespace RealizedNodes

/-- The order on realised node sequences. -/
def cmp (a b : RealizedNodes) : Ordering :=
  nodesSortKeyCmp a.val b.val

/-- The forest of keys of a realised sequence. -/
def keys (a : RealizedNodes) : List (Rose (List Nat)) :=
  keyForest a.val

theorem cmp_eq (a b : RealizedNodes) : a.cmp b = keyForestCmp a.keys b.keys :=
  nodesSortKeyCmp_eq a.property b.property

end RealizedNodes

section Order

variable {data data' data'' : ChoiceData} {stream : RealizedStream}

/-- Clones come last. -/
theorem dataKeyCmp_clone_right (hdata : ∀ stream, data ≠ .clone stream) :
    dataKeyCmp data (.clone stream) = .lt := by
  cases data with
  | clone stream => exact absurd rfl (hdata stream)
  | _ => rfl

theorem dataKeyCmp_clone_left (hdata : ∀ stream, data ≠ .clone stream) :
    dataKeyCmp (.clone stream) data = .gt := by
  cases data with
  | clone stream => exact absurd rfl (hdata stream)
  | _ => rfl

theorem dataKeyCmp_eq_shortlexCmp (hdata : ∀ stream, data ≠ .clone stream)
    (hdata' : ∀ stream, data' ≠ .clone stream) :
    dataKeyCmp data data' =
      shortlexCmp compare data.sortKeyRef.label data'.sortKeyRef.label := by
  rw [dataKeyCmp_eq_cmpWith hdata]
  exact (shortlexCmp_label _ (sortKeyRef_of_not_clone hdata)
    (sortKeyRef_of_not_clone hdata')).symm

/-- The keys of two streams compare by what their nodes do. -/
theorem realizedStreamsCmp_composes {nodes nodes' nodes'' : List ChoiceNode}
    {spans spans' spans'' : List Span} {flatLen flatLen' flatLen'' : Nat}
    (hnodes : nodes.length = nodes'.length → nodes'.length = nodes''.length →
      Composes (elementwiseNodesCmp nodes nodes')
        (elementwiseNodesCmp nodes' nodes'')
        (elementwiseNodesCmp nodes nodes'')) :
    Composes
      (realizedStreamsCmp (.mk nodes spans flatLen) (.mk nodes' spans' flatLen'))
      (realizedStreamsCmp (.mk nodes' spans' flatLen')
        (.mk nodes'' spans'' flatLen''))
      (realizedStreamsCmp (.mk nodes spans flatLen)
        (.mk nodes'' spans'' flatLen'')) := by
  rw [realizedStreamsCmp, realizedStreamsCmp, realizedStreamsCmp]
  apply (composes_cmp compare flatLen flatLen' flatLen'').then
  intro _ _
  apply (composes_cmp compare nodes.length nodes'.length nodes''.length).then
  intro hlength hlength'
  exact hnodes (Nat.compare_eq_eq.mp hlength) (Nat.compare_eq_eq.mp hlength')

theorem dataKeyCmp_composes
    (hclones : ∀ stream stream' stream'', data = .clone stream →
      data' = .clone stream' → data'' = .clone stream'' →
      Composes (realizedStreamsCmp stream stream')
        (realizedStreamsCmp stream' stream'')
        (realizedStreamsCmp stream stream'')) :
    Composes (dataKeyCmp data data') (dataKeyCmp data' data'')
      (dataKeyCmp data data'') := by
  by_cases hdata : ∀ stream, data ≠ .clone stream
  · by_cases hdata' : ∀ stream, data' ≠ .clone stream
    · by_cases hdata'' : ∀ stream, data'' ≠ .clone stream
      · rw [dataKeyCmp_eq_shortlexCmp hdata hdata',
          dataKeyCmp_eq_shortlexCmp hdata' hdata'',
          dataKeyCmp_eq_shortlexCmp hdata hdata'']
        exact composes_cmp (shortlexCmp compare) _ _ _
      · obtain ⟨stream'', rfl⟩ : ∃ stream, data'' = .clone stream := by
          simpa using hdata''
        rw [dataKeyCmp_clone_right hdata, dataKeyCmp_clone_right hdata']
        exact ⟨fun _ => rfl, fun h => (by cases h), fun h => h.symm⟩
    · obtain ⟨stream', rfl⟩ : ∃ stream, data' = .clone stream := by
        simpa using hdata'
      rw [dataKeyCmp_clone_right hdata]
      by_cases hdata'' : ∀ stream, data'' ≠ .clone stream
      · rw [dataKeyCmp_clone_left hdata'']
        exact ⟨fun h => (by cases h), fun h => (by cases h),
          fun h => (by cases h)⟩
      · obtain ⟨stream'', rfl⟩ : ∃ stream, data'' = .clone stream := by
          simpa using hdata''
        rw [dataKeyCmp_clone_right hdata]
        exact ⟨fun h => (by cases h), fun _ => rfl, fun _ => rfl⟩
  · obtain ⟨stream, rfl⟩ : ∃ stream, data = .clone stream := by
      simpa using hdata
    by_cases hdata' : ∀ stream, data' ≠ .clone stream
    · rw [dataKeyCmp_clone_left hdata']
      by_cases hdata'' : ∀ stream, data'' ≠ .clone stream
      · rw [dataKeyCmp_clone_left hdata'']
        exact ⟨fun h => (by cases h), fun _ => rfl, fun _ => rfl⟩
      · obtain ⟨stream'', rfl⟩ : ∃ stream, data'' = .clone stream := by
          simpa using hdata''
        rw [dataKeyCmp_clone_right hdata']
        exact ⟨fun h => (by cases h), fun h => (by cases h),
          fun h => (by cases h)⟩
    · obtain ⟨stream', rfl⟩ : ∃ stream, data' = .clone stream := by
        simpa using hdata'
      by_cases hdata'' : ∀ stream, data'' ≠ .clone stream
      · rw [dataKeyCmp_clone_left hdata'', dataKeyCmp_clone_left hdata'']
        exact ⟨fun _ => rfl, fun h => (by cases h), fun h => h.symm⟩
      · obtain ⟨stream'', rfl⟩ : ∃ stream, data'' = .clone stream := by
          simpa using hdata''
        exact hclones stream stream' stream'' rfl rfl rfl

/-- Key by key, sequences of one length are ordered. -/
theorem elementwiseNodesCmp_composes {a b c : List ChoiceNode}
    (hab : a.length = b.length) (hbc : b.length = c.length) :
    Composes (elementwiseNodesCmp a b) (elementwiseNodesCmp b c)
      (elementwiseNodesCmp a c) := by
  induction a using nodesInduction generalizing b c with
  | nil =>
      cases b with
      | nil => exact ⟨fun _ => rfl, fun h => h, fun h => h⟩
      | cons node rest => simp at hab
  | scalar data forced rest hdata ih =>
      cases b with
      | nil => simp at hab
      | cons node' rest' =>
          cases c with
          | nil => simp at hbc
          | cons node'' rest'' =>
              obtain ⟨data', forced'⟩ := node'
              obtain ⟨data'', forced''⟩ := node''
              simp only [elementwiseNodesCmp, nodeKeyCmp]
              apply (dataKeyCmp_composes ?_).then
              · intro _ _
                exact ih (by simpa using hab) (by simpa using hbc)
              · intro stream _ _ hclone
                exact absurd hclone (hdata stream)
  | clone nodes spans flatLen forced rest ihNodes ihRest =>
      cases b with
      | nil => simp at hab
      | cons node' rest' =>
          cases c with
          | nil => simp at hbc
          | cons node'' rest'' =>
              obtain ⟨data', forced'⟩ := node'
              obtain ⟨data'', forced''⟩ := node''
              simp only [elementwiseNodesCmp, nodeKeyCmp]
              apply (dataKeyCmp_composes ?_).then
              · intro _ _
                exact ihRest (by simpa using hab) (by simpa using hbc)
              · rintro _ ⟨nodes', spans', flatLen'⟩ ⟨nodes'', spans'', flatLen''⟩
                  hclone rfl rfl
                cases hclone
                exact realizedStreamsCmp_composes ihNodes

theorem elementwiseNodesCmp_swap (a b : List ChoiceNode) :
    (elementwiseNodesCmp a b).swap = elementwiseNodesCmp b a := by
  induction a using nodesInduction generalizing b with
  | nil => cases b <;> rfl
  | scalar data forced rest hdata ih =>
      cases b with
      | nil => rfl
      | cons node' rest' =>
          obtain ⟨data', forced'⟩ := node'
          simp only [elementwiseNodesCmp, nodeKeyCmp]
          rw [Ordering.swap_then, ih]
          refine congrArg (Ordering.then · _) ?_
          by_cases hdata' : ∀ stream, data' ≠ .clone stream
          · rw [dataKeyCmp_eq_shortlexCmp hdata hdata',
              dataKeyCmp_eq_shortlexCmp hdata' hdata]
            exact Std.OrientedCmp.eq_swap.symm
          · obtain ⟨stream', rfl⟩ : ∃ stream, data' = .clone stream := by
              simpa using hdata'
            rw [dataKeyCmp_clone_right hdata, dataKeyCmp_clone_left hdata]
            rfl
  | clone nodes spans flatLen forced rest ihNodes ihRest =>
      cases b with
      | nil => rfl
      | cons node' rest' =>
          obtain ⟨data', forced'⟩ := node'
          simp only [elementwiseNodesCmp, nodeKeyCmp]
          rw [Ordering.swap_then, ihRest]
          refine congrArg (Ordering.then · _) ?_
          by_cases hdata' : ∀ stream, data' ≠ .clone stream
          · rw [dataKeyCmp_clone_left hdata', dataKeyCmp_clone_right hdata']
            rfl
          · obtain ⟨⟨nodes', spans', flatLen'⟩, rfl⟩ :
                ∃ stream, data' = .clone stream := by
              simpa using hdata'
            rw [dataKeyCmp, dataKeyCmp, realizedStreamsCmp, realizedStreamsCmp,
              Ordering.swap_then, Ordering.swap_then, ihNodes,
              Nat.compare_swap, Nat.compare_swap]

/-- Comparing sequences is oriented and transitive, whatever their streams
have cached. -/
instance : Std.OrientedCmp nodesSortKeyCmp where
  eq_swap := by
    intro a b
    rw [nodesSortKeyCmp, nodesSortKeyCmp, Ordering.swap_then,
      Ordering.swap_then, elementwiseNodesCmp_swap, Nat.compare_swap,
      Nat.compare_swap]

instance : Std.TransCmp nodesSortKeyCmp where
  isLE_trans := by
    intro a b c hab hbc
    refine Composes.isLE ?_ hab hbc
    rw [nodesSortKeyCmp, nodesSortKeyCmp, nodesSortKeyCmp]
    apply (composes_cmp compare (flattenedLen a) (flattenedLen b)
      (flattenedLen c)).then
    intro _ _
    apply (composes_cmp compare a.length b.length c.length).then
    intro hlength hlength'
    exact elementwiseNodesCmp_composes (Nat.compare_eq_eq.mp hlength)
      (Nat.compare_eq_eq.mp hlength')

/-- What is not below is at or above. -/
theorem isLE_of_not_lt {a b : List ChoiceNode}
    (hnot : nodesSortKeyCmp b a ≠ .lt) : (nodesSortKeyCmp a b).isLE := by
  have hswap : nodesSortKeyCmp a b = (nodesSortKeyCmp b a).swap :=
    Std.OrientedCmp.eq_swap
  rw [hswap]
  cases hcmp : nodesSortKeyCmp b a with
  | lt => exact absurd hcmp hnot
  | eq => rfl
  | gt => rfl

end Order

/-- The labels of keys are well ordered. -/
theorem wellFounded_labelCmp :
    WellFounded fun a b : List Nat => shortlexCmp compare a b = .lt := by
  apply wellFounded_shortlexCmp
  simp only [Nat.compare_eq_lt]
  exact Nat.lt_wfRel.wf

/-- The order that shrinking descends is a well-founded total preorder: at or
below is reflexive, transitive and total, comparing equal is the equivalence
it induces and is respected by it, and strict descent always ends. -/
theorem nodesSortKey_wellFounded_totalPreorder :
    (∀ a : RealizedNodes, a.cmp a = .eq) ∧
      (∀ a b c : RealizedNodes, (a.cmp b).isLE → (b.cmp c).isLE →
        (a.cmp c).isLE) ∧
      (∀ a b : RealizedNodes, (a.cmp b).isLE ∨ (b.cmp a).isLE) ∧
      (∀ a b : RealizedNodes,
        a.cmp b = .eq ↔ (a.cmp b).isLE ∧ (b.cmp a).isLE) ∧
      (Equivalence fun a b : RealizedNodes => a.cmp b = .eq) ∧
      (∀ a a' b b' : RealizedNodes, a.cmp a' = .eq → b.cmp b' = .eq →
        a.cmp b = a'.cmp b') ∧
      (WellFounded fun a b : RealizedNodes => a.cmp b = .lt) := by
  simp only [RealizedNodes.cmp_eq, keyForestCmp]
  refine ⟨?_, ?_, ?_, ?_, ?_, ?_, ?_⟩
  · intro a
    exact Std.ReflCmp.compare_self
  · intro a b c hab hbc
    exact Std.TransCmp.isLE_trans hab hbc
  · intro a b
    rw [← Rose.forestCmp_swap a.keys b.keys]
    cases Rose.forestCmp (shortlexCmp compare) a.keys b.keys <;> simp
  · intro a b
    rw [← Rose.forestCmp_swap a.keys b.keys]
    cases Rose.forestCmp (shortlexCmp compare) a.keys b.keys <;> simp
  · simp only [Rose.forestCmp_eq_eq_iff_eq]
    exact ⟨fun _ => rfl, fun h => h.symm, fun h h' => h.trans h'⟩
  · intro a a' b b' ha hb
    rw [(Rose.forestCmp_eq_eq_iff_eq _ _).mp ha,
      (Rose.forestCmp_eq_eq_iff_eq _ _).mp hb]
  · exact InvImage.wf RealizedNodes.keys
      (Rose.wellFounded_forestCmp wellFounded_labelCmp)

end Hegel
