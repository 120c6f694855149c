/-
Depth-first traversals of a tree.  Told the depth of every node and whether it
is a branch, a tracker finds out how many children each branch has: a branch
can be closed as soon as a node comes that is no deeper.  So a traversal that
is cut short has closed exactly the branches that it has gone beyond.
-/
import Mathlib.Data.List.TakeWhile
import Mathlib.Data.List.Infix

namespace Hegel

namespace Traversal

/-- A tree of which only the shape matters. -/
inductive Shape where
  | leaf
  | branch (children : List Shape)

/-- A branch of a traversed tree: where it comes in the traversal, how many
nodes there are from it on down, and its number of children. -/
structure BranchInfo where
  position : Nat
  size : Nat
  arity : Nat

mutual

/-- How many nodes a tree has. -/
def Shape.size : Shape → Nat
  | .leaf => 1
  | .branch children => 1 + sizes children

def sizes : List Shape → Nat
  | [] => 0
  | child :: rest => child.size + sizes rest

end

mutual

/-- The nodes of a tree at some depth, parents first, each with its depth and
whether it is a branch. -/
def Shape.preorder (depth : Nat) : Shape → List (Nat × Bool)
  | .leaf => [(depth, false)]
  | .branch children => (depth, true) :: preorders (depth + 1) children

def preorders (depth : Nat) : List Shape → List (Nat × Bool)
  | [] => []
  | child :: rest => child.preorder depth ++ preorders depth rest

end

mutual

/-- The branches of a tree whose traversal starts at some position, children
first. -/
def Shape.branches (start : Nat) : Shape → List BranchInfo
  | .leaf => []
  | .branch children =>
      branchesOf (start + 1) children ++
        [⟨start, 1 + sizes children, children.length⟩]

def branchesOf (start : Nat) : List Shape → List BranchInfo
  | [] => []
  | child :: rest =>
      child.branches start ++ branchesOf (start + child.size) rest

end

/-- The branches that may still get children, the deepest one first, each with
the children it has so far; and the numbers of children of the others. -/
structure Tracker where
  opened : List (Nat × Nat)
  closed : List Nat

namespace Tracker

def empty : Tracker :=
  ⟨[], []⟩

/-- Close the branches that are at least as deep. -/
def closeFrom (depth : Nat) (tracker : Tracker) : Tracker where
  opened := tracker.opened.dropWhile fun branch => decide (depth ≤ branch.1)
  closed := tracker.closed ++
    (tracker.opened.takeWhile fun branch => decide (depth ≤ branch.1)).map
      Prod.snd

/-- Count children of the deepest branch. -/
def addChildren (count : Nat) : List (Nat × Nat) → List (Nat × Nat)
  | [] => []
  | (depth, children) :: rest => (depth, children + count) :: rest

/-- Close what a node at some depth closes, and count it as a child unless it
is the root. -/
def enter (depth : Nat) (tracker : Tracker) : Tracker where
  opened :=
    if 0 < depth then addChildren 1 (tracker.closeFrom depth).opened
    else (tracker.closeFrom depth).opened
  closed := (tracker.closeFrom depth).closed

def push (depth : Nat) (tracker : Tracker) : Tracker :=
  { tracker with opened := (depth, 0) :: tracker.opened }

def observe (tracker : Tracker) (node : Nat × Bool) : Tracker :=
  if node.2 then (tracker.enter node.1).push node.1 else tracker.enter node.1

def track (tracker : Tracker) (nodes : List (Nat × Bool)) : Tracker :=
  nodes.foldl observe tracker

end Tracker

section Shapes

mutual

theorem length_preorder (depth : Nat) (tree : Shape) :
    (tree.preorder depth).length = tree.size := by
  match tree with
  | .leaf => rfl
  | .branch children =>
      rw [Shape.preorder, Shape.size, List.length_cons,
        length_preorders (depth + 1) children]
      omega

theorem length_preorders (depth : Nat) (trees : List Shape) :
    (preorders depth trees).length = sizes trees := by
  match trees with
  | [] => rfl
  | child :: rest =>
      rw [preorders, sizes, List.length_append, length_preorder depth child,
        length_preorders depth rest]

end

mutual

/-- A branch and what is below it are part of the traversal. -/
theorem branches_bounds {start : Nat} {tree : Shape} {info : BranchInfo}
    (hmem : info ∈ tree.branches start) :
    start ≤ info.position ∧ 0 < info.size ∧
      info.position + info.size ≤ start + tree.size := by
  match tree with
  | .leaf => cases hmem
  | .branch children =>
      rw [Shape.branches] at hmem
      rw [Shape.size]
      rcases List.mem_append.mp hmem with hbelow | hself
      · have hbounds := branchesOf_bounds hbelow
        omega
      · rw [List.mem_singleton.mp hself]
        exact ⟨le_refl _, by show 0 < 1 + _; omega, le_refl _⟩

theorem branchesOf_bounds {start : Nat} {trees : List Shape}
    {info : BranchInfo} (hmem : info ∈ branchesOf start trees) :
    start ≤ info.position ∧ 0 < info.size ∧
      info.position + info.size ≤ start + sizes trees := by
  match trees with
  | [] => cases hmem
  | child :: rest =>
      rw [branchesOf] at hmem
      rw [sizes]
      rcases List.mem_append.mp hmem with hchild | hrest
      · have hbounds := branches_bounds hchild
        omega
      · have hbounds := branchesOf_bounds hrest
        omega

end

end Shapes

section Closing

namespace Tracker

variable {tracker : Tracker} {depth : Nat}

theorem track_append (tracker : Tracker) (nodes rest : List (Nat × Bool)) :
    tracker.track (nodes ++ rest) = (tracker.track nodes).track rest :=
  List.foldl_append

theorem track_cons (tracker : Tracker) (node : Nat × Bool)
    (rest : List (Nat × Bool)) :
    tracker.track (node :: rest) = (tracker.observe node).track rest :=
  rfl

theorem addChildren_addChildren (n m : Nat) (opened : List (Nat × Nat)) :
    addChildren m (addChildren n opened) = addChildren (n + m) opened := by
  cases opened with
  | nil => rfl
  | cons branch rest =>
      rw [addChildren, addChildren, addChildren, Nat.add_assoc]

theorem addChildren_zero (opened : List (Nat × Nat)) :
    addChildren 0 opened = opened := by
  cases opened with
  | nil => rfl
  | cons branch rest => rfl

/-- Closing deeper branches first makes no difference. -/
theorem closeFrom_closeFrom {shallow deep : Nat} (hle : shallow ≤ deep)
    (tracker : Tracker) :
    (tracker.closeFrom deep).closeFrom shallow = tracker.closeFrom shallow := by
  have hsplit : ∀ opened : List (Nat × Nat),
      (opened.dropWhile fun b => decide (deep ≤ b.1)).dropWhile
          (fun b => decide (shallow ≤ b.1)) =
        opened.dropWhile (fun b => decide (shallow ≤ b.1)) ∧
      (opened.takeWhile fun b => decide (deep ≤ b.1)) ++
          (opened.dropWhile fun b => decide (deep ≤ b.1)).takeWhile
            (fun b => decide (shallow ≤ b.1)) =
        opened.takeWhile fun b => decide (shallow ≤ b.1) := by
    intro opened
    induction opened with
    | nil => exact ⟨rfl, rfl⟩
    | cons branch rest ih =>
        by_cases hdeep : deep ≤ branch.1
        · have hshallow : shallow ≤ branch.1 := hle.trans hdeep
          simp only [List.dropWhile_cons, List.takeWhile_cons,
            decide_eq_true hdeep, decide_eq_true hshallow, if_true,
            List.cons_append]
          exact ⟨ih.1, congrArg _ ih.2⟩
        · simp only [List.dropWhile_cons, List.takeWhile_cons,
            decide_eq_false hdeep, Bool.false_eq_true, if_false,
            List.nil_append, and_self]
  obtain ⟨hopened, hclosed⟩ := hsplit tracker.opened
  rw [closeFrom, closeFrom]
  simp only [hopened, List.append_assoc, ← List.map_append, hclosed]
  rfl

/-- Whether nothing is open at some depth or below. -/
def Below (depth : Nat) (opened : List (Nat × Nat)) : Prop :=
  ∀ branch ∈ opened.head?, branch.1 < depth

theorem closeFrom_of_below (hbelow : Below depth tracker.opened) :
    tracker.closeFrom depth = tracker := by
  obtain ⟨opened, closed⟩ := tracker
  cases opened with
  | nil =>
      rw [closeFrom]
      simp
  | cons branch rest =>
      have hlt : branch.1 < depth := hbelow branch rfl
      rw [closeFrom]
      simp [hlt]

theorem below_closeFrom (depth : Nat) (tracker : Tracker) :
    Below depth (tracker.closeFrom depth).opened := by
  intro branch hbranch
  have hnot := List.head?_dropWhile_not
    (fun b : Nat × Nat => decide (depth ≤ b.1)) tracker.opened
  rw [closeFrom] at hbranch
  rw [Option.mem_def] at hbranch
  simp only [hbranch] at hnot
  simpa using hnot

theorem below_addChildren (count : Nat) {opened : List (Nat × Nat)}
    (hbelow : Below depth opened) : Below depth (addChildren count opened) := by
  cases opened with
  | nil => exact hbelow
  | cons branch rest =>
      intro bumped hbumped
      cases hbumped
      exact hbelow branch rfl

theorem below_enter (depth : Nat) (tracker : Tracker) :
    Below depth (tracker.enter depth).opened := by
  rw [enter]
  by_cases hpos : 0 < depth
  · simp only [if_pos hpos]
    exact below_addChildren 1 (below_closeFrom depth tracker)
  · simp only [if_neg hpos]
    exact below_closeFrom depth tracker

/-- A branch that was opened stays open until its children are known. -/
theorem closeFrom_push (hbelow : Below depth tracker.opened) (count : Nat) :
    (Tracker.mk (addChildren count (tracker.push depth).opened)
      tracker.closed).closeFrom depth =
        ⟨tracker.opened, tracker.closed ++ [count]⟩ := by
  have hrest := closeFrom_of_below hbelow
  rw [closeFrom] at hrest
  have hopened := congrArg Tracker.opened hrest
  have hclosed := congrArg Tracker.closed hrest
  simp only [List.append_right_eq_self, List.map_eq_nil_iff] at hopened hclosed
  rw [closeFrom, push, addChildren]
  simp [hopened, hclosed]

end Tracker

end Closing

section Tracking

namespace Tracker

/-- The numbers of children of some branches. -/
def arities (branches : List BranchInfo) : List Nat :=
  branches.map BranchInfo.arity

theorem arities_append (branches rest : List BranchInfo) :
    arities (branches ++ rest) = arities branches ++ arities rest :=
  List.map_append

theorem observe_leaf (tracker : Tracker) (depth : Nat) :
    tracker.observe (depth, false) = tracker.enter depth :=
  rfl

theorem observe_branch (tracker : Tracker) (depth : Nat) :
    tracker.observe (depth, true) = (tracker.enter depth).push depth :=
  rfl

theorem below_push (depth : Nat) (tracker : Tracker) :
    Below (depth + 1) (tracker.push depth).opened := by
  intro branch hbranch
  cases hbranch
  exact Nat.lt_succ_self depth

mutual

/-- Once a whole tree is traversed and its branches are closed, what is left is
its root as a child of the branch above it. -/
theorem track_preorder (depth start : Nat) (tree : Shape) (tracker : Tracker) :
    (tracker.track (tree.preorder depth)).closeFrom depth =
      ⟨(tracker.enter depth).opened,
        (tracker.closeFrom depth).closed ++ arities (tree.branches start)⟩ := by
  match tree with
  | .leaf =>
      rw [Shape.preorder, track_cons, observe_leaf]
      change (tracker.enter depth).closeFrom depth = _
      rw [closeFrom_of_below (below_enter depth tracker), Shape.branches,
        arities, List.map_nil, List.append_nil]
      rfl
  | .branch children =>
      rw [Shape.preorder, track_cons, observe_branch,
        ← closeFrom_closeFrom (Nat.le_succ depth),
        track_preorders (depth + 1) (start + 1) children,
        closeFrom_of_below (below_push depth (tracker.enter depth)),
        Shape.branches, arities_append]
      have hclosed := closeFrom_push (below_enter depth tracker) children.length
      rw [closeFrom] at hclosed ⊢
      have hopened := congrArg Tracker.opened hclosed
      have hlog := congrArg Tracker.closed hclosed
      simp only [List.append_cancel_left_eq] at hopened hlog
      rw [if_pos (Nat.succ_pos depth)]
      simp only [hopened, hlog, List.append_assoc]
      rfl

theorem track_preorders (depth start : Nat) (trees : List Shape)
    (tracker : Tracker) :
    (tracker.track (preorders depth trees)).closeFrom depth =
      ⟨if 0 < depth then
          addChildren trees.length (tracker.closeFrom depth).opened
        else (tracker.closeFrom depth).opened,
        (tracker.closeFrom depth).closed ++
          arities (branchesOf start trees)⟩ := by
  match trees with
  | [] =>
      rw [preorders, branchesOf, arities, List.map_nil, List.append_nil,
        List.length_nil, addChildren_zero, ite_self]
      rfl
  | child :: rest =>
      rw [preorders, track_append,
        track_preorders depth (start + child.size) rest,
        track_preorder depth start child, branchesOf, arities_append,
        List.append_assoc, enter]
      by_cases hpos : 0 < depth
      · simp only [if_pos hpos, addChildren_addChildren, List.length_cons,
          Nat.add_comm 1]
      · simp only [if_neg hpos]

end

/-- The branches of a traversal that it has gone beyond after some nodes. -/
def passed (count : Nat) (branches : List BranchInfo) : List BranchInfo :=
  branches.filter fun info => decide (info.position + info.size < count)

theorem passed_append (count : Nat) (branches rest : List BranchInfo) :
    passed count (branches ++ rest) =
      passed count branches ++ passed count rest :=
  List.filter_append _ _

theorem passed_eq_self {count : Nat} {branches : List BranchInfo}
    (hpassed : ∀ info ∈ branches, info.position + info.size < count) :
    passed count branches = branches :=
  List.filter_eq_self.mpr fun info hmem =>
    decide_eq_true (hpassed info hmem)

theorem passed_eq_nil {count : Nat} {branches : List BranchInfo}
    (hahead : ∀ info ∈ branches, count ≤ info.position + info.size) :
    passed count branches = [] :=
  List.filter_eq_nil_iff.mpr fun info hmem => by
    have := hahead info hmem
    simpa using this

mutual

/-- A traversal that is cut short has closed what it has gone beyond. -/
theorem track_take (depth start : Nat) (tree : Shape) {count : Nat}
    (hpos : 0 < count) (hcount : count ≤ tree.size) (tracker : Tracker) :
    (tracker.track ((tree.preorder depth).take count)).closed =
      (tracker.closeFrom depth).closed ++
        arities (passed (start + count) (tree.branches start)) := by
  obtain ⟨count, rfl⟩ := Nat.exists_eq_succ_of_ne_zero hpos.ne'
  match tree with
  | .leaf =>
      rw [Shape.preorder, List.take_succ_cons, List.take_nil, track_cons,
        observe_leaf, Shape.branches, passed, List.filter_nil, arities,
        List.map_nil, List.append_nil]
      rfl
  | .branch children =>
      rw [Shape.size] at hcount
      have hself : passed (start + (count + 1))
          [⟨start, 1 + sizes children, children.length⟩] = [] := by
        apply passed_eq_nil
        intro info hmem
        rw [List.mem_singleton.mp hmem]
        show start + (count + 1) ≤ start + (1 + sizes children)
        omega
      rw [Shape.preorder, List.take_succ_cons, track_cons, observe_branch,
        Shape.branches, passed_append, hself, List.append_nil]
      have hbelow := closeFrom_of_below (below_push depth (tracker.enter depth))
      rcases Nat.eq_zero_or_pos count with rfl | hcount'
      · have hnone : passed (start + 1) (branchesOf (start + 1) children) =
            [] := by
          apply passed_eq_nil
          intro info hmem
          have hbounds := branchesOf_bounds hmem
          omega
        change (tracker.closeFrom depth).closed = (tracker.closeFrom depth).closed ++
          arities (passed (start + 1) (branchesOf (start + 1) children))
        rw [hnone, arities, List.map_nil, List.append_nil]
      · rw [track_preorders_take (depth + 1) (start + 1) children hcount'
          (by omega), hbelow, show start + (count + 1) = start + 1 + count by
          omega]
        rfl

theorem track_preorders_take (depth start : Nat) (trees : List Shape)
    {count : Nat} (hpos : 0 < count) (hcount : count ≤ sizes trees)
    (tracker : Tracker) :
    (tracker.track ((preorders depth trees).take count)).closed =
      (tracker.closeFrom depth).closed ++
        arities (passed (start + count) (branchesOf start trees)) := by
  match trees with
  | [] =>
      rw [sizes] at hcount
      omega
  | child :: rest =>
      rw [sizes] at hcount
      rw [preorders, branchesOf, passed_append, List.take_append,
        length_preorder]
      rcases Nat.lt_or_ge child.size count with hbeyond | hwithin
      · have hchild : passed (start + count) (child.branches start) =
            child.branches start := by
          apply passed_eq_self
          intro info hmem
          have hbounds := branches_bounds hmem
          omega
        rw [List.take_of_length_le (by
            rw [length_preorder]
            omega), track_append,
          track_preorders_take depth (start + child.size) rest
            (show 0 < count - child.size by omega) (by omega),
          track_preorder depth start child, hchild, arities_append,
          List.append_assoc, show start + child.size + (count - child.size) =
            start + count by omega]
      · have hrest : passed (start + count)
            (branchesOf (start + child.size) rest) = [] := by
          apply passed_eq_nil
          intro info hmem
          have hbounds := branchesOf_bounds hmem
          omega
        rw [show count - child.size = 0 by omega, List.take_zero,
          List.append_nil, hrest, List.append_nil,
          track_take depth start child hpos hwithin]

end

/-- The open branches lie below one another. -/
def Nested (opened : List (Nat × Nat)) : Prop :=
  opened.Pairwise fun inner outer => outer.1 < inner.1

theorem nested_addChildren (count : Nat) {opened : List (Nat × Nat)}
    (hnested : Nested opened) : Nested (addChildren count opened) := by
  cases opened with
  | nil => exact hnested
  | cons branch rest =>
      obtain ⟨houter, hrest⟩ := List.pairwise_cons.mp hnested
      exact List.pairwise_cons.mpr ⟨houter, hrest⟩

/-- Below the deepest branch there is nothing, so neither below the others. -/
theorem Below.all {depth : Nat} {opened : List (Nat × Nat)}
    (hbelow : Below depth opened) (hnested : Nested opened) :
    ∀ branch ∈ opened, branch.1 < depth := by
  intro branch hmem
  cases opened with
  | nil => cases hmem
  | cons deepest rest =>
      have hdeepest := hbelow deepest rfl
      rcases List.mem_cons.mp hmem with rfl | hmem
      · exact hdeepest
      · exact ((List.pairwise_cons.mp hnested).1 branch hmem).trans hdeepest

theorem nested_enter (depth : Nat) {tracker : Tracker}
    (hnested : Nested tracker.opened) : Nested (tracker.enter depth).opened := by
  have hclosed : Nested (tracker.closeFrom depth).opened :=
    List.Pairwise.sublist (List.dropWhile_sublist _) hnested
  rw [enter]
  by_cases hpos : 0 < depth
  · simp only [if_pos hpos]
    exact nested_addChildren 1 hclosed
  · simp only [if_neg hpos]
    exact hclosed

theorem nested_observe (node : Nat × Bool) {tracker : Tracker}
    (hnested : Nested tracker.opened) :
    Nested (tracker.observe node).opened := by
  have hentered := nested_enter node.1 hnested
  rw [observe]
  by_cases hbranch : node.2 = true
  · rw [if_pos hbranch]
    exact List.pairwise_cons.mpr
      ⟨(below_enter node.1 tracker).all hentered, hentered⟩
  · rw [if_neg hbranch]
    exact hentered

theorem nested_track (nodes : List (Nat × Bool)) {tracker : Tracker}
    (hnested : Nested tracker.opened) : Nested (tracker.track nodes).opened := by
  induction nodes generalizing tracker with
  | nil => exact hnested
  | cons node rest ih => exact ih (nested_observe node hnested)

/-- The start of a traversal has closed the branches that it has gone
beyond. -/
theorem closed_track_of_prefix {nodes : List (Nat × Bool)} {tree : Shape}
    (hinitial : nodes <+: tree.preorder 0) :
    (empty.track nodes).closed =
      arities (passed nodes.length (tree.branches 0)) := by
  rcases Nat.eq_zero_or_pos nodes.length with hnone | hsome
  · rw [List.length_eq_zero_iff.mp hnone]
    symm
    rw [List.length_nil, passed_eq_nil fun _ _ => Nat.zero_le _]
    rfl
  · have hle := hinitial.length_le
    rw [length_preorder] at hle
    have htake := track_take 0 0 tree hsome hle empty
    rw [← List.prefix_iff_eq_take.mp hinitial, Nat.zero_add] at htake
    exact htake

/-- A whole traversal has closed all branches or still has them open. -/
theorem all_track_preorder (tree : Shape) :
    (empty.track (tree.preorder 0)).closed ++
        (empty.track (tree.preorder 0)).opened.map Prod.snd =
      arities (tree.branches 0) := by
  have hclosed := congrArg Tracker.closed (track_preorder 0 0 tree empty)
  rw [closeFrom] at hclosed
  dsimp only at hclosed
  rw [List.takeWhile_eq_self_iff.mpr fun _ _ => decide_eq_true (Nat.zero_le _)]
    at hclosed
  exact hclosed

end Tracker

end Tracking

end Traversal

end Hegel
