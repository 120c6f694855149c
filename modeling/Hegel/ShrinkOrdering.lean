/-
Reordering what is shrunk.  A permutation is sorted as a whole, or else stretch
by stretch, or else around single elements that keep their place; a judge says
which of the permutations become the target.  Stretches grow from the last
permutation that was accepted, but the sorts around an element start from the
one before all of them.
-/
import Hegel.FindInteger
import Hegel.Lib.Looping
import Hegel.Lib.StableSort

namespace Hegel

/-- A permutation that was tried, the element that kept its place if it was one
of the sorts around an element, and the verdict. -/
structure Reordering where
  permutation : List Nat
  centre : Option Nat
  accepted : Bool
deriving DecidableEq

/-- What the judge works on, and what it was asked, latest first. -/
structure OrderingState (World : Type) where
  world : World
  tries : List Reordering

section Sorts

variable {Key : Type} [Preorder Key] [DecidableLE Key] (keys : Nat → Key)

def byKey (i j : Nat) : Prop :=
  keys i ≤ keys j

instance : DecidableRel (byKey keys) :=
  fun i j => inferInstanceAs (Decidable (keys i ≤ keys j))

instance : IsTrans Nat (byKey keys) :=
  ⟨fun _ _ _ hfirst hsecond => le_trans hfirst hsecond⟩

instance [Std.Total (α := Key) (· ≤ ·)] : Std.Total (byKey keys) :=
  ⟨fun i j => Std.Total.total (keys i) (keys j)⟩

def sortByKey (p : List Nat) : List Nat :=
  p.insertionSort (byKey keys)

/-- Sort the elements from one index up to another. -/
def sortRegion (snapshot : List Nat) (i stop : Nat) : List Nat :=
  snapshot.take i ++ sortByKey keys (snapshot.extract i stop) ++
    snapshot.drop stop

/-- Sort the elements from one index up to another, but for one of them. -/
def sortAround (snapshot : List Nat) (a b centre : Nat) : List Nat :=
  let split := centre - a
  let sides := sortByKey keys
    (snapshot.extract a centre ++ snapshot.extract (centre + 1) b)
  snapshot.take a ++ sides.take split ++ snapshot.extract centre (centre + 1) ++
    sides.drop split ++ snapshot.drop b

end Sorts

/-- Ask about one number after the other until the search is done, handing on a
value. -/
def FindInteger.search {State Halt Local : Type}
    (probe : Nat → Local → Looping State Halt (Bool × Local)) (start : Local) :
    Looping State Halt (Nat × Local) :=
  .loop (fun (search, value) =>
    match FindInteger.step search with
    | .done v => pure (.finish (v, value))
    | .probe k => do
        let (ok, value) ← probe k value
        pure (.again (search.record ok, value))) (FindInteger.new, start)

section Shrinking

variable {World Halt Key : Type} [Preorder Key] [DecidableLE Key]
  (keys : Nat → Key) (accept : List Nat → World → Except Halt Bool × World)

def judge (centre : Option Nat) (permutation : List Nat) :
    Looping (OrderingState World) Halt Bool :=
  .ofResult fun state =>
    let (verdict, world) := accept permutation state.world
    let accepted := match verdict with
      | .ok ok => ok
      | .error _ => false
    (verdict, ⟨world, ⟨permutation, centre, accepted⟩ :: state.tries⟩)

/-- Sort some more elements from an index on. -/
def growRegion (snapshot : List Nat) (i k : Nat) (best : List Nat) :
    Looping (OrderingState World) Halt (Bool × List Nat) :=
  if i + k > snapshot.length then pure (false, best)
  else
    let attempt := sortRegion keys snapshot i (i + k)
    if attempt = snapshot then pure (true, best)
    else do
      let ok ← judge accept none attempt
      pure (ok, if ok then attempt else best)

def sortRegions (current : List Nat) :
    Looping (OrderingState World) Halt (List Nat) :=
  .loop (fun (i, current) =>
    if i + 1 < current.length then do
      let (k, best) ← FindInteger.search (growRegion keys accept current i) []
      pure (.again (i + max k 1, if best.isEmpty then current else best))
    else pure (.finish current)) (0, current)

def trySortAround (snapshot : List Nat) (a b centre : Nat) :
    Looping (OrderingState World) Halt Bool :=
  let attempt := sortAround keys snapshot a b centre
  if attempt = snapshot then pure true else judge accept (some centre) attempt

def growRight (snapshot : List Nat) (i k : Nat) (_ : Unit) :
    Looping (OrderingState World) Halt (Bool × Unit) :=
  if i + 1 + k > snapshot.length then pure (false, ())
  else do
    let ok ← trySortAround keys accept snapshot i (i + 1 + k) i
    pure (ok, ())

def growLeft (snapshot : List Nat) (i right k : Nat) (_ : Unit) :
    Looping (OrderingState World) Halt (Bool × Unit) :=
  if k > i then pure (false, ())
  else do
    let ok ← trySortAround keys accept snapshot (i - k) right i
    pure (ok, ())

def sortWithGap (current : List Nat) (i : Nat) :
    Looping (OrderingState World) Halt Unit :=
  if keys (current.getD (i - 1) 0) ≤ keys (current.getD i 0) ∧
      keys (current.getD i 0) ≤ keys (current.getD (i + 1) 0) then
    pure ()
  else do
    let (added, _) ← FindInteger.search (growRight keys accept current i) ()
    let _ ← FindInteger.search
      (growLeft keys accept current i (i + 1 + added)) ()
    pure ()

def sortRegionsWithGaps (current : List Nat) :
    Looping (OrderingState World) Halt Unit :=
  if current.length < 3 then pure ()
  else
    .forEach (sortWithGap keys accept current)
      (List.range' 1 (current.length - 2))

def shrinkOrdering (n : Nat) : Looping (OrderingState World) Halt Unit :=
  if n ≤ 1 then pure ()
  else do
    let current := List.range n
    let sortedCandidate := sortByKey keys current
    let sorted ←
      if sortedCandidate ≠ current then judge accept none sortedCandidate
      else pure false
    if sorted then pure ()
    else do
      let current ← sortRegions keys accept current
      sortRegionsWithGaps keys accept current

end Shrinking

section Sorting

variable {Key : Type} [Preorder Key] [DecidableLE Key] (keys : Nat → Key)

theorem exists_append {s : List Nat} {n : Nat} (hn : n ≤ s.length) :
    ∃ front back, s = front ++ back ∧ front.length = n :=
  ⟨s.take n, s.drop n, (List.take_append_drop n s).symm,
    List.length_take_of_le hn⟩

theorem length_sortByKey (p : List Nat) :
    (sortByKey keys p).length = p.length :=
  List.length_insertionSort _ p

theorem sortByKey_perm (p : List Nat) : (sortByKey keys p).Perm p :=
  List.perm_insertionSort _ p

/-- What is sorted already stays as it is. -/
theorem sortByKey_fixed [Std.Total (α := Key) (· ≤ ·)]
    (left middle right : List Nat)
    (hfixed : sortByKey keys (left ++ middle ++ right) =
      left ++ middle ++ right) : sortByKey keys middle = middle := by
  have hsorted : (left ++ middle ++ right).Pairwise (byKey keys) := by
    rw [← hfixed]
    exact List.pairwise_insertionSort (byKey keys) _
  have hmiddle : middle.Sublist (left ++ middle ++ right) :=
    (List.sublist_append_right left middle).trans
      (List.sublist_append_left (left ++ middle) right)
  exact (hsorted.sublist hmiddle).insertionSort_eq

/-- A stretch is sorted between what is before and after it. -/
theorem sortRegion_append (front region back : List Nat) :
    sortRegion keys (front ++ region ++ back) front.length
        (front.length + region.length) =
      front ++ sortByKey keys region ++ back := by
  simp [sortRegion]

theorem sortRegion_self (s : List Nat) (i : Nat) :
    sortRegion keys s i i = s := by
  simp [sortRegion, sortByKey]

variable {s : List Nat} {i stop stop' : Nat}

theorem sortRegion_perm (hle : i ≤ stop) (hlength : stop ≤ s.length) :
    (sortRegion keys s i stop).Perm s := by
  obtain ⟨most, back, rfl, rfl⟩ := exists_append hlength
  obtain ⟨front, region, rfl, rfl⟩ := exists_append hle
  rw [List.length_append, sortRegion_append]
  exact ((sortByKey_perm keys region).append_left front).append_right back

/-- A longer stretch absorbs that a shorter one is sorted. -/
theorem sortRegion_sortRegion [Std.Total (α := Key) (· ≤ ·)] (hle : i ≤ stop)
    (hgrow : stop ≤ stop') (hlength : stop' ≤ s.length) :
    sortRegion keys (sortRegion keys s i stop) i stop' =
      sortRegion keys s i stop' := by
  obtain ⟨more, back, rfl, rfl⟩ := exists_append hlength
  obtain ⟨most, added, rfl, rfl⟩ := exists_append hgrow
  obtain ⟨front, region, rfl, rfl⟩ := exists_append hle
  have hfirst := sortRegion_append keys front region (added ++ back)
  have hsecond := sortRegion_append keys front (region ++ added) back
  have hagain := sortRegion_append keys front (sortByKey keys region ++ added)
    back
  simp only [List.append_assoc, List.length_append, length_sortByKey]
    at hfirst hsecond hagain ⊢
  rw [hfirst, hagain, hsecond]
  have habsorb := insertionSort_middle (r := byKey keys) [] region added
  rw [List.nil_append, List.nil_append] at habsorb
  rw [sortByKey, sortByKey, habsorb, sortByKey]

/-- A part of a sorted stretch is sorted. -/
theorem sortRegion_fixed [Std.Total (α := Key) (· ≤ ·)] (hle : i ≤ stop)
    (hgrow : stop ≤ stop') (hlength : stop' ≤ s.length)
    (hfixed : sortRegion keys s i stop' = s) :
    sortRegion keys s i stop = s := by
  obtain ⟨more, back, rfl, rfl⟩ := exists_append hlength
  obtain ⟨most, added, rfl, rfl⟩ := exists_append hgrow
  obtain ⟨front, region, rfl, rfl⟩ := exists_append hle
  have hfirst := sortRegion_append keys front region (added ++ back)
  have hsecond := sortRegion_append keys front (region ++ added) back
  simp only [List.append_assoc, List.length_append] at hfirst hsecond hfixed ⊢
  rw [hsecond] at hfixed
  replace hfixed := List.append_cancel_left hfixed
  rw [← List.append_assoc region] at hfixed
  replace hfixed := List.append_cancel_right hfixed
  have hregion : sortByKey keys region = region :=
    sortByKey_fixed keys [] region added hfixed
  rw [hfirst, hregion]

theorem extract_append (front middle back : List Nat) {start stop : Nat}
    (hs : s = front ++ (middle ++ back)) (hstart : front.length = start)
    (hstop : start + middle.length = stop) : s.extract start stop = middle := by
  subst hs hstart hstop
  simp

/-- The two sides of an element are sorted as one list. -/
theorem sortAround_append (front left right back : List Nat) (x : Nat) :
    sortAround keys (front ++ left ++ [x] ++ right ++ back) front.length
        (front.length + left.length + 1 + right.length)
        (front.length + left.length) =
      front ++ (sortByKey keys (left ++ right)).take left.length ++ [x] ++
        (sortByKey keys (left ++ right)).drop left.length ++ back := by
  simp only [List.append_assoc]
  generalize hs : front ++ (left ++ ([x] ++ (right ++ back))) = s
  have hleft : s.extract front.length (front.length + left.length) = left :=
    extract_append front left _ hs.symm rfl rfl
  have hcentre : s.extract (front.length + left.length)
      (front.length + left.length + 1) = [x] := by
    refine extract_append (front ++ left) [x] (right ++ back) ?_ ?_ ?_
    · rw [← hs, List.append_assoc]
    · rw [List.length_append]
    · rw [List.length_singleton]
  have hright : s.extract (front.length + left.length + 1)
      (front.length + left.length + 1 + right.length) = right := by
    refine extract_append (front ++ left ++ [x]) right back ?_ ?_ ?_
    · rw [← hs, List.append_assoc, List.append_assoc]
    · rw [List.length_append, List.length_append, List.length_singleton]
    · rfl
  have hfront : s.take front.length = front := by
    rw [← hs]
    exact List.take_left
  have hback :
      s.drop (front.length + left.length + 1 + right.length) = back := by
    have hassoc : s = (front ++ left ++ [x] ++ right) ++ back := by
      simp only [← hs, List.append_assoc]
    rw [hassoc]
    exact List.drop_left' (by simp only [List.length_append,
      List.length_singleton])
  rw [sortAround, hleft, hcentre, hright, hfront, hback,
    Nat.add_sub_cancel_left]
  simp only [List.append_assoc]

variable {a a' b b' centre : Nat}

/-- An element, its two sides and what is before and after them. -/
theorem exists_around (hleft : a ≤ centre) (hright : centre < b)
    (hlength : b ≤ s.length) :
    ∃ front left x right back, s = front ++ left ++ [x] ++ right ++ back ∧
      front.length = a ∧ front.length + left.length = centre ∧
      front.length + left.length + 1 + right.length = b := by
  obtain ⟨most, back, rfl, rfl⟩ := exists_append hlength
  obtain ⟨most, right, rfl, hmost⟩ := exists_append hright
  obtain ⟨sides, rest, rfl, rfl⟩ :=
    exists_append (Nat.le_of_succ_le hmost.ge)
  obtain ⟨front, left, rfl, rfl⟩ := exists_append hleft
  obtain ⟨x, rfl⟩ : ∃ x, rest = [x] := by
    rw [List.length_append, Nat.succ_eq_add_one, Nat.add_left_cancel_iff]
      at hmost
    exact List.length_eq_one_iff.mp hmost
  refine ⟨front, left, x, right, back, rfl, rfl, ?_, ?_⟩
  · rw [List.length_append]
  · simp only [List.length_append, List.length_singleton]

theorem sortAround_self (hcentre : centre < s.length) :
    sortAround keys s centre (centre + 1) centre = s := by
  obtain ⟨front, left, x, right, back, rfl, rfl, hleft, hright⟩ :=
    exists_around le_rfl (Nat.lt_succ_self centre) hcentre
  obtain rfl : left = [] := List.length_eq_zero_iff.mp (by omega)
  obtain rfl : right = [] := List.length_eq_zero_iff.mp (by omega)
  exact sortAround_append keys front [] [] back x

theorem sortAround_perm (hleft : a ≤ centre) (hright : centre < b)
    (hlength : b ≤ s.length) : (sortAround keys s a b centre).Perm s := by
  obtain ⟨front, left, x, right, back, rfl, rfl, rfl, rfl⟩ :=
    exists_around hleft hright hlength
  rw [sortAround_append]
  refine List.Perm.append_right back ?_
  have hmiddle (p q : List Nat) :
      (front ++ p ++ [x] ++ q).Perm (front ++ x :: (p ++ q)) := by
    rw [List.append_assoc, List.append_assoc]
    exact List.perm_middle.append_left front
  refine (hmiddle _ _).trans (List.Perm.trans ?_ (hmiddle left right).symm)
  rw [List.take_append_drop]
  exact ((sortByKey_perm keys (left ++ right)).cons x).append_left front

/-- An element with two sides, within wider ones. -/
theorem exists_nested (hleft : a ≤ centre) (hright : centre < b)
    (hgrowLeft : a' ≤ a) (hgrowRight : b ≤ b') (hlength : b' ≤ s.length) :
    ∃ front more left x right added back,
      s = front ++ more ++ left ++ [x] ++ right ++ added ++ back ∧
        front.length = a' ∧ front.length + more.length = a ∧
          front.length + more.length + left.length = centre ∧
            front.length + more.length + left.length + 1 + right.length = b ∧
              front.length + more.length + left.length + 1 + right.length +
                added.length = b' := by
  obtain ⟨most, back, rfl, rfl⟩ := exists_append hlength
  obtain ⟨most, added, rfl, rfl⟩ := exists_append hgrowRight
  obtain ⟨most, left, x, right, rest, heq, rfl, rfl, hlast⟩ :=
    exists_around hleft hright le_rfl
  obtain ⟨front, more, rfl, rfl⟩ := exists_append hgrowLeft
  obtain rfl : rest = [] := by
    have hcount := congrArg List.length heq
    simp only [List.length_append, List.length_singleton] at hcount hlast
    exact List.length_eq_zero_iff.mp (by omega)
  rw [List.append_nil] at heq
  subst heq
  refine ⟨front, more, left, x, right, added, back, rfl, rfl, ?_⟩
  simp only [List.length_append, List.length_singleton]
  trivial

/-- Wider sides absorb that narrower ones are sorted. -/
theorem sortAround_sortAround [Std.Total (α := Key) (· ≤ ·)]
    (hleft : a ≤ centre) (hright : centre < b) (hgrowLeft : a' ≤ a)
    (hgrowRight : b ≤ b') (hlength : b' ≤ s.length) :
    sortAround keys (sortAround keys s a b centre) a' b' centre =
      sortAround keys s a' b' centre := by
  obtain ⟨front, more, left, x, right, added, back, rfl, rfl, rfl, rfl, rfl,
    rfl⟩ := exists_nested hleft hright hgrowLeft hgrowRight hlength
  have hinner := sortAround_append keys (front ++ more) left right
    (added ++ back) x
  have hwide := sortAround_append keys front (more ++ left) (right ++ added)
    back x
  -- what the inner sort puts on the two sides
  obtain ⟨sorted, hsorted⟩ : ∃ sorted, sorted = sortByKey keys (left ++ right) :=
    ⟨_, rfl⟩
  have hcount : sorted.length = left.length + right.length := by
    rw [hsorted, length_sortByKey, List.length_append]
  have hagain := sortAround_append keys front (more ++ sorted.take left.length)
    (sorted.drop left.length ++ added) back x
  have habsorb : sortByKey keys
      (more ++ (sorted.take left.length ++ (sorted.drop left.length ++ added))) =
        sortByKey keys (more ++ (left ++ (right ++ added))) := by
    have hmiddle := insertionSort_middle (r := byKey keys) more (left ++ right)
      added
    rw [← List.append_assoc (sorted.take _), List.take_append_drop, hsorted]
    simpa only [sortByKey, List.append_assoc] using hmiddle
  have htake : (sorted.take left.length).length = left.length :=
    List.length_take_of_le (by omega)
  have hdrop : (sorted.drop left.length).length = right.length := by
    rw [List.length_drop, hcount, Nat.add_sub_cancel_left]
  rw [← hsorted] at hinner
  simp only [List.append_assoc, List.length_append, htake, hdrop, habsorb,
    ← Nat.add_assoc] at hinner hwide hagain ⊢
  rw [hinner, hagain, hwide]

/-- Narrower sides of what is sorted are sorted. -/
theorem sortAround_fixed [Std.Total (α := Key) (· ≤ ·)]
    (hleft : a ≤ centre) (hright : centre < b) (hgrowLeft : a' ≤ a)
    (hgrowRight : b ≤ b') (hlength : b' ≤ s.length)
    (hfixed : sortAround keys s a' b' centre = s) :
    sortAround keys s a b centre = s := by
  obtain ⟨front, more, left, x, right, added, back, rfl, rfl, rfl, rfl, rfl,
    rfl⟩ := exists_nested hleft hright hgrowLeft hgrowRight hlength
  have hinner := sortAround_append keys (front ++ more) left right
    (added ++ back) x
  have hwide := sortAround_append keys front (more ++ left) (right ++ added)
    back x
  obtain ⟨sorted, hsorted⟩ : ∃ sorted,
      sorted = sortByKey keys (more ++ left ++ (right ++ added)) := ⟨_, rfl⟩
  have hcount : (sorted.take (more ++ left).length).length =
      (more ++ left).length := by
    apply List.length_take_of_le
    rw [hsorted, length_sortByKey]
    exact (List.sublist_append_left _ _).length_le
  rw [← hsorted] at hwide
  -- nothing has moved, so the sides were sorted
  have hsides : sorted = more ++ left ++ (right ++ added) := by
    have hsame : front ++ (sorted.take (more ++ left).length ++
        ([x] ++ (sorted.drop (more ++ left).length ++ back))) =
          front ++ ((more ++ left) ++ ([x] ++ ((right ++ added) ++ back))) := by
      simp only [List.append_assoc, List.length_append, ← Nat.add_assoc]
        at hwide hfixed ⊢
      rw [← hwide]
      exact hfixed
    obtain ⟨htake, hrest⟩ :=
      List.append_inj (List.append_cancel_left hsame) hcount
    have hdrop := List.append_cancel_right (List.append_cancel_left hrest)
    rw [← List.take_append_drop (more ++ left).length sorted, htake, hdrop]
  have hinside : sortByKey keys (left ++ right) = left ++ right := by
    apply sortByKey_fixed keys more (left ++ right) added
    rw [hsorted] at hsides
    simpa only [List.append_assoc] using hsides
  rw [hinside, List.take_left, List.drop_left] at hinner
  simpa only [List.append_assoc, List.length_append, ← Nat.add_assoc]
    using hinner

end Sorting

section Searching

namespace FindInteger

/-- The largest number that has worked. -/
def settled : FindInteger → Nat
  | linear i => i - 1
  | grow lo _ => lo
  | narrow lo _ => lo
  | done v => v

variable {search : FindInteger} {k : Nat}

theorem step_probe (hstep : search.step = .probe k) : search.probe = some k := by
  rw [probe, hstep]

theorem settled_lt (hvalid : search.Valid) (hprobe : search.probe = some k) :
    search.settled < k := by
  cases search with
  | linear i =>
      obtain rfl := Option.some.inj hprobe
      exact Nat.sub_lt hvalid.1 Nat.one_pos
  | grow lo hi =>
      obtain rfl := Option.some.inj hprobe
      exact hvalid.1
  | narrow lo hi =>
      obtain rfl := Option.some.inj hprobe
      have hgap : lo + 1 < hi := hvalid.1
      rw [settled]
      omega
  | done v => cases hprobe

theorem settled_narrowOrDone (lo hi : Nat) :
    (narrowOrDone lo hi).settled = lo := by
  rw [narrowOrDone]
  split <;> rfl

theorem settled_record (hvalid : search.Valid) (hprobe : search.probe = some k)
    (ok : Bool) :
    (search.record ok).settled = if ok then k else search.settled := by
  cases search with
  | linear i =>
      obtain rfl := Option.some.inj hprobe
      cases ok with
      | false => rfl
      | true =>
          by_cases hlast : i < 4
          · simp only [record, Bool.not_true, Bool.false_eq_true, if_false,
              if_pos hlast]
            rfl
          · obtain rfl : i = 4 := Nat.le_antisymm hvalid.2 (by omega)
            rfl
  | grow lo hi =>
      obtain rfl := Option.some.inj hprobe
      cases ok with
      | false => exact settled_narrowOrDone lo hi
      | true =>
          rw [record, if_pos rfl]
          split <;> rfl
  | narrow lo hi =>
      obtain rfl := Option.some.inj hprobe
      cases ok with
      | false => exact settled_narrowOrDone lo _
      | true => exact settled_narrowOrDone _ hi
  | done v => cases hprobe

/-- What is known of the largest number that has worked is known of the
answer, and a search always answers. -/
theorem yields_search {State Halt Local : Type}
    {probe : Nat → Local → Looping State Halt (Bool × Local)} {start : Local}
    {state : State} {post : Except Halt (Nat × Local) → State → Prop}
    (inv : Nat → Local → State → Prop)
    (hprobe : ∀ lo k value state, lo < k → inv lo value state →
      (probe k value).Yields state fun
        | .ok (ok, value), after => inv (if ok then k else lo) value after
        | .error reason, after => post (.error reason) after)
    (hpost : ∀ v value state, inv v value state → post (.ok (v, value)) state)
    (hstart : inv 0 start state) :
    (FindInteger.search probe start).Yields state post := by
  have hwf : WellFounded fun next last : (FindInteger × Local) × State =>
      next.1.1.remaining < last.1.1.remaining :=
    InvImage.wf (fun pair : (FindInteger × Local) × State =>
      pair.1.1.remaining) Nat.lt_wfRel.wf
  apply Looping.yields_loop hwf fun (search, value) state =>
    search.Valid ∧ inv search.settled value state
  · rintro ⟨search, value⟩ state ⟨hvalid, hinv⟩
    dsimp only
    cases hstep : search.step with
    | done v =>
        apply Looping.yields_pure
        have hsettled : search.settled = v := by
          cases search with
          | done w => exact SearchStep.done.inj hstep
          | linear i => cases hstep
          | grow lo hi => cases hstep
          | narrow lo hi => cases hstep
        exact hpost v value state (hsettled ▸ hinv)
    | probe k =>
        have hasked := step_probe hstep
        apply Looping.yields_bind
        refine (hprobe _ k value state (settled_lt hvalid hasked) hinv).mono ?_
        rintro (reason | ⟨ok, value⟩) after hafter
        · exact hafter
        · apply Looping.yields_pure
          refine ⟨⟨record_valid hvalid ok, ?_⟩,
            remaining_record_lt hvalid hasked ok⟩
          rw [settled_record hvalid hasked ok]
          exact hafter
  · exact ⟨valid_new, hstart⟩

end FindInteger

end Searching

section Derivations

variable {World Halt Key : Type} [Preorder Key] [DecidableLE Key]

/-- The permutation that was accepted last; at first, nothing has moved. -/
def lastAccepted (n : Nat) : List Reordering → List Nat
  | [] => List.range n
  | t :: earlier => if t.accepted then t.permutation else lastAccepted n earlier

/-- A permutation that comes from another by sorting a stretch of it, as a
whole or around an element that keeps its place. -/
def Derived (keys : Nat → Key) (base candidate : List Nat) : Prop :=
  (∃ stop ≤ base.length, ∃ i ≤ stop, candidate = sortRegion keys base i stop) ∨
    ∃ b ≤ base.length, ∃ centre < b, ∃ a ≤ centre,
      candidate = sortAround keys base a b centre

instance (keys : Nat → Key) (base candidate : List Nat) :
    Decidable (Derived keys base candidate) :=
  inferInstanceAs (Decidable (_ ∨ _))

/-- A try around an element, when a permutation has been accepted that keeps an
earlier element in its place. -/
def Reordering.Stale (t : Reordering) (earlier : List Reordering) : Prop :=
  ∃ centre, t.centre = some centre ∧
    ∃ t' ∈ earlier, t'.accepted = true ∧
      ∃ centre' < centre, t'.centre = some centre'

/-- What was tried are permutations, and those that are not stale are derived
from the last accepted one. -/
def Tried (keys : Nat → Key) (n : Nat) : List Reordering → Prop
  | [] => True
  | t :: earlier =>
      (t.permutation.Perm (List.range n) ∧
        (¬t.Stale earlier →
          Derived keys (lastAccepted n earlier) t.permutation)) ∧
      Tried keys n earlier

theorem Tried.entry {keys : Nat → Key} {n : Nat} {t : Reordering}
    {later earlier : List Reordering}
    (htried : Tried keys n (later ++ t :: earlier)) :
    t.permutation.Perm (List.range n) ∧
      (¬t.Stale earlier →
        Derived keys (lastAccepted n earlier) t.permutation) := by
  induction later with
  | nil => exact htried.1
  | cons _ later ih => exact ih htried.2

theorem Tried.perm {keys : Nat → Key} {n : Nat} {tries : List Reordering}
    (htried : Tried keys n tries) {t : Reordering} (hmem : t ∈ tries) :
    t.permutation.Perm (List.range n) := by
  obtain ⟨later, earlier, rfl⟩ := List.append_of_mem hmem
  exact htried.entry.1

variable {keys : Nat → Key} {accept : List Nat → World → Except Halt Bool × World}
  {n : Nat}

theorem yields_judge {centre : Option Nat} {permutation : List Nat}
    {state : OrderingState World}
    {post : Except Halt Bool → OrderingState World → Prop}
    (hok : ∀ ok world, post (.ok ok)
      ⟨world, ⟨permutation, centre, ok⟩ :: state.tries⟩)
    (herror : ∀ reason world, post (.error reason)
      ⟨world, ⟨permutation, centre, false⟩ :: state.tries⟩) :
    (judge accept centre permutation).Yields state post := by
  apply Looping.yields_ofResult
  dsimp only
  cases (accept permutation state.world).1 with
  | ok ok => exact hok ok _
  | error reason => exact herror reason _

/-- Nothing but stretches have been sorted, and this is what was accepted. -/
structure Settled (keys : Nat → Key) (n : Nat) (reached : List Nat)
    (tries : List Reordering) : Prop where
  tried : Tried keys n tries
  uncentred : ∀ t ∈ tries, t.centre = none
  last : lastAccepted n tries = reached
  perm : reached.Perm (List.range n)

/-- Another stretch is tried on what was accepted. -/
theorem Settled.judged {reached candidate : List Nat} {tries : List Reordering}
    (hsettled : Settled keys n reached tries)
    (hderived : Derived keys reached candidate)
    (hperm : candidate.Perm (List.range n)) (ok : Bool) :
    Settled keys n (if ok then candidate else reached)
      (⟨candidate, none, ok⟩ :: tries) where
  tried := by
    refine ⟨⟨hperm, fun _ => ?_⟩, hsettled.tried⟩
    rw [hsettled.last]
    exact hderived
  uncentred := List.forall_mem_cons.mpr ⟨rfl, hsettled.uncentred⟩
  last := by
    rw [lastAccepted, hsettled.last]
  perm := by
    cases ok with
    | false => exact hsettled.perm
    | true => exact hperm

/-- What is known while the sides of an element are sorted.  The permutation
that they are sorted in is the one before any sorts of this kind; what they come
to is the last accepted one as long as none of the earlier elements had its
sides sorted. -/
structure Gapped (keys : Nat → Key) (n : Nat) (base : List Nat) (centre : Nat)
    (reached : List Nat) (tries : List Reordering) : Prop where
  tried : Tried keys n tries
  centres : ∀ t ∈ tries, ∀ c, t.centre = some c → c ≤ centre
  untouched : (∀ t ∈ tries, t.centre ≠ none → t.accepted = false) →
    lastAccepted n tries = base
  fresh : (∀ t ∈ tries, ∀ c < centre, t.centre = some c → t.accepted = false) →
    lastAccepted n tries = reached

/-- Wider sides are tried. -/
theorem Gapped.judged {base reached candidate : List Nat} {centre : Nat}
    {tries : List Reordering}
    (hgapped : Gapped keys n base centre reached tries)
    (hderived : Derived keys reached candidate)
    (hperm : candidate.Perm (List.range n)) (ok : Bool) :
    Gapped keys n base centre (if ok then candidate else reached)
      (⟨candidate, some centre, ok⟩ :: tries) where
  tried := by
    refine ⟨⟨hperm, fun hfresh => ?_⟩, hgapped.tried⟩
    rw [hgapped.fresh]
    · exact hderived
    · intro t hmem c hless hcentre
      refine Bool.eq_false_iff.mpr fun haccepted => hfresh ?_
      exact ⟨centre, rfl, t, hmem, haccepted, c, hless, hcentre⟩
  centres := by
    refine List.forall_mem_cons.mpr ⟨?_, hgapped.centres⟩
    intro c hcentre
    exact (Option.some.inj hcentre).ge
  untouched := by
    intro hnone
    obtain ⟨hlast, hrest⟩ := List.forall_mem_cons.mp hnone
    rw [lastAccepted, hlast nofun]
    exact hgapped.untouched hrest
  fresh := by
    intro hnone
    rw [lastAccepted, hgapped.fresh (List.forall_mem_cons.mp hnone).2]

/-- The next element starts from the same permutation. -/
theorem Gapped.next {base reached : List Nat} {centre : Nat}
    {tries : List Reordering} (hgapped : Gapped keys n base centre reached tries) :
    Gapped keys n base (centre + 1) base tries where
  tried := hgapped.tried
  centres t hmem c hcentre :=
    (hgapped.centres t hmem c hcentre).trans (Nat.le_succ centre)
  untouched := hgapped.untouched
  fresh hnone := by
    apply hgapped.untouched
    intro t hmem hsome
    obtain ⟨c, hcentre⟩ := Option.ne_none_iff_exists'.mp hsome
    exact hnone t hmem c
      (Nat.lt_succ_of_le (hgapped.centres t hmem c hcentre)) hcentre

variable [Std.Total (α := Key) (· ≤ ·)]

/-- What is known while a stretch grows: the longest one that works. -/
structure Growing (keys : Nat → Key) (n : Nat) (snapshot : List Nat) (i lo : Nat)
    (best : List Nat) (tries : List Reordering) : Prop where
  settled : Settled keys n (sortRegion keys snapshot i (i + lo)) tries
  within : i + lo ≤ snapshot.length
  best : (if best.isEmpty then snapshot else best) =
    sortRegion keys snapshot i (i + lo)

/-- Growing a stretch goes on from the longest one that works. -/
theorem yields_growRegion {snapshot best : List Nat} {i lo k : Nat}
    {state : OrderingState World} (hgrow : lo < k)
    (hgrowing : Growing keys n snapshot i lo best state.tries) :
    (growRegion keys accept snapshot i k best).Yields state fun
      | .ok (ok, best), after =>
          Growing keys n snapshot i (if ok then k else lo) best after.tries
      | .error _, after => Tried keys n after.tries := by
  have hle : i ≤ i + lo := Nat.le_add_right i lo
  have hstretch : i + lo ≤ i + k := by omega
  apply Looping.yields_ite
  · intro _
    exact Looping.yields_pure hgrowing
  · intro hwithin
    rw [gt_iff_lt, not_lt] at hwithin
    apply Looping.yields_ite
    · intro hfixed
      -- then nothing has been sorted so far either
      have hshorter := sortRegion_fixed keys hle hstretch hwithin hfixed
      apply Looping.yields_pure
      refine ⟨?_, hwithin, ?_⟩
      · have hsettled := hgrowing.settled
        rw [hshorter] at hsettled
        rw [if_pos rfl, hfixed]
        exact hsettled
      · have hbest := hgrowing.best
        rw [hshorter] at hbest
        rw [if_pos rfl, hfixed]
        exact hbest
    · intro _
      have habsorb := sortRegion_sortRegion keys hle hstretch hwithin
      have hlength : (sortRegion keys snapshot i (i + lo)).length =
          snapshot.length :=
        (sortRegion_perm keys hle hgrowing.within).length_eq
      have hderived : Derived keys (sortRegion keys snapshot i (i + lo))
          (sortRegion keys snapshot i (i + k)) :=
        .inl ⟨i + k, hlength ▸ hwithin, i, Nat.le_add_right i k, habsorb.symm⟩
      have hperm : (sortRegion keys snapshot i (i + k)).Perm (List.range n) := by
        rw [← habsorb]
        exact (sortRegion_perm keys (Nat.le_add_right i k)
          (hlength ▸ hwithin)).trans hgrowing.settled.perm
      have hjudged := hgrowing.settled.judged hderived hperm
      apply Looping.yields_bind
      apply yields_judge
      · intro ok world
        apply Looping.yields_pure
        cases ok with
        | false => exact ⟨hjudged false, hgrowing.within, hgrowing.best⟩
        | true =>
            refine ⟨hjudged true, hwithin, ?_⟩
            rw [if_pos rfl, if_pos rfl, if_neg]
            rw [List.isEmpty_iff]
            intro hempty
            have hcount := (sortRegion_perm keys (Nat.le_add_right i k)
              hwithin).length_eq
            rw [hempty, List.length_nil] at hcount
            omega
      · intro reason world
        exact (hjudged false).tried

theorem yields_sortRegions {current : List Nat} {state : OrderingState World}
    (hsettled : Settled keys n current state.tries) :
    (sortRegions keys accept current).Yields state fun
      | .ok current, after => Settled keys n current after.tries
      | .error _, after => Tried keys n after.tries := by
  have hwf : WellFounded fun next last :
      (Nat × List Nat) × OrderingState World =>
        n - next.1.1 < n - last.1.1 :=
    InvImage.wf (fun pair : (Nat × List Nat) × OrderingState World =>
      n - pair.1.1) Nat.lt_wfRel.wf
  apply Looping.yields_loop hwf fun (_, current) state =>
    Settled keys n current state.tries
  · rintro ⟨i, current⟩ state hsettled
    have hlength : current.length = n := by
      rw [hsettled.perm.length_eq, List.length_range]
    apply Looping.yields_ite
    · intro hmore
      apply Looping.yields_bind
      apply FindInteger.yields_search fun lo best state =>
        Growing keys n current i lo best state.tries
      · intro lo k best state hgrow hgrowing
        refine (yields_growRegion hgrow hgrowing).mono ?_
        rintro (reason | ⟨ok, best⟩) after hafter
        · exact hafter
        · exact hafter
      · intro k best state hgrowing
        apply Looping.yields_pure
        refine ⟨?_, ?_⟩
        · have hreached := hgrowing.settled
          rw [← hgrowing.best] at hreached
          exact hreached
        · have hstep : 1 ≤ max k 1 := Nat.le_max_right k 1
          dsimp only
          omega
      · refine ⟨?_, ?_, ?_⟩
        · rw [Nat.add_zero, sortRegion_self]
          exact hsettled
        · omega
        · rw [Nat.add_zero, sortRegion_self]
          rfl
    · intro _
      exact Looping.yields_pure hsettled
  · exact hsettled

/-- Sorting wider sides goes on from the widest ones that work. -/
theorem yields_trySortAround {base : List Nat} {a a' b b' centre : Nat}
    {state : OrderingState World} (hleft : a ≤ centre) (hright : centre < b)
    (hgrowLeft : a' ≤ a) (hgrowRight : b ≤ b') (hlength : b' ≤ base.length)
    (hperm : base.Perm (List.range n))
    (hgapped : Gapped keys n base centre (sortAround keys base a b centre)
      state.tries) :
    (trySortAround keys accept base a' b' centre).Yields state fun
      | .ok ok, after =>
          Gapped keys n base centre
            (if ok then sortAround keys base a' b' centre
              else sortAround keys base a b centre) after.tries
      | .error _, after => Tried keys n after.tries := by
  have hleft' : a' ≤ centre := hgrowLeft.trans hleft
  have hright' : centre < b' := lt_of_lt_of_le hright hgrowRight
  apply Looping.yields_ite
  · intro hfixed
    have hnarrower := sortAround_fixed keys hleft hright hgrowLeft hgrowRight
      hlength hfixed
    apply Looping.yields_pure
    rw [hnarrower] at hgapped
    dsimp only
    rw [if_pos rfl, hfixed]
    exact hgapped
  · intro _
    have habsorb := sortAround_sortAround keys hleft hright hgrowLeft hgrowRight
      hlength
    have hcount : (sortAround keys base a b centre).length = base.length :=
      (sortAround_perm keys hleft hright (hgrowRight.trans hlength)).length_eq
    have hderived : Derived keys (sortAround keys base a b centre)
        (sortAround keys base a' b' centre) :=
      .inr ⟨b', hcount ▸ hlength, centre, hright', a', hleft', habsorb.symm⟩
    have hjudged := hgapped.judged hderived
      ((sortAround_perm keys hleft' hright' hlength).trans hperm)
    apply yields_judge
    · exact fun ok world => hjudged ok
    · exact fun reason world => (hjudged false).tried

theorem yields_sortWithGap {base : List Nat} {i : Nat}
    {state : OrderingState World} (hwithin : i < base.length)
    (hperm : base.Perm (List.range n))
    (hgapped : Gapped keys n base i base state.tries) :
    (sortWithGap keys accept base i).Yields state fun
      | .ok (), after => ∃ reached, Gapped keys n base i reached after.tries
      | .error _, after => Tried keys n after.tries := by
  apply Looping.yields_ite
  · intro _
    exact Looping.yields_pure ⟨base, hgapped⟩
  · intro _
    apply Looping.yields_bind
    apply FindInteger.yields_search fun lo _ state =>
      i + 1 + lo ≤ base.length ∧
        Gapped keys n base i (sortAround keys base i (i + 1 + lo) i) state.tries
    · rintro lo k ⟨⟩ state hgrow ⟨hreach, hgapped⟩
      apply Looping.yields_ite
      · intro _
        exact Looping.yields_pure ⟨hreach, hgapped⟩
      · intro hmore
        rw [gt_iff_lt, not_lt] at hmore
        apply Looping.yields_bind
        refine (yields_trySortAround le_rfl (by omega) le_rfl (by omega) hmore
          hperm hgapped).mono ?_
        rintro (reason | ok) after hafter
        · exact hafter
        · apply Looping.yields_pure
          cases ok with
          | false => exact ⟨hreach, hafter⟩
          | true => exact ⟨hmore, hafter⟩
    · rintro added ⟨⟩ state ⟨hreach, hgapped⟩
      apply Looping.yields_bind
      apply FindInteger.yields_search fun lo _ state =>
        Gapped keys n base i
          (sortAround keys base (i - lo) (i + 1 + added) i) state.tries
      · rintro lo k ⟨⟩ state hgrow hgapped
        apply Looping.yields_ite
        · intro _
          exact Looping.yields_pure hgapped
        · intro _
          apply Looping.yields_bind
          refine (yields_trySortAround (Nat.sub_le i lo) (by omega) (by omega)
            le_rfl hreach hperm hgapped).mono ?_
          rintro (reason | ok) after hafter
          · exact hafter
          · apply Looping.yields_pure
            cases ok with
            | false => exact hafter
            | true => exact hafter
      · rintro v ⟨⟩ state hgapped
        exact Looping.yields_pure ⟨_, hgapped⟩
      · exact hgapped
    · refine ⟨hwithin, ?_⟩
      rw [Nat.add_zero, sortAround_self keys hwithin]
      exact hgapped

theorem yields_sortRegionsWithGaps {current : List Nat}
    {state : OrderingState World}
    (hsettled : Settled keys n current state.tries) :
    (sortRegionsWithGaps keys accept current).Yields state
      fun _ after => Tried keys n after.tries := by
  apply Looping.yields_ite
  · intro _
    exact Looping.yields_pure hsettled.tried
  · intro hlong
    apply Looping.yields_forEach fun done state =>
      Gapped keys n current (1 + done.length) current state.tries
    · intro done i state hprefix hgapped
      have hindex : 1 + done.length = i ∧
          done.length < current.length - 2 := by
        obtain ⟨rest, hitems⟩ := hprefix
        have hwithin : done.length < current.length - 2 := by
          have hcount := congrArg List.length hitems
          simp only [List.length_append, List.length_singleton,
            List.length_range'] at hcount
          omega
        have hget : (List.range' 1 (current.length - 2))[done.length]? =
            some i := by
          rw [← hitems, List.append_assoc,
            List.getElem?_append_right le_rfl, Nat.sub_self]
          rfl
        rw [List.getElem?_range' hwithin, Nat.one_mul] at hget
        exact ⟨Option.some.inj hget, hwithin⟩
      obtain ⟨rfl, hwithin⟩ := hindex
      refine (yields_sortWithGap (by omega) hsettled.perm hgapped).mono ?_
      rintro (reason | ⟨⟩) after hafter
      · exact hafter
      · obtain ⟨reached, hgapped⟩ := hafter
        rw [List.length_append, List.length_singleton, ← Nat.add_assoc]
        exact hgapped.next
    · exact fun state hgapped => hgapped.tried
    · have huncentred (t : Reordering) (hmem : t ∈ state.tries) (c : Nat) :
          t.centre ≠ some c := by
        rw [hsettled.uncentred t hmem]
        exact nofun
      refine ⟨hsettled.tried, ?_, fun _ => hsettled.last,
        fun _ => hsettled.last⟩
      exact fun t hmem c hcentre => absurd hcentre (huncentred t hmem c)

/-- However the judge decides, there is an end to it, and what was tried comes
from what was accepted. -/
theorem shrinkOrdering_tried (n : Nat) (world : World) :
    (shrinkOrdering keys accept n).Yields ⟨world, []⟩ fun _ after =>
      Tried keys n after.tries := by
  have hstart : Settled keys n (List.range n) [] :=
    ⟨trivial, fun _ hmem => absurd hmem List.not_mem_nil, rfl, List.Perm.refl _⟩
  apply Looping.yields_ite
  · intro _
    exact Looping.yields_pure trivial
  · intro _
    have hrest (state : OrderingState World)
        (hsettled : Settled keys n (List.range n) state.tries) :
        (sortRegions keys accept (List.range n) >>= fun current =>
          sortRegionsWithGaps keys accept current).Yields state
            fun _ after => Tried keys n after.tries := by
      apply Looping.yields_bind
      refine (yields_sortRegions hsettled).mono ?_
      rintro (reason | current) after hafter
      · exact hafter
      · exact yields_sortRegionsWithGaps hafter
    apply Looping.yields_ite
    · intro _
      have hsorted : sortRegion keys (List.range n) 0 n =
          sortByKey keys (List.range n) := by
        simpa using sortRegion_append keys [] (List.range n) []
      have hderived : Derived keys (List.range n)
          (sortByKey keys (List.range n)) :=
        .inl ⟨n, List.length_range.ge, 0, Nat.zero_le n, hsorted.symm⟩
      have hjudged := hstart.judged hderived (sortByKey_perm keys _)
      apply Looping.yields_bind
      apply yields_judge
      · intro ok world
        cases ok with
        | true => exact Looping.yields_pure (hjudged true).tried
        | false => exact hrest _ (hjudged false)
      · intro reason world
        exact (hjudged false).tried
    · intro _
      apply Looping.yields_bind
      apply Looping.yields_pure
      exact hrest _ hstart

/-- The permutations that are tried, and where they come from: stretches are
sorted in the last permutation that was accepted, and so are the sides of an
element unless an earlier element had its sides sorted.  However the judge
decides, there is an end to it. -/
theorem shrinkOrdering_derives (n : Nat) (world : World) :
    (shrinkOrdering keys accept n).Yields ⟨world, []⟩ fun _ after =>
      ∀ later t earlier, after.tries = later ++ t :: earlier →
        t.permutation.Perm (List.range n) ∧
          (¬t.Stale earlier →
            Derived keys (lastAccepted n earlier) t.permutation) := by
  refine (shrinkOrdering_tried n world).mono ?_
  intro _ after htried later t earlier hlog
  rw [hlog] at htried
  exact htried.entry

end Derivations

section Example

/-- Keys of four elements. -/
def fourKeys (i : Nat) : Nat :=
  [2, 1, 3, 0].getD i 0

/-- A judge that accepts two reorderings of four elements. -/
def twoAccepted (p : List Nat) (world : Unit) : Except Empty Bool × Unit :=
  (.ok (decide (p ∈ [[0, 1, 3, 2], [0, 3, 2, 1]])), world)

theorem shrinkOrdering_derives_four :
    (shrinkOrdering fourKeys twoAccepted 4).Yields ⟨(), []⟩ fun _ after =>
      ∀ later t earlier, after.tries = later ++ t :: earlier →
        t.permutation.Perm (List.range 4) ∧
          (¬t.Stale earlier →
            Derived fourKeys (lastAccepted 4 earlier) t.permutation) :=
  shrinkOrdering_derives 4 ()

/-- Two reorderings that lower the keys are accepted, and the second is not
derived from the first: both are sorts around an element of the order before
them. -/
theorem shrinkOrdering_stale :
    (shrinkOrdering fourKeys twoAccepted 4 10 ⟨(), []⟩).1 = some (.ok ()) ∧
    ∃ later t earlier,
      (shrinkOrdering fourKeys twoAccepted 4 10 ⟨(), []⟩).2.tries =
        later ++ t :: earlier ∧
      t = ⟨[0, 3, 2, 1], some 2, true⟩ ∧
        lastAccepted 4 earlier = [0, 1, 3, 2] ∧
          ¬Derived fourKeys [0, 1, 3, 2] t.permutation := by
  refine ⟨rfl, [⟨[3, 1, 2, 0], some 2, false⟩], _,
    [⟨[3, 1, 0, 2], some 1, false⟩, ⟨[0, 1, 3, 2], some 1, true⟩,
      ⟨[0, 3, 1, 2], none, false⟩, ⟨[1, 0, 2, 3], none, false⟩,
      ⟨[3, 1, 0, 2], none, false⟩], ?_, rfl, rfl, ?_⟩
  · decide +kernel
  · decide +kernel

end Example

end Hegel
