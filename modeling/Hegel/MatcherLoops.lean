/-
The loops of the matcher.  When an item leads to at most one position, trying
what follows from each position that a repeat can stop at is what the loops do,
as long as no repetition is skipped that had to be made.
-/
import Hegel.RegexSemantics

namespace Hegel

section Rounds

variable {f : Nat → Option Nat} {len : Nat}

/-- The item of a repeat that leads to at most one position. -/
def onePosition (f : Nat → Option Nat) (pos : Nat) : List Nat :=
  (f pos).toList

/-- A repetition between two positions that did not move on. -/
def positionStuck (pos next : Nat) : Bool :=
  decide (next ≤ pos)

/-- The rounds that are left after some repetitions, or enough of them where
there is no limit. -/
def RoundsLeft (limit : Option Nat) (len count cur rounds : Nat) : Prop :=
  match limit with
  | some m => rounds = m - count
  | none => len < cur + rounds

/-- An item that moves forward within the text, if at all. -/
def Forward (f : Nat → Option Nat) (len : Nat) : Prop :=
  ∀ cur ≤ len, ∀ next, f cur = some next → cur ≤ next ∧ next ≤ len

theorem exactly_stuck {cur : Nat} (hstuck : f cur = some cur) (count : Nat) :
    exactly (onePosition f) count cur = [cur] := by
  induction count with
  | zero => rfl
  | succ count ih =>
      rw [exactly, onePosition, hstuck, Option.toList_some,
        List.flatMap_singleton, ih]

theorem further_ne_nil {State : Type} {lazily : Bool}
    {stuck : State → State → Bool} {step : State → List State} {rounds : Nat}
    {s : State} : further lazily stuck step rounds s ≠ [] := by
  cases rounds with
  | zero => exact List.cons_ne_nil _ _
  | succ rounds =>
      rw [further]
      split
      · exact List.cons_ne_nil _ _
      · exact List.append_ne_nil_of_right_ne_nil _ (List.cons_ne_nil _ _)

/-- Another round, when the item leads nowhere. -/
theorem further_none {lazily : Bool} {rounds cur : Nat} (hnone : f cur = none) :
    further lazily positionStuck (onePosition f) rounds cur = [cur] := by
  cases rounds with
  | zero => rfl
  | succ rounds =>
      simp only [further, onePosition, hnone, Option.toList_none,
        List.flatMap_nil, List.nil_append, ite_self]

/-- Another round, when the item stays where it is. -/
theorem further_stuck {lazily : Bool} {rounds cur : Nat}
    (hstuck : f cur = some cur) :
    further lazily positionStuck (onePosition f) (rounds + 1) cur =
      [cur, cur] := by
  simp only [further, onePosition, hstuck, Option.toList_some,
    List.flatMap_singleton, positionStuck, le_refl, decide_true, if_true,
    List.singleton_append, ite_self]

theorem further_moves {lazily : Bool} {rounds cur next : Nat}
    (hnext : f cur = some next) (hmoves : cur < next) :
    further lazily positionStuck (onePosition f) (rounds + 1) cur =
      if lazily then
        cur :: further lazily positionStuck (onePosition f) rounds next
      else
        further lazily positionStuck (onePosition f) rounds next ++ [cur] := by
  have hgoes : positionStuck cur next = false :=
    decide_eq_false (Nat.not_le.mpr hmoves)
  rw [further]
  simp only [onePosition, hnext, Option.toList_some, List.flatMap_singleton,
    hgoes, Bool.false_eq_true, if_false]

theorem RoundsLeft.eq_zero {limit : Option Nat} {count cur rounds : Nat}
    (hrounds : RoundsLeft limit len count cur rounds)
    (hlimit : limit.any (fun m => decide (count ≥ m)) = true) : rounds = 0 := by
  cases limit with
  | none => cases hlimit
  | some m =>
      rw [Option.any_some, decide_eq_true_eq] at hlimit
      rw [RoundsLeft] at hrounds
      omega

/-- One of the rounds that are left is made. -/
theorem RoundsLeft.succ {limit : Option Nat} {count cur rounds : Nat}
    (hrounds : RoundsLeft limit len count cur rounds) (hcur : cur ≤ len)
    (hlimit : ¬ limit.any (fun m => decide (count ≥ m)) = true) :
    ∃ left, rounds = left + 1 ∧
      ∀ next, cur < next → RoundsLeft limit len (count + 1) next left := by
  cases limit with
  | none =>
      rw [RoundsLeft] at hrounds
      refine ⟨rounds - 1, by omega, fun next hnext => ?_⟩
      rw [RoundsLeft]
      omega
  | some m =>
      rw [Option.any_some, decide_eq_true_eq] at hlimit
      rw [RoundsLeft] at hrounds
      refine ⟨rounds - 1, by omega, fun next hnext => ?_⟩
      rw [RoundsLeft]
      omega

end Rounds

section Greedy

variable {f : Nat → Option Nat} {limit : Option Nat} {len : Nat}

/-- The positions that a greedy repeat can stop at, when all repetitions are
made that have to be. -/
theorem greedyPositions_further (hforward : Forward f len) {fuel : Nat} :
    ∀ {cur rounds : Nat} {earlier : List Nat}, cur ≤ len → len < cur + fuel →
      RoundsLeft limit len earlier.length cur rounds →
      ∃ later zeroWidth, greedyPositions f limit fuel cur earlier =
          (later ++ cur :: earlier, zeroWidth) ∧
        (zeroWidth = true → ∃ stuck ≤ len, f stuck = some stuck) ∧
        ∀ k : Nat → Option Nat, (later ++ [cur]).findSome? k =
          (further false positionStuck (onePosition f) rounds cur).findSome?
            k := by
  induction fuel with
  | zero => exact fun hcur hfuel => absurd hfuel (Nat.not_lt.mpr hcur)
  | succ fuel ih =>
      intro cur rounds earlier hcur hfuel hrounds
      rw [greedyPositions]
      split
      case isTrue hlimit =>
          rw [hrounds.eq_zero hlimit]
          exact ⟨[], false, rfl, nofun, fun k => rfl⟩
      case isFalse hlimit =>
          obtain ⟨left, rfl, hleft⟩ := hrounds.succ hcur hlimit
          cases hnext : f cur with
          | none =>
              rw [further_none hnext]
              exact ⟨[], false, rfl, nofun, fun k => rfl⟩
          | some next =>
              obtain ⟨hle, hlen⟩ := hforward cur hcur next hnext
              dsimp only
              split
              case isTrue hmoves =>
                  obtain ⟨later, zeroWidth, hpositions, hstuck, hfound⟩ :=
                    @ih next left (cur :: earlier) hlen (by omega)
                      (hleft next hmoves)
                  refine ⟨later ++ [next], zeroWidth, ?_, hstuck, fun k => ?_⟩
                  · rw [hpositions, List.append_assoc, List.singleton_append]
                  · rw [further_moves hnext hmoves, if_neg Bool.false_ne_true,
                      List.findSome?_append, hfound k, ← List.findSome?_append]
              case isFalse hstays =>
                  have heq : next = cur := by omega
                  rw [further_stuck (heq ▸ hnext)]
                  refine ⟨[], true, rfl, fun _ => ⟨cur, hcur, heq ▸ hnext⟩,
                    fun k => ?_⟩
                  cases hk : k cur <;> simp [hk]

/-- The positions that a greedy repeat can stop at, when every repetition
moves on. -/
theorem greedyPositions_exactly (hforward : Forward f len)
    (hmoves : ∀ cur ≤ len, ∀ next, f cur = some next → cur < next)
    {min : Nat} :
    ∀ {cur rounds fuel : Nat} {earlier : List Nat}, cur ≤ len →
      len < cur + fuel → (∀ m, limit = some m → earlier.length + min ≤ m) →
      (∀ next, cur ≤ next →
        RoundsLeft limit len (earlier.length + min) next rounds) →
      ∃ later, greedyPositions f limit fuel cur earlier =
          (later ++ cur :: earlier, false) ∧
        ∀ k : Nat → Option Nat,
          ((later ++ [cur]).take (later.length + 1 - min)).findSome? k =
            ((exactly (onePosition f) min cur).flatMap (further false
              positionStuck (onePosition f) rounds)).findSome? k := by
  induction min with
  | zero =>
      intro cur rounds fuel earlier hcur hfuel _ hrounds
      obtain ⟨later, zeroWidth, hpositions, hstuck, hfound⟩ :=
        greedyPositions_further hforward hcur hfuel (hrounds cur le_rfl)
      have hfalse : zeroWidth = false := by
        rw [← Bool.not_eq_true]
        intro htrue
        obtain ⟨stuck, hlen, heq⟩ := hstuck htrue
        exact absurd (hmoves stuck hlen stuck heq) (lt_irrefl _)
      refine ⟨later, hfalse ▸ hpositions, fun k => ?_⟩
      rw [exactly, List.flatMap_singleton, ← hfound k, Nat.sub_zero,
        List.take_of_length_le (by simp)]
  | succ min ih =>
      intro cur rounds fuel earlier hcur hfuel hlimit hrounds
      cases fuel with
      | zero => exact absurd hfuel (Nat.not_lt.mpr hcur)
      | succ fuel =>
          rw [greedyPositions]
          have hopen : ¬ limit.any
              (fun m => decide (earlier.length ≥ m)) = true := by
            cases hm : limit with
            | none => exact Bool.false_ne_true
            | some m =>
                have := hlimit m hm
                rw [Option.any_some, decide_eq_true_eq]
                omega
          rw [if_neg hopen]
          cases hnext : f cur with
          | none =>
              refine ⟨[], rfl, fun k => ?_⟩
              rw [exactly, onePosition, hnext]
              simp
          | some next =>
              have hgoes := hmoves cur hcur next hnext
              obtain ⟨later, hpositions, hfound⟩ :=
                @ih next rounds fuel (cur :: earlier)
                  (hforward cur hcur next hnext).2 (by omega)
                  (fun m hm => by
                    have := hlimit m hm
                    rw [List.length_cons]
                    omega)
                  (fun later hlater => by
                    have := hrounds later (by omega)
                    rwa [List.length_cons, Nat.add_right_comm])
              refine ⟨later ++ [next], ?_, fun k => ?_⟩
              · dsimp only
                rw [if_pos hgoes, hpositions, List.append_assoc,
                  List.singleton_append]
              · have hlength : (later ++ [next]).length + 1 - (min + 1) ≤
                    (later ++ [next]).length := by omega
                rw [List.take_append_of_le_length hlength, exactly,
                  onePosition, hnext, Option.toList_some,
                  List.flatMap_singleton, ← hfound k, List.length_append,
                  List.length_singleton, Nat.add_sub_add_right]

theorem matchMaxRepeat_eq (hforward : Forward f len)
    {k : Nat → Option Nat} {min pos rounds : Nat} (hpos : pos ≤ len)
    (hlimit : ∀ m, limit = some m → min ≤ m)
    (hrounds : ∀ next, pos ≤ next → RoundsLeft limit len min next rounds)
    (hmoves : min = 0 ∨
      ∀ cur ≤ len, ∀ next, f cur = some next → cur < next) :
    matchMaxRepeat f k limit min (len + 1) pos =
      ((exactly (onePosition f) min pos).flatMap (further false
        positionStuck (onePosition f) rounds)).findSome? k := by
  have htaken : ∀ (positions : List Nat) (least : Nat),
      (if positions.length - 1 < least then none
        else (positions.take (positions.length - least)).findSome? k) =
      (positions.take (positions.length - least)).findSome? k := by
    intro positions least
    split
    case isTrue hshort =>
        rw [Nat.sub_eq_zero_of_le (by omega), List.take_zero]
        rfl
    case isFalse => rfl
  rw [matchMaxRepeat]
  rcases hmoves with rfl | hmoves
  · obtain ⟨later, zeroWidth, hpositions, -, hfound⟩ :=
      @greedyPositions_further f limit len hforward (len + 1) pos rounds []
        hpos (by omega) (hrounds pos le_rfl)
    simp only [hpositions, ite_self, htaken]
    rw [exactly, List.flatMap_singleton, ← hfound k, Nat.sub_zero,
      List.take_length]
  · obtain ⟨later, hpositions, hfound⟩ :=
      @greedyPositions_exactly f limit len hforward hmoves min pos rounds
        (len + 1) [] hpos (by omega)
        (by simpa only [List.length_nil, Nat.zero_add] using hlimit)
        (by simpa only [List.length_nil, Nat.zero_add] using hrounds)
    simp only [hpositions, Bool.false_eq_true, if_false, htaken]
    rw [← hfound k, List.length_append, List.length_singleton]

end Greedy

section Lazy

variable {f : Nat → Option Nat} {limit : Option Nat} {len : Nat}

/-- The repetitions that a lazy repeat starts with are those that have to be
made. -/
theorem lazyStart_eq (hforward : Forward f len) {min left : Nat} :
    ∀ {cur count fuel : Nat}, cur ≤ len → len < cur + fuel →
      count + left = min →
      (lazyStart f min fuel cur count).toList =
        (exactly (onePosition f) left cur).map fun stop => (stop, min) := by
  induction left with
  | zero =>
      intro cur count fuel hcur hfuel hleft
      cases fuel with
      | zero => exact absurd hfuel (Nat.not_lt.mpr hcur)
      | succ fuel =>
          rw [lazyStart, if_neg (by omega), exactly, ← hleft]
          rfl
  | succ left ih =>
      intro cur count fuel hcur hfuel hleft
      cases fuel with
      | zero => exact absurd hfuel (Nat.not_lt.mpr hcur)
      | succ fuel =>
          rw [lazyStart, if_pos (by omega)]
          cases hnext : f cur with
          | none =>
              rw [exactly, onePosition, hnext]
              rfl
          | some next =>
              obtain ⟨hle, hlen⟩ := hforward cur hcur next hnext
              dsimp only
              split
              case isTrue hstays =>
                  have heq : next = cur := by omega
                  rw [exactly_stuck (heq ▸ hnext)]
                  rfl
              case isFalse hmoves =>
                  rw [@ih next (count + 1) fuel hlen (by omega) (by omega),
                    exactly, onePosition, hnext, Option.toList_some,
                    List.flatMap_singleton]

/-- What follows is tried first, then one more repetition. -/
theorem lazyRest_eq (hforward : Forward f len) {k : Nat → Option Nat}
    {fuel : Nat} :
    ∀ {cur count rounds : Nat}, cur ≤ len → len < cur + fuel →
      RoundsLeft limit len count cur rounds →
      lazyRest f k limit fuel cur count =
        (further true positionStuck (onePosition f) rounds cur).findSome? k := by
  induction fuel with
  | zero => exact fun hcur hfuel => absurd hfuel (Nat.not_lt.mpr hcur)
  | succ fuel ih =>
      intro cur count rounds hcur hfuel hrounds
      rw [lazyRest]
      cases hk : k cur with
      | some stop =>
          cases rounds with
          | zero => rw [further, List.findSome?_cons, hk]
          | succ rounds => rw [further, if_pos rfl, List.findSome?_cons, hk]
      | none =>
          dsimp only
          split
          case isTrue hlimit =>
              rw [hrounds.eq_zero hlimit, further, List.findSome?_cons, hk]
              rfl
          case isFalse hlimit =>
              obtain ⟨left, rfl, hleft⟩ := hrounds.succ hcur hlimit
              cases hnext : f cur with
              | none =>
                  rw [further_none hnext, List.findSome?_cons, hk]
                  rfl
              | some next =>
                  obtain ⟨hle, hlen⟩ := hforward cur hcur next hnext
                  dsimp only
                  split
                  case isTrue hstays =>
                      have heq : next = cur := by omega
                      rw [further_stuck (heq ▸ hnext)]
                      simp [hk]
                  case isFalse hmoves =>
                      have hmoves : cur < next := by omega
                      rw [further_moves hnext hmoves, if_pos rfl,
                        List.findSome?_cons, hk]
                      exact ih hlen (by omega) (hleft next hmoves)

theorem matchMinRepeat_eq (hforward : Forward f len)
    {k : Nat → Option Nat} {min pos rounds : Nat} (hpos : pos ≤ len)
    (hrounds : ∀ next, pos ≤ next → RoundsLeft limit len min next rounds) :
    matchMinRepeat f k limit min (len + 1) pos =
      ((exactly (onePosition f) min pos).flatMap (further true
        positionStuck (onePosition f) rounds)).findSome? k := by
  have hstart := @lazyStart_eq f len hforward min min pos 0 (len + 1) hpos
    (by omega) (Nat.zero_add min)
  rw [matchMinRepeat]
  cases hlazy : lazyStart f min (len + 1) pos 0 with
  | none =>
      rw [hlazy, Option.toList_none] at hstart
      rw [List.map_eq_nil_iff.mp hstart.symm]
      rfl
  | some start =>
      obtain ⟨cur, count⟩ := start
      rw [hlazy, Option.toList_some] at hstart
      obtain ⟨stop, hexactly, heq⟩ := List.map_eq_singleton_iff.mp hstart.symm
      cases heq
      have hstop : pos ≤ cur ∧ cur ≤ len := by
        have hwithin := @exactly_within _
          (fun s t => s ≤ len → s ≤ t ∧ t ≤ len) (onePosition f)
          (fun s hs => ⟨le_rfl, hs⟩)
          (fun {s t u} hst htu hs =>
            ⟨(hst hs).1.trans (htu (hst hs).2).1, (htu (hst hs).2).2⟩)
          (fun s t ht hs => hforward s hs t (Option.mem_toList.mp ht))
          min pos cur (hexactly ▸ List.mem_singleton_self cur)
        exact hwithin hpos
      rw [hexactly, List.flatMap_singleton]
      exact lazyRest_eq hforward hstop.2 (by omega) (hrounds cur hstop.1)

end Lazy

section Possessive

variable {f : Nat → Option Nat} {limit : Option Nat} {len : Nat}

theorem committed_append_left {α : Type} {found more : List α}
    (hne : found ≠ []) : committed (found ++ more) = committed found := by
  cases found with
  | nil => exact absurd rfl hne
  | cons a found => rfl

/-- A possessive repeat ends where a greedy one would stop first. -/
theorem possessiveEnd_eq (hforward : Forward f len) {min : Nat} {fuel : Nat}
    (hlimit : ∀ m, limit = some m → min ≤ m) :
    ∀ {cur count rounds : Nat}, cur ≤ len → len < cur + fuel →
      (∀ m, limit = some m → count ≤ m) →
      (∀ next, cur ≤ next → RoundsLeft limit len (max count min) next rounds) →
      (if (possessiveEnd f limit fuel cur count).2.1 < min ∧
          (possessiveEnd f limit fuel cur count).2.2 = false then []
        else [(possessiveEnd f limit fuel cur count).1]) =
      committed ((exactly (onePosition f) (min - count) cur).flatMap
        (further false positionStuck (onePosition f) rounds)) := by
  induction fuel with
  | zero => exact fun hcur hfuel => absurd hfuel (Nat.not_lt.mpr hcur)
  | succ fuel ih =>
      intro cur count rounds hcur hfuel hcount hrounds
      rw [possessiveEnd]
      split
      case isTrue hreached =>
          have hle : min ≤ count := by
            cases hm : limit with
            | none =>
                rw [hm] at hreached
                cases hreached
            | some m =>
                rw [hm, Option.any_some, decide_eq_true_eq] at hreached
                exact (hlimit m hm).trans hreached
          have hleft := hrounds cur le_rfl
          rw [max_eq_left hle] at hleft
          rw [hleft.eq_zero hreached, Nat.sub_eq_zero_of_le hle]
          simp [Nat.not_lt.mpr hle, exactly, further, committed]
      case isFalse hopen =>
          cases hnext : f cur with
          | none =>
              rcases Nat.lt_or_ge count min with hlt | hle
              · obtain ⟨missing, hmissing⟩ := Nat.exists_eq_add_of_lt hlt
                rw [show min - count = missing + 1 by omega, exactly,
                  onePosition, hnext]
                simp [hlt, committed]
              · rw [Nat.sub_eq_zero_of_le hle, exactly,
                  List.flatMap_singleton, further_none hnext]
                simp [Nat.not_lt.mpr hle, committed]
          | some next =>
              obtain ⟨hforth, hlen⟩ := hforward cur hcur next hnext
              have hgoes_on : ∀ m, limit = some m → count + 1 ≤ m := by
                intro m hm
                rw [hm, Option.any_some, decide_eq_true_eq] at hopen
                omega
              dsimp only
              split
              case isTrue hmoves =>
                  rcases Nat.lt_or_ge count min with hlt | hle
                  · rw [ih hlen (by omega) hgoes_on fun later hlater => ?_]
                    · rw [show min - count = min - (count + 1) + 1 by omega,
                        exactly, onePosition, hnext, Option.toList_some,
                        List.flatMap_singleton]
                    · rw [max_eq_right (Nat.succ_le_of_lt hlt),
                        ← max_eq_right hlt.le]
                      exact hrounds later (by omega)
                  · have hhere := hrounds cur le_rfl
                    rw [max_eq_left hle] at hhere
                    obtain ⟨left, rfl, hleft⟩ := hhere.succ hcur hopen
                    rw [@ih next (count + 1) left hlen (by omega) hgoes_on
                      fun later hlater => ?_]
                    · rw [Nat.sub_eq_zero_of_le hle,
                        Nat.sub_eq_zero_of_le (Nat.le_succ_of_le hle), exactly,
                        List.flatMap_singleton, exactly,
                        List.flatMap_singleton, further_moves hnext hmoves,
                        if_neg Bool.false_ne_true,
                        committed_append_left further_ne_nil]
                    · rw [max_eq_left (Nat.le_succ_of_le hle)]
                      exact hleft later (by omega)
              case isFalse hstays =>
                  have heq : next = cur := by omega
                  subst heq
                  rw [exactly_stuck hnext, List.flatMap_singleton]
                  cases rounds with
                  | zero => simp [further, committed]
                  | succ rounds =>
                      rw [further_stuck hnext]
                      simp [committed]

theorem matchPossessiveRepeat_eq (hforward : Forward f len)
    {k : Nat → Option Nat} {min pos rounds : Nat} (hpos : pos ≤ len)
    (hlimit : ∀ m, limit = some m → min ≤ m)
    (hrounds : ∀ next, pos ≤ next → RoundsLeft limit len min next rounds) :
    matchPossessiveRepeat f k limit min (len + 1) pos =
      (committed ((exactly (onePosition f) min pos).flatMap (further false
        positionStuck (onePosition f) rounds))).findSome? k := by
  have hend := @possessiveEnd_eq f limit len hforward min (len + 1) hlimit pos
    0 rounds hpos (by omega) (fun m _ => Nat.zero_le m)
    (by simpa only [Nat.zero_max] using hrounds)
  rw [Nat.sub_zero] at hend
  rw [matchPossessiveRepeat, ← hend]
  dsimp only
  split
  · rfl
  · rw [List.findSome?_singleton]

end Possessive

end Hegel
