/-
What the matcher accepts.
-/
import Hegel.MatcherLoops

namespace Hegel

mutual

/-- Whether an operation goes past a character, however it is matched. -/
def OpCode.consumes : OpCode → Bool
  | .literal _ => true
  | .notLiteral _ => true
  | .any => true
  | .inSet _ => true
  | .position _ => false
  | .branch items => branchesConsume items
  | .subpattern _ _ _ p => seqConsumes p
  | .groupRef _ => false
  | .groupRefExists _ yes (some no) => seqConsumes yes && seqConsumes no
  | .groupRefExists _ _ none => false
  | .assert _ _ => false
  | .assertNot _ _ => false
  | .atomicGroup p => seqConsumes p
  | .repeated _ min _ item => decide (0 < min) && seqConsumes item
  | .failure => true

def seqConsumes : List OpCode → Bool
  | [] => false
  | op :: rest => op.consumes || seqConsumes rest

def branchesConsume : List (List OpCode) → Bool
  | [] => true
  | p :: rest => seqConsumes p && branchesConsume rest

end

section Consuming

variable {r : Reading} {text : Subject}

theorem branchesConsume_eq_true {items : List SubPattern}
    (hconsume : branchesConsume items = true) :
    ∀ p ∈ items, seqConsumes p = true := by
  induction items with
  | nil => simp
  | cons p rest ih =>
      rw [branchesConsume, Bool.and_eq_true] at hconsume
      exact List.forall_mem_cons.mpr ⟨hconsume.1, ih hconsume.2⟩

/-- A sequence goes past a character if one of its operations does. -/
theorem seqResults_consume {p : SubPattern} {flags : Nat}
    (hops : ∀ op ∈ p, op.consumes = true → ∀ s, s.pos ≤ text.chars.length →
      ∀ t ∈ op.results r text flags s, s.pos < t.pos)
    (hconsumes : seqConsumes p = true) (s : Place)
    (hs : s.pos ≤ text.chars.length) :
    ∀ t ∈ seqResults r text p flags s, s.pos < t.pos := by
  induction p generalizing s with
  | nil => cases hconsumes
  | cons op rest ih =>
      obtain ⟨hop, hrest⟩ := List.forall_mem_cons.mp hops
      intro t ht
      rw [seqResults] at ht
      obtain ⟨next, hnext, hlater⟩ := List.mem_flatMap.mp ht
      have hforth := (op.results_lead flags s next hnext).forward hs
      rw [seqConsumes, Bool.or_eq_true] at hconsumes
      rcases hconsumes with hhere | hthere
      · have hfurther := (seqResults_lead rest flags next t hlater).forward
          hforth.2
        exact lt_of_lt_of_le (hop hhere s hs next hnext) hfurther.1
      · exact lt_of_le_of_lt hforth.1
          (ih hrest hthere next hforth.2 t hlater)

theorem repetitions_consume {kind : RepeatKind} {min max len : Nat}
    {step : Place → List Place} (hmin : 0 < min)
    (hleads : ∀ s, ∀ t ∈ step s, Leads r text s t)
    (hstep : ∀ s, s.pos ≤ text.chars.length → ∀ t ∈ step s, s.pos < t.pos)
    (s : Place) (hs : s.pos ≤ text.chars.length) :
    ∀ t ∈ repetitions kind min max len step s, s.pos < t.pos := by
  intro t ht
  obtain ⟨lazily, rounds, u, hu, hlater⟩ := mem_repetitions ht
  obtain ⟨more, rfl⟩ := Nat.exists_eq_add_of_lt hmin
  rw [Nat.zero_add] at hu
  obtain ⟨next, hnext, hexactly⟩ := List.mem_flatMap.mp hu
  have hmore := exactly_within Leads.refl Leads.trans hleads more next u
    hexactly
  have hrest := further_within Leads.refl Leads.trans hleads rounds u t hlater
  have hnext_text := ((hleads s next hnext).forward hs).2
  have hlead := (hmore.trans hrest).forward hnext_text
  exact lt_of_lt_of_le (hstep s hs next hnext) hlead.1

theorem OpCode.results_consume (op : OpCode) :
    op.consumes = true → ∀ flags s, s.pos ≤ text.chars.length →
      ∀ t ∈ op.results r text flags s, s.pos < t.pos := by
  induction op using OpCode.induction with
  | step op ih =>
      have hseq : ∀ p ∈ op.nested, seqConsumes p = true → ∀ flags s,
          s.pos ≤ text.chars.length →
          ∀ t ∈ seqResults r text p flags s, s.pos < t.pos :=
        fun p hp hconsumes flags => seqResults_consume
          (fun inner hinner hop => ih p hp inner hinner hop flags) hconsumes
      have hchar : ∀ {test : Char → Bool} {s t : Place},
          t ∈ text.oneChar test s → s.pos < t.pos := by
        intro test s t ht
        obtain ⟨-, rfl⟩ := mem_oneChar ht
        exact Nat.lt_succ_self _
      intro hconsumes flags s hs t ht
      cases op with
      | literal cp => exact hchar (by rwa [OpCode.results] at ht)
      | notLiteral cp => exact hchar (by rwa [OpCode.results] at ht)
      | any => exact hchar (by rwa [OpCode.results] at ht)
      | inSet items => exact hchar (by rwa [OpCode.results] at ht)
      | position code => cases hconsumes
      | branch items =>
          rw [OpCode.consumes] at hconsumes
          rw [OpCode.results, branchResults_eq] at ht
          obtain ⟨p, hp, hfound⟩ := List.mem_flatMap.mp ht
          exact hseq p hp (branchesConsume_eq_true hconsumes p hp) flags s hs
            t hfound
      | subpattern group addFlags delFlags p =>
          rw [OpCode.consumes] at hconsumes
          rw [OpCode.results] at ht
          obtain ⟨u, hu, rfl⟩ := List.mem_map.mp ht
          rw [capture_pos]
          exact hseq p List.mem_cons_self hconsumes _ s hs u
            (mem_of_mem_ways hu)
      | groupRef gid => cases hconsumes
      | groupRefExists condGroup yes no =>
          cases no with
          | none => cases hconsumes
          | some no =>
              rw [OpCode.consumes, Bool.and_eq_true] at hconsumes
              rw [OpCode.results] at ht
              split at ht
              · exact hseq yes List.mem_cons_self hconsumes.1 flags s hs t ht
              · exact hseq no (List.mem_cons_of_mem _ List.mem_cons_self)
                  hconsumes.2 flags s hs t ht
      | assert direction p => cases hconsumes
      | assertNot direction p => cases hconsumes
      | atomicGroup p =>
          rw [OpCode.consumes] at hconsumes
          rw [OpCode.results] at ht
          exact hseq p List.mem_cons_self hconsumes flags s hs t
            (mem_of_mem_committed ht)
      | repeated kind min max item =>
          rw [OpCode.consumes, Bool.and_eq_true, decide_eq_true_eq]
            at hconsumes
          rw [OpCode.results] at ht
          exact repetitions_consume hconsumes.1
            (fun s t ht => seqResults_lead item flags s t
              (mem_of_mem_ways ht))
            (fun s hs t ht => hseq item List.mem_cons_self hconsumes.2 flags s
              hs t (mem_of_mem_ways ht)) s hs t ht
      | failure =>
          rw [OpCode.results] at ht
          cases ht

end Consuming

section Tests

variable {text : Subject} {flags : Nat}

theorem setContains_eq (hplain : hasFlag flags sreFlagAscii = false)
    {items : List SetItem} {c : Char} :
    text.setContains items flags c =
      charMatchesSet text.tables text.data items c flags := by
  have hitem : ∀ item, text.itemContains c flags item =
      itemContains text.tables text.data c flags item := by
    intro item
    cases item with
    | category code =>
        rw [Subject.itemContains, Subject.inCategory, hplain,
          if_neg Bool.false_ne_true, itemContains]
    | _ => rfl
  rw [Subject.setContains, charMatchesSet]
  simp only [hitem]

/-- The character before a position. -/
theorem getLast?_take_of_pos {chars : List Char} {pos : Nat} (hpos : 0 < pos)
    (hle : pos ≤ chars.length) :
    (chars.take pos).getLast? = chars[pos - 1]? := by
  have hlt : pos - 1 < chars.length := by omega
  rw [List.getLast?_take, if_neg (Nat.ne_of_gt hpos),
    List.getElem?_eq_getElem hlt]
  rfl

theorem drop_eq_singleton_iff {chars : List Char} {pos : Nat} {c : Char} :
    chars.drop pos = [c] ↔ pos + 1 = chars.length ∧ chars[pos]? = some c := by
  constructor
  · intro h
    have hlength := congrArg List.length h
    rw [List.length_drop, List.length_singleton] at hlength
    rw [← List.head?_drop, h]
    exact ⟨by omega, rfl⟩
  · rintro ⟨hlength, hc⟩
    obtain ⟨hlt, rfl⟩ := List.getElem?_eq_some_iff.mp hc
    rw [List.drop_eq_getElem_cons hlt, hlength, List.drop_length]

/-- Whether a position holds is the same for its two sides and by its number. -/
theorem positionHolds_eq (hplain : hasFlag flags sreFlagAscii = false)
    {pos : Nat} (hpos : pos ≤ text.chars.length) {code : AtCode} :
    text.positionHolds (text.chars.take pos) (text.chars.drop pos) flags code =
      atMatches text pos flags code := by
  have hbefore : (text.chars.take pos).isEmpty = (pos == 0) := by
    rw [Bool.eq_iff_iff, List.isEmpty_iff, List.take_eq_nil_iff, beq_iff_eq]
    constructor
    · rintro (hzero | hnil)
      · exact hzero
      · rw [hnil] at hpos
        exact Nat.le_zero.mp hpos
    · exact .inl
  have hafter : (text.chars.drop pos).isEmpty =
      (pos == text.chars.length) := by
    rw [Bool.eq_iff_iff, List.isEmpty_iff, List.drop_eq_nil_iff, beq_iff_eq]
    omega
  have hboundary :
      ((text.chars.take pos).getLast?.any (text.inCategory · flags .word) !=
        (text.chars.drop pos).head?.any (text.inCategory · flags .word)) =
      isWordBoundary text pos := by
    have hword : (text.inCategory · flags .word) = isUniWord text.data := by
      funext c
      rw [Subject.inCategory, hplain, if_neg Bool.false_ne_true, inCategory]
    rw [hword, List.head?_drop, isWordBoundary]
    rcases Nat.eq_zero_or_pos pos with rfl | hpositive
    · rfl
    · rw [getLast?_take_of_pos hpositive hpos, decide_eq_true hpositive,
        Bool.true_and]
  cases code with
  | beginningString => exact hbefore
  | beginning =>
      rw [Subject.positionHolds, atMatches, hbefore]
      rcases Nat.eq_zero_or_pos pos with rfl | hpositive
      · simp
      · rw [getLast?_take_of_pos hpositive hpos]
        cases hasFlag flags sreFlagMultiline <;> simp
  | atEnd =>
      have hsingle : (text.chars.drop pos == ['\n']) =
          (pos + 1 == text.chars.length && text.chars[pos]? == some '\n') := by
        rw [Bool.eq_iff_iff, beq_iff_eq, drop_eq_singleton_iff,
          Bool.and_eq_true, beq_iff_eq, beq_iff_eq]
      rw [Subject.positionHolds, atMatches, hafter, hsingle, List.head?_drop]
      cases hasFlag flags sreFlagMultiline
      · simp
      · cases hc : text.chars[pos]? == some '\n' <;> simp
  | endString => exact hafter
  | boundary => exact hboundary
  | nonBoundary =>
      rw [Subject.positionHolds, atMatches, ← hboundary, bne, Bool.not_not]

end Tests

/-- An operation that the matcher reads as it is meant: its assertions look
ahead, its repetitions either need not be made or move on, and its categories
are not those of ASCII. -/
def OpCode.Plain : OpCode → Prop
  | .subpattern _ addFlags _ _ => hasFlag addFlags sreFlagAscii = false
  | .assert direction _ => 0 ≤ direction
  | .assertNot direction _ => 0 ≤ direction
  | .repeated kind min max item =>
      min ≤ max ∧ (kind = .greedy → min = 0 ∨ seqConsumes item = true)
  | _ => True

theorem hasFlag_scopedFlags {flags addFlags delFlags flag : Nat}
    (hflags : hasFlag flags flag = false)
    (hadd : hasFlag addFlags flag = false) :
    hasFlag (scopedFlags flags addFlags delFlags) flag = false := by
  simp only [hasFlag, bne_eq_false_iff_eq] at hflags hadd ⊢
  apply Nat.eq_of_testBit_eq
  intro i
  have hi := congrArg (Nat.testBit · i) hflags
  have hj := congrArg (Nat.testBit · i) hadd
  simp only [Nat.testBit_and, Nat.zero_testBit] at hi hj
  simp only [scopedFlags, Nat.testBit_and, Nat.testBit_xor, Nat.testBit_or,
    Nat.zero_testBit]
  revert hi hj
  cases flags.testBit i <;> cases addFlags.testBit i <;>
    cases flag.testBit i <;> simp

section Settled

variable {text : Subject} {groups : Groups}

/-- The positions that places with the same groups are at. -/
def AtPosition (text : Subject) (groups : Groups) (place : Place) (pos : Nat) :
    Prop :=
  place = ⟨pos, groups⟩ ∧ pos ≤ text.chars.length

theorem findSome?_atPosition {places : List Place} {positions : List Nat}
    (hat : List.Forall₂ (AtPosition text groups) places positions)
    (k : Nat → Option Nat) :
    (places.findSome? fun next => (k next.pos).map (Place.mk · groups)) =
      (positions.findSome? k).map (Place.mk · groups) := by
  induction hat with
  | nil => rfl
  | cons hplace _ ih =>
      obtain ⟨rfl, -⟩ := hplace
      rw [List.findSome?_cons, List.findSome?_cons, ih]
      cases k _ <;> rfl

/-- The repetitions of an item that leads to one position at most are those
that the loops of the matcher make. -/
theorem findSome?_repetitions {step : Place → List Place}
    {f k : Nat → Option Nat} {kind : RepeatKind} {min max pos : Nat}
    (hpos : pos ≤ text.chars.length)
    (hstep : ∀ cur ≤ text.chars.length,
      step ⟨cur, groups⟩ = (f cur).toList.map (Place.mk · groups))
    (hforward : Forward f text.chars.length) (hmax : min ≤ max)
    (hmoves : kind = .greedy → min = 0 ∨ ∀ cur ≤ text.chars.length,
      ∀ next, f cur = some next → cur < next) :
    ((repetitions kind min max text.chars.length step
      ⟨pos, groups⟩).findSome? fun next =>
        (k next.pos).map (Place.mk · groups)) =
      (matchRepeat f k kind min max (text.chars.length + 1) pos).map
        (Place.mk · groups) := by
  have hrelated : ∀ place cur, AtPosition text groups place cur →
      List.Forall₂ (AtPosition text groups) (step place)
        (onePosition f cur) := by
    rintro place cur ⟨rfl, hcur⟩
    rw [hstep cur hcur, onePosition]
    cases hnext : f cur with
    | none => exact .nil
    | some next => exact .cons ⟨rfl, (hforward cur hcur next hnext).2⟩ .nil
  have hstuck : ∀ a b a' b', AtPosition text groups a b →
      AtPosition text groups a' b' → roundStuck a a' = positionStuck b b' := by
    rintro a b a' b' ⟨rfl, -⟩ ⟨rfl, -⟩
    rfl
  have hstart : AtPosition text groups ⟨pos, groups⟩ pos := ⟨rfl, hpos⟩
  have hlimit : ∀ m, repeatLimit max = some m → min ≤ m := by
    intro m hm
    rw [repeatLimit] at hm
    split at hm
    · cases hm
    · cases hm
      exact hmax
  have hleft : ∀ next, pos ≤ next →
      RoundsLeft (repeatLimit max) text.chars.length min next
        (roundsAfter min max text.chars.length) := by
    intro next _
    unfold RoundsLeft roundsAfter
    cases repeatLimit max with
    | none => exact Nat.lt_add_left next (Nat.lt_succ_self _)
    | some m => rfl
  have hfound : ∀ lazily, List.Forall₂ (AtPosition text groups)
      ((exactly step min ⟨pos, groups⟩).flatMap
        (further lazily roundStuck step
          (roundsAfter min max text.chars.length)))
      ((exactly (onePosition f) min pos).flatMap
        (further lazily positionStuck (onePosition f)
          (roundsAfter min max text.chars.length))) :=
    fun lazily => List.rel_flatMap
      (exactly_related hrelated min _ _ hstart)
      fun a b hab => further_related hstuck hrelated _ a b hab
  cases kind with
  | greedy =>
      rw [repetitions, findSome?_atPosition (hfound false), matchRepeat,
        matchMaxRepeat_eq hforward hpos hlimit hleft (hmoves rfl)]
  | lazy =>
      rw [repetitions, findSome?_atPosition (hfound true), matchRepeat,
        matchMinRepeat_eq hforward hpos hleft]
  | possessive =>
      rw [repetitions, findSome?_atPosition (forall₂_committed (hfound false)),
        matchRepeat, matchPossessiveRepeat_eq hforward hpos hlimit hleft]

theorem findSome?_oneChar {test : Char → Bool} {pos : Nat}
    {k : Place → Option Place} :
    (text.oneChar test ⟨pos, groups⟩).findSome? k =
      text.chars[pos]?.bind fun c =>
        if test c then k ⟨pos + 1, groups⟩ else none := by
  rw [Subject.oneChar]
  cases text.chars[pos]? with
  | none => rfl
  | some c =>
      dsimp only [Option.bind_some]
      split
      · exact List.findSome?_singleton
      · rfl

theorem ways_settled {found : List Place} :
    Reading.settled.ways found = committed found :=
  if_neg Bool.false_ne_true

/-- The place that the matcher comes to. -/
def matchedPlace (text : Subject) (ops : SubPattern) (pos flags : Nat)
    (groups : Groups) : Option Place :=
  (matchSeq text ops pos flags groups).map (Place.mk · groups)

/-- The matcher comes to the first place there is, when groups are settled. -/
theorem head?_seqResults_settled {size : Nat} :
    ∀ {ops : SubPattern} {flags pos : Nat}, sizeOf ops < size →
      (∀ op ∈ ops, op.Every OpCode.Plain) →
      hasFlag flags sreFlagAscii = false → pos ≤ text.chars.length →
      (seqResults .settled text ops flags ⟨pos, groups⟩).head? =
        matchedPlace text ops pos flags groups := by
  induction size with
  | zero => exact fun hsize => absurd hsize (Nat.not_lt_zero _)
  | succ size ih =>
      intro ops flags pos hsize hplain hflags hpos
      cases ops with
      | nil => rw [seqResults, matchedPlace, matchSeq]; rfl
      | cons op rest =>
          obtain ⟨hop, hrest⟩ := List.forall_mem_cons.mp hplain
          rw [List.cons.sizeOf_spec] at hsize
          have hhead : (seqResults .settled text (op :: rest) flags
              ⟨pos, groups⟩).head? =
              (op.results .settled text flags ⟨pos, groups⟩).findSome?
                fun next => matchedPlace text rest next.pos flags groups := by
            rw [seqResults, List.head?_flatMap]
            refine findSome?_congr fun next hnext => ?_
            have hlead := op.results_lead flags _ next hnext
            have hplace : next = ⟨next.pos, groups⟩ := by
              obtain ⟨stop, after⟩ := next
              rw [show after = groups from hlead.groups rfl]
            rw [hplace]
            exact ih (by omega) hrest hflags (hlead.forward hpos).2
          have hseq : ∀ p ∈ op.nested, ∀ {flags pos : Nat},
              hasFlag flags sreFlagAscii = false → pos ≤ text.chars.length →
              (seqResults .settled text p flags ⟨pos, groups⟩).head? =
                matchedPlace text p pos flags groups := by
            intro p hp flags pos
            have hsmaller := OpCode.sizeOf_nested hp
            exact ih (by omega) (hop.inside p hp)
          have happend : ∀ p ∈ op.nested,
              ((seqResults .settled text p flags ⟨pos, groups⟩).flatMap
                fun next => seqResults .settled text rest flags next).head? =
                matchedPlace text (p ++ rest) pos flags groups := by
            intro p hp
            have hsmaller := OpCode.sizeOf_nested hp
            have hsize_append := sizeOf_append p rest
            rw [← seqResults_append]
            exact ih (by omega)
              (List.forall_mem_append.mpr ⟨hop.inside p hp, hrest⟩) hflags hpos
          cases op with
          | literal cp =>
              rw [hhead, OpCode.results, findSome?_oneChar]
              simp only [matchedPlace, matchSeq, Option.bind_eq_bind]
              cases charFromU32 cp <;> cases text.chars[pos]? <;>
                simp only [Option.any_none, Option.any_some, Option.bind_none,
                  Option.bind_some, Option.map_none, Bool.false_eq_true,
                  if_false, apply_ite (Option.map _)]
          | notLiteral cp =>
              rw [hhead, OpCode.results, findSome?_oneChar]
              simp only [matchedPlace, matchSeq, Option.bind_eq_bind]
              cases charFromU32 cp <;> cases text.chars[pos]? <;>
                simp only [Option.any_none, Option.any_some, Option.bind_none,
                  Option.bind_some, Option.map_none, Bool.false_eq_true,
                  if_false, apply_ite (Option.map _), Bool.not_eq_true']
              case some.some banned got =>
                  cases charsEq text.tables got banned flags <;> rfl
          | any =>
              rw [hhead, OpCode.results, findSome?_oneChar]
              simp only [matchedPlace, matchSeq, Option.bind_eq_bind]
              cases text.chars[pos]? <;>
                simp only [Option.bind_none, Option.bind_some, Option.map_none,
                  apply_ite (Option.map _)]
          | inSet items =>
              rw [hhead, OpCode.results, findSome?_oneChar]
              simp only [matchedPlace, matchSeq, Option.bind_eq_bind,
                setContains_eq hflags]
              cases text.chars[pos]? <;>
                simp only [Option.bind_none, Option.bind_some, Option.map_none,
                  apply_ite (Option.map _)]
          | position code =>
              rw [hhead, OpCode.results, positionHolds_eq hflags hpos]
              simp only [matchedPlace, matchSeq]
              split
              · exact List.findSome?_singleton
              · rfl
          | branch items =>
              rw [seqResults, OpCode.results, branchResults_eq,
                List.flatMap_assoc, List.head?_flatMap, matchedPlace,
                matchSeq_branch, List.map_findSome?]
              exact findSome?_congr happend
          | subpattern group addFlags delFlags p =>
              have hscoped : hasFlag (scopedFlags flags addFlags delFlags)
                  sreFlagAscii = false := hasFlag_scopedFlags hflags hop.here
              have hp := hseq p List.mem_cons_self hscoped hpos
              rw [hhead, OpCode.results, List.findSome?_map, ways_settled,
                findSome?_committed, hp]
              simp only [matchedPlace, matchSeq, Option.bind_eq_bind,
                Function.comp_def, capture_pos]
              cases matchSeq text p pos (scopedFlags flags addFlags delFlags)
                groups <;> rfl
          | groupRef gid =>
              rw [hhead, OpCode.results]
              simp only [matchedPlace, matchSeq, Option.bind_eq_bind]
              cases groups.lookup gid with
              | none => rfl
              | some val =>
                  dsimp only [Option.bind_some]
                  split
                  · exact List.findSome?_singleton
                  · rfl
          | groupRefExists condGroup yes no =>
              rw [seqResults]
              cases no with
              | none =>
                  rw [OpCode.results, matchedPlace, matchSeq]
                  split
                  · exact happend yes List.mem_cons_self
                  · rw [List.flatMap_singleton]
                    exact ih (by omega) hrest hflags hpos
              | some no =>
                  rw [OpCode.results, matchedPlace, matchSeq]
                  split
                  · exact happend yes List.mem_cons_self
                  · exact happend no (List.mem_cons_of_mem _ List.mem_cons_self)
          | assert direction p =>
              have hahead : 0 ≤ direction := hop.here
              have hp := hseq p List.mem_cons_self hflags hpos
              rw [hhead, OpCode.results, looking, if_pos hahead,
                List.findSome?_map, findSome?_committed, hp]
              simp only [matchedPlace, matchSeq, Function.comp_def]
              cases matchSeq text p pos flags groups <;> rfl
          | assertNot direction p =>
              have hahead : 0 ≤ direction := hop.here
              have hp := hseq p List.mem_cons_self hflags hpos
              rw [hhead, OpCode.results, looking, if_pos hahead]
              simp only [matchedPlace, matchSeq] at hp ⊢
              cases hfound : seqResults .settled text p flags
                  ⟨pos, groups⟩ with
              | nil =>
                  rw [hfound, List.head?_nil] at hp
                  rw [Option.map_eq_none_iff.mp hp.symm]
                  exact List.findSome?_singleton
              | cons place more =>
                  rw [hfound, List.head?_cons] at hp
                  obtain ⟨stop, hstop, -⟩ := Option.map_eq_some_iff.mp hp.symm
                  rw [hstop]
                  rfl
          | atomicGroup p =>
              have hp := hseq p List.mem_cons_self hflags hpos
              rw [hhead, OpCode.results, findSome?_committed, hp]
              simp only [matchedPlace, matchSeq, Option.bind_eq_bind]
              cases matchSeq text p pos flags groups <;> rfl
          | repeated kind min max item =>
              obtain ⟨hmax, hmoves⟩ := hop.here
              have hplaces : ∀ cur ≤ text.chars.length,
                  Reading.settled.ways
                    (seqResults .settled text item flags ⟨cur, groups⟩) =
                  (matchSeq text item cur flags groups).toList.map
                    (Place.mk · groups) := by
                intro cur hcur
                rw [ways_settled, committed,
                  hseq item List.mem_cons_self hflags hcur, matchedPlace]
                cases matchSeq text item cur flags groups <;> rfl
              have hmatched : ∀ cur ≤ text.chars.length, ∀ next,
                  matchSeq text item cur flags groups = some next →
                  ⟨next, groups⟩ ∈
                    seqResults .settled text item flags ⟨cur, groups⟩ := by
                intro cur hcur next hnext
                apply List.mem_of_mem_head?
                rw [hseq item List.mem_cons_self hflags hcur, matchedPlace,
                  hnext]
                rfl
              rw [hhead, OpCode.results, matchedPlace, matchSeq]
              refine @findSome?_repetitions text groups _
                (fun cur => matchSeq text item cur flags groups)
                (fun cur => matchSeq text rest cur flags groups) kind min max
                pos hpos hplaces (fun cur hcur next hnext => ?_) hmax
                (fun hgreedy => (hmoves hgreedy).imp_right
                  fun hconsumes cur hcur next hnext => ?_)
              · exact (seqResults_lead item flags _ _
                  (hmatched cur hcur next hnext)).forward hcur
              · exact seqResults_consume
                  (fun inner _ hinner => inner.results_consume hinner flags)
                  hconsumes _ hcur _ (hmatched cur hcur next hnext)
          | failure =>
              rw [hhead, OpCode.results, matchedPlace, matchSeq]
              rfl

end Settled

mutual

/-- Whether an operation can be matched in one way only. -/
def OpCode.singleWay : OpCode → Bool
  | .branch _ => false
  | .subpattern _ _ _ p => seqSingleWay p
  | .groupRefExists _ yes (some no) => seqSingleWay yes && seqSingleWay no
  | .groupRefExists _ yes none => seqSingleWay yes
  | .repeated .possessive _ _ _ => true
  | .repeated _ _ _ _ => false
  | _ => true

def seqSingleWay : List OpCode → Bool
  | [] => true
  | op :: rest => op.singleWay && seqSingleWay rest

end

section SingleWay

variable {r : Reading} {text : Subject}

theorem length_flatMap_le_one {α β : Type} {found : List α} {f : α → List β}
    (hfound : found.length ≤ 1) (hf : ∀ a ∈ found, (f a).length ≤ 1) :
    (found.flatMap f).length ≤ 1 := by
  cases found with
  | nil => exact Nat.zero_le 1
  | cons a rest =>
      cases rest with
      | nil =>
          rw [List.flatMap_singleton]
          exact hf a List.mem_cons_self
      | cons b rest => exact absurd hfound (by simp)

theorem length_seqResults {p : SubPattern} {flags : Nat}
    (hops : ∀ op ∈ p, op.singleWay = true → ∀ s,
      (op.results r text flags s).length ≤ 1)
    (hsingle : seqSingleWay p = true) (s : Place) :
    (seqResults r text p flags s).length ≤ 1 := by
  induction p generalizing s with
  | nil => exact le_rfl
  | cons op rest ih =>
      obtain ⟨hop, hrest⟩ := List.forall_mem_cons.mp hops
      rw [seqSingleWay, Bool.and_eq_true] at hsingle
      exact length_flatMap_le_one (hop hsingle.1 s)
        fun next _ => ih hrest hsingle.2 next

theorem length_oneChar {test : Char → Bool} {s : Place} :
    (text.oneChar test s).length ≤ 1 := by
  rw [Subject.oneChar]
  split
  · split <;> simp
  · exact Nat.zero_le 1

theorem OpCode.length_results (op : OpCode) : op.singleWay = true →
    ∀ flags s, (op.results r text flags s).length ≤ 1 := by
  induction op using OpCode.induction with
  | step op ih =>
      have hseq : ∀ p ∈ op.nested, seqSingleWay p = true → ∀ flags s,
          (seqResults r text p flags s).length ≤ 1 :=
        fun p hp hsingle flags => length_seqResults
          (fun inner hinner hop => ih p hp inner hinner hop flags) hsingle
      have hwhen : ∀ (holds : Bool) (s : Place),
          (if holds then [s] else []).length ≤ 1 := by
        intro holds s
        cases holds <;> simp
      intro hsingle flags s
      cases op with
      | literal cp => exact length_oneChar
      | notLiteral cp => exact length_oneChar
      | any => exact length_oneChar
      | inSet items => exact length_oneChar
      | position code => exact hwhen _ s
      | branch items => cases hsingle
      | subpattern group addFlags delFlags p =>
          rw [OpCode.singleWay] at hsingle
          rw [OpCode.results, List.length_map, Reading.ways]
          split
          · exact hseq p List.mem_cons_self hsingle _ s
          · exact length_committed _
      | groupRef gid =>
          rw [OpCode.results]
          split
          · exact hwhen _ _
          · exact Nat.zero_le 1
      | groupRefExists condGroup yes no =>
          cases no with
          | none =>
              rw [OpCode.singleWay] at hsingle
              rw [OpCode.results]
              split
              · exact hseq yes List.mem_cons_self hsingle flags s
              · exact le_rfl
          | some no =>
              rw [OpCode.singleWay, Bool.and_eq_true] at hsingle
              rw [OpCode.results]
              split
              · exact hseq yes List.mem_cons_self hsingle.1 flags s
              · exact hseq no (List.mem_cons_of_mem _ List.mem_cons_self)
                  hsingle.2 flags s
      | assert direction p =>
          rw [OpCode.results, List.length_map]
          exact length_committed _
      | assertNot direction p => exact hwhen _ s
      | atomicGroup p => exact length_committed _
      | repeated kind min max item =>
          cases kind with
          | possessive => exact length_committed _
          | greedy => cases hsingle
          | lazy => cases hsingle
      | failure => exact Nat.zero_le 1

end SingleWay

/-- Groups that are referred to are given, and none of those that capture. -/
def OpCode.Refers (refs : Nat → Prop) : OpCode → Prop
  | .groupRef gid => refs gid
  | .groupRefExists condGroup _ _ => refs condGroup
  | .subpattern (some gid) _ _ _ => ¬ refs gid
  | _ => True

/-- Groups and repeated items leave nothing to try again. -/
def OpCode.Determined : OpCode → Prop
  | .subpattern _ _ _ p => seqSingleWay p = true
  | .repeated _ _ _ item => seqSingleWay item = true
  | _ => True

/-- Where less than all matches would be too few, groups and repeated items
leave nothing to try again. -/
def OpCode.Sound (refs : Nat → Prop) : OpCode → Prop
  | .assertNot _ p =>
      ∀ op ∈ p, op.Every fun op => op.Determined ∧ op.Refers refs
  | .atomicGroup p =>
      ∀ op ∈ p, op.Every fun op => op.Determined ∧ op.Refers refs
  | .repeated .possessive _ _ item => seqSingleWay item = true ∧
      ∀ op ∈ item, op.Every fun op => op.Determined ∧ op.Refers refs
  | op => op.Refers refs

section Readings

variable {text : Subject} {refs : Nat → Prop}

/-- The same position, with the same captures in the groups referred to. -/
def Place.Agrees (refs : Nat → Prop) (s s' : Place) : Prop :=
  s'.pos = s.pos ∧
    ∀ gid, refs gid → s'.groups.lookup gid = s.groups.lookup gid

/-- Matching does not change the groups that are referred to. -/
theorem results_keep {r : Reading} {op : OpCode}
    (hop : op.Every (OpCode.Refers refs)) (flags : Nat) (s : Place) :
    ∀ t ∈ op.results r text flags s,
      ∀ gid, refs gid → t.groups.lookup gid = s.groups.lookup gid := by
  refine OpCode.results_within
    (R := fun s t => ∀ gid, refs gid →
      t.groups.lookup gid = s.groups.lookup gid)
    (fun s gid _ => rfl)
    (fun hst htu gid hgid => (htu gid hgid).trans (hst gid hgid))
    (fun s stop _ _ gid _ => rfl) (fun s start t hst => hst)
    (hop.imp fun op hrefers => ?_) flags s
  cases op with
  | subpattern group addFlags delFlags p =>
      intro s t hst gid hgid
      cases group with
      | none => exact hst gid hgid
      | some captured =>
          have hother : gid ≠ captured := fun heq => hrefers (heq ▸ hgid)
          rw [Reading.capture]
          split
          · exact (AList.lookup_insert_ne hother).trans (hst gid hgid)
          · exact hst gid hgid
  | _ => trivial

variable {s s' : Place}

theorem stuck_agrees (a b a' b' : Place) (h : a.Agrees refs b)
    (h' : a'.Agrees refs b') : roundStuck a a' = roundStuck b b' := by
  rw [roundStuck, roundStuck, h.1, h'.1]

theorem oneChar_related (hagrees : s.Agrees refs s') {test : Char → Bool} :
    List.Forall₂ (Place.Agrees refs) (text.oneChar test s)
      (text.oneChar test s') := by
  rw [Subject.oneChar, Subject.oneChar, hagrees.1]
  split
  · split
    · exact .cons ⟨rfl, hagrees.2⟩ .nil
    · exact .nil
  · exact .nil

theorem stay_related (hagrees : s.Agrees refs s') {holds : Bool} :
    List.Forall₂ (Place.Agrees refs) (if holds then [s] else [])
      (if holds then [s'] else []) := by
  split
  · exact .cons hagrees .nil
  · exact .nil

theorem groupRef_related (hagrees : s.Agrees refs s') {gid flags : Nat}
    (hgid : refs gid) : List.Forall₂ (Place.Agrees refs)
      ((OpCode.groupRef gid).results .settled text flags s)
      ((OpCode.groupRef gid).results .standard text flags s') := by
  rw [OpCode.results, OpCode.results, hagrees.2 gid hgid, hagrees.1]
  cases s.groups.lookup gid with
  | none => exact .nil
  | some val =>
      dsimp only
      split
      · exact .cons ⟨rfl, hagrees.2⟩ .nil
      · exact .nil

theorem mem_groups_agrees (hagrees : s.Agrees refs s') {gid : Nat}
    (hgid : refs gid) : gid ∈ s.groups ↔ gid ∈ s'.groups := by
  rw [← AList.lookup_isSome, ← AList.lookup_isSome, hagrees.2 gid hgid]

theorem capture_agrees {group : Option Nat} {chars : List Char} {t t' : Place}
    (hgroup : ∀ gid, group = some gid → ¬ refs gid)
    (hagrees : t.Agrees refs t') {start start' : Nat} :
    (Reading.settled.capture group chars start t).Agrees refs
      (Reading.standard.capture group chars start' t') := by
  cases group with
  | none => exact hagrees
  | some captured =>
      refine ⟨hagrees.1, fun gid hgid => ?_⟩
      have hother : gid ≠ captured :=
        fun heq => hgroup captured rfl (heq ▸ hgid)
      exact (AList.lookup_insert_ne hother).trans (hagrees.2 gid hgid)

theorem looking_related (hagrees : s.Agrees refs s') {direction : Int}
    {search search' : Place → List Place}
    (hsearch : ∀ s s', s.Agrees refs s' →
      List.Forall₂ (Place.Agrees refs) (search s) (search' s')) :
    List.Forall₂ (Place.Agrees refs) (looking direction search s)
      (looking direction search' s') := by
  rw [looking, looking]
  split
  · exact hsearch s s' hagrees
  · rw [behind, behind, hagrees.1]
    refine forall₂_flatMap_same fun start _ =>
      List.rel_filter (fun a b hab => ?_) (hsearch _ _ ⟨rfl, hagrees.2⟩)
    dsimp only
    rw [hab.1]

theorem seqResults_related {p : SubPattern} {flags : Nat}
    (hops : ∀ op ∈ p, ∀ s s', s.Agrees refs s' →
      List.Forall₂ (Place.Agrees refs) (op.results .settled text flags s)
        (op.results .standard text flags s'))
    (s s' : Place) (hagrees : s.Agrees refs s') :
    List.Forall₂ (Place.Agrees refs) (seqResults .settled text p flags s)
      (seqResults .standard text p flags s') := by
  induction p generalizing s s' with
  | nil => exact .cons hagrees .nil
  | cons op rest ih =>
      obtain ⟨hop, hrest⟩ := List.forall_mem_cons.mp hops
      exact List.rel_flatMap (hop s s' hagrees) fun a b hab => ih hrest a b hab

/-- The first way is the only one. -/
theorem ways_related {found found' : List Place}
    (hfound : List.Forall₂ (Place.Agrees refs) found found')
    (hone : found.length ≤ 1) :
    List.Forall₂ (Place.Agrees refs) (Reading.settled.ways found)
      (Reading.standard.ways found') := by
  rw [ways_settled, committed_eq_self hone]
  exact hfound

theorem repetitions_related {kind : RepeatKind} {min max len : Nat}
    {step step' : Place → List Place}
    (hstep : ∀ a b, a.Agrees refs b →
      List.Forall₂ (Place.Agrees refs) (step a) (step' b))
    (hagrees : s.Agrees refs s') :
    List.Forall₂ (Place.Agrees refs) (repetitions kind min max len step s)
      (repetitions kind min max len step' s') := by
  have hfound : ∀ lazily, List.Forall₂ (Place.Agrees refs)
      ((exactly step min s).flatMap
        (further lazily roundStuck step (roundsAfter min max len)))
      ((exactly step' min s').flatMap
        (further lazily roundStuck step' (roundsAfter min max len))) :=
    fun lazily => List.rel_flatMap (exactly_related hstep min s s' hagrees)
      fun a b hab => further_related stuck_agrees hstep _ a b hab
  cases kind with
  | greedy => exact hfound false
  | lazy => exact hfound true
  | possessive => exact forall₂_committed (hfound false)

theorem isEmpty_related {found found' : List Place}
    (hfound : List.Forall₂ (Place.Agrees refs) found found') :
    found.isEmpty = found'.isEmpty := by
  cases hfound <;> rfl

/-- Where nothing can be tried again, both readings find the same. -/
theorem results_related {op : OpCode}
    (hop : op.Every fun op => op.Determined ∧ op.Refers refs) :
    ∀ flags s s', s.Agrees refs s' →
      List.Forall₂ (Place.Agrees refs) (op.results .settled text flags s)
        (op.results .standard text flags s') := by
  induction hop with
  | @intro op hhere _ ih =>
      obtain ⟨hdetermined, hrefers⟩ := hhere
      have hseq : ∀ p ∈ op.nested, ∀ flags s s', s.Agrees refs s' →
          List.Forall₂ (Place.Agrees refs) (seqResults .settled text p flags s)
            (seqResults .standard text p flags s') :=
        fun p hp flags => seqResults_related
          fun inner hinner => ih p hp inner hinner flags
      intro flags s s' hagrees
      cases op with
      | literal cp => exact oneChar_related hagrees
      | notLiteral cp => exact oneChar_related hagrees
      | any => exact oneChar_related hagrees
      | inSet items => exact oneChar_related hagrees
      | position code =>
          rw [OpCode.results, OpCode.results, hagrees.1]
          exact stay_related hagrees
      | branch items =>
          rw [OpCode.results, OpCode.results, branchResults_eq,
            branchResults_eq]
          exact forall₂_flatMap_same fun p hp => hseq p hp flags s s' hagrees
      | subpattern group addFlags delFlags p =>
          have hgroup : ∀ gid, group = some gid → ¬ refs gid := by
            rintro gid rfl
            exact hrefers
          rw [OpCode.results, OpCode.results]
          refine forall₂_map
            (ways_related (hseq p List.mem_cons_self _ s s' hagrees) ?_)
            fun t t' ht => capture_agrees hgroup ht
          exact length_seqResults (fun inner _ hinner =>
            inner.length_results hinner _) hdetermined s
      | groupRef gid => exact groupRef_related hagrees hrefers
      | groupRefExists condGroup yes no =>
          have hmem := mem_groups_agrees hagrees hrefers
          cases no with
          | none =>
              rw [OpCode.results, OpCode.results]
              simp only [hmem]
              split
              · exact hseq yes List.mem_cons_self flags s s' hagrees
              · exact .cons hagrees .nil
          | some no =>
              rw [OpCode.results, OpCode.results]
              simp only [hmem]
              split
              · exact hseq yes List.mem_cons_self flags s s' hagrees
              · exact hseq no (List.mem_cons_of_mem _ List.mem_cons_self)
                  flags s s' hagrees
      | assert direction p =>
          rw [OpCode.results, OpCode.results]
          exact forall₂_map (forall₂_committed (looking_related hagrees
            (hseq p List.mem_cons_self flags)))
            fun t t' ht => ⟨hagrees.1, ht.2⟩
      | assertNot direction p =>
          rw [OpCode.results, OpCode.results, isEmpty_related
            (looking_related hagrees (hseq p List.mem_cons_self flags))]
          exact stay_related hagrees
      | atomicGroup p =>
          exact forall₂_committed
            (hseq p List.mem_cons_self flags s s' hagrees)
      | repeated kind min max item =>
          rw [OpCode.results, OpCode.results]
          refine repetitions_related (fun a b hab => ?_) hagrees
          exact ways_related (hseq item List.mem_cons_self flags a b hab)
            (length_seqResults (fun inner _ hinner =>
              inner.length_results hinner flags) hdetermined a)
      | failure => exact .nil

theorem OpCode.Sound.refers {op : OpCode} (hsound : op.Sound refs) :
    op.Refers refs := by
  cases op with
  | repeated kind min max item => trivial
  | assertNot direction p => trivial
  | atomicGroup p => trivial
  | _ => exact hsound

theorem seqResults_keep {r : Reading} {p : SubPattern}
    (hops : ∀ op ∈ p, op.Every (OpCode.Sound refs)) (flags : Nat) (s : Place) :
    ∀ t ∈ seqResults r text p flags s,
      ∀ gid, refs gid → t.groups.lookup gid = s.groups.lookup gid :=
  seqResults_within (R := fun s t => ∀ gid, refs gid →
      t.groups.lookup gid = s.groups.lookup gid)
    (fun _ _ _ => rfl)
    (fun hst htu gid hgid => (htu gid hgid).trans (hst gid hgid))
    (fun op hop => results_keep ((hops op hop).imp fun _ h => h.refers) flags) s

theorem seqResults_covered {p : SubPattern} {flags : Nat}
    (hops : ∀ op ∈ p, ∀ s s', s.Agrees refs s' →
      FoundAmong (Place.Agrees refs) (op.results .settled text flags s)
        (op.results .standard text flags s'))
    (s s' : Place) (hagrees : s.Agrees refs s') :
    FoundAmong (Place.Agrees refs) (seqResults .settled text p flags s)
      (seqResults .standard text p flags s') := by
  induction p generalizing s s' with
  | nil => exact FoundAmong.singleton hagrees
  | cons op rest ih =>
      obtain ⟨hop, hrest⟩ := List.forall_mem_cons.mp hops
      exact (hop s s' hagrees).flatMap fun a b hab => ih hrest a b hab

theorem ways_covered {found found' : List Place}
    (hfound : FoundAmong (Place.Agrees refs) found found') :
    FoundAmong (Place.Agrees refs) (Reading.settled.ways found)
      (Reading.standard.ways found') :=
  fun t ht => hfound t (mem_of_mem_ways ht)

theorem repetitions_covered {lazily : Bool} {min rounds : Nat}
    {step step' : Place → List Place}
    (hstep : ∀ a b, a.Agrees refs b →
      FoundAmong (Place.Agrees refs) (step a) (step' b))
    (hagrees : s.Agrees refs s') :
    FoundAmong (Place.Agrees refs)
      ((exactly step min s).flatMap (further lazily roundStuck step rounds))
      ((exactly step' min s').flatMap
        (further lazily roundStuck step' rounds)) :=
  (exactly_foundAmong hstep min s s' hagrees).flatMap
    fun a b hab => further_foundAmong stuck_agrees hstep rounds a b hab

/-- What an assertion looks for is found as well, if anything is. -/
theorem looking_covered (hagrees : s.Agrees refs s') {direction : Int}
    {search search' : Place → List Place}
    (hsearch : ∀ s s', s.Agrees refs s' →
      FoundAmong (Place.Agrees refs) (search s) (search' s')) :
    FoundAmong (Place.Agrees refs) (looking direction search s)
      (looking direction search' s') := by
  rw [looking, looking]
  split
  · exact hsearch s s' hagrees
  · rw [behind, behind, hagrees.1]
    refine FoundAmong.flatMap_same fun start _ t ht => ?_
    obtain ⟨hfound, hends⟩ := List.mem_filter.mp ht
    obtain ⟨t', ht', hagrees'⟩ :=
      hsearch ⟨start, s.groups⟩ ⟨start, s'.groups⟩ ⟨rfl, hagrees.2⟩ t hfound
    refine ⟨t', List.mem_filter.mpr ⟨ht', ?_⟩, hagrees'⟩
    rwa [hagrees'.1]

/-- What is found by the settled reading is found by the usual one. -/
theorem results_covered {op : OpCode} (hop : op.Every (OpCode.Sound refs)) :
    ∀ flags s s', s.Agrees refs s' →
      FoundAmong (Place.Agrees refs) (op.results .settled text flags s)
        (op.results .standard text flags s') := by
  induction hop with
  | @intro op hsound hnested ih =>
      have hseq : ∀ p ∈ op.nested, ∀ flags s s', s.Agrees refs s' →
          FoundAmong (Place.Agrees refs) (seqResults .settled text p flags s)
            (seqResults .standard text p flags s') :=
        fun p hp flags => seqResults_covered
          fun inner hinner => ih p hp inner hinner flags
      intro flags s s' hagrees
      cases op with
      | literal cp => exact .of_forall₂ (oneChar_related hagrees)
      | notLiteral cp => exact .of_forall₂ (oneChar_related hagrees)
      | any => exact .of_forall₂ (oneChar_related hagrees)
      | inSet items => exact .of_forall₂ (oneChar_related hagrees)
      | position code =>
          rw [OpCode.results, OpCode.results, hagrees.1]
          exact .of_forall₂ (stay_related hagrees)
      | branch items =>
          rw [OpCode.results, OpCode.results, branchResults_eq,
            branchResults_eq]
          exact FoundAmong.flatMap_same fun p hp => hseq p hp flags s s' hagrees
      | subpattern group addFlags delFlags p =>
          have hgroup : ∀ gid, group = some gid → ¬ refs gid := by
            rintro gid rfl
            exact hsound
          rw [OpCode.results, OpCode.results]
          intro t ht
          obtain ⟨u, hu, rfl⟩ := List.mem_map.mp ht
          obtain ⟨u', hu', hagrees'⟩ := ways_covered
            (hseq p List.mem_cons_self _ s s' hagrees) u hu
          exact ⟨_, List.mem_map.mpr ⟨u', hu', rfl⟩,
            capture_agrees hgroup hagrees'⟩
      | groupRef gid => exact .of_forall₂ (groupRef_related hagrees hsound)
      | groupRefExists condGroup yes no =>
          have hmem := mem_groups_agrees hagrees hsound
          cases no with
          | none =>
              rw [OpCode.results, OpCode.results]
              simp only [hmem]
              split
              · exact hseq yes List.mem_cons_self flags s s' hagrees
              · exact FoundAmong.singleton hagrees
          | some no =>
              rw [OpCode.results, OpCode.results]
              simp only [hmem]
              split
              · exact hseq yes List.mem_cons_self flags s s' hagrees
              · exact hseq no (List.mem_cons_of_mem _ List.mem_cons_self)
                  flags s s' hagrees
      | assert direction p =>
          rw [OpCode.results, OpCode.results]
          intro t ht
          obtain ⟨u, hu, rfl⟩ := List.mem_map.mp ht
          obtain ⟨u', hu', -⟩ := looking_covered hagrees
            (hseq p List.mem_cons_self flags) u (mem_of_mem_committed hu)
          have hkeep := hnested p List.mem_cons_self
          obtain ⟨start, -, hfound⟩ := mem_looking (mem_of_mem_committed hu)
          cases hlooking : looking direction
              (fun s => seqResults .standard text p flags s) s' with
          | nil =>
              rw [hlooking] at hu'
              cases hu'
          | cons v more =>
              have hv : v ∈ looking direction
                  (fun s => seqResults .standard text p flags s) s' :=
                hlooking ▸ List.mem_cons_self
              obtain ⟨start', -, hfound'⟩ := mem_looking hv
              refine ⟨_, List.mem_singleton_self _, hagrees.1,
                fun gid hgid => ?_⟩
              have hafter := seqResults_keep hkeep flags _ u hfound gid hgid
              have hafter' := seqResults_keep hkeep flags _ v hfound' gid hgid
              exact hafter'.trans ((hagrees.2 gid hgid).trans hafter.symm)
      | assertNot direction p =>
          have hp : ∀ s s', s.Agrees refs s' →
              List.Forall₂ (Place.Agrees refs)
                (seqResults .settled text p flags s)
                (seqResults .standard text p flags s') :=
            seqResults_related fun inner hinner =>
              results_related (hsound inner hinner) flags
          rw [OpCode.results, OpCode.results,
            isEmpty_related (looking_related hagrees hp)]
          exact .of_forall₂ (stay_related hagrees)
      | atomicGroup p =>
          rw [OpCode.results, OpCode.results]
          exact .of_forall₂ (forall₂_committed (seqResults_related
            (fun inner hinner => results_related (hsound inner hinner) flags)
            s s' hagrees))
      | repeated kind min max item =>
          have hitem := fun a b hab => ways_covered
            (hseq item List.mem_cons_self flags a b hab)
          rw [OpCode.results, OpCode.results]
          cases kind with
          | greedy => exact repetitions_covered hitem hagrees
          | lazy => exact repetitions_covered hitem hagrees
          | possessive =>
              obtain ⟨hsingle, hdetermined⟩ := hsound
              refine .of_forall₂
                (repetitions_related (fun a b hab => ?_) hagrees)
              exact ways_related (seqResults_related (fun inner hinner =>
                  results_related (hdetermined inner hinner) flags) a b hab)
                (length_seqResults (fun inner _ hinner =>
                  inner.length_results hinner flags) hsingle a)
      | failure => exact fun _ h => by cases h

end Readings

section Matching

variable {text : Subject} {ops : SubPattern} {flags pos : Nat}
  {groups : Groups}

/-- The matcher comes to the first place there is when groups are given and
entered once, and to a place that the usual reading finds as well unless one of
those ways had to be the only one. -/
theorem matchSeq_matches (hplain : ∀ op ∈ ops, op.Every OpCode.Plain)
    (hflags : hasFlag flags sreFlagAscii = false)
    (hpos : pos ≤ text.chars.length) :
    (matchSeq text ops pos flags groups).map (Place.mk · groups) =
        (seqResults .settled text ops flags ⟨pos, groups⟩).head? ∧
      ∀ refs, (∀ op ∈ ops, op.Every (OpCode.Sound refs)) →
        ∀ stop, matchSeq text ops pos flags groups = some stop →
          ∃ after, ⟨stop, after⟩ ∈
            seqResults .standard text ops flags ⟨pos, groups⟩ := by
  have hfirst := @head?_seqResults_settled text groups _ ops flags pos
    (Nat.lt_succ_self _) hplain hflags hpos
  refine ⟨hfirst.symm, fun refs hsound stop hstop => ?_⟩
  rw [matchedPlace, hstop] at hfirst
  obtain ⟨place, hplace, hagrees⟩ := seqResults_covered
    (fun op hop => results_covered (hsound op hop) flags) ⟨pos, groups⟩
    ⟨pos, groups⟩ ⟨rfl, fun _ _ => rfl⟩ _ (List.mem_of_mem_head? hfirst)
  obtain ⟨stop', after⟩ := place
  rw [show stop' = stop from hagrees.1] at hplace
  exact ⟨after, hplace⟩

/-- A letter in a group, and another one once or twice. -/
def groupThenLetters : SubPattern :=
  [.subpattern (some 1) 0 0 [.literal 97], .repeated .greedy 1 2 [.literal 98]]

theorem every_groupThenLetters {Q : OpCode → Prop}
    (hliteral : ∀ cp, Q (.literal cp))
    (hgroup : Q (.subpattern (some 1) 0 0 [.literal 97]))
    (hrepeat : Q (.repeated .greedy 1 2 [.literal 98])) :
    ∀ op ∈ groupThenLetters, op.Every Q := by
  have hletter : ∀ cp, ∀ op ∈ [OpCode.literal cp], op.Every Q := fun cp =>
    List.forall_mem_singleton.mpr (.leaf rfl (hliteral cp))
  refine List.forall_mem_cons.mpr ⟨.intro hgroup ?_,
    List.forall_mem_singleton.mpr (.intro hrepeat ?_)⟩
  · exact List.forall_mem_singleton.mpr (hletter 97)
  · exact List.forall_mem_singleton.mpr (hletter 98)

theorem matchSeq_matches_group :
    matchSeq ⟨longSTables, plainData, "xabb".toList⟩ groupThenLetters 1 0 ∅ =
        some 4 ∧
      ∃ after, ⟨4, after⟩ ∈ seqResults .standard
        ⟨longSTables, plainData, "xabb".toList⟩ groupThenLetters 0 ⟨1, ∅⟩ := by
  have hmatched : matchSeq ⟨longSTables, plainData, "xabb".toList⟩
      groupThenLetters 1 0 ∅ = some 4 := by
    decide +kernel
  have hplain : ∀ op ∈ groupThenLetters, op.Every OpCode.Plain :=
    every_groupThenLetters (fun _ => trivial) rfl
      ⟨by decide, fun _ => .inr rfl⟩
  have hsound : ∀ op ∈ groupThenLetters,
      op.Every (OpCode.Sound fun _ => False) :=
    every_groupThenLetters (fun _ => trivial) id trivial
  exact ⟨hmatched, (matchSeq_matches hplain rfl (by decide)).2 _ hsound 4
    hmatched⟩

/-- The group ahead is entered once, so that its second alternative is never
looked at. -/
theorem matchSeq_matches_reentered_false :
    ¬ ∀ (text : Subject) (ops : SubPattern) (flags pos stop : Nat)
        (groups : Groups), matchSeq text ops pos flags groups = some stop →
      ∃ after, ⟨stop, after⟩ ∈
        seqResults .standard text ops flags ⟨pos, groups⟩ := by
  intro hall
  have hnone : seqResults .standard ⟨longSTables, plainData, "abc".toList⟩
      [.assertNot 1 [.subpattern (some 1) 0 0
        [.literal 97, .branch [[], [.literal 98]]], .literal 99],
      .literal 97, .literal 98, .literal 99] 0 ⟨0, ∅⟩ = [] := rfl
  obtain ⟨after, hmem⟩ := hall ⟨longSTables, plainData, "abc".toList⟩
    [.assertNot 1 [.subpattern (some 1) 0 0
        [.literal 97, .branch [[], [.literal 98]]], .literal 99],
      .literal 97, .literal 98, .literal 99] 0 0 3 ∅ (by decide +kernel)
  rw [hnone] at hmem
  cases hmem

end Matching

end Hegel
