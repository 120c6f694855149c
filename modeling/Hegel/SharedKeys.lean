/-
What equal sort keys leave open.  The shrinker takes a candidate whose key is
the target's for the target itself and does not run it.  The key forgets which
scalar or sequence a value is, the point an integer is measured from, the
payload of a NaN and the alphabet a codepoint is ranked in; whatever it does
not forget it decides, clones by their own nodes.
-/
import Hegel.DrawLaws
import Hegel.FloatLeast
import Hegel.ShrinkRuns

namespace Hegel

open Binary64

/-- Whether codepoints of one rank differ: the rank stands for different
codepoints in their alphabets.  A codepoint outside its alphabet has no rank,
and the two are compared as they are. -/
def StringChoice.RankApart (sc sc' : StringChoice) (cp cp' : UInt32) : Prop :=
  if sc.intervals.contains cp.toNat ∧ sc'.intervals.contains cp'.toNat then
    sc.intervals.charInShrinkOrder (sc.codepointKey cp) ≠
      sc'.intervals.charInShrinkOrder (sc.codepointKey cp)
  else cp ≠ cp'

mutual

/-- Whether two pieces of data that have one key hold different values: they
are of different kinds, integers measured from different points, a NaN beside
another payload, strings from alphabets that rank apart, or clones with such
nodes. -/
def ChoiceData.Aliases : ChoiceData → ChoiceData → Prop
  | .integer ic _, .integer ic' _ =>
      ic.clampedShrinkTowards ≠ ic'.clampedShrinkTowards
  | .boolean _ _, .boolean _ _ => False
  | .float _ v, .float _ v' => v.isNan = true ∧ v.bits ≠ v'.bits
  | .bytes _ _, .bytes _ _ => False
  | .string sc v, .string sc' v' =>
      ∃ places ∈ v.zip v', sc.RankApart sc' places.1 places.2
  | .clone stream, .clone stream' => stream.Aliases stream'
  | _, _ => True
  termination_by structural data => data

def RealizedStream.Aliases : RealizedStream → RealizedStream → Prop
  | .mk nodes _ _, .mk nodes' _ _ => NodesAlias nodes nodes'

def ChoiceNode.Aliases : ChoiceNode → ChoiceNode → Prop
  | .mk data _, .mk data' _ => data.Aliases data'

/-- Whether data that has one key holds different values at some position. -/
def NodesAlias : List ChoiceNode → List ChoiceNode → Prop
  | a :: as, b :: bs => a.Aliases b ∨ NodesAlias as bs
  | _, _ => False

end

section Scalars

/-- A distance and a side tell an integer, given the point they are taken
from. -/
theorem IntegerChoice.eq_iff_of_sortKey {ic ic' : IntegerChoice} {v v' : Int}
    (hkey : ic.sortKey v = ic'.sortKey v') :
    v = v' ↔ ic.clampedShrinkTowards = ic'.clampedShrinkTowards := by
  simp only [IntegerChoice.sortKey, Prod.mk.injEq, decide_eq_decide] at hkey
  obtain ⟨hdistance, hside⟩ := hkey
  omega

variable {v v' : Binary64}

/-- The ranks of numbers end below those of the NaNs. -/
theorem rank_number_le (hv : v.isNan = false) :
    floatGlobalRank v ≤ maxFiniteGlobalRank + 2 := by
  rcases FloatChoice.float_cases v with hnan | rfl | rfl | rfl | rfl | hpos | hneg
  · rw [hv] at hnan
    cases hnan
  · decide +kernel
  · decide +kernel
  · decide +kernel
  · decide +kernel
  · exact (FloatChoice.rank_finite_le (.inl hpos)).trans (by omega)
  · exact (FloatChoice.rank_finite_le (.inr hneg)).trans (by omega)

/-- No number has the key of the NaNs. -/
theorem sortKey_ne_nan (fc : FloatChoice) (hv : v.isNan = false) :
    fc.sortKey v ≠ (2 ^ 64 - 1, false) := by
  intro hkey
  rw [sortKey_eq fc hv, Prod.mk.injEq] at hkey
  have hrank := rank_number_le hv
  have hlast : maxFiniteGlobalRank + 2 < (2 ^ 64 - 1) * 2 := by decide
  rw [rank_number hv, hkey.1] at hrank
  omega

/-- A key tells a float, except which NaN it is. -/
theorem FloatChoice.eq_iff_of_sortKey {fc fc' : FloatChoice}
    (hkey : fc.sortKey v = fc'.sortKey v') :
    v = v' ↔ ¬(v.isNan = true ∧ v.bits ≠ v'.bits) := by
  cases hv : v.isNan with
  | true => simp [ext_bits_iff]
  | false =>
      have hv' : v'.isNan = false := by
        by_contra hnan
        rw [Bool.not_eq_false] at hnan
        apply sortKey_ne_nan fc hv
        rw [hkey, FloatChoice.sortKey, if_pos hnan]
      have hrank := (sortKey_eq_iff fc hv hv').mp hkey
      have hfound := floatFromGlobalRank_floatGlobalRank v
      rw [hrank, floatFromGlobalRank_floatGlobalRank v',
        Option.some.injEq] at hfound
      simp [hfound]

end Scalars

section Strings

namespace StringChoice

variable {sc sc' : StringChoice}

/-- A rank and its alphabet tell the codepoint. -/
theorem charInShrinkOrder_codepointKey {cp : UInt32}
    (hmem : sc.intervals.contains cp.toNat = true) :
    sc.intervals.charInShrinkOrder (sc.codepointKey cp) = cp.toNat := by
  obtain ⟨hlt, hchar⟩ :=
    sc.intervals.charInShrinkOrder_indexFromCodepoint hmem
  have hlen := sc.intervals.len_le
  rw [codepointKey, Nat.mod_eq_of_lt (by omega), hchar]

theorem ne_iff_rankApart {cp cp' : UInt32}
    (hkey : sc.codepointKey cp = sc'.codepointKey cp') :
    cp ≠ cp' ↔ sc.RankApart sc' cp cp' := by
  unfold RankApart
  split
  · next hmem =>
      rw [charInShrinkOrder_codepointKey hmem.1, hkey,
        charInShrinkOrder_codepointKey hmem.2]
      exact UInt32.toNat_inj.symm.not
  · rfl

/-- Keys tell a string, except for ranks at which the alphabets differ. -/
theorem eq_iff_of_codepointKeys {v v' : List UInt32}
    (hkeys : v.map sc.codepointKey = v'.map sc'.codepointKey) :
    v = v' ↔ ¬∃ places ∈ v.zip v', sc.RankApart sc' places.1 places.2 := by
  induction v generalizing v' with
  | nil =>
      rw [List.map_nil, eq_comm, List.map_eq_nil_iff] at hkeys
      simp [hkeys]
  | cons cp rest ih =>
      cases v' with
      | nil => simp at hkeys
      | cons cp' rest' =>
          rw [List.map_cons, List.map_cons, List.cons.injEq] at hkeys
          rw [List.cons.injEq, ih hkeys.2, List.zip_cons_cons]
          simp only [List.exists_mem_cons_iff, not_or,
            ← ne_iff_rankApart hkeys.1, not_not]

end StringChoice

end Strings

section Values

variable {data data' : ChoiceData}

/-- Scalars and sequences with one key have one label. -/
theorem label_eq_of_dataKeyCmp (hdata : ∀ stream, data ≠ .clone stream)
    (hdata' : ∀ stream, data' ≠ .clone stream)
    (hcmp : dataKeyCmp data data' = .eq) :
    data.sortKeyRef.label = data'.sortKeyRef.label := by
  rw [dataKeyCmp_eq_shortlexCmp hdata hdata'] at hcmp
  exact Std.LawfulEqCmp.eq_of_compare hcmp

theorem label_scalar_inj {magnitude magnitude' : Nat}
    {negative negative' : Bool}
    (hlabel : (NodeSortKeyRef.scalar magnitude negative).label =
      (NodeSortKeyRef.scalar magnitude' negative').label) :
    (magnitude, negative) = (magnitude', negative') := by
  revert hlabel
  cases negative <;> cases negative' <;> simp [NodeSortKeyRef.label]

theorem label_seq_inj {keys keys' : SeqKeys}
    (hlabel : (NodeSortKeyRef.seq keys).label =
      (NodeSortKeyRef.seq keys').label) : keys.keys = keys'.keys := by
  simpa [NodeSortKeyRef.label] using hlabel

/-- Under one key, scalars and sequences hold one value unless they alias. -/
theorem ChoiceData.valueRef_eq_iff (hdata : ∀ stream, data ≠ .clone stream)
    (hdata' : ∀ stream, data' ≠ .clone stream)
    (hcmp : dataKeyCmp data data' = .eq) :
    data.valueRef = data'.valueRef ↔ ¬data.Aliases data' := by
  have hlabel := label_eq_of_dataKeyCmp hdata hdata' hcmp
  cases data with
  | clone stream => exact absurd rfl (hdata stream)
  | integer ic v =>
      cases data' with
      | clone stream => exact absurd rfl (hdata' stream)
      | integer ic' v' =>
          have hkey : ic.sortKey v = ic'.sortKey v' := label_scalar_inj hlabel
          simp [valueRef, Aliases, IntegerChoice.eq_iff_of_sortKey hkey]
      | _ => simp [valueRef, Aliases]
  | boolean bc v =>
      cases data' with
      | clone stream => exact absurd rfl (hdata' stream)
      | boolean bc' v' =>
          have hkey := congrArg Prod.fst (label_scalar_inj hlabel)
          cases v <;> cases v' <;> simp [valueRef, Aliases] at hkey ⊢
      | _ => simp [valueRef, Aliases]
  | float fc v =>
      cases data' with
      | clone stream => exact absurd rfl (hdata' stream)
      | float fc' v' =>
          have hkey : fc.sortKey v = fc'.sortKey v' := label_scalar_inj hlabel
          rw [valueRef, valueRef, Aliases, ChoiceValueRef.float.injEq]
          exact FloatChoice.eq_iff_of_sortKey hkey
      | _ => simp [valueRef, Aliases]
  | bytes bc v =>
      cases data' with
      | clone stream => exact absurd rfl (hdata' stream)
      | bytes bc' v' =>
          have hkey : v.map UInt8.toNat = v'.map UInt8.toNat :=
            label_seq_inj hlabel
          have hsame : v = v' := List.map_injective_iff.mpr
            (fun _ _ => UInt8.toNat_inj.mp) hkey
          simp [valueRef, Aliases, hsame]
      | _ => simp [valueRef, Aliases]
  | string sc v =>
      cases data' with
      | clone stream => exact absurd rfl (hdata' stream)
      | string sc' v' =>
          have hkey : v.map sc.codepointKey = v'.map sc'.codepointKey :=
            label_seq_inj hlabel
          rw [valueRef, valueRef, Aliases, ChoiceValueRef.string.injEq]
          exact StringChoice.eq_iff_of_codepointKeys hkey
      | _ => simp [valueRef, Aliases]

/-- Position by position, nodes with one key hold one value unless they alias
somewhere. -/
theorem nodeRefs_eq_iff {left right : List ChoiceNode}
    (hlength : left.length = right.length)
    (hcmp : elementwiseNodesCmp left right = .eq) :
    nodeRefs left = nodeRefs right ↔ ¬NodesAlias left right := by
  induction left using nodesInduction generalizing right with
  | nil =>
      rw [List.length_eq_zero_iff.mp hlength.symm]
      simp [nodeRefs, NodesAlias]
  | scalar data forced rest hdata ih =>
      cases right with
      | nil => simp at hlength
      | cons node' rest' =>
          obtain ⟨data', forced'⟩ := node'
          rw [elementwiseNodesCmp, nodeKeyCmp, Ordering.then_eq_eq] at hcmp
          obtain ⟨hkey, hrest⟩ := hcmp
          have hdata' : ∀ stream, data' ≠ .clone stream := by
            rintro stream rfl
            rw [dataKeyCmp_clone_right hdata] at hkey
            cases hkey
          rw [nodeRefs, nodeRefs, List.cons.injEq, NodesAlias, not_or,
            ih (by simpa using hlength) hrest]
          exact and_congr_left fun _ =>
            ChoiceData.valueRef_eq_iff hdata hdata' hkey
  | clone nodes spans flatLen forced rest ihNodes ihRest =>
      cases right with
      | nil => simp at hlength
      | cons node' rest' =>
          obtain ⟨data', forced'⟩ := node'
          rw [elementwiseNodesCmp, nodeKeyCmp, Ordering.then_eq_eq] at hcmp
          obtain ⟨hkey, hrest⟩ := hcmp
          obtain ⟨⟨nodes', spans', flatLen'⟩, rfl⟩ :
              ∃ stream, data' = .clone stream := by
            by_contra hdata'
            rw [not_exists] at hdata'
            rw [dataKeyCmp_clone_left hdata'] at hkey
            cases hkey
          rw [dataKeyCmp, realizedStreamsCmp, Ordering.then_eq_eq,
            Ordering.then_eq_eq, Nat.compare_eq_eq, Nat.compare_eq_eq] at hkey
          obtain ⟨hflat, hnodes, helements⟩ := hkey
          rw [nodeRefs, nodeRefs, List.cons.injEq, NodesAlias, not_or,
            ihRest (by simpa using hlength) hrest]
          refine and_congr_left fun _ => ?_
          rw [ChoiceNode.valueRef, ChoiceNode.valueRef, ChoiceData.valueRef,
            ChoiceData.valueRef, RealizedStream.valueRef,
            RealizedStream.valueRef, ChoiceValueRef.clone.injEq,
            ChoiceNode.Aliases, ChoiceData.Aliases, RealizedStream.Aliases,
            ihNodes hnodes helements]
          exact and_iff_right hflat

/-- Sequences with one key hold the same values unless they alias. -/
theorem sameValues_iff_of_key {left right : List ChoiceNode}
    (hcmp : nodesSortKeyCmp left right = .eq) :
    SameValues (left.map ChoiceNode.value) (right.map ChoiceNode.value) ↔
      ¬NodesAlias left right := by
  rw [nodesSortKeyCmp, Ordering.then_eq_eq, Ordering.then_eq_eq,
    Nat.compare_eq_eq, Nat.compare_eq_eq] at hcmp
  rw [sameValues_iff, ← nodeRefs_eq_iff hcmp.2.1 hcmp.2.2, valueRefs_eq_map,
    valueRefs_eq_map, nodeRefs_eq_map, nodeRefs_eq_map, List.map_map,
    List.map_map]
  have hvalue : ChoiceValue.ref ∘ ChoiceNode.value = ChoiceNode.valueRef :=
    funext ChoiceNode.ref_value
  rw [hvalue]

end Values

section Shortcut

variable {World : Type} (testFn : ShrinkProbe World)

/-- A run that was looked at has been counted. -/
theorem adopt_calls {run : ShrinkRun} {state state' : ShrinkState World}
    {answer : Bool × ShrinkOutcome}
    (hexec : (adopt testFn run).exec state = (.ok answer, state')) :
    state'.shrinker.calls = state.shrinker.calls + 1 := by
  have heffect := runTestFn_effect testFn state run
  rw [adopt, Program.exec_bind] at hexec
  generalize (runTestFn testFn run).exec state = reached at heffect hexec
  cases heffect with
  | refused hticks hretimed => cases hexec
  | halted halt hruns hretimed => cases hexec
  | @answered ran outcome hruns hretimed =>
      obtain ⟨timedOut, hshrinker⟩ := hretimed.shrinker
      simp only [Program.exec_bind, modifyShrinker, Program.exec_modify,
        Program.exec_get] at hexec
      split at hexec
      · simp only [Program.exec_bind, note, Program.exec_modify,
          Program.exec_pure, Prod.mk.injEq] at hexec
        rw [← hexec.2, hshrinker]
        rfl
      · simp only [Program.exec_bind, note, Program.exec_modify,
          Program.exec_pure, Prod.mk.injEq] at hexec
        rw [← hexec.2, hshrinker]

/-- A candidate is the target without a run exactly when it has the target's
key, and then nothing has happened. -/
theorem consider_unrun_iff (nodes : List ChoiceNode)
    (state state' : ShrinkState World) :
    ((consider testFn nodes).exec state = (.ok true, state') ∧
        state'.shrinker.calls = state.shrinker.calls) ↔
      nodesSortKeyCmp nodes state.shrinker.currentNodes = .eq ∧
        state' = state := by
  rw [consider, Program.exec_bind, Program.exec_get]
  by_cases hequal : nodesSortKeyCmp nodes state.shrinker.currentNodes = .eq
  · simp only [if_pos hequal, Program.exec_pure, Prod.mk.injEq, true_and]
    constructor
    · rintro ⟨rfl, -⟩
      exact ⟨hequal, rfl⟩
    · rintro ⟨-, rfl⟩
      exact ⟨rfl, rfl⟩
  · simp only [if_neg hequal]
    refine iff_of_false ?_ fun h => hequal h.1
    rintro ⟨hexec, hcalls⟩
    generalize (if nodes.length > state.shrinker.currentNodes.length then
      nodes.take state.shrinker.currentNodes.length else nodes) = cmp at hexec
    split at hexec
    · simp at hexec
    · split at hexec
      · simp at hexec
      · split at hexec
        · simp at hexec
        · split at hexec
          · simp at hexec
          · rw [Program.exec_bind] at hexec
            cases hadopt : (adopt testFn (.full nodes)).exec state with
            | mk result final =>
                rw [hadopt] at hexec
                cases result with
                | error halt => simp at hexec
                | ok answer =>
                    simp only [Program.exec_pure, Prod.mk.injEq] at hexec
                    have hcounted := adopt_calls testFn hadopt
                    rw [hexec.2, hcalls] at hcounted
                    omega

/-- A candidate that is taken for the target without a run holds the target's
values exactly when the two do not alias under one key. -/
theorem consider_unrun_sameValues_iff (nodes : List ChoiceNode)
    (state : ShrinkState World) :
    (∀ state', (consider testFn nodes).exec state = (.ok true, state') →
      state'.shrinker.calls = state.shrinker.calls →
        SameValues (nodes.map ChoiceNode.value)
          (state.shrinker.currentNodes.map ChoiceNode.value)) ↔
      (nodesSortKeyCmp nodes state.shrinker.currentNodes = .eq →
        ¬NodesAlias nodes state.shrinker.currentNodes) := by
  constructor
  · intro hsame hkey
    obtain ⟨hexec, hcalls⟩ :=
      (consider_unrun_iff testFn nodes state state).mpr ⟨hkey, rfl⟩
    exact (sameValues_iff_of_key hkey).mp (hsame state hexec hcalls)
  · intro hapart state' hexec hcalls
    have hkey := ((consider_unrun_iff testFn nodes state state').mp
      ⟨hexec, hcalls⟩).1
    exact (sameValues_iff_of_key hkey).mpr (hapart hkey)

/-- Floats without bounds. -/
def unboundedFloats : FloatChoice where
  minValue := .negInfinity
  maxValue := .infinity
  allowNan := true
  allowInfinity := true
  smallestNonzeroMagnitude := ⟨1, Binary64.one_lt⟩
  minValue_number := Binary64.negInfinity_isNan
  maxValue_number := Binary64.infinity_isNan

/-- Two pairs of a flag and a NaN, whose payloads are given. -/
def flaggedNans (payload payload' : Fin 8) : List ChoiceNode :=
  let flag : ChoiceNode := .mk (.boolean ⟨.zero⟩ false) false
  let nan (payload : Fin 8) : ChoiceNode :=
    .mk (.float unboundedFloats
      ⟨2047 * 2 ^ 52 + 1 + payload, by omega⟩) false
  [flag, nan payload, flag, nan payload']

/-- A test function that counts its runs and never fails. -/
def countingProbe : ShrinkProbe Nat where
  run world _ := (.ok ⟨false, [], []⟩, world + 1)
  now world := (none, world)

/-- Swapping the pairs changes both NaNs and is taken for the target. -/
theorem consider_swapped_nans :
    let start := ShrinkState.start (flaggedNans 0 1) [] none 0
    (consider countingProbe (flaggedNans 1 0)).exec start = (.ok true, start) ∧
      ¬SameValues ((flaggedNans 1 0).map ChoiceNode.value)
        (start.shrinker.currentNodes.map ChoiceNode.value) := by
  intro start
  have hkey : nodesSortKeyCmp (flaggedNans 1 0)
      start.shrinker.currentNodes = .eq := by
    decide +kernel
  constructor
  · exact ((consider_unrun_iff countingProbe _ start start).mpr
      ⟨hkey, rfl⟩).1
  · rw [sameValues_iff_of_key hkey, not_not]
    exact .inr (.inl ⟨by decide, by decide⟩)

end Shortcut

end Hegel
