/-
The alphabet of a text draw.  The codec and the codepoint bounds give a base
without surrogates; categories restrict it or are removed from it, single
characters are removed, and others are put in last whatever was removed.
-/
import Hegel.CharacterSets

namespace Hegel

/-- The constraints of a text draw. -/
structure TextAlphabet where
  codec : Option String
  minCodepoint : Nat
  maxCodepoint : Nat
  /-- Restrict to these categories; an empty list leaves nothing. -/
  categories : Option (List String)
  excludeCategories : Option (List String)
  includeCharacters : Option (List Char)
  excludeCharacters : Option (List Char)

/-- Why an alphabet is refused. -/
inductive AlphabetError where
  | invalidCodec (codec : String)
  | invalidCategory (cat : String)
  /-- Characters to include that the codec does not have. -/
  | unencodable (bad : List Char) (codec : String)
  /-- Characters to include and to exclude. -/
  | overlap (both : List Char) (included excluded : List Char)
  | internal (error : InternalError)

/-- What a codec can encode. -/
structure CodecRange where
  min : Nat
  max : Nat
  bounded : max ≤ 0x10FFFF

def codecRange : Option String → Except AlphabetError CodecRange
  | some "ascii" => .ok ⟨0, 127, by decide⟩
  | some "latin-1" => .ok ⟨0, 255, by decide⟩
  | some "iso-8859-1" => .ok ⟨0, 255, by decide⟩
  | some "utf-8" => .ok ⟨0, 0x10FFFF, by decide⟩
  | none => .ok ⟨0, 0x10FFFF, by decide⟩
  | some other => .error (.invalidCodec other)

def validCategories : List String :=
  ["L", "M", "N", "P", "S", "Z", "C", "Lu", "Ll", "Lt", "Lm", "Lo", "Mn",
    "Mc", "Me", "Nd", "Nl", "No", "Pc", "Pd", "Ps", "Pe", "Pi", "Pf", "Po",
    "Sm", "Sc", "Sk", "So", "Zs", "Zl", "Zp", "Cc", "Cf", "Cs", "Co", "Cn"]

def isValidCategory (cat : String) : Bool :=
  validCategories.contains cat

namespace TextAlphabet

/-- The first category that there is none of that name. -/
def invalidCategory (alphabet : TextAlphabet) : Option String :=
  (alphabet.categories.getD [] ++ alphabet.excludeCategories.getD []).find?
    fun cat => !isValidCategory cat

/-- The characters to include that a codec does not have, if one is named. -/
def unencodable (alphabet : TextAlphabet) (range : CodecRange) : List Char :=
  if alphabet.codec.isSome then
    (alphabet.includeCharacters.getD []).filter fun c =>
      decide (c.toNat < range.min ∨ range.max < c.toNat)
  else []

/-- The characters that are to be included as well as excluded. -/
def overlap (alphabet : TextAlphabet) : List Char :=
  match alphabet.includeCharacters, alphabet.excludeCharacters with
  | some incl, some excl => incl.filter fun c => decide (c ∈ excl)
  | _, _ => []

/-- Check the arguments, in this order. -/
def check (alphabet : TextAlphabet) : Except AlphabetError CodecRange := do
  let range ← codecRange alphabet.codec
  match alphabet.invalidCategory with
  | some cat => .error (.invalidCategory cat)
  | none =>
      if alphabet.unencodable range ≠ [] then
        .error (.unencodable (alphabet.unencodable range)
          (alphabet.codec.getD ""))
      else if alphabet.overlap ≠ [] then
        .error (.overlap alphabet.overlap
          (alphabet.includeCharacters.getD [])
          (alphabet.excludeCharacters.getD []))
      else .ok range

section Filters

open IntervalSet

variable (data : UnicodeData) (alphabet : TextAlphabet)

/-- What the codec and the bounds leave. -/
def base (range : CodecRange) : Except InternalError IntervalSet :=
  rangeMinusSurrogates (max range.min alphabet.minCodepoint)
    (min range.max alphabet.maxCodepoint)
    ((min_le_left _ _).trans range.bounded)

/-- Restrict to the categories; only without any are others removed. -/
def filterCategories (base : IntervalSet) :
    Except InternalError IntervalSet :=
  match alphabet.categories with
  | some cats =>
      if cats.isEmpty then nothing
      else do base.intersection (← categoriesUnion data cats)
  | none =>
      match alphabet.excludeCategories with
      | some exclCats =>
          if exclCats.all (· == "Cs") then .ok base
          else do
            base.difference
              (← categoriesUnion data (exclCats.filter (· != "Cs")))
      | none => .ok base

def removeCharacters (intervals : IntervalSet) :
    Except InternalError IntervalSet :=
  match alphabet.excludeCharacters with
  | some excl =>
      if excl.isEmpty then .ok intervals
      else do intervals.difference (← charsToIntervals excl)
  | none => .ok intervals

def addCharacters (intervals : IntervalSet) :
    Except InternalError IntervalSet :=
  match alphabet.includeCharacters with
  | some incl =>
      if incl.isEmpty then .ok intervals
      else do intervals.union (← charsToIntervals incl)
  | none => .ok intervals

def applyFilters (range : CodecRange) : Except InternalError IntervalSet := do
  let base ← alphabet.base range
  let intervals ← alphabet.filterCategories data base
  let intervals ← alphabet.removeCharacters intervals
  alphabet.addCharacters intervals

/-- Build the alphabet of a text draw. -/
def buildIntervals : Except AlphabetError IntervalSet := do
  let range ← alphabet.check
  (alphabet.applyFilters data range).mapError .internal

end Filters

section Meaning

variable (data : UnicodeData) (alphabet : TextAlphabet)

def Included (n : Nat) : Prop :=
  ∃ incl, alphabet.includeCharacters = some incl ∧ n ∈ incl.map Char.toNat

/-- What the codec and the bounds allow; no codec encodes surrogates. -/
def InBase (n : Nat) : Prop :=
  ∃ range, codecRange alphabet.codec = .ok range ∧
    (range.min ≤ n ∧ n ≤ range.max) ∧
    (alphabet.minCodepoint ≤ n ∧ n ≤ alphabet.maxCodepoint) ∧
    isSurrogate n = false

/-- Whether a codepoint is in one of the given categories, if any are
given. -/
def InGivenCategory (n : Nat) : Prop :=
  ∀ cats, alphabet.categories = some cats →
    ∃ cat ∈ cats, data.isInGroup n cat = true

def InExcludedCategory (n : Nat) : Prop :=
  ∃ excl, alphabet.excludeCategories = some excl ∧
    ∃ cat ∈ excl, data.isInGroup n cat = true

def ExcludedCharacter (n : Nat) : Prop :=
  ∃ excl, alphabet.excludeCharacters = some excl ∧ n ∈ excl.map Char.toNat

/-- Whether a codepoint passes all filters but that of the categories to be
removed. -/
def Passes (n : Nat) : Prop :=
  alphabet.InBase n ∧ alphabet.InGivenCategory data n ∧
    ¬alphabet.ExcludedCharacter n

/-- What the constraints are declared to mean. -/
def Declares (n : Nat) : Prop :=
  alphabet.Included n ∨
    (alphabet.Passes data n ∧ ¬alphabet.InExcludedCategory data n)

end Meaning

section Specs

open IntervalSet

variable {data : UnicodeData} {alphabet : TextAlphabet} {range : CodecRange}

theorem base_spec (hcodec : codecRange alphabet.codec = .ok range) :
    ∃ s, alphabet.base range = .ok s ∧
      ∀ n, s.contains n = true ↔ alphabet.InBase n := by
  obtain ⟨s, hbase, hcontains⟩ := rangeMinusSurrogates_spec
    (max range.min alphabet.minCodepoint)
    (min range.max alphabet.maxCodepoint)
    ((min_le_left _ _).trans range.bounded)
  refine ⟨s, hbase, fun n => ?_⟩
  rw [hcontains, InBase]
  constructor
  · rintro ⟨hbounds, hsurrogate⟩
    exact ⟨range, hcodec, by omega, by omega, hsurrogate⟩
  · rintro ⟨range', hcodec', hrange, hbounds, hsurrogate⟩
    rw [hcodec] at hcodec'
    cases hcodec'
    exact ⟨by omega, hsurrogate⟩

theorem le_of_inBase {n : Nat} (hbase : alphabet.InBase n) :
    n ≤ 0x10FFFF ∧ isSurrogate n = false := by
  obtain ⟨range, -, hrange, -, hsurrogate⟩ := hbase
  exact ⟨hrange.2.trans range.bounded, hsurrogate⟩

/-- A code of two letters only matches itself. -/
theorem isInGroup_cs {n : Nat} (hgroup : data.isInGroup n "Cs" = true) :
    isSurrogate n = true := by
  have hsize : "Cs".utf8ByteSize = 2 := by decide
  rw [UnicodeData.isInGroup, groupMatches, hsize] at hgroup
  apply data.surrogates
  have hname : (data.generalCategory n).asStr = "Cs" := by simpa using hgroup
  revert hname
  cases data.generalCategory n <;> simp [Category.asStr]

/-- Without surrogates there is nothing to remove for `Cs`. -/
theorem inCategories_filter {exclCats : List String} {n : Nat}
    (hn : n ≤ 0x10FFFF ∧ isSurrogate n = false) :
    InCategories data (exclCats.filter (· != "Cs")) n ↔
      ∃ cat ∈ exclCats, data.isInGroup n cat = true := by
  constructor
  · rintro ⟨-, -, cat, hmem, hgroup⟩
    exact ⟨cat, List.mem_of_mem_filter hmem, hgroup⟩
  · rintro ⟨cat, hmem, hgroup⟩
    refine ⟨hn.1, hn.2, cat, List.mem_filter.mpr ⟨hmem, ?_⟩, hgroup⟩
    rw [bne_iff_ne]
    rintro rfl
    have hsurrogate := isInGroup_cs hgroup
    rw [hn.2] at hsurrogate
    cases hsurrogate

/-- Categories are removed only if none are given. -/
theorem filterCategories_spec {base : IntervalSet}
    (hbase : ∀ n, base.contains n = true ↔ alphabet.InBase n) :
    ∃ s, alphabet.filterCategories data base = .ok s ∧
      ∀ n, s.contains n = true ↔ alphabet.InBase n ∧
        alphabet.InGivenCategory data n ∧
        (alphabet.categories = none →
          ¬alphabet.InExcludedCategory data n) := by
  rw [filterCategories]
  cases hcats : alphabet.categories with
  | some cats =>
      simp only [InGivenCategory, hcats, Option.some.injEq, forall_eq',
        reduceCtorEq, false_imp_iff, and_true]
      by_cases hempty : cats.isEmpty = true
      · rw [if_pos hempty]
        obtain ⟨s, hnothing, hcontains⟩ := nothing_spec
        refine ⟨s, hnothing, fun n => ?_⟩
        rw [hcontains, List.isEmpty_iff.mp hempty]
        simp
      · rw [if_neg hempty]
        obtain ⟨u, hunion, hcontains⟩ := categoriesUnion_spec data cats
        obtain ⟨s, hinter, hboth⟩ := base.intersection_spec u
        refine ⟨s, ?_, fun n => ?_⟩
        · rw [hunion]
          exact hinter
        · rw [hboth, hbase, hcontains, InCategories]
          constructor
          · rintro ⟨hin, -, -, hgroup⟩
            exact ⟨hin, hgroup⟩
          · rintro ⟨hin, hgroup⟩
            obtain ⟨hle, hsurrogate⟩ := le_of_inBase hin
            exact ⟨hin, hle, hsurrogate, hgroup⟩
  | none =>
      simp only [InGivenCategory, hcats, reduceCtorEq, false_imp_iff,
        forall_const, true_and]
      cases hexcl : alphabet.excludeCategories with
      | none =>
          refine ⟨base, rfl, fun n => ?_⟩
          rw [hbase]
          simp [InExcludedCategory, hexcl]
      | some exclCats =>
          have hexcluded : ∀ n, alphabet.InExcludedCategory data n ↔
              ∃ cat ∈ exclCats, data.isInGroup n cat = true := by
            intro n
            simp [InExcludedCategory, hexcl]
          by_cases honly : exclCats.all (· == "Cs") = true
          · simp only [if_pos honly]
            refine ⟨base, rfl, fun n => ?_⟩
            rw [hbase, iff_self_and, hexcluded]
            rintro hin ⟨cat, hmem, hgroup⟩
            have hcs : cat = "Cs" := by
              simpa using List.all_eq_true.mp honly cat hmem
            rw [hcs] at hgroup
            have hsurrogate := isInGroup_cs hgroup
            rw [(le_of_inBase hin).2] at hsurrogate
            cases hsurrogate
          · simp only [if_neg honly]
            obtain ⟨u, hunion, hcontains⟩ :=
              categoriesUnion_spec data (exclCats.filter (· != "Cs"))
            obtain ⟨s, hdiff, hrest⟩ := base.difference_spec u
            refine ⟨s, ?_, fun n => ?_⟩
            · rw [hunion]
              exact hdiff
            · rw [hrest, hbase, hcontains, hexcluded]
              apply and_congr_right
              intro hin
              rw [inCategories_filter (le_of_inBase hin)]

theorem removeCharacters_spec (intervals : IntervalSet) :
    ∃ s, alphabet.removeCharacters intervals = .ok s ∧
      ∀ n, s.contains n = true ↔
        intervals.contains n = true ∧ ¬alphabet.ExcludedCharacter n := by
  rw [removeCharacters]
  cases hexcl : alphabet.excludeCharacters with
  | none =>
      refine ⟨intervals, rfl, fun n => ?_⟩
      simp [ExcludedCharacter, hexcl]
  | some excl =>
      have hexcluded : ∀ n, alphabet.ExcludedCharacter n ↔
          n ∈ excl.map Char.toNat := by
        intro n
        simp [ExcludedCharacter, hexcl]
      by_cases hempty : excl.isEmpty = true
      · simp only [if_pos hempty]
        refine ⟨intervals, rfl, fun n => ?_⟩
        rw [hexcluded, List.isEmpty_iff.mp hempty]
        simp
      · simp only [if_neg hempty]
        obtain ⟨chars, hchars, hcontains⟩ := charsToIntervals_spec excl
        obtain ⟨s, hdiff, hrest⟩ := intervals.difference_spec chars
        refine ⟨s, ?_, fun n => ?_⟩
        · rw [hchars]
          exact hdiff
        · rw [hrest, hcontains, hexcluded]

theorem addCharacters_spec (intervals : IntervalSet) :
    ∃ s, alphabet.addCharacters intervals = .ok s ∧
      ∀ n, s.contains n = true ↔
        alphabet.Included n ∨ intervals.contains n = true := by
  rw [addCharacters]
  cases hincl : alphabet.includeCharacters with
  | none =>
      refine ⟨intervals, rfl, fun n => ?_⟩
      simp [Included, hincl]
  | some incl =>
      have hincluded : ∀ n, alphabet.Included n ↔
          n ∈ incl.map Char.toNat := by
        intro n
        simp [Included, hincl]
      by_cases hempty : incl.isEmpty = true
      · simp only [if_pos hempty]
        refine ⟨intervals, rfl, fun n => ?_⟩
        rw [hincluded, List.isEmpty_iff.mp hempty]
        simp
      · simp only [if_neg hempty]
        obtain ⟨chars, hchars, hcontains⟩ := charsToIntervals_spec incl
        obtain ⟨s, hunion, heither⟩ := intervals.union_spec chars
        refine ⟨s, ?_, fun n => ?_⟩
        · rw [hchars]
          exact hunion
        · rw [heither, hcontains, hincluded, or_comm]

theorem check_codec (hcheck : alphabet.check = .ok range) :
    codecRange alphabet.codec = .ok range := by
  rw [check] at hcheck
  cases hcodec : codecRange alphabet.codec with
  | error error =>
      rw [hcodec] at hcheck
      cases hcheck
  | ok found =>
      rw [hcodec] at hcheck
      change (match alphabet.invalidCategory with
        | some cat => _
        | none => _) = _ at hcheck
      cases hinvalid : alphabet.invalidCategory with
      | some cat =>
          rw [hinvalid] at hcheck
          cases hcheck
      | none =>
          rw [hinvalid] at hcheck
          simp only [] at hcheck
          split at hcheck
          · cases hcheck
          · split at hcheck
            · cases hcheck
            · exact congrArg Except.ok (Except.ok.inj hcheck)

/-- An alphabet that passes the checks is built, and this is what is in it. -/
theorem applyFilters_spec (hcodec : codecRange alphabet.codec = .ok range) :
    ∃ s, alphabet.applyFilters data range = .ok s ∧
      ∀ n, s.contains n = true ↔ alphabet.Included n ∨
        (alphabet.Passes data n ∧ (alphabet.categories = none →
          ¬alphabet.InExcludedCategory data n)) := by
  obtain ⟨base, hbase, hin⟩ := base_spec hcodec
  obtain ⟨restricted, hrestrict, hrestricted⟩ := filterCategories_spec hin
  obtain ⟨removed, hremove, hremoved⟩ := removeCharacters_spec restricted
  obtain ⟨s, hadd, hadded⟩ := addCharacters_spec removed
  refine ⟨s, ?_, fun n => ?_⟩
  · rw [applyFilters, hbase]
    change (do
      let intervals ← alphabet.filterCategories data base
      let intervals ← alphabet.removeCharacters intervals
      alphabet.addCharacters intervals) = _
    rw [hrestrict]
    change (do
      let intervals ← alphabet.removeCharacters restricted
      alphabet.addCharacters intervals) = _
    rw [hremove]
    exact hadd
  · rw [hadded, hremoved, hrestricted, Passes]
    tauto

end Specs

section Result

open IntervalSet

variable {data : UnicodeData} {alphabet : TextAlphabet} {s : IntervalSet}

/-- What is said of the set that is built for an alphabet. -/
structure BuiltAsDeclared (data : UnicodeData) (alphabet : TextAlphabet)
    (s : IntervalSet) : Prop where
  canonical : Ranges.Canonical s.intervals
  surrogateFree : ∀ n, s.contains n = true → isSurrogate n = false
  members : ∀ n, s.contains n = true ↔ alphabet.Declares data n

theorem buildIntervals_eq {range : CodecRange}
    (hcheck : alphabet.check = .ok range)
    (hbuilt : alphabet.applyFilters data range = .ok s) :
    alphabet.buildIntervals data = .ok s := by
  rw [buildIntervals, hcheck]
  change (alphabet.applyFilters data range).mapError AlphabetError.internal = _
  rw [hbuilt]
  rfl

/-- What is in the set of an accepted alphabet. -/
theorem buildIntervals_contains (h : alphabet.buildIntervals data = .ok s)
    (n : Nat) :
    s.contains n = true ↔ alphabet.Included n ∨
      (alphabet.Passes data n ∧ (alphabet.categories = none →
        ¬alphabet.InExcludedCategory data n)) := by
  rw [buildIntervals] at h
  cases hcheck : alphabet.check with
  | error error =>
      rw [hcheck] at h
      cases h
  | ok range =>
      obtain ⟨built, hbuilt, hcontains⟩ :=
        @applyFilters_spec data alphabet range (check_codec hcheck)
      rw [hcheck] at h
      change (alphabet.applyFilters data range).mapError AlphabetError.internal =
        _ at h
      rw [hbuilt] at h
      cases h
      exact hcontains n

theorem buildIntervals_surrogateFree (h : alphabet.buildIntervals data = .ok s)
    (n : Nat) (hn : s.contains n = true) : isSurrogate n = false := by
  rcases (buildIntervals_contains h n).mp hn with ⟨incl, -, hmem⟩ | ⟨hpasses, -⟩
  · exact (toNat_mem_chars hmem).2
  · exact (le_of_inBase hpasses.1).2

/-- The set is the declared one unless categories are given and some of what
they leave is in a category to be removed. -/
theorem buildIntervals_declared_iff
    (h : alphabet.buildIntervals data = .ok s) :
    BuiltAsDeclared data alphabet s ↔
      alphabet.categories = none ∨
        ∀ n, alphabet.Passes data n → ¬alphabet.Included n →
          ¬alphabet.InExcludedCategory data n := by
  have hcontains := buildIntervals_contains h
  constructor
  · intro hdeclared
    by_cases hcats : alphabet.categories = none
    · exact .inl hcats
    · refine .inr fun n hpasses hincluded hexcluded => ?_
      have hin : s.contains n = true := (hcontains n).mpr
        (.inr ⟨hpasses, fun hnone => absurd hnone hcats⟩)
      rcases (hdeclared.members n).mp hin with hincluded' | ⟨-, hnot⟩
      · exact hincluded hincluded'
      · exact hnot hexcluded
  · intro hcondition
    refine ⟨s.canonical, buildIntervals_surrogateFree h, fun n => ?_⟩
    rw [hcontains, Declares]
    rcases hcondition with hcats | hnone
    · simp [hcats]
    · constructor
      · rintro (hincluded | ⟨hpasses, -⟩)
        · exact .inl hincluded
        · by_cases hincluded : alphabet.Included n
          · exact .inl hincluded
          · exact .inr ⟨hpasses, hnone n hpasses hincluded⟩
      · rintro (hincluded | ⟨hpasses, hnot⟩)
        · exact .inl hincluded
        · exact .inr ⟨hpasses, fun _ => hnot⟩

/-- No codepoint has two categories. -/
theorem not_isInGroup_ll {n : Nat} (hupper : data.isInGroup n "Lu" = true) :
    ¬data.isInGroup n "Ll" = true := by
  intro hlower
  have hsizes : "Lu".utf8ByteSize = 2 ∧ "Ll".utf8ByteSize = 2 := by decide
  rw [UnicodeData.isInGroup, groupMatches, hsizes.1] at hupper
  rw [UnicodeData.isInGroup, groupMatches, hsizes.2] at hlower
  have hlu : (data.generalCategory n).asStr = "Lu" := by simpa using hupper
  have hll : (data.generalCategory n).asStr = "Ll" := by simpa using hlower
  rw [hlu] at hll
  exact absurd hll (by decide)

/-- The categories of the upper-case letters. -/
def latinData : UnicodeData where
  generalCategory cp :=
    if isSurrogate cp then .cs else if 65 ≤ cp ∧ cp ≤ 90 then .lu else .ll
  surrogates cp hcp := by
    split at hcp
    case isTrue hsurrogate => exact hsurrogate
    case isFalse hother => split at hcp <;> cases hcp

/-- Letters of upper case and none of lower case, with one added and one
removed by itself. -/
def capitals : TextAlphabet :=
  ⟨none, 64, 67, some ["Lu"], some ["Ll"], some ['a'], some ['B']⟩

theorem buildIntervals_declared_capitals :
    ∃ s, capitals.buildIntervals latinData = .ok s ∧
      s.contains 65 = true ∧ ¬s.contains 66 = true ∧ s.contains 97 = true ∧
      BuiltAsDeclared latinData capitals s := by
  have hcheck : capitals.check = .ok ⟨0, 0x10FFFF, by decide⟩ := rfl
  obtain ⟨s, hbuilt, -⟩ :=
    @applyFilters_spec latinData capitals _ (check_codec hcheck)
  have hs := buildIntervals_eq hcheck hbuilt
  have hdeclared : BuiltAsDeclared latinData capitals s := by
    refine (buildIntervals_declared_iff hs).mpr (.inr ?_)
    rintro n ⟨-, hgiven, -⟩ - ⟨excl, hexcl, cat, hcat, hlower⟩
    cases hexcl
    obtain ⟨cat', hcat', hupper⟩ := hgiven ["Lu"] rfl
    rw [List.mem_singleton.mp hcat] at hlower
    rw [List.mem_singleton.mp hcat'] at hupper
    exact not_isInGroup_ll hupper hlower
  refine ⟨s, hs, (hdeclared.members 65).mpr (.inr ⟨⟨?_, ?_, ?_⟩, ?_⟩), ?_,
    (hdeclared.members 97).mpr (.inl ⟨['a'], rfl, by decide⟩), hdeclared⟩
  · exact ⟨_, rfl, by decide, by decide, by decide⟩
  · intro cats hcats
    cases hcats
    exact ⟨"Lu", List.mem_singleton_self _, by decide⟩
  · rintro ⟨excl, hexcl, hmem⟩
    cases hexcl
    exact absurd hmem (by decide)
  · rintro ⟨excl, hexcl, cat, hcat, hlower⟩
    cases hexcl
    rw [List.mem_singleton.mp hcat] at hlower
    exact absurd hlower (by decide)
  · intro hin
    rcases (hdeclared.members 66).mp hin with ⟨incl, hincl, hmem⟩ | ⟨hpasses, -⟩
    · cases hincl
      exact absurd hmem (by decide)
    · exact hpasses.2.2 ⟨['B'], rfl, by decide⟩

/-- The letters 'A' and 'B' without those of upper case. -/
def lettersButUpper : TextAlphabet :=
  ⟨none, 65, 66, some ["L"], some ["Lu"], none, none⟩

/-- 'A' is not removed. -/
theorem buildIntervals_lettersButUpper :
    ∃ s, lettersButUpper.buildIntervals latinData = .ok s ∧
      s.contains 65 = true ∧ ¬lettersButUpper.Declares latinData 65 ∧
      ¬BuiltAsDeclared latinData lettersButUpper s := by
  have hcheck : lettersButUpper.check = .ok ⟨0, 0x10FFFF, by decide⟩ := rfl
  obtain ⟨s, hbuilt, hcontains⟩ :=
    @applyFilters_spec latinData lettersButUpper _ (check_codec hcheck)
  have hpasses : lettersButUpper.Passes latinData 65 := by
    refine ⟨⟨_, rfl, by decide, by decide, by decide⟩, ?_, ?_⟩
    · intro cats hcats
      cases hcats
      exact ⟨"L", List.mem_singleton_self _, by decide⟩
    · rintro ⟨excl, hexcl, -⟩
      cases hexcl
  have hexcluded : lettersButUpper.InExcludedCategory latinData 65 :=
    ⟨["Lu"], rfl, "Lu", List.mem_singleton_self _, by decide⟩
  have hin : s.contains 65 = true := (hcontains 65).mpr
    (.inr ⟨hpasses, fun hnone => by cases hnone⟩)
  have hnot : ¬lettersButUpper.Declares latinData 65 := by
    rintro (⟨incl, hincl, -⟩ | ⟨-, hnot⟩)
    · cases hincl
    · exact hnot hexcluded
  exact ⟨s, buildIntervals_eq hcheck hbuilt, hin, hnot,
    fun h => hnot ((h.members 65).mp hin)⟩

end Result

end TextAlphabet

end Hegel
