/-
What the draws of a machine can return, and which rule a worker is handed.
For every group either an enabled rule is known, or the rules that are not
known to be disabled are the candidates, and there is one; so a search among
the members of a group cannot come out empty.
-/
import Hegel.StateMachine
import Hegel.Steps

namespace Hegel

section Outcomes

/-- The state is good in any case, the value if there is one, and a refusal is
not due to the machine itself. -/
def Yields {State Value : Type} (kept : State → Prop)
    (good : Value → State → Prop) :
    Except MachineError Value → State → Prop
  | .ok value, state => kept state ∧ good value state
  | .error error, state => kept state ∧ error.isInternal = false

variable {State Value Value' : Type} {kept : State → Prop}

theorem meets_bind_yields {attempt : Attempt State MachineError Value}
    {next : Value → Attempt State MachineError Value'} {state : State}
    {first : Value → State → Prop} {second : Value' → State → Prop}
    (hattempt : attempt.Meets state (Yields kept first))
    (hnext : ∀ value state, kept state → first value state →
      (next value).Meets state (Yields kept second)) :
    Attempt.Meets (attempt >>= next) state (Yields kept second) := by
  apply Attempt.meets_bind
  apply hattempt.mono
  intro result after hresult
  cases result with
  | ok value => exact hnext value after hresult.1 hresult.2
  | error error => exact hresult

theorem Yields.mono {kept' : State → Prop} {good good' : Value → State → Prop}
    {result : Except MachineError Value} {state : State}
    (hyields : Yields kept good result state)
    (hkept : ∀ state, kept state → kept' state)
    (hgood : ∀ value state, kept state → good value state →
      good' value state) :
    Yields kept' good' result state := by
  cases result with
  | ok value => exact ⟨hkept _ hyields.1, hgood _ _ hyields.1 hyields.2⟩
  | error error => exact ⟨hkept _ hyields.1, hyields.2⟩

end Outcomes

section Draws

variable {Rng : Type} {sampler : Sampler Rng} {source : Source Rng}

/-- An accepted request returns one of its own values. -/
theorem drawValue_yields {op : DrawOp} {request : DrawRequest Rng}
    (hrequest : op.request sampler source.family = .ok request) :
    (drawValue sampler op).Meets source (Yields (fun _ => True)
      fun value _ => ∃ drawn wasForced,
        request.Produces drawn wasForced ∧ value = drawn.reply) := by
  rw [Attempt.Meets, drawValue]
  simp only [hrequest]
  cases hperform : performDraw request source.family source.stream with
  | error error => exact ⟨trivial, rfl⟩
  | ok answer =>
      have heffect := performDraw_cases hperform
      cases heffect with
      | refused hconcluded => exact ⟨trivial, rfl⟩
      | overran draws hopen hdraws => exact ⟨trivial, rfl⟩
      | drew drawn input wasForced hopen hbudget hproduces =>
          exact ⟨trivial, drawn, wasForced, hproduces, rfl⟩

theorem weightedWith_produces {p : Binary64} {forced : Option Bool}
    {sample : Binary64 → Rng → Bool × Rng} {drawn : Drawn} {wasForced : Bool}
    (hproduces : (weightedWith p forced sample).Produces drawn wasForced) :
    ∃ b, drawn.reply = .boolean b ∧
      ∀ f, forcedBoolean p forced = some f → b = f := by
  rw [weightedWith] at hproduces
  cases hforced : forcedBoolean p forced with
  | some f =>
      rw [hforced] at hproduces
      obtain ⟨rfl, -⟩ := hproduces
      exact ⟨f, rfl, fun g hg => Option.some.inj hg⟩
  | none =>
      rw [hforced] at hproduces
      obtain ⟨b, -, rfl⟩ := Draw.typed_produces (fun _ _ => rfl)
        (fun _ _ => rfl) (fun _ _ _ _ => rfl) hproduces.1
      exact ⟨b, rfl, (by simp)⟩

theorem drawWeighted_yields (p : Binary64) (forced : Option Bool) :
    (drawWeighted sampler p forced).Meets source (Yields (fun _ => True)
      fun b _ => ∀ f, forcedBoolean p forced = some f → b = f) := by
  apply meets_bind_yields (drawValue_yields rfl)
  rintro value after - ⟨drawn, wasForced, hproduces, rfl⟩
  obtain ⟨b, hreply, hforced⟩ := weightedWith_produces hproduces
  rw [hreply]
  exact ⟨trivial, hforced⟩

theorem drawWeightedPrecise_yields (p : Binary64) (forced : Option Bool) :
    (drawWeightedPrecise sampler p forced).Meets source
      (Yields (fun _ => True)
        fun b _ => ∀ f, forcedBoolean p forced = some f → b = f) := by
  apply meets_bind_yields (drawValue_yields rfl)
  rintro value after - ⟨drawn, wasForced, hproduces, rfl⟩
  obtain ⟨b, hreply, hforced⟩ := weightedWith_produces hproduces
  rw [hreply]
  exact ⟨trivial, hforced⟩

theorem drawInt_yields {minValue maxValue : Int} (h : minValue ≤ maxValue) :
    (drawInt sampler minValue maxValue).Meets source (Yields (fun _ => True)
      fun v _ => minValue ≤ v ∧ v ≤ maxValue) := by
  have hrequest : (DrawOp.integer minValue maxValue).request sampler
      source.family = .ok (.resolve (drawIntegerFrom
        ⟨minValue, maxValue, 0, h⟩
        (sampler.integer ⟨minValue, maxValue, 0, h⟩))) := by
    rw [DrawOp.request, drawInteger, dif_pos h]
  apply meets_bind_yields (drawValue_yields hrequest)
  rintro value after - ⟨drawn, wasForced, hproduces, rfl⟩
  obtain ⟨v, hvalid, rfl⟩ := Draw.typed_produces
    (fun v hv => by
      rw [← Except.ok.inj hv]
      exact IntegerChoice.validate_simplest _)
    (fun v hv => by
      rw [← Except.ok.inj hv]
      exact IntegerChoice.validate_unit _)
    (fun rng v rng' hv => sampler.integer_valid _ rng v rng' hv)
    hproduces.1
  exact ⟨trivial, (IntegerChoice.validate_iff _ _).mp hvalid⟩

theorem drawIndex_yields {n : Nat} (hn : 0 < n) :
    (drawIndex sampler n).Meets source (Yields (fun _ => True)
      fun i _ => i < n) := by
  apply meets_bind_yields (drawInt_yields (by omega))
  rintro v after - ⟨hlow, hhigh⟩
  exact ⟨trivial, by omega⟩

end Draws

section Flags

/-- Groups of rules: none is empty and no rule is in two of them. -/
structure Grouped (groups : List (List Nat)) (numRules : Nat) : Prop where
  nonempty : ∀ members ∈ groups, members ≠ []
  lt : ∀ (g : Nat) members, groups[g]? = some members →
    ∀ rule ∈ members, rule < numRules
  disjoint : ∀ (g g' : Nat) members members', groups[g]? = some members →
    groups[g']? = some members' → ∀ rule, rule ∈ members → rule ∈ members' →
      g = g'

namespace FeatureFlags

/-- What the flags of a group's members can be: one is enabled, or all but the
candidates are disabled. -/
inductive GroupFlags (isDisabled : List (Option Bool)) (members : List Nat)
    (candidates : Finset Nat) : Prop where
  | enabled (hempty : candidates = ∅) (rule : Nat) (hrule : rule ∈ members)
      (henabled : isDisabled[rule]? = some (some false))
  | undecided (hnonempty : candidates.Nonempty)
      (hmembers : ∀ rule ∈ candidates, rule ∈ members)
      (hflags : ∀ rule ∈ members, isDisabled[rule]? =
        some (if rule ∈ candidates then none else some true))

structure Valid (groups : List (List Nat)) (numRules : Nat)
    (flags : FeatureFlags) : Prop where
  length_isDisabled : flags.isDisabled.length = numRules
  length_atLeastOneOf : flags.atLeastOneOf.length = groups.length
  groupFlags : ∀ (g : Nat) members candidates, groups[g]? = some members →
    flags.atLeastOneOf[g]? = some candidates →
      GroupFlags flags.isDisabled members candidates

/-- Decided flags stay as they were decided. -/
def Keeps (before after : FeatureFlags) : Prop :=
  ∀ (rule : Nat) disabled, before.isDisabled[rule]? = some (some disabled) →
    after.isDisabled[rule]? = some (some disabled)

theorem Keeps.refl (flags : FeatureFlags) : flags.Keeps flags :=
  fun _ _ hrule => hrule

theorem Keeps.trans {first second third : FeatureFlags}
    (h₁ : first.Keeps second) (h₂ : second.Keeps third) : first.Keeps third :=
  fun rule disabled hrule => h₂ rule disabled (h₁ rule disabled hrule)

variable {groups : List (List Nat)} {numRules : Nat} {flags : FeatureFlags}

/-- The rules of a group are never all disabled. -/
theorem Valid.exists_not_disabled (hvalid : flags.Valid groups numRules)
    {g : Nat} {members : List Nat} (hgroup : groups[g]? = some members) :
    ∃ rule ∈ members, flags.isDisabled[rule]? ≠ some (some true) := by
  have hlt : g < flags.atLeastOneOf.length := by
    rw [hvalid.length_atLeastOneOf]
    exact (List.getElem?_eq_some_iff.mp hgroup).1
  cases hvalid.groupFlags g members _ hgroup (List.getElem?_eq_getElem hlt) with
  | enabled hempty rule hrule henabled =>
      refine ⟨rule, hrule, ?_⟩
      rw [henabled]
      simp
  | undecided hnonempty hmembers hflags =>
      obtain ⟨rule, hrule⟩ := hnonempty
      refine ⟨rule, hmembers rule hrule, ?_⟩
      rw [hflags rule (hmembers rule hrule), if_pos hrule]
      simp

theorem forced_eq {g i : Nat} {candidates : Finset Nat}
    (hcandidates : flags.atLeastOneOf[g]? = some candidates)
    {flag : Option Bool} (hflag : flags.isDisabled[i]? = some flag) :
    flags.forced g i =
      .ok (if candidates.card = 1 ∧ i ∈ candidates then some false
        else flag) := by
  simp only [forced, elementAt, hcandidates, hflag]
  change (if candidates.card = 1 ∧ i ∈ candidates then .ok (some false)
    else .ok flag : Except MachineError (Option Bool)) = _
  split <;> rfl

/-- A query of a member's flag finds what it looks up. -/
theorem Valid.exists_forced (hgrouped : Grouped groups numRules)
    (hvalid : flags.Valid groups numRules) {g i : Nat} {members : List Nat}
    (hgroup : groups[g]? = some members) (hi : i ∈ members) :
    ∃ forced, flags.forced g i = .ok forced := by
  have hlt : i < flags.isDisabled.length := by
    rw [hvalid.length_isDisabled]
    exact hgrouped.lt g members hgroup i hi
  have hgroupLt : g < flags.atLeastOneOf.length := by
    rw [hvalid.length_atLeastOneOf]
    exact (List.getElem?_eq_some_iff.mp hgroup).1
  exact ⟨_, forced_eq (List.getElem?_eq_getElem hgroupLt)
    (List.getElem?_eq_getElem hlt)⟩

/-- The value a flag is drawn as respects the forced one. -/
def Allowed (forced : Option Bool) (disabled : Bool) : Prop :=
  ∀ f, forced = some f → disabled = f

section Decide

variable {g i : Nat} {members : List Nat} {candidates : Finset Nat}
  {forced : Option Bool} {disabled : Bool}

/-- A decided flag is drawn as it was decided. -/
theorem eq_of_decided (hflags : GroupFlags flags.isDisabled members candidates)
    (hi : i ∈ members) {decided : Bool}
    (hdecided : flags.isDisabled[i]? = some (some decided))
    (hallowed : Allowed (if candidates.card = 1 ∧ i ∈ candidates then
      some false else some decided) disabled) :
    disabled = decided := by
  have hnot : i ∉ candidates := by
    intro hmem
    cases hflags with
    | enabled hempty rule hrule henabled =>
        rw [hempty] at hmem
        exact absurd hmem (Finset.notMem_empty i)
    | undecided hnonempty hmembers hflags =>
        have hnone := hflags i hi
        rw [hdecided, if_pos hmem] at hnone
        exact absurd (Option.some.inj hnone) (by simp)
  rw [if_neg (fun h => hnot h.2)] at hallowed
  exact hallowed decided rfl

/-- What a decision does to its own group. -/
theorem GroupFlags.decide
    (hflags : GroupFlags flags.isDisabled members candidates)
    (hi : i ∈ members) {flag : Option Bool}
    (hflag : flags.isDisabled[i]? = some flag)
    (hallowed : Allowed (if candidates.card = 1 ∧ i ∈ candidates then
      some false else flag) disabled) :
    GroupFlags (flags.isDisabled.set i (some disabled)) members
      ((if disabled then candidates else ∅).erase i) := by
  have hlt : i < flags.isDisabled.length :=
    (List.getElem?_eq_some_iff.mp hflag).1
  have hself : (flags.isDisabled.set i (some disabled))[i]? =
      some (some disabled) := List.getElem?_set_self hlt
  cases disabled with
  | false => exact .enabled (by simp) i hi hself
  | true =>
      cases hflags with
      | enabled hempty rule hrule henabled =>
          refine .enabled (by simp [hempty]) rule hrule ?_
          by_cases heq : i = rule
          · subst heq
            rw [hempty, if_neg (by simp)] at hallowed
            rw [hflag] at henabled
            have hfalse := hallowed false (Option.some.inj henabled)
            exact absurd hfalse (by simp)
          · rw [List.getElem?_set_ne heq]
            exact henabled
      | undecided hnonempty hmembers hflags =>
          rw [if_pos rfl]
          refine .undecided ?_ ?_ ?_
          · rw [← Finset.card_pos]
            have hpos := Finset.card_pos.mpr hnonempty
            by_cases hmem : i ∈ candidates
            · have hmore : candidates.card ≠ 1 := by
                intro hone
                rw [if_pos ⟨hone, hmem⟩] at hallowed
                exact absurd (hallowed false rfl) (by simp)
              rw [Finset.card_erase_of_mem hmem]
              omega
            · rw [Finset.erase_eq_of_notMem hmem]
              exact hpos
          · exact fun rule hrule => hmembers rule (Finset.mem_of_mem_erase hrule)
          · intro rule hrule
            by_cases heq : i = rule
            · subst heq
              rw [hself, if_neg (Finset.notMem_erase i candidates)]
            · rw [List.getElem?_set_ne heq, hflags rule hrule]
              simp only [Finset.mem_erase, Ne.symm heq, ne_eq,
                not_false_eq_true, true_and]

/-- The flags of a group only depend on its own members. -/
theorem GroupFlags.congr {before after : List (Option Bool)}
    (hflags : GroupFlags before members candidates)
    (hsame : ∀ rule ∈ members, after[rule]? = before[rule]?) :
    GroupFlags after members candidates := by
  cases hflags with
  | enabled hempty rule hrule henabled =>
      exact .enabled hempty rule hrule ((hsame rule hrule).trans henabled)
  | undecided hnonempty hmembers hflags =>
      exact .undecided hnonempty hmembers
        fun rule hrule => (hsame rule hrule).trans (hflags rule hrule)

/-- Asking about a member keeps the flags valid and decided ones as they are. -/
theorem Valid.decide (hgrouped : Grouped groups numRules)
    (hvalid : flags.Valid groups numRules) (hgroup : groups[g]? = some members)
    (hi : i ∈ members) (hforced : flags.forced g i = .ok forced)
    (hallowed : Allowed forced disabled) :
    (flags.decide g i disabled).Valid groups numRules ∧
      flags.Keeps (flags.decide g i disabled) ∧
      (flags.decide g i disabled).isDisabled[i]? = some (some disabled) := by
  have hlt : i < flags.isDisabled.length := by
    rw [hvalid.length_isDisabled]
    exact hgrouped.lt g members hgroup i hi
  have hgroupLt : g < flags.atLeastOneOf.length := by
    rw [hvalid.length_atLeastOneOf]
    exact (List.getElem?_eq_some_iff.mp hgroup).1
  have hflag := List.getElem?_eq_getElem hlt
  have hcandidates := List.getElem?_eq_getElem hgroupLt
  have hown := hvalid.groupFlags g members _ hgroup hcandidates
  rw [forced_eq hcandidates hflag] at hforced
  rw [← Except.ok.inj hforced] at hallowed
  refine ⟨⟨?_, ?_, ?_⟩, ?_, List.getElem?_set_self hlt⟩
  · rw [FeatureFlags.decide, List.length_set]
    exact hvalid.length_isDisabled
  · rw [FeatureFlags.decide, List.length_modify]
    exact hvalid.length_atLeastOneOf
  · intro g' members' candidates' hgroup' hcandidates'
    simp only [FeatureFlags.decide] at hcandidates' ⊢
    by_cases heq : g = g'
    · subst heq
      obtain rfl := Option.some.inj (hgroup.symm.trans hgroup')
      rw [List.getElem?_modify_eq, hcandidates] at hcandidates'
      rw [← Option.some.inj hcandidates']
      exact hown.decide hi hflag hallowed
    · rw [List.getElem?_modify_ne _ _ heq] at hcandidates'
      refine (hvalid.groupFlags g' members' candidates' hgroup'
        hcandidates').congr ?_
      intro rule hrule
      refine List.getElem?_set_ne ?_
      rintro rfl
      exact heq (hgrouped.disjoint g g' members members' hgroup hgroup' _ hi
        hrule)
  · intro rule decided hdecided
    by_cases heq : i = rule
    · subst heq
      have hsame : flags.isDisabled[i] = some decided :=
        Option.some.inj (hflag.symm.trans hdecided)
      rw [hsame] at hallowed
      rw [eq_of_decided hown hi hdecided hallowed]
      exact List.getElem?_set_self hlt
    · simp only [FeatureFlags.decide]
      rw [List.getElem?_set_ne heq]
      exact hdecided

end Decide

end FeatureFlags

end Flags

section Selection

variable {Rng : Type} {sampler : Sampler Rng}
  {groups : List (List Nat)} {numRules g : Nat} {members : List Nat}

/-- Draws leave what is kept beside the source alone. -/
theorem onSource_yields {Own Value : Type} {own : Own} {source : Source Rng}
    {attempt : Attempt (Source Rng) MachineError Value} {good : Value → Prop}
    (hattempt : attempt.Meets source (Yields (fun _ => True)
      fun value _ => good value)) :
    (onSource attempt : Attempt (Own × Source Rng) MachineError Value).Meets
      (own, source) (Yields (fun state => state.1 = own)
        fun value _ => good value) := by
  apply Attempt.meets_zoom
  apply hattempt.mono
  intro result after hresult
  cases result with
  | ok value => exact ⟨rfl, hresult.2⟩
  | error error => exact ⟨rfl, hresult.2⟩

theorem openSpan_yields {source : Source Rng} (label : Nat) :
    (openSpan label).Meets source (Yields (fun _ => True) fun _ _ => True) :=
  ⟨trivial, trivial⟩

theorem closeSpan_yields {source : Source Rng} :
    (closeSpan : Attempt (Source Rng) MachineError Unit).Meets source
      (Yields (fun _ => True) fun _ _ => True) :=
  ⟨trivial, trivial⟩

/-- What a search for a rule leaves behind: valid flags that still say what
they said before. -/
structure Searched (groups : List (List Nat)) (numRules : Nat)
    (flags : FeatureFlags) (state : FeatureFlags × Source Rng) : Prop where
  valid : state.1.Valid groups numRules
  keeps : flags.Keeps state.1

theorem Searched.trans {flags : FeatureFlags}
    {middle after : FeatureFlags × Source Rng}
    (hfirst : Searched groups numRules flags middle)
    (hsecond : Searched groups numRules middle.1 after) :
    Searched groups numRules flags after :=
  ⟨hsecond.valid, hfirst.keeps.trans hsecond.keeps⟩

theorem searched_of_eq {flags : FeatureFlags}
    {state : FeatureFlags × Source Rng} (hvalid : flags.Valid groups numRules)
    (hstate : state.1 = flags) : Searched groups numRules flags state := by
  subst hstate
  exact ⟨hvalid, .refl _⟩

/-- Draws during a search. -/
theorem onSource_searched {Value : Type} {flags : FeatureFlags}
    {source : Source Rng} {attempt : Attempt (Source Rng) MachineError Value}
    {good : Value → Prop} (hvalid : flags.Valid groups numRules)
    (hattempt : attempt.Meets source (Yields (fun _ => True)
      fun value _ => good value)) :
    (onSource attempt).Meets (flags, source)
      (Yields (Searched groups numRules flags) fun value state =>
        state.1 = flags ∧ good value) := by
  apply (onSource_yields hattempt).mono
  intro result after hresult
  exact hresult.mono (fun _ => searched_of_eq hvalid)
    fun _ _ hown hgood => ⟨hown, hgood⟩

/-- The search goes on from where it is. -/
theorem searched_bind {Value Value' : Type} {flags : FeatureFlags}
    {state : FeatureFlags × Source Rng}
    {attempt : Attempt (FeatureFlags × Source Rng) MachineError Value}
    {next : Value → Attempt (FeatureFlags × Source Rng) MachineError Value'}
    {first : Value → FeatureFlags × Source Rng → Prop}
    {second : Value' → FeatureFlags × Source Rng → Prop}
    (hattempt : attempt.Meets state
      (Yields (Searched groups numRules flags) first))
    (hnext : ∀ value after, Searched groups numRules flags after →
      first value after → (next value).Meets after
        (Yields (Searched groups numRules after.1) second)) :
    Attempt.Meets (attempt >>= next) state
      (Yields (Searched groups numRules flags) second) := by
  apply meets_bind_yields hattempt
  intro value after hafter hfirst
  apply (hnext value after hafter hfirst).mono
  intro result final hfinal
  exact hfinal.mono (fun _ => hafter.trans) fun _ _ _ hgood => hgood

def IsEnabled (flags : FeatureFlags) (rule : Nat) : Prop :=
  flags.isDisabled[rule]? = some (some false)

def IsDisabled (flags : FeatureFlags) (rule : Nat) : Prop :=
  flags.isDisabled[rule]? = some (some true)

/-- A query answers with the flag it leaves behind. -/
theorem isEnabled_yields {flags : FeatureFlags} {source : Source Rng} {i : Nat}
    (hgrouped : Grouped groups numRules) (hvalid : flags.Valid groups numRules)
    (hgroup : groups[g]? = some members) (hi : i ∈ members) :
    (isEnabled sampler g i).Meets (flags, source)
      (Yields (Searched groups numRules flags) fun enabled state =>
        if enabled then IsEnabled state.1 i else IsDisabled state.1 i) := by
  rw [isEnabled]
  apply searched_bind (onSource_searched hvalid (openSpan_yields _))
  rintro - ⟨flags, source⟩ hopened -
  apply Attempt.meets_bind
  apply Attempt.meets_read
  obtain ⟨forced, hforced⟩ := hopened.valid.exists_forced hgrouped hgroup hi
  apply Attempt.meets_bind
  apply Attempt.meets_ofExcept
  rw [hforced]
  apply searched_bind (onSource_searched hopened.valid
    (drawWeighted_yields _ _))
  rintro disabled ⟨flags', source⟩ - ⟨heq, hallowed⟩
  cases heq
  obtain ⟨hvalid, hkeeps, hdecided⟩ := hopened.valid.decide hgrouped hgroup hi
    hforced fun f hf => hallowed f (by rw [hf]; rfl)
  apply Attempt.meets_bind
  apply Attempt.meets_modify
  have hsearched : Searched groups numRules flags
      (flags.decide g i disabled, source) := ⟨hvalid, hkeeps⟩
  apply meets_bind_yields
  · apply (onSource_searched hvalid closeSpan_yields).mono
    intro result after hresult
    exact hresult.mono (fun _ => hsearched.trans) fun _ _ _ hgood => hgood
  · rintro - ⟨flags', source⟩ hafter ⟨heq, -⟩
    cases heq
    refine ⟨hafter, ?_⟩
    cases disabled with
    | true => exact hdecided
    | false => exact hdecided

/-- Places of members known to be disabled. -/
def KnownBad (members : List Nat) (flags : FeatureFlags)
    (knownBad : Finset Nat) : Prop :=
  ∀ k ∈ knownBad, ∃ rule, members[k]? = some rule ∧ IsDisabled flags rule

theorem KnownBad.keeps {flags flags' : FeatureFlags} {knownBad : Finset Nat}
    (hbad : KnownBad members flags knownBad) (hkeeps : flags.Keeps flags') :
    KnownBad members flags' knownBad := by
  intro k hk
  obtain ⟨rule, hrule, hdisabled⟩ := hbad k hk
  exact ⟨rule, hrule, hkeeps rule true hdisabled⟩

/-- A found rule is an enabled member. -/
def Found (members : List Nat) (flags : FeatureFlags) (rule : Nat) : Prop :=
  rule ∈ members ∧ IsEnabled flags rule

theorem tryMembers_yields (hgrouped : Grouped groups numRules)
    (hgroup : groups[g]? = some members) (tries : Nat) {knownBad : Finset Nat}
    {state : FeatureFlags × Source Rng} (hvalid : state.1.Valid groups numRules)
    (hbad : KnownBad members state.1 knownBad) :
    (tryMembers sampler g members tries knownBad).Meets state
      (Yields (Searched groups numRules state.1) fun
        | .found rule, after => Found members after.1 rule
        | .exhausted knownBad, after => KnownBad members after.1 knownBad) := by
  have hmembers : 0 < members.length := List.length_pos_iff.mpr
    (hgrouped.nonempty members (List.mem_of_getElem? hgroup))
  induction tries generalizing knownBad state with
  | zero => exact ⟨⟨hvalid, .refl _⟩, hbad⟩
  | succ tries ih =>
      rw [tryMembers]
      apply searched_bind (onSource_searched hvalid (drawIndex_yields hmembers))
      rintro k drawn hdrawn ⟨hsame, hk⟩
      have hbad := hbad.keeps hdrawn.keeps
      split
      next hknown => exact ih hdrawn.valid hbad
      next hfresh =>
          have hrule := List.getElem?_eq_getElem hk
          apply Attempt.meets_bind
          apply Attempt.meets_ofExcept
          rw [elementAt, hrule]
          apply searched_bind (isEnabled_yields hgrouped hdrawn.valid hgroup
            (List.getElem_mem hk))
          intro enabled asked hasked henabled
          cases enabled with
          | true =>
              exact ⟨⟨hasked.valid, .refl _⟩, List.getElem_mem hk, henabled⟩
          | false =>
              apply ih hasked.valid
              intro k' hk'
              rcases Finset.mem_insert.mp hk' with rfl | hold
              · exact ⟨_, hrule, henabled⟩
              · exact hbad.keeps hasked.keeps k' hold

/-- Recording a place among the members is never refused by the machine. -/
theorem recordChoice_yields {flags : FeatureFlags} {source : Source Rng}
    {k : Nat} (hvalid : flags.Valid groups numRules) (hk : k < members.length) :
    (recordChoice sampler members k).Meets (flags, source)
      (Yields (Searched groups numRules flags) fun _ state =>
        state.1 = flags) := by
  have hrange : (0 : Int) ≤ k ∧ (k : Int) ≤ members.length - 1 := by omega
  have hrequest : (DrawOp.integerForced 0 (members.length - 1) k).request
      sampler source.family = .ok (.forced (.plain (.integer
        ⟨0, members.length - 1, 0, hrange.1.trans hrange.2⟩ k))) := by
    rw [DrawOp.request, drawIntegerForced, dif_pos hrange]
  have hdraw : (drawValue sampler
      (.integerForced 0 (members.length - 1) k)).Meets source
        (Yields (fun _ => True) fun _ _ => True) := by
    apply (drawValue_yields hrequest).mono
    intro result after hresult
    exact hresult.mono (fun _ hkept => hkept) fun _ _ _ _ => trivial
  rw [recordChoice]
  apply searched_bind (onSource_searched hvalid hdraw)
  rintro value ⟨flags', after⟩ hafter ⟨heq, -⟩
  cases heq
  exact ⟨⟨hafter.valid, .refl _⟩, rfl⟩

/-- Places whose rules are enabled. -/
def EnabledPlaces (members : List Nat) (flags : FeatureFlags)
    (allowed : List Nat) : Prop :=
  ∀ k ∈ allowed, ∃ rule, members[k]? = some rule ∧ IsEnabled flags rule

/-- All places before one are collected or hold a disabled rule. -/
def CoveredTo (members : List Nat) (flags : FeatureFlags) (allowed : List Nat)
    (stop : Nat) : Prop :=
  ∀ k < stop, k ∈ allowed ∨
    ∃ rule, members[k]? = some rule ∧ IsDisabled flags rule

theorem EnabledPlaces.keeps {flags flags' : FeatureFlags} {allowed : List Nat}
    (hallowed : EnabledPlaces members flags allowed)
    (hkeeps : flags.Keeps flags') : EnabledPlaces members flags' allowed := by
  intro k hk
  obtain ⟨rule, hrule, henabled⟩ := hallowed k hk
  exact ⟨rule, hrule, hkeeps rule false henabled⟩

theorem CoveredTo.keeps {flags flags' : FeatureFlags} {allowed : List Nat}
    {stop : Nat} (hcovered : CoveredTo members flags allowed stop)
    (hkeeps : flags.Keeps flags') : CoveredTo members flags' allowed stop := by
  intro k hk
  rcases hcovered k hk with hmem | ⟨rule, hrule, hdisabled⟩
  · exact .inl hmem
  · exact .inr ⟨rule, hrule, hkeeps rule true hdisabled⟩

theorem CoveredTo.succ {flags : FeatureFlags} {allowed : List Nat} {stop : Nat}
    (hcovered : CoveredTo members flags allowed stop)
    (hstop : stop ∈ allowed ∨
      ∃ rule, members[stop]? = some rule ∧ IsDisabled flags rule) :
    CoveredTo members flags allowed (stop + 1) := by
  intro k hk
  rcases Nat.lt_succ_iff_lt_or_eq.mp hk with hlt | rfl
  · exact hcovered k hlt
  · exact hstop

theorem CoveredTo.mono {flags : FeatureFlags} {allowed allowed' : List Nat}
    {stop : Nat} (hcovered : CoveredTo members flags allowed stop)
    (hsubset : allowed ⊆ allowed') : CoveredTo members flags allowed' stop :=
  fun k hk => (hcovered k hk).imp_left fun hmem => hsubset hmem

/-- The walk through the members, from the place behind `front` on. -/
theorem enumerateMembers_yields (hgrouped : Grouped groups numRules)
    (hgroup : groups[g]? = some members) {knownBad : Finset Nat}
    (speculative : Nat) {front rest allowed : List Nat}
    (hsplit : members = front ++ rest) {state : FeatureFlags × Source Rng}
    (hvalid : state.1.Valid groups numRules)
    (hbad : KnownBad members state.1 knownBad)
    (hallowed : EnabledPlaces members state.1 allowed)
    (hcovered : CoveredTo members state.1 allowed front.length) :
    (enumerateMembers sampler g members knownBad speculative front.length rest
        allowed).Meets state
      (Yields (Searched groups numRules state.1) fun
        | .found rule, after => Found members after.1 rule
        | .exhausted allowed, after =>
            EnabledPlaces members after.1 allowed ∧
              CoveredTo members after.1 allowed members.length) := by
  induction rest generalizing front allowed state with
  | nil =>
      refine ⟨⟨hvalid, .refl _⟩, hallowed, ?_⟩
      rw [hsplit, List.append_nil] at hcovered ⊢
      exact hcovered
  | cons rule rest ih =>
      have hplace : members[front.length]? = some rule := by
        rw [hsplit]
        simp
      have hnext : members = (front ++ [rule]) ++ rest := by
        rw [hsplit, List.append_assoc, List.singleton_append]
      have hlength : front.length + 1 = (front ++ [rule]).length := by simp
      have hmem : rule ∈ members := List.mem_of_getElem? hplace
      rw [enumerateMembers, hlength]
      split
      next hknown =>
          apply ih hnext hvalid hbad hallowed
          rw [← hlength]
          exact hcovered.succ (.inr (hbad _ hknown))
      next hfresh =>
          apply searched_bind (isEnabled_yields hgrouped hvalid hgroup hmem)
          intro enabled asked hasked henabled
          have hbad := hbad.keeps hasked.keeps
          have hallowed := hallowed.keeps hasked.keeps
          have hcovered := hcovered.keeps hasked.keeps
          cases enabled with
          | false =>
              apply ih hnext hasked.valid hbad hallowed
              rw [← hlength]
              exact hcovered.succ (.inr ⟨rule, hplace, henabled⟩)
          | true =>
              rw [if_pos rfl]
              split
              next hmany =>
                  have hk : front.length < members.length :=
                    (List.getElem?_eq_some_iff.mp hplace).1
                  apply searched_bind (recordChoice_yields hasked.valid hk)
                  rintro - ⟨flags, after⟩ hafter heq
                  cases heq
                  exact ⟨⟨hafter.valid, .refl _⟩, hmem, henabled⟩
              next hfew =>
                  apply ih hnext hasked.valid hbad
                  · intro k hk
                    rcases List.mem_append.mp hk with hold | hnew
                    · exact hallowed k hold
                    · obtain rfl := List.mem_singleton.mp hnew
                      exact ⟨rule, hplace, henabled⟩
                  · rw [← hlength]
                    exact (hcovered.mono (List.subset_append_left _ _)).succ
                      (.inl (by simp))

/-- Some member is at no place known to be bad. -/
theorem KnownBad.card_lt {flags : FeatureFlags} {knownBad : Finset Nat}
    (hbad : KnownBad members flags knownBad)
    (hvalid : flags.Valid groups numRules) (hgroup : groups[g]? = some members) :
    knownBad.card < members.length := by
  obtain ⟨rule, hmem, hnot⟩ := hvalid.exists_not_disabled hgroup
  obtain ⟨k, hk, hrule⟩ := List.mem_iff_getElem.mp hmem
  have hfree : k ∉ knownBad := by
    intro hknown
    obtain ⟨other, hother, hdisabled⟩ := hbad k hknown
    rw [List.getElem?_eq_getElem hk, hrule] at hother
    rw [Option.some.inj hother] at hnot
    exact hnot hdisabled
  have hsubset : knownBad ⊂ Finset.range members.length := by
    rw [Finset.ssubset_iff_of_subset]
    · exact ⟨k, Finset.mem_range.mpr hk, hfree⟩
    · intro place hplace
      obtain ⟨other, hother, -⟩ := hbad place hplace
      exact Finset.mem_range.mpr (List.getElem?_eq_some_iff.mp hother).1
  have hcard := Finset.card_lt_card hsubset
  rwa [Finset.card_range] at hcard

/-- A complete walk has collected something. -/
theorem CoveredTo.ne_nil {flags : FeatureFlags} {allowed : List Nat}
    (hcovered : CoveredTo members flags allowed members.length)
    (hvalid : flags.Valid groups numRules) (hgroup : groups[g]? = some members) :
    allowed ≠ [] := by
  rintro rfl
  obtain ⟨rule, hmem, hnot⟩ := hvalid.exists_not_disabled hgroup
  obtain ⟨k, hk, hrule⟩ := List.mem_iff_getElem.mp hmem
  rcases hcovered k hk with hnone | ⟨other, hother, hdisabled⟩
  · exact absurd hnone List.not_mem_nil
  · rw [List.getElem?_eq_getElem hk, hrule] at hother
    rw [Option.some.inj hother] at hnot
    exact hnot hdisabled

/-- Selection finds an enabled member and meets none of its own assertions. -/
theorem selectRule_yields (hgrouped : Grouped groups numRules)
    (hgroup : groups[g]? = some members) {state : FeatureFlags × Source Rng}
    (hvalid : state.1.Valid groups numRules) :
    (selectRule sampler members g).Meets state
      (Yields (Searched groups numRules state.1) fun rule after =>
        Found members after.1 rule) := by
  have hnone : KnownBad members state.1 ∅ :=
    fun k hk => absurd hk (Finset.notMem_empty k)
  rw [selectRule]
  apply searched_bind (tryMembers_yields hgrouped hgroup 3 hvalid hnone)
  intro search tried htried hsearch
  cases search with
  | found rule => exact ⟨⟨htried.valid, .refl _⟩, hsearch⟩
  | exhausted knownBad =>
      have hgood := hsearch.card_lt htried.valid hgroup
      apply searched_bind (onSource_searched htried.valid
        (drawIndex_yields (by omega)))
      rintro speculative drawn hdrawn ⟨hsame, -⟩
      apply searched_bind (enumerateMembers_yields hgrouped hgroup speculative
        (List.nil_append members).symm hdrawn.valid
        (hsearch.keeps hdrawn.keeps)
        (fun k hk => absurd hk List.not_mem_nil)
        fun k hk => absurd hk (Nat.not_lt_zero k))
      intro search walked hwalked hfound
      cases search with
      | found rule => exact ⟨⟨hwalked.valid, .refl _⟩, hfound⟩
      | exhausted allowed =>
          have hne := hfound.2.ne_nil hwalked.valid hgroup
          have hlength := List.length_pos_iff.mpr hne
          dsimp only
          rw [if_neg (by simp [hne])]
          apply searched_bind (onSource_searched hwalked.valid
            (drawIndex_yields hlength))
          rintro j chosen hchosen ⟨hsame, hj⟩
          apply Attempt.meets_bind
          apply Attempt.meets_ofExcept
          rw [elementAt, List.getElem?_eq_getElem hj]
          obtain ⟨rule, hrule, henabled⟩ :=
            hfound.1.keeps hchosen.keeps _ (List.getElem_mem hj)
          apply searched_bind (recordChoice_yields hchosen.valid
            (List.getElem?_eq_some_iff.mp hrule).1)
          rintro - ⟨flags, after⟩ hafter heq
          cases heq
          rw [elementAt, hrule]
          exact ⟨⟨hafter.valid, .refl _⟩, List.mem_of_getElem? hrule, henabled⟩

end Selection

end Hegel
