/-
What is parsed of a pattern, level by level.  Every level takes the rest of a
pattern to operations that are built from it, or refuses it; as many levels as
there are are enough, because too deep a nesting is refused.
-/
import Hegel.ParserSafety
import Hegel.KeptTrees

namespace Hegel

open Parsing

section Tokens

variable {pattern start rest : List Char} {s₀ s : RegexState}
  {names : NameClasses} {rounds n : Nat} {below : Level}
  {subpattern : SubPattern}

theorem reads_pExtension {here : Nat} {verbose : Bool}
    {good : OpCode → List Char → RegexState → Prop}
    (hbelow : FitsSub pattern rounds n below.parseSub)
    (hrounds : rest.length < rounds) (hsound : s.Sound)
    (hstart : rest <:+ start)
    (hgood : ∀ op rest' s', Building n start rest' s s' [op] →
      rest' <:+ rest → good op rest' s') :
    Reads pattern (pExtension names rounds below here verbose) rest s
      good := by
  refine reads_bind (reads_takeMatch (by decide) ?_ ?_)
  · rintro rest₁ rfl
    have hsuffix := List.suffix_cons '<' rest₁
    have hle := hsuffix.length_le
    refine reads_bind (reads_getuntilFrom (by omega) fun n rest₂ hrest₂ => ?_)
    refine reads_bind (reads_checkgroupname ?_)
    have hle' := hrest₂.length_le
    have hread := hrest₂.trans hsuffix
    refine reads_groupBody hbelow (by omega) hsound (hread.trans hstart)
      ⟨nofun, nofun⟩ fun op rest₃ s' hbuilt hrest₃ => ?_
    exact hgood op rest₃ s' hbuilt (hrest₃.trans hread)
  · intro _
    refine reads_bind (reads_takeMatch (by decide) ?_ ?_)
    · rintro rest₁ rfl
      have hsuffix := List.suffix_cons '=' rest₁
      have hle := hsuffix.length_le
      refine reads_namedReference (by omega) fun op rest₂ hop hrest₂ => ?_
      have hread := hrest₂.trans hsuffix
      exact hgood op rest₂ s (.leaf (hread.trans hstart) hop) hread
    · intro _
      exact reads_unknownPExtension

theorem reads_groupOperation {here : Nat} {verbose : Bool} {ch : PatternToken}
    {operation : Parsing OpCode}
    {good : OpCode → List Char → RegexState → Prop}
    (hsub : FitsSub pattern rounds n below.parseSub)
    (hseq : FitsSeq pattern rounds n below.parse)
    (hrounds : rest.length < rounds) (hsound : s.Sound)
    (hoperation :
      groupOperation names rounds below here verbose ch = some operation)
    (hgood : ∀ op rest' s',
      Building n ('(' :: '?' :: (ch ++ rest)) rest' s s' [op] →
      rest' <:+ rest → good op rest' s') :
    Reads pattern operation rest s good := by
  have hstart : rest <:+ '(' :: '?' :: (ch ++ rest) :=
    ⟨'(' :: '?' :: ch, rfl⟩
  rw [groupOperation] at hoperation
  split_ifs at hoperation with hp hplain hahead hbehind hcond hatomic
  · cases hoperation
    exact reads_pExtension hsub hrounds hsound hstart hgood
  · cases hoperation
    subst hplain
    refine reads_groupBody hsub hrounds hsound hstart
      ⟨(fun hatomic => by cases hatomic), ?_⟩ hgood
    exact fun _ _ _ _ => plainGroups_open rest
  · cases hoperation
    exact reads_lookahead hsub hrounds hsound hstart hgood
  · cases hoperation
    exact reads_lookbehind hsub hrounds hsound hstart hgood
  · cases hoperation
    exact reads_conditional hseq hrounds hsound hstart hgood
  · cases hoperation
    exact reads_groupBody hsub hrounds hsound hstart
      ⟨fun _ => rfl, fun _ hatomic => by cases hatomic⟩ hgood

theorem reads_inlineFlags {here : Nat} {verbose first : Bool} {c : Char}
    {mid : List Char} {good : Bool × SubPattern → List Char → RegexState → Prop}
    (hsub : FitsSub pattern rounds n below.parseSub)
    (hrounds : rest.length < rounds) (hsound : s.Sound)
    (hc : c = '-' ∨ IsFlag [c])
    (hbuilt : Building n start mid s₀ s subpattern) (hmid : rest <:+ mid)
    (hgood : ∀ verbose' ops rest' s', Building n start rest' s₀ s' ops →
      rest' <:+ rest → good (verbose', ops) rest' s') :
    Reads pattern
      (inlineFlags names rounds below here verbose first subpattern c) rest s
      good := by
  refine reads_bind (reads_parseFlags hrounds hc ?_ ?_)
  · intro flags rest₁ hrest₁
    dsimp only
    split
    case isTrue => exact reads_bind (reads_since fun _ => reads_error)
    case isFalse =>
        refine reads_bind (reads_getState (reads_pure ?_))
        refine hgood _ subpattern rest₁ _ ?_ hrest₁
        exact hbuilt.skip (hrest₁.trans hmid)
          (.idle rfl rfl fun _ hgid => hgid)
  · intro addFlags delFlags rest₁ hflags hrest₁
    have hle := hrest₁.length_le
    have hnotPlain : addFlags = 0 → delFlags = 0 →
        plainGroups rest₁ + 1 ≤ plainGroups mid :=
      fun hadd hdel => absurd hflags (by simp [hadd, hdel])
    refine reads_bind (reads_groupBody hsub (by omega) hsound
      (hrest₁.trans hmid) ⟨nofun, fun _ _ => hnotPlain⟩ ?_)
    intro op rest₂ s' hop hrest₂
    exact reads_pure
      (hgood verbose _ rest₂ s' (hbuilt.append hop) (hrest₂.trans hrest₁))

theorem reads_extension {here : Nat} {verbose first : Bool} {ch : PatternToken}
    {good : Bool × SubPattern → List Char → RegexState → Prop}
    (hsub : FitsSub pattern rounds n below.parseSub)
    (hseq : FitsSeq pattern rounds n below.parse)
    (hrounds : rest.length < rounds) (hsound : s.Sound) (hch : IsToken ch)
    (hbuilt : Building n start ('(' :: '?' :: (ch ++ rest)) s₀ s subpattern)
    (hgood : ∀ verbose' ops rest' s', Building n start rest' s₀ s' ops →
      rest' <:+ rest → good (verbose', ops) rest' s') :
    Reads pattern
      (extension names rounds below here verbose first subpattern ch) rest s
      good := by
  have hmid : rest <:+ '(' :: '?' :: (ch ++ rest) :=
    ⟨'(' :: '?' :: ch, rfl⟩
  rw [extension]
  split
  case isTrue =>
      refine reads_bind (reads_parenComment hrounds fun rest₁ hrest₁ => ?_)
      refine reads_pure (hgood verbose subpattern rest₁ s ?_ hrest₁)
      exact hbuilt.skip (hrest₁.trans hmid) (.idle rfl rfl fun _ hgid => hgid)
  case isFalse =>
      split
      next operation hoperation =>
          refine reads_bind (reads_groupOperation hsub hseq hrounds hsound
            hoperation fun op rest₁ s' hop hrest₁ => ?_)
          exact reads_pure
            (hgood verbose _ rest₁ s' (hbuilt.append hop) hrest₁)
      next =>
          obtain ⟨c, hc⟩ := hch.head?_isSome
          refine reads_bind (reads_unwrap hc ?_)
          split
          case isFalse => exact reads_error
          case isTrue hflag =>
              have hfirst : c = '-' ∨ IsFlag [c] := by
                rcases Bool.or_eq_true_iff.mp hflag with hsome | hdash
                · obtain ⟨flag, hflag⟩ := Option.isSome_iff_exists.mp hsome
                  exact .inr ⟨c, flag, rfl, hflag⟩
                · rw [beq_iff_eq.mp hdash] at hc
                  exact .inl (Option.some.inj hc).symm
              exact reads_inlineFlags hsub hrounds hsound hfirst hbuilt hmid
                hgood

theorem reads_parseGroup {verbose first : Bool}
    {good : Bool × SubPattern → List Char → RegexState → Prop}
    (hsub : FitsSub pattern rounds n below.parseSub)
    (hseq : FitsSeq pattern rounds n below.parse)
    (hrounds : rest.length < rounds) (hsound : s.Sound)
    (hbuilt : Building n start ('(' :: rest) s₀ s subpattern)
    (hgood : ∀ verbose' ops rest' s', Building n start rest' s₀ s' ops →
      rest' <:+ rest → good (verbose', ops) rest' s') :
    Reads pattern (parseGroup names rounds below verbose first subpattern) rest
      s good := by
  refine reads_bind (reads_tell fun here _ _ => ?_)
  refine reads_bind (reads_takeMatch (by decide) ?_ ?_)
  · rintro rest₁ rfl
    refine reads_bind (reads_get (fun _ => reads_error) ?_)
    rintro ch rest₂ hch rfl
    have hsuffix : rest₂ <:+ '?' :: (ch ++ rest₂) := ⟨'?' :: ch, rfl⟩
    have hle := hsuffix.length_le
    refine reads_extension hsub hseq (by omega) hsound hch hbuilt ?_
    intro verbose' ops rest' s' hops hrest'
    exact hgood verbose' ops rest' s' hops (hrest'.trans hsuffix)
  · intro _
    refine reads_bind (reads_groupBody hsub hrounds hsound
      (List.suffix_cons '(' rest) ⟨nofun, nofun⟩ ?_)
    intro op rest₁ s' hop hrest₁
    exact reads_pure (hgood verbose _ rest₁ s' (hbuilt.append hop) hrest₁)

theorem reads_parseToken {this : PatternToken} {verbose first : Bool}
    {good : Bool × SubPattern → List Char → RegexState → Prop}
    (hsub : FitsSub pattern rounds n below.parseSub)
    (hseq : FitsSeq pattern rounds n below.parse)
    (hrounds : rest.length < rounds) (hsound : s.Sound)
    (hthis : IsToken this) (hbar : this ≠ ['|']) (hparen : this ≠ [')'])
    (hbuilt : Building n start (this ++ rest) s₀ s subpattern)
    (hgood : ∀ verbose' ops rest' s', Building n start rest' s₀ s' ops →
      rest' <:+ rest → good (verbose', ops) rest' s') :
    Reads pattern
      (parseToken names rounds below this verbose first subpattern) rest s
      good := by
  have hread := List.suffix_append this rest
  have hhere := List.suffix_refl rest
  have hleaf : ∀ op rest₁, LeafOf s op → rest₁ <:+ rest →
      good (verbose, subpattern ++ [op]) rest₁ s := by
    intro op rest₁ hop hrest₁
    refine hgood verbose _ rest₁ s ?_ hrest₁
    exact hbuilt.append (.leaf (hrest₁.trans hread) hop)
  have hskip : ∀ rest₁, rest₁ <:+ rest →
      good (verbose, subpattern) rest₁ s := by
    intro rest₁ hrest₁
    refine hgood verbose subpattern rest₁ s ?_ hrest₁
    exact hbuilt.skip (hrest₁.trans hread) (.idle rfl rfl fun _ hgid => hgid)
  cases hthis with
  | escape c =>
      refine reads_bind (reads_unwrap rfl ?_)
      have hlength : ([escapeMark, c].length == 1) = false := rfl
      rw [hlength, Bool.and_false, Bool.false_and, Bool.false_and,
        if_neg Bool.false_ne_true, if_neg Bool.false_ne_true, if_pos rfl]
      refine reads_bind (reads_escapeCode fun op rest₁ hop hrest₁ => ?_)
      exact reads_pure (hleaf op rest₁ hop hrest₁)
  | @char c hc =>
      refine reads_bind (reads_unwrap rfl ?_)
      split_ifs with hspace hcomment hspecial hset hrepeat hany hgroup hcaret
        hdollar
      · exact reads_pure (hskip rest hhere)
      · refine reads_bind (reads_lineComment hrounds fun rest₁ hrest₁ => ?_)
        exact reads_pure (hskip rest₁ hrest₁)
      · refine reads_bind (reads_parseSet hrounds fun op rest₁ hop hrest₁ => ?_)
        exact reads_pure (hleaf op rest₁ hop hrest₁)
      · have hquantifier := of_decide_eq_true (Bool.and_eq_true_iff.mp hrepeat).2
        refine reads_bind (reads_parseRepeat hquantifier hrounds ?_ ?_)
        · exact reads_pure (hleaf _ rest (leafOf_literal ⟨c, rfl⟩) hhere)
        · rintro before op kind min max rest₁ rfl hle hposition hop hrest₁
          refine reads_pure (hgood verbose _ rest₁ s ?_ hrest₁)
          exact hbuilt.repeated hle hposition hop (hrest₁.trans hread)
      · exact reads_pure
          (hleaf .any rest ⟨trivial, rfl, rfl, rfl, .inl rfl⟩ hhere)
      · rw [hgroup] at hbuilt
        exact reads_parseGroup hsub hseq hrounds hsound hbuilt hgood
      · exact reads_pure (hleaf _ rest (leafOf_position _) hhere)
      · exact reads_pure (hleaf _ rest (leafOf_position _) hhere)
      · exfalso
        simp only [ne_eq, List.cons.injEq, and_true] at hbar hparen hset
        simp only [List.cons.injEq, and_true] at hany hgroup hcaret hdollar
        simp [specialChars] at hspecial
        simp [repeatChars] at hrepeat
        tauto
      · exact reads_pure (hleaf _ rest (leafOf_literal ⟨c, rfl⟩) hhere)

theorem reads_parseTokens {left : Nat} {verbose first : Bool}
    {good : SubPattern → List Char → RegexState → Prop}
    (hsub : FitsSub pattern rounds n below.parseSub)
    (hseq : FitsSeq pattern rounds n below.parse)
    (hleft : rest.length < left) (hrounds : rest.length < rounds)
    (hsound : s₀.Sound) (hbuilt : Building n start rest s₀ s subpattern)
    (hgood : ∀ ops rest' s', Building n start rest' s₀ s' ops →
      (∀ c, rest'.head? = some c → c ∈ [')', '|']) → good ops rest' s') :
    Reads pattern
      (parseTokens names rounds below first left verbose subpattern) rest s
      good := by
  induction left generalizing rest s verbose subpattern with
  | zero => exact absurd hleft (Nat.not_lt_zero _)
  | succ left ih =>
      refine reads_bind (reads_nextToken ?_ ?_)
      · rintro rfl
        exact reads_pure (hgood subpattern [] s hbuilt (by simp))
      · rintro this rest₁ hthis rfl
        dsimp only
        split
        case isTrue hends =>
            refine reads_pure (hgood subpattern _ s hbuilt fun c hc => ?_)
            rcases hends with rfl | rfl
            · cases hc
              simp
            · cases hc
              simp
        case isFalse hends =>
            rw [not_or] at hends
            have hpos := hthis.length_pos
            rw [List.length_append] at hleft hrounds
            refine reads_bind (reads_advance hthis ?_)
            refine reads_bind (reads_parseToken hsub hseq (by omega)
              (hbuilt.follows.sound hsound) hthis hends.1 hends.2 hbuilt ?_)
            intro verbose' ops rest₂ s' hops hrest₂
            have hle := hrest₂.length_le
            exact ih (by omega) (by omega) hops

end Tokens

section Levels

variable {pattern rest : List Char} {s : RegexState} {names : NameClasses}
  {rounds n : Nat} {below : Level}

theorem parse_fits {nested : Nat}
    (hsub : nested ≤ maxNesting →
      FitsSub pattern rounds (maxNesting - nested) below.parseSub)
    (hseq : nested ≤ maxNesting →
      FitsSeq pattern rounds (maxNesting - nested) below.parse) :
    FitsSeq pattern rounds (maxNesting + 1 - nested)
      (parse names rounds below nested) := by
  intro verbose first rest s hrounds hsound
  rw [parse]
  split
  case isTrue => exact reads_error
  case isFalse hnested =>
      have hle := Nat.le_of_not_lt hnested
      refine reads_bind (reads_parseTokens (hsub hle) (hseq hle) hrounds hrounds
        hsound (.nothing (List.suffix_refl rest)) ?_)
      intro ops rest' s' hops hends
      refine reads_pure ⟨⟨_, ?_, hops.inlined⟩, ?_, hends⟩
      · omega
      · exact (inlinePlain_unwraps (n := 0) ops).plain

theorem reads_parseAlternatives {start : List Char} {s₀ : RegexState}
    {nested left : Nat} {verbose : Bool} {items : List SubPattern}
    {good : List SubPattern → List Char → RegexState → Prop}
    (hseq : FitsSeq pattern rounds (n + 1) below.parse)
    (hleft : rest.length < left) (hrounds : rest.length < rounds)
    (hsound : s₀.Sound) (hbuilt : Building n start rest s₀ s items.flatten)
    (hplain : ∀ item ∈ items, ∀ op ∈ item, isPlain op = false)
    (hgood : ∀ items' rest' s', Building n start rest' s₀ s' items'.flatten →
      (∀ item ∈ items', ∀ op ∈ item, isPlain op = false) →
      (∀ c, rest'.head? = some c → c ∈ [')']) → good items' rest' s') :
    Reads pattern (parseAlternatives below nested left verbose items) rest s
      good := by
  induction left generalizing rest s verbose items with
  | zero => exact absurd hleft (Nat.not_lt_zero _)
  | succ left ih =>
      refine reads_bind ((hseq verbose _ rest s hrounds
        (hbuilt.follows.sound hsound)).mono ?_)
      rintro item rest₁ s₁ ⟨⟨m, hm, hitem⟩, hitemPlain, hends⟩
      have hmore : Building n start rest₁ s₀ s₁ (items ++ [item]).flatten := by
        rw [List.flatten_append, List.flatten_singleton]
        exact hbuilt.append (hitem.mono (Nat.le_of_lt_succ hm))
      have hplain' : ∀ q ∈ items ++ [item], ∀ op ∈ q, isPlain op = false :=
        List.forall_mem_append.mpr
          ⟨hplain, List.forall_mem_singleton.mpr hitemPlain⟩
      have hle := hitem.unread.length_le
      refine reads_bind (reads_takeMatch (by decide) ?_ ?_)
      · rintro rest₂ rfl
        refine reads_bind (reads_getState ?_)
        rw [List.length_cons] at hle
        refine ih (by omega) (by omega) ?_ hplain'
        exact hmore.skip (List.suffix_cons '|' rest₂)
          (.idle rfl rfl fun _ hgid => hgid)
      · intro hbar
        refine reads_pure (hgood _ rest₁ s₁ hmore hplain' fun c hc => ?_)
        have hcases := hends c hc
        simp only [List.mem_cons, List.not_mem_nil, or_false] at hcases ⊢
        refine hcases.resolve_right ?_
        rintro rfl
        exact hbar hc

theorem parseSub_fits {nested : Nat}
    (hseq : FitsSeq pattern rounds (n + 1) below.parse) :
    FitsSub pattern rounds (n + 2) (parseSub rounds below nested) := by
  intro verbose rest s hrounds hsound
  refine reads_bind (reads_parseAlternatives hseq hrounds hrounds hsound
    (.nothing (List.suffix_refl rest)) (by simp) ?_)
  intro items rest' s' hitems hplain hends
  refine reads_pure
    ⟨⟨n + 1, Nat.lt_succ_self _, hitems.joined hplain⟩, ?_, hends⟩
  exact joinAlternatives_plain hplain

/-- Alternatives of sequences that are all refused are refused. -/
theorem parseSub_refused {nested m : Nat}
    (hseq : FitsSeq pattern rounds 0 below.parse) :
    FitsSub pattern rounds m (parseSub rounds below nested) := by
  intro verbose rest s hrounds hsound
  cases rounds with
  | zero => exact absurd hrounds (Nat.not_lt_zero _)
  | succ rounds =>
      refine reads_bind (reads_bind
        ((hseq verbose _ rest s hrounds hsound).mono ?_))
      rintro item rest₁ s₁ ⟨⟨m, hm, -⟩, -, -⟩
      exact absurd hm (Nat.not_lt_zero m)

/-- Enough levels parse whatever they are given: at the depth where the last of
them is reached every nesting has been refused. -/
theorem levels_fit {count nested : Nat}
    (henough : maxNesting + 3 ≤ count + nested) :
    (1 ≤ count → FitsSeq pattern rounds (maxNesting + 1 - nested)
      (levels names rounds count nested).parse) ∧
    (2 ≤ count → FitsSub pattern rounds (maxNesting + 1 - nested)
      (levels names rounds count nested).parseSub) := by
  induction count generalizing nested with
  | zero => exact ⟨(by simp), (by simp)⟩
  | succ count ih =>
      have hbelow := @ih (nested + 1) (by omega)
      have hdeeper : maxNesting + 1 - (nested + 1) = maxNesting - nested := by
        omega
      rw [hdeeper] at hbelow
      refine ⟨fun _ => ?_, fun hcount => ?_⟩
      · exact parse_fits (fun hnested => hbelow.2 (by omega))
          (fun hnested => hbelow.1 (by omega))
      · have hseq := hbelow.1 (by omega)
        by_cases hnested : nested < maxNesting
        · obtain ⟨n, hn⟩ := Nat.exists_eq_add_of_lt hnested
          have hlower : maxNesting - nested = n + 1 := by omega
          have hhere : maxNesting + 1 - nested = n + 2 := by omega
          rw [hlower] at hseq
          rw [hhere]
          exact parseSub_fits hseq
        · have hnone : maxNesting - nested = 0 := by omega
          rw [hnone] at hseq
          exact parseSub_refused hseq

end Levels

/-- A tree that is built of a pattern. -/
structure WellBuilt (pattern : List Char) (p : SubPattern) : Prop where
  nodes : ∀ op ∈ p, op.Every OpCode.WellFormed
  depth : seqDepth p ≤ maxNesting
  closed : RefsClosed ∅ (seqEvents p)
  existing : ∀ gid, .tests gid ∈ seqEvents p → .closes gid ∈ seqEvents p
  bare : (seqEvents p).count .bare ≤ plainGroups pattern

/-- The tree of an accepted pattern.  Where it repeats an anchor or a repetition
the parentheses of a plain group around it have been taken off. -/
structure WellParsed (names : NameClasses) (pattern : List Char) (flags : Nat)
    (p : SubPattern) : Prop extends WellBuilt pattern p where
  kept : ∃ kept, keptTree names pattern flags = .ok kept ∧
    stripSeq kept = p ∧ ∀ op ∈ kept, op.Every OpCode.Guarded

section Whole

variable {names : NameClasses} {pattern rest : List Char} {flags : Nat}

theorem reads_checkConditions {s state : RegexState}
    {good : Unit → List Char → RegexState → Prop}
    (hgood : (∀ gid ∈ state.grouprefpos, gid < state.groups) →
      good () rest s) :
    Reads pattern (checkConditions state) rest s good := by
  rw [checkConditions]
  split
  next hnone =>
      refine reads_pure (hgood fun gid hgid => ?_)
      obtain ⟨entry, hentry, rfl⟩ := List.mem_map.mp hgid
      have hlt := List.find?_eq_none.mp hnone entry hentry
      simpa using hlt
  next => exact reads_refused

theorem sound_new : (RegexState.new flags).Sound := by
  refine ⟨Nat.one_pos, fun n gid hlookup => ?_⟩
  cases hlookup

theorem reads_parseWhole :
    Reads pattern (parseWhole names (pattern.length + 1) flags) pattern
      (RegexState.new flags) fun parsed _ _ =>
        WellBuilt pattern parsed.pattern := by
  have hlevel := (@levels_fit pattern names (pattern.length + 1)
    (maxNesting + 3) 0 (Nat.le_refl (maxNesting + 3))).2 (by decide)
  rw [Nat.sub_zero] at hlevel
  refine reads_bind ((hlevel _ pattern _ (Nat.lt_succ_self _)
    sound_new).mono ?_)
  rintro p rest s ⟨⟨m, hm, hbuilt⟩, -, hends⟩
  refine reads_bind (reads_getState ?_)
  split
  next => exact reads_refused
  next flags' _ =>
      refine reads_bind (reads_nextToken ?_ ?_)
      · rintro rfl
        rw [if_pos rfl]
        refine reads_bind (reads_checkConditions fun hconditions => ?_)
        refine reads_pure ⟨?_, ?_, ?_, ?_, ?_⟩
        · exact fun op hop => (hbuilt.shaped op hop).every
        · refine seqDepth_le_iff.mpr fun op hop => ?_
          have hdepth := (hbuilt.shaped op hop).depth
          omega
        · refine hbuilt.follows.refs.mono fun gid hgid => ?_
          obtain ⟨width, hwidth⟩ := RegexState.checkgroup_iff.mp hgid
          have hmem : some width ∈ [none] := List.mem_of_getElem? hwidth
          simp at hmem
        · intro gid hgid
          obtain ⟨hpos, hknows⟩ := hbuilt.follows.tests gid hgid
          have hlt : gid < s.groups := hknows.elim id (hconditions gid)
          exact (hbuilt.follows.closes gid).mpr ⟨hpos, hlt⟩
        · have hpaid := hbuilt.paid
          change (seqEvents p).count .bare ≤ plainGroups pattern
          omega
      · rintro token rest' htoken rfl
        rw [if_neg (by simp)]
        obtain ⟨c, hc⟩ := htoken.head?_isSome
        have hhead : (token ++ rest').head? = some c := by
          rw [List.head?_append, hc]
          rfl
        have hparen := List.mem_singleton.mp (hends c hhead)
        subst hparen
        have htoken' : token = [')'] := by
          cases htoken with
          | char _ =>
              cases hc
              rfl
          | escape d =>
              have hne : escapeMark ≠ ')' := by decide
              exact absurd (Option.some.inj hc) hne
        rw [htoken', if_pos rfl]
        exact reads_error

theorem parsePattern_proper (names : NameClasses) (pattern : List Char)
    (flags : Nat) :
    (∀ parsed, parsePattern names pattern flags = .ok parsed →
      WellBuilt pattern parsed.pattern) ∧
      ∀ fault, parsePattern names pattern flags = .error fault →
        ∃ error, fault = .refused error := by
  have hstart := @advanced_at pattern ⟨pattern, 0, none⟩ pattern rfl
    (List.suffix_refl pattern) (Nat.zero_add _)
  rw [parsePattern, Tokenizer.new]
  rcases hnew : Tokenizer.advanced ⟨pattern, 0, none⟩ with error | source
  · refine ⟨(by simp), fun fault hfault => ?_⟩
    exact ⟨error, (Except.error.inj hfault).symm⟩
  · rw [hnew] at hstart
    have hwhole := @reads_parseWhole names pattern flags source hstart
    rw [Attempt.Meets] at hwhole
    refine ⟨fun parsed hparsed => ?_, fun fault hfault => ?_⟩
    · dsimp only at hparsed
      rw [hparsed] at hwhole
      obtain ⟨rest, -, hgood⟩ := hwhole
      exact hgood
    · dsimp only at hfault
      rw [hfault] at hwhole
      exact hwhole

/-- Every pattern is parsed or refused: no place is looked up that is not
there, no position becomes negative, and the levels and rounds that there are
suffice.  A tree that is returned has the numbers of characters in its
literals and sets, which are not empty, ordered bounds, back-references behind
the ends of their groups, conditions on groups that it contains, and a limited
depth.  A repetition in it is directly of an anchor or of a repetition only
where the parentheses of a plain group have been taken off: with them no
repetition is, and there are at most as many as plain groups in the text. -/
theorem parsePattern_wellParsed (names : NameClasses) (pattern : List Char)
    (flags : Nat) :
    match parsePattern names pattern flags with
    | .ok parsed => WellParsed names pattern flags parsed.pattern
    | .error fault => ∃ error, fault = .refused error := by
  have hproper := parsePattern_proper names pattern flags
  cases hresult : parsePattern names pattern flags with
  | ok parsed =>
      obtain ⟨kept, htree, hstrips⟩ := keptTree_of_parsePattern hresult
      exact ⟨hproper.1 parsed hresult,
        ⟨kept, htree, hstrips.stripped.symm, hstrips.every⟩⟩
  | error fault => exact hproper.2 fault hresult

/-- The parentheses of a plain group are not kept, so that what was in them may
be repeated directly. -/
theorem parsePattern_bare :
    ¬∀ (names : NameClasses) (pattern : List Char) (flags : Nat)
      (parsed : ParsedPattern), parsePattern names pattern flags = .ok parsed →
      PatternEvent.bare ∉ seqEvents parsed.pattern := by
  intro hall
  have hbare : (match parsePattern ⟨Char.isAlpha, Char.isAlphanum⟩
      "(?:a*)*".toList 0 with
      | .ok parsed => decide (.bare ∈ seqEvents parsed.pattern)
      | .error _ => false) = true := by
    decide +kernel
  split at hbare
  next parsed hparsed => exact hall _ _ _ _ hparsed (of_decide_eq_true hbare)
  next => cases hbare

end Whole

end Hegel
