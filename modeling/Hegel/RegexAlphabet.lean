/-
Generated texts keep to their alphabet.  Every character comes from a list
within it, from a test against it, or from text generated before.
-/
import Hegel.RegexGeneration

namespace Hegel

/-- Characters of an alphabet only. -/
def Within (alphabet : Option IntervalSet) (chars : List Char) : Prop :=
  ∀ c ∈ chars, alphabetAllows alphabet c = true

/-- Without an alphabet every character will do. -/
theorem within_none (chars : List Char) : Within none chars := by
  intro c _
  rw [alphabetAllows, isSurrogate_toNat]
  rfl

/-- What is at a position of an alphabet belongs to it. -/
theorem contains_of_get {s : IntervalSet} {i : Int} {elem : Nat}
    (hget : s.get i = some elem) : s.contains elem = true := by
  have hresolved : ∃ n < s.len, s.get n = some elem := by
    rw [IntervalSet.get] at hget
    generalize (if i < 0 then (s.len : Int) + i else i) = resolved at hget
    split at hget
    case isTrue => cases hget
    case isFalse hrange =>
        rw [not_or, not_lt, not_le] at hrange
        obtain ⟨n, rfl⟩ := Int.eq_ofNat_of_zero_le hrange.1
        refine ⟨n, by omega, ?_⟩
        rw [IntervalSet.get, if_neg (Int.not_lt.mpr (Int.natCast_nonneg n)),
          if_neg (by omega)]
        exact hget
  obtain ⟨n, hn, heq⟩ := hresolved
  obtain ⟨elem', hget', hcontains, -⟩ := s.index_get hn
  rw [heq] at hget'
  exact Option.some.inj hget' ▸ hcontains

section Characters

variable {tables : CaseTables} {data : UnicodeData}
  {alphabet : Option IntervalSet}

theorem within_append {chars more : List Char} (hchars : Within alphabet chars)
    (hmore : Within alphabet more) : Within alphabet (chars ++ more) :=
  List.forall_mem_append.mpr ⟨hchars, hmore⟩

theorem within_gatherChars (predicate : Char → Bool) :
    Within alphabet (gatherChars alphabet predicate) :=
  fun _ hc => (mem_gatherChars.mp hc).1.allows

/-- What a set emits is in the alphabet, whether it is negated or not. -/
theorem within_buildInSet {items : List SetItem} {flags : Nat}
    {chars : List Char}
    (hchars : buildInSet tables data items flags alphabet = .ok chars) :
    Within alphabet chars := by
  rw [buildInSet] at hchars
  cases hpositive : positiveChars tables flags [] items with
  | error error =>
      rw [hpositive] at hchars
      cases hchars
  | ok positive =>
      rw [hpositive] at hchars
      simp only [bind, Except.bind, pure, Except.pure] at hchars
      split at hchars
      · cases hchars
        exact within_gatherChars _
      · cases hchars
        intro c hc
        rw [List.mem_eraseDups, List.mem_append, List.mem_filter] at hc
        rcases hc with ⟨-, hallows⟩ | hcategorised
        · exact (Bool.and_eq_true _ _ ▸ hallows).2
        · split at hcategorised
          · cases hcategorised
          · exact within_gatherChars _ c (List.mem_filter.mp hcategorised).1

end Characters

/-- The characters kept for an alphabet belong to it, under whatever keys. -/
structure RegexCaches.Coherent (alphabet : Option IntervalSet)
    (caches : RegexCaches) : Prop where
  inCache : ∀ key chars, caches.inCache.lookup key = some chars →
    Within alphabet chars
  charCache : ∀ key chars, caches.charCache.lookup key = some chars →
    Within alphabet chars

/-- The text, the groups and the caches keep to the alphabet. -/
structure Generation.Keeps (alphabet : Option IntervalSet) (gen : Generation) :
    Prop where
  out : Within alphabet gen.out
  groups : ∀ gid val, gen.state.groups.lookup gid = some val →
    Within alphabet val
  caches : gen.caches.Coherent alphabet

theorem lookup_insert_within {Key : Type} [DecidableEq Key]
    {alphabet : Option IntervalSet} {map : AList fun _ : Key => List Char}
    {key : Key} {chars : List Char}
    (hmap : ∀ key chars, map.lookup key = some chars → Within alphabet chars)
    (hchars : Within alphabet chars) :
    ∀ key' chars', (map.insert key chars).lookup key' = some chars' →
      Within alphabet chars' := by
  intro key' chars' hlookup
  by_cases heq : key' = key
  · rw [heq, AList.lookup_insert] at hlookup
    cases hlookup
    exact hchars
  · rw [AList.lookup_insert_ne heq] at hlookup
    exact hmap key' chars' hlookup

namespace RegexCaches.Coherent

variable {alphabet : Option IntervalSet} {caches : RegexCaches}
  {chars : List Char}

theorem empty : RegexCaches.empty.Coherent alphabet :=
  ⟨nofun, nofun⟩

theorem addInSet (hcaches : caches.Coherent alphabet)
    (key : List Nat × Nat × Nat) (hchars : Within alphabet chars) :
    (caches.addInSet key chars).Coherent alphabet :=
  ⟨lookup_insert_within hcaches.inCache hchars, hcaches.charCache⟩

theorem addChars (hcaches : caches.Coherent alphabet) (key : Nat × Nat)
    (hchars : Within alphabet chars) :
    (caches.addChars key chars).Coherent alphabet :=
  ⟨hcaches.inCache, lookup_insert_within hcaches.charCache hchars⟩

end RegexCaches.Coherent

namespace Generation.Keeps

variable {alphabet : Option IntervalSet} {gen : Generation}

theorem push (hgen : gen.Keeps alphabet) {c : Char}
    (hc : alphabetAllows alphabet c = true) : (gen.push c).Keeps alphabet where
  out := within_append hgen.out (List.forall_mem_singleton.mpr hc)
  groups := hgen.groups
  caches := hgen.caches

theorem pushStr (hgen : gen.Keeps alphabet) {val : List Char}
    (hval : Within alphabet val) : (gen.pushStr val).Keeps alphabet where
  out := within_append hgen.out hval
  groups := hgen.groups
  caches := hgen.caches

theorem capture (hgen : gen.Keeps alphabet) (gid before : Nat) :
    (gen.capture gid before).Keeps alphabet where
  out := hgen.out
  groups := lookup_insert_within hgen.groups
    fun c hc => hgen.out c (List.mem_of_mem_drop hc)
  caches := hgen.caches

theorem withCaches (hgen : gen.Keeps alphabet) {caches : RegexCaches}
    (hcaches : caches.Coherent alphabet) :
    (gen.withCaches caches).Keeps alphabet :=
  ⟨hgen.out, hgen.groups, hcaches⟩

/-- Flags and checks that are put off do not matter. -/
theorem of_eq (hgen : gen.Keeps alphabet) {after : Generation}
    (hout : after.out = gen.out) (hgroups : after.state.groups = gen.state.groups)
    (hcaches : after.caches = gen.caches) : after.Keeps alphabet :=
  ⟨hout ▸ hgen.out, hgroups ▸ hgen.groups, hcaches ▸ hgen.caches⟩

end Generation.Keeps

section Keeping

variable {Rng Value Value' : Type} {sampler : Sampler Rng}
  {alphabet : Option IntervalSet}

/-- Whatever comes of it, the alphabet is kept to. -/
def KeepsTo (alphabet : Option IntervalSet) (good : Value → Prop)
    (attempt : Generating Rng Value) : Prop :=
  attempt.Ensures (fun state => state.1.Keeps alphabet) good

theorem keepsTo_change {f : Generation → Generation}
    (hf : ∀ gen, gen.Keeps alphabet → (f gen).Keeps alphabet) :
    KeepsTo alphabet (fun _ => True) (change f : Generating Rng Unit) :=
  Attempt.ensures_modify fun state hstate => hf state.1 hstate

theorem keepsTo_read :
    KeepsTo alphabet (fun gen => gen.Keeps alphabet)
      (readGeneration : Generating Rng Generation) :=
  fun _ hstate => ⟨hstate, fun _ heq => Except.ok.inj heq ▸ hstate⟩

theorem keepsTo_onSource (attempt : Attempt (Source Rng) MachineError Value) :
    KeepsTo alphabet (fun _ => True) (onSource attempt) :=
  fun _ hstate => ⟨hstate, fun _ _ => trivial⟩

theorem keepsTo_markInvalid {good : Value → Prop} :
    KeepsTo alphabet good (markInvalid : Generating Rng Value) :=
  fun _ hstate => ⟨hstate, nofun⟩

theorem keepsTo_drawAnyChar :
    KeepsTo alphabet (fun c => alphabetAllows alphabet c = true)
      (drawAnyChar sampler alphabet) := by
  cases alphabet with
  | none =>
      refine Attempt.ensures_bind (keepsTo_onSource _) fun cp _ => ?_
      exact Attempt.ensures_ofExcept fun c _ =>
        within_none [c] c (List.mem_singleton_self c)
  | some intervals =>
      rw [drawAnyChar]
      split
      · exact keepsTo_markInvalid
      · refine Attempt.ensures_bind (keepsTo_onSource _) fun idx _ => ?_
        have hget : KeepsTo (some intervals)
            (fun cp => intervals.contains cp = true)
            (Attempt.ofExcept ((intervals.get idx).elim
              (.error (.assertion ("draw_any_char: alphabet index " ++
                toString idx ++ " out of bounds"))) .ok) :
              Generating Rng Nat) := by
          refine Attempt.ensures_ofExcept fun cp hcp => ?_
          cases hfound : intervals.get idx with
          | none =>
              rw [hfound] at hcp
              cases hcp
          | some found =>
              rw [hfound] at hcp
              cases hcp
              exact contains_of_get hfound
        refine Attempt.ensures_bind hget fun cp hcp => ?_
        refine Attempt.ensures_ofExcept fun c hc => ?_
        cases hchar : charFromU32 cp with
        | none =>
            rw [hchar] at hc
            cases hc
        | some found =>
            rw [hchar] at hc
            cases hc
            rw [charFromU32_eq_some_iff.mp hchar] at hcp
            exact hcp

theorem keepsTo_drawCharIndex (n : Nat) :
    KeepsTo alphabet (fun _ => True) (drawCharIndex sampler n) := by
  rw [drawCharIndex]
  split
  · refine Attempt.ensures_bind (keepsTo_onSource _) fun early _ => ?_
    split
    · exact keepsTo_onSource _
    · exact keepsTo_onSource _
  · exact keepsTo_onSource _

theorem keepsTo_emitFromChars {chars : List Char}
    (hchars : Within alphabet chars) :
    KeepsTo alphabet (fun _ => True) (emitFromChars sampler chars) := by
  rw [emitFromChars]
  split
  · exact keepsTo_markInvalid
  · refine Attempt.ensures_bind (keepsTo_drawCharIndex _) fun idx _ => ?_
    have helement : KeepsTo alphabet (fun c => alphabetAllows alphabet c = true)
        (Attempt.ofExcept (elementAt chars idx.toNat) : Generating Rng Char) := by
      refine Attempt.ensures_ofExcept fun c hc => ?_
      rw [elementAt] at hc
      split at hc
      case h_1 found hfound =>
          cases hc
          exact hchars _ (List.mem_of_getElem? hfound)
      case h_2 => cases hc
    exact Attempt.ensures_bind helement fun c hc =>
      keepsTo_change fun gen hgen => hgen.push hc

theorem keepsTo_emitAllowed (c : Char) :
    KeepsTo alphabet (fun _ => True)
      (emitAllowed alphabet c : Generating Rng Unit) := by
  rw [emitAllowed]
  split
  case isTrue hallows => exact keepsTo_change fun gen hgen => hgen.push hallows
  case isFalse => exact keepsTo_markInvalid

theorem keepsTo_drawPad :
    KeepsTo alphabet (fun _ => True) (drawPad sampler alphabet) := by
  refine Attempt.ensures_bind (keepsTo_onSource _) fun n _ => ?_
  generalize n.toNat = count
  induction count with
  | zero => exact Attempt.ensures_pure trivial
  | succ count ih =>
      refine Attempt.ensures_bind keepsTo_drawAnyChar fun c hc => ?_
      exact Attempt.ensures_bind
        (keepsTo_change fun gen hgen => hgen.push hc) fun _ _ => ih

theorem keepsTo_repeatMany {body : Generating Rng Unit}
    (hbody : KeepsTo alphabet (fun _ => True) body) (rounds : Nat)
    (state : ManyState) :
    KeepsTo alphabet (fun _ => True)
      (repeatMany sampler body rounds state) := by
  induction rounds generalizing state with
  | zero => exact Attempt.ensures_refuse
  | succ rounds ih =>
      refine Attempt.ensures_bind (keepsTo_onSource _) fun next _ => ?_
      obtain ⟨answer, state⟩ := next
      cases answer with
      | true => exact Attempt.ensures_bind hbody fun _ _ => ih state
      | false => exact Attempt.ensures_pure trivial

/-- A cache that only keeps characters of the alphabet hands out such, and what
is computed for it is kept. -/
theorem keepsTo_cachedOr {Key : Type} [DecidableEq Key]
    {cache : RegexCaches → AList fun _ : Key => List Char}
    {add : RegexCaches → Key → List Char → RegexCaches} {key : Key}
    {compute : Except InternalError (List Char)}
    (hcache : ∀ caches : RegexCaches, caches.Coherent alphabet →
      ∀ chars, (cache caches).lookup key = some chars → Within alphabet chars)
    (hadd : ∀ caches : RegexCaches, caches.Coherent alphabet →
      ∀ chars, Within alphabet chars →
        (add caches key chars).Coherent alphabet)
    (hcompute : ∀ chars, compute = .ok chars → Within alphabet chars) :
    KeepsTo alphabet (Within alphabet)
      (cachedOr cache add key compute : Generating Rng (List Char)) := by
  refine Attempt.ensures_bind keepsTo_read fun gen hgen => ?_
  cases hlookup : (cache gen.caches).lookup key with
  | some chars =>
      exact Attempt.ensures_pure (hcache _ hgen.caches chars hlookup)
  | none =>
      have hcomputed : KeepsTo alphabet (Within alphabet)
          (Attempt.ofExcept (orInternal compute) :
            Generating Rng (List Char)) := by
        refine Attempt.ensures_ofExcept fun chars hchars => ?_
        cases compute with
        | ok computed =>
            cases hchars
            exact hcompute _ rfl
        | error error => cases hchars
      refine Attempt.ensures_bind hcomputed fun chars hchars => ?_
      refine Attempt.ensures_bind (keepsTo_change fun gen hgen =>
        hgen.withCaches (hadd _ hgen.caches chars hchars)) fun _ _ => ?_
      exact Attempt.ensures_pure hchars

variable {t : RegexTables}

theorem keepsTo_inSetChars (path : List Nat) (items : List SetItem)
    (flags : Nat) :
    KeepsTo alphabet (Within alphabet)
      (inSetChars t alphabet path items flags :
        Generating Rng (List Char)) := by
  cases alphabet with
  | none =>
      exact keepsTo_cachedOr (fun _ _ chars _ => within_none chars)
        (fun _ hcaches _ _ => ⟨hcaches.inCache, hcaches.charCache⟩)
        (fun chars _ => within_none chars)
  | some intervals =>
      exact keepsTo_cachedOr (fun _ hcaches => hcaches.inCache _)
        (fun _ hcaches _ hchars => hcaches.addInSet _ hchars)
        (fun _ hchars => within_buildInSet hchars)

theorem keepsTo_notLiteralCharsOf (cp : Nat) (c : Char) (flags : Nat) :
    KeepsTo alphabet (Within alphabet)
      (notLiteralCharsOf t alphabet cp c flags :
        Generating Rng (List Char)) := by
  cases alphabet with
  | none =>
      exact keepsTo_cachedOr (fun _ _ chars _ => within_none chars)
        (fun _ hcaches _ _ => ⟨hcaches.inCache, hcaches.charCache⟩)
        (fun chars _ => within_none chars)
  | some intervals =>
      refine keepsTo_cachedOr (fun _ hcaches => hcaches.charCache _)
        (fun _ hcaches _ hchars => hcaches.addChars _ hchars)
        fun chars hchars => ?_
      cases hchars
      exact within_gatherChars _

theorem keepsTo_anyCharsOf (flags : Nat) :
    KeepsTo alphabet (Within alphabet)
      (anyCharsOf alphabet flags : Generating Rng (List Char)) := by
  cases alphabet with
  | none => exact Attempt.ensures_pure (within_none _)
  | some intervals =>
      refine keepsTo_cachedOr (fun _ hcaches => hcaches.charCache _)
        (fun _ hcaches _ hchars => hcaches.addChars _ hchars)
        fun chars hchars => ?_
      cases hchars
      exact within_gatherChars _

theorem keepsTo_generateLiteral (c : Char) (flags : Nat) :
    KeepsTo alphabet (fun _ => True)
      (generateLiteral sampler t alphabet c flags) := by
  rw [generateLiteral]
  split
  · exact Attempt.ensures_bind (keepsTo_onSource _)
      fun which _ => keepsTo_emitAllowed _
  · exact keepsTo_emitAllowed _

theorem keepsTo_generatePosition (code : AtCode) :
    KeepsTo alphabet (fun _ => True)
      (generatePosition code : Generating Rng Unit) := by
  refine Attempt.ensures_bind keepsTo_read fun gen _ => ?_
  have hpend : KeepsTo alphabet (fun _ => True)
      (change (·.pendAnchor code) : Generating Rng Unit) :=
    keepsTo_change fun gen hgen => hgen.of_eq rfl rfl rfl
  cases code with
  | beginningString =>
      dsimp only
      split
      · exact Attempt.ensures_pure trivial
      · exact keepsTo_markInvalid
  | beginning =>
      dsimp only
      split
      · exact Attempt.ensures_pure trivial
      · exact keepsTo_markInvalid
  | _ => exact hpend

section Nodes

variable {rounds : Nat}

theorem keepsTo_generateSeq {ops : SubPattern}
    (hops : ∀ op ∈ ops, ∀ path, KeepsTo alphabet (fun _ => True)
      (op.generate sampler t alphabet rounds path)) (path : List Nat) (i : Nat) :
    KeepsTo alphabet (fun _ => True)
      (generateSeq sampler t alphabet rounds path i ops) := by
  induction ops generalizing i with
  | nil => exact Attempt.ensures_pure trivial
  | cons op rest ih =>
      obtain ⟨hop, hrest⟩ := List.forall_mem_cons.mp hops
      exact Attempt.ensures_bind (hop (i :: path))
        fun _ _ => ih hrest (i + 1)

theorem keepsTo_generateBranch {items : List SubPattern} {path : List Nat}
    (hitems : ∀ p ∈ items, ∀ i, KeepsTo alphabet (fun _ => True)
      (generateSeq sampler t alphabet rounds (i :: path) 0 p)) (idx i : Nat) :
    KeepsTo alphabet (fun _ => True)
      (generateBranch sampler t alphabet rounds path idx i items) := by
  induction items generalizing i with
  | nil => exact Attempt.ensures_refuse
  | cons p rest ih =>
      obtain ⟨hp, hrest⟩ := List.forall_mem_cons.mp hitems
      rw [generateBranch]
      split
      · exact hp i
      · exact ih hrest (i + 1)

/-- Every operation keeps to the alphabet. -/
theorem keepsTo_generate (op : OpCode) :
    ∀ path, KeepsTo alphabet (fun _ => True)
      (op.generate sampler t alphabet rounds path) := by
  induction op using OpCode.induction with
  | step op ih =>
      have hseq : ∀ p ∈ op.nested, ∀ path i, KeepsTo alphabet (fun _ => True)
          (generateSeq sampler t alphabet rounds path i p) :=
        fun p hp => keepsTo_generateSeq (ih p hp)
      have hchar : ∀ cp, KeepsTo alphabet (fun _ => True)
          (Attempt.ofExcept (orInternal (codepointToChar cp)) :
            Generating Rng Char) :=
        fun cp => Attempt.ensures_ofExcept fun _ _ => trivial
      intro path
      cases op with
      | literal cp =>
          refine Attempt.ensures_bind (hchar cp) fun c _ => ?_
          exact Attempt.ensures_bind keepsTo_read
            fun gen _ => keepsTo_generateLiteral c _
      | notLiteral cp =>
          refine Attempt.ensures_bind (hchar cp) fun c _ => ?_
          refine Attempt.ensures_bind keepsTo_read fun gen _ => ?_
          exact Attempt.ensures_bind (keepsTo_notLiteralCharsOf cp c _)
            fun chars hchars => keepsTo_emitFromChars hchars
      | any =>
          refine Attempt.ensures_bind keepsTo_read fun gen _ => ?_
          exact Attempt.ensures_bind (keepsTo_anyCharsOf _)
            fun chars hchars => keepsTo_emitFromChars hchars
      | position code => exact keepsTo_generatePosition code
      | inSet items =>
          refine Attempt.ensures_bind keepsTo_read fun gen _ => ?_
          exact Attempt.ensures_bind (keepsTo_inSetChars path items _)
            fun chars hchars => keepsTo_emitFromChars hchars
      | branch items =>
          refine Attempt.ensures_bind (keepsTo_onSource _) fun idx _ => ?_
          exact keepsTo_generateBranch
            (fun p hp i => hseq p hp (i :: path) 0) _ 0
      | subpattern group addFlags delFlags p =>
          refine Attempt.ensures_bind keepsTo_read fun before _ => ?_
          refine Attempt.ensures_bind (keepsTo_change fun gen hgen =>
            hgen.of_eq rfl rfl rfl) fun _ _ => ?_
          refine Attempt.ensures_bind (hseq p List.mem_cons_self path 0)
            fun _ _ => ?_
          refine Attempt.ensures_bind (keepsTo_change fun gen hgen =>
            hgen.of_eq rfl rfl rfl) fun _ _ => ?_
          cases group with
          | some gid =>
              exact keepsTo_change fun gen hgen =>
                hgen.capture gid before.out.length
          | none => exact Attempt.ensures_pure trivial
      | groupRef gid =>
          refine Attempt.ensures_bind keepsTo_read fun gen hgen => ?_
          cases hlookup : gen.state.groups.lookup gid with
          | some val =>
              exact keepsTo_change fun after hafter =>
                hafter.pushStr (hgen.groups gid val hlookup)
          | none => exact keepsTo_markInvalid
      | groupRefExists condGroup yes no =>
          cases no with
          | none =>
              refine Attempt.ensures_bind keepsTo_read fun gen _ => ?_
              split
              · exact hseq yes List.mem_cons_self _ 0
              · exact Attempt.ensures_pure trivial
          | some no =>
              refine Attempt.ensures_bind keepsTo_read fun gen _ => ?_
              split
              · exact hseq yes List.mem_cons_self _ 0
              · exact hseq no (List.mem_cons_of_mem _ List.mem_cons_self) _ 0
      | assert direction p =>
          refine Attempt.ensures_bind keepsTo_read fun gen _ => ?_
          split
          · exact keepsTo_change fun gen hgen => hgen.of_eq rfl rfl rfl
          · exact hseq p List.mem_cons_self path 0
      | assertNot direction p =>
          refine Attempt.ensures_bind keepsTo_read fun gen _ => ?_
          split
          · split
            · exact keepsTo_markInvalid
            · exact Attempt.ensures_pure trivial
          · exact keepsTo_change fun gen hgen => hgen.of_eq rfl rfl rfl
      | failure => exact keepsTo_markInvalid
      | atomicGroup p =>
          exact Attempt.ensures_bind (keepsTo_change fun gen hgen =>
              hgen.of_eq rfl rfl rfl)
            fun _ _ => hseq p List.mem_cons_self path 0
      | repeated kind min max item =>
          refine Attempt.ensures_bind (keepsTo_change fun gen hgen => ?_)
            fun _ _ => keepsTo_repeatMany
              (hseq item List.mem_cons_self path 0) _ _
          split
          · exact hgen.of_eq rfl rfl rfl
          · exact hgen

end Nodes

section Texts

variable {rounds : Nat} {parsed : ParsedPattern} {fullmatch : Bool}

theorem keepsTo_unanchored {pad : Generating Rng Unit}
    (hpad : KeepsTo alphabet (fun _ => True) pad) :
    KeepsTo alphabet (fun _ => True) (unanchored fullmatch pad) := by
  rw [unanchored]
  split
  · exact Attempt.ensures_pure trivial
  · exact hpad

/-- The line break before an anchor is only added where it is allowed. -/
theorem keepsTo_drawPrefix :
    KeepsTo alphabet (fun _ => True) (drawPrefix sampler alphabet parsed) := by
  rw [drawPrefix]
  split
  · exact Attempt.ensures_pure trivial
  · split
    case isTrue hbreak =>
        refine Attempt.ensures_bind keepsTo_drawPad fun _ _ => ?_
        refine keepsTo_change fun gen hgen => ?_
        split
        · exact hgen
        · exact hgen.push hbreak.2
    case isFalse => exact Attempt.ensures_pure trivial
  · exact keepsTo_drawPad

theorem keepsTo_drawSuffix :
    KeepsTo alphabet (fun _ => True) (drawSuffix sampler alphabet parsed) := by
  rw [drawSuffix]
  split
  · exact Attempt.ensures_pure trivial
  · split
    case isTrue hbreak =>
        refine Attempt.ensures_bind (keepsTo_onSource _) fun more _ => ?_
        split
        · refine Attempt.ensures_bind (keepsTo_change fun gen hgen =>
            hgen.push hbreak) fun _ _ => ?_
          split
          · exact keepsTo_drawPad
          · exact Attempt.ensures_pure trivial
        · exact Attempt.ensures_pure trivial
    case isFalse => exact Attempt.ensures_pure trivial
  · exact keepsTo_drawPad

theorem keepsTo_generateText :
    KeepsTo alphabet (fun s => ∀ chars, s = some chars → Within alphabet chars)
      (generateText sampler t alphabet rounds parsed fullmatch) := by
  rw [generateText]
  split
  · refine Attempt.ensures_bind (keepsTo_unanchored keepsTo_drawPad)
      fun _ _ => ?_
    refine Attempt.ensures_bind keepsTo_read fun gen hgen => ?_
    exact Attempt.ensures_pure fun chars hchars =>
      Option.some.inj hchars ▸ hgen.out
  · refine Attempt.ensures_bind (keepsTo_unanchored keepsTo_drawPrefix)
      fun _ _ => ?_
    refine Attempt.ensures_bind (keepsTo_generateSeq
      (fun op _ => keepsTo_generate op) _ _) fun _ _ => ?_
    refine Attempt.ensures_bind (keepsTo_unanchored keepsTo_drawSuffix)
      fun _ _ => ?_
    refine Attempt.ensures_bind keepsTo_read fun gen hgen => ?_
    split
    · exact Attempt.ensures_pure nofun
    · exact Attempt.ensures_pure fun chars hchars =>
        Option.some.inj hchars ▸ hgen.out

theorem generateRegexAttempt_within :
    (generateRegexAttempt sampler t alphabet rounds parsed fullmatch).Ensures
      (fun state => state.1.Coherent alphabet)
      (fun s => ∀ chars, s = some chars → Within alphabet chars) := by
  rintro ⟨caches, source⟩ hcaches
  have hstart : Generation.Keeps alphabet
      ⟨.new parsed.flags fullmatch, caches, []⟩ := ⟨nofun, nofun, hcaches⟩
  have htext := @keepsTo_generateText Rng sampler alphabet t rounds parsed
    fullmatch (⟨.new parsed.flags fullmatch, caches, []⟩, source) hstart
  exact ⟨htext.1.caches, htext.2⟩

/-- Whatever is drawn, and whatever is kept from earlier draws, a text that is
generated keeps to the alphabet. -/
theorem generateRegex_within (sampler : Sampler Rng) (t : RegexTables)
    (alphabet : Option IntervalSet) (rounds : Nat) (parsed : ParsedPattern)
    (fullmatch : Bool) (caches : RegexCaches)
    (hcaches : caches.Coherent alphabet) (source : Source Rng) :
    (generateRegex sampler t alphabet rounds parsed fullmatch).Meets
      (caches, source) fun result state => state.1.Coherent alphabet ∧
        ∀ s, result = .ok s → ∀ c ∈ s, alphabetAllows alphabet c = true := by
  have hattempts : ∀ attempts, (generateAttempts sampler t alphabet rounds
      parsed fullmatch attempts).Ensures
        (fun state => state.1.Coherent alphabet) (Within alphabet) := by
    intro attempts
    induction attempts with
    | zero => exact fun _ hstate => ⟨hstate, nofun⟩
    | succ attempts ih =>
        refine Attempt.ensures_bind generateRegexAttempt_within fun s hs => ?_
        cases s with
        | some s => exact Attempt.ensures_pure (hs s rfl)
        | none => exact ih
  exact hattempts maxAttempts (caches, source) hcaches

/-- The two letters a and b. -/
def twoLetters : IntervalSet :=
  ⟨[(97, 98)], List.pairwise_singleton _ _, by simp, by simp⟩

theorem generateRegex_within_twoLetters :
    RegexCaches.empty.Coherent (some twoLetters) ∧
      (generateRegex Sampler.simplest
        ⟨longSTables, plainData, fun _ _ => .zero⟩ (some twoLetters) 1
        ⟨[.literal 97, .any], 0⟩ false).Meets
          (.empty, Source.forChoices Unit []) fun result state =>
            state.1.Coherent (some twoLetters) ∧ ∀ s, result = .ok s →
              ∀ c ∈ s, alphabetAllows (some twoLetters) c = true :=
  ⟨.empty, generateRegex_within _ _ _ _ _ _ _ .empty _⟩

end Texts

end Keeping

end Hegel
