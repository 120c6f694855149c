/-
The characters a pattern stands for at one place, which are computed twice: as
the list of characters that are generated, and as the test of a character that
is matched.  Upper and lower case are related by tables that need not lead
back to the character they start from.
-/
import Hegel.CharacterSets
import Hegel.RegexSyntax

namespace Hegel

/-- The case mappings of characters. -/
structure CaseTables where
  isLowercase : Char → Bool
  isUppercase : Char → Bool
  toUppercase : Char → List Char
  toLowercase : Char → List Char

section Swapping

variable (tables : CaseTables)

/-- The swapped-case form of a character; empty without one. -/
def swapcaseChars (c : Char) : List Char :=
  if tables.isLowercase c then tables.toUppercase c
  else if tables.isUppercase c then tables.toLowercase c
  else []

/-- The swapped-case form, if it is one other character. -/
def charSwapcase (c : Char) : Option Char :=
  match swapcaseChars tables c with
  | [sw] => if sw = c then none else some sw
  | _ => none

theorem length_le_of_nodup {chars : List Char} (hnodup : chars.Nodup) :
    chars.length ≤ 0x110000 := by
  have hmap : (chars.map Char.toNat).Nodup :=
    hnodup.map fun a b hab => Char.ext (UInt32.toNat_inj.mp hab)
  have hsubset : chars.map Char.toNat ⊆ List.range 0x110000 := by
    intro n hn
    obtain ⟨c, -, rfl⟩ := List.mem_map.mp hn
    rw [List.mem_range]
    rcases c.valid with hlow | hhigh
    · exact lt_of_lt_of_le hlow (by decide)
    · exact hhigh.2
  have hle := (hmap.subperm hsubset).length_le
  rwa [List.length_map, List.length_range] at hle

theorem nodup_push {chars : List Char} (hnodup : chars.Nodup) {c : Char}
    (hnew : c ∉ chars) : (chars ++ [c]).Nodup := by
  rw [← List.concat_eq_append]
  exact hnodup.concat hnew

/-- Go through the stack, its top first, until no new characters turn up. -/
def swapcaseClosure (stack : List Char)
    (blacklist : { chars : List Char // chars.Nodup }) : List Char :=
  match stack with
  | [] => blacklist
  | ch :: rest =>
      if hknown : ch ∈ blacklist.val then swapcaseClosure rest blacklist
      else
        swapcaseClosure ((swapcaseChars tables ch).reverse ++ rest)
          ⟨blacklist.val ++ [ch], nodup_push blacklist.property hknown⟩
termination_by (0x110000 - blacklist.val.length, stack.length)
decreasing_by
  · exact Prod.Lex.right _ (Nat.lt_succ_self _)
  · apply Prod.Lex.left
    have hle := length_le_of_nodup (nodup_push blacklist.property hknown)
    rw [List.length_append, List.length_singleton] at hle ⊢
    omega

/-- The characters that may be taken for a character when case is ignored. -/
def swapcaseBlacklist (c : Char) (flags : Nat) : List Char :=
  if hasFlag flags sreFlagIgnorecase then
    swapcaseClosure tables (swapcaseChars tables c).reverse
      ⟨[c], List.nodup_singleton c⟩
  else [c]

def charsEq (a b : Char) (flags : Nat) : Bool :=
  a == b || hasFlag flags sreFlagIgnorecase &&
    (charSwapcase tables a == some b || charSwapcase tables b == some a)

end Swapping

section Categories

variable (data : UnicodeData)

def isUniSpace (c : Char) : Bool :=
  [' ', '\t', '\n', '\r', '\x0b', '\x0c', '\x1c', '\x1d', '\x1e', '\x1f',
    '\u0085'].contains c || data.isInGroup c.toNat "Z"

def isUniWord (c : Char) : Bool :=
  c == '_' || data.isInGroup c.toNat "L" || data.isInGroup c.toNat "N"

def inCategory (c : Char) : ChCode → Bool
  | .digit => data.isInGroup c.toNat "Nd"
  | .notDigit => !data.isInGroup c.toNat "Nd"
  | .space => isUniSpace data c
  | .notSpace => !isUniSpace data c
  | .word => isUniWord data c
  | .notWord => !isUniWord data c

end Categories

section Gathering

/-- The characters in a range of codepoints. -/
def charsBetween (lo hi : Nat) : List Char :=
  (List.range' lo (hi + 1 - lo)).filterMap charFromU32

/-- The characters of an alphabet that satisfy a predicate; without an alphabet
those of the basic plane. -/
def gatherChars (alphabet : Option IntervalSet) (predicate : Char → Bool) :
    List Char :=
  match alphabet with
  | none => ((List.range 0x10000).filter fun cp => !isSurrogate cp).filterMap
      charFromU32 |>.filter predicate
  | some s => s.intervals.flatMap fun interval =>
      (charsBetween interval.1 interval.2).filter predicate

def alphabetAllows (alphabet : Option IntervalSet) (c : Char) : Bool :=
  match alphabet with
  | none => !isSurrogate c.toNat
  | some s => s.contains c.toNat

end Gathering

section Sets

variable (tables : CaseTables) (data : UnicodeData)

/-- The error of a tree with a number that is no character. -/
def invalidCodepoint (cp : Nat) : InternalError :=
  ⟨"invalid codepoint in regex AST: 0x" ++
    String.ofList (Nat.toDigits 16 cp)⟩

def codepointToChar (cp : Nat) : Except InternalError Char :=
  match charFromU32 cp with
  | some c => .ok c
  | none => .error (invalidCodepoint cp)

def addWithSwapcase (chars : List Char) (c : Char) (flags : Nat) :
    List Char :=
  if hasFlag flags sreFlagIgnorecase then
    match charSwapcase tables c with
    | some sw => chars ++ [c, sw]
    | none => chars ++ [c]
  else chars ++ [c]

/-- Whether the first item negates the set. -/
def isNegated (items : List SetItem) : Bool :=
  items.head? == some .negate

/-- The characters that a set names, with their swaps. -/
def positiveChars (flags : Nat) (chars : List Char) :
    List SetItem → Except InternalError (List Char)
  | [] => .ok chars
  | .negate :: rest => positiveChars flags chars rest
  | .literal cp :: rest => do
      let c ← codepointToChar cp
      positiveChars flags (addWithSwapcase tables chars c flags) rest
  | .range lo hi :: rest =>
      positiveChars flags ((charsBetween lo hi).foldl
        (fun chars c => addWithSwapcase tables chars c flags) chars) rest
  | .category _ :: rest => positiveChars flags chars rest

def categoriesOf (items : List SetItem) : List ChCode :=
  items.filterMap fun
    | .category code => some code
    | _ => none

/-- The characters a set can emit. -/
def buildInSet (items : List SetItem) (flags : Nat)
    (alphabet : Option IntervalSet) : Except InternalError (List Char) := do
  let positive ← positiveChars tables flags [] items
  let categories := categoriesOf items
  let asciiOnly := hasFlag flags sreFlagAscii
  let inCategories c := categories.any fun code => inCategory data c code
  if isNegated items then
    let positiveSet := positive.flatMap fun c =>
      swapcaseBlacklist tables c flags
    return gatherChars alphabet fun c =>
      !(asciiOnly && decide (c.toNat ≥ 128)) && !positiveSet.contains c &&
        !inCategories c
  else
    let named := positive.filter fun c =>
      !(asciiOnly && decide (c.toNat ≥ 128)) && alphabetAllows alphabet c
    let categorised :=
      if categories.isEmpty then []
      else (gatherChars alphabet inCategories).filter fun c =>
        !(asciiOnly && decide (c.toNat ≥ 128))
    -- the first of equal characters is kept
    return (named ++ categorised).eraseDups

/-- The characters a negated literal can emit. -/
def notLiteralChars (c : Char) (flags : Nat) (alphabet : Option IntervalSet) :
    List Char :=
  let blacklist := swapcaseBlacklist tables c flags
  gatherChars alphabet fun c => !blacklist.contains c

/-- The characters a dot can emit. -/
def anyChars (flags : Nat) (alphabet : Option IntervalSet) : List Char :=
  gatherChars alphabet fun c => hasFlag flags sreFlagDotall || c != '\n'

/-- Whether an item of a set contains a character. -/
def itemContains (c : Char) (flags : Nat) : SetItem → Bool
  | .negate => false
  | .literal cp =>
      (charFromU32 cp).any fun lc => charsEq tables c lc flags
  | .range lo hi =>
      decide (lo ≤ c.toNat ∧ c.toNat ≤ hi) ||
        hasFlag flags sreFlagIgnorecase && (charSwapcase tables c).any
          fun sw => decide (lo ≤ sw.toNat ∧ sw.toNat ≤ hi)
  | .category code => inCategory data c code

/-- Whether a set matches a character. -/
def charMatchesSet (items : List SetItem) (c : Char) (flags : Nat) : Bool :=
  let contained := items.any fun item => itemContains tables data c flags item
  if isNegated items then !contained else contained

/-- Whether a dot matches a character. -/
def anyMatches (c : Char) (flags : Nat) : Bool :=
  !(c == '\n' && !hasFlag flags sreFlagDotall)

end Sets

section Membership

variable {tables : CaseTables} {data : UnicodeData}
  {alphabet : Option IntervalSet}

/-- Whether a character is looked at when an alphabet is gone through. -/
def Gathered (alphabet : Option IntervalSet) (c : Char) : Prop :=
  match alphabet with
  | none => c.toNat < 0x10000
  | some s => s.contains c.toNat = true

theorem mem_charsBetween {lo hi : Nat} {c : Char} :
    c ∈ charsBetween lo hi ↔ lo ≤ c.toNat ∧ c.toNat ≤ hi := by
  simp only [charsBetween, List.mem_filterMap, List.mem_range'_1,
    charFromU32_eq_some_iff]
  constructor
  · rintro ⟨cp, hcp, rfl⟩
    omega
  · exact fun h => ⟨c.toNat, by omega, rfl⟩

theorem isSurrogate_toNat (c : Char) : isSurrogate c.toNat = false := by
  rw [Bool.eq_false_iff, ne_eq, IntervalSet.isSurrogate_iff]
  have hvalid := c.valid
  rintro ⟨hlow, hhigh⟩
  rcases hvalid with hbelow | habove
  · exact absurd hlow (Nat.not_le.mpr hbelow)
  · exact absurd hhigh (Nat.not_le.mpr habove.1)

theorem mem_gatherChars {predicate : Char → Bool} {c : Char} :
    c ∈ gatherChars alphabet predicate ↔
      Gathered alphabet c ∧ predicate c = true := by
  cases alphabet with
  | none =>
      simp only [gatherChars, List.mem_filter, List.mem_filterMap,
        List.mem_range, charFromU32_eq_some_iff, Gathered]
      constructor
      · rintro ⟨⟨cp, ⟨hcp, -⟩, rfl⟩, hpredicate⟩
        exact ⟨hcp, hpredicate⟩
      · rintro ⟨hlow, hpredicate⟩
        exact ⟨⟨c.toNat, ⟨hlow, by rw [isSurrogate_toNat]; rfl⟩, rfl⟩,
          hpredicate⟩
  | some s =>
      simp only [gatherChars, List.mem_flatMap, List.mem_filter,
        mem_charsBetween, Gathered]
      rw [← s.covers_iff]
      constructor
      · rintro ⟨interval, hmem, hwithin, hpredicate⟩
        exact ⟨⟨interval, hmem, hwithin⟩, hpredicate⟩
      · rintro ⟨⟨interval, hmem, hwithin⟩, hpredicate⟩
        exact ⟨interval, hmem, hwithin, hpredicate⟩

/-- What is gone through is allowed. -/
theorem Gathered.allows {c : Char} (h : Gathered alphabet c) :
    alphabetAllows alphabet c = true := by
  cases alphabet with
  | none =>
      rw [alphabetAllows, isSurrogate_toNat]
      rfl
  | some s => exact h

/-- The characters a set names, without their swaps. -/
def Listed (items : List SetItem) (c : Char) : Prop :=
  .literal c.toNat ∈ items ∨
    ∃ lo hi, .range lo hi ∈ items ∧ lo ≤ c.toNat ∧ c.toNat ≤ hi

def Categorised (data : UnicodeData) (items : List SetItem) (c : Char) : Prop :=
  ∃ code, .category code ∈ items ∧ inCategory data c code = true

/-- Whether case is ignored and the second character is the swap of the
first. -/
def SwapsTo (tables : CaseTables) (flags : Nat) (c sw : Char) : Prop :=
  hasFlag flags sreFlagIgnorecase = true ∧ charSwapcase tables c = some sw

/-- The characters a set names, and their swaps. -/
def Named (tables : CaseTables) (flags : Nat) (items : List SetItem)
    (c : Char) : Prop :=
  ∃ x, Listed items x ∧ (c = x ∨ SwapsTo tables flags x c)

/-- The numbers of the literals are those of characters. -/
def ScalarItems (items : List SetItem) : Prop :=
  ∀ cp, .literal cp ∈ items → ∃ c : Char, cp = c.toNat

variable {flags : Nat}

theorem mem_addWithSwapcase {chars : List Char} {x c : Char} :
    c ∈ addWithSwapcase tables chars x flags ↔
      c ∈ chars ∨ c = x ∨ SwapsTo tables flags x c := by
  rw [addWithSwapcase, SwapsTo]
  by_cases hignore : hasFlag flags sreFlagIgnorecase = true
  · rw [if_pos hignore]
    cases hswap : charSwapcase tables x with
    | none => simp
    | some sw => simp [hignore, eq_comm]
  · rw [if_neg hignore]
    simp [hignore]

theorem mem_foldl_addWithSwapcase {xs chars : List Char} {c : Char} :
    c ∈ xs.foldl (fun chars x => addWithSwapcase tables chars x flags) chars ↔
      c ∈ chars ∨ ∃ x ∈ xs, c = x ∨ SwapsTo tables flags x c := by
  induction xs generalizing chars with
  | nil => simp
  | cons x xs ih =>
      rw [List.foldl_cons, ih, mem_addWithSwapcase]
      simp only [List.mem_cons, exists_eq_or_imp, or_assoc]

theorem listed_literal {items : List SetItem} {x c : Char} :
    Listed (.literal x.toNat :: items) c ↔ c = x ∨ Listed items c := by
  have hsame : c.toNat = x.toNat ↔ c = x :=
    ⟨fun h => Char.ext (UInt32.toNat_inj.mp h), fun h => by rw [h]⟩
  simp [Listed, hsame, or_assoc]

theorem listed_range {items : List SetItem} {lo hi : Nat} {c : Char} :
    Listed (.range lo hi :: items) c ↔
      c ∈ charsBetween lo hi ∨ Listed items c := by
  rw [mem_charsBetween]
  simp only [Listed, List.mem_cons, reduceCtorEq, false_or, SetItem.range.injEq]
  constructor
  · rintro (hliteral | ⟨lo', hi', ⟨rfl, rfl⟩ | hmem, hwithin⟩)
    · exact .inr (.inl hliteral)
    · exact .inl hwithin
    · exact .inr (.inr ⟨lo', hi', hmem, hwithin⟩)
  · rintro (hwithin | hliteral | ⟨lo', hi', hmem, hwithin⟩)
    · exact .inr ⟨lo, hi, .inl ⟨rfl, rfl⟩, hwithin⟩
    · exact .inl hliteral
    · exact .inr ⟨lo', hi', .inr hmem, hwithin⟩

theorem positiveChars_spec {items : List SetItem} {chars : List Char}
    (hscalar : ScalarItems items) : ∃ positive,
      positiveChars tables flags chars items = .ok positive ∧
        ∀ c, c ∈ positive ↔ c ∈ chars ∨ Named tables flags items c := by
  induction items generalizing chars with
  | nil =>
      refine ⟨chars, rfl, fun c => ?_⟩
      simp [Named, Listed]
  | cons item rest ih =>
      have hrest : ScalarItems rest :=
        fun cp hcp => hscalar cp (List.mem_cons_of_mem _ hcp)
      cases item with
      | negate =>
          obtain ⟨positive, hpositive, hmem⟩ := @ih chars hrest
          refine ⟨positive, hpositive, fun c => ?_⟩
          rw [hmem]
          simp [Named, Listed]
      | category code =>
          obtain ⟨positive, hpositive, hmem⟩ := @ih chars hrest
          refine ⟨positive, hpositive, fun c => ?_⟩
          rw [hmem]
          simp [Named, Listed]
      | literal cp =>
          obtain ⟨x, rfl⟩ := hscalar cp List.mem_cons_self
          obtain ⟨positive, hpositive, hmem⟩ :=
            @ih (addWithSwapcase tables chars x flags) hrest
          refine ⟨positive, ?_, fun c => ?_⟩
          · rw [positiveChars, codepointToChar, charFromU32_toNat]
            exact hpositive
          · rw [hmem, mem_addWithSwapcase, Named, Named, or_assoc]
            simp only [listed_literal, or_and_right, exists_or,
              exists_eq_left]
      | range lo hi =>
          obtain ⟨positive, hpositive, hmem⟩ := @ih _ hrest
          refine ⟨positive, hpositive, fun c => ?_⟩
          rw [hmem, mem_foldl_addWithSwapcase, Named, Named, or_assoc]
          simp only [listed_range, or_and_right, exists_or]

/-- The closure keeps what is known and what is on the stack. -/
theorem mem_swapcaseClosure (stack : List Char)
    (blacklist : { chars : List Char // chars.Nodup }) {c : Char}
    (hc : c ∈ stack ∨ c ∈ blacklist.val) :
    c ∈ swapcaseClosure tables stack blacklist := by
  fun_induction swapcaseClosure tables stack blacklist with
  | case1 blacklist => exact hc.resolve_left List.not_mem_nil
  | case2 blacklist ch rest hknown ih =>
      apply ih
      rw [List.mem_cons] at hc
      rcases hc with (rfl | hrest) | hold
      · exact .inr hknown
      · exact .inl hrest
      · exact .inr hold
  | case3 blacklist ch rest hnew ih =>
      apply ih
      rw [List.mem_cons] at hc
      rcases hc with (rfl | hrest) | hold
      · exact .inr (List.mem_append_right _ (List.mem_singleton_self _))
      · exact .inl (List.mem_append_right _ hrest)
      · exact .inr (List.mem_append_left _ hold)

/-- Nothing turns up outside of a set that holds the stack and its swaps. -/
theorem swapcaseClosure_within {kept : Char → Prop}
    (hswap : ∀ c, kept c → ∀ sw ∈ swapcaseChars tables c, kept sw)
    (stack : List Char) (blacklist : { chars : List Char // chars.Nodup })
    (hstack : ∀ c ∈ stack, kept c) (hblacklist : ∀ c ∈ blacklist.val, kept c) :
    ∀ c ∈ swapcaseClosure tables stack blacklist, kept c := by
  fun_induction swapcaseClosure tables stack blacklist with
  | case1 blacklist => exact hblacklist
  | case2 blacklist ch rest hknown ih =>
      exact ih (fun c hc => hstack c (List.mem_cons_of_mem _ hc)) hblacklist
  | case3 blacklist ch rest hnew ih =>
      have hch := hstack ch List.mem_cons_self
      apply ih
      · intro c hc
        rcases List.mem_append.mp hc with hsw | hrest
        · exact hswap ch hch c (List.mem_reverse.mp hsw)
        · exact hstack c (List.mem_cons_of_mem _ hrest)
      · intro c hc
        rcases List.mem_append.mp hc with hold | hlast
        · exact hblacklist c hold
        · rw [List.mem_singleton.mp hlast]
          exact hch

theorem mem_swapcaseBlacklist_self (c : Char) :
    c ∈ swapcaseBlacklist tables c flags := by
  rw [swapcaseBlacklist]
  split
  · exact mem_swapcaseClosure _ _ (.inr (List.mem_singleton_self c))
  · exact List.mem_singleton_self c

theorem swapcaseChars_of_swap {c sw : Char}
    (hswap : charSwapcase tables c = some sw) :
    swapcaseChars tables c = [sw] := by
  rw [charSwapcase] at hswap
  split at hswap
  next single heq =>
      split at hswap
      case isTrue => cases hswap
      case isFalse =>
        cases hswap
        exact heq
  next => cases hswap

/-- The swap of a character is taken for it. -/
theorem mem_swapcaseBlacklist_swap {c sw : Char}
    (hswap : SwapsTo tables flags c sw) :
    sw ∈ swapcaseBlacklist tables c flags := by
  rw [swapcaseBlacklist, if_pos hswap.1, swapcaseChars_of_swap hswap.2]
  exact mem_swapcaseClosure _ _ (.inl (List.mem_singleton_self sw))

/-- Only characters of a set that holds the swaps of its own are taken for one
of them. -/
theorem swapcaseBlacklist_within {kept : Char → Prop}
    (hswap : ∀ c, kept c → ∀ sw ∈ swapcaseChars tables c, kept sw) {c : Char}
    (hc : kept c) : ∀ b ∈ swapcaseBlacklist tables c flags, kept b := by
  rw [swapcaseBlacklist]
  split
  · apply swapcaseClosure_within hswap
    · exact fun sw hsw => hswap c hc sw (List.mem_reverse.mp hsw)
    · intro b hb
      rw [List.mem_singleton.mp hb]
      exact hc
  · intro b hb
    rw [List.mem_singleton.mp hb]
    exact hc

end Membership

section Agreement

variable {tables : CaseTables} {data : UnicodeData}
  {alphabet : Option IntervalSet} {flags : Nat} {items : List SetItem}

/-- Whether the flags leave a character to a set. -/
def AsciiAllows (flags : Nat) (c : Char) : Prop :=
  hasFlag flags sreFlagAscii = true → c.toNat < 128

/-- What the matcher takes as a member: a character that is named or in a
category, that swaps to a named one, or that a literal swaps to. -/
def Contained (tables : CaseTables) (data : UnicodeData) (flags : Nat)
    (items : List SetItem) (c : Char) : Prop :=
  Listed items c ∨ Categorised data items c ∨
    (∃ x, SwapsTo tables flags c x ∧ Listed items x) ∨
    ∃ x : Char, .literal x.toNat ∈ items ∧ SwapsTo tables flags x c

theorem charsEq_iff {a b : Char} : charsEq tables a b flags = true ↔
    a = b ∨ SwapsTo tables flags a b ∨ SwapsTo tables flags b a := by
  simp only [charsEq, Bool.or_eq_true, Bool.and_eq_true, beq_iff_eq, SwapsTo,
    and_or_left]

theorem contained_iff {c : Char} :
    (items.any fun item => itemContains tables data c flags item) = true ↔
      Contained tables data flags items c := by
  rw [List.any_eq_true]
  constructor
  · rintro ⟨item, hmem, hcontains⟩
    cases item with
    | negate => cases hcontains
    | category code => exact .inr (.inl ⟨code, hmem, hcontains⟩)
    | literal cp =>
        rw [itemContains, Option.any_eq_true] at hcontains
        obtain ⟨x, hx, heq⟩ := hcontains
        obtain rfl := charFromU32_eq_some_iff.mp hx
        rcases charsEq_iff.mp heq with rfl | hswap | hswap
        · exact .inl (.inl hmem)
        · exact .inr (.inr (.inl ⟨x, hswap, .inl hmem⟩))
        · exact .inr (.inr (.inr ⟨x, hmem, hswap⟩))
    | range lo hi =>
        rw [itemContains, Bool.or_eq_true, Bool.and_eq_true,
          decide_eq_true_eq, Option.any_eq_true] at hcontains
        rcases hcontains with hwithin | ⟨hignore, sw, hsw, hwithin⟩
        · exact .inl (.inr ⟨lo, hi, hmem, hwithin⟩)
        · exact .inr (.inr (.inl ⟨sw, ⟨hignore, hsw⟩,
            .inr ⟨lo, hi, hmem, of_decide_eq_true hwithin⟩⟩))
  · have hliteral {x : Char} (hmem : .literal x.toNat ∈ items)
        (heq : charsEq tables c x flags = true) :
        ∃ item ∈ items, itemContains tables data c flags item = true := by
      refine ⟨_, hmem, ?_⟩
      rw [itemContains, charFromU32_toNat]
      exact heq
    rintro (hlisted | ⟨code, hmem, hcode⟩ | ⟨x, hswap, hlisted⟩ |
      ⟨x, hmem, hswap⟩)
    · rcases hlisted with hmem | ⟨lo, hi, hmem, hwithin⟩
      · exact hliteral hmem (charsEq_iff.mpr (.inl rfl))
      · refine ⟨_, hmem, ?_⟩
        rw [itemContains, decide_eq_true hwithin]
        rfl
    · exact ⟨_, hmem, hcode⟩
    · rcases hlisted with hmem | ⟨lo, hi, hmem, hwithin⟩
      · exact hliteral hmem (charsEq_iff.mpr (.inr (.inl hswap)))
      · refine ⟨_, hmem, ?_⟩
        rw [itemContains, hswap.1, hswap.2, Option.any_some,
          decide_eq_true hwithin, Bool.and_true, Bool.or_true]
    · exact hliteral hmem (charsEq_iff.mpr (.inr (.inr hswap)))

theorem inCategories_iff {c : Char} :
    ((categoriesOf items).any fun code => inCategory data c code) = true ↔
      Categorised data items c := by
  simp only [List.any_eq_true, categoriesOf, List.mem_filterMap, Categorised]
  constructor
  · rintro ⟨code, ⟨item, hmem, hitem⟩, hcode⟩
    split at hitem
    · cases hitem
      exact ⟨code, hmem, hcode⟩
    · cases hitem
  · rintro ⟨code, hmem, hcode⟩
    exact ⟨code, ⟨_, hmem, rfl⟩, hcode⟩

theorem asciiAllows_iff {c : Char} :
    (!(hasFlag flags sreFlagAscii && decide (c.toNat ≥ 128))) = true ↔
      AsciiAllows flags c := by
  rw [AsciiAllows, Bool.not_eq_true', Bool.and_eq_false_iff,
    decide_eq_false_iff_not]
  cases hasFlag flags sreFlagAscii <;> simp

/-- The members that are generated. -/
theorem buildInSet_spec (hscalar : ScalarItems items) :
    ∃ chars, buildInSet tables data items flags alphabet = .ok chars ∧
      ∀ c, c ∈ chars ↔ AsciiAllows flags c ∧
        if isNegated items then Gathered alphabet c ∧
          (∀ y, Named tables flags items y →
            c ∉ swapcaseBlacklist tables y flags) ∧
          ¬ Categorised data items c
        else (Named tables flags items c ∧ alphabetAllows alphabet c = true) ∨
          Gathered alphabet c ∧ Categorised data items c := by
  obtain ⟨positive, hpositive, hmem⟩ :=
    @positiveChars_spec tables flags items [] hscalar
  have hnamed (c : Char) :
      c ∈ positive ↔ Named tables flags items c := by
    rw [hmem]
    exact or_iff_right List.not_mem_nil
  have hexcluded (c : Char) : (!(positive.flatMap fun y =>
      swapcaseBlacklist tables y flags).contains c) = true ↔
        ∀ y, Named tables flags items y →
          c ∉ swapcaseBlacklist tables y flags := by
    simp only [Bool.not_eq_true', List.contains_eq_mem, decide_eq_false_iff_not,
      List.mem_flatMap, not_exists, not_and, hnamed]
  have hcategorised (c : Char) : (!((categoriesOf items).any fun code =>
      inCategory data c code)) = true ↔ ¬ Categorised data items c := by
    rw [Bool.not_eq_true', ← Bool.not_eq_true, inCategories_iff]
  have hcategory (c : Char) : (c ∈ if (categoriesOf items).isEmpty then []
      else (gatherChars alphabet fun c => (categoriesOf items).any fun code =>
        inCategory data c code).filter fun c =>
          !(hasFlag flags sreFlagAscii && decide (c.toNat ≥ 128))) ↔
      AsciiAllows flags c ∧ Gathered alphabet c ∧
        Categorised data items c := by
    split
    next hempty =>
        rw [← inCategories_iff, List.isEmpty_iff.mp hempty]
        simp
    next =>
        rw [List.mem_filter, asciiAllows_iff, mem_gatherChars,
          inCategories_iff, and_comm]
  simp only [buildInSet, hpositive, bind, Except.bind]
  split
  next hneg =>
      refine ⟨_, rfl, fun c => ?_⟩
      rw [mem_gatherChars, Bool.and_eq_true, Bool.and_eq_true, asciiAllows_iff,
        hexcluded, hcategorised]
      tauto
  next hpos =>
      refine ⟨_, rfl, fun c => ?_⟩
      rw [List.mem_eraseDups, List.mem_append, List.mem_filter,
        Bool.and_eq_true, asciiAllows_iff, hnamed, hcategory]
      tauto

/-- When the characters of a set that are generated are all matched: when case
is ignored, the swap of a character in a range is a member on its own, and no
character is left in a negated set that swaps to a named one. -/
def SetAgrees (tables : CaseTables) (data : UnicodeData)
    (items : List SetItem) (flags : Nat) (alphabet : Option IntervalSet) :
    Prop :=
  if isNegated items then
    ∀ c x, Gathered alphabet c → AsciiAllows flags c →
      ¬ Categorised data items c → SwapsTo tables flags c x → Listed items x →
        ∃ y, Named tables flags items y ∧ c ∈ swapcaseBlacklist tables y flags
  else
    ∀ lo hi c x, .range lo hi ∈ items → x ∈ charsBetween lo hi →
      SwapsTo tables flags x c → AsciiAllows flags c →
      alphabetAllows alphabet c = true → Listed items c ∨
        Categorised data items c ∨
        (∃ y, SwapsTo tables flags c y ∧ Listed items y) ∨
        ∃ y : Char, .literal y.toNat ∈ items ∧ SwapsTo tables flags y c

theorem charMatchesSet_iff {c : Char} :
    charMatchesSet tables data items c flags = true ↔
      if isNegated items then ¬ Contained tables data flags items c
      else Contained tables data flags items c := by
  rw [charMatchesSet]
  split
  · rw [Bool.not_eq_true', ← Bool.not_eq_true, contained_iff]
  · exact contained_iff

theorem buildInSet_agrees_iff (hscalar : ScalarItems items) :
    (∀ chars, buildInSet tables data items flags alphabet = .ok chars →
      ∀ c ∈ chars, charMatchesSet tables data items c flags = true) ↔
      SetAgrees tables data items flags alphabet := by
  obtain ⟨chars, hchars, hmem⟩ :=
    @buildInSet_spec tables data alphabet flags items hscalar
  simp only [hchars, Except.ok.injEq, forall_eq', hmem, charMatchesSet_iff]
  rw [SetAgrees]
  split
  next hneg =>
      constructor
      · intro hall c x hgathered hascii hcategory hswap hlisted
        by_contra hnone
        push Not at hnone
        exact hall c ⟨hascii, hgathered, hnone, hcategory⟩
          (.inr (.inr (.inl ⟨x, hswap, hlisted⟩)))
      · rintro hagrees c ⟨hascii, hgathered, hnone, hcategory⟩
        rintro (hlisted | hcategorised | ⟨x, hswap, hlisted⟩ |
          ⟨x, hliteral, hswap⟩)
        · exact hnone c ⟨c, hlisted, .inl rfl⟩ (mem_swapcaseBlacklist_self c)
        · exact hcategory hcategorised
        · obtain ⟨y, hy, hc⟩ :=
            hagrees c x hgathered hascii hcategory hswap hlisted
          exact hnone y hy hc
        · exact hnone x ⟨x, .inl hliteral, .inl rfl⟩
            (mem_swapcaseBlacklist_swap hswap)
  next hpos =>
      constructor
      · intro hall lo hi c x hrange hx hswap hascii hallows
        have hlisted : Listed items x :=
          .inr ⟨lo, hi, hrange, mem_charsBetween.mp hx⟩
        exact hall c ⟨hascii, .inl ⟨⟨x, hlisted, .inr hswap⟩, hallows⟩⟩
      · rintro hagrees c ⟨hascii, ⟨⟨x, hlisted, hx⟩, hallows⟩ |
          ⟨-, hcategory⟩⟩
        · rcases hx with rfl | hswap
          · exact .inl hlisted
          · rcases hlisted with hliteral | ⟨lo, hi, hrange, hwithin⟩
            · exact .inr (.inr (.inr ⟨x, hliteral, hswap⟩))
            · exact hagrees lo hi c x hrange (mem_charsBetween.mpr hwithin)
                hswap hascii hallows
        · exact .inr (.inl hcategory)

theorem notLiteralChars_agrees_iff {banned : Char} :
    (∀ c ∈ notLiteralChars tables banned flags alphabet,
      charsEq tables c banned flags = false) ↔
      ∀ c, Gathered alphabet c → SwapsTo tables flags c banned →
        c ∈ swapcaseBlacklist tables banned flags := by
  have hmem (c : Char) : c ∈ notLiteralChars tables banned flags alphabet ↔
      Gathered alphabet c ∧ c ∉ swapcaseBlacklist tables banned flags := by
    rw [notLiteralChars, mem_gatherChars]
    simp
  simp only [hmem, ← Bool.not_eq_true, charsEq_iff]
  constructor
  · intro hall c hgathered hswap
    by_contra hnew
    exact hall c ⟨hgathered, hnew⟩ (.inr (.inl hswap))
  · rintro hagrees c ⟨hgathered, hnew⟩ (rfl | hswap | hswap)
    · exact hnew (mem_swapcaseBlacklist_self c)
    · exact hnew (hagrees c hgathered hswap)
    · exact hnew (mem_swapcaseBlacklist_swap hswap)

theorem anyChars_agrees {c : Char} (hc : c ∈ anyChars flags alphabet) :
    anyMatches c flags = true := by
  rw [anyChars, mem_gatherChars] at hc
  have hcase := hc.2
  rw [anyMatches]
  cases hdotall : hasFlag flags sreFlagDotall with
  | true => simp
  | false =>
      rw [hdotall] at hcase
      simpa using hcase

end Agreement

section Nodes

variable (tables : CaseTables) (data : UnicodeData)

/-- The characters that an operation for one of several characters can
emit. -/
def OpCode.generatedChars (flags : Nat) (alphabet : Option IntervalSet) :
    OpCode → Option (Except InternalError (List Char))
  | .notLiteral cp => some do
      let c ← codepointToChar cp
      return notLiteralChars tables c flags alphabet
  | .any => some (.ok (anyChars flags alphabet))
  | .inSet items => some (buildInSet tables data items flags alphabet)
  | _ => none

/-- Whether such an operation matches a character. -/
def OpCode.matchesChar (flags : Nat) (c : Char) : OpCode → Bool
  | .notLiteral cp =>
      (charFromU32 cp).any fun banned => !charsEq tables c banned flags
  | .any => anyMatches c flags
  | .inSet items => charMatchesSet tables data items c flags
  | _ => false

/-- The numbers in an operation are those of characters. -/
def OpCode.ScalarNode : OpCode → Prop
  | .inSet items => ScalarItems items
  | _ => True

/-- When all characters that are generated are matched. -/
def OpCode.Agrees (flags : Nat) (alphabet : Option IntervalSet) :
    OpCode → Prop
  | .notLiteral cp => ∀ banned, charFromU32 cp = some banned →
      ∀ c, Gathered alphabet c → SwapsTo tables flags c banned →
        c ∈ swapcaseBlacklist tables banned flags
  | .inSet items => SetAgrees tables data items flags alphabet
  | _ => True

variable {tables data}

/-- What is generated for one character is matched if and only if no swap of
case is left over. -/
theorem generatedChars_matches_iff {op : OpCode} (hscalar : op.ScalarNode)
    (flags : Nat) (alphabet : Option IntervalSet) :
    (∀ chars, op.generatedChars tables data flags alphabet =
        some (.ok chars) →
      ∀ c ∈ chars, op.matchesChar tables data flags c = true) ↔
      op.Agrees tables data flags alphabet := by
  cases op with
  | notLiteral cp =>
      simp only [OpCode.generatedChars, codepointToChar, OpCode.matchesChar,
        OpCode.Agrees]
      cases hcp : charFromU32 cp with
      | none => simp [bind, Except.bind]
      | some banned =>
          simp only [bind, Except.bind, pure, Except.pure, Option.some.injEq,
            Except.ok.injEq, forall_eq', Option.any_some, Bool.not_eq_true']
          exact notLiteralChars_agrees_iff
  | any =>
      simp only [OpCode.generatedChars, OpCode.matchesChar, OpCode.Agrees,
        Option.some.injEq, Except.ok.injEq, forall_eq', iff_true]
      exact fun c hc => anyChars_agrees hc
  | inSet items =>
      simp only [OpCode.generatedChars, OpCode.matchesChar, OpCode.Agrees,
        Option.some.injEq]
      exact buildInSet_agrees_iff hscalar
  | _ => simp [OpCode.generatedChars, OpCode.Agrees]

end Nodes

/-- The case mappings of the letter s, which the long s shares. -/
def longSTables : CaseTables where
  isLowercase c := c == 's' || c == '\u017f'
  isUppercase c := c == 'S'
  toUppercase c := if c == 's' || c == '\u017f' then ['S'] else [c]
  toLowercase c := if c == 'S' then ['s'] else [c]

/-- A table without categories. -/
def plainData : UnicodeData where
  generalCategory _ := .cn
  surrogates := nofun

/-- Only the letter s has swaps there, and the long s is none of them. -/
theorem swapcaseChars_longSTables {c : Char} :
    (∀ sw ∈ swapcaseChars longSTables c, sw ≠ '\u017f') ∧
      (swapcaseChars longSTables c = [] ∨ c = 's' ∨ c = '\u017f' ∨
        c = 'S') := by
  have hsmall : c ≠ 's' → c ≠ '\u017f' → c ≠ 'S' →
      swapcaseChars longSTables c = [] := by
    intro hs hlong hS
    simp [swapcaseChars, longSTables, hs, hlong, hS]
  by_cases hs : c = 's'
  · subst hs
    exact ⟨by simp [swapcaseChars, longSTables], .inr (.inl rfl)⟩
  by_cases hlong : c = '\u017f'
  · subst hlong
    exact ⟨by simp [swapcaseChars, longSTables], .inr (.inr (.inl rfl))⟩
  by_cases hS : c = 'S'
  · subst hS
    exact ⟨by simp [swapcaseChars, longSTables], .inr (.inr (.inr rfl))⟩
  rw [hsmall hs hlong hS]
  exact ⟨nofun, .inl rfl⟩

/-- From the letters around s, the swap of s is generated and matched. -/
theorem generatedChars_matches_iff_range :
    ∃ chars, (OpCode.inSet [.range 114 116]).generatedChars longSTables
        plainData sreFlagIgnorecase none = some (.ok chars) ∧ 'S' ∈ chars ∧
      ∀ c ∈ chars, (OpCode.inSet [.range 114 116]).matchesChar longSTables
        plainData sreFlagIgnorecase c = true := by
  have hscalar : (OpCode.inSet [.range 114 116]).ScalarNode := by
    simp [OpCode.ScalarNode, ScalarItems]
  have hlisted : Listed [.range 114 116] 's' :=
    .inr ⟨114, 116, List.mem_singleton_self _, by decide⟩
  obtain ⟨chars, hchars, hmem⟩ := @buildInSet_spec longSTables plainData none
    sreFlagIgnorecase [.range 114 116] hscalar
  have hgenerated : (OpCode.inSet [.range 114 116]).generatedChars longSTables
      plainData sreFlagIgnorecase none = some (.ok chars) :=
    congrArg some hchars
  refine ⟨chars, hgenerated, (hmem 'S').mpr ⟨nofun, .inl ⟨?_, rfl⟩⟩,
    (generatedChars_matches_iff hscalar _ _).mpr ?_ chars hgenerated⟩
  · exact ⟨'s', hlisted, .inr (by constructor <;> decide)⟩
  · intro lo hi c x hrange hx hswap hascii hallows
    simp only [List.mem_singleton, SetItem.range.injEq] at hrange
    obtain ⟨rfl, rfl⟩ := hrange
    rw [mem_charsBetween] at hx
    have hsw := swapcaseChars_of_swap hswap.2
    rcases (@swapcaseChars_longSTables x).2 with hnone | rfl | rfl | rfl
    · rw [hnone] at hsw
      cases hsw
    · -- 's' is the only one with a swap, and that swaps back
      cases hsw
      exact .inr (.inr (.inl ⟨'s', by constructor <;> decide, hlisted⟩))
    · exact absurd hx (by decide)
    · exact absurd hx (by decide)

/-- The long s is not taken for any other character. -/
theorem longS_not_blacklisted {c : Char} (hc : c ≠ '\u017f') (flags : Nat) :
    '\u017f' ∉ swapcaseBlacklist longSTables c flags :=
  fun hmem => swapcaseBlacklist_within
    (fun _ _ => swapcaseChars_longSTables.1) hc _ hmem rfl

/-- The long s is emitted for a class without S, but it is not matched. -/
theorem generatedChars_matches_longS_false :
    ¬ (∀ chars, (OpCode.notLiteral 83).generatedChars longSTables plainData
        sreFlagIgnorecase none = some (.ok chars) →
      ∀ c ∈ chars, (OpCode.notLiteral 83).matchesChar longSTables plainData
        sreFlagIgnorecase c = true) ∧
    ¬ (∀ chars, (OpCode.inSet [.negate, .literal 83, .literal 120]).generatedChars
        longSTables plainData sreFlagIgnorecase none = some (.ok chars) →
      ∀ c ∈ chars, (OpCode.inSet [.negate, .literal 83,
        .literal 120]).matchesChar longSTables plainData sreFlagIgnorecase c =
          true) := by
  have hswap : SwapsTo longSTables sreFlagIgnorecase '\u017f' 'S' := by
    constructor <;> decide
  constructor
  · intro hall
    have hagrees := notLiteralChars_agrees_iff.mp fun c hc => by
      have hmatches : (some 'S').any (fun banned =>
          !charsEq longSTables c banned sreFlagIgnorecase) = true :=
        hall _ rfl c hc
      rwa [Option.any_some, Bool.not_eq_true'] at hmatches
    exact longS_not_blacklisted (by decide) _
      (hagrees '\u017f' (by decide : (0x17f : Nat) < 0x10000) hswap)
  · intro hall
    have hscalar : ScalarItems [.negate, .literal 83, .literal 120] := by
      intro cp hcp
      simp only [List.mem_cons, reduceCtorEq, SetItem.literal.injEq,
        List.not_mem_nil, or_false, false_or] at hcp
      rcases hcp with rfl | rfl
      · exact ⟨'S', rfl⟩
      · exact ⟨'x', rfl⟩
    have hagrees := (buildInSet_agrees_iff hscalar).mp fun chars hchars =>
      hall chars (congrArg some hchars)
    obtain ⟨y, hnamed, hmem⟩ := hagrees '\u017f' 'S'
      (by decide : (0x17f : Nat) < 0x10000) nofun
      (by simp [Categorised]) hswap (.inl (by decide))
    refine longS_not_blacklisted ?_ _ hmem
    rintro rfl
    obtain ⟨x, hlisted, hlong | hsw⟩ := hnamed
    · subst hlong
      rcases hlisted with hliteral | ⟨lo, hi, hrange, -⟩
      · exact absurd hliteral (by decide)
      · simp at hrange
    · have hchars := swapcaseChars_of_swap hsw.2
      exact swapcaseChars_longSTables.1 _
        (hchars ▸ List.mem_singleton_self _) rfl

end Hegel
