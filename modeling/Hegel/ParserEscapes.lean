/-
What escapes, sets, numbers and flags of a pattern are read as.
-/
import Hegel.ParserSteps
import Hegel.RegexShape

namespace Hegel

open Parsing

section Numbers

theorem digitsValue_lt {radix value n : Nat} {text : List Char}
    (hvalue : digitsValue radix value text = some n) :
    n < (value + 1) * radix ^ text.length := by
  induction text generalizing value with
  | nil =>
      cases hvalue
      simp
  | cons c text ih =>
      rw [digitsValue] at hvalue
      split at hvalue
      next d _ =>
          split at hvalue
          case isFalse => cases hvalue
          case isTrue hd =>
              have hle : value * radix + d + 1 ≤ (value + 1) * radix := by
                rw [Nat.succ_mul]
                omega
              calc n < (value * radix + d + 1) * radix ^ text.length :=
                    ih hvalue
                _ ≤ (value + 1) * radix * radix ^ text.length :=
                    Nat.mul_le_mul_right _ hle
                _ = (value + 1) * radix ^ (c :: text).length := by
                    rw [List.length_cons, Nat.pow_succ', Nat.mul_assoc]
      next => cases hvalue

theorem fromStrRadix_lt {radix bound n : Nat} {text : List Char}
    (hn : fromStrRadix radix bound text = some n) :
    n < radix ^ text.length := by
  rw [fromStrRadix] at hn
  split at hn
  case isTrue => cases hn
  case isFalse =>
      have hvalue := digitsValue_lt (Option.filter_eq_some_iff.mp hn).1
      rwa [Nat.zero_add, Nat.one_mul] at hvalue

theorem isScalar_of_lt {n : Nat} (hn : n < 0xD800) : IsScalar n := by
  have hvalid : n.isValidChar := .inl hn
  refine ⟨Char.ofNat n, ?_⟩
  rw [Char.ofNat, dif_pos hvalid]
  rfl

theorem isScalar_of_charFromU32 {n : Nat} (hn : (charFromU32 n).isNone = false) :
    IsScalar n := by
  cases hc : charFromU32 n with
  | none =>
      rw [hc] at hn
      cases hn
  | some c => exact ⟨c, charFromU32_eq_some_iff.mp hc⟩

theorem lookup_mem {Key Value : Type} [BEq Key] [LawfulBEq Key]
    {entries : List (Key × Value)} {key : Key} {value : Value}
    (hlookup : entries.lookup key = some value) : (key, value) ∈ entries := by
  obtain ⟨before, after, rfl, -⟩ := List.lookup_eq_some_iff.mp hlookup
  exact List.mem_append_right _ List.mem_cons_self

theorem lookupEscapeLiteral_scalar {escape : PatternToken} {cp : Nat}
    (hcp : lookupEscapeLiteral escape = some cp) : IsScalar cp := by
  have hsmall : ∀ entry ∈ escapeLiterals, entry.2 < 128 := by
    simp [escapeLiterals]
  unfold lookupEscapeLiteral at hcp
  split at hcp
  next mark c =>
      split at hcp
      case isTrue =>
          have hlt := hsmall _ (lookup_mem hcp)
          exact isScalar_of_lt (by omega)
      case isFalse => cases hcp
  next => cases hcp

end Numbers

section Escapes

variable {pattern rest : List Char} {state : RegexState}

theorem reads_parseEscapeValue {escape text : List Char} {radix : Nat}
    {good : Nat → List Char → RegexState → Prop}
    (hgood : ∀ n < radix ^ text.length, good n rest state) :
    Reads pattern (parseEscapeValue escape text radix) rest state good := by
  rw [parseEscapeValue]
  split
  next n hn => exact reads_pure (hgood n (fromStrRadix_lt hn))
  next => exact reads_error

theorem reads_hexEscape {escape : PatternToken} {count : Nat}
    {good : List Char × Nat → List Char → RegexState → Prop}
    (hgood : ∀ escape' n rest', n < 16 ^ count → rest' <:+ rest →
      good (escape', n) rest' state) :
    Reads pattern (hexEscape escape count) rest state good := by
  refine reads_bind (reads_getwhile ?_)
  rintro more rest' rfl - -
  dsimp only
  split
  case isTrue => exact reads_error
  case isFalse hlength =>
      rw [ne_eq, not_not] at hlength
      refine reads_bind (reads_parseEscapeValue fun n hn => ?_)
      rw [List.length_drop, hlength, Nat.add_sub_cancel] at hn
      exact reads_pure (hgood _ n rest' hn (List.suffix_append more rest'))

theorem reads_scalarEscape {escape : PatternToken} {count : Nat}
    {msg : List Char → String} {good : Nat → List Char → RegexState → Prop}
    (hgood : ∀ n rest', IsScalar n → rest' <:+ rest → good n rest' state) :
    Reads pattern (scalarEscape escape count msg) rest state good := by
  refine reads_bind (reads_hexEscape fun escape' n rest' _ hrest => ?_)
  dsimp only
  split
  case isTrue => exact reads_error
  case isFalse hn =>
      refine reads_pure (hgood n rest' (isScalar_of_charFromU32 ?_) hrest)
      rwa [Bool.not_eq_true] at hn

theorem reads_octalEscape {escape : List Char}
    {good : Nat → List Char → RegexState → Prop}
    (hgood : ∀ n, IsScalar n → good n rest state) :
    Reads pattern (octalEscape escape) rest state good := by
  refine reads_bind (reads_parseEscapeValue fun n _ => ?_)
  split
  case isTrue => exact reads_error
  case isFalse hn =>
      exact reads_pure (hgood n (isScalar_of_lt (by omega)))

def ClassEscape.WellFormed : ClassEscape → Prop
  | .literal cp => IsScalar cp
  | .category _ => True

theorem reads_classEscape {escape : PatternToken}
    {good : ClassEscape → List Char → RegexState → Prop}
    (hgood : ∀ code rest', code.WellFormed → rest' <:+ rest →
      good code rest' state) :
    Reads pattern (classEscape escape) rest state good := by
  have hhere := List.suffix_refl rest
  rw [classEscape]
  split
  next cp hcp =>
      exact reads_pure
        (hgood (.literal cp) rest (lookupEscapeLiteral_scalar hcp) hhere)
  next cat _ _ =>
      exact reads_pure (hgood (.category cat) rest trivial hhere)
  next =>
      split
      next => exact reads_error
      next c _ =>
          split_ifs
          · refine reads_bind (reads_hexEscape fun _ n rest' hn hrest => ?_)
            exact reads_pure
              (hgood (.literal n) rest' (isScalar_of_lt (by omega)) hrest)
          · refine reads_bind (reads_scalarEscape fun n rest' hn hrest => ?_)
            exact reads_pure (hgood (.literal n) rest' hn hrest)
          · refine reads_bind (reads_scalarEscape fun n rest' hn hrest => ?_)
            exact reads_pure (hgood (.literal n) rest' hn hrest)
          · exact reads_error
          · refine reads_bind (reads_getwhile ?_)
            rintro more rest' rfl - -
            refine reads_bind (reads_octalEscape fun n hn => ?_)
            exact reads_pure
              (hgood (.literal n) rest' hn (List.suffix_append more rest'))
          · exact reads_error
          · exact reads_error
          · exact reads_pure (hgood (.literal c.toNat) rest ⟨c, rfl⟩ hhere)

/-- A single operation that nests nothing, and refers at most to a closed
group. -/
structure LeafOf (state : RegexState) (op : OpCode) : Prop where
  wellFormed : op.WellFormed
  nested : op.nested = []
  flat : op.layers = 0
  plain : isPlain op = false
  events : op.events = [] ∨
    ∃ gid, op.events = [.refers gid] ∧ state.checkgroup gid = true

theorem leafOf_literal {cp : Nat} (hcp : IsScalar cp) :
    LeafOf state (.literal cp) :=
  ⟨hcp, rfl, rfl, rfl, .inl rfl⟩

theorem leafOf_position (code : AtCode) : LeafOf state (.position code) :=
  ⟨trivial, rfl, rfl, rfl, .inl rfl⟩

theorem leafOf_inSet {items : List SetItem} (hitems : WellFormedSet items) :
    LeafOf state (.inSet items) :=
  ⟨hitems, rfl, rfl, rfl, .inl rfl⟩

theorem leafOf_groupRef {gid : Nat} (hclosed : state.checkgroup gid = true) :
    LeafOf state (.groupRef gid) :=
  ⟨trivial, rfl, rfl, rfl, .inr ⟨gid, rfl, hclosed⟩⟩

theorem reads_checklookbehindgroup {gid : Nat}
    {good : Unit → List Char → RegexState → Prop} (hgood : good () rest state) :
    Reads pattern (checklookbehindgroup gid) rest state good := by
  refine reads_bind (reads_getState ?_)
  split
  next => exact reads_pure hgood
  next =>
      split_ifs
      · exact reads_error
      · exact reads_error
      · exact reads_pure hgood

theorem reads_groupReference {escape : List Char}
    {good : OpCode → List Char → RegexState → Prop} (hsome : 1 ≤ escape.length)
    (hgood : ∀ op, LeafOf state op → good op rest state) :
    Reads pattern (groupReference escape) rest state good := by
  refine reads_bind (reads_parseEscapeValue fun group _ => ?_)
  refine reads_bind (reads_getState ?_)
  split_ifs with hopened hclosed
  · exact reads_error
  · rw [Bool.not_eq_true, Bool.not_eq_false'] at hclosed
    refine reads_bind (reads_checklookbehindgroup (reads_pure ?_))
    exact hgood _ (leafOf_groupRef hclosed)
  · exact reads_bind (reads_checkedSub hsome reads_error)

theorem reads_startsOctal {first second : Char} {escape : List Char}
    {good : Bool → List Char → RegexState → Prop}
    (hgood : ∀ octal, good octal rest state) :
    Reads pattern (startsOctal (escapeMark :: first :: second :: escape)) rest
      state good := by
  refine reads_bind (reads_unwrap rfl ?_)
  split
  case isTrue => exact reads_bind (reads_unwrap rfl (reads_pure (hgood _)))
  case isFalse => exact reads_pure (hgood false)

/-- A token that must be there. -/
theorem reads_get_unwrap {Value : Type} {next : PatternToken → Parsing Value}
    {good : Value → List Char → RegexState → Prop} (hrest : rest ≠ [])
    (hnext : ∀ token rest', IsToken token → rest = token ++ rest' →
      Reads pattern (next token) rest' state good) :
    Reads pattern (get >>= fun more => unwrap more >>= next) rest state
      good := by
  refine reads_bind (reads_get (fun hend => absurd hend hrest) ?_)
  intro token rest' htoken heq
  exact reads_bind (reads_unwrap rfl (hnext token rest' htoken heq))

theorem ne_nil_of_head?_any {f : Char → Bool} (hany : rest.head?.any f = true) :
    rest ≠ [] := by
  rintro rfl
  cases hany

theorem reads_secondDigit {first : Char}
    {good : OpCode → List Char → RegexState → Prop} (hrest : rest ≠ [])
    (hgood : ∀ op rest', LeafOf state op → rest' <:+ rest →
      good op rest' state) :
    Reads pattern (secondDigit [escapeMark, first]) rest state good := by
  refine reads_get_unwrap hrest fun token rest' htoken heq => ?_
  subst heq
  obtain ⟨second, hsecond⟩ := htoken.head?_isSome
  cases token with
  | nil => cases hsecond
  | cons c more =>
      have hsuffix : rest' <:+ c :: more ++ rest' := List.suffix_append _ _
      refine reads_bind (reads_startsOctal fun octal => ?_)
      refine reads_bind (reads_peekNextChar ?_)
      split
      case isTrue hthird =>
          have hsome := ne_nil_of_head?_any (Bool.and_eq_true_iff.mp hthird).2
          refine reads_get_unwrap hsome fun token' rest'' _ heq => ?_
          refine reads_bind (reads_octalEscape fun n hn => reads_pure ?_)
          refine hgood _ rest'' (leafOf_literal hn) (.trans ?_ hsuffix)
          exact heq ▸ List.suffix_append token' rest''
      case isFalse =>
          exact reads_groupReference (Nat.succ_le_succ (Nat.zero_le _))
            fun op hop => hgood op rest' hop hsuffix

theorem reads_numericEscape {first : Char}
    {good : OpCode → List Char → RegexState → Prop}
    (hgood : ∀ op rest', LeafOf state op → rest' <:+ rest →
      good op rest' state) :
    Reads pattern (numericEscape [escapeMark, first]) rest state good := by
  refine reads_bind (reads_peekNextChar ?_)
  split
  case isTrue hdigit =>
      exact reads_secondDigit (ne_nil_of_head?_any hdigit) hgood
  case isFalse =>
      exact reads_groupReference (Nat.le_add_left 1 1)
        fun op hop => hgood op rest hop (List.suffix_refl rest)

theorem wellFormedSet_category (cat : ChCode) :
    WellFormedSet [.category cat] := by
  have hpositive : Positive [.category cat] :=
    ⟨List.forall_mem_singleton.mpr trivial, by simp⟩
  exact hpositive.wellFormed (List.cons_ne_nil _ _)

theorem reads_escapeCode {first : Char}
    {good : OpCode → List Char → RegexState → Prop}
    (hgood : ∀ op rest', LeafOf state op → rest' <:+ rest →
      good op rest' state) :
    Reads pattern (escapeCode [escapeMark, first]) rest state good := by
  have hhere := List.suffix_refl rest
  rw [escapeCode]
  split
  next code _ =>
      exact reads_pure (hgood _ rest (leafOf_position code) hhere)
  next cat _ =>
      exact reads_pure
        (hgood _ rest (leafOf_inSet (wellFormedSet_category cat)) hhere)
  next cp _ hcp =>
      exact reads_pure
        (hgood _ rest (leafOf_literal (lookupEscapeLiteral_scalar hcp)) hhere)
  next =>
      split
      next => exact reads_error
      next c hc =>
          split_ifs
          · refine reads_bind (reads_hexEscape fun _ n rest' hn hrest => ?_)
            refine reads_pure (hgood _ rest' (leafOf_literal ?_) hrest)
            exact isScalar_of_lt (by omega)
          · refine reads_bind (reads_scalarEscape fun n rest' hn hrest => ?_)
            exact reads_pure (hgood _ rest' (leafOf_literal hn) hrest)
          · refine reads_bind (reads_scalarEscape fun n rest' hn hrest => ?_)
            exact reads_pure (hgood _ rest' (leafOf_literal hn) hrest)
          · exact reads_error
          · refine reads_bind (reads_getwhile ?_)
            rintro more rest' rfl hlength -
            refine reads_bind (reads_parseEscapeValue fun n hn => ?_)
            refine reads_pure (hgood _ rest' (leafOf_literal ?_)
              (List.suffix_append more rest'))
            have hdigits : (List.drop 1 ([escapeMark, first] ++ more)).length ≤
                3 := by
              simp only [List.length_drop, List.length_append,
                List.length_cons, List.length_nil]
              omega
            have hpow := Nat.pow_le_pow_right (show 0 < 8 by decide) hdigits
            exact isScalar_of_lt (by omega)
          · exact reads_numericEscape hgood
          · exact reads_error
          · exact reads_pure (hgood _ rest (leafOf_literal ⟨c, rfl⟩) hhere)

end Escapes

section Sets

variable {Value : Type} {pattern rest : List Char} {state : RegexState}

theorem reads_setCode {cur : PatternToken}
    {good : ClassEscape → List Char → RegexState → Prop} (hcur : IsToken cur)
    (hgood : ∀ code rest', code.WellFormed → rest' <:+ rest →
      good code rest' state) :
    Reads pattern (setCode cur) rest state good := by
  obtain ⟨c, hc⟩ := hcur.head?_isSome
  refine reads_bind (reads_unwrap hc ?_)
  split
  case isTrue => exact reads_classEscape hgood
  case isFalse =>
      exact reads_pure
        (hgood (.literal c.toNat) rest ⟨c, rfl⟩ (List.suffix_refl rest))

theorem reads_unterminatedSet {here : Nat}
    {good : Value → List Char → RegexState → Prop} :
    Reads pattern (unterminatedSet here) rest state good :=
  reads_bind (reads_since fun _ => reads_error)

theorem ClassEscape.WellFormed.positive {code : ClassEscape}
    (hcode : code.WellFormed) : Positive [code.item] := by
  cases code with
  | literal cp => exact ⟨List.forall_mem_singleton.mpr hcode, by
      simp [ClassEscape.item]⟩
  | category cat => exact ⟨List.forall_mem_singleton.mpr trivial, by
      simp [ClassEscape.item]⟩

theorem reads_setRange {cur that : PatternToken} {code1 code2 : ClassEscape}
    {good : SetItem → List Char → RegexState → Prop}
    (hcode1 : code1.WellFormed) (hcode2 : code2.WellFormed)
    (hgood : ∀ item, Positive [item] → good item rest state) :
    Reads pattern (setRange cur that code1 code2) rest state good := by
  cases code1 with
  | category cat => exact reads_error
  | literal lo =>
      cases code2 with
      | category cat => exact reads_error
      | literal hi =>
          rw [setRange]
          dsimp only [ClassEscape.endpoint]
          split
          case isTrue => exact reads_error
          case isFalse hle =>
              refine reads_pure (hgood _ ⟨List.forall_mem_singleton.mpr ?_, ?_⟩)
              · exact ⟨hcode1, hcode2, Nat.le_of_not_lt hle⟩
              · simp

theorem reads_setItems {here rounds : Nat} {set : List SetItem}
    {good : List SetItem → List Char → RegexState → Prop}
    (hrounds : rest.length < rounds) (hset : Positive set)
    (hgood : ∀ set' rest', Positive set' → set' ≠ [] → rest' <:+ rest →
      good set' rest' state) :
    Reads pattern (setItems here rounds set) rest state good := by
  induction rounds generalizing rest set with
  | zero => exact absurd hrounds (Nat.not_lt_zero _)
  | succ rounds ih =>
      refine reads_bind (reads_get (fun _ => reads_unterminatedSet) ?_)
      rintro cur rest₁ hcur rfl
      have hshorter : rest₁.length < rounds := by
        have hpos := hcur.length_pos
        rw [List.length_append] at hrounds
        omega
      have hagain : ∀ {set' : List SetItem} {rest' : List Char},
          Positive set' → rest' <:+ rest₁ →
          Reads pattern (setItems here rounds set') rest' state good := by
        intro set' rest' hset' hrest'
        have hle := hrest'.length_le
        refine ih (by omega) hset' fun set'' rest'' hset'' hsome hrest'' => ?_
        exact hgood set'' rest'' hset'' hsome
          ((hrest''.trans hrest').trans (List.suffix_append cur rest₁))
      dsimp only
      split
      case isTrue hclosed =>
          exact reads_pure
            (hgood set rest₁ hset hclosed.2 (List.suffix_append cur rest₁))
      case isFalse =>
          refine reads_bind (reads_setCode hcur fun code1 rest₂ hcode1 hrest₂ => ?_)
          have hset₁ := hset.append hcode1.positive
          refine reads_bind (reads_takeMatch (by decide) ?_ ?_)
          · rintro rest₃ rfl
            refine reads_bind (reads_get (fun _ => reads_unterminatedSet) ?_)
            rintro that rest₄ hthat rfl
            have hrest₄ : rest₄ <:+ rest₁ :=
              ((List.suffix_append that rest₄).trans
                (List.suffix_cons '-' _)).trans hrest₂
            dsimp only
            split
            case isTrue =>
                refine reads_pure (hgood _ rest₄ ?_ (by simp)
                  (hrest₄.trans (List.suffix_append cur rest₁)))
                have hdash : Positive [.literal '-'.toNat] :=
                  ⟨List.forall_mem_singleton.mpr ⟨'-', rfl⟩, by simp⟩
                rw [List.append_cons]
                exact hset₁.append hdash
            case isFalse =>
                refine reads_bind (reads_setCode hthat
                  fun code2 rest₅ hcode2 hrest₅ => ?_)
                refine reads_bind (reads_setRange hcode1 hcode2
                  fun item hitem => ?_)
                exact hagain (hset.append hitem) (hrest₅.trans hrest₄)
          · intro _
            exact hagain hset₁ hrest₂

theorem setOperation_leafOf {negate : Bool} {set : List SetItem}
    (hset : Positive set) (hsome : set ≠ []) :
    LeafOf state (setOperation negate set) := by
  have hwhole : ∀ items, items = set →
      LeafOf state (.inSet (if negate then .negate :: items else items)) := by
    rintro items rfl
    cases negate with
    | true => exact leafOf_inSet (hset.negated hsome)
    | false => exact leafOf_inSet (hset.wellFormed hsome)
  unfold setOperation
  split
  next cp =>
      have hcp : IsScalar cp := hset.each _ (List.mem_singleton_self _)
      cases negate with
      | true => exact ⟨hcp, rfl, rfl, rfl, .inl rfl⟩
      | false => exact leafOf_literal hcp
  next => exact hwhole set rfl

theorem reads_parseSet {rounds : Nat}
    {good : OpCode → List Char → RegexState → Prop}
    (hrounds : rest.length < rounds)
    (hgood : ∀ op rest', LeafOf state op → rest' <:+ rest →
      good op rest' state) :
    Reads pattern (parseSet rounds) rest state good := by
  refine reads_bind (reads_tell fun here _ _ => ?_)
  have hitems : ∀ (negate : Bool) (rest₁ : List Char), rest₁ <:+ rest →
      Reads pattern (setItems (here - 1) rounds [] >>= fun set =>
        pure (setOperation negate (uniqSet set))) rest₁ state good := by
    intro negate rest₁ hrest₁
    have hle := hrest₁.length_le
    refine reads_bind (reads_setItems (by omega) ⟨nofun, nofun⟩
      fun set rest₂ hset hsome hrest₂ => reads_pure ?_)
    exact hgood _ rest₂
      (setOperation_leafOf hset.uniqSet (uniqSet_ne_nil hsome))
      (hrest₂.trans hrest₁)
  refine reads_bind (reads_takeMatch (by decide) ?_ ?_)
  · rintro rest₁ rfl
    exact hitems true rest₁ (List.suffix_cons _ _)
  · intro _
    exact hitems false rest (List.suffix_refl rest)

end Sets

section Repetitions

variable {Value : Type} {pattern rest : List Char} {state : RegexState}

theorem reads_digitsFrom {rounds : Nat} {text : List Char}
    {good : List Char → List Char → RegexState → Prop}
    (hrounds : rest.length < rounds)
    (hgood : ∀ text' rest', rest' <:+ rest → good text' rest' state) :
    Reads pattern (digitsFrom rounds text) rest state good := by
  induction rounds generalizing rest text with
  | zero => exact absurd hrounds (Nat.not_lt_zero _)
  | succ rounds ih =>
      refine reads_bind (reads_peekNextChar ?_)
      split
      case isFalse => exact reads_pure (hgood _ rest (List.suffix_refl rest))
      case isTrue hdigit =>
          refine reads_get_unwrap (ne_nil_of_head?_any hdigit) ?_
          rintro token rest' htoken rfl
          have hpos := htoken.length_pos
          rw [List.length_append] at hrounds
          refine ih (by omega) fun text' rest'' hrest'' => ?_
          exact hgood text' rest''
            (hrest''.trans (List.suffix_append token rest'))

theorem reads_repetitionNumber {text : List Char}
    {good : Nat → List Char → RegexState → Prop}
    (hgood : ∀ n < maxRepeatCount, good n rest state) :
    Reads pattern (repetitionNumber text) rest state good := by
  rw [repetitionNumber]
  split
  next => exact reads_error
  next n _ =>
      split
      case isTrue => exact reads_error
      case isFalse hn => exact reads_pure (hgood n (Nat.lt_of_not_le hn))

theorem reads_repetitionBounds {here : Nat} {lo hi : List Char}
    {good : Nat × Nat → List Char → RegexState → Prop}
    (hgood : ∀ min max, min ≤ max → good (min, max) rest state) :
    Reads pattern (repetitionBounds here lo hi) rest state good := by
  have hupper : ∀ min ≤ maxRepeatCount, Reads pattern
      (if hi.isEmpty then pure (min, maxRepeatCount)
        else do
          let max ← repetitionNumber hi
          if max < min then do
            let offset ← since here
            Parsing.error "min repeat greater than max repeat" offset
          else pure (min, max)) rest state good := by
    intro min hmin
    split
    case isTrue => exact reads_pure (hgood min maxRepeatCount hmin)
    case isFalse =>
        refine reads_bind (reads_repetitionNumber fun max _ => ?_)
        split
        case isTrue => exact reads_bind (reads_since fun _ => reads_error)
        case isFalse hle =>
            exact reads_pure (hgood min max (Nat.le_of_not_lt hle))
  rw [repetitionBounds]
  split
  case isTrue => exact reads_bind (reads_pure (hupper 0 (Nat.zero_le _)))
  case isFalse =>
      exact reads_bind
        (reads_repetitionNumber fun min hmin => hupper min hmin.le)

theorem reads_braceBounds {rounds here : Nat}
    {good : Option (Nat × Nat) → List Char → RegexState → Prop}
    (hrounds : rest.length < rounds) (hunread : rest <:+ pattern)
    (hhere : here + rest.length = pattern.length)
    (hnone : good none rest state)
    (hsome : ∀ min max rest', min ≤ max → rest' <:+ rest →
      good (some (min, max)) rest' state) :
    Reads pattern (braceBounds rounds here) rest state good := by
  have hclosing : ∀ (lo hi rest₁ : List Char), rest₁ <:+ rest →
      Reads pattern (do
        let closed ← takeMatch (.ofNat 125)
        if closed then do
          let bounds ← repetitionBounds here lo hi
          pure (some bounds)
        else do
          seek here
          pure none) rest₁ state good := by
    intro lo hi rest₁ hrest₁
    refine reads_bind (reads_takeMatch (by decide) ?_ ?_)
    · rintro rest₂ rfl
      refine reads_bind (reads_repetitionBounds fun min max hle => ?_)
      exact reads_pure
        (hsome min max rest₂ hle ((List.suffix_cons _ _).trans hrest₁))
    · intro _
      exact reads_bind (reads_seek hunread hhere (reads_pure hnone))
  refine reads_bind (reads_peekNextChar ?_)
  split
  case isTrue => exact reads_pure hnone
  case isFalse =>
      refine reads_bind (reads_digitsFrom hrounds fun lo rest₁ hrest₁ => ?_)
      refine reads_bind (reads_takeMatch (by decide) ?_ ?_)
      · rintro rest₂ rfl
        have hrest₂ : rest₂ <:+ rest := (List.suffix_cons _ _).trans hrest₁
        have hle := hrest₂.length_le
        refine reads_bind (reads_digitsFrom (by omega)
          fun hi rest₃ hrest₃ => ?_)
        exact hclosing lo hi rest₃ (hrest₃.trans hrest₂)
      · intro _
        exact reads_bind (reads_pure (hclosing lo lo rest₁ hrest₁))

theorem reads_repeatBounds {rounds here : Nat} {firstChar : Char}
    {good : Option (Nat × Nat) → List Char → RegexState → Prop}
    (hfirst : firstChar ∈ repeatChars) (hrounds : rest.length < rounds)
    (hunread : rest <:+ pattern) (hhere : here + rest.length = pattern.length)
    (hnone : good none rest state)
    (hsome : ∀ min max rest', min ≤ max → rest' <:+ rest →
      good (some (min, max)) rest' state) :
    Reads pattern (repeatBounds rounds here [firstChar]) rest state good := by
  have hbounds : ∀ min max, min ≤ max → good (some (min, max)) rest state :=
    fun min max hle => hsome min max rest hle (List.suffix_refl rest)
  rw [repeatBounds]
  split_ifs with hquestion hstar hplus hbrace
  · exact reads_pure (hbounds 0 1 (Nat.zero_le 1))
  · exact reads_pure (hbounds 0 maxRepeatCount (Nat.zero_le _))
  · exact reads_pure (hbounds 1 maxRepeatCount (by decide))
  · exact reads_braceBounds hrounds hunread hhere hnone hsome
  · exfalso
    simp only [List.cons.injEq, and_true] at hquestion hstar hplus hbrace
    simp only [repeatChars, List.mem_cons, List.not_mem_nil, or_false] at hfirst
    tauto

theorem reads_repeatKind {good : RepeatKind → List Char → RegexState → Prop}
    (hgood : ∀ kind rest', rest' <:+ rest → good kind rest' state) :
    Reads pattern repeatKind rest state good := by
  refine reads_bind (reads_takeMatch (by decide) ?_ ?_)
  · rintro rest' rfl
    exact reads_pure (hgood _ rest' (List.suffix_cons _ _))
  · intro _
    refine reads_bind (reads_takeMatch (by decide) ?_ ?_)
    · rintro rest' rfl
      exact reads_pure (hgood _ rest' (List.suffix_cons _ _))
    · intro _
      exact reads_pure (hgood _ rest (List.suffix_refl rest))

theorem reads_notRepeatable {msg : String} {here : Nat} {this : PatternToken}
    {good : Value → List Char → RegexState → Prop} :
    Reads pattern (notRepeatable msg here this) rest state good :=
  reads_bind (reads_since fun _ => reads_error)

theorem reads_repeatLast {here min max : Nat} {this : PatternToken}
    {subpattern : SubPattern}
    {good : SubPattern → List Char → RegexState → Prop}
    (hgood : ∀ before op kind rest', subpattern = before ++ [op] →
      (∀ code, op ≠ .position code) → isRepeatOpcode op = false →
      rest' <:+ rest →
      good (before ++ [.repeated kind min max (repeatedItem op)]) rest'
        state) :
    Reads pattern (repeatLast here this min max subpattern) rest state
      good := by
  rw [repeatLast]
  split
  next => exact reads_notRepeatable
  next => exact reads_notRepeatable
  next op hposition hlast =>
      split
      case isTrue => exact reads_notRepeatable
      case isFalse hrepeat =>
          rw [Bool.not_eq_true] at hrepeat
          obtain ⟨before, rfl⟩ := List.getLast?_eq_some_iff.mp hlast
          refine reads_bind (reads_repeatKind fun kind rest' hrest' => ?_)
          rw [List.dropLast_concat]
          exact reads_pure
            (hgood before op kind rest' rfl hposition hrepeat hrest')

theorem reads_parseRepeat {rounds : Nat} {firstChar : Char}
    {subpattern : SubPattern}
    {good : SubPattern → List Char → RegexState → Prop}
    (hfirst : firstChar ∈ repeatChars) (hrounds : rest.length < rounds)
    (hliteral : good (subpattern ++ [.literal firstChar.toNat]) rest state)
    (hrepeated : ∀ before op kind min max rest', subpattern = before ++ [op] →
      min ≤ max → (∀ code, op ≠ .position code) →
      isRepeatOpcode op = false → rest' <:+ rest →
      good (before ++ [.repeated kind min max (repeatedItem op)]) rest'
        state) :
    Reads pattern (parseRepeat rounds firstChar [firstChar] subpattern) rest
      state good := by
  refine reads_bind (reads_tell fun here hunread hhere => ?_)
  refine reads_bind (reads_repeatBounds hfirst hrounds hunread hhere
    (reads_pure hliteral) fun min max rest₁ hle hrest₁ => ?_)
  refine reads_repeatLast fun before op kind rest₂ heq hposition hrepeat
    hrest₂ => ?_
  exact hrepeated before op kind min max rest₂ heq hle hposition hrepeat
    (hrest₂.trans hrest₁)

end Repetitions

section Flags

variable {Value : Type} {pattern rest : List Char} {state : RegexState}
  {names : NameClasses}

theorem reads_unknownFlag {missing : String} {c : Char} {ch : PatternToken}
    {good : Value → List Char → RegexState → Prop} :
    Reads pattern (unknownFlag names missing c ch) rest state good :=
  reads_error

/-- A token that begins with the letter of a flag. -/
def IsFlag (ch : PatternToken) : Prop :=
  ∃ c flag, ch.head? = some c ∧ flagForChar c = some flag

theorem isFlag_of_isNone {ch : PatternToken} {c : Char} (hc : ch.head? = some c)
    (hflag : ¬(flagForChar c).isNone = true) : IsFlag ch := by
  obtain ⟨flag, hflag⟩ := Option.ne_none_iff_exists'.mp
    (mt Option.isNone_iff_eq_none.mpr hflag)
  exact ⟨c, flag, hc, hflag⟩

theorem flagForChar_ne_zero {c : Char} {flag : Nat}
    (hflag : flagForChar c = some flag) : flag ≠ 0 := by
  unfold flagForChar at hflag
  split at hflag <;> cases hflag <;> decide

theorem or_ne_zero {x flag : Nat} (hflag : flag ≠ 0) : x ||| flag ≠ 0 := by
  intro hzero
  exact hflag (Nat.or_eq_zero_iff.mp hzero).2

theorem reads_addedFlags {rounds addFlags : Nat} {ch : PatternToken}
    {good : PatternToken × Nat → List Char → RegexState → Prop}
    (hrounds : rest.length < rounds) (hch : IsFlag ch)
    (hgood : ∀ n addFlags' rest', n = [')'] ∨ n = ['-'] ∨ n = [':'] →
      addFlags' ≠ 0 → rest' <:+ rest → good (n, addFlags') rest' state) :
    Reads pattern (addedFlags names rounds ch addFlags) rest state good := by
  induction rounds generalizing rest ch addFlags with
  | zero => exact absurd hrounds (Nat.not_lt_zero _)
  | succ rounds ih =>
      obtain ⟨c, flag, hc, hflag⟩ := hch
      refine reads_bind (reads_unwrap hc ?_)
      rw [hflag]
      dsimp only
      split_ifs
      · exact reads_error
      · exact reads_error
      · refine reads_bind (reads_get (fun _ => reads_error) ?_)
        rintro n rest₁ hn rfl
        have hsuffix := List.suffix_append n rest₁
        have hsome := or_ne_zero (x := addFlags) (flagForChar_ne_zero hflag)
        dsimp only
        split
        case isTrue hends => exact reads_pure (hgood n _ rest₁ hends hsome hsuffix)
        case isFalse =>
            obtain ⟨c', hc'⟩ := hn.head?_isSome
            refine reads_bind (reads_unwrap hc' ?_)
            split
            case isTrue => exact reads_unknownFlag
            case isFalse hflag' =>
                have hpos := hn.length_pos
                rw [List.length_append] at hrounds
                refine ih (by omega) (isFlag_of_isNone hc' hflag') ?_
                intro n' addFlags' rest' hn' hadd hrest'
                exact hgood n' addFlags' rest' hn' hadd (hrest'.trans hsuffix)

theorem reads_deletedFlags {rounds delFlags : Nat} {ch : PatternToken}
    {good : Nat → List Char → RegexState → Prop}
    (hrounds : rest.length < rounds) (hch : IsFlag ch)
    (hgood : ∀ delFlags' rest', delFlags' ≠ 0 → rest' <:+ rest →
      good delFlags' rest' state) :
    Reads pattern (deletedFlags names rounds ch delFlags) rest state good := by
  induction rounds generalizing rest ch delFlags with
  | zero => exact absurd hrounds (Nat.not_lt_zero _)
  | succ rounds ih =>
      obtain ⟨c, flag, hc, hflag⟩ := hch
      refine reads_bind (reads_unwrap hc ?_)
      refine reads_bind (reads_unwrap hflag ?_)
      split
      case isTrue => exact reads_error
      case isFalse =>
          refine reads_bind (reads_get (fun _ => reads_error) ?_)
          rintro n rest₁ hn rfl
          have hsuffix := List.suffix_append n rest₁
          have hsome := or_ne_zero (x := delFlags) (flagForChar_ne_zero hflag)
          dsimp only
          split
          case isTrue => exact reads_pure (hgood _ rest₁ hsome hsuffix)
          case isFalse =>
              obtain ⟨c', hc'⟩ := hn.head?_isSome
              refine reads_bind (reads_unwrap hc' ?_)
              split
              case isTrue => exact reads_unknownFlag
              case isFalse hflag' =>
                  have hpos := hn.length_pos
                  rw [List.length_append] at hrounds
                  refine ih (by omega) (isFlag_of_isNone hc' hflag') ?_
                  intro delFlags' rest' hdel hrest'
                  exact hgood delFlags' rest' hdel (hrest'.trans hsuffix)

theorem reads_minusFlags {rounds : Nat}
    {good : Nat → List Char → RegexState → Prop}
    (hrounds : rest.length < rounds)
    (hgood : ∀ delFlags rest', delFlags ≠ 0 → rest' <:+ rest →
      good delFlags rest' state) :
    Reads pattern (minusFlags names rounds) rest state good := by
  refine reads_bind (reads_get (fun _ => reads_error) ?_)
  rintro n rest₁ hn rfl
  have hsuffix := List.suffix_append n rest₁
  obtain ⟨c, hc⟩ := hn.head?_isSome
  refine reads_bind (reads_unwrap hc ?_)
  split
  case isTrue => exact reads_unknownFlag
  case isFalse hflag =>
      have hle := hsuffix.length_le
      refine reads_deletedFlags (by omega) (isFlag_of_isNone hc hflag) ?_
      intro delFlags rest' hdel hrest'
      exact hgood delFlags rest' hdel (hrest'.trans hsuffix)

/-- Flags for a group are not all empty; flags for the whole pattern change the
flags of the state only. -/
theorem reads_parseFlags {rounds : Nat} {firstCh : Char}
    {good : Option (Nat × Nat) → List Char → RegexState → Prop}
    (hrounds : rest.length < rounds)
    (hfirst : firstCh = '-' ∨ IsFlag [firstCh])
    (hwhole : ∀ flags rest', rest' <:+ rest →
      good none rest' { state with flags := flags })
    (hgroup : ∀ addFlags delFlags rest', addFlags ≠ 0 ∨ delFlags ≠ 0 →
      rest' <:+ rest → good (some (addFlags, delFlags)) rest' state) :
    Reads pattern (parseFlags names rounds firstCh) rest state good := by
  have hdone : ∀ (addFlags delFlags : Nat) (rest₁ : List Char),
      addFlags ≠ 0 ∨ delFlags ≠ 0 → rest₁ <:+ rest →
      Reads pattern (if addFlags &&& delFlags != 0 then
        Parsing.error "bad inline flags: flag turned on and off" 1
        else pure (some (addFlags, delFlags))) rest₁ state good := by
    intro addFlags delFlags rest₁ hsome hrest₁
    split
    case isTrue => exact reads_error
    case isFalse => exact reads_pure (hgroup _ _ rest₁ hsome hrest₁)
  have hminus : ∀ (addFlags : Nat) (rest₁ : List Char), rest₁ <:+ rest →
      Reads pattern (minusFlags names rounds >>= fun delFlags =>
        if addFlags &&& delFlags != 0 then
          Parsing.error "bad inline flags: flag turned on and off" 1
        else pure (some (addFlags, delFlags))) rest₁ state good := by
    intro addFlags rest₁ hrest₁
    have hle := hrest₁.length_le
    refine reads_bind (reads_minusFlags (by omega)
      fun delFlags rest₂ hdel hrest₂ => ?_)
    exact hdone addFlags delFlags rest₂ (.inr hdel) (hrest₂.trans hrest₁)
  rw [parseFlags]
  by_cases hdash : firstCh = '-'
  · rw [if_pos hdash]
    refine reads_bind (reads_pure ?_)
    exact hminus 0 rest (List.suffix_refl rest)
  · rw [if_neg hdash]
    refine reads_bind (reads_addedFlags hrounds (hfirst.resolve_left hdash) ?_)
    rintro n addFlags rest₁ hn hadd hrest₁
    rcases hn with rfl | rfl | rfl
    · exact reads_bind (reads_modifyState (reads_pure (hwhole _ rest₁ hrest₁)))
    · exact hminus addFlags rest₁ hrest₁
    · exact reads_bind (reads_pure (hdone addFlags 0 rest₁ (.inl hadd) hrest₁))

end Flags

end Hegel
