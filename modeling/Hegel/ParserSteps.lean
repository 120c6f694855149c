/-
What parsing does to the rest of a pattern.  A computation reads a pattern when
it takes tokens off its rest or refuses it, and never fails in another way;
this is followed from the tokenizer up to the escapes.
-/
import Hegel.RegexParser

namespace Hegel

open Parsing

/-- The token that a text begins with. -/
def firstToken : List Char → Option PatternToken
  | [] => none
  | c :: rest =>
      if c = escapeMark then rest.head?.map fun d => [c, d] else some [c]

inductive IsToken : List Char → Prop where
  | char {c : Char} : c ≠ escapeMark → IsToken [c]
  | escape (c : Char) : IsToken [escapeMark, c]

namespace IsToken

variable {token : List Char}

theorem length_pos (htoken : IsToken token) : 0 < token.length := by
  cases htoken with
  | char _ => exact Nat.one_pos
  | escape c => exact Nat.two_pos

theorem head?_isSome (htoken : IsToken token) : ∃ c, token.head? = some c := by
  cases htoken with
  | char _ => exact ⟨_, rfl⟩
  | escape c => exact ⟨_, rfl⟩

theorem firstToken_append (htoken : IsToken token) (rest : List Char) :
    firstToken (token ++ rest) = some token := by
  cases htoken with
  | char hc => exact if_neg hc
  | escape c => simp [firstToken]

theorem of_firstToken {rest : List Char} (hfirst : firstToken rest = some token) :
    IsToken token ∧ ∃ rest', rest = token ++ rest' := by
  cases rest with
  | nil => cases hfirst
  | cons c rest =>
      rw [firstToken] at hfirst
      split at hfirst
      case isTrue hc =>
          subst hc
          cases rest with
          | nil => cases hfirst
          | cons d rest =>
              cases hfirst
              exact ⟨.escape d, rest, rfl⟩
      case isFalse hc =>
          cases hfirst
          exact ⟨.char hc, rest, rfl⟩

end IsToken

/-- A tokenizer that has the rest of a pattern still to read. -/
structure Tokenizer.At (pattern rest : List Char) (t : Tokenizer) : Prop where
  chars : t.chars = pattern
  unread : rest <:+ pattern
  next : t.next = firstToken rest
  whole : rest ≠ [] → t.next ≠ none
  index : t.index + rest.length = pattern.length + (t.next.getD []).length

section Tokens

variable {pattern rest : List Char} {t : Tokenizer}

theorem Tokenizer.At.cases (hat : t.At pattern rest) :
    rest = [] ∧ t.next = none ∨
      ∃ token rest', IsToken token ∧ rest = token ++ rest' ∧
        t.next = some token := by
  rcases hnext : t.next with _ | token
  · refine .inl ⟨?_, rfl⟩
    by_contra hrest
    exact hat.whole hrest hnext
  · obtain ⟨htoken, rest', hrest⟩ :=
      IsToken.of_firstToken (hat.next.symm.trans hnext)
    exact .inr ⟨token, rest', htoken, hrest, rfl⟩

theorem Tokenizer.At.getElem?_eq (hat : t.At pattern rest) {at' : Nat}
    {behind : List Char} (hbehind : behind <:+ pattern)
    (hindex : at' + behind.length = pattern.length) :
    t.chars[at']? = behind.head? := by
  obtain ⟨before, hpattern⟩ := hbehind
  have hlength : before.length = at' := by
    have hsum := congrArg List.length hpattern
    rw [List.length_append] at hsum
    omega
  rw [hat.chars, ← hpattern, List.getElem?_append_right (by omega), hlength,
    Nat.sub_self, List.head?_eq_getElem?]

end Tokens

/-- The outcome of a computation that has read some of a pattern. -/
def Proper {Value : Type} (pattern : List Char)
    (good : Value → List Char → RegexState → Prop) :
    Except ParseFault Value → RegexParser → Prop
  | .ok value, after => ∃ rest, after.source.At pattern rest ∧
      good value rest after.state
  | .error fault, _ => ∃ error, fault = .refused error

/-- Whatever is read of a pattern, with what is known of the value, of the rest
and of the state. -/
def Reads {Value : Type} (pattern : List Char) (program : Parsing Value)
    (rest : List Char) (state : RegexState)
    (good : Value → List Char → RegexState → Prop) : Prop :=
  ∀ source : Tokenizer, source.At pattern rest →
    program.Meets ⟨source, state⟩ (Proper pattern good)

section Rules

variable {Value Value' : Type} {pattern rest : List Char}
  {state : RegexState}

theorem reads_pure {value : Value}
    {good : Value → List Char → RegexState → Prop}
    (hgood : good value rest state) :
    Reads pattern (pure value) rest state good :=
  fun _ hat => ⟨rest, hat, hgood⟩

theorem reads_bind {program : Parsing Value} {next : Value → Parsing Value'}
    {good : Value' → List Char → RegexState → Prop}
    (hprogram : Reads pattern program rest state fun value rest' state' =>
      Reads pattern (next value) rest' state' good) :
    Reads pattern (program >>= next) rest state good := by
  intro source hat
  apply Attempt.meets_bind
  apply (hprogram source hat).mono
  intro result after hresult
  cases result with
  | ok value =>
      obtain ⟨rest', hat', hnext⟩ := hresult
      exact hnext after.source hat'
  | error fault => exact hresult

theorem Reads.mono {program : Parsing Value}
    {good weaker : Value → List Char → RegexState → Prop}
    (hreads : Reads pattern program rest state good)
    (himplies : ∀ value rest' state', good value rest' state' →
      weaker value rest' state') :
    Reads pattern program rest state weaker := by
  intro source hat
  apply (hreads source hat).mono
  intro result after hresult
  cases result with
  | ok value =>
      obtain ⟨rest', hat', hgood⟩ := hresult
      exact ⟨rest', hat', himplies _ _ _ hgood⟩
  | error fault => exact hresult

theorem reads_refused {error : ParseError}
    {good : Value → List Char → RegexState → Prop} :
    Reads pattern (fault (.refused error)) rest state good :=
  fun _ _ => ⟨error, rfl⟩

theorem reads_unwrap {value : Option Value} {a : Value}
    {good : Value → List Char → RegexState → Prop} (hvalue : value = some a)
    (hgood : good a rest state) :
    Reads pattern (unwrap value) rest state good := by
  subst hvalue
  exact reads_pure hgood

theorem reads_getState {good : RegexState → List Char → RegexState → Prop}
    (hgood : good state rest state) :
    Reads pattern getState rest state good :=
  fun _ hat => ⟨rest, hat, hgood⟩

theorem reads_modifyState {f : RegexState → RegexState}
    {good : Unit → List Char → RegexState → Prop}
    (hgood : good () rest (f state)) :
    Reads pattern (modifyState f) rest state good :=
  fun _ hat => ⟨rest, hat, hgood⟩

theorem reads_checkedSub {x y : Nat}
    {good : Nat → List Char → RegexState → Prop} (hle : y ≤ x)
    (hgood : good (x - y) rest state) :
    Reads pattern (checkedSub x y) rest state good := by
  rw [checkedSub, if_pos hle]
  exact reads_pure hgood

end Rules

section Reading

variable {Value : Type} {pattern rest : List Char} {state : RegexState}

theorem reads_tell {good : Nat → List Char → RegexState → Prop}
    (hgood : ∀ here, rest <:+ pattern → here + rest.length = pattern.length →
      good here rest state) :
    Reads pattern tell rest state good := by
  intro source hat
  have hindex := hat.index
  have hshort := hat.unread.length_le
  have hle : (source.next.getD []).length ≤ source.index := by
    rcases hat.cases with ⟨hrest, hnext⟩ | ⟨token, rest', htoken, hrest, hnext⟩
    · rw [hnext]
      exact Nat.zero_le _
    · omega
  exact reads_checkedSub hle (hgood _ hat.unread (by omega)) source hat

theorem reads_error {msg : String} {offset : Nat}
    {good : Value → List Char → RegexState → Prop} :
    Reads pattern (Parsing.error msg offset) rest state good :=
  reads_bind (reads_tell fun _ _ _ => reads_refused)

theorem reads_since {here : Nat} {good : Nat → List Char → RegexState → Prop}
    (hgood : ∀ offset, good offset rest state) :
    Reads pattern (since here) rest state good :=
  reads_bind (reads_tell fun _ _ _ => reads_pure (hgood _))

theorem reads_nextToken
    {good : Option PatternToken → List Char → RegexState → Prop}
    (hend : rest = [] → good none rest state)
    (htoken : ∀ token rest', IsToken token → rest = token ++ rest' →
      good (some token) rest state) :
    Reads pattern nextToken rest state good := by
  intro source hat
  refine ⟨rest, hat, ?_⟩
  change good source.next rest state
  rcases hat.cases with ⟨hrest, hnext⟩ | ⟨token, rest', htoken', hrest, hnext⟩
  · rw [hnext]
    exact hend hrest
  · rw [hnext]
    exact htoken token rest' htoken' hrest

/-- The token at an index is the one that the text there begins with. -/
theorem advanced_at {source : Tokenizer} {behind : List Char}
    (hchars : source.chars = pattern) (hbehind : behind <:+ pattern)
    (hindex : source.index + behind.length = pattern.length) :
    match source.advanced with
    | .ok after => after.At pattern behind
    | .error _ => True := by
  have hat0 : (⟨pattern, pattern.length, none⟩ : Tokenizer).At pattern [] :=
    ⟨rfl, List.nil_suffix, rfl, fun h => absurd rfl h, by simp⟩
  have hhere : source.chars[source.index]? = behind.head? := by
    rw [hchars]
    exact hat0.getElem?_eq hbehind hindex
  rw [Tokenizer.advanced]
  cases behind with
  | nil =>
      rw [hhere]
      refine ⟨hchars, hbehind, rfl, fun h => absurd rfl h, ?_⟩
      exact hindex
  | cons c behind =>
      have hrest : behind <:+ pattern := (List.suffix_cons c behind).trans hbehind
      have hnext : source.chars[source.index + 1]? = behind.head? := by
        rw [hchars]
        exact hat0.getElem?_eq hrest
          (by rw [List.length_cons] at hindex; omega)
      rw [hhere]
      simp only [List.head?_cons]
      by_cases hc : c = escapeMark
      · rw [if_pos hc, hnext]
        cases behind with
        | nil => trivial
        | cons d behind =>
            refine ⟨hchars, hbehind, ?_, nofun, ?_⟩
            · exact (if_pos hc).symm
            · simp only [List.length_cons, Option.getD_some,
                List.length_nil] at hindex ⊢
              omega
      · rw [if_neg hc]
        refine ⟨hchars, hbehind, ?_, nofun, ?_⟩
        · exact (if_neg hc).symm
        · simp only [List.length_cons, Option.getD_some,
            List.length_nil] at hindex ⊢
          omega

theorem reads_become {source' : Tokenizer} {behind : List Char}
    {good : Unit → List Char → RegexState → Prop}
    (hadvanced : match source'.advanced with
      | .ok after => after.At pattern behind
      | .error _ => True)
    (hgood : good () behind state) :
    Reads pattern (become source'.advanced) rest state good := by
  intro source hat
  rcases hresult : source'.advanced with error | after
  · exact ⟨error, rfl⟩
  · rw [hresult] at hadvanced
    exact ⟨behind, hadvanced, hgood⟩

theorem reads_seek {here : Nat} {behind : List Char}
    {good : Unit → List Char → RegexState → Prop} (hbehind : behind <:+ pattern)
    (hhere : here + behind.length = pattern.length)
    (hgood : good () behind state) :
    Reads pattern (seek here) rest state good := by
  intro source hat
  have hsame : ({ source with index := here } : Tokenizer).chars = pattern :=
    hat.chars
  exact reads_become (advanced_at hsame hbehind hhere) hgood source hat

theorem reads_advance_end {good : Unit → List Char → RegexState → Prop}
    (hgood : good () [] state) :
    Reads pattern advance [] state good := by
  intro source hat
  have hindex := hat.index
  rw [hat.next] at hindex
  exact reads_become (advanced_at hat.chars hat.unread hindex) hgood source hat

theorem reads_advance {token : List Char}
    {good : Unit → List Char → RegexState → Prop} (htoken : IsToken token)
    (hgood : good () rest state) :
    Reads pattern advance (token ++ rest) state good := by
  intro source hat
  have hindex := hat.index
  rw [hat.next, htoken.firstToken_append, Option.getD_some,
    List.length_append] at hindex
  refine reads_become (advanced_at hat.chars
    ((List.suffix_append token rest).trans hat.unread) ?_) hgood source hat
  omega

theorem reads_get {good : Option PatternToken → List Char → RegexState → Prop}
    (hend : rest = [] → good none [] state)
    (htoken : ∀ token rest', IsToken token → rest = token ++ rest' →
      good (some token) rest' state) :
    Reads pattern get rest state good := by
  refine reads_bind (reads_nextToken ?_ ?_)
  · rintro rfl
    exact reads_bind (reads_advance_end (reads_pure (hend rfl)))
  · rintro token rest' htoken' rfl
    exact reads_bind
      (reads_advance htoken' (reads_pure (htoken token rest' htoken' rfl)))

theorem reads_peekNextChar {good : Option Char → List Char → RegexState → Prop}
    (hgood : good rest.head? rest state) :
    Reads pattern peekNextChar rest state good := by
  refine reads_bind (reads_nextToken ?_ ?_)
  · rintro rfl
    exact reads_pure hgood
  · rintro token rest' htoken rfl
    cases htoken with
    | char hc => exact reads_pure hgood
    | escape c => exact reads_pure hgood

theorem reads_takeMatch {ch : Char}
    {good : Bool → List Char → RegexState → Prop} (hch : ch ≠ escapeMark)
    (htaken : ∀ rest', rest = ch :: rest' → good true rest' state)
    (hleft : rest.head? ≠ some ch → good false rest state) :
    Reads pattern (takeMatch ch) rest state good := by
  refine reads_bind (reads_nextToken ?_ ?_)
  · rintro rfl
    rw [if_neg nofun]
    exact reads_pure (hleft nofun)
  · rintro token rest' htoken rfl
    by_cases hsame : token = [ch]
    · subst hsame
      rw [if_pos rfl]
      exact reads_bind (reads_advance htoken (reads_pure (htaken rest' rfl)))
    · rw [if_neg fun h => hsame (Option.some.inj h)]
      refine reads_pure (hleft fun hhead => ?_)
      cases htoken with
      | char hc => exact hsame (congrArg (fun c => [c]) (Option.some.inj hhead))
      | escape c => exact hch (Option.some.inj hhead).symm

theorem reads_getwhile {charset : List Char} {n : Nat}
    {good : List Char → List Char → RegexState → Prop}
    (hgood : ∀ text rest', rest = text ++ rest' → text.length ≤ n →
      (∀ c ∈ text, c ∈ charset) → good text rest' state) :
    Reads pattern (getwhile charset n) rest state good := by
  induction n generalizing rest good with
  | zero => exact reads_pure (hgood [] rest rfl (Nat.le_refl 0) nofun)
  | succ n ih =>
      have hstop := hgood [] rest rfl (Nat.zero_le _) nofun
      refine reads_bind (reads_nextToken (fun _ => reads_pure hstop) ?_)
      rintro token rest' htoken rfl
      cases htoken with
      | escape c => exact reads_pure hstop
      | @char c hc =>
          dsimp only
          split
          case isFalse => exact reads_pure hstop
          case isTrue hmem =>
              refine reads_bind (reads_advance (.char hc) ?_)
              refine reads_bind (ih fun text rest'' hrest hlength htext => ?_)
              subst hrest
              refine reads_pure (hgood (c :: text) rest'' rfl ?_ ?_)
              · exact Nat.succ_le_succ hlength
              · exact List.forall_mem_cons.mpr ⟨hmem, htext⟩

theorem reads_getuntilFrom {terminator : Char} {name : String} {rounds : Nat}
    {result : List Char} {good : List Char → List Char → RegexState → Prop}
    (hrounds : rest.length < rounds)
    (hgood : ∀ text rest', rest' <:+ rest → good text rest' state) :
    Reads pattern (getuntilFrom terminator name rounds result) rest state
      good := by
  induction rounds generalizing rest result with
  | zero => exact absurd hrounds (Nat.not_lt_zero _)
  | succ rounds ih =>
      refine reads_bind (reads_get ?_ ?_)
      · intro _
        dsimp only
        split
        case isTrue => exact reads_error
        case isFalse => exact reads_error
      · rintro token rest' htoken rfl
        have hsuffix := List.suffix_append token rest'
        have hpos := htoken.length_pos
        rw [List.length_append] at hrounds
        dsimp only
        split
        case isTrue =>
            split
            case isTrue => exact reads_error
            case isFalse => exact reads_pure (hgood _ _ hsuffix)
        case isFalse =>
            refine ih (by omega) fun text rest'' hrest => ?_
            exact hgood text rest'' (hrest.trans hsuffix)

end Reading

end Hegel
