/-
Both parsers go step by step.  From every state the parser that keeps plain
groups reads what the other one reads and is refused where it is; their trees
are the same but for the parentheses.
-/
import Hegel.KeptGroups

namespace Hegel

section Mirrors

open Attempt Parsing

variable {Value Value' : Type} {rel : Value → Value' → Prop}

/-- A finished sequence and the one of the parser. -/
structure Strips (kept p : SubPattern) : Prop where
  stripped : p = stripSeq kept
  every : ∀ op ∈ kept, op.Every OpCode.Guarded

/-- An operation and the one of the parser while its sequence goes on. -/
structure KeepsNode (kept op : OpCode) : Prop where
  inside : op = kept.stripInside
  branch : kept.isBranch = false
  every : kept.Every OpCode.Guarded

/-- A sequence that goes on and the one of the parser. -/
abbrev KeepsNodes : SubPattern → SubPattern → Prop :=
  List.Forall₂ KeepsNode

/-- Both sequences, with whether the pattern is verbose from here on. -/
def KeepsOn (kept reached : Bool × SubPattern) : Prop :=
  kept.1 = reached.1 ∧ KeepsNodes kept.2 reached.2

theorem KeepsNodes.strips {kept p : SubPattern} (h : KeepsNodes kept p) :
    Strips kept (inlinePlain p) := by
  have hp : p = kept.map OpCode.stripInside := by
    induction h with
    | nil => rfl
    | cons hop _ ih => rw [List.map_cons, ← ih, hop.inside]
  have hkept : ∀ op ∈ kept, op.isBranch = false ∧ op.Every OpCode.Guarded := by
    clear hp
    induction h with
    | nil =>
        intro op hop
        cases hop
    | cons hop _ ih =>
        exact List.forall_mem_cons.mpr ⟨⟨hop.branch, hop.every⟩, ih⟩
  refine ⟨?_, fun op hop => (hkept op hop).2⟩
  rw [hp, inlinePlain_stripInside fun op hop => (hkept op hop).1]

theorem KeepsNodes.append {kept p : SubPattern} {keptOp op : OpCode}
    (h : KeepsNodes kept p) (hop : KeepsNode keptOp op) :
    KeepsNodes (kept ++ [keptOp]) (p ++ [op]) :=
  List.rel_append h (.cons hop .nil)

theorem keeps_leaf {op : OpCode} (hinside : op.stripInside = op)
    (hbranch : op.isBranch = false) (hnested : op.nested = [])
    (hguarded : op.Guarded) : KeepsNode op op :=
  ⟨hinside.symm, hbranch, .leaf hnested hguarded⟩

theorem keeps_literal (cp : Nat) : KeepsNode (.literal cp) (.literal cp) :=
  keeps_leaf rfl rfl rfl trivial

theorem keeps_position (code : AtCode) :
    KeepsNode (.position code) (.position code) :=
  keeps_leaf rfl rfl rfl trivial

theorem keeps_inSet (items : List SetItem) :
    KeepsNode (.inSet items) (.inSet items) :=
  keeps_leaf rfl rfl rfl trivial

theorem keeps_groupRef (gid : Nat) :
    KeepsNode (.groupRef gid) (.groupRef gid) :=
  keeps_leaf rfl rfl rfl trivial

/-- An operation with one sequence in it. -/
theorem keeps_enclosing {kept p : SubPattern} {keptOp op : OpCode}
    (hp : Strips kept p) (hinside : op = keptOp.stripInside)
    (hbranch : keptOp.isBranch = false) (hnested : keptOp.nested = [kept])
    (hguarded : keptOp.Guarded) : KeepsNode keptOp op := by
  refine ⟨hinside, hbranch, .intro hguarded ?_⟩
  rw [hnested]
  exact List.forall_mem_singleton.mpr hp.every

/-- A message that ends the parsing. -/
theorem mirrors_error (msg : String) (offset : Nat) :
    Mirrors rel (Parsing.error msg offset) (Parsing.error msg offset) :=
  mirrors_after fun _ => mirrors_refuse _

theorem mirrors_fault (reason : ParseFault) :
    Mirrors rel (fault reason) (fault reason) :=
  mirrors_refuse reason

theorem mirrors_notRepeatable (msg : String) (here : Nat)
    (this : PatternToken) :
    Mirrors rel (notRepeatable msg here this) (notRepeatable msg here this) :=
  mirrors_after fun _ => mirrors_error _ _

theorem mirrors_unwrap {First : Type} {got : Option First}
    {next : First → Parsing Value} {next' : First → Parsing Value'}
    (hnext : ∀ value, got = some value → Mirrors rel (next value) (next' value)) :
    Mirrors rel (unwrap got >>= next) (unwrap got >>= next') := by
  cases got with
  | none => exact fun state => .refused ParseFault.panicked state
  | some value =>
      rw [unwrap, pure_bind, pure_bind]
      exact hnext value rfl

theorem mirrors_missingParen (start : Nat) :
    Mirrors rel (missingParen start) (missingParen start) :=
  mirrors_after fun _ => mirrors_error _ _

section Leaves

theorem mirrors_groupReference (escape : List Char) :
    Mirrors KeepsNode (groupReference escape) (groupReference escape) := by
  refine mirrors_after fun group => mirrors_after fun state => ?_
  apply mirrors_ite
  · intro _
    apply mirrors_ite
    · exact fun _ => mirrors_error _ _
    · exact fun _ => mirrors_after fun _ => mirrors_pure (keeps_groupRef group)
  · exact fun _ => mirrors_after fun _ => mirrors_error _ _

theorem mirrors_secondDigit (escape : PatternToken) :
    Mirrors KeepsNode (secondDigit escape) (secondDigit escape) := by
  refine mirrors_after fun more => mirrors_after fun more' => ?_
  refine mirrors_after fun octal => mirrors_after fun third => ?_
  apply mirrors_ite
  · intro _
    refine mirrors_after fun _ => mirrors_after fun _ => ?_
    exact mirrors_after fun n => mirrors_pure (keeps_literal n)
  · exact fun _ => mirrors_groupReference _

theorem mirrors_escapeCode (escape : PatternToken) :
    Mirrors KeepsNode (escapeCode escape) (escapeCode escape) := by
  unfold escapeCode
  split
  · exact mirrors_pure (keeps_position _)
  · exact mirrors_pure (keeps_inSet _)
  · exact mirrors_pure (keeps_literal _)
  · split
    · exact mirrors_error _ _
    · have hliteral (cp : Nat) : Mirrors KeepsNode
          (pure (.literal cp) : Parsing OpCode)
          (pure (.literal cp)) := mirrors_pure (keeps_literal cp)
      split_ifs
      · exact mirrors_after fun _ => hliteral _
      · exact mirrors_after fun _ => hliteral _
      · exact mirrors_after fun _ => hliteral _
      · exact mirrors_error _ _
      · exact mirrors_after fun _ => mirrors_after fun _ => hliteral _
      · refine mirrors_after fun next => ?_
        exact mirrors_ite (fun _ => mirrors_secondDigit _)
          fun _ => mirrors_groupReference _
      · exact mirrors_error _ _
      · exact hliteral _

theorem keeps_setOperation (negate : Bool) (set : List SetItem) :
    KeepsNode (setOperation negate set) (setOperation negate set) := by
  unfold setOperation
  split
  · split_ifs
    · exact keeps_leaf rfl rfl rfl trivial
    · exact keeps_literal _
  · exact keeps_inSet _

theorem mirrors_parseSet (rounds : Nat) :
    Mirrors KeepsNode (parseSet rounds) (parseSet rounds) := by
  refine mirrors_after fun here => mirrors_after fun negate => ?_
  exact mirrors_after fun set => mirrors_pure (keeps_setOperation negate _)

end Leaves

section Groups

variable {names : NameClasses} {rounds : Nat} {kept below : Level}

/-- Two levels parse alike. -/
structure LevelsMirror (kept below : Level) : Prop where
  parseSub : ∀ verbose,
    Mirrors Strips (kept.parseSub verbose) (below.parseSub verbose)
  parse : ∀ verbose first,
    Mirrors Strips (kept.parse verbose first) (below.parse verbose first)

variable (hlevels : LevelsMirror kept below)

include hlevels

theorem mirrors_groupBody (start : Nat) (verbose : Bool) (g : GroupOpening) :
    Mirrors KeepsNode (groupBody kept start verbose g)
      (groupBody below start verbose g) := by
  refine mirrors_after fun group => ?_
  refine mirrors_bind (hlevels.parseSub _) fun keptP p hp => ?_
  refine mirrors_after fun closed => ?_
  apply mirrors_ite
  · exact fun _ => mirrors_missingParen start
  · intro _
    refine mirrors_after fun _ => ?_
    apply mirrors_ite
    · intro _
      apply mirrors_ite
      · exact fun _ => mirrors_fault _
      · intro _
        refine mirrors_pure (keeps_enclosing hp ?_ rfl rfl trivial)
        rw [OpCode.stripInside, hp.stripped]
    · intro _
      refine mirrors_pure (keeps_enclosing hp ?_ rfl rfl trivial)
      rw [OpCode.stripInside, hp.stripped]

omit hlevels in
theorem mirrors_assertion (start : Nat) (direction : Int)
    (marker : PatternToken) {keptP p : SubPattern} (hp : Strips keptP p) :
    Mirrors KeepsNode (assertion start direction marker keptP)
      (assertion start direction marker p) := by
  refine mirrors_after fun closed => ?_
  apply mirrors_ite
  · exact fun _ => mirrors_missingParen start
  · intro _
    apply mirrors_ite
    · intro _
      refine mirrors_pure (keeps_enclosing hp ?_ rfl rfl trivial)
      rw [OpCode.stripInside, hp.stripped]
    · intro _
      -- nothing may be left of what is kept
      cases keptP with
      | nil =>
          rw [hp.stripped]
          exact mirrors_pure (keeps_leaf rfl rfl rfl trivial)
      | cons op keptP =>
          have hsome : (!(op :: keptP).isEmpty) = true := rfl
          rw [if_pos hsome]
          have hkeeps : KeepsNode (.assertNot direction (op :: keptP))
              (if p.isEmpty then .failure else .assertNot direction p) := by
            refine keeps_enclosing hp ?_ rfl rfl trivial
            rw [OpCode.stripInside, hp.stripped]
          by_cases hempty : p.isEmpty = true
          · rw [if_pos hempty] at hkeeps
            rw [if_neg (by simp [hempty])]
            exact mirrors_pure hkeeps
          · rw [if_neg hempty] at hkeeps
            rw [if_pos (by simp [hempty])]
            exact mirrors_pure hkeeps

theorem mirrors_lookahead (start : Nat) (verbose : Bool)
    (marker : PatternToken) :
    Mirrors KeepsNode (lookahead kept start verbose marker)
      (lookahead below start verbose marker) :=
  mirrors_bind (hlevels.parseSub verbose)
    fun _ _ hp => mirrors_assertion start 1 marker hp

theorem mirrors_lookbehind (start : Nat) (verbose : Bool) :
    Mirrors KeepsNode (lookbehind kept start verbose)
      (lookbehind below start verbose) := by
  refine mirrors_after fun got => ?_
  cases got with
  | none => exact mirrors_error _ _
  | some lookch =>
      apply mirrors_ite
      · exact fun _ => mirrors_error _ _
      · intro _
        refine mirrors_after fun saved => mirrors_after fun _ => ?_
        refine mirrors_bind (hlevels.parseSub verbose) fun keptP p hp => ?_
        exact mirrors_after fun _ => mirrors_assertion start (-1) lookch hp

/-- The branch for when a group has captured nothing. -/
def StripsOther (kept no : Option SubPattern) : Prop :=
  no = stripOption kept ∧ ∀ p ∈ kept.toList, ∀ op ∈ p, op.Every OpCode.Guarded

theorem mirrors_otherBranch (verbose : Bool) :
    Mirrors StripsOther (otherBranch kept verbose)
      (otherBranch below verbose) := by
  refine mirrors_after fun other => ?_
  apply mirrors_ite
  · intro _
    refine mirrors_bind (hlevels.parse verbose false) fun keptP p hp => ?_
    refine mirrors_after fun next => ?_
    apply mirrors_ite
    · exact fun _ => mirrors_error _ _
    · intro _
      refine mirrors_pure ⟨?_, List.forall_mem_singleton.mpr hp.every⟩
      rw [stripOption, hp.stripped]
  · intro _
    refine mirrors_pure ⟨rfl, fun p hp => ?_⟩
    cases hp

theorem mirrors_conditional (start : Nat) (verbose : Bool) :
    Mirrors KeepsNode (conditional names rounds kept start verbose)
      (conditional names rounds below start verbose) := by
  refine mirrors_after fun condname => ?_
  have hbranches (condgroup : Nat) : Mirrors KeepsNode (do
      checklookbehindgroup condgroup
      let yes ← kept.parse verbose false
      let no ← otherBranch kept verbose
      let closed ← takeMatch ')'
      if !closed then missingParen start
      else pure (.groupRefExists condgroup yes no)) (do
      checklookbehindgroup condgroup
      let yes ← below.parse verbose false
      let no ← otherBranch below verbose
      let closed ← takeMatch ')'
      if !closed then missingParen start
      else pure (.groupRefExists condgroup yes no)) := by
    refine mirrors_after fun _ => ?_
    refine mirrors_bind (hlevels.parse verbose false) fun keptYes yes hyes => ?_
    refine mirrors_bind (mirrors_otherBranch hlevels verbose)
      fun keptNo no hno => ?_
    refine mirrors_after fun closed => ?_
    apply mirrors_ite
    · exact fun _ => mirrors_missingParen start
    · intro _
      refine mirrors_pure ⟨?_, rfl, .intro trivial ?_⟩
      · rw [OpCode.stripInside, hyes.stripped, hno.1]
      · exact List.forall_mem_cons.mpr ⟨hyes.every, hno.2⟩
  apply mirrors_ite
  · exact fun _ => mirrors_after hbranches
  · exact fun _ => mirrors_after hbranches

variable {keptOps ops : SubPattern}

omit hlevels in
theorem mirrors_added {keptProgram program : Parsing OpCode} (verbose : Bool)
    (hops : KeepsNodes keptOps ops)
    (hprogram : Mirrors KeepsNode keptProgram program) :
    Mirrors KeepsOn
      (keptProgram >>= fun op => pure (verbose, keptOps ++ [op]))
      (program >>= fun op => pure (verbose, ops ++ [op])) :=
  mirrors_bind hprogram fun _ _ hop => mirrors_pure ⟨rfl, hops.append hop⟩

theorem mirrors_inlineFlags (start : Nat) (verbose first : Bool)
    (hops : KeepsNodes keptOps ops) (c : Char) :
    Mirrors KeepsOn
      (inlineFlags names rounds kept start verbose first keptOps c)
      (inlineFlags names rounds below start verbose first ops c) := by
  refine mirrors_after fun flags => ?_
  cases flags with
  | some flags =>
      exact mirrors_added verbose hops (mirrors_groupBody hlevels _ _ _)
  | none =>
      have hempty : keptOps.isEmpty = ops.isEmpty := by
        cases hops <;> rfl
      dsimp only
      rw [hempty]
      apply mirrors_ite
      · exact fun _ => mirrors_after fun _ => mirrors_error _ _
      · exact fun _ => mirrors_after fun _ => mirrors_pure ⟨rfl, hops⟩

theorem mirrors_pExtension (start : Nat) (verbose : Bool) :
    Mirrors KeepsNode (pExtension names rounds kept start verbose)
      (pExtension names rounds below start verbose) := by
  refine mirrors_after fun named => ?_
  apply mirrors_ite
  · intro _
    refine mirrors_after fun n => mirrors_after fun _ => ?_
    exact mirrors_groupBody hlevels _ _ _
  · intro _
    refine mirrors_after fun reference => ?_
    apply mirrors_ite
    · intro _
      refine mirrors_after fun n => mirrors_after fun _ => ?_
      refine mirrors_after fun state => ?_
      cases state.groupdict.lookup n with
      | none => exact mirrors_error _ _
      | some gid =>
          apply mirrors_ite
          · exact fun _ => mirrors_error _ _
          · exact fun _ => mirrors_after fun _ => mirrors_pure (keeps_groupRef gid)
    · intro _
      refine mirrors_after fun got => ?_
      cases got with
      | none => exact mirrors_error _ _
      | some ch => exact mirrors_error _ _

/-- Both parsers take the same kinds of groups. -/
theorem groupOperation_mirrors (start : Nat) (verbose : Bool)
    (ch : PatternToken) :
    Option.Rel (Mirrors KeepsNode)
      (groupOperation names rounds kept start verbose ch)
      (groupOperation names rounds below start verbose ch) := by
  rw [groupOperation, groupOperation]
  split_ifs
  · exact .some (mirrors_pExtension hlevels start verbose)
  · exact .some (mirrors_groupBody hlevels start verbose .plain)
  · exact .some (mirrors_lookahead hlevels start verbose ch)
  · exact .some (mirrors_lookbehind hlevels start verbose)
  · exact .some (mirrors_conditional hlevels start verbose)
  · exact .some (mirrors_groupBody hlevels start verbose .atomically)
  · exact .none

theorem mirrors_extension (start : Nat) (verbose first : Bool)
    (hops : KeepsNodes keptOps ops) (ch : PatternToken) :
    Mirrors KeepsOn
      (extension names rounds kept start verbose first keptOps ch)
      (extension names rounds below start verbose first ops ch) := by
  apply mirrors_ite
  · exact fun _ => mirrors_after fun _ => mirrors_pure ⟨rfl, hops⟩
  · intro _
    have hoperation := @groupOperation_mirrors names rounds kept below hlevels
      start verbose ch
    revert hoperation
    generalize groupOperation names rounds kept start verbose ch = keptOperation
    generalize groupOperation names rounds below start verbose ch = operation
    intro hoperation
    cases hoperation with
    | some hprogram => exact mirrors_added verbose hops hprogram
    | none =>
        refine mirrors_after fun c => ?_
        apply mirrors_ite
        · exact fun _ => mirrors_inlineFlags hlevels start verbose first hops c
        · exact fun _ => mirrors_error _ _

theorem mirrors_parseGroup (verbose first : Bool)
    (hops : KeepsNodes keptOps ops) :
    Mirrors KeepsOn (parseGroup names rounds kept verbose first keptOps)
      (parseGroup names rounds below verbose first ops) := by
  refine mirrors_after fun here => mirrors_after fun special => ?_
  apply mirrors_ite
  · intro _
    refine mirrors_after fun got => ?_
    cases got with
    | none => exact mirrors_error _ _
    | some ch => exact mirrors_extension hlevels (here - 1) verbose first hops ch
  · exact fun _ => mirrors_added verbose hops (mirrors_groupBody hlevels _ _ _)

end Groups

section Tokens

variable {names : NameClasses} {rounds : Nat} {kept below : Level}
  {keptOps ops : SubPattern}

theorem isRepeatOpcode_stripInside (op : OpCode) :
    isRepeatOpcode op.stripInside = isRepeatOpcode op := by
  cases op with
  | assertNot direction p =>
      rw [OpCode.stripInside]
      split <;> rfl
  | _ => rfl

theorem stripInside_eq_position {op : OpCode} {code : AtCode} :
    op.stripInside = .position code ↔ op = .position code := by
  cases op with
  | assertNot direction p =>
      rw [OpCode.stripInside]
      split <;> simp
  | _ => simp [OpCode.stripInside]

theorem isBare_of_other {op : OpCode}
    (hposition : ∀ code, op ≠ .position code)
    (hrepeat : isRepeatOpcode op = false) : isBare [op] = false := by
  cases op with
  | position code => exact absurd rfl (hposition code)
  | repeated kind min max item => cases hrepeat
  | _ => rfl

/-- What a quantifier may follow it repeats with its parentheses; the parser
repeats it without them. -/
theorem keeps_repeated {keptOp op : OpCode} (hop : KeepsNode keptOp op)
    (hposition : ∀ code, keptOp ≠ .position code)
    (hrepeat : isRepeatOpcode keptOp = false) (kind : RepeatKind)
    (min max : Nat) :
    KeepsNode (.repeated kind min max [keptOp])
      (.repeated kind min max (repeatedItem op)) := by
  have hstrip : stripSeq [keptOp] = repeatedItem keptOp.stripInside := by
    rw [stripSeq_singleton, stripped_eq hop.branch]
  have hguarded : (OpCode.repeated kind min max [keptOp]).Guarded := by
    refine ⟨isBare_of_other hposition hrepeat, fun hbare => ?_⟩
    cases hplain : isPlain keptOp with
    | true =>
        obtain ⟨p, rfl⟩ := isPlain_eq_true hplain
        exact ⟨p, rfl⟩
    | false =>
        have hinside := (isPlain_stripInside keptOp).trans hplain
        have hother : isBare [keptOp.stripInside] = false := by
          apply isBare_of_other
          · exact fun code hcode => hposition code (stripInside_eq_position.mp hcode)
          · rw [isRepeatOpcode_stripInside, hrepeat]
        rw [hstrip, repeatedItem_of_plain hinside, hother] at hbare
        cases hbare
  refine ⟨?_, rfl, .intro hguarded ?_⟩
  · rw [OpCode.stripInside, hstrip, hop.inside]
  · exact List.forall_mem_singleton.mpr
      (List.forall_mem_singleton.mpr hop.every)

theorem KeepsNodes.dropLast (hops : KeepsNodes keptOps ops) :
    KeepsNodes keptOps.dropLast ops.dropLast := by
  rw [List.dropLast_eq_take, List.dropLast_eq_take, hops.length_eq]
  exact List.forall₂_take _ hops

theorem KeepsNodes.getLast? (hops : KeepsNodes keptOps ops) :
    Option.Rel KeepsNode keptOps.getLast? ops.getLast? := by
  induction hops with
  | nil => exact .none
  | cons hop hrest ih =>
      cases hrest with
      | nil => exact .some hop
      | cons hnext hrest =>
          rw [List.getLast?_cons_cons, List.getLast?_cons_cons]
          exact ih

theorem repeatLast_of_last {op : OpCode} {here min max : Nat}
    {this : PatternToken} (hlast : ops.getLast? = some op)
    (hposition : ∀ code, op ≠ .position code) :
    repeatLast here this min max ops =
      if isRepeatOpcode op then notRepeatable "multiple repeat" here this
      else repeatKind >>= fun kind =>
        pure (ops.dropLast ++ [.repeated kind min max (repeatedItem op)]) := by
  rw [repeatLast, hlast]
  cases op with
  | position code => exact absurd rfl (hposition code)
  | _ => rfl

theorem keepLast_of_last {op : OpCode} {here min max : Nat}
    {this : PatternToken} (hlast : ops.getLast? = some op)
    (hposition : ∀ code, op ≠ .position code) :
    keepLast here this min max ops =
      if isRepeatOpcode op then notRepeatable "multiple repeat" here this
      else repeatKind >>= fun kind =>
        pure (ops.dropLast ++ [.repeated kind min max [op]]) := by
  rw [keepLast, hlast]
  cases op with
  | position code => exact absurd rfl (hposition code)
  | _ => rfl

theorem mirrors_keepLast (here : Nat) (this : PatternToken) (min max : Nat)
    (hops : KeepsNodes keptOps ops) :
    Mirrors KeepsNodes (keepLast here this min max keptOps)
      (repeatLast here this min max ops) := by
  have hlast := hops.getLast?
  cases hkept : keptOps.getLast? with
  | none =>
      rw [hkept] at hlast
      have hreached : ops.getLast? = none := by
        revert hlast
        cases ops.getLast? with
        | none => exact fun _ => rfl
        | some op =>
            intro hlast
            cases hlast
      rw [keepLast, repeatLast, hkept, hreached]
      exact mirrors_notRepeatable _ _ _
  | some keptOp =>
      rw [hkept] at hlast
      obtain ⟨op, hreached, hop⟩ :
          ∃ op, ops.getLast? = some op ∧ KeepsNode keptOp op := by
        revert hlast
        cases ops.getLast? with
        | none =>
            intro hlast
            cases hlast
        | some op =>
            intro hlast
            cases hlast with
            | some hop => exact ⟨op, rfl, hop⟩
      by_cases hposition : ∃ code, keptOp = .position code
      · obtain ⟨code, rfl⟩ := hposition
        rw [hop.inside, stripInside_eq_position.mpr rfl] at hreached
        rw [keepLast, repeatLast, hkept, hreached]
        exact mirrors_notRepeatable _ _ _
      · have hother := not_exists.mp hposition
        have hother' : ∀ code, op ≠ .position code := by
          intro code hcode
          rw [hop.inside] at hcode
          exact hother code (stripInside_eq_position.mp hcode)
        rw [keepLast_of_last hkept hother, repeatLast_of_last hreached hother',
          hop.inside, isRepeatOpcode_stripInside, ← hop.inside]
        apply mirrors_ite
        · exact fun _ => mirrors_notRepeatable _ _ _
        · intro hrepeat
          rw [Bool.not_eq_true] at hrepeat
          refine mirrors_after fun kind => ?_
          exact mirrors_pure
            (hops.dropLast.append (keeps_repeated hop hother hrepeat kind min max))

theorem mirrors_keepRepeat (firstChar : Char) (this : PatternToken)
    (hops : KeepsNodes keptOps ops) :
    Mirrors KeepsNodes (keepRepeat rounds firstChar this keptOps)
      (parseRepeat rounds firstChar this ops) := by
  refine mirrors_after fun here => mirrors_after fun bounds => ?_
  cases bounds with
  | none => exact mirrors_pure (hops.append (keeps_literal _))
  | some bounds => exact mirrors_keepLast here this bounds.1 bounds.2 hops

/-- A quantifier only repeats. -/
theorem parseToken_of_repeatChar {this : PatternToken} {c : Char}
    (hc : repeatChar this = some c) (verbose first : Bool) :
    parseToken names rounds below this verbose first ops =
      parseRepeat rounds c this ops >>= fun ops => pure (verbose, ops) := by
  unfold repeatChar at hc
  split at hc
  next c' =>
    split at hc
    case isTrue hmem =>
        cases hc
        have hother : c ∉ whitespace ∧ c ≠ '#' ∧ c ≠ escapeMark ∧
            c ∈ specialChars ∧ c ≠ '[' := by
          simp only [repeatChars, List.mem_cons, List.not_mem_nil, or_false] at hmem
          rcases hmem with rfl | rfl | rfl | rfl <;> decide
        obtain ⟨hwhite, hcomment, hescape, hspecial, hset⟩ := hother
        rw [parseToken, List.head?_cons, unwrap, pure_bind]
        simp [hwhite, hcomment, hescape, hspecial, hset, hmem]
    case isFalse => cases hc
  next => cases hc

theorem repeatChar_ne_none {this : PatternToken} {firstChar : Char}
    (hfirst : this.head? = some firstChar)
    (hquantifier : (this.length == 1 && decide (firstChar ∈ repeatChars)) = true) :
    repeatChar this ≠ none := by
  obtain ⟨hlength, hmem⟩ := Bool.and_eq_true_iff.mp hquantifier
  obtain ⟨c, rfl⟩ := List.length_eq_one_iff.mp (beq_iff_eq.mp hlength)
  cases hfirst
  rw [repeatChar, if_pos (of_decide_eq_true hmem)]
  exact Option.some_ne_none _

theorem mirrors_keepToken (hlevels : LevelsMirror kept below)
    (this : PatternToken) (verbose first : Bool) (hops : KeepsNodes keptOps ops) :
    Mirrors KeepsOn
      (keepToken names rounds kept this verbose first keptOps)
      (parseToken names rounds below this verbose first ops) := by
  rw [keepToken]
  cases hrepeat : repeatChar this with
  | some firstChar =>
      dsimp only
      rw [parseToken_of_repeatChar hrepeat]
      refine mirrors_bind (mirrors_keepRepeat firstChar this hops) ?_
      exact fun _ _ hrepeated => mirrors_pure ⟨rfl, hrepeated⟩
  | none =>
      have hsame : Mirrors KeepsOn
          (pure (verbose, keptOps) : Parsing (Bool × SubPattern))
          (pure (verbose, ops)) := mirrors_pure ⟨rfl, hops⟩
      have hleaf {op : OpCode} (hop : KeepsNode op op) : Mirrors KeepsOn
          (pure (verbose, keptOps ++ [op]) : Parsing (Bool × SubPattern))
          (pure (verbose, ops ++ [op])) :=
        mirrors_pure ⟨rfl, hops.append hop⟩
      refine mirrors_unwrap fun firstChar hfirst => ?_
      refine mirrors_ite (fun _ => hsame) fun _ => ?_
      refine mirrors_ite (fun _ => mirrors_after fun _ => hsame) fun _ => ?_
      refine mirrors_ite
        (fun _ => mirrors_added verbose hops (mirrors_escapeCode this))
        fun _ => ?_
      refine mirrors_ite (fun _ => hleaf (keeps_literal _)) fun _ => ?_
      refine mirrors_ite
        (fun _ => mirrors_added verbose hops (mirrors_parseSet rounds))
        fun _ => ?_
      refine mirrors_ite (fun hquantifier => ?_) fun _ => ?_
      · exact absurd hrepeat (repeatChar_ne_none hfirst hquantifier)
      refine mirrors_ite
        (fun _ => hleaf (keeps_leaf rfl rfl rfl trivial)) fun _ => ?_
      refine mirrors_ite
        (fun _ => mirrors_parseGroup hlevels verbose first hops) fun _ => ?_
      refine mirrors_ite (fun _ => hleaf (keeps_position _)) fun _ => ?_
      exact mirrors_ite (fun _ => hleaf (keeps_position _))
        fun _ => mirrors_fault _

theorem mirrors_keepTokens (hlevels : LevelsMirror kept below) (first : Bool)
    (left : Nat) (verbose : Bool) (hops : KeepsNodes keptOps ops) :
    Mirrors KeepsNodes (keepTokens names rounds kept first left verbose keptOps)
      (parseTokens names rounds below first left verbose ops) := by
  induction left generalizing verbose keptOps ops with
  | zero => exact mirrors_fault _
  | succ left ih =>
      refine mirrors_after fun next => ?_
      cases next with
      | none => exact mirrors_pure hops
      | some this =>
          apply mirrors_ite
          · exact fun _ => mirrors_pure hops
          · intro _
            refine mirrors_after fun _ => ?_
            refine mirrors_bind
              (mirrors_keepToken hlevels this verbose first hops) ?_
            rintro ⟨verbose', keptOps'⟩ ⟨_, ops'⟩ ⟨rfl, hops'⟩
            exact ih verbose' hops'

theorem mirrors_keepSeq (hlevels : LevelsMirror kept below) (nested : Nat)
    (verbose first : Bool) :
    Mirrors Strips (keepSeq names rounds kept nested verbose first)
      (parse names rounds below nested verbose first) := by
  apply mirrors_ite
  · exact fun _ => mirrors_error _ _
  · intro _
    have htokens := @mirrors_keepTokens names rounds kept below [] [] hlevels
      first rounds verbose .nil
    rw [← bind_pure (keepTokens names rounds kept first rounds verbose [])]
    exact mirrors_bind htokens fun _ _ hops => mirrors_pure hops.strips

theorem mirrors_parseAlternatives (hlevels : LevelsMirror kept below)
    (nested left : Nat) (verbose : Bool) {keptItems items : List SubPattern}
    (hitems : List.Forall₂ Strips keptItems items) :
    Mirrors (List.Forall₂ Strips)
      (parseAlternatives kept nested left verbose keptItems)
      (parseAlternatives below nested left verbose items) := by
  induction left generalizing verbose keptItems items with
  | zero => exact mirrors_fault _
  | succ left ih =>
      have hempty : keptItems.isEmpty = items.isEmpty := by
        cases hitems <;> rfl
      rw [parseAlternatives, parseAlternatives, hempty]
      refine mirrors_bind (hlevels.parse verbose _) fun keptItem item hitem => ?_
      have hmore : List.Forall₂ Strips (keptItems ++ [keptItem])
          (items ++ [item]) := List.rel_append hitems (.cons hitem .nil)
      refine mirrors_after fun bar => ?_
      apply mirrors_ite
      · exact fun _ => mirrors_after fun state => ih _ hmore
      · exact fun _ => mirrors_pure hmore

/-- Alternatives are joined when the parentheses are taken off. -/
theorem strips_keepAlternatives {keptItems items : List SubPattern}
    (hitems : List.Forall₂ Strips keptItems items) :
    Strips (keepAlternatives keptItems) (joinAlternatives items) := by
  have hmap : items = keptItems.map stripSeq := by
    induction hitems with
    | nil => rfl
    | cons hitem _ ih => rw [List.map_cons, ← ih, hitem.stripped]
  have hevery : ∀ p ∈ keptItems, ∀ op ∈ p, op.Every OpCode.Guarded := by
    clear hmap
    induction hitems with
    | nil =>
        intro p hp
        cases hp
    | cons hitem _ ih => exact List.forall_mem_cons.mpr ⟨hitem.every, ih⟩
  unfold keepAlternatives
  split
  next item =>
    refine ⟨?_, hevery item (List.mem_singleton_self item)⟩
    rw [hmap]
    rfl
  next =>
    refine ⟨?_, List.forall_mem_singleton.mpr (.intro trivial hevery)⟩
    rw [hmap, stripSeq_singleton, OpCode.stripped, stripItems_eq]

theorem mirrors_keepSub (hlevels : LevelsMirror kept below) (nested : Nat)
    (verbose : Bool) :
    Mirrors Strips (keepSub rounds kept nested verbose)
      (parseSub rounds below nested verbose) := by
  refine mirrors_bind
    (mirrors_parseAlternatives hlevels nested rounds verbose .nil) ?_
  exact fun _ _ hitems => mirrors_pure (strips_keepAlternatives hitems)

/-- Every level keeps the groups of the level of the parser. -/
theorem keepLevels_mirror (count nested : Nat) :
    LevelsMirror (keepLevels names rounds count nested)
      (levels names rounds count nested) := by
  induction count generalizing nested with
  | zero => exact ⟨fun _ => mirrors_fault _, fun _ _ => mirrors_fault _⟩
  | succ count ih =>
      have hbelow := ih (nested + 1)
      exact ⟨mirrors_keepSub hbelow nested, mirrors_keepSeq hbelow nested⟩

theorem parseWhole_pattern {flags : Nat} {s after : RegexParser}
    {parsed : ParsedPattern}
    (hparsed : parseWhole names rounds flags s = (.ok parsed, after)) :
    ∃ between, (levels names rounds (maxNesting + 3) 0).parseSub
      (hasFlag flags sreFlagVerbose) s = (.ok parsed.pattern, between) := by
  obtain ⟨p, between, hp, hrest⟩ := of_bind_ok hparsed
  refine ⟨between, ?_⟩
  obtain ⟨state, s₁, -, hrest⟩ := of_bind_ok hrest
  rcases hflags : fixFlags state.flags with error | flags'
  · rw [hflags] at hrest
    cases hrest
  · rw [hflags] at hrest
    obtain ⟨next, s₂, -, hrest⟩ := of_bind_ok hrest
    split_ifs at hrest
    · obtain ⟨_, s₃, -, hrest⟩ := of_bind_ok hrest
      cases hrest
      exact hp
    · obtain ⟨here, s₃, -, hrest⟩ := of_bind_ok hrest
      cases hrest
    · cases hrest

/-- Of an accepted pattern there is a tree with its plain groups. -/
theorem keptTree_of_parsePattern {pattern : List Char} {flags : Nat}
    {parsed : ParsedPattern}
    (hparsed : parsePattern names pattern flags = .ok parsed) :
    ∃ kept, keptTree names pattern flags = .ok kept ∧
      Strips kept parsed.pattern := by
  cases hsource : Tokenizer.new pattern with
  | error error =>
      rw [parsePattern, hsource] at hparsed
      cases hparsed
  | ok source =>
      rw [parsePattern, hsource] at hparsed
      rw [keptTree, hsource]
      dsimp only at hparsed ⊢
      generalize (⟨source, RegexState.new flags⟩ : RegexParser) = start at *
      rcases hwhole : parseWhole names (pattern.length + 1) flags start with
        ⟨result, after⟩
      rw [hwhole] at hparsed
      subst hparsed
      obtain ⟨between, hsub⟩ := parseWhole_pattern hwhole
      have halike := (@keepLevels_mirror names (pattern.length + 1)
        (maxNesting + 3) 0).parseSub (hasFlag flags sreFlagVerbose) start
      rw [hsub] at halike
      revert halike
      generalize (keepLevels names (pattern.length + 1)
        (maxNesting + 3) 0).parseSub (hasFlag flags sreFlagVerbose) start =
          outcome
      intro halike
      cases halike with
      | @returned kept _ _ hstrips => exact ⟨kept, rfl, hstrips⟩

end Tokens

end Mirrors

end Hegel
