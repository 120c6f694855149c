/-
What patterns mean: the places a sequence of operations can lead to, in the
order in which backtracking finds them.  Groups may remember what they match,
and may be matched in other ways when what follows fails, or do neither.
-/
import Hegel.Lib.Prioritised
import Hegel.RegexMatcher

namespace Hegel

/-- How far a match has come, and what its groups have captured. -/
structure Place where
  pos : Nat
  groups : Groups

structure Reading where
  /-- Groups remember the text that they match. -/
  captures : Bool
  /-- Groups and repeated items are matched in other ways if need be. -/
  reenters : Bool

/-- The usual meaning of patterns. -/
def Reading.standard : Reading := ⟨true, true⟩

/-- Groups are given, and each group is atomic. -/
def Reading.settled : Reading := ⟨false, false⟩

namespace Reading

variable (r : Reading)

/-- The ways in which a group or an item is matched. -/
def ways (found : List Place) : List Place :=
  if r.reenters then found else committed found

/-- A place after a group that was matched from a position on. -/
def capture (group : Option Nat) (chars : List Char) (start : Nat)
    (place : Place) : Place :=
  match group with
  | some gid =>
      if r.captures then
        ⟨place.pos, place.groups.insert gid (chars.extract start place.pos)⟩
      else place
  | none => place

end Reading

/-- The categories of characters when only those of ASCII count. -/
def inAsciiCategory (c : Char) (code : ChCode) : Bool :=
  let isSpace := [' ', '\t', '\n', '\r', '\x0b', '\x0c'].contains c
  match code with
  | .digit => c.isDigit
  | .notDigit => !c.isDigit
  | .space => isSpace
  | .notSpace => !isSpace
  | .word => c.isAlphanum || c == '_'
  | .notWord => !(c.isAlphanum || c == '_')

namespace Subject

variable (text : Subject)

/-- Whether a character is in a category, given the flags. -/
def inCategory (c : Char) (flags : Nat) (code : ChCode) : Bool :=
  if hasFlag flags sreFlagAscii then inAsciiCategory c code
  else Hegel.inCategory text.data c code

def itemContains (c : Char) (flags : Nat) : SetItem → Bool
  | .category code => text.inCategory c flags code
  | item => Hegel.itemContains text.tables text.data c flags item

/-- Whether a set contains a character. -/
def setContains (items : List SetItem) (flags : Nat) (c : Char) : Bool :=
  let contained := items.any fun item => text.itemContains c flags item
  if isNegated items then !contained else contained

/-- Whether a position between two parts of the text is one that the code
stands for. -/
def positionHolds (before after : List Char) (flags : Nat) : AtCode → Bool
  | .beginningString => before.isEmpty
  | .beginning => before.isEmpty ||
      hasFlag flags sreFlagMultiline && before.getLast? == some '\n'
  | .atEnd => after.isEmpty || after == ['\n'] ||
      hasFlag flags sreFlagMultiline && after.head? == some '\n'
  | .endString => after.isEmpty
  | .boundary =>
      before.getLast?.any (text.inCategory · flags .word) !=
        after.head?.any (text.inCategory · flags .word)
  | .nonBoundary =>
      before.getLast?.any (text.inCategory · flags .word) ==
        after.head?.any (text.inCategory · flags .word)

/-- Go past one character. -/
def oneChar (test : Char → Bool) (place : Place) : List Place :=
  match text.chars[place.pos]? with
  | some c => if test c then [⟨place.pos + 1, place.groups⟩] else []
  | none => []

end Subject

/-- What ends at a place, wherever it starts. -/
def behind (search : Place → List Place) (place : Place) : List Place :=
  (List.range (place.pos + 1)).flatMap fun start =>
    (search ⟨start, place.groups⟩).filter fun t => t.pos == place.pos

/-- What an assertion looks at, in its direction. -/
def looking (direction : Int) (search : Place → List Place) (place : Place) :
    List Place :=
  if 0 ≤ direction then search place else behind search place

/-- A round of a repetition that did not move on. -/
def roundStuck (place next : Place) : Bool :=
  decide (next.pos ≤ place.pos)

/-- The rounds that may follow those that have to be made.  No more of them move
on than there are characters, which is a bound where the repeat has none. -/
def roundsAfter (min max textLength : Nat) : Nat :=
  match repeatLimit max with
  | some limit => limit - min
  | none => textLength + 1

/-- What comes of repeating an item. -/
def repetitions (kind : RepeatKind) (min max textLength : Nat)
    (step : Place → List Place) (place : Place) : List Place :=
  let found lazily := (exactly step min place).flatMap
    (further lazily roundStuck step (roundsAfter min max textLength))
  match kind with
  | .greedy => found false
  | .lazy => found true
  | .possessive => committed (found false)

section Results

variable (r : Reading) (text : Subject)

mutual

/-- The places that one operation leads to. -/
def OpCode.results (op : OpCode) (flags : Nat) (place : Place) : List Place :=
  match op with
  | .literal cp => text.oneChar (fun c =>
      (charFromU32 cp).any fun want => charsEq text.tables c want flags) place
  | .notLiteral cp => text.oneChar (fun c =>
      (charFromU32 cp).any fun banned => !charsEq text.tables c banned flags)
      place
  | .any => text.oneChar (anyMatches · flags) place
  | .inSet items => text.oneChar (text.setContains items flags) place
  | .position code =>
      if text.positionHolds (text.chars.take place.pos)
          (text.chars.drop place.pos) flags code then [place] else []
  | .branch items => branchResults items flags place
  | .subpattern group addFlags delFlags p =>
      (r.ways (seqResults p (scopedFlags flags addFlags delFlags) place)).map
        (r.capture group text.chars place.pos)
  | .groupRef gid =>
      match place.groups.lookup gid with
      | some val =>
          if repeatsAt text val place.pos flags then
            [⟨place.pos + val.length, place.groups⟩]
          else []
      | none => []
  | .groupRefExists condGroup yes no =>
      if condGroup ∈ place.groups then seqResults yes flags place
      else
        match no with
        | some no => seqResults no flags place
        | none => [place]
  | .assert direction p =>
      (committed (looking direction (fun s => seqResults p flags s)
        place)).map fun t => ⟨place.pos, t.groups⟩
  | .assertNot direction p =>
      if (looking direction (fun s => seqResults p flags s) place).isEmpty then
        [place]
      else []
  | .atomicGroup p => committed (seqResults p flags place)
  | .repeated kind min max item =>
      repetitions kind min max text.chars.length
        (fun s => r.ways (seqResults item flags s)) place
  | .failure => []

def seqResults (ops : List OpCode) (flags : Nat) (place : Place) :
    List Place :=
  match ops with
  | [] => [place]
  | op :: rest => (op.results flags place).flatMap fun next =>
      seqResults rest flags next

def branchResults (items : List (List OpCode)) (flags : Nat)
    (place : Place) : List Place :=
  match items with
  | [] => []
  | p :: rest => seqResults p flags place ++ branchResults rest flags place

end

end Results

section Lists

variable {r : Reading} {text : Subject} {flags : Nat} {s t : Place}

theorem branchResults_eq {items : List SubPattern} :
    branchResults r text items flags s =
      items.flatMap fun p => seqResults r text p flags s := by
  induction items with
  | nil => rw [branchResults, List.flatMap_nil]
  | cons p rest ih => rw [branchResults, ih, List.flatMap_cons]

theorem seqResults_append {p q : SubPattern} :
    seqResults r text (p ++ q) flags s =
      (seqResults r text p flags s).flatMap fun next =>
        seqResults r text q flags next := by
  induction p generalizing s with
  | nil => rw [List.nil_append, seqResults, List.flatMap_singleton]
  | cons op rest ih =>
      rw [List.cons_append, seqResults, seqResults, List.flatMap_assoc]
      exact List.flatMap_congr fun next _ => ih

@[simp] theorem capture_pos {group : Option Nat} {chars : List Char}
    {start : Nat} : (r.capture group chars start s).pos = s.pos := by
  cases group with
  | none => rfl
  | some gid =>
      rw [Reading.capture]
      split <;> rfl

theorem capture_groups {group : Option Nat} {chars : List Char} {start : Nat}
    (hsettled : r.captures = false) :
    (r.capture group chars start s).groups = s.groups := by
  cases group with
  | none => rfl
  | some gid => rw [Reading.capture, hsettled, if_neg Bool.false_ne_true]

theorem mem_of_mem_ways {found : List Place} (ht : t ∈ r.ways found) :
    t ∈ found := by
  rw [Reading.ways] at ht
  split at ht
  · exact ht
  · exact mem_of_mem_committed ht

theorem mem_oneChar {test : Char → Bool} (ht : t ∈ text.oneChar test s) :
    s.pos < text.chars.length ∧ t = ⟨s.pos + 1, s.groups⟩ := by
  rw [Subject.oneChar] at ht
  split at ht
  case h_1 c hc =>
      split at ht
      · exact ⟨(List.getElem?_eq_some_iff.mp hc).1, List.mem_singleton.mp ht⟩
      · cases ht
  case h_2 => cases ht

theorem mem_looking {direction : Int} {search : Place → List Place}
    (ht : t ∈ looking direction search s) :
    ∃ start ≤ s.pos, t ∈ search ⟨start, s.groups⟩ := by
  rw [looking] at ht
  split at ht
  · exact ⟨s.pos, le_rfl, ht⟩
  · obtain ⟨start, hstart, hfound⟩ := List.mem_flatMap.mp ht
    exact ⟨start, Nat.le_of_lt_succ (List.mem_range.mp hstart),
      (List.mem_filter.mp hfound).1⟩

end Lists

section Moving

variable {r : Reading} {text : Subject}

theorem mem_repetitions {kind : RepeatKind} {min max len : Nat}
    {step : Place → List Place} {s t : Place}
    (ht : t ∈ repetitions kind min max len step s) :
    ∃ lazily rounds, ∃ u ∈ exactly step min s,
      t ∈ further lazily roundStuck step rounds u := by
  have hfound : ∃ lazily rounds, t ∈ (exactly step min s).flatMap
      (further lazily roundStuck step rounds) := by
    cases kind with
    | greedy => exact ⟨false, _, ht⟩
    | lazy => exact ⟨true, _, ht⟩
    | possessive => exact ⟨false, _, mem_of_mem_committed ht⟩
  obtain ⟨lazily, rounds, hmem⟩ := hfound
  exact ⟨lazily, rounds, List.mem_flatMap.mp hmem⟩

/-- What an item keeps, its repetitions keep. -/
theorem repetitions_within {R : Place → Place → Prop} (hrefl : ∀ s, R s s)
    (htrans : ∀ {s t u}, R s t → R t u → R s u) {kind : RepeatKind}
    {min max len : Nat} {step : Place → List Place}
    (hstep : ∀ s, ∀ t ∈ step s, R s t) (s : Place) :
    ∀ t ∈ repetitions kind min max len step s, R s t := by
  intro t ht
  obtain ⟨lazily, rounds, u, hu, hlater⟩ := mem_repetitions ht
  exact htrans (exactly_within hrefl htrans hstep min s u hu)
    (further_within hrefl htrans hstep rounds u t hlater)

/-- What all operations keep, a sequence keeps. -/
theorem seqResults_within {R : Place → Place → Prop} (hrefl : ∀ s, R s s)
    (htrans : ∀ {s t u}, R s t → R t u → R s u) {p : SubPattern} {flags : Nat}
    (hops : ∀ op ∈ p, ∀ s, ∀ t ∈ op.results r text flags s, R s t) (s : Place) :
    ∀ t ∈ seqResults r text p flags s, R s t := by
  induction p generalizing s with
  | nil =>
      intro t ht
      rw [seqResults, List.mem_singleton] at ht
      exact ht ▸ hrefl s
  | cons op rest ih =>
      intro t ht
      rw [seqResults] at ht
      obtain ⟨next, hnext, hlater⟩ := List.mem_flatMap.mp ht
      obtain ⟨hop, hrest⟩ := List.forall_mem_cons.mp hops
      exact htrans (hop s next hnext) (ih hrest next t hlater)

/-- Operations whose groups keep a relation when they capture. -/
def OpCode.CapturesWithin (r : Reading) (text : Subject)
    (R : Place → Place → Prop) : OpCode → Prop
  | .subpattern group _ _ _ =>
      ∀ s t, R s t → R s (r.capture group text.chars s.pos t)
  | _ => True

/-- What a match keeps when it moves forward, captures or comes back from an
assertion, every operation keeps. -/
theorem OpCode.results_within {R : Place → Place → Prop} (hrefl : ∀ s, R s s)
    (htrans : ∀ {s t u}, R s t → R t u → R s u)
    (hmove : ∀ s stop, s.pos ≤ stop → stop ≤ text.chars.length →
      R s ⟨stop, s.groups⟩)
    (hback : ∀ s start t, R ⟨start, s.groups⟩ t → R s ⟨s.pos, t.groups⟩)
    {op : OpCode} (hop : op.Every (OpCode.CapturesWithin r text R)) :
    ∀ flags s, ∀ t ∈ op.results r text flags s, R s t := by
  induction hop with
  | @intro op hhere _ ih =>
      have hseq : ∀ p ∈ op.nested, ∀ flags s,
          ∀ t ∈ seqResults r text p flags s, R s t :=
        fun p hp flags => seqResults_within hrefl htrans
          fun inner hinner => ih p hp inner hinner flags
      have hchar : ∀ {test : Char → Bool} {s t : Place},
          t ∈ text.oneChar test s → R s t := by
        intro test s t ht
        obtain ⟨hlt, rfl⟩ := mem_oneChar ht
        exact hmove s _ (Nat.le_succ _) hlt
      have hstay : ∀ {s t : Place} {holds : Bool},
          t ∈ (if holds then [s] else []) → R s t := by
        intro s t holds ht
        split at ht
        · rw [List.mem_singleton.mp ht]
          exact hrefl s
        · cases ht
      intro flags s t ht
      cases op with
      | literal cp => exact hchar (by rwa [OpCode.results] at ht)
      | notLiteral cp => exact hchar (by rwa [OpCode.results] at ht)
      | any => exact hchar (by rwa [OpCode.results] at ht)
      | inSet items => exact hchar (by rwa [OpCode.results] at ht)
      | position code => exact hstay (by rwa [OpCode.results] at ht)
      | branch items =>
          rw [OpCode.results, branchResults_eq] at ht
          obtain ⟨p, hp, hfound⟩ := List.mem_flatMap.mp ht
          exact hseq p hp flags s t hfound
      | subpattern group addFlags delFlags p =>
          rw [OpCode.results] at ht
          obtain ⟨u, hu, rfl⟩ := List.mem_map.mp ht
          exact hhere s u
            (hseq p List.mem_cons_self _ s u (mem_of_mem_ways hu))
      | groupRef gid =>
          rw [OpCode.results] at ht
          split at ht
          case h_1 val _ =>
              split at ht
              case isTrue hrepeats =>
                  rw [List.mem_singleton.mp ht]
                  rw [repeatsAt, Bool.and_eq_true, decide_eq_true_eq]
                    at hrepeats
                  exact hmove s _ (Nat.le_add_right _ _) hrepeats.1
              case isFalse => cases ht
          case h_2 => cases ht
      | groupRefExists condGroup yes no =>
          cases no with
          | none =>
              rw [OpCode.results] at ht
              split at ht
              · exact hseq yes List.mem_cons_self flags s t ht
              · rw [List.mem_singleton.mp ht]
                exact hrefl s
          | some no =>
              rw [OpCode.results] at ht
              split at ht
              · exact hseq yes List.mem_cons_self flags s t ht
              · exact hseq no (List.mem_cons_of_mem _ List.mem_cons_self)
                  flags s t ht
      | assert direction p =>
          rw [OpCode.results] at ht
          obtain ⟨u, hu, rfl⟩ := List.mem_map.mp ht
          obtain ⟨start, -, hfound⟩ := mem_looking (mem_of_mem_committed hu)
          exact hback s start u
            (hseq p List.mem_cons_self flags _ u hfound)
      | assertNot direction p => exact hstay (by rwa [OpCode.results] at ht)
      | atomicGroup p =>
          rw [OpCode.results] at ht
          exact hseq p List.mem_cons_self flags s t (mem_of_mem_committed ht)
      | repeated kind min max item =>
          rw [OpCode.results] at ht
          exact repetitions_within hrefl htrans
            (fun s t ht => hseq item List.mem_cons_self flags s t
              (mem_of_mem_ways ht)) s t ht
      | failure =>
          rw [OpCode.results] at ht
          cases ht

/-- What a match keeps on its way from one place to another: it moves forward
within the text, and only captures change groups. -/
structure Leads (r : Reading) (text : Subject) (s t : Place) : Prop where
  forward : s.pos ≤ text.chars.length →
    s.pos ≤ t.pos ∧ t.pos ≤ text.chars.length
  groups : r.captures = false → t.groups = s.groups

theorem Leads.refl (s : Place) : Leads r text s s :=
  ⟨fun hs => ⟨le_rfl, hs⟩, fun _ => rfl⟩

theorem Leads.trans {s t u : Place} (hst : Leads r text s t)
    (htu : Leads r text t u) : Leads r text s u where
  forward hs :=
    have htext := hst.forward hs
    have hnext := htu.forward htext.2
    ⟨htext.1.trans hnext.1, hnext.2⟩
  groups hsettled := (htu.groups hsettled).trans (hst.groups hsettled)

theorem OpCode.results_lead (op : OpCode) :
    ∀ flags s, ∀ t ∈ op.results r text flags s, Leads r text s t := by
  refine OpCode.results_within Leads.refl Leads.trans
    (fun s stop hle hlen => ⟨fun _ => ⟨hle, hlen⟩, fun _ => rfl⟩)
    (fun s start t hlead => ⟨fun hs => ⟨le_rfl, hs⟩, hlead.groups⟩)
    (OpCode.Every.of_forall fun op => ?_)
  cases op with
  | subpattern group addFlags delFlags p =>
      intro s t hlead
      constructor
      · rw [capture_pos]
        exact hlead.forward
      · intro hsettled
        rw [capture_groups hsettled]
        exact hlead.groups hsettled
  | _ => trivial

theorem seqResults_lead (p : SubPattern) (flags : Nat) (s : Place) :
    ∀ t ∈ seqResults r text p flags s, Leads r text s t :=
  seqResults_within Leads.refl Leads.trans
    (fun op _ => op.results_lead flags) s

end Moving

end Hegel
