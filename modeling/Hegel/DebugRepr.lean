/-
Debug representations.  A text is parsed as leaves and delimited groups, and
printed again with a breakable after every comma and inside the braces of every
struct; a text that does not parse is printed as it is.
-/
import Hegel.Printer
import Mathlib.Data.List.DropRight

namespace Hegel

namespace PrettyPrinter

/-- A piece of text without newlines. -/
def segment (s : Text) : List Cmd :=
  if s.isEmpty then [] else [.text s]

/-- Literal text; its newlines are hard breaks. -/
def text (s : Text) : List Cmd :=
  match s.splitOn '\n' with
  | [] => []
  | first :: rest =>
      segment first ++ rest.flatMap fun s => .hardBreak :: segment s

end PrettyPrinter

inductive DebugNode where
  | leaf (text : Text)
  | group (lead : Text) (delimiter : Char) (named : Bool)
      (items : List (List DebugNode))

namespace DebugRepr

def quotation : Char := .ofNat 34

def apostrophe : Char := .ofNat 39

def backslash : Char := .ofNat 92

def maxDebugDepth : Nat := 64

/-- Move text that was collected into a leaf. -/
def flushText (text : Text) (nodes : List DebugNode) : List DebugNode :=
  if text.isEmpty then nodes else nodes ++ [.leaf text]

/-- The last word of a text. -/
def lastWord (text : Text) : Text :=
  text.rtakeWhile fun c => c != ' '

/-- Split the word that belongs to an opening delimiter off the text before it.
Before a brace there is a space in between. -/
def takeGroupPrefix (text : Text) (delimiter : Char) : Text × Text :=
  if delimiter = '{' then
    if text.getLast? = some ' ' then
      let lead := lastWord text.dropLast
      if lead.isEmpty then ([], text)
      else (lead, text.take (text.length - lead.length - 1))
    else ([], text)
  else
    let lead := lastWord text
    (lead, text.take (text.length - lead.length))

/-- The rest of a literal; after a backslash any character belongs to it. -/
def lexRest (quote : Char) : Text → Text → Option (Text × Text)
  | _, [] => none
  | lit, c :: rest =>
      if c = backslash then
        match rest with
        | [] => none
        | escaped :: rest => lexRest quote (lit ++ [c, escaped]) rest
      else if c = quote then some (lit ++ [c], rest)
      else lexRest quote (lit ++ [c]) rest

/-- A string or character literal with its quotes. -/
def lexQuoted : Text → Option (Text × Text)
  | [] => none
  | quote :: rest => lexRest quote [quote] rest

/-- An item stops before a separator, a closing delimiter or the end. -/
def endsItem : Text → Bool
  | [] => true
  | ',' :: ' ' :: _ => true
  | ' ' :: '}' :: _ => true
  | c :: _ => c == ']' || c == ')' || c == '}'

def closing (delimiter : Char) : Char :=
  if delimiter = '[' then ']' else if delimiter = '(' then ')' else '}'

/-- The text behind the space of a struct. -/
def afterSpace (named : Bool) (s : Text) : Text :=
  if named then s.tail else s

mutual

/-- Parse an item, with the nodes and the text collected so far.  The number
bounds the steps. -/
def parseItem : Nat → Nat → List DebugNode → Text → Text →
    Option (List DebugNode × Text)
  | 0, _, _, _, _ => none
  | fuel + 1, depth, nodes, text, s =>
      match s with
      | [] => some (flushText text nodes, [])
      | c :: rest =>
          if endsItem (c :: rest) then some (flushText text nodes, c :: rest)
          else if c = quotation ∨ c = apostrophe then do
            let (lit, rest) ← lexQuoted (c :: rest)
            parseItem fuel depth (flushText text nodes ++ [.leaf lit]) [] rest
          else if c = '[' ∨ c = '(' ∨ c = '{' then do
            let (lead, text) := takeGroupPrefix text c
            let (node, rest) ← parseGroup fuel depth lead (c :: rest)
            parseItem fuel depth (flushText text nodes ++ [node]) [] rest
          else parseItem fuel depth nodes (text ++ [c]) rest

/-- Parse a group, from its opening delimiter on. -/
def parseGroup : Nat → Nat → Text → Text → Option (DebugNode × Text)
  | 0, _, _, _ => none
  | fuel + 1, depth, lead, s =>
      if depth = maxDebugDepth then none
      else
        match s with
        | [] => none
        | delimiter :: rest =>
            let named :=
              delimiter == '{' && !lead.isEmpty && rest.head? == some ' '
            let close := closing delimiter
            if !named && rest.head? == some close then
              some (.group lead delimiter named [], rest.tail)
            else do
              let (items, rest) ← parseItems fuel (depth + 1) close named []
                (afterSpace named rest)
              some (.group lead delimiter named items, rest)

/-- Parse the items of a group up to its closing delimiter. -/
def parseItems : Nat → Nat → Char → Bool → List (List DebugNode) → Text →
    Option (List (List DebugNode) × Text)
  | 0, _, _, _, _, _ => none
  | fuel + 1, depth, close, named, items, s => do
      let (item, rest) ← parseItem fuel depth [] [] s
      match rest with
      | ',' :: ' ' :: rest =>
          parseItems fuel depth close named (items ++ [item]) rest
      | c :: rest =>
          if named then
            if c = ' ' ∧ rest.head? = some close then
              some (items ++ [item], rest.tail)
            else none
          else if c = close then some (items ++ [item], rest)
          else none
      | [] => none

end

section Steps

theorem length_lexRest {quote : Char} {lit s lit' rest : Text}
    (hlex : lexRest quote lit s = some (lit', rest)) :
    rest.length < s.length := by
  fun_induction lexRest quote lit s with
  | case1 lit => cases hlex
  | case2 lit => cases hlex
  | case3 lit escaped s ih =>
      have hrest := ih hlex
      simp only [List.length_cons]
      omega
  | case4 lit s =>
      cases hlex
      exact Nat.lt_succ_self _
  | case5 lit c s _ _ ih => exact (ih hlex).trans (Nat.lt_succ_self _)

theorem length_lexQuoted {s lit rest : Text}
    (hlex : lexQuoted s = some (lit, rest)) : rest.length < s.length := by
  cases s with
  | nil => cases hlex
  | cons quote s => exact (length_lexRest hlex).trans (Nat.lt_succ_self _)

theorem length_afterSpace (named : Bool) (s : Text) :
    (afterSpace named s).length ≤ s.length := by
  cases named with
  | false => exact Nat.le_refl _
  | true => exact List.length_tail ▸ Nat.sub_le _ _

/-- An item may be empty; a group and the items of a group are not. -/
theorem length_parse (fuel : Nat) :
    (∀ {depth nodes text s nodes' rest},
      parseItem fuel depth nodes text s = some (nodes', rest) →
        rest.length ≤ s.length) ∧
    (∀ {depth lead s node rest},
      parseGroup fuel depth lead s = some (node, rest) →
        rest.length < s.length) ∧
    (∀ {depth close named items s items' rest},
      parseItems fuel depth close named items s = some (items', rest) →
        rest.length < s.length) := by
  induction fuel with
  | zero =>
      refine ⟨?_, ?_, ?_⟩
      · intro _ _ _ _ _ _ hparse
        rw [parseItem] at hparse
        cases hparse
      · intro _ _ _ _ _ hparse
        rw [parseGroup] at hparse
        cases hparse
      · intro _ _ _ _ _ _ _ hparse
        rw [parseItems] at hparse
        cases hparse
  | succ fuel ih =>
      obtain ⟨hitem, hgroup, hitems⟩ := ih
      refine ⟨?_, ?_, ?_⟩
      · intro depth nodes text s nodes' rest hparse
        cases s with
        | nil =>
            rw [parseItem] at hparse
            exact (Prod.mk.inj (Option.some.inj hparse)).2 ▸ Nat.le_refl _
        | cons c s =>
            rw [parseItem] at hparse
            split_ifs at hparse
            · exact (Prod.mk.inj (Option.some.inj hparse)).2 ▸ Nat.le_refl _
            · obtain ⟨⟨lit, s₁⟩, hlex, hparse⟩ :=
                Option.bind_eq_some_iff.mp hparse
              exact (hitem hparse).trans (length_lexQuoted hlex).le
            · obtain ⟨⟨node, s₁⟩, hnode, hparse⟩ :=
                Option.bind_eq_some_iff.mp hparse
              exact (hitem hparse).trans (hgroup hnode).le
            · exact (hitem hparse).trans (Nat.le_succ _)
      · intro depth lead s node rest hparse
        cases s with
        | nil =>
            rw [parseGroup] at hparse
            split_ifs at hparse
        | cons delimiter s =>
            rw [parseGroup] at hparse
            split_ifs at hparse
            dsimp only at hparse
            split_ifs at hparse
            · obtain ⟨-, rfl⟩ := Prod.mk.inj (Option.some.inj hparse)
              rw [List.length_tail, List.length_cons]
              omega
            · obtain ⟨⟨items, s₁⟩, hdone, hparse⟩ :=
                Option.bind_eq_some_iff.mp hparse
              obtain ⟨-, rfl⟩ := Prod.mk.inj (Option.some.inj hparse)
              exact ((hitems hdone).trans_le (length_afterSpace _ s)).trans
                (Nat.lt_succ_self _)
      · intro depth close named items s items' rest hparse
        rw [parseItems] at hparse
        obtain ⟨⟨item, s₁⟩, hfirst, hparse⟩ :=
          Option.bind_eq_some_iff.mp hparse
        have hs := hitem hfirst
        dsimp only at hparse
        split at hparse
        · have hrest := hitems hparse
          simp only [List.length_cons] at hs
          omega
        · split_ifs at hparse
          · obtain ⟨-, rfl⟩ := Prod.mk.inj (Option.some.inj hparse)
            rw [List.length_cons] at hs
            rw [List.length_tail]
            omega
          · obtain ⟨-, rfl⟩ := Prod.mk.inj (Option.some.inj hparse)
            exact hs
        · cases hparse

/-- How many steps are enough does not matter. -/
theorem parse_steps (fuel : Nat) :
    (∀ {fuel' depth nodes text s}, 3 * s.length + 2 ≤ fuel →
      3 * s.length + 2 ≤ fuel' →
      parseItem fuel depth nodes text s =
        parseItem fuel' depth nodes text s) ∧
    (∀ {fuel' depth lead s}, 3 * s.length + 1 ≤ fuel →
      3 * s.length + 1 ≤ fuel' →
      parseGroup fuel depth lead s = parseGroup fuel' depth lead s) ∧
    (∀ {fuel' depth close named items s}, 3 * s.length + 3 ≤ fuel →
      3 * s.length + 3 ≤ fuel' →
      parseItems fuel depth close named items s =
        parseItems fuel' depth close named items s) := by
  induction fuel with
  | zero => exact ⟨nofun, nofun, nofun⟩
  | succ fuel ih =>
      obtain ⟨hitem, hgroup, hitems⟩ := ih
      refine ⟨?_, ?_, ?_⟩
      · intro fuel' depth nodes text s hfuel hfuel'
        obtain _ | fuel' := fuel'
        · cases hfuel'
        cases s with
        | nil => rw [parseItem, parseItem]
        | cons c s =>
            rw [List.length_cons] at hfuel hfuel'
            rw [parseItem, parseItem]
            congr 2
            · refine Option.bind_congr fun ⟨lit, s₁⟩ hlex => ?_
              have hs := length_lexQuoted hlex
              rw [List.length_cons] at hs
              exact hitem (by omega) (by omega)
            · congr 1
              · dsimp only
                rw [@hgroup fuel' depth _ (c :: s)
                  (by rw [List.length_cons]; omega)
                  (by rw [List.length_cons]; omega)]
                refine Option.bind_congr fun ⟨node, s₁⟩ hnode => ?_
                have hs := (length_parse fuel').2.1 hnode
                rw [List.length_cons] at hs
                dsimp only
                exact hitem (by omega) (by omega)
              · exact hitem (by omega) (by omega)
      · intro fuel' depth lead s hfuel hfuel'
        obtain _ | fuel' := fuel'
        · cases hfuel'
        cases s with
        | nil => rw [parseGroup, parseGroup]
        | cons delimiter s =>
            rw [List.length_cons] at hfuel hfuel'
            rw [parseGroup, parseGroup]
            dsimp only
            have hs := length_afterSpace (delimiter == '{' && !lead.isEmpty &&
              s.head? == some ' ') s
            rw [@hitems fuel' _ _ _ _ (afterSpace _ s) (by omega) (by omega)]
      · intro fuel' depth close named items s hfuel hfuel'
        obtain _ | fuel' := fuel'
        · cases hfuel'
        rw [parseItems, parseItems,
          @hitem fuel' depth [] [] s (by omega) (by omega)]
        refine Option.bind_congr fun ⟨item, s₁⟩ hfirst => ?_
        have hs := (length_parse fuel').1 hfirst
        dsimp only
        split
        · simp only [List.length_cons] at hs
          exact hitems (by omega) (by omega)
        · rfl
        · rfl

end Steps

/-- Every character takes at most three steps. -/
def parse (repr : Text) : Option (List DebugNode) :=
  if '\n' ∈ repr then none
  else do
    let (nodes, rest) ← parseItem (3 * repr.length + 2) 0 [] [] repr
    if rest.isEmpty then some nodes else none

/-- The bound on the steps is never what makes a text fail to parse. -/
theorem parse_eq {repr : Text} {fuel : Nat} (hline : '\n' ∉ repr)
    (hfuel : 3 * repr.length + 2 ≤ fuel) :
    parse repr = (parseItem fuel 0 [] [] repr).bind fun (nodes, rest) =>
      if rest.isEmpty then some nodes else none := by
  rw [parse, if_neg hline, (parse_steps _).1 le_rfl hfuel]
  rfl

/-- How a group is opened and closed, and how far its lines are indented. -/
def groupStyle (lead : Text) (delimiter : Char) (named : Bool) :
    Text × Text × Nat :=
  match delimiter, named with
  | '{', true => (lead ++ [' ', '{'], [' ', '}'], 4)
  | '{', false =>
      if lead.isEmpty then (['{'], ['}'], 1)
      else (lead ++ [' ', '{'], ['}'], 1)
  | '[', _ => (lead ++ ['['], [']'], 1)
  | _, _ => (lead ++ ['('], [')'], 1)

mutual

def emitNode : DebugNode → List Cmd
  | .leaf text => PrettyPrinter.text text
  | .group lead delimiter named items =>
      let (opening, close, indent) := groupStyle lead delimiter named
      .beginGroup indent opening ::
        (if named then [.breakable [' ']] else []) ++
          emitItems true items ++ [.endGroup close]

def emitDebugNodes : List DebugNode → List Cmd
  | [] => []
  | node :: rest => emitNode node ++ emitDebugNodes rest

/-- A comma and a breakable come before every item but the first. -/
def emitItems (first : Bool) : List (List DebugNode) → List Cmd
  | [] => []
  | item :: rest =>
      (if first then [] else PrettyPrinter.text [','] ++ [.breakable [' ']]) ++
        emitDebugNodes item ++ emitItems false rest

end

end DebugRepr

/-- The commands that print a debug representation. -/
def printDebugRepr (repr : Text) : List Cmd :=
  match DebugRepr.parse repr with
  | some nodes => DebugRepr.emitDebugNodes nodes
  | none => PrettyPrinter.text repr

/-- The text of a document that has only been printed to. -/
def Document.finish (maxWidth : Nat) (cmds : List Cmd) :
    Except PrinterError Text := do
  let p ← cmds.foldlM (fun p cmd => Printer.dispatch p .main cmd)
    (Printer.new maxWidth)
  p.resolve.2.value.1

end Hegel
