/-
Parsing a debug representation loses nothing.  What is printed for the nodes is
the text that they were parsed from, and its breakables stand for single spaces
after a comma or after the opening brace of a struct.
-/
import Hegel.DebugRepr
import Hegel.LayoutGroups

namespace Hegel

/-- The text of a command when nothing breaks. -/
def Cmd.flat : Cmd → Text
  | .text s => s
  | .breakable sep => sep
  | .beginGroup _ opening => opening
  | .endGroup close => close
  | _ => []

def flatText (cmds : List Cmd) : Text :=
  cmds.flatMap Cmd.flat

/-- Where a line may be broken, given the text before it from its end on: after
a comma, or after a brace that has a space and a word before it. -/
def MayBreak (before : Text) : Prop :=
  (∃ rest, before = ',' :: rest) ∨
    ∃ c rest, before = '{' :: ' ' :: c :: rest ∧ c ≠ ' '

/-- Commands that print text whose spaces may be breakable, given the text
before it from its end on. -/
def Placed : Text → List Cmd → Prop
  | _, [] => True
  | before, .text s :: rest => Placed (s.reverse ++ before) rest
  | before, .breakable sep :: rest =>
      sep = [' '] ∧ MayBreak before ∧ Placed (' ' :: before) rest
  | before, .beginGroup _ opening :: rest =>
      Placed (opening.reverse ++ before) rest
  | before, .endGroup close :: rest => Placed (close.reverse ++ before) rest
  | _, _ => False

/-- Commands that print a text, wherever they stand. -/
structure Prints (cmds : List Cmd) (s : Text) : Prop where
  flat : flatText cmds = s
  placed : ∀ before, Placed before cmds
  closed : ∀ opened, cmds.foldlM groupsAfter opened = some opened

section Printing

variable {first second : List Cmd} {s s' : Text}

theorem flatText_append (first second : List Cmd) :
    flatText (first ++ second) = flatText first ++ flatText second :=
  List.flatMap_append

theorem placed_append {before : Text} :
    Placed before (first ++ second) ↔ Placed before first ∧
      Placed ((flatText first).reverse ++ before) second := by
  induction first generalizing before with
  | nil => simp [Placed, flatText]
  | cons cmd rest ih =>
      have hflat : ∀ text : Text, (text ++ flatText rest).reverse ++ before =
          (flatText rest).reverse ++ (text.reverse ++ before) := by
        intro text
        rw [List.reverse_append, List.append_assoc]
      cases cmd with
      | text text =>
          rw [List.cons_append, Placed, Placed, ih, ← hflat]
          rfl
      | beginGroup indent opening =>
          rw [List.cons_append, Placed, Placed, ih, ← hflat]
          rfl
      | endGroup close =>
          rw [List.cons_append, Placed, Placed, ih, ← hflat]
          rfl
      | breakable sep =>
          rw [List.cons_append, Placed, Placed, ih]
          constructor
          · rintro ⟨rfl, hmay, hrest, hsecond⟩
            refine ⟨⟨rfl, hmay, hrest⟩, ?_⟩
            rw [← List.singleton_append, ← List.reverse_singleton, ← hflat]
              at hsecond
            exact hsecond
          · rintro ⟨⟨rfl, hmay, hrest⟩, hsecond⟩
            refine ⟨rfl, hmay, hrest, ?_⟩
            rw [← List.singleton_append, ← List.reverse_singleton, ← hflat]
            exact hsecond
      | _ => simp [Placed]

theorem prints_nil : Prints [] [] :=
  ⟨rfl, fun _ => trivial, fun _ => rfl⟩

theorem Prints.append (hfirst : Prints first s) (hsecond : Prints second s') :
    Prints (first ++ second) (s ++ s') where
  flat := by rw [flatText_append, hfirst.flat, hsecond.flat]
  placed before := placed_append.mpr ⟨hfirst.placed _, hsecond.placed _⟩
  closed opened := by
    rw [List.foldlM_append, hfirst.closed]
    exact hsecond.closed opened

theorem prints_text (s : Text) : Prints [.text s] s :=
  ⟨List.append_nil s, fun _ => trivial, fun _ => rfl⟩

/-- Text without newlines is printed as it is. -/
theorem prints_literal {s : Text} (hline : '\n' ∉ s) :
    Prints (PrettyPrinter.text s) s := by
  have hsplit : s.splitOn '\n' = [s] := by
    rw [List.splitOn_eq_splitOnP]
    apply List.splitOnP_eq_singleton
    intro c hc
    exact beq_eq_false_iff_ne.mpr fun h => hline (h ▸ hc)
  rw [PrettyPrinter.text, hsplit]
  simp only [List.flatMap_nil, List.append_nil]
  rw [PrettyPrinter.segment]
  by_cases hempty : s.isEmpty = true
  · rw [if_pos hempty, List.isEmpty_iff.mp hempty]
    exact prints_nil
  · rw [if_neg hempty]
    exact prints_text s

/-- A group prints what it is opened with, what is in it and what it is closed
with. -/
theorem Prints.group {inner : List Cmd} {opening close : Text}
    (hplaced : ∀ before, Placed (opening.reverse ++ before) inner)
    (hflat : flatText inner = s)
    (hclosed : ∀ opened, inner.foldlM groupsAfter opened = some opened)
    (indent : Nat) :
    Prints (.beginGroup indent opening :: inner ++ [.endGroup close])
      (opening ++ s ++ close) where
  flat := by
    rw [flatText_append, ← hflat]
    exact congrArg _ (List.append_nil close)
  placed before := by
    refine placed_append.mpr ⟨hplaced before, ?_⟩
    trivial
  closed opened := by
    rw [List.foldlM_append, List.foldlM_cons]
    change ((inner.foldlM groupsAfter (opened + 1)) >>= _) = _
    rw [hclosed]
    rfl

/-- A comma and a space that may be a newline. -/
theorem prints_separator :
    Prints (PrettyPrinter.text [','] ++ [.breakable [' ']]) [',', ' '] where
  flat := rfl
  placed _ := ⟨rfl, .inl ⟨_, rfl⟩, trivial⟩
  closed _ := rfl

end Printing

namespace DebugRepr

/-- The text of the word that belongs to a delimiter. -/
def leadText (lead : Text) (delimiter : Char) : Text :=
  if delimiter = '{' ∧ lead ≠ [] then lead ++ [' '] else lead

/-- The text that a group ends with. -/
def closeText (named : Bool) (close : Char) : Text :=
  if named then [' ', close] else [close]

def IsOpening (c : Char) : Prop :=
  c = '[' ∨ c = '(' ∨ c = '{'

section Words

theorem lastWord_append (text : Text) :
    text.take (text.length - (lastWord text).length) ++ lastWord text =
      text := by
  have hsplit := text.rdropWhile_append_rtakeWhile (p := fun c => c != ' ')
  have htake : text.take (text.length - (lastWord text).length) =
      text.rdropWhile fun c => c != ' ' := by
    have hlength := congrArg List.length hsplit
    rw [List.length_append] at hlength
    rw [← hlength, lastWord, Nat.add_sub_cancel]
    nth_rewrite 2 [← hsplit]
    exact List.take_left
  rw [htake]
  exact hsplit

theorem space_not_mem_lastWord (text : Text) : ' ' ∉ lastWord text := by
  intro hmem
  have hspace := List.mem_rtakeWhile_imp hmem
  simp at hspace

/-- The word and the text before it make up the text. -/
theorem takeGroupPrefix_append (text : Text) (delimiter : Char) :
    (takeGroupPrefix text delimiter).2 ++
        leadText (takeGroupPrefix text delimiter).1 delimiter = text := by
  rw [takeGroupPrefix]
  by_cases hbrace : delimiter = '{'
  · rw [if_pos hbrace]
    by_cases hspace : text.getLast? = some ' '
    · rw [if_pos hspace]
      by_cases hempty : (lastWord text.dropLast).isEmpty = true
      · simp [hempty, leadText]
      · have hne : lastWord text.dropLast ≠ [] := fun h => hempty (h ▸ rfl)
        have hlast : text.dropLast ++ [' '] = text :=
          List.dropLast_append_getLast? ' ' hspace
        have hlength : text.length = text.dropLast.length + 1 := by
          conv_lhs => rw [← hlast]
          exact List.length_append
        simp only [hempty, leadText]
        rw [if_neg Bool.false_ne_true, if_pos ⟨hbrace, hne⟩]
        have htake : text.take
            (text.length - (lastWord text.dropLast).length - 1) =
            text.dropLast.take
              (text.dropLast.length - (lastWord text.dropLast).length) := by
          rw [List.dropLast_eq_take, List.take_take, List.length_take,
            ← List.dropLast_eq_take]
          congr 1
          omega
        rw [htake, ← List.append_assoc, lastWord_append, hlast]
    · rw [if_neg hspace]
      simp [leadText]
  · rw [if_neg hbrace]
    simp only [leadText, hbrace, false_and, if_false]
    exact lastWord_append text

theorem space_not_mem_takeGroupPrefix (text : Text) (delimiter : Char) :
    ' ' ∉ (takeGroupPrefix text delimiter).1 := by
  rw [takeGroupPrefix]
  by_cases hbrace : delimiter = '{'
  · rw [if_pos hbrace]
    by_cases hspace : text.getLast? = some ' '
    · rw [if_pos hspace]
      dsimp only
      split_ifs
      · exact List.not_mem_nil
      · exact space_not_mem_lastWord _
    · rw [if_neg hspace]
      exact List.not_mem_nil
  · rw [if_neg hbrace]
    exact space_not_mem_lastWord _

theorem lexRest_append {quote : Char} {lit s lit' rest : Text}
    (hlex : lexRest quote lit s = some (lit', rest)) :
    lit ++ s = lit' ++ rest := by
  fun_induction lexRest quote lit s with
  | case1 lit => cases hlex
  | case2 lit => cases hlex
  | case3 lit escaped s ih => rw [← ih hlex, List.append_assoc]; rfl
  | case4 lit s => cases hlex; rw [List.append_assoc]; rfl
  | case5 lit c s _ _ ih => rw [← ih hlex, List.append_assoc]; rfl

theorem lexQuoted_append {s lit rest : Text}
    (hlex : lexQuoted s = some (lit, rest)) : s = lit ++ rest := by
  cases s with
  | nil => cases hlex
  | cons quote s => exact lexRest_append hlex

end Words

section Soundness

/-- What a parsed item has consumed is what its nodes print. -/
def ItemSound (fuel : Nat) : Prop :=
  ∀ {depth nodes text s nodes' rest}, '\n' ∉ text ++ s →
    parseItem fuel depth nodes text s = some (nodes', rest) →
    ∃ new s', nodes' = nodes ++ new ∧ text ++ s = s' ++ rest ∧
      Prints (emitDebugNodes new) s'

def GroupSound (fuel : Nat) : Prop :=
  ∀ {depth lead delimiter s node rest}, IsOpening delimiter → ' ' ∉ lead →
    '\n' ∉ delimiter :: s →
    parseGroup fuel depth lead (delimiter :: s) = some (node, rest) →
    ∃ s', leadText lead delimiter ++ delimiter :: s = s' ++ rest ∧
      Prints (emitNode node) s'

def ItemsSound (fuel : Nat) : Prop :=
  ∀ {depth close named items s items' rest}, '\n' ∉ s →
    parseItems fuel depth close named items s = some (items', rest) →
    ∃ new s', items' = items ++ new ∧
      s = s' ++ closeText named close ++ rest ∧
      Prints (emitItems true new) s' ∧
      Prints (emitItems false new) (',' :: ' ' :: s')

variable {fuel : Nat}

theorem flushText_prints (nodes : List DebugNode) {text : Text}
    (hline : '\n' ∉ text) :
    ∃ new, flushText text nodes = nodes ++ new ∧
      Prints (emitDebugNodes new) text := by
  rw [flushText]
  by_cases hempty : text.isEmpty = true
  · rw [if_pos hempty, List.isEmpty_iff.mp hempty]
    exact ⟨[], (List.append_nil nodes).symm, prints_nil⟩
  · rw [if_neg hempty]
    refine ⟨[.leaf text], rfl, ?_⟩
    rw [emitDebugNodes, emitNode, emitDebugNodes, List.append_nil]
    exact prints_literal hline

theorem emitDebugNodes_append (first second : List DebugNode) :
    emitDebugNodes (first ++ second) =
      emitDebugNodes first ++ emitDebugNodes second := by
  induction first with
  | nil => rfl
  | cons node rest ih =>
      rw [List.cons_append, emitDebugNodes, emitDebugNodes, ih,
        List.append_assoc]

/-- The text before a node, the node and the rest of the item. -/
theorem prints_nodes (nodes : List DebugNode) {new : List DebugNode}
    {node : DebugNode}
    {text s s' : Text} (hline : '\n' ∉ text)
    (hnode : Prints (emitNode node) s)
    (hnew : Prints (emitDebugNodes new) s') :
    ∃ all, flushText text nodes ++ [node] ++ new = nodes ++ all ∧
      Prints (emitDebugNodes all) (text ++ s ++ s') := by
  obtain ⟨before, hbefore, hprints⟩ := flushText_prints nodes hline
  refine ⟨before ++ [node] ++ new, ?_, ?_⟩
  · rw [hbefore]
    simp only [List.append_assoc]
  · rw [emitDebugNodes_append, emitDebugNodes_append]
    refine (hprints.append ?_).append hnew
    rw [emitDebugNodes, emitDebugNodes, List.append_nil]
    exact hnode

theorem itemSound_succ (hitem : ItemSound fuel) (hgroup : GroupSound fuel) :
    ItemSound (fuel + 1) := by
  intro depth nodes text s nodes' rest hline hparse
  have htext : '\n' ∉ text := fun h => hline (List.mem_append_left _ h)
  have hends : ∀ s, some (flushText text nodes, s) = some (nodes', rest) →
      ∃ new s', nodes' = nodes ++ new ∧ text ++ s = s' ++ rest ∧
        Prints (emitDebugNodes new) s' := by
    intro s hdone
    obtain ⟨new, hnew, hprints⟩ := flushText_prints nodes htext
    obtain ⟨rfl, rfl⟩ := Prod.mk.inj (Option.some.inj hdone)
    exact ⟨new, text, hnew, rfl, hprints⟩
  cases s with
  | nil =>
      rw [parseItem] at hparse
      exact hends [] hparse
  | cons c s =>
      rw [parseItem] at hparse
      by_cases hstop : endsItem (c :: s) = true
      · rw [if_pos hstop] at hparse
        exact hends _ hparse
      rw [if_neg hstop] at hparse
      have hs : '\n' ∉ c :: s := fun h => hline (List.mem_append_right _ h)
      by_cases hquote : c = quotation ∨ c = apostrophe
      · rw [if_pos hquote] at hparse
        obtain ⟨⟨lit, s₁⟩, hlex, hparse⟩ := Option.bind_eq_some_iff.mp hparse
        rw [lexQuoted_append hlex] at hs hline ⊢
        obtain ⟨new, s', rfl, hs', hnew⟩ := hitem
          (fun h => hs (List.mem_append_right _ h)) hparse
        obtain ⟨all, hall, hprints⟩ := @prints_nodes nodes new
          (.leaf lit) _ _ _ htext
          (prints_literal fun h => hs (List.mem_append_left _ h)) hnew
        refine ⟨all, text ++ lit ++ s', hall, ?_, hprints⟩
        rw [List.append_assoc, List.append_assoc, ← hs']
        rfl
      rw [if_neg hquote] at hparse
      by_cases hopen : c = '[' ∨ c = '(' ∨ c = '{'
      · rw [if_pos hopen] at hparse
        obtain ⟨⟨node, s₁⟩, hnode, hparse⟩ := Option.bind_eq_some_iff.mp hparse
        have hsplit := takeGroupPrefix_append text c
        have hspace := space_not_mem_takeGroupPrefix text c
        obtain ⟨s', hs', hprints⟩ := hgroup hopen hspace hs hnode
        have hall : text ++ c :: s =
            (takeGroupPrefix text c).2 ++ s' ++ s₁ := by
          rw [List.append_assoc, ← hs', ← List.append_assoc, hsplit]
        obtain ⟨new, s'', rfl, hs'', hnew⟩ := hitem (by
          rw [hall] at hline
          exact fun h => hline (List.mem_append_right _ h)) hparse
        obtain ⟨all, hnodes, hprints⟩ := prints_nodes nodes
          (fun h => htext (hsplit ▸ List.mem_append_left _ h)) hprints hnew
        refine ⟨all, _, hnodes, ?_, hprints⟩
        rw [hall, List.append_assoc (_ ++ s'), ← hs'']
        rfl
      · rw [if_neg hopen] at hparse
        have happend : text ++ c :: s = text ++ [c] ++ s := by simp
        rw [happend] at hline ⊢
        exact hitem hline hparse

theorem groupStyle_eq {lead : Text} {delimiter : Char} {named : Bool}
    (hopen : IsOpening delimiter)
    (hnamed : named = true → delimiter = '{' ∧ lead ≠ []) :
    groupStyle lead delimiter named =
      (leadText lead delimiter ++ [delimiter],
        closeText named (closing delimiter), if named then 4 else 1) := by
  cases named with
  | true =>
      obtain ⟨rfl, hlead⟩ := hnamed rfl
      rw [leadText, if_pos ⟨rfl, hlead⟩, List.append_assoc]
      rfl
  | false =>
      rcases hopen with rfl | rfl | rfl
      · rfl
      · rfl
      · rw [groupStyle, leadText]
        cases lead with
        | nil => rfl
        | cons c lead =>
            rw [if_neg (by simp), if_pos ⟨rfl, List.cons_ne_nil _ _⟩,
              List.append_assoc]
            rfl

/-- Inside the braces of a struct there is a space that may be a newline. -/
theorem group_prints {lead : Text} {delimiter : Char} {named : Bool}
    {items : List (List DebugNode)} {s : Text} (hopen : IsOpening delimiter)
    (hspace : ' ' ∉ lead)
    (hnamed : named = true → delimiter = '{' ∧ lead ≠ [])
    (hitems : Prints (emitItems true items) s) :
    Prints (emitNode (.group lead delimiter named items))
      (leadText lead delimiter ++ [delimiter] ++
        ((if named then [' '] else []) ++ s) ++
          closeText named (closing delimiter)) := by
  rw [emitNode, groupStyle_eq hopen hnamed]
  refine Prints.group ?_ ?_ ?_ _
  · intro before
    cases named with
    | false => exact hitems.placed _
    | true =>
        obtain ⟨rfl, hlead⟩ := hnamed rfl
        refine ⟨rfl, .inr ?_, hitems.placed _⟩
        obtain ⟨c, word, hword⟩ := List.exists_cons_of_ne_nil
          (List.reverse_ne_nil_iff.mpr hlead)
        refine ⟨c, word ++ before, ?_, ?_⟩
        · rw [leadText, if_pos ⟨rfl, hlead⟩, List.reverse_append,
            List.reverse_append, hword]
          rfl
        · rintro rfl
          exact hspace (List.mem_reverse.mp (hword ▸ List.mem_cons_self))
  · cases named with
    | false => exact hitems.flat
    | true => exact congrArg ([' '] ++ ·) hitems.flat
  · intro opened
    cases named with
    | false => exact hitems.closed opened
    | true => exact hitems.closed opened

theorem groupSound_succ (hitems : ItemsSound fuel) : GroupSound (fuel + 1) := by
  intro depth lead delimiter s node rest hopen hspace hline hparse
  rw [parseGroup] at hparse
  by_cases hdepth : depth = maxDebugDepth
  · rw [if_pos hdepth] at hparse
    cases hparse
  rw [if_neg hdepth] at hparse
  dsimp only at hparse
  generalize hname : (delimiter == '{' && !lead.isEmpty &&
    s.head? == some ' ') = named at hparse
  have hnamed : named = true →
      (delimiter = '{' ∧ lead ≠ []) ∧ s.head? = some ' ' := by
    intro h
    simpa [h, and_assoc] using hname
  by_cases hempty : (!named && s.head? == some (closing delimiter)) = true
  · rw [if_pos hempty] at hparse
    rw [Bool.and_eq_true, Bool.not_eq_true', beq_iff_eq] at hempty
    obtain ⟨rfl, hclose⟩ := hempty
    obtain ⟨rfl, rfl⟩ := Prod.mk.inj (Option.some.inj hparse)
    refine ⟨_, ?_, group_prints hopen hspace (by simp) prints_nil⟩
    obtain ⟨s, rfl⟩ := List.head?_eq_some_iff.mp hclose
    simp [closeText]
  · rw [if_neg hempty] at hparse
    obtain ⟨⟨items, s₁⟩, hdone, hnode⟩ := Option.bind_eq_some_iff.mp hparse
    obtain ⟨rfl, rfl⟩ := Prod.mk.inj (Option.some.inj hnode)
    have hs : s = (if named then [' '] else []) ++ afterSpace named s := by
      cases named with
      | false => rfl
      | true =>
          obtain ⟨s, rfl⟩ := List.head?_eq_some_iff.mp (hnamed rfl).2
          rfl
    rw [hs] at hline
    obtain ⟨_, s', rfl, hs', hprints, -⟩ := hitems
      (fun h => hline (List.mem_cons_of_mem _ (List.mem_append_right _ h)))
      hdone
    refine ⟨_, ?_, group_prints hopen hspace (fun h => (hnamed h).1) hprints⟩
    rw [hs, hs']
    simp

theorem itemsSound_succ (hitem : ItemSound fuel) (hitems : ItemsSound fuel) :
    ItemsSound (fuel + 1) := by
  intro depth close named items s items' rest hline hparse
  rw [parseItems] at hparse
  obtain ⟨⟨item, s₁⟩, hfirst, hparse⟩ := Option.bind_eq_some_iff.mp hparse
  obtain ⟨_, s', rfl, hs, hprints⟩ := hitem
    (show '\n' ∉ [] ++ s from hline) hfirst
  rw [List.nil_append] at hs
  have hlast : ∀ s₂, s₁ = closeText named close ++ s₂ →
      some (items ++ [item], s₂) = some (items', rest) →
      ∃ new s', items' = items ++ new ∧
        s = s' ++ closeText named close ++ rest ∧
        Prints (emitItems true new) s' ∧
        Prints (emitItems false new) (',' :: ' ' :: s') := by
    intro s₂ hs₁ hdone
    obtain ⟨rfl, rfl⟩ := Prod.mk.inj (Option.some.inj hdone)
    refine ⟨[item], s', rfl, ?_, ?_, ?_⟩
    · rw [hs, hs₁, List.append_assoc]
    · rw [emitItems, emitItems, List.append_nil]
      exact hprints
    · rw [emitItems, emitItems, List.append_nil]
      exact prints_separator.append hprints
  dsimp only at hparse
  split at hparse
  · next s₂ =>
      have hline₂ : '\n' ∉ s₂ := by
        rw [hs] at hline
        exact fun h => hline (List.mem_append_right _
          (List.mem_cons_of_mem _ (List.mem_cons_of_mem _ h)))
      obtain ⟨new, s₃, rfl, hs₃, -, hnext⟩ := hitems hline₂ hparse
      refine ⟨item :: new, s' ++ (',' :: ' ' :: s₃), ?_, ?_, ?_, ?_⟩
      · rw [List.append_assoc]
        rfl
      · rw [hs, hs₃]
        simp
      · exact hprints.append hnext
      · exact (prints_separator.append hprints).append hnext
  · next c s₂ _ =>
      cases named with
      | true =>
          rw [if_pos rfl] at hparse
          by_cases hclose : c = ' ' ∧ s₂.head? = some close
          · rw [if_pos hclose] at hparse
            obtain ⟨rfl, hclose⟩ := hclose
            obtain ⟨s₃, rfl⟩ := List.head?_eq_some_iff.mp hclose
            exact hlast s₃ rfl hparse
          · rw [if_neg hclose] at hparse
            cases hparse
      | false =>
          rw [if_neg Bool.false_ne_true] at hparse
          by_cases hclose : c = close
          · rw [if_pos hclose] at hparse
            exact hlast s₂ (hclose ▸ rfl) hparse
          · rw [if_neg hclose] at hparse
            cases hparse
  · cases hparse

/-- Parsing consumes what the nodes print. -/
theorem parse_sound (fuel : Nat) :
    ItemSound fuel ∧ GroupSound fuel ∧ ItemsSound fuel := by
  induction fuel with
  | zero =>
      refine ⟨?_, ?_, ?_⟩
      · intro _ _ _ _ _ _ _ hparse
        rw [parseItem] at hparse
        cases hparse
      · intro _ _ _ _ _ _ _ _ _ hparse
        rw [parseGroup] at hparse
        cases hparse
      · intro _ _ _ _ _ _ _ _ hparse
        rw [parseItems] at hparse
        cases hparse
  | succ fuel ih =>
      obtain ⟨hitem, hgroup, hitems⟩ := ih
      exact ⟨itemSound_succ hitem hgroup, groupSound_succ hitems,
        itemsSound_succ hitem hitems⟩

end Soundness

end DebugRepr

/-- A text without newlines is printed as it is, whether it parses or not. -/
theorem printDebugRepr_prints {repr : Text} (hline : '\n' ∉ repr) :
    Prints (printDebugRepr repr) repr := by
  rw [printDebugRepr]
  cases hparse : DebugRepr.parse repr with
  | none => exact prints_literal hline
  | some nodes =>
      rw [DebugRepr.parse_eq hline le_rfl] at hparse
      obtain ⟨⟨found, rest⟩, hitem, hdone⟩ :=
        Option.bind_eq_some_iff.mp hparse
      dsimp only at hdone
      split_ifs at hdone with hrest
      cases hdone
      obtain ⟨_, s', rfl, hs', hprints⟩ := (DebugRepr.parse_sound _).1
        (show '\n' ∉ [] ++ repr from hline) hitem
      rw [List.isEmpty_iff.mp hrest, List.append_nil] at hs'
      exact (List.nil_append repr).symm.trans hs' ▸ hprints

end Hegel
