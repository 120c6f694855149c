/-
The spans of a stream.  Spans are opened and closed by a stack while choices
are recorded in between; with the open ones closed at the current position,
they form a forest of intervals at every moment of every run.
-/
import Hegel.CloneTree

namespace Hegel

variable {Rng : Type} {sampler : Sampler Rng}

/-- Intervals over a number of positions, nested as their parents say. -/
structure SpanForest (count : Nat) (spans : List Span) : Prop where
  interval : ∀ (idx : Nat) (span : Span), spans[idx]? = some span →
    span.start ≤ span.stop ∧ span.stop ≤ count
  root : ∀ (idx : Nat) (span : Span), spans[idx]? = some span →
    span.parent = none → span.depth = 0
  nested : ∀ (idx : Nat) (span : Span) (parent : Nat),
    spans[idx]? = some span → span.parent = some parent →
      parent < idx ∧ ∃ outer : Span, spans[parent]? = some outer ∧
        span.depth = outer.depth + 1 ∧ outer.start ≤ span.start ∧
          span.stop ≤ outer.stop
  siblings : ∀ (first second : Nat) (a b : Span), first < second →
    spans[first]? = some a → spans[second]? = some b →
      a.parent = b.parent → a.stop ≤ b.start

namespace SpanForest

theorem empty (count : Nat) : SpanForest count [] where
  interval _ _ h := by simp at h
  root _ _ h := by simp at h
  nested _ _ _ h := by simp at h
  siblings _ _ _ _ _ h := by simp at h

/-- A zero-width span at the end of the positions can be added below any span
that reaches that end. -/
theorem push {count : Nat} {spans : List Span} (hforest : SpanForest count spans)
    {span : Span} (hstart : span.start = count) (hstop : span.stop = count)
    (hroot : span.parent = none → span.depth = 0)
    (hparent : ∀ parent, span.parent = some parent →
      ∃ outer : Span, spans[parent]? = some outer ∧
        span.depth = outer.depth + 1 ∧ outer.stop = count) :
    SpanForest count (spans ++ [span]) := by
  have hnew : ∀ (idx : Nat) (other : Span),
      (spans ++ [span])[idx]? = some other →
        spans[idx]? = some other ∨ (idx = spans.length ∧ other = span) := by
    intro idx other hother
    rw [List.getElem?_append] at hother
    split at hother
    · exact .inl hother
    · rename_i hge
      right
      have hlt := (List.getElem?_eq_some_iff.mp hother).1
      have hidx : idx = spans.length := by
        rw [List.length_singleton] at hlt
        omega
      subst hidx
      rw [Nat.sub_self] at hother
      exact ⟨rfl, (Option.some.inj hother).symm⟩
  have hold : ∀ (idx : Nat) (other : Span), spans[idx]? = some other →
      (spans ++ [span])[idx]? = some other := by
    intro idx other hother
    rw [List.getElem?_append_left (List.getElem?_eq_some_iff.mp hother).1]
    exact hother
  constructor
  · intro idx other hother
    rcases hnew idx other hother with hmem | ⟨-, rfl⟩
    · exact hforest.interval idx other hmem
    · rw [hstart, hstop]
      exact ⟨le_refl _, le_refl _⟩
  · intro idx other hother
    rcases hnew idx other hother with hmem | ⟨-, rfl⟩
    · exact hforest.root idx other hmem
    · exact hroot
  · intro idx other parent hother hpar
    rcases hnew idx other hother with hmem | ⟨rfl, rfl⟩
    · obtain ⟨hlt, outer, houter, hrest⟩ :=
        hforest.nested idx other parent hmem hpar
      exact ⟨hlt, outer, hold parent outer houter, hrest⟩
    · obtain ⟨outer, houter, hdepth, hreach⟩ := hparent parent hpar
      have hbounds := hforest.interval parent outer houter
      refine ⟨(List.getElem?_eq_some_iff.mp houter).1, outer,
        hold parent outer houter, hdepth, ?_, ?_⟩
      · rw [hstart, ← hreach]
        exact hbounds.1
      · rw [hstop, hreach]
  · intro first second a b hlt ha hb hsame
    rcases hnew second b hb with hmem | ⟨rfl, rfl⟩
    · have hshort : first < spans.length :=
        hlt.trans (List.getElem?_eq_some_iff.mp hmem).1
      rw [List.getElem?_append_left hshort] at ha
      exact hforest.siblings first second a b hlt ha hmem hsame
    · rw [List.getElem?_append_left hlt] at ha
      rw [hstart]
      exact (hforest.interval first a ha).2

/-- Labels and discards play no part. -/
theorem discard {count : Nat} {spans : List Span}
    (hforest : SpanForest count spans) (idx : Nat) (discarded : Bool) :
    SpanForest count
      (spans.modify idx fun span => { span with discarded := discarded }) := by
  have hshape : ∀ (other : Nat) (span : Span),
      (spans.modify idx fun span => { span with discarded := discarded })[other]?
        = some span →
      ∃ original : Span, spans[other]? = some original ∧
        original.start = span.start ∧ original.stop = span.stop ∧
          original.parent = span.parent ∧ original.depth = span.depth := by
    intro other span hspan
    rw [List.getElem?_modify] at hspan
    obtain ⟨original, horiginal, rfl⟩ := Option.map_eq_some_iff.mp hspan
    refine ⟨original, horiginal, ?_⟩
    by_cases hidx : idx = other <;> simp [hidx]
  have hback : ∀ (other : Nat) (original : Span), spans[other]? = some original →
      ∃ span : Span,
        (spans.modify idx fun span => { span with discarded := discarded })[other]?
          = some span ∧ span.start = original.start ∧
            span.stop = original.stop ∧ span.depth = original.depth := by
    intro other original horiginal
    rw [List.getElem?_modify, horiginal]
    refine ⟨_, rfl, ?_⟩
    by_cases hidx : idx = other <;> simp [hidx]
  constructor
  · intro other span hspan
    obtain ⟨original, horiginal, hstart, hstop, -, -⟩ := hshape other span hspan
    rw [← hstart, ← hstop]
    exact hforest.interval other original horiginal
  · intro other span hspan hroot
    obtain ⟨original, horiginal, -, -, hparent, hdepth⟩ :=
      hshape other span hspan
    rw [← hdepth]
    exact hforest.root other original horiginal (hparent.trans hroot)
  · intro other span parent hspan hnested
    obtain ⟨original, horiginal, hstart, hstop, hparent, hdepth⟩ :=
      hshape other span hspan
    obtain ⟨hlt, outer, houter, hinside⟩ := hforest.nested other original parent
      horiginal (hparent.trans hnested)
    obtain ⟨outer', houter', hstart', hstop', hdepth'⟩ :=
      hback parent outer houter
    refine ⟨hlt, outer', houter', ?_⟩
    rw [hstart', hstop', hdepth', ← hstart, ← hstop, ← hdepth]
    exact hinside
  · intro first second a b hlt ha hb hsame
    obtain ⟨a', ha', -, hstop, hparent, -⟩ := hshape first a ha
    obtain ⟨b', hb', hstart, -, hparent', -⟩ := hshape second b hb
    rw [← hstop, ← hstart]
    apply hforest.siblings first second a' b' hlt ha' hb'
    rw [hparent, hparent', hsame]

end SpanForest

namespace StreamRecord

/-- The spans with the open ones closed at the current position. -/
def closedSpans (record : StreamRecord) : List Span :=
  record.spanStack.foldl
    (fun spans idx => spans.modify idx fun span =>
      { span with stop := record.nodes.length }) record.spans

theorem foldl_close_getElem? (stop : Nat) (stack : List Nat)
    (spans : List Span) (idx : Nat) :
    (stack.foldl (fun spans idx => spans.modify idx fun span =>
        { span with stop := stop }) spans)[idx]? =
      spans[idx]?.map fun span =>
        if idx ∈ stack then { span with stop := stop } else span := by
  induction stack generalizing spans with
  | nil => simp
  | cons top rest ih =>
      rw [List.foldl_cons, ih, List.getElem?_modify]
      cases spans[idx]? with
      | none => rfl
      | some span =>
          by_cases htop : top = idx
          · subst htop
            by_cases hrest : top ∈ rest <;> simp [hrest]
          · have htop' : idx ≠ top := fun h => htop h.symm
            simp [htop, htop', List.mem_cons]

theorem closedSpans_getElem? (record : StreamRecord) (idx : Nat) :
    record.closedSpans[idx]? = record.spans[idx]?.map fun span =>
      if idx ∈ record.spanStack
      then { span with stop := record.nodes.length } else span :=
  foldl_close_getElem? _ _ _ _

theorem length_closedSpans (record : StreamRecord) :
    record.closedSpans.length = record.spans.length := by
  have hlength : ∀ (stack : List Nat) (spans : List Span),
      (stack.foldl (fun spans idx => spans.modify idx fun span =>
        { span with stop := record.nodes.length }) spans).length =
          spans.length := by
    intro stack
    induction stack with
    | nil => exact fun spans => rfl
    | cons top rest ih =>
        intro spans
        rw [List.foldl_cons, ih, List.length_modify]
  exact hlength _ _

theorem closedSpans_of_open {record : StreamRecord} {idx : Nat} {span : Span}
    (hopen : idx ∈ record.spanStack) (hspan : record.spans[idx]? = some span) :
    record.closedSpans[idx]? =
      some { span with stop := record.nodes.length } := by
  rw [closedSpans_getElem?, hspan, Option.map_some, if_pos hopen]

theorem closedSpans_of_closed {record : StreamRecord} {idx : Nat}
    (hclosed : idx ∉ record.spanStack) :
    record.closedSpans[idx]? = record.spans[idx]? := by
  rw [closedSpans_getElem?]
  simp [hclosed]

theorem freeze_spans (record : StreamRecord) (hopen : record.frozen = false) :
    record.freeze.spans = record.closedSpans := by
  rw [freeze, hopen]
  rfl

theorem freeze_nodes (record : StreamRecord) :
    record.freeze.nodes = record.nodes :=
  record.sameTree_freeze.nodes

/-- How the spans of a record stand at every moment. -/
structure Nested (record : StreamRecord) : Prop where
  decreasing : record.spanStack.Pairwise (· > ·)
  /-- Every open span lies directly below the one opened before it. -/
  chain : ∀ (idx : Nat) (rest : List Nat), idx :: rest <:+ record.spanStack →
    ∃ span : Span, record.spans[idx]? = some span ∧
      span.parent = rest.head? ∧ span.depth = rest.length
  /-- An open span is the last one below its parent. -/
  last : ∀ idx ∈ record.spanStack, ∀ (later : Nat) (a b : Span), idx < later →
    record.spans[idx]? = some a → record.spans[later]? = some b →
      a.parent ≠ b.parent
  /-- An open span has no width yet. -/
  placeholder : ∀ idx ∈ record.spanStack, ∀ span : Span,
    record.spans[idx]? = some span → span.stop = span.start
  /-- A frozen record's open spans were opened after its last choice. -/
  settled : record.frozen = true → ∀ idx ∈ record.spanStack, ∀ span : Span,
    record.spans[idx]? = some span → span.start = record.nodes.length
  forest : SpanForest record.nodes.length record.closedSpans

namespace Nested

variable {record : StreamRecord}

theorem start (cloneId : List Nat) : (StreamRecord.new cloneId).Nested where
  decreasing := List.Pairwise.nil
  chain _ _ h := by simp [StreamRecord.new] at h
  last _ h := by simp [StreamRecord.new] at h
  placeholder _ h := by simp [StreamRecord.new] at h
  settled h := by simp [StreamRecord.new] at h
  forest := .empty _

/-- An open span's record and what it lies below. -/
theorem open_span (hnested : record.Nested) {idx : Nat}
    (hopen : idx ∈ record.spanStack) :
    ∃ (span : Span) (rest : List Nat), idx :: rest <:+ record.spanStack ∧
      record.spans[idx]? = some span ∧ span.parent = rest.head? ∧
        span.depth = rest.length := by
  obtain ⟨before, rest, hsplit⟩ := List.append_of_mem hopen
  have hsuffix : idx :: rest <:+ record.spanStack := ⟨before, hsplit.symm⟩
  obtain ⟨span, hspan, hparent, hdepth⟩ := hnested.chain idx rest hsuffix
  exact ⟨span, rest, hsuffix, hspan, hparent, hdepth⟩

/-- Below a closed span every span is closed. -/
theorem parent_open (hnested : record.Nested) {idx parent : Nat} {span : Span}
    (hopen : idx ∈ record.spanStack) (hspan : record.spans[idx]? = some span)
    (hparent : span.parent = some parent) : parent ∈ record.spanStack := by
  obtain ⟨span', rest, hsuffix, hspan', hparent', -⟩ := hnested.open_span hopen
  rw [hspan, Option.some.injEq] at hspan'
  subst hspan'
  rw [hparent] at hparent'
  have hmem : parent ∈ rest := List.mem_of_mem_head? hparent'.symm
  exact hsuffix.subset (List.mem_cons_of_mem _ hmem)

/-- No open span lies directly below the innermost one. -/
theorem parent_ne_head (hnested : record.Nested) {idx : Nat} {span : Span}
    (hopen : idx ∈ record.spanStack) (hspan : record.spans[idx]? = some span) :
    span.parent ≠ record.spanStack.head? := by
  obtain ⟨span', rest, hsuffix, hspan', hparent, -⟩ := hnested.open_span hopen
  rw [hspan, Option.some.injEq] at hspan'
  subst hspan'
  intro hsame
  obtain ⟨before, hsplit⟩ := hsuffix
  have hdecreasing := hnested.decreasing
  rw [hparent, ← hsplit] at hsame
  rw [← hsplit, List.pairwise_append, List.pairwise_cons] at hdecreasing
  obtain ⟨-, ⟨hbelow, -⟩, hacross⟩ := hdecreasing
  cases before with
  | nil =>
      have hlt := hbelow idx (List.mem_of_mem_head? hsame)
      omega
  | cons top before =>
      have htop : top ∈ rest := List.mem_of_mem_head? hsame
      have hgt := hacross top List.mem_cons_self idx List.mem_cons_self
      have hlt := hbelow top htop
      omega

theorem pushNode (hnested : record.Nested) (hopen : record.frozen = false)
    (node : ChoiceNode) : (record.pushNode node).Nested where
  decreasing := hnested.decreasing
  chain := hnested.chain
  last := hnested.last
  placeholder := hnested.placeholder
  settled hfrozen := by
    rw [StreamRecord.pushNode, hopen] at hfrozen
    cases hfrozen
  forest := by
    have hlength : (record.pushNode node).nodes.length =
        record.nodes.length + 1 := by
      rw [StreamRecord.pushNode, List.length_append, List.length_singleton]
    -- closed spans are as before, open ones reach one position further
    have hview : ∀ (idx : Nat) (span : Span),
        (record.pushNode node).closedSpans[idx]? = some span →
          ∃ before : Span, record.closedSpans[idx]? = some before ∧
            before.start = span.start ∧ before.parent = span.parent ∧
              before.depth = span.depth ∧
                ((idx ∈ record.spanStack ∧
                    span.stop = record.nodes.length + 1) ∨
                  (idx ∉ record.spanStack ∧ span.stop = before.stop)) := by
      intro idx span hspan
      rw [closedSpans_getElem?, hlength] at hspan
      obtain ⟨raw, hraw, hshape⟩ := Option.map_eq_some_iff.mp hspan
      change record.spans[idx]? = some raw at hraw
      change (if idx ∈ record.spanStack
        then { raw with stop := record.nodes.length + 1 } else raw) = span
        at hshape
      by_cases hidx : idx ∈ record.spanStack
      · rw [if_pos hidx] at hshape
        subst hshape
        exact ⟨_, closedSpans_of_open hidx hraw, rfl, rfl, rfl,
          .inl ⟨hidx, rfl⟩⟩
      · rw [if_neg hidx] at hshape
        subst hshape
        rw [closedSpans_of_closed hidx]
        exact ⟨raw, hraw, rfl, rfl, rfl, .inr ⟨hidx, rfl⟩⟩
    have hforward : ∀ (idx : Nat) (before : Span),
        record.closedSpans[idx]? = some before →
          ∃ span : Span, (record.pushNode node).closedSpans[idx]? = some span ∧
            span.start = before.start ∧ span.depth = before.depth ∧
              ((idx ∈ record.spanStack ∧
                  span.stop = record.nodes.length + 1) ∨
                (idx ∉ record.spanStack ∧ span.stop = before.stop)) := by
      intro idx before hbefore
      rw [closedSpans_getElem?] at hbefore
      obtain ⟨raw, hraw, rfl⟩ := Option.map_eq_some_iff.mp hbefore
      have hraw' : (record.pushNode node).spans[idx]? = some raw := hraw
      by_cases hidx : idx ∈ record.spanStack
      · rw [closedSpans_of_open (show idx ∈ (record.pushNode node).spanStack
          from hidx) hraw', hlength, if_pos hidx]
        exact ⟨_, rfl, rfl, rfl, .inl ⟨hidx, rfl⟩⟩
      · rw [closedSpans_of_closed (show idx ∉ (record.pushNode node).spanStack
          from hidx), hraw', if_neg hidx]
        exact ⟨_, rfl, rfl, rfl, .inr ⟨hidx, rfl⟩⟩
    rw [hlength]
    constructor
    · intro idx span hspan
      obtain ⟨before, hbefore, hstart, -, -, hstop⟩ := hview idx span hspan
      have hbounds := hnested.forest.interval idx before hbefore
      rcases hstop with ⟨-, hstop⟩ | ⟨-, hstop⟩ <;> omega
    · intro idx span hspan hroot
      obtain ⟨before, hbefore, -, hparent, hdepth, -⟩ := hview idx span hspan
      rw [← hdepth]
      exact hnested.forest.root idx before hbefore (hparent.trans hroot)
    · intro idx span parent hspan hparent
      obtain ⟨before, hbefore, hstart, hparent', hdepth, hstop⟩ :=
        hview idx span hspan
      obtain ⟨hlt, outer, houter, hdepth', hinside⟩ := hnested.forest.nested idx
        before parent hbefore (hparent'.trans hparent)
      obtain ⟨outer', houter', hstart', hdepth'', hstop'⟩ :=
        hforward parent outer houter
      refine ⟨hlt, outer', houter', by omega, by omega, ?_⟩
      have hbounds := hnested.forest.interval idx before hbefore
      rcases hstop' with ⟨-, hreach⟩ | ⟨hclosed, hreach⟩
      · rcases hstop with ⟨-, hstop⟩ | ⟨-, hstop⟩ <;> omega
      · rcases hstop with ⟨hidx, -⟩ | ⟨-, hstop⟩
        · -- an open span below a closed one
          obtain ⟨raw, -, -, hraw, -⟩ := hnested.open_span hidx
          rw [closedSpans_of_open hidx hraw, Option.some.injEq] at hbefore
          subst hbefore
          exact absurd (hnested.parent_open hidx hraw
            (hparent'.trans hparent)) hclosed
        · omega
    · intro first second a b hlt ha hb hsame
      obtain ⟨a', ha', -, hparent, -, hstop⟩ := hview first a ha
      obtain ⟨b', hb', hstart, hparent', -, -⟩ := hview second b hb
      have hsiblings : a'.parent = b'.parent := by
        rw [hparent, hparent', hsame]
      rcases hstop with ⟨hfirst, -⟩ | ⟨-, hstop⟩
      · -- an open span has no sibling after it
        obtain ⟨raw, -, -, hraw, -⟩ := hnested.open_span hfirst
        rw [closedSpans_of_open hfirst hraw, Option.some.injEq] at ha'
        rw [closedSpans_getElem?] at hb'
        obtain ⟨rawLater, hlater, hshape⟩ := Option.map_eq_some_iff.mp hb'
        have hne := hnested.last first hfirst second raw rawLater hlt hraw hlater
        subst ha'
        subst hshape
        exfalso
        apply hne
        by_cases hsecond : second ∈ record.spanStack
        · simpa [hsecond] using hsiblings
        · simpa [hsecond] using hsiblings
      · rw [hstop, ← hstart]
        exact hnested.forest.siblings first second a' b' hlt ha' hb' hsiblings

theorem startSpan (hnested : record.Nested) (label : Nat) :
    (record.startSpan label).Nested := by
  have hlength : record.spans.length ∉ record.spanStack := by
    intro hmem
    obtain ⟨span, -, -, hspan, -⟩ := hnested.open_span hmem
    exact absurd (List.getElem?_eq_some_iff.mp hspan).1 (lt_irrefl _)
  have hbelow : ∀ idx ∈ record.spanStack, idx < record.spans.length := by
    intro idx hidx
    obtain ⟨span, -, -, hspan, -⟩ := hnested.open_span hidx
    exact (List.getElem?_eq_some_iff.mp hspan).1
  have hkept : ∀ idx < record.spans.length,
      (record.startSpan label).spans[idx]? = record.spans[idx]? :=
    fun idx hlt => List.getElem?_append_left hlt
  have hnew : (record.startSpan label).spans[record.spans.length]? =
      some ⟨record.nodes.length, record.nodes.length, toString label,
        record.spanStack.length, record.spanStack.head?, false⟩ := by
    rw [StreamRecord.startSpan, List.getElem?_append_right (le_refl _),
      Nat.sub_self]
    rfl
  have hclosed : (record.startSpan label).closedSpans = record.closedSpans ++
      [⟨record.nodes.length, record.nodes.length, toString label,
        record.spanStack.length, record.spanStack.head?, false⟩] := by
    apply List.ext_getElem?
    intro idx
    rw [closedSpans_getElem?]
    rcases Nat.lt_trichotomy idx record.spans.length with hlt | rfl | hgt
    · have hne : idx ≠ record.spans.length := Nat.ne_of_lt hlt
      rw [hkept idx hlt, List.getElem?_append_left
        (by rwa [length_closedSpans]), closedSpans_getElem?]
      simp [StreamRecord.startSpan, hne]
    · rw [hnew, List.getElem?_append_right (by rw [length_closedSpans]),
        length_closedSpans, Nat.sub_self]
      simp [StreamRecord.startSpan]
    · rw [List.getElem?_eq_none, List.getElem?_eq_none]
      · rfl
      · rw [List.length_append, length_closedSpans]
        exact hgt
      · rw [StreamRecord.startSpan, List.length_append]
        exact hgt
  constructor
  · exact List.pairwise_cons.mpr ⟨hbelow, hnested.decreasing⟩
  · intro idx rest hsuffix
    rcases List.suffix_cons_iff.mp hsuffix with heq | hsuffix
    · obtain ⟨rfl, rfl⟩ := List.cons.inj heq
      exact ⟨_, hnew, rfl, rfl⟩
    · rw [hkept idx (hbelow idx (hsuffix.subset List.mem_cons_self))]
      exact hnested.chain idx rest hsuffix
  · intro idx hidx later a b hlt ha hb
    have hlater := (List.getElem?_eq_some_iff.mp hb).1
    rw [StreamRecord.startSpan, List.length_append, List.length_singleton]
      at hlater
    rcases List.mem_cons.mp hidx with rfl | hidx
    · omega
    · rw [hkept idx (hbelow idx hidx)] at ha
      by_cases hold : later < record.spans.length
      · rw [hkept later hold] at hb
        exact hnested.last idx hidx later a b hlt ha hb
      · have heq : later = record.spans.length := by omega
        subst heq
        rw [hnew, Option.some.injEq] at hb
        subst hb
        exact hnested.parent_ne_head hidx ha
  · intro idx hidx span hspan
    rcases List.mem_cons.mp hidx with rfl | hidx
    · rw [hnew, Option.some.injEq] at hspan
      subst hspan
      rfl
    · rw [hkept idx (hbelow idx hidx)] at hspan
      exact hnested.placeholder idx hidx span hspan
  · intro hfrozen idx hidx span hspan
    rcases List.mem_cons.mp hidx with rfl | hidx
    · rw [hnew, Option.some.injEq] at hspan
      subst hspan
      rfl
    · rw [hkept idx (hbelow idx hidx)] at hspan
      exact hnested.settled hfrozen idx hidx span hspan
  · rw [hclosed]
    apply hnested.forest.push
    · rfl
    · rfl
    · intro hroot
      rw [List.head?_eq_none_iff.mp hroot]
      rfl
    · intro parent hparent
      obtain ⟨rest, hstack⟩ := List.head?_eq_some_iff.mp hparent
      obtain ⟨outer, houter, -, hdepth⟩ :=
        hnested.chain parent rest (by rw [hstack])
      have hopen : parent ∈ record.spanStack := by
        rw [hstack]
        exact List.mem_cons_self
      refine ⟨_, closedSpans_of_open hopen houter, ?_, rfl⟩
      rw [hdepth, hstack]
      rfl

theorem stopSpan (hnested : record.Nested) (discard : Bool) :
    (record.stopSpan discard).Nested := by
  rw [StreamRecord.stopSpan]
  cases hstack : record.spanStack with
  | nil => exact hnested
  | cons top rest =>
      have hdecreasing := hnested.decreasing
      rw [hstack, List.pairwise_cons] at hdecreasing
      have hne : ∀ idx ∈ rest, top ≠ idx :=
        fun idx hidx heq => absurd (hdecreasing.1 idx hidx) (by omega)
      have hmem : ∀ idx ∈ rest, idx ∈ record.spanStack := by
        intro idx hidx
        rw [hstack]
        exact List.mem_cons_of_mem _ hidx
      have hkept : ∀ idx ∈ rest, ∀ close : Span → Span,
          (record.spans.modify top close)[idx]? = record.spans[idx]? :=
        fun idx hidx close => List.getElem?_modify_ne _ _ (hne idx hidx)
      have hparent : ∀ (idx : Nat) (span : Span),
          (record.spans.modify top fun span =>
            { span with stop := record.nodes.length,
                        discarded := discard })[idx]? = some span →
          ∃ before : Span, record.spans[idx]? = some before ∧
            before.parent = span.parent := by
        intro idx span hspan
        rw [List.getElem?_modify] at hspan
        obtain ⟨before, hbefore, rfl⟩ := Option.map_eq_some_iff.mp hspan
        refine ⟨before, hbefore, ?_⟩
        by_cases htop : top = idx <;> simp [htop]
      constructor
      · exact hdecreasing.2
      · intro idx rest' hsuffix
        have hidx : idx ∈ rest := hsuffix.subset List.mem_cons_self
        rw [hkept idx hidx]
        apply hnested.chain
        rw [hstack]
        exact hsuffix.trans (List.suffix_cons _ _)
      · intro idx hidx later a b hlt ha hb
        obtain ⟨a', ha', hsame⟩ := hparent idx a ha
        obtain ⟨b', hb', hsame'⟩ := hparent later b hb
        rw [← hsame, ← hsame']
        exact hnested.last idx (hmem idx hidx) later a' b' hlt ha' hb'
      · intro idx hidx span hspan
        rw [hkept idx hidx] at hspan
        exact hnested.placeholder idx (hmem idx hidx) span hspan
      · intro hfrozen idx hidx span hspan
        rw [hkept idx hidx] at hspan
        exact hnested.settled hfrozen idx (hmem idx hidx) span hspan
      · have hclosed : StreamRecord.closedSpans
            { record with
              spans := record.spans.modify top fun span =>
                { span with stop := record.nodes.length, discarded := discard }
              spanStack := rest
              hasDiscards := record.hasDiscards || discard } =
            record.closedSpans.modify top fun span =>
              { span with discarded := discard } := by
          apply List.ext_getElem?
          intro idx
          rw [closedSpans_getElem?, List.getElem?_modify, List.getElem?_modify,
            closedSpans_getElem?, hstack]
          cases record.spans[idx]? with
          | none => rfl
          | some span =>
              by_cases htop : top = idx
              · subst htop
                have hrest : top ∉ rest := fun hidx => hne top hidx rfl
                simp [hrest]
              · have htop' : idx ≠ top := fun h => htop h.symm
                simp [htop, htop']
        rw [hclosed]
        exact hnested.forest.discard top discard

theorem freeze (hnested : record.Nested) : record.freeze.Nested := by
  cases hfrozen : record.frozen with
  | true =>
      rw [freeze_of_frozen hfrozen]
      exact hnested
  | false =>
      rw [StreamRecord.freeze, hfrozen]
      constructor
      · exact List.Pairwise.nil
      · intro idx rest hsuffix
        exact absurd (List.suffix_nil.mp hsuffix) (by simp)
      · intro idx hidx
        exact absurd hidx List.not_mem_nil
      · intro idx hidx
        exact absurd hidx List.not_mem_nil
      · intro _ idx hidx
        exact absurd hidx List.not_mem_nil
      · exact hnested.forest

theorem pushClone (hnested : record.Nested) (hopen : record.frozen = false)
    (handle : Nat) : (record.pushClone handle).Nested :=
  let hpushed := hnested.pushNode hopen clonePlaceholder
  ⟨hpushed.decreasing, hpushed.chain, hpushed.last, hpushed.placeholder,
    hpushed.settled, hpushed.forest⟩

/-- After freezing, the spans form a forest. -/
theorem freeze_forest (hnested : record.Nested) :
    SpanForest record.freeze.nodes.length record.freeze.spans := by
  cases hfrozen : record.frozen with
  | true =>
      rw [freeze_of_frozen hfrozen]
      have hclosed : record.closedSpans = record.spans := by
        apply List.ext_getElem?
        intro idx
        by_cases hidx : idx ∈ record.spanStack
        · obtain ⟨span, -, -, hspan, -⟩ := hnested.open_span hidx
          have hreach : span.stop = record.nodes.length :=
            (hnested.placeholder idx hidx span hspan).trans
              (hnested.settled hfrozen idx hidx span hspan)
          rw [closedSpans_of_open hidx hspan, hspan, ← hreach]
        · exact closedSpans_of_closed hidx
      rw [← hclosed]
      exact hnested.forest
  | false =>
      rw [freeze_nodes, freeze_spans record hfrozen]
      exact hnested.forest

end Nested

end StreamRecord

section Steps

theorem freezeStream_nested {record : StreamRecord} (hnested : record.Nested)
    (family : FamilyCore) : (freezeStream family record).2.Nested := by
  rw [freezeStream]
  cases record.frozen with
  | true => exact hnested
  | false => exact hnested.freeze

theorem recordStep_nested {record : StreamRecord} (hnested : record.Nested)
    (family : FamilyCore) (op : RecordOp) :
    (recordStep family record op).2.2.Nested := by
  cases op with
  | startSpan label =>
      rw [recordStep, startSpan]
      by_cases hdeep : record.spanStack.length + 1 > maxDepth
      · simp only [if_pos hdeep]
        exact freezeStream_nested (hnested.startSpan label) _
      · simp only [if_neg hdeep]
        exact hnested.startSpan label
  | stopSpan discard => exact hnested.stopSpan discard
  | freeze => exact freezeStream_nested hnested family
  | conclude status origin => exact hnested

/-- Only a concluded family freezes a stream. -/
theorem recordStep_frozen {family : FamilyCore} {record : StreamRecord}
    (hfrozen : record.frozen = true → family.conclusion.isSome)
    (op : RecordOp) :
    (recordStep family record op).2.2.frozen = true →
      (recordStep family record op).2.1.conclusion.isSome := by
  have hfreeze : ∀ (family : FamilyCore) (record : StreamRecord),
      (record.frozen = true → family.conclusion.isSome) →
        (freezeStream family record).2.frozen = true →
          (freezeStream family record).1.conclusion.isSome := by
    intro family record hrecord
    rw [freezeStream]
    cases hcase : record.frozen with
    | true => exact fun _ => hrecord hcase
    | false => exact fun _ => family.conclude_isSome .valid none
  have hkept : ∀ (status : Status) (origin : Option String),
      record.frozen = true →
        (family.conclude status origin).conclusion.isSome :=
    fun status origin _ => family.conclude_isSome status origin
  cases op with
  | startSpan label =>
      rw [recordStep, startSpan]
      by_cases hdeep : record.spanStack.length + 1 > maxDepth
      · simp only [if_pos hdeep]
        exact hfreeze _ _ (hkept .invalid none)
      · simp only [if_neg hdeep]
        exact hfrozen
  | stopSpan discard =>
      rw [recordStep, StreamRecord.stopSpan]
      cases record.spanStack <;> exact hfrozen
  | freeze => exact hfreeze family record hfrozen
  | conclude status origin => exact hkept status origin

end Steps

namespace TestCaseFamily

/-- How the spans of a test case stand at every moment of a run; a running
case has no frozen stream. -/
structure Nested (state : TestCaseFamily Rng) : Prop where
  records : ∀ stream ∈ state.streams, stream.record.Nested
  frozen : ∀ stream ∈ state.streams, stream.record.frozen = true →
    state.family.conclusion.isSome

theorem nested_start (input : StreamInput Rng) (budget : Nat) :
    (start input budget).Nested where
  records stream hstream := by
    rw [List.mem_singleton.mp hstream]
    exact .start []
  frozen stream hstream := by
    rw [List.mem_singleton.mp hstream]
    exact fun hfrozen => by cases hfrozen

theorem nested_step {state next : TestCaseFamily Rng}
    {request : StreamRequest} {reply : StreamReply} (hnested : state.Nested)
    (hanswer : step sampler state request = .ok (reply, next)) :
    next.Nested := by
  obtain ⟨hrecords, hfrozen⟩ := hnested
  have hrunning : state.family.conclusion = none →
      ∀ stream ∈ state.streams, stream.record.frozen = false := by
    intro hopen stream hstream
    by_contra hcase
    have hsome := hfrozen stream hstream (Bool.eq_true_of_not_eq_false hcase)
    rw [hopen] at hsome
    cases hsome
  cases step_cases hanswer with
  | unchanged => exact ⟨hrecords, hfrozen⟩
  | overran draws hopen hdraws => exact ⟨hrecords, fun _ _ _ => rfl⟩
  | @drew stream op drawRequest drawn input wasForced hstream hrequest hopen
      hbudget hproduces =>
      have hmem := List.mem_of_getElem? hstream
      have hopenStream := hrunning hopen stream hmem
      constructor
      · exact forall_mem_set hrecords
          ((hrecords stream hmem).pushNode hopenStream _) _
      · intro stream' hstream' hcase
        rcases List.mem_or_eq_of_mem_set hstream' with hold | rfl
        · rw [hrunning hopen stream' hold] at hcase
          cases hcase
        · exact absurd (hcase.symm.trans hopenStream) (by simp)
  | @tooDeep stream hstream hop hopen hbudget hdepth =>
      have hmem := List.mem_of_getElem? hstream
      exact ⟨forall_mem_set hrecords (hrecords stream hmem).freeze _,
        fun _ _ _ => rfl⟩
  | @cloned stream childRng input hstream hopen hbudget hdepth =>
      have hmem := List.mem_of_getElem? hstream
      have hopenStream := hrunning hopen stream hmem
      constructor
      · intro stream' hstream'
        rcases List.mem_append.mp hstream' with hold | hnew
        · exact forall_mem_set hrecords
            ((hrecords stream hmem).pushClone hopenStream _) _ stream' hold
        · rw [List.mem_singleton.mp hnew]
          exact .start _
      · intro stream' hstream' hcase
        rcases List.mem_append.mp hstream' with hold | hnew
        · rcases List.mem_or_eq_of_mem_set hold with hold | rfl
          · rw [hrunning hopen stream' hold] at hcase
            cases hcase
          · exact absurd (hcase.symm.trans hopenStream) (by simp)
        · rw [List.mem_singleton.mp hnew] at hcase
          cases hcase
  | @recorded stream op family record hstream hop hrecorded hfamily hrecord =>
      have hmem := List.mem_of_getElem? hstream
      have hnext := recordStep_nested (hrecords stream hmem) state.family op
      have hconcluded := recordStep_frozen (hfrozen stream hmem) op
      rw [hrecorded] at hnext hconcluded
      constructor
      · exact forall_mem_set hrecords hnext _
      · intro stream' hstream' hcase
        rcases List.mem_or_eq_of_mem_set hstream' with hold | rfl
        · obtain ⟨verdict, hverdict⟩ :=
            Option.isSome_iff_exists.mp (hfrozen stream' hold hcase)
          exact Option.isSome_of_eq_some (hfamily.stands verdict hverdict)
        · exact hconcluded hcase

theorem nested_of_reaches {input : StreamInput Rng} {budget : Nat}
    {final : TestCaseFamily Rng}
    (hreaches : Interaction.Reaches (step sampler) (start input budget) final) :
    final.Nested :=
  hreaches.invariant (fun _ _ _ _ => nested_step) (nested_start input budget)

end TestCaseFamily

/-- Whatever is asked of the streams of a test case, in whatever order, each
stream's spans form a forest over its choices once it is frozen. -/
theorem frozen_spans_form_forest {input : StreamInput Rng} {budget : Nat}
    {final : TestCaseFamily Rng}
    (hreaches : Interaction.Reaches (step sampler) (.start input budget) final)
    {stream : NativeTestCase Rng} (hstream : stream ∈ final.streams) :
    SpanForest stream.record.freeze.nodes.length stream.record.freeze.spans :=
  (TestCaseFamily.nested_of_reaches hreaches).records stream hstream
    |>.freeze_forest

/-- An open span around a discarded empty one is closed by freezing. -/
theorem frozen_spans_form_forest_sample :
    ∃ state : TestCaseFamily Unit, ∃ stream ∈ state.streams,
      Interaction.Reaches (step Sampler.simplest)
        (.start ⟨[.integer 1], none, none, 2, none⟩ 8) state ∧
      stream.record.freeze.spans =
        [⟨0, 1, toString 5, 0, none, false⟩, ⟨0, 0, toString 6, 1, some 0, true⟩] ∧
      SpanForest stream.record.freeze.nodes.length
        stream.record.freeze.spans := by
  have hreaches : Interaction.Reaches (step Sampler.simplest)
      (.start ⟨[.integer 1], none, none, 2, none⟩ 8) _ :=
    .tail (.tail (.tail (.tail .refl ⟨⟨0, .record (.startSpan 5)⟩, _, rfl⟩)
      ⟨⟨0, .record (.startSpan 6)⟩, _, rfl⟩)
      ⟨⟨0, .record (.stopSpan true)⟩, _, rfl⟩)
      ⟨⟨0, .draw (.integer 0 3)⟩, _, rfl⟩
  exact ⟨_, _, List.mem_cons_self, hreaches, rfl,
    frozen_spans_form_forest hreaches List.mem_cons_self⟩

end Hegel
