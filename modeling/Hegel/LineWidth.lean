/-
How wide the lines of a document get.  A breakable may be indented beyond the
column that what follows it was measured at; when it breaks, what was found to
fit moves to the right by that much and is not measured again.  A line with a
separator on it is wider than the maximum by no more than that.
-/
import Hegel.OpenGroups
import Mathlib.Algebra.Ring.Nat
import Mathlib.Data.List.Induction

namespace Hegel

/-- One line of the output, with how far the breakable that it starts at
overhangs, and whether there is a separator on it. -/
structure Line where
  content : Text
  overhang : Nat
  flat : Bool
deriving DecidableEq

def Line.width (line : Line) : Nat :=
  line.content.length

/-- Reading pieces: the lines read so far, the one being read, and the overhangs
of the breakables to come. -/
structure LineScan where
  finished : List Line
  current : Line
  ahead : List Nat

def LineScan.step (scan : LineScan) : Piece → LineScan
  | .text content =>
      { scan with current :=
          { scan.current with content := scan.current.content ++ content } }
  | .separator _ sep =>
      { scan with
        current :=
          { scan.current with
            content := scan.current.content ++ sep
            flat := true }
        ahead := scan.ahead.tail }
  | .newline none indent =>
      { scan with
        finished := scan.finished ++ [scan.current]
        current := ⟨spaces indent, 0, false⟩ }
  | .newline (some _) indent =>
      { finished := scan.finished ++ [scan.current]
        current := ⟨spaces indent, scan.ahead.headD 0, false⟩
        ahead := scan.ahead.tail }

def scanLines (overhangs : List Nat) (pieces : List Piece) : LineScan :=
  pieces.foldl LineScan.step ⟨[], ⟨[], 0, false⟩, overhangs⟩

/-- The lines of a document, given the overhangs of its breakables. -/
def outputLines (overhangs : List Nat) (pieces : List Piece) : List Line :=
  (scanLines overhangs pieces).finished ++ [(scanLines overhangs pieces).current]

/-- Text, breakables and groups. -/
def Cmd.isPlain : Cmd → Bool
  | .text _ => true
  | .breakable _ => true
  | .beginGroup _ _ => true
  | .endGroup _ => true
  | _ => false

/-- How far each breakable is indented beyond the lowest column at which what
follows it can be when it does not break, given the lowest column so far and
the indents of the open groups. -/
def overhangs : Nat → List Nat → List Cmd → List Nat
  | _, _, [] => []
  | low, indents, .text s :: rest => overhangs (low + s.length) indents rest
  | low, indents, .breakable sep :: rest =>
      (indents.sum - (low + sep.length)) ::
        overhangs (min (low + sep.length) indents.sum) indents rest
  | low, indents, .beginGroup indent opening :: rest =>
      overhangs (low + opening.length) (indent :: indents) rest
  | low, indents, .endGroup close :: rest =>
      overhangs (low + close.length) indents.tail rest
  | low, indents, _ :: rest => overhangs low indents rest

section Lines

variable (overhangs : List Nat)

theorem scanLines_concat (pieces : List Piece) (piece : Piece) :
    scanLines overhangs (pieces ++ [piece]) =
      (scanLines overhangs pieces).step piece := by
  rw [scanLines, List.foldl_append]
  rfl

theorem length_spaces (indent : Int) : (spaces indent).length = indent.toNat :=
  List.length_replicate

theorem render_scanLines (pieces : List Piece) :
    pieces.flatMap Piece.render =
      ((scanLines overhangs pieces).finished.flatMap fun line =>
        line.content ++ ['\n']) ++
          (scanLines overhangs pieces).current.content := by
  induction pieces using List.reverseRecOn with
  | nil => rfl
  | append_singleton pieces piece ih =>
      rw [List.flatMap_append, ih, scanLines_concat]
      cases piece with
      | text content => simp [LineScan.step, Piece.render]
      | separator owner sep => simp [LineScan.step, Piece.render]
      | newline owner indent =>
          cases owner <;> simp [LineScan.step, Piece.render]

theorem intercalate_concat (lines : List Line) (last : Line) :
    List.intercalate ['\n'] ((lines ++ [last]).map Line.content) =
      (lines.flatMap fun line => line.content ++ ['\n']) ++ last.content := by
  induction lines with
  | nil => simp
  | cons line rest ih =>
      have hne : (rest ++ [last]).map Line.content ≠ [] := by simp
      rw [List.cons_append, List.map_cons, List.intercalate_cons_of_ne_nil hne,
        ih, List.flatMap_cons, List.append_assoc, List.append_assoc,
        List.append_assoc]

/-- The lines are those of the rendered text. -/
theorem render_outputLines (pieces : List Piece) :
    pieces.flatMap Piece.render = List.intercalate ['\n']
      ((outputLines overhangs pieces).map Line.content) := by
  rw [render_scanLines overhangs, outputLines, intercalate_concat]

end Lines

section Tokens

def tokensWidth (tokens : List Token) : Nat :=
  (tokens.map Token.width).sum

/-- Text or a breakable that is as wide as it says. -/
def Token.Plain : Token → Prop
  | text content width => width = content.length
  | breakable sep width _ _ => width = sep.length
  | _ => False

/-- The lowest column after a token. -/
def Token.lowest (low : Nat) : Token → Nat
  | breakable _ width indent _ => min (low + width) indent.toNat
  | token => low + token.width

/-- How far a token overhangs, if it is a breakable. -/
def Token.overhang (low : Nat) : Token → List Nat
  | breakable _ width indent _ => [indent.toNat - (low + width)]
  | _ => []

def lowAfter : Nat → List Token → Nat
  | low, [] => low
  | low, token :: rest => lowAfter (token.lowest low) rest

def tokenOverhangs : Nat → List Token → List Nat
  | _, [] => []
  | low, token :: rest =>
      token.overhang low ++ tokenOverhangs (token.lowest low) rest

/-- From a column on, every breakable stands within a limit. -/
def BreaksWithin (limit : Nat) : Nat → List Token → Prop
  | _, [] => True
  | column, token :: rest =>
      (token.owner.isSome → column ≤ limit) ∧
        BreaksWithin limit (column + token.width) rest

/-- From every breakable on, those after it stand within the limit. -/
def Spaced (limit : Nat) : Nat → List Token → Prop
  | _, [] => True
  | low, token :: rest =>
      (token.owner.isSome → BreaksWithin limit (low + token.width) rest) ∧
        Spaced limit (token.lowest low) rest

variable {limit column low : Nat} {tokens : List Token}

theorem tokensWidth_cons (token : Token) (rest : List Token) :
    tokensWidth (token :: rest) = token.width + tokensWidth rest := by
  rw [tokensWidth, List.map_cons, List.sum_cons, tokensWidth]

theorem tokensWidth_append (first second : List Token) :
    tokensWidth (first ++ second) = tokensWidth first + tokensWidth second := by
  rw [tokensWidth, List.map_append, List.sum_append, tokensWidth, tokensWidth]

theorem Token.lowest_le (token : Token) (low : Nat) :
    token.lowest low ≤ low + token.width := by
  cases token with
  | breakable sep width indent owner => exact Nat.min_le_left _ _
  | text content width => exact Nat.le_refl _
  | ifBreak content owner => exact Nat.le_refl _
  | comment content => exact Nat.le_refl _

/-- Where the column moves to the right by no more than the limit, all still
stand within it. -/
theorem BreaksWithin.shift (hwithin : BreaksWithin limit column tokens)
    {limit' column' : Nat} (hshift : column' + limit ≤ column + limit') :
    BreaksWithin limit' column' tokens := by
  induction tokens generalizing column column' with
  | nil => trivial
  | cons token rest ih =>
      refine ⟨fun howner => ?_, ih hwithin.2 (by omega)⟩
      have hcolumn := hwithin.1 howner
      omega

theorem BreaksWithin.tail {token : Token} {rest : List Token}
    (hwithin : BreaksWithin limit column (token :: rest)) :
    BreaksWithin limit (column + token.width) rest :=
  hwithin.2

theorem BreaksWithin.concat (hwithin : BreaksWithin limit column tokens)
    {token : Token} (hwidth : token.owner.isSome →
      column + tokensWidth tokens ≤ limit) :
    BreaksWithin limit column (tokens ++ [token]) := by
  induction tokens generalizing column with
  | nil => exact ⟨fun howner => hwidth howner, trivial⟩
  | cons head rest ih =>
      refine ⟨hwithin.1, ih hwithin.2 fun howner => ?_⟩
      have htotal := hwidth howner
      rw [tokensWidth_cons] at htotal
      omega

theorem Spaced.concat (hspaced : Spaced limit low tokens) {token : Token}
    (hwidth : token.owner.isSome → low + tokensWidth tokens ≤ limit) :
    Spaced limit low (tokens ++ [token]) := by
  induction tokens generalizing low with
  | nil => exact ⟨fun _ => trivial, trivial⟩
  | cons head rest ih =>
      rw [tokensWidth_cons] at hwidth
      refine ⟨fun howner => (hspaced.1 howner).concat fun h => ?_,
        ih hspaced.2 fun h => ?_⟩
      · have htotal := hwidth h
        omega
      · have htotal := hwidth h
        have hlow := head.lowest_le low
        omega

theorem lowAfter_concat (low : Nat) (tokens : List Token) (token : Token) :
    lowAfter low (tokens ++ [token]) =
      token.lowest (lowAfter low tokens) := by
  induction tokens generalizing low with
  | nil => rfl
  | cons head rest ih => exact ih (head.lowest low)

theorem tokenOverhangs_concat (low : Nat) (tokens : List Token)
    (token : Token) :
    tokenOverhangs low (tokens ++ [token]) =
      tokenOverhangs low tokens ++ token.overhang (lowAfter low tokens) := by
  induction tokens generalizing low with
  | nil => exact List.append_nil _
  | cons head rest ih =>
      rw [List.cons_append, tokenOverhangs, tokenOverhangs, ih,
        List.append_assoc, lowAfter]

variable (s : Text)

theorem lowAfter_pushText (low : Nat) (tokens : List Token) :
    lowAfter low (Renderer.pushText s tokens) =
      lowAfter low tokens + s.length := by
  induction tokens using Renderer.pushText.induct generalizing low with
  | case1 => rfl
  | case2 content width => exact (Nat.add_assoc _ _ _).symm
  | case3 token rest hnot ih =>
      rw [Renderer.pushText, lowAfter, lowAfter, ih]
      exact hnot

theorem tokenOverhangs_pushText (low : Nat) (tokens : List Token) :
    tokenOverhangs low (Renderer.pushText s tokens) =
      tokenOverhangs low tokens := by
  induction tokens using Renderer.pushText.induct generalizing low with
  | case1 => rfl
  | case2 content width => rfl
  | case3 token rest hnot ih =>
      rw [Renderer.pushText, tokenOverhangs, tokenOverhangs, ih]
      exact hnot

theorem tokensWidth_pushText (tokens : List Token) :
    tokensWidth (Renderer.pushText s tokens) =
      tokensWidth tokens + s.length := by
  induction tokens using Renderer.pushText.induct with
  | case1 => exact Nat.add_comm _ _
  | case2 content width => exact Nat.add_right_comm _ _ _
  | case3 token rest hnot ih =>
      rw [Renderer.pushText, tokensWidth_cons, tokensWidth_cons, ih,
        Nat.add_assoc]
      exact hnot

theorem plain_pushText {tokens : List Token}
    (hplain : ∀ token ∈ tokens, token.Plain) :
    ∀ token ∈ Renderer.pushText s tokens, token.Plain := by
  induction tokens using Renderer.pushText.induct with
  | case1 =>
      intro token htoken
      rw [Renderer.pushText, List.mem_singleton] at htoken
      rw [htoken]
      rfl
  | case2 content width =>
      have hwidth : width = content.length := hplain _ List.mem_cons_self
      intro token htoken
      rw [Renderer.pushText, List.mem_singleton] at htoken
      rw [htoken, Token.Plain, List.length_append, hwidth]
  | case3 token rest hnot ih =>
      rw [Renderer.pushText, List.forall_mem_cons]
      · rw [List.forall_mem_cons] at hplain
        exact ⟨hplain.1, ih hplain.2⟩
      · exact hnot

theorem BreaksWithin.pushText (hwithin : BreaksWithin limit column tokens) :
    BreaksWithin limit column (Renderer.pushText s tokens) := by
  induction tokens using Renderer.pushText.induct generalizing column with
  | case1 => exact ⟨fun h => (by cases h), trivial⟩
  | case2 content width => exact ⟨fun h => (by cases h), trivial⟩
  | case3 token rest hnot ih =>
      rw [Renderer.pushText]
      · exact ⟨hwithin.1, ih hwithin.2⟩
      · exact hnot

theorem Spaced.pushText (hspaced : Spaced limit low tokens) :
    Spaced limit low (Renderer.pushText s tokens) := by
  induction tokens using Renderer.pushText.induct generalizing low with
  | case1 => exact ⟨fun h => (by cases h), trivial⟩
  | case2 content width => exact ⟨fun h => (by cases h), trivial⟩
  | case3 token rest hnot ih =>
      rw [Renderer.pushText]
      · exact ⟨fun h => (hspaced.1 h).pushText s, ih hspaced.2⟩
      · exact hnot

/-- The first token stays a breakable if it was one. -/
theorem pushText_cons {token : Token} (howner : token.owner.isSome)
    (rest : List Token) :
    Renderer.pushText s (token :: rest) =
      token :: Renderer.pushText s rest := by
  rw [Renderer.pushText]
  rintro content width rfl -
  cases howner

end Tokens

namespace Renderer

/-- What laying out never changes. -/
structure SameShape (r r' : Renderer) : Prop where
  groupStack : r'.groupStack = r.groupStack
  maxWidth : r'.maxWidth = r.maxWidth
  indentation : r'.indentation = r.indentation
  forceBreak : r'.forceBreak = r.forceBreak
  indent : ∀ id, (r'.group id).indent = (r.group id).indent
  comment : ∀ id, (r'.group id).comment = (r.group id).comment

theorem sameShape_refl (r : Renderer) : SameShape r r :=
  ⟨rfl, rfl, rfl, rfl, fun _ => rfl, fun _ => rfl⟩

theorem SameShape.trans {r r' r'' : Renderer} (h : SameShape r r')
    (h' : SameShape r' r'') : SameShape r r'' where
  groupStack := h'.groupStack.trans h.groupStack
  maxWidth := h'.maxWidth.trans h.maxWidth
  indentation := h'.indentation.trans h.indentation
  forceBreak := h'.forceBreak.trans h.forceBreak
  indent id := (h'.indent id).trans (h.indent id)
  comment id := (h'.comment id).trans (h.comment id)

/-- What is measured, given the overhangs of all breakables: the lowest column
behind the buffer is `stop`, and the breakables to come have the overhangs
`future`.  Completed lines keep their bound; on the current line the breakables
that wait stand within its bound, but for a first one with nothing flat before
it; and from each breakable that waits the later ones stand within the maximum,
if that breakable is a separator. -/
structure Measured (overhangs future : List Nat) (low : Nat) (r : Renderer) :
    Prop where
  plain : ∀ token ∈ r.buffer, token.Plain
  uncommented : r.pendingComments = []
  width : r.outputWidth = (scanLines overhangs r.out).current.width
  low_le : low ≤ r.outputWidth
  ahead : (scanLines overhangs r.out).ahead =
    tokenOverhangs low r.buffer ++ future
  finished : ∀ line ∈ (scanLines overhangs r.out).finished,
    line.flat = true → line.width ≤ r.maxWidth + line.overhang
  reaches : (scanLines overhangs r.out).current.flat = true →
    BreaksWithin (r.maxWidth + (scanLines overhangs r.out).current.overhang)
      r.outputWidth r.buffer
  reachesTail : ∀ token rest, r.buffer = token :: rest →
    BreaksWithin (r.maxWidth + (scanLines overhangs r.out).current.overhang)
      (r.outputWidth + token.width) rest
  spaced : Spaced r.maxWidth low r.buffer

section Measuring

variable {r : Renderer} {token : Token} {rest : List Token}
  {overhangs future : List Nat} {low : Nat}

/-- A breakable that breaks starts a line at its indentation, any other token
adds its width. -/
theorem pop_plain (hplain : token.Plain) (hcomments : r.pendingComments = [])
    (width : Nat) :
    (∃ sep breakWidth indent id,
      token = .breakable sep breakWidth indent id ∧
        (r.group id).wantBreak = true ∧
        (r.pop token rest width).out =
          r.out ++ [.text []] ++ [.newline (some id) indent] ∧
        (r.pop token rest width).outputWidth = indent.toNat) ∨
    (∃ sep breakWidth indent id,
      token = .breakable sep breakWidth indent id ∧
        (r.group id).wantBreak = false ∧
        (r.pop token rest width).out = r.out ++ [.separator id sep] ∧
        (r.pop token rest width).outputWidth =
          r.outputWidth + token.width) ∨
    (∃ content, token = .text content content.length ∧
        (r.pop token rest width).out = r.out ++ [.text content] ∧
        (r.pop token rest width).outputWidth =
          r.outputWidth + token.width) := by
  cases token with
  | ifBreak content id => exact hplain.elim
  | comment content => exact hplain.elim
  | text content contentWidth =>
      obtain rfl : contentWidth = content.length := hplain
      exact .inr (.inr ⟨content, rfl, rfl, rfl⟩)
  | breakable sep breakWidth indent id =>
      have hwant : (({ r with buffer := rest, bufferWidth := width } :
          Renderer).countOut id |>.group id).wantBreak =
            (r.group id).wantBreak := by
        rw [group_countOut, if_pos rfl]
        rfl
      rw [pop, outputToken]
      dsimp only
      cases hbroken : (r.group id).wantBreak with
      | true =>
          rw [if_pos (hwant.trans hbroken)]
          refine .inl ⟨sep, breakWidth, indent, id, rfl, hbroken, ?_, rfl⟩
          simp only [startLine, emitPendingComments, countOut, hcomments]
      | false =>
          rw [if_neg (by rw [hwant, hbroken]; decide)]
          refine .inr (.inl ⟨sep, breakWidth, indent, id, rfl, hbroken, ?_, ?_⟩)
          · split_ifs <;> rfl
          · split_ifs <;> rfl

theorem sameShape_pop (hplain : token.Plain) (width : Nat) :
    SameShape r (r.pop token rest width) := by
  cases token with
  | ifBreak content id => exact hplain.elim
  | comment content => exact hplain.elim
  | text content contentWidth =>
      exact ⟨rfl, rfl, rfl, rfl, fun _ => rfl, fun _ => rfl⟩
  | breakable sep breakWidth indent owner =>
      have hgroup : ∀ id, (({ r with buffer := rest, bufferWidth := width } :
          Renderer).countOut owner).group id = _ := group_countOut _
      have hindent : ∀ id, ((({ r with buffer := rest, bufferWidth := width } :
          Renderer).countOut owner).group id).indent = (r.group id).indent := by
        intro id
        rw [hgroup]
        split_ifs <;> rfl
      have hcomment : ∀ id, ((({ r with buffer := rest, bufferWidth := width } :
          Renderer).countOut owner).group id).comment =
            (r.group id).comment := by
        intro id
        rw [hgroup]
        split_ifs <;> rfl
      rw [pop, outputToken]
      dsimp only
      by_cases hbroken : (({ r with buffer := rest, bufferWidth := width } :
          Renderer).countOut owner |>.group owner).wantBreak = true
      · rw [if_pos hbroken]
        exact ⟨rfl, rfl, rfl, rfl, hindent, hcomment⟩
      · rw [if_neg hbroken]
        by_cases hlast : (({ r with buffer := rest, bufferWidth := width } :
            Renderer).countOut owner |>.group owner).pending = 0
        · rw [if_pos hlast]
          exact ⟨rfl, rfl, rfl, rfl, hindent, hcomment⟩
        · rw [if_neg hlast]
          exact ⟨rfl, rfl, rfl, rfl, hindent, hcomment⟩

theorem pendingComments_pop (hplain : token.Plain)
    (hcomments : r.pendingComments = []) (width : Nat) :
    (r.pop token rest width).pendingComments = [] := by
  cases token with
  | ifBreak content id => exact hplain.elim
  | comment content => exact hplain.elim
  | text content contentWidth => exact hcomments
  | breakable sep breakWidth indent owner =>
      rw [pop, outputToken]
      dsimp only
      split_ifs <;> first | rfl | exact hcomments

/-- Outputting a token keeps the measures. -/
theorem Measured.pop (hr : r.Measured overhangs future low)
    (hbuffer : r.buffer = token :: rest) (width : Nat)
    (hrest : (r.pop token rest width).buffer = rest) :
    (r.pop token rest width).Measured overhangs future
      (token.lowest low) := by
  have hplain : token.Plain := hr.plain token (by rw [hbuffer]; simp)
  have hmax := (@sameShape_pop r token rest hplain width).maxWidth
  have hahead := hr.ahead
  have hspaced := hr.spaced
  rw [hbuffer] at hahead hspaced
  have htail := hr.reachesTail token rest hbuffer
  have hlow := hr.low_le
  have hkept : ∀ other ∈ (r.pop token rest width).buffer, other.Plain := by
    rw [hrest]
    intro other hother
    exact hr.plain other (by rw [hbuffer]; exact List.mem_cons_of_mem _ hother)
  rcases @pop_plain r token rest hplain hr.uncommented width with
    ⟨sep, breakWidth, indent, id, rfl, hbroken, hout, hwidth⟩ |
    ⟨sep, breakWidth, indent, id, rfl, hflat, hout, hwidth⟩ |
    ⟨content, rfl, hout, hwidth⟩
  · -- the line is done, and the next one starts at the indentation
    have hscan := congrArg (scanLines overhangs) hout
    rw [scanLines_concat, scanLines_concat] at hscan
    simp only [LineScan.step, List.append_nil] at hscan
    rw [Token.width] at htail
    constructor
    · exact hkept
    · exact pendingComments_pop hplain hr.uncommented width
    · rw [hscan, hwidth, Line.width, length_spaces]
    · rw [hwidth]
      exact Nat.min_le_right _ _
    · rw [hscan, hrest, hahead]
      rfl
    · rw [hscan, hmax]
      intro line hline hline'
      rcases List.mem_append.mp hline with hold | hnew
      · exact hr.finished line hold hline'
      · rw [List.mem_singleton.mp hnew] at hline' ⊢
        have hreaches := hr.reaches hline'
        rw [hbuffer] at hreaches
        have hcolumn := hreaches.1 rfl
        rwa [hr.width] at hcolumn
    · rw [hscan]
      intro hfalse
      cases hfalse
    · rw [hscan, hmax, hrest, hwidth, hahead]
      intro next rest' heq
      have hfirst : (tokenOverhangs low
          (.breakable sep breakWidth indent id :: rest) ++ future).headD 0 =
            indent.toNat - (low + breakWidth) := rfl
      have hwithin : BreaksWithin r.maxWidth (low + breakWidth) rest :=
        hspaced.1 rfl
      rw [heq] at hwithin
      rw [hfirst]
      apply hwithin.tail.shift
      dsimp only
      omega
    · rw [hmax, hrest]
      exact hspaced.2
  · -- the separator goes on the line
    have hscan := congrArg (scanLines overhangs) hout
    rw [scanLines_concat] at hscan
    simp only [LineScan.step] at hscan
    constructor
    · exact hkept
    · exact pendingComments_pop hplain hr.uncommented width
    · rw [hscan, hwidth, hr.width, Line.width, Line.width, List.length_append]
      exact congrArg _ hplain
    · rw [hwidth]
      have hle := Token.lowest_le (.breakable sep breakWidth indent id) low
      omega
    · rw [hscan, hrest, hahead]
      rfl
    · rw [hscan, hmax]
      exact hr.finished
    · rw [hscan, hmax, hrest, hwidth]
      exact fun _ => htail
    · rw [hscan, hmax, hrest, hwidth]
      intro next rest' heq
      rw [heq] at htail
      exact htail.tail
    · rw [hmax, hrest]
      exact hspaced.2
  · have hscan := congrArg (scanLines overhangs) hout
    rw [scanLines_concat] at hscan
    simp only [LineScan.step] at hscan
    constructor
    · exact hkept
    · exact pendingComments_pop hplain hr.uncommented width
    · rw [hscan, hwidth, hr.width, Line.width, Line.width, List.length_append]
      rfl
    · rw [hwidth]
      exact Nat.add_le_add_right hlow _
    · rw [hscan, hrest, hahead]
      rfl
    · rw [hscan, hmax]
      exact hr.finished
    · rw [hscan, hmax, hrest, hwidth]
      exact fun _ => htail
    · rw [hscan, hmax, hrest, hwidth]
      intro next rest' heq
      rw [heq] at htail
      exact htail.tail
    · rw [hmax, hrest]
      exact hspaced.2

end Measuring

end Renderer

end Hegel
