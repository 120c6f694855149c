/-
Draws of domain names.  Labels are put in front of a top-level domain as long
as they fit; one that does not fit is skipped, so that a name without a label
comes out when none of them fits.
-/
import Hegel.Collections
import Hegel.ServedDraws

namespace Hegel

/-- The list of top-level domains: a comment, then one domain a line. -/
structure TldFile where
  lines : List (List Char)
  plain : ∀ line ∈ lines, line.head? ≠ some '#' →
    ∀ c ∈ line, c.toNat < 128 ∧ c ≠ '.'

/-- The domains to choose from, the simplest one first. -/
def TldFile.topLevelDomains (file : TldFile) : List (List Char) :=
  "COM".toList :: (file.lines.filter fun line =>
    line.head? != some '#' && line != "ARPA".toList).mergeSort
      fun a b => decide (a.length ≤ b.length)

/-- A length limit with the top-level domains that leave room for a label. -/
structure DomainSpec where
  maxLength : Nat
  eligibleTlds : List (List Char)
  nonempty : eligibleTlds ≠ []

def DomainSpec.new (file : TldFile) (maxLength : Nat) :
    Except MachineError DomainSpec :=
  if maxLength > 255 then
    .error (.invalidArgument ("domain max_length=" ++ toString maxLength ++
      " exceeds the RFC 1035 limit of 255"))
  else
    let eligible := file.topLevelDomains.filter
      fun tld => decide (tld.length + 2 ≤ maxLength)
    if h : eligible = [] then
      .error (.invalidArgument ("domain max_length=" ++ toString maxLength ++
        " leaves no eligible TLDs"))
    else .ok ⟨maxLength, eligible, h⟩

def maxLabelLen : Nat := 63

def maxLabels : Nat := 126

/-- One less the inverse of a number. -/
def oneMinusInverse (n : Nat) : Binary64 :=
  .ofRatio (Binary64.one - (Binary64.ofRatio 1 n).ulps) Binary64.one

/-- The labels still to come: at least one, and five more on average. -/
def domainState : ManyState :=
  .new 1 (some maxLabels) (oneMinusInverse (2 + 5))

def asciiLetter (i : Nat) : Char :=
  if i < 26 then Char.ofNat ('a'.toNat + i)
  else Char.ofNat ('A'.toNat + (i - 26))

def asciiAlnum (i : Nat) : Char :=
  if i < 52 then asciiLetter i else Char.ofNat ('0'.toNat + (i - 52))

def asciiAlnumOrHyphen (i : Nat) : Char :=
  if i < 62 then asciiAlnum i else '-'

section Drawing

variable {Rng : Type} (sampler : Sampler Rng)

/-- Ask for another element of a collection. -/
def ManyState.more (state : ManyState) :
    Attempt (Source Rng) MachineError (Bool × ManyState) := do
  let answer ← state.shouldContinue sampler
  return (answer, if answer then state.counted else state)

def drawAsciiLetter : Attempt (Source Rng) MachineError Char := do
  let i ← drawIndex sampler 52
  return asciiLetter i

def drawAsciiAlnum : Attempt (Source Rng) MachineError Char := do
  let i ← drawIndex sampler 62
  return asciiAlnum i

def drawAsciiAlnumOrHyphen : Attempt (Source Rng) MachineError Char := do
  let i ← drawIndex sampler 63
  return asciiAlnumOrHyphen i

/-- A character inside a label.  Two hyphens do not stand in the third and the
fourth place. -/
def drawInner (i : Nat) (s : List Char) :
    Attempt (Source Rng) MachineError Char :=
  let avoidDash := i = 3 ∧ s[2]? = some '-'
  if avoidDash then drawAsciiAlnum sampler else drawAsciiAlnumOrHyphen sampler

/-- The characters of a label between its first and its last one. -/
def drawMiddle : Nat → Nat → List Char →
    Attempt (Source Rng) MachineError (List Char)
  | _, 0, s => pure s
  | i, remaining + 1, s => do
      let c ← drawInner sampler i s
      drawMiddle (i + 1) remaining (s ++ [c])

def drawDnsLabel (maxLen : Nat) :
    Attempt (Source Rng) MachineError (List Char) := do
  let len ← drawInt sampler 1 maxLen
  let first ← drawAsciiLetter sampler
  if len.toNat > 1 then
    let s ← drawMiddle sampler 1 (len.toNat - 2) [first]
    let last ← drawAsciiAlnum sampler
    return s ++ [last]
  else return [first]

/-- The top-level domain with some of its letters in lower case. -/
def recaseTld : List Char → Attempt (Source Rng) MachineError (List Char)
  | [] => pure []
  | c :: rest => do
      let flip ← drawWeighted sampler (.ofRatio 1 2) none
      let recased ← recaseTld rest
      return (if flip then c.toLower else c) :: recased

/-- Put labels in front of a domain; there are rounds for all of them. -/
def addLabels (maxLength : Nat) : Nat → ManyState → List Char →
    Attempt (Source Rng) MachineError (List Char)
  | 0, _, _ => .refuse (.assertion "addLabels: out of rounds")
  | rounds + 1, state, domain => do
      let (answer, state) ← state.more sampler
      if answer then
        let label ← drawDnsLabel sampler maxLabelLen
        if domain.length + 1 + label.length > maxLength then
          addLabels maxLength rounds state domain
        else addLabels maxLength rounds state (label ++ '.' :: domain)
      else return domain

def generateDomain (spec : DomainSpec) :
    Attempt (Source Rng) MachineError (List Char) := do
  let idx ← drawIndex sampler spec.eligibleTlds.length
  let tld ← Attempt.ofExcept (elementAt spec.eligibleTlds idx)
  let domain ← recaseTld sampler tld
  addLabels sampler spec.maxLength (maxLabels + 1) domainState domain

/-- What becomes of a domain when a label is drawn: one that does not fit is
skipped. -/
def addLabel (maxLength : Nat) (domain label : List Char) : List Char :=
  if domain.length + 1 + label.length > maxLength then domain
  else label ++ '.' :: domain

/-- The labels that a test case draws, whether they fit or not. -/
def drawLabels : Nat → ManyState →
    Attempt (Source Rng) MachineError (List (List Char))
  | 0, _ => .refuse (.assertion "addLabels: out of rounds")
  | rounds + 1, state => do
      let (answer, state) ← state.more sampler
      if answer then
        let label ← drawDnsLabel sampler maxLabelLen
        let labels ← drawLabels rounds state
        return label :: labels
      else return []

/-- Everything that is drawn for a name: its top-level domain and the labels. -/
def drawDomain (spec : DomainSpec) :
    Attempt (Source Rng) MachineError (List Char × List (List Char)) := do
  let idx ← drawIndex sampler spec.eligibleTlds.length
  let tld ← Attempt.ofExcept (elementAt spec.eligibleTlds idx)
  let top ← recaseTld sampler tld
  let labels ← drawLabels sampler (maxLabels + 1) domainState
  return (top, labels)

/-- Asking for another element is the call on a collection. -/
theorem manyMore_eq (state : ManyState) (source : Source Rng) :
    manyMore sampler (state, source) =
      match state.more sampler source with
      | (.ok (answer, state), source) => (.ok answer, state, source)
      | (.error error, source) => (.error (.draw error), state, source) := by
  simp only [manyMore, ManyState.more, bind, Attempt.bind, Attempt.read,
    NativeDataSource.drawing]
  rcases state.shouldContinue sampler source with ⟨result, after⟩
  cases result with
  | ok answer => cases answer <;> rfl
  | error error => rfl

end Drawing

section Characters

/-- Letters of the basic alphabet. -/
def IsLetter (c : Char) : Prop :=
  'a' ≤ c ∧ c ≤ 'z' ∨ 'A' ≤ c ∧ c ≤ 'Z'

def IsAlnum (c : Char) : Prop :=
  IsLetter c ∨ '0' ≤ c ∧ c ≤ '9'

instance : DecidablePred IsLetter :=
  fun _ => inferInstanceAs (Decidable (_ ∨ _))

instance : DecidablePred IsAlnum :=
  fun _ => inferInstanceAs (Decidable (_ ∨ _))

theorem isLetter_asciiLetter {i : Nat} (hi : i < 52) :
    IsLetter (asciiLetter i) := by
  revert i
  decide

theorem isAlnum_asciiAlnum {i : Nat} (hi : i < 62) :
    IsAlnum (asciiAlnum i) := by
  revert i
  decide

theorem asciiAlnumOrHyphen_cases (i : Nat) :
    IsAlnum (asciiAlnumOrHyphen i) ∨ asciiAlnumOrHyphen i = '-' := by
  rw [asciiAlnumOrHyphen]
  by_cases hlow : i < 62
  · rw [if_pos hlow]
    exact .inl (isAlnum_asciiAlnum hlow)
  · rw [if_neg hlow]
    exact .inr rfl

theorem IsAlnum.ne_hyphen {c : Char} (hc : IsAlnum c) : c ≠ '-' := by
  rintro rfl
  revert hc
  decide

end Characters

section Labels

/-- A label: at most 63 characters, a letter first, a letter or digit last,
and no two hyphens behind its second character. -/
structure IsLabel (label : List Char) : Prop where
  length_le : label.length ≤ maxLabelLen
  chars : ∀ c ∈ label, IsAlnum c ∨ c = '-'
  head : ∃ c, label.head? = some c ∧ IsLetter c
  last : ∃ c, label.getLast? = some c ∧ IsAlnum c
  reserved : ¬(label[2]? = some '-' ∧ label[3]? = some '-')

/-- Labels, each with a dot behind it, in front of a domain. -/
def joinLabels (labels : List (List Char)) (top : List Char) : List Char :=
  labels.foldr (fun label domain => label ++ '.' :: domain) top

/-- Some letters are in lower case. -/
def Recased (tld top : List Char) : Prop :=
  List.Forall₂ (fun c d => d = c ∨ d = c.toLower) tld top

/-- A name within the length limit that has a label before its top-level
domain, which is an eligible one up to the case of its letters. -/
def IsDomain (spec : DomainSpec) (domain : List Char) : Prop :=
  domain.length ≤ spec.maxLength ∧ ∃ labels top, labels ≠ [] ∧
    (∀ label ∈ labels, IsLabel label) ∧
    (∃ tld ∈ spec.eligibleTlds, Recased tld top) ∧
    domain = joinLabels labels top

/-- What a label is before its last character is drawn. -/
structure LabelStart (s : List Char) : Prop where
  chars : ∀ c ∈ s, IsAlnum c ∨ c = '-'
  head : ∃ c, s.head? = some c ∧ IsLetter c
  reserved : ¬(s[2]? = some '-' ∧ s[3]? = some '-')

theorem labelStart_singleton {c : Char} (hc : IsLetter c) : LabelStart [c] where
  chars b hb := by
    rw [List.mem_singleton.mp hb]
    exact .inl (.inl hc)
  head := ⟨c, rfl, hc⟩
  reserved := nofun

/-- A hyphen is not put behind a hyphen in the third place. -/
theorem LabelStart.push {s : List Char} (hstart : LabelStart s) {c : Char}
    (hc : IsAlnum c ∨ c = '-')
    (havoid : s.length = 3 → s[2]? = some '-' → c ≠ '-') :
    LabelStart (s ++ [c]) where
  chars b hb := by
    rcases List.mem_append.mp hb with hold | hnew
    · exact hstart.chars b hold
    · rw [List.mem_singleton.mp hnew]
      exact hc
  head := by
    obtain ⟨first, hfirst, hletter⟩ := hstart.head
    refine ⟨first, ?_, hletter⟩
    rw [List.head?_append, hfirst]
    rfl
  reserved := by
    rintro ⟨htwo, hthree⟩
    rcases Nat.lt_trichotomy s.length 3 with hshort | hlen | hlong
    · rw [List.getElem?_eq_none (by simp; omega)] at hthree
      cases hthree
    · rw [List.getElem?_append_left (by omega)] at htwo
      rw [List.getElem?_append_right (by omega), hlen] at hthree
      exact havoid hlen htwo (Option.some.inj hthree)
    · rw [List.getElem?_append_left (by omega)] at htwo hthree
      exact hstart.reserved ⟨htwo, hthree⟩

/-- A letter or digit ends a label. -/
theorem LabelStart.finish {s : List Char} (hstart : LabelStart s) {c : Char}
    (hc : IsAlnum c) (hlength : s.length < maxLabelLen) :
    IsLabel (s ++ [c]) := by
  obtain ⟨hchars, hhead, hreserved⟩ :=
    hstart.push (.inl hc) fun _ _ => hc.ne_hyphen
  refine ⟨?_, hchars, hhead, ⟨c, List.getLast?_concat, hc⟩, hreserved⟩
  rw [List.length_append, List.length_singleton]
  exact hlength

theorem isLabel_singleton {c : Char} (hc : IsLetter c) : IsLabel [c] where
  length_le := (by decide : 1 ≤ maxLabelLen)
  chars := (labelStart_singleton hc).chars
  head := ⟨c, rfl, hc⟩
  last := ⟨c, rfl, .inl hc⟩
  reserved := nofun

end Labels

section Soundness

variable {Rng : Type} {sampler : Sampler Rng} {source : Source Rng}

theorem drawAsciiLetter_yields : (drawAsciiLetter sampler).Meets source
    (Yields (fun _ => True) fun c _ => IsLetter c) := by
  apply meets_bind_yields (drawIndex_yields (by decide))
  rintro i after - hi
  exact ⟨trivial, isLetter_asciiLetter hi⟩

theorem drawAsciiAlnum_yields : (drawAsciiAlnum sampler).Meets source
    (Yields (fun _ => True) fun c _ => IsAlnum c) := by
  apply meets_bind_yields (drawIndex_yields (by decide))
  rintro i after - hi
  exact ⟨trivial, isAlnum_asciiAlnum hi⟩

theorem drawAsciiAlnumOrHyphen_yields :
    (drawAsciiAlnumOrHyphen sampler).Meets source
      (Yields (fun _ => True) fun c _ => IsAlnum c ∨ c = '-') := by
  apply meets_bind_yields (drawIndex_yields (by decide))
  rintro i after - -
  exact ⟨trivial, asciiAlnumOrHyphen_cases i⟩

theorem drawInner_yields (s : List Char) :
    (drawInner sampler s.length s).Meets source (Yields (fun _ => True)
      fun c _ => (IsAlnum c ∨ c = '-') ∧
        (s.length = 3 → s[2]? = some '-' → c ≠ '-')) := by
  rw [drawInner]
  split
  next havoid =>
      apply drawAsciiAlnum_yields.mono
      intro result after hresult
      exact hresult.mono (fun _ h => h)
        fun c _ _ hc => ⟨.inl hc, fun _ _ => hc.ne_hyphen⟩
  next hfree =>
      apply drawAsciiAlnumOrHyphen_yields.mono
      intro result after hresult
      exact hresult.mono (fun _ h => h)
        fun c _ _ hc => ⟨hc, fun h h' => absurd ⟨h, h'⟩ hfree⟩

theorem drawMiddle_yields (remaining : Nat) {s : List Char}
    (hstart : LabelStart s) :
    (drawMiddle sampler s.length remaining s).Meets source
      (Yields (fun _ => True) fun t _ => LabelStart t ∧
        t.length = s.length + remaining) := by
  induction remaining generalizing s source with
  | zero => exact ⟨trivial, hstart, rfl⟩
  | succ remaining ih =>
      rw [drawMiddle]
      apply meets_bind_yields (drawInner_yields s)
      rintro c after - ⟨hc, havoid⟩
      have hlength : (s ++ [c]).length = s.length + 1 := by simp
      have hrest := @ih after (s ++ [c]) (hstart.push hc havoid)
      rw [hlength] at hrest
      apply hrest.mono
      intro result final hresult
      exact hresult.mono (fun _ h => h)
        fun t _ _ ht => ⟨ht.1, by rw [ht.2]; omega⟩

theorem drawDnsLabel_yields : (drawDnsLabel sampler maxLabelLen).Meets source
    (Yields (fun _ => True) fun label _ => IsLabel label) := by
  apply meets_bind_yields (drawInt_yields (by decide))
  rintro len after - ⟨hmin, hmax⟩
  have hlen : len.toNat ≤ maxLabelLen := by omega
  apply meets_bind_yields drawAsciiLetter_yields
  rintro first after - hfirst
  split
  next hlong =>
      have hmiddle := @drawMiddle_yields Rng sampler after (len.toNat - 2) _
        (labelStart_singleton hfirst)
      apply meets_bind_yields hmiddle
      rintro s after - ⟨hstart, hlength⟩
      apply meets_bind_yields drawAsciiAlnum_yields
      rintro last final - hlast
      refine ⟨trivial, hstart.finish hlast ?_⟩
      rw [hlength, List.length_singleton]
      omega
  next hshort => exact ⟨trivial, isLabel_singleton hfirst⟩

theorem toLower_ne_dot {c : Char} (hc : c ≠ '.') : c.toLower ≠ '.' := by
  intro hlower
  delta Char.toLower at hlower
  split at hlower
  next hupper =>
      have hval := congrArg (fun c => c.val.toNat) hlower
      have hmin := UInt32.le_iff_toNat_le.mp hupper.1
      have hmax := UInt32.le_iff_toNat_le.mp hupper.2
      simp only [UInt32.toNat_add] at hval
      change (c.val.toNat + 32) % 2 ^ 32 = 46 at hval
      change 65 ≤ c.val.toNat at hmin
      change c.val.toNat ≤ 90 at hmax
      omega
  next => exact hc hlower

theorem recaseTld_yields (tld : List Char) :
    (recaseTld sampler tld).Meets source (Yields (fun _ => True)
      fun recased _ => Recased tld recased) := by
  induction tld generalizing source with
  | nil => exact ⟨trivial, .nil⟩
  | cons c rest ih =>
      apply meets_bind_yields (drawWeighted_yields _ _)
      rintro flip after - -
      apply meets_bind_yields ih
      rintro recased final - hrest
      refine ⟨trivial, .cons ?_ hrest⟩
      cases flip with
      | true => exact .inr rfl
      | false => exact .inl rfl

theorem Recased.length_eq {tld top : List Char} (hrecased : Recased tld top) :
    top.length = tld.length :=
  (List.Forall₂.length_eq hrecased).symm

theorem Recased.no_dots {tld top : List Char} (hrecased : Recased tld top)
    (hdots : '.' ∉ tld) : '.' ∉ top := by
  induction hrecased with
  | nil => exact hdots
  | cons hc hrest ih =>
      rw [List.mem_cons, not_or] at hdots ⊢
      refine ⟨?_, ih hdots.2⟩
      rcases hc with rfl | rfl
      · exact hdots.1
      · exact (toLower_ne_dot (Ne.symm hdots.1)).symm

/-- The state after some labels. -/
structure LabelState (count : Nat) (state : ManyState) : Prop where
  minSize : state.minSize = 1
  maxSize : state.maxSize = .ofNat maxLabels
  count_eq : state.count = count
  forceStop : state.forceStop = false
  count_le : count ≤ maxLabels

theorem labelState_domainState : LabelState 0 domainState :=
  ⟨rfl, rfl, rfl, rfl, Nat.zero_le _⟩

section LabelState

variable {count : Nat} {state : ManyState}

theorem LabelState.isFixed (hstate : LabelState count state) :
    state.isFixed = false := by
  rw [ManyState.isFixed, hstate.minSize, hstate.maxSize]
  decide

/-- The first label is forced, and none is drawn when there are enough. -/
theorem LabelState.forced (hstate : LabelState count state) :
    state.forced = if count = 0 then some true
      else if count = maxLabels then some false else none := by
  have hmax {n : Nat} (hn : n ≤ maxLabels) :
      (Binary64.ofNat maxLabels).le (.ofNat n) = decide (n = maxLabels) := by
    revert n
    decide
  rw [ManyState.forced, hstate.forceStop, hstate.count_eq, hstate.minSize,
    hstate.maxSize, hmax hstate.count_le, if_neg Bool.false_ne_true]
  simp only [Nat.lt_one_iff, decide_eq_true_eq]

theorem LabelState.counted (hstate : LabelState count state)
    (hbelow : count < maxLabels) : LabelState (count + 1) state.counted :=
  ⟨hstate.minSize, hstate.maxSize, congrArg (· + 1) hstate.count_eq,
    hstate.forceStop, hbelow⟩

theorem LabelState.more_yields (hstate : LabelState count state) :
    (state.more sampler).Meets source (Yields (fun _ => True)
      fun next _ => (count = 0 → next.1 = true) ∧
        (next.1 = true → count < maxLabels ∧
          LabelState (count + 1) next.2)) := by
  have hanswer : (state.shouldContinue sampler).Meets source
      (Yields (fun _ => True) fun answer _ => ∀ f,
        forcedBoolean state.pContinue state.forced = some f →
          answer = f) := by
    rw [ManyState.shouldContinue, hstate.isFixed, if_neg Bool.false_ne_true]
    exact drawWeighted_yields _ _
  apply meets_bind_yields hanswer
  rintro answer after - hdecided
  rw [hstate.forced] at hdecided
  have hbelow : answer = true → count < maxLabels := by
    rintro rfl
    refine lt_of_le_of_ne hstate.count_le fun hfull => ?_
    rw [if_neg (by rw [hfull]; decide), if_pos hfull] at hdecided
    exact Bool.noConfusion (hdecided false rfl)
  refine ⟨trivial, fun hzero => ?_, fun htrue => ⟨hbelow htrue, ?_⟩⟩
  · rw [if_pos hzero] at hdecided
    exact hdecided true rfl
  · have hcounted : LabelState (count + 1)
        (if answer then state.counted else state) := by
      rw [if_pos htrue]
      exact hstate.counted (hbelow htrue)
    exact hcounted

end LabelState

/-- Labels are drawn, at least one. -/
theorem drawLabels_yields {rounds count : Nat} {state : ManyState}
    (hstate : LabelState count state) (hrounds : maxLabels < count + rounds) :
    (drawLabels sampler rounds state).Meets source (Yields (fun _ => True)
      fun labels _ => (∀ label ∈ labels, IsLabel label) ∧
        (count = 0 → labels ≠ [])) := by
  induction rounds generalizing count state source with
  | zero =>
      have hle := hstate.count_le
      omega
  | succ rounds ih =>
      rw [drawLabels]
      apply meets_bind_yields hstate.more_yields
      rintro ⟨answer, next⟩ after - ⟨hforced, hmore⟩
      cases answer with
      | false =>
          exact ⟨trivial, by simp, fun hzero =>
            absurd (hforced hzero) Bool.false_ne_true⟩
      | true =>
          obtain ⟨hbelow, hnext⟩ := hmore rfl
          apply meets_bind_yields drawDnsLabel_yields
          rintro label after - hlabel
          apply meets_bind_yields (ih hnext (by omega))
          rintro labels final - ⟨hlabels, -⟩
          exact ⟨trivial, List.forall_mem_cons.mpr ⟨hlabel, hlabels⟩,
            fun _ => List.cons_ne_nil _ _⟩

/-- The name is put together from what is drawn. -/
theorem addLabels_eq (maxLength rounds : Nat) (state : ManyState)
    (domain : List Char) :
    addLabels sampler maxLength rounds state domain = (do
      let labels ← drawLabels sampler rounds state
      return labels.foldl (addLabel maxLength) domain) := by
  induction rounds generalizing state domain with
  | zero => rfl
  | succ rounds ih =>
      rw [addLabels, drawLabels, bind_assoc]
      congr 1
      funext next
      obtain ⟨answer, next⟩ := next
      cases answer with
      | false => rfl
      | true =>
          simp only [if_true, bind_assoc, pure_bind, List.foldl_cons]
          congr 1
          funext label
          rw [addLabel]
          split
          · exact ih next domain
          · exact ih next _

/-- A name is its draws put together. -/
theorem generateDomain_eq (spec : DomainSpec) :
    generateDomain sampler spec = (do
      let (top, labels) ← drawDomain sampler spec
      return labels.foldl (addLabel spec.maxLength) top) := by
  simp only [generateDomain, drawDomain, addLabels_eq, bind_assoc, pure_bind]

theorem DomainSpec.new_spec {file : TldFile} {maxLength : Nat}
    {spec : DomainSpec} (hspec : DomainSpec.new file maxLength = .ok spec) :
    maxLength ≤ 255 ∧ spec.maxLength = maxLength ∧ spec.eligibleTlds =
      file.topLevelDomains.filter
        fun tld => decide (tld.length + 2 ≤ maxLength) := by
  rw [DomainSpec.new] at hspec
  split at hspec
  case isTrue => cases hspec
  case isFalse hbound =>
    dsimp only at hspec
    split at hspec
    case isTrue => cases hspec
    case isFalse hne =>
      cases hspec
      exact ⟨Nat.le_of_not_lt hbound, rfl, rfl⟩

theorem TldFile.no_dots {file : TldFile} {tld : List Char}
    (htld : tld ∈ file.topLevelDomains) : '.' ∉ tld := by
  rw [TldFile.topLevelDomains, List.mem_cons, List.mem_mergeSort,
    List.mem_filter] at htld
  rcases htld with rfl | ⟨hline, hkept⟩
  · decide
  · rw [Bool.and_eq_true, bne_iff_ne] at hkept
    exact fun hdot => (file.plain tld hline hkept.1 _ hdot).2 rfl

/-- The top-level domain that is drawn is an eligible one, and labels are drawn
with it. -/
theorem drawDomain_yields (spec : DomainSpec) :
    (drawDomain sampler spec).Meets source (Yields (fun _ => True)
      fun drawn _ => (∃ tld ∈ spec.eligibleTlds, Recased tld drawn.1) ∧
        (∀ label ∈ drawn.2, IsLabel label) ∧ drawn.2 ≠ []) := by
  apply meets_bind_yields
    (drawIndex_yields (List.length_pos_iff.mpr spec.nonempty))
  rintro idx after - hidx
  have htld := List.getElem?_eq_getElem hidx
  generalize spec.eligibleTlds[idx] = tld at htld
  apply Attempt.meets_bind
  apply Attempt.meets_ofExcept
  rw [elementAt, htld]
  apply meets_bind_yields (recaseTld_yields tld)
  rintro top recased - hrecased
  apply meets_bind_yields
    (drawLabels_yields labelState_domainState (by omega))
  rintro labels final - ⟨hlabels, hne⟩
  exact ⟨trivial, ⟨tld, List.mem_of_getElem? htld, hrecased⟩, hlabels, hne rfl⟩

/-- Labels stay in front of the top-level domain; there is one as soon as one of
those drawn fits next to it. -/
theorem foldl_addLabel {maxLength : Nat} {top : List Char}
    {labels kept : List (List Char)} (hlabels : ∀ label ∈ labels, IsLabel label)
    (hkept : ∀ label ∈ kept, IsLabel label)
    (hlength : (joinLabels kept top).length ≤ maxLength) :
    ∃ kept', (∀ label ∈ kept', IsLabel label) ∧
      labels.foldl (addLabel maxLength) (joinLabels kept top) =
        joinLabels kept' top ∧
      (joinLabels kept' top).length ≤ maxLength ∧
      ((kept ≠ [] ∨ ∃ label ∈ labels,
        top.length + 1 + label.length ≤ maxLength) → kept' ≠ []) := by
  induction labels generalizing kept with
  | nil =>
      refine ⟨kept, hkept, rfl, hlength, ?_⟩
      rintro (hne | ⟨label, hlabel, -⟩)
      · exact hne
      · cases hlabel
  | cons label labels ih =>
      obtain ⟨hlabel, hlabels⟩ := List.forall_mem_cons.mp hlabels
      rw [List.foldl_cons, addLabel]
      split
      case isTrue hlong =>
        obtain ⟨kept', hall, hjoin, hle, hfits⟩ := ih hlabels hkept hlength
        refine ⟨kept', hall, hjoin, hle, fun hsome => hfits ?_⟩
        -- the label is skipped, so that it does not fit next to a bare top
        by_cases hne : kept = []
        · subst hne
          rcases hsome with hne | ⟨fitting, hfitting, hroom⟩
          · exact absurd rfl hne
          · refine .inr ⟨fitting, ?_, hroom⟩
            rcases List.mem_cons.mp hfitting with rfl | hlater
            · rw [joinLabels, List.foldr_nil] at hlong
              omega
            · exact hlater
        · exact .inl hne
      case isFalse hshort =>
        have hadded : (joinLabels (label :: kept) top).length ≤ maxLength := by
          change (label ++ '.' :: joinLabels kept top).length ≤ _
          rw [List.length_append, List.length_cons]
          omega
        obtain ⟨kept', hall, hjoin, hle, hfits⟩ := ih hlabels
          (List.forall_mem_cons.mpr ⟨hlabel, hkept⟩) hadded
        exact ⟨kept', hall, hjoin, hle,
          fun _ => hfits (.inl (List.cons_ne_nil _ _))⟩

/-- Labels that do not fit leave the top-level domain alone. -/
theorem foldl_addLabel_bare {maxLength : Nat} {top : List Char}
    {labels : List (List Char)}
    (hlong : ∀ label ∈ labels, maxLength < top.length + 1 + label.length) :
    labels.foldl (addLabel maxLength) top = top := by
  induction labels with
  | nil => rfl
  | cons label labels ih =>
      obtain ⟨hlabel, hlabels⟩ := List.forall_mem_cons.mp hlong
      rw [List.foldl_cons, addLabel, if_pos hlabel]
      exact ih hlabels

end Soundness

section Refusals

variable {Rng Value Value' : Type} {sampler : Sampler Rng}

/-- Why a draw does not come about: the test case is concluded by then, or a
sampler failed. -/
inductive GivesUp (source : Source Rng) : MachineError → Prop
  | concluded (error : EngineError)
      (hconcluded : source.family.conclusion.isSome) :
      GivesUp source (.engine error)
  | sampler (error : InternalError) : GivesUp source (.sampler error)

/-- Errors that are not internal come from draws that are given up. -/
def OnlyGivesUp (attempt : Attempt (Source Rng) MachineError Value) : Prop :=
  ∀ source error after, attempt source = (.error error, after) →
    error.isInternal = false → GivesUp after error

theorem onlyGivesUp_pure (value : Value) :
    OnlyGivesUp (pure value : Attempt (Source Rng) MachineError Value) := by
  intro source error after hpure
  cases hpure

theorem onlyGivesUp_bind {attempt : Attempt (Source Rng) MachineError Value}
    {next : Value → Attempt (Source Rng) MachineError Value'}
    (hattempt : OnlyGivesUp attempt)
    (hnext : ∀ value, OnlyGivesUp (next value)) :
    OnlyGivesUp (attempt >>= next) := by
  intro source error after hbind hinternal
  rcases Attempt.bind_error hbind with hfirst | ⟨value, middle, -, hrest⟩
  · exact hattempt source error after hfirst hinternal
  · exact hnext value middle error after hrest hinternal

theorem onlyGivesUp_ofExcept {result : Except MachineError Value}
    (hresult : ∀ error, result = .error error → error.isInternal = true) :
    OnlyGivesUp (Attempt.ofExcept result :
      Attempt (Source Rng) MachineError Value) := by
  intro source error after hofExcept hinternal
  rw [hresult error (congrArg Prod.fst hofExcept)] at hinternal
  cases hinternal

theorem onlyGivesUp_elim (value : Option Value) :
    OnlyGivesUp (Attempt.ofExcept (value.elim (.error .outOfRange) .ok) :
      Attempt (Source Rng) MachineError Value) := by
  apply onlyGivesUp_ofExcept
  intro error herror
  cases value with
  | none =>
      cases herror
      rfl
  | some value => cases herror

/-- A draw that the stream refuses finds the test case concluded, or concludes
it. -/
theorem drawValue_onlyGivesUp (op : DrawOp) :
    OnlyGivesUp (drawValue sampler op) := by
  intro source error after hdraw hinternal
  rw [drawValue] at hdraw
  cases hrequest : op.request sampler source.family with
  | error reason =>
      rw [hrequest] at hdraw
      cases hdraw
      cases hinternal
  | ok request =>
      rw [hrequest] at hdraw
      dsimp only at hdraw
      rcases hperform : performDraw request source.family source.stream with
        reason | answer
      · rw [hperform] at hdraw
        cases hdraw
        exact .sampler reason
      · rw [hperform] at hdraw
        cases performDraw_cases hperform with
        | refused hconcluded =>
            cases hdraw
            exact .concluded _ (by rw [hconcluded]; rfl)
        | overran draws hopen hdraws =>
            cases hdraw
            exact .concluded _ rfl
        | drew drawn input wasForced hopen hbudget hproduces => cases hdraw

theorem drawInt_onlyGivesUp (minValue maxValue : Int) :
    OnlyGivesUp (drawInt sampler minValue maxValue) :=
  onlyGivesUp_bind (drawValue_onlyGivesUp _) fun _ => onlyGivesUp_elim _

theorem drawIndex_onlyGivesUp (n : Nat) : OnlyGivesUp (drawIndex sampler n) :=
  onlyGivesUp_bind (drawInt_onlyGivesUp _ _) fun _ => onlyGivesUp_pure _

theorem drawWeighted_onlyGivesUp (p : Binary64) (forced : Option Bool) :
    OnlyGivesUp (drawWeighted sampler p forced) :=
  onlyGivesUp_bind (drawValue_onlyGivesUp _) fun _ => onlyGivesUp_elim _

theorem drawAsciiAlnum_onlyGivesUp : OnlyGivesUp (drawAsciiAlnum sampler) :=
  onlyGivesUp_bind (drawIndex_onlyGivesUp _) fun _ => onlyGivesUp_pure _

theorem drawInner_onlyGivesUp (i : Nat) (s : List Char) :
    OnlyGivesUp (drawInner sampler i s) := by
  rw [drawInner]
  split
  · exact drawAsciiAlnum_onlyGivesUp
  · exact onlyGivesUp_bind (drawIndex_onlyGivesUp _) fun _ => onlyGivesUp_pure _

theorem drawMiddle_onlyGivesUp (remaining i : Nat) (s : List Char) :
    OnlyGivesUp (drawMiddle sampler i remaining s) := by
  induction remaining generalizing i s with
  | zero => exact onlyGivesUp_pure s
  | succ remaining ih =>
      exact onlyGivesUp_bind (drawInner_onlyGivesUp i s) fun c => ih _ _

theorem drawDnsLabel_onlyGivesUp (maxLen : Nat) :
    OnlyGivesUp (drawDnsLabel sampler maxLen) := by
  apply onlyGivesUp_bind (drawInt_onlyGivesUp _ _)
  intro len
  apply onlyGivesUp_bind
  · exact onlyGivesUp_bind (drawIndex_onlyGivesUp _) fun _ => onlyGivesUp_pure _
  · intro first
    split
    · apply onlyGivesUp_bind (drawMiddle_onlyGivesUp _ _ _)
      intro s
      apply onlyGivesUp_bind drawAsciiAlnum_onlyGivesUp
      intro last
      exact onlyGivesUp_pure _
    · exact onlyGivesUp_pure _

theorem recaseTld_onlyGivesUp (tld : List Char) :
    OnlyGivesUp (recaseTld sampler tld) := by
  induction tld with
  | nil => exact onlyGivesUp_pure _
  | cons c rest ih =>
      apply onlyGivesUp_bind (drawWeighted_onlyGivesUp _ _)
      intro flip
      apply onlyGivesUp_bind ih
      intro recased
      exact onlyGivesUp_pure _

theorem more_onlyGivesUp (state : ManyState) :
    OnlyGivesUp (state.more sampler) := by
  apply onlyGivesUp_bind
  · rw [ManyState.shouldContinue]
    split
    · exact onlyGivesUp_pure _
    · exact drawWeighted_onlyGivesUp _ _
  · exact fun _ => onlyGivesUp_pure _

theorem drawLabels_onlyGivesUp (rounds : Nat) (state : ManyState) :
    OnlyGivesUp (drawLabels sampler rounds state) := by
  induction rounds generalizing state with
  | zero =>
      intro source error after hrefuse hinternal
      cases hrefuse
      cases hinternal
  | succ rounds ih =>
      apply onlyGivesUp_bind (more_onlyGivesUp state)
      rintro ⟨answer, next⟩
      dsimp only
      split
      · apply onlyGivesUp_bind (drawDnsLabel_onlyGivesUp _)
        intro label
        apply onlyGivesUp_bind (ih next)
        intro labels
        exact onlyGivesUp_pure _
      · exact onlyGivesUp_pure _

theorem drawDomain_onlyGivesUp (spec : DomainSpec) :
    OnlyGivesUp (drawDomain sampler spec) := by
  apply onlyGivesUp_bind (drawIndex_onlyGivesUp _)
  intro idx
  apply onlyGivesUp_bind
  · apply onlyGivesUp_ofExcept
    intro error herror
    rw [elementAt] at herror
    split at herror
    · cases herror
    · cases herror
      rfl
  · intro tld
    apply onlyGivesUp_bind (recaseTld_onlyGivesUp tld)
    intro top
    apply onlyGivesUp_bind (drawLabels_onlyGivesUp _ _)
    intro labels
    exact onlyGivesUp_pure _

end Refusals

section Served

variable {Rng : Type} (sampler : Sampler Rng) {source : Source Rng}
  {values : List ChoiceValue}

theorem drawIndex_serves {n i : Nat} (hi : i < n)
    (hserves : source.Serves (.integer i :: values)) :
    ∃ after, drawIndex sampler n source = (.ok i, after) ∧
      after.Serves values := by
  obtain ⟨after, hdraw, hafter⟩ := @drawInt_serves Rng sampler source values
    0 (n - 1) i hserves (by omega) (by omega)
  refine ⟨after, ?_, hafter⟩
  simp only [drawIndex, bind, Attempt.bind, hdraw, pure, Int.toNat_natCast]

/-- Without flips the top-level domain stays as it is. -/
theorem recaseTld_serves (tld : List Char)
    (hserves : source.Serves
      (List.replicate tld.length (.boolean false) ++ values)) :
    ∃ after, recaseTld sampler tld source = (.ok tld, after) ∧
      after.Serves values := by
  have hfree (f : Bool) : forcedBoolean (.ofRatio 1 2) none = some f →
      false = f := by
    have hnone : forcedBoolean (.ofRatio 1 2) none = none := by
      decide +kernel
    rw [hnone]
    simp
  induction tld generalizing source with
  | nil => exact ⟨source, rfl, hserves⟩
  | cons c rest ih =>
      obtain ⟨drawn, hdraw, hdrawn⟩ := drawWeighted_serves sampler hserves hfree
      obtain ⟨after, hrest, hafter⟩ := ih hdrawn
      refine ⟨after, ?_, hafter⟩
      simp only [recaseTld, bind, Attempt.bind, hdraw, hrest, pure,
        Bool.false_eq_true, if_false]

theorem drawAsciiLetter_serves (hserves : source.Serves (.integer 0 :: values)) :
    ∃ after, drawAsciiLetter sampler source = (.ok 'a', after) ∧
      after.Serves values := by
  obtain ⟨after, hdraw, hafter⟩ := @drawIndex_serves Rng sampler source _
    52 0 (by decide) hserves
  exact ⟨after, Attempt.bind_ok hdraw, hafter⟩

theorem drawAsciiAlnum_serves (hserves : source.Serves (.integer 0 :: values)) :
    ∃ after, drawAsciiAlnum sampler source = (.ok 'a', after) ∧
      after.Serves values := by
  obtain ⟨after, hdraw, hafter⟩ := @drawIndex_serves Rng sampler source _
    62 0 (by decide) hserves
  exact ⟨after, Attempt.bind_ok hdraw, hafter⟩

theorem drawInner_serves (i : Nat) (s : List Char)
    (hserves : source.Serves (.integer 0 :: values)) :
    ∃ after, drawInner sampler i s source = (.ok 'a', after) ∧
      after.Serves values := by
  rw [drawInner]
  split
  next => exact drawAsciiAlnum_serves sampler hserves
  next =>
      obtain ⟨after, hdraw, hafter⟩ := @drawIndex_serves Rng sampler source _
        63 0 (by decide) hserves
      exact ⟨after, Attempt.bind_ok hdraw, hafter⟩

theorem drawMiddle_serves (remaining i : Nat) (s : List Char)
    (hserves : source.Serves
      (List.replicate remaining (.integer 0) ++ values)) :
    ∃ after, drawMiddle sampler i remaining s source =
        (.ok (s ++ List.replicate remaining 'a'), after) ∧
      after.Serves values := by
  induction remaining generalizing source i s with
  | zero =>
      refine ⟨source, ?_, hserves⟩
      rw [List.replicate_zero, List.append_nil]
      rfl
  | succ remaining ih =>
      obtain ⟨drawn, hdraw, hdrawn⟩ := drawInner_serves sampler i s hserves
      obtain ⟨after, hrest, hafter⟩ := ih (i + 1) (s ++ ['a']) hdrawn
      refine ⟨after, ?_, hafter⟩
      rw [drawMiddle, Attempt.bind_ok hdraw, hrest, List.replicate_succ,
        List.append_assoc, List.singleton_append]

/-- What a longest label is drawn from. -/
def longLabelValues : List ChoiceValue :=
  .integer maxLabelLen :: .integer 0 ::
    (List.replicate (maxLabelLen - 2) (.integer 0) ++ [.integer 0])

theorem drawDnsLabel_serves
    (hserves : source.Serves (longLabelValues ++ values)) :
    ∃ label after, drawDnsLabel sampler maxLabelLen source =
        (.ok label, after) ∧ label.length = maxLabelLen ∧
      after.Serves values := by
  rw [longLabelValues, List.cons_append, List.cons_append, List.append_assoc,
    List.singleton_append] at hserves
  obtain ⟨first, hlen, hfirst⟩ := @drawInt_serves Rng sampler source _ 1
    maxLabelLen maxLabelLen hserves (by decide) le_rfl
  obtain ⟨second, hletter, hsecond⟩ := drawAsciiLetter_serves sampler hfirst
  obtain ⟨third, hmiddle, hthird⟩ :=
    drawMiddle_serves sampler (maxLabelLen - 2) 1 ['a'] hsecond
  obtain ⟨after, hlast, hafter⟩ := drawAsciiAlnum_serves sampler hthird
  refine ⟨['a'] ++ List.replicate (maxLabelLen - 2) 'a' ++ ['a'], after, ?_, ?_,
    hafter⟩
  · rw [drawDnsLabel, Attempt.bind_ok hlen, Attempt.bind_ok hletter,
      if_pos (by decide : (maxLabelLen : Int).toNat > 1)]
    refine (Attempt.bind_ok hmiddle).trans ?_
    rw [Attempt.bind_ok hlast]
    rfl
  · simp [maxLabelLen]

theorem LabelState.more_serves {count : Nat} {state : ManyState}
    (hstate : LabelState count state) (answer : Bool)
    (hfree : ∀ f, forcedBoolean state.pContinue state.forced = some f →
      answer = f)
    (hserves : source.Serves (.boolean answer :: values)) :
    ∃ after, state.more sampler source =
        (.ok (answer, if answer then state.counted else state), after) ∧
      after.Serves values := by
  obtain ⟨after, hdraw, hafter⟩ := drawWeighted_serves sampler hserves hfree
  have hanswer : state.shouldContinue sampler source = (.ok answer, after) := by
    rw [ManyState.shouldContinue, hstate.isFixed, if_neg Bool.false_ne_true,
      hdraw]
  exact ⟨after, Attempt.bind_ok hanswer, hafter⟩

/-- What a name is drawn from whose only label is too long. -/
def bareDomainValues (idx : Nat) (tld : List Char) : List ChoiceValue :=
  .integer idx :: (List.replicate tld.length (.boolean false) ++
    .boolean true :: (longLabelValues ++ [.boolean false]))

/-- A top-level domain without room for a longest label can come out alone. -/
theorem generateDomain_bare {spec : DomainSpec} {idx : Nat} {tld : List Char}
    (htld : spec.eligibleTlds[idx]? = some tld)
    (hlong : spec.maxLength < tld.length + 1 + maxLabelLen)
    (hserves : source.Serves (bareDomainValues idx tld ++ values)) :
    (generateDomain sampler spec source).1 = .ok tld := by
  rw [bareDomainValues, List.cons_append, List.append_assoc,
    List.cons_append, List.append_assoc, List.singleton_append] at hserves
  obtain ⟨first, hindex, hfirst⟩ := drawIndex_serves sampler
    (List.getElem?_eq_some_iff.mp htld).1 hserves
  obtain ⟨second, hrecase, hsecond⟩ := recaseTld_serves sampler tld hfirst
  have hforced : domainState.forced = some true :=
    labelState_domainState.forced
  obtain ⟨third, hmore, hthird⟩ := labelState_domainState.more_serves sampler
    true (by rw [hforced]; exact fun f hf => Option.some.inj hf)
    hsecond
  obtain ⟨label, fourth, hlabel, hlength, hfourth⟩ :=
    drawDnsLabel_serves sampler hthird
  have hone := labelState_domainState.counted (by decide)
  obtain ⟨after, hstop, -⟩ := hone.more_serves sampler false
    (by
      have hfree : forcedBoolean domainState.counted.pContinue
          domainState.counted.forced = none := by
        rw [hone.forced]
        decide +kernel
      rw [hfree]
      simp) hfourth
  have helement : Attempt.ofExcept (elementAt spec.eligibleTlds idx) first =
      (.ok tld, first) := by
    rw [elementAt, htld]
    rfl
  rw [generateDomain, Attempt.bind_ok hindex, Attempt.bind_ok helement,
    Attempt.bind_ok hrecase, addLabels, Attempt.bind_ok hmore]
  dsimp only
  rw [if_pos rfl, if_pos rfl, Attempt.bind_ok hlabel, if_pos (by omega),
    maxLabels, addLabels, Attempt.bind_ok hstop]
  rfl

end Served

/-- A name with a label has a dot. -/
theorem IsDomain.dot_mem {spec : DomainSpec} {domain : List Char}
    (hdomain : IsDomain spec domain) : '.' ∈ domain := by
  obtain ⟨-, labels, top, hne, -, -, rfl⟩ := hdomain
  cases labels with
  | nil => exact absurd rfl hne
  | cons label rest =>
      exact List.mem_append.mpr (.inr List.mem_cons_self)

/-- What generating a name may come to: a well-formed name, or nothing because
the test case is concluded or a sampler failed. -/
def DomainOutcome {Rng : Type} (spec : DomainSpec)
    (answer : Except MachineError (List Char) × Source Rng) : Prop :=
  match answer.1 with
  | .ok domain => IsDomain spec domain
  | .error error => GivesUp answer.2 error

section Agreement

variable {Rng : Type} {file : TldFile} {maxLength : Nat} {spec : DomainSpec}

/-- The test case that draws a top-level domain and a label that does not
fit. -/
theorem exists_bare (hspec : DomainSpec.new file maxLength = .ok spec)
    {tld : List Char} (htld : tld ∈ spec.eligibleTlds)
    (hlong : maxLength < tld.length + 1 + maxLabelLen) : ∃ values,
      (generateDomain Sampler.simplest spec (.forChoices Unit values)).1 =
        .ok tld := by
  obtain ⟨hmax, rfl, heligible⟩ := DomainSpec.new_spec hspec
  obtain ⟨idx, hidx, hget⟩ := List.getElem_of_mem htld
  rw [heligible, List.mem_filter, decide_eq_true_eq] at htld
  have hlength : (bareDomainValues idx tld ++ []).length ≤ usizeMax := by
    simp only [bareDomainValues, longLabelValues, maxLabelLen, usizeMax,
      List.length_append, List.length_cons, List.length_replicate,
      List.length_nil]
    omega
  exact ⟨_, generateDomain_bare Sampler.simplest
    (List.getElem?_eq_some_iff.mpr ⟨hidx, hget⟩) hlong
    (Source.serves_forChoices hlength)⟩

theorem no_dots_of_eligible
    (hspec : DomainSpec.new file maxLength = .ok spec) {tld : List Char}
    (htld : tld ∈ spec.eligibleTlds) : '.' ∉ tld := by
  rw [(DomainSpec.new_spec hspec).2.2, List.mem_filter] at htld
  exact TldFile.no_dots htld.1

/-- A top-level domain on its own is no name. -/
theorem not_isDomain_of_eligible
    (hspec : DomainSpec.new file maxLength = .ok spec) {tld : List Char}
    (htld : tld ∈ spec.eligibleTlds) : ¬ IsDomain spec tld :=
  fun hdomain => no_dots_of_eligible hspec htld hdomain.dot_mem

/-- Some label among the draws fits next to the top-level domain. -/
def SomeLabelFits (sampler : Sampler Rng) (spec : DomainSpec)
    (source : Source Rng) : Prop :=
  ∀ top labels, (drawDomain sampler spec source).1 = .ok (top, labels) →
    ∃ label ∈ labels, top.length + 1 + label.length ≤ spec.maxLength

/-- A name comes out well formed, or the test case is over, if and only if some
label that is drawn fits next to the top-level domain that is drawn. -/
theorem generateDomain_conforms_iff
    (hspec : DomainSpec.new file maxLength = .ok spec)
    (sampler : Sampler Rng) (source : Source Rng) :
    DomainOutcome spec (generateDomain sampler spec source) ↔
      SomeLabelFits sampler spec source := by
  have hyields := @drawDomain_yields Rng sampler source spec
  have hgivesUp := @drawDomain_onlyGivesUp Rng sampler spec source
  rw [generateDomain_eq, DomainOutcome, SomeLabelFits]
  simp only [bind, Attempt.bind]
  rw [Attempt.Meets] at hyields
  rcases hdrawn : drawDomain sampler spec source with
    ⟨error | ⟨top, labels⟩, after⟩
  · rw [hdrawn] at hyields
    constructor
    · intro _ top labels hok
      cases hok
    · intro _
      exact hgivesUp error after hdrawn hyields.2
  · rw [hdrawn] at hyields
    obtain ⟨-, ⟨tld, htld, hrecased⟩, hlabels, -⟩ := hyields
    have hlength : (joinLabels [] top).length ≤ spec.maxLength := by
      obtain ⟨-, rfl, heligible⟩ := DomainSpec.new_spec hspec
      have hfilter := htld
      rw [heligible, List.mem_filter, decide_eq_true_eq] at hfilter
      have hsame : top.length = tld.length := hrecased.length_eq
      rw [joinLabels, List.foldr_nil]
      omega
    constructor
    · intro hdomain top' labels' hok
      cases hok
      by_contra hnone
      have hbare := foldl_addLabel_bare fun label hlabel =>
        Nat.lt_of_not_le fun hfits => hnone ⟨label, hlabel, hfits⟩
      have hdot := IsDomain.dot_mem hdomain
      rw [hbare] at hdot
      exact hrecased.no_dots (no_dots_of_eligible hspec htld) hdot
    · intro hfits
      obtain ⟨kept, hall, hjoin, hle, hne⟩ :=
        foldl_addLabel hlabels (by simp) hlength
      refine ⟨hjoin ▸ hle, kept, top, ?_, hall, ⟨tld, htld, hrecased⟩, hjoin⟩
      exact hne (.inr (hfits top labels rfl))

/-- So all draws are all right if and only if every top-level domain leaves
room for the longest label. -/
theorem generateDomain_conforms_all_iff
    (hspec : DomainSpec.new file maxLength = .ok spec) :
    (∀ (Rng : Type) (sampler : Sampler Rng) (source : Source Rng),
      DomainOutcome spec (generateDomain sampler spec source)) ↔
      ∀ tld ∈ spec.eligibleTlds,
        tld.length + 1 + maxLabelLen ≤ maxLength := by
  constructor
  · intro hall tld htld
    by_contra hlong
    obtain ⟨values, hbare⟩ := exists_bare hspec htld (Nat.lt_of_not_le hlong)
    have hdomain := hall Unit Sampler.simplest (.forChoices Unit values)
    rw [DomainOutcome, hbare] at hdomain
    exact not_isDomain_of_eligible hspec htld hdomain
  · intro hroom Rng sampler source
    apply (generateDomain_conforms_iff hspec sampler source).mpr
    intro top labels hdrawn
    have hyields := @drawDomain_yields Rng sampler source spec
    rw [Attempt.Meets, hdrawn] at hyields
    obtain ⟨-, ⟨tld, htld, hrecased⟩, hlabels, hne⟩ := hyields
    obtain ⟨label, hlabel⟩ := List.exists_mem_of_ne_nil labels hne
    have hlong := hroom tld htld
    have hshort := (hlabels label hlabel).length_le
    refine ⟨label, hlabel, ?_⟩
    rw [hrecased.length_eq, (DomainSpec.new_spec hspec).2.1]
    omega

end Agreement

/-- A list with a comment and one domain. -/
def shortTldFile : TldFile where
  lines := ["# Version 1".toList, "AC".toList]
  plain := by simp

theorem topLevelDomains_shortTldFile :
    shortTldFile.topLevelDomains = ["COM".toList, "AC".toList] := by
  have hfilter : (shortTldFile.lines.filter fun line =>
      line.head? != some '#' && line != "ARPA".toList) = ["AC".toList] := by
    decide
  rw [TldFile.topLevelDomains, hfilter, List.mergeSort_singleton]

/-- Names of up to four characters with the only domain that short. -/
def shortSpec : DomainSpec := ⟨4, ["AC".toList], nofun⟩

theorem new_shortSpec : DomainSpec.new shortTldFile 4 = .ok shortSpec := by
  simp only [DomainSpec.new, topLevelDomains_shortTldFile]
  rfl

/-- A label is drawn that is too long for four characters. -/
theorem generateDomain_isDomain_short_false : DomainSpec.new shortTldFile 4 =
    .ok shortSpec ∧ ∃ values, ¬ DomainOutcome shortSpec
      (generateDomain Sampler.simplest shortSpec (.forChoices Unit values)) := by
  have hmem : "AC".toList ∈ shortSpec.eligibleTlds := List.mem_singleton_self _
  obtain ⟨values, hbare⟩ := exists_bare new_shortSpec hmem (by decide)
  refine ⟨new_shortSpec, values, ?_⟩
  rw [DomainOutcome, hbare]
  exact not_isDomain_of_eligible new_shortSpec hmem

/-- What a name with a label of one letter is drawn from. -/
def oneLetterValues : List ChoiceValue :=
  [.integer 0, .boolean false, .boolean false, .boolean true, .integer 1,
    .integer 0, .boolean false]

/-- A label of one letter fits even there. -/
theorem generateDomain_conforms_iff_short :
    DomainSpec.new shortTldFile 4 = .ok shortSpec ∧
      DomainOutcome shortSpec (generateDomain Sampler.simplest shortSpec
        (.forChoices Unit oneLetterValues)) := by
  have hdraws : (drawDomain Sampler.simplest shortSpec
      (.forChoices Unit oneLetterValues)).1.toOption =
        some ("AC".toList, ["a".toList]) := by
    decide +kernel
  have hfits : SomeLabelFits Sampler.simplest shortSpec
      (.forChoices Unit oneLetterValues) := by
    rw [SomeLabelFits]
    generalize drawDomain Sampler.simplest shortSpec _ = drawn at hdraws
    rintro top labels hdrawn
    rw [hdrawn] at hdraws
    cases hdraws
    exact ⟨"a".toList, List.mem_singleton_self _, by decide⟩
  refine ⟨new_shortSpec, ?_⟩
  rw [generateDomain_conforms_iff new_shortSpec]
  exact hfits

end Hegel
