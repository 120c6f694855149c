/-
What every typed draw guarantees.  Whatever a draw hands out is valid for the
constraint recorded beside it, and the recorded value replays as itself.
-/
import Hegel.Lib.Checked
import Hegel.ChoiceIndex
import Hegel.FloatConstraint
import Hegel.Draws

namespace Hegel

/-- Whether a constraint admits the value recorded beside it; booleans and
clones are not constrained. -/
def ChoiceData.validate : ChoiceData → Bool
  | .integer ic v => ic.validate v
  | .boolean _ _ => true
  | .float fc v => fc.validate v
  | .bytes bc v => bc.validate v
  | .string sc v => sc.validate v
  | .clone _ => true

section Laws

variable {Rng Value : Type}

/-- The values a draw can hand out. -/
inductive Draw.Produces (draw : Draw Rng) (drawn : Drawn) : Prop where
  | simplest (hdrawn : draw.simplest = .ok drawn)
  | unit (hdrawn : draw.unit = .ok drawn)
  | replayed (value : ChoiceValue) (hdrawn : draw.fromPrefix value = some drawn)
  | sampled (rng rng' : Rng) (hdrawn : draw.random rng = .ok (drawn, rng'))

/-- A draw whose values are valid and replay as themselves, however a clone
among the replayed values is stored. -/
structure Draw.Lawful (draw : Draw Rng) : Prop where
  valid : ∀ drawn, draw.Produces drawn → drawn.data.validate = true
  replays : ∀ drawn, draw.Produces drawn →
    draw.fromPrefix drawn.data.value = some drawn
  reads_ref : ∀ a b : ChoiceValue, a.ref = b.ref →
    draw.fromPrefix a = draw.fromPrefix b

/-- What a request can record, with the flag of the node. -/
def DrawRequest.Produces : DrawRequest Rng → Drawn → Bool → Prop
  | .resolve draw, drawn, wasForced => draw.Produces drawn ∧ wasForced = false
  | .forced given, drawn, wasForced => drawn = given ∧ wasForced = true

def DrawRequest.Lawful : DrawRequest Rng → Prop
  | .resolve draw => draw.Lawful
  | .forced drawn => drawn.data.validate = true

/-- Only clones with the same view can be different values. -/
theorem ChoiceValue.eq_or_clone_of_ref {a b : ChoiceValue}
    (href : a.ref = b.ref) :
    a = b ∨ ∃ record record', a = .clone record ∧ b = .clone record' := by
  have hclone : ∀ record : CloneRecord,
      ∃ flatLen values, record.ref = .clone flatLen values := by
    intro record
    cases record with
    | values values flatLen => exact ⟨_, _, rfl⟩
    | realized stream =>
        cases stream
        exact ⟨_, _, rfl⟩
  cases a with
  | clone record =>
      obtain ⟨flatLen, values, hrecord⟩ := hclone record
      cases b with
      | clone record' => exact .inr ⟨record, record', rfl, rfl⟩
      | _ => simp [ChoiceValue.ref, hrecord] at href
  | _ =>
      cases b with
      | clone record' =>
          obtain ⟨flatLen, values, hrecord⟩ := hclone record'
          simp [ChoiceValue.ref, hrecord] at href
      | _ => simp_all [ChoiceValue.ref]

/-- An extraction that passes over clones reads only the view. -/
theorem reads_ref_of_clone {extract : ChoiceValue → Option Value}
    (hclone : ∀ record, extract (.clone record) = none)
    {a b : ChoiceValue} (href : a.ref = b.ref) : extract a = extract b := by
  rcases ChoiceValue.eq_or_clone_of_ref href with
    rfl | ⟨record, record', rfl, rfl⟩
  · rfl
  · rw [hclone, hclone]

section Typed

variable {drawn : Value → Drawn} {validate : Value → Bool}
  {extract : ChoiceValue → Option Value}
  {simplest unit : Except InternalError Value}
  {sample : Rng → Except InternalError (Value × Rng)}

/-- A typed draw only hands out valid values. -/
theorem Draw.typed_produces
    (hsimplest : ∀ v, simplest = .ok v → validate v = true)
    (hunit : ∀ v, unit = .ok v → validate v = true)
    (hsample : ∀ rng v rng', sample rng = .ok (v, rng') → validate v = true)
    {d : Drawn}
    (hd : (Draw.typed drawn validate extract simplest unit sample).Produces d) :
    ∃ v, validate v = true ∧ drawn v = d := by
  cases hd with
  | simplest hdrawn =>
      obtain ⟨v, hv, rfl⟩ := map_eq_ok hdrawn
      exact ⟨v, hsimplest v hv, rfl⟩
  | unit hdrawn =>
      obtain ⟨v, hv, rfl⟩ := map_eq_ok hdrawn
      exact ⟨v, hunit v hv, rfl⟩
  | replayed value hdrawn =>
      obtain ⟨v, hv, rfl⟩ := Option.map_eq_some_iff.mp hdrawn
      exact ⟨v, (Option.filter_eq_some_iff.mp hv).2, rfl⟩
  | sampled rng rng' hdrawn =>
      obtain ⟨⟨v, rng''⟩, hv, heq⟩ := map_eq_ok hdrawn
      cases heq
      exact ⟨v, hsample rng v _ hv, rfl⟩

/-- What makes a typed draw lawful. -/
theorem Draw.typed_lawful
    (hsimplest : ∀ v, simplest = .ok v → validate v = true)
    (hunit : ∀ v, unit = .ok v → validate v = true)
    (hsample : ∀ rng v rng', sample rng = .ok (v, rng') → validate v = true)
    (hvalid : ∀ v, validate v = true → (drawn v).data.validate = true)
    (hreplay : ∀ v, validate v = true → ∃ v',
      extract (drawn v).data.value = some v' ∧ validate v' = true ∧
        drawn v' = drawn v)
    (hclone : ∀ record, extract (.clone record) = none) :
    (Draw.typed drawn validate extract simplest unit sample).Lawful where
  valid d hd := by
    obtain ⟨v, hv, rfl⟩ := typed_produces hsimplest hunit hsample hd
    exact hvalid v hv
  replays d hd := by
    obtain ⟨v, hv, rfl⟩ := typed_produces hsimplest hunit hsample hd
    obtain ⟨v', hextract, hv', hsame⟩ := hreplay v hv
    simp only [typed, hextract, Option.filter_some, hv', if_true,
      Option.map_some, hsame]
  reads_ref a b href := by
    simp only [typed, reads_ref_of_clone hclone href]

end Typed

end Laws

theorem IntegerChoice.validate_unit (ic : IntegerChoice) :
    ic.validate ic.unit = true := by
  rw [unit]
  by_cases habove : ic.validate (ic.simplest + 1) = true
  · simp only [habove, if_true]
  · by_cases hbelow : ic.validate (ic.simplest - 1) = true
    · simp only [habove, hbelow, if_true, Bool.false_eq_true, if_false]
    · simp only [habove, hbelow, Bool.false_eq_true, if_false]
      exact ic.validate_simplest

namespace BytesChoice

variable (bc : BytesChoice)

theorem validate_iff (v : List UInt8) :
    bc.validate v = true ↔ bc.minSize ≤ v.length ∧ v.length ≤ bc.maxSize := by
  simp [validate]

theorem validate_simplest : bc.validate bc.simplest = true := by
  have hordered := bc.ordered
  rw [validate_iff, simplest, List.length_replicate]
  exact ⟨le_refl _, hordered⟩

theorem validate_unit : bc.validate bc.unit = true := by
  have hordered := bc.ordered
  rw [unit]
  by_cases hmin : bc.minSize > 0
  · rw [if_pos hmin, validate_iff, List.length_append, List.length_replicate,
      List.length_singleton]
    omega
  · rw [if_neg hmin]
    by_cases hmax : bc.maxSize > 0
    · rw [if_pos hmax, validate_iff, List.length_singleton]
      omega
    · rw [if_neg hmax]
      exact bc.validate_simplest

end BytesChoice

namespace StringChoice

variable {sc : StringChoice}

/-- Every key of the alphabet names one of its members. -/
theorem contains_of_keyToCodepoint {key : Nat} {cp : UInt32}
    (hcp : sc.keyToCodepoint key = some cp) :
    sc.intervals.contains cp.toNat = true := by
  rw [keyToCodepoint] at hcp
  by_cases hkey : key ≥ sc.intervals.len
  · rw [if_pos hkey] at hcp
    cases hcp
  · rw [if_neg hkey, Option.some.injEq] at hcp
    rw [← hcp, sc.toNat_keyToCodepoint (by omega)]
    exact (sc.intervals.indexFromCodepoint_charInShrinkOrder (by omega)).1

theorem contains_simplestCodepoint {cp : UInt32}
    (hcp : sc.simplestCodepoint = .ok cp) :
    sc.intervals.contains cp.toNat = true := by
  rw [simplestCodepoint] at hcp
  by_cases hempty : sc.intervals.isEmpty = true
  · rw [if_pos hempty] at hcp
    cases hcp
  · rw [if_neg hempty, Except.ok.injEq] at hcp
    apply @contains_of_keyToCodepoint sc 0
    rw [IntervalSet.isEmpty, beq_iff_eq] at hempty
    rw [keyToCodepoint, if_neg (by omega), hcp]

theorem validate_replicate {cp : UInt32} {count : Nat}
    (hcp : sc.intervals.contains cp.toNat = true) (hmin : sc.minSize ≤ count)
    (hmax : count ≤ sc.maxSize) :
    sc.validate (List.replicate count cp) = true := by
  rw [validate_iff, List.length_replicate]
  refine ⟨hmin, hmax, fun cp' hmem => ?_⟩
  rwa [List.eq_of_mem_replicate hmem]

theorem simplest_valid {v : List UInt32} (hv : sc.simplest = .ok v) :
    sc.validate v = true := by
  have hordered := sc.ordered
  rw [simplest] at hv
  by_cases hmin : sc.minSize = 0
  · rw [if_pos hmin] at hv
    cases hv
    simp [validate_iff, hmin]
  · rw [if_neg hmin] at hv
    cases hcp : sc.simplestCodepoint with
    | error e =>
        rw [hcp] at hv
        cases hv
    | ok cp =>
        rw [hcp] at hv
        cases hv
        exact validate_replicate (contains_simplestCodepoint hcp)
          (le_refl _) hordered

/-- The last codepoint of a valid string gives way to another member. -/
theorem validate_dropLast_append {v : List UInt32} {cp : UInt32}
    (hv : sc.validate v = true) (hpos : 0 < v.length)
    (hcp : sc.intervals.contains cp.toNat = true) :
    sc.validate (v.dropLast ++ [cp]) = true := by
  rw [validate_iff] at hv ⊢
  obtain ⟨hmin, hmax, hmem⟩ := hv
  rw [List.length_append, List.length_dropLast, List.length_singleton]
  refine ⟨by omega, by omega, fun cp' hcp' => ?_⟩
  rcases List.mem_append.mp hcp' with hinit | hlast
  · exact hmem cp' (List.dropLast_subset _ hinit)
  · rwa [List.mem_singleton.mp hlast]

theorem unit_valid {v : List UInt32} (hv : sc.unit = .ok v) :
    sc.validate v = true := by
  have hordered := sc.ordered
  rw [unit] at hv
  by_cases hempty : sc.intervals.isEmpty = true
  · rw [if_pos hempty] at hv
    exact simplest_valid hv
  rw [if_neg hempty] at hv
  cases hsimplestCp : sc.simplestCodepoint with
  | error e =>
      rw [hsimplestCp] at hv
      cases hv
  | ok simplestCp =>
      have hcontains := contains_simplestCodepoint hsimplestCp
      rw [hsimplestCp] at hv
      simp only [bind, Except.bind] at hv
      -- without a second codepoint the simplest string grows by one
      have hgrow : ∀ {w}, (if sc.minSize < sc.maxSize then
            (.ok (List.replicate (sc.minSize + 1) simplestCp) :
              Except InternalError (List UInt32))
          else sc.simplest) = .ok w → sc.validate w = true := by
        intro w hw
        by_cases hlt : sc.minSize < sc.maxSize
        · rw [if_pos hlt] at hw
          cases hw
          exact validate_replicate hcontains (Nat.le_succ _) hlt
        · rw [if_neg hlt] at hw
          exact simplest_valid hw
      cases hkey : sc.keyToCodepoint 1 with
      | none =>
          rw [hkey] at hv
          exact hgrow hv
      | some cp =>
          have hmember := contains_of_keyToCodepoint hkey
          simp only [hkey] at hv
          by_cases hne : cp ≠ simplestCp
          · rw [if_pos hne] at hv
            by_cases hmin : sc.minSize > 0
            · rw [if_pos hmin] at hv
              cases hs : sc.simplest with
              | error e =>
                  rw [hs] at hv
                  cases hv
              | ok s =>
                  rw [hs] at hv
                  cases hv
                  have hvalid := simplest_valid hs
                  have hlength := ((sc.validate_iff s).mp hvalid).1
                  exact validate_dropLast_append hvalid (by omega) hmember
            · rw [if_neg hmin] at hv
              by_cases hmax : sc.maxSize > 0
              · rw [if_pos hmax] at hv
                cases hv
                exact @validate_replicate sc cp 1 hmember (by omega) hmax
              · rw [if_neg hmax] at hv
                exact simplest_valid hv
          · rw [if_neg hne] at hv
            exact hgrow hv

end StringChoice

namespace IdSet

/-- The walk ends at a candidate that is not in the rest of the list and
at most one above some member. -/
theorem unusedFrom_spec {ids : List Nat} (hsorted : ids.Pairwise (· ≤ ·))
    (candidate : Nat) :
    candidate ≤ unusedFrom candidate ids ∧
      unusedFrom candidate ids ∉ ids ∧
        (unusedFrom candidate ids = candidate ∨
          ∃ id ∈ ids, unusedFrom candidate ids = id + 1) := by
  induction ids generalizing candidate with
  | nil => simp [unusedFrom]
  | cons id rest ih =>
      rw [List.pairwise_cons] at hsorted
      obtain ⟨hfirst, hrest⟩ := hsorted
      rw [unusedFrom]
      by_cases habove : id > candidate
      · rw [if_pos habove]
        refine ⟨le_refl _, fun hmem => ?_, .inl rfl⟩
        rcases List.mem_cons.mp hmem with heq | hmem
        · omega
        · have hle := hfirst candidate hmem
          omega
      rw [if_neg habove]
      by_cases hsame : id = candidate
      · rw [if_pos hsame]
        obtain ⟨hle, hnot, hbound⟩ := ih hrest (candidate + 1)
        refine ⟨by omega, fun hmem => ?_, .inr ?_⟩
        · rcases List.mem_cons.mp hmem with heq | hmem
          · omega
          · exact hnot hmem
        · rcases hbound with heq | ⟨id', hmem, heq⟩
          · exact ⟨id, List.mem_cons_self, by omega⟩
          · exact ⟨id', List.mem_cons_of_mem _ hmem, heq⟩
      · rw [if_neg hsame]
        obtain ⟨hle, hnot, hbound⟩ := ih hrest candidate
        refine ⟨hle, fun hmem => ?_, ?_⟩
        · rcases List.mem_cons.mp hmem with heq | hmem
          · omega
          · exact hnot hmem
        · rcases hbound with heq | ⟨id', hmem, heq⟩
          · exact .inl heq
          · exact .inr ⟨id', List.mem_cons_of_mem _ hmem, heq⟩

theorem le_largest (used : IdSet) {id : Nat} (hid : id ∈ used.ids) :
    (id : Int) ≤ used.largest := by
  have hne : used.ids ≠ [] := List.ne_nil_of_mem hid
  rw [largest, List.getLast?_eq_getLast_of_ne_nil hne]
  simp only [Option.map_some, Option.getD_some, Int.ofNat_eq_natCast]
  have hle : id ≤ used.ids.getLast hne := by
    have hsplit := List.dropLast_append_getLast hne
    have hsorted := used.sorted
    rw [← hsplit] at hid hsorted
    rcases List.mem_append.mp hid with hinit | hlast
    · exact (List.pairwise_append.mp hsorted).2.2 id hinit _
        (List.mem_singleton_self _)
    · rw [List.mem_singleton.mp hlast]
  omega

/-- The smallest unused identifier is unused and fits the window. -/
theorem smallestUnusedId_spec (used : IdSet) :
    used.smallestUnusedId ∉ used.ids ∧
      used.smallestUnusedId ≤ (used.largest + 2).toNat := by
  obtain ⟨-, hnot, hbound⟩ := unusedFrom_spec used.sorted 0
  refine ⟨hnot, ?_⟩
  rw [smallestUnusedId]
  rcases hbound with hzero | ⟨id, hmem, heq⟩
  · omega
  · have hle := used.le_largest hmem
    omega

end IdSet

theorem idWindow_validate {windowHi : Nat} {v : Int} :
    (idWindow windowHi).validate v = true ↔ 0 ≤ v ∧ v ≤ windowHi :=
  (idWindow windowHi).validate_iff v

section Members

variable {sorted : List Int} {smallest raw : Int}

theorem chooseMember_mem (hsmallest : smallest ∈ sorted) :
    chooseMember smallest sorted raw ∈ sorted := by
  rw [chooseMember]
  cases hlast : (sorted.takeWhile (· ≤ raw)).getLast? with
  | none => exact hsmallest
  | some member =>
      exact (List.takeWhile_subset _) (List.mem_of_getLast? hlast)

/-- A member is chosen for itself. -/
theorem chooseMember_of_mem (hsorted : sorted.Pairwise (· < ·))
    (hraw : raw ∈ sorted) : chooseMember smallest sorted raw = raw := by
  have hlast : (sorted.takeWhile (· ≤ raw)).getLast? = some raw := by
    induction sorted with
    | nil => cases hraw
    | cons first rest ih =>
        rw [List.pairwise_cons] at hsorted
        obtain ⟨hfirst, hrest⟩ := hsorted
        rcases List.mem_cons.mp hraw with rfl | hmem
        · -- everything after the member is above it
          have hnone : rest.takeWhile (· ≤ raw) = [] := by
            cases rest with
            | nil => rfl
            | cons second rest =>
                have hlt := hfirst second List.mem_cons_self
                rw [List.takeWhile_cons_of_neg (by simpa using hlt)]
          rw [List.takeWhile_cons_of_pos (by simp), hnone]
          rfl
        · have hlt := hfirst raw hmem
          have hlast := ih hrest hmem
          rw [List.takeWhile_cons_of_pos (by simpa using hlt.le),
            List.getLast?_cons, hlast]
          rfl
  rw [chooseMember, hlast]
  rfl

end Members

/-- The sampler that only knows the simplest values. -/
def Sampler.simplest : Sampler Unit where
  spawn _ := ((), ())
  integer ic _ := .ok (ic.simplest, ())
  uniform ic _ := (ic.simplest, ())
  position _ _ := (0, ())
  float fc _ := fc.simplest.map fun v => (v, ())
  bytes bc _ := .ok (bc.simplest, ())
  string sc _ := sc.simplest.map fun v => (v, ())
  boolean _ _ := (false, ())
  booleanPrecise _ _ := (false, ())
  integer_valid ic _ v _ hv := by
    cases hv
    exact ic.validate_simplest
  uniform_valid ic _ := ic.validate_simplest
  position_lt n _ hn := hn
  bytes_valid bc _ v _ hv := by
    cases hv
    exact bc.validate_simplest
  string_valid sc _ v _ hv := by
    obtain ⟨v', hsimplest, heq⟩ := map_eq_ok hv
    cases heq
    exact StringChoice.simplest_valid hsimplest

section Requests

variable {Rng : Type} (sampler : Sampler Rng)

theorem drawIntegerFrom_lawful {kind : IntegerChoice}
    {sample : Rng → Except InternalError (Int × Rng)}
    (hsample : ∀ rng v rng', sample rng = .ok (v, rng') →
      kind.validate v = true) :
    (drawIntegerFrom kind sample).Lawful := by
  apply Draw.typed_lawful
  · intro v hv
    cases hv
    exact kind.validate_simplest
  · intro v hv
    cases hv
    exact kind.validate_unit
  · exact hsample
  · exact fun v hv => hv
  · exact fun v hv => ⟨v, rfl, hv, rfl⟩
  · exact fun record => rfl

theorem drawFreshId_lawful (used : IdSet) :
    (@drawFreshId Rng used).Lawful := by
  obtain ⟨hunused, hle⟩ := used.smallestUnusedId_spec
  have hfallback : (decide (used.smallestUnusedId ≤
      (used.largest + 2).toNat) &&
        decide (used.smallestUnusedId ∉ used.ids)) = true := by
    simp [hunused, hle]
  apply Draw.typed_lawful
  · intro v hv
    cases hv
    exact hfallback
  · intro v hv
    cases hv
    exact hfallback
  · intro rng v rng' hv
    cases hv
    exact hfallback
  · intro v hv
    rw [Bool.and_eq_true, decide_eq_true_eq] at hv
    apply idWindow_validate.mpr
    omega
  · intro v hv
    refine ⟨v, ?_, hv, rfl⟩
    simp [ChoiceData.value, ChoiceValue.asId, ChoiceValue.asInteger]
  · exact fun record => rfl

theorem drawFromSet_lawful {used : IdSet} {members : List Int}
    {request : DrawRequest Rng}
    (hrequest : drawFromSet sampler used members = .ok request) :
    request.Lawful := by
  rw [drawFromSet] at hrequest
  have hordered : (members.insertionSort (· ≤ ·)).dedup.Pairwise (· < ·) := by
    have hle := (List.pairwise_insertionSort (· ≤ ·) members).sublist
      (List.dedup_sublist _)
    exact (hle.and (List.nodup_dedup _)).imp fun h =>
      lt_of_le_of_ne h.1 h.2
  cases hsorted : (members.insertionSort (· ≤ ·)).dedup with
  | nil =>
      rw [hsorted] at hrequest
      cases hrequest
  | cons smallest rest =>
      rw [hsorted] at hrequest hordered
      simp only [] at hrequest
      by_cases hneg : smallest < 0
      · rw [if_pos hneg] at hrequest
        cases hrequest
      rw [if_neg hneg] at hrequest
      generalize hwindow : (used.largest + 1).toNat = windowHi at hrequest
      by_cases hhigh :
          (smallest :: rest).getLast (List.cons_ne_nil _ _) > windowHi
      · rw [if_pos hhigh] at hrequest
        cases hrequest
      rw [if_neg hhigh] at hrequest
      cases hrequest
      -- every member lies in the recorded window
      have hmember : ∀ member ∈ smallest :: rest,
          (idWindow windowHi).validate member = true := by
        intro member hmem
        rw [idWindow_validate]
        have hlow : smallest ≤ member := by
          rcases List.mem_cons.mp hmem with rfl | hrest
          · exact le_refl _
          · exact (List.rel_of_pairwise_cons hordered hrest).le
        have hup : member ≤
            (smallest :: rest).getLast (List.cons_ne_nil _ _) := by
          have hsplit := List.dropLast_append_getLast
            (List.cons_ne_nil smallest rest)
          rw [← hsplit] at hmem hordered
          rcases List.mem_append.mp hmem with hinit | hlast
          · exact ((List.pairwise_append.mp hordered).2.2 member hinit _
              (List.mem_singleton_self _)).le
          · rw [List.mem_singleton.mp hlast]
        omega
      have hsmallest : smallest ∈ smallest :: rest := List.mem_cons_self
      apply Draw.typed_lawful
      · intro v hv
        cases hv
        exact hmember _ hsmallest
      · intro v hv
        cases hv
        exact hmember _ hsmallest
      · intro rng v rng' hv
        have hlt := sampler.position_lt (smallest :: rest).length rng
          (Nat.succ_pos _)
        simp only [Except.ok.injEq, Prod.mk.injEq] at hv
        rw [← hv.1, List.getD_eq_getElem?_getD, List.getElem?_eq_getElem hlt]
        exact hmember _ (List.getElem_mem hlt)
      · intro v hv
        exact hmember _ (chooseMember_mem hsmallest)
      · intro v hv
        have hmem := @chooseMember_mem _ _ v hsmallest
        refine ⟨_, rfl, hmember _ hmem, ?_⟩
        rw [chooseMember_of_mem hordered hmem]
      · exact fun record => rfl

theorem drawFloat_lawful (kind : FloatChoice) :
    (drawFloat sampler kind).Lawful := by
  apply Draw.typed_lawful
  · exact fun v hv => FloatChoice.simplest_valid hv
  · exact fun v hv => FloatChoice.unit_valid hv
  · intro rng v rng' hv
    rw [biasedFloatSample] at hv
    cases hsample : sampler.float kind rng with
    | error e =>
        rw [hsample] at hv
        cases hv
    | ok sample =>
        obtain ⟨f, rng''⟩ := sample
        rw [hsample] at hv
        simp only [bind, Except.bind] at hv
        by_cases hvalid : kind.validate f = true
        · rw [if_pos hvalid] at hv
          cases hv
          exact hvalid
        · rw [if_neg hvalid] at hv
          cases hsimplest : kind.simplest with
          | error e =>
              rw [hsimplest] at hv
              cases hv
          | ok s =>
              rw [hsimplest] at hv
              cases hv
              exact FloatChoice.simplest_valid hsimplest
  · exact fun v hv => hv
  · exact fun v hv => ⟨v, rfl, hv, rfl⟩
  · exact fun record => rfl

theorem drawBytes_lawful {minSize maxSize : Nat} {request : DrawRequest Rng}
    (hrequest : drawBytes sampler minSize maxSize = .ok request) :
    request.Lawful := by
  rw [drawBytes] at hrequest
  split at hrequest
  case isFalse => cases hrequest
  case isTrue hordered =>
    cases hrequest
    apply Draw.typed_lawful
    · intro v hv
      cases hv
      exact BytesChoice.validate_simplest _
    · intro v hv
      cases hv
      exact BytesChoice.validate_unit _
    · exact fun rng v rng' hv => sampler.bytes_valid _ rng v rng' hv
    · exact fun v hv => hv
    · exact fun v hv => ⟨v, rfl, hv, rfl⟩
    · exact fun record => rfl

theorem drawString_lawful {intervals : Alphabet} {minSize maxSize : Nat}
    {request : DrawRequest Rng}
    (hrequest : drawString sampler intervals minSize maxSize = .ok request) :
    request.Lawful := by
  rw [drawString] at hrequest
  split at hrequest
  case isFalse => cases hrequest
  case isTrue hordered =>
    split at hrequest
    case isFalse => cases hrequest
    case isTrue hdrawable =>
      cases hrequest
      apply Draw.typed_lawful
      · exact fun v hv => StringChoice.simplest_valid hv
      · exact fun v hv => StringChoice.unit_valid hv
      · exact fun rng v rng' hv => sampler.string_valid _ rng v rng' hv
      · exact fun v hv => hv
      · exact fun v hv => ⟨v, rfl, hv, rfl⟩
      · exact fun record => rfl

theorem weightedWith_lawful (p : Binary64) (forced : Option Bool)
    (sample : Binary64 → Rng → Bool × Rng) :
    (weightedWith p forced sample).Lawful := by
  rw [weightedWith]
  cases forcedBoolean p forced with
  | some f => exact rfl
  | none =>
      apply Draw.typed_lawful
      · exact fun v hv => rfl
      · exact fun v hv => rfl
      · exact fun rng v rng' hv => rfl
      · exact fun v hv => rfl
      · exact fun v hv => ⟨v, rfl, rfl, rfl⟩
      · exact fun record => rfl

/-- Every draw that is not refused outright is lawful. -/
theorem DrawOp.request_lawful {family : FamilyCore} {op : DrawOp}
    {request : DrawRequest Rng}
    (hrequest : op.request sampler family = .ok request) :
    request.Lawful := by
  cases op with
  | integer minValue maxValue =>
      rw [DrawOp.request, drawInteger] at hrequest
      split at hrequest
      case isFalse => cases hrequest
      case isTrue hordered =>
        cases hrequest
        exact drawIntegerFrom_lawful (sampler.integer_valid _)
  | integerUniform minValue maxValue =>
      rw [DrawOp.request, drawIntegerUniform] at hrequest
      split at hrequest
      case isFalse => cases hrequest
      case isTrue hordered =>
        cases hrequest
        apply drawIntegerFrom_lawful
        intro rng v rng' hv
        simp only [Except.ok.injEq] at hv
        have hvalid := sampler.uniform_valid
          ⟨minValue, maxValue, 0, hordered⟩ rng
        rwa [hv] at hvalid
  | integerForced minValue maxValue forced =>
      rw [DrawOp.request, drawIntegerForced] at hrequest
      split at hrequest
      case isFalse => cases hrequest
      case isTrue hrange =>
        cases hrequest
        exact (IntegerChoice.validate_iff _ _).mpr hrange
  | freshId =>
      cases hrequest
      exact drawFreshId_lawful family.freshIds
  | fromSet members => exact drawFromSet_lawful sampler hrequest
  | float kind =>
      cases hrequest
      exact drawFloat_lawful sampler kind
  | bytes minSize maxSize => exact drawBytes_lawful sampler hrequest
  | string intervals minSize maxSize => exact drawString_lawful sampler hrequest
  | weighted p forced =>
      cases hrequest
      exact weightedWith_lawful p forced sampler.boolean
  | weightedPrecise p forced =>
      cases hrequest
      exact weightedWith_lawful p forced sampler.booleanPrecise

end Requests

end Hegel
