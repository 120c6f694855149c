/-
Saving failures while a run goes on.  Each new example of a failure is saved
before the one it supersedes is deleted, or demoted if it was there before the
run; between any two operations the database holds the last example of every
failure.
-/
import Hegel.DatabaseRefinement
import Hegel.Database
import Hegel.SortKey

namespace Hegel

/-- A key below another one. -/
def subKey (databaseKey sub : Bytes) : Bytes :=
  databaseKey ++ 46 :: sub

/-- The key of demoted entries, below `secondary`. -/
def secondaryKey (key : Bytes) : Bytes :=
  subKey key [115, 101, 99, 111, 110, 100, 97, 114, 121]

theorem secondaryKey_ne (key : Bytes) : secondaryKey key ≠ key := by
  intro heq
  have hlength := congrArg List.length heq
  rw [secondaryKey, subKey, List.length_append] at hlength
  simp at hlength

instance : LawfulBEq Bytes := inferInstance

/-- What a run remembers of its saves: for every origin the nodes and the
bytes of the last one, all bytes saved, and the entries found at its start. -/
structure Persister where
  lastSaved : AList fun _ : String => List ChoiceNode × Bytes
  savedThisRun : List Bytes
  preexisting : List Bytes

/-- An operation and the origin it was performed for. -/
abbrev SaveTrace := List (String × DatabaseOp)

namespace Persister

def new (preexisting : List Bytes) : Persister :=
  ⟨∅, [], preexisting⟩

/-- Another origin's last save has the same bytes. -/
def shared (persister : Persister) (origin : String) (bytes : Bytes) : Bool :=
  persister.lastSaved.entries.any fun entry =>
    decide (entry.1 ≠ origin) && decide (entry.2.2 = bytes)

/-- What happens to the bytes that a save supersedes. -/
def retire (persister : Persister) (key : Bytes) (origin : String)
    (newBytes : Bytes) : List DatabaseOp :=
  match persister.lastSaved.lookup origin with
  | none => []
  | some (_, prevBytes) =>
      if prevBytes ≠ newBytes ∧ persister.shared origin prevBytes = false then
        if prevBytes ∈ persister.preexisting then
          [.moveValue key (secondaryKey key) prevBytes]
        else [.delete key prevBytes]
      else []

/-- The first example of an origin is saved, and each one that is smaller than
the last. -/
def needsSave (persister : Persister) (origin : String)
    (nodes : List ChoiceNode) : Bool :=
  match persister.lastSaved.lookup origin with
  | none => true
  | some (prev, _) => decide (nodesSortKeyCmp nodes prev = .lt)

section Record

variable [UBigBytes]

/-- Record an interesting result. -/
def record (key : Bytes) (persister : Persister) (origin : String)
    (nodes : List ChoiceNode) : List DatabaseOp × Persister :=
  let newBytes := serializeChoices (nodes.map ChoiceNode.value)
  if persister.needsSave origin nodes then
    (.save key newBytes :: persister.retire key origin newBytes,
      { persister with
        savedThisRun := newBytes :: persister.savedThisRun
        lastSaved := persister.lastSaved.insert origin (nodes, newBytes) })
  else ([], persister)

/-- All operations of a sequence of records, in order. -/
def recordAll (key : Bytes) (persister : Persister) :
    List (String × List ChoiceNode) → SaveTrace × Persister
  | [] => ([], persister)
  | (origin, nodes) :: rest =>
      let (ops, persister) := persister.record key origin nodes
      let (trace, persister) := recordAll key persister rest
      (ops.map (fun op => (origin, op)) ++ trace, persister)

end Record

end Persister

/-- The last bytes that a trace saved for an origin. -/
def lastSave (origin : String) (trace : SaveTrace) : Option Bytes :=
  trace.foldl (fun last entry =>
    match entry.2 with
    | .save _ bytes => if entry.1 = origin then some bytes else last
    | _ => last) none

/-- The operation takes bytes away from a key. -/
def DatabaseOp.Removes (key bytes : Bytes) : DatabaseOp → Prop
  | .fetch _ => False
  | .save _ _ => False
  | .delete key' bytes' => key' = key ∧ bytes' = bytes
  | .moveValue source target bytes' =>
      source = key ∧ target ≠ key ∧ bytes' = bytes

section Trace

variable {origin : String} {trace : SaveTrace}

theorem lastSave_save (origin other : String) (key bytes : Bytes) :
    lastSave origin (trace ++ [(other, .save key bytes)]) =
      if other = origin then some bytes else lastSave origin trace := by
  rw [lastSave, List.foldl_append]
  rfl

theorem lastSave_of_not_save {entry : String × DatabaseOp}
    (hentry : ∀ key bytes, entry.2 ≠ .save key bytes) :
    lastSave origin (trace ++ [entry]) = lastSave origin trace := by
  rw [lastSave, List.foldl_append, List.foldl_cons, List.foldl_nil]
  obtain ⟨other, op⟩ := entry
  cases op with
  | save key bytes => exact absurd rfl (hentry key bytes)
  | fetch key => rfl
  | delete key bytes => rfl
  | moveValue source target bytes => rfl

end Trace

namespace Persister

/-- What holds between any two operations: every last save is under the
primary key, what was there before the run is under one of the keys, it is
under the secondary key once it is superseded or the next operation moves it
there, and the next operation takes away no last save. -/
structure Safe (key : Bytes) (preexisting : List Bytes) (trace : SaveTrace)
    (stored : Multimap Bytes Bytes) (next : Option DatabaseOp) : Prop where
  saved : ∀ origin bytes, lastSave origin trace = some bytes →
    bytes ∈ stored key
  kept : ∀ bytes ∈ preexisting,
    bytes ∈ stored key ∨ bytes ∈ stored (secondaryKey key)
  demoted : ∀ bytes ∈ preexisting,
    (∃ origin, (origin, .save key bytes) ∈ trace) →
      (∀ origin, lastSave origin trace ≠ some bytes) →
        bytes ∈ stored (secondaryKey key) ∨
          next = some (.moveValue key (secondaryKey key) bytes)
  harmless : ∀ op ∈ next, ∀ origin bytes,
    lastSave origin trace = some bytes → ¬ op.Removes key bytes

/-- The bookkeeping agrees with what was saved. -/
structure Tracks (preexisting : List Bytes) (trace : SaveTrace)
    (persister : Persister) : Prop where
  tracked : ∀ origin, lastSave origin trace =
    (persister.lastSaved.lookup origin).map Prod.snd
  found : persister.preexisting = preexisting

/-- What may follow a save: nothing, if the bytes it superseded are saved again
or another origin shares them; otherwise these are demoted or deleted. -/
inductive Retires (key : Bytes) (preexisting : List Bytes) (trace : SaveTrace)
    (origin : String) (newBytes : Bytes) : Option DatabaseOp → Prop
  | keeps (hkept : ∀ prevBytes, lastSave origin trace = some prevBytes →
      prevBytes = newBytes ∨
        ∃ other, other ≠ origin ∧ lastSave other trace = some prevBytes) :
      Retires key preexisting trace origin newBytes none
  | demotes {prevBytes} (hprev : lastSave origin trace = some prevBytes)
      (hne : prevBytes ≠ newBytes)
      (hothers : ∀ other, other ≠ origin →
        lastSave other trace ≠ some prevBytes) :
      Retires key preexisting trace origin newBytes
        (some (.moveValue key (secondaryKey key) prevBytes))
  | deletes {prevBytes} (hprev : lastSave origin trace = some prevBytes)
      (hne : prevBytes ≠ newBytes)
      (hothers : ∀ other, other ≠ origin →
        lastSave other trace ≠ some prevBytes)
      (hfresh : prevBytes ∉ preexisting) :
      Retires key preexisting trace origin newBytes
        (some (.delete key prevBytes))

/-- Safe before, between and after the operations that are still to come. -/
inductive SafeAlong (key : Bytes) (preexisting : List Bytes) :
    SaveTrace → Multimap Bytes Bytes → SaveTrace → Prop
  | done {trace stored} (hsafe : Safe key preexisting trace stored none) :
      SafeAlong key preexisting trace stored []
  | step {trace stored entry later}
      (hsafe : Safe key preexisting trace stored (some entry.2))
      (hlater : SafeAlong key preexisting (trace ++ [entry])
        (entry.2.meaning stored) later) :
      SafeAlong key preexisting trace stored (entry :: later)

section Along

variable {key : Bytes} {preexisting : List Bytes} {trace : SaveTrace}
  {stored : Multimap Bytes Bytes} {persister : Persister}

theorem SafeAlong.append {first second : SaveTrace}
    (hfirst : SafeAlong key preexisting trace stored first)
    (hsecond : SafeAlong key preexisting (trace ++ first)
      (DatabaseOp.meanings stored (first.map Prod.snd)) second) :
    SafeAlong key preexisting trace stored (first ++ second) := by
  induction hfirst with
  | done hsafe => simpa [DatabaseOp.meanings] using hsecond
  | step hsafe hlater ih =>
      constructor
      · exact hsafe
      · apply ih
        simpa [DatabaseOp.meanings] using hsecond

/-- Wherever the operations are cut, the store is safe there. -/
theorem SafeAlong.at_split {before after : SaveTrace}
    (halong : SafeAlong key preexisting trace stored (before ++ after)) :
    Safe key preexisting (trace ++ before)
      (DatabaseOp.meanings stored (before.map Prod.snd))
      (after.head?.map Prod.snd) := by
  induction before generalizing trace stored with
  | nil =>
      rw [List.append_nil]
      cases halong with
      | done hsafe => exact hsafe
      | step hsafe hlater => exact hsafe
  | cons entry before ih =>
      cases halong with
      | step hsafe hlater =>
          have hsplit := ih hlater
          rwa [List.append_assoc] at hsplit

/-- Only the two keys matter. -/
theorem Safe.congr {next : Option DatabaseOp}
    {stored' : Multimap Bytes Bytes}
    (hsafe : Safe key preexisting trace stored next)
    (hprimary : stored key = stored' key)
    (hsecondary : stored (secondaryKey key) = stored' (secondaryKey key)) :
    Safe key preexisting trace stored' next where
  saved origin bytes hlast := hprimary ▸ hsafe.saved origin bytes hlast
  kept bytes hbytes := by
    rw [← hprimary, ← hsecondary]
    exact hsafe.kept bytes hbytes
  demoted bytes hbytes hsaved hunpointed := by
    rw [← hsecondary]
    exact hsafe.demoted bytes hbytes hsaved hunpointed
  harmless := hsafe.harmless

theorem safe_new (hpreexisting : ∀ bytes ∈ preexisting, bytes ∈ stored key) :
    Safe key preexisting [] stored none where
  saved := by simp [lastSave]
  kept bytes hbytes := .inl (hpreexisting bytes hbytes)
  demoted _ _ h := by simp at h
  harmless := by simp

theorem tracks_new : Tracks preexisting [] (.new preexisting) where
  tracked origin := by
    rw [Persister.new, AList.lookup_empty]
    rfl
  found := rfl

/-- Only another origin shares bytes. -/
theorem Tracks.shared_eq_false (htracks : Tracks preexisting trace persister)
    {origin other : String} {bytes : Bytes}
    (hshared : persister.shared origin bytes = false) (hne : other ≠ origin) :
    lastSave other trace ≠ some bytes := by
  intro hlast
  rw [htracks.tracked] at hlast
  obtain ⟨⟨nodes, bytes'⟩, hlookup, rfl⟩ := Option.map_eq_some_iff.mp hlast
  rw [shared, List.any_eq_false] at hshared
  have hmem : ⟨other, nodes, bytes'⟩ ∈ persister.lastSaved.entries :=
    AList.mem_lookup_iff.mp hlookup
  exact hshared _ hmem (by simp [hne])

theorem Tracks.shared_eq_true (htracks : Tracks preexisting trace persister)
    {origin : String} {bytes : Bytes}
    (hshared : persister.shared origin bytes = true) :
    ∃ other, other ≠ origin ∧ lastSave other trace = some bytes := by
  rw [shared, List.any_eq_true] at hshared
  obtain ⟨⟨other, nodes, bytes'⟩, hmem, hentry⟩ := hshared
  simp only [Bool.and_eq_true, decide_eq_true_eq] at hentry
  refine ⟨other, hentry.1, ?_⟩
  rw [htracks.tracked, AList.mem_lookup_iff.mpr hmem, ← hentry.2]
  rfl

/-- What a record does about the bytes it supersedes is one of these. -/
theorem Tracks.retires (htracks : Tracks preexisting trace persister)
    (key : Bytes) (origin : String) (newBytes : Bytes) :
    ∃ next, persister.retire key origin newBytes = next.toList ∧
      Retires key preexisting trace origin newBytes next := by
  rw [retire, htracks.found]
  have htracked := htracks.tracked origin
  cases hlookup : persister.lastSaved.lookup origin with
  | none =>
      rw [hlookup] at htracked
      exact ⟨none, rfl, .keeps (by simp [htracked])⟩
  | some last =>
      obtain ⟨nodes, prevBytes⟩ := last
      rw [hlookup] at htracked
      dsimp only
      by_cases hretired : prevBytes ≠ newBytes ∧
          persister.shared origin prevBytes = false
      · rw [if_pos hretired]
        have hothers : ∀ other, other ≠ origin →
            lastSave other trace ≠ some prevBytes :=
          fun other hne => htracks.shared_eq_false hretired.2 hne
        by_cases hfound : prevBytes ∈ preexisting
        · rw [if_pos hfound]
          exact ⟨_, rfl, .demotes htracked hretired.1 hothers⟩
        · rw [if_neg hfound]
          exact ⟨_, rfl, .deletes htracked hretired.1 hothers hfound⟩
      · rw [if_neg hretired]
        refine ⟨none, rfl, .keeps ?_⟩
        intro bytes hbytes
        obtain rfl : prevBytes = bytes :=
          Option.some.inj (htracked.symm.trans hbytes)
        by_cases hsame : prevBytes = newBytes
        · exact .inl hsame
        · right
          apply htracks.shared_eq_true
          simpa [hsame] using hretired

/-- After the save, no last save has the bytes that it superseded. -/
theorem unpointed {origin : String} {prevBytes newBytes : Bytes}
    (hne : prevBytes ≠ newBytes)
    (hothers : ∀ other, other ≠ origin → lastSave other trace ≠ some prevBytes)
    (other : String) :
    lastSave other (trace ++ [(origin, .save key newBytes)]) ≠
      some prevBytes := by
  rw [lastSave_save]
  by_cases hsame : origin = other
  · rw [if_pos hsame, Ne, Option.some.injEq]
    exact hne.symm
  · rw [if_neg hsame]
    exact hothers other (Ne.symm hsame)

/-- Saving keeps every last save where it is. -/
theorem Safe.save (hsafe : Safe key preexisting trace stored none)
    {origin : String} {newBytes : Bytes} {next : Option DatabaseOp}
    (hnext : Retires key preexisting trace origin newBytes next) :
    Safe key preexisting (trace ++ [(origin, .save key newBytes)])
      (stored.insert key newBytes) next where
  saved other bytes hlast := by
    rw [lastSave_save] at hlast
    by_cases hsame : origin = other
    · rw [if_pos hsame, Option.some.injEq] at hlast
      exact .inl ⟨rfl, hlast.symm⟩
    · rw [if_neg hsame] at hlast
      exact .inr (hsafe.saved other bytes hlast)
  kept bytes hbytes := by
    rcases hsafe.kept bytes hbytes with hprimary | hsecondary
    · exact .inl (.inr hprimary)
    · exact .inr (.inr hsecondary)
  demoted bytes hbytes hsaved hunpointed := by
    have hne : bytes ≠ newBytes := by
      rintro rfl
      apply hunpointed origin
      rw [lastSave_save, if_pos rfl]
    have hothers : ∀ other, other ≠ origin →
        lastSave other trace ≠ some bytes := by
      intro other hother
      have hother' := hunpointed other
      rwa [lastSave_save, if_neg (Ne.symm hother)] at hother'
    have hsaved' : ∃ origin, (origin, .save key bytes) ∈ trace := by
      obtain ⟨other, hmem⟩ := hsaved
      refine ⟨other, ?_⟩
      simpa [hne] using hmem
    by_cases hlast : lastSave origin trace = some bytes
    · cases hnext with
      | keeps hkept =>
          rcases hkept bytes hlast with hsame | ⟨other, hother, hshared⟩
          · exact absurd hsame hne
          · exact absurd hshared (hothers other hother)
      | demotes hprev _ _ =>
          right
          rw [Option.some.inj (hlast.symm.trans hprev)]
      | deletes hprev _ _ hfresh =>
          rw [Option.some.inj (hlast.symm.trans hprev)] at hbytes
          exact absurd hbytes hfresh
    · left
      have hunpointed' : ∀ other, lastSave other trace ≠ some bytes := by
        intro other
        by_cases hother : other = origin
        · rwa [hother]
        · exact hothers other hother
      rcases hsafe.demoted bytes hbytes hsaved' hunpointed' with hmem | hmove
      · exact .inr hmem
      · cases hmove
  harmless op hop other bytes hlast := by
    cases hnext with
    | keeps _ => cases hop
    | demotes _ hne hothers =>
        obtain rfl := Option.mem_some_iff.mp hop
        intro hremoves
        rw [← hremoves.2.2] at hlast
        exact unpointed hne hothers other hlast
    | deletes _ hne hothers _ =>
        obtain rfl := Option.mem_some_iff.mp hop
        intro hremoves
        rw [← hremoves.2] at hlast
        exact unpointed hne hothers other hlast

/-- Deleting bytes that were not there before the run. -/
theorem Safe.delete {origin : String} {prevBytes : Bytes}
    (hsafe : Safe key preexisting trace stored (some (.delete key prevBytes)))
    (hfresh : prevBytes ∉ preexisting) :
    Safe key preexisting (trace ++ [(origin, .delete key prevBytes)])
      (stored.erase key prevBytes) none where
  saved other bytes hlast := by
    rw [lastSave_of_not_save (by simp)] at hlast
    refine ⟨hsafe.saved other bytes hlast, fun hremoved => ?_⟩
    exact hsafe.harmless _ rfl other bytes hlast ⟨rfl, hremoved.2.symm⟩
  kept bytes hbytes := by
    have hne : bytes ≠ prevBytes := fun h => hfresh (h ▸ hbytes)
    rcases hsafe.kept bytes hbytes with hprimary | hsecondary
    · exact .inl ⟨hprimary, fun h => hne h.2⟩
    · exact .inr ⟨hsecondary, fun h => hne h.2⟩
  demoted bytes hbytes hsaved hunpointed := by
    left
    have hsaved' : ∃ origin, (origin, .save key bytes) ∈ trace := by
      simpa using hsaved
    have hunpointed' : ∀ other, lastSave other trace ≠ some bytes := by
      intro other
      have hother := hunpointed other
      rwa [lastSave_of_not_save (by simp)] at hother
    rcases hsafe.demoted bytes hbytes hsaved' hunpointed' with hmem | hmove
    · exact ⟨hmem, fun h => secondaryKey_ne key h.1⟩
    · cases hmove
  harmless := by simp

/-- Moving bytes to the secondary key. -/
theorem Safe.moveValue {origin : String} {prevBytes : Bytes}
    (hsafe : Safe key preexisting trace stored
      (some (.moveValue key (secondaryKey key) prevBytes))) :
    Safe key preexisting
      (trace ++ [(origin, .moveValue key (secondaryKey key) prevBytes)])
      (stored.move key (secondaryKey key) prevBytes) none where
  saved other bytes hlast := by
    rw [lastSave_of_not_save (by simp)] at hlast
    refine .inr ⟨hsafe.saved other bytes hlast, fun hremoved => ?_⟩
    exact hsafe.harmless _ rfl other bytes hlast
      ⟨rfl, secondaryKey_ne key, hremoved.2.symm⟩
  kept bytes hbytes := by
    by_cases hne : bytes = prevBytes
    · exact .inr (.inl ⟨rfl, hne⟩)
    · rcases hsafe.kept bytes hbytes with hprimary | hsecondary
      · exact .inl (.inr ⟨hprimary, fun h => hne h.2⟩)
      · exact .inr (.inr ⟨hsecondary, fun h => hne h.2⟩)
  demoted bytes hbytes hsaved hunpointed := by
    left
    have hsaved' : ∃ origin, (origin, .save key bytes) ∈ trace := by
      simpa using hsaved
    have hunpointed' : ∀ other, lastSave other trace ≠ some bytes := by
      intro other
      have hother := hunpointed other
      rwa [lastSave_of_not_save (by simp)] at hother
    rcases hsafe.demoted bytes hbytes hsaved' hunpointed' with hmem | hmove
    · exact .inr ⟨hmem, fun h => secondaryKey_ne key h.1⟩
    · simp only [Option.some.injEq, DatabaseOp.moveValue.injEq, true_and]
        at hmove
      exact .inl ⟨rfl, hmove.symm⟩
  harmless := by simp

/-- Before a save nothing is taken away. -/
theorem Safe.before_save (hsafe : Safe key preexisting trace stored none)
    (bytes : Bytes) :
    Safe key preexisting trace stored (some (.save key bytes)) where
  saved := hsafe.saved
  kept := hsafe.kept
  demoted bytes' hbytes hsaved hunpointed := by
    rcases hsafe.demoted bytes' hbytes hsaved hunpointed with hmem | hmove
    · exact .inl hmem
    · cases hmove
  harmless op hop _ _ _ := by
    rw [Option.mem_some_iff] at hop
    subst hop
    exact id

/-- Where a safe sequence of operations ends. -/
theorem SafeAlong.at_end {later : SaveTrace}
    (halong : SafeAlong key preexisting trace stored later) :
    Safe key preexisting (trace ++ later)
      (DatabaseOp.meanings stored (later.map Prod.snd)) none := by
  rw [← List.append_nil later] at halong
  exact halong.at_split

end Along

section Record

variable [UBigBytes] {key : Bytes} {preexisting : List Bytes}
  {trace : SaveTrace} {stored : Multimap Bytes Bytes} {persister : Persister}

/-- Recording one result is safe and keeps the bookkeeping. -/
theorem record_safe (htracks : Tracks preexisting trace persister)
    (hsafe : Safe key preexisting trace stored none) (origin : String)
    (nodes : List ChoiceNode) {ops : List DatabaseOp} {persister' : Persister}
    (hrecord : persister.record key origin nodes = (ops, persister')) :
    SafeAlong key preexisting trace stored
        (ops.map fun op => (origin, op)) ∧
      Tracks preexisting (trace ++ ops.map fun op => (origin, op))
        persister' := by
  rw [record] at hrecord
  generalize serializeChoices (nodes.map ChoiceNode.value) = newBytes
    at hrecord
  by_cases hneeds : persister.needsSave origin nodes = true
  · rw [if_pos hneeds, Prod.mk.injEq] at hrecord
    obtain ⟨rfl, rfl⟩ := hrecord
    obtain ⟨next, hretire, hretires⟩ := htracks.retires key origin newBytes
    rw [hretire]
    have hsaved := hsafe.save hretires
    have htracked : ∀ other,
        lastSave other (trace ++ [(origin, .save key newBytes)]) =
          ((persister.lastSaved.insert origin (nodes, newBytes)).lookup
            other).map Prod.snd := by
      intro other
      rw [lastSave_save]
      by_cases hsame : origin = other
      · subst hsame
        rw [if_pos rfl, AList.lookup_insert]
        rfl
      · rw [if_neg hsame, AList.lookup_insert_ne (Ne.symm hsame),
          htracks.tracked]
    cases hretires with
    | keeps _ =>
        constructor
        · exact .step (hsafe.before_save newBytes) (.done hsaved)
        · exact ⟨htracked, htracks.found⟩
    | @demotes prevBytes _ _ _ =>
        constructor
        · exact .step (hsafe.before_save newBytes)
            (.step hsaved (.done hsaved.moveValue))
        · refine ⟨fun other => ?_, htracks.found⟩
          rw [← htracked, Option.toList_some, List.map_cons, List.map_cons,
            List.map_nil, List.append_cons, lastSave_of_not_save (by simp)]
    | @deletes prevBytes _ _ _ hfresh =>
        constructor
        · exact .step (hsafe.before_save newBytes)
            (.step hsaved (.done (hsaved.delete hfresh)))
        · refine ⟨fun other => ?_, htracks.found⟩
          rw [← htracked, Option.toList_some, List.map_cons, List.map_cons,
            List.map_nil, List.append_cons, lastSave_of_not_save (by simp)]
  · rw [if_neg hneeds, Prod.mk.injEq] at hrecord
    obtain ⟨rfl, rfl⟩ := hrecord
    rw [List.map_nil, List.append_nil]
    exact ⟨.done hsafe, htracks⟩

/-- Recording any results is safe. -/
theorem recordAll_safe (calls : List (String × List ChoiceNode))
    (htracks : Tracks preexisting trace persister)
    (hsafe : Safe key preexisting trace stored none) :
    SafeAlong key preexisting trace stored
      (persister.recordAll key calls).1 := by
  induction calls generalizing persister trace stored with
  | nil => exact .done hsafe
  | cons call rest ih =>
      obtain ⟨origin, nodes⟩ := call
      obtain ⟨hrecorded, htracks'⟩ :=
        record_safe htracks hsafe origin nodes rfl
      exact hrecorded.append (ih htracks' hrecorded.at_end)

/-- Records only concern the two keys and the bytes of their results. -/
theorem recordAll_within {keys values : Set Bytes} (hkey : key ∈ keys)
    (hsecondary : secondaryKey key ∈ keys)
    {calls : List (String × List ChoiceNode)}
    (hlast : ∀ origin last, persister.lastSaved.lookup origin = some last →
      last.2 ∈ values)
    (hcalls : ∀ call ∈ calls,
      serializeChoices (call.2.map ChoiceNode.value) ∈ values) :
    ∀ entry ∈ (persister.recordAll key calls).1,
      entry.2.Within keys values := by
  induction calls generalizing persister with
  | nil => simp [recordAll]
  | cons call rest ih =>
      obtain ⟨origin, nodes⟩ := call
      have hnew := hcalls _ List.mem_cons_self
      have hrest := fun call hcall => hcalls call (List.mem_cons_of_mem _ hcall)
      rw [recordAll, record]
      generalize serializeChoices (nodes.map ChoiceNode.value) = newBytes
        at hnew
      by_cases hneeds : persister.needsSave origin nodes = true
      · rw [if_pos hneeds]
        intro entry hentry
        rw [List.mem_append, List.mem_map] at hentry
        rcases hentry with ⟨op, hop, rfl⟩ | hentry
        · rcases List.mem_cons.mp hop with rfl | hretired
          · exact ⟨hkey, hnew⟩
          · rw [retire] at hretired
            cases hlookup : persister.lastSaved.lookup origin with
            | none => simp [hlookup] at hretired
            | some last =>
                have hprev := hlast origin last hlookup
                rw [hlookup] at hretired
                dsimp only at hretired
                split_ifs at hretired
                · obtain rfl := List.mem_singleton.mp hretired
                  exact ⟨hkey, hsecondary, hprev⟩
                · obtain rfl := List.mem_singleton.mp hretired
                  exact ⟨hkey, hprev⟩
                · cases hretired
        · refine ih ?_ hrest entry hentry
          intro other last hlookup
          by_cases hsame : other = origin
          · subst hsame
            rw [AList.lookup_insert, Option.some.injEq] at hlookup
            subst hlookup
            exact hnew
          · rw [AList.lookup_insert_ne hsame] at hlookup
            exact hlast other last hlookup
      · rw [if_neg hneeds]
        intro entry hentry
        exact ih hlast hrest entry hentry

end Record

end Persister

/-- However a run with any records is cut between two operations, the database
then holds the last save of every failure under the primary key and all that
was there before under one of the two keys; what of it was superseded is under
the secondary key or moved there next; and the next operation takes no last
save from the primary key. -/
theorem record_crashSafe [UBigBytes] {keys values : Set Bytes}
    (hcollisions : NoCollisions keys values) {key : Bytes} (hkey : key ∈ keys)
    (hsecondary : secondaryKey key ∈ keys) {earlier : List DatabaseOp}
    (hearlier : ∀ op ∈ earlier, op.Within keys values)
    {calls : List (String × List ChoiceNode)}
    (hcalls : ∀ call ∈ calls,
      serializeChoices (call.2.map ChoiceNode.value) ∈ values)
    {before after : SaveTrace}
    (htrace : (Persister.recordAll key (.new (directoryTestCaseDatabase.fetch
        (directoryTestCaseDatabase.applyAll ∅ earlier) key)) calls).1 =
      before ++ after) :
    Persister.Safe key
      (directoryTestCaseDatabase.fetch
        (directoryTestCaseDatabase.applyAll ∅ earlier) key)
      before
      (directoryTestCaseDatabase.contents
        (directoryTestCaseDatabase.applyAll ∅
          (earlier ++ before.map Prod.snd)))
      (after.head?.map Prod.snd) := by
  have hrepresents := (represents_empty keys values).applyAll hcollisions hearlier
  have hpreexisting := (hrepresents.fetch_user hcollisions hkey).2
  have hunsaved : ∀ origin last,
      (Persister.new (directoryTestCaseDatabase.fetch
        (directoryTestCaseDatabase.applyAll ∅ earlier) key)).lastSaved.lookup
          origin = some last → last.2 ∈ values := by
    simp [Persister.new]
  have hwithin := Persister.recordAll_within hkey hsecondary hunsaved hcalls
  rw [htrace] at hwithin
  have halong := Persister.recordAll_safe calls Persister.tracks_new
    (Persister.safe_new fun bytes hbytes => (hpreexisting bytes).mp hbytes)
  rw [htrace] at halong
  have hbefore : ∀ op ∈ before.map Prod.snd, op.Within keys values := by
    intro op hop
    obtain ⟨entry, hentry, rfl⟩ := List.mem_map.mp hop
    exact hwithin entry (List.mem_append_left _ hentry)
  have hlater := hrepresents.applyAll hcollisions hbefore
  rw [← TestCaseDatabase.applyAll_append] at hlater
  apply halong.at_split.congr
  · exact (hlater.contents hcollisions hkey).symm
  · exact (hlater.contents hcollisions hsecondary).symm

/-- A failure that was there before the run is found again and then improved:
before the last operation both examples are under the primary key. -/
theorem record_crashSafe_sample :
    let earlier := [DatabaseOp.save [97] [1, 0, 0, 0, 1, 1]]
    let before := [("failure", DatabaseOp.save [97] [1, 0, 0, 0, 1, 1]),
      ("failure", .save [97] [1, 0, 0, 0, 1, 0])]
    Persister.Safe [97] [[1, 0, 0, 0, 1, 1]] before
      (directoryTestCaseDatabase.contents
        (directoryTestCaseDatabase.applyAll ∅
          (earlier ++ before.map Prod.snd)))
      (some (.moveValue [97] (secondaryKey [97]) [1, 0, 0, 0, 1, 1])) := by
  let reference := UBigBytes.digits
  let node (value : Bool) : ChoiceNode :=
    .mk (.boolean ⟨.zero⟩ value) false
  have hcollisions := @noCollisions_of_nodup [[97], secondaryKey [97]]
    [[1, 0, 0, 0, 1, 1], [1, 0, 0, 0, 1, 0]]
    (by decide +kernel) (by decide +kernel) (by decide +kernel)
  have hfetch : directoryTestCaseDatabase.fetch
      (directoryTestCaseDatabase.applyAll ∅
        [.save [97] [1, 0, 0, 0, 1, 1]]) [97] = [[1, 0, 0, 0, 1, 1]] := by
    decide +kernel
  have htrace : (Persister.recordAll [97]
      (.new (directoryTestCaseDatabase.fetch
        (directoryTestCaseDatabase.applyAll ∅
          [.save [97] [1, 0, 0, 0, 1, 1]]) [97]))
      [("failure", [node true]), ("failure", [node false])]).1 =
      [("failure", .save [97] [1, 0, 0, 0, 1, 1]),
        ("failure", .save [97] [1, 0, 0, 0, 1, 0])] ++
      [("failure", .moveValue [97] (secondaryKey [97])
        [1, 0, 0, 0, 1, 1])] := by
    rw [hfetch]
    decide +kernel
  have hsafe := record_crashSafe hcollisions (by simp) (by simp)
    (by simp [DatabaseOp.Within]) (by simp [node]; decide) htrace
  rwa [hfetch] at hsafe

end Hegel
