/-
The database at the end of a run.  The primary key is left with the failures
that are still there; what they displace is deleted or goes to the secondary
key, which keeps its smallest entries only.
-/
import Hegel.Persistence
import Hegel.Lib.LeastOf

namespace Hegel

/-- By length first, then lexicographically. -/
def shortlex (a b : Bytes) : Ordering :=
  shortlexCmp compare a b

/-- The most entries that the secondary key keeps. -/
def secondaryCorpusCap : Nat := 50

section Reconcile

variable [UBigBytes]

/-- The bytes of all failures, each once. -/
def newEntries (interesting : AList fun _ : String => List ChoiceNode) :
    List Bytes :=
  (interesting.entries.map fun entry =>
    serializeChoices (entry.2.map ChoiceNode.value)).dedup

end Reconcile

/-- What happens to an entry of the primary key. -/
def Persister.dispatch (persister : Persister) (key : Bytes)
    (newEntries : List Bytes) (old : Bytes) : Option DatabaseOp :=
  if old ∈ newEntries then none
  else if old ∈ persister.savedThisRun ∧ old ∉ persister.preexisting then
    some (.delete key old)
  else some (.moveValue key (secondaryKey key) old)

/-- What is evicted from the secondary key. -/
def evicted (secondaryNow : List Bytes) : List Bytes :=
  if secondaryNow.length > secondaryCorpusCap then
    (secondaryNow.mergeSort fun a b => (shortlex a b).isLE).drop
      secondaryCorpusCap
  else []

/-- Save all failures, dispatch what they displace and cap the secondary key. -/
def reconcileDatabase [UBigBytes] {Store : Type}
    (database : TestCaseDatabase Store) (store : Store)
    (nondeterministic : Bool) (key : Bytes)
    (interesting : AList fun _ : String => List ChoiceNode)
    (persister : Persister) : Store :=
  if nondeterministic then store
  else
    let primaryNow := database.fetch store key
    let store := database.applyAll store
      ((newEntries interesting).map (.save key))
    let store := database.applyAll store
      (primaryNow.filterMap (persister.dispatch key (newEntries interesting)))
    let secondaryNow := database.fetch store (secondaryKey key)
    database.applyAll store
      ((evicted secondaryNow).map (.delete (secondaryKey key)))

namespace DatabaseOp

section Meanings

variable {stored : Multimap Bytes Bytes} {key : Bytes}

theorem meanings_one (op : DatabaseOp) :
    meanings stored [op] = op.meaning stored := rfl

theorem mem_meanings_save {saved : List Bytes} {key' value : Bytes} :
    value ∈ meanings stored (saved.map (.save key)) key' ↔
      (key' = key ∧ value ∈ saved) ∨ value ∈ stored key' := by
  induction saved generalizing stored with
  | nil => simp [meanings]
  | cons head rest ih =>
      rw [List.map_cons, meanings, List.foldl_cons, ← meanings, ih, meaning,
        Multimap.mem_insert, List.mem_cons]
      tauto

theorem mem_meanings_delete {deleted : List Bytes} {key' value : Bytes} :
    value ∈ meanings stored (deleted.map (.delete key)) key' ↔
      value ∈ stored key' ∧ ¬ (key' = key ∧ value ∈ deleted) := by
  induction deleted generalizing stored with
  | nil => simp [meanings]
  | cons head rest ih =>
      rw [List.map_cons, meanings, List.foldl_cons, ← meanings, ih, meaning,
        Multimap.mem_erase, List.mem_cons]
      tauto

end Meanings

end DatabaseOp

namespace Persister

section Dispatch

variable {persister : Persister} {key : Bytes} {newEntries : List Bytes}

/-- A displaced entry is demoted unless it was saved in this run only. -/
def Demotes (persister : Persister) (newEntries : List Bytes) (old : Bytes) :
    Prop :=
  old ∉ newEntries ∧
    (old ∈ persister.preexisting ∨ old ∉ persister.savedThisRun)

/-- What dispatching entries changes: the displaced ones leave the primary key
and some of them arrive under the secondary key. -/
structure Dispatches (persister : Persister) (key : Bytes)
    (newEntries olds : List Bytes) (stored stored' : Multimap Bytes Bytes) :
    Prop where
  primary : ∀ value, value ∈ stored' key ↔
    value ∈ stored key ∧ ¬ (value ∈ olds ∧ value ∉ newEntries)
  secondary : ∀ value, value ∈ stored' (secondaryKey key) ↔
    value ∈ stored (secondaryKey key) ∨
      (value ∈ olds ∧ persister.Demotes newEntries value)
  others : ∀ key', key' ≠ key → key' ≠ secondaryKey key →
    stored' key' = stored key'

theorem dispatch_one (stored : Multimap Bytes Bytes) (old : Bytes) :
    persister.Dispatches key newEntries [old] stored
      (DatabaseOp.meanings stored
        (persister.dispatch key newEntries old).toList) := by
  have hkeys := secondaryKey_ne key
  rw [dispatch]
  by_cases hnew : old ∈ newEntries
  · rw [if_pos hnew]
    constructor
    · intro value
      simp only [List.mem_singleton]
      constructor
      · exact fun hmem => ⟨hmem, fun h => h.2 (h.1 ▸ hnew)⟩
      · exact And.left
    · intro value
      simp only [List.mem_singleton]
      constructor
      · exact Or.inl
      · rintro (hmem | ⟨rfl, hfresh, -⟩)
        · exact hmem
        · exact absurd hnew hfresh
    · exact fun _ _ _ => rfl
  · rw [if_neg hnew]
    by_cases hleftover : old ∈ persister.savedThisRun ∧
        old ∉ persister.preexisting
    · rw [if_pos hleftover]
      constructor
      · intro value
        simp only [Option.toList_some, DatabaseOp.meanings_one,
          DatabaseOp.meaning, Multimap.mem_erase, true_and,
          List.mem_singleton]
        apply and_congr_right
        intro _
        rw [not_iff_not]
        exact ⟨fun h => ⟨h, h ▸ hnew⟩, And.left⟩
      · intro value
        simp only [Option.toList_some, DatabaseOp.meanings_one,
          DatabaseOp.meaning, Multimap.erase_ne hkeys,
          List.mem_singleton]
        constructor
        · exact Or.inl
        · rintro (hmem | ⟨rfl, -, hkept | hkept⟩)
          · exact hmem
          · exact absurd hkept hleftover.2
          · exact absurd hleftover.1 hkept
      · intro key' hne _
        exact Multimap.erase_ne hne
    · rw [if_neg hleftover]
      constructor
      · intro value
        simp only [Option.toList_some, DatabaseOp.meanings_one,
          DatabaseOp.meaning, Multimap.mem_move, hkeys.symm,
          false_and, false_or, true_and, List.mem_singleton]
        apply and_congr_right
        intro _
        rw [not_iff_not]
        exact ⟨fun h => ⟨h, h ▸ hnew⟩, And.left⟩
      · intro value
        simp only [Option.toList_some, DatabaseOp.meanings_one,
          DatabaseOp.meaning, Multimap.mem_move, hkeys,
          false_and, not_false_eq_true, and_true, true_and,
          List.mem_singleton]
        rw [or_comm]
        apply or_congr_right
        constructor
        · rintro rfl
          refine ⟨rfl, hnew, ?_⟩
          by_contra hnot
          rw [not_or, not_not] at hnot
          exact hleftover ⟨hnot.2, hnot.1⟩
        · exact And.left
      · intro key' hprimary hsecondary
        rw [Option.toList_some, DatabaseOp.meanings_one, DatabaseOp.meaning, Multimap.move,
          Multimap.insert_ne hsecondary, Multimap.erase_ne hprimary]

theorem dispatch_all (stored : Multimap Bytes Bytes) (olds : List Bytes) :
    persister.Dispatches key newEntries olds stored
      (DatabaseOp.meanings stored
        (olds.filterMap (persister.dispatch key newEntries))) := by
  induction olds generalizing stored with
  | nil =>
      constructor
      · simp [DatabaseOp.meanings]
      · simp [DatabaseOp.meanings]
      · exact fun _ _ _ => rfl
  | cons old rest ih =>
      have hone : persister.Dispatches key newEntries [old] stored _ :=
        dispatch_one stored old
      have hrest := ih (DatabaseOp.meanings stored
        (persister.dispatch key newEntries old).toList)
      have hsplit : (old :: rest).filterMap
          (persister.dispatch key newEntries) =
            (persister.dispatch key newEntries old).toList ++
              rest.filterMap (persister.dispatch key newEntries) := by
        rw [List.filterMap_cons]
        cases persister.dispatch key newEntries old <;> rfl
      rw [hsplit, DatabaseOp.meanings, List.foldl_append]
      constructor
      · intro value
        refine (hrest.primary value).trans ?_
        rw [hone.primary, List.mem_singleton, List.mem_cons]
        tauto
      · intro value
        refine (hrest.secondary value).trans ?_
        rw [hone.secondary, List.mem_singleton, List.mem_cons]
        tauto
      · intro key' hprimary hsecondary
        exact (hrest.others key' hprimary hsecondary).trans
          (hone.others key' hprimary hsecondary)

theorem dispatch_within {keys values : Set Bytes} (hkey : key ∈ keys)
    (hsecondary : secondaryKey key ∈ keys) {olds : List Bytes}
    (holds : ∀ old ∈ olds, old ∈ values) :
    ∀ op ∈ olds.filterMap (persister.dispatch key newEntries),
      op.Within keys values := by
  intro op hop
  obtain ⟨old, hold, hdispatch⟩ := List.mem_filterMap.mp hop
  have hvalue := holds old hold
  rw [dispatch] at hdispatch
  split_ifs at hdispatch
  · obtain rfl := Option.some.inj hdispatch
    exact ⟨hkey, hvalue⟩
  · obtain rfl := Option.some.inj hdispatch
    exact ⟨hkey, hsecondary, hvalue⟩

end Dispatch

end Persister

instance : Std.TransCmp shortlex :=
  inferInstanceAs (Std.TransCmp (shortlexCmp compare))

instance : Std.LawfulEqCmp shortlex :=
  inferInstanceAs (Std.LawfulEqCmp (shortlexCmp compare))

theorem mem_of_mem_evicted {secondaryNow : List Bytes} {value : Bytes}
    (hmem : value ∈ evicted secondaryNow) : value ∈ secondaryNow := by
  rw [evicted] at hmem
  split_ifs at hmem
  · exact List.mem_mergeSort.mp (List.mem_of_mem_drop hmem)
  · cases hmem

/-- What is not evicted are the smallest entries, as many as the cap allows. -/
theorem notMem_evicted_iff {secondaryNow : List Bytes}
    (hnodup : secondaryNow.Nodup) (value : Bytes) :
    (value ∈ secondaryNow ∧ value ∉ evicted secondaryNow) ↔
      value ∈ leastOf shortlex secondaryCorpusCap
        {value | value ∈ secondaryNow} := by
  have hperm := List.mergeSort_perm secondaryNow
    fun a b => (shortlex a b).isLE
  rw [← mem_take_mergeSort_iff hnodup, evicted, ← hperm.length_eq,
    ← hperm.mem_iff]
  have hnodup' := hperm.nodup_iff.mpr hnodup
  generalize secondaryNow.mergeSort (fun a b => (shortlex a b).isLE) = sorted
    at hnodup'
  by_cases hover : sorted.length > secondaryCorpusCap
  · rw [if_pos hover]
    rw [← List.take_append_drop secondaryCorpusCap sorted,
      List.nodup_append] at hnodup'
    constructor
    · rintro ⟨hmem, hkept⟩
      rw [← List.take_append_drop secondaryCorpusCap sorted,
        List.mem_append] at hmem
      exact hmem.resolve_right hkept
    · intro hmem
      refine ⟨List.mem_of_mem_take hmem, fun hdropped => ?_⟩
      exact hnodup'.2.2 value hmem value hdropped rfl
  · rw [if_neg hover, List.take_of_length_le (Nat.le_of_not_lt hover)]
    simp

section Spec

variable [UBigBytes]

/-- The bytes of the failures that a run ends with. -/
def failures (interesting : AList fun _ : String => List ChoiceNode) :
    Set Bytes :=
  {bytes | ∃ origin, ∃ nodes ∈ interesting.lookup origin,
    bytes = serializeChoices (nodes.map ChoiceNode.value)}

theorem mem_newEntries {interesting : AList fun _ : String => List ChoiceNode}
    {bytes : Bytes} :
    bytes ∈ newEntries interesting ↔ bytes ∈ failures interesting := by
  rw [newEntries, List.mem_dedup, List.mem_map]
  constructor
  · rintro ⟨⟨origin, nodes⟩, hentry, rfl⟩
    exact ⟨origin, nodes, AList.mem_lookup_iff.mpr hentry, rfl⟩
  · rintro ⟨origin, nodes, hlookup, rfl⟩
    exact ⟨⟨origin, nodes⟩, AList.mem_lookup_iff.mp hlookup, rfl⟩

/-- Reconciliation of a represented store. -/
theorem Represents.reconcile {keys values : Set Bytes} {fs : DatabaseFiles}
    {stored : Multimap Bytes Bytes} (hcollisions : NoCollisions keys values)
    (hrepresents : Represents keys values fs stored) {key : Bytes}
    (hkey : key ∈ keys) (hsecondary : secondaryKey key ∈ keys)
    {interesting : AList fun _ : String => List ChoiceNode}
    (hinteresting : failures interesting ⊆ values) (persister : Persister) :
    ∃ stored', Represents keys values (reconcileDatabase
        directoryTestCaseDatabase fs false key interesting persister) stored' ∧
      stored' key = failures interesting ∧
      stored' (secondaryKey key) = leastOf shortlex secondaryCorpusCap
        (stored (secondaryKey key) ∪
          {old | old ∈ stored key \ failures interesting ∧
            (old ∈ persister.preexisting ∨ old ∉ persister.savedThisRun)}) ∧
      ∀ key', key' ≠ key → key' ≠ secondaryKey key →
        stored' key' = stored key' := by
  have hne := secondaryKey_ne key
  rw [reconcileDatabase, if_neg Bool.false_ne_true]
  -- the failures are saved
  obtain ⟨-, hprimary⟩ := hrepresents.fetch_user hcollisions hkey
  generalize directoryTestCaseDatabase.fetch fs key = primaryNow at hprimary
  have hsaves : ∀ op ∈ (newEntries interesting).map (DatabaseOp.save key),
      op.Within keys values := by
    intro op hop
    obtain ⟨bytes, hbytes, rfl⟩ := List.mem_map.mp hop
    exact ⟨hkey, hinteresting (mem_newEntries.mp hbytes)⟩
  have hsaved := hrepresents.applyAll hcollisions hsaves
  -- what was there before is dispatched
  have hdispatches : ∀ op ∈ primaryNow.filterMap
      (persister.dispatch key (newEntries interesting)),
        op.Within keys values := by
    apply Persister.dispatch_within hkey hsecondary
    intro old hold
    exact hrepresents.subset hcollisions hkey ((hprimary old).mp hold)
  have hdispatched := hsaved.applyAll hcollisions hdispatches
  have heffect := @Persister.dispatch_all persister key
    (newEntries interesting)
    (DatabaseOp.meanings stored ((newEntries interesting).map (.save key)))
    primaryNow
  -- the secondary key is cut
  obtain ⟨hnodup, hsecondaryNow⟩ :=
    hdispatched.fetch_user hcollisions hsecondary
  dsimp only
  generalize directoryTestCaseDatabase.fetch
    (directoryTestCaseDatabase.applyAll
      (directoryTestCaseDatabase.applyAll fs
        ((newEntries interesting).map (DatabaseOp.save key)))
      (primaryNow.filterMap
        (persister.dispatch key (newEntries interesting))))
    (secondaryKey key) = secondaryNow at hnodup hsecondaryNow
  have hevicted : ∀ op ∈
      (evicted secondaryNow).map (DatabaseOp.delete (secondaryKey key)),
        op.Within keys values := by
    intro op hop
    obtain ⟨bytes, hbytes, rfl⟩ := List.mem_map.mp hop
    refine ⟨hsecondary, ?_⟩
    exact hdispatched.subset hcollisions hsecondary
      ((hsecondaryNow bytes).mp (mem_of_mem_evicted hbytes))
  refine ⟨_, hdispatched.applyAll hcollisions hevicted, ?_, ?_, ?_⟩
  · ext value
    rw [DatabaseOp.mem_meanings_delete, heffect.primary,
      DatabaseOp.mem_meanings_save, mem_newEntries, hprimary]
    simp only [hne.symm, false_and, not_false_eq_true, and_true, true_and]
    tauto
  · ext value
    rw [DatabaseOp.mem_meanings_delete]
    simp only [true_and]
    rw [← hsecondaryNow, notMem_evicted_iff hnodup]
    have hsame : {value | value ∈ secondaryNow} =
        stored (secondaryKey key) ∪
          {old | old ∈ stored key \ failures interesting ∧
            (old ∈ persister.preexisting ∨ old ∉ persister.savedThisRun)} := by
      ext old
      rw [Set.mem_ofPred_eq, hsecondaryNow, heffect.secondary,
        DatabaseOp.mem_meanings_save, Persister.Demotes, mem_newEntries,
        hprimary, Set.mem_union, Set.mem_ofPred_eq, Set.mem_sdiff]
      simp only [hne, false_and, false_or, and_assoc]
    rw [hsame]
  · intro key' hprimary' hsecondary'
    ext value
    rw [DatabaseOp.mem_meanings_delete, heffect.others key' hprimary'
      hsecondary', DatabaseOp.mem_meanings_save]
    simp only [hprimary', hsecondary', false_and, not_false_eq_true, and_true,
      false_or]

/-- At the end of a run the primary key holds the failures, the secondary key
the smallest of its old entries and of the displaced ones that were there at
the start or not saved in the run, and the other keys what they did. -/
theorem reconcileDatabase_contents {keys values : Set Bytes}
    (hcollisions : NoCollisions keys values) {key : Bytes} (hkey : key ∈ keys)
    (hsecondary : secondaryKey key ∈ keys) {earlier : List DatabaseOp}
    (hearlier : ∀ op ∈ earlier, op.Within keys values)
    {interesting : AList fun _ : String => List ChoiceNode}
    (hinteresting : failures interesting ⊆ values) (persister : Persister) :
    let before := directoryTestCaseDatabase.contents
      (directoryTestCaseDatabase.applyAll ∅ earlier)
    let after := directoryTestCaseDatabase.contents
      (reconcileDatabase directoryTestCaseDatabase
        (directoryTestCaseDatabase.applyAll ∅ earlier) false key interesting
        persister)
    let displaced := before key \ failures interesting
    after key = failures interesting ∧
      after (secondaryKey key) = leastOf shortlex secondaryCorpusCap
        (before (secondaryKey key) ∪
          {old | old ∈ displaced ∧ (old ∈ persister.preexisting ∨
            old ∉ persister.savedThisRun)}) ∧
      ∀ key' ∈ keys, key' ≠ key → key' ≠ secondaryKey key →
        after key' = before key' := by
  intro before after displaced
  have hstart := (represents_empty keys values).applyAll hcollisions hearlier
  obtain ⟨stored', hend, hprimary, hcut, hothers⟩ :=
    hstart.reconcile hcollisions hkey hsecondary hinteresting persister
  have hbefore : ∀ key' ∈ keys, before key' = _ :=
    fun key' hkey' => hstart.contents hcollisions hkey'
  have hafter : ∀ key' ∈ keys, after key' = _ :=
    fun key' hkey' => hend.contents hcollisions hkey'
  refine ⟨?_, ?_, ?_⟩
  · rw [hafter key hkey, hprimary]
  · rw [hafter _ hsecondary, hcut, hbefore _ hsecondary]
    simp only [displaced]
    rw [hbefore key hkey]
  · intro key' hkey' hneKey hneSecondary
    rw [hafter key' hkey', hothers key' hneKey hneSecondary, hbefore key' hkey']

end Spec

/-- Of two displaced entries the one that was only saved in the run is gone and
the other is under the secondary key. -/
theorem reconcileDatabase_contents_sample :
    let _digits := UBigBytes.digits
    let interesting : AList fun _ : String => List ChoiceNode :=
      .singleton "failure" [.mk (.boolean ⟨.zero⟩ false) false]
    let ended := reconcileDatabase directoryTestCaseDatabase
      (directoryTestCaseDatabase.applyAll ∅
        [.save [97] [7], .save [97] [8]]) false [97] interesting
      ⟨∅, [[8]], [[7]]⟩
    directoryTestCaseDatabase.contents ended [97] = failures interesting ∧
      directoryTestCaseDatabase.fetch ended (secondaryKey [97]) = [[7]] := by
  intro _digits interesting ended
  have hcollisions := @noCollisions_of_nodup [[97], secondaryKey [97]]
    [[7], [8], [1, 0, 0, 0, 1, 0]]
    (by decide +kernel) (by decide +kernel) (by decide +kernel)
  have hfailures : failures interesting ⊆
      {value | value ∈ [[7], [8], [1, 0, 0, 0, 1, 0]]} := by
    rintro bytes hbytes
    have hnew : newEntries interesting = [[1, 0, 0, 0, 1, 0]] := by
      decide +kernel
    rw [← mem_newEntries, hnew, List.mem_singleton] at hbytes
    subst hbytes
    simp
  constructor
  · exact (reconcileDatabase_contents hcollisions (by simp) (by simp)
      (by simp [DatabaseOp.Within]) hfailures ⟨∅, [[8]], [[7]]⟩).1
  · decide +kernel

end Hegel
