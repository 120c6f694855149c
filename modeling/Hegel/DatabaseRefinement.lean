/-
The directories of the database represent a map from keys to sets of values.
Every operation keeps this, with the list of keys under the metakeys key
always that of the keys that have values.
-/
import Hegel.DirectoryDatabase

namespace Hegel

/-- The values under every key, with those of the metakeys key: the keys in
use that have values. -/
def withMetakeys (keys : Set Bytes) (stored : Multimap Bytes Bytes) :
    Multimap Bytes Bytes :=
  fun key =>
    {value | (key = metakeysName ∧ value ∈ keys ∧ (stored value).Nonempty) ∨
      (key ≠ metakeysName ∧ value ∈ stored key)}

/-- The directories hold the values under every key in use and the list of the
keys that have values, and there are no empty directories. -/
def Represents (keys values : Set Bytes) (fs : DatabaseFiles)
    (stored : Multimap Bytes Bytes) : Prop :=
  Holds keys values fs {key | (withMetakeys keys stored key).Nonempty}
    (withMetakeys keys stored)

section Metakeys

variable {keys : Set Bytes} {stored : Multimap Bytes Bytes} {key value : Bytes}

theorem withMetakeys_user (hkey : key ≠ metakeysName) :
    withMetakeys keys stored key = stored key := by
  ext value
  simp [withMetakeys, hkey]

theorem mem_metakeys : value ∈ withMetakeys keys stored metakeysName ↔
    value ∈ keys ∧ (stored value).Nonempty := by
  simp [withMetakeys]

end Metakeys

section Operations

variable {keys values : Set Bytes} {fs : DatabaseFiles}
  {stored : Multimap Bytes Bytes} {key value : Bytes}

theorem NoCollisions.ne_metakeys (hcollisions : NoCollisions keys values)
    (hkey : key ∈ keys) : key ≠ metakeysName := by
  rintro rfl
  exact hcollisions.user hkey

theorem NoCollisions.keyHash_ne (hcollisions : NoCollisions keys values)
    (hkey : key ∈ keys) : keyHash key ≠ keyHash metakeysName := by
  intro hhash
  exact hcollisions.ne_metakeys hkey (hcollisions.directories
    (Set.mem_insert_of_mem _ hkey) (Set.mem_insert _ _) hhash)

/-- What has to be shown of a changed store, for the metakeys key and for the
keys in use. -/
theorem Holds.represents {present : Set Bytes} {entries : Multimap Bytes Bytes}
    {stored' : Multimap Bytes Bytes} (hcollisions : NoCollisions keys values)
    (hholds : Holds keys values fs present entries)
    (hlisted : ∀ key', key' ∈ entries metakeysName ↔
      key' ∈ keys ∧ (stored' key').Nonempty)
    (hmeta : metakeysName ∈ present ↔ (entries metakeysName).Nonempty)
    (hentries : ∀ key' ∈ keys, entries key' = stored' key')
    (hpresent : ∀ key' ∈ keys, key' ∈ present ↔ (entries key').Nonempty) :
    Represents keys values fs stored' := by
  have hentriesAll : ∀ key' ∈ insert metakeysName keys,
      entries key' = withMetakeys keys stored' key' := by
    rintro key' (rfl | hkey')
    · ext other
      rw [hlisted, mem_metakeys]
    · rw [withMetakeys_user (hcollisions.ne_metakeys hkey'),
        hentries key' hkey']
  refine hholds.congr ?_ hentriesAll
  intro key' hkey'
  rw [Set.mem_ofPred_eq, ← hentriesAll key' hkey']
  rcases hkey' with rfl | hkey'
  · exact hmeta
  · exact hpresent key' hkey'

theorem Represents.mem_iff (hcollisions : NoCollisions keys values)
    (hrepresents : Represents keys values fs stored) (hkey : key ∈ keys) :
    keyHash key ∈ fs ↔ (stored key).Nonempty := by
  rw [hrepresents.present key (Set.mem_insert_of_mem _ hkey),
    Set.mem_ofPred_eq, withMetakeys_user (hcollisions.ne_metakeys hkey)]

/-- Reading a key returns its values, each once. -/
theorem Represents.fetch (hrepresents : Represents keys values fs stored)
    (hkey : key ∈ insert metakeysName keys) :
    (DirectoryTestCaseDatabase.fetch fs key).Nodup ∧
      ∀ value, value ∈ DirectoryTestCaseDatabase.fetch fs key ↔
        value ∈ withMetakeys keys stored key := by
  rw [DirectoryTestCaseDatabase.fetch]
  by_cases hdir : keyHash key ∈ fs
  · obtain ⟨names, hnames⟩ := FileSystem.readDir_of_mem hdir
    rw [hnames]
    constructor
    · apply (FileSystem.nodup_readDir hnames).filterMap
      intro name name' value hvalue hvalue'
      rw [((hrepresents.file key hkey name value).mp hvalue).2,
        ((hrepresents.file key hkey name' value).mp hvalue').2]
    · intro value
      rw [List.mem_filterMap]
      constructor
      · rintro ⟨name, -, hvalue⟩
        exact ((hrepresents.file key hkey name value).mp hvalue).1
      · intro hvalue
        have hfile := (hrepresents.file key hkey _ value).mpr ⟨hvalue, rfl⟩
        exact ⟨fnvHex value, (FileSystem.mem_readDir hnames).mpr
          (Option.isSome_of_eq_some hfile), hfile⟩
  · rw [FileSystem.readDir_of_absent hdir]
    refine ⟨List.nodup_nil, fun value => ?_⟩
    rw [hrepresents.present key hkey, Set.mem_ofPred_eq,
      Set.not_nonempty_iff_eq_empty] at hdir
    rw [hdir]
    simp

theorem Represents.save (hcollisions : NoCollisions keys values)
    (hrepresents : Represents keys values fs stored) (hkey : key ∈ keys)
    (hvalue : value ∈ values) :
    Represents keys values (DirectoryTestCaseDatabase.save fs key value)
      (stored.insert key value) := by
  have hne := hcollisions.ne_metakeys hkey
  have hholdable : Holdable keys values key value := .inr ⟨hkey, hvalue⟩
  rw [DirectoryTestCaseDatabase.save]
  by_cases hpresent : keyHash key ∈ fs
  · -- the key has values and is listed already
    rw [if_neg fun h => h.2 hpresent]
    have hnonempty := (hrepresents.mem_iff hcollisions hkey).mp hpresent
    apply (hrepresents.saveEntry hcollisions hholdable).represents hcollisions
    · intro key'
      rw [Multimap.insert_ne hne.symm, mem_metakeys, Multimap.nonempty_insert]
      constructor
      · rintro ⟨hkey', hold⟩
        exact ⟨hkey', .inr hold⟩
      · rintro ⟨hkey', rfl | hold⟩
        · exact ⟨hkey', hnonempty⟩
        · exact ⟨hkey', hold⟩
    · rw [Multimap.insert_ne hne.symm, Set.mem_insert_iff,
        or_iff_right hne.symm]
      exact Iff.rfl
    · intro key' hkey'
      ext other
      rw [Multimap.mem_insert, Multimap.mem_insert,
        withMetakeys_user (hcollisions.ne_metakeys hkey')]
    · intro key' hkey'
      rw [Multimap.nonempty_insert]
      exact Iff.rfl
  · rw [if_pos ⟨hcollisions.keyHash_ne hkey, hpresent⟩]
    have hlist : Holdable keys values metakeysName key := .inl ⟨rfl, hkey⟩
    apply ((hrepresents.saveEntry hcollisions hlist).saveEntry hcollisions
      hholdable).represents hcollisions
    · intro key'
      rw [Multimap.insert_ne hne.symm, Multimap.mem_insert, mem_metakeys,
        Multimap.nonempty_insert]
      constructor
      · rintro (⟨-, rfl⟩ | ⟨hkey', hold⟩)
        · exact ⟨hkey, .inl rfl⟩
        · exact ⟨hkey', .inr hold⟩
      · rintro ⟨hkey', rfl | hold⟩
        · exact .inl ⟨rfl, rfl⟩
        · exact .inr ⟨hkey', hold⟩
    · rw [Multimap.insert_ne hne.symm, Multimap.nonempty_insert]
      simp
    · intro key' hkey'
      have hne' := hcollisions.ne_metakeys hkey'
      ext other
      simp [hne', withMetakeys_user hne']
    · intro key' hkey'
      have hne' := hcollisions.ne_metakeys hkey'
      rw [Multimap.nonempty_insert, Multimap.nonempty_insert]
      simp [hne']

theorem erase_withMetakeys (hkey : key ≠ metakeysName) :
    (withMetakeys keys stored).erase key value key =
      stored.erase key value key := by
  ext other
  simp [withMetakeys_user hkey]

theorem Represents.delete (hcollisions : NoCollisions keys values)
    (hrepresents : Represents keys values fs stored) (hkey : key ∈ keys)
    (hvalue : value ∈ values) :
    Represents keys values (DirectoryTestCaseDatabase.delete fs key value)
      (stored.erase key value) := by
  have hne := hcollisions.ne_metakeys hkey
  obtain ⟨hemptied, hdeleted⟩ :=
    Holds.deleteEntry hcollisions hrepresents Iff.rfl (.inr ⟨hkey, hvalue⟩)
  rw [erase_withMetakeys hne] at hemptied hdeleted
  have hmetaEntries : (withMetakeys keys stored).erase key value metakeysName =
      withMetakeys keys stored metakeysName := Multimap.erase_ne hne.symm
  have hentries : ∀ key' ∈ keys, (withMetakeys keys stored).erase key value key' =
      stored.erase key value key' := by
    intro key' hkey'
    ext other
    simp [withMetakeys_user (hcollisions.ne_metakeys hkey')]
  have hsubset : ∀ key', (stored.erase key value key').Nonempty →
      (stored key').Nonempty := fun key' ⟨other, hother⟩ => ⟨other, hother.1⟩
  -- the directories that are left are those of the keys with values
  have hpresent : ∀ key' ∈ keys,
      (withMetakeys keys stored key').Nonempty ∧
          (key' = key → (stored.erase key value key).Nonempty) ↔
        (stored.erase key value key').Nonempty := by
    intro key' hkey'
    rw [withMetakeys_user (hcollisions.ne_metakeys hkey')]
    by_cases hsame : key' = key
    · subst hsame
      exact ⟨fun h => h.2 rfl, fun h => ⟨hsubset _ h, fun _ => h⟩⟩
    · rw [Multimap.erase_ne hsame]
      exact ⟨And.left, fun h => ⟨h, fun heq => absurd heq hsame⟩⟩
  rw [DirectoryTestCaseDatabase.delete]
  cases hflag : (DirectoryTestCaseDatabase.deleteEntry fs key value).2 with
  | false =>
      have hkept : value ∈ withMetakeys keys stored key →
          (stored.erase key value key).Nonempty := by
        intro hmem
        by_contra hempty
        rw [hemptied.mpr ⟨hmem, hempty⟩] at hflag
        cases hflag
      have hsame : ∀ key', (stored key').Nonempty ↔
          (stored.erase key value key').Nonempty := by
        intro key'
        refine ⟨fun hold => ?_, hsubset key'⟩
        by_cases heq : key' = key
        · subst heq
          by_cases hmem : value ∈ stored key'
          · exact hkept (by rwa [withMetakeys_user hne])
          · rwa [Multimap.erase_of_notMem hmem]
        · rwa [Multimap.erase_ne heq]
      simp only [hflag, Bool.false_eq_true, false_and, if_false]
      apply hdeleted.represents hcollisions
      · intro key'
        rw [hmetaEntries, mem_metakeys, hsame key']
      · rw [hmetaEntries]
        simp [hne.symm]
      · exact hentries
      · intro key' hkey'
        rw [hentries key' hkey']
        exact hpresent key' hkey'
  | true =>
      obtain ⟨hmem, hempty⟩ := hemptied.mp hflag
      simp only [hflag, true_and]
      rw [if_pos (hcollisions.keyHash_ne hkey)]
      have hthere : metakeysName ∈ {key' |
          key' ∈ {key' | (withMetakeys keys stored key').Nonempty} ∧
            (key' = key → (stored.erase key value key).Nonempty)} ↔
          ((withMetakeys keys stored).erase key value metakeysName).Nonempty := by
        rw [hmetaEntries]
        simp [hne.symm]
      obtain ⟨-, hunlisted⟩ :=
        hdeleted.deleteEntry hcollisions hthere (.inl ⟨rfl, hkey⟩)
      apply hunlisted.represents hcollisions
      · intro key'
        rw [Multimap.mem_erase, hmetaEntries, mem_metakeys, and_assoc]
        apply and_congr_right
        intro hkey'
        by_cases hsame : key' = key
        · subst hsame
          simp [hempty]
        · rw [Multimap.erase_ne hsame]
          simp [hsame]
      · rw [Set.mem_ofPred_eq, hthere]
        constructor
        · exact fun h => h.2 rfl
        · exact fun ⟨other, hother⟩ => ⟨⟨other, hother.1⟩, fun _ => ⟨other, hother⟩⟩
      · intro key' hkey'
        rw [Multimap.erase_ne (hcollisions.ne_metakeys hkey')]
        exact hentries key' hkey'
      · intro key' hkey'
        have hne' := hcollisions.ne_metakeys hkey'
        rw [Multimap.erase_ne hne', hentries key' hkey', ← hpresent key' hkey']
        simp [hne']

theorem save_metakeys (fs : DatabaseFiles) (key : Bytes) :
    DirectoryTestCaseDatabase.save fs metakeysName key =
      DirectoryTestCaseDatabase.saveEntry fs metakeysName key := by
  rw [DirectoryTestCaseDatabase.save, if_neg fun h => h.1 rfl]

theorem delete_metakeys (fs : DatabaseFiles) (key : Bytes) :
    DirectoryTestCaseDatabase.delete fs metakeysName key =
      (DirectoryTestCaseDatabase.deleteEntry fs metakeysName key).1 := by
  rw [DirectoryTestCaseDatabase.delete]
  simp

/-- The target of a move is listed and has a directory before the value comes
to it. -/
structure Awaits (keys values : Set Bytes) (fs : DatabaseFiles)
    (stored : Multimap Bytes Bytes) (target : Bytes) (present : Set Bytes)
    (entries : Multimap Bytes Bytes) : Prop where
  holds : Holds keys values fs present entries
  listed : ∀ key, key ∈ entries metakeysName ↔
    key ∈ keys ∧ (key = target ∨ (stored key).Nonempty)
  entries : ∀ key ∈ keys, entries key = stored key
  metakeys : metakeysName ∈ present
  present : ∀ key ∈ keys,
    key ∈ present ↔ key = target ∨ (stored key).Nonempty

theorem Represents.awaits (hcollisions : NoCollisions keys values)
    (hrepresents : Represents keys values fs stored) {target : Bytes}
    (htarget : target ∈ keys) :
    ∃ present entries, Awaits keys values
      ((if keyHash target ∈ fs then fs
        else DirectoryTestCaseDatabase.save fs metakeysName
          target).createDirAll (keyHash target)) stored target present
      entries := by
  have hne := hcollisions.ne_metakeys htarget
  have hmem : target ∈ insert metakeysName keys :=
    Set.mem_insert_of_mem _ htarget
  by_cases hpresent : keyHash target ∈ fs
  · rw [if_pos hpresent]
    have hnonempty := (hrepresents.mem_iff hcollisions htarget).mp hpresent
    refine ⟨_, _, hrepresents.createDirAll hcollisions hmem, ?_, ?_, ?_, ?_⟩
    · intro key
      rw [mem_metakeys]
      apply and_congr_right
      intro _
      constructor
      · exact Or.inr
      · rintro (rfl | hold)
        · exact hnonempty
        · exact hold
    · exact fun key hkey => withMetakeys_user (hcollisions.ne_metakeys hkey)
    · right
      exact ⟨target, mem_metakeys.mpr ⟨htarget, hnonempty⟩⟩
    · intro key hkey
      rw [Set.mem_insert_iff, Set.mem_ofPred_eq,
        withMetakeys_user (hcollisions.ne_metakeys hkey)]
  · rw [if_neg hpresent, save_metakeys]
    have hlisted := hrepresents.saveEntry hcollisions
      (.inl ⟨rfl, htarget⟩ : Holdable keys values metakeysName target)
    refine ⟨_, _, hlisted.createDirAll hcollisions hmem, ?_, ?_, ?_, ?_⟩
    · intro key
      rw [Multimap.mem_insert, mem_metakeys]
      constructor
      · rintro (⟨-, rfl⟩ | ⟨hkey, hold⟩)
        · exact ⟨htarget, .inl rfl⟩
        · exact ⟨hkey, .inr hold⟩
      · rintro ⟨hkey, rfl | hold⟩
        · exact .inl ⟨rfl, rfl⟩
        · exact .inr ⟨hkey, hold⟩
    · intro key hkey
      have hkeyNe := hcollisions.ne_metakeys hkey
      rw [Multimap.insert_ne hkeyNe, withMetakeys_user hkeyNe]
    · exact .inr (Set.mem_insert _ _)
    · intro key hkey
      have hkeyNe := hcollisions.ne_metakeys hkey
      rw [Set.mem_insert_iff, Set.mem_insert_iff, Set.mem_ofPred_eq,
        withMetakeys_user hkeyNe, or_iff_right hkeyNe]

theorem Represents.moveValue (hcollisions : NoCollisions keys values)
    (hrepresents : Represents keys values fs stored) {source target : Bytes}
    (hsource : source ∈ keys) (htarget : target ∈ keys)
    (hvalue : value ∈ values) :
    Represents keys values
      (DirectoryTestCaseDatabase.moveValue fs source target value)
      (stored.move source target value) := by
  rw [DirectoryTestCaseDatabase.moveValue]
  by_cases hself : source = target
  · subst hself
    rw [if_pos rfl, Multimap.move_self]
    exact hrepresents.save hcollisions hsource hvalue
  rw [if_neg hself]
  dsimp only
  obtain ⟨present, entries, hawaits⟩ :=
    hrepresents.awaits hcollisions htarget
  generalize (if keyHash target ∈ fs then fs
    else DirectoryTestCaseDatabase.save fs metakeysName
      target).createDirAll (keyHash target) = opened at hawaits ⊢
  have hholdable : Holdable keys values source value := .inr ⟨hsource, hvalue⟩
  have hreceives : Holdable keys values target value := .inr ⟨htarget, hvalue⟩
  by_cases hmem : value ∈ entries source
  · have hfound : value ∈ stored source := by
      rwa [hawaits.entries source hsource] at hmem
    obtain ⟨renamed, hrenamed, hmoved⟩ := hawaits.holds.rename hcollisions
      hholdable htarget hvalue hmem
      ((hawaits.present target htarget).mpr (.inl rfl))
    simp only [hrenamed]
    have hentries : ∀ key' ∈ keys, entries.move source target value key' =
        stored.move source target value key' := by
      intro key' hkey'
      ext other
      rw [Multimap.mem_move, Multimap.mem_move, hawaits.entries key' hkey']
    have hmeta : entries.move source target value metakeysName =
        entries metakeysName := by
      rw [Multimap.move,
        Multimap.insert_ne (hcollisions.ne_metakeys htarget).symm,
        Multimap.erase_ne (hcollisions.ne_metakeys hsource).symm]
    -- every key but the source is as full as it was, or the target
    have hothers : ∀ key', key' ≠ source →
        ((stored.move source target value key').Nonempty ↔
          key' = target ∨ (stored key').Nonempty) := by
      intro key' hne
      rw [Multimap.move, Multimap.nonempty_insert, Multimap.erase_ne hne]
    by_cases hrest : (entries.move source target value source).Nonempty
    · rw [hmoved.removeDir_occupied hholdable.mem hrest]
      have hfull : ∀ key' ∈ keys,
          (stored.move source target value key').Nonempty ↔
            key' = target ∨ (stored key').Nonempty := by
        intro key' hkey'
        by_cases hne : key' = source
        · subst hne
          rw [hentries key' hkey'] at hrest
          exact iff_of_true hrest (.inr ⟨value, hfound⟩)
        · exact hothers key' hne
      apply hmoved.represents hcollisions
      · intro key'
        rw [hmeta, hawaits.listed]
        exact and_congr_right fun hkey' => (hfull key' hkey').symm
      · rw [hmeta]
        exact iff_of_true hawaits.metakeys
          ⟨target, (hawaits.listed target).mpr ⟨htarget, .inl rfl⟩⟩
      · exact hentries
      · intro key' hkey'
        rw [hawaits.present key' hkey', hentries key' hkey', hfull key' hkey']
    · obtain ⟨emptied, hemptied, hemptiedHolds⟩ := hmoved.removeDir hcollisions
        hholdable.mem ((hawaits.present source hsource).mpr
          (.inr ⟨value, hfound⟩)) hrest
      simp only [hemptied]
      rw [if_pos (hcollisions.keyHash_ne hsource), delete_metakeys]
      have hsourceNe := hcollisions.ne_metakeys hsource
      have hlistedTarget : target ∈ entries metakeysName :=
        (hawaits.listed target).mpr ⟨htarget, .inl rfl⟩
      have hthere : metakeysName ∈ {key' | key' ∈ present ∧ key' ≠ source} ↔
          (entries.move source target value metakeysName).Nonempty := by
        rw [hmeta]
        exact iff_of_true ⟨hawaits.metakeys, hsourceNe.symm⟩
          ⟨target, hlistedTarget⟩
      obtain ⟨-, hunlisted⟩ :=
        hemptiedHolds.deleteEntry hcollisions hthere (.inl ⟨rfl, hsource⟩)
      have hrest' : ¬ (stored.move source target value source).Nonempty := by
        rwa [hentries source hsource] at hrest
      have htargetLeft : target ∈
          (entries.move source target value).erase metakeysName source
            metakeysName := by
        rw [Multimap.mem_erase, hmeta]
        exact ⟨hlistedTarget, fun h => hself h.2.symm⟩
      apply hunlisted.represents hcollisions
      · intro key'
        rw [Multimap.mem_erase, hmeta, hawaits.listed, and_assoc]
        apply and_congr_right
        intro hkey'
        by_cases hne : key' = source
        · subst hne
          simp [hrest']
        · rw [hothers key' hne]
          simp [hne]
      · exact iff_of_true
          ⟨⟨hawaits.metakeys, hsourceNe.symm⟩, fun _ => ⟨target, htargetLeft⟩⟩
          ⟨target, htargetLeft⟩
      · intro key' hkey'
        rw [Multimap.erase_ne (hcollisions.ne_metakeys hkey')]
        exact hentries key' hkey'
      · intro key' hkey'
        have hne' := hcollisions.ne_metakeys hkey'
        rw [Multimap.erase_ne hne', hentries key' hkey']
        by_cases hne : key' = source
        · subst hne
          simp [hrest']
        · rw [hothers key' hne, ← hawaits.present key' hkey']
          simp [hne, hne']
  · have hlost : value ∉ stored source := by
      rwa [hawaits.entries source hsource] at hmem
    have habsent := hawaits.holds.removeFile_absent hcollisions hholdable hmem
    rw [FileSystem.rename_absent habsent]
    dsimp only
    have hdeleted :
        DirectoryTestCaseDatabase.delete opened source value = opened := by
      rw [DirectoryTestCaseDatabase.delete,
        DirectoryTestCaseDatabase.deleteEntry,
        FileSystem.removeFile_absent habsent]
      simp
    have hopened : keyHash target ∈ opened :=
      (hawaits.holds.present target hreceives.mem).mpr
        ((hawaits.present target htarget).mpr (.inl rfl))
    have htargetNe := hcollisions.ne_metakeys htarget
    rw [hdeleted, DirectoryTestCaseDatabase.save, if_neg fun h => h.2 hopened,
      Multimap.move, Multimap.erase_of_notMem hlost]
    apply (hawaits.holds.saveEntry hcollisions hreceives).represents hcollisions
    · intro key'
      rw [Multimap.insert_ne htargetNe.symm, hawaits.listed,
        Multimap.nonempty_insert]
    · rw [Multimap.insert_ne htargetNe.symm]
      exact iff_of_true (.inr hawaits.metakeys)
        ⟨target, (hawaits.listed target).mpr ⟨htarget, .inl rfl⟩⟩
    · intro key' hkey'
      ext other
      rw [Multimap.mem_insert, Multimap.mem_insert, hawaits.entries key' hkey']
    · intro key' hkey'
      rw [Set.mem_insert_iff, hawaits.present key' hkey',
        Multimap.nonempty_insert, hawaits.entries key' hkey']
      simp

end Operations

/-- An operation of a database; reading changes nothing. -/
inductive DatabaseOp where
  | fetch (key : Bytes)
  | save (key value : Bytes)
  | delete (key value : Bytes)
  | moveValue (source target value : Bytes)
deriving DecidableEq

namespace DatabaseOp

/-- The operation only concerns keys and values in use. -/
def Within (keys values : Set Bytes) : DatabaseOp → Prop
  | fetch key => key ∈ keys
  | save key value => key ∈ keys ∧ value ∈ values
  | delete key value => key ∈ keys ∧ value ∈ values
  | moveValue source target value =>
      source ∈ keys ∧ target ∈ keys ∧ value ∈ values

/-- What the operation means for the values under each key. -/
def meaning (stored : Multimap Bytes Bytes) :
    DatabaseOp → Multimap Bytes Bytes
  | fetch _ => stored
  | save key value => stored.insert key value
  | delete key value => stored.erase key value
  | moveValue source target value => stored.move source target value

/-- The values under each key after some operations. -/
def meanings (stored : Multimap Bytes Bytes) (ops : List DatabaseOp) :
    Multimap Bytes Bytes :=
  ops.foldl meaning stored

end DatabaseOp

def TestCaseDatabase.apply {Store : Type} (database : TestCaseDatabase Store)
    (store : Store) : DatabaseOp → Store
  | .fetch _ => store
  | .save key value => database.save store key value
  | .delete key value => database.delete store key value
  | .moveValue source target value =>
      database.moveValue store source target value

def TestCaseDatabase.applyAll {Store : Type}
    (database : TestCaseDatabase Store) (store : Store)
    (ops : List DatabaseOp) : Store :=
  ops.foldl database.apply store

/-- What reading every key returns. -/
def TestCaseDatabase.contents {Store : Type}
    (database : TestCaseDatabase Store) (store : Store) :
    Multimap Bytes Bytes :=
  fun key => {value | value ∈ database.fetch store key}

theorem TestCaseDatabase.applyAll_append {Store : Type}
    (database : TestCaseDatabase Store) (store : Store)
    (first second : List DatabaseOp) :
    database.applyAll store (first ++ second) =
      database.applyAll (database.applyAll store first) second :=
  List.foldl_append

section Runs

variable {keys values : Set Bytes} {fs : DatabaseFiles}
  {stored : Multimap Bytes Bytes}

theorem represents_empty (keys values : Set Bytes) :
    Represents keys values ∅ .empty := by
  have hempty : ∀ key, ¬ (withMetakeys keys .empty key).Nonempty := by
    rintro key ⟨value, ⟨-, -, other, hother⟩ | ⟨-, hvalue⟩⟩
    · exact hother
    · exact hvalue
  constructor
  · intro key _
    exact iff_of_false (AList.notMem_empty _) (hempty key)
  · intro key _ name value
    rw [FileSystem.file_of_absent (AList.notMem_empty _)]
    constructor
    · intro heq
      cases heq
    · rintro ⟨hvalue, -⟩
      exact absurd ⟨value, hvalue⟩ (hempty key)
  · exact fun key hkey => absurd ⟨key, hkey⟩ (hempty _)
  · exact fun key _ value hvalue => absurd ⟨value, hvalue⟩ (hempty key)

/-- Reading a key in use returns what is stored under it, each value once. -/
theorem Represents.fetch_user (hcollisions : NoCollisions keys values)
    (hrepresents : Represents keys values fs stored) {key : Bytes}
    (hkey : key ∈ keys) :
    (directoryTestCaseDatabase.fetch fs key).Nodup ∧
      ∀ value, value ∈ directoryTestCaseDatabase.fetch fs key ↔
        value ∈ stored key := by
  have hfetch := hrepresents.fetch (Set.mem_insert_of_mem _ hkey)
  rwa [withMetakeys_user (hcollisions.ne_metakeys hkey)] at hfetch

theorem Represents.subset (hcollisions : NoCollisions keys values)
    (hrepresents : Represents keys values fs stored) {key : Bytes}
    (hkey : key ∈ keys) : stored key ⊆ values := by
  have hwithin := hrepresents.within key hkey
  rwa [withMetakeys_user (hcollisions.ne_metakeys hkey)] at hwithin

theorem Represents.contents (hcollisions : NoCollisions keys values)
    (hrepresents : Represents keys values fs stored) {key : Bytes}
    (hkey : key ∈ keys) :
    directoryTestCaseDatabase.contents fs key = stored key :=
  Set.ext (hrepresents.fetch_user hcollisions hkey).2

/-- One operation keeps the representation. -/
theorem Represents.apply (hcollisions : NoCollisions keys values)
    (hrepresents : Represents keys values fs stored) {op : DatabaseOp}
    (hwithin : op.Within keys values) :
    Represents keys values (directoryTestCaseDatabase.apply fs op)
      (op.meaning stored) := by
  cases op with
  | fetch key => exact hrepresents
  | save key value =>
      exact hrepresents.save hcollisions hwithin.1 hwithin.2
  | delete key value =>
      exact hrepresents.delete hcollisions hwithin.1 hwithin.2
  | moveValue source target value =>
      exact hrepresents.moveValue hcollisions hwithin.1 hwithin.2.1 hwithin.2.2

theorem Represents.applyAll (hcollisions : NoCollisions keys values)
    (hrepresents : Represents keys values fs stored) {ops : List DatabaseOp}
    (hwithin : ∀ op ∈ ops, op.Within keys values) :
    Represents keys values (directoryTestCaseDatabase.applyAll fs ops)
      (DatabaseOp.meanings stored ops) := by
  induction ops generalizing fs stored with
  | nil => exact hrepresents
  | cons op rest ih =>
      apply ih (hrepresents.apply hcollisions (hwithin op List.mem_cons_self))
      exact fun op hop => hwithin op (List.mem_cons_of_mem _ hop)

/-- Keys that are not in use stay empty. -/
theorem meanings_unused {ops : List DatabaseOp}
    (hstored : ∀ key, (stored key).Nonempty → key ∈ keys)
    (hwithin : ∀ op ∈ ops, op.Within keys values) {key : Bytes}
    (hnonempty : (DatabaseOp.meanings stored ops key).Nonempty) :
    key ∈ keys := by
  induction ops generalizing stored with
  | nil => exact hstored key hnonempty
  | cons op rest ih =>
      refine ih ?_ (fun op hop => hwithin op (List.mem_cons_of_mem _ hop))
        hnonempty
      have hop := hwithin op List.mem_cons_self
      rintro key' ⟨value', hvalue'⟩
      cases op with
      | fetch key => exact hstored key' ⟨value', hvalue'⟩
      | save key value =>
          rcases hvalue' with ⟨rfl, -⟩ | hold
          · exact hop.1
          · exact hstored key' ⟨value', hold⟩
      | delete key value => exact hstored key' ⟨value', hvalue'.1⟩
      | moveValue source target value =>
          rcases hvalue' with ⟨rfl, -⟩ | ⟨hold, -⟩
          · exact hop.2.1
          · exact hstored key' ⟨value', hold⟩

end Runs

/-- After any operations on an empty database, reading a key returns exactly
its values, and the metakeys key lists exactly the keys that have values. -/
theorem directoryDatabase_refines {keys values : Set Bytes}
    (hcollisions : NoCollisions keys values) {ops : List DatabaseOp}
    (hwithin : ∀ op ∈ ops, op.Within keys values) :
    (∀ key ∈ keys,
      (directoryTestCaseDatabase.fetch
        (directoryTestCaseDatabase.applyAll ∅ ops) key).Nodup ∧
      ∀ value, value ∈ directoryTestCaseDatabase.fetch
          (directoryTestCaseDatabase.applyAll ∅ ops) key ↔
        value ∈ DatabaseOp.meanings .empty ops key) ∧
    (directoryTestCaseDatabase.fetch
      (directoryTestCaseDatabase.applyAll ∅ ops) metakeysName).Nodup ∧
    ∀ key, key ∈ directoryTestCaseDatabase.fetch
        (directoryTestCaseDatabase.applyAll ∅ ops) metakeysName ↔
      (DatabaseOp.meanings .empty ops key).Nonempty := by
  have hrepresents :=
    (represents_empty keys values).applyAll hcollisions hwithin
  refine ⟨fun key hkey => ?_, ?_, fun key => ?_⟩
  · exact hrepresents.fetch_user hcollisions hkey
  · exact (hrepresents.fetch (Set.mem_insert _ _)).1
  · have hlisted := (hrepresents.fetch (Set.mem_insert _ _)).2 key
    refine hlisted.trans (mem_metakeys.trans ?_)
    refine and_iff_right_of_imp fun hnonempty => ?_
    exact meanings_unused (fun key h => absurd h.choose_spec (by simp [Multimap.empty]))
      hwithin hnonempty

/-- Finitely many keys and values do not collide if their names differ. -/
theorem noCollisions_of_nodup {keys values : List Bytes}
    (hdirectories : ((metakeysName :: keys).map keyHash).Nodup)
    (hlisted : (keys.map fnvHex).Nodup) (hfiles : (values.map fnvHex).Nodup) :
    NoCollisions {key | key ∈ keys} {value | value ∈ values} where
  directories := by
    intro key hkey key' hkey' hhash
    apply List.inj_on_of_nodup_map hdirectories _ _ hhash
    · exact List.mem_cons.mpr hkey
    · exact List.mem_cons.mpr hkey'
  listed key hkey key' hkey' hname :=
    List.inj_on_of_nodup_map hlisted hkey hkey' hname
  files value hvalue value' hvalue' hname :=
    List.inj_on_of_nodup_map hfiles hvalue hvalue' hname
  user hmem := by
    rw [List.map_cons, List.nodup_cons] at hdirectories
    exact hdirectories.1 (List.mem_map_of_mem hmem)

/-- Two values are saved, one is moved to another key and the other deleted:
only the other key is left. -/
theorem directoryDatabase_refines_sample :
    directoryTestCaseDatabase.fetch
        (directoryTestCaseDatabase.applyAll ∅
          [.save [97] [1], .save [97] [2], .moveValue [97] [98] [1],
            .delete [97] [2]]) [98] = [[1]] ∧
      ∀ key, key ∈ directoryTestCaseDatabase.fetch
          (directoryTestCaseDatabase.applyAll ∅
            [.save [97] [1], .save [97] [2], .moveValue [97] [98] [1],
              .delete [97] [2]]) metakeysName ↔
        (DatabaseOp.meanings .empty
          [.save [97] [1], .save [97] [2], .moveValue [97] [98] [1],
            .delete [97] [2]] key).Nonempty := by
  have hcollisions := @noCollisions_of_nodup [[97], [98]] [[1], [2]]
    (by decide +kernel) (by decide +kernel) (by decide +kernel)
  refine ⟨by decide +kernel, ?_⟩
  refine (directoryDatabase_refines hcollisions ?_).2.2
  simp [DatabaseOp.Within]

end Hegel
