/-
The example database.  Every key is a directory and every value a file of it,
both named by a hash; a directory is there exactly while its key has values,
and one further key lists the others.
-/
import Hegel.Lib.FileSystem
import Hegel.Lib.Multimap
import Mathlib.Algebra.Ring.Nat
import Mathlib.Data.Set.Function

namespace Hegel

abbrev Bytes := List UInt8

/-- A store of several values under each key. -/
structure TestCaseDatabase (Store : Type) where
  fetch : Store → Bytes → List Bytes
  save : Store → Bytes → Bytes → Store
  delete : Store → Bytes → Bytes → Store
  moveValue : Store → Bytes → Bytes → Bytes → Store

/-- The 64-bit FNV-1a hash. -/
def fnv1a (s : Bytes) : Nat :=
  s.foldl (fun hash byte => (hash ^^^ byte.toNat) * 0x100000001b3 % 2 ^ 64)
    0xcbf29ce484222325

/-- The hash as 16 hexadecimal digits. -/
def fnvHex (s : Bytes) : List Char :=
  (List.range 16).map fun i => Nat.digitChar (fnv1a s / 16 ^ (15 - i) % 16)

/-- The key under which all other keys are saved, `.hegel-keys`. -/
def metakeysName : Bytes :=
  [46, 104, 101, 103, 101, 108, 45, 107, 101, 121, 115]

/-- What stands before every key that is hashed, `native:`. -/
def keyPrefix : Bytes :=
  [110, 97, 116, 105, 118, 101, 58]

def keyHash (key : Bytes) : List Char :=
  fnvHex (keyPrefix ++ key)

/-- The directories below the root of the database. -/
abbrev DatabaseFiles := FileSystem (List Char) Bytes

namespace DirectoryTestCaseDatabase

variable (fs : DatabaseFiles)

def fetch (key : Bytes) : List Bytes :=
  match fs.readDir (keyHash key) with
  | some names => names.filterMap fun name => fs.file (keyHash key) name
  | none => []

/-- Save a value whose key is listed already, or is the metakeys key. -/
def saveEntry (key value : Bytes) : DatabaseFiles :=
  let fs := fs.createDirAll (keyHash key)
  if (fs.file (keyHash key) (fnvHex value)).isSome then fs
  else (fs.write (keyHash key) (fnvHex value) value).getD fs

/-- Saving lists a key that is new; the metakeys key itself is not listed. -/
def save (key value : Bytes) : DatabaseFiles :=
  if keyHash key ≠ keyHash metakeysName ∧ keyHash key ∉ fs then
    saveEntry (saveEntry fs metakeysName key) key value
  else saveEntry fs key value

/-- Delete a value, and its directory if that was the last one; the metakeys
key is left out of the list. -/
def deleteEntry (key value : Bytes) : DatabaseFiles × Bool :=
  match fs.removeFile (keyHash key) (fnvHex value) with
  | none => (fs, false)
  | some fs =>
      match fs.removeDir (keyHash key) with
      | some fs => (fs, true)
      | none => (fs, false)

def delete (key value : Bytes) : DatabaseFiles :=
  let (fs, emptied) := deleteEntry fs key value
  if emptied ∧ keyHash key ≠ keyHash metakeysName then
    (deleteEntry fs metakeysName key).1
  else fs

/-- Move a value by renaming its file. -/
def moveValue (source target value : Bytes) : DatabaseFiles :=
  if source = target then save fs source value
  else
    let fs := if keyHash target ∈ fs then fs else save fs metakeysName target
    let fs := fs.createDirAll (keyHash target)
    match fs.rename (keyHash source) (fnvHex value) (keyHash target)
        (fnvHex value) with
    | none => save (delete fs source value) target value
    | some fs =>
        match fs.removeDir (keyHash source) with
        | none => fs
        | some fs =>
            if keyHash source ≠ keyHash metakeysName then
              delete fs metakeysName source
            else fs

end DirectoryTestCaseDatabase

def directoryTestCaseDatabase : TestCaseDatabase DatabaseFiles where
  fetch := DirectoryTestCaseDatabase.fetch
  save := DirectoryTestCaseDatabase.save
  delete := DirectoryTestCaseDatabase.delete
  moveValue := DirectoryTestCaseDatabase.moveValue

/-- The hashes tell apart all keys and values in use, and no key in use is
the metakeys key. -/
structure NoCollisions (keys values : Set Bytes) : Prop where
  directories : Set.InjOn keyHash (insert metakeysName keys)
  listed : Set.InjOn fnvHex keys
  files : Set.InjOn fnvHex values
  user : metakeysName ∉ keys

/-- What the directories and files say: which keys have a directory, and which
values each of them holds. -/
structure Holds (keys values : Set Bytes) (fs : DatabaseFiles)
    (present : Set Bytes) (entries : Multimap Bytes Bytes) : Prop where
  present : ∀ key ∈ insert metakeysName keys,
    keyHash key ∈ fs ↔ key ∈ present
  file : ∀ key ∈ insert metakeysName keys, ∀ name value,
    fs.file (keyHash key) name = some value ↔
      value ∈ entries key ∧ name = fnvHex value
  listed : entries metakeysName ⊆ keys
  within : ∀ key ∈ keys, entries key ⊆ values

/-- The values that a key may hold. -/
def Holdable (keys values : Set Bytes) (key value : Bytes) : Prop :=
  (key = metakeysName ∧ value ∈ keys) ∨ (key ∈ keys ∧ value ∈ values)

section Entries

variable {keys values present : Set Bytes} {fs : DatabaseFiles}
  {entries : Multimap Bytes Bytes} {key value : Bytes}

theorem Holdable.mem (hholdable : Holdable keys values key value) :
    key ∈ insert metakeysName keys := by
  rcases hholdable with ⟨rfl, -⟩ | ⟨hkey, -⟩
  · exact Set.mem_insert _ _
  · exact Set.mem_insert_of_mem _ hkey

theorem Holds.congr {present' : Set Bytes} {entries' : Multimap Bytes Bytes}
    (hholds : Holds keys values fs present entries)
    (hpresent : ∀ key ∈ insert metakeysName keys,
      key ∈ present ↔ key ∈ present')
    (hentries : ∀ key ∈ insert metakeysName keys,
      entries key = entries' key) :
    Holds keys values fs present' entries' where
  present key hkey := (hholds.present key hkey).trans (hpresent key hkey)
  file key hkey := by
    rw [← hentries key hkey]
    exact hholds.file key hkey
  listed := by
    rw [← hentries _ (Set.mem_insert _ _)]
    exact hholds.listed
  within key hkey := by
    rw [← hentries key (Set.mem_insert_of_mem _ hkey)]
    exact hholds.within key hkey

/-- Under one key, values are told apart by their names. -/
theorem Holds.name_injective (hcollisions : NoCollisions keys values)
    (hholds : Holds keys values fs present entries)
    (hholdable : Holdable keys values key value) {other : Bytes}
    (hother : other ∈ entries key) (hname : fnvHex value = fnvHex other) :
    value = other := by
  rcases hholdable with ⟨rfl, hvalue⟩ | ⟨hkey, hvalue⟩
  · exact hcollisions.listed hvalue (hholds.listed hother) hname
  · exact hcollisions.files hvalue (hholds.within key hkey hother) hname

/-- A value's file is there exactly when the value is held. -/
theorem Holds.file_value (hcollisions : NoCollisions keys values)
    (hholds : Holds keys values fs present entries)
    (hholdable : Holdable keys values key value) (other : Bytes) :
    fs.file (keyHash key) (fnvHex value) = some other ↔
      value ∈ entries key ∧ other = value := by
  rw [hholds.file key hholdable.mem]
  constructor
  · rintro ⟨hother, hname⟩
    have heq := hholds.name_injective hcollisions hholdable hother hname
    subst heq
    exact ⟨hother, rfl⟩
  · rintro ⟨hmem, rfl⟩
    exact ⟨hmem, rfl⟩

theorem Holds.createDirAll (hcollisions : NoCollisions keys values)
    (hholds : Holds keys values fs present entries)
    (hkey : key ∈ insert metakeysName keys) :
    Holds keys values (fs.createDirAll (keyHash key)) (insert key present)
      entries where
  present key' hkey' := by
    rw [FileSystem.mem_createDirAll, hholds.present key' hkey',
      hcollisions.directories.eq_iff hkey' hkey]
    rfl
  file key' hkey' name value := by
    rw [FileSystem.file_createDirAll]
    exact hholds.file key' hkey' name value
  listed := hholds.listed
  within := hholds.within

theorem Holds.saveEntry (hcollisions : NoCollisions keys values)
    (hholds : Holds keys values fs present entries)
    (hholdable : Holdable keys values key value) :
    Holds keys values (DirectoryTestCaseDatabase.saveEntry fs key value)
      (insert key present) (entries.insert key value) := by
  have hdir := hholds.createDirAll hcollisions hholdable.mem
  rw [DirectoryTestCaseDatabase.saveEntry]
  by_cases hmem : value ∈ entries key
  · rw [if_pos, Multimap.insert_of_mem hmem]
    · exact hdir
    · rw [Option.isSome_iff_exists]
      exact ⟨value, (hdir.file_value hcollisions hholdable value).mpr
        ⟨hmem, rfl⟩⟩
  · have habsent : ¬ ((fs.createDirAll (keyHash key)).file (keyHash key)
        (fnvHex value)).isSome := by
      rw [Option.isSome_iff_exists]
      rintro ⟨other, hother⟩
      exact hmem ((hdir.file_value hcollisions hholdable other).mp hother).1
    rw [if_neg habsent]
    have hthere : keyHash key ∈ fs.createDirAll (keyHash key) :=
      FileSystem.mem_createDirAll.mpr (.inl rfl)
    obtain ⟨written, hwritten, hdirs, hfiles⟩ :=
      @FileSystem.write_spec _ _ _ _ _ (fnvHex value) hthere value
    rw [hwritten, Option.getD_some]
    constructor
    · intro key' hkey'
      rw [hdirs]
      exact hdir.present key' hkey'
    · intro key' hkey' name other
      rw [hfiles, Multimap.mem_insert]
      have hkeys := hcollisions.directories.eq_iff hkey' hholdable.mem
      by_cases hsame : key' = key ∧ name = fnvHex value
      · obtain ⟨rfl, rfl⟩ := hsame
        rw [if_pos ⟨rfl, rfl⟩]
        constructor
        · intro heq
          cases heq
          exact ⟨.inl ⟨rfl, rfl⟩, rfl⟩
        · rintro ⟨⟨-, rfl⟩ | hother, hname⟩
          · rfl
          · rw [hdir.name_injective hcollisions hholdable hother hname]
      · rw [if_neg fun h => hsame ⟨hkeys.mp h.1, h.2⟩, hdir.file key' hkey']
        constructor
        · rintro ⟨hother, hname⟩
          exact ⟨.inr hother, hname⟩
        · rintro ⟨⟨rfl, rfl⟩ | hother, hname⟩
          · exact absurd ⟨rfl, hname⟩ hsame
          · exact ⟨hother, hname⟩
    · rintro other (⟨hkey, rfl⟩ | hother)
      · rcases hholdable with ⟨-, hvalue⟩ | ⟨hmem', -⟩
        · exact hvalue
        · exact absurd (hkey ▸ hmem') hcollisions.user
      · exact hholds.listed hother
    · rintro key' hkey' other (⟨rfl, rfl⟩ | hother)
      · rcases hholdable with ⟨rfl, -⟩ | ⟨-, hvalue⟩
        · exact absurd hkey' hcollisions.user
        · exact hvalue
      · exact hholds.within key' hkey' hother

theorem Holds.removeFile (hcollisions : NoCollisions keys values)
    (hholds : Holds keys values fs present entries)
    (hholdable : Holdable keys values key value) (hmem : value ∈ entries key) :
    ∃ removed, fs.removeFile (keyHash key) (fnvHex value) = some removed ∧
      Holds keys values removed present (entries.erase key value) := by
  obtain ⟨removed, hremoved, hdirs, hfiles⟩ := FileSystem.removeFile_spec
    ((hholds.file_value hcollisions hholdable value).mpr ⟨hmem, rfl⟩)
  refine ⟨removed, hremoved, ?_⟩
  constructor
  · intro key' hkey'
    rw [hdirs]
    exact hholds.present key' hkey'
  · intro key' hkey' name other
    rw [hfiles, Multimap.mem_erase]
    have hkeys := hcollisions.directories.eq_iff hkey' hholdable.mem
    by_cases hsame : key' = key ∧ name = fnvHex value
    · obtain ⟨rfl, rfl⟩ := hsame
      rw [if_pos ⟨rfl, rfl⟩]
      constructor
      · intro heq
        cases heq
      · rintro ⟨⟨hother, hne⟩, hname⟩
        have heq := hholds.name_injective hcollisions hholdable hother hname
        exact absurd ⟨rfl, heq.symm⟩ hne
    · rw [if_neg fun h => hsame ⟨hkeys.mp h.1, h.2⟩, hholds.file key' hkey']
      constructor
      · rintro ⟨hother, hname⟩
        refine ⟨⟨hother, ?_⟩, hname⟩
        rintro ⟨rfl, rfl⟩
        exact hsame ⟨rfl, hname⟩
      · rintro ⟨⟨hother, -⟩, hname⟩
        exact ⟨hother, hname⟩
  · exact fun other hother => hholds.listed hother.1
  · exact fun key' hkey' other hother => hholds.within key' hkey' hother.1

theorem Holds.removeFile_absent (hcollisions : NoCollisions keys values)
    (hholds : Holds keys values fs present entries)
    (hholdable : Holdable keys values key value) (hmem : value ∉ entries key) :
    fs.file (keyHash key) (fnvHex value) = none := by
  rw [Option.eq_none_iff_forall_not_mem]
  intro other hother
  exact hmem ((hholds.file_value hcollisions hholdable other).mp hother).1

/-- A directory is removed exactly when its key holds nothing. -/
theorem Holds.removeDir_occupied
    (hholds : Holds keys values fs present entries)
    (hkey : key ∈ insert metakeysName keys)
    (hoccupied : (entries key).Nonempty) :
    fs.removeDir (keyHash key) = none := by
  obtain ⟨other, hother⟩ := hoccupied
  exact FileSystem.removeDir_occupied
    ((hholds.file key hkey _ _).mpr ⟨hother, rfl⟩)

theorem Holds.removeDir (hcollisions : NoCollisions keys values)
    (hholds : Holds keys values fs present entries)
    (hkey : key ∈ insert metakeysName keys) (hpresent : key ∈ present)
    (hempty : ¬ (entries key).Nonempty) :
    ∃ removed, fs.removeDir (keyHash key) = some removed ∧
      Holds keys values removed {key' | key' ∈ present ∧ key' ≠ key}
        entries := by
  have hnone : ∀ name, fs.file (keyHash key) name = none := by
    intro name
    rw [Option.eq_none_iff_forall_not_mem]
    intro other hother
    exact hempty ⟨other, ((hholds.file key hkey _ _).mp hother).1⟩
  obtain ⟨removed, hremoved, hdirs, hfiles⟩ :=
    FileSystem.removeDir_spec ((hholds.present key hkey).mpr hpresent) hnone
  refine ⟨removed, hremoved, ?_, ?_, hholds.listed, hholds.within⟩
  · intro key' hkey'
    rw [hdirs, hholds.present key' hkey', Set.mem_ofPred_eq, and_comm, ne_eq,
      hcollisions.directories.eq_iff hkey' hkey]
  · intro key' hkey' name other
    rw [hfiles]
    exact hholds.file key' hkey' name other

theorem Holds.rename (hcollisions : NoCollisions keys values)
    (hholds : Holds keys values fs present entries) {target : Bytes}
    (hsource : Holdable keys values key value)
    (htarget : target ∈ keys) (hvalue : value ∈ values)
    (hmem : value ∈ entries key) (hpresent : target ∈ present) :
    ∃ renamed, fs.rename (keyHash key) (fnvHex value) (keyHash target)
        (fnvHex value) = some renamed ∧
      Holds keys values renamed present (entries.move key target value) := by
  have hholdable : Holdable keys values target value := .inr ⟨htarget, hvalue⟩
  obtain ⟨renamed, hrenamed, hdirs, hfiles⟩ :=
    @FileSystem.rename_spec _ _ _ _ _ _ _ (fnvHex value) _
      ((hholds.file_value hcollisions hsource value).mpr ⟨hmem, rfl⟩)
      ((hholds.present target hholdable.mem).mpr hpresent)
  refine ⟨renamed, hrenamed, ?_⟩
  constructor
  · intro key' hkey'
    rw [hdirs]
    exact hholds.present key' hkey'
  · intro key' hkey' name other
    rw [hfiles, Multimap.mem_move]
    have htargets := hcollisions.directories.eq_iff hkey' hholdable.mem
    have hsources := hcollisions.directories.eq_iff hkey' hsource.mem
    by_cases hto : key' = target ∧ name = fnvHex value
    · obtain ⟨rfl, rfl⟩ := hto
      rw [if_pos ⟨rfl, rfl⟩]
      constructor
      · intro heq
        cases heq
        exact ⟨.inl ⟨rfl, rfl⟩, rfl⟩
      · rintro ⟨⟨-, rfl⟩ | ⟨hother, -⟩, hname⟩
        · rfl
        · rw [hholds.name_injective hcollisions hholdable hother hname]
    · rw [if_neg fun h => hto ⟨htargets.mp h.1, h.2⟩]
      by_cases hfrom : key' = key ∧ name = fnvHex value
      · obtain ⟨rfl, rfl⟩ := hfrom
        rw [if_pos ⟨rfl, rfl⟩]
        constructor
        · intro heq
          cases heq
        · rintro ⟨⟨rfl, rfl⟩ | ⟨hother, hne⟩, hname⟩
          · exact absurd ⟨rfl, rfl⟩ hto
          · have heq := hholds.name_injective hcollisions hsource hother hname
            exact absurd ⟨rfl, heq.symm⟩ hne
      · rw [if_neg fun h => hfrom ⟨hsources.mp h.1, h.2⟩,
          hholds.file key' hkey']
        constructor
        · rintro ⟨hother, hname⟩
          refine ⟨.inr ⟨hother, ?_⟩, hname⟩
          rintro ⟨rfl, rfl⟩
          exact hfrom ⟨rfl, hname⟩
        · rintro ⟨⟨rfl, rfl⟩ | ⟨hother, -⟩, hname⟩
          · exact absurd ⟨rfl, hname⟩ hto
          · exact ⟨hother, hname⟩
  · rintro other (⟨heq, rfl⟩ | ⟨hother, -⟩)
    · exact absurd (heq ▸ htarget) hcollisions.user
    · exact hholds.listed hother
  · rintro key' hkey' other (⟨-, rfl⟩ | ⟨hother, -⟩)
    · exact hvalue
    · exact hholds.within key' hkey' hother

/-- Deleting a value leaves the directory, unless the value was the last. -/
theorem Holds.deleteEntry (hcollisions : NoCollisions keys values)
    (hholds : Holds keys values fs present entries)
    (hpresent : key ∈ present ↔ (entries key).Nonempty)
    (hholdable : Holdable keys values key value) :
    ((DirectoryTestCaseDatabase.deleteEntry fs key value).2 = true ↔
      value ∈ entries key ∧ ¬ (entries.erase key value key).Nonempty) ∧
    Holds keys values (DirectoryTestCaseDatabase.deleteEntry fs key value).1
      {key' | key' ∈ present ∧
        (key' = key → (entries.erase key value key).Nonempty)}
      (entries.erase key value) := by
  rw [DirectoryTestCaseDatabase.deleteEntry]
  by_cases hmem : value ∈ entries key
  · obtain ⟨removed, hremoved, hremovedHolds⟩ :=
      hholds.removeFile hcollisions hholdable hmem
    simp only [hremoved]
    by_cases hrest : (entries.erase key value key).Nonempty
    · rw [hremovedHolds.removeDir_occupied hholdable.mem hrest]
      refine ⟨by simp [hrest], hremovedHolds.congr ?_ fun _ _ => rfl⟩
      intro key' _
      simp [hrest]
    · obtain ⟨emptied, hemptied, hemptiedHolds⟩ := hremovedHolds.removeDir
        hcollisions hholdable.mem (hpresent.mpr ⟨value, hmem⟩) hrest
      rw [hemptied]
      refine ⟨by simp [hmem, hrest], hemptiedHolds.congr ?_ fun _ _ => rfl⟩
      intro key' _
      simp [hrest]
  · rw [FileSystem.removeFile_absent
      (hholds.removeFile_absent hcollisions hholdable hmem),
      Multimap.erase_of_notMem hmem]
    refine ⟨by simp [hmem], hholds.congr ?_ fun _ _ => rfl⟩
    intro key' _
    rw [Set.mem_ofPred_eq]
    constructor
    · intro hthere
      refine ⟨hthere, ?_⟩
      rintro rfl
      exact hpresent.mp hthere
    · exact And.left

end Entries

end Hegel
