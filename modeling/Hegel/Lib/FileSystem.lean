/-
Directories of files, one level deep.  Every operation fails where it does not
apply and succeeds otherwise; what it changes is stated through which
directories there are and what the files in them contain.
-/
import Mathlib.Data.List.AList

namespace Hegel

variable {Name Contents : Type}

/-- The files of a directory, in some order. -/
abbrev Directory (Name Contents : Type) :=
  AList fun _ : Name => Contents

/-- The directories, in some order. -/
abbrev FileSystem (Name Contents : Type) :=
  AList fun _ : Name => Directory Name Contents

namespace FileSystem

variable [DecidableEq Name]

/-- What a file contains. -/
def file (fs : FileSystem Name Contents) (dir name : Name) : Option Contents :=
  (fs.lookup dir).bind fun files => files.lookup name

/-- The names in a directory. -/
def readDir (fs : FileSystem Name Contents) (dir : Name) :
    Option (List Name) :=
  (fs.lookup dir).map AList.keys

def createDirAll (fs : FileSystem Name Contents) (dir : Name) :
    FileSystem Name Contents :=
  if dir ∈ fs then fs else fs.insert dir ∅

/-- Write a file of an existing directory. -/
def write (fs : FileSystem Name Contents) (dir name : Name)
    (contents : Contents) : Option (FileSystem Name Contents) :=
  (fs.lookup dir).map fun files =>
    fs.insert dir (files.insert name contents)

def removeFile (fs : FileSystem Name Contents) (dir name : Name) :
    Option (FileSystem Name Contents) :=
  (fs.lookup dir).bind fun files =>
    if name ∈ files then some (fs.insert dir (files.erase name)) else none

/-- Remove a directory that is empty. -/
def removeDir (fs : FileSystem Name Contents) (dir : Name) :
    Option (FileSystem Name Contents) :=
  (fs.lookup dir).bind fun files =>
    if files.entries = [] then some (fs.erase dir) else none

/-- Move a file into an existing directory, over a file of that name. -/
def rename (fs : FileSystem Name Contents) (dir name dir' name' : Name) :
    Option (FileSystem Name Contents) := do
  let contents ← fs.file dir name
  let fs ← fs.removeFile dir name
  fs.write dir' name' contents

section Rules

variable {fs fs' : FileSystem Name Contents} {dir dir' name name' : Name}

theorem file_of_absent (habsent : dir ∉ fs) : fs.file dir name = none := by
  rw [file, AList.lookup_eq_none.mpr habsent]
  rfl

theorem mem_of_file {contents : Contents}
    (hfile : fs.file dir name = some contents) : dir ∈ fs := by
  by_contra habsent
  rw [file_of_absent habsent] at hfile
  cases hfile

theorem file_insert_self (files : Directory Name Contents) :
    file (fs.insert dir files) dir name = files.lookup name := by
  rw [file, AList.lookup_insert]
  rfl

theorem file_insert_ne (hne : dir' ≠ dir) (files : Directory Name Contents) :
    file (fs.insert dir files) dir' name = fs.file dir' name := by
  rw [file, AList.lookup_insert_ne hne, file]

theorem mem_createDirAll :
    dir' ∈ fs.createDirAll dir ↔ dir' = dir ∨ dir' ∈ fs := by
  rw [createDirAll]
  by_cases hmem : dir ∈ fs
  · rw [if_pos hmem]
    constructor
    · exact Or.inr
    · rintro (rfl | hmem')
      · exact hmem
      · exact hmem'
  · rw [if_neg hmem]
    exact AList.mem_insert _

theorem file_createDirAll :
    (fs.createDirAll dir).file dir' name = fs.file dir' name := by
  rw [createDirAll]
  by_cases hmem : dir ∈ fs
  · rw [if_pos hmem]
  · rw [if_neg hmem]
    by_cases hdir : dir' = dir
    · subst hdir
      rw [file_insert_self, file_of_absent hmem]
      exact AList.lookup_empty _
    · exact file_insert_ne hdir _

/-- What the names of a directory are. -/
theorem mem_readDir {names : List Name} (hnames : fs.readDir dir = some names) :
    name ∈ names ↔ (fs.file dir name).isSome := by
  rw [readDir] at hnames
  obtain ⟨files, hfiles, rfl⟩ := Option.map_eq_some_iff.mp hnames
  rw [file, hfiles]
  exact AList.mem_keys.symm.trans AList.lookup_isSome.symm

theorem nodup_readDir {names : List Name}
    (hnames : fs.readDir dir = some names) : names.Nodup := by
  rw [readDir] at hnames
  obtain ⟨files, hfiles, rfl⟩ := Option.map_eq_some_iff.mp hnames
  exact files.keys_nodup

theorem readDir_of_absent (habsent : dir ∉ fs) : fs.readDir dir = none := by
  rw [readDir, AList.lookup_eq_none.mpr habsent]
  rfl

theorem readDir_of_mem (hmem : dir ∈ fs) :
    ∃ names, fs.readDir dir = some names := by
  obtain ⟨files, hfiles⟩ :=
    Option.isSome_iff_exists.mp (AList.lookup_isSome.mpr hmem)
  rw [readDir, hfiles]
  exact ⟨_, rfl⟩

/-- Writing into an existing directory changes one file. -/
theorem write_spec (hmem : dir ∈ fs) (contents : Contents) :
    ∃ fs', fs.write dir name contents = some fs' ∧
      (∀ dir', dir' ∈ fs' ↔ dir' ∈ fs) ∧
      (∀ dir' name', fs'.file dir' name' =
        if dir' = dir ∧ name' = name then some contents
        else fs.file dir' name') := by
  obtain ⟨files, hfiles⟩ :=
    Option.isSome_iff_exists.mp (AList.lookup_isSome.mpr hmem)
  refine ⟨_, by rw [write, hfiles]; rfl, ?_, ?_⟩
  · intro dir'
    rw [AList.mem_insert]
    constructor
    · rintro (rfl | hmem')
      · exact hmem
      · exact hmem'
    · exact Or.inr
  · intro dir' name'
    by_cases hdir : dir' = dir
    · subst hdir
      rw [file_insert_self]
      by_cases hname : name' = name
      · subst hname
        rw [AList.lookup_insert, if_pos ⟨rfl, rfl⟩]
      · rw [AList.lookup_insert_ne hname, if_neg fun h => hname h.2, file,
          hfiles]
        rfl
    · rw [file_insert_ne hdir, if_neg fun h => hdir h.1]

theorem removeFile_absent (habsent : fs.file dir name = none) :
    fs.removeFile dir name = none := by
  rw [file] at habsent
  rw [removeFile]
  cases hfiles : fs.lookup dir with
  | none => rfl
  | some files =>
      rw [hfiles] at habsent
      exact if_neg (AList.lookup_eq_none.mp habsent)

/-- Removing a file leaves its directory and the other files. -/
theorem removeFile_spec {contents : Contents}
    (hfile : fs.file dir name = some contents) :
    ∃ fs', fs.removeFile dir name = some fs' ∧
      (∀ dir', dir' ∈ fs' ↔ dir' ∈ fs) ∧
      (∀ dir' name', fs'.file dir' name' =
        if dir' = dir ∧ name' = name then none else fs.file dir' name') := by
  have hmem := mem_of_file hfile
  obtain ⟨files, hfiles⟩ :=
    Option.isSome_iff_exists.mp (AList.lookup_isSome.mpr hmem)
  have hname : name ∈ files := by
    rw [file, hfiles] at hfile
    exact AList.lookup_isSome.mp (Option.isSome_of_eq_some hfile)
  refine ⟨_, by rw [removeFile, hfiles]; exact if_pos hname, ?_, ?_⟩
  · intro dir'
    rw [AList.mem_insert]
    constructor
    · rintro (rfl | hmem')
      · exact hmem
      · exact hmem'
    · exact Or.inr
  · intro dir' name'
    by_cases hdir : dir' = dir
    · subst hdir
      rw [file_insert_self]
      by_cases hname' : name' = name
      · subst hname'
        rw [AList.lookup_erase, if_pos ⟨rfl, rfl⟩]
      · rw [AList.lookup_erase_ne hname', if_neg fun h => hname' h.2, file,
          hfiles]
        rfl
    · rw [file_insert_ne hdir, if_neg fun h => hdir h.1]

/-- A directory with a file is not removed. -/
theorem removeDir_occupied {contents : Contents}
    (hfile : fs.file dir name = some contents) : fs.removeDir dir = none := by
  rw [removeDir]
  cases hfiles : fs.lookup dir with
  | none => rfl
  | some files =>
      rw [file, hfiles] at hfile
      apply if_neg
      intro hempty
      have hmem : name ∈ files :=
        AList.lookup_isSome.mp (Option.isSome_of_eq_some hfile)
      rw [AList.mem_keys, AList.keys, hempty] at hmem
      cases hmem

/-- Removing an empty directory leaves all files. -/
theorem removeDir_spec (hmem : dir ∈ fs)
    (hempty : ∀ name, fs.file dir name = none) :
    ∃ fs', fs.removeDir dir = some fs' ∧
      (∀ dir', dir' ∈ fs' ↔ dir' ≠ dir ∧ dir' ∈ fs) ∧
      (∀ dir' name', fs'.file dir' name' = fs.file dir' name') := by
  obtain ⟨files, hfiles⟩ :=
    Option.isSome_iff_exists.mp (AList.lookup_isSome.mpr hmem)
  have hentries : files.entries = [] := by
    cases hentries : files.entries with
    | nil => rfl
    | cons entry rest =>
        have hname : entry.1 ∈ files := by
          rw [AList.mem_keys, AList.keys, hentries]
          exact List.mem_cons_self
        have hnone := hempty entry.1
        rw [file, hfiles] at hnone
        exact absurd hname (AList.lookup_eq_none.mp hnone)
  refine ⟨_, by rw [removeDir, hfiles]; exact if_pos hentries, ?_, ?_⟩
  · intro dir'
    exact AList.mem_erase
  · intro dir' name'
    by_cases hdir : dir' = dir
    · subst hdir
      rw [hempty name', file, AList.lookup_erase]
      rfl
    · rw [file, AList.lookup_erase_ne hdir, file]

theorem rename_absent (habsent : fs.file dir name = none) :
    fs.rename dir name dir' name' = none := by
  rw [rename, habsent]
  rfl

/-- Renaming moves one file into another directory. -/
theorem rename_spec {contents : Contents}
    (hfile : fs.file dir name = some contents) (hmem : dir' ∈ fs) :
    ∃ fs', fs.rename dir name dir' name' = some fs' ∧
      (∀ other, other ∈ fs' ↔ other ∈ fs) ∧
      (∀ other name'', fs'.file other name'' =
        if other = dir' ∧ name'' = name' then some contents
        else if other = dir ∧ name'' = name then none
        else fs.file other name'') := by
  obtain ⟨removed, hremoved, hdirs, hfiles⟩ := removeFile_spec hfile
  obtain ⟨written, hwritten, hdirs', hfiles'⟩ :=
    @write_spec _ _ _ removed dir' name' ((hdirs dir').mpr hmem) contents
  refine ⟨written, ?_, fun other => (hdirs' other).trans (hdirs other), ?_⟩
  · rw [rename, hfile]
    simp only [Option.bind_eq_bind, Option.bind_some, hremoved, hwritten]
  · intro other name''
    rw [hfiles', hfiles]

end Rules

end FileSystem

end Hegel
