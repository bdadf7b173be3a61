import Ttntfs.Vfs.NameLookup

/-!
# Volumes given by a list

A volume with few files is a list of their numbers and inodes, every index in its root.
Whether its names are in order can be decided.
-/

namespace Ttntfs.Vfs

open Ttntfs.Ntfs

/-- An inode whose index is stored in its root. -/
def Inode.stored (inode : Inode (List IndexKey)) : Inode DirectoryIndex :=
  { inode with index := rootIndex inode.index }

/-- The inodes of a list. -/
def volumeOf (files : List (Nat × Inode (List IndexKey))) : Inodes :=
  fun ino => (files.find? fun entry => decide (entry.1 = ino)).map fun entry => entry.2.stored

instance (upcase : Upcase) (keys : List IndexKey) : Decidable (SortedKeys upcase keys) :=
  decidable_of_iff
    ((keys.Pairwise fun left right => CollatesBefore upcase left.name right.name) ∧ ∀ key ∈ keys, 0 ∉ key.name)
    ⟨fun ⟨sorted, text⟩ => ⟨sorted, text⟩, fun keys => ⟨keys.sorted, keys.text⟩⟩

instance (names : List FileName) : Decidable (DosPaired names) :=
  decidable_of_iff
    ((∀ fn ∈ names, fn.type = .dos → ∃ other ∈ names, other.type = .win32 ∧ other.parent = fn.parent) ∧
      (∀ fn ∈ names, fn.type = .win32 → ∃ other ∈ names, other.type = .dos ∧ other.parent = fn.parent) ∧
      (∀ fn ∈ names, ∀ other ∈ names, fn.type = .dos → other.type = .dos → fn = other) ∧
      ∀ fn ∈ names, ∀ other ∈ names, fn.type = .win32 → other.type = .win32 → fn = other)
    ⟨fun ⟨partner, short, oneDos, oneWin32⟩ => ⟨partner, short, oneDos, oneWin32⟩,
      fun paired => ⟨paired.partner, paired.short, paired.oneDos, paired.oneWin32⟩⟩

/-- What is asked of one file of a list. -/
def FileInOrder (upcase : Upcase) (file : Inode (List IndexKey)) : Prop :=
  SortedKeys upcase file.index ∧ file.fileNames.Nodup ∧ file.linkCount = file.fileNames.length ∧
    file.fileNames.length < 65536 ∧ (∀ fn ∈ file.fileNames, fn.type ≠ .posix → LegalName upcase fn.name) ∧
    DosPaired file.fileNames ∧ (file.beingDeleted = true ↔ file.fileNames = []) ∧
    (file.kind ≠ .directory → file.nlink = file.fileNames.length) ∧ (file.kind = .directory → file.dirRecord = true)

instance (upcase : Upcase) (file : Inode (List IndexKey)) : Decidable (FileInOrder upcase file) := by
  unfold FileInOrder
  infer_instance

/-- What is asked of a list of files. -/
def FilesInOrder (upcase : Upcase) (files : List (Nat × Inode (List IndexKey))) : Prop :=
  (files.map Prod.fst).Nodup ∧ (∀ entry ∈ files, FileInOrder upcase entry.2) ∧
    (∀ entry ∈ files, ∀ key ∈ entry.2.index, ∃ other ∈ files, other.1 = key.mref ∧
      (⟨entry.1, key.name, key.type⟩ : FileName) ∈ other.2.fileNames) ∧
    ∀ entry ∈ files, ∀ fn ∈ entry.2.fileNames, ∃ other ∈ files, other.1 = fn.parent ∧
      (⟨fn.name, fn.type, entry.1⟩ : IndexKey) ∈ other.2.index

instance (upcase : Upcase) (files : List (Nat × Inode (List IndexKey))) :
    Decidable (FilesInOrder upcase files) := by
  unfold FilesInOrder
  infer_instance

section Listed

variable {upcase : Upcase} {files : List (Nat × Inode (List IndexKey))} {ino : Nat}
  {inode : Inode (List IndexKey)}

theorem stored_listed (inode : Inode (List IndexKey)) : inode.stored.listed = inode := by
  have keys : keysOf (rootIndex inode.index) = inode.index := by
    rw [keysOf, listEntries_root, Option.getD_some]
  cases inode
  simpa [Inode.stored, Inode.listed] using keys

theorem listing_volumeOf :
    listing (volumeOf files) ino = (files.find? fun entry => decide (entry.1 = ino)).map Prod.snd := by
  rw [listing, volumeOf, Option.map_map]
  congr 1
  funext entry
  exact stored_listed entry.2

theorem mem_of_listing (found : listing (volumeOf files) ino = some inode) : (ino, inode) ∈ files := by
  rw [listing_volumeOf, Option.map_eq_some_iff] at found
  obtain ⟨entry, there, rfl⟩ := found
  have number : entry.1 = ino := by simpa using List.find?_some there
  rw [← number]
  exact List.mem_of_find?_eq_some there

theorem listing_of_mem (nodup : (files.map Prod.fst).Nodup) (listed : (ino, inode) ∈ files) :
    listing (volumeOf files) ino = some inode := by
  cases found : listing (volumeOf files) ino with
  | none =>
    rw [listing_volumeOf, Option.map_eq_none_iff, List.find?_eq_none] at found
    exact absurd (found _ listed) (by simp)
  | some other =>
    have same := List.inj_on_of_nodup_map nodup (mem_of_listing found) listed rfl
    obtain ⟨_, rfl⟩ := Prod.mk.inj same
    rfl

/-- A volume whose files are in order is sound. -/
theorem sound_volumeOf (inOrder : FilesInOrder upcase files) : Sound upcase (volumeOf files) := by
  obtain ⟨nodup, each, entries, names⟩ := inOrder
  have atFile {number : Nat} {file : Inode (List IndexKey)}
      (found : listing (volumeOf files) number = some file) : FileInOrder upcase file :=
    each _ (mem_of_listing found)
  have namesListed {number : Nat} {fn : FileName} :
      fn ∈ namesAt (listing (volumeOf files)) number ↔ ∃ file, (number, file) ∈ files ∧ fn ∈ file.fileNames := by
    constructor
    · intro listed
      obtain ⟨file, found, there⟩ := exists_of_mem_namesAt listed
      exact ⟨file, mem_of_listing found, there⟩
    · rintro ⟨file, listed, there⟩
      rw [namesAt, listing_of_mem nodup listed]
      exact there
  have keysListed {number : Nat} {key : IndexKey} :
      key ∈ keysAt (listing (volumeOf files)) number ↔ ∃ file, (number, file) ∈ files ∧ key ∈ file.index := by
    constructor
    · intro listed
      obtain ⟨file, found, there⟩ := exists_of_mem_keysAt listed
      exact ⟨file, mem_of_listing found, there⟩
    · rintro ⟨file, listed, there⟩
      rw [keysAt, listing_of_mem nodup listed]
      exact there
  have noKeys {number : Nat} (missing : listing (volumeOf files) number = none) :
      keysAt (listing (volumeOf files)) number = [] := by rw [keysAt, missing]; rfl
  have noNames {number : Nat} (missing : listing (volumeOf files) number = none) :
      namesAt (listing (volumeOf files)) number = [] := by rw [namesAt, missing]; rfl
  have names_eq {number : Nat} {file : Inode (List IndexKey)}
      (found : listing (volumeOf files) number = some file) :
      namesAt (listing (volumeOf files)) number = file.fileNames := by
    rw [namesAt, found, Option.map_some, Option.getD_some]
  have bounded (number : Nat) : (namesAt (listing (volumeOf files)) number).length < 65536 := by
    cases found : listing (volumeOf files) number with
    | none => simp [noNames found]
    | some file =>
      obtain ⟨_, _, _, short, _⟩ := atFile found
      rwa [names_eq found]
  refine ⟨?_, ⟨⟨?_, ?_, ?_, ?_, ?_⟩, ?_, ?_, ?_⟩, bounded, ?_⟩
  · intro number inode found
    obtain ⟨entry, there, rfl⟩ := Option.map_eq_some_iff.mp found
    obtain ⟨sorted, _⟩ := each entry (List.mem_of_find?_eq_some there)
    have inRoot := rootIndex_inOrder sorted
    rw [Inode.stored]
    rwa [inRoot.keysOf_eq]
  · intro number
    cases found : listing (volumeOf files) number with
    | none =>
      rw [noKeys found]
      exact ⟨.nil, by simp⟩
    | some file =>
      obtain ⟨sorted, _⟩ := atFile found
      rwa [keysAt, found]
  · intro dir name type number
    rw [namesListed, keysListed]
    constructor
    · rintro ⟨file, listed, there⟩
      obtain ⟨other, otherListed, rfl, named⟩ := entries _ listed _ there
      exact ⟨other.2, otherListed, named⟩
    · rintro ⟨file, listed, there⟩
      obtain ⟨other, otherListed, rfl, entry⟩ := names _ listed _ there
      exact ⟨other.2, otherListed, entry⟩
  · intro number
    cases found : listing (volumeOf files) number with
    | none => simp [noNames found]
    | some file =>
      obtain ⟨_, once, _⟩ := atFile found
      rwa [names_eq found]
  · intro number
    rw [Nat.mod_eq_of_lt (bounded number)]
    cases found : listing (volumeOf files) number with
    | none => simp [noNames found, countAt, found]
    | some file =>
      obtain ⟨_, _, count, _⟩ := atFile found
      rw [names_eq found, ← count, countAt, found, Option.map_some, Option.getD_some]
  · intro number fn listed
    obtain ⟨file, inList, there⟩ := namesListed.mp listed
    obtain ⟨_, _, _, _, legal, _⟩ := each _ inList
    exact legal fn there
  · intro number
    cases found : listing (volumeOf files) number with
    | none =>
      rw [noNames found]
      exact ⟨by simp, by simp, by simp, by simp⟩
    | some file =>
      obtain ⟨_, _, _, _, _, paired, _⟩ := atFile found
      rwa [names_eq found]
  · intro number file found
    obtain ⟨_, _, _, _, _, _, deleted, _⟩ := atFile found
    exact deleted
  · intro number file found
    obtain ⟨_, _, _, _, _, _, _, nlink, _⟩ := atFile found
    exact nlink
  · intro number inode found
    obtain ⟨_, _, _, _, _, _, _, _, record⟩ := atFile (listing_eq found)
    exact record

/-- The inode number that a name leads to. -/
def resolve (policy : NamePolicy) (inodes : Inodes) (dir : Nat) (name : Uname) : Option Nat :=
  (inodes dir).bind fun parent => (lookupIno policy parent.index name).toOption

theorem resolves_iff {policy : NamePolicy} {inodes : Inodes} {dir : Nat} {name : Uname} :
    Resolves policy inodes dir name ino ↔ resolve policy inodes dir name = some ino := by
  rw [Resolves, resolve, Option.bind_eq_some_iff]
  constructor
  · rintro ⟨parent, found, result⟩
    exact ⟨parent, found, by rw [result]; rfl⟩
  rintro ⟨parent, found, result⟩
  refine ⟨parent, found, ?_⟩
  cases there : lookupIno policy parent.index name with
  | error error =>
    rw [there] at result
    cases result
  | ok other =>
    rw [there] at result
    rw [Option.some.inj result]

end Listed

/-- A round of a deletion in which no step fails. -/
def smoothRound : RoundCourse := ⟨none, none, none, none⟩

/-- A deletion in which no step fails. -/
def smoothDelete : DeleteCourse := ⟨smoothRound, smoothRound⟩

/-- A link in which no step fails; its `$FILE_NAME` becomes the first. -/
def smoothLink : LinkCourse := ⟨none, none, none, 0, none⟩

/-- A call of `__ntfs_vfs_rename` in which no step fails. -/
def smoothRename : RenameCourse := ⟨none, smoothDelete, smoothLink, smoothDelete, smoothDelete⟩

/-- A rename in which no step fails. -/
def smoothVfsRename : VfsRenameCourse := ⟨none, none, none, none, smoothRename, smoothRename, smoothRename⟩

/-- A volume that is not case sensitive and takes all names. -/
def ignoringCase : NamePolicy := ⟨⟨asciiUpcase, false⟩, false⟩

end Ttntfs.Vfs
