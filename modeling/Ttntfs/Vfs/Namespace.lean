import Ttntfs.Library.StatefulSteps
import Ttntfs.Ntfs.IndexChange
import Ttntfs.Vfs.Readdir

/-!
# Adding and deleting names

A name stands in two places: as an entry in the index of a directory, and as a
`$FILE_NAME` attribute of the file it names, whose mft record counts its names.
`__ntfs_link` adds a name in both places and `ntfs_delete` removes it from both, the name
of the DOS name space together with the long name it belongs to. Each of their steps can
fail, after others have taken effect; which of them do is an argument of the calls, their
course. References to mft records are numbers here: the sequence numbers with which a
reference to a record in its earlier use is told are left out.
-/

namespace Ttntfs.Vfs

open Ttntfs.Ntfs Ttntfs.Library.StatefulSteps

/-- `struct file_name_attr`: the directory that holds the name, the name and its name
space. -/
structure FileName where
  parent : Nat
  name : Uname
  type : FileNameType
  deriving DecidableEq

/-- The file type in `i_mode`. -/
inductive FileKind where
  | regular
  | directory
  | symlink
  deriving DecidableEq

/-- An inode with its mft record and the index of a directory. A junction or a symbolic
link to a directory is presented as a link but has the record of a directory. -/
structure Inode (ι : Type) where
  kind : FileKind
  dirRecord : Bool
  linkCount : Nat
  nlink : Nat
  fileNames : List FileName
  index : ι
  beingDeleted : Bool

/-- The inodes of a volume by their numbers. -/
abbrev Inodes := Nat → Option (Inode DirectoryIndex)

/-- One inode is changed. -/
def modifyAt {α : Type} (inodes : Nat → Option α) (ino : Nat) (change : α → α) : Nat → Option α :=
  fun other => if other = ino then (inodes ino).map change else inodes other

/-- Another index. -/
def Inode.withIndex {ι : Type} (index : ι) (inode : Inode ι) : Inode ι := { inode with index := index }

/-- Other names. -/
def Inode.withFileNames {ι : Type} (fileNames : List FileName) (inode : Inode ι) : Inode ι :=
  { inode with fileNames := fileNames }

/-- Steps on the inodes that may fail. -/
abbrev NameM := EStateM NameError Inodes

/-- The inode with a number. -/
def getInode (ino : Nat) : NameM (Inode DirectoryIndex) := do
  match (← get) ino with
  | some inode => pure inode
  | none => throw .eio

/-- An error that a step meets, if there is one. -/
def failing : Option NameError → NameM Unit
  | some error => throw error
  | none => pure ()

/-- A step that fails, and what it leaves of what it was to change, where that is not what
it found. -/
structure Fault (α : Type) where
  error : NameError
  torn : Option α

/-- What a failed step leaves. -/
def Fault.left {α : Type} (fault : Fault α) (before : α) : α := fault.torn.getD before

/-- An attribute is put at a place among others. -/
def putAt {α : Type} (place : Nat) (x : α) (others : List α) : List α :=
  others.take place ++ x :: others.drop place

/-- A `$FILE_NAME` in a directory that is the name, by a rule; names of the POSIX name space
are always compared with their case. -/
def isNameIn (upcase : Upcase) (dir : Nat) (name : Uname) (rule : CaseRule) (fn : FileName) : Bool :=
  fn.parent = dir &&
    ntfsAreNamesEqual fn.name name (if fn.type = .posix then .caseSensitive else rule) upcase

/-- The search for the `$FILE_NAME` to delete, first with regard to case and then without.
For a long name it is its DOS name, and a DOS name is followed by the long one. -/
def searchFileName (upcase : Upcase) (names : List FileName) (dir : Nat) (name : Uname) :
    Option (FileName × Bool) :=
  let exact := names.find? (isNameIn upcase dir name .caseSensitive)
  let matching := exact.or (names.find? (isNameIn upcase dir name .ignoreCase))
  match matching with
  | none => none
  | some fn =>
    match fn.type with
    | .win32 => (names.find? fun other => decide (other.type = .dos)).map fun other => (other, true)
    | .dos => some (fn, true)
    | _ => some (fn, false)

section Steps

variable {upcase : Upcase} (code : IndexCode upcase)

/-- `ntfs_index_add_filename` -/
def ntfsIndexAddFilename (dir : Nat) (key : IndexKey) (fault : Option (Fault DirectoryIndex)) :
    NameM Unit := do
  let inode ← getInode dir
  match fault with
  | some fault =>
    modify fun inodes => modifyAt inodes dir (Inode.withIndex (fault.left inode.index))
    throw fault.error
  | none =>
    match ntfsIndexLookup upcase inode.index key.name with
    | .error error => throw error
    | .ok (some _) => throw .eexist
    | .ok none => modify fun inodes => modifyAt inodes dir (Inode.withIndex (code.ntfsIeAdd inode.index key))

/-- `ntfs_index_remove` -/
def ntfsIndexRemove (dir : Nat) (name : Uname) (fault : Option (Fault DirectoryIndex)) :
    NameM Unit := do
  let inode ← getInode dir
  match fault with
  | some fault =>
    modify fun inodes => modifyAt inodes dir (Inode.withIndex (fault.left inode.index))
    throw fault.error
  | none =>
    match ntfsIndexLookup upcase inode.index name with
    | .error error => throw error
    | .ok none => throw .enoent
    | .ok (some key) => modify fun inodes => modifyAt inodes dir (Inode.withIndex (code.ntfsIndexRm inode.index key))

/-- `ntfs_attr_add` of a `$FILE_NAME`, at a place among the others. -/
def ntfsAttrAdd (ino : Nat) (fn : FileName) (place : Nat) (fault : Option (Fault (List FileName))) :
    NameM Unit := do
  let inode ← getInode ino
  match fault with
  | some fault =>
    modify fun inodes => modifyAt inodes ino (Inode.withFileNames (fault.left inode.fileNames))
    throw fault.error
  | none =>
    modify fun inodes =>
      modifyAt inodes ino (Inode.withFileNames (putAt place fn inode.fileNames))

/-- `ntfs_attr_record_rm` of a `$FILE_NAME` -/
def ntfsAttrRecordRm (ino : Nat) (fn : FileName) (fault : Option (Fault (List FileName))) :
    NameM Unit := do
  let inode ← getInode ino
  match fault with
  | some fault =>
    modify fun inodes => modifyAt inodes ino (Inode.withFileNames (fault.left inode.fileNames))
    throw fault.error
  | none => modify fun inodes => modifyAt inodes ino (Inode.withFileNames (inode.fileNames.erase fn))

/-- The length of the value of the root attribute. -/
def rootValueLength (root : List IndexEntry) : Nat :=
  32 + (root.map fun
    | .corrupt => 0
    | .named key child => entryLength key child
    | .last child => 16 + if child.isSome then 8 else 0).sum

/-- The length of a root without entries: `struct index_root` and the header of the last
entry. -/
def emptyRootLength : Nat := 48

/-- `ntfs_check_empty_dir` -/
def ntfsCheckEmptyDir (inode : Inode DirectoryIndex) (fault : Option NameError) : Except NameError Unit :=
  if inode.dirRecord = false then .ok ()
  else
    match fault with
    | some error => .error error
    | none => if rootValueLength inode.index.root ≠ emptyRootLength then .error .enotempty else .ok ()

/-- `ntfs_check_unlinkable_dir` -/
def ntfsCheckUnlinkableDir (ino : Nat) (fn : FileName) (fault : Option NameError) : NameM Unit := do
  let inode ← getInode ino
  match ntfsCheckEmptyDir inode fault with
  | .ok _ => pure ()
  | .error error =>
    if error ≠ .enotempty then throw error
    else if inode.linkCount = 1 ∨ (inode.linkCount = 2 ∧ fn.type = .dos) then throw .enotempty
    else pure ()

/-- One name less is counted in the 16 bits of `link_count`, and by the `i_nlink` of a file. -/
def dropLink {ι : Type} (inode : Inode ι) : Inode ι :=
  { inode with
    linkCount := (inode.linkCount + 65535) % 65536
    nlink := if inode.kind = .directory then inode.nlink else inode.nlink - 1 }

/-- One name more is counted. -/
def addLink {ι : Type} (inode : Inode ι) : Inode ι :=
  { inode with
    linkCount := (inode.linkCount + 1) % 65536
    nlink := if inode.kind = .directory then inode.nlink else inode.nlink + 1 }

/-- An inode without names is to be deleted. -/
def settleLinks {ι : Type} (inode : Inode ι) : Inode ι :=
  if inode.linkCount = 0 then
    { inode with
      beingDeleted := true
      nlink := if inode.kind = .directory then inode.nlink - 1 else inode.nlink }
  else inode

/-- How the steps of one round of `ntfs_delete` go. -/
structure RoundCourse where
  search : Option NameError
  check : Option NameError
  indexRemove : Option (Fault DirectoryIndex)
  attrRm : Option (Fault (List FileName))

/-- How the two rounds of `ntfs_delete` go. -/
structure DeleteCourse where
  first : RoundCourse
  second : RoundCourse

/-- One round of `ntfs_delete`. -/
def deleteRound (ino dir : Nat) (fn : FileName) (course : RoundCourse) : NameM Unit := do
  ntfsCheckUnlinkableDir ino fn course.check
  ntfsIndexRemove code dir fn.name course.indexRemove
  ntfsAttrRecordRm ino fn course.attrRm
  modify fun inodes => modifyAt inodes ino dropLink

/-- `ntfs_delete` -/
def ntfsDelete (ino dir : Nat) (name : Uname) (course : DeleteCourse) : NameM Unit := do
  failing course.first.search
  let inode ← getInode ino
  match searchFileName upcase inode.fileNames dir name with
  | none => throw .enoent
  | some (fn, paired) =>
    deleteRound code ino dir fn course.first
    if paired then
      failing course.second.search
      let inode ← getInode ino
      match inode.fileNames.find? fun other => decide (other.type = .win32) with
      | none => throw .enoent
      | some other => deleteRound code ino dir other course.second
    modify fun inodes => modifyAt inodes ino settleLinks

/-- How the steps of `__ntfs_link` go. -/
structure LinkCourse where
  prepare : Option NameError
  indexAdd : Option (Fault DirectoryIndex)
  attrAdd : Option (Fault (List FileName))
  place : Nat
  indexRemove : Option (Fault DirectoryIndex)

/-- `__ntfs_link` -/
def ntfsLinkInner (ino dir : Nat) (name : Uname) (course : LinkCourse) : NameM Unit := do
  let inode ← getInode ino
  let parent ← getInode dir
  if parent.beingDeleted ∨ inode.beingDeleted ∨ inode.linkCount = 0 then throw .enoent
  failing course.prepare
  ntfsIndexAddFilename code dir ⟨name, .posix, ino⟩ course.indexAdd
  tryCatch (ntfsAttrAdd ino ⟨dir, name, .posix⟩ course.place course.attrAdd) fun error => do
    tryCatch (ntfsIndexRemove code dir name course.indexRemove) fun _ => pure ()
    throw error
  modify fun inodes => modifyAt inodes ino addLink

end Steps

end Ttntfs.Vfs
