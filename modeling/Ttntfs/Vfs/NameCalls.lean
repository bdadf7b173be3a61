import Ttntfs.Vfs.Namespace

/-!
# The calls that change names

`ntfs_create`, `ntfs_mkdir`, `ntfs_symlink`, `ntfs_link`, `ntfs_unlink`, `ntfs_rmdir` and
`ntfs_rename` of the interface, on a volume that is mounted for writing. Names are given
as C strings and are here what the conversion makes of them, so they hold no NUL. A
refusal that has nothing to do with names, such as that of a volume that was shut down,
and every failure of memory or device before the first change are faults of a call.
-/

namespace Ttntfs.Vfs

open Ttntfs.Ntfs Ttntfs.Library.StatefulSteps

/-- A name that was given as a C string. -/
abbrev CName := { name : Uname // 0 ∉ name }

/-- What the calls read of the volume: how names are compared, and whether those that
Windows does not allow are refused. -/
structure NamePolicy where
  names : NameVolume
  checkWindowsNames : Bool

/-- `NTFS_MAX_NAME_LEN` -/
def ntfsMaxNameLen : Nat := 255

/-- `NTFS_LINK_MAX` -/
def ntfsLinkMax : Nat := 1024

/-- `check_component` -/
def checkComponent (name : Uname) : Except NameError Unit :=
  if name = [] then .error .einval
  else if 47 ∈ name then .error .einval
  else if name = [46] ∨ name = [46, 46] then .error .einval
  else .ok ()

/-- `ntfs_check_bad_char` -/
def ntfsCheckBadChar (name : Uname) : Bool :=
  name.any fun c => c < 0x20 || [0x22, 0x2A, 0x2F, 0x3A, 0x3C, 0x3E, 0x3F, 0x5C, 0x7C].contains c

/-- `aux_name_le`, `con_name_le`, `nul_name_le` and `prn_name_le` -/
def deviceNames : List Uname := [[65, 85, 88], [67, 79, 78], [78, 85, 76], [80, 82, 78]]

/-- `com_name_le` and `lpt_name_le` -/
def portNames : List Uname := [[67, 79, 77], [76, 80, 84]]

/-- `ntfs_check_bad_windows_name` of a volume that checks names. -/
def ntfsCheckBadWindowsName (upcase : Upcase) (name : Uname) : Bool :=
  ntfsCheckBadChar name || name.getLast? = some 32 || name.getLast? = some 46 ||
    ((name.length = 3 || name[3]? = some 46) &&
      deviceNames.any fun device => ntfsAreNamesEqual (name.take 3) device .ignoreCase upcase) ||
    ((name.length = 4 || name[4]? = some 46) &&
      (portNames.any fun port => ntfsAreNamesEqual (name.take 3) port .ignoreCase upcase) &&
      (name[3]?).any fun port => 49 ≤ port && port ≤ 57)

/-- `ntfs_vfs_validate_uname` -/
def ntfsVfsValidateUname (policy : NamePolicy) (name : Uname) : Except NameError Unit :=
  if name = [] then .error .einval
  else if ntfsMaxNameLen < name.length then .error .enametoolong
  else if policy.checkWindowsNames = false then .ok ()
  else if ntfsCheckBadWindowsName policy.names.upcase name then .error .einval
  else .ok ()

/-- A check that has no effect. -/
def checking : Except NameError Unit → NameM Unit
  | .ok _ => pure ()
  | .error error => throw error

section Calls

variable (policy : NamePolicy) (code : IndexCode policy.names.upcase)

/-- What `ntfs_lookup_inode_by_name` finds, as an error of the calls. -/
def lookupIno (index : DirectoryIndex) (name : Uname) : Except NameError Nat :=
  if ntfsMaxNameLen < name.length then .error .enametoolong
  else
    match (ntfsLookupInodeByName policy.names index (maxParentVcn - 1) name).mref with
    | .ok ino => .ok ino
    | .error .enoent => .error .enoent
    | .error .eio => .error .eio

/-- `ntfs_vfs_lookup` -/
def ntfsVfsLookup (dir : Nat) (name : Uname) (fault : Option NameError) : NameM Nat := do
  failing fault
  let parent ← getInode dir
  match lookupIno policy parent.index name with
  | .error error => throw error
  | .ok ino =>
    let _ ← getInode ino
    pure ino

/-- `ntfs_vfs_lookup` of a name that need not be there. -/
def lookupOptional (dir : Nat) (name : Uname) (fault : Option NameError) : NameM (Option Nat) :=
  tryCatch (do
    let ino ← ntfsVfsLookup policy dir name fault
    pure (some ino)) fun error => if error = .enoent then pure none else throw error

/-- A directory that is presented as one. -/
def requireDirectory (dir : Nat) : NameM Unit := do
  let inode ← getInode dir
  if inode.kind ≠ .directory then throw .enotdir

/-- How the steps of `do_create` go, and the free mft record that `__ntfs_create` takes. -/
structure CreateCourse where
  refused : Option NameError
  lookup : Option NameError
  prepare : Option NameError
  ino : Nat
  indexAdd : Option (Fault DirectoryIndex)

/-- The mft record that `__ntfs_create` writes. A symbolic link to a directory has the record
of one. -/
def newInode (kind : FileKind) (dirLink : Bool) (dir : Nat) (name : Uname) : Inode DirectoryIndex where
  kind := kind
  dirRecord := kind = .directory || dirLink
  linkCount := 1
  nlink := 1
  fileNames := [⟨dir, name, .posix⟩]
  index := rootIndex []
  beingDeleted := false

/-- An mft record is taken or freed. -/
def setInode (ino : Nat) (inode : Option (Inode DirectoryIndex)) (inodes : Inodes) : Inodes :=
  fun other => if other = ino then inode else inodes other

/-- `__ntfs_create` -/
def ntfsCreateInner (dir : Nat) (name : Uname) (kind : FileKind) (dirLink : Bool) (course : CreateCourse) :
    NameM Unit := do
  if ((← get) course.ino).isSome then throw .enospc
  let parent ← getInode dir
  if parent.beingDeleted then throw .enoent
  failing course.prepare
  modify (setInode course.ino (some (newInode kind dirLink dir name)))
  tryCatch (ntfsIndexAddFilename code dir ⟨name, .posix, course.ino⟩ course.indexAdd) fun error => do
    modify (setInode course.ino none)
    throw error

/-- `do_create`, with `ntfs_vfs_create` -/
def doCreate (dir : Nat) (name : CName) (kind : FileKind) (dirLink : Bool) (course : CreateCourse) :
    NameM Unit := do
  checking (checkComponent name)
  requireDirectory dir
  failing course.refused
  let found ← lookupOptional policy dir name course.lookup
  if found.isSome then throw .eexist
  checking (ntfsVfsValidateUname policy name)
  ntfsCreateInner policy code dir name kind dirLink course

/-- `ntfs_create` -/
def ntfsCreate (dir : Nat) (name : CName) (course : CreateCourse) : NameM Unit :=
  doCreate policy code dir name .regular false course

/-- `ntfs_mkdir` -/
def ntfsMkdir (dir : Nat) (name : CName) (course : CreateCourse) : NameM Unit :=
  doCreate policy code dir name .directory false course

/-- `ntfs_symlink`, of a target that is a directory of the volume or not. -/
def ntfsSymlink (dir : Nat) (name : CName) (dirLink : Bool) (course : CreateCourse) : NameM Unit :=
  doCreate policy code dir name .symlink dirLink course

/-- How the steps of `ntfs_link` go. -/
structure VfsLinkCourse where
  refused : Option NameError
  lookup : Option NameError
  link : LinkCourse

/-- `ntfs_vfs_link` -/
def ntfsVfsLink (ino dir : Nat) (name : Uname) (course : LinkCourse) : NameM Unit := do
  let inode ← getInode ino
  if inode.kind = .directory ∨ inode.dirRecord = true then throw .eperm
  checking (ntfsVfsValidateUname policy name)
  ntfsLinkInner code ino dir name course

/-- `ntfs_link` -/
def ntfsLink (ino dir : Nat) (name : CName) (course : VfsLinkCourse) : NameM Unit := do
  checking (checkComponent name)
  requireDirectory dir
  let inode ← getInode ino
  if inode.kind = .directory then throw .eperm
  failing course.refused
  if ntfsLinkMax ≤ inode.nlink then throw .emlink
  let found ← lookupOptional policy dir name course.lookup
  if found.isSome then throw .eexist
  ntfsVfsLink policy code ino dir name course.link

/-- How the steps of `do_unlink` go. -/
structure UnlinkCourse where
  refused : Option NameError
  lookup : Option NameError
  prepare : Option NameError
  delete : DeleteCourse

/-- `ntfs_vfs_unlink` -/
def ntfsVfsUnlink (dir : Nat) (name : Uname) (rmdir : Bool) (course : UnlinkCourse) : NameM Unit := do
  let ino ← ntfsVfsLookup policy dir name course.lookup
  let inode ← getInode ino
  if rmdir = true ∧ inode.kind ≠ .directory then throw .enotdir
  if rmdir = false ∧ inode.kind = .directory then throw .eisdir
  failing course.prepare
  ntfsDelete code ino dir name course.delete

/-- `do_unlink` -/
def doUnlink (dir : Nat) (name : CName) (rmdir : Bool) (course : UnlinkCourse) : NameM Unit := do
  checking (checkComponent name)
  requireDirectory dir
  failing course.refused
  ntfsVfsUnlink policy code dir name rmdir course

/-- `ntfs_unlink` -/
def ntfsUnlink (dir : Nat) (name : CName) (course : UnlinkCourse) : NameM Unit :=
  doUnlink policy code dir name false course

/-- `ntfs_rmdir` -/
def ntfsRmdir (dir : Nat) (name : CName) (course : UnlinkCourse) : NameM Unit :=
  doUnlink policy code dir name true course

/-- `ntfs_evict_big_inode` of an inode without names: its mft record is free again. -/
def evict (ino : Nat) : NameM Unit := do
  let inode ← getInode ino
  if inode.beingDeleted then modify (setInode ino none)

/-- How the steps of `__ntfs_vfs_rename` go. -/
structure RenameCourse where
  destCheck : Option NameError
  destDelete : DeleteCourse
  link : LinkCourse
  oldDelete : DeleteCourse
  newDelete : DeleteCourse

/-- The new name is added and the old one deleted, or the new one again if that fails. -/
def moveName (oldDir ino : Nat) (oldName : Uname) (newDir : Nat) (newName : Uname)
    (course : RenameCourse) : NameM Unit := do
  ntfsLinkInner code ino newDir newName course.link
  tryCatch (ntfsDelete code ino oldDir oldName course.oldDelete) fun error => do
    tryCatch (ntfsDelete code ino newDir newName course.newDelete) fun _ => pure ()
    throw error

/-- The destination of a rename is deleted. -/
def deleteTarget (isDir : Bool) (newDir target : Nat) (newName : Uname) (course : RenameCourse) :
    NameM Unit := do
  let inode ← getInode target
  if inode.beingDeleted then throw .enoent
  if isDir then checking (ntfsCheckEmptyDir inode course.destCheck)
  ntfsDelete code target newDir newName course.destDelete

/-- `__ntfs_vfs_rename` -/
def renameInner (oldDir ino : Nat) (oldName : Uname) (newDir : Nat) (target : Option Nat)
    (newName : Uname) (course : RenameCourse) : NameM Unit := do
  let inode ← getInode ino
  let oldParent ← getInode oldDir
  if inode.beingDeleted ∨ oldParent.beingDeleted then throw .enoent
  let newParent ← getInode newDir
  if oldDir ≠ newDir ∧ newParent.beingDeleted then throw .enoent
  match target with
  | some target => deleteTarget policy code (inode.kind = .directory) newDir target newName course
  | none => pure ()
  moveName policy code oldDir ino oldName newDir newName course

/-- `tmp_suffix` -/
def tmpSuffix : Uname := [46, 110, 116, 102, 115, 116, 109, 112]

/-- The temporary name of a rename that changes the case of a name. -/
def tmpName (oldName : Uname) : Uname :=
  oldName.take (min (oldName.length + 8) ntfsMaxNameLen - 8) ++ tmpSuffix

/-- How the steps of `ntfs_rename` go: those before the first change, and those of the calls
of `__ntfs_vfs_rename`. -/
structure VfsRenameCourse where
  refused : Option NameError
  lookupOld : Option NameError
  lookupNew : Option NameError
  prepare : Option NameError
  plain : RenameCourse
  toTmp : RenameCourse
  fromTmp : RenameCourse

/-- `ntfs_vfs_rename` -/
def ntfsVfsRename (oldDir : Nat) (oldName : Uname) (newDir : Nat) (newName : Uname)
    (course : VfsRenameCourse) : NameM Unit := do
  let ino ← ntfsVfsLookup policy oldDir oldName course.lookupOld
  let target ← lookupOptional policy newDir newName course.lookupNew
  checking (ntfsVfsValidateUname policy newName)
  failing course.prepare
  if target = some ino then
    if oldDir ≠ newDir ∨ ntfsAreNamesEqual oldName newName .caseSensitive policy.names.upcase then
      pure ()
    else if policy.names.caseSensitive = false then
      renameInner policy code oldDir ino oldName oldDir none (tmpName oldName) course.toTmp
      renameInner policy code oldDir ino (tmpName oldName) oldDir none newName course.fromTmp
    else renameInner policy code oldDir ino oldName newDir none newName course.plain
  else
    match target with
    | none => renameInner policy code oldDir ino oldName newDir none newName course.plain
    | some target =>
      let inode ← getInode ino
      let other ← getInode target
      if inode.kind = .directory ∧ other.kind ≠ .directory then throw .enotdir
      if inode.kind ≠ .directory ∧ other.kind = .directory then throw .eisdir
      renameInner policy code oldDir ino oldName newDir (some target) newName course.plain

/-- `ntfs_vfs_parent_ino`: the directory of the first `$FILE_NAME`. -/
def parentIno (inodes : Inodes) (ino : Nat) : Option Nat :=
  (inodes ino).bind fun inode => inode.fileNames.head?.map FileName.parent

/-- The loop of `is_subdir`. -/
def isSubdirFrom (inodes : Inodes) (ancestor : Nat) : Nat → Nat → Except NameError Bool
  | 0, _ => .error .eloop
  | fuel + 1, cur =>
    if cur = ancestor then .ok true
    else if cur = fileRoot then .ok false
    else
      match parentIno inodes cur with
      | none => .error .eio
      | some parent => if parent = cur then .ok false else isSubdirFrom inodes ancestor fuel parent

/-- `is_subdir` -/
def isSubdir (inodes : Inodes) (dir ancestor : Nat) : Except NameError Bool :=
  isSubdirFrom inodes ancestor 4096 dir

/-- A directory must not be moved into its own subtree. -/
def checkSubtree (oldDir : Nat) (oldName : Uname) (newDir : Nat) (fault : Option NameError) :
    NameM Unit := do
  let ino ← ntfsVfsLookup policy oldDir oldName fault
  let inode ← getInode ino
  if inode.kind = .directory then
    match isSubdir (← get) newDir ino with
    | .error error => throw error
    | .ok true => throw .einval
    | .ok false => pure ()

/-- `ntfs_rename` -/
def ntfsRename (oldDir : Nat) (oldName : CName) (newDir : Nat) (newName : CName)
    (course : VfsRenameCourse) : NameM Unit := do
  checking (checkComponent oldName)
  checking (checkComponent newName)
  requireDirectory oldDir
  requireDirectory newDir
  failing course.refused
  if oldDir ≠ newDir then checkSubtree policy oldDir oldName newDir course.lookupOld
  ntfsVfsRename policy code oldDir oldName newDir newName course

end Calls

end Ttntfs.Vfs
