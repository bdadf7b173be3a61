import Mathlib.Data.Finset.Basic
import Ttntfs.Ntfs.ReparsePoint

/-!
# The index of reparse points

Every inode with a reparse point has a key in the index `$R` of `$Extend/$Reparse`: the tag of
its value and its own reference. Setting and deleting the value change the attribute and the index
one after the other, and each of these changes can fail. The tree of the index stays outside.
-/

namespace Ttntfs.Ntfs

/-- `struct reparse_index_key`, whose file identifier is the reference of the inode. -/
structure ReparseIndexKey where
  reparseTag : Nat
  fileId : Nat
deriving DecidableEq, Repr

/-- What an inode and the index have of reparse points. -/
structure ReparseState where
  /-- the value of the attribute `$REPARSE_POINT` -/
  point : Option (List UInt8)
  /-- `FILE_ATTR_REPARSE_POINT` in `ni->flags` -/
  flagged : Bool
  /-- `ni->reparse_tag` -/
  tagOfInode : Nat
  /-- the keys of `$R` -/
  index : Finset ReparseIndexKey

/-- What a call returns where it fails. -/
abbrev FailureCode := { code : Int // code < 0 }

/-- `EIO` -/
def reparseEio : Int := 5
/-- `EEXIST` -/
def reparseEexist : Int := 17
/-- `EINVAL` -/
def reparseEinval : Int := 22
/-- `ENOENT` -/
def reparseEnoent : Int := 2
/-- `ENODATA` -/
def reparseEnodata : Int := 61
/-- `EOPNOTSUPP` -/
def reparseEopnotsupp : Int := 95

/-! ## Removing a key -/

/-- How `ntfs_index_rm` ends. One that fails has taken the key out or has not; one that has to
be tried again (`-EAGAIN`) is a failure here. -/
inductive RemovalEnd where
  | removed
  | failed (code : FailureCode) (gone : Bool)

/-- What the callees of `remove_reparse_index` do. -/
structure RemoveCourse where
  /-- the four bytes of the tag are read -/
  tagRead : Bool
  /-- the index is searched without a failure -/
  searched : Bool
  removal : RemovalEnd

/-- The size of an attribute in the `int` that keeps it. -/
def sizeAsInt (size : Nat) : Int := (size : Int).bmod (2 ^ 32)

/-- `remove_reparse_index`: the size of the old value or a failure, and the index. -/
def removeReparseIndex (course : RemoveCourse) (mref : Nat) (old : List UInt8) (index : Finset ReparseIndexKey) :
    Int × Finset ReparseIndexKey :=
  if old.length = 0 then (0, index)
  else if !course.tagRead || old.length < 4 then (-reparseEnodata, index)
  else
    let key : ReparseIndexKey := ⟨reparseTag old, mref⟩
    -- a search that fails is taken for one that finds nothing
    if course.searched && key ∈ index then
      match course.removal with
      | .removed => (sizeAsInt old.length, index.erase key)
      | .failed code gone => (code, if gone then index.erase key else index)
    else (sizeAsInt old.length, index)

/-! ## Setting a value -/

/-- `set_reparse_index`: whether the key has been added, and the index. `ntfs_ie_add` refuses a
key that is there. -/
def setReparseIndex (room : Bool) (mref tag : Nat) (index : Finset ReparseIndexKey) :
    Bool × Finset ReparseIndexKey :=
  if !room || (⟨tag, mref⟩ : ReparseIndexKey) ∈ index then (false, index) else (true, insert ⟨tag, mref⟩ index)

/-- What the callees of `update_reparse_data` do. -/
structure UpdateCourse where
  /-- `ntfs_attr_iget` -/
  opened : Bool
  remove : RemoveCourse
  /-- what a write that fails leaves in the attribute; none for one that succeeds -/
  write : Option (List UInt8)
  /-- `ntfs_ie_add` finds its place and has room for the entry -/
  room : Bool
  /-- `ntfs_attr_rm` takes the attribute away -/
  attrRemoved : Bool

/-- The value of an attribute after a write from its start; the attribute is never cut. -/
def overwritten (value old : List UInt8) : List UInt8 := value ++ old.drop value.length

/-- `update_reparse_data` -/
def updateReparseData (course : UpdateCourse) (mref : Nat) (value : List UInt8) (s : ReparseState) :
    Int × ReparseState :=
  match s.point with
  | none => (-reparseEinval, s)
  | some old =>
    if !course.opened then (-reparseEinval, s)
    else
      let (oldsize, index) := removeReparseIndex course.remove mref old s.index
      if oldsize < 0 then (oldsize, { s with index := index })
      else
        match course.write with
        | some left => (-reparseEio, { s with point := some left, index := index })
        | none =>
          let (added, index) := setReparseIndex course.room mref (reparseTag value) index
          -- the failure to index is logged and not returned
          let point := if !added && oldsize > 0 && course.attrRemoved then none else some (overwritten value old)
          (0, { s with point := point, index := index })

/-- What the callees of `ntfs_set_ntfs_reparse_data` do. -/
structure SetCourse where
  /-- `open_reparse_index` -/
  indexOpened : Bool
  /-- `ntfs_attr_exist` finds an attribute that is there -/
  seen : Bool
  /-- how `ntfs_attr_add` fails and what it leaves then; none where it succeeds -/
  add : Option (FailureCode × Option (List UInt8))
  update : UpdateCourse

/-- The inode of a call. -/
structure ReparseInode where
  /-- `MK_MREF(ni->mft_no, ni->seq_no)` -/
  mref : Nat
  /-- `FILE_ATTRIBUTE_RECALL_ON_OPEN` in `ni->flags` -/
  recallOnOpen : Bool
  /-- `S_ISDIR(VFS_I(ni)->i_mode)` -/
  isDir : Bool
  /-- `vol->major_ver` -/
  majorVer : Nat

/-- Adding the attribute with the header of an empty value. -/
def addReparseAttribute (add : Option (FailureCode × Option (List UInt8))) (tag : Nat) (s : ReparseState) :
    Int × ReparseState :=
  match s.point, add with
  | some _, _ => (-reparseEexist, s)
  | none, some (code, left) => (code, { s with point := left })
  | none, none => (0, { s with point := some (List.replicate reparsePointSize 0), flagged := true, tagOfInode := tag })

/-- `ntfs_set_ntfs_reparse_data` -/
def ntfsSetNtfsReparseData (course : SetCourse) (ni : ReparseInode) (value : List UInt8) (s : ReparseState) :
    Int × ReparseState :=
  -- a value that is too short for its length field is refused whatever was read for it
  if validReparseData ni.recallOnOpen ni.isDir value ≠ some true then (-reparseEinval, s)
  else if !course.indexOpened then (-reparseEinval, s)
  else
    let present := course.seen && s.point.isSome
    if !present && ni.majorVer < 3 then (-reparseEopnotsupp, s)
    else
      let (err, s) := if present then (0, s) else addReparseAttribute course.add (reparseTag value) s
      if err ≠ 0 then (err, s)
      else
        let (err, s) := updateReparseData course.update ni.mref value s
        (err, if err ≠ 0 then { s with flagged := false } else s)

/-! ## Deleting the key -/

/-- What the callees of `ntfs_delete_reparse_index` do. -/
structure DeleteCourse where
  /-- how `ntfs_attr_iget` fails; none where it opens an attribute that is there -/
  iget : Option FailureCode
  /-- `open_reparse_index` -/
  indexOpened : Bool
  remove : RemoveCourse

/-- `ntfs_delete_reparse_index`, which succeeds with the size of the value. -/
def ntfsDeleteReparseIndex (course : DeleteCourse) (mref : Nat) (s : ReparseState) : Int × ReparseState :=
  if !s.flagged then (0, s)
  else
    match s.point, course.iget with
    | none, none => (-reparseEnoent, s)
    | _, some code => (code, s)
    | some old, none =>
      if !course.indexOpened then (0, { s with flagged := false })
      else
        let (err, index) := removeReparseIndex course.remove mref old s.index
        if err < 0 then (err, { s with index := index })
        else (err, { s with flagged := false, index := index })

end Ttntfs.Ntfs
