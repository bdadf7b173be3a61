import Ttntfs.Ntfs.ReparseIndex
import Ttntfs.Vfs.NameCalls

/-!
# The target that `readlink` returns

The target of a link whose name is relative is returned as it has been decoded. One that is
absolute on its volume is led back to the root, with a step up for every directory above the
link, which are counted along the first `$FILE_NAME` attributes.
-/

namespace Ttntfs.Vfs

open Ttntfs.Ntfs

/-- What becomes of an inode on the way to the root: its parent is found, its record cannot be
read, or the inode is not got at all. -/
inductive Visit where
  | read
  | unread
  | failed (code : FailureCode)

/-- A link as it is loaded. -/
structure LinkInode where
  /-- `S_ISLNK(vi->i_mode)` -/
  isLink : Bool
  /-- `ni->target` -/
  target : Option (List UInt8)
  /-- `ni->target_volume_abs` -/
  targetVolumeAbs : Bool
  deriving DecidableEq

/-- The errors of `ntfs_readlink`, its fallback included. -/
inductive LinkError where
  | einval
  | erange
  | iget (code : FailureCode)
  | fallback (error : ReadlinkError)
  deriving DecidableEq

/-- The directories that `link_target` may pass. -/
def linkGuard : Nat := 4096

section Walk

variable (inodes : Inodes) (visit : Nat → Visit) (link : Nat)

/-- The parent of an inode on the way; the link itself is there already. -/
def linkParent (cur : Nat) : Except LinkError (Option Nat) :=
  match visit cur with
  | .read => .ok (parentIno inodes cur)
  | .unread => .ok none
  | .failed code => if cur = link then .ok (parentIno inodes cur) else .error (.iget code)

/-- The loop of `link_target` that counts the directories above a link. -/
def linkDepthFrom : Nat → Nat → Nat → Except LinkError Nat
  | 0, _, depth => .ok depth
  | fuel + 1, cur, depth =>
    if cur = fileRoot then .ok depth
    else
      match linkParent inodes visit link cur with
      | .error error => .error error
      | .ok none => .ok depth
      | .ok (some parent) =>
        if parent = cur then .ok depth
        -- the link itself sits in its parent, which is not counted
        else linkDepthFrom fuel parent (if cur ≠ link then depth + 1 else depth)

/-- The bytes of a step up. -/
def stepUp : List UInt8 := [0x2e, 0x2e, 0x2f]

/-- `link_target`, the string without regard to the room for it. -/
def linkTarget (ni : LinkInode) : Except LinkError (List UInt8) :=
  match ni.target with
  | none => .error .einval
  | some target =>
    if ni.targetVolumeAbs then
      (linkDepthFrom inodes visit link linkGuard link 0).map fun depth =>
        (List.replicate depth stepUp).flatten ++ target
    else .ok target

/-- What `ntfs_readlink` returns: the error, the length and what it has put into the buffer. -/
structure ReadlinkResult where
  error : Option LinkError
  len : Nat
  buf : List UInt8
  deriving DecidableEq

/-- The end of `ntfs_readlink`: a string goes into the buffer where there is one with room. -/
def putTarget (bufsize : Option Nat) (target : List UInt8) : ReadlinkResult :=
  match bufsize with
  | none => ⟨none, target.length, []⟩
  | some size => if size < target.length then ⟨some .erange, target.length, []⟩ else ⟨none, target.length, target⟩

/-- `ntfs_readlink`, by the value of the reparse point that the fallback reads. -/
def ntfsReadlink (ni : LinkInode) (value : Option (List UInt8)) (someMemory : Bool) (bufsize : Option Nat) :
    Option ReadlinkResult :=
  if !ni.isLink then some ⟨some .einval, 0, []⟩
  else if ni.target.isSome then
    match linkTarget inodes visit link ni with
    | .error error => some ⟨some error, 0, []⟩
    | .ok target => some (putTarget bufsize target)
  else
    match value with
    | none => some ⟨some .einval, 0, []⟩
    | some value => (readlinkFallback someMemory value).map fun
      | .error error => ⟨some (.fallback error), 0, []⟩
      | .ok target => putTarget bufsize target

/-- The size that `fill_attr` reports. -/
def linkSize (ni : LinkInode) (iSize : Nat) : Nat :=
  if ni.isLink ∧ ni.target.isSome then
    match linkTarget inodes visit link ni with
    | .error _ => 0
    | .ok target => target.length
  else iSize

end Walk

end Ttntfs.Vfs
