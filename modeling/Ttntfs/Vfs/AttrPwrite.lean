import Ttntfs.Vfs.PunchHole

/-!
# Writing an attribute through its inode

`ntfs_inode_attr_pwrite` writes bytes into the pages of an attribute that is not resident.
It either leaves the pages dirty, or computes from the page which clusters have the bytes
and writes them to the device itself. `ntfs_inode_attr_pread` reads them from the pages.
-/

namespace Ttntfs.Vfs

open Ttntfs.Ntfs
open CachedFile

/-- `-EPERM`, which `ntfs_enlarge_attribute` returns as `-1`. -/
def codePerm : ErrorCode := ⟨-1, by decide⟩
/-- `-EACCES` -/
def codeAcces : ErrorCode := ⟨-13, by decide⟩

/-- How a write stops before its end. -/
inductive PwriteStop where
  | failed (err : ErrorCode)
  | hangs

/-- Which steps of a write fail, and what the attribute is. A device write of the synchronous
path that fails leaves some bytes of the device as they were. -/
structure PwriteCourse where
  lookup : Option ErrorCode
  encrypted : Bool
  compressed : Bool
  truncateFails : Bool
  lookupAgain : Option ErrorCode
  folio : Nat → Option ErrorCode
  mapRunlist : Option ErrorCode
  lost : Nat → Bool

/-- `ntfs_enlarge_attribute`. The run list is the one that `ntfs_attr_truncate` leaves. -/
def ntfsEnlargeAttribute (f : CachedFile) (course : PwriteCourse) (truncated : List RunlistElement)
    (pos count : Nat) : Except ErrorCode CachedFile :=
  if pos + count ≤ f.initializedSize then .ok f
  else if course.encrypted then .error codeAcces
  else if course.compressed then .error codeOpnotsupp
  else if f.size < pos + count then
    if course.truncateFails then .error codePerm
    else
      unlessFailed course.lookupAgain
        (.ok { f with size := pos + count, rl := truncated, initializedSize := pos + count })
  else .ok { f with initializedSize := pos + count }

/-- A write to the device from an offset within a cluster on. Where there is no cluster the
device refuses it, and elsewhere it may fail; what `submit_bio_wait` returns is dropped. -/
def storeAt (f : CachedFile) (lost : Nat → Bool) (lcn : Int) (off length : Nat) (value : Nat → UInt8) : CachedFile :=
  if 0 ≤ lcn then
    let first := lcn.toNat * f.clusterLength + off
    { f with
      device := fun a => if lost a = false ∧ first ≤ a ∧ a < first + length then value (a - first) else f.device a }
  else f

/-- The loop of the synchronous path over the runs that have the clusters of a page. -/
def syncRuns (f : CachedFile) (lost : Nat → Bool) (bytes : Nat → UInt8) (index vcn lcnCount offset : Nat) :
    Except PwriteStop CachedFile :=
  let rl := rlSeek vcn f.rl
  let lcn := ntfsRlVcnToLcn rl vcn
  let rlLength := (elementAt rl 0).length - (vcn - (elementAt rl 0).vcn)
  let lcnFolioOff := if pageLength < f.clusterLength then index * pageLength % f.clusterLength else 0
  let length := min (min rlLength lcnCount * f.clusterLength) pageLength
  if pageLength < offset + length then .error (.failed codeIo)
  else
    let f := storeAt f lost lcn lcnFolioOff length fun i => bytes (offset + i)
    if rlLength < lcnCount then
      if 0 < rlLength then syncRuns f lost bytes index (vcn + rlLength) (lcnCount - rlLength) (offset + length)
      else .error .hangs
    else .ok f
termination_by lcnCount
decreasing_by
  rename_i more some_cluster
  dsimp only [rl, rlLength] at more some_cluster
  omega

/-- Where in its page a write begins. -/
def folioOffset (pos count : Nat) : Nat := if count = pageLength then 0 else pos % pageLength

/-- How much of a write a page takes. -/
def folioLength (pos count : Nat) : Nat :=
  if count = pageLength then count else min count (pageLength - pos % pageLength)

/-- The page that a write changes. A page that is written as a whole is not read. -/
def pwritePage (f : CachedFile) (count index : Nat) : CachedPage :=
  if count = pageLength then (f.cache index).getD ⟨fun _ => 0, false⟩ else f.folioAt index

/-- The bytes of a page behind a write. -/
def pwriteBytes (f : CachedFile) (pos count : Nat) (buf : Nat → UInt8) (index o : Nat) : UInt8 :=
  if folioOffset pos count ≤ o ∧ o < folioOffset pos count + folioLength pos count then buf (o - folioOffset pos count)
  else (pwritePage f count index).bytes o

/-- A page of `__ntfs_inode_non_resident_attr_pwrite`. -/
def pwriteFolio (f : CachedFile) (course : PwriteCourse) (pos count : Nat) (buf : Nat → UInt8) (sync : Bool)
    (index : Nat) : Except PwriteStop CachedFile :=
  match course.folio index with
  | some err => .error (.failed err)
  | none =>
    let bytes := pwriteBytes f pos count buf index
    if sync then
      let lcnCount := max 1 (folioLength pos count / f.clusterLength)
      let vcn := index * pageLength / f.clusterLength
      let f := f.putPage index ⟨bytes, (pwritePage f count index).dirty⟩
      match course.mapRunlist with
      | some err => .error (.failed err)
      | none => syncRuns f course.lost bytes index vcn lcnCount (folioOffset pos count)
    else .ok (f.putPage index ⟨bytes, true⟩)

theorem folioLength_bounds {pos count : Nat} (some_byte : 0 < count) :
    0 < folioLength pos count ∧ folioLength pos count ≤ count := by
  have bound : pos % pageLength < pageLength := Nat.mod_lt _ (by decide)
  rw [folioLength]
  split <;> omega

/-- The loop of `__ntfs_inode_non_resident_attr_pwrite`. It returns how much it was to write when
it gets to the end. -/
def pwritePages (f : CachedFile) (course : PwriteCourse) (pos count : Nat) (buf : Nat → UInt8) (sync : Bool)
    (index : Nat) : Except PwriteStop CachedFile :=
  if 0 < count then
    match pwriteFolio f course pos count buf sync index with
    | .error stop => .error stop
    | .ok f =>
      pwritePages f course (pos + folioLength pos count) (count - folioLength pos count)
        (fun i => buf (i + folioLength pos count)) sync (index + 1)
  else .ok f
termination_by count
decreasing_by
  have := @folioLength_bounds pos count (by assumption)
  omega

/-- `ntfs_inode_attr_pwrite`, for an attribute that is not resident. It returns its count or an
error. -/
def ntfsInodeAttrPwrite (f : CachedFile) (course : PwriteCourse) (truncated : List RunlistElement) (pos count : Nat)
    (buf : Nat → UInt8) (sync : Bool) : Except PwriteStop CachedFile :=
  match course.lookup with
  | some err => .error (.failed err)
  | none =>
    match ntfsEnlargeAttribute f course truncated pos count with
    | .error err => .error (.failed err)
    | .ok f => pwritePages f course pos count buf sync (pos / pageLength)

/-- The loop of `ntfs_inode_attr_pread`. -/
def preadPages (f : CachedFile) (pos count index : Nat) : List UInt8 :=
  if 0 < count then
    let n := min count (pageLength - pos % pageLength)
    (List.range n).map (fun i => (f.folioAt index).bytes (pos % pageLength + i)) ++
      preadPages f (pos + n) (count - n) (index + 1)
  else []
termination_by count
decreasing_by
  have bound : pos % pageLength < pageLength := Nat.mod_lt _ (by decide)
  omega

/-- `ntfs_inode_attr_pread`, for an attribute that is not resident. -/
def ntfsInodeAttrPread (f : CachedFile) (pos count : Nat) : Except ErrorCode (List UInt8) :=
  if count = 0 then .ok []
  else if f.size < pos then .error codeInval
  else .ok (preadPages f pos (if f.size < pos + count then f.size - pos else count) (pos / pageLength))

/-- The pages are written and dropped. -/
def flushed (f : CachedFile) : CachedFile := (f.writePages 0 (f.size / pageLength + 1)).dropFrom 0

/-- What was written is read back, from the pages and behind them from the device. All other
bytes of the attribute are read as before, and the device is as before where the attribute
has no cluster. -/
structure StoredExactly (f f' : CachedFile) (pos count : Nat) (buf : Nat → UInt8) : Prop where
  cached : ntfsInodeAttrPread f' pos count = .ok ((List.range count).map buf)
  onDisk : ntfsInodeAttrPread (flushed f') pos count = .ok ((List.range count).map buf)
  others : ∀ b < f.size, b < pos ∨ pos + count ≤ b →
    f'.visible b = f.visible b ∧ (flushed f').visible b = f.visible b
  clusters : ∀ a, (∀ b, f'.address b ≠ some a) → f'.device a = f.device a ∧ (flushed f').device a = f.device a

end Ttntfs.Vfs
