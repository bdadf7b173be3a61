import Ttntfs.Ntfs.MappingPairs
import Ttntfs.Ntfs.RunMaps

/-!
# Offsets of the file calls

The callers of `ntfs_read`, `ntfs_write`, `ntfs_fallocate` and `ntfs_seek_data_hole` pass
unsigned 64-bit offsets and counts, and the driver computes with signed ones. This is what
it checks of them, and which offsets it derives from a request that it serves: ends, pages
and clusters around an offset, compression blocks. What the calls do to the data is left to
the functions they call, each of which may fail.
-/

namespace Ttntfs.Vfs

open Ttntfs.Ntfs Ttntfs.Library.SignedBytes

/-- An error of a file call. -/
inductive FileError where
  | einval | eisdir | eio | erofs | eopnotsupp | efbig | enospc | enxio | enoent | enomem | eacces
  | eexist | enoattr | enametoolong
  deriving DecidableEq

/-- The type in the mode of an inode. -/
inductive FileType where
  | regular | directory | symlink | special
  deriving DecidableEq

/-- `PAGE_SIZE` -/
def pageBytes : Int := 4096

/-- `LCN_ENOMEM` -/
def lcnEnomem : Int := -5
/-- `LCN_EIO` -/
def lcnEio : Int := -6

/-- `s_maxbytes`, which is `MAX_LFS_FILESIZE` -/
def sMaxbytes : Int := 0x7fffffffffffffff

/-- The value of an `int` after an operation that may wrap. -/
def s32 (n : Int) : Int := n.bmod (2 ^ 32)

/-- The exact value of `round_up`. -/
def roundUp (n unit : Int) : Int := (n + unit - 1) / unit * unit

/-- `round_down` -/
def roundDown (n unit : Int) : Int := n / unit * unit

/-- An open stream: its inode, what the volume says about it and the run list of a stream
that is not resident. While no call is under way `i_size`, the data size and the length of
a resident value are the same. -/
structure OpenFile where
  type : FileType
  shutdown : Bool
  readOnly : Bool
  encrypted : Bool
  compressed : Bool
  nonResident : Bool
  /-- The inode is that of a named stream, or its attribute is not `AT_DATA`. -/
  otherAttribute : Bool
  size : Nat
  initializedSize : Nat
  allocatedSize : Nat
  clusterBits : Nat
  blockBits : Nat
  mftRecordSize : Nat
  noMftZone : Bool
  freeClusters : Int
  dirtyClusters : Int
  rl : List RunlistElement
  cluster_bits : clusterBits ≤ 21
  block_bits : blockBits ≤ 30
  record_small : mftRecordSize < 2 ^ 32
  size_allocated : size ≤ allocatedSize
  initialized_allocated : initializedSize ≤ allocatedSize
  allocated_word : allocatedSize < 2 ^ 63
  resident_small : nonResident = false → allocatedSize < 2 ^ 32
  runs_follow : nonResident = true → RlFrom 0 rl
  runs_allocated : nonResident = true → rlClusters rl * 2 ^ clusterBits = allocatedSize

namespace OpenFile

/-- The cluster size of the volume. -/
def clusterSize (f : OpenFile) : Int := 2 ^ f.clusterBits

/-- The size of a compression block of the stream. -/
def blockSize (f : OpenFile) : Int := 2 ^ f.blockBits

theorem clusterSize_pos (f : OpenFile) : 0 < f.clusterSize := by
  simp [clusterSize]

theorem blockSize_pos (f : OpenFile) : 0 < f.blockSize := by
  simp [blockSize]

theorem clusterSize_le (f : OpenFile) : f.clusterSize ≤ 2 ^ 21 :=
  pow_le_pow_right₀ (by decide) f.cluster_bits

theorem blockSize_le (f : OpenFile) : f.blockSize ≤ 2 ^ 30 :=
  pow_le_pow_right₀ (by decide) f.block_bits

/-- `ntfs_bytes_to_cluster` -/
def bytesToCluster (f : OpenFile) (bytes : Int) : Int := bytes / f.clusterSize

end OpenFile

/-- An offset that the code computes: its exact value, and the width of the signed word in
which it is kept. -/
structure Computed where
  value : Int
  width : Nat
  deriving DecidableEq

/-- The word holds the value, and it is no negative one. -/
def Computed.InRange (computed : Computed) : Prop :=
  0 ≤ computed.value ∧ computed.value < 2 ^ (computed.width - 1)

/-- An offset that is kept in a `loff_t`. -/
def offset64 (value : Int) : Computed := ⟨value, 64⟩

/-- An offset that is kept in an `int`. -/
def offset32 (value : Int) : Computed := ⟨value, 32⟩

/-- How a call that found no error ends: what it returns, and the offsets it computed. -/
structure Done where
  answer : Int
  offsets : List Computed
  deriving DecidableEq

/-- How the functions answer that the file calls make use of. -/
structure Callees where
  /-- Look up a resident value; `true` when it has been converted in the meantime (`-EAGAIN`). -/
  lookupResident : Except FileError Bool
  /-- Copy a range through the page cache. -/
  cachedTransfer : (pos len : Int) → Except FileError Unit
  /-- Copy a range from or to the device. -/
  directTransfer : (pos len : Int) → Except FileError Unit
  /-- Resize the attribute; `true` when a resident one stays resident. -/
  resize : (newsize prealloc : Int) → Except FileError Bool
  /-- Map a vcn that is not negative and allocate clusters under it; the number of clusters. -/
  mapCluster : (vcn count : Int) → Except FileError Int
  zeroRange : (pos len : Int) → Except FileError Unit
  setInitializedSize : Int → Except FileError Unit
  /-- Read the pages of a compression block, from a page index on. -/
  readPages : Int → Except FileError Unit
  /-- `ntfs_write_cb` -/
  writeBlock : Int → Except FileError Unit
  /-- Map the whole run list and mark the volume dirty. -/
  prepare : Except FileError Unit
  /-- Allocate the clusters between two vcns that are not negative. -/
  allocate : (first last : Int) → Except FileError Unit
  /-- Map the part of the run list with a vcn, if that fails. -/
  mapFailure : Int → Option FileError

section Sizes

variable (f : OpenFile) (callees : Callees)

/-- The check of `ntfs_non_resident_attr_expand` on the first cluster behind the allocation. -/
def tooBig (newsize prealloc : Int) : Bool :=
  decide (f.bytesToCluster (s64 ((if prealloc ≠ 0 then prealloc else newsize) + f.clusterSize - 1)) < 0)

/-- `ntfs_attr_expand` and `ntfs_attr_truncate` for a stream that grows. A resident value
stays in its record only if it is shorter than that. The result tells whether it does. -/
def growAttr (newsize prealloc : Int) : Except FileError Bool :=
  if newsize < 0 then .error .einval
  else if f.encrypted then .error .eacces
  else do
    let stays ← callees.resize newsize prealloc
    if f.nonResident = false ∧ stays = true ∧ newsize < f.mftRecordSize then .ok true
    else if tooBig f newsize prealloc then .error .efbig
    else .ok false

/-- A stream that has grown, or one that is long enough and stays as it is. -/
def growTo (newsize prealloc : Int) : Except FileError Bool :=
  if (f.size : Int) < newsize then growAttr f callees newsize prealloc else .ok (!f.nonResident)

end Sizes

/-- What is done in one case only. -/
def onlyIf (case : Prop) [Decidable case] (action : Except FileError Unit) : Except FileError Unit :=
  if case then action else .ok ()

section Transfers

variable (f : OpenFile) (callees : Callees)

/-- Where the pages that are transferred directly begin and end. -/
def transferSplit (pos stop : Int) : Int × Int :=
  let headEnd := min stop (s64 (roundUp pos pageBytes))
  (headEnd, max headEnd (roundDown stop pageBytes))

/-- The three parts of a transfer: the edges through the cache, the pages between from or to
the device. -/
def transferParts (pos stop : Int) : Except FileError Unit := do
  let (headEnd, midEnd) := transferSplit pos stop
  callees.cachedTransfer pos (headEnd - pos)
  onlyIf (headEnd < midEnd) (callees.directTransfer headEnd (midEnd - headEnd))
  onlyIf (midEnd < stop) (callees.cachedTransfer midEnd (stop - midEnd))

/-- The offsets of `transferSplit`. -/
def splitOffsets (pos stop : Int) : List Computed :=
  [offset64 (roundUp pos pageBytes), offset64 (roundDown stop pageBytes)]

/-- The bytes behind a position, as a `size_t`. -/
def bytesLeft (pos : Int) : Nat := ((f.size - pos) % 2 ^ 64).toNat

/-- `resident_read` -/
def residentRead (count : Nat) (pos : Int) : Except FileError (Option Done) := do
  if ← callees.lookupResident then return none
  else if (f.size : Int) ≤ pos then return some ⟨0, []⟩
  else return some ⟨s64 (min count (bytesLeft f pos)), []⟩

/-- `do_read` behind the resident case. -/
def nonResidentRead (count : Nat) (pos stop : Int) : Except FileError Done := do
  if f.compressed then
    callees.cachedTransfer pos count
    return ⟨s64 count, [offset64 stop]⟩
  else
    let dataEnd := min stop f.initializedSize
    onlyIf (pos < dataEnd) (transferParts callees pos dataEnd)
    return ⟨s64 count, offset64 stop :: if pos < dataEnd then splitOffsets pos dataEnd else []⟩

/-- `do_read` -/
def doRead (count : Nat) (pos : Int) : Except FileError Done :=
  if (f.size : Int) ≤ pos then .ok ⟨0, []⟩
  else
    let count := min count (bytesLeft f pos)
    let stop := s64 (pos + count)
    if f.encrypted then .error .eopnotsupp
    else if f.nonResident then nonResidentRead f callees count pos stop
    else do
      match ← residentRead f callees count pos with
      | some done => return done
      | none => nonResidentRead f callees count pos stop

/-- `ntfs_attr_map_cluster`. No run holds a negative vcn. -/
def ntfsAttrMapCluster (vcn count : Int) : Except FileError Int :=
  if vcn < 0 then .error .eio else callees.mapCluster vcn count

/-- The loop of `alloc_range`. -/
def allocFrom (vcn endVcn : Int) : Except FileError Unit :=
  if vcn < endVcn then
    match ntfsAttrMapCluster callees vcn (endVcn - vcn) with
    | .error err => .error err
    | .ok count => if count ≤ 0 then .error .eio else allocFrom (vcn + count) endVcn
  else .ok ()
termination_by (endVcn - vcn).toNat
decreasing_by omega

/-- `alloc_range` -/
def allocRange (pos : Int) (len : Nat) : Except FileError Unit :=
  allocFrom callees (f.bytesToCluster pos) (f.bytesToCluster (s64 (pos + len - 1)) + 1)

/-- The cluster numbers of `alloc_range`. -/
def clusterOffsets (pos : Int) (len : Int) : List Computed :=
  [offset64 (f.bytesToCluster pos), offset64 (f.bytesToCluster (pos + len - 1) + 1)]

/-- `resident_write` into a value of a length. -/
def residentWrite (length : Int) (count : Nat) (pos : Int) : Except FileError (Option Done) := do
  if ← callees.lookupResident then return none
  else if length < (pos + count) % 2 ^ 64 then .error .eio
  else return some ⟨s64 count, [offset64 (pos + count)]⟩

/-- `do_write` behind the resident case. -/
def nonResidentWrite (count : Nat) (pos stop : Int) : Except FileError Done := do
  allocRange f callees pos count
  onlyIf ((f.initializedSize : Int) < pos) (callees.zeroRange f.initializedSize (pos - f.initializedSize))
  transferParts callees pos stop
  onlyIf ((f.initializedSize : Int) < stop) (callees.setInitializedSize stop)
  return ⟨s64 count, offset64 (pos + count) :: (clusterOffsets f pos count ++ splitOffsets pos stop)⟩

/-- The loop of `ntfs_compress_write`, with the offsets of the blocks. They are kept in an
`int`, from which the index of the first page is made. -/
def compressBlocks (count : Nat) (pos : Int) : Except FileError (List Computed) :=
  if count = 0 then .ok []
  else do
    let bytes := min (f.blockSize - pos % f.blockSize).toNat count
    let cbOff := roundDown pos f.blockSize
    callees.readPages (s32 cbOff / pageBytes)
    callees.writeBlock pos
    let others ← compressBlocks (count - bytes) (pos + bytes)
    return offset32 cbOff :: others
termination_by count
decreasing_by
  have positive := f.blockSize_pos
  have below := Int.emod_lt_of_pos pos positive
  omega

/-- `ntfs_compress_write` -/
def ntfsCompressWrite (count : Nat) (pos : Int) : Except FileError Done := do
  let stop := s64 (pos + count)
  let _ ← growTo f callees stop (s64 (roundUp stop f.blockSize))
  let blocks ← compressBlocks f callees count pos
  onlyIf ((f.initializedSize : Int) < s64 (pos + count)) (callees.setInitializedSize (s64 (pos + count)))
  let expanded := if (f.size : Int) < stop then [offset64 (roundUp stop f.blockSize)] else []
  return ⟨s64 count, offset64 (pos + count) :: (expanded ++ blocks)⟩

/-- A write goes through the compression blocks. -/
def WritesBlocks : Prop := f.nonResident = true ∧ f.compressed = true

instance : Decidable (WritesBlocks f) := inferInstanceAs (Decidable (_ ∧ _))

/-- `do_write` -/
def doWrite (count : Nat) (pos : Int) : Except FileError Done :=
  if WritesBlocks f then ntfsCompressWrite f callees count pos
  else do
    let stop := s64 (pos + count)
    let resident ← growTo f callees stop 0
    if resident then
      match ← residentWrite callees (max f.size stop) count pos with
      | some done => return done
      | none => nonResidentWrite f callees count pos stop
    else nonResidentWrite f callees count pos stop

end Transfers

section Allocation

variable (f : OpenFile) (callees : Callees)

/-- The loops of `ntfs_attr_fallocate`. No run holds a negative vcn. -/
def allocateRuns (first last : Int) : Except FileError Unit :=
  if first < last then
    if first < 0 then .error .eio else callees.allocate first last
  else .ok ()

/-- `ntfs_attr_fallocate`. The result tells whether the stream is resident at the end. -/
def ntfsAttrFallocate (start byteLen : Int) : Except FileError (Bool × List Computed) :=
  if f.otherAttribute then .error .einval
  else do
    let stop := s64 (start + byteLen)
    let resident ← growTo f callees stop 0
    if resident then return (true, [])
    else
      let vcnEnd := f.bytesToCluster (s64 (roundUp stop f.clusterSize))
      allocateRuns callees (f.bytesToCluster start) vcnEnd
      return (false, [offset64 (roundUp stop f.clusterSize), offset64 (roundUp f.initializedSize f.clusterSize)])

/-- The check of `ntfs_allocate_range` for space. -/
def shortOfSpace (offset len : Int) : Bool :=
  let startVcn := f.bytesToCluster offset
  let endVcn := f.bytesToCluster (s64 (offset + len - 1)) + 1
  let allocated := f.bytesToCluster f.allocatedSize
  let needSpace := if startVcn < allocated then endVcn - allocated else endVcn - startVcn
  decide (0 < needSpace ∧ f.freeClusters - f.dirtyClusters < needSpace)

/-- `ntfs_allocate_range` -/
def ntfsAllocateRange (offset len : Int) : Except FileError (Bool × List Computed) := do
  let newSize := max (f.size : Int) (s64 (offset + len))
  if newSize < 0 then .error .einval
  else if sMaxbytes < newSize then .error .efbig
  else if shortOfSpace f offset len then .error .enospc
  else
    let (resident, offsets) ← ntfsAttrFallocate f callees offset len
    return (resident, offset64 (offset + len) :: (clusterOffsets f offset len ++ offsets))

/-- Whether `ntfs_vfs_fallocate` zeroes the rest of the page in which the stream ended. -/
def zeroesTail (keepSize : Bool) (offset : Int) : Bool :=
  decide (keepSize = false ∧ (f.size : Int) < offset ∧ (f.size : Int) % pageBytes ≠ 0)

/-- `ntfs_vfs_fallocate` in the two modes in which `ntfs_fallocate` calls it. -/
def ntfsVfsFallocate (keepSize : Bool) (offset len : Int) : Except FileError Done :=
  if f.shutdown then .error .eio
  else if f.readOnly then .error .erofs
  else if f.type ≠ .regular then .error .einval
  else if f.noMftZone then .error .enospc
  else do
    callees.prepare
    if f.compressed ∨ f.encrypted then .error .eopnotsupp
    else
      let (resident, offsets) ← ntfsAllocateRange f callees offset len
      if resident = false ∧ zeroesTail f keepSize offset then
        let tail := s64 (roundUp f.size pageBytes) - f.size
        callees.zeroRange f.size (min tail (offset - f.size))
        return ⟨0, offset64 (roundUp f.size pageBytes) :: offsets⟩
      else return ⟨0, offsets⟩

end Allocation

section Seeking

variable (f : OpenFile) (callees : Callees)

/-- `ntfs_attr_vcn_to_lcn_nolock` -/
def attrVcnToLcn (vcn : Int) : Int :=
  match callees.mapFailure vcn with
  | some .enoent => lcnEnoent
  | some .enomem => lcnEnomem
  | some _ => lcnEio
  | none => if vcn < 0 then lcnEnoent else ntfsRlVcnToLcn f.rl vcn.toNat

/-- Where the run with a vcn ends, as `__ntfs_attr_find_vcn_nolock` finds it. -/
def runEnd (vcn : Int) : Int :=
  match f.rl.find? fun run => Holds run vcn.toNat with
  | some run => run.vcn + run.length
  | none => vcn + 1

variable {f}

theorem runs_end {start : Nat} {rl : List RunlistElement} (valid : RlFrom start rl) {run : RunlistElement}
    (listed : run ∈ rl) : run.vcn + run.length ≤ start + rlClusters rl := by
  induction valid with
  | terminator first ends negative =>
    obtain rfl := List.mem_singleton.mp listed
    simp [rlClusters, first]
  | @run element rest start first some_cluster others ih =>
    rw [rlClusters_cons]
    rcases List.mem_cons.mp listed with rfl | behind
    · omega
    · have within := ih behind
      omega

/-- A vcn of the stream lies in a run, which ends within the allocation. -/
theorem runEnd_bounds (stored : f.nonResident = true) {pos : Int} (lower : 0 ≤ pos) (inside : pos < f.size) :
    f.bytesToCluster pos < runEnd f (f.bytesToCluster pos) ∧
      runEnd f (f.bytesToCluster pos) * f.clusterSize ≤ f.allocatedSize := by
  have valid := f.runs_follow stored
  have size := f.clusterSize_pos
  have whole : (rlClusters f.rl : Int) * f.clusterSize = f.allocatedSize := by
    rw [← f.runs_allocated stored]
    push_cast [OpenFile.clusterSize]
    rfl
  have allocated := f.size_allocated
  have first : 0 ≤ f.bytesToCluster pos := Int.ediv_nonneg lower size.le
  have last : f.bytesToCluster pos < rlClusters f.rl :=
    Int.ediv_lt_of_lt_mul size (by omega)
  obtain ⟨run, rest, _, _, below, above, suffix, _, _⟩ :=
    valid.seek_inside (Nat.zero_le _) (by omega : (f.bytesToCluster pos).toNat < 0 + rlClusters f.rl)
  obtain ⟨found, search⟩ : ∃ found, f.rl.find? (fun run => Holds run (f.bytesToCluster pos).toNat) = some found := by
    rw [← Option.isSome_iff_exists, List.find?_isSome]
    exact ⟨run, suffix.subset (List.mem_cons_self ..), decide_eq_true ⟨below, above⟩⟩
  have holds : Holds found (f.bytesToCluster pos).toNat := by
    simpa using List.find?_some search
  have within := runs_end valid (List.mem_of_find?_eq_some search)
  rw [runEnd, search]
  constructor
  · have := holds.2
    push_cast
    omega
  · calc ((found.vcn : Int) + found.length) * f.clusterSize
        ≤ rlClusters f.rl * f.clusterSize := Int.mul_le_mul_of_nonneg_right (by omega) size.le
      _ = f.allocatedSize := whole

theorem seek_progress (stored : f.nonResident = true) {pos : Int} (inside : pos < f.size)
    (found : lcnHole ≤ attrVcnToLcn f callees (f.bytesToCluster pos)) :
    0 ≤ pos ∧ pos < s64 (runEnd f (f.bytesToCluster pos) * f.clusterSize) := by
  have size := f.clusterSize_pos
  have lower : 0 ≤ pos := by
    by_contra negative
    have before : f.bytesToCluster pos < 0 := Int.ediv_neg_of_neg_of_pos (by omega) size
    simp only [attrVcnToLcn, if_pos before] at found
    split at found <;> revert found <;> decide
  obtain ⟨behind, within⟩ := runEnd_bounds stored lower inside
  have word := f.allocated_word
  have next : pos < runEnd f (f.bytesToCluster pos) * f.clusterSize :=
    (Int.ediv_lt_iff_lt_mul size).mp behind
  rw [s64_of_range ⟨by omega, by omega⟩]
  exact ⟨lower, next⟩

variable (f)

/-- The loop of `ntfs_seek_data_hole`, with the offsets to which it comes. -/
def seekRuns (stored : f.nonResident = true) (wantHole : Bool) (pos : Int) : Except FileError Done :=
  if inside : pos < f.size then
    let lcn := attrVcnToLcn f callees (f.bytesToCluster pos)
    if lost : lcn < lcnHole ∧ lcn ≠ lcnEnoent then .error .eio
    else if decide (0 ≤ lcn ∨ lcn = lcnDelalloc) ≠ wantHole then .ok ⟨0, [offset64 pos]⟩
    else if behind : lcn = lcnEnoent then
      if wantHole then .ok ⟨0, [offset64 f.size]⟩ else .error .enxio
    else
      have found : lcnHole ≤ attrVcnToLcn f callees (f.bytesToCluster pos) :=
        Int.not_lt.mp fun below => lost ⟨below, behind⟩
      have := seek_progress callees stored inside found
      let next := runEnd f (f.bytesToCluster pos) * f.clusterSize
      do
        let done ← seekRuns stored wantHole (s64 next)
        return ⟨done.answer, offset64 next :: done.offsets⟩
  else if wantHole then .ok ⟨0, [offset64 f.size]⟩
  else .error .enxio
termination_by (f.size - pos).toNat
decreasing_by omega

end Seeking

section Calls

variable (f : OpenFile) (callees : Callees)

/-- The value that an unsigned argument has as a `loff_t`. -/
def loff (offset : UInt64) : Int := s64 offset.toNat

/-- `ntfs_read` -/
def ntfsRead (buffer : Bool) (count offset : UInt64) : Except FileError Done :=
  if buffer = false ∧ count ≠ 0 then .error .einval
  else if f.type = .directory then .error .eisdir
  else if f.type = .symlink then .error .einval
  else if f.shutdown then .error .eio
  else if count = 0 then .ok ⟨0, []⟩
  else doRead f callees count.toNat (loff offset)

/-- `ntfs_write` -/
def ntfsWrite (buffer : Bool) (count offset : UInt64) : Except FileError Done :=
  if buffer = false ∧ count ≠ 0 then .error .einval
  else if f.type = .directory then .error .eisdir
  else if f.type = .symlink then .error .einval
  else if f.shutdown then .error .eio
  else if f.readOnly then .error .erofs
  else if f.encrypted then .error .eopnotsupp
  else if count = 0 then .ok ⟨0, []⟩
  else if sMaxbytes < (offset + count).toNat then .error .efbig
  else doWrite f callees count.toNat (loff offset)

/-- `ntfs_fallocate` -/
def ntfsFallocate (offset len : UInt64) (keepSize : Bool) : Except FileError Done :=
  if len = 0 then .ok ⟨0, []⟩
  else if sMaxbytes < (offset + len).toNat then .error .efbig
  else ntfsVfsFallocate f callees keepSize (loff offset) (loff len)

/-- `ntfs_seek_data_hole` -/
def ntfsSeekDataHole (offset : UInt64) (wantHole : Bool) : Except FileError Done :=
  if (f.size : Int) ≤ loff offset then .error .enxio
  else if stored : f.nonResident = true ∧ f.compressed = false then
    seekRuns f callees stored.1 wantHole (loff offset)
  else .ok ⟨0, [offset64 (if wantHole then f.size else loff offset)]⟩

end Calls

/-- A request to one of the four calls. -/
inductive FileRequest where
  | read (buffer : Bool) (count offset : UInt64)
  | write (buffer : Bool) (count offset : UInt64)
  | fallocate (offset len : UInt64) (keepSize : Bool)
  | seekDataHole (offset : UInt64) (wantHole : Bool)

/-- The offset of a request. -/
def FileRequest.offset : FileRequest → UInt64
  | read _ _ offset => offset
  | write _ _ offset => offset
  | fallocate offset _ _ => offset
  | seekDataHole offset _ => offset

/-- The number of bytes of a request; a search has none. -/
def FileRequest.count : FileRequest → UInt64
  | read _ count _ => count
  | write _ count _ => count
  | fallocate _ len _ => len
  | seekDataHole _ _ => 0

/-- What the call of a request does. -/
def FileRequest.serve (f : OpenFile) (callees : Callees) : FileRequest → Except FileError Done
  | read buffer count offset => ntfsRead f callees buffer count offset
  | write buffer count offset => ntfsWrite f callees buffer count offset
  | fallocate offset len keepSize => ntfsFallocate f callees offset len keepSize
  | seekDataHole offset wantHole => ntfsSeekDataHole f callees offset wantHole

end Ttntfs.Vfs
