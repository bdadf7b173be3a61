import Ttntfs.Ntfs.LcnBitmap

/-!
# Writing an inode

`__ntfs_write_inode` brings the mapping pairs up to date, then the standard information and
the file name, and writes the base record and the extent records that are dirty. Its steps
share one error variable. Some of them give it a new value whatever it holds, so the errors
of earlier steps are forgotten, and the caller takes the inode for written.

The bytes of the records stay outside: a record that is written is taken for what the inode
holds, and a transfer for what the device answers. Which steps fail is given.
-/

namespace Ttntfs.Vfs

open Ttntfs.Ntfs

/-- What the transfer of one cluster of a record comes to: whether the bio takes the folio, the
error of the transfer, and that of `ntfs_sync_mft_mirror`, which follows each transfer that is
not waited for. -/
structure ChunkWrite where
  added : Bool
  submitted : Option ErrorCode
  mirror : Option ErrorCode

/-- What writing a record comes to: the error of `pre_write_mst_fixup`, the transfers, whether the
record has a copy in the mirror, and the error of `ntfs_sync_mft_mirror` behind them. -/
structure RecordWrite where
  fixup : Option ErrorCode
  chunks : List ChunkWrite
  mirrored : Bool
  mirror : Option ErrorCode

/-- A record in memory: `NInoDirty`, and whether the device has its contents. -/
structure RecordState where
  dirty : Bool
  stored : Bool
deriving DecidableEq

/-- The loop over the clusters of a record, with its error and whether it ran to its end. -/
def submitChunks (sync mirrored : Bool) : List ChunkWrite → Option ErrorCode → Option ErrorCode × Bool
  | [], err => (err, true)
  | chunk :: rest, err =>
    if ¬ chunk.added then (some codeIo, false)
    else
      let err := if ¬ sync ∧ mirrored then err.or chunk.mirror else err
      -- Nobody asks for the status of a transfer that is not waited for.
      let err := if sync then err.or chunk.submitted else err
      submitChunks sync mirrored rest err

/-- The error that `write_mft_record_nolock` has at its end for a record that was dirty. -/
def RecordWrite.failure (write : RecordWrite) (sync : Bool) : Option ErrorCode :=
  match write.fixup with
  | some err => some err
  | none =>
    match submitChunks sync write.mirrored write.chunks none with
    | (err, false) => err
    | (err, true) => if sync ∧ write.mirrored then err.or write.mirror else err

/-- Every transfer of the record has reached the device. -/
def RecordWrite.transferred (write : RecordWrite) : Bool :=
  write.fixup.isNone && write.chunks.all fun chunk => chunk.added && chunk.submitted.isNone

/-- `write_mft_record_nolock`: its result, the record and whether the volume gets errors. -/
def writeMftRecordNolock (sync : Bool) (write : RecordWrite) (record : RecordState) :
    Option ErrorCode × RecordState × Bool :=
  if ¬ record.dirty then (none, record, false)
  else
    match write.failure sync with
    | none => (none, ⟨false, write.transferred⟩, false)
    | some err =>
      if err = codeNomem then (none, ⟨true, write.transferred⟩, false)
      else (some err, ⟨false, write.transferred⟩, true)

/-- An extent record as the writing finds it, with the errors of `ntfs_get_block_mft_record` and
`map_mft_record` and what writing it comes to. -/
structure ExtentWrite where
  record : RecordState
  block : Option ErrorCode
  map : Option ErrorCode
  write : RecordWrite

/-- What `ntfs_attr_update_mapping_pairs` comes to: its error and what the mapping pairs of the
records decode to behind it. -/
structure PairsUpdate where
  err : Option ErrorCode
  pairs : List RunlistElement

/-- An inode as `__ntfs_write_inode` finds it and what its steps come to. The records are as the
mapping pairs, the standard information and the file name leave them. -/
structure InodeWrite where
  shutdown : Bool
  /-- `NInoAttr(ni) || ni->nr_extents == -1` -/
  attached : Bool
  mapRecord : Option ErrorCode
  nonResident : Bool
  runlistDirty : Bool
  runlist : List RunlistElement
  pairs : List RunlistElement
  update : PairsUpdate
  standardInformation : Option ErrorCode
  active : Bool
  fileNameDirty : Bool
  base : RecordState
  baseBlock : Option ErrorCode
  baseWrite : RecordWrite
  extents : List ExtentWrite
  /-- The mapping pairs describe a run list that is not dirty. -/
  described : runlistDirty = false → pairs = runlist
  /-- An update that succeeds describes the run list. -/
  updated : update.err = none → update.pairs = runlist

/-- The inode behind the call. -/
structure InodeWritten where
  err : Option ErrorCode
  runlistDirty : Bool
  pairs : List RunlistElement
  fileNameDirty : Bool
  base : RecordState
  extents : List RecordState
  /-- `mark_inode_dirty` -/
  redirtied : Bool
  /-- `NVolSetErrors` -/
  errors : Bool

/-- One extent record is written if it is dirty. -/
def writeExtent (sync : Bool) (extent : ExtentWrite) : Option ErrorCode × RecordState × Bool :=
  if ¬ extent.record.dirty then (none, extent.record, false)
  else
    match extent.map with
    | some code => (some code, extent.record, false)
    | none => writeMftRecordNolock sync extent.write extent.record

/-- The label `err_out`. -/
def InodeWritten.failed (out : InodeWritten) (err : ErrorCode) : InodeWritten :=
  if err = codeNomem then { out with err := some err, redirtied := true }
  else { out with err := some err, errors := true }

/-- The inode before its records are touched. -/
def InodeWrite.found (w : InodeWrite) : InodeWritten :=
  ⟨none, w.runlistDirty, w.pairs, w.fileNameDirty, w.base, w.extents.map (·.record), false, false⟩

/-- The inode with its mapping pairs brought up to date. The error is not looked at. -/
def InodeWrite.pairsDone (w : InodeWrite) : InodeWritten :=
  if w.nonResident ∧ w.runlistDirty then
    { w.found with runlistDirty := w.update.err.isSome, pairs := w.update.pairs }
  else w.found

/-- The base record: the error variable, the record, whether the volume gets errors, and whether
the function goes on. -/
def InodeWrite.writeBase (w : InodeWrite) (sync : Bool) : Option ErrorCode × RecordState × Bool × Bool :=
  if ¬ w.base.dirty then (none, w.base, false, true)
  else
    match w.baseBlock with
    | some err => (some err, w.base, false, false)
    | none =>
      let out := writeMftRecordNolock sync w.baseWrite w.base
      (out.1, out.2.1, out.2.2, true)

/-- A record is on the device or will be written again. -/
def RecordState.Safe (record : RecordState) : Prop := record.stored = true ∨ record.dirty = true

/-- The error that writing a record reports. -/
def RecordWrite.reported (write : RecordWrite) (sync : Bool) : Option ErrorCode :=
  (write.failure sync).filter (· ≠ codeNomem)

/-- No step fails whose error is kept to the end. -/
structure Quiet (w : InodeWrite) (sync : Bool) : Prop where
  running : w.shutdown = false
  mapped : w.mapRecord = none
  standard : w.standardInformation = none
  base_located : w.base.dirty = true → w.baseBlock = none
  base_written : w.extents = [] → w.base.dirty = true → w.baseWrite.reported sync = none
  located : ∀ extent ∈ w.extents, extent.block = none
  written : ∀ extent ∈ w.extents, extent.record.dirty = true →
    extent.map = none ∧ extent.write.reported sync = none

section Records

variable {sync : Bool} {write : RecordWrite} {record : RecordState}

end Records

section Inode

variable {w : InodeWrite} {sync : Bool}

theorem failed_err (out : InodeWritten) (err : ErrorCode) : (out.failed err).err = some err := by
  rw [InodeWritten.failed]
  split <;> rfl

/-- What is known of the outcome of a call: it has no error just when no step fails whose error is
kept, and then these are its mapping pairs and records. -/
def InodeOutcome (w : InodeWrite) (sync : Bool) (out : InodeWritten) : Prop :=
  (out.err = none ↔ Quiet w sync) ∧
    (Quiet w sync → out.pairs = w.pairsDone.pairs ∧ out.base = (w.writeBase sync).2.1 ∧
      out.extents = w.extents.map fun extent => (writeExtent sync extent).2.1)

theorem InodeOutcome.failed {out : InodeWritten} {err : ErrorCode} (loud : ¬ Quiet w sync) : InodeOutcome w sync (out.failed err) :=
  ⟨⟨fun impossible => absurd impossible (by simp [failed_err]), fun quiet => absurd quiet loud⟩,
    fun quiet => absurd quiet loud⟩

end Inode

/-- A record of one cluster whose transfer fails. -/
def unwritten : RecordWrite := ⟨none, [⟨true, some codeIo, none⟩], false, none⟩

end Ttntfs.Vfs
