import Ttntfs.Logfile.LogHandle
import Ttntfs.Logfile.RecordActions

/-!
# Marking the journal clean

`ntfs_logfile_mark_clean` writes back the pages that a tail copy had superseded, and
then two fresh restart pages of version 1.1 whose log is closed. The writes are a list,
in the order in which they are issued, so that a crash between two of them is a prefix.
-/

namespace Ttntfs.Logfile

open Library.ByteMemory

/-- `PG_LAST_LSN` -/
def pgLastLsn : Nat := 0x08
/-- `PG_PAGE_COUNT` -/
def pgPageCount : Nat := 0x14
/-- `PG_PAGE_POSITION` -/
def pgPagePosition : Nat := 0x16
/-- `PG_LAST_END_LSN` -/
def pgLastEndLsn : Nat := 0x20
/-- `PG_FILE_OFFSET` -/
def pgFileOffset : Nat := 0x3c

/-- The write of one page of the log. -/
structure PageWrite where
  off : Nat
  page : Mem
  len : Nat

/-- The log after a write. -/
def PageWrite.apply (content : Mem) (write : PageWrite) : Mem :=
  copyRange content write.off write.page 0 write.len

section Writes

variable (log : Handle)

/-- The page size of the new restart pages. -/
def cleanPageSize : Nat := if log.pageSize ≠ 0 then log.pageSize else lfsDefaultPageSize

/-- The entries of their update sequence array. -/
def cleanUsaCount : Nat := cleanPageSize log / 512 + 1

/-- The offset of their restart area. -/
def cleanRaOfs : Nat := lfAlign8 (rpHeaderSize + cleanUsaCount log * 2)

/-- The size of a log without a restart area: its real size, or the least a log can have. -/
def cleanFileSize : Nat :=
  if log.origSize ≥ cleanPageSize log * (lfsMinRecordPages + 2) then log.origSize
  else cleanPageSize log * (lfsMinRecordPages + 2)

/-- The fields of the page header. -/
def cleanHeader : List Field :=
  [⟨4, rpMagic, lfsMagicRstr⟩, ⟨2, rpUsaOfs, rpHeaderSize⟩, ⟨2, rpUsaCount, cleanUsaCount log⟩,
    ⟨4, rpSystemPageSize, cleanPageSize log⟩, ⟨4, rpLogPageSize, cleanPageSize log⟩,
    ⟨2, rpRestartAreaOffset, cleanRaOfs log⟩, ⟨2, rpMinorVer, 1⟩, ⟨2, rpMajorVer, 1⟩]

/-- The fields that carry over from an existing restart area. -/
def keptFields : List Field :=
  [⟨8, raCurrentLsn, log.lastLsn⟩, ⟨4, raSeqNumberBits, log.seqNumBits⟩, ⟨8, raFileSize, log.lSize⟩,
    ⟨2, raLogRecordHeaderLength, log.recordHeaderLen⟩, ⟨2, raLogPageDataOffset, log.dataOff⟩,
    ⟨4, raRestartLogOpenCount, log.openLogCount + 1⟩]

/-- The fields of a log that had no restart area. -/
def freshFields : List Field :=
  [⟨4, raSeqNumberBits, 67 - bitLength (cleanFileSize log)⟩, ⟨8, raFileSize, cleanFileSize log⟩,
    ⟨2, raLogRecordHeaderLength, lrHeaderSize⟩,
    ⟨2, raLogPageDataOffset, lfAlign8 (pgUsa + cleanUsaCount log * 2)⟩]

/-- The fields of a closed log with one free client. -/
def closedFields : List Field :=
  [⟨2, raLogClients, 1⟩, ⟨2, raClientFreeList, 0⟩, ⟨2, raClientInUseList, lfsNoClient⟩,
    ⟨2, raFlags, restartVolumeIsClean⟩, ⟨2, raRestartAreaLength, raSizeXp + crSize⟩,
    ⟨2, raClientArrayOffset, raSizeXp⟩, ⟨4, raLastLsnDataLength, 0⟩]

/-- The fields of the restart area. -/
def cleanArea : List Field :=
  (if log.ra.isSome then keptFields log else freshFields log) ++ closedFields

/-- The fields of the NTFS client. -/
def cleanClient : List Field :=
  [⟨8, crOldestLsn, 0⟩, ⟨8, crClientRestartLsn, 0⟩, ⟨2, crPrevClient, lfsNoClient⟩,
    ⟨2, crNextClient, lfsNoClient⟩, ⟨2, crSeqNumber, 1⟩, ⟨4, crClientNameLength, 8⟩,
    ⟨2, crClientName, 0x4e⟩, ⟨2, crClientName + 2, 0x54⟩, ⟨2, crClientName + 4, 0x46⟩,
    ⟨2, crClientName + 6, 0x53⟩]

/-- The restart page that both writes start from. -/
def cleanPage : Mem :=
  storeFields (storeFields (storeFields zeros 0 (cleanHeader log)) (cleanRaOfs log) (cleanArea log))
    (cleanRaOfs log + raSizeXp) cleanClient

/-- A page with its tails put away. The result of `lfs_fixup_pre_write` is not looked at:
a page that it refuses is written as it is. -/
def fixedUp (page : Mem) (bytes : Nat) : Mem :=
  (lfsFixupPreWrite page bytes lfsSectorSize).getD page

/-- The restart page of one slot, with a fresh update sequence number. -/
def restartPageWrite (i : Nat) : PageWrite where
  off := i * cleanPageSize log
  page := fixedUp (lfPut16 (cleanPage log) rpHeaderSize (0x1000 + i + log.openLogCount % 0x100))
    (cleanPageSize log)
  len := cleanPageSize log

/-- A page that a tail copy superseded, as it goes back to its place. -/
def tailCopyBack (override : PageOverride) : PageWrite where
  off := override.vbo
  page :=
    let copy := lfPut16 (lfPut16 override.page pgPageCount 1) pgPagePosition 1
    fixedUp
      (if log.majorVer < 2 then lfPut64 copy pgLastLsn (lfGet64 copy pgLastEndLsn)
        else lfPut32 copy pgFileOffset 0)
      log.pageSize
  len := log.pageSize

/-- The writes of `ntfs_logfile_mark_clean`, in order. -/
def markCleanWrites : List PageWrite :=
  log.overrides.map (tailCopyBack log) ++ [restartPageWrite log 0, restartPageWrite log 1]

end Writes

/-- Why a log was not marked clean. -/
inductive MarkError where
  /-- `-ENOTSUP`: the log cannot be written. -/
  | notSupported
  /-- `-EINVAL`: the version of the log is not understood. -/
  | invalid
  /-- The error of a write. -/
  | write
  deriving DecidableEq

/-- The log after writes up to the first that fails, and whether all succeeded. -/
def runWrites (succeeds : PageWrite → Bool) : List PageWrite → Mem → Mem × Bool
  | [], content => (content, true)
  | write :: writes, content =>
    if succeeds write then runWrites succeeds writes (write.apply content) else (content, false)

/-- `ntfs_logfile_mark_clean`, with the writes that succeed, if the log can be written at
all: the log after it, and the handle where it returns 0. -/
def ntfsLogfileMarkClean (write : Option (PageWrite → Bool)) (log : Handle) (content : Mem) :
    Mem × Except MarkError Handle :=
  match write with
  | none => (content, .error .notSupported)
  | some succeeds =>
    if log.state = .unsupported then (content, .error .invalid)
    else
      let (content, done) := runWrites succeeds (markCleanWrites log) content
      (content, if done then .ok { log with state := .clean } else .error .write)

theorem runWrites_done {succeeds : PageWrite → Bool} {writes : List PageWrite}
    {content after : Mem} (done : runWrites succeeds writes content = (after, true)) :
    after = writes.foldl PageWrite.apply content := by
  induction writes generalizing content with
  | nil => exact (congrArg Prod.fst done).symm
  | cons write writes ih =>
    simp only [runWrites] at done
    split at done
    · exact ih done
    · cases done

theorem ntfsLogfileMarkClean_ok {write : Option (PageWrite → Bool)} {log marked : Handle}
    {content after : Mem} (ok : ntfsLogfileMarkClean write log content = (after, .ok marked)) :
    log.state ≠ .unsupported ∧ after = (markCleanWrites log).foldl PageWrite.apply content := by
  cases write with
  | none => simp [ntfsLogfileMarkClean] at ok
  | some succeeds =>
    simp only [ntfsLogfileMarkClean] at ok
    split at ok
    · simp at ok
    rename_i supported
    cases run : runWrites succeeds (markCleanWrites log) content with
    | mk content' done =>
      rw [run] at ok
      cases done with
      | false => simp at ok
      | true =>
        have same : content' = after := congrArg Prod.fst ok
        exact ⟨supported, same ▸ runWrites_done run⟩

end Ttntfs.Logfile
