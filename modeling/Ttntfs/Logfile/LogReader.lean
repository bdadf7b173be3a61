import Ttntfs.Logfile.LogGeometry

/-!
# Reading the log

Pages of the log and the records on them, as `logfile_pages.c` and `logfile_records.c`
read them: a page is taken from the tail copies that the scan found or from the device,
and a record is believed where its header carries its own number. Reads of the device and
allocations are taken to succeed.
-/

namespace Ttntfs.Logfile

open Library.ByteMemory

/-- `PG_MAGIC` -/
def pgMagic : Nat := 0x00
/-- `PG_FLAGS` -/
def pgFlags : Nat := 0x10
/-- `LFS_PAGE_LOG_RECORD_END` -/
def lfsPageLogRecordEnd : Nat := 0x00000001

/-- `LR_THIS_LSN` -/
def lrThisLsn : Nat := 0x00
/-- `LR_CLIENT_DATA_LENGTH` -/
def lrClientDataLength : Nat := 0x18
/-- `LR_FLAGS` -/
def lrFlags : Nat := 0x28
/-- `LFS_RECORD_MULTI_PAGE` -/
def lfsRecordMultiPage : Nat := 0x0001

section Reader

variable (log : Handle) (content : Mem)

/-- `lfs_vbo_to_lsn` -/
def lfsVboToLsn (vbo seq : Nat) : Nat := (vbo / 8 + seq * 2 ^ log.fileDataBits) % 2 ^ 64

/-- `lfs_lsn_in_file` -/
def lfsLsnInFile (lsn : Nat) : Bool := lsn ≠ 0 && lsn ≥ log.oldestLsn && lsn ≤ log.lastLsn

/-- `lfs_read_page`: the page that holds an offset, and whether it is torn; none is an error. -/
def lfsReadPage (vbo : Nat) : Option (Mem × Bool) :=
  let pvbo := log.pageStart vbo
  if pvbo ≥ log.lSize || (pvbo + log.pageSize) % 2 ^ 32 > log.origSize then none
  else
    match log.overrides.find? fun ovr => ovr.vbo = pvbo with
    | some ovr => some (ovr.page, false)
    | none =>
      let page := bytesFrom content pvbo
      let magic := lfGet32 page 0
      if magic = lfsMagicEmpty then some (page, false)
      else if magic = lfsMagicRcrd || magic = lfsMagicRstr || magic = lfsMagicChkd then
        lfsFixupPostRead page log.pageSize lfsSectorSize
      else some (page, false)

/-- `lfs_read_page` for a caller who takes a torn page for an error. -/
def readWholePage (vbo : Nat) : Option Mem :=
  match lfsReadPage log content vbo with
  | some (page, false) => some page
  | _ => none

/-- The loop of `read_record_data`: the data from `off` on in the page at `vbo`, of which `len`
bytes are still to come behind the first `done`. Every page but the first gives a byte or
more, which bounds the rounds. -/
def readRecordPages (lsn : Nat) : Nat → Nat → Nat → Nat → Nat → Mem → Option Mem
  | 0, _, _, _, _, _ => none
  | rounds + 1, vbo, off, len, done, buf =>
    let tail := if log.pageSize - off ≥ len then len else log.pageSize - off
    match readWholePage log content vbo with
    | none => none
    | some page =>
      let pageLsn := lfGet64 page pgLastLsn
      let endLsn := lfGet64 page pgLastEndLsn
      if lfGet32 page pgMagic ≠ lfsMagicRcrd || lsn > pageLsn then none
      else
        let buf := copyRange buf done page off tail
        if len - tail = 0 then
          if lfGet32 page pgFlags &&& lfsPageLogRecordEnd = 0 || lsn > endLsn then none else some buf
        else if pageLsn = endLsn || lsn > pageLsn then none
        else
          readRecordPages lsn rounds (lfsNextPageOff log vbo) log.dataOff (len - tail) (done + tail)
            buf

/-- `read_record_data` -/
def readRecordData (lsn len : Nat) : Option Mem :=
  let vbo := lfsLsnToVbo log lsn
  readRecordPages log content lsn (len + 2) (log.pageStart vbo)
    (vbo % log.pageSize + log.recordHeaderLen) len 0 zeros

/-- How `lfs_read_record` fails. -/
inductive RecordError where
  /-- "lsn 0x%llx outside [oldest, last]" -/
  | outsideLsns
  /-- "lsn 0x%llx maps outside the log area" -/
  | outsideArea
  /-- "cannot read page for lsn 0x%llx" -/
  | unreadablePage
  /-- "lsn 0x%llx: not a record page" -/
  | notRecordPage
  /-- "lsn 0x%llx: header outside data area" -/
  | headerOutside
  /-- "lsn 0x%llx: header lsn mismatch (0x%llx)" -/
  | headerMismatch
  /-- "lsn 0x%llx: data length %u exceeds log" -/
  | tooLong
  /-- "lsn 0x%llx: cannot read record data" -/
  | unreadableData
  deriving DecidableEq

/-- The bytes of data that the pages of the log can hold. -/
def totalAvail : Nat := (log.lSize - log.firstPage) / log.pageSize * (log.pageSize - log.dataOff)

/-- The bytes of a record that can be read: those it declares, and zeros behind them as far as
the redo and undo data of a client record go, where that is plausible. -/
def recordAvail (page : Mem) (poff len : Nat) : Nat :=
  if len ≥ nrHeaderSize && lfGet32 page (poff + lrRecordType) = lfsRecordTypeClient &&
      poff + log.recordHeaderLen + nrHeaderSize ≤ log.pageSize then
    let lr := poff + log.recordHeaderLen
    let redo := lfGet16 page (lr + nrRedoOffset) + lfGet16 page (lr + nrRedoLength)
    let undo := lfGet16 page (lr + nrUndoOffset) + lfGet16 page (lr + nrUndoLength)
    let avail := max (max len redo) undo
    if avail + log.recordHeaderLen ≥ totalAvail log then len else avail
  else len

/-- The data of a record, whose first page is at hand. -/
def recordData (lsn : Nat) (page : Mem) (poff len : Nat) : Option Mem :=
  if lfGet16 page (poff + lrFlags) &&& lfsRecordMultiPage ≠ 0 then readRecordData log content lsn len
  else if poff + log.recordHeaderLen + len > log.pageSize then none
  else some (copyRange zeros 0 page (poff + log.recordHeaderLen) len)

/-- `lfs_read_record` -/
def lfsReadRecord (lsn : Nat) : Except RecordError LfsRecord :=
  let vbo := lfsLsnToVbo log lsn
  let poff := vbo % log.pageSize
  if !lfsLsnInFile log lsn then .error .outsideLsns
  else if vbo < log.firstPage || (vbo + log.recordHeaderLen) % 2 ^ 32 > log.lSize then
    .error .outsideArea
  else
    match readWholePage log content vbo with
    | none => .error .unreadablePage
    | some page =>
      if lfGet32 page pgMagic ≠ lfsMagicRcrd then .error .notRecordPage
      else if poff < log.dataOff || poff + log.recordHeaderLen > log.pageSize then
        .error .headerOutside
      else if lfGet64 page (poff + lrThisLsn) ≠ lsn then .error .headerMismatch
      else
        let len := lfGet32 page (poff + lrClientDataLength)
        let hdr := bytesFrom page poff
        if len + log.recordHeaderLen ≥ totalAvail log then .error .tooLong
        else if len = 0 then .ok { lsn, hdr, data := zeros, dataLen := 0, dataAvail := 0 }
        else
          match recordData log content lsn page poff len with
          | none => .error .unreadableData
          | some data =>
            .ok { lsn, hdr, data, dataLen := len, dataAvail := recordAvail log page poff len }

/-- Where the record behind one begins: its offset, and its sequence number. -/
def nextPlace (lsn finish : Nat) (page : Mem) : Nat × Nat :=
  let seq := lfsLsnSeq log lsn
  let seq := if finish ≤ lfsLsnToVbo log lsn then seq + 1 else seq
  if lsn = lfGet64 page pgLastLsn then
    let hdrOff := lfsNextPageOff log (log.pageStart finish)
    ((hdrOff + log.dataOff) % 2 ^ 32, if hdrOff = log.firstPage then seq + 1 else seq)
  else (lfAlign8 finish, seq)

/-- `lfs_next_lsn`: the number of the record that follows, or 0 where there is none. -/
def lfsNextLsn (record : LfsRecord) : Option Nat :=
  let finish := lfsFinalLogOff log record.lsn record.dataLen
  match readWholePage log content (log.pageStart finish) with
  | none => none
  | some page =>
    let (vbo, seq) := nextPlace log record.lsn finish page
    let next := lfsVboToLsn log vbo seq
    some (if lfsLsnInFile log next then next else 0)

end Reader

section Records

variable {log : Handle} {content : Mem} {lsn : Nat} {record : LfsRecord}

/-- What is known of a record that was read: its number lies in the log and is the one in its
header, and its data fits into the pages of the log. -/
theorem lfsReadRecord_ok (read : lfsReadRecord log content lsn = .ok record) :
    record.lsn = lsn ∧ lfsLsnInFile log lsn = true ∧ log.firstPage ≤ lfsLsnToVbo log lsn ∧
      record.dataLen + log.recordHeaderLen < totalAvail log ∧
      ∃ page, readWholePage log content (lfsLsnToVbo log lsn) = some page ∧
        lfGet64 page (lfsLsnToVbo log lsn % log.pageSize + lrThisLsn) = lsn := by
  simp only [lfsReadRecord] at read
  split at read
  · cases read
  rename_i inFile
  split at read
  · cases read
  rename_i area
  split at read
  · cases read
  rename_i page whole
  split at read
  · cases read
  split at read
  · cases read
  split at read
  · cases read
  rename_i header
  split at read
  · cases read
  rename_i short
  simp only [Bool.or_eq_true, decide_eq_true_eq, not_or, Nat.not_lt] at area
  have place : ∃ page, readWholePage log content (lfsLsnToVbo log lsn) = some page ∧
      lfGet64 page (lfsLsnToVbo log lsn % log.pageSize + lrThisLsn) = lsn :=
    ⟨page, whole, Decidable.not_not.mp header⟩
  have inside : lfsLsnInFile log lsn = true := by simpa using inFile
  split at read
  · rename_i none
    cases read
    refine ⟨rfl, inside, area.1, ?_, place⟩
    rw [none] at short
    exact Nat.lt_of_not_le short
  · split at read
    · cases read
    · cases read
      exact ⟨rfl, inside, area.1, Nat.lt_of_not_le short, place⟩

theorem lfsReadRecord_injective {lsn' : Nat} {record' : LfsRecord}
    (read : lfsReadRecord log content lsn = .ok record)
    (read' : lfsReadRecord log content lsn' = .ok record')
    (same : lfsLsnToVbo log lsn = lfsLsnToVbo log lsn') : lsn = lsn' := by
  obtain ⟨-, -, -, -, page, whole, header⟩ := lfsReadRecord_ok read
  obtain ⟨-, -, -, -, page', whole', header'⟩ := lfsReadRecord_ok read'
  rw [← same] at whole' header'
  obtain rfl : page = page' := Option.some.inj (whole.symm.trans whole')
  exact header.symm.trans header'

end Records

end Ttntfs.Logfile
