import Ttntfs.Logfile.LogRecord
import Ttntfs.Logfile.TableCheck

/-!
# The analysis pass

`analysis_pass` walks the log from the checkpoint on and brings the transaction
table, the dirty page table and the open attribute table up to date. The records it
is given here are those the log reader delivers behind the checkpoint record, in
their order.
-/

namespace Ttntfs.Logfile

open Library.ByteMemory

/-! ## Entries -/

/-- `DP1_TARGET_ATTR` -/
def dp1TargetAttr : Nat := 0x04
/-- `DP1_TRANSFER_LEN` -/
def dp1TransferLen : Nat := 0x08
/-- `DP1_LCNS_FOLLOW` -/
def dp1LcnsFollow : Nat := 0x0c
/-- `DP1_VCN` -/
def dp1Vcn : Nat := 0x10
/-- `DP1_OLDEST_LSN` -/
def dp1OldestLsn : Nat := 0x18
/-- `DP1_PAGE_LCNS` -/
def dp1PageLcns : Nat := 0x20
/-- `DP1_SIZE` -/
def dp1Size : Nat := 0x20

/-- `TR_STATE` -/
def trState : Nat := 0x04
/-- `TR_FIRST_LSN` -/
def trFirstLsn : Nat := 0x08
/-- `TR_PREV_LSN` -/
def trPrevLsn : Nat := 0x10
/-- `TR_UNDO_NEXT_LSN` -/
def trUndoNextLsn : Nat := 0x18
/-- `TR_SIZE` -/
def trSize : Nat := 0x28

/-- `TRANSACTION_ACTIVE` -/
def transactionActive : UInt8 := 1
/-- `TRANSACTION_PREPARED` -/
def transactionPrepared : UInt8 := 2
/-- `TRANSACTION_COMMITTED` -/
def transactionCommitted : UInt8 := 3

/-- `AN_OFFSET` -/
def anOffset : Nat := 0x00
/-- `AN_NAME_BYTES` -/
def anNameBytes : Nat := 0x02
/-- `AN_NAME` -/
def anName : Nat := 0x04

/-- `LR_RANGE_SIZE` -/
def lrRangeSize : Nat := 0x10

/-! ## The log handle -/

/-- What analysis reads of the log handle and leaves as it is. -/
structure LogInfo where
  bytesPerAttrEntry : Nat
  clstPerPage : Nat
  clusterSize : Nat

/-- The tables of the log handle; none is a table without a buffer. -/
structure LogTables where
  trtbl : Option Table
  dptbl : Option Table
  oatbl : Option Table
  attrNames : Mem
  attrNamesLen : Nat

/-- How analysis fails. -/
inductive AnalysisError where
  /-- "analysis: malformed client record at lsn 0x%llx" -/
  | malformedClientRecord (lsn : Nat)
  /-- "analysis: bad transaction id 0x%x" -/
  | badTransactionId (tid : Nat)
  /-- "analysis: bad OpenNonresidentAttribute" -/
  | badOpenNonresidentAttribute
  /-- `-ENOMEM`: the dirty page table cannot take another entry. -/
  | noMemory
  deriving DecidableEq

/-- The entries a loop over `lfs_table_next` visits, where its body leaves the marks
of the entries alone. -/
def tableEntries : Option Table → List Nat
  | none => []
  | some t => iterateNext t (t.entries + 1) none

/-- Replace the buffer of a table. -/
def Table.withBuf (t : Table) (m : Mem) : Table := { t with buf := m }

/-! ## Dirty pages -/

/-- The target attribute of a dirty page entry. -/
def dpAttr (m : Mem) (dp : Nat) : Nat := lfGet32 m (dp + dp1TargetAttr)
/-- The number of clusters of a dirty page entry. -/
def dpLcnsFollow (m : Mem) (dp : Nat) : Nat := lfGet32 m (dp + dp1LcnsFollow)
/-- The first cluster of a dirty page entry. -/
def dpVcn (m : Mem) (dp : Nat) : Nat := lfGet64 m (dp + dp1Vcn)
/-- The lsn since which a dirty page is dirty. -/
def dpOldest (m : Mem) (dp : Nat) : Nat := lfGet64 m (dp + dp1OldestLsn)
/-- The lcn of cluster `j` of a dirty page entry. -/
def dpLcn (m : Mem) (dp j : Nat) : Nat := lfGet64 m (dp + dp1PageLcns + 8 * j)
/-- Store the lcn of cluster `j` of a dirty page entry. -/
def putDpLcn (m : Mem) (dp j lcn : Nat) : Mem := lfPut64 m (dp + dp1PageLcns + 8 * j) lcn

/-- The entry at `dp` is for the attribute and the cluster. -/
def dpCovers (m : Mem) (targetAttr vcn dp : Nat) : Bool :=
  decide (dpAttr m dp = targetAttr) && decide (vcn ≥ dpVcn m dp) &&
    decide (vcn < (dpVcn m dp + dpLcnsFollow m dp) % 2 ^ 64)

/-- `find_dp`; the entry is named by its offset. -/
def findDp (dptbl : Option Table) (targetAttr vcn : Nat) : Option Nat :=
  match dptbl with
  | none => none
  | some t => (tableEntries dptbl).find? (dpCovers t.buf targetAttr vcn)

/-- `vcn & ~((uint64_t)per_page - 1)` -/
def pageStart (perPage vcn : Nat) : Nat :=
  (BitVec.ofNat 64 vcn &&& ~~~(BitVec.ofNat 64 perPage - 1)).toNat

/-- The fields of a new dirty page entry. -/
def initDp (m : Mem) (dp targetAttr perPage clusterSize vcn lsn : Nat) : Mem :=
  let m := lfPut32 m (dp + dp1TargetAttr) targetAttr
  let m := lfPut32 m (dp + dp1TransferLen) (perPage * clusterSize)
  let m := lfPut32 m (dp + dp1LcnsFollow) perPage
  let m := lfPut64 m (dp + dp1Vcn) (pageStart perPage vcn)
  lfPut64 m (dp + dp1OldestLsn) lsn

/-- The number of clusters of a new dirty page entry. -/
def newPerPage (info : LogInfo) : Option Table → Nat
  | some t => (t.esize + 2 ^ 32 - dp1Size) % 2 ^ 32 / 8
  | none => info.clstPerPage

/-- The dirty page table with an entry for a record that has none; none where the
table cannot take another. -/
def addDp (info : LogInfo) (dptbl : Option Table) (targetAttr vcn lsn : Nat) : Option (Table × Nat) :=
  let perPage := newPerPage info dptbl
  let t := dptbl.getD (lfsTableInit ((dp1Size + 8 * perPage) % 2 ^ 16) 32)
  match lfsTableAlloc t with
  | (_, none) => none
  | (t, some dp) => some (t.withBuf (initDp t.buf dp targetAttr perPage info.clusterSize vcn lsn), dp)

/-- Store lcn `i` of a record in the entry at `dp`, if the entry has a place for it. -/
def storeLcn (record : LfsRecord) (dp perPage i : Nat) (m : Mem) : Mem :=
  let j := (record.targetVcn + 2 ^ 64 - dpVcn m dp + i) % 2 ^ 64
  if j < perPage then putDpLcn m dp j (record.pageLcn i) else m

/-- The loop that stores the first `n` lcns of a record in the entry at `dp`. -/
def storeLcns (record : LfsRecord) (dp perPage n : Nat) (m : Mem) : Mem :=
  (List.range n).foldl (fun m i => storeLcn record dp perPage i m) m

/-- Dirty page upkeep for an MFT or attribute operation. -/
def logDirtyPage (info : LogInfo) (dptbl : Option Table) (record : LfsRecord) : Option Table :=
  let found := match dptbl, findDp dptbl record.targetAttribute record.targetVcn with
    | some t, some dp => some (t, dp)
    | _, _ => addDp info dptbl record.targetAttribute record.targetVcn record.lsn
  match found with
  | none => none
  | some (t, dp) =>
    some (t.withBuf (storeLcns record dp (dpLcnsFollow t.buf dp) record.lcnsToFollow t.buf))

/-- Clear an lcn of the entry at `dp` if it lies in a range. -/
def deleteLcn (l0 le dp j : Nat) (m : Mem) : Mem :=
  if l0 ≤ dpLcn m dp j ∧ dpLcn m dp j ≤ le then putDpLcn m dp j 0 else m

/-- Clear the `n` lcns of the entry at `dp` from `j` on that lie in a range. -/
def deleteLcns (l0 le dp : Nat) : Nat → Nat → Mem → Mem
  | 0, _, m => m
  | n + 1, j, m => deleteLcns l0 le dp n (j + 1) (deleteLcn l0 le dp j m)

/-- The first lcn of range `k` of a DeleteDirtyClusters record. -/
def deletedFirst (record : LfsRecord) (k : Nat) : Nat :=
  lfGet64 record.data (record.redoOffset + k * lrRangeSize)

/-- The last lcn of range `k` of a DeleteDirtyClusters record. -/
def deletedLast (record : LfsRecord) (k : Nat) : Nat :=
  (deletedFirst record k + lfGet64 record.data (record.redoOffset + k * lrRangeSize + 8) + 2 ^ 64 - 1) %
    2 ^ 64

/-- Clear the lcns of one range in all entries. -/
def deleteRange (record : LfsRecord) (t : Table) (k : Nat) : Table :=
  t.withBuf ((tableEntries (some t)).foldl (fun m dp =>
    deleteLcns (deletedFirst record k) (deletedLast record k) dp (dpLcnsFollow m dp) 0 m) t.buf)

/-- `LOP_DeleteDirtyClusters` -/
def deleteDirtyClusters (record : LfsRecord) (t : Table) : Table :=
  (List.range (record.redoLength / lrRangeSize)).foldl (deleteRange record) t

/-- `LOP_HotFix` -/
def hotFix (record : LfsRecord) (t : Table) : Table :=
  match findDp (some t) record.targetAttribute record.targetVcn with
  | none => t
  | some dp =>
    let j := record.targetVcn - dpVcn t.buf dp
    if dpLcn t.buf dp j ≠ 0 then t.withBuf (putDpLcn t.buf dp j (record.pageLcn 0)) else t

/-! ## Transactions -/

/-- The transaction of a record, allocated where it was not; none is a bad id. -/
def ensureTransaction (t : Table) (record : LfsRecord) : Option Table :=
  let tid := record.transactionId
  if lfsTableEntryOk t tid then some t
  else
    match lfsTableAllocAt t tid with
    | (_, none) => none
    | (t, some tr) =>
      let m := Function.update t.buf (tr + trState) transactionActive
      some (t.withBuf (lfPut64 m (tr + trFirstLsn) record.lsn))

/-- The lsns every record of a transaction stores. -/
def stampTransaction (t : Table) (record : LfsRecord) : Table :=
  let tid := record.transactionId
  let m := lfPut64 t.buf (tid + trPrevLsn) record.lsn
  let m := lfPut64 m (tid + trUndoNextLsn) record.lsn
  t.withBuf (if record.undoOp = lopCompensationLogRecord then
    lfPut64 m (tid + trUndoNextLsn) record.clientUndoNextLsn else m)

/-- What the redo operation does to the transaction of the record. -/
def endTransaction (t : Table) (record : LfsRecord) : Table :=
  let tid := record.transactionId
  if record.redoOp = lopEndTopLevelAction then
    t.withBuf (lfPut64 (lfPut64 t.buf (tid + trPrevLsn) record.lsn) (tid + trUndoNextLsn)
      record.clientUndoNextLsn)
  else if record.redoOp = lopPrepareTransaction then
    t.withBuf (Function.update t.buf (tid + trState) transactionPrepared)
  else if record.redoOp = lopCommitTransaction then
    t.withBuf (Function.update t.buf (tid + trState) transactionCommitted)
  else if record.redoOp = lopForgetTransaction then lfsTableFreeIdx t tid
  else t

/-! ## Open attributes -/

/-- Append the name of an opened attribute to the names, over the zero entry that
ends them. -/
def stashName (tables : LogTables) (record : LfsRecord) : LogTables :=
  if record.undoLength = 0 then tables
  else
    let nb := record.undoLength
    let nl := if tables.attrNamesLen ≥ anName &&
        lfGet16 tables.attrNames (tables.attrNamesLen - anName) = 0 then tables.attrNamesLen - anName
      else tables.attrNamesLen
    let m := lfPut16 tables.attrNames (nl + anOffset) record.targetAttribute
    let m := lfPut16 m (nl + anNameBytes) nb
    let m := copyRange m (nl + anName) record.data record.undoOffset nb
    { tables with attrNames := lfPut32 m (nl + anName + nb) 0
                  attrNamesLen := nl + anName + nb + anName }

/-- `LOP_OpenNonresidentAttribute` -/
def openNonresidentAttribute (info : LogInfo) (tables : LogTables) (record : LfsRecord) :
    Except AnalysisError LogTables :=
  match tables.oatbl with
  | none => .error .badOpenNonresidentAttribute
  | some t =>
    match lfsTableAllocAt t record.targetAttribute with
    | (_, none) => .error .badOpenNonresidentAttribute
    | (t, some oe) =>
      if record.redoOffset + info.bytesPerAttrEntry > record.dataLen then
        .error .badOpenNonresidentAttribute
      else
        let m := copyRange t.buf (oe + 4) record.data (record.redoOffset + 4)
          (info.bytesPerAttrEntry - 4)
        .ok (stashName { tables with oatbl := some (t.withBuf m) } record)

/-! ## The pass -/

/-- The redo operations that analysis interprets, apart from those of transactions. -/
def analyseRedo (info : LogInfo) (tables : LogTables) (record : LfsRecord) :
    Except AnalysisError LogTables :=
  if opIsMft record.redoOp || opIsAttr record.redoOp then
    match logDirtyPage info tables.dptbl record with
    | none => .error .noMemory
    | some t => .ok { tables with dptbl := some t }
  else if record.redoOp = lopDeleteDirtyClusters then
    .ok { tables with dptbl := tables.dptbl.map (deleteDirtyClusters record) }
  else if record.redoOp = lopOpenNonresidentAttribute then openNonresidentAttribute info tables record
  else if record.redoOp = lopHotFix then
    .ok { tables with dptbl := tables.dptbl.map (hotFix record) }
  else .ok tables

/-- The body of the loop of `analysis_pass`. -/
def analyseRecord (info : LogInfo) (tables : LogTables) (record : LfsRecord) :
    Except AnalysisError LogTables :=
  if !record.isClient then .ok tables
  else if (lfsCheckClientRec record info.bytesPerAttrEntry).isSome then
    .error (.malformedClientRecord record.lsn)
  else
    match tables.trtbl.bind (ensureTransaction · record) with
    | none => .error (.badTransactionId record.transactionId)
    | some t =>
      analyseRedo info
        { tables with trtbl := some (endTransaction (stampTransaction t record) record) } record

/-- The loop of `analysis_pass`. -/
def analyseRecords (info : LogInfo) : List LfsRecord → LogTables → Except AnalysisError LogTables
  | [], tables => .ok tables
  | record :: records, tables =>
    match analyseRecord info tables record with
    | .error e => .error e
    | .ok tables => analyseRecords info records tables

/-- The tables that analysis makes where the checkpoint has none. -/
def startTables (info : LogInfo) (tables : LogTables) : LogTables :=
  { tables with
    trtbl := some (tables.trtbl.getD (lfsTableInit trSize 5))
    oatbl := some (tables.oatbl.getD (lfsTableInit (info.bytesPerAttrEntry % 2 ^ 16) 8)) }

/-- One candidate for the redo lsn: the lower one, zero standing for none. -/
def lowerLsn (rlsn l : Nat) : Nat := if l ≠ 0 && (rlsn = 0 || l < rlsn) then l else rlsn

/-- The lowest of the lsns at an offset of the entries of a table. -/
def lowestLsn (table : Option Table) (field rlsn : Nat) : Nat :=
  match table with
  | none => rlsn
  | some t => (tableEntries table).foldl (fun rlsn e => lowerLsn rlsn (lfGet64 t.buf (e + field))) rlsn

/-- The redo lsn after the log was read. -/
def redoLsn (tables : LogTables) (records : List LfsRecord) : Nat :=
  let rlsn := (records.head?.map LfsRecord.lsn).getD 0
  lowestLsn tables.trtbl trFirstLsn (lowestLsn tables.dptbl dp1OldestLsn rlsn)

/-- `analysis_pass`: the tables afterwards and the redo lsn. -/
def analysisPass (info : LogInfo) (tables : LogTables) (records : List LfsRecord) :
    Except AnalysisError (LogTables × Nat) :=
  match analyseRecords info records (startTables info tables) with
  | .error e => .error e
  | .ok tables => .ok (tables, redoLsn tables records)

end Ttntfs.Logfile
