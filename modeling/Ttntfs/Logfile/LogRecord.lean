import Ttntfs.Logfile.Layout

/-!
# Log records

A record as the log reader delivers it, the operation codes of the NTFS client, and
the framing check that every pass makes before it interprets a client record.
-/

namespace Ttntfs.Logfile

open Library.ByteMemory

/-! ## Layout -/

/-- `LR_CLIENT_UNDO_NEXT_LSN` -/
def lrClientUndoNextLsn : Nat := 0x10
/-- `LR_RECORD_TYPE` -/
def lrRecordType : Nat := 0x20
/-- `LR_TRANSACTION_ID` -/
def lrTransactionId : Nat := 0x24
/-- `LFS_RECORD_TYPE_CLIENT` -/
def lfsRecordTypeClient : Nat := 1

/-- `NR_REDO_OP` -/
def nrRedoOp : Nat := 0x00
/-- `NR_UNDO_OP` -/
def nrUndoOp : Nat := 0x02
/-- `NR_REDO_OFFSET` -/
def nrRedoOffset : Nat := 0x04
/-- `NR_REDO_LENGTH` -/
def nrRedoLength : Nat := 0x06
/-- `NR_UNDO_OFFSET` -/
def nrUndoOffset : Nat := 0x08
/-- `NR_UNDO_LENGTH` -/
def nrUndoLength : Nat := 0x0a
/-- `NR_TARGET_ATTRIBUTE` -/
def nrTargetAttribute : Nat := 0x0c
/-- `NR_LCNS_TO_FOLLOW` -/
def nrLcnsToFollow : Nat := 0x0e
/-- `NR_TARGET_VCN` -/
def nrTargetVcn : Nat := 0x18
/-- `NR_PAGE_LCNS` -/
def nrPageLcns : Nat := 0x20
/-- `NR_HEADER_SIZE` -/
def nrHeaderSize : Nat := 0x20

/-! ## Operations -/

def lopCompensationLogRecord : Nat := 0x01
def lopInitializeFileRecordSegment : Nat := 0x02
def lopDeallocateFileRecordSegment : Nat := 0x03
def lopWriteEndOfFileRecordSegment : Nat := 0x04
def lopCreateAttribute : Nat := 0x05
def lopDeleteAttribute : Nat := 0x06
def lopUpdateResidentValue : Nat := 0x07
def lopUpdateNonresidentValue : Nat := 0x08
def lopUpdateMappingPairs : Nat := 0x09
def lopDeleteDirtyClusters : Nat := 0x0a
def lopSetNewAttributeSizes : Nat := 0x0b
def lopAddIndexEntryRoot : Nat := 0x0c
def lopDeleteIndexEntryRoot : Nat := 0x0d
def lopAddIndexEntryAllocation : Nat := 0x0e
def lopDeleteIndexEntryAllocation : Nat := 0x0f
def lopWriteEndOfIndexBuffer : Nat := 0x10
def lopSetIndexEntryVcnRoot : Nat := 0x11
def lopSetIndexEntryVcnAllocation : Nat := 0x12
def lopUpdateFileNameRoot : Nat := 0x13
def lopUpdateFileNameAllocation : Nat := 0x14
def lopSetBitsInNonresidentBitMap : Nat := 0x15
def lopClearBitsInNonresidentBitMap : Nat := 0x16
def lopHotFix : Nat := 0x17
def lopEndTopLevelAction : Nat := 0x18
def lopPrepareTransaction : Nat := 0x19
def lopCommitTransaction : Nat := 0x1a
def lopForgetTransaction : Nat := 0x1b
def lopOpenNonresidentAttribute : Nat := 0x1c
def lopUpdateRecordDataRoot : Nat := 0x21
def lopUpdateRecordDataAllocation : Nat := 0x22
def lopZeroEndOfFileRecord : Nat := 0x25

/-- `op_is_mft` -/
def opIsMft (op : Nat) : Bool :=
  [lopInitializeFileRecordSegment, lopDeallocateFileRecordSegment, lopWriteEndOfFileRecordSegment,
    lopCreateAttribute, lopDeleteAttribute, lopUpdateResidentValue, lopUpdateMappingPairs,
    lopSetNewAttributeSizes, lopAddIndexEntryRoot, lopDeleteIndexEntryRoot, lopSetIndexEntryVcnRoot,
    lopUpdateFileNameRoot, lopUpdateRecordDataRoot, lopZeroEndOfFileRecord].contains op

/-- `op_is_attr` -/
def opIsAttr (op : Nat) : Bool :=
  [lopUpdateNonresidentValue, lopAddIndexEntryAllocation, lopDeleteIndexEntryAllocation,
    lopWriteEndOfIndexBuffer, lopSetIndexEntryVcnAllocation, lopUpdateFileNameAllocation,
    lopSetBitsInNonresidentBitMap, lopClearBitsInNonresidentBitMap,
    lopUpdateRecordDataAllocation].contains op

/-- `op_needs_target`: the bit of the operation in the table `attr_required`. -/
def opNeedsTarget (op : Nat) : Bool :=
  decide (op ≤ lopUpdateRecordDataAllocation) &&
    (([0xfc, 0xfb, 0xff, 0x10, 0x06].getD (op / 8) 0).testBit (op % 8))

/-! ## Records -/

/-- `struct lfs_record` -/
structure LfsRecord where
  lsn : Nat
  hdr : Mem
  data : Mem
  dataLen : Nat
  dataAvail : Nat

namespace LfsRecord

/-- The record belongs to the client. -/
def isClient (record : LfsRecord) : Bool := lfGet32 record.hdr lrRecordType = lfsRecordTypeClient

/-- The transaction of the record. -/
def transactionId (record : LfsRecord) : Nat := lfGet32 record.hdr lrTransactionId

/-- The record at which undoing the transaction continues. -/
def clientUndoNextLsn (record : LfsRecord) : Nat := lfGet64 record.hdr lrClientUndoNextLsn

/-- The redo operation. -/
def redoOp (record : LfsRecord) : Nat := lfGet16 record.data nrRedoOp

/-- The undo operation. -/
def undoOp (record : LfsRecord) : Nat := lfGet16 record.data nrUndoOp

/-- The offset of the redo data. -/
def redoOffset (record : LfsRecord) : Nat := lfGet16 record.data nrRedoOffset

/-- The length of the redo data. -/
def redoLength (record : LfsRecord) : Nat := lfGet16 record.data nrRedoLength

/-- The offset of the undo data. -/
def undoOffset (record : LfsRecord) : Nat := lfGet16 record.data nrUndoOffset

/-- The length of the undo data. -/
def undoLength (record : LfsRecord) : Nat := lfGet16 record.data nrUndoLength

/-- The open attribute the record is about. -/
def targetAttribute (record : LfsRecord) : Nat := lfGet16 record.data nrTargetAttribute

/-- The number of lcns in the record. -/
def lcnsToFollow (record : LfsRecord) : Nat := lfGet16 record.data nrLcnsToFollow

/-- The first cluster of the attribute the record is about. -/
def targetVcn (record : LfsRecord) : Nat := lfGet64 record.data nrTargetVcn

/-- The lcns of the record. -/
def pageLcn (record : LfsRecord) (i : Nat) : Nat := lfGet64 record.data (nrPageLcns + 8 * i)

end LfsRecord

/-- `lfs_check_client_rec`: why the record is rejected, if it is. -/
def lfsCheckClientRec (record : LfsRecord) (bytesPerAttrEntry : Nat) : Option String :=
  let lcns := record.lcnsToFollow
  let target := record.targetAttribute
  if record.dataLen < nrHeaderSize then some "shorter than the record header"
  else if record.redoOffset % 8 ≠ 0 || record.undoOffset % 8 ≠ 0 then
    some "redo or undo offset is not 8-byte aligned"
  else if target = 0 && (opNeedsTarget record.redoOp || opNeedsTarget record.undoOp) then
    some "no target attribute, but the operation needs one"
  else if lcns ≠ 0 && target ≠ 0 && bytesPerAttrEntry ≠ 0 &&
      (target < rtHeaderSize || (target - rtHeaderSize) % bytesPerAttrEntry ≠ 0) then
    some "target attribute is not on an open-attribute-table boundary"
  else if record.dataLen < nrHeaderSize + 8 * (if lcns ≠ 0 then lcns else 1) then
    some "too short for the LCNs it declares"
  else if record.redoLength ≠ 0 && record.redoOffset + record.redoLength > record.dataAvail then
    some "redo data runs past the end of the record"
  else if record.undoLength ≠ 0 && record.undoOffset + record.undoLength > record.dataAvail then
    some "undo data runs past the end of the record"
  else none

end Ttntfs.Logfile
