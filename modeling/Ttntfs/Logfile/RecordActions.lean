import Ttntfs.Logfile.OpenAttributes

/-!
# Operations on an MFT record

What each operation of the log that targets an MFT record does to the record, with
the checks it makes first. Sums and differences of 32-bit fields wrap as in the
source. The record has `rs` bytes; a store or a move that leaves it is an overrun.
Bytes past its end may be read, and then are whatever the memory holds.
-/

namespace Ttntfs.Logfile

open Library.ByteMemory

/-- `MR_LSN` -/
def mrLsn : Nat := 0x08
/-- `MR_SEQUENCE` -/
def mrSequence : Nat := 0x10
/-- `MR_LINK_COUNT` -/
def mrLinkCount : Nat := 0x12
/-- `MR_NEXT_ATTR_ID` -/
def mrNextAttrId : Nat := 0x28
/-- `AT_INSTANCE` -/
def atInstance : Nat := 0x0e
/-- `AT_RES_FLAGS` -/
def atResFlags : Nat := 0x16
/-- `AT_INITIALIZED_SIZE` -/
def atInitializedSize : Nat := 0x38
/-- `AT_COMPRESSED_SIZE` -/
def atCompressedSize : Nat := 0x40
/-- `AT_NONRESIDENT_EX_SIZE` -/
def atNonresidentExSize : Nat := 0x48
/-- `ATTR_TYPE_INDEX_ROOT` -/
def attrTypeIndexRoot : Nat := 0x90
/-- `ATTR_RES_FLAG_INDEXED` -/
def attrResFlagIndexed : Nat := 0x01
/-- `LFS_MAGIC_HOLE` -/
def lfsMagicHole : Nat := 0x454c4f48

/-- `NAS_ALLOC` -/
def nasAlloc : Nat := 0x00
/-- `NAS_VALID` -/
def nasValid : Nat := 0x08
/-- `NAS_DATA` -/
def nasData : Nat := 0x10
/-- `NAS_TOTAL` -/
def nasTotal : Nat := 0x18
/-- `NAS_SIZE` -/
def nasSize : Nat := 0x20

/-- `IR_INDEX_HEADER` -/
def irIndexHeader : Nat := 0x10
/-- `IH_ENTRIES_OFFSET` -/
def ihEntriesOffset : Nat := 0x00
/-- `IH_INDEX_LENGTH` -/
def ihIndexLength : Nat := 0x04
/-- `IH_ALLOCATED_SIZE` -/
def ihAllocatedSize : Nat := 0x08
/-- `IE_DATA_OFFSET` -/
def ieDataOffset : Nat := 0x00
/-- `IE_LENGTH` -/
def ieLength : Nat := 0x08
/-- `IE_KEY` -/
def ieKey : Nat := 0x10
/-- `IE_MIN_SIZE` -/
def ieMinSize : Nat := 0x10
/-- `FN_DUP_OFFSET` -/
def fnDupOffset : Nat := 0x08
/-- `FN_DUP_SIZE` -/
def fnDupSize : Nat := 0x38

/-! ## Arithmetic and checked stores -/

/-- A 32-bit sum. -/
def add32 (a b : Nat) : Nat := (a + b) % 2 ^ 32

/-- A 32-bit difference. -/
def sub32 (a b : Nat) : Nat := (a + 2 ^ 32 - b) % 2 ^ 32

/-- `LF_ALIGN8` of a 32-bit number. -/
def lfAlign8 (x : Nat) : Nat := add32 x 7 / 8 * 8

/-- What an operation makes of a buffer. -/
abbrev Edit := Except ReplayError Mem

/-- Store a field of a buffer of `size` bytes. -/
def putIn (size : Nat) (m : Mem) (width off value : Nat) : Edit :=
  if off + width ≤ size then .ok (putLE m width off value) else .error .overrun

/-- Copy `n` bytes of another buffer into one of `size` bytes. -/
def copyInto (size : Nat) (m : Mem) (dst : Nat) (source : Mem) (src n : Nat) : Edit :=
  if n = 0 ∨ dst + n ≤ size then .ok (copyRange m dst source src n) else .error .overrun

/-- Move `n` bytes inside a buffer of `size` bytes. -/
def moveIn (size : Nat) (m : Mem) (dst src n : Nat) : Edit :=
  if n = 0 ∨ dst + n ≤ size ∧ src + n ≤ size then .ok (copyRange m dst m src n)
  else .error .overrun

/-- `INCOHERENT`, where the condition holds. -/
def refuse (bad : Bool) (text : String) : Except ReplayError Unit :=
  if bad then .error (.incoherent text) else .ok ()

/-! ## Checks -/

/-- The walk of `check_if_attr`: where it stops, none where it leaves the record. -/
def attrWalk (rs : Nat) (record : Mem) (ro : Nat) : Nat → Nat → Option Nat
  | 0, o => some o
  | fuel + 1, o =>
    if o < ro then
      if o + 8 > rs then none
      else if lfGet32 record (o + atType) = attrTypeEnd then some o
      else if lfGet32 record (o + atLength) = 0 then some o
      else attrWalk rs record ro fuel (add32 o (lfGet32 record (o + atLength)))
    else some o

/-- `check_if_attr` -/
def checkIfAttr (rs : Nat) (record : Mem) (ro : Nat) : Bool :=
  attrWalk rs record ro (rs + 1) (lfGet16 record mrAttrsOffset) = some ro

/-- `check_if_index_root` -/
def checkIfIndexRoot (rs : Nat) (record : Mem) (ro : Nat) : Bool :=
  checkIfAttr rs record ro && ro + 8 ≤ rs &&
    lfGet32 record (ro + atType) = attrTypeIndexRoot && record (ro + atNonResident) = 0

/-- The index header of the index root at `ro`. -/
def rootHeader (record : Mem) (ro : Nat) : Nat :=
  ro + lfGet16 record (ro + atValueOffset) + irIndexHeader

/-- The walk over the entries of an index root; `o` is relative to the attribute. -/
def rootIndexWalk (record : Mem) (ro ao : Nat) : Nat → Nat → Nat
  | 0, o => o
  | fuel + 1, o =>
    if o < ao then
      if add32 o ieMinSize ≥ lfGet32 record (ro + atLength) then o
      else if lfGet16 record (ro + o + ieLength) = 0 then o
      else rootIndexWalk record ro ao fuel (add32 o (lfGet16 record (ro + o + ieLength)))
    else o

/-- `check_if_root_index` of the attribute at `ro`. -/
def checkIfRootIndex (record : Mem) (ro ao : Nat) : Bool :=
  let deOff := lfGet32 record (rootHeader record ro + ihEntriesOffset)
  rootIndexWalk record ro ao (ao + 1)
    (add32 (lfGet16 record (ro + atValueOffset) + irIndexHeader) deOff) = ao

/-- `change_attr_size` of the attribute at `ro`. -/
def changeAttrSize (rs : Nat) (record : Mem) (ro nsize : Nat) : Edit := do
  let asize := lfGet32 record (ro + atLength)
  let used := lfGet32 record mrBytesInUse
  let m ← moveIn rs record (ro + nsize) (ro + asize) (sub32 used (add32 ro asize))
  let m ← putIn rs m 4 mrBytesInUse (sub32 (add32 used nsize) asize)
  putIn rs m 4 (ro + atLength) nsize

/-! ## The operations -/

/-- What an operation on a record is given: the record size, the offsets of the log
record, the data, and the lengths that the log record declares. -/
structure RecordAction where
  rs : Nat
  roff : Nat
  aoff : Nat
  data : Mem
  dlen : Nat
  redoLength : Nat
  undoLength : Nat

namespace RecordAction

variable (a : RecordAction) (record : Mem)

/-- The attribute carries an indexed resident value. -/
def isIndexed (m : Mem) : Bool :=
  m (a.roff + atNonResident) = 0 &&
    (m (a.roff + atResFlags)).toNat &&& attrResFlagIndexed ≠ 0

/-- `LOP_InitializeFileRecordSegment` -/
def initializeFileRecordSegment : Edit := do
  refuse (add32 a.roff a.dlen > a.rs) "InitializeFileRecordSegment overflows record"
  copyInto a.rs record a.roff a.data 0 a.dlen

/-- `LOP_DeallocateFileRecordSegment` -/
def deallocateFileRecordSegment : Edit := do
  let flags := lfGet16 record mrFlags
  let m ← putIn a.rs record 2 mrFlags (flags - flags % 2)
  putIn a.rs m 2 mrSequence (lfGet16 m mrSequence + 1)

/-- `LOP_WriteEndOfFileRecordSegment` -/
def writeEndOfFileRecordSegment : Edit := do
  refuse (!checkIfAttr a.rs record a.roff || add32 a.roff a.dlen > a.rs)
    "WriteEndOfFileRecordSegment: bad offsets"
  let m ← copyInto a.rs record a.roff a.data 0 a.dlen
  putIn a.rs m 4 mrBytesInUse (lfAlign8 (add32 a.roff a.dlen))

/-- `LOP_CreateAttribute` -/
def createAttribute : Edit := do
  refuse (a.dlen < atResidentSize) "CreateAttribute: short data"
  let asize := lfGet32 a.data atLength
  let used := lfGet32 record mrBytesInUse
  let id := lfGet16 a.data atInstance
  refuse (!checkIfAttr a.rs record a.roff || asize % 8 ≠ 0 || asize > a.dlen ||
      asize < atResidentSize || asize > sub32 a.rs used || a.roff > used)
    "CreateAttribute: inconsistent sizes"
  let m ← moveIn a.rs record (a.roff + asize) a.roff (sub32 used a.roff)
  let m ← copyInto a.rs m a.roff a.data 0 asize
  let m ← putIn a.rs m 4 mrBytesInUse (used + asize)
  let m ← if lfGet16 m mrNextAttrId ≤ id then putIn a.rs m 2 mrNextAttrId (id + 1) else .ok m
  if a.isIndexed m then putIn a.rs m 2 mrLinkCount (lfGet16 m mrLinkCount + 1) else .ok m

/-- `LOP_DeleteAttribute` -/
def deleteAttribute : Edit := do
  refuse (!checkIfAttr a.rs record a.roff) "DeleteAttribute: bad offset"
  let asize := lfGet32 record (a.roff + atLength)
  let used := lfGet32 record mrBytesInUse
  refuse (asize = 0 || add32 a.roff asize > used) "DeleteAttribute: bad size"
  let links := lfGet16 record mrLinkCount
  let m ← if a.isIndexed record then putIn a.rs record 2 mrLinkCount (links + 2 ^ 16 - 1)
    else .ok record
  let m ← moveIn a.rs m a.roff (a.roff + asize) (sub32 (sub32 used asize) a.roff)
  putIn a.rs m 4 mrBytesInUse (sub32 used asize)

/-- `LOP_UpdateResidentValue` -/
def updateResidentValue : Edit := do
  let nsize := add32 a.aoff a.dlen
  refuse (!checkIfAttr a.rs record a.roff) "UpdateResidentValue: bad offset"
  let asize := lfGet32 record (a.roff + atLength)
  let used := lfGet32 record mrBytesInUse
  if a.redoLength = a.undoLength then
    refuse (nsize > asize) "UpdateResidentValue: overflow"
    copyInto a.rs record (a.roff + a.aoff) a.data 0 a.dlen
  else
    refuse (nsize > asize && nsize - asize > sub32 a.rs used) "UpdateResidentValue: no room"
    let nsize := lfAlign8 nsize
    let dataOff := lfGet16 record (a.roff + atValueOffset)
    -- A shrinking value is stored before the attributes behind it move over its end.
    let m ← if nsize < asize then copyInto a.rs record (a.roff + a.aoff) a.data 0 a.dlen
      else .ok record
    let m ← moveIn a.rs m (a.roff + nsize) (a.roff + asize) (sub32 (sub32 used a.roff) asize)
    let m ← putIn a.rs m 4 mrBytesInUse (sub32 (add32 used nsize) asize)
    let m ← putIn a.rs m 4 (a.roff + atLength) nsize
    let m ← putIn a.rs m 4 (a.roff + atValueLength) (sub32 (add32 a.aoff a.dlen) dataOff)
    if nsize < asize then .ok m else copyInto a.rs m (a.roff + a.aoff) a.data 0 a.dlen

/-- `LOP_UpdateMappingPairs` -/
def updateMappingPairs : Edit := do
  let nsize := add32 a.aoff a.dlen
  let asize := lfGet32 record (a.roff + atLength)
  let used := lfGet32 record mrBytesInUse
  refuse (!checkIfAttr a.rs record a.roff || record (a.roff + atNonResident) = 0 ||
      a.aoff < lfGet16 record (a.roff + atMappingPairsOffset) || a.aoff > asize ||
      nsize > asize && nsize - asize > sub32 a.rs used) "UpdateMappingPairs: inconsistent"
  let nsize := lfAlign8 nsize
  let m ← moveIn a.rs record (a.roff + nsize) (a.roff + asize) (sub32 (sub32 used a.roff) asize)
  let m ← putIn a.rs m 4 mrBytesInUse (sub32 (add32 used nsize) asize)
  let m ← putIn a.rs m 4 (a.roff + atLength) nsize
  let m ← copyInto a.rs m (a.roff + a.aoff) a.data 0 a.dlen
  let mpo := lfGet16 m (a.roff + atMappingPairsOffset)
  match decodeMappingPairs (fun i => m (a.roff + mpo + i)) (sub32 nsize mpo)
      (lfGet64 m (a.roff + atLowestVcn)) [] with
  | (_, false) => .error (.incoherent "UpdateMappingPairs: undecodable runs")
  | (runs, true) =>
    match runs.getLast? with
    | none => .ok m
    | some run => putIn a.rs m 8 (a.roff + atHighestVcn) (run.vcn + run.len + 2 ^ 64 - 1)

/-- `LOP_SetNewAttributeSizes` -/
def setNewAttributeSizes : Edit := do
  refuse (!checkIfAttr a.rs record a.roff || record (a.roff + atNonResident) = 0 || a.dlen < 0x18)
    "SetNewAttributeSizes: inconsistent"
  let m ← putIn a.rs record 8 (a.roff + atAllocatedSize) (lfGet64 a.data nasAlloc)
  let m ← putIn a.rs m 8 (a.roff + atDataSize) (lfGet64 a.data nasData)
  let m ← putIn a.rs m 8 (a.roff + atInitializedSize) (lfGet64 a.data nasValid)
  if a.dlen ≥ nasSize && lfGet32 m (a.roff + atLength) ≥ atNonresidentExSize then
    putIn a.rs m 8 (a.roff + atCompressedSize) (lfGet64 a.data nasTotal)
  else .ok m

/-- `LOP_AddIndexEntryRoot` -/
def addIndexEntryRoot : Edit := do
  refuse (a.dlen < ieMinSize) "AddIndexEntryRoot: short data"
  let esize := lfGet16 a.data ieLength
  refuse (!checkIfIndexRoot a.rs record a.roff || !checkIfRootIndex record a.roff a.aoff ||
      esize > a.dlen || esize < ieMinSize ||
      esize > sub32 (lfGet32 record mrBytesAllocated) (lfGet32 record mrBytesInUse))
    "AddIndexEntryRoot: inconsistent"
  let hdr := rootHeader record a.roff
  let used := lfGet32 record (hdr + ihIndexLength)
  let e1 := a.roff + a.aoff
  refuse (e1 > hdr + used) "AddIndexEntryRoot: entry past used"
  let m ← changeAttrSize a.rs record a.roff (add32 (lfGet32 record (a.roff + atLength)) esize)
  let m ← moveIn a.rs m (e1 + esize) e1 (hdr + used - e1)
  let m ← copyInto a.rs m e1 a.data 0 esize
  let m ← putIn a.rs m 4 (a.roff + atValueLength) (lfGet32 m (a.roff + atValueLength) + esize)
  let m ← putIn a.rs m 4 (hdr + ihIndexLength) (used + esize)
  putIn a.rs m 4 (hdr + ihAllocatedSize) (lfGet32 m (hdr + ihAllocatedSize) + esize)

/-- `LOP_DeleteIndexEntryRoot` -/
def deleteIndexEntryRoot : Edit := do
  refuse (!checkIfIndexRoot a.rs record a.roff || !checkIfRootIndex record a.roff a.aoff)
    "DeleteIndexEntryRoot: inconsistent"
  let hdr := rootHeader record a.roff
  let used := lfGet32 record (hdr + ihIndexLength)
  let e1 := a.roff + a.aoff
  let esize := lfGet16 record (e1 + ieLength)
  refuse (e1 + esize > hdr + used || esize = 0) "DeleteIndexEntryRoot: entry past used"
  let m ← moveIn a.rs record e1 (e1 + esize) (hdr + used - (e1 + esize))
  let m ← putIn a.rs m 4 (a.roff + atValueLength) (sub32 (lfGet32 m (a.roff + atValueLength)) esize)
  let m ← putIn a.rs m 4 (hdr + ihIndexLength) (sub32 used esize)
  let m ← putIn a.rs m 4 (hdr + ihAllocatedSize) (sub32 (lfGet32 m (hdr + ihAllocatedSize)) esize)
  changeAttrSize a.rs m a.roff (sub32 (lfGet32 m (a.roff + atLength)) esize)

/-- `LOP_SetIndexEntryVcnRoot` -/
def setIndexEntryVcnRoot : Edit := do
  refuse (!checkIfIndexRoot a.rs record a.roff || !checkIfRootIndex record a.roff a.aoff ||
      a.dlen < 8) "SetIndexEntryVcnRoot: inconsistent"
  let e := a.roff + a.aoff
  let esize := lfGet16 record (e + ieLength)
  refuse (esize < ieMinSize + 8 || a.aoff + esize > lfGet32 record (a.roff + atLength))
    "SetIndexEntryVcnRoot: bad entry"
  putIn a.rs record 8 (e + esize - 8) (lfGet64 a.data 0)

/-- `LOP_UpdateFileNameRoot` -/
def updateFileNameRoot : Edit := do
  refuse (!checkIfIndexRoot a.rs record a.roff || !checkIfRootIndex record a.roff a.aoff ||
      a.dlen < fnDupSize) "UpdateFileNameRoot: inconsistent"
  refuse (a.aoff + ieKey + fnDupOffset + fnDupSize > lfGet32 record (a.roff + atLength))
    "UpdateFileNameRoot: entry overflow"
  copyInto a.rs record (a.roff + a.aoff + ieKey + fnDupOffset) a.data 0 fnDupSize

/-- `LOP_UpdateRecordDataRoot` -/
def updateRecordDataRoot : Edit := do
  refuse (!checkIfIndexRoot a.rs record a.roff || !checkIfRootIndex record a.roff a.aoff)
    "UpdateRecordDataRoot: inconsistent"
  let e := a.roff + a.aoff
  let doff := lfGet16 record (e + ieDataOffset)
  refuse (add32 (a.aoff + doff) a.dlen > lfGet32 record (a.roff + atLength))
    "UpdateRecordDataRoot: overflow"
  copyInto a.rs record (e + doff) a.data 0 a.dlen

/-- `LOP_ZeroEndOfFileRecord` -/
def zeroEndOfFileRecord : Edit := do
  refuse (add32 a.roff a.dlen > a.rs) "ZeroEndOfFileRecord: overflow"
  copyInto a.rs record a.roff zeros 0 a.dlen

/-- The switch over the operations of MFT records. -/
def apply (op : Nat) : Edit :=
  if op = lopInitializeFileRecordSegment then a.initializeFileRecordSegment record
  else if op = lopDeallocateFileRecordSegment then a.deallocateFileRecordSegment record
  else if op = lopWriteEndOfFileRecordSegment then a.writeEndOfFileRecordSegment record
  else if op = lopCreateAttribute then a.createAttribute record
  else if op = lopDeleteAttribute then a.deleteAttribute record
  else if op = lopUpdateResidentValue then a.updateResidentValue record
  else if op = lopUpdateMappingPairs then a.updateMappingPairs record
  else if op = lopSetNewAttributeSizes then a.setNewAttributeSizes record
  else if op = lopAddIndexEntryRoot then a.addIndexEntryRoot record
  else if op = lopDeleteIndexEntryRoot then a.deleteIndexEntryRoot record
  else if op = lopSetIndexEntryVcnRoot then a.setIndexEntryVcnRoot record
  else if op = lopUpdateFileNameRoot then a.updateFileNameRoot record
  else if op = lopUpdateRecordDataRoot then a.updateRecordDataRoot record
  else if op = lopZeroEndOfFileRecord then a.zeroEndOfFileRecord record
  else .error (.incoherent "unexpected mft op")

end RecordAction

end Ttntfs.Logfile
