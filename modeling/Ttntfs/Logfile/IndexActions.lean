import Ttntfs.Logfile.RecordActions

/-!
# Operations on the clusters of an attribute

What each operation of the log that targets a non-resident attribute does to the
buffer that was read for it: plain values, bitmaps, and the entries of an index
block, which lies at the record offset of the buffer.
-/

namespace Ttntfs.Logfile

open Library.ByteMemory

/-- `LFS_MAGIC_INDX` -/
def lfsMagicIndx : Nat := 0x58444e49
/-- `ATTR_TYPE_INDEX_ALLOCATION` -/
def attrTypeIndexAllocation : Nat := 0xa0
/-- `BR_BITMAP_OFF` -/
def brBitmapOff : Nat := 0x00
/-- `BR_BITS` -/
def brBits : Nat := 0x04
/-- `BR_SIZE` -/
def brSize : Nat := 0x08
/-- `IH_FLAGS` -/
def ihFlags : Nat := 0x0c
/-- `IH_SIZE` -/
def ihSize : Nat := 0x10
/-- `INDEX_HDR_HAS_SUBNODES` -/
def indexHdrHasSubnodes : Nat := 0x01
/-- `IE_FLAGS` -/
def ieFlags : Nat := 0x0c
/-- `INDEX_ENTRY_NODE` -/
def indexEntryNode : Nat := 0x01
/-- `INDEX_ENTRY_END` -/
def indexEntryEnd : Nat := 0x02
/-- `IB_USA_OFS` -/
def ibUsaOfs : Nat := 0x04
/-- `IB_USA_COUNT` -/
def ibUsaCount : Nat := 0x06
/-- `IB_LSN` -/
def ibLsn : Nat := 0x08
/-- `IB_INDEX_HEADER` -/
def ibIndexHeader : Nat := 0x18

/-! ## Checks of an index block -/

/-- The entry loop of `check_index_header`. -/
def indexEntriesOk (hdr : Mem) (used minDe : Nat) (sub : Bool) : Nat → Nat → Bool
  | 0, _ => false
  | fuel + 1, o =>
    let esize := lfGet16 hdr (o + ieLength)
    let flags := lfGet16 hdr (o + ieFlags)
    if add32 o ieMinSize > used then false
    else if esize < minDe || add32 o esize > used then false
    else if (flags &&& indexEntryNode ≠ 0) ≠ sub then false
    else if flags &&& indexEntryEnd ≠ 0 then true
    else indexEntriesOk hdr used minDe sub fuel (add32 o esize)

/-- `check_index_header` -/
def checkIndexHeader (hdr : Mem) (bytes : Nat) : Bool :=
  let deOff := lfGet32 hdr ihEntriesOffset
  let used := lfGet32 hdr ihIndexLength
  let total := lfGet32 hdr ihAllocatedSize
  let sub := lfGet32 hdr ihFlags &&& indexHdrHasSubnodes ≠ 0
  let minDe := ieMinSize + if sub then 8 else 0
  if bytes < ihSize || deOff > sub32 bytes minDe || used > bytes || total > bytes ||
      add32 deOff minDe > used || used > total then false
  else indexEntriesOk hdr used minDe sub (used + 1) deOff

/-- `check_index_buffer` -/
def checkIndexBuffer (ib : Mem) (bytes : Nat) : Bool :=
  let fo := lfGet16 ib ibUsaOfs
  let fn := lfGet16 ib ibUsaCount
  if lfGet32 ib 0 ≠ lfsMagicIndx then false
  else if fo > sub32 lfsSectorSize ((bytes / 512 + 1) * 2) then false
  else if sub32 fn 1 * lfsSectorSize % 2 ^ 32 ≠ bytes then false
  else checkIndexHeader (fun i => ib (ibIndexHeader + i)) (sub32 bytes ibIndexHeader)

/-- The walk of `check_if_alloc_index`: `o` is the same place as `deOff`, counted from
the start of the block. -/
def allocIndexWalk (ib : Mem) (used attrOff : Nat) : Nat → Nat → Nat → Nat
  | 0, _, o => o
  | fuel + 1, deOff, o =>
    let esize := lfGet16 ib (ibIndexHeader + deOff + ieLength)
    if o < attrOff then
      if add32 deOff ieMinSize > used then o
      else if esize = 0 then o
      else allocIndexWalk ib used attrOff fuel (add32 deOff esize) (add32 o esize)
    else o

/-- `check_if_alloc_index` -/
def checkIfAllocIndex (ib : Mem) (attrOff : Nat) : Bool :=
  let deOff := lfGet32 ib (ibIndexHeader + ihEntriesOffset)
  let used := lfGet32 ib (ibIndexHeader + ihIndexLength)
  allocIndexWalk ib used attrOff (attrOff + 1) deOff (add32 ibIndexHeader deOff) = attrOff

/-! ## Bitmaps -/

/-- Set or clear a bit of the bitmap at `off`. -/
def putBit (off : Nat) (set : Bool) (m : Mem) (bit : Nat) : Mem :=
  let i := off + bit / 8
  let mask := UInt8.ofNat (2 ^ (bit % 8))
  Function.update m i (if set then m i ||| mask else m i &&& ~~~mask)

/-- `bitmap_op` of the bitmap at `off`. -/
def bitmapOp (m : Mem) (off bit nbits : Nat) (set : Bool) : Mem :=
  (List.range' bit nbits).foldl (putBit off set) m

/-! ## Index entries -/

/-- What an operation on an index block is given: the size of the block, the offset of
the entry, the data and its length. -/
structure IndexAction where
  size : Nat
  aoff : Nat
  data : Mem
  dlen : Nat

namespace IndexAction

variable (a : IndexAction) (ib : Mem)

/-- `used` of the index header. -/
def used : Nat := lfGet32 ib (ibIndexHeader + ihIndexLength)

/-- `total` of the index header. -/
def total : Nat := lfGet32 ib (ibIndexHeader + ihAllocatedSize)

/-- The message of an operation that does not fit the block. -/
def inconsistent : ReplayError := .incoherent "index operation inconsistent"

/-- `LOP_AddIndexEntryAllocation` -/
def addIndexEntryAllocation : Edit := do
  let esize := lfGet16 a.data ieLength
  if a.dlen < ieMinSize then throw inconsistent
  if esize > a.dlen || add32 (used ib) esize > total ib || a.aoff > ibIndexHeader + used ib then
    throw inconsistent
  let m ← moveIn a.size ib (a.aoff + esize) a.aoff (ibIndexHeader + used ib - a.aoff)
  let m ← copyInto a.size m a.aoff a.data 0 esize
  putIn a.size m 4 (ibIndexHeader + ihIndexLength) (used ib + esize)

/-- `LOP_DeleteIndexEntryAllocation` -/
def deleteIndexEntryAllocation : Edit := do
  let esize := lfGet16 ib (a.aoff + ieLength)
  if esize = 0 || a.aoff + esize > ibIndexHeader + used ib then throw inconsistent
  let m ← moveIn a.size ib a.aoff (a.aoff + esize) (ibIndexHeader + used ib - (a.aoff + esize))
  putIn a.size m 4 (ibIndexHeader + ihIndexLength) (sub32 (used ib) esize)

/-- `LOP_WriteEndOfIndexBuffer` -/
def writeEndOfIndexBuffer : Edit := do
  if add32 a.aoff a.dlen > add32 ibIndexHeader (total ib) then throw inconsistent
  let m ← putIn a.size ib 4 (ibIndexHeader + ihIndexLength)
    (add32 a.dlen (sub32 a.aoff ibIndexHeader))
  copyInto a.size m a.aoff a.data 0 a.dlen

/-- `LOP_SetIndexEntryVcnAllocation` -/
def setIndexEntryVcnAllocation : Edit := do
  let esize := lfGet16 ib (a.aoff + ieLength)
  if a.dlen < 8 || esize < ieMinSize + 8 || a.aoff + esize > ibIndexHeader + used ib then
    throw inconsistent
  putIn a.size ib 8 (a.aoff + esize - 8) (lfGet64 a.data 0)

/-- `LOP_UpdateFileNameAllocation` -/
def updateFileNameAllocation : Edit := do
  if a.dlen < fnDupSize ||
      a.aoff + ieKey + fnDupOffset + fnDupSize > ibIndexHeader + used ib then throw inconsistent
  copyInto a.size ib (a.aoff + ieKey + fnDupOffset) a.data 0 fnDupSize

/-- `LOP_UpdateRecordDataAllocation` -/
def updateRecordDataAllocation : Edit := do
  let doff := lfGet16 ib (a.aoff + ieDataOffset)
  if a.aoff + doff + a.dlen > ibIndexHeader + total ib then throw inconsistent
  copyInto a.size ib (a.aoff + doff) a.data 0 a.dlen

/-- The switch over the operations of index blocks. -/
def apply (op : Nat) : Edit :=
  if op = lopAddIndexEntryAllocation then a.addIndexEntryAllocation ib
  else if op = lopDeleteIndexEntryAllocation then a.deleteIndexEntryAllocation ib
  else if op = lopWriteEndOfIndexBuffer then a.writeEndOfIndexBuffer ib
  else if op = lopSetIndexEntryVcnAllocation then a.setIndexEntryVcnAllocation ib
  else if op = lopUpdateFileNameAllocation then a.updateFileNameAllocation ib
  else if op = lopUpdateRecordDataAllocation then a.updateRecordDataAllocation ib
  else .error inconsistent

end IndexAction

end Ttntfs.Logfile
