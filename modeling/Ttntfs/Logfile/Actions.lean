import Ttntfs.Logfile.IndexActions

/-!
# Applying an operation of the log

`do_action`: an operation on an MFT record or on the clusters of an attribute is
checked against the volume, applied to the overlay, and entered in the plan. An
operation that its target already carries is skipped.
-/

namespace Ttntfs.Logfile

open Library.ByteMemory

/-- `NR_RECORD_OFFSET` -/
def nrRecordOffset : Nat := 0x10
/-- `NR_ATTRIBUTE_OFFSET` -/
def nrAttributeOffset : Nat := 0x12
/-- `NR_CLUSTER_BLOCK_OFFSET`, in 512-byte units. -/
def nrClusterBlockOffset : Nat := 0x14

/-- `struct action_ctx` -/
structure ActionCtx where
  /-- The lsn of the record (redo) or 0 (undo). -/
  lsn : Nat
  record : LfsRecord
  op : Nat
  data : Mem
  dlen : Nat
  undo : Bool

namespace ActionCtx

variable (a : ActionCtx)

/-- `roff` -/
def roff : Nat := lfGet16 a.record.data nrRecordOffset

/-- `aoff` -/
def aoff : Nat := lfGet16 a.record.data nrAttributeOffset

/-- `cbo` -/
def cbo : Nat := lfGet16 a.record.data nrClusterBlockOffset * lfsSectorSize

/-- `vbo`: the byte of the attribute at which the operation works. -/
def vbo (cs : Nat) : Nat := (a.cbo + a.record.targetVcn * cs) % 2 ^ 64

/-- The plan entry of the operation, for an attribute. -/
def planEntry (targetAttr : Nat) (kind : PlanKind) (mftNo lcn count : Nat) : PlanEntry :=
  { kind, lsn := a.lsn, op := a.op, undo := a.undo, targetAttr, targetVcn := a.record.targetVcn
    mftNo, lcn, count, why := "" }

/-- The plan entry of an operation that is skipped. -/
def skipEntry (why : String) : PlanEntry :=
  { kind := .skipped, lsn := a.lsn, op := a.op, undo := a.undo, targetAttr := 0, targetVcn := 0
    mftNo := 0, lcn := 0, count := 0, why }

end ActionCtx

/-- What `do_action` returns where it does not fail: 0 or `LFS_SKIPPED`. -/
inductive Outcome where
  | applied
  | skipped
  deriving DecidableEq

/-- `lfs_plan_add` -/
def lfsPlanAdd (e : PlanEntry) : ReplayM Unit := modify fun r => { r with plan := r.plan ++ [e] }

/-- `plan_skip` -/
def planSkip (a : ActionCtx) (why : String) : ReplayM Outcome := do
  lfsPlanAdd (a.skipEntry why)
  return .skipped

/-- An edit as a step of a replay. -/
def edited {α : Type} : Except ReplayError α → ReplayM α
  | .ok x => pure x
  | .error e => throw e

/-- `lsn_already_applied` -/
def lsnAlreadyApplied (hdr : Mem) (rlsn : Nat) : Bool :=
  if rlsn = 0 then false
  else if lfGet32 hdr 0 = lfsMagicHole then true
  else lfGet64 hdr 8 ≥ rlsn

/-! ## MFT records -/

/-- The record `ovl_get_mft` with `init` makes of what was read, if anything. -/
def ovlMftOfInit (rs mftNo : Nat) : Option Mem → OvlMft
  | none => { mftNo, record := zeros, dirty := false, bad := false }
  | some raw =>
    if lfGet32 raw 0 = lfsMagicFile || lfGet32 raw 0 = lfsMagicBaad then ovlMftOfRead rs mftNo raw
    else { mftNo, record := zeros, dirty := false, bad := false }

/-- `ovl_get_mft` with `init`. -/
def initMft (mftNo : Nat) : ReplayM OvlMft := fun r =>
  match ovlMftLookup r.ovl mftNo with
  | some m => .ok m r
  | none =>
    let capMft := if r.ovl.mft.length = r.ovl.capMft then
        if r.ovl.capMft = 0 then 64 else r.ovl.capMft * 2
      else r.ovl.capMft
    let m := ovlMftOfInit r.ovl.rs mftNo (r.ap.readMftRecord r.dev mftNo)
    .ok m { r with ovl := { r.ovl with capMft, mft := r.ovl.mft ++ [m] } }

/-- Keep a record of the overlay. The numbers of the records are distinct. -/
def setMft (m : OvlMft) : ReplayM Unit :=
  modify fun r =>
    { r with ovl.mft := r.ovl.mft.map fun other => if other.mftNo = m.mftNo then m else other }

/-- Heuristic H1 for lcn `i` of a log record: it is not given, or the run list puts the
cluster there. -/
def pageLcnAgrees (runs : List Run) (record : LfsRecord) (i : Nat) : Bool :=
  record.pageLcn i = 0 ||
    runLookupMapped runs ((record.targetVcn + i) % 2 ^ 64) = some (record.pageLcn i)

/-- Why an operation on a record is not applied: nothing, an error, or the record
already carries it. -/
def mftGuard (rs : Nat) (a : ActionCtx) (m : OvlMft) : Except ReplayError Outcome :=
  if a.op = lopInitializeFileRecordSegment then
    if !m.bad && lfGet32 m.record 0 = lfsMagicFile && lsnAlreadyApplied m.record a.lsn then
      .ok .skipped
    else .ok .applied
  else if a.op = lopDeallocateFileRecordSegment then
    if !m.bad && lsnAlreadyApplied m.record a.lsn then .ok .skipped
    else if m.bad then .error (.incoherent "cannot deallocate BAAD mft record")
    else .ok .applied
  else if m.bad then .error (.incoherent "mft record is BAAD")
  else if lsnAlreadyApplied m.record a.lsn then .ok .skipped
  else if !checkFileRecord rs m.record then .error (.incoherent "mft record fails validation")
  else .ok .applied

/-- The operations after which open attributes are looked up again. -/
def opInvalidates (op : Nat) : Bool :=
  [lopInitializeFileRecordSegment, lopDeallocateFileRecordSegment, lopWriteEndOfFileRecordSegment,
    lopCreateAttribute, lopDeleteAttribute, lopUpdateResidentValue, lopUpdateMappingPairs,
    lopSetNewAttributeSizes, lopZeroEndOfFileRecord].contains op

/-- The record after the operation, with its lsn. -/
def editRecord (rs : Nat) (a : ActionCtx) (record : Mem) : Edit := do
  refuse (a.roff ≥ rs) "record offset out of range"
  let m ← RecordAction.apply
    { rs, roff := a.roff, aoff := a.aoff, data := a.data, dlen := a.dlen
      redoLength := a.record.redoLength, undoLength := a.record.undoLength } record a.op
  if a.lsn ≠ 0 then putIn rs m 8 mrLsn a.lsn else .ok m

/-- The record an operation targets. -/
def targetMft (op mftNo : Nat) : ReplayM OvlMft :=
  if op = lopInitializeFileRecordSegment then initMft mftNo else getMft mftNo

/-- Have the open attributes looked up again where the operation asks for it. -/
def noteChange (op mftNo : Nat) : ReplayM Unit :=
  if opInvalidates op then oaInvalidateMft mftNo else pure ()

/-- Apply an operation to a record of the overlay. -/
def applyToMft (targetAttr : Nat) (a : ActionCtx) (mftNo : Nat) (m : OvlMft) : ReplayM Outcome := do
  let record ← edited (editRecord (← get).ovl.rs a m.record)
  setMft { m with record, dirty := true, bad := false }
  noteChange a.op mftNo
  lfsPlanAdd (a.planEntry targetAttr .mftRecord mftNo 0 0)
  return .applied

/-- The part of `do_action` for MFT records after heuristic H1. -/
def changeMft (targetAttr : Nat) (a : ActionCtx) (mftNo : Nat) : ReplayM Outcome := do
  let m ← targetMft a.op mftNo
  let outcome ← edited (mftGuard (← get).ovl.rs a m)
  match outcome with
  | .skipped => planSkip a "mft record already at or past lsn"
  | .applied => applyToMft targetAttr a mftNo m

/-- The part of `do_action` for MFT records. -/
def mftAction (targetAttr : Nat) (a : ActionCtx) : ReplayM Outcome := do
  let ovl := (← get).ovl
  let mftNo := a.vbo ovl.cs / ovl.rs
  let oa ← tryCatch (oaLoad targetAttr) fun _ =>
    throw (.incoherent "mft op targets unloadable attribute")
  if !oaIsMftData oa then
    throw (.incoherent "mft op targets attribute which is not $MFT:$DATA")
  else if !(List.range a.record.lcnsToFollow).all (pageLcnAgrees oa.runs a.record) then
    throw (.incoherent "logged lcn for $MFT vcn does not match $MFT's run list")
  else if mftNo ≥ 2 ^ 48 then throw (.incoherent "absurd mft record number")
  else changeMft targetAttr a mftNo

/-! ## Clusters -/

/-- The number of bytes that an operation on clusters reads and writes; none where the
offset lies behind the logged clusters or the number is absurd. -/
def transferBytes (cs : Nat) (a : ActionCtx) (oa : OpenAttribute) : Except ReplayError Nat := do
  let lco := a.record.lcnsToFollow * cs
  let bytes := if a.op = lopUpdateNonresidentValue then a.dlen else 0
  let bytes := if oa.type = attrTypeIndexAllocation && bytes < oa.bytesPerIndex then
      oa.bytesPerIndex
    else bytes
  let bytes ← if bytes ≠ 0 then .ok bytes
    else if lco ≤ a.cbo then .error (.incoherent "cluster offset beyond logged clusters")
    else .ok ((lco - a.cbo) % 2 ^ 32)
  let bytes := add32 bytes a.roff
  let bytes := if oa.type = attrTypeIndexAllocation then add32 bytes 511 / 512 * 512 else bytes
  refuse (bytes > 64 * 1024 * 1024) "absurd transfer size"
  return bytes

/-- Replace the index block in the buffer. -/
def putBlock (buf ib : Mem) (roff bytes : Nat) : Mem := copyRange buf roff ib 0 (sub32 bytes roff)

/-- The block at the record offset of the buffer. -/
def blockAt (buf : Mem) (roff : Nat) : Mem := fun i => buf (roff + i)

/-- Take the protection off an index block that was read: the buffer, and whether it
had one. -/
def deprotect (a : ActionCtx) (oa : OpenAttribute) (bytes : Nat) (buf : Mem) :
    Except ReplayError (Mem × Bool) :=
  if oa.type = attrTypeIndexAllocation && lfGet32 buf a.roff = lfsMagicIndx then
    match lfsFixupPostRead (blockAt buf a.roff) (sub32 bytes a.roff) lfsSectorSize with
    | some (ib, false) => .ok (putBlock buf ib a.roff bytes, true)
    | _ => .error (.incoherent "index block torn")
  else .ok (buf, false)

/-- `LOP_UpdateNonresidentValue` -/
def updateNonresidentValue (cs : Nat) (a : ActionCtx) (bytes : Nat) (buf : Mem)
    (deprotected : Bool) : Edit := do
  refuse (a.record.lcnsToFollow * cs < a.cbo + a.roff + a.dlen)
    "UpdateNonresidentValue: overflow"
  let buf ← copyInto bytes buf a.roff a.data 0 a.dlen
  if deprotected || lfGet32 buf a.roff = lfsMagicIndx then
    match lfsFixupPreWrite (blockAt buf a.roff) (sub32 bytes a.roff) lfsSectorSize with
    | none => .error (.incoherent "UpdateNonresidentValue: cannot re-protect index block")
    | some ib => .ok (putBlock buf ib a.roff bytes)
  else .ok buf

/-- `LOP_SetBitsInNonresidentBitMap` and `LOP_ClearBitsInNonresidentBitMap` -/
def updateBitMap (cs : Nat) (a : ActionCtx) (bytes : Nat) (buf : Mem) : Edit := do
  let lco := a.record.lcnsToFollow * cs
  refuse (a.dlen < brSize) "bitmap op: short data"
  let boff := lfGet32 a.data brBitmapOff
  let bits := lfGet32 a.data brBits
  refuse (a.cbo + (boff + 7) / 8 > lco || a.cbo + (boff + bits + 7) / 8 > lco ||
    a.roff + (boff + bits + 7) / 8 > bytes) "bitmap op: range outside logged clusters"
  return bitmapOp buf a.roff boff bits (a.op = lopSetBitsInNonresidentBitMap)

/-- The operations on index blocks: the buffer afterwards, none where the block
already carries the operation. -/
def updateIndexBlock (a : ActionCtx) (bytes : Nat) (buf : Mem) :
    Except ReplayError (Option Mem) := do
  let ib := blockAt buf a.roff
  let size := sub32 bytes a.roff
  refuse (lfGet32 ib 0 = lfsMagicBaad) "index block is BAAD"
  if lsnAlreadyApplied ib a.lsn then return none
  else
    refuse (!checkIndexBuffer ib size || !checkIfAllocIndex ib a.aoff)
      "index block fails validation"
    let ib ← IndexAction.apply { size, aoff := a.aoff, data := a.data, dlen := a.dlen } ib a.op
    let ib ← if a.lsn ≠ 0 then putIn size ib 8 ibLsn a.lsn else .ok ib
    match lfsFixupPreWrite ib size lfsSectorSize with
    | none => .error IndexAction.inconsistent
    | some ib => return some (putBlock buf ib a.roff bytes)

/-- The switch over the operations on clusters. -/
def editClusters (cs : Nat) (a : ActionCtx) (bytes : Nat) (buf : Mem) (deprotected : Bool) :
    Except ReplayError (Option Mem) :=
  if a.op = lopUpdateNonresidentValue then
    (updateNonresidentValue cs a bytes buf deprotected).map some
  else if a.op = lopSetBitsInNonresidentBitMap || a.op = lopClearBitsInNonresidentBitMap then
    (updateBitMap cs a bytes buf).map some
  else updateIndexBlock a bytes buf

/-- The part of `do_action` for clusters. -/
def attrAction (targetAttr : Nat) (a : ActionCtx) : ReplayM Outcome := do
  let cs := (← get).ovl.cs
  let oa ← oaLoad targetAttr
  let bytes ← edited (transferBytes cs a oa)
  let vbo := a.vbo cs
  let buf ← attrRead oa.toOpenAttr bytes vbo bytes 0 zeros
  let (buf, deprotected) ← edited (deprotect a oa bytes buf)
  match ← edited (editClusters cs a bytes buf deprotected) with
  | none => planSkip a "index block already at or past lsn"
  | some buf =>
    attrWrite oa.toOpenAttr buf bytes vbo bytes 0
    let firstLcn := if bytes = 0 then sparseLcn else (runLookup oa.toOpenAttr (vbo / cs)).getD 0
    lfsPlanAdd (a.planEntry targetAttr .clusters 0 firstLcn
      ((bytes + vbo % cs + cs - 1) % 2 ^ 32 / cs))
    return .applied

/-- `do_action` -/
def doAction (targetAttr : Nat) (a : ActionCtx) : ReplayM Outcome :=
  if opIsMft a.op then mftAction targetAttr a
  else if opIsAttr a.op then attrAction targetAttr a
  else throw (.incoherent "op has no apply handler")

end Ttntfs.Logfile
