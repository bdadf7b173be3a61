import Ttntfs.Logfile.Analysis
import Ttntfs.Logfile.Flush

/-!
# Open attributes

The state of a replay, and how it finds out where an open attribute lies: from the
open attribute table it takes the file and the attribute's type and name, from the
file's record and the extent records that `$ATTRIBUTE_LIST` names the runs. Records
and clusters are read through the overlay, which keeps them, also where the function
that asked for them fails in the end. Allocation is taken to succeed.
-/

namespace Ttntfs.Logfile

open Library.ByteMemory

/-- `OA1_BYTES_PER_INDEX` -/
def oa1BytesPerIndex : Nat := 0x04
/-- `OA1_TYPE` -/
def oa1Type : Nat := 0x08
/-- `OA1_FILE_REF` -/
def oa1FileRef : Nat := 0x10
/-- `OA0_FILE_REF` -/
def oa0FileRef : Nat := 0x08
/-- `OA0_TYPE` -/
def oa0Type : Nat := 0x1c
/-- `OA0_BYTES_PER_INDEX` -/
def oa0BytesPerIndex : Nat := 0x28

/-- `ATTR_TYPE_ATTRIBUTE_LIST` -/
def attrTypeAttributeList : Nat := 0x20

/-- `AL_TYPE` -/
def alType : Nat := 0x00
/-- `AL_LENGTH` -/
def alLength : Nat := 0x04
/-- `AL_NAME_LENGTH` -/
def alNameLength : Nat := 0x06
/-- `AL_NAME_OFFSET` -/
def alNameOffset : Nat := 0x07
/-- `AL_LOWEST_VCN` -/
def alLowestVcn : Nat := 0x08
/-- `AL_MFT_REFERENCE` -/
def alMftReference : Nat := 0x10
/-- `AL_NAME` -/
def alName : Nat := 0x1a

/-! ## The state of a replay -/

/-- `struct open_attr` -/
structure OpenAttribute extends OpenAttr where
  loaded : Bool
  failed : Bool
  /-- Some runs came from an `$ATTRIBUTE_LIST` extent. -/
  inExtent : Bool
  mftNo : Nat
  type : Nat
  /-- In 16-bit units. -/
  nameLen : Nat
  name : Mem
  bytesPerIndex : Nat

/-- A cleared `struct open_attr`. -/
def OpenAttribute.cleared : OpenAttribute :=
  { OpenAttr.empty with
    loaded := false, failed := false, inExtent := false, mftNo := 0, type := 0, nameLen := 0
    name := zeros, bytesPerIndex := 0 }

/-- `ntfs_log_plan_kind` -/
inductive PlanKind where
  | mftRecord
  | clusters
  | skipped
  deriving DecidableEq

/-- `struct ntfs_log_plan_entry`; a field that its kind does not use is zero. -/
structure PlanEntry where
  kind : PlanKind
  lsn : Nat
  op : Nat
  undo : Bool
  targetAttr : Nat
  targetVcn : Nat
  mftNo : Nat
  lcn : Nat
  count : Nat
  why : String
  deriving DecidableEq

/-- What a replay works on: the volume, the overlay over it, the tables of the log
with the version of its restart record, the open attributes by their place in the
table, the run list for the aliasing check, and the plan so far. -/
structure Replay where
  ap : Apply
  dev : Device
  ovl : Overlay
  crstMajor : Nat
  tables : LogTables
  oa : Nat → OpenAttribute
  noa : Nat
  mftdata : OpenAttr
  mftLoaded : Bool
  plan : List PlanEntry

/-- How a replay fails, each with the numbers its message names. -/
inductive ReplayError where
  /-- `-ENOMEM`: the hash table cannot grow. -/
  | noMemory
  /-- "read cluster %llu failed" -/
  | readCluster (lcn : Nat)
  /-- "read mft record %llu failed" -/
  | readMftRecord (mftNo : Nat)
  /-- "attribute vcn %llu unmapped" -/
  | vcnUnmapped (vcn : Nat)
  /-- The mapping pairs of an attribute cannot be decoded. -/
  | badRuns
  /-- "open attribute entry 0x%x not allocated" -/
  | entryNotAllocated (off : Nat)
  /-- "open attribute 0x%x: mft record %llu unusable" -/
  | recordUnusable (off mftNo : Nat)
  /-- "open attribute 0x%x: extent record %llu unusable" -/
  | extentUnusable (off mftNo : Nat)
  /-- The attribute failed to load before. -/
  | loadFailed
  /-- "mft record 0 unusable" -/
  | mftUnusable
  /-- "mft record 0: undecodable $DATA runs" -/
  | mftUndecodable
  /-- "mft record 0: no non-resident $DATA" -/
  | mftResident
  /-- "cluster %llu written by replay lies inside $MFT" -/
  | insideMft (lcn : Nat)
  /-- The log and the volume do not agree, with the rest of the message after the lsn. -/
  | incoherent (text : String)
  /-- Not a result of the source but an access outside its memory. -/
  | overrun
  deriving DecidableEq

/-- A step of a replay. What it did to the state stays also where it fails. -/
abbrev ReplayM := EStateM ReplayError Replay

/-- `ovl_get_cluster`: the slot of the cluster and its data. -/
def ovlGetCluster (lcn : Nat) : ReplayM (Nat × Mem) := fun r =>
  match ovlCluCreate r.ovl.clu lcn with
  | none => .error .noMemory r
  | some (clu, i) =>
    match clu.slot i with
    | some { state := .clean data, .. } => .ok (i, data) { r with ovl.clu := clu }
    | some { state := .dirty data, .. } => .ok (i, data) { r with ovl.clu := clu }
    | _ =>
      if r.ap.readable lcn then
        .ok (i, r.dev lcn) { r with ovl.clu := clu.set i { lcn, state := .clean (r.dev lcn) } }
      else .error (.readCluster lcn) { r with ovl.clu := clu }

/-- `ovl_get_mft` without `init`. -/
def getMft (mftNo : Nat) : ReplayM OvlMft := fun r =>
  match ovlGetMft r.ovl r.ap r.dev mftNo with
  | (ovl, none) => .error (.readMftRecord mftNo) { r with ovl }
  | (ovl, some m) => .ok m { r with ovl }

/-- The cluster of an attribute that holds a byte. -/
def attrCluster (oa : OpenAttr) (vcn : Nat) : ReplayM Nat :=
  match runLookup oa vcn with
  | none => throw (.vcnUnmapped vcn)
  | some lcn => if lcn = sparseLcn then throw (.vcnUnmapped vcn) else pure lcn

/-- The number of bytes that one round of `attr_io` transfers. -/
def roundBytes (cs vbo bytes : Nat) : Nat := if cs - vbo % cs < bytes then cs - vbo % cs else bytes

/-- `attr_io` that reads, with the number of bytes as a bound for the rounds. The
bytes before `pos` of the buffer have been read. -/
def attrRead (oa : OpenAttr) : Nat → Nat → Nat → Nat → Mem → ReplayM Mem
  | 0, _, _, _, buf => pure buf
  | fuel + 1, vbo, bytes, pos, buf =>
    if bytes = 0 then pure buf
    else do
      let cs := (← get).ovl.cs
      let n := roundBytes cs vbo bytes
      let lcn ← attrCluster oa (vbo / cs)
      let (_, data) ← ovlGetCluster lcn
      attrRead oa fuel ((vbo + n) % 2 ^ 64) (bytes - n) (pos + n)
        (copyRange buf pos data (vbo % cs) n)

/-- `attr_io` that writes. -/
def attrWrite (oa : OpenAttr) (buf : Mem) : Nat → Nat → Nat → Nat → ReplayM Unit
  | 0, _, _, _ => pure ()
  | fuel + 1, vbo, bytes, pos =>
    if bytes = 0 then pure ()
    else do
      let cs := (← get).ovl.cs
      let n := roundBytes cs vbo bytes
      let lcn ← attrCluster oa (vbo / cs)
      let (i, data) ← ovlGetCluster lcn
      let c := { lcn, state := .dirty (copyRange data (vbo % cs) buf pos n) }
      modify fun r => { r with ovl.clu := r.ovl.clu.set i c }
      attrWrite oa buf fuel ((vbo + n) % 2 ^ 64) (bytes - n) (pos + n)

/-! ## Loading an attribute -/

/-- `oa_entry`: the offset of the entry is allocated. -/
def oaEntryOk (r : Replay) (off : Nat) : Bool :=
  match r.tables.oatbl with
  | none => false
  | some t => lfsTableEntryOk t off

/-- `oa_slot` -/
def oaSlot (r : Replay) (off : Nat) : Option Nat :=
  match r.tables.oatbl with
  | none => none
  | some t =>
    if off < rtHeaderSize then none
    else
      let idx := (off - rtHeaderSize) / t.esize
      if idx ≥ r.noa then none else some idx

/-- `mft_ref_no`: the record number of a reference. -/
def mftRefNo (m : Mem) (off : Nat) : Nat := lfGet32 m off + lfGet16 m (off + 4) * 2 ^ 32

/-- The first `2 * len` bytes from two places are the same. -/
def sameName (m : Mem) (off : Nat) (name : Mem) (len : Nat) : Bool :=
  (List.range (2 * len)).all fun i => m (off + i) = name i

/-- `attr_matches` of the attribute at `off`. -/
def attrMatches (record : Mem) (off type : Nat) (name : Mem) (nameLen : Nat) : Bool :=
  if lfGet32 record (off + atType) ≠ type || (record (off + atNameLength)).toNat ≠ nameLen then false
  else nameLen = 0 || sameName record (off + lfGet16 record (off + atNameOffset)) name nameLen

/-- The offsets of the attributes of a checked record, from `off` on. -/
def attrOffsetsFrom (record : Mem) : Nat → Nat → List Nat
  | 0, _ => []
  | fuel + 1, off =>
    if lfGet32 record (off + atType) = attrTypeEnd then []
    else off :: attrOffsetsFrom record fuel (off + lfGet32 record (off + atLength))

/-- The offsets of the attributes of a checked record. An attribute has a positive
length, so the record size bounds their number. -/
def attrOffsets (rs : Nat) (record : Mem) : List Nat :=
  attrOffsetsFrom record (rs + 1) (lfGet16 record mrAttrsOffset)

/-- `read_attr_value` of the attribute at `off`: the value and its length. -/
def readAttrValue (record : Mem) (off : Nat) : ReplayM (Mem × Nat) :=
  if record (off + atNonResident) = 0 then
    let vo := lfGet16 record (off + atValueOffset)
    pure (fun i => record (off + vo + i), lfGet32 record (off + atValueLength))
  else
    match oaLoadExtent OpenAttr.empty record off with
    | (_, false) => throw .badRuns
    | (tmp, true) => do
      let len := tmp.dataSize % 2 ^ 32
      let value ← attrRead tmp len 0 len 0 zeros
      return (value, len)

/-- The fields that an entry of the open attribute table and the names of the log
determine. -/
def oaIdentify (r : Replay) (t : Table) (off : Nat) (oa : OpenAttribute) : OpenAttribute :=
  let oa := if r.crstMajor ≠ 0 then
      { oa with type := lfGet32 t.buf (off + oa1Type)
                bytesPerIndex := lfGet32 t.buf (off + oa1BytesPerIndex)
                mftNo := mftRefNo t.buf (off + oa1FileRef) }
    else
      { oa with type := lfGet32 t.buf (off + oa0Type)
                bytesPerIndex := lfGet32 t.buf (off + oa0BytesPerIndex)
                mftNo := mftRefNo t.buf (off + oa0FileRef) }
  names (r.tables.attrNamesLen + 1) 0 oa
where
  /-- The walk over the names; the last one for the entry counts. -/
  names : Nat → Nat → OpenAttribute → OpenAttribute
  | 0, _, oa => oa
  | fuel + 1, p, oa =>
    let eo := lfGet16 r.tables.attrNames (p + anOffset)
    let nb := lfGet16 r.tables.attrNames (p + anNameBytes)
    if p + anName > r.tables.attrNamesLen then oa
    else if eo = 0 then oa
    else if p + anName + nb > r.tables.attrNamesLen then oa
    else if eo = off && nb ≤ 2 * 255 then
      names fuel (p + anName + nb)
        { oa with nameLen := nb / 2, name := copyRange oa.name 0 r.tables.attrNames (p + anName) nb }
    else names fuel (p + anName + nb) oa

/-- Load the extents among the attributes at `offs` for which `wanted` holds, up to
the first that cannot be decoded. -/
def loadExtents (record : Mem) (wanted : Nat → Bool) : List Nat → OpenAttr → OpenAttr × Bool
  | [], oa => (oa, true)
  | off :: offs, oa =>
    if wanted off then
      match oaLoadExtent oa record off with
      | (oa, false) => (oa, false)
      | (oa, true) => loadExtents record wanted offs oa
    else loadExtents record wanted offs oa

/-- The last `$ATTRIBUTE_LIST` of a record. -/
def lastAttributeList (record : Mem) (offs : List Nat) : Option Nat :=
  (offs.filter fun off => lfGet32 record (off + atType) = attrTypeAttributeList).getLast?

/-- Keep an open attribute in its slot. -/
def setOa (idx : Nat) (oa : OpenAttribute) : ReplayM Unit :=
  modify fun r => { r with oa := Function.update r.oa idx oa }

/-- Keep an open attribute as failed. -/
def failOa {α : Type} (idx : Nat) (oa : OpenAttribute) (e : ReplayError) : ReplayM α := do
  setOa idx { oa with failed := true }
  throw e

/-- An entry of `$ATTRIBUTE_LIST` names an extent of the attribute outside its base
record. -/
def listEntryMatches (al : Mem) (p : Nat) (oa : OpenAttribute) : Bool :=
  lfGet32 al (p + alType) = oa.type && (al (p + alNameLength)).toNat = oa.nameLen &&
    (oa.nameLen = 0 || sameName al (p + (al (p + alNameOffset)).toNat) oa.name oa.nameLen) &&
    mftRefNo al (p + alMftReference) ≠ oa.mftNo

/-- Go on with the extents that were loaded, or keep the attribute as failed. -/
def goOn (idx : Nat) (oa : OpenAttribute) : OpenAttr × Bool → ReplayM OpenAttribute
  | (data, true) => pure { oa with toOpenAttr := data }
  | (data, false) => failOa idx { oa with toOpenAttr := data } .badRuns

/-- Load what one entry of `$ATTRIBUTE_LIST` names. -/
def oaLoadListed (idx off : Nat) (al : Mem) (p : Nat) (oa : OpenAttribute) :
    ReplayM OpenAttribute := do
  let refNo := mftRefNo al (p + alMftReference)
  let lvcn := lfGet64 al (p + alLowestVcn)
  let oa := { oa with inExtent := true }
  let em ← tryCatch (getMft refNo) fun _ => failOa idx oa (.extentUnusable off refNo)
  let rs := (← get).ovl.rs
  if em.bad || !checkFileRecord rs em.record then failOa idx oa (.extentUnusable off refNo)
  else
    goOn idx oa (loadExtents em.record
      (fun eo => attrMatches em.record eo oa.type oa.name oa.nameLen &&
        em.record (eo + atNonResident) ≠ 0 && lfGet64 em.record (eo + atLowestVcn) = lvcn)
      (attrOffsets rs em.record) oa.toOpenAttr)

/-- The loop over the entries of `$ATTRIBUTE_LIST`, each at least its header long. -/
def oaLoadList (idx off : Nat) (al : Mem) (alLen : Nat) :
    Nat → Nat → OpenAttribute → ReplayM OpenAttribute
  | 0, _, oa => pure oa
  | fuel + 1, p, oa =>
    let elen := lfGet16 al (p + alLength)
    if (p + alName) % 2 ^ 32 > alLen then pure oa
    else if elen < alName || (p + elen) % 2 ^ 32 > alLen then pure oa
    else if listEntryMatches al p oa then do
      let oa ← oaLoadListed idx off al p oa
      oaLoadList idx off al alLen fuel ((p + elen) % 2 ^ 32) oa
    else oaLoadList idx off al alLen fuel ((p + elen) % 2 ^ 32) oa

/-- The extents that the attribute list of a record names. -/
def oaLoadLists (idx off : Nat) (record : Mem) (list : Option Nat) (oa : OpenAttribute) :
    ReplayM OpenAttribute :=
  match list with
  | none => pure oa
  | some o => do
    let (al, alLen) ← tryCatch (readAttrValue record o) fun e => failOa idx oa e
    oaLoadList idx off al alLen (alLen + 1) 0 oa

/-- Find the runs of an identified attribute. -/
def oaResolve (idx off : Nat) (oa : OpenAttribute) : ReplayM OpenAttribute := do
  let m ← tryCatch (getMft oa.mftNo) fun e => failOa idx oa e
  let rs := (← get).ovl.rs
  if m.bad || !checkFileRecord rs m.record then failOa idx oa (.recordUnusable off oa.mftNo)
  else
    let offs := attrOffsets rs m.record
    let oa ← goOn idx oa (loadExtents m.record
      (fun o => attrMatches m.record o oa.type oa.name oa.nameLen) offs oa.toOpenAttr)
    oaLoadLists idx off m.record (lastAttributeList m.record offs) oa

/-- The part of `oa_load` for an attribute that is not loaded. -/
def oaLoadFresh (idx off : Nat) (oa : OpenAttribute) : ReplayM OpenAttribute := do
  let oa ← oaResolve idx off oa
  setOa idx oa
  return oa

/-- `oa_load`: the open attribute of the entry at `off`. -/
def oaLoad (off : Nat) : ReplayM OpenAttribute := do
  let r ← get
  match oaSlot r off, r.tables.oatbl with
  | some idx, some t =>
    if !oaEntryOk r off then throw (.entryNotAllocated off)
    else if (r.oa idx).loaded then
      if (r.oa idx).failed then throw .loadFailed else pure (r.oa idx)
    else oaLoadFresh idx off (oaIdentify r t off { r.oa idx with loaded := true })
  | _, _ => throw (.entryNotAllocated off)

/-- `oa_is_mft_data` -/
def oaIsMftData (oa : OpenAttribute) : Bool :=
  oa.mftNo = 0 && oa.type = attrTypeData && oa.nameLen = 0

/-- What `oa_invalidate_mft` leaves of one open attribute. -/
def oaInvalidated (mftNo : Nat) (oa : OpenAttribute) : OpenAttribute :=
  if oa.loaded && (oa.mftNo = mftNo || oa.inExtent) then
    { oa with runs := [], loaded := false, failed := false, resident := false
              allocSize := 0, dataSize := 0 }
  else oa

/-- `oa_invalidate_mft` -/
def oaInvalidateMft (mftNo : Nat) : ReplayM Unit :=
  modify fun r =>
    let oa := fun i => if i < r.noa then oaInvalidated mftNo (r.oa i) else r.oa i
    if r.mftLoaded && mftNo = 0 then { r with oa, mftdata := OpenAttr.empty, mftLoaded := false }
    else { r with oa }

end Ttntfs.Logfile
