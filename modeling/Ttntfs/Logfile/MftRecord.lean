import Ttntfs.Logfile.Layout

/-!
# MFT records and run lists

The parts of MFT records that replay reads: the update sequence array that
protects a record on the device (`logfile_pages.c`), the validation of a record
before its attributes are walked, and the run list of a non-resident attribute
(`logfile_replay.c`). A buffer carries its length beside it; 32- and 64-bit sums
are reduced where the source may wrap them.
-/

namespace Ttntfs.Logfile

open Library.ByteMemory

/-- `LFS_SECTOR_SIZE` -/
def lfsSectorSize : Nat := 512
/-- `LFS_MAGIC_FILE` -/
def lfsMagicFile : Nat := 0x454c4946
/-- `LFS_MAGIC_BAAD` -/
def lfsMagicBaad : Nat := 0x44414142

/-- `MR_USA_OFS` -/
def mrUsaOfs : Nat := 0x04
/-- `MR_USA_COUNT` -/
def mrUsaCount : Nat := 0x06
/-- `MR_ATTRS_OFFSET` -/
def mrAttrsOffset : Nat := 0x14
/-- `MR_FLAGS` -/
def mrFlags : Nat := 0x16
/-- `MR_BYTES_IN_USE` -/
def mrBytesInUse : Nat := 0x18
/-- `MR_BYTES_ALLOCATED` -/
def mrBytesAllocated : Nat := 0x1c
/-- `MR_FIXUP_OFFSET_1` -/
def mrFixupOffset1 : Nat := 0x2a
/-- `MFT_RECORD_IN_USE` -/
def mftRecordInUse : Nat := 0x0001

/-- `AT_TYPE` -/
def atType : Nat := 0x00
/-- `AT_LENGTH` -/
def atLength : Nat := 0x04
/-- `AT_NON_RESIDENT` -/
def atNonResident : Nat := 0x08
/-- `AT_NAME_LENGTH` -/
def atNameLength : Nat := 0x09
/-- `AT_NAME_OFFSET` -/
def atNameOffset : Nat := 0x0a
/-- `AT_VALUE_LENGTH` -/
def atValueLength : Nat := 0x10
/-- `AT_VALUE_OFFSET` -/
def atValueOffset : Nat := 0x14
/-- `AT_RESIDENT_SIZE` -/
def atResidentSize : Nat := 0x18
/-- `AT_LOWEST_VCN` -/
def atLowestVcn : Nat := 0x10
/-- `AT_HIGHEST_VCN` -/
def atHighestVcn : Nat := 0x18
/-- `AT_MAPPING_PAIRS_OFFSET` -/
def atMappingPairsOffset : Nat := 0x20
/-- `AT_ALLOCATED_SIZE` -/
def atAllocatedSize : Nat := 0x28
/-- `AT_DATA_SIZE` -/
def atDataSize : Nat := 0x30
/-- `AT_NONRESIDENT_SIZE` -/
def atNonresidentSize : Nat := 0x40
/-- `ATTR_TYPE_DATA` -/
def attrTypeData : Nat := 0x80
/-- `ATTR_TYPE_END` -/
def attrTypeEnd : Nat := 0xffffffff

/-! ## The update sequence array -/

/-- The test both fixup functions make of the array's place and size. -/
def usaOk (record : Mem) (bytes sector : Nat) : Bool :=
  let usaOfs := lfGet16 record mrUsaOfs
  let usaCount := lfGet16 record mrUsaCount
  !(usaOfs % 2 = 1 || usaCount < 2 || usaOfs + usaCount * 2 > sector ||
    (usaCount - 1) * sector % 2 ^ 32 ≠ bytes)

/-- `lfs_fixup_post_read`: the record with its sector tails restored, and whether
some tail did not carry the sequence number; none is `-EINVAL`. -/
def lfsFixupPostRead (record : Mem) (bytes sector : Nat) : Option (Mem × Bool) :=
  let usaOfs := lfGet16 record mrUsaOfs
  let usn := lfGet16 record usaOfs
  if !usaOk record bytes sector then none
  else
    some <| (List.range' 1 (lfGet16 record mrUsaCount - 1)).foldl
      (fun (m, torn) i =>
        let p := i * sector - 2
        (lfPut16 m p (lfGet16 m (usaOfs + i * 2)), torn || lfGet16 m p ≠ usn))
      (record, false)

/-- `lfs_fixup_pre_write`: the record with its sequence number raised and its sector
tails put away; none is `-EINVAL`. -/
def lfsFixupPreWrite (record : Mem) (bytes sector : Nat) : Option Mem :=
  let usaOfs := lfGet16 record mrUsaOfs
  let raised := (lfGet16 record usaOfs + 1) % 2 ^ 16
  let usn := if raised = 0xffff || raised = 0 then 1 else raised
  if !usaOk record bytes sector then none
  else
    some <| (List.range' 1 (lfGet16 record mrUsaCount - 1)).foldl
      (fun m i =>
        let p := i * sector - 2
        lfPut16 (lfPut16 m (usaOfs + i * 2) (lfGet16 m p)) p usn)
      (lfPut16 record usaOfs usn)

/-! ## Walking the attributes -/

/-- The attribute loop of `check_file_record`: the offset of the end mark, or none
where an attribute is malformed. Every attribute is at least its resident header
long, so the record size bounds the rounds. -/
def attributesEnd (rs : Nat) (record : Mem) : Nat → Nat → Option Nat
  | 0, _ => none
  | fuel + 1, off =>
    if off + 4 > rs then none
    else if lfGet32 record (off + atType) = attrTypeEnd then some off
    else if off + atResidentSize > rs then none
    else
      let len := lfGet32 record (off + atLength)
      let nameLength := (record (off + atNameLength)).toNat
      if len < atResidentSize || len % 8 ≠ 0 || off + len > rs then none
      else if nameLength ≠ 0 && lfGet16 record (off + atNameOffset) + nameLength * 2 > len then none
      else if record (off + atNonResident) = 0 then
        let vl := lfGet32 record (off + atValueLength)
        let vo := lfGet16 record (off + atValueOffset)
        if vl ≥ len || vo + vl > len then none else attributesEnd rs record fuel (off + len)
      else if record (off + atNonResident) = 1 then
        if len < atNonresidentSize then none
        else if lfGet16 record (off + atMappingPairsOffset) > len then none
        else if lfGet64 record (off + atLowestVcn) >
            (lfGet64 record (off + atHighestVcn) + 1) % 2 ^ 64 then none
        else attributesEnd rs record fuel (off + len)
      else none

/-- `check_file_record` -/
def checkFileRecord (rs : Nat) (record : Mem) : Bool :=
  let fo := lfGet16 record mrUsaOfs
  let fn := lfGet16 record mrUsaCount
  let ao := lfGet16 record mrAttrsOffset
  let used := lfGet32 record mrBytesInUse
  if lfGet32 record 0 ≠ lfsMagicFile then false
  else if fo > (lfsSectorSize + 2 ^ 32 - (rs / 512 + 1) * 2) % 2 ^ 32 ||
      (fn + 2 ^ 32 - 1) % 2 ^ 32 * lfsSectorSize % 2 ^ 32 ≠ rs then false
  else if ao < mrFixupOffset1 || ao > (rs + 2 ^ 32 - atResidentSize) % 2 ^ 32 || ao % 8 ≠ 0 then
    false
  else if lfGet16 record mrFlags &&& mftRecordInUse = 0 then false
  else if lfGet32 record mrBytesAllocated ≠ rs || used > rs || used < ao then false
  else
    match attributesEnd rs record (rs + 1) ao with
    | none => false
    | some off => decide (used ≥ off + 4)

/-- The offset of the first unnamed `$DATA` attribute of a checked record. -/
def unnamedData (record : Mem) : Nat → Nat → Option Nat
  | 0, _ => none
  | fuel + 1, off =>
    if lfGet32 record (off + atType) = attrTypeEnd then none
    else if lfGet32 record (off + atType) = attrTypeData && record (off + atNameLength) = 0 then
      some off
    else unnamedData record fuel (off + lfGet32 record (off + atLength))

/-! ## Run lists -/

/-- `SPARSE_LCN` -/
def sparseLcn : Nat := 2 ^ 64 - 1

/-- `struct run` -/
structure Run where
  vcn : Nat
  lcn : Nat
  len : Nat
  deriving DecidableEq

/-- A value in the signed 64-bit range. -/
def wrapInt64 (value : Int) : Int := (value + 2 ^ 63) % 2 ^ 64 - 2 ^ 63

/-- A little-endian field of `width` bytes, sign extended with a mask that is shifted by
the width. A shift of a 64-bit word by eight bytes has no meaning in the language; the
processors reduce the count modulo 64, so that the mask of a negative field of eight bytes
has all bits. -/
def getSignedLE (m : Mem) (width off : Nat) : Int :=
  if (m (off + width - 1)).toNat ≥ 0x80 then
    if width < 8 then (getLE m width off : Int) - 256 ^ width else -1
  else getLE m width off

/-- The loop of `decode_mapping_pairs`: the runs decoded so far, and whether the
pairs end properly. Every round reads at least two bytes. -/
def decodePairs (mp : Mem) (mpLen : Nat) : Nat → Nat → Nat → Int → List Run → List Run × Bool
  | 0, _, _, _, runs => (runs, true)
  | fuel + 1, i, vcn, lcn, runs =>
    if i < mpLen && mp i ≠ 0 then
      let ls := (mp i).toNat % 16
      let os := (mp i).toNat / 16
      if ls = 0 || ls > 8 || os > 8 || i + 1 + ls + os > mpLen then (runs, false)
      else
        let len := getLE mp ls (i + 1)
        if len = 0 then (runs, false)
        else if os ≠ 0 then
          let lcn := wrapInt64 (lcn + getSignedLE mp os (i + 1 + ls))
          if lcn < 0 then (runs, false)
          else decodePairs mp mpLen fuel (i + 1 + ls + os) ((vcn + len) % 2 ^ 64) lcn
            (runs ++ [⟨vcn, lcn.toNat, len⟩])
        else decodePairs mp mpLen fuel (i + 1 + ls) ((vcn + len) % 2 ^ 64) lcn
          (runs ++ [⟨vcn, sparseLcn, len⟩])
    else (runs, true)

/-- `decode_mapping_pairs`, appending to `runs`. -/
def decodeMappingPairs (mp : Mem) (mpLen svcn : Nat) (runs : List Run) : List Run × Bool :=
  decodePairs mp mpLen (mpLen + 1) 0 svcn 0 runs

/-- What is known of an open attribute: the part of `struct open_attr` that its
mapping pairs and the dirty page table determine. -/
structure OpenAttr where
  resident : Bool
  allocSize : Nat
  dataSize : Nat
  runs : List Run
  ovr : List Run

/-- A cleared `struct open_attr`. -/
def OpenAttr.empty : OpenAttr :=
  { resident := false, allocSize := 0, dataSize := 0, runs := [], ovr := [] }

/-- `oa_load_extent` of the attribute at `off`, and whether it succeeds. -/
def oaLoadExtent (oa : OpenAttr) (record : Mem) (off : Nat) : OpenAttr × Bool :=
  let alen := lfGet32 record (off + atLength)
  if record (off + atNonResident) = 0 then
    ({ oa with resident := true, dataSize := lfGet32 record (off + atValueLength) }, true)
  else
    let mpo := lfGet16 record (off + atMappingPairsOffset)
    if mpo ≥ alen then (oa, false)
    else
      let oa := if lfGet64 record (off + atLowestVcn) = 0 then
          { oa with allocSize := lfGet64 record (off + atAllocatedSize)
                    dataSize := lfGet64 record (off + atDataSize) }
        else oa
      let (runs, ok) := decodeMappingPairs (fun i => record (off + mpo + i)) (alen - mpo)
        (lfGet64 record (off + atLowestVcn)) oa.runs
      ({ oa with runs := runs }, ok)

/-- `run_lookup_mapped` -/
def runLookupMapped (runs : List Run) (vcn : Nat) : Option Nat :=
  (runs.find? fun rl => decide (vcn ≥ rl.vcn) && decide (vcn < (rl.vcn + rl.len) % 2 ^ 64)).map
    fun rl => if rl.lcn = sparseLcn then sparseLcn else (rl.lcn + (vcn - rl.vcn)) % 2 ^ 64

/-- `run_lookup` -/
def runLookup (oa : OpenAttr) (vcn : Nat) : Option Nat :=
  match oa.ovr.find? fun rl => rl.vcn = vcn with
  | some rl => some rl.lcn
  | none => runLookupMapped oa.runs vcn

end Ttntfs.Logfile
