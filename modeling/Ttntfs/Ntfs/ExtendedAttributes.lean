import Ttntfs.Library.ByteFields
import Ttntfs.Ntfs.ReparseIndex

/-!
# Extended attributes

The extended attributes of an inode stand one behind the other in the attribute `$EA`, each with
the offset to the next. A second attribute, `$EA_INFORMATION`, says how long they are. The two are
read and written one after the other, and each of these steps can fail.
-/

namespace Ttntfs.Ntfs

open Library.ByteFields

/-- `ENOENT` -/
def eaEnoent : Int := 2
/-- `EIO` -/
def eaEio : Int := 5
/-- `ENOMEM` -/
def eaEnomem : Int := 12
/-- `EEXIST` -/
def eaEexist : Int := 17
/-- `EFBIG` -/
def eaEfbig : Int := 27
/-- `ERANGE` -/
def eaErange : Int := 34
/-- `ENAMETOOLONG` -/
def eaEnametoolong : Int := 36
/-- `ENODATA` -/
def eaEnodata : Int := 61

/-- What an inode has of extended attributes. -/
structure EaStore where
  /-- the value of `$EA_INFORMATION` -/
  info : Option (List UInt8)
  /-- the value of `$EA` -/
  ea : Option (List UInt8)
  /-- `NInoHasEA` -/
  hasEa : Bool
deriving DecidableEq, Repr

/-- `struct ea_information` -/
structure EaInformation where
  eaLength : Nat
  needEaCount : Nat
  eaQueryLength : Nat
deriving DecidableEq, Repr

/-- `sizeof(struct ea_information)` -/
def eaInformationSize : Nat := 8

/-- The structure at the beginning of a value. -/
def EaInformation.read (v : List UInt8) : EaInformation := ⟨fieldAt v 2 0, fieldAt v 2 2, fieldAt v 4 4⟩

/-- The structure as a value. -/
def EaInformation.bytes (info : EaInformation) : List UInt8 :=
  leBytes 2 info.eaLength ++ (leBytes 2 info.needEaCount ++ leBytes 4 info.eaQueryLength)

/-- `sizeof(struct ea_attr)`, which is also the offset of `ea_name`. -/
def eaAttrSize : Nat := 8

/-- `NEED_EA` -/
def needEa : Nat := 0x80

/-- `ALIGN(size, 4)` -/
def alignFour (size : Nat) : Nat := (size + 3) / 4 * 4

/-- `ALIGN(struct_size(p_ea, ea_name, 1 + nameLength + valueLength), 4)` -/
def eaEntrySize (nameLength valueLength : Nat) : Nat := alignFour (eaAttrSize + (1 + nameLength + valueLength))

/-- `ea_packed_size`, from the two lengths of an entry. -/
def eaPackedSize (nameLength valueLength : Nat) : Nat := 5 + nameLength + valueLength

/-! ## Looking up -/

/-- The loop of `ntfs_ea_lookup` from an offset on: where the entry is and how long. -/
def eaLookupFrom (eaBuf : List UInt8) (eaBufSize : Nat) (name : List UInt8) (offset : Nat) : Option (Nat × Nat) :=
  let next := fieldAt eaBuf 4 offset
  let pEaSize := if next ≠ 0 then next else eaBufSize - offset
  if pEaSize < eaAttrSize ∨ eaBufSize < offset + pEaSize then none
  else
    let nameLength := fieldAt eaBuf 1 (offset + 5)
    if pEaSize - eaAttrSize < nameLength + 1 then none
    else
      let actualSize := eaEntrySize nameLength (fieldAt eaBuf 2 (offset + 6))
      if pEaSize < actualSize then none
      else if nameLength = name.length ∧ (eaBuf.drop (offset + eaAttrSize)).take name.length = name then
        let eaSize := if next ≠ 0 then next else actualSize
        if eaBufSize < offset + eaSize then none else some (offset, eaSize)
      else if 0 < next ∧ offset + next < eaBufSize then eaLookupFrom eaBuf eaBufSize name (offset + next)
      else none
termination_by eaBufSize - offset

/-- `ntfs_ea_lookup` -/
def ntfsEaLookup (eaBuf : List UInt8) (eaBufSize : Nat) (name : List UInt8) : Option (Nat × Nat) :=
  if eaBufSize < eaAttrSize then none else eaLookupFrom eaBuf eaBufSize name 0

/-- `ntfs_attr_readall`, which refuses an attribute of more than 64 KiB and which may fail. -/
def ntfsAttrReadall (read : Bool) (stored : Option (List UInt8)) : Option (List UInt8) :=
  match stored with
  | none => none
  | some v => if read && v.length ≤ 64 * 1024 then some v else none

/-- Which of the two attributes can be read. -/
structure GetEaCourse where
  infoRead : Bool
  eaRead : Bool

/-- `ntfs_get_ea` with a buffer of a size or with none: the length or the failure, and what is
copied into the buffer. -/
def ntfsGetEa (course : GetEaCourse) (s : EaStore) (name : List UInt8) (buffer : Option Nat) :
    Int × Option (List UInt8) :=
  if !s.hasEa then (-eaEnodata, none)
  else
    match ntfsAttrReadall course.infoRead s.info with
    | none => (-eaEnodata, none)
    | some infoBytes =>
      if infoBytes.length ≠ eaInformationSize then (-eaEnodata, none)
      else
        match ntfsAttrReadall course.eaRead s.ea with
        | none => (-eaEnodata, none)
        | some eaBuf =>
          let eaInfoQlen := (EaInformation.read infoBytes).eaQueryLength
          if eaBuf.length < eaInfoQlen then (-eaEio, none)
          else
            match ntfsEaLookup eaBuf eaInfoQlen name with
            | none => (-eaEnodata, none)
            | some (eaOff, _) =>
              let eaValueLen := fieldAt eaBuf 2 (eaOff + 6)
              let place := eaOff + eaAttrSize + (fieldAt eaBuf 1 (eaOff + 5) + 1)
              match buffer with
              | none => (eaValueLen, none)
              | some size =>
                if size < eaValueLen then (-eaErange, none)
                else (eaValueLen, some ((eaBuf.drop place).take eaValueLen))

/-! ## Writing the two attributes -/

/-- How `ntfs_write_ea` ends: the bytes are written and the truncation, where one is asked for,
succeeds or does not, or it fails and leaves some value. -/
inductive EaWriteEnd where
  | written (cut : Bool)
  | failed (code : FailureCode) (left : List UInt8)

/-- A value after a write at an offset in it. -/
def eaWritten (old : List UInt8) (off : Nat) (bytes : List UInt8) : List UInt8 :=
  old.take off ++ (bytes ++ old.drop (off + bytes.length))

/-- `ntfs_write_ea`, which does not look at the result of the truncation. -/
def ntfsWriteEa (ending : EaWriteEnd) (stored : Option (List UInt8)) (bytes : List UInt8) (off : Nat)
    (needTruncate : Bool) : Int × Option (List UInt8) :=
  match stored, ending with
  | none, _ => (-eaEnoent, none)
  | some _, .failed code left => (code, some left)
  | some old, .written cut =>
    let value := eaWritten old off bytes
    (0, some (if needTruncate && cut then value.take (off + bytes.length) else value))

/-- How a change of a whole attribute fails, and what it leaves. -/
abbrev EaChangeFailure := Option (FailureCode × Option (List UInt8))

/-- `ntfs_attr_add` -/
def addEaAttribute (failure : EaChangeFailure) (stored : Option (List UInt8)) (bytes : List UInt8) :
    Int × Option (List UInt8) :=
  match stored, failure with
  | some old, _ => (-eaEexist, some old)
  | none, some (code, left) => (code, left)
  | none, none => (0, some bytes)

/-- The entry of `$EA` in `$AttrDef`. -/
structure EaAttrDef where
  minSize : Nat
  maxSize : Nat

/-- `ntfs_attr_size_bounds_check` for `$EA` -/
def ntfsAttrSizeBoundsCheck (ad : Option EaAttrDef) (size : Nat) : Int :=
  match ad with
  | none => -eaEnoent
  | some ad =>
    if (0 < ad.minSize ∧ size < ad.minSize) ∨ (0 < ad.maxSize ∧ ad.maxSize < size) then -eaErange else 0

/-! ## Setting -/

/-- What `ntfs_set_ea` is called with. -/
structure SetEaCall where
  name : List UInt8
  value : List UInt8
  /-- `XATTR_CREATE` -/
  create : Bool
  /-- `XATTR_REPLACE` -/
  replace : Bool

/-- What the callees of `ntfs_set_ea` do. -/
structure SetEaCourse where
  /-- `ntfs_attr_exist` finds an `$EA_INFORMATION` that is there -/
  infoSeen : Bool
  infoRead : Bool
  eaRead : Bool
  /-- there is memory for a new `$EA_INFORMATION` -/
  infoAllocated : Bool
  infoAdd : EaChangeFailure
  /-- `ntfs_attr_exist` finds an `$EA` that is there without an `$EA_INFORMATION` -/
  straySeen : Bool
  strayRemove : EaChangeFailure
  /-- the write of `$EA_INFORMATION` without the old entry -/
  infoShrink : EaWriteEnd
  /-- the write of `$EA` without the old entry -/
  eaShrink : EaWriteEnd
  /-- there is memory for the new entry -/
  entryAllocated : Bool
  /-- `ntfs_attr_exist` finds an `$EA` that is there -/
  eaSeen : Bool
  eaAdd : EaChangeFailure
  eaWrite : EaWriteEnd
  infoWrite : EaWriteEnd

/-- What `ntfs_set_ea` returns and leaves, and what it stores in `*packed_ea_size`. -/
structure SetEaEnd where
  code : Int
  store : EaStore
  packedEaSize : Option Nat

/-- The end of `ntfs_set_ea` from the label `out` on. -/
def setEaOut (eaInfoQsize : Nat) (code : Int) (packedEaSize : Option Nat) (s : EaStore) : SetEaEnd :=
  ⟨code, { s with hasEa := 0 < eaInfoQsize }, packedEaSize⟩

/-- The new entry of a call, which is padded with zeros. -/
def newEaBytes (call : SetEaCall) : List UInt8 :=
  let newEaSize := eaEntrySize call.name.length call.value.length
  leBytes 4 newEaSize ++ (leBytes 1 0 ++ (leBytes 1 call.name.length ++ (leBytes 2 call.value.length ++
    (call.name ++ (0 :: (call.value ++
      List.replicate (newEaSize - (eaAttrSize + (1 + call.name.length + call.value.length))) 0))))))

/-- `ntfs_set_ea` from the label `alloc_new_ea` on. -/
def allocNewEa (ad : Option EaAttrDef) (call : SetEaCall) (course : SetEaCourse) (info : EaInformation)
    (eaInfoQsize : Nat) (s : EaStore) : SetEaEnd :=
  if !course.entryAllocated then setEaOut eaInfoQsize (-eaEnomem) none s
  else
    let newEaSize := eaEntrySize call.name.length call.value.length
    let eaPacked := info.eaLength + eaPackedSize call.name.length (call.value.length % 2 ^ 16)
    let newInfo : EaInformation :=
      { info with eaLength := eaPacked % 2 ^ 16, eaQueryLength := (eaInfoQsize + newEaSize) % 2 ^ 32 }
    if 0xffff < eaPacked ∨ ntfsAttrSizeBoundsCheck ad newEaSize ≠ 0 then setEaOut eaInfoQsize (-eaEfbig) none s
    else
      let (err, ea) :=
        if s.ea.isSome && course.eaSeen then ntfsWriteEa course.eaWrite s.ea (newEaBytes call) eaInfoQsize false
        else addEaAttribute course.eaAdd s.ea (newEaBytes call)
      if err ≠ 0 then setEaOut eaInfoQsize err none { s with ea := ea }
      else
        let (err, infoBytes) := ntfsWriteEa course.infoWrite s.info newInfo.bytes 0 false
        if err ≠ 0 then setEaOut eaInfoQsize err none { s with ea := ea, info := infoBytes }
        else setEaOut eaInfoQsize 0 (some newInfo.eaLength) { s with ea := ea, info := infoBytes }

/-- `ntfs_set_ea` from the label `create_ea_info` on. -/
def createEaInfo (ad : Option EaAttrDef) (call : SetEaCall) (course : SetEaCourse) (s : EaStore) : SetEaEnd :=
  if !course.infoAllocated then ⟨-eaEnomem, s, none⟩
  else
    let zeros : EaInformation := ⟨0, 0, 0⟩
    let (err, infoBytes) := addEaAttribute course.infoAdd s.info zeros.bytes
    if err ≠ 0 then setEaOut 0 err none { s with info := infoBytes }
    else if s.ea.isSome && course.straySeen then
      match course.strayRemove with
      | some (code, left) => setEaOut 0 code none { s with info := infoBytes, ea := left }
      | none => allocNewEa ad call course zeros 0 { s with info := infoBytes, ea := none }
    else allocNewEa ad call course zeros 0 { s with info := infoBytes }

/-- A difference in 16 bits. -/
def subU16 (minuend subtrahend : Nat) : Nat := (minuend + (2 ^ 16 - subtrahend % 2 ^ 16)) % 2 ^ 16

/-- The buffer without an entry: what stands behind the entry is moved up. -/
def eaBufWithout (eaBuf : List UInt8) (eaInfoQsize eaOff eaSize : Nat) : List UInt8 :=
  eaBuf.take eaOff ++ (eaBuf.drop (eaOff + eaSize)).take (eaInfoQsize - (eaOff + eaSize))

/-- `ntfs_set_ea` where the name has been found. -/
def replaceFoundEa (ad : Option EaAttrDef) (call : SetEaCall) (course : SetEaCourse) (info : EaInformation)
    (eaBuf : List UInt8) (eaOff eaSize : Nat) (s : EaStore) : SetEaEnd :=
  if call.create then setEaOut info.eaQueryLength (-eaEexist) none s
  else
    let nameLength := fieldAt eaBuf 1 (eaOff + 5)
    let valueLength := fieldAt eaBuf 2 (eaOff + 6)
    if call.value ≠ [] ∧ valueLength = call.value.length ∧
        (eaBuf.drop (eaOff + eaAttrSize + (nameLength + 1))).take call.value.length = call.value then
      setEaOut info.eaQueryLength 0 none s
    else
      let eaInfoQsize := info.eaQueryLength - eaSize
      let flags := fieldAt eaBuf 1 (eaOff + 4)
      let newInfo : EaInformation :=
        { eaLength := subU16 info.eaLength (eaPackedSize nameLength valueLength)
          needEaCount := if flags &&& needEa ≠ 0 then subU16 info.needEaCount 1 else info.needEaCount
          eaQueryLength := eaInfoQsize }
      let (err, infoBytes) := ntfsWriteEa course.infoShrink s.info newInfo.bytes 0 false
      if err ≠ 0 then setEaOut eaInfoQsize err none { s with info := infoBytes }
      else
        let kept := eaBufWithout eaBuf info.eaQueryLength eaOff eaSize
        let (err, ea) := ntfsWriteEa course.eaShrink s.ea kept 0 true
        if err ≠ 0 then setEaOut eaInfoQsize err none { s with info := infoBytes, ea := ea }
        else if call.replace && call.value.isEmpty then
          setEaOut eaInfoQsize 0 none { s with info := infoBytes, ea := ea }
        else allocNewEa ad call course newInfo eaInfoQsize { s with info := infoBytes, ea := ea }

/-- `ntfs_set_ea` where the two attributes have been read. -/
def setInReadEa (ad : Option EaAttrDef) (call : SetEaCall) (course : SetEaCourse) (info : EaInformation)
    (eaBuf : List UInt8) (s : EaStore) : SetEaEnd :=
  if eaBuf.length < info.eaQueryLength then setEaOut info.eaQueryLength (-eaEio) none s
  else
    match ntfsEaLookup eaBuf info.eaQueryLength call.name with
    | some (eaOff, eaSize) => replaceFoundEa ad call course info eaBuf eaOff eaSize s
    | none =>
      if call.replace then setEaOut info.eaQueryLength (-eaEnodata) none s
      else allocNewEa ad call course info info.eaQueryLength s

/-- `ntfs_set_ea` -/
def ntfsSetEa (ad : Option EaAttrDef) (call : SetEaCall) (course : SetEaCourse) (s : EaStore) : SetEaEnd :=
  if 255 < call.name.length then ⟨-eaEnametoolong, s, none⟩
  else if s.info.isSome && course.infoSeen then
    match ntfsAttrReadall course.infoRead s.info with
    | none => setEaOut 0 0 none s
    | some infoBytes =>
      -- an information that cannot be used ends the call without a failure
      if infoBytes.length ≠ eaInformationSize then setEaOut 0 0 none s
      else
        match ntfsAttrReadall course.eaRead s.ea with
        | none => createEaInfo ad call course s
        | some eaBuf => setInReadEa ad call course (EaInformation.read infoBytes) eaBuf s
  else createEaInfo ad call course s

end Ttntfs.Ntfs
