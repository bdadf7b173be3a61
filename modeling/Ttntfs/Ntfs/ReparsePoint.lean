import Ttntfs.Library.ByteMemory
import Ttntfs.Ntfs.NameConversion

/-!
# Reparse points

The value of a `$REPARSE_POINT` attribute is a header, a tag and a length, and data whose form
the tag tells. `reparse.c` checks a value before it decodes the target of a link, and
`ntfs_readlink` has a decoder of its own for links whose target has not been decoded. A decoder
gives nothing where it would read a byte behind the end of the value.
-/

namespace Ttntfs.Ntfs

open Ttntfs.Library.ByteMemory

/-- `IO_REPARSE_TAG_RESERVED_ZERO` -/
def ioReparseTagReservedZero : Nat := 0
/-- `IO_REPARSE_TAG_IS_MICROSOFT` -/
def ioReparseTagIsMicrosoft : Nat := 0x80000000
/-- `IO_REPARSE_TAG_MOUNT_POINT` -/
def ioReparseTagMountPoint : Nat := 0xA0000003
/-- `IO_REPARSE_TAG_SYMLINK` -/
def ioReparseTagSymlink : Nat := 0xA000000C
/-- `IO_REPARSE_TAG_LX_SYMLINK` -/
def ioReparseTagLxSymlink : Nat := 0xA000001D
/-- `IO_REPARSE_TAG_AF_UNIX` -/
def ioReparseTagAfUnix : Nat := 0x80000023
/-- `IO_REPARSE_TAG_LX_FIFO` -/
def ioReparseTagLxFifo : Nat := 0x80000024
/-- `IO_REPARSE_TAG_LX_CHR` -/
def ioReparseTagLxChr : Nat := 0x80000025
/-- `IO_REPARSE_TAG_LX_BLK` -/
def ioReparseTagLxBlk : Nat := 0x80000026

/-- `sizeof(struct reparse_point)` -/
def reparsePointSize : Nat := 8
/-- `sizeof(struct guid)` -/
def guidSize : Nat := 16
/-- `sizeof(struct ntfs_win_symlink)` -/
def winSymlinkSize : Nat := 12
/-- `offsetof(struct ntfs_win_symlink, flags)` -/
def winSymlinkFlags : Nat := 8

/-! ## Reading a value -/

/-- A little-endian field of a value. -/
def valueField (v : List UInt8) (width off : Nat) : Nat := getLE (fun i => v.getD i 0) width off

/-- Reading a field; none where it is not inside the value. -/
def readValue (v : List UInt8) (width off : Nat) : Option Nat :=
  if off + width ≤ v.length then some (valueField v width off) else none

/-- Reading some bytes. -/
def readBytes (v : List UInt8) (off n : Nat) : Option (List UInt8) :=
  if off + n ≤ v.length then some ((v.drop off).take n) else none

/-- Reading the units of a name, which ends at the first one that is zero. -/
def readUnits (v : List UInt8) (off : Nat) : Nat → Option (List UInt16)
  | 0 => some []
  | n + 1 => do
    let unit ← readValue v 2 off
    if unit = 0 then return [0]
    let units ← readUnits v (off + 2) n
    return UInt16.ofNat unit :: units

/-- `reparse_tag` -/
def reparseTag (v : List UInt8) : Nat := valueField v 4 0

/-- `reparse_data_length` -/
def reparseDataLength (v : List UInt8) : Nat := valueField v 2 4

/-! ## Checking a value -/

/-- `ntfs_is_valid_reparse_buffer` -/
def ntfsIsValidReparseBuffer (v : List UInt8) : Option Bool := do
  if v.length < reparsePointSize then return false
  let tag ← readValue v 4 0
  if tag = ioReparseTagReservedZero then return false
  let dataLength ← readValue v 2 4
  return reparsePointSize + dataLength + (if tag &&& ioReparseTagIsMicrosoft = 0 then guidSize else 0) = v.length

/-- The part of the data of a Windows link before its names, by the tag. -/
def linkHeader (tag : Nat) : Nat := if tag = ioReparseTagMountPoint then winSymlinkFlags else winSymlinkSize

/-- `valid_reparse_data`, by whether the inode is recalled on open and whether its record is
that of a directory. -/
def validReparseData (recallOnOpen dirRecord : Bool) (v : List UInt8) : Option Bool := do
  -- the length is read before the size of the value is checked
  let dataLen ← readValue v 2 4
  let sound ← ntfsIsValidReparseBuffer v
  if !sound then return false
  let tag ← readValue v 4 0
  if tag = ioReparseTagLxSymlink then
    if dataLen ≤ 4 then return false
    let type ← readValue v 4 8
    return type = 2
  else if tag = ioReparseTagMountPoint ∧ !dirRecord then return false
  else if tag = ioReparseTagMountPoint ∨ tag = ioReparseTagSymlink then
    if dataLen < linkHeader tag then return false
    let so ← readValue v 2 8
    let sn ← readValue v 2 10
    let po ← readValue v 2 12
    let pn ← readValue v 2 14
    if (so ||| sn ||| po ||| pn) % 2 = 1 then return false
    return !(dataLen < linkHeader tag + so + sn || dataLen < linkHeader tag + po + pn)
  else if tag = ioReparseTagAfUnix ∨ tag = ioReparseTagLxFifo ∨ tag = ioReparseTagLxChr ∨ tag = ioReparseTagLxBlk then
    return !(dataLen ≠ 0 || !recallOnOpen)
  else return true

/-! ## Decoding a link -/

/-- The file types that a reparse point stands for. -/
inductive ReparseMode where
  | none
  | lnk
  | sock
  | fifo
  | chr
  | blk
  deriving DecidableEq

/-- `ntfs_reparse_tag_mode` -/
def ntfsReparseTagMode (tag : Nat) : ReparseMode :=
  if tag = ioReparseTagSymlink ∨ tag = ioReparseTagLxSymlink ∨ tag = ioReparseTagMountPoint then .lnk
  else if tag = ioReparseTagAfUnix then .sock
  else if tag = ioReparseTagLxFifo then .fifo
  else if tag = ioReparseTagLxChr then .chr
  else if tag = ioReparseTagLxBlk then .blk
  else .none

/-- The bytes of a string of ASCII characters. -/
def ascii (s : String) : List UInt8 := s.toList.map fun c => UInt8.ofNat c.toNat

/-- `tolower` of an ASCII character. -/
def toLower (c : UInt8) : UInt8 := if 0x41 ≤ c.toNat ∧ c.toNat ≤ 0x5a then c + 0x20 else c

/-- `isalpha` of an ASCII character. -/
def isAlpha (c : UInt8) : Bool := (0x41 ≤ c.toNat && c.toNat ≤ 0x5a) || (0x61 ≤ c.toNat && c.toNat ≤ 0x7a)

/-- Whether a string begins with another one, without regard to case. -/
def beginsNoCase (p other : List UInt8) : Bool := (p.take other.length).map toLower = other.map toLower

/-- The separators of a path of Windows as those of POSIX. -/
def flipSeparator (c : UInt8) : UInt8 := if c = 0x5c then 0x2f else c

/-- How many bytes of a target the prefix of the object name space takes. -/
def objectPrefix (s : List UInt8) : Nat :=
  if s.take 4 = ascii "\\??\\" ∨ s.take 4 = ascii "\\\\?\\" then
    if beginsNoCase (s.drop 4) (ascii "Volume\x7b") ∨ beginsNoCase (s.drop 4) (ascii "UNC\\") then 0 else 4
  else 0

/-- How many bytes the drive letter or the leading separator of a target takes, of one that is
absolute on its volume. -/
def volumePrefix (p : List UInt8) : Option Nat :=
  if isAlpha (p.getD 0 0) ∧ p.getD 1 0 = 0x3a then some (if p.getD 2 0 = 0x5c then 3 else 2)
  else if p.getD 0 0 = 0x5c ∧ p.getD 1 0 ≠ 0x3f then some 1
  else none

/-- The target that the name of a Windows link stands for, and whether it is absolute. -/
def windowsTarget (absolute : Bool) (s : List UInt8) : List UInt8 × Bool :=
  match if absolute then volumePrefix (s.drop (objectPrefix s)) else none with
  | some taken => ((s.drop (objectPrefix s + taken)).map flipSeparator, true)
  | none => ((s.drop (objectPrefix s)).map flipSeparator, false)

/-- What `ntfs_make_symlink` sets: whether the value is valid, the mode that it returns, and the
target. -/
structure ReparseLoad where
  valid : Bool
  mode : ReparseMode
  target : Option (List UInt8)
  targetVolumeAbs : Bool
  deriving DecidableEq

/-- Whether there is memory for the converted name and for the target. -/
structure LoadMemory where
  name : Bool
  target : Bool

/-- A valid value from which no target is decoded. -/
def ReparseLoad.nothing : ReparseLoad := ⟨true, .none, none, false⟩

/-- The part of `ntfs_make_symlink` that decodes the name of a Windows link. -/
def decodeName (memory : LoadMemory) (v : List UInt8) (tag off nlen : Nat) : Option ReparseLoad := do
  if nlen = 0 then return .nothing
  let units ← readUnits v (reparsePointSize + linkHeader tag + off) (nlen / 2)
  match ntfsUcstonls memory.name units none with
  | .error _ => return .nothing
  | .ok s =>
    if s = [] then return .nothing
    let flags ← if tag = ioReparseTagMountPoint then pure 0 else readValue v 4 16
    let (target, volumeAbs) := windowsTarget (flags % 2 = 0) s
    return if memory.target then ⟨true, ntfsReparseTagMode tag, some target, volumeAbs⟩ else .nothing

/-- `ntfs_make_symlink`, for the value of the attribute. -/
def ntfsMakeSymlink (memory : LoadMemory) (recallOnOpen dirRecord : Bool) (v : List UInt8) : Option ReparseLoad := do
  if v = [] then return ⟨false, .none, none, false⟩
  let valid ← validReparseData recallOnOpen dirRecord v
  if !valid then return ⟨false, .none, none, false⟩
  let tag ← readValue v 4 0
  if tag = ioReparseTagLxSymlink then
    let type ← readValue v 4 8
    if type ≠ 2 then return .nothing
    let dataLength ← readValue v 2 4
    let link ← readBytes v 12 (dataLength - 4)
    return if memory.target then ⟨true, ntfsReparseTagMode tag, some (link.takeWhile (· ≠ 0)), false⟩ else .nothing
  else if tag = ioReparseTagSymlink ∨ tag = ioReparseTagMountPoint then
    let so ← readValue v 2 8
    let sn ← readValue v 2 10
    if sn = 0 then
      let po ← readValue v 2 12
      let pn ← readValue v 2 14
      decodeName memory v tag po pn
    else decodeName memory v tag so sn
  else return ⟨true, ntfsReparseTagMode tag, none, false⟩

/-- The errors of `ntfs_readlink`. -/
inductive ReadlinkError where
  | einval
  | conversion (error : NameConversionError)
  deriving DecidableEq

/-- How many bytes the fallback of `ntfs_readlink` leaves out at the beginning of a target. -/
def fallbackPrefix (s : List UInt8) : Nat :=
  let object := if s.take 4 = ascii "\\??\\" then 4 else 0
  if isAlpha (s.getD object 0) ∧ s.getD (object + 1) 0 = 0x3a then object + 2 else object

/-- The part of the fallback of `ntfs_readlink` behind the choice of a name. -/
def fallbackName (someMemory : Bool) (v : List UInt8) (off nlen : Nat) :
    Option (Except ReadlinkError (List UInt8)) := do
  let dataLength ← readValue v 2 4
  if dataLength < winSymlinkSize + off + nlen then return .error .einval
  let units ← readUnits v (reparsePointSize + winSymlinkSize + off) (nlen / 2)
  match ntfsUcstonls someMemory units none with
  | .error error => return .error (.conversion error)
  | .ok s => return .ok ((s.drop (fallbackPrefix s)).map flipSeparator)

/-- The fallback of `ntfs_readlink`, for the value of the attribute. -/
def readlinkFallback (someMemory : Bool) (v : List UInt8) : Option (Except ReadlinkError (List UInt8)) := do
  if v.length < reparsePointSize then return .error .einval
  let tag ← readValue v 4 0
  if tag ≠ ioReparseTagSymlink then return .error .einval
  let po ← readValue v 2 12
  let pn ← readValue v 2 14
  if pn = 0 then
    let so ← readValue v 2 8
    let sn ← readValue v 2 10
    fallbackName someMemory v so sn
  else fallbackName someMemory v po pn

end Ttntfs.Ntfs
