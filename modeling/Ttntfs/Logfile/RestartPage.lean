import Ttntfs.Logfile.MftRecord

/-!
# Restart pages

The two restart pages at the start of the journal and the checks that
`logfile_open.c` makes before it believes one. A page is first judged by its head,
the first 512 bytes as they are on the device; then the whole page is read and its
sector tails are restored.
-/

namespace Ttntfs.Logfile

open Library.ByteMemory

/-- `LFS_MAX_FILE_SIZE` -/
def lfsMaxFileSize : Nat := 0x100000000
/-- `LFS_DEFAULT_PAGE_SIZE` -/
def lfsDefaultPageSize : Nat := 4096
/-- `LFS_MIN_RECORD_PAGES` -/
def lfsMinRecordPages : Nat := 0x30
/-- `LFS_MAGIC_RSTR` -/
def lfsMagicRstr : Nat := 0x52545352
/-- `LFS_MAGIC_CHKD` -/
def lfsMagicChkd : Nat := 0x444b4843
/-- `LFS_MAGIC_RCRD` -/
def lfsMagicRcrd : Nat := 0x44524352
/-- `LFS_MAGIC_EMPTY` -/
def lfsMagicEmpty : Nat := 0xffffffff

/-- `RP_MAGIC` -/
def rpMagic : Nat := 0x00
/-- `RP_USA_OFS` -/
def rpUsaOfs : Nat := 0x04
/-- `RP_USA_COUNT` -/
def rpUsaCount : Nat := 0x06
/-- `RP_CHKDSK_LSN` -/
def rpChkdskLsn : Nat := 0x08
/-- `RP_SYSTEM_PAGE_SIZE` -/
def rpSystemPageSize : Nat := 0x10
/-- `RP_LOG_PAGE_SIZE` -/
def rpLogPageSize : Nat := 0x14
/-- `RP_RESTART_AREA_OFFSET` -/
def rpRestartAreaOffset : Nat := 0x18
/-- `RP_MINOR_VER` -/
def rpMinorVer : Nat := 0x1a
/-- `RP_MAJOR_VER` -/
def rpMajorVer : Nat := 0x1c
/-- `RP_HEADER_SIZE` -/
def rpHeaderSize : Nat := 0x1e

/-- `RA_CURRENT_LSN` -/
def raCurrentLsn : Nat := 0x00
/-- `RA_LOG_CLIENTS` -/
def raLogClients : Nat := 0x08
/-- `RA_CLIENT_FREE_LIST` -/
def raClientFreeList : Nat := 0x0a
/-- `RA_CLIENT_IN_USE_LIST` -/
def raClientInUseList : Nat := 0x0c
/-- `RA_FLAGS` -/
def raFlags : Nat := 0x0e
/-- `RA_SEQ_NUMBER_BITS` -/
def raSeqNumberBits : Nat := 0x10
/-- `RA_RESTART_AREA_LENGTH` -/
def raRestartAreaLength : Nat := 0x14
/-- `RA_CLIENT_ARRAY_OFFSET` -/
def raClientArrayOffset : Nat := 0x16
/-- `RA_FILE_SIZE` -/
def raFileSize : Nat := 0x18
/-- `RA_LAST_LSN_DATA_LENGTH` -/
def raLastLsnDataLength : Nat := 0x20
/-- `RA_LOG_RECORD_HEADER_LENGTH` -/
def raLogRecordHeaderLength : Nat := 0x24
/-- `RA_LOG_PAGE_DATA_OFFSET` -/
def raLogPageDataOffset : Nat := 0x26
/-- `RA_RESTART_LOG_OPEN_COUNT` -/
def raRestartLogOpenCount : Nat := 0x28
/-- `RA_SIZE_XP` -/
def raSizeXp : Nat := 0x40
/-- `LFS_NO_CLIENT` -/
def lfsNoClient : Nat := 0xffff
/-- `RESTART_VOLUME_IS_CLEAN` -/
def restartVolumeIsClean : Nat := 0x0002
/-- `RESTART_SINGLE_PAGE_IO` -/
def restartSinglePageIo : Nat := 0x0001

/-- `CR_OLDEST_LSN` -/
def crOldestLsn : Nat := 0x00
/-- `CR_CLIENT_RESTART_LSN` -/
def crClientRestartLsn : Nat := 0x08
/-- `CR_PREV_CLIENT` -/
def crPrevClient : Nat := 0x10
/-- `CR_NEXT_CLIENT` -/
def crNextClient : Nat := 0x12
/-- `CR_SEQ_NUMBER` -/
def crSeqNumber : Nat := 0x14
/-- `CR_CLIENT_NAME_LENGTH` -/
def crClientNameLength : Nat := 0x1c
/-- `CR_CLIENT_NAME` -/
def crClientName : Nat := 0x20
/-- `CR_SIZE` -/
def crSize : Nat := 0xa0

/-- Why a restart page is rejected. -/
inductive PageError where
  /-- `-EINVAL`, with the message after the position. -/
  | invalid (text : String)
  /-- `-ENOTSUP` -/
  | unsupported
  deriving DecidableEq

/-- `is_pow2` -/
def isPow2 (v : Nat) : Bool := v ≠ 0 && v &&& (v - 1) = 0

/-- Reject a page where the condition holds. -/
def reject (bad : Bool) (text : String) : Except PageError Unit :=
  if bad then .error (.invalid text) else .ok ()

/-! ## The head of a page -/

/-- The restart area of a page, by its offset. -/
def raOf (rp : Mem) : Nat := lfGet16 rp rpRestartAreaOffset

/-- The page claims an update sequence array. Only a page of `chkdsk` may have none. -/
def haveUsa (rp : Mem) : Bool :=
  !(lfGet32 rp rpMagic = lfsMagicChkd && lfGet16 rp rpUsaCount = 0)

/-- A version seen in the wild: 1.0, 1.1 or 2.0. -/
def knownVersion (major minor : Nat) : Bool :=
  major = 1 && (minor = 0 || minor = 1) || major = 2 && minor = 0

/-- The end of the update sequence array, where the header has one. -/
def usaEnd (rp : Mem) : Nat :=
  lfGet16 rp rpUsaOfs + (1 + lfGet32 rp rpSystemPageSize / 512) % 2 ^ 16 * 2

/-- `check_rp_header` -/
def checkRpHeader (rp : Mem) (pos : Nat) : Except PageError Unit := do
  let sysPs := lfGet32 rp rpSystemPageSize
  let logPs := lfGet32 rp rpLogPageSize
  reject (sysPs < lfsSectorSize || logPs < lfsSectorSize || !isPow2 sysPs || !isPow2 logPs)
    "unsupported page sizes"
  reject (pos ≠ 0 && pos ≠ sysPs) "unexpected offset"
  if !knownVersion (lfGet16 rp rpMajorVer) (lfGet16 rp rpMinorVer) then .error .unsupported
  else
    reject (haveUsa rp && (1 + sysPs / 512) % 2 ^ 16 ≠ lfGet16 rp rpUsaCount) "bad usa count"
    reject (haveUsa rp && (lfGet16 rp rpUsaOfs < rpHeaderSize || usaEnd rp > lfsSectorSize - 2))
      "bad usa offset"
    reject (raOf rp % 8 ≠ 0 || (if haveUsa rp then raOf rp < usaEnd rp else raOf rp < rpHeaderSize) ||
      raOf rp > sysPs) "bad restart area offset"
    reject (lfGet32 rp rpMagic ≠ lfsMagicChkd && lfGet64 rp rpChkdskLsn ≠ 0)
      "chkdsk lsn set on RSTR page"

/-- The number of bits of a value. -/
def bitLength (v : Nat) : Nat := if v = 0 then 0 else v.log2 + 1

/-- The length that the restart area needs for its clients, a 16-bit number. -/
def raLenCalc (rp : Mem) : Nat :=
  (lfGet16 rp (raOf rp + raClientArrayOffset) + lfGet16 rp (raOf rp + raLogClients) * crSize) % 2 ^ 16

/-- A client list starts inside the client array, or nowhere. -/
def listHeadOk (head clients : Nat) : Bool := head = lfsNoClient || head < clients

/-- `check_ra` -/
def checkRa (rp : Mem) : Except PageError Unit := do
  let ra := raOf rp
  let sysPs := lfGet32 rp rpSystemPageSize
  reject (ra + raFileSize > lfsSectorSize - 2) "crosses first sector"
  let caOfs := lfGet16 rp (ra + raClientArrayOffset)
  reject (caOfs % 8 ≠ 0 || ra + caOfs > lfsSectorSize - 2) "bad client array offset"
  let clients := lfGet16 rp (ra + raLogClients)
  let raLen := lfGet16 rp (ra + raRestartAreaLength)
  reject (ra + raLenCalc rp > sysPs || ra + raLen > sysPs || raLenCalc rp > raLen)
    "length inconsistent"
  reject (!listHeadOk (lfGet16 rp (ra + raClientFreeList)) clients ||
    !listHeadOk (lfGet16 rp (ra + raClientInUseList)) clients) "client lists overflow"
  reject (lfGet32 rp (ra + raSeqNumberBits) ≠ 67 - bitLength (lfGet64 rp (ra + raFileSize)))
    "seq number bits"
  reject (lfGet16 rp (ra + raLogRecordHeaderLength) % 8 ≠ 0) "record header length unaligned"
  reject (lfGet16 rp (ra + raLogPageDataOffset) % 8 ≠ 0) "page data offset unaligned"

/-! ## The whole page -/

/-- The client record with an index. -/
def clientRecord (rp : Mem) (idx : Nat) : Nat :=
  raOf rp + lfGet16 rp (raOf rp + raClientArrayOffset) + idx * crSize

/-- The walk along one client list in `check_client_array`, with the number of steps
it may still make. -/
def clientListOk (rp : Mem) (nr : Nat) : Nat → Bool → Nat → Bool
  | budget, first, idx =>
    if idx = lfsNoClient then true
    else
      match budget with
      | 0 => false
      | budget + 1 =>
        if idx ≥ nr then false
        else if first && lfGet16 rp (clientRecord rp idx + crPrevClient) ≠ lfsNoClient then false
        else clientListOk rp nr budget false (lfGet16 rp (clientRecord rp idx + crNextClient))

/-- `check_client_array` -/
def checkClientArray (rp : Mem) : Bool :=
  let nr := lfGet16 rp (raOf rp + raLogClients)
  clientListOk rp nr nr true (lfGet16 rp (raOf rp + raClientFreeList)) &&
    clientListOk rp nr nr true (lfGet16 rp (raOf rp + raClientInUseList))

/-- A restart page that was found: an entry of `rst` of `struct ntfs_logfile`. -/
structure RestartPage where
  chkdsk : Bool
  vbo : Nat
  lsn : Nat
  page : Mem

/-- The page with its sector tails restored. A tail that does not match is tolerated
where the whole restart area lies in the first sector. -/
def restorePage (page : Mem) (sysPs : Nat) : Except PageError Mem :=
  match lfsFixupPostRead page sysPs lfsSectorSize with
  | none => .error (.invalid "multi sector transfer error")
  | some (page, torn) =>
    if torn && raOf page + lfGet16 page (raOf page + raRestartAreaLength) > lfsSectorSize - 2 then
      .error (.invalid "multi sector transfer error")
    else .ok page

/-- What reads past the end of three buffers find there: the head on the stack, the
page of a probed position, and the copy of the restart area. The checks bound the
restart area only in part, so that such reads happen for some logs. -/
structure Stray where
  head : Nat → Mem
  page : Nat → Mem
  area : Mem

/-- A buffer of `size` bytes, and what lies past it. -/
def within (size : Nat) (m past : Mem) : Mem := fun i => if i < size then m i else past i

/-- The bytes of the log from a position on. -/
def bytesFrom (content : Mem) (pos : Nat) : Mem := fun i => content (pos + i)

/-- The first sector of the page at a position, as the search reads it. -/
def headAt (stray : Stray) (content : Mem) (pos : Nat) : Mem :=
  within lfsSectorSize (bytesFrom content pos) (stray.head pos)

/-- The page at a position, as it is read whole and restored where it has an array. -/
def readRestartPage (stray : Stray) (content : Mem) (pos : Nat) (head : Mem) :
    Except PageError Mem :=
  let sysPs := lfGet32 head rpSystemPageSize
  let page := within sysPs (bytesFrom content pos) (stray.page pos)
  if haveUsa head then restorePage page sysPs else .ok page

/-- The clients of a page are in order. Only a page with a client in use is judged, and
none of `chkdsk`. -/
def clientsOk (magic : Nat) (page : Mem) : Bool :=
  !(magic = lfsMagicRstr && lfGet16 page (raOf page + raClientInUseList) ≠ lfsNoClient) ||
    checkClientArray page

/-- The entry of `rst` for a page. -/
def foundPage (magic pos : Nat) (page : Mem) : RestartPage where
  chkdsk := magic = lfsMagicChkd
  vbo := pos
  lsn :=
    if magic = lfsMagicRstr then lfGet64 page (raOf page + raCurrentLsn)
    else lfGet64 page rpChkdskLsn
  page := page

/-- `load_restart_page` of the page at `pos` of a log of `origSize` bytes. Reads of the
log and allocations are taken to succeed. -/
def loadRestartPage (stray : Stray) (content : Mem) (origSize pos : Nat) :
    Except PageError RestartPage := do
  let head := headAt stray content pos
  checkRpHeader head pos
  checkRa head
  reject (pos + lfGet32 head rpSystemPageSize > origSize) "exceeds file"
  let page ← readRestartPage stray content pos head
  reject (!clientsOk (lfGet32 head rpMagic) page) "client list corrupt"
  return foundPage (lfGet32 head rpMagic) pos page

end Ttntfs.Logfile
