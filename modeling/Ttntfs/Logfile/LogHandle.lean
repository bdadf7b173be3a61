import Ttntfs.Logfile.RestartPage

/-!
# Opening the journal

The handle of a journal and how `ntfs_logfile_open` fills it: the search for the two
restart pages, the choice between them, and the geometry that the chosen one gives.
An open that fails leaves a handle all the same, with the fields that were set before
the failure; only a search or a client list without end keeps it from returning.
-/

namespace Ttntfs.Logfile

open Library.ByteMemory

/-- `enum ntfs_logfile_state` -/
inductive LogState where
  | empty
  | clean
  | dirty
  | chkdsk
  | unsupported
  | corrupt
  deriving DecidableEq

/-- `struct lfs_page_override`: a page of the log that a tail copy replaces. -/
structure PageOverride where
  vbo : Nat
  page : Mem

/-- `struct ntfs_logfile`, as far as the restart pages and the end of the log go. The
page mask is written as arithmetic on the page size, a power of two. -/
structure Handle where
  origSize : Nat
  lSize : Nat := 0
  pageSize : Nat := 0
  sysPageSize : Nat := 0
  majorVer : Nat := 0
  minorVer : Nat := 0
  firstPage : Nat := 0
  dataOff : Nat := 0
  recordHeaderLen : Nat := 0
  seqNumBits : Nat := 0
  rst : List RestartPage := []
  curRst : Option Nat := none
  ra : Option Mem := none
  raLen : Nat := 0
  raOfs : Nat := 0
  clientIdx : Nat := 0
  clientSeq : Nat := 0
  clientOldestLsn : Nat := 0
  clientRestartLsn : Nat := 0
  state : LogState := .corrupt
  initialized : Bool := false
  currentLsn : Nat := 0
  lastLsn : Nat := 0
  oldestLsn : Nat := 0
  seqNum : Nat := 0
  nextPage : Nat := 0
  wrapped : Bool := false
  reuseTail : Bool := false
  noLastLsn : Bool := false
  singlePageIo : Bool := false
  openLogCount : Nat := 0
  overrides : List PageOverride := []

/-! ## Sequence numbers and offsets -/

section Offsets

variable (log : Handle)

/-- `file_data_bits` -/
def Handle.fileDataBits : Nat := 64 - log.seqNumBits

/-- An offset rounded down to its page. -/
def Handle.pageStart (off : Nat) : Nat := off / log.pageSize * log.pageSize

/-- `lfs_lsn_to_vbo` -/
def lfsLsnToVbo (lsn : Nat) : Nat :=
  lsn * 2 ^ log.seqNumBits % 2 ^ 64 / 2 ^ (log.seqNumBits - 3) % 2 ^ 32

/-- `lfs_lsn_seq` -/
def lfsLsnSeq (lsn : Nat) : Nat := lsn / 2 ^ log.fileDataBits

/-- `lfs_next_page_off` -/
def lfsNextPageOff (off : Nat) : Nat :=
  let off := (log.pageStart off + log.pageSize) % 2 ^ 32
  if off ≥ log.lSize then log.firstPage else off

/-- The loop of `lfs_final_log_off` over the pages that a record continues on: the page
of its last byte and how many bytes lie there. Every round takes the `tail` bytes of a
page, so the length bounds the rounds. -/
def finalPage (tail : Nat) : Nat → Nat → Nat → Nat × Nat
  | 0, final, dataLen => (lfsNextPageOff log final, dataLen)
  | rounds + 1, final, dataLen =>
    if dataLen ≤ tail then (lfsNextPageOff log final, dataLen)
    else finalPage tail rounds (lfsNextPageOff log final) (dataLen - tail)

/-- `lfs_final_log_off`. The mask is a 32-bit shift by the bits of the offsets; a shift by 32 or more
is undefined in C, and the machines of the port shift by the low five bits of the count. -/
def lfsFinalLogOff (lsn dataLen : Nat) : Nat :=
  let baseVbo := lsn * 8 % 2 ^ 32
  let final := log.pageStart (baseVbo % 2 ^ (log.fileDataBits % 32 + 3))
  let pageOff := baseVbo % log.pageSize
  let tail := log.pageSize - pageOff
  let dataLen := (dataLen + log.recordHeaderLen) % 2 ^ 32
  if dataLen > tail then
    let (final, dataLen) := finalPage log (log.pageSize - log.dataOff) (dataLen - tail) final
      (dataLen - tail)
    (final + dataLen + (log.dataOff - 1)) % 2 ^ 32
  else (final + dataLen + (pageOff + 2 ^ 32 - 1)) % 2 ^ 32

end Offsets

/-! ## The search for the restart pages -/

/-- What the search has found so far: the accepted pages, whether only empty pages were
seen, and whether a page had an unknown version. -/
structure Probe where
  found : List RestartPage := []
  empty : Bool := true
  unsupported : Bool := false

/-- The next position that is probed, a 32-bit number. -/
def nextPosition (pos : Nat) : Nat := if pos = 0 then lfsSectorSize else pos * 2 % 2 ^ 32

/-- `find_restart_pages`, with the number of positions that are still probed; none where
the search has not ended by then. -/
def findRestartPages (stray : Stray) (content : Mem) (origSize : Nat) :
    Nat → Nat → Probe → Option Probe
  | 0, _, _ => none
  | rounds + 1, pos, probe =>
    if pos ≥ origSize || pos + lfsSectorSize > origSize then some probe
    else
      let magic := lfGet32 content pos
      if magic = lfsMagicEmpty then
        if probe.empty then
          findRestartPages stray content origSize rounds (nextPosition pos) probe
        else some probe
      else
        let probe := { probe with empty := false }
        if magic = lfsMagicRcrd then some probe
        else if magic ≠ lfsMagicRstr && magic ≠ lfsMagicChkd then
          findRestartPages stray content origSize rounds (nextPosition pos) probe
        else
          match loadRestartPage stray content origSize pos with
          | .ok page =>
            let probe := { probe with found := probe.found ++ [page] }
            if probe.found.length = 2 then some probe
            else findRestartPages stray content origSize rounds (nextPosition pos) probe
          | .error .unsupported =>
            findRestartPages stray content origSize rounds (nextPosition pos)
              { probe with unsupported := true }
          | .error (.invalid _) =>
            findRestartPages stray content origSize rounds (nextPosition pos) probe

/-- A bound on the positions of a search that ends. The positions turn after 24 of them,
and the second turn either ends the search or leaves everything as the first. -/
def searchRounds : Nat := 64

/-! ## The geometry of the chosen page -/

/-- How `setup_geometry` ends other than with a handle ready for use. -/
inductive SetupError where
  | invalid
  | unsupported
  deriving DecidableEq

/-- The client with the name `NTFS`. -/
def isNtfsClient (rp : Mem) (cr : Nat) : Bool :=
  lfGet32 rp (cr + crClientNameLength) = 8 && lfGet16 rp (cr + crClientName) = 0x4e &&
    lfGet16 rp (cr + crClientName + 2) = 0x54 && lfGet16 rp (cr + crClientName + 4) = 0x46 &&
    lfGet16 rp (cr + crClientName + 6) = 0x53

/-- The search for the NTFS client along the list of clients in use. The list of an
accepted page may be a cycle; a walk longer than the client array never ends. -/
def findNtfsClient (rp : Mem) (nr : Nat) : Nat → Nat → Option (Option Nat)
  | rounds, idx =>
    if idx = lfsNoClient || idx ≥ nr then some none
    else if isNtfsClient rp (clientRecord rp idx) then some (some idx)
    else
      match rounds with
      | 0 => none
      | rounds + 1 => findNtfsClient rp nr rounds (lfGet16 rp (clientRecord rp idx + crNextClient))

/-- The least number that a client in use still needs, counted down from `lsn`. -/
def oldestClientLsn (rp : Mem) (nr : Nat) : Nat → Nat → Nat → Option Nat
  | rounds, idx, lsn =>
    if idx = lfsNoClient || idx ≥ nr then some lsn
    else
      match rounds with
      | 0 => none
      | rounds + 1 =>
        let l := lfGet64 rp (clientRecord rp idx + crOldestLsn)
        oldestClientLsn rp nr rounds (lfGet16 rp (clientRecord rp idx + crNextClient))
          (if l ≠ 0 && l < lsn then l else lsn)

/-- `LR_HEADER_SIZE` -/
def lrHeaderSize : Nat := 0x30
/-- `PG_USA` -/
def pgUsa : Nat := 0x28

/-- The first step of `setup_geometry`: the version and the page sizes. -/
def setPageSizes (log : Handle) (rp : Mem) : Handle :=
  { log with
    majorVer := lfGet16 rp rpMajorVer
    minorVer := lfGet16 rp rpMinorVer
    sysPageSize := lfGet32 rp rpSystemPageSize
    pageSize := lfGet32 rp rpLogPageSize }

/-- The second step: the usable size of the log. -/
def setLogSize (log : Handle) (rp : Mem) : Handle :=
  { log with lSize := log.pageStart (lfGet64 rp (raOf rp + raFileSize) % 2 ^ 32) }

/-- The third step: the record geometry. -/
def setRecordGeometry (log : Handle) (rp : Mem) : Handle :=
  { log with
    seqNumBits := lfGet32 rp (raOf rp + raSeqNumberBits)
    recordHeaderLen := lfGet16 rp (raOf rp + raLogRecordHeaderLength)
    dataOff := lfGet16 rp (raOf rp + raLogPageDataOffset)
    openLogCount := lfGet32 rp (raOf rp + raRestartLogOpenCount)
    firstPage := (if log.majorVer ≥ 2 then 0x22 else 4) * log.pageSize }

/-- The fourth step: the last number of the restart area, and the copy of the area. -/
def setRestartArea (stray : Stray) (log : Handle) (rp : Mem) : Handle :=
  let lsn := lfGet64 rp (raOf rp + raCurrentLsn)
  let raLen := lfGet16 rp (raOf rp + raRestartAreaLength)
  { log with
    currentLsn := lsn
    lastLsn := lsn
    seqNum := lfsLsnSeq log lsn
    singlePageIo := lfGet16 rp (raOf rp + raFlags) &&& restartSinglePageIo ≠ 0
    raOfs := raOf rp
    raLen
    ra := some (within raLen (bytesFrom rp (raOf rp)) stray.area) }

/-- The NTFS client and the oldest number that some client needs. -/
def setClients (log : Handle) (rp : Mem) (client : Option Nat) (oldest : Nat) : Handle :=
  let log := { log with
    oldestLsn := if lfsLsnToVbo log oldest < log.firstPage then 0 else oldest }
  match client with
  | none => { log with clientIdx := lfsNoClient }
  | some idx =>
    { log with
      clientIdx := idx
      clientSeq := lfGet16 rp (clientRecord rp idx + crSeqNumber)
      clientOldestLsn := lfGet64 rp (clientRecord rp idx + crOldestLsn)
      clientRestartLsn := lfGet64 rp (clientRecord rp idx + crClientRestartLsn) }

/-- The last step: where the log goes on after the last number of the restart area. -/
def setNextPage (log : Handle) (rp : Mem) : Handle :=
  let vbo := lfsLsnToVbo log log.currentLsn
  if vbo < log.firstPage then { log with noLastLsn := true, nextPage := log.firstPage }
  else
    let finish := lfsFinalLogOff log log.currentLsn (lfGet32 rp (raOf rp + raLastLsnDataLength))
    let log := if finish ≤ vbo then { log with seqNum := log.seqNum + 1, wrapped := true } else log
    if log.pageSize - finish % log.pageSize - 1 ≥ log.recordHeaderLen then
      { log with reuseTail := true, nextPage := log.pageStart vbo }
    else { log with nextPage := lfsNextPageOff log (log.pageStart vbo) }

/-- The steps of `setup_geometry` from the copy of the restart area on, which can no
longer fail; none where a client list has no end. -/
def finishGeometry (stray : Stray) (log : Handle) (rp : Mem) : Option Handle := do
  let log := setRestartArea stray log rp
  let nr := lfGet16 rp (raOf rp + raLogClients)
  let inUse := lfGet16 rp (raOf rp + raClientInUseList)
  let client ← findNtfsClient rp nr nr inUse
  let oldest ← oldestClientLsn rp nr nr inUse log.currentLsn
  return setNextPage (setClients log rp client oldest) rp

/-- `setup_geometry`: the handle, with the fields set before a failure, and the failure. -/
def setupGeometry (stray : Stray) (log : Handle) (rp : Mem) :
    Option (Handle × Except SetupError Unit) :=
  let log := setPageSizes log rp
  if log.pageSize ≠ log.sysPageSize || log.pageSize > 64 * 1024 then
    some (log, .error .unsupported)
  else if lfGet64 rp (raOf rp + raFileSize) > log.origSize then some (log, .error .invalid)
  else
    let log := setLogSize log rp
    if log.lSize < (lfsMinRecordPages + 2) * log.pageSize then some (log, .error .invalid)
    else
      let log := setRecordGeometry log rp
      if log.recordHeaderLen < lrHeaderSize || log.recordHeaderLen ≥ log.pageSize ||
          log.dataOff < pgUsa || log.dataOff ≥ log.pageSize then some (log, .error .invalid)
      else (finishGeometry stray log rp).map fun log => (log, .ok ())

/-! ## The open -/

/-- The slot of the restart page in use: the one with the higher number, but page 0 where
only it was rewritten by `chkdsk`. -/
def chooseRestartPage (first : RestartPage) (second : Option RestartPage) : RestartPage × Nat :=
  match second with
  | none => (first, 0)
  | some second =>
    if first.chkdsk && !second.chkdsk then (first, 0)
    else if second.lsn > first.lsn then (second, 1)
    else (first, 0)

/-- The state that the restart area in use tells. -/
def restartAreaState (ra : Mem) (chkdsk : Bool) : LogState :=
  if lfGet16 ra raClientInUseList = lfsNoClient || lfGet16 ra raFlags &&& restartVolumeIsClean ≠ 0
  then .clean
  else if chkdsk then .chkdsk
  else .dirty

/-- The state of the handle after `setup_geometry`. -/
def stateAfterSetup (log : Handle) (chkdsk : Bool) : Except SetupError Unit → LogState
  | .error .unsupported => .unsupported
  | .error .invalid => .corrupt
  | .ok () => restartAreaState (log.ra.getD zeros) chkdsk

/-- The open once some restart page was found. -/
def openWith (stray : Stray) (log : Handle) (first : RestartPage) (second : Option RestartPage) :
    Option Handle :=
  let (used, slot) := chooseRestartPage first second
  let log := { log with rst := first :: second.toList, curRst := some slot }
  (setupGeometry stray log used.page).map fun (log, result) =>
    { log with state := stateAfterSetup log used.chkdsk result }

/-- The size of the log as the handle has it. -/
def handleSize (ioSize : Nat) : Nat := min ioSize lfsMaxFileSize % 2 ^ 32

/-- `ntfs_logfile_open` of a log with `ioSize` bytes; none where it does not return. -/
def ntfsLogfileOpen (stray : Stray) (content : Mem) (ioSize : Nat) : Option Handle := do
  let probe ← findRestartPages stray content (handleSize ioSize) searchRounds 0 {}
  let log : Handle := { origSize := handleSize ioSize, initialized := !probe.empty }
  if probe.empty then return { log with state := .empty }
  else
    match probe.found with
    | [] => return { log with state := if probe.unsupported then .unsupported else .corrupt }
    | first :: others => openWith stray log first others.head?

end Ttntfs.Logfile
