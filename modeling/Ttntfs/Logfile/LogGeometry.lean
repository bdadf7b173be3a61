import Ttntfs.Logfile.RestartSearch

/-!
# The geometry of an open journal

What a handle knows about its log once `ntfs_logfile_open` has returned. The sizes of a
handle that has a restart area passed every check of `setup_geometry`; a handle without
one has at most a page size.
-/

namespace Ttntfs.Logfile

open Library.ByteMemory

/-- The fields of a handle that the open sets and nothing after it changes. -/
structure Geometry where
  origSize : Nat
  lSize : Nat
  pageSize : Nat
  majorVer : Nat
  minorVer : Nat
  dataOff : Nat
  recordHeaderLen : Nat
  seqNumBits : Nat
  openLogCount : Nat
  currentLsn : Nat
  raOfs : Nat
  ra : Option Mem

/-- The geometry of a handle. -/
def Handle.geometry (log : Handle) : Geometry where
  origSize := log.origSize
  lSize := log.lSize
  pageSize := log.pageSize
  majorVer := log.majorVer
  minorVer := log.minorVer
  dataOff := log.dataOff
  recordHeaderLen := log.recordHeaderLen
  seqNumBits := log.seqNumBits
  openLogCount := log.openLogCount
  currentLsn := log.currentLsn
  raOfs := log.raOfs
  ra := log.ra

/-- The geometry that a restart page gives. -/
def pageGeometry (stray : Stray) (origSize : Nat) (rp : Mem) : Geometry where
  origSize := origSize
  lSize := lfGet64 rp (raOf rp + raFileSize) % 2 ^ 32 / lfGet32 rp rpLogPageSize *
    lfGet32 rp rpLogPageSize
  pageSize := lfGet32 rp rpLogPageSize
  majorVer := lfGet16 rp rpMajorVer
  minorVer := lfGet16 rp rpMinorVer
  dataOff := lfGet16 rp (raOf rp + raLogPageDataOffset)
  recordHeaderLen := lfGet16 rp (raOf rp + raLogRecordHeaderLength)
  seqNumBits := lfGet32 rp (raOf rp + raSeqNumberBits)
  openLogCount := lfGet32 rp (raOf rp + raRestartLogOpenCount)
  currentLsn := lfGet64 rp (raOf rp + raCurrentLsn)
  raOfs := raOf rp
  ra := some (within (lfGet16 rp (raOf rp + raRestartAreaLength)) (bytesFrom rp (raOf rp))
    stray.area)

/-- A geometry that `setup_geometry` accepts, of a page with the given system page size
and file size. -/
structure Geometry.Accepted (geometry : Geometry) (sysPageSize fileSize : Nat) : Prop where
  samePageSize : geometry.pageSize = sysPageSize
  pageSize : geometry.pageSize ≤ 64 * 1024
  fileSize : fileSize ≤ geometry.origSize
  lSize : (lfsMinRecordPages + 2) * geometry.pageSize ≤ geometry.lSize
  headerLen : lrHeaderSize ≤ geometry.recordHeaderLen ∧ geometry.recordHeaderLen < geometry.pageSize
  dataOff : pgUsa ≤ geometry.dataOff ∧ geometry.dataOff < geometry.pageSize

section Setup

variable {stray : Stray} {log done : Handle} {rp : Mem}

theorem setClients_geometry (client : Option Nat) (oldest : Nat) :
    (setClients log rp client oldest).geometry = log.geometry := by
  cases client <;> rfl

theorem setNextPage_geometry : (setNextPage log rp).geometry = log.geometry := by
  simp only [setNextPage]
  split
  · rfl
  · split <;> split <;> rfl

theorem finishGeometry_geometry (finished : finishGeometry stray log rp = some done) :
    done.geometry = (setRestartArea stray log rp).geometry := by
  simp only [finishGeometry, bind, Option.bind_eq_some_iff] at finished
  obtain ⟨client, -, oldest, -, same⟩ := finished
  cases same
  rw [setNextPage_geometry, setClients_geometry]

/-- The handle with every size that a restart page gives. -/
def withSizes (log : Handle) (rp : Mem) : Handle :=
  setRecordGeometry (setLogSize (setPageSizes log rp) rp) rp

/-- `setup_geometry` reaches its last steps exactly with a geometry that is accepted. -/
theorem setupGeometry_cases (stray : Stray) (log : Handle) (rp : Mem) :
    ((pageGeometry stray log.origSize rp).Accepted (lfGet32 rp rpSystemPageSize)
        (lfGet64 rp (raOf rp + raFileSize)) ∧
      setupGeometry stray log rp =
        (finishGeometry stray (withSizes log rp) rp).map fun log => (log, .ok ())) ∨
    (¬ (pageGeometry stray log.origSize rp).Accepted (lfGet32 rp rpSystemPageSize)
        (lfGet64 rp (raOf rp + raFileSize)) ∧
      ∃ failed error, setupGeometry stray log rp = some (failed, .error error)) := by
  simp only [setupGeometry]
  split
  · rename_i sizes
    refine .inr ⟨fun accepted => ?_, _, _, rfl⟩
    have same : lfGet32 rp rpLogPageSize = lfGet32 rp rpSystemPageSize := accepted.samePageSize
    have small : lfGet32 rp rpLogPageSize ≤ 64 * 1024 := accepted.pageSize
    simp [setPageSizes, same] at sizes
    omega
  rename_i sizes
  split
  · rename_i large
    exact .inr ⟨fun accepted => absurd accepted.fileSize (Nat.not_le_of_lt large), _, _, rfl⟩
  rename_i fileSize
  split
  · rename_i small
    exact .inr ⟨fun accepted => absurd accepted.lSize (Nat.not_le_of_lt small), _, _, rfl⟩
  rename_i lSize
  split
  · rename_i offsets
    refine .inr ⟨fun accepted => ?_, _, _, rfl⟩
    have header := accepted.headerLen
    have data := accepted.dataOff
    simp [setRecordGeometry, setLogSize, setPageSizes] at offsets
    simp only [pageGeometry] at header data
    omega
  rename_i offsets
  refine .inl ⟨?_, rfl⟩
  simp [setRecordGeometry, setLogSize, setPageSizes] at sizes fileSize lSize offsets
  exact
    { samePageSize := Decidable.not_not.mp (of_decide_eq_false sizes.1)
      pageSize := sizes.2
      fileSize := fileSize
      lSize := lSize
      headerLen := offsets.1.1
      dataOff := ⟨offsets.1.2, offsets.2⟩ }

/-- The geometry that is set up is that of the restart page, and it is accepted. -/
theorem setupGeometry_ok (setup : setupGeometry stray log rp = some (done, .ok ())) :
    done.geometry = pageGeometry stray log.origSize rp ∧
      done.geometry.Accepted (lfGet32 rp rpSystemPageSize) (lfGet64 rp (raOf rp + raFileSize)) := by
  obtain ⟨accepted, finished⟩ | ⟨-, failed, error, rejected⟩ := setupGeometry_cases stray log rp
  · rw [finished, Option.map_eq_some_iff] at setup
    obtain ⟨last, ended, same⟩ := setup
    obtain rfl : last = done := congrArg Prod.fst same
    have geometry : last.geometry = pageGeometry stray log.origSize rp :=
      finishGeometry_geometry ended
    exact ⟨geometry, geometry ▸ accepted⟩
  · rw [rejected] at setup
    cases setup

/-- A page that is rejected leaves its page size in the handle, and no restart area. -/
theorem setupGeometry_invalid (setup : setupGeometry stray log rp = some (done, .error .invalid)) :
    done.pageSize = lfGet32 rp rpSystemPageSize ∧ done.pageSize ≤ 64 * 1024 ∧ done.ra = log.ra ∧
      done.origSize = log.origSize := by
  simp only [setupGeometry] at setup
  split at setup
  · cases setup
  rename_i sizes
  have kept : (setPageSizes log rp).pageSize = lfGet32 rp rpSystemPageSize ∧
      (setPageSizes log rp).pageSize ≤ 64 * 1024 := by
    rw [Bool.or_eq_true, decide_eq_true_eq, decide_eq_true_eq, not_or, Decidable.not_not,
      Nat.not_lt] at sizes
    exact sizes
  split at setup
  · cases setup
    exact ⟨kept.1, kept.2, rfl, rfl⟩
  split at setup
  · cases setup
    exact ⟨kept.1, kept.2, rfl, rfl⟩
  split at setup
  · cases setup
    exact ⟨kept.1, kept.2, rfl, rfl⟩
  · rw [Option.map_eq_some_iff] at setup
    obtain ⟨last, -, same⟩ := setup
    cases same

theorem setupGeometry_origSize {result : Except SetupError Unit}
    (setup : setupGeometry stray log rp = some (done, result)) : done.origSize = log.origSize := by
  match result with
  | .ok () => exact congrArg Geometry.origSize (setupGeometry_ok setup).1
  | .error .invalid => exact (setupGeometry_invalid setup).2.2.2
  | .error .unsupported =>
    simp only [setupGeometry] at setup
    split at setup
    · cases setup
      rfl
    · repeat' split at setup
      · cases setup
      · cases setup
      · cases setup
      · rw [Option.map_eq_some_iff] at setup
        obtain ⟨last, -, same⟩ := setup
        cases same

end Setup

/-! ## Pages that were found -/

section Found

variable {stray : Stray} {content : Mem} {origSize pos : Nat} {found : RestartPage}

/-- A page that was found is the log at its position, up to the first sector tail. -/
theorem loadRestartPage_page (loaded : loadRestartPage stray content origSize pos = .ok found)
    {i : Nat} (low : i < 510) : found.page i = headAt stray content pos i := by
  obtain ⟨header, -, -, page, read, -, rfl⟩ := loadRestartPage_eq_ok_iff.mp loaded
  have least := (checkRpHeader_ok_iff.mp header).1.1
  simp only [lfsSectorSize] at least
  have raw : within (lfGet32 (headAt stray content pos) rpSystemPageSize)
      (bytesFrom content pos) (stray.page pos) i = headAt stray content pos i :=
    (if_pos (by omega)).trans (if_pos (by simp only [lfsSectorSize]; omega)).symm
  rw [readRestartPage] at read
  split at read
  · simp only [restorePage] at read
    split at read
    · cases read
    · rename_i restored torn post
      split at read
      · cases read
      · cases read
        exact (lfsFixupPostRead_outside post (by omega)).trans raw
  · cases read
    exact raw

theorem loadRestartPage_field (loaded : loadRestartPage stray content origSize pos = .ok found)
    {width off : Nat} (low : off + width ≤ 510) :
    getLE found.page width off = getLE (headAt stray content pos) width off :=
  getLE_congr fun _ _ upper => loadRestartPage_page loaded (by omega)

theorem loadRestartPage_size (loaded : loadRestartPage stray content origSize pos = .ok found) :
    512 ≤ lfGet32 found.page rpSystemPageSize ∧ isPow2 (lfGet32 found.page rpSystemPageSize) ∧
      (pos = 0 ∨ pos = lfGet32 found.page rpSystemPageSize) := by
  obtain ⟨header, -⟩ := loadRestartPage_eq_ok_iff.mp loaded
  have same := @loadRestartPage_field stray content origSize pos found loaded 4 rpSystemPageSize
    (by decide)
  obtain ⟨⟨least, -, power, -⟩, place, -⟩ := checkRpHeader_ok_iff.mp header
  rw [lfGet32, same]
  exact ⟨least, power, place⟩

theorem IsPageSize.of_isPow2 {size : Nat} (power : Logfile.isPow2 size) (lower : 512 ≤ size)
    (upper : size ≤ 64 * 1024) : IsPageSize size := by
  simp only [Logfile.isPow2, Bool.and_eq_true, decide_eq_true_eq] at power
  obtain ⟨k, rfl⟩ := Nat.ne_zero_and_sub_one_eq_zero_iff_isPowerOfTwo.mp power
  refine ⟨k, ?_, ?_, rfl⟩
  · exact (Nat.pow_le_pow_iff_right (by omega : 1 < 2)).mp (lower : 2 ^ 9 ≤ 2 ^ k)
  · exact (Nat.pow_le_pow_iff_right (by omega : 1 < 2)).mp (upper : 2 ^ k ≤ 2 ^ 16)

end Found

/-! ## The handle of an open -/

/-- What every handle of a supported log knows about its log. -/
structure HandleShape (log : Handle) : Prop where
  origSize : log.origSize < 2 ^ 32
  pageSize : log.pageSize = 0 ∨ IsPageSize log.pageSize
  area : log.ra.isSome → IsPageSize log.pageSize ∧ log.lSize % log.pageSize = 0 ∧
    50 * log.pageSize ≤ log.lSize ∧ log.lSize ≤ log.origSize ∧ log.seqNumBits < 2 ^ 32 ∧
    (lrHeaderSize ≤ log.recordHeaderLen ∧ log.recordHeaderLen < log.pageSize) ∧
    (pgUsa ≤ log.dataOff ∧ log.dataOff < log.pageSize)

section Opened

variable {stray : Stray} {content : Mem} {ioSize : Nat} {log : Handle}

theorem chooseRestartPage_member (first : RestartPage) (others : List RestartPage) :
    (chooseRestartPage first others.head?).1 ∈ first :: others := by
  cases others with
  | nil => exact List.mem_cons_self
  | cons second others =>
    simp only [chooseRestartPage, List.head?_cons]
    split
    · exact List.mem_cons_self
    · split <;> simp

/-- How an open with some restart page ends: with the page in use and the result of
`setup_geometry` on it. -/
theorem openWith_eq_some {log opened : Handle} {first : RestartPage} {second : Option RestartPage}
    (isOpened : openWith stray log first second = some opened) :
    ∃ ready done result, ready.origSize = log.origSize ∧ ready.ra = log.ra ∧
      setupGeometry stray ready (chooseRestartPage first second).1.page = some (done, result) ∧
      opened.geometry = done.geometry ∧
      opened.state = stateAfterSetup done (chooseRestartPage first second).1.chkdsk result := by
  simp only [openWith, Option.map_eq_some_iff] at isOpened
  obtain ⟨⟨done, result⟩, setup, rfl⟩ := isOpened
  let ready := { log with
    rst := first :: second.toList, curRst := some (chooseRestartPage first second).2 }
  exact ⟨ready, done, result, rfl, rfl, setup, rfl, rfl⟩

/-- How an open ends: with an empty handle where no restart page was found, else with the
restart pages that the search found. -/
theorem ntfsLogfileOpen_eq_some (isOpened : ntfsLogfileOpen stray content ioSize = some log) :
    ∃ probe, findRestartPages stray content (handleSize ioSize) searchRounds 0 {} = some probe ∧
      ((log.geometry = ({ origSize := handleSize ioSize } : Handle).geometry ∧
          log.state ≠ .clean) ∨
        ∃ first others, probe.found = first :: others ∧
          openWith stray { origSize := handleSize ioSize, initialized := !probe.empty } first
            others.head? = some log) := by
  simp only [ntfsLogfileOpen, bind, Option.bind_eq_some_iff] at isOpened
  obtain ⟨probe, searched, opened⟩ := isOpened
  refine ⟨probe, searched, ?_⟩
  split at opened
  · cases opened
    exact .inl ⟨rfl, by simp⟩
  split at opened
  · cases opened
    refine .inl ⟨rfl, ?_⟩
    dsimp only
    split <;> simp
  · rename_i first others pages
    exact .inr ⟨first, others, pages, opened⟩

theorem ntfsLogfileOpen_origSize (isOpened : ntfsLogfileOpen stray content ioSize = some log) :
    log.origSize = handleSize ioSize := by
  obtain ⟨probe, -, ⟨geometry, -⟩ | ⟨first, others, -, opened⟩⟩ :=
    ntfsLogfileOpen_eq_some isOpened
  · exact congrArg Geometry.origSize geometry
  · obtain ⟨ready, done, result, size, -, setup, geometry, -⟩ := openWith_eq_some opened
    calc log.origSize = done.origSize := congrArg Geometry.origSize geometry
      _ = ready.origSize := setupGeometry_origSize setup
      _ = handleSize ioSize := size

theorem search_loaded {origSize : Nat} {probe : Probe} {page : RestartPage}
    (searched : findRestartPages stray content origSize searchRounds 0 {} = some probe)
    (member : page ∈ probe.found) :
    ∃ pos, loadRestartPage stray content origSize pos = .ok page :=
  (findRestartPages_origin searched member).elim (fun none => absurd none List.not_mem_nil) id

/-- The handle of a supported log. -/
theorem ntfsLogfileOpen_shape (isOpened : ntfsLogfileOpen stray content ioSize = some log)
    (supported : log.state ≠ .unsupported) : HandleShape log := by
  have bounded : handleSize ioSize < 2 ^ 32 := Nat.mod_lt _ (by decide)
  obtain ⟨probe, searched, ⟨geometry, -⟩ | ⟨first, others, pages, opened⟩⟩ :=
    ntfsLogfileOpen_eq_some isOpened
  · refine ⟨?_, .inl (congrArg Geometry.pageSize geometry), fun area => ?_⟩
    · exact (congrArg Geometry.origSize geometry).trans_lt bounded
    · rw [show log.ra = none from congrArg Geometry.ra geometry] at area
      cases area
  · obtain ⟨ready, done, result, size, noArea, setup, geometry, state⟩ := openWith_eq_some opened
    obtain ⟨pos, loaded⟩ := search_loaded searched
      (pages ▸ chooseRestartPage_member first others)
    obtain ⟨least, power, -⟩ := loadRestartPage_size loaded
    have origSize : log.origSize = done.origSize := congrArg Geometry.origSize geometry
    have pageSize : log.pageSize = done.pageSize := congrArg Geometry.pageSize geometry
    match result with
    | .error .unsupported => exact absurd state supported
    | .error .invalid =>
      obtain ⟨same, small, area, orig⟩ := setupGeometry_invalid setup
      refine ⟨?_, .inr ?_, fun some => ?_⟩
      · rw [origSize, orig, size]
        exact bounded
      · rw [pageSize, same]
        exact .of_isPow2 power least (by omega)
      · rw [show log.ra = done.ra from congrArg Geometry.ra geometry, area, noArea] at some
        cases some
    | .ok () =>
      obtain ⟨given, accepted⟩ := setupGeometry_ok setup
      rw [← geometry] at given accepted
      have isSize : IsPageSize log.pageSize := by
        have same : log.pageSize = _ := accepted.samePageSize
        rw [same]
        exact .of_isPow2 power least (same ▸ accepted.pageSize)
      generalize (chooseRestartPage first others.head?).1.page = rp at given accepted setup
      have lSize : log.lSize = lfGet64 rp (raOf rp + raFileSize) % 2 ^ 32 / lfGet32 rp rpLogPageSize *
          lfGet32 rp rpLogPageSize := congrArg Geometry.lSize given
      have logSize : log.pageSize = lfGet32 rp rpLogPageSize := congrArg Geometry.pageSize given
      have seqBits : log.seqNumBits = lfGet32 rp (raOf rp + raSeqNumberBits) :=
        congrArg Geometry.seqNumBits given
      have orig : log.origSize = handleSize ioSize :=
        (congrArg Geometry.origSize given).trans size
      have smaller : log.lSize ≤ lfGet64 rp (raOf rp + raFileSize) :=
        lSize ▸ (Nat.div_mul_le_self _ _).trans (Nat.mod_le _ _)
      refine ⟨orig ▸ bounded, .inr isSize, fun _ => ⟨isSize, ?_, accepted.lSize,
        smaller.trans accepted.fileSize, ?_, accepted.headerLen, accepted.dataOff⟩⟩
      · rw [lSize, logSize]
        exact Nat.mul_mod_left _ _
      · rw [seqBits]
        exact getLE_lt rp 4 _

end Opened

end Ttntfs.Logfile
