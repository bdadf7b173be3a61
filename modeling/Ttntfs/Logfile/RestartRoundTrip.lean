import Ttntfs.Logfile.LogGeometry

/-!
# A journal that was marked clean

`ntfs_logfile_mark_clean` is an encoder for the format that `ntfs_logfile_open` decodes.
The log that it leaves behind opens clean exactly where the values it writes pass the
checks of the open. With a restart area these are the values that the area had. Without
one they are made up from the size of the log, and from the size of the smallest log where
the log is smaller than that.
-/

namespace Ttntfs.Logfile

open Library.ByteMemory

/-- A handle with the last number and the superseded pages that a tail scan has found. -/
def Handle.withTail (log : Handle) (lastLsn : Nat) (overrides : List PageOverride) : Handle :=
  { log with lastLsn, overrides }

/-- The values of the handle make a restart page that the open accepts. -/
def RestartFits (log : Handle) : Prop :=
  if log.ra.isSome then
    log.seqNumBits = 67 - bitLength log.lSize ∧ log.recordHeaderLen % 8 = 0 ∧ log.dataOff % 8 = 0
  else cleanPageSize log * (lfsMinRecordPages + 2) ≤ log.origSize

/-- Opening the log gives a clean log of version 1.1, with the sizes of the handle and
its last number where the handle has a restart area. -/
def ReopensClean (stray : Stray) (content : Mem) (ioSize : Nat) (log : Handle) : Prop :=
  ∃ again, ntfsLogfileOpen stray content ioSize = some again ∧ again.state = .clean ∧
    again.majorVer = 1 ∧ again.minorVer = 1 ∧
    (log.ra.isSome → again.pageSize = log.pageSize ∧ again.lSize = log.lSize ∧
      again.seqNumBits = log.seqNumBits ∧ again.recordHeaderLen = log.recordHeaderLen ∧
      again.dataOff = log.dataOff ∧ again.currentLsn = log.lastLsn)

section Written

variable {log : Handle}

theorem HandleShape.isPageSize (shape : HandleShape log) :
    IsPageSize (cleanPageSize log) := by
  rw [cleanPageSize]
  split
  · rename_i known
    exact shape.pageSize.resolve_left known
  · exact ⟨12, by decide, by decide, rfl⟩

/-- The values that a handle writes fit their fields. -/
theorem HandleShape.fits (shape : HandleShape log) : CleanFits log := by
  obtain ⟨lower, upper, -⟩ := shape.isPageSize.bounds
  have orig := shape.origSize
  cases area : log.ra with
  | none =>
    refine ⟨shape.isPageSize, ?_, ?_, ?_, ?_⟩
    · simp only [cleanSeqBits, area]
      simp
      omega
    · simp only [cleanLogSize, area, cleanFileSize, lfsMinRecordPages]
      simp
      split <;> omega
    · simp [cleanHeaderLen, area, lrHeaderSize]
    · simp only [cleanDataOff, area, cleanUsaCount, lfAlign8, add32, pgUsa]
      simp
      omega
  | some ra =>
    obtain ⟨isSize, -, -, inside, seqBits, ⟨-, header⟩, -, data⟩ := shape.area (by simp [area])
    have small := isSize.bounds.2.1
    refine ⟨shape.isPageSize, ?_, ?_, ?_, ?_⟩
    · simpa [cleanSeqBits, area] using seqBits
    · simp [cleanLogSize, area]
      omega
    · simp [cleanHeaderLen, area]
      omega
    · simp [cleanDataOff, area]
      omega

theorem cleanConsistent_of_none (shape : HandleShape log) (area : log.ra = none) :
    CleanConsistent log := by
  obtain ⟨lower, upper, -⟩ := shape.isPageSize.bounds
  simp only [CleanConsistent, cleanSeqBits, cleanLogSize, cleanHeaderLen, cleanDataOff, area,
    lrHeaderSize, lfAlign8]
  simp

theorem cleanConsistent_iff_of_some (area : log.ra.isSome) :
    CleanConsistent log ↔ RestartFits log := by
  simp only [CleanConsistent, RestartFits, cleanSeqBits, cleanLogSize, cleanHeaderLen, cleanDataOff,
    area, if_true]

/-- The sizes that a handle writes where its values fit. -/
theorem HandleShape.sizes (shape : HandleShape log) (restartFits : RestartFits log) :
    cleanLogSize log ≤ log.origSize ∧
      (lfsMinRecordPages + 2) * cleanPageSize log ≤
        cleanLogSize log / cleanPageSize log * cleanPageSize log ∧
      (lrHeaderSize ≤ cleanHeaderLen log ∧ cleanHeaderLen log < cleanPageSize log) ∧
      (pgUsa ≤ cleanDataOff log ∧ cleanDataOff log < cleanPageSize log) := by
  obtain ⟨lower, upper, -⟩ := shape.isPageSize.bounds
  cases area : log.ra with
  | none =>
    have large : cleanPageSize log * (lfsMinRecordPages + 2) ≤ log.origSize := by
      simpa [RestartFits, area] using restartFits
    have size : cleanLogSize log = log.origSize := by
      simp only [cleanLogSize, area, cleanFileSize, large]
      simp
    have pages : lfsMinRecordPages + 2 ≤ log.origSize / cleanPageSize log :=
      (Nat.le_div_iff_mul_le (by omega)).mpr (Nat.mul_comm _ _ ▸ large)
    refine ⟨Nat.le_of_eq size, size ▸ Nat.mul_le_mul_right _ pages, ?_, ?_⟩
    · simp [cleanHeaderLen, area, lrHeaderSize]
      omega
    · simp [cleanDataOff, area, cleanUsaCount, lfAlign8, add32, pgUsa]
      omega
  | some ra =>
    obtain ⟨isSize, pages, large, inside, -, header, data⟩ := shape.area (by simp [area])
    have known : cleanPageSize log = log.pageSize :=
      if_pos (by have := isSize.bounds; omega)
    have size : cleanLogSize log = log.lSize := by simp [cleanLogSize, area]
    refine ⟨size ▸ inside, ?_, ?_, ?_⟩
    · rw [known, size, Nat.div_mul_cancel (Nat.dvd_of_mod_eq_zero pages)]
      exact large
    · simpa [cleanHeaderLen, area, known] using header
    · simpa [cleanDataOff, area, known] using data

end Written

/-! ## Reopening the log -/

section Reopening

variable {stray : Stray} {log ready done : Handle} {page : Mem}

/-- The geometry that a new page gives. -/
theorem AgreesClean.geometry (fits : CleanFits log) (agrees : AgreesClean log page)
    (origSize : Nat) :
    (pageGeometry stray origSize page).pageSize = cleanPageSize log ∧
      (pageGeometry stray origSize page).lSize =
        cleanLogSize log % 2 ^ 32 / cleanPageSize log * cleanPageSize log ∧
      (pageGeometry stray origSize page).majorVer = 1 ∧
      (pageGeometry stray origSize page).minorVer = 1 ∧
      (pageGeometry stray origSize page).dataOff = cleanDataOff log ∧
      (pageGeometry stray origSize page).recordHeaderLen = cleanHeaderLen log ∧
      (pageGeometry stray origSize page).seqNumBits = cleanSeqBits log := by
  have reads := agrees.reads fits
  simp only [pageGeometry, reads.raOfs, reads.fileSize, reads.logPageSize, reads.majorVer,
    reads.minorVer, reads.dataOff, reads.headerLen, reads.seqBits, and_self]

/-- The geometry of a new page is accepted where the values of the handle fit. -/
theorem AgreesClean.accepted (shape : HandleShape log) (restartFits : RestartFits log)
    (agrees : AgreesClean log page) :
    (pageGeometry stray log.origSize page).Accepted (lfGet32 page rpSystemPageSize)
      (lfGet64 page (raOf page + raFileSize)) := by
  have reads := agrees.reads shape.fits
  obtain ⟨pageSize, lSize, -, -, dataOff, headerLen, -⟩ :=
    @AgreesClean.geometry stray log page shape.fits agrees log.origSize
  obtain ⟨inside, large, header, data⟩ := shape.sizes restartFits
  have orig := shape.origSize
  rw [reads.sysPageSize, reads.raOfs, reads.fileSize]
  refine ⟨pageSize, ?_, inside, ?_, ?_, ?_⟩
  · rw [pageSize]
    exact shape.isPageSize.bounds.2.1
  · rw [pageSize, lSize, Nat.mod_eq_of_lt (by omega)]
    exact large
  · rw [headerLen, pageSize]
    exact header
  · rw [dataOff, pageSize]
    exact data

theorem finishGeometry_of_closed {rp : Mem}
    (closed : lfGet16 rp (raOf rp + raClientInUseList) = lfsNoClient) :
    ∃ done, finishGeometry stray log rp = some done := by
  have noClient (nr rounds : Nat) : findNtfsClient rp nr rounds lfsNoClient = some none := by
    cases rounds <;> simp [findNtfsClient]
  have oldest (nr rounds lsn : Nat) : oldestClientLsn rp nr rounds lfsNoClient lsn = some lsn := by
    cases rounds <;> simp [oldestClientLsn]
  rw [finishGeometry, closed]
  simp [noClient, oldest]

theorem restartAreaState_of_closed {rp past : Mem} {raOfs raLen : Nat} {chkdsk : Bool}
    (long : raClientInUseList + 2 ≤ raLen)
    (closed : lfGet16 rp (raOfs + raClientInUseList) = lfsNoClient) :
    restartAreaState (within raLen (bytesFrom rp raOfs) past) chkdsk = .clean := by
  have copied : lfGet16 (within raLen (bytesFrom rp raOfs) past) raClientInUseList = lfsNoClient := by
    rw [← closed, lfGet16, lfGet16, ← getLE_shifted]
    exact getLE_congr fun i _ upper => if_pos (by omega)
  simp [restartAreaState, copied]

theorem AgreesClean.setup (shape : HandleShape log) (restartFits : RestartFits log)
    (agrees : AgreesClean log page) (size : ready.origSize = log.origSize) :
    ∃ done, setupGeometry stray ready page = some (done, .ok ()) := by
  obtain ⟨-, finished⟩ | ⟨rejected, -⟩ := setupGeometry_cases stray ready page
  · have reads := agrees.reads shape.fits
    obtain ⟨done, ended⟩ := @finishGeometry_of_closed stray (withSizes ready page) page
      (reads.raOfs ▸ reads.inUseList)
    exact ⟨done, by rw [finished, ended]; rfl⟩
  · exact absurd (size ▸ agrees.accepted shape restartFits) rejected

theorem chooseRestartPage_first {first : RestartPage} {second : Option RestartPage}
    (notLater : ∀ other ∈ second, other.lsn ≤ first.lsn) :
    (chooseRestartPage first second).1 = first := by
  cases second with
  | none => rfl
  | some other =>
    have earlier : ¬ other.lsn > first.lsn := Nat.not_lt.mpr (notLater other rfl)
    simp only [chooseRestartPage, if_neg earlier]
    split <;> rfl

/-- Both new pages carry the same number, so that the first one is used. -/
theorem AgreesClean.used {second : List RestartPage} (fits : CleanFits log)
    (agrees : AgreesClean log page)
    (others : ∀ found ∈ second, ∃ other, AgreesClean log other ∧
      found = foundPage lfsMagicRstr (cleanPageSize log) other) :
    (chooseRestartPage (foundPage lfsMagicRstr 0 page) second.head?).1 =
      foundPage lfsMagicRstr 0 page := by
  have number {m : Mem} (agreesToo : AgreesClean log m) (pos : Nat) :
      (foundPage lfsMagicRstr pos m).lsn = lfGet64 (cleanPage log) (cleanRaOfs log + raCurrentLsn) := by
    simp only [foundPage, if_true, (agreesToo.reads fits).raOfs]
    refine getLE_congr fun i lower upper => agreesToo i (.inr ?_)
    simp only [raCurrentLsn, raSizeXp] at lower upper ⊢
    omega
  refine chooseRestartPage_first fun found member => ?_
  obtain ⟨other, agreesToo, rfl⟩ := others found (List.mem_of_mem_head? member)
  rw [number agrees, number agreesToo]

variable {content : Mem} {ioSize : Nat}

/-- The open of a log that holds the new restart pages, down to the first of them. -/
theorem HoldsClean.open_eq (fits : CleanFits log) (consistent : CleanConsistent log)
    (holds : HoldsClean log content) (room : cleanPageSize log ≤ handleSize ioSize) :
    ∃ page ready, AgreesClean log page ∧ ready.origSize = handleSize ioSize ∧
      ntfsLogfileOpen stray content ioSize =
        (setupGeometry stray ready page).map fun (log, result) =>
          { log with state := stateAfterSetup log false result } := by
  obtain ⟨probe, searched, ⟨short, -⟩ | ⟨-, seen, page, second, agrees, pages, others⟩⟩ :=
    holds.search fits consistent stray (handleSize ioSize)
  · omega
  have used := agrees.used fits others
  let found : Handle := { origSize := handleSize ioSize, initialized := !probe.empty }
  let ready : Handle := { found with
    rst := foundPage lfsMagicRstr 0 page :: second.head?.toList
    curRst := some (chooseRestartPage (foundPage lfsMagicRstr 0 page) second.head?).2 }
  refine ⟨page, ready, agrees, rfl, ?_⟩
  rw [ntfsLogfileOpen, searched]
  simp only [Option.bind_eq_bind, Option.bind_some, seen, pages, Bool.false_eq_true, if_false]
  simp only [openWith, used]
  simp only [ready, found, seen]
  rfl

/-- A log that holds the new restart pages of a handle whose values fit opens clean. -/
theorem HoldsClean.reopens (shape : HandleShape log) (restartFits : RestartFits log)
    (holds : HoldsClean log content) (size : handleSize ioSize = log.origSize)
    (lsn : log.lastLsn < 2 ^ 64) : ReopensClean stray content ioSize log := by
  have consistent : CleanConsistent log := by
    cases area : log.ra with
    | none => exact cleanConsistent_of_none shape area
    | some ra => exact (cleanConsistent_iff_of_some (by simp [area])).mpr restartFits
  obtain ⟨inside, large, -, -⟩ := shape.sizes restartFits
  have pages := Nat.div_mul_le_self (cleanLogSize log) (cleanPageSize log)
  simp only [lfsMinRecordPages] at large
  obtain ⟨page, ready, agrees, readySize, opens⟩ := @HoldsClean.open_eq stray log content ioSize
    shape.fits consistent holds (by omega)
  obtain ⟨done, setup⟩ := @AgreesClean.setup stray log ready page shape restartFits agrees
    (readySize.trans size)
  obtain ⟨geometry, -⟩ := setupGeometry_ok setup
  obtain ⟨pageSize, lSize, major, minor, dataOff, headerLen, seqBits⟩ :=
    @AgreesClean.geometry stray log page shape.fits agrees ready.origSize
  have reads := agrees.reads shape.fits
  rw [setup] at opens
  have area : done.ra = some (within (raSizeXp + crSize) (bytesFrom page (cleanRaOfs log))
      stray.area) := by
    rw [← reads.areaLength, ← reads.raOfs]
    exact congrArg Geometry.ra geometry
  refine ⟨_, opens, ?_, ?_, ?_, fun some => ?_⟩
  · simp only [stateAfterSetup, area, Option.getD_some]
    exact restartAreaState_of_closed (by decide) reads.inUseList
  · exact (congrArg Geometry.majorVer geometry).trans major
  · exact (congrArg Geometry.minorVer geometry).trans minor
  · obtain ⟨isSize, multiple, -, small, -, -, -⟩ := shape.area some
    have known : cleanPageSize log = log.pageSize := if_pos (by have := isSize.bounds; omega)
    have bounded := shape.origSize
    have kept : cleanLogSize log = log.lSize := by simp [cleanLogSize, some]
    refine ⟨?_, ?_, ?_, ?_, ?_, ?_⟩
    · exact ((congrArg Geometry.pageSize geometry).trans pageSize).trans known
    · rw [known, kept, Nat.mod_eq_of_lt (by omega),
        Nat.div_mul_cancel (Nat.dvd_of_mod_eq_zero multiple)] at lSize
      exact (congrArg Geometry.lSize geometry).trans lSize
    · exact ((congrArg Geometry.seqNumBits geometry).trans seqBits).trans (if_pos some)
    · exact ((congrArg Geometry.recordHeaderLen geometry).trans headerLen).trans (if_pos some)
    · exact ((congrArg Geometry.dataOff geometry).trans dataOff).trans (if_pos some)
    · have number := agrees.area (f := ⟨8, raCurrentLsn, log.lastLsn⟩)
        (by simp [cleanArea, some, keptFields])
      refine (congrArg Geometry.currentLsn geometry).trans ?_
      simp only [pageGeometry, reads.raOfs]
      exact number.trans (Nat.mod_eq_of_lt lsn)

/-- A log that holds the new restart pages of a handle without a restart area, and is
smaller than the smallest log, does not open clean. -/
theorem HoldsClean.not_clean_of_short (shape : HandleShape log) (area : log.ra = none)
    (short : log.origSize < cleanPageSize log * (lfsMinRecordPages + 2))
    (holds : HoldsClean log content) (size : handleSize ioSize = log.origSize) :
    ¬ ReopensClean stray content ioSize log := by
  rintro ⟨again, opened, clean, -⟩
  have consistent := cleanConsistent_of_none shape area
  by_cases room : cleanPageSize log ≤ handleSize ioSize
  · obtain ⟨page, ready, agrees, readySize, opens⟩ := @HoldsClean.open_eq stray log content ioSize
      shape.fits consistent holds room
    obtain ⟨accepted, -⟩ | ⟨-, failed, error, rejected⟩ := setupGeometry_cases stray ready page
    · have reads := agrees.reads shape.fits
      have fileSize := accepted.fileSize
      rw [reads.raOfs, reads.fileSize] at fileSize
      simp only [cleanLogSize, area, cleanFileSize, if_neg (Nat.not_le_of_lt short)] at fileSize
      have known : (pageGeometry stray ready.origSize page).origSize = log.origSize :=
        readySize.trans size
      simp at fileSize
      omega
    · rw [opens, rejected] at opened
      cases opened
      cases error <;> simp [stateAfterSetup] at clean
  · obtain ⟨probe, searched, ⟨-, none⟩ | ⟨large, -⟩⟩ :=
      holds.search shape.fits consistent stray (handleSize ioSize)
    · obtain ⟨probe', searched', ⟨-, notClean⟩ | ⟨first, others, pages, -⟩⟩ :=
        ntfsLogfileOpen_eq_some opened
      · exact notClean clean
      · cases searched.symm.trans searched'
        rw [none] at pages
        cases pages
    · omega

/-- A log that holds the new restart pages of a handle with an inconsistent restart area
does not open with the page size of the handle. -/
theorem HoldsClean.not_clean_of_inconsistent (shape : HandleShape log) (area : log.ra.isSome)
    (inconsistent : ¬ RestartFits log) (holds : HoldsClean log content) :
    ¬ ReopensClean stray content ioSize log := by
  rintro ⟨again, opened, clean, -, -, same⟩
  have samePageSize := (same area).1
  obtain ⟨isSize, -⟩ := shape.area area
  have known : cleanPageSize log = log.pageSize := if_pos (by have := isSize.bounds; omega)
  obtain ⟨probe, searched, ⟨-, notClean⟩ | ⟨first, others, pages, opens⟩⟩ :=
    ntfsLogfileOpen_eq_some opened
  · exact notClean clean
  obtain ⟨ready, done, result, size, noArea, setup, geometry, state⟩ := openWith_eq_some opens
  obtain ⟨pos, loaded⟩ := search_loaded searched (pages ▸ chooseRestartPage_member first others)
  obtain ⟨-, -, place⟩ := loadRestartPage_size loaded
  match result with
  | .error .unsupported => simp [state, stateAfterSetup] at clean
  | .error .invalid => simp [state, stateAfterSetup] at clean
  | .ok () =>
    obtain ⟨-, accepted⟩ := setupGeometry_ok setup
    rw [← geometry] at accepted
    have pageSize := accepted.samePageSize
    have slot : ∃ slot < 2, pos = slot * cleanPageSize log := by
      obtain rfl | rfl := place
      · exact ⟨0, by decide, by omega⟩
      · refine ⟨1, by decide, ?_⟩
        rw [← pageSize, Nat.one_mul, known]
        exact samePageSize
    obtain ⟨slot, below, rfl⟩ := slot
    rw [← cleanConsistent_iff_of_some area] at inconsistent
    obtain ⟨error, rejected⟩ := holds.load_error shape.fits below (.inl inconsistent)
    rw [rejected] at loaded
    cases loaded

end Reopening

/-- A log that was marked clean opens clean exactly where the handle has a restart area
with consistent values, or none and the log has the least size of a log. -/
theorem mark_clean_reopens_iff {stray stray' : Stray} {content after : Mem} {ioSize lastLsn : Nat}
    {opened marked : Handle} {overrides : List PageOverride} {write : Option (PageWrite → Bool)}
    (isOpened : ntfsLogfileOpen stray content ioSize = some opened) (lsn : lastLsn < 2 ^ 64)
    (success : ntfsLogfileMarkClean write (opened.withTail lastLsn overrides) content =
      (after, .ok marked)) :
    ReopensClean stray' after ioSize (opened.withTail lastLsn overrides) ↔ RestartFits opened := by
  obtain ⟨supported, rfl⟩ := ntfsLogfileMarkClean_ok success
  have shape := ntfsLogfileOpen_shape isOpened supported
  have tailed : HandleShape (opened.withTail lastLsn overrides) :=
    ⟨shape.origSize, shape.pageSize, shape.area⟩
  have size : handleSize ioSize = opened.origSize := (ntfsLogfileOpen_origSize isOpened).symm
  have holds := @markCleanWrites_holds (opened.withTail lastLsn overrides) content
  refine ⟨fun reopens => ?_, fun fits => holds.reopens tailed fits size lsn⟩
  by_contra misfit
  by_cases area : opened.ra.isSome
  · exact holds.not_clean_of_inconsistent tailed area misfit reopens
  · rw [RestartFits, if_neg area, Nat.not_le] at misfit
    exact holds.not_clean_of_short tailed (Option.not_isSome_iff_eq_none.mp area) misfit size reopens

/-- A log that was never written: every byte is `0xff`. -/
def blankLog : Mem := fun _ => 0xff

/-- Buffers with nothing but zeros past their ends. -/
def zeroStray : Stray := ⟨fun _ => zeros, fun _ => zeros, zeros⟩

/-- The handle of a blank log. -/
def blankHandle (size : Nat) : Handle := { origSize := size, state := .empty }

theorem runWrites_all (writes : List PageWrite) (content : Mem) :
    runWrites (fun _ => true) writes content = (writes.foldl PageWrite.apply content, true) := by
  induction writes generalizing content with
  | nil => rfl
  | cons write writes ih => exact ih _

theorem blankHandle_marked (size : Nat) (content : Mem) :
    ntfsLogfileMarkClean (some fun _ => true) (blankHandle size) content =
      ((markCleanWrites (blankHandle size)).foldl PageWrite.apply content,
        .ok { blankHandle size with state := .clean }) := by
  simp only [ntfsLogfileMarkClean, runWrites_all]
  rfl

/-- A blank log of 4 MiB is marked clean and opens clean. -/
theorem mark_clean_reopens_blank :
    ReopensClean zeroStray
      ((markCleanWrites (blankHandle 4194304)).foldl PageWrite.apply blankLog) 4194304
      (blankHandle 4194304) :=
  (@mark_clean_reopens_iff zeroStray zeroStray blankLog _ 4194304 0 (blankHandle 4194304) _ [] _ rfl
    (by decide) (blankHandle_marked 4194304 blankLog)).mpr
    (show 4096 * 50 ≤ 4194304 by decide)

/-- A blank log of 64 KiB is marked clean and does not open clean: the file size that its
restart pages claim, 50 pages, is larger than the log. -/
theorem marked_blank_log_not_clean :
    ntfsLogfileOpen zeroStray blankLog 65536 = some (blankHandle 65536) ∧
      ∃ after marked, ntfsLogfileMarkClean (some fun _ => true) (blankHandle 65536) blankLog =
        (after, .ok marked) ∧ ¬ ReopensClean zeroStray after 65536 (blankHandle 65536) := by
  have shape : HandleShape (blankHandle 65536) := by
    refine ⟨by decide, .inl rfl, fun area => ?_⟩
    cases area
  refine ⟨rfl, _, _, blankHandle_marked 65536 blankLog, ?_⟩
  exact HoldsClean.not_clean_of_short shape rfl (by decide) (markCleanWrites_holds blankLog) rfl

end Ttntfs.Logfile
