import Mathlib.Tactic.IntervalCases
import Ttntfs.Logfile.MarkClean
import Ttntfs.Logfile.SectorTails

/-!
# The pages of a clean journal

What the restart pages that `ntfs_logfile_mark_clean` writes hold, byte range by byte
range, and that a reader who opens the log accepts them. A page size is a power of two
from one sector to 64 KiB; the area of the new page then ends in the first sector.
-/

namespace Ttntfs.Logfile

open Library.ByteMemory

/-- A size that a log page can have. -/
def IsPageSize (size : Nat) : Prop := ∃ k, 9 ≤ k ∧ k ≤ 16 ∧ size = 2 ^ k

theorem IsPageSize.bounds {size : Nat} (isSize : IsPageSize size) :
    512 ≤ size ∧ size ≤ 65536 ∧ size % 512 = 0 := by
  obtain ⟨k, lower, upper, rfl⟩ := isSize
  interval_cases k <;> decide

theorem IsPageSize.isPow2 {size : Nat} (isSize : IsPageSize size) : isPow2 size = true := by
  obtain ⟨k, lower, upper, rfl⟩ := isSize
  interval_cases k <;> decide

/-! ## The content of the page -/

section Content

variable {log : Handle}

theorem cleanRaOfs_bounds (isSize : IsPageSize (cleanPageSize log)) :
    rpHeaderSize + cleanUsaCount log * 2 ≤ cleanRaOfs log ∧ cleanRaOfs log ≤ 288 ∧
      cleanRaOfs log % 8 = 0 ∧ cleanUsaCount log ≤ 129 := by
  obtain ⟨-, upper, -⟩ := isSize.bounds
  have count : cleanUsaCount log ≤ 129 := by
    simp only [cleanUsaCount]
    omega
  simp only [cleanRaOfs, lfAlign8, add32, rpHeaderSize]
  omega

theorem cleanRaOfs_room (isSize : IsPageSize (cleanPageSize log)) :
    cleanRaOfs log + raSizeXp + crSize ≤ cleanPageSize log := by
  obtain ⟨lower, upper, -⟩ := isSize.bounds
  simp only [cleanRaOfs, cleanUsaCount, lfAlign8, add32, rpHeaderSize, raSizeXp, crSize]
  omega

/-- A memory agrees with the new restart page on its header and its restart area. -/
def AgreesClean (log : Handle) (m : Mem) : Prop :=
  ∀ i, i < rpHeaderSize ∨ cleanRaOfs log ≤ i ∧ i < cleanRaOfs log + raSizeXp →
    m i = cleanPage log i

theorem cleanHeader_apart : (cleanHeader log).Pairwise Field.Apart := by
  simp [cleanHeader, Field.Apart, rpMagic, rpUsaOfs, rpUsaCount, rpSystemPageSize, rpLogPageSize,
    rpRestartAreaOffset, rpMinorVer, rpMajorVer]

theorem cleanHeader_inside : ∀ f ∈ cleanHeader log, f.off + f.width ≤ rpHeaderSize := by
  simp [cleanHeader, rpMagic, rpUsaOfs, rpUsaCount, rpSystemPageSize, rpLogPageSize,
    rpRestartAreaOffset, rpMinorVer, rpMajorVer, rpHeaderSize]

theorem cleanArea_apart : (cleanArea log).Pairwise Field.Apart := by
  rw [cleanArea]
  split <;>
    simp [keptFields, freshFields, closedFields, Field.Apart, raCurrentLsn, raLogClients,
      raClientFreeList, raClientInUseList, raFlags, raSeqNumberBits, raRestartAreaLength,
      raClientArrayOffset, raFileSize, raLastLsnDataLength, raLogRecordHeaderLength,
      raLogPageDataOffset, raRestartLogOpenCount]

theorem cleanArea_inside : ∀ f ∈ cleanArea log, f.off + f.width ≤ raSizeXp := by
  rw [cleanArea]
  split <;>
    simp [keptFields, freshFields, closedFields, raCurrentLsn, raLogClients, raClientFreeList,
      raClientInUseList, raFlags, raSeqNumberBits, raRestartAreaLength, raClientArrayOffset,
      raFileSize, raLastLsnDataLength, raLogRecordHeaderLength, raLogPageDataOffset,
      raRestartLogOpenCount, raSizeXp]

theorem cleanClient_inside : ∀ f ∈ cleanClient, f.off + f.width ≤ crSize := by
  simp [cleanClient, crOldestLsn, crClientRestartLsn, crPrevClient, crNextClient, crSeqNumber,
    crClientNameLength, crClientName, crSize]

variable {m : Mem}

/-- A header field of a page that agrees with the new one. -/
theorem AgreesClean.header (isSize : IsPageSize (cleanPageSize log)) (agrees : AgreesClean log m)
    {f : Field} (member : f ∈ cleanHeader log) :
    getLE m f.width f.off = f.value % 256 ^ f.width := by
  have inside := cleanHeader_inside f member
  have below := (cleanRaOfs_bounds isSize).1
  have stored := @getLE_storeFields zeros 0 _ cleanHeader_apart f member
  rw [Nat.zero_add] at stored
  rw [← stored]
  calc getLE m f.width f.off = getLE (cleanPage log) f.width f.off :=
        getLE_congr fun i _ upper => agrees i (.inl (by omega))
    _ = getLE (storeFields (storeFields zeros 0 (cleanHeader log)) (cleanRaOfs log)
          (cleanArea log)) f.width f.off :=
        getLE_storeFields_outside fun g _ => by omega
    _ = getLE (storeFields zeros 0 (cleanHeader log)) f.width f.off :=
        getLE_storeFields_outside fun g _ => by omega

theorem AgreesClean.area (agrees : AgreesClean log m) {f : Field} (member : f ∈ cleanArea log) :
    getLE m f.width (cleanRaOfs log + f.off) = f.value % 256 ^ f.width := by
  have inside := cleanArea_inside f member
  have stored := @getLE_storeFields (storeFields zeros 0 (cleanHeader log)) (cleanRaOfs log) _
    cleanArea_apart f member
  rw [← stored]
  calc getLE m f.width (cleanRaOfs log + f.off) =
        getLE (cleanPage log) f.width (cleanRaOfs log + f.off) :=
        getLE_congr fun i lower upper => agrees i (.inr (by omega))
    _ = getLE (storeFields (storeFields zeros 0 (cleanHeader log)) (cleanRaOfs log)
          (cleanArea log)) f.width (cleanRaOfs log + f.off) :=
        getLE_storeFields_outside fun g _ => by omega

/-- No field of the new page lies past the first sector. -/
theorem cleanPage_zero (isSize : IsPageSize (cleanPageSize log)) {i : Nat} (beyond : 512 ≤ i) :
    cleanPage log i = 0 := by
  obtain ⟨below, upper, -, -⟩ := cleanRaOfs_bounds isSize
  have client := @cleanClient_inside
  have area := @cleanArea_inside log
  have header := @cleanHeader_inside log
  simp only [raSizeXp, crSize, rpHeaderSize] at client area header below
  calc cleanPage log i = storeFields (storeFields zeros 0 (cleanHeader log)) (cleanRaOfs log)
        (cleanArea log) i := storeFields_outside fun f member => by
          have := client f member
          simp only [raSizeXp]
          omega
    _ = storeFields zeros 0 (cleanHeader log) i := storeFields_outside fun f member => by
          have := area f member
          omega
    _ = zeros i := storeFields_outside fun f member => by
          have := header f member
          omega

/-- The number of `chkdsk` is not set. -/
theorem AgreesClean.chkdskLsn (isSize : IsPageSize (cleanPageSize log))
    (agrees : AgreesClean log m) : lfGet64 m rpChkdskLsn = 0 := by
  have below := (cleanRaOfs_bounds isSize).1
  simp only [rpHeaderSize] at below
  rw [← getLE_zeros 8 rpChkdskLsn]
  refine getLE_congr fun i lower upper => ?_
  simp only [rpChkdskLsn] at lower upper
  calc m i = cleanPage log i := agrees i (.inl (by simp only [rpHeaderSize]; omega))
    _ = storeFields (storeFields zeros 0 (cleanHeader log)) (cleanRaOfs log) (cleanArea log) i :=
        storeFields_outside fun g _ => by omega
    _ = storeFields zeros 0 (cleanHeader log) i := storeFields_outside fun g _ => by omega
    _ = zeros i := storeFields_outside (by
        simp [cleanHeader, rpMagic, rpUsaOfs, rpUsaCount, rpSystemPageSize, rpLogPageSize,
          rpRestartAreaOffset, rpMinorVer, rpMajorVer]
        omega)

end Content

/-! ## What a reader of the page finds -/

section Values

variable (log : Handle)

/-- The sequence number bits that are written. -/
def cleanSeqBits : Nat :=
  if log.ra.isSome then log.seqNumBits else 67 - bitLength (cleanFileSize log)

/-- The size of the log that is written. -/
def cleanLogSize : Nat := if log.ra.isSome then log.lSize else cleanFileSize log

/-- The record header length that is written. -/
def cleanHeaderLen : Nat := if log.ra.isSome then log.recordHeaderLen else lrHeaderSize

/-- The data offset that is written. -/
def cleanDataOff : Nat :=
  if log.ra.isSome then log.dataOff else lfAlign8 (pgUsa + cleanUsaCount log * 2)

/-- Every value that is written fits its field. -/
structure CleanFits : Prop where
  pageSize : IsPageSize (cleanPageSize log)
  seqBits : cleanSeqBits log < 2 ^ 32
  logSize : cleanLogSize log < 2 ^ 64
  headerLen : cleanHeaderLen log < 2 ^ 16
  dataOff : cleanDataOff log < 2 ^ 16

/-- The fields that the open reads, as the new page has them. -/
structure ReadsClean (m : Mem) : Prop where
  magic : lfGet32 m rpMagic = lfsMagicRstr
  usaOfs : lfGet16 m rpUsaOfs = rpHeaderSize
  usaCount : lfGet16 m rpUsaCount = cleanUsaCount log
  chkdskLsn : lfGet64 m rpChkdskLsn = 0
  sysPageSize : lfGet32 m rpSystemPageSize = cleanPageSize log
  logPageSize : lfGet32 m rpLogPageSize = cleanPageSize log
  minorVer : lfGet16 m rpMinorVer = 1
  majorVer : lfGet16 m rpMajorVer = 1
  raOfs : raOf m = cleanRaOfs log
  clients : lfGet16 m (cleanRaOfs log + raLogClients) = 1
  freeList : lfGet16 m (cleanRaOfs log + raClientFreeList) = 0
  inUseList : lfGet16 m (cleanRaOfs log + raClientInUseList) = lfsNoClient
  areaLength : lfGet16 m (cleanRaOfs log + raRestartAreaLength) = raSizeXp + crSize
  arrayOffset : lfGet16 m (cleanRaOfs log + raClientArrayOffset) = raSizeXp
  seqBits : lfGet32 m (cleanRaOfs log + raSeqNumberBits) = cleanSeqBits log
  fileSize : lfGet64 m (cleanRaOfs log + raFileSize) = cleanLogSize log
  headerLen : lfGet16 m (cleanRaOfs log + raLogRecordHeaderLength) = cleanHeaderLen log
  dataOff : lfGet16 m (cleanRaOfs log + raLogPageDataOffset) = cleanDataOff log

end Values

section Readers

variable {log : Handle} {m : Mem}

theorem reject_bind_eq_ok {bad : Bool} {text : String} {α : Type}
    {next : Unit → Except PageError α} {value : α} :
    (reject bad text >>= next) = .ok value ↔ bad = false ∧ next () = .ok value := by
  cases bad <;> simp [reject, bind, Except.bind]

theorem reject_eq_ok {bad : Bool} {text : String} : reject bad text = .ok () ↔ bad = false := by
  cases bad <;> simp [reject]

theorem cleanArea_values :
    ⟨4, raSeqNumberBits, cleanSeqBits log⟩ ∈ cleanArea log ∧
      ⟨8, raFileSize, cleanLogSize log⟩ ∈ cleanArea log ∧
      ⟨2, raLogRecordHeaderLength, cleanHeaderLen log⟩ ∈ cleanArea log ∧
      ⟨2, raLogPageDataOffset, cleanDataOff log⟩ ∈ cleanArea log := by
  simp only [cleanArea, cleanSeqBits, cleanLogSize, cleanHeaderLen, cleanDataOff]
  split <;> simp [keptFields, freshFields]

theorem AgreesClean.closed (agrees : AgreesClean log m) {f : Field} (member : f ∈ closedFields) :
    getLE m f.width (cleanRaOfs log + f.off) = f.value % 256 ^ f.width :=
  agrees.area (List.mem_append_right _ member)

/-- A page that agrees with the new one reads like it. -/
theorem AgreesClean.reads (fits : CleanFits log) (agrees : AgreesClean log m) :
    ReadsClean log m := by
  obtain ⟨seqBits, fileSize, headerLen, dataOff⟩ := @cleanArea_values log
  have count := (cleanRaOfs_bounds fits.pageSize).2.2.2
  have place := (cleanRaOfs_bounds fits.pageSize).2.1
  obtain ⟨-, upper, -⟩ := fits.pageSize.bounds
  have header {f : Field} (member : f ∈ cleanHeader log) := agrees.header fits.pageSize member
  exact
    { magic := header (f := ⟨4, rpMagic, lfsMagicRstr⟩) (by simp [cleanHeader])
      usaOfs := header (f := ⟨2, rpUsaOfs, rpHeaderSize⟩) (by simp [cleanHeader])
      usaCount := (header (f := ⟨2, rpUsaCount, cleanUsaCount log⟩) (by simp [cleanHeader])).trans
        (Nat.mod_eq_of_lt (by dsimp only; omega))
      chkdskLsn := agrees.chkdskLsn fits.pageSize
      sysPageSize := (header (f := ⟨4, rpSystemPageSize, cleanPageSize log⟩)
        (by simp [cleanHeader])).trans (Nat.mod_eq_of_lt (by dsimp only; omega))
      logPageSize := (header (f := ⟨4, rpLogPageSize, cleanPageSize log⟩)
        (by simp [cleanHeader])).trans (Nat.mod_eq_of_lt (by dsimp only; omega))
      minorVer := header (f := ⟨2, rpMinorVer, 1⟩) (by simp [cleanHeader])
      majorVer := header (f := ⟨2, rpMajorVer, 1⟩) (by simp [cleanHeader])
      raOfs := (header (f := ⟨2, rpRestartAreaOffset, cleanRaOfs log⟩)
        (by simp [cleanHeader])).trans (Nat.mod_eq_of_lt (by dsimp only; omega))
      clients := agrees.closed (f := ⟨2, raLogClients, 1⟩) (by simp [closedFields])
      freeList := agrees.closed (f := ⟨2, raClientFreeList, 0⟩) (by simp [closedFields])
      inUseList := agrees.closed (f := ⟨2, raClientInUseList, lfsNoClient⟩)
        (by simp [closedFields])
      areaLength := agrees.closed (f := ⟨2, raRestartAreaLength, raSizeXp + crSize⟩)
        (by simp [closedFields])
      arrayOffset := agrees.closed (f := ⟨2, raClientArrayOffset, raSizeXp⟩)
        (by simp [closedFields])
      seqBits := (agrees.area seqBits).trans (Nat.mod_eq_of_lt fits.seqBits)
      fileSize := (agrees.area fileSize).trans (Nat.mod_eq_of_lt fits.logSize)
      headerLen := (agrees.area headerLen).trans (Nat.mod_eq_of_lt fits.headerLen)
      dataOff := (agrees.area dataOff).trans (Nat.mod_eq_of_lt fits.dataOff) }

/-- The head of a page is accepted exactly where every check passes. -/
theorem checkRpHeader_ok_iff {pos : Nat} :
    checkRpHeader m pos = .ok () ↔
      (lfsSectorSize ≤ lfGet32 m rpSystemPageSize ∧ lfsSectorSize ≤ lfGet32 m rpLogPageSize ∧
        isPow2 (lfGet32 m rpSystemPageSize) ∧ isPow2 (lfGet32 m rpLogPageSize)) ∧
      (pos = 0 ∨ pos = lfGet32 m rpSystemPageSize) ∧
      knownVersion (lfGet16 m rpMajorVer) (lfGet16 m rpMinorVer) ∧
      (haveUsa m → (1 + lfGet32 m rpSystemPageSize / 512) % 2 ^ 16 = lfGet16 m rpUsaCount) ∧
      (haveUsa m → rpHeaderSize ≤ lfGet16 m rpUsaOfs ∧ usaEnd m ≤ lfsSectorSize - 2) ∧
      (raOf m % 8 = 0 ∧ (if haveUsa m then usaEnd m else rpHeaderSize) ≤ raOf m ∧
        raOf m ≤ lfGet32 m rpSystemPageSize) ∧
      (lfGet32 m rpMagic = lfsMagicChkd ∨ lfGet64 m rpChkdskLsn = 0) := by
  unfold checkRpHeader
  by_cases known : knownVersion (lfGet16 m rpMajorVer) (lfGet16 m rpMinorVer) = true
  · by_cases usa : haveUsa m = true
    · simp [reject_bind_eq_ok, reject_eq_ok, known, usa, and_assoc, or_iff_not_imp_left]
    · simp [reject_bind_eq_ok, reject_eq_ok, known, usa, and_assoc, or_iff_not_imp_left]
  · simp [reject_bind_eq_ok, known]

theorem ReadsClean.usa (reads : ReadsClean log m) : haveUsa m = true := by
  simp only [haveUsa, reads.magic]
  rfl

/-- The header of the new page is accepted in both places. -/
theorem ReadsClean.header_ok (isSize : IsPageSize (cleanPageSize log)) (reads : ReadsClean log m)
    {pos : Nat} (place : pos = 0 ∨ pos = cleanPageSize log) : checkRpHeader m pos = .ok () := by
  obtain ⟨lower, upper, whole⟩ := isSize.bounds
  obtain ⟨after, small, aligned, count⟩ := cleanRaOfs_bounds isSize
  have usa : haveUsa m = true := reads.usa
  have finish : usaEnd m = rpHeaderSize + cleanUsaCount log * 2 := by
    simp only [usaEnd, reads.usaOfs, reads.sysPageSize, cleanUsaCount]
    omega
  simp only [checkRpHeader_ok_iff, usa, finish, reads.sysPageSize, reads.logPageSize, reads.raOfs,
    reads.usaOfs, reads.usaCount, reads.chkdskLsn, reads.minorVer, reads.majorVer, isSize.isPow2,
    if_true, true_imp_iff, or_true, and_true]
  simp only [rpHeaderSize, lfsSectorSize] at after ⊢
  refine ⟨⟨lower, lower⟩, place, rfl, ?_, ⟨Nat.le_refl _, by omega⟩, aligned, after, by omega⟩
  simp only [cleanUsaCount]
  omega

/-- The restart area of a page is accepted exactly where every check passes. -/
theorem checkRa_ok_iff :
    checkRa m = .ok () ↔
      raOf m + raFileSize ≤ lfsSectorSize - 2 ∧
      (lfGet16 m (raOf m + raClientArrayOffset) % 8 = 0 ∧
        raOf m + lfGet16 m (raOf m + raClientArrayOffset) ≤ lfsSectorSize - 2) ∧
      (raOf m + raLenCalc m ≤ lfGet32 m rpSystemPageSize ∧
        raOf m + lfGet16 m (raOf m + raRestartAreaLength) ≤ lfGet32 m rpSystemPageSize ∧
        raLenCalc m ≤ lfGet16 m (raOf m + raRestartAreaLength)) ∧
      (listHeadOk (lfGet16 m (raOf m + raClientFreeList)) (lfGet16 m (raOf m + raLogClients)) ∧
        listHeadOk (lfGet16 m (raOf m + raClientInUseList)) (lfGet16 m (raOf m + raLogClients))) ∧
      lfGet32 m (raOf m + raSeqNumberBits) = 67 - bitLength (lfGet64 m (raOf m + raFileSize)) ∧
      lfGet16 m (raOf m + raLogRecordHeaderLength) % 8 = 0 ∧
      lfGet16 m (raOf m + raLogPageDataOffset) % 8 = 0 := by
  unfold checkRa
  simp [reject_bind_eq_ok, reject_eq_ok, and_assoc]

/-- The values that are written agree with one another. -/
def CleanConsistent (log : Handle) : Prop :=
  cleanSeqBits log = 67 - bitLength (cleanLogSize log) ∧ cleanHeaderLen log % 8 = 0 ∧
    cleanDataOff log % 8 = 0

/-- The area of the new page is accepted exactly where its values agree. -/
theorem ReadsClean.area_ok_iff (isSize : IsPageSize (cleanPageSize log))
    (reads : ReadsClean log m) : checkRa m = .ok () ↔ CleanConsistent log := by
  obtain ⟨lower, upper, whole⟩ := isSize.bounds
  obtain ⟨after, small, aligned, count⟩ := cleanRaOfs_bounds isSize
  have needed : raLenCalc m = raSizeXp + crSize := by
    simp only [raLenCalc, reads.raOfs, reads.arrayOffset, reads.clients]
    rfl
  simp only [checkRa_ok_iff, needed, reads.raOfs, reads.arrayOffset, reads.areaLength,
    reads.sysPageSize, reads.freeList, reads.inUseList, reads.clients, reads.seqBits,
    reads.fileSize, reads.headerLen, reads.dataOff, CleanConsistent]
  have room := cleanRaOfs_room isSize
  simp only [raFileSize, raSizeXp, crSize, lfsSectorSize] at room ⊢
  refine ⟨fun checks => checks.2.2.2.2, fun consistent => ?_⟩
  exact ⟨by omega, ⟨trivial, by omega⟩, ⟨by omega, by omega, Nat.le_refl _⟩, ⟨rfl, rfl⟩, consistent⟩

end Readers

/-! ## The pages in the log -/

section Stored

variable {log : Handle}

/-- A restart page before its tails are put away. -/
def cleanCopy (log : Handle) (slot : Nat) : Mem :=
  lfPut16 (cleanPage log) rpHeaderSize (0x1000 + slot + log.openLogCount % 0x100)

theorem cleanCopy_agrees (isSize : IsPageSize (cleanPageSize log)) (slot : Nat) :
    AgreesClean log (cleanCopy log slot) := by
  intro i inside
  have after := (cleanRaOfs_bounds isSize).1
  have count : 1 ≤ cleanUsaCount log := Nat.le_add_left 1 _
  exact putLE_outside (by omega)

theorem cleanCopy_usaOk (fits : CleanFits log) (slot : Nat) :
    usaOk (cleanCopy log slot) (cleanPageSize log) lfsSectorSize = true ∧
      lfGet16 (cleanCopy log slot) mrUsaOfs = rpHeaderSize ∧
      lfGet16 (cleanCopy log slot) mrUsaCount = cleanUsaCount log := by
  obtain ⟨lower, upper, whole⟩ := fits.pageSize.bounds
  have reads := (cleanCopy_agrees fits.pageSize slot).reads fits
  have count := (cleanRaOfs_bounds fits.pageSize).2.2.2
  have ofs : lfGet16 (cleanCopy log slot) mrUsaOfs = rpHeaderSize := reads.usaOfs
  have entries : lfGet16 (cleanCopy log slot) mrUsaCount = cleanUsaCount log := reads.usaCount
  refine ⟨?_, ofs, entries⟩
  rw [usaOk_iff, ofs, entries]
  simp only [cleanUsaCount, rpHeaderSize, lfsSectorSize] at count ⊢
  refine ⟨trivial, by omega, by omega, by omega⟩

theorem restartPageWrite_protects (fits : CleanFits log) (slot : Nat) :
    Protects (cleanCopy log slot) (restartPageWrite log slot).page := by
  obtain ⟨ok, ofs, entries⟩ := cleanCopy_usaOk fits slot
  have count := (cleanRaOfs_bounds fits.pageSize).2.2.2
  obtain ⟨sealed, written, protects⟩ := lfsFixupPreWrite_protects ok (by
    simp only [ofs, entries, rpHeaderSize]
    omega)
  have same : (restartPageWrite log slot).page = sealed :=
    congrArg (fun page : Option Mem => page.getD (cleanCopy log slot)) written
  rwa [same]

/-- The log holds the new restart pages. -/
def HoldsClean (log : Handle) (content : Mem) : Prop :=
  ∀ slot < 2, ∀ i < cleanPageSize log,
    content (slot * cleanPageSize log + i) = (restartPageWrite log slot).page i

theorem markCleanWrites_holds (content : Mem) :
    HoldsClean log ((markCleanWrites log).foldl PageWrite.apply content) := by
  intro slot below i inside
  rw [markCleanWrites, List.foldl_append]
  simp only [List.foldl_cons, List.foldl_nil, PageWrite.apply, restartPageWrite]
  generalize (log.overrides.map (tailCopyBack log)).foldl PageWrite.apply content = earlier
  obtain rfl | rfl : slot = 0 ∨ slot = 1 := by omega
  · rw [copyRange_outside (by omega), copyRange_inside (by omega) (by omega)]
    congr 1
    omega
  · rw [copyRange_inside (by omega) (by omega)]
    congr 1
    omega

variable {content : Mem} {stray : Stray} {origSize slot : Nat}

/-- The head of a new page, as it is read from the log. -/
theorem HoldsClean.head_agrees (fits : CleanFits log) (holds : HoldsClean log content)
    (below : slot < 2) (past : Mem) :
    AgreesClean log (within lfsSectorSize (bytesFrom content (slot * cleanPageSize log)) past) := by
  intro i inside
  obtain ⟨lower, -, -⟩ := fits.pageSize.bounds
  obtain ⟨after, small, -, -⟩ := cleanRaOfs_bounds fits.pageSize
  obtain ⟨-, ofs, entries⟩ := cleanCopy_usaOk fits slot
  have first : i < 510 := by
    simp only [rpHeaderSize, raSizeXp] at inside
    omega
  have head : within lfsSectorSize (bytesFrom content (slot * cleanPageSize log)) past i =
      (restartPageWrite log slot).page i := by
    rw [within, if_pos (by simp only [lfsSectorSize]; omega)]
    exact holds slot below i (by omega)
  rw [head, (restartPageWrite_protects fits slot).kept i (by omega) (by rw [ofs, entries]; omega)]
  exact cleanCopy_agrees fits.pageSize slot i inside

/-- A new page, as it is read from the log and restored. -/
theorem HoldsClean.restores (fits : CleanFits log) (holds : HoldsClean log content)
    (below : slot < 2) (past : Mem) :
    ∃ page, lfsFixupPostRead
        (within (cleanPageSize log) (bytesFrom content (slot * cleanPageSize log)) past)
        (cleanPageSize log) lfsSectorSize = some (page, false) ∧ AgreesClean log page := by
  obtain ⟨lower, -, -⟩ := fits.pageSize.bounds
  obtain ⟨after, small, -, -⟩ := cleanRaOfs_bounds fits.pageSize
  obtain ⟨ok, ofs, entries⟩ := cleanCopy_usaOk fits slot
  have stored : ∀ i, i < cleanPageSize log →
      within (cleanPageSize log) (bytesFrom content (slot * cleanPageSize log)) past i =
        (restartPageWrite log slot).page i := fun i inside =>
    (if_pos inside).trans (holds slot below i inside)
  obtain ⟨page, read, same⟩ := (restartPageWrite_protects fits slot).restores ok
    (by rw [ofs]; decide) stored lower
  refine ⟨page, read, fun i inside => ?_⟩
  have first : i < 510 := by
    simp only [rpHeaderSize, raSizeXp] at inside
    omega
  rw [same i (by omega) (by omega) (by rw [ofs, entries]; omega)]
  exact cleanCopy_agrees fits.pageSize slot i inside

end Stored

end Ttntfs.Logfile
