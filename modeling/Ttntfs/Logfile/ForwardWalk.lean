import Ttntfs.Logfile.LogReader
import Ttntfs.Logfile.StateFromDisk

/-!
# Walking the log forward

From a record to the one behind it: the number of the next record is put together from
where the record ends, what its last page says and the sequence number, which counts how
often the file was written round. The next number is greater, unless the sequence number
runs out of its bits. Every walk ends all the same: a record is believed at one offset only,
and the file has too few of them for the numbers to go round.
-/

namespace Ttntfs.Logfile

open Library.ByteMemory Library.SuccessorWalks

/-- What an open leaves of the geometry of a log, whose sequence number takes the bits that the
offsets of the file do not. At least three bits are left for it. -/
structure LogShape (log : Handle) : Prop where
  pageSize : IsPageSize log.pageSize
  whole : log.lSize % log.pageSize = 0
  pages : 50 * log.pageSize ≤ log.lSize
  size : log.lSize < 2 ^ 32
  firstPage : log.firstPage = 4 * log.pageSize ∨ log.firstPage = 0x22 * log.pageSize
  headerLen : lrHeaderSize ≤ log.recordHeaderLen ∧ log.recordHeaderLen < log.pageSize
  dataOff : pgUsa ≤ log.dataOff ∧ log.dataOff < log.pageSize
  bits : 3 ≤ log.seqNumBits ∧ log.seqNumBits ≤ 64
  offsets : log.lSize < 2 ^ (log.fileDataBits + 3)

section Opened

variable {stray : Stray} {content : Mem} {ioSize : Nat} {log : Handle}

theorem getLE_low (m : Mem) (low high off : Nat) :
    getLE m (low + high) off % 256 ^ low = getLE m low off := by
  induction low generalizing off with
  | zero => rw [Nat.pow_zero, Nat.mod_one, getLE]
  | succ low ih =>
    have byte : (m off).toNat < 256 := (m off).toNat_lt
    rw [Nat.succ_add, getLE, getLE, ← ih (off + 1), Nat.pow_succ', Nat.mod_mul,
      Nat.add_mul_mod_self_left, Nat.mod_eq_of_lt byte, Nat.add_mul_div_left _ _ (by decide),
      Nat.div_eq_of_lt byte, Nat.zero_add]

theorem lt_two_pow_bitLength (v : Nat) : v < 2 ^ bitLength v := by
  rw [bitLength]
  split
  · omega
  · exact Nat.lt_log2_self

theorem bitLength_le {v n : Nat} (small : v < 2 ^ n) : bitLength v ≤ n := by
  rw [bitLength]
  split
  · exact Nat.zero_le _
  · rename_i positive
    exact (Nat.log2_lt positive).mpr small

/-- The geometry that an open accepts is that of the restart page in use. -/
theorem ntfsLogfileOpen_accepted (opened : ntfsLogfileOpen stray content ioSize = some log)
    (area : log.ra.isSome) (supported : log.state ≠ .unsupported) :
    ∃ page slot ready done, page ∈ usedPage stray content (handleSize ioSize) ∧
      log.curRst = some slot ∧ log.rst[slot]? = some page ∧
      setupGeometry stray ready page.page = some (done, .ok ()) ∧
      log = { done with state := stateAfterSetup done page.chkdsk (.ok ()) } ∧
      log.geometry = pageGeometry stray ready.origSize page.page ∧
      lfGet64 page.page (raOf page.page + raFileSize) < 2 ^ 32 := by
  have origSize := (ntfsLogfileOpen_shape opened supported).origSize
  obtain ⟨-, -, none⟩ | ⟨-, -, none⟩ | ⟨page, slot, ready, done, result, used, ⟨-, noArea⟩, curRst, rst,
    setup, same⟩ := ntfsLogfileOpen_course opened
  · rw [none] at area
    cases area
  · rw [none] at area
    cases area
  have ok : result = .ok () := by
    match result with
    | .ok () => rfl
    | .error .unsupported => exact absurd (congrArg Handle.state same) supported
    | .error .invalid =>
      obtain ⟨-, -, kept, -⟩ := setupGeometry_invalid setup
      rw [congrArg Handle.ra same, kept.trans noArea] at area
      cases area
  subst ok
  obtain ⟨given, accepted⟩ := setupGeometry_ok setup
  exact ⟨page, slot, ready, done, used, curRst, rst, setup, same,
    (congrArg Handle.geometry same).trans given,
    (accepted.fileSize.trans_eq (congrArg Handle.origSize same).symm).trans_lt origSize⟩

/-- An open that accepts the geometry of its restart page leaves a log of this shape. Where the
restart area is not at the one offset at which the tail of a sector lies in the size of the
file, offsets take 29 bits at most. -/
theorem logShape_of_open (opened : ntfsLogfileOpen stray content ioSize = some log)
    (area : log.ra.isSome) (supported : log.state ≠ .unsupported) :
    LogShape log ∧ (log.raOfs ≠ 480 → 35 ≤ log.seqNumBits) := by
  obtain ⟨pageSize, whole, pages, lSize, -, headerLen, dataOff⟩ :=
    (ntfsLogfileOpen_shape opened supported).area area
  obtain ⟨page, slot, ready, done, used, -, -, setup, same, geometry, fileSize⟩ :=
    ntfsLogfileOpen_accepted opened area supported
  obtain ⟨pos, -, found⟩ := usedPage_mem used
  obtain ⟨loaded, -, -⟩ := pageAt_eq_some found
  have logPage : log.pageSize = lfGet32 page.page rpLogPageSize := congrArg Geometry.pageSize geometry
  have raOfs : log.raOfs = raOf page.page := congrArg Geometry.raOfs geometry
  have bits : log.seqNumBits = lfGet32 page.page (raOf page.page + raSeqNumberBits) :=
    congrArg Geometry.seqNumBits geometry
  have size : log.lSize = lfGet64 page.page (raOf page.page + raFileSize) % 2 ^ 32 /
      lfGet32 page.page rpLogPageSize * lfGet32 page.page rpLogPageSize :=
    congrArg Geometry.lSize geometry
  -- The fields that were checked are those of the page, as they lie before its first tail.
  obtain ⟨header, checked, -⟩ := loadRestartPage_eq_ok_iff.mp loaded
  obtain ⟨-, -, -, -, -, ⟨aligned, -⟩, -⟩ := checkRpHeader_ok_iff.mp header
  obtain ⟨start, -, -, -, seqBits, -⟩ := checkRa_ok_iff.mp checked
  have headArea : raOf page.page = raOf (headAt stray content pos) :=
    @loadRestartPage_field stray content (handleSize ioSize) pos page loaded 2 rpRestartAreaOffset
      (by decide)
  simp only [raFileSize, lfsSectorSize] at start
  have consistent : log.seqNumBits = 67 - bitLength
      (lfGet64 (headAt stray content pos) (raOf (headAt stray content pos) + raFileSize)) := by
    rw [bits, headArea, lfGet32, @loadRestartPage_field _ _ _ _ _ loaded 4 _
      (by simp only [raSeqNumberBits]; omega)]
    exact seqBits
  have low : lfGet64 page.page (raOf page.page + raFileSize) % 2 ^ 32 =
      lfGet64 (headAt stray content pos) (raOf (headAt stray content pos) + raFileSize) % 2 ^ 32 := by
    have first := getLE_low page.page 4 4 (raOf page.page + raFileSize)
    have second := getLE_low (headAt stray content pos) 4 4 (raOf page.page + raFileSize)
    rw [headArea] at first second
    rw [@loadRestartPage_field _ _ _ _ _ loaded 4 _ (by simp only [raFileSize]; omega), ← second] at first
    rw [headArea]
    exact first
  have exactly : log.raOfs ≠ 480 → lfGet64 page.page (raOf page.page + raFileSize) =
      lfGet64 (headAt stray content pos) (raOf (headAt stray content pos) + raFileSize) := by
    intro place
    rw [raOfs, headArea] at place
    rw [headArea, lfGet64, @loadRestartPage_field _ _ _ _ _ loaded 8 _
      (by simp only [raFileSize]; omega), lfGet64]
  have raw := getLE_lt (headAt stray content pos) 8 (raOf (headAt stray content pos) + raFileSize)
  rw [← lfGet64] at raw
  generalize lfGet64 page.page (raOf page.page + raFileSize) = fs at size fileSize low exactly
  generalize lfGet64 (headAt stray content pos) _ = checkedSize at consistent low exactly raw
  have below := lt_two_pow_bitLength checkedSize
  have few : bitLength checkedSize ≤ 64 := bitLength_le raw
  have least := pageSize.bounds.1
  have smaller : log.lSize ≤ fs % 2 ^ 32 := size ▸ Nat.div_mul_le_self _ _
  have many : 3 ≤ bitLength checkedSize := by
    by_contra low
    have tiny : 2 ^ bitLength checkedSize ≤ 2 ^ 3 := Nat.pow_le_pow_right (by omega) (by omega)
    omega
  refine ⟨⟨pageSize, whole, pages, by omega, ?_, headerLen, dataOff, by omega, ?_⟩, fun place => ?_⟩
  · obtain ⟨-, finished⟩ | ⟨-, failed, error, rejected⟩ :=
      setupGeometry_cases stray ready page.page
    · rw [finished, Option.map_eq_some_iff] at setup
      obtain ⟨last, ended, pair⟩ := setup
      obtain rfl : last = done := congrArg Prod.fst pair
      have first : log.firstPage = (withSizes ready page.page).firstPage :=
        (congrArg Handle.firstPage same).trans (finishGeometry_keeps ended).2.2
      rw [first, logPage, withSizes, setRecordGeometry]
      dsimp only
      split
      · exact .inr rfl
      · exact .inl rfl
    · rw [rejected] at setup
      cases setup
  · rw [Handle.fileDataBits, consistent,
      show 64 - (67 - bitLength checkedSize) + 3 = bitLength checkedSize by omega]
    omega
  · have short : bitLength checkedSize ≤ 32 := bitLength_le (exactly place ▸ fileSize)
    omega

end Opened

section Offsets

variable {log : Handle} {lsn off : Nat}

theorem LogShape.pow (shape : LogShape log) : 2 ^ log.seqNumBits * 2 ^ log.fileDataBits = 2 ^ 64 := by
  rw [← Nat.pow_add, Handle.fileDataBits, Nat.add_sub_cancel' shape.bits.2]

theorem fileDataBits_le (bits : 35 ≤ log.seqNumBits) : 2 ^ log.fileDataBits ≤ 2 ^ 29 := by
  refine Nat.pow_le_pow_right (by omega) ?_
  rw [Handle.fileDataBits]
  omega

theorem LogShape.le_seqNumBits (shape : LogShape log) : 2 ^ 3 ≤ 2 ^ log.seqNumBits :=
  Nat.pow_le_pow_right (by omega) shape.bits.1

theorem LogShape.lsnToVbo (shape : LogShape log) :
    lfsLsnToVbo log lsn = lsn % 2 ^ log.fileDataBits * 8 % 2 ^ 32 := by
  have split : 2 ^ log.seqNumBits = 8 * 2 ^ (log.seqNumBits - 3) := by
    have least := shape.bits.1
    rw [show (8 : Nat) = 2 ^ 3 from rfl, ← Nat.pow_add]
    congr 1
    omega
  rw [lfsLsnToVbo, ← shape.pow, Nat.mul_comm lsn, Nat.mul_mod_mul_left, split, Nat.mul_comm 8,
    Nat.mul_assoc, Nat.mul_div_cancel_left _ (Nat.two_pow_pos _), Nat.mul_comm 8]

/-- The shape is one of the geometry and the first page. -/
theorem LogShape.of_geometry {opened : Handle} (shape : LogShape opened)
    (geometry : log.geometry = opened.geometry) (firstPage : log.firstPage = opened.firstPage) :
    LogShape log := by
  have pageSize : log.pageSize = opened.pageSize := congrArg Geometry.pageSize geometry
  have lSize : log.lSize = opened.lSize := congrArg Geometry.lSize geometry
  have headerLen : log.recordHeaderLen = opened.recordHeaderLen :=
    congrArg Geometry.recordHeaderLen geometry
  have dataOff : log.dataOff = opened.dataOff := congrArg Geometry.dataOff geometry
  have bits : log.seqNumBits = opened.seqNumBits := congrArg Geometry.seqNumBits geometry
  have fileBits : log.fileDataBits = opened.fileDataBits := congrArg (64 - ·) bits
  refine ⟨?_, ?_, ?_, ?_, ?_, ?_, ?_, ?_, ?_⟩
  · exact pageSize ▸ shape.pageSize
  · rw [lSize, pageSize]
    exact shape.whole
  · rw [lSize, pageSize]
    exact shape.pages
  · exact lSize ▸ shape.size
  · rw [firstPage, pageSize]
    exact shape.firstPage
  · rw [headerLen, pageSize]
    exact shape.headerLen
  · rw [dataOff, pageSize]
    exact shape.dataOff
  · exact bits ▸ shape.bits
  · rw [lSize, fileBits]
    exact shape.offsets

theorem LogShape.positive (shape : LogShape log) : 0 < log.pageSize := by
  have least := shape.pageSize.bounds.1
  omega

theorem LogShape.pageStart (shape : LogShape log) (inside : off < log.lSize) :
    log.pageStart off % log.pageSize = 0 ∧ log.pageStart off ≤ off ∧
      off < log.pageStart off + log.pageSize ∧ log.pageStart off + log.pageSize ≤ log.lSize := by
  obtain ⟨n, pages⟩ := Nat.dvd_of_mod_eq_zero shape.whole
  have below : off / log.pageSize < n := by
    rw [Nat.div_lt_iff_lt_mul shape.positive, Nat.mul_comm, ← pages]
    exact inside
  refine ⟨Nat.mul_mod_left _ _, Nat.div_mul_le_self _ _, ?_, ?_⟩
  · exact Nat.lt_div_mul_add shape.positive
  · calc log.pageStart off + log.pageSize = (off / log.pageSize + 1) * log.pageSize := by
          rw [Nat.succ_mul]
          rfl
      _ ≤ n * log.pageSize := Nat.mul_le_mul_right _ below
      _ = log.lSize := by rw [pages, Nat.mul_comm]

theorem LogShape.first (shape : LogShape log) :
    log.firstPage < log.lSize ∧ log.firstPage % log.pageSize = 0 := by
  have positive := shape.positive
  have pages := shape.pages
  obtain four | many := shape.firstPage
  · rw [four]
    exact ⟨by omega, Nat.mul_mod_left _ _⟩
  · rw [many]
    exact ⟨by omega, Nat.mul_mod_left _ _⟩

theorem LogShape.nextPage (shape : LogShape log) (inside : off < log.lSize) :
    lfsNextPageOff log off < log.lSize ∧ lfsNextPageOff log off % log.pageSize = 0 ∧
      (lfsNextPageOff log off = log.firstPage ∨
        lfsNextPageOff log off = log.pageStart off + log.pageSize) := by
  obtain ⟨aligned, -, -, fits⟩ := shape.pageStart inside
  have size := shape.size
  rw [lfsNextPageOff, Nat.mod_eq_of_lt (by omega)]
  split
  · exact ⟨shape.first.1, shape.first.2, .inl rfl⟩
  · refine ⟨by omega, ?_, .inr rfl⟩
    rw [Nat.add_mod_right]
    exact aligned

theorem LogShape.finalPage (shape : LogShape log) {tail rounds final len : Nat} (room : 1 ≤ tail)
    (positive : 1 ≤ len) (enough : len ≤ rounds) (inside : final < log.lSize) :
    (finalPage log tail rounds final len).1 < log.lSize ∧
      (finalPage log tail rounds final len).1 % log.pageSize = 0 ∧
      1 ≤ (finalPage log tail rounds final len).2 ∧
      (finalPage log tail rounds final len).2 ≤ tail := by
  induction rounds generalizing final len with
  | zero => omega
  | succ rounds ih =>
    obtain ⟨next, aligned, -⟩ := shape.nextPage inside
    rw [Logfile.finalPage]
    split
    · exact ⟨next, aligned, positive, ‹_›⟩
    · exact ih (by omega) (by omega) next

/-- A record that fits into the pages ends in the log. -/
theorem LogShape.finalLogOff (shape : LogShape log) {len : Nat}
    (inside : lfsLsnToVbo log lsn < log.lSize) (fits : len + log.recordHeaderLen < totalAvail log) :
    lfsFinalLogOff log lsn len < log.lSize := by
  obtain ⟨-, size, -⟩ := shape.pageSize.bounds
  obtain ⟨least, dataOff⟩ := shape.dataOff
  have header := shape.headerLen
  have lSize := shape.size
  have positive := shape.positive
  simp only [lrHeaderSize] at header
  simp only [pgUsa] at least
  have avail : totalAvail log ≤ log.lSize := by
    have quotient : (log.lSize - log.firstPage) / log.pageSize * log.pageSize ≤
      log.lSize - log.firstPage := Nat.div_mul_le_self _ _
    have smaller := Nat.mul_le_mul_left ((log.lSize - log.firstPage) / log.pageSize)
      (Nat.sub_le log.pageSize log.dataOff)
    rw [totalAvail]
    omega
  have vbo := @LogShape.lsnToVbo log lsn shape
  have base : lsn * 8 % 2 ^ 32 % 2 ^ (log.fileDataBits + 3) = lfsLsnToVbo log lsn := by
    have scaled : lsn % 2 ^ log.fileDataBits * 8 = lsn * 8 % 2 ^ (log.fileDataBits + 3) := by
      rw [Nat.pow_add, Nat.mul_mod_mul_right]
    rw [vbo, scaled]
    obtain bits | bits := Nat.le_total (log.fileDataBits + 3) 32
    · have divides : 2 ^ (log.fileDataBits + 3) ∣ 2 ^ 32 := Nat.pow_dvd_pow 2 bits
      have small := Nat.mod_lt (lsn * 8) (Nat.two_pow_pos (log.fileDataBits + 3))
      rw [Nat.mod_mod_of_dvd _ divides,
        Nat.mod_eq_of_lt (small.trans_le (Nat.le_of_dvd (by decide) divides))]
    · have divides : 2 ^ 32 ∣ 2 ^ (log.fileDataBits + 3) := Nat.pow_dvd_pow 2 bits
      have small := Nat.mod_lt (lsn * 8) (Nat.two_pow_pos 32)
      rw [Nat.mod_mod_of_dvd _ divides,
        Nat.mod_eq_of_lt (small.trans_le (Nat.le_of_dvd (Nat.two_pow_pos _) divides))]
  have offset : lsn * 8 % 2 ^ 32 % log.pageSize = lfsLsnToVbo log lsn % log.pageSize := by
    have divides : log.pageSize ∣ 2 ^ (log.fileDataBits + 3) := by
      obtain ⟨k, -, -, power⟩ := shape.pageSize
      have whole := shape.offsets
      have pages := shape.pages
      rw [power] at pages ⊢
      refine Nat.pow_dvd_pow 2 ?_
      have below : 2 ^ k ≤ 2 ^ (log.fileDataBits + 3) := by omega
      exact (Nat.pow_le_pow_iff_right (by omega)).mp below
    rw [← base, Nat.mod_mod_of_dvd _ divides]
  -- the mask is of the bits of the offsets, or of some of them where they are 32 or more
  have masked : lsn * 8 % 2 ^ 32 % 2 ^ (log.fileDataBits % 32 + 3) ≤ lfsLsnToVbo log lsn := by
    obtain bits | bits := Nat.lt_or_ge log.fileDataBits 32
    · rw [Nat.mod_eq_of_lt bits]
      exact base.le
    · have wide : 2 ^ 32 ≤ 2 ^ (log.fileDataBits + 3) := Nat.pow_le_pow_right (by decide) (by omega)
      rw [Nat.mod_eq_of_lt ((Nat.mod_lt _ (by decide)).trans_le wide)] at base
      rw [← base]
      exact Nat.mod_le _ _
  rw [lfsFinalLogOff, offset]
  generalize lsn * 8 % 2 ^ 32 % 2 ^ (log.fileDataBits % 32 + 3) = first at masked ⊢
  obtain ⟨aligned, before, behind, room⟩ := shape.pageStart (masked.trans_lt inside)
  have within : lfsLsnToVbo log lsn % log.pageSize < log.pageSize := Nat.mod_lt _ positive
  dsimp only
  rw [Nat.mod_eq_of_lt (by omega : len + log.recordHeaderLen < 2 ^ 32)]
  split
  · rename_i long
    obtain ⟨final, whole, one, short⟩ := @LogShape.finalPage log shape (log.pageSize - log.dataOff)
      (len + log.recordHeaderLen - (log.pageSize - lfsLsnToVbo log lsn % log.pageSize))
      (log.pageStart first)
      (len + log.recordHeaderLen - (log.pageSize - lfsLsnToVbo log lsn % log.pageSize))
      (by omega) (by omega) le_rfl (by omega)
    generalize Logfile.finalPage log (log.pageSize - log.dataOff) _ _ _ = last at final whole one short
    obtain ⟨page, bytes⟩ := last
    dsimp only at final whole one short ⊢
    obtain ⟨-, -, -, pageRoom⟩ := shape.pageStart final
    have start : log.pageStart page = page := by
      rw [Handle.pageStart]
      exact Nat.div_mul_cancel (Nat.dvd_of_mod_eq_zero whole)
    rw [start] at pageRoom
    rw [Nat.mod_eq_of_lt (by omega)]
    omega
  · rename_i short
    rw [show log.pageStart first + (len + log.recordHeaderLen) +
        (lfsLsnToVbo log lsn % log.pageSize + 2 ^ 32 - 1) =
      (log.pageStart first + lfsLsnToVbo log lsn % log.pageSize + (len + log.recordHeaderLen) - 1) + 2 ^ 32 by
        omega, Nat.add_mod_right, Nat.mod_eq_of_lt (by omega)]
    omega

end Offsets

section Next

variable {log : Handle} {content : Mem} {lsn : Nat} {record : LfsRecord}

/-- How often the file is written round between a record that ends at an offset and the one
behind it, with the last page of the record. -/
def wrapsBehind (log : Handle) (lsn finish : Nat) (page : Mem) : Nat :=
  (if finish ≤ lfsLsnToVbo log lsn then 1 else 0) +
    if lsn = lfGet64 page pgLastLsn ∧
        lfsNextPageOff log (log.pageStart finish) = log.firstPage then 1 else 0

/-- What it takes for the number behind a record to be greater: the sequence number of the record
behind has room in its bits, and where the file is not written round in between, the offset in
the number is the one that the record was read at. -/
def NextLsnFits (log : Handle) (content : Mem) (record : LfsRecord) : Prop :=
  ∀ page, readWholePage log content
      (log.pageStart (lfsFinalLogOff log record.lsn record.dataLen)) = some page →
    lfsLsnSeq log record.lsn +
        wrapsBehind log record.lsn (lfsFinalLogOff log record.lsn record.dataLen) page <
          2 ^ log.seqNumBits ∧
      (wrapsBehind log record.lsn (lfsFinalLogOff log record.lsn record.dataLen) page = 0 →
        record.lsn % 2 ^ log.fileDataBits < 2 ^ 29)

theorem nextPlace_seq (log : Handle) (lsn finish : Nat) (page : Mem) :
    (nextPlace log lsn finish page).2 = lfsLsnSeq log lsn + wrapsBehind log lsn finish page := by
  by_cases last : lsn = lfGet64 page pgLastLsn
  · subst last
    by_cases wrapped : finish ≤ lfsLsnToVbo log (lfGet64 page pgLastLsn) <;>
      by_cases first : lfsNextPageOff log (log.pageStart finish) = log.firstPage <;>
      simp [nextPlace, wrapsBehind, wrapped, first]
  · by_cases wrapped : finish ≤ lfsLsnToVbo log lsn <;>
      simp [nextPlace, wrapsBehind, wrapped, last]

/-- The offset of the record behind one, which lies farther on where the file is not wrapped. -/
theorem LogShape.placeBehind (shape : LogShape log) {finish : Nat} {page : Mem}
    (ends : finish < log.lSize) (inside : lfsLsnToVbo log lsn < log.lSize) :
    (nextPlace log lsn finish page).1 ≤ log.lSize ∧
      (wrapsBehind log lsn finish page = 0 →
        lfsLsnToVbo log lsn / 8 < (nextPlace log lsn finish page).1 / 8) := by
  have size := shape.size
  have dataOff := shape.dataOff.2
  obtain ⟨-, before, behind, room⟩ := shape.pageStart ends
  obtain ⟨-, beforeStart, -, -⟩ := shape.pageStart inside
  obtain ⟨next, aligned, place⟩ := shape.nextPage (by omega : log.pageStart finish < log.lSize)
  have nextRoom : lfsNextPageOff log (log.pageStart finish) + log.dataOff < log.lSize := by
    obtain ⟨-, -, -, fits⟩ := shape.pageStart next
    have start : log.pageStart (lfsNextPageOff log (log.pageStart finish)) =
        lfsNextPageOff log (log.pageStart finish) := by
      rw [Handle.pageStart]
      exact Nat.div_mul_cancel (Nat.dvd_of_mod_eq_zero aligned)
    omega
  have startOfStart : log.pageStart (log.pageStart finish) = log.pageStart finish :=
    congrArg (· * log.pageSize) (Nat.mul_div_cancel _ shape.positive)
  rw [startOfStart] at place
  have pageEight : log.pageSize % 8 = 0 := by
    have sectors := shape.pageSize.bounds.2.2
    omega
  have startEight : log.pageStart finish % 8 = 0 :=
    Nat.mod_eq_zero_of_dvd ((Nat.dvd_of_mod_eq_zero pageEight).mul_left _)
  simp only [nextPlace, wrapsBehind]
  by_cases last : lsn = lfGet64 page pgLastLsn
  · simp only [if_pos last, Nat.mod_eq_of_lt (nextRoom.trans size)]
    refine ⟨nextRoom.le, fun none => ?_⟩
    · have notWrapped : ¬ finish ≤ lfsLsnToVbo log lsn := by
        intro wrapped
        simp [wrapped] at none
      have notFirst : ¬ lfsNextPageOff log (log.pageStart finish) = log.firstPage := by
        intro first
        simp [first, last] at none
      have follows := place.resolve_left notFirst
      omega
  · simp only [if_neg last]
    have up : lfAlign8 finish = (finish + 7) / 8 * 8 := by
      rw [lfAlign8, add32, Nat.mod_eq_of_lt (by omega)]
    have lSizeEight : log.lSize % 8 = 0 := by
      obtain ⟨n, pages⟩ := Nat.dvd_of_mod_eq_zero shape.whole
      rw [pages, Nat.mul_mod, pageEight, Nat.zero_mul, Nat.zero_mod]
    rw [up]
    refine ⟨by omega, fun none => ?_⟩
    · have notWrapped : ¬ finish ≤ lfsLsnToVbo log lsn := by
        intro wrapped
        simp [wrapped] at none
      omega

theorem lsn_parts (log : Handle) (lsn : Nat) :
    lfsLsnSeq log lsn * 2 ^ log.fileDataBits + lsn % 2 ^ log.fileDataBits = lsn := by
  rw [lfsLsnSeq, Nat.mul_comm]
  exact Nat.div_add_mod _ _

/-- A record that was read begins in the log, and its number has 64 bits. -/
theorem LogShape.record_inside (shape : LogShape log)
    (read : lfsReadRecord log content lsn = .ok record) :
    record.lsn = lsn ∧ lfsLsnToVbo log lsn < log.lSize ∧ lsn < 2 ^ 64 := by
  obtain ⟨same, -, -, -, page, whole, header⟩ := lfsReadRecord_ok read
  refine ⟨same, ?_, header ▸ getLE_lt page 8 _⟩
  rw [readWholePage] at whole
  split at whole
  · rename_i page torn
    rw [lfsReadPage] at torn
    dsimp only at torn
    split at torn
    · cases torn
    · rename_i bounds
      simp only [Bool.or_eq_true, decide_eq_true_eq, not_or, Nat.not_le] at bounds
      have below : lfsLsnToVbo log lsn / log.pageSize < log.lSize / log.pageSize := by
        refine Nat.lt_of_mul_lt_mul_right (a := log.pageSize) ?_
        rw [Nat.div_mul_cancel (Nat.dvd_of_mod_eq_zero shape.whole)]
        exact bounds.1
      exact Nat.lt_of_div_lt_div below
  · cases whole

/-- How the number of the record behind one is put together. -/
theorem LogShape.next_sum (shape : LogShape log) {next : Nat}
    (read : lfsReadRecord log content lsn = .ok record)
    (follows : lfsNextLsn log content record = some next) (nonzero : next ≠ 0) :
    ∃ page offset wraps, readWholePage log content
        (log.pageStart (lfsFinalLogOff log lsn record.dataLen)) = some page ∧
      wraps = wrapsBehind log lsn (lfsFinalLogOff log lsn record.dataLen) page ∧ wraps ≤ 2 ∧
      next = (offset + (lfsLsnSeq log lsn + wraps) * 2 ^ log.fileDataBits) % 2 ^ 64 ∧
      next ≤ log.lastLsn ∧ offset < 2 ^ log.fileDataBits ∧ offset < 2 ^ 29 ∧
      (wraps = 0 → lfsLsnToVbo log lsn / 8 < offset) := by
  obtain ⟨same, inside, -⟩ := shape.record_inside read
  obtain ⟨-, -, -, fits, -⟩ := lfsReadRecord_ok read
  have ends := shape.finalLogOff inside fits
  simp only [lfsNextLsn, same] at follows
  split at follows
  · cases follows
  rename_i page whole
  have place := nextPlace_seq log lsn (lfsFinalLogOff log lsn record.dataLen) page
  obtain ⟨upper, farther⟩ := @LogShape.placeBehind log lsn shape _ page ends inside
  have few : wrapsBehind log lsn (lfsFinalLogOff log lsn record.dataLen) page ≤ 2 := by
    simp only [wrapsBehind]
    split <;> split <;> omega
  refine ⟨page, (nextPlace log lsn (lfsFinalLogOff log lsn record.dataLen) page).1 / 8, _, whole, rfl,
    few, ?_⟩
  generalize wrapsBehind log lsn _ page = wraps at *
  generalize nextPlace log lsn _ page = behind at *
  obtain ⟨vbo, seq⟩ := behind
  dsimp only at place upper farther follows ⊢
  subst place
  cases follows
  have size := shape.size
  have offsets := shape.offsets
  rw [Nat.pow_add] at offsets
  split at nonzero
  · rename_i inFile
    rw [if_pos inFile]
    simp only [lfsLsnInFile, Bool.and_eq_true, decide_eq_true_eq] at inFile
    exact ⟨rfl, inFile.2, by omega, by omega, farther⟩
  · exact absurd rfl nonzero

/-- The number of the record behind one is greater exactly where the sequence number has room
in its bits, and the offset of the record in its own. -/
theorem LogShape.rises_iff (shape : LogShape log) {next : Nat}
    (read : lfsReadRecord log content lsn = .ok record)
    (follows : lfsNextLsn log content record = some next) (nonzero : next ≠ 0) :
    (lsn < next ∧ next ≤ log.lastLsn) ↔ NextLsnFits log content record := by
  obtain ⟨same, -, small⟩ := shape.record_inside read
  obtain ⟨page, offset, wraps, whole, counted, few, rfl, last, short, low, farther⟩ :=
    shape.next_sum read follows nonzero
  have fits : NextLsnFits log content record ↔ lfsLsnSeq log lsn + wraps < 2 ^ log.seqNumBits ∧
      (wraps = 0 → lsn % 2 ^ log.fileDataBits < 2 ^ 29) := by
    rw [NextLsnFits, same, counted]
    refine ⟨fun all => all page whole, fun both other again => ?_⟩
    obtain rfl : page = other := Option.some.inj (whole.symm.trans again)
    exact both
  rw [fits, and_iff_left last]
  have pow := shape.pow
  have eight := shape.le_seqNumBits
  have vbo := @LogShape.lsnToVbo log lsn shape
  have parts := lsn_parts log lsn
  have inOffset := Nat.mod_lt lsn (Nat.two_pow_pos log.fileDataBits)
  have seqBound : lfsLsnSeq log lsn < 2 ^ log.seqNumBits := by
    rw [lfsLsnSeq, Nat.div_lt_iff_lt_mul (Nat.two_pow_pos _), pow]
    exact small
  generalize lfsLsnSeq log lsn = seq at *
  generalize lsn % 2 ^ log.fileDataBits = part at *
  generalize 2 ^ log.fileDataBits = file at *
  generalize 2 ^ log.seqNumBits = seqs at *
  obtain room | full := Nat.lt_or_ge (seq + wraps) seqs
  · have upper : (seq + wraps + 1) * file ≤ seqs * file := Nat.mul_le_mul_right _ room
    rw [Nat.succ_mul] at upper
    rw [Nat.mod_eq_of_lt (by omega), and_iff_right room, Nat.add_mul]
    obtain rfl | positive := Nat.eq_zero_or_pos wraps
    · have later := farther rfl
      constructor
      · intro greater _
        omega
      · intro narrow
        have exactly := narrow rfl
        omega
    · have round : 1 * file ≤ wraps * file := Nat.mul_le_mul_right _ positive
      exact ⟨fun _ none => absurd none (by omega), fun _ => by omega⟩
  · -- The sequence number starts again from zero, and the number with it.
    have once : seq + wraps = seqs + (seq + wraps - seqs) := by omega
    have most : (seq + wraps - seqs) * file ≤ 1 * file := Nat.mul_le_mul_right _ (by omega)
    have lower : (seqs - 2) * file ≤ seq * file := Nat.mul_le_mul_right _ (by omega)
    have six : 6 * file ≤ (seqs - 2) * file := Nat.mul_le_mul_right _ (by omega)
    have turned : (offset + (seq + wraps) * file) % 2 ^ 64 = offset + (seq + wraps - seqs) * file := by
      have ring : 8 * file ≤ seqs * file := Nat.mul_le_mul_right _ eight
      rw [once, Nat.add_mul, pow, Nat.add_left_comm, Nat.add_mod_left, ← once]
      exact Nat.mod_eq_of_lt (by omega)
    rw [turned]
    exact ⟨fun greater => absurd greater (by omega), fun both => absurd both.1 (by omega)⟩

/-- The number of the record behind one is greater by a part of the ring of all numbers, where
offsets take few bits. -/
theorem LogShape.rises (shape : LogShape log) (bits : 35 ≤ log.seqNumBits) {next : Nat}
    (read : lfsReadRecord log content lsn = .ok record)
    (follows : lfsNextLsn log content record = some next) (nonzero : next ≠ 0) :
    ∃ d, 0 < d ∧ d ≤ 3 * 2 ^ log.fileDataBits ∧ next = (lsn + d) % 2 ^ 64 := by
  obtain ⟨page, offset, wraps, -, -, few, rfl, -, short, -, farther⟩ :=
    shape.next_sum read follows nonzero
  have parts := lsn_parts log lsn
  have inOffset := Nat.mod_lt lsn (Nat.two_pow_pos log.fileDataBits)
  have file := fileDataBits_le bits
  have vbo := @LogShape.lsnToVbo log lsn shape
  rw [Nat.mod_eq_of_lt (by omega)] at vbo
  have most : wraps * 2 ^ log.fileDataBits ≤ 2 * 2 ^ log.fileDataBits := Nat.mul_le_mul_right _ few
  have above : lsn % 2 ^ log.fileDataBits < offset + wraps * 2 ^ log.fileDataBits := by
    obtain rfl | positive := Nat.eq_zero_or_pos wraps
    · have later := farther rfl
      omega
    · have round := Nat.mul_le_mul_right (2 ^ log.fileDataBits) positive
      omega
  refine ⟨offset + wraps * 2 ^ log.fileDataBits - lsn % 2 ^ log.fileDataBits, by omega, by omega, ?_⟩
  rw [Nat.add_mul]
  congr 1
  omega

end Next

/-! ## Walks -/

/-- How a walk fails: at a record, at the last page of one, or in what is done with it. -/
inductive WalkError (ε : Type) where
  | record (e : RecordError)
  | page
  | visit (e : ε)

section Walk

variable {σ ε : Type} (log : Handle) (content : Mem)

/-- The loop that the passes over the log share: read a record, do something with it, go on with
the record behind it until there is none. A visit that answers `true` ends the walk; none is
a walk that has not ended within its rounds. -/
def forwardWalk (visit : LfsRecord → EStateM ε σ Bool) :
    Nat → Nat → σ → Option (EStateM.Result (WalkError ε) σ Unit)
  | 0, _, _ => none
  | rounds + 1, lsn, s =>
    if lsn = 0 then some (.ok () s)
    else
      match lfsReadRecord log content lsn with
      | .error e => some (.error (.record e) s)
      | .ok record =>
        match visit record s with
        | .error e s => some (.error (.visit e) s)
        | .ok true s => some (.ok () s)
        | .ok false s =>
          match lfsNextLsn log content record with
          | none => some (.error .page s)
          | some next => forwardWalk visit rounds next s

/-- The number that the walk goes on with, none where it ends before. -/
def walkNext (lsn : Nat) : Option Nat :=
  match lfsReadRecord log content lsn with
  | .error _ => none
  | .ok record => lfsNextLsn log content record

/-- The number that follows on a walk, zero where there is none. -/
def walkStep (lsn : Nat) : Nat := (walkNext log content lsn).getD 0

/-- The walk ends at a number without looking at what is done with records. -/
def WalkStops (lsn : Nat) : Prop := walkNext log content lsn = none

variable {log content} {visit : LfsRecord → EStateM ε σ Bool} {lsn : Nat}

theorem not_walkStops_iff : ¬ WalkStops log content lsn ↔ ∃ record next,
    lfsReadRecord log content lsn = .ok record ∧ lfsNextLsn log content record = some next ∧
      walkStep log content lsn = next := by
  rw [WalkStops, walkStep, walkNext]
  cases lfsReadRecord log content lsn with
  | error e => simp
  | ok record =>
    cases follows : lfsNextLsn log content record with
    | none => simp [follows]
    | some next => simp [follows]

theorem walkStops_zero : WalkStops log content 0 := by
  simp [WalkStops, walkNext, lfsReadRecord, lfsLsnInFile]

/-- A walk whose numbers come to an end returns, whatever is done with the records. -/
theorem forwardWalk_returns
    (ends : Ends (walkStep log content) (WalkStops log content) lsn) (s : σ) :
    ∃ rounds result, forwardWalk log content visit rounds lsn s = some result := by
  obtain ⟨k, stopped⟩ := ends
  induction k generalizing lsn s with
  | zero =>
    refine ⟨1, ?_⟩
    rw [forwardWalk]
    split
    · exact ⟨_, rfl⟩
    have none : walkNext log content lsn = none := stopped
    rw [walkNext] at none
    split
    · exact ⟨_, rfl⟩
    rename_i record read
    rw [read] at none
    dsimp only at none
    split
    · exact ⟨_, rfl⟩
    · exact ⟨_, rfl⟩
    · rw [none]
      exact ⟨_, rfl⟩
  | succ k ih =>
    have later (s : σ) := ih s stopped
    by_cases zero : lsn = 0
    · exact ⟨1, .ok () s, by rw [forwardWalk, if_pos zero]⟩
    cases read : lfsReadRecord log content lsn with
    | error e => exact ⟨1, .error (.record e) s, by rw [forwardWalk, if_neg zero, read]⟩
    | ok record =>
      match visited : visit record s with
      | .error e s' =>
        exact ⟨1, .error (.visit e) s', by rw [forwardWalk, if_neg zero, read]; simp only [visited]⟩
      | .ok true s' => exact ⟨1, .ok () s', by rw [forwardWalk, if_neg zero, read]; simp only [visited]⟩
      | .ok false s' =>
        cases follows : lfsNextLsn log content record with
        | none =>
          exact ⟨1, .error .page s', by
            rw [forwardWalk, if_neg zero, read]; simp only [visited, follows]⟩
        | some next =>
          obtain ⟨rounds, result, walked⟩ := later s'
          have same : walkStep log content lsn = next := by simp [walkStep, walkNext, read, follows]
          rw [same] at walked
          refine ⟨rounds + 1, result, ?_⟩
          rw [forwardWalk, if_neg zero, read]
          simp only [visited, follows, walked]

/-- The numbers of a walk come to an end where every record on it is followed by a greater
number. -/
theorem LogShape.walk_ends_of_fits (shape : LogShape log)
    (fits : ∀ k record, lfsReadRecord log content ((walkStep log content)^[k] lsn) = .ok record →
      NextLsnFits log content record) :
    Ends (walkStep log content) (WalkStops log content) lsn := by
  refine ends_of_measure (fun lsn => if lsn = 0 then 0 else log.lastLsn + 1 - lsn) fun k running => ?_
  obtain ⟨record, next, read, follows, same⟩ := not_walkStops_iff.mp running
  rw [Function.iterate_succ_apply', same]
  obtain ⟨-, inFile, -⟩ := lfsReadRecord_ok read
  simp only [lfsLsnInFile, Bool.and_eq_true, decide_eq_true_eq] at inFile
  rw [if_neg inFile.1.1]
  split
  · omega
  · rename_i nonzero
    obtain ⟨greater, last⟩ := (shape.rises_iff read follows nonzero).mpr (fits k record read)
    omega

/-- The numbers of every walk come to an end where offsets take few bits. -/
theorem LogShape.walk_ends (shape : LogShape log) (bits : 35 ≤ log.seqNumBits) (content : Mem)
    (lsn : Nat) : Ends (walkStep log content) (WalkStops log content) lsn := by
  refine @ends_of_ring (walkStep log content) (WalkStops log content) (2 ^ 64)
    (3 * 2 ^ log.fileDataBits) (2 ^ log.fileDataBits) (fun lsn => lsn % 2 ^ log.fileDataBits)
    (fun a _ => Nat.mod_lt _ (Nat.two_pow_pos _)) ?_ ?_ ?_ lsn
  · intro a b first second same
    obtain ⟨record, -, read, -⟩ := not_walkStops_iff.mp first
    obtain ⟨record', -, read', -⟩ := not_walkStops_iff.mp second
    refine lfsReadRecord_injective read read' ?_
    rw [shape.lsnToVbo, shape.lsnToVbo]
    exact congrArg (· * 8 % 2 ^ 32) same
  · intro a running further
    obtain ⟨record, next, read, follows, same⟩ := not_walkStops_iff.mp running
    rw [same] at further
    have nonzero : next ≠ 0 := by
      rintro rfl
      exact further walkStops_zero
    obtain ⟨d, positive, short, sum⟩ := shape.rises bits read follows nonzero
    exact ⟨d, positive, short, same.trans sum⟩
  · have small := fileDataBits_le bits
    calc 2 ^ log.fileDataBits * (3 * 2 ^ log.fileDataBits) ≤ 2 ^ 29 * (3 * 2 ^ 29) :=
          Nat.mul_le_mul small (Nat.mul_le_mul_left 3 small)
      _ < 2 ^ 64 := by decide

end Walk

end Ttntfs.Logfile
