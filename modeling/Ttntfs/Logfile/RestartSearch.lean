import Ttntfs.Library.StatefulSteps
import Ttntfs.Logfile.CleanPages

/-!
# The search for the restart pages

What the search of the open finds in a log: exactly, in a log that was marked clean, and
in any log that each page it found passed the checks at some position.
-/

namespace Ttntfs.Logfile

open Library.ByteMemory Library.StatefulSteps

variable {stray : Stray} {content : Mem} {origSize pos : Nat}

/-- A page is found where its head passes the checks, it lies in the log, and it can be
read and has its clients in order. -/
theorem loadRestartPage_eq_ok_iff {found : RestartPage} :
    loadRestartPage stray content origSize pos = .ok found ↔
      checkRpHeader (headAt stray content pos) pos = .ok () ∧
      checkRa (headAt stray content pos) = .ok () ∧
      pos + lfGet32 (headAt stray content pos) rpSystemPageSize ≤ origSize ∧
      ∃ page, readRestartPage stray content pos (headAt stray content pos) = .ok page ∧
        clientsOk (lfGet32 (headAt stray content pos) rpMagic) page = true ∧
        found = foundPage (lfGet32 (headAt stray content pos) rpMagic) pos page := by
  simp only [loadRestartPage, bind_eq_ok]
  constructor
  · rintro ⟨⟨⟩, header, ⟨⟩, area, ⟨⟩, inside, page, read, ⟨⟩, clients, same⟩
    rw [reject_eq_ok, decide_eq_false_iff_not, Nat.not_lt] at inside
    rw [reject_eq_ok, Bool.not_eq_false'] at clients
    exact ⟨header, area, inside, page, read, clients, (Except.ok.inj same).symm⟩
  · rintro ⟨header, area, inside, page, read, clients, rfl⟩
    refine ⟨(), header, (), area, (), ?_, page, read, (), ?_, rfl⟩
    · rw [reject_eq_ok, decide_eq_false_iff_not, Nat.not_lt]
      exact inside
    · rw [reject_eq_ok, clients]
      rfl

/-- A probe after a page at a position was found. -/
def Probe.add (probe : Probe) (page : RestartPage) : Probe :=
  { probe with found := probe.found ++ [page], empty := false }

/-- A probe after a page at a position was rejected. -/
def Probe.skip (probe : Probe) (unsupported : Bool) : Probe :=
  { probe with empty := false, unsupported := probe.unsupported || unsupported }

theorem Probe.skip_false {probe : Probe} (seen : probe.empty = false) :
    probe.skip false = probe := by
  cases probe
  simp_all [Probe.skip]

/-- What the search does at a position: the probe it goes on with, and whether it does. -/
def probeAt (stray : Stray) (content : Mem) (origSize pos : Nat) (probe : Probe) : Probe × Bool :=
  let magic := lfGet32 content pos
  if magic = lfsMagicEmpty then (probe, probe.empty)
  else
    let probe := { probe with empty := false }
    if magic = lfsMagicRcrd then (probe, false)
    else if magic ≠ lfsMagicRstr && magic ≠ lfsMagicChkd then (probe, true)
    else
      match loadRestartPage stray content origSize pos with
      | .ok page =>
        ({ probe with found := probe.found ++ [page] }, (probe.found ++ [page]).length ≠ 2)
      | .error .unsupported => ({ probe with unsupported := true }, true)
      | .error (.invalid _) => (probe, true)

/-- One round of the search. -/
theorem findRestartPages_succ {rounds : Nat} {probe : Probe} :
    findRestartPages stray content origSize (rounds + 1) pos probe =
      if pos + lfsSectorSize ≤ origSize then
        if (probeAt stray content origSize pos probe).2 then
          findRestartPages stray content origSize rounds (nextPosition pos)
            (probeAt stray content origSize pos probe).1
        else some (probeAt stray content origSize pos probe).1
      else some probe := by
  rw [findRestartPages]
  by_cases inside : pos + lfsSectorSize ≤ origSize
  · have below : (decide (pos ≥ origSize) || decide (pos + lfsSectorSize > origSize)) = false := by
      simp only [lfsSectorSize] at inside ⊢
      simp
      omega
    rw [below, if_pos inside]
    simp only [probeAt, Bool.false_eq_true, if_false]
    split
    · split <;> simp_all
    split
    · rfl
    split
    · rfl
    split <;> simp_all
  · rw [if_neg inside, if_pos]
    simp only [Bool.or_eq_true, decide_eq_true_eq]
    omega

theorem findRestartPages_found {rounds : Nat} {probe : Probe} {page : RestartPage}
    (whole : pos + lfsSectorSize ≤ origSize) (magic : lfGet32 content pos = lfsMagicRstr)
    (loaded : loadRestartPage stray content origSize pos = .ok page) :
    findRestartPages stray content origSize (rounds + 1) pos probe =
      if probe.found.length = 1 then some (probe.add page)
      else findRestartPages stray content origSize rounds (nextPosition pos) (probe.add page) := by
  rw [findRestartPages_succ, if_pos whole, probeAt, magic]
  simp [lfsMagicRstr, lfsMagicEmpty, lfsMagicRcrd, loaded, Probe.add]

theorem findRestartPages_rejected {rounds : Nat} {probe : Probe} {error : PageError}
    (whole : pos + lfsSectorSize ≤ origSize) (magic : lfGet32 content pos = lfsMagicRstr)
    (loaded : loadRestartPage stray content origSize pos = .error error) :
    findRestartPages stray content origSize (rounds + 1) pos probe =
      findRestartPages stray content origSize rounds (nextPosition pos)
        (probe.skip (error = .unsupported)) := by
  rw [findRestartPages_succ, if_pos whole, probeAt, magic]
  cases error <;> simp [lfsMagicRstr, lfsMagicEmpty, lfsMagicRcrd, loaded, Probe.skip]

theorem findRestartPages_blank {rounds : Nat} {probe : Probe}
    (whole : pos + lfsSectorSize ≤ origSize) (magic : lfGet32 content pos = 0) :
    findRestartPages stray content origSize (rounds + 1) pos probe =
      findRestartPages stray content origSize rounds (nextPosition pos) (probe.skip false) := by
  rw [findRestartPages_succ, if_pos whole, probeAt, magic]
  simp [lfsMagicRstr, lfsMagicEmpty, lfsMagicRcrd, lfsMagicChkd, Probe.skip]

/-- The search ends at the end of the file. -/
theorem findRestartPages_end {rounds : Nat} {probe : Probe}
    (outside : origSize < pos + lfsSectorSize) :
    findRestartPages stray content origSize (rounds + 1) pos probe = some probe := by
  rw [findRestartPages_succ, if_neg (Nat.not_le_of_lt outside)]

theorem probeAt_origin {probe : Probe} {page : RestartPage}
    (member : page ∈ (probeAt stray content origSize pos probe).1.found) :
    page ∈ probe.found ∨ loadRestartPage stray content origSize pos = .ok page := by
  simp only [probeAt] at member
  split at member
  · exact .inl member
  split at member
  · exact .inl member
  split at member
  · exact .inl member
  split at member
  · rename_i added loaded
    obtain earlier | last := List.mem_append.mp member
    · exact .inl earlier
    · exact .inr (List.mem_singleton.mp last ▸ loaded)
  · exact .inl member
  · exact .inl member

/-- Every page that the search found passed the checks at some position. -/
theorem findRestartPages_origin {rounds : Nat} {probe ended : Probe}
    (search : findRestartPages stray content origSize rounds pos probe = some ended)
    {page : RestartPage} (member : page ∈ ended.found) :
    page ∈ probe.found ∨ ∃ pos, loadRestartPage stray content origSize pos = .ok page := by
  induction rounds generalizing pos probe with
  | zero => cases search
  | succ rounds ih =>
    have here (added : page ∈ (probeAt stray content origSize pos probe).1.found) :
        page ∈ probe.found ∨ ∃ pos, loadRestartPage stray content origSize pos = .ok page :=
      (probeAt_origin added).imp_right fun loaded => ⟨pos, loaded⟩
    rw [findRestartPages_succ] at search
    split at search
    · split at search
      · exact (ih search).elim here .inr
      · exact here (Option.some.inj search ▸ member)
    · exact .inl (Option.some.inj search ▸ member)

section Clean

variable {log : Handle} {slot : Nat}

theorem HoldsClean.head_reads (fits : CleanFits log) (holds : HoldsClean log content)
    (below : slot < 2) : ReadsClean log (headAt stray content (slot * cleanPageSize log)) :=
  (holds.head_agrees fits below (stray.head (slot * cleanPageSize log))).reads fits

theorem HoldsClean.magic (fits : CleanFits log) (holds : HoldsClean log content)
    (below : slot < 2) : lfGet32 content (slot * cleanPageSize log) = lfsMagicRstr := by
  have agrees := holds.head_agrees fits below zeros
  rw [← (agrees.reads fits).magic]
  refine (getLE_shifted content (slot * cleanPageSize log) 4 0).symm.trans ?_
  refine getLE_congr fun i _ upper => (if_pos ?_).symm
  simp only [lfsSectorSize]
  omega

/-- A new page that lies in the log is found. -/
theorem HoldsClean.load_ok (fits : CleanFits log) (consistent : CleanConsistent log)
    (holds : HoldsClean log content) (below : slot < 2)
    (room : slot * cleanPageSize log + cleanPageSize log ≤ origSize) :
    ∃ page, AgreesClean log page ∧
      loadRestartPage stray content origSize (slot * cleanPageSize log) =
        .ok (foundPage lfsMagicRstr (slot * cleanPageSize log) page) := by
  have reads := @HoldsClean.head_reads stray content log slot fits holds below
  obtain ⟨page, read, agrees⟩ := holds.restores fits below
    (stray.page (slot * cleanPageSize log))
  have place : slot * cleanPageSize log = 0 ∨ slot * cleanPageSize log = cleanPageSize log := by
    obtain rfl | rfl : slot = 0 ∨ slot = 1 := by omega
    · exact .inl (Nat.zero_mul _)
    · exact .inr (Nat.one_mul _)
  refine ⟨page, agrees, loadRestartPage_eq_ok_iff.mpr ⟨reads.header_ok fits.pageSize place,
    (reads.area_ok_iff fits.pageSize).mpr consistent, ?_, page, ?_, ?_, ?_⟩⟩
  · rw [reads.sysPageSize]
    exact room
  · rw [readRestartPage, reads.usa, reads.sysPageSize, if_pos rfl]
    rw [restorePage, read]
    rfl
  · have inUse := (agrees.reads fits).inUseList
    rw [clientsOk, (agrees.reads fits).raOfs, inUse]
    simp
  · rw [reads.magic]

theorem HoldsClean.load_error (fits : CleanFits log) (holds : HoldsClean log content)
    (below : slot < 2)
    (bad : ¬ CleanConsistent log ∨ origSize < slot * cleanPageSize log + cleanPageSize log) :
    ∃ error, loadRestartPage stray content origSize (slot * cleanPageSize log) = .error error := by
  have reads := @HoldsClean.head_reads stray content log slot fits holds below
  cases loaded : loadRestartPage stray content origSize (slot * cleanPageSize log) with
  | error error => exact ⟨error, rfl⟩
  | ok found =>
    obtain ⟨-, area, inside, -⟩ := loadRestartPage_eq_ok_iff.mp loaded
    rw [reads.area_ok_iff fits.pageSize] at area
    rw [reads.sysPageSize] at inside
    obtain inconsistent | short := bad
    · exact absurd area inconsistent
    · omega

theorem HoldsClean.blank (fits : CleanFits log) (holds : HoldsClean log content)
    (lower : 512 ≤ pos) (upper : pos < cleanPageSize log) (aligned : pos % 512 = 0) :
    lfGet32 content pos = 0 := by
  obtain ⟨-, -, whole⟩ := fits.pageSize.bounds
  obtain ⟨-, ofs, entries⟩ := cleanCopy_usaOk fits 0
  have count := (cleanRaOfs_bounds fits.pageSize).2.2.2
  rw [← getLE_zeros 4 pos]
  refine getLE_congr fun i first last => ?_
  have stored := holds 0 (by omega) i (by omega)
  rw [Nat.zero_mul, Nat.zero_add] at stored
  rw [stored, (restartPageWrite_protects fits 0).kept i (by omega)
    (by simp only [ofs, entries, rpHeaderSize]; omega)]
  calc cleanCopy log 0 i = cleanPage log i := putLE_outside (by simp only [rpHeaderSize]; omega)
    _ = zeros i := cleanPage_zero fits.pageSize (by omega)

theorem position_facts {j : Nat} (lower : 9 ≤ j) (upper : j < 16) :
    512 ≤ 2 ^ j ∧ 2 ^ j % 512 = 0 ∧ 2 ^ j + 512 ≤ 2 ^ (j + 1) ∧
      nextPosition (2 ^ j) = 2 ^ (j + 1) := by
  interval_cases j <;> decide

/-- The search passes over the sectors of the first new page, up to the second page or
the end of the log. -/
theorem HoldsClean.search_blanks (fits : CleanFits log) (holds : HoldsClean log content)
    {k : Nat} (size : cleanPageSize log = 2 ^ k) (upper : k ≤ 16) {probe : Probe}
    (seen : probe.empty = false) (rest : Nat) {steps j : Nat} (lower : 9 ≤ j)
    (distance : j + steps = k) :
    findRestartPages stray content origSize (steps + rest + 1) (2 ^ j) probe =
      if origSize < 2 ^ k then some probe
      else findRestartPages stray content origSize (rest + 1) (2 ^ k) probe := by
  induction steps generalizing j with
  | zero =>
    obtain rfl : j = k := distance
    rw [Nat.zero_add]
    split
    · exact findRestartPages_end (by omega)
    · rfl
  | succ steps ih =>
    obtain ⟨least, aligned, doubled, next⟩ := position_facts lower (by omega : j < 16)
    have grows : 2 ^ (j + 1) ≤ 2 ^ k := Nat.pow_le_pow_right (by omega) (by omega)
    by_cases inside : 2 ^ j + lfsSectorSize ≤ origSize
    · rw [show steps + 1 + rest + 1 = steps + rest + 1 + 1 by omega,
        findRestartPages_blank inside (holds.blank fits least (by omega) aligned),
        Probe.skip_false seen, next]
      exact ih (by omega) (by omega)
    · simp only [lfsSectorSize] at inside
      rw [if_pos (by omega)]
      exact findRestartPages_end (by simp only [lfsSectorSize]; omega)

/-- From the second new page on, the search ends with this page or without it. -/
theorem HoldsClean.search_second (fits : CleanFits log) (consistent : CleanConsistent log)
    (holds : HoldsClean log content) (stray : Stray) (origSize rounds : Nat) (several : 1 ≤ rounds)
    (probe : Probe) (seen : probe.empty = false) (one : probe.found.length = 1) :
    ∃ ended, findRestartPages stray content origSize (rounds + 1) (cleanPageSize log) probe =
        some ended ∧ ended.empty = false ∧ ∃ second, ended.found = probe.found ++ second ∧
        ∀ found ∈ second, ∃ other, AgreesClean log other ∧
          found = foundPage lfsMagicRstr (cleanPageSize log) other := by
  obtain ⟨k, lower, upper, size⟩ := fits.pageSize
  have magic : lfGet32 content (cleanPageSize log) = lfsMagicRstr := by
    simpa using holds.magic fits (by omega : 1 < 2)
  by_cases outside : origSize < cleanPageSize log + lfsSectorSize
  · exact ⟨probe, findRestartPages_end outside, seen, [], by simp, by simp⟩
  have whole : cleanPageSize log + lfsSectorSize ≤ origSize := by omega
  by_cases room : cleanPageSize log + cleanPageSize log ≤ origSize
  · obtain ⟨page, agrees, loaded⟩ := @HoldsClean.load_ok stray content origSize log 1 fits
      consistent holds (by omega) (by omega)
    rw [Nat.one_mul] at loaded
    refine ⟨_, (findRestartPages_found whole magic loaded).trans (if_pos one), rfl, [_], rfl, ?_⟩
    simpa using ⟨page, agrees, rfl⟩
  · obtain ⟨error, rejected⟩ := @HoldsClean.load_error stray content origSize log 1 fits holds
      (by omega) (.inr (by omega))
    rw [Nat.one_mul] at rejected
    have next : nextPosition (cleanPageSize log) = 2 * cleanPageSize log := by
      rw [size]
      interval_cases k <;> rfl
    refine ⟨probe.skip (error = .unsupported),
      (findRestartPages_rejected whole magic rejected).trans ?_, rfl, [], by simp [Probe.skip],
      by simp⟩
    rw [next, ← Nat.sub_add_cancel several]
    exact findRestartPages_end (by omega)

/-- The pages that the search finds in a log that holds the new restart pages: none in a
log shorter than a page, else the first and perhaps the second. -/
theorem HoldsClean.search (fits : CleanFits log) (consistent : CleanConsistent log)
    (holds : HoldsClean log content) (stray : Stray) (origSize : Nat) :
    ∃ probe, findRestartPages stray content origSize searchRounds 0 {} = some probe ∧
      (origSize < cleanPageSize log ∧ probe.found = [] ∨
        cleanPageSize log ≤ origSize ∧ probe.empty = false ∧ ∃ page second,
          AgreesClean log page ∧ probe.found = foundPage lfsMagicRstr 0 page :: second ∧
          ∀ found ∈ second, ∃ other, AgreesClean log other ∧
            found = foundPage lfsMagicRstr (cleanPageSize log) other) := by
  obtain ⟨k, lower, upper, size⟩ := fits.pageSize
  have least := fits.pageSize.bounds.1
  have first : lfGet32 content 0 = lfsMagicRstr := by
    simpa using holds.magic fits (by omega : 0 < 2)
  have passes (probe : Probe) (seen : probe.empty = false) :=
    @HoldsClean.search_blanks stray content origSize log fits holds k size upper probe seen (71 - k)
      (k - 9) 9 (Nat.le_refl 9) (Nat.add_sub_cancel' lower)
  rw [show k - 9 + (71 - k) + 1 = 63 by omega, ← size] at passes
  by_cases sector : origSize < 512
  · exact ⟨{}, findRestartPages_end (by simp only [lfsSectorSize]; omega), .inl ⟨by omega, rfl⟩⟩
  have start : 0 + lfsSectorSize ≤ origSize := by
    simp only [lfsSectorSize]
    omega
  by_cases short : origSize < cleanPageSize log
  · obtain ⟨error, rejected⟩ := @HoldsClean.load_error stray content origSize log 0 fits holds
      (by omega) (.inr (by omega))
    rw [Nat.zero_mul] at rejected
    refine ⟨Probe.skip {} (error = .unsupported),
      (findRestartPages_rejected start first rejected).trans ?_, .inl ⟨short, rfl⟩⟩
    exact (passes _ rfl).trans (if_pos short)
  · obtain ⟨page, agrees, loaded⟩ := @HoldsClean.load_ok stray content origSize log 0 fits
      consistent holds (by omega) (by omega)
    rw [Nat.zero_mul] at loaded
    have found := @findRestartPages_found stray content origSize 0 63 {} _ start first loaded
    rw [if_neg (by decide)] at found
    obtain ⟨probe, ended, seen, second, pages, others⟩ := holds.search_second fits consistent stray
      origSize (71 - k) (by omega) (Probe.add {} (foundPage lfsMagicRstr 0 page)) rfl rfl
    refine ⟨probe, ?_, .inr ⟨by omega, seen, page, second, agrees, pages, others⟩⟩
    have skipped := (passes (Probe.add {} (foundPage lfsMagicRstr 0 page)) rfl).trans
      (if_neg short)
    exact (found.trans skipped).trans ended

end Clean

end Ttntfs.Logfile
