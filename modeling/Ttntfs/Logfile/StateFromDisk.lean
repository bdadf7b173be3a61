import Ttntfs.Logfile.OpenReturns

/-!
# The state of an open journal and the device

An open reports an empty or a clean journal so that it need not be replayed. Both are to
be what the device says: every sector that the search read was erased, or the restart
page in use is closed or carries the flag of a clean volume. A log whose size does not
fit into 32 bits is never read, and a restart area too short for its flags is judged by
what lies behind it.
-/

namespace Ttntfs.Logfile

open Library.ByteMemory Library.SuccessorWalks

/-- A restart page says that the volume is clean: no client is in use, or the flag is set. -/
def SaysClean (rp : Mem) : Prop :=
  inUseHead rp = lfsNoClient ∨ lfGet16 rp (raOf rp + raFlags) &&& restartVolumeIsClean ≠ 0

/-- The state of a handle is what the device says, as far as it keeps from a replay. -/
structure StateFromDisk (stray : Stray) (content : Mem) (ioSize : Nat) (log : Handle) : Prop where
  empty : log.state = .empty →
    0 ∈ probedPositions stray content (handleSize ioSize) searchRounds 0 {} ∧
      ∀ pos ∈ probedPositions stray content (handleSize ioSize) searchRounds 0 {},
        lfGet32 content pos = lfsMagicEmpty
  clean : log.state = .clean → ∃ slot used, log.curRst = some slot ∧ log.rst[slot]? = some used ∧
    loadRestartPage stray content (handleSize ioSize) used.vbo = .ok used ∧ SaysClean used.page

/-- The restart area reaches over the byte that holds the flag of a clean volume. -/
def AreaHoldsFlag (rp : Mem) : Prop := 15 ≤ lfGet16 rp (raOf rp + raRestartAreaLength)

/-- What the search of an open reads, and the restart area of the page in use where the
open gets to judge it, are enough to tell the state. -/
def StateTold (stray : Stray) (content : Mem) (ioSize : Nat) : Prop :=
  lfsSectorSize ≤ handleSize ioSize ∧
    ∀ page ∈ usedPage stray content (handleSize ioSize),
      PageAccepted (handleSize ioSize) page.page → InUseListEnds page.page →
        AreaHoldsFlag page.page ∨ SaysClean page.page

section Judged

variable {stray : Stray} {content : Mem} {ioSize : Nat} {log : Handle} {rp : Mem}

theorem restartAreaState_clean_iff {ra : Mem} {chkdsk : Bool} :
    restartAreaState ra chkdsk = .clean ↔ lfGet16 ra raClientInUseList = lfsNoClient ∨
      lfGet16 ra raFlags &&& restartVolumeIsClean ≠ 0 := by
  rw [restartAreaState]
  split
  · rename_i clean
    simpa using clean
  · rename_i open'
    have never : ¬ (lfGet16 ra raClientInUseList = lfsNoClient ∨
        lfGet16 ra raFlags &&& restartVolumeIsClean ≠ 0) := by
      simpa using open'
    refine iff_of_false ?_ never
    split <;> simp

theorem cleanBit_low {m m' : Mem} {off off' : Nat} (same : m off = m' off') :
    lfGet16 m off &&& restartVolumeIsClean = lfGet16 m' off' &&& restartVolumeIsClean := by
  change ((m off).toNat + 256 * getLE m 1 (off + 1)) &&& restartVolumeIsClean =
    ((m' off').toNat + 256 * getLE m' 1 (off' + 1)) &&& restartVolumeIsClean
  rw [same]
  refine Nat.eq_of_testBit_eq fun i => ?_
  rw [Nat.testBit_and, Nat.testBit_and, show restartVolumeIsClean = 2 ^ 1 from rfl,
    Nat.testBit_two_pow]
  by_cases bit : 1 = i
  · subst bit
    have halves (low high : Nat) : (low + 256 * high) / 2 % 2 = low / 2 % 2 := by omega
    simp [Nat.testBit_succ, halves]
  · simp [bit]

theorem setupGeometry_state {ready done : Handle} {chkdsk : Bool}
    (setup : setupGeometry stray ready rp = some (done, .ok ())) :
    stateAfterSetup done chkdsk (.ok ()) = restartAreaState
      (within (lfGet16 rp (raOf rp + raRestartAreaLength)) (bytesFrom rp (raOf rp)) stray.area)
      chkdsk := by
  have area : done.ra = _ := congrArg Geometry.ra (setupGeometry_ok setup).1
  rw [stateAfterSetup, area]
  rfl

/-- A restart area that reaches over its flag is judged as the page has it. -/
theorem areaHoldsFlag_judges (holds : AreaHoldsFlag rp) :
    (lfGet16 (within (lfGet16 rp (raOf rp + raRestartAreaLength)) (bytesFrom rp (raOf rp))
        stray.area) raClientInUseList = inUseHead rp) ∧
      lfGet16 (within (lfGet16 rp (raOf rp + raRestartAreaLength)) (bytesFrom rp (raOf rp))
          stray.area) raFlags &&& restartVolumeIsClean =
        lfGet16 rp (raOf rp + raFlags) &&& restartVolumeIsClean := by
  have inside {i : Nat} (below : i < 15) : within (lfGet16 rp (raOf rp + raRestartAreaLength))
      (bytesFrom rp (raOf rp)) stray.area i = rp (raOf rp + i) :=
    if_pos (Nat.lt_of_lt_of_le below holds)
  constructor
  · refine (getLE_congr fun i _ upper => ?_).trans (getLE_shifted rp (raOf rp) 2 raClientInUseList)
    exact inside (by simp only [raClientInUseList] at upper; omega)
  · exact cleanBit_low (inside (by decide))

theorem chooseRestartPage_slot (first : RestartPage) (second : Option RestartPage) :
    (first :: second.toList)[(chooseRestartPage first second).2]? =
      some (chooseRestartPage first second).1 := by
  cases second with
  | none => rfl
  | some second =>
    simp only [chooseRestartPage]
    split
    · rfl
    · split <;> rfl

/-- The last steps of `setup_geometry` keep the pages that were found and the first page. -/
theorem finishGeometry_keeps {ready done : Handle}
    (finished : finishGeometry stray ready rp = some done) :
    done.rst = ready.rst ∧ done.curRst = ready.curRst ∧ done.firstPage = ready.firstPage := by
  simp only [finishGeometry, bind, Option.bind_eq_some_iff] at finished
  obtain ⟨client, -, oldest, -, same⟩ := finished
  cases same
  have next (log : Handle) : (setNextPage log rp).rst = log.rst ∧
      (setNextPage log rp).curRst = log.curRst ∧
      (setNextPage log rp).firstPage = log.firstPage := by
    simp only [setNextPage]
    split
    · exact ⟨rfl, rfl, rfl⟩
    · split <;> split <;> exact ⟨rfl, rfl, rfl⟩
  obtain ⟨rst, curRst, first⟩ := next (setClients (setRestartArea stray ready rp) rp client oldest)
  rw [rst, curRst, first]
  cases client <;> exact ⟨rfl, rfl, rfl⟩

theorem setupGeometry_slots {ready done : Handle} {result : Except SetupError Unit}
    (setup : setupGeometry stray ready rp = some (done, result)) :
    done.rst = ready.rst ∧ done.curRst = ready.curRst := by
  simp only [setupGeometry] at setup
  split at setup
  · cases setup
    exact ⟨rfl, rfl⟩
  split at setup
  · cases setup
    exact ⟨rfl, rfl⟩
  split at setup
  · cases setup
    exact ⟨rfl, rfl⟩
  split at setup
  · cases setup
    exact ⟨rfl, rfl⟩
  · rw [Option.map_eq_some_iff] at setup
    obtain ⟨last, finished, same⟩ := setup
    obtain rfl : last = done := congrArg Prod.fst same
    obtain ⟨rst, curRst, -⟩ := finishGeometry_keeps finished
    exact ⟨rst, curRst⟩

/-- How an open ends: empty where only erased sectors were seen, unsupported or corrupt
where no page was found, else by `setup_geometry` on the page in use. -/
theorem ntfsLogfileOpen_course (opened : ntfsLogfileOpen stray content ioSize = some log) :
    ((∀ pos ∈ headPositions (handleSize ioSize), erasedAt content pos) ∧ log.state = .empty ∧
        log.ra = none) ∨
      (usedPage stray content (handleSize ioSize) = none ∧
        (log.state = .unsupported ∨ log.state = .corrupt) ∧ log.ra = none) ∨
      ∃ page slot ready done result, page ∈ usedPage stray content (handleSize ioSize) ∧
        (ready.origSize = handleSize ioSize ∧ ready.ra = none) ∧ log.curRst = some slot ∧
        log.rst[slot]? = some page ∧
        setupGeometry stray ready page.page = some (done, result) ∧
        log = { done with state := stateAfterSetup done page.chkdsk result } := by
  simp only [ntfsLogfileOpen, bind, Option.bind_eq_some_iff] at opened
  obtain ⟨probe, searched, opened⟩ := opened
  have ends := findRestartPages_isSome_iff.mp (Option.isSome_iff_exists.mpr ⟨probe, searched⟩)
  obtain ⟨ended, again, empty, same⟩ := findRestartPages_ends ends
  obtain rfl : ended = probe := Option.some.inj (again.symm.trans searched)
  split at opened
  · rename_i unseen
    cases opened
    exact .inl ⟨empty.mp unseen, rfl, rfl⟩
  cases pages : ended.found with
  | nil =>
    rw [pages] at opened same
    cases opened
    refine .inr (.inl ⟨same.symm, ?_, rfl⟩)
    dsimp only
    split
    · exact .inl rfl
    · exact .inr rfl
  | cons first others =>
    rw [pages] at opened same
    simp only [openWith, Option.map_eq_some_iff] at opened
    obtain ⟨⟨done, result⟩, setup, rfl⟩ := opened
    obtain ⟨rst, curRst⟩ := setupGeometry_slots setup
    refine .inr (.inr ⟨(chooseRestartPage first others.head?).1,
      (chooseRestartPage first others.head?).2, _, done, result, same ▸ rfl, ⟨rfl, rfl⟩, curRst, ?_,
      setup, rfl⟩)
    exact (congrArg (·[(chooseRestartPage first others.head?).2]?) rst).trans
      (chooseRestartPage_slot first others.head?)

theorem stateAfterSetup_ne_empty {done : Handle} {chkdsk : Bool} {result : Except SetupError Unit} :
    stateAfterSetup done chkdsk result ≠ .empty := by
  match result with
  | .error .unsupported => exact nofun
  | .error .invalid => exact nofun
  | .ok () =>
    simp only [stateAfterSetup, restartAreaState]
    split
    · exact nofun
    · split <;> exact nofun

theorem stateAfterSetup_clean {done : Handle} {chkdsk : Bool} {result : Except SetupError Unit}
    (clean : stateAfterSetup done chkdsk result = .clean) : result = .ok () := by
  match result with
  | .error .unsupported => cases clean
  | .error .invalid => cases clean
  | .ok () => rfl

end Judged

section Told

variable {stray : Stray} {content : Mem} {ioSize : Nat}

theorem open_short (short : handleSize ioSize < lfsSectorSize) :
    ∃ log, ntfsLogfileOpen stray content ioSize = some log ∧ log.state = .empty := by
  have ended := @findRestartPages_end stray content (handleSize ioSize) 0 63 {} (by omega)
  refine ⟨{ origSize := handleSize ioSize, state := .empty }, ?_, rfl⟩
  rw [ntfsLogfileOpen, show searchRounds = 63 + 1 from rfl, ended]
  rfl

theorem probedPositions_short (short : handleSize ioSize < lfsSectorSize) :
    probedPositions stray content (handleSize ioSize) searchRounds 0 {} = [] := by
  rw [show searchRounds = 63 + 1 from rfl, probedPositions_succ, if_neg (by omega)]

theorem pageAt_area (area : Mem) (origSize : Nat) :
    pageAt { stray with area } content origSize = pageAt stray content origSize := rfl

theorem usedPage_area (area : Mem) (origSize : Nat) :
    usedPage { stray with area } content origSize = usedPage stray content origSize := by
  rw [usedPage, usedPage, restartCandidates, restartCandidates, collectedPages, collectedPages,
    pageAt_area]

/-- A page in use whose geometry is accepted and whose list of clients ends is judged. -/
theorem open_judges {page : RestartPage} (used : page ∈ usedPage stray content (handleSize ioSize))
    (accepted : PageAccepted (handleSize ioSize) page.page) (ends : InUseListEnds page.page) :
    ∃ log slot, ntfsLogfileOpen stray content ioSize = some log ∧ log.curRst = some slot ∧
      log.rst[slot]? = some page ∧ log.state = restartAreaState
        (within (lfGet16 page.page (raOf page.page + raRestartAreaLength))
          (bytesFrom page.page (raOf page.page)) stray.area) page.chkdsk := by
  obtain ⟨pos, place, found⟩ := usedPage_mem used
  have searchEnds : SearchEnds stray content (handleSize ioSize) :=
    .inr (.inr (.inr ⟨pos, place, by rw [found]; rfl⟩))
  have returns : (ntfsLogfileOpen stray content ioSize).isSome := by
    refine (open_isSome_iff stray content ioSize).mpr ⟨searchEnds, fun other member _ _ => ?_⟩
    obtain rfl : other = page := Option.some.inj (member.symm.trans used)
    exact ends
  obtain ⟨log, opened⟩ := Option.isSome_iff_exists.mp returns
  obtain ⟨erased, -⟩ | ⟨none, -⟩ | ⟨other, slot, ready, done, result, member, ⟨size, -⟩, curRst,
    rst, setup, same⟩ := ntfsLogfileOpen_course opened
  · rw [noPages_of_erased erased] at used
    cases used
  · rw [none] at used
    cases used
  obtain rfl : other = page := Option.some.inj (member.symm.trans used)
  obtain ⟨-, finished⟩ | ⟨rejected, -⟩ := setupGeometry_cases stray ready other.page
  · rw [finished, Option.map_eq_some_iff] at setup
    obtain ⟨last, ended, pair⟩ := setup
    obtain ⟨rfl, rfl⟩ := Prod.mk.inj pair
    have state := congrArg Handle.state same
    have again : setupGeometry stray ready other.page = some (last, .ok ()) := by
      rw [finished, ended]
      rfl
    exact ⟨log, slot, opened, curRst, rst, state.trans (setupGeometry_state again)⟩
  · rw [size] at rejected
    exact absurd ((pageAccepted_iff stray).mp accepted) rejected

/-- The state of a handle is what the device says where the page in use holds the flag it
is judged by, or says clean anyway. -/
theorem stateFromDisk_of_told {log : Handle} (told : StateTold stray content ioSize)
    (opened : ntfsLogfileOpen stray content ioSize = some log) :
    StateFromDisk stray content ioSize log := by
  obtain ⟨room, judged⟩ := told
  obtain ⟨erased, empty, -⟩ | ⟨-, neither, -⟩ | ⟨page, slot, ready, done, result, used, ⟨size, -⟩,
    curRst, rst, setup, same⟩ := ntfsLogfileOpen_course opened
  · refine ⟨fun _ => ?_, fun clean => by rw [empty] at clean; cases clean⟩
    simp only [ntfsLogfileOpen, bind, Option.bind_eq_some_iff] at opened
    obtain ⟨probe, searched, -⟩ := opened
    have ends := findRestartPages_isSome_iff.mp (Option.isSome_iff_exists.mpr ⟨probe, searched⟩)
    obtain ⟨ended, again, unseen, -⟩ := findRestartPages_ends ends
    refine ⟨?_, fun pos member => ?_⟩
    · rw [show searchRounds = 63 + 1 from rfl, probedPositions_succ, if_pos (by omega)]
      exact List.mem_cons_self
    · exact of_decide_eq_true (probedPositions_erased again (unseen.mpr erased) pos member)
  · refine ⟨fun empty => ?_, fun clean => ?_⟩
    · rw [empty] at neither
      simp at neither
    · rw [clean] at neither
      simp at neither
  · have state : log.state = stateAfterSetup done page.chkdsk result := congrArg Handle.state same
    refine ⟨fun empty => absurd (state.symm.trans empty) stateAfterSetup_ne_empty,
      fun clean => ⟨slot, page, curRst, rst, ?_, ?_⟩⟩
    · obtain ⟨pos, -, found⟩ := usedPage_mem used
      obtain ⟨loaded, vbo, -⟩ := pageAt_eq_some found
      rw [vbo]
      exact loaded
    · obtain rfl := stateAfterSetup_clean (state.symm.trans clean)
      have tells := @setupGeometry_state stray page.page ready done page.chkdsk setup
      rw [← state, clean] at tells
      have accepted := (pageAccepted_iff stray).mpr
        ((setupGeometry_ok setup).1 ▸ (setupGeometry_ok setup).2)
      have ends := setupGeometry_isSome_iff.mp (Option.isSome_iff_exists.mpr ⟨_, setup⟩)
      rw [size] at accepted ends
      obtain holds | isClean := judged page used accepted (ends accepted)
      · obtain ⟨list, flag⟩ := @areaHoldsFlag_judges stray page.page holds
        have isClean := restartAreaState_clean_iff.mp tells.symm
        rwa [list, flag] at isClean
      · exact isClean

/-- The state of every handle that an open gives is what the device says, whatever lies
behind the copy of the restart area, exactly where the log has a sector to read and the
restart area of the page in use holds the flag it is judged by, or says clean anyway. -/
theorem state_from_disk_iff (stray : Stray) (content : Mem) (ioSize : Nat) :
    (∀ area log, ntfsLogfileOpen { stray with area } content ioSize = some log →
        StateFromDisk { stray with area } content ioSize log) ↔ StateTold stray content ioSize := by
  constructor
  · intro holds
    refine ⟨?_, fun page used accepted ends => ?_⟩
    · by_contra short
      have below := Nat.lt_of_not_le short
      obtain ⟨log, opened, empty⟩ := @open_short { stray with area := zeros } content ioSize below
      have read := ((holds zeros log opened).empty empty).1
      rw [probedPositions_short below] at read
      cases read
    · -- Behind an area without its flag lies one that says clean.
      by_contra! neither
      obtain ⟨noFlag, notClean⟩ := neither
      obtain ⟨log, slot, opened, curRst, rst, state⟩ :=
        @open_judges { stray with area := fun _ => 2 } content ioSize page
          ((usedPage_area _ _).symm ▸ used) accepted ends
      have behind : within (lfGet16 page.page (raOf page.page + raRestartAreaLength))
          (bytesFrom page.page (raOf page.page)) (fun _ => 2) raFlags = 2 :=
        if_neg (by simp only [AreaHoldsFlag] at noFlag; simp only [raFlags]; omega)
      have clean : log.state = .clean := by
        rw [state, restartAreaState_clean_iff]
        right
        rw [@cleanBit_low _ (fun _ => 2) _ 0 behind]
        decide
      obtain ⟨slot', used', curRst', rst', -, isClean⟩ := (holds _ log opened).clean clean
      obtain rfl : slot = slot' := Option.some.inj (curRst.symm.trans curRst')
      obtain rfl : page = used' := Option.some.inj (rst.symm.trans rst')
      exact notClean isClean
  · rintro ⟨room, judged⟩ area log opened
    refine stateFromDisk_of_told ⟨room, fun page used accepted ends => ?_⟩ opened
    rw [usedPage_area] at used
    exact judged page used accepted ends

/-- A log of 4 GiB has size zero in its handle: it is reported empty, whatever it holds, and
no sector of it was read. -/
theorem full_size_log_unread : handleSize (2 ^ 32) = 0 ∧
    ¬ ∀ stray content ioSize log, ntfsLogfileOpen stray content ioSize = some log →
      StateFromDisk stray content ioSize log := by
  have none : handleSize (2 ^ 32) = 0 := by decide
  refine ⟨none, fun holds => ?_⟩
  have short : handleSize (2 ^ 32) < lfsSectorSize := by decide
  obtain ⟨log, opened, empty⟩ :=
    @open_short ⟨fun _ => zeros, fun _ => zeros, zeros⟩ zeros (2 ^ 32) short
  have read := ((holds _ _ _ log opened).empty empty).1
  rw [probedPositions_short short] at read
  cases read

end Told

end Ttntfs.Logfile
