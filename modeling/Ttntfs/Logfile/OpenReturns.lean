import Ttntfs.Library.SuccessorWalks
import Ttntfs.Logfile.RestartProbing

/-!
# When the open returns

The two loops of `ntfs_logfile_open` that the log itself steers: the search for the
restart pages and the walks along the list of clients in use. A search comes back to its
start in a log of more than 2 GiB, and the client list of a page that `chkdsk` wrote is
followed unchecked; with either out of the way the open returns.
-/

namespace Ttntfs.Logfile

open Library.ByteMemory Library.SuccessorWalks

/-- The first client in use. -/
def inUseHead (rp : Mem) : Nat := lfGet16 rp (raOf rp + raClientInUseList)

/-- The number of client records. -/
def clientCount (rp : Mem) : Nat := lfGet16 rp (raOf rp + raLogClients)

/-- The client that follows in its list. -/
def nextClient (rp : Mem) (idx : Nat) : Nat := lfGet16 rp (clientRecord rp idx + crNextClient)

/-- An index at which the walks along a client list stop. -/
def OffList (nr idx : Nat) : Prop := idx = lfsNoClient ∨ nr ≤ idx

/-- The list of clients in use leaves the client array. -/
def InUseListEnds (rp : Mem) : Prop := Ends (nextClient rp) (OffList (clientCount rp)) (inUseHead rp)

section Clients

variable {rp : Mem} {nr idx rounds lsn : Nat}

theorem offList_iff : (decide (idx = lfsNoClient) || decide (idx ≥ nr)) = true ↔ OffList nr idx := by
  simp [OffList]

theorem lt_of_not_offList (running : ¬ OffList nr idx) : idx < nr := by
  simp only [OffList, not_or, Nat.not_le] at running
  exact running.2

/-- The walk for the oldest number ends within its rounds exactly where the list does. -/
theorem oldestClientLsn_isSome_iff :
    (oldestClientLsn rp nr rounds idx lsn).isSome ↔
      ∃ k, k ≤ rounds ∧ OffList nr ((nextClient rp)^[k] idx) := by
  induction rounds generalizing idx lsn with
  | zero =>
    rw [oldestClientLsn]
    split
    · rename_i off
      simpa using offList_iff.mp off
    · rename_i running
      rw [offList_iff] at running
      simpa using running
  | succ rounds ih =>
    rw [oldestClientLsn]
    split
    · rename_i off
      exact ⟨fun _ => ⟨0, Nat.zero_le _, offList_iff.mp off⟩, fun _ => rfl⟩
    rename_i running
    rw [offList_iff] at running
    refine ih.trans ⟨?_, ?_⟩
    · rintro ⟨k, upper, off⟩
      exact ⟨k + 1, Nat.succ_le_succ upper, off⟩
    · rintro ⟨k, upper, off⟩
      cases k with
      | zero => exact absurd off running
      | succ k => exact ⟨k, Nat.le_of_succ_le_succ upper, off⟩

theorem findNtfsClient_isSome {k : Nat} (upper : k ≤ rounds)
    (off : OffList nr ((nextClient rp)^[k] idx)) : (findNtfsClient rp nr rounds idx).isSome := by
  induction rounds generalizing idx k with
  | zero =>
    obtain rfl := Nat.le_zero.mp upper
    rw [findNtfsClient]
    rw [if_pos (offList_iff.mpr (id off : OffList nr idx))]
    rfl
  | succ rounds ih =>
    rw [findNtfsClient]
    split
    · rfl
    split
    · rfl
    · rename_i running _
      cases k with
      | zero => exact absurd (offList_iff.mpr off) running
      | succ k => exact ih (Nat.le_of_succ_le_succ upper) off

theorem oldestClientLsn_isSome_iff_ends :
    (oldestClientLsn rp nr nr idx lsn).isSome ↔ Ends (nextClient rp) (OffList nr) idx := by
  rw [oldestClientLsn_isSome_iff]
  constructor
  · rintro ⟨k, -, off⟩
    exact ⟨k, off⟩
  · exact Ends.within fun _ => lt_of_not_offList

theorem ends_of_clientListOk {budget : Nat} {first : Bool}
    (ok : clientListOk rp nr budget first idx = true) : Ends (nextClient rp) (OffList nr) idx := by
  induction budget generalizing first idx with
  | zero =>
    rw [clientListOk] at ok
    split at ok
    · exact .here (.inl ‹_›)
    · cases ok
  | succ budget ih =>
    rw [clientListOk] at ok
    split at ok
    · exact .here (.inl ‹_›)
    split at ok
    · cases ok
    split at ok
    · cases ok
    · rename_i notNone below _
      have running : ¬ OffList nr idx := by
        rintro (none | outside)
        · exact notNone none
        · exact below outside
      exact (ends_next_iff running).mp (ih ok)

end Clients

section Setup

variable {stray : Stray} {content : Mem} {origSize : Nat} {log : Handle} {rp : Mem}

/-- The last steps of `setup_geometry` end where the list of clients in use does. -/
theorem finishGeometry_isSome_iff :
    (finishGeometry stray log rp).isSome ↔ InUseListEnds rp := by
  constructor
  · intro some
    obtain ⟨done, finished⟩ := Option.isSome_iff_exists.mp some
    simp only [finishGeometry, bind, Option.bind_eq_some_iff] at finished
    obtain ⟨-, -, oldest, walked, -⟩ := finished
    exact oldestClientLsn_isSome_iff_ends.mp (Option.isSome_iff_exists.mpr ⟨oldest, walked⟩)
  · intro ends
    obtain ⟨k, upper, off⟩ := Ends.within (fun _ => lt_of_not_offList) ends
    obtain ⟨client, found⟩ := Option.isSome_iff_exists.mp (findNtfsClient_isSome upper off)
    obtain ⟨oldest, walked⟩ := Option.isSome_iff_exists.mp
      ((@oldestClientLsn_isSome_iff_ends rp (clientCount rp) (inUseHead rp)
        (setRestartArea stray log rp).currentLsn).mpr ends)
    rw [inUseHead, clientCount] at found walked
    simp only [finishGeometry, found, walked]
    rfl

/-- The geometry that a page gives to a log of some size is accepted. -/
def PageAccepted (origSize : Nat) (rp : Mem) : Prop :=
  (pageGeometry ⟨fun _ => zeros, fun _ => zeros, zeros⟩ origSize rp).Accepted
    (lfGet32 rp rpSystemPageSize) (lfGet64 rp (raOf rp + raFileSize))

theorem pageAccepted_iff (stray : Stray) : PageAccepted origSize rp ↔
    (pageGeometry stray origSize rp).Accepted (lfGet32 rp rpSystemPageSize)
      (lfGet64 rp (raOf rp + raFileSize)) :=
  ⟨fun ⟨samePageSize, pageSize, fileSize, lSize, headerLen, dataOff⟩ =>
      ⟨samePageSize, pageSize, fileSize, lSize, headerLen, dataOff⟩,
    fun ⟨samePageSize, pageSize, fileSize, lSize, headerLen, dataOff⟩ =>
      ⟨samePageSize, pageSize, fileSize, lSize, headerLen, dataOff⟩⟩

theorem setupGeometry_isSome_iff :
    (setupGeometry stray log rp).isSome ↔ (PageAccepted log.origSize rp → InUseListEnds rp) := by
  rw [pageAccepted_iff stray]
  obtain ⟨accepted, finished⟩ | ⟨rejected, failed, error, ended⟩ := setupGeometry_cases stray log rp
  · rw [finished, Option.isSome_map, finishGeometry_isSome_iff]
    exact ⟨fun ends _ => ends, fun ends => ends accepted⟩
  · rw [ended]
    exact ⟨fun _ accepted => absurd accepted rejected, fun _ => rfl⟩

theorem headAt_magic (stray : Stray) (content : Mem) (pos : Nat) :
    lfGet32 (headAt stray content pos) rpMagic = lfGet32 content pos := by
  refine (getLE_congr fun i _ upper => ?_).trans (getLE_shifted content pos 4 0)
  exact if_pos (by simp only [rpMagic] at upper; simp only [lfsSectorSize]; omega)

theorem pageAt_eq_some {pos : Nat} {page : RestartPage}
    (found : pageAt stray content origSize pos = some page) :
    loadRestartPage stray content origSize pos = .ok page ∧ page.vbo = pos ∧
      (page.chkdsk = true ∨ lfGet32 content pos = lfsMagicRstr) := by
  rw [pageAt] at found
  split at found
  · rename_i restart
    cases loaded : loadRestartPage stray content origSize pos with
    | error error =>
      rw [loaded] at found
      cases found
    | ok other =>
      rw [loaded] at found
      obtain rfl : other = page := Option.some.inj found
      obtain ⟨-, -, -, raw, -, -, rfl⟩ := loadRestartPage_eq_ok_iff.mp loaded
      refine ⟨rfl, rfl, restart.symm.imp (fun chkdsk => ?_) id⟩
      simp [foundPage, headAt_magic, chkdsk]
  · cases found

theorem usedPage_mem {page : RestartPage} (used : page ∈ usedPage stray content origSize) :
    ∃ pos ∈ turnPositions, pageAt stray content origSize pos = some page := by
  rw [usedPage] at used
  cases pages : restartCandidates stray content origSize with
  | nil =>
    rw [pages] at used
    cases used
  | cons first others =>
    rw [pages] at used
    have member : page ∈ restartCandidates stray content origSize := by
      rw [pages, ← Option.some.inj used]
      exact chooseRestartPage_member first others
    obtain ⟨pos, place, found⟩ := List.mem_filterMap.mp member
    have inside := (List.dropWhile_sublist _).subset ((List.takeWhile_sublist _).subset place)
    exact ⟨pos, (List.takeWhile_sublist _).subset inside, found⟩

theorem inUseListEnds_of_rstr {page : RestartPage} (used : page ∈ usedPage stray content origSize)
    (plain : ¬ page.chkdsk = true) : InUseListEnds page.page := by
  obtain ⟨pos, -, found⟩ := usedPage_mem used
  obtain ⟨loaded, -, chkdsk | rstr⟩ := pageAt_eq_some found
  · exact absurd chkdsk plain
  obtain ⟨-, -, -, raw, -, clients, rfl⟩ := loadRestartPage_eq_ok_iff.mp loaded
  rw [headAt_magic, rstr] at clients
  simp only [clientsOk, Bool.or_eq_true, Bool.not_eq_true', Bool.and_eq_false_iff,
    decide_eq_false_iff_not] at clients
  obtain (notRstr | closed) | checked := clients
  · exact absurd trivial notRstr
  · exact .here (.inl (Decidable.not_not.mp closed))
  · simp only [checkClientArray, Bool.and_eq_true] at checked
    exact ends_of_clientListOk checked.2

end Setup

section Open

variable {stray : Stray} {content : Mem} {ioSize : Nat}

/-- The log gives the open no reason to go on for ever: its search ends, and the list of
clients in use leaves the client array where the page in use is one of `chkdsk`. -/
def OpenEnds (stray : Stray) (content : Mem) (ioSize : Nat) : Prop :=
  SearchEnds stray content (handleSize ioSize) ∧
    ∀ page ∈ usedPage stray content (handleSize ioSize), page.chkdsk = true →
      PageAccepted (handleSize ioSize) page.page → InUseListEnds page.page

theorem noPages_of_erased {origSize : Nat}
    (erased : ∀ pos ∈ headPositions origSize, erasedAt content pos) :
    usedPage stray content origSize = none := by
  rw [usedPage, restartCandidates, List.dropWhile_eq_nil_iff.mpr erased]
  rfl

theorem openWith_isSome_iff {log : Handle} {first : RestartPage} {second : Option RestartPage} :
    (openWith stray log first second).isSome ↔
      (PageAccepted log.origSize (chooseRestartPage first second).1.page →
        InUseListEnds (chooseRestartPage first second).1.page) := by
  simp only [openWith, Option.isSome_map]
  exact setupGeometry_isSome_iff

/-- An open returns exactly where the log gives it no reason to go on. -/
theorem open_isSome_iff (stray : Stray) (content : Mem) (ioSize : Nat) :
    (ntfsLogfileOpen stray content ioSize).isSome ↔ OpenEnds stray content ioSize := by
  constructor
  · intro returns
    obtain ⟨log, opened⟩ := Option.isSome_iff_exists.mp returns
    simp only [ntfsLogfileOpen, bind, Option.bind_eq_some_iff] at opened
    obtain ⟨probe, searched, opened⟩ := opened
    have ends := findRestartPages_isSome_iff.mp (Option.isSome_iff_exists.mpr ⟨probe, searched⟩)
    refine ⟨ends, fun page used _ accepted => ?_⟩
    obtain ⟨ended, again, empty, same⟩ := findRestartPages_ends ends
    obtain rfl : ended = probe := Option.some.inj (again.symm.trans searched)
    rw [← same] at used
    cases pages : ended.found with
    | nil =>
      rw [pages] at used
      cases used
    | cons first others =>
      rw [pages] at used opened
      obtain rfl : (chooseRestartPage first others.head?).1 = page := Option.some.inj used
      split at opened
      · rename_i unseen
        rw [noPages_of_erased (empty.mp unseen), pages] at same
        cases same
      · exact openWith_isSome_iff.mp (Option.isSome_iff_exists.mpr ⟨log, opened⟩) accepted
  · rintro ⟨ends, lists⟩
    obtain ⟨ended, searched, -, same⟩ := findRestartPages_ends ends
    simp only [ntfsLogfileOpen, searched, bind, Option.bind_some]
    split
    · rfl
    cases pages : ended.found with
    | nil => rfl
    | cons first others =>
      rw [pages] at same
      refine openWith_isSome_iff.mpr fun accepted => ?_
      have used : (chooseRestartPage first others.head?).1 ∈
          usedPage stray content (handleSize ioSize) := same ▸ rfl
      by_cases chkdsk : (chooseRestartPage first others.head?).1.chkdsk = true
      · exact lists _ used chkdsk accepted
      · exact inUseListEnds_of_rstr used chkdsk

theorem search_ends_iff {origSize : Nat} :
    (∃ rounds, (findRestartPages stray content origSize rounds 0 {}).isSome) ↔
      SearchEnds stray content origSize := by
  constructor
  · rintro ⟨rounds, ended⟩
    by_contra endless
    rw [findRestartPages_endless endless] at ended
    cases ended
  · intro ends
    exact ⟨_, findRestartPages_isSome_iff.mpr ends⟩

/-- The walk along the clients in use ends within some number of rounds exactly where the
list does. -/
theorem client_walk_ends_iff {rp : Mem} {lsn : Nat} :
    (∃ rounds, (oldestClientLsn rp (clientCount rp) rounds (inUseHead rp) lsn).isSome) ↔
      InUseListEnds rp := by
  constructor
  · rintro ⟨rounds, ended⟩
    obtain ⟨k, -, off⟩ := oldestClientLsn_isSome_iff.mp ended
    exact ⟨k, off⟩
  · intro ends
    exact ⟨_, oldestClientLsn_isSome_iff_ends.mpr ends⟩

/-- `ntfs_logfile_open` returns exactly where its search ends and no list of clients that it
walks is without end. The rounds that its loops are given lose nothing: a loop that does
not end within them never does. -/
theorem ntfsLogfileOpen_returns_iff (stray : Stray) (content : Mem) (ioSize : Nat) :
    ((ntfsLogfileOpen stray content ioSize).isSome ↔ OpenEnds stray content ioSize) ∧
      ((∃ rounds, (findRestartPages stray content (handleSize ioSize) rounds 0 {}).isSome) ↔
        SearchEnds stray content (handleSize ioSize)) ∧
      ∀ rp lsn, (∃ rounds, (oldestClientLsn rp (clientCount rp) rounds (inUseHead rp) lsn).isSome) ↔
        InUseListEnds rp :=
  ⟨open_isSome_iff stray content ioSize, search_ends_iff, fun _ _ => client_walk_ends_iff⟩

/-- In a log of 4 GiB less one byte that holds zeros the search finds no end, so that the
open does not return for every size and content. -/
theorem zero_log_search_endless :
    (∀ rounds, findRestartPages ⟨fun _ => zeros, fun _ => zeros, zeros⟩ zeros
        (handleSize (2 ^ 32 - 1)) rounds 0 {} = none) ∧
      ¬ ∀ stray content ioSize, (ntfsLogfileOpen stray content ioSize).isSome := by
  have marks (pos : Nat) : lfGet32 zeros pos = 0 := getLE_zeros 4 pos
  have endless : ¬ SearchEnds ⟨fun _ => zeros, fun _ => zeros, zeros⟩ zeros
      (handleSize (2 ^ 32 - 1)) := by
    rintro (small | ⟨pos, -, record⟩ | ⟨⟨pos, -, erased⟩, -⟩ | ⟨pos, -, page⟩)
    · exact absurd small (by decide)
    · rw [marks] at record
      cases record
    · rw [erasedAt, marks] at erased
      cases erased
    · rw [pageAt, marks, if_neg (by decide)] at page
      cases page
  have never := findRestartPages_endless endless
  refine ⟨never, fun returns => ?_⟩
  have some := returns ⟨fun _ => zeros, fun _ => zeros, zeros⟩ zeros (2 ^ 32 - 1)
  rw [ntfsLogfileOpen, never] at some
  cases some

end Open

end Ttntfs.Logfile
