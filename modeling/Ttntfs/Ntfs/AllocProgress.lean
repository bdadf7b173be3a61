import Ttntfs.Ntfs.AllocSteps

/-!
# The cluster search comes to an end

Each round lowers the rank of the search: it moves on within a pass, goes from the first pass to
the second, finishes a zone, or halves the mft zone. No zone is searched twice between two
halvings, since a search that leaves a zone goes to one that is not done.
-/

namespace Ttntfs.Ntfs

/-- The current zone of a search is not done, and the mft zone is once another one is searched. -/
def Search.ZonesOpen (s : Search) : Prop :=
  match s.searchZone with
  | .mft => s.doneZones = ⟨false, false, false⟩
  | .data1 => s.doneZones.mft = true ∧ s.doneZones.data1 = false
  | .data2 => s.doneZones.mft = true ∧ s.doneZones.data2 = false

/-- How far the search is above its end, by mft zone, zones and passes. -/
def Search.level (s : Search) : Nat :=
  (((s.vol.mftZoneEnd - s.vol.mftZoneStart) * 4 + s.doneZones.left) * 3 +
    match s.place with
    | .doneZonesCheck => 0
    | .outerLoop => if s.pass = 1 then 2 else 1) * 2 + (!s.usedZonePos).toNat

section Progress

variable {vol : LcnVolume} {req : AllocRequest} {faults : AllocFaults} {s s' t : Search}

theorem rank_eq : s.rank = s.level * (8 * s.vol.iSize + 1) + (8 * s.vol.iSize - s.bmpPos) := rfl

theorem rank_lt_of_level (size : s'.vol.iSize = s.vol.iSize) (lower : s'.level < s.level) : s'.rank < s.rank := by
  rw [rank_eq, rank_eq, size]
  have more : (s'.level + 1) * (8 * s.vol.iSize + 1) ≤ s.level * (8 * s.vol.iSize + 1) :=
    Nat.mul_le_mul_right _ lower
  rw [Nat.add_mul, Nat.one_mul] at more
  omega

theorem rank_lt_of_pos (size : s'.vol.iSize = s.vol.iSize) (same : s'.level = s.level)
    (inside : s.bmpPos < 8 * s.vol.iSize) (further : s.bmpPos < s'.bmpPos) : s'.rank < s.rank := by
  rw [rank_eq, rank_eq, size, same]
  omega

theorem level_of_path (same : s'.path = s.path) : s'.level = s.level ∧ s'.bmpPos = s.bmpPos ∧
    (s.ZonesOpen → s'.ZonesOpen) ∧ s'.place = s.place ∧ s'.vol.iSize = s.vol.iSize := by
  simp only [Search.path, LcnVolume.zones, Prod.mk.injEq] at same
  obtain ⟨⟨size, _, _, start, stop, _⟩, place, _, _, pos, _, pass, done, zone, used⟩ := same
  refine ⟨?_, pos, ?_, place, size⟩
  · rw [Search.level, Search.level, start, stop, place, pass, done, used]
  · rw [Search.ZonesOpen, Search.ZonesOpen, done, zone]
    exact id

theorem zonePassDone_level (place : s.place = .outerLoop) : s.zonePassDone.level < s.level := by
  rw [Search.zonePassDone]
  split
  · rename_i first
    simp [Search.level, place, first]
  · simp only [Search.level, place]
    split <;> omega

theorem zonePassDone_open (open_ : s.ZonesOpen) : s.zonePassDone.ZonesOpen := by
  rw [Search.zonePassDone]
  split <;> exact open_

theorem zonePassDone_iSize : s.zonePassDone.vol.iSize = s.vol.iSize := (core_vol zonePassDone_core).2.1

theorem afterPage_rank (place : s.place = .outerLoop) (lower : s.rank < t.rank) : s.afterPage.rank < t.rank := by
  rw [Search.afterPage]
  split
  · exact lower
  · exact (rank_lt_of_level zonePassDone_iSize (zonePassDone_level place)).trans lower

theorem afterPage_open (open_ : s.ZonesOpen) : s.afterPage.ZonesOpen := by
  rw [Search.afterPage]
  split
  · exact open_
  · exact zonePassDone_open open_

theorem bufSize_pos (inside : s.bmpPos / 8 < s.vol.iSize) : s.bmpPos < s.bmpPos - s.bmpPos % 8 + s.bufSize := by
  simp only [Search.bufSize, bitmapPageSize]
  omega

/-- What a round needs to leave for the search to come to an end. -/
def Progress (s : Search) : RoundEnd → Prop
  | .again s' => s'.rank < s.rank ∧ s'.ZonesOpen
  | .out _ _ => True

theorem leavePage_progress {bufSize : Nat} (size : s.vol.iSize = t.vol.iSize) (place : s.place = .outerLoop)
    (level : s.level = t.level) (open_ : s.ZonesOpen) (inside : t.bmpPos < 8 * t.vol.iSize)
    (further : t.bmpPos < s.bmpPos + bufSize) : Progress t (.again (s.leavePage bufSize)) := by
  rw [Search.leavePage]
  split
  · exact ⟨afterPage_rank place (rank_lt_of_pos size level inside further), afterPage_open open_⟩
  · rename_i fresh
    have unused : s.usedZonePos = false := Bool.eq_false_iff.mpr fresh
    refine ⟨afterPage_rank place (rank_lt_of_level size ?_), afterPage_open open_⟩
    rw [← level]
    simp only [Search.level, place, unused]
    split_ifs <;> simp
    omega

/-- A round over a page is progress. -/
theorem pageRound_progress (place : s.place = .outerLoop) (open_ : s.ZonesOpen) :
    Progress s (s.pageRound req faults) := by
  rw [Search.pageRound]
  dsimp only
  by_cases ended : s.vol.iSize ≤ s.bmpPos / 8
  · rw [if_pos ended]
    exact ⟨rank_lt_of_level zonePassDone_iSize (zonePassDone_level place), zonePassDone_open open_⟩
  rw [if_neg ended]
  have inside : s.bmpPos < 8 * s.vol.iSize := by omega
  have further := @bufSize_pos s (by omega)
  split
  · exact ⟨afterPage_rank place (rank_lt_of_pos rfl rfl inside further), afterPage_open open_⟩
  cases faults.readPage s.reads with
  | some err => trivial
  | none =>
    have path := @takeFromPage_path req faults s.atByte (s.bmpPos / 8 / bitmapPageSize) s.bufSize (s.bmpPos % 8)
    dsimp only
    generalize s.atByte.takeFromPage req faults (s.bmpPos / 8 / bitmapPageSize) s.bufSize (s.bmpPos % 8) = out at path
    obtain ⟨next, ends⟩ := out
    obtain ⟨level, pos, opened, placed, size⟩ := level_of_path path
    cases ends with
    | done pos => trivial
    | failed err => trivial
    | left =>
      have ahead : s.bmpPos < next.bmpPos + s.bufSize := pos ▸ further
      exact @leavePage_progress next s s.bufSize size (placed.trans place) level (opened open_) inside ahead

theorem mark_left (done : DoneZones) (zone : SearchZone)
    (open_ : match zone with
      | .mft => done.mft = false
      | .data1 => done.data1 = false
      | .data2 => done.data2 = false) : (done.mark zone).left + 1 = done.left := by
  obtain ⟨mft, data1, data2⟩ := done
  cases zone <;> simp_all [DoneZones.mark, DoneZones.left] <;> omega

theorem ZonesOpen.mark (open_ : s.ZonesOpen) : (s.doneZones.mark s.searchZone).left + 1 = s.doneZones.left := by
  apply mark_left
  rw [Search.ZonesOpen] at open_
  cases zone : s.searchZone <;> simp_all

theorem updateZonePos_mftZone (zone : SearchZone) (tc pos : Nat) :
    (vol.updateZonePos zone tc pos).mftZoneStart = vol.mftZoneStart ∧
      (vol.updateZonePos zone tc pos).mftZoneEnd = vol.mftZoneEnd := by
  cases zone <;> simp only [LcnVolume.updateZonePos] <;> split_ifs <;> exact ⟨rfl, rfl⟩

theorem leaveZone_mftZone : s.leaveZone.mftZoneStart = s.vol.mftZoneStart ∧
    s.leaveZone.mftZoneEnd = s.vol.mftZoneEnd := by
  rw [Search.leaveZone]
  split
  · split
    · exact updateZonePos_mftZone ..
    · exact ⟨rfl, rfl⟩
  · exact ⟨rfl, rfl⟩

theorem switchToData1_fields : s.switchToData1.vol.mftZoneStart = s.vol.mftZoneStart ∧
    s.switchToData1.vol.mftZoneEnd = s.vol.mftZoneEnd ∧ s.switchToData1.doneZones = s.doneZones ∧
    s.switchToData1.usedZonePos = s.usedZonePos ∧ s.switchToData1.searchZone = .data1 := by
  simp only [Search.switchToData1]
  split <;> exact ⟨rfl, rfl, rfl, rfl, rfl⟩

theorem switchToData2_fields : s.switchToData2.vol.mftZoneStart = s.vol.mftZoneStart ∧
    s.switchToData2.vol.mftZoneEnd = s.vol.mftZoneEnd ∧ s.switchToData2.doneZones = s.doneZones ∧
    s.switchToData2.usedZonePos = s.usedZonePos ∧ s.switchToData2.searchZone = .data2 := by
  simp only [Search.switchToData2]
  split <;> exact ⟨rfl, rfl, rfl, rfl, rfl⟩

theorem switchZone_fields : s.switchZone.vol.mftZoneStart = s.vol.mftZoneStart ∧
    s.switchZone.vol.mftZoneEnd = s.vol.mftZoneEnd ∧
    s.switchZone.doneZones = s.doneZones.mark s.searchZone ∧ s.switchZone.usedZonePos = s.usedZonePos ∧
    s.switchZone.searchZone = if s.searchZone = .data1 then .data2 else .data1 := by
  obtain ⟨start, stop⟩ := @leaveZone_mftZone s
  simp only [Search.switchZone]
  split
  · obtain ⟨start', stop', done, used, zone⟩ := @switchToData2_fields
      { s with doneZones := s.doneZones.mark s.searchZone, pass := 1, vol := s.leaveZone }
    exact ⟨start'.trans start, stop'.trans stop, done, used, zone⟩
  · obtain ⟨start', stop', done, used, zone⟩ := @switchToData1_fields
      { s with doneZones := s.doneZones.mark s.searchZone, pass := 1, vol := s.leaveZone }
    exact ⟨start'.trans start, stop'.trans stop, done, used, zone⟩

theorem level_bounds : (((s.vol.mftZoneEnd - s.vol.mftZoneStart) * 4 + s.doneZones.left) * 3) * 2 ≤ s.level ∧
    s.level < (((s.vol.mftZoneEnd - s.vol.mftZoneStart) * 4 + s.doneZones.left) * 3 + 3) * 2 := by
  have flag := Bool.toNat_le (!s.usedZonePos)
  rw [Search.level]
  constructor
  · omega
  · cases s.place with
    | doneZonesCheck => simp only; omega
    | outerLoop => simp only; split <;> omega

theorem switchZone_progress (open_ : s.ZonesOpen) (more : (s.doneZones.mark s.searchZone).all = false) :
    Progress s (.again s.switchZone) := by
  obtain ⟨start, stop, done, _, zone⟩ := @switchZone_fields s
  constructor
  · apply rank_lt_of_level (core_vol switchZone_core).2.1
    have now := (@level_bounds s).1
    have next := (@level_bounds s.switchZone).2
    have fewer := ZonesOpen.mark open_
    rw [start, stop, done] at next
    omega
  · rw [Search.ZonesOpen] at open_ ⊢
    rw [zone, done]
    generalize s.doneZones = zones at open_ more ⊢
    obtain ⟨mft, data1, data2⟩ := zones
    cases current : s.searchZone <;> simp_all [DoneZones.mark, DoneZones.all]

theorem shrinkMftZone_smaller (zone : vol.mftZoneStart < vol.mftZoneEnd) :
    vol.shrinkMftZone.mftZoneEnd - vol.shrinkMftZone.mftZoneStart < vol.mftZoneEnd - vol.mftZoneStart := by
  simp only [LcnVolume.shrinkMftZone]
  split_ifs <;> simp only <;> omega

/-- Halving the mft zone is progress. -/
theorem shrinkZone_progress (all : (s.doneZones.mark s.searchZone).all = true)
    (zone : s.vol.mftZoneStart < s.vol.mftZoneEnd) : Progress s (.again s.shrinkZone) := by
  have smaller := shrinkMftZone_smaller zone
  constructor
  · apply rank_lt_of_level (core_vol shrinkZone_core).2.1
    have now := (@level_bounds s).1
    have next := (@level_bounds s.shrinkZone).2
    have few : s.shrinkZone.doneZones.left ≤ 1 := by
      have both : (s.doneZones.mark s.searchZone).mft = true ∧ (s.doneZones.mark s.searchZone).data2 = true := by
        rw [DoneZones.all, Bool.and_eq_true, Bool.and_eq_true] at all
        exact ⟨all.1.1, all.2⟩
      simp [Search.shrinkZone, DoneZones.left, both.1, both.2]
    have size : s.shrinkZone.vol.mftZoneEnd - s.shrinkZone.vol.mftZoneStart <
      s.vol.mftZoneEnd - s.vol.mftZoneStart := smaller
    omega
  · rw [DoneZones.all, Bool.and_eq_true, Bool.and_eq_true] at all
    exact ⟨all.1.1, rfl⟩

theorem round_progress (open_ : s.ZonesOpen) : Progress s (s.round req faults) := by
  rw [Search.round]
  cases place : s.place with
  | outerLoop => exact pageRound_progress place open_
  | doneZonesCheck =>
    dsimp only
    rw [Search.zonesRound]
    cases all : (s.doneZones.mark s.searchZone).all with
    | false => exact switchZone_progress open_ all
    | true =>
      rw [Bool.not_true, if_neg (by decide)]
      split
      · trivial
      · exact shrinkZone_progress all (by omega)

theorem searchLoop_ends {fuel : Nat} (open_ : s.ZonesOpen) (enough : s.rank < fuel) :
    ∃ out, searchLoop req faults fuel s = some out := by
  induction fuel generalizing s with
  | zero => omega
  | succ fuel ih =>
    rw [searchLoop]
    have progress := @round_progress req faults s open_
    cases result : s.round req faults with
    | again next =>
      rw [result] at progress
      exact ih progress.2 (by have := progress.1; omega)
    | out last err => exact ⟨_, rfl⟩

theorem start_open : (Search.start vol req).ZonesOpen := by
  simp only [Search.start, Search.ZonesOpen]
  split_ifs <;> simp

/-- `ntfs_cluster_alloc` always comes to an end: it refuses the request at once, or its search ends. -/
theorem clusterAlloc_ends :
    (∃ err, vol.ntfsClusterAlloc req faults = some (vol, .error err)) ∨
      (0 < req.count ∧ req.count ≤ vol.availableClusters req.isDealloc ∧ ∃ fuel s err,
        searchLoop req faults fuel (Search.start vol req) = some (s, err) ∧
        vol.ntfsClusterAlloc req faults = some (s.finish req faults err)) := by
  rw [LcnVolume.ntfsClusterAlloc]
  by_cases invalid : req.invalid = true
  · rw [if_pos invalid]
    exact Or.inl ⟨_, rfl⟩
  rw [if_neg invalid]
  by_cases few : vol.availableClusters req.isDealloc < req.count
  · rw [if_pos few]
    exact Or.inl ⟨_, rfl⟩
  rw [if_neg few]
  right
  simp only [AllocRequest.invalid, decide_eq_true_eq, not_or] at invalid
  obtain ⟨⟨s, err⟩, ended⟩ := @searchLoop_ends req faults (Search.start vol req) _ start_open (Nat.lt_succ_self _)
  refine ⟨by omega, by omega, _, s, err, ended, ?_⟩
  dsimp only
  rw [ended]
  rfl

theorem start_searched (some_cluster : 0 < req.count) :
    Searched vol req (Search.start vol req) ∧ 0 < (Search.start vol req).clusters := by
  refine ⟨?_, by simp only [Search.start]; omega⟩
  constructor
  · exact fun i => by simp [Search.start, takenClusters]
  · exact fun page => rfl
  · rfl
  · rfl
  · rfl
  · simp [Search.start, takenClusters]
  · simp [Search.start, takenClusters]
  · exact List.nodup_nil
  · simp [Search.start, takenClusters]
  · exact ⟨_, rfl⟩
  · rfl

end Progress

section Runlist

variable {vol : LcnVolume} {req : AllocRequest} {s : Search} {start stop : Nat} {rl : List RunlistElement}
  {terminator : RunlistElement}

theorem runClusters_append (runs : RunsUpTo start rl stop) (ends : terminator.length = 0) :
    runClusters (terminator :: rl).reverse = takenClusters rl := by
  have some_clusters : ∀ element ∈ rl, element.length ≠ 0 := by
    induction rl generalizing stop with
    | nil => simp
    | cons last rest ih =>
      intro element member
      rcases List.mem_cons.mp member with rfl | member
      · exact Nat.pos_iff_ne_zero.mp runs.2.1
      · exact ih runs.2.2.2 element member
  have walk : ∀ front : List RunlistElement, (∀ element ∈ front, element.length ≠ 0) →
      runClusters (front ++ [terminator]) = front.flatMap RunlistElement.clusters := by
    intro front
    induction front with
    | nil => simp [runClusters, ends]
    | cons element rest ih =>
      intro nonempty
      rw [List.cons_append, runClusters, if_neg (nonempty element List.mem_cons_self), List.flatMap_cons,
        ih fun other member => nonempty other (List.mem_cons_of_mem _ member)]
  rw [List.reverse_cons]
  exact walk rl.reverse fun element member => some_clusters element (List.mem_reverse.mp member)

theorem runlist_clusters (searched : Searched vol req s) : runClusters (s.runlist req) = takenClusters s.rl := by
  obtain ⟨stop, runs⟩ := searched.runs
  rw [Search.runlist]
  split
  · rename_i none_
    rw [none_]
    rfl
  · rename_i last rest list
    rw [list] at runs ⊢
    exact runClusters_append runs rfl

theorem Searched.allocated (searched : Searched vol req s) : Allocated s.vol (runClusters (s.runlist req)) := by
  rw [runlist_clusters searched]
  constructor
  · exact searched.distinct
  · intro i taken
    rw [searched.bits, decide_eq_true taken, Bool.true_or]
  · rw [searched.iSize]
    exact searched.inside

end Runlist

end Ttntfs.Ntfs
