import Ttntfs.Ntfs.ClusterAlloc

/-!
# What a round of the cluster search keeps

In every round the bits of the volume are those it had at first and those of the clusters that
were taken since; each of these was clear, lies in the bitmap and is counted once. The runs
follow one another by their vcns. All else that a round changes is where the search goes on.
-/

namespace Ttntfs.Ntfs

open Ttntfs.Library.BitRuns

/-- The clusters of the runs of a search, the first run first. -/
def takenClusters (rl : List RunlistElement) : List Nat := rl.reverse.flatMap RunlistElement.clusters

/-- The runs of a search, the latest first, follow one another from one vcn up to another. -/
def RunsUpTo (start : Nat) : List RunlistElement → Nat → Prop
  | [], stop => stop = start
  | last :: runs, stop => last.vcn + last.length = stop ∧ 0 < last.length ∧ 0 ≤ last.lcn ∧ RunsUpTo start runs last.vcn

/-- The fields of a volume that only taking a cluster changes. -/
def LcnVolume.core (vol : LcnVolume) : (Nat → Bool) × (Nat → Int) × Int × Nat × Nat :=
  (vol.bits, vol.emptyBits, vol.freeClusters, vol.iSize, vol.nrClusters)

/-- The fields of a search that only taking a cluster changes. -/
def Search.core (s : Search) :
    ((Nat → Bool) × (Nat → Int) × Int × Nat × Nat) × Nat × List RunlistElement × Nat × Nat :=
  (s.vol.core, s.clusters, s.rl, s.prevLcn, s.prevRunLen)

/-- What a search that took some clusters has done to the volume it started from. -/
structure Searched (vol : LcnVolume) (req : AllocRequest) (s : Search) : Prop where
  bits : ∀ i, s.vol.bits i = (decide (i ∈ takenClusters s.rl) || vol.bits i)
  pages : ∀ page, s.vol.pageGap page = vol.pageGap page
  free : s.vol.freeGap = vol.freeGap
  iSize : s.vol.iSize = vol.iSize
  nrClusters : s.vol.nrClusters = vol.nrClusters
  clear : ∀ i ∈ takenClusters s.rl, vol.bits i = false
  inside : ∀ i ∈ takenClusters s.rl, i < 8 * vol.iSize
  distinct : (takenClusters s.rl).Nodup
  count : s.clusters + (takenClusters s.rl).length = req.count.toNat
  runs : ∃ stop, RunsUpTo req.startVcn.toNat s.rl stop
  last : match s.rl with
    | [] => s.prevRunLen = 0
    | last :: _ => s.prevRunLen = last.length ∧ (s.prevLcn : Int) = last.lcn

section Core

variable {vol : LcnVolume} {req : AllocRequest} {s s' : Search}

theorem updateZonePos_core (zone : SearchZone) (tc pos : Nat) : (vol.updateZonePos zone tc pos).core = vol.core := by
  cases zone <;> simp only [LcnVolume.updateZonePos] <;> split_ifs <;> rfl

theorem shrinkMftZone_core : vol.shrinkMftZone.core = vol.core := by
  simp only [LcnVolume.shrinkMftZone]
  split_ifs <;> rfl

theorem zonePassDone_core : s.zonePassDone.core = s.core := by
  rw [Search.zonePassDone]
  split <;> rfl

theorem afterPage_core : s.afterPage.core = s.core := by
  rw [Search.afterPage]
  split
  · rfl
  · exact zonePassDone_core

theorem switchToData1_core : s.switchToData1.core = s.core := by
  simp only [Search.switchToData1]
  split <;> rfl

theorem switchToData2_core : s.switchToData2.core = s.core := by
  simp only [Search.switchToData2]
  split <;> rfl

/-- A change of where the search goes on is none of what it has done. -/
theorem Searched.of_core (searched : Searched vol req s) (same : s'.core = s.core) : Searched vol req s' := by
  obtain ⟨bits, pages, free, iSize, nrClusters, clear, inside, distinct, count, runs, last⟩ := searched
  simp only [Search.core, LcnVolume.core, Prod.mk.injEq] at same
  obtain ⟨⟨bits', empty', free', iSize', nr'⟩, clusters', rl', lcn', len'⟩ := same
  constructor
  · rw [bits', rl']
    exact bits
  · intro page
    rw [LcnVolume.pageGap, bits', empty']
    exact pages page
  · rw [LcnVolume.freeGap, bits', free', iSize']
    exact free
  · rw [iSize']
    exact iSize
  · rw [nr']
    exact nrClusters
  · rw [rl']
    exact clear
  · rw [rl']
    exact inside
  · rw [rl']
    exact distinct
  · rw [clusters', rl']
    exact count
  · rw [rl']
    exact runs
  · rw [rl', lcn', len']
    exact last

end Core

section TakeBit

variable {vol : LcnVolume} {req : AllocRequest} {s : Search} {index pos n : Nat}

theorem takenClusters_cons (element : RunlistElement) (rl : List RunlistElement) :
    takenClusters (element :: rl) = takenClusters rl ++ element.clusters := by
  simp [takenClusters]

/-- One more cluster at the end of the taken ones. -/
theorem takeBit_taken (searched : Searched vol req s) :
    takenClusters (s.takeBit req index pos).rl = takenClusters s.rl ++ [pos] ∧
      (∃ stop, RunsUpTo req.startVcn.toNat (s.takeBit req index pos).rl stop) ∧
      (match (s.takeBit req index pos).rl with
        | [] => (s.takeBit req index pos).prevRunLen = 0
        | last :: _ => (s.takeBit req index pos).prevRunLen = last.length ∧
          ((s.takeBit req index pos).prevLcn : Int) = last.lcn) := by
  obtain ⟨stop, runs⟩ := searched.runs
  have last := searched.last
  rw [Search.takeBit]
  dsimp only
  cases list : s.rl with
  | nil =>
    dsimp only
    refine ⟨?_, ⟨req.startVcn.toNat + 1, rfl, Nat.one_pos, Int.natCast_nonneg pos, rfl⟩, rfl, rfl⟩
    simp [takenClusters, RunlistElement.clusters]
  | cons element rest =>
    rw [list] at runs last
    obtain ⟨ends, some_cluster, mapped, before⟩ := runs
    dsimp only at last ⊢
    have real : ¬ element.lcn < 0 := by omega
    by_cases adjacent : s.prevLcn + s.prevRunLen = pos
    · rw [if_pos adjacent]
      refine ⟨?_, ⟨element.vcn + (s.prevRunLen + 1), rfl, Nat.succ_pos _, mapped, before⟩, rfl, last.2⟩
      have start : element.lcn.toNat = s.prevLcn := by omega
      rw [takenClusters_cons, takenClusters_cons, List.append_assoc]
      congr 1
      simp only [RunlistElement.clusters, if_neg real, start, ← last.1]
      rw [List.range'_1_concat, adjacent]
    · rw [if_neg adjacent]
      refine ⟨?_, ⟨element.vcn + s.prevRunLen + 1, rfl, by simp, Int.natCast_nonneg pos, ?_⟩, rfl, rfl⟩
      · rw [takenClusters_cons]
        simp [RunlistElement.clusters]
      · exact ⟨by rw [last.1], some_cluster, mapped, before⟩

theorem takeBit_volume : (s.takeBit req index pos).vol = (s.vol.setPart index pos 1 true).decFreeClusters 1 ∧
    (s.takeBit req index pos).clusters = s.clusters - 1 := by
  rw [Search.takeBit]
  dsimp only
  split
  · exact ⟨rfl, rfl⟩
  · split <;> exact ⟨rfl, rfl⟩

/-- Taking a clear cluster of the page in hand. -/
theorem Searched.takeBit (searched : Searched vol req s) (clear : s.vol.bits pos = false)
    (lower : index * bitmapPageBits ≤ pos) (upper : pos < (index + 1) * bitmapPageBits)
    (inside : pos < 8 * s.vol.iSize) (some_left : 0 < s.clusters) : Searched vol req (s.takeBit req index pos) := by
  obtain ⟨taken, runs, last⟩ := @takeBit_taken vol req s index pos searched
  have volume := @takeBit_volume req s index pos
  have fresh : pos ∉ takenClusters s.rl ∧ vol.bits pos = false := by
    rw [searched.bits, Bool.or_eq_false_iff, decide_eq_false_iff_not] at clear
    exact clear
  have had : ∀ i, pos ≤ i → i < pos + 1 → s.vol.bits i = !true := by
    intro i least most
    rw [show i = pos by omega, clear]
    rfl
  have part : SetsRun s.vol (s.vol.setPart index pos 1 true) pos 1 true := setPart_setsRun lower upper
  have clusters := part.setsClusters inside had
  generalize s.takeBit req index pos = next at taken runs last volume
  have bits : next.vol.bits = (s.vol.setPart index pos 1 true).bits := by rw [volume.1]; rfl
  constructor
  · intro i
    rw [bits, clusters.bits, taken, searched.bits]
    by_cases here : i = pos
    · subst here
      simp
    · rw [if_neg (by rw [List.mem_range'_1]; omega)]
      simp [here]
  · intro page
    rw [volume.1]
    exact (clusters.pages page).trans (searched.pages page)
  · have free := clusters.free
    rw [List.length_range', clearGain, if_pos rfl] at free
    rw [← searched.free, volume.1]
    simp only [LcnVolume.freeGap, LcnVolume.decFreeClusters] at free ⊢
    omega
  · rw [volume.1, ← searched.iSize]
    rfl
  · rw [volume.1, ← searched.nrClusters]
    rfl
  · rw [taken]
    intro i here
    rcases List.mem_append.mp here with before | now
    · exact searched.clear i before
    · rw [List.mem_singleton.mp now]
      exact fresh.2
  · rw [taken]
    intro i here
    rcases List.mem_append.mp here with before | now
    · exact searched.inside i before
    · rw [List.mem_singleton.mp now, ← searched.iSize]
      exact inside
  · rw [taken]
    refine searched.distinct.append (List.nodup_singleton pos) ?_
    rw [List.disjoint_singleton]
    exact fresh.1
  · have count := searched.count
    rw [taken, volume.2, List.length_append, List.length_singleton]
    omega
  · exact runs
  · exact last

end TakeBit

/-- The size and the zones of a volume, which taking a cluster does not change. -/
def LcnVolume.zones (vol : LcnVolume) : Nat × Nat × Nat × Nat × Nat × Nat × Nat × Nat :=
  (vol.iSize, vol.nrClusters, vol.mftLcn, vol.mftZoneStart, vol.mftZoneEnd, vol.mftZonePos, vol.data1ZonePos,
    vol.data2ZonePos)

/-- Where a search is, which taking a cluster does not change. -/
def Search.path (s : Search) : (Nat × Nat × Nat × Nat × Nat × Nat × Nat × Nat) × SearchPlace × Nat × Nat × Nat ×
    Nat × Nat × DoneZones × SearchZone × Bool :=
  (s.vol.zones, s.place, s.zoneStart, s.zoneEnd, s.bmpPos, s.bmpInitialPos, s.pass, s.doneZones, s.searchZone,
    s.usedZonePos)

/-- The bits from `pos` on that the inner loop may come to lie in the page `index` of the bitmap. -/
def InPage (s : Search) (index pos n : Nat) : Prop :=
  ∀ i, pos ≤ i → i < pos + n → index * bitmapPageBits ≤ i ∧ i < (index + 1) * bitmapPageBits ∧ i < 8 * s.vol.iSize

/-- What holds where the inner loop ends. -/
def TakeOutcome (req : AllocRequest) (s : Search) : TakeEnd → Prop
  | .done _ => s.clusters = 0 ∨ (req.isContig ∧ 0 < s.prevRunLen)
  | _ => 0 < s.clusters

section Take

variable {vol : LcnVolume} {req : AllocRequest} {faults : AllocFaults} {s s' : Search} {index pos n bufSize lcn : Nat}

theorem takeBit_path : (s.takeBit req index pos).path = s.path := by
  rw [Search.takeBit]
  dsimp only
  split
  · rfl
  · split <;> rfl

theorem grow_core (grown : s.grow faults = some s') : s'.core = s.core ∧ s'.path = s.path := by
  rw [Search.grow] at grown
  split at grown
  · split at grown
    · exact absurd grown (by simp)
    · cases grown
      exact ⟨rfl, rfl⟩
  · cases grown
    exact ⟨rfl, rfl⟩

theorem core_vol (same : s'.core = s.core) : s'.vol.bits = s.vol.bits ∧ s'.vol.iSize = s.vol.iSize ∧
    s'.clusters = s.clusters ∧ s'.prevRunLen = s.prevRunLen := by
  simp only [Search.core, LcnVolume.core, Prod.mk.injEq] at same
  exact ⟨same.1.1, same.1.2.2.2.1, same.2.1, same.2.2.2.2⟩

theorem takeBits_path : (takeBits req faults index n pos s).1.path = s.path := by
  induction n generalizing pos s with
  | zero => rfl
  | succ n ih =>
    rw [takeBits]
    split
    · rfl
    split
    · split <;> rfl
    cases grown : s.grow faults with
    | none => rfl
    | some next =>
      dsimp only
      have path : (next.takeBit req index pos).path = s.path := takeBit_path.trans (grow_core grown).2
      split
      · exact path
      · exact ih.trans path

/-- The inner loop takes clear clusters one after the other. -/
theorem takeBits_searched (searched : Searched vol req s) (inPage : InPage s index pos n) (some_left : 0 < s.clusters) :
    Searched vol req (takeBits req faults index n pos s).1 ∧
      TakeOutcome req (takeBits req faults index n pos s).1 (takeBits req faults index n pos s).2 := by
  induction n generalizing pos s with
  | zero => exact ⟨searched, some_left⟩
  | succ n ih =>
    rw [takeBits]
    by_cases past : s.zoneEnd ≤ pos
    · rw [if_pos past]
      exact ⟨searched, some_left⟩
    rw [if_neg past]
    by_cases set : s.vol.bits pos
    · rw [if_pos set]
      by_cases whole : req.isContig ∧ 0 < s.prevRunLen
      · rw [if_pos whole]
        exact ⟨searched, Or.inr whole⟩
      · rw [if_neg whole]
        exact ⟨searched.of_core rfl, some_left⟩
    rw [if_neg set]
    cases grown : s.grow faults with
    | none => exact ⟨searched, some_left⟩
    | some next =>
      dsimp only
      have core := (grow_core grown).1
      obtain ⟨bits, iSize, clusters, _⟩ := core_vol core
      obtain ⟨lower, upper, inside⟩ := inPage pos le_rfl (by omega)
      have clear : next.vol.bits pos = false := by
        rw [bits]
        exact Bool.eq_false_iff.mpr set
      have taken := (searched.of_core core).takeBit clear lower upper (by rwa [iSize]) (by rwa [clusters])
      have volume := @takeBit_volume req next index pos
      by_cases enough : (next.takeBit req index pos).clusters = 0
      · rw [if_pos enough]
        exact ⟨taken, Or.inl enough⟩
      · rw [if_neg enough]
        apply ih taken _ (by omega)
        intro i least most
        have here := inPage i (by omega) (by omega)
        rwa [volume.1, show ((next.vol.setPart index pos 1 true).decFreeClusters 1).iSize = s.vol.iSize from iSize]

theorem takeFromPage_searched (searched : Searched vol req s) (inPage : InPage s index s.bmpPos bufSize)
    (some_left : 0 < s.clusters) :
    Searched vol req (s.takeFromPage req faults index bufSize lcn).1 ∧
      TakeOutcome req (s.takeFromPage req faults index bufSize lcn).1
        (s.takeFromPage req faults index bufSize lcn).2 := by
  have within : ∀ lcn, InPage s index (s.bmpPos + lcn) (bufSize - lcn) := by
    intro lcn i lower upper
    exact inPage i (by omega) (by omega)
  rw [Search.takeFromPage]
  split
  · split
    · exact takeBits_searched searched (within lcn) some_left
    · split
      · exact ⟨searched, some_left⟩
      · exact takeBits_searched (searched.of_core rfl) (within _) some_left
  · exact ⟨searched, some_left⟩

theorem takeFromPage_path : (s.takeFromPage req faults index bufSize lcn).1.path = s.path := by
  rw [Search.takeFromPage]
  split
  · split
    · exact takeBits_path
    · split
      · rfl
      · exact takeBits_path
  · rfl

end Take

/-- What holds behind a round of the search. -/
def RoundOutcome (vol : LcnVolume) (req : AllocRequest) : RoundEnd → Prop
  | .again s => Searched vol req s ∧ 0 < s.clusters
  | .out s err => Searched vol req s ∧ (err = none → s.clusters = 0 ∨ (req.isContig ∧ 0 < s.prevRunLen))

section Round

variable {vol : LcnVolume} {req : AllocRequest} {faults : AllocFaults} {s s' : Search}

theorem RoundOutcome.again_of_core (searched : Searched vol req s) (some_left : 0 < s.clusters)
    (same : s'.core = s.core) : RoundOutcome vol req (.again s') := by
  refine ⟨searched.of_core same, ?_⟩
  rw [(core_vol same).2.2.1]
  exact some_left

theorem atByte_inPage (inside : s.bmpPos / 8 < s.vol.iSize) :
    InPage s.atByte (s.bmpPos / 8 / bitmapPageSize) s.atByte.bmpPos s.bufSize := by
  intro i lower upper
  change s.bmpPos - s.bmpPos % 8 ≤ i at lower
  change i < s.bmpPos - s.bmpPos % 8 + s.bufSize at upper
  change _ ∧ _ ∧ i < 8 * s.vol.iSize
  simp only [Search.bufSize, bitmapPageSize, bitmapPageBits] at upper ⊢
  omega

theorem doneAt_core {pos : Nat} : (s.doneAt pos).core = s.core := by
  rw [Search.doneAt]
  split
  · rw [Search.core, updateZonePos_core]
    rfl
  · rfl

theorem leavePage_core {bufSize : Nat} : (s.leavePage bufSize).core = s.core := by
  rw [Search.leavePage]
  split <;> exact afterPage_core

/-- A round over a page keeps what the search has done. -/
theorem pageRound_searched (searched : Searched vol req s) (some_left : 0 < s.clusters) :
    RoundOutcome vol req (s.pageRound req faults) := by
  rw [Search.pageRound]
  dsimp only
  by_cases ended : s.vol.iSize ≤ s.bmpPos / 8
  · rw [if_pos ended]
    exact .again_of_core searched some_left zonePassDone_core
  rw [if_neg ended]
  split
  · exact .again_of_core searched some_left afterPage_core
  cases faults.readPage s.reads with
  | some err => exact ⟨searched, fun impossible => absurd impossible (by simp)⟩
  | none =>
    obtain ⟨kept, outcome⟩ := @takeFromPage_searched vol req faults s.atByte (s.bmpPos / 8 / bitmapPageSize)
      s.bufSize (s.bmpPos % 8) (searched.of_core rfl) (atByte_inPage (by omega)) some_left
    dsimp only
    generalize s.atByte.takeFromPage req faults (s.bmpPos / 8 / bitmapPageSize) s.bufSize (s.bmpPos % 8) = out
      at kept outcome
    obtain ⟨next, ends⟩ := out
    cases ends with
    | done pos =>
      refine ⟨kept.of_core doneAt_core, fun _ => ?_⟩
      rw [(core_vol doneAt_core).2.2.1, (core_vol doneAt_core).2.2.2]
      exact outcome
    | failed err => exact ⟨kept, fun impossible => absurd impossible (by simp)⟩
    | left => exact .again_of_core kept outcome leavePage_core

theorem leaveZone_core : s.leaveZone.core = s.vol.core := by
  rw [Search.leaveZone]
  split
  · split
    · exact updateZonePos_core ..
    · rfl
  · rfl

theorem switchZone_core : s.switchZone.core = s.core := by
  have left : Search.core { s with doneZones := s.doneZones.mark s.searchZone, pass := 1, vol := s.leaveZone } =
      s.core := by
    rw [Search.core, leaveZone_core]
    rfl
  simp only [Search.switchZone]
  split
  · exact switchToData2_core.trans left
  · exact switchToData1_core.trans left

theorem shrinkZone_core : s.shrinkZone.core = s.core := by
  rw [Search.shrinkZone, Search.core, shrinkMftZone_core]
  rfl

theorem zonesRound_searched (searched : Searched vol req s) (some_left : 0 < s.clusters) :
    RoundOutcome vol req (s.zonesRound req) := by
  rw [Search.zonesRound]
  split
  · exact .again_of_core searched some_left switchZone_core
  · split
    · exact ⟨searched, fun impossible => absurd impossible (by simp)⟩
    · exact .again_of_core searched some_left shrinkZone_core

theorem round_searched (searched : Searched vol req s) (some_left : 0 < s.clusters) :
    RoundOutcome vol req (s.round req faults) := by
  rw [Search.round]
  split
  · exact pageRound_searched searched some_left
  · exact zonesRound_searched searched some_left

theorem searchLoop_searched {fuel : Nat} {err : Option ErrorCode} (searched : Searched vol req s)
    (some_left : 0 < s.clusters) (ended : searchLoop req faults fuel s = some (s', err)) :
    RoundOutcome vol req (.out s' err) := by
  induction fuel generalizing s with
  | zero => exact absurd ended (by simp [searchLoop])
  | succ fuel ih =>
    rw [searchLoop] at ended
    have outcome := @round_searched vol req faults s searched some_left
    cases result : s.round req faults with
    | again next =>
      rw [result] at ended outcome
      exact ih outcome.1 outcome.2 ended
    | out last code =>
      rw [result] at ended outcome
      cases ended
      exact outcome

end Round

end Ttntfs.Ntfs
