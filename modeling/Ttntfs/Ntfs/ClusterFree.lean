import Ttntfs.Ntfs.LcnBitmap

/-!
# Freeing clusters

Two functions give clusters back. One clears the runs of a run list in hand and goes on where
a run fails; the other walks the run list of an inode from a vcn on, stops where a run or a
fragment of the run list fails, and sets the bits again that it had cleared. Each adds what it
freed to the counter of the free clusters once, at its end.
-/

namespace Ttntfs.Ntfs

open Ttntfs.Library.BitRuns

/-- `-ENOENT` -/
def codeNoent : ErrorCode := ⟨-2, by decide⟩

/-- The state of `ntfs_cluster_free_from_rl_nolock`. -/
structure Freeing where
  vol : LcnVolume
  ret : Option ErrorCode
  nrFreed : Nat

/-- The body of the loop in `ntfs_cluster_free_from_rl_nolock`. -/
def Freeing.freeRun (s : Freeing) (element : RunlistElement) (faults : RunFaults) : Freeing :=
  if element.lcn < 0 then s
  else
    let out := s.vol.clearRun element.lcn.toNat element.length faults
    if out.2 ≠ none ∧ (s.ret = none ∨ s.ret = some codeNomem) ∧ s.ret ≠ out.2 then
      { s with vol := out.1, ret := out.2 }
    else { s with vol := out.1, nrFreed := s.nrFreed + element.length }

/-- The loop of `ntfs_cluster_free_from_rl_nolock`, at the `k`-th element. -/
def freeRuns (faults : Nat → RunFaults) : List RunlistElement → Nat → Freeing → Freeing
  | [], _, s => s
  | element :: rest, k, s =>
    if element.length = 0 then s else freeRuns faults rest (k + 1) (s.freeRun element (faults k))

/-- `ntfs_cluster_free_from_rl_nolock` -/
def LcnVolume.ntfsClusterFreeFromRlNolock (vol : LcnVolume) (rl : List RunlistElement)
    (faults : Nat → RunFaults) : LcnVolume × Option ErrorCode :=
  let s := freeRuns faults rl 0 { vol, ret := none, nrFreed := 0 }
  (s.vol.incFreeClusters s.nrFreed, s.ret)

/-- What `__ntfs_cluster_free` is given: the first vcn, the number of clusters if there is a
limit, and the run list of the inode from the element that holds the first vcn on, as it is
once its fragments are mapped. `findError` is the error of finding the first element, `mapErrors k`
that of mapping the fragment that starts with the `k`-th element. -/
structure FreeRequest where
  startVcn : Nat
  count : Option Nat
  first : RunlistElement
  rest : List RunlistElement
  findError : Option ErrorCode
  mapErrors : Nat → Option ErrorCode
  faults : Nat → RunFaults
  rollbackFaults : Nat → RunFaults
  holds : first.vcn ≤ startVcn ∧ startVcn < first.vcn + first.length

/-- The state of `__ntfs_cluster_free`. -/
structure FreeWalk where
  vol : LcnVolume
  count : Option Nat
  totalFreed : Nat
  realFreed : Nat
  err : Option ErrorCode

/-- The number of clusters of a run that need freeing. -/
def clustersToFree (count : Option Nat) (element : RunlistElement) (delta : Nat) : Nat :=
  match count with
  | none => element.length - delta
  | some count => min (element.length - delta) count

/-- Free the clusters of one run from its `delta`-th cluster on. -/
def FreeWalk.freeElement (w : FreeWalk) (value : Bool) (element : RunlistElement) (delta : Nat)
    (faults : RunFaults) : FreeWalk :=
  let toFree := clustersToFree w.count element delta
  let count := w.count.map (· - toFree)
  if element.lcn < 0 then { w with count, totalFreed := w.totalFreed + toFree }
  else
    let out := w.vol.setBitsInRun (element.lcn.toNat + delta) toFree value faults
    match out.2 with
    | some err => { w with vol := out.1, err := some err }
    | none =>
      { w with vol := out.1, count, totalFreed := w.totalFreed + toFree, realFreed := w.realFreed + toFree }

/-- The loop over the remaining runs in `__ntfs_cluster_free`. -/
def freeRest (value : Bool) (mapErrors : Nat → Option ErrorCode) (faults : Nat → RunFaults) :
    List RunlistElement → Nat → FreeWalk → FreeWalk
  | [], _, w => w
  | element :: rest, k, w =>
    if element.length = 0 ∨ w.count = some 0 then w
    else
      match mapErrors k with
      | some err => { w with err := some err }
      | none =>
        if element.lcn < lcnHole then { w with err := some codeIo }
        else
          let w := w.freeElement value element 0 (faults k)
          if w.err = none then freeRest value mapErrors faults rest (k + 1) w else w

/-- `__ntfs_cluster_free` from the first element up to the counting of what was freed. -/
def LcnVolume.freeFrom (vol : LcnVolume) (req : FreeRequest) (count : Option Nat) (value : Bool)
    (mapErrors : Nat → Option ErrorCode) (faults : Nat → RunFaults) : FreeWalk :=
  let w : FreeWalk := { vol, count, totalFreed := 0, realFreed := 0, err := none }
  if req.first.lcn < lcnHole then { w with err := some codeIo }
  else
    let w := w.freeElement value req.first (req.startVcn - req.first.vcn) (faults 0)
    if w.err = none then freeRest value mapErrors faults req.rest 1 w else w

/-- `__ntfs_cluster_free` -/
def LcnVolume.ntfsClusterFree (vol : LcnVolume) (req : FreeRequest) : LcnVolume × Except ErrorCode Nat :=
  match req.findError with
  | some err => (vol, if err = codeNoent then .ok 0 else .error err)
  | none =>
    let w := vol.freeFrom req req.count false req.mapErrors req.faults
    match w.err with
    | none => (w.vol.incFreeClusters w.realFreed, .ok w.realFreed)
    | some err =>
      if w.realFreed = 0 then (w.vol, .error err)
      else
        -- The rollback walks the runs that are mapped by now, and adds what it set to the counter.
        let back := w.vol.freeFrom req (some w.totalFreed) true (fun _ => none) req.rollbackFaults
        match back.err with
        | none =>
          ((back.vol.incFreeClusters back.realFreed).decFreeClusters back.realFreed, .error err)
        | some code => ({ back.vol with errors := true }.decFreeClusters code, .error err)

/-- The clusters of a run. -/
def RunlistElement.clusters (element : RunlistElement) : List Nat :=
  if element.lcn < 0 then [] else List.range' element.lcn.toNat element.length

/-- The clusters of the runs of a run list up to its terminator. -/
def runClusters : List RunlistElement → List Nat
  | [] => []
  | element :: rest => if element.length = 0 then [] else element.clusters ++ runClusters rest

/-- A volume that differs from another by the clusters whose bits took one value: the counters
of the pages follow, the counter of the free clusters does not yet. -/
structure SetsClusters (vol vol' : LcnVolume) (clusters : List Nat) (value : Bool) : Prop where
  bits : ∀ i, vol'.bits i = if i ∈ clusters then value else vol.bits i
  pages : ∀ page, vol'.pageGap page = vol.pageGap page
  free : vol'.freeGap = vol.freeGap - clearGain value clusters.length
  others : vol' = { vol with bits := vol'.bits, emptyBits := vol'.emptyBits }

section Clusters

variable {vol vol' vol'' : LcnVolume} {clusters more : List Nat} {start n : Nat} {value : Bool}

theorem SetsClusters.refl : SetsClusters vol vol [] value where
  bits := fun i => by simp
  pages := fun _ => rfl
  free := by simp [clearGain]
  others := rfl

theorem SetsClusters.append (first : SetsClusters vol vol' clusters value)
    (second : SetsClusters vol' vol'' more value) : SetsClusters vol vol'' (clusters ++ more) value where
  bits := by
    intro i
    rw [second.bits, first.bits]
    by_cases here : i ∈ clusters <;> by_cases there : i ∈ more <;> simp [here, there]
  pages := fun page => (second.pages page).trans (first.pages page)
  free := by
    rw [second.free, first.free, List.length_append, clearGain, clearGain, clearGain]
    split <;> omega
  others := by rw [second.others, first.others]

theorem SetsClusters.iSize (sets : SetsClusters vol vol' clusters value) : vol'.iSize = vol.iSize := by
  rw [sets.others]

/-- A run whose bits all change is a list of clusters. -/
theorem SetsRun.setsClusters (sets : SetsRun vol vol' start n value) (inside : start + n ≤ 8 * vol.iSize)
    (had : ∀ i, start ≤ i → i < start + n → vol.bits i = !value) :
    SetsClusters vol vol' (List.range' start n) value where
  bits := by
    intro i
    rw [sets.bits, setRun]
    simp only [List.mem_range'_1]
  pages := sets.counted had
  free := by
    have size : vol'.iSize = vol.iSize := by rw [sets.others]
    have counter : vol'.freeClusters = vol.freeClusters := by rw [sets.others]
    have changed : (clearCount (setRun vol.bits start n value) 0 (8 * vol.iSize) : Int) =
        clearCount vol.bits 0 (8 * vol.iSize) + clearGain value n :=
      clearCount_setRun (Nat.zero_le start) (by rwa [Nat.zero_add]) had
    rw [LcnVolume.freeGap, LcnVolume.freeGap, size, counter, sets.bits, changed, List.length_range']
    omega
  others := sets.others

theorem SetsClusters.turned_back (forth : SetsClusters vol vol' clusters value)
    (back : SetsClusters vol' vol'' clusters (!value)) (had : ∀ i ∈ clusters, vol.bits i = !value) :
    vol'' = vol := by
  have bits : vol''.bits = vol.bits := by
    funext i
    rw [back.bits, forth.bits]
    by_cases here : i ∈ clusters
    · rw [if_pos here, had i here]
    · rw [if_neg here, if_neg here]
  have emptyBits : vol''.emptyBits = vol.emptyBits := by
    funext page
    have gap := (back.pages page).trans (forth.pages page)
    rw [LcnVolume.pageGap, LcnVolume.pageGap, bits] at gap
    omega
  rw [back.others, forth.others, bits, emptyBits]

/-- What setting a run does to clusters that had the other value: the run is done, or, where
the pages can be read once more, nothing is. -/
theorem setBitsInRun_clusters {faults : RunFaults} (inside : ∀ i ∈ List.range' start n, i < 8 * vol.iSize)
    (had : ∀ i ∈ List.range' start n, vol.bits i = !value) (undoable : faults.Undoable) :
    (∃ err, (vol.setBitsInRun start n value faults).2 = some err ∧
      (vol.setBitsInRun start n value faults).1 = vol) ∨
    ((vol.setBitsInRun start n value faults).2 = none ∧
      SetsClusters vol (vol.setBitsInRun start n value faults).1 (List.range' start n) value) := by
  have changes : ∀ i, start ≤ i → i < start + n → vol.bits i = !value :=
    fun i lower upper => had i (List.mem_range'_1.mpr ⟨lower, upper⟩)
  cases result : (vol.setBitsInRun start n value faults).2 with
  | some err => exact Or.inl ⟨err, rfl, setBitsInRun_failed result changes undoable⟩
  | none =>
    right
    refine ⟨rfl, ?_⟩
    by_cases empty : n = 0
    · subst empty
      have same : vol = (vol.setBitsInRun start 0 value faults).1 :=
        ((setBitsInRun_ok result).turned_back .refl changes).symm
      exact same ▸ .refl
    · have last := inside (start + n - 1) (List.mem_range'_1.mpr ⟨by omega, by omega⟩)
      exact (setBitsInRun_ok result).setsClusters (by omega) changes

end Clusters

/-- Once the pages of one run could not be read, those of no later run fail; only a first
failure for want of memory may be followed by another one of a different kind. -/
def TellsFailures (faults : Nat → RunFaults) : Prop :=
  ∀ i j, i < j → ∀ p q err err', (faults i).forward p = some err → (faults j).forward q = some err' →
    err = codeNomem ∧ err' ≠ codeNomem

/-- Clusters that can be freed: distinct, allocated, and of the bitmap. -/
structure Allocated (vol : LcnVolume) (clusters : List Nat) : Prop where
  distinct : clusters.Nodup
  set : ∀ i ∈ clusters, vol.bits i = true
  inside : ∀ i ∈ clusters, i < 8 * vol.iSize

section FreeRuns

variable {vol vol' : LcnVolume} {clusters before more : List Nat} {faults : Nat → RunFaults}
  {element : RunlistElement} {rest rl : List RunlistElement} {s : Freeing} {k : Nat}

theorem Allocated.others (allocated : Allocated vol (clusters ++ more))
    (sets : SetsClusters vol vol' before false) (some_of : ∀ i ∈ before, i ∈ clusters) : Allocated vol' more where
  distinct := allocated.distinct.of_append_right
  set := by
    intro i here
    have apart : i ∉ before := fun there =>
      (List.disjoint_of_nodup_append allocated.distinct) (some_of i there) here
    rw [sets.bits, if_neg apart]
    exact allocated.set i (List.mem_append_right _ here)
  inside := by
    intro i here
    rw [sets.iSize]
    exact allocated.inside i (List.mem_append_right _ here)

theorem Allocated.left (allocated : Allocated vol (clusters ++ more)) : Allocated vol clusters where
  distinct := allocated.distinct.of_append_left
  set := fun i here => allocated.set i (List.mem_append_left _ here)
  inside := fun i here => allocated.inside i (List.mem_append_left _ here)

/-- What freeing some runs did: it cleared some of their clusters and counted just these, and
all of them where no page read failed. -/
structure FreedSome (faults : Nat → RunFaults) (s s' : Freeing) (clusters : List Nat) : Prop where
  cleared : ∃ freed : List Nat, freed.Sublist clusters ∧ SetsClusters s.vol s'.vol freed false ∧
    s'.nrFreed = s.nrFreed + freed.length ∧
    ((∀ i k, (faults i).forward k = none) → freed = clusters ∧ s'.ret = s.ret)

theorem FreedSome.refl : FreedSome faults s s [] where
  cleared := ⟨[], .slnil, .refl, rfl, fun _ => ⟨rfl, rfl⟩⟩

theorem FreedSome.append {s' s'' : Freeing} (first : FreedSome faults s s' clusters)
    (second : FreedSome faults s' s'' more) : FreedSome faults s s'' (clusters ++ more) where
  cleared := by
    obtain ⟨freed, some_of, sets, counted, all⟩ := first.cleared
    obtain ⟨freed', some_of', sets', counted', all'⟩ := second.cleared
    refine ⟨freed ++ freed', some_of.append some_of', sets.append sets', ?_, fun readable => ?_⟩
    · rw [counted', counted, List.length_append, Nat.add_assoc]
    · rw [(all readable).1, (all' readable).1, (all' readable).2]
      exact ⟨rfl, (all readable).2⟩

/-- The errors recorded so far come from earlier runs. -/
def RecordedBefore (faults : Nat → RunFaults) (k : Nat) (s : Freeing) : Prop :=
  ∀ err, s.ret = some err → ∃ i < k, ∃ p, (faults i).forward p = some err

/-- One run is freed and counted, or it fails, is turned back and its error recorded. -/
theorem freeRun_step (allocated : Allocated s.vol element.clusters) (some_cluster : element.length ≠ 0)
    (told : TellsFailures faults) (undoable : ∀ i, (faults i).Undoable) (recorded : RecordedBefore faults k s) :
    FreedSome faults s (s.freeRun element (faults k)) element.clusters ∧
      RecordedBefore faults (k + 1) (s.freeRun element (faults k)) := by
  have later : RecordedBefore faults (k + 1) s := by
    intro err here
    obtain ⟨i, before, failed⟩ := recorded err here
    exact ⟨i, by omega, failed⟩
  rw [Freeing.freeRun]
  by_cases hole : element.lcn < 0
  · rw [if_pos hole, RunlistElement.clusters, if_pos hole]
    exact ⟨.refl, later⟩
  rw [if_neg hole]
  have list : element.clusters = List.range' element.lcn.toNat element.length := if_neg hole
  rw [list] at allocated ⊢
  have outcome := @setBitsInRun_clusters s.vol element.lcn.toNat element.length false (faults k)
    allocated.inside allocated.set (undoable k)
  dsimp only [LcnVolume.clearRun]
  rcases outcome with ⟨err, failed, kept⟩ | ⟨done, sets⟩
  · obtain ⟨p, source⟩ := setBitsInRun_told failed (by omega)
    have recordable : s.ret = none ∨ s.ret = some codeNomem := by
      cases ret : s.ret with
      | none => exact Or.inl rfl
      | some first =>
        obtain ⟨i, before, q, cause⟩ := recorded first ret
        exact Or.inr (congrArg some (told i k before q p first err cause source).1)
    have new : s.ret ≠ some err := by
      intro same
      obtain ⟨i, before, q, cause⟩ := recorded err same
      have kinds := told i k before q p err err cause source
      exact kinds.2 kinds.1
    rw [failed, if_pos ⟨by simp, recordable, new⟩]
    constructor
    · constructor
      refine ⟨[], List.nil_sublist _, ?_, rfl, fun clean => absurd (clean k p) (by simp [source])⟩
      exact kept.symm ▸ .refl
    · intro other same
      exact ⟨k, by omega, p, source.trans same⟩
  · rw [done, if_neg (by simp)]
    constructor
    · exact ⟨_, List.Sublist.refl _, sets, by rw [List.length_range'], fun _ => ⟨rfl, rfl⟩⟩
    · exact later

theorem freeRuns_freedSome (allocated : Allocated s.vol (runClusters rl)) (told : TellsFailures faults)
    (undoable : ∀ i, (faults i).Undoable) (recorded : RecordedBefore faults k s) :
    FreedSome faults s (freeRuns faults rl k s) (runClusters rl) := by
  induction rl generalizing k s with
  | nil => exact .refl
  | cons element rest ih =>
    rw [freeRuns, runClusters] at *
    by_cases ends : element.length = 0
    · rw [if_pos ends, if_pos ends]
      exact .refl
    · rw [if_neg ends] at allocated ⊢
      rw [if_neg ends]
      obtain ⟨first, recorded'⟩ := freeRun_step allocated.left ends told undoable recorded
      obtain ⟨freed, some_of, sets, _⟩ := first.cleared
      exact first.append (ih (allocated.others sets fun i here => some_of.subset here) recorded')

/-- `ntfs_cluster_free_from_rl_nolock` keeps the distance of the counters from the bitmap. -/
theorem freeFromRl_gaps (allocated : Allocated vol (runClusters rl)) (told : TellsFailures faults)
    (undoable : ∀ i, (faults i).Undoable) :
    (vol.ntfsClusterFreeFromRlNolock rl faults).1.freeGap = vol.freeGap ∧
      (∀ page, (vol.ntfsClusterFreeFromRlNolock rl faults).1.pageGap page = vol.pageGap page) ∧
      (vol.ntfsClusterFreeFromRlNolock rl faults).1.iSize = vol.iSize := by
  have some_ : FreedSome faults ⟨vol, none, 0⟩ (freeRuns faults rl 0 ⟨vol, none, 0⟩) (runClusters rl) :=
    freeRuns_freedSome allocated told undoable fun _ impossible => absurd impossible (by simp)
  obtain ⟨freed, _, sets, counted, _⟩ := some_.cleared
  rw [LcnVolume.ntfsClusterFreeFromRlNolock]
  generalize freeRuns faults rl 0 ⟨vol, none, 0⟩ = s at sets counted
  have count : s.nrFreed = freed.length := counted.trans (Nat.zero_add _)
  refine ⟨?_, sets.pages, sets.iSize⟩
  have free := sets.free
  simp only [LcnVolume.freeGap, LcnVolume.incFreeClusters, clearGain, Bool.false_eq_true, if_false] at free ⊢
  omega

end FreeRuns

/-- The clusters of one run that a walk frees. -/
def elementClusters (count : Option Nat) (element : RunlistElement) (delta : Nat) : List Nat :=
  if element.lcn < 0 then [] else List.range' (element.lcn.toNat + delta) (clustersToFree count element delta)

/-- The clusters of the remaining runs that a walk frees. -/
def restClusters : Option Nat → List RunlistElement → List Nat
  | _, [] => []
  | count, element :: rest =>
    if element.length = 0 ∨ count = some 0 then []
    else elementClusters count element 0 ++
      restClusters (count.map (· - clustersToFree count element 0)) rest

/-- The clusters that a request frees under a limit. -/
def FreeRequest.clusters (req : FreeRequest) (count : Option Nat) : List Nat :=
  elementClusters count req.first (req.startVcn - req.first.vcn) ++
    restClusters (count.map (· - clustersToFree count req.first (req.startVcn - req.first.vcn))) req.rest

/-- The runs up to a number of clusters are runs or holes. -/
def RunsValid : Nat → List RunlistElement → Prop
  | _, [] => True
  | d, element :: rest => d = 0 ∨ element.length = 0 ∨
      (lcnHole ≤ element.lcn ∧ RunsValid (d - min element.length d) rest)

/-- What a walk over the remaining runs did: it got through some clusters, holes included,
changed just the real ones among them and counted these. -/
structure RestWalked (value : Bool) (rl : List RunlistElement) (w w' : FreeWalk) (d : Nat) : Prop where
  total : w'.totalFreed = w.totalFreed + d
  within : ∀ c, w.count = some c → d ≤ c
  sets : SetsClusters w.vol w'.vol (restClusters (some d) rl) value
  real : w'.realFreed = w.realFreed + (restClusters (some d) rl).length
  some_of : restClusters (some d) rl <+: restClusters w.count rl
  whole : w'.err = none → restClusters (some d) rl = restClusters w.count rl
  valid : RunsValid d rl

section Walk

variable {value : Bool} {mapErrors : Nat → Option ErrorCode} {faults : Nat → RunFaults} {run : RunFaults}
  {element : RunlistElement} {rl rest : List RunlistElement} {w w' : FreeWalk} {delta k d : Nat}

/-- What one run does to a walk: it is freed, or it fails and leaves the volume as it was. -/
theorem freeElement_step (fine : w.err = none)
    (had : ∀ i ∈ elementClusters w.count element delta, w.vol.bits i = !value)
    (inside : ∀ i ∈ elementClusters w.count element delta, i < 8 * w.vol.iSize) (undoable : run.Undoable) :
    ((w.freeElement value element delta run).err = none ∧
      SetsClusters w.vol (w.freeElement value element delta run).vol (elementClusters w.count element delta) value ∧
      (w.freeElement value element delta run).realFreed =
        w.realFreed + (elementClusters w.count element delta).length ∧
      (w.freeElement value element delta run).totalFreed = w.totalFreed + clustersToFree w.count element delta ∧
      (w.freeElement value element delta run).count = w.count.map (· - clustersToFree w.count element delta)) ∨
    (∃ err, w.freeElement value element delta run = { w with err := some err } ∧
      (0 < clustersToFree w.count element delta → ∃ k, run.forward k = some err)) := by
  rw [FreeWalk.freeElement]
  by_cases hole : element.lcn < 0
  · left
    rw [if_pos hole, elementClusters, if_pos hole]
    exact ⟨fine, .refl, rfl, rfl, rfl⟩
  · rw [if_neg hole, elementClusters, if_neg hole]
    rw [elementClusters, if_neg hole] at had inside
    rcases setBitsInRun_clusters inside had undoable with ⟨err, failed, kept⟩ | ⟨done, sets⟩
    · right
      refine ⟨err, ?_, setBitsInRun_told failed⟩
      dsimp only
      rw [failed, kept]
    · left
      dsimp only
      rw [done]
      exact ⟨fine, sets, by rw [List.length_range'], rfl, rfl⟩

theorem restClusters_zero : restClusters (some 0) rl = [] := by
  cases rl with
  | nil => rfl
  | cons element rest => rw [restClusters, if_pos (Or.inr rfl)]

theorem RestWalked.stop (vol : w'.vol = w.vol) (total : w'.totalFreed = w.totalFreed)
    (real : w'.realFreed = w.realFreed) (whole : w'.err = none → restClusters w.count rl = []) :
    RestWalked value rl w w' 0 where
  total := total
  within := fun _ _ => Nat.zero_le _
  sets := by
    rw [restClusters_zero, vol]
    exact .refl
  real := by rw [restClusters_zero, real, List.length_nil, Nat.add_zero]
  some_of := by
    rw [restClusters_zero]
    exact List.nil_prefix
  whole := fun fine => by rw [restClusters_zero, whole fine]
  valid := by
    cases rl with
    | nil => trivial
    | cons element rest => exact Or.inl rfl

theorem clustersToFree_limited {count : Option Nat}
    (within : ∀ c, (count.map (· - clustersToFree count element delta)) = some c → d ≤ c) :
    clustersToFree (some (clustersToFree count element delta + d)) element delta =
      clustersToFree count element delta := by
  cases count with
  | none => simp only [clustersToFree]; omega
  | some c =>
    have left := within _ rfl
    simp only [clustersToFree] at left ⊢
    omega

theorem clustersToFree_pos {count : Option Nat} (some_cluster : delta < element.length) (more : count ≠ some 0) :
    0 < clustersToFree count element delta := by
  cases count with
  | none => simp only [clustersToFree]; omega
  | some c =>
    have positive : c ≠ 0 := fun zero => more (congrArg some zero)
    simp only [clustersToFree]
    omega

theorem elementClusters_limited {count : Option Nat}
    (within : ∀ c, (count.map (· - clustersToFree count element delta)) = some c → d ≤ c) :
    elementClusters (some (clustersToFree count element delta + d)) element delta =
      elementClusters count element delta := by
  rw [elementClusters, elementClusters, clustersToFree_limited within]

/-- A run that was freed and a walk over the runs behind it make one walk. -/
theorem RestWalked.step {next : FreeWalk} (more : ¬ (element.length = 0 ∨ w.count = some 0))
    (valid : lcnHole ≤ element.lcn)
    (sets : SetsClusters w.vol next.vol (elementClusters w.count element 0) value)
    (real : next.realFreed = w.realFreed + (elementClusters w.count element 0).length)
    (total : next.totalFreed = w.totalFreed + clustersToFree w.count element 0)
    (count : next.count = w.count.map (· - clustersToFree w.count element 0))
    (walked : RestWalked value rest next w' d) :
    RestWalked value (element :: rest) w w' (clustersToFree w.count element 0 + d) := by
  have within : ∀ c, (w.count.map (· - clustersToFree w.count element 0)) = some c → d ≤ c :=
    count ▸ walked.within
  have some_cluster : 0 < clustersToFree w.count element 0 :=
    clustersToFree_pos (by omega) fun zero => more (Or.inr zero)
  have all : restClusters w.count (element :: rest) =
      elementClusters w.count element 0 ++ restClusters next.count rest := by
    rw [restClusters, if_neg more, count]
  have some_ : restClusters (some (clustersToFree w.count element 0 + d)) (element :: rest) =
      elementClusters w.count element 0 ++ restClusters (some d) rest := by
    have left : ¬ (element.length = 0 ∨ some (clustersToFree w.count element 0 + d) = some 0) := by
      rintro (zero | zero)
      · exact more (Or.inl zero)
      · have := Option.some.inj zero
        omega
    rw [restClusters, if_neg left, elementClusters_limited within, Option.map_some,
      clustersToFree_limited within, Nat.add_sub_cancel_left]
  constructor
  · rw [walked.total, total, Nat.add_assoc]
  · intro c limit
    have left := within (c - clustersToFree w.count element 0) (by rw [limit, Option.map_some])
    have most : clustersToFree w.count element 0 ≤ c := by
      rw [limit]
      exact Nat.min_le_right _ _
    omega
  · rw [some_]
    exact sets.append walked.sets
  · rw [some_, walked.real, real, List.length_append, Nat.add_assoc]
  · rw [some_, all]
    exact (List.prefix_append_right_inj _).mpr walked.some_of
  · intro fine
    rw [some_, all, walked.whole fine]
  · right
    right
    refine ⟨valid, ?_⟩
    have same : min element.length (clustersToFree w.count element 0 + d) = clustersToFree w.count element 0 :=
      clustersToFree_limited within
    rw [same, Nat.add_sub_cancel_left]
    exact walked.valid

/-- A walk over the remaining runs, run after run. -/
theorem freeRest_walked (fine : w.err = none) (had : ∀ i ∈ restClusters w.count rl, w.vol.bits i = !value)
    (distinct : (restClusters w.count rl).Nodup) (inside : ∀ i ∈ restClusters w.count rl, i < 8 * w.vol.iSize)
    (undoable : ∀ i, (faults i).Undoable) :
    ∃ d, RestWalked value rl w (freeRest value mapErrors faults rl k w) d := by
  induction rl generalizing k w with
  | nil => exact ⟨0, .stop rfl rfl rfl fun _ => rfl⟩
  | cons element rest ih =>
    rw [freeRest]
    by_cases ends : element.length = 0 ∨ w.count = some 0
    · rw [if_pos ends]
      exact ⟨0, .stop rfl rfl rfl fun _ => by rw [restClusters, if_pos ends]⟩
    rw [if_neg ends]
    cases mapErrors k with
    | some err => exact ⟨0, .stop rfl rfl rfl fun impossible => absurd impossible (by simp)⟩
    | none =>
      dsimp only
      by_cases invalid : element.lcn < lcnHole
      · rw [if_pos invalid]
        exact ⟨0, .stop rfl rfl rfl fun impossible => absurd impossible (by simp)⟩
      rw [if_neg invalid]
      have list : restClusters w.count (element :: rest) = elementClusters w.count element 0 ++
          restClusters (w.count.map (· - clustersToFree w.count element 0)) rest := by
        rw [restClusters, if_neg ends]
      rw [list] at had distinct inside
      rcases freeElement_step fine (fun i here => had i (List.mem_append_left _ here))
        (fun i here => inside i (List.mem_append_left _ here)) (undoable k) with
        ⟨done, sets, real, total, count⟩ | ⟨err, failed, _⟩
      · rw [if_pos done]
        generalize w.freeElement value element 0 (faults k) = next at done sets real total count
        have apart := List.disjoint_of_nodup_append distinct
        obtain ⟨d, walked⟩ := ih (k := k + 1) done
          (by
            rw [count]
            intro i here
            rw [sets.bits, if_neg fun there => apart there here]
            exact had i (List.mem_append_right _ here))
          (by
            rw [count]
            exact distinct.of_append_right)
          (by
            rw [count, sets.iSize]
            exact fun i here => inside i (List.mem_append_right _ here))
        exact ⟨_, walked.step ends (by omega) sets real total count⟩
      · rw [failed, if_neg (by simp)]
        exact ⟨0, .stop rfl rfl rfl fun impossible => absurd impossible (by simp)⟩

theorem freeElement_clean (fine : w.err = none) (some_cluster : 0 < clustersToFree w.count element delta)
    (readable : ∀ p, run.forward p = none) : (w.freeElement value element delta run).err = none ∧
      (w.freeElement value element delta run).count = w.count.map (· - clustersToFree w.count element delta) := by
  rw [FreeWalk.freeElement]
  split
  · exact ⟨fine, rfl⟩
  · dsimp only
    cases result : (w.vol.setBitsInRun (element.lcn.toNat + delta) (clustersToFree w.count element delta)
        value run).2 with
    | none => exact ⟨fine, rfl⟩
    | some err =>
      obtain ⟨p, failed⟩ := setBitsInRun_told result some_cluster
      exact absurd (readable p) (by simp [failed])

/-- A walk through runs that can be passed, with pages that can be read, fails nowhere. -/
theorem freeRest_clean (fine : w.err = none) (limit : w.count = some d) (valid : RunsValid d rl)
    (readable : ∀ i p, (faults i).forward p = none) :
    (freeRest value (fun _ => none) faults rl k w).err = none := by
  induction rl generalizing k w d with
  | nil => exact fine
  | cons element rest ih =>
    rw [freeRest]
    by_cases ends : element.length = 0 ∨ w.count = some 0
    · rwa [if_pos ends]
    rw [if_neg ends]
    dsimp only
    rcases valid with zero | zero | ⟨valid, others⟩
    · exact absurd (Or.inr (limit.trans (congrArg some zero))) ends
    · exact absurd (Or.inl zero) ends
    rw [if_neg (by omega)]
    have done : (w.freeElement value element 0 (faults k)).err = none ∧
        (w.freeElement value element 0 (faults k)).count = some (d - min element.length d) := by
      have clean := @freeElement_clean value (faults k) element w 0 fine
        (clustersToFree_pos (by omega) fun zero => ends (Or.inr zero)) (readable k)
      rw [limit] at clean
      exact clean
    rw [if_pos done.1]
    exact ih done.1 done.2 others

end Walk

/-- No page read fails while a walk is rolled back. -/
def FreeRequest.RollsBack (req : FreeRequest) : Prop := ∀ i p, (req.rollbackFaults i).forward p = none

section Request

variable {vol : LcnVolume} {req : FreeRequest} {value : Bool} {count : Option Nat}
  {mapErrors : Nat → Option ErrorCode} {faults : Nat → RunFaults}

/-- What a walk over the runs of a request did: it changed just the clusters up to those it got
through, and where it failed, the same walk limited to these can be made once more. -/
structure RequestWalked (req : FreeRequest) (value : Bool) (vol : LcnVolume) (count : Option Nat) (w : FreeWalk) :
    Prop where
  sets : SetsClusters vol w.vol (req.clusters (some w.totalFreed)) value
  real : w.realFreed = (req.clusters (some w.totalFreed)).length
  some_of : req.clusters (some w.totalFreed) <+: req.clusters count
  whole : w.err = none → req.clusters (some w.totalFreed) = req.clusters count
  again : 0 < w.totalFreed → ∀ (vol' : LcnVolume) (value' : Bool) (faults : Nat → RunFaults),
    (∀ i p, (faults i).forward p = none) →
      (vol'.freeFrom req (some w.totalFreed) value' (fun _ => none) faults).err = none

theorem FreeRequest.clusters_zero : req.clusters (some 0) = [] := by
  have none_ : clustersToFree (some 0) req.first (req.startVcn - req.first.vcn) = 0 := by
    simp [clustersToFree]
  rw [FreeRequest.clusters, elementClusters, none_, Option.map_some, Nat.sub_zero, restClusters_zero]
  split <;> rfl

theorem RequestWalked.stop {err : ErrorCode} :
    RequestWalked req value vol count { vol, count, totalFreed := 0, realFreed := 0, err := some err } where
  sets := by
    rw [req.clusters_zero]
    exact .refl
  real := by rw [req.clusters_zero, List.length_nil]
  some_of := by
    rw [req.clusters_zero]
    exact List.nil_prefix
  whole := fun impossible => absurd impossible (by simp)
  again := fun impossible => absurd impossible (by simp)

/-- A walk over the runs of a request. -/
theorem freeFrom_walked (had : ∀ i ∈ req.clusters count, vol.bits i = !value)
    (distinct : (req.clusters count).Nodup) (inside : ∀ i ∈ req.clusters count, i < 8 * vol.iSize)
    (undoable : ∀ i, (faults i).Undoable) :
    RequestWalked req value vol count (vol.freeFrom req count value mapErrors faults) := by
  rw [LcnVolume.freeFrom]
  by_cases invalid : req.first.lcn < lcnHole
  · rw [if_pos invalid]
    exact .stop
  rw [if_neg invalid]
  rw [FreeRequest.clusters] at had distinct inside
  let w : FreeWalk := { vol, count, totalFreed := 0, realFreed := 0, err := none }
  let delta := req.startVcn - req.first.vcn
  have holds : delta < req.first.length := by
    have := req.holds
    omega
  rcases @freeElement_step value (faults 0) req.first w delta rfl
      (fun i here => had i (List.mem_append_left _ here))
      (fun i here => inside i (List.mem_append_left _ here)) (undoable 0) with
    ⟨done, sets, real, total, left⟩ | ⟨err, failed, _⟩
  · change RequestWalked req value vol count (if (w.freeElement value req.first delta (faults 0)).err = none
      then freeRest value mapErrors faults req.rest 1 (w.freeElement value req.first delta (faults 0))
      else w.freeElement value req.first delta (faults 0))
    rw [if_pos done]
    generalize w.freeElement value req.first delta (faults 0) = next at done sets real total left
    have apart := List.disjoint_of_nodup_append distinct
    obtain ⟨d, walked⟩ := @freeRest_walked value mapErrors faults req.rest next 1 done
      (by
        rw [left]
        intro i here
        rw [sets.bits, if_neg fun there => apart there here]
        exact had i (List.mem_append_right _ here))
      (by
        rw [left]
        exact distinct.of_append_right)
      (by
        rw [left, sets.iSize]
        exact fun i here => inside i (List.mem_append_right _ here)) undoable
    generalize freeRest value mapErrors faults req.rest 1 next = final at walked
    have within : ∀ c, (count.map (· - clustersToFree count req.first delta)) = some c → d ≤ c := left ▸ walked.within
    have got : final.totalFreed = clustersToFree count req.first delta + d := by
      rw [walked.total, total]
      exact congrArg (· + d) (Nat.zero_add _)
    have all : req.clusters count = elementClusters count req.first delta ++ restClusters next.count req.rest := by
      rw [left]
      rfl
    have some_ : req.clusters (some final.totalFreed) =
        elementClusters count req.first delta ++ restClusters (some d) req.rest := by
      rw [got]
      change elementClusters (some (clustersToFree count req.first delta + d)) req.first delta ++ restClusters
        (some (clustersToFree count req.first delta + d -
          clustersToFree (some (clustersToFree count req.first delta + d)) req.first delta)) req.rest = _
      rw [elementClusters_limited within, clustersToFree_limited within, Nat.add_sub_cancel_left]
    constructor
    · rw [some_]
      exact sets.append walked.sets
    · rw [some_, walked.real, real, List.length_append]
      exact congrArg (· + _) (Nat.zero_add _)
    · rw [some_, all]
      exact (List.prefix_append_right_inj _).mpr walked.some_of
    · intro fine
      rw [some_, all, walked.whole fine]
    · intro some_cluster vol' value' faults' readable
      rw [LcnVolume.freeFrom, if_neg invalid]
      have clean := @freeElement_clean value' (faults' 0) req.first
        { vol := vol', count := some final.totalFreed, totalFreed := 0, realFreed := 0, err := none } delta rfl
        (clustersToFree_pos holds fun zero => by
          have := Option.some.inj zero
          omega) (readable 0)
      rw [if_pos clean.1]
      apply freeRest_clean clean.1 (d := d) _ walked.valid readable
      rw [clean.2, Option.map_some, got, clustersToFree_limited within, Nat.add_sub_cancel_left]
  · change RequestWalked req value vol count (if (w.freeElement value req.first delta (faults 0)).err = none
      then freeRest value mapErrors faults req.rest 1 (w.freeElement value req.first delta (faults 0))
      else w.freeElement value req.first delta (faults 0))
    rw [failed, if_neg (by simp)]
    exact .stop

/-- `__ntfs_cluster_free` keeps the distance of the counters from the bitmap. -/
theorem clusterFree_gaps (allocated : Allocated vol (req.clusters req.count))
    (undoable : ∀ i, (req.faults i).Undoable) (rolls_back : req.RollsBack) :
    (vol.ntfsClusterFree req).1.freeGap = vol.freeGap ∧
      (∀ page, (vol.ntfsClusterFree req).1.pageGap page = vol.pageGap page) ∧
      (vol.ntfsClusterFree req).1.iSize = vol.iSize := by
  rw [LcnVolume.ntfsClusterFree]
  cases req.findError with
  | some err => exact ⟨rfl, fun _ => rfl, rfl⟩
  | none =>
    dsimp only
    have walked : RequestWalked req false vol req.count (vol.freeFrom req req.count false req.mapErrors req.faults) :=
      freeFrom_walked allocated.set allocated.distinct allocated.inside undoable
    generalize vol.freeFrom req req.count false req.mapErrors req.faults = w at walked
    have sets := walked.sets
    have real := walked.real
    cases w.err with
    | none =>
      refine ⟨?_, sets.pages, sets.iSize⟩
      have free := sets.free
      simp only [LcnVolume.freeGap, LcnVolume.incFreeClusters, clearGain, Bool.false_eq_true, if_false] at free ⊢
      omega
    | some err =>
      dsimp only
      by_cases nothing : w.realFreed = 0
      · rw [if_pos nothing]
        have empty : (req.clusters (some w.totalFreed)).length = 0 := by omega
        refine ⟨?_, sets.pages, sets.iSize⟩
        rw [sets.free, empty]
        simp [clearGain]
      rw [if_neg nothing]
      have some_of := walked.some_of
      have some_cluster : 0 < w.totalFreed := by
        by_contra zero
        have none_ : w.totalFreed = 0 := by omega
        rw [none_, req.clusters_zero] at real
        exact nothing real
      have had : ∀ i ∈ req.clusters (some w.totalFreed), vol.bits i = true :=
        fun i here => allocated.set i (some_of.subset here)
      have back : RequestWalked req true w.vol (some w.totalFreed)
          (w.vol.freeFrom req (some w.totalFreed) true (fun _ => none) req.rollbackFaults) := by
        apply freeFrom_walked
        · intro i here
          rw [sets.bits, if_pos here]
          rfl
        · exact some_of.sublist.nodup allocated.distinct
        · rw [sets.iSize]
          exact fun i here => allocated.inside i (some_of.subset here)
        · rintro i ⟨p, code, failed⟩
          exact absurd (rolls_back i p) (by simp [failed])
      have clean := walked.again some_cluster w.vol true req.rollbackFaults rolls_back
      generalize w.vol.freeFrom req (some w.totalFreed) true (fun _ => none) req.rollbackFaults = turned at back clean
      rw [clean]
      have restored : turned.vol = vol := sets.turned_back (back.whole clean ▸ back.sets) had
      dsimp only
      rw [restored]
      refine ⟨?_, fun _ => rfl, rfl⟩
      simp only [LcnVolume.freeGap, LcnVolume.incFreeClusters, LcnVolume.decFreeClusters]
      omega

end Request

end Ttntfs.Ntfs
