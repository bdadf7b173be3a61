import Ttntfs.Ntfs.AllocProgress

/-!
# The free space counters over runs of the allocator

Clusters are allocated and freed in any order, with pages of the bitmap failing to be read at any
point. A run list is freed with every failure recorded, or a failure is counted as if its run had
been freed; a walk that fails is rolled back, or the error code of the rollback is taken for a
number of clusters. Where neither goes wrong, the counters match the bitmap in every volume that
is reached.
-/

namespace Ttntfs.Ntfs

open Ttntfs.Library.BitRuns

/-- The calls of the allocator. -/
inductive SpaceCall where
  | alloc (req : AllocRequest) (faults : AllocFaults)
  | free (req : FreeRequest)
  | freeFromRl (rl : List RunlistElement) (faults : Nat → RunFaults)

/-- What a call does to the volume. -/
inductive SpaceStep : LcnVolume → SpaceCall → LcnVolume → Prop where
  | alloc {vol vol' : LcnVolume} {req : AllocRequest} {faults : AllocFaults}
      {result : Except ErrorCode (List RunlistElement)}
      (ended : vol.ntfsClusterAlloc req faults = some (vol', result)) : SpaceStep vol (.alloc req faults) vol'
  | free {vol : LcnVolume} {req : FreeRequest} : SpaceStep vol (.free req) (vol.ntfsClusterFree req).1
  | freeFromRl {vol : LcnVolume} {rl : List RunlistElement} {faults : Nat → RunFaults} :
      SpaceStep vol (.freeFromRl rl faults) (vol.ntfsClusterFreeFromRlNolock rl faults).1

/-- A caller frees only clusters that are allocated. -/
def SpaceCall.Owned (vol : LcnVolume) : SpaceCall → Prop
  | .alloc _ _ => True
  | .free req => Allocated vol (req.clusters req.count)
  | .freeFromRl rl _ => Allocated vol (runClusters rl)

/-- The page reads of a call that may fail: none while bits are turned back, and of the runs that
are freed from a run list, by a caller or to undo an allocation, no later one than the first that
fails. -/
def SpaceCall.Smooth : SpaceCall → Prop
  | .alloc _ faults => TellsFailures faults.rollback ∧ ∀ i, (faults.rollback i).Undoable
  | .free req => (∀ i, (req.faults i).Undoable) ∧ req.RollsBack
  | .freeFromRl _ faults => TellsFailures faults ∧ ∀ i, (faults i).Undoable

/-- A run of calls, each by a caller that frees only what is allocated. -/
inductive SpaceRun : LcnVolume → List SpaceCall → LcnVolume → Prop where
  | done {vol : LcnVolume} : SpaceRun vol [] vol
  | step {vol vol' vol'' : LcnVolume} {call : SpaceCall} {calls : List SpaceCall} (owned : call.Owned vol)
      (first : SpaceStep vol call vol') (rest : SpaceRun vol' calls vol'') : SpaceRun vol (call :: calls) vol''

/-- The distances of the counters from the bitmap, and the size of the bitmap. -/
def LcnVolume.SameGaps (vol vol' : LcnVolume) : Prop :=
  vol'.freeGap = vol.freeGap ∧ (∀ page, vol'.pageGap page = vol.pageGap page) ∧ vol'.iSize = vol.iSize

section Steps

variable {vol vol' : LcnVolume} {call : SpaceCall} {req : AllocRequest} {faults : AllocFaults} {s : Search}
  {err : Option ErrorCode}

theorem finish_sameGaps (searched : Searched vol req s) (told : TellsFailures faults.rollback)
    (undoable : ∀ i, (faults.rollback i).Undoable) : vol.SameGaps (s.finish req faults err).1 := by
  have taken : vol.SameGaps s.vol := ⟨searched.free, searched.pages, searched.iSize⟩
  cases err with
  | none =>
    simp only [Search.finish]
    split
    · exact taken
    · split <;> exact taken
  | some code =>
    obtain ⟨free, pages, size⟩ := freeFromRl_gaps searched.allocated told undoable
    exact ⟨free.trans taken.1, fun page => (pages page).trans (taken.2.1 page), size.trans taken.2.2⟩

/-- A call keeps the distances of the counters from the bitmap. -/
theorem SpaceStep.sameGaps (step : SpaceStep vol call vol') (owned : call.Owned vol) (smooth : call.Smooth) :
    vol.SameGaps vol' := by
  cases step with
  | @alloc _ req faults result ended =>
    rcases @clusterAlloc_ends vol req faults with ⟨err, refused⟩ | ⟨some_cluster, _, fuel, s, err, searched, finished⟩
    · rw [refused] at ended
      cases ended
      exact ⟨rfl, fun _ => rfl, rfl⟩
    · rw [finished] at ended
      obtain ⟨start, some_left⟩ := @start_searched vol req some_cluster
      have outcome := searchLoop_searched start some_left searched
      have same := @finish_sameGaps vol req faults s err outcome.1 smooth.1 smooth.2
      rw [Option.some.inj ended] at same
      exact same
  | free => exact clusterFree_gaps owned smooth.1 smooth.2
  | freeFromRl => exact freeFromRl_gaps owned smooth.1 smooth.2

theorem Accounted.of_sameGaps (accounted : vol.Accounted) (same : vol.SameGaps vol') : vol'.Accounted := by
  refine ⟨same.1.trans accounted.1, fun page inside => (same.2.1 page).trans (accounted.2 page ?_)⟩
  rwa [same.2.2] at inside

end Steps

/-- Over every run of the allocator whose page reads fail at the smooth points only, the counters
match the bitmap in the volume that is reached. -/
theorem free_space_accounted {vol vol' : LcnVolume} {calls : List SpaceCall} (run : SpaceRun vol calls vol')
    (smooth : ∀ call ∈ calls, call.Smooth) (accounted : vol.Accounted) : vol'.Accounted := by
  induction run with
  | done => exact accounted
  | step owned first rest ih =>
    apply ih
    · exact fun call member => smooth call (List.mem_cons_of_mem _ member)
    · exact Accounted.of_sameGaps accounted (first.sameGaps owned (smooth _ List.mem_cons_self))

/-- A volume of eight clusters, all of them allocated. -/
def fullVolume : LcnVolume where
  bits := fun _ => true
  emptyBits := fun _ => 0
  freeClusters := 0
  dirtyClusters := 0
  nrClusters := 8
  iSize := 1
  mftLcn := 4
  mftZoneStart := 4
  mftZoneEnd := 5
  mftZonePos := 4
  data1ZonePos := 5
  data2ZonePos := 0
  errors := false

/-- Two runs of one cluster each. -/
def twoRuns : List RunlistElement := [⟨0, 0, 1⟩, ⟨1, 2, 1⟩, ⟨2, lcnEnoent, 0⟩]

/-- No page can be read. -/
def unreadable : Nat → RunFaults := fun _ => ⟨fun _ => some codeIo, fun _ => some codeIo⟩

theorem fullVolume_accounted : fullVolume.Accounted := by
  constructor
  · have set : clearCount fullVolume.bits 0 (8 * fullVolume.iSize) = 0 := clearCount_of_set fun _ _ _ => rfl
    rw [LcnVolume.freeGap, set]
    rfl
  · intro page _
    have set : clearCount fullVolume.bits (page * bitmapPageBits) bitmapPageBits = 0 :=
      clearCount_of_set fun _ _ _ => rfl
    rw [LcnVolume.pageGap, set]
    rfl

theorem twoRuns_allocated : Allocated fullVolume (runClusters twoRuns) := by
  constructor
  · decide
  · exact fun _ _ => rfl
  · decide

theorem twoRuns_run {faults : Nat → RunFaults} : SpaceRun fullVolume [.freeFromRl twoRuns faults]
    (fullVolume.ntfsClusterFreeFromRlNolock twoRuns faults).1 := by
  apply SpaceRun.step
  · exact twoRuns_allocated
  · exact .freeFromRl
  · exact .done

/-- The condition lets a failing call through: one of two runs of a full volume is freed. -/
theorem free_space_accounted_one_failure :
    (fullVolume.ntfsClusterFreeFromRlNolock twoRuns
      fun i => ⟨fun _ => if i = 1 then some codeIo else none, fun _ => none⟩).1.Accounted := by
  refine free_space_accounted twoRuns_run ?_ fullVolume_accounted
  intro call member
  rw [List.mem_singleton.mp member]
  constructor
  · intro i j before p q err err' first second
    dsimp only at first second
    split at first <;> split at second <;> simp_all
  · exact fun _ _ _ => rfl

/-- Two runs fail to be freed and the second one is counted as free. -/
theorem free_space_uncounted_failure : ¬ ∀ (vol vol' : LcnVolume) (calls : List SpaceCall),
    SpaceRun vol calls vol' → vol.Accounted → vol'.Accounted := by
  intro claim
  have accounted := claim fullVolume _ _ (@twoRuns_run unreadable) fullVolume_accounted
  have counted : (fullVolume.ntfsClusterFreeFromRlNolock twoRuns unreadable).1.freeClusters = 1 := by decide
  have set : clearCount (fullVolume.ntfsClusterFreeFromRlNolock twoRuns unreadable).1.bits 0
      (8 * (fullVolume.ntfsClusterFreeFromRlNolock twoRuns unreadable).1.iSize) = 0 :=
    clearCount_of_set fun _ _ _ => rfl
  have gap := accounted.1
  rw [LcnVolume.freeGap, counted, set] at gap
  exact absurd gap (by decide)

end Ttntfs.Ntfs
