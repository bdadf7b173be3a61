import Ttntfs.Ntfs.ClusterFree
import Ttntfs.Ntfs.FilledHole

/-!
# Mapping a cluster

`ntfs_attr_map_cluster` looks up a vcn, and where there is a hole it allocates clusters and
merges them into the run list. The run list maps the whole attribute. How the allocator and
the other calls go is given by a course.
-/

namespace Ttntfs.Ntfs

/-- Clusters that the allocator takes side by side. -/
structure Extent where
  lcn : Nat
  length : Nat
  some_cluster : 0 < length

/-- The number of clusters of some extents. -/
def extentClusters (extents : List Extent) : Nat := (extents.map (·.length)).sum

/-- Where the extents have a cluster, counted from the first on. -/
def extentLcn : List Extent → Nat → Option Nat
  | [], _ => none
  | extent :: rest, i => if i < extent.length then some (extent.lcn + i) else extentLcn rest (i - extent.length)

/-- The runs of the extents. -/
def extentRuns (vcn : Nat) : List Extent → List RunlistElement
  | [] => []
  | extent :: rest => ⟨vcn, extent.lcn, extent.length⟩ :: extentRuns (vcn + extent.length) rest

/-- The run list that `ntfs_cluster_alloc` returns, which maps nothing behind its runs. -/
def allocatedRunlist (vcn : Nat) (extents : List Extent) : List RunlistElement :=
  extentRuns vcn extents ++ [⟨vcn + extentClusters extents, lcnRlNotMapped, 0⟩]

/-- How the calls in `ntfs_attr_map_cluster` go. The mapping pairs are updated where that is asked
for and where few clusters are free; what is allocated then is freed when that fails, but
stays in the run list. -/
inductive MapCourse where
  | fails (err : ErrorCode)
  | found
  | allocFails (err : ErrorCode)
  | mergeFails (err : ErrorCode)
  | allocated (first : Extent) (others : List Extent) (update : Option (Option ErrorCode))

/-- What a course allocates. -/
def MapCourse.extents : MapCourse → List Extent
  | .allocated first others _ => first :: others
  | _ => []

/-- Whether `ntfs_attr_map_cluster` returns clusters. -/
def MapCourse.maps : MapCourse → Bool
  | .found => true
  | .allocated _ _ (some (some _)) => false
  | .allocated _ _ _ => true
  | _ => false

/-- What `ntfs_attr_map_cluster` returns. -/
structure MappedClusters where
  lcn : Int
  count : Nat
  balloc : Bool

/-- `ntfs_attr_map_cluster`: the run list behind it, and the clusters or an error. It is none where
the course is not one of this call. -/
def ntfsAttrMapCluster (rl : List RunlistElement) (rlHint vcn maxCluCount : Nat) (skipHoles : Bool) (course : MapCourse) :
    Option (List RunlistElement × Except ErrorCode MappedClusters) :=
  match course with
  | .fails err => some (rl, .error err)
  | course =>
    match ntfsAttrFindVcn rl rlHint vcn with
    | none => some (rl, .error codeNoent)
    | some i =>
      let run := elementAt rl i
      let lcn := ntfsRlVcnToLcn (rl.drop i) vcn
      let cluCount := min maxCluCount (run.length - (vcn - run.vcn))
      if lcnHole ≤ lcn then
        if lcnDelalloc < lcn ∨ lcn = lcnHole ∧ skipHoles = true then
          match course with
          | .found => some (rl, .ok ⟨lcn, cluCount, false⟩)
          | _ => none
        else
          match course with
          | .allocFails err => some (rl, .error err)
          | .mergeFails err => some (rl, .error err)
          | .allocated first others update =>
            if cluCount < extentClusters (first :: others) then none
            else
              match ntfsRunlistsMerge true rl (allocatedRunlist vcn (first :: others)) rlHint 0 with
              | .merged rl newRlCount =>
                match update with
                | some (some err) => some (rl.take newRlCount, .error err)
                | _ => some (rl.take newRlCount, .ok ⟨first.lcn, first.length, true⟩)
              | _ => none
          | _ => none
      else if lcn = lcnEnoent then some (rl, .error codeNoent)
      else some (rl, .error codeIo)

/-- A run list that maps a whole attribute, with clusters and holes. -/
structure WholeRunlist (rl runs : List RunlistElement) (terminator : RunlistElement) : Prop where
  parts : rl = runs ++ [terminator]
  follow : RunsFrom 0 runs
  kinds : ∀ run ∈ runs, 0 ≤ run.lcn ∨ run.lcn = lcnHole
  place : terminator.vcn = rlClusters runs
  ends : terminator.length = 0
  last : terminator.lcn = lcnEnoent

/-- Clusters are mapped from a vcn on, and all else as before. -/
structure Filled (rl : List RunlistElement) (vcn : Nat) (extents : List Extent) (filled : List RunlistElement) : Prop where
  whole : ∃ runs terminator, WholeRunlist filled runs terminator
  clusters : rlClusters filled = rlClusters rl
  maps : ∀ v, ntfsRlVcnToLcn filled v =
    if vcn ≤ v then ((extentLcn extents (v - vcn)).map fun lcn => (lcn : Int)).getD (ntfsRlVcnToLcn rl v)
    else ntfsRlVcnToLcn rl v

section Extents

variable {extents : List Extent} {vcn v i : Nat}

theorem extentClusters_cons (extent : Extent) (rest : List Extent) :
    extentClusters (extent :: rest) = extent.length + extentClusters rest := by
  simp [extentClusters]

theorem extentRuns_clusters : rlClusters (extentRuns vcn extents) = extentClusters extents := by
  induction extents generalizing vcn with
  | nil => rfl
  | cons extent rest ih =>
    rw [extentRuns, rlClusters_cons, extentClusters_cons, ih]

theorem extentRuns_follow : RunsFrom vcn (extentRuns vcn extents) := by
  induction extents generalizing vcn with
  | nil => trivial
  | cons extent rest ih => exact ⟨rfl, extent.some_cluster, ih⟩

theorem extentRuns_real {run : RunlistElement} (listed : run ∈ extentRuns vcn extents) : 0 ≤ run.lcn := by
  induction extents generalizing vcn with
  | nil => cases listed
  | cons extent rest ih =>
    rcases List.mem_cons.mp listed with rfl | later
    · exact Int.natCast_nonneg _
    · exact ih later

theorem extentLcn_isSome : (extentLcn extents i).isSome = true ↔ i < extentClusters extents := by
  induction extents generalizing i with
  | nil => simp [extentLcn, extentClusters]
  | cons extent rest ih =>
    rw [extentLcn, extentClusters_cons]
    split
    · simp only [Option.isSome_some, true_iff]
      omega
    · rw [ih]
      omega

/-- The runs of the extents map to their clusters. -/
theorem extentRuns_map : runsMap (extentRuns vcn extents) v =
    if vcn ≤ v then (extentLcn extents (v - vcn)).map (fun lcn => (lcn : Int)) else none := by
  induction extents generalizing vcn with
  | nil => simp [extentRuns, extentLcn, runsMap]
  | cons extent rest ih =>
    rw [extentRuns, runsMap_cons, ih, extentLcn]
    by_cases lower : vcn ≤ v
    · rw [if_pos lower]
      by_cases inside : v - vcn < extent.length
      · have held : Holds ⟨vcn, extent.lcn, extent.length⟩ v := ⟨lower, by dsimp only; omega⟩
        rw [if_pos held, if_pos inside, lcnWithin, if_pos (Int.natCast_nonneg _)]
        simp
      · have unheld : ¬ Holds ⟨vcn, extent.lcn, extent.length⟩ v := by
          simp only [Holds]
          omega
        rw [if_neg unheld, if_neg inside, if_pos (by omega), Nat.sub_sub]
    · have unheld : ¬ Holds ⟨vcn, extent.lcn, extent.length⟩ v := by
        simp only [Holds]
        omega
      rw [if_neg unheld, if_neg lower, if_neg (by omega)]

end Extents

section Whole

variable {rl runs : List RunlistElement} {terminator : RunlistElement} {vcn v : Nat}

theorem WholeRunlist.clusters (whole : WholeRunlist rl runs terminator) : rlClusters rl = rlClusters runs := by
  rw [whole.parts, rlClusters_append, rlClusters_cons, whole.ends]
  rfl

theorem WholeRunlist.lookup (whole : WholeRunlist rl runs terminator) (v : Nat) :
    ntfsRlVcnToLcn rl v = (runsMap runs v).getD lcnEnoent := by
  rw [whole.parts]
  exact lookup_runs whole.follow (by rw [whole.place, Nat.zero_add]) whole.ends whole.last v

theorem runsFrom_held {start : Nat} (follow : RunsFrom start runs) (lower : start ≤ vcn)
    (upper : vcn < start + rlClusters runs) : ∃ before run post, runs = before ++ run :: post ∧ Holds run vcn := by
  induction runs generalizing start with
  | nil =>
    simp only [rlClusters, List.map_nil, List.sum_nil] at upper
    omega
  | cons first rest ih =>
    obtain ⟨place, some_cluster, behind⟩ := follow
    rw [rlClusters_cons] at upper
    by_cases inside : vcn < start + first.length
    · exact ⟨[], first, rest, rfl, by simp only [Holds]; omega⟩
    · obtain ⟨before, run, post, rfl, held⟩ := ih behind (by omega) (by omega)
      exact ⟨first :: before, run, post, rfl, held⟩

/-- What is found of a vcn: the run that it is in, and where that maps it. -/
theorem WholeRunlist.found (whole : WholeRunlist rl runs terminator) (inside : vcn < rlClusters rl) :
    ∃ before run post, runs = before ++ run :: post ∧ Holds run vcn ∧ elementAt rl before.length = run ∧
      (∀ rlHint, ntfsAttrFindVcn rl rlHint vcn = some before.length) ∧
      ntfsRlVcnToLcn (rl.drop before.length) vcn = lcnWithin run vcn ∧
      ∀ v, Holds run v → ntfsRlVcnToLcn rl v = lcnWithin run v := by
  have follow := whole.follow
  obtain ⟨before, run, post, shape, held⟩ := runsFrom_held follow (Nat.zero_le _)
    (by rw [Nat.zero_add, ← whole.clusters]; exact inside)
  have lookup := whole.lookup
  have parts : rl = before ++ run :: (post ++ [terminator]) := by
    rw [whole.parts, shape]
    simp
  have mapped (v : Nat) (holds : Holds run v) : runsMap runs v = some (lcnWithin run v) :=
    follow.map_held (by simp [shape]) holds
  rw [shape] at follow
  have later := follow
  rw [runsFrom_append] at later
  refine ⟨before, run, post, shape, held, ?_, fun rlHint => ?_, ?_, fun v holds => ?_⟩
  · rw [parts]
    exact elementAt_behind rfl
  · rw [parts]
    exact ntfsAttrFindVcn_holds follow held rlHint
  · obtain ⟨_, place, some_cluster, behind⟩ := later
    rw [parts, List.drop_left]
    have rest : RlFrom (run.vcn + rlClusters (run :: post)) [terminator] := by
      refine .terminator ?_ whole.ends (by rw [whole.last]; decide)
      rw [whole.place, shape, rlClusters_append, place]
      omega
    have here : RunsFrom run.vcn (run :: post) := ⟨rfl, some_cluster, by rw [place]; exact behind⟩
    have same : ntfsRlVcnToLcn ((run :: post) ++ [terminator]) vcn = _ := lookup_append here rest held.1
    rw [runsMap_cons, if_pos held] at same
    exact same
  · rw [lookup v, mapped v holds]
    rfl

/-- Extents that are merged into a hole are mapped to then. -/
theorem WholeRunlist.merged {rlHint newRlCount : Nat} {merged : List RunlistElement} {first : Extent} {others : List Extent}
    (whole : WholeRunlist rl runs terminator) (inside : vcn < rlClusters rl)
    (hole : ∀ before run post, runs = before ++ run :: post → Holds run vcn →
      run.lcn = lcnHole ∧ vcn + extentClusters (first :: others) ≤ run.endVcn)
    (ok : ntfsRunlistsMerge true rl (allocatedRunlist vcn (first :: others)) rlHint 0 = .merged merged newRlCount) :
    Filled rl vcn (first :: others) (merged.take newRlCount) := by
  obtain ⟨before, run, post, shape, held, -⟩ := whole.found inside
  obtain ⟨holed, within⟩ := hole before run post shape held
  have follow := whole.follow
  have kinds := whole.kinds
  rw [shape] at follow kinds
  have parts : rl = before ++ run :: (post ++ [terminator]) := by
    rw [whole.parts, shape]
    simp
  rw [parts, allocatedRunlist] at ok
  obtain ⟨back, last, ends⟩ : ∃ back last, extentRuns vcn (first :: others) = back ++ [last] := by
    rcases List.eq_nil_or_concat (extentRuns vcn (first :: others)) with nothing | ⟨back, last, same⟩
    · cases nothing
    · exact ⟨back, last, by rw [same, List.concat_eq_append]⟩
  have runsFollow : RunsFrom vcn (extentRuns vcn (first :: others)) := extentRuns_follow
  have stop := @rlClusters_last _ back ⟨vcn, first.lcn, first.length⟩ last ends runsFollow
  rw [extentRuns_clusters] at stop
  obtain ⟨joined, same, fills⟩ := ntfsRunlistsMerge_hole follow holed (fun element listed => by
      rcases kinds element (by simp [listed]) with real | isHole
      · intro impossible
        rw [impossible] at real
        exact absurd real (by decide)
      · rw [isHole]
        decide) whole.last (by rw [whole.place, shape]) (rfl : extentRuns vcn (first :: others) = ⟨vcn, _, _⟩ :: _) ends
    runsFollow (fun _ => extentRuns_real) held.1 (by rw [← stop]; exact within) rfl rfl ok
  have joinedWhole : WholeRunlist (merged.take newRlCount) joined terminator := by
    refine ⟨same, fills.follow, fun element listed => ?_, ?_, whole.ends, whole.last⟩
    · obtain ⟨other, from_, lcn⟩ := fills.lcns element listed
      rw [lcn]
      rcases List.mem_append.mp from_ with old | new
      · exact kinds other old
      · exact .inl (extentRuns_real new)
    · rw [whole.place, shape, fills.clusters]
  refine ⟨⟨joined, terminator, joinedWhole⟩, ?_, fun v => ?_⟩
  · rw [joinedWhole.clusters, fills.clusters, whole.clusters, shape]
  rw [joinedWhole.lookup, whole.lookup, fills.maps, shape, extentRuns_map]
  by_cases lower : vcn ≤ v
  · rw [if_pos lower, if_pos lower]
    cases extentLcn (first :: others) (v - vcn) with
    | none => rfl
    | some lcn => rfl
  · rw [if_neg lower, if_neg lower]
    rfl

theorem ntfsRlRealloc_isSome (rl : List RunlistElement) (newSize : Nat) : (ntfsRlRealloc true rl newSize).isSome := by
  rw [ntfsRlRealloc]
  split <;> rfl

theorem fillOperation_isSome (dst src : List RunlistElement) (hole first last : RunlistElement) (ss dins : Nat) :
    (fillOperation true dst src hole first last ss dins).isSome := by
  have grows := ntfsRlRealloc_isSome
  rw [fillOperation]
  split_ifs
  · rw [ntfsRlReplace, Option.isSome_map]
    split
    · exact grows _ _
    · rfl
  · rw [ntfsRlInsert, Option.isSome_map]
    exact grows _ _
  · rw [ntfsRlAppend, Option.isSome_map]
    exact grows _ _
  · rw [ntfsRlSplit, Option.isSome_map]
    exact grows _ _

/-- With memory, the clusters that were allocated for a part of a hole are always merged into the run
list, which then maps them and everything else as before. -/
theorem merge_fills_hole {first : Extent} {others : List Extent} (whole : WholeRunlist rl runs terminator)
    (inside : vcn < rlClusters rl)
    (hole : ∀ before run post, runs = before ++ run :: post → Holds run vcn →
      run.lcn = lcnHole ∧ vcn + extentClusters (first :: others) ≤ run.endVcn) (rlHint : Nat) :
    ∃ merged newRlCount,
      ntfsRunlistsMerge true rl (allocatedRunlist vcn (first :: others)) rlHint 0 = .merged merged newRlCount ∧
        Filled rl vcn (first :: others) (merged.take newRlCount) := by
  obtain ⟨before, run, post, shape, held, -⟩ := whole.found inside
  obtain ⟨holed, within⟩ := hole before run post shape held
  have follow := whole.follow
  rw [shape] at follow
  have parts : rl = before ++ run :: (post ++ [terminator]) := by
    rw [whole.parts, shape]
    simp
  obtain ⟨back, last, ends⟩ : ∃ back last, extentRuns vcn (first :: others) = back ++ [last] := by
    rcases List.eq_nil_or_concat (extentRuns vcn (first :: others)) with nothing | ⟨back, last, same⟩
    · cases nothing
    · exact ⟨back, last, by rw [same, List.concat_eq_append]⟩
  have stop := @rlClusters_last _ back ⟨vcn, first.lcn, first.length⟩ last ends extentRuns_follow
  rw [extentRuns_clusters] at stop
  have merges := @ntfsRunlistsMerge_operation before _ _ back post run _ last terminator
    ⟨vcn + extentClusters (first :: others), lcnRlNotMapped, 0⟩ true rlHint follow holed
    (rfl : extentRuns vcn (first :: others) = ⟨vcn, _, _⟩ :: _) ends extentRuns_follow (fun _ => extentRuns_real) held.1
    (by rw [← stop]; exact within) rfl rfl
  obtain ⟨⟨merged, newRlCount⟩, filled⟩ := Option.isSome_iff_exists.mp (fillOperation_isSome
    (before ++ run :: (post ++ [terminator])) (allocatedRunlist vcn (first :: others)) run ⟨vcn, first.lcn, first.length⟩ last
    (extentRuns vcn (first :: others)).length before.length)
  rw [← allocatedRunlist, filled, ← parts] at merges
  exact ⟨merged, newRlCount, merges, whole.merged inside hole merges⟩

/-- Three clusters in the middle of a hole of eight. -/
theorem merge_fills_hole_of_eight :
    ∃ merged newRlCount, ntfsRunlistsMerge true [⟨0, lcnHole, 8⟩, ⟨8, lcnEnoent, 0⟩]
        (allocatedRunlist 2 [⟨100, 3, by decide⟩]) 0 0 = .merged merged newRlCount ∧
      Filled [⟨0, lcnHole, 8⟩, ⟨8, lcnEnoent, 0⟩] 2 [⟨100, 3, by decide⟩] (merged.take newRlCount) := by
  have whole : WholeRunlist [⟨0, lcnHole, 8⟩, ⟨8, lcnEnoent, 0⟩] [⟨0, lcnHole, 8⟩] ⟨8, lcnEnoent, 0⟩ :=
    ⟨rfl, ⟨rfl, by decide, trivial⟩, by simp, rfl, rfl, rfl⟩
  refine merge_fills_hole whole (by decide) (fun before run post shape _ => ?_) 0
  have listed : run ∈ [(⟨0, lcnHole, 8⟩ : RunlistElement)] := by simp [shape]
  obtain rfl := List.mem_singleton.mp listed
  exact ⟨rfl, by decide⟩

end Whole

/-- How a call of `ntfs_attr_map_cluster` ends, for a vcn of an attribute whose run list is mapped. -/
inductive MapEnd (rl : List RunlistElement) (vcn maxCluCount : Nat) :
    MapCourse → List RunlistElement → Except ErrorCode MappedClusters → Prop where
  | unchanged {course : MapCourse} (err : ErrorCode) (nothing : course.extents = []) (failed : course.maps = false) :
      MapEnd rl vcn maxCluCount course rl (.error err)
  | found (lcn count : Nat) (some_cluster : 0 < count) (bound : count ≤ maxCluCount)
      (clusters : ∀ i < count, ntfsRlVcnToLcn rl (vcn + i) = lcn + i) :
      MapEnd rl vcn maxCluCount .found rl (.ok ⟨lcn, count, false⟩)
  | freed (first : Extent) (others : List Extent) (filled : List RunlistElement) (err : ErrorCode)
      (bound : extentClusters (first :: others) ≤ maxCluCount)
      (hole : ∀ i < extentClusters (first :: others), ntfsRlVcnToLcn rl (vcn + i) = lcnHole)
      (fills : Filled rl vcn (first :: others) filled) :
      MapEnd rl vcn maxCluCount (.allocated first others (some (some err))) filled (.error err)
  | allocated (first : Extent) (others : List Extent) (update : Option (Option ErrorCode)) (filled : List RunlistElement)
      (updated : ∀ err, update ≠ some (some err)) (bound : extentClusters (first :: others) ≤ maxCluCount)
      (hole : ∀ i < extentClusters (first :: others), ntfsRlVcnToLcn rl (vcn + i) = lcnHole)
      (fills : Filled rl vcn (first :: others) filled) :
      MapEnd rl vcn maxCluCount (.allocated first others update) filled (.ok ⟨first.lcn, first.length, true⟩)

section Calls

variable {rl runs mapped : List RunlistElement} {terminator : RunlistElement} {rlHint vcn maxCluCount : Nat}
  {course : MapCourse} {result : Except ErrorCode MappedClusters}

/-- `ntfs_attr_map_cluster` ends in one of these ways. -/
theorem ntfsAttrMapCluster_end (whole : WholeRunlist rl runs terminator) (inside : vcn < rlClusters rl)
    (some_cluster : 0 < maxCluCount)
    (ok : ntfsAttrMapCluster rl rlHint vcn maxCluCount false course = some (mapped, result)) :
    MapEnd rl vcn maxCluCount course mapped result := by
  obtain ⟨before, run, post, shape, held, elementIs, finds, lookup, lookups⟩ := whole.found inside
  have kinds := whole.kinds run (by simp [shape])
  have holeIs : lcnHole = -2 := rfl
  have delallocIs : lcnDelalloc = -1 := rfl
  have once : ∀ other run' post', runs = other ++ run' :: post' → Holds run' vcn → run' = run := fun other run' post' parts holds =>
    whole.follow.held_once (by simp [parts]) (by simp [shape]) holds held
  have bounds := held
  simp only [Holds] at bounds
  have count : min maxCluCount (run.length - (vcn - run.vcn)) ≤ maxCluCount ∧
      vcn + min maxCluCount (run.length - (vcn - run.vcn)) ≤ run.endVcn ∧
      0 < min maxCluCount (run.length - (vcn - run.vcn)) := by
    simp only [RunlistElement.endVcn]
    omega
  have inRun (i : Nat) (below : i < min maxCluCount (run.length - (vcn - run.vcn))) :
      ntfsRlVcnToLcn rl (vcn + i) = lcnWithin run (vcn + i) := lookups _ ⟨by omega, by omega⟩
  unfold ntfsAttrMapCluster at ok
  rcases kinds with real | isHole
  · -- the vcn is mapped already
    have lcnIs : lcnWithin run vcn = run.lcn + (vcn - run.vcn : Nat) := if_pos real
    have above : lcnHole ≤ lcnWithin run vcn := by omega
    have beyond : lcnDelalloc < lcnWithin run vcn := by omega
    simp only [finds, elementIs, lookup, above, beyond, if_true, true_or] at ok
    split at ok
    · cases ok
      exact .unchanged _ rfl rfl
    split at ok
    · cases ok
      obtain ⟨lcn, lcnNat⟩ := Int.eq_ofNat_of_zero_le (a := lcnWithin run vcn) (by omega)
      rw [lcnNat]
      refine .found lcn _ count.2.2 count.1 fun i below => ?_
      rw [inRun i below, lcnWithin, if_pos real]
      omega
    · cases ok
  · -- the vcn is in a hole
    have negative : ¬ 0 ≤ run.lcn := by omega
    have lcnIs : lcnWithin run vcn = lcnHole := (if_neg negative).trans isHole
    have beyond : ¬ lcnDelalloc < lcnHole := by decide
    simp only [finds, elementIs, lookup, lcnIs, le_refl, beyond, if_true, false_or, Bool.false_eq_true, and_false, if_false] at ok
    split at ok
    · cases ok
      exact .unchanged _ rfl rfl
    split at ok
    · cases ok
      exact .unchanged _ rfl rfl
    · cases ok
      exact .unchanged _ rfl rfl
    · rename_i first others update _
      split at ok
      · cases ok
      rename_i fits
      split at ok
      · rename_i merged newRlCount merges
        have holes (i : Nat) (below : i < extentClusters (first :: others)) : ntfsRlVcnToLcn rl (vcn + i) = lcnHole := by
          rw [inRun i (by omega), lcnWithin, if_neg negative, isHole]
        have fills := whole.merged inside (fun other run' post' parts holds => by
          rw [once other run' post' parts holds]
          exact ⟨isHole, by omega⟩) merges
        split at ok
        · cases ok
          exact .freed first others _ _ (by omega) holes fills
        · rename_i updated
          cases ok
          exact .allocated first others update _ (fun err same => updated err same) (by omega) holes fills
      · cases ok
    · cases ok

theorem MapEnd.error {err : ErrorCode} (ended : MapEnd rl vcn maxCluCount course mapped (.error err)) :
    course.maps = false := by
  cases ended with
  | unchanged err nothing failed => exact failed
  | freed first others filled err bound hole fills => rfl

/-- A call that succeeds returns the clusters that a vcn and those behind it are mapped to. -/
theorem MapEnd.ok {clusters : MappedClusters} (ended : MapEnd rl vcn maxCluCount course mapped (.ok clusters)) :
    course.maps = true ∧ 0 < clusters.count ∧ clusters.count ≤ maxCluCount ∧
      ∃ lcn : Nat, clusters.lcn = lcn ∧ ∀ i < clusters.count, ntfsRlVcnToLcn mapped (vcn + i) = (lcn + i : Nat) := by
  cases ended with
  | found lcn count some_count bound run => exact ⟨rfl, some_count, bound, lcn, rfl, run⟩
  | allocated first others update filled updated bound hole fills =>
    rw [extentClusters_cons] at bound
    refine ⟨?_, first.some_cluster, by dsimp only; omega, first.lcn, rfl, fun i below => ?_⟩
    · cases update with
      | none => rfl
      | some failure =>
        cases failure with
        | none => rfl
        | some err => exact absurd rfl (updated err)
    · have there := fills.maps (vcn + i)
      rw [if_pos (Nat.le_add_right _ _), Nat.add_sub_cancel_left, extentLcn, if_pos below] at there
      exact there

end Calls

end Ttntfs.Ntfs
