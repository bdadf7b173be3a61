import Ttntfs.Ntfs.MapCluster
import Ttntfs.Vfs.PwriteInPlace

/-!
# Preallocation

`ntfs_attr_fallocate` grows an attribute, allocates the holes of a range and zeroes those of
them that lie below the initialized size. Behind it, clusters are only allocated, because
nothing is read there. How the calls go that can fail is given by a course. Where the course
is not one of the call, there is no result.

Outside stay the bitmap from which the clusters come, the mapping pairs and the sizes in the
record, compressed and encrypted attributes, which are refused before, and the locks.
-/

namespace Ttntfs.Vfs

open Ttntfs.Ntfs
open CachedFile

/-- A stream whose value is in its record. -/
structure ResidentValue where
  clusterBits : Nat
  value : List UInt8
  device : Nat → UInt8

/-- The data of a file. -/
inductive FileData where
  | resident (r : ResidentValue)
  | nonResident (f : CachedFile)

namespace FileData

/-- The data size. -/
def size : FileData → Nat
  | resident r => r.value.length
  | nonResident f => f.size

/-- A byte as a reader sees it. -/
def visible : FileData → Nat → UInt8
  | resident r, b => r.value.getD b 0
  | nonResident f, b => f.visible b

/-- A byte as a reader sees it once the dirty pages are written and dropped. -/
def flushedByte : FileData → Nat → UInt8
  | resident r, b => r.value.getD b 0
  | nonResident f, b => f.flushedByte b

/-- How `ntfs_attr_truncate` grows an attribute. The run list that it leaves ends with a hole or
with clusters for the new size. -/
inductive TruncateCourse where
  | fails (err : ErrorCode)
  | resized
  | expanded (rl : List RunlistElement)
  | converted (extents : List Extent) (expand : Except ErrorCode (List RunlistElement))

/-- `ntfs_attr_make_non_resident`. The value is in the first page, which is dirty. -/
def ntfsAttrMakeNonResident (r : ResidentValue) (extents : List Extent) : CachedFile where
  clusterBits := r.clusterBits
  size := r.value.length
  initializedSize := r.value.length
  rl := extentRuns 0 extents ++ [⟨extentClusters extents, lcnEnoent, 0⟩]
  device := r.device
  cache := fun index =>
    if index = 0 ∧ 0 < r.value.length then some ⟨fun o => r.value.getD o 0, true⟩ else none

/-- `ntfs_attr_truncate` to a larger size. -/
def ntfsAttrTruncate (data : FileData) (newsize : Nat) (course : TruncateCourse) :
    Option (FileData × Option ErrorCode) :=
  match data, course with
  | data, .fails err => some (data, some err)
  | .resident r, .resized =>
    some (.resident { r with value := r.value ++ List.replicate (newsize - r.value.length) 0 },
      none)
  | .resident r, .converted extents expand =>
    let f := ntfsAttrMakeNonResident r extents
    match expand with
    | .error err => some (.nonResident f, some err)
    | .ok rl => some (.nonResident { f with size := newsize, rl := rl }, none)
  | .nonResident f, .expanded rl => some (.nonResident { f with size := newsize, rl := rl }, none)
  | _, _ => none

/-- The old size is put back into the attribute. -/
def keepSize (oldDataSize : Nat) : FileData → FileData
  | .resident r => .resident { r with value := r.value.take oldDataSize }
  | .nonResident f => .nonResident { f with size := oldDataSize }

/-- A pass of the loop that fills a hole: how `ntfs_attr_map_cluster` goes, whether
`ntfs_dio_zero_range` fails and how much it has written before, and whether a signal is
pending then. -/
structure HoleStep where
  vcn : Nat
  count : Nat
  map : MapCourse
  zero : Option (ErrorCode × Nat)
  signal : Bool

/-- How much of its clusters a pass zeroes. -/
def HoleStep.zeroed (step : HoleStep) (clusterLength : Nat) : Nat :=
  match step.zero with
  | none => step.count * clusterLength
  | some (_, done) => min done (step.count * clusterLength)

/-- A pass of the loop that allocates behind the initialized size. -/
structure BehindStep where
  vcn : Nat
  map : MapCourse
  signal : Bool

/-- What the loops change. -/
structure FallocState where
  file : CachedFile
  runlistDirty : Bool
  err : Option ErrorCode

/-- How a loop ends: with `goto out` or behind a vcn, and the passes that are left. -/
structure LoopEnd where
  state : FallocState
  vcn : Nat
  out : Bool
  rest : List HoleStep

/-- Where the mapping pairs have not been updated. -/
def leavesDirty : MapCourse → Bool
  | .allocated _ _ none => true
  | _ => false

/-- Bytes of the device are zeroed. -/
def zeroDevice (f : CachedFile) (first count : Nat) : CachedFile :=
  { f with device := fun a => if first ≤ a ∧ a < first + count then 0 else f.device a }

/-- Another run list. -/
def FallocState.withRunlist (s : FallocState) (rl : List RunlistElement) : FallocState :=
  { s with file := { s.file with rl := rl } }

/-- What a pass does once it has its clusters. An error of `ntfs_dio_zero_range` is kept, but the
loop goes on, because only a positive one ends it. -/
def FallocState.zeroStep (s : FallocState) (step : HoleStep) (rl : List RunlistElement)
    (lcn : Int) : FallocState where
  file := zeroDevice { s.file with rl := rl } (lcn.toNat * s.file.clusterLength)
    (step.zeroed s.file.clusterLength)
  runlistDirty := s.runlistDirty || leavesDirty step.map
  err := step.zero.map Prod.fst

/-- The loop that fills a hole. -/
def fillHole (rlHint : Nat → Nat) : List HoleStep → FallocState → Nat → Nat → Option LoopEnd
  | steps, s, vcn, 0 => some ⟨s, vcn, false, steps⟩
  | [], _, _, _ + 1 => none
  | step :: steps, s, vcn, n + 1 =>
    if step.vcn = vcn then
      match Ntfs.ntfsAttrMapCluster s.file.rl (rlHint vcn) vcn (n + 1) false step.map with
      | none => none
      | some (rl, .error err) => some ⟨{ s.withRunlist rl with err := some err }, vcn, true, steps⟩
      | some (rl, .ok mapped) =>
        if step.count = mapped.count then
          if step.signal then some ⟨s.zeroStep step rl mapped.lcn, vcn, true, steps⟩
          else fillHole rlHint steps (s.zeroStep step rl mapped.lcn) (vcn + mapped.count)
            (n + 1 - mapped.count)
        else none
    else none

/-- The loop over the runs below the initialized size. -/
def fillHoles (rlHint : Nat → Nat) (vcnUninit : Nat) (steps : List HoleStep)
    (s : FallocState) (vcn : Nat) :
    Option LoopEnd :=
  if vcn < vcnUninit then
    match ntfsAttrFindVcn s.file.rl (rlHint vcn) vcn with
    | none => some ⟨{ s with err := some codeNoent }, vcn, true, steps⟩
    | some i =>
      let run := elementAt s.file.rl i
      let behind := vcn + (run.length - (vcn - run.vcn))
      let tryAllocCnt := min (run.length - (vcn - run.vcn)) (vcnUninit - vcn)
      if 0 < run.lcn then
        if vcn < behind then fillHoles rlHint vcnUninit steps s behind else none
      else if run.lcn = lcnDelalloc then
        if 0 < tryAllocCnt then fillHoles rlHint vcnUninit steps s (vcn + tryAllocCnt) else none
      else if run.lcn = lcnHole then
        match fillHole rlHint steps s vcn tryAllocCnt with
        | none => none
        | some loop =>
          if loop.out then some loop
          else if vcn < loop.vcn then fillHoles rlHint vcnUninit loop.rest loop.state loop.vcn
          else none
      else some ⟨{ s with err := some codeIo }, vcn, true, steps⟩
  else some ⟨s, vcn, false, steps⟩
termination_by vcnUninit - vcn
decreasing_by
  · rename_i further
    dsimp only [behind, run] at further
    omega
  · rename_i further
    dsimp only [tryAllocCnt, run] at further
    omega
  · omega

/-- What a pass of the second loop does once it has its clusters. -/
def FallocState.allocStep (s : FallocState) (step : BehindStep) (rl : List RunlistElement) :
    FallocState where
  file := { s.file with rl := rl }
  runlistDirty := s.runlistDirty || leavesDirty step.map
  err := none

/-- The loop that allocates clusters outside of the initialized size, and whether it ends with
`goto out`. -/
def allocBehind (rlHint : Nat → Nat) : List BehindStep → FallocState → Nat → Nat → Option
    (FallocState × Bool)
  | [], s, _, 0 => some (s, false)
  | _ :: _, _, _, 0 => none
  | [], _, _, _ + 1 => none
  | step :: steps, s, vcn, n + 1 =>
    if step.vcn = vcn then
      match Ntfs.ntfsAttrMapCluster s.file.rl (rlHint vcn) vcn (n + 1) false step.map with
      | none => none
      | some (rl, .error err) =>
        if steps.isEmpty then some ({ s.withRunlist rl with err := some err }, true) else none
      | some (rl, .ok mapped) =>
        if step.signal then if steps.isEmpty then some (s.allocStep step rl, true) else none
        else allocBehind rlHint steps (s.allocStep step rl) (vcn + mapped.count)
          (n + 1 - mapped.count)
    else none

/-- How the calls in `ntfs_vfs_fallocate` go. -/
structure FallocCourse where
  refused : Option ErrorCode
  prepare : Option ErrorCode
  truncate : TruncateCourse
  lookupAgain : Option ErrorCode
  rlHint : Nat → Nat
  runlistDirty : Bool
  holes : List HoleStep
  behind : List BehindStep
  update : Option ErrorCode
  tail : Option ErrorCode

/-- The last cluster of a range, rounded up. -/
def bytesToClusterUp (f : CachedFile) (bytes : Nat) : Nat :=
  (bytes + f.clusterLength - 1) / f.clusterLength

/-- The part of `ntfs_attr_fallocate` that allocates clusters. -/
def allocateClusters (f : CachedFile) (start byteLen : Nat) (course : FallocCourse) :
    Option (CachedFile × Option ErrorCode) :=
  let vcnStart := start / f.clusterLength
  let vcnEnd := bytesToClusterUp f (start + byteLen)
  let vcnUninit := min (bytesToClusterUp f f.initializedSize) vcnEnd
  match fillHoles course.rlHint vcnUninit course.holes ⟨f, course.runlistDirty, none⟩ vcnStart with
  | none => none
  | some loop =>
    if loop.rest.isEmpty then
      if loop.out then if course.behind.isEmpty then some (loop.state.file,
        loop.state.err) else none
      else
        match allocBehind course.rlHint course.behind loop.state loop.vcn (vcnEnd - loop.vcn) with
        | none => none
        | some (s, true) => some (s.file, s.err)
        | some (s, false) => some (s.file, if s.runlistDirty then course.update else s.err)
    else none

/-- `ntfs_attr_fallocate` -/
def ntfsAttrFallocate (data : FileData) (start byteLen : Nat) (keep : Bool)
    (course : FallocCourse) :
    Option (FileData × Option ErrorCode) :=
  match course.prepare with
  | some err => some (data, some err)
  | none =>
    match grown with
    | none => none
    | some (data, some err) => some (data, some err)
    | some (.resident r, none) => some (.resident r, none)
    | some (.nonResident f, none) => (allocateClusters f start byteLen course).map fun (f, err) =>
      (.nonResident f, err)
where
  grown : Option (FileData × Option ErrorCode) :=
    if data.size < start + byteLen then
      match ntfsAttrTruncate data (start + byteLen) course.truncate with
      | none => none
      | some (larger, some err) => some (larger, some err)
      | some (larger, none) =>
        if keep then
          match course.lookupAgain with
          | some _ => some (larger, some codeIo)
          | none => some (keepSize data.size larger, none)
        else some (larger, none)
    else some (data, none)

/-- `ntfs_vfs_fallocate` without `FALLOC_FL_PUNCH_HOLE`. -/
def ntfsVfsFallocate (data : FileData) (offset len : Nat) (keep : Bool) (course : FallocCourse) :
    Option (FileData × Option ErrorCode) :=
  match course.refused with
  | some err => some (data, some err)
  | none =>
    match ntfsAttrFallocate data offset len keep course with
    | some (.nonResident f, none) =>
      let oldSize := data.size
      if keep = false ∧ oldSize < offset ∧ oldSize % pageLength ≠ 0 then
        match course.tail with
        | some err => some (.nonResident f, some err)
        | none =>
          let zlen := min (pageLength - oldSize % pageLength) (offset - oldSize)
          some (.nonResident (f.ntfsVfsZeroRange oldSize (oldSize + zlen)), none)
      else some (.nonResident f, none)
    | result => result

end FileData

end Ttntfs.Vfs
