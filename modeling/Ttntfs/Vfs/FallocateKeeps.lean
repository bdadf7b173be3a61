import Ttntfs.Vfs.FallocateLoops

/-!
# What preallocation keeps

A file has what it had after it has been preallocated, if all clusters that are allocated below
its initialized size are zeroed before the call returns.
-/

namespace Ttntfs.Vfs

open Ttntfs.Ntfs
open CachedFile

namespace FileData

/-- The call is ended by a signal, without an error. -/
def Interrupted (course : FallocCourse) : Prop :=
  (∃ step ∈ course.holes, step.Interrupts) ∨ ∃ step ∈ course.behind, step.Interrupts

/-- What the passes of both loops allocate. -/
def Allocates (course : FallocCourse) (v : Nat) : Prop :=
  (∃ step ∈ course.holes, step.Allocates v) ∨ ∃ step ∈ course.behind, step.Allocates v

/-- What the passes zero. -/
def Zeroes (f : CachedFile) (course : FallocCourse) (b : Nat) : Prop :=
  ∃ step ∈ course.holes, step.Zeroes f.clusterLength b

/-- A file whose clusters can be allocated: its run list maps it as a whole, up to the end of the
range, and the clusters that the allocator gives are free. -/
structure Ready (f : CachedFile) (start byteLen : Nat) (course : FallocCourse) : Prop where
  whole : ∃ runs terminator, WholeRunlist f.rl runs terminator
  once : MapsOnce f.rl
  reached : bytesToClusterUp f (start + byteLen) ≤ rlClusters f.rl
  fresh : Fresh f.rl (holeExtents course.holes ++ behindExtents course.behind)

/-- What is allocated below the initialized size is zeroed. -/
def ZeroesAll (f : CachedFile) (course : FallocCourse) : Prop :=
  ∀ step ∈ course.holes, ∀ b < f.limit, step.Allocates (b / f.clusterLength) → Zeroes f course b

/-- No signal is pending while clusters of the range are still to be allocated. -/
def Completes (f : CachedFile) (start byteLen : Nat) (course : FallocCourse) : Prop :=
  Interrupted course → ∀ v, start / f.clusterLength ≤ v → v < bytesToClusterUp f (start + byteLen) →
    0 ≤ ntfsRlVcnToLcn f.rl v ∨ Allocates course v

section Clusters

variable {f g : CachedFile} {start byteLen b : Nat} {course : FallocCourse} {err : Option ErrorCode}
  {alloc zeroed : Nat → Prop}

theorem bytesToClusterUp_lt {bytes v : Nat} :
    v < bytesToClusterUp f bytes ↔ v * f.clusterLength < bytes := by
  have size := f.clusterLength_pos
  rw [bytesToClusterUp, Nat.lt_iff_add_one_le, Nat.le_div_iff_mul_le size, Nat.add_mul]
  omega

/-- The loops that allocate clusters: what they have done, that an interruption is no error, and
that all clusters are allocated where there is neither. -/
theorem allocateClusters_passed (ready : Ready f start byteLen course)
    (ok : allocateClusters f start byteLen course = some (g, err)) :
    Progress f (Allocates course) (Zeroes f course) g ∧ (Interrupted course → err = none) ∧
      (∀ step ∈ course.behind, ∀ v, step.Allocates v → f.initializedSize ≤ v * f.clusterLength) ∧
      (err = none → ¬ Interrupted course → ∀ v, start / f.clusterLength ≤ v →
        v < bytesToClusterUp f (start + byteLen) →
        0 ≤ ntfsRlVcnToLcn f.rl v ∨ Allocates course v) := by
  obtain ⟨runs, terminator, whole⟩ := ready.whole
  have reached := ready.reached
  rw [allocateClusters] at ok
  split at ok
  · cases ok
  rename_i loop loops
  split at ok
  · rename_i noRest
    have noRest := List.isEmpty_iff.mp noRest
    have begins : Progress f (fun _ => False) (fun _ => False)
        (FallocState.mk f course.runlistDirty none).file :=
      .start whole ready.once
    obtain ⟨done, parts, passed, ends⟩ := fillHoles_passed begins ready.fresh (by omega) loops
    rw [noRest, List.append_nil] at parts
    subst parts
    have progress : Progress f (fun v => ∃ step ∈ course.holes, step.Allocates v)
        (Zeroes f course) loop.state.file :=
      passed.progress.congr (fun v => by simp) fun b => by simp [Zeroes]
    split at ok
    · -- the first loop is left
      rename_i out
      split at ok
      · rename_i noBehind
        have noBehind := List.isEmpty_iff.mp noBehind
        cases ok
        have interrupted := passed.interrupted out
        refine ⟨progress.congr (fun v => ?_) fun _ => Iff.rfl, fun signal => ?_, ?_,
          fun noError quiet => ?_⟩
        · simp [Allocates, noBehind]
        · simpa [Interrupted, noBehind, interrupted] using signal
        · simp [noBehind]
        · exact absurd (.inl (interrupted.mp noError)) quiet
      · cases ok
    · rename_i stays
      have stays : loop.out = false := by simpa using stays
      obtain ⟨lower, uninit, filled⟩ := ends stays
      have fresh := passed.fresh
      rw [noRest] at fresh
      have above {s' : FallocState} {out : Bool} (place : ∀ step ∈ course.behind,
        loop.vcn ≤ step.vcn)
          (behinds : allocBehind course.rlHint course.behind loop.state loop.vcn
            (bytesToClusterUp f (start + byteLen) - loop.vcn) = some (s', out)) :
          ∀ step ∈ course.behind, ∀ v, step.Allocates v →
            f.initializedSize ≤ v * f.clusterLength := by
        intro step listed v allocates
        have lower := (place step listed).trans allocates.1
        by_contra below
        have early := bytesToClusterUp_lt.mpr (not_le.mp below)
        have nothing : bytesToClusterUp f (start + byteLen) - loop.vcn = 0 := by omega
        rw [nothing] at behinds
        cases steps : course.behind with
        | nil => simp [steps] at listed
        | cons first others =>
          rw [steps, allocBehind] at behinds
          cases behinds
      split at ok
      · cases ok
      · -- the second loop is left
        rename_i s' behinds
        cases ok
        obtain ⟨after, interrupted, place, _⟩ :=
          allocBehind_passed progress fresh (by omega) behinds
        refine ⟨after, ?_, above place behinds, fun noError quiet => ?_⟩
        · rintro (early | late)
          · obtain ⟨step, listed, interrupts⟩ := early
            exact absurd interrupts (passed.uninterrupted stays step listed)
          · exact (interrupted rfl).mpr late
        · exact absurd (.inr ((interrupted rfl).mp noError)) quiet
      · rename_i s' behinds
        cases ok
        obtain ⟨after, _, place, ends⟩ := allocBehind_passed progress fresh (by omega) behinds
        obtain ⟨quiet, others⟩ := ends rfl
        refine ⟨after, ?_, above place behinds, fun _ _ v least most => ?_⟩
        · rintro (⟨step, listed, interrupts⟩ | ⟨step, listed, interrupts⟩)
          · exact absurd interrupts (passed.uninterrupted stays step listed)
          · exact absurd interrupts (quiet step listed)
        · by_cases first : v < loop.vcn
          · rcases filled v least first with mapped | impossible | now
            · exact .inl mapped
            · exact impossible.elim
            · exact .inr (.inl now)
          · have there := others (v - loop.vcn) (by omega)
            rw [Nat.add_sub_cancel' (by omega)] at there
            exact there
  · cases ok

/-- Where all that has been allocated below the limit is zeroed, the device has what it had. -/
theorem Progress.same (progress : Progress f alloc zeroed g)
    (cleared : ∀ b < f.limit, alloc (b / f.clusterLength) → zeroed b) (b : Nat) :
    g.diskByte b = f.diskByte b ∧ (g.address b = none → f.address b = none) := by
  have limit : g.limit = f.limit := by
    rw [CachedFile.limit, CachedFile.limit, progress.size, progress.initializedSize]
  by_cases allocated : alloc (b / f.clusterLength)
  · obtain ⟨hole, real⟩ := progress.filled _ allocated
    have none_before : f.address b = none := address_eq_none.mpr (by
      rw [hole]
      decide)
    refine ⟨?_, fun _ => none_before⟩
    rw [show f.diskByte b = 0 from diskByte_unstored (.inl none_before), diskByte, limit]
    split
    · rename_i inside
      cases mapped : g.address b with
      | none => rfl
      | some a => exact (progress.device b a mapped).1 (cleared b inside allocated)
    · rfl
  · have place := progress.address_others allocated
    refine ⟨?_, fun nothing => place.symm.trans nothing⟩
    rw [diskByte, diskByte, limit, place]
    split
    · cases mapped : f.address b with
      | none => rfl
      | some a =>
        exact (progress.device b a (place.trans mapped)).2 fun cleared =>
          allocated (progress.within b cleared)
    · rfl

theorem Progress.exposed (progress : Progress f alloc zeroed g) (inside : b < f.limit)
    (allocated : alloc (b / f.clusterLength)) (left : ¬ zeroed b) :
    f.diskByte b = 0 ∧ ∃ a, g.diskByte b = f.device a := by
  have limit : g.limit = f.limit := by
    rw [CachedFile.limit, CachedFile.limit, progress.size, progress.initializedSize]
  obtain ⟨hole, real⟩ := progress.filled _ allocated
  refine ⟨diskByte_unstored (.inl (address_eq_none.mpr (by
    rw [hole]
    decide))), ?_⟩
  cases mapped : g.address b with
  | none =>
    have negative := address_eq_none.mp mapped
    rw [progress.unit] at negative
    omega
  | some a =>
    refine ⟨a, ?_⟩
    rw [diskByte, limit, if_pos inside, mapped]
    exact (progress.device b a mapped).2 left

theorem visible_same (cache : g.cache = f.cache) (disk : g.diskByte b = f.diskByte b) :
    g.visible b = f.visible b := by
  rw [CachedFile.visible, CachedFile.visible, cache, disk]

theorem Progress.agree (progress : Progress f alloc zeroed g)
    (cleared : ∀ b < f.limit, alloc (b / f.clusterLength) → zeroed b)
    (agree : f.Agree) : g.Agree := by
  intro index page cached o inside within
  rw [progress.cache] at cached
  rw [progress.size] at within
  have limit : g.limit = f.limit := by
    rw [CachedFile.limit, CachedFile.limit, progress.size, progress.initializedSize]
  obtain ⟨clean, dirty⟩ := agree index page cached o inside within
  obtain ⟨disk, place⟩ := progress.same cleared (index * pageLength + o)
  rw [disk, limit]
  exact ⟨clean, fun isDirty unstored => dirty isDirty (unstored.imp_left place)⟩

end Clusters

/-- A file as it is when nothing goes on: its run list maps it as a whole and covers its size. -/
structure Sound (f : CachedFile) : Prop where
  whole : ∃ runs terminator, WholeRunlist f.rl runs terminator
  once : MapsOnce f.rl
  covered : f.size ≤ rlClusters f.rl * f.clusterLength
  initialized : f.initializedSize ≤ f.size

/-- The run list that `ntfs_attr_truncate` leaves: it maps what was mapped as before, and reaches
the new size. -/
structure Extends (f : CachedFile) (rl : List RunlistElement) (newsize : Nat) : Prop where
  whole : ∃ runs terminator, WholeRunlist rl runs terminator
  once : MapsOnce rl
  reached : newsize ≤ rlClusters rl * f.clusterLength
  same : ∀ v < rlClusters f.rl, ntfsRlVcnToLcn rl v = ntfsRlVcnToLcn f.rl v

/-- The pages agree with the device, and have nothing behind the size. -/
def Settled : FileData → Prop
  | .resident _ => True
  | .nonResident f => f.Agree ∧ ∀ index page, f.cache index = some page →
    ∀ o < pageLength, f.size ≤ index * pageLength + o → page.bytes o = 0

/-- A file is larger, and has zeros there, and else what it had. -/
structure SameBytes (before after : FileData) : Prop where
  settled : Settled after
  larger : before.size ≤ after.size
  kept : ∀ b < before.size, after.visible b = before.visible b
  clear : ∀ b, before.size ≤ b → b < after.size → after.visible b = 0

section Bytes

variable {data before after last : FileData} {f : CachedFile} {rl : List RunlistElement}
  {newsize size b : Nat}
  {r : ResidentValue} {extents : List Extent}

theorem SameBytes.refl (settled : Settled data) : SameBytes data data :=
  ⟨settled, le_refl _, fun _ _ => rfl, fun _ lower upper => absurd upper (not_lt.mpr lower)⟩

theorem SameBytes.trans (first : SameBytes before after) (second : SameBytes after last) :
    SameBytes before last := by
  refine ⟨second.settled, first.larger.trans second.larger, fun b inside => ?_,
    fun b lower upper => ?_⟩
  · rw [second.kept b (inside.trans_le first.larger), first.kept b inside]
  · by_cases inside : b < after.size
    · rw [second.kept b inside, first.clear b lower inside]
    · exact second.clear b (not_lt.mp inside) upper

theorem Settled.flushed (settled : Settled data) (inside : b < data.size) :
    data.flushedByte b = data.visible b := by
  cases data with
  | resident r => rfl
  | nonResident f => exact flushedByte_visible settled.1 inside

/-- A file that is made larger has zeros there, because they are not initialized. -/
theorem grow_bytes (sound : Sound f) (ext : Extends f rl newsize)
    (settled : Settled (.nonResident f)) (larger : f.size ≤ size) :
    SameBytes (.nonResident f) (.nonResident { f with size := size, rl := rl }) := by
  obtain ⟨agree, tails⟩ := settled
  have limit : f.limit = f.initializedSize := min_eq_left sound.initialized
  have limitAfter : ({ f with size := size, rl := rl } : CachedFile).limit = f.initializedSize :=
    min_eq_left (sound.initialized.trans larger)
  have place (b : Nat) (inside : b < f.initializedSize) :
      ({ f with size := size, rl := rl } : CachedFile).address b = f.address b := by
    have cluster : b / f.clusterLength < rlClusters f.rl :=
      (Nat.div_lt_iff_lt_mul f.clusterLength_pos).mpr
        (inside.trans_le (sound.initialized.trans sound.covered))
    have there : ({ f with size := size, rl := rl } : CachedFile).address b = _ :=
      address_of (ext.same _ cluster)
    rw [there]
    rfl
  have disk (b : Nat) :
      ({ f with size := size, rl := rl } : CachedFile).diskByte b = f.diskByte b := by
    rw [diskByte, diskByte, limit, limitAfter]
    split
    · rename_i inside
      rw [place b inside]
    · rfl
  have seen (b : Nat) : ({ f with size := size, rl := rl } : CachedFile).visible b = f.visible b :=
    visible_same rfl (disk b)
  have behind (index : Nat) (page : CachedPage) (cached : f.cache index = some page) (o : Nat)
    (inside : o < pageLength)
      (beyond : f.size ≤ index * pageLength + o) :
        page.bytes o = 0 ∧ f.diskByte (index * pageLength + o) = 0 :=
    ⟨tails index page cached o inside beyond, diskByte_unstored (.inr (by
      rw [limit]
      exact sound.initialized.trans beyond))⟩
  refine ⟨⟨fun index page cached o inside within => ?_,
    fun index page cached o inside beyond => ?_⟩, larger,
    fun b _ => seen b, fun b lower _ => ?_⟩
  · rw [disk, limitAfter]
    by_cases old : index * pageLength + o < f.size
    · obtain ⟨clean, dirty⟩ := agree index page cached o inside old
      rw [limit] at dirty
      refine ⟨clean, fun isDirty unstored => ?_⟩
      by_cases stored : index * pageLength + o < f.initializedSize
      · rw [place _ stored] at unstored
        exact dirty isDirty unstored
      · exact dirty isDirty (.inr (not_lt.mp stored))
    · obtain ⟨zero, diskZero⟩ := behind index page cached o inside (not_lt.mp old)
      exact ⟨fun _ => zero.trans diskZero.symm, fun _ _ => zero⟩
  · exact (behind index page cached o inside (larger.trans beyond)).1
  · change ({ f with size := size, rl := rl } : CachedFile).visible b = 0
    rw [seen, CachedFile.visible]
    cases cached : f.cache (b / pageLength) with
    | none => exact diskByte_unstored (.inr (by rw [limit]; exact sound.initialized.trans lower))
    | some page =>
      refine (behind _ page cached (b % pageLength) (Nat.mod_lt _ (by decide)) ?_).1
      rw [Nat.div_add_mod']
      exact lower

theorem real_extent {v : Nat} (inside : v < extentClusters extents) :
    0 ≤ ntfsRlVcnToLcn (ntfsAttrMakeNonResident r extents).rl v := by
  have lookup : ntfsRlVcnToLcn
      (extentRuns 0 extents ++ [⟨extentClusters extents, lcnEnoent, 0⟩]) v = _ :=
    lookup_runs extentRuns_follow (by rw [extentRuns_clusters, Nat.zero_add]) rfl rfl v
  obtain ⟨lcn, found⟩ := Option.isSome_iff_exists.mp (extentLcn_isSome.mpr inside)
  rw [extentRuns_map, if_pos (Nat.zero_le _), Nat.sub_zero, found] at lookup
  change 0 ≤ ntfsRlVcnToLcn (extentRuns 0 extents ++ [⟨extentClusters extents, lcnEnoent, 0⟩]) v
  rw [lookup]
  exact Int.natCast_nonneg _

/-- A value that is copied into the first page. -/
theorem converted_bytes (short : r.value.length ≤ pageLength)
    (sound : Sound (ntfsAttrMakeNonResident r extents)) :
    SameBytes (.resident r) (.nonResident (ntfsAttrMakeNonResident r extents)) := by
  have pageZero {index : Nat} {page : CachedPage}
    (cached : (ntfsAttrMakeNonResident r extents).cache index = some page) :
      index = 0 ∧ page = ⟨fun o => r.value.getD o 0, true⟩ := by
    simp only [ntfsAttrMakeNonResident] at cached
    split at cached
    · rename_i first
      exact ⟨first.1, (Option.some.inj cached).symm⟩
    · cases cached
  have nothing (o : Nat) (beyond : r.value.length ≤ o) : r.value.getD o 0 = 0 :=
    List.getD_eq_default _ _ beyond
  have limit : (ntfsAttrMakeNonResident r extents).limit = r.value.length := min_self _
  refine ⟨⟨fun index page cached o inside within => ?_,
    fun index page cached o inside beyond => ?_⟩, le_refl _,
    fun b inside => ?_, fun b lower upper => absurd upper (not_lt.mpr lower)⟩
  · obtain ⟨rfl, rfl⟩ := pageZero cached
    refine ⟨nofun, fun _ unstored => ?_⟩
    change 0 * pageLength + o < r.value.length at within
    rw [Nat.zero_mul, Nat.zero_add] at within
    rw [limit, Nat.zero_mul, Nat.zero_add] at unstored
    have cluster : o / (ntfsAttrMakeNonResident r extents).clusterLength <
        extentClusters extents := by
      have covered := sound.covered
      rw [ntfsAttrMakeNonResident, rlClusters_append, extentRuns_clusters] at covered
      exact (Nat.div_lt_iff_lt_mul (ntfsAttrMakeNonResident r extents).clusterLength_pos).mpr
        (within.trans_le covered)
    have mapped := @real_extent r extents _ cluster
    rcases unstored with hole | behind
    · have := address_eq_none.mp hole
      omega
    · omega
  · obtain ⟨rfl, rfl⟩ := pageZero cached
    change r.value.length ≤ 0 * pageLength + o at beyond
    exact nothing o (by omega)
  · change b < r.value.length at inside
    have page : b / pageLength = 0 := Nat.div_eq_of_lt (inside.trans_le short)
    have cached : (ntfsAttrMakeNonResident r extents).cache 0 =
        some ⟨fun o => r.value.getD o 0, true⟩ :=
      if_pos ⟨rfl, (Nat.zero_le _).trans_lt inside⟩
    change (ntfsAttrMakeNonResident r extents).visible b = r.value.getD b 0
    rw [CachedFile.visible, page, cached]
    exact congrArg (fun o => r.value.getD o 0) (Nat.mod_eq_of_lt (inside.trans_le short))

end Bytes

/-- A file that can be preallocated: where `ntfs_attr_truncate` grows it, it is extended, and the
clusters that the allocator gives are free. -/
structure Preallocatable (data : FileData) (offset len : Nat) (keep : Bool)
    (course : FallocCourse) : Prop where
  resident : ∀ r, data = .resident r → r.value.length ≤ pageLength ∧
    (data.size < offset + len → ∀ extents expand, course.truncate = .converted extents expand →
      Sound (ntfsAttrMakeNonResident r extents) ∧
        ∀ rl, expand = .ok rl → Extends (ntfsAttrMakeNonResident r extents) rl (offset + len))
  nonResident : ∀ f, data = .nonResident f → Sound f ∧
    (data.size < offset + len → ∀ rl, course.truncate = .expanded rl → Extends f rl (offset + len))
  fresh : ∀ f, ntfsAttrFallocate.grown data offset len keep course = some (.nonResident f, none) →
    Fresh f.rl (holeExtents course.holes ++ behindExtents course.behind)

/-- All clusters of a range are allocated. A resident value needs none. -/
def AllocatedRange (offset len : Nat) : FileData → Prop
  | .resident _ => True
  | .nonResident f => ∀ v, offset / f.clusterLength ≤ v → v < bytesToClusterUp f (offset + len) →
    0 ≤ ntfsRlVcnToLcn f.rl v

/-- What preallocation promises: whatever fails, the file has what it had, in the cache and on the
device, and where nothing fails, it has its new size, zeros behind the old one, and all clusters of
the range. -/
structure Preallocated (before after : FileData) (offset len : Nat) (keep : Bool)
    (err : Option ErrorCode) : Prop where
  kept : ∀ b < before.size, after.visible b = before.visible b ∧
    after.flushedByte b = before.visible b
  size : err = none → after.size = if keep then before.size else max before.size (offset + len)
  clear : err = none → ∀ b, before.size ≤ b → b < after.size → after.visible b = 0 ∧
    after.flushedByte b = 0
  allocated : err = none → AllocatedRange offset len after

section Growing

variable {data after : FileData} {f : CachedFile} {offset len : Nat} {keep : Bool}
  {course : FallocCourse}
  {err : Option ErrorCode}

theorem bytesToClusterUp_le {bytes n : Nat} (reached : bytes ≤ n * f.clusterLength) :
    bytesToClusterUp f bytes ≤ n := by
  by_contra beyond
  have := bytesToClusterUp_lt.mp (not_le.mp beyond)
  omega

/-- A file that has been extended, with the size that it is to have. -/
theorem extended_bytes {rl : List RunlistElement} (sound : Sound f)
    (ext : Extends f rl (offset + len))
    (settled : Settled (.nonResident f)) (longer : f.size < offset + len)
    (done : err = none → keep = false →
      after = .nonResident { f with size := offset + len, rl := rl })
    (kept : err = none → keep = true → after = .nonResident { f with size := f.size, rl := rl })
    (failed : err ≠ none → after = .nonResident { f with size := offset + len, rl := rl })
    (fresh : ∀ g, after = .nonResident g → err = none →
      Fresh g.rl (holeExtents course.holes ++ behindExtents course.behind)) :
    SameBytes (.nonResident f) after ∧
      (err = none → after.size = if keep then f.size else max f.size (offset + len)) ∧
      ∀ g, after = .nonResident g → err = none → Ready g offset len course ∧
        g.initializedSize ≤ g.size := by
  have sizes : ∃ size, f.size ≤ size ∧ after = .nonResident { f with size := size, rl := rl } ∧
      (err = none → size = if keep then f.size else max f.size (offset + len)) := by
    by_cases noError : err = none
    · cases keep with
      | false => exact ⟨offset + len, longer.le, done noError rfl, fun _ =>
        (max_eq_right longer.le).symm⟩
      | true => exact ⟨f.size, le_refl _, kept noError rfl, fun _ => rfl⟩
    · exact ⟨offset + len, longer.le, failed noError, fun impossible => absurd impossible noError⟩
  obtain ⟨size, bound, rfl, final⟩ := sizes
  refine ⟨grow_bytes sound ext settled bound, final, fun g same noError => ?_⟩
  obtain rfl := FileData.nonResident.inj same
  exact ⟨⟨ext.whole, ext.once, bytesToClusterUp_le ext.reached, fresh _ rfl noError⟩,
    sound.initialized.trans bound⟩

theorem resized_kept (r : ResidentValue) (n : Nat) :
    (keepSize r.value.length (.resident { r with value := r.value ++ List.replicate n 0 })).size =
      r.value.length := by
  simp [keepSize, size]

/-- A value that is made larger has zeros there. -/
theorem resized_bytes (r : ResidentValue) (newsize : Nat) :
    SameBytes (.resident r)
      (.resident { r with value := r.value ++ List.replicate (newsize - r.value.length) 0 }) ∧
      SameBytes (.resident r) (keepSize r.value.length (.resident
        { r with value := r.value ++ List.replicate (newsize - r.value.length) 0 })) := by
  constructor
  · refine ⟨trivial, ?_, fun b inside => ?_, fun b lower upper => ?_⟩
    · simp [size]
    · exact List.getD_append _ _ _ _ inside
    · change (r.value ++ List.replicate (newsize - r.value.length) 0).getD b 0 = 0
      rw [List.getD_append_right _ _ _ _ lower]
      rcases Nat.lt_or_ge (b - r.value.length) (newsize - r.value.length) with inside | beyond
      · rw [List.getD_eq_getElem _ _ (by simpa using inside), List.getElem_replicate]
      · exact List.getD_eq_default _ _ (by simpa using beyond)
  · have same : (r.value ++ List.replicate (newsize - r.value.length) 0).take r.value.length =
      r.value := List.take_left
    simp only [keepSize, same]
    exact .refl trivial

/-- What `ntfs_attr_fallocate` makes of a file before it allocates clusters. -/
theorem grown_bytes (valid : Preallocatable data offset len keep course) (settled : Settled data)
    (ok : ntfsAttrFallocate.grown data offset len keep course = some (after, err)) :
    SameBytes data after ∧
      (err = none → after.size = if keep then data.size else max data.size (offset + len)) ∧
      ∀ f, after = .nonResident f → err = none → Ready f offset len course ∧
        f.initializedSize ≤ f.size := by
  have fresh (g : CachedFile) (same : after = .nonResident g) (noError : err = none) :
      Fresh g.rl (holeExtents course.holes ++ behindExtents course.behind) :=
        valid.fresh g (by rw [ok, same, noError])
  rw [ntfsAttrFallocate.grown] at ok
  by_cases larger : data.size < offset + len
  · rw [if_pos larger] at ok
    cases data with
    | nonResident f =>
      obtain ⟨sound, extend⟩ := valid.nonResident f rfl
      cases how : course.truncate with
      | fails failure =>
        rw [how] at ok
        cases ok
        exact ⟨.refl settled, nofun, nofun⟩
      | resized =>
        rw [how] at ok
        cases ok
      | converted extents expand =>
        rw [how] at ok
        cases ok
      | expanded rl =>
        rw [how] at ok
        refine extended_bytes sound (extend larger rl how) settled larger ?_ ?_ ?_ fresh
        · rintro rfl rfl
          cases ok
          rfl
        · rintro rfl rfl
          simp only [ntfsAttrTruncate, if_true] at ok
          split at ok
          · cases ok
          · cases ok
            rfl
        · intro failed
          simp only [ntfsAttrTruncate] at ok
          split at ok
          · split at ok
            · cases ok
              rfl
            · cases ok
              exact absurd rfl failed
          · cases ok
            exact absurd rfl failed
    | resident r =>
      obtain ⟨short, convert⟩ := valid.resident r rfl
      change r.value.length < offset + len at larger
      cases how : course.truncate with
      | fails failure =>
        rw [how] at ok
        cases ok
        exact ⟨.refl settled, nofun, nofun⟩
      | expanded rl =>
        rw [how] at ok
        cases ok
      | resized =>
        rw [how] at ok
        have grow := resized_bytes r (offset + len)
        simp only [ntfsAttrTruncate] at ok
        split at ok
        · rename_i kept
          split at ok
          · cases ok
            exact ⟨grow.1, nofun, nofun⟩
          · cases ok
            refine ⟨grow.2, fun _ => ?_, nofun⟩
            rw [if_pos kept]
            exact resized_kept r _
        · rename_i unkept
          cases ok
          refine ⟨grow.1, fun _ => ?_, nofun⟩
          rw [if_neg unkept]
          simp only [size, List.length_append, List.length_replicate]
          omega
      | converted extents expand =>
        obtain ⟨sound, extend⟩ := convert larger extents expand how
        have copied := converted_bytes short sound
        rw [how] at ok
        cases expand with
        | error failure =>
          cases ok
          exact ⟨copied, nofun, nofun⟩
        | ok rl =>
          have grow := @extended_bytes after
            (ntfsAttrMakeNonResident r extents) offset len keep course err rl sound
            (extend rl rfl) copied.settled larger (by
              rintro rfl rfl
              cases ok
              rfl) (by
              rintro rfl rfl
              simp only [ntfsAttrTruncate, if_true] at ok
              split at ok
              · cases ok
              · cases ok
                rfl) (by
              intro failed
              simp only [ntfsAttrTruncate] at ok
              split at ok
              · split at ok
                · cases ok
                  rfl
                · cases ok
                  exact absurd rfl failed
              · cases ok
                exact absurd rfl failed) fresh
          exact ⟨copied.trans grow.1, grow.2⟩
  · rw [if_neg larger] at ok
    cases ok
    refine ⟨.refl settled, fun _ => ?_, fun f same _ => ?_⟩
    · split
      · rfl
      · omega
    · subst same
      obtain ⟨sound, _⟩ := valid.nonResident f rfl
      refine ⟨⟨sound.whole, sound.once, bytesToClusterUp_le ?_, fresh _ rfl rfl⟩, sound.initialized⟩
      exact (not_lt.mp larger).trans sound.covered

end Growing

/-- The page behind the old end is to be zeroed in the end, and that fails. -/
def TailFails (data : FileData) (offset : Nat) (keep : Bool) (course : FallocCourse) : Prop :=
  keep = false ∧ data.size < offset ∧ data.size % pageLength ≠ 0 ∧ course.tail ≠ none

/-- What the calls must do for the promise to hold. -/
def Careful (data : FileData) (offset len : Nat) (keep : Bool) (course : FallocCourse) : Prop :=
  course.refused = none → course.prepare = none →
    ∀ f, ntfsAttrFallocate.grown data offset len keep course = some (.nonResident f, none) →
      ZeroesAll f course ∧ (¬ TailFails data offset keep course → Completes f offset len course)

section Promise

variable {data after : FileData} {f g : CachedFile} {offset len : Nat} {keep : Bool}
  {course : FallocCourse}
  {err : Option ErrorCode}

/-- Allocating clusters leaves a file with what it had, if what is allocated is zeroed. -/
theorem allocateClusters_bytes (ready : Ready f offset len course)
    (initialized : f.initializedSize ≤ f.size)
    (settled : Settled (.nonResident f)) (zeroes : ZeroesAll f course)
    (ok : allocateClusters f offset len course = some (g, err)) :
    SameBytes (.nonResident f) (.nonResident g) ∧ g.size = f.size ∧ MapsOnce g.rl ∧
      (err = none → Completes f offset len course →
        AllocatedRange offset len (.nonResident g)) := by
  obtain ⟨progress, _, behind, filled⟩ := allocateClusters_passed ready ok
  have size := f.clusterLength_pos
  have cleared : ∀ b < f.limit, Allocates course (b / f.clusterLength) → Zeroes f course b := by
    rintro b inside (⟨step, listed, allocates⟩ | ⟨step, listed, allocates⟩)
    · exact zeroes step listed b inside allocates
    · have above := behind step listed _ allocates
      have := Nat.div_mul_le_self b f.clusterLength
      have limit : f.limit = f.initializedSize := min_eq_left initialized
      omega
  obtain ⟨agree, tails⟩ := settled
  have seen (b : Nat) : g.visible b = f.visible b :=
    visible_same progress.cache (progress.same cleared b).1
  refine ⟨⟨⟨progress.agree cleared agree, fun index page cached => ?_⟩, progress.size.ge,
    fun b _ => seen b,
    fun b lower upper => ?_⟩, progress.size, progress.once,
      fun noError completes v least most => ?_⟩
  · rw [progress.cache] at cached
    rw [progress.size]
    exact tails index page cached
  · change b < g.size at upper
    rw [progress.size] at upper
    exact absurd upper (not_lt.mpr lower)
  · rw [progress.unit] at least
    have upper : v < bytesToClusterUp f (offset + len) := by
      rw [bytesToClusterUp, progress.unit] at most
      exact most
    have mapped : 0 ≤ ntfsRlVcnToLcn f.rl v ∨ Allocates course v := by
      by_cases interrupted : Interrupted course
      · exact completes interrupted v least upper
      · exact filled noError interrupted v least upper
    by_cases allocated : Allocates course v
    · exact (progress.filled v allocated).2
    · rw [progress.others v allocated]
      exact mapped.resolve_right allocated

/-- `ntfs_attr_fallocate` keeps what a file had. -/
theorem ntfsAttrFallocate_bytes (valid : Preallocatable data offset len keep course)
    (settled : Settled data)
    (zeroes : course.prepare = none →
      ∀ f, ntfsAttrFallocate.grown data offset len keep course = some (.nonResident f, none) →
      ZeroesAll f course)
    (ok : ntfsAttrFallocate data offset len keep course = some (after, err)) :
    SameBytes data after ∧
      (err = none → after.size = if keep then data.size else max data.size (offset + len)) ∧
      (∀ g, after = .nonResident g → err = none → MapsOnce g.rl) ∧
      (err = none → (∀ f, ntfsAttrFallocate.grown data offset len keep course =
        some (.nonResident f, none) →
        Completes f offset len course) → AllocatedRange offset len after) := by
  rw [ntfsAttrFallocate] at ok
  split at ok
  · cases ok
    exact ⟨.refl settled, nofun, nofun, nofun⟩
  rename_i prepared
  split at ok
  · cases ok
  · rename_i grown
    cases ok
    exact ⟨(grown_bytes valid settled grown).1, nofun, nofun, nofun⟩
  · rename_i r grown
    cases ok
    obtain ⟨same, size, _⟩ := grown_bytes valid settled grown
    exact ⟨same, size, nofun, fun _ _ => trivial⟩
  · rename_i f grown
    obtain ⟨same, size, ready⟩ := grown_bytes valid settled grown
    obtain ⟨isReady, initialized⟩ := ready f rfl rfl
    obtain ⟨⟨g, err'⟩, allocates, result⟩ := Option.map_eq_some_iff.mp ok
    cases result
    obtain ⟨later, sizes, once, complete⟩ :=
      allocateClusters_bytes isReady initialized same.settled (zeroes prepared f grown) allocates
    refine ⟨same.trans later, fun noError => sizes.trans (size rfl), fun g' same' _ => ?_,
      fun noError completes =>
      complete noError (completes f grown)⟩
    obtain rfl := FileData.nonResident.inj same'
    exact once

/-- A careful course keeps the promise. -/
theorem preallocated_of_careful (valid : Preallocatable data offset len keep course)
    (settled : Settled data)
    (careful : Careful data offset len keep course)
    (ok : ntfsVfsFallocate data offset len keep course = some (after, err)) :
    Preallocated data after offset len keep err := by
  have refl (err : ErrorCode) : Preallocated data data offset len keep (some err) :=
    ⟨fun b inside => ⟨rfl, settled.flushed inside⟩, nofun, nofun, nofun⟩
  rw [ntfsVfsFallocate] at ok
  split at ok
  · cases ok
    exact refl _
  rename_i accepted
  have shape (mid : FileData) (err' : Option ErrorCode)
      (called : ntfsAttrFallocate data offset len keep course = some (mid, err')) :=
    ntfsAttrFallocate_bytes valid settled (fun prepared f grown =>
      (careful accepted prepared f grown).1) called
  have promise (mid : FileData) (err' : Option ErrorCode)
    (called : ntfsAttrFallocate data offset len keep course = some (mid, err'))
      (quiet : err' = none → ∀ g, mid = .nonResident g → ¬ TailFails data offset keep course) :
      Preallocated data mid offset len keep err' := by
    obtain ⟨same, size, _, complete⟩ := shape mid err' called
    refine ⟨fun b inside => ⟨same.kept b inside, ?_⟩, size, fun _ b lower upper =>
      ⟨same.clear b lower upper, ?_⟩,
      fun noError => complete noError fun f grown => ?_⟩
    · rw [same.settled.flushed (inside.trans_le same.larger), same.kept b inside]
    · rw [same.settled.flushed upper, same.clear b lower upper]
    · have prepared : course.prepare = none := by
        by_contra failed
        obtain ⟨failure, prepare⟩ := Option.ne_none_iff_exists'.mp failed
        rw [ntfsAttrFallocate, prepare] at called
        cases called
        cases noError
      by_cases located : ∃ g, mid = .nonResident g
      · obtain ⟨g, isFile⟩ := located
        exact (careful accepted prepared f grown).2 (quiet noError g isFile)
      · rw [ntfsAttrFallocate, prepared, grown] at called
        obtain ⟨result, _, same⟩ := Option.map_eq_some_iff.mp called
        cases same
        exact absurd ⟨_, rfl⟩ located
  split at ok
  · rename_i f called
    obtain ⟨same, size, once, complete⟩ := shape _ _ called
    dsimp only at ok
    by_cases behind : keep = false ∧ data.size < offset ∧ data.size % pageLength ≠ 0
    · rw [if_pos behind] at ok
      split at ok
      · -- the page behind the old end cannot be zeroed
        cases ok
        exact ⟨fun b inside => ⟨same.kept b inside, by
          rw [same.settled.flushed (inside.trans_le same.larger), same.kept b inside]⟩,
            nofun, nofun, nofun⟩
      rename_i zeroed
      cases ok
      have whole := promise _ _ called fun _ _ _ fails => fails.2.2.2 zeroed
      have shows_ := zeroRange_shows (once f rfl rfl) same.settled.1 data.size
        (data.size + min (pageLength - data.size % pageLength) (offset - data.size))
      have sizes : ∀ b, b < f.size → _ := fun b inside => shows_.shown b inside
      have flushed (b : Nat) (inside : b < f.size) := flushedByte_visible shows_.agree
        (by rw [shows_.layout.size]; exact inside : b < (f.ntfsVfsZeroRange data.size
          (data.size + min (pageLength - data.size % pageLength) (offset - data.size))).size)
      refine ⟨fun b inside => ?_, fun _ => ?_, fun _ b lower upper => ?_, fun _ => ?_⟩
      · have within : b < f.size := inside.trans_le same.larger
        have seen := sizes b within
        rw [if_neg (by omega)] at seen
        exact ⟨seen.trans (same.kept b inside),
          (flushed b within).trans (seen.trans (same.kept b inside))⟩
      · exact shows_.layout.size.trans (whole.size rfl)
      · have within : b < f.size := by
          rw [← shows_.layout.size]
          exact upper
        have seen := sizes b within
        have zero : (f.ntfsVfsZeroRange data.size
            (data.size + min (pageLength - data.size % pageLength)
              (offset - data.size))).visible b = 0 := by
          rw [seen]
          split
          · rfl
          · exact same.clear b lower within
        exact ⟨zero, (flushed b within).trans zero⟩
      · have all := whole.allocated rfl
        intro v least most
        have unit : (f.ntfsVfsZeroRange data.size
            (data.size + min (pageLength - data.size % pageLength)
              (offset - data.size))).clusterLength =
            f.clusterLength := by rw [clusterLength, clusterLength, shows_.layout.clusterBits]
        rw [unit] at least
        rw [bytesToClusterUp, unit] at most
        rw [shows_.layout.rl]
        exact all v least most
    · rw [if_neg behind] at ok
      cases ok
      exact promise _ _ called fun _ _ _ fails => behind ⟨fails.1, fails.2.1, fails.2.2.1⟩
  · rename_i other
    exact promise after err ok fun noError g isFile _ => other g (by rw [ok, noError, isFile])

end Promise

end FileData

end Ttntfs.Vfs
