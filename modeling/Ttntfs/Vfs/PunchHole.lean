import Ttntfs.Ntfs.LcnBitmap
import Ttntfs.Vfs.CachedFile

/-!
# Punching a hole into a file

`ntfs_punch_hole` writes the pages from the range on and drops them, zeroes the parts of
clusters at the ends of the range through the page cache, and takes the clusters between
them out of the run list. Where clusters are smaller than a page, the page that an end is
zeroed in has bytes of such clusters. It stays in the cache with what they held. An empty
range puts a hole without clusters into the run list, behind which nothing is found.

Resident, compressed and encrypted files stay outside, as does the time stamp. Freeing the
clusters and updating the mapping pairs on the volume are steps that fail or do not.
-/

namespace Ttntfs.Vfs

open Ttntfs.Ntfs
open CachedFile

/-- `-EROFS` -/
def codeRofs : ErrorCode := ⟨-30, by decide⟩
/-- `-EOPNOTSUPP` -/
def codeOpnotsupp : ErrorCode := ⟨-95, by decide⟩

/-- What the checks of `ntfs_vfs_fallocate` and `ntfs_punch_hole` meet, and which steps fail. -/
structure PunchCourse where
  shutdown : Bool
  readOnly : Bool
  regular : Bool
  zoneEmpty : Bool
  mapRunlist : Option ErrorCode
  setDirty : Option ErrorCode
  compressedOrEncrypted : Bool
  sparseDisabled : Bool
  flush : Option ErrorCode
  headZero : Option ErrorCode
  tailZero : Option ErrorCode
  unnamedData : Bool
  someMemory : Bool
  updatePairs : Option ErrorCode
  freeClusters : Option ErrorCode

/-- A step fails or goes on. -/
def unlessFailed {α : Type} (failure : Option ErrorCode) (next : Except ErrorCode α) :
    Except ErrorCode α :=
  match failure with
  | some err => .error err
  | none => next

/-- `ntfs_non_resident_attr_punch_hole`. The run list maps all of `allocated_size`. -/
def ntfsNonResidentAttrPunchHole (f : CachedFile) (course : PunchCourse) (startVcn len : Nat) :
    Except ErrorCode CachedFile :=
  if ¬ course.unnamedData then .error codeOpnotsupp
  else
    let endVcn := rlClusters f.rl
    if endVcn ≤ startVcn then .error codeInval
    else
      let len := min len (endVcn - startVcn + 1)
      if (ntfsRlFindVcnNolock f.rl startVcn).isNone then .error codeIo
      else
        match ntfsRlPunchHole course.someMemory f.rl startVcn len with
        | .punched newRl _ newRlCnt =>
          unlessFailed course.updatePairs
            (unlessFailed course.freeClusters (.ok { f with rl := newRl.take newRlCnt }))
        | .enomem => .error codeNomem
        | .overrun =>
          unlessFailed course.updatePairs
            (unlessFailed course.freeClusters (.ok { f with rl := emptyHoleRl f.rl startVcn }))
        | _ => .error codeInval

/-- The part of a cluster at an end of the range is zeroed, as far as it is initialized. -/
def zeroEdge (f : CachedFile) (pos stop : Nat) : CachedFile :=
  if pos < f.initializedSize then f.ntfsVfsZeroRange pos stop else f

/-- `ntfs_punch_hole` from the zeroing of the last cluster on. -/
def punchTail (f : CachedFile) (course : PunchCourse) (endOffset startVcn endVcn : Nat) :
    Except ErrorCode CachedFile :=
  if endOffset % f.clusterLength ≠ 0 then
    unlessFailed course.tailZero
      (if endVcn - startVcn = 1 then .ok (zeroEdge f ((endVcn - 1) * f.clusterLength) endOffset)
       else
        ntfsNonResidentAttrPunchHole
          (zeroEdge f ((endVcn - 1) * f.clusterLength) endOffset) course startVcn
          (endVcn - 1 - startVcn))
  else ntfsNonResidentAttrPunchHole f course startVcn (endVcn - startVcn)

/-- The end of the range within the file. -/
def punchEnd (f : CachedFile) (offset len : Nat) : Nat :=
  if f.size < offset + len then f.size else offset + len

/-- `filemap_write_and_wait_range` and `truncate_pagecache` from an offset on. No page behind the
end of the file is cached. -/
def flushFrom (f : CachedFile) (offset : Nat) : CachedFile :=
  (f.writePages (offset / pageLength) (f.size / pageLength + 1 - offset / pageLength)).dropFrom
    (offset / pageLength)

/-- `ntfs_punch_hole` -/
def ntfsPunchHole (f : CachedFile) (course : PunchCourse) (offset len : Nat) :
    Except ErrorCode CachedFile :=
  let unit := max f.clusterLength pageLength
  let offsetDown := offset / unit * unit
  if course.sparseDisabled then .error codeOpnotsupp
  else if f.size ≤ offset then .ok f
  else
    let endOffset := punchEnd f offset len
    unlessFailed course.flush
      (let f := flushFrom f offsetDown
       let startVcn := offset / f.clusterLength
       -- -1 is shifted to -1
       let endVcn := if endOffset = 0 then 0 else (endOffset - 1) / f.clusterLength + 1
       if offset % f.clusterLength ≠ 0 then
        unlessFailed course.headZero
          (let f := zeroEdge f offset (min ((startVcn + 1) * f.clusterLength) endOffset)
           if endVcn - startVcn = 1 then .ok f else punchTail f course endOffset
             (startVcn + 1) endVcn)
       else punchTail f course endOffset startVcn endVcn)

/-- `ntfs_vfs_fallocate` with `FALLOC_FL_PUNCH_HOLE` and `FALLOC_FL_KEEP_SIZE`. -/
def ntfsVfsFallocatePunch (f : CachedFile) (course : PunchCourse) (offset len : Nat) :
    Except ErrorCode CachedFile :=
  if course.shutdown then .error codeIo
  else if course.readOnly then .error codeRofs
  else if ¬ course.regular then .error codeInval
  else if course.zoneEmpty then .error codeNospc
  else
    unlessFailed course.mapRunlist
      (unlessFailed course.setDirty
        (if course.compressedOrEncrypted then .error codeOpnotsupp else ntfsPunchHole f
          course offset len))

/-- A file whose run list has no delayed run and numbers its clusters with 63 bits. -/
structure Punchable (f : CachedFile) : Prop extends Valid f where
  words : rlClusters f.rl < 2 ^ 63
  ordinary : ∀ element ∈ f.rl, element.lcn ≠ lcnDelalloc

/-- A byte of a file behind the punching of a range. -/
def punchedByte (f : CachedFile) (offset len b : Nat) : UInt8 :=
  if offset ≤ b ∧ b < offset + len then 0 else f.visible b

/-- The range reads as zeros and the rest as before, from the cache and from the device once the
pages are written, and the size is the same. -/
structure PunchedExactly (f f' : CachedFile) (offset len : Nat) : Prop where
  size : f'.size = f.size
  cached : ∀ b < f.size, f'.visible b = punchedByte f offset len b
  onDisk : ∀ b < f.size, (f'.writePages 0 (f.size / pageLength + 1)).diskByte b =
    punchedByte f offset len b

/-- A byte of a cluster that the range has all of. -/
def WholeCluster (f : CachedFile) (offset len b : Nat) : Prop :=
  offset ≤ b / f.clusterLength * f.clusterLength ∧
    (b / f.clusterLength + 1) * f.clusterLength ≤ punchEnd f offset len

instance {f : CachedFile} {offset len b : Nat} : Decidable (WholeCluster f offset len b) :=
  inferInstanceAs (Decidable (_ ∧ _))

/-- A byte of the page that the beginning of the range is zeroed in. -/
def OnHeadPage (f : CachedFile) (offset b : Nat) : Prop :=
  offset % f.clusterLength ≠ 0 ∧ offset < f.initializedSize ∧ b / pageLength = offset / pageLength

/-- A byte of the page that the end of the range is zeroed in. -/
def OnTailPage (f : CachedFile) (offset len b : Nat) : Prop :=
  punchEnd f offset len % f.clusterLength ≠ 0 ∧
    punchEnd f offset len / f.clusterLength * f.clusterLength < f.initializedSize ∧
    b / pageLength = punchEnd f offset len / f.clusterLength * f.clusterLength / pageLength

/-- The pages that the ends of the range are zeroed in hold nothing but zeros of the clusters that
the range has all of. -/
def EdgesClear (f : CachedFile) (offset len : Nat) : Prop :=
  ∀ b < f.size, WholeCluster f offset len b → OnHeadPage f offset b ∨
    OnTailPage f offset len b → f.visible b = 0

/-- An empty range that begins with a cluster between two runs takes all behind it for a hole; there
are only zeros. -/
def EmptyHarmless (f : CachedFile) (offset : Nat) : Prop :=
  offset % f.clusterLength = 0 → BetweenRuns f.rl (offset / f.clusterLength) →
    ∀ b, offset ≤ b → b < f.size → f.visible b = 0

/-- The first cluster that the range has all of, if it has one. -/
def firstWhole (f : CachedFile) (offset : Nat) : Nat :=
  if offset % f.clusterLength ≠ 0 then offset / f.clusterLength + 1 else offset / f.clusterLength

section Clusters

variable {f : CachedFile} {offset len b n unit : Nat}

theorem last_cluster (size : 0 < unit) (some_byte : 0 < n) :
    (n % unit ≠ 0 → (n - 1) / unit = n / unit) ∧
      (n % unit = 0 → (n - 1) / unit + 1 = n / unit) := by
  have parts := Nat.div_add_mod' n unit
  have bound := Nat.mod_lt n size
  constructor
  · intro middle
    refine Nat.div_eq_of_lt_le (by omega) ?_
    rw [Nat.succ_mul]
    omega
  · intro whole
    have more : 0 < n / unit := Nat.div_pos (by
      by_contra small
      rw [Nat.div_eq_of_lt (by omega), Nat.zero_mul] at parts
      omega) size
    obtain ⟨k, count⟩ : ∃ k, n / unit = k + 1 := ⟨n / unit - 1, by omega⟩
    rw [count, Nat.succ_mul] at parts
    rw [count, Nat.add_right_cancel_iff]
    refine Nat.div_eq_of_lt_le (by omega) ?_
    rw [Nat.succ_mul]
    omega

theorem firstWhole_bounds (f : CachedFile) (offset : Nat) :
    offset ≤ firstWhole f offset * f.clusterLength ∧
    firstWhole f offset * f.clusterLength < offset + f.clusterLength ∧
    (offset % f.clusterLength = 0 → firstWhole f offset * f.clusterLength = offset) := by
  have size := f.clusterLength_pos
  have parts := Nat.div_add_mod' offset f.clusterLength
  have bound := Nat.mod_lt offset size
  rw [firstWhole]
  split
  · rw [Nat.succ_mul]
    exact ⟨by omega, by omega, fun whole => by omega⟩
  · exact ⟨by omega, by omega, fun _ => by omega⟩

theorem wholeCluster_iff : WholeCluster f offset len b ↔
    firstWhole f offset * f.clusterLength ≤ b ∧
      b < punchEnd f offset len / f.clusterLength * f.clusterLength := by
  have size := f.clusterLength_pos
  obtain ⟨lower, upper, _⟩ := firstWhole_bounds f offset
  rw [WholeCluster, ← Nat.le_div_iff_mul_le size, ← Nat.div_lt_iff_lt_mul size,
    ← Nat.le_div_iff_mul_le size]
  refine and_congr ⟨fun begins => ?_, fun begins => ?_⟩ Iff.rfl
  · by_contra before
    have : (b / f.clusterLength + 1) * f.clusterLength ≤ firstWhole f offset * f.clusterLength :=
      Nat.mul_le_mul_right _ (by omega)
    rw [Nat.succ_mul] at this
    omega
  · exact lower.trans (Nat.mul_le_mul_right _ begins)

theorem punchEnd_le : punchEnd f offset len ≤ f.size := by
  rw [punchEnd]
  split <;> omega

theorem punchEnd_after (inside : offset < f.size) (some_byte : 0 < len) :
    offset < punchEnd f offset len := by
  rw [punchEnd]
  split <;> omega

theorem punchedByte_end (inside : b < f.size) :
    punchedByte f offset len b =
      if offset ≤ b ∧ b < punchEnd f offset len then 0 else f.visible b := by
  rw [punchedByte]
  refine if_congr ?_ rfl rfl
  rw [punchEnd]
  split <;> omega

end Clusters

section Edges

variable {f g : CachedFile} {offset len pos stop index b : Nat}

/-- No reader sees a difference when the pages from an offset on are written and dropped, and they
are gone. -/
theorem flushFrom_shows (once : MapsOnce f.rl) (agree : f.Agree) (offset : Nat) :
    Shows f (flushFrom f offset) f.visible ∧
      ∀ index, offset / pageLength ≤ index → (flushFrom f offset).cache index = none := by
  have written := writePages_shows once agree (offset / pageLength)
    (f.size / pageLength + 1 - offset / pageLength)
  have dropped := @drop_shows _ (fun index => offset / pageLength ≤ index) _ written.agree
    fun index page from_there within cached => by
    refine writePages_clean ⟨from_there, ?_⟩ cached
    rw [written.layout.size] at within
    have : index ≤ f.size / pageLength := (Nat.le_div_iff_mul_le (by decide)).mpr within.le
    omega
  refine ⟨(written.trans dropped).congr written.shown, fun index from_there => ?_⟩
  rw [flushFrom, dropFrom]
  exact if_pos from_there

theorem zeroEdge_shows (once : MapsOnce f.rl) (agree : f.Agree) (pos stop : Nat) :
    Shows f (zeroEdge f pos stop) fun b => if pos ≤ b ∧ b < stop then 0 else f.visible b := by
  rw [zeroEdge]
  split
  · exact zeroRange_shows once agree pos stop
  rename_i behind
  refine ⟨.refl f, agree, fun b inside => ?_⟩
  split
  · refine visible_behind agree inside ?_
    have := min_le_left f.initializedSize f.size
    rw [CachedFile.limit]
    omega
  · rfl

theorem zeroEdge_cached (once : MapsOnce f.rl) (agree : f.Agree)
    (cached : ((zeroEdge f pos stop).cache index).isSome = true) :
    (f.cache index).isSome = true ∨ pos < f.initializedSize ∧ pos / pageLength ≤ index ∧
      index * pageLength < stop := by
  rw [zeroEdge] at cached
  split at cached
  · rename_i initialized
    exact (zeroRange_cached once agree pos stop cached).imp_right fun place => ⟨initialized, place⟩
  · exact .inl cached

theorem zeroEdge_keeps (before : index * pageLength < pos)
    (cached : (f.cache index).isSome = true) :
    ((zeroEdge f pos stop).cache index).isSome = true := by
  rw [zeroEdge]
  split
  · exact zeroRange_keeps before cached
  · exact cached

theorem zeroEdge_page (initialized : pos < f.initializedSize) (some_byte : pos < stop)
    (part : stop - pos < pageLength) (within : pos % pageLength + (stop - pos) ≤ pageLength) :
    ((zeroEdge f pos stop).cache (pos / pageLength)).isSome = true := by
  rw [zeroEdge, if_pos initialized, zeroRange_within some_byte part within, editPage_cached]
  exact .inl rfl

/-- Both lengths are powers of two, so that one divides the other. -/
theorem cluster_or_page (f : CachedFile) :
    f.clusterLength ∣ pageLength ∨ pageLength ∣ f.clusterLength := by
  have page : pageLength = 2 ^ 12 := rfl
  rw [page, clusterLength]
  exact (Nat.le_total f.clusterBits 12).imp (Nat.pow_dvd_pow 2) (Nat.pow_dvd_pow 2)

theorem CachedFile.SameLayout.clusterLength (same : SameLayout f g) :
    g.clusterLength = f.clusterLength := by
  rw [CachedFile.clusterLength, CachedFile.clusterLength, same.clusterBits]

/-- A state in which the beginning of the range is zeroed and the pages behind it are not cached. -/
structure HeadDone (f g : CachedFile) (offset stop : Nat) : Prop where
  shows : Shows f g fun b =>
    if offset ≤ b ∧ b < min (firstWhole f offset * f.clusterLength) stop then 0 else f.visible b
  cached : ∀ b, firstWhole f offset * f.clusterLength ≤ b →
    ((g.cache (b / pageLength)).isSome = true ↔ OnHeadPage f offset b)

/-- The beginning of the range is zeroed. -/
theorem headDone (once : MapsOnce f.rl) (shows : Shows f g f.visible) (inside : offset < stop)
    (empty : ∀ index, offset / pageLength ≤ index → g.cache index = none) :
    HeadDone f (if offset % f.clusterLength ≠ 0 then
      zeroEdge g offset (min ((offset / f.clusterLength + 1) * f.clusterLength) stop) else g)
        offset stop := by
  have small : 0 < pageLength := by decide
  obtain ⟨lower, upper, aligned⟩ := firstWhole_bounds f offset
  have gone (b : Nat) (behind : firstWhole f offset * f.clusterLength ≤ b) :
      g.cache (b / pageLength) = none :=
    empty _ (Nat.div_le_div_right (lower.trans behind))
  by_cases middle : offset % f.clusterLength ≠ 0
  · rw [if_pos middle]
    have first : firstWhole f offset = offset / f.clusterLength + 1 := if_pos middle
    rw [← first]
    have onceG : MapsOnce g.rl := by rw [shows.layout.rl]; exact once
    have edge := zeroEdge_shows onceG shows.agree offset
      (min (firstWhole f offset * f.clusterLength) stop)
    refine ⟨(shows.trans edge).congr fun b
      within => by rw [shows.shown b within], fun b behind => ⟨fun cached => ?_, ?_⟩⟩
    · rcases zeroEdge_cached onceG shows.agree cached with before | ⟨initialized, least, most⟩
      · rw [gone b behind] at before
        cases before
      rw [shows.layout.initializedSize] at initialized
      refine ⟨middle, initialized, le_antisymm ?_ least⟩
      have before := most.trans_le (min_le_left _ _)
      rcases cluster_or_page f with ⟨k, page⟩ | ⟨k, cluster⟩
      · -- the page begins with a cluster, which is not behind that of the offset
        rw [Nat.le_div_iff_mul_le small]
        rw [first, page, ← Nat.mul_assoc, Nat.mul_right_comm,
          Nat.mul_lt_mul_right f.clusterLength_pos] at before
        rw [page, ← Nat.mul_assoc, Nat.mul_right_comm]
        refine (Nat.mul_le_mul_right _ (Nat.le_of_lt_succ before)).trans (Nat.div_mul_le_self _ _)
      · -- the first whole cluster begins with a page
        have whole : firstWhole f offset * k ≤ b / pageLength := by
          rw [Nat.le_div_iff_mul_le small, Nat.mul_assoc, Nat.mul_comm k, ← cluster]
          exact behind
        have := Nat.mul_le_mul_right pageLength whole
        rw [Nat.mul_assoc, Nat.mul_comm k, ← cluster] at this
        omega
    · rintro ⟨_, initialized, same⟩
      rw [same]
      have offsetPage := Nat.div_add_mod' offset pageLength
      have bytePage := Nat.div_add_mod' b pageLength
      have bound := Nat.mod_lt b small
      rw [same] at bytePage
      have least := min_le_left (firstWhole f offset * f.clusterLength) stop
      have some_byte : offset < min (firstWhole f offset * f.clusterLength) stop := by
        refine lt_min ?_ inside
        have := Nat.mod_lt offset f.clusterLength_pos
        have := Nat.div_add_mod' offset f.clusterLength
        rw [first, Nat.succ_mul]
        omega
      exact zeroEdge_page (by rw [shows.layout.initializedSize]; exact initialized) some_byte
        (by omega) (by omega)
  · rw [if_neg middle]
    have begins := aligned (not_not.mp middle)
    refine ⟨shows.congr fun b within => ?_, fun b behind => ?_⟩
    · rw [if_neg]
      have := min_le_left (firstWhole f offset * f.clusterLength) stop
      omega
    · rw [gone b behind]
      exact ⟨(fun impossible => by cases impossible), fun onPage => absurd onPage.1 middle⟩

/-- A state in which both ends of the range are zeroed. -/
structure EdgesDone (f g : CachedFile) (offset len : Nat) : Prop where
  shows : Shows f g fun b =>
    if (offset ≤ b ∧ b < punchEnd f offset len) ∧
      ¬ WholeCluster f offset len b then 0 else f.visible b
  cached : ∀ b, WholeCluster f offset len b →
    ((g.cache (b / pageLength)).isSome = true ↔ OnHeadPage f offset b ∨ OnTailPage f offset len b)

/-- The end of the range is zeroed. -/
theorem edgesDone (once : MapsOnce f.rl) (head : HeadDone f g offset (punchEnd f offset len))
    (ordered : firstWhole f offset ≤ punchEnd f offset len / f.clusterLength) :
    EdgesDone f (if punchEnd f offset len % f.clusterLength ≠ 0 then
      zeroEdge g (punchEnd f offset len / f.clusterLength * f.clusterLength)
        (punchEnd f offset len) else g) offset len := by
  have small : 0 < pageLength := by decide
  obtain ⟨shows, headCached⟩ := head
  obtain ⟨lower, upper, aligned⟩ := firstWhole_bounds f offset
  have parts := Nat.div_add_mod' (punchEnd f offset len) f.clusterLength
  have bound := Nat.mod_lt (punchEnd f offset len) f.clusterLength_pos
  have between := Nat.mul_le_mul_right f.clusterLength ordered
  have least : min (firstWhole f offset * f.clusterLength) (punchEnd f offset len) =
      firstWhole f offset * f.clusterLength := min_eq_left (by omega)
  rw [least] at shows
  by_cases middle : punchEnd f offset len % f.clusterLength ≠ 0
  · rw [if_pos middle]
    have onceG : MapsOnce g.rl := by rw [shows.layout.rl]; exact once
    have edge := zeroEdge_shows onceG shows.agree
      (punchEnd f offset len / f.clusterLength * f.clusterLength)
      (punchEnd f offset len)
    refine ⟨(shows.trans edge).congr fun b within => ?_, fun b whole =>
      ⟨fun cached => ?_, fun onPage => ?_⟩⟩
    · rw [shows.shown b within]
      by_cases tail : punchEnd f offset len / f.clusterLength * f.clusterLength ≤ b ∧
        b < punchEnd f offset len
      · rw [if_pos tail, if_pos]
        rw [wholeCluster_iff]
        omega
      · rw [if_neg tail]
        refine if_congr ?_ rfl rfl
        rw [wholeCluster_iff]
        omega
    · rw [wholeCluster_iff] at whole
      rcases zeroEdge_cached onceG shows.agree cached with before | ⟨initialized, from_page, _⟩
      · exact .inl ((headCached b whole.1).mp before)
      · rw [shows.layout.initializedSize] at initialized
        exact .inr ⟨middle, initialized, le_antisymm (Nat.div_le_div_right whole.2.le) from_page⟩
    · rw [wholeCluster_iff] at whole
      rcases onPage with head | ⟨_, initialized, same⟩
      · exact zeroEdge_keeps (lt_of_le_of_lt (Nat.div_mul_le_self _ _) whole.2)
          ((headCached b whole.1).mpr head)
      rw [same]
      have bytePage := Nat.div_add_mod' b pageLength
      have tailPage := Nat.div_add_mod'
        (punchEnd f offset len / f.clusterLength * f.clusterLength) pageLength
      have tailBound := Nat.mod_lt
        (punchEnd f offset len / f.clusterLength * f.clusterLength) small
      rw [same] at bytePage
      have room : punchEnd f offset len / f.clusterLength * f.clusterLength + f.clusterLength ≤
          punchEnd f offset len / f.clusterLength * f.clusterLength / pageLength * pageLength +
            pageLength := by
        rcases cluster_or_page f with ⟨k, page⟩ | ⟨k, cluster⟩
        · -- the page ends with a cluster
          have ends : punchEnd f offset len / f.clusterLength <
              (punchEnd f offset len / f.clusterLength * f.clusterLength / pageLength + 1) * k :=
                by
            rw [← Nat.mul_lt_mul_right f.clusterLength_pos, Nat.mul_assoc, Nat.mul_comm k,
              ← page, Nat.succ_mul]
            omega
          have := Nat.mul_le_mul_right f.clusterLength (Nat.succ_le_of_lt ends)
          rw [Nat.mul_assoc, Nat.mul_comm k, ← page, Nat.succ_mul, Nat.succ_mul] at this
          exact this
        · -- the last cluster begins with a page, so no byte before it is on that page
          have multiple : pageLength ∣ punchEnd f offset len / f.clusterLength *
              f.clusterLength :=
            (Dvd.intro k cluster.symm).mul_left _
          have begins := Nat.mod_eq_zero_of_dvd multiple
          omega
      exact zeroEdge_page (by rw [shows.layout.initializedSize]; exact initialized) (by omega)
        (by omega) (by omega)
  · rw [if_neg middle]
    refine ⟨shows.congr fun b within => ?_, fun b whole => ?_⟩
    · refine if_congr ?_ rfl rfl
      rw [wholeCluster_iff]
      omega
    · rw [headCached b (wholeCluster_iff.mp whole).1]
      exact ⟨.inl, fun onPage => onPage.elim id fun tail => absurd tail.1 middle⟩

end Edges

section Holes

variable {f g f' : CachedFile} {offset len startVcn stopVcn : Nat} {course : PunchCourse}

/-- The size and the initialized size are the same, a range of clusters has become a hole and all
others are mapped as before. -/
structure ClustersPunched (g f' : CachedFile) (startVcn stopVcn : Nat) : Prop where
  clusterBits : f'.clusterBits = g.clusterBits
  size : f'.size = g.size
  initializedSize : f'.initializedSize = g.initializedSize
  device : f'.device = g.device
  cache : f'.cache = g.cache
  once : MapsOnce f'.rl
  hole : ∀ vcn, startVcn ≤ vcn → vcn < stopVcn → ntfsRlVcnToLcn f'.rl vcn = lcnHole
  others : ∀ vcn, vcn < startVcn ∨ stopVcn ≤ vcn →
    ntfsRlVcnToLcn f'.rl vcn = ntfsRlVcnToLcn g.rl vcn

theorem unlessFailed_ok {α : Type} {failure : Option ErrorCode}
    {next : Except ErrorCode α} {result : α}
    (ok : unlessFailed failure next = .ok result) : next = .ok result := by
  cases failure with
  | some err => cases ok
  | none => exact ok

/-- What taking clusters out of the run list does when it succeeds. -/
theorem ntfsNonResidentAttrPunchHole_ok (follow : RlFrom 0 g.rl) (once : MapsOnce g.rl)
    (words : rlClusters g.rl < 2 ^ 63) (ordinary : ∀ element ∈ g.rl, element.lcn ≠ lcnDelalloc)
    (some_vcn : startVcn < stopVcn) (inside : stopVcn ≤ rlClusters g.rl)
    (ok : ntfsNonResidentAttrPunchHole g course startVcn (stopVcn - startVcn) = .ok f') :
    ClustersPunched g f' startVcn stopVcn := by
  rw [ntfsNonResidentAttrPunchHole] at ok
  split at ok
  · cases ok
  dsimp only at ok
  rw [if_neg (by omega), Nat.min_eq_left (by omega)] at ok
  split at ok
  · cases ok
  split at ok
  · rename_i newRl punchRl newRlCnt punched
    have result := Except.ok.inj (unlessFailed_ok (unlessFailed_ok ok))
    have hole := holePunched_of_inside follow (by omega) (by omega) (by omega)
      (by omega) punched (by omega)
      fun element listed delayed => absurd delayed (ordinary element listed)
    have stop : startVcn + (stopVcn - startVcn) = stopVcn := by omega
    have unmapped : ¬ 0 ≤ lcnHole := by decide
    have holes := hole.hole
    have others := hole.others
    rw [stop] at holes others
    subst result
    refine ⟨rfl, rfl, rfl, rfl, rfl, fun vcn vcn' real same => ?_, fun vcn lower upper =>
      holes vcn lower upper (by omega),
      others⟩
    have outside (v : Nat) (mapped : 0 ≤ ntfsRlVcnToLcn (newRl.take newRlCnt) v) :
        v < startVcn ∨ stopVcn ≤ v := by
      by_contra within
      rw [holes v (by omega) (by omega) (by omega)] at mapped
      exact unmapped mapped
    dsimp only at real same
    have mapped := others vcn (outside vcn real)
    have mapped' := others vcn' (outside vcn' (by rw [← same]; exact real))
    exact once vcn vcn' (by rw [← mapped]; exact real) (by rw [← mapped, ← mapped', same])
  · cases ok
  · rename_i overrun
    exact absurd overrun (ntfsRlPunchHole_overrun follow words (by omega) (by omega))
  · cases ok

/-- What taking no clusters out of the run list does when it succeeds. -/
theorem ntfsNonResidentAttrPunchHole_empty (follow : RlFrom 0 g.rl)
    (words : rlClusters g.rl < 2 ^ 63)
    (ordinary : ∀ element ∈ g.rl, element.lcn ≠ lcnDelalloc) (inside : startVcn < rlClusters g.rl)
    (ok : ntfsNonResidentAttrPunchHole g course startVcn 0 = .ok f') :
    ∃ newRl, f' = { g with rl := newRl } ∧ EmptyPunched g.rl newRl startVcn := by
  rw [ntfsNonResidentAttrPunchHole] at ok
  split at ok
  · cases ok
  dsimp only at ok
  rw [if_neg (by omega), Nat.zero_min] at ok
  split at ok
  · cases ok
  split at ok
  · rename_i newRl punchRl newRlCnt punched
    exact ⟨_, (Except.ok.inj (unlessFailed_ok (unlessFailed_ok ok))).symm,
      (ntfsRlPunchHole_empty follow ordinary words inside punched).1 _ _ _ rfl⟩
  · cases ok
  · rename_i overrun
    exact ⟨_, (Except.ok.inj (unlessFailed_ok (unlessFailed_ok ok))).symm,
      (ntfsRlPunchHole_empty follow ordinary words inside overrun).2 rfl⟩
  · cases ok

theorem punchedExactly_edges (once : MapsOnce f.rl) (edges : EdgesDone f g offset len)
    (none_whole : ∀ b, ¬ WholeCluster f offset len b) : PunchedExactly f g offset len := by
  have shows := edges.shows.congr fun b inside => by
    rw [if_congr (and_iff_left (none_whole b)) rfl rfl, ← punchedByte_end inside]
  refine ⟨shows.layout.size, shows.shown, fun b inside => ?_⟩
  have covered : b / pageLength < f.size / pageLength + 1 :=
    Nat.lt_succ_of_le (Nat.div_le_div_right inside.le)
  rw [writePages_disk (by rw [shows.layout.rl]; exact once) ⟨Nat.zero_le _, by omega⟩,
    flushedByte_visible shows.agree (by rw [shows.layout.size]; exact inside)]
  exact shows.shown b inside

/-- Behind the punching of no clusters at the beginning of a cluster, nothing has changed for a
reader just when what is lost is zeros. -/
theorem punchedExactly_empty {newRl : List RunlistElement} (once : MapsOnce f.rl)
    (shows : Shows f g f.visible)
    (gone : ∀ index, offset / pageLength ≤ index → g.cache index = none)
    (aligned : offset % f.clusterLength = 0)
    (empty : EmptyPunched g.rl newRl (offset / f.clusterLength)) :
    PunchedExactly f { g with rl := newRl } offset 0 ↔ EmptyHarmless f offset := by
  have layout := shows.layout
  have unmapped : ¬ 0 ≤ lcnHole := by decide
  have behind (b : Nat) : offset ≤ b ↔ offset / f.clusterLength ≤ b / f.clusterLength := by
    rw [Nat.le_div_iff_mul_le f.clusterLength_pos,
      Nat.div_mul_cancel (Nat.dvd_of_mod_eq_zero aligned)]
  have same (b : Nat) : punchedByte f offset 0 b = f.visible b := by
    rw [punchedByte, if_neg (by omega)]
  rw [layout.rl] at empty
  generalize afterwards : { g with rl := newRl } = f'
  have units : f'.clusterLength = f.clusterLength := by
    rw [← afterwards, clusterLength, clusterLength, ← layout.clusterBits]
  have new : f'.rl = newRl := by rw [← afterwards]
  have cache : f'.cache = g.cache := by rw [← afterwards]
  have limits : f'.limit = g.limit := by rw [← afterwards]; rfl
  have device : f'.device = g.device := by rw [← afterwards]
  have size : f'.size = f.size := by rw [← afterwards, ← layout.size]
  -- a byte is lost, or it stands where it stood
  have lost (b : Nat) (here : BetweenRuns f.rl (offset / f.clusterLength) ∧ offset ≤ b) :
      f'.address b = none := by
    rw [address, units, new, (empty _).1 ⟨here.1, (behind b).mp here.2⟩, if_neg unmapped]
  have kept (b : Nat) (here : ¬ (BetweenRuns f.rl (offset / f.clusterLength) ∧ offset ≤ b)) :
      f'.address b = g.address b := by
    rw [address, address, units, new, (empty _).2 fun both =>
      here ⟨both.1, (behind b).mpr both.2⟩, layout.rl,
      layout.clusterLength]
  have onceNew : MapsOnce f'.rl := by
    have outside (vcn : Nat) (real : 0 ≤ ntfsRlVcnToLcn newRl vcn) :
        ntfsRlVcnToLcn newRl vcn = ntfsRlVcnToLcn f.rl vcn := by
      refine (empty vcn).2 fun both => unmapped ?_
      rwa [(empty vcn).1 both] at real
    rw [new]
    intro vcn vcn' real equal
    have here := outside vcn real
    have there := outside vcn' (equal ▸ real)
    exact once vcn vcn' (here ▸ real) (by rw [← here, ← there, equal])
  have seen (b : Nat) (inside : b < f.size) :
      (BetweenRuns f.rl (offset / f.clusterLength) ∧ offset ≤ b → f'.visible b = 0 ∧
        f'.flushedByte b = 0) ∧
      (¬ (BetweenRuns f.rl (offset / f.clusterLength) ∧ offset ≤ b) →
        f'.visible b = f.visible b ∧ f'.flushedByte b = f.visible b) := by
    refine ⟨fun here => ?_, fun here => ?_⟩
    · have uncached := gone _ (Nat.div_le_div_right here.2)
      have unstored := diskByte_unstored (.inl (lost b here))
      rw [visible, flushedByte, cache, uncached]
      exact ⟨unstored, unstored⟩
    · have disk : f'.diskByte b = g.diskByte b := by
        rw [diskByte, diskByte, limits, kept b here, device]
      rw [← shows.shown b inside]
      refine ⟨by rw [visible, visible, cache, disk], ?_⟩
      rw [← flushedByte_visible shows.agree (by rw [layout.size]; exact inside), flushedByte,
        flushedByte, cache, limits,
        kept b here, disk]
  constructor
  · intro exactly _ between b from_there inside
    rw [← same, ← exactly.cached b inside]
    exact ((seen b inside).1 ⟨between, from_there⟩).1
  · intro harmless
    have shown (b : Nat) (inside : b < f.size) :
        f'.visible b = f.visible b ∧ f'.flushedByte b = f.visible b := by
      by_cases here : BetweenRuns f.rl (offset / f.clusterLength) ∧ offset ≤ b
      · rw [harmless aligned here.1 b here.2 inside]
        exact (seen b inside).1 here
      · exact (seen b inside).2 here
    refine ⟨size, fun b inside => (shown b inside).1.trans (same b).symm, fun b inside => ?_⟩
    have covered : b / pageLength < f.size / pageLength + 1 :=
      Nat.lt_succ_of_le (Nat.div_le_div_right inside.le)
    rw [writePages_disk onceNew ⟨Nat.zero_le _, by omega⟩, (shown b inside).2, same]

/-- Behind the punching of its whole clusters, the range is punched just when no cached page has
anything of them. -/
theorem punchedExactly_iff (edges : EdgesDone f g offset len)
    (punched : ClustersPunched g f' (firstWhole f offset)
      (punchEnd f offset len / f.clusterLength)) :
    PunchedExactly f f' offset len ↔ EdgesClear f offset len := by
  have layout := edges.shows.layout
  have units : f'.clusterLength = f.clusterLength := by
    rw [clusterLength, punched.clusterBits, layout.clusterBits]
    rfl
  have limits : f'.limit = f.limit := by
    rw [limit, punched.size, punched.initializedSize, layout.size, layout.initializedSize]
    rfl
  have unmapped : ¬ 0 ≤ lcnHole := by decide
  have vcn_iff (b : Nat) : WholeCluster f offset len b ↔ firstWhole f offset ≤ b / f.clusterLength ∧
      b / f.clusterLength < punchEnd f offset len / f.clusterLength := by
    rw [wholeCluster_iff, Nat.le_div_iff_mul_le f.clusterLength_pos,
      Nat.div_lt_iff_lt_mul f.clusterLength_pos]
  have wholeDisk (b : Nat) (whole : WholeCluster f offset len b) : f'.address b = none := by
    have place := (vcn_iff b).mp whole
    rw [address, units, punched.hole _ place.1 place.2, if_neg unmapped]
  have otherDisk (b : Nat) (other : ¬ WholeCluster f offset len b) :
      f'.address b = g.address b := by
    have place := mt (vcn_iff b).mpr other
    rw [address, address, units, layout.clusterLength, punched.others _ (by omega)]
  have otherByte (b : Nat) (other : ¬ WholeCluster f offset len b) :
      f'.diskByte b = g.diskByte b := by
    rw [diskByte, diskByte, limits, layout.limit, otherDisk b other, punched.device]
  have shown (b : Nat) (inside : b < f.size) (other : ¬ WholeCluster f offset len b) :
      g.visible b = punchedByte f offset len b := by
    rw [edges.shows.shown b inside, punchedByte_end inside]
    exact if_congr (and_iff_left other) rfl rfl
  have zero (b : Nat) (inside : b < f.size) (whole : WholeCluster f offset len b) :
      punchedByte f offset len b = 0 := by
    obtain ⟨lower, upper, _⟩ := firstWhole_bounds f offset
    have place := wholeCluster_iff.mp whole
    have := Nat.div_mul_le_self (punchEnd f offset len) f.clusterLength
    rw [punchedByte_end inside, if_pos ⟨by omega, by omega⟩]
  constructor
  · intro exactly b inside whole onPage
    obtain ⟨page, cached⟩ := Option.isSome_iff_exists.mp ((edges.cached b whole).mpr onPage)
    have seen : f'.visible b = g.visible b := by
      rw [visible, visible, punched.cache, cached]
    rw [← zero b inside whole, ← exactly.cached b inside, seen, edges.shows.shown b inside,
      if_neg fun both => both.2 whole]
  intro clear
  refine ⟨punched.size.trans layout.size, fun b inside => ?_, fun b inside => ?_⟩
  · by_cases whole : WholeCluster f offset len b
    · rw [zero b inside whole, visible, punched.cache]
      cases cached : g.cache (b / pageLength) with
      | none => exact diskByte_unstored (.inl (wholeDisk b whole))
      | some page =>
        have seen : g.visible b = page.bytes (b % pageLength) := by rw [visible, cached]
        dsimp only
        rw [← seen, edges.shows.shown b inside, if_neg fun both => both.2 whole]
        refine clear b inside whole ((edges.cached b whole).mp ?_)
        rw [cached]
        rfl
    · rw [← shown b inside whole, visible, visible, punched.cache, otherByte b whole]
  · have covered : b / pageLength < f.size / pageLength + 1 :=
      Nat.lt_succ_of_le (Nat.div_le_div_right inside.le)
    rw [writePages_disk punched.once ⟨Nat.zero_le _, by omega⟩]
    by_cases whole : WholeCluster f offset len b
    · have unstored : f'.diskByte b = 0 := diskByte_unstored (.inl (wholeDisk b whole))
      rw [zero b inside whole, flushedByte]
      cases f'.cache (b / pageLength) with
      | none => exact unstored
      | some page =>
        dsimp only
        rw [wholeDisk b whole, if_neg (by simp)]
        exact unstored
    · have same : f'.flushedByte b = g.flushedByte b := by
        rw [flushedByte, flushedByte, punched.cache, limits, layout.limit, otherDisk b whole,
          otherByte b whole]
      rw [same, flushedByte_visible edges.shows.agree (by rw [layout.size]; exact inside),
        shown b inside whole]

end Holes

section Runs

variable {f g f' : CachedFile} {offset len : Nat} {course : PunchCourse}

/-- The steps behind the zeroing of the beginning of the range. -/
theorem punchTail_iff (punchable : Punchable f) (head : HeadDone f g offset (punchEnd f offset len))
    (more : firstWhole f offset * f.clusterLength < punchEnd f offset len)
    (ok : punchTail g course (punchEnd f offset len) (firstWhole f offset)
      ((punchEnd f offset len - 1) / f.clusterLength + 1) = .ok f') :
    PunchedExactly f f' offset len ↔ EdgesClear f offset len := by
  have size := f.clusterLength_pos
  have ordered : firstWhole f offset ≤ punchEnd f offset len / f.clusterLength :=
    (Nat.le_div_iff_mul_le size).mpr more.le
  have edges := edgesDone punchable.once head ordered
  have last := @last_cluster (punchEnd f offset len) _ size (by omega)
  have holes {h : CachedFile} (layout : SameLayout f h)
    (some_vcn : firstWhole f offset < punchEnd f offset len / f.clusterLength)
      (punched : ntfsNonResidentAttrPunchHole h course (firstWhole f offset)
        (punchEnd f offset len / f.clusterLength - firstWhole f offset) = .ok f') :
      ClustersPunched h f' (firstWhole f offset) (punchEnd f offset len / f.clusterLength) := by
    have same := layout.rl
    refine ntfsNonResidentAttrPunchHole_ok (same ▸ punchable.follow) (same ▸ punchable.once)
      (same ▸ punchable.words)
      (same ▸ punchable.ordinary) some_vcn ?_ punched
    rw [same, Nat.div_le_iff_le_mul_add_pred size, Nat.mul_comm]
    have := punchable.covered
    have := @punchEnd_le f offset len
    omega
  rw [punchTail, head.shows.layout.clusterLength] at ok
  by_cases middle : punchEnd f offset len % f.clusterLength ≠ 0
  · rw [if_pos middle, last.1 middle, Nat.add_sub_cancel] at ok
    rw [if_pos middle] at edges
    have done := unlessFailed_ok ok
    split at done
    · -- the cluster of the end is the first one behind that of the beginning
      cases done
      have none_whole (b : Nat) : ¬ WholeCluster f offset len b := by
        have : punchEnd f offset len / f.clusterLength = firstWhole f offset := by omega
        rw [wholeCluster_iff, this]
        omega
      exact ⟨fun _ b _ whole => absurd whole (none_whole b), fun _ =>
        punchedExactly_edges punchable.once edges none_whole⟩
    · exact punchedExactly_iff edges (holes edges.shows.layout (by omega) done)
  · have whole := last.2 (not_not.mp middle)
    have parts := Nat.div_add_mod' (punchEnd f offset len) f.clusterLength
    rw [if_neg middle, whole] at ok
    rw [if_neg middle] at edges
    refine punchedExactly_iff edges (holes edges.shows.layout ?_ ok)
    rw [← Nat.mul_lt_mul_right size]
    omega

/-- Punching a range that begins within the file. -/
theorem ntfsPunchHole_iff (punchable : Punchable f) (inside : offset < f.size) (some_byte : 0 < len)
    (ok : ntfsPunchHole f course offset len = .ok f') :
    PunchedExactly f f' offset len ↔ EdgesClear f offset len := by
  have size := f.clusterLength_pos
  have after := punchEnd_after inside some_byte
  rw [ntfsPunchHole] at ok
  dsimp only at ok
  split at ok
  · cases ok
  rw [if_neg (by omega)] at ok
  have done := unlessFailed_ok ok
  obtain ⟨flushed, gone⟩ := flushFrom_shows punchable.once punchable.agree
    (offset / max f.clusterLength pageLength * max f.clusterLength pageLength)
  have head := headDone punchable.once flushed after fun index from_there =>
    gone index ((Nat.div_le_div_right (Nat.div_mul_le_self _ _)).trans from_there)
  rw [flushed.layout.clusterLength] at done
  simp only [if_neg (by omega : ¬ punchEnd f offset len = 0)] at done
  by_cases middle : offset % f.clusterLength ≠ 0
  · have first : firstWhole f offset = offset / f.clusterLength + 1 := if_pos middle
    rw [if_pos middle, ← first] at done head
    have zeroed := unlessFailed_ok done
    split at zeroed
    · -- the range is within a cluster
      cases zeroed
      rename_i one
      have cluster : (punchEnd f offset len - 1) / f.clusterLength < firstWhole f offset := by omega
      rw [Nat.div_lt_iff_lt_mul size] at cluster
      have least : min (firstWhole f offset * f.clusterLength) (punchEnd f offset len) =
          punchEnd f offset len :=
        min_eq_right (by omega)
      have none_whole (b : Nat) : ¬ WholeCluster f offset len b := by
        have := Nat.div_mul_le_self (punchEnd f offset len) f.clusterLength
        rw [wholeCluster_iff]
        omega
      have edges : EdgesDone f _ offset len :=
        ⟨head.shows.congr fun b _ =>
          if_congr (by rw [least]; exact (and_iff_left (none_whole b)).symm) rfl rfl,
          fun b whole => absurd whole (none_whole b)⟩
      exact ⟨fun _ b _ whole => absurd whole (none_whole b), fun _ =>
        punchedExactly_edges punchable.once edges none_whole⟩
    · rename_i others
      have later : firstWhole f offset ≤ (punchEnd f offset len - 1) / f.clusterLength := by
        have : offset / f.clusterLength ≤ (punchEnd f offset len - 1) / f.clusterLength :=
          Nat.div_le_div_right (by omega)
        omega
      rw [Nat.le_div_iff_mul_le size] at later
      exact punchTail_iff punchable head (by omega) zeroed
  · rw [if_neg middle] at done head
    have first : firstWhole f offset = offset / f.clusterLength := if_neg middle
    have begins := (firstWhole_bounds f offset).2.2 (not_not.mp middle)
    rw [← first] at done
    exact punchTail_iff punchable head (by omega) done

theorem zeroEdge_none (f : CachedFile) (pos : Nat) : zeroEdge f pos pos = f := by
  rw [zeroEdge, CachedFile.ntfsVfsZeroRange, if_neg (lt_irrefl pos), ite_self]

/-- Punching an empty range within the file. -/
theorem ntfsPunchHole_empty (punchable : Punchable f) (inside : offset < f.size)
    (ok : ntfsPunchHole f course offset 0 = .ok f') :
      PunchedExactly f f' offset 0 ↔ EmptyHarmless f offset := by
  have size := f.clusterLength_pos
  have stop : punchEnd f offset 0 = offset := by
    rw [punchEnd, if_neg (by omega)]
    rfl
  rw [ntfsPunchHole] at ok
  dsimp only at ok
  split at ok
  · cases ok
  rw [if_neg (by omega), stop] at ok
  have done := unlessFailed_ok ok
  obtain ⟨flushed, gone⟩ := flushFrom_shows punchable.once punchable.agree
    (offset / max f.clusterLength pageLength * max f.clusterLength pageLength)
  have from_there (index : Nat) (behind : offset / pageLength ≤ index) :=
    gone index ((Nat.div_le_div_right (Nat.div_mul_le_self _ _)).trans behind)
  generalize flushFrom f _ = g at *
  have parts := Nat.div_add_mod' offset f.clusterLength
  rw [flushed.layout.clusterLength] at done
  by_cases middle : offset % f.clusterLength ≠ 0
  · -- no byte of the cluster is zeroed
    have some_offset : offset ≠ 0 := by
      rintro rfl
      exact middle (Nat.zero_mod _)
    have least : min ((offset / f.clusterLength + 1) * f.clusterLength) offset = offset := by
      have bound := Nat.mod_lt offset size
      refine min_eq_right ?_
      rw [Nat.succ_mul]
      omega
    rw [if_pos middle, least, zeroEdge_none, if_neg some_offset,
      (last_cluster size (by omega)).1 middle] at done
    obtain rfl := Except.ok.inj ((if_pos (by omega)).symm.trans (unlessFailed_ok done))
    have none_whole (b : Nat) : ¬ WholeCluster f offset 0 b := by
      have first := (firstWhole_bounds f offset).1
      have last := Nat.div_mul_le_self offset f.clusterLength
      rw [wholeCluster_iff, stop]
      omega
    have edges : EdgesDone f g offset 0 :=
      ⟨flushed.congr fun b _ => (if_neg (by omega)).symm, fun b whole =>
        absurd whole (none_whole b)⟩
    exact ⟨fun _ aligned => absurd aligned middle, fun _ =>
      punchedExactly_edges punchable.once edges none_whole⟩
  · have aligned := not_not.mp middle
    have begins : (if offset = 0 then 0 else (offset - 1) / f.clusterLength + 1) =
        offset / f.clusterLength := by
      split
      · rename_i first
        rw [first, Nat.zero_div]
      · exact (last_cluster size (by omega)).2 aligned
    have here : offset / f.clusterLength < rlClusters f.rl := by
      have covered := punchable.covered
      rw [Nat.div_lt_iff_lt_mul size]
      omega
    have same := flushed.layout.rl
    rw [if_neg middle, begins, punchTail, flushed.layout.clusterLength, if_neg middle,
      Nat.sub_self] at done
    obtain ⟨newRl, rfl, empty⟩ := ntfsNonResidentAttrPunchHole_empty (same ▸ punchable.follow)
      (same ▸ punchable.words) (same ▸ punchable.ordinary) (same ▸ here) done
    exact punchedExactly_empty punchable.once flushed from_there aligned empty

/-- Punching a hole into a file zeroes the range and nothing else, and leaves the size, just when
the pages in which the ends of the range are zeroed hold nothing but zeros of the clusters that
the range has all of, and an empty range loses nothing but zeros. -/
theorem punch_hole_exact_iff (punchable : Punchable f)
    (ok : ntfsVfsFallocatePunch f course offset len = .ok f') :
    PunchedExactly f f' offset len ↔ EdgesClear f offset len ∧
      (len = 0 → EmptyHarmless f offset) := by
  rw [ntfsVfsFallocatePunch] at ok
  split at ok
  · cases ok
  split at ok
  · cases ok
  split at ok
  · cases ok
  split at ok
  · cases ok
  have checked := unlessFailed_ok (unlessFailed_ok ok)
  split at checked
  · cases checked
  by_cases inside : offset < f.size
  · rcases Nat.eq_zero_or_pos len with rfl | some_byte
    · rw [ntfsPunchHole_empty punchable inside checked]
      refine ⟨fun harmless => ⟨fun b _ whole => ?_, fun _ => harmless⟩, fun both => both.2 rfl⟩
      have first := (firstWhole_bounds f offset).1
      have last := Nat.div_mul_le_self (offset + 0) f.clusterLength
      have place := wholeCluster_iff.mp whole
      rw [punchEnd, if_neg (by omega)] at place
      omega
    · rw [ntfsPunchHole_iff punchable inside some_byte checked]
      exact ⟨fun clear => ⟨clear, by omega⟩, fun both => both.1⟩
  · -- there is nothing of the range in the file
    rw [ntfsPunchHole] at checked
    dsimp only at checked
    split at checked
    · cases checked
    rw [if_pos (by omega)] at checked
    cases checked
    have outside (b : Nat) (within : b < f.size) : f.visible b = punchedByte f offset len b := by
      rw [punchedByte, if_neg (by omega)]
    refine ⟨fun _ => ⟨fun b within whole => ?_, fun _ _ _ b from_there within => ?_⟩,
      fun _ => ⟨rfl, outside, fun b within => ?_⟩⟩
    · have := (firstWhole_bounds f offset).1
      have := (wholeCluster_iff.mp whole).1
      omega
    · omega
    · have covered : b / pageLength < f.size / pageLength + 1 :=
        Nat.lt_succ_of_le (Nat.div_le_div_right within.le)
      rw [writePages_disk punchable.once ⟨Nat.zero_le _, by omega⟩,
        flushedByte_visible punchable.agree within]
      exact outside b within

end Runs

/-- The device holds ones; one page of it is mapped by one run of clusters of 512 bytes. -/
def onesFile : CachedFile :=
  ⟨9, 4096, 4096, [⟨0, 0, 8⟩, ⟨8, lcnEnoent, 0⟩], fun _ => 1, fun _ => none⟩

/-- A course on which nothing fails. -/
def quietCourse : PunchCourse :=
  ⟨false, false, true, false, none, none, false, false, none, none, none, true, true, none, none⟩

theorem onesFile_punchable : Punchable onesFile where
  follow := .run rfl (by decide) (.terminator rfl rfl (by decide))
  once := by
    have mapped (vcn : Nat) (real : 0 ≤ ntfsRlVcnToLcn onesFile.rl vcn) :
        ntfsRlVcnToLcn onesFile.rl vcn = vcn := by
      by_cases inside : vcn < 8
      · simp [ntfsRlVcnToLcn, onesFile, rlScan, inside]
      · simp [ntfsRlVcnToLcn, onesFile, rlScan, inside, lcnEnoent] at real
    intro vcn vcn' real same
    have here := mapped vcn real
    have there := mapped vcn' (same ▸ real)
    exact Int.ofNat.inj (here.symm.trans (same.trans there))
  covered := by decide
  agree := fun _ _ cached => by cases cached
  words := by decide
  ordinary := by decide

/-- The whole file is punched. -/
theorem punch_hole_exact_whole : ∃ f', ntfsVfsFallocatePunch onesFile quietCourse 0 4096 = .ok f' ∧
    PunchedExactly onesFile f' 0 4096 := by
  have ok : ntfsVfsFallocatePunch onesFile quietCourse 0 4096 =
      .ok { flushFrom onesFile 0 with rl := [⟨0, lcnHole, 8⟩, ⟨8, lcnEnoent, 0⟩] } := rfl
  refine ⟨_, ok, (punch_hole_exact_iff onesFile_punchable ok).mpr ⟨?_, fun empty =>
    absurd empty (by decide)⟩⟩
  intro b inside whole onPage
  rcases onPage with ⟨middle, _⟩ | ⟨middle, _⟩
  · exact absurd rfl middle
  · exact absurd rfl middle

/-- A range that begins within the first cluster and ends with the file is not zeroed: the page of
its beginning stays in the cache with the ones of the other clusters. -/
theorem punch_hole_leaves_ones :
    ∃ f', ntfsVfsFallocatePunch onesFile quietCourse 100 3996 = .ok f' ∧
    f'.visible 600 = 1 ∧ ¬ PunchedExactly onesFile f' 100 3996 := by
  have edge : (flushFrom onesFile 0).ntfsVfsZeroRange 100 512 =
      (flushFrom onesFile 0).editPage 100 412 fun _ => 0 :=
    zeroRange_within (by decide) (by decide) (by decide)
  have ok : ntfsVfsFallocatePunch onesFile quietCourse 100 3996 =
      .ok { (flushFrom onesFile 0).editPage 100 412 fun _ => 0 with
        rl := [⟨0, 0, 1⟩, ⟨1, lcnHole, 7⟩, ⟨8, lcnEnoent, 0⟩] } := by
    change punchTail (zeroEdge (flushFrom onesFile 0) 100 512) quietCourse 4096 1 8 = _
    rw [zeroEdge, if_pos (by decide), edge]
    rfl
  refine ⟨_, ok, rfl, fun exactly => ?_⟩
  have zero := exactly.cached 600 (by decide)
  exact absurd zero (by decide)

end Ttntfs.Vfs
