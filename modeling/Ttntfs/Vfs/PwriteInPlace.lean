import Ttntfs.Vfs.PwriteFolio

/-!
# Where a write to an attribute goes

The bytes that are written are read back, and all others are as before, whatever the pages
and the device had, just when every page of the write gets its bytes at their place and has
clusters for them, no device write of the synchronous path fails on one of them, and nothing
that was not initialized becomes readable.

The attributes are not resident, not compressed and not encrypted; what `ntfs_attr_truncate`
does to the run list is a parameter, and so is every step that may fail.
-/

namespace Ttntfs.Vfs

open Ttntfs.Ntfs
open CachedFile

section Reading

variable {f : CachedFile} {pos count b : Nat}

/-- The pages are read as they are seen. -/
theorem preadPages_eq :
    preadPages f pos count (pos / pageLength) = (List.range count).map fun i =>
      f.visible (pos + i) := by
  have small : 0 < pageLength := by decide
  induction count using Nat.strong_induction_on generalizing pos with
  | _ count ih =>
    rw [preadPages]
    split
    · dsimp only
      generalize length : min count (pageLength - pos % pageLength) = n
      have bound := Nat.mod_lt pos small
      have first : (List.range n).map (fun i =>
        (f.folioAt (pos / pageLength)).bytes (pos % pageLength + i)) =
          (List.range n).map fun i => f.visible (pos + i) := by
        refine List.map_congr_left fun i listed => ?_
        have inside := List.mem_range.mp listed
        have place : (pos + i) / pageLength = pos / pageLength ∧
            (pos + i) % pageLength = pos % pageLength + i := by
          simp only [pageLength] at *
          omega
        rw [← place.1, ← place.2, folioAt_bytes]
      have rest : preadPages f (pos + n) (count - n) (pos / pageLength + 1) =
          (List.range (count - n)).map fun i => f.visible (pos + n + i) := by
        by_cases last : count - n = 0
        · rw [last, preadPages, if_neg (Nat.lt_irrefl 0)]
          rfl
        · have next : (pos + n) / pageLength = pos / pageLength + 1 := by
            simp only [pageLength] at *
            omega
          rw [← next]
          exact ih _ (by omega)
      have total : count = n + (count - n) := by omega
      rw [first, rest]
      conv_rhs => rw [total, List.range_add, List.map_append, List.map_map]
      simp only [Function.comp_def, Nat.add_assoc]
    · rename_i nothing
      obtain rfl : count = 0 := by omega
      rfl

theorem pread_eq (inside : pos + count ≤ f.size) :
    ntfsInodeAttrPread f pos count = .ok ((List.range count).map fun i => f.visible (pos + i)) := by
  rw [ntfsInodeAttrPread]
  by_cases nothing : count = 0
  · rw [if_pos nothing, nothing]
    rfl
  · rw [if_neg nothing, if_neg (by omega), if_neg (by omega), preadPages_eq]

theorem flushed_visible (once : MapsOnce f.rl) (inside : b ≤ f.size) :
    (flushed f).visible b = f.flushedByte b := by
  have covered : b / pageLength < f.size / pageLength + 1 :=
    Nat.lt_succ_of_le (Nat.div_le_div_right inside)
  have gone : (flushed f).cache (b / pageLength) = none := by
    simp only [flushed, dropFrom, Nat.zero_le, if_true]
  rw [visible, gone]
  exact writePages_disk once ⟨Nat.zero_le _, by omega⟩

theorem putPage_device {index : Nat} {page : CachedPage} :
    (f.putPage index page).device = f.device := rfl

theorem writePage_layout (index : Nat) : SameLayout f (f.writePage index) := by
  rw [writePage]
  cases f.cache index with
  | none => exact .refl f
  | some page =>
    dsimp only
    split
    · exact storeBytes_layout.trans putPage_layout
    · exact .refl f

theorem writePages_layout (first count : Nat) : SameLayout f (f.writePages first count) := by
  induction count generalizing f first with
  | zero => exact .refl f
  | succ count ih =>
    rw [writePages_succ]
    exact (writePage_layout first).trans (ih _)

theorem writePages_elsewhere {a : Nat} (elsewhere : ∀ b, f.address b ≠ some a) (first count : Nat) :
    (f.writePages first count).device a = f.device a := by
  induction count generalizing f first with
  | zero => rfl
  | succ count ih =>
    have kept (b : Nat) : (f.writePage first).address b ≠ some a := by
      rw [(writePage_layout first).address]
      exact elsewhere b
    rw [writePages_succ, ih kept, writePage]
    cases f.cache first with
    | none => rfl
    | some page =>
      dsimp only
      split
      · rw [putPage_device]
        exact storeBytes_elsewhere elsewhere
      · rfl

end Reading

/-- The attribute as `ntfs_enlarge_attribute` leaves it. -/
def enlarged (f : CachedFile) (truncated : List RunlistElement) (pos count : Nat) : CachedFile :=
  if pos + count ≤ f.initializedSize then f
  else if f.size < pos + count then
    { f with size := pos + count, rl := truncated, initializedSize := pos + count }
  else { f with initializedSize := pos + count }

/-- The sizes and run lists of an attribute that is not resident, and what `ntfs_attr_truncate`
makes of its run list where the write goes behind its end. -/
structure Enlargeable (f : CachedFile) (truncated : List RunlistElement)
    (pos count : Nat) : Prop where
  follow : RlFrom 0 f.rl
  once : MapsOnce f.rl
  covered : f.size ≤ rlClusters f.rl * f.clusterLength
  initialized : f.initializedSize ≤ f.size
  grown : f.size < pos + count → RlFrom 0 truncated ∧ MapsOnce truncated ∧
    pos + count ≤ rlClusters truncated * f.clusterLength ∧
    ∀ vcn < rlClusters f.rl, ntfsRlVcnToLcn truncated vcn = ntfsRlVcnToLcn f.rl vcn

/-- What becomes readable in front of the write is in a hole. -/
def GapClear (f : CachedFile) (truncated : List RunlistElement) (pos count : Nat) : Prop :=
  f.initializedSize < pos + count → ∀ b, f.initializedSize ≤ b → b < pos → b < f.size →
    (enlarged f truncated pos count).address b = none

section Enlarge

variable {f f' : CachedFile} {truncated : List RunlistElement} {course : PwriteCourse}
  {pos count b : Nat}

theorem ntfsEnlargeAttribute_ok (ok : ntfsEnlargeAttribute f course truncated pos count = .ok f') :
    f' = enlarged f truncated pos count := by
  rw [ntfsEnlargeAttribute] at ok
  rw [enlarged]
  split at ok
  · rename_i initialized
    rw [if_pos initialized]
    exact (Except.ok.inj ok).symm
  rename_i behind
  rw [if_neg behind]
  split at ok
  · cases ok
  split at ok
  · cases ok
  split at ok
  · rename_i beyond
    rw [if_pos beyond]
    split at ok
    · cases ok
    · exact (Except.ok.inj (unlessFailed_ok ok)).symm
  · rename_i inside
    rw [if_neg inside]
    exact (Except.ok.inj ok).symm

/-- What does not change when an attribute is enlarged, and where its sizes are then. -/
theorem enlarged_facts (valid : Enlargeable f truncated pos count) :
    (enlarged f truncated pos count).clusterBits = f.clusterBits ∧
    (enlarged f truncated pos count).device = f.device ∧
      (enlarged f truncated pos count).cache = f.cache ∧
    RlFrom 0 (enlarged f truncated pos count).rl ∧ MapsOnce (enlarged f truncated pos count).rl ∧
    (enlarged f truncated pos count).size ≤ rlClusters
      (enlarged f truncated pos count).rl * f.clusterLength ∧
    (∀ vcn < rlClusters f.rl, ntfsRlVcnToLcn (enlarged f truncated pos count).rl vcn =
      ntfsRlVcnToLcn f.rl vcn) ∧
    (enlarged f truncated pos count).size = max f.size (pos + count) ∧
    (enlarged f truncated pos count).initializedSize = max f.initializedSize (pos + count) := by
  obtain ⟨follow, once, covered, initialized, grown⟩ := valid
  rw [enlarged]
  split
  · exact ⟨rfl, rfl, rfl, follow, once, covered, fun _ _ => rfl, by omega, by omega⟩
  · split
    · rename_i beyond
      obtain ⟨followToo, onceToo, coveredToo, same⟩ := grown beyond
      exact ⟨rfl, rfl, rfl, followToo, onceToo, coveredToo, same, by dsimp only; omega,
        by dsimp only; omega⟩
    · exact ⟨rfl, rfl, rfl, follow, once, covered, fun _ _ => rfl, by dsimp only; omega,
        by dsimp only; omega⟩

theorem enlarged_unit (valid : Enlargeable f truncated pos count) :
    (enlarged f truncated pos count).clusterLength = f.clusterLength := by
  rw [clusterLength, clusterLength, (enlarged_facts valid).1]

theorem enlarged_address (valid : Enlargeable f truncated pos count) (inside : b < f.size) :
    (enlarged f truncated pos count).address b = f.address b := by
  have cluster : b / f.clusterLength < rlClusters f.rl :=
    (Nat.div_lt_iff_lt_mul f.clusterLength_pos).mpr (inside.trans_le valid.covered)
  rw [address, address, enlarged_unit valid, (enlarged_facts valid).2.2.2.2.2.2.1 _ cluster]

/-- Where nothing becomes readable, an enlarged attribute is seen as before. -/
theorem enlarged_seen (valid : Enlargeable f truncated pos count) (agree : f.Agree)
    (clear : GapClear f truncated pos count) (inside : b < f.size)
    (outside : b < pos ∨ pos + count ≤ b) :
    (enlarged f truncated pos count).visible b = f.visible b ∧
      (enlarged f truncated pos count).flushedByte b = f.visible b := by
  obtain ⟨_, device, cache, _, _, _, _, sizes, initialized⟩ := enlarged_facts valid
  have place := enlarged_address valid inside
  have limits : (enlarged f truncated pos count).limit = max f.initializedSize (pos + count) := by
    have := valid.initialized
    rw [limit, sizes, initialized]
    omega
  have limitBefore : f.limit = f.initializedSize := min_eq_left valid.initialized
  have disk : (enlarged f truncated pos count).diskByte b = f.diskByte b := by
    by_cases before : b < f.limit
    · rw [diskByte, diskByte, place, device, if_pos before, if_pos (by omega)]
    · rw [diskByte_unstored (f := f) (.inr (by omega))]
      refine diskByte_unstored ?_
      by_cases readable : b < max f.initializedSize (pos + count)
      · exact .inl (clear (by omega) b (by omega) (by omega) inside)
      · exact .inr (by omega)
  have stored := flushedByte_visible agree inside
  constructor
  · rw [visible, visible, cache, disk]
  rw [← stored, flushedByte, flushedByte, cache, place, disk]
  rw [flushedByte, visible] at stored
  cases cached : f.cache (b / pageLength) with
  | none => rfl
  | some page =>
    rw [cached] at stored
    dsimp only at stored ⊢
    by_cases before : page.dirty = true ∧ b < f.limit ∧ (f.address b).isSome = true
    · rw [if_pos before, if_pos ⟨before.1, by omega, before.2.2⟩]
    · rw [if_neg before] at stored ⊢
      split
      · exact stored.symm
      · rfl

end Enlarge

/-- The synchronous path would take the device write of the first page from behind the end of the
page, which it refuses. -/
def Refused (f : CachedFile) (pos count : Nat) (sync : Bool) : Prop :=
  sync = true ∧ 0 < count ∧
    pageLength < folioOffset pos count + syncLength f (folioLength pos count)

/-- A write of some bytes that puts each of them into a cluster of its own, where the device takes
what the synchronous path writes. -/
structure InPages (f : CachedFile) (lost : Nat → Bool) (truncated : List RunlistElement)
    (pos count : Nat)
    (sync : Bool) : Prop where
  aligned : count = pageLength → pos % pageLength = 0
  mapped : ∀ b, pos ≤ b → b < pos + count →
    ((enlarged f truncated pos count).address b).isSome = true
  synced : sync = true → f.clusterLength < pageLength → pos % pageLength = 0 ∧
    (count % f.clusterLength = 0 ∨ count % pageLength < f.clusterLength)
  taken : sync = true → ∀ b, pos ≤ b → b < pos + count →
    ∀ a, (enlarged f truncated pos count).address b = some a → lost a = false

/-- The write is refused, or nothing becomes readable in front of it and it is in its pages. -/
def InPlace (f : CachedFile) (lost : Nat → Bool) (truncated : List RunlistElement) (pos count : Nat)
    (sync : Bool) : Prop :=
  Refused f pos count sync ∨
    GapClear f truncated pos count ∧ (0 < count → InPages f lost truncated pos count sync)

/-- Whatever the device and the pages have, and whichever steps fail, with the device writes that
fail given: a write that returns its count is stored exactly. -/
def AlwaysStored (f : CachedFile) (lost : Nat → Bool) (truncated : List RunlistElement)
    (pos count : Nat)
    (sync : Bool) : Prop :=
  ∀ before, SameLayout f before → before.Agree → ∀ course buf after, course.lost = lost →
    ntfsInodeAttrPwrite before course truncated pos count buf sync = .ok after →
      StoredExactly before after pos count buf

section Writes

variable {f g f' : CachedFile} {truncated : List RunlistElement} {course : PwriteCourse}
  {pos count index b : Nat}
  {buf : Nat → UInt8} {sync : Bool} {lost : Nat → Bool}

theorem ntfsInodeAttrPwrite_ok
    (ok : ntfsInodeAttrPwrite f course truncated pos count buf sync = .ok f') :
    pwritePages (enlarged f truncated pos count) course pos count buf sync
      (pos / pageLength) = .ok f' := by
  rw [ntfsInodeAttrPwrite] at ok
  split at ok
  · cases ok
  · split at ok
    · cases ok
    · rename_i g grown
      rw [← ntfsEnlargeAttribute_ok grown]
      exact ok

theorem pwritePages_ok (some_byte : 0 < count)
    (ok : pwritePages f course pos count buf sync index = .ok f') :
    ∃ g, pwriteFolio f course pos count buf sync index = .ok g ∧
      pwritePages g course (pos + folioLength pos count) (count - folioLength pos count)
        (fun i => buf (i + folioLength pos count)) sync (index + 1) = .ok f' := by
  rw [pwritePages, if_pos some_byte] at ok
  split at ok
  · cases ok
  · rename_i g first
    exact ⟨g, first, ok⟩

theorem next_page (more : 0 < count - folioLength pos count) :
    (pos + folioLength pos count) / pageLength = pos / pageLength + 1 ∧
      (pos + folioLength pos count) % pageLength = 0 := by
  have bound : pos % pageLength < pageLength := Nat.mod_lt _ (by decide)
  rw [folioLength] at more ⊢
  split at more
  · omega
  · rename_i part
    rw [if_neg part]
    simp only [pageLength] at *
    omega

/-- A write that is in its pages, when it is not refused, is straight. -/
theorem straight_of_inPages (valid : Enlargeable f truncated pos count) (some_byte : 0 < count)
    (inPages : InPages f lost truncated pos count sync) (accepted : ¬ Refused f pos count sync) :
    Straight (enlarged f truncated pos count) lost pos count sync := by
  obtain ⟨_, _, _, _, _, _, _, sizes, initialized⟩ := enlarged_facts valid
  refine ⟨inPages.aligned, fun b lower upper => ⟨?_, inPages.mapped b lower upper⟩,
    fun synced => ?_,
    fun synced b lower upper => ?_⟩
  · rw [limit, sizes, initialized]
    omega
  · rw [enlarged_unit valid]
    rcases Nat.lt_or_ge f.clusterLength pageLength with small | large
    · exact ⟨(inPages.synced synced small).1, fun _ => (inPages.synced synced small).2⟩
    refine ⟨?_, fun small => absurd small (not_lt.mpr large)⟩
    by_contra part
    refine accepted ⟨synced, some_byte, ?_⟩
    have length : pageLength ≤ syncLength f (folioLength pos count) := by
      rw [syncLength]
      split
      · exact Nat.le_refl _
      · exact large.trans (Nat.le_mul_of_pos_left _ (by omega))
    rw [folioOffset, if_neg fun whole => part (inPages.aligned whole)]
    omega
  · obtain ⟨a, place⟩ := Option.isSome_iff_exists.mp (inPages.mapped b lower upper)
    rw [CachedFile.takes, place]
    change (!lost a) = true
    rw [inPages.taken synced b lower upper a place]
    rfl

/-- A write in place is stored exactly. -/
theorem stored_of_inPlace (valid : Enlargeable f truncated pos count) (agree : f.Agree)
    (inPlace : InPlace f course.lost truncated pos count sync)
    (ok : ntfsInodeAttrPwrite f course truncated pos count buf sync = .ok f') :
      StoredExactly f f' pos count buf := by
  have written := ntfsInodeAttrPwrite_ok ok
  obtain ⟨_, device, _, follow, once, covered, _, sizes, _⟩ := enlarged_facts valid
  have unit := enlarged_unit valid
  have small : 0 < pageLength := by decide
  have begins := Nat.div_mul_le_self pos pageLength
  have accepted : ¬ Refused f pos count sync := by
    rintro ⟨synced, some_byte, behind⟩
    obtain ⟨g, first, _⟩ := pwritePages_ok some_byte written
    have bounds := @folioLength_bounds pos count some_byte
    have fits := (pwriteFolio_stored follow once bounds.1 (by rw [unit]; omega) first).fits synced
    have same : syncLength (enlarged f truncated pos count) (folioLength pos count) =
        syncLength f (folioLength pos count) := by
      rw [syncLength, syncLength, unit]
    omega
  obtain ⟨clear, inPages⟩ := inPlace.resolve_left accepted
  have loop : LoopStored (enlarged f truncated pos count) f' pos count buf := by
    rcases Nat.eq_zero_or_pos count with rfl | some_byte
    · rw [pwritePages, if_neg (Nat.lt_irrefl 0)] at written
      cases written
      exact ⟨.refl _, fun b lower upper => by omega, fun b _ same => ⟨rfl, same⟩, fun _ _ => rfl⟩
    · exact pwritePages_stored follow once (by rw [unit]; omega)
        (straight_of_inPages valid some_byte (inPages some_byte) accepted)
        written
  have onceAfter : MapsOnce f'.rl := by
    rw [loop.layout.rl]
    exact once
  have size : f'.size = max f.size (pos + count) := loop.layout.size.trans sizes
  have same : (flushed f').size = f'.size :=
    (writePages_layout (f := f') 0 (f'.size / pageLength + 1)).size
  refine ⟨?_, ?_, fun b inside outside => ?_, fun a unmapped => ?_⟩
  · rw [pread_eq (by omega)]
    refine congrArg Except.ok (List.map_congr_left fun i listed => ?_)
    have inside := List.mem_range.mp listed
    rw [(loop.written (pos + i) (by omega) (by omega)).1, Nat.add_sub_cancel_left]
  · rw [pread_eq (by omega)]
    refine congrArg Except.ok (List.map_congr_left fun i listed => ?_)
    have inside := List.mem_range.mp listed
    rw [flushed_visible onceAfter (by omega), (loop.written (pos + i) (by omega) (by omega)).2,
      Nat.add_sub_cancel_left]
  · obtain ⟨seen, stored⟩ := enlarged_seen valid agree clear inside outside
    obtain ⟨seenAfter, storedAfter⟩ := loop.others b outside (stored.trans seen.symm)
    rw [flushed_visible onceAfter (by omega)]
    exact ⟨seenAfter.trans seen, storedAfter.trans seen⟩
  · have kept : f'.device a = f.device a := by
      rw [loop.elsewhere a fun b => by rw [← loop.layout.address]; exact unmapped b, device]
    exact ⟨kept, (writePages_elsewhere unmapped _ _).trans kept⟩

end Writes

/-- A course on which no step fails but device writes, of an attribute that is neither encrypted nor
compressed. -/
def smoothCourse (lost : Nat → Bool) : PwriteCourse :=
  ⟨none, false, false, false, none, fun _ => none, none, lost⟩

/-- An attribute with nothing cached on a device that has one byte everywhere. -/
def plain (f : CachedFile) (byte : UInt8) : CachedFile :=
  { f with device := fun _ => byte, cache := fun _ => none }

section Failures

variable {f g f' : CachedFile} {truncated : List RunlistElement} {course : PwriteCourse}
  {pos count index b : Nat}
  {buf : Nat → UInt8} {sync : Bool} {lost : Nat → Bool}

/-- Where no step fails, the pages are written if what the first one writes to the device is
within it. -/
theorem pwritePages_returns (follow : RlFrom 0 f.rl) (once : MapsOnce f.rl)
    (covered : pos + count ≤ rlClusters f.rl * f.clusterLength)
    (fits : sync = true → 0 < count →
      folioOffset pos count + syncLength f (folioLength pos count) ≤ pageLength) :
    ∃ f', pwritePages f (smoothCourse lost) pos count buf sync (pos / pageLength) = .ok f' := by
  induction count using Nat.strong_induction_on generalizing f pos buf with
  | _ count ih =>
    rw [pwritePages]
    split
    · rename_i some_byte
      have bounds := @folioLength_bounds pos count some_byte
      have begins := Nat.div_mul_le_self pos pageLength
      obtain ⟨g, first⟩ : ∃ g,
          pwriteFolio f (smoothCourse lost) pos count buf sync (pos / pageLength) = .ok g := by
        cases sync with
        | false => exact ⟨_, rfl⟩
        | true =>
          rw [pwriteFolio_sync follow bounds.1 (by omega) rfl rfl,
            if_neg (by have := fits rfl some_byte; omega)]
          exact ⟨_, rfl⟩
      have stored := pwriteFolio_stored follow once bounds.1 (by omega) first
      rw [first]
      dsimp only
      by_cases last : count - folioLength pos count = 0
      · rw [last, pwritePages, if_neg (Nat.lt_irrefl 0)]
        exact ⟨_, rfl⟩
      have next := @next_page pos count (by omega)
      have unit := stored.layout.clusterLength
      have sameRl := stored.layout.rl
      rw [← next.1]
      refine ih _ (by omega) (by rw [sameRl]; exact follow) (by rw [sameRl]; exact once)
        (by rw [sameRl, unit]; omega) fun _ _ => ?_
      have begins : folioOffset (pos + folioLength pos count)
          (count - folioLength pos count) = 0 := by
        rw [folioOffset]
        split
        · rfl
        · exact next.2
      rw [begins, Nat.zero_add]
      exact syncLength_le (folioLength_page _ _)
    · exact ⟨_, rfl⟩

/-- What every page of a write keeps holds behind it, and so does the layout. -/
theorem pwritePages_run {I : CachedFile → Prop} (follow : RlFrom 0 f.rl) (once : MapsOnce f.rl)
    (covered : pos + count ≤ rlClusters f.rl * f.clusterLength) (start : I f)
    (page : ∀ g g' pos' count' shift, pos ≤ pos' → SameLayout f g → I g →
      FolioStored g g' course.lost pos' count' (fun i => buf (i + shift)) sync
        (pos' / pageLength) → I g')
    (ok : pwritePages f course pos count buf sync (pos / pageLength) = .ok f') :
      I f' ∧ SameLayout f f' := by
  induction count using Nat.strong_induction_on generalizing f pos buf with
  | _ count ih =>
    rcases Nat.eq_zero_or_pos count with rfl | some_byte
    · rw [pwritePages, if_neg (Nat.lt_irrefl 0)] at ok
      obtain rfl := Except.ok.inj ok
      exact ⟨start, .refl f⟩
    obtain ⟨g, first, rest⟩ := pwritePages_ok some_byte ok
    have bounds := @folioLength_bounds pos count some_byte
    have begins := Nat.div_mul_le_self pos pageLength
    have stored := pwriteFolio_stored follow once bounds.1 (by omega) first
    have step := page f g pos count 0 le_rfl (.refl f) start stored
    by_cases last : count - folioLength pos count = 0
    · rw [last, pwritePages, if_neg (Nat.lt_irrefl 0)] at rest
      cases rest
      exact ⟨step, stored.layout⟩
    · rw [← (@next_page pos count (by omega)).1] at rest
      have sameRl := stored.layout.rl
      have kept := ih _ (by omega) (by rw [sameRl]; exact follow) (by rw [sameRl]; exact once)
        (by rw [sameRl, stored.layout.clusterLength]; omega) step ?_ rest
      · exact ⟨kept.1, stored.layout.trans kept.2⟩
      · intro g g' pos' count' shift later same inv again
        refine page g g' pos' count' (shift + folioLength pos count) (by omega)
          (stored.layout.trans same) inv ?_
        simpa only [Nat.add_assoc] using again

/-- Where everything that is read is one and everything that is written is, everything that is
read is one behind the write, wherever it puts its bytes. -/
theorem pwritePages_ones (follow : RlFrom 0 f.rl) (once : MapsOnce f.rl)
    (covered : pos + count ≤ rlClusters f.rl * f.clusterLength) (ones : ∀ i, buf i = 1)
    (seen : ∀ b < f.limit, (f.address b).isSome = true → f.visible b = 1)
    (ok : pwritePages f course pos count buf sync (pos / pageLength) = .ok f') :
    ∀ b < f.limit, (f.address b).isSome = true → f'.visible b = 1 := by
  refine (@pwritePages_run _ _ _ _ _ _ _
    (fun g => ∀ b < f.limit, (f.address b).isSome = true →
      g.visible b = 1) follow once covered seen ?_ ok).1
  intro g g' pos' _ _ _ _ seen stored b inside mapped
  by_cases here : b / pageLength = pos' / pageLength
  · rw [stored.seen here, pwriteBytes_eq (Nat.mod_lt _ (by decide)), ← here, folioAt_bytes,
      seen b inside mapped]
    split
    · exact ones _
    · rfl
  · rw [(stored.other here).2.1]
    exact seen b inside mapped

/-- A write leaves the layout. -/
theorem pwritePages_layout (follow : RlFrom 0 f.rl) (once : MapsOnce f.rl)
    (covered : pos + count ≤ rlClusters f.rl * f.clusterLength)
    (ok : pwritePages f course pos count buf sync (pos / pageLength) = .ok f') : SameLayout f f' :=
  (@pwritePages_run _ _ _ _ _ _ _ (fun _ => True) follow once covered trivial (by simp) ok).2

/-- The pages in front of a write are not touched. -/
theorem pwritePages_before (follow : RlFrom 0 f.rl) (once : MapsOnce f.rl)
    (covered : pos + count ≤ rlClusters f.rl * f.clusterLength)
    (before : b / pageLength < pos / pageLength)
    (ok : pwritePages f course pos count buf sync (pos / pageLength) = .ok f') :
    f'.flushedByte b = f.flushedByte b := by
  refine (@pwritePages_run _ _ _ _ _ _ _ (fun g =>
    g.flushedByte b = f.flushedByte b) follow once covered rfl
    ?_ ok).1
  intro g g' pos' _ _ later _ kept stored
  have apart := before.trans_le (Nat.div_le_div_right later)
  exact (stored.other apart.ne).2.2.trans kept

/-- The synchronous path leaves out what is behind the last whole cluster of the last page. -/
theorem pwritePages_tail (follow : RlFrom 0 f.rl) (once : MapsOnce f.rl)
    (covered : pos + count ≤ rlClusters f.rl * f.clusterLength) (aligned : pos % pageLength = 0)
    (small : f.clusterLength < pageLength) (part : count % f.clusterLength ≠ 0)
    (more : f.clusterLength ≤ count % pageLength)
    (unread : f.cache ((pos + count - 1) / pageLength) = none)
    (zero : f.diskByte (pos + count - 1) = 0)
    (ok : pwritePages f course pos count buf true (pos / pageLength) = .ok f') :
    f'.flushedByte (pos + count - 1) = 0 := by
  induction count using Nat.strong_induction_on generalizing f pos buf with
  | _ count ih =>
    have some_byte : 0 < count := by
      by_contra nothing
      obtain rfl : count = 0 := by omega
      simp at part
    obtain ⟨g, first, rest⟩ := pwritePages_ok some_byte ok
    have bounds := @folioLength_bounds pos count some_byte
    have begins := Nat.div_mul_le_self pos pageLength
    have stored := pwriteFolio_stored follow once bounds.1 (by omega) first
    have unit := stored.layout.clusterLength
    have length : folioLength pos count = min count pageLength := by
      rw [folioLength, aligned, Nat.sub_zero]
      split <;> omega
    by_cases last : count - folioLength pos count = 0
    · rw [last, pwritePages, if_neg (Nat.lt_irrefl 0)] at rest
      cases rest
      have all : folioLength pos count = count := by omega
      have here : (pos + count - 1) / pageLength = pos / pageLength ∧
          (pos + count - 1) % pageLength = count - 1 := by
        simp only [pageLength] at *
        omega
      by_cases kept : pos + count - 1 < f.limit ∧ (f.address (pos + count - 1)).isSome = true
      · have clean : (f.folioAt (pos / pageLength)).dirty = false := by
          rw [folioAt, ← here.1, unread]
          rfl
        have clusters : 1 ≤ count / f.clusterLength := by
          refine (Nat.one_le_div_iff f.clusterLength_pos).mpr (more.trans (Nat.mod_le _ _))
        have short : syncLength f (folioLength pos count) ≤ count - 1 := by
          have parts := Nat.div_add_mod' count f.clusterLength
          rw [syncLength, if_neg (by omega), all, max_eq_right clusters]
          omega
        rw [stored.stored_page here.1 kept, if_pos ⟨rfl, clean⟩, if_neg (by omega), zero]
      · refine flushedByte_unstored ?_
        rw [stored.layout.address, stored.layout.limit]
        by_contra both
        rw [not_or, not_le] at both
        exact kept ⟨both.2, Option.isSome_iff_ne_none.mpr both.1⟩
    · have next := @next_page pos count (by omega)
      have whole : folioLength pos count = pageLength := by omega
      have total : pos + folioLength pos count + (count - folioLength pos count) - 1 =
        pos + count - 1 := by omega
      have sameRl := stored.layout.rl
      have apart : (pos + count - 1) / pageLength ≠ pos / pageLength := by
        simp only [pageLength] at *
        omega
      obtain ⟨k, divides⟩ := (cluster_or_page f).resolve_right fun divides =>
        absurd (Nat.le_of_dvd f.clusterLength_pos divides) (by omega)
      rw [← next.1] at rest
      have result := @ih (count - folioLength pos count) (by omega) g
        (pos + folioLength pos count) _ (by rw [sameRl]; exact follow) (by rw [sameRl]; exact once)
        (by rw [sameRl, unit]; omega) next.2 (by rw [unit]; exact small) (fun exactly => part (by
          obtain ⟨m, clusters⟩ := Nat.dvd_of_mod_eq_zero exactly
          have sum : count = pageLength + (count - folioLength pos count) := by omega
          rw [unit] at clusters
          rw [sum, clusters, divides, ← Nat.mul_add, Nat.mul_mod_right]))
        (by rw [unit, whole, ← Nat.mod_eq_sub_mod (by omega)]; exact more)
        (by rw [total, stored.cache _ apart]; exact unread)
          (by rw [total, (stored.other apart).1]; exact zero) rest
      rw [total] at result
      exact result

/-- Where the device writes fail a write leaves the device, and a synchronous one no page dirty. -/
theorem pwritePages_lost (follow : RlFrom 0 f.rl) (once : MapsOnce f.rl)
    (covered : pos + count ≤ rlClusters f.rl * f.clusterLength) {a other : Nat}
    (spared : course.lost a = true)
    (clean : (f.folioAt other).dirty = false)
    (ok : pwritePages f course pos count buf true (pos / pageLength) = .ok f') :
    f'.device a = f.device a ∧ (f'.folioAt other).dirty = false := by
  refine (@pwritePages_run _ _ _ _ _ _ _ (fun g => g.device a = f.device a ∧
    (g.folioAt other).dirty = false)
    follow once covered ⟨rfl, clean⟩ ?_ ok).1
  rintro g g' pos' _ _ _ _ ⟨kept, still⟩ stored
  refine ⟨(stored.spared a spared).trans kept, ?_⟩
  by_cases here : other = pos' / pageLength
  · rw [folioAt, here, stored.page, ← here]
    exact still
  · rw [folioAt] at still ⊢
    rw [stored.cache other here]
    cases cached : g.cache other with
    | none => rfl
    | some page =>
      rw [cached] at still
      exact still

/-- What has been stored exactly, byte for byte. -/
theorem StoredExactly.bytes (stored : StoredExactly f f' pos count buf) (once : MapsOnce f'.rl)
    (inside : pos + count ≤ f'.size) (lower : pos ≤ b) (upper : b < pos + count) :
    f'.visible b = buf (b - pos) ∧ f'.flushedByte b = buf (b - pos) := by
  have place : pos + (b - pos) = b := by omega
  have listed : b - pos ∈ List.range count := List.mem_range.mpr (by omega)
  have size : (flushed f').size = f'.size :=
    (writePages_layout (f := f') 0 (f'.size / pageLength + 1)).size
  have seen := stored.cached
  have disk := stored.onDisk
  rw [pread_eq inside] at seen
  rw [pread_eq (by rw [size]; exact inside)] at disk
  have seenByte := List.map_inj_left.mp (Except.ok.inj seen) _ listed
  have diskByte := List.map_inj_left.mp (Except.ok.inj disk) _ listed
  rw [place] at seenByte diskByte
  rw [flushed_visible once (by omega)] at diskByte
  exact ⟨seenByte, diskByte⟩

end Failures

section Necessity

variable {f g before : CachedFile} {truncated : List RunlistElement}
  {pos count b : Nat} {sync : Bool}
  {lost : Nat → Bool}

theorem enlarged_layout (same : SameLayout f g) :
    SameLayout (enlarged f truncated pos count) (enlarged g truncated pos count) := by
  rw [enlarged, enlarged, same.initializedSize, same.size]
  split
  · exact same
  · split
    · exact ⟨same.clusterBits, rfl, rfl, rfl⟩
    · exact ⟨same.clusterBits, rfl, rfl, same.rl⟩

theorem Enlargeable.congr (valid : Enlargeable f truncated pos count) (same : SameLayout f g) :
    Enlargeable g truncated pos count := by
  obtain ⟨follow, once, covered, initialized, grown⟩ := valid
  constructor
  · rw [same.rl]
    exact follow
  · rw [same.rl]
    exact once
  · rw [same.rl, same.size, same.clusterLength]
    exact covered
  · rw [same.initializedSize, same.size]
    exact initialized
  · rw [same.size, same.rl, same.clusterLength]
    exact grown

theorem InPlace.congr (inPlace : InPlace f lost truncated pos count sync) (same : SameLayout f g) :
    InPlace g lost truncated pos count sync := by
  have large := @enlarged_layout f g truncated pos count same
  refine inPlace.imp (fun refused => ?_) fun ⟨clear, inPages⟩ => ⟨?_, fun some_byte => ?_⟩
  · rw [Refused, syncLength, same.clusterLength]
    exact refused
  · rw [GapClear, same.initializedSize, same.size]
    intro behind b lower upper inside
    rw [large.address]
    exact clear behind b lower upper inside
  · obtain ⟨aligned, mapped, synced, taken⟩ := inPages some_byte
    refine ⟨aligned, fun b lower upper => ?_, ?_, ?_⟩
    · rw [large.address]
      exact mapped b lower upper
    · rw [same.clusterLength]
      exact synced
    · intro now b lower upper
      rw [large.address]
      exact taken now b lower upper

theorem plain_layout (f : CachedFile) (byte : UInt8) : SameLayout f (plain f byte) :=
  ⟨rfl, rfl, rfl, rfl⟩

theorem plain_agree (f : CachedFile) (byte : UInt8) : (plain f byte).Agree :=
  fun _ _ cached => by cases cached

theorem ntfsEnlargeAttribute_smooth :
    ntfsEnlargeAttribute f (smoothCourse lost) truncated pos count =
      .ok (enlarged f truncated pos count) := by
  have encrypted : ¬ (smoothCourse lost).encrypted = true := Bool.false_ne_true
  have compressed : ¬ (smoothCourse lost).compressed = true := Bool.false_ne_true
  have succeeds : ¬ (smoothCourse lost).truncateFails = true := Bool.false_ne_true
  rw [ntfsEnlargeAttribute, enlarged, if_neg encrypted, if_neg compressed, if_neg succeeds]
  split
  · rfl
  · split <;> rfl

/-- A write to a plain attribute, where no step fails and the device writes are within their
pages. -/
theorem plain_written (valid : Enlargeable f truncated pos count)
    (accepted : ¬ Refused f pos count sync)
    (lost : Nat → Bool) (byte : UInt8) (buf : Nat → UInt8) : ∃ after,
      ntfsInodeAttrPwrite (plain f byte)
        (smoothCourse lost) truncated pos count buf sync = .ok after ∧
      pwritePages (enlarged (plain f byte) truncated pos count)
        (smoothCourse lost) pos count buf sync
        (pos / pageLength) = .ok after := by
  have valid := valid.congr (plain_layout f byte)
  obtain ⟨_, _, _, follow, once, covered, _, sizes, _⟩ := enlarged_facts valid
  have unit := enlarged_unit valid
  obtain ⟨after, written⟩ := @pwritePages_returns _ pos count buf sync lost follow once
    (by rw [unit]; omega) fun synced some_byte => by
      by_contra behind
      refine accepted ⟨synced, some_byte, ?_⟩
      have same : syncLength (enlarged (plain f byte) truncated pos count) (folioLength pos count) =
          syncLength f (folioLength pos count) := by
        rw [syncLength, syncLength, unit]
        rfl
      omega
  refine ⟨after, ?_, written⟩
  rw [ntfsInodeAttrPwrite, ntfsEnlargeAttribute_smooth]
  exact written

/-- What a plain attribute has on the device when it is enlarged. -/
theorem plain_disk (valid : Enlargeable f truncated pos count) (byte : UInt8) (b : Nat) :
    (enlarged (plain f byte) truncated pos count).cache = (fun _ => none) ∧
    ((enlarged (plain f byte) truncated pos count).diskByte b = byte ∨
      (enlarged (plain f byte) truncated pos count).diskByte b = 0) ∧
    (b < (enlarged (plain f byte) truncated pos count).limit →
      ((enlarged (plain f byte) truncated pos count).address b).isSome = true →
      (enlarged (plain f byte) truncated pos count).visible b = byte) := by
  obtain ⟨_, device, cache, _⟩ := enlarged_facts (valid.congr (plain_layout f byte))
  refine ⟨cache, ?_, fun inside mapped => ?_⟩
  · rw [diskByte, device]
    split
    · cases (enlarged (plain f byte) truncated pos count).address b with
      | none => exact .inr rfl
      | some a => exact .inl rfl
    · exact .inr rfl
  · obtain ⟨a, place⟩ := Option.isSome_iff_exists.mp mapped
    have unread : (enlarged (plain f byte) truncated pos count).visible b =
        (enlarged (plain f byte) truncated pos count).diskByte b := by
      rw [visible, cache]
      rfl
    rw [unread, diskByte, if_pos inside, place, device]
    rfl

/-- A write to a plain attribute, where no step fails but device writes, that is not stored
exactly. -/
def Misstored (f : CachedFile) (lost : Nat → Bool) (truncated : List RunlistElement)
    (pos count : Nat) (sync : Bool)
    (byte : UInt8) (buf : Nat → UInt8) : Prop :=
  ∃ after, ntfsInodeAttrPwrite (plain f byte)
    (smoothCourse lost) truncated pos count buf sync = .ok after ∧
    ¬ StoredExactly (plain f byte) after pos count buf

/-- A write is not stored exactly when a byte that is written, or another one, is not what it is
to be. -/
theorem misstored {buf : Nat → UInt8} (valid : Enlargeable f truncated pos count)
    (accepted : ¬ Refused f pos count sync)
    (byte : UInt8)
    (wrong : ∀ after, pwritePages (enlarged (plain f byte) truncated pos count)
      (smoothCourse lost) pos count buf sync
        (pos / pageLength) = .ok after →
          SameLayout (enlarged (plain f byte) truncated pos count) after →
      (∀ b, pos ≤ b → b < pos + count → after.visible b = buf (b - pos) ∧
        after.flushedByte b = buf (b - pos)) →
      (∀ b < f.size, b < pos ∨ pos + count ≤ b →
        after.visible b = (plain f byte).visible b) → False) :
    Misstored f lost truncated pos count sync byte buf := by
  obtain ⟨after, ok, written⟩ := plain_written valid accepted lost byte buf
  refine ⟨after, ok, fun stored => ?_⟩
  have valid := valid.congr (plain_layout f byte)
  obtain ⟨_, _, _, follow, once, covered, _, sizes, _⟩ := enlarged_facts valid
  have layout := pwritePages_layout follow once (by rw [enlarged_unit valid]; omega) written
  have size : after.size = max (plain f byte).size (pos + count) := layout.size.trans sizes
  exact wrong after written layout (fun b lower upper =>
    stored.bytes (by rw [layout.rl]; exact once) (by omega) lower upper)
    fun b inside outside => (stored.others b inside outside).1

/-- What becomes readable in front of the write shows what the device had. -/
theorem gap_misstored (valid : Enlargeable f truncated pos count)
    (accepted : ¬ Refused f pos count sync)
    (lower : f.initializedSize ≤ b) (upper : b < pos) (inside : b < f.size)
    (mapped : (enlarged f truncated pos count).address b ≠ none) :
    Misstored f lost truncated pos count sync 1 fun _ => 1 := by
  refine misstored valid accepted 1 fun after written layout _ others => ?_
  have validPlain := valid.congr (plain_layout f 1)
  obtain ⟨_, _, _, follow, once, covered, _, sizes, initialized⟩ := enlarged_facts validPlain
  have place : ((enlarged (plain f 1) truncated pos count).address b).isSome = true := by
    rw [(enlarged_layout (plain_layout f 1)).address]
    exact Option.isSome_iff_ne_none.mpr mapped
  have readable : b < (enlarged (plain f 1) truncated pos count).limit := by
    rw [limit, sizes, initialized]
    omega
  have seen := pwritePages_ones follow once (by rw [enlarged_unit validPlain]; omega) (fun _ => rfl)
    (fun b inside mapped => (plain_disk valid 1 b).2.2 inside mapped) written b readable place
  have zero : (plain f 1).visible b = 0 := by
    refine visible_behind (plain_agree f 1) inside ?_
    exact (min_le_left _ _).trans lower
  rw [others b inside (.inl upper), zero] at seen
  exact absurd seen (by decide)

theorem hole_misstored (valid : Enlargeable f truncated pos count)
    (accepted : ¬ Refused f pos count sync)
    (lower : pos ≤ b) (upper : b < pos + count)
    (hole : (enlarged f truncated pos count).address b = none) :
    Misstored f lost truncated pos count sync 0 fun _ => 1 := by
  refine misstored valid accepted 0 fun after _ layout bytes _ => ?_
  have stored := (bytes b lower upper).2
  rw [flushedByte_unstored (.inl (by
    rw [layout.address, (enlarged_layout (plain_layout f 0)).address]
    exact hole))] at stored
  exact absurd stored (by decide)

/-- A page of bytes that is not written at the beginning of a page goes there all the same. -/
theorem page_misstored (valid : Enlargeable f truncated pos count)
    (accepted : ¬ Refused f pos count sync)
    (page : count = pageLength) (part : pos % pageLength ≠ 0) :
      Misstored f lost truncated pos count sync 0 fun _ => 1 := by
  refine misstored valid accepted 0 fun after written layout bytes _ => ?_
  have validPlain := valid.congr (plain_layout f 0)
  obtain ⟨_, _, _, follow, once, covered, _, sizes, _⟩ := enlarged_facts validPlain
  have length : folioLength pos count = count := by
    rw [folioLength, if_pos page]
  have some_byte : 0 < count := by
    rw [page]
    decide
  have begins := Nat.div_mul_le_self pos pageLength
  obtain ⟨g, first, rest⟩ := pwritePages_ok some_byte written
  have stored := pwriteFolio_stored follow once (by omega)
    (by rw [enlarged_unit validPlain]; omega) first
  rw [length, Nat.sub_self, pwritePages, if_neg (Nat.lt_irrefl 0)] at rest
  cases rest
  have apart : (pos + count - 1) / pageLength ≠ pos / pageLength := by
    rw [page]
    simp only [pageLength] at *
    omega
  obtain ⟨cache, disk, _⟩ := plain_disk valid 0 (pos + count - 1)
  have zero : (enlarged (plain f 0) truncated pos count).visible (pos + count - 1) = 0 := by
    rw [visible, cache]
    exact disk.elim id id
  have seen := (bytes (pos + count - 1) (by omega) (by omega)).1
  rw [(stored.other apart).2.1, zero] at seen
  exact absurd seen (by decide)

/-- The synchronous path writes what is not at the beginning of a page to the clusters of the
beginning. -/
theorem offset_misstored (valid : Enlargeable f truncated pos count)
    (accepted : ¬ Refused f pos count true)
    (some_byte : 0 < count) (other : count ≠ pageLength) (part : pos % pageLength ≠ 0) :
    Misstored f lost truncated pos count true 0 fun i => if i = 0 then 1 else 0 := by
  refine misstored valid accepted 0 fun after written layout bytes _ => ?_
  have validPlain := valid.congr (plain_layout f 0)
  obtain ⟨_, _, _, follow, once, covered, _, sizes, initialized⟩ := enlarged_facts validPlain
  have unit := enlarged_unit validPlain
  have begins := Nat.div_mul_le_self pos pageLength
  have bounds := @folioLength_bounds pos count some_byte
  have offset : folioOffset pos count = pos % pageLength := if_neg other
  obtain ⟨g, first, rest⟩ := pwritePages_ok some_byte written
  have stored := pwriteFolio_stored follow once bounds.1 (by rw [unit]; omega) first
  obtain ⟨cache, disk, _⟩ := plain_disk valid 0 pos
  have zeros (b : Nat) : (enlarged (plain f 0) truncated pos count).visible b = 0 := by
    rw [visible, cache]
    exact (plain_disk valid 0 b).2.1.elim id id
  have step : g.flushedByte pos = 0 := by
    by_cases kept : pos < (enlarged (plain f 0) truncated pos count).limit ∧
        ((enlarged (plain f 0) truncated pos count).address pos).isSome = true
    · have clean : ((enlarged (plain f 0) truncated pos count).folioAt
          (pos / pageLength)).dirty = false := by
        rw [folioAt, cache]
        rfl
      rw [stored.stored_page rfl kept, if_pos ⟨rfl, clean⟩]
      split
      · rename_i within
        have fits := stored.fits rfl
        rw [offset] at fits ⊢
        have page : (pos / pageLength *
          pageLength + (pos % pageLength + pos % pageLength)) / pageLength = pos / pageLength ∧
            (pos / pageLength * pageLength + (pos % pageLength + pos % pageLength)) % pageLength =
              pos % pageLength + pos % pageLength := by
          simp only [pageLength] at *
          omega
        rw [pwriteBytes_eq (by omega)]
        split
        · rw [if_neg (by omega)]
        · have byte := folioAt_bytes (enlarged (plain f 0) truncated pos count)
            (pos / pageLength * pageLength + (pos % pageLength + pos % pageLength))
          rw [page.1, page.2] at byte
          exact byte.trans (zeros _)
      · exact disk.elim id id
    · refine flushedByte_unstored ?_
      rw [stored.layout.address, stored.layout.limit]
      by_contra both
      rw [not_or, not_le] at both
      exact kept ⟨both.2, Option.isSome_iff_ne_none.mpr both.1⟩
  have end_ : after.flushedByte pos = 0 := by
    by_cases last : count - folioLength pos count = 0
    · rw [last, pwritePages, if_neg (Nat.lt_irrefl 0)] at rest
      cases rest
      exact step
    · have next := (@next_page pos count (by omega)).1
      rw [← next] at rest
      rw [← step]
      have sameRl := stored.layout.rl
      exact pwritePages_before (by rw [sameRl]; exact follow) (by rw [sameRl]; exact once)
        (by rw [sameRl, stored.layout.clusterLength, unit]; omega) (by omega) rest
  have seen := (bytes pos le_rfl (by omega)).2
  rw [end_, Nat.sub_self, if_pos rfl] at seen
  exact absurd seen (by decide)

/-- The synchronous path leaves out a part of a cluster. -/
theorem tail_misstored (valid : Enlargeable f truncated pos count)
    (accepted : ¬ Refused f pos count true)
    (aligned : pos % pageLength = 0) (small : f.clusterLength < pageLength)
    (part : count % f.clusterLength ≠ 0)
    (more : f.clusterLength ≤ count % pageLength) :
      Misstored f lost truncated pos count true 0 fun _ => 1 := by
  refine misstored valid accepted 0 fun after written layout bytes _ => ?_
  have validPlain := valid.congr (plain_layout f 0)
  obtain ⟨_, _, _, follow, once, covered, _, sizes, _⟩ := enlarged_facts validPlain
  have unit := enlarged_unit validPlain
  have same : (plain f 0).clusterLength = f.clusterLength := rfl
  obtain ⟨cache, disk, _⟩ := plain_disk valid 0 (pos + count - 1)
  have some_byte : 0 < count := by
    by_contra nothing
    obtain rfl : count = 0 := by omega
    simp at part
  have lost := pwritePages_tail follow once (by rw [unit]; omega) aligned
    (by rw [unit, same]; exact small)
    (by rw [unit, same]; exact part) (by rw [unit, same]; exact more) (by rw [cache])
      (disk.elim id id) written
  have seen := (bytes (pos + count - 1) (by omega) (by omega)).2
  rw [lost] at seen
  exact absurd seen (by decide)

/-- What the device does not take of the synchronous path is lost. -/
theorem lost_misstored (valid : Enlargeable f truncated pos count)
    (accepted : ¬ Refused f pos count true)
    (lower : pos ≤ b) (upper : b < pos + count) {a : Nat}
    (place : (enlarged f truncated pos count).address b = some a) (spared : lost a = true) :
    Misstored f lost truncated pos count true 0 fun _ => 1 := by
  refine misstored valid accepted 0 fun after written layout bytes _ => ?_
  have validPlain := valid.congr (plain_layout f 0)
  obtain ⟨_, device, cache, follow, once, covered, _, sizes, _⟩ := enlarged_facts validPlain
  obtain ⟨kept, clean⟩ :=
    pwritePages_lost follow once (by rw [enlarged_unit validPlain]; omega) spared
    (show ((enlarged (plain f 0) truncated pos count).folioAt (b / pageLength)).dirty = false by
      rw [folioAt, cache]
      rfl) written
  have stored := (bytes b lower upper).2
  rw [flushedByte_clean clean, diskByte, layout.address,
    (enlarged_layout (plain_layout f 0)).address, place] at stored
  split at stored
  · change after.device a = 1 at stored
    rw [kept, device] at stored
    exact absurd stored (by decide : ¬ (0 : UInt8) = 1)
  · exact absurd stored (by decide)

theorem AlwaysStored.plain (always : AlwaysStored f lost truncated pos count sync) (byte : UInt8)
    (buf : Nat → UInt8) :
    ¬ Misstored f lost truncated pos count sync byte buf := fun ⟨_, ok, wrong⟩ =>
  wrong (always _ (plain_layout f byte) (plain_agree f byte) _ _ _ rfl ok)

end Necessity

/-- Whatever the device and the pages have, a write to an attribute is read back from the pages and
from the device and leaves all else, just when the synchronous path refuses it, or nothing becomes
readable in front of it and each page takes its bytes at their place, to clusters of its own, where
the device takes what the synchronous path writes. -/
theorem attr_pwrite_stored_iff {f : CachedFile} {lost : Nat → Bool}
    {truncated : List RunlistElement}
    {pos count : Nat} {sync : Bool} (valid : Enlargeable f truncated pos count) :
    AlwaysStored f lost truncated pos count sync ↔ InPlace f lost truncated pos count sync := by
  constructor
  · intro always
    by_cases accepted : Refused f pos count sync
    · exact .inl accepted
    refine .inr ⟨fun _ b lower upper inside => ?_, fun some_byte =>
      ⟨fun page => ?_, fun b lower upper => ?_,
      fun synced small => ?_, fun synced b lower upper a place => ?_⟩⟩
    · by_contra mapped
      exact always.plain 1 _ (gap_misstored valid accepted lower upper inside mapped)
    · by_contra part
      exact always.plain 0 _ (page_misstored valid accepted page part)
    · rw [Option.isSome_iff_ne_none]
      intro hole
      exact always.plain 0 _ (hole_misstored valid accepted lower upper hole)
    · subst synced
      have aligned : pos % pageLength = 0 := by
        by_contra part
        by_cases page : count = pageLength
        · exact always.plain 0 _ (page_misstored valid accepted page part)
        · exact always.plain 0 _ (offset_misstored valid accepted some_byte page part)
      refine ⟨aligned, ?_⟩
      by_contra both
      rw [not_or, not_lt] at both
      exact always.plain 0 _ (tail_misstored valid accepted aligned small both.1 both.2)
    · subst synced
      rw [← Bool.not_eq_true]
      intro spared
      exact always.plain 0 _ (lost_misstored valid accepted lower upper place spared)
  · intro inPlace before same agree course buf after taken ok
    subst taken
    exact stored_of_inPlace (valid.congr same) agree (inPlace.congr same) ok

/-- The stream of one page that is mapped by one run of clusters of 512 bytes is written in its
first cluster, where the device takes no other. -/
theorem attr_pwrite_stored_first :
    AlwaysStored onesFile (fun a => decide (512 ≤ a)) [] 0 512 true := by
  have valid : Enlargeable onesFile [] 0 512 := ⟨onesFile_punchable.follow, onesFile_punchable.once,
    onesFile_punchable.covered, by decide, fun behind => absurd behind (by decide)⟩
  have first (b : Nat) (upper : b < 0 + 512) : onesFile.address b = some b := by
    have cluster : b / onesFile.clusterLength = 0 := Nat.div_eq_of_lt (upper.trans_eq (by decide))
    have place : b % onesFile.clusterLength = b := Nat.mod_eq_of_lt (upper.trans_eq (by decide))
    rw [address, cluster, place]
    exact congrArg some (Nat.zero_add b)
  refine (attr_pwrite_stored_iff valid).mpr
    (.inr ⟨fun behind => absurd behind (by decide), fun _ => ⟨by decide, ?_,
    by decide, ?_⟩⟩)
  · intro b _ upper
    change (onesFile.address b).isSome = true
    rw [first b upper]
    rfl
  · intro _ b _ upper a place
    change onesFile.address b = some a at place
    rw [first b upper] at place
    cases place
    exact decide_eq_false (by omega)

/-- An index block of 1024 bytes that is not the first in its page is written over the first one. -/
theorem attr_pwrite_overwrites :
    Misstored onesFile (fun _ => false) [] 1024 1024 true 0 (fun i => if i = 0 then 1 else 0) ∧
      ¬ AlwaysStored onesFile (fun _ => false) [] 1024 1024 true := by
  have valid : Enlargeable onesFile [] 1024 1024 :=
    ⟨onesFile_punchable.follow, onesFile_punchable.once,
    onesFile_punchable.covered, by decide, fun behind => absurd behind (by decide)⟩
  have accepted : ¬ Refused onesFile 1024 1024 true := fun refused => absurd refused.2.2 (by decide)
  have wrong := @offset_misstored onesFile [] 1024 1024 (fun _ => false) valid accepted (by decide)
    (by decide) (by decide)
  exact ⟨wrong, fun always => always.plain 0 _ wrong⟩

end Ttntfs.Vfs
