import Ttntfs.Logfile.TableGrowth

/-!
# The table operations keep the invariant

One statement for each of `lfs_table_alloc`, `lfs_table_alloc_at` and
`lfs_table_free_idx`, from any well-formed table. Whether the free list covers
every unallocated entry is carried along: it is kept where it held before, and it
is what makes `lfs_table_alloc_at` find every free entry.
-/

namespace Ttntfs.Logfile

open Library.ByteMemory Library.LinkedOffsets

/-- What an allocation that returns `off` does to a table. -/
structure AllocatesEntry (t t' : Table) (free free' : List Nat) (off : Nat) : Prop where
  size : t'.esize = t.esize
  grown : t.entries ≤ t'.entries
  wasFree : ¬ Allocated t off
  allocated : Allocated t' off
  zeroed : ∀ i, off + 4 ≤ i → i < off + t.esize → t'.buf i = 0
  only : ∀ other, Allocated t' other → other = off ∨ Allocated t other
  kept : KeepsAllocated t t' (some off)
  inv : TableInv t' free'
  covers : CoversFree t free → CoversFree t' free'

/-- A change confined to one entry and to links of free entries disturbs no other
allocated entry: entries do not overlap. -/
theorem KeepsOthers.contents {t : Table} {m : Mem} {free : List Nat} {off other : Nat}
    (kept : KeepsOthers t m free off) (inv : TableInv t free) (entry : IsEntry t off)
    (allocated : Allocated t other) (distinct : other ≠ off) {i : Nat} (lower : other ≤ i)
    (upper : i < other + t.esize) : m i = t.buf i := by
  have inside := allocated.1.inside
  have large := inv.esize_ge
  rw [← inv.bytes_eq] at inside
  have apart := allocated.1.disjoint entry distinct
  refine kept i (by omega) (by omega) (by omega) (fun node member => ?_)
  obtain ⟨nodeEntry, unmarked⟩ := inv.unallocated node member
  have different : other ≠ node := by
    rintro rfl
    exact unmarked allocated.2
  have separate := allocated.1.disjoint nodeEntry different
  omega

section Allocate

variable {t u t' : Table} {free free' : List Nat} {off : Nat}

/-- Taking an entry off the free list allocates it. -/
theorem TakesEntry.allocates (inv : TableInv t free) (member : off ∈ free)
    (taken : TakesEntry t t' free (free.erase off) off) :
    AllocatesEntry t t' free (free.erase off) off := by
  obtain ⟨entry, unmarked⟩ := inv.unallocated off member
  have sameEntry := isEntry_congr taken.size taken.entries
  refine { size := taken.size, grown := taken.entries.ge, wasFree := fun marked => unmarked marked.2,
           allocated := ⟨(sameEntry off).mpr entry, taken.marked⟩, zeroed := taken.zeroed,
           only := ?_, kept := ?_, inv := taken.inv, covers := ?_ }
  · intro other allocated
    by_cases same : other = off
    · exact Or.inl same
    · have oldEntry := (sameEntry other).mp allocated.1
      exact Or.inr ⟨oldEntry, (taken.marks other oldEntry same).mp allocated.2⟩
  · intro other allocated different
    have distinct : other ≠ off := fun same => different (congrArg some same)
    refine ⟨⟨(sameEntry other).mpr allocated.1,
      (taken.marks other allocated.1 distinct).mpr allocated.2⟩, ?_⟩
    intro i lower upper
    exact taken.kept.contents inv entry allocated distinct lower upper
  · intro covers other otherEntry otherUnmarked
    have distinct : other ≠ off := by
      rintro rfl
      exact otherUnmarked taken.marked
    have oldEntry : IsEntry t other := (sameEntry other).mp otherEntry
    have oldUnmarked : t.word other ≠ rtEntryAllocated :=
      fun marked => otherUnmarked ((taken.marks other oldEntry distinct).mpr marked)
    exact (List.mem_erase_of_ne distinct).mpr (covers other oldEntry oldUnmarked)

theorem GrowsTable.newEntry {add : Nat} (grown : GrowsTable t u free add) (entry : IsEntry u off)
    (new : ¬ IsEntry t off) : off ∈ entryRange t.esize t.entries add := by
  obtain ⟨k, below, rfl⟩ := entry
  rw [grown.entries] at below
  rw [Table.entryOff, grown.size] at new ⊢
  refine mem_entryRange.mpr ⟨k, ?_, below, rfl⟩
  by_contra early
  exact new ⟨k, by omega, rfl⟩

theorem GrowsTable.covers {add : Nat} (grown : GrowsTable t u free add)
    (covers : CoversFree t free) : CoversFree u (free ++ entryRange t.esize t.entries add) := by
  intro other otherEntry unmarked
  by_cases old : IsEntry t other
  · refine List.mem_append_left _ (covers other old (fun marked => unmarked ?_))
    exact (grown.marks other old).mpr marked
  · exact List.mem_append_right _ (grown.newEntry otherEntry old)

/-- Growing a table and then allocating from it allocates from the original. -/
theorem AllocatesEntry.afterGrowth {add : Nat} (grown : GrowsTable t u free add)
    (allocates : AllocatesEntry u t' (free ++ entryRange t.esize t.entries add) free' off) :
    AllocatesEntry t t' free free' off := by
  have sameSize : t'.esize = t.esize := allocates.size.trans grown.size
  have more : t.entries ≤ t'.entries := by
    have grew := allocates.grown
    rw [grown.entries] at grew
    omega
  refine { size := sameSize, grown := more, wasFree := ?_, allocated := allocates.allocated,
           zeroed := ?_, only := ?_, kept := ?_, inv := allocates.inv, covers := ?_ }
  · intro allocated
    exact allocates.wasFree (grown.kept off allocated (by simp)).1
  · rw [← grown.size]
    exact allocates.zeroed
  · intro other allocated
    rcases allocates.only other allocated with same | middle
    · exact Or.inl same
    · refine Or.inr ?_
      by_cases old : IsEntry t other
      · exact ⟨old, (grown.marks other old).mp middle.2⟩
      · have member := List.mem_append_right free (grown.newEntry middle.1 old)
        exact absurd middle.2 (grown.inv.unallocated other member).2
  · intro other allocated different
    obtain ⟨still, same⟩ := grown.kept other allocated (by simp)
    obtain ⟨remains, unchanged⟩ := allocates.kept other still different
    refine ⟨remains, fun i lower upper => ?_⟩
    rw [unchanged i lower (by rwa [grown.size]), same i lower upper]
  · intro covers
    exact allocates.covers (grown.covers covers)

theorem allocFirst_allocates {rest : List Nat} (inv : TableInv t (off :: rest)) :
    ∃ t', allocFirst t = (t', some off) ∧ AllocatesEntry t t' (off :: rest) rest off := by
  obtain ⟨t', computed, taken⟩ := allocFirst_takes inv
  refine ⟨t', computed, ?_⟩
  have allocates : AllocatesEntry t t' (off :: rest) ((off :: rest).erase off) off :=
    TakesEntry.allocates inv List.mem_cons_self (by rwa [List.erase_cons_head])
  rwa [List.erase_cons_head] at allocates

/-- `lfs_table_alloc` returns a zeroed entry that was not allocated before. It fails
only on a full table that may not grow by sixteen entries. -/
theorem lfsTableAlloc_spec (inv : TableInv t free) :
    (∃ t' off free', lfsTableAlloc t = (t', some off) ∧ AllocatesEntry t t' free free' off) ∨
      (lfsTableAlloc t = (t, none) ∧ free = [] ∧ t.entries + 16 > 0xffff) := by
  cases free with
  | nil =>
    have empty : t.firstFree = 0 := inv.empty_iff.mp rfl
    rcases tableExtend_spec inv (show 0 < 16 by decide) 0xffffffff with
      ⟨full, failed⟩ | ⟨_, u, extended, grown⟩
    · refine Or.inr ⟨?_, rfl, full⟩
      rw [lfsTableAlloc, if_pos empty, failed]
    · obtain ⟨off, rest, chain⟩ : ∃ off rest, entryRange t.esize t.entries 16 = off :: rest :=
        ⟨_, _, rfl⟩
      have grownInv : TableInv u (off :: rest) := by
        rw [← chain]
        exact grown.inv
      obtain ⟨t', computed, allocates⟩ := allocFirst_allocates grownInv
      refine Or.inl ⟨t', off, rest, ?_, AllocatesEntry.afterGrowth grown ?_⟩
      · rw [lfsTableAlloc, if_pos empty, extended]
        exact computed
      · rwa [chain]
  | cons off rest =>
    have first : t.firstFree ≠ 0 := fun zero => by simpa using inv.empty_iff.mpr zero
    obtain ⟨t', computed, allocates⟩ := allocFirst_allocates inv
    refine Or.inl ⟨t', off, rest, ?_, allocates⟩
    rw [lfsTableAlloc, if_neg first]
    exact computed

theorem allocEntry_member (inv : TableInv t free) (member : off ∈ free) :
    ∃ t', allocEntry t off = (t', some off) ∧ AllocatesEntry t t' free (free.erase off) off := by
  obtain ⟨entry, unmarked⟩ := inv.unallocated off member
  obtain ⟨m, unlinked, shape, kept⟩ := unlinkEntry_member inv member
  refine ⟨markEntry t (settleLast m) off, ?_,
    TakesEntry.allocates inv member (markEntry_takes inv entry unmarked shape kept)⟩
  rw [allocEntry, if_neg unmarked, unlinked]
  rfl

theorem allocEntry_absent (inv : TableInv t free) (entry : IsEntry t off)
    (unmarked : t.word off ≠ rtEntryAllocated) (absent : off ∉ free) :
    allocEntry t off = (t, none) := by
  have nonzero : off ≠ 0 := by
    have behind := entry.inside.1
    simp only [rtHeaderSize] at behind
    omega
  have notFirst : t.firstFree ≠ off := by
    intro same
    cases free with
    | nil => exact nonzero (same.symm.trans (inv.empty_iff.mp rfl))
    | cons node rest => exact absent (by simp [← same, linked_head inv.linked])
  have lost : findPredecessor t.word off 0x10000 t.firstFree = none :=
    findPredecessor_absent inv.linked inv.nonzero nonzero absent
  have refused : unlinkEntry t off = none := by
    rw [unlinkEntry, if_neg notFirst, lost]
  rw [allocEntry, if_neg unmarked, refused]

/-- The offsets `lfs_table_alloc_at` refuses by its own design. -/
def RefusedOffset (t : Table) (vbo : Nat) : Prop :=
  vbo < rtHeaderSize ∨ (vbo - rtHeaderSize) % t.esize ≠ 0 ∨
    0xffff ≤ (vbo - rtHeaderSize) / t.esize

/-- An aligned offset behind the header is that of the entry with its quotient as
index. -/
theorem aligned_offset {vbo : Nat} (behind : rtHeaderSize ≤ vbo)
    (aligned : (vbo - rtHeaderSize) % t.esize = 0) :
    vbo = rtHeaderSize + (vbo - rtHeaderSize) / t.esize * t.esize := by
  have divides : t.esize ∣ vbo - rtHeaderSize := Nat.dvd_of_mod_eq_zero aligned
  rw [Nat.div_mul_cancel divides]
  omega

theorem index_beyond (inv : TableInv t free) {vbo : Nat} (beyond : t.bytes ≤ vbo) :
    (vbo - rtHeaderSize) / t.esize = t.entries + (vbo - t.bytes) / t.esize := by
  have positive : 0 < t.esize := Nat.lt_of_lt_of_le (by decide) inv.esize_ge
  have distance : vbo - rtHeaderSize = vbo - t.bytes + t.esize * t.entries := by
    rw [inv.bytes_eq] at beyond ⊢
    omega
  rw [distance, Nat.add_mul_div_left _ _ positive, Nat.add_comm]

theorem entry_of_aligned (large : 4 ≤ t.esize) {vbo : Nat} (behind : rtHeaderSize ≤ vbo)
    (aligned : (vbo - rtHeaderSize) % t.esize = 0)
    (inside : vbo < rtHeaderSize + t.esize * t.entries) : IsEntry t vbo := by
  have positive : 0 < t.esize := Nat.lt_of_lt_of_le (by decide) large
  refine ⟨(vbo - rtHeaderSize) / t.esize, ?_, aligned_offset behind aligned⟩
  rw [Nat.div_lt_iff_lt_mul positive, Nat.mul_comm]
  omega

theorem IsEntry.notRefused (inv : TableInv t free) {vbo : Nat} (entry : IsEntry t vbo) :
    ¬ RefusedOffset t vbo := by
  have positive : 0 < t.esize := Nat.lt_of_lt_of_le (by decide) inv.esize_ge
  have few : t.entries < 65536 := lfGet16_lt t.buf rtNumberEntries
  have behind := entry.inside.1
  obtain ⟨k, below, rfl⟩ := entry
  unfold RefusedOffset
  rw [Table.entryOff, Nat.add_sub_cancel_left, Nat.mul_mod_left, Nat.mul_div_cancel _ positive]
  rw [Table.entryOff] at behind
  omega

/-- `lfs_table_alloc_at` of an admitted offset: the entry was allocated already and
nothing happens, or it is allocated now, or the free list has lost it, which a
list that covers all unallocated entries never has. -/
theorem lfsTableAllocAt_spec (inv : TableInv t free) (vbo : Nat) :
    (RefusedOffset t vbo ∧ lfsTableAllocAt t vbo = (t, none)) ∨
      (¬ RefusedOffset t vbo ∧
        ((Allocated t vbo ∧ lfsTableAllocAt t vbo = (t, some vbo)) ∨
          (∃ t' free', lfsTableAllocAt t vbo = (t', some vbo) ∧
            AllocatesEntry t t' free free' vbo) ∨
          (¬ CoversFree t free ∧ lfsTableAllocAt t vbo = (t, none)))) := by
  by_cases misplaced : (vbo < rtHeaderSize || (vbo - rtHeaderSize) % t.esize ≠ 0) = true
  · refine Or.inl ⟨?_, by rw [lfsTableAllocAt, if_pos misplaced]⟩
    rcases (Bool.or_eq_true _ _).mp misplaced with early | misaligned
    · exact Or.inl (of_decide_eq_true early)
    · exact Or.inr (Or.inl (of_decide_eq_true misaligned))
  have placed : rtHeaderSize ≤ vbo ∧ (vbo - rtHeaderSize) % t.esize = 0 := by
    simpa using misplaced
  obtain ⟨behind, aligned⟩ := placed
  have refused : RefusedOffset t vbo ↔ 0xffff ≤ (vbo - rtHeaderSize) / t.esize := by
    unfold RefusedOffset
    omega
  have place := aligned_offset behind aligned
  rw [lfsTableAllocAt, if_neg misplaced]
  by_cases beyond : vbo ≥ t.bytes
  · have index := index_beyond inv beyond
    rw [if_pos beyond]
    rw [index] at refused
    rcases tableExtend_spec inv (Nat.succ_pos ((vbo - t.bytes) / t.esize)) t.entries with
      ⟨full, failed⟩ | ⟨room, u, extended, grown⟩
    · refine Or.inl ⟨refused.mpr (by omega), ?_⟩
      rw [failed]
    · refine Or.inr ⟨fun bad => ?_, Or.inr (Or.inl ?_)⟩
      · have high := refused.mp bad
        omega
      have new : vbo ∈ free ++ entryRange t.esize t.entries ((vbo - t.bytes) / t.esize + 1) := by
        rw [index] at place
        exact List.mem_append_right _
          (mem_entryRange.mpr ⟨_, Nat.le_add_right _ _, by omega, place⟩)
      obtain ⟨t', computed, allocates⟩ := allocEntry_member grown.inv new
      refine ⟨t', _, ?_, AllocatesEntry.afterGrowth grown allocates⟩
      rw [extended]
      exact computed
  · rw [if_neg beyond]
    have entry : IsEntry t vbo :=
      entry_of_aligned inv.esize_ge behind aligned (by rw [← inv.bytes_eq]; omega)
    refine Or.inr ⟨entry.notRefused inv, ?_⟩
    by_cases marked : t.word vbo = rtEntryAllocated
    · exact Or.inl ⟨⟨entry, marked⟩, by rw [allocEntry, if_pos marked]⟩
    · refine Or.inr ?_
      by_cases member : vbo ∈ free
      · obtain ⟨t', computed, allocates⟩ := allocEntry_member inv member
        exact Or.inl ⟨t', _, computed, allocates⟩
      · exact Or.inr ⟨fun covers => member (covers vbo entry marked),
          allocEntry_absent inv entry marked member⟩

end Allocate

/-! ## Freeing an entry -/

/-- What freeing the entry at `off` does to a table. -/
structure FreesEntry (t t' : Table) (free free' : List Nat) (off : Nat) : Prop where
  size : t'.esize = t.esize
  entries : t'.entries = t.entries
  freed : ¬ Allocated t' off
  only : ∀ other, Allocated t' other → Allocated t other
  kept : KeepsAllocated t t' (some off)
  inv : TableInv t' free'
  covers : CoversFree t free → CoversFree t' free'

/-- The buffer of `t` after the entry at `off` has joined the free list `free'`,
before the count is lowered. -/
structure Relinked (t : Table) (m : Mem) (free free' : List Nat) (off : Nat) : Prop where
  size : lfGet16 m rtEntrySize = t.esize
  entries : lfGet16 m rtNumberEntries = t.entries
  total : lfGet16 m rtNumberAllocated = t.total
  linked : Linked (lfGet32 m) (lfGet32 m rtFirstFree) free' 0
  last : lfGet32 m rtLastFree = free'.getLast?.getD 0
  members : ∀ node, node ∈ free' ↔ node = off ∨ node ∈ free
  nodup : free'.Nodup
  unmarked : lfGet32 m off ≠ rtEntryAllocated
  marks : ∀ other, IsEntry t other → other ≠ off →
    (lfGet32 m other = rtEntryAllocated ↔ t.word other = rtEntryAllocated)
  kept : KeepsOthers t m free off

/-- Put the entry at `off` at the head of the free list. -/
def pushFront (t : Table) (off : Nat) : Mem :=
  let m := lfPut32 (lfPut32 t.buf off t.firstFree) rtFirstFree off
  if t.lastFree = 0 then lfPut32 m rtLastFree off else m

/-- Put the entry at `off` at the end of the free list. -/
def pushBack (t : Table) (off : Nat) : Mem :=
  let m := if t.lastFree ≠ 0 then lfPut32 t.buf t.lastFree off else lfPut32 t.buf rtFirstFree off
  lfPut32 (lfPut32 m rtLastFree off) off 0

section Free

variable {t : Table} {free free' : List Nat} {off : Nat}

theorem IsEntry.ne_mark (inv : TableInv t free) (entry : IsEntry t off) :
    off ≠ rtEntryAllocated := by
  have bound := entry.addressable
  have large := inv.esize_ge
  simp only [rtEntryAllocated]
  omega

theorem TableInv.lastFree_zero (inv : TableInv t free) : t.lastFree = 0 ↔ free = [] := by
  constructor
  · intro zero
    by_contra nonempty
    have first : t.firstFree ≠ 0 := fun none => nonempty (inv.empty_iff.mpr none)
    have behind := (inv.lastEntry first).1.inside.1
    rw [zero] at behind
    simp [rtHeaderSize] at behind
  · rintro rfl
    simpa using inv.last

theorem TableInv.not_free (inv : TableInv t free) (allocated : Allocated t off) : off ∉ free :=
  fun member => (inv.unallocated off member).2 allocated.2

/-- Lowering the count after an allocated entry has joined the free list restores
the invariant. -/
theorem Relinked.frees {m : Mem} {t' : Table} (relinked : Relinked t m free free' off)
    (inv : TableInv t free) (allocated : Allocated t off)
    (buffer : t'.buf = lfPut16 m rtNumberAllocated (lfGet16 m rtNumberAllocated + 0xffff))
    (bytes : t'.bytes = t.bytes) : FreesEntry t t' free free' off := by
  have field : ∀ width field, field + width ≤ rtNumberAllocated ∨ rtNumberAllocated + 2 ≤ field →
      getLE t'.buf width field = getLE m width field := by
    intro width field apart
    rw [buffer]
    exact getLE_putLE_disjoint apart
  have word : ∀ other, IsEntry t other → t'.word other = lfGet32 m other := by
    intro other entry
    refine field _ _ (Or.inr ?_)
    exact (show rtNumberAllocated + 2 ≤ rtHeaderSize by decide).trans entry.inside.1
  have size : t'.esize = t.esize := (field _ _ (by decide)).trans relinked.size
  have entries : t'.entries = t.entries := (field _ _ (by decide)).trans relinked.entries
  have sameEntry := isEntry_congr size entries
  have unmarked : t'.word off ≠ rtEntryAllocated := by
    rw [word off allocated.1]
    exact relinked.unmarked
  have marks : ∀ other, IsEntry t other → other ≠ off →
      (t'.word other = rtEntryAllocated ↔ t.word other = rtEntryAllocated) := by
    intro other entry distinct
    rw [word other entry]
    exact relinked.marks other entry distinct
  have count : allocatedCount t = allocatedCount t' + 1 := by
    refine allocatedCount_mark ?_ size.symm entries.symm ((sameEntry off).mpr allocated.1) unmarked
      allocated.2 (fun other entry distinct => ?_)
    · rw [size]
      exact Nat.lt_of_lt_of_le (by decide) inv.esize_ge
    · exact (marks other ((sameEntry other).mp entry) distinct).symm
  have total : t'.total = t.total - 1 := by
    have few : t.total < 65536 := lfGet16_lt t.buf rtNumberAllocated
    have positive : 0 < t.total := by
      rw [inv.count, count]
      exact Nat.succ_pos _
    rw [Table.total, buffer, relinked.total]
    refine (getLE_putLE _ _ _ _).trans ?_
    simp only [Nat.reducePow]
    omega
  refine { size := size, entries := entries, freed := fun still => unmarked still.2, only := ?_,
           kept := ?_, inv := ?_, covers := ?_ }
  · intro other still
    have distinct : other ≠ off := by
      rintro rfl
      exact unmarked still.2
    have oldEntry := (sameEntry other).mp still.1
    exact ⟨oldEntry, (marks other oldEntry distinct).mp still.2⟩
  · intro other otherAllocated different
    have distinct : other ≠ off := fun same => different (congrArg some same)
    refine ⟨⟨(sameEntry other).mpr otherAllocated.1,
      (marks other otherAllocated.1 distinct).mpr otherAllocated.2⟩, ?_⟩
    intro i lower upper
    have behind : rtNumberAllocated + 2 ≤ i :=
      (show rtNumberAllocated + 2 ≤ rtHeaderSize by decide).trans
        (otherAllocated.1.inside.1.trans lower)
    rw [buffer]
    exact (putLE_outside (Or.inr behind)).trans
      (relinked.kept.contents inv allocated.1 otherAllocated distinct lower upper)
  · refine { esize_ge := ?_, bytes_eq := ?_, linked := ?_, last := ?_, unallocated := ?_,
             nodup := relinked.nodup, count := ?_ }
    · rw [size]
      exact inv.esize_ge
    · rw [bytes, size, entries]
      exact inv.bytes_eq
    · rw [show t'.firstFree = lfGet32 m rtFirstFree from field _ _ (by decide)]
      refine linked_congr (fun node member => ?_) relinked.linked
      rcases (relinked.members node).mp member with rfl | old
      · exact (word node allocated.1).symm
      · exact (word node (inv.unallocated node old).1).symm
    · exact (field _ _ (by decide)).trans relinked.last
    · intro node member
      rcases (relinked.members node).mp member with rfl | old
      · exact ⟨(sameEntry node).mpr allocated.1, unmarked⟩
      · obtain ⟨entry, nodeUnmarked⟩ := inv.unallocated node old
        have distinct : node ≠ off := by
          rintro rfl
          exact inv.not_free allocated old
        exact ⟨(sameEntry node).mpr entry,
          fun marked => nodeUnmarked ((marks node entry distinct).mp marked)⟩
    · rw [total, inv.count, count]
      rfl
  · intro covers other entry otherUnmarked
    refine (relinked.members other).mpr ?_
    by_cases distinct : other = off
    · exact Or.inl distinct
    · have oldEntry := (sameEntry other).mp entry
      exact Or.inr (covers other oldEntry
        (fun marked => otherUnmarked ((marks other oldEntry distinct).mpr marked)))

/-- Pushing an allocated entry to the front of the free list. -/
theorem pushFront_relinked (inv : TableInv t free) (allocated : Allocated t off) :
    Relinked t (pushFront t off) free (off :: free) off := by
  obtain ⟨entry, marked⟩ := allocated
  have behind : 24 ≤ off := entry.inside.1
  have large := inv.esize_ge
  have small : off < 2 ^ 32 := Nat.lt_of_le_of_lt (Nat.le_add_right _ _) entry.addressable
  have early : ∀ width field, field + width ≤ rtFirstFree →
      getLE (pushFront t off) width field = getLE t.buf width field := by
    intro width field before
    simp only [rtFirstFree] at before
    simp only [pushFront, rtFirstFree, rtLastFree]
    split
    · simp (disch := omega) only [getLE_putLE_disjoint]
    · simp (disch := omega) only [getLE_putLE_disjoint]
  have late : ∀ i, rtHeaderSize ≤ i → pushFront t off i = lfPut32 t.buf off t.firstFree i := by
    intro i header
    simp only [rtHeaderSize] at header
    simp only [pushFront, rtFirstFree, rtLastFree]
    split
    · simp (disch := omega) only [putLE_outside]
    · simp (disch := omega) only [putLE_outside]
  have word : ∀ other, rtHeaderSize ≤ other →
      lfGet32 (pushFront t off) other = lfGet32 (lfPut32 t.buf off t.firstFree) other :=
    fun other header => getLE_congr (fun i lower _ => late i (header.trans lower))
  have others : ∀ other, IsEntry t other → other ≠ off →
      lfGet32 (pushFront t off) other = t.word other := by
    intro other otherEntry distinct
    have apart := otherEntry.disjoint entry distinct
    rw [word other otherEntry.inside.1]
    exact getLE_putLE_disjoint (by omega)
  have own : lfGet32 (pushFront t off) off = t.firstFree := by
    rw [word off entry.inside.1]
    exact getLE_putLE_of_lt (lfGet32_lt t.buf rtFirstFree)
  have first : lfGet32 (pushFront t off) rtFirstFree = off := by
    simp only [pushFront, rtFirstFree, rtLastFree]
    split
    · refine (getLE_putLE_disjoint (by omega)).trans (getLE_putLE_of_lt small)
    · exact getLE_putLE_of_lt small
  have last : lfGet32 (pushFront t off) rtLastFree = if t.lastFree = 0 then off else t.lastFree := by
    simp only [pushFront, rtFirstFree, rtLastFree]
    split
    · exact getLE_putLE_of_lt small
    · simp (disch := omega) only [getLE_putLE_disjoint]
      rfl
  refine { size := early _ _ (by decide), entries := early _ _ (by decide),
           total := early _ _ (by decide), linked := ?_, last := ?_, members := fun _ => List.mem_cons,
           nodup := List.nodup_cons.mpr ⟨inv.not_free ⟨entry, marked⟩, inv.nodup⟩, unmarked := ?_,
           marks := ?_, kept := ?_ }
  · rw [first]
    refine ⟨rfl, ?_⟩
    rw [own]
    refine linked_congr (fun node member => ?_) inv.linked
    have distinct : node ≠ off := by
      rintro rfl
      exact inv.not_free ⟨entry, marked⟩ member
    exact (others node (inv.unallocated node member).1 distinct).symm
  · rw [last]
    cases free with
    | nil => simp [inv.lastFree_zero]
    | cons node rest =>
      have nonzero : t.lastFree ≠ 0 := fun zero => by simpa using inv.lastFree_zero.mp zero
      rw [if_neg nonzero, inv.last, List.getLast?_cons_cons]
  · rw [own]
    cases free with
    | nil =>
      rw [inv.empty_iff.mp rfl]
      decide
    | cons node rest =>
      rw [linked_head inv.linked]
      exact (inv.unallocated node List.mem_cons_self).1.ne_mark inv
  · intro other otherEntry distinct
    rw [others other otherEntry distinct]
  · intro i header _ outside _
    rw [late i header]
    exact putLE_outside (by omega)

/-- Pushing an allocated entry to the end of the free list. -/
theorem pushBack_relinked (inv : TableInv t free) (allocated : Allocated t off) :
    Relinked t (pushBack t off) free (free ++ [off]) off := by
  obtain ⟨entry, marked⟩ := allocated
  have behind : 24 ≤ off := entry.inside.1
  have large := inv.esize_ge
  have fresh : off ∉ free := inv.not_free ⟨entry, marked⟩
  have small : off < 2 ^ 32 := Nat.lt_of_le_of_lt (Nat.le_add_right _ _) entry.addressable
  have lastEntry : t.lastFree ≠ 0 → IsEntry t t.lastFree ∧ t.lastFree ∈ free := by
    intro nonzero
    exact inv.lastEntry (fun none => nonzero (inv.lastFree_zero.mpr (inv.empty_iff.mpr none)))
  have lastBehind : t.lastFree ≠ 0 → 24 ≤ t.lastFree :=
    fun nonzero => (lastEntry nonzero).1.inside.1
  have early : ∀ width field, field + width ≤ rtFirstFree →
      getLE (pushBack t off) width field = getLE t.buf width field := by
    intro width field before
    simp only [rtFirstFree] at before
    simp only [pushBack, rtFirstFree, rtLastFree]
    by_cases empty : t.lastFree = 0
    · rw [if_neg (not_not.mpr empty)]
      simp (disch := omega) only [getLE_putLE_disjoint]
    · have header := lastBehind empty
      rw [if_pos empty]
      simp (disch := omega) only [getLE_putLE_disjoint]
  have first : lfGet32 (pushBack t off) rtFirstFree = if t.lastFree = 0 then off else t.firstFree := by
    simp only [pushBack, rtFirstFree, rtLastFree]
    by_cases empty : t.lastFree = 0
    · rw [if_neg (not_not.mpr empty), if_pos empty]
      simp (disch := omega) only [getLE_putLE_disjoint]
      exact getLE_putLE_of_lt small
    · have header := lastBehind empty
      rw [if_pos empty, if_neg empty]
      simp (disch := omega) only [getLE_putLE_disjoint]
      rfl
  have last : lfGet32 (pushBack t off) rtLastFree = off := by
    simp only [pushBack, rtLastFree]
    refine (getLE_putLE_disjoint (by omega)).trans (getLE_putLE_of_lt small)
  have own : lfGet32 (pushBack t off) off = 0 := getLE_putLE_of_lt (by decide)
  have redirected : t.lastFree ≠ 0 → lfGet32 (pushBack t off) t.lastFree = off := by
    intro nonzero
    have header := lastBehind nonzero
    have distinct : t.lastFree ≠ off := fun same => fresh (same ▸ (lastEntry nonzero).2)
    have apart := (lastEntry nonzero).1.disjoint entry distinct
    simp only [pushBack, rtFirstFree, rtLastFree, if_pos nonzero]
    simp (disch := omega) only [getLE_putLE_disjoint]
    exact getLE_putLE_of_lt small
  have late : ∀ i, rtHeaderSize ≤ i → (i < off ∨ off + 4 ≤ i) →
      (t.lastFree ≠ 0 → i < t.lastFree ∨ t.lastFree + 4 ≤ i) → pushBack t off i = t.buf i := by
    intro i header outside apart
    simp only [rtHeaderSize] at header
    simp only [pushBack, rtFirstFree, rtLastFree]
    by_cases empty : t.lastFree = 0
    · rw [if_neg (not_not.mpr empty)]
      simp (disch := omega) only [putLE_outside]
    · have separate := apart empty
      rw [if_pos empty]
      simp (disch := omega) only [putLE_outside]
  have others : ∀ other, IsEntry t other → other ≠ off → (t.lastFree ≠ 0 → other ≠ t.lastFree) →
      lfGet32 (pushBack t off) other = t.word other := by
    intro other otherEntry distinct notLast
    have header := otherEntry.inside.1
    have apart := otherEntry.disjoint entry distinct
    refine getLE_congr (fun i lower upper => late i (header.trans lower) (by omega) ?_)
    intro nonzero
    have separate := otherEntry.disjoint (lastEntry nonzero).1 (notLast nonzero)
    omega
  refine { size := early _ _ (by decide), entries := early _ _ (by decide),
           total := early _ _ (by decide), linked := ?_, last := ?_, members := ?_, nodup := ?_,
           unmarked := ?_, marks := ?_, kept := ?_ }
  · rw [first]
    refine linked_append.mpr ⟨off, ?_, rfl, own⟩
    rcases List.eq_nil_or_concat free with rfl | ⟨front, final, rfl⟩
    · rw [if_pos (inv.lastFree_zero.mpr rfl)]
      rfl
    rw [List.concat_eq_append] at inv fresh ⊢
    have nonzero : t.lastFree ≠ 0 := fun zero => by simpa using inv.lastFree_zero.mp zero
    have ends : t.lastFree = final := by simpa using inv.last
    rw [if_neg nonzero]
    refine linked_extend inv.linked (fun node member => ?_) (ends ▸ redirected nonzero)
    refine others node (inv.unallocated node (by simp [member])).1 ?_ (fun _ same => ?_)
    · rintro rfl
      exact fresh (List.mem_append_left _ member)
    · exact (List.nodup_append.mp inv.nodup).2.2 node member final (by simp) (same.trans ends)
  · rw [last, List.getLast?_append]
    rfl
  · intro node
    rw [List.mem_append, List.mem_singleton]
    exact or_comm
  · refine List.nodup_append.mpr ⟨inv.nodup, List.nodup_singleton off, ?_⟩
    rintro node member _ atEnd rfl
    exact fresh (List.mem_singleton.mp atEnd ▸ member)
  · rw [own]
    decide
  · intro other otherEntry distinct
    by_cases ending : t.lastFree ≠ 0 ∧ other = t.lastFree
    · obtain ⟨nonzero, rfl⟩ := ending
      rw [redirected nonzero]
      exact iff_of_false (entry.ne_mark inv) (inv.unallocated _ (lastEntry nonzero).2).2
    · rw [others other otherEntry distinct (fun nonzero same => ending ⟨nonzero, same⟩)]
  · intro i header _ outside nodes
    refine late i header (by omega) (fun nonzero => nodes _ (lastEntry nonzero).2)

theorem lfsTableFreeIdx_refused (refused : lfsTableEntryOk t off = false) :
    lfsTableFreeIdx t off = t := by
  simp [lfsTableFreeIdx, refused]

theorem lfsTableEntryOk_allocated (inv : TableInv t free) (allocated : Allocated t off) :
    lfsTableEntryOk t off = true := by
  obtain ⟨entry, marked⟩ := allocated
  have inside := entry.inside
  rw [← inv.bytes_eq] at inside
  rw [lfsTableEntryOk, Nat.mod_eq_of_lt entry.addressable]
  simp [inside, marked]

/-- `lfs_table_free_idx` of an allocated entry puts it on the free list: in front
below the free goal, else at the end. -/
theorem lfsTableFreeIdx_spec (inv : TableInv t free) (allocated : Allocated t off) :
    ∃ free', FreesEntry t (lfsTableFreeIdx t off) free free' off := by
  have accepted := lfsTableEntryOk_allocated inv allocated
  by_cases front : off < t.freeGoal
  · refine ⟨off :: free, (pushFront_relinked inv allocated).frees inv allocated ?_ ?_⟩
    · simp only [lfsTableFreeIdx, accepted, Bool.not_true, if_pos front, pushFront]
      rfl
    · simp [lfsTableFreeIdx, accepted]
  · refine ⟨free ++ [off], (pushBack_relinked inv allocated).frees inv allocated ?_ ?_⟩
    · simp only [lfsTableFreeIdx, accepted, Bool.not_true, if_neg front, pushBack]
      rfl
    · simp [lfsTableFreeIdx, accepted]

end Free

/-! ## Filling entries -/

/-- Nothing changes but allocated entries, behind their first `skip` bytes. -/
structure FillsEntries (skip : Nat) (t t' : Table) : Prop where
  bytes : t'.bytes = t.bytes
  outside : ∀ i, (∀ off, Allocated t off → i < off + skip ∨ off + t.esize ≤ i) →
    t'.buf i = t.buf i

namespace FillsEntries

variable {skip : Nat} {t t' t'' : Table} {free : List Nat}

theorem refl (skip : Nat) (t : Table) : FillsEntries skip t t :=
  { bytes := rfl, outside := fun _ _ => rfl }

theorem single {off : Nat} {m : Mem} (allocated : Allocated t off)
    (outside : ∀ i, i < off + skip ∨ off + t.esize ≤ i → m i = t.buf i) :
    FillsEntries skip t { t with buf := m } :=
  { bytes := rfl, outside := fun i away => outside i (away off allocated) }

theorem header (fills : FillsEntries skip t t') (enough : 4 ≤ skip) {width field : Nat}
    (inside : field + width ≤ rtHeaderSize) : getLE t'.buf width field = getLE t.buf width field := by
  refine getLE_congr (fun i _ upper => fills.outside i (fun off allocated => Or.inl ?_))
  have behind := allocated.1.inside.1
  omega

theorem size (fills : FillsEntries skip t t') (enough : 4 ≤ skip) : t'.esize = t.esize :=
  fills.header enough (by decide)

theorem entries (fills : FillsEntries skip t t') (enough : 4 ≤ skip) : t'.entries = t.entries :=
  fills.header enough (by decide)

theorem start (fills : FillsEntries skip t t') {off i : Nat}
    (entry : IsEntry t off) (lower : off ≤ i) (upper : i < off + skip) : t'.buf i = t.buf i := by
  refine fills.outside i ?_
  intro other allocated
  by_cases same : other = off
  · omega
  · have apart := allocated.1.disjoint entry same
    omega

theorem word (fills : FillsEntries skip t t') (enough : 4 ≤ skip)
    {off : Nat} (entry : IsEntry t off) : t'.word off = t.word off :=
  getLE_congr (fun _ lower upper => fills.start entry lower (by omega))

theorem allocated (fills : FillsEntries skip t t') (enough : 4 ≤ skip)
    (off : Nat) : Allocated t' off ↔ Allocated t off := by
  have sameEntry := isEntry_congr (fills.size enough) (fills.entries enough) off
  constructor
  · rintro ⟨entry, marked⟩
    have oldEntry := sameEntry.mp entry
    exact ⟨oldEntry, by rwa [fills.word enough oldEntry] at marked⟩
  · rintro ⟨entry, marked⟩
    exact ⟨sameEntry.mpr entry, by rwa [fills.word enough entry]⟩

theorem trans (first : FillsEntries skip t t') (second : FillsEntries skip t' t'')
    (enough : 4 ≤ skip) : FillsEntries skip t t'' := by
  refine { bytes := second.bytes.trans first.bytes, outside := ?_ }
  intro i away
  rw [second.outside i, first.outside i away]
  intro off still
  rw [first.size enough]
  exact away off ((first.allocated enough off).mp still)

/-- The invariant is about bytes that stay. -/
theorem inv (fills : FillsEntries skip t t') (enough : 4 ≤ skip)
    (inv : TableInv t free) : TableInv t' free := by
  have size := fills.size enough
  have entries := fills.entries enough
  have sameEntry := isEntry_congr size entries
  refine { esize_ge := ?_, bytes_eq := ?_, linked := ?_, last := ?_, unallocated := ?_,
           nodup := inv.nodup, count := ?_ }
  · rw [size]
    exact inv.esize_ge
  · rw [fills.bytes, size, entries]
    exact inv.bytes_eq
  · have first : t'.firstFree = t.firstFree := fills.header enough (by decide)
    rw [first]
    refine linked_congr (fun node member => ?_) inv.linked
    exact (fills.word enough (inv.unallocated node member).1).symm
  · exact (fills.header enough (by decide)).trans inv.last
  · intro node member
    obtain ⟨entry, unmarked⟩ := inv.unallocated node member
    exact ⟨(sameEntry node).mpr entry, by rwa [fills.word enough entry]⟩
  · have total : t'.total = t.total := fills.header enough (by decide)
    have positive : 0 < t.esize := Nat.lt_of_lt_of_le (by decide) inv.esize_ge
    rw [total, inv.count]
    refine (allocatedCount_grow size entries.ge (fun off entry => ?_) ?_ positive).symm
    · rw [fills.word enough entry]
    · exact fun off entry new => absurd ((sameEntry off).mp entry) new

theorem covers (fills : FillsEntries skip t t') (enough : 4 ≤ skip)
    (covers : CoversFree t free) : CoversFree t' free := by
  intro off entry unmarked
  have oldEntry := (isEntry_congr (fills.size enough) (fills.entries enough) off).mp entry
  exact covers off oldEntry (by rwa [fills.word enough oldEntry] at unmarked)

end FillsEntries

end Ttntfs.Logfile
