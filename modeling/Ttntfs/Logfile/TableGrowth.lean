import Ttntfs.Logfile.TakeEntry

/-!
# Making and growing restart tables

`lfs_table_init` chains all entries of a cleared table in order. `table_extend`
builds such a table, copies the old entries over its front and leads the old free
list into the remaining part of the chain.
-/

namespace Ttntfs.Logfile

open Library.ByteMemory Library.LinkedOffsets

/-- The offsets of `count` consecutive entries from index `start` on. -/
def entryRange (esize start count : Nat) : List Nat :=
  (List.range' start count).map fun k => rtHeaderSize + k * esize

theorem mem_entryRange {esize start count off : Nat} :
    off ∈ entryRange esize start count ↔
      ∃ k, start ≤ k ∧ k < start + count ∧ off = rtHeaderSize + k * esize := by
  simp only [entryRange, List.mem_map, List.mem_range'_1]
  constructor
  · rintro ⟨k, ⟨lower, upper⟩, rfl⟩
    exact ⟨k, lower, upper, rfl⟩
  · rintro ⟨k, lower, upper, rfl⟩
    exact ⟨k, ⟨lower, upper⟩, rfl⟩

theorem entryRange_nodup {esize start count : Nat} (positive : 0 < esize) :
    (entryRange esize start count).Nodup := by
  refine List.Nodup.map ?_ List.nodup_range'
  intro j k same
  exact Nat.eq_of_mul_eq_mul_right positive (Nat.add_left_cancel same)

theorem entryRange_getLast {esize start count : Nat} (positive : 0 < count) :
    (entryRange esize start count).getLast? = some (rtHeaderSize + (start + count - 1) * esize) := by
  obtain ⟨fewer, rfl⟩ := Nat.exists_eq_succ_of_ne_zero (Nat.pos_iff_ne_zero.mp positive)
  simp [entryRange, List.range'_concat]

/-- Entries each of which leads to the next, the last to the terminator, form a
free list. -/
theorem entryRange_linked {next : Nat → Nat} {esize start count : Nat} (positive : 0 < count)
    (successor : ∀ k, start ≤ k → k < start + count →
      next (rtHeaderSize + k * esize) =
        if k + 1 < start + count then rtHeaderSize + (k + 1) * esize else 0) :
    Linked next (rtHeaderSize + start * esize) (entryRange esize start count) 0 := by
  let position := fun k => if k < start + count then rtHeaderSize + k * esize else 0
  have walk : Linked next (position start) ((List.range' start count).map position)
      (position (start + count)) := by
    refine linked_consecutive position start count (fun k lower upper => ?_)
    simp only [position, upper, if_true]
    exact successor k lower upper
  have first : position start = rtHeaderSize + start * esize := if_pos (by omega)
  have stop : position (start + count) = 0 := if_neg (by omega)
  have nodes : (List.range' start count).map position = entryRange esize start count := by
    refine List.map_congr_left (fun k member => ?_)
    exact if_pos (List.mem_range'_1.mp member).2
  rwa [first, stop, nodes] at walk

/-! ## A fresh table -/

section Chain

variable {esize : Nat}

theorem chainEntries_outside (large : 4 ≤ esize) (n off : Nat) (m : Mem) {i : Nat}
    (outside : i < off ∨ off + n * esize ≤ i) : chainEntries esize n off m i = m i := by
  induction n generalizing off m with
  | zero => rfl
  | succ n ih =>
    rw [Nat.add_mul, Nat.one_mul] at outside
    rw [chainEntries, ih (off + esize) _ (by omega)]
    exact putLE_outside (by omega)

/-- Each chained entry leads to the entry behind it. -/
theorem chainEntries_word (large : 4 ≤ esize) (n off : Nat) (m : Mem) {k : Nat} (below : k < n)
    (fits : off + n * esize < 2 ^ 32) :
    lfGet32 (chainEntries esize n off m) (off + k * esize) = off + (k + 1) * esize := by
  induction n generalizing off m k with
  | zero => omega
  | succ n ih =>
    rw [Nat.add_mul, Nat.one_mul] at fits
    rw [chainEntries]
    cases k with
    | zero =>
      have kept : lfGet32 (chainEntries esize n (off + esize) (lfPut32 m off (off + esize))) off =
          lfGet32 (lfPut32 m off (off + esize)) off :=
        getLE_congr (fun i _ upper => chainEntries_outside large n _ _ (by omega))
      have stored : lfGet32 (lfPut32 m off (off + esize)) off = off + esize :=
        getLE_putLE_of_lt (by simp only [Nat.reducePow] at fits ⊢; omega)
      simpa using kept.trans stored
    | succ k =>
      have recursive := ih (off + esize) (lfPut32 m off (off + esize))
        (Nat.lt_of_succ_lt_succ below) (by omega)
      rw [show off + (k + 1) * esize = off + esize + k * esize by rw [Nat.add_mul]; omega,
        recursive, Nat.add_mul (k + 1) 1]
      omega

end Chain

section Fresh

variable {esize used : Nat}

theorem lfsTableInit_header (large : 4 ≤ esize) {width field : Nat}
    (header : field + width ≤ rtHeaderSize) :
    getLE (lfsTableInit esize used).buf width field = getLE (initHeader esize used) width field :=
  getLE_congr (fun _ _ upper =>
    chainEntries_outside large _ _ _ (Or.inl (Nat.lt_of_lt_of_le upper header)))

theorem lfsTableInit_dimensions (large : 4 ≤ esize) (small : esize < 65536) (few : used < 65536) :
    (lfsTableInit esize used).esize = esize ∧ (lfsTableInit esize used).entries = used := by
  constructor
  · refine (lfsTableInit_header large (by decide)).trans ?_
    simp only [initHeader, rtEntrySize, rtNumberEntries, rtFreeGoal, rtFirstFree, rtLastFree]
    simp (disch := omega) only [getLE_putLE_disjoint]
    exact getLE_putLE_of_lt small
  · refine (lfsTableInit_header large (by decide)).trans ?_
    simp only [initHeader, rtEntrySize, rtNumberEntries, rtFreeGoal, rtFirstFree, rtLastFree]
    simp (disch := omega) only [getLE_putLE_disjoint]
    exact getLE_putLE_of_lt few

theorem lfsTableInit_total (large : 4 ≤ esize) : (lfsTableInit esize used).total = 0 := by
  refine (lfsTableInit_header large (by decide)).trans ?_
  simp only [initHeader, rtEntrySize, rtNumberEntries, rtFreeGoal, rtFirstFree, rtLastFree,
    rtNumberAllocated]
  simp (disch := omega) only [getLE_putLE_disjoint]
  exact getLE_zeros 2 4

/-- The free list of a fresh table starts at its first entry and ends at its last. -/
theorem lfsTableInit_ends (large : 4 ≤ esize) (small : esize < 65536) (few : used < 65536)
    (someUsed : 0 < used) :
    (lfsTableInit esize used).firstFree = rtHeaderSize ∧
      (lfsTableInit esize used).lastFree = rtHeaderSize + (used - 1) * esize := by
  constructor
  · refine (lfsTableInit_header large (by decide)).trans ?_
    simp only [initHeader, rtFirstFree, rtLastFree]
    simp (disch := omega) only [getLE_putLE_disjoint]
    exact getLE_putLE_of_lt (by decide)
  · refine (lfsTableInit_header large (by decide)).trans ?_
    have index : (used + 2 ^ 32 - 1) % 2 ^ 32 = used - 1 := by
      rw [show used + 2 ^ 32 - 1 = used - 1 + 2 ^ 32 by omega, Nat.add_mod_right]
      exact Nat.mod_eq_of_lt (by omega)
    have bound := dimensions_lt small few
    have product : (used - 1) * esize ≤ esize * used := by
      rw [Nat.mul_comm]
      exact Nat.mul_le_mul_left _ (Nat.sub_le _ _)
    simp only [initHeader, index]
    exact getLE_putLE_of_lt (by simp only [Nat.reducePow] at bound ⊢; omega)

/-- The word of entry `k` of a fresh table: the next entry, or the terminator. -/
theorem lfsTableInit_word (large : 4 ≤ esize) (small : esize < 65536) (few : used < 65536)
    {k : Nat} (below : k < used) :
    (lfsTableInit esize used).word (rtHeaderSize + k * esize) =
      if k + 1 < used then rtHeaderSize + (k + 1) * esize else 0 := by
  have bound := dimensions_lt small few
  split
  next more =>
    refine chainEntries_word large (used - 1) rtHeaderSize _ (by omega) ?_
    have product : (used - 1) * esize ≤ esize * used := by
      rw [Nat.mul_comm]
      exact Nat.mul_le_mul_left _ (Nat.sub_le _ _)
    omega
  next final =>
    -- The last entry is behind the chain, where the buffer is still clear.
    have last : k = used - 1 := by omega
    refine (getLE_congr (fun i lower _ => ?_)).trans (getLE_zeros 4 (rtHeaderSize + k * esize))
    rw [last] at lower
    simp only [lfsTableInit]
    rw [chainEntries_outside large _ _ _ (Or.inr lower)]
    have behind : rtHeaderSize ≤ i := (Nat.le_add_right _ _).trans lower
    simp only [rtHeaderSize] at behind
    simp only [initHeader, rtEntrySize, rtNumberEntries, rtFreeGoal, rtFirstFree, rtLastFree]
    simp (disch := omega) only [putLE_outside]

/-- A fresh table is well formed, with all its entries on the free list in order. -/
theorem lfsTableInit_inv (large : 4 ≤ esize) (small : esize < 65536) (few : used < 65536)
    (someUsed : 0 < used) :
    TableInv (lfsTableInit esize used) (entryRange esize 0 used) ∧
      CoversFree (lfsTableInit esize used) (entryRange esize 0 used) := by
  obtain ⟨size, entries⟩ := lfsTableInit_dimensions large small few
  obtain ⟨first, last⟩ := lfsTableInit_ends large small few someUsed
  have bound := dimensions_lt small few
  have unmarked : ∀ k, k < used →
      (lfsTableInit esize used).word (rtHeaderSize + k * esize) ≠ rtEntryAllocated := by
    intro k below
    rw [lfsTableInit_word large small few below]
    split
    next more =>
      have product : (k + 1) * esize ≤ esize * used := by
        rw [Nat.mul_comm]
        exact Nat.mul_le_mul_left _ below
      simp only [rtEntryAllocated]
      omega
    next => decide
  have isEntry : ∀ k, k < used → IsEntry (lfsTableInit esize used) (rtHeaderSize + k * esize) := by
    intro k below
    exact ⟨k, by rwa [entries], by rw [Table.entryOff, size]⟩
  have linked : Linked (lfsTableInit esize used).word rtHeaderSize (entryRange esize 0 used) 0 := by
    have walk : Linked (lfsTableInit esize used).word (rtHeaderSize + 0 * esize)
        (entryRange esize 0 used) 0 := by
      refine entryRange_linked someUsed (fun k _ upper => ?_)
      rw [Nat.zero_add] at upper ⊢
      exact lfsTableInit_word large small few upper
    simpa using walk
  refine ⟨{ esize_ge := ?_, bytes_eq := ?_, linked := ?_, last := ?_, unallocated := ?_,
            nodup := entryRange_nodup (by omega), count := ?_ }, ?_⟩
  · rwa [size]
  · rw [size, entries]
    rfl
  · rwa [first]
  · rw [last, entryRange_getLast someUsed, Nat.zero_add]
    rfl
  · intro off member
    obtain ⟨k, _, upper, rfl⟩ := mem_entryRange.mp member
    rw [Nat.zero_add] at upper
    exact ⟨isEntry k upper, unmarked k upper⟩
  · rw [lfsTableInit_total large, allocatedCount]
    refine (Finset.card_eq_zero.mpr (Finset.filter_eq_empty_iff.mpr ?_)).symm
    intro k member
    rw [Finset.mem_range, entries] at member
    rw [Table.entryOff, size]
    exact unmarked k member
  · rintro off ⟨k, below, rfl⟩ _
    rw [entries] at below
    rw [Table.entryOff, size]
    exact mem_entryRange.mpr ⟨k, Nat.zero_le _, by omega, rfl⟩

end Fresh

/-! ## Growing a table -/

section Splice

variable {t : Table} {free : List Nat}

theorem TableInv.lastEntry (inv : TableInv t free) (nonempty : t.firstFree ≠ 0) :
    IsEntry t t.lastFree ∧ t.lastFree ∈ free := by
  have some_node : free ≠ [] := fun empty => nonempty (inv.empty_iff.mp empty)
  have final : t.lastFree = free.getLast some_node := by
    rw [inv.last, List.getLast?_eq_some_getLast some_node, Option.getD_some]
  have member : t.lastFree ∈ free := final ▸ List.getLast_mem some_node
  exact ⟨(inv.unallocated _ member).1, member⟩

theorem spliceChain_field (inv : TableInv t free) {m : Mem} {width field : Nat}
    (header : field + width ≤ rtHeaderSize)
    (other : field + width ≤ rtFirstFree ∨ rtFirstFree + 4 ≤ field) :
    getLE (spliceChain t m) width field = getLE m width field := by
  unfold spliceChain
  split
  next nonempty =>
    have behind := (inv.lastEntry nonempty).1.inside.1
    exact (getLE_putLE_disjoint (Or.inl (header.trans behind))).trans
      (getLE_putLE_disjoint other)
  next => exact getLE_putLE_disjoint other

theorem spliceChain_first (inv : TableInv t free) (m : Mem) :
    lfGet32 (spliceChain t m) rtFirstFree = if t.firstFree ≠ 0 then t.firstFree else t.bytes := by
  unfold spliceChain
  split
  next nonempty =>
    have behind : rtFirstFree + 4 ≤ t.lastFree :=
      (show rtFirstFree + 4 ≤ rtHeaderSize by decide).trans (inv.lastEntry nonempty).1.inside.1
    exact (getLE_putLE_disjoint (Or.inl behind)).trans
      (getLE_putLE_of_lt (lfGet32_lt t.buf rtFirstFree))
  next => exact getLE_putLE_of_lt (Nat.lt_of_le_of_lt (Nat.le_add_right _ _) inv.bytes_lt)

theorem spliceChain_last (inv : TableInv t free) (m : Mem) (nonempty : t.firstFree ≠ 0) :
    lfGet32 (spliceChain t m) t.lastFree = t.bytes := by
  unfold spliceChain
  rw [if_pos nonempty]
  exact getLE_putLE_of_lt (Nat.lt_of_le_of_lt (Nat.le_add_right _ _) inv.bytes_lt)

theorem spliceChain_behind {m : Mem} {i : Nat} (behind : rtHeaderSize ≤ i)
    (other : t.firstFree ≠ 0 → i < t.lastFree ∨ t.lastFree + 4 ≤ i) :
    spliceChain t m i = m i := by
  have header : rtFirstFree + 4 ≤ i := (show rtFirstFree + 4 ≤ rtHeaderSize by decide).trans behind
  unfold spliceChain
  split
  next nonempty => exact (putLE_outside (other nonempty)).trans (putLE_outside (Or.inr header))
  next => exact putLE_outside (Or.inr header)

end Splice

/-- What growing a table does: the old entries keep their marks, contents and
place, and new unmarked entries extend the free list. -/
structure GrowsTable (t t' : Table) (free : List Nat) (add : Nat) : Prop where
  size : t'.esize = t.esize
  entries : t'.entries = t.entries + add
  kept : KeepsAllocated t t' none
  marks : ∀ off, IsEntry t off → (t'.word off = rtEntryAllocated ↔ t.word off = rtEntryAllocated)
  inv : TableInv t' (free ++ entryRange t.esize t.entries add)

/-- The buffer `table_extend` builds, with `goal` stored as the free goal. -/
def extendBuffer (t : Table) (add goal : Nat) : Mem :=
  lfPut32 (copyRange (lfsTableInit t.esize (t.entries + add)).buf rtHeaderSize t.buf rtHeaderSize
    (t.esize * t.entries)) rtFreeGoal goal

/-- The table `table_extend` returns, with `goal` stored as the free goal. -/
def extended (t : Table) (add goal : Nat) : Table :=
  { buf := lfPut16 (spliceChain t (extendBuffer t add goal)) rtNumberAllocated t.total
    bytes := rtHeaderSize + t.esize * (t.entries + add) }

section Extend

variable {t : Table} {free : List Nat} {add goal : Nat}

/-- Header fields of the grown table other than the count, the goal and the start
of the free list are those of the fresh table. -/
theorem extended_field (inv : TableInv t free) {width field : Nat}
    (header : field + width ≤ rtHeaderSize)
    (other : field + width ≤ rtNumberAllocated ∨ rtFirstFree + 4 ≤ field) :
    getLE (extended t add goal).buf width field =
      getLE (lfsTableInit t.esize (t.entries + add)).buf width field := by
  simp only [rtNumberAllocated, rtFirstFree] at other
  simp only [rtHeaderSize] at header
  have spliced : getLE (spliceChain t (extendBuffer t add goal)) width field =
      getLE (extendBuffer t add goal) width field :=
    spliceChain_field inv header (by simp only [rtFirstFree]; omega)
  refine (getLE_putLE_disjoint (by simp only [rtNumberAllocated]; omega)).trans (spliced.trans ?_)
  refine (getLE_putLE_disjoint (by simp only [rtFreeGoal]; omega)).trans ?_
  exact getLE_copyRange_outside (Or.inl header)

/-- Old bytes behind the header are copied, but for the word that leads into the
new entries. -/
theorem extended_old (inv : TableInv t free) {i : Nat} (behind : rtHeaderSize ≤ i)
    (old : i < t.bytes) (other : t.firstFree ≠ 0 → i < t.lastFree ∨ t.lastFree + 4 ≤ i) :
    (extended t add goal).buf i = t.buf i := by
  rw [inv.bytes_eq] at old
  have far : rtNumberAllocated + 2 ≤ i := (show rtNumberAllocated + 2 ≤ rtHeaderSize by decide).trans behind
  have past : rtFreeGoal + 4 ≤ i := (show rtFreeGoal + 4 ≤ rtHeaderSize by decide).trans behind
  simp only [extended, lfPut16]
  rw [putLE_outside (Or.inr far), spliceChain_behind behind other]
  simp only [extendBuffer, lfPut32]
  rw [putLE_outside (Or.inr past), copyRange_inside behind old, Nat.add_sub_cancel' behind]

/-- Bytes of the new entries are those of the fresh table. -/
theorem extended_new (inv : TableInv t free) {i : Nat} (new : t.bytes ≤ i) :
    (extended t add goal).buf i = (lfsTableInit t.esize (t.entries + add)).buf i := by
  have behind : rtHeaderSize ≤ i := by
    rw [inv.bytes_eq] at new
    omega
  have far : rtNumberAllocated + 2 ≤ i := (show rtNumberAllocated + 2 ≤ rtHeaderSize by decide).trans behind
  have past : rtFreeGoal + 4 ≤ i := (show rtFreeGoal + 4 ≤ rtHeaderSize by decide).trans behind
  have beyondLast : t.firstFree ≠ 0 → i < t.lastFree ∨ t.lastFree + 4 ≤ i := by
    intro nonempty
    have upper := (inv.lastEntry nonempty).1.inside.2
    have large := inv.esize_ge
    rw [← inv.bytes_eq] at upper
    omega
  simp only [extended, lfPut16]
  rw [inv.bytes_eq] at new
  rw [putLE_outside (Or.inr far), spliceChain_behind behind beyondLast]
  simp only [extendBuffer, lfPut32]
  rw [putLE_outside (Or.inr past), copyRange_outside (Or.inr new)]

theorem extended_oldWord (inv : TableInv t free) {off : Nat} (entry : IsEntry t off)
    (other : t.firstFree ≠ 0 → off ≠ t.lastFree) :
    (extended t add goal).word off = t.word off := by
  have large := inv.esize_ge
  have inside := entry.inside
  rw [← inv.bytes_eq] at inside
  refine getLE_congr (fun i lower upper => extended_old inv (by omega) (by omega) ?_)
  intro nonempty
  have apart := entry.disjoint (inv.lastEntry nonempty).1 (other nonempty)
  omega

theorem extended_lastWord (inv : TableInv t free) (nonempty : t.firstFree ≠ 0) :
    (extended t add goal).word t.lastFree = t.bytes := by
  have behind := (inv.lastEntry nonempty).1.inside.1
  refine (getLE_putLE_disjoint (Or.inr ?_)).trans (spliceChain_last inv _ nonempty)
  exact (show rtNumberAllocated + 2 ≤ rtHeaderSize by decide).trans behind

theorem extended_newWord (inv : TableInv t free) (room : t.entries + add < 65536) {k : Nat}
    (lower : t.entries ≤ k) (upper : k < t.entries + add) :
    (extended t add goal).word (rtHeaderSize + k * t.esize) =
      if k + 1 < t.entries + add then rtHeaderSize + (k + 1) * t.esize else 0 := by
  rw [← lfsTableInit_word inv.esize_ge (lfGet16_lt t.buf rtEntrySize) room upper]
  refine getLE_congr (fun i start _ => extended_new inv ?_)
  have product : t.esize * t.entries ≤ k * t.esize := by
    rw [Nat.mul_comm k]
    exact Nat.mul_le_mul_left _ lower
  rw [inv.bytes_eq]
  omega

theorem extended_marks (inv : TableInv t free) {off : Nat} (entry : IsEntry t off) :
    (extended t add goal).word off = rtEntryAllocated ↔ t.word off = rtEntryAllocated := by
  by_cases final : t.firstFree ≠ 0 ∧ off = t.lastFree
  · -- The old end of the list leads to the first new entry: still no mark.
    obtain ⟨nonempty, rfl⟩ := final
    rw [extended_lastWord inv nonempty]
    refine iff_of_false ?_ (inv.unallocated _ (inv.lastEntry nonempty).2).2
    have small := inv.bytes_lt
    simp only [rtEntryAllocated]
    omega
  · rw [extended_oldWord inv entry (fun nonempty same => final ⟨nonempty, same⟩)]

theorem extended_unmarked (inv : TableInv t free) (room : t.entries + add < 65536) {k : Nat}
    (lower : t.entries ≤ k) (upper : k < t.entries + add) :
    (extended t add goal).word (rtHeaderSize + k * t.esize) ≠ rtEntryAllocated := by
  have bound := dimensions_lt (lfGet16_lt t.buf rtEntrySize) room
  rw [extended_newWord inv room lower upper]
  split
  next more =>
    have product : (k + 1) * t.esize ≤ t.esize * (t.entries + add) := by
      rw [Nat.mul_comm]
      exact Nat.mul_le_mul_left _ upper
    simp only [Table.esize] at product
    simp only [rtEntryAllocated, Table.esize]
    omega
  next => decide

/-- The old free list runs into the new entries. -/
theorem extended_linked (inv : TableInv t free) (positive : 0 < add)
    (room : t.entries + add < 65536) :
    Linked (extended t add goal).word (if t.firstFree ≠ 0 then t.firstFree else t.bytes)
      (free ++ entryRange t.esize t.entries add) 0 := by
  have start : t.bytes = rtHeaderSize + t.entries * t.esize := by
    rw [inv.bytes_eq, Nat.mul_comm]
  have chain : Linked (extended t add goal).word t.bytes (entryRange t.esize t.entries add) 0 := by
    rw [start]
    exact entryRange_linked positive (fun k lower upper => extended_newWord inv room lower upper)
  refine linked_append.mpr ⟨t.bytes, ?_, chain⟩
  rcases List.eq_nil_or_concat free with rfl | ⟨front, last, rfl⟩
  · have empty : t.firstFree = 0 := inv.empty_iff.mp rfl
    simp [empty, Linked]
  · rw [List.concat_eq_append] at inv ⊢
    have nonempty : t.firstFree ≠ 0 := fun zero => by simpa using inv.empty_iff.mpr zero
    have final : t.lastFree = last := by simpa using inv.last
    rw [if_pos nonempty]
    refine linked_extend inv.linked (fun node member => ?_) (final ▸ extended_lastWord inv nonempty)
    refine extended_oldWord inv (inv.unallocated node (by simp [member])).1 (fun _ same => ?_)
    exact (List.nodup_append.mp inv.nodup).2.2 node member last (by simp) (same.trans final)

/-- Growing a table by at least one entry within the 16-bit count keeps it well
formed. The old list runs into the chain of the fresh table, whose end is already
in `RT_LAST_FREE`. -/
theorem extended_grows (inv : TableInv t free) (positive : 0 < add)
    (room : t.entries + add < 65536) : GrowsTable t (extended t add goal) free add := by
  have large : 4 ≤ t.esize := inv.esize_ge
  have small : t.esize < 65536 := lfGet16_lt t.buf rtEntrySize
  obtain ⟨freshSize, freshEntries⟩ := lfsTableInit_dimensions large small room
  have size : (extended t add goal).esize = t.esize :=
    (extended_field inv (by decide) (by decide)).trans freshSize
  have entries : (extended t add goal).entries = t.entries + add :=
    (extended_field inv (by decide) (by decide)).trans freshEntries
  have last : (extended t add goal).lastFree = rtHeaderSize + (t.entries + add - 1) * t.esize :=
    (extended_field inv (by decide) (by decide)).trans
      (lfsTableInit_ends large small room (by omega)).2
  have first : (extended t add goal).firstFree =
      if t.firstFree ≠ 0 then t.firstFree else t.bytes :=
    (getLE_putLE_disjoint (by decide)).trans (spliceChain_first inv _)
  have total : (extended t add goal).total = t.total :=
    getLE_putLE_of_lt (lfGet16_lt t.buf rtNumberAllocated)
  have oldEntry : ∀ off, IsEntry t off → IsEntry (extended t add goal) off := by
    rintro off ⟨k, below, rfl⟩
    exact ⟨k, by omega, by rw [Table.entryOff, Table.entryOff, size]⟩
  have count : allocatedCount (extended t add goal) = allocatedCount t := by
    refine allocatedCount_grow size (by omega) (fun off entry => extended_marks inv entry) ?_ (by omega)
    rintro off ⟨k, below, rfl⟩ new
    rw [entries] at below
    rw [Table.entryOff, size] at new ⊢
    refine extended_unmarked inv room ?_ below
    by_contra early
    exact new ⟨k, by omega, rfl⟩
  refine { size := size, entries := entries, kept := ?_,
           marks := fun off entry => extended_marks inv entry, inv := ?_ }
  · rintro other ⟨entry, marked⟩ _
    refine ⟨⟨oldEntry other entry, (extended_marks inv entry).mpr marked⟩, ?_⟩
    intro i lower upper
    have inside := entry.inside
    rw [← inv.bytes_eq] at inside
    refine extended_old inv (by omega) (by omega) (fun nonempty => ?_)
    have different : other ≠ t.lastFree := by
      rintro rfl
      exact (inv.unallocated _ (inv.lastEntry nonempty).2).2 marked
    have apart := entry.disjoint (inv.lastEntry nonempty).1 different
    omega
  · refine { esize_ge := by rwa [size], bytes_eq := by rw [size, entries]; rfl, linked := ?_,
             last := ?_, unallocated := ?_, nodup := ?_, count := ?_ }
    · rw [first]
      exact extended_linked inv positive room
    · rw [last, List.getLast?_append, entryRange_getLast positive]
      rfl
    · intro off member
      rcases List.mem_append.mp member with old | new
      · obtain ⟨entry, unmarked⟩ := inv.unallocated off old
        exact ⟨oldEntry off entry, fun marked => unmarked ((extended_marks inv entry).mp marked)⟩
      · obtain ⟨k, lower, upper, rfl⟩ := mem_entryRange.mp new
        exact ⟨⟨k, by rwa [entries], by rw [Table.entryOff, size]⟩,
          extended_unmarked inv room lower upper⟩
    · refine List.nodup_append.mpr ⟨inv.nodup, entryRange_nodup (by omega), ?_⟩
      rintro off old _ new rfl
      obtain ⟨k, lower, _, rfl⟩ := mem_entryRange.mp new
      obtain ⟨j, below, same⟩ := (inv.unallocated _ old).1
      have collide : k = j := entryOff_injective (by omega) same
      omega
    · rw [total, count]
      exact inv.count

theorem tableExtend_spec (inv : TableInv t free) (positive : 0 < add) (goal : Nat) :
    (t.entries + add > 0xffff ∧ tableExtend t add goal = none) ∨
      (t.entries + add ≤ 0xffff ∧
        ∃ t', tableExtend t add goal = some t' ∧ GrowsTable t t' free add) := by
  by_cases room : t.entries + add > 0xffff
  · refine Or.inl ⟨room, ?_⟩
    rw [tableExtend, if_pos room]
  · let stored := if goal = 0xffffffff then 0xffffffff else rtHeaderSize + goal * t.esize
    refine Or.inr ⟨by omega, extended t add stored, ?_, extended_grows inv positive (by omega)⟩
    rw [tableExtend, if_neg room]
    rfl

end Extend

end Ttntfs.Logfile
