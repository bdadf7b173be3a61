import Ttntfs.Logfile.RestartTable
import Mathlib.Data.Finset.Card

/-!
# The restart-table invariant

The free list threads distinct unallocated entries from `RT_FIRST_FREE` to
`RT_LAST_FREE`, and `RT_NUMBER_ALLOCATED` counts the marked entries. Each table
operation keeps this; its lemma names the free list afterwards and the bytes that
may have changed, which are the addressed entry and the link words of free
entries. That every unallocated entry is on the free list is a separate fact,
since a table loaded from the log need not have it.
-/

namespace Ttntfs.Logfile

open Library.ByteMemory Library.LinkedOffsets

/-- Offset of the entry with a given index. -/
def Table.entryOff (t : Table) (k : Nat) : Nat := rtHeaderSize + k * t.esize

/-- An offset at which an entry of the table starts. -/
def IsEntry (t : Table) (off : Nat) : Prop := ∃ k, k < t.entries ∧ off = t.entryOff k

/-- An entry of the table that carries the allocation mark. -/
def Allocated (t : Table) (off : Nat) : Prop := IsEntry t off ∧ t.word off = rtEntryAllocated

/-- Number of entries that carry the allocation mark. -/
def allocatedCount (t : Table) : Nat :=
  ((Finset.range t.entries).filter fun k => t.word (t.entryOff k) = rtEntryAllocated).card

/-- The representation invariant of a restart table with a given free list. -/
structure TableInv (t : Table) (free : List Nat) : Prop where
  esize_ge : 4 ≤ t.esize
  bytes_eq : t.bytes = rtHeaderSize + t.esize * t.entries
  linked : Linked t.word t.firstFree free 0
  last : t.lastFree = free.getLast?.getD 0
  unallocated : ∀ off ∈ free, IsEntry t off ∧ t.word off ≠ rtEntryAllocated
  nodup : free.Nodup
  count : t.total = allocatedCount t

/-- Every unallocated entry is on the free list. -/
def CoversFree (t : Table) (free : List Nat) : Prop :=
  ∀ off, IsEntry t off → t.word off ≠ rtEntryAllocated → off ∈ free

/-- Nothing but the entry at `off` and the link words of free entries changes. -/
def KeepsOthers (t : Table) (m : Mem) (free : List Nat) (off : Nat) : Prop :=
  ∀ i, rtHeaderSize ≤ i → i < t.bytes → (i < off ∨ off + t.esize ≤ i) →
    (∀ node ∈ free, i < node ∨ node + 4 ≤ i) → m i = t.buf i

/-- Every allocated entry, apart from the addressed one where there is one, stays
allocated with the same contents. -/
def KeepsAllocated (t t' : Table) (addressed : Option Nat) : Prop :=
  ∀ other, Allocated t other → some other ≠ addressed →
    Allocated t' other ∧ ∀ i, other ≤ i → i < other + t.esize → t'.buf i = t.buf i

/-! ## Entry arithmetic -/

theorem lfGet16_lt (m : Mem) (off : Nat) : lfGet16 m off < 65536 :=
  getLE_lt m 2 off

theorem lfGet32_lt (m : Mem) (off : Nat) : lfGet32 m off < 2 ^ 32 :=
  getLE_lt m 4 off

/-- A table of 16-bit dimensions, with room for one more entry, is addressed
without wrapping 32 bits. -/
theorem dimensions_lt {esize entries : Nat} (small : esize < 65536) (few : entries < 65536) :
    rtHeaderSize + esize * entries + 65536 < 2 ^ 32 := by
  have product : esize * entries ≤ 65535 * 65535 :=
    Nat.mul_le_mul (by omega) (by omega)
  simp only [rtHeaderSize]
  omega

theorem IsEntry.inside {t : Table} {off : Nat} (entry : IsEntry t off) :
    rtHeaderSize ≤ off ∧ off + t.esize ≤ rtHeaderSize + t.esize * t.entries := by
  obtain ⟨k, below, rfl⟩ := entry
  have scaled : (k + 1) * t.esize ≤ t.entries * t.esize := Nat.mul_le_mul_right _ below
  rw [Nat.add_mul, Nat.one_mul, Nat.mul_comm t.entries] at scaled
  simp only [Table.entryOff]
  omega

theorem IsEntry.disjoint {t : Table} {a b : Nat} (first : IsEntry t a) (second : IsEntry t b)
    (different : a ≠ b) : a + t.esize ≤ b ∨ b + t.esize ≤ a := by
  obtain ⟨j, _, rfl⟩ := first
  obtain ⟨k, _, rfl⟩ := second
  simp only [Table.entryOff] at different ⊢
  rcases Nat.lt_trichotomy j k with less | same | greater
  · have scaled : (j + 1) * t.esize ≤ k * t.esize := Nat.mul_le_mul_right _ less
    rw [Nat.add_mul, Nat.one_mul] at scaled
    omega
  · exact absurd (by rw [same]) different
  · have scaled : (k + 1) * t.esize ≤ j * t.esize := Nat.mul_le_mul_right _ greater
    rw [Nat.add_mul, Nat.one_mul] at scaled
    omega

theorem IsEntry.addressable {t : Table} {off : Nat} (entry : IsEntry t off) :
    off + t.esize < 2 ^ 32 := by
  have bound := dimensions_lt (lfGet16_lt t.buf rtEntrySize) (lfGet16_lt t.buf rtNumberEntries)
  have inside := entry.inside.2
  simp only [Table.esize, Table.entries] at *
  omega

/-- Where entries are depends on their size and number alone. -/
theorem isEntry_congr {t t' : Table} (sameSize : t'.esize = t.esize)
    (sameCount : t'.entries = t.entries) (off : Nat) : IsEntry t' off ↔ IsEntry t off := by
  simp only [IsEntry, Table.entryOff, sameSize, sameCount]

theorem entryOff_injective {t : Table} (positive : 0 < t.esize) {j k : Nat}
    (same : t.entryOff j = t.entryOff k) : j = k := by
  simp only [Table.entryOff, Nat.add_left_cancel_iff] at same
  exact Nat.eq_of_mul_eq_mul_right positive same

/-- Marking one unmarked entry raises the count by one, whatever happens to the
link words of other unmarked entries. -/
theorem allocatedCount_mark {t t' : Table} {off : Nat} (positive : 0 < t.esize)
    (sameSize : t'.esize = t.esize) (sameCount : t'.entries = t.entries) (entry : IsEntry t off)
    (unmarked : t.word off ≠ rtEntryAllocated) (marked : t'.word off = rtEntryAllocated)
    (others : ∀ other, IsEntry t other → other ≠ off →
      (t'.word other = rtEntryAllocated ↔ t.word other = rtEntryAllocated)) :
    allocatedCount t' = allocatedCount t + 1 := by
  obtain ⟨k, below, rfl⟩ := entry
  have positions : ∀ j, t'.entryOff j = t.entryOff j := by
    intro j
    simp only [Table.entryOff, sameSize]
  have split : ((Finset.range t'.entries).filter fun j => t'.word (t'.entryOff j) = rtEntryAllocated) =
      insert k ((Finset.range t.entries).filter fun j => t.word (t.entryOff j) = rtEntryAllocated) := by
    ext j
    simp only [Finset.mem_filter, Finset.mem_range, Finset.mem_insert, sameCount, positions]
    by_cases same : j = k
    · subst same
      simp [below, marked]
    · by_cases inside : j < t.entries
      · have different : t.entryOff j ≠ t.entryOff k :=
          fun collide => same (entryOff_injective positive collide)
        simp [same, inside, others (t.entryOff j) ⟨j, inside, rfl⟩ different]
      · simp [same, inside]
  have fresh : k ∉ (Finset.range t.entries).filter fun j => t.word (t.entryOff j) = rtEntryAllocated := by
    simp [unmarked]
  rw [allocatedCount, split, Finset.card_insert_of_notMem fresh, allocatedCount]

/-- Entries appended without a mark leave the count alone. -/
theorem allocatedCount_grow {t t' : Table} (sameSize : t'.esize = t.esize)
    (grown : t.entries ≤ t'.entries)
    (old : ∀ off, IsEntry t off → (t'.word off = rtEntryAllocated ↔ t.word off = rtEntryAllocated))
    (fresh : ∀ off, IsEntry t' off → ¬ IsEntry t off → t'.word off ≠ rtEntryAllocated)
    (positive : 0 < t.esize) : allocatedCount t' = allocatedCount t := by
  have positions : ∀ j, t'.entryOff j = t.entryOff j := by
    intro j
    simp only [Table.entryOff, sameSize]
  unfold allocatedCount
  congr 1
  ext j
  simp only [Finset.mem_filter, Finset.mem_range, positions]
  constructor
  · rintro ⟨below, marked⟩
    by_cases inside : j < t.entries
    · exact ⟨inside, (old _ ⟨j, inside, rfl⟩).mp marked⟩
    · refine absurd marked (fresh _ ⟨j, below, (positions j).symm⟩ ?_)
      rintro ⟨k, kBelow, same⟩
      exact inside (entryOff_injective positive same ▸ kBelow)
  · rintro ⟨below, marked⟩
    exact ⟨Nat.lt_of_lt_of_le below grown, (old _ ⟨j, below, rfl⟩).mpr marked⟩

namespace TableInv

variable {t : Table} {free : List Nat}

theorem nonzero (inv : TableInv t free) : ∀ node ∈ free, node ≠ 0 := by
  intro node member
  have lower := (inv.unallocated node member).1.inside.1
  simp only [rtHeaderSize] at lower
  omega

theorem empty_iff (inv : TableInv t free) : free = [] ↔ t.firstFree = 0 :=
  linked_nil_iff inv.linked inv.nonzero

theorem bytes_lt (inv : TableInv t free) : t.bytes + 65536 < 2 ^ 32 := by
  rw [inv.bytes_eq]
  exact dimensions_lt (lfGet16_lt t.buf rtEntrySize) (lfGet16_lt t.buf rtNumberEntries)

theorem total_lt (inv : TableInv t free) {off : Nat} (entry : IsEntry t off)
    (unmarked : t.word off ≠ rtEntryAllocated) : t.total < t.entries := by
  obtain ⟨k, below, rfl⟩ := entry
  have strict : (Finset.range t.entries).filter (fun j => t.word (t.entryOff j) = rtEntryAllocated) ⊂
      Finset.range t.entries := by
    refine Finset.filter_ssubset.mpr ⟨k, Finset.mem_range.mpr below, unmarked⟩
  rw [inv.count, allocatedCount]
  simpa only [Finset.card_range] using Finset.card_lt_card strict

theorem length_le (inv : TableInv t free) : free.length ≤ t.entries := by
  have positions : free.toFinset ⊆ (Finset.range t.entries).image t.entryOff := by
    intro off member
    obtain ⟨k, below, rfl⟩ := (inv.unallocated off (List.mem_toFinset.mp member)).1
    exact Finset.mem_image.mpr ⟨k, Finset.mem_range.mpr below, rfl⟩
  calc free.length = free.toFinset.card := (List.toFinset_card_of_nodup inv.nodup).symm
    _ ≤ ((Finset.range t.entries).image t.entryOff).card := Finset.card_le_card positions
    _ ≤ (Finset.range t.entries).card := Finset.card_image_le
    _ = t.entries := Finset.card_range _

end TableInv

end Ttntfs.Logfile
