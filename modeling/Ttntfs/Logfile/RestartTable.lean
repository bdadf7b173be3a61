import Ttntfs.Logfile.Layout
import Ttntfs.Library.LinkedOffsets

/-!
# Restart tables

The in-memory restart tables of `logfile_tables.c`: a header followed by
fixed-size entries, kept in the format in which they are dumped into the log. An
allocated entry begins with `RT_ENTRY_ALLOCATED`; a free one with the offset of
the next free entry, zero ending the list. Offsets and sizes are 32-bit, so the
sums the source may wrap are reduced here. Memory allocation is taken to succeed.
-/

namespace Ttntfs.Logfile

open Library.ByteMemory Library.LinkedOffsets

/-- A table with a buffer: `struct lfs_table` with `buf` non-null. -/
structure Table where
  buf : Mem
  bytes : Nat

namespace Table

/-- `lfs_table_esize` -/
def esize (t : Table) : Nat := lfGet16 t.buf rtEntrySize

/-- The `RT_NUMBER_ENTRIES` field. -/
def entries (t : Table) : Nat := lfGet16 t.buf rtNumberEntries

/-- `lfs_table_total` of a table with a buffer. -/
def total (t : Table) : Nat := lfGet16 t.buf rtNumberAllocated

/-- The `RT_FREE_GOAL` field. -/
def freeGoal (t : Table) : Nat := lfGet32 t.buf rtFreeGoal

/-- The `RT_FIRST_FREE` field. -/
def firstFree (t : Table) : Nat := lfGet32 t.buf rtFirstFree

/-- The `RT_LAST_FREE` field. -/
def lastFree (t : Table) : Nat := lfGet32 t.buf rtLastFree

/-- The first word of the entry at `off`: its mark when allocated, else its
successor on the free list. -/
def word (t : Table) (off : Nat) : Nat := lfGet32 t.buf off

end Table

/-- `table_bytes` -/
def tableBytes (rt : Mem) : Nat :=
  rtHeaderSize + lfGet16 rt rtNumberEntries * lfGet16 rt rtEntrySize

/-- The free list walk of `lfs_table_check`. `budget` counts down from one more
than the number of entries, the steps its guard allows. -/
def walkFree (rt : Mem) (ts : Nat) : Nat → Nat → Bool
  | _, 0 => true
  | 0, _ + 1 => false
  | budget + 1, off + 1 =>
    if off + 1 = rtEntryAllocated then false
    else
      let next := lfGet32 rt (off + 1)
      if next > ts - 4 then false else walkFree rt ts budget next

/-- The test of one entry's first word in `lfs_table_check`. -/
def entryWordOk (rt : Mem) (rsize i : Nat) : Bool :=
  let off := lfGet32 rt (rtHeaderSize + i * rsize)
  !(off ≠ rtEntryAllocated && off ≠ 0 &&
    (off < rtHeaderSize || (off - rtHeaderSize) % rsize ≠ 0))

/-- `lfs_table_check` -/
def lfsTableCheck (rt : Mem) (bytes : Nat) : Bool :=
  if bytes < rtHeaderSize then false
  else
    let rsize := lfGet16 rt rtEntrySize
    let ne := lfGet16 rt rtNumberEntries
    let ff := lfGet32 rt rtFirstFree
    let lf := lfGet32 rt rtLastFree
    let ts := rtHeaderSize + rsize * ne
    if rsize = 0 || rsize < 4 || rsize > bytes || bytes < ts ||
        lfGet16 rt rtNumberAllocated > ne || ff > ts - 4 || lf > ts - 4 ||
        (ff ≠ 0 && ff < rtHeaderSize) || (lf ≠ 0 && lf < rtHeaderSize) then false
    else if !(List.range ne).all (entryWordOk rt rsize) then false
    else walkFree rt ts (ne + 1) ff

/-- `lfs_table_copy` -/
def lfsTableCopy (src : Mem) (bytes : Nat) : Option Table :=
  let need := tableBytes src
  if need > bytes then none
  else some { buf := copyRange zeros 0 src 0 need, bytes := need }

/-- The loop of `lfs_table_init` that chains `n` entries from `off` on. -/
def chainEntries (esize : Nat) : Nat → Nat → Mem → Mem
  | 0, _, m => m
  | n + 1, off, m => chainEntries esize n (off + esize) (lfPut32 m off (off + esize))

/-- The header `lfs_table_init` stores in a cleared buffer. -/
def initHeader (esize used : Nat) : Mem :=
  let m := lfPut16 zeros rtEntrySize esize
  let m := lfPut16 m rtNumberEntries used
  let m := lfPut32 m rtFreeGoal 0xffffffff
  let m := lfPut32 m rtFirstFree rtHeaderSize
  lfPut32 m rtLastFree (rtHeaderSize + (used + 2 ^ 32 - 1) % 2 ^ 32 * esize)

/-- `lfs_table_init` -/
def lfsTableInit (esize used : Nat) : Table :=
  { buf := chainEntries esize (used - 1) rtHeaderSize (initHeader esize used)
    bytes := rtHeaderSize + esize * used }

/-- The loop of `lfs_table_next`: the first allocated entry at or after `off`. -/
def scanAllocated (t : Table) : Nat → Nat → Option Nat
  | 0, _ => none
  | fuel + 1, off =>
    if off + t.esize ≤ t.bytes then
      if t.word off = rtEntryAllocated then some off else scanAllocated t fuel (off + t.esize)
    else none

/-- `lfs_table_next`; the entry is named by its offset. Every round moves on by
one entry, so the number of entries bounds the rounds. -/
def lfsTableNext (t : Table) (cur : Option Nat) : Option Nat :=
  if t.total = 0 then none
  else
    let start := match cur with
      | some off => off + t.esize
      | none => rtHeaderSize
    scanAllocated t (t.entries + 1) start

/-- `lfs_table_entry_ok` of a table with a buffer. -/
def lfsTableEntryOk (t : Table) (off : Nat) : Bool :=
  decide (rtHeaderSize ≤ off) && decide ((off + t.esize) % 2 ^ 32 ≤ t.bytes) &&
    decide (t.word off = rtEntryAllocated)

/-- The splice of `table_extend`: the old free list leads into the new entries, or
the new entries are the whole list. -/
def spliceChain (t : Table) (m : Mem) : Mem :=
  if t.firstFree ≠ 0 then lfPut32 (lfPut32 m rtFirstFree t.firstFree) t.lastFree t.bytes
  else lfPut32 m rtFirstFree t.bytes

/-- `table_extend`; none is `-E2BIG`. -/
def tableExtend (t : Table) (add freeGoalEntry : Nat) : Option Table :=
  let esize := t.esize
  let used := t.entries
  if used + add > 0xffff then none
  else
    let nt := lfsTableInit esize (used + add)
    let m := copyRange nt.buf rtHeaderSize t.buf rtHeaderSize (esize * used)
    let m := lfPut32 m rtFreeGoal
      (if freeGoalEntry = 0xffffffff then 0xffffffff else rtHeaderSize + freeGoalEntry * esize)
    some { buf := lfPut16 (spliceChain t m) rtNumberAllocated t.total, bytes := nt.bytes }

/-- Both allocators clear `RT_LAST_FREE` when the free list has run empty. -/
def settleLast (m : Mem) : Mem :=
  if lfGet32 m rtFirstFree = 0 then lfPut32 m rtLastFree 0 else m

/-- Take the entry at the head of the free list: `lfs_table_alloc` after the
table has been extended where it was full. -/
def allocFirst (t : Table) : Table × Option Nat :=
  let off := t.firstFree
  if off < rtHeaderSize || (off + t.esize) % 2 ^ 32 > t.bytes then (t, none)
  else
    let next := t.word off
    let m := lfPut32 t.buf rtFirstFree next
    let m := lfPut32 (fillRange m off t.esize 0) off rtEntryAllocated
    let m := settleLast m
    ({ t with buf := lfPut16 m rtNumberAllocated (lfGet16 m rtNumberAllocated + 1) }, some off)

/-- `lfs_table_alloc`; the entry is named by its offset, none is a null result. -/
def lfsTableAlloc (t : Table) : Table × Option Nat :=
  if t.firstFree = 0 then
    match tableExtend t 16 0xffffffff with
    | none => (t, none)
    | some extended => allocFirst extended
  else allocFirst t

/-- The unlinking half of `lfs_table_alloc_at`: the buffer with the entry at `vbo`
taken off the free list, or none when the list does not hold it. -/
def unlinkEntry (t : Table) (vbo : Nat) : Option Mem :=
  if t.firstFree = vbo then some (lfPut32 t.buf rtFirstFree (t.word vbo))
  else
    match findPredecessor t.word vbo 0x10000 t.firstFree with
    | none => none
    | some prev =>
      let m := lfPut32 t.buf prev (t.word vbo)
      some (if lfGet32 m rtLastFree = vbo then lfPut32 m rtLastFree prev else m)

/-- Take a given entry of the table: `lfs_table_alloc_at` after the table has been
extended to hold it. -/
def allocEntry (t : Table) (vbo : Nat) : Table × Option Nat :=
  if t.word vbo = rtEntryAllocated then (t, some vbo)
  else
    match unlinkEntry t vbo with
    | none => (t, none)
    | some m =>
      let m := settleLast m
      let m := lfPut32 (fillRange m vbo t.esize 0) vbo rtEntryAllocated
      ({ t with buf := lfPut16 m rtNumberAllocated (lfGet16 m rtNumberAllocated + 1) }, some vbo)

/-- `lfs_table_alloc_at`; none is a null result. -/
def lfsTableAllocAt (t : Table) (vbo : Nat) : Table × Option Nat :=
  if vbo < rtHeaderSize || (vbo - rtHeaderSize) % t.esize ≠ 0 then (t, none)
  else if vbo ≥ t.bytes then
    match tableExtend t ((vbo - t.bytes) / t.esize + 1) t.entries with
    | none => (t, none)
    | some extended => allocEntry extended vbo
  else allocEntry t vbo

/-- `lfs_table_free_idx` -/
def lfsTableFreeIdx (t : Table) (off : Nat) : Table :=
  let lf := t.lastFree
  if !lfsTableEntryOk t off then t
  else
    let m :=
      if off < t.freeGoal then
        let m := lfPut32 t.buf off t.firstFree
        let m := lfPut32 m rtFirstFree off
        if lf = 0 then lfPut32 m rtLastFree off else m
      else
        let m := if lf ≠ 0 then lfPut32 t.buf lf off else lfPut32 t.buf rtFirstFree off
        let m := lfPut32 m rtLastFree off
        lfPut32 m off 0
    { t with buf := lfPut16 m rtNumberAllocated (lfGet16 m rtNumberAllocated + 0xffff) }

end Ttntfs.Logfile
