import Ttntfs.Logfile.TableInvariant

/-!
# Taking an entry off the free list

Both allocators unlink one entry from the free list, clear it, mark it and count
it. `lfs_table_alloc` takes the first entry; `lfs_table_alloc_at` may take any, in
which case the predecessor is redirected. The marking half is proved once, from
what an unlinked buffer looks like.
-/

namespace Ttntfs.Logfile

open Library.ByteMemory Library.LinkedOffsets

/-- The buffer of `t` after the entry at `off` has left the free list: `free` is
threaded through it, and no mark has changed. -/
structure Unlinked (t : Table) (m : Mem) (free : List Nat) (off : Nat) : Prop where
  size : lfGet16 m rtEntrySize = t.esize
  entries : lfGet16 m rtNumberEntries = t.entries
  total : lfGet16 m rtNumberAllocated = t.total
  linked : Linked (lfGet32 m) (lfGet32 m rtFirstFree) free 0
  last : lfGet32 m rtLastFree = free.getLast?.getD 0
  nodes : ∀ node ∈ free, IsEntry t node ∧ node ≠ off ∧ lfGet32 m node ≠ rtEntryAllocated
  nodup : free.Nodup
  marks : ∀ other, IsEntry t other → other ≠ off →
    (lfGet32 m other = rtEntryAllocated ↔ t.word other = rtEntryAllocated)

/-- Clear the entry at `off`, mark it and count it: how both allocators end. -/
def markEntry (t : Table) (m : Mem) (off : Nat) : Table :=
  let m := lfPut32 (fillRange m off t.esize 0) off rtEntryAllocated
  { t with buf := lfPut16 m rtNumberAllocated (lfGet16 m rtNumberAllocated + 1) }

/-- What allocating the entry at `off` does to a table. -/
structure TakesEntry (t t' : Table) (free free' : List Nat) (off : Nat) : Prop where
  size : t'.esize = t.esize
  entries : t'.entries = t.entries
  bytes : t'.bytes = t.bytes
  marked : t'.word off = rtEntryAllocated
  zeroed : ∀ i, off + 4 ≤ i → i < off + t.esize → t'.buf i = 0
  marks : ∀ other, IsEntry t other → other ≠ off →
    (t'.word other = rtEntryAllocated ↔ t.word other = rtEntryAllocated)
  kept : KeepsOthers t t'.buf free off
  inv : TableInv t' free'

theorem markEntry_header {t : Table} {m : Mem} {off width field : Nat}
    (entry : IsEntry t off) (header : field + width ≤ rtHeaderSize)
    (other : field + width ≤ rtNumberAllocated ∨ rtNumberAllocated + 2 ≤ field) :
    getLE (markEntry t m off).buf width field = getLE m width field := by
  have behind := entry.inside.1
  simp only [markEntry]
  rw [getLE_putLE_disjoint (by omega), getLE_putLE_disjoint (by omega),
    getLE_fillRange_outside (by omega)]

theorem markEntry_word {t : Table} {m : Mem} {off other : Nat} (entry : IsEntry t off)
    (size : 4 ≤ t.esize) (otherEntry : IsEntry t other) (different : other ≠ off) :
    (markEntry t m off).word other = lfGet32 m other := by
  have behind := otherEntry.inside.1
  have apart := otherEntry.disjoint entry different
  simp only [rtHeaderSize] at behind
  simp only [markEntry, Table.word, rtNumberAllocated]
  simp (disch := omega) only [getLE_putLE_disjoint, getLE_fillRange_outside]

/-- Clearing and marking an unlinked entry restores the invariant with the entry
allocated and zeroed. The links and marks of all other entries are those of the
unlinked buffer; the count grows by exactly the new mark. -/
theorem markEntry_takes {t : Table} {m : Mem} {free free' : List Nat} {off : Nat}
    (inv : TableInv t free) (entry : IsEntry t off) (unmarked : t.word off ≠ rtEntryAllocated)
    (unlinked : Unlinked t m free' off) (kept : KeepsOthers t m free off) :
    TakesEntry t (markEntry t m off) free free' off := by
  have large : 4 ≤ t.esize := inv.esize_ge
  have behind : 24 ≤ off := entry.inside.1
  have size : (markEntry t m off).esize = t.esize :=
    (markEntry_header entry (by decide) (by decide)).trans unlinked.size
  have entries : (markEntry t m off).entries = t.entries :=
    (markEntry_header entry (by decide) (by decide)).trans unlinked.entries
  have first : (markEntry t m off).firstFree = lfGet32 m rtFirstFree :=
    markEntry_header entry (by decide) (by decide)
  have last : (markEntry t m off).lastFree = lfGet32 m rtLastFree :=
    markEntry_header entry (by decide) (by decide)
  have marked : (markEntry t m off).word off = rtEntryAllocated := by
    simp only [markEntry, Table.word, rtNumberAllocated]
    simp (disch := omega) only [getLE_putLE_disjoint]
    exact getLE_putLE_of_lt (by decide)
  have others : ∀ other, IsEntry t other → other ≠ off →
      (markEntry t m off).word other = lfGet32 m other :=
    fun other otherEntry different => markEntry_word entry large otherEntry different
  have total : (markEntry t m off).total = t.total + 1 := by
    have room : t.total < t.entries := inv.total_lt entry unmarked
    have few : t.entries < 65536 := lfGet16_lt t.buf rtNumberEntries
    have before : lfGet16 (lfPut32 (fillRange m off t.esize 0) off rtEntryAllocated)
        rtNumberAllocated = t.total := by
      rw [← unlinked.total]
      simp only [rtNumberAllocated]
      simp (disch := omega) only [getLE_putLE_disjoint, getLE_fillRange_outside]
    have fits : t.total + 1 < 256 ^ 2 := by
      simp only [Nat.reducePow]
      omega
    change lfGet16 (lfPut16 _ _ (lfGet16 _ _ + 1)) _ = _
    rw [before]
    exact getLE_putLE_of_lt fits
  have marks : ∀ other, IsEntry t other → other ≠ off →
      ((markEntry t m off).word other = rtEntryAllocated ↔ t.word other = rtEntryAllocated) := by
    intro other otherEntry different
    rw [others other otherEntry different]
    exact unlinked.marks other otherEntry different
  have count : allocatedCount (markEntry t m off) = allocatedCount t + 1 :=
    allocatedCount_mark (by omega) size entries entry unmarked marked marks
  refine { size := size, entries := entries, bytes := rfl, marked := marked, zeroed := ?_,
           marks := marks, kept := ?_, inv := ?_ }
  · intro i lower upper
    simp only [markEntry, rtNumberAllocated]
    simp (disch := omega) only [putLE_outside, fillRange_inside]
  · intro i lower upper outside free
    simp only [rtHeaderSize] at lower
    rw [← kept i lower upper outside free]
    simp only [markEntry, rtNumberAllocated]
    simp (disch := omega) only [putLE_outside, fillRange_outside]
  · refine { esize_ge := ?_, bytes_eq := ?_, linked := ?_, last := ?_, unallocated := ?_, nodup := ?_,
             count := ?_ }
    · rw [size]
      exact large
    · rw [size, entries]
      exact inv.bytes_eq
    · rw [first]
      refine linked_congr (fun node member => ?_) unlinked.linked
      obtain ⟨nodeEntry, different, _⟩ := unlinked.nodes node member
      exact (others node nodeEntry different).symm
    · rw [last]
      exact unlinked.last
    · intro node member
      obtain ⟨nodeEntry, different, nodeUnmarked⟩ := unlinked.nodes node member
      refine ⟨(isEntry_congr size entries node).mpr nodeEntry, ?_⟩
      rw [others node nodeEntry different]
      exact nodeUnmarked
    · exact unlinked.nodup
    · rw [total, count, inv.count]

theorem header_store_word {m : Mem} {width field value off : Nat}
    (header : field + width ≤ rtHeaderSize) (behind : rtHeaderSize ≤ off) :
    lfGet32 (putLE m width field value) off = lfGet32 m off :=
  getLE_putLE_disjoint (by omega)

theorem settleLast_behind {m : Mem} {i : Nat} (behind : rtHeaderSize ≤ i) :
    settleLast m i = m i := by
  unfold settleLast
  split
  · simp only [rtHeaderSize] at behind
    exact putLE_outside (by simp only [rtLastFree]; omega)
  · rfl

theorem settleLast_word {m : Mem} {off : Nat} (behind : rtHeaderSize ≤ off) :
    lfGet32 (settleLast m) off = lfGet32 m off :=
  getLE_congr (fun _ lower _ => settleLast_behind (behind.trans lower))

theorem settleLast_field {m : Mem} {width field : Nat} (before : field + width ≤ rtLastFree) :
    getLE (settleLast m) width field = getLE m width field := by
  unfold settleLast
  split
  · exact getLE_putLE_disjoint (by omega)
  · rfl

theorem settleLast_last (m : Mem) :
    lfGet32 (settleLast m) rtLastFree = if lfGet32 m rtFirstFree = 0 then 0 else lfGet32 m rtLastFree := by
  unfold settleLast
  split
  · exact getLE_putLE_of_lt (by decide)
  · rfl

/-- Settling `RT_LAST_FREE` may be done before or after an entry is cleared and
marked. -/
theorem settleLast_mark {m : Mem} {off n : Nat} (behind : rtHeaderSize ≤ off) :
    settleLast (lfPut32 (fillRange m off n 0) off rtEntryAllocated) =
      lfPut32 (fillRange (settleLast m) off n 0) off rtEntryAllocated := by
  simp only [rtHeaderSize] at behind
  have first : lfGet32 (lfPut32 (fillRange m off n 0) off rtEntryAllocated) rtFirstFree =
      lfGet32 m rtFirstFree := by
    simp only [rtFirstFree]
    simp (disch := omega) only [getLE_putLE_disjoint, getLE_fillRange_outside]
  simp only [settleLast, first]
  split
  · simp only [rtLastFree]
    calc putLE (putLE (fillRange m off n 0) 4 off rtEntryAllocated) 4 20 0
        = putLE (putLE (fillRange m off n 0) 4 20 0) 4 off rtEntryAllocated := putLE_comm (by omega)
      _ = putLE (fillRange (putLE m 4 20 0) off n 0) 4 off rtEntryAllocated := by
          rw [putLE_fillRange_comm (by omega)]
  · rfl

section MoveFirst

variable {t : Table} {off : Nat} {rest : List Nat}

/-- Moving `RT_FIRST_FREE` past the first free entry unlinks that entry. -/
theorem moveFirst_unlinked (inv : TableInv t (off :: rest)) :
    Unlinked t (settleLast (lfPut32 t.buf rtFirstFree (t.word off))) rest off := by
  have fresh : off ∉ rest := (List.nodup_cons.mp inv.nodup).1
  let moved := lfPut32 t.buf rtFirstFree (t.word off)
  have successor : lfGet32 moved rtFirstFree = t.word off :=
    getLE_putLE_of_lt (lfGet32_lt t.buf off)
  have words : ∀ other, rtHeaderSize ≤ other → lfGet32 (settleLast moved) other = t.word other := by
    intro other behind
    rw [settleLast_word behind]
    exact header_store_word (by decide) behind
  have fields : ∀ field width, field + width ≤ rtFirstFree →
      getLE (settleLast moved) width field = getLE t.buf width field := by
    intro field width early
    simp only [rtFirstFree] at early
    rw [settleLast_field (by simp only [rtLastFree]; omega)]
    exact getLE_putLE_disjoint (by simp only [rtFirstFree]; omega)
  have newFirst : lfGet32 (settleLast moved) rtFirstFree = t.word off :=
    (settleLast_field (by decide)).trans successor
  refine { size := fields _ _ (by decide), entries := fields _ _ (by decide),
           total := fields _ _ (by decide), linked := ?_, last := ?_, nodes := ?_,
           nodup := (List.nodup_cons.mp inv.nodup).2, marks := ?_ }
  · rw [newFirst]
    refine linked_congr (fun node member => ?_) inv.linked.2
    exact (words node (inv.unallocated node (List.mem_cons_of_mem _ member)).1.inside.1).symm
  · -- The list runs empty exactly when the first entry had no successor.
    have emptied : rest = [] ↔ t.word off = 0 :=
      linked_nil_iff inv.linked.2 (fun node member =>
        inv.nonzero node (List.mem_cons_of_mem _ member))
    rw [settleLast_last, successor]
    by_cases ends : t.word off = 0
    · simp [ends, emptied.mpr ends]
    · obtain ⟨node, tail, rfl⟩ := List.exists_cons_of_ne_nil (fun none => ends (emptied.mp none))
      have kept : lfGet32 moved rtLastFree = t.lastFree := getLE_putLE_disjoint (by decide)
      rw [if_neg ends, kept, inv.last, List.getLast?_cons_cons]
  · intro node member
    obtain ⟨nodeEntry, nodeUnmarked⟩ := inv.unallocated node (List.mem_cons_of_mem _ member)
    refine ⟨nodeEntry, fun same => fresh (same ▸ member), ?_⟩
    rw [words node nodeEntry.inside.1]
    exact nodeUnmarked
  · intro other otherEntry _
    rw [words other otherEntry.inside.1]

theorem moveFirst_keeps (free : List Nat) :
    KeepsOthers t (settleLast (lfPut32 t.buf rtFirstFree (t.word off))) free off := by
  intro i behind _ _ _
  rw [settleLast_behind behind]
  simp only [rtHeaderSize] at behind
  exact putLE_outside (by simp only [rtFirstFree]; omega)

theorem allocFirst_takes (inv : TableInv t (off :: rest)) :
    ∃ t', allocFirst t = (t', some off) ∧ TakesEntry t t' (off :: rest) rest off := by
  obtain ⟨entry, unmarked⟩ := inv.unallocated off List.mem_cons_self
  have first : t.firstFree = off := inv.linked.1
  have inside : ¬ (off < rtHeaderSize || (off + t.esize) % 2 ^ 32 > t.bytes) = true := by
    have upper := entry.inside.2
    rw [← inv.bytes_eq] at upper
    rw [Nat.mod_eq_of_lt entry.addressable]
    simp [entry.inside.1, upper]
  refine ⟨markEntry t (settleLast (lfPut32 t.buf rtFirstFree (t.word off))) off, ?_,
    markEntry_takes inv entry unmarked (moveFirst_unlinked inv) (moveFirst_keeps _)⟩
  simp only [allocFirst, first, if_neg inside, markEntry]
  rw [settleLast_mark entry.inside.1]

end MoveFirst

/-- Unlinking a later entry moves the end of the list back by one exactly when the
entry was the end. -/
theorem getLast_unlink {front back : List Nat} {before off : Nat} (fresh : off ∉ back) :
    ((front ++ before :: back).getLast?.getD 0) =
      if (front ++ before :: off :: back).getLast?.getD 0 = off then before
      else (front ++ before :: off :: back).getLast?.getD 0 := by
  cases back with
  | nil => simp
  | cons node rest =>
    have final : (node :: rest).getLast? = some ((node :: rest).getLast (by simp)) :=
      List.getLast?_eq_some_getLast (by simp)
    have other : (node :: rest).getLast (by simp) ≠ off :=
      fun same => fresh (same ▸ List.getLast_mem (by simp))
    simp only [List.getLast?_append, List.getLast?_cons_cons, final, Option.some_or,
      Option.getD_some, other, if_false]

/-- Redirect the predecessor `before` of a free entry past it, and with it the end
of the list where the entry was last. -/
def redirectPast (t : Table) (before off : Nat) : Mem :=
  let m := lfPut32 t.buf before (t.word off)
  if lfGet32 m rtLastFree = off then lfPut32 m rtLastFree before else m

section RedirectPast

variable {t : Table} {before off : Nat}

theorem redirectPast_field {width field : Nat} (entry : IsEntry t before)
    (early : field + width ≤ rtLastFree) :
    getLE (redirectPast t before off) width field = getLE t.buf width field := by
  have behind := entry.inside.1
  have once : getLE (lfPut32 t.buf before (t.word off)) width field = getLE t.buf width field := by
    simp only [rtLastFree] at early
    simp only [rtHeaderSize] at behind
    exact getLE_putLE_disjoint (Or.inl (by omega))
  unfold redirectPast
  simp only []
  split
  · exact (getLE_putLE_disjoint (Or.inl early)).trans once
  · exact once

theorem redirectPast_last (entry : IsEntry t before) :
    lfGet32 (redirectPast t before off) rtLastFree =
      if t.lastFree = off then before else t.lastFree := by
  have behind := entry.inside.1
  have kept : lfGet32 (lfPut32 t.buf before (t.word off)) rtLastFree = t.lastFree := by
    simp only [rtHeaderSize] at behind
    exact getLE_putLE_disjoint (Or.inl (by simp only [rtLastFree]; omega))
  unfold redirectPast
  simp only [kept]
  split
  · exact getLE_putLE_of_lt (Nat.lt_of_le_of_lt (Nat.le_add_right _ _) entry.addressable)
  · exact kept

theorem redirectPast_behind {i : Nat} (behind : rtHeaderSize ≤ i) :
    redirectPast t before off i = lfPut32 t.buf before (t.word off) i := by
  unfold redirectPast
  split
  · simp only [rtHeaderSize] at behind
    exact putLE_outside (by simp only [rtLastFree]; omega)
  · rfl

theorem redirectPast_before (entry : IsEntry t before) :
    lfGet32 (redirectPast t before off) before = t.word off :=
  calc lfGet32 (redirectPast t before off) before
      = lfGet32 (lfPut32 t.buf before (t.word off)) before :=
        getLE_congr (fun _ lower _ => redirectPast_behind (entry.inside.1.trans lower))
    _ = t.word off := getLE_putLE_of_lt (lfGet32_lt t.buf off)

theorem redirectPast_other {other : Nat} (size : 4 ≤ t.esize) (entry : IsEntry t before)
    (otherEntry : IsEntry t other) (different : other ≠ before) :
    lfGet32 (redirectPast t before off) other = t.word other := by
  have apart := otherEntry.disjoint entry different
  calc lfGet32 (redirectPast t before off) other
      = lfGet32 (lfPut32 t.buf before (t.word off)) other :=
        getLE_congr (fun _ lower _ => redirectPast_behind (otherEntry.inside.1.trans lower))
    _ = t.word other := getLE_putLE_disjoint (by omega)

end RedirectPast

/-- A later entry of the free list is unlinked by redirecting its predecessor. -/
theorem redirectPast_unlinked {t : Table} {before off : Nat} {front back : List Nat}
    (inv : TableInv t (front ++ before :: off :: back)) :
    Unlinked t (settleLast (redirectPast t before off)) (front ++ before :: back) off := by
  obtain ⟨_, tailNodup, apart⟩ := List.nodup_append.mp inv.nodup
  obtain ⟨beforeFresh, offNodup⟩ := List.nodup_cons.mp tailNodup
  have offFresh : off ∉ back := (List.nodup_cons.mp offNodup).1
  obtain ⟨beforeEntry, beforeUnmarked⟩ := inv.unallocated before (by simp)
  have offUnmarked : t.word off ≠ rtEntryAllocated := (inv.unallocated off (by simp)).2
  have others : ∀ other, IsEntry t other → other ≠ before →
      lfGet32 (redirectPast t before off) other = t.word other :=
    fun other otherEntry different =>
      redirectPast_other inv.esize_ge beforeEntry otherEntry different
  have fields : ∀ field width, field + width ≤ rtLastFree →
      getLE (settleLast (redirectPast t before off)) width field = getLE t.buf width field :=
    fun field width early => (settleLast_field early).trans (redirectPast_field beforeEntry early)
  have occurs : ∀ node ∈ front ++ before :: back, node ∈ front ++ before :: off :: back := by
    intro node member
    simp only [List.mem_append, List.mem_cons] at member ⊢
    tauto
  refine { size := fields _ _ (by decide), entries := fields _ _ (by decide),
           total := fields _ _ (by decide), linked := ?_, last := ?_, nodes := ?_, nodup := ?_,
           marks := ?_ }
  · have unlinked : Linked (lfGet32 (redirectPast t before off)) t.firstFree
        (front ++ before :: back) 0 := by
      refine linked_unlink inv.linked (fun other member => ?_) (fun other member => ?_)
        (redirectPast_before beforeEntry)
      · exact others other (inv.unallocated other (by simp [member])).1
          (fun same => apart other member before (by simp) same)
      · exact others other (inv.unallocated other (by simp [member])).1
          (fun same => beforeFresh (by simp [← same, member]))
    rw [show lfGet32 (settleLast (redirectPast t before off)) rtFirstFree = t.firstFree from
      fields _ _ (by decide)]
    refine linked_congr (fun node member => ?_) unlinked
    exact (settleLast_word (inv.unallocated node (occurs node member)).1.inside.1).symm
  · have nonempty : t.firstFree ≠ 0 := fun zero => by simpa using inv.empty_iff.mpr zero
    have first : lfGet32 (redirectPast t before off) rtFirstFree = t.firstFree :=
      redirectPast_field beforeEntry (by decide)
    rw [settleLast_last, first, if_neg nonempty, getLast_unlink offFresh, ← inv.last,
      redirectPast_last beforeEntry]
  · intro node member
    obtain ⟨nodeEntry, nodeUnmarked⟩ := inv.unallocated node (occurs node member)
    have distinct : node ≠ off := by
      rintro rfl
      rcases List.mem_append.mp member with early | late
      · exact apart node early node (by simp) rfl
      · rcases List.mem_cons.mp late with rfl | later
        · exact beforeFresh List.mem_cons_self
        · exact offFresh later
    refine ⟨nodeEntry, distinct, ?_⟩
    rw [settleLast_word nodeEntry.inside.1]
    by_cases atBefore : node = before
    · rw [atBefore, redirectPast_before beforeEntry]
      exact offUnmarked
    · rw [others node nodeEntry atBefore]
      exact nodeUnmarked
  · refine List.Nodup.sublist ?_ inv.nodup
    exact List.Sublist.append_left
      (List.Sublist.cons_cons before (List.sublist_cons_self off back)) front
  · intro other otherEntry _
    rw [settleLast_word otherEntry.inside.1]
    by_cases atBefore : other = before
    · -- Neither the old nor the new link of a free entry is the mark.
      rw [atBefore, redirectPast_before beforeEntry]
      exact iff_of_false offUnmarked beforeUnmarked
    · rw [others other otherEntry atBefore]

theorem redirectPast_keeps {t : Table} {before off : Nat} {free : List Nat}
    (member : before ∈ free) :
    KeepsOthers t (settleLast (redirectPast t before off)) free off := by
  intro i behind _ _ nodes
  calc settleLast (redirectPast t before off) i
      = redirectPast t before off i := settleLast_behind behind
    _ = lfPut32 t.buf before (t.word off) i := redirectPast_behind behind
    _ = t.buf i := putLE_outside (nodes before member)

/-- The source finds the predecessor of every free entry that is not the first. -/
theorem unlinkEntry_later {t : Table} {before off : Nat} {front back : List Nat}
    (inv : TableInv t (front ++ before :: off :: back)) :
    unlinkEntry t off = some (redirectPast t before off) := by
  obtain ⟨_, tailNodup, apart⟩ := List.nodup_append.mp inv.nodup
  have beforeFresh : before ∉ off :: back := (List.nodup_cons.mp tailNodup).1
  have later : off ∉ front ++ [before] := by
    intro member
    rcases List.mem_append.mp member with early | atBefore
    · exact apart off early off (by simp) rfl
    · exact beforeFresh (by simp [List.mem_singleton.mp atBefore])
  have notFirst : t.firstFree ≠ off := by
    intro same
    apply later
    cases front with
    | nil => simp [← linked_head inv.linked, same]
    | cons node rest => simp [← linked_head inv.linked, same]
  have enough : front.length ≤ 0x10000 := by
    have short := inv.length_le
    have few : t.entries < 65536 := lfGet16_lt t.buf rtNumberEntries
    simp only [List.length_append, List.length_cons] at short
    omega
  have found : findPredecessor t.word off 0x10000 t.firstFree = some before :=
    findPredecessor_linked inv.linked inv.nonzero later enough
  rw [unlinkEntry, if_neg notFirst, found]
  rfl

/-- Any entry of the free list can be unlinked; the others stay in order. -/
theorem unlinkEntry_member {t : Table} {off : Nat} {free : List Nat} (inv : TableInv t free)
    (member : off ∈ free) :
    ∃ m, unlinkEntry t off = some m ∧ Unlinked t (settleLast m) (free.erase off) off ∧
      KeepsOthers t (settleLast m) free off := by
  obtain ⟨front, back, rfl⟩ := List.append_of_mem member
  have fresh : off ∉ front := fun early =>
    (List.nodup_append.mp inv.nodup).2.2 off early off List.mem_cons_self rfl
  rw [List.erase_append_right _ fresh, List.erase_cons_head]
  rcases List.eq_nil_or_concat front with rfl | ⟨earlier, before, rfl⟩
  · have first : t.firstFree = off := inv.linked.1
    refine ⟨lfPut32 t.buf rtFirstFree (t.word off), ?_, moveFirst_unlinked inv, moveFirst_keeps _⟩
    rw [unlinkEntry, if_pos first]
  · rw [List.concat_append] at inv ⊢
    rw [List.concat_append]
    exact ⟨redirectPast t before off, unlinkEntry_later inv, redirectPast_unlinked inv,
      redirectPast_keeps (by simp)⟩

end Ttntfs.Logfile
