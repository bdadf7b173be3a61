import Ttntfs.Logfile.TableRuns

/-!
# Tables loaded from the log

`lfs_table_check` decides which dumped tables are used. It bounds every link,
checks that the links of the entries are aligned and walks the free list, so an
accepted list that starts at an entry threads distinct unallocated entries. Three
things are not looked at: that the start is aligned, that `RT_LAST_FREE` is where
the list ends, and that `RT_NUMBER_ALLOCATED` is the number of marks.
-/

namespace Ttntfs.Logfile

open Library.ByteMemory Library.LinkedOffsets

/-! ## Enumerating the allocated entries -/

/-- All results of `lfs_table_next`, each call given the result before it. -/
def iterateNext (t : Table) : Nat → Option Nat → List Nat
  | 0, _ => []
  | fuel + 1, cur =>
    match lfsTableNext t cur with
    | none => []
    | some off => off :: iterateNext t fuel (some off)

/-- The allocated entries from index `k` on, in the order of their offsets. -/
def allocatedFrom (t : Table) (k : Nat) : List Nat :=
  ((List.range' k (t.entries - k)).filter fun j => t.word (t.entryOff j) = rtEntryAllocated).map
    t.entryOff

/-- `lfs_table_next` visits exactly the allocated entries, in order. -/
def EnumeratesAllocated (t : Table) : Prop :=
  iterateNext t (t.entries + 1) none = allocatedFrom t 0

/-- The size of a table is that of its header and its entries. -/
structure TableShape (t : Table) : Prop where
  esize_ge : 4 ≤ t.esize
  bytes_eq : t.bytes = rtHeaderSize + t.esize * t.entries

section Enumerate

variable {t : Table} {free : List Nat}

theorem TableInv.shape (inv : TableInv t free) : TableShape t :=
  { esize_ge := inv.esize_ge, bytes_eq := inv.bytes_eq }

theorem entryOff_succ (t : Table) (k : Nat) : t.entryOff (k + 1) = t.entryOff k + t.esize := by
  rw [Table.entryOff, Table.entryOff, Nat.add_mul, Nat.one_mul]
  omega

theorem allocatedFrom_succ {k : Nat} (below : k < t.entries) :
    allocatedFrom t k =
      if t.word (t.entryOff k) = rtEntryAllocated then t.entryOff k :: allocatedFrom t (k + 1)
      else allocatedFrom t (k + 1) := by
  have unrolled : List.range' k (t.entries - k) =
      k :: List.range' (k + 1) (t.entries - (k + 1)) := by
    rw [show t.entries - k = t.entries - (k + 1) + 1 by omega, List.range'_succ]
  rw [allocatedFrom, unrolled]
  split
  next marked => simp [marked, allocatedFrom]
  next unmarked => simp [unmarked, allocatedFrom]

theorem allocatedFrom_end {k : Nat} (past : t.entries ≤ k) : allocatedFrom t k = [] := by
  rw [allocatedFrom, Nat.sub_eq_zero_of_le past]
  rfl

theorem allocatedFrom_cases (t : Table) (k : Nat) :
    allocatedFrom t k = [] ∨
      ∃ j, j < t.entries ∧ k ≤ j ∧ allocatedFrom t k = t.entryOff j :: allocatedFrom t (j + 1) := by
  induction remaining : t.entries - k generalizing k with
  | zero => exact Or.inl (allocatedFrom_end (Nat.le_of_sub_eq_zero remaining))
  | succ n ih =>
    have below : k < t.entries := by omega
    rw [allocatedFrom_succ below]
    by_cases marked : t.word (t.entryOff k) = rtEntryAllocated
    · exact Or.inr ⟨k, below, Nat.le_refl _, if_pos marked⟩
    · rw [if_neg marked]
      rcases ih (k + 1) (by omega) with none | ⟨j, inside, later, found⟩
      · exact Or.inl none
      · exact Or.inr ⟨j, inside, by omega, found⟩

/-- The scan of `lfs_table_next` from an entry finds the first marked one at or
after it. -/
theorem scanAllocated_spec (shape : TableShape t) {fuel k : Nat} (inside : k ≤ t.entries)
    (enough : t.entries - k < fuel) :
    scanAllocated t fuel (t.entryOff k) = (allocatedFrom t k).head? := by
  induction fuel generalizing k with
  | zero => omega
  | succ fuel ih =>
    rw [scanAllocated]
    by_cases last : k = t.entries
    · have outside : ¬ t.entryOff k + t.esize ≤ t.bytes := by
        have large := shape.esize_ge
        rw [shape.bytes_eq, last, Table.entryOff, Nat.mul_comm]
        omega
      rw [if_neg outside, allocatedFrom_end (Nat.le_of_eq last.symm)]
      rfl
    · have below : k < t.entries := by omega
      have fits : t.entryOff k + t.esize ≤ t.bytes := by
        rw [shape.bytes_eq]
        exact IsEntry.inside ⟨k, below, rfl⟩ |>.2
      rw [if_pos fits, allocatedFrom_succ below]
      by_cases marked : t.word (t.entryOff k) = rtEntryAllocated
      · rw [if_pos marked, if_pos marked]
        rfl
      · rw [if_neg marked, if_neg marked, ← entryOff_succ]
        exact ih (by omega) (by omega)

/-- Where `lfs_table_next` resumes after a given result. -/
def resumeAt (t : Table) : Option Nat → Nat
  | some off => off + t.esize
  | none => rtHeaderSize

/-- One call of `lfs_table_next` finds the first allocated entry from the point of
resumption on. -/
theorem lfsTableNext_from (shape : TableShape t) (counted : t.total ≠ 0) {k : Nat}
    {cur : Option Nat} (resume : resumeAt t cur = t.entryOff k) (inside : k ≤ t.entries) :
    lfsTableNext t cur = (allocatedFrom t k).head? := by
  have start : lfsTableNext t cur = scanAllocated t (t.entries + 1) (resumeAt t cur) := by
    unfold lfsTableNext
    rw [if_neg counted]
    cases cur with
    | none => rfl
    | some off => rfl
  rw [start, resume]
  exact scanAllocated_spec shape inside (by omega)

/-- Repeated calls of `lfs_table_next` list the allocated entries from the point of
resumption on. -/
theorem iterateNext_from (shape : TableShape t) (counted : t.total ≠ 0) {fuel k : Nat}
    {cur : Option Nat} (resume : resumeAt t cur = t.entryOff k) (inside : k ≤ t.entries)
    (enough : t.entries - k < fuel) : iterateNext t fuel cur = allocatedFrom t k := by
  induction fuel generalizing k cur with
  | zero => omega
  | succ fuel ih =>
    rw [iterateNext, lfsTableNext_from shape counted resume inside]
    rcases allocatedFrom_cases t k with none | ⟨j, below, later, found⟩
    · rw [none]
      rfl
    · rw [found]
      have next : resumeAt t (some (t.entryOff j)) = t.entryOff (j + 1) := (entryOff_succ t j).symm
      simp only [List.head?_cons]
      rw [ih next below (by omega)]

/-- The entry that `lfs_table_next` finds after another is allocated and lies behind
it. -/
theorem lfsTableNext_after (inv : TableInv t free) {cur off : Nat} (entry : IsEntry t cur)
    (found : lfsTableNext t (some cur) = some off) : Allocated t off ∧ cur < off := by
  have counted : t.total ≠ 0 := by
    intro zero
    rw [lfsTableNext, if_pos zero] at found
    cases found
  have positive : 0 < t.esize := Nat.lt_of_lt_of_le (by decide) inv.esize_ge
  obtain ⟨k, below, rfl⟩ := entry
  have next : resumeAt t (some (t.entryOff k)) = t.entryOff (k + 1) := (entryOff_succ t k).symm
  rw [lfsTableNext_from inv.shape counted next below, allocatedFrom, List.head?_map,
    Option.map_eq_some_iff] at found
  obtain ⟨j, first, rfl⟩ := found
  obtain ⟨inRange, marked⟩ := List.mem_filter.mp (List.mem_of_head? first)
  obtain ⟨later, before⟩ := List.mem_range'_1.mp inRange
  refine ⟨⟨⟨j, by omega, rfl⟩, of_decide_eq_true marked⟩, ?_⟩
  exact Nat.add_lt_add_left (Nat.mul_lt_mul_of_pos_right later positive) _

theorem lfsTableNext_first (inv : TableInv t free) {off : Nat}
    (found : lfsTableNext t none = some off) : Allocated t off := by
  have counted : t.total ≠ 0 := by
    intro zero
    rw [lfsTableNext, if_pos zero] at found
    cases found
  have start : resumeAt t none = t.entryOff 0 := by simp [resumeAt, Table.entryOff]
  rw [lfsTableNext_from inv.shape counted start (Nat.zero_le _), allocatedFrom, List.head?_map,
    Option.map_eq_some_iff] at found
  obtain ⟨j, first, rfl⟩ := found
  obtain ⟨inRange, marked⟩ := List.mem_filter.mp (List.mem_of_head? first)
  have before := (List.mem_range'_1.mp inRange).2
  exact ⟨⟨j, by omega, rfl⟩, of_decide_eq_true marked⟩

theorem TableShape.enumerates (shape : TableShape t) (counted : t.total = 0 → ∀ off, ¬ Allocated t off) :
    EnumeratesAllocated t := by
  unfold EnumeratesAllocated
  by_cases empty : t.total = 0
  · -- A count of zero ends the enumeration at once; no mark is missed.
    have none : allocatedFrom t 0 = [] := by
      rw [allocatedFrom, List.map_eq_nil_iff, List.filter_eq_nil_iff]
      intro j member marked
      have upper := (List.mem_range'_1.mp member).2
      exact counted empty (t.entryOff j) ⟨⟨j, by omega, rfl⟩, by simpa using marked⟩
    rw [none, iterateNext, lfsTableNext, if_pos empty]
  · refine iterateNext_from shape empty ?_ (Nat.zero_le _) (by omega)
    simp [resumeAt, Table.entryOff]

theorem TableInv.uncounted (inv : TableInv t free) (empty : t.total = 0) (off : Nat) : ¬ Allocated t off := by
  have count := inv.count
  rw [empty, allocatedCount, eq_comm, Finset.card_eq_zero, Finset.filter_eq_empty_iff] at count
  rintro ⟨⟨j, below, rfl⟩, marked⟩
  exact count (Finset.mem_range.mpr below) marked

theorem TableInv.enumerates (inv : TableInv t free) : EnumeratesAllocated t :=
  inv.shape.enumerates inv.uncounted

end Enumerate

/-! ## What the check accepts -/

/-- The table `lfs_table_copy` makes of a dump. -/
def loadedTable (rt : Mem) : Table :=
  { buf := copyRange zeros 0 rt 0 (tableBytes rt), bytes := tableBytes rt }

/-- Follow the free list of a dump to its end; `prev` is the node before `off`. -/
def freeEnd (rt : Mem) : Nat → Nat → Nat → Nat
  | 0, prev, _ => prev
  | budget + 1, prev, off => if off = 0 then prev else freeEnd rt budget off (lfGet32 rt off)

/-- What `lfs_table_check` leaves unchecked. -/
structure CompleteDump (rt : Mem) : Prop where
  first : lfGet32 rt rtFirstFree = 0 ∨
    (lfGet32 rt rtFirstFree - rtHeaderSize) % lfGet16 rt rtEntrySize = 0
  last : lfGet32 rt rtLastFree =
    freeEnd rt (lfGet16 rt rtNumberEntries + 1) 0 (lfGet32 rt rtFirstFree)
  count : lfGet16 rt rtNumberAllocated =
    ((List.range (lfGet16 rt rtNumberEntries)).filter fun k =>
      lfGet32 rt (rtHeaderSize + k * lfGet16 rt rtEntrySize) = rtEntryAllocated).length

/-- What every later operation on a loaded table needs and keeps: a free list of
distinct unallocated entries with the right end, the right count, and in every
table reached by sound steps, dimensions that describe the buffer, an enumeration
that misses nothing, and steps that leave other allocated entries alone. -/
def LoadedSound (t : Table) : Prop :=
  (∃ free, Linked t.word t.firstFree free 0 ∧ free.Nodup ∧
    (∀ off ∈ free, IsEntry t off ∧ t.word off ≠ rtEntryAllocated) ∧
    t.lastFree = free.getLast?.getD 0) ∧
  t.total = allocatedCount t ∧
  ∀ t', TableRun TableOp.Sound t t' →
    t'.esize = t.esize ∧ t.entries ≤ t'.entries ∧
    t'.bytes = rtHeaderSize + t'.esize * t'.entries ∧ EnumeratesAllocated t' ∧
    ∀ op : TableOp, op.Sound t' → op.Safe t'

section Accepted

variable {rt : Mem} {bytes : Nat}

/-- The facts an accepted dump has for sure. -/
structure AcceptedDump (rt : Mem) (bytes : Nat) : Prop where
  size : 4 ≤ lfGet16 rt rtEntrySize
  fits : tableBytes rt ≤ bytes
  first_le : lfGet32 rt rtFirstFree ≤ tableBytes rt - 4
  first_ge : lfGet32 rt rtFirstFree = 0 ∨ rtHeaderSize ≤ lfGet32 rt rtFirstFree
  words : ∀ i, i < lfGet16 rt rtNumberEntries → entryWordOk rt (lfGet16 rt rtEntrySize) i = true
  walk : walkFree rt (tableBytes rt) (lfGet16 rt rtNumberEntries + 1) (lfGet32 rt rtFirstFree) = true

theorem lfsTableCheck_accepts (accepted : lfsTableCheck rt bytes = true) :
    AcceptedDump rt bytes := by
  have total : tableBytes rt =
      rtHeaderSize + lfGet16 rt rtEntrySize * lfGet16 rt rtNumberEntries := by
    rw [tableBytes, Nat.mul_comm]
  unfold lfsTableCheck at accepted
  simp only [← total] at accepted
  split at accepted
  · simp at accepted
  split at accepted
  · simp at accepted
  next ranges =>
  split at accepted
  · simp at accepted
  next words =>
  simp only [Bool.or_eq_true, Bool.and_eq_true, decide_eq_true_eq, not_or] at ranges
  simp only [Bool.not_eq_true', Bool.not_eq_false, List.all_eq_true, List.mem_range] at words
  refine { size := ?_, fits := ?_, first_le := ?_, first_ge := ?_, words := words,
           walk := accepted }
  · omega
  · omega
  · omega
  · omega

/-- An accepted free list arrives at zero, through nodes whose successors lie in
the table. -/
theorem walkFree_linked {ts budget off : Nat} (walked : walkFree rt ts budget off = true) :
    ∃ nodes, Linked (lfGet32 rt) off nodes 0 ∧ nodes.length ≤ budget ∧
      ∀ node ∈ nodes, node ≠ 0 ∧ lfGet32 rt node ≤ ts - 4 := by
  induction budget generalizing off with
  | zero =>
    cases off with
    | zero => exact ⟨[], rfl, Nat.le_refl _, by simp⟩
    | succ off => simp [walkFree] at walked
  | succ budget ih =>
    cases off with
    | zero => exact ⟨[], rfl, Nat.zero_le _, by simp⟩
    | succ off =>
      simp only [walkFree] at walked
      split at walked
      · simp at walked
      split at walked
      · simp at walked
      next bounded =>
      obtain ⟨nodes, linked, short, inside⟩ := ih walked
      refine ⟨(off + 1) :: nodes, ⟨rfl, linked⟩, Nat.succ_le_succ short, ?_⟩
      intro node member
      rcases List.mem_cons.mp member with rfl | later
      · exact ⟨Nat.succ_ne_zero _, Nat.le_of_not_lt bounded⟩
      · exact inside node later

/-- Following a list to its end finds its last node. -/
theorem freeEnd_linked {budget prev off : Nat} {nodes : List Nat}
    (linked : Linked (lfGet32 rt) off nodes 0) (nonzero : ∀ node ∈ nodes, node ≠ 0)
    (enough : nodes.length ≤ budget) : freeEnd rt budget prev off = nodes.getLast?.getD prev := by
  induction nodes generalizing budget prev off with
  | nil =>
    have stop : off = 0 := linked
    cases budget with
    | zero => rfl
    | succ budget => simp [freeEnd, stop]
  | cons node rest ih =>
    obtain ⟨rfl, tail⟩ := linked
    cases budget with
    | zero => simp at enough
    | succ budget =>
      have positive : off ≠ 0 := nonzero off List.mem_cons_self
      rw [freeEnd, if_neg positive, ih tail
        (fun other member => nonzero other (List.mem_cons_of_mem _ member))
        (Nat.le_of_succ_le_succ enough)]
      cases rest with
      | nil => rfl
      | cons other others => rw [List.getLast?_cons_cons, List.getLast?_eq_some_getLast (by simp)]; rfl

theorem loadedTable_field {width off : Nat} (inside : off + width ≤ tableBytes rt) :
    getLE (loadedTable rt).buf width off = getLE rt width off := by
  refine (getLE_copyRange_inside (Nat.zero_le _) (by omega)).trans ?_
  simp

theorem loadedTable_header {width field : Nat} (header : field + width ≤ rtHeaderSize) :
    getLE (loadedTable rt).buf width field = getLE rt width field := by
  refine loadedTable_field ?_
  rw [tableBytes]
  omega

theorem loadedTable_esize : (loadedTable rt).esize = lfGet16 rt rtEntrySize :=
  loadedTable_header (by decide)

theorem loadedTable_entries : (loadedTable rt).entries = lfGet16 rt rtNumberEntries :=
  loadedTable_header (by decide)

theorem loadedTable_bytes :
    (loadedTable rt).bytes = rtHeaderSize + (loadedTable rt).esize * (loadedTable rt).entries := by
  rw [loadedTable_esize, loadedTable_entries, Nat.mul_comm]
  rfl

theorem loadedTable_word (size : 4 ≤ lfGet16 rt rtEntrySize) {off : Nat}
    (entry : IsEntry (loadedTable rt) off) : (loadedTable rt).word off = lfGet32 rt off := by
  have inside := entry.inside.2
  rw [← loadedTable_bytes, loadedTable_esize] at inside
  have bytes : (loadedTable rt).bytes = tableBytes rt := rfl
  exact loadedTable_field (by omega)

/-- The marks of the copy are counted in the dump. -/
theorem loadedTable_count (size : 4 ≤ lfGet16 rt rtEntrySize) :
    allocatedCount (loadedTable rt) =
      ((List.range (lfGet16 rt rtNumberEntries)).filter fun k =>
        lfGet32 rt (rtHeaderSize + k * lfGet16 rt rtEntrySize) = rtEntryAllocated).length := by
  have sameMarks : (Finset.range (loadedTable rt).entries).filter
        (fun k => (loadedTable rt).word ((loadedTable rt).entryOff k) = rtEntryAllocated) =
      (Finset.range (lfGet16 rt rtNumberEntries)).filter
        (fun k => lfGet32 rt (rtHeaderSize + k * lfGet16 rt rtEntrySize) = rtEntryAllocated) := by
    rw [loadedTable_entries]
    refine Finset.filter_congr (fun k member => ?_)
    have entry : IsEntry (loadedTable rt) ((loadedTable rt).entryOff k) :=
      ⟨k, by rwa [loadedTable_entries, ← Finset.mem_range], rfl⟩
    rw [loadedTable_word size entry, Table.entryOff, loadedTable_esize]
  rw [allocatedCount, sameMarks]
  rfl

theorem entryWordOk_aligned {rsize i off : Nat} (tested : entryWordOk rt rsize i = true)
    (place : off = rtHeaderSize + i * rsize) (unmarked : lfGet32 rt off ≠ rtEntryAllocated)
    (nonzero : lfGet32 rt off ≠ 0) :
    rtHeaderSize ≤ lfGet32 rt off ∧ (lfGet32 rt off - rtHeaderSize) % rsize = 0 := by
  rw [entryWordOk, ← place] at tested
  simpa [unmarked, nonzero] using tested

/-- An accepted list that starts at an entry runs through unallocated entries only:
the walk bounds each successor and the entry test aligns it. -/
theorem accepted_nodes (dump : AcceptedDump rt bytes) {off : Nat} {nodes : List Nat}
    (start : off = 0 ∨ IsEntry (loadedTable rt) off) (linked : Linked (lfGet32 rt) off nodes 0)
    (inside : ∀ node ∈ nodes, node ≠ 0 ∧ lfGet32 rt node ≤ tableBytes rt - 4) :
    ∀ node ∈ nodes, IsEntry (loadedTable rt) node ∧
      (loadedTable rt).word node ≠ rtEntryAllocated := by
  have bound := dimensions_lt (lfGet16_lt rt rtEntrySize) (lfGet16_lt rt rtNumberEntries)
  rw [Nat.mul_comm] at bound
  have total : tableBytes rt < 2 ^ 32 - 65536 := by
    unfold tableBytes
    omega
  induction nodes generalizing off with
  | nil => simp
  | cons node rest ih =>
    obtain ⟨rfl, tail⟩ := linked
    obtain ⟨positive, bounded⟩ := inside off List.mem_cons_self
    have entry : IsEntry (loadedTable rt) off := start.resolve_left positive
    have unmarked : lfGet32 rt off ≠ rtEntryAllocated := by
      simp only [rtEntryAllocated]
      omega
    have next : lfGet32 rt off = 0 ∨ IsEntry (loadedTable rt) (lfGet32 rt off) := by
      by_cases ends : lfGet32 rt off = 0
      · exact Or.inl ends
      obtain ⟨k, below, place⟩ := id entry
      rw [loadedTable_entries] at below
      rw [Table.entryOff, loadedTable_esize] at place
      obtain ⟨behind, aligned⟩ :=
        entryWordOk_aligned (dump.words k below) place unmarked ends
      refine Or.inr (entry_of_aligned ?_ behind ?_ ?_)
      · rw [loadedTable_esize]
        exact dump.size
      · rwa [loadedTable_esize]
      · rw [← loadedTable_bytes]
        change lfGet32 rt off < tableBytes rt
        omega
    intro other member
    rcases List.mem_cons.mp member with rfl | later
    · exact ⟨entry, by rwa [loadedTable_word dump.size entry]⟩
    · exact ih next tail
        (fun node nodeMember => inside node (List.mem_cons_of_mem _ nodeMember)) other later

theorem accepted_list (dump : AcceptedDump rt bytes) :
    ∃ nodes, Linked (lfGet32 rt) (lfGet32 rt rtFirstFree) nodes 0 ∧ (∀ node ∈ nodes, node ≠ 0) ∧
      (∀ node ∈ nodes, node ≠ 0 ∧ lfGet32 rt node ≤ tableBytes rt - 4) ∧
      freeEnd rt (lfGet16 rt rtNumberEntries + 1) 0 (lfGet32 rt rtFirstFree) =
        nodes.getLast?.getD 0 := by
  obtain ⟨nodes, linked, short, inside⟩ := walkFree_linked dump.walk
  have nonzero : ∀ node ∈ nodes, node ≠ 0 := fun node member => (inside node member).1
  exact ⟨nodes, linked, nonzero, inside, freeEnd_linked linked nonzero short⟩

/-- An accepted dump that is complete loads into a well-formed table. -/
theorem loadedTable_inv (dump : AcceptedDump rt bytes) (complete : CompleteDump rt) :
    ∃ free, TableInv (loadedTable rt) free := by
  obtain ⟨nodes, linked, nonzero, inside, ending⟩ := accepted_list dump
  have first : (loadedTable rt).firstFree = lfGet32 rt rtFirstFree := loadedTable_header (by decide)
  have last : (loadedTable rt).lastFree = lfGet32 rt rtLastFree := loadedTable_header (by decide)
  have total : (loadedTable rt).total = lfGet16 rt rtNumberAllocated :=
    loadedTable_header (by decide)
  have start : lfGet32 rt rtFirstFree = 0 ∨ IsEntry (loadedTable rt) (lfGet32 rt rtFirstFree) := by
    rcases complete.first with zero | aligned
    · exact Or.inl zero
    rcases dump.first_ge with zero | behind
    · exact Or.inl zero
    refine Or.inr (entry_of_aligned ?_ behind ?_ ?_)
    · rw [loadedTable_esize]
      exact dump.size
    · rwa [loadedTable_esize]
    · have bounded := dump.first_le
      have header : rtHeaderSize ≤ tableBytes rt := Nat.le_add_right _ _
      rw [← loadedTable_bytes]
      change lfGet32 rt rtFirstFree < tableBytes rt
      simp only [rtHeaderSize] at header
      omega
  have nodes_free := accepted_nodes dump start linked inside
  refine ⟨nodes, { esize_ge := ?_, bytes_eq := loadedTable_bytes, linked := ?_, last := ?_,
                   unallocated := nodes_free, nodup := linked_nodup linked nonzero, count := ?_ }⟩
  · rw [loadedTable_esize]
    exact dump.size
  · rw [first]
    refine linked_congr (fun node member => ?_) linked
    exact (loadedTable_word dump.size (nodes_free node member).1).symm
  · rw [last, complete.last, ending]
  · rw [total, complete.count, loadedTable_count dump.size]

/-- A loaded table with a sound free list and count comes from a complete dump. -/
theorem completeDump_of_sound (dump : AcceptedDump rt bytes) {free : List Nat}
    (linked : Linked (loadedTable rt).word (loadedTable rt).firstFree free 0)
    (nodes : ∀ off ∈ free, IsEntry (loadedTable rt) off)
    (last : (loadedTable rt).lastFree = free.getLast?.getD 0)
    (count : (loadedTable rt).total = allocatedCount (loadedTable rt)) : CompleteDump rt := by
  obtain ⟨walked, walkedLinked, walkedNonzero, _, ending⟩ := accepted_list dump
  have first : (loadedTable rt).firstFree = lfGet32 rt rtFirstFree := loadedTable_header (by decide)
  have nonzero : ∀ node ∈ free, node ≠ 0 := by
    intro node member
    have behind := (nodes node member).inside.1
    simp only [rtHeaderSize] at behind
    omega
  have dumpLinked : Linked (lfGet32 rt) (lfGet32 rt rtFirstFree) free 0 := by
    rw [← first]
    exact linked_congr (fun node member => loadedTable_word dump.size (nodes node member)) linked
  have same : walked = free := linked_unique walkedLinked walkedNonzero dumpLinked nonzero
  refine { first := ?_, last := ?_, count := ?_ }
  · cases free with
    | nil => exact Or.inl dumpLinked
    | cons node rest =>
      obtain ⟨k, _, place⟩ := nodes node List.mem_cons_self
      refine Or.inr ?_
      rw [linked_head dumpLinked, place, Table.entryOff, loadedTable_esize, Nat.add_sub_cancel_left,
        Nat.mul_mod_left]
  · rw [ending, same, ← last]
    exact (loadedTable_header (by decide)).symm
  · rw [← loadedTable_count dump.size, ← count]
    exact (loadedTable_header (by decide)).symm

end Accepted

/-- A dump that passes `lfs_table_check` loads into a table that is fit for every
later operation exactly when it is also complete. -/
theorem checked_table_sound_iff {rt : Mem} {bytes : Nat} (accepted : lfsTableCheck rt bytes = true) :
    ∃ t, lfsTableCopy rt bytes = some t ∧ (LoadedSound t ↔ CompleteDump rt) := by
  have dump := lfsTableCheck_accepts accepted
  refine ⟨loadedTable rt, ?_, ?_⟩
  · rw [lfsTableCopy, if_neg (Nat.not_lt.mpr dump.fits)]
    rfl
  constructor
  · rintro ⟨⟨free, linked, _, nodes, last⟩, count, _⟩
    exact completeDump_of_sound dump linked (fun off member => (nodes off member).1) last count
  intro complete
  obtain ⟨free, inv⟩ := loadedTable_inv dump complete
  refine ⟨⟨free, inv.linked, inv.nodup, inv.unallocated, inv.last⟩, inv.count, ?_⟩
  intro t' run
  obtain ⟨free', kept⟩ := tableRun_keeps inv run
  refine ⟨kept.size, kept.grown, kept.inv.bytes_eq, kept.inv.enumerates, ?_⟩
  intro op sound
  exact step_safe kept.inv sound.1 sound.2

/-- A dump with one free entry of eight bytes and a given `RT_LAST_FREE`. -/
def oneFreeEntry (last : Nat) : Mem :=
  let m := lfPut16 zeros rtEntrySize 8
  let m := lfPut16 m rtNumberEntries 1
  let m := lfPut32 m rtFirstFree 0x18
  lfPut32 m rtLastFree last

/-- With the right end of the list such a dump loads into a sound table. -/
theorem checked_table_sound_one_entry :
    lfsTableCheck (oneFreeEntry 0x18) 0x20 = true ∧
      ∃ t, lfsTableCopy (oneFreeEntry 0x18) 0x20 = some t ∧ LoadedSound t := by
  have accepted : lfsTableCheck (oneFreeEntry 0x18) 0x20 = true := by decide +kernel
  obtain ⟨t, loaded, sound⟩ := checked_table_sound_iff accepted
  refine ⟨accepted, t, loaded, sound.mpr ?_⟩
  exact { first := by decide +kernel, last := by decide +kernel, count := by decide +kernel }

/-- With `RT_LAST_FREE` zero the dump is accepted as well. Growing the table then
stores the link to the new entry over the entry size. -/
theorem unended_dump_loses_entry_size :
    ¬ ∀ (rt : Mem) (bytes : Nat), lfsTableCheck rt bytes = true →
      ∃ t, lfsTableCopy rt bytes = some t ∧ LoadedSound t := by
  intro claim
  obtain ⟨t, loaded, sound⟩ := claim (oneFreeEntry 0) 0x20 (by decide +kernel)
  obtain rfl : loadedTable (oneFreeEntry 0) = t := Option.some.inj loaded
  have grown : TableRun TableOp.Sound (loadedTable (oneFreeEntry 0))
      ((TableOp.allocAt 0x20).apply (loadedTable (oneFreeEntry 0))).1 :=
    .step .start ⟨trivial, trivial⟩
  have size := (sound.2.2 _ grown).1
  revert size
  decide +kernel

end Ttntfs.Logfile
