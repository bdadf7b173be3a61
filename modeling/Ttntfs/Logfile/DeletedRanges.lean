import Ttntfs.Logfile.DirtyPageFilter

/-!
# Which clusters a record deletes

A DeleteDirtyClusters record names ranges of clusters, each by its first cluster and a
count. Analysis goes by the last cluster of a range instead, in 64 bits: a range of no
cluster at 0 has the last of all clusters, and one that reaches beyond 64 bits has a last
cluster before its first.
-/

namespace Ttntfs.Logfile

open Library.ByteMemory

/-- The number of clusters in range `k` of a DeleteDirtyClusters record. -/
def deletedCount (record : LfsRecord) (k : Nat) : Nat :=
  lfGet64 record.data (record.redoOffset + k * lrRangeSize + 8)

/-- The number of ranges of a DeleteDirtyClusters record. -/
def deletedRanges (record : LfsRecord) : Nat := record.redoLength / lrRangeSize

/-- Range `k` of the record has the lcn. -/
def InDeleted (record : LfsRecord) (k lcn : Nat) : Prop :=
  deletedFirst record k ≤ lcn ∧ lcn < deletedFirst record k + deletedCount record k

/-- The lcns in the ranges of the record are set to zero in the pages that the loop over the
table visits, and nothing else changes. -/
structure DeletesNamed (record : LfsRecord) (t t' : Table) : Prop where
  bytes : t'.bytes = t.bytes
  named : ∀ dp ∈ tableEntries (some t), ∀ j < dpLcnsFollow t.buf dp,
    (∃ k < deletedRanges record, InDeleted record k (dpLcn t.buf dp j)) → dpLcn t'.buf dp j = 0
  others : ∀ dp ∈ tableEntries (some t), ∀ j < dpLcnsFollow t.buf dp,
    (¬ ∃ k < deletedRanges record, InDeleted record k (dpLcn t.buf dp j)) →
      dpLcn t'.buf dp j = dpLcn t.buf dp j
  rest : ∀ i, (∀ dp ∈ tableEntries (some t),
    i < dp + dp1Size ∨ dp + dp1Size + 8 * dpLcnsFollow t.buf dp ≤ i) → t'.buf i = t.buf i

/-- Range `k` is that of no cluster at 0, which analysis takes for all clusters. -/
def TakenForAll (record : LfsRecord) (k : Nat) : Prop :=
  deletedFirst record k = 0 ∧ deletedCount record k = 0

/-- Range `k` ends within the 64-bit numbers; analysis takes one that does not for none. -/
def EndsInside (record : LfsRecord) (k : Nat) : Prop :=
  deletedFirst record k + deletedCount record k ≤ 2 ^ 64

/-- An lcn is judged by the ranges that are taken as they are: where one is taken for all
clusters another has the lcn, and where one that has it is taken for none another does not let
it go. -/
structure JudgedRight (record : LfsRecord) (lcn : Nat) : Prop where
  all : ∀ k < deletedRanges record, TakenForAll record k →
    ∃ k' < deletedRanges record, InDeleted record k' lcn
  none : ∀ k < deletedRanges record, ¬ EndsInside record k → InDeleted record k lcn →
    ∃ k' < deletedRanges record, TakenForAll record k' ∨ (EndsInside record k' ∧ InDeleted record k' lcn)

section Judge

variable {record : LfsRecord} {lcn : Nat}

theorem between_iff {k : Nat} (small : lcn < 2 ^ 64) :
    (deletedFirst record k ≤ lcn ∧ lcn ≤ deletedLast record k) ↔
      TakenForAll record k ∨ (EndsInside record k ∧ InDeleted record k lcn) := by
  have first : deletedFirst record k < 2 ^ 64 := getLE_lt _ 8 _
  have count : deletedCount record k < 2 ^ 64 := getLE_lt _ 8 _
  have last : deletedLast record k = (deletedFirst record k + deletedCount record k + 2 ^ 64 - 1) % 2 ^ 64 := rfl
  rw [last, TakenForAll, EndsInside, InDeleted]
  omega

theorem deletedFrom_zero (ks : List Nat) :
    ks.foldl (fun lcn k => deletedLcn (deletedFirst record k) (deletedLast record k) lcn) 0 = 0 := by
  induction ks with
  | nil => rfl
  | cons k ks ih => rw [List.foldl_cons, deletedLcn, ite_self, ih]

/-- An lcn is zeroed where some range has it, as analysis takes the ranges. -/
theorem deletedFrom_cases (ks : List Nat) (lcn : Nat) :
    ((∃ k ∈ ks, deletedFirst record k ≤ lcn ∧ lcn ≤ deletedLast record k) →
        ks.foldl (fun lcn k => deletedLcn (deletedFirst record k) (deletedLast record k) lcn) lcn = 0) ∧
      ((∀ k ∈ ks, ¬ (deletedFirst record k ≤ lcn ∧ lcn ≤ deletedLast record k)) →
        ks.foldl (fun lcn k => deletedLcn (deletedFirst record k) (deletedLast record k) lcn) lcn = lcn) := by
  induction ks with
  | nil => simp
  | cons k ks ih =>
    rw [List.foldl_cons, deletedLcn]
    by_cases here : deletedFirst record k ≤ lcn ∧ lcn ≤ deletedLast record k
    · rw [if_pos here]
      exact ⟨fun _ => deletedFrom_zero ks, fun outside => absurd here (outside k List.mem_cons_self)⟩
    · rw [if_neg here]
      refine ⟨fun inside => ih.1 ?_, fun outside => ih.2 fun k' later => outside k' (List.mem_cons_of_mem k later)⟩
      obtain ⟨k', listed, has⟩ := inside
      rcases List.mem_cons.mp listed with rfl | later
      · exact absurd has here
      · exact ⟨k', later, has⟩

/-- Some range has the lcn, as analysis takes the ranges. -/
def Cleared (record : LfsRecord) (lcn : Nat) : Prop :=
  ∃ k < deletedRanges record, TakenForAll record k ∨ (EndsInside record k ∧ InDeleted record k lcn)

theorem deletedLcns_cleared (small : lcn < 2 ^ 64) (cleared : Cleared record lcn) : deletedLcns record lcn = 0 := by
  obtain ⟨k, below, taken⟩ := cleared
  exact (deletedFrom_cases _ lcn).1 ⟨k, List.mem_range.mpr below, (between_iff small).mpr taken⟩

theorem deletedLcns_kept (small : lcn < 2 ^ 64) (kept : ¬ Cleared record lcn) : deletedLcns record lcn = lcn :=
  (deletedFrom_cases _ lcn).2 fun k listed has => kept ⟨k, List.mem_range.mp listed, (between_iff small).mp has⟩

/-- An lcn that is not zero is treated as its ranges say just when it is judged right. -/
theorem deletedLcns_named_iff (small : lcn < 2 ^ 64) (known : lcn ≠ 0) :
    (((∃ k < deletedRanges record, InDeleted record k lcn) → deletedLcns record lcn = 0) ∧
        ((¬ ∃ k < deletedRanges record, InDeleted record k lcn) → deletedLcns record lcn = lcn)) ↔
      JudgedRight record lcn := by
  by_cases taken : Cleared record lcn
  · rw [deletedLcns_cleared small taken]
    constructor
    · rintro ⟨-, kept⟩
      refine { all := fun k _ _ => ?_, none := fun _ _ _ _ => taken }
      by_contra unnamed
      exact known (kept unnamed).symm
    · intro right
      refine ⟨fun _ => rfl, fun unnamed => ?_⟩
      obtain ⟨k, below, all | ⟨-, has⟩⟩ := taken
      · exact absurd (right.all k below all) unnamed
      · exact absurd ⟨k, below, has⟩ unnamed
  · rw [deletedLcns_kept small taken]
    constructor
    · rintro ⟨zero, -⟩
      refine { all := fun k below all => absurd ⟨k, below, .inl all⟩ taken, none := fun k below _ has => ?_ }
      exact absurd (zero ⟨k, below, has⟩) known
    · intro right
      refine ⟨fun named => ?_, fun _ => rfl⟩
      obtain ⟨k, below, has⟩ := named
      by_cases inside : EndsInside record k
      · exact absurd ⟨k, below, .inr ⟨inside, has⟩⟩ taken
      · exact absurd (right.none k below inside has) taken

end Judge

theorem deleteDirtyClusters_uncounted {t : Table} (empty : t.total = 0) (record : LfsRecord) :
    tableEntries (some t) = [] ∧ deleteDirtyClusters record t = t := by
  have unvisited : tableEntries (some t) = [] := by rw [tableEntries, iterateNext, lfsTableNext, if_pos empty]
  refine ⟨unvisited, ?_⟩
  rw [deleteDirtyClusters]
  generalize List.range (record.redoLength / lrRangeSize) = ks
  induction ks with
  | nil => rfl
  | cons k ks ih =>
    have idle : deleteRange record t k = t := by
      rw [deleteRange, unvisited]
      rfl
    rw [List.foldl_cons, idle, ih]

/-- A DeleteDirtyClusters record clears exactly the clusters it names just when every lcn of the
pages is judged right. -/
theorem delete_named_iff {t : Table} (shape : TableShape t)
    (fits : ∀ dp ∈ tableEntries (some t), dp1Size + 8 * dpLcnsFollow t.buf dp ≤ t.esize) (record : LfsRecord) :
    DeletesNamed record t (deleteDirtyClusters record t) ↔
      ∀ dp ∈ tableEntries (some t), ∀ j < dpLcnsFollow t.buf dp, dpLcn t.buf dp j ≠ 0 →
        JudgedRight record (dpLcn t.buf dp j) := by
  by_cases empty : t.total = 0
  · obtain ⟨unvisited, idle⟩ := deleteDirtyClusters_uncounted empty record
    rw [idle, unvisited]
    refine iff_of_true { bytes := rfl, named := ?_, others := ?_, rest := fun _ _ => rfl } (by simp)
    · rw [unvisited]
      simp
    · rw [unvisited]
      simp
  have counted : t.total = 0 → ∀ dp, ¬ Allocated t dp := fun zero => absurd zero empty
  have listed := shape.enumerates counted
  have fit : PagesFit t := { shape, counted, fits := fun dp allocated => fits dp (listed.mem.mpr allocated) }
  have maps := deleteDirtyClusters_maps fit record
  have lcns : ∀ dp ∈ tableEntries (some t), ∀ j < dpLcnsFollow t.buf dp,
      dpLcn (deleteDirtyClusters record t).buf dp j = deletedLcns record (dpLcn t.buf dp j) :=
    fun dp member => maps.lcns dp (listed.mem.mp member)
  have small (dp j : Nat) : dpLcn t.buf dp j < 2 ^ 64 := getLE_lt _ 8 _
  constructor
  · intro clears dp member j below known
    refine (deletedLcns_named_iff (small dp j) known).mp ?_
    rw [← lcns dp member j below]
    exact ⟨clears.named dp member j below, clears.others dp member j below⟩
  intro right
  have judged : ∀ dp ∈ tableEntries (some t), ∀ j < dpLcnsFollow t.buf dp,
      ((∃ k < deletedRanges record, InDeleted record k (dpLcn t.buf dp j)) →
        deletedLcns record (dpLcn t.buf dp j) = 0) ∧
      ((¬ ∃ k < deletedRanges record, InDeleted record k (dpLcn t.buf dp j)) →
        deletedLcns record (dpLcn t.buf dp j) = dpLcn t.buf dp j) := by
    intro dp member j below
    by_cases known : dpLcn t.buf dp j = 0
    · have stays : deletedLcns record 0 = 0 := deletedFrom_zero _
      rw [known, stays]
      exact ⟨fun _ => rfl, fun _ => rfl⟩
    · exact (deletedLcns_named_iff (small dp j) known).mpr (right dp member j below known)
  refine { bytes := maps.bytes, named := ?_, others := ?_, rest := ?_ }
  · intro dp member j below
    rw [lcns dp member j below]
    exact (judged dp member j below).1
  · intro dp member j below
    rw [lcns dp member j below]
    exact (judged dp member j below).2
  · exact fun i away => maps.rest i fun dp allocated => away dp (listed.mem.mpr allocated)

/-! ## Examples -/

/-- A table of one page, whose cluster has lcn 5. -/
def lcnFiveTable : Table := { buf := onePageDump 0x1000, bytes := 0x40 }

/-- A DeleteDirtyClusters record of one range. -/
def deletingRecord (first count : Nat) : LfsRecord :=
  { lsn := 0x3000
    hdr := lfPut32 zeros lrRecordType lfsRecordTypeClient
    data :=
      let m := lfPut16 zeros nrRedoOp lopDeleteDirtyClusters
      let m := lfPut16 m nrRedoOffset 0x20
      let m := lfPut16 m nrRedoLength 0x10
      lfPut64 (lfPut64 m 0x20 first) 0x28 count
    dataLen := 0x30
    dataAvail := 0x30 }

theorem lcnFiveTable_fields :
    (4 ≤ lcnFiveTable.esize ∧ lcnFiveTable.bytes = rtHeaderSize + lcnFiveTable.esize * lcnFiveTable.entries) ∧
    tableEntries (some lcnFiveTable) = [0x18] ∧ dpLcnsFollow lcnFiveTable.buf 0x18 = 1 ∧ lcnFiveTable.esize = 0x28 ∧
    dpLcn lcnFiveTable.buf 0x18 0 = 5 ∧
    deletedRanges (deletingRecord 4 2) = 1 ∧ deletedCount (deletingRecord 4 2) 0 = 2 ∧ deletedFirst (deletingRecord 4 2) 0 = 4 := by
  decide +kernel

theorem lcnFiveTable_fits :
    ∀ dp ∈ tableEntries (some lcnFiveTable), dp1Size + 8 * dpLcnsFollow lcnFiveTable.buf dp ≤ lcnFiveTable.esize := by
  obtain ⟨_, entries, count, size, _⟩ := lcnFiveTable_fields
  intro dp member
  rw [entries] at member
  rw [List.mem_singleton.mp member, count, size]
  decide

/-- A record that names lcns 4 and 5 takes out the one lcn of a page. -/
theorem delete_named_page : DeletesNamed (deletingRecord 4 2) lcnFiveTable
    (deleteDirtyClusters (deletingRecord 4 2) lcnFiveTable) := by
  obtain ⟨⟨large, bytes⟩, entries, follow, _, lcn, ranges, count, first⟩ := lcnFiveTable_fields
  refine (delete_named_iff { esize_ge := large, bytes_eq := bytes } lcnFiveTable_fits _).mpr ?_
  intro dp member j below _
  rw [entries] at member
  obtain rfl := List.mem_singleton.mp member
  obtain rfl : j = 0 := by omega
  rw [lcn]
  constructor
  · intro k inside all
    obtain rfl : k = 0 := by omega
    rw [TakenForAll, first] at all
    exact absurd all.1 (by decide)
  · intro k inside behind _
    obtain rfl : k = 0 := by omega
    rw [EndsInside, first, count] at behind
    exact absurd (by decide) behind

end Ttntfs.Logfile
