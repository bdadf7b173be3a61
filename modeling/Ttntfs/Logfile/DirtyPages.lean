import Ttntfs.Logfile.Analysis

/-!
# The dirty page table

The dirty page table seen as a set of pages: each allocated entry has a target
attribute, a range of clusters, the lsn since which it is dirty, and one lcn for
each of its clusters. The operations of analysis are described in these terms: they
add a page, or replace lcns; the rest of a page never changes.
-/

namespace Ttntfs.Logfile

open Library.ByteMemory Library.LinkedOffsets

/-- A well-formed dirty page table: its entries hold the lcns they announce. -/
structure DirtyPages (t : Table) (free : List Nat) : Prop where
  inv : TableInv t free
  size : dp1Size + 8 ≤ t.esize
  fits : ∀ dp, Allocated t dp → dp1Size + 8 * dpLcnsFollow t.buf dp ≤ t.esize

/-! ## Looking pages up -/

section Find

variable {t : Table} {free : List Nat}

theorem EnumeratesAllocated.mem (listed : EnumeratesAllocated t) {off : Nat} :
    off ∈ tableEntries (some t) ↔ Allocated t off := by
  have listed : tableEntries (some t) = allocatedFrom t 0 := listed
  rw [listed, allocatedFrom, List.mem_map]
  constructor
  · rintro ⟨k, member, rfl⟩
    obtain ⟨inRange, marked⟩ := List.mem_filter.mp member
    have below := (List.mem_range'_1.mp inRange).2
    exact ⟨⟨k, by omega, rfl⟩, of_decide_eq_true marked⟩
  · rintro ⟨⟨k, below, rfl⟩, marked⟩
    refine ⟨k, List.mem_filter.mpr ⟨List.mem_range'_1.mpr (by omega), decide_eq_true marked⟩, rfl⟩

theorem EnumeratesAllocated.sorted (listed : EnumeratesAllocated t) (shape : TableShape t) :
    (tableEntries (some t)).Pairwise (· < ·) := by
  have listed : tableEntries (some t) = allocatedFrom t 0 := listed
  have positive : 0 < t.esize := Nat.lt_of_lt_of_le (by decide) shape.esize_ge
  rw [listed, allocatedFrom, List.pairwise_map]
  refine List.Pairwise.filter _ ?_
  refine List.Pairwise.imp ?_ List.pairwise_lt_range'
  intro j k less
  exact Nat.add_lt_add_left (Nat.mul_lt_mul_of_pos_right less positive) _

theorem mem_tableEntries (inv : TableInv t free) {off : Nat} :
    off ∈ tableEntries (some t) ↔ Allocated t off :=
  inv.enumerates.mem

theorem tableEntries_sorted (inv : TableInv t free) : (tableEntries (some t)).Pairwise (· < ·) :=
  inv.enumerates.sorted inv.shape

/-- The first hit in an ascending list is the least. -/
theorem find?_ascending {l : List Nat} {p : Nat → Bool} {x : Nat} (sorted : l.Pairwise (· < ·)) :
    l.find? p = some x ↔ x ∈ l ∧ p x = true ∧ ∀ y, y ∈ l → y < x → p y = false := by
  induction l with
  | nil => simp
  | cons head tail ih =>
    obtain ⟨first, sortedTail⟩ := List.pairwise_cons.mp sorted
    by_cases hit : p head = true
    · rw [List.find?_cons_of_pos hit]
      constructor
      · rintro ⟨⟩
        refine ⟨List.mem_cons_self, hit, ?_⟩
        intro y listed less
        rcases List.mem_cons.mp listed with same | later
        · omega
        · have greater := first y later
          omega
      · rintro ⟨listed, _, least⟩
        rcases List.mem_cons.mp listed with same | later
        · rw [same]
        · have missed := least head List.mem_cons_self (first x later)
          rw [hit] at missed
          cases missed
    · rw [List.find?_cons_of_neg hit, ih sortedTail]
      constructor
      · rintro ⟨listed, here, least⟩
        refine ⟨List.mem_cons_of_mem _ listed, here, ?_⟩
        intro y listed' less
        rcases List.mem_cons.mp listed' with same | later
        · rw [same]
          exact Bool.eq_false_iff.mpr hit
        · exact least y later less
      · rintro ⟨listed, here, least⟩
        refine ⟨?_, here, fun y later less => least y (List.mem_cons_of_mem _ later) less⟩
        rcases List.mem_cons.mp listed with same | later
        · rw [same] at here
          exact absurd here hit
        · exact later

/-- `find_dp` finds the first allocated page that covers the vcn. -/
theorem findDp_eq_some (inv : TableInv t free) {ta vcn dp : Nat} :
    findDp (some t) ta vcn = some dp ↔
      Allocated t dp ∧ dpCovers t.buf ta vcn dp = true ∧
        ∀ other, Allocated t other → other < dp → dpCovers t.buf ta vcn other = false := by
  rw [findDp, find?_ascending (tableEntries_sorted inv)]
  simp only [mem_tableEntries inv]

/-- `find_dp` finds nothing where no allocated page covers the vcn. -/
theorem findDp_eq_none (inv : TableInv t free) {ta vcn : Nat} :
    findDp (some t) ta vcn = none ↔ ∀ dp, Allocated t dp → dpCovers t.buf ta vcn dp = false := by
  rw [findDp, List.find?_eq_none]
  simp only [mem_tableEntries inv, Bool.not_eq_true]

theorem findDp_of_covers (inv : TableInv t free) {ta vcn dp : Nat} (allocated : Allocated t dp)
    (covers : dpCovers t.buf ta vcn dp = true) : ∃ found, findDp (some t) ta vcn = some found := by
  cases result : findDp (some t) ta vcn with
  | some found => exact ⟨found, rfl⟩
  | none =>
    have missed := (findDp_eq_none inv).mp result dp allocated
    rw [covers] at missed
    cases missed

end Find

/-! ## Storing lcns -/

section Store

variable {t t' : Table} {free : List Nat}

theorem FillsEntries.page {skip width field dp : Nat} (fills : FillsEntries skip t t')
    (entry : IsEntry t dp) (inside : field + width ≤ skip) :
    getLE t'.buf width (dp + field) = getLE t.buf width (dp + field) :=
  getLE_congr (fun _ lower upper => fills.start entry (by omega) (by omega))

/-- A table in which pages were filled behind their number of clusters is as well
formed. -/
theorem DirtyPages.fillFrom {skip : Nat} (pages : DirtyPages t free)
    (fills : FillsEntries skip t t') (behind : dp1Vcn ≤ skip) : DirtyPages t' free := by
  simp only [dp1Vcn] at behind
  have enough : 4 ≤ skip := by omega
  refine { inv := fills.inv enough pages.inv, size := ?_, fits := ?_ }
  · rw [fills.size enough]
    exact pages.size
  intro dp allocated
  have old := (fills.allocated enough dp).mp allocated
  have count : dpLcnsFollow t'.buf dp = dpLcnsFollow t.buf dp := by
    refine fills.page old.1 ?_
    simp only [dp1LcnsFollow]
    omega
  rw [fills.size enough, count]
  exact pages.fits dp old

theorem DirtyPages.fill (pages : DirtyPages t free) (fills : FillsEntries dp1Size t t') :
    DirtyPages t' free :=
  pages.fillFrom fills (by decide)

theorem FillsEntries.dpCovers (fills : FillsEntries dp1Size t t') {ta vcn dp : Nat}
    (entry : IsEntry t dp) : dpCovers t'.buf ta vcn dp = dpCovers t.buf ta vcn dp := by
  have attr : dpAttr t'.buf dp = dpAttr t.buf dp := fills.page entry (by decide)
  have start : dpVcn t'.buf dp = dpVcn t.buf dp := fills.page entry (by decide)
  have count : dpLcnsFollow t'.buf dp = dpLcnsFollow t.buf dp := fills.page entry (by decide)
  rw [Logfile.dpCovers, Logfile.dpCovers, attr, start, count]

end Store

/-! ### The lcns of a record -/

/-- What storing the lcns of a record does to cluster `j` of a page from `vcn` on. -/
def loggedLcn (record : LfsRecord) (vcn j lcn : Nat) : Nat :=
  if record.targetVcn ≤ vcn + j ∧ vcn + j < record.targetVcn + record.lcnsToFollow then
    record.pageLcn (vcn + j - record.targetVcn) else lcn

section StoreLcns

variable {record : LfsRecord} {dp perPage : Nat}

theorem dpLcn_put (m : Mem) (dp j k value : Nat) (small : value < 256 ^ 8) :
    dpLcn (putDpLcn m dp k value) dp j = if j = k then value else dpLcn m dp j := by
  by_cases same : j = k
  · rw [if_pos same, same]
    exact getLE_putLE_of_lt small
  · rw [if_neg same]
    exact getLE_putLE_disjoint (by omega)

theorem storeLcn_outside (i : Nat) (m : Mem) {b : Nat}
    (outside : b < dp + dp1Size ∨ dp + dp1Size + 8 * perPage ≤ b) :
    storeLcn record dp perPage i m b = m b := by
  rw [storeLcn]
  split
  · refine putLE_outside ?_
    simp only [dp1PageLcns, dp1Size] at *
    omega
  · rfl

theorem storeLcns_succ (n : Nat) (m : Mem) : storeLcns record dp perPage (n + 1) m =
    storeLcn record dp perPage n (storeLcns record dp perPage n m) := by
  rw [storeLcns, List.range_succ, List.foldl_append, List.foldl_cons, List.foldl_nil, storeLcns]

theorem storeLcns_outside (n : Nat) (m : Mem) {b : Nat}
    (outside : b < dp + dp1Size ∨ dp + dp1Size + 8 * perPage ≤ b) :
    storeLcns record dp perPage n m b = m b := by
  induction n with
  | zero => rfl
  | succ n ih => rw [storeLcns_succ, storeLcn_outside n _ outside, ih]

theorem storeLcns_vcn (n : Nat) (m : Mem) : dpVcn (storeLcns record dp perPage n m) dp = dpVcn m dp := by
  refine getLE_congr (fun b lower upper => storeLcns_outside n m (Or.inl ?_))
  simp only [dp1Vcn, dp1Size] at *
  omega

theorem storeLcn_lcn {i : Nat} {m : Mem} (start : dpVcn m dp ≤ record.targetVcn)
    (small : record.targetVcn - dpVcn m dp + i < 2 ^ 64) {j : Nat} (inside : j < perPage) :
    dpLcn (storeLcn record dp perPage i m) dp j =
      if j = record.targetVcn - dpVcn m dp + i then record.pageLcn i else dpLcn m dp j := by
  have index : (record.targetVcn + 2 ^ 64 - dpVcn m dp + i) % 2 ^ 64 =
      record.targetVcn - dpVcn m dp + i := by omega
  simp only [storeLcn, index]
  split
  · exact dpLcn_put m dp j _ _ (getLE_lt _ 8 _)
  · rw [if_neg (by omega)]

/-- The lcns a record stores. -/
theorem storeLcns_lcn (n : Nat) (m : Mem) (start : dpVcn m dp ≤ record.targetVcn)
    (small : record.targetVcn - dpVcn m dp + n < 2 ^ 64) {j : Nat} (inside : j < perPage) :
    dpLcn (storeLcns record dp perPage n m) dp j =
      if record.targetVcn - dpVcn m dp ≤ j ∧ j < record.targetVcn - dpVcn m dp + n then
        record.pageLcn (j - (record.targetVcn - dpVcn m dp)) else dpLcn m dp j := by
  induction n with
  | zero =>
    rw [if_neg (by omega)]
    rfl
  | succ n ih =>
    have vcn : dpVcn (storeLcns record dp perPage n m) dp = dpVcn m dp := storeLcns_vcn n m
    rw [storeLcns_succ, storeLcn_lcn (by rw [vcn]; exact start) (by rw [vcn]; omega) inside, vcn,
      ih (by omega)]
    generalize record.targetVcn - dpVcn m dp = d
    by_cases last : j = d + n
    · rw [if_pos last, if_pos (by omega), last, Nat.add_sub_cancel_left]
    · rw [if_neg last]
      by_cases earlier : d ≤ j ∧ j < d + n
      · rw [if_pos earlier, if_pos (by omega)]
      · rw [if_neg earlier, if_neg (by omega)]

end StoreLcns

/-! ### Deleted and replaced lcns -/

/-- What deleting a range of lcns does to an lcn. -/
def deletedLcn (l0 le lcn : Nat) : Nat := if l0 ≤ lcn ∧ lcn ≤ le then 0 else lcn

section Delete

variable {l0 le dp : Nat}

theorem deleteLcns_outside (n j : Nat) (m : Mem) {b : Nat}
    (outside : b < dp + dp1Size ∨ dp + dp1Size + 8 * (j + n) ≤ b) :
    deleteLcns l0 le dp n j m b = m b := by
  induction n generalizing j m with
  | zero => rfl
  | succ n ih =>
    rw [deleteLcns, ih _ _ (by omega), deleteLcn]
    split
    · refine putLE_outside ?_
      simp only [dp1PageLcns, dp1Size] at *
      omega
    · rfl

theorem deleteLcn_lcn (j : Nat) (m : Mem) (k : Nat) :
    dpLcn (deleteLcn l0 le dp j m) dp k =
      if k = j then deletedLcn l0 le (dpLcn m dp k) else dpLcn m dp k := by
  rw [deleteLcn]
  split
  next inRange =>
    rw [dpLcn_put m dp k j 0 (Nat.pow_pos (by decide))]
    by_cases same : k = j
    · rw [if_pos same, if_pos same, deletedLcn, same]
      exact (if_pos inRange).symm
    · rw [if_neg same, if_neg same]
  next outOfRange =>
    by_cases same : k = j
    · rw [if_pos same, deletedLcn, same]
      exact (if_neg outOfRange).symm
    · rw [if_neg same]

theorem deleteLcns_lcn (n j : Nat) (m : Mem) (k : Nat) :
    dpLcn (deleteLcns l0 le dp n j m) dp k =
      if j ≤ k ∧ k < j + n then deletedLcn l0 le (dpLcn m dp k) else dpLcn m dp k := by
  induction n generalizing j m with
  | zero =>
    rw [if_neg (by omega)]
    rfl
  | succ n ih =>
    rw [deleteLcns, ih, deleteLcn_lcn]
    by_cases same : k = j
    · rw [if_neg (by omega), if_pos same, if_pos (by omega)]
    · rw [if_neg same]
      by_cases later : j + 1 ≤ k ∧ k < j + 1 + n
      · rw [if_pos later, if_pos (by omega)]
      · rw [if_neg later, if_neg (by omega)]

end Delete

/-! ## Replacing lcns -/

/-- The lcns of the pages are replaced, each by what `f` makes of it; nothing else
changes. -/
structure ReplacesLcns (t t' : Table) (f : Nat → Nat → Nat → Nat) : Prop where
  fills : FillsEntries dp1Size t t'
  lcns : ∀ dp, Allocated t dp → ∀ j, j < dpLcnsFollow t.buf dp →
    dpLcn t'.buf dp j = f dp j (dpLcn t.buf dp j)

section Replace

variable {t t' t'' : Table} {free : List Nat} {f g : Nat → Nat → Nat → Nat}

theorem ReplacesLcns.refl (t : Table) : ReplacesLcns t t (fun _ _ lcn => lcn) :=
  { fills := FillsEntries.refl _ t, lcns := fun _ _ _ _ => rfl }

theorem ReplacesLcns.trans (first : ReplacesLcns t t' f) (second : ReplacesLcns t' t'' g) :
    ReplacesLcns t t'' (fun dp j lcn => g dp j (f dp j lcn)) := by
  have enough : 4 ≤ dp1Size := by decide
  refine { fills := first.fills.trans second.fills enough, lcns := ?_ }
  intro dp allocated j inside
  have still := (first.fills.allocated enough dp).mpr allocated
  have count : dpLcnsFollow t'.buf dp = dpLcnsFollow t.buf dp := first.fills.page allocated.1 (by decide)
  rw [second.lcns dp still j (by rw [count]; exact inside), first.lcns dp allocated j inside]

/-- The pages fit into the entries of a table, and the loop over the table visits them. -/
structure PagesFit (t : Table) : Prop where
  shape : TableShape t
  counted : t.total = 0 → ∀ dp, ¬ Allocated t dp
  fits : ∀ dp, Allocated t dp → dp1Size + 8 * dpLcnsFollow t.buf dp ≤ t.esize

theorem DirtyPages.pagesFit (pages : DirtyPages t free) : PagesFit t :=
  { shape := pages.inv.shape, counted := pages.inv.uncounted, fits := pages.fits }

theorem PagesFit.fill (fit : PagesFit t) (fills : FillsEntries dp1Size t t') : PagesFit t' := by
  have enough : 4 ≤ dp1Size := by decide
  have size := fills.size enough
  refine { shape := { esize_ge := ?_, bytes_eq := ?_ }, counted := ?_, fits := ?_ }
  · rw [size]
    exact fit.shape.esize_ge
  · rw [fills.bytes, size, fills.entries enough]
    exact fit.shape.bytes_eq
  · intro empty dp allocated
    have total : t'.total = t.total := fills.header enough (by decide)
    exact fit.counted (total.symm.trans empty) dp ((fills.allocated enough dp).mp allocated)
  · intro dp allocated
    have old := (fills.allocated enough dp).mp allocated
    have count : dpLcnsFollow t'.buf dp = dpLcnsFollow t.buf dp := fills.page old.1 (by decide)
    rw [size, count]
    exact fit.fits dp old

/-- The lcns of the pages are replaced, and not a byte beside them changes. -/
structure MapsLcns (t t' : Table) (f : Nat → Nat → Nat → Nat) : Prop where
  bytes : t'.bytes = t.bytes
  lcns : ∀ dp, Allocated t dp → ∀ j, j < dpLcnsFollow t.buf dp → dpLcn t'.buf dp j = f dp j (dpLcn t.buf dp j)
  rest : ∀ i, (∀ dp, Allocated t dp → i < dp + dp1Size ∨ dp + dp1Size + 8 * dpLcnsFollow t.buf dp ≤ i) →
    t'.buf i = t.buf i

theorem MapsLcns.replaces (maps : MapsLcns t t' f) (fit : PagesFit t) : ReplacesLcns t t' f := by
  refine { fills := { bytes := maps.bytes, outside := fun i away => ?_ }, lcns := maps.lcns }
  refine maps.rest i fun dp allocated => ?_
  have fits := fit.fits dp allocated
  have apart := away dp allocated
  omega

theorem MapsLcns.refl (t : Table) : MapsLcns t t (fun _ _ lcn => lcn) :=
  { bytes := rfl, lcns := fun _ _ _ _ => rfl, rest := fun _ _ => rfl }

theorem MapsLcns.trans (first : MapsLcns t t' f) (second : MapsLcns t' t'' g) (fit : PagesFit t) :
    MapsLcns t t'' (fun dp j lcn => g dp j (f dp j lcn)) := by
  have replaces := first.replaces fit
  have fills := replaces.fills
  refine { bytes := second.bytes.trans first.bytes, lcns := ?_, rest := fun i away => ?_ }
  · exact (replaces.trans (second.replaces (fit.fill fills))).lcns
  · rw [second.rest i, first.rest i away]
    intro dp still
    have old := (fills.allocated (by decide) dp).mp still
    have count : dpLcnsFollow t'.buf dp = dpLcnsFollow t.buf dp := fills.page old.1 (by decide)
    rw [count]
    exact away dp old

/-- Replacing the lcns of one page. -/
theorem PagesFit.changes (fit : PagesFit t) {dp : Nat} {m : Mem} {h : Nat → Nat → Nat}
    (allocated : Allocated t dp)
    (outside : ∀ i, i < dp + dp1Size ∨ dp + dp1Size + 8 * dpLcnsFollow t.buf dp ≤ i → m i = t.buf i)
    (lcns : ∀ j, j < dpLcnsFollow t.buf dp → dpLcn m dp j = h j (dpLcn t.buf dp j)) :
    MapsLcns t (t.withBuf m) (fun page j lcn => if page = dp then h j lcn else lcn) := by
  refine { bytes := rfl, lcns := ?_, rest := fun i away => outside i (away dp allocated) }
  intro page pageAllocated j inside
  by_cases same : page = dp
  · subst same
    rw [if_pos rfl]
    exact lcns j inside
  · rw [if_neg same]
    have apart := pageAllocated.1.disjoint allocated.1 same
    have fits := fit.fits page pageAllocated
    have room := fit.fits dp allocated
    refine getLE_congr (fun i lower upper => outside i ?_)
    simp only [dp1PageLcns, dp1Size] at *
    omega

theorem DirtyPages.replaces (pages : DirtyPages t free) {dp : Nat} {m : Mem} {h : Nat → Nat → Nat}
    (allocated : Allocated t dp)
    (outside : ∀ i, i < dp + dp1Size ∨ dp + dp1Size + 8 * dpLcnsFollow t.buf dp ≤ i → m i = t.buf i)
    (lcns : ∀ j, j < dpLcnsFollow t.buf dp → dpLcn m dp j = h j (dpLcn t.buf dp j)) :
    ReplacesLcns t (t.withBuf m) (fun page j lcn => if page = dp then h j lcn else lcn) :=
  (pages.pagesFit.changes allocated outside lcns).replaces pages.pagesFit

/-- Storing the lcns of a record in a page that covers its target. -/
theorem DirtyPages.store (pages : DirtyPages t free) {record : LfsRecord} {dp : Nat}
    (allocated : Allocated t dp)
    (covers : dpCovers t.buf record.targetAttribute record.targetVcn dp = true) :
    ReplacesLcns t
      (t.withBuf (storeLcns record dp (dpLcnsFollow t.buf dp) record.lcnsToFollow t.buf))
      (fun page j lcn => if page = dp then loggedLcn record (dpVcn t.buf dp) j lcn else lcn) := by
  have fits := pages.fits dp allocated
  have small : t.esize < 65536 := lfGet16_lt t.buf rtEntrySize
  have few : record.lcnsToFollow < 65536 := lfGet16_lt record.data nrLcnsToFollow
  have inside : dpVcn t.buf dp ≤ record.targetVcn ∧
      record.targetVcn < dpVcn t.buf dp + dpLcnsFollow t.buf dp := by
    simp only [dpCovers, Bool.and_eq_true, decide_eq_true_eq] at covers
    have wrapped := Nat.mod_le (dpVcn t.buf dp + dpLcnsFollow t.buf dp) (2 ^ 64)
    exact ⟨covers.1.2, Nat.lt_of_lt_of_le covers.2 wrapped⟩
  refine pages.replaces allocated (fun i away => storeLcns_outside _ _ away) ?_
  intro j below
  rw [storeLcns_lcn _ _ inside.1 (by omega) below, loggedLcn]
  by_cases logged : record.targetVcn - dpVcn t.buf dp ≤ j ∧
      j < record.targetVcn - dpVcn t.buf dp + record.lcnsToFollow
  · rw [if_pos logged, if_pos (by omega)]
    rw [show j - (record.targetVcn - dpVcn t.buf dp) = dpVcn t.buf dp + j - record.targetVcn by omega]
  · rw [if_neg logged, if_neg (by omega)]

/-- Deleting a range of lcns from the pages at a list of offsets. -/
theorem PagesFit.deletes (fit : PagesFit t) (l0 le : Nat) (dps : List Nat)
    (allocated : ∀ dp, dp ∈ dps → Allocated t dp) (distinct : dps.Nodup) :
    MapsLcns t (t.withBuf (dps.foldl
        (fun m dp => deleteLcns l0 le dp (dpLcnsFollow m dp) 0 m) t.buf))
      (fun dp _ lcn => if dp ∈ dps then deletedLcn l0 le lcn else lcn) := by
  induction dps generalizing t with
  | nil =>
    simp only [List.foldl_nil, List.not_mem_nil, if_false]
    exact MapsLcns.refl t
  | cons dp dps ih =>
    obtain ⟨fresh, distinctRest⟩ := List.nodup_cons.mp distinct
    have here := allocated dp List.mem_cons_self
    have first : MapsLcns t
        (t.withBuf (deleteLcns l0 le dp (dpLcnsFollow t.buf dp) 0 t.buf))
        (fun page _ lcn => if page = dp then deletedLcn l0 le lcn else lcn) := by
      refine fit.changes here ?_ ?_
      · intro i away
        refine deleteLcns_outside _ _ _ ?_
        rw [Nat.zero_add]
        exact away
      · intro j below
        rw [deleteLcns_lcn, Nat.zero_add]
        exact if_pos ⟨Nat.zero_le j, below⟩
    have fills := (first.replaces fit).fills
    have both := first.trans (ih (fit.fill fills) (fun other listed =>
      (fills.allocated (by decide) other).mpr (allocated other (List.mem_cons_of_mem dp listed))) distinctRest) fit
    refine { bytes := both.bytes, lcns := ?_, rest := both.rest }
    intro page pageAllocated j inside
    refine (both.lcns page pageAllocated j inside).trans ?_
    by_cases same : page = dp
    · subst same
      rw [if_pos rfl, if_neg fresh, if_pos List.mem_cons_self]
    · rw [if_neg same]
      simp only [List.mem_cons, same, false_or]

theorem deleteRange_maps (fit : PagesFit t) (record : LfsRecord) (k : Nat) :
    MapsLcns t (deleteRange record t k)
      (fun _ _ lcn => deletedLcn (deletedFirst record k) (deletedLast record k) lcn) := by
  have listed := fit.shape.enumerates fit.counted
  have deletes := fit.deletes (deletedFirst record k) (deletedLast record k)
    (tableEntries (some t)) (fun dp => listed.mem.mp)
    ((listed.sorted fit.shape).imp (fun less => Nat.ne_of_lt less))
  rw [deleteRange]
  constructor
  · exact deletes.bytes
  · intro dp allocated j inside
    have member := listed.mem.mpr allocated
    rw [deletes.lcns dp allocated j inside, if_pos member]
  · exact deletes.rest

/-- What a DeleteDirtyClusters record does to an lcn. -/
def deletedLcns (record : LfsRecord) (lcn : Nat) : Nat :=
  (List.range (record.redoLength / lrRangeSize)).foldl
    (fun lcn k => deletedLcn (deletedFirst record k) (deletedLast record k) lcn) lcn

theorem deleteDirtyClusters_maps (fit : PagesFit t) (record : LfsRecord) :
    MapsLcns t (deleteDirtyClusters record t) (fun _ _ lcn => deletedLcns record lcn) := by
  unfold deleteDirtyClusters deletedLcns
  generalize List.range (record.redoLength / lrRangeSize) = ks
  induction ks generalizing t with
  | nil => exact MapsLcns.refl t
  | cons k ks ih =>
    have first := deleteRange_maps fit record k
    have both := first.trans (ih (fit.fill (first.replaces fit).fills)) fit
    rw [List.foldl_cons]
    constructor
    · exact both.bytes
    · intro dp allocated j inside
      rw [both.lcns dp allocated j inside, List.foldl_cons]
    · exact both.rest

theorem deleteDirtyClusters_spec (pages : DirtyPages t free) (record : LfsRecord) :
    ReplacesLcns t (deleteDirtyClusters record t) (fun _ _ lcn => deletedLcns record lcn) :=
  (deleteDirtyClusters_maps pages.pagesFit record).replaces pages.pagesFit

/-- What a HotFix record does to an lcn of cluster `j` of the page at `dp`. -/
def fixedLcn (record : LfsRecord) (vcn j lcn : Nat) : Nat :=
  if j = record.targetVcn - vcn ∧ lcn ≠ 0 then record.pageLcn 0 else lcn

/-- A HotFix record replaces the lcn of its target if that is known. -/
theorem hotFix_spec (pages : DirtyPages t free) (record : LfsRecord) :
    ReplacesLcns t (hotFix record t) (fun dp j lcn =>
      if findDp (some t) record.targetAttribute record.targetVcn = some dp then
        fixedLcn record (dpVcn t.buf dp) j lcn else lcn) := by
  cases found : findDp (some t) record.targetAttribute record.targetVcn with
  | none =>
    have idle : hotFix record t = t := by rw [hotFix, found]
    rw [idle]
    exact { fills := FillsEntries.refl _ t, lcns := fun _ _ _ _ => by simp }
  | some dp =>
    obtain ⟨allocated, covers, _⟩ := (findDp_eq_some pages.inv).mp found
    simp only [dpCovers, Bool.and_eq_true, decide_eq_true_eq] at covers
    have wrapped := Nat.mod_le (dpVcn t.buf dp + dpLcnsFollow t.buf dp) (2 ^ 64)
    have replaces : ReplacesLcns t (hotFix record t)
        (fun page j lcn => if page = dp then fixedLcn record (dpVcn t.buf dp) j lcn else lcn) := by
      simp only [hotFix, found]
      split
      next known =>
        refine pages.replaces allocated ?_ ?_
        · intro i away
          refine putLE_outside ?_
          simp only [dp1PageLcns, dp1Size] at *
          omega
        · intro j _
          rw [dpLcn_put t.buf dp j _ (record.pageLcn 0) (getLE_lt _ 8 _), fixedLcn]
          by_cases target : j = record.targetVcn - dpVcn t.buf dp
          · rw [if_pos target, if_pos ⟨target, by rw [target]; exact known⟩]
          · rw [if_neg target, if_neg (fun both => target both.1)]
      next unknown =>
        refine { fills := FillsEntries.refl _ t, lcns := ?_ }
        intro page _ j _
        by_cases same : page = dp
        · rw [if_pos same, fixedLcn, same]
          refine (if_neg ?_).symm
          rintro ⟨target, nonzero⟩
          rw [target] at nonzero
          exact unknown nonzero
        · rw [if_neg same]
    refine { fills := replaces.fills, lcns := ?_ }
    intro page pageAllocated j inside
    rw [replaces.lcns page pageAllocated j inside]
    by_cases same : page = dp
    · rw [if_pos same, if_pos (by rw [same]), same]
    · rw [if_neg same, if_neg (fun hit => same (Option.some.inj hit).symm)]

end Replace

/-! ## Adding a page -/

theorem and_not_add_and (v w : BitVec 64) : (v &&& ~~~w).toNat + (v &&& w).toNat = v.toNat := by
  have apart : (v &&& ~~~w) &&& (v &&& w) = 0#64 := by
    ext i
    simp only [BitVec.getElem_and, BitVec.getElem_not, BitVec.getElem_zero]
    grind
  have whole : (v &&& ~~~w) ||| (v &&& w) = v := by
    ext i
    simp only [BitVec.getElem_or, BitVec.getElem_and, BitVec.getElem_not]
    grind
  rw [← BitVec.toNat_add_of_and_eq_zero apart, BitVec.add_eq_or_of_and_eq_zero _ _ apart, whole]

theorem pageStart_covers {perPage vcn : Nat} (some_page : 0 < perPage) (few : perPage < 2 ^ 32)
    (small : vcn < 2 ^ 64) : pageStart perPage vcn ≤ vcn ∧ vcn < pageStart perPage vcn + perPage := by
  have whole := and_not_add_and (BitVec.ofNat 64 vcn) (BitVec.ofNat 64 perPage - 1)
  have low : (BitVec.ofNat 64 vcn &&& (BitVec.ofNat 64 perPage - 1)).toNat ≤ perPage - 1 := by
    rw [BitVec.toNat_and]
    refine Nat.le_trans Nat.and_le_right ?_
    bv_omega
  rw [BitVec.toNat_ofNat, Nat.mod_eq_of_lt small] at whole
  unfold pageStart
  omega

/-- The number of clusters for which the entries of a table have room. -/
def pageRoom (t : Table) : Nat := (t.esize - dp1Size) / 8

/-- A page is added to a table. -/
structure AddsPage (t t' : Table) (dp attr vcn count lsn : Nat) : Prop where
  size : t'.esize = t.esize
  wasFree : ¬ Allocated t dp
  allocated : Allocated t' dp
  only : ∀ other, Allocated t' other → other = dp ∨ Allocated t other
  kept : KeepsAllocated t t' (some dp)
  target : dpAttr t'.buf dp = attr
  start : dpVcn t'.buf dp = vcn
  clusters : dpLcnsFollow t'.buf dp = count
  oldest : dpOldest t'.buf dp = lsn
  lcns : ∀ j, j < count → dpLcn t'.buf dp j = 0

section Add

variable {t : Table} {free : List Nat}

theorem initDp_outside {m : Mem} {dp attr perPage clusterSize vcn lsn i : Nat}
    (outside : i < dp + 4 ∨ dp + dp1Size ≤ i) :
    initDp m dp attr perPage clusterSize vcn lsn i = m i := by
  simp only [dp1Size] at outside
  simp only [initDp, dp1TargetAttr, dp1TransferLen, dp1LcnsFollow, dp1Vcn, dp1OldestLsn, lfPut32,
    lfPut64]
  simp (disch := omega) only [putLE_outside]

/-- A new entry has the fields that were stored in it. -/
theorem initDp_fields {m : Mem} {dp attr perPage clusterSize vcn lsn : Nat} (attrSmall : attr < 256 ^ 4)
    (pageSmall : perPage < 256 ^ 4) (lsnSmall : lsn < 256 ^ 8) :
    dpAttr (initDp m dp attr perPage clusterSize vcn lsn) dp = attr ∧
      dpLcnsFollow (initDp m dp attr perPage clusterSize vcn lsn) dp = perPage ∧
      dpVcn (initDp m dp attr perPage clusterSize vcn lsn) dp = pageStart perPage vcn ∧
      dpOldest (initDp m dp attr perPage clusterSize vcn lsn) dp = lsn := by
  have startSmall : pageStart perPage vcn < 256 ^ 8 := by
    have bound := (BitVec.ofNat 64 vcn &&& ~~~(BitVec.ofNat 64 perPage - 1)).isLt
    simp only [pageStart, Nat.reducePow] at bound ⊢
    exact bound
  simp only [initDp, dpAttr, dpLcnsFollow, dpVcn, dpOldest, dp1TargetAttr, dp1TransferLen,
    dp1LcnsFollow, dp1Vcn, dp1OldestLsn, lfPut32, lfPut64, lfGet32, lfGet64]
  simp (disch := omega) only [getLE_putLE_disjoint]
  exact ⟨getLE_putLE_of_lt attrSmall, getLE_putLE_of_lt pageSmall, getLE_putLE_of_lt startSmall,
    getLE_putLE_of_lt lsnSmall⟩

/-- A new entry is a page that covers the target of its record. -/
theorem addPage_spec (pages : DirtyPages t free) {t₁ : Table} {dp : Nat}
    (returned : lfsTableAlloc t = (t₁, some dp)) {attr lsn : Nat} (clusterSize vcn : Nat)
    (attrSmall : attr < 65536) (lsnSmall : lsn < 256 ^ 8) :
    ∃ free', DirtyPages (t₁.withBuf (initDp t₁.buf dp attr (pageRoom t) clusterSize vcn lsn)) free' ∧
      AddsPage t (t₁.withBuf (initDp t₁.buf dp attr (pageRoom t) clusterSize vcn lsn)) dp attr
        (pageStart (pageRoom t) vcn) (pageRoom t) lsn := by
  rcases lfsTableAlloc_spec pages.inv with ⟨t', off, free', computed, allocates⟩ | ⟨failed, _⟩
  · rw [returned] at computed
    cases computed
    obtain ⟨t₂, filled⟩ : ∃ t₂, t₂ = t₁.withBuf (initDp t₁.buf dp attr (pageRoom t) clusterSize vcn lsn) :=
      ⟨_, rfl⟩
    have esize : t.esize < 65536 := lfGet16_lt t.buf rtEntrySize
    have room : dp1Size + 8 * pageRoom t ≤ t.esize := by
      have size := pages.size
      simp only [pageRoom, dp1Size] at *
      omega
    have buf : t₂.buf = initDp t₁.buf dp attr (pageRoom t) clusterSize vcn lsn := by
      rw [filled]
      rfl
    have fills : FillsEntries 4 t₁ t₂ := by
      rw [filled]
      refine FillsEntries.single allocates.allocated ?_
      intro i outside
      have size := allocates.size
      exact initDp_outside (by omega)
    have size : t₂.esize = t.esize := (fills.size (by decide)).trans allocates.size
    have sameAllocated := fills.allocated (by decide)
    obtain ⟨attrField, countField, startField, oldestField⟩ : dpAttr t₂.buf dp = attr ∧
        dpLcnsFollow t₂.buf dp = pageRoom t ∧ dpVcn t₂.buf dp = pageStart (pageRoom t) vcn ∧
        dpOldest t₂.buf dp = lsn := by
      rw [buf]
      refine initDp_fields ?_ ?_ lsnSmall
      · omega
      · simp only [dp1Size] at room
        omega
    have kept : KeepsAllocated t t₂ (some dp) := by
      intro other otherAllocated different
      obtain ⟨still, same⟩ := allocates.kept other otherAllocated different
      refine ⟨(sameAllocated other).mpr still, ?_⟩
      intro i lower upper
      rw [← same i lower upper]
      have apart := still.1.disjoint allocates.allocated.1 (fun clash => different (congrArg some clash))
      have size₁ := allocates.size
      have large := pages.size
      rw [buf]
      refine initDp_outside ?_
      simp only [dp1Size] at *
      omega
    rw [← filled]
    refine ⟨free', ?_, ?_⟩
    · refine { inv := fills.inv (by decide) allocates.inv, size := ?_, fits := ?_ }
      · rw [size]
        exact pages.size
      intro page pageAllocated
      rw [size]
      rcases allocates.only page ((sameAllocated page).mp pageAllocated) with new | old
      · rw [new, countField]
        exact room
      by_cases same : page = dp
      · rw [same, countField]
        exact room
      obtain ⟨_, contents⟩ := kept page old (fun clash => same (Option.some.inj clash))
      have large := pages.size
      have count : dpLcnsFollow t₂.buf page = dpLcnsFollow t.buf page := by
        refine getLE_congr (fun i lower upper => contents i ?_ ?_)
        · simp only [dp1LcnsFollow] at *
          omega
        · simp only [dp1LcnsFollow, dp1Size] at *
          omega
      rw [count]
      exact pages.fits page old
    · constructor
      · exact size
      · exact allocates.wasFree
      · exact (sameAllocated dp).mpr allocates.allocated
      · intro other otherAllocated
        exact allocates.only other ((sameAllocated other).mp otherAllocated)
      · exact kept
      · exact attrField
      · exact startField
      · exact countField
      · exact oldestField
      · intro j below
        have zero : ∀ i, dp + dp1Size ≤ i → i < dp + t.esize → t₂.buf i = 0 := by
          intro i lower upper
          rw [buf, initDp_outside (Or.inr lower)]
          refine allocates.zeroed i ?_ upper
          simp only [dp1Size] at lower
          omega
        rw [dpLcn]
        refine (getLE_congr (fun i lower upper => ?_)).trans (getLE_zeros 8 (dp + dp1PageLcns + 8 * j))
        refine zero i ?_ ?_
        · simp only [dp1PageLcns, dp1Size] at *
          omega
        · simp only [dp1PageLcns, dp1Size] at *
          omega
  · rw [returned] at failed
    cases failed

end Add

end Ttntfs.Logfile
