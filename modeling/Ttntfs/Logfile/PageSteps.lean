import Ttntfs.Logfile.DirtyPages

/-!
# What a record does to the dirty pages

One statement for all records: pages are kept with their headers, a page is added
only for an MFT or attribute operation whose target no page covered, and every lcn is
changed by a rule that depends on the record and on the page alone. A page that is
not there yet counts as one of zero lcns, so that adding it changes no lcn.
-/

namespace Ttntfs.Logfile

open Library.ByteMemory Library.LinkedOffsets

/-- The dirty page table, or the one that analysis makes where there is none. -/
def pagesOf (info : LogInfo) (dptbl : Option Table) : Table :=
  dptbl.getD (lfsTableInit ((dp1Size + 8 * info.clstPerPage) % 2 ^ 16) 32)

/-- The dirty page table is well formed, or can be made. -/
def PagesReady (info : LogInfo) : Option Table → Prop
  | some t => ∃ free, DirtyPages t free
  | none => 0 < info.clstPerPage ∧ dp1Size + 8 * info.clstPerPage < 65536

/-- The record is an MFT or attribute operation of the client. -/
def LfsRecord.isPageOp (record : LfsRecord) : Bool :=
  record.isClient && (opIsMft record.redoOp || opIsAttr record.redoOp)

/-- The record is a HotFix of the client. -/
def LfsRecord.isHotFix (record : LfsRecord) : Bool :=
  record.isClient && decide (record.redoOp = lopHotFix)

/-- The record is a DeleteDirtyClusters of the client. -/
def LfsRecord.isDelete (record : LfsRecord) : Bool :=
  record.isClient && decide (record.redoOp = lopDeleteDirtyClusters)

/-- What a record makes of the lcn of cluster `j` of a page from `vcn` on; `hit` says
whether `find_dp` finds this page for the record. -/
def replacedLcn (record : LfsRecord) (hit : Bool) (vcn j lcn : Nat) : Nat :=
  if record.isPageOp then (if hit then loggedLcn record vcn j lcn else lcn)
  else if record.isDelete then deletedLcns record lcn
  else if record.isHotFix then (if hit then fixedLcn record vcn j lcn else lcn)
  else lcn

/-- `find_dp` finds the page at `dp` for a record. -/
def hits (t : Table) (record : LfsRecord) (dp : Nat) : Bool :=
  decide (findDp (some t) record.targetAttribute record.targetVcn = some dp)

open Classical in
/-- The lcn of cluster `j` of the page at `dp`, zero where there is no such page. -/
noncomputable def knownLcn (t : Table) (dp j : Nat) : Nat :=
  if Allocated t dp then dpLcn t.buf dp j else 0

/-- The page at `dp` is new, and it is the one of the record. -/
structure NewPage (record : LfsRecord) (t t' : Table) (dp : Nat) : Prop where
  isOp : record.isPageOp = true
  missed : findDp (some t) record.targetAttribute record.targetVcn = none
  found : findDp (some t') record.targetAttribute record.targetVcn = some dp
  target : dpAttr t'.buf dp = record.targetAttribute
  start : dpVcn t'.buf dp = pageStart (pageRoom t) record.targetVcn
  clusters : dpLcnsFollow t'.buf dp = pageRoom t
  oldest : dpOldest t'.buf dp = record.lsn

/-- What an analysed record does to the dirty pages. -/
structure PageStep (record : LfsRecord) (t t' : Table) : Prop where
  pages : ∃ free, DirtyPages t' free
  size : t'.esize = t.esize
  kept : ∀ dp, Allocated t dp → Allocated t' dp ∧
    ∀ i, dp ≤ i → i < dp + dp1Size → t'.buf i = t.buf i
  served : record.isPageOp = true → ∃ dp, Allocated t' dp ∧
    dpCovers t'.buf record.targetAttribute record.targetVcn dp = true
  added : ∀ dp, Allocated t' dp → ¬ Allocated t dp → NewPage record t t' dp
  lcns : ∀ dp, Allocated t' dp → ∀ j, j < dpLcnsFollow t'.buf dp →
    dpLcn t'.buf dp j = replacedLcn record (hits t' record dp) (dpVcn t'.buf dp) j (knownLcn t dp j)

/-! ## A table that can be made -/

theorem fresh_unallocated {esize used off : Nat} (large : 4 ≤ esize) (small : esize < 65536)
    (few : used < 65536) (someUsed : 0 < used) : ¬ Allocated (lfsTableInit esize used) off := by
  rintro ⟨⟨k, below, rfl⟩, marked⟩
  have count := (lfsTableInit_inv large small few someUsed).1.count
  rw [lfsTableInit_total large, allocatedCount, eq_comm, Finset.card_eq_zero,
    Finset.filter_eq_empty_iff] at count
  exact count (Finset.mem_range.mpr below) marked

section Ready

variable {info : LogInfo}

theorem pagesOf_none (ready : PagesReady info none) :
    pagesOf info none = lfsTableInit (dp1Size + 8 * info.clstPerPage) 32 ∧
      4 ≤ dp1Size + 8 * info.clstPerPage := by
  obtain ⟨_, small⟩ := ready
  constructor
  · have whole : (dp1Size + 8 * info.clstPerPage) % 2 ^ 16 = dp1Size + 8 * info.clstPerPage :=
      Nat.mod_eq_of_lt small
    rw [pagesOf, Option.getD_none, whole]
  · simp only [dp1Size]
    omega

theorem pagesOf_none_unallocated (ready : PagesReady info none) (dp : Nat) :
    ¬ Allocated (pagesOf info none) dp := by
  obtain ⟨made, large⟩ := pagesOf_none ready
  rw [made]
  exact fresh_unallocated large ready.2 (by decide) (by decide)

theorem PagesReady.pages {dptbl : Option Table} (ready : PagesReady info dptbl) :
    ∃ free, DirtyPages (pagesOf info dptbl) free := by
  cases dptbl with
  | some t => exact ready
  | none =>
    obtain ⟨made, large⟩ := pagesOf_none ready
    have dimensions := lfsTableInit_dimensions large ready.2 (show 32 < 65536 by decide)
    refine ⟨entryRange (dp1Size + 8 * info.clstPerPage) 0 32, { inv := ?_, size := ?_, fits := ?_ }⟩
    · rw [made]
      exact (lfsTableInit_inv large ready.2 (by decide) (by decide)).1
    · have some_page := ready.1
      rw [made, dimensions.1]
      omega
    · intro dp allocated
      exact absurd allocated (pagesOf_none_unallocated ready dp)

theorem PagesReady.room {dptbl : Option Table} (ready : PagesReady info dptbl) :
    newPerPage info dptbl = pageRoom (pagesOf info dptbl) := by
  cases dptbl with
  | some t =>
    obtain ⟨free, pages⟩ := ready
    have size := pages.size
    have small : t.esize < 65536 := lfGet16_lt t.buf rtEntrySize
    simp only [newPerPage, pagesOf, Option.getD_some, pageRoom, dp1Size] at *
    omega
  | none =>
    obtain ⟨made, large⟩ := pagesOf_none ready
    rw [pageRoom, made, (lfsTableInit_dimensions large ready.2 (by decide)).1]
    simp only [newPerPage, dp1Size]
    omega

theorem addDp_some {dptbl : Option Table} (ready : PagesReady info dptbl) {ta vcn lsn dp : Nat}
    {t' : Table} (added : addDp info dptbl ta vcn lsn = some (t', dp)) :
    ∃ t₁, lfsTableAlloc (pagesOf info dptbl) = (t₁, some dp) ∧ t' = t₁.withBuf
      (initDp t₁.buf dp ta (pageRoom (pagesOf info dptbl)) info.clusterSize vcn lsn) := by
  have made : dptbl.getD (lfsTableInit ((dp1Size + 8 * newPerPage info dptbl) % 2 ^ 16) 32) =
      pagesOf info dptbl := by
    cases dptbl with
    | some t => rw [pagesOf, Option.getD_some, Option.getD_some]
    | none => rw [pagesOf, newPerPage]
  simp only [addDp] at added
  rw [made, ready.room] at added
  split at added
  · cases added
  next t₁ dp₁ allocated =>
    obtain ⟨rfl, rfl⟩ := Prod.mk.inj (Option.some.inj added)
    exact ⟨t₁, allocated, rfl⟩

end Ready

/-! ## Records that add no page -/

section Replace

variable {t t' : Table} {free : List Nat} {record : LfsRecord}

/-- `find_dp` finds the same page where only lcns were stored. -/
theorem DirtyPages.findDp_fill (pages : DirtyPages t free) (fills : FillsEntries dp1Size t t')
    (ta vcn : Nat) : findDp (some t') ta vcn = findDp (some t) ta vcn := by
  have inv' := (pages.fill fills).inv
  have allocated := fills.allocated (by decide)
  cases found : findDp (some t) ta vcn with
  | none =>
    rw [findDp_eq_none pages.inv] at found
    rw [findDp_eq_none inv']
    intro dp still
    have old := (allocated dp).mp still
    rw [fills.dpCovers old.1]
    exact found dp old
  | some dp =>
    obtain ⟨here, covers, least⟩ := (findDp_eq_some pages.inv).mp found
    refine (findDp_eq_some inv').mpr ⟨(allocated dp).mpr here, ?_, ?_⟩
    · rw [fills.dpCovers here.1]
      exact covers
    · intro other still less
      have old := (allocated other).mp still
      rw [fills.dpCovers old.1]
      exact least other old less

/-- A record that replaces lcns by its rule and adds no page. -/
theorem DirtyPages.step (pages : DirtyPages t free) {f : Nat → Nat → Nat → Nat}
    (replaces : ReplacesLcns t t' f)
    (served : record.isPageOp = true → ∃ dp, Allocated t dp ∧
      Logfile.dpCovers t.buf record.targetAttribute record.targetVcn dp = true)
    (rule : ∀ dp j lcn, f dp j lcn = replacedLcn record (hits t record dp) (dpVcn t.buf dp) j lcn) :
    PageStep record t t' := by
  have fills := replaces.fills
  have allocated := fills.allocated (by decide)
  constructor
  · exact ⟨free, pages.fill fills⟩
  · exact fills.size (by decide)
  · intro dp here
    exact ⟨(allocated dp).mpr here, fun i lower upper => fills.start here.1 lower upper⟩
  · intro isOp
    obtain ⟨dp, here, covers⟩ := served isOp
    refine ⟨dp, (allocated dp).mpr here, ?_⟩
    rw [fills.dpCovers here.1]
    exact covers
  · intro dp still new
    exact absurd ((allocated dp).mp still) new
  · intro dp still j inside
    have here := (allocated dp).mp still
    have count : dpLcnsFollow t'.buf dp = dpLcnsFollow t.buf dp := fills.page here.1 (by decide)
    have start : dpVcn t'.buf dp = dpVcn t.buf dp := fills.page here.1 (by decide)
    rw [count] at inside
    rw [replaces.lcns dp here j inside, rule, start, hits, hits, pages.findDp_fill fills, knownLcn,
      if_pos here]

end Replace

/-! ## Records that add a page -/

/-- The target of a record is far enough from the end of the numbers for a page. -/
def LfsRecord.TargetInRange (record : LfsRecord) : Prop := record.targetVcn + 65536 ≤ 2 ^ 64

section Add

variable {t t' : Table} {free : List Nat} {record : LfsRecord} {dp : Nat}

theorem DirtyPages.room (pages : DirtyPages t free) : 0 < pageRoom t ∧ pageRoom t < 8192 := by
  have size := pages.size
  have small : t.esize < 65536 := lfGet16_lt t.buf rtEntrySize
  simp only [pageRoom, dp1Size] at *
  omega

theorem AddsPage.covers (pages : DirtyPages t free) (inRange : record.TargetInRange)
    (adds : AddsPage t t' dp record.targetAttribute (pageStart (pageRoom t) record.targetVcn)
      (pageRoom t) record.lsn) :
    dpCovers t'.buf record.targetAttribute record.targetVcn dp = true := by
  obtain ⟨some_page, few⟩ := pages.room
  unfold LfsRecord.TargetInRange at inRange
  obtain ⟨lower, upper⟩ : pageStart (pageRoom t) record.targetVcn ≤ record.targetVcn ∧
      record.targetVcn < pageStart (pageRoom t) record.targetVcn + pageRoom t :=
    pageStart_covers some_page (by omega) (by omega)
  simp only [dpCovers, Bool.and_eq_true, decide_eq_true_eq]
  rw [adds.target, adds.start, adds.clusters]
  exact ⟨⟨rfl, lower⟩, by omega⟩

theorem dpCovers_kept {off : Nat} (same : ∀ i, off ≤ i → i < off + dp1Size → t'.buf i = t.buf i)
    (ta vcn : Nat) : dpCovers t'.buf ta vcn off = dpCovers t.buf ta vcn off := by
  have field : ∀ width field, field + width ≤ dp1Size →
      getLE t'.buf width (off + field) = getLE t.buf width (off + field) := by
    intro width field inside
    exact getLE_congr (fun i lower upper => same i (by omega) (by omega))
  have attr : dpAttr t'.buf off = dpAttr t.buf off := field _ _ (by decide)
  have start : dpVcn t'.buf off = dpVcn t.buf off := field _ _ (by decide)
  have count : dpLcnsFollow t'.buf off = dpLcnsFollow t.buf off := field _ _ (by decide)
  rw [dpCovers, dpCovers, attr, start, count]

/-- A record for which a page is added, and its lcns stored in it. -/
theorem AddsPage.step {t₁ : Table} {free₁ : List Nat} (pages : DirtyPages t free)
    (isOp : record.isPageOp = true) (inRange : record.TargetInRange)
    (missed : findDp (some t) record.targetAttribute record.targetVcn = none)
    (pages₁ : DirtyPages t₁ free₁)
    (adds : AddsPage t t₁ dp record.targetAttribute (pageStart (pageRoom t) record.targetVcn)
      (pageRoom t) record.lsn)
    (stores : ReplacesLcns t₁ t'
      (fun page j lcn => if page = dp then loggedLcn record (dpVcn t₁.buf dp) j lcn else lcn)) :
    PageStep record t t' := by
  have covers : dpCovers t₁.buf record.targetAttribute record.targetVcn dp = true :=
    adds.covers pages inRange
  have fills := stores.fills
  have allocated := fills.allocated (by decide)
  have large : dp1Size ≤ t.esize := Nat.le_trans (Nat.le_add_right _ 8) pages.size
  have headers : ∀ page, Allocated t page → Allocated t₁ page ∧
      ∀ i, page ≤ i → i < page + dp1Size → t₁.buf i = t.buf i := by
    intro page here
    have different : page ≠ dp := by
      rintro rfl
      exact adds.wasFree here
    obtain ⟨still, same⟩ := adds.kept page here (fun clash => different (Option.some.inj clash))
    exact ⟨still, fun i lower upper => same i lower (by omega)⟩
  have found : findDp (some t') record.targetAttribute record.targetVcn = some dp := by
    rw [pages₁.findDp_fill fills]
    refine (findDp_eq_some pages₁.inv).mpr ⟨adds.allocated, covers, ?_⟩
    intro other otherAllocated less
    rcases adds.only other otherAllocated with same | old
    · omega
    · rw [dpCovers_kept (headers other old).2]
      exact (findDp_eq_none pages.inv).mp missed other old
  constructor
  · exact ⟨free₁, pages₁.fill fills⟩
  · exact (fills.size (by decide)).trans adds.size
  · intro page here
    obtain ⟨still, same⟩ := headers page here
    refine ⟨(allocated page).mpr still, ?_⟩
    intro i lower upper
    rw [fills.start still.1 lower upper, same i lower upper]
  · intro _
    refine ⟨dp, (allocated dp).mpr adds.allocated, ?_⟩
    rw [fills.dpCovers adds.allocated.1]
    exact covers
  · intro page still new
    have here := (allocated page).mp still
    obtain rfl : page = dp := (adds.only page here).resolve_right new
    have field : ∀ width field, field + width ≤ dp1Size →
        getLE t'.buf width (page + field) = getLE t₁.buf width (page + field) :=
      fun width field inside => fills.page here.1 inside
    constructor
    · exact isOp
    · exact missed
    · exact found
    · exact (field _ _ (by decide)).trans adds.target
    · exact (field _ _ (by decide)).trans adds.start
    · exact (field _ _ (by decide)).trans adds.clusters
    · exact (field _ _ (by decide)).trans adds.oldest
  · intro page still j inside
    have here := (allocated page).mp still
    have count : dpLcnsFollow t'.buf page = dpLcnsFollow t₁.buf page := fills.page here.1 (by decide)
    have start : dpVcn t'.buf page = dpVcn t₁.buf page := fills.page here.1 (by decide)
    rw [count] at inside
    rw [stores.lcns page here j inside, replacedLcn, isOp, if_pos rfl, hits, found, start]
    by_cases same : page = dp
    · subst same
      have zero : dpLcn t₁.buf page j = 0 := adds.lcns j (by rw [← adds.clusters]; exact inside)
      rw [if_pos rfl, zero, knownLcn, if_neg adds.wasFree]
      simp
    · have old : Allocated t page := (adds.only page here).resolve_left same
      obtain ⟨_, contents⟩ := adds.kept page old (fun clash => same (Option.some.inj clash))
      have fits := pages₁.fits page here
      have size := adds.size
      have lcn : dpLcn t₁.buf page j = dpLcn t.buf page j := by
        refine getLE_congr (fun i lower upper => contents i ?_ ?_)
        · simp only [dp1PageLcns] at *
          omega
        · simp only [dp1PageLcns, dp1Size] at *
          omega
      rw [if_neg same, knownLcn, if_pos old, lcn]
      simp [Ne.symm same]

end Add

/-! ## The step of a record -/

/-- What a record does to the dirty page table; none where the table cannot take
another page. -/
def pageEffect (info : LogInfo) (record : LfsRecord) (dptbl : Option Table) : Option (Option Table) :=
  if record.isPageOp then (logDirtyPage info dptbl record).map some
  else if record.isDelete then some (dptbl.map (deleteDirtyClusters record))
  else if record.isHotFix then some (dptbl.map (hotFix record))
  else some dptbl

section Record

variable {info : LogInfo} {record : LfsRecord}

theorem openNonresidentAttribute_frame {tables tables' : LogTables}
    (opened : openNonresidentAttribute info tables record = .ok tables') :
    tables'.dptbl = tables.dptbl ∧ tables'.trtbl = tables.trtbl := by
  revert opened
  fun_cases openNonresidentAttribute info tables record with
  | case1 none => simp
  | case2 t some failed => simp
  | case3 t some t₁ oe allocated short => simp
  | case4 t some t₁ oe allocated long m =>
    rintro ⟨⟩
    rw [stashName]
    split
    · exact ⟨rfl, rfl⟩
    · exact ⟨rfl, rfl⟩

/-- The redo operation of a client record acts on the dirty pages by its effect, and
leaves the transactions alone. -/
theorem analyseRedo_pages {tables tables' : LogTables} (client : record.isClient = true)
    (analysed : analyseRedo info tables record = .ok tables') :
    pageEffect info record tables.dptbl = some tables'.dptbl ∧ tables'.trtbl = tables.trtbl := by
  simp only [pageEffect, LfsRecord.isPageOp, LfsRecord.isDelete, LfsRecord.isHotFix, client,
    Bool.true_and, decide_eq_true_eq]
  rw [analyseRedo] at analysed
  split at analysed
  next pageOp =>
    rw [if_pos pageOp]
    cases logged : logDirtyPage info tables.dptbl record with
    | none => simp [logged] at analysed
    | some t =>
      simp only [logged, Except.ok.injEq] at analysed
      simp [← analysed]
  next other =>
    rw [if_neg other]
    split at analysed
    next delete =>
      rw [if_pos delete, ← Except.ok.inj analysed]
      exact ⟨rfl, rfl⟩
    next notDelete =>
      rw [if_neg notDelete]
      split at analysed
      next opens =>
        have notFix : record.redoOp ≠ lopHotFix := by
          rw [opens]
          decide
        obtain ⟨pages, transactions⟩ := openNonresidentAttribute_frame analysed
        rw [if_neg notFix, pages]
        exact ⟨rfl, transactions⟩
      next =>
        split at analysed
        next fix =>
          rw [if_pos fix, ← Except.ok.inj analysed]
          exact ⟨rfl, rfl⟩
        next notFix =>
          rw [if_neg notFix, ← Except.ok.inj analysed]
          exact ⟨rfl, rfl⟩

theorem analyseRecord_pages {tables tables' : LogTables}
    (analysed : analyseRecord info tables record = .ok tables') :
    pageEffect info record tables.dptbl = some tables'.dptbl := by
  rw [analyseRecord] at analysed
  split at analysed
  next foreign =>
    have notClient : record.isClient = false := by simpa using foreign
    rw [← Except.ok.inj analysed]
    simp [pageEffect, LfsRecord.isPageOp, LfsRecord.isDelete, LfsRecord.isHotFix, notClient]
  next client =>
    have isClient : record.isClient = true := by simpa using client
    split at analysed
    · cases analysed
    · split at analysed
      · cases analysed
      · exact (analyseRedo_pages isClient analysed).1

theorem logDirtyPage_found {t t' : Table} {free : List Nat} {dp : Nat} (pages : DirtyPages t free)
    (isOp : record.isPageOp = true)
    (found : findDp (some t) record.targetAttribute record.targetVcn = some dp)
    (logged : logDirtyPage info (some t) record = some t') : PageStep record t t' := by
  obtain ⟨allocated, covers, _⟩ := (findDp_eq_some pages.inv).mp found
  simp only [logDirtyPage, found, Option.some.injEq] at logged
  rw [← logged]
  refine pages.step (pages.store allocated covers) (fun _ => ⟨dp, allocated, covers⟩) ?_
  intro page j lcn
  rw [replacedLcn, isOp, if_pos rfl, hits, found]
  by_cases same : page = dp
  · subst same
    simp
  · simp [same, Ne.symm same]

/-- A record that finds no page gets one. -/
theorem logDirtyPage_missed {dptbl : Option Table} {t' : Table} (ready : PagesReady info dptbl)
    (isOp : record.isPageOp = true) (inRange : record.TargetInRange) (lsnSmall : record.lsn < 256 ^ 8)
    (missed : findDp dptbl record.targetAttribute record.targetVcn = none)
    (logged : logDirtyPage info dptbl record = some t') :
    PageStep record (pagesOf info dptbl) t' := by
  obtain ⟨free, pages⟩ := ready.pages
  have unfound : findDp (some (pagesOf info dptbl)) record.targetAttribute record.targetVcn = none := by
    cases dptbl with
    | some t => exact missed
    | none =>
      rw [findDp_eq_none pages.inv]
      intro dp allocated
      exact absurd allocated (pagesOf_none_unallocated ready dp)
  obtain ⟨t₂, dp, added, stored⟩ : ∃ t₂ dp,
      addDp info dptbl record.targetAttribute record.targetVcn record.lsn = some (t₂, dp) ∧
        t' = t₂.withBuf (storeLcns record dp (dpLcnsFollow t₂.buf dp) record.lcnsToFollow t₂.buf) := by
    simp only [logDirtyPage, missed] at logged
    split at logged
    · cases logged
    next t₂ dp added => exact ⟨t₂, dp, added, (Option.some.inj logged).symm⟩
  obtain ⟨t₁, returned, filled⟩ := addDp_some ready added
  have attrSmall : record.targetAttribute < 65536 := lfGet16_lt record.data nrTargetAttribute
  obtain ⟨free₁, pages₁, adds⟩ := addPage_spec pages returned info.clusterSize record.targetVcn
    attrSmall lsnSmall
  rw [← filled] at pages₁ adds
  rw [stored]
  exact adds.step pages isOp inRange unfound pages₁
    (pages₁.store adds.allocated (adds.covers pages inRange))

theorem PagesReady.none_step (ready : PagesReady info none) (notOp : record.isPageOp = false) :
    PageStep record (pagesOf info none) (pagesOf info none) := by
  obtain ⟨free, pages⟩ := ready.pages
  have replaces : ReplacesLcns (pagesOf info none) (pagesOf info none) (fun dp j lcn =>
      replacedLcn record (hits (pagesOf info none) record dp) (dpVcn (pagesOf info none).buf dp) j lcn) :=
    { fills := FillsEntries.refl _ _
      lcns := fun dp allocated => absurd allocated (pagesOf_none_unallocated ready dp) }
  refine pages.step replaces ?_ (fun _ _ _ => rfl)
  simp [notOp]

theorem replacedLcn_delete (delete : record.isDelete = true) (hit : Bool) (vcn j lcn : Nat) :
    replacedLcn record hit vcn j lcn = deletedLcns record lcn := by
  have notOp : record.isPageOp = false := by
    simp only [LfsRecord.isDelete, Bool.and_eq_true, decide_eq_true_eq] at delete
    rw [LfsRecord.isPageOp, delete.2, delete.1]
    decide
  rw [replacedLcn, notOp, delete]
  simp

theorem replacedLcn_hotFix (fix : record.isHotFix = true) (hit : Bool) (vcn j lcn : Nat) :
    replacedLcn record hit vcn j lcn = if hit then fixedLcn record vcn j lcn else lcn := by
  obtain ⟨client, op⟩ : record.isClient = true ∧ record.redoOp = lopHotFix := by
    simpa [LfsRecord.isHotFix] using fix
  have notOp : record.isPageOp = false := by
    rw [LfsRecord.isPageOp, op, client]
    decide
  have notDelete : record.isDelete = false := by
    rw [LfsRecord.isDelete, op, client]
    decide
  rw [replacedLcn, notOp, notDelete, fix]
  simp

/-- The step of a record on a table that is ready. -/
theorem pageEffect_step {dptbl dptbl' : Option Table} (ready : PagesReady info dptbl)
    (inRange : record.isPageOp = true → record.TargetInRange) (lsnSmall : record.lsn < 256 ^ 8)
    (effect : pageEffect info record dptbl = some dptbl') :
    PagesReady info dptbl' ∧ PageStep record (pagesOf info dptbl) (pagesOf info dptbl') := by
  rw [pageEffect] at effect
  split at effect
  next isOp =>
    cases logged : logDirtyPage info dptbl record with
    | none => simp [logged] at effect
    | some t' =>
      obtain rfl : some t' = dptbl' := by simpa [logged] using effect
      have step : PageStep record (pagesOf info dptbl) t' := by
        cases found : findDp dptbl record.targetAttribute record.targetVcn with
        | none => exact logDirtyPage_missed ready isOp (inRange isOp) lsnSmall found logged
        | some dp =>
          cases dptbl with
          | none => cases found
          | some t =>
            obtain ⟨free, pages⟩ := ready
            exact logDirtyPage_found pages isOp found logged
      exact ⟨step.pages, step⟩
  next notOp =>
    have otherOp : record.isPageOp = false := Bool.eq_false_iff.mpr notOp
    cases dptbl with
    | none =>
      obtain rfl : none = dptbl' := by
        split at effect
        · exact Option.some.inj effect
        · split at effect
          · exact Option.some.inj effect
          · exact Option.some.inj effect
      exact ⟨ready, ready.none_step otherOp⟩
    | some t =>
      obtain ⟨free, pages⟩ := ready
      have unserved : record.isPageOp = true → ∃ dp, Allocated t dp ∧
          dpCovers t.buf record.targetAttribute record.targetVcn dp = true := by simp [otherOp]
      split at effect
      next delete =>
        cases effect
        have step : PageStep record t (deleteDirtyClusters record t) :=
          pages.step (deleteDirtyClusters_spec pages record) unserved
            (fun _ _ _ => (replacedLcn_delete delete _ _ _ _).symm)
        exact ⟨step.pages, step⟩
      next notDelete =>
        split at effect
        next fix =>
          cases effect
          have step : PageStep record t (hotFix record t) := by
            refine pages.step (hotFix_spec pages record) unserved ?_
            intro dp j lcn
            rw [replacedLcn_hotFix fix, hits]
            simp
          exact ⟨step.pages, step⟩
        next notFix =>
          cases effect
          have step : PageStep record t t := by
            refine pages.step (ReplacesLcns.refl t) unserved ?_
            intro dp j lcn
            rw [replacedLcn, if_neg notOp, if_neg notDelete, if_neg notFix]
          exact ⟨step.pages, step⟩

end Record

end Ttntfs.Logfile
