import Ttntfs.Logfile.CheckpointPages

/-!
# The dirty page filter

`redo_pass` skips a record unless `find_dp` finds a page for it that is dirty since the
lsn of the record or before. Analysis sees to it that a page is found; the lsn since
which it is dirty is that of a record read before, or the one of the checkpoint.

Pages that analysis adds are cut off at multiples of their size, while a page of the
checkpoint may start anywhere, so that pages may overlap. `find_dp` returns the first of
several in the order of their slots. A page that is added for a later record can take a
slot before the one that served a record; such a record is `Shadowed`.
-/

namespace Ttntfs.Logfile

open Library.ByteMemory Library.LinkedOffsets

/-- The dirty page filter of `redo_pass`: the page for which a client record is
redone. -/
def redoDp (dptbl : Option Table) (record : LfsRecord) : Option Nat :=
  if record.lcnsToFollow = 0 then none
  else
    match dptbl, findDp dptbl record.targetAttribute record.targetVcn with
    | some t, some dp => if record.lsn < dpOldest t.buf dp then none else some dp
    | _, _ => none

/-- The lsn since which the page at `dp` of a table is dirty. -/
def pageOldest (dptbl : Option Table) (dp : Nat) : Nat :=
  match dptbl with
  | none => 0
  | some t => dpOldest t.buf dp

/-- No page of the table covers the target of an MFT or attribute operation. -/
def NeedsPage (t : Table) (record : LfsRecord) : Prop :=
  record.isPageOp = true ∧ findDp (some t) record.targetAttribute record.targetVcn = none

/-- The first cluster of the page that analysis adds for a record. -/
def newStart (t : Table) (record : LfsRecord) : Nat := pageStart (pageRoom t) record.targetVcn

/-! ## Runs -/

/-- The steps of the records of a log on the dirty pages. -/
def PageRun : List LfsRecord → Table → Table → Prop
  | [], t, t' => t' = t
  | record :: records, t, t' => ∃ next, PageStep record t next ∧ PageRun records next t'

theorem pageRun_append {first second : List LfsRecord} {t t' : Table} :
    PageRun (first ++ second) t t' ↔ ∃ next, PageRun first t next ∧ PageRun second next t' := by
  induction first generalizing t with
  | nil => simp [PageRun]
  | cons record first ih =>
    simp only [List.cons_append, PageRun, ih]
    constructor
    · rintro ⟨one, step, next, run, rest⟩
      exact ⟨next, ⟨one, step, run⟩, rest⟩
    · rintro ⟨next, ⟨one, step, run⟩, rest⟩
      exact ⟨one, step, next, run, rest⟩

/-- The records of a log are within the bounds of their fields. -/
def RecordsInRange (records : List LfsRecord) : Prop :=
  ∀ record ∈ records, record.lsn < 256 ^ 8 ∧ (record.isPageOp = true → record.TargetInRange)

/-- Analysis is a run on the dirty pages. -/
theorem analyseRecords_run {info : LogInfo} {records : List LfsRecord} {tables tables' : LogTables}
    (ready : PagesReady info tables.dptbl) (inRange : RecordsInRange records)
    (analysed : analyseRecords info records tables = .ok tables') :
    PagesReady info tables'.dptbl ∧
      PageRun records (pagesOf info tables.dptbl) (pagesOf info tables'.dptbl) := by
  induction records generalizing tables with
  | nil =>
    rw [← Except.ok.inj analysed]
    exact ⟨ready, rfl⟩
  | cons record records ih =>
    rw [analyseRecords] at analysed
    split at analysed
    · cases analysed
    next next analysedRecord =>
      obtain ⟨lsnSmall, target⟩ := inRange record List.mem_cons_self
      obtain ⟨ready', step⟩ :=
        pageEffect_step ready target lsnSmall (analyseRecord_pages analysedRecord)
      obtain ⟨ready'', run⟩ := ih ready'
        (fun later member => inRange later (List.mem_cons_of_mem _ member)) analysed
      exact ⟨ready'', _, step, run⟩

/-! ## The pages after a run -/

/-- The pages after a part of a log: those there were before, and one for each range
that a record needed. -/
structure PagesSince (t₀ : Table) (seen : List LfsRecord) (t : Table) : Prop where
  pages : ∃ free, DirtyPages t free
  size : t.esize = t₀.esize
  kept : ∀ dp, Allocated t₀ dp → Allocated t dp ∧
    ∀ i, dp ≤ i → i < dp + dp1Size → t.buf i = t₀.buf i
  added : ∀ dp, Allocated t dp → ¬ Allocated t₀ dp → ∃ record ∈ seen, NeedsPage t₀ record ∧
    dpAttr t.buf dp = record.targetAttribute ∧ dpVcn t.buf dp = newStart t₀ record ∧
    dpLcnsFollow t.buf dp = pageRoom t₀ ∧ dpOldest t.buf dp = record.lsn
  distinct : ∀ dp other, Allocated t dp → Allocated t other → ¬ Allocated t₀ dp →
    ¬ Allocated t₀ other → dpAttr t.buf dp = dpAttr t.buf other →
    dpVcn t.buf dp = dpVcn t.buf other → dp = other

section Since

variable {t₀ t t' : Table} {seen : List LfsRecord} {record : LfsRecord}

theorem header_kept {dp width field : Nat}
    (same : ∀ i, dp ≤ i → i < dp + dp1Size → t'.buf i = t.buf i) (inside : field + width ≤ dp1Size) :
    getLE t'.buf width (dp + field) = getLE t.buf width (dp + field) :=
  getLE_congr (fun i _ _ => same i (by omega) (by omega))

theorem PagesSince.start {free : List Nat} (pages : DirtyPages t free) : PagesSince t [] t :=
  { pages := ⟨free, pages⟩
    size := rfl
    kept := fun _ allocated => ⟨allocated, fun _ _ _ => rfl⟩
    added := fun _ allocated new => absurd allocated new
    distinct := fun _ _ allocated _ new => absurd allocated new }

theorem PagesSince.needs (since : PagesSince t₀ seen t) {free₀ : List Nat} (pages₀ : DirtyPages t₀ free₀)
    (isOp : record.isPageOp = true)
    (missed : findDp (some t) record.targetAttribute record.targetVcn = none) : NeedsPage t₀ record := by
  obtain ⟨free, pages⟩ := since.pages
  refine ⟨isOp, (findDp_eq_none pages₀.inv).mpr ?_⟩
  intro dp allocated
  obtain ⟨still, same⟩ := since.kept dp allocated
  rw [← dpCovers_kept same]
  exact (findDp_eq_none pages.inv).mp missed dp still

theorem covers_of_start {m : Mem} {dp room : Nat} (some_page : 0 < room) (few : room < 8192)
    (inRange : record.TargetInRange) (attr : dpAttr m dp = record.targetAttribute)
    (start : dpVcn m dp = pageStart room record.targetVcn) (clusters : dpLcnsFollow m dp = room) :
    dpCovers m record.targetAttribute record.targetVcn dp = true := by
  unfold LfsRecord.TargetInRange at inRange
  obtain ⟨lower, upper⟩ : pageStart room record.targetVcn ≤ record.targetVcn ∧
      record.targetVcn < pageStart room record.targetVcn + room :=
    pageStart_covers some_page (by omega) (by omega)
  simp only [dpCovers, Bool.and_eq_true, decide_eq_true_eq]
  rw [attr, start, clusters]
  exact ⟨⟨rfl, lower⟩, by omega⟩

/-- What a record does to the pages since the start. -/
theorem PagesSince.step (since : PagesSince t₀ seen t) {free₀ : List Nat} (pages₀ : DirtyPages t₀ free₀)
    (inRange : record.isPageOp = true → record.TargetInRange) (step : PageStep record t t') :
    PagesSince t₀ (seen ++ [record]) t' := by
  have room : pageRoom t = pageRoom t₀ := by rw [pageRoom, pageRoom, since.size]
  obtain ⟨some_page, few⟩ := pages₀.room
  obtain ⟨free, pages⟩ := since.pages
  -- A new page of the step has another start than every page before it.
  have fresh : ∀ dp other, Allocated t' dp → ¬ Allocated t dp → Allocated t other →
      ¬ Allocated t₀ other → dpAttr t'.buf dp = dpAttr t'.buf other →
      dpVcn t'.buf dp = dpVcn t'.buf other → False := by
    intro dp other allocated new otherAllocated otherNew sameAttr sameStart
    have page := step.added dp allocated new
    obtain ⟨_, same⟩ := step.kept other otherAllocated
    obtain ⟨_, _, _, _, _, clusters, _⟩ := since.added other otherAllocated otherNew
    have attr : dpAttr t'.buf other = dpAttr t.buf other := header_kept same (by decide)
    have start : dpVcn t'.buf other = dpVcn t.buf other := header_kept same (by decide)
    rw [page.target, attr] at sameAttr
    rw [page.start, start, room] at sameStart
    have covers : dpCovers t.buf record.targetAttribute record.targetVcn other = true :=
      covers_of_start some_page few (inRange page.isOp) sameAttr.symm sameStart.symm clusters
    have missed := (findDp_eq_none pages.inv).mp page.missed other otherAllocated
    rw [covers] at missed
    cases missed
  constructor
  · exact step.pages
  · exact step.size.trans since.size
  · intro dp allocated
    obtain ⟨here, same⟩ := since.kept dp allocated
    obtain ⟨still, same'⟩ := step.kept dp here
    exact ⟨still, fun i lower upper => (same' i lower upper).trans (same i lower upper)⟩
  · intro dp allocated new
    by_cases old : Allocated t dp
    · obtain ⟨earlier, member, needs, attr, start, clusters, oldest⟩ := since.added dp old new
      obtain ⟨_, same⟩ := step.kept dp old
      refine ⟨earlier, List.mem_append_left _ member, needs, ?_, ?_, ?_, ?_⟩
      · exact (header_kept same (by decide)).trans attr
      · exact (header_kept same (by decide)).trans start
      · exact (header_kept same (by decide)).trans clusters
      · exact (header_kept same (by decide)).trans oldest
    · have page := step.added dp allocated old
      refine ⟨record, List.mem_append_right _ List.mem_cons_self,
        since.needs pages₀ page.isOp page.missed, page.target, ?_, ?_, page.oldest⟩
      · rw [page.start, room, newStart]
      · rw [page.clusters, room]
  · intro dp other allocated otherAllocated new otherNew sameAttr sameStart
    by_cases old : Allocated t dp
    · by_cases otherOld : Allocated t other
      · obtain ⟨_, same⟩ := step.kept dp old
        obtain ⟨_, same'⟩ := step.kept other otherOld
        have attr : dpAttr t'.buf dp = dpAttr t.buf dp := header_kept same (by decide)
        have attr' : dpAttr t'.buf other = dpAttr t.buf other := header_kept same' (by decide)
        have start : dpVcn t'.buf dp = dpVcn t.buf dp := header_kept same (by decide)
        have start' : dpVcn t'.buf other = dpVcn t.buf other := header_kept same' (by decide)
        rw [attr, attr'] at sameAttr
        rw [start, start'] at sameStart
        exact since.distinct dp other old otherOld new otherNew sameAttr sameStart
      · exact (fresh other dp otherAllocated otherOld old new sameAttr.symm sameStart.symm).elim
    · by_cases otherOld : Allocated t other
      · exact (fresh dp other allocated old otherOld otherNew sameAttr sameStart).elim
      · have found := (step.added dp allocated old).found
        rw [(step.added other otherAllocated otherOld).found] at found
        exact (Option.some.inj found).symm

theorem PagesSince.run {free₀ : List Nat} (pages₀ : DirtyPages t₀ free₀) {records : List LfsRecord}
    (inRange : RecordsInRange records) (since : PagesSince t₀ seen t) (run : PageRun records t t') :
    PagesSince t₀ (seen ++ records) t' := by
  induction records generalizing seen t with
  | nil =>
    rw [run, List.append_nil]
    exact since
  | cons record records ih =>
    obtain ⟨next, step, rest⟩ := run
    have target := (inRange record List.mem_cons_self).2
    rw [List.append_cons]
    exact ih (fun later member => inRange later (List.mem_cons_of_mem _ member))
      (since.step pages₀ target step) rest

/-- The page that is found for a record at the end of a run is one that a later record added in
an earlier slot, or it is dirty since the record or before, or it is the one found at the start. -/
theorem PageRun.found {free₀ : List Nat} {before after : List LfsRecord}
    (pages₀ : DirtyPages t₀ free₀) (inRange : RecordsInRange (before ++ record :: after))
    (ordered : ∀ earlier ∈ before, earlier.lsn ≤ record.lsn) (isOp : record.isPageOp = true)
    (first : PageRun (before ++ [record]) t₀ t) (rest : PageRun after t t') :
    ∃ served dp, findDp (some t) record.targetAttribute record.targetVcn = some served ∧
      findDp (some t') record.targetAttribute record.targetVcn = some dp ∧
      (dp < served ∧ (∃ later ∈ after, dpOldest t'.buf dp = later.lsn) ∨
        dpOldest t'.buf dp ≤ record.lsn ∨
        findDp (some t₀) record.targetAttribute record.targetVcn = some dp ∧
          dpOldest t'.buf dp = dpOldest t₀.buf dp) := by
  have sinceRecord : PagesSince t₀ (before ++ [record]) t := by
    have seen := PagesSince.run pages₀ (fun r member => inRange r (by
      rcases List.mem_append.mp member with early | this
      · exact List.mem_append_left _ early
      · rw [List.mem_singleton.mp this]
        simp)) (PagesSince.start pages₀) first
    rwa [List.nil_append] at seen
  obtain ⟨free, pages⟩ := sinceRecord.pages
  -- What the rest of the log keeps of the pages there are after the record.
  have later : PagesSince t after t' := by
    have all := PagesSince.run pages (fun r member => inRange r (by simp [member]))
      (PagesSince.start pages) rest
    rwa [List.nil_append] at all
  obtain ⟨free', pages'⟩ := later.pages
  obtain ⟨_, _, _, step, rfl⟩ := pageRun_append.mp first
  obtain ⟨_, covering, covered⟩ := step.served isOp
  obtain ⟨served, servedThen⟩ := findDp_of_covers pages.inv covering covered
  obtain ⟨servedHere, coversThen, leastThen⟩ := (findDp_eq_some pages.inv).mp servedThen
  obtain ⟨servedNow, servedSame⟩ := later.kept served servedHere
  have covers : dpCovers t'.buf record.targetAttribute record.targetVcn served = true := by
    rw [dpCovers_kept servedSame]
    exact coversThen
  obtain ⟨dp, found⟩ := findDp_of_covers pages'.inv servedNow covers
  obtain ⟨allocated, dpCovered, least⟩ := (findDp_eq_some pages'.inv).mp found
  refine ⟨served, dp, servedThen, found, ?_⟩
  have notBehind : dp ≤ served := by
    by_contra behind
    have missed := least served servedNow (by omega)
    rw [covers] at missed
    cases missed
  rcases Nat.lt_or_eq_of_le notBehind with before_served | rfl
  · -- a page before that of the record was not there yet
    left
    have new : ¬ Allocated t dp := by
      intro here
      have missed := leastThen dp here before_served
      rw [← dpCovers_kept (later.kept dp here).2, dpCovered] at missed
      cases missed
    obtain ⟨adder, member, _, _, _, _, dirtySince⟩ := later.added dp allocated new
    exact ⟨before_served, adder, member, dirtySince⟩
  · right
    have oldest : dpOldest t'.buf dp = dpOldest t.buf dp := header_kept servedSame (by decide)
    by_cases old : Allocated t₀ dp
    · obtain ⟨_, same⟩ := sinceRecord.kept dp old
      refine .inr ⟨(findDp_eq_some pages₀.inv).mpr ⟨old, ?_, ?_⟩, oldest.trans (header_kept same (by decide))⟩
      · rw [← dpCovers_kept same]
        exact coversThen
      · intro other otherOld less
        obtain ⟨still, same'⟩ := sinceRecord.kept other otherOld
        rw [← dpCovers_kept same']
        exact leastThen other still less
    · obtain ⟨adder, member, _, _, _, _, dirtySince⟩ := sinceRecord.added dp servedHere old
      rw [oldest, dirtySince]
      left
      rcases List.mem_append.mp member with earlier | this
      · exact ordered adder earlier
      · rw [List.mem_singleton.mp this]

end Since

/-! ## After analysis -/

/-- The dirty page table of a checkpoint, where it has one: `dump` is the table in its
record and the number of bytes there. -/
def loadCheckpointPages (crstMajor : Nat) : Option (Mem × Nat) → Except CheckpointError (Option Table)
  | none => .ok none
  | some (rt, bytes) =>
    match loadDirtyPages crstMajor rt bytes with
    | .error e => .error e
    | .ok t => .ok (some t)

theorem loadCheckpointPages_ok {crstMajor bytes : Nat} {rt : Mem} (version : crstMajor ≠ 0)
    (checked : lfsTableCheck rt bytes = true) (size : ¬ (loadedTable rt).esize < dp1Size + 8)
    (fits : (tableEntries (some (loadedTable rt))).find? (lcnsOverflow (loadedTable rt)) = none) :
    loadCheckpointPages crstMajor (some (rt, bytes)) = .ok (some (dedupeDptbl (loadedTable rt))) := by
  simp only [loadCheckpointPages, loadDirtyPages, checked, if_neg version, if_neg size, fits,
    Bool.not_true, Bool.false_eq_true, if_false]

theorem loadCheckpointPages_ready {info : LogInfo} {crstMajor : Nat} {dump : Option (Mem × Nat)}
    {dptbl : Option Table} (some_page : 0 < info.clstPerPage)
    (few : dp1Size + 8 * info.clstPerPage < 65536)
    (complete : ∀ rt bytes, dump = some (rt, bytes) → CompleteDump rt)
    (loaded : loadCheckpointPages crstMajor dump = .ok dptbl) : PagesReady info dptbl := by
  cases dump with
  | none =>
    rw [← Except.ok.inj loaded]
    exact ⟨some_page, few⟩
  | some pair =>
    obtain ⟨rt, bytes⟩ := pair
    rw [loadCheckpointPages] at loaded
    split at loaded
    · cases loaded
    next t loadedPages =>
      rw [← Except.ok.inj loaded]
      exact loadDirtyPages_pages (complete rt bytes rfl) loadedPages

theorem analysisPass_ok {info : LogInfo} {tables tables' : LogTables} {records : List LfsRecord}
    {rlsn : Nat} (analysed : analysisPass info tables records = .ok (tables', rlsn)) :
    analyseRecords info records (startTables info tables) = .ok tables' ∧
      rlsn = redoLsn tables' records := by
  rw [analysisPass] at analysed
  split at analysed
  · cases analysed
  next tables'' analysedRecords =>
    obtain ⟨rfl, rfl⟩ := Prod.mk.inj (Except.ok.inj analysed)
    exact ⟨analysedRecords, rfl⟩

theorem analyseRecords_append {info : LogInfo} {first second : List LfsRecord} {tables tables' : LogTables}
    (analysed : analyseRecords info (first ++ second) tables = .ok tables') :
    ∃ mid, analyseRecords info first tables = .ok mid ∧ analyseRecords info second mid = .ok tables' := by
  induction first generalizing tables with
  | nil => exact ⟨tables, rfl, analysed⟩
  | cons record first ih =>
    rw [List.cons_append, analyseRecords] at analysed
    rw [analyseRecords]
    split at analysed
    · cases analysed
    · exact ih analysed

theorem findDp_pagesOf {info : LogInfo} {dptbl : Option Table} (ready : PagesReady info dptbl) (ta vcn : Nat) :
    findDp dptbl ta vcn = findDp (some (pagesOf info dptbl)) ta vcn := by
  cases dptbl with
  | some t => rfl
  | none =>
    obtain ⟨free, pages⟩ := ready.pages
    exact ((findDp_eq_none pages.inv).mpr fun dp allocated =>
      absurd allocated (pagesOf_none_unallocated ready dp)).symm

theorem pageOldest_pagesOf {info : LogInfo} {dptbl : Option Table} {ta vcn dp : Nat}
    (found : findDp dptbl ta vcn = some dp) : pageOldest dptbl dp = dpOldest (pagesOf info dptbl).buf dp := by
  cases dptbl with
  | some t => rfl
  | none => cases found

theorem redoDp_of_found {dptbl : Option Table} {record : LfsRecord} {dp : Nat} (lcns : 0 < record.lcnsToFollow)
    (found : findDp dptbl record.targetAttribute record.targetVcn = some dp)
    (older : pageOldest dptbl dp ≤ record.lsn) : redoDp dptbl record = some dp := by
  cases dptbl with
  | none => cases found
  | some t =>
    have kept : ¬ record.lsn < dpOldest t.buf dp := Nat.not_lt.mpr older
    simp only [redoDp, if_neg (Nat.pos_iff_ne_zero.mp lcns), found, if_neg kept]

/-- The page that was found for a record when it was analysed is not found any more: analysis has
added a page for a later record, with the lsn of that, in a slot before it. -/
def Shadowed (info : LogInfo) (tables tables' : LogTables) (before : List LfsRecord) (record : LfsRecord)
    (after : List LfsRecord) : Prop :=
  ∃ mid served dp, analyseRecords info (before ++ [record]) (startTables info tables) = .ok mid ∧
    findDp mid.dptbl record.targetAttribute record.targetVcn = some served ∧
    findDp tables'.dptbl record.targetAttribute record.targetVcn = some dp ∧
    dp < served ∧ ∃ later ∈ after, pageOldest tables'.dptbl dp = later.lsn

/-- No logged update is lost by the dirty page filter: after analysis a page is found for every
record that has lcns. Unless a page for a later record shadows that of the record, the record is
redone or the page is one of the checkpoint, with the lsn it had there. -/
theorem dirty_page_filter_loses_none {info : LogInfo} {crstMajor : Nat} {dump : Option (Mem × Nat)}
    {tables tables' : LogTables} {records : List LfsRecord} {rlsn : Nat}
    (some_page : 0 < info.clstPerPage) (few : dp1Size + 8 * info.clstPerPage < 65536)
    (complete : ∀ rt bytes, dump = some (rt, bytes) → CompleteDump rt)
    (loaded : loadCheckpointPages crstMajor dump = .ok tables.dptbl)
    (ordered : records.Pairwise fun first second => first.lsn ≤ second.lsn)
    (inRange : RecordsInRange records)
    (analysed : analysisPass info tables records = .ok (tables', rlsn)) :
    ∀ before record after, records = before ++ record :: after → record.isPageOp = true →
      0 < record.lcnsToFollow →
      ∃ dp, findDp tables'.dptbl record.targetAttribute record.targetVcn = some dp ∧
        (¬ Shadowed info tables tables' before record after →
          (pageOldest tables'.dptbl dp ≤ record.lsn ∧ redoDp tables'.dptbl record = some dp) ∨
          (findDp tables.dptbl record.targetAttribute record.targetVcn = some dp ∧
            pageOldest tables'.dptbl dp = pageOldest tables.dptbl dp)) := by
  rintro before record after rfl isOp lcns
  have ready := loadCheckpointPages_ready some_page few complete loaded
  have starts : PagesReady info (startTables info tables).dptbl := ready
  obtain ⟨free₀, pages₀⟩ := ready.pages
  have whole := (analysisPass_ok analysed).1
  rw [List.append_cons] at whole
  obtain ⟨mid, first, rest⟩ := analyseRecords_append whole
  obtain ⟨readyMid, firstRun⟩ := analyseRecords_run starts
    (fun r member => inRange r (by rw [List.append_cons]; exact List.mem_append_left _ member)) first
  obtain ⟨ready', restRun⟩ := analyseRecords_run readyMid (fun r member => inRange r (by simp [member])) rest
  have earlier : ∀ r ∈ before, r.lsn ≤ record.lsn := fun r early =>
    (List.pairwise_append.mp ordered).2.2 r early record List.mem_cons_self
  obtain ⟨served, dp, servedThen, found, cases⟩ := firstRun.found pages₀ inRange earlier isOp restRun
  rw [← findDp_pagesOf readyMid] at servedThen
  rw [← findDp_pagesOf ready'] at found
  have oldest := @pageOldest_pagesOf info _ _ _ _ found
  rw [← oldest] at cases
  refine ⟨dp, found, fun clear => ?_⟩
  rcases cases with ⟨less, later⟩ | older | ⟨foundThen, same⟩
  · exact absurd ⟨mid, served, dp, first, servedThen, found, less, later⟩ clear
  · exact .inl ⟨older, redoDp_of_found lcns found older⟩
  · rw [← findDp_pagesOf ready] at foundThen
    exact .inr ⟨foundThen, same.trans (pageOldest_pagesOf foundThen).symm⟩

/-- Analysis keeps the pages of a checkpoint, and of the ranges that records need besides it adds
each once, with the lsn of one of these records. -/
theorem analysis_pages_since {info : LogInfo} {crstMajor : Nat} {dump : Option (Mem × Nat)}
    {tables tables' : LogTables} {records : List LfsRecord} {rlsn : Nat}
    (some_page : 0 < info.clstPerPage) (few : dp1Size + 8 * info.clstPerPage < 65536)
    (complete : ∀ rt bytes, dump = some (rt, bytes) → CompleteDump rt)
    (loaded : loadCheckpointPages crstMajor dump = .ok tables.dptbl) (inRange : RecordsInRange records)
    (analysed : analysisPass info tables records = .ok (tables', rlsn)) :
    PagesSince (pagesOf info tables.dptbl) records (pagesOf info tables'.dptbl) := by
  have ready : PagesReady info (startTables info tables).dptbl := loadCheckpointPages_ready some_page few complete loaded
  obtain ⟨-, run⟩ := analyseRecords_run ready inRange (analysisPass_ok analysed).1
  obtain ⟨free, pages⟩ := ready.pages
  exact PagesSince.run pages inRange (PagesSince.start pages) run

/-! ## Examples -/

/-- A dump with one page of one cluster, dirty since a given lsn. -/
def onePageDump (oldest : Nat) : Mem :=
  let m := lfPut16 zeros rtEntrySize 0x28
  let m := lfPut16 m rtNumberEntries 1
  let m := lfPut16 m rtNumberAllocated 1
  let m := lfPut32 m 0x18 rtEntryAllocated
  let m := lfPut32 m (0x18 + dp1TargetAttr) 0x18
  let m := lfPut32 m (0x18 + dp1LcnsFollow) 1
  let m := lfPut64 m (0x18 + dp1OldestLsn) oldest
  putDpLcn m 0x18 0 5

/-- The table that is loaded from such a dump. -/
def onePageTable (oldest : Nat) : Table := dedupeDptbl (loadedTable (onePageDump oldest))

/-- The tables of a checkpoint with this page. -/
def onePageTables (oldest : Nat) : LogTables :=
  { trtbl := none, dptbl := some (onePageTable oldest), oatbl := none, attrNames := zeros
    attrNamesLen := 0 }

/-- A log handle with clusters as large as log pages. -/
def smallInfo : LogInfo := { bytesPerAttrEntry := 0x2c, clstPerPage := 1, clusterSize := 4096 }

/-- A record of one update of a cluster. -/
def updateRecord (lsn vcn lcn : Nat) : LfsRecord :=
  { lsn := lsn
    hdr := lfPut32 (lfPut32 zeros lrRecordType lfsRecordTypeClient) lrTransactionId 0x18
    data :=
      let m := lfPut16 zeros nrRedoOp lopUpdateNonresidentValue
      let m := lfPut16 m nrTargetAttribute 0x18
      let m := lfPut16 m nrLcnsToFollow 1
      let m := lfPut64 m nrTargetVcn vcn
      lfPut64 m nrPageLcns lcn
    dataLen := 0x28
    dataAvail := 0x28 }

/-- A log with an update of the page of the checkpoint and one of another page. -/
def twoUpdates : List LfsRecord := [updateRecord 0x3000 0 5, updateRecord 0x3010 1 6]

theorem onePage_loaded : ∀ oldest ∈ [0x1000, 0x5000],
    loadCheckpointPages 1 (some (onePageDump oldest, 0x40)) = .ok (onePageTables oldest).dptbl := by
  intro oldest member
  have accepted : ∀ oldest ∈ [0x1000, 0x5000], lfsTableCheck (onePageDump oldest) 0x40 = true ∧
      ¬ (loadedTable (onePageDump oldest)).esize < dp1Size + 8 ∧
      (tableEntries (some (loadedTable (onePageDump oldest)))).find?
        (lcnsOverflow (loadedTable (onePageDump oldest))) = none := by decide +kernel
  obtain ⟨checked, size, fits⟩ := accepted oldest member
  exact loadCheckpointPages_ok (by decide) checked size fits

/-- The page that is found for the first update when a part of the log is analysed. -/
def pageAfter (records : List LfsRecord) : Option Nat :=
  (analyseRecords smallInfo records (startTables smallInfo (onePageTables 0x1000))).toOption.bind fun tables =>
    findDp tables.dptbl 0x18 0

theorem twoUpdates_fields : pageAfter [updateRecord 0x3000 0 5] = some 0x18 ∧ pageAfter twoUpdates = some 0x18 ∧
    (analysisPass smallInfo (onePageTables 0x1000) twoUpdates).toBool = true := by
  decide +kernel

theorem twoUpdates_unshadowed {tables' : LogTables} {before after : List LfsRecord} {record : LfsRecord}
    (split : twoUpdates = before ++ record :: after)
    (analysed : analyseRecords smallInfo twoUpdates (startTables smallInfo (onePageTables 0x1000)) = .ok tables') :
    ¬ Shadowed smallInfo (onePageTables 0x1000) tables' before record after := by
  rintro ⟨mid, served, dp, first, servedThen, found, less, later, member, -⟩
  obtain ⟨early, late, -⟩ := twoUpdates_fields
  rw [pageAfter, analysed] at late
  cases before with
  | nil =>
    obtain ⟨rfl, -⟩ := List.cons.inj split
    rw [List.nil_append] at first
    rw [pageAfter, first] at early
    cases servedThen.symm.trans early
    cases found.symm.trans late
    exact absurd less (lt_irrefl _)
  | cons one before =>
    have short := congrArg List.length split
    simp only [twoUpdates, List.length_append, List.length_cons, List.length_nil] at short
    have := List.length_pos_of_mem member
    omega

theorem twoUpdates_analysed : ∃ tables' rlsn,
    analysisPass smallInfo (onePageTables 0x1000) twoUpdates = .ok (tables', rlsn) := by
  have succeeds := twoUpdates_fields.2.2
  cases result : analysisPass smallInfo (onePageTables 0x1000) twoUpdates with
  | error e =>
    rw [result] at succeeds
    cases succeeds
  | ok pair => exact ⟨pair.1, pair.2, rfl⟩

theorem onePageDump_complete (rt : Mem) (bytes : Nat) (dump : some (onePageDump 0x1000, 0x40) = some (rt, bytes)) :
    CompleteDump rt := by
  cases dump
  exact { first := by decide +kernel, last := by decide +kernel, count := by decide +kernel }

theorem twoUpdates_inRange : RecordsInRange twoUpdates := by
  intro record member
  rcases List.mem_cons.mp member with rfl | later
  · exact ⟨by decide, fun _ => by unfold LfsRecord.TargetInRange; decide +kernel⟩
  · rw [List.mem_singleton.mp later]
    exact ⟨by decide, fun _ => by unfold LfsRecord.TargetInRange; decide +kernel⟩

/-- For both updates a page is found after analysis, and neither page is shadowed. -/
theorem dirty_page_filter_loses_none_two_updates :
    ∃ tables' rlsn, analysisPass smallInfo (onePageTables 0x1000) twoUpdates = .ok (tables', rlsn) ∧
      ∀ record ∈ twoUpdates, record.isPageOp = true → 0 < record.lcnsToFollow →
        ∃ dp, findDp tables'.dptbl record.targetAttribute record.targetVcn = some dp ∧
          ((pageOldest tables'.dptbl dp ≤ record.lsn ∧ redoDp tables'.dptbl record = some dp) ∨
            (findDp (onePageTables 0x1000).dptbl record.targetAttribute record.targetVcn = some dp ∧
              pageOldest tables'.dptbl dp = pageOldest (onePageTables 0x1000).dptbl dp)) := by
  obtain ⟨tables', rlsn, analysed⟩ := twoUpdates_analysed
  refine ⟨tables', rlsn, analysed, fun record member isOp lcns => ?_⟩
  obtain ⟨before, after, split⟩ := List.append_of_mem member
  obtain ⟨dp, found, dirty⟩ := dirty_page_filter_loses_none (by decide) (by decide) onePageDump_complete
    (onePage_loaded 0x1000 (by decide)) (List.pairwise_pair.mpr (by decide)) twoUpdates_inRange analysed
    before record after split isOp lcns
  exact ⟨dp, found, dirty (twoUpdates_unshadowed split (analysisPass_ok analysed).1)⟩

/-- Two updates of which the second needs a page besides that of the checkpoint. -/
theorem analysis_pages_since_two_updates :
    ∃ tables' rlsn, analysisPass smallInfo (onePageTables 0x1000) twoUpdates = .ok (tables', rlsn) ∧
      PagesSince (pagesOf smallInfo (onePageTables 0x1000).dptbl) twoUpdates (pagesOf smallInfo tables'.dptbl) := by
  obtain ⟨tables', rlsn, analysed⟩ := twoUpdates_analysed
  exact ⟨tables', rlsn, analysed, analysis_pages_since (by decide) (by decide) onePageDump_complete
    (onePage_loaded 0x1000 (by decide)) twoUpdates_inRange analysed⟩

/-- A page of the checkpoint that is dirty since a later lsn is found for a record
before it. -/
theorem later_checkpoint_page_skips :
    ¬ ∀ (info : LogInfo) (crstMajor : Nat) (dump : Option (Mem × Nat)) (tables tables' : LogTables)
      (records : List LfsRecord) (rlsn : Nat),
      loadCheckpointPages crstMajor dump = .ok tables.dptbl →
      analysisPass info tables records = .ok (tables', rlsn) →
      ∀ record ∈ records, record.isPageOp = true → 0 < record.lcnsToFollow →
        ∃ dp, findDp tables'.dptbl record.targetAttribute record.targetVcn = some dp ∧
          pageOldest tables'.dptbl dp ≤ record.lsn := by
  intro claim
  have skipped : (match analysisPass smallInfo (onePageTables 0x5000) [updateRecord 0x3000 0 5] with
      | .error _ => false
      | .ok (tables', _) => decide (findDp tables'.dptbl 0x18 0 = some 0x18 ∧
          pageOldest tables'.dptbl 0x18 = 0x5000)) = true := by decide +kernel
  cases result : analysisPass smallInfo (onePageTables 0x5000) [updateRecord 0x3000 0 5] with
  | error e =>
    rw [result] at skipped
    cases skipped
  | ok pair =>
    obtain ⟨tables', rlsn⟩ := pair
    rw [result] at skipped
    obtain ⟨found, oldest⟩ := of_decide_eq_true skipped
    obtain ⟨dp, found', older⟩ := claim smallInfo 1 (some (onePageDump 0x5000, 0x40))
      (onePageTables 0x5000) tables' [updateRecord 0x3000 0 5] rlsn
      (onePage_loaded 0x5000 (by decide)) result _ List.mem_cons_self (by decide +kernel)
      (by decide +kernel)
    have target : (updateRecord 0x3000 0 5).targetAttribute = 0x18 ∧
        (updateRecord 0x3000 0 5).targetVcn = 0 := by decide +kernel
    rw [target.1, target.2, found] at found'
    cases found'
    rw [oldest] at older
    exact absurd older (by decide)

end Ttntfs.Logfile
