import Ttntfs.Logfile.PageSteps

/-!
# Loading the dirty page table

What `lfs_load_checkpoint` does to the dump of the dirty page table before analysis
sees it: the table is checked and copied, a table of version 0 is converted, entries
that announce more lcns than they have room for are refused, and of several entries
for one page only the first is kept, with the oldest of their lsns.
-/

namespace Ttntfs.Logfile

open Library.ByteMemory Library.LinkedOffsets

/-- `DP0_VCN` -/
def dp0Vcn : Nat := 0x14

/-- How the load of the dirty page table fails. -/
inductive CheckpointError where
  /-- "%s table: invalid restart table" -/
  | invalidRestartTable
  /-- The conversion moves bytes beyond the end of the table. -/
  | overrun
  /-- "dirty page table entry size %u" -/
  | entrySize (esize : Nat)
  /-- "dirty page entry 0x%x: lcns_follow overflows entry" -/
  | lcnsFollow (dp : Nat)
  deriving DecidableEq

/-! ## Conversion -/

/-- The number of bytes that the conversion of an entry moves. -/
def convertedBytes (esize lcns : Nat) : Nat :=
  let n := (16 + 8 * lcns) % 2 ^ 32
  let n := if (dp1Vcn + n) % 2 ^ 32 > esize then (esize + 2 ^ 32 - dp1Vcn) % 2 ^ 32 else n
  if (dp0Vcn + n) % 2 ^ 32 > esize then (esize + 2 ^ 32 - dp0Vcn) % 2 ^ 32 else n

/-- Convert the entry at `dp`; none where this leaves the table. -/
def convertEntry (t : Table) (dp : Nat) : Option Table :=
  let n := convertedBytes t.esize (dpLcnsFollow t.buf dp)
  if dp + dp0Vcn + n ≤ t.bytes then
    some (t.withBuf (copyRange t.buf (dp + dp1Vcn) t.buf (dp + dp0Vcn) n))
  else none

/-- Convert the entries of a list. -/
def convertEntries : List Nat → Table → Option Table
  | [], t => some t
  | dp :: rest, t => (convertEntry t dp).bind (convertEntries rest)

/-- `convert_dptbl_v0` -/
def convertDptblV0 (t : Table) : Option Table := convertEntries (tableEntries (some t)) t

/-! ## Duplicates -/

/-- Two entries are for the same page. -/
def sameDp (m : Mem) (dp next : Nat) : Bool :=
  decide (dpAttr m next = dpAttr m dp) && decide (dpVcn m next = dpVcn m dp)

/-- The entry at `dp` takes over the lsn of a duplicate if that is older. -/
def keepOldest (t : Table) (dp next : Nat) : Table :=
  if dpOldest t.buf next < dpOldest t.buf dp then
    t.withBuf (lfPut64 t.buf (dp + dp1OldestLsn) (dpOldest t.buf next))
  else t

/-- The inner loop of `dedupe_dptbl`: free the duplicates of the entry at `dp` behind
`next`. -/
def dropDuplicates (dp : Nat) : Nat → Nat → Table → Table
  | 0, _, t => t
  | fuel + 1, next, t =>
    match lfsTableNext t (some next) with
    | none => t
    | some next => dropDuplicates dp fuel next
        (if sameDp t.buf dp next then lfsTableFreeIdx (keepOldest t dp next) next else t)

/-- The outer loop of `dedupe_dptbl`. -/
def dedupeFrom : Nat → Option Nat → Table → Table
  | 0, _, t => t
  | fuel + 1, cur, t =>
    match lfsTableNext t cur with
    | none => t
    | some dp => dedupeFrom fuel (some dp) (dropDuplicates dp (t.entries + 1) dp t)

/-- `dedupe_dptbl`. Both loops move on by an entry in every round. -/
def dedupeDptbl (t : Table) : Table := dedupeFrom (t.entries + 1) none t

/-! ## The load -/

/-- An entry announces more lcns than it has room for. -/
def lcnsOverflow (t : Table) (dp : Nat) : Bool :=
  decide (dp1Size + 8 * dpLcnsFollow t.buf dp > t.esize)

/-- The part of `lfs_load_checkpoint` for the dirty page table; `rt` is the dump of
`bytes` bytes in its record. -/
def loadDirtyPages (crstMajor : Nat) (rt : Mem) (bytes : Nat) : Except CheckpointError Table :=
  if !lfsTableCheck rt bytes then .error .invalidRestartTable
  else
    match (if crstMajor = 0 then convertDptblV0 (loadedTable rt) else some (loadedTable rt)) with
    | none => .error .overrun
    | some t =>
      if t.esize < dp1Size + 8 then .error (.entrySize t.esize)
      else
        match (tableEntries (some t)).find? (lcnsOverflow t) with
        | some dp => .error (.lcnsFollow dp)
        | none => .ok (dedupeDptbl t)

/-! ## What was loaded is well formed -/

section Convert

variable {t t' : Table} {free : List Nat}

theorem convertedBytes_fits {esize lcns : Nat} (small : esize < 65536)
    (moved : convertedBytes esize lcns < 2 ^ 32 - 65536) :
    dp0Vcn + convertedBytes esize lcns ≤ esize := by
  obtain ⟨n, computed⟩ : ∃ n, convertedBytes esize lcns =
      if (dp0Vcn + n) % 2 ^ 32 > esize then (esize + 2 ^ 32 - dp0Vcn) % 2 ^ 32 else n := ⟨_, rfl⟩
  rw [computed] at moved ⊢
  by_cases beyond : (dp0Vcn + n) % 2 ^ 32 > esize
  · rw [if_pos beyond] at moved ⊢
    simp only [dp0Vcn] at *
    omega
  · rw [if_neg beyond] at moved ⊢
    simp only [dp0Vcn] at *
    omega

theorem convertEntry_fills (inv : TableInv t free) {dp : Nat} (allocated : Allocated t dp)
    (converted : convertEntry t dp = some t') : FillsEntries dp1Vcn t t' := by
  have small : t.esize < 65536 := lfGet16_lt t.buf rtEntrySize
  have bytes := inv.bytes_lt
  simp only [convertEntry] at converted
  split at converted
  next inside =>
    have fits : dp0Vcn + convertedBytes t.esize (dpLcnsFollow t.buf dp) ≤ t.esize :=
      convertedBytes_fits small (by omega)
    rw [← Option.some.inj converted]
    refine FillsEntries.single allocated ?_
    intro i away
    refine copyRange_outside ?_
    simp only [dp0Vcn, dp1Vcn] at *
    omega
  next => cases converted

theorem convertEntries_fills (inv : TableInv t free) {entries : List Nat}
    (allocated : ∀ dp ∈ entries, Allocated t dp) (converted : convertEntries entries t = some t') :
    FillsEntries dp1Vcn t t' := by
  have enough : 4 ≤ dp1Vcn := by decide
  induction entries generalizing t with
  | nil =>
    rw [← Option.some.inj converted]
    exact FillsEntries.refl _ t
  | cons dp rest ih =>
    obtain ⟨t₁, first, remaining⟩ := Option.bind_eq_some_iff.mp converted
    have fills := convertEntry_fills inv (allocated dp List.mem_cons_self) first
    refine fills.trans (ih (fills.inv enough inv) ?_ remaining) enough
    intro other member
    exact (fills.allocated enough other).mpr (allocated other (List.mem_cons_of_mem _ member))

end Convert

section Dedupe

variable {t : Table} {free : List Nat}

theorem keepOldest_pages (pages : DirtyPages t free) {dp : Nat} (allocated : Allocated t dp)
    (next : Nat) : FillsEntries dp1Vcn t (keepOldest t dp next) := by
  rw [keepOldest]
  split
  · refine FillsEntries.single allocated ?_
    intro i away
    have size := pages.size
    refine putLE_outside ?_
    simp only [dp1Size, dp1OldestLsn, dp1Vcn] at *
    omega
  · exact FillsEntries.refl _ t

theorem FreesEntry.pages {t' : Table} {free' : List Nat} {off : Nat} (pages : DirtyPages t free)
    (frees : FreesEntry t t' free free' off) : DirtyPages t' free' := by
  refine { inv := frees.inv, size := ?_, fits := ?_ }
  · rw [frees.size]
    exact pages.size
  intro dp still
  have old := frees.only dp still
  have different : some dp ≠ some off := by
    rintro ⟨⟩
    exact frees.freed still
  obtain ⟨_, contents⟩ := frees.kept dp old different
  have size := pages.size
  have count : dpLcnsFollow t'.buf dp = dpLcnsFollow t.buf dp := by
    refine getLE_congr (fun i lower upper => contents i ?_ ?_)
    · simp only [dp1LcnsFollow] at *
      omega
    · simp only [dp1LcnsFollow, dp1Size] at *
      omega
  rw [frees.size, count]
  exact pages.fits dp old

/-- One round of the inner loop of `dedupe_dptbl`. -/
theorem dropDuplicate_pages (pages : DirtyPages t free) {dp next : Nat} (kept : Allocated t dp)
    (allocated : Allocated t next) (behind : dp < next) :
    ∃ free', DirtyPages (lfsTableFreeIdx (keepOldest t dp next) next) free' ∧
      Allocated (lfsTableFreeIdx (keepOldest t dp next) next) dp ∧
      IsEntry (lfsTableFreeIdx (keepOldest t dp next) next) next := by
  have enough : 4 ≤ dp1Vcn := by decide
  have fills := keepOldest_pages pages kept next
  have still := (fills.allocated enough next).mpr allocated
  obtain ⟨free', frees⟩ := lfsTableFreeIdx_spec (fills.inv enough pages.inv) still
  refine ⟨free', frees.pages (pages.fillFrom fills (by decide)), ?_, ?_⟩
  · refine (frees.kept dp ((fills.allocated enough dp).mpr kept) ?_).1
    rintro ⟨⟩
    exact Nat.lt_irrefl _ behind
  · exact (isEntry_congr frees.size frees.entries next).mpr still.1

/-- The inner loop of `dedupe_dptbl` leaves a well-formed table with the entry it
keeps. -/
theorem dropDuplicates_pages {dp : Nat} (fuel : Nat) {next : Nat} (pages : DirtyPages t free)
    (kept : Allocated t dp) (entry : IsEntry t next) (behind : dp ≤ next) :
    ∃ free', DirtyPages (dropDuplicates dp fuel next t) free' ∧
      Allocated (dropDuplicates dp fuel next t) dp := by
  induction fuel generalizing next t free with
  | zero => exact ⟨free, pages, kept⟩
  | succ fuel ih =>
    rw [dropDuplicates]
    split
    · exact ⟨free, pages, kept⟩
    next later found =>
      obtain ⟨allocated, less⟩ := lfsTableNext_after pages.inv entry found
      split
      · obtain ⟨free', pages', kept', entry'⟩ :=
          dropDuplicate_pages pages kept allocated (Nat.lt_of_le_of_lt behind less)
        exact ih pages' kept' entry' (by omega)
      · exact ih pages kept allocated.1 (by omega)

theorem dedupeFrom_pages (fuel : Nat) {cur : Option Nat} (pages : DirtyPages t free)
    (entry : ∀ dp, cur = some dp → Allocated t dp) :
    ∃ free', DirtyPages (dedupeFrom fuel cur t) free' := by
  induction fuel generalizing cur t free with
  | zero => exact ⟨free, pages⟩
  | succ fuel ih =>
    rw [dedupeFrom]
    split
    · exact ⟨free, pages⟩
    next dp found =>
      have allocated : Allocated t dp := by
        cases cur with
        | none => exact lfsTableNext_first pages.inv found
        | some previous => exact (lfsTableNext_after pages.inv (entry previous rfl).1 found).1
      obtain ⟨free', pages', kept⟩ :=
        dropDuplicates_pages (t.entries + 1) pages allocated allocated.1 (Nat.le_refl dp)
      refine ih pages' ?_
      rintro other ⟨⟩
      exact kept

end Dedupe

/-- The dirty page table of a checkpoint, if the dump is complete, is well formed. -/
theorem loadDirtyPages_pages {crstMajor bytes : Nat} {rt : Mem} {t : Table} (complete : CompleteDump rt)
    (loaded : loadDirtyPages crstMajor rt bytes = .ok t) : ∃ free, DirtyPages t free := by
  rw [loadDirtyPages] at loaded
  split at loaded
  · cases loaded
  next accepted =>
    obtain ⟨free, inv⟩ := loadedTable_inv (lfsTableCheck_accepts (by simpa using accepted)) complete
    split at loaded
    · cases loaded
    next t₁ converted =>
      have converts : FillsEntries dp1Vcn (loadedTable rt) t₁ := by
        split at converted
        · exact convertEntries_fills inv (fun dp => (mem_tableEntries inv).mp) converted
        · rw [← Option.some.inj converted]
          exact FillsEntries.refl _ _
      have inv₁ := converts.inv (by decide) inv
      split at loaded
      · cases loaded
      next large =>
        split at loaded
        · cases loaded
        next fits =>
          rw [← Except.ok.inj loaded]
          have pages : DirtyPages t₁ free := by
            constructor
            · exact inv₁
            · omega
            · intro dp allocated
              have room := List.find?_eq_none.mp fits dp ((mem_tableEntries inv₁).mpr allocated)
              simpa [lcnsOverflow] using room
          exact dedupeFrom_pages _ pages (fun dp none => by cases none)

end Ttntfs.Logfile
