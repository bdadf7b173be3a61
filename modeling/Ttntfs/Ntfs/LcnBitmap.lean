import Ttntfs.Library.BitRuns
import Ttntfs.Ntfs.Runlist

/-!
# The lcn bitmap and its counters

The bitmap of the clusters lies in pages of 4096 bytes; a set bit is an allocated cluster.
The volume counts the clear bits of each page and of the whole bitmap. A run of bits is set
or cleared page by page, the partial first byte, the whole bytes and the partial last byte
each with its page's counter; when a page cannot be read, the bits done so far are turned
back.
-/

namespace Ttntfs.Ntfs

open Ttntfs.Library.BitRuns

/-- An error code: a negative number. -/
abbrev ErrorCode := {code : Int // code < 0}

/-- `-EIO` -/
def codeIo : ErrorCode := ⟨-5, by decide⟩
/-- `-ENOMEM` -/
def codeNomem : ErrorCode := ⟨-12, by decide⟩
/-- `-EINVAL` -/
def codeInval : ErrorCode := ⟨-22, by decide⟩
/-- `-ENOSPC` -/
def codeNospc : ErrorCode := ⟨-28, by decide⟩

/-- `PAGE_SIZE` -/
abbrev bitmapPageSize : Nat := 4096

/-- The bits of a page of the bitmap, `PAGE_SIZE * BITS_PER_BYTE`. -/
abbrev bitmapPageBits : Nat := 32768

/-- The part of `struct ntfs_volume` that the cluster allocator reads and changes. `bits` is
the content of the lcn bitmap as the page cache holds it, `iSize` the size of the bitmap in
bytes. -/
structure LcnVolume where
  bits : Nat → Bool
  emptyBits : Nat → Int
  freeClusters : Int
  dirtyClusters : Int
  nrClusters : Nat
  iSize : Nat
  mftLcn : Nat
  mftZoneStart : Nat
  mftZoneEnd : Nat
  mftZonePos : Nat
  data1ZonePos : Nat
  data2ZonePos : Nat
  errors : Bool

/-- `ntfs_inc_free_clusters` -/
def LcnVolume.incFreeClusters (vol : LcnVolume) (nr : Int) : LcnVolume :=
  { vol with freeClusters := vol.freeClusters + nr }

/-- `ntfs_dec_free_clusters` -/
def LcnVolume.decFreeClusters (vol : LcnVolume) (nr : Int) : LcnVolume :=
  { vol with freeClusters := vol.freeClusters - nr }

/-- `ntfs_set_lcn_empty_bits` -/
def LcnVolume.setLcnEmptyBits (vol : LcnVolume) (index : Nat) (val : Bool) (count : Nat) : LcnVolume :=
  { vol with emptyBits := fun page =>
      if page = index then (if val then vol.emptyBits page - count else vol.emptyBits page + count)
      else vol.emptyBits page }

/-- Give one value to some bits of the page `index` and adjust the counter of the page. -/
def LcnVolume.setPart (vol : LcnVolume) (index start n : Nat) (value : Bool) : LcnVolume :=
  { vol.setLcnEmptyBits index value n with bits := setRun vol.bits start n value }

/-- How far `lcn_empty_bits_per_page` of a page is from the number of clear bits of the page. -/
def LcnVolume.pageGap (vol : LcnVolume) (page : Nat) : Int :=
  vol.emptyBits page - clearCount vol.bits (page * bitmapPageBits) bitmapPageBits

/-- How far `free_clusters` is from the number of clear bits of the bitmap. -/
def LcnVolume.freeGap (vol : LcnVolume) : Int :=
  vol.freeClusters - clearCount vol.bits 0 (8 * vol.iSize)

/-- The counters of the volume match its bitmap. -/
def LcnVolume.Accounted (vol : LcnVolume) : Prop :=
  vol.freeGap = 0 ∧ ∀ page, page * bitmapPageBits < 8 * vol.iSize → vol.pageGap page = 0

/-- The pages a run of bits goes on into after its first page, `end_index - index`. For an
empty run at the first bit the last index wraps around. -/
def laterPages (start count : Nat) : Nat :=
  if start + count = 0 then 2 ^ 64 - 1 else (start + count - 1) / bitmapPageBits - start / bitmapPageBits

/-- How far a run of bits got: the volume, the bits still to do, the byte within the page and
the page where to go on, and the error that stopped the loop. -/
structure RunProgress where
  vol : LcnVolume
  cnt : Nat
  len : Nat
  index : Nat
  err : Option ErrorCode

/-- The loop over the subsequent pages in `__ntfs_bitmap_set_bits_in_run`; `reads` gives the
error of reading the `k`-th page of the run. -/
def setLaterPages (value : Bool) (reads : Nat → Option ErrorCode) :
    Nat → Nat → RunProgress → RunProgress
  | 0, _, at_ => at_
  | pages + 1, k, at_ =>
    if at_.cnt = 0 then { at_ with err := some codeIo }
    else
      match reads k with
      | some err => { at_ with index := at_.index + 1, err := some err }
      | none =>
        let len := min (at_.cnt / 8) bitmapPageSize
        setLaterPages value reads pages (k + 1)
          { vol := at_.vol.setPart (at_.index + 1) ((at_.index + 1) * bitmapPageBits) (8 * len) value
            cnt := at_.cnt - 8 * len, len, index := at_.index + 1, err := none }

/-- `__ntfs_bitmap_set_bits_in_run` up to its labels `done` and `rollback`: the volume, the
number of bits modified and the error. -/
def setBitsOnce (vol : LcnVolume) (start count : Nat) (value : Bool) (reads : Nat → Option ErrorCode) :
    LcnVolume × Nat × Option ErrorCode :=
  let index := start / bitmapPageBits
  match reads 0 with
  | some err => (vol, 0, some err)
  | none =>
    let bit := start % 8
    -- If the first byte is partial, modify the appropriate bits in it.
    let head := if bit = 0 then 0 else min (8 - bit) count
    let vol := vol.setPart index start head value
    let cnt := count - head
    if bit ≠ 0 ∧ cnt = 0 then (vol, count, none)
    else
      let pos := start / 8 % bitmapPageSize + if bit = 0 then 0 else 1
      let len := min (cnt / 8) (bitmapPageSize - pos)
      let vol := vol.setPart index (index * bitmapPageBits + 8 * pos) (8 * len) value
      let cnt := cnt - 8 * len
      let out := setLaterPages value reads (laterPages start count) 1
        { vol, cnt, len := if cnt < 8 then len + pos else len, index, err := none }
      match out.err with
      | some err => (out.vol, count - out.cnt, some err)
      -- The currently mapped page is the last one. The last byte may be partial.
      | none => (out.vol.setPart out.index (out.index * bitmapPageBits + 8 * out.len) out.cnt value, count, none)

/-- Which page reads fail while a run of bits is modified: by the number of the page in the
run, on the way forward and while the run is turned back. -/
structure RunFaults where
  forward : Nat → Option ErrorCode
  back : Nat → Option ErrorCode

/-- Where a page of the run cannot be read, the run can at least be turned back. -/
def RunFaults.Undoable (faults : RunFaults) : Prop :=
  (∃ k err, faults.forward k = some err) → ∀ k, faults.back k = none

/-- `ntfs_bitmap_set_bits_in_run` -/
def LcnVolume.setBitsInRun (vol : LcnVolume) (start count : Nat) (value : Bool) (faults : RunFaults) :
    LcnVolume × Option ErrorCode :=
  match setBitsOnce vol start count value faults.forward with
  | (vol, _, .none) => (vol, .none)
  | (vol, done, some err) =>
    if done = 0 then (vol, some err)
    else
      match setBitsOnce vol start done (!value) faults.back with
      | (vol, _, .none) => (vol, some err)
      -- Rollback failed.
      | (vol, _, some _) => ({ vol with errors := true }, some err)

/-- `ntfs_bitmap_clear_run` -/
def LcnVolume.clearRun (vol : LcnVolume) (start count : Nat) (faults : RunFaults) :
    LcnVolume × Option ErrorCode :=
  vol.setBitsInRun start count false faults

/-- A volume that differs from another by a run of bits that took one value, counted page by
page where every bit of the run changed. -/
structure SetsRun (vol vol' : LcnVolume) (start n : Nat) (value : Bool) : Prop where
  bits : vol'.bits = setRun vol.bits start n value
  counted : (∀ i, start ≤ i → i < start + n → vol.bits i = !value) →
    ∀ page, vol'.pageGap page = vol.pageGap page
  others : vol' = { vol with bits := vol'.bits, emptyBits := vol'.emptyBits }

section Parts

variable {vol vol' vol'' : LcnVolume} {start n m index : Nat} {value : Bool}

theorem SetsRun.refl : SetsRun vol vol start 0 value where
  bits := setRun_zero.symm
  counted := fun _ _ => rfl
  others := rfl

theorem SetsRun.append (first : SetsRun vol vol' start n value)
    (second : SetsRun vol' vol'' (start + n) m value) : SetsRun vol vol'' start (n + m) value where
  bits := by rw [second.bits, first.bits, setRun_append]
  counted := by
    intro had page
    have hadFirst : ∀ i, start ≤ i → i < start + n → vol.bits i = !value :=
      fun i lower upper => had i lower (by omega)
    have hadSecond : ∀ i, start + n ≤ i → i < start + n + m → vol'.bits i = !value := by
      intro i lower upper
      rw [first.bits, setRun_outside (by omega)]
      exact had i (by omega) (by omega)
    rw [second.counted hadSecond, first.counted hadFirst]
  others := by
    rw [second.others, first.others]

theorem SetsRun.turned_back (forth : SetsRun vol vol' start n value)
    (back : SetsRun vol' vol'' start n (!value))
    (had : ∀ i, start ≤ i → i < start + n → vol.bits i = !value) : vol'' = vol := by
  have bits : vol''.bits = vol.bits := by
    have restored := setRun_setRun had
    rw [Bool.not_not] at restored
    rw [back.bits, forth.bits, restored]
  have now : ∀ i, start ≤ i → i < start + n → vol'.bits i = !!value := by
    intro i lower upper
    rw [forth.bits, setRun_inside lower upper, Bool.not_not]
  have emptyBits : vol''.emptyBits = vol.emptyBits := by
    funext page
    have gap := (back.counted now page).trans (forth.counted had page)
    rw [LcnVolume.pageGap, LcnVolume.pageGap, bits] at gap
    omega
  rw [back.others, forth.others, bits, emptyBits]

/-- A part of a page is a run. -/
theorem setPart_setsRun (lower : index * bitmapPageBits ≤ start)
    (upper : start + n ≤ (index + 1) * bitmapPageBits) :
    SetsRun vol (vol.setPart index start n value) start n value where
  bits := rfl
  counted := by
    intro had page
    by_cases same : page = index
    · subst same
      have changed : (clearCount (setRun vol.bits start n value) (page * bitmapPageBits) bitmapPageBits : Int) =
          clearCount vol.bits (page * bitmapPageBits) bitmapPageBits + clearGain value n :=
        clearCount_setRun lower (by rw [Nat.add_mul, Nat.one_mul] at upper; exact upper) had
      simp only [LcnVolume.pageGap, LcnVolume.setPart, LcnVolume.setLcnEmptyBits, if_true]
      rw [changed, clearGain]
      split <;> omega
    · have kept : clearCount (setRun vol.bits start n value) (page * bitmapPageBits) bitmapPageBits =
          clearCount vol.bits (page * bitmapPageBits) bitmapPageBits := by
        apply clearCount_setRun_outside
        rcases Nat.lt_or_ge page index with before | after
        · right; nlinarith
        · left; nlinarith [show index + 1 ≤ page by omega]
      simp only [LcnVolume.pageGap, LcnVolume.setPart, LcnVolume.setLcnEmptyBits, if_neg same, kept]
  others := rfl

end Parts

/-- What the loop over the subsequent pages leaves: from `base` on the bits done so far took
their value, and a loop without error stands where the remaining bits belong. -/
structure PagesDone (value : Bool) (reads : Nat → Option ErrorCode) (base : Nat) (at_ out : RunProgress) :
    Prop where
  sets : SetsRun at_.vol out.vol base (at_.cnt - out.cnt) value
  less : out.cnt ≤ at_.cnt
  ends : out.err = none → out.index * bitmapPageBits + 8 * out.len = base + (at_.cnt - out.cnt) ∧
    8 * out.len + out.cnt ≤ bitmapPageBits
  told : ∀ err, out.err = some err → 0 < at_.cnt → ∃ k, reads k = some err

section Pages

variable {value : Bool} {reads : Nat → Option ErrorCode} {base pages k : Nat} {at_ : RunProgress}

theorem PagesDone.here (fine : at_.err = none) (place : at_.index * bitmapPageBits + 8 * at_.len = base)
    (fits : 8 * at_.len + at_.cnt ≤ bitmapPageBits) : PagesDone value reads base at_ at_ where
  sets := by
    rw [Nat.sub_self]
    exact .refl
  less := le_rfl
  ends := fun _ => by omega
  told := fun err failed _ => by simp [fine] at failed

/-- The loop over the subsequent pages does page after page. -/
theorem setLaterPages_done (fine : at_.err = none)
    (left : 0 < at_.cnt → base = (at_.index + 1) * bitmapPageBits ∧
      pages = (at_.cnt - 1) / bitmapPageBits + 1) (some_page : 0 < pages) :
    PagesDone value reads base at_ (setLaterPages value reads pages k at_) := by
  induction pages generalizing base k at_ with
  | zero => omega
  | succ pages ih =>
    rw [setLaterPages]
    by_cases empty : at_.cnt = 0
    · rw [if_pos empty]
      constructor
      · rw [Nat.sub_self]
        exact .refl
      · exact le_rfl
      · exact fun impossible => absurd impossible (by simp)
      · exact fun _ _ some_bit => absurd some_bit (by omega)
    rw [if_neg empty]
    obtain ⟨base_eq, count⟩ := left (by omega)
    cases read : reads k with
    | some err =>
      constructor
      · rw [Nat.sub_self]
        exact .refl
      · exact le_rfl
      · exact fun impossible => absurd impossible (by simp)
      · exact fun _ failed _ => ⟨k, read.trans failed⟩
    | none =>
      dsimp only
      let len := min (at_.cnt / 8) bitmapPageSize
      let next : RunProgress :=
        { vol := at_.vol.setPart (at_.index + 1) ((at_.index + 1) * bitmapPageBits) (8 * len) value
          cnt := at_.cnt - 8 * len, len, index := at_.index + 1, err := none }
      have bound : 8 * len ≤ at_.cnt ∧ 8 * len ≤ bitmapPageBits := by
        simp only [len, bitmapPageSize, bitmapPageBits]
        omega
      have part : SetsRun at_.vol next.vol base (8 * len) value := by
        rw [base_eq]
        exact setPart_setsRun (le_refl _) (by rw [Nat.add_mul (at_.index + 1), Nat.one_mul]; omega)
      have rest : PagesDone value reads (base + 8 * len) next
          (setLaterPages value reads pages (k + 1) next) := by
        by_cases last : pages = 0
        · subst last
          apply PagesDone.here rfl
          · rw [base_eq]
          · simp only [next, len, bitmapPageSize, bitmapPageBits] at count ⊢
            omega
        · apply ih rfl _ (by omega)
          simp only [next, len, bitmapPageSize, bitmapPageBits] at count base_eq ⊢
          omega
      have remaining : next.cnt = at_.cnt - 8 * len := rfl
      have last : next.cnt = 0 → pages = 0 := by
        simp only [next, len, bitmapPageSize, bitmapPageBits] at count ⊢
        omega
      have finished : pages = 0 → (setLaterPages value reads pages (k + 1) next).err = none := by
        rintro rfl
        rfl
      change PagesDone value reads base at_ (setLaterPages value reads pages (k + 1) next)
      generalize setLaterPages value reads pages (k + 1) next = out at rest finished ⊢
      have less := rest.less
      constructor
      · have sets := part.append rest.sets
        rwa [show 8 * len + (next.cnt - out.cnt) = at_.cnt - out.cnt by omega] at sets
      · exact less.trans (by omega)
      · intro clean
        have ends := rest.ends clean
        omega
      · intro err failed _
        by_cases left : 0 < next.cnt
        · exact rest.told err failed left
        · exact absurd (finished (last (by omega))) (by simp [failed])

end Pages

/-- What a run of bits leaves: the bits done took their value, and without error these are all. -/
structure RunDone (vol : LcnVolume) (start count : Nat) (value : Bool) (reads : Nat → Option ErrorCode)
    (out : LcnVolume × Nat × Option ErrorCode) : Prop where
  sets : SetsRun vol out.1 start out.2.1 value
  less : out.2.1 ≤ count
  whole : out.2.2 = none → out.2.1 = count
  told : ∀ err, out.2.2 = some err → 0 < count → ∃ k, reads k = some err

/-- What a run of bits takes of its first page: the bits of its first byte, and the whole bytes
behind them. -/
structure FirstPage (start count head pos len : Nat) : Prop where
  headLess : head ≤ count
  lenLess : 8 * len ≤ count - head
  inside : pos + len ≤ bitmapPageSize
  place : start + head = start / bitmapPageBits * bitmapPageBits + 8 * pos
  filled : 8 ≤ count - head - 8 * len → pos + len = bitmapPageSize

section FirstPage

variable {start count head pos len : Nat}

/-- A run of bits that does not end in its first byte. -/
theorem firstPage_of (headEq : head = if start % 8 = 0 then 0 else min (8 - start % 8) count)
    (posEq : pos = start / 8 % bitmapPageSize + if start % 8 = 0 then 0 else 1)
    (lenEq : len = min ((count - head) / 8) (bitmapPageSize - pos))
    (more : ¬(start % 8 ≠ 0 ∧ count - head = 0)) : FirstPage start count head pos len := by
  have bytes : start / 8 % bitmapPageSize = start % bitmapPageBits / 8 := by
    simp only [bitmapPageSize, bitmapPageBits]
    omega
  have page : start / bitmapPageBits * bitmapPageBits + start % bitmapPageBits = start := Nat.div_add_mod' _ _
  have aligned : start % bitmapPageBits % 8 = start % 8 := Nat.mod_mod_of_dvd _ (by decide)
  have below : start % bitmapPageBits < 8 * bitmapPageSize := Nat.mod_lt _ (by decide)
  rw [bytes] at posEq
  by_cases whole : start % 8 = 0
  · rw [if_pos whole] at headEq posEq
    constructor <;> omega
  · rw [if_neg whole] at headEq posEq
    have head : head = 8 - start % 8 := by omega
    constructor <;> omega

theorem FirstPage.last (first : FirstPage start count head pos len) (here : laterPages start count = 0) :
    count - head - 8 * len < 8 ∧ 8 * (len + pos) + (count - head - 8 * len) ≤ bitmapPageBits := by
  obtain ⟨headLess, lenLess, inside, place, filled⟩ := first
  have short : start + count ≤ (start / bitmapPageBits + 1) * bitmapPageBits := by
    simp only [laterPages, bitmapPageBits] at here ⊢
    split at here <;> omega
  have size : bitmapPageBits = 8 * bitmapPageSize := rfl
  rw [Nat.add_mul, Nat.one_mul] at short
  omega

/-- The run goes on behind its first page, which it fills. -/
theorem FirstPage.next (first : FirstPage start count head pos len) (more : laterPages start count ≠ 0)
    (left : 0 < count - head - 8 * len) :
    start + head + 8 * len = (start / bitmapPageBits + 1) * bitmapPageBits ∧
      laterPages start count = (count - head - 8 * len - 1) / bitmapPageBits + 1 := by
  obtain ⟨headLess, lenLess, inside, place, filled⟩ := first
  have size : bitmapPageBits = 8 * bitmapPageSize := rfl
  have later : laterPages start count = (start + count - 1) / bitmapPageBits - start / bitmapPageBits := by
    rw [laterPages, if_neg (by omega)]
  have full : pos + len = bitmapPageSize := by
    by_cases several : 8 ≤ count - head - 8 * len
    · exact filled several
    · have behind : (start / bitmapPageBits + 1) * bitmapPageBits ≤ start + count - 1 := by
        rw [later] at more
        exact (Nat.le_div_iff_mul_le (by decide)).mp (by omega)
      rw [Nat.add_mul, Nat.one_mul] at behind
      omega
  have ends : start + head + 8 * len = (start / bitmapPageBits + 1) * bitmapPageBits := by
    rw [Nat.add_mul, Nat.one_mul]
    omega
  refine ⟨ends, ?_⟩
  have rest : start + count - 1 =
      (count - head - 8 * len - 1) + (start / bitmapPageBits + 1) * bitmapPageBits := by omega
  rw [later, rest, Nat.add_mul_div_right _ _ (by decide), ← Nat.add_assoc, Nat.add_right_comm,
    Nat.add_sub_cancel]

theorem FirstPage.over (first : FirstPage start count head pos len) (some_bit : 0 < count)
    (done : count - head - 8 * len = 0) : laterPages start count = 0 := by
  obtain ⟨headLess, lenLess, inside, place, filled⟩ := first
  have size : bitmapPageBits = 8 * bitmapPageSize := rfl
  have below : start + count - 1 < (start / bitmapPageBits + 1) * bitmapPageBits := by
    rw [Nat.add_mul, Nat.one_mul]
    omega
  have page := (Nat.div_lt_iff_lt_mul (by decide)).mpr below
  rw [laterPages, if_neg (by omega)]
  omega

end FirstPage

section Once

variable {vol : LcnVolume} {start count : Nat} {value : Bool} {reads : Nat → Option ErrorCode}

theorem head_setsRun : SetsRun vol (vol.setPart (start / bitmapPageBits) start
    (if start % 8 = 0 then 0 else min (8 - start % 8) count) value) start
    (if start % 8 = 0 then 0 else min (8 - start % 8) count) value := by
  apply setPart_setsRun
  · exact Nat.div_mul_le_self start bitmapPageBits
  · simp only [bitmapPageBits]
    split <;> omega

section Behind

variable {vol1 : LcnVolume} {bits pos len : Nat}

/-- The pages behind the first one are done from where the first one ends. -/
theorem FirstPage.pagesDone (page : FirstPage start count bits pos len) (vol : LcnVolume) :
    PagesDone value reads (start + bits + 8 * len)
      { vol, cnt := count - bits - 8 * len, len := if count - bits - 8 * len < 8 then len + pos else len
        index := start / bitmapPageBits, err := none }
      (setLaterPages value reads (laterPages start count) 1
        { vol, cnt := count - bits - 8 * len, len := if count - bits - 8 * len < 8 then len + pos else len
          index := start / bitmapPageBits, err := none }) := by
  by_cases here : laterPages start count = 0
  · obtain ⟨few, fits⟩ := page.last here
    rw [here, setLaterPages, if_pos few]
    refine .here rfl ?_ fits
    have place := page.place
    change start / bitmapPageBits * bitmapPageBits + 8 * (len + pos) = _
    omega
  · exact setLaterPages_done rfl (page.next here) (Nat.pos_of_ne_zero here)

/-- The bits of a run that the loop over its pages left are done with its last byte. -/
theorem RunDone.of_pages {out : RunProgress} (less : out.cnt ≤ count)
    (pages : SetsRun vol out.vol start (count - out.cnt) value)
    (ends : out.err = none → out.index * bitmapPageBits + 8 * out.len = start + (count - out.cnt) ∧
      8 * out.len + out.cnt ≤ bitmapPageBits)
    (told : ∀ err, out.err = some err → 0 < count → ∃ k, reads k = some err) :
    RunDone vol start count value reads
      (match out.err with
      | some err => (out.vol, count - out.cnt, some err)
      | none => (out.vol.setPart out.index (out.index * bitmapPageBits + 8 * out.len) out.cnt value, count, none)) := by
  cases result : out.err with
  | some err =>
    refine ⟨pages, Nat.sub_le _ _, fun impossible => absurd impossible (by simp), fun err' same some_bit => ?_⟩
    obtain rfl : err = err' := Option.some.inj same
    exact told err result some_bit
  | none =>
    obtain ⟨place, fits⟩ := ends result
    refine ⟨?_, le_rfl, fun _ => rfl, fun _ impossible => absurd impossible (by simp)⟩
    have tail : SetsRun out.vol (out.vol.setPart out.index (out.index * bitmapPageBits + 8 * out.len) out.cnt value)
        (start + (count - out.cnt)) out.cnt value := by
      rw [place]
      refine setPart_setsRun (place ▸ Nat.le_add_right _ _) ?_
      rw [Nat.add_mul, Nat.one_mul]
      omega
    have sets := pages.append tail
    rwa [Nat.sub_add_cancel less] at sets

/-- Where the first page is left, the rest of the run is done. -/
theorem firstPage_done (head : SetsRun vol vol1 start bits value) (page : FirstPage start count bits pos len) :
    RunDone vol start count value reads
      (let out := setLaterPages value reads (laterPages start count) 1
        { vol := vol1.setPart (start / bitmapPageBits)
            (start / bitmapPageBits * bitmapPageBits + 8 * pos) (8 * len) value
          cnt := count - bits - 8 * len, len := if count - bits - 8 * len < 8 then len + pos else len
          index := start / bitmapPageBits, err := none }
      match out.err with
      | some err => (out.vol, count - out.cnt, some err)
      | none => (out.vol.setPart out.index (out.index * bitmapPageBits + 8 * out.len) out.cnt value, count, none)) := by
  have bytes : SetsRun vol1 (vol1.setPart (start / bitmapPageBits)
      (start / bitmapPageBits * bitmapPageBits + 8 * pos) (8 * len) value) (start + bits) (8 * len) value := by
    rw [page.place]
    refine setPart_setsRun (Nat.le_add_right _ _) ?_
    have inside := page.inside
    have size : bitmapPageBits = 8 * bitmapPageSize := rfl
    rw [Nat.add_mul, Nat.one_mul]
    omega
  have firstPage := head.append bytes
  have pagesDone : PagesDone value reads _ _ _ := page.pagesDone (vol1.setPart (start / bitmapPageBits)
    (start / bitmapPageBits * bitmapPageBits + 8 * pos) (8 * len) value)
  have finished : laterPages start count = 0 → (setLaterPages value reads (laterPages start count) 1
      { vol := vol1.setPart (start / bitmapPageBits)
          (start / bitmapPageBits * bitmapPageBits + 8 * pos) (8 * len) value
        cnt := count - bits - 8 * len, len := if count - bits - 8 * len < 8 then len + pos else len
        index := start / bitmapPageBits, err := none }).err = none := by
    intro here
    rw [here]
    rfl
  generalize setLaterPages value reads (laterPages start count) 1 _ = out at pagesDone finished ⊢
  have less : out.cnt ≤ count - bits - 8 * len := pagesDone.less
  have headLess := page.headLess
  have lenLess := page.lenLess
  have pages : SetsRun vol out.vol start (count - out.cnt) value := by
    have sets := firstPage.append (Nat.add_assoc start bits (8 * len) ▸ pagesDone.sets)
    have whole : bits + 8 * len + (count - bits - 8 * len - out.cnt) = count - out.cnt := by omega
    rwa [whole] at sets
  refine .of_pages (less.trans (Nat.sub_le_of_le_add (by omega))) pages (fun fine => ?_) fun err failed some_bit => ?_
  · obtain ⟨ends, fits⟩ := pagesDone.ends fine
    refine ⟨ends.trans ?_, fits⟩
    change start + bits + 8 * len + (count - bits - 8 * len - out.cnt) = _
    omega
  · by_cases left : 0 < count - bits - 8 * len
    · exact pagesDone.told err failed left
    · exact absurd (finished (page.over some_bit (by omega))) (by simp [failed])

end Behind

/-- A run of bits is done bit after bit from its start. -/
theorem setBitsOnce_done : RunDone vol start count value reads (setBitsOnce vol start count value reads) := by
  rw [setBitsOnce]
  cases first : reads 0 with
  | some err =>
    constructor
    · exact .refl
    · exact Nat.zero_le _
    · exact fun impossible => absurd impossible (by simp)
    · exact fun _ failed _ => ⟨0, first.trans failed⟩
  | none =>
    dsimp only
    have head := @head_setsRun vol start count value
    by_cases early : start % 8 ≠ 0 ∧ count - (if start % 8 = 0 then 0 else min (8 - start % 8) count) = 0
    · -- The run ends in its first byte.
      rw [if_pos early]
      have all : (if start % 8 = 0 then 0 else min (8 - start % 8) count) = count := by
        rw [if_neg early.1] at early ⊢
        omega
      rw [all] at head
      rw [all]
      exact ⟨head, le_rfl, fun _ => rfl, fun _ impossible => absurd impossible (by simp)⟩
    rw [if_neg early]
    have page := firstPage_of rfl rfl rfl early
    generalize (if start % 8 = 0 then 0 else min (8 - start % 8) count) = bits at head page ⊢
    generalize start / 8 % bitmapPageSize + (if start % 8 = 0 then 0 else 1) = pos at page ⊢
    generalize min ((count - bits) / 8) (bitmapPageSize - pos) = len at page ⊢
    exact firstPage_done head page

end Once

section InRun

variable {vol : LcnVolume} {start count : Nat} {value : Bool} {faults : RunFaults}

theorem setBitsInRun_ok (ok : (vol.setBitsInRun start count value faults).2 = none) :
    SetsRun vol (vol.setBitsInRun start count value faults).1 start count value := by
  have done := @setBitsOnce_done vol start count value faults.forward
  revert ok
  rw [LcnVolume.setBitsInRun]
  generalize setBitsOnce vol start count value faults.forward = out at done
  obtain ⟨after, n, err⟩ := out
  cases err with
  | none =>
    intro _
    have all : n = count := done.whole rfl
    exact all ▸ done.sets
  | some err =>
    dsimp only
    split
    · exact fun impossible => absurd impossible (by simp)
    · split <;> exact fun impossible => absurd impossible (by simp)

/-- A run that fails leaves the volume as it was, or a page could not be read while the run was
turned back and the volume has errors. -/
theorem setBitsInRun_turned_back {err : ErrorCode} (failed : (vol.setBitsInRun start count value faults).2 = some err)
    (had : ∀ i, start ≤ i → i < start + count → vol.bits i = !value) :
    (vol.setBitsInRun start count value faults).1 = vol ∨
      (vol.setBitsInRun start count value faults).1.errors = true ∧
        (∃ k code, faults.forward k = some code) ∧ ∃ k code, faults.back k = some code := by
  have done := @setBitsOnce_done vol start count value faults.forward
  revert failed
  rw [LcnVolume.setBitsInRun]
  generalize setBitsOnce vol start count value faults.forward = out at done
  obtain ⟨after, n, code⟩ := out
  have less : n ≤ count := done.less
  have sets : SetsRun vol after start n value := done.sets
  cases code with
  | none => exact fun impossible => absurd impossible (by simp)
  | some code =>
    intro _
    dsimp only
    by_cases nothing : n = 0
    · subst nothing
      rw [if_pos rfl]
      exact .inl (sets.turned_back .refl fun i _ _ => by omega)
    rw [if_neg nothing]
    have undone := @setBitsOnce_done after start n (!value) faults.back
    generalize setBitsOnce after start n (!value) faults.back = turned at undone
    obtain ⟨final, m, failure⟩ := turned
    cases failure with
    | none =>
      have all : m = n := undone.whole rfl
      subst all
      exact .inl (sets.turned_back undone.sets fun i lower upper => had i lower (by omega))
    | some failure =>
      obtain ⟨k, unread⟩ := done.told code rfl (by omega)
      obtain ⟨l, unturned⟩ := undone.told failure rfl (by omega)
      exact .inr ⟨rfl, ⟨k, code, unread⟩, l, failure, unturned⟩

theorem setBitsInRun_failed {err : ErrorCode} (failed : (vol.setBitsInRun start count value faults).2 = some err)
    (had : ∀ i, start ≤ i → i < start + count → vol.bits i = !value)
    (undoable : faults.Undoable) : (vol.setBitsInRun start count value faults).1 = vol := by
  rcases setBitsInRun_turned_back failed had with same | ⟨_, unread, k, code, unturned⟩
  · exact same
  · rw [undoable unread k] at unturned
    cases unturned

theorem setBitsInRun_told {err : ErrorCode} (failed : (vol.setBitsInRun start count value faults).2 = some err)
    (some_bit : 0 < count) : ∃ k, faults.forward k = some err := by
  have done := @setBitsOnce_done vol start count value faults.forward
  revert failed
  rw [LcnVolume.setBitsInRun]
  generalize setBitsOnce vol start count value faults.forward = out at done
  obtain ⟨after, n, code⟩ := out
  cases code with
  | none => exact fun impossible => absurd impossible (by simp)
  | some code =>
    intro failed
    have same : some code = some err := by
      rw [← failed]
      dsimp only
      split
      · rfl
      · split <;> rfl
    exact same ▸ done.told code rfl some_bit

/-- A run that is reported done gives its value to the bits of the run and no others. If a page
cannot be read and the bits had the other value, the volume is as it was, or a page of the run
could not be read again to turn it back and the volume has errors. -/
theorem bitmap_run_exact (vol : LcnVolume) (start count : Nat) (value : Bool) (faults : RunFaults) :
    ((vol.setBitsInRun start count value faults).2 = none →
      ∀ i, (vol.setBitsInRun start count value faults).1.bits i =
        if start ≤ i ∧ i < start + count then value else vol.bits i) ∧
    ((vol.setBitsInRun start count value faults).2 ≠ none →
      (∀ i, start ≤ i → i < start + count → vol.bits i = !value) →
      (vol.setBitsInRun start count value faults).1 = vol ∨
        (vol.setBitsInRun start count value faults).1.errors = true ∧ ∃ k code, faults.back k = some code) := by
  constructor
  · intro ok i
    rw [(setBitsInRun_ok ok).bits]
    rfl
  · intro failed had
    obtain ⟨err, failed⟩ := Option.ne_none_iff_exists'.mp failed
    rcases setBitsInRun_turned_back failed had with same | ⟨errors, _, unturned⟩
    · exact .inl same
    · exact .inr ⟨errors, unturned⟩

/-- A volume of two bitmap pages on which every cluster is free. -/
def twoBitmapPages : LcnVolume where
  bits := fun _ => false
  emptyBits := fun _ => 32768
  freeClusters := 65536
  dirtyClusters := 0
  nrClusters := 65536
  iSize := 8192
  mftLcn := 0
  mftZoneStart := 0
  mftZoneEnd := 0
  mftZonePos := 0
  data1ZonePos := 0
  data2ZonePos := 0
  errors := false

/-- The second page cannot be read, and then the first one cannot be read again. -/
def bothPagesFail : RunFaults where
  forward := fun k => if k = 1 then some codeIo else none
  back := fun _ => some codeIo

/-- The run is not turned back. -/
theorem bitmap_run_left_behind : (∀ i, 0 ≤ i → i < 0 + 40000 → twoBitmapPages.bits i = !true) ∧
    (twoBitmapPages.setBitsInRun 0 40000 true bothPagesFail).2 = some codeIo ∧
    (twoBitmapPages.setBitsInRun 0 40000 true bothPagesFail).1.bits 0 = true ∧
    ¬ (twoBitmapPages.setBitsInRun 0 40000 true bothPagesFail).1 = twoBitmapPages := by
  have failed : (twoBitmapPages.setBitsInRun 0 40000 true bothPagesFail).2 = some codeIo := by decide +kernel
  have set : (twoBitmapPages.setBitsInRun 0 40000 true bothPagesFail).1.bits 0 = true := by decide +kernel
  refine ⟨fun _ _ _ => rfl, failed, set, fun same => ?_⟩
  rw [same] at set
  cases set

end InRun

end Ttntfs.Ntfs
