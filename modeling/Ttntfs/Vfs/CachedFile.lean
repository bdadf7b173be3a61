import Ttntfs.Ntfs.HolePunch

/-!
# A file and its cached pages

The bytes of a stream that is not resident are on the device where its run list maps them,
and zero in holes and behind the initialized size. Some of them are in cached pages as
well, and a page may be dirty. A reader sees a cached page where there is one. As long as
clean pages agree with the device, and dirty ones are zero where nothing can be written,
the pages can be written and dropped without a difference for a reader. Compressed and
encrypted streams and transfers that fail stay outside.
-/

namespace Ttntfs.Vfs

open Ttntfs.Ntfs

/-- `PAGE_SIZE` -/
def pageLength : Nat := 4096

/-- A folio of the page cache. -/
structure CachedPage where
  bytes : Nat → UInt8
  dirty : Bool

/-- A stream that is not resident and not compressed, with its cached pages and the
device. -/
structure CachedFile where
  clusterBits : Nat
  size : Nat
  initializedSize : Nat
  rl : List RunlistElement
  device : Nat → UInt8
  cache : Nat → Option CachedPage

namespace CachedFile

/-- The cluster size of the volume. -/
def clusterLength (f : CachedFile) : Nat := 2 ^ f.clusterBits

/-- Where a byte of the stream is on the device. -/
def address (f : CachedFile) (b : Nat) : Option Nat :=
  let lcn := ntfsRlVcnToLcn f.rl (b / f.clusterLength)
  if 0 ≤ lcn then some (lcn.toNat * f.clusterLength + b % f.clusterLength) else none

/-- The end of the bytes that are read from the device. -/
def limit (f : CachedFile) : Nat := min f.initializedSize f.size

/-- A byte as `ntfs_read_folio_non_resident` and `ntfs_vfs_direct_read` read it. -/
def diskByte (f : CachedFile) (b : Nat) : UInt8 :=
  if b < f.limit then (f.address b).elim 0 f.device else 0

/-- A byte as a reader sees it. -/
def visible (f : CachedFile) (b : Nat) : UInt8 :=
  match f.cache (b / pageLength) with
  | some page => page.bytes (b % pageLength)
  | none => f.diskByte b

/-- `read_mapping_folio`: the cached page, or one that is read. -/
def folioAt (f : CachedFile) (index : Nat) : CachedPage :=
  (f.cache index).getD ⟨fun o => f.diskByte (index * pageLength + o), false⟩

/-- A page is put into the cache. -/
def putPage (f : CachedFile) (index : Nat) (page : CachedPage) : CachedFile :=
  { f with cache := Function.update f.cache index (some page) }

/-- The bytes of a range are written where the run list maps them; those of holes are left
out. -/
def storeBytes (f : CachedFile) (pos count : Nat) (value : Nat → UInt8) : CachedFile :=
  { f with
    device := (List.range count).foldl (fun device i =>
      match f.address (pos + i) with
      | some a => Function.update device a (value i)
      | none => device) f.device }

/-- `ntfs_write_folio_non_resident`, for a page that is dirty. -/
def writePage (f : CachedFile) (index : Nat) : CachedFile :=
  match f.cache index with
  | some page =>
    if page.dirty then
      (f.storeBytes (index * pageLength) pageLength page.bytes).putPage index
        { page with dirty := false }
    else f
  | none => f

/-- `filemap_write_and_wait_range` -/
def writePages (f : CachedFile) (first count : Nat) : CachedFile :=
  (List.range' first count).foldl writePage f

/-- `invalidate_inode_pages2_range` -/
def dropPages (f : CachedFile) (first count : Nat) : CachedFile :=
  { f with cache := fun index =>
    if first ≤ index ∧ index < first + count then none else f.cache index }

/-- `truncate_pagecache` at the beginning of a page. -/
def dropFrom (f : CachedFile) (first : Nat) : CachedFile :=
  { f with cache := fun index => if first ≤ index then none else f.cache index }

/-- A part of a page is changed in the cache. -/
def editPage (f : CachedFile) (pos count : Nat) (value : Nat → UInt8) : CachedFile :=
  let page := f.folioAt (pos / pageLength)
  let off := pos % pageLength
  f.putPage (pos / pageLength)
    ⟨fun o => if off ≤ o ∧ o < off + count then value (o - off) else page.bytes o, true⟩

/-- Whole pages are zeroed on the device. -/
def zeroPages (f : CachedFile) (pos count : Nat) : CachedFile :=
  let first := pos / pageLength
  ((f.writePages first (count / pageLength)).dropPages first (count / pageLength)).storeBytes pos
    count fun _ => 0

/-- `ntfs_vfs_zero_range` from one offset to another. -/
def ntfsVfsZeroRange (f : CachedFile) (pos stop : Nat) : CachedFile :=
  if pos < stop then
    let off := pos % pageLength
    if off ≠ 0 ∨ stop - pos < pageLength then
      let n := min (pageLength - off) (stop - pos)
      ntfsVfsZeroRange (f.editPage pos n fun _ => 0) (pos + n) stop
    else
      let n := (stop - pos) / pageLength * pageLength
      ntfsVfsZeroRange (f.zeroPages pos n) (pos + n) stop
  else f
termination_by stop - pos
decreasing_by
  all_goals
    simp only [pageLength] at *
    omega

/-- A cached page agrees with the device where it is clean, and is zero where it is dirty
but nothing can be written. -/
def PageAgrees (f : CachedFile) (index : Nat) (page : CachedPage) : Prop :=
  ∀ o < pageLength, index * pageLength + o < f.size →
    (page.dirty = false → page.bytes o = f.diskByte (index * pageLength + o)) ∧
      (page.dirty = true → f.address (index * pageLength + o) = none ∨
        f.limit ≤ index * pageLength + o →
        page.bytes o = 0)

/-- A run list that follows from the first cluster on and covers the size, in which no
cluster stands twice, and pages that agree. -/
structure Valid (f : CachedFile) : Prop where
  follow : RlFrom 0 f.rl
  once : MapsOnce f.rl
  covered : f.size ≤ rlClusters f.rl * f.clusterLength
  agree : ∀ index page, f.cache index = some page → f.PageAgrees index page

/-- Only the device and the cache differ. -/
structure SameLayout (f f' : CachedFile) : Prop where
  clusterBits : f'.clusterBits = f.clusterBits
  size : f'.size = f.size
  initializedSize : f'.initializedSize = f.initializedSize
  rl : f'.rl = f.rl

section Layout

variable {f f' f'' : CachedFile}

theorem SameLayout.refl (f : CachedFile) : SameLayout f f := ⟨rfl, rfl, rfl, rfl⟩

theorem SameLayout.trans (first : SameLayout f f') (second : SameLayout f' f'') :
    SameLayout f f'' :=
  ⟨second.clusterBits.trans first.clusterBits, second.size.trans first.size,
    second.initializedSize.trans first.initializedSize, second.rl.trans first.rl⟩

theorem SameLayout.limit (same : SameLayout f f') : f'.limit = f.limit := by
  rw [CachedFile.limit, CachedFile.limit, same.size, same.initializedSize]

theorem SameLayout.address (same : SameLayout f f') (b : Nat) : f'.address b = f.address b := by
  simp only [CachedFile.address, clusterLength, same.clusterBits, same.rl]
  rfl

theorem clusterLength_pos (f : CachedFile) : 0 < f.clusterLength := Nat.two_pow_pos _

end Layout

section Device

variable {f : CachedFile} {pos count b : Nat} {value : Nat → UInt8}

/-- A byte without a cluster, or behind the limit, reads as zero from disk. -/
theorem diskByte_unstored (unstored : f.address b = none ∨ f.limit ≤ b) : f.diskByte b = 0 := by
  rw [diskByte]
  rcases unstored with hole | behind
  · simp [hole]
  · rw [if_neg (by omega)]

/-- No two bytes are at one place. -/
theorem address_inj (once : MapsOnce f.rl) {b b' a : Nat} (here : f.address b = some a)
    (there : f.address b' = some a) : b = b' := by
  have size := f.clusterLength_pos
  simp only [address] at here there
  split at here
  · rename_i real
    split at there
    · rename_i real'
      have same : (ntfsRlVcnToLcn f.rl (b / f.clusterLength)).toNat * f.clusterLength +
        b % f.clusterLength =
          (ntfsRlVcnToLcn f.rl (b' / f.clusterLength)).toNat * f.clusterLength +
            b' % f.clusterLength := by
        rw [Option.some.inj here, Option.some.inj there]
      have offset : b % f.clusterLength = b' % f.clusterLength := by
        have := congrArg (· % f.clusterLength) same
        simpa [Nat.mul_add_mod_self_right, Nat.add_mod, Nat.mul_mod] using this
      have cluster : (ntfsRlVcnToLcn f.rl (b / f.clusterLength)).toNat =
          (ntfsRlVcnToLcn f.rl (b' / f.clusterLength)).toNat := by
        rw [offset] at same
        exact Nat.eq_of_mul_eq_mul_right size (Nat.add_right_cancel same)
      have vcn := once (b / f.clusterLength) (b' / f.clusterLength) real (by omega)
      rw [← Nat.div_add_mod b f.clusterLength, ← Nat.div_add_mod b' f.clusterLength, vcn, offset]
    · cases there
  · cases here

theorem storeBytes_cache : (f.storeBytes pos count value).cache = f.cache := rfl

theorem storeBytes_layout : SameLayout f (f.storeBytes pos count value) := ⟨rfl, rfl, rfl, rfl⟩

/-- What the device has at the place of a byte after a range has been written. -/
theorem storeBytes_device (once : MapsOnce f.rl) {a : Nat} (mapped : f.address b = some a) :
    (f.storeBytes pos count value).device a =
      if pos ≤ b ∧ b < pos + count then value (b - pos) else f.device a := by
  induction count with
  | zero => simp [storeBytes]
  | succ count ih =>
    simp only [storeBytes, List.range_succ, List.foldl_append, List.foldl_cons,
      List.foldl_nil] at ih ⊢
    cases next : f.address (pos + count) with
    | none =>
      have other : b ≠ pos + count := by
        rintro rfl
        simp [next] at mapped
      simp only [ih]
      by_cases inside : pos ≤ b ∧ b < pos + count
      · rw [if_pos inside, if_pos (by omega)]
      · rw [if_neg inside, if_neg (by omega)]
    | some a' =>
      by_cases here : b = pos + count
      · subst here
        cases mapped.symm.trans next
        simp
      · have apart : a ≠ a' := by
          rintro rfl
          exact here (address_inj once mapped next)
        simp only [Function.update_of_ne apart, ih]
        by_cases inside : pos ≤ b ∧ b < pos + count
        · rw [if_pos inside, if_pos (by omega)]
        · rw [if_neg inside, if_neg (by omega)]

theorem storeBytes_diskByte (once : MapsOnce f.rl) :
    (f.storeBytes pos count value).diskByte b =
      if pos ≤ b ∧ b < pos + count ∧ b < f.limit ∧ (f.address b).isSome then value
        (b - pos) else f.diskByte b := by
  rw [diskByte, diskByte, storeBytes_layout.limit, storeBytes_layout.address]
  by_cases inside : b < f.limit
  · rw [if_pos inside, if_pos inside]
    cases mapped : f.address b with
    | none => simp
    | some a =>
      simp only [Option.elim_some, storeBytes_device once mapped, inside,
        Option.isSome_some, and_true]
  · rw [if_neg inside, if_neg inside, if_neg (by omega)]

end Device

/-- The pages of the cache agree with the device. -/
def Agree (f : CachedFile) : Prop :=
  ∀ index page, f.cache index = some page → f.PageAgrees index page

/-- A step changes the device and the cache only, the pages agree after it, and it is known
what a reader sees then. -/
structure Shows (f f' : CachedFile) (shown : Nat → UInt8) : Prop where
  layout : SameLayout f f'
  agree : f'.Agree
  shown : ∀ b < f.size, f'.visible b = shown b

section Pages

variable {f f' f'' : CachedFile} {index pos count b : Nat} {value shown : Nat → UInt8}
  {page : CachedPage}

theorem Shows.trans {g : Nat → UInt8} (first : Shows f f' shown) (second : Shows f' f'' g) :
    Shows f f'' g :=
  ⟨first.layout.trans second.layout, second.agree, fun b inside =>
    second.shown b (by rw [first.layout.size]; exact inside)⟩

theorem Shows.congr {g : Nat → UInt8} (shows_ : Shows f f' shown)
    (same : ∀ b < f.size, shown b = g b) : Shows f f' g :=
  ⟨shows_.layout, shows_.agree, fun b inside => (shows_.shown b inside).trans (same b inside)⟩

theorem folioAt_bytes (f : CachedFile) (b : Nat) :
    (f.folioAt (b / pageLength)).bytes (b % pageLength) = f.visible b := by
  rw [folioAt, visible]
  cases f.cache (b / pageLength) with
  | some page => rfl
  | none => simp [Nat.div_add_mod']

theorem putPage_layout : SameLayout f (f.putPage index page) := ⟨rfl, rfl, rfl, rfl⟩

theorem putPage_visible : (f.putPage index page).visible b =
    if b / pageLength = index then page.bytes (b % pageLength) else f.visible b := by
  rw [visible, putPage]
  by_cases here : b / pageLength = index
  · simp [here]
  · simp only [Function.update_of_ne here, if_neg here]
    rfl

theorem putPage_agree (agree : f.Agree) (same : f.PageAgrees index page) :
    (f.putPage index page).Agree := by
  intro other found cached
  simp only [putPage] at cached
  by_cases here : other = index
  · subst here
    rw [Function.update_self] at cached
    cases cached
    exact same
  · rw [Function.update_of_ne here] at cached
    exact agree other found cached

theorem storeBytes_agree (once : MapsOnce f.rl) (agree : f.Agree)
    (apart : ∀ index page, f.cache index = some page → page.dirty = false → ∀ o < pageLength,
      ¬ (pos ≤ index * pageLength + o ∧ index * pageLength + o < pos + count)) :
    (f.storeBytes pos count value).Agree := by
  intro index page cached o inside within
  have same := (agree index page cached) o inside within
  rw [storeBytes_layout.limit, storeBytes_layout.address]
  refine ⟨fun clean => ?_, same.2⟩
  have outside := apart index page cached clean o inside
  rw [storeBytes_diskByte once, if_neg (fun range => outside ⟨range.1, range.2.1⟩)]
  exact same.1 clean

/-- A page that is written is clean, and no reader sees a difference. -/
theorem writePage_shows (once : MapsOnce f.rl) (agree : f.Agree) (index : Nat) :
    Shows f (f.writePage index) f.visible := by
  rw [writePage]
  cases cached : f.cache index with
  | none => exact ⟨.refl f, agree, fun _ _ => rfl⟩
  | some page =>
    dsimp only
    by_cases dirty : page.dirty = true
    · rw [if_pos dirty]
      have stored : (f.storeBytes (index * pageLength) pageLength page.bytes).Agree := by
        refine storeBytes_agree once agree fun other found cachedOther clean o inside range => ?_
        have here : other = index := by
          simp only [pageLength] at inside range
          omega
        subst here
        cases cached.symm.trans cachedOther
        simp [dirty] at clean
      refine ⟨storeBytes_layout.trans putPage_layout, putPage_agree stored ?_, ?_⟩
      · intro o inside within
        rw [storeBytes_layout.size] at within
        refine ⟨fun _ => ?_, fun impossible => by cases impossible⟩
        have zero := ((agree index page cached) o inside within).2 dirty
        have place : index * pageLength + o - index * pageLength = o := by omega
        change page.bytes o = (f.storeBytes (index * pageLength) pageLength page.bytes).diskByte _
        rw [storeBytes_diskByte once, place]
        split
        · rfl
        rename_i outside
        -- nothing is written here, because nothing is stored here
        have unstored : f.address (index * pageLength + o) = none ∨
            f.limit ≤ index * pageLength + o := by
          by_cases behind : f.limit ≤ index * pageLength + o
          · exact .inr behind
          · refine .inl (Option.not_isSome_iff_eq_none.mp fun mapped =>
              outside ⟨?_, ?_, ?_, mapped⟩) <;> omega
        rw [zero unstored, diskByte_unstored unstored]
      · intro b inside
        rw [putPage_visible]
        split
        · rename_i here
          rw [visible, here, cached]
        rename_i other
        have same : (f.storeBytes (index * pageLength) pageLength page.bytes).diskByte b =
            f.diskByte b := by
          rw [storeBytes_diskByte once, if_neg]
          simp only [pageLength] at other ⊢
          omega
        rw [visible, visible, same]
        rfl
    · rw [if_neg dirty]
      exact ⟨.refl f, agree, fun _ _ => rfl⟩

/-- Writing a page leaves it in the cache, clean, and the others as they are. -/
theorem writePage_cache (f : CachedFile) (index other : Nat) :
    (f.writePage index).cache other =
      if other = index then (f.cache index).map fun page =>
        { page with dirty := false } else f.cache other := by
  rw [writePage]
  cases cached : f.cache index with
  | none =>
    by_cases here : other = index
    · simp [here, cached]
    · rw [if_neg here]
  | some page =>
    dsimp only
    by_cases dirty : page.dirty = true
    · rw [if_pos dirty, putPage]
      by_cases here : other = index
      · simp [here]
      · rw [if_neg here]
        exact Function.update_of_ne here _ _
    · rw [if_neg dirty]
      by_cases here : other = index
      · have same : { page with dirty := false } = page := by
          cases page
          simp_all
        rw [if_pos here, here, cached, Option.map_some, same]
      · rw [if_neg here]

theorem writePages_succ (f : CachedFile) (first count : Nat) :
    f.writePages first (count + 1) = (f.writePage first).writePages (first + 1) count := by
  rw [writePages, writePages, List.range'_succ, List.foldl_cons]

theorem writePages_cache (f : CachedFile) (first count other : Nat) :
    (f.writePages first count).cache other =
    if first ≤ other ∧ other < first + count then (f.cache other).map fun page =>
      { page with dirty := false }
    else f.cache other := by
  induction count generalizing f first with
  | zero =>
    rw [if_neg (by omega)]
    rfl
  | succ count ih =>
    rw [writePages_succ, ih, writePage_cache]
    by_cases here : other = first
    · subst here
      rw [if_neg (by omega), if_pos rfl, if_pos (by omega)]
    · rw [if_neg here]
      by_cases inside : first + 1 ≤ other ∧ other < first + 1 + count
      · rw [if_pos inside, if_pos (by omega)]
      · rw [if_neg inside, if_neg (by omega)]

theorem writePages_shows (once : MapsOnce f.rl) (agree : f.Agree) (first count : Nat) :
    Shows f (f.writePages first count) f.visible := by
  induction count generalizing f first with
  | zero => exact ⟨.refl f, agree, fun _ _ => rfl⟩
  | succ count ih =>
    have one := writePage_shows once agree first
    have rest := @ih (f.writePage first) (by rw [one.layout.rl]; exact once) one.agree (first + 1)
    rw [writePages_succ]
    exact (one.trans rest).congr fun b inside => one.shown b inside

theorem writePages_clean {first count : Nat} {page : CachedPage}
    (inside : first ≤ index ∧ index < first + count)
    (cached : (f.writePages first count).cache index = some page) : page.dirty = false := by
  rw [writePages_cache, if_pos inside] at cached
  cases before : f.cache index with
  | none => simp [before] at cached
  | some old =>
    rw [before, Option.map_some] at cached
    rw [← Option.some.inj cached]

/-- Clean pages can go. -/
theorem drop_shows {dropped : Nat → Prop} [DecidablePred dropped] (agree : f.Agree)
    (clean : ∀ index page, dropped index → index * pageLength < f.size → f.cache index = some page →
      page.dirty = false) :
    Shows f { f with cache := fun index => if dropped index then none else f.cache index }
      f.visible := by
  refine ⟨⟨rfl, rfl, rfl, rfl⟩, ?_, ?_⟩
  · intro index page cached
    dsimp only at cached
    split at cached
    · cases cached
    · exact agree index page cached
  · intro b inside
    rw [visible, visible]
    dsimp only
    by_cases gone : dropped (b / pageLength)
    · rw [if_pos gone]
      cases cached : f.cache (b / pageLength) with
      | none => rfl
      | some page =>
        have place : b / pageLength * pageLength + b % pageLength = b :=
          Nat.div_add_mod' b pageLength
        have same := (agree _ page cached) (b % pageLength) (Nat.mod_lt _ (by decide))
          (by rw [place]; exact inside)
        dsimp only
        rw [same.1 (clean _ page gone
          (lt_of_le_of_lt (Nat.div_mul_le_self _ _) inside) cached), place]
        rfl
    · rw [if_neg gone]
      rfl

/-- A part of a page that is zeroed in the cache. -/
theorem editPage_zero (agree : f.Agree) (within : pos % pageLength + count ≤ pageLength) :
    Shows f (f.editPage pos count fun _ => 0) fun b =>
      if pos ≤ b ∧ b < pos + count then 0 else f.visible b := by
  refine ⟨putPage_layout, putPage_agree agree ?_, fun b inside => ?_⟩
  · intro o inside stored
    refine ⟨(fun impossible => by cases impossible), fun _ unstored => ?_⟩
    dsimp only
    split
    · rfl
    rw [folioAt]
    cases cached : f.cache (pos / pageLength) with
    | none =>
      exact diskByte_unstored unstored
    | some page =>
      have same := (agree _ page cached) o inside stored
      cases dirty : page.dirty with
      | true => exact same.2 dirty unstored
      | false =>
        rw [Option.getD_some, same.1 dirty, diskByte_unstored unstored]
  · rw [editPage, putPage_visible]
    dsimp only
    have place : pos / pageLength * pageLength + pos % pageLength = pos :=
      Nat.div_add_mod' pos pageLength
    have placeB : b / pageLength * pageLength + b % pageLength = b := Nat.div_add_mod' b pageLength
    have inPage : b % pageLength < pageLength := Nat.mod_lt _ (by decide)
    by_cases here : b / pageLength = pos / pageLength
    · rw [if_pos here, ← here, folioAt_bytes]
      rw [← here] at place
      by_cases range : pos ≤ b ∧ b < pos + count
      · rw [if_pos range, if_pos (by omega)]
      · rw [if_neg range, if_neg (by omega)]
    · rw [if_neg here, if_neg]
      simp only [pageLength] at here within ⊢
      omega

theorem zeroPages_cache (other : Nat) :
    (f.zeroPages pos count).cache other =
      if pos / pageLength ≤ other ∧
        other < pos / pageLength + count / pageLength then none else f.cache other := by
  simp only [zeroPages, storeBytes, dropPages]
  split
  · rfl
  · rename_i outside
    rw [writePages_cache, if_neg outside]

/-- Whole pages that are zeroed on the device. -/
theorem zeroPages_shows (once : MapsOnce f.rl) (agree : f.Agree) (aligned : pos % pageLength = 0)
    (whole : count % pageLength = 0) :
    Shows f (f.zeroPages pos count) fun b =>
      if pos ≤ b ∧ b < pos + count then 0 else f.visible b := by
  have written := writePages_shows once agree (pos / pageLength) (count / pageLength)
  have dropped : Shows _
    ((f.writePages (pos / pageLength) (count / pageLength)).dropPages (pos / pageLength)
      (count / pageLength)) _ :=
    drop_shows written.agree fun index page inside _ => writePages_clean inside
  have pages := written.trans dropped
  have onceAfter : MapsOnce
    ((f.writePages (pos / pageLength) (count / pageLength)).dropPages (pos / pageLength)
      (count / pageLength)).rl := by
    rw [pages.layout.rl]
    exact once
  have empty : ∀ index, pos / pageLength ≤ index → index < pos / pageLength + count / pageLength →
      ((f.writePages (pos / pageLength) (count / pageLength)).dropPages (pos / pageLength)
        (count / pageLength)).cache index = none := by
    intro index lower upper
    simp [dropPages, lower, upper]
  refine ⟨pages.layout.trans storeBytes_layout, storeBytes_agree onceAfter pages.agree ?_,
    fun b inside => ?_⟩
  · intro index page cached _ o inPage range
    have gone := empty index (by simp only [pageLength] at *; omega)
      (by simp only [pageLength] at *; omega)
    simp [gone] at cached
  · rw [visible]
    by_cases range : pos ≤ b ∧ b < pos + count
    · have gone : (f.zeroPages pos count).cache (b / pageLength) = none :=
        empty (b / pageLength) (Nat.div_le_div_right range.1)
          (by simp only [pageLength] at *; omega)
      rw [if_pos range, gone]
      dsimp only
      rw [zeroPages, storeBytes_diskByte onceAfter]
      split
      · rfl
      · rename_i outside
        refine diskByte_unstored ?_
        by_contra stored
        rw [not_or, not_le] at stored
        exact outside ⟨range.1, range.2, stored.2, Option.isSome_iff_ne_none.mpr stored.1⟩
    · have disk : (f.zeroPages pos count).diskByte b = _ :=
        (storeBytes_diskByte onceAfter).trans (if_neg fun inside => range ⟨inside.1, inside.2.1⟩)
      rw [if_neg range, disk]
      exact (pages.shown b inside).trans (written.shown b inside)

/-- A range that is zeroed. -/
theorem zeroRange_shows (once : MapsOnce f.rl) (agree : f.Agree) (pos stop : Nat) :
    Shows f (f.ntfsVfsZeroRange pos stop) fun b =>
      if pos ≤ b ∧ b < stop then 0 else f.visible b := by
  have small : 0 < pageLength := by decide
  fun_induction ntfsVfsZeroRange f pos stop with
  | case1 f pos more off shape n ih =>
    -- a part of a page
    have inPage : off < pageLength := Nat.mod_lt _ small
    have within : off + n ≤ pageLength := by omega
    have first := @editPage_zero f pos n agree within
    have rest := ih once first.agree
    refine (first.trans rest).congr fun b inside => ?_
    rw [first.shown b inside]
    by_cases behind : pos + n ≤ b ∧ b < stop
    · rw [if_pos behind, if_pos (by omega)]
    · rw [if_neg behind]
      by_cases here : pos ≤ b ∧ b < pos + n
      · rw [if_pos here, if_pos (by omega)]
      · rw [if_neg here, if_neg (by omega)]
  | case2 f pos more off shape n ih =>
    -- whole pages
    rw [not_or, not_not, not_lt] at shape
    have whole : n % pageLength = 0 := Nat.mul_mod_left _ _
    have below : n ≤ stop - pos := Nat.div_mul_le_self _ _
    have first := @zeroPages_shows f pos n once agree shape.1 whole
    have rest := ih (by rw [first.layout.rl]; exact once) first.agree
    refine (first.trans rest).congr fun b inside => ?_
    rw [first.shown b inside]
    by_cases behind : pos + n ≤ b ∧ b < stop
    · rw [if_pos behind, if_pos (by omega)]
    · rw [if_neg behind]
      by_cases here : pos ≤ b ∧ b < pos + n
      · rw [if_pos here, if_pos (by omega)]
      · rw [if_neg here, if_neg (by omega)]
  | case3 f pos done =>
    refine ⟨.refl f, agree, fun b _ => ?_⟩
    rw [if_neg (by omega)]

/-- The pages that are cached when a range has been zeroed: they were, or they have a byte of the
range or before it on the same page. -/
theorem zeroRange_cached (once : MapsOnce f.rl) (agree : f.Agree) (pos stop : Nat)
    (cached : ((f.ntfsVfsZeroRange pos stop).cache index).isSome = true) :
    (f.cache index).isSome = true ∨ (pos / pageLength ≤ index ∧ index * pageLength < stop) := by
  have small : 0 < pageLength := by decide
  fun_induction ntfsVfsZeroRange f pos stop with
  | case1 f pos more off shape n ih =>
    have first := @editPage_zero f pos n agree (by have := Nat.mod_lt pos small; omega)
    rcases ih once first.agree cached with before | ⟨lower, upper⟩
    · rw [editPage, putPage] at before
      dsimp only at before
      by_cases here : index = pos / pageLength
      · subst here
        exact .inr ⟨Nat.le_refl _, lt_of_le_of_lt (Nat.div_mul_le_self _ _) more⟩
      · rw [Function.update_of_ne here] at before
        exact .inl before
    · exact .inr ⟨(Nat.div_le_div_right (Nat.le_add_right _ _)).trans lower, upper⟩
  | case2 f pos more off shape n ih =>
    rw [not_or, not_not, not_lt] at shape
    have first := @zeroPages_shows f pos n once agree shape.1 (Nat.mul_mod_left _ _)
    rcases ih (by rw [first.layout.rl]; exact once) first.agree cached with before | ⟨lower, upper⟩
    · rw [zeroPages_cache] at before
      split at before
      · cases before
      · exact .inl before
    · exact .inr ⟨(Nat.div_le_div_right (Nat.le_add_right _ _)).trans lower, upper⟩
  | case3 f pos done => exact .inl cached

theorem zeroRange_within {stop : Nat} (some_byte : pos < stop) (part : stop - pos < pageLength)
    (within : pos % pageLength + (stop - pos) ≤ pageLength) :
    f.ntfsVfsZeroRange pos stop = f.editPage pos (stop - pos) fun _ => 0 := by
  have count : min (pageLength - pos % pageLength) (stop - pos) = stop - pos := by omega
  rw [ntfsVfsZeroRange, if_pos some_byte]
  dsimp only
  rw [if_pos (.inr part), count, Nat.add_sub_cancel' some_byte.le, ntfsVfsZeroRange,
    if_neg (Nat.lt_irrefl _)]

theorem editPage_cached : ((f.editPage pos count value).cache index).isSome = true ↔
    index = pos / pageLength ∨ (f.cache index).isSome = true := by
  rw [editPage, putPage]
  dsimp only
  by_cases here : index = pos / pageLength
  · simp [here]
  · simp [here]

theorem zeroRange_keeps {stop : Nat} (before : index * pageLength < pos)
    (cached : (f.cache index).isSome = true) :
    ((f.ntfsVfsZeroRange pos stop).cache index).isSome = true := by
  have small : 0 < pageLength := by decide
  fun_induction ntfsVfsZeroRange f pos stop with
  | case1 f pos more off shape n ih =>
    exact ih (before.trans_le (Nat.le_add_right _ _)) (editPage_cached.mpr (.inr cached))
  | case2 f pos more off shape n ih =>
    rw [not_or, not_not, not_lt] at shape
    refine ih (before.trans_le (Nat.le_add_right _ _)) ?_
    have earlier : index < pos / pageLength :=
      (Nat.lt_div_iff_mul_lt' (Nat.dvd_of_mod_eq_zero shape.1) _).mpr (by
      rw [Nat.mul_comm]
      exact before)
    rw [zeroPages_cache, if_neg (by omega)]
    exact cached
  | case3 f pos done => exact cached

theorem visible_behind (agree : f.Agree) (inside : b < f.size) (behind : f.limit ≤ b) :
    f.visible b = 0 := by
  have unstored : f.diskByte b = 0 := diskByte_unstored (.inr behind)
  rw [visible]
  cases cached : f.cache (b / pageLength) with
  | none => exact unstored
  | some page =>
    have place : b / pageLength * pageLength + b % pageLength = b := Nat.div_add_mod' b pageLength
    have same := agree _ page cached (b % pageLength) (Nat.mod_lt _ (by decide))
      (by rw [place]; exact inside)
    rw [place] at same
    cases dirty : page.dirty with
    | false => exact (same.1 dirty).trans unstored
    | true => exact same.2 dirty (.inr behind)

theorem writePage_rl : (f.writePage index).rl = f.rl := by
  rw [writePage]
  cases f.cache index with
  | none => rfl
  | some page =>
    dsimp only
    split
    · exact putPage_layout.rl.trans storeBytes_layout.rl
    · rfl

/-- A byte as the device has it once the dirty pages are written. -/
def flushedByte (f : CachedFile) (b : Nat) : UInt8 :=
  match f.cache (b / pageLength) with
  | some page =>
    if page.dirty = true ∧ b < f.limit ∧ (f.address b).isSome = true then page.bytes
      (b % pageLength) else f.diskByte b
  | none => f.diskByte b

theorem putPage_flushed (clean : page.dirty = false) : (f.putPage index page).flushedByte b =
    if b / pageLength = index then f.diskByte b else f.flushedByte b := by
  rw [flushedByte, putPage]
  by_cases here : b / pageLength = index
  · simp only [here, Function.update_self, clean, Bool.false_eq_true, false_and, if_false, if_true]
    rfl
  · simp only [Function.update_of_ne here, if_neg here]
    rfl

/-- Writing a page brings the device nearer to what it has in the end. -/
theorem writePage_flushed (once : MapsOnce f.rl) (index b : Nat) :
    (f.writePage index).flushedByte b = f.flushedByte b := by
  rw [writePage]
  cases cached : f.cache index with
  | none => rfl
  | some page =>
    dsimp only
    by_cases dirty : page.dirty = true
    · rw [if_pos dirty, putPage_flushed rfl, storeBytes_diskByte once]
      by_cases here : b / pageLength = index
      · have place : index * pageLength ≤ b ∧ b < index * pageLength + pageLength := by
          simp only [pageLength] at here ⊢
          omega
        have offset : b - index * pageLength = b % pageLength := by
          simp only [pageLength] at here ⊢
          omega
        rw [if_pos here, flushedByte, here, cached]
        simp only [place.1, place.2, true_and, dirty, offset]
      · have outside : ¬ (index * pageLength ≤ b ∧
          b < index * pageLength + pageLength ∧ b < f.limit ∧
            (f.address b).isSome = true) := by
          simp only [pageLength] at here ⊢
          omega
        have same : (f.storeBytes (index * pageLength) pageLength page.bytes).diskByte
            b = f.diskByte b :=
          (storeBytes_diskByte once).trans (if_neg outside)
        rw [if_neg here, flushedByte, flushedByte, same, storeBytes_cache, storeBytes_layout.limit,
          storeBytes_layout.address]
    · rw [if_neg dirty]

theorem writePages_disk {first count : Nat} (once : MapsOnce f.rl)
    (covered : first ≤ b / pageLength ∧ b / pageLength < first + count) :
    (f.writePages first count).diskByte b = f.flushedByte b := by
  have flushed : ∀ g : CachedFile, MapsOnce g.rl →
      ∀ first, (g.writePages first count).flushedByte b = g.flushedByte b := by
    clear covered once
    induction count with
    | zero => exact fun _ _ _ => rfl
    | succ count ih =>
      intro g once first
      rw [writePages_succ, ih _ (by rw [writePage_rl]; exact once), writePage_flushed once]
  rw [← flushed f once first, flushedByte]
  cases cached : (f.writePages first count).cache (b / pageLength) with
  | none => rfl
  | some page =>
    have clean := writePages_clean covered cached
    simp [clean]

/-- Where the pages agree, writing them stores what a reader sees. -/
theorem flushedByte_visible (agree : f.Agree) (inside : b < f.size) :
    f.flushedByte b = f.visible b := by
  rw [flushedByte, visible]
  cases cached : f.cache (b / pageLength) with
  | none => rfl
  | some page =>
    have place : b / pageLength * pageLength + b % pageLength = b := Nat.div_add_mod' b pageLength
    have same := agree _ page cached (b % pageLength) (Nat.mod_lt _ (by decide))
      (by rw [place]; exact inside)
    rw [place] at same
    dsimp only
    cases dirty : page.dirty with
    | false =>
      rw [if_neg (by simp)]
      exact (same.1 dirty).symm
    | true =>
      by_cases stored : b < f.limit ∧ (f.address b).isSome = true
      · rw [if_pos ⟨rfl, stored⟩]
      · have unstored : f.address b = none ∨ f.limit ≤ b := by
          by_contra both
          rw [not_or, not_le] at both
          exact stored ⟨both.2, Option.isSome_iff_ne_none.mpr both.1⟩
        rw [if_neg fun all => stored all.2, same.2 dirty unstored, diskByte_unstored unstored]

end Pages

end CachedFile

end Ttntfs.Vfs
