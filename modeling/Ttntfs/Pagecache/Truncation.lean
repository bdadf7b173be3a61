import Mathlib.Tactic
import Ttntfs.Pagecache.CachedContents

/-!
# Truncating cached pages

`truncate_inode_pages_range` zeroes the tail of the page in which a range begins and drops
the pages behind it up to the one in which the range ends. It never looks at where in that
page the end is: the bytes behind the end go with the others. It does no more than it
should just when no page reaches across the end of the range.
-/

namespace Ttntfs.Pagecache

namespace CachedMapping

/-- The first page that `truncate_inode_pages_range` drops. -/
def truncateFirst (lstart : Nat) : Nat := (lstart + pageSize - 1) / pageSize

/-- The last page that `truncate_inode_pages_range` drops; none where the source has
`(pgoff_t)-1`. -/
def truncateLast (lend : Int) : Option Nat := if lend < 0 then none else some (lend.toNat / pageSize)

/-- The partial first folio of `truncate_inode_pages_range`: its tail is zeroed. -/
def zeroFirstTail (m : CachedMapping) (lstart : Nat) : CachedMapping :=
  if lstart % pageSize ≠ 0 then
    match m.idxLookup (lstart / pageSize) with
    | some f => m.folioZeroSegment f (lstart % pageSize) pageSize
    | none => m
  else m

/-- What `drop_range` does with a folio when it truncates. No other thread interferes: the
lock is granted, and a write-back that is under way ends. -/
def truncateFolio (m : CachedMapping) (f : Nat) : CachedMapping :=
  (m.modify f fun folio => { folio with writeback := false }).removeLockedCond f false

/-- `drop_range` in the mode in which it truncates; the references that it takes it gives
back. -/
def dropRange (m : CachedMapping) (first : Nat) (last : Option Nat) (room : Nat) : CachedMapping :=
  (m.collectRange first last room).foldl truncateFolio m

/-- `truncate_inode_pages_range` -/
def truncateInodePagesRange (m : CachedMapping) (room lstart : Nat) (lend : Int) : CachedMapping :=
  let first := truncateFirst lstart
  let last := truncateLast lend
  let m := m.zeroFirstTail lstart
  if last.all fun l => decide (first ≤ l) then m.dropRange first last room else m

/-- The cached value of a byte. -/
def cachedByte (m : CachedMapping) (b : Nat) : Option UInt8 :=
  (m.idxLookup (b / pageSize)).map fun f => (m.folio f).data (b % pageSize)

/-- The byte is cached and still has to be written. -/
def dirtyByte (m : CachedMapping) (b : Nat) : Bool :=
  (m.idxLookup (b / pageSize)).any fun f => (m.folio f).dirty

/-- The bytes from `lstart` to `lend`, or all from `lstart` on. -/
def InByteRange (lstart : Nat) (lend : Int) (b : Nat) : Prop := lstart ≤ b ∧ (lend < 0 ∨ (b : Int) ≤ lend)

instance (lstart : Nat) (lend : Int) (b : Nat) : Decidable (InByteRange lstart lend b) :=
  inferInstanceAs (Decidable (_ ∧ _))

/-- Every cached byte outside a range keeps its value and its dirtiness, and no byte of the
range keeps a value but zero. -/
structure TouchesOnlyRange (m m' : CachedMapping) (lstart : Nat) (lend : Int) : Prop where
  outside : ∀ b, ¬ InByteRange lstart lend b → (m.cachedByte b).isSome →
    m'.cachedByte b = m.cachedByte b ∧ m'.dirtyByte b = m.dirtyByte b
  inside : ∀ b, InByteRange lstart lend b → ∀ v, m'.cachedByte b = some v → v = 0

/-- The bytes behind the end of the range in the partial first page are zero. -/
def TailZero (m : CachedMapping) (lstart : Nat) (lend : Int) : Prop :=
  lstart % pageSize ≠ 0 → ∀ f, m.idxLookup (lstart / pageSize) = some f → ∀ o, lstart % pageSize ≤ o → o < pageSize →
    ¬ InByteRange lstart lend (lstart / pageSize * pageSize + o) → (m.folio f).data o = 0

/-- No folio that is dropped reaches across the end of the range. -/
def NoneAcross (m : CachedMapping) (room lstart : Nat) (lend : Int) : Prop :=
  ∀ f ∈ m.collected (truncateFirst lstart) (truncateLast lend) room,
    lend < 0 ∨ (((m.folio f).index + 1) * pageSize : Nat) ≤ lend + 1

/-- The array has room for the folios of the range; those for which it has none are zero. -/
def RoomEnough (m : CachedMapping) (room lstart : Nat) (lend : Int) : Prop :=
  ∀ f ∈ m.table, inRange (truncateFirst lstart) (truncateLast lend) (m.folio f).index →
    f ∉ m.collected (truncateFirst lstart) (truncateLast lend) room →
    ∀ o < pageSize, InByteRange lstart lend ((m.folio f).index * pageSize + o) → (m.folio f).data o = 0

section Dropping

variable {m : CachedMapping} {f g first room start stop index : Nat} {last : Option Nat} {fs : List Nat}

theorem truncateFolio_eq (mapped : (m.folio f).mapped = true) :
    m.truncateFolio f = (m.modify f fun folio => { folio with writeback := false }).removeFolio f := by
  rw [truncateFolio, removeLockedCond]
  simp [mapped]

theorem truncateFolio_folio_of_ne (other : g ≠ f) : (m.truncateFolio f).folio g = m.folio g := by
  rw [truncateFolio, removeLockedCond]
  split
  · exact modify_folio_of_ne other
  · rw [removeFolio_folio, if_neg other, modify_folio_of_ne other]

/-- Dropping folios takes just these out of the table and leaves the others as they are. -/
theorem foldl_truncateFolio (once : m.table.Nodup) (listed : ∀ f ∈ fs, (m.folio f).mapped = true) (distinct : fs.Nodup) :
    (∀ g, g ∈ (fs.foldl truncateFolio m).table ↔ g ∈ m.table ∧ g ∉ fs) ∧
      ∀ g, g ∉ fs → (fs.foldl truncateFolio m).folio g = m.folio g := by
  induction fs generalizing m with
  | nil => simp
  | cons f fs ih =>
    obtain ⟨fresh, others⟩ := List.nodup_cons.mp distinct
    have table : (m.truncateFolio f).table = m.table.erase f := by
      rw [truncateFolio_eq (listed f (by simp)), removeFolio_table, modify_table]
    have kept (g : Nat) (member : g ∈ fs) : (m.truncateFolio f).folio g = m.folio g := by
      apply truncateFolio_folio_of_ne
      rintro rfl
      exact fresh member
    obtain ⟨left, same⟩ := @ih (m.truncateFolio f)
      (by rw [table]; exact once.erase f)
      (fun g member => by rw [kept g member]; exact listed g (by simp [member])) others
    rw [List.foldl_cons]
    constructor
    · intro g
      rw [left, table, once.mem_erase_iff, List.mem_cons]
      tauto
    · intro g outside
      rw [List.mem_cons, not_or] at outside
      rw [same g outside.2, truncateFolio_folio_of_ne outside.1]

theorem mem_collectRange : f ∈ m.collectRange first last room ↔ f ∈ m.collected first last room :=
  (List.perm_insertionSort _ _).mem_iff

theorem collected_sublist : (m.collected first last room).Sublist m.table :=
  (List.take_sublist _ _).trans List.filter_sublist

theorem collected_inRange (listed : f ∈ m.collected first last room) : inRange first last (m.folio f).index = true :=
  (List.mem_filter.mp (List.mem_of_mem_take listed)).2

theorem Valid.dropRange (valid : m.Valid) :
    (∀ g, g ∈ (m.dropRange first last room).table ↔ g ∈ m.table ∧ g ∉ m.collected first last room) ∧
      ∀ g, g ∉ m.collected first last room → (m.dropRange first last room).folio g = m.folio g := by
  have distinct : (m.collectRange first last room).Nodup :=
    (List.perm_insertionSort _ _).nodup_iff.mpr (collected_sublist.nodup valid.once)
  have listed (f : Nat) (member : f ∈ m.collectRange first last room) : (m.folio f).mapped = true :=
    valid.mapped f (collected_sublist.subset (mem_collectRange.mp member))
  have dropped := foldl_truncateFolio valid.once listed distinct
  simp only [mem_collectRange] at dropped
  exact dropped

/-- What is looked up behind a drop. -/
theorem Valid.lookup_dropRange (valid : m.Valid) : (m.dropRange first last room).idxLookup index = some f ↔
    m.idxLookup index = some f ∧ f ∉ m.collected first last room := by
  obtain ⟨left, same⟩ := @Valid.dropRange m first room last valid
  have lookup : (m.dropRange first last room).idxLookup index = some f ↔
      f ∈ (m.dropRange first last room).table ∧ ((m.dropRange first last room).folio f).index = index := by
    constructor
    · intro found
      exact ⟨List.mem_of_find?_eq_some found, by simpa using List.find?_some found⟩
    rintro ⟨listed, place⟩
    cases found : (m.dropRange first last room).idxLookup index with
    | none => exact absurd place (idxLookup_none.mp found f listed)
    | some g =>
      have otherListed := (left g).mp (List.mem_of_find?_eq_some found)
      have otherPlace : ((m.dropRange first last room).folio g).index = index := by
        simpa using List.find?_some found
      have member := (left f).mp listed
      rw [same f member.2] at place
      rw [same g otherListed.2] at otherPlace
      rw [valid.sameIndex f member.1 g otherListed.1 (place.trans otherPlace.symm)]
  rw [lookup, left, valid.lookup_iff]
  constructor
  · rintro ⟨⟨listed, kept⟩, place⟩
    rw [same f kept] at place
    exact ⟨⟨listed, place⟩, kept⟩
  · rintro ⟨⟨listed, place⟩, kept⟩
    rw [same f kept]
    exact ⟨⟨listed, kept⟩, place⟩

end Dropping

section Bytes

variable {m : CachedMapping} {f room lstart b o index : Nat} {lend : Int}

/-- The byte is in the tail of the first page, which is zeroed. -/
def InFirstTail (lstart b : Nat) : Prop :=
  lstart % pageSize ≠ 0 ∧ b / pageSize = lstart / pageSize ∧ lstart % pageSize ≤ b % pageSize

instance (lstart b : Nat) : Decidable (InFirstTail lstart b) := inferInstanceAs (Decidable (_ ∧ _))

theorem zeroFirstTail_folio (m : CachedMapping) (lstart f : Nat) :
    (m.zeroFirstTail lstart).table = m.table ∧
      ∃ data, (m.zeroFirstTail lstart).folio f = { m.folio f with data := data } := by
  rw [zeroFirstTail]
  split
  · split
    · rename_i _ g _
      refine ⟨rfl, ?_⟩
      by_cases same : f = g
      · subst same
        exact ⟨_, modify_folio_self⟩
      · exact ⟨_, modify_folio_of_ne same⟩
    · exact ⟨rfl, _, rfl⟩
  · exact ⟨rfl, _, rfl⟩

theorem zeroFirstTail_index (m : CachedMapping) (lstart f : Nat) :
    ((m.zeroFirstTail lstart).folio f).index = (m.folio f).index := by
  obtain ⟨_, data, same⟩ := zeroFirstTail_folio m lstart f
  rw [same]

theorem zeroFirstTail_lookup (m : CachedMapping) (lstart index : Nat) :
    (m.zeroFirstTail lstart).idxLookup index = m.idxLookup index := by
  simp only [idxLookup, (zeroFirstTail_folio m lstart 0).1, zeroFirstTail_index]

theorem zeroFirstTail_collected (m : CachedMapping) (lstart first : Nat) (last : Option Nat) (room : Nat) :
    (m.zeroFirstTail lstart).collected first last room = m.collected first last room := by
  simp only [collected, (zeroFirstTail_folio m lstart 0).1, zeroFirstTail_index]

theorem Valid.zeroFirstTail (valid : m.Valid) (lstart : Nat) : (m.zeroFirstTail lstart).Valid where
  once := by
    rw [(zeroFirstTail_folio m lstart 0).1]
    exact valid.once
  mapped f listed := by
    obtain ⟨table, data, same⟩ := zeroFirstTail_folio m lstart f
    rw [table] at listed
    rw [same]
    exact valid.mapped f listed
  sameIndex f listed g otherListed same := by
    rw [(zeroFirstTail_folio m lstart 0).1] at listed otherListed
    rw [zeroFirstTail_index, zeroFirstTail_index] at same
    exact valid.sameIndex f listed g otherListed same

/-- What a byte of a page is when the tail of the first page is zero. -/
theorem zeroFirstTail_data (found : m.idxLookup (b / pageSize) = some f) :
    ((m.zeroFirstTail lstart).folio f).data (b % pageSize) =
      if InFirstTail lstart b then 0 else (m.folio f).data (b % pageSize) := by
  have small : b % pageSize < pageSize := Nat.mod_lt _ (by decide)
  rw [CachedMapping.zeroFirstTail]
  by_cases inner : lstart % pageSize ≠ 0
  · rw [if_pos inner]
    by_cases first : b / pageSize = lstart / pageSize
    · rw [first] at found
      simp [found, folioZeroSegment, InFirstTail, first, inner, small]
    have place : (m.folio f).index = b / pageSize := by simpa using List.find?_some found
    rw [if_neg (fun tail : InFirstTail lstart b => first tail.2.1)]
    split
    · rename_i g other
      have otherPlace : (m.folio g).index = lstart / pageSize := by simpa using List.find?_some other
      rw [folioZeroSegment, modify_folio_of_ne]
      rintro rfl
      exact first (place.symm.trans otherPlace)
    · rfl
  · rw [if_neg inner, if_neg (fun tail : InFirstTail lstart b => inner tail.1)]

theorem truncateInodePagesRange_eq (m : CachedMapping) (room lstart : Nat) (lend : Int) :
    m.truncateInodePagesRange room lstart lend =
      (m.zeroFirstTail lstart).dropRange (truncateFirst lstart) (truncateLast lend) room := by
  rw [truncateInodePagesRange]
  split
  · rfl
  rename_i empty
  have nothing (f : Nat) : inRange (truncateFirst lstart) (truncateLast lend) f = false := by
    cases last : truncateLast lend with
    | none => simp [last] at empty
    | some l =>
      simp only [last, Option.all_some, decide_eq_true_eq] at empty
      simp only [inRange, Option.all_some, Bool.and_eq_false_iff, decide_eq_false_iff_not]
      omega
  simp [dropRange, collectRange, collected, nothing]

theorem Valid.lookup_truncate (valid : m.Valid) :
    (m.truncateInodePagesRange room lstart lend).idxLookup index = some f ↔
      m.idxLookup index = some f ∧ f ∉ m.collected (truncateFirst lstart) (truncateLast lend) room := by
  rw [truncateInodePagesRange_eq, (valid.zeroFirstTail lstart).lookup_dropRange, zeroFirstTail_lookup,
    zeroFirstTail_collected]

/-- A folio that is not dropped keeps everything but the tail of the first page. -/
theorem Valid.kept (valid : m.Valid) (found : m.idxLookup (b / pageSize) = some f)
    (kept : f ∉ m.collected (truncateFirst lstart) (truncateLast lend) room) :
    (m.truncateInodePagesRange room lstart lend).cachedByte b =
        some (if InFirstTail lstart b then 0 else (m.folio f).data (b % pageSize)) ∧
      (m.truncateInodePagesRange room lstart lend).dirtyByte b = (m.folio f).dirty := by
  have lookup := (@Valid.lookup_truncate m f room lstart (b / pageSize) lend valid).mpr ⟨found, kept⟩
  have same : (m.truncateInodePagesRange room lstart lend).folio f = (m.zeroFirstTail lstart).folio f := by
    rw [truncateInodePagesRange_eq]
    apply (valid.zeroFirstTail lstart).dropRange.2
    rw [zeroFirstTail_collected]
    exact kept
  rw [cachedByte, dirtyByte, lookup, Option.map_some, Option.any_some, same]
  refine ⟨congrArg some (zeroFirstTail_data found), ?_⟩
  obtain ⟨_, data, change⟩ := zeroFirstTail_folio m lstart f
  rw [change]

theorem Valid.dropped (valid : m.Valid) (found : m.idxLookup (b / pageSize) = some f)
    (listed : f ∈ m.collected (truncateFirst lstart) (truncateLast lend) room) :
    (m.truncateInodePagesRange room lstart lend).cachedByte b = none := by
  rw [cachedByte, Option.map_eq_none_iff]
  cases lookup : (m.truncateInodePagesRange room lstart lend).idxLookup (b / pageSize) with
  | none => rfl
  | some g =>
    obtain ⟨otherFound, kept⟩ := valid.lookup_truncate.mp lookup
    rw [found, Option.some.injEq] at otherFound
    exact absurd (otherFound ▸ listed) kept

theorem byte_page (small : o < pageSize) :
    (index * pageSize + o) / pageSize = index ∧ (index * pageSize + o) % pageSize = o := by
  rw [pageSize] at small ⊢
  omega

theorem inRange_iff : inRange (truncateFirst lstart) (truncateLast lend) index = true ↔
    truncateFirst lstart ≤ index ∧ (lend < 0 ∨ (index : Int) ≤ lend / pageSize) := by
  rw [inRange, truncateLast, pageSize]
  split
  · simp_all
  · rename_i some_end
    simp only [Option.all_some, Bool.and_eq_true, decide_eq_true_eq]
    omega

end Bytes

section Main

variable {m : CachedMapping} {room lstart : Nat} {lend : Int}

/-- Truncating a range of cached pages touches only the range just when the partial first
page holds zeros behind its end, no page that is dropped reaches across its end, and the
array has room for the pages. -/
theorem truncate_range_iff (valid : m.Valid) :
    TouchesOnlyRange m (m.truncateInodePagesRange room lstart lend) lstart lend ↔
      TailZero m lstart lend ∧ NoneAcross m room lstart lend ∧ RoomEnough m room lstart lend := by
  constructor
  · intro touches
    refine ⟨?_, ?_, ?_⟩
    · intro inner f found o behind small outside
      obtain ⟨page, offset⟩ := @byte_page o (lstart / pageSize) small
      have place : (m.folio f).index = lstart / pageSize := by simpa using List.find?_some found
      have kept : f ∉ m.collected (truncateFirst lstart) (truncateLast lend) room := by
        intro listed
        have first := (inRange_iff.mp (collected_inRange listed)).1
        rw [place, truncateFirst] at first
        rw [pageSize] at first inner
        omega
      rw [← page] at found
      have value : m.cachedByte (lstart / pageSize * pageSize + o) = some ((m.folio f).data o) := by
        rw [cachedByte, found, offset]
        rfl
      have same := (touches.outside _ outside (by rw [value]; rfl)).1
      have tail : InFirstTail lstart (lstart / pageSize * pageSize + o) :=
        ⟨inner, page, by rw [offset]; exact behind⟩
      rw [(valid.kept found kept).1, if_pos tail, value, Option.some.injEq] at same
      exact same.symm
    · intro f listed
      by_contra across
      rw [not_or] at across
      have member := collected_sublist.subset listed
      obtain ⟨page, offset⟩ := @byte_page (pageSize - 1) (m.folio f).index (by decide)
      have found : m.idxLookup (((m.folio f).index * pageSize + (pageSize - 1)) / pageSize) = some f :=
        valid.lookup_iff.mpr ⟨member, page.symm⟩
      have outside : ¬ InByteRange lstart lend ((m.folio f).index * pageSize + (pageSize - 1)) := by
        rintro ⟨_, endless | before⟩
        · exact across.1 endless
        · apply across.2
          rw [pageSize] at before ⊢
          omega
      have value : m.cachedByte ((m.folio f).index * pageSize + (pageSize - 1)) =
          some ((m.folio f).data (pageSize - 1)) := by
        rw [cachedByte, found, offset]
        rfl
      have same := (touches.outside _ outside (by rw [value]; rfl)).1
      rw [valid.dropped found listed, value] at same
      cases same
    · intro f member within kept o small inside
      obtain ⟨page, offset⟩ := @byte_page o (m.folio f).index small
      have found : m.idxLookup (((m.folio f).index * pageSize + o) / pageSize) = some f :=
        valid.lookup_iff.mpr ⟨member, page.symm⟩
      have behind : ¬ InFirstTail lstart ((m.folio f).index * pageSize + o) := by
        rintro ⟨inner, first, _⟩
        have lower := (inRange_iff.mp within).1
        rw [page] at first
        rw [truncateFirst, first] at lower
        rw [pageSize] at lower inner
        omega
      have value := (@Valid.kept m f room lstart _ lend valid found kept).1
      rw [if_neg behind, offset] at value
      exact touches.inside _ inside _ value
  · rintro ⟨tail, none_across, room_enough⟩
    constructor
    · intro b outside cached
      obtain ⟨v, value⟩ := Option.isSome_iff_exists.mp cached
      obtain ⟨f, found, rfl⟩ := Option.map_eq_some_iff.mp value
      have place := (valid.lookup_iff.mp found).2
      by_cases listed : f ∈ m.collected (truncateFirst lstart) (truncateLast lend) room
      · exfalso
        apply outside
        have lower := (inRange_iff.mp (collected_inRange listed)).1
        rw [place, truncateFirst] at lower
        rw [pageSize] at lower
        refine ⟨by omega, ?_⟩
        rcases none_across f listed with endless | before
        · exact .inl endless
        · right
          rw [place, pageSize] at before
          omega
      · obtain ⟨data, dirty⟩ := valid.kept found listed
        rw [data, dirty, value, dirtyByte, found]
        refine ⟨?_, rfl⟩
        split
        · rename_i zeroed
          obtain ⟨inner, first, behind⟩ := zeroed
          have byte : lstart / pageSize * pageSize + b % pageSize = b := by
            rw [← first]
            exact Nat.div_add_mod' b pageSize
          rw [first] at found
          rw [tail inner f found (b % pageSize) behind (Nat.mod_lt _ (by decide)) (by rw [byte]; exact outside)]
        · rfl
    · intro b inside v value
      obtain ⟨f, lookup, _⟩ := Option.map_eq_some_iff.mp value
      obtain ⟨found, kept⟩ := valid.lookup_truncate.mp lookup
      obtain ⟨member, place⟩ := valid.lookup_iff.mp found
      rw [(valid.kept found kept).1, Option.some.injEq] at value
      rw [← value]
      split
      · rfl
      rename_i behind
      have byte : (m.folio f).index * pageSize + b % pageSize = b := by
        rw [place]
        exact Nat.div_add_mod' b pageSize
      obtain ⟨lower, upper⟩ := inside
      apply room_enough f member _ kept _ (Nat.mod_lt _ (by decide)) (by rw [byte]; exact ⟨lower, upper⟩)
      rw [inRange_iff, place, truncateFirst]
      rw [InFirstTail] at behind
      rw [pageSize] at behind ⊢
      omega

end Main

/-- A mapping with one dirty page of ones. -/
def onePage : CachedMapping where
  folio := fun _ => ⟨true, 0, fun _ => 1, true, true, 0, false, 1, none, []⟩
  table := [0]
  lru := [0]
  dirty := [0]

theorem onePage_valid : onePage.Valid where
  once := List.nodup_singleton 0
  mapped _ _ := rfl
  sameIndex f listed g otherListed _ := by
    rw [List.mem_singleton.mp listed, List.mem_singleton.mp otherListed]

/-- Truncating all that is behind byte 100 zeroes the tail of the page. -/
theorem truncate_range_to_end :
    TouchesOnlyRange onePage (onePage.truncateInodePagesRange 64 100 (-1)) 100 (-1) := by
  apply (truncate_range_iff onePage_valid).mpr
  refine ⟨?_, ?_, ?_⟩
  · intro _ f _ o behind _ outside
    exact absurd ⟨by rw [pageSize] at behind ⊢; omega, .inl (by decide)⟩ outside
  · intro f listed
    exact .inl (by decide)
  · intro f _ within
    revert within
    simp [onePage, inRange, truncateFirst, pageSize]

/-- Truncating bytes 0 to 99 drops the page, and what is to be written behind them is lost. -/
theorem truncate_range_loses_tail :
    ¬ TouchesOnlyRange onePage (onePage.truncateInodePagesRange 64 0 99) 0 99 := by
  intro touches
  have lost := (touches.outside 100 (by decide) (by decide)).1
  revert lost
  decide

end CachedMapping

end Ttntfs.Pagecache
