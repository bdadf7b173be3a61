import Mathlib.Data.List.Sort
import Mathlib.Logic.Function.Basic

/-!
# Cached contents

The folios of one mapping of the page cache with what is in them: the table in which they
are looked up, the list of the recently used and the list of the dirty ones, and the
sections under `tree_lock` that change these. Every holder of a reference is kept beside
the number of references, so that a count can be compared with them.
-/

namespace Ttntfs.Pagecache

/-- `PAGE_SIZE` -/
def pageSize : Nat := 4096

/-- The bytes of a page. -/
abbrev Page := Nat → UInt8

/-- `struct folio`. The table holds one reference beside the referrers while the folio is
in it. -/
structure CachedFolio where
  mapped : Bool
  index : Nat
  data : Page
  uptodate : Bool
  dirty : Bool
  dirtiedAt : Nat
  writeback : Bool
  refcount : Nat
  holder : Option Nat
  referrers : List Nat

/-- `struct address_space`: its folios in the order in which the buckets are scanned, the
recently used ones from the newest on, and the dirty ones from the oldest on. -/
structure CachedMapping where
  folio : Nat → CachedFolio
  table : List Nat
  lru : List Nat
  dirty : List Nat

namespace CachedMapping

/-- Change one folio. -/
def modify (m : CachedMapping) (f : Nat) (change : CachedFolio → CachedFolio) : CachedMapping :=
  { m with folio := Function.update m.folio f (change (m.folio f)) }

/-- `idx_lookup` -/
def idxLookup (m : CachedMapping) (index : Nat) : Option Nat :=
  m.table.find? fun f => decide ((m.folio f).index = index)

/-- `folio_get` of a thread -/
def folioGet (m : CachedMapping) (t f : Nat) : CachedMapping :=
  m.modify f fun folio => { folio with refcount := folio.refcount + 1, referrers := t :: folio.referrers }

/-- `folio_put` of a thread -/
def folioPut (m : CachedMapping) (t f : Nat) : CachedMapping :=
  m.modify f fun folio => { folio with refcount := folio.refcount - 1, referrers := folio.referrers.erase t }

/-- `__folio_set_dirty` -/
def folioSetDirty (m : CachedMapping) (now f : Nat) : CachedMapping :=
  if (m.folio f).dirty then m
  else
    { m.modify f fun folio => { folio with dirty := true, dirtiedAt := now } with dirty := m.dirty ++ [f] }

/-- `__folio_clear_dirty` -/
def folioClearDirty (m : CachedMapping) (f : Nat) : CachedMapping :=
  if (m.folio f).dirty then
    { m.modify f fun folio => { folio with dirty := false } with dirty := m.dirty.erase f }
  else m

/-- The folio leaves the table, the lists and the mapping, and the table's reference is
dropped. -/
def removeFolio (m : CachedMapping) (f : Nat) : CachedMapping :=
  let m := m.folioClearDirty f
  { m.modify f fun folio => { folio with mapped := false, refcount := folio.refcount - 1 } with
    table := m.table.erase f, lru := m.lru.erase f }

/-- Only the table and the caller hold a reference, and nothing is left to write. -/
def unused (m : CachedMapping) (f : Nat) : Bool :=
  decide ((m.folio f).refcount = 2) && !(m.folio f).dirty && !(m.folio f).writeback

/-- `__remove_locked_cond` -/
def removeLockedCond (m : CachedMapping) (f : Nat) (onlyUnused : Bool) : CachedMapping :=
  if !(m.folio f).mapped || onlyUnused && !m.unused f then m else m.removeFolio f

/-- `folio_zero_segment` -/
def folioZeroSegment (m : CachedMapping) (f start stop : Nat) : CachedMapping :=
  m.modify f fun folio =>
    { folio with data := fun o => if start ≤ o ∧ o < min stop pageSize then 0 else folio.data o }

/-- The index is in the range, which has no end where the source has `(pgoff_t)-1`. -/
def inRange (first : Nat) (last : Option Nat) (index : Nat) : Bool :=
  decide (first ≤ index) && last.all fun l => decide (index ≤ l)

/-- The folios that `collect_range` puts into its array, whose growth is granted up to
`room` entries. -/
def collected (m : CachedMapping) (first : Nat) (last : Option Nat) (room : Nat) : List Nat :=
  (m.table.filter fun f => inRange first last (m.folio f).index).take room

/-- `collect_range` -/
def collectRange (m : CachedMapping) (first : Nat) (last : Option Nat) (room : Nat) : List Nat :=
  (m.collected first last room).insertionSort fun f f' => (m.folio f).index ≤ (m.folio f').index

/-- The folios of a mapping have indices of their own and point back to it. -/
structure Valid (m : CachedMapping) : Prop where
  once : m.table.Nodup
  mapped : ∀ f ∈ m.table, (m.folio f).mapped = true
  sameIndex : ∀ f ∈ m.table, ∀ g ∈ m.table, (m.folio f).index = (m.folio g).index → f = g

section Fields

variable {m : CachedMapping} {f g t now index : Nat} {change : CachedFolio → CachedFolio}

theorem modify_folio (m : CachedMapping) (f g : Nat) (change : CachedFolio → CachedFolio) :
    (m.modify f change).folio g = if g = f then change (m.folio f) else m.folio g :=
  Function.update_apply _ _ _ _

@[simp] theorem modify_folio_self : (m.modify f change).folio f = change (m.folio f) :=
  Function.update_self _ _ _

theorem modify_folio_of_ne (other : g ≠ f) : (m.modify f change).folio g = m.folio g :=
  Function.update_of_ne other _ _

@[simp] theorem modify_table : (m.modify f change).table = m.table := rfl
@[simp] theorem modify_lru : (m.modify f change).lru = m.lru := rfl
@[simp] theorem modify_dirty : (m.modify f change).dirty = m.dirty := rfl

theorem folioClearDirty_folio (m : CachedMapping) (f g : Nat) :
    (m.folioClearDirty f).folio g = if g = f then { m.folio f with dirty := false } else m.folio g := by
  rw [folioClearDirty]
  by_cases dirty : (m.folio f).dirty
  · rw [if_pos dirty]
    dsimp only
    rw [modify_folio]
  · rw [if_neg dirty]
    by_cases same : g = f
    · subst same
      rw [if_pos rfl]
      simp only [Bool.not_eq_true] at dirty
      rw [← dirty]
    · rw [if_neg same]

@[simp] theorem folioClearDirty_table : (m.folioClearDirty f).table = m.table := by
  rw [folioClearDirty]
  split <;> rfl

@[simp] theorem folioClearDirty_lru : (m.folioClearDirty f).lru = m.lru := by
  rw [folioClearDirty]
  split <;> rfl

theorem folioSetDirty_folio (m : CachedMapping) (now f g : Nat) :
    (m.folioSetDirty now f).folio g =
      if g = f ∧ (m.folio f).dirty = false then { m.folio f with dirty := true, dirtiedAt := now }
      else m.folio g := by
  rw [folioSetDirty]
  by_cases dirty : (m.folio f).dirty
  · simp [dirty]
  · rw [if_neg dirty]
    simp only [Bool.not_eq_true] at dirty
    simp [modify_folio, dirty]

@[simp] theorem folioSetDirty_table : (m.folioSetDirty now f).table = m.table := by
  rw [folioSetDirty]
  split <;> rfl

theorem removeFolio_folio (m : CachedMapping) (f g : Nat) :
    (m.removeFolio f).folio g =
      if g = f then { m.folio f with dirty := false, mapped := false, refcount := (m.folio f).refcount - 1 }
      else m.folio g := by
  simp only [removeFolio, modify_folio, folioClearDirty_folio]
  split <;> simp_all

@[simp] theorem removeFolio_table : (m.removeFolio f).table = m.table.erase f := by
  simp [removeFolio]

theorem Valid.lookup_iff (valid : m.Valid) : m.idxLookup index = some f ↔ f ∈ m.table ∧ (m.folio f).index = index := by
  constructor
  · intro found
    exact ⟨List.mem_of_find?_eq_some found, by simpa using List.find?_some found⟩
  rintro ⟨listed, place⟩
  cases found : m.idxLookup index with
  | none =>
    have missed := List.find?_eq_none.mp found f listed
    simp [place] at missed
  | some g =>
    have otherListed := List.mem_of_find?_eq_some found
    have otherPlace : (m.folio g).index = index := by simpa using List.find?_some found
    rw [valid.sameIndex f listed g otherListed (place.trans otherPlace.symm)]

theorem idxLookup_none : m.idxLookup index = none ↔ ∀ f ∈ m.table, (m.folio f).index ≠ index := by
  rw [idxLookup, List.find?_eq_none]
  simp

end Fields

end CachedMapping

end Ttntfs.Pagecache
