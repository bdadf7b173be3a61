import Ttntfs.Pagecache.CachedContents

/-!
# Threads that use cached folios

Threads read folios of one mapping, change them in place and mark them dirty, write them
back, reclaim them and invalidate the clean ones. A thread that is in a call is at a place
of it; a step is one section under `tree_lock`, one access to the lock or the flags of a
folio, or one act of the file system in its `read_folio` or `write_folio`.

Beside the state of the cache the model keeps its history: what was last written to every
page, which threads have changed a folio and not marked it dirty yet, and which pages had
a write-back that failed. Truncation and the list of dirty mappings stay outside.
-/

namespace Ttntfs.Pagecache

namespace CachedMapping

/-- The lock of a folio. -/
def setHolder (m : CachedMapping) (f : Nat) (holder : Option Nat) : CachedMapping :=
  m.modify f fun folio => { folio with holder := holder }

/-- The writeback flag of a folio. -/
def setWriteback (m : CachedMapping) (f : Nat) (on : Bool) : CachedMapping :=
  m.modify f fun folio => { folio with writeback := on }

/-- `list_move` of a folio to the head of the recently used ones -/
def touch (m : CachedMapping) (f : Nat) : CachedMapping := { m with lru := f :: m.lru.erase f }

/-- A folio from `folio_alloc_new`, locked by the thread that holds its only reference. -/
def allocNew (m : CachedMapping) (t f index : Nat) : CachedMapping :=
  m.modify f fun folio =>
    { mapped := true, index := index, data := folio.data, uptodate := false, dirty := false, dirtiedAt := 0
      writeback := false, refcount := 1, holder := some t, referrers := [t] }

/-- A folio from `folio_alloc_new` that lost the race to insert is given up. -/
def giveUp (m : CachedMapping) (t f : Nat) : CachedMapping :=
  (m.modify f fun folio => { folio with mapped := false, holder := none }).folioPut t f

/-- `idx_insert`, with the table's reference and the place among the recently used ones -/
def insert (m : CachedMapping) (f : Nat) : CachedMapping :=
  { m.modify f fun folio => { folio with refcount := folio.refcount + 1 } with
    table := f :: m.table, lru := f :: m.lru }

/-- The loop of `__reclaim_from` -/
def reclaimFolios (m : CachedMapping) : List Nat → Nat → CachedMapping
  | [], _ => m
  | _ :: _, 0 => m
  | f :: fs, want + 1 =>
    if (m.folio f).refcount = 1 ∧ (m.folio f).dirty = false ∧ (m.folio f).writeback = false ∧
        (m.folio f).holder = none then
      (m.removeFolio f).reclaimFolios fs want
    else m.reclaimFolios fs (want + 1)

/-- `__reclaim_from`: the folio that was used last comes last. -/
def reclaimFrom (m : CachedMapping) (want : Nat) : CachedMapping := m.reclaimFolios m.lru.reverse want

/-- `collect_dirty`: the list is oldest first, the array, which may grow up to `room`
entries, sorted by index. -/
def collectDirty (m : CachedMapping) (first : Nat) (last : Option Nat) (older room : Nat) : List Nat :=
  (((m.dirty.takeWhile fun f => decide (older = 0 ∨ (m.folio f).dirtiedAt ≤ older)).filter
    fun f => inRange first last (m.folio f).index).take room).insertionSort
      fun f f' => (m.folio f).index ≤ (m.folio f').index

/-- `folio_get` for every folio of an array -/
def folioGets (m : CachedMapping) (t : Nat) (fs : List Nat) : CachedMapping := fs.foldl (fun m f => m.folioGet t f) m

end CachedMapping

/-- Where a thread is. -/
inductive Place where
  /-- in no call -/
  | idle
  /-- `read_mapping_folio` in its first `__filemap_get_folio` -/
  | lookup (index : Nat)
  /-- `read_mapping_folio` behind the first `__filemap_get_folio` -/
  | testUptodate (index f : Nat)
  /-- the second `__filemap_get_folio` at `repeat`, with the folio that was allocated -/
  | getFolio (index : Nat) (nf : Option Nat)
  /-- `__filemap_get_folio` at `folio_lock` -/
  | lockFolio (index f : Nat)
  /-- `read_mapping_folio` behind the second `__filemap_get_folio` -/
  | locked (index f : Nat)
  /-- `read_mapping_folio` in `read_folio` -/
  | reading (index f : Nat)
  /-- `write_range` before `collect_dirty` -/
  | writeRange (first : Nat) (last : Option Nat) (older : Nat)
  /-- `write_range` at the head of its loop, with the rest of its array -/
  | writeFolios (arr : List Nat)
  /-- `writeback_one` at `folio_start_writeback` -/
  | startWriteback (f : Nat) (arr : List Nat)
  /-- `writeback_one` at `folio_clear_dirty_for_io` -/
  | clearDirtyForIo (f : Nat) (arr : List Nat)
  /-- `writeback_one` in `write_folio`, with the bytes that have been stored -/
  | writing (f : Nat) (arr : List Nat) (stored : Nat → Bool)
  /-- `write_range` behind `writeback_one` -/
  | wrote (f : Nat) (arr : List Nat)
  /-- `invalidate_mapping_pages` before `collect_range` -/
  | invalidateRange (first : Nat) (last : Option Nat)
  /-- `drop_range` at the head of its loop, with the rest of its array -/
  | dropFolios (arr : List Nat)
  /-- `drop_range` before `__remove_locked_cond` -/
  | dropping (f : Nat) (arr : List Nat)
  /-- `drop_range` behind `__remove_locked_cond` -/
  | dropped (f : Nat) (arr : List Nat)

/-- The cache of a mapping with its threads, the backing store and the history. -/
structure FolioThreads where
  cache : CachedMapping
  store : Nat → Page
  now : Nat
  place : Nat → Place
  held : Nat → List Nat
  value : Nat → Page
  unmarked : Nat → Nat → Bool
  failed : Nat → Bool

/-- What may happen next. -/
inductive FolioEvent where
  /-- Time passes. -/
  | tick
  /-- A thread begins `read_mapping_folio`. -/
  | read (t index : Nat)
  /-- A thread begins `write_range`. -/
  | writeRange (t first : Nat) (last : Option Nat) (older : Nat)
  /-- A thread begins `invalidate_mapping_pages`. -/
  | invalidate (t first : Nat) (last : Option Nat)
  /-- `__reclaim_from`, of the writer thread or behind an insertion -/
  | reclaim (want : Nat)
  /-- A thread changes bytes of a folio that it has read. -/
  | modify (t f start stop : Nat) (bytes : Page)
  /-- A thread marks a folio dirty that it has read. -/
  | markDirty (t f : Nat)
  /-- A thread gives a folio back that it has read. -/
  | put (t f : Nat)
  /-- A thread goes on; `n` is the folio that is allocated, the room that an array has, or
  the number of folios above the cap. -/
  | run (t n : Nat)
  /-- A thread goes on without memory for a folio. -/
  | noMemory (t : Nat)
  /-- `read_folio` returns. -/
  | readReturns (t : Nat) (ok : Bool)
  /-- `write_folio` brings bytes to the store. -/
  | storeBytes (t start stop : Nat)
  /-- `write_folio` marks the folio dirty again. -/
  | redirty (t : Nat)
  /-- `write_folio` sets or clears the writeback flag. -/
  | flag (t : Nat) (on : Bool)
  /-- `write_folio` unlocks the folio. -/
  | unlock (t : Nat)
  /-- `write_folio` locks the folio. -/
  | lock (t : Nat)
  /-- `write_folio` returns. -/
  | writeReturns (t : Nat) (err : Int)

namespace FolioThreads

open CachedMapping

/-- Nothing is cached. -/
def empty (store : Nat → Page) : FolioThreads where
  cache :=
    { folio := fun _ => ⟨false, 0, fun _ => 0, false, false, 0, false, 0, none, []⟩
      table := [], lru := [], dirty := [] }
  store := store
  now := 0
  place := fun _ => .idle
  held := fun _ => []
  value := store
  unmarked := fun _ _ => false
  failed := fun _ => false

/-- A thread moves to a place, with a cache that has changed. -/
def goto (s : FolioThreads) (t : Nat) (cache : CachedMapping) (place : Place) : FolioThreads :=
  { s with cache := cache, place := Function.update s.place t place }

/-- `read_mapping_folio` returns a folio. -/
def returnFolio (s : FolioThreads) (t f : Nat) (cache : CachedMapping) : FolioThreads :=
  { s.goto t cache .idle with held := Function.update s.held t (f :: s.held t) }

/-- Some bytes of a page replaced. -/
def patch (page : Page) (start stop : Nat) (bytes : Page) : Page :=
  fun o => if start ≤ o ∧ o < stop then bytes o else page o

/-- The step of a thread from its place; none where it has to wait or the file system acts. -/
def runPlace (s : FolioThreads) (t n : Nat) : Place → Option FolioThreads
  | .idle => none
  | .lookup index =>
    match s.cache.idxLookup index with
    | some f => some (s.goto t ((s.cache.folioGet t f).touch f) (.testUptodate index f))
    | none => some (s.goto t s.cache (.getFolio index none))
  | .testUptodate index f =>
    if (s.cache.folio f).uptodate then some (s.returnFolio t f s.cache)
    else some (s.goto t (s.cache.folioPut t f) (.getFolio index none))
  | .getFolio index nf =>
    match s.cache.idxLookup index with
    | some f =>
      let cache := (s.cache.folioGet t f).touch f
      match nf with
      | some nf => some (s.goto t (cache.giveUp t nf) (.lockFolio index f))
      | none => some (s.goto t cache (.lockFolio index f))
    | none =>
      match nf with
      | some nf => some (s.goto t ((s.cache.insert nf).reclaimFrom n) (.locked index nf))
      | none =>
        if (s.cache.folio n).refcount = 0 then
          some (s.goto t (s.cache.allocNew t n index) (.getFolio index (some n)))
        else none
  | .lockFolio index f =>
    if (s.cache.folio f).holder = none then
      if (s.cache.folio f).mapped && decide ((s.cache.folio f).index = index) then
        some (s.goto t (s.cache.setHolder f (some t)) (.locked index f))
      else some (s.goto t (s.cache.folioPut t f) (.getFolio index none))
    else none
  | .locked index f =>
    if (s.cache.folio f).uptodate then some (s.returnFolio t f (s.cache.setHolder f none))
    else some (s.goto t s.cache (.reading index f))
  | .reading _ _ => none
  | .writeRange first last older =>
    let arr := s.cache.collectDirty first last older n
    some (s.goto t (s.cache.folioGets t arr) (.writeFolios arr))
  | .writeFolios [] => some (s.goto t s.cache .idle)
  | .writeFolios (f :: arr) =>
    if (s.cache.folio f).holder = none then
      some (s.goto t (s.cache.setHolder f (some t)) (.startWriteback f arr))
    else none
  | .startWriteback f arr => some (s.goto t (s.cache.setWriteback f true) (.clearDirtyForIo f arr))
  | .clearDirtyForIo f arr =>
    if (s.cache.folio f).dirty && (s.cache.folio f).mapped then
      some (s.goto t (s.cache.folioClearDirty f) (.writing f arr fun _ => false))
    else some (s.goto t ((s.cache.folioClearDirty f).setWriteback f false) (.wrote f arr))
  | .writing _ _ _ => none
  | .wrote f arr => some (s.goto t ((s.cache.setHolder f none).folioPut t f) (.writeFolios arr))
  | .invalidateRange first last =>
    let arr := s.cache.collectRange first last n
    some (s.goto t (s.cache.folioGets t arr) (.dropFolios arr))
  | .dropFolios [] => some (s.goto t s.cache .idle)
  | .dropFolios (f :: arr) =>
    if (s.cache.folio f).holder = none then
      some (s.goto t (s.cache.setHolder f (some t)) (.dropping f arr))
    else some (s.goto t (s.cache.folioPut t f) (.dropFolios arr))
  | .dropping f arr => some (s.goto t (s.cache.removeLockedCond f true) (.dropped f arr))
  | .dropped f arr => some (s.goto t ((s.cache.setHolder f none).folioPut t f) (.dropFolios arr))

/-- A thread that is in no call begins one. -/
def begin (s : FolioThreads) (t : Nat) (place : Place) : Option FolioThreads :=
  match s.place t with
  | .idle => some (s.goto t s.cache place)
  | _ => none

/-- What a thread does with a folio that it has read, in no call. -/
def use (s : FolioThreads) (t f : Nat) : FolioEvent → Option FolioThreads
  | .modify _ _ start stop bytes =>
    let index := (s.cache.folio f).index
    some { s with
      cache := s.cache.modify f fun folio => { folio with data := patch folio.data start stop bytes }
      value := Function.update s.value index (patch (s.value index) start stop bytes)
      unmarked := fun t' f' => s.unmarked t' f' || decide (t' = t) && decide (f' = f) }
  | .markDirty _ _ =>
    some { s with
      cache := s.cache.folioSetDirty s.now f
      unmarked := fun t' f' => s.unmarked t' f' && !(decide (t' = t) && decide (f' = f)) }
  | .put _ _ =>
    -- Whoever has changed a folio marks it dirty before giving it back.
    if s.unmarked t f then none
    else some { s with cache := s.cache.folioPut t f, held := Function.update s.held t ((s.held t).erase f) }
  | _ => none

/-- The thread is in no call and holds the folio. -/
def uses (s : FolioThreads) (t f : Nat) : Bool :=
  match s.place t with
  | .idle => decide (f ∈ s.held t)
  | _ => false

/-- `read_folio` returns: with the page of the store, or with an error, whereupon the folio
is removed. -/
def readReturns (s : FolioThreads) (t f : Nat) (ok : Bool) : FolioThreads :=
  if ok then
    s.returnFolio t f ((s.cache.modify f fun folio =>
      { folio with data := s.store folio.index, uptodate := true }).setHolder f none)
  else s.goto t (((s.cache.removeLockedCond f false).setHolder f none).folioPut t f) .idle

/-- What `write_folio` does with the folio it is given. It returns without an error only
when it has brought every byte to the store or has marked the folio dirty again. -/
def write (s : FolioThreads) (t f : Nat) (arr : List Nat) (stored : Nat → Bool) :
    FolioEvent → Option FolioThreads
  | .storeBytes _ start stop =>
    let index := (s.cache.folio f).index
    some { s.goto t s.cache (.writing f arr fun o => stored o || decide (start ≤ o ∧ o < stop)) with
      store := Function.update s.store index (patch (s.store index) start stop (s.cache.folio f).data) }
  | .redirty _ => some (s.goto t (s.cache.folioSetDirty s.now f) (.writing f arr stored))
  | .flag _ on => some (s.goto t (s.cache.setWriteback f on) (.writing f arr stored))
  | .unlock _ =>
    if (s.cache.folio f).holder = some t then some (s.goto t (s.cache.setHolder f none) (.writing f arr stored))
    else none
  | .lock _ =>
    if (s.cache.folio f).holder = none then some (s.goto t (s.cache.setHolder f (some t)) (.writing f arr stored))
    else none
  | .writeReturns _ err =>
    if (s.cache.folio f).holder ≠ some t then none
    else if err ≠ 0 then
      some { s.goto t (s.cache.setWriteback f false) (.wrote f arr) with
        failed := Function.update s.failed (s.cache.folio f).index true }
    else if (s.cache.folio f).dirty ∨ ∀ o < pageSize, stored o then
      some (s.goto t (s.cache.setWriteback f false) (.wrote f arr))
    else none
  | _ => none

/-- What `write_folio` does in a thread that is in it. -/
def writer (s : FolioThreads) (t : Nat) (event : FolioEvent) : Option FolioThreads :=
  match s.place t with
  | .writing f arr stored => s.write t f arr stored event
  | _ => none

/-- The step of an event; none where it cannot happen. -/
def next (s : FolioThreads) (event : FolioEvent) : Option FolioThreads :=
  match event with
  | .tick => some { s with now := s.now + 1 }
  | .read t index => s.begin t (.lookup index)
  | .writeRange t first last older => s.begin t (.writeRange first last older)
  | .invalidate t first last => s.begin t (.invalidateRange first last)
  | .reclaim want => some { s with cache := s.cache.reclaimFrom want }
  | .modify t f _ _ _ | .markDirty t f | .put t f => if s.uses t f then s.use t f event else none
  | .run t n => s.runPlace t n (s.place t)
  | .noMemory t =>
    match s.place t with
    | .getFolio index none => if s.cache.idxLookup index = none then some (s.goto t s.cache .idle) else none
    | _ => none
  | .readReturns t ok =>
    match s.place t with
    | .reading _ f => some (s.readReturns t f ok)
    | _ => none
  | .storeBytes t _ _ | .redirty t | .flag t _ | .unlock t | .lock t | .writeReturns t _ => s.writer t event

/-- The state that a run of events leads to; none where one of them cannot happen. -/
def run (s : FolioThreads) : List FolioEvent → Option FolioThreads
  | [] => some s
  | event :: events => (s.next event).bind fun s' => s'.run events

/-- The states that runs reach, with the store as it is when nothing is cached. -/
inductive Reaches (store : Nat → Page) : FolioThreads → Prop
  | start : Reaches store (empty store)
  | step {s s' : FolioThreads} {event : FolioEvent} (before : Reaches store s) (happens : s.next event = some s') :
      Reaches store s'

end FolioThreads

end Ttntfs.Pagecache
