import Mathlib.Tactic
import Ttntfs.Pagecache.FolioThreads

/-!
# What holds of the cached folios

Every reference is held by a thread at its place, or by one that has read the folio, or by
the table. A thread may rely on the folios it holds references to: whatever another one
does, a folio that has been read stays in the table, and one that is locked stays as it
is. So the cached pages and the store together hold what was last written: a page that
is cached holds it in its folio, and the store holds it wherever the folio is not about to
be written.
-/

namespace Ttntfs.Pagecache

open CachedMapping

/-- The folios to which a thread holds references at a place. -/
def Place.refs : Place → List Nat
  | .testUptodate _ f | .lockFolio _ f | .locked _ f | .reading _ f => [f]
  | .getFolio _ nf => nf.toList
  | .writeFolios arr | .dropFolios arr => arr
  | .startWriteback f arr | .clearDirtyForIo f arr | .writing f arr _ | .wrote f arr | .dropping f arr
  | .dropped f arr => f :: arr
  | .idle | .lookup _ | .writeRange _ _ _ | .invalidateRange _ _ => []

/-- The folio is in the table and has been read. -/
def CachedMapping.Live (m : CachedMapping) (f : Nat) : Prop := f ∈ m.table ∧ (m.folio f).uptodate = true

/-- The reference that the table holds. -/
def CachedMapping.tableRefs (m : CachedMapping) (f : Nat) : Nat := if f ∈ m.table then 1 else 0

/-- What a thread may rely on at a place. -/
def PlaceOk (m : CachedMapping) (t : Nat) : Place → Prop
  | .testUptodate index f => (m.folio f).index = index ∧ ((m.folio f).uptodate = true → f ∈ m.table)
  | .getFolio index (some nf) => (m.folio nf).index = index ∧ nf ∉ m.table ∧ (m.folio nf).mapped = true ∧
      (m.folio nf).uptodate = false ∧ (m.folio nf).holder = some t
  | .lockFolio _ f => (m.folio f).mapped = true → f ∈ m.table
  | .locked index f => (m.folio f).index = index ∧ f ∈ m.table ∧ (m.folio f).holder = some t
  | .reading index f => (m.folio f).index = index ∧ f ∈ m.table ∧ (m.folio f).holder = some t ∧
      (m.folio f).uptodate = false
  | .writeFolios arr => ∀ g ∈ arr, m.Live g
  | .startWriteback f arr | .clearDirtyForIo f arr | .wrote f arr =>
    (m.folio f).holder = some t ∧ ∀ g ∈ f :: arr, m.Live g
  | .writing f arr _ => ∀ g ∈ f :: arr, m.Live g
  | .dropFolios arr => ∀ g ∈ arr, (m.folio g).mapped = true → g ∈ m.table
  | .dropping f arr | .dropped f arr =>
    (m.folio f).holder = some t ∧ ∀ g ∈ f :: arr, (m.folio g).mapped = true → g ∈ m.table
  | .idle | .lookup _ | .getFolio _ none | .writeRange _ _ _ | .invalidateRange _ _ => True

/-- What another thread may rely on about a folio it holds a reference to. -/
structure Leaves (m m' : CachedMapping) (t g : Nat) : Prop where
  index : (m'.folio g).index = (m.folio g).index
  uptodate : (m.folio g).uptodate = true → (m'.folio g).uptodate = true
  live : m.Live g → g ∈ m'.table
  read : (m'.folio g).uptodate = true → (m.folio g).uptodate = true ∨ g ∈ m'.table
  mapped : ((m.folio g).mapped = true → g ∈ m.table) → (m'.folio g).mapped = true → g ∈ m'.table
  locked : (m.folio g).holder = some t → (m'.folio g).holder = some t ∧ (g ∈ m'.table ↔ g ∈ m.table) ∧
    (m'.folio g).mapped = (m.folio g).mapped ∧ (m'.folio g).uptodate = (m.folio g).uptodate

section Relying

variable {m m' : CachedMapping} {t g : Nat} {p : Place}

theorem Leaves.keepsLive (leaves : Leaves m m' t g) (live : m.Live g) : m'.Live g :=
  ⟨leaves.live live, leaves.uptodate live.2⟩

/-- A place stays good when the folios of the thread are left as it may rely on. -/
theorem PlaceOk.leaves (ok : PlaceOk m t p) (leaves : ∀ g ∈ p.refs, Leaves m m' t g) : PlaceOk m' t p := by
  have alive (arr : List Nat) (part : ∀ g ∈ arr, g ∈ p.refs) (live : ∀ g ∈ arr, m.Live g) : ∀ g ∈ arr, m'.Live g :=
    fun g listed => (leaves g (part g listed)).keepsLive (live g listed)
  cases p with
  | idle => trivial
  | lookup index => trivial
  | writeRange first last older => trivial
  | invalidateRange first last => trivial
  | dropFolios arr => exact fun g listed => (leaves g listed).mapped (ok g listed)
  | testUptodate index f =>
    obtain ⟨place, listed⟩ := ok
    have own := leaves f (by simp [Place.refs])
    refine ⟨own.index.trans place, fun now => ?_⟩
    rcases own.read now with before | still
    · exact own.live ⟨listed before, before⟩
    · exact still
  | getFolio index nf =>
    cases nf with
    | none => trivial
    | some nf =>
      obtain ⟨place, absent, mapped, unread, lock⟩ := ok
      have own := leaves nf (by simp [Place.refs])
      obtain ⟨holder, table, sameMapped, sameRead⟩ := own.locked lock
      exact ⟨own.index.trans place, mt table.mp absent, sameMapped.trans mapped, sameRead.trans unread, holder⟩
  | lockFolio index f =>
    exact (leaves f (by simp [Place.refs])).mapped ok
  | locked index f =>
    obtain ⟨place, listed, lock⟩ := ok
    have own := leaves f (by simp [Place.refs])
    obtain ⟨holder, table, _, _⟩ := own.locked lock
    exact ⟨own.index.trans place, table.mpr listed, holder⟩
  | reading index f =>
    obtain ⟨place, listed, lock, unread⟩ := ok
    have own := leaves f (by simp [Place.refs])
    obtain ⟨holder, table, _, sameRead⟩ := own.locked lock
    exact ⟨own.index.trans place, table.mpr listed, holder, sameRead.trans unread⟩
  | writeFolios arr => exact alive arr (fun g listed => listed) ok
  | startWriteback f arr | clearDirtyForIo f arr | wrote f arr =>
    exact ⟨((leaves f (by simp [Place.refs])).locked ok.1).1, alive _ (fun g listed => listed) ok.2⟩
  | writing f arr stored => exact alive _ (fun g listed => listed) ok
  | dropping f arr | dropped f arr =>
    exact ⟨((leaves f (by simp [Place.refs])).locked ok.1).1, fun g listed => (leaves g listed).mapped (ok.2 g listed)⟩

end Relying

namespace FolioThreads

/-- The references that a thread holds. -/
def refs (s : FolioThreads) (t : Nat) : List Nat := (s.place t).refs ++ s.held t

/-- A byte of a folio that somebody still has to bring to the store. -/
def Unsaved (s : FolioThreads) (f o : Nat) : Prop :=
  (s.cache.folio f).dirty = true ∨ (∃ t, s.unmarked t f = true) ∨
    ∃ t arr stored, s.place t = .writing f arr stored ∧ stored o = false

/-- What holds of the table and the lists of a mapping. -/
structure CacheOk (m : CachedMapping) : Prop where
  valid : m.Valid
  lruOnce : m.lru.Nodup
  lruListed : ∀ f ∈ m.lru, f ∈ m.table
  dirtyOnce : m.dirty.Nodup
  dirtyFlag : ∀ f ∈ m.dirty, (m.folio f).dirty = true
  dirtyLive : ∀ f ∈ m.dirty, m.Live f

/-- The numbers of references are right. -/
structure Counted (s : FolioThreads) : Prop where
  each : ∀ f t, (s.cache.folio f).referrers.count t = (s.refs t).count f
  all : ∀ f, (s.cache.folio f).refcount = (s.cache.folio f).referrers.length + s.cache.tableRefs f

/-- The threads may rely on the folios they hold references to. -/
structure PlacesOk (s : FolioThreads) : Prop where
  places : ∀ t, PlaceOk s.cache t (s.place t)
  heldLive : ∀ t, ∀ f ∈ s.held t, s.cache.Live f
  unmarkedHeld : ∀ t f, s.unmarked t f = true → f ∈ s.held t

/-- The cached pages and the store hold what was last written, but for pages that had a
write-back that failed. -/
structure Contents (s : FolioThreads) : Prop where
  cached : ∀ f, s.cache.Live f → s.failed (s.cache.folio f).index = false → ∀ o < pageSize,
    (s.cache.folio f).data o = s.value (s.cache.folio f).index o ∧
      (s.Unsaved f o ∨ s.store (s.cache.folio f).index o = s.value (s.cache.folio f).index o)
  uncached : ∀ index, s.failed index = false → (∀ f, s.cache.Live f → (s.cache.folio f).index ≠ index) →
    ∀ o < pageSize, s.store index o = s.value index o

/-- What holds of the folios of a mapping and the threads that use them. -/
structure Inv (s : FolioThreads) : Prop where
  cache : CacheOk s.cache
  counted : Counted s
  places : PlacesOk s
  contents : Contents s

theorem inv_empty (store : Nat → Page) : Inv (empty store) where
  cache :=
    { valid := ⟨List.nodup_nil, by simp [empty], by simp [empty]⟩
      lruOnce := List.nodup_nil
      lruListed := by simp [empty]
      dirtyOnce := List.nodup_nil
      dirtyFlag := by simp [empty]
      dirtyLive := by simp [empty] }
  counted := ⟨fun _ _ => rfl, fun _ => rfl⟩
  places := ⟨fun _ => trivial, by simp [empty], by simp [empty]⟩
  contents :=
    { cached := fun f live => by simp [empty, Live] at live
      uncached := fun _ _ _ _ _ => rfl }

/-- A thread is at a place and holds some folios; the cache and the failures have changed. -/
def become (s : FolioThreads) (t : Nat) (cache : CachedMapping) (place : Place) (held : List Nat)
    (failed : Nat → Bool) : FolioThreads :=
  { s with cache := cache, place := Function.update s.place t place, held := Function.update s.held t held
           failed := failed }

/-- Nothing changes that another thread or the contents depend on. -/
structure Quiet (m m' : CachedMapping) (t : Nat) : Prop where
  table : m'.table = m.table
  dirtyList : m'.dirty = m.dirty
  lruOnce : m.lru.Nodup → m'.lru.Nodup
  lruListed : ∀ f ∈ m'.lru, f ∈ m.lru ∨ f ∈ m.table
  index : ∀ g, (m'.folio g).index = (m.folio g).index
  data : ∀ g, (m'.folio g).data = (m.folio g).data
  uptodate : ∀ g, (m'.folio g).uptodate = (m.folio g).uptodate
  mapped : ∀ g, (m'.folio g).mapped = (m.folio g).mapped ∨
    (m'.folio g).mapped = false ∧ g ∉ m.table ∧ ∀ t', t' ≠ t → (m.folio g).holder ≠ some t'
  dirty : ∀ g, (m'.folio g).dirty = (m.folio g).dirty
  holder : ∀ g t', t' ≠ t → (m.folio g).holder = some t' → (m'.folio g).holder = some t'

/-- A thread takes references and gives others back. -/
structure Recounted (m m' : CachedMapping) (t : Nat) (gained lost : List Nat) : Prop where
  own : ∀ g, (m'.folio g).referrers.count t + lost.count g = (m.folio g).referrers.count t + gained.count g
  others : ∀ g t', t' ≠ t → (m'.folio g).referrers.count t' = (m.folio g).referrers.count t'
  number : ∀ g, (m'.folio g).refcount + (m.folio g).referrers.length + m.tableRefs g =
    (m.folio g).refcount + (m'.folio g).referrers.length + m'.tableRefs g

section Quietly

variable {s : FolioThreads} {m m' : CachedMapping} {t t' f g : Nat} {p' : Place} {h' gained lost : List Nat}
  {failed' : Nat → Bool}

@[simp] theorem become_place : (s.become t m' p' h' failed').place = Function.update s.place t p' := rfl
@[simp] theorem become_held : (s.become t m' p' h' failed').held = Function.update s.held t h' := rfl
@[simp] theorem become_cache : (s.become t m' p' h' failed').cache = m' := rfl

theorem become_refs_self : (s.become t m' p' h' failed').refs t = p'.refs ++ h' := by
  simp [refs]

theorem become_refs_of_ne (other : t' ≠ t) : (s.become t m' p' h' failed').refs t' = s.refs t' := by
  simp [refs, Function.update_of_ne other]

theorem goto_eq (s : FolioThreads) (t : Nat) (m' : CachedMapping) (p' : Place) :
    s.goto t m' p' = s.become t m' p' (s.held t) s.failed := by
  rw [goto, become, Function.update_eq_self]

theorem Quiet.live (quiet : Quiet m m' t) : m'.Live g ↔ m.Live g := by
  rw [Live, Live, quiet.table, quiet.uptodate]

theorem Quiet.leaves (quiet : Quiet m m' t) (other : t' ≠ t) : Leaves m m' t' g where
  index := quiet.index g
  uptodate read := (quiet.uptodate g).trans read
  live alive := quiet.table ▸ alive.1
  read now := .inl ((quiet.uptodate g).symm.trans now)
  mapped listed now := by
    rcases quiet.mapped g with same | ⟨unmapped, _⟩
    · exact quiet.table ▸ listed (same.symm.trans now)
    · rw [unmapped] at now
      cases now
  locked lock := by
    refine ⟨quiet.holder g t' other lock, by rw [quiet.table], ?_, quiet.uptodate g⟩
    rcases quiet.mapped g with same | ⟨_, _, own⟩
    · exact same
    · exact absurd lock (own t' other)

theorem Counted.become (counted : Counted s) (counts : Recounted s.cache m' t gained lost)
    (refs : ∀ g, (p'.refs ++ h').count g + lost.count g = (s.refs t).count g + gained.count g) :
    Counted (s.become t m' p' h' failed') where
  each f t' := by
    by_cases own : t' = t
    · subst own
      have before := counted.each f t'
      have change := counts.own f
      have balance := refs f
      rw [become_refs_self, become_cache]
      omega
    · rw [become_refs_of_ne own, become_cache, counts.others f t' own]
      exact counted.each f t'
  all f := by
    have number := counts.number f
    have before := counted.all f
    rw [become_cache]
    omega

/-- The threads may go on to rely on their folios when one of them has left those of the
others alone. -/
theorem PlacesOk.become (ok : PlacesOk s) (leaves : ∀ t', t' ≠ t → ∀ g ∈ s.refs t', Leaves s.cache m' t' g)
    (own : PlaceOk m' t p') (held : ∀ g ∈ h', m'.Live g) (marked : ∀ g, s.unmarked t g = true → g ∈ h') :
    PlacesOk (s.become t m' p' h' failed') where
  places t' := by
    by_cases same : t' = t
    · subst same
      simpa using own
    · rw [become_place, Function.update_of_ne same]
      exact (ok.places t').leaves fun g member => leaves t' same g (List.mem_append_left _ member)
  heldLive t' f listed := by
    by_cases same : t' = t
    · subst same
      exact held f (by simpa using listed)
    · rw [become_held, Function.update_of_ne same] at listed
      exact (leaves t' same f (List.mem_append_right _ listed)).keepsLive (ok.heldLive t' f listed)
  unmarkedHeld t' f unmarked := by
    by_cases same : t' = t
    · subst same
      simpa using marked f unmarked
    · rw [become_held, Function.update_of_ne same]
      exact ok.unmarkedHeld t' f unmarked

/-- What is to be saved stays so when the folio stays dirty and its writer goes on. -/
theorem Unsaved.become {o : Nat} (unsaved : s.Unsaved f o)
    (dirty : (s.cache.folio f).dirty = true → (m'.folio f).dirty = true)
    (writes : ∀ arr stored, s.place t = .writing f arr stored → stored o = false → (m'.folio f).dirty = true ∨
      ∃ arr' stored', p' = .writing f arr' stored' ∧ stored' o = false) :
    (s.become t m' p' h' failed').Unsaved f o := by
  rcases unsaved with before | unmarked | ⟨t', arr, stored, writing, missing⟩
  · exact .inl (dirty before)
  · exact .inr (.inl unmarked)
  · by_cases own : t' = t
    · subst own
      rcases writes arr stored writing missing with now | ⟨arr', stored', there, still⟩
      · exact .inl now
      · exact .inr (.inr ⟨t', arr', stored', by simpa using there, still⟩)
    · exact .inr (.inr ⟨t', arr, stored, by simpa [Function.update_of_ne own] using writing, missing⟩)

/-- The contents when no folio has been read and those that have gone are saved. -/
theorem Contents.become (contents : Contents s) (live : ∀ g, m'.Live g → s.cache.Live g)
    (gone : ∀ g, s.cache.Live g → ¬ m'.Live g → ∀ o < pageSize, ¬ s.Unsaved g o)
    (index : ∀ g, (m'.folio g).index = (s.cache.folio g).index ∨ ¬ s.cache.Live g)
    (data : ∀ g, m'.Live g → (m'.folio g).data = (s.cache.folio g).data)
    (fails : ∀ i, failed' i = false → s.failed i = false)
    (unsaved : ∀ g o, m'.Live g → o < pageSize → failed' (s.cache.folio g).index = false → s.Unsaved g o →
      (s.become t m' p' h' failed').Unsaved g o) : Contents (s.become t m' p' h' failed') where
  cached f alive healthy o small := by
    have before := live f alive
    rcases index f with same | never
    · rw [become_cache, same] at healthy
      rw [become_cache, same, data f alive]
      obtain ⟨value, saved⟩ := contents.cached f before (fails _ healthy) o small
      exact ⟨value, saved.imp_left (unsaved f o alive small healthy)⟩
    · exact absurd before never
  uncached i healthy none o small := by
    by_cases some_folio : ∃ f, s.cache.Live f ∧ (s.cache.folio f).index = i
    · obtain ⟨f, alive, rfl⟩ := some_folio
      have dead : ¬ m'.Live f := by
        intro now
        rcases index f with same | never
        · exact none f now same
        · exact never alive
      exact (contents.cached f alive (fails _ healthy) o small).2.resolve_left (gone f alive dead o small)
    · exact contents.uncached i (fails i healthy) (fun f alive same => some_folio ⟨f, alive, same⟩) o small

/-- What is quiet keeps the table and the lists right. -/
theorem Quiet.cacheOk (quiet : Quiet m m' t) (ok : CacheOk m) : CacheOk m' where
  valid := by
    refine ⟨?_, ?_, ?_⟩
    · rw [quiet.table]
      exact ok.valid.once
    · rw [quiet.table]
      intro f listed
      rcases quiet.mapped f with same | ⟨_, absent, _⟩
      · rw [same]
        exact ok.valid.mapped f listed
      · exact absurd listed absent
    · rw [quiet.table]
      intro f listed g otherListed same
      rw [quiet.index, quiet.index] at same
      exact ok.valid.sameIndex f listed g otherListed same
  lruOnce := quiet.lruOnce ok.lruOnce
  lruListed f listed := by
    rw [quiet.table]
    rcases quiet.lruListed f listed with before | known
    · exact ok.lruListed f before
    · exact known
  dirtyOnce := by
    rw [quiet.dirtyList]
    exact ok.dirtyOnce
  dirtyFlag f listed := by
    rw [quiet.dirtyList] at listed
    rw [quiet.dirty]
    exact ok.dirtyFlag f listed
  dirtyLive f listed := by
    rw [quiet.dirtyList] at listed
    exact quiet.live.mpr (ok.dirtyLive f listed)

/-- A thread that moves on quietly keeps what holds. -/
theorem Inv.move (inv : Inv s) (quiet : Quiet s.cache m' t) (counts : Recounted s.cache m' t gained lost)
    (refs : ∀ g, (p'.refs ++ h').count g + lost.count g = (s.refs t).count g + gained.count g)
    (ok : PlaceOk m' t p') (held : ∀ g ∈ h', s.cache.Live g) (marked : ∀ g, s.unmarked t g = true → g ∈ h')
    (fails : ∀ i, failed' i = false → s.failed i = false)
    (writes : ∀ f arr stored o, s.place t = .writing f arr stored → stored o = false → o < pageSize →
      failed' (s.cache.folio f).index = false → (s.cache.folio f).dirty = true ∨
        ∃ arr' stored', p' = .writing f arr' stored' ∧ stored' o = false) :
    Inv (s.become t m' p' h' failed') where
  cache := quiet.cacheOk inv.cache
  counted := inv.counted.become counts refs
  places := inv.places.become (fun _ other _ _ => quiet.leaves other) ok
    (fun g listed => quiet.live.mpr (held g listed)) marked
  contents := by
    refine inv.contents.become (fun g => quiet.live.mp) (fun g alive dead => absurd (quiet.live.mpr alive) dead)
      (fun g => .inl (quiet.index g)) (fun g _ => quiet.data g) fails ?_
    intro g o _ small healthy unsaved
    refine unsaved.become (fun before => (quiet.dirty g).trans before) fun arr stored writing missing => ?_
    rw [quiet.dirty]
    exact writes g arr stored o writing missing small healthy

theorem Inv.goto (inv : Inv s) (quiet : Quiet s.cache m' t) (counts : Recounted s.cache m' t gained lost)
    (refs : ∀ g, p'.refs.count g + lost.count g = (s.place t).refs.count g + gained.count g)
    (ok : PlaceOk m' t p') (idle : ∀ f arr stored, s.place t ≠ .writing f arr stored) :
    Inv (s.goto t m' p') := by
  rw [goto_eq]
  refine inv.move quiet counts (fun g => ?_) ok (inv.places.heldLive t) (inv.places.unmarkedHeld t)
    (fun _ same => same) ?_
  · have balance := refs g
    rw [FolioThreads.refs, List.count_append, List.count_append]
    omega
  · intro f arr stored _ writing
    exact absurd writing (idle f arr stored)

end Quietly

/-! ## What is quiet -/

section Quiets

variable {m m' m'' : CachedMapping} {t f n now : Nat} {fs gained lost : List Nat}

theorem Quiet.refl (m : CachedMapping) (t : Nat) : Quiet m m t where
  table := rfl
  dirtyList := rfl
  lruOnce once := once
  lruListed _ listed := .inl listed
  index _ := rfl
  data _ := rfl
  uptodate _ := rfl
  mapped _ := .inl rfl
  dirty _ := rfl
  holder _ _ _ lock := lock

/-- Changing the references, the writeback flag and the lock of a folio is quiet when the
lock is free or the thread's own. -/
theorem quiet_modify {change : CachedFolio → CachedFolio} (index : (change (m.folio f)).index = (m.folio f).index)
    (data : (change (m.folio f)).data = (m.folio f).data)
    (uptodate : (change (m.folio f)).uptodate = (m.folio f).uptodate)
    (mapped : (change (m.folio f)).mapped = (m.folio f).mapped)
    (dirty : (change (m.folio f)).dirty = (m.folio f).dirty)
    (holder : ∀ t', t' ≠ t → (m.folio f).holder = some t' → (change (m.folio f)).holder = some t') :
    Quiet m (m.modify f change) t where
  table := rfl
  dirtyList := rfl
  lruOnce once := once
  lruListed _ listed := .inl listed
  index g := by
    rw [modify_folio]
    split <;> simp_all
  data g := by
    rw [modify_folio]
    split <;> simp_all
  uptodate g := by
    rw [modify_folio]
    split <;> simp_all
  mapped g := by
    left
    rw [modify_folio]
    split <;> simp_all
  dirty g := by
    rw [modify_folio]
    split <;> simp_all
  holder g t' other lock := by
    rw [modify_folio]
    split
    · rename_i same
      exact holder t' other (same ▸ lock)
    · exact lock

theorem quiet_get : Quiet m (m.folioGet t f) n := quiet_modify rfl rfl rfl rfl rfl fun _ _ lock => lock

theorem quiet_put : Quiet m (m.folioPut t f) n := quiet_modify rfl rfl rfl rfl rfl fun _ _ lock => lock

theorem quiet_writeback {on : Bool} : Quiet m (m.setWriteback f on) t :=
  quiet_modify rfl rfl rfl rfl rfl fun _ _ lock => lock

theorem quiet_lock (free : (m.folio f).holder = none) : Quiet m (m.setHolder f (some t)) t :=
  quiet_modify rfl rfl rfl rfl rfl fun _ _ lock => by rw [free] at lock; cases lock

theorem quiet_unlock (own : (m.folio f).holder = some t) : Quiet m (m.setHolder f none) t :=
  quiet_modify rfl rfl rfl rfl rfl fun _ other lock => by
    rw [own, Option.some.injEq] at lock
    exact absurd lock.symm other

theorem quiet_touch (listed : f ∈ m.table) : Quiet m (m.touch f) t where
  table := rfl
  dirtyList := rfl
  lruOnce once := List.nodup_cons.mpr ⟨once.not_mem_erase, once.erase f⟩
  lruListed g member := by
    rcases List.mem_cons.mp member with rfl | before
    · exact .inr listed
    · exact .inl (List.mem_of_mem_erase before)
  index _ := rfl
  data _ := rfl
  uptodate _ := rfl
  mapped _ := .inl rfl
  dirty _ := rfl
  holder _ _ _ lock := lock

theorem Quiet.trans (first : Quiet m m' t) (second : Quiet m' m'' t) : Quiet m m'' t where
  table := second.table.trans first.table
  dirtyList := second.dirtyList.trans first.dirtyList
  lruOnce once := second.lruOnce (first.lruOnce once)
  lruListed f listed := by
    rcases second.lruListed f listed with between | known
    · exact first.lruListed f between
    · exact .inr (first.table ▸ known)
  index g := (second.index g).trans (first.index g)
  data g := (second.data g).trans (first.data g)
  uptodate g := (second.uptodate g).trans (first.uptodate g)
  mapped g := by
    rcases first.mapped g with same | ⟨unmapped, absent, own⟩
    · rcases second.mapped g with same' | ⟨unmapped, absent, own⟩
      · exact .inl (same'.trans same)
      · exact .inr ⟨unmapped, first.table ▸ absent, fun t' other lock => own t' other (first.holder g t' other lock)⟩
    · rcases second.mapped g with same' | ⟨unmapped', _, _⟩
      · exact .inr ⟨same'.trans unmapped, absent, own⟩
      · exact .inr ⟨unmapped', absent, own⟩
  dirty g := (second.dirty g).trans (first.dirty g)
  holder g t' other lock := second.holder g t' other (first.holder g t' other lock)

/-- Giving up a folio that was allocated is quiet for the threads that cannot have it. -/
theorem quiet_giveUp (absent : f ∉ m.table) (own : (m.folio f).holder = some t) : Quiet m (m.giveUp t f) t where
  table := rfl
  dirtyList := rfl
  lruOnce once := once
  lruListed _ listed := .inl listed
  index g := by
    simp only [giveUp, folioPut, modify_folio]
    split <;> simp_all
  data g := by
    simp only [giveUp, folioPut, modify_folio]
    split <;> simp_all
  uptodate g := by
    simp only [giveUp, folioPut, modify_folio]
    split <;> simp_all
  mapped g := by
    by_cases same : g = f
    · subst same
      refine .inr ⟨by simp [giveUp, folioPut], absent, fun t' other lock => ?_⟩
      rw [own, Option.some.injEq] at lock
      exact other lock.symm
    · exact .inl (by simp [giveUp, folioPut, modify_folio, same])
  dirty g := by
    simp only [giveUp, folioPut, modify_folio]
    split <;> simp_all
  holder g t' other lock := by
    by_cases same : g = f
    · subst same
      rw [own, Option.some.injEq] at lock
      exact absurd lock.symm other
    · simpa [giveUp, folioPut, modify_folio, same] using lock

theorem quiet_gets : Quiet m (m.folioGets t fs) n := by
  induction fs generalizing m with
  | nil => exact .refl m n
  | cons f fs ih => exact quiet_get.trans ih

/-! ## What is counted -/

theorem recounted_same (table : m'.table = m.table) (refcount : ∀ g, (m'.folio g).refcount = (m.folio g).refcount)
    (referrers : ∀ g, (m'.folio g).referrers = (m.folio g).referrers) : Recounted m m' t [] [] where
  own g := by rw [referrers]
  others g _ _ := by rw [referrers]
  number g := by rw [refcount, referrers, tableRefs, tableRefs, table]

theorem Recounted.trans {gained' lost' : List Nat} (first : Recounted m m' t gained lost)
    (second : Recounted m' m'' t gained' lost') : Recounted m m'' t (gained ++ gained') (lost ++ lost') where
  own g := by
    have before := first.own g
    have behind := second.own g
    rw [List.count_append, List.count_append]
    omega
  others g t' other := (second.others g t' other).trans (first.others g t' other)
  number g := by
    have before := first.number g
    have behind := second.number g
    omega

theorem recounted_get : Recounted m (m.folioGet t f) t [f] [] where
  own g := by
    by_cases same : g = f
    · subst same
      simp [folioGet]
    · simp [folioGet, modify_folio, same, Ne.symm same]
  others g t' other := by
    by_cases same : g = f
    · subst same
      simp [folioGet, Ne.symm other]
    · simp [folioGet, modify_folio, same]
  number g := by
    by_cases same : g = f
    · subst same
      have table : (m.folioGet t g).tableRefs g = m.tableRefs g := rfl
      rw [table]
      simp only [folioGet, modify_folio_self, List.length_cons]
      omega
    · have table : (m.folioGet t f).tableRefs g = m.tableRefs g := rfl
      rw [table]
      simp [folioGet, modify_folio, same]

theorem recounted_gets : Recounted m (m.folioGets t fs) t fs [] := by
  induction fs generalizing m with
  | nil => exact recounted_same rfl (fun _ => rfl) fun _ => rfl
  | cons f fs ih => exact recounted_get.trans ih

theorem recounted_put (counted : 0 < (m.folio f).refcount) (holds : t ∈ (m.folio f).referrers) :
    Recounted m (m.folioPut t f) t [] [f] where
  own g := by
    by_cases same : g = f
    · subst same
      have positive := List.count_pos_iff.mpr holds
      simp [folioPut]
      omega
    · simp [folioPut, modify_folio, same, Ne.symm same]
  others g t' other := by
    by_cases same : g = f
    · subst same
      simp [folioPut, List.count_erase_of_ne other]
    · simp [folioPut, modify_folio, same]
  number g := by
    by_cases same : g = f
    · subst same
      have length := List.length_erase_of_mem holds
      have positive := List.length_pos_of_mem holds
      have table : (m.folioPut t g).tableRefs g = m.tableRefs g := rfl
      rw [table]
      simp only [folioPut, modify_folio_self]
      omega
    · have table : (m.folioPut t f).tableRefs g = m.tableRefs g := rfl
      rw [table]
      simp [folioPut, modify_folio, same]

theorem Counted.counted {s : FolioThreads} (counted : Counted s) (member : f ∈ s.refs t) :
    0 < (s.cache.folio f).refcount ∧ t ∈ (s.cache.folio f).referrers := by
  have positive := List.count_pos_iff.mpr member
  rw [← counted.each f t] at positive
  have holds := List.count_pos_iff.mp positive
  have some_holder := List.length_pos_of_mem holds
  have number := counted.all f
  exact ⟨by omega, holds⟩

end Quiets

end FolioThreads

end Ttntfs.Pagecache
