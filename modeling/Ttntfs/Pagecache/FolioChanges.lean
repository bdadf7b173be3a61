import Ttntfs.Pagecache.FolioInvariant

/-!
# Changes of the cached folios

The steps that do more than move references: a folio is allocated, inserted, filled,
removed, changed, marked dirty, or brought to the store. Each keeps what holds of the
folios.
-/

namespace Ttntfs.Pagecache

open CachedMapping

namespace FolioThreads

section Cache

variable {m m' : CachedMapping} {t t' f g n now index : Nat}

theorem leaves_of_fields (table : g ∈ m'.table ↔ g ∈ m.table) (sameIndex : (m'.folio g).index = (m.folio g).index)
    (uptodate : (m'.folio g).uptodate = (m.folio g).uptodate) (mapped : (m'.folio g).mapped = (m.folio g).mapped)
    (holder : (m'.folio g).holder = (m.folio g).holder) : Leaves m m' t g where
  index := sameIndex
  uptodate read := uptodate.trans read
  live alive := table.mpr alive.1
  read now := .inl (uptodate.symm.trans now)
  mapped listed now := table.mpr (listed (mapped.symm.trans now))
  locked lock := ⟨holder.trans lock, table, mapped, uptodate⟩

theorem leaves_of_eq (table : g ∈ m'.table ↔ g ∈ m.table) (same : m'.folio g = m.folio g) : Leaves m m' t g :=
  leaves_of_fields table (by rw [same]) (by rw [same]) (by rw [same]) (by rw [same])

/-- Changes of single folios that leave the lists alone keep them right. -/
theorem CacheOk.of_fields (ok : CacheOk m) (table : m'.table = m.table) (lru : m'.lru = m.lru)
    (dirty : m'.dirty = m.dirty) (sameIndex : ∀ g ∈ m.table, (m'.folio g).index = (m.folio g).index)
    (mapped : ∀ g ∈ m.table, (m'.folio g).mapped = (m.folio g).mapped)
    (flag : ∀ g ∈ m.table, (m.folio g).dirty = true → (m'.folio g).dirty = true)
    (uptodate : ∀ g ∈ m.table, (m.folio g).uptodate = true → (m'.folio g).uptodate = true) : CacheOk m' where
  valid := by
    refine ⟨by rw [table]; exact ok.valid.once, ?_, ?_⟩
    · intro f listed
      rw [table] at listed
      exact (mapped f listed).trans (ok.valid.mapped f listed)
    · intro f listed g otherListed same
      rw [table] at listed otherListed
      rw [sameIndex f listed, sameIndex g otherListed] at same
      exact ok.valid.sameIndex f listed g otherListed same
  lruOnce := lru ▸ ok.lruOnce
  lruListed f listed := by
    rw [lru] at listed
    exact table ▸ ok.lruListed f listed
  dirtyOnce := dirty ▸ ok.dirtyOnce
  dirtyFlag f listed := by
    rw [dirty] at listed
    exact flag f (ok.dirtyLive f listed).1 (ok.dirtyFlag f listed)
  dirtyLive f listed := by
    rw [dirty] at listed
    obtain ⟨member, read⟩ := ok.dirtyLive f listed
    exact ⟨table ▸ member, uptodate f member read⟩

theorem allocNew_folio_of_ne (other : g ≠ n) : (m.allocNew t n index).folio g = m.folio g :=
  modify_folio_of_ne other

theorem CacheOk.alloc (ok : CacheOk m) (absent : n ∉ m.table) : CacheOk (m.allocNew t n index) := by
  have folio (g : Nat) (listed : g ∈ m.table) : (m.allocNew t n index).folio g = m.folio g :=
    allocNew_folio_of_ne fun same => absent (same ▸ listed)
  exact ok.of_fields rfl rfl rfl (fun g listed => by rw [folio g listed]) (fun g listed => by rw [folio g listed])
    (fun g listed => by rw [folio g listed]; exact id) fun g listed => by rw [folio g listed]; exact id

theorem insert_folio_of_ne (other : g ≠ n) : (m.insert n).folio g = m.folio g := by
  simp [CachedMapping.insert, modify_folio, other]

theorem insert_folio_self : (m.insert n).folio n = { m.folio n with refcount := (m.folio n).refcount + 1 } := by
  simp [CachedMapping.insert]

/-- A folio with an index of its own is inserted. -/
theorem CacheOk.insert (ok : CacheOk m) (absent : n ∉ m.table) (mapped : (m.folio n).mapped = true)
    (alone : ∀ g ∈ m.table, (m.folio g).index ≠ (m.folio n).index) : CacheOk (m.insert n) := by
  have folio (g : Nat) (listed : g ∈ m.table) : (m.insert n).folio g = m.folio g :=
    insert_folio_of_ne fun same => absent (same ▸ listed)
  refine ⟨⟨List.nodup_cons.mpr ⟨absent, ok.valid.once⟩, ?_, ?_⟩,
    List.nodup_cons.mpr ⟨fun listed => absent (ok.lruListed n listed), ok.lruOnce⟩, ?_, ok.dirtyOnce, ?_, ?_⟩
  · intro f listed
    rcases List.mem_cons.mp listed with rfl | before
    · rw [insert_folio_self]
      exact mapped
    · rw [folio f before]
      exact ok.valid.mapped f before
  · intro f listed g otherListed same
    rcases List.mem_cons.mp listed with rfl | before
    · rcases List.mem_cons.mp otherListed with rfl | otherBefore
      · rfl
      · rw [insert_folio_self, folio g otherBefore] at same
        exact absurd same.symm (alone g otherBefore)
    · rcases List.mem_cons.mp otherListed with rfl | otherBefore
      · rw [insert_folio_self, folio f before] at same
        exact absurd same (alone f before)
      · rw [folio f before, folio g otherBefore] at same
        exact ok.valid.sameIndex f before g otherBefore same
  · intro f listed
    rcases List.mem_cons.mp listed with rfl | before
    · exact List.mem_cons_self
    · exact List.mem_cons_of_mem _ (ok.lruListed f before)
  · intro f listed
    rw [folio f (ok.dirtyLive f listed).1]
    exact ok.dirtyFlag f listed
  · intro f listed
    obtain ⟨member, read⟩ := ok.dirtyLive f listed
    exact ⟨List.mem_cons_of_mem _ member, by rw [folio f member]; exact read⟩

theorem removeFolio_folio_of_ne (other : g ≠ f) : (m.removeFolio f).folio g = m.folio g := by
  rw [removeFolio_folio, if_neg other]

theorem mem_removeFolio (ok : CacheOk m) : g ∈ (m.removeFolio f).table ↔ g ≠ f ∧ g ∈ m.table := by
  rw [removeFolio_table, ok.valid.once.mem_erase_iff]

theorem dirty_removeFolio (ok : CacheOk m) : (m.removeFolio f).dirty.Nodup ∧
    ∀ g, g ∈ (m.removeFolio f).dirty ↔ g ≠ f ∧ g ∈ m.dirty := by
  have dirty : (m.removeFolio f).dirty = (m.folioClearDirty f).dirty := rfl
  rw [dirty, folioClearDirty]
  split
  · exact ⟨ok.dirtyOnce.erase f, fun g => ok.dirtyOnce.mem_erase_iff⟩
  · rename_i clean
    refine ⟨ok.dirtyOnce, fun g => ⟨fun listed => ⟨?_, listed⟩, fun both => both.2⟩⟩
    rintro rfl
    exact clean (ok.dirtyFlag g listed)

theorem lru_removeFolio : (m.removeFolio f).lru = m.lru.erase f := by
  simp [removeFolio]

theorem CacheOk.remove (ok : CacheOk m) : CacheOk (m.removeFolio f) := by
  obtain ⟨dirtyOnce, dirtyListed⟩ := @dirty_removeFolio m f ok
  refine ⟨⟨?_, ?_, ?_⟩, ?_, ?_, dirtyOnce, ?_, ?_⟩
  · rw [removeFolio_table]
    exact ok.valid.once.erase f
  · intro g listed
    obtain ⟨other, member⟩ := (mem_removeFolio ok).mp listed
    rw [removeFolio_folio_of_ne other]
    exact ok.valid.mapped g member
  · intro g listed g' otherListed same
    obtain ⟨other, member⟩ := (mem_removeFolio ok).mp listed
    obtain ⟨other', member'⟩ := (mem_removeFolio ok).mp otherListed
    rw [removeFolio_folio_of_ne other, removeFolio_folio_of_ne other'] at same
    exact ok.valid.sameIndex g member g' member' same
  · rw [lru_removeFolio]
    exact ok.lruOnce.erase f
  · intro g listed
    rw [lru_removeFolio, ok.lruOnce.mem_erase_iff] at listed
    exact (mem_removeFolio ok).mpr ⟨listed.1, ok.lruListed g listed.2⟩
  · intro g listed
    obtain ⟨other, member⟩ := (dirtyListed g).mp listed
    rw [removeFolio_folio_of_ne other]
    exact ok.dirtyFlag g member
  · intro g listed
    obtain ⟨other, member⟩ := (dirtyListed g).mp listed
    obtain ⟨cached, read⟩ := ok.dirtyLive g member
    exact ⟨(mem_removeFolio ok).mpr ⟨other, cached⟩, by rw [removeFolio_folio_of_ne other]; exact read⟩

theorem CacheOk.clear (ok : CacheOk m) : CacheOk (m.folioClearDirty f) := by
  have folio (g : Nat) (other : g ≠ f) : (m.folioClearDirty f).folio g = m.folio g := by
    rw [folioClearDirty_folio, if_neg other]
  have valid : (m.folioClearDirty f).Valid := by
    refine ⟨by rw [folioClearDirty_table]; exact ok.valid.once, ?_, ?_⟩
    · intro g listed
      rw [folioClearDirty_table] at listed
      rw [folioClearDirty_folio]
      split
      · rename_i same
        exact same ▸ ok.valid.mapped g listed
      · exact ok.valid.mapped g listed
    · intro g listed g' otherListed same
      rw [folioClearDirty_table] at listed otherListed
      have index (g : Nat) : ((m.folioClearDirty f).folio g).index = (m.folio g).index := by
        rw [folioClearDirty_folio]
        split <;> simp_all
      rw [index, index] at same
      exact ok.valid.sameIndex g listed g' otherListed same
  have dirtyOnce : (m.folioClearDirty f).dirty.Nodup := (@dirty_removeFolio m f ok).1
  have dirtyListed (g : Nat) : g ∈ (m.folioClearDirty f).dirty ↔ g ≠ f ∧ g ∈ m.dirty := (@dirty_removeFolio m f ok).2 g
  refine ⟨valid, by rw [folioClearDirty_lru]; exact ok.lruOnce, ?_, dirtyOnce, ?_, ?_⟩
  · intro g listed
    rw [folioClearDirty_lru] at listed
    rw [folioClearDirty_table]
    exact ok.lruListed g listed
  · intro g listed
    obtain ⟨other, member⟩ := (dirtyListed g).mp listed
    rw [folio g other]
    exact ok.dirtyFlag g member
  · intro g listed
    obtain ⟨other, member⟩ := (dirtyListed g).mp listed
    obtain ⟨cached, read⟩ := ok.dirtyLive g member
    exact ⟨by rw [folioClearDirty_table]; exact cached, by rw [folio g other]; exact read⟩

/-- Marking a folio dirty changes nothing else of the folios. -/
theorem folioSetDirty_fields (m : CachedMapping) (now f g : Nat) :
    ((m.folioSetDirty now f).folio g).index = (m.folio g).index ∧
      ((m.folioSetDirty now f).folio g).data = (m.folio g).data ∧
      ((m.folioSetDirty now f).folio g).uptodate = (m.folio g).uptodate ∧
      ((m.folioSetDirty now f).folio g).mapped = (m.folio g).mapped ∧
      ((m.folioSetDirty now f).folio g).holder = (m.folio g).holder ∧
      ((m.folioSetDirty now f).folio g).refcount = (m.folio g).refcount ∧
      ((m.folioSetDirty now f).folio g).referrers = (m.folio g).referrers ∧
      (((m.folioSetDirty now f).folio g).dirty = true ↔ g = f ∨ (m.folio g).dirty = true) := by
  rw [folioSetDirty_folio]
  by_cases change : g = f ∧ (m.folio f).dirty = false
  · rw [if_pos change]
    obtain ⟨rfl, _⟩ := change
    simp
  · rw [if_neg change]
    simp only [true_and]
    refine ⟨.inr, ?_⟩
    rintro (rfl | dirty)
    · simpa using change
    · exact dirty

theorem CacheOk.setDirty (ok : CacheOk m) (live : m.Live f) : CacheOk (m.folioSetDirty now f) := by
  have fields := folioSetDirty_fields m now f
  have lists : (m.folioSetDirty now f).lru = m.lru ∧ (m.folioSetDirty now f).dirty.Nodup ∧
      ∀ g ∈ (m.folioSetDirty now f).dirty, g = f ∨ g ∈ m.dirty := by
    rw [folioSetDirty]
    split
    · exact ⟨rfl, ok.dirtyOnce, fun g listed => .inr listed⟩
    rename_i clean
    refine ⟨rfl, ?_, fun g listed => ?_⟩
    · rw [List.nodup_append]
      refine ⟨ok.dirtyOnce, List.nodup_singleton f, ?_⟩
      intro g listed g' last same
      obtain rfl := List.mem_singleton.mp last
      exact clean (ok.dirtyFlag g' (same ▸ listed))
    · rw [List.mem_append, List.mem_singleton] at listed
      exact listed.symm
  obtain ⟨lru, once, listed⟩ := lists
  refine ⟨⟨by rw [folioSetDirty_table]; exact ok.valid.once, ?_, ?_⟩, lru ▸ ok.lruOnce, ?_, once, ?_, ?_⟩
  · intro g member
    rw [folioSetDirty_table] at member
    rw [(fields g).2.2.2.1]
    exact ok.valid.mapped g member
  · intro g member g' otherMember same
    rw [folioSetDirty_table] at member otherMember
    rw [(fields g).1, (fields g').1] at same
    exact ok.valid.sameIndex g member g' otherMember same
  · intro g member
    rw [lru] at member
    rw [folioSetDirty_table]
    exact ok.lruListed g member
  · intro g member
    rcases listed g member with same | before
    · exact (fields g).2.2.2.2.2.2.2.mpr (.inl same)
    · exact (fields g).2.2.2.2.2.2.2.mpr (.inr (ok.dirtyFlag g before))
  · intro g member
    rw [Live, folioSetDirty_table, (fields g).2.2.1]
    rcases listed g member with rfl | before
    · exact live
    · exact ok.dirtyLive g before

end Cache

section States

variable {s : FolioThreads} {t f n nf index now start stop : Nat} {p' : Place} {arr : List Nat}
  {stored : Nat → Bool} {bytes : Page}

theorem mem_refs_place (member : f ∈ (s.place t).refs) : f ∈ s.refs t := List.mem_append_left _ member

theorem mem_refs_held (member : f ∈ s.held t) : f ∈ s.refs t := List.mem_append_right _ member

theorem Counted.free (counted : Counted s) (none : (s.cache.folio f).refcount = 0) :
    f ∉ s.cache.table ∧ (s.cache.folio f).referrers = [] ∧ ∀ t, f ∉ s.refs t := by
  have number := counted.all f
  refine ⟨fun listed => ?_, List.eq_nil_of_length_eq_zero (by omega), fun t member => ?_⟩
  · rw [tableRefs, if_pos listed] at number
    omega
  · have some_reference := (counted.counted member).1
    omega

theorem Unsaved.goto {o : Nat} {m' : CachedMapping} (unsaved : s.Unsaved f o)
    (dirty : (s.cache.folio f).dirty = true → (m'.folio f).dirty = true)
    (idle : ∀ arr stored, s.place t ≠ .writing f arr stored) : (s.goto t m' p').Unsaved f o := by
  rw [goto_eq]
  exact unsaved.become dirty fun arr stored writing => absurd writing (idle arr stored)

/-- A thread allocates a folio. -/
theorem Inv.alloc (inv : Inv s) (unused : (s.cache.folio n).refcount = 0) (place : s.place t = .getFolio index none) :
    Inv (s.goto t (s.cache.allocNew t n index) (.getFolio index (some n))) := by
  obtain ⟨absent, nobody, unreferenced⟩ := inv.counted.free unused
  have folio (g : Nat) (other : g ≠ n) := @allocNew_folio_of_ne s.cache t g n index other
  have table : (s.cache.allocNew t n index).table = s.cache.table := rfl
  have live (g : Nat) (now : (s.cache.allocNew t n index).Live g) : g ≠ n := by
    rintro rfl
    exact absent now.1
  rw [goto_eq]
  refine ⟨inv.cache.alloc absent, @Counted.become _ _ _ _ _ [n] [] _ inv.counted ⟨?_, ?_, ?_⟩ ?_,
    inv.places.become ?_ ?_ ?_ (inv.places.unmarkedHeld t), inv.contents.become ?_ ?_ ?_ ?_ (fun _ same => same) ?_⟩
  · intro g
    by_cases same : g = n
    · subst same
      simp [allocNew, nobody]
    · rw [folio g same]
      simp [Ne.symm same]
  · intro g t' other
    by_cases same : g = n
    · subst same
      simp [allocNew, nobody, Ne.symm other]
    · rw [folio g same]
  · intro g
    have same_table : (s.cache.allocNew t n index).tableRefs g = s.cache.tableRefs g := rfl
    rw [same_table]
    by_cases same : g = n
    · subst same
      simp [allocNew, nobody, unused]
    · rw [folio g same]
  · intro g
    rw [FolioThreads.refs, place]
    simp only [Place.refs, Option.toList, List.count_append, List.count_nil]
    omega
  · intro t' _ g member
    exact leaves_of_eq (by rw [table]) (folio g fun same => unreferenced t' (same ▸ member))
  · simp [PlaceOk, allocNew, absent]
  · intro g listed
    have alive := inv.places.heldLive t g listed
    refine ⟨alive.1, ?_⟩
    rw [folio g fun same => absent (same ▸ alive.1)]
    exact alive.2
  · intro g now
    rw [Live, folio g (live g now)] at now
    exact now
  · intro g alive dead
    refine absurd ?_ dead
    rw [Live, folio g fun same => absent (same ▸ alive.1)]
    exact alive
  · intro g
    by_cases same : g = n
    · exact .inr fun alive => absent (same ▸ alive.1)
    · exact .inl (by rw [folio g same])
  · intro g now
    rw [folio g (live g now)]
  · intro g o now _ _ unsaved
    refine unsaved.become (fun dirty => ?_) fun arr stored writing => ?_
    · rw [folio g (live g now)]
      exact dirty
    · rw [place] at writing
      cases writing

/-- A thread inserts the folio that it has allocated. -/
theorem Inv.insert (inv : Inv s) (place : s.place t = .getFolio index (some nf))
    (missed : s.cache.idxLookup index = none) : Inv (s.goto t (s.cache.insert nf) (.locked index nf)) := by
  obtain ⟨own, absent, mapped, unread, lock⟩ : PlaceOk s.cache t (.getFolio index (some nf)) :=
    place ▸ inv.places.places t
  have alone (g : Nat) (listed : g ∈ s.cache.table) : (s.cache.folio g).index ≠ (s.cache.folio nf).index := by
    rw [own]
    exact idxLookup_none.mp missed g listed
  have folio (g : Nat) (other : g ≠ nf) := @insert_folio_of_ne s.cache g nf other
  have self := @insert_folio_self s.cache nf
  have table (g : Nat) : g ∈ (s.cache.insert nf).table ↔ g = nf ∨ g ∈ s.cache.table := List.mem_cons
  have live (g : Nat) : (s.cache.insert nf).Live g ↔ s.cache.Live g := by
    rw [Live, Live, table]
    by_cases same : g = nf
    · subst same
      simp [self, absent, unread]
    · simp [folio g same, same]
  rw [goto_eq]
  refine ⟨inv.cache.insert absent mapped alone, @Counted.become _ _ _ _ _ [] [] _ inv.counted ⟨?_, ?_, ?_⟩ ?_,
    inv.places.become ?_ ?_ ?_ (inv.places.unmarkedHeld t), inv.contents.become ?_ ?_ ?_ ?_ (fun _ same => same) ?_⟩
  · intro g
    by_cases same : g = nf
    · subst same
      rw [self]
    · rw [folio g same]
  · intro g t' _
    by_cases same : g = nf
    · subst same
      rw [self]
    · rw [folio g same]
  · intro g
    rw [tableRefs, tableRefs]
    by_cases same : g = nf
    · subst same
      rw [if_neg absent, if_pos ((table g).mpr (.inl rfl)), self]
      dsimp only
      omega
    · rw [folio g same]
      by_cases listed : g ∈ s.cache.table
      · rw [if_pos listed, if_pos ((table g).mpr (.inr listed))]
      · rw [if_neg listed, if_neg (mt (table g).mp (by tauto))]
  · intro g
    rw [FolioThreads.refs, place]
    rfl
  · intro t' other g _
    by_cases same : g = nf
    · subst same
      refine ⟨by rw [self], fun read => by rw [self]; exact read, fun alive => absurd alive.1 absent,
        fun now => .inr ((table g).mpr (.inl rfl)), fun _ _ => (table g).mpr (.inl rfl), fun otherLock => ?_⟩
      rw [lock, Option.some.injEq] at otherLock
      exact absurd otherLock.symm other
    · exact leaves_of_eq (by rw [table]; tauto) (folio g same)
  · refine ⟨by rw [self]; exact own, (table nf).mpr (.inl rfl), by rw [self]; exact lock⟩
  · intro g listed
    exact (live g).mpr (inv.places.heldLive t g listed)
  · intro g
    exact (live g).mp
  · intro g alive dead
    exact absurd ((live g).mpr alive) dead
  · intro g
    by_cases same : g = nf
    · subst same
      exact .inl (by rw [self])
    · exact .inl (by rw [folio g same])
  · intro g now
    rw [folio g fun same => absent (same ▸ ((live g).mp now).1)]
  · intro g o now _ _ unsaved
    refine unsaved.become (fun dirty => ?_) fun arr stored writing => ?_
    · rw [folio g fun same => absent (same ▸ ((live g).mp now).1)]
      exact dirty
    · rw [place] at writing
      cases writing

/-- `read_folio` fills a folio from the store. -/
theorem Inv.fill (inv : Inv s) (place : s.place t = .reading index f) :
    Inv (s.goto t (s.cache.modify f fun folio => { folio with data := s.store folio.index, uptodate := true })
      (.locked index f)) := by
  obtain ⟨own, listed, lock, unread⟩ : PlaceOk s.cache t (.reading index f) := place ▸ inv.places.places t
  generalize change : (fun folio : CachedFolio => { folio with data := s.store folio.index, uptodate := true }) = fill
  have folio (g : Nat) (other : g ≠ f) : (s.cache.modify f fill).folio g = s.cache.folio g := modify_folio_of_ne other
  have self : (s.cache.modify f fill).folio f =
      { s.cache.folio f with data := s.store (s.cache.folio f).index, uptodate := true } := by
    rw [modify_folio_self, ← change]
  have live (g : Nat) : (s.cache.modify f fill).Live g ↔ g = f ∨ s.cache.Live g := by
    rw [Live, Live, modify_table]
    by_cases same : g = f
    · rw [same, self]
      exact ⟨fun _ => .inl rfl, fun _ => ⟨listed, rfl⟩⟩
    · simp [folio g same, same]
  have sameOf (g : Nat) : ((s.cache.modify f fill).folio g).index = (s.cache.folio g).index ∧
      ((s.cache.modify f fill).folio g).mapped = (s.cache.folio g).mapped ∧
      ((s.cache.modify f fill).folio g).dirty = (s.cache.folio g).dirty ∧
      ((s.cache.modify f fill).folio g).refcount = (s.cache.folio g).refcount ∧
      ((s.cache.modify f fill).folio g).referrers = (s.cache.folio g).referrers ∧
      ((s.cache.modify f fill).folio g).holder = (s.cache.folio g).holder := by
    by_cases same : g = f
    · subst same
      rw [self]
      exact ⟨rfl, rfl, rfl, rfl, rfl, rfl⟩
    · rw [folio g same]
      exact ⟨rfl, rfl, rfl, rfl, rfl, rfl⟩
  rw [goto_eq]
  refine ⟨?_, inv.counted.become (recounted_same rfl (fun g => (sameOf g).2.2.2.1) fun g => (sameOf g).2.2.2.2.1) ?_,
    inv.places.become ?_ ⟨?_, listed, ?_⟩ ?_ (inv.places.unmarkedHeld t), ⟨?_, ?_⟩⟩
  · refine inv.cache.of_fields rfl rfl rfl (fun g _ => (sameOf g).1) (fun g _ => (sameOf g).2.1)
      (fun g _ dirty => (sameOf g).2.2.1.trans dirty) fun g member read => ?_
    exact ((live g).mpr (.inr ⟨member, read⟩)).2
  · intro g
    rw [FolioThreads.refs, place]
    rfl
  · intro t' other g _
    by_cases same : g = f
    · subst same
      refine ⟨(sameOf g).1, fun _ => by rw [self], fun alive => alive.1, fun _ => .inr listed,
        fun _ _ => listed, fun otherLock => ?_⟩
      rw [lock, Option.some.injEq] at otherLock
      exact absurd otherLock.symm other
    · exact leaves_of_eq .rfl (folio g same)
  · exact (sameOf f).1.trans own
  · exact (sameOf f).2.2.2.2.2.trans lock
  · intro g member
    exact (live g).mpr (.inr (inv.places.heldLive t g member))
  · intro g now healthy o small
    rw [become_cache, (sameOf g).1] at healthy ⊢
    rcases (live g).mp now with rfl | alive
    · have alone (g' : Nat) (alive : s.cache.Live g') : (s.cache.folio g').index ≠ (s.cache.folio g).index := by
        intro same
        obtain rfl := inv.cache.valid.sameIndex g' alive.1 g listed same
        rw [alive.2] at unread
        cases unread
      have saved := inv.contents.uncached (s.cache.folio g).index healthy alone o small
      rw [self]
      exact ⟨saved, .inr saved⟩
    · have other : g ≠ f := by
        rintro rfl
        rw [alive.2] at unread
        cases unread
      obtain ⟨value, saved⟩ := inv.contents.cached g alive healthy o small
      rw [folio g other]
      refine ⟨value, saved.imp_left fun unsaved => ?_⟩
      refine unsaved.become (fun dirty => (sameOf g).2.2.1.trans dirty) fun arr stored writing => ?_
      rw [place] at writing
      cases writing
  · intro i healthy elsewhere o small
    refine inv.contents.uncached i healthy (fun g alive => ?_) o small
    have different := elsewhere g ((live g).mpr (.inr alive))
    rwa [become_cache, (sameOf g).1] at different

/-- A folio that no other thread relies on is removed. -/
theorem Inv.remove (inv : Inv s) (listed : f ∈ s.cache.table)
    (saved : s.cache.Live f → ∀ o < pageSize, ¬ s.Unsaved f o)
    (others : ∀ t', t' ≠ t → f ∈ s.refs t' → ¬ s.cache.Live f ∧ (s.cache.folio f).holder ≠ some t')
    (unheld : f ∉ s.held t) (refs : p'.refs = (s.place t).refs) (ok : PlaceOk (s.cache.removeFolio f) t p')
    (writes : ∀ g arr stored, s.place t = .writing g arr stored → p' = .writing g arr stored) : Inv (s.goto t (s.cache.removeFolio f) p') := by
  have folio (g : Nat) (other : g ≠ f) := @removeFolio_folio_of_ne s.cache f g other
  have self := removeFolio_folio s.cache f f
  rw [if_pos rfl] at self
  have table (g : Nat) : g ∈ (s.cache.removeFolio f).table ↔ g ≠ f ∧ g ∈ s.cache.table := mem_removeFolio inv.cache
  have live (g : Nat) : (s.cache.removeFolio f).Live g ↔ g ≠ f ∧ s.cache.Live g := by
    rw [Live, Live, table]
    by_cases same : g = f
    · simp [same]
    · simp [folio g same, same]
  have fields (g : Nat) : ((s.cache.removeFolio f).folio g).index = (s.cache.folio g).index ∧
      ((s.cache.removeFolio f).folio g).referrers = (s.cache.folio g).referrers := by
    by_cases same : g = f
    · rw [same, self]
      exact ⟨rfl, rfl⟩
    · rw [folio g same]
      exact ⟨rfl, rfl⟩
  rw [goto_eq]
  refine ⟨inv.cache.remove, @Counted.become _ _ _ _ _ [] [] _ inv.counted ⟨?_, ?_, ?_⟩ ?_,
    inv.places.become ?_ ok ?_ (inv.places.unmarkedHeld t), inv.contents.become ?_ ?_ ?_ ?_ (fun _ same => same) ?_⟩
  · intro g
    rw [(fields g).2]
  · intro g t' _
    rw [(fields g).2]
  · intro g
    have number := inv.counted.all g
    rw [tableRefs] at number
    rw [tableRefs, tableRefs]
    by_cases same : g = f
    · subst same
      rw [if_pos listed] at number ⊢
      rw [if_neg (mt (table g).mp (by tauto)), self]
      dsimp only
      omega
    · rw [folio g same]
      by_cases member : g ∈ s.cache.table
      · rw [if_pos member, if_pos ((table g).mpr ⟨same, member⟩)]
      · rw [if_neg member, if_neg (mt (table g).mp (by tauto))]
  · intro g
    rw [FolioThreads.refs, refs]
  · intro t' other g member
    by_cases same : g = f
    · obtain ⟨dead, unlocked⟩ := others t' other (same ▸ member)
      subst same
      refine ⟨(fields g).1, fun read => absurd ⟨listed, read⟩ dead, fun alive => absurd alive dead, ?_, ?_,
        fun lock => absurd lock unlocked⟩
      · intro now
        rw [self] at now
        exact .inl now
      · intro _ now
        rw [self] at now
        cases now
    · exact leaves_of_eq (by rw [table]; tauto) (folio g same)
  · intro g member
    refine (live g).mpr ⟨?_, inv.places.heldLive t g member⟩
    rintro rfl
    exact unheld member
  · intro g now
    exact ((live g).mp now).2
  · intro g alive dead
    have same : g = f := by
      by_contra other
      exact dead ((live g).mpr ⟨other, alive⟩)
    subst same
    exact saved alive
  · intro g
    exact .inl (fields g).1
  · intro g now
    rw [folio g ((live g).mp now).1]
  · intro g o now _ _ unsaved
    refine unsaved.become (fun dirty => ?_) fun arr stored writing missing =>
      .inr ⟨arr, stored, writes g arr stored writing, missing⟩
    rw [folio g ((live g).mp now).1]
    exact dirty

/-- A folio is cleared for its write. -/
theorem Inv.clear (inv : Inv s) (place : s.place t = .clearDirtyForIo f arr) :
    Inv (s.goto t (s.cache.folioClearDirty f) (.writing f arr fun _ => false)) := by
  obtain ⟨lock, alive⟩ : PlaceOk s.cache t (.clearDirtyForIo f arr) := place ▸ inv.places.places t
  have fields (g : Nat) : ((s.cache.folioClearDirty f).folio g) =
      { s.cache.folio g with dirty := ((s.cache.folioClearDirty f).folio g).dirty } := by
    rw [folioClearDirty_folio]
    by_cases same : g = f
    · subst same
      simp
    · simp [same]
  have table := @folioClearDirty_table s.cache f
  have live (g : Nat) : (s.cache.folioClearDirty f).Live g ↔ s.cache.Live g := by
    rw [Live, Live, table, fields]
  rw [goto_eq]
  refine ⟨inv.cache.clear, inv.counted.become (recounted_same table (fun g => by rw [fields]) fun g => by rw [fields]) ?_,
    inv.places.become ?_ ?_ ?_ (inv.places.unmarkedHeld t), inv.contents.become ?_ ?_ ?_ ?_ (fun _ same => same) ?_⟩
  · intro g
    rw [FolioThreads.refs, place]
    rfl
  · intro t' _ g _
    exact leaves_of_fields (by rw [table]) (by rw [fields]) (by rw [fields]) (by rw [fields]) (by rw [fields])
  · intro g listed
    exact (live g).mpr (alive g listed)
  · intro g listed
    exact (live g).mpr (inv.places.heldLive t g listed)
  · intro g
    exact (live g).mp
  · intro g now dead
    exact absurd ((live g).mpr now) dead
  · intro g
    exact .inl (by rw [fields])
  · intro g _
    rw [fields]
  · intro g o _ _ _ unsaved
    by_cases same : g = f
    · subst same
      exact .inr (.inr ⟨t, arr, fun _ => false, by simp, rfl⟩)
    · refine unsaved.become (fun dirty => ?_) fun arr stored writing => ?_
      · rw [folioClearDirty_folio, if_neg same]
        exact dirty
      · rw [place] at writing
        cases writing

/-- A folio that has been read is marked dirty. -/
theorem Inv.setDirty (inv : Inv s) (alive : s.cache.Live f) (now : Nat) :
    Inv { s with cache := s.cache.folioSetDirty now f } := by
  have fields := folioSetDirty_fields s.cache now f
  have table := @folioSetDirty_table s.cache f now
  have live (g : Nat) : (s.cache.folioSetDirty now f).Live g ↔ s.cache.Live g := by
    rw [Live, Live, table, (fields g).2.2.1]
  refine ⟨inv.cache.setDirty alive, ⟨?_, ?_⟩, ⟨?_, ?_, inv.places.unmarkedHeld⟩, ⟨?_, ?_⟩⟩
  · intro g t
    dsimp only
    rw [(fields g).2.2.2.2.2.2.1]
    exact inv.counted.each g t
  · intro g
    have number := inv.counted.all g
    rw [tableRefs] at number ⊢
    dsimp only
    rw [(fields g).2.2.2.2.2.2.1, (fields g).2.2.2.2.2.1, table]
    exact number
  · intro t
    refine (inv.places.places t).leaves fun g _ => ?_
    exact leaves_of_fields (by rw [table]) (fields g).1 (fields g).2.2.1 (fields g).2.2.2.1 (fields g).2.2.2.2.1
  · intro t g listed
    exact (live g).mpr (inv.places.heldLive t g listed)
  · intro g now healthy o small
    dsimp only at healthy ⊢
    rw [(fields g).1] at healthy ⊢
    obtain ⟨value, saved⟩ := inv.contents.cached g ((live g).mp now) healthy o small
    refine ⟨by rw [(fields g).2.1]; exact value, saved.imp_left ?_⟩
    rintro (dirty | others)
    · exact .inl ((fields g).2.2.2.2.2.2.2.mpr (.inr dirty))
    · exact .inr others
  · intro i healthy elsewhere o small
    refine inv.contents.uncached i healthy (fun g now => ?_) o small
    have different := elsewhere g ((live g).mpr now)
    dsimp only at different
    rwa [(fields g).1] at different

/-- A thread changes bytes of a folio that it has read. -/
theorem Inv.modify (inv : Inv s) (member : f ∈ s.held t) : Inv { s with
    cache := s.cache.modify f fun folio => { folio with data := patch folio.data start stop bytes }
    value := Function.update s.value (s.cache.folio f).index (patch (s.value (s.cache.folio f).index) start stop bytes)
    unmarked := fun t' f' => s.unmarked t' f' || decide (t' = t) && decide (f' = f) } := by
  have alive := inv.places.heldLive t f member
  generalize change : (fun folio : CachedFolio => { folio with data := patch folio.data start stop bytes }) = edit
  have fields (g : Nat) : (s.cache.modify f edit).folio g =
      { s.cache.folio g with
        data := if g = f then patch (s.cache.folio f).data start stop bytes else (s.cache.folio g).data } := by
    rw [modify_folio, ← change]
    by_cases same : g = f
    · subst same
      simp
    · simp [same]
  have live (g : Nat) : (s.cache.modify f edit).Live g ↔ s.cache.Live g := by
    rw [Live, Live, modify_table, fields]
  refine ⟨?_, ⟨?_, ?_⟩, ⟨?_, ?_, ?_⟩, ⟨?_, ?_⟩⟩
  · exact inv.cache.of_fields rfl rfl rfl (fun g _ => by rw [fields]) (fun g _ => by rw [fields])
      (fun g _ dirty => by rw [fields]; exact dirty) fun g _ read => by rw [fields]; exact read
  · intro g t'
    dsimp only
    rw [fields]
    exact inv.counted.each g t'
  · intro g
    have number := inv.counted.all g
    rw [tableRefs] at number ⊢
    dsimp only
    rw [fields]
    exact number
  · intro t'
    refine (inv.places.places t').leaves fun g _ => ?_
    exact leaves_of_fields .rfl (by rw [fields]) (by rw [fields]) (by rw [fields]) (by rw [fields])
  · intro t' g listed
    exact (live g).mpr (inv.places.heldLive t' g listed)
  · intro t' g unmarked
    simp only [Bool.or_eq_true, Bool.and_eq_true, decide_eq_true_eq] at unmarked
    rcases unmarked with before | ⟨rfl, rfl⟩
    · exact inv.places.unmarkedHeld t' g before
    · exact member
  · intro g now healthy o small
    have before := (live g).mp now
    dsimp only at healthy ⊢
    rw [fields] at healthy ⊢
    dsimp only at healthy ⊢
    obtain ⟨value, saved⟩ := inv.contents.cached g before healthy o small
    by_cases same : g = f
    · subst same
      rw [if_pos rfl, Function.update_self, patch, patch]
      refine ⟨by rw [value], .inl (.inr (.inl ⟨t, by simp⟩))⟩
    · have other : (s.cache.folio g).index ≠ (s.cache.folio f).index := fun index =>
        same (inv.cache.valid.sameIndex g before.1 f alive.1 index)
      rw [if_neg same, Function.update_of_ne other]
      refine ⟨value, saved.imp_left ?_⟩
      rintro (dirty | ⟨t', unmarked⟩ | writing)
      · exact .inl (by dsimp only; rw [fields]; exact dirty)
      · exact .inr (.inl ⟨t', by simp [unmarked]⟩)
      · exact .inr (.inr writing)
  · intro i healthy elsewhere o small
    have other : i ≠ (s.cache.folio f).index := by
      intro same
      have different := elsewhere f ((live f).mpr alive)
      dsimp only at different
      rw [fields] at different
      exact different same.symm
    dsimp only
    rw [Function.update_of_ne other]
    refine inv.contents.uncached i healthy (fun g now => ?_) o small
    have different := elsewhere g ((live g).mpr now)
    dsimp only at different
    rwa [fields] at different

theorem Inv.marked (inv : Inv s) (dirty : (s.cache.folio f).dirty = true) :
    Inv { s with unmarked := fun t' f' => s.unmarked t' f' && !(decide (t' = t) && decide (f' = f)) } := by
  refine ⟨inv.cache, ⟨inv.counted.each, inv.counted.all⟩,
    ⟨inv.places.places, inv.places.heldLive, fun t' g unmarked => ?_⟩, ⟨?_, inv.contents.uncached⟩⟩
  · exact inv.places.unmarkedHeld t' g (Bool.and_eq_true _ _ |>.mp unmarked).1
  · intro g alive healthy o small
    obtain ⟨value, saved⟩ := inv.contents.cached g alive healthy o small
    refine ⟨value, saved.imp_left ?_⟩
    rintro (still | ⟨t', unmarked⟩ | writing)
    · exact .inl still
    · by_cases same : g = f
      · exact .inl (same ▸ dirty)
      · exact .inr (.inl ⟨t', by simp [unmarked, same]⟩)
    · exact .inr (.inr writing)

/-- `write_folio` brings bytes of its folio to the store. -/
theorem Inv.store (inv : Inv s) (place : s.place t = .writing f arr stored) {s' : FolioThreads}
    (cache : s'.cache = s.cache) (held : s'.held = s.held) (same : s'.value = s.value)
    (marks : s'.unmarked = s.unmarked) (fails : s'.failed = s.failed)
    (placeOf : ∀ t', s'.place t' =
      if t' = t then .writing f arr fun o => stored o || decide (start ≤ o ∧ o < stop) else s.place t')
    (storeOf : s'.store = Function.update s.store (s.cache.folio f).index
      (patch (s.store (s.cache.folio f).index) start stop (s.cache.folio f).data)) : Inv s' := by
  have live : PlaceOk s.cache t (.writing f arr stored) := place ▸ inv.places.places t
  have alive : s.cache.Live f := live f (by simp)
  refine ⟨cache ▸ inv.cache, ⟨?_, ?_⟩, ⟨?_, ?_, ?_⟩, ⟨?_, ?_⟩⟩
  · intro g t'
    have before := inv.counted.each g t'
    rw [FolioThreads.refs] at before ⊢
    rw [placeOf, cache, held]
    by_cases own : t' = t
    · subst own
      rw [place] at before
      rw [if_pos rfl]
      exact before
    · rw [if_neg own]
      exact before
  · rw [cache]
    exact inv.counted.all
  · intro t'
    rw [placeOf, cache]
    by_cases own : t' = t
    · subst own
      rw [if_pos rfl]
      exact live
    · rw [if_neg own]
      exact inv.places.places t'
  · rw [cache, held]
    exact inv.places.heldLive
  · rw [marks, held]
    exact inv.places.unmarkedHeld
  · intro g now healthy o small
    rw [cache] at now healthy ⊢
    rw [fails] at healthy
    obtain ⟨value, saved⟩ := inv.contents.cached g now healthy o small
    rw [same, storeOf]
    refine ⟨value, ?_⟩
    have still (kept : g ≠ f ∨ ¬ (start ≤ o ∧ o < stop)) : s.Unsaved g o → s'.Unsaved g o := by
      rintro (dirty | unmarked | ⟨t', arr', stored', writing, missing⟩)
      · exact .inl (cache ▸ dirty)
      · exact .inr (.inl (marks ▸ unmarked))
      · by_cases own : t' = t
        · subst own
          rw [place] at writing
          cases writing
          refine .inr (.inr ⟨t', arr, _, by rw [placeOf, if_pos rfl], ?_⟩)
          simp [missing, kept.resolve_left (fun other => other rfl)]
        · exact .inr (.inr ⟨t', arr', stored', by rw [placeOf, if_neg own]; exact writing, missing⟩)
    by_cases own : g = f
    · subst own
      rw [Function.update_self, patch]
      by_cases brought : start ≤ o ∧ o < stop
      · rw [if_pos brought]
        exact .inr value
      · rw [if_neg brought]
        exact saved.imp_left (still (.inr brought))
    · have other : (s.cache.folio g).index ≠ (s.cache.folio f).index := fun index =>
        own (inv.cache.valid.sameIndex g now.1 f alive.1 index)
      rw [Function.update_of_ne other]
      exact saved.imp_left (still (.inl own))
  · intro i healthy elsewhere o small
    rw [cache] at elsewhere
    rw [fails] at healthy
    have other : i ≠ (s.cache.folio f).index := fun own => elsewhere f alive own.symm
    rw [same, storeOf, Function.update_of_ne other]
    exact inv.contents.uncached i healthy elsewhere o small

end States

end FolioThreads

end Ttntfs.Pagecache
