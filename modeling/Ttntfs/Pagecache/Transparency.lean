import Ttntfs.Pagecache.FolioChanges

/-!
# The cache is transparent

Every step of the threads keeps what holds of the folios. So whoever reads a page gets
what was last written to it, and what reclaim or an invalidation drops is in the store;
all this for the pages of which no write-back has failed. A failed write-back leaves its
folio clean, and when that folio is dropped what was written to it is lost.
-/

namespace Ttntfs.Pagecache

open CachedMapping

namespace FolioThreads

section Removing

variable {s s' : FolioThreads} {m' : CachedMapping} {t f n index want : Nat} {p p' : Place} {fs arr : List Nat}

theorem goto_goto (s : FolioThreads) (t : Nat) (m m' : CachedMapping) (p p' : Place) :
    (s.goto t m p).goto t m' p' = s.goto t m' p' := by
  simp [goto]

theorem goto_place (s : FolioThreads) (t : Nat) (m' : CachedMapping) :
    s.goto t m' (s.place t) = { s with cache := m' } := by
  rw [goto, Function.update_eq_self]

theorem Inv.not_unsaved (inv : Inv s) (clean : (s.cache.folio f).dirty = false)
    (unheld : ∀ t, f ∉ s.held t) (unwritten : ∀ t arr stored, s.place t ≠ .writing f arr stored) (o : Nat) :
    ¬ s.Unsaved f o := by
  rintro (dirty | ⟨t, unmarked⟩ | ⟨t, arr, stored, writing, _⟩)
  · rw [clean] at dirty
    cases dirty
  · exact unheld t (inv.places.unmarkedHeld t f unmarked)
  · exact unwritten t arr stored writing

/-- Reclaim removes a folio to which nobody but the table refers. -/
theorem Inv.reclaimOne (inv : Inv s) (listed : f ∈ s.cache.table) (alone : (s.cache.folio f).refcount = 1)
    (clean : (s.cache.folio f).dirty = false) : Inv { s with cache := s.cache.removeFolio f } := by
  have nobody (t : Nat) : f ∉ s.refs t := by
    intro member
    have holds := (inv.counted.counted member).2
    have some_holder := List.length_pos_of_mem holds
    have number := inv.counted.all f
    rw [tableRefs, if_pos listed] at number
    omega
  have unwritten (t : Nat) (arr : List Nat) (stored : Nat → Bool) : s.place t ≠ .writing f arr stored := by
    intro writing
    apply nobody t
    rw [FolioThreads.refs, writing]
    exact List.mem_append_left _ List.mem_cons_self
  have unheld (t : Nat) : f ∉ s.held t := fun member => nobody t (mem_refs_held member)
  rw [← goto_place s 0]
  refine inv.remove listed (fun _ o _ => inv.not_unsaved clean unheld unwritten o)
    (fun t' _ member => absurd member (nobody t')) (unheld 0) rfl ?_ fun g arr stored writing => writing
  refine (inv.places.places 0).leaves fun g member => ?_
  have other : g ≠ f := by
    rintro rfl
    exact nobody 0 (mem_refs_place member)
  exact leaves_of_eq (by rw [mem_removeFolio inv.cache]; tauto) (removeFolio_folio_of_ne other)

theorem Inv.reclaimFolios (inv : Inv s) (once : fs.Nodup) (listed : ∀ f ∈ fs, f ∈ s.cache.table) :
    Inv { s with cache := s.cache.reclaimFolios fs want } := by
  induction fs generalizing s want with
  | nil => exact inv
  | cons f fs ih =>
    obtain ⟨fresh, others⟩ := List.nodup_cons.mp once
    cases want with
    | zero => exact inv
    | succ want =>
      rw [CachedMapping.reclaimFolios]
      split
      · rename_i unused
        refine @ih { s with cache := s.cache.removeFolio f } want
          (inv.reclaimOne (listed f (by simp)) unused.1 unused.2.1) others fun g member => ?_
        refine (mem_removeFolio inv.cache).mpr ⟨?_, listed g (by simp [member])⟩
        rintro rfl
        exact fresh member
      · exact ih inv others fun g member => listed g (by simp [member])

theorem Inv.reclaim (inv : Inv s) (want : Nat) : Inv { s with cache := s.cache.reclaimFrom want } :=
  inv.reclaimFolios (List.nodup_reverse.mpr inv.cache.lruOnce) fun f member =>
    inv.cache.lruListed f (List.mem_reverse.mp member)

/-- What is known of a folio that an invalidation drops. -/
theorem Inv.dropped (inv : Inv s) (place : s.place t = .dropping f arr) (mapped : (s.cache.folio f).mapped = true)
    (unused : s.cache.unused f = true) : f ∈ s.cache.table ∧ (∀ t', t' ≠ t → f ∉ s.refs t') ∧
      f ∉ s.held t ∧ (s.cache.folio f).dirty = false ∧ ∀ o, ¬ s.Unsaved f o := by
  obtain ⟨lock, known⟩ : PlaceOk s.cache t (.dropping f arr) := place ▸ inv.places.places t
  have listed := known f (by simp) mapped
  simp only [CachedMapping.unused, Bool.and_eq_true, decide_eq_true_eq, Bool.not_eq_true'] at unused
  obtain ⟨⟨two, clean⟩, _⟩ := unused
  have number := inv.counted.all f
  rw [tableRefs, if_pos listed, two] at number
  obtain ⟨holder, only⟩ := List.length_eq_one_iff.mp (by omega : (s.cache.folio f).referrers.length = 1)
  have own := inv.counted.each f t
  rw [only, FolioThreads.refs, place] at own
  simp only [Place.refs, List.cons_append, List.count_cons_self, List.count_append] at own
  have same : holder = t := by
    by_contra other
    rw [List.count_singleton, if_neg (by simpa using other)] at own
    omega
  subst same
  have others (t' : Nat) (other : t' ≠ holder) : f ∉ s.refs t' := by
    intro member
    have holds := (inv.counted.counted member).2
    rw [only, List.mem_singleton] at holds
    exact other holds
  have unheld : f ∉ s.held holder := by
    intro member
    have positive := List.count_pos_iff.mpr member
    simp at own
    omega
  refine ⟨listed, others, unheld, clean, inv.not_unsaved clean (fun t' member => ?_) fun t' arr' stored writing => ?_⟩
  · by_cases same : t' = holder
    · exact unheld (same ▸ member)
    · exact others t' same (mem_refs_held member)
  · by_cases same : t' = holder
    · rw [same, place] at writing
      cases writing
    · apply others t' same
      rw [FolioThreads.refs, writing]
      exact List.mem_append_left _ List.mem_cons_self

end Removing

section Places

variable {s s' : FolioThreads} {m' : CachedMapping} {t f n index first older : Nat} {last : Option Nat}
  {fs arr : List Nat} {nf : Option Nat} {p p' : Place}

theorem Inv.found (inv : Inv s) (found : s.cache.idxLookup index = some f) :
    f ∈ s.cache.table ∧ (s.cache.folio f).index = index ∧ (s.cache.folio f).mapped = true := by
  obtain ⟨listed, place⟩ := inv.cache.valid.lookup_iff.mp found
  exact ⟨listed, place, inv.cache.valid.mapped f listed⟩

theorem Inv.putOk (inv : Inv s) (member : f ∈ (s.place t).refs) :
    Recounted s.cache (s.cache.folioPut t f) t [] [f] := by
  obtain ⟨counted, holds⟩ := inv.counted.counted (mem_refs_place member)
  exact recounted_put counted holds

theorem recounted_setHolder (m : CachedMapping) (f t : Nat) (holder : Option Nat) :
    Recounted m (m.setHolder f holder) t [] [] := by
  refine recounted_same rfl (fun g => ?_) fun g => ?_ <;>
    · rw [setHolder, modify_folio]
      split <;> simp_all

theorem recounted_setWriteback (m : CachedMapping) (f t : Nat) (on : Bool) :
    Recounted m (m.setWriteback f on) t [] [] := by
  refine recounted_same rfl (fun g => ?_) fun g => ?_ <;>
    · rw [setWriteback, modify_folio]
      split <;> simp_all

theorem recounted_refl (m : CachedMapping) (t : Nat) : Recounted m m t [] [] :=
  recounted_same rfl (fun _ => rfl) fun _ => rfl

theorem Inv.unlockPut (inv : Inv s) (member : f ∈ (s.place t).refs) :
    Recounted s.cache ((s.cache.setHolder f none).folioPut t f) t [] [f] := by
  obtain ⟨counted, holds⟩ := inv.counted.counted (mem_refs_place member)
  refine (recounted_setHolder s.cache f t none).trans (recounted_put ?_ ?_)
  · simpa [setHolder] using counted
  · simpa [setHolder] using holds

theorem Inv.lookup (inv : Inv s) (place : s.place t = .lookup index)
    (happens : s.runPlace t n (.lookup index) = some s') : Inv s' := by
  rw [runPlace] at happens
  split at happens
  · rename_i f found
    obtain ⟨listed, own, _⟩ := inv.found found
    cases happens
    refine inv.goto (quiet_get.trans (quiet_touch listed))
      (recounted_get.trans (recounted_same rfl (fun _ => rfl) fun _ => rfl)) ?_ ?_ (by simp [place])
    · simp [place, Place.refs]
    · refine ⟨?_, fun _ => listed⟩
      simpa [touch, folioGet] using own
  · cases happens
    exact inv.goto (.refl _ _) (recounted_refl _ _) (by simp [place, Place.refs]) trivial
      (by simp [place])

/-- `read_mapping_folio` behind its first lookup. -/
theorem Inv.testUptodate (inv : Inv s) (place : s.place t = .testUptodate index f)
    (happens : s.runPlace t n (.testUptodate index f) = some s') : Inv s' := by
  obtain ⟨own, listed⟩ : PlaceOk s.cache t (.testUptodate index f) := place ▸ inv.places.places t
  rw [runPlace] at happens
  split at happens
  · rename_i read
    cases happens
    refine inv.move (.refl _ _) (recounted_refl _ _) ?_ trivial ?_ ?_ (fun _ same => same)
      (by simp [place])
    · intro g
      simp [FolioThreads.refs, place, Place.refs]
    · intro g member
      rcases List.mem_cons.mp member with rfl | before
      · exact ⟨listed read, read⟩
      · exact inv.places.heldLive t g before
    · intro g unmarked
      exact List.mem_cons_of_mem _ (inv.places.unmarkedHeld t g unmarked)
  · cases happens
    exact inv.goto quiet_put (inv.putOk (by simp [place, Place.refs])) (by simp [place, Place.refs]) trivial
      (by simp [place])

/-- The second `__filemap_get_folio` at `repeat`. -/
theorem Inv.getFolio (inv : Inv s) (place : s.place t = .getFolio index nf)
    (happens : s.runPlace t n (.getFolio index nf) = some s') : Inv s' := by
  simp only [runPlace] at happens
  split at happens
  · rename_i f found
    obtain ⟨listed, own, mapped⟩ := inv.found found
    have stillMapped : (((s.cache.folioGet t f).touch f).folio f).mapped = true := by
      simpa [touch, folioGet] using mapped
    have taken : Recounted s.cache ((s.cache.folioGet t f).touch f) t [f] [] :=
      recounted_get.trans (recounted_same rfl (fun _ => rfl) fun _ => rfl)
    cases nf with
    | none =>
      cases happens
      exact inv.goto (quiet_get.trans (quiet_touch listed)) taken (by simp [place, Place.refs]) (fun _ => listed)
        (by simp [place])
    | some nf =>
      obtain ⟨_, absent, _, _, lock⟩ : PlaceOk s.cache t (.getFolio index (some nf)) := place ▸ inv.places.places t
      have other : nf ≠ f := by
        rintro rfl
        exact absent listed
      obtain ⟨counted, holds⟩ := inv.counted.counted (mem_refs_place (by simp [place, Place.refs] : nf ∈ (s.place t).refs))
      have same : ((s.cache.folioGet t f).touch f).folio nf = s.cache.folio nf := by
        simp [touch, folioGet, modify_folio, other]
      cases happens
      have given : Recounted ((s.cache.folioGet t f).touch f) (((s.cache.folioGet t f).touch f).giveUp t nf) t [] [nf] := by
        have unlocked : Recounted ((s.cache.folioGet t f).touch f) (((s.cache.folioGet t f).touch f).modify nf
            fun folio => { folio with mapped := false, holder := none }) t [] [] := by
          refine recounted_same rfl (fun g => ?_) fun g => ?_ <;>
            · rw [modify_folio]
              split <;> simp_all
        refine unlocked.trans (recounted_put ?_ ?_)
        · rw [modify_folio_self, same]
          exact counted
        · rw [modify_folio_self, same]
          exact holds
      refine inv.goto ((quiet_get.trans (quiet_touch listed)).trans (quiet_giveUp absent (by rw [same]; exact lock)))
        (taken.trans given) ?_ (fun _ => listed) (by simp [place])
      intro g
      simp only [place, Place.refs, Option.toList, List.append_nil, List.nil_append]
      omega
  · rename_i missed
    cases nf with
    | none =>
      dsimp only at happens
      split at happens
      · rename_i unused
        cases happens
        exact inv.alloc unused place
      · cases happens
    | some nf =>
      cases happens
      exact (inv.insert place missed).reclaim n

/-- `__filemap_get_folio` at `folio_lock`. -/
theorem Inv.lockFolio (inv : Inv s) (place : s.place t = .lockFolio index f)
    (happens : s.runPlace t n (.lockFolio index f) = some s') : Inv s' := by
  have known : PlaceOk s.cache t (.lockFolio index f) := place ▸ inv.places.places t
  rw [runPlace] at happens
  split at happens
  · rename_i free
    split at happens
    · rename_i here
      simp only [Bool.and_eq_true, decide_eq_true_eq] at here
      cases happens
      refine inv.goto (quiet_lock free) (recounted_setHolder _ _ _ _) ?_ ⟨?_, known here.1, ?_⟩ (by simp [place])
      · simp [place, Place.refs]
      · simpa [setHolder] using here.2
      · simp [setHolder]
    · cases happens
      exact inv.goto quiet_put (inv.putOk (by simp [place, Place.refs])) (by simp [place, Place.refs]) trivial
        (by simp [place])
  · cases happens

theorem Inv.returnLocked (inv : Inv s) (place : s.place t = .locked index f) (read : (s.cache.folio f).uptodate = true) :
    Inv (s.returnFolio t f (s.cache.setHolder f none)) := by
  obtain ⟨own, listed, lock⟩ : PlaceOk s.cache t (.locked index f) := place ▸ inv.places.places t
  refine inv.move (quiet_unlock lock) (recounted_setHolder _ _ _ _) ?_ trivial ?_ ?_ (fun _ same => same)
    (by simp [place])
  · intro g
    simp [FolioThreads.refs, place, Place.refs]
  · intro g member
    rcases List.mem_cons.mp member with rfl | before
    · exact ⟨listed, read⟩
    · exact inv.places.heldLive t g before
  · intro g unmarked
    exact List.mem_cons_of_mem _ (inv.places.unmarkedHeld t g unmarked)

theorem Inv.locked (inv : Inv s) (place : s.place t = .locked index f)
    (happens : s.runPlace t n (.locked index f) = some s') : Inv s' := by
  obtain ⟨own, listed, lock⟩ : PlaceOk s.cache t (.locked index f) := place ▸ inv.places.places t
  rw [runPlace] at happens
  split at happens
  · rename_i read
    cases happens
    exact inv.returnLocked place read
  · rename_i unread
    cases happens
    exact inv.goto (.refl _ _) (recounted_refl _ _) (by simp [place, Place.refs])
      ⟨own, listed, lock, by simpa using unread⟩ (by simp [place])

/-- `read_folio` returns. -/
theorem Inv.readReturns (inv : Inv s) (place : s.place t = .reading index f) (ok : Bool) :
    Inv (s.readReturns t f ok) := by
  obtain ⟨own, listed, lock, unread⟩ : PlaceOk s.cache t (.reading index f) := place ▸ inv.places.places t
  rw [FolioThreads.readReturns]
  split
  · have filled := inv.fill place
    have returned := @Inv.returnLocked _ t f index filled (by simp [FolioThreads.goto]) (by simp [FolioThreads.goto])
    simpa [returnFolio, FolioThreads.goto] using returned
  have dead : ¬ s.cache.Live f := by
    rintro ⟨_, read⟩
    rw [unread] at read
    cases read
  have removed : Inv (s.goto t (s.cache.removeFolio f) (.lockFolio index f)) := by
    refine inv.remove listed (fun alive => absurd alive dead) (fun t' other _ => ⟨dead, ?_⟩) ?_ ?_ ?_ (by simp [place])
    · rw [lock]
      simpa using Ne.symm other
    · exact fun member => dead (inv.places.heldLive t f member)
    · simp [place, Place.refs]
    · intro mapped
      rw [removeFolio_folio, if_pos rfl] at mapped
      cases mapped
  have mapped := inv.cache.valid.mapped f listed
  have cache : s.cache.removeLockedCond f false = s.cache.removeFolio f := by
    rw [removeLockedCond]
    simp [mapped]
  rw [cache, ← goto_goto s t (s.cache.removeFolio f) _ (.lockFolio index f)]
  refine removed.goto ((quiet_unlock ?_).trans quiet_put) (removed.unlockPut ?_) ?_ trivial ?_
  · simp only [FolioThreads.goto]
    rw [removeFolio_folio, if_pos rfl]
    exact lock
  · simp [FolioThreads.goto, Place.refs]
  · simp [FolioThreads.goto, Place.refs]
  · simp [FolioThreads.goto]

theorem Inv.collectDirty (inv : Inv s) : ∀ g ∈ s.cache.collectDirty first last older n, s.cache.Live g := by
  intro g listed
  rw [CachedMapping.collectDirty, List.mem_insertionSort] at listed
  have filtered := List.mem_of_mem_filter (List.mem_of_mem_take listed)
  exact inv.cache.dirtyLive g ((List.takeWhile_sublist _).subset filtered)

theorem mem_table_of_collectRange {m : CachedMapping} {g : Nat} (listed : g ∈ m.collectRange first last n) :
    g ∈ m.table := by
  rw [collectRange, List.mem_insertionSort] at listed
  exact List.mem_of_mem_filter (List.mem_of_mem_take listed)

/-- The folios of `write_range` and `drop_range` at the head of their loops are locked or
given back. -/
theorem Inv.writeFolios (inv : Inv s) (place : s.place t = .writeFolios arr)
    (happens : s.runPlace t n (.writeFolios arr) = some s') : Inv s' := by
  have live : PlaceOk s.cache t (.writeFolios arr) := place ▸ inv.places.places t
  cases arr with
  | nil =>
    cases happens
    exact inv.goto (.refl _ _) (recounted_refl _ _) (by simp [place, Place.refs]) trivial (by simp [place])
  | cons f arr =>
    rw [runPlace] at happens
    split at happens
    · rename_i free
      cases happens
      refine inv.goto (quiet_lock free) (recounted_setHolder _ _ _ _) (by simp [place, Place.refs]) ⟨?_, ?_⟩
        (by simp [place])
      · simp [setHolder]
      · exact fun g listed => (quiet_lock free).live.mpr (live g listed)
    · cases happens

theorem Inv.dropFolios (inv : Inv s) (place : s.place t = .dropFolios arr)
    (happens : s.runPlace t n (.dropFolios arr) = some s') : Inv s' := by
  have known : PlaceOk s.cache t (.dropFolios arr) := place ▸ inv.places.places t
  cases arr with
  | nil =>
    cases happens
    exact inv.goto (.refl _ _) (recounted_refl _ _) (by simp [place, Place.refs]) trivial (by simp [place])
  | cons f arr =>
    rw [runPlace] at happens
    split at happens
    · rename_i free
      cases happens
      refine inv.goto (quiet_lock free) (recounted_setHolder _ _ _ _) (by simp [place, Place.refs]) ⟨?_, ?_⟩
        (by simp [place])
      · simp [setHolder]
      · intro g listed mapped
        apply known g listed
        rcases (quiet_lock free).mapped g with same | ⟨unmapped, _⟩
        · exact same ▸ mapped
        · rw [unmapped] at mapped
          cases mapped
    · cases happens
      refine inv.goto quiet_put (inv.putOk (by simp [place, Place.refs])) (fun g => ?_) ?_ (by simp [place])
      · simp only [place, Place.refs, List.count_cons, List.count_nil]
        omega
      · intro g listed mapped
        apply known g (List.mem_cons_of_mem _ listed)
        rcases (@quiet_put s.cache t f t).mapped g with same | ⟨unmapped, _⟩
        · exact same ▸ mapped
        · rw [unmapped] at mapped
          cases mapped

/-- `__remove_locked_cond` of an invalidation. -/
theorem Inv.dropping (inv : Inv s) (place : s.place t = .dropping f arr)
    (happens : s.runPlace t n (.dropping f arr) = some s') : Inv s' := by
  obtain ⟨lock, known⟩ : PlaceOk s.cache t (.dropping f arr) := place ▸ inv.places.places t
  cases happens
  rw [removeLockedCond]
  split
  · exact inv.goto (.refl _ _) (recounted_refl _ _) (by simp [place, Place.refs]) ⟨lock, known⟩ (by simp [place])
  rename_i removes
  simp only [Bool.true_and, Bool.or_eq_true, Bool.not_eq_true', not_or, Bool.not_eq_false] at removes
  obtain ⟨listed, others, unheld, _, saved⟩ := inv.dropped place removes.1 removes.2
  refine inv.remove listed (fun _ o _ => saved o) (fun t' other member => absurd member (others t' other)) unheld
    (by simp [place, Place.refs]) ⟨?_, ?_⟩ (by simp [place])
  · rw [removeFolio_folio, if_pos rfl]
    exact lock
  · intro g listed mapped
    by_cases same : g = f
    · rw [same, removeFolio_folio, if_pos rfl] at mapped
      cases mapped
    · rw [removeFolio_folio_of_ne same] at mapped
      exact (mem_removeFolio inv.cache).mpr ⟨same, known g listed mapped⟩

theorem Inv.release (inv : Inv s) (refs : (s.place t).refs = f :: arr) (rest : p'.refs = arr)
    (lock : (s.cache.folio f).holder = some t)
    (ok : PlaceOk ((s.cache.setHolder f none).folioPut t f) t p')
    (idle : ∀ g arr stored, s.place t ≠ .writing g arr stored) :
    Inv (s.goto t ((s.cache.setHolder f none).folioPut t f) p') := by
  refine inv.goto ((quiet_unlock lock).trans quiet_put) (inv.unlockPut (by simp [refs])) (fun g => ?_) ok idle
  simp only [refs, rest, List.count_cons, List.count_nil]
  omega

/-- A thread takes a step from its place. -/
theorem Inv.runPlace (inv : Inv s) (place : s.place t = p) (happens : s.runPlace t n p = some s') : Inv s' := by
  have known : PlaceOk s.cache t p := place ▸ inv.places.places t
  cases p with
  | idle => cases happens
  | reading index f => cases happens
  | writing f arr stored => cases happens
  | lookup index => exact inv.lookup place happens
  | testUptodate index f => exact inv.testUptodate place happens
  | getFolio index nf => exact inv.getFolio place happens
  | lockFolio index f => exact inv.lockFolio place happens
  | locked index f => exact inv.locked place happens
  | writeFolios arr => exact inv.writeFolios place happens
  | dropFolios arr => exact inv.dropFolios place happens
  | dropping f arr => exact inv.dropping place happens
  | writeRange first last older =>
    cases happens
    exact inv.goto quiet_gets recounted_gets (by simp [place, Place.refs])
      (fun g listed => (@quiet_gets s.cache t t _).live.mpr (inv.collectDirty g listed)) (by simp [place])
  | invalidateRange first last =>
    cases happens
    refine inv.goto quiet_gets recounted_gets (by simp [place, Place.refs]) ?_ (by simp [place])
    intro g listed _
    rw [(@quiet_gets s.cache t t (s.cache.collectRange first last n)).table]
    exact mem_table_of_collectRange listed
  | startWriteback f arr =>
    cases happens
    refine inv.goto quiet_writeback (recounted_setWriteback _ _ _ _) (by simp [place, Place.refs])
      ⟨?_, fun g listed => (@quiet_writeback s.cache t f true).live.mpr (known.2 g listed)⟩ (by simp [place])
    simpa [setWriteback] using known.1
  | clearDirtyForIo f arr =>
    rw [FolioThreads.runPlace] at happens
    split at happens
    · cases happens
      exact inv.clear place
    rename_i clean
    have mapped := inv.cache.valid.mapped f (known.2 f (by simp)).1
    have same : s.cache.folioClearDirty f = s.cache := by
      rw [folioClearDirty, if_neg]
      simpa [mapped] using clean
    cases happens
    rw [same]
    refine inv.goto quiet_writeback (recounted_setWriteback _ _ _ _) (by simp [place, Place.refs])
      ⟨?_, fun g listed => (@quiet_writeback s.cache t f false).live.mpr (known.2 g listed)⟩ (by simp [place])
    simpa [setWriteback] using known.1
  | wrote f arr =>
    cases happens
    refine inv.release (by rw [place]; rfl) rfl known.1 (fun g listed => ?_) (by simp [place])
    exact ((quiet_unlock known.1).trans quiet_put).live.mpr (known.2 g (List.mem_cons_of_mem _ listed))
  | dropped f arr =>
    cases happens
    refine inv.release (by rw [place]; rfl) rfl known.1 (fun g listed mapped => ?_) (by simp [place])
    apply known.2 g (List.mem_cons_of_mem _ listed)
    rcases ((quiet_unlock known.1).trans (@quiet_put _ t f t)).mapped g with same | ⟨unmapped, _⟩
    · exact same ▸ mapped
    · rw [unmapped] at mapped
      cases mapped

end Places

section Runs

variable {s s' : FolioThreads} {t f : Nat} {arr : List Nat} {stored : Nat → Bool} {p : Place} {event : FolioEvent}
  {store : Nat → Page}

theorem Inv.begin (inv : Inv s) (happens : s.begin t p = some s') (refs : p.refs = []) (ok : PlaceOk s.cache t p) :
    Inv s' := by
  rw [FolioThreads.begin] at happens
  split at happens
  · rename_i idle
    cases happens
    refine inv.goto (.refl _ _) (recounted_refl _ _) (fun g => ?_) ok (by simp [idle])
    rw [idle, refs]
    rfl
  · cases happens

/-- A thread uses a folio that it has read. -/
theorem Inv.use (inv : Inv s) (uses : s.uses t f = true) (happens : s.use t f event = some s') : Inv s' := by
  have member : s.place t = .idle ∧ f ∈ s.held t := by
    rw [FolioThreads.uses] at uses
    split at uses
    · rename_i idle
      exact ⟨idle, by simpa using uses⟩
    · cases uses
  obtain ⟨idle, member⟩ := member
  cases event with
  | modify _ _ start stop bytes =>
    cases happens
    exact inv.modify member
  | markDirty _ _ =>
    cases happens
    exact (inv.setDirty (inv.places.heldLive t f member) s.now).marked
      ((folioSetDirty_fields s.cache s.now f f).2.2.2.2.2.2.2.mpr (.inl rfl))
  | put _ _ =>
    rw [FolioThreads.use] at happens
    split at happens
    · cases happens
    rename_i marked
    obtain ⟨counted, holds⟩ := inv.counted.counted (mem_refs_held member)
    cases happens
    have same : ({ s with cache := s.cache.folioPut t f
                          held := Function.update s.held t ((s.held t).erase f) } : FolioThreads) =
        s.become t (s.cache.folioPut t f) .idle ((s.held t).erase f) s.failed := by
      rw [become, ← idle, Function.update_eq_self]
    rw [same]
    refine inv.move quiet_put (recounted_put counted holds) (fun g => ?_) trivial
      (fun g listed => inv.places.heldLive t g (List.mem_of_mem_erase listed)) (fun g unmarked => ?_)
      (fun _ same => same) (by simp [idle])
    · have positive := List.count_pos_iff.mpr member
      by_cases own : g = f
      · subst own
        simp [FolioThreads.refs, idle, Place.refs]
        omega
      · simp [FolioThreads.refs, idle, Place.refs, List.count_erase_of_ne own, Ne.symm own]
    · have other : g ≠ f := by
        rintro rfl
        exact marked unmarked
      exact (List.mem_erase_of_ne other).mpr (inv.places.unmarkedHeld t g unmarked)
  | _ => cases happens

/-- A step of `write_folio`. -/
theorem Inv.write (inv : Inv s) (place : s.place t = .writing f arr stored)
    (happens : s.write t f arr stored event = some s') : Inv s' := by
  have live : PlaceOk s.cache t (.writing f arr stored) := place ▸ inv.places.places t
  have onward {m' : CachedMapping} (quiet : Quiet s.cache m' t) (counts : Recounted s.cache m' t [] []) :
      Inv (s.goto t m' (.writing f arr stored)) := by
    rw [goto_eq]
    refine inv.move quiet counts (by simp [FolioThreads.refs, place, Place.refs])
      (fun g listed => quiet.live.mpr (live g listed)) (inv.places.heldLive t) (inv.places.unmarkedHeld t)
      (fun _ same => same) ?_
    intro g arr' stored' o writing missing _ _
    rw [place] at writing
    cases writing
    exact .inr ⟨arr, stored, rfl, missing⟩
  cases event with
  | storeBytes _ start stop =>
    cases happens
    exact inv.store place rfl rfl rfl rfl rfl (fun _ => Function.update_apply _ _ _ _) rfl
  | redirty _ =>
    cases happens
    rw [← place, goto_place]
    exact inv.setDirty (live f (by simp)) s.now
  | flag _ on =>
    cases happens
    exact onward quiet_writeback (recounted_setWriteback _ _ _ _)
  | unlock _ =>
    rw [FolioThreads.write] at happens
    split at happens
    · rename_i own
      cases happens
      exact onward (quiet_unlock own) (recounted_setHolder _ _ _ _)
    · cases happens
  | lock _ =>
    rw [FolioThreads.write] at happens
    split at happens
    · rename_i free
      cases happens
      exact onward (quiet_lock free) (recounted_setHolder _ _ _ _)
    · cases happens
  | writeReturns _ err =>
    have wrote : (s.cache.folio f).holder = some t →
        PlaceOk (s.cache.setWriteback f false) t (.wrote f arr) := fun lock =>
      ⟨by simpa [setWriteback] using lock, fun g listed => (@quiet_writeback s.cache t f false).live.mpr (live g listed)⟩
    rw [FolioThreads.write] at happens
    split at happens
    · cases happens
    rename_i lock
    rw [ne_eq, not_not] at lock
    split at happens
    · cases happens
      have same : ({ s.goto t (s.cache.setWriteback f false) (.wrote f arr) with
            failed := Function.update s.failed (s.cache.folio f).index true } : FolioThreads) =
          s.become t (s.cache.setWriteback f false) (.wrote f arr) (s.held t)
            (Function.update s.failed (s.cache.folio f).index true) := by
        rw [FolioThreads.goto, become, Function.update_eq_self]
      rw [same]
      refine inv.move quiet_writeback (recounted_setWriteback _ _ _ _) (by simp [FolioThreads.refs, place, Place.refs])
        (wrote lock) (inv.places.heldLive t) (inv.places.unmarkedHeld t) (fun i healthy => ?_) ?_
      · by_cases own : i = (s.cache.folio f).index
        · rw [own, Function.update_self] at healthy
          cases healthy
        · rwa [Function.update_of_ne own] at healthy
      · intro g arr' stored' o writing _ _ healthy
        rw [place] at writing
        cases writing
        rw [Function.update_self] at healthy
        cases healthy
    · split at happens
      · rename_i whole
        cases happens
        rw [goto_eq]
        refine inv.move quiet_writeback (recounted_setWriteback _ _ _ _) (by simp [FolioThreads.refs, place, Place.refs])
          (wrote lock) (inv.places.heldLive t) (inv.places.unmarkedHeld t) (fun _ same => same) ?_
        intro g arr' stored' o writing missing small _
        rw [place] at writing
        cases writing
        rcases whole with dirty | all
        · exact .inl dirty
        · rw [all o small] at missing
          cases missing
      · cases happens
  | _ => cases happens

/-- Every step keeps what holds of the folios. -/
theorem Inv.next (inv : Inv s) (happens : s.next event = some s') : Inv s' := by
  have written {t : Nat} (happens : s.writer t event = some s') : Inv s' := by
    rw [writer] at happens
    split at happens
    · rename_i place
      exact inv.write place happens
    · cases happens
  have used {t f : Nat} (happens : (if s.uses t f then s.use t f event else none) = some s') : Inv s' := by
    split at happens
    · rename_i uses
      exact inv.use uses happens
    · cases happens
  cases event with
  | tick =>
    cases happens
    exact ⟨inv.cache, ⟨inv.counted.each, inv.counted.all⟩,
      ⟨inv.places.places, inv.places.heldLive, inv.places.unmarkedHeld⟩, ⟨inv.contents.cached, inv.contents.uncached⟩⟩
  | read t index | writeRange t first last older | invalidate t first last =>
    exact inv.begin happens rfl trivial
  | reclaim want =>
    cases happens
    exact inv.reclaim want
  | modify t f start stop bytes | markDirty t f | put t f => exact used happens
  | run t n => exact inv.runPlace rfl happens
  | noMemory t =>
    rw [FolioThreads.next] at happens
    split at happens
    · rename_i place
      split at happens
      · cases happens
        exact inv.goto (.refl _ _) (recounted_refl _ _) (by simp [place, Place.refs]) trivial (by simp [place])
      · cases happens
    · cases happens
  | readReturns t ok =>
    rw [FolioThreads.next] at happens
    split at happens
    · rename_i place
      cases happens
      exact inv.readReturns place ok
    · cases happens
  | storeBytes t start stop | redirty t | flag t on | unlock t | lock t | writeReturns t err =>
    exact written happens

theorem Reaches.inv (reached : Reaches store s) : Inv s := by
  induction reached with
  | start => exact inv_empty store
  | step _ happens ih => exact ih.next happens

/-- The event reclaims folios, by itself or behind an insertion, or goes on with an
invalidation. -/
def Evicts (s : FolioThreads) : FolioEvent → Prop
  | .reclaim _ => True
  | .run t _ => (∃ f arr, s.place t = .dropping f arr) ∨
      ∃ index nf, s.place t = .getFolio index (some nf) ∧ s.cache.idxLookup index = none
  | _ => False

/-- What was last written to the pages is what their readers get, and what is dropped is
in the store, but for pages that had a write-back that failed. -/
structure Transparent (s : FolioThreads) : Prop where
  reads : ∀ t f, f ∈ s.held t → s.failed (s.cache.folio f).index = false → ∀ o < pageSize,
    (s.cache.folio f).data o = s.value (s.cache.folio f).index o
  asked : ∀ t index f, s.place t = .testUptodate index f ∨ s.place t = .locked index f →
    (s.cache.folio f).index = index
  drops : ∀ event s', s.Evicts event → s.next event = some s' → ∀ f ∈ s.cache.table, f ∉ s'.cache.table →
    (s.cache.folio f).dirty = false ∧ (s.cache.folio f).writeback = false ∧
      (s.cache.Live f → s.failed (s.cache.folio f).index = false → ∀ o < pageSize,
        s.store (s.cache.folio f).index o = (s.cache.folio f).data o)

/-- Reclaim drops only folios that are clean, not under write-back, and that nobody refers
to. -/
theorem reclaimFolios_dropped {m : CachedMapping} {fs : List Nat} {want : Nat}
    (gone : f ∈ m.table) (dropped : f ∉ (m.reclaimFolios fs want).table) :
    (m.folio f).refcount = 1 ∧ (m.folio f).dirty = false ∧ (m.folio f).writeback = false := by
  induction fs generalizing m want with
  | nil => exact absurd gone dropped
  | cons g fs ih =>
    cases want with
    | zero => exact absurd gone dropped
    | succ want =>
      rw [CachedMapping.reclaimFolios] at dropped
      split at dropped
      · rename_i unused
        by_cases same : f = g
        · exact same ▸ ⟨unused.1, unused.2.1, unused.2.2.1⟩
        · have still : f ∈ (m.removeFolio g).table := by
            rw [removeFolio_table]
            exact (List.mem_erase_of_ne same).mpr gone
          have kept := ih still dropped
          rwa [removeFolio_folio_of_ne same] at kept
      · exact ih gone dropped

theorem Inv.saved (inv : Inv s) (saved : ∀ o, ¬ s.Unsaved f o) (live : s.cache.Live f)
    (healthy : s.failed (s.cache.folio f).index = false) (o : Nat) (small : o < pageSize) :
    s.store (s.cache.folio f).index o = (s.cache.folio f).data o := by
  obtain ⟨value, stored⟩ := inv.contents.cached f live healthy o small
  rw [value]
  exact stored.resolve_left (saved o)

theorem Inv.reclaimed (inv : Inv s) {want : Nat} (listed : f ∈ s.cache.table)
    (dropped : f ∉ (s.cache.reclaimFrom want).table) :
    (s.cache.folio f).dirty = false ∧ (s.cache.folio f).writeback = false ∧ ∀ o, ¬ s.Unsaved f o := by
  obtain ⟨one, clean, settled⟩ := reclaimFolios_dropped listed dropped
  have nobody (t : Nat) : f ∉ s.refs t := by
    intro member
    have some_holder := List.length_pos_of_mem (inv.counted.counted member).2
    have number := inv.counted.all f
    rw [tableRefs, if_pos listed] at number
    omega
  refine ⟨clean, settled, inv.not_unsaved clean (fun t member => nobody t (mem_refs_held member)) ?_⟩
  intro t arr stored writing
  apply nobody t
  rw [FolioThreads.refs, writing]
  exact List.mem_append_left _ List.mem_cons_self

/-- What an invalidation drops is saved. -/
theorem Inv.invalidated (inv : Inv s) {g : Nat} (place : s.place t = .dropping g arr) (listed : f ∈ s.cache.table)
    (dropped : f ∉ (s.cache.removeLockedCond g true).table) :
    (s.cache.folio f).dirty = false ∧ (s.cache.folio f).writeback = false ∧ ∀ o, ¬ s.Unsaved f o := by
  rw [removeLockedCond] at dropped
  split at dropped
  · exact absurd listed dropped
  rename_i removes
  simp only [Bool.true_and, Bool.or_eq_true, Bool.not_eq_true', not_or, Bool.not_eq_false] at removes
  rw [removeFolio_table] at dropped
  have same : f = g := by
    by_contra other
    exact dropped ((List.mem_erase_of_ne other).mpr listed)
  subst same
  obtain ⟨_, _, _, clean, saved⟩ := inv.dropped place removes.1 removes.2
  have settled := removes.2
  simp only [CachedMapping.unused, Bool.and_eq_true, Bool.not_eq_true'] at settled
  exact ⟨clean, settled.2, saved⟩

/-- What is evicted is saved. -/
theorem Inv.drops (inv : Inv s) (evicts : s.Evicts event) (happens : s.next event = some s')
    (listed : f ∈ s.cache.table) (dropped : f ∉ s'.cache.table) :
    (s.cache.folio f).dirty = false ∧ (s.cache.folio f).writeback = false ∧ ∀ o, ¬ s.Unsaved f o := by
  cases event with
  | reclaim want =>
    cases happens
    exact inv.reclaimed listed dropped
  | run t n =>
    rcases evicts with ⟨g, arr, place⟩ | ⟨index, nf, place, missed⟩
    · rw [FolioThreads.next, place] at happens
      cases happens
      exact inv.invalidated place listed dropped
    rw [FolioThreads.next, place] at happens
    simp only [FolioThreads.runPlace, missed] at happens
    cases happens
    have inserted := inv.insert place missed
    obtain ⟨_, absent, _⟩ : PlaceOk s.cache t (.getFolio index (some nf)) := place ▸ inv.places.places t
    have other : f ≠ nf := by
      rintro rfl
      exact absent listed
    obtain ⟨clean, settled, saved⟩ := inserted.reclaimed (List.mem_cons_of_mem _ listed) dropped
    have same : (s.goto t (s.cache.insert nf) (.locked index nf)).cache.folio f = s.cache.folio f :=
      insert_folio_of_ne other
    rw [same] at clean settled
    refine ⟨clean, settled, fun o unsaved => saved o ?_⟩
    exact unsaved.goto (fun dirty => by rw [insert_folio_of_ne other]; exact dirty) (by simp [place])
  | _ => cases evicts

/-- In every state that a run reaches the cache is transparent for the pages of which no
write-back has failed. -/
theorem cache_transparent (reached : Reaches store s) : Transparent s where
  reads t f held healthy o small :=
    (reached.inv.contents.cached f (reached.inv.places.heldLive t f held) healthy o small).1
  asked t index f place := by
    have known := reached.inv.places.places t
    rcases place with place | place
    · rw [place] at known
      exact known.1
    · rw [place] at known
      exact known.1
  drops event s' evicts happens f listed dropped := by
    obtain ⟨clean, settled, saved⟩ := reached.inv.drops evicts happens listed dropped
    exact ⟨clean, settled, reached.inv.saved saved⟩

theorem Reaches.run (reached : Reaches store s) {events : List FolioEvent} (happens : s.run events = some s') :
    Reaches store s' := by
  induction events generalizing s with
  | nil => exact Option.some.inj happens ▸ reached
  | cons event events ih =>
    rw [FolioThreads.run] at happens
    cases step : s.next event with
    | none =>
      rw [step] at happens
      cases happens
    | some between =>
      rw [step] at happens
      exact ih (reached.step step) happens

end Runs

/-- A thread reads page 0 into folio 0, writes a one to its first byte, marks it dirty and
gives it back. -/
def writeByte : List FolioEvent :=
  [.read 0 0, .run 0 0, .run 0 0, .run 0 0, .run 0 0, .readReturns 0 true, .modify 0 0 0 1 fun _ => 1,
    .markDirty 0 0, .put 0 0]

/-- Then its write-back begins. -/
def writeBegun : List FolioEvent :=
  writeByte ++ [.writeRange 0 0 none 0, .run 0 64, .run 0 0, .run 0 0, .run 0 0]

/-- The write-back ends, the folio is reclaimed, and the page is read again. -/
def reclaimAndRead : List FolioEvent :=
  [.run 0 0, .run 0 0, .reclaim 1, .read 0 0, .run 0 0, .run 0 1, .run 0 0, .run 0 0, .readReturns 0 true]

/-- `write_folio` brings a whole page to the store and returns. -/
def storePage (t : Nat) (s : FolioThreads) : Option FolioThreads :=
  (s.next (.storeBytes t 0 pageSize)).bind fun s =>
    match s.place t with
    | .writing f arr _ =>
      if (s.cache.folio f).holder = some t then some (s.goto t (s.cache.setWriteback f false) (.wrote f arr))
      else none
    | _ => none

theorem run_storePage (s : FolioThreads) (t : Nat) (events : List FolioEvent) :
    s.run (.storeBytes t 0 pageSize :: .writeReturns t 0 :: events) = (storePage t s).bind fun s => s.run events := by
  simp only [FolioThreads.run, FolioThreads.next, FolioThreads.writer, storePage]
  cases place : s.place t with
  | writing f arr stored =>
    simp only [FolioThreads.write, FolioThreads.goto, Function.update_self, Option.bind_some]
    by_cases holder : (s.cache.folio f).holder = some t
    · have saved : (s.cache.folio f).dirty = true ∨ ∀ o < pageSize, stored o = true ∨ o < pageSize :=
        .inr fun _ small => .inr small
      simp [holder, saved]
    · simp [holder]
  | _ => rfl

/-- A run in two parts. -/
theorem run_append (s : FolioThreads) (before after : List FolioEvent) :
    s.run (before ++ after) = (s.run before).bind fun s => s.run after := by
  induction before generalizing s with
  | nil => rfl
  | cons event rest ih =>
    rw [List.cons_append, FolioThreads.run, FolioThreads.run, Option.bind_assoc]
    congr 1
    funext s
    exact ih s

/-- The first folio is gone, and the reader holds a second one with the one that was written. -/
theorem cache_transparent_read_again :
    ∃ s, (empty fun _ _ => 0).run (writeBegun ++ .storeBytes 0 0 pageSize :: .writeReturns 0 0 :: reclaimAndRead) =
        some s ∧
      s.cache.table = [1] ∧ 1 ∈ s.held 0 ∧ (s.cache.folio 1).data 0 = 1 ∧ Transparent s := by
  have happens : ((((empty fun _ _ => 0).run writeBegun).bind fun s =>
      (storePage 0 s).bind fun s => s.run reclaimAndRead).any fun s => decide (s.cache.table = [1] ∧
        1 ∈ s.held 0 ∧ (s.cache.folio 1).data 0 = 1)) = true := by
    decide +kernel
  simp only [← run_storePage, ← run_append] at happens
  obtain ⟨s, run, last⟩ := (Option.any_eq_true ..).mp happens
  obtain ⟨table, held, data⟩ := of_decide_eq_true last
  exact ⟨s, run, table, held, data, cache_transparent (Reaches.start.run run)⟩

/-- If the write-back fails instead, the clean folio is reclaimed as well. -/
def failAndRead : List FolioEvent :=
  writeBegun ++ .writeReturns 0 (-5) :: reclaimAndRead

/-- What was written is lost: the reader gets the zero of the store. -/
theorem failed_write_is_lost : ∃ s, Reaches (fun _ _ => 0) s ∧ ∃ f ∈ s.held 0,
    (s.cache.folio f).index = 0 ∧ (s.cache.folio f).data 0 = 0 ∧ s.value 0 0 = 1 := by
  have happens : ((empty fun _ _ => 0).run failAndRead).any (fun s => decide (1 ∈ s.held 0 ∧
      (s.cache.folio 1).index = 0 ∧ (s.cache.folio 1).data 0 = 0 ∧ s.value 0 0 = 1)) = true := by
    decide +kernel
  cases run : (empty fun _ _ => 0).run failAndRead with
  | none =>
    rw [run] at happens
    cases happens
  | some s =>
    rw [run] at happens
    obtain ⟨held, index, data, value⟩ := of_decide_eq_true happens
    exact ⟨s, Reaches.start.run run, 1, held, index, data, value⟩

end FolioThreads

end Ttntfs.Pagecache
