import Ttntfs.Pagecache.WalkProgress

/-!
# Writebacks and errors of a mapping

A mapping is settled while no folio of it is under writeback and no error is recorded for
it. Few steps can unsettle a mapping: one that puts a folio of it under writeback, in
`writeback_one` or in the file system's `write_folio`, and one that records an error.
-/

namespace Ttntfs.Pagecache

namespace PageCache

/-- No folio of the mapping is under writeback. -/
def NoWriteback (s : PageCache) (m : Nat) : Prop :=
  ∀ f, (s.folio f).mapping = some m → (s.folio f).writeback = false

/-- No folio of the mapping is under writeback, and no error waits to be reported. -/
def Settled (s : PageCache) (m : Nat) : Prop := NoWriteback s m ∧ (s.mapping m).wbErr = 0

/-- The event puts a folio of the mapping under writeback or records an error for it. -/
inductive Disturbs (s : PageCache) (m : Nat) : Event → Prop
  | starts (t k f : Nat) (rest : List Frame) (here : s.stack t = .startWriteback k f :: rest)
      (owner : (s.folio f).mapping = some m) : Disturbs s m (.run t)
  | backendStarts (t k f : Nat) (stored : Bool) (rest : List Frame) (here : s.stack t = .writeFolio k f stored :: rest)
      (owner : (s.folio f).mapping = some m) : Disturbs s m (.writeFolio t .startWriteback)
  | records (t f : Nat) (err : Int) (rest : List Frame) (here : s.stack t = .recordError m f err :: rest) :
      Disturbs s m (.run t)

/-- The step puts no folio of the mapping under writeback and records no error for it. -/
structure Calm (s s' : PageCache) (m : Nat) : Prop where
  writeback : ∀ f, (s'.folio f).mapping = some m → (s'.folio f).writeback = true →
    (s.folio f).mapping = some m ∧ (s.folio f).writeback = true
  wbErr : (s.mapping m).wbErr = 0 → (s'.mapping m).wbErr = 0

section Calm

variable {s s' s'' : PageCache} {event : Event} {t m f : Nat} {frame : Frame} {rest : List Frame}

theorem Calm.of_eq (folio : s'.folio = s.folio) (mapping : s'.mapping = s.mapping) : Calm s s' m := by
  constructor
  · intro f owner on
    rw [folio] at owner on
    exact ⟨owner, on⟩
  · rw [mapping]
    exact id

theorem Calm.trans (first : Calm s s' m) (second : Calm s' s'' m) : Calm s s'' m := by
  constructor
  · intro f owner on
    obtain ⟨owner', on'⟩ := second.writeback f owner on
    exact first.writeback f owner' on'
  · exact fun none => second.wbErr (first.wbErr none)

theorem Calm.modifyFolio (f : Nat) {change : Folio → Folio}
    (writeback : (change (s.folio f)).mapping = some m → (change (s.folio f)).writeback = true →
      (s.folio f).mapping = some m ∧ (s.folio f).writeback = true) : Calm s (s.modifyFolio f change) m := by
  constructor
  · intro g owner on
    rw [modifyFolio_folio] at owner on
    split at owner
    · rename_i same
      rw [if_pos same] at on
      rw [same]
      exact writeback owner on
    · rename_i other
      rw [if_neg other] at on
      exact ⟨owner, on⟩
  · exact id

theorem Calm.modifyMapping (k : Nat) {change : Mapping → Mapping}
    (wbErr : k = m → (s.mapping m).wbErr = 0 → (change (s.mapping m)).wbErr = 0) :
    Calm s (s.modifyMapping k change) m := by
  constructor
  · exact fun f owner on => ⟨owner, on⟩
  · intro none
    rw [modifyMapping_mapping]
    split
    · rename_i same
      rw [← same]
      exact wbErr same.symm none
    · exact none

theorem Calm.endWriteback (s : PageCache) (f : Nat) : Calm s (s.setWriteback f false) m :=
  Calm.modifyFolio f nofun

theorem Calm.setHolder (s : PageCache) (f : Nat) (holder : Option Nat) : Calm s (s.setHolder f holder) m :=
  Calm.modifyFolio f fun owner on => ⟨owner, on⟩

theorem Calm.startWriteback (other : (s.folio f).mapping ≠ some m) : Calm s (s.setWriteback f true) m :=
  Calm.modifyFolio f fun owner _ => absurd owner other

theorem Calm.modifyBoth (s : PageCache) (k f : Nat) {change : Folio → Folio} {change' : Mapping → Mapping}
    (owner : ∀ folio, (change folio).mapping = folio.mapping)
    (writeback : ∀ folio, (change folio).writeback = folio.writeback)
    (wbErr : ∀ mapping, (change' mapping).wbErr = mapping.wbErr) :
    Calm s ((s.modifyFolio f change).modifyMapping k change') m := by
  have first : Calm s (s.modifyFolio f change) m := by
    refine Calm.modifyFolio f ?_
    rw [owner, writeback]
    exact fun owned on => ⟨owned, on⟩
  refine first.trans (Calm.modifyMapping k ?_)
  intro _ none
  rw [wbErr]
  exact none

theorem Calm.setDirty (s : PageCache) (k f : Nat) : Calm s (s.setDirty k f).1 m := by
  rw [PageCache.setDirty]
  split
  · exact Calm.of_eq rfl rfl
  · have both : Calm s ((s.modifyFolio f fun folio =>
        { folio with dirty := true, dirtiedAt := s.now }).modifyMapping k fun mapping =>
          { mapping with dirty := mapping.dirty ++ [f], nrdirty := mapping.nrdirty + 1 }) m :=
      Calm.modifyBoth s k f (fun _ => rfl) (fun _ => rfl) (fun _ => rfl)
    exact both

theorem Calm.clearDirty (s : PageCache) (k f : Nat) : Calm s (s.clearDirty k f).1 m := by
  rw [PageCache.clearDirty]
  split
  · have both : Calm s ((s.modifyFolio f fun folio => { folio with dirty := false }).modifyMapping k
        fun mapping => { mapping with dirty := mapping.dirty.erase f, nrdirty := mapping.nrdirty - 1 }) m :=
      Calm.modifyBoth s k f (fun _ => rfl) (fun _ => rfl) (fun _ => rfl)
    exact both.trans (Calm.of_eq rfl rfl)
  · exact Calm.of_eq rfl rfl

theorem Calm.folioClearDirtyForIo (s : PageCache) (f : Nat) : Calm s (s.folioClearDirtyForIo f).1 m := by
  rw [PageCache.folioClearDirtyForIo]
  split
  · have cleared : Calm s (s.modifyFolio f fun folio => { folio with dirty := false }) m :=
      Calm.modifyFolio f fun owner on => ⟨owner, on⟩
    exact cleared
  · exact Calm.clearDirty s _ f

theorem Calm.goto (calm : Calm s s' m) (t : Nat) (stack : List Frame) : Calm s (s'.goto t stack) m :=
  calm.trans (Calm.of_eq rfl rfl)

theorem Calm.finish (calm : Calm s s' m) (t : Nat) (rest : List Frame) (err : Int) (redirtied : Nat) :
    Calm s (s'.finish t rest err redirtied) m :=
  calm.trans (Calm.of_eq rfl rfl)

theorem Calm.markReturns (calm : Calm s s' m) (k : Nat) : Calm s (s'.markReturns k) m :=
  calm.trans (Calm.of_eq rfl rfl)

theorem Calm.refl (s : PageCache) : Calm s s m := Calm.of_eq rfl rfl

/-- The step of a thread is calm unless it disturbs. -/
theorem runFrame_calm (here : s.stack t = frame :: rest) (happens : s.runFrame t rest frame = some s')
    (undisturbed : ¬ Disturbs s m (.run t)) : Calm s s' m := by
  cases frame with
  | markDirty f =>
    cases happens
    rw [folioMarkDirty]
    split
    · exact (Calm.refl s).goto t rest
    · dsimp only
      split
      · exact (Calm.setDirty s _ f).goto t _
      · exact ((Calm.setDirty s _ f).markReturns _).goto t rest
  | noteDirty k =>
    cases happens
    obtain ⟨folio, mapping, -⟩ := noteDirty_cache s k
    exact ((Calm.of_eq folio mapping).markReturns k).goto t rest
  | writeRange k first last older | thenWait k first last | syncLast sb =>
    cases happens
    exact (Calm.refl s).goto t _
  | writeFolios k arr err redirtied =>
    cases arr with
    | nil =>
      cases happens
      exact (Calm.refl s).finish t rest err redirtied
    | cons f arr =>
      rw [runFrame] at happens
      split at happens
      · cases happens
        exact (Calm.setHolder s f (some t)).goto t _
      · cases happens
  | startWriteback k f =>
    cases happens
    exact (Calm.startWriteback fun owner => undisturbed (.starts t k f rest here owner)).goto t _
  | clearDirtyForIo k f =>
    simp only [runFrame] at happens
    split at happens
    · cases happens
      exact (Calm.folioClearDirtyForIo s f).goto t _
    · cases happens
      exact (Calm.folioClearDirtyForIo s f).goto t _
  | abandonWriteback f =>
    cases happens
    exact (Calm.endWriteback s f).finish t rest 0 0
  | writeFolio k f stored => cases happens
  | recordError k f err =>
    cases happens
    have other : k ≠ m := by
      rintro rfl
      exact undisturbed (.records t f err rest here)
    exact (Calm.modifyMapping k fun same => absurd same other).goto t _
  | endWriteback f err =>
    cases happens
    exact (Calm.endWriteback s f).goto t _
  | testDirty f err | bothErrors err =>
    cases happens
    exact (Calm.refl s).finish t rest _ 0
  | wroteFolio k f arr err redirtied =>
    simp only [runFrame] at happens
    split at happens
    · cases happens
      exact (Calm.setHolder s f none).goto t _
    · cases happens
      exact (Calm.setHolder s f none).goto t _
  | retry k first last attempt =>
    rw [runFrame] at happens
    split at happens
    · cases happens
      exact (Calm.refl s).finish t rest _ 0
    · cases happens
      exact (Calm.refl s).goto t _
  | waitRange k first last =>
    rw [runFrame] at happens
    split at happens
    · cases happens
      exact (Calm.refl s).goto t _
    · cases happens
      exact (Calm.refl s).goto t _
  | waitWriteback f =>
    rw [runFrame] at happens
    split at happens
    · cases happens
    · cases happens
      exact (Calm.refl s).goto t rest
  | reportWbErr k =>
    cases happens
    exact (Calm.modifyMapping k fun _ _ => rfl).finish t rest _ 0
  | walkFrom w =>
    cases happens
    obtain ⟨folio, mapping, -⟩ :=
      advance_cache s t w 0 (if w.reverse then s.gDirty.reverse else s.gDirty) rest
    exact Calm.of_eq folio mapping
  | visited w k err =>
    cases happens
    obtain ⟨folio, mapping, -⟩ := resume_cache s t w k err rest
    exact Calm.of_eq folio mapping
  | syncDone sb err =>
    cases happens
    exact Calm.of_eq rfl rfl

/-- The step of the file system's `write_folio` is calm unless it disturbs. -/
theorem backend_calm {k f : Nat} {stored : Bool} {b : Backend} (here : s.stack t = .writeFolio k f stored :: rest)
    (happens : s.backend t k f stored rest b = some s') (undisturbed : ¬ Disturbs s m (.writeFolio t b)) :
    Calm s s' m := by
  cases b with
  | store =>
    cases happens
    exact Calm.of_eq rfl rfl
  | markDirty f' =>
    cases happens
    exact (Calm.refl s).goto t _
  | startWriteback =>
    cases happens
    exact Calm.startWriteback fun owner => undisturbed (.backendStarts t k f stored rest here owner)
  | endWriteback =>
    cases happens
    exact Calm.endWriteback s f
  | unlock =>
    rw [backend] at happens
    split at happens
    · cases happens
      exact Calm.setHolder s f none
    · cases happens
  | lock =>
    rw [backend] at happens
    split at happens
    · cases happens
      exact Calm.setHolder s f (some t)
    · cases happens
  | returns err =>
    rw [backend] at happens
    split at happens
    · split at happens
      · cases happens
        exact (Calm.refl s).goto t _
      · cases happens
        exact (Calm.refl s).goto t _
    · cases happens

/-- An event is calm unless it disturbs. -/
theorem next_calm (happens : s.next event = some s') (undisturbed : ¬ Disturbs s m event) :
    Calm s s' m := by
  cases event with
  | tick =>
    cases happens
    exact Calm.of_eq rfl rfl
  | insert k f index =>
    rw [next] at happens
    split at happens
    · cases happens
      have fresh : Calm s (s.modifyFolio f fun _ => freshFolio k index) m :=
        Calm.modifyFolio f fun _ on => absurd on Bool.false_ne_true
      exact fresh.trans (Calm.modifyMapping k fun _ none => none)
    · cases happens
  | call t c =>
    rw [next] at happens
    split at happens
    · cases happens
      obtain ⟨folio, mapping, -⟩ := begin_cache s t c
      exact Calm.of_eq folio mapping
    · cases happens
  | run t =>
    rw [next] at happens
    cases here : s.stack t with
    | nil =>
      rw [here] at happens
      cases happens
    | cons frame rest =>
      rw [here] at happens
      exact runFrame_calm here happens undisturbed
  | writeFolio t b =>
    rw [next] at happens
    split at happens
    · rename_i k f stored rest here
      exact backend_calm here happens undisturbed
    · cases happens

theorem NoWriteback.calm (none : NoWriteback s m) (calm : Calm s s' m) : NoWriteback s' m := by
  intro f owner
  cases on : (s'.folio f).writeback with
  | false => rfl
  | true =>
    obtain ⟨owner', on'⟩ := calm.writeback f owner on
    rw [none f owner'] at on'
    cases on'

theorem Settled.calm (settled : Settled s m) (calm : Calm s s' m) : Settled s' m :=
  ⟨settled.1.calm calm, calm.wbErr settled.2⟩

end Calm

end PageCache

end Ttntfs.Pagecache
