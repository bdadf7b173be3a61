import Ttntfs.Pagecache.SyncWaits

/-!
# The lock of a folio that is written

`write_range` locks a folio before `writeback_one` puts it under writeback and clears its
dirty bit. Other threads leave the lock and the flag alone from there on until the folio is
stored, as long as `write_folio` ends no writeback of a folio that another thread has
locked.
-/

namespace Ttntfs.Pagecache

open Ttntfs.Library.CursorWalk

/-- The frame is none of `write_range` behind `collect_dirty`. -/
def Frame.quiet : Frame → Bool
  | .writeFolios _ _ _ _ | .startWriteback _ _ | .clearDirtyForIo _ _ | .abandonWriteback _ | .writeFolio _ _ _
  | .recordError _ _ _ | .endWriteback _ _ | .testDirty _ _ | .wroteFolio _ _ _ _ _ => false
  | _ => true

/-- The frame is one of `folio_mark_dirty`. -/
def Frame.marks : Frame → Bool
  | .markDirty _ | .noteDirty _ => true
  | _ => false

theorem Frame.quiet_of_marks {frame : Frame} (marks : frame.marks = true) : frame.quiet = true := by
  cases frame <;> first | rfl | cases marks

namespace PageCache

/-- The thread has locked the folio for `writeback_one`. -/
def Locks (s : PageCache) (t m f : Nat) : Frame → Prop
  | .startWriteback m' f' => (m' = m ∧ f' = f) ∧ (s.folio f).holder = some t
  | .clearDirtyForIo m' f' => (m' = m ∧ f' = f) ∧ (s.folio f).holder = some t ∧ (s.folio f).writeback = true
  | .abandonWriteback f' | .recordError _ f' _ | .endWriteback f' _ | .testDirty f' _ =>
    f' = f ∧ (s.folio f).holder = some t
  | _ => False

/-- The folios of an array are those of a mapping. -/
def Owned (s : PageCache) (m : Nat) (arr : List Nat) : Prop := ∀ f ∈ arr, (s.folio f).mapping = some m

/-- The stacks of threads that write folios. -/
inductive Writing (s : PageCache) (t : Nat) : List Frame → Prop
  | quiet {stack : List Frame} (quiet : ∀ g ∈ stack, g.quiet = true) : Writing s t stack
  | collected {m n : Nat} {arr : List Nat} {err : Int} {rest : List Frame} (owned : Owned s m arr)
      (quiet : ∀ g ∈ rest, g.quiet = true) : Writing s t (.writeFolios m arr err n :: rest)
  | wrote {m f n : Nat} {arr : List Nat} {err : Int} {rest : List Frame} (owned : Owned s m (f :: arr))
      (held : (s.folio f).holder = some t) (quiet : ∀ g ∈ rest, g.quiet = true) :
      Writing s t (.wroteFolio m f arr err n :: rest)
  | locked {g : Frame} {m f n : Nat} {arr : List Nat} {err : Int} {rest : List Frame} (locks : Locks s t m f g)
      (owned : Owned s m (f :: arr)) (quiet : ∀ g ∈ rest, g.quiet = true) :
      Writing s t (g :: .wroteFolio m f arr err n :: rest)
  | writes {m f n : Nat} {stored : Bool} {arr : List Nat} {err : Int} {rest : List Frame}
      (owned : Owned s m (f :: arr)) (quiet : ∀ g ∈ rest, g.quiet = true) :
      Writing s t (.writeFolio m f stored :: .wroteFolio m f arr err n :: rest)
  | marking {g : Frame} {rest : List Frame} (marks : g.marks = true) (below : Writing s t rest) :
      Writing s t (g :: rest)

/-- A step leaves a thread the folios that it has locked, and folios in their mappings. -/
structure Spares (s s' : PageCache) (t : Nat) : Prop where
  owner : ∀ f m, (s.folio f).mapping = some m → (s'.folio f).mapping = some m
  holder : ∀ f m, (s.folio f).mapping = some m → (s.folio f).holder = some t → (s'.folio f).holder = some t
  writeback : ∀ f m, (s.folio f).mapping = some m → (s.folio f).holder = some t →
    (s.folio f).writeback = true → (s'.folio f).writeback = true

/-- No `write_folio` ends the writeback of a folio that another thread has locked. -/
def EndsOwn (s : PageCache) (event : Event) : Prop :=
  ∀ t m f stored rest, event = .writeFolio t .endWriteback → s.stack t = .writeFolio m f stored :: rest →
    ∀ u, (s.folio f).holder = some u → u = t

section Spares

variable {s s' s'' : PageCache} {t u m f : Nat} {stack : List Frame}

theorem Spares.of_folio (same : s'.folio = s.folio) : Spares s s' t := by
  constructor
  · intro f m owner
    rw [same]
    exact owner
  · intro f m _ held
    rw [same]
    exact held
  · intro f m _ _ on
    rw [same]
    exact on

theorem Spares.modifyFolio (f : Nat) {change : Folio → Folio}
    (owner : ∀ m, (s.folio f).mapping = some m → (change (s.folio f)).mapping = some m)
    (held : (s.folio f).mapping ≠ none → (s.folio f).holder = some t → (change (s.folio f)).holder = some t)
    (on : (s.folio f).mapping ≠ none → (s.folio f).holder = some t → (s.folio f).writeback = true →
      (change (s.folio f)).writeback = true) : Spares s (s.modifyFolio f change) t := by
  have some_mapping {g m : Nat} (owned : (s.folio g).mapping = some m) : (s.folio g).mapping ≠ none := by simp [owned]
  constructor
  · intro g m owned
    rw [modifyFolio_folio]
    split
    · rename_i same
      exact owner m (same ▸ owned)
    · exact owned
  · intro g m owned holder
    rw [modifyFolio_folio]
    split
    · rename_i same
      exact held (same ▸ some_mapping owned) (same ▸ holder)
    · exact holder
  · intro g m owned holder writeback
    rw [modifyFolio_folio]
    split
    · rename_i same
      exact on (same ▸ some_mapping owned) (same ▸ holder) (same ▸ writeback)
    · exact writeback

theorem Spares.trans (first : Spares s s' t) (second : Spares s' s'' t) : Spares s s'' t where
  owner := fun f m owned => second.owner f m (first.owner f m owned)
  holder := fun f m owned held => second.holder f m (first.owner f m owned) (first.holder f m owned held)
  writeback := fun f m owned held on => second.writeback f m (first.owner f m owned) (first.holder f m owned held)
    (first.writeback f m owned held on)

/-- A thread that has not locked a folio loses nothing with its lock. -/
theorem Spares.setHolder {holder : Option Nat} (free : (s.folio f).holder ≠ some t) :
    Spares s (s.setHolder f holder) t :=
  Spares.modifyFolio f (fun _ => id) (fun _ held => absurd held free) fun _ _ => id

theorem Spares.startWriteback : Spares s (s.setWriteback f true) t :=
  Spares.modifyFolio f (fun _ => id) (fun _ => id) fun _ _ _ => rfl

theorem Spares.endWriteback (free : (s.folio f).holder ≠ some t) : Spares s (s.setWriteback f false) t :=
  Spares.modifyFolio f (fun _ => id) (fun _ => id) fun _ held => absurd held free

/-- Who ends a writeback keeps the folio locked, and the folios stay with their mapping. -/
theorem endWriteback_keeps {arr : List Nat} {m : Nat} (held : (s.folio f).holder = some t) (owned : Owned s m arr) :
    ((s.setWriteback f false).folio f).holder = some t ∧ Owned (s.setWriteback f false) m arr := by
  have free : (s.folio f).holder ≠ some (t + 1) := by
    rw [held]
    simp
  refine ⟨?_, fun g member => (Spares.endWriteback free).owner g m (owned g member)⟩
  rw [PageCache.setWriteback, modifyFolio_folio, if_pos rfl]
  exact held

theorem Spares.setDirty (m f : Nat) : Spares s (s.setDirty m f).1 t := by
  rw [PageCache.setDirty]
  split
  · exact Spares.of_folio rfl
  · have marked : Spares s (s.modifyFolio f fun folio => { folio with dirty := true, dirtiedAt := s.now }) t :=
      Spares.modifyFolio f (fun _ => id) (fun _ => id) fun _ _ => id
    exact marked.trans (Spares.of_folio rfl)

theorem Spares.folioClearDirtyForIo (f : Nat) : Spares s (s.folioClearDirtyForIo f).1 t := by
  have cleared : Spares s (s.modifyFolio f fun folio => { folio with dirty := false }) t :=
    Spares.modifyFolio f (fun _ => id) (fun _ => id) fun _ _ => id
  rw [PageCache.folioClearDirtyForIo]
  split
  · exact cleared
  · rw [PageCache.clearDirty]
    split
    · exact cleared.trans (Spares.of_folio rfl)
    · exact Spares.of_folio rfl

theorem Spares.insert {index : Nat} (free : (s.folio f).mapping = none) :
    Spares s ((s.modifyFolio f fun _ => freshFolio m index).modifyMapping m
      fun mapping => { mapping with pages := mapping.pages ++ [f] }) t := by
  have fresh : Spares s (s.modifyFolio f fun _ => freshFolio m index) t :=
    Spares.modifyFolio f (fun _ owned => by simp [free] at owned) (fun mapped => absurd free mapped)
      fun mapped => absurd free mapped
  exact fresh.trans (Spares.of_folio rfl)

/-- A stack stays one of a thread that writes while its folios are spared. -/
theorem Writing.keep (writing : Writing s t stack) (spares : Spares s s' t) : Writing s' t stack := by
  have keeps {m : Nat} {arr : List Nat} (owned : Owned s m arr) : Owned s' m arr :=
    fun f member => spares.owner f m (owned f member)
  induction writing with
  | quiet quiet => exact .quiet quiet
  | collected owned quiet => exact .collected (keeps owned) quiet
  | wrote owned held quiet => exact .wrote (keeps owned) (spares.holder _ _ (owned _ List.mem_cons_self) held) quiet
  | @locked g m f n arr err rest locks owned quiet =>
    have mapped := owned f List.mem_cons_self
    refine .locked ?_ (keeps owned) quiet
    cases g with
    | startWriteback | abandonWriteback | recordError | endWriteback | testDirty =>
      exact ⟨locks.1, spares.holder f m mapped locks.2⟩
    | clearDirtyForIo =>
      exact ⟨locks.1, spares.holder f m mapped locks.2.1, spares.writeback f m mapped locks.2.1 locks.2.2⟩
    | _ => exact locks.elim
  | writes owned quiet => exact .writes (keeps owned) quiet
  | marking marks below ih => exact .marking marks ih

end Spares

/-! ## Steps -/

section Steps

variable {s s' : PageCache} {event : Event} {t u m f : Nat} {stored : Bool} {frame : Frame}
  {rest stack frames : List Frame}

theorem Writing.below_quiet (writing : Writing s t (frame :: rest)) (quiet : frame.quiet = true)
    (plain : frame.marks = false) : ∀ g ∈ rest, g.quiet = true := by
  cases writing with
  | quiet all => exact fun g member => all g (List.mem_cons_of_mem _ member)
  | collected | wrote | writes => cases quiet
  | locked locks => cases frame <;> first | exact False.elim locks | cases quiet
  | marking marks => rw [plain] at marks; cases marks

theorem Writing.below_mark (writing : Writing s t (frame :: rest)) (marks : frame.marks = true) : Writing s t rest := by
  cases writing with
  | quiet all => exact .quiet fun g member => all g (List.mem_cons_of_mem _ member)
  | collected | wrote | writes => cases marks
  | locked locks => cases frame <;> first | exact False.elim locks | cases marks
  | marking _ below => exact below

theorem Writing.goto (writing : Writing s t stack) : Writing (s.goto t stack) t ((s.goto t stack).stack t) := by
  have moved : (s.goto t stack).stack t = stack := Function.update_self ..
  rw [moved]
  exact writing.keep (Spares.of_folio rfl)

theorem Writing.finish {err : Int} {n : Nat} (writing : Writing s t stack) :
    Writing (s.finish t stack err n) t ((s.finish t stack err n).stack t) :=
  writing.goto.keep (Spares.of_folio rfl)

/-- The frame is one in which the thread holds the lock of the folio. -/
theorem Writing.of_locked (writing : Writing s t (frame :: rest)) (loud : frame.quiet = false)
    (inside : ∀ m arr err n, frame ≠ .writeFolios m arr err n ∧ (∀ f, frame ≠ .wroteFolio m f arr err n) ∧
      ∀ f stored, frame ≠ .writeFolio m f stored) :
    ∃ m f arr err n rest', rest = .wroteFolio m f arr err n :: rest' ∧ Locks s t m f frame ∧ Owned s m (f :: arr) ∧
      ∀ g ∈ rest', g.quiet = true := by
  cases writing with
  | quiet all =>
    rw [all _ List.mem_cons_self] at loud
    cases loud
  | @collected m n arr err => exact absurd rfl (inside m arr err n).1
  | @wrote m f n arr err => exact absurd rfl ((inside m arr err n).2.1 f)
  | @locked _ m f n arr err rest' locks owned quiet => exact ⟨m, f, arr, err, n, rest', rfl, locks, owned, quiet⟩
  | @writes m f n stored arr err => exact absurd rfl ((inside m arr err n).2.2 f stored)
  | marking marks =>
    rw [Frame.quiet_of_marks marks] at loud
    cases loud

theorem mem_dirty_of_collectDirty {first older : Nat} {last : Option Nat}
    (member : f ∈ s.collectDirty m first last older) : f ∈ (s.mapping m).dirty := by
  rw [collectDirty, List.mem_insertionSort, List.mem_filter] at member
  exact (List.takeWhile_sublist _).subset member.1

theorem walk_quiet {w : Walk} (kind : frames = [] ∨ ∃ j err, frames = s.visitFrames j w.visit ++ [.visited w j err])
    (quiet : ∀ g ∈ rest, g.quiet = true) : ∀ g ∈ frames ++ rest, g.quiet = true := by
  intro g member
  rcases List.mem_append.mp member with new | below
  · rcases kind with rfl | ⟨j, err, rfl⟩
    · cases new
    rcases List.mem_append.mp new with call | last
    · cases visit : w.visit with
      | writerPass cutoff =>
        rw [visit] at call
        rw [List.mem_singleton.mp call]
        rfl
      | sync last =>
        rw [visit, visitFrames] at call
        split at call
        · simp only [writeAndWait, List.mem_cons, List.not_mem_nil, or_false] at call
          rcases call with rfl | rfl | rfl <;> rfl
        · cases call
    · rw [List.mem_singleton.mp last]
      rfl
  · exact quiet g below

/-- A thread that goes on writes folios as before, and spares the others theirs. -/
theorem runFrame_writing (counts : Counts s) (writing : Writing s t (frame :: rest))
    (happens : s.runFrame t rest frame = some s') :
    Writing s' t (s'.stack t) ∧ ∀ u, u ≠ t → Spares s s' u := by
  have others {f : Nat} (held : (s.folio f).holder = some t) (u : Nat) (other : u ≠ t) : (s.folio f).holder ≠ some u :=
    fun same => other (Option.some.inj (same.symm.trans held))
  cases frame with
  | markDirty f =>
    cases happens
    have below := writing.below_mark rfl
    rw [folioMarkDirty]
    split
    · exact ⟨below.goto, fun u _ => Spares.of_folio rfl⟩
    · rename_i k owner
      have marked := below.keep (Spares.setDirty k f)
      dsimp only
      split
      · exact ⟨Writing.goto (.marking rfl marked), fun u _ => (Spares.setDirty k f).trans (Spares.of_folio rfl)⟩
      · have returned : Writing ((s.setDirty k f).1.markReturns k) t rest := marked.keep (Spares.of_folio rfl)
        exact ⟨returned.goto, fun u _ => (Spares.setDirty k f).trans (Spares.of_folio rfl)⟩
  | noteDirty k =>
    cases happens
    have same : ((s.noteDirty k).markReturns k).folio = s.folio := (noteDirty_cache s k).1
    exact ⟨((writing.below_mark rfl).keep (Spares.of_folio same)).goto, fun u _ => Spares.of_folio same⟩
  | writeRange k first last older =>
    cases happens
    refine ⟨Writing.goto (.collected ?_ (writing.below_quiet rfl rfl)), fun u _ => Spares.of_folio rfl⟩
    exact fun f member => ((counts.member k f).mp (mem_dirty_of_collectDirty member)).2
  | writeFolios k arr err n =>
    have parts : Owned s k arr ∧ ∀ g ∈ rest, g.quiet = true := by
      cases writing with
      | quiet all => cases all _ List.mem_cons_self
      | collected owned quiet => exact ⟨owned, quiet⟩
      | locked locks => exact locks.elim
      | marking marks => cases marks
    obtain ⟨owned, quiet⟩ := parts
    cases arr with
    | nil =>
      cases happens
      exact ⟨Writing.finish (.quiet quiet), fun u _ => Spares.of_folio rfl⟩
    | cons f arr =>
      rw [runFrame] at happens
      split at happens
      · rename_i free
        cases happens
        have spares (u : Nat) : Spares s (s.setHolder f (some t)) u := Spares.setHolder (by simp [free])
        have held : ((s.setHolder f (some t)).folio f).holder = some t := by
          rw [PageCache.setHolder, modifyFolio_folio, if_pos rfl]
        exact ⟨Writing.goto (.locked ⟨⟨rfl, rfl⟩, held⟩ (fun g member => (spares t).owner g k (owned g member)) quiet),
          fun u _ => (spares u).trans (Spares.of_folio rfl)⟩
      · cases happens
  | startWriteback k f =>
    cases happens
    obtain ⟨m, f', arr, err, n, rest', rfl, ⟨⟨rfl, rfl⟩, held⟩, owned, quiet⟩ := writing.of_locked rfl (by simp)
    have spares (u : Nat) : Spares s (s.setWriteback f true) u := Spares.startWriteback
    have mapped := owned f List.mem_cons_self
    have on : ((s.setWriteback f true).folio f).writeback = true := by
      rw [PageCache.setWriteback, modifyFolio_folio, if_pos rfl]
    exact ⟨Writing.goto (.locked ⟨⟨rfl, rfl⟩, (spares t).holder f k mapped held, on⟩
      (fun g member => (spares t).owner g k (owned g member)) quiet), fun u _ => (spares u).trans (Spares.of_folio rfl)⟩
  | clearDirtyForIo k f =>
    obtain ⟨m, f', arr, err, n, rest', rfl, ⟨⟨rfl, rfl⟩, held, -⟩, owned, quiet⟩ := writing.of_locked rfl (by simp)
    have spares (u : Nat) : Spares s (s.folioClearDirtyForIo f).1 u := Spares.folioClearDirtyForIo f
    have mapped := owned f List.mem_cons_self
    have owned' : Owned (s.folioClearDirtyForIo f).1 k (f :: arr) :=
      fun g member => (spares t).owner g k (owned g member)
    simp only [runFrame] at happens
    split at happens
    · cases happens
      exact ⟨Writing.goto (.locked ⟨rfl, (spares t).holder f k mapped held⟩ owned' quiet),
        fun u _ => (spares u).trans (Spares.of_folio rfl)⟩
    · cases happens
      exact ⟨Writing.goto (.writes owned' quiet), fun u _ => (spares u).trans (Spares.of_folio rfl)⟩
  | abandonWriteback f =>
    cases happens
    obtain ⟨m, f', arr, err, n, rest', rfl, ⟨rfl, held⟩, owned, quiet⟩ := writing.of_locked rfl (by simp)
    obtain ⟨kept, owned'⟩ := endWriteback_keeps held owned
    exact ⟨Writing.finish (.wrote owned' kept quiet),
      fun u other => (Spares.endWriteback (others held u other)).trans (Spares.of_folio rfl)⟩
  | writeFolio k f stored => cases happens
  | recordError k f err =>
    cases happens
    obtain ⟨m, f', arr, err', n, rest', rfl, ⟨rfl, held⟩, owned, quiet⟩ := writing.of_locked rfl (by simp)
    exact ⟨Writing.goto (.locked ⟨rfl, held⟩ owned quiet), fun u _ => Spares.of_folio rfl⟩
  | endWriteback f err =>
    cases happens
    obtain ⟨m, f', arr, err', n, rest', rfl, ⟨rfl, held⟩, owned, quiet⟩ := writing.of_locked rfl (by simp)
    obtain ⟨kept, owned'⟩ := endWriteback_keeps held owned
    exact ⟨Writing.goto (.locked ⟨rfl, kept⟩ owned' quiet),
      fun u other => (Spares.endWriteback (others held u other)).trans (Spares.of_folio rfl)⟩
  | testDirty f err =>
    cases happens
    obtain ⟨m, f', arr, err', n, rest', rfl, ⟨rfl, held⟩, owned, quiet⟩ := writing.of_locked rfl (by simp)
    exact ⟨Writing.finish (.wrote owned held quiet), fun u _ => Spares.of_folio rfl⟩
  | wroteFolio k f arr err n =>
    have parts : Owned s k (f :: arr) ∧ (s.folio f).holder = some t ∧ ∀ g ∈ rest, g.quiet = true := by
      cases writing with
      | quiet all => cases all _ List.mem_cons_self
      | wrote owned held quiet => exact ⟨owned, held, quiet⟩
      | locked locks => exact locks.elim
      | marking marks => cases marks
    obtain ⟨owned, held, quiet⟩ := parts
    have spares (u : Nat) (other : u ≠ t) : Spares s (s.setHolder f none) u := Spares.setHolder (others held u other)
    have owned' : Owned (s.setHolder f none) k arr := fun g member =>
      (spares (t + 1) (by omega)).owner g k (owned g (List.mem_cons_of_mem _ member))
    simp only [runFrame] at happens
    split at happens
    · cases happens
      exact ⟨Writing.goto (.collected owned' quiet), fun u other => (spares u other).trans (Spares.of_folio rfl)⟩
    · cases happens
      exact ⟨Writing.goto (.collected owned' quiet), fun u other => (spares u other).trans (Spares.of_folio rfl)⟩
  | retry k first last attempt =>
    have quiet := writing.below_quiet rfl rfl
    rw [runFrame] at happens
    split at happens
    · cases happens
      exact ⟨Writing.finish (.quiet quiet), fun u _ => Spares.of_folio rfl⟩
    · cases happens
      exact ⟨Writing.goto (.quiet (by simpa [Frame.quiet] using quiet)), fun u _ => Spares.of_folio rfl⟩
  | thenWait k first last | syncLast sb =>
    cases happens
    have quiet := writing.below_quiet rfl rfl
    exact ⟨Writing.goto (.quiet (by simpa [Frame.quiet] using quiet)), fun u _ => Spares.of_folio rfl⟩
  | waitRange k first last =>
    have quiet := writing.below_quiet rfl rfl
    rw [runFrame] at happens
    split at happens
    · cases happens
      exact ⟨Writing.goto (.quiet (by simpa [Frame.quiet] using quiet)), fun u _ => Spares.of_folio rfl⟩
    · cases happens
      exact ⟨Writing.goto (.quiet quiet), fun u _ => Spares.of_folio rfl⟩
  | waitWriteback f =>
    have quiet := writing.below_quiet rfl rfl
    rw [runFrame] at happens
    split at happens
    · cases happens
    · cases happens
      exact ⟨Writing.goto (.quiet quiet), fun u _ => Spares.of_folio rfl⟩
  | reportWbErr k | bothErrors err =>
    cases happens
    exact ⟨Writing.finish (.quiet (writing.below_quiet rfl rfl)), fun u _ => Spares.of_folio rfl⟩
  | walkFrom w =>
    cases happens
    have same := (advance_cache s t w 0 (if w.reverse then s.gDirty.reverse else s.gDirty) rest).1
    obtain ⟨frames, stack, kind⟩ := advance_stack s t w 0 (if w.reverse then s.gDirty.reverse else s.gDirty) rest
    refine ⟨?_, fun u _ => Spares.of_folio same⟩
    rw [stack, Function.update_self]
    refine .quiet (walk_quiet (s := s) (w := w) (kind.imp_right ?_) (writing.below_quiet rfl rfl))
    rintro ⟨k, _, frames⟩
    exact ⟨k, 0, frames⟩
  | visited w k err =>
    cases happens
    have same := (resume_cache s t w k err rest).1
    obtain ⟨frames, stack, kind⟩ := resume_stack s t w k err rest
    refine ⟨?_, fun u _ => Spares.of_folio same⟩
    rw [stack, Function.update_self]
    refine .quiet (walk_quiet (s := s) (w := w) (kind.imp_right ?_) (writing.below_quiet rfl rfl))
    rintro ⟨k, err', _, frames⟩
    exact ⟨k, err', frames⟩
  | syncDone sb err =>
    have finished : Writing (s.finish t rest (if err ≠ 0 then err else (s.ret t).1) 0) t
        ((s.finish t rest (if err ≠ 0 then err else (s.ret t).1) 0).stack t) :=
      Writing.finish (.quiet (writing.below_quiet rfl rfl))
    cases happens
    exact ⟨finished.keep (Spares.of_folio rfl), fun u _ => Spares.of_folio rfl⟩

/-- A thread in `write_folio` writes folios as before, and spares the others theirs. -/
theorem backend_writing {b : Backend} (writing : Writing s t (s.stack t))
    (here : s.stack t = .writeFolio m f stored :: rest) (ends : EndsOwn s (.writeFolio t b))
    (happens : s.backend t m f stored rest b = some s') :
    Writing s' t (s'.stack t) ∧ ∀ u, u ≠ t → Spares s s' u := by
  obtain ⟨arr, err', n, rest', rfl, owned, quiet⟩ : ∃ arr err n rest', rest = .wroteFolio m f arr err n :: rest' ∧
      Owned s m (f :: arr) ∧ ∀ g ∈ rest', g.quiet = true := by
    rw [here] at writing
    cases writing with
    | quiet all => cases all _ List.mem_cons_self
    | locked locks => exact locks.elim
    | @writes _ _ n _ arr err rest' owned quiet => exact ⟨arr, err, n, rest', rfl, owned, quiet⟩
    | marking marks => cases marks
  have others (held : (s.folio f).holder = some t) (u : Nat) (other : u ≠ t) : (s.folio f).holder ≠ some u :=
    fun same => other (Option.some.inj (same.symm.trans held))
  -- What the flag and the lock of the folio are does not matter to the stack of the thread itself.
  have stays {change : Folio → Folio} (owner : (change (s.folio f)).mapping = (s.folio f).mapping) :
      Writing (s.modifyFolio f change) t (s.stack t) := by
    rw [here]
    refine .writes (fun g member => ?_) quiet
    rw [modifyFolio_folio]
    split
    · rename_i same
      rw [owner, ← same]
      exact owned g member
    · exact owned g member
  cases b with
  | store =>
    cases happens
    have stored : Writing s t (.writeFolio m f true :: .wroteFolio m f arr err' n :: rest') := .writes owned quiet
    exact ⟨stored.goto.keep (Spares.of_folio rfl), fun u _ => Spares.of_folio rfl⟩
  | markDirty f' =>
    cases happens
    rw [here] at writing
    exact ⟨Writing.goto (.marking rfl writing), fun u _ => Spares.of_folio rfl⟩
  | startWriteback =>
    cases happens
    exact ⟨stays rfl, fun u _ => Spares.startWriteback⟩
  | endWriteback =>
    cases happens
    exact ⟨stays rfl, fun u other => Spares.endWriteback fun held => other (ends t m f stored _ rfl here u held)⟩
  | unlock =>
    rw [backend] at happens
    split at happens
    · rename_i held
      cases happens
      exact ⟨stays rfl, fun u other => Spares.setHolder (others held u other)⟩
    · cases happens
  | lock =>
    rw [backend] at happens
    split at happens
    · rename_i free
      cases happens
      exact ⟨stays rfl, fun u _ => Spares.setHolder (by simp [free])⟩
    · cases happens
  | returns err =>
    rw [backend] at happens
    split at happens
    · rename_i held
      split at happens
      · cases happens
        exact ⟨Writing.goto (.locked ⟨rfl, held⟩ owned quiet), fun u _ => Spares.of_folio rfl⟩
      · cases happens
        exact ⟨Writing.goto (.locked ⟨rfl, held⟩ owned quiet), fun u _ => Spares.of_folio rfl⟩
    · cases happens

/-- The stack of a thread stays through the step of another. -/
theorem other_stack (step : Step s event s') (counts : Counts s) (other : event.actor ≠ some t) :
    s'.stack t = s.stack t := by
  have moved {u : Nat} {stack : List Frame} (actor : event.actor = some u)
      (same : s'.stack = Function.update s.stack u stack) : s'.stack t = s.stack t := by
    rw [same, Function.update_of_ne]
    rintro rfl
    exact other actor
  cases step with
  | idle same stack => rw [stack]
  | move u here actor moves same stack => exact moved actor stack
  | mark u f m rest here owner running result =>
    obtain ⟨frames, stack, -⟩ := mark_stack (u := u) counts owner
    exact moved (by rw [running, Event.actor]) (by rw [result, stack])
  | note u m rest here running result => exact moved (by rw [running, Event.actor]) (by rw [result, note_stack])
  | clear u f m m' rest here owner dirty frame plain result running =>
    exact moved (by rw [running, Event.actor]) (by rw [result, clear_stack dirty])
  | walk u w rest here result running =>
    obtain ⟨frames, stack, -⟩ := advance_stack s u w 0 (if w.reverse then s.gDirty.reverse else s.gDirty) rest
    exact moved (by rw [running, Event.actor]) (by rw [result, stack])
  | resume u w m err rest here result running =>
    obtain ⟨frames, stack, -⟩ := resume_stack s u w m err rest
    exact moved (by rw [running, Event.actor]) (by rw [result, stack])
  | call u c here calling result =>
    exact moved (by rw [calling, Event.actor]) (by rw [result, (begin_cache s u c).2.2.2.2])
  | insert m f index free result => rw [result]; rfl

/-- Every step keeps the stacks of threads that write folios, and spares the threads it is not of. -/
theorem next_writing (counts : Counts s) (writing : ∀ t, Writing s t (s.stack t)) (ends : EndsOwn s event)
    (happens : s.next event = some s') :
    (∀ t, Writing s' t (s'.stack t)) ∧ ∀ u, event.actor ≠ some u → Spares s s' u := by
  -- It is enough to look at the thread that moves.
  have spread {t : Nat} (actor : event.actor = some t) (mine : Writing s' t (s'.stack t))
      (others : ∀ u, u ≠ t → Spares s s' u) :
      (∀ t, Writing s' t (s'.stack t)) ∧ ∀ u, event.actor ≠ some u → Spares s s' u := by
    have spares (u : Nat) (other : event.actor ≠ some u) : Spares s s' u := by
      refine others u ?_
      rintro rfl
      exact other actor
    refine ⟨fun u => ?_, spares⟩
    by_cases same : event.actor = some u
    · rw [actor] at same
      exact Option.some.inj same ▸ mine
    · rw [other_stack (next_step counts.unmapped happens) counts same]
      exact (writing u).keep (spares u same)
  cases event with
  | tick =>
    cases happens
    exact ⟨fun t => (writing t).keep (Spares.of_folio rfl), fun u _ => Spares.of_folio rfl⟩
  | insert k f index =>
    rw [next] at happens
    split at happens
    · rename_i free
      cases happens
      exact ⟨fun t => (writing t).keep (Spares.insert free), fun u _ => Spares.insert free⟩
    · cases happens
  | call t c =>
    rw [next] at happens
    split at happens
    · cases happens
      obtain ⟨folio, -, -, -, stack⟩ := begin_cache s t c
      refine spread rfl ?_ fun u _ => Spares.of_folio folio
      rw [stack, Function.update_self]
      exact .quiet (by cases c <;> simp [Call.frames, writeAndWait, Frame.quiet])
    · cases happens
  | run t =>
    rw [next] at happens
    cases here : s.stack t with
    | nil =>
      rw [here] at happens
      cases happens
    | cons frame rest =>
      rw [here] at happens
      have top := writing t
      rw [here] at top
      obtain ⟨mine, others⟩ := runFrame_writing counts top happens
      exact spread rfl mine others
  | writeFolio t b =>
    rw [next] at happens
    split at happens
    · rename_i k f stored rest here
      obtain ⟨mine, others⟩ := backend_writing (writing t) here ends happens
      exact spread rfl mine others
    · cases happens

end Steps

/-! ## Folios in flight -/

/-- Thread `w` is in the `write_folio` of the folio, which has not stored it yet. -/
def InFlight (s : PageCache) (f w : Nat) : Prop :=
  (∃ k marks rest, s.stack w = marks ++ .writeFolio k f false :: rest ∧ ∀ g ∈ marks, g.marks = true) ∧
    (s.folio f).holder = some w ∧ (s.folio f).writeback = true

section InFlight

variable {s s' : PageCache} {event : Event} {t u w m f : Nat} {rest : List Frame}

/-- The dirty bit of a folio goes where a thread is about to write the folio. -/
theorem clear_inFlight (writing : Writing s w (s.stack w)) (here : s.stack w = .clearDirtyForIo m f :: rest)
    (dirty : (s.folio f).dirty = true) (happens : s.next (.run w) = some s') : InFlight s' f w := by
  rw [here] at writing
  obtain ⟨k, f', arr, err, n, rest', rfl, ⟨⟨rfl, rfl⟩, held, on⟩, owned, -⟩ := writing.of_locked rfl (by simp)
  have owner := owned f List.mem_cons_self
  have spares : Spares s (s.folioClearDirtyForIo f).1 w := Spares.folioClearDirtyForIo f
  have was : (s.folioClearDirtyForIo f).2 = true := by
    simp only [folioClearDirtyForIo, owner, PageCache.clearDirty, dirty, if_true]
  rw [next, here] at happens
  simp only [runFrame, was, owner, Bool.not_true, ne_eq, not_true_eq_false, decide_false, Bool.or_false,
    Bool.false_eq_true, if_false] at happens
  cases happens
  refine ⟨⟨m, [], .wroteFolio m f arr err n :: rest', Function.update_self .., by simp⟩, ?_, ?_⟩
  · exact spares.holder f m owner held
  · exact spares.writeback f m owner held on

/-- The places of `folio_mark_dirty` spare the folios that the thread has locked, and leave what is below them. -/
theorem runFrame_marks {g : Frame} (marks : g.marks = true) (happens : s.runFrame w rest g = some s') :
    Spares s s' w ∧ ∃ frames, s'.stack w = frames ++ rest ∧ ∀ g' ∈ frames, g'.marks = true := by
  cases g with
  | markDirty f' =>
    cases happens
    rw [folioMarkDirty]
    split
    · exact ⟨Spares.of_folio rfl, [], Function.update_self .., by simp⟩
    · rename_i m' owner
      have spares : Spares s (s.setDirty m' f').1 w := Spares.setDirty m' f'
      dsimp only
      split
      · exact ⟨spares.trans (Spares.of_folio rfl), [.noteDirty m'], Function.update_self .., by simp [Frame.marks]⟩
      · exact ⟨spares.trans (Spares.of_folio rfl), [], Function.update_self .., by simp⟩
  | noteDirty m' =>
    cases happens
    have same : (((s.noteDirty m').markReturns m').goto w rest).folio = s.folio := (noteDirty_cache s m').1
    exact ⟨Spares.of_folio same, [], Function.update_self .., by simp⟩
  | _ => cases marks

end InFlight

end PageCache

end Ttntfs.Pagecache
