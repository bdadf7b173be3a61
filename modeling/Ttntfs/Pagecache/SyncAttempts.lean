import Mathlib.Data.List.TakeWhile
import Ttntfs.Pagecache.FolioLocks

/-!
# The attempts of a sync

A sync writes a mapping in attempts of `write_range_sync`. An attempt collects the dirty
folios of the mapping and writes them one by one; a folio that `write_folio` hands back
dirty is counted, and the attempt is made again. A folio that a sync must write is in
flight until `write_folio` has stored it, or it is dirty and the sync has yet to come to
it.
-/

namespace Ttntfs.Pagecache

open Ttntfs.Library.CursorWalk

namespace PageCache

/-- What a thread has above its place behind an attempt leads to a write of folio `f` of
mapping `m`, or the attempt has counted a folio that was handed back. -/
inductive Attempts (s : PageCache) (t m f : Nat) : List Frame → Prop
  | range : Attempts s t m f [.writeRange m 0 none 0]
  | array {arr : List Nat} {err : Int} {n : Nat} (left : f ∈ arr ∨ 0 < n) : Attempts s t m f [.writeFolios m arr err n]
  | later {top : List Frame} {f' : Nat} {arr : List Nat} {err : Int} {n : Nat} (left : f ∈ arr ∨ 0 < n) :
      Attempts s t m f (top ++ [.wroteFolio m f' arr err n])
  | start {arr : List Nat} {err : Int} {n : Nat} :
      Attempts s t m f [.startWriteback m f, .wroteFolio m f arr err n]
  | clear {arr : List Nat} {err : Int} {n : Nat} :
      Attempts s t m f [.clearDirtyForIo m f, .wroteFolio m f arr err n]
  | write {marks : List Frame} {arr : List Nat} {err : Int} {n : Nat} (plain : ∀ g ∈ marks, g.marks = true) :
      Attempts s t m f (marks ++ [.writeFolio m f false, .wroteFolio m f arr err n])
  | written {arr : List Nat} {err : Int} {n : Nat} :
      Attempts s t m f [.endWriteback f 0, .wroteFolio m f arr err n]
  | tested {arr : List Nat} {err : Int} {n : Nat} :
      Attempts s t m f [.testDirty f 0, .wroteFolio m f arr err n]
  | counted {f' : Nat} {arr : List Nat} {err : Int} {n : Nat} (back : 0 < (s.ret t).1) :
      Attempts s t m f [.wroteFolio m f' arr err n]
  | again (back : 0 < (s.ret t).2) : Attempts s t m f []

/-- The thread is in a sync that has yet to come to the mapping, or in an attempt that
leads to the folio. -/
def Leads (s : PageCache) (t m f : Nat) : Prop :=
  (∃ g ∈ s.stack t, HeadsFor s t m g) ∨ ∃ above attempt below,
    s.stack t = above ++ .retry m 0 none attempt :: .thenWait m 0 none :: below ∧ Attempts s t m f above

/-- A `write_folio` has stored a folio that a sync must write before it ends the writeback of the
folio, unlocks it or returns; or it hands the folio back, dirty, where the sync has yet to come to
it, and without an error where it is the sync itself that writes. -/
def StoresOrLeaves (s : PageCache) (event : Event) : Prop :=
  ∀ t b k f stored rest, event = .writeFolio t b → (b = .endWriteback ∨ b = .unlock ∨ ∃ err, b = .returns err) →
    s.stack t = .writeFolio k f stored :: rest → (s.folio f).holder = some t →
      ∀ u m, s.unwritten u f = true → (s.folio f).mapping = some m → stored = true ∨
        (s.folio f).dirty = true ∧ Leads s u m f ∧ (u = t → ∀ err, b = .returns err → err = 0)

/-- A sync that has had a folio handed back that it must write makes another attempt: no write of
the attempt has failed, and it is not the last. -/
def TriesAgain (s : PageCache) (event : Event) : Prop :=
  ∀ t m f attempt rest, event = .run t → s.stack t = .retry m 0 none attempt :: rest → 0 < (s.ret t).2 →
    (s.folio f).mapping = some m → (s.folio f).dirty = true → s.unwritten t f = true →
      (s.ret t).1 = 0 ∧ attempt < wbRedirtyRetries

section Attempts

variable {s s' : PageCache} {event : Event} {t u m f a : Nat} {above rest : List Frame}

theorem goto_stack (s : PageCache) (t : Nat) (stack : List Frame) : (s.goto t stack).stack t = stack :=
  Function.update_self ..

theorem finish_ret (s : PageCache) (t : Nat) (rest : List Frame) (err : Int) (n : Nat) :
    (s.finish t rest err n).ret t = (err, n) :=
  Function.update_self ..

theorem mem_collectDirty (member : f ∈ (s.mapping m).dirty) : f ∈ s.collectDirty m 0 none 0 := by
  rw [collectDirty, List.mem_insertionSort, List.mem_filter]
  constructor
  · rw [List.takeWhile_eq_self_iff.mpr (by simp)]
    exact member
  · simp [inRange]

theorem Attempts.congr (attempts : Attempts s t m f above) (ret : s'.ret t = s.ret t) : Attempts s' t m f above := by
  cases attempts with
  | range => exact .range
  | array left => exact .array left
  | later left => exact .later left
  | start => exact .start
  | clear => exact .clear
  | write plain => exact .write plain
  | written => exact .written
  | tested => exact .tested
  | counted back => exact .counted (ret ▸ back)
  | again back => exact .again (ret ▸ back)

/-- A thread that leads to a folio has its wait for the mapping before it. -/
theorem Leads.awaits (leads : Leads s t m f) : Awaits s t m := by
  rcases leads with ⟨g, member, heads⟩ | ⟨above, attempt, below, here, -⟩
  · exact ⟨g, member, Or.inl heads⟩
  · exact ⟨.thenWait m 0 none, by simp [here], Or.inr ⟨rfl, rfl, rfl⟩⟩

/-- An attempt goes on with one more place of the thread above the rest. -/
theorem Attempts.next_of_top {g : Frame} {top : List Frame} {f' n : Nat} {arr : List Nat} {err : Int}
    (left : f ∈ arr ∨ 0 < n)
    (here : s.stack t = g :: top ++ [.wroteFolio m f' arr err n] ++ .retry m 0 none a :: rest)
    (step : Step s event s') (counts : Counts s) :
    ∃ above a', s'.stack t = above ++ .retry m 0 none a' :: rest ∧ Attempts s' t m f above := by
  have here' : s.stack t = g :: (top ++ [.wroteFolio m f' arr err n] ++ .retry m 0 none a :: rest) := by
    rw [here, List.cons_append, List.cons_append]
  rcases top_step step counts here' with same | ⟨frames, stack, -⟩
  · exact ⟨g :: top ++ [.wroteFolio m f' arr err n], a, by rw [same, here], .later left⟩
  · refine ⟨frames ++ top ++ [.wroteFolio m f' arr err n], a, ?_, .later left⟩
    rw [stack, List.append_assoc frames, List.append_assoc frames]

/-- A thread that goes on in an attempt still leads to a folio that stays dirty. -/
theorem Attempts.run (attempts : Attempts s t m f above) (here : s.stack t = above ++ .retry m 0 none a :: rest)
    (counts : Counts s) (owner : (s.folio f).mapping = some m) (dirty : (s.folio f).dirty = true)
    (kept : (s'.folio f).dirty = true) (due : s.unwritten t f = true) (tries : TriesAgain s (.run t))
    (happens : s.next (.run t) = some s') :
    ∃ above' a', s'.stack t = above' ++ .retry m 0 none a' :: rest ∧ Attempts s' t m f above' := by
  have step := next_step counts.unmapped happens
  have running := happens
  rw [next, here] at running
  cases attempts with
  | range =>
    cases running
    have collected := mem_collectDirty ((counts.member m f).mpr ⟨dirty, owner⟩)
    exact ⟨[.writeFolios m (s.collectDirty m 0 none 0) 0 0], a, goto_stack .., .array (Or.inl collected)⟩
  | @array arr err n left =>
    cases arr with
    | nil =>
      cases running
      have back : 0 < n := by simpa using left
      exact ⟨[], a, goto_stack .., .again (by rw [finish_ret]; exact back)⟩
    | cons f' arr =>
      simp only [List.cons_append, List.nil_append, runFrame] at running
      split at running
      · cases running
        refine ⟨[.startWriteback m f', .wroteFolio m f' arr err n], a, goto_stack .., ?_⟩
        rcases left with member | back
        · rcases List.mem_cons.mp member with rfl | later
          · exact .start
          · exact @Attempts.later _ _ _ _ [_] _ _ _ _ (Or.inl later)
        · exact @Attempts.later _ _ _ _ [_] _ _ _ _ (Or.inr back)
      · cases running
  | @later top f' arr err n left =>
    cases top with
    | nil =>
      simp only [List.cons_append, List.nil_append, runFrame] at running
      split at running
      · cases running
        exact ⟨[.writeFolios m arr err (n + 1)], a, goto_stack .., .array (left.imp_right fun _ => Nat.succ_pos n)⟩
      · cases running
        exact ⟨[.writeFolios m arr _ n], a, goto_stack .., .array left⟩
    | cons g top => exact Attempts.next_of_top left here step counts
  | @start arr err n =>
    cases running
    exact ⟨[.clearDirtyForIo m f, .wroteFolio m f arr err n], a, goto_stack .., .clear⟩
  | @clear arr err n =>
    -- The folio would not stay dirty.
    rcases top_step step counts here with same | ⟨frames, stack, ⟨-, moves⟩ | idle | ⟨k, f', same, clean⟩⟩
    · exact ⟨_, a, same.trans here, .clear⟩
    · cases moves with
      | clean m' f' clean =>
        rw [dirty] at clean
        cases clean
      | other before after => cases before
    · cases idle
    · cases same
      rw [kept] at clean
      cases clean
  | @write marks arr err n plain =>
    cases marks with
    | nil => cases running
    | cons g marks =>
      have marking : g.marks = true := plain g List.mem_cons_self
      obtain ⟨-, frames, stack, new⟩ := runFrame_marks marking running
      refine ⟨frames ++ marks ++ [.writeFolio m f false, .wroteFolio m f arr err n], a, by simp [stack], .write ?_⟩
      intro g' member
      rcases List.mem_append.mp member with this | old
      · exact new g' this
      · exact plain g' (List.mem_cons_of_mem g old)
  | @written arr err n =>
    cases running
    exact ⟨[.testDirty f 0, .wroteFolio m f arr err n], a, goto_stack .., .tested⟩
  | @tested arr err n =>
    cases running
    refine ⟨[.wroteFolio m f arr err n], a, goto_stack .., .counted ?_⟩
    rw [finish_ret, dirty]
    exact Int.one_pos
  | @counted f' arr err n back =>
    simp only [List.cons_append, List.nil_append, runFrame] at running
    rw [if_pos back] at running
    cases running
    exact ⟨[.writeFolios m arr err (n + 1)], a, goto_stack .., .array (Or.inr (Nat.succ_pos n))⟩
  | again back =>
    obtain ⟨passed, more⟩ := tries t m f a rest rfl here back owner dirty due
    simp only [List.nil_append, runFrame] at running
    rw [if_neg (by omega)] at running
    cases running
    exact ⟨[.writeRange m 0 none 0], a + 1, goto_stack .., .range⟩

/-- A thread in the `write_folio` of an attempt still leads to the folio, unless it stores it. -/
theorem Attempts.writeFolio {b : Backend} (attempts : Attempts s t m f above)
    (here : s.stack t = above ++ .retry m 0 none a :: rest) (counts : Counts s) (owner : (s.folio f).mapping = some m)
    (due : s.unwritten t f = true) (due' : s'.unwritten t f = true) (stores : StoresOrLeaves s (.writeFolio t b))
    (happens : s.next (.writeFolio t b) = some s') :
    ∃ above' a', s'.stack t = above' ++ .retry m 0 none a' :: rest ∧ Attempts s' t m f above' := by
  have step := next_step counts.unmapped happens
  have running := happens
  rw [next, here] at running
  cases attempts with
  | @later top f' arr err n left =>
    cases top with
    | nil => cases running
    | cons g top => exact Attempts.next_of_top left here step counts
  | @write marks arr err n plain =>
    cases marks with
    | nil =>
      have top : s.stack t = [.writeFolio m f false, .wroteFolio m f arr err n] ++ .retry m 0 none a :: rest := here
      cases b with
      | store =>
        cases running
        simp at due'
      | markDirty f' =>
        cases running
        refine ⟨[.markDirty f'] ++ [.writeFolio m f false, .wroteFolio m f arr err n], a, goto_stack .., .write ?_⟩
        simp [Frame.marks]
      | startWriteback | endWriteback =>
        cases running
        exact ⟨_, a, here, @Attempts.write _ _ _ _ [] _ _ _ plain⟩
      | unlock | lock =>
        simp only [List.nil_append, List.cons_append, backend] at running
        split at running
        · cases running
          exact ⟨_, a, here, @Attempts.write _ _ _ _ [] _ _ _ plain⟩
        · cases running
      | returns err' =>
        simp only [List.nil_append, List.cons_append, backend] at running
        split at running
        · rename_i held
          rcases stores t _ m f false _ rfl (Or.inr (Or.inr ⟨err', rfl⟩)) top held t m due owner with
            stored | ⟨-, -, passes⟩
          · cases stored
          · rw [if_neg (by simp [passes rfl err' rfl])] at running
            cases running
            exact ⟨[.endWriteback f 0, .wroteFolio m f arr err n], a, goto_stack .., .written⟩
        · cases running
    | cons g marks =>
      have marking : g.marks = true := plain g List.mem_cons_self
      cases g <;> first | cases running | cases marking
  | range | array | start | clear | written | tested | counted | again => cases running

theorem finish_ret_of_ne (s : PageCache) (rest : List Frame) (err : Int) (n : Nat) (other : t ≠ u) :
    (s.finish u rest err n).ret t = s.ret t :=
  Function.update_of_ne other ..

theorem advance_ret (s : PageCache) (w : Walk) (err : Int) (nodes : List Node) (rest : List Frame) (other : t ≠ u) :
    (s.advance u w err nodes rest).ret t = s.ret t := by
  rw [advance]
  split
  · exact finish_ret_of_ne s rest err 0 other
  · exact finish_ret_of_ne _ _ 0 0 other

theorem folioMarkDirty_ret (s : PageCache) (k : Nat) (rest : List Frame) :
    (s.folioMarkDirty u k rest).ret = s.ret := by
  have set (m : Nat) : (s.setDirty m k).1.ret = s.ret := by
    rw [setDirty]
    split
    · rfl
    · rfl
  rw [folioMarkDirty]
  split
  · rfl
  · dsimp only
    split
    · exact set _
    · exact set _

theorem folioClearDirtyForIo_ret (s : PageCache) (k : Nat) : (s.folioClearDirtyForIo k).1.ret = s.ret := by
  rw [folioClearDirtyForIo]
  split
  · rfl
  · rw [clearDirty]
    split
    · rfl
    · rfl

/-- The step of a thread returns nothing to another. -/
theorem runFrame_ret {frame : Frame} (happens : s.runFrame u rest frame = some s') (other : t ≠ u) :
    s'.ret t = s.ret t := by
  cases frame with
  | markDirty f =>
    cases happens
    rw [folioMarkDirty_ret]
  | noteDirty k =>
    cases happens
    have same : (s.noteDirty k).ret = s.ret := by
      rw [noteDirty]
      split
      · rfl
      · rfl
    exact congrFun same t
  | writeFolios k arr err n =>
    cases arr with
    | nil =>
      cases happens
      exact finish_ret_of_ne s rest err n other
    | cons f arr =>
      rw [runFrame] at happens
      split at happens
      · cases happens
        rfl
      · cases happens
  | clearDirtyForIo k f =>
    simp only [runFrame] at happens
    split at happens
    · cases happens
      exact congrFun (folioClearDirtyForIo_ret s f) t
    · cases happens
      exact congrFun (folioClearDirtyForIo_ret s f) t
  | abandonWriteback f =>
    cases happens
    exact finish_ret_of_ne _ rest 0 0 other
  | testDirty f err | bothErrors err | syncDone sb err =>
    cases happens
    exact finish_ret_of_ne s rest _ 0 other
  | wroteFolio k f arr err n =>
    simp only [runFrame] at happens
    split at happens
    · cases happens
      rfl
    · cases happens
      rfl
  | retry k first last attempt =>
    rw [runFrame] at happens
    split at happens
    · cases happens
      exact finish_ret_of_ne s rest _ 0 other
    · cases happens
      rfl
  | waitRange k first last =>
    rw [runFrame] at happens
    split at happens
    · cases happens
      rfl
    · cases happens
      rfl
  | waitWriteback f =>
    rw [runFrame] at happens
    split at happens
    · cases happens
    · cases happens
      rfl
  | reportWbErr k =>
    cases happens
    exact finish_ret_of_ne _ rest _ 0 other
  | walkFrom w =>
    cases happens
    exact advance_ret s w 0 _ rest other
  | visited w k err =>
    cases happens
    exact advance_ret _ w _ _ rest other
  | writeFolio k f stored => cases happens
  | writeRange | startWriteback | recordError | endWriteback | thenWait | syncLast =>
    cases happens
    rfl

/-- What a call has returned to a thread stays through the step of another. -/
theorem other_ret (happens : s.next event = some s') (other : event.actor ≠ some t) : s'.ret t = s.ret t := by
  cases event with
  | tick =>
    cases happens
    rfl
  | insert k f index =>
    rw [next] at happens
    split at happens
    · cases happens
      rfl
    · cases happens
  | call u c =>
    rw [next] at happens
    split at happens
    · cases happens
      cases c <;> rfl
    · cases happens
  | run u =>
    rw [next] at happens
    cases here : s.stack u with
    | nil =>
      rw [here] at happens
      cases happens
    | cons frame rest =>
      rw [here] at happens
      refine runFrame_ret happens ?_
      rintro rfl
      exact other rfl
  | writeFolio u b =>
    rw [next] at happens
    split at happens
    · cases b with
      | unlock | lock =>
        rw [backend] at happens
        split at happens
        · cases happens
          rfl
        · cases happens
      | returns err =>
        rw [backend] at happens
        split at happens
        · split at happens
          · cases happens
            rfl
          · cases happens
            rfl
        · cases happens
      | store | markDirty | startWriteback | endWriteback =>
        cases happens
        rfl
    · cases happens

/-- A sync still leads to a folio that stays dirty. -/
theorem Leads.next (leads : Leads s t m f) (counts : Counts s) (walks : Walks s) (listed : .mapping m ∈ s.gDirty)
    (listed' : .mapping m ∈ s'.gDirty) (owner : (s.folio f).mapping = some m) (dirty : (s.folio f).dirty = true)
    (kept : (s'.folio f).dirty = true) (due : s.unwritten t f = true) (due' : s'.unwritten t f = true)
    (stores : StoresOrLeaves s event) (tries : TriesAgain s event) (happens : s.next event = some s') :
    Leads s' t m f := by
  have step := next_step counts.unmapped happens
  rcases leads with ⟨g, member, heads⟩ | ⟨above, a, below, here, attempts⟩
  · rcases heads_step step counts walks listed listed' member heads with ⟨below, called⟩ | heading
    · exact Or.inr ⟨[.writeRange m 0 none 0], 0, below, called, .range⟩
    · exact Or.inl heading
  by_cases actor : event.actor = some t
  · have goes : ∃ above' a', s'.stack t = above' ++ .retry m 0 none a' :: .thenWait m 0 none :: below ∧
        Attempts s' t m f above' := by
      cases event with
      | tick => cases actor
      | insert k f' index => cases actor
      | call u c =>
        cases actor
        rw [PageCache.next, here] at happens
        simp at happens
      | run u =>
        cases actor
        exact attempts.run here counts owner dirty kept due tries happens
      | writeFolio u b =>
        cases actor
        exact attempts.writeFolio here counts owner due due' stores happens
    obtain ⟨above', a', here', attempts'⟩ := goes
    exact Or.inr ⟨above', a', below, here', attempts'⟩
  · have stack := other_stack step counts actor
    exact Or.inr ⟨above, a, below, stack.trans here, attempts.congr (other_ret happens actor)⟩

/-- A folio that a sync must write stays in flight until it is stored, or is handed back where the
sync has yet to come to it. -/
theorem InFlight.next {w : Nat} (flight : InFlight s f w) (counts : Counts s)
    (writing : ∀ t, Writing s t (s.stack t)) (ends : EndsOwn s event) (stores : StoresOrLeaves s event)
    (owner : (s.folio f).mapping = some m) (due : s.unwritten u f = true) (happens : s.next event = some s') :
    InFlight s' f w ∨ s'.unwritten u f = false ∨ (s.folio f).dirty = true ∧ Leads s u m f := by
  have step := next_step counts.unmapped happens
  have spares := (next_writing counts writing ends happens).2 w
  obtain ⟨⟨k, marks, rest, here, plain⟩, held, on⟩ := flight
  by_cases actor : event.actor = some w
  · cases event with
    | tick => cases actor
    | insert k' f' index => cases actor
    | call t c =>
      cases actor
      rw [PageCache.next, here] at happens
      simp at happens
    | run t =>
      cases actor
      rw [PageCache.next, here] at happens
      cases marks with
      | nil => cases happens
      | cons g marks =>
        obtain ⟨spares, frames, stack, new⟩ := runFrame_marks (plain g List.mem_cons_self) happens
        refine Or.inl ⟨⟨k, frames ++ marks, rest, by simp [stack], ?_⟩, spares.holder f m owner held,
          spares.writeback f m owner held on⟩
        intro g' member
        rcases List.mem_append.mp member with this | old
        · exact new g' this
        · exact plain g' (List.mem_cons_of_mem g old)
    | writeFolio t b =>
      cases actor
      cases marks with
      | nil =>
        rw [List.nil_append] at here
        rw [PageCache.next, here] at happens
        have handed (ending : b = .endWriteback ∨ b = .unlock ∨ ∃ err, b = .returns err) :
            (s.folio f).dirty = true ∧ Leads s u m f := by
          rcases stores w b k f false rest rfl ending here held u m due owner with stored | ⟨dirty, leads, -⟩
          · cases stored
          · exact ⟨dirty, leads⟩
        cases b with
        | store =>
          cases happens
          exact Or.inr (Or.inl (by simp))
        | markDirty f' =>
          cases happens
          exact Or.inl ⟨⟨k, [.markDirty f'], rest, goto_stack .., by simp [Frame.marks]⟩, held, on⟩
        | startWriteback =>
          cases happens
          have field := modifyFolio_folio s f f fun folio => { folio with writeback := true }
          rw [if_pos rfl] at field
          exact Or.inl ⟨⟨k, [], rest, here, by simp⟩, (congrArg Folio.holder field).trans held,
            congrArg Folio.writeback field⟩
        | lock =>
          simp only [backend, held] at happens
          cases happens
        | endWriteback => exact Or.inr (Or.inr (handed (Or.inl rfl)))
        | unlock => exact Or.inr (Or.inr (handed (Or.inr (Or.inl rfl))))
        | returns err => exact Or.inr (Or.inr (handed (Or.inr (Or.inr ⟨err, rfl⟩))))
      | cons g marks =>
        have top := plain g List.mem_cons_self
        rw [PageCache.next, here] at happens
        cases g <;> first | cases happens | cases top
  · have stack := other_stack step counts actor
    exact Or.inl ⟨⟨k, marks, rest, stack.trans here, plain⟩, (spares actor).holder f m owner held,
      (spares actor).writeback f m owner held on⟩

end Attempts

end PageCache

end Ttntfs.Pagecache
