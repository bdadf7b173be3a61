import Ttntfs.Pagecache.DirtyCounts

/-!
# Walks come to the mappings before them

A sync comes to a mapping in one of its two passes. While it does, a place on the stack of
its thread says that it still heads for the mapping: the pass has not begun, or the mapping
stands on the far side of the cursor. Whatever the other threads do, a sync heads for a
listed mapping until it calls `filemap_write_and_wait` for it.
-/

namespace Ttntfs.Pagecache

open Ttntfs.Library.CursorWalk

/-- The frame belongs to a write or to a wait. -/
def Frame.works : Frame → Bool
  | .markDirty _ | .noteDirty _ | .walkFrom _ | .visited _ _ _ => false
  | _ => true

namespace PageCache

/-- The frame of thread `t` still heads for the mapping with a pass of a sync. -/
def HeadsFor (s : PageCache) (t m : Nat) : Frame → Prop
  | .walkFrom w => w.visit = .sync (s.syncsLast m) ∧ s.selects w (.mapping m) = some m
  | .visited w k _ => (w.visit = .sync (s.syncsLast m) ∧ s.selects w (.mapping m) = some m ∧ m ≠ k) ∧
      if w.reverse then Precedes s.gDirty (.mapping m) (.cursor t)
      else Precedes s.gDirty (.cursor t) (.mapping m)
  | .syncLast sb => s.syncsLast m = true ∧ s.onSb sb m = true
  | _ => False

/-- The order between a cursor and a mapping outlasts the step. -/
structure OrderKept (s s' : PageCache) (t m : Nat) : Prop where
  forward : Precedes s.gDirty (.cursor t) (.mapping m) → Precedes s'.gDirty (.cursor t) (.mapping m)
  backward : Precedes s.gDirty (.mapping m) (.cursor t) → Precedes s'.gDirty (.mapping m) (.cursor t)

section Heads

variable {s s' : PageCache} {event : Event} {t u m f : Nat} {frame : Frame} {rest frames : List Frame}

theorem OrderKept.mono (more : s.gDirty.Sublist s'.gDirty) : OrderKept s s' t m :=
  ⟨fun order => order.mono more, fun order => order.mono more⟩

theorem OrderKept.of_eq (same : s'.gDirty = s.gDirty) : OrderKept s s' t m := by
  refine OrderKept.mono ?_
  rw [same]

theorem onSb_congr (host : ∀ n, (s'.mapping n).host = (s.mapping n).host) (sb n : Nat) :
    s'.onSb sb n = s.onSb sb n := by
  simp only [onSb, host]

theorem selects_congr (host : ∀ n, (s'.mapping n).host = (s.mapping n).host) (w : Walk) (n : Node) :
    s'.selects w n = s.selects w n := by
  cases n with
  | mapping m =>
    have on : ∀ sb, s'.onSb sb m = s.onSb sb m := fun sb => onSb_congr host sb m
    simp only [selects, on]
  | cursor t => rfl

theorem syncsLast_congr (host : ∀ n, (s'.mapping n).host = (s.mapping n).host) (n : Nat) :
    s'.syncsLast n = s.syncsLast n := by
  simp only [syncsLast, host]

/-- A frame heads where it headed while the hosts and the order stay. -/
theorem HeadsFor.keep (heads : HeadsFor s t m frame)
    (host : ∀ n, (s'.mapping n).host = (s.mapping n).host)
    (order : frame.isWalk = true → OrderKept s s' t m) : HeadsFor s' t m frame := by
  have last := syncsLast_congr host m
  have selected := fun w => selects_congr host w (.mapping m)
  cases frame with
  | walkFrom w =>
    simp only [HeadsFor, last, selected] at heads ⊢
    exact heads
  | visited w m' err =>
    simp only [HeadsFor, last, selected] at heads ⊢
    refine ⟨heads.1, ?_⟩
    have towards := heads.2
    split at towards
    · rename_i backward
      rw [if_pos backward]
      exact (order rfl).backward towards
    · rename_i forward
      rw [if_neg forward]
      exact (order rfl).forward towards
  | syncLast sb =>
    simp only [HeadsFor, last, onSb_congr host] at heads ⊢
    exact heads
  | _ => exact heads.elim

theorem begin_heads {sb : Nat} (on : s.onSb sb m = true) :
    ∃ g ∈ Call.frames (.pagecacheSyncSb sb), HeadsFor s t m g := by
  cases last : s.syncsLast m with
  | true => exact ⟨.syncLast sb, by simp [Call.frames], last, on⟩
  | false =>
    exact ⟨.walkFrom (firstPass sb), by simp [Call.frames],
      by simp [HeadsFor, firstPass, selects, last, on]⟩

/-- The steps of a walk leave the hosts of the mappings. -/
theorem host_step (step : Step s event s') (n : Nat) :
    (s'.mapping n).host = (s.mapping n).host := by
  cases step with
  | idle same stack => exact same.host n
  | move t here actor moves same stack => exact same.host n
  | mark t f m rest here owner running result =>
    rw [result, (folioMarkDirty_cache t rest owner).2.1, setDirty]
    split
    · rfl
    · rw [modifyMapping_mapping]
      split
      · rename_i same
        rw [same]
        rfl
      · rfl
  | note t m rest here running result =>
    rw [result]
    exact congrArg Mapping.host (congrFun (noteDirty_cache s m).2.1 n)
  | clear t f m m' rest here owner dirty frame plain result =>
    rw [result, PageCache.clearDirty, dirty, if_pos rfl]
    have field := modifyMapping_mapping (s.modifyFolio f fun folio => { folio with dirty := false }) m n
      fun mapping => { mapping with dirty := mapping.dirty.erase f, nrdirty := mapping.nrdirty - 1 }
    refine (congrArg Mapping.host field).trans ?_
    split
    · rename_i same
      rw [same]
      rfl
    · rfl
  | walk t w rest here result =>
    rw [result, (advance_cache s t w 0 _ rest).2.1]
  | resume t w m err rest here result =>
    rw [result, (resume_cache s t w m err rest).2.1]
  | call t c here calling result =>
    rw [result, (begin_cache s t c).2.1]
  | insert m f index free result =>
    rw [result, modifyMapping_mapping]
    split
    · rename_i same
      rw [same]
      rfl
    · rfl

theorem selects_only {w : Walk} {n : Node} {k : Nat} (selected : s.selects w n = some k) :
    n = .mapping k := by
  cases n with
  | cursor u => cases selected
  | mapping j =>
    rw [selects] at selected
    split at selected
    · cases selected
      rfl
    · split at selected
      · cases selected
        rfl
      · cases selected

/-- A walk that goes on calls for a mapping that it has before it, or heads for it. -/
theorem advance_heads {w : Walk} {err : Int} {nodes : List Node}
    (visit : w.visit = .sync (s.syncsLast m)) (selected : s.selects w (.mapping m) = some m)
    (before : .mapping m ∈ nodes)
    (part : if w.reverse then nodes.Sublist s.gDirty.reverse else nodes.Sublist s.gDirty) :
    (∃ below, (s.advance t w err nodes rest).stack t = writeAndWait m 0 none ++ below) ∨
      ∃ g ∈ (s.advance t w err nodes rest).stack t, HeadsFor (s.advance t w err nodes rest) t m g := by
  have host : ∀ n, ((s.advance t w err nodes rest).mapping n).host = (s.mapping n).host := by
    intro n
    rw [(advance_cache s t w err nodes rest).2.1]
  rcases advance_cases s t w err nodes rest with ⟨none, -, -⟩ | ⟨m', found, gDirty, stack⟩
  · rw [List.findSome?_eq_none_iff] at none
    rw [none _ before] at selected
    cases selected
  rw [stack, Function.update_self]
  by_cases same : m' = m
  · -- The walk stops at the mapping.
    subst same
    refine Or.inl ⟨.visited w m' err :: rest, ?_⟩
    rw [visit, visitFrames, if_pos rfl]
  · -- The walk stops earlier, and the mapping is on the far side of its cursor.
    have order := precedes_of_findSome? found (fun n => selects_only) before selected (by simpa using same)
    refine Or.inr ⟨.visited w m' err, List.mem_append_right _ List.mem_cons_self, ?_⟩
    simp only [HeadsFor, syncsLast_congr host, selects_congr host]
    refine ⟨⟨visit, selected, Ne.symm same⟩, ?_⟩
    rw [gDirty, park]
    split
    · rename_i backward
      rw [if_pos backward] at part
      exact (precedes_reverse.mp (order.mono part)).placeBefore
    · rename_i forward
      rw [if_neg forward] at part
      exact (order.mono part).placeAfter

theorem precedes_drop {w : Walk} {k : Nat} {e : Int} {a b : Node} (order : Precedes s.gDirty a b)
    (left : s.drops w k e = true → a ≠ .mapping k) (right : s.drops w k e = true → b ≠ .mapping k) :
    Precedes (if s.drops w k e then s.gDirty.erase (.mapping k) else s.gDirty) a b := by
  split
  · rename_i dropped
    exact order.erase (left dropped) (right dropped)
  · exact order

theorem drop_sublist (s : PageCache) (w : Walk) (k : Nat) (e : Int) :
    (if s.drops w k e then s.gDirty.erase (.mapping k) else s.gDirty).Sublist s.gDirty := by
  split
  · exact List.erase_sublist
  · exact List.Sublist.refl _

/-- A walk that goes on behind a call calls for a mapping or heads for it as before. -/
theorem resume_heads (walks : Walks s) {w : Walk} {k : Nat} {err : Int}
    (heads : HeadsFor s t m (.visited w k err)) (kept : s.drops w k (s.ret t).1 = true → m ≠ k) :
    (∃ below, (s.resume t w k err rest).stack t = writeAndWait m 0 none ++ below) ∨
      ∃ g ∈ (s.resume t w k err rest).stack t, HeadsFor (s.resume t w k err rest) t m g := by
  obtain ⟨⟨visit, selected, -⟩, order⟩ := heads
  have keeps : s.drops w k (s.ret t).1 = true → Node.mapping m ≠ .mapping k :=
    fun dropped same => kept dropped (Node.mapping.inj same)
  rw [PageCache.resume]
  refine advance_heads visit selected ?_ ?_
  · rw [ahead]
    split
    · rename_i backward
      rw [if_pos backward] at order
      exact (precedes_drop order keeps (by simp)).mem_leaders
        (walks.nodup.sublist (drop_sublist s w k _))
    · rename_i forward
      rw [if_neg forward] at order
      exact (precedes_drop order (by simp) keeps).mem_followers
  · rw [ahead]
    split
    · exact leaders_sublist _ _
    · exact followers_sublist _ _

theorem OrderKept.advance {w : Walk} {err : Int} {nodes : List Node} :
    OrderKept s (s.advance u w err nodes rest) t m := by
  refine OrderKept.mono ?_
  rcases advance_cases s u w err nodes rest with ⟨-, gDirty, -⟩ | ⟨k, -, gDirty, -⟩
  · rw [gDirty]
  · rw [gDirty, park]
    split
    · exact sublist_placeBefore _ _ _
    · exact sublist_placeAfter _ _ _

theorem OrderKept.resume {w : Walk} {k : Nat} {err : Int} (other : t ≠ u)
    (kept : s.drops w k (s.ret u).1 = true → m ≠ k) : OrderKept s (s.resume u w k err rest) t m := by
  have mine : Node.cursor t ≠ .cursor u := fun same => other (Node.cursor.inj same)
  have keeps : s.drops w k (s.ret u).1 = true → Node.mapping m ≠ .mapping k :=
    fun dropped same => kept dropped (Node.mapping.inj same)
  rw [PageCache.resume]
  constructor
  · intro order
    exact OrderKept.advance.forward ((precedes_drop order (by simp) keeps).erase mine (by simp))
  · intro order
    exact OrderKept.advance.backward ((precedes_drop order keeps (by simp)).erase (by simp) mine)

theorem resume_dropped (walks : Walks s) {w : Walk} {k : Nat} {err : Int}
    (dropped : s.drops w k (s.ret u).1 = true) : .mapping k ∉ (s.resume u w k err rest).gDirty := by
  have absent : Node.mapping k ∉ ((if s.drops w k (s.ret u).1 then s.gDirty.erase (.mapping k)
      else s.gDirty).erase (.cursor u)) := by
    rw [if_pos dropped]
    exact fun member => walks.nodup.not_mem_erase (List.mem_of_mem_erase member)
  rw [PageCache.resume]
  intro member
  rcases advance_cases _ u w _ _ rest with ⟨-, gDirty, -⟩ | ⟨k', -, gDirty, -⟩
  · rw [gDirty] at member
    exact absent member
  · rw [gDirty, mem_park] at member
    rcases member with old | ⟨same, -⟩
    · exact absent old
    · cases same

end Heads

/-! ## Steps -/

section Steps

variable {s s' : PageCache} {event : Event} {t u m f : Nat} {g frame : Frame} {rest frames : List Frame}

/-- A place of a thread stays through the step of a thread, unless it is the top that
moves. -/
theorem mem_or_top (here : s.stack u = frame :: rest)
    (stack : s'.stack = Function.update s.stack u (frames ++ rest)) (member : g ∈ s.stack t) :
    g ∈ s'.stack t ∨ t = u ∧ g = frame := by
  by_cases mine : t = u ∧ g = frame
  · exact Or.inr mine
  refine Or.inl ?_
  rw [stack, Function.update_apply]
  split
  · rename_i same
    rw [same, here] at member
    rcases List.mem_cons.mp member with this | below
    · exact absurd ⟨same, this⟩ mine
    · exact List.mem_append_right _ below
  · exact member

/-- What `folio_mark_dirty` puts on the stack. -/
theorem mark_stack (counts : Counts s) (owner : (s.folio f).mapping = some m) :
    ∃ frames, (s.folioMarkDirty u f rest).stack = Function.update s.stack u (frames ++ rest) ∧
      (frames = [.noteDirty m] ∨ frames = []) := by
  rcases folioMarkDirty_cases counts u rest owner with ⟨-, stack, -⟩ | ⟨-, stack, -⟩
  · exact ⟨[.noteDirty m], stack, Or.inl rfl⟩
  · exact ⟨[], stack, Or.inr rfl⟩

/-- What a walk that goes on puts on the stack. -/
theorem advance_stack (s : PageCache) (u : Nat) (w : Walk) (err : Int) (nodes : List Node)
    (rest : List Frame) : ∃ frames, (s.advance u w err nodes rest).stack =
      Function.update s.stack u (frames ++ rest) ∧ (frames = [] ∨ ∃ k, s.selects w (.mapping k) = some k ∧
        frames = s.visitFrames k w.visit ++ [.visited w k err]) := by
  rcases advance_cases s u w err nodes rest with ⟨-, -, stack⟩ | ⟨k, found, -, stack⟩
  · exact ⟨[], stack, Or.inl rfl⟩
  · rw [List.append_cons] at stack
    refine ⟨_, stack, Or.inr ⟨k, ?_, rfl⟩⟩
    obtain ⟨n, -, selected⟩ := List.exists_of_findSome?_eq_some found
    rw [← selects_only selected]
    exact selected

/-- The places of the threads behind the step of a walk that comes back from a call. -/
theorem resume_stack (s : PageCache) (u : Nat) (w : Walk) (k : Nat) (err : Int) (rest : List Frame) :
    ∃ frames, (s.resume u w k err rest).stack = Function.update s.stack u (frames ++ rest) ∧
      (frames = [] ∨ ∃ j err', s.selects w (.mapping j) = some j ∧
        frames = s.visitFrames j w.visit ++ [.visited w j err']) := by
  rw [PageCache.resume]
  obtain ⟨frames, stack, kind⟩ := advance_stack
    { s with gDirty := (if s.drops w k (s.ret u).1 then s.gDirty.erase (.mapping k) else s.gDirty).erase
               (.cursor u) } u w (if (s.ret u).1 ≠ 0 ∧ err = 0 then (s.ret u).1 else err)
    ({ s with gDirty := if s.drops w k (s.ret u).1 then s.gDirty.erase (.mapping k) else s.gDirty }.ahead u
      w.reverse) rest
  refine ⟨frames, stack, ?_⟩
  rcases kind with none | ⟨j, selected, same⟩
  · exact Or.inl none
  · exact Or.inr ⟨j, _, selected, same⟩

theorem note_stack (s : PageCache) (u k : Nat) (rest : List Frame) :
    (((s.noteDirty k).markReturns k).goto u rest).stack = Function.update s.stack u ([] ++ rest) := by
  change Function.update (s.noteDirty k).stack u rest = Function.update s.stack u rest
  rw [(noteDirty_cache s k).2.2.2.2]

theorem clear_stack {k : Nat} (dirty : (s.folio f).dirty = true) :
    ((s.clearDirty k f).1.goto u (frame :: rest)).stack = Function.update s.stack u ([frame] ++ rest) := by
  rw [PageCache.clearDirty, dirty, if_pos rfl]
  rfl

/-- A sync heads for a listed mapping until it calls for it. -/
theorem heads_step (step : Step s event s') (counts : Counts s) (walks : Walks s)
    (listed : .mapping m ∈ s.gDirty) (kept : .mapping m ∈ s'.gDirty) (member : g ∈ s.stack t)
    (heads : HeadsFor s t m g) :
    (∃ below, s'.stack t = writeAndWait m 0 none ++ below) ∨ ∃ g' ∈ s'.stack t, HeadsFor s' t m g' := by
  have host := host_step step
  cases step with
  | idle same stack =>
    refine Or.inr ⟨g, ?_, heads.keep host (fun _ => OrderKept.of_eq same.gDirty)⟩
    rw [stack]
    exact member
  | move u here actor moves same stack =>
    have order : ∀ m, OrderKept s s' t m := fun m => OrderKept.of_eq same.gDirty
    rcases mem_or_top here stack member with stays | ⟨rfl, rfl⟩
    · exact Or.inr ⟨g, stays, heads.keep host (fun _ => order m)⟩
    cases moves with
    | secondPass sb err =>
      obtain ⟨last, on⟩ := heads
      have walking : HeadsFor s t m (.walkFrom (secondPass sb)) := by
        simp [HeadsFor, secondPass, selects, last, on]
      refine Or.inr ⟨.walkFrom (secondPass sb), ?_, walking.keep host (fun _ => order m)⟩
      rw [stack, Function.update_self]
      exact List.mem_cons_self
    | other before after => cases g <;> first | exact heads.elim | cases before
    | collect | lock | start | clean | further | wait | waitMore | waited | report | unmapped =>
      exact heads.elim
  | mark u f' m' rest here owner running result =>
    subst result
    obtain ⟨-, -, gDirty, -⟩ := folioMarkDirty_cache u rest owner
    obtain ⟨frames, stack, -⟩ := mark_stack counts owner
    rcases mem_or_top here stack member with stays | ⟨rfl, rfl⟩
    · exact Or.inr ⟨g, stays, heads.keep host (fun _ => OrderKept.of_eq gDirty)⟩
    · exact heads.elim
  | note u m' rest here running result =>
    subst result
    have more : s.gDirty.Sublist (((s.noteDirty m').markReturns m').goto u rest).gDirty := by
      change s.gDirty.Sublist (s.noteDirty m').gDirty
      rw [noteDirty]
      split
      · exact List.Sublist.refl _
      · exact List.sublist_append_left _ _
    rcases mem_or_top here (note_stack s u m' rest) member with stays | ⟨rfl, rfl⟩
    · exact Or.inr ⟨g, stays, heads.keep host (fun _ => OrderKept.mono more)⟩
    · exact heads.elim
  | clear u f' m' m'' rest here owner dirty frame plain result =>
    have gDirty : s'.gDirty = s.gDirty := by
      rw [result, PageCache.clearDirty, dirty, if_pos rfl]
      rfl
    have stack : s'.stack = Function.update s.stack u ([frame] ++ rest) := by
      rw [result, clear_stack dirty]
    rcases mem_or_top here stack member with stays | ⟨rfl, rfl⟩
    · exact Or.inr ⟨g, stays, heads.keep host (fun _ => OrderKept.of_eq gDirty)⟩
    · exact heads.elim
  | walk u w rest here result =>
    subst result
    obtain ⟨frames, stack, -⟩ :=
      advance_stack s u w 0 (if w.reverse then s.gDirty.reverse else s.gDirty) rest
    rcases mem_or_top here stack member with stays | ⟨rfl, rfl⟩
    · exact Or.inr ⟨g, stays, heads.keep host (fun _ => OrderKept.advance)⟩
    · refine advance_heads heads.1 heads.2 ?_ ?_
      · split
        · exact List.mem_reverse.mpr listed
        · exact listed
      · split
        · exact List.Sublist.refl _
        · exact List.Sublist.refl _
  | resume u w k err rest here result =>
    subst result
    obtain ⟨bears, -⟩ := walks.below here
    have undropped : s.drops w k (s.ret u).1 = true → m ≠ k := by
      rintro dropped rfl
      exact resume_dropped walks dropped kept
    by_cases top : t = u ∧ g = .visited w k err
    · obtain ⟨rfl, rfl⟩ := top
      exact resume_heads walks heads undropped
    obtain ⟨frames, stack, -⟩ := resume_stack s u w k err rest
    -- Below the top of the stack of the walk there is no other walk.
    have order : g.isWalk = true → OrderKept s (s.resume u w k err rest) t m := by
      intro walking
      refine OrderKept.resume ?_ undropped
      rintro rfl
      rw [here] at member
      rcases List.mem_cons.mp member with this | below
      · exact top ⟨rfl, this⟩
      · rw [bears rfl g below] at walking
        cases walking
    rcases mem_or_top here stack member with stays | same
    · exact Or.inr ⟨g, stays, heads.keep host order⟩
    · exact absurd same top
  | call u c here calling result =>
    subst result
    obtain ⟨-, -, gDirty, -, stack⟩ := begin_cache s u c
    have other : t ≠ u := by
      rintro rfl
      rw [here] at member
      cases member
    refine Or.inr ⟨g, ?_, heads.keep host (fun _ => OrderKept.of_eq gDirty)⟩
    rw [stack, Function.update_of_ne other]
    exact member
  | insert m' f' index free result =>
    subst result
    exact Or.inr ⟨g, member, heads.keep host (fun _ => OrderKept.of_eq rfl)⟩

theorem clearDirty_clean {k : Nat} (dirty : (s.folio f).dirty = true) :
    ((s.clearDirty k f).1.folio f).dirty = false := by
  rw [PageCache.clearDirty, dirty, if_pos rfl]
  have field := modifyFolio_folio s f f fun folio => { folio with dirty := false }
  rw [if_pos rfl] at field
  exact congrArg Folio.dirty field

/-- The top of a stack stays, or its thread moves on from it. -/
theorem top_step (step : Step s event s') (counts : Counts s) (top : s.stack t = g :: rest) :
    s'.stack t = s.stack t ∨ ∃ frames, s'.stack t = frames ++ rest ∧
      (event.actor = some t ∧ Moves s s' g frames ∨ g.works = false ∨
        ∃ k f, g = .clearDirtyForIo k f ∧ (s'.folio f).dirty = false) := by
  -- The stack of the thread that moves is replaced above what is below its top.
  have replaced : ∀ {u : Nat} {frame : Frame} {below frames : List Frame}, s.stack u = frame :: below →
      s'.stack = Function.update s.stack u (frames ++ below) →
      s'.stack t = s.stack t ∨ t = u ∧ g = frame ∧ s'.stack t = frames ++ rest := by
    intro u frame below frames here stack
    by_cases mine : t = u
    · subst mine
      rw [here] at top
      cases top
      refine Or.inr ⟨rfl, rfl, ?_⟩
      rw [stack, Function.update_self]
    · rw [stack, Function.update_of_ne mine]
      exact Or.inl rfl
  cases step with
  | idle same stack => exact Or.inl (congrFun stack t)
  | move u here actor moves same stack =>
    rcases replaced here stack with same | ⟨rfl, rfl, moved⟩
    · exact Or.inl same
    · exact Or.inr ⟨_, moved, Or.inl ⟨actor, moves⟩⟩
  | mark u f' m' below here owner running result =>
    subst result
    obtain ⟨frames, stack, -⟩ := mark_stack counts owner
    rcases replaced here stack with same | ⟨rfl, rfl, moved⟩
    · exact Or.inl same
    · exact Or.inr ⟨_, moved, Or.inr (Or.inl rfl)⟩
  | note u m' below here running result =>
    subst result
    rcases replaced here (note_stack s u m' below) with same | ⟨rfl, rfl, moved⟩
    · exact Or.inl same
    · exact Or.inr ⟨_, moved, Or.inr (Or.inl rfl)⟩
  | clear u f' m' m'' below here owner dirty frame plain result =>
    subst result
    rcases replaced here (clear_stack dirty) with same | ⟨rfl, rfl, moved⟩
    · exact Or.inl same
    · exact Or.inr ⟨_, moved, Or.inr (Or.inr ⟨_, _, rfl, clearDirty_clean dirty⟩)⟩
  | walk u w below here result =>
    subst result
    obtain ⟨frames, stack, -⟩ :=
      advance_stack s u w 0 (if w.reverse then s.gDirty.reverse else s.gDirty) below
    rcases replaced here stack with same | ⟨rfl, rfl, moved⟩
    · exact Or.inl same
    · exact Or.inr ⟨_, moved, Or.inr (Or.inl rfl)⟩
  | resume u w k err below here result =>
    subst result
    obtain ⟨frames, stack, -⟩ := resume_stack s u w k err below
    rcases replaced here stack with same | ⟨rfl, rfl, moved⟩
    · exact Or.inl same
    · exact Or.inr ⟨_, moved, Or.inr (Or.inl rfl)⟩
  | call u c here calling result =>
    subst result
    obtain ⟨-, -, -, -, stack⟩ := begin_cache s u c
    have other : t ≠ u := by
      rintro rfl
      rw [here] at top
      cases top
    rw [stack, Function.update_of_ne other]
    exact Or.inl rfl
  | insert m' f' index free result =>
    subst result
    exact Or.inl rfl

/-- A place of a write or of a wait stays, or its thread moves on from it, or it clears a dirty folio. -/
theorem works_step (step : Step s event s') (counts : Counts s) (member : g ∈ s.stack t)
    (works : g.works = true) :
    g ∈ s'.stack t ∨
      (∃ rest frames, event.actor = some t ∧ s.stack t = g :: rest ∧ Moves s s' g frames ∧
        s'.stack t = frames ++ rest) ∨ ∃ k f, g = .clearDirtyForIo k f ∧ (s'.folio f).dirty = false := by
  obtain ⟨top, rest, here⟩ := List.exists_cons_of_ne_nil (List.ne_nil_of_mem member)
  rcases top_step step counts here with same | ⟨frames, stack, kind⟩
  · exact Or.inl (same ▸ member)
  rw [here] at member
  rcases List.mem_cons.mp member with rfl | below
  · rcases kind with ⟨actor, moves⟩ | idle | clears
    · exact Or.inr (Or.inl ⟨rest, frames, actor, here, moves, stack⟩)
    · rw [works] at idle
      cases idle
    · exact Or.inr (Or.inr clears)
  · rw [stack]
    exact Or.inl (List.mem_append_right _ below)

end Steps

end PageCache

end Ttntfs.Pagecache
