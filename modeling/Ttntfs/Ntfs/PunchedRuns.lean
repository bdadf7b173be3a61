import Mathlib.Data.List.GetD
import Ttntfs.Ntfs.RunlistPunch

/-!
# What a punched run list maps

A range of vcns is punched out of a run list in three parts: the runs before it, the runs
it covers, and the runs behind it. The first and the last of the runs it covers may reach
over its ends. The new list has the first part, a hole and the third part, and what is to
be freed is the second part without what reaches over.
-/

namespace Ttntfs.Ntfs

open Ttntfs.Library.SignedBytes

section Arrays

variable {before behind filled source : List RunlistElement} {element : RunlistElement}

theorem modify_append (before : List RunlistElement) (element : RunlistElement)
    (behind : List RunlistElement) (f : RunlistElement → RunlistElement) :
    (before ++ element :: behind).modify before.length f = before ++ f element :: behind := by
  induction before with
  | nil => simp
  | cons first before ih => simp [ih]

/-- The element behind the first part of a list. -/
theorem elementAt_append (before : List RunlistElement) (element : RunlistElement)
    (behind : List RunlistElement) : elementAt (before ++ element :: behind) before.length = element := by
  rw [elementAt, List.getD_append_right _ _ _ _ (le_refl _), Nat.sub_self, List.getD_cons_zero]

theorem parts_at {rl : List RunlistElement} {i : Nat} (inside : i < rl.length) :
    ∃ before behind, rl = before ++ elementAt rl i :: behind ∧ before.length = i := by
  refine ⟨rl.take i, rl.drop (i + 1), ?_, ?_⟩
  · rw [elementAt, List.getD_eq_getElem _ _ inside, List.getElem_cons_drop, List.take_append_drop]
  · rw [List.length_take, Nat.min_eq_left inside.le]

theorem ntfsRlMc_behind (filled blank source : List RunlistElement) :
    ntfsRlMc (filled ++ blank) filled.length source = filled ++ source ++ blank.drop source.length := by
  simp [ntfsRlMc]

end Arrays

/-- What a run keeps before a range that begins within it. -/
def frontPart (sRl : RunlistElement) (startVcn : Nat) : List RunlistElement :=
  if beginSplit sRl startVcn then [{ sRl with length := startVcn - sRl.vcn }] else []

/-- What a run keeps behind a range that ends within it. -/
def backPart (eRl : RunlistElement) (endVcn : Nat) : List RunlistElement :=
  if endSplit eRl endVcn then
    [⟨endVcn + 1, lcnBeyond eRl (endVcn + 1 - eRl.vcn), eRl.length - (endVcn + 1 - eRl.vcn)⟩]
  else []

/-- The first and the last of the runs in which a range lies, with what stands before and
behind them. -/
structure Covers (dstRl : List RunlistElement) (s e : Nat) (before : List RunlistElement)
    (sRl eRl : RunlistElement) (behind : List RunlistElement) : Prop where
  first : ∃ rest, dstRl = before ++ sRl :: rest ∧ before.length = s
  last : ∃ others, dstRl = others ++ eRl :: behind ∧ others.length = e

section Copies

variable {dstRl before behind : List RunlistElement} {sRl eRl : RunlistElement}
  {s e startVcn len endVcn newCnt : Nat}

theorem Covers.elementAt_first (covers : Covers dstRl s e before sRl eRl behind) : elementAt dstRl s = sRl := by
  obtain ⟨rest, rfl, rfl⟩ := covers.first
  exact elementAt_append _ _ _

theorem Covers.elementAt_last (covers : Covers dstRl s e before sRl eRl behind) : elementAt dstRl e = eRl := by
  obtain ⟨others, rfl, rfl⟩ := covers.last
  exact elementAt_append _ _ _

theorem Covers.length_front (covers : Covers dstRl s e before sRl eRl behind) :
    (before ++ frontPart sRl startVcn).length = if beginSplit sRl startVcn then s + 1 else s := by
  obtain ⟨rest, _, rfl⟩ := covers.first
  rw [frontPart, List.length_append]
  split <;> rfl

/-- The elements before the hole. -/
theorem Covers.copy_front (covers : Covers dstRl s e before sRl eRl behind) {filled : List RunlistElement}
    (front : before ++ frontPart sRl startVcn = filled) (blank : List RunlistElement) :
    (if beginSplit sRl startVcn then
      (ntfsRlMc blank 0 (dstRl.take filled.length)).modify (filled.length - 1)
        fun element => { element with length := startVcn - sRl.vcn }
      else ntfsRlMc blank 0 (dstRl.take filled.length)) = filled ++ blank.drop filled.length := by
  obtain ⟨rest, rfl, _⟩ := covers.first
  have copied := @ntfsRlMc_behind [] blank
  simp only [List.nil_append, List.length_nil] at copied
  rw [frontPart] at front
  by_cases splits : beginSplit sRl startVcn
  · rw [if_pos splits] at front ⊢
    have taken : (before ++ sRl :: rest).take filled.length = before ++ [sRl] := by
      rw [← front, List.length_append, List.take_length_add_append]
      rfl
    have place : filled.length - 1 = before.length := by simp [← front]
    rw [copied, taken, place, List.append_assoc, List.singleton_append, modify_append, ← front]
    simp
  · rw [if_neg splits, List.append_nil] at front
    rw [if_neg splits, copied, ← front]
    simp

/-- The array with the hole: the elements before it, the hole and the elements behind it. -/
theorem Covers.holedRl_eq (covers : Covers dstRl s e before sRl eRl behind) {filled : List RunlistElement}
    (front : before ++ frontPart sRl startVcn = filled) :
    holedRl dstRl s e startVcn len endVcn filled.length newCnt =
      filled ++ ⟨startVcn, lcnHole, len⟩ :: (backPart eRl endVcn ++ behind) ++
        List.replicate (newCnt - (filled.length + 1) - (backPart eRl endVcn ++ behind).length) emptyElement := by
  have first := covers.elementAt_first
  have last := covers.elementAt_last
  have copied := covers.copy_front front (List.replicate newCnt emptyElement)
  have next : filled.length + 1 = (filled ++ [(⟨startVcn, lcnHole, len⟩ : RunlistElement)]).length := by simp
  obtain ⟨others, dst, rfl⟩ := covers.last
  rw [holedRl, first, last]
  simp only [copied]
  rw [ntfsRlMc_behind, next, ntfsRlMc_behind, backPart]
  by_cases splits : endSplit eRl endVcn
  · have third : dstRl.drop others.length = eRl :: behind := by rw [dst]; simp
    simp only [if_pos splits, third]
    rw [List.append_assoc, List.cons_append, modify_append]
    simp [Nat.sub_sub]
  · have third : dstRl.drop (others.length + 1) = behind := by rw [dst]; simp
    simp only [if_neg splits, third]
    simp [Nat.sub_sub]

end Copies

/-- Two holes that stand one behind the other become one. -/
inductive JoinsHoles : List RunlistElement → List RunlistElement → Prop where
  | join (before : List RunlistElement) {left right : RunlistElement} (behind : List RunlistElement)
      (leftHole : left.lcn = lcnHole) (rightHole : right.lcn = lcnHole) :
      JoinsHoles (before ++ left :: right :: behind)
        (before ++ { left with length := left.length + right.length } :: behind)

section Merges

variable {filled tail blank : List RunlistElement} {hole right : RunlistElement} {newCnt : Nat}

theorem ntfsRlMm_over (kept absorbed moved : List RunlistElement) :
    ∃ rest, ntfsRlMm (kept ++ absorbed ++ moved) kept.length (kept.length + absorbed.length) moved.length =
      kept ++ moved ++ rest := by
  refine ⟨(kept ++ absorbed ++ moved).drop (kept.length + moved.length), ?_⟩
  have source : (kept ++ absorbed ++ moved).drop (kept.length + absorbed.length) = moved := by
    rw [← List.length_append, List.drop_left]
  rw [ntfsRlMm, source, List.take_length, ntfsRlMc, List.append_assoc kept, List.take_left]

/-- An element becomes the hole, with the clusters of those it absorbs. -/
theorem mergeHoles_absorbs {before absorbed moved : List RunlistElement} {left : RunlistElement}
    {newFirstCnt : Nat} (some_absorbed : absorbed.length = 1 ∨ absorbed.length = 2)
    (merge : holeMerge (before ++ left :: (absorbed ++ moved)) newFirstCnt newCnt =
      (before.length, absorbed.length))
    (size : (before ++ left :: (absorbed ++ moved)).length = newCnt) :
    ∃ rest, mergeHoles (before ++ left :: (absorbed ++ moved)) newFirstCnt newCnt =
      before ++ { left with length := left.length + rlClusters absorbed } :: moved ++ rest := by
  have added : (elementAt (before ++ left :: (absorbed ++ moved)) (before.length + 1)).length +
      (if absorbed.length = 2 then (elementAt (before ++ left :: (absorbed ++ moved)) (before.length + 2)).length
        else 0) = rlClusters absorbed := by
    have next := elementAt_append (before ++ [left])
    rw [List.length_append, List.length_singleton] at next
    rcases some_absorbed with one | two
    · obtain ⟨first, rfl⟩ := List.length_eq_one_iff.mp one
      have found := next first moved
      rw [List.append_assoc] at found
      simp only [List.singleton_append] at found ⊢
      rw [found]
      simp [rlClusters]
    · obtain ⟨first, second, rfl⟩ := List.length_eq_two.mp two
      have found := next first (second :: moved)
      have behind := elementAt_append (before ++ [left, first]) second moved
      rw [List.append_assoc] at found behind
      rw [List.length_append] at behind
      simp only [List.cons_append, List.nil_append, List.length_cons, List.length_nil, Nat.zero_add,
        Nat.reduceAdd, if_true] at found behind ⊢
      rw [found, behind]
      simp [rlClusters]
  have some_count : absorbed.length ≠ 0 := by omega
  rw [mergeHoles, merge]
  simp only [if_neg some_count]
  rw [added, modify_append]
  obtain ⟨rest, moved_over⟩ := ntfsRlMm_over
    (before ++ [{ left with length := left.length + rlClusters absorbed }]) absorbed moved
  refine ⟨rest, ?_⟩
  have count : newCnt - (before.length + 1 + absorbed.length) = moved.length := by
    rw [← size]
    simp
    omega
  rw [count]
  simpa using moved_over

/-- A hole between some elements and others, when the holes that meet are merged. -/
inductive HoleMerged (hole right : RunlistElement) (tail : List RunlistElement) :
    List RunlistElement → List RunlistElement → Prop where
  | both (front : List RunlistElement) {left : RunlistElement} (leftHole : left.lcn = lcnHole)
      (rightHole : right.lcn = lcnHole) : HoleMerged hole right tail (front ++ [left])
        (front ++ { left with length := left.length + (hole.length + right.length) } :: tail)
  | left (front : List RunlistElement) {left : RunlistElement} (leftHole : left.lcn = lcnHole)
      (rightSolid : right.lcn ≠ lcnHole) : HoleMerged hole right tail (front ++ [left])
        (front ++ { left with length := left.length + hole.length } :: right :: tail)
  | right {filled : List RunlistElement} (leftSolid : ∀ front left, filled = front ++ [left] → left.lcn ≠ lcnHole)
      (rightHole : right.lcn = lcnHole) : HoleMerged hole right tail filled
        (filled ++ { hole with length := hole.length + right.length } :: tail)
  | alone {filled : List RunlistElement} (leftSolid : ∀ front left, filled = front ++ [left] → left.lcn ≠ lcnHole)
      (rightSolid : right.lcn ≠ lcnHole) : HoleMerged hole right tail filled (filled ++ hole :: right :: tail)

/-- The merged array begins with the elements that are left when holes are merged. -/
theorem mergeHoles_merged (size : (filled ++ hole :: (right :: tail) ++ blank).length = newCnt) :
    ∃ joined rest, mergeHoles (filled ++ hole :: (right :: tail) ++ blank) filled.length newCnt = joined ++ rest ∧
      joined.length + (holeMerge (filled ++ hole :: (right :: tail) ++ blank) filled.length newCnt).2 =
        (filled ++ hole :: (right :: tail)).length ∧ HoleMerged hole right tail filled joined := by
  have behind : elementAt (filled ++ hole :: (right :: tail) ++ blank) (filled.length + 1) = right := by
    have place : filled.length + 1 = (filled ++ [hole]).length := by simp
    rw [place]
    simpa using elementAt_append (filled ++ [hole]) right (tail ++ blank)
  have inside : filled.length + 1 < newCnt := by
    rw [← size]
    simp
  have before (front : List RunlistElement) (left : RunlistElement) :
      elementAt (front ++ [left] ++ hole :: (right :: tail) ++ blank) ((front ++ [left]).length - 1) = left := by
    simpa using elementAt_append front left (hole :: right :: (tail ++ blank))
  by_cases leftHole : 0 < filled.length ∧
      (elementAt (filled ++ hole :: (right :: tail) ++ blank) (filled.length - 1)).lcn = lcnHole
  · obtain rfl | ⟨front, left, rfl⟩ := List.eq_nil_or_concat' filled
    · simp at leftHole
    · have leftLcn : left.lcn = lcnHole := by
        rw [← before front left]
        exact leftHole.2
      by_cases rightHole : right.lcn = lcnHole
      · have merge : holeMerge (front ++ [left] ++ hole :: (right :: tail) ++ blank)
            (front ++ [left]).length newCnt = (front.length, 2) := by
          rw [holeMerge, behind, if_pos leftHole]
          simp only [if_pos (And.intro inside rightHole)]
          simp
        have shape : front ++ [left] ++ hole :: (right :: tail) ++ blank =
            front ++ left :: ([hole, right] ++ (tail ++ blank)) := by simp
        rw [shape] at merge size ⊢
        obtain ⟨rest, merged⟩ := mergeHoles_absorbs (.inr rfl) merge size
        refine ⟨_, blank ++ rest, ?_, ?_, .both front leftLcn rightHole⟩
        · rw [merged]
          simp [rlClusters]
        · rw [merge]
          simp
          omega
      · have merge : holeMerge (front ++ [left] ++ hole :: (right :: tail) ++ blank)
            (front ++ [left]).length newCnt = (front.length, 1) := by
          rw [holeMerge, behind, if_pos leftHole]
          simp only [if_neg (fun both : _ ∧ _ => rightHole both.2)]
          simp
        have shape : front ++ [left] ++ hole :: (right :: tail) ++ blank =
            front ++ left :: ([hole] ++ (right :: tail ++ blank)) := by simp
        rw [shape] at merge size ⊢
        obtain ⟨rest, merged⟩ := mergeHoles_absorbs (.inl rfl) merge size
        refine ⟨_, blank ++ rest, ?_, ?_, .left front leftLcn rightHole⟩
        · rw [merged]
          simp [rlClusters]
        · rw [merge]
          simp
          omega
  · have leftSolid (front : List RunlistElement) (left : RunlistElement) (last : filled = front ++ [left]) :
        left.lcn ≠ lcnHole := by
      subst last
      rw [before front left] at leftHole
      exact fun holed => leftHole ⟨by simp, holed⟩
    by_cases rightHole : right.lcn = lcnHole
    · have merge : holeMerge (filled ++ hole :: (right :: tail) ++ blank) filled.length newCnt =
          (filled.length, 1) := by
        rw [holeMerge, behind, if_neg leftHole, if_pos ⟨inside, rightHole⟩]
      have shape : filled ++ hole :: (right :: tail) ++ blank =
          filled ++ hole :: ([right] ++ (tail ++ blank)) := by simp
      rw [shape] at merge size ⊢
      obtain ⟨rest, merged⟩ := mergeHoles_absorbs (.inl rfl) merge size
      refine ⟨_, blank ++ rest, ?_, ?_, .right leftSolid rightHole⟩
      · rw [merged]
        simp [rlClusters]
      · rw [merge]
        simp
        omega
    · have merge : holeMerge (filled ++ hole :: (right :: tail) ++ blank) filled.length newCnt = (0, 0) := by
        rw [holeMerge, behind, if_neg leftHole, if_neg (fun both => rightHole both.2)]
      refine ⟨_, blank, ?_, ?_, .alone leftSolid rightHole⟩
      · rw [mergeHoles, merge]
        rfl
      · rw [merge]
        rfl

theorem HoleMerged.joins {joined : List RunlistElement} (holed : hole.lcn = lcnHole)
    (merged : HoleMerged hole right tail filled joined) :
    Relation.ReflTransGen JoinsHoles (filled ++ hole :: (right :: tail)) joined := by
  cases merged with
  | @both front left leftHole rightHole =>
    have once : JoinsHoles (front ++ [left] ++ hole :: (right :: tail))
        (front ++ { left with length := left.length + hole.length } :: right :: tail) := by
      simpa using JoinsHoles.join front (right :: tail) leftHole holed
    have twice := @JoinsHoles.join front { left with length := left.length + hole.length } right
      tail leftHole rightHole
    simpa [Nat.add_assoc] using (Relation.ReflTransGen.single once).tail twice
  | @left front left leftHole _ =>
    simpa using Relation.ReflTransGen.single (JoinsHoles.join front (right :: tail) leftHole holed)
  | right _ rightHole => exact Relation.ReflTransGen.single (JoinsHoles.join filled tail holed rightHole)
  | alone _ _ => exact Relation.ReflTransGen.refl

end Merges

/-- A run from a vcn on. -/
def runFrom (element : RunlistElement) (startVcn : Nat) : RunlistElement :=
  ⟨startVcn, lcnBeyond element (startVcn - element.vcn), element.length - (startVcn - element.vcn)⟩

/-- A run up to a vcn. -/
def runUntil (element : RunlistElement) (stopVcn : Nat) : RunlistElement :=
  { element with length := stopVcn - element.vcn }

section Freed

variable {dstRl before mid behind : List RunlistElement} {sRl eRl : RunlistElement}
  {s e startVcn endVcn rightLength : Nat}

theorem cut_first (rest : List RunlistElement) :
    (if beginSplit sRl startVcn then
      (sRl :: rest).modify 0 fun element =>
        ⟨startVcn, lcnBeyond element (startVcn - sRl.vcn), element.length - (startVcn - sRl.vcn)⟩
      else sRl :: rest) = runFrom sRl startVcn :: rest := by
  by_cases splits : beginSplit sRl startVcn
  · rw [if_pos splits, List.modify_zero_cons, runFrom]
  · have place : sRl.vcn = startVcn := by simpa [beginSplit] using splits
    rw [if_neg splits, runFrom, ← place]
    simp [lcnBeyond]

theorem cut_last {cut : RunlistElement → Nat} {run : RunlistElement} (endHeld : Holds eRl endVcn)
    (right : endSplit eRl endVcn → cut run = endVcn + 1 - run.vcn)
    (whole : run.vcn + run.length = eRl.vcn + eRl.length) :
    (if endSplit eRl endVcn then
      (before ++ run :: behind).modify before.length fun element => { element with length := cut element }
      else before ++ run :: behind) = before ++ runUntil run (endVcn + 1) :: behind := by
  obtain ⟨lower, upper⟩ := endHeld
  by_cases splits : endSplit eRl endVcn
  · rw [if_pos splits, modify_append, right splits, runUntil]
  · have place : eRl.vcn + eRl.length - 1 = endVcn := by simpa [endSplit] using splits
    have length : run.length = endVcn + 1 - run.vcn := by omega
    rw [if_neg splits, runUntil, ← length]

/-- The runs of a range that lies in one run. -/
theorem punchedRl_one (dst : dstRl = before ++ sRl :: behind) (first : before.length = s)
    (startHeld : Holds sRl startVcn) (endHeld : Holds sRl endVcn) (order : startVcn ≤ endVcn)
    (right : endSplit sRl endVcn → rightLength = sRl.length - (endVcn + 1 - sRl.vcn)) :
    punchedRl dstRl s s startVcn endVcn rightLength =
      [runUntil (runFrom sRl startVcn) (endVcn + 1), ⟨endVcn + 1, lcnEnoent, 0⟩] := by
  obtain ⟨startLower, startUpper⟩ := startHeld
  have endBounds := endHeld
  obtain ⟨endLower, endUpper⟩ := endBounds
  have found : elementAt dstRl s = sRl := by
    rw [dst, ← first, elementAt_append]
  have covered : (dstRl.drop s).take 1 = [sRl] := by
    rw [dst, ← first, List.drop_left]
    rfl
  have copied : ntfsRlMc (List.replicate 2 emptyElement) 0 [sRl] = [sRl, emptyElement] := rfl
  have marked (f : RunlistElement → RunlistElement) :
      [sRl, emptyElement].modify 1 f = [sRl, f emptyElement] := rfl
  rw [punchedRl, found]
  simp only [Nat.sub_self, Nat.zero_add, Nat.reduceAdd, covered, copied, marked, cut_first, true_and]
  have last := @cut_last [] [⟨emptyElement.vcn, lcnEnoent, 0⟩] sRl endVcn
    (fun element => if beginSplit sRl startVcn then element.length - rightLength else endVcn + 1 - sRl.vcn)
    (runFrom sRl startVcn) endHeld
    (by
      intro splits
      rw [right splits, runFrom]
      split
      · dsimp only
        omega
      · have place : sRl.vcn = startVcn := by simpa [beginSplit, *] using ‹¬ beginSplit sRl startVcn = true›
        dsimp only
        omega)
    (by
      rw [runFrom]
      dsimp only
      omega)
  simp only [List.nil_append, List.length_nil] at last
  rw [last]
  have length : startVcn + (endVcn + 1 - startVcn) = endVcn + 1 := by omega
  simp [elementAt, runUntil, runFrom, length]

/-- The runs of a range that lies in more than one run. -/
theorem punchedRl_many (dst : dstRl = before ++ sRl :: (mid ++ eRl :: behind)) (first : before.length = s)
    (last : s + mid.length + 1 = e) (endHeld : Holds eRl endVcn) :
    punchedRl dstRl s e startVcn endVcn rightLength =
      runFrom sRl startVcn :: mid ++ [runUntil eRl (endVcn + 1), ⟨endVcn + 1, lcnEnoent, 0⟩] := by
  have endBounds := endHeld
  obtain ⟨endLower, endUpper⟩ := endBounds
  have firstFound : elementAt dstRl s = sRl := by
    rw [dst, ← first, elementAt_append]
  have lastFound : elementAt dstRl e = eRl := by
    have place : e = (before ++ sRl :: mid).length := by simp; omega
    have shape : dstRl = (before ++ sRl :: mid) ++ eRl :: behind := by simp [dst]
    rw [place, shape, elementAt_append]
  have count : e - s + 1 = (sRl :: mid ++ [eRl]).length := by simp; omega
  have before_last (run : RunlistElement) : e - s + 1 - 1 = (run :: mid).length := by simp; omega
  have covered : (dstRl.drop s).take (e - s + 1) = sRl :: mid ++ [eRl] := by
    have shape : dstRl = before ++ (sRl :: mid ++ [eRl] ++ behind) := by simp [dst]
    rw [count, shape, ← first, List.drop_left, List.take_left]
  have copied := ntfsRlMc_behind [] (List.replicate (e - s + 1 + 1) emptyElement) (sRl :: mid ++ [eRl])
  simp only [List.nil_append, List.length_nil] at copied
  have blank : (List.replicate (e - s + 1 + 1) emptyElement).drop (sRl :: mid ++ [eRl]).length = [emptyElement] := by
    rw [← count, List.drop_replicate]
    simp
  have marked (f : RunlistElement → RunlistElement) :
      (sRl :: mid ++ [eRl] ++ [emptyElement]).modify (e - s + 1) f =
        sRl :: (mid ++ [eRl, f emptyElement]) := by
    rw [count, modify_append]
    simp
  have different : ¬ e = s := by omega
  rw [punchedRl, firstFound, lastFound]
  simp only [covered, copied, blank, marked, cut_first, different, false_and, if_false]
  have cut := @cut_last (runFrom sRl startVcn :: mid) [⟨emptyElement.vcn, lcnEnoent, 0⟩] eRl endVcn
    (fun _ => endVcn + 1 - eRl.vcn) eRl endHeld (fun _ => rfl) rfl
  rw [← before_last] at cut
  rw [List.cons_append] at cut
  rw [cut]
  have found : elementAt (runFrom sRl startVcn :: mid ++ runUntil eRl (endVcn + 1) ::
      [⟨emptyElement.vcn, lcnEnoent, 0⟩]) (e - s + 1 - 1) = runUntil eRl (endVcn + 1) := by
    rw [before_last (runFrom sRl startVcn), elementAt_append]
  rw [found]
  have place : e - s + 1 = (runFrom sRl startVcn :: mid ++ [runUntil eRl (endVcn + 1)]).length := by
    simp
    omega
  have shape : runFrom sRl startVcn :: mid ++ runUntil eRl (endVcn + 1) ::
      [⟨emptyElement.vcn, lcnEnoent, 0⟩] = (runFrom sRl startVcn :: mid ++ [runUntil eRl (endVcn + 1)]) ++
      ⟨emptyElement.vcn, lcnEnoent, 0⟩ :: [] := by simp
  rw [place, shape, modify_append]
  have stop : eRl.vcn + (endVcn + 1 - eRl.vcn) = endVcn + 1 := by omega
  simp [runUntil, stop]

end Freed

/-- A vcn cuts a run in two. -/
def CutBy (element : RunlistElement) (vcn : Nat) : Prop :=
  element.vcn < vcn ∧ vcn < element.vcn + element.length

instance (element : RunlistElement) (vcn : Nat) : Decidable (CutBy element vcn) :=
  inferInstanceAs (Decidable (_ ∧ _))

/-- Runs in other pieces: they follow one another as before and map the same. -/
structure Recut (start : Nat) (runs pieces : List RunlistElement) (kept : Prop) : Prop where
  follow : RunsFrom start runs → RunsFrom start pieces
  clusters : rlClusters pieces = rlClusters runs
  maps : kept → ∀ vcn, runsMap pieces vcn = runsMap runs vcn

section Pieces

variable {start startVcn endVcn vcn : Nat} {runs pieces others : List RunlistElement} {kept keptToo : Prop}
  {element : RunlistElement}

theorem Recut.refl (start : Nat) (runs : List RunlistElement) (kept : Prop) : Recut start runs runs kept :=
  ⟨id, rfl, fun _ _ => rfl⟩

theorem Recut.trans (first : Recut start runs pieces kept) (second : Recut start pieces others keptToo) :
    Recut start runs others (kept ∧ keptToo) where
  follow valid := second.follow (first.follow valid)
  clusters := second.clusters.trans first.clusters
  maps both vcn := (second.maps both.2 vcn).trans (first.maps both.1 vcn)

theorem runFrom_lcn (mapped : lcnHole < element.lcn) :
    (runFrom element startVcn).lcn = element.lcn + (startVcn - element.vcn : Nat) := if_pos mapped

theorem runFrom_lcn_hole (unmapped : ¬ lcnHole < element.lcn) :
    (runFrom element startVcn).lcn = element.lcn := if_neg unmapped

/-- The part of a run from a vcn on maps as the run does, unless the run is a delayed one
and loses its beginning. -/
theorem lcnWithin_runFrom (lower : element.vcn ≤ startVcn) (behind : startVcn ≤ vcn)
    (kept : element.lcn = lcnDelalloc → element.vcn = startVcn) :
    lcnWithin (runFrom element startVcn) vcn = lcnWithin element vcn := by
  have hole : lcnHole = -2 := rfl
  have place : (runFrom element startVcn).vcn = startVcn := rfl
  rw [lcnDelalloc] at kept
  rw [lcnWithin, lcnWithin, place]
  by_cases mapped : lcnHole < element.lcn
  · rw [runFrom_lcn mapped]
    by_cases real : 0 ≤ element.lcn
    · rw [if_pos (by omega), if_pos real]
      omega
    · have delayed := kept (by omega)
      rw [if_neg (by omega), if_neg real]
      omega
  · rw [runFrom_lcn_hole mapped, if_neg (by omega), if_neg (by omega)]

theorem lcnWithin_runFrom_delayed (cut : element.vcn < startVcn) (delayed : element.lcn = lcnDelalloc) :
    0 ≤ lcnWithin (runFrom element startVcn) vcn := by
  have mapped : lcnHole < element.lcn := by rw [delayed]; decide
  rw [lcnDelalloc] at delayed
  rw [lcnWithin, runFrom_lcn mapped, if_pos (by omega)]
  omega

theorem lcnWithin_runUntil (element : RunlistElement) (stopVcn vcn : Nat) :
    lcnWithin (runUntil element stopVcn) vcn = lcnWithin element vcn := rfl

/-- A run is its part before a vcn and its part from the vcn on. -/
theorem recut_run (before behind : List RunlistElement) (cut : CutBy element startVcn) :
    Recut start (before ++ element :: behind)
      (before ++ runUntil element startVcn :: runFrom element startVcn :: behind)
      (element.lcn ≠ lcnDelalloc) where
  follow valid := by
    obtain ⟨lower, upper⟩ := cut
    rw [runsFrom_append] at valid ⊢
    obtain ⟨first, place, some_cluster, others⟩ := valid
    refine ⟨first, place, ?_, ?_, ?_, ?_⟩
    · simp only [runUntil]
      omega
    · simp only [runUntil, runFrom]
      omega
    · simp only [runFrom]
      omega
    · have stop : start + rlClusters before + (runUntil element startVcn).length +
          (runFrom element startVcn).length = start + rlClusters before + element.length := by
        simp only [runUntil, runFrom]
        omega
      rw [stop]
      exact others
  clusters := by
    obtain ⟨lower, upper⟩ := cut
    simp only [rlClusters_append, rlClusters_cons, runUntil, runFrom]
    omega
  maps ordinary vcn := by
    obtain ⟨lower, upper⟩ := cut
    rw [runsMap_append, runsMap_append]
    congr 1
    rw [runsMap_cons, runsMap_cons, runsMap_cons, lcnWithin_runUntil]
    by_cases first : Holds (runUntil element startVcn) vcn
    · have held : Holds element vcn := by
        simp only [Holds, runUntil] at first ⊢
        omega
      rw [if_pos first, if_pos held]
    · rw [if_neg first]
      by_cases second : Holds (runFrom element startVcn) vcn
      · have held : Holds element vcn := by
          simp only [Holds, runFrom] at second ⊢
          omega
        have behind : startVcn ≤ vcn := second.1
        rw [if_pos second, if_pos held,
          lcnWithin_runFrom (by omega) behind (fun delayed => absurd delayed ordinary)]
      · have unheld : ¬ Holds element vcn := by
          simp only [Holds, runFrom, runUntil] at first second ⊢
          omega
        rw [if_neg second, if_neg unheld]

/-- The run in which a range begins is what it keeps before the range and the rest. -/
theorem recut_front (before behind : List RunlistElement) (held : Holds element startVcn) :
    Recut start (before ++ element :: behind)
      (before ++ frontPart element startVcn ++ runFrom element startVcn :: behind)
      (element.lcn = lcnDelalloc → ¬ CutBy element startVcn) := by
  obtain ⟨lower, upper⟩ := held
  by_cases splits : beginSplit element startVcn
  · have other : element.vcn ≠ startVcn := by simpa [beginSplit] using splits
    have cut : CutBy element startVcn := ⟨by omega, upper⟩
    have pieces := @recut_run start startVcn element before behind cut
    rw [frontPart, if_pos splits, List.append_assoc, List.singleton_append]
    exact ⟨pieces.follow, pieces.clusters, fun kept => pieces.maps fun delayed => kept delayed cut⟩
  · have place : element.vcn = startVcn := by simpa [beginSplit] using splits
    have same : runFrom element startVcn = element := by simp [runFrom, lcnBeyond, ← place]
    rw [frontPart, if_neg splits, same, List.append_nil]
    exact Recut.refl _ _ _

/-- The run in which a range ends is its part in the range and what it keeps behind it. -/
theorem recut_back (before behind : List RunlistElement) (held : Holds element endVcn) :
    Recut start (before ++ element :: behind)
      (before ++ runUntil element (endVcn + 1) :: (backPart element endVcn ++ behind))
      (element.lcn = lcnDelalloc → ¬ CutBy element (endVcn + 1)) := by
  obtain ⟨lower, upper⟩ := held
  by_cases splits : endSplit element endVcn
  · have other : element.vcn + element.length - 1 ≠ endVcn := by simpa [endSplit] using splits
    have cut : CutBy element (endVcn + 1) := ⟨by omega, by omega⟩
    have pieces := @recut_run start (endVcn + 1) element before behind cut
    rw [backPart, if_pos splits, List.singleton_append]
    exact ⟨pieces.follow, pieces.clusters, fun kept => pieces.maps fun delayed => kept delayed cut⟩
  · have place : element.vcn + element.length - 1 = endVcn := by simpa [endSplit] using splits
    have length : endVcn + 1 - element.vcn = element.length := by omega
    have same : runUntil element (endVcn + 1) = element := by simp [runUntil, length]
    rw [backPart, if_neg splits, same, List.nil_append]
    exact Recut.refl _ _ _

end Pieces

end Ttntfs.Ntfs
