import Mathlib.Data.List.Basic
import Mathlib.Data.List.Nodup

/-!
# Walking a list that others change

A walk over a shared list parks a cursor in the list while it works on a node, and others
may link and unlink nodes meanwhile. Where the walk still has to go is said by an order
between the cursor and the other nodes: one stands before the other. The order outlasts
whatever happens to third nodes, and a node that stands on the far side of the cursor is
met when the walk goes on.
-/

namespace Ttntfs.Library.CursorWalk

variable {α : Type} [DecidableEq α]

/-- The node `a` stands somewhere before the node `b`. -/
def Precedes (l : List α) (a b : α) : Prop := [a, b].Sublist l

/-- The nodes behind a cursor. -/
def followers (c : α) (l : List α) : List α := (l.dropWhile fun n => n ≠ c).tail

/-- The nodes in front of a cursor, the nearest first. -/
def leaders (c : α) (l : List α) : List α := (l.takeWhile fun n => n ≠ c).reverse

/-- Park a cursor directly behind a node. -/
def placeAfter (c a : α) (l : List α) : List α := l.flatMap fun n => if n = a then [n, c] else [n]

/-- Park a cursor directly in front of a node. -/
def placeBefore (c a : α) (l : List α) : List α := l.flatMap fun n => if n = a then [c, n] else [n]

section Order

omit [DecidableEq α] in
/-- A list with more nodes keeps the order. -/
theorem Precedes.mono {l l' : List α} {a b : α} (order : Precedes l a b) (more : l.Sublist l') :
    Precedes l' a b :=
  order.trans more

/-- Unlinking a third node keeps the order. -/
theorem Precedes.erase {l : List α} {a b x : α} (order : Precedes l a b) (left : a ≠ x)
    (right : b ≠ x) : Precedes (l.erase x) a b := by
  have kept := List.Sublist.erase x order
  rwa [List.erase_cons_tail (by simpa using left), List.erase_cons_tail (by simpa using right),
    List.erase_nil] at kept

omit [DecidableEq α] in
omit [DecidableEq α] in
omit [DecidableEq α] in
/-- Reversing the list reverses the order. -/
theorem precedes_reverse {l : List α} {a b : α} : Precedes l.reverse a b ↔ Precedes l b a := by
  constructor
  · intro order
    have turned := List.Sublist.reverse order
    rwa [List.reverse_reverse] at turned
  · intro order
    exact List.Sublist.reverse order

/-- What stands behind the cursor is met by a walk forward. -/
theorem Precedes.mem_followers {l : List α} {c b : α} (order : Precedes l c b) :
    b ∈ followers c l := by
  induction l with
  | nil => cases order
  | cons n l ih =>
    by_cases here : n = c
    · subst here
      have rest : [b].Sublist l := by
        cases order with
        | cons _ later => exact List.Sublist.trans (List.sublist_cons_self _ _) later
        | cons_cons _ later => exact later
      simpa [followers] using rest.subset (List.mem_singleton_self b)
    · have later : Precedes l c b := by
        cases order with
        | cons _ later => exact later
        | cons_cons _ _ => exact absurd rfl here
      simpa [followers, here] using ih later

/-- The nodes behind a cursor are part of the list without it. -/
theorem followers_sublist (c : α) (l : List α) : (followers c l).Sublist (l.erase c) := by
  induction l with
  | nil => exact List.Sublist.refl _
  | cons n l ih =>
    by_cases here : n = c
    · simp [followers, here]
    · rw [List.erase_cons_tail (by simpa using here)]
      have skipped : followers c (n :: l) = followers c l := by simp [followers, here]
      rw [skipped]
      exact ih.cons n

/-- What stands in front of the cursor is met by a walk backward. -/
theorem Precedes.mem_leaders {l : List α} {c b : α} (order : Precedes l b c) (nodup : l.Nodup) :
    b ∈ leaders c l := by
  induction l with
  | nil => cases order
  | cons n l ih =>
    rw [List.nodup_cons] at nodup
    have different : n ≠ c := by
      rintro rfl
      cases order with
      | cons _ later => exact nodup.1 (later.subset (by simp))
      | cons_cons _ later => exact nodup.1 (later.subset (by simp))
    cases order with
    | cons _ later =>
      have met := ih later nodup.2
      rw [leaders, List.mem_reverse] at met ⊢
      rw [List.takeWhile_cons, if_pos (by simpa using different)]
      exact List.mem_cons_of_mem n met
    | cons_cons _ _ => simp [leaders, different]

/-- The nodes in front of a cursor are part of the list without it, the other way round. -/
theorem leaders_sublist (c : α) (l : List α) : (leaders c l).Sublist (l.erase c).reverse := by
  refine List.Sublist.reverse ?_
  induction l with
  | nil => exact List.Sublist.refl _
  | cons n l ih =>
    by_cases here : n = c
    · simp [here]
    · rw [List.erase_cons_tail (by simpa using here), List.takeWhile_cons, if_pos (by simpa using here)]
      exact ih.cons_cons n

/-- Parking a cursor leaves the list as it is. -/
theorem sublist_placeAfter (c a : α) (l : List α) : l.Sublist (placeAfter c a l) := by
  induction l with
  | nil => exact List.Sublist.refl _
  | cons n l ih =>
    rw [placeAfter, List.flatMap_cons]
    split
    · exact (ih.cons c).cons_cons n
    · exact ih.cons_cons n

/-- Parking a cursor leaves the list as it is. -/
theorem sublist_placeBefore (c a : α) (l : List α) : l.Sublist (placeBefore c a l) := by
  induction l with
  | nil => exact List.Sublist.refl _
  | cons n l ih =>
    rw [placeBefore, List.flatMap_cons]
    split
    · exact (ih.cons_cons n).cons c
    · exact ih.cons_cons n

/-- What stands behind a node stands behind the cursor parked there. -/
theorem Precedes.placeAfter {l : List α} {a b c : α} (order : Precedes l a b) :
    Precedes (placeAfter c a l) c b := by
  induction l with
  | nil => cases order
  | cons n l ih =>
    rw [CursorWalk.placeAfter, List.flatMap_cons]
    cases order with
    | cons _ later => exact (ih later).trans (List.sublist_append_right _ _)
    | cons_cons _ later =>
      rw [if_pos rfl]
      exact ((later.trans (sublist_placeAfter c a l)).cons_cons c).cons a

/-- What stands in front of a node stands in front of the cursor parked there. -/
theorem Precedes.placeBefore {l : List α} {a b c : α} (order : Precedes l b a) :
    Precedes (placeBefore c a l) b c := by
  induction l with
  | nil => cases order
  | cons n l ih =>
    rw [CursorWalk.placeBefore, List.flatMap_cons]
    cases order with
    | cons _ later => exact (ih later).trans (List.sublist_append_right _ _)
    | cons_cons _ later =>
      have member : a ∈ l := later.subset (List.mem_singleton_self a)
      have parked : c ∈ CursorWalk.placeBefore c a l := by
        rw [CursorWalk.placeBefore, List.mem_flatMap]
        exact ⟨a, member, by simp⟩
      have tail := List.singleton_sublist.mpr parked
      split
      · exact ((tail.cons_cons b)).cons c
      · exact tail.cons_cons b

/-- The nodes of a list with a cursor parked in it. -/
theorem mem_placeAfter {c a n : α} {l : List α} : n ∈ placeAfter c a l ↔ n ∈ l ∨ n = c ∧ a ∈ l := by
  rw [placeAfter, List.mem_flatMap]
  constructor
  · rintro ⟨n', member, here⟩
    split at here
    · rename_i same
      rcases List.mem_cons.mp here with rfl | parked
      · exact Or.inl member
      · exact Or.inr ⟨List.mem_singleton.mp parked, same ▸ member⟩
    · exact Or.inl (List.mem_singleton.mp here ▸ member)
  · rintro (member | ⟨rfl, member⟩)
    · refine ⟨n, member, ?_⟩
      split
      · exact List.mem_cons_self
      · exact List.mem_cons_self
    · exact ⟨a, member, by simp⟩

/-- The nodes of a list with a cursor parked in it. -/
theorem mem_placeBefore {c a n : α} {l : List α} :
    n ∈ placeBefore c a l ↔ n ∈ l ∨ n = c ∧ a ∈ l := by
  rw [placeBefore, List.mem_flatMap]
  constructor
  · rintro ⟨n', member, here⟩
    split at here
    · rename_i same
      rcases List.mem_cons.mp here with parked | rest
      · exact Or.inr ⟨parked, same ▸ member⟩
      · exact Or.inl (List.mem_singleton.mp rest ▸ member)
    · exact Or.inl (List.mem_singleton.mp here ▸ member)
  · rintro (member | ⟨rfl, member⟩)
    · refine ⟨n, member, ?_⟩
      split
      · exact List.mem_cons_of_mem _ List.mem_cons_self
      · exact List.mem_cons_self
    · exact ⟨a, member, by simp⟩

/-- No node is twice in the list with the cursor. -/
theorem nodup_placeAfter {c a : α} {l : List α} (nodup : l.Nodup) (absent : c ∉ l) :
    (placeAfter c a l).Nodup := by
  induction l with
  | nil => exact List.nodup_nil
  | cons n l ih =>
    rw [List.nodup_cons] at nodup
    rw [List.mem_cons, not_or] at absent
    have rest := ih nodup.2 absent.2
    rw [placeAfter, List.flatMap_cons]
    split
    · rename_i same
      subst same
      -- The node is parked at once, so the rest of the list has no cursor.
      have plain : l.flatMap (fun m => if m = n then [m, c] else [m]) = l := by
        have each : ∀ m ∈ l, (if m = n then [m, c] else [m]) = [m] := by
          intro m member
          have other : m ≠ n := fun equal => nodup.1 (equal ▸ member)
          rw [if_neg other]
        rw [List.flatMap_congr each, List.flatMap_singleton']
      rw [plain]
      simp [nodup.1, nodup.2, absent.2, Ne.symm absent.1]
    · have fresh : n ∉ placeAfter c a l := by
        rw [mem_placeAfter]
        rintro (member | ⟨same, -⟩)
        · exact nodup.1 member
        · exact absent.1 same.symm
      exact List.nodup_cons.mpr ⟨fresh, rest⟩

/-- No node is twice in the list with the cursor. -/
theorem nodup_placeBefore {c a : α} {l : List α} (nodup : l.Nodup) (absent : c ∉ l) :
    (placeBefore c a l).Nodup := by
  induction l with
  | nil => exact List.nodup_nil
  | cons n l ih =>
    rw [List.nodup_cons] at nodup
    rw [List.mem_cons, not_or] at absent
    have rest := ih nodup.2 absent.2
    rw [placeBefore, List.flatMap_cons]
    split
    · rename_i same
      subst same
      have plain : l.flatMap (fun m => if m = n then [c, m] else [m]) = l := by
        have each : ∀ m ∈ l, (if m = n then [c, m] else [m]) = [m] := by
          intro m member
          have other : m ≠ n := fun equal => nodup.1 (equal ▸ member)
          rw [if_neg other]
        rw [List.flatMap_congr each, List.flatMap_singleton']
      rw [plain]
      simp [nodup.1, nodup.2, absent.2, absent.1]
    · have fresh : n ∉ placeBefore c a l := by
        rw [mem_placeBefore]
        rintro (member | ⟨same, -⟩)
        · exact nodup.1 member
        · exact absent.1 same.symm
      exact List.nodup_cons.mpr ⟨fresh, rest⟩

omit [DecidableEq α] in
/-- A walk that stops at the first node it looks for has the others it looks for behind
that node. -/
theorem precedes_of_findSome? {β : Type} {select : α → Option β} {l : List α} {a b : α} {x y : β}
    (first : l.findSome? select = some x)
    (only : ∀ n, select n = some x → n = a) (member : b ∈ l) (other : select b = some y)
    (different : a ≠ b) : Precedes l a b := by
  induction l with
  | nil => cases member
  | cons n l ih =>
    rw [List.findSome?_cons] at first
    cases selected : select n with
    | none =>
      rw [selected] at first
      rcases List.mem_cons.mp member with rfl | later
      · rw [other] at selected
        cases selected
      · exact (ih first later).cons n
    | some z =>
      rw [selected] at first
      have same : n = a := only n (selected.trans first)
      rcases List.mem_cons.mp member with rfl | later
      · exact absurd same.symm different
      · rw [same]
        exact (List.singleton_sublist.mpr later).cons_cons a

end Order

end Ttntfs.Library.CursorWalk
