import Mathlib.Data.List.Basic
import Mathlib.Data.Nat.Find

/-!
# Draining marked runs in capped batches

A set of marked positions is drained by a scan over some listing of positions.
Whenever the scan meets a marked position it steps back to the start of the run
of consecutive marks around it and clears a batch there, at most `cap` long.

The first batch of a run is always cleared, but a run longer than one batch needs
the scan to meet it again, behind what was cleared. The scan drains everything
exactly when the listing contains, for every run, a staircase: positions in order
of the listing, the k-th of them at least k batches into the run.
-/

namespace Ttntfs.Library.CappedDrain

/-- Step back from a position over the marks before it. -/
def walkBack (marked : Nat → Bool) : Nat → Nat
  | 0 => 0
  | l + 1 => if marked l then walkBack marked l else l + 1

/-- The number of consecutive marks from a position on, within a budget. -/
def countRun (marked : Nat → Bool) : Nat → Nat → Nat
  | 0, _ => 0
  | budget + 1, l => if marked l then countRun marked budget (l + 1) + 1 else 0

theorem walkBack_succ (marked : Nat → Bool) (l : Nat) :
    walkBack marked (l + 1) = if marked l then walkBack marked l else l + 1 := rfl

theorem countRun_zero (marked : Nat → Bool) (l : Nat) : countRun marked 0 l = 0 := rfl

theorem countRun_succ (marked : Nat → Bool) (budget l : Nat) :
    countRun marked (budget + 1) l = if marked l then countRun marked budget (l + 1) + 1 else 0 := rfl

/-- Remove the marks of `n` positions from `start` on. -/
def clearRange (marked : Nat → Bool) (start n : Nat) : Nat → Bool :=
  fun l => marked l && !(decide (start ≤ l) && decide (l < start + n))

/-- What the scan does when it meets a position. -/
def drainStep (cap : Nat) (marked : Nat → Bool) (l : Nat) : Nat → Bool :=
  if marked l then
    clearRange marked (walkBack marked l) (countRun marked cap (walkBack marked l))
  else marked

/-- The marks that are left after a scan. -/
def drain (cap : Nat) (order : List Nat) (marked : Nat → Bool) : Nat → Bool :=
  order.foldl (drainStep cap) marked

/-- A maximal run of `m` marks from `a` on. -/
structure MaxRun (marked : Nat → Bool) (a m : Nat) : Prop where
  positive : 0 < m
  inside : ∀ l, a ≤ l → l < a + m → marked l = true
  after : marked (a + m) = false
  before : ∀ l, a = l + 1 → marked l = false

section Runs

variable {marked : Nat → Bool}

/-- Stepping back passes only marks. -/
theorem walkBack_marked (marked : Nat → Bool) (l : Nat) : ∀ i, walkBack marked l ≤ i → i < l → marked i = true := by
  induction l with
  | zero =>
    intro i _ below
    omega
  | succ l ih =>
    intro i lower below
    rw [walkBack_succ] at lower
    split at lower
    next before =>
      by_cases same : i = l
      · rw [same]
        exact before
      · exact ih i lower (by omega)
    next => omega

/-- Stepping back never moves forward. -/
theorem walkBack_le (marked : Nat → Bool) (l : Nat) : walkBack marked l ≤ l := by
  induction l with
  | zero => exact Nat.le_refl _
  | succ l ih =>
    rw [walkBack_succ]
    split
    · omega
    · exact Nat.le_refl _

/-- Stepping back stops where no mark precedes. -/
theorem walkBack_before (l i : Nat) (stopped : walkBack marked l = i + 1) : marked i = false := by
  induction l with
  | zero => cases stopped
  | succ l ih =>
    rw [walkBack_succ] at stopped
    split at stopped
    next => exact ih stopped
    next unmarked =>
      obtain rfl : l = i := by omega
      simpa using unmarked

/-- From inside a stretch of marks the walk goes back to its start. -/
theorem walkBack_eq {start l : Nat} (below : start ≤ l)
    (stretch : ∀ i, start ≤ i → i < l → marked i = true)
    (before : ∀ i, start = i + 1 → marked i = false) : walkBack marked l = start := by
  have back := walkBack_le marked l
  rcases Nat.lt_trichotomy (walkBack marked l) start with early | same | late
  · -- The walk would have passed the unmarked position before the stretch.
    obtain ⟨i, rfl⟩ : ∃ i, start = i + 1 := ⟨start - 1, by omega⟩
    have passed := walkBack_marked marked l i (by omega) (by omega)
    rw [before i rfl] at passed
    cases passed
  · exact same
  · obtain ⟨i, stopped⟩ : ∃ i, walkBack marked l = i + 1 := ⟨walkBack marked l - 1, by omega⟩
    have unmarked := walkBack_before l i stopped
    rw [stretch i (by omega) (by omega)] at unmarked
    cases unmarked

/-- A batch consists of marks. -/
theorem countRun_marked (budget l : Nat) {i : Nat} (lower : l ≤ i)
    (upper : i < l + countRun marked budget l) : marked i = true := by
  induction budget generalizing l with
  | zero =>
    rw [countRun_zero] at upper
    omega
  | succ budget ih =>
    rw [countRun_succ] at upper
    split at upper
    next here =>
      by_cases same : l = i
      · rw [← same]
        exact here
      · exact ih (l + 1) (by omega) (by omega)
    next => omega

/-- From a stretch of `n` marks with none behind it a batch takes all it may. -/
theorem countRun_eq (budget l n : Nat) (stretch : ∀ i, l ≤ i → i < l + n → marked i = true)
    (after : marked (l + n) = false) : countRun marked budget l = min budget n := by
  induction budget generalizing l n with
  | zero => rw [countRun_zero, Nat.zero_min]
  | succ budget ih =>
    rw [countRun_succ]
    cases n with
    | zero => simp [show marked l = false from after]
    | succ n =>
      have here : marked l = true := stretch l (Nat.le_refl _) (by omega)
      have recursive := ih (l + 1) n
        (fun i lower upper => stretch i (by omega) (by omega))
        (by rwa [show l + 1 + n = l + (n + 1) by omega])
      rw [if_pos here, recursive]
      omega

end Runs

/-! ## One run during the scan -/

/-- The marks in and around a run of which the first `k` positions are cleared. -/
structure Cleared (marked : Nat → Bool) (a m k : Nat) : Prop where
  inside : ∀ l, a ≤ l → l < a + m → (marked l = true ↔ a + k ≤ l)
  after : marked (a + m) = false
  before : ∀ l, a = l + 1 → marked l = false

/-- A maximal run has nothing cleared. -/
theorem MaxRun.cleared {marked : Nat → Bool} {a m : Nat} (run : MaxRun marked a m) :
    Cleared marked a m 0 := by
  refine { inside := ?_, after := run.after, before := run.before }
  intro l lower upper
  exact iff_of_true (run.inside l lower upper) (by omega)

/-- The marks that remain when a range is cleared. -/
theorem clearRange_iff {marked : Nat → Bool} {start n l : Nat} :
    clearRange marked start n l = true ↔ marked l = true ∧ (l < start ∨ start + n ≤ l) := by
  simp only [clearRange, Bool.and_eq_true, Bool.not_eq_true', Bool.and_eq_false_iff,
    decide_eq_false_iff_not, Nat.not_le, Nat.not_lt]

/-- Clearing a range makes no marks. -/
theorem clearRange_unmarked {marked : Nat → Bool} {start n l : Nat} (unmarked : marked l = false) :
    clearRange marked start n l = false := by
  simp [clearRange, unmarked]

section Step

variable {marked : Nat → Bool} {a m k cap : Nat}

/-- Clearing marks elsewhere leaves a run as it is. -/
theorem Cleared.elsewhere (state : Cleared marked a m k) {start n : Nat}
    (apart : start + n ≤ a ∨ a + m ≤ start) : Cleared (clearRange marked start n) a m k := by
  refine { inside := ?_, after := clearRange_unmarked state.after,
           before := fun l same => clearRange_unmarked (state.before l same) }
  intro l lower upper
  have outside : l < start ∨ start + n ≤ l := by omega
  rw [clearRange_iff, state.inside l lower upper, and_iff_left outside]

/-- Clearing a batch at the start of what is left of a run. -/
theorem Cleared.batch (state : Cleared marked a m k) (left : k < m) :
    Cleared (clearRange marked (a + k) (min cap (m - k))) a m (k + cap) := by
  refine { inside := ?_, after := clearRange_unmarked state.after,
           before := fun l same => clearRange_unmarked (state.before l same) }
  intro l lower upper
  rw [clearRange_iff, state.inside l lower upper]
  omega

/-- A scan step at a remaining mark of a run clears the next batch of the run; a
step anywhere else leaves the run as it is. -/
theorem Cleared.step (state : Cleared marked a m k) (l : Nat) :
    Cleared (drainStep cap marked l) a m (if a + k ≤ l ∧ l < a + m then k + cap else k) := by
  unfold drainStep
  by_cases remaining : a + k ≤ l ∧ l < a + m
  · have here : marked l = true := (state.inside l (by omega) remaining.2).mpr remaining.1
    have stretch : ∀ i, a + k ≤ i → i < a + m → marked i = true :=
      fun i lower upper => (state.inside i (by omega) upper).mpr lower
    have before : ∀ i, a + k = i + 1 → marked i = false := by
      intro i same
      by_cases fresh : k = 0
      · exact state.before i (by omega)
      · have cleared := state.inside i (by omega) (by omega)
        rw [Bool.eq_false_iff]
        intro still
        have high := cleared.mp still
        omega
    have start : walkBack marked l = a + k :=
      walkBack_eq remaining.1 (fun i lower upper => stretch i lower (by omega)) before
    have count : countRun marked cap (a + k) = min cap (m - k) := by
      refine countRun_eq cap (a + k) (m - k) (fun i lower upper => stretch i lower (by omega)) ?_
      rw [show a + k + (m - k) = a + m by omega]
      exact state.after
    rw [if_pos here, if_pos remaining, start, count]
    exact state.batch (by omega)
  · rw [if_neg remaining]
    by_cases here : marked l = true
    · -- A mark of another run: its batch is a stretch of marks that cannot pass the
      -- unmarked positions around this run.
      rw [if_pos here]
      have back := walkBack_le marked l
      refine state.elsewhere ?_
      by_cases behind : a + m ≤ l
      · refine Or.inr ?_
        by_contra crossing
        have passed := walkBack_marked marked l (a + m) (by omega) (by
          rcases Nat.lt_or_ge (a + m) l with less | atEnd
          · exact less
          · obtain rfl : l = a + m := by omega
            rw [state.after] at here
            cases here)
        rw [state.after] at passed
        cases passed
      · refine Or.inl ?_
        have early : l < a := by
          by_contra inRun
          have high := (state.inside l (by omega) (by omega)).mp here
          omega
        obtain ⟨i, same⟩ : ∃ i, a = i + 1 := ⟨a - 1, by omega⟩
        by_contra crossing
        have passed : marked i = true :=
          countRun_marked cap (walkBack marked l) (by omega) (by omega)
        rw [state.before i same] at passed
        cases passed
    · rw [if_neg here]
      exact state

end Step

/-- The number of batches the scan takes from a run, after `j` of them. -/
def batches (cap a m : Nat) : List Nat → Nat → Nat
  | [], j => j
  | l :: order, j =>
    if a + cap * j ≤ l ∧ l < a + m then batches cap a m order (j + 1) else batches cap a m order j

/-- A scan clears as many batches of a run as are counted for it. -/
theorem Cleared.scan {marked : Nat → Bool} {cap a m j : Nat} (order : List Nat)
    (state : Cleared marked a m (cap * j)) :
    Cleared (drain cap order marked) a m (cap * batches cap a m order j) := by
  induction order generalizing marked j with
  | nil => exact state
  | cons l order ih =>
    have stepped : Cleared (drainStep cap marked l) a m _ := state.step l
    change Cleared (drain cap order (drainStep cap marked l)) a m _
    rw [batches]
    split
    next met =>
      rw [if_pos met] at stepped
      exact ih (by rwa [Nat.mul_succ])
    next missed =>
      rw [if_neg missed] at stepped
      exact ih stepped

/-! ## Counting batches -/

section Batches

variable {cap a m : Nat}

end Batches

/-! ## When the scan drains everything -/

end Ttntfs.Library.CappedDrain
