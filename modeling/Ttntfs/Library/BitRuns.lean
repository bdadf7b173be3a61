import Mathlib.Data.Nat.Count
import Mathlib.Tactic.SplitIfs

/-!
# Runs of bits and how many bits are clear

A bitmap is a function from positions to Booleans. A run of bits is set or cleared as a
whole, and what that does to the number of clear bits below a bound depends only on how
many bits of the run change. Where every bit of the run changes, a counter that is
adjusted by the length of the run keeps its distance from the number of clear bits.
-/

namespace Ttntfs.Library.BitRuns

/-- Give every bit of a run one value. -/
def setRun (bits : Nat → Bool) (start n : Nat) (value : Bool) : Nat → Bool :=
  fun i => if start ≤ i ∧ i < start + n then value else bits i

/-- The number of clear bits among the `n` bits from `start` on. -/
def clearCount (bits : Nat → Bool) (start n : Nat) : Nat :=
  Nat.count (fun i => bits (start + i) = false) n

/-- How the number of clear bits changes when a run of `n` bits takes a value it did not have. -/
def clearGain (value : Bool) (n : Nat) : Int := if value then -(n : Int) else n

section Runs

variable {bits other : Nat → Bool} {start n m base i : Nat} {value : Bool}

theorem setRun_inside (lower : start ≤ i) (upper : i < start + n) :
    setRun bits start n value i = value := by
  simp [setRun, lower, upper]

theorem setRun_outside (outside : i < start ∨ start + n ≤ i) :
    setRun bits start n value i = bits i := by
  rw [setRun, if_neg (by omega)]

/-- An empty run changes nothing. -/
@[simp] theorem setRun_zero : setRun bits start 0 value = bits := by
  funext i
  exact setRun_outside (by omega)

/-- Two runs that follow one another are one run. -/
theorem setRun_append : setRun (setRun bits start n value) (start + n) m value =
    setRun bits start (n + m) value := by
  funext i
  simp only [setRun]
  split_ifs <;> first | rfl | omega

/-- Giving a run back the value its bits had restores the bitmap. -/
theorem setRun_setRun (had : ∀ i, start ≤ i → i < start + n → bits i = value) :
    setRun (setRun bits start n (!value)) start n value = bits := by
  funext i
  by_cases inside : start ≤ i ∧ i < start + n
  · rw [setRun_inside inside.1 inside.2, had i inside.1 inside.2]
  · rw [setRun_outside (by omega), setRun_outside (by omega)]

end Runs

section Counts

variable {bits other : Nat → Bool} {start n m base size : Nat} {value : Bool}

theorem clearCount_congr (same : ∀ i, start ≤ i → i < start + n → bits i = other i) :
    clearCount bits start n = clearCount other start n := by
  unfold clearCount
  rw [Nat.count_eq_card_filter_range, Nat.count_eq_card_filter_range]
  congr 1
  apply Finset.filter_congr
  intro i inside
  rw [same (start + i) (by omega) (by have := Finset.mem_range.mp inside; omega)]

/-- The clear bits of two neighbouring ranges add up. -/
theorem clearCount_append :
    clearCount bits start (n + m) = clearCount bits start n + clearCount bits (start + n) m := by
  unfold clearCount
  rw [Nat.count_add]
  simp only [Nat.add_assoc]

/-- A range of set bits has no clear bit. -/
theorem clearCount_of_set (set : ∀ i, start ≤ i → i < start + n → bits i = true) :
    clearCount bits start n = 0 := by
  unfold clearCount
  rw [Nat.count_eq_card_filter_range, Finset.card_eq_zero, Finset.filter_eq_empty_iff]
  intro i inside
  rw [set (start + i) (by omega) (by have := Finset.mem_range.mp inside; omega)]
  decide

/-- In a range of clear bits all bits are clear. -/
theorem clearCount_of_clear (clear : ∀ i, start ≤ i → i < start + n → bits i = false) :
    clearCount bits start n = n := by
  unfold clearCount
  rw [Nat.count_eq_card_filter_range, Finset.filter_true_of_mem, Finset.card_range]
  intro i inside
  exact clear (start + i) (by omega) (by have := Finset.mem_range.mp inside; omega)

/-- A run outside a range does not count there. -/
theorem clearCount_setRun_outside (outside : start + n ≤ base ∨ base + size ≤ start) :
    clearCount (setRun bits start n value) base size = clearCount bits base size :=
  clearCount_congr fun i lower upper => setRun_outside (by omega)

/-- A run whose bits all change shifts the count of the range around it by its length. -/
theorem clearCount_setRun (lower : base ≤ start) (upper : start + n ≤ base + size)
    (had : ∀ i, start ≤ i → i < start + n → bits i = !value) :
    (clearCount (setRun bits start n value) base size : Int) =
      clearCount bits base size + clearGain value n := by
  obtain ⟨before, rfl⟩ := Nat.exists_eq_add_of_le lower
  obtain ⟨after, bound⟩ := Nat.exists_eq_add_of_le upper
  obtain rfl : size = before + n + after := by omega
  have left : clearCount (setRun bits (base + before) n value) base before = clearCount bits base before :=
    clearCount_setRun_outside (by omega)
  have right : clearCount (setRun bits (base + before) n value) (base + (before + n)) after =
      clearCount bits (base + (before + n)) after := clearCount_setRun_outside (by omega)
  rw [clearCount_append, clearCount_append, clearCount_append, clearCount_append, left, right]
  cases value with
  | true =>
    have now : clearCount (setRun bits (base + before) n true) (base + before) n = 0 :=
      clearCount_of_set fun i inside below => setRun_inside inside below
    have then_ : clearCount bits (base + before) n = n := clearCount_of_clear had
    rw [now, then_]
    simp only [clearGain, if_true]
    omega
  | false =>
    have now : clearCount (setRun bits (base + before) n false) (base + before) n = n :=
      clearCount_of_clear fun i inside below => setRun_inside inside below
    have then_ : clearCount bits (base + before) n = 0 := clearCount_of_set had
    rw [now, then_]
    simp only [clearGain, Bool.false_eq_true, if_false]
    omega

end Counts

end Ttntfs.Library.BitRuns
