import Mathlib.Data.Finset.Card
import Mathlib.Data.Finset.Range
import Mathlib.Data.Nat.Find
import Mathlib.Data.Nat.ModEq
import Mathlib.Logic.Function.Iterate

/-!
# Walks along a successor map

A walk follows a successor map from a start until it meets a place where it stops. A
walk whose other places lie below a bound stops within that many steps or never; a
trap that holds its start keeps it from stopping, and a measure that every step lowers
makes it stop. So does a ring that is too long for the walk to go round it.
-/

namespace Ttntfs.Library.SuccessorWalks

variable {α : Type} {next : α → α} {stops : α → Prop} {start : α}

/-- The walk from a start stops. -/
def Ends (next : α → α) (stops : α → Prop) (start : α) : Prop := ∃ k, stops (next^[k] start)

/-- A walk that starts at a stop has ended. -/
theorem Ends.here (stopped : stops start) : Ends next stops start := ⟨0, stopped⟩

/-- A walk that does not stop at its start ends with the walk behind the start. -/
theorem ends_next_iff (running : ¬ stops start) :
    Ends next stops (next start) ↔ Ends next stops start := by
  constructor
  · rintro ⟨k, stopped⟩
    exact ⟨k + 1, stopped⟩
  · rintro ⟨k, stopped⟩
    cases k with
    | zero => exact absurd stopped running
    | succ k => exact ⟨k, stopped⟩

/-- A walk inside a trap never ends. -/
theorem not_ends_of_trap (trap : α → Prop) (inside : trap start)
    (closed : ∀ a, trap a → trap (next a)) (running : ∀ a, trap a → ¬ stops a) :
    ¬ Ends next stops start := by
  have stays : ∀ k, trap (next^[k] start) := by
    intro k
    induction k with
    | zero => exact inside
    | succ k ih =>
      rw [Function.iterate_succ_apply']
      exact closed _ ih
  rintro ⟨k, stopped⟩
  exact running _ (stays k) stopped

/-- A walk that lowers a measure with every step that it makes ends. -/
theorem ends_of_measure (measure : α → Nat)
    (lowers : ∀ k, ¬ stops (next^[k] start) → measure (next^[k + 1] start) < measure (next^[k] start)) :
    Ends next stops start := by
  induction bound : measure start using Nat.strong_induction_on generalizing start with
  | _ n ih =>
    by_cases stopped : stops start
    · exact .here stopped
    · have lower : measure (next start) < measure start := lowers 0 stopped
      exact (ends_next_iff stopped).mp
        (ih _ (bound ▸ lower) (fun k => lowers (k + 1)) rfl)

/-- Two equal places of a walk make the walk behind them equal. -/
theorem iterate_shift {i j k : Nat} (same : next^[i] start = next^[j] start) (below : j ≤ k) :
    next^[k - j + i] start = next^[k] start := by
  rw [Function.iterate_add_apply, same, ← Function.iterate_add_apply, Nat.sub_add_cancel below]

/-- A walk over places below a bound that ends does so within as many steps. -/
theorem Ends.within {next : Nat → Nat} {stops : Nat → Prop} {start bound : Nat}
    (bounded : ∀ i, ¬ stops i → i < bound) (ends : Ends next stops start) :
    ∃ k, k ≤ bound ∧ stops (next^[k] start) := by
  classical
  let k := Nat.find ends
  have stopped : stops (next^[k] start) := Nat.find_spec ends
  have running {i : Nat} (before : i < k) : ¬ stops (next^[i] start) := Nat.find_min ends before
  have different : Set.InjOn (fun i => next^[i] start) (Finset.range k) := by
    -- An earlier place that comes again brings the stop forward.
    have apart {i j : Nat} (upper : j < k) (order : i < j) :
        next^[i] start ≠ next^[j] start := fun same =>
      running (by omega : k - j + i < k) (iterate_shift same upper.le ▸ stopped)
    intro i first j second same
    rw [Finset.mem_coe, Finset.mem_range] at first second
    rcases Nat.lt_trichotomy i j with lower | equal | upper
    · exact absurd same (apart second lower)
    · exact equal
    · exact absurd same.symm (apart first upper)
  have places : ∀ i ∈ Finset.range k, next^[i] start ∈ Finset.range bound := fun i member =>
    Finset.mem_range.mpr (bounded _ (running (Finset.mem_range.mp member)))
  have count := Finset.card_le_card_of_injOn _ places different
  rw [Finset.card_range, Finset.card_range] at count
  exact ⟨k, count, stopped⟩

/-- A walk over places below a bound goes on for ever exactly where it comes back to a place. -/
theorem not_ends_iff_returns {next : Nat → Nat} {stops : Nat → Prop} {start : Nat} (bound : Nat)
    (bounded : ∀ i, ¬ stops i → i < bound) :
    ¬ Ends next stops start ↔ ∃ i j, i < j ∧ (∀ k ≤ j, ¬ stops (next^[k] start)) ∧
      next^[i] start = next^[j] start := by
  constructor
  · intro endless
    have running (k : Nat) : ¬ stops (next^[k] start) := fun stopped => endless ⟨k, stopped⟩
    have crowded : (Finset.range bound).card < (Finset.range (bound + 1)).card := by
      rw [Finset.card_range, Finset.card_range]
      exact Nat.lt_succ_self _
    obtain ⟨i, -, j, -, different, same⟩ := Finset.exists_ne_map_eq_of_card_lt_of_maps_to crowded
      (f := fun k => next^[k] start) (fun k _ => Finset.mem_range.mpr (bounded _ (running k)))
    rcases Nat.lt_or_gt_of_ne different with order | order
    · exact ⟨i, j, order, fun k _ => running k, same⟩
    · exact ⟨j, i, order, fun k _ => running k, same.symm⟩
  · rintro ⟨i, j, order, running, same⟩
    refine not_ends_of_trap (fun a => ∃ k ≤ j, next^[k] start = a) ⟨0, j.zero_le, rfl⟩ ?_ ?_
    · rintro _ ⟨k, before, rfl⟩
      rcases Nat.lt_or_eq_of_le before with inside | rfl
      · exact ⟨k + 1, inside, Function.iterate_succ_apply' ..⟩
      · exact ⟨i + 1, order, by rw [Function.iterate_succ_apply', same]⟩
    · rintro _ ⟨k, before, rfl⟩
      exact running k before

/-- A walk that goes up in a ring ends where its places tell its points apart and are too few
for one round: the ring is longer than as many of its longest steps as there are places. -/
theorem ends_of_ring {next : Nat → Nat} {stops : Nat → Prop} {ring longest places : Nat}
    (place : Nat → Nat) (bounded : ∀ a, ¬ stops a → place a < places)
    (apart : ∀ a b, ¬ stops a → ¬ stops b → place a = place b → a = b)
    (rises : ∀ a, ¬ stops a → ¬ stops (next a) →
      ∃ d, 0 < d ∧ d ≤ longest ∧ next a = (a + d) % ring)
    (large : places * longest < ring) (start : Nat) : Ends next stops start := by
  by_contra endless
  have running (k : Nat) : ¬ stops (next^[k] start) := fun stopped => endless ⟨k, stopped⟩
  have climb (i k : Nat) : ∃ d, k ≤ d ∧ d ≤ k * longest ∧
      next^[i + k] start % ring = (next^[i] start + d) % ring := by
    induction k with
    | zero => exact ⟨0, Nat.le_refl 0, Nat.zero_le _, rfl⟩
    | succ k ih =>
      obtain ⟨d, least, most, same⟩ := ih
      have further := running (i + k + 1)
      rw [Function.iterate_succ_apply'] at further
      obtain ⟨e, positive, short, step⟩ := rises _ (running (i + k)) further
      refine ⟨d + e, by omega, ?_, ?_⟩
      · rw [Nat.succ_mul]
        omega
      · rw [← Nat.add_assoc, Function.iterate_succ_apply', step, Nat.mod_mod, Nat.add_mod, same,
          ← Nat.add_mod, Nat.add_assoc]
  have crowded : (Finset.range places).card < (Finset.range (places + 1)).card := by
    rw [Finset.card_range, Finset.card_range]
    exact Nat.lt_succ_self _
  obtain ⟨i, first, j, second, different, same⟩ :=
    Finset.exists_ne_map_eq_of_card_lt_of_maps_to crowded
      (f := fun k => place (next^[k] start))
      (fun k _ => Finset.mem_range.mpr (bounded _ (running k)))
  rw [Finset.mem_range] at first second
  -- Between two visits of one point the walk would have gone round the ring.
  have round {i j : Nat} (order : i < j) (upper : j < places + 1)
      (again : next^[i] start = next^[j] start) : False := by
    obtain ⟨d, least, most, turned⟩ := climb i (j - i)
    rw [Nat.add_sub_cancel' order.le, ← again] at turned
    have short : d < ring := by
      have steps : (j - i) * longest ≤ places * longest := Nat.mul_le_mul_right _ (by omega)
      omega
    have whole : d % ring = 0 := by
      have cancelled : (next^[i] start + 0) ≡ (next^[i] start + d) [MOD ring] := turned
      exact (Nat.ModEq.add_left_cancel' _ cancelled).symm
    rw [Nat.mod_eq_of_lt short] at whole
    omega
  have again := apart _ _ (running i) (running j) same
  rcases Nat.lt_or_gt_of_ne different with order | order
  · exact round order second again
  · exact round order first again.symm

end Ttntfs.Library.SuccessorWalks
