import Mathlib.Data.Finset.Card
import Mathlib.Data.Finset.Range
import Mathlib.Data.Nat.Find
import Mathlib.Logic.Function.Basic

/-!
# Linear probing

A table of `cap` slots holds keys; a key is searched from its home slot on, around
the end of the table, until it or an empty slot is met. In a table in which every
key is preceded on its path by other keys only, and which has an empty slot, the
search ends and finds exactly the keys that are there. Filling the empty slot at
which a search ended keeps this.
-/

namespace Ttntfs.Library.Probing

variable {Key : Type}

/-- How a search ends: at the key, at an empty slot, or not within its fuel. -/
inductive Probe where
  | found (slot : Nat)
  | empty (slot : Nat)
  | endless
  deriving DecidableEq

/-- Search a key from a slot on. -/
def probe [DecidableEq Key] (keyAt : Nat → Option Key) (cap : Nat) (key : Key) : Nat → Nat → Probe
  | 0, _ => .endless
  | fuel + 1, slot =>
    match keyAt slot with
    | none => .empty slot
    | some other =>
      if other = key then .found slot else probe keyAt cap key fuel ((slot + 1) % cap)

/-- The slot a search is at after `d` steps. -/
def pathSlot (cap home d : Nat) : Nat := (home + d) % cap

/-- Every key is preceded by other keys only on its path, and a slot is empty. -/
structure Probed (cap : Nat) (home : Key → Nat) (keyAt : Nat → Option Key) : Prop where
  home_lt : ∀ key, home key < cap
  reached : ∀ slot key, slot < cap → keyAt slot = some key →
    ∃ d, d < cap ∧ pathSlot cap (home key) d = slot ∧
      ∀ e, e < d → ∃ other, keyAt (pathSlot cap (home key) e) = some other ∧ other ≠ key
  room : ∃ slot, slot < cap ∧ keyAt slot = none

section Search

variable [DecidableEq Key] {cap : Nat} {keyAt : Nat → Option Key} {key : Key}

/-- A search passes slots that hold other keys. -/
theorem probe_pass (fuel : Nat) {start d : Nat}
    (others : ∀ e, e < d → ∃ other, keyAt (pathSlot cap start e) = some other ∧ other ≠ key) :
    probe keyAt cap key (d + fuel) (pathSlot cap start 0) =
      probe keyAt cap key fuel (pathSlot cap start d) := by
  induction d generalizing fuel with
  | zero => rw [Nat.zero_add]
  | succ d ih =>
    have earlier := ih (fuel + 1)
      (fun e below => others e (Nat.lt_succ_of_lt below))
    obtain ⟨other, held, different⟩ := others d (Nat.lt_succ_self d)
    rw [show d + 1 + fuel = d + (fuel + 1) by omega, earlier, probe, held]
    simp only [if_neg different]
    rw [show (pathSlot cap start d + 1) % cap = pathSlot cap start (d + 1) by
      simp [pathSlot, Nat.add_assoc]]

/-- A search from an empty slot ends there. -/
theorem probe_empty {fuel start : Nat} (empty : keyAt start = none) :
    probe keyAt cap key (fuel + 1) start = .empty start := by
  rw [probe, empty]

end Search

section Probed

variable {cap : Nat} {home : Key → Nat} {keyAt : Nat → Option Key}

/-- The table has slots. -/
theorem Probed.positive (probed : Probed cap home keyAt) : 0 < cap := by
  obtain ⟨slot, below, _⟩ := probed.room
  omega

/-- A search starts at the home slot. -/
theorem Probed.start (probed : Probed cap home keyAt) (key : Key) :
    pathSlot cap (home key) 0 = home key := by
  rw [pathSlot, Nat.add_zero, Nat.mod_eq_of_lt (probed.home_lt key)]

/-- A search finds a key that is there. -/
theorem Probed.finds [DecidableEq Key] (probed : Probed cap home keyAt) {slot : Nat} {key : Key}
    (below : slot < cap) (held : keyAt slot = some key) : probe keyAt cap key cap (home key) = .found slot := by
  obtain ⟨d, short, here, others⟩ := probed.reached slot key below held
  obtain ⟨fuel, enough⟩ : ∃ fuel, cap = d + (fuel + 1) := ⟨cap - d - 1, by omega⟩
  have passed := probe_pass (fuel + 1) others
  rw [probed.start key, ← enough, here] at passed
  rw [passed, probe, held]
  simp

/-- A key is in one slot only. -/
theorem Probed.unique [DecidableEq Key] (probed : Probed cap home keyAt) {slot slot' : Nat} {key : Key}
    (below : slot < cap) (held : keyAt slot = some key) (below' : slot' < cap)
    (held' : keyAt slot' = some key) : slot = slot' := by
  have first := probed.finds below held
  rw [probed.finds below' held'] at first
  cases first
  rfl

/-- A search for a key that is not there ends at an empty slot, behind other keys. -/
theorem Probed.misses [DecidableEq Key] (probed : Probed cap home keyAt) {key : Key}
    (absent : ∀ slot, slot < cap → keyAt slot ≠ some key) :
    ∃ d, d < cap ∧ keyAt (pathSlot cap (home key) d) = none ∧
      probe keyAt cap key cap (home key) = .empty (pathSlot cap (home key) d) ∧
      ∀ e, e < d → ∃ other, keyAt (pathSlot cap (home key) e) = some other ∧ other ≠ key := by
  have positive := probed.positive
  have ends : ∃ d, d < cap ∧ keyAt (pathSlot cap (home key) d) = none := by
    obtain ⟨slot, below, empty⟩ := probed.room
    have homeBelow := probed.home_lt key
    refine ⟨(slot + cap - home key) % cap, Nat.mod_lt _ positive, ?_⟩
    have arrives : pathSlot cap (home key) ((slot + cap - home key) % cap) = slot := by
      rw [pathSlot, Nat.add_mod_mod, show home key + (slot + cap - home key) = slot + cap by omega,
        Nat.add_mod_right, Nat.mod_eq_of_lt below]
    rw [arrives]
    exact empty
  obtain ⟨short, empty⟩ := Nat.find_spec ends
  have others : ∀ e, e < Nat.find ends →
      ∃ other, keyAt (pathSlot cap (home key) e) = some other ∧ other ≠ key := by
    intro e early
    have occupied := Nat.find_min ends early
    have below : pathSlot cap (home key) e < cap := Nat.mod_lt _ positive
    cases held : keyAt (pathSlot cap (home key) e) with
    | none => exact absurd ⟨by omega, held⟩ occupied
    | some other =>
      refine ⟨other, rfl, ?_⟩
      rintro rfl
      exact absent _ below held
  obtain ⟨fuel, enough⟩ : ∃ fuel, cap = Nat.find ends + (fuel + 1) :=
    ⟨cap - Nat.find ends - 1, by omega⟩
  have passed := probe_pass (fuel + 1) others
  rw [probed.start key, ← enough] at passed
  refine ⟨Nat.find ends, short, empty, ?_, others⟩
  rw [passed, probe, empty]

/-- Filling the empty slot at the end of a search keeps the keys reachable. -/
theorem Probed.fill (probed : Probed cap home keyAt) {key : Key} {d : Nat}
    (empty : keyAt (pathSlot cap (home key) d) = none) (short : d < cap)
    (others : ∀ e, e < d → ∃ other, keyAt (pathSlot cap (home key) e) = some other ∧ other ≠ key)
    (room : ∃ slot, slot < cap ∧ slot ≠ pathSlot cap (home key) d ∧ keyAt slot = none) :
    Probed cap home (Function.update keyAt (pathSlot cap (home key) d) (some key)) := by
  refine { home_lt := probed.home_lt, reached := ?_, room := ?_ }
  · intro slot held below holds
    by_cases same : slot = pathSlot cap (home key) d
    · subst same
      obtain rfl : key = held := by simpa using holds
      refine ⟨d, short, rfl, fun e early => ?_⟩
      obtain ⟨other, occupied, different⟩ := others e early
      refine ⟨other, ?_, different⟩
      rw [Function.update_of_ne, occupied]
      intro clash
      rw [clash, empty] at occupied
      cases occupied
    · rw [Function.update_of_ne same] at holds
      obtain ⟨d', short', here, others'⟩ := probed.reached slot held below holds
      refine ⟨d', short', here, fun e early => ?_⟩
      obtain ⟨other, occupied, different⟩ := others' e early
      refine ⟨other, ?_, different⟩
      rw [Function.update_of_ne, occupied]
      intro clash
      rw [clash, empty] at occupied
      cases occupied
  · obtain ⟨slot, below, different, free⟩ := room
    exact ⟨slot, below, by rw [Function.update_of_ne different, free]⟩

end Probed

/-! ## Counting the keys -/

section Occupied

variable {cap : Nat} {keyAt : Nat → Option Key}

/-- The slots that hold a key. -/
def occupied (cap : Nat) (keyAt : Nat → Option Key) : Finset Nat :=
  (Finset.range cap).filter fun slot => (keyAt slot).isSome

/-- The occupied slots are slots of the table that hold a key. -/
theorem mem_occupied {slot : Nat} :
    slot ∈ occupied cap keyAt ↔ slot < cap ∧ (keyAt slot).isSome = true := by
  simp [occupied]

/-- With two slots to spare, one is free besides any given one. -/
theorem exists_free (few : (occupied cap keyAt).card + 1 < cap) (taken : Nat) :
    ∃ slot, slot < cap ∧ slot ≠ taken ∧ keyAt slot = none := by
  have short : (insert taken (occupied cap keyAt)).card < (Finset.range cap).card := by
    have grown := Finset.card_insert_le taken (occupied cap keyAt)
    rw [Finset.card_range]
    omega
  obtain ⟨slot, inTable, outside⟩ := Finset.exists_mem_notMem_of_card_lt_card short
  have below : slot < cap := Finset.mem_range.mp inTable
  rw [Finset.mem_insert, not_or, mem_occupied] at outside
  refine ⟨slot, below, outside.1, ?_⟩
  cases held : keyAt slot with
  | none => rfl
  | some key => exact absurd ⟨below, by rw [held]; rfl⟩ outside.2

/-- Filling a free slot adds one to the occupied slots. -/
theorem card_occupied_update {slot : Nat} (key : Key) (below : slot < cap)
    (empty : keyAt slot = none) :
    (occupied cap (Function.update keyAt slot (some key))).card = (occupied cap keyAt).card + 1 := by
  have grown : occupied cap (Function.update keyAt slot (some key)) =
      insert slot (occupied cap keyAt) := by
    ext other
    rw [Finset.mem_insert, mem_occupied, mem_occupied]
    by_cases same : other = slot
    · subst same
      simp [below]
    · rw [Function.update_of_ne same]
      simp [same]
  have fresh : slot ∉ occupied cap keyAt := by
    rw [mem_occupied, empty]
    simp
  rw [grown, Finset.card_insert_of_notMem fresh]

end Occupied

end Ttntfs.Library.Probing
