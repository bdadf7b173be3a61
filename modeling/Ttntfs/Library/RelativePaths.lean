import Mathlib.Tactic

/-!
# Resolving relative paths

A place is told from the root of a volume: how far it is above the root, and the names below. A
path is resolved component by component. Every step up, below the root or above it, takes the
level down by one, so that a path ends at the same place only from starts of the same level.
-/

namespace Ttntfs.Library.RelativePaths

variable {α : Type}

/-- A component of a path. -/
inductive Component (α : Type) where
  | here
  | up
  | name (a : α)

/-- A place, in the volume and above it or, by an absolute path, on the host. -/
structure Place (α : Type) where
  host : Bool
  above : Nat
  names : List α
  deriving DecidableEq

/-- A place in the volume. -/
def Place.below (names : List α) : Place α := ⟨false, 0, names⟩

/-- A component is passed. Above the root of the host there is nothing. -/
def Place.step (p : Place α) : Component α → Place α
  | .here => p
  | .up =>
    if p.names = [] then if p.host then p else { p with above := p.above + 1 }
    else { p with names := p.names.dropLast }
  | .name a => { p with names := p.names ++ [a] }

/-- A path is walked. -/
def Place.walk (p : Place α) (path : List (Component α)) : Place α := path.foldl Place.step p

/-- How far a place is below the root. -/
def Place.level (p : Place α) : Int := p.names.length - p.above

/-- What a component adds to the level. -/
def Component.rise : Component α → Int
  | .here => 0
  | .up => -1
  | .name _ => 1

@[simp] theorem host_step (p : Place α) (c : Component α) : (p.step c).host = p.host := by
  cases c with
  | here => rfl
  | up =>
    rw [Place.step]
    split
    · split <;> rfl
    · rfl
  | name a => rfl

/-- A step off the host changes the level by what its component adds. -/
theorem level_step {p : Place α} (c : Component α) (inside : p.host = false) : (p.step c).level = p.level + c.rise := by
  cases c with
  | here => exact (Int.add_zero _).symm
  | up =>
    simp only [Place.step, inside, Bool.false_eq_true, if_false, Component.rise]
    split
    · simp only [Place.level]
      push_cast
      omega
    · rename_i named
      have positive := List.length_pos_of_ne_nil named
      simp only [Place.level, List.length_dropLast]
      omega
  | name a =>
    simp only [Place.step, Place.level, Component.rise, List.length_append, List.length_singleton]
    push_cast
    omega

@[simp] theorem host_walk (p : Place α) (path : List (Component α)) : (p.walk path).host = p.host := by
  induction path generalizing p with
  | nil => rfl
  | cons c path ih => exact (ih (p.step c)).trans (host_step p c)

/-- A path changes the level by what its components add. -/
theorem level_walk {p : Place α} (path : List (Component α)) (inside : p.host = false) :
    (p.walk path).level = p.level + (path.map Component.rise).sum := by
  induction path generalizing p with
  | nil => exact (Int.add_zero _).symm
  | cons c path ih =>
    have rest := ih ((host_step p c).trans inside)
    rw [List.map_cons, List.sum_cons, ← Int.add_assoc, ← level_step c inside]
    exact rest

/-- A path that ends at the same place has begun at the same level. -/
theorem level_eq_of_walk {p q : Place α} {path : List (Component α)} (inside : p.host = false)
    (same : p.walk path = q.walk path) : p.level = q.level := by
  have other : q.host = false := by rw [← host_walk q path, ← same, host_walk, inside]
  have levels := congrArg Place.level same
  rw [level_walk path inside, level_walk path other] at levels
  omega

/-- As many steps up as there are names lead to the root. -/
theorem walk_up (names : List α) :
    (Place.below names).walk (List.replicate names.length .up) = Place.below [] := by
  induction names using List.reverseRecOn with
  | nil => rfl
  | append_singleton names a ih =>
    have step : (Place.below (names ++ [a])).step .up = Place.below names := by
      rw [Place.step, if_neg (by simp [Place.below]), Place.below, List.dropLast_concat]
      rfl
    rw [List.length_append, List.length_singleton, List.replicate_succ, Place.walk, List.foldl_cons, step]
    exact ih

/-- Steps up and a path behind them lead where the path leads from the root exactly where there are as
many of them as names. -/
theorem walk_up_iff (names : List α) (n : Nat) (path : List (Component α)) :
    ((Place.below names).walk (List.replicate n .up ++ path) = (Place.below []).walk path) ↔ n = names.length := by
  have split : (Place.below names).walk (List.replicate n .up ++ path) =
      ((Place.below names).walk (List.replicate n .up)).walk path := List.foldl_append
  rw [split]
  constructor
  · intro same
    have inside : ((Place.below names).walk (List.replicate n .up)).host = false := host_walk ..
    have level := level_eq_of_walk inside same
    rw [level_walk _ rfl, List.map_replicate, List.sum_replicate] at level
    simp only [Place.level, Place.below, Component.rise, List.length_nil, nsmul_eq_mul] at level
    omega
  · rintro rfl
    rw [walk_up]

end Ttntfs.Library.RelativePaths
