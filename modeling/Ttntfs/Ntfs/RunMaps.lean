import Ttntfs.Ntfs.Runlist

/-!
# Runs as maps

The runs of a list map each vcn they hold, whatever stands before or behind them. So the
map of a list is put together from the maps of its parts, and a part can be replaced by
another with the same map: a run by its two halves, two holes that meet by one.
-/

namespace Ttntfs.Ntfs

/-- The vcns of a run. -/
def Holds (element : RunlistElement) (vcn : Nat) : Prop :=
  element.vcn ≤ vcn ∧ vcn < element.vcn + element.length

instance (element : RunlistElement) (vcn : Nat) : Decidable (Holds element vcn) :=
  inferInstanceAs (Decidable (_ ∧ _))

/-- What a run maps one of its vcns to. -/
def lcnWithin (element : RunlistElement) (vcn : Nat) : Int :=
  if 0 ≤ element.lcn then element.lcn + (vcn - element.vcn : Nat) else element.lcn

/-- What some runs map a vcn to. -/
def runsMap (runs : List RunlistElement) (vcn : Nat) : Option Int :=
  (runs.find? fun run => Holds run vcn).map fun run => lcnWithin run vcn

section Maps

variable {start vcn : Nat} {element terminator : RunlistElement} {runs others rl : List RunlistElement}

@[simp] theorem runsMap_nil (vcn : Nat) : runsMap [] vcn = none := rfl

theorem runsMap_cons (element : RunlistElement) (runs : List RunlistElement) (vcn : Nat) :
    runsMap (element :: runs) vcn = if Holds element vcn then some (lcnWithin element vcn) else runsMap runs vcn := by
  by_cases held : Holds element vcn
  · simp [runsMap, held]
  · simp [runsMap, held]

/-- The map of runs in two parts: the first part comes first. -/
theorem runsMap_append (runs others : List RunlistElement) (vcn : Nat) :
    runsMap (runs ++ others) vcn = (runsMap runs vcn).or (runsMap others vcn) := by
  induction runs with
  | nil => simp
  | cons run runs ih =>
    rw [List.cons_append, runsMap_cons, runsMap_cons, ih]
    split
    · simp
    · rfl

@[simp] theorem rlClusters_nil : rlClusters [] = 0 := rfl

@[simp] theorem rlClusters_append (runs others : List RunlistElement) :
    rlClusters (runs ++ others) = rlClusters runs + rlClusters others := by
  simp [rlClusters]

/-- Runs in two parts: the second begins where the first ends. -/
theorem runsFrom_append : RunsFrom start (runs ++ others) ↔
    RunsFrom start runs ∧ RunsFrom (start + rlClusters runs) others := by
  induction runs generalizing start with
  | nil => simp [RunsFrom]
  | cons run runs ih =>
    simp only [List.cons_append, RunsFrom, ih, rlClusters_cons, Nat.add_assoc, and_assoc]

theorem RunsFrom.outside (follow : RunsFrom start runs)
    (outside : vcn < start ∨ start + rlClusters runs ≤ vcn) : runsMap runs vcn = none := by
  induction runs generalizing start with
  | nil => rfl
  | cons run runs ih =>
    obtain ⟨place, some_cluster, behind⟩ := follow
    rw [rlClusters_cons] at outside
    have unheld : ¬ Holds run vcn := by
      rintro ⟨lower, upper⟩
      omega
    rw [runsMap_cons, if_neg unheld]
    exact ih behind (by omega)

theorem RunsFrom.inside (follow : RunsFrom start runs) (lower : start ≤ vcn)
    (upper : vcn < start + rlClusters runs) : ∃ lcn, runsMap runs vcn = some lcn := by
  induction runs generalizing start with
  | nil => simp at upper; omega
  | cons run runs ih =>
    obtain ⟨place, some_cluster, behind⟩ := follow
    rw [rlClusters_cons] at upper
    rw [runsMap_cons]
    by_cases held : Holds run vcn
    · exact ⟨_, if_pos held⟩
    · rw [if_neg held]
      have above : ¬ vcn < start + run.length := fun below => held ⟨by omega, by omega⟩
      exact ih behind (by omega) (by omega)

theorem RunsFrom.first_le (follow : RunsFrom start runs) (listed : element ∈ runs) : start ≤ element.vcn := by
  induction runs generalizing start with
  | nil => cases listed
  | cons run runs ih =>
    obtain ⟨place, some_cluster, behind⟩ := follow
    rcases List.mem_cons.mp listed with rfl | later
    · omega
    · have below := ih behind later
      omega

theorem RunsFrom.map_held (follow : RunsFrom start runs) (listed : element ∈ runs) (held : Holds element vcn) :
    runsMap runs vcn = some (lcnWithin element vcn) := by
  induction runs generalizing start with
  | nil => cases listed
  | cons run runs ih =>
    obtain ⟨place, some_cluster, behind⟩ := follow
    rw [runsMap_cons]
    rcases List.mem_cons.mp listed with rfl | later
    · rw [if_pos held]
    · have below := behind.first_le later
      have unheld : ¬ Holds run vcn := by
        rintro ⟨_, upper⟩
        have lower := held.1
        omega
      rw [if_neg unheld]
      exact ih behind later

theorem RunsFrom.held_once {other : RunlistElement} (follow : RunsFrom start runs) (listed : element ∈ runs)
    (otherListed : other ∈ runs) (held : Holds element vcn) (otherHeld : Holds other vcn) : element = other := by
  induction runs generalizing start with
  | nil => cases listed
  | cons run runs ih =>
    obtain ⟨place, some_cluster, behind⟩ := follow
    obtain ⟨lower, upper⟩ := held
    obtain ⟨otherLower, otherUpper⟩ := otherHeld
    rcases List.mem_cons.mp listed with rfl | later
    · rcases List.mem_cons.mp otherListed with rfl | otherLater
      · rfl
      · have below := behind.first_le otherLater
        omega
    · rcases List.mem_cons.mp otherListed with rfl | otherLater
      · have below := behind.first_le later
        omega
      · exact ih behind later otherLater

/-- A run list is its runs and a terminator. -/
theorem rlFrom_append_singleton : RlFrom start (runs ++ [terminator]) ↔
    RunsFrom start runs ∧ terminator.vcn = start + rlClusters runs ∧ terminator.length = 0 ∧
      terminator.lcn < 0 := by
  induction runs generalizing start with
  | nil =>
    constructor
    · intro valid
      cases valid with
      | terminator first ends negative => exact ⟨trivial, first, ends, negative⟩
      | run _ _ others => cases others
    · rintro ⟨_, first, ends, negative⟩
      exact .terminator first ends negative
  | cons run runs ih =>
    rw [rlClusters_cons, ← Nat.add_assoc]
    constructor
    · intro valid
      generalize listed : run :: runs ++ [terminator] = rl at valid
      cases valid with
      | terminator _ _ _ => simp at listed
      | run first some_cluster others =>
        rw [List.cons_append, List.cons.injEq] at listed
        obtain ⟨rfl, rfl⟩ := listed
        obtain ⟨follow, place⟩ := ih.mp others
        exact ⟨⟨first, some_cluster, follow⟩, place⟩
    · rintro ⟨⟨first, some_cluster, follow⟩, place⟩
      exact .run first some_cluster (ih.mpr ⟨follow, place⟩)

theorem RlFrom.parts (valid : RlFrom start rl) : ∃ runs terminator, rl = runs ++ [terminator] := by
  have some_element : rl ≠ [] := by
    rintro rfl
    cases valid
  exact ⟨rl.dropLast, rl.getLast some_element, (List.dropLast_append_getLast some_element).symm⟩

theorem RunsFrom.append_list (follow : RunsFrom start runs) (rest : RlFrom (start + rlClusters runs) rl) :
    RlFrom start (runs ++ rl) := by
  induction runs generalizing start with
  | nil => simpa using rest
  | cons run runs ih =>
    obtain ⟨first, some_cluster, behind⟩ := follow
    rw [rlClusters_cons, ← Nat.add_assoc] at rest
    exact .run first some_cluster (ih behind rest)

/-- What runs before a run list map. -/
theorem lookup_append (follow : RunsFrom start runs) (rest : RlFrom (start + rlClusters runs) rl)
    (lower : start ≤ vcn) : ntfsRlVcnToLcn (runs ++ rl) vcn = (runsMap runs vcn).getD (ntfsRlVcnToLcn rl vcn) := by
  induction runs generalizing start with
  | nil => rfl
  | cons run runs ih =>
    have valid := follow.append_list rest
    obtain ⟨first, some_cluster, behind⟩ := follow
    rw [rlClusters_cons, ← Nat.add_assoc] at rest
    rw [List.cons_append] at valid ⊢
    rw [valid.lookup some_cluster lower, runsMap_cons]
    by_cases here : vcn < start + run.length
    · have held : Holds run vcn := ⟨by omega, by omega⟩
      rw [if_pos here, if_pos held, Option.getD_some, lcnWithin, first]
    · have unheld : ¬ Holds run vcn := by
        rintro ⟨_, upper⟩
        omega
      rw [if_neg here, if_neg unheld]
      exact ih behind rest (by omega)

/-- The lookup of the source is the map of the runs, and an error behind them. -/
theorem lookup_runs (follow : RunsFrom start runs) (place : terminator.vcn = start + rlClusters runs)
    (ends : terminator.length = 0) (last : terminator.lcn = lcnEnoent) (vcn : Nat) :
    ntfsRlVcnToLcn (runs ++ [terminator]) vcn = (runsMap runs vcn).getD lcnEnoent := by
  have negative : terminator.lcn < 0 := by rw [last]; decide
  have rest : RlFrom (start + rlClusters runs) [terminator] := .terminator place ends negative
  by_cases lower : start ≤ vcn
  · rw [lookup_append follow rest lower, ntfsRlVcnToLcn]
    split
    · rfl
    · rw [rlScan, if_pos negative, last]
  · obtain ⟨first, tail, listed, firstVcn⟩ := (follow.append_list rest).head
    rw [follow.outside (.inl (by omega)), listed, ntfsRlVcnToLcn, if_pos (by omega)]
    rfl

/-- Two runs that follow one another map the same when they become one, where the first goes on as
the second. -/
theorem runs_merged (before behind : List RunlistElement) {left right : RunlistElement}
    (goesOn : right.vcn = left.vcn + left.length → ∀ vcn, Holds right vcn →
      lcnWithin { left with length := left.length + right.length } vcn = lcnWithin right vcn) :
    rlClusters (before ++ { left with length := left.length + right.length } :: behind) =
        rlClusters (before ++ left :: right :: behind) ∧
      (RunsFrom start (before ++ left :: right :: behind) →
        RunsFrom start (before ++ { left with length := left.length + right.length } :: behind) ∧
        ∀ vcn, runsMap (before ++ { left with length := left.length + right.length } :: behind) vcn =
          runsMap (before ++ left :: right :: behind) vcn) := by
  constructor
  · simp only [rlClusters_append, rlClusters_cons]
    omega
  intro follow
  rw [runsFrom_append] at follow
  obtain ⟨first, leftPlace, leftSome, rightPlace, rightSome, others⟩ := follow
  constructor
  · rw [runsFrom_append]
    refine ⟨first, leftPlace, by dsimp only; omega, ?_⟩
    rw [← Nat.add_assoc]
    exact others
  · intro vcn
    rw [runsMap_append, runsMap_append, runsMap_cons, runsMap_cons, runsMap_cons]
    congr 1
    have either : Holds { left with length := left.length + right.length } vcn ↔
        Holds left vcn ∨ Holds right vcn := by
      simp only [Holds]
      omega
    by_cases inLeft : Holds left vcn
    · rw [if_pos (either.mpr (.inl inLeft)), if_pos inLeft]
      rfl
    · by_cases inRight : Holds right vcn
      · rw [if_pos (either.mpr (.inr inRight)), if_neg inLeft, if_pos inRight,
          goesOn (by omega) vcn inRight]
      · rw [if_neg fun held => (either.mp held).elim inLeft inRight, if_neg inLeft, if_neg inRight]

end Maps

end Ttntfs.Ntfs
