import Mathlib.Tactic

/-!
# Run lists

A run list as the driver keeps it: elements with the first vcn, the first lcn and the
number of clusters of a run, in the order of their vcns, up to a terminator of length
zero. A negative lcn stands for a hole or for a part that is not mapped.
-/

namespace Ttntfs.Ntfs

/-- `LCN_HOLE` -/
def lcnHole : Int := -2
/-- `LCN_RL_NOT_MAPPED` -/
def lcnRlNotMapped : Int := -3
/-- `LCN_ENOENT` -/
def lcnEnoent : Int := -4

/-- `struct runlist_element` -/
structure RunlistElement where
  vcn : Nat
  lcn : Int
  length : Nat
  deriving DecidableEq

/-- The loop of `ntfs_rl_vcn_to_lcn`. -/
def rlScan (vcn : Nat) : List RunlistElement → Int
  | [] => lcnEnoent
  | [last] => if last.lcn < 0 then last.lcn else lcnEnoent
  | element :: next :: rest =>
    if element.length = 0 then (if element.lcn < 0 then element.lcn else lcnEnoent)
    else if vcn < next.vcn then
      if element.lcn ≥ 0 then element.lcn + (vcn - element.vcn) else element.lcn
    else rlScan vcn (next :: rest)

/-- `ntfs_rl_vcn_to_lcn` -/
def ntfsRlVcnToLcn (rl : List RunlistElement) (vcn : Nat) : Int :=
  match rl with
  | [] => lcnRlNotMapped
  | first :: _ => if vcn < first.vcn then lcnEnoent else rlScan vcn rl

/-- Seek to the element that contains a vcn. -/
def rlSeek (vcn : Nat) : List RunlistElement → List RunlistElement
  | element :: next :: rest =>
    if element.length ≠ 0 ∧ next.vcn ≤ vcn then rlSeek vcn (next :: rest) else element :: next :: rest
  | rl => rl

/-- The number of clusters of the runs of a list. -/
def rlClusters (rl : List RunlistElement) : Nat := (rl.map (·.length)).sum

theorem rlClusters_cons (element : RunlistElement) (rest : List RunlistElement) :
    rlClusters (element :: rest) = element.length + rlClusters rest := by
  simp [rlClusters]

/-- A run list whose runs follow one another from a vcn on. -/
inductive RlFrom : Nat → List RunlistElement → Prop where
  | terminator {element : RunlistElement} {start : Nat} (first : element.vcn = start)
      (ends : element.length = 0) (negative : element.lcn < 0) : RlFrom start [element]
  | run {element : RunlistElement} {rest : List RunlistElement} {start : Nat}
      (first : element.vcn = start) (some_cluster : 0 < element.length)
      (others : RlFrom (start + element.length) rest) : RlFrom start (element :: rest)

/-- Runs that follow one another from a vcn on. -/
def RunsFrom : Nat → List RunlistElement → Prop
  | _, [] => True
  | vcn, run :: rest => run.vcn = vcn ∧ 0 < run.length ∧ RunsFrom (vcn + run.length) rest

section Lookup

variable {start vcn : Nat} {element : RunlistElement} {rl rest : List RunlistElement}

theorem RlFrom.head (valid : RlFrom start rl) : ∃ element rest, rl = element :: rest ∧
    element.vcn = start := by
  cases valid with
  | terminator first _ _ => exact ⟨_, _, rfl, first⟩
  | run first _ _ => exact ⟨_, _, rfl, first⟩

/-- What a run of a run list maps. -/
theorem RlFrom.lookup (valid : RlFrom start (element :: rest)) (some_cluster : 0 < element.length)
    (lower : start ≤ vcn) : ntfsRlVcnToLcn (element :: rest) vcn =
      if vcn < start + element.length then
        if element.lcn ≥ 0 then element.lcn + (vcn - start : Nat) else element.lcn
      else ntfsRlVcnToLcn rest vcn := by
  cases valid with
  | terminator _ ends _ => omega
  | run first _ others =>
    obtain ⟨next, tail, rfl, nextStart⟩ := others.head
    have inside : ¬ vcn < element.vcn := by omega
    rw [ntfsRlVcnToLcn, if_neg inside, rlScan, if_neg (Nat.pos_iff_ne_zero.mp some_cluster), nextStart]
    by_cases here : vcn < start + element.length
    · rw [if_pos here, if_pos here, first]
      have distance : ((vcn : Int) - (start : Int)) = ((vcn - start : Nat) : Int) := by omega
      rw [distance]
    · rw [if_neg here, if_neg here, ntfsRlVcnToLcn, if_neg (by omega)]

theorem RlFrom.lookup_terminator (valid : RlFrom start (element :: rest)) (ends : element.length = 0)
    (vcn : Nat) : ntfsRlVcnToLcn (element :: rest) vcn < 0 := by
  cases valid with
  | terminator first _ negative =>
    rw [ntfsRlVcnToLcn]
    split
    · decide
    · rw [rlScan, if_pos negative]
      exact negative
  | run _ some_cluster _ => omega

theorem RlFrom.mapped_inside (valid : RlFrom start rl) (lower : start ≤ vcn)
    (mapped : 0 ≤ ntfsRlVcnToLcn rl vcn) : vcn < start + rlClusters rl := by
  induction valid with
  | terminator first ends negative =>
    have unmapped := (RlFrom.terminator first ends negative).lookup_terminator ends vcn
    omega
  | @run element rest start first some_cluster others ih =>
    have valid := RlFrom.run first some_cluster others
    rw [rlClusters_cons]
    by_cases here : vcn < start + element.length
    · omega
    · rw [valid.lookup some_cluster lower, if_neg here] at mapped
      have inside := ih (by omega) mapped
      omega

/-- The element to which a vcn within the runs is sought holds it, and maps what the whole
list maps from there on. -/
theorem RlFrom.seek_inside (valid : RlFrom start rl) (lower : start ≤ vcn)
    (inside : vcn < start + rlClusters rl) :
    ∃ element rest, rlSeek vcn rl = element :: rest ∧ RlFrom element.vcn (element :: rest) ∧
      element.vcn ≤ vcn ∧ vcn < element.vcn + element.length ∧ (element :: rest) <:+ rl ∧
      element.vcn + rlClusters (element :: rest) = start + rlClusters rl ∧
      ∀ v, vcn ≤ v → ntfsRlVcnToLcn (element :: rest) v = ntfsRlVcnToLcn rl v := by
  induction valid with
  | terminator first ends negative =>
    simp only [rlClusters, List.map_cons, List.map_nil, List.sum_cons, List.sum_nil, ends] at inside
    omega
  | @run element rest start first some_cluster others ih =>
    have valid := RlFrom.run first some_cluster others
    obtain ⟨next, tail, rfl, nextStart⟩ := others.head
    by_cases here : vcn < start + element.length
    · refine ⟨element, next :: tail, ?_, ?_, ?_, ?_, List.suffix_rfl, ?_, fun v _ => rfl⟩
      · rw [rlSeek, if_neg]
        omega
      · rw [first]
        exact valid
      · omega
      · omega
      · rw [first]
    · rw [rlClusters_cons] at inside ⊢
      obtain ⟨found, rest, sought, suffix, below, above, within, clusters, same⟩ :=
        ih (by omega) (by omega)
      refine ⟨found, rest, ?_, suffix, below, above, within.trans (List.suffix_cons _ _), ?_, ?_⟩
      · rw [rlSeek, if_pos ⟨by omega, by omega⟩]
        exact sought
      · omega
      · intro v behind
        rw [same v behind, valid.lookup some_cluster (by omega), if_neg (by omega)]

/-- The element to which a vcn that is mapped is sought holds it, and maps what the
whole list maps from there on. -/
theorem RlFrom.seek (valid : RlFrom start rl) (lower : start ≤ vcn)
    (mapped : 0 ≤ ntfsRlVcnToLcn rl vcn) :
    ∃ element rest, rlSeek vcn rl = element :: rest ∧ RlFrom element.vcn (element :: rest) ∧
      element.vcn ≤ vcn ∧ vcn < element.vcn + element.length ∧
      ∀ v, vcn ≤ v → ntfsRlVcnToLcn (element :: rest) v = ntfsRlVcnToLcn rl v := by
  obtain ⟨element, rest, sought, suffix, below, above, _, _, same⟩ :=
    valid.seek_inside lower (valid.mapped_inside lower mapped)
  exact ⟨element, rest, sought, suffix, below, above, same⟩

theorem RlFrom.within (valid : RlFrom element.vcn (element :: rest)) (lower : element.vcn ≤ vcn)
    {j : Nat} (inside : vcn + j < element.vcn + element.length)
    (mapped : 0 ≤ ntfsRlVcnToLcn (element :: rest) vcn) :
    ntfsRlVcnToLcn (element :: rest) (vcn + j) = ntfsRlVcnToLcn (element :: rest) vcn + j := by
  have some_cluster : 0 < element.length := by omega
  rw [valid.lookup some_cluster lower, if_pos (by omega)] at mapped ⊢
  rw [valid.lookup some_cluster (by omega), if_pos inside]
  by_cases real : element.lcn ≥ 0
  · rw [if_pos real, if_pos real]
    omega
  · rw [if_neg real] at mapped
    omega

theorem RlFrom.behind (valid : RlFrom element.vcn (element :: rest)) (some_cluster : 0 < element.length)
    (past : element.vcn + element.length ≤ vcn) :
    ntfsRlVcnToLcn (element :: rest) vcn = ntfsRlVcnToLcn rest vcn := by
  rw [valid.lookup some_cluster (by omega), if_neg (by omega)]

end Lookup

end Ttntfs.Ntfs
