import Ttntfs.Vfs.Fallocate

/-!
# Allocating the holes of a file

Clusters of the allocator are put into holes of a file, and some bytes of them are zeroed on the
device. A byte of a hole that has been allocated but not zeroed reads as whatever the device
has there.
-/

namespace Ttntfs.Vfs

open Ttntfs.Ntfs
open CachedFile

namespace FileData

/-- Clusters of the allocator that no vcn has, and that are not given twice. -/
structure Fresh (rl : List RunlistElement) (extents : List Extent) : Prop where
  unmapped : ∀ extent ∈ extents, ∀ i < extent.length, ∀ v, ntfsRlVcnToLcn rl v ≠ (extent.lcn + i : Nat)
  apart : extents.Pairwise fun a b => a.lcn + a.length ≤ b.lcn ∨ b.lcn + b.length ≤ a.lcn

section Fresh

variable {rl mapped : List RunlistElement} {extents rest : List Extent} {vcn i j lcn : Nat}

theorem extentLcn_listed (found : extentLcn extents i = some lcn) :
    ∃ extent ∈ extents, extent.lcn ≤ lcn ∧ lcn < extent.lcn + extent.length := by
  induction extents generalizing i with
  | nil => cases found
  | cons extent rest ih =>
    rw [extentLcn] at found
    split at found
    · cases found
      exact ⟨extent, List.mem_cons_self, by omega, by omega⟩
    · obtain ⟨other, listed, bounds⟩ := ih found
      exact ⟨other, List.mem_cons_of_mem _ listed, bounds⟩

/-- Extents that lie apart have no cluster twice. -/
theorem extentLcn_inj (apart : extents.Pairwise fun a b => a.lcn + a.length ≤ b.lcn ∨ b.lcn + b.length ≤ a.lcn)
    (here : extentLcn extents i = some lcn) (there : extentLcn extents j = some lcn) : i = j := by
  induction extents generalizing i j with
  | nil => cases here
  | cons extent rest ih =>
    obtain ⟨first, others⟩ := List.pairwise_cons.mp apart
    rw [extentLcn] at here there
    split at here
    · split at there
      · have := Option.some.inj here
        have := Option.some.inj there
        omega
      · obtain ⟨other, listed, bounds⟩ := extentLcn_listed there
        have := first other listed
        have := Option.some.inj here
        omega
    · split at there
      · obtain ⟨other, listed, bounds⟩ := extentLcn_listed here
        have := first other listed
        have := Option.some.inj there
        omega
      · have := ih others here there
        omega

/-- Fresh clusters that are mapped leave the others fresh, and no cluster belongs to two vcns then. -/
theorem Fresh.filled (fresh : Fresh rl (extents ++ rest)) (once : MapsOnce rl) (fills : Filled rl vcn extents mapped) :
    MapsOnce mapped ∧ Fresh mapped rest := by
  obtain ⟨unmapped, apart⟩ := fresh
  obtain ⟨front, behind, across⟩ := List.pairwise_append.mp apart
  have old (lcn : Nat) (v i : Nat) (found : extentLcn extents i = some lcn) : ntfsRlVcnToLcn rl v ≠ lcn := by
    obtain ⟨extent, listed, lower, upper⟩ := extentLcn_listed found
    have same : extent.lcn + (lcn - extent.lcn) = lcn := by omega
    have := unmapped extent (List.mem_append_left _ listed) (lcn - extent.lcn) (by omega) v
    rwa [same] at this
  have look (v : Nat) : (∃ lcn, vcn ≤ v ∧ extentLcn extents (v - vcn) = some lcn ∧ ntfsRlVcnToLcn mapped v = lcn) ∨
      ntfsRlVcnToLcn mapped v = ntfsRlVcnToLcn rl v := by
    have maps := fills.maps v
    split at maps
    · rename_i lower
      cases found : extentLcn extents (v - vcn) with
      | none =>
        rw [found] at maps
        exact .inr maps
      | some lcn =>
        rw [found] at maps
        exact .inl ⟨lcn, lower, rfl, maps⟩
    · exact .inr maps
  constructor
  · intro v v' real same
    rcases look v with ⟨lcn, lower, found, maps⟩ | maps
    · rcases look v' with ⟨lcn', lower', found', maps'⟩ | maps'
      · rw [maps, maps'] at same
        obtain rfl := Int.ofNat.inj same
        have := extentLcn_inj front found found'
        omega
      · exact absurd (maps'.symm.trans (same.symm.trans maps)) (old lcn v' _ found)
    · rcases look v' with ⟨lcn', lower', found', maps'⟩ | maps'
      · exact absurd (maps.symm.trans (same.trans maps')) (old lcn' v _ found')
      · rw [maps] at real same
        rw [maps'] at same
        exact once v v' real same
  · refine ⟨fun extent listed i inside v => ?_, behind⟩
    rcases look v with ⟨lcn, lower, found, maps⟩ | maps
    · obtain ⟨other, otherListed, bounds⟩ := extentLcn_listed found
      have := across other otherListed extent listed
      rw [maps]
      omega
    · rw [maps]
      exact unmapped extent (List.mem_append_right _ listed) i inside v

end Fresh

/-- What the loops have done to a file: vcns of holes have been allocated, and bytes of them have been
zeroed on the device. -/
structure Progress (f : CachedFile) (alloc zeroed : Nat → Prop) (g : CachedFile) : Prop where
  clusterBits : g.clusterBits = f.clusterBits
  size : g.size = f.size
  initializedSize : g.initializedSize = f.initializedSize
  cache : g.cache = f.cache
  whole : ∃ runs terminator, WholeRunlist g.rl runs terminator
  clusters : rlClusters g.rl = rlClusters f.rl
  once : MapsOnce g.rl
  filled : ∀ v, alloc v → ntfsRlVcnToLcn f.rl v = lcnHole ∧ 0 ≤ ntfsRlVcnToLcn g.rl v
  others : ∀ v, ¬ alloc v → ntfsRlVcnToLcn g.rl v = ntfsRlVcnToLcn f.rl v
  device : ∀ b a, g.address b = some a → (zeroed b → g.device a = 0) ∧ (¬ zeroed b → g.device a = f.device a)
  elsewhere : ∀ a, (∀ b, g.address b ≠ some a) → g.device a = f.device a
  within : ∀ b, zeroed b → alloc (b / f.clusterLength)

section Progress

variable {f g : CachedFile} {alloc zeroed : Nat → Prop} {filled : List RunlistElement} {extents rest : List Extent}
  {vcn count lcn n b : Nat}

theorem Progress.start {runs : List RunlistElement} {terminator : RunlistElement} (whole : WholeRunlist f.rl runs terminator)
    (once : MapsOnce f.rl) : Progress f (fun _ => False) (fun _ => False) f :=
  ⟨rfl, rfl, rfl, rfl, ⟨runs, terminator, whole⟩, rfl, once, fun _ impossible => impossible.elim, fun _ _ => rfl,
    fun _ _ _ => ⟨fun impossible => impossible.elim, fun _ => rfl⟩, fun _ _ => rfl, fun _ impossible => impossible.elim⟩

theorem Progress.unit (progress : Progress f alloc zeroed g) : g.clusterLength = f.clusterLength := by
  rw [clusterLength, clusterLength, progress.clusterBits]

theorem address_eq_none : f.address b = none ↔ ntfsRlVcnToLcn f.rl (b / f.clusterLength) < 0 := by
  rw [address]
  split
  · simp only [reduceCtorEq, false_iff, not_lt]
    assumption
  · simp only [true_iff]
    omega

theorem address_of {l : Int} (maps : ntfsRlVcnToLcn f.rl (b / f.clusterLength) = l) :
    f.address b = if 0 ≤ l then some (l.toNat * f.clusterLength + b % f.clusterLength) else none := by
  rw [address, maps]

theorem Progress.address_others (progress : Progress f alloc zeroed g) (other : ¬ alloc (b / f.clusterLength)) :
    g.address b = f.address b := by
  rw [address, address, progress.unit, progress.others _ other]

theorem Progress.congr {alloc' zeroed' : Nat → Prop} (progress : Progress f alloc zeroed g)
    (sameAlloc : ∀ v, alloc v ↔ alloc' v) (sameZeroed : ∀ b, zeroed b ↔ zeroed' b) : Progress f alloc' zeroed' g := by
  obtain rfl : alloc = alloc' := funext fun v => propext (sameAlloc v)
  obtain rfl : zeroed = zeroed' := funext fun b => propext (sameZeroed b)
  exact progress

/-- Clusters that are put into a hole. -/
theorem Progress.allocate (progress : Progress f alloc zeroed g) (fresh : Fresh g.rl (extents ++ rest))
    (hole : ∀ i < extentClusters extents, ntfsRlVcnToLcn g.rl (vcn + i) = lcnHole)
    (fills : Filled g.rl vcn extents filled) :
    Progress f (fun v => alloc v ∨ vcn ≤ v ∧ v < vcn + extentClusters extents) zeroed { g with rl := filled } ∧
      Fresh filled rest := by
  obtain ⟨once, stillFresh⟩ := fresh.filled progress.once fills
  have holeIs : lcnHole = -2 := rfl
  have unalloc (v : Nat) (lower : vcn ≤ v) (upper : v < vcn + extentClusters extents) :
      ntfsRlVcnToLcn g.rl v = lcnHole ∧ ¬ alloc v := by
    have inHole := hole (v - vcn) (by omega)
    rw [Nat.add_sub_cancel' lower] at inHole
    refine ⟨inHole, fun allocated => ?_⟩
    have := (progress.filled v allocated).2
    omega
  have inside (v : Nat) (lower : vcn ≤ v) (upper : v < vcn + extentClusters extents) :
      ∃ lcn : Nat, extentLcn extents (v - vcn) = some lcn ∧ ntfsRlVcnToLcn filled v = lcn := by
    obtain ⟨lcn, found⟩ := Option.isSome_iff_exists.mp (extentLcn_isSome.mpr (by omega : v - vcn < extentClusters extents))
    have maps := fills.maps v
    rw [if_pos lower, found] at maps
    exact ⟨lcn, found, maps⟩
  have outside (v : Nat) (out : ¬ (vcn ≤ v ∧ v < vcn + extentClusters extents)) :
      ntfsRlVcnToLcn filled v = ntfsRlVcnToLcn g.rl v := by
    have maps := fills.maps v
    split at maps
    · rename_i lower
      have nothing : extentLcn extents (v - vcn) = none := by
        rw [← Option.not_isSome_iff_eq_none, extentLcn_isSome]
        omega
      rw [nothing] at maps
      exact maps
    · exact maps
  have same (b : Nat) (out : ¬ (vcn ≤ b / g.clusterLength ∧ b / g.clusterLength < vcn + extentClusters extents)) :
      ({ g with rl := filled } : CachedFile).address b = g.address b := by
    have there : ({ g with rl := filled } : CachedFile).address b = _ := address_of (outside _ out)
    rw [there]
    rfl
  refine ⟨⟨progress.clusterBits, progress.size, progress.initializedSize, progress.cache, fills.whole,
    fills.clusters.trans progress.clusters, once, fun v allocated => ?_, fun v other => ?_, fun b a mapped => ?_,
    fun a nowhere => ?_, fun b cleared => .inl (progress.within b cleared)⟩, stillFresh⟩
  · by_cases range : vcn ≤ v ∧ v < vcn + extentClusters extents
    · obtain ⟨lcn, _, maps⟩ := inside v range.1 range.2
      have before := progress.others v (unalloc v range.1 range.2).2
      exact ⟨before.symm.trans (unalloc v range.1 range.2).1, by rw [maps]; exact Int.natCast_nonneg _⟩
    · obtain ⟨hole, real⟩ := progress.filled v (allocated.resolve_right range)
      exact ⟨hole, by rw [outside v range]; exact real⟩
  · rw [not_or] at other
    rw [outside v other.2]
    exact progress.others v other.1
  · by_cases range : vcn ≤ b / g.clusterLength ∧ b / g.clusterLength < vcn + extentClusters extents
    · -- a cluster that nothing was at before
      have unzeroed : ¬ zeroed b := fun cleared => by
        have := progress.within b cleared
        rw [← progress.unit] at this
        exact (unalloc _ range.1 range.2).2 this
      refine ⟨fun cleared => absurd cleared unzeroed, fun _ => progress.elsewhere a fun b' before => ?_⟩
      obtain ⟨lcn, found, maps⟩ := inside _ range.1 range.2
      obtain ⟨extent, listed, lower, upper⟩ := extentLcn_listed found
      have size := g.clusterLength_pos
      have there : ({ g with rl := filled } : CachedFile).address b = _ := address_of maps
      rw [there, if_pos (Int.natCast_nonneg _)] at mapped
      rw [address] at before
      split at before
      · rename_i real
        have place : a / g.clusterLength = lcn := by
          have same : lcn * g.clusterLength + b % g.clusterLength = a := Option.some.inj mapped
          rw [← same, Nat.mul_comm, Nat.mul_add_div size, Nat.div_eq_of_lt (Nat.mod_lt _ size), Nat.add_zero]
        have placeToo : a / g.clusterLength = (ntfsRlVcnToLcn g.rl (b' / g.clusterLength)).toNat := by
          rw [← Option.some.inj before, Nat.mul_comm, Nat.mul_add_div size, Nat.div_eq_of_lt (Nat.mod_lt _ size), Nat.add_zero]
        refine fresh.unmapped extent (List.mem_append_left _ listed) (lcn - extent.lcn) (by omega) (b' / g.clusterLength) ?_
        omega
      · cases before
    · rw [same b range] at mapped
      exact progress.device b a mapped
  · refine progress.elsewhere a fun b before => ?_
    by_cases range : vcn ≤ b / g.clusterLength ∧ b / g.clusterLength < vcn + extentClusters extents
    · have none_here : g.address b = none := address_eq_none.mpr (by
        rw [(unalloc _ range.1 range.2).1]
        decide)
      rw [none_here] at before
      cases before
    · exact nowhere b ((same b range).trans before)

/-- Clusters of a hole that are zeroed on the device. -/
theorem Progress.zero (progress : Progress f alloc zeroed g) (run : ∀ i < count, ntfsRlVcnToLcn g.rl (vcn + i) = (lcn + i : Nat))
    (allocated : ∀ i < count, alloc (vcn + i)) (bound : n ≤ count * f.clusterLength) :
    Progress f alloc (fun b => zeroed b ∨ vcn * f.clusterLength ≤ b ∧ b < vcn * f.clusterLength + n)
      (zeroDevice g (lcn * f.clusterLength) n) := by
  have size := f.clusterLength_pos
  have place (i : Nat) (inside : i < n) : g.address (vcn * f.clusterLength + i) = some (lcn * f.clusterLength + i) := by
    have there := @address_run g vcn count i lcn (fun j below => by
      rw [run j below, if_pos (Int.natCast_nonneg _)]
      rfl) (by rw [progress.unit]; omega)
    rw [if_pos (Int.natCast_nonneg _), progress.unit] at there
    exact there
  have range (b a : Nat) (mapped : g.address b = some a) : (lcn * f.clusterLength ≤ a ∧ a < lcn * f.clusterLength + n) ↔
      vcn * f.clusterLength ≤ b ∧ b < vcn * f.clusterLength + n := by
    constructor
    · rintro ⟨lower, upper⟩
      have there := place (a - lcn * f.clusterLength) (by omega)
      rw [Nat.add_sub_cancel' lower] at there
      have := address_inj progress.once mapped there
      omega
    · rintro ⟨lower, upper⟩
      have there := place (b - vcn * f.clusterLength) (by omega)
      rw [Nat.add_sub_cancel' lower, mapped] at there
      have := Option.some.inj there
      omega
  refine ⟨progress.clusterBits, progress.size, progress.initializedSize, progress.cache, progress.whole, progress.clusters,
    progress.once, progress.filled, progress.others, fun b a mapped => ?_, fun a nowhere => ?_, fun b cleared => ?_⟩
  · change g.address b = some a at mapped
    obtain ⟨cleared, left⟩ := progress.device b a mapped
    simp only [zeroDevice, range b a mapped]
    constructor
    · intro here
      split
      · rfl
      · rename_i out
        exact cleared (here.resolve_right out)
    · intro nothing
      rw [not_or] at nothing
      rw [if_neg nothing.2]
      exact left nothing.1
  · change ∀ b, g.address b ≠ some a at nowhere
    simp only [zeroDevice]
    rw [if_neg, progress.elsewhere a nowhere]
    rintro ⟨lower, upper⟩
    refine nowhere _ (place (a - lcn * f.clusterLength) (by omega) |>.trans ?_)
    rw [Nat.add_sub_cancel' lower]
  · rcases cleared with before | ⟨lower, upper⟩
    · exact progress.within b before
    · have cluster := (Nat.le_div_iff_mul_le size).mpr lower
      have below : b / f.clusterLength < vcn + count := by
        rw [Nat.div_lt_iff_lt_mul size, Nat.add_mul]
        omega
      have there := allocated (b / f.clusterLength - vcn) (by omega)
      rwa [Nat.add_sub_cancel' cluster] at there

end Progress

end FileData

end Ttntfs.Vfs
