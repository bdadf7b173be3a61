import Ttntfs.Vfs.AllocationProgress

/-!
# The loops of preallocation

What the passes of the loops of `ntfs_attr_fallocate` allocate and zero, and how the loops end.
-/

namespace Ttntfs.Vfs

open Ttntfs.Ntfs
open CachedFile

namespace FileData

/-- What a pass allocates. -/
def HoleStep.Allocates (step : HoleStep) (v : Nat) : Prop :=
  step.vcn ≤ v ∧ v < step.vcn + extentClusters step.map.extents

/-- What a pass zeroes on the device. -/
def HoleStep.Zeroes (clusterLength : Nat) (step : HoleStep) (b : Nat) : Prop :=
  step.map.maps = true ∧ step.vcn * clusterLength ≤ b ∧
    b < step.vcn * clusterLength + step.zeroed clusterLength

/-- A pass that ends the call without an error, because a signal is pending. -/
def HoleStep.Interrupts (step : HoleStep) : Prop :=
  step.map.maps = true ∧ step.signal = true ∧ step.zero = none

/-- What a pass of the second loop allocates. -/
def BehindStep.Allocates (step : BehindStep) (v : Nat) : Prop :=
  step.vcn ≤ v ∧ v < step.vcn + extentClusters step.map.extents

/-- A pass of the second loop that ends the call because a signal is pending. -/
def BehindStep.Interrupts (step : BehindStep) : Prop := step.map.maps = true ∧ step.signal = true

/-- What passes allocate, in order. -/
def holeExtents (steps : List HoleStep) : List Extent := steps.flatMap (·.map.extents)

/-- What passes of the second loop allocate, in order. -/
def behindExtents (steps : List BehindStep) : List Extent := steps.flatMap (·.map.extents)

/-- What some passes have done, and whether the loop is left early. -/
structure Passed (f : CachedFile) (alloc zeroed : Nat → Prop) (done : List HoleStep)
    (rest : List Extent) (loop : LoopEnd) :
    Prop where
  progress : Progress f (fun v => alloc v ∨ ∃ step ∈ done, step.Allocates v)
    (fun b => zeroed b ∨ ∃ step ∈ done, step.Zeroes f.clusterLength b) loop.state.file
  fresh : Fresh loop.state.file.rl (holeExtents loop.rest ++ rest)
  interrupted : loop.out = true → (loop.state.err = none ↔ ∃ step ∈ done, step.Interrupts)
  uninterrupted : loop.out = false → ∀ step ∈ done, ¬ step.Interrupts

section Passes

variable {f : CachedFile} {alloc zeroed : Nat → Prop} {s : FallocState} {step : HoleStep}
  {steps : List HoleStep}
  {rest : List Extent} {rl : List RunlistElement} {vcn n : Nat} {rlHint : Nat → Nat}
    {err : ErrorCode}
  {mapped : MappedClusters} {loop : LoopEnd}

/-- What `ntfs_attr_map_cluster` does to a file. -/
theorem Progress.map {course : MapCourse} {result : Except ErrorCode MappedClusters} {hint : Nat}
    (progress : Progress f alloc zeroed s.file) (fresh : Fresh s.file.rl (course.extents ++ rest))
    (some_cluster : 0 < n)
    (inside : vcn < rlClusters f.rl)
    (ok : Ntfs.ntfsAttrMapCluster s.file.rl hint vcn n false course = some (rl, result)) :
    MapEnd s.file.rl vcn n course rl result ∧
    Progress f (fun v => alloc v ∨ vcn ≤ v ∧ v < vcn + extentClusters course.extents) zeroed
      { s.file with rl := rl } ∧
      Fresh rl rest := by
  obtain ⟨runs, terminator, whole⟩ := progress.whole
  have ended := ntfsAttrMapCluster_end whole
    (by rw [progress.clusters]; exact inside) some_cluster ok
  refine ⟨ended, ?_⟩
  have unchanged : course.extents = [] →
    Progress f (fun v => alloc v ∨ vcn ≤ v ∧ v < vcn + extentClusters course.extents) zeroed
      s.file ∧ Fresh s.file.rl rest := fun nothing => by
    rw [nothing] at fresh ⊢
    refine ⟨progress.congr (fun v => ?_) fun _ => Iff.rfl, fresh⟩
    have : extentClusters [] = 0 := rfl
    constructor
    · exact .inl
    · rintro (before | ⟨lower, upper⟩)
      · exact before
      · omega
  cases ended with
  | unchanged err nothing failed => exact unchanged nothing
  | found lcn count some_cluster bound clusters => exact unchanged rfl
  | freed first others filled err bound hole fills => exact progress.allocate fresh hole fills
  | allocated first others update filled updated bound hole fills =>
    exact progress.allocate fresh hole fills

/-- What a pass does that has its clusters: they are in the hole, and it zeroes them. -/
theorem Progress.pass (progress : Progress f alloc zeroed s.file)
    (fresh : Fresh s.file.rl (step.map.extents ++ rest))
    (some_cluster : 0 < n) (inside : vcn + n ≤ rlClusters f.rl)
    (hole : ∀ i < n, ntfsRlVcnToLcn f.rl (vcn + i) = lcnHole)
    (here : step.vcn = vcn) (counted : step.count = mapped.count)
    (ok : Ntfs.ntfsAttrMapCluster s.file.rl (rlHint vcn) vcn n false step.map =
      some (rl, .ok mapped)) :
    step.map.maps = true ∧ 0 < mapped.count ∧ mapped.count ≤ n ∧ Fresh rl rest ∧
      (∀ i < mapped.count, alloc (vcn + i) ∨ step.Allocates (vcn + i)) ∧
      Progress f (fun v => alloc v ∨ step.Allocates v) (fun b => zeroed b ∨
        step.Zeroes f.clusterLength b)
        (s.zeroStep step rl mapped.lcn).file := by
  obtain ⟨ended, after, stillFresh⟩ := progress.map fresh some_cluster (by omega) ok
  have holeIs : lcnHole = -2 := rfl
  have allocates (v : Nat) :
      (vcn ≤ v ∧ v < vcn + extentClusters step.map.extents) ↔ step.Allocates v := by
    rw [HoleStep.Allocates, here]
  have after := after.congr (fun v => or_congr Iff.rfl (allocates v)) fun _ => Iff.rfl
  obtain ⟨maps, some_count, bound, lcn, lcnIs, run⟩ := ended.ok
  have inHole (i : Nat) (below : i < mapped.count) :
      alloc (vcn + i) ∨ step.Allocates (vcn + i) := by
    by_contra other
    have same := after.others (vcn + i) other
    change ntfsRlVcnToLcn rl (vcn + i) = _ at same
    rw [run i below, hole i (by omega)] at same
    omega
  refine ⟨maps, some_count, bound, stillFresh, inHole, ?_⟩
  have zeroedBound : step.zeroed f.clusterLength ≤ mapped.count * f.clusterLength := by
    rw [HoleStep.zeroed, ← counted]
    split
    · exact le_refl _
    · exact Nat.min_le_right _ _
  have zero := after.zero run inHole zeroedBound
  have file : (s.zeroStep step rl mapped.lcn).file =
      zeroDevice { s.file with rl := rl } (lcn * f.clusterLength)
        (step.zeroed f.clusterLength) := by
    rw [FallocState.zeroStep, lcnIs, progress.unit]
    rfl
  rw [file]
  refine zero.congr (fun _ => Iff.rfl) fun b => or_congr Iff.rfl ?_
  rw [HoleStep.Zeroes, here]
  exact ⟨fun range => ⟨maps, range⟩, fun range => range.2⟩

/-- The loop that fills a hole. -/
theorem fillHole_passed (progress : Progress f alloc zeroed s.file)
    (fresh : Fresh s.file.rl (holeExtents steps ++ rest))
    (inside : vcn + n ≤ rlClusters f.rl) (hole : ∀ i < n, ntfsRlVcnToLcn f.rl (vcn + i) = lcnHole)
    (ok : fillHole rlHint steps s vcn n = some loop) :
    ∃ done, steps = done ++ loop.rest ∧ Passed f alloc zeroed done rest loop ∧
      (loop.out = false → loop.vcn = vcn + n ∧ ∀ i < n, alloc (vcn + i) ∨
        ∃ step ∈ done, step.Allocates (vcn + i)) := by
  induction steps generalizing s vcn n alloc zeroed with
  | nil =>
    cases n with
    | zero =>
      cases ok
      refine ⟨[], rfl, ⟨?_, fresh, nofun, nofun⟩, fun _ => ⟨rfl, nofun⟩⟩
      exact progress.congr (fun v => by simp) fun b => by simp
    | succ n => cases ok
  | cons step steps ih =>
    cases n with
    | zero =>
      cases ok
      refine ⟨[], rfl, ⟨?_, fresh, nofun, nofun⟩, fun _ => ⟨rfl, nofun⟩⟩
      exact progress.congr (fun v => by simp) fun b => by simp
    | succ n =>
      have fresh : Fresh s.file.rl (step.map.extents ++ (holeExtents steps ++ rest)) := by
        simpa [holeExtents] using fresh
      rw [fillHole] at ok
      split at ok
      swap
      · cases ok
      rename_i here
      split at ok
      · cases ok
      · -- the call fails
        rename_i rl err mapsTo
        cases ok
        obtain ⟨ended, after, stillFresh⟩ := progress.map fresh (Nat.succ_pos n) (by omega) mapsTo
        have failed := ended.error
        refine ⟨[step], rfl, ⟨?_, stillFresh, fun _ => ?_, nofun⟩, nofun⟩
        · refine after.congr (fun v => or_congr Iff.rfl ?_) fun b => ?_
          · simp [HoleStep.Allocates, here]
          · simp [HoleStep.Zeroes, failed]
        · simp [HoleStep.Interrupts, failed]
      rename_i rl mapped mapsTo
      split at ok
      swap
      · cases ok
      rename_i counted
      obtain ⟨maps, some_count, bound, stillFresh, inHole, after⟩ :=
        progress.pass fresh (Nat.succ_pos n) inside hole here counted mapsTo
      split at ok
      · -- a signal is pending
        rename_i signalled
        cases ok
        refine ⟨[step], rfl, ⟨?_, stillFresh, fun _ => ?_, nofun⟩, nofun⟩
        · exact after.congr (fun v => by simp) fun b => by simp
        · simp [HoleStep.Interrupts, maps, signalled, FallocState.zeroStep]
      rename_i goesOn
      obtain ⟨done, parts, passed, ends⟩ := ih after stillFresh (by omega)
        (fun i below => by
          rw [Nat.add_assoc]
          exact hole _ (by omega)) ok
      refine ⟨step :: done,
        by rw [parts]; rfl, ⟨?_, passed.fresh, fun out => ?_, fun out => ?_⟩, fun out => ?_⟩
      · exact passed.progress.congr (fun v => by simp [or_assoc]) fun b => by simp [or_assoc]
      · rw [passed.interrupted out]
        simp [HoleStep.Interrupts, goesOn]
      · intro other listed
        rcases List.mem_cons.mp listed with rfl | later
        · exact fun interrupts => goesOn interrupts.2.1
        · exact passed.uninterrupted out other later
      · obtain ⟨behind, filled⟩ := ends out
        refine ⟨by omega, fun i below => ?_⟩
        by_cases first : i < mapped.count
        · rcases inHole i first with before | now
          · exact .inl before
          · exact .inr ⟨step, List.mem_cons_self, now⟩
        · have there := filled (i - mapped.count) (by omega)
          have same : vcn + mapped.count + (i - mapped.count) = vcn + i := by omega
          rw [same] at there
          rcases there with (before | now) | ⟨other, listed, later⟩
          · exact .inl before
          · exact .inr ⟨step, List.mem_cons_self, now⟩
          · exact .inr ⟨other, List.mem_cons_of_mem _ listed, later⟩

end Passes

section Runs

variable {f : CachedFile} {alloc zeroed : Nat → Prop} {s : FallocState} {steps : List HoleStep}
  {rest : List Extent}
  {vcn vcnUninit : Nat} {rlHint : Nat → Nat} {loop : LoopEnd}

/-- Passes that follow others. -/
theorem Passed.behind {done first : List HoleStep} (nothing : ∀ step ∈ first, ¬ step.Interrupts)
    (passed : Passed f (fun v => alloc v ∨ ∃ step ∈ first, step.Allocates v)
      (fun b => zeroed b ∨ ∃ step ∈ first, step.Zeroes f.clusterLength b) done rest loop) :
    Passed f alloc zeroed (first ++ done) rest loop := by
  refine ⟨?_, passed.fresh, fun out => ?_, fun out step listed => ?_⟩
  · refine passed.progress.congr (fun v => ?_) fun b => ?_
    · simp only [List.mem_append, or_and_right, exists_or, or_assoc]
    · simp only [List.mem_append, or_and_right, exists_or, or_assoc]
  · rw [passed.interrupted out]
    constructor
    · rintro ⟨step, listed, interrupts⟩
      exact ⟨step, List.mem_append_right _ listed, interrupts⟩
    · rintro ⟨step, listed, interrupts⟩
      rcases List.mem_append.mp listed with early | late
      · exact absurd interrupts (nothing step early)
      · exact ⟨step, late, interrupts⟩
  · rcases List.mem_append.mp listed with early | late
    · exact nothing step early
    · exact passed.uninterrupted out step late

/-- The loop over the runs below the initialized size. -/
theorem fillHoles_passed (progress : Progress f alloc zeroed s.file)
    (fresh : Fresh s.file.rl (holeExtents steps ++ rest))
    (inside : vcnUninit ≤ rlClusters f.rl)
    (ok : fillHoles rlHint vcnUninit steps s vcn = some loop) :
    ∃ done, steps = done ++ loop.rest ∧ Passed f alloc zeroed done rest loop ∧
      (loop.out = false → vcn ≤ loop.vcn ∧ vcnUninit ≤ loop.vcn ∧
        ∀ v, vcn ≤ v → v < loop.vcn → 0 ≤ ntfsRlVcnToLcn f.rl v ∨ alloc v ∨
          ∃ step ∈ done, step.Allocates v) := by
  have holeIs : lcnHole = -2 := rfl
  have delallocIs : lcnDelalloc = -1 := rfl
  generalize measure : vcnUninit - vcn = m
  induction m using Nat.strong_induction_on generalizing s steps vcn alloc zeroed with
  | _ m ih =>
    have same : Progress f (fun v => alloc v ∨ ∃ step ∈ ([] : List HoleStep), step.Allocates v)
        (fun b => zeroed b ∨ ∃ step ∈ ([] : List HoleStep), step.Zeroes f.clusterLength b) s.file :=
      progress.congr (fun v => by simp) fun b => by simp
    rw [fillHoles] at ok
    split at ok
    · rename_i more
      obtain ⟨runs, terminator, whole⟩ := progress.whole
      have below : vcn < rlClusters s.file.rl := by
        rw [progress.clusters]
        omega
      obtain ⟨before, run, post, shape, held, elementIs, finds, _, lookups⟩ := whole.found below
      have kinds := whole.kinds run (by simp [shape])
      have bounds := held
      simp only [Holds] at bounds
      simp only [finds, elementIs] at ok
      have inRun (v : Nat) (lower : vcn ≤ v) (upper : v < vcn + (run.length - (vcn - run.vcn))) :
          ntfsRlVcnToLcn s.file.rl v = lcnWithin run v := lookups v ⟨by omega, by omega⟩
      split at ok
      · -- the run has clusters
        rename_i real
        rw [if_pos (by omega)] at ok
        obtain ⟨done, parts, passed, ends⟩ := ih _ (by omega) progress fresh ok rfl
        refine ⟨done, parts, passed, fun out => ?_⟩
        obtain ⟨lower, reached, filled⟩ := ends out
        refine ⟨by omega, reached, fun v least most => ?_⟩
        by_cases here : v < vcn + (run.length - (vcn - run.vcn))
        · have mapped := inRun v least here
          rw [lcnWithin, if_pos (by omega)] at mapped
          by_cases allocated : alloc v
          · exact .inr (.inl allocated)
          · rw [progress.others v allocated] at mapped
            exact .inl (by omega)
        · exact filled v (by omega) most
      · split at ok
        · omega
        split at ok
        · -- the run is a hole
          rename_i isHole
          have inHole (i : Nat) (below : i < min (run.length - (vcn - run.vcn)) (vcnUninit - vcn)) :
              ntfsRlVcnToLcn f.rl (vcn + i) = lcnHole := by
            have mapped := inRun (vcn + i) (by omega) (by omega)
            rw [lcnWithin, if_neg (by omega), isHole] at mapped
            by_cases allocated : alloc (vcn + i)
            · have := (progress.filled _ allocated).2
              omega
            · rw [← progress.others _ allocated, mapped]
          split at ok
          · cases ok
          rename_i inner fills
          obtain ⟨first, firstParts, firstPassed, firstEnds⟩ :=
            fillHole_passed progress fresh (by omega) inHole fills
          split at ok
          · cases ok
            rename_i out
            exact ⟨first, firstParts, firstPassed, fun stays => by
              rw [out] at stays
              cases stays⟩
          rename_i stays
          have stays : inner.out = false := by simpa using stays
          obtain ⟨behind, filled⟩ := firstEnds stays
          rw [if_pos (by omega)] at ok
          obtain ⟨done, parts, passed, ends⟩ := ih _ (by omega) firstPassed.progress
            firstPassed.fresh ok rfl
          refine ⟨first ++ done, by rw [firstParts, parts, List.append_assoc],
            passed.behind (firstPassed.uninterrupted stays), fun out => ?_⟩
          obtain ⟨lower, reached, others⟩ := ends out
          refine ⟨by omega, reached, fun v least most => ?_⟩
          by_cases here : v < inner.vcn
          · have there := filled (v - vcn) (by omega)
            rw [Nat.add_sub_cancel' least] at there
            rcases there with before | ⟨step, listed, now⟩
            · exact .inr (.inl before)
            · exact .inr (.inr ⟨step, List.mem_append_left _ listed, now⟩)
          · rcases others v (by omega) most with mapped | (before | ⟨step, listed, now⟩) |
              ⟨step, listed, now⟩
            · exact .inl mapped
            · exact .inr (.inl before)
            · exact .inr (.inr ⟨step, List.mem_append_left _ listed, now⟩)
            · exact .inr (.inr ⟨step, List.mem_append_right _ listed, now⟩)
        · -- the first cluster of the device is no cluster of a file
          cases ok
          refine ⟨[], rfl, ⟨same, fresh, fun _ => ?_, by simp⟩, by simp⟩
          simp
    · rename_i reached
      cases ok
      exact ⟨[], rfl, ⟨same, fresh, by simp, by simp⟩, fun _ =>
        ⟨le_refl _, by simpa using reached, fun v least most => by
          simp only at most
          omega⟩⟩

/-- The loop that allocates clusters behind the initialized size. -/
theorem allocBehind_passed {steps : List BehindStep} {n : Nat} {s' : FallocState} {out : Bool}
    (progress : Progress f alloc zeroed s.file) (fresh : Fresh s.file.rl (behindExtents steps))
    (inside : 0 < n → vcn + n ≤ rlClusters f.rl)
    (ok : allocBehind rlHint steps s vcn n = some (s', out)) :
    Progress f (fun v => alloc v ∨ ∃ step ∈ steps, step.Allocates v) zeroed s'.file ∧
      (out = true → (s'.err = none ↔ ∃ step ∈ steps, step.Interrupts)) ∧
      (∀ step ∈ steps, vcn ≤ step.vcn) ∧
      (out = false → (∀ step ∈ steps, ¬ step.Interrupts) ∧
        ∀ i < n, 0 ≤ ntfsRlVcnToLcn f.rl (vcn + i) ∨ alloc (vcn + i) ∨
          ∃ step ∈ steps, step.Allocates (vcn + i)) := by
  induction steps generalizing s vcn n alloc with
  | nil =>
    cases n with
    | zero =>
      rw [allocBehind] at ok
      cases ok
      exact ⟨progress.congr (fun v => by simp) fun _ => Iff.rfl, nofun, nofun,
        fun _ => ⟨nofun, nofun⟩⟩
    | succ n =>
      rw [allocBehind] at ok
      cases ok
  | cons step steps ih =>
    cases n with
    | zero =>
      rw [allocBehind] at ok
      cases ok
    | succ n =>
      have fresh : Fresh s.file.rl (step.map.extents ++ behindExtents steps) := by
        simpa [behindExtents] using fresh
      rw [allocBehind] at ok
      split at ok
      · rename_i here
        split at ok
        · cases ok
        · -- the call fails
          rename_i rl err mapsTo
          obtain ⟨ended, after, stillFresh⟩ := progress.map fresh (Nat.succ_pos n) (by omega) mapsTo
          have failed := ended.error
          split at ok
          · rename_i last
            cases ok
            obtain rfl := List.isEmpty_iff.mp last
            refine ⟨?_, fun _ => ?_, by simp [here], nofun⟩
            · refine after.congr (fun v => or_congr Iff.rfl ?_) fun _ => Iff.rfl
              simp [BehindStep.Allocates, here]
            · simp [BehindStep.Interrupts, failed]
          · cases ok
        · rename_i rl mapped mapsTo
          obtain ⟨ended, after, stillFresh⟩ := progress.map fresh (Nat.succ_pos n) (by omega) mapsTo
          obtain ⟨maps, some_count, bound, lcn, lcnIs, run⟩ := ended.ok
          have allocates (v : Nat) :
              (vcn ≤ v ∧ v < vcn + extentClusters step.map.extents) ↔ step.Allocates v := by
            rw [BehindStep.Allocates, here]
          have after : Progress f (fun v => alloc v ∨
              step.Allocates v) zeroed (s.allocStep step rl).file :=
            after.congr (fun v => or_congr Iff.rfl (allocates v)) fun _ => Iff.rfl
          split at ok
          · -- a signal is pending
            rename_i signalled
            split at ok
            · rename_i last
              cases ok
              obtain rfl := List.isEmpty_iff.mp last
              refine ⟨after.congr (fun v => by simp) fun _ => Iff.rfl,
                fun _ => ?_, by simp [here], nofun⟩
              simp [BehindStep.Interrupts, maps, signalled, FallocState.allocStep]
            · cases ok
          · rename_i goesOn
            obtain ⟨later, interrupted, behind, ends⟩ := ih after stillFresh (by omega) ok
            refine ⟨later.congr (fun v => by simp [or_assoc]) fun _ => Iff.rfl, fun out => ?_,
              fun other listed => ?_,
              fun out => ?_⟩
            · rw [interrupted out]
              simp [BehindStep.Interrupts, goesOn]
            · rcases List.mem_cons.mp listed with rfl | further
              · exact here.ge
              · exact (Nat.le_add_right _ _).trans (behind other further)
            · obtain ⟨nothing, filled⟩ := ends out
              refine ⟨fun other listed => ?_, fun i below => ?_⟩
              · rcases List.mem_cons.mp listed with rfl | further
                · exact fun interrupts => goesOn interrupts.2
                · exact nothing other further
              by_cases first : i < mapped.count
              · by_cases allocated : alloc (vcn + i) ∨ step.Allocates (vcn + i)
                · rcases allocated with before | now
                  · exact .inr (.inl before)
                  · exact .inr (.inr ⟨step, List.mem_cons_self, now⟩)
                · have same := after.others (vcn + i) allocated
                  change ntfsRlVcnToLcn rl (vcn + i) = _ at same
                  rw [run i first] at same
                  exact .inl (by omega)
              · have there := filled (i - mapped.count) (by omega)
                have same : vcn + mapped.count + (i - mapped.count) = vcn + i := by omega
                rw [same] at there
                rcases there with mapped | (before | now) | ⟨other, listed, further⟩
                · exact .inl mapped
                · exact .inr (.inl before)
                · exact .inr (.inr ⟨step, List.mem_cons_self, now⟩)
                · exact .inr (.inr ⟨other, List.mem_cons_of_mem _ listed, further⟩)
      · cases ok

end Runs

end FileData

end Ttntfs.Vfs
