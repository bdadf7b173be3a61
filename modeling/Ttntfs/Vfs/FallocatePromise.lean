import Ttntfs.Vfs.FallocateKeeps

/-!
# When preallocation keeps its promise

How the calls of a preallocation go does not depend on the contents of the file. For contents that
show it, a cluster that is allocated but not zeroed is read.
-/

namespace Ttntfs.Vfs

open Ttntfs.Ntfs
open CachedFile

namespace FileData

/-- Two files whose contents differ. -/
def SameShape : FileData → FileData → Prop
  | .resident r, .resident r' => r'.clusterBits = r.clusterBits ∧ r'.value.length = r.value.length
  | .nonResident f, .nonResident g => SameLayout f g
  | _, _ => False

/-- Whatever the device and the pages have, preallocation keeps its promise. -/
def AlwaysPreallocated (data : FileData) (offset len : Nat) (keep : Bool)
    (course : FallocCourse) : Prop :=
  ∀ before, SameShape data before → Settled before → ∀ after err,
    ntfsVfsFallocate before offset len keep course = some (after, err) →
      Preallocated before after offset len keep err

section Shapes

variable {f g h : CachedFile} {s : FallocState} {steps : List HoleStep} {rlHint : Nat → Nat}
  {vcn n vcnUninit : Nat}
  {loop : LoopEnd} {offset len : Nat} {keep : Bool} {course : FallocCourse} {err : Option ErrorCode}

theorem SameLayout.unit (same : SameLayout f g) : g.clusterLength = f.clusterLength := by
  rw [clusterLength, clusterLength, same.clusterBits]

/-- What a pass does to another content. -/
theorem fillHole_layout (same : SameLayout s.file g)
    (ok : fillHole rlHint steps s vcn n = some loop) :
    ∃ g', SameLayout loop.state.file g' ∧
      fillHole rlHint steps { s with file := g } vcn n =
        some { loop with state := { loop.state with file := g' } } := by
  induction steps generalizing s g vcn n with
  | nil =>
    cases n with
    | zero =>
      rw [fillHole] at ok
      cases ok
      exact ⟨g, same, rfl⟩
    | succ n =>
      rw [fillHole] at ok
      cases ok
  | cons step steps ih =>
    cases n with
    | zero =>
      rw [fillHole] at ok
      cases ok
      exact ⟨g, same, rfl⟩
    | succ n =>
      rw [fillHole] at ok ⊢
      split at ok
      · rename_i here
        rw [if_pos here]
        dsimp only
        rw [same.rl]
        split at ok
        · cases ok
        · rename_i rl err mapsTo
          cases ok
          exact ⟨{ g with rl := rl }, ⟨same.clusterBits, same.size, same.initializedSize, rfl⟩, rfl⟩
        · rename_i rl mapped mapsTo
          split at ok
          · rename_i counted
            rw [if_pos counted]
            have zeroed : SameLayout (s.zeroStep step rl mapped.lcn).file
                (({ s with file := g } : FallocState).zeroStep step rl mapped.lcn).file :=
              ⟨same.clusterBits, same.size, same.initializedSize, rfl⟩
            split at ok
            · rename_i signalled
              cases ok
              rw [if_pos signalled]
              exact ⟨_, zeroed, rfl⟩
            · rename_i goesOn
              rw [if_neg goesOn]
              exact ih zeroed ok
          · cases ok
      · cases ok

/-- What the loop over the runs does to another content. -/
theorem fillHoles_layout (same : SameLayout s.file g)
    (ok : fillHoles rlHint vcnUninit steps s vcn = some loop) :
    ∃ g', SameLayout loop.state.file g' ∧
      fillHoles rlHint vcnUninit steps { s with file := g } vcn =
        some { loop with state := { loop.state with file := g' } } := by
  generalize measure : vcnUninit - vcn = m
  induction m using Nat.strong_induction_on generalizing s g steps vcn with
  | _ m ih =>
    rw [fillHoles] at ok ⊢
    split at ok
    · rename_i more
      rw [if_pos more]
      dsimp only
      rw [same.rl]
      split at ok
      · cases ok
        exact ⟨g, same, rfl⟩
      rename_i i found
      generalize elementAt s.file.rl i = run at ok ⊢
      dsimp only at ok ⊢
      split at ok
      · rename_i real
        rw [if_pos real]
        split at ok
        · rename_i further
          rw [if_pos further]
          exact ih _ (by omega) same ok rfl
        · cases ok
      rename_i unreal
      rw [if_neg unreal]
      split at ok
      · rename_i delayed
        rw [if_pos delayed]
        split at ok
        · rename_i further
          rw [if_pos further]
          exact ih _ (by omega) same ok rfl
        · cases ok
      · rename_i notDelayed
        rw [if_neg notDelayed]
        split at ok
        · rename_i isHole
          rw [if_pos isHole]
          split at ok
          · cases ok
          rename_i inner fills
          obtain ⟨g', sameInner, fillsToo⟩ := fillHole_layout same fills
          rw [fillsToo]
          dsimp only
          split at ok
          · rename_i out
            cases ok
            rw [if_pos out]
            exact ⟨g', sameInner, rfl⟩
          · rename_i stays
            rw [if_neg stays]
            split at ok
            · rename_i further
              rw [if_pos further]
              exact ih _ (by omega) sameInner ok rfl
            · cases ok
        · rename_i notHole
          cases ok
          rw [if_neg notHole]
          exact ⟨g, same, rfl⟩
    · rename_i reached
      cases ok
      rw [if_neg reached]
      exact ⟨g, same, rfl⟩

/-- What the second loop does to another content. -/
theorem allocBehind_layout {steps : List BehindStep} {s' : FallocState} {out : Bool}
    (same : SameLayout s.file g)
    (ok : allocBehind rlHint steps s vcn n = some (s', out)) :
    ∃ g', SameLayout s'.file g' ∧
      allocBehind rlHint steps { s with file := g } vcn n = some ({ s' with file := g' }, out) := by
  induction steps generalizing s g vcn n with
  | nil =>
    cases n with
    | zero =>
      rw [allocBehind] at ok
      cases ok
      exact ⟨g, same, rfl⟩
    | succ n =>
      rw [allocBehind] at ok
      cases ok
  | cons step steps ih =>
    cases n with
    | zero =>
      rw [allocBehind] at ok
      cases ok
    | succ n =>
      rw [allocBehind] at ok ⊢
      split at ok
      · rename_i here
        rw [if_pos here]
        dsimp only
        rw [same.rl]
        split at ok
        · cases ok
        · rename_i rl err mapsTo
          split at ok
          · rename_i last
            cases ok
            rw [if_pos last]
            exact ⟨{ g with rl := rl },
              ⟨same.clusterBits, same.size, same.initializedSize, rfl⟩, rfl⟩
          · cases ok
        · rename_i rl mapped mapsTo
          have allocated : SameLayout (s.allocStep step rl).file
              (({ s with file := g } : FallocState).allocStep step rl).file :=
            ⟨same.clusterBits, same.size, same.initializedSize, rfl⟩
          split at ok
          · rename_i signalled
            rw [if_pos signalled]
            split at ok
            · rename_i last
              cases ok
              rw [if_pos last]
              exact ⟨_, allocated, rfl⟩
            · cases ok
          · rename_i goesOn
            rw [if_neg goesOn]
            exact ih allocated ok
      · cases ok

/-- How the clusters are allocated does not depend on the contents. -/
theorem allocateClusters_layout (same : SameLayout f g)
    (ok : allocateClusters f offset len course = some (h, err)) :
    ∃ h', SameLayout h h' ∧ allocateClusters g offset len course = some (h', err) := by
  have up (bytes : Nat) : bytesToClusterUp g bytes = bytesToClusterUp f bytes := by
    rw [bytesToClusterUp, bytesToClusterUp, SameLayout.unit same]
  rw [allocateClusters] at ok ⊢
  rw [up, up, SameLayout.unit same, same.initializedSize]
  split at ok
  · cases ok
  rename_i loop loops
  obtain ⟨g', sameLoop, loopsToo⟩ :=
    @fillHoles_layout g ⟨f, course.runlistDirty, none⟩ _ _ _ _ _ same loops
  rw [loopsToo]
  dsimp only
  split at ok
  · rename_i noRest
    rw [if_pos noRest]
    split at ok
    · rename_i out
      rw [if_pos out]
      split at ok
      · rename_i noBehind
        cases ok
        rw [if_pos noBehind]
        exact ⟨g', sameLoop, rfl⟩
      · cases ok
    · rename_i stays
      rw [if_neg stays]
      split at ok
      · cases ok
      · rename_i s' behinds
        cases ok
        obtain ⟨h', sameToo, behindsToo⟩ := allocBehind_layout sameLoop behinds
        rw [behindsToo]
        exact ⟨h', sameToo, rfl⟩
      · rename_i s' behinds
        cases ok
        obtain ⟨h', sameToo, behindsToo⟩ := allocBehind_layout sameLoop behinds
        rw [behindsToo]
        exact ⟨h', sameToo, rfl⟩
  · cases ok

end Shapes

section Necessity

variable {data before after : FileData} {f : CachedFile} {offset len : Nat} {keep : Bool}
  {course : FallocCourse}

/-- The same file with nothing in the cache and ones on the device. -/
def blank : FileData → FileData
  | .resident r => .resident r
  | .nonResident f => .nonResident (plain f 1)

theorem blank_shape (data : FileData) : SameShape data (blank data) := by
  cases data with
  | resident r => exact ⟨rfl, rfl⟩
  | nonResident f => exact plain_layout f 1

theorem blank_settled (data : FileData) : Settled (blank data) := by
  cases data with
  | resident r => trivial
  | nonResident f => exact ⟨plain_agree f 1, nofun⟩

theorem SameLayout.symm {g : CachedFile} (same : SameLayout f g) : SameLayout g f :=
  ⟨same.clusterBits.symm, same.size.symm, same.initializedSize.symm, same.rl.symm⟩

theorem SameShape.symm (shape : SameShape data before) : SameShape before data := by
  cases data with
  | resident r =>
    cases before with
    | resident r' => exact ⟨shape.1.symm, shape.2.symm⟩
    | nonResident g => exact shape.elim
  | nonResident f =>
    cases before with
    | resident r' => exact shape.elim
    | nonResident g => exact SameLayout.symm shape

theorem SameShape.size (shape : SameShape data before) : before.size = data.size := by
  cases data with
  | resident r =>
    cases before with
    | resident r' => exact shape.2
    | nonResident g => exact shape.elim
  | nonResident f =>
    cases before with
    | resident r' => exact shape.elim
    | nonResident g => exact CachedFile.SameLayout.size shape

theorem converted_layout {r r' : ResidentValue} (extents : List Extent)
    (bits : r'.clusterBits = r.clusterBits)
    (length : r'.value.length = r.value.length) :
    SameLayout (ntfsAttrMakeNonResident r extents) (ntfsAttrMakeNonResident r' extents) :=
      ⟨bits, length, length, rfl⟩

/-- How a file grows does not depend on its contents. -/
theorem SameShape.grown (shape : SameShape data before)
    (grown : ntfsAttrFallocate.grown data offset len keep course = some (.nonResident f, none)) :
    ∃ g, SameLayout f g ∧
      ntfsAttrFallocate.grown before offset len keep course = some (.nonResident g, none) ∧
      ∀ f₀ g₀, data = .nonResident f₀ → before = .nonResident g₀ →
        g.cache = g₀.cache ∧ g.device = g₀.device ∧ f.initializedSize = f₀.initializedSize := by
  rw [ntfsAttrFallocate.grown] at grown ⊢
  rw [shape.size]
  split at grown
  · rename_i larger
    rw [if_pos larger]
    cases data with
    | resident r =>
      cases before with
      | nonResident g₀ => exact shape.elim
      | resident r' =>
        cases how : course.truncate with
        | fails failure =>
          rw [how] at grown
          cases grown
        | expanded rl =>
          rw [how] at grown
          cases grown
        | resized =>
          rw [how] at grown
          simp only [ntfsAttrTruncate] at grown
          split at grown
          · split at grown
            · cases grown
            · cases grown
          · cases grown
        | converted extents expand =>
          rw [how] at grown
          have layout := converted_layout extents shape.1 shape.2
          cases expand with
          | error failure => cases grown
          | ok rl =>
            cases keep with
            | false =>
              cases grown
              exact ⟨{ ntfsAttrMakeNonResident r' extents with size := offset + len, rl := rl },
                ⟨layout.clusterBits, rfl, layout.initializedSize, rfl⟩, rfl,
                  fun _ _ isFile => by cases isFile⟩
            | true =>
              simp only [ntfsAttrTruncate, if_true] at grown ⊢
              split at grown
              · cases grown
              · cases grown
                exact ⟨{ ntfsAttrMakeNonResident r' extents with size := r.value.length, rl := rl },
                  ⟨layout.clusterBits, rfl, layout.initializedSize, rfl⟩, rfl,
                    fun _ _ isFile => by cases isFile⟩
    | nonResident f₀ =>
      cases before with
      | resident r' => exact shape.elim
      | nonResident g₀ =>
        cases how : course.truncate with
        | fails failure | resized | converted extents expand =>
          rw [how] at grown
          cases grown
        | expanded rl =>
          rw [how] at grown
          cases keep with
          | false =>
            cases grown
            refine ⟨{ g₀ with size := offset + len, rl := rl },
              ⟨shape.clusterBits, rfl, shape.initializedSize, rfl⟩, rfl,
              fun f₁ g₁ isFile isOther => ?_⟩
            cases isFile
            cases isOther
            exact ⟨rfl, rfl, rfl⟩
          | true =>
            simp only [ntfsAttrTruncate, if_true] at grown ⊢
            split at grown
            · cases grown
            · cases grown
              refine ⟨{ g₀ with size := f₀.size, rl := rl },
                ⟨shape.clusterBits, rfl, shape.initializedSize, rfl⟩, rfl,
                fun f₁ g₁ isFile isOther => ?_⟩
              cases isFile
              cases isOther
              exact ⟨rfl, rfl, rfl⟩
  · rename_i larger
    cases grown
    rw [if_neg larger]
    cases before with
    | resident r' => exact shape.elim
    | nonResident g₀ =>
      refine ⟨g₀, shape, rfl, fun f₁ g₁ isFile isOther => ?_⟩
      cases isFile
      cases isOther
      exact ⟨rfl, rfl, rfl⟩

/-- A file with other contents can be preallocated as well. -/
theorem SameShape.valid (shape : SameShape data before)
    (valid : Preallocatable data offset len keep course) :
    Preallocatable before offset len keep course := by
  have sizes := shape.size
  refine ⟨fun r' isResident => ?_, fun g₀ isFile => ?_, fun g grown => ?_⟩
  · subst isResident
    cases data with
    | nonResident f₀ => exact shape.elim
    | resident r =>
      obtain ⟨short, convert⟩ := valid.resident r rfl
      refine ⟨by rw [shape.2]; exact short, fun larger extents expand how => ?_⟩
      obtain ⟨sound, extend⟩ := convert (by rw [← sizes]; exact larger) extents expand how
      have layout := converted_layout extents shape.1 shape.2
      refine ⟨⟨sound.whole, sound.once, ?_, le_refl _⟩, fun rl isRunlist => ?_⟩
      · rw [layout.size, layout.rl, SameLayout.unit layout]
        exact sound.covered
      · have ext := extend rl isRunlist
        exact ⟨ext.whole, ext.once, by rw [SameLayout.unit layout]; exact ext.reached, ext.same⟩
  · subst isFile
    cases data with
    | resident r => exact shape.elim
    | nonResident f₀ =>
      obtain ⟨sound, extend⟩ := valid.nonResident f₀ rfl
      have layout : SameLayout f₀ g₀ := shape
      refine ⟨⟨by rw [layout.rl]; exact sound.whole, by rw [layout.rl]; exact sound.once, ?_, ?_⟩,
        fun larger rl how => ?_⟩
      · rw [layout.size, layout.rl, SameLayout.unit layout]
        exact sound.covered
      · rw [layout.size, layout.initializedSize]
        exact sound.initialized
      · have ext := extend (by rw [← sizes]; exact larger) rl how
        refine ⟨ext.whole, ext.once,
          by rw [SameLayout.unit layout]; exact ext.reached, fun v inside => ?_⟩
        rw [layout.rl] at inside ⊢
        exact ext.same v inside
  · obtain ⟨f, same, grownData, _⟩ := shape.symm.grown grown
    rw [← same.rl]
    exact valid.fresh f grownData

/-- Whether a course is careful does not depend on the contents. -/
theorem SameShape.careful (shape : SameShape data before)
    (careful : Careful data offset len keep course) :
    Careful before offset len keep course := by
  intro accepted prepared g grown
  obtain ⟨f, same, grownData, _⟩ := shape.symm.grown grown
  obtain ⟨zeroes, completes⟩ := careful accepted prepared f grownData
  have unit : f.clusterLength = g.clusterLength := SameLayout.unit same
  refine ⟨fun step listed b inside allocated => ?_, fun quiet interrupted v least most => ?_⟩
  · rw [Zeroes, ← unit]
    rw [← unit] at allocated
    exact zeroes step listed b (by rw [same.limit]; exact inside) allocated
  · rw [← same.rl]
    refine completes (fun fails => quiet ⟨fails.1, by rw [shape.size]; exact fails.2.1, by
      rw [shape.size]
      exact fails.2.2.1, fails.2.2.2⟩) interrupted v (by rw [unit]; exact least) ?_
    rw [bytesToClusterUp, unit]
    exact most

/-- A value that has been converted has clusters for all its bytes. -/
theorem resident_mapped {r : ResidentValue} {b : Nat}
    (valid : Preallocatable (.resident r) offset len keep course)
    (grown : ntfsAttrFallocate.grown (.resident r) offset len keep course =
      some (.nonResident f, none))
    (inside : b < f.limit) : 0 ≤ ntfsRlVcnToLcn f.rl (b / f.clusterLength) := by
  obtain ⟨_, convert⟩ := valid.resident r rfl
  rw [ntfsAttrFallocate.grown] at grown
  split at grown
  · rename_i larger
    cases how : course.truncate with
    | fails failure =>
      rw [how] at grown
      cases grown
    | expanded rl =>
      rw [how] at grown
      cases grown
    | resized =>
      rw [how] at grown
      simp only [ntfsAttrTruncate] at grown
      split at grown
      · split at grown
        · cases grown
        · cases grown
      · cases grown
    | converted extents expand =>
      rw [how] at grown
      obtain ⟨sound, extend⟩ := convert larger extents expand how
      cases expand with
      | error failure => cases grown
      | ok rl =>
        have parts : f.initializedSize = r.value.length ∧
            f.clusterBits = r.clusterBits ∧ f.rl = rl := by
          simp only [ntfsAttrTruncate] at grown
          split at grown
          · split at grown
            · cases grown
            · cases grown
              exact ⟨rfl, rfl, rfl⟩
          · cases grown
            exact ⟨rfl, rfl, rfl⟩
        have unit : f.clusterLength = (ntfsAttrMakeNonResident r extents).clusterLength :=
          congrArg (2 ^ ·) parts.2.1
        have covered := sound.covered
        have clusters : rlClusters (ntfsAttrMakeNonResident r extents).rl =
            extentClusters extents := by
          rw [ntfsAttrMakeNonResident, rlClusters_append, extentRuns_clusters]
          rfl
        have within : b < r.value.length := by
          rw [CachedFile.limit, parts.1] at inside
          omega
        have cluster : b / f.clusterLength < extentClusters extents := by
          rw [clusters, ← unit] at covered
          exact (Nat.div_lt_iff_lt_mul f.clusterLength_pos).mpr (within.trans_le covered)
        rw [parts.2.2, (extend rl rfl).same _ (by rw [clusters]; exact cluster)]
        exact real_extent cluster
  · cases grown

/-- What a preallocation ends with where it gets to allocating clusters. -/
theorem vfs_end {g : CachedFile} {err : Option ErrorCode} (accepted : course.refused = none)
    (prepared : course.prepare = none)
    (grown : ntfsAttrFallocate.grown data offset len keep course = some (.nonResident f, none))
    (allocates : allocateClusters f offset len course = some (g, err)) (agree : g.Agree)
    (once : MapsOnce g.rl) :
    ∃ h err', ntfsVfsFallocate data offset len keep course = some (.nonResident h, err') ∧
      SameLayout g h ∧
      (∀ b < g.size, b < data.size → h.visible b = g.visible b) ∧
      (err = none → ¬ TailFails data offset keep course → err' = none) := by
  have called : ntfsAttrFallocate data offset len keep course = some (.nonResident g, err) := by
    rw [ntfsAttrFallocate, prepared, grown]
    exact congrArg (Option.map _) allocates
  rw [ntfsVfsFallocate, accepted, called]
  dsimp only
  cases err with
  | some failure => exact ⟨g, _, rfl, .refl g, fun _ _ _ => rfl, fun ended => by cases ended⟩
  | none =>
    dsimp only
    split
    · rename_i behind
      cases tail : course.tail with
      | some failure =>
        exact ⟨g, _, rfl, .refl g, fun _ _ _ => rfl, fun _ quiet =>
          absurd ⟨behind.1, behind.2.1,
            behind.2.2, by rw [tail]; exact Option.some_ne_none failure⟩ quiet⟩
      | none =>
        have shows_ := zeroRange_shows once agree data.size
          (data.size + min (pageLength - data.size % pageLength) (offset - data.size))
        refine ⟨_, _, rfl, shows_.layout, fun b inside old => ?_, fun _ _ => rfl⟩
        rw [shows_.shown b inside, if_neg (by omega)]
    · exact ⟨g, _, rfl, .refl g, fun _ _ _ => rfl, fun _ _ => rfl⟩

/-- Where the promise is always kept, the course is careful. -/
theorem careful_of_always (valid : Preallocatable data offset len keep course)
    (fits : (ntfsVfsFallocate data offset len keep course).isSome = true)
    (always : AlwaysPreallocated data offset len keep course) :
      Careful data offset len keep course := by
  intro accepted prepared f grown
  obtain ⟨g, same, grownToo, contents⟩ := (blank_shape data).grown grown
  obtain ⟨bytes, _, ready⟩ :=
    grown_bytes ((blank_shape data).valid valid) (blank_settled data) grownToo
  obtain ⟨isReady, initialized⟩ := ready g rfl rfl
  -- the clusters are allocated for these contents as well
  obtain ⟨⟨reference, err⟩, allocates⟩ :
      ∃ result, allocateClusters f offset len course = some result := by
    rw [ntfsVfsFallocate, accepted, ntfsAttrFallocate, prepared, grown] at fits
    cases allocates : allocateClusters f offset len course with
    | none => simp [allocates] at fits
    | some result => exact ⟨result, rfl⟩
  obtain ⟨last, _, allocatesToo⟩ := allocateClusters_layout same allocates
  obtain ⟨progress, interruptedOk, behind, _⟩ := allocateClusters_passed isReady allocatesToo
  have limits : g.limit = f.limit := same.limit
  have sound (agree : last.Agree) :=
    vfs_end accepted prepared grownToo allocatesToo agree progress.once
  have zeroesAll : ZeroesAll f course := by
    intro step listed b inside allocated
    have alloc : Allocates course (b / g.clusterLength) := by
      rw [SameLayout.unit same]
      exact .inl ⟨step, listed, allocated⟩
    cases data with
    | resident r =>
      have mapped := resident_mapped valid grown inside
      have hole := (progress.filled _ alloc).1
      rw [same.rl, SameLayout.unit same] at hole
      rw [hole] at mapped
      exact absurd mapped (by decide)
    | nonResident f₀ =>
      obtain ⟨noCache, device, initSame⟩ := contents f₀ (plain f₀ 1) rfl rfl
      by_contra left
      have left : ¬ Zeroes g course b := by
        rw [Zeroes, SameLayout.unit same]
        exact left
      obtain ⟨clear, a, ones⟩ := progress.exposed (by rw [limits]; exact inside) alloc left
      have empty (index : Nat) : last.cache index = none := by
        rw [progress.cache, noCache]
        rfl
      obtain ⟨h, err', called, layout, seen, _⟩ := sound fun index page cached => by
        rw [empty] at cached
        cases cached
      have old : b < (blank (.nonResident f₀)).size := by
        obtain ⟨start, _⟩ := valid.nonResident f₀ rfl
        rw [CachedFile.limit, initSame] at inside
        exact ((lt_min_iff.mp inside).1).trans_le start.initialized
      have kept := ((always _ (blank_shape _) (blank_settled _) _ _ called).kept b old).1
      have within : b < last.size := by
        rw [progress.size, same.size]
        exact (lt_min_iff.mp inside).2
      have shown : last.visible b = 1 := by
        rw [CachedFile.visible, empty]
        dsimp only
        rw [ones, device]
        rfl
      have before : (blank (.nonResident f₀)).visible b = 0 := by
        rw [← bytes.kept b old]
        change g.visible b = 0
        rw [CachedFile.visible, noCache]
        exact clear
      rw [before] at kept
      have : h.visible b = 0 := kept
      rw [seen b within old, shown] at this
      exact absurd this (by decide)
  refine ⟨zeroesAll, fun quiet interrupted v least most => ?_⟩
  have cleared : ∀ b < g.limit, Allocates course (b / g.clusterLength) → Zeroes g course b := by
    rintro b inside (⟨step, listed, allocated⟩ | ⟨step, listed, allocated⟩)
    · rw [SameLayout.unit same] at allocated
      have zeroed := zeroesAll step listed b (by rw [← limits]; exact inside) allocated
      rw [Zeroes, SameLayout.unit same]
      exact zeroed
    · have above := behind step listed _ allocated
      have := Nat.div_mul_le_self b g.clusterLength
      have limit : g.limit = g.initializedSize := min_eq_left initialized
      omega
  obtain ⟨h, err', called, layout, _, final⟩ := sound (progress.agree cleared bytes.settled.1)
  have noError := final (interruptedOk interrupted) fun fails => quiet ⟨fails.1, by
    rw [← (blank_shape data).size]
    exact fails.2.1, by
    rw [← (blank_shape data).size]
    exact fails.2.2.1, fails.2.2.2⟩
  have all := (always _ (blank_shape _) (blank_settled _) _ _ called).allocated noError
  have unit : h.clusterLength = f.clusterLength := by
    rw [SameLayout.unit layout, progress.unit, SameLayout.unit same]
  have mapped := all v (by rw [unit]; exact least) (by
    rw [bytesToClusterUp, unit]
    exact most)
  rw [layout.rl] at mapped
  by_cases allocated : Allocates course v
  · exact .inr allocated
  · rw [progress.others v allocated, same.rl] at mapped
    exact .inl mapped

end Necessity

/-- Whatever the device and the pages have, preallocation keeps its promise just when every
cluster that is allocated below the initialized size is zeroed before the call returns, and no
signal is pending while clusters of the range are still to be allocated. -/
theorem fallocate_preallocates_iff {data : FileData} {offset len : Nat} {keep : Bool}
    {course : FallocCourse}
    (valid : Preallocatable data offset len keep course)
    (fits : (ntfsVfsFallocate data offset len keep course).isSome = true) :
    AlwaysPreallocated data offset len keep course ↔ Careful data offset len keep course :=
  ⟨careful_of_always valid fits, fun careful _ shape settled _ _ ok =>
    preallocated_of_careful (shape.valid valid) settled (shape.careful careful) ok⟩

/-- A file of two clusters, the second of which is a hole, on a device that has ones everywhere. -/
def holedFile : CachedFile where
  clusterBits := 12
  size := 8192
  initializedSize := 8192
  rl := [⟨0, 100, 1⟩, ⟨1, lcnHole, 1⟩, ⟨2, lcnEnoent, 0⟩]
  device := fun _ => 1
  cache := fun _ => none

/-- The hole is allocated, and how its zeroing goes. -/
def holedCourse (zero : Option (ErrorCode × Nat)) : FallocCourse where
  refused := none
  prepare := none
  truncate := .resized
  lookupAgain := none
  rlHint := fun _ => 0
  runlistDirty := false
  holes := [⟨1, 1, .allocated ⟨200, 1, by decide⟩ [] none, zero, false⟩]
  behind := []
  update := none
  tail := none

theorem holedFile_lookup (v : Nat) :
    ntfsRlVcnToLcn holedFile.rl v = if v = 0 then 100 else if v = 1 then -2 else -4 := by
  rcases v with _ | _ | v
  · rfl
  · rfl
  · simp [holedFile, ntfsRlVcnToLcn, rlScan, lcnEnoent]

/-- The file can be preallocated, whether the zeroing fails or not. -/
theorem holedFile_valid (zero : Option (ErrorCode × Nat)) :
    Preallocatable (.nonResident holedFile) 4096 4096 true (holedCourse zero) := by
  refine ⟨nofun, fun f isFile => ?_, fun f grown => ?_⟩
  · cases isFile
    refine ⟨⟨⟨[⟨0, 100, 1⟩, ⟨1, lcnHole, 1⟩], ⟨2, lcnEnoent, 0⟩, rfl,
      ⟨rfl, by decide, rfl, by decide, trivial⟩,
      by decide, rfl, rfl, rfl⟩, fun v v' real same => ?_,
      by decide, by decide⟩, fun larger => absurd larger (by decide)⟩
    rw [holedFile_lookup] at real
    rw [holedFile_lookup, holedFile_lookup] at same
    split at real
    · split at same
      · split at same
        · omega
        · split at same <;> omega
      · omega
    · split at real <;> omega
  · have same : f = holedFile := by
      cases grown
      rfl
    subst same
    refine ⟨fun extent listed i inside v => ?_, List.pairwise_singleton _ _⟩
    obtain rfl := List.mem_singleton.mp listed
    rw [holedFile_lookup]
    split
    · dsimp only
      omega
    · split <;> omega

/-- Where the zeroing of the hole fails, preallocation returns without an error, and the file has
what the device had. -/
theorem fallocate_exposes_device : Preallocatable (.nonResident holedFile) 4096 4096 true
    (holedCourse (some (codeIo, 0))) ∧
    Settled (.nonResident holedFile) ∧ ∃ after,
      ntfsVfsFallocate (.nonResident holedFile) 4096 4096 true (holedCourse (some (codeIo, 0))) =
        some (after, none) ∧
        ¬ Preallocated (.nonResident holedFile) after 4096 4096 true none := by
  have settled : Settled (.nonResident holedFile) := ⟨fun _ _ cached => (by cases cached), nofun⟩
  refine ⟨holedFile_valid _, settled, ?_⟩
  have run : (ntfsVfsFallocate (.nonResident holedFile) 4096 4096 true
    (holedCourse (some (codeIo, 0)))).map
      (fun result => (result.2, result.1.visible 4096)) = some (none, 1) := by decide +kernel
  obtain ⟨⟨after, err⟩, called, seen⟩ := Option.map_eq_some_iff.mp run
  obtain ⟨rfl, one⟩ := Prod.mk.inj seen
  refine ⟨after, called, fun promise => ?_⟩
  have kept := (promise.kept 4096 (by decide)).1
  rw [one] at kept
  exact absurd kept (by decide +kernel)

/-- Where nothing fails, the promise is kept for the same file. -/
theorem fallocate_preallocates_hole : AlwaysPreallocated (.nonResident holedFile) 4096 4096 true
    (holedCourse none) := by
  refine (fallocate_preallocates_iff (holedFile_valid none) (by decide +kernel)).mpr
    fun _ _ f grown => ?_
  have same : f = holedFile := by
    cases grown
    rfl
  subst same
  refine ⟨fun step listed b inside allocated => ?_, fun _ interrupted => ?_⟩
  · obtain rfl := List.mem_singleton.mp listed
    refine ⟨_, List.mem_singleton_self _, rfl, ?_⟩
    obtain ⟨lower, upper⟩ := allocated
    change 1 ≤ b / 4096 at lower
    change b / 4096 < 1 + 1 at upper
    change 1 * 4096 ≤ b ∧ b < 1 * 4096 + 1 * 4096
    omega
  · rcases interrupted with ⟨step, listed, interrupts⟩ | ⟨step, listed, interrupts⟩
    · obtain rfl := List.mem_singleton.mp listed
      exact absurd interrupts.2.1 (by decide)
    · cases listed

end FileData

end Ttntfs.Vfs
