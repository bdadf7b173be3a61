import Ttntfs.Ntfs.PunchedRuns

/-!
# A punched hole

A hole is punched into a run list when the range has become a hole, everything else is
mapped as before, and the second list has just what the range was mapped to. The code
does this for every range that ends within the run list and cuts no delayed run.
-/

namespace Ttntfs.Ntfs

open Ttntfs.Library.SignedBytes

section Joins

variable {start : Nat} {runs rl joined : List RunlistElement} {terminator : RunlistElement}

theorem JoinsHoles.keeps (joins : JoinsHoles runs joined) : rlClusters joined = rlClusters runs ∧
    (RunsFrom start runs → RunsFrom start joined ∧ ∀ vcn, runsMap joined vcn = runsMap runs vcn) := by
  obtain ⟨before, behind, leftHole, rightHole⟩ := joins
  have hole : ¬ 0 ≤ lcnHole := by decide
  exact runs_merged before behind fun _ vcn _ => by simp only [lcnWithin, leftHole, rightHole, if_neg hole]

/-- The terminator takes no part in it. -/
theorem JoinsHoles.before_terminator (joins : JoinsHoles (runs ++ [terminator]) rl)
    (other : terminator.lcn ≠ lcnHole) : ∃ joined, rl = joined ++ [terminator] ∧ JoinsHoles runs joined := by
  generalize listed : runs ++ [terminator] = whole at joins
  obtain ⟨before, behind, leftHole, rightHole⟩ := joins
  rename_i left right
  obtain rfl | ⟨behind, last, rfl⟩ := List.eq_nil_or_concat' behind
  · have same : runs ++ [terminator] = (before ++ [left]) ++ [right] := by simp [listed]
    obtain ⟨_, rfl⟩ := List.append_inj' same rfl |>.imp id List.singleton_inj.mp
    exact absurd rightHole other
  · have same : runs ++ [terminator] = (before ++ left :: right :: behind) ++ [last] := by simp [listed]
    obtain ⟨rfl, rfl⟩ := List.append_inj' same rfl |>.imp id List.singleton_inj.mp
    exact ⟨_, by simp, .join before behind leftHole rightHole⟩

/-- Any number of holes. -/
theorem joinsHoles_keep (joins : Relation.ReflTransGen JoinsHoles (runs ++ [terminator]) rl)
    (other : terminator.lcn ≠ lcnHole) : ∃ joined, rl = joined ++ [terminator] ∧
      rlClusters joined = rlClusters runs ∧
      (RunsFrom start runs → RunsFrom start joined ∧ ∀ vcn, runsMap joined vcn = runsMap runs vcn) := by
  induction joins with
  | refl => exact ⟨runs, rfl, rfl, fun follow => ⟨follow, fun _ => rfl⟩⟩
  | tail _ once ih =>
    obtain ⟨between, rfl, clusters, kept⟩ := ih
    obtain ⟨joined, rfl, last⟩ := once.before_terminator other
    have keeps := @JoinsHoles.keeps start between joined last
    refine ⟨joined, rfl, keeps.1.trans clusters, fun follow => ?_⟩
    obtain ⟨first, same⟩ := kept follow
    obtain ⟨second, sameToo⟩ := keeps.2 first
    exact ⟨second, fun vcn => (sameToo vcn).trans (same vcn)⟩

end Joins

section Shape

variable {someMemory : Bool} {dstRl newRl punchRl runs : List RunlistElement} {start startVcn len newRlCnt : Nat}
  {terminator : RunlistElement}

/-- What the checks of `ntfs_rl_punch_hole` have found when it neither refuses nor lacks memory. -/
theorem ntfsRlPunchHole_checks {outcome : PunchOutcome}
    (punched : ntfsRlPunchHole someMemory dstRl startVcn len = outcome)
    (done : outcome ≠ .einval) (made : outcome ≠ .enomem) :
    ∃ s e endVcn : Nat, (elementAt dstRl (dstRl.length - 1)).lcn = lcnEnoent ∧
      (endVcn : Int) = min (s64 (startVcn + len - 1))
        ((elementAt dstRl (dstRl.length - 2)).vcn + (elementAt dstRl (dstRl.length - 2)).length - 1) ∧
      ntfsRlFindVcnNolock dstRl startVcn = some s ∧
      Holds (elementAt dstRl s) startVcn ∧ Holds (elementAt dstRl e) endVcn ∧
      (if e < s then .overrun else punchRuns dstRl s e startVcn len endVcn) = outcome := by
  rw [ntfsRlPunchHole] at punched
  simp only at punched
  split at punched
  · exact absurd punched.symm done
  rename_i ends
  split at punched
  · exact absurd punched.symm done
  rename_i s begins
  split at punched
  · exact absurd punched.symm done
  rename_i first
  split at punched
  · exact absurd punched.symm done
  rename_i e _
  split at punched
  · exact absurd punched.symm done
  · rename_i last
    split at punched
    · exact absurd punched.symm made
    · simp only [not_or, not_not, ntfsRleContain, Bool.and_eq_true, decide_eq_true_eq] at ends first last
      obtain ⟨_, ⟨lastSome, lastLower⟩, lastUpper⟩ := last
      obtain ⟨_, ⟨firstSome, firstLower⟩, firstUpper⟩ := first
      refine ⟨s, e, _, ends.2.1, Int.toNat_of_nonneg ?_, begins, ⟨by omega, by omega⟩,
        ⟨by omega, by omega⟩, punched⟩
      omega

theorem held_inside {i vcn : Nat} (ends : terminator.length = 0)
    (held : Holds (elementAt (runs ++ [terminator]) i) vcn) :
    i < runs.length ∧ elementAt (runs ++ [terminator]) i = elementAt runs i := by
  obtain ⟨lower, upper⟩ := held
  rcases Nat.lt_trichotomy i runs.length with inside | last | outside
  · exact ⟨inside, List.getD_append _ _ _ _ inside⟩
  · have found := elementAt_append runs terminator []
    rw [last, found] at lower upper
    omega
  · have nothing : elementAt (runs ++ [terminator]) i = emptyElement := by
      rw [elementAt, List.getD_eq_default]
      simp
      omega
    rw [nothing] at lower upper
    simp only [emptyElement] at lower upper
    omega

theorem last_vcn (follow : RunsFrom start runs) (some_run : runs ≠ []) :
    (elementAt (runs ++ [terminator]) ((runs ++ [terminator]).length - 2)).vcn +
      (elementAt (runs ++ [terminator]) ((runs ++ [terminator]).length - 2)).length = start + rlClusters runs := by
  obtain rfl | ⟨others, last, rfl⟩ := List.eq_nil_or_concat' runs
  · exact absurd rfl some_run
  · have found := elementAt_append others last [terminator]
    have place : (others ++ [last] ++ [terminator]).length - 2 = others.length := by simp
    rw [List.append_assoc, List.singleton_append] at place ⊢
    rw [place, found]
    obtain ⟨_, lastPlace, _⟩ := runsFrom_append.mp follow
    rw [rlClusters_append, rlClusters_cons, rlClusters_nil]
    omega

/-- The runs of a range, cut out of the others. -/
structure CutOut (start startVcn endVcn : Nat) (runs before trimmed behind : List RunlistElement)
    (sRl eRl : RunlistElement) : Prop where
  startHeld : Holds sRl startVcn
  endHeld : Holds eRl endVcn
  order : startVcn ≤ endVcn
  first : sRl ∈ runs
  last : eRl ∈ runs
  pieces : Recut start runs
    (before ++ frontPart sRl startVcn ++ (trimmed ++ (backPart eRl endVcn ++ behind)))
    ((sRl.lcn = lcnDelalloc → ¬ CutBy sRl startVcn) ∧ (eRl.lcn = lcnDelalloc → ¬ CutBy eRl (endVcn + 1)))
  begins : start + rlClusters (before ++ frontPart sRl startVcn) = startVcn
  clusters : rlClusters trimmed = endVcn + 1 - startVcn
  head : runsMap trimmed startVcn = some (lcnWithin (runFrom sRl startVcn) startVcn)

theorem frontPart_ends {before behind : List RunlistElement} {sRl : RunlistElement}
    (follow : RunsFrom start (before ++ sRl :: behind)) (held : Holds sRl startVcn) :
    start + rlClusters (before ++ frontPart sRl startVcn) = startVcn := by
  obtain ⟨_, place, _⟩ := runsFrom_append.mp follow
  obtain ⟨lower, _⟩ := held
  rw [rlClusters_append, frontPart]
  by_cases splits : beginSplit sRl startVcn
  · rw [if_pos splits, rlClusters_cons, rlClusters_nil]
    dsimp only
    omega
  · have same : sRl.vcn = startVcn := by simpa [beginSplit] using splits
    rw [if_neg splits, rlClusters_nil]
    omega

/-- A range in one run. -/
theorem cutOut_one {before behind : List RunlistElement} {sRl : RunlistElement} {endVcn : Nat}
    (follow : RunsFrom start (before ++ sRl :: behind)) (startHeld : Holds sRl startVcn) (endHeld : Holds sRl endVcn) (order : startVcn ≤ endVcn) :
    CutOut start startVcn endVcn (before ++ sRl :: behind) before
      [runUntil (runFrom sRl startVcn) (endVcn + 1)] behind sRl sRl := by
  have startBounds := startHeld
  obtain ⟨startLower, startUpper⟩ := startBounds
  have endBounds := endHeld
  obtain ⟨endLower, endUpper⟩ := endBounds
  have cutHeld : Holds (runFrom sRl startVcn) endVcn := by
    simp only [Holds, runFrom]
    omega
  have back : backPart (runFrom sRl startVcn) endVcn = backPart sRl endVcn := by
    have splits : endSplit (runFrom sRl startVcn) endVcn = endSplit sRl endVcn := by
      simp only [endSplit, runFrom]
      congr 2
      omega
    have lcn : lcnBeyond (runFrom sRl startVcn) (endVcn + 1 - startVcn) =
        lcnBeyond sRl (endVcn + 1 - sRl.vcn) := by
      by_cases mapped : lcnHole < sRl.lcn
      · have moved := @runFrom_lcn startVcn sRl mapped
        rw [lcnBeyond, moved, if_pos (by omega), lcnBeyond, if_pos mapped]
        omega
      · rw [lcnBeyond, runFrom_lcn_hole mapped, if_neg mapped, lcnBeyond, if_neg mapped]
    have length : (runFrom sRl startVcn).length - (endVcn + 1 - startVcn) =
        sRl.length - (endVcn + 1 - sRl.vcn) := by
      simp only [runFrom]
      omega
    rw [backPart, backPart, splits, ← lcn, ← length]
    rfl
  have front := @recut_front start startVcn sRl before behind startHeld
  have last := @recut_back start endVcn (runFrom sRl startVcn) (before ++ frontPart sRl startVcn) behind cutHeld
  rw [back] at last
  refine ⟨startHeld, endHeld, order, by simp, by simp, ?_, frontPart_ends follow startHeld, ?_, ?_⟩
  · have both := front.trans last
    refine ⟨both.follow, both.clusters, fun kept => both.maps ⟨kept.1, fun delayed cut => ?_⟩⟩
    refine kept.2 ?_ ⟨by omega, ?_⟩
    · by_cases mapped : lcnHole < sRl.lcn
      · rw [runFrom_lcn mapped] at delayed
        rw [lcnDelalloc] at delayed ⊢
        rw [lcnHole] at mapped
        omega
      · rw [← runFrom_lcn_hole mapped]
        exact delayed
    · obtain ⟨_, upper⟩ := cut
      simp only [runFrom] at upper
      omega
  · simp only [rlClusters_cons, rlClusters_nil, runUntil, runFrom]
    omega
  · have held : Holds (runUntil (runFrom sRl startVcn) (endVcn + 1)) startVcn := by
      simp only [Holds, runUntil, runFrom]
      omega
    rw [runsMap_cons, if_pos held, lcnWithin_runUntil]

/-- A range in more than one run. -/
theorem cutOut_many {before mid behind : List RunlistElement} {sRl eRl : RunlistElement} {endVcn : Nat}
    (follow : RunsFrom start (before ++ sRl :: (mid ++ eRl :: behind)))
    (startHeld : Holds sRl startVcn) (endHeld : Holds eRl endVcn) (order : startVcn ≤ endVcn) :
    CutOut start startVcn endVcn (before ++ sRl :: (mid ++ eRl :: behind)) before
      (runFrom sRl startVcn :: mid ++ [runUntil eRl (endVcn + 1)]) behind sRl eRl := by
  have startBounds := startHeld
  obtain ⟨startLower, startUpper⟩ := startBounds
  have endBounds := endHeld
  obtain ⟨endLower, endUpper⟩ := endBounds
  have front := @recut_front start startVcn sRl before (mid ++ eRl :: behind) startHeld
  have last := @recut_back start endVcn eRl
    (before ++ frontPart sRl startVcn ++ runFrom sRl startVcn :: mid) behind endHeld
  have shape : before ++ frontPart sRl startVcn ++ runFrom sRl startVcn :: (mid ++ eRl :: behind) =
      before ++ frontPart sRl startVcn ++ runFrom sRl startVcn :: mid ++ eRl :: behind := by simp
  rw [shape] at front
  refine ⟨startHeld, endHeld, order, by simp, by simp, ?_, frontPart_ends follow startHeld, ?_, ?_⟩
  · have both := front.trans last
    simpa using both
  · obtain ⟨_, firstPlace, _, others⟩ := runsFrom_append.mp follow
    obtain ⟨_, lastPlace, _⟩ := runsFrom_append.mp others
    simp only [List.cons_append, rlClusters_append, rlClusters_cons, rlClusters_nil, runUntil, runFrom]
    omega
  · have held : Holds (runFrom sRl startVcn) startVcn := by
      simp only [Holds, runFrom]
      omega
    rw [List.cons_append, runsMap_cons, if_pos held]

/-- The arrays of a punched run list. -/
theorem punchRuns_merged {before behind : List RunlistElement} {sRl eRl : RunlistElement} {s e endVcn : Nat}
    (covers : Covers (runs ++ [terminator]) s e before sRl eRl (behind ++ [terminator])) (ordered : s ≤ e)
    (punched : punchRuns (runs ++ [terminator]) s e startVcn len endVcn = .punched newRl punchRl newRlCnt) :
    ∃ right tail rightLength, backPart eRl endVcn ++ (behind ++ [terminator]) = right :: tail ∧
      (endSplit eRl endVcn → rightLength = eRl.length - (endVcn + 1 - eRl.vcn)) ∧
      punchedRl (runs ++ [terminator]) s e startVcn endVcn rightLength = punchRl ∧
      HoleMerged ⟨startVcn, lcnHole, len⟩ right tail (before ++ frontPart sRl startVcn) (newRl.take newRlCnt) := by
  have place := @Covers.length_front _ _ _ _ _ _ _ startVcn covers
  have holed := @Covers.holedRl_eq _ _ _ _ _ _ _ startVcn len endVcn
    ((runs ++ [terminator]).length - (e - s + 1) + 3) covers _ rfl
  have firstFound := covers.elementAt_first
  have lastFound := covers.elementAt_last
  have frontCount : (frontPart sRl startVcn).length = (beginSplit sRl startVcn).toNat := by
    rw [frontPart]
    cases beginSplit sRl startVcn <;> rfl
  have backCount : (backPart eRl endVcn).length = (endSplit eRl endVcn).toNat := by
    rw [backPart]
    cases endSplit eRl endVcn <;> rfl
  obtain ⟨rest, firstShape, firstPlace⟩ := covers.first
  obtain ⟨others, lastShape, lastPlace⟩ := covers.last
  have size : (runs ++ [terminator]).length = e + 1 + (behind.length + 1) := by
    rw [lastShape]
    simp
    omega
  rw [place] at holed
  rw [punchRuns, firstFound, lastFound, holed] at punched
  simp only [PunchOutcome.punched.injEq] at punched
  obtain ⟨newEq, punchEq, countEq⟩ := punched
  obtain ⟨right, tail, tailShape⟩ : ∃ right tail, backPart eRl endVcn ++ (behind ++ [terminator]) = right :: tail := by
    cases backPart eRl endVcn with
    | nil =>
      cases behind with
      | nil => exact ⟨_, _, rfl⟩
      | cons _ _ => exact ⟨_, _, rfl⟩
    | cons _ _ => exact ⟨_, _, rfl⟩
  have tailCount := congrArg List.length tailShape
  simp only [List.length_append, List.length_cons, List.length_nil, backCount] at tailCount
  rw [← place] at newEq punchEq countEq
  rw [tailShape] at newEq punchEq countEq
  generalize front : before ++ frontPart sRl startVcn = filled at newEq punchEq countEq place
  have frontSize : filled.length = s + (beginSplit sRl startVcn).toNat := by
    rw [← front, List.length_append, frontCount, firstPlace]
  generalize (runs ++ [terminator]).length = dstCnt at size newEq punchEq countEq
  generalize blankEq : List.replicate (dstCnt - (e - s + 1) + 3 - (filled.length + 1) -
    (right :: tail).length) emptyElement = blank at newEq punchEq countEq
  have blankSize := congrArg List.length blankEq
  rw [List.length_replicate, List.length_cons] at blankSize
  refine ⟨right, tail, _, tailShape, fun splits => ?_, punchEq, ?_⟩
  · have found : elementAt (filled ++ ⟨startVcn, lcnHole, len⟩ :: (right :: tail) ++ blank) (filled.length + 1) =
        right := by
      generalize (⟨startVcn, lcnHole, len⟩ : RunlistElement) = hole
      simpa using elementAt_append (filled ++ [hole]) right (tail ++ blank)
    rw [backPart, if_pos splits, List.singleton_append, List.cons.injEq] at tailShape
    rw [found, ← tailShape.1]
  · obtain ⟨joined, rest, merged, count, holes⟩ := @mergeHoles_merged filled tail blank
      ⟨startVcn, lcnHole, len⟩ right (dstCnt - (e - s + 1) + 3) (by
        have splits := Bool.toNat_le (endSplit eRl endVcn)
        have splitsToo := Bool.toNat_le (beginSplit sRl startVcn)
        simp only [List.length_append, List.length_cons]
        omega)
    have whole : newRl.take newRlCnt = joined := by
      rw [merged] at newEq
      have taken : newRlCnt = joined.length := by
        simp only [List.length_append, List.length_cons] at count
        omega
      rw [← newEq, taken, List.take_left]
    rw [whole]
    exact holes

/-- The arrays of a punched run list, by the runs that are cut out. -/
theorem punchRuns_eq {before trimmed behind : List RunlistElement} {sRl eRl : RunlistElement} {s e endVcn : Nat}
    (covers : Covers (runs ++ [terminator]) s e before sRl eRl (behind ++ [terminator])) (ordered : s ≤ e)
    (freed : ∀ rightLength, (endSplit eRl endVcn → rightLength = eRl.length - (endVcn + 1 - eRl.vcn)) →
      punchedRl (runs ++ [terminator]) s e startVcn endVcn rightLength = trimmed ++ [⟨endVcn + 1, lcnEnoent, 0⟩])
    (punched : punchRuns (runs ++ [terminator]) s e startVcn len endVcn = .punched newRl punchRl newRlCnt) :
    punchRl = trimmed ++ [⟨endVcn + 1, lcnEnoent, 0⟩] ∧
      Relation.ReflTransGen JoinsHoles
        (before ++ frontPart sRl startVcn ++ ⟨startVcn, lcnHole, len⟩ :: (backPart eRl endVcn ++ behind) ++
          [terminator]) (newRl.take newRlCnt) := by
  obtain ⟨right, tail, rightLength, shape, split, rfl, merged⟩ := punchRuns_merged covers ordered punched
  refine ⟨freed rightLength split, ?_⟩
  simpa [← shape] using merged.joins rfl

theorem s64_negative {n : Int} (large : 2 ^ 63 ≤ n) (bounded : n < 2 ^ 64) : s64 n < 0 := by
  have moved : s64 n = s64 (n - 2 ^ 64) := (Int.sub_bmod_right n (2 ^ 64)).symm
  rw [moved, s64_of_range ⟨by omega, by omega⟩]
  omega

/-- What `ntfs_rl_punch_hole` makes of a run list. -/
theorem ntfsRlPunchHole_shape (follow : RunsFrom start runs) (ends : terminator.length = 0)
    (words : start + rlClusters runs < 2 ^ 63) (startWord : startVcn < 2 ^ 63) (lenWord : len < 2 ^ 63)
    (some_vcn : 0 < len)
    (punched : ntfsRlPunchHole someMemory (runs ++ [terminator]) startVcn len = .punched newRl punchRl newRlCnt) :
    ∃ before trimmed behind sRl eRl endVcn, terminator.lcn = lcnEnoent ∧
      endVcn + 1 = min (startVcn + len) (start + rlClusters runs) ∧
      CutOut start startVcn endVcn runs before trimmed behind sRl eRl ∧
      punchRl = trimmed ++ [⟨endVcn + 1, lcnEnoent, 0⟩] ∧
      Relation.ReflTransGen JoinsHoles
        (before ++ frontPart sRl startVcn ++ ⟨startVcn, lcnHole, len⟩ :: (backPart eRl endVcn ++ behind) ++
          [terminator]) (newRl.take newRlCnt) := by
  obtain ⟨s, e, endVcn, last, stop, -, startHeld, endHeld, lists⟩ :=
    ntfsRlPunchHole_checks punched (by simp) (by simp)
  have ordered : s ≤ e := by
    by_contra later
    rw [if_pos (by omega)] at lists
    cases lists
  rw [if_neg (by omega)] at lists
  obtain ⟨startInside, startFound⟩ := held_inside ends startHeld
  obtain ⟨endInside, endFound⟩ := held_inside ends endHeld
  rw [startFound] at startHeld
  rw [endFound] at endHeld
  have some_run : runs ≠ [] := by
    rintro rfl
    simp at startInside
  have lastVcn := @last_vcn runs start terminator follow some_run
  have lastLcn : terminator.lcn = lcnEnoent := by
    have found := elementAt_append runs terminator []
    have place : (runs ++ [terminator]).length - 1 = runs.length := by simp
    rw [place, found] at last
    exact last
  obtain ⟨before, rest, shape, beforeCount⟩ := parts_at startInside
  obtain ⟨others, behind, lastShape, othersCount⟩ := parts_at endInside
  generalize elementAt runs s = sRl at *
  generalize elementAt runs e = eRl at *
  have startBound : startVcn < start + rlClusters runs := by
    obtain ⟨_, place, _⟩ := runsFrom_append.mp (shape ▸ follow)
    rw [shape, rlClusters_append, rlClusters_cons]
    have upper := startHeld.2
    omega
  have small : (startVcn + len : Int) - 1 < 2 ^ 63 := by
    by_contra large
    have negative := @s64_negative (startVcn + len - 1) (by omega) (by omega)
    omega
  rw [s64_of_range ⟨by omega, small⟩] at stop
  have endEq : endVcn + 1 = min (startVcn + len) (start + rlClusters runs) := by omega
  have order : startVcn ≤ endVcn := by omega
  obtain rfl | later := Nat.eq_or_lt_of_le ordered
  · have same : before = others ∧ sRl :: rest = eRl :: behind := by
      apply List.append_inj (shape.symm.trans lastShape)
      rw [beforeCount, othersCount]
    obtain ⟨rfl, tails⟩ := same
    obtain ⟨rfl, rfl⟩ := List.cons.inj tails
    have covers : Covers (runs ++ [terminator]) s s before sRl sRl (rest ++ [terminator]) :=
      ⟨⟨rest ++ [terminator], by rw [shape]; simp, beforeCount⟩,
        ⟨before, by rw [shape]; simp, beforeCount⟩⟩
    have made := @punchRuns_eq _ _ _ startVcn len _ terminator before
      [runUntil (runFrom sRl startVcn) (endVcn + 1)] rest sRl sRl s s endVcn covers (le_refl s)
      (fun rightLength right => @punchedRl_one (runs ++ [terminator]) before (rest ++ [terminator]) sRl s
        startVcn endVcn rightLength (by rw [shape]; simp) beforeCount startHeld endHeld order right) lists
    rw [shape] at follow ⊢
    exact ⟨before, _, rest, sRl, sRl, endVcn, lastLcn, by rw [← shape]; exact endEq,
      cutOut_one follow startHeld endHeld order, made⟩
  · obtain ⟨front, mid, othersShape, frontCount⟩ := @parts_at others s (by omega)
    have found : elementAt others s = sRl := by
      have heads : before ++ sRl :: rest = front ++ elementAt others s :: (mid ++ eRl :: behind) := by
        rw [← shape, lastShape]
        conv_lhs => rw [othersShape]
        simp
      have same := List.append_inj heads (by rw [beforeCount, frontCount])
      exact (List.cons.inj same.2).1.symm
    rw [found] at othersShape
    have midCount := congrArg List.length othersShape
    rw [othersCount, List.length_append, List.length_cons, frontCount] at midCount
    have whole : runs = front ++ sRl :: (mid ++ eRl :: behind) := by
      rw [lastShape, othersShape]
      simp
    have covers : Covers (runs ++ [terminator]) s e front sRl eRl (behind ++ [terminator]) :=
      ⟨⟨mid ++ eRl :: (behind ++ [terminator]), by rw [whole]; simp, frontCount⟩,
        ⟨others, by rw [lastShape]; simp, othersCount⟩⟩
    have made := @punchRuns_eq _ _ _ startVcn len _ terminator front
      (runFrom sRl startVcn :: mid ++ [runUntil eRl (endVcn + 1)]) behind sRl eRl s e endVcn covers ordered
      (fun rightLength _ => by
        rw [@punchedRl_many (runs ++ [terminator]) front mid (behind ++ [terminator]) sRl eRl s e startVcn endVcn
          rightLength (by rw [whole]; simp) frontCount (by omega) endHeld]
        simp) lists
    rw [whole] at follow ⊢
    exact ⟨front, _, behind, sRl, eRl, endVcn, lastLcn, by rw [← whole]; exact endEq,
      cutOut_many follow startHeld endHeld order, made⟩

end Shape

/-- A cluster is mapped by a run list. -/
def MapsTo (rl : List RunlistElement) (lcn : Int) : Prop := ∃ vcn, ntfsRlVcnToLcn rl vcn = lcn

/-- No cluster belongs to two vcns. -/
def MapsOnce (rl : List RunlistElement) : Prop :=
  ∀ vcn vcn', 0 ≤ ntfsRlVcnToLcn rl vcn → ntfsRlVcnToLcn rl vcn = ntfsRlVcnToLcn rl vcn' → vcn = vcn'

/-- A range of a run list that begins at a vcn has become a hole, and the second list has
what it was mapped to. -/
structure HolePunched (start startVcn len : Nat) (dstRl newRl punchRl : List RunlistElement) : Prop where
  contiguous : RlFrom start newRl
  clusters : rlClusters newRl = rlClusters dstRl
  hole : ∀ vcn, startVcn ≤ vcn → vcn < startVcn + len → vcn < start + rlClusters dstRl →
    ntfsRlVcnToLcn newRl vcn = lcnHole
  others : ∀ vcn, vcn < startVcn ∨ startVcn + len ≤ vcn →
    ntfsRlVcnToLcn newRl vcn = ntfsRlVcnToLcn dstRl vcn
  freed_contiguous : RlFrom startVcn punchRl
  freed : ∀ vcn, ntfsRlVcnToLcn punchRl vcn =
    if startVcn ≤ vcn ∧ vcn < startVcn + len then ntfsRlVcnToLcn dstRl vcn else lcnEnoent
  /-- Freeing the second list frees the clusters that are mapped no longer. -/
  frees : MapsOnce dstRl → ∀ lcn, 0 ≤ lcn → (MapsTo punchRl lcn ↔ MapsTo dstRl lcn ∧ ¬ MapsTo newRl lcn)

section Punch

variable {someMemory : Bool} {dstRl newRl punchRl runs : List RunlistElement} {start startVcn len newRlCnt : Nat}
  {terminator : RunlistElement}

/-- The clusters of the range are those that are mapped no longer. -/
theorem frees_unmapped (hole : ∀ vcn, startVcn ≤ vcn → vcn < startVcn + len →
      vcn < start + rlClusters dstRl → ntfsRlVcnToLcn newRl vcn = lcnHole)
    (others : ∀ vcn, vcn < startVcn ∨ startVcn + len ≤ vcn →
      ntfsRlVcnToLcn newRl vcn = ntfsRlVcnToLcn dstRl vcn)
    (freed : ∀ vcn, ntfsRlVcnToLcn punchRl vcn =
      if startVcn ≤ vcn ∧ vcn < startVcn + len then ntfsRlVcnToLcn dstRl vcn else lcnEnoent)
    (inside : startVcn + len ≤ start + rlClusters dstRl) (once : MapsOnce dstRl) {lcn : Int} (real : 0 ≤ lcn) :
    MapsTo punchRl lcn ↔ MapsTo dstRl lcn ∧ ¬ MapsTo newRl lcn := by
  have hole_negative : lcnHole < 0 := by decide
  have enoent_negative : lcnEnoent < 0 := by decide
  constructor
  · rintro ⟨vcn, mapped⟩
    rw [freed] at mapped
    split at mapped
    · rename_i range
      refine ⟨⟨vcn, mapped⟩, ?_⟩
      rintro ⟨other, still⟩
      by_cases covered : startVcn ≤ other ∧ other < startVcn + len
      · rw [hole other covered.1 covered.2 (by omega)] at still
        omega
      · rw [others other (by omega)] at still
        have same := once vcn other (by omega) (mapped.trans still.symm)
        omega
    · omega
  · rintro ⟨⟨vcn, mapped⟩, unmapped⟩
    by_cases covered : startVcn ≤ vcn ∧ vcn < startVcn + len
    · exact ⟨vcn, by rw [freed, if_pos covered, mapped]⟩
    · exact absurd ⟨vcn, by rw [others vcn (by omega), mapped]⟩ unmapped

/-- The map of the punched list, and that of the list to be freed, by the map of the pieces
the run list has been cut into. -/
theorem runsMap_punched {front trimmed rest : List RunlistElement}
    (follow : RunsFrom start (front ++ (trimmed ++ rest))) (range : rlClusters trimmed = len) (some_vcn : 0 < len)
    (begins : start + rlClusters front = startVcn) :
    RunsFrom start (front ++ ⟨startVcn, lcnHole, len⟩ :: rest) ∧ RunsFrom startVcn trimmed ∧
      rlClusters (front ++ ⟨startVcn, lcnHole, len⟩ :: rest) = rlClusters (front ++ (trimmed ++ rest)) ∧
      ∀ vcn, (startVcn ≤ vcn ∧ vcn < startVcn + len →
          runsMap (front ++ ⟨startVcn, lcnHole, len⟩ :: rest) vcn = some lcnHole ∧
            runsMap trimmed vcn = runsMap (front ++ (trimmed ++ rest)) vcn) ∧
        (vcn < startVcn ∨ startVcn + len ≤ vcn →
          runsMap (front ++ ⟨startVcn, lcnHole, len⟩ :: rest) vcn = runsMap (front ++ (trimmed ++ rest)) vcn ∧
            runsMap trimmed vcn = none) := by
  obtain ⟨first, others⟩ := runsFrom_append.mp follow
  rw [begins] at others
  obtain ⟨middle, last⟩ := runsFrom_append.mp others
  rw [range] at last
  refine ⟨?_, middle, ?_, fun vcn => ⟨fun covered => ?_, fun outside => ?_⟩⟩
  · rw [runsFrom_append, begins]
    exact ⟨first, rfl, some_vcn, last⟩
  · simp only [rlClusters_append, rlClusters_cons, range]
  · have before := @RunsFrom.outside _ vcn _ first (.inr (by omega))
    have behind := @RunsFrom.outside _ vcn _ last (.inl (by omega))
    have held : Holds ⟨startVcn, lcnHole, len⟩ vcn := covered
    constructor
    · rw [runsMap_append, before, Option.none_or, runsMap_cons, if_pos held]
      rfl
    · rw [runsMap_append, runsMap_append, before, behind, Option.none_or, Option.or_none]
  · have unheld : ¬ Holds ⟨startVcn, lcnHole, len⟩ vcn := by
      simp only [Holds]
      omega
    have nothing := @RunsFrom.outside _ vcn _ middle (by rw [range]; omega)
    constructor
    · rw [runsMap_append, runsMap_append, runsMap_append, runsMap_cons, if_neg unheld, nothing, Option.none_or]
    · exact nothing

/-- The two lists when the range ends within the run list: what they map, by the map of the
pieces the run list has been cut into. -/
structure ListsPunched (start startVcn len : Nat) (pieces newRl punchRl : List RunlistElement) : Prop where
  contiguous : RlFrom start newRl
  clusters : rlClusters newRl = rlClusters pieces
  freed_contiguous : RlFrom startVcn punchRl
  covered : ∀ vcn, startVcn ≤ vcn → vcn < startVcn + len → ntfsRlVcnToLcn newRl vcn = lcnHole ∧
    ntfsRlVcnToLcn punchRl vcn = (runsMap pieces vcn).getD lcnEnoent
  outside : ∀ vcn, vcn < startVcn ∨ startVcn + len ≤ vcn →
    ntfsRlVcnToLcn newRl vcn = (runsMap pieces vcn).getD lcnEnoent ∧ ntfsRlVcnToLcn punchRl vcn = lcnEnoent

theorem listsPunched {before trimmed behind joined : List RunlistElement} {sRl eRl : RunlistElement} {endVcn : Nat}
    (follow : RunsFrom start runs) (place : terminator.vcn = start + rlClusters runs)
    (ends : terminator.length = 0) (last : terminator.lcn = lcnEnoent)
    (cut : CutOut start startVcn endVcn runs before trimmed behind sRl eRl)
    (stop : endVcn + 1 = startVcn + len) (some_vcn : 0 < len)
    (clusters : rlClusters joined = rlClusters
      (before ++ frontPart sRl startVcn ++ ⟨startVcn, lcnHole, len⟩ :: (backPart eRl endVcn ++ behind)))
    (keeps : RunsFrom start
        (before ++ frontPart sRl startVcn ++ ⟨startVcn, lcnHole, len⟩ :: (backPart eRl endVcn ++ behind)) →
      RunsFrom start joined ∧ ∀ vcn, runsMap joined vcn = runsMap
        (before ++ frontPart sRl startVcn ++ ⟨startVcn, lcnHole, len⟩ :: (backPart eRl endVcn ++ behind)) vcn) :
    ListsPunched start startVcn len
      (before ++ frontPart sRl startVcn ++ (trimmed ++ (backPart eRl endVcn ++ behind)))
      (joined ++ [terminator]) (trimmed ++ [⟨endVcn + 1, lcnEnoent, 0⟩]) := by
  have negative : lcnEnoent < 0 := by decide
  have range : rlClusters trimmed = len := by
    have trimmedClusters := cut.clusters
    have order := cut.order
    omega
  obtain ⟨newFollow, freedFollow, newClusters, maps⟩ :=
    runsMap_punched (cut.pieces.follow follow) range some_vcn cut.begins
  obtain ⟨joinedFollow, joinedMap⟩ := keeps newFollow
  have joinedClusters : rlClusters joined = rlClusters runs := by
    rw [clusters, newClusters, cut.pieces.clusters]
  have newLookup := lookup_runs joinedFollow (by rw [joinedClusters]; exact place) ends last
  have freedLookup := @lookup_runs startVcn ⟨endVcn + 1, lcnEnoent, 0⟩ trimmed freedFollow
    (by rw [range]; exact stop) rfl rfl
  refine ⟨?_, ?_, ?_, fun vcn lower upper => ?_, fun vcn outside => ?_⟩
  · rw [rlFrom_append_singleton, joinedClusters, last]
    exact ⟨joinedFollow, place, ends, negative⟩
  · rw [rlClusters_append, clusters, newClusters, rlClusters_cons, ends]
    rfl
  · rw [rlFrom_append_singleton, range]
    exact ⟨freedFollow, stop, rfl, negative⟩
  · obtain ⟨new, freed⟩ := (maps vcn).1 ⟨lower, upper⟩
    rw [newLookup, joinedMap, new, freedLookup, freed]
    exact ⟨rfl, rfl⟩
  · obtain ⟨new, freed⟩ := (maps vcn).2 outside
    rw [newLookup, joinedMap, new, freedLookup, freed]
    exact ⟨rfl, rfl⟩

/-- The hole of a range that ends within the run list and whose ends cut no delayed run. -/
theorem holePunched_of_inside (valid : RlFrom start dstRl) (words : start + rlClusters dstRl < 2 ^ 63)
    (startWord : startVcn < 2 ^ 63) (lenWord : len < 2 ^ 63) (some_vcn : 0 < len)
    (punched : ntfsRlPunchHole someMemory dstRl startVcn len = .punched newRl punchRl newRlCnt)
    (inside : startVcn + len ≤ start + rlClusters dstRl)
    (ordinary : ∀ element ∈ dstRl, element.lcn = lcnDelalloc →
      ¬ CutBy element startVcn ∧ ¬ CutBy element (startVcn + len)) :
    HolePunched start startVcn len dstRl (newRl.take newRlCnt) punchRl := by
  obtain ⟨runs, terminator, rfl⟩ := valid.parts
  obtain ⟨follow, place, ends, negative⟩ := rlFrom_append_singleton.mp valid
  have total : rlClusters (runs ++ [terminator]) = rlClusters runs := by
    rw [rlClusters_append, rlClusters_cons, ends]
    rfl
  rw [total] at words
  obtain ⟨before, trimmed, behind, sRl, eRl, endVcn, last, stop, cut, rfl, joins⟩ :=
    ntfsRlPunchHole_shape follow ends words startWord lenWord some_vcn punched
  have other : terminator.lcn ≠ lcnHole := by
    rw [last]
    decide
  obtain ⟨joined, whole, clusters, keeps⟩ := @joinsHoles_keep start _ _ _ joins other
  have order := cut.order
  have pieceClusters := cut.pieces.clusters
  have lookup := lookup_runs follow place ends last
  rw [whole]
  rw [total] at inside
  have stopEq : endVcn + 1 = startVcn + len := by omega
  have lists := listsPunched follow place ends last cut stopEq some_vcn clusters keeps
  have maps := cut.pieces.maps ⟨fun delayed => (ordinary sRl (by simp [cut.first]) delayed).1,
    fun delayed => by rw [stopEq]; exact (ordinary eRl (by simp [cut.last]) delayed).2⟩
  have hole : ∀ vcn, startVcn ≤ vcn → vcn < startVcn + len → vcn < start + rlClusters (runs ++ [terminator]) →
      ntfsRlVcnToLcn (joined ++ [terminator]) vcn = lcnHole :=
    fun vcn lower upper _ => (lists.covered vcn lower upper).1
  have others : ∀ vcn, vcn < startVcn ∨ startVcn + len ≤ vcn →
      ntfsRlVcnToLcn (joined ++ [terminator]) vcn = ntfsRlVcnToLcn (runs ++ [terminator]) vcn := by
    intro vcn outside
    rw [(lists.outside vcn outside).1, maps, lookup]
  have freed : ∀ vcn, ntfsRlVcnToLcn (trimmed ++ [⟨endVcn + 1, lcnEnoent, 0⟩]) vcn =
      if startVcn ≤ vcn ∧ vcn < startVcn + len then ntfsRlVcnToLcn (runs ++ [terminator]) vcn else lcnEnoent := by
    intro vcn
    by_cases range : startVcn ≤ vcn ∧ vcn < startVcn + len
    · rw [if_pos range, (lists.covered vcn range.1 range.2).2, maps, lookup]
    · rw [if_neg range, (lists.outside vcn (by omega)).2]
  exact ⟨lists.contiguous, by rw [lists.clusters, pieceClusters, total], hole, others, lists.freed_contiguous, freed,
    fun once lcn real => frees_unmapped hole others freed (by rw [total]; exact inside) once real⟩

/-- A hole is punched just when the range ends within the run list and neither of its ends
cuts a delayed run. -/
theorem rl_punch_hole_iff (valid : RlFrom start dstRl) (words : start + rlClusters dstRl < 2 ^ 63)
    (startWord : startVcn < 2 ^ 63) (lenWord : len < 2 ^ 63) (some_vcn : 0 < len)
    (punched : ntfsRlPunchHole someMemory dstRl startVcn len = .punched newRl punchRl newRlCnt) :
    HolePunched start startVcn len dstRl (newRl.take newRlCnt) punchRl ↔
      startVcn + len ≤ start + rlClusters dstRl ∧ ∀ element ∈ dstRl, element.lcn = lcnDelalloc →
        ¬ CutBy element startVcn ∧ ¬ CutBy element (startVcn + len) := by
  obtain ⟨runs, terminator, rfl⟩ := valid.parts
  obtain ⟨follow, place, ends, negative⟩ := rlFrom_append_singleton.mp valid
  have total : rlClusters (runs ++ [terminator]) = rlClusters runs := by
    rw [rlClusters_append, rlClusters_cons, ends]
    rfl
  rw [total] at words
  obtain ⟨before, trimmed, behind, sRl, eRl, endVcn, last, stop, cut, rfl, joins⟩ :=
    ntfsRlPunchHole_shape follow ends words startWord lenWord some_vcn punched
  have other : terminator.lcn ≠ lcnHole := by
    rw [last]
    decide
  obtain ⟨joined, whole, clusters, keeps⟩ := @joinsHoles_keep start _ _ _ joins other
  have order := cut.order
  have trimmedClusters := cut.clusters
  have pieceClusters := cut.pieces.clusters
  have lookup := lookup_runs follow place ends last
  have unmapped : ¬ 0 ≤ lcnDelalloc := by decide
  rw [whole]
  constructor
  · intro holePunched
    have same := holePunched.clusters
    rw [rlClusters_append, clusters, rlClusters_append] at same
    simp only [rlClusters_append, rlClusters_cons, rlClusters_nil] at same pieceClusters
    have inside : startVcn + len ≤ start + rlClusters runs := by omega
    have stopEq : endVcn + 1 = startVcn + len := by omega
    have lists := listsPunched follow place ends last cut stopEq some_vcn clusters keeps
    have pieces := cut.pieces.follow follow
    rw [total]
    refine ⟨inside, fun element listed delayed => ?_⟩
    rcases List.mem_append.mp listed with run | ended
    · have delayedMap (vcn : Nat) : lcnWithin element vcn = lcnDelalloc := by
        rw [lcnWithin, delayed, if_neg unmapped]
      constructor
      · intro cutStart
        have held : Holds element startVcn := ⟨cutStart.1.le, cutStart.2⟩
        obtain rfl := follow.held_once run cut.first held cut.startHeld
        have freed := holePunched.freed startVcn
        have real := @lcnWithin_runFrom_delayed startVcn startVcn element cutStart.1 delayed
        have covered := (runsMap_punched pieces (by omega) some_vcn cut.begins).2.2.2 startVcn
        have head := (covered.1 ⟨le_refl _, by omega⟩).2
        rw [if_pos ⟨le_refl _, by omega⟩, (lists.covered _ (le_refl _) (by omega)).2, ← head, cut.head, lookup,
          follow.map_held run held, Option.getD_some, Option.getD_some, delayedMap] at freed
        omega
      · intro cutStop
        have held : Holds element endVcn := ⟨by have := cutStop.1; omega, by have := cutStop.2; omega⟩
        obtain rfl := follow.held_once run cut.last held cut.endHeld
        have others := holePunched.others (startVcn + len) (.inr (le_refl _))
        have splits : endSplit element endVcn := by
          have upper := cutStop.2
          simp only [endSplit, decide_eq_true_eq]
          omega
        have real := @lcnWithin_runFrom_delayed (startVcn + len) (startVcn + len) element cutStop.1 delayed
        have heldStop : Holds element (startVcn + len) := ⟨cutStop.1.le, cutStop.2⟩
        have kept : runFrom element (startVcn + len) ∈
            before ++ frontPart sRl startVcn ++ (trimmed ++ (backPart element endVcn ++ behind)) := by
          rw [backPart, if_pos splits, stopEq]
          simp [runFrom]
        have keptHeld : Holds (runFrom element (startVcn + len)) (startVcn + len) := by
          obtain ⟨lower, upper⟩ := cutStop
          simp only [Holds, runFrom]
          omega
        rw [(lists.outside _ (.inr (le_refl _))).1, pieces.map_held kept keptHeld, lookup,
          follow.map_held run heldStop, Option.getD_some, Option.getD_some, delayedMap] at others
        omega
    · obtain rfl := List.mem_singleton.mp ended
      constructor
      · rintro ⟨lower, upper⟩
        omega
      · rintro ⟨lower, upper⟩
        omega
  · rintro ⟨inside, ordinary⟩
    rw [← whole]
    exact holePunched_of_inside valid (by rw [total]; exact words) startWord lenWord some_vcn punched inside ordinary

end Punch

/-- Neither the run of a vcn nor the one before it is a hole. -/
def BetweenRuns (rl : List RunlistElement) (vcn : Nat) : Prop :=
  ntfsRlVcnToLcn rl (vcn - 1) ≠ lcnHole ∧ ntfsRlVcnToLcn rl vcn ≠ lcnHole

/-- A run list behind the punching of no clusters at a vcn. The hole without clusters is taken into
one that it meets. Else it stands in the list, and all that is behind it is lost. -/
def EmptyPunched (rl newRl : List RunlistElement) (startVcn : Nat) : Prop :=
  ∀ vcn, (BetweenRuns rl startVcn ∧ startVcn ≤ vcn → ntfsRlVcnToLcn newRl vcn = lcnHole) ∧
    (¬ (BetweenRuns rl startVcn ∧ startVcn ≤ vcn) → ntfsRlVcnToLcn newRl vcn = ntfsRlVcnToLcn rl vcn)

section Empty

variable {someMemory : Bool} {rl filled behind joined : List RunlistElement} {right terminator : RunlistElement}
  {startVcn : Nat} {outcome : PunchOutcome}

theorem lcnWithin_eq_hole {element : RunlistElement} {vcn : Nat} :
    lcnWithin element vcn = lcnHole ↔ element.lcn = lcnHole := by
  rw [lcnWithin, lcnHole]
  split <;> omega

/-- The search for a vcn goes no further than an element without clusters. -/
theorem rlScan_ends {element : RunlistElement} (vcn : Nat) (ends : element.length = 0) (negative : element.lcn < 0) :
    rlScan vcn (filled ++ element :: behind) = rlScan vcn (filled ++ [element]) := by
  induction filled with
  | nil =>
    cases behind with
    | nil => rfl
    | cons next rest => simp [rlScan, ends, negative]
  | cons first rest ih =>
    cases rest with
    | nil => simp only [List.cons_append, List.nil_append, rlScan] at ih ⊢; rw [ih]
    | cons next rest => simp only [List.cons_append, rlScan] at ih ⊢; rw [ih]

theorem emptyPunched (follow : RunsFrom 0 (filled ++ right :: behind)) (begins : rlClusters filled = startVcn)
    (some_vcn : 0 < startVcn) (place : terminator.vcn = rlClusters (filled ++ right :: behind))
    (ends : terminator.length = 0) (last : terminator.lcn = lcnEnoent)
    (lookup : ∀ vcn, ntfsRlVcnToLcn rl vcn = (runsMap (filled ++ right :: behind) vcn).getD lcnEnoent)
    (merged : HoleMerged ⟨startVcn, lcnHole, 0⟩ right (behind ++ [terminator]) filled joined) :
    EmptyPunched rl joined startVcn := by
  obtain ⟨filledFollow, rightPlace, rightSome, -⟩ := runsFrom_append.mp follow
  rw [begins, Nat.zero_add] at rightPlace
  have rightHole : ntfsRlVcnToLcn rl startVcn = lcnHole ↔ right.lcn = lcnHole := by
    have held : Holds right startVcn := ⟨rightPlace.le, by omega⟩
    rw [lookup, follow.map_held (by simp) held, Option.getD_some, lcnWithin_eq_hole]
  have leftHole (front : List RunlistElement) (left : RunlistElement) (listed : filled = front ++ [left]) :
      ntfsRlVcnToLcn rl (startVcn - 1) = lcnHole ↔ left.lcn = lcnHole := by
    subst listed
    obtain ⟨_, leftPlace, leftSome, _⟩ := runsFrom_append.mp filledFollow
    rw [rlClusters_append, rlClusters_cons, rlClusters_nil] at begins
    have held : Holds left (startVcn - 1) := ⟨by omega, by omega⟩
    rw [lookup, follow.map_held (by simp) held, Option.getD_some, lcnWithin_eq_hole]
  -- the same runs, or two holes of them in one
  have same {runs newRl : List RunlistElement} (kept : ¬ BetweenRuns rl startVcn) (follow' : RunsFrom 0 runs)
      (clusters : rlClusters runs = rlClusters (filled ++ right :: behind))
      (maps : ∀ vcn, runsMap runs vcn = runsMap (filled ++ right :: behind) vcn)
      (new : newRl = runs ++ [terminator]) : EmptyPunched rl newRl startVcn := by
    refine fun vcn => ⟨fun both => absurd both.1 kept, fun _ => ?_⟩
    rw [new, lookup_runs follow' (by omega) ends last, maps, lookup]
  cases merged with
  | @both front left leftLcn rightLcn =>
    have keeps := @JoinsHoles.keeps 0 _ _ (JoinsHoles.join front behind leftLcn rightLcn)
    rw [List.append_assoc, List.singleton_append] at follow same
    obtain ⟨follow', maps⟩ := keeps.2 follow
    exact same (fun between => between.2 (rightHole.mpr rightLcn)) follow' keeps.1 maps (by simp)
  | @left front left leftLcn _ =>
    exact same (fun between => between.1 ((leftHole front left rfl).mpr leftLcn)) follow rfl (fun _ => rfl) (by simp)
  | right _ rightLcn =>
    have whole : (⟨startVcn, lcnHole, right.length⟩ : RunlistElement) = right := by
      rw [← rightPlace, ← rightLcn]
    exact same (fun between => between.2 (rightHole.mpr rightLcn)) follow rfl (fun _ => rfl) (by simp [whole])
  | alone leftSolid rightLcn =>
    have some_run : filled ≠ [] := by
      rintro rfl
      rw [rlClusters_nil] at begins
      omega
    obtain ⟨front, left, listed⟩ := (List.eq_nil_or_concat' filled).resolve_left some_run
    have between : BetweenRuns rl startVcn :=
      ⟨mt (leftHole front left listed).mp (leftSolid front left listed), mt rightHole.mp rightLcn⟩
    have unmapped : lcnHole < 0 := by decide
    have cut (vcn : Nat) : ntfsRlVcnToLcn (filled ++ ⟨startVcn, lcnHole, 0⟩ :: right :: (behind ++ [terminator])) vcn =
        (runsMap filled vcn).getD (ntfsRlVcnToLcn [⟨startVcn, lcnHole, 0⟩] vcn) := by
      have scan := @rlScan_ends filled (right :: (behind ++ [terminator])) ⟨startVcn, lcnHole, 0⟩ vcn rfl unmapped
      rw [← lookup_append filledFollow (.terminator (by simp [begins]) rfl unmapped) (Nat.zero_le _)]
      obtain ⟨first, rest, rfl⟩ := List.exists_cons_of_ne_nil some_run
      simp only [List.cons_append, ntfsRlVcnToLcn] at scan ⊢
      rw [scan]
    refine fun vcn => ⟨fun lost => ?_, fun kept => ?_⟩
    · rw [cut, filledFollow.outside (.inr (by omega)), ntfsRlVcnToLcn, if_neg (by dsimp only; omega)]
      rfl
    · have before : vcn < startVcn := Nat.lt_of_not_le fun behind => kept ⟨between, behind⟩
      obtain ⟨lcn, mapped⟩ := filledFollow.inside (Nat.zero_le vcn) (by omega)
      rw [cut, lookup, runsMap_append, mapped]
      rfl

theorem run_before {runs : List RunlistElement} {i j : Nat} (follow : RunsFrom 0 runs) (before : i < j)
    (inside : j < runs.length) :
    (elementAt runs i).vcn + (elementAt runs i).length ≤ (elementAt runs j).vcn := by
  obtain ⟨front, rest, shape, count⟩ := parts_at inside
  obtain ⟨first, between, frontShape, _⟩ := @parts_at front i (by omega)
  have found : elementAt runs i = elementAt front i := by
    rw [shape, elementAt, List.getD_append _ _ _ _ (by omega)]
    rfl
  rw [shape] at follow
  obtain ⟨frontFollow, place, _⟩ := runsFrom_append.mp follow
  rw [frontShape] at frontFollow place
  obtain ⟨_, firstPlace, _⟩ := runsFrom_append.mp frontFollow
  rw [rlClusters_append, rlClusters_cons] at place
  rw [found]
  omega

/-- The runs of the first and the last vcn of a range within the list. -/
theorem punch_places {runs : List RunlistElement} {len : Nat} (follow : RunsFrom 0 runs) (ends : terminator.length = 0)
    (words : rlClusters runs < 2 ^ 63) (some_vcn : 0 < startVcn + len) (begins : startVcn < rlClusters runs)
    (inside : startVcn + len ≤ rlClusters runs)
    (punched : ntfsRlPunchHole someMemory (runs ++ [terminator]) startVcn len = outcome)
    (done : outcome ≠ .einval) (made : outcome ≠ .enomem) :
    ∃ s e endVcn, terminator.lcn = lcnEnoent ∧ endVcn + 1 = startVcn + len ∧
      ntfsRlFindVcnNolock (runs ++ [terminator]) startVcn = some s ∧ s < runs.length ∧ e < runs.length ∧
      Holds (elementAt runs s) startVcn ∧ Holds (elementAt runs e) endVcn ∧
      (if e < s then .overrun else punchRuns (runs ++ [terminator]) s e startVcn len endVcn) = outcome := by
  obtain ⟨s, e, endVcn, last, stop, first, startHeld, endHeld, lists⟩ := ntfsRlPunchHole_checks punched done made
  obtain ⟨startInside, startFound⟩ := held_inside ends startHeld
  obtain ⟨endInside, endFound⟩ := held_inside ends endHeld
  rw [startFound] at startHeld
  rw [endFound] at endHeld
  have some_run : runs ≠ [] := by
    rintro rfl
    simp at startInside
  have lastLcn : terminator.lcn = lcnEnoent := by
    have found := elementAt_append runs terminator []
    have place : (runs ++ [terminator]).length - 1 = runs.length := by simp
    rw [place, found] at last
    exact last
  have lastVcn := @last_vcn runs 0 terminator follow some_run
  rw [s64_of_range ⟨by omega, by omega⟩] at stop
  exact ⟨s, e, endVcn, lastLcn, by omega, first, startInside, endInside, startHeld, endHeld, lists⟩

/-- Only an empty range makes the code read before the second array. -/
theorem ntfsRlPunchHole_overrun {len : Nat} (valid : RlFrom 0 rl) (words : rlClusters rl < 2 ^ 63) (some_vcn : 0 < len)
    (inside : startVcn + len ≤ rlClusters rl) : ntfsRlPunchHole someMemory rl startVcn len ≠ .overrun := by
  intro punched
  obtain ⟨runs, terminator, rfl⟩ := valid.parts
  obtain ⟨follow, _, ends, _⟩ := rlFrom_append_singleton.mp valid
  rw [rlClusters_append, rlClusters_cons, ends, rlClusters_nil] at words inside
  obtain ⟨s, e, endVcn, _, stop, _, startInside, _, ⟨startLower, _⟩, ⟨_, endUpper⟩, made⟩ :=
    punch_places follow ends words (by omega) (by omega) inside punched (by simp) (by simp)
  by_cases order : e < s
  · have behind := run_before follow order startInside
    omega
  · rw [if_neg order, punchRuns] at made
    cases made

/-- Punching no clusters, at a vcn of a list without delayed runs. -/
theorem ntfsRlPunchHole_empty (valid : RlFrom 0 rl) (ordinary : ∀ element ∈ rl, element.lcn ≠ lcnDelalloc)
    (words : rlClusters rl < 2 ^ 63) (inside : startVcn < rlClusters rl)
    (punched : ntfsRlPunchHole someMemory rl startVcn 0 = outcome) :
    (∀ newRl punchRl newRlCnt, outcome = .punched newRl punchRl newRlCnt →
      EmptyPunched rl (newRl.take newRlCnt) startVcn) ∧
    (outcome = .overrun → EmptyPunched rl (emptyHoleRl rl startVcn) startVcn) := by
  by_cases refused : outcome = .einval ∨ outcome = .enomem
  · rcases refused with rfl | rfl <;> simp
  have some_vcn : 0 < startVcn := by
    -- there is no vcn before the first
    obtain ⟨_, _, _, _, stop, _⟩ :=
      ntfsRlPunchHole_checks punched (fun same => refused (.inl same)) (fun same => refused (.inr same))
    have before : s64 (((0 : Nat) : Int) + ((0 : Nat) : Int) - 1) = -1 := by decide
    by_contra first
    obtain rfl : startVcn = 0 := by omega
    rw [before] at stop
    omega
  obtain ⟨runs, terminator, rfl⟩ := valid.parts
  obtain ⟨follow, place, ends, _⟩ := rlFrom_append_singleton.mp valid
  rw [Nat.zero_add] at place
  rw [rlClusters_append, rlClusters_cons, ends, rlClusters_nil] at words inside
  obtain ⟨s, e, endVcn, lastLcn, stop, begins, startInside, endInside, ⟨startLower, startUpper⟩, ⟨endLower, endUpper⟩,
    made⟩ := punch_places follow ends words (by omega) (by omega) (by omega) punched
      (fun same => refused (.inl same)) (fun same => refused (.inr same))
  obtain rfl : startVcn = endVcn + 1 := by omega
  have lookup := lookup_runs follow (by omega) ends lastLcn
  obtain ⟨before, rest, shape, beforeCount⟩ := parts_at startInside
  have runFollow := follow
  rw [shape] at runFollow
  obtain ⟨_, runPlace, _⟩ := runsFrom_append.mp runFollow
  by_cases order : e < s
  · -- the vcn begins a run
    rw [if_pos order] at made
    subst made
    refine ⟨by simp, fun _ => ?_⟩
    have behind := run_before follow order startInside
    generalize elementAt runs s = sRl at *
    have taken : (runs ++ [terminator]).take s = before := by
      rw [shape, ← beforeCount, List.append_assoc, List.take_left]
    have dropped : (runs ++ [terminator]).drop s = sRl :: (rest ++ [terminator]) := by
      rw [shape, ← beforeCount, List.append_assoc, List.drop_left, List.cons_append]
    have size := congrArg List.length shape
    rw [emptyHoleRl, begins]
    simp only [taken, dropped]
    rw [← beforeCount]
    obtain ⟨joined, more, merged, count, holes⟩ := @mergeHoles_merged before (rest ++ [terminator])
      (List.replicate 2 emptyElement) ⟨endVcn + 1, lcnHole, 0⟩ sRl ((runs ++ [terminator]).length + 3) (by
        simp only [List.length_append, List.length_cons, List.length_replicate, List.length_nil] at size ⊢
        omega)
    have whole : (runs ++ [terminator]).length + 1 - (holeMerge (before ++ ⟨endVcn + 1, lcnHole, 0⟩ ::
        (sRl :: (rest ++ [terminator])) ++ List.replicate 2 emptyElement) before.length
        ((runs ++ [terminator]).length + 3)).2 = joined.length := by
      simp only [List.length_append, List.length_cons, List.length_nil] at size count ⊢
      omega
    rw [whole, merged, List.take_left]
    rw [shape] at lookup place
    exact emptyPunched runFollow (by omega) some_vcn place ends lastLcn (by rwa [shape]) holes
  · -- the vcn is within a run
    rw [if_neg order] at made
    obtain rfl : s = e := by
      by_contra other
      have behind := @run_before runs s e follow (by omega) endInside
      omega
    refine ⟨fun newRl punchRl newRlCnt lists => ?_, fun impossible => ?_⟩
    · subst lists
      generalize elementAt runs s = sRl at *
      have delayed := ordinary sRl (by rw [shape]; simp)
      have covers : Covers (runs ++ [terminator]) s s before sRl sRl (rest ++ [terminator]) :=
        ⟨⟨rest ++ [terminator], by rw [shape]; simp, beforeCount⟩, ⟨before, by rw [shape]; simp, beforeCount⟩⟩
      obtain ⟨right, tail, _, tailShape, _, _, holes⟩ := punchRuns_merged covers (le_refl s) made
      have splits : endSplit sRl endVcn := by
        simp only [endSplit, decide_eq_true_eq]
        omega
      rw [backPart, if_pos splits, List.singleton_append, List.cons.injEq] at tailShape
      obtain ⟨rfl, rfl⟩ := tailShape
      have pieces := @recut_front 0 (endVcn + 1) sRl before rest ⟨startLower, startUpper⟩
      have frontEnds := @frontPart_ends 0 (endVcn + 1) before rest sRl runFollow ⟨startLower, startUpper⟩
      have clusters := pieces.clusters
      rw [← shape] at clusters
      refine emptyPunched (pieces.follow runFollow) (by omega) some_vcn (by rw [place]; exact clusters.symm) ends lastLcn
        (fun vcn => ?_) holes
      have maps := pieces.maps (fun delay => absurd delay delayed) vcn
      rw [lookup, shape, ← maps]
    · rw [impossible, punchRuns] at made
      cases made

end Empty

/-- Eight clusters, a hole of four and four clusters more. -/
def holedRuns : List RunlistElement :=
  [⟨0, 100, 8⟩, ⟨8, lcnHole, 4⟩, ⟨12, 200, 4⟩, ⟨16, lcnEnoent, 0⟩]

theorem holedRuns_valid : RlFrom 0 holedRuns := by
  refine .run rfl (by decide) (.run rfl (by decide) (.run rfl (by decide) (.terminator rfl rfl ?_)))
  decide

/-- From within the first run to within the last. -/
theorem rl_punch_hole_across : HolePunched 0 6 8 holedRuns
    (List.take 4 [⟨0, 100, 6⟩, ⟨6, lcnHole, 8⟩, ⟨14, 202, 2⟩, ⟨16, lcnEnoent, 0⟩])
    [⟨6, 106, 2⟩, ⟨8, lcnHole, 4⟩, ⟨12, 200, 2⟩, ⟨14, lcnEnoent, 0⟩] :=
  (@rl_punch_hole_iff true _ _ _ _ _ _ _ holedRuns_valid (by decide) (by decide) (by decide) (by decide)
    (by decide)).mpr ⟨by decide, by decide⟩

/-- A range that is one cluster longer than the run list gets a hole of its whole length,
and the terminator no longer stands behind the last run. -/
theorem punch_hole_past_end : RlFrom 0 holedRuns ∧
    ∃ newRl punchRl newRlCnt, ntfsRlPunchHole true holedRuns 12 5 = .punched newRl punchRl newRlCnt ∧
      newRl.take newRlCnt = [⟨0, 100, 8⟩, ⟨8, lcnHole, 9⟩, ⟨16, lcnEnoent, 0⟩] ∧
      ¬ HolePunched 0 12 5 holedRuns (newRl.take newRlCnt) punchRl := by
  refine ⟨holedRuns_valid, [⟨0, 100, 8⟩, ⟨8, lcnHole, 9⟩, ⟨16, lcnEnoent, 0⟩, ⟨0, 0, 0⟩, ⟨0, 0, 0⟩,
      ⟨0, 0, 0⟩], [⟨12, 200, 4⟩, ⟨16, lcnEnoent, 0⟩], 3, by decide, by decide, ?_⟩
  intro punched
  have clusters := punched.clusters
  revert clusters
  decide

end Ttntfs.Ntfs
