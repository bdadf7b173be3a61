import Ttntfs.Ntfs.HoleFill

/-!
# Runs that fill a hole

The runs of newly allocated clusters are merged into a hole of a run list that maps the
whole attribute. They are mapped to then, and everything else is mapped as before.
-/

namespace Ttntfs.Ntfs

section Finding

variable {before post : List RunlistElement} {hole term : RunlistElement} {vcn : Nat}

/-- The elements in front of a run end before it, and those behind it begin behind it. -/
theorem order_at (follow : RunsFrom 0 (before ++ hole :: post)) (i : Nat) :
    (i < before.length → (elementAt (before ++ hole :: (post ++ [term])) i).endVcn ≤ hole.vcn) ∧
    (before.length < i → i < before.length + 1 + post.length →
      hole.endVcn ≤ (elementAt (before ++ hole :: (post ++ [term])) i).vcn) := by
  rw [runsFrom_append] at follow
  obtain ⟨first, place, _, behind⟩ := follow
  constructor
  · intro earlier
    obtain ⟨front, back, parts, count⟩ := parts_at earlier
    have same : before ++ hole :: (post ++ [term]) = front ++ elementAt before i :: (back ++ hole :: (post ++ [term])) := by
      conv_lhs => rw [parts]
      simp
    rw [same, elementAt_behind count.symm]
    generalize elementAt before i = element at parts
    subst parts
    rw [runsFrom_append] at first
    obtain ⟨_, begins, _, _⟩ := first
    rw [rlClusters_append, rlClusters_cons] at place
    simp only [RunlistElement.endVcn]
    omega
  · intro later inside
    have listed : elementAt (before ++ hole :: (post ++ [term])) i ∈ post := by
      have same : before ++ hole :: (post ++ [term]) = (before ++ [hole] ++ post) ++ [term] := by simp
      rw [same, elementAt, List.getD_append _ _ _ _ (by simp; omega), List.getD_append_right _ _ _ _ (by simp; omega),
        List.getD_eq_getElem _ _ (by simp; omega)]
      exact List.getElem_mem _
    have := behind.first_le listed
    simp only [RunlistElement.endVcn]
    omega

/-- The binary search finds the run that holds a vcn. -/
theorem findVcnBetween_holds (follow : RunsFrom 0 (before ++ hole :: post)) (held : Holds hole vcn) {lowerIdx upperIdx : Nat}
    (lower : lowerIdx ≤ before.length) (upper : before.length ≤ upperIdx)
    (inside : upperIdx < before.length + 1 + post.length) :
    findVcnBetween (before ++ hole :: (post ++ [term])) vcn lowerIdx upperIdx = some before.length := by
  obtain ⟨least, most⟩ := held
  have here : elementAt (before ++ hole :: (post ++ [term])) before.length = hole := elementAt_behind rfl
  generalize measure : upperIdx + 1 - lowerIdx = n
  induction n using Nat.strong_induction_on generalizing lowerIdx upperIdx with
  | _ n ih =>
    rw [findVcnBetween, if_pos (by omega)]
    dsimp only
    obtain ⟨earlier, later⟩ := @order_at _ _ _ term follow ((lowerIdx + upperIdx) / 2)
    rcases Nat.lt_trichotomy ((lowerIdx + upperIdx) / 2) before.length with left | same | right
    · have ends := earlier left
      have begins : (elementAt (before ++ hole :: (post ++ [term])) ((lowerIdx + upperIdx) / 2)).vcn ≤ vcn := by
        simp only [RunlistElement.endVcn] at ends
        omega
      rw [if_neg (by omega), if_pos (by omega)]
      exact ih _ (by omega) (by omega) upper inside rfl
    · rw [same, here, if_neg (by omega), if_neg (by simp only [RunlistElement.endVcn]; omega)]
    · have begins := later right (by omega)
      simp only [RunlistElement.endVcn] at begins
      rw [if_pos (by omega), if_pos (by omega)]
      exact ih _ (by omega) lower (by omega) (by omega) rfl

/-- `__ntfs_attr_find_vcn_nolock` finds the run that holds a vcn, wherever it looks first. -/
theorem ntfsAttrFindVcn_holds (follow : RunsFrom 0 (before ++ hole :: post)) (held : Holds hole vcn) (rlHint : Nat) :
    ntfsAttrFindVcn (before ++ hole :: (post ++ [term])) rlHint vcn = some before.length := by
  have bounds := held
  obtain ⟨least, most⟩ := bounds
  have total : (before ++ hole :: (post ++ [term])).length = before.length + post.length + 2 := by
    simp only [List.length_append, List.length_cons, List.length_nil]
    omega
  have here : elementAt (before ++ hole :: (post ++ [term])) before.length = hole := elementAt_behind rfl
  -- where an element stands to the run is told by its vcns
  have place (i : Nat) (inside : i < before.length + 1 + post.length) :
      ((elementAt (before ++ hole :: (post ++ [term])) i).vcn ≤ vcn → i ≤ before.length) ∧
      (vcn < (elementAt (before ++ hole :: (post ++ [term])) i).endVcn → before.length ≤ i) := by
    obtain ⟨earlier, later⟩ := @order_at _ _ _ term follow i
    simp only [RunlistElement.endVcn] at earlier later ⊢
    exact ⟨fun begins => by
      by_contra behind
      have := later (by omega) inside
      omega, fun ends => by
      by_contra before
      have := earlier (by omega)
      omega⟩
  have behind (lowerIdx : Nat) (lower : lowerIdx ≤ before.length) :
      findVcnBehind (before ++ hole :: (post ++ [term])) vcn lowerIdx = some before.length := by
    rw [findVcnBehind]
    have last : (before ++ hole :: (post ++ [term])).length - 2 = before.length + post.length := by omega
    rw [last]
    obtain ⟨begins, ends⟩ := place (before.length + post.length) (by omega)
    split
    · rename_i inLast
      have := begins inLast.1
      congr 1
      omega
    · rename_i notLast
      rw [if_neg]
      · exact findVcnBetween_holds follow held lower (by omega) (by omega)
      · intro beyond
        rcases Nat.eq_zero_or_pos post.length with none_behind | some_behind
        · rw [none_behind, Nat.add_zero, here] at beyond
          simp only [RunlistElement.endVcn] at beyond
          omega
        · have order := (@order_at _ _ _ term follow (before.length + post.length)).2 (by omega) (by omega)
          simp only [RunlistElement.endVcn] at beyond order
          omega
  rw [ntfsAttrFindVcn, if_neg (by omega)]
  split
  · rename_i hinted
    obtain ⟨inside, begins⟩ := hinted
    have lower := (place rlHint (by omega)).1 begins
    split
    · rename_i ends
      have upper := (place rlHint (by omega)).2 ends
      congr 1
      omega
    · rename_i beyond
      have other : rlHint ≠ before.length := by
        rintro same
        rw [same, here] at beyond
        simp only [RunlistElement.endVcn] at beyond
        omega
      rw [if_neg (by omega)]
      exact behind _ (by omega)
  · have head := (@order_at _ _ _ term follow 0).1
    have first : (elementAt (before ++ hole :: (post ++ [term])) 0).vcn ≤ vcn := by
      rcases Nat.eq_zero_or_pos before.length with none_before | some_before
      · rw [← none_before, here]
        exact least
      · have order := head some_before
        simp only [RunlistElement.endVcn] at order
        omega
    rw [if_neg (by omega)]
    split
    · rename_i ends
      have upper := (place 0 (by omega)).2 ends
      congr 1
      omega
    · rename_i beyond
      have some_before : 0 < before.length := by
        by_contra nothing
        have none_before : before.length = 0 := by omega
        rw [← none_before, here] at beyond
        simp only [RunlistElement.endVcn] at beyond
        omega
      exact behind 1 (by omega)

end Finding

/-- What a hole keeps in front of the runs that fill it. -/
def frontOfHole (hole : RunlistElement) (vcn : Nat) : List RunlistElement :=
  if hole.vcn < vcn then [{ hole with length := vcn - hole.vcn }] else []

/-- What a hole keeps behind them. -/
def backOfHole (hole : RunlistElement) (vcn : Nat) : List RunlistElement :=
  if vcn < hole.endVcn then [{ hole with vcn := vcn, length := hole.endVcn - vcn }] else []

/-- Runs that have been put into some others: they are mapped to, and everything else is mapped as
before. -/
structure FillsHole (runs mid filled : List RunlistElement) : Prop where
  follow : RunsFrom 0 filled
  clusters : rlClusters filled = rlClusters runs
  maps : ∀ vcn, runsMap filled vcn = (runsMap mid vcn).or (runsMap runs vcn)
  lcns : ∀ element ∈ filled, ∃ other ∈ runs ++ mid, element.lcn = other.lcn

section Filling

variable {before mid front back post rl : List RunlistElement} {hole first last term st : RunlistElement}
  {someMemory : Bool} {newRlCount rlHint : Nat}

theorem rlClusters_last (ends : mid = back ++ [last]) (follow : RunsFrom first.vcn mid) :
    first.vcn + rlClusters mid = last.endVcn := by
  subst ends
  rw [runsFrom_append] at follow
  obtain ⟨_, place, _⟩ := follow
  rw [rlClusters_append, rlClusters_cons, RunlistElement.endVcn, place]
  simp only [rlClusters, List.map_nil, List.sum_nil]
  omega

theorem RunsFrom.long {start : Nat} {runs : List RunlistElement} {element : RunlistElement} (follow : RunsFrom start runs)
    (listed : element ∈ runs) : 0 < element.length := by
  obtain ⟨before, behind, rfl⟩ := List.append_of_mem listed
  rw [runsFrom_append] at follow
  exact follow.2.2.1

theorem findIdx_behind {p : RunlistElement → Bool} (none_before : ∀ element ∈ before, p element = false)
    (here : p hole = true) : (before ++ hole :: post).findIdx p = before.length := by
  rw [List.findIdx_append, List.findIdx_eq_length.mpr none_before, if_neg (Nat.lt_irrefl _), List.findIdx_cons, here]
  simp

theorem runsMap_single (element : RunlistElement) (vcn : Nat) :
    runsMap [element] vcn = if Holds element vcn then some (lcnWithin element vcn) else none :=
  runsMap_cons element [] vcn

theorem frontOfHole_map (negative : ¬ 0 ≤ hole.lcn) (stop vcn : Nat) :
    runsMap (frontOfHole hole stop) vcn = if hole.vcn ≤ vcn ∧ vcn < stop then some hole.lcn else none := by
  rw [frontOfHole]
  split
  · have held : Holds { hole with length := stop - hole.vcn } vcn ↔ hole.vcn ≤ vcn ∧ vcn < stop := by
      simp only [Holds]
      omega
    rw [runsMap_single, lcnWithin, if_neg negative]
    simp only [held]
  · rw [if_neg (by omega)]
    rfl

theorem backOfHole_map (negative : ¬ 0 ≤ hole.lcn) (begin_ vcn : Nat) :
    runsMap (backOfHole hole begin_) vcn = if begin_ ≤ vcn ∧ vcn < hole.endVcn then some hole.lcn else none := by
  rw [backOfHole]
  split
  · have held : Holds { hole with vcn := begin_, length := hole.endVcn - begin_ } vcn ↔
        begin_ ≤ vcn ∧ vcn < hole.endVcn := by
      simp only [Holds]
      omega
    rw [runsMap_single, lcnWithin, if_neg negative]
    simp only [held]
  · rw [if_neg (by omega)]
    rfl

/-- A hole that is cut where the runs begin and end. -/
theorem cut_hole (follow : RunsFrom 0 (before ++ hole :: post)) (holed : hole.lcn = lcnHole)
    (runs : RunsFrom first.vcn mid) (begins : hole.vcn ≤ first.vcn)
    (ends : first.vcn + rlClusters mid ≤ hole.endVcn) :
    FillsHole (before ++ hole :: post) mid
      (before ++ frontOfHole hole first.vcn ++ mid ++ backOfHole hole (first.vcn + rlClusters mid) ++ post) := by
  have parts := follow
  rw [runsFrom_append] at parts
  obtain ⟨earlier, place, some_cluster, later⟩ := parts
  rw [Nat.zero_add] at place later
  have negative : ¬ 0 ≤ hole.lcn := by
    rw [holed]
    decide
  have frontCount : rlClusters (frontOfHole hole first.vcn) = first.vcn - hole.vcn := by
    rw [frontOfHole]
    split
    · simp [rlClusters]
    · change 0 = _
      omega
  have backCount : rlClusters (backOfHole hole (first.vcn + rlClusters mid)) =
      hole.endVcn - (first.vcn + rlClusters mid) := by
    rw [backOfHole]
    split
    · simp [rlClusters]
    · change 0 = _
      omega
  simp only [RunlistElement.endVcn] at ends backCount
  refine ⟨?_, ?_, fun vcn => ?_, ?_⟩
  · simp only [runsFrom_append, rlClusters_append, frontCount, backCount, Nat.zero_add]
    refine ⟨⟨⟨⟨earlier, ?_⟩, ?_⟩, ?_⟩, ?_⟩
    · rw [frontOfHole]
      split
      · exact ⟨place, by dsimp only; omega, trivial⟩
      · trivial
    · have same : rlClusters before + (first.vcn - hole.vcn) = first.vcn := by omega
      rw [same]
      exact runs
    · rw [backOfHole]
      split
      · rename_i more
        simp only [RunlistElement.endVcn] at more
        exact ⟨by dsimp only; omega, by simp only [RunlistElement.endVcn]; omega, trivial⟩
      · trivial
    · have same : rlClusters before + (first.vcn - hole.vcn) + rlClusters mid +
          (hole.vcn + hole.length - (first.vcn + rlClusters mid)) = rlClusters before + hole.length := by omega
      rw [same]
      exact later
  · simp only [rlClusters_append, rlClusters_cons, frontCount, backCount]
    omega
  · simp only [runsMap_append, runsMap_cons]
    by_cases inMid : first.vcn ≤ vcn ∧ vcn < first.vcn + rlClusters mid
    · obtain ⟨lcn, maps⟩ := runs.inside inMid.1 inMid.2
      have notEarlier : runsMap before vcn = none := earlier.outside (.inr (by omega))
      have notFront : runsMap (frontOfHole hole first.vcn) vcn = none := by
        rw [frontOfHole_map negative, if_neg (by omega)]
      simp [maps, notEarlier, notFront]
    · have notMid : runsMap mid vcn = none := runs.outside (by omega)
      rw [notMid, frontOfHole_map negative, backOfHole_map negative, Option.or_none, Option.none_or]
      have held : Holds hole vcn ↔ hole.vcn ≤ vcn ∧ vcn < first.vcn ∨
          first.vcn + rlClusters mid ≤ vcn ∧ vcn < hole.endVcn := by
        simp only [Holds, RunlistElement.endVcn]
        omega
      by_cases inFront : hole.vcn ≤ vcn ∧ vcn < first.vcn
      · rw [if_pos inFront, if_pos (held.mpr (.inl inFront)), lcnWithin, if_neg negative]
        simp
      · rw [if_neg inFront]
        by_cases inBack : first.vcn + rlClusters mid ≤ vcn ∧ vcn < hole.endVcn
        · rw [if_pos inBack, if_pos (held.mpr (.inr inBack)), lcnWithin, if_neg negative]
          simp
        · rw [if_neg inBack, if_neg (by rw [held]; exact not_or.mpr ⟨inFront, inBack⟩)]
          simp
  · intro element listed
    simp only [List.mem_append, List.mem_cons, frontOfHole, backOfHole] at listed ⊢
    rcases listed with (((inBefore | inFront) | inMid) | inBack) | inPost
    · exact ⟨element, .inl (.inl inBefore), rfl⟩
    · split at inFront
      · obtain rfl := List.mem_singleton.mp inFront
        exact ⟨hole, .inl (.inr (.inl rfl)), rfl⟩
      · cases inFront
    · exact ⟨element, .inr inMid, rfl⟩
    · split at inBack
      · obtain rfl := List.mem_singleton.mp inBack
        exact ⟨hole, .inl (.inr (.inl rfl)), rfl⟩
      · cases inBack
    · exact ⟨element, .inl (.inr (.inr inPost)), rfl⟩

theorem FillsHole.joins {runs filled joined : List RunlistElement} (fills : FillsHole runs mid filled)
    (become : Relation.ReflTransGen JoinsRuns filled joined) : FillsHole runs mid joined := by
  obtain ⟨clusters, kept⟩ := @joinsRuns_keep 0 _ _ become
  obtain ⟨follow, same⟩ := kept fills.follow
  refine ⟨follow, clusters.trans fills.clusters, fun vcn => (same vcn).trans (fills.maps vcn), ?_⟩
  exact @joinsRuns_lcn _ _ become (fun lcn => ∃ other ∈ runs ++ mid, lcn = other.lcn) fills.lcns

/-- Which of the operations `ntfs_runlists_merge` takes to put runs into a hole. -/
def fillOperation (someMemory : Bool) (dst src : List RunlistElement) (hole first last : RunlistElement) (ss dins : Nat) :
    Option (List RunlistElement × Nat) :=
  if hole.vcn = first.vcn then
    if hole.endVcn ≤ last.endVcn then ntfsRlReplace someMemory dst src ss dins else ntfsRlInsert someMemory dst src ss dins
  else if hole.endVcn ≤ last.endVcn then ntfsRlAppend someMemory dst src ss dins
  else ntfsRlSplit someMemory dst src ss dins

/-- `ntfs_runlists_merge` takes one of them, and fails only with it. -/
theorem ntfsRunlistsMerge_operation (follow : RunsFrom 0 (before ++ hole :: post)) (holed : hole.lcn = lcnHole)
    (starts : mid = first :: front) (ends : mid = back ++ [last]) (runs : RunsFrom first.vcn mid)
    (real : ∀ element ∈ mid, 0 ≤ element.lcn) (begins : hole.vcn ≤ first.vcn) (within : last.endVcn ≤ hole.endVcn)
    (stEnds : st.length = 0) (stLcn : st.lcn = lcnRlNotMapped) :
    ntfsRunlistsMerge someMemory (before ++ hole :: (post ++ [term])) (mid ++ [st]) rlHint 0 =
      match fillOperation someMemory (before ++ hole :: (post ++ [term])) (mid ++ [st]) hole first last mid.length
        before.length with
      | none => .enomem
      | some (rl, newRlCount) => .merged rl newRlCount := by
  have stop := rlClusters_last ends runs
  have parts := follow
  rw [runsFrom_append] at parts
  obtain ⟨earlier, holePlace, some_cluster, later⟩ := parts
  have realFirst : 0 ≤ first.lcn := real first (by simp [starts])
  have realLast : 0 ≤ last.lcn := real last (by simp [ends])
  have some_mid : 0 < mid.length := by simp [starts]
  have some_run : 0 < first.length := by
    rw [starts] at runs
    exact runs.2.1
  have firstStop : first.vcn < last.endVcn := by
    rw [← stop, starts, rlClusters_cons]
    omega
  have held : Holds hole first.vcn := ⟨begins, by simp only [RunlistElement.endVcn] at within firstStop; omega⟩
  have found := @ntfsAttrFindVcn_holds before post hole term first.vcn follow held rlHint
  have notMapped : lcnRlNotMapped = -3 := rfl
  have holeIs : lcnHole = -2 := rfl
  have enoent : lcnEnoent = -4 := rfl
  have count : (mid ++ [st]).findIdx (fun element => decide (element.length = 0)) = mid.length :=
    findIdx_behind (fun element listed => by simpa using (runs.long listed).ne') (by simpa using stEnds)
  have startAt : (mid ++ [st]).findIdx (fun element => decide (element.length = 0 ∨ lcnHole ≤ element.lcn)) = 0 := by
    have here : decide (first.length = 0 ∨ lcnHole ≤ first.lcn) = true := decide_eq_true (by omega)
    rw [starts, List.cons_append, List.findIdx_cons, here]
    rfl
  have mappedAt : ((mid ++ [st]).take (mid.length + 1)).reverse.findIdx (fun element => decide (lcnHole ≤ element.lcn)) = 1 := by
    have atEnd : decide (lcnHole ≤ st.lcn) = false := decide_eq_false (by omega)
    have atLast : decide (lcnHole ≤ last.lcn) = true := decide_eq_true (by omega)
    rw [List.take_of_length_le (by simp), ends, List.append_assoc, List.reverse_append]
    simp [List.findIdx_cons, atEnd, atLast]
  have firstAt : elementAt (mid ++ [st]) 0 = first := by
    rw [starts]
    rfl
  have lastAt : elementAt (mid ++ [st]) (mid.length - 1) = last := by
    rw [ends, List.append_assoc]
    exact elementAt_behind (by simp)
  have stAt : elementAt (mid ++ [st]) mid.length = st := elementAt_behind rfl
  have holeAt : elementAt (before ++ hole :: (post ++ [term])) before.length = hole := elementAt_behind rfl
  rw [ntfsRunlistsMerge]
  simp only [if_true, count, startAt, mappedAt, firstAt, found, Option.getD_some, holeAt, Nat.add_sub_cancel, stAt, lastAt,
    List.drop_zero, Nat.sub_zero]
  have notEmpty : (before ++ hole :: (post ++ [term])).isEmpty = false := by simp
  have unmapped : ¬ 0 ≤ hole.lcn := by omega
  have above : lcnRlNotMapped ≤ hole.lcn := by omega
  have notBelow : ¬ hole.lcn < lcnRlNotMapped := by omega
  have ended : ¬ st.lcn = lcnEnoent := by omega
  have long : ¬ hole.length = 0 := by omega
  have several : ¬ mid.length + 1 < 2 := by omega
  simp only [notEmpty, Bool.false_eq_true, if_false, several, unmapped, false_and, and_false, above, notBelow, true_and, false_or,
    ended, not_false_eq_true, and_true, long, Nat.add_zero]
  rfl

/-- `ntfs_runlists_merge` puts the runs of allocated clusters into a hole. -/
theorem ntfsRunlistsMerge_hole (follow : RunsFrom 0 (before ++ hole :: post)) (holed : hole.lcn = lcnHole)
    (ordinary : ∀ element ∈ post, element.lcn ≠ lcnEnoent) (terminal : term.lcn = lcnEnoent)
    (place : term.vcn = rlClusters (before ++ hole :: post)) (starts : mid = first :: front)
    (ends : mid = back ++ [last]) (runs : RunsFrom first.vcn mid) (real : ∀ element ∈ mid, 0 ≤ element.lcn)
    (begins : hole.vcn ≤ first.vcn) (within : last.endVcn ≤ hole.endVcn) (stEnds : st.length = 0)
    (stLcn : st.lcn = lcnRlNotMapped)
    (ok : ntfsRunlistsMerge someMemory (before ++ hole :: (post ++ [term])) (mid ++ [st]) rlHint 0 =
      .merged rl newRlCount) :
    ∃ joined, rl.take newRlCount = joined ++ [term] ∧ FillsHole (before ++ hole :: post) mid joined := by
  have stop := rlClusters_last ends runs
  have cut := cut_hole follow holed runs begins (by rw [stop]; exact within)
  rw [stop] at cut
  have parts := follow
  rw [runsFrom_append] at parts
  obtain ⟨earlier, holePlace, some_cluster, later⟩ := parts
  rw [Nat.zero_add] at holePlace later
  have realFirst : 0 ≤ first.lcn := real first (by simp [starts])
  have realLast : 0 ≤ last.lcn := real last (by simp [ends])
  rw [ntfsRunlistsMerge_operation follow holed starts ends runs real begins within stEnds stLcn, fillOperation] at ok
  split at ok
  · cases ok
  rename_i result shape
  cases ok
  simp only [RunlistElement.endVcn] at within
  have place' : last.endVcn = hole.endVcn → last.endVcn + rlClusters post = term.vcn := fun same => by
    rw [place, rlClusters_append, rlClusters_cons, same, RunlistElement.endVcn]
    omega
  have follow' : last.endVcn = hole.endVcn → RunsFrom last.endVcn post := fun same => by
    rw [same, RunlistElement.endVcn, holePlace]
    exact later
  have meets : hole.vcn = first.vcn → ∀ others final, before = others ++ [final] → final.endVcn = first.vcn := by
    rintro same others final rfl
    rw [runsFrom_append] at earlier
    obtain ⟨_, finalPlace, _⟩ := earlier
    rw [rlClusters_append, rlClusters_cons] at holePlace
    rw [RunlistElement.endVcn, ← same, holePlace, finalPlace]
    change _ = _ + (_ + 0)
    omega
  have nextIs : ∃ next behind, post ++ [term] = next :: behind ∧ next.vcn = hole.endVcn := by
    cases post with
    | nil =>
      refine ⟨term, [], rfl, ?_⟩
      rw [place, rlClusters_append, rlClusters_cons, RunlistElement.endVcn, holePlace]
      rfl
    | cons next behind =>
      exact ⟨next, behind ++ [term], rfl, by rw [later.1, RunlistElement.endVcn, holePlace]⟩
  split at shape
  · rename_i starting
    have noFront : frontOfHole hole first.vcn = [] := if_neg (by omega)
    split at shape
    · -- the runs fill the whole hole
      rename_i finishing
      have finished : last.endVcn = hole.endVcn := le_antisymm within finishing
      have noBack : backOfHole hole last.endVcn = [] := if_neg (by omega)
      obtain ⟨joined, same, joins⟩ := ntfsRlReplace_shape starts ends realFirst realLast ordinary terminal
        (place' finished) (follow' finished) (meets starting) shape
      rw [noFront, noBack, List.append_nil, List.append_nil] at cut
      exact ⟨joined, same, cut.joins joins⟩
    · -- a part of the hole is left behind the runs
      rename_i unfinished
      have back' : backOfHole hole last.endVcn = [{ hole with vcn := last.endVcn, length := hole.endVcn - last.endVcn }] :=
        if_pos (by omega)
      obtain ⟨next, behind, behindHole, nextPlace⟩ := nextIs
      rw [behindHole] at shape
      obtain ⟨joined, rfl, rfl, joins⟩ := ntfsRlInsert_shape starts ends realFirst holed (meets starting) (by
        rintro rfl
        rw [← starting, holePlace]
        rfl) shape
      refine ⟨joined ++ backOfHole hole last.endVcn ++ post, ?_, cut.joins ?_⟩
      · rw [List.take_length, ← behindHole, back', nextPlace]
        simp
      · have among := @joinsRuns_within _ _ [] (backOfHole hole last.endVcn ++ post) joins
        simpa [noFront] using among
  · rename_i notStarting
    have inFront : hole.vcn < first.vcn := by omega
    have front' : frontOfHole hole first.vcn = [{ hole with length := first.vcn - hole.vcn }] := if_pos inFront
    split at shape
    · -- a part of the hole is left in front of them
      rename_i finishing
      have finished : last.endVcn = hole.endVcn := le_antisymm within finishing
      have noBack : backOfHole hole last.endVcn = [] := if_neg (by omega)
      obtain ⟨joined, rfl, rfl, joins⟩ := ntfsRlAppend_shape starts ends realLast ordinary terminal (place' finished)
        (follow' finished) shape
      refine ⟨before ++ frontOfHole hole first.vcn ++ joined, ?_, cut.joins ?_⟩
      · rw [List.take_length, front']
        simp
      · have among := @joinsRuns_within _ _ (before ++ frontOfHole hole first.vcn) [] joins
        simpa [noBack] using among
    · -- both
      rename_i unfinished
      have back' : backOfHole hole last.endVcn = [{ hole with vcn := last.endVcn, length := hole.endVcn - last.endVcn }] :=
        if_pos (by omega)
      obtain ⟨next, behind, behindHole, nextPlace⟩ := nextIs
      rw [behindHole] at shape
      obtain ⟨rfl, rfl⟩ := ntfsRlSplit_shape starts ends shape
      refine ⟨_, ?_, cut⟩
      rw [List.take_length, ← behindHole, front', back', nextPlace]
      simp

end Filling

end Ttntfs.Ntfs
