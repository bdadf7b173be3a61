import Ttntfs.Ntfs.RunlistMerge

/-!
# Moving runs into a hole

The four ways in which `ntfs_runlists_merge` changes an array. What stands in it then is the
old list with the hole cut where the runs begin and end, and some runs that go on from one
another made one.
-/

namespace Ttntfs.Ntfs

/-- Two runs that go on from one another become one. -/
inductive JoinsRuns : List RunlistElement → List RunlistElement → Prop where
  | join (before behind : List RunlistElement) {left right : RunlistElement} (leftReal : 0 ≤ left.lcn)
      (adjacent : left.lcn + left.length = right.lcn) :
      JoinsRuns (before ++ left :: right :: behind)
        (before ++ { left with length := left.length + right.length } :: behind)

section Joins

variable {start : Nat} {runs joined : List RunlistElement}

theorem JoinsRuns.keeps (joins : JoinsRuns runs joined) : rlClusters joined = rlClusters runs ∧
    (RunsFrom start runs → RunsFrom start joined ∧ ∀ vcn, runsMap joined vcn = runsMap runs vcn) := by
  obtain ⟨before, behind, leftReal, adjacent⟩ := joins
  refine runs_merged before behind fun place vcn held => ?_
  simp only [Holds] at held
  rw [lcnWithin, lcnWithin, if_pos leftReal, if_pos (by omega)]
  dsimp only
  omega

theorem joinsRuns_keep (joins : Relation.ReflTransGen JoinsRuns runs joined) : rlClusters joined = rlClusters runs ∧
    (RunsFrom start runs → RunsFrom start joined ∧ ∀ vcn, runsMap joined vcn = runsMap runs vcn) := by
  induction joins with
  | refl => exact ⟨rfl, fun follow => ⟨follow, fun _ => rfl⟩⟩
  | tail _ once ih =>
    obtain ⟨clusters, kept⟩ := ih
    have keeps := @JoinsRuns.keeps start _ _ once
    refine ⟨keeps.1.trans clusters, fun follow => ?_⟩
    obtain ⟨first, same⟩ := kept follow
    obtain ⟨second, sameToo⟩ := keeps.2 first
    exact ⟨second, fun vcn => (sameToo vcn).trans (same vcn)⟩

theorem joinsRuns_lcn (joins : Relation.ReflTransGen JoinsRuns runs joined) {kept : Int → Prop}
    (all : ∀ element ∈ runs, kept element.lcn) : ∀ element ∈ joined, kept element.lcn := by
  induction joins with
  | refl => exact all
  | tail _ once ih =>
    obtain @⟨before, behind, left, right, leftReal, adjacent⟩ := once
    intro element listed
    simp only [List.mem_append, List.mem_cons] at listed ih
    rcases listed with earlier | rfl | later
    · exact ih _ (.inl earlier)
    · exact ih left (.inr (.inl rfl))
    · exact ih _ (.inr (.inr (.inr later)))

/-- Runs that become one among others. -/
theorem joinsRuns_within {before behind : List RunlistElement} (joins : Relation.ReflTransGen JoinsRuns runs joined) :
    Relation.ReflTransGen JoinsRuns (before ++ runs ++ behind) (before ++ joined ++ behind) := by
  refine joins.lift (fun list => before ++ list ++ behind) fun a b once => ?_
  obtain @⟨front, back, left, right, leftReal, adjacent⟩ := once
  have first : before ++ (front ++ left :: right :: back) ++ behind = (before ++ front) ++ left :: right :: (back ++ behind) := by
    simp
  have second : before ++ (front ++ { left with length := left.length + right.length } :: back) ++ behind =
      (before ++ front) ++ { left with length := left.length + right.length } :: (back ++ behind) := by simp
  change JoinsRuns (before ++ (front ++ left :: right :: back) ++ behind)
    (before ++ (front ++ { left with length := left.length + right.length } :: back) ++ behind)
  rw [first, second]
  exact .join _ _ leftReal adjacent

theorem mergeable_congr {dst src other : RunlistElement} (vcn : other.vcn = src.vcn) (lcn : other.lcn = src.lcn) :
    ntfsAreRlMergeable dst other = ntfsAreRlMergeable dst src := by
  rw [ntfsAreRlMergeable, ntfsAreRlMergeable, vcn, lcn]

theorem mergeable_real {dst src : RunlistElement} (merges : ntfsAreRlMergeable dst src = true)
    (real : 0 ≤ dst.lcn ∨ 0 ≤ src.lcn) : 0 ≤ dst.lcn ∧ 0 ≤ src.lcn ∧ dst.lcn + dst.length = src.lcn := by
  have notMapped : lcnRlNotMapped = -3 := rfl
  have hole : lcnHole = -2 := rfl
  have delalloc : lcnDelalloc = -1 := rfl
  rw [ntfsAreRlMergeable] at merges
  split at merges
  · omega
  split at merges
  · cases merges
  · split at merges
    · assumption
    · split at merges
      · omega
      · simp only [Bool.and_eq_true, decide_eq_true_eq] at merges
        omega

end Joins

section Arrays

variable {arr source : List RunlistElement} {d s n : Nat}

/-- A part of an array is moved out of the way, and other elements are copied in front of it. -/
theorem open_gap (room : d + source.length ≤ arr.length) :
    ntfsRlMc (ntfsRlMm arr (d + source.length) s n) d source =
      arr.take d ++ source ++ (arr.drop s).take n ++ arr.drop (d + source.length + ((arr.drop s).take n).length) := by
  rw [ntfsRlMm, ntfsRlMc, ntfsRlMc]
  generalize moved : (arr.drop s).take n = part
  have front : (arr.take (d + source.length)).length = d + source.length := by
    rw [List.length_take, Nat.min_eq_left room]
  have kept : (arr.take (d + source.length) ++ part ++ arr.drop (d + source.length + part.length)).take d = arr.take d := by
    rw [List.append_assoc, List.take_append_of_le_length (by omega), List.take_take, Nat.min_eq_left (by omega)]
  have rest : (arr.take (d + source.length) ++ part ++ arr.drop (d + source.length + part.length)).drop (d + source.length) =
      part ++ arr.drop (d + source.length + part.length) := by
    rw [List.append_assoc, List.drop_append_of_le_length (by omega), List.drop_eq_nil_of_le (by omega), List.nil_append]
  rw [kept, rest, ← List.append_assoc]

theorem open_gap_exact {kept moved : List RunlistElement} (front : arr.take d = kept) (part : (arr.drop s).take n = moved)
    (size : arr.length = d + source.length + moved.length) :
    ntfsRlMc (ntfsRlMm arr (d + source.length) s n) d source = kept ++ source ++ moved := by
  have gap := @open_gap arr source d s n (by omega)
  have nothing : arr.drop (d + source.length + moved.length) = [] := List.drop_eq_nil_of_le (by omega)
  rw [part, front, nothing, List.append_nil] at gap
  exact gap

theorem realloc_grows {someMemory : Bool} {rl grown : List RunlistElement} {newSize : Nat} (larger : rl.length ≤ newSize)
    (ok : ntfsRlRealloc someMemory rl newSize = some grown) : ∃ blank, grown = rl ++ blank ∧ grown.length = newSize := by
  rw [ntfsRlRealloc] at ok
  split at ok
  · rename_i same
    cases ok
    exact ⟨[], (List.append_nil _).symm, same⟩
  · split at ok
    · cases ok
      rw [List.take_of_length_le larger]
      exact ⟨_, rfl, by rw [List.length_append, List.length_replicate]; omega⟩
    · cases ok

end Arrays

section Shapes

variable {someMemory : Bool} {before behind front mid back rest rl blank grown : List RunlistElement}
  {hole next first last prev : RunlistElement} {newRlCount newSize : Nat}

/-- The element behind the first part of a list. -/
theorem elementAt_behind {i : Nat} (place : i = before.length) : elementAt (before ++ hole :: behind) i = hole := by
  rw [place]
  exact elementAt_append _ _ _

theorem elementAt_after (before behind : List RunlistElement) :
    elementAt (before ++ hole :: behind) (before.length + 1) = elementAt behind 0 := by
  have same : before ++ hole :: behind = (before ++ [hole]) ++ behind := by simp
  rw [same, elementAt, elementAt, List.getD_append_right _ _ _ _ (by simp)]
  simp

theorem modify_behind {i : Nat} (place : i = before.length) (f : RunlistElement → RunlistElement) :
    (before ++ hole :: behind).modify i f = before ++ f hole :: behind := by
  rw [place]
  exact modify_append _ _ _ f

theorem grown_parts (before behind blank : List RunlistElement) (d n : Nat) (short : d = before.length)
    (all : n = behind.length) : (before ++ behind ++ blank).take d = before ∧
      ((before ++ behind ++ blank).drop d).take n = behind := by
  subst short all
  rw [List.append_assoc]
  exact ⟨List.take_left, by rw [List.drop_left]; exact List.take_left⟩

/-- What `ntfs_rl_split` leaves of a hole in front of the runs, and behind them. -/
theorem ntfsRlSplit_shape (starts : mid = first :: front) (ends : mid = back ++ [last])
    (ok : ntfsRlSplit someMemory (before ++ hole :: next :: behind) (mid ++ rest) mid.length before.length =
      some (rl, newRlCount)) :
    rl = before ++ { hole with length := first.vcn - hole.vcn } :: mid ++
        { hole with vcn := last.endVcn, length := next.vcn - last.endVcn } :: next :: behind ∧
      newRlCount = rl.length := by
  rw [ntfsRlSplit] at ok
  dsimp only at ok
  obtain ⟨grown, realloc, result⟩ := Option.map_eq_some_iff.mp ok
  obtain ⟨blank, rfl, size⟩ := realloc_grows (by omega) realloc
  obtain ⟨rfl, rfl⟩ := Prod.mk.inj result
  have total : (before ++ hole :: next :: behind).length = before.length + behind.length + 2 := by
    simp only [List.length_append, List.length_cons]
    omega
  rw [List.length_append, total] at size
  have source : (mid ++ rest).take mid.length = mid := List.take_left
  have moved := grown_parts before (hole :: next :: behind) blank before.length
    ((before ++ hole :: next :: behind).length - before.length) rfl (by rw [total]; simp only [List.length_cons]; omega)
  have kept : (before ++ hole :: next :: behind ++ blank).take (before.length + 1) = before ++ [hole] := by
    have same : before ++ hole :: next :: behind ++ blank = before ++ [hole] ++ (next :: behind) ++ blank := by simp
    rw [same]
    exact (grown_parts (before ++ [hole]) (next :: behind) blank _ _ (by simp) rfl).1
  have gap := @open_gap_exact _ mid _ _ _ _ _ kept moved.2 (by
    rw [List.length_append, total]
    simp only [List.length_cons]
    omega)
  rw [source, gap]
  have start : before ++ [hole] ++ mid ++ hole :: next :: behind =
      before ++ hole :: (mid ++ hole :: next :: behind) := by simp
  rw [start, modify_behind rfl]
  have firstAt : elementAt (before ++ hole :: (mid ++ hole :: next :: behind)) (before.length + 1) = first := by
    have same : before ++ hole :: (mid ++ hole :: next :: behind) =
        (before ++ [hole]) ++ first :: (front ++ hole :: next :: behind) := by simp [starts]
    rw [same]
    exact elementAt_behind (by simp)
  rw [firstAt]
  generalize { hole with length := first.vcn - hole.vcn } = cut
  have lastAt : elementAt (before ++ cut :: (mid ++ hole :: next :: behind)) (before.length + mid.length) = last := by
    have same : before ++ cut :: (mid ++ hole :: next :: behind) =
        (before ++ cut :: back) ++ last :: (hole :: next :: behind) := by simp [ends]
    rw [same]
    exact elementAt_behind (by simp [ends])
  have nextAt : elementAt (before ++ cut :: (mid ++ hole :: next :: behind)) (before.length + mid.length + 2) = next := by
    have same : before ++ cut :: (mid ++ hole :: next :: behind) =
        (before ++ cut :: mid ++ [hole]) ++ next :: behind := by simp
    rw [same]
    exact elementAt_behind (by simp; omega)
  have middle : before ++ cut :: (mid ++ hole :: next :: behind) = (before ++ cut :: mid) ++ hole :: (next :: behind) := by
    simp
  rw [lastAt, nextAt, middle, modify_behind (by simp; omega)]
  refine ⟨rfl, ?_⟩
  simp only [List.length_append, List.length_cons]
  omega

theorem grown_tail (before behind blank : List RunlistElement) {d n r : Nat} (short : d = before.length + r)
    (all : n = behind.length - r) (some_behind : r ≤ behind.length) :
    ((before ++ behind ++ blank).drop d).take n = behind.drop r := by
  subst short all
  rw [List.append_assoc, ← List.drop_drop, List.drop_left, List.drop_append_of_le_length some_behind]
  exact List.take_left' (by rw [List.length_drop])

/-- The end marker stands where it is. -/
theorem marker_kept {post : List RunlistElement} {prev term : RunlistElement} {marker : Nat}
    (place : marker = before.length + 1) (ordinary : ∀ element ∈ post, element.lcn ≠ lcnEnoent)
    (ends : post = [] → prev.endVcn = term.vcn) (arr junk : List RunlistElement)
    (parts : arr = before ++ prev :: (post ++ term :: junk)) :
    (if (elementAt arr marker).lcn = lcnEnoent then
      arr.modify marker fun element => { element with vcn := (elementAt arr (marker - 1)).endVcn } else arr) = arr := by
  have prevAt : elementAt arr (marker - 1) = prev := by
    rw [parts]
    exact elementAt_behind (by omega)
  rw [prevAt]
  cases post with
  | nil =>
    have termParts : arr = (before ++ [prev]) ++ term :: junk := by simp [parts]
    rw [termParts, modify_behind (by simp [place]), ends rfl]
    split <;> rfl
  | cons next post =>
    have nextParts : arr = (before ++ [prev]) ++ next :: (post ++ term :: junk) := by simp [parts]
    have nextAt : elementAt arr marker = next := by
      rw [nextParts]
      exact elementAt_behind (by simp [place])
    rw [nextAt, if_neg (ordinary next List.mem_cons_self)]

theorem merge_last (before rest : List RunlistElement) (element : RunlistElement) {i : Nat} (place : i = before.length)
    (length : Nat) : ntfsRlMerge (before ++ element :: rest) i length =
      before ++ { element with length := element.length + length } :: rest :=
  modify_behind place _

/-- The runs that are copied, with what the last of them takes from the element behind them, and what
is left of the elements behind. -/
structure Copied (mid post : List RunlistElement) (first term : RunlistElement) (right : Bool)
    (copied tail : List RunlistElement) : Prop where
  count : copied.length = mid.length
  tail_eq : tail = post.drop right.toNat
  short : tail.length + right.toNat = post.length
  joins : Relation.ReflTransGen JoinsRuns (mid ++ post) (copied ++ tail)
  starts : ∃ (head : RunlistElement) (others : List RunlistElement), copied = head :: others ∧ head.vcn = first.vcn ∧
    head.lcn = first.lcn
  ends : ∃ (others : List RunlistElement) (final : RunlistElement), copied = others ++ [final] ∧
    final.endVcn + rlClusters tail = term.vcn

/-- The right end of the runs is merged where it goes on with the element behind them. -/
theorem right_copied {post : List RunlistElement} {term : RunlistElement} (starts : mid = first :: front)
    (ends : mid = back ++ [last]) (real : 0 ≤ last.lcn) (terminal : term.lcn = lcnEnoent)
    (place : last.endVcn + rlClusters post = term.vcn) (follow : RunsFrom last.endVcn post)
    (nextIs : elementAt (post ++ [term]) 0 = next) : ∃ copied tail,
      Copied mid post first term (ntfsAreRlMergeable last next) copied tail ∧
      (if ntfsAreRlMergeable last next = true then ntfsRlMerge (mid ++ rest) (mid.length - 1) next.length
        else mid ++ rest) = copied ++ rest := by
  cases merges : ntfsAreRlMergeable last next with
  | false =>
    exact ⟨mid, post, ⟨rfl, rfl, rfl, .refl, ⟨first, front, starts, rfl, rfl⟩, ⟨back, last, ends, place⟩⟩, rfl⟩
  | true =>
    obtain ⟨_, nextReal, adjacent⟩ := mergeable_real merges (.inl real)
    cases post with
    | nil =>
      obtain rfl : term = next := nextIs
      rw [terminal] at nextReal
      exact absurd nextReal (by decide)
    | cons after post =>
      obtain rfl : after = next := nextIs
      have endsAt : ({ last with length := last.length + after.length } : RunlistElement).endVcn + rlClusters post =
          term.vcn := by
        rw [← place, rlClusters_cons]
        simp only [RunlistElement.endVcn]
        omega
      refine ⟨back ++ [{ last with length := last.length + after.length }], post, ⟨by simp [ends], rfl, rfl, ?_, ?_,
        ⟨back, _, rfl, endsAt⟩⟩, ?_⟩
      · have whole : mid ++ after :: post = back ++ last :: after :: post := by simp [ends]
        have joined : back ++ [{ last with length := last.length + after.length }] ++ post =
            back ++ { last with length := last.length + after.length } :: post := by simp
        rw [whole, joined]
        exact .single (.join back post real adjacent)
      · cases back with
        | nil =>
          have one : first = last := by
            have same := starts.symm.trans ends
            simp at same
            exact same.1
          exact ⟨_, [], rfl, by rw [one], by rw [one]⟩
        | cons head back =>
          have same : first = head := by
            have same := starts.symm.trans ends
            simp at same
            exact same.1
          exact ⟨head, back ++ [_], rfl, by rw [same], by rw [same]⟩
      · rw [if_pos rfl, ends, List.append_assoc, List.singleton_append, merge_last back rest last (by simp)]
        simp

/-- What `ntfs_rl_append` leaves of a hole in front of the runs. -/
theorem ntfsRlAppend_shape {post : List RunlistElement} {term : RunlistElement} (starts : mid = first :: front)
    (ends : mid = back ++ [last]) (real : 0 ≤ last.lcn) (ordinary : ∀ element ∈ post, element.lcn ≠ lcnEnoent)
    (terminal : term.lcn = lcnEnoent) (place : last.endVcn + rlClusters post = term.vcn)
    (follow : RunsFrom last.endVcn post)
    (ok : ntfsRlAppend someMemory (before ++ hole :: (post ++ [term])) (mid ++ rest) mid.length before.length =
      some (rl, newRlCount)) :
    ∃ joined, rl = before ++ { hole with length := first.vcn - hole.vcn } :: joined ++ [term] ∧ newRlCount = rl.length ∧
      Relation.ReflTransGen JoinsRuns (mid ++ post) joined := by
  have lastAt : elementAt (mid ++ rest) (mid.length - 1) = last := by
    rw [ends, List.append_assoc]
    exact elementAt_behind (by simp)
  have total : (before ++ hole :: (post ++ [term])).length = before.length + post.length + 2 := by
    simp only [List.length_append, List.length_cons, List.length_nil]
    omega
  have inside : before.length + 1 < (before ++ hole :: (post ++ [term])).length := by omega
  have some_mid : 0 < mid.length := by simp [starts]
  rw [ntfsRlAppend] at ok
  dsimp only at ok
  rw [lastAt] at ok
  simp only [inside, decide_true, Bool.true_and] at ok
  generalize nextIs : elementAt (before ++ hole :: (post ++ [term])) (before.length + 1) = next at ok
  have nextHead : elementAt (post ++ [term]) 0 = next := (elementAt_after before (post ++ [term])).symm.trans nextIs
  obtain ⟨copied, tail, copies, source⟩ := @right_copied front mid back rest next first last post term starts ends real
    terminal place follow nextHead
  generalize ntfsAreRlMergeable last next = right at *
  obtain ⟨count, tail_eq, short, joins, ⟨head, others, startsCopied, sameVcn, _⟩, ⟨start, final, endsCopied, endsAt⟩⟩ := copies
  obtain ⟨grown, realloc, result⟩ := Option.map_eq_some_iff.mp ok
  obtain ⟨blank, rfl, size⟩ := realloc_grows (by have := Bool.toNat_le right; omega) realloc
  have readNext : elementAt (before ++ hole :: (post ++ [term]) ++ blank) (before.length + 1) = next := by
    rw [← nextIs, elementAt, elementAt, List.getD_append _ _ _ _ inside]
  obtain ⟨rfl, rfl⟩ := Prod.mk.inj result
  rw [readNext, source, ← count, List.take_left]
  have moved := grown_tail (before ++ [hole]) (post ++ [term]) blank (r := right.toNat)
    (d := before.length + 1 + right.toNat) (n := (before ++ hole :: (post ++ [term])).length - (before.length + 1 + right.toNat))
    (by simp) (by rw [total]; simp; omega) (by simp; omega)
  have same : before ++ [hole] ++ (post ++ [term]) ++ blank = before ++ hole :: (post ++ [term]) ++ blank := by simp
  have tailIs : (post ++ [term]).drop right.toNat = tail ++ [term] := by
    rw [List.drop_append_of_le_length (by omega), ← tail_eq]
  rw [same, tailIs] at moved
  have kept := (grown_parts (before ++ [hole]) (post ++ [term]) blank (before.length + 1) _ (by simp) rfl).1
  rw [same] at kept
  rw [List.length_append, total] at size
  have gap := @open_gap_exact _ copied _ _ _ _ _ kept moved (by
    rw [List.length_append, total]
    simp only [List.length_append, List.length_cons, List.length_nil]
    omega)
  have markerPlace : before.length + copied.length + 1 = before.length + 1 + copied.length := by omega
  rw [markerPlace, gap]
  have arranged : before ++ [hole] ++ copied ++ (tail ++ [term]) = before ++ hole :: (copied ++ tail ++ [term]) := by simp
  rw [arranged, modify_behind rfl]
  have firstAt : elementAt (before ++ hole :: (copied ++ tail ++ [term])) (before.length + 1) = head := by
    have again : before ++ hole :: (copied ++ tail ++ [term]) = (before ++ [hole]) ++ head :: (others ++ tail ++ [term]) := by
      simp [startsCopied]
    rw [again]
    exact elementAt_behind (by simp)
  rw [firstAt, sameVcn]
  have fixed := @marker_kept (before ++ { hole with length := first.vcn - hole.vcn } :: start) tail final term
    (before.length + 1 + copied.length) (by simp [endsCopied]; omega)
    (fun element listed => ordinary element (by
      rw [tail_eq] at listed
      exact List.mem_of_mem_drop listed)) (fun nothing => by
      rw [← endsAt, nothing]
      rfl)
    (before ++ { hole with length := first.vcn - hole.vcn } :: (copied ++ tail ++ [term])) [] (by simp [endsCopied])
  rw [fixed]
  refine ⟨copied ++ tail, by simp, ?_, joins⟩
  simp only [List.length_append, List.length_cons, List.length_nil]
  omega

/-- The left end of the runs is merged where it goes on from the element before them. -/
theorem left_copied (starts : mid = first :: front) (ends : mid = back ++ [last]) (real : 0 ≤ first.lcn)
    (meets : ∀ others final, before = others ++ [final] → final.endVcn = first.vcn) (left : Bool)
    (merges : left = (decide (0 < before.length) && ntfsAreRlMergeable (elementAt (before ++ rest) (before.length - 1)) first)) :
    ∃ filled, filled.length = before.length ∧
      (∀ blank, (if left = true then ntfsRlMerge (before ++ blank) (before.length - 1) first.length else before ++ blank) =
        filled ++ blank) ∧
      Relation.ReflTransGen JoinsRuns (before ++ mid) (filled ++ mid.drop left.toNat) ∧
      ∃ others final, filled ++ mid.drop left.toNat = others ++ [final] ∧ final.endVcn = last.endVcn := by
  cases left with
  | false =>
    exact ⟨before, rfl, fun _ => rfl, .refl, before ++ back, last, by simp [ends], rfl⟩
  | true =>
    have both := merges.symm
    rw [Bool.and_eq_true, decide_eq_true_eq] at both
    obtain ⟨some_before, merges⟩ := both
    obtain rfl | ⟨others, final, rfl⟩ := List.eq_nil_or_concat' before
    · exact absurd some_before (Nat.lt_irrefl 0)
    · have finalAt : elementAt (others ++ [final] ++ rest) ((others ++ [final]).length - 1) = final := by
        rw [List.append_assoc]
        exact elementAt_behind (by simp)
      rw [finalAt] at merges
      obtain ⟨finalReal, _, adjacent⟩ := mergeable_real merges (.inr real)
      have meet := meets others final rfl
      refine ⟨others ++ [{ final with length := final.length + first.length }], by simp, fun blank => ?_, ?_, ?_⟩
      · rw [if_pos rfl, List.append_assoc, List.singleton_append, merge_last others blank final (by simp)]
        simp
      · have whole : others ++ [final] ++ mid = others ++ final :: first :: front := by simp [starts]
        have joined : others ++ [{ final with length := final.length + first.length }] ++ mid.drop (true).toNat =
            others ++ { final with length := final.length + first.length } :: front := by simp [starts]
        rw [whole, joined]
        exact .single (.join others front finalReal adjacent)
      · cases back with
        | nil =>
          have one : mid = [last] := ends
          have same : first = last := by
            rw [starts] at one
            exact (List.cons.inj one).1
          refine ⟨others, { final with length := final.length + first.length }, by simp [one], ?_⟩
          simp only [RunlistElement.endVcn] at meet ⊢
          rw [← same]
          omega
        | cons head back =>
          exact ⟨others ++ [{ final with length := final.length + first.length }] ++ back, last, by simp [ends], rfl⟩

/-- What `ntfs_rl_insert` leaves of a hole behind the runs. -/
theorem ntfsRlInsert_shape (starts : mid = first :: front) (ends : mid = back ++ [last]) (real : 0 ≤ first.lcn)
    (holed : hole.lcn = lcnHole) (meets : ∀ others final, before = others ++ [final] → final.endVcn = first.vcn)
    (begins : before = [] → first.vcn = 0)
    (ok : ntfsRlInsert someMemory (before ++ hole :: next :: behind) (mid ++ rest) mid.length before.length =
      some (rl, newRlCount)) :
    ∃ joined, rl = joined ++ { hole with vcn := last.endVcn, length := next.vcn - last.endVcn } :: next :: behind ∧
      newRlCount = rl.length ∧ Relation.ReflTransGen JoinsRuns (before ++ mid) joined := by
  have firstAt : elementAt (mid ++ rest) 0 = first := by
    rw [starts]
    rfl
  have total : (before ++ hole :: next :: behind).length = before.length + behind.length + 2 := by
    simp only [List.length_append, List.length_cons]
    omega
  have some_mid : 0 < mid.length := by simp [starts]
  rw [ntfsRlInsert] at ok
  dsimp only at ok
  rw [firstAt] at ok
  generalize leftIs : (decide (0 < before.length) &&
    ntfsAreRlMergeable (elementAt (before ++ hole :: next :: behind) (before.length - 1)) first) = left at ok
  have disc : (if before.length = 0 then decide (0 < first.vcn) else
      decide ((elementAt (before ++ hole :: next :: behind) (before.length - 1)).vcn +
        ((elementAt (before ++ hole :: next :: behind) (before.length - 1)).length +
          if left = true then first.length else 0) < first.vcn)) = false := by
    obtain rfl | ⟨others, final, rfl⟩ := List.eq_nil_or_concat' before
    · rw [begins rfl]
      rfl
    · have finalAt : elementAt (others ++ [final] ++ hole :: next :: behind) ((others ++ [final]).length - 1) = final := by
        rw [List.append_assoc]
        exact elementAt_behind (by simp)
      have meet := meets others final rfl
      simp only [RunlistElement.endVcn] at meet
      rw [if_neg (by simp), finalAt, decide_eq_false_iff_not]
      omega
  rw [disc] at ok
  simp only [Bool.toNat_false, Nat.add_zero, Bool.false_eq_true, if_false] at ok
  obtain ⟨filled, count, merged, joins, others, final, endsFilled, endsAt⟩ :=
    left_copied starts ends real meets left leftIs.symm
  obtain ⟨grown, realloc, result⟩ := Option.map_eq_some_iff.mp ok
  have leftBound := Bool.toNat_le left
  obtain ⟨blank, rfl, size⟩ := realloc_grows (by rw [total]; omega) realloc
  obtain ⟨rfl, rfl⟩ := Prod.mk.inj result
  have again : before ++ hole :: next :: behind ++ blank = before ++ (hole :: next :: behind ++ blank) := by simp
  rw [again, merged, List.take_left, ← count]
  have parts := grown_parts filled (hole :: next :: behind) blank filled.length
    ((before ++ hole :: next :: behind).length - filled.length) rfl (by rw [total, count]; simp only [List.length_cons]; omega)
  rw [List.append_assoc] at parts
  have copied : (mid.drop left.toNat).length = mid.length - left.toNat := List.length_drop
  rw [List.length_append, total] at size
  have gap := @open_gap_exact _ (mid.drop left.toNat) _ _ _ _ _ parts.1 parts.2 (by
    simp only [List.length_append, List.length_cons, copied, count]
    omega)
  rw [copied] at gap
  have markerPlace : filled.length + mid.length - left.toNat = filled.length + (mid.length - left.toNat) := by omega
  rw [markerPlace, gap, endsFilled]
  have length : filled.length + (mid.length - left.toNat) = others.length + 1 := by
    have same := congrArg List.length endsFilled
    simp only [List.length_append, List.length_cons, List.length_nil, copied] at same
    exact same
  rw [length, Nat.add_sub_cancel]
  have finalAt : elementAt (others ++ [final] ++ hole :: next :: behind) others.length = final := by
    rw [List.append_assoc]
    exact elementAt_behind rfl
  rw [finalAt, modify_behind (by simp)]
  have holeAt : elementAt (others ++ [final] ++ { hole with vcn := final.endVcn } :: next :: behind) (others.length + 1) =
      { hole with vcn := final.endVcn } := elementAt_behind (by simp)
  have nextAt : elementAt (others ++ [final] ++ { hole with vcn := final.endVcn } :: next :: behind) (others.length + 1 + 1) =
      next := by
    have same : others ++ [final] ++ { hole with vcn := final.endVcn } :: next :: behind =
        (others ++ [final] ++ [{ hole with vcn := final.endVcn }]) ++ next :: behind := by simp
    rw [same]
    exact elementAt_behind (by simp)
  rw [holeAt, nextAt, if_pos (.inl holed), modify_behind (by simp), endsAt]
  refine ⟨others ++ [final], rfl, ?_, ?_⟩
  · simp only [List.length_append, List.length_cons, List.length_nil]
    omega
  · rw [← endsFilled]
    exact joins

/-- What `ntfs_rl_replace` leaves. -/
theorem ntfsRlReplace_shape {post : List RunlistElement} {term : RunlistElement} (starts : mid = first :: front)
    (ends : mid = back ++ [last]) (realFirst : 0 ≤ first.lcn) (realLast : 0 ≤ last.lcn)
    (ordinary : ∀ element ∈ post, element.lcn ≠ lcnEnoent)
    (terminal : term.lcn = lcnEnoent) (place : last.endVcn + rlClusters post = term.vcn)
    (follow : RunsFrom last.endVcn post)
    (meets : ∀ others final, before = others ++ [final] → final.endVcn = first.vcn)
    (ok : ntfsRlReplace someMemory (before ++ hole :: (post ++ [term])) (mid ++ rest) mid.length before.length =
      some (rl, newRlCount)) :
    ∃ joined, rl.take newRlCount = joined ++ [term] ∧
      Relation.ReflTransGen JoinsRuns (before ++ mid ++ post) joined := by
  have lastAt : elementAt (mid ++ rest) (mid.length - 1) = last := by
    rw [ends, List.append_assoc]
    exact elementAt_behind (by simp)
  have firstAt : elementAt (mid ++ rest) 0 = first := by
    rw [starts]
    rfl
  have total : (before ++ hole :: (post ++ [term])).length = before.length + post.length + 2 := by
    simp only [List.length_append, List.length_cons, List.length_nil]
    omega
  have inside : before.length + 1 < (before ++ hole :: (post ++ [term])).length := by omega
  have some_mid : 0 < mid.length := by simp [starts]
  rw [ntfsRlReplace] at ok
  dsimp only at ok
  rw [lastAt, firstAt] at ok
  simp only [inside, decide_true, Bool.true_and] at ok
  generalize nextIs : elementAt (before ++ hole :: (post ++ [term])) (before.length + 1) = next at ok
  have nextHead : elementAt (post ++ [term]) 0 = next := (elementAt_after before (post ++ [term])).symm.trans nextIs
  obtain ⟨copied, tail, copies, source⟩ := @right_copied front mid back rest next first last post term starts ends realLast
    terminal place follow nextHead
  generalize leftIs : (decide (0 < before.length) &&
    ntfsAreRlMergeable (elementAt (before ++ hole :: (post ++ [term])) (before.length - 1)) first) = left at ok
  generalize ntfsAreRlMergeable last next = right at *
  obtain ⟨count, tail_eq, short, joins, ⟨head, others, startsCopied, sameVcn, sameLcn⟩, ⟨start, final, endsCopied, endsAt⟩⟩ :=
    copies
  obtain ⟨filled, countFilled, merged, joinsLeft, others', final', endsFilled, endsAt'⟩ :=
    @left_copied before others copied start (hole :: (post ++ [term])) head final startsCopied endsCopied
      (by rw [sameLcn]; exact realFirst) (by rw [sameVcn]; exact meets) left
      (by rw [mergeable_congr sameVcn sameLcn]; exact leftIs.symm)
  have leftBound := Bool.toNat_le left
  have rightBound := Bool.toNat_le right
  obtain ⟨grown, realloc, result⟩ := Option.map_eq_some_iff.mp ok
  obtain ⟨blank, rfl, size⟩ : ∃ blank, grown = before ++ hole :: (post ++ [term]) ++ blank ∧
      (before ++ hole :: (post ++ [term])).length + mid.length - 1 - left.toNat - right.toNat ≤ grown.length := by
    split at realloc
    · obtain ⟨blank, same, size⟩ := realloc_grows (by omega) realloc
      exact ⟨blank, same, size.ge⟩
    · cases realloc
      exact ⟨[], (List.append_nil _).symm, by omega⟩
  have readNext : elementAt (before ++ hole :: (post ++ [term]) ++ blank) (before.length + 1) = next := by
    rw [← nextIs, elementAt, elementAt, List.getD_append _ _ _ _ inside]
  obtain ⟨rfl, rfl⟩ := Prod.mk.inj result
  have headAt : elementAt (copied ++ rest) 0 = head := by
    rw [startsCopied]
    rfl
  have again : before ++ hole :: (post ++ [term]) ++ blank = before ++ (hole :: (post ++ [term]) ++ blank) := by simp
  rw [readNext, source, headAt, ← count, List.take_left, again, merged, ← countFilled]
  have same : filled ++ (hole :: (post ++ [term]) ++ blank) = filled ++ [hole] ++ (post ++ [term]) ++ blank := by simp
  have moved := grown_tail (filled ++ [hole]) (post ++ [term]) blank (r := right.toNat)
    (d := filled.length + right.toNat + 1)
    (n := (before ++ hole :: (post ++ [term])).length - (filled.length + right.toNat + 1))
    (by simp; omega) (by rw [total]; simp; omega) (by simp; omega)
  have tailIs : (post ++ [term]).drop right.toNat = tail ++ [term] := by
    rw [List.drop_append_of_le_length (by omega), ← tail_eq]
  rw [← same, tailIs] at moved
  have wide : (before ++ hole :: (post ++ [term]) ++ blank).length = before.length + post.length + 2 + blank.length := by
    rw [List.length_append, total]
  rw [total, wide] at size
  have kept : (filled ++ (hole :: (post ++ [term]) ++ blank)).take filled.length = filled := List.take_left
  have shortened : (copied.drop left.toNat).length = copied.length - left.toNat := List.length_drop
  have gap := @open_gap (filled ++ (hole :: (post ++ [term]) ++ blank)) (copied.drop left.toNat) filled.length
    (filled.length + right.toNat + 1) ((before ++ hole :: (post ++ [term])).length - (filled.length + right.toNat + 1))
    (by
      rw [shortened, countFilled]
      simp only [List.length_append, List.length_cons, List.length_nil]
      omega)
  rw [moved, kept] at gap
  generalize (filled ++ (hole :: (post ++ [term]) ++ blank)).drop
    (filled.length + (copied.drop left.toNat).length + (tail ++ [term]).length) = junk at gap
  have markerPlace : filled.length + copied.length - left.toNat = filled.length + (copied.drop left.toNat).length := by omega
  have tailInside : filled.length + right.toNat + 1 < (before ++ hole :: (post ++ [term])).length := by
    rw [total]
    omega
  rw [markerPlace, gap, endsFilled]
  have length : filled.length + (copied.drop left.toNat).length = others'.length + 1 := by
    have same := congrArg List.length endsFilled
    simp only [List.length_append, List.length_cons, List.length_nil] at same
    exact same
  simp only [tailInside, true_and]
  have fixed := @marker_kept others' tail final' term (filled.length + (copied.drop left.toNat).length) length
    (fun element listed => ordinary element (by
      rw [tail_eq] at listed
      exact List.mem_of_mem_drop listed)) (fun nothing => by
      rw [endsAt', ← endsAt, nothing]
      rfl)
    (others' ++ [final'] ++ (tail ++ [term]) ++ junk) junk (by simp)
  rw [fixed]
  refine ⟨others' ++ [final'] ++ tail, ?_, ?_⟩
  · have front : others' ++ [final'] ++ (tail ++ [term]) ++ junk = (others' ++ [final'] ++ tail ++ [term]) ++ junk := by simp
    rw [front]
    refine List.take_left' ?_
    simp only [List.length_append, List.length_cons, List.length_nil]
    omega
  · have first := @joinsRuns_within (mid ++ post) (copied ++ tail) before [] joins
    have second := @joinsRuns_within (before ++ copied) (filled ++ copied.drop left.toNat) [] tail joinsLeft
    rw [List.append_nil, List.append_nil, ← List.append_assoc, ← List.append_assoc] at first
    rw [List.nil_append, List.nil_append, endsFilled] at second
    exact first.trans second

end Shapes

end Ttntfs.Ntfs
