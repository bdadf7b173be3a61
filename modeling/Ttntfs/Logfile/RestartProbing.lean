import Ttntfs.Logfile.LogGeometry
import Mathlib.Data.List.Iterate
import Mathlib.Data.List.TakeWhile

/-!
# The course of the search for the restart pages

The search of the open, position by position. The positions double in 32 bits, so that a
log of nearly 4 GiB brings the search back to its start. What it finds is told from the
content alone: it passes the positions that are erased, then collects the pages at the
positions that are neither erased nor a record page, two of them at most.
-/

namespace Ttntfs.Logfile

open Library.ByteMemory

section Probing

variable (stray : Stray) (content : Mem) (origSize : Nat)

/-- The positions whose sector the search reads. -/
def probedPositions : Nat → Nat → Probe → List Nat
  | 0, _, _ => []
  | rounds + 1, pos, probe =>
    if pos + lfsSectorSize ≤ origSize then
      let (probe, goesOn) := probeAt stray content origSize pos probe
      pos :: if goesOn then probedPositions rounds (nextPosition pos) probe else []
    else []

/-- The search over given positions: the probe at its end, and whether it got there. -/
def searchAlong : List Nat → Probe → Probe × Bool
  | [], probe => (probe, true)
  | pos :: positions, probe =>
    let (probe, goesOn) := probeAt stray content origSize pos probe
    if goesOn then searchAlong positions probe else (probe, false)

/-- The page that the search finds at a position. -/
def pageAt (pos : Nat) : Option RestartPage :=
  if lfGet32 content pos = lfsMagicRstr ∨ lfGet32 content pos = lfsMagicChkd then
    (loadRestartPage stray content origSize pos).toOption
  else none

/-- The sector at a position is erased. -/
def erasedAt (pos : Nat) : Bool := lfGet32 content pos = lfsMagicEmpty

/-- The search does not end at a position for its mark, once some page was seen. -/
def passesAt (pos : Nat) : Bool :=
  lfGet32 content pos ≠ lfsMagicEmpty && lfGet32 content pos ≠ lfsMagicRcrd

/-- The positions of one turn of the search, all in a log of at most 4 GiB. -/
def turnPositions : List Nat := List.iterate nextPosition 0 24

/-- The positions of the first turn that lie in the log. -/
def headPositions : List Nat := turnPositions.takeWhile fun pos => pos + lfsSectorSize ≤ origSize

/-- The pages at some positions that the search collects. -/
def collectedPages (positions : List Nat) : List RestartPage :=
  (positions.takeWhile (passesAt content)).filterMap (pageAt stray content origSize)

/-- The restart pages that the first turn of the search meets. -/
def restartCandidates : List RestartPage :=
  collectedPages stray content origSize ((headPositions origSize).dropWhile (erasedAt content))

/-- The page of a list that the open uses: it judges the first two. -/
def usedOf : List RestartPage → Option RestartPage
  | [] => none
  | first :: others => some (chooseRestartPage first others.head?).1

/-- The restart page that the open uses. -/
def usedPage : Option RestartPage := usedOf (restartCandidates stray content origSize)

/-- The search ends: the log ends before the positions wrap, or a position of the turn
holds a record page, or both erased and other sectors are met, or a page is found. -/
def SearchEnds : Prop :=
  origSize < 2 ^ 31 + lfsSectorSize ∨
    (∃ pos ∈ turnPositions, lfGet32 content pos = lfsMagicRcrd) ∨
    ((∃ pos ∈ turnPositions, erasedAt content pos) ∧
      ∃ pos ∈ turnPositions, ¬ erasedAt content pos) ∨
    ∃ pos ∈ turnPositions, (pageAt stray content origSize pos).isSome

end Probing

section Course

variable {stray : Stray} {content : Mem} {origSize pos rounds : Nat} {probe : Probe}

/-! ## One position -/

theorem probeAt_erased (erased : erasedAt content pos) :
    probeAt stray content origSize pos probe = (probe, probe.empty) := by
  rw [erasedAt, decide_eq_true_eq] at erased
  simp [probeAt, erased]

theorem probeAt_seen (written : ¬ erasedAt content pos) :
    probeAt stray content origSize pos probe =
      probeAt stray content origSize pos { probe with empty := false } := by
  rw [erasedAt, decide_eq_true_eq] at written
  simp only [probeAt, if_neg written]

/-- What a position that is not erased adds to the pages, and when the search goes on. -/
theorem probeAt_written (written : ¬ erasedAt content pos) :
    (probeAt stray content origSize pos probe).1.empty = false ∧
      (probeAt stray content origSize pos probe).1.found =
        probe.found ++ (if passesAt content pos then
          (pageAt stray content origSize pos).toList else []) ∧
      ((probeAt stray content origSize pos probe).2 = true ↔ passesAt content pos = true ∧
        ((pageAt stray content origSize pos).isSome → probe.found.length ≠ 1)) := by
  rw [erasedAt, decide_eq_true_eq] at written
  simp only [probeAt, if_neg written, passesAt, pageAt]
  by_cases record : lfGet32 content pos = lfsMagicRcrd
  · simp [record]
  by_cases restart : lfGet32 content pos = lfsMagicRstr ∨ lfGet32 content pos = lfsMagicChkd
  · have known : (decide (lfGet32 content pos ≠ lfsMagicRstr) &&
        decide (lfGet32 content pos ≠ lfsMagicChkd)) = false := by
      rw [Bool.and_eq_false_iff]
      simpa using restart
    rw [if_neg record, known, if_pos restart]
    cases loadRestartPage stray content origSize pos with
    | ok page => simp [written, record, Except.toOption]
    | error failure =>
      cases failure with
      | unsupported => simp [written, record, Except.toOption]
      | invalid _ => simp [written, record, Except.toOption]
  · have unknown : (decide (lfGet32 content pos ≠ lfsMagicRstr) &&
        decide (lfGet32 content pos ≠ lfsMagicChkd)) = true := by
      simpa [not_or] using restart
    rw [if_neg record, unknown, if_neg restart]
    simp [written, record]

/-! ## Many positions -/

theorem searchAlong_cons {positions : List Nat} :
    searchAlong stray content origSize (pos :: positions) probe =
      if (probeAt stray content origSize pos probe).2 then
        searchAlong stray content origSize positions (probeAt stray content origSize pos probe).1
      else ((probeAt stray content origSize pos probe).1, false) := rfl

/-- The rounds of the search run along the positions that they probe. -/
theorem findRestartPages_along {steps : Nat}
    (inside : ∀ place ∈ List.iterate nextPosition pos steps, place + lfsSectorSize ≤ origSize) :
    findRestartPages stray content origSize (steps + rounds) pos probe =
      if (searchAlong stray content origSize (List.iterate nextPosition pos steps) probe).2 then
        findRestartPages stray content origSize rounds (nextPosition^[steps] pos)
          (searchAlong stray content origSize (List.iterate nextPosition pos steps) probe).1
      else some
        (searchAlong stray content origSize (List.iterate nextPosition pos steps) probe).1 := by
  induction steps generalizing pos probe with
  | zero => simp [List.iterate, searchAlong]
  | succ steps ih =>
    have here : pos + lfsSectorSize ≤ origSize := inside pos List.mem_cons_self
    have later := @ih (nextPosition pos)
      (probeAt stray content origSize pos probe).1
      (fun other member => inside other (List.mem_cons_of_mem _ member))
    rw [show steps + 1 + rounds = steps + rounds + 1 by omega, findRestartPages_succ, if_pos here,
      List.iterate, searchAlong_cons, Function.iterate_succ_apply]
    split
    · exact later
    · rfl

theorem searchAlong_dropWhile {positions : List Nat} (unseen : probe.empty = true) :
    searchAlong stray content origSize positions probe =
      searchAlong stray content origSize (positions.dropWhile (erasedAt content)) probe := by
  induction positions with
  | nil => rfl
  | cons pos positions ih =>
    by_cases erased : erasedAt content pos
    · rw [List.dropWhile_cons_of_pos erased, searchAlong_cons, probeAt_erased erased, unseen,
        if_pos rfl]
      exact ih
    · rw [List.dropWhile_cons_of_neg erased]

theorem searchAlong_erased {positions : List Nat} (unseen : probe.empty = true)
    (erased : ∀ pos ∈ positions, erasedAt content pos) :
    searchAlong stray content origSize positions probe = (probe, true) := by
  rw [searchAlong_dropWhile unseen, List.dropWhile_eq_nil_iff.mpr erased]
  rfl

theorem searchAlong_seen {positions : List Nat} (written : ¬ erasedAt content pos) :
    searchAlong stray content origSize (pos :: positions) probe =
      searchAlong stray content origSize (pos :: positions) { probe with empty := false } := by
  rw [searchAlong_cons, searchAlong_cons, probeAt_seen written]

/-- Once some page was seen, the search collects pages as long as no position ends it, two
of them at most. -/
theorem searchAlong_collects {positions : List Nat} (seen : probe.empty = false)
    (few : probe.found.length < 2) :
    (searchAlong stray content origSize positions probe).1.empty = false ∧
      (searchAlong stray content origSize positions probe).1.found =
        (probe.found ++ collectedPages stray content origSize positions).take 2 ∧
      ((searchAlong stray content origSize positions probe).2 = true ↔
        (∀ pos ∈ positions, passesAt content pos) ∧
          (probe.found ++ collectedPages stray content origSize positions).length < 2) := by
  induction positions generalizing probe with
  | nil => simp [searchAlong, collectedPages, seen, few, List.take_of_length_le few.le]
  | cons pos positions ih =>
    rw [searchAlong_cons]
    by_cases erased : erasedAt content pos
    · have stops : passesAt content pos = false := by
        rw [erasedAt, decide_eq_true_eq] at erased
        simp [passesAt, erased]
      rw [probeAt_erased erased, seen, if_neg Bool.false_ne_true]
      simp [collectedPages, stops, seen, List.take_of_length_le few.le]
    obtain ⟨empty, found, goesOn⟩ :=
      @probeAt_written stray content origSize pos probe erased
    by_cases passes : passesAt content pos
    · rw [if_pos passes] at found
      have collected : collectedPages stray content origSize (pos :: positions) =
          (pageAt stray content origSize pos).toList ++
            collectedPages stray content origSize positions := by
        rw [collectedPages, List.takeWhile_cons_of_pos passes, List.filterMap_cons, collectedPages]
        cases pageAt stray content origSize pos <;> rfl
      by_cases full : (pageAt stray content origSize pos).isSome ∧ probe.found.length = 1
      · have ends : ¬ (probeAt stray content origSize pos probe).2 = true := fun on =>
          (goesOn.mp on).2 full.1 full.2
        obtain ⟨page, isPage⟩ := Option.isSome_iff_exists.mp full.1
        obtain ⟨first, isFirst⟩ := List.length_eq_one_iff.mp full.2
        rw [if_neg ends, collected, isPage, isFirst]
        rw [isPage, isFirst] at found
        simp [empty, found]
      · have on : (probeAt stray content origSize pos probe).2 = true :=
          goesOn.mpr ⟨passes, fun page one => full ⟨page, one⟩⟩
        have short : (probeAt stray content origSize pos probe).1.found.length < 2 := by
          rw [found, List.length_append]
          cases isPage : pageAt stray content origSize pos with
          | none => simpa using few
          | some page =>
            have empty : probe.found.length ≠ 1 := fun one => full ⟨by rw [isPage]; rfl, one⟩
            rw [Option.toList_some, List.length_singleton]
            omega
        obtain ⟨laterEmpty, laterFound, laterGoes⟩ := ih empty short
        rw [if_pos on, collected, ← List.append_assoc, ← found]
        refine ⟨laterEmpty, laterFound, laterGoes.trans ?_⟩
        simp [passes]
    · have ends : ¬ (probeAt stray content origSize pos probe).2 = true := fun on =>
        passes (goesOn.mp on).1
      rw [if_neg passes, List.append_nil] at found
      rw [if_neg ends]
      simp [empty, found, collectedPages, passes, List.take_of_length_le few.le]

/-! ## Whole turns -/

theorem takeWhile_iterate {α : Type} (next : α → α) (keeps : α → Bool) (start : α) (n : Nat) :
    ∃ k, k ≤ n ∧ (List.iterate next start n).takeWhile keeps = List.iterate next start k ∧
      (k = n ∨ keeps (next^[k] start) = false) := by
  induction n generalizing start with
  | zero => exact ⟨0, Nat.le_refl 0, rfl, .inl rfl⟩
  | succ n ih =>
    rw [List.iterate]
    by_cases kept : keeps start
    · obtain ⟨k, upper, taken, ended⟩ := ih (next start)
      refine ⟨k + 1, Nat.succ_le_succ upper, ?_, ended.imp (congrArg (· + 1)) id⟩
      rw [List.takeWhile_cons_of_pos kept, taken, List.iterate]
    · exact ⟨0, Nat.zero_le _, List.takeWhile_cons_of_neg kept, .inr (by simpa using kept)⟩

/-- The positions of a turn that lie in the log: all of them exactly in a log of more than
2 GiB. -/
theorem headPositions_eq (origSize : Nat) :
    ∃ steps, headPositions origSize = List.iterate nextPosition 0 steps ∧
      (steps = 24 ∧ 2 ^ 31 + lfsSectorSize ≤ origSize ∨
        steps < 24 ∧ origSize < 2 ^ 31 + lfsSectorSize ∧
          origSize < nextPosition^[steps] 0 + lfsSectorSize) := by
  obtain ⟨steps, upper, taken, ended⟩ := takeWhile_iterate nextPosition
    (fun pos => decide (pos + lfsSectorSize ≤ origSize)) 0 24
  have highest : ∀ steps < 24, nextPosition^[steps] 0 ≤ 2 ^ 31 := by decide
  refine ⟨steps, taken, ?_⟩
  by_cases whole : steps = 24
  · refine .inl ⟨whole, ?_⟩
    have last : 2 ^ 31 ∈ List.iterate nextPosition 0 24 := by decide
    rw [← whole, ← taken] at last
    have kept := List.mem_takeWhile_imp last
    exact of_decide_eq_true kept
  · have outside := of_decide_eq_false (ended.resolve_left whole)
    have low := highest steps (by omega)
    simp only [lfsSectorSize] at outside ⊢
    exact .inr ⟨by omega, by omega, by omega⟩

theorem headPositions_large (large : 2 ^ 31 + lfsSectorSize ≤ origSize) :
    headPositions origSize = turnPositions := by
  obtain ⟨steps, heads, ⟨rfl, -⟩ | ⟨-, small, -⟩⟩ := headPositions_eq origSize
  · exact heads
  · omega

/-- The first turn of the search. -/
theorem findRestartPages_turn (rounds : Nat) :
    findRestartPages stray content origSize (rounds + 25) 0 probe =
      if (searchAlong stray content origSize (headPositions origSize) probe).2 = true ∧
          2 ^ 31 + lfsSectorSize ≤ origSize then
        findRestartPages stray content origSize (rounds + 1) 0
          (searchAlong stray content origSize (headPositions origSize) probe).1
      else some (searchAlong stray content origSize (headPositions origSize) probe).1 := by
  obtain ⟨steps, heads, ends⟩ := headPositions_eq origSize
  have inside : ∀ place ∈ List.iterate nextPosition 0 steps,
      place + lfsSectorSize ≤ origSize := by
    intro place member
    rw [← heads] at member
    have kept := List.mem_takeWhile_imp member
    exact of_decide_eq_true kept
  rw [heads]
  obtain ⟨rfl, large⟩ | ⟨few, small, outside⟩ := ends
  · rw [show rounds + 25 = 24 + (rounds + 1) by omega, findRestartPages_along inside]
    have turned : nextPosition^[24] 0 = 0 := by decide
    rw [turned]
    simp only [and_iff_left large]
  · rw [show rounds + 25 = steps + ((24 - steps + rounds) + 1) by omega,
      findRestartPages_along inside, findRestartPages_end outside]
    have notLarge : ¬ 2 ^ 31 + lfsSectorSize ≤ origSize := by omega
    rw [ite_self, if_neg (fun both => notLarge both.2)]

theorem usedOf_take (pages : List RestartPage) : usedOf (pages.take 2) = usedOf pages := by
  match pages with
  | [] => rfl
  | [_] => rfl
  | _ :: _ :: _ => rfl

theorem usedOf_again (page : RestartPage) : usedOf [page, page] = usedOf [page] := by
  simp [usedOf, chooseRestartPage]

/-- What the search knows after its first turn: nothing, where every sector was erased,
else the first two pages. -/
theorem firstTurn (stray : Stray) (content : Mem) (origSize : Nat) :
    ((∀ pos ∈ headPositions origSize, erasedAt content pos) ∧
      searchAlong stray content origSize (headPositions origSize) {} = ({}, true) ∧
      restartCandidates stray content origSize = []) ∨
    ((∃ pos ∈ headPositions origSize, ¬ erasedAt content pos) ∧
      (searchAlong stray content origSize (headPositions origSize) {}).1.empty = false ∧
      (searchAlong stray content origSize (headPositions origSize) {}).1.found =
        (restartCandidates stray content origSize).take 2 ∧
      ((searchAlong stray content origSize (headPositions origSize) {}).2 = true ↔
        (∀ pos ∈ (headPositions origSize).dropWhile (erasedAt content), passesAt content pos) ∧
          (restartCandidates stray content origSize).length < 2)) := by
  by_cases erased : ∀ pos ∈ headPositions origSize, erasedAt content pos
  · refine .inl ⟨erased, searchAlong_erased rfl erased, ?_⟩
    rw [restartCandidates, List.dropWhile_eq_nil_iff.mpr erased]
    rfl
  refine .inr ⟨by simpa using erased, ?_⟩
  rw [searchAlong_dropWhile rfl, restartCandidates]
  cases left : (headPositions origSize).dropWhile (erasedAt content) with
  | nil => exact absurd (List.dropWhile_eq_nil_iff.mp left) erased
  | cons pos positions =>
    have written : ¬ erasedAt content pos := by
      have nonempty : (headPositions origSize).dropWhile (erasedAt content) ≠ [] :=
        left ▸ List.cons_ne_nil _ _
      have first := List.head_dropWhile_not (erasedAt content) nonempty
      simpa [left] using first
    rw [searchAlong_seen written]
    exact searchAlong_collects rfl (by decide)

/-! ## The whole search -/

theorem nextPosition_mem (member : pos ∈ turnPositions) : nextPosition pos ∈ turnPositions := by
  have closed : ∀ place ∈ turnPositions, nextPosition place ∈ turnPositions := by decide
  exact closed pos member

/-- A search that has no reason to end goes round for ever. -/
theorem findRestartPages_endless (endless : ¬ SearchEnds stray content origSize) (rounds : Nat) :
    findRestartPages stray content origSize rounds 0 {} = none := by
  simp only [SearchEnds, not_or, not_and, not_exists, Nat.not_lt] at endless
  obtain ⟨large, noRecord, mixed, noPage⟩ := endless
  have inside : ∀ place ∈ turnPositions, place + lfsSectorSize ≤ origSize := by
    intro place member
    have highest : ∀ place ∈ turnPositions, place ≤ 2 ^ 31 := by decide
    have below := highest place member
    omega
  by_cases erased : ∀ place ∈ turnPositions, erasedAt content place
  · have trapped {place : Nat} (member : place ∈ turnPositions) :
        findRestartPages stray content origSize rounds place {} = none := by
      induction rounds generalizing place with
      | zero => rfl
      | succ rounds ih =>
        rw [findRestartPages_succ, if_pos (inside place member),
          probeAt_erased (erased place member), if_pos rfl]
        exact ih (nextPosition_mem member)
    exact trapped (by decide)
  · have written : ∀ place ∈ turnPositions, ¬ erasedAt content place := by
      intro place member isErased
      exact erased fun other second =>
        Decidable.not_not.mp (mixed ⟨place, member, isErased⟩ other second)
    have trapped {place : Nat} {probe : Probe} (member : place ∈ turnPositions) :
        findRestartPages stray content origSize rounds place probe = none := by
      induction rounds generalizing place probe with
      | zero => rfl
      | succ rounds ih =>
        have passes : passesAt content place := by
          have notErased := written place member
          have notRecord := noRecord place
          rw [erasedAt, decide_eq_true_eq] at notErased
          simp [passesAt, notErased, notRecord member]
        have goesOn := (@probeAt_written stray content origSize place probe
          (written place member)).2.2.mpr ⟨passes, fun page => absurd page (noPage place member)⟩
        rw [findRestartPages_succ, if_pos (inside place member), if_pos goesOn]
        exact ih (nextPosition_mem member)
    exact trapped (by decide)

theorem not_searchEnds_of_turn (large : 2 ^ 31 + lfsSectorSize ≤ origSize)
    (passes : ∀ pos ∈ turnPositions, passesAt content pos)
    (none : collectedPages stray content origSize turnPositions = []) :
    ¬ SearchEnds stray content origSize := by
  have pass {place : Nat} (member : place ∈ turnPositions) :
      lfGet32 content place ≠ lfsMagicEmpty ∧ lfGet32 content place ≠ lfsMagicRcrd := by
    simpa [passesAt] using passes place member
  rw [collectedPages, List.takeWhile_eq_self_iff.mpr passes, List.filterMap_eq_nil_iff] at none
  rintro (small | ⟨place, member, record⟩ | ⟨⟨place, member, erased⟩, -⟩ | ⟨place, member, page⟩)
  · omega
  · exact (pass member).2 record
  · exact (pass member).1 (of_decide_eq_true erased)
  · rw [none place member] at page
    cases page

/-- How the search ends, within its rounds: having seen only erased sectors, exactly where
there are no others, and else with the page in use among what it found. -/
theorem findRestartPages_ends (ends : SearchEnds stray content origSize) :
    ∃ ended, findRestartPages stray content origSize searchRounds 0 {} = some ended ∧
      (ended.empty = true ↔ ∀ pos ∈ headPositions origSize, erasedAt content pos) ∧
      usedOf ended.found = usedPage stray content origSize := by
  have turn (probe : Probe) := @findRestartPages_turn stray content origSize probe 39
  rw [show 39 + 25 = searchRounds by rfl] at turn
  rw [turn]
  obtain ⟨erased, along, none⟩ | ⟨written, seen, found, goesOn⟩ := firstTurn stray content origSize
  · rw [along, usedPage, none]
    split
    · -- A log of erased sectors only and of more than 2 GiB has no reason to end.
      rename_i large
      exfalso
      rw [headPositions_large large.2] at erased
      obtain small | ⟨place, member, record⟩ | ⟨-, place, member, notErased⟩ |
        ⟨place, member, page⟩ := ends
      · omega
      · have blank := of_decide_eq_true (erased place member)
        rw [record] at blank
        cases blank
      · exact notErased (erased place member)
      · have blank := of_decide_eq_true (erased place member)
        rw [pageAt, if_neg (by rw [blank]; decide)] at page
        cases page
    · exact ⟨_, rfl, by simpa using erased, rfl⟩
  have notErased : ¬ ∀ pos ∈ headPositions origSize, erasedAt content pos := by
    obtain ⟨place, member, fresh⟩ := written
    exact fun erased => fresh (erased place member)
  split
  · rename_i again
    obtain ⟨passes, few⟩ := goesOn.mp again.1
    have large := again.2
    rw [List.take_of_length_le few.le] at found
    have second := @findRestartPages_turn stray content origSize
      (searchAlong stray content origSize (headPositions origSize) {}).1 15
    obtain ⟨secondSeen, secondFound, secondGoes⟩ := @searchAlong_collects stray content origSize
      (searchAlong stray content origSize (headPositions origSize) {}).1 (headPositions origSize)
      seen (by rw [found]; exact few)
    rw [found] at secondFound secondGoes
    rw [show 39 + 1 = 15 + 25 by rfl, second]
    have heads := headPositions_large large
    -- The second turn meets the pages of the first again, unless the log begins erased.
    have met : collectedPages stray content origSize (headPositions origSize) = [] ∧
          (∃ pos ∈ headPositions origSize, erasedAt content pos) ∨
        collectedPages stray content origSize (headPositions origSize) =
          restartCandidates stray content origSize := by
      by_cases first : erasedAt content 0
      · have stops : passesAt content 0 = false := by
          rw [erasedAt, decide_eq_true_eq] at first
          simp [passesAt, first]
        refine .inl ⟨?_, 0, heads ▸ (by decide), first⟩
        rw [collectedPages, heads, turnPositions, List.iterate,
          List.takeWhile_cons_of_neg (by rw [stops]; exact Bool.false_ne_true)]
        rfl
      · refine .inr ?_
        rw [restartCandidates, heads, turnPositions, List.iterate,
          List.dropWhile_cons_of_neg first]
    split
    · exfalso
      rename_i endless
      obtain ⟨allPass, short⟩ := secondGoes.mp endless.1
      have noneErased : ¬ ∃ pos ∈ headPositions origSize, erasedAt content pos := by
        rintro ⟨place, member, erased⟩
        have pass := allPass place member
        rw [erasedAt, decide_eq_true_eq] at erased
        simp [passesAt, erased] at pass
      have same := met.resolve_left fun both => noneErased both.2
      rw [← same, List.length_append] at short
      refine not_searchEnds_of_turn large (heads ▸ allPass) ?_ ends
      rw [← heads]
      exact List.eq_nil_of_length_eq_zero (by omega)
    · refine ⟨_, rfl, by simpa [secondSeen] using notErased, ?_⟩
      rw [secondFound, usedOf_take, usedPage]
      obtain ⟨none, -⟩ | same := met
      · rw [none, List.append_nil]
      · rw [same]
        match restartCandidates stray content origSize, few with
        | [], _ => rfl
        | [page], _ => exact usedOf_again page
  · refine ⟨_, rfl, by simpa [seen] using notErased, ?_⟩
    rw [found, usedOf_take, usedPage]

theorem findRestartPages_isSome_iff :
    (findRestartPages stray content origSize searchRounds 0 {}).isSome ↔
      SearchEnds stray content origSize := by
  constructor
  · intro some
    by_contra endless
    rw [findRestartPages_endless endless] at some
    cases some
  · intro ends
    obtain ⟨ended, searched, -⟩ := findRestartPages_ends ends
    rw [searched]
    rfl

theorem probedPositions_succ :
    probedPositions stray content origSize (rounds + 1) pos probe =
      if pos + lfsSectorSize ≤ origSize then
        pos :: if (probeAt stray content origSize pos probe).2 then
          probedPositions stray content origSize rounds (nextPosition pos)
            (probeAt stray content origSize pos probe).1
        else []
      else [] := rfl

/-- A search that saw only erased sectors read nothing else. -/
theorem probedPositions_erased {ended : Probe}
    (search : findRestartPages stray content origSize rounds pos probe = some ended)
    (empty : ended.empty = true) :
    ∀ place ∈ probedPositions stray content origSize rounds pos probe, erasedAt content place := by
  have flag {place : Nat} {before : Probe} (seen : before.empty = false) :
      (probeAt stray content origSize place before).1.empty = false := by
    by_cases erased : erasedAt content place
    · rw [probeAt_erased erased]
      exact seen
    · exact (probeAt_written erased).1
  have stays {rounds place : Nat} {before : Probe} (seen : before.empty = false)
      (search : findRestartPages stray content origSize rounds place before = some ended) :
      ended.empty = false := by
    induction rounds generalizing place before with
    | zero => cases search
    | succ rounds ih =>
      rw [findRestartPages_succ] at search
      split at search
      · split at search
        · exact ih (flag seen) search
        · exact Option.some.inj search ▸ flag seen
      · exact Option.some.inj search ▸ seen
  induction rounds generalizing pos probe with
  | zero => cases search
  | succ rounds ih =>
    rw [findRestartPages_succ] at search
    rw [probedPositions_succ]
    split at search
    · rename_i inside
      rw [if_pos inside]
      have here : erasedAt content pos := by
        by_contra written
        have seen := (@probeAt_written stray content origSize pos probe written).1
        split at search
        · rw [stays seen search] at empty
          cases empty
        · rw [← Option.some.inj search, seen] at empty
          cases empty
      intro place member
      obtain rfl | later := List.mem_cons.mp member
      · exact here
      · split at search
        · rename_i goesOn
          rw [if_pos goesOn] at later
          exact ih search place later
        · rename_i stops
          rw [if_neg stops] at later
          cases later
    · rename_i outside
      rw [if_neg outside]
      simp

end Course

end Ttntfs.Logfile
