import Mathlib.Tactic
import Ttntfs.Library.ByteMemory

/-!
# Finding matches

The compressor looks for earlier positions of the input where the same bytes stand. Positions
whose next three bytes have one hash code are linked to a chain, the last of them first.
`ntfs_best_match` goes along the chain of a position, and `ntfs_skip_position` only enters
the position. A chain holds earlier positions only, and what is reported as a match has been
compared byte by byte.
-/

namespace Ttntfs.Ntfs

open Ttntfs.Library.ByteMemory

/-- `NICE_MATCH_LEN` -/
def niceMatchLen : Nat := 18
/-- `MAX_SEARCH_DEPTH` -/
def maxSearchDepth : Nat := 24

/-- `struct compress_context`, without the input. -/
structure CompressContext where
  size : Nat
  rel : Int
  mxsz : Nat
  head : Nat → Int
  prev : Nat → Int

/-- `ntfs_hash` of the bytes at a position. -/
def ntfsHash (inbuf : Mem) (p : Nat) : Nat :=
  let str := getLE inbuf 4 p &&& 0xFFFFFF
  (str * 0x1E35A7BD) % 2 ^ 32 >>> (32 - 14)

/-- Enter a position into the chain of its hash code. -/
def CompressContext.enter (pctx : CompressContext) (inbuf : Mem) (i : Nat) : CompressContext :=
  let hash := ntfsHash inbuf i
  { pctx with
    prev := Function.update pctx.prev i (pctx.head hash)
    head := Function.update pctx.head hash i }

/-- The comparisons before a match is extended: it must be longer than the best so far. -/
def isLonger (inbuf : Mem) (matchptr strptr bestLen : Nat) : Bool :=
  inbuf (matchptr + bestLen) == inbuf (strptr + bestLen) &&
    inbuf (matchptr + (bestLen - 1)) == inbuf (strptr + (bestLen - 1)) &&
    inbuf matchptr == inbuf strptr &&
    (List.range' 1 (bestLen - 2)).all fun len => inbuf (matchptr + len) == inbuf (strptr + len)

/-- Extend a match as far as possible, by a number of bytes at most. -/
def extendMatch (inbuf : Mem) (matchptr strptr : Nat) : Nat → Nat → Nat
  | 0, bestLen => bestLen
  | more + 1, bestLen =>
    if inbuf (matchptr + bestLen) = inbuf (strptr + bestLen) then extendMatch inbuf matchptr strptr more (bestLen + 1)
    else bestLen

/-- The loop that extends a match up to the length that ends the search, which it reports. -/
def growMatch (inbuf : Mem) (matchptr strptr maxLen : Nat) : Nat → Nat → Nat × Bool
  | 0, bestLen => (extendMatch inbuf matchptr strptr (maxLen - (bestLen + 1)) (bestLen + 1), true)
  | more + 1, bestLen =>
    if inbuf (matchptr + (bestLen + 1)) = inbuf (strptr + (bestLen + 1)) then
      growMatch inbuf matchptr strptr maxLen more (bestLen + 1)
    else (bestLen + 1, false)

/-- The search along a chain: the length and the place of the best match. -/
def searchChain (inbuf : Mem) (prev : Nat → Int) (strptr maxLen niceLen : Nat) :
    Nat → Int → Nat → Nat → Nat × Nat
  | 0, _, bestLen, bestMatchptr => (bestLen, bestMatchptr)
  | depth + 1, curMatch, bestLen, bestMatchptr =>
    if curMatch < 0 then (bestLen, bestMatchptr)
    else
      let matchptr := curMatch.toNat
      if isLonger inbuf matchptr strptr bestLen then
        match growMatch inbuf matchptr strptr maxLen (niceLen - (bestLen + 1)) bestLen with
        | (bestLen, true) => (bestLen, matchptr)
        | (bestLen, false) => searchChain inbuf prev strptr maxLen niceLen depth (prev matchptr) bestLen matchptr
      else searchChain inbuf prev strptr maxLen niceLen depth (prev matchptr) bestLen bestMatchptr

/-- `ntfs_best_match` -/
def ntfsBestMatch (inbuf : Mem) (bufsize : Nat) (pctx : CompressContext) (i bestLen : Nat) : CompressContext :=
  let maxLen := min (bufsize - i) pctx.mxsz
  let niceLen := min niceMatchLen maxLen
  if maxLen < 4 then { pctx with size := bestLen, rel := 0 }
  else
    let curMatch := pctx.head (ntfsHash inbuf i)
    let pctx := pctx.enter inbuf i
    if bestLen ≥ maxLen then { pctx with size := bestLen, rel := 0 }
    else
      let found := searchChain inbuf pctx.prev i maxLen niceLen maxSearchDepth curMatch bestLen i
      { pctx with size := found.1, rel := (found.2 : Int) - i }

/-- `ntfs_skip_position` -/
def ntfsSkipPosition (inbuf : Mem) (bufsize : Nat) (pctx : CompressContext) (i : Nat) : CompressContext :=
  if bufsize - i < 4 then pctx else pctx.enter inbuf i

/-- The chains hold positions before a bound, each behind those it is linked to. -/
structure Chains (pctx : CompressContext) (bound : Nat) : Prop where
  head : ∀ hash, pctx.head hash < bound
  prev : ∀ i : Nat, i < bound → pctx.prev i < i

/-- A number of bytes at two places are equal. -/
def SameBytes (inbuf : Mem) (left right n : Nat) : Prop := ∀ k < n, inbuf (left + k) = inbuf (right + k)

section Search

variable {inbuf : Mem} {pctx : CompressContext} {matchptr strptr maxLen niceLen bestLen bound i : Nat}

theorem isLonger_same (some : 2 ≤ bestLen) (longer : isLonger inbuf matchptr strptr bestLen = true) :
    SameBytes inbuf matchptr strptr (bestLen + 1) := by
  simp only [isLonger, Bool.and_eq_true, beq_iff_eq, List.all_eq_true, List.mem_range'_1] at longer
  obtain ⟨⟨⟨last, previous⟩, first⟩, between⟩ := longer
  intro k early
  by_cases start : k = 0
  · subst start
    exact first
  · by_cases end_ : k = bestLen
    · rw [end_]
      exact last
    · by_cases before : k = bestLen - 1
      · rw [before]
        exact previous
      · exact between k (by omega)

theorem SameBytes.succ {n : Nat} (same : SameBytes inbuf matchptr strptr n)
    (next : inbuf (matchptr + n) = inbuf (strptr + n)) : SameBytes inbuf matchptr strptr (n + 1) := by
  intro k early
  by_cases last : k = n
  · rw [last]
    exact next
  · exact same k (by omega)

theorem extendMatch_same {more : Nat} (same : SameBytes inbuf matchptr strptr bestLen) :
    bestLen ≤ extendMatch inbuf matchptr strptr more bestLen ∧
      extendMatch inbuf matchptr strptr more bestLen ≤ bestLen + more ∧
      SameBytes inbuf matchptr strptr (extendMatch inbuf matchptr strptr more bestLen) := by
  induction more generalizing bestLen with
  | zero => exact ⟨Nat.le_refl _, Nat.le_refl _, same⟩
  | succ more ih =>
    rw [extendMatch]
    split
    · rename_i next
      obtain ⟨lower, upper, extended⟩ := ih (same.succ next)
      exact ⟨by omega, by omega, extended⟩
    · exact ⟨Nat.le_refl _, by omega, same⟩

/-- A match that has grown is a longer match. -/
theorem growMatch_same {more : Nat} (same : SameBytes inbuf matchptr strptr (bestLen + 1))
    (room : bestLen + 1 + more ≤ maxLen) :
    bestLen < (growMatch inbuf matchptr strptr maxLen more bestLen).1 ∧
      (growMatch inbuf matchptr strptr maxLen more bestLen).1 ≤ maxLen ∧
      ((growMatch inbuf matchptr strptr maxLen more bestLen).2 = false →
        (growMatch inbuf matchptr strptr maxLen more bestLen).1 ≤ bestLen + more) ∧
      SameBytes inbuf matchptr strptr (growMatch inbuf matchptr strptr maxLen more bestLen).1 := by
  induction more generalizing bestLen with
  | zero =>
    rw [growMatch]
    obtain ⟨lower, upper, extended⟩ := @extendMatch_same inbuf matchptr strptr (bestLen + 1)
      (maxLen - (bestLen + 1)) same
    exact ⟨by dsimp only; omega, by dsimp only; omega, fun ended => (by cases ended), extended⟩
  | succ more ih =>
    rw [growMatch]
    split
    · rename_i next
      obtain ⟨lower, upper, unended, grown⟩ := ih (same.succ next) (by omega)
      exact ⟨by omega, upper, fun ended => (by have := unended ended; omega), grown⟩
    · exact ⟨by dsimp only; omega, by dsimp only; omega, fun _ => (by dsimp only; omega), same⟩

/-- The search finds nothing longer, or a longer match before the position. -/
theorem searchChain_finds {prev : Nat → Int} {depth : Nat} {curMatch : Int} {place : Nat}
    (some : 2 ≤ bestLen) (nice : niceLen ≤ maxLen) (room : bestLen < niceLen)
    (early : curMatch < i) (linked : ∀ k : Nat, k < i → prev k < k) :
    searchChain inbuf prev i maxLen niceLen depth curMatch bestLen place = (bestLen, place) ∨
      ∃ found < i, ∃ size, searchChain inbuf prev i maxLen niceLen depth curMatch bestLen place = (size, found) ∧
        bestLen < size ∧ size ≤ maxLen ∧ SameBytes inbuf found i size := by
  induction depth generalizing curMatch bestLen place with
  | zero => exact .inl rfl
  | succ depth ih =>
    rw [searchChain]
    by_cases ended : curMatch < 0
    · rw [if_pos ended]
      exact .inl rfl
    obtain ⟨matchptr, rfl⟩ : ∃ matchptr : Nat, curMatch = matchptr := ⟨curMatch.toNat, by omega⟩
    have below : matchptr < i := by omega
    have next : prev matchptr < i := lt_trans (linked matchptr below) (by exact_mod_cast below)
    simp only [if_neg ended, Int.toNat_natCast]
    cases longer : isLonger inbuf matchptr i bestLen with
    | false =>
      simp only [Bool.false_eq_true, if_false]
      exact ih some room next
    | true =>
      obtain ⟨more, fits, unended, same⟩ := @growMatch_same inbuf matchptr i maxLen bestLen
        (niceLen - (bestLen + 1)) (isLonger_same some longer) (by omega)
      simp only [if_true]
      cases grown : growMatch inbuf matchptr i maxLen (niceLen - (bestLen + 1)) bestLen with
      | mk size stop =>
        simp only [grown] at more fits unended same
        cases stop with
        | true => exact .inr ⟨matchptr, below, size, rfl, more, fits, same⟩
        | false =>
          have bounded := unended rfl
          right
          obtain found | ⟨found, before, size', result, larger, inside, equal⟩ :=
            @ih size (prev matchptr) matchptr (by omega) (by omega) next
          · exact ⟨matchptr, below, size, found, more, fits, same⟩
          · exact ⟨found, before, size', result, by omega, inside, equal⟩

theorem Chains.enter (chains : Chains pctx i) : Chains (pctx.enter inbuf i) (i + 1) where
  head hash := by
    simp only [CompressContext.enter]
    by_cases here : hash = ntfsHash inbuf i
    · rw [here, Function.update_self]
      omega
    · rw [Function.update_of_ne here]
      have before := chains.head hash
      omega
  prev k early := by
    simp only [CompressContext.enter]
    by_cases here : k = i
    · rw [here, Function.update_self]
      exact chains.head _
    · rw [Function.update_of_ne here]
      exact chains.prev k (by omega)

/-- The positions that are entered before a position: the last three bytes have no hash code. -/
def entered (bufsize i : Nat) : Nat := min i (bufsize - 3)

theorem ntfsSkipPosition_chains {bufsize : Nat} (chains : Chains pctx (entered bufsize i)) :
    Chains (ntfsSkipPosition inbuf bufsize pctx i) (entered bufsize (i + 1)) ∧
      (ntfsSkipPosition inbuf bufsize pctx i).mxsz = pctx.mxsz := by
  rw [ntfsSkipPosition]
  simp only [entered] at chains ⊢
  split
  · rename_i late
    rw [show min (i + 1) (bufsize - 3) = min i (bufsize - 3) by omega]
    exact ⟨chains, rfl⟩
  · rename_i inside
    rw [show min i (bufsize - 3) = i by omega] at chains
    rw [show min (i + 1) (bufsize - 3) = i + 1 by omega]
    exact ⟨chains.enter, rfl⟩

/-- What a search at a position does: the position is entered, and if the size is larger than
before there is an earlier position where as many bytes are the same. -/
structure MatchSearched (inbuf : Mem) (bufsize : Nat) (before after : CompressContext) (i bestLen : Nat) : Prop where
  chains : Chains after (entered bufsize (i + 1))
  mxsz : after.mxsz = before.mxsz
  found : after.size = bestLen ∨
    (bestLen < after.size ∧ after.size ≤ bufsize - i ∧ after.size ≤ before.mxsz ∧
      ∃ place < i, after.rel = (place : Int) - i ∧ SameBytes inbuf place i after.size)

/-- `ntfs_best_match` finds matches. -/
theorem ntfsBestMatch_searched {bufsize : Nat} (chains : Chains pctx (entered bufsize i)) (some : 2 ≤ bestLen)
    (short : bestLen < niceMatchLen) (large : 4 ≤ pctx.mxsz) :
    MatchSearched inbuf bufsize pctx (ntfsBestMatch inbuf bufsize pctx i bestLen) i bestLen := by
  rw [ntfsBestMatch]
  simp only [entered] at chains
  split
  · rename_i late
    refine ⟨?_, rfl, .inl rfl⟩
    rw [entered, show min (i + 1) (bufsize - 3) = min i (bufsize - 3) by omega]
    exact ⟨chains.head, chains.prev⟩
  rename_i inside
  rw [show min i (bufsize - 3) = i by omega] at chains
  have entering : Chains (pctx.enter inbuf i) (i + 1) := chains.enter
  have bound : entered bufsize (i + 1) = i + 1 := by
    rw [entered]
    omega
  split
  · refine ⟨?_, rfl, .inl rfl⟩
    rw [bound]
    exact ⟨entering.head, entering.prev⟩
  rename_i room
  refine ⟨?_, rfl, ?_⟩
  · rw [bound]
    exact ⟨entering.head, entering.prev⟩
  have linked : ∀ k : Nat, k < i → (pctx.enter inbuf i).prev k < k := fun k early =>
    entering.prev k (by omega)
  obtain nothing | ⟨place, before, size, result, more, fits, same⟩ :=
    @searchChain_finds inbuf (min (bufsize - i) pctx.mxsz) (min niceMatchLen (min (bufsize - i) pctx.mxsz)) bestLen
      i (pctx.enter inbuf i).prev maxSearchDepth (pctx.head (ntfsHash inbuf i)) i some (by omega) (by omega)
      (chains.head _) linked
  · exact .inl (by simp only [nothing])
  · right
    simp only [result]
    exact ⟨more, by omega, by omega, place, before, rfl, same⟩

end Search

end Ttntfs.Ntfs
