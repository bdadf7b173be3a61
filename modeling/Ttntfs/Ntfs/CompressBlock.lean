import Ttntfs.Ntfs.MatchFinder
import Ttntfs.Ntfs.TokenGroups

/-!
# Compressing a block

`ntfs_compress_block` writes the tokens of a block of at most 4096 bytes. It takes the longest
match at a position unless there is a longer one at the next position, and writes a symbol
where there is no match. The tag of a group is stored when the group is full. If the tokens
need as much room as the block itself, the block is stored as it is. Whatever matches are
found, the tokens that have been written stand for the input up to the current position.
-/

namespace Ttntfs.Ntfs

open Ttntfs.Library.ByteMemory
open Ttntfs.Library.BackReferences

/-- The output: the buffer with the position in it, the place and the value of the current tag,
and the number of its bits that are still undefined. -/
structure CompressOutput where
  outbuf : Mem
  xout : Nat
  ptag : Nat
  tag : Nat
  ntag : Nat

/-- The state of the compression. -/
structure Compression where
  pctx : CompressContext
  i : Nat
  bp : Nat
  mxoff : Nat
  haveMatch : Bool
  out : CompressOutput

/-- Write a literal. -/
def CompressOutput.putSymbol (out : CompressOutput) (byte : UInt8) : CompressOutput :=
  { out with
    outbuf := Function.update out.outbuf out.xout byte
    xout := out.xout + 1 }

/-- Write an offset and a size, and set the bit of the tag. -/
def CompressOutput.putPhrase (out : CompressOutput) (offs : Int) (bpCur size : Nat) : CompressOutput :=
  let q := ((-offs - 1).toNat <<< (16 - bpCur)) + (size - 3)
  { out with
    outbuf := putLE out.outbuf 2 out.xout q
    xout := out.xout + 2
    tag := out.tag ||| (1 <<< (8 - out.ntag)) }

/-- Count a token, and store the tag if it is fully used. -/
def CompressOutput.countToken (out : CompressOutput) : CompressOutput :=
  if out.ntag - 1 = 0 then
    ⟨Function.update out.outbuf out.ptag (UInt8.ofNat out.tag), out.xout + 1, out.xout, 0, 8⟩
  else { out with ntag := out.ntag - 1 }

/-- One bit more for the offsets. -/
def Compression.widen (s : Compression) : Compression :=
  { s with
    bp := s.bp + 1
    mxoff := s.mxoff * 2
    pctx := { s.pctx with mxsz := (s.pctx.mxsz + 2) / 2 } }

/-- The loop that adjusts the bits for the offsets to a position. -/
def Compression.adjust (i : Nat) : Nat → Compression → Compression
  | 0, s => s
  | rounds + 1, s => if s.mxoff < i then adjust i rounds s.widen else s

/-- The loop that skips positions. -/
def skipPositions (inbuf : Mem) (bufsize : Nat) : Nat → CompressContext → Nat → CompressContext
  | 0, pctx, _ => pctx
  | more + 1, pctx, i => skipPositions inbuf bufsize more (ntfsSkipPosition inbuf bufsize pctx i) (i + 1)

/-- The search at the current position, unless there is a match already. -/
def Compression.prepare (inbuf : Mem) (bufsize : Nat) (s : Compression) : Compression :=
  if s.haveMatch then s
  else
    let s := Compression.adjust s.i s.i s
    { s with pctx := ntfsBestMatch inbuf bufsize s.pctx s.i 2 }

/-- The search at the next position, for a match that is longer than the one at the current. -/
def Compression.lookAhead (inbuf : Mem) (bufsize : Nat) (s : Compression) : Compression :=
  let next := if s.mxoff < s.i + 1 then s.widen else s
  { next with pctx := ntfsBestMatch inbuf bufsize next.pctx (s.i + 1) s.pctx.size }

/-- One round of the loop of `ntfs_compress_block`, and whether it ends the loop. -/
def compressRound (inbuf : Mem) (bufsize : Nat) (s : Compression) : Compression × Bool :=
  let s := s.prepare inbuf bufsize
  if s.pctx.size ≥ 3 then
    let j := s.i + s.pctx.size
    let phrase := s.out.putPhrase s.pctx.rel s.bp (j - s.i)
    if s.pctx.size ≥ niceMatchLen then
      if j = bufsize then ({ s with i := j, out := { phrase with ntag := phrase.ntag - 1 } }, true)
      else
        ({ s with
            pctx := skipPositions inbuf bufsize (j - (s.i + 1)) s.pctx (s.i + 1)
            i := j
            haveMatch := false
            out := phrase.countToken }, false)
    else
      let next := s.lookAhead inbuf bufsize
      let k := s.i + 1 + next.pctx.size
      if k > j + 1 then
        ({ next with
            i := s.i + 1
            haveMatch := true
            out := (s.out.putSymbol (inbuf s.i)).countToken }, false)
      else
        ({ next with
            pctx := skipPositions inbuf bufsize (j - (s.i + 2)) next.pctx (s.i + 2)
            i := j
            haveMatch := false
            out := phrase.countToken }, false)
  else
    ({ s with
        i := s.i + 1
        haveMatch := false
        out := (s.out.putSymbol (inbuf s.i)).countToken }, false)

/-- The loop of `ntfs_compress_block`. -/
def compressLoop (inbuf : Mem) (bufsize : Nat) : Nat → Compression → Compression
  | 0, s => s
  | fuel + 1, s =>
    if s.i < bufsize ∧ s.out.xout < ntfsSbSize + 2 then
      match compressRound inbuf bufsize s with
      | (s, true) => s
      | (s, false) => compressLoop inbuf bufsize fuel s
    else s

/-- The state before the loop. -/
def compressStart (outbuf : Mem) : Compression where
  pctx := ⟨0, 0, 2 ^ (16 - 4) + 2, fun _ => -1, fun _ => 0⟩
  i := 0
  bp := 4
  mxoff := 2 ^ 4
  haveMatch := false
  out := ⟨outbuf, 3, 2, 0, 8⟩

/-- The last tag, stored if it is partially used. -/
def CompressOutput.close (out : CompressOutput) : Mem × Nat :=
  if out.ntag = 8 then (out.outbuf, out.xout - 1)
  else (Function.update out.outbuf out.ptag (UInt8.ofNat out.tag), out.xout)

/-- `ntfs_compress_block`: the output buffer and the size of the sub-block in it. -/
def ntfsCompressBlock (inbuf : Mem) (bufsize : Nat) (outbuf : Mem) : Mem × Nat :=
  let s := compressLoop inbuf bufsize bufsize (compressStart outbuf)
  let closed := s.out.close
  if s.i ≥ bufsize ∧ closed.2 < ntfsSbSize + 2 then
    let outbuf := Function.update closed.1 0 (UInt8.ofNat ((closed.2 - 3) &&& 255))
    (Function.update outbuf 1 (UInt8.ofNat (0xb0 + (((closed.2 - 3) >>> 8) &&& 15))), closed.2)
  else
    let outbuf := copyRange closed.1 2 inbuf 0 bufsize
    let outbuf := if bufsize < ntfsSbSize then fillRange outbuf (bufsize + 2) (ntfsSbSize - bufsize) 0 else outbuf
    (Function.update (Function.update outbuf 0 0xff) 1 0x3f, ntfsSbSize + 2)

/-- The output holds tokens that stand for the input up to a position: full groups, and behind them
the tokens of the current group, whose tag is not stored yet. -/
structure TokensWritten (inbuf : Mem) (out : CompressOutput) (i : Nat) (tokens : List Token) : Prop where
  groups : ∃ pos, Groups inbuf out.outbuf 2 out.ptag pos ∧
    TokensAt inbuf out.outbuf (out.ptag + 1) pos tokens ∧ i = pos + tokensWidth tokens
  tag : out.tag = tagOf tokens
  xout : out.xout = out.ptag + 1 + tokensSize tokens

/-- The context holds a match at a position that a phrase with this number of bits for the
distance can express. -/
structure HasMatch (inbuf : Mem) (bufsize : Nat) (pctx : CompressContext) (i bits : Nat) : Prop where
  long : 3 ≤ pctx.size
  inside : i + pctx.size ≤ bufsize
  fits : pctx.size ≤ 2 ^ (16 - bits) + 2
  place : ∃ place < i, pctx.rel = (place : Int) - i ∧ SameBytes inbuf place i pctx.size

/-- The invariant of the loop. -/
structure Compressing (inbuf : Mem) (bufsize : Nat) (s : Compression) : Prop where
  bits : 4 ≤ s.bp ∧ s.bp ≤ distanceBits s.i
  mxoff : s.mxoff = 2 ^ s.bp
  mxsz : s.pctx.mxsz = 2 ^ (16 - s.bp) + 2
  inside : s.i ≤ bufsize
  chains : Chains s.pctx (entered bufsize (if s.haveMatch then s.i + 1 else s.i))
  matched : s.haveMatch = true → s.bp = distanceBits s.i ∧ HasMatch inbuf bufsize s.pctx s.i s.bp
  written : ∃ tokens, TokensWritten inbuf s.out s.i tokens ∧ tokens.length + s.out.ntag = 8 ∧ 0 < s.out.ntag

section Output

variable {inbuf : Mem} {out : CompressOutput} {i : Nat} {tokens : List Token}

/-- Bytes behind what is written may change. -/
theorem TokensWritten.append {token : Token} {outbuf : Mem} {xout tag ntag : Nat}
    (written : TokensWritten inbuf out i tokens)
    (kept : ∀ k < out.xout, outbuf k = out.outbuf k) (new : TokenAt outbuf out.xout i token)
    (describes : token.Describes inbuf i) (position : xout = out.xout + tokenSize token)
    (bit : tag = out.tag + tagBit token * 2 ^ tokens.length) :
    TokensWritten inbuf ⟨outbuf, xout, out.ptag, tag, ntag⟩ (i + token.width) (tokens ++ [token]) where
  groups := by
    obtain ⟨pos, groups, here, rfl⟩ := written.groups
    have place := written.xout
    refine ⟨pos, groups.congr fun k _ (early : k < out.ptag) => kept k (by omega), ?_, ?_⟩
    · dsimp only
      rw [tokensAt_append]
      refine ⟨tokensAt_congr (fun k _ early => kept k (by omega)) here, ⟨?_, describes⟩, trivial⟩
      rw [← place]
      exact new
    · rw [tokensWidth_append, tokensWidth_cons, tokensWidth_nil]
      omega
  tag := by rw [tagOf_snoc, bit, written.tag]
  xout := by
    dsimp only
    rw [position, written.xout, tokensSize_append, tokensSize_cons, tokensSize_nil]
    omega

theorem TokensWritten.putSymbol (written : TokensWritten inbuf out i tokens) :
    TokensWritten inbuf (out.putSymbol (inbuf i)) (i + 1) (tokens ++ [.symbol (inbuf i)]) := by
  refine @TokensWritten.append inbuf out i tokens (.symbol (inbuf i)) _ _ _ _ written ?_ ?_ rfl rfl ?_
  · intro k early
    exact Function.update_of_ne (by omega) _ _
  · exact Function.update_self _ _ _
  · simp [tagBit]

/-- A match. -/
theorem TokensWritten.putPhrase {bufsize : Nat} {pctx : CompressContext} (written : TokensWritten inbuf out i tokens)
    (found : HasMatch inbuf bufsize pctx i (distanceBits i)) (count : tokens.length + out.ntag = 8)
    (within : bufsize ≤ ntfsSbSize) :
    ∃ token, TokensWritten inbuf (out.putPhrase pctx.rel (distanceBits i) pctx.size) (i + pctx.size)
      (tokens ++ [token]) := by
  obtain ⟨place, before, rel, same⟩ := found.place
  have long := found.long
  have fits := found.fits
  have inside := found.inside
  have small : i ≤ 2 ^ 12 := by
    rw [ntfsSbSize] at within
    omega
  have upper : distanceBits i ≤ 12 := (distanceBits_le_iff (by decide)).mpr small
  have enough := le_two_pow_distanceBits i
  have word : ((-pctx.rel - 1).toNat <<< (16 - distanceBits i)) + (pctx.size - 3) = phraseWord i (i - place) pctx.size := by
    rw [phraseWord, Nat.shiftLeft_eq, rel]
    congr 3
    omega
  have narrow : phraseWord i (i - place) pctx.size < 256 ^ 2 := by
    have power : 2 ^ distanceBits i * 2 ^ (16 - distanceBits i) = 256 ^ 2 := by
      rw [← Nat.pow_add, show distanceBits i + (16 - distanceBits i) = 16 by omega]
      rfl
    have factor : (i - place - 1 + 1) * 2 ^ (16 - distanceBits i) ≤ 2 ^ distanceBits i * 2 ^ (16 - distanceBits i) :=
      Nat.mul_le_mul_right _ (by omega)
    rw [Nat.add_mul] at factor
    rw [phraseWord]
    omega
  refine ⟨.phrase (i - place) pctx.size,
    @TokensWritten.append inbuf out i tokens (.phrase (i - place) pctx.size) _ _ _ _ written ?_ ?_ ?_ rfl ?_⟩
  · intro k early
    exact putLE_outside (.inl early)
  · refine ⟨long, by omega, ?_⟩
    rw [word]
    exact getLE_putLE_of_lt narrow
  · refine ⟨by omega, by omega, ?_⟩
    rw [show i - (i - place) = place by omega]
    exact same
  · have bound := tagOf_lt tokens
    rw [← written.tag] at bound
    have length : 8 - out.ntag = tokens.length := by omega
    have sum := Nat.two_pow_add_eq_or_of_lt bound 1
    rw [Nat.mul_one] at sum
    simp only [tagBit, length, Nat.one_shiftLeft]
    rw [Nat.or_comm, ← sum]
    omega

/-- Counting a token stores the tag of a full group. -/
theorem TokensWritten.countToken (written : TokensWritten inbuf out i tokens) (count : tokens.length + out.ntag = 9)
    (some : 0 < out.ntag) :
    ∃ tokens', TokensWritten inbuf out.countToken i tokens' ∧ tokens'.length + out.countToken.ntag = 8 ∧
      0 < out.countToken.ntag := by
  rw [CompressOutput.countToken]
  split
  · rename_i full
    have eight : tokens.length = 8 := by omega
    obtain ⟨pos, groups, here, rfl⟩ := written.groups
    refine ⟨[], ⟨⟨pos + tokensWidth tokens, ?_, trivial, rfl⟩, rfl, rfl⟩, rfl, Nat.zero_lt_succ 7⟩
    have bound := tagOf_lt tokens
    rw [eight] at bound
    rw [written.xout]
    refine .snoc (groups.congr fun k _ early => Function.update_of_ne (by omega) _ _) ⟨?_, ?_⟩ eight
    · simp only [Function.update_self, written.tag]
      exact UInt8.toNat_ofNat_of_lt' bound
    · exact tokensAt_congr (fun k lower _ => Function.update_of_ne (by omega) _ _) here
  · rename_i more
    exact ⟨tokens, ⟨written.groups, written.tag, written.xout⟩, by dsimp only; omega, by dsimp only; omega⟩

/-- The last tag closes the tokens of the sub-block. -/
theorem TokensWritten.close (written : TokensWritten inbuf out i tokens) (count : tokens.length + out.ntag = 8) :
    SubBlockTokens inbuf out.close.1 2 out.close.2 i := by
  obtain ⟨pos, groups, here, rfl⟩ := written.groups
  rw [CompressOutput.close]
  split
  · rename_i unused
    obtain rfl : tokens = [] := List.eq_nil_of_length_eq_zero (by omega)
    have place := written.xout
    simp only [place, tokensSize_nil, tokensWidth_nil, Nat.add_zero, Nat.add_sub_cancel]
    exact .full groups
  · rename_i used
    have nonempty : tokens ≠ [] := by
      rintro rfl
      exact used (by simpa using count)
    simp only [written.xout]
    have bound := tagOf_lt tokens
    have most : 2 ^ tokens.length ≤ 2 ^ 8 := Nat.pow_le_pow_right (by decide) (by omega)
    refine .more (groups.congr fun k _ early => Function.update_of_ne (by omega) _ _) ⟨?_, ?_⟩ nonempty (by omega)
    · rw [Function.update_self, written.tag]
      exact UInt8.toNat_ofNat_of_lt' (lt_of_lt_of_le bound most)
    · exact tokensAt_congr (fun k lower _ => Function.update_of_ne (by omega) _ _) here

end Output

section Rounds

variable {inbuf : Mem} {bufsize : Nat} {s next : Compression} {pctx : CompressContext}

/-- The bits are adjusted to the distances that are possible at a position. -/
theorem adjust_eq {i rounds : Nat} (bits : 4 ≤ s.bp ∧ s.bp ≤ distanceBits i) (mxoff : s.mxoff = 2 ^ s.bp)
    (mxsz : s.pctx.mxsz = 2 ^ (16 - s.bp) + 2) (few : distanceBits i ≤ 12) (enough : distanceBits i ≤ s.bp + rounds) :
    Compression.adjust i rounds s =
      { s with
        bp := distanceBits i
        mxoff := 2 ^ distanceBits i
        pctx := { s.pctx with mxsz := 2 ^ (16 - distanceBits i) + 2 } } := by
  have done (same : distanceBits i = s.bp) :
      s = { s with
        bp := distanceBits i
        mxoff := 2 ^ distanceBits i
        pctx := { s.pctx with mxsz := 2 ^ (16 - distanceBits i) + 2 } } := by
    rw [same, ← mxoff, ← mxsz]
  induction rounds generalizing s with
  | zero => exact done (by omega)
  | succ rounds ih =>
    rw [Compression.adjust]
    split
    · rename_i short
      have less : s.bp < distanceBits i := by
        by_contra enough
        rw [mxoff] at short
        exact absurd ((distanceBits_le_iff bits.1).mp (Nat.le_of_not_lt enough)) (Nat.not_le.mpr short)
      have halved : (s.pctx.mxsz + 2) / 2 = 2 ^ (16 - (s.bp + 1)) + 2 := by
        rw [mxsz, show 16 - s.bp = 16 - (s.bp + 1) + 1 by omega, Nat.pow_succ]
        omega
      have widened := @ih s.widen ⟨by simp only [Compression.widen]; omega, by exact less⟩
        (by simp only [Compression.widen, mxoff, Nat.pow_succ]) halved (by simp only [Compression.widen]; omega)
      rw [widened]
      · rfl
      · intro same
        simp only [Compression.widen] at same ⊢
        rw [same, halved, mxoff, Nat.pow_succ]
    · rename_i long
      rw [mxoff] at long
      exact done (le_antisymm ((distanceBits_le_iff bits.1).mpr (Nat.le_of_not_lt long)) bits.2)

/-- The state of a round behind the search at its position. -/
structure Prepared (inbuf : Mem) (bufsize : Nat) (s : Compression) : Prop where
  bits : s.bp = distanceBits s.i
  mxoff : s.mxoff = 2 ^ s.bp
  mxsz : s.pctx.mxsz = 2 ^ (16 - s.bp) + 2
  chains : Chains s.pctx (entered bufsize (s.i + 1))
  matched : 3 ≤ s.pctx.size → HasMatch inbuf bufsize s.pctx s.i s.bp

theorem distanceBits_le_twelve {i : Nat} (inside : i ≤ bufsize) (within : bufsize ≤ ntfsSbSize) :
    distanceBits i ≤ 12 := by
  apply (distanceBits_le_iff (by decide)).mpr
  rw [ntfsSbSize] at within
  omega

theorem MatchSearched.hasMatch {before after : CompressContext} {i bestLen bits : Nat}
    (searched : MatchSearched inbuf bufsize before after i bestLen) (more : bestLen < after.size) (some : 2 ≤ bestLen)
    (inside : i ≤ bufsize) (mxsz : before.mxsz = 2 ^ (16 - bits) + 2) : HasMatch inbuf bufsize after i bits := by
  obtain same | ⟨_, fits, short, place⟩ := searched.found
  · omega
  · exact ⟨by omega, by omega, by omega, place⟩

/-- The search at the current position. -/
theorem Compressing.prepare (compressing : Compressing inbuf bufsize s) (within : bufsize ≤ ntfsSbSize) :
    Prepared inbuf bufsize (s.prepare inbuf bufsize) ∧ (s.prepare inbuf bufsize).i = s.i ∧
      (s.prepare inbuf bufsize).out = s.out := by
  have few := distanceBits_le_twelve compressing.inside within
  have chains := compressing.chains
  rw [Compression.prepare]
  cases have_ : s.haveMatch with
  | true =>
    obtain ⟨bits, found⟩ := compressing.matched have_
    rw [have_] at chains
    exact ⟨⟨bits, compressing.mxoff, compressing.mxsz, chains, fun _ => found⟩, rfl, rfl⟩
  | false =>
    rw [have_] at chains
    have power : s.i ≤ 2 ^ (s.bp + s.i) := le_trans (Nat.le_of_lt Nat.lt_two_pow_self)
      (Nat.pow_le_pow_right (by decide) (Nat.le_add_left _ _))
    have lower := compressing.bits.1
    have adjusted := adjust_eq compressing.bits compressing.mxoff compressing.mxsz few
      ((distanceBits_le_iff (by omega)).mpr power)
    simp only [Bool.false_eq_true, if_false, adjusted] at chains ⊢
    have searched := @ntfsBestMatch_searched inbuf { s.pctx with mxsz := 2 ^ (16 - distanceBits s.i) + 2 } 2 s.i bufsize
      ⟨chains.head, chains.prev⟩ (Nat.le_refl 2) (by decide) (by
        have some : 2 ^ 1 ≤ 2 ^ (16 - distanceBits s.i) := Nat.pow_le_pow_right (by decide) (by omega)
        dsimp only
        omega)
    refine ⟨⟨rfl, rfl, searched.mxsz, searched.chains, fun long => ?_⟩, trivial, trivial⟩
    exact searched.hasMatch long (Nat.le_refl 2) compressing.inside rfl

/-- The search at the next position. -/
theorem Prepared.lookAhead (prepared : Prepared inbuf bufsize s) (within : bufsize ≤ ntfsSbSize)
    (long : 3 ≤ s.pctx.size) (short : s.pctx.size < niceMatchLen) :
    let next := s.lookAhead inbuf bufsize
    next.bp = distanceBits (s.i + 1) ∧ next.mxoff = 2 ^ next.bp ∧ next.pctx.mxsz = 2 ^ (16 - next.bp) + 2 ∧
      Chains next.pctx (entered bufsize (s.i + 2)) ∧
      (s.pctx.size < next.pctx.size → HasMatch inbuf bufsize next.pctx (s.i + 1) next.bp) := by
  have found := prepared.matched long
  have inside := found.inside
  have few := @distanceBits_le_twelve bufsize (s.i + 1) (by omega) within
  have enough := le_two_pow_distanceBits s.i
  have lower := distanceBits_ge s.i
  have grows : distanceBits s.i ≤ distanceBits (s.i + 1) :=
    (distanceBits_le_iff (distanceBits_ge _)).mpr (le_trans (Nat.le_succ _) (le_two_pow_distanceBits _))
  have bits := prepared.bits
  have room : s.i + 1 ≤ 2 ^ (s.bp + 1) := by
    rw [bits, Nat.pow_succ]
    have some := Nat.two_pow_pos (distanceBits s.i)
    omega
  have adjusted := @adjust_eq s (s.i + 1) 1 ⟨by omega, by omega⟩ prepared.mxoff prepared.mxsz few
    ((distanceBits_le_iff (by omega)).mpr room)
  have once : (if s.mxoff < s.i + 1 then s.widen else s) = Compression.adjust (s.i + 1) 1 s := by
    simp only [Compression.adjust]
  intro next
  have same : next = { Compression.adjust (s.i + 1) 1 s with
      pctx := ntfsBestMatch inbuf bufsize (Compression.adjust (s.i + 1) 1 s).pctx (s.i + 1) s.pctx.size } := by
    simp only [next, Compression.lookAhead, once]
  rw [adjusted] at same
  have chains := prepared.chains
  have searched := @ntfsBestMatch_searched inbuf { s.pctx with mxsz := 2 ^ (16 - distanceBits (s.i + 1)) + 2 } s.pctx.size
    (s.i + 1) bufsize ⟨chains.head, chains.prev⟩ (by omega) short (by
      have some : 2 ^ 1 ≤ 2 ^ (16 - distanceBits (s.i + 1)) := Nat.pow_le_pow_right (by decide) (by omega)
      dsimp only
      omega)
  rw [same]
  refine ⟨rfl, rfl, searched.mxsz, searched.chains, fun more => ?_⟩
  exact searched.hasMatch more (by omega) (by omega) rfl

theorem skipPositions_chains {n i : Nat} (chains : Chains pctx (entered bufsize i)) :
    Chains (skipPositions inbuf bufsize n pctx i) (entered bufsize (i + n)) ∧
      (skipPositions inbuf bufsize n pctx i).mxsz = pctx.mxsz := by
  induction n generalizing pctx i with
  | zero => exact ⟨chains, rfl⟩
  | succ n ih =>
    obtain ⟨skipped, mxsz⟩ := @ntfsSkipPosition_chains inbuf pctx i bufsize chains
    obtain ⟨others, mxsz'⟩ := ih skipped
    rw [skipPositions, show i + (n + 1) = i + 1 + n by omega]
    exact ⟨others, mxsz'.trans mxsz⟩

/-- What a round leaves: either the loop goes on further ahead, or the end of the block is
reached. -/
def RoundResult (inbuf : Mem) (bufsize : Nat) (s : Compression) : Compression × Bool → Prop
  | (after, false) => Compressing inbuf bufsize after ∧ s.i < after.i
  | (after, true) => after.i = bufsize ∧
      ∃ tokens, TokensWritten inbuf after.out after.i tokens ∧ tokens.length + after.out.ntag = 8

/-- A round keeps the invariant. -/
theorem compressRound_result (compressing : Compressing inbuf bufsize s) (within : bufsize ≤ ntfsSbSize)
    (more : s.i < bufsize) : RoundResult inbuf bufsize s (compressRound inbuf bufsize s) := by
  obtain ⟨prepared, place, output⟩ := compressing.prepare within
  obtain ⟨tokens, written, count, some⟩ := compressing.written
  rw [compressRound]
  generalize s.prepare inbuf bufsize = p at prepared place output
  rw [← place, ← output] at written
  rw [← output] at count some
  rw [← place] at more
  have symbol := written.putSymbol.countToken (by simp [CompressOutput.putSymbol]; omega) some
  have bits := prepared.bits
  have lower := distanceBits_ge p.i
  have grows {i : Nat} (later : p.i ≤ i) : distanceBits p.i ≤ distanceBits i :=
    (distanceBits_le_iff (distanceBits_ge _)).mpr (le_trans later (le_two_pow_distanceBits _))
  simp only [Nat.add_sub_cancel_left]
  split
  · rename_i long
    have found := prepared.matched long
    have inside := found.inside
    rw [bits] at found
    obtain ⟨token, phrase⟩ := written.putPhrase found count within
    have counted := phrase.countToken (by simp [CompressOutput.putPhrase]; omega) some
    rw [← bits] at phrase counted
    split
    · split
      · rename_i last
        exact ⟨last, tokens ++ [token], ⟨phrase.groups, phrase.tag, phrase.xout⟩,
          by simp [CompressOutput.putPhrase]; omega⟩
      obtain ⟨skipped, mxsz⟩ := @skipPositions_chains inbuf bufsize p.pctx (p.i + p.pctx.size - (p.i + 1)) (p.i + 1)
        prepared.chains
      rw [show p.i + 1 + (p.i + p.pctx.size - (p.i + 1)) = p.i + p.pctx.size by omega] at skipped
      refine ⟨⟨⟨?_, ?_⟩, prepared.mxoff, mxsz.trans prepared.mxsz, inside, skipped, ?_, counted⟩, ?_⟩
      · dsimp only
        omega
      · rw [bits]
        exact grows (Nat.le_add_right _ _)
      · intro again
        cases again
      · dsimp only
        omega
    · rename_i short
      obtain ⟨bits', mxoff', mxsz', chains', longer⟩ := prepared.lookAhead within long (Nat.lt_of_not_le short)
      generalize p.lookAhead inbuf bufsize = next at bits' mxoff' mxsz' chains' longer
      have four := distanceBits_ge (p.i + 1)
      split
      · rename_i better
        refine ⟨⟨⟨?_, ?_⟩, mxoff', mxsz', more, chains', ?_, symbol⟩, ?_⟩
        · dsimp only
          omega
        · rw [bits']
        · intro _
          exact ⟨bits', longer (by omega)⟩
        · dsimp only
          omega
      · obtain ⟨skipped, mxsz⟩ := @skipPositions_chains inbuf bufsize next.pctx (p.i + p.pctx.size - (p.i + 2)) (p.i + 2)
          chains'
        rw [show p.i + 2 + (p.i + p.pctx.size - (p.i + 2)) = p.i + p.pctx.size by omega] at skipped
        refine ⟨⟨⟨?_, ?_⟩, mxoff', mxsz.trans mxsz', inside, skipped, ?_, counted⟩, ?_⟩
        · dsimp only
          omega
        · rw [bits']
          exact (distanceBits_le_iff (distanceBits_ge _)).mpr 
            (le_trans (show p.i + 1 ≤ p.i + p.pctx.size by omega) (le_two_pow_distanceBits _))
        · intro again
          cases again
        · dsimp only
          omega
  · refine ⟨⟨⟨?_, ?_⟩, prepared.mxoff, prepared.mxsz, more, prepared.chains, ?_, symbol⟩, ?_⟩
    · dsimp only
      omega
    · rw [bits]
      exact grows (Nat.le_succ _)
    · intro again
      cases again
    · dsimp only
      omega

/-- The loop ends with the whole block written, or with an output that is too large. -/
theorem compressLoop_result {fuel : Nat} (compressing : Compressing inbuf bufsize s) (within : bufsize ≤ ntfsSbSize)
    (enough : bufsize ≤ s.i + fuel) :
    let after := compressLoop inbuf bufsize fuel s
    after.i ≤ bufsize ∧ (after.i = bufsize ∨ ntfsSbSize + 2 ≤ after.out.xout) ∧
      ∃ tokens, TokensWritten inbuf after.out after.i tokens ∧ tokens.length + after.out.ntag = 8 := by
  induction fuel generalizing s with
  | zero =>
    obtain ⟨tokens, written, count, _⟩ := compressing.written
    have inside := compressing.inside
    exact ⟨inside, .inl (le_antisymm inside enough), tokens, written, count⟩
  | succ fuel ih =>
    rw [compressLoop]
    split
    · rename_i more
      have result := compressRound_result compressing within more.1
      cases round : compressRound inbuf bufsize s with
      | mk after stop =>
        rw [round] at result
        cases stop with
        | true => exact ⟨Nat.le_of_eq result.1, .inl result.1, result.2⟩
        | false =>
          have onward := result.2
          exact ih result.1 (by omega)
    · rename_i ended
      obtain ⟨tokens, written, count, _⟩ := compressing.written
      have inside := compressing.inside
      refine ⟨inside, ?_, tokens, written, count⟩
      by_cases whole : s.i = bufsize
      · exact .inl whole
      · right
        by_contra room
        exact ended ⟨by omega, by omega⟩

theorem compressStart_compressing (outbuf : Mem) : Compressing inbuf bufsize (compressStart outbuf) where
  bits := ⟨Nat.le_refl 4, distanceBits_ge 0⟩
  mxoff := rfl
  mxsz := rfl
  inside := Nat.zero_le _
  chains := by
    refine ⟨fun hash => ?_, fun i early => ?_⟩
    · change (-1 : Int) < _
      omega
    · have none_ : i < min 0 (bufsize - 3) := early
      omega
  matched again := by cases again
  written := ⟨[], ⟨⟨0, .nil, trivial, rfl⟩, rfl, rfl⟩, rfl, Nat.zero_lt_succ 7⟩

end Rounds

end Ttntfs.Ntfs
