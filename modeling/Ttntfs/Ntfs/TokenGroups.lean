import Ttntfs.Ntfs.Decompress

/-!
# Groups of tokens

The layout of a compressed sub-block: tokens in groups of eight behind a tag, the last group
possibly shorter. Writer and reader have to agree at every position on the number of bits a
phrase has for its distance: as many as hold the distances that are possible there, and
four at least. Where the tokens stand for a text, the loops of `ntfs_decompress` read the
text from them.
-/

namespace Ttntfs.Ntfs

open Ttntfs.Library.ByteMemory
open Ttntfs.Library.BackReferences

/-- The number of bits of a phrase at a position that are for its distance. -/
def distanceBits (pos : Nat) : Nat := max 4 (Nat.clog 2 pos)

/-- The word of a phrase token. -/
def phraseWord (pos distance length : Nat) : Nat :=
  (distance - 1) * 2 ^ (16 - distanceBits pos) + (length - 3)

/-- The number of bytes of a token. -/
def tokenSize : Token → Nat
  | .symbol _ => 1
  | .phrase _ _ => 2

/-- The number of bytes of tokens. -/
def tokensSize (tokens : List Token) : Nat := (tokens.map tokenSize).sum

/-- The bit of a token in its tag. -/
def tagBit : Token → Nat
  | .symbol _ => 0
  | .phrase _ _ => 1

/-- The tag of a group of tokens. -/
def tagOf : List Token → Nat
  | [] => 0
  | token :: rest => tagBit token + 2 * tagOf rest

/-- The bytes of a token. The length of a phrase fits into the bits that are left for it. -/
def TokenAt (cb : Mem) (off pos : Nat) : Token → Prop
  | .symbol byte => cb off = byte
  | .phrase distance length =>
    3 ≤ length ∧ length - 3 < 2 ^ (16 - distanceBits pos) ∧ getLE cb 2 off = phraseWord pos distance length

/-- Tokens in a row that stand for the text from a position on. -/
def TokensAt (text cb : Mem) : Nat → Nat → List Token → Prop
  | _, _, [] => True
  | off, pos, token :: rest =>
    (TokenAt cb off pos token ∧ token.Describes text pos) ∧
      TokensAt text cb (off + tokenSize token) (pos + token.width) rest

/-- A tag and its tokens. -/
structure GroupAt (text cb : Mem) (off pos : Nat) (tokens : List Token) : Prop where
  tag : (cb off).toNat = tagOf tokens
  tokens : TokensAt text cb (off + 1) pos tokens

/-- Full groups of tokens from an offset on up to another, which stand for the beginning of the
text. -/
inductive Groups (text cb : Mem) (start : Nat) : Nat → Nat → Prop where
  | nil : Groups text cb start start 0
  | snoc {off pos : Nat} {tokens : List Token} (before : Groups text cb start off pos)
      (group : GroupAt text cb off pos tokens) (full : tokens.length = 8) :
      Groups text cb start (off + 1 + tokensSize tokens) (pos + tokensWidth tokens)

/-- The tokens of a sub-block up to its end: full groups, and behind them at most one more group. -/
inductive SubBlockTokens (text cb : Mem) (start : Nat) : Nat → Nat → Prop where
  | full {off pos : Nat} (groups : Groups text cb start off pos) : SubBlockTokens text cb start off pos
  | more {off pos : Nat} {tokens : List Token} (groups : Groups text cb start off pos)
      (group : GroupAt text cb off pos tokens) (some : tokens ≠ []) (few : tokens.length ≤ 8) :
      SubBlockTokens text cb start (off + 1 + tokensSize tokens) (pos + tokensWidth tokens)

section Bits

variable {pos : Nat}

theorem distanceBits_ge (pos : Nat) : 4 ≤ distanceBits pos := le_max_left _ _

theorem distanceBits_le_iff {n : Nat} (some : 4 ≤ n) : distanceBits pos ≤ n ↔ pos ≤ 2 ^ n := by
  rw [distanceBits, max_le_iff, Nat.clog_le_iff_le_pow (by decide)]
  exact and_iff_right some

theorem le_two_pow_distanceBits (pos : Nat) : pos ≤ 2 ^ distanceBits pos :=
  (distanceBits_le_iff (distanceBits_ge pos)).mp le_rfl

theorem distanceBits_half {i : Nat} (large : 16 ≤ i) : distanceBits (i + 1) = distanceBits (i / 2 + 1) + 1 := by
  apply le_antisymm
  · rw [distanceBits_le_iff (Nat.le_succ_of_le (distanceBits_ge _)), Nat.pow_succ]
    have half := le_two_pow_distanceBits (i / 2 + 1)
    omega
  · have bits := distanceBits_ge (i + 1)
    have enough := le_two_pow_distanceBits (i + 1)
    obtain ⟨n, same⟩ : ∃ n, distanceBits (i + 1) = n + 1 := ⟨distanceBits (i + 1) - 1, by omega⟩
    rw [same] at enough bits ⊢
    have four : 4 ≤ n := by
      by_contra less
      obtain rfl : n = 3 := by omega
      omega
    rw [Nat.pow_succ] at enough
    exact Nat.succ_le_succ ((distanceBits_le_iff four).mpr (by omega))

theorem countLg_eq {rounds i lg : Nat} (small : i < 2 ^ (4 + rounds)) :
    countLg rounds i lg = lg + (distanceBits (i + 1) - 4) := by
  induction rounds generalizing i lg with
  | zero =>
    have four : distanceBits (i + 1) ≤ 4 := (distanceBits_le_iff (Nat.le_refl 4)).mpr small
    rw [countLg]
    omega
  | succ rounds ih =>
    rw [countLg, Nat.shiftRight_eq_div_pow, Nat.pow_one]
    by_cases large : i ≥ 0x10
    · have power : 2 ^ (4 + (rounds + 1)) = 2 * 2 ^ (4 + rounds) := by rw [← Nat.add_assoc, Nat.pow_succ, Nat.mul_comm]
      have bits := distanceBits_ge (i / 2 + 1)
      rw [if_pos large, ih (by omega), distanceBits_half large]
      omega
    · have four : distanceBits (i + 1) ≤ 4 := (distanceBits_le_iff (Nat.le_refl 4)).mpr (by omega)
      rw [if_neg large]
      omega

/-- The two parts of the word of a phrase. -/
theorem phraseWord_parts {distance length : Nat} (within : pos ≤ ntfsSbSize) (some : 0 < distance)
    (long : 3 ≤ length) (fits : length - 3 < 2 ^ (16 - distanceBits pos)) :
    (phraseWord pos distance length >>> (12 - (distanceBits pos - 4))) + 1 = distance ∧
      (phraseWord pos distance length &&& (0xfff >>> (distanceBits pos - 4))) + 3 = length := by
  have lower := distanceBits_ge pos
  have upper : distanceBits pos ≤ 12 := (distanceBits_le_iff (by decide)).mpr within
  have mask : ∀ lg ≤ 8, 0xfff >>> lg = 2 ^ (12 - lg) - 1 := by decide
  have shift : 12 - (distanceBits pos - 4) = 16 - distanceBits pos := by omega
  rw [mask _ (by omega), shift, Nat.shiftRight_eq_div_pow, Nat.and_two_pow_sub_one_eq_mod, phraseWord]
  have power : 0 < 2 ^ (16 - distanceBits pos) := Nat.two_pow_pos _
  constructor
  · rw [Nat.mul_comm, Nat.mul_add_div power, Nat.div_eq_of_lt fits]
    omega
  · rw [Nat.mul_comm, Nat.mul_add_mod, Nat.mod_eq_of_lt fits]
    omega

end Bits

section Copy

variable {page : Mem} {dst src length : Nat}

theorem copyPhrase_before {i : Nat} (before : i < dst) : copyPhrase page dst src length i = page i := by
  rw [copyPhrase]
  split
  · exact copyRange_outside (.inl before)
  · rw [copyForward_outside (.inl (by omega)), copyRange_outside (.inl before)]

theorem copyPhrase_inside (below : src < dst) {k : Nat} (inside : k < length) :
    copyPhrase page dst src length (dst + k) = copyPhrase page dst src length (src + k) := by
  rw [copyPhrase]
  split
  · rename_i short
    rw [copyRange_inside (by omega) (by omega), copyRange_outside (.inl (by omega))]
    congr 1
    omega
  · rename_i long
    rcases Nat.lt_or_ge k (dst - src) with first | later
    · rw [copyForward_outside (.inl (by omega)), copyForward_outside (.inl (by omega)),
        copyRange_inside (by omega) (by omega), copyRange_outside (.inl (by omega))]
      congr 1
      omega
    · obtain ⟨l, rfl⟩ : ∃ l, k = dst - src + l := ⟨k - (dst - src), by omega⟩
      rw [← Nat.add_assoc, ← Nat.add_assoc]
      exact copyForward_inside (by omega) (by omega)

end Copy

section Layout

variable {text cb cb' : Mem} {start off pos : Nat} {tokens others : List Token}

@[simp] theorem tokensSize_nil : tokensSize [] = 0 := rfl

@[simp] theorem tokensSize_cons (token : Token) (rest : List Token) :
    tokensSize (token :: rest) = tokenSize token + tokensSize rest := by
  simp [tokensSize]

@[simp] theorem tokensSize_append (tokens others : List Token) :
    tokensSize (tokens ++ others) = tokensSize tokens + tokensSize others := by
  simp [tokensSize]

theorem tagBit_le (token : Token) : tagBit token ≤ 1 := by
  cases token <;> simp [tagBit]

theorem tagOf_snoc (tokens : List Token) (token : Token) :
    tagOf (tokens ++ [token]) = tagOf tokens + tagBit token * 2 ^ tokens.length := by
  induction tokens with
  | nil => simp [tagOf]
  | cons first rest ih =>
    rw [List.cons_append, tagOf, tagOf, ih, List.length_cons, Nat.pow_succ]
    ring

theorem tagOf_lt (tokens : List Token) : tagOf tokens < 2 ^ tokens.length := by
  induction tokens with
  | nil => decide
  | cons token rest ih =>
    have bit := tagBit_le token
    rw [tagOf, List.length_cons, Nat.pow_succ]
    omega

theorem tokensAt_append :
    TokensAt text cb off pos (tokens ++ others) ↔
      TokensAt text cb off pos tokens ∧
        TokensAt text cb (off + tokensSize tokens) (pos + tokensWidth tokens) others := by
  induction tokens generalizing off pos with
  | nil => simp [TokensAt]
  | cons token rest ih =>
    simp only [List.cons_append, TokensAt, ih, tokensSize_cons, tokensWidth_cons, Nat.add_assoc,
      and_assoc]

theorem tokenAt_place {token : Token} {base : Nat}
    (same : ∀ i, off ≤ i → i < off + tokenSize token → cb' (base + i) = cb i) (here : TokenAt cb off pos token) :
    TokenAt cb' (base + off) pos token := by
  cases token with
  | symbol byte => exact (same off le_rfl (by simp [tokenSize])).trans here
  | phrase distance length =>
    refine ⟨here.1, here.2.1, ?_⟩
    rw [← getLE_shifted, ← here.2.2]
    exact getLE_congr same

theorem tokensAt_place {base : Nat} (same : ∀ i, off ≤ i → i < off + tokensSize tokens → cb' (base + i) = cb i)
    (here : TokensAt text cb off pos tokens) : TokensAt text cb' (base + off) pos tokens := by
  induction tokens generalizing off pos with
  | nil => trivial
  | cons token rest ih =>
    rw [tokensSize_cons] at same
    obtain ⟨⟨first, describes⟩, others⟩ := here
    refine ⟨⟨tokenAt_place (fun i lower upper => same i lower (by omega)) first, describes⟩, ?_⟩
    rw [Nat.add_assoc]
    exact ih (fun i lower upper => same i (by omega) (by omega)) others

theorem tokensAt_congr (same : ∀ i, off ≤ i → i < off + tokensSize tokens → cb' i = cb i)
    (here : TokensAt text cb off pos tokens) : TokensAt text cb' off pos tokens := by
  have placed := @tokensAt_place text cb cb' off pos tokens 0
    (fun i lower upper => by rw [Nat.zero_add]; exact same i lower upper) here
  rwa [Nat.zero_add] at placed

theorem GroupAt.place {base : Nat} (same : ∀ i, off ≤ i → i < off + 1 + tokensSize tokens → cb' (base + i) = cb i)
    (group : GroupAt text cb off pos tokens) : GroupAt text cb' (base + off) pos tokens where
  tag := by rw [same off le_rfl (by omega), group.tag]
  tokens := by
    have placed := tokensAt_place (fun i lower upper => same i (by omega) upper) group.tokens
    rwa [← Nat.add_assoc] at placed

theorem Groups.start_le (groups : Groups text cb start off pos) : start ≤ off := by
  induction groups with
  | nil => exact Nat.le_refl _
  | snoc before group full ih => omega

theorem Groups.place {base : Nat} (groups : Groups text cb start off pos)
    (same : ∀ i, start ≤ i → i < off → cb' (base + i) = cb i) : Groups text cb' (base + start) (base + off) pos := by
  induction groups with
  | nil => exact .nil
  | snoc before group full ih =>
    have start_le := before.start_le
    rw [← Nat.add_assoc, ← Nat.add_assoc]
    refine .snoc (ih fun i lower upper => same i lower (by omega)) (group.place ?_) full
    intro i lower upper
    exact same i (by omega) upper

theorem Groups.congr (groups : Groups text cb start off pos)
    (same : ∀ i, start ≤ i → i < off → cb' i = cb i) : Groups text cb' start off pos := by
  have placed := @Groups.place text cb cb' start off pos 0 groups
    (fun i lower upper => by rw [Nat.zero_add]; exact same i lower upper)
  rwa [Nat.zero_add, Nat.zero_add] at placed

theorem length_le_tokensSize (tokens : List Token) : tokens.length ≤ tokensSize tokens := by
  induction tokens with
  | nil => exact Nat.le_refl _
  | cons token rest ih =>
    have some : 1 ≤ tokenSize token := by cases token <;> simp [tokenSize]
    rw [List.length_cons, tokensSize_cons]
    omega

theorem SubBlockTokens.place {base : Nat} (tokens : SubBlockTokens text cb start off pos)
    (same : ∀ i, start ≤ i → i < off → cb' (base + i) = cb i) :
    SubBlockTokens text cb' (base + start) (base + off) pos := by
  cases tokens with
  | full groups => exact .full (groups.place same)
  | more groups group some few =>
    have start_le := groups.start_le
    rw [← Nat.add_assoc, ← Nat.add_assoc]
    refine .more (groups.place fun i lower upper => same i lower (by omega)) (group.place ?_) some few
    intro i lower upper
    exact same i (by omega) upper

theorem SubBlockTokens.size (tokens : SubBlockTokens text cb start off pos) (some : 0 < pos) : start + 2 ≤ off := by
  cases tokens with
  | full groups =>
    cases groups with
    | nil => cases some
    | snoc before group full =>
      have start_le := before.start_le
      have size := length_le_tokensSize ‹List Token›
      omega
  | more groups group nonempty few =>
    have start_le := groups.start_le
    have size := length_le_tokensSize ‹List Token›
    have length := List.length_pos_of_ne_nil nonempty
    omega

end Layout

section Decode

variable {text cb page : Mem} {start sbEnd sbStart off pos : Nat} {tokens : List Token}

/-- A phrase token is read back. -/
theorem decodePhrase_reads {distance length : Nat} (here : TokenAt cb off pos (.phrase distance length))
    (describes : (Token.phrase distance length).Describes text pos) (room : pos + length ≤ ntfsSbSize)
    (agrees : Agrees page sbStart text pos) :
    ∃ page', decodePhrase cb sbStart ⟨off, page, sbStart + pos⟩ = some ⟨off + 2, page', sbStart + (pos + length)⟩ ∧
      Agrees page' sbStart text (pos + length) := by
  obtain ⟨long, fits, word⟩ := here
  obtain ⟨some, back, repeats⟩ := describes
  obtain ⟨distances, lengths⟩ := phraseWord_parts (show pos ≤ ntfsSbSize by omega) some long fits
  have bits : countLg 16 (sbStart + pos - sbStart - 1) 0 = distanceBits pos - 4 := by
    have small : pos ≤ 4096 := by
      have := room
      rw [ntfsSbSize] at this
      omega
    rw [countLg_eq (by omega), Nat.zero_add, Nat.add_sub_cancel_left, Nat.sub_add_cancel (by omega)]
  refine ⟨copyPhrase page (sbStart + pos) (sbStart + pos - distance) length, ?_, ?_⟩
  · simp only [decodePhrase, word, bits, distances, lengths]
    rw [if_neg (by omega), if_neg (by omega), if_neg (by omega), Nat.add_assoc]
  · refine agrees.phrase ⟨some, back, repeats⟩ ?_ ?_
    · intro k early
      exact copyPhrase_before (by omega)
    · intro k inside
      exact copyPhrase_inside (by omega) inside

/-- The tokens of a group are read back, if the tag has no more of them or the sub-block ends
behind them. -/
theorem decodeTokens_reads {n : Nat} (here : TokensAt text cb off pos tokens) (few : tokens.length ≤ n)
    (last : tokens.length = n ∨ off + tokensSize tokens = sbEnd) (within : off + tokensSize tokens ≤ sbEnd)
    (room : pos + tokensWidth tokens ≤ ntfsSbSize) (agrees : Agrees page sbStart text pos) :
    ∃ page', decodeTokens cb sbEnd sbStart n (tagOf tokens) ⟨off, page, sbStart + pos⟩ =
        some ⟨off + tokensSize tokens, page', sbStart + (pos + tokensWidth tokens)⟩ ∧
      Agrees page' sbStart text (pos + tokensWidth tokens) := by
  induction tokens generalizing off pos page n with
  | nil =>
    refine ⟨page, ?_, agrees⟩
    cases n with
    | zero => rfl
    | succ n =>
      have ended : off = sbEnd := by simpa using last
      rw [decodeTokens, if_pos (.inl (Nat.le_of_eq ended.symm))]
      rfl
  | cons token rest ih =>
    obtain ⟨n, rfl⟩ : ∃ fewer, n = fewer + 1 := ⟨n - 1, by rw [List.length_cons] at few; omega⟩
    rw [List.length_cons] at few last
    rw [tokensSize_cons] at last within
    rw [tokensWidth_cons] at room
    obtain ⟨⟨first, describes⟩, others⟩ := here
    have size : 0 < tokenSize token := by cases token <;> simp [tokenSize]
    have open_ : ¬ (off ≥ sbEnd ∨ sbStart + pos > sbStart + ntfsSbSize) := by omega
    have rest_of {page' : Mem} (agrees : Agrees page' sbStart text (pos + token.width)) :=
      @ih page' (off + tokenSize token) (pos + token.width) n others (by omega)
        (by omega) (by omega) (by omega) agrees
    rw [tokensSize_cons, tokensWidth_cons, ← Nat.add_assoc off, ← Nat.add_assoc pos, decodeTokens, if_neg open_]
    cases token with
    | symbol byte =>
      have tag : tagOf (.symbol byte :: rest) % 2 = 0 ∧ tagOf (.symbol byte :: rest) / 2 = tagOf rest := by
        simp only [tagOf, tagBit]
        omega
      have byte_at : cb off = byte := first
      rw [if_pos tag.1, tag.2, byte_at]
      exact rest_of (agrees.symbol describes)
    | phrase distance length =>
      have tag : tagOf (.phrase distance length :: rest) % 2 = 1 ∧
          tagOf (.phrase distance length :: rest) / 2 = tagOf rest := by
        simp only [tagOf, tagBit]
        omega
      obtain ⟨page', phrase, agrees'⟩ := decodePhrase_reads first describes
        (by simp only [Token.width] at room; omega) agrees
      rw [if_neg (by omega), tag.2]
      simp only [phrase]
      exact rest_of agrees'

/-- One round of the loop over the tags. -/
theorem decodeTags_group {fuel : Nat} (group : GroupAt text cb off pos tokens) (few : tokens.length ≤ 8)
    (last : tokens.length = 8 ∨ off + 1 + tokensSize tokens = sbEnd)
    (within : off + 1 + tokensSize tokens ≤ sbEnd) (room : pos + tokensWidth tokens ≤ ntfsSbSize)
    (agrees : Agrees page sbStart text pos) :
    ∃ page', decodeTags cb sbEnd sbStart (fuel + 1) ⟨off, page, sbStart + pos⟩ =
        decodeTags cb sbEnd sbStart fuel
          ⟨off + 1 + tokensSize tokens, page', sbStart + (pos + tokensWidth tokens)⟩ ∧
      Agrees page' sbStart text (pos + tokensWidth tokens) := by
  obtain ⟨page', read, agrees'⟩ := decodeTokens_reads group.tokens few last within room agrees
  refine ⟨page', ?_, agrees'⟩
  rw [decodeTags, if_neg (by dsimp only; omega), if_neg (by dsimp only; omega)]
  simp only [group.tag, read]

/-- Full groups are read one after the other. -/
theorem decodeTags_groups (groups : Groups text cb start off pos) (within : off ≤ sbEnd) (room : pos ≤ ntfsSbSize) :
    ∃ rounds ≤ off - start, ∀ fuel, ∃ page', decodeTags cb sbEnd sbStart (rounds + fuel) ⟨start, page, sbStart⟩ =
        decodeTags cb sbEnd sbStart fuel ⟨off, page', sbStart + pos⟩ ∧
      Agrees page' sbStart text pos := by
  induction groups with
  | nil =>
    refine ⟨0, Nat.zero_le _, fun fuel => ⟨page, ?_, ?_⟩⟩
    · rw [Nat.zero_add, Nat.add_zero]
    · intro k early
      cases early
  | @snoc off pos tokens before group full ih =>
    obtain ⟨rounds, few, steps⟩ := ih (by omega) (by omega)
    have start_le := before.start_le
    refine ⟨rounds + 1, by omega, fun fuel => ?_⟩
    obtain ⟨page', first, agrees⟩ := steps (fuel + 1)
    obtain ⟨page'', second, agrees'⟩ := @decodeTags_group text cb page' sbEnd sbStart off pos tokens fuel group
      (Nat.le_of_eq full) (.inl full) within room agrees
    refine ⟨page'', ?_, agrees'⟩
    rw [show rounds + 1 + fuel = rounds + (fuel + 1) by omega, first, second]

/-- The tokens of a sub-block are read back to the text they stand for. -/
theorem decodeTags_reads {fuel : Nat} (tokens : SubBlockTokens text cb start sbEnd pos) (room : pos ≤ ntfsSbSize)
    (enough : sbEnd - start < fuel) :
    ∃ page', decodeTags cb sbEnd sbStart fuel ⟨start, page, sbStart⟩ = some ⟨sbEnd, page', sbStart + pos⟩ ∧
      Agrees page' sbStart text pos := by
  cases tokens with
  | full groups =>
    obtain ⟨rounds, few, steps⟩ := @decodeTags_groups text cb page start sbEnd sbStart sbEnd pos groups le_rfl
      room
    obtain ⟨page', read, agrees⟩ := steps (fuel - rounds - 1 + 1)
    refine ⟨page', ?_, agrees⟩
    rw [show rounds + (fuel - rounds - 1 + 1) = fuel by omega] at read
    rw [read, decodeTags, if_pos rfl]
  | @more off pos tokens groups group some few =>
    have start_le := groups.start_le
    obtain ⟨rounds, less, steps⟩ := @decodeTags_groups text cb page start (off + 1 + tokensSize tokens) sbStart off pos
      groups (by omega) (by omega)
    obtain ⟨page', first, agrees⟩ := steps (fuel - rounds - 2 + 1 + 1)
    obtain ⟨page'', second, agrees'⟩ := @decodeTags_group text cb page' _ sbStart off pos tokens (fuel - rounds - 2 + 1)
      group few (.inr rfl) le_rfl room agrees
    refine ⟨page'', ?_, agrees'⟩
    have size := length_le_tokensSize tokens
    have length := List.length_pos_of_ne_nil some
    rw [show rounds + (fuel - rounds - 2 + 1 + 1) = fuel by omega] at first
    rw [first, second, decodeTags, if_pos rfl]

end Decode

end Ttntfs.Ntfs
