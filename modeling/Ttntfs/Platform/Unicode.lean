import Ttntfs.Library.CharEncoding

/-!
# UTF-8 and UTF-16 strings

`unicode.c` converts names between the two encodings, character by character. The decoder of
UTF-8 walks a table of lead bytes, and with every row it passes it takes one byte more; the
encoder walks the same table by the size of the number. The output has a limit, and a pair of
surrogates that does not fit ends the conversion.
-/

namespace Ttntfs.Platform

open Ttntfs.Library.CharEncoding

/-- A row of `utf8_table`. -/
structure Utf8Table where
  cmask : Nat
  cval : Nat
  shift : Nat
  lmask : Nat
  lval : Nat

/-- `utf8_table` -/
def utf8Table : List Utf8Table :=
  [⟨0x80, 0x00, 0 * 6, 0x7F, 0⟩, ⟨0xE0, 0xC0, 1 * 6, 0x7FF, 0x80⟩, ⟨0xF0, 0xE0, 2 * 6, 0xFFFF, 0x800⟩,
    ⟨0xF8, 0xF0, 3 * 6, 0x1FFFFF, 0x10000⟩, ⟨0xFC, 0xF8, 4 * 6, 0x3FFFFFF, 0x200000⟩,
    ⟨0xFE, 0xFC, 5 * 6, 0x7FFFFFFF, 0x4000000⟩]

/-- `UNICODE_MAX` -/
def unicodeMax : Nat := 0x0010ffff
/-- `PLANE_SIZE` -/
def planeSize : Nat := 0x00010000
/-- `SURROGATE_MASK` -/
def surrogateMask : Nat := 0xfffff800
/-- `SURROGATE_PAIR` -/
def surrogatePair : Nat := 0x0000d800
/-- `SURROGATE_LOW` -/
def surrogateLow : Nat := 0x00000400
/-- `SURROGATE_BITS` -/
def surrogateBits : Nat := 0x000003ff

/-- The loop of `utf8_to_utf32`: the first byte, the rows that are left, the number of bytes and
the value so far, and the bytes behind. -/
def utf8Rows (c0 : Nat) : List Utf8Table → Nat → Nat → List UInt8 → Option (Nat × Nat)
  | [], _, _, _ => none
  | t :: rows, nc, l, s =>
    if c0 &&& t.cmask = t.cval then
      if l &&& t.lmask < t.lval ∨ unicodeMax < l &&& t.lmask ∨ l &&& t.lmask &&& surrogateMask = surrogatePair then
        none
      else some (l &&& t.lmask, nc + 1)
    else
      match s with
      | [] => none
      | b :: s =>
        if (b.toNat ^^^ 0x80) &&& 0xC0 ≠ 0 then none else utf8Rows c0 rows (nc + 1) (l <<< 6 ||| b.toNat ^^^ 0x80) s

/-- `utf8_to_utf32`: the character and its number of bytes, for a string that is not empty. -/
def utf8ToUtf32 (s : List UInt8) : Option (Nat × Nat) :=
  match s with
  | [] => none
  | b :: s => utf8Rows b.toNat utf8Table 0 b.toNat s

/-- The bytes behind the first one of a character. -/
def utf8Tail (l : Nat) : Nat → List UInt8
  | 0 => []
  | n + 1 => UInt8.ofNat (0x80 ||| (l >>> (6 * n) &&& 0x3F)) :: utf8Tail l n

/-- The loop of `utf32_to_utf8`. -/
def utf32Rows (l : Nat) : List Utf8Table → Nat → Option (List UInt8)
  | [], _ => none
  | _ :: _, 0 => none
  | t :: rows, maxout + 1 =>
    if l ≤ t.lmask then some (UInt8.ofNat (t.cval ||| l >>> t.shift) :: utf8Tail l (t.shift / 6))
    else utf32Rows l rows maxout

/-- `utf32_to_utf8`: the bytes of a character, if they fit. -/
def utf32ToUtf8 (u maxout : Nat) : Option (List UInt8) :=
  if unicodeMax < u ∨ u &&& surrogateMask = surrogatePair then none else utf32Rows u utf8Table maxout

theorem utf8Rows_size {c0 nc l u n : Nat} {rows : List Utf8Table} {s : List UInt8}
    (decoded : utf8Rows c0 rows nc l s = some (u, n)) : nc < n := by
  induction rows generalizing nc l s with
  | nil => cases decoded
  | cons t rows ih =>
    unfold utf8Rows at decoded
    split at decoded
    · split at decoded
      · cases decoded
      · cases decoded
        omega
    · split at decoded
      · cases decoded
      · split at decoded
        · cases decoded
        · have := ih decoded
          omega

theorem utf8ToUtf32_size {u n : Nat} {s : List UInt8} (decoded : utf8ToUtf32 s = some (u, n)) : 0 < n := by
  cases s with
  | nil => cases decoded
  | cons b s => exact utf8Rows_size decoded

/-- `utf8s_to_utf16s`: the units, none for `-EINVAL`. -/
def utf8sToUtf16s (s : List UInt8) (maxout : Nat) : Option (List UInt16) :=
  match s with
  | [] => some []
  | b :: rest =>
    if maxout = 0 ∨ b = 0 then some []
    else if b.toNat &&& 0x80 ≠ 0 then
      match decoded : utf8ToUtf32 (b :: rest) with
      | none => none
      | some (u, size) =>
        if planeSize ≤ u then
          if maxout < 2 then some []
          else
            (utf8sToUtf16s ((b :: rest).drop size) (maxout - 2)).map fun units =>
              UInt16.ofNat (surrogatePair ||| ((u - planeSize) >>> 10 &&& surrogateBits)) ::
                UInt16.ofNat (surrogatePair ||| surrogateLow ||| (u - planeSize &&& surrogateBits)) :: units
        else (utf8sToUtf16s ((b :: rest).drop size) (maxout - 1)).map fun units => UInt16.ofNat u :: units
    else (utf8sToUtf16s rest (maxout - 1)).map fun units => UInt16.ofNat b.toNat :: units
termination_by s.length
decreasing_by
  · have := utf8ToUtf32_size decoded
    simp only [List.length_cons, List.length_drop]
    omega
  · have := utf8ToUtf32_size decoded
    simp only [List.length_cons, List.length_drop]
    omega
  · simp only [List.length_cons]
    omega

/-- `utf16s_to_utf8s` -/
def utf16sToUtf8s : List UInt16 → Nat → List UInt8
  | [], _ => []
  | u :: rest, maxout =>
    if maxout = 0 ∨ u = 0 then []
    else if 0x7f < u.toNat then
      if u.toNat &&& surrogateMask = surrogatePair then
        if u.toNat &&& surrogateLow ≠ 0 then utf16sToUtf8s rest maxout
        else
          match rest with
          | [] => []
          | v :: behind =>
            if v.toNat &&& surrogateMask ≠ surrogatePair ∨ v.toNat &&& surrogateLow = 0 then
              utf16sToUtf8s (v :: behind) maxout
            else
              let bytes := (utf32ToUtf8 (planeSize + ((u.toNat &&& surrogateBits) <<< 10) + (v.toNat &&& surrogateBits))
                maxout).getD []
              bytes ++ utf16sToUtf8s behind (maxout - bytes.length)
      else
        let bytes := (utf32ToUtf8 u.toNat maxout).getD []
        bytes ++ utf16sToUtf8s rest (maxout - bytes.length)
    else UInt8.ofNat u.toNat :: utf16sToUtf8s rest (maxout - 1)

/-- A byte that goes on with a character. -/
abbrev GoesOn (b : UInt8) : Prop := 128 ≤ b.toNat ∧ b.toNat < 192

/-- The first bytes of a string are those of a character, and this is its number. -/
inductive Reads : List UInt8 → Nat → Nat → Prop where
  | one {a : UInt8} (rest : List UInt8) (lead : a.toNat < 128) : Reads (a :: rest) a.toNat 1
  | two {a b : UInt8} (rest : List UInt8) (lead : 192 ≤ a.toNat ∧ a.toNat < 224) (tail : GoesOn b)
      (long : 0x80 ≤ (a.toNat - 192) * 64 + (b.toNat - 128)) :
      Reads (a :: b :: rest) ((a.toNat - 192) * 64 + (b.toNat - 128)) 2
  | three {a b c : UInt8} (rest : List UInt8) (lead : 224 ≤ a.toNat ∧ a.toNat < 240) (tail : GoesOn b ∧ GoesOn c)
      (long : 0x800 ≤ ((a.toNat - 224) * 64 + (b.toNat - 128)) * 64 + (c.toNat - 128))
      (scalar : ((a.toNat - 224) * 64 + (b.toNat - 128)) * 64 + (c.toNat - 128) < 0xd800 ∨
        0xe000 ≤ ((a.toNat - 224) * 64 + (b.toNat - 128)) * 64 + (c.toNat - 128)) :
      Reads (a :: b :: c :: rest) (((a.toNat - 224) * 64 + (b.toNat - 128)) * 64 + (c.toNat - 128)) 3
  | four {a b c d : UInt8} (rest : List UInt8) (lead : 240 ≤ a.toNat ∧ a.toNat < 248)
      (tail : GoesOn b ∧ GoesOn c ∧ GoesOn d)
      (long : 0x10000 ≤ (((a.toNat - 240) * 64 + (b.toNat - 128)) * 64 + (c.toNat - 128)) * 64 + (d.toNat - 128))
      (scalar : (((a.toNat - 240) * 64 + (b.toNat - 128)) * 64 + (c.toNat - 128)) * 64 + (d.toNat - 128) < 0x110000) :
      Reads (a :: b :: c :: d :: rest)
        ((((a.toNat - 240) * 64 + (b.toNat - 128)) * 64 + (c.toNat - 128)) * 64 + (d.toNat - 128)) 4

section Decoding

variable {s rest : List UInt8} {u n c0 nc l : Nat} {rows : List Utf8Table} {t : Utf8Table} {b : UInt8}

theorem utf8Rows_further (other : ¬ c0 &&& t.cmask = t.cval) :
    utf8Rows c0 (t :: rows) nc l (b :: s) =
      if 128 ≤ b.toNat ∧ b.toNat < 192 then utf8Rows c0 rows (nc + 1) (l * 64 + (b.toNat - 128)) s else none := by
  obtain ⟨goesOn, bits⟩ := tail_bits b.toNat_lt
  conv_lhs => unfold utf8Rows
  rw [if_neg other]
  dsimp only
  by_cases tail : 128 ≤ b.toNat ∧ b.toNat < 192
  · rw [if_neg (not_not.mpr (goesOn.mpr tail)), if_pos tail, bits tail.1, append_bits l (by omega)]
  · rw [if_pos (fun zero => tail (goesOn.mp zero)), if_neg tail]

theorem utf8Rows_nothing (other : ¬ c0 &&& t.cmask = t.cval) : utf8Rows c0 (t :: rows) nc l [] = none := by
  unfold utf8Rows
  rw [if_neg other]

/-- The row that the first byte matches. -/
theorem utf8Rows_matched {k : Nat} (same : c0 &&& t.cmask = t.cval) (bits : t.lmask = 2 ^ k - 1) (word : k ≤ 31) :
    utf8Rows c0 (t :: rows) nc l s =
      if t.lval ≤ l % 2 ^ k ∧ (l % 2 ^ k < 0xd800 ∨ 0xe000 ≤ l % 2 ^ k ∧ l % 2 ^ k < 0x110000) then
        some (l % 2 ^ k, nc + 1)
      else none := by
  have small : l % 2 ^ k < 2 ^ 32 :=
    (Nat.mod_lt _ (Nat.two_pow_pos k)).trans_le (Nat.pow_le_pow_right (by decide) (by omega))
  have pair : l % 2 ^ k &&& surrogateMask = surrogatePair ↔ _ := surrogate_bits small
  have maximum : unicodeMax = 0x10ffff := rfl
  unfold utf8Rows
  rw [if_pos same, bits, Nat.and_two_pow_sub_one_eq_mod]
  by_cases fits : t.lval ≤ l % 2 ^ k ∧ (l % 2 ^ k < 0xd800 ∨ 0xe000 ≤ l % 2 ^ k ∧ l % 2 ^ k < 0x110000)
  · rw [if_neg (by rw [pair]; omega), if_pos fits]
  · rw [if_pos (by rw [pair]; omega), if_neg fits]

/-- No character has five or six bytes. -/
theorem utf8Rows_long (other : ¬ c0 &&& 0xF8 = 0xF0) : utf8Rows c0 (utf8Table.drop 3) nc l s ≠ some (u, n) := by
  intro decoded
  cases s with
  | nil =>
    rw [utf8Table, List.drop, List.drop, List.drop, List.drop, utf8Rows_nothing other] at decoded
    cases decoded
  | cons e s =>
    rw [utf8Table, List.drop, List.drop, List.drop, List.drop, utf8Rows_further other] at decoded
    split at decoded
    · by_cases five : c0 &&& 0xFC = 0xF8
      · rw [utf8Rows_matched (k := 26) five rfl (by decide)] at decoded
        split at decoded
        · rename_i fits
          dsimp only at fits
          omega
        · cases decoded
      cases s with
      | nil =>
        rw [utf8Rows_nothing five] at decoded
        cases decoded
      | cons g s =>
        rw [utf8Rows_further five] at decoded
        split at decoded
        · by_cases six : c0 &&& 0xFE = 0xFC
          · rw [utf8Rows_matched (k := 31) six rfl (by decide)] at decoded
            split at decoded
            · rename_i fits
              dsimp only at fits
              omega
            · cases decoded
          · cases s with
            | nil =>
              rw [utf8Rows_nothing six] at decoded
              cases decoded
            | cons h s =>
              rw [utf8Rows_further six] at decoded
              split at decoded
              · cases decoded
              · cases decoded
        · cases decoded
    · cases decoded

/-- A character that is decoded is read from the bytes. -/
theorem reads_of_decoded (decoded : utf8ToUtf32 s = some (u, n)) : Reads s u n := by
  cases s with
  | nil => cases decoded
  | cons a s =>
    have byte := a.toNat_lt
    obtain ⟨ascii, two, three, four, five, six⟩ := lead_bits byte
    rw [utf8ToUtf32, utf8Table] at decoded
    by_cases lead : a.toNat < 128
    · rw [utf8Rows_matched (k := 7) (ascii.mpr lead) rfl (by decide), show a.toNat % 2 ^ 7 = a.toNat by omega,
        if_pos ⟨Nat.zero_le _, by omega⟩] at decoded
      obtain ⟨rfl, rfl⟩ := Prod.mk.inj (Option.some.inj decoded)
      exact .one s lead
    have other1 : ¬ a.toNat &&& 0x80 = 0 := fun same => lead (ascii.mp same)
    cases s with
    | nil =>
      rw [utf8Rows_nothing other1] at decoded
      cases decoded
    | cons b s =>
      rw [utf8Rows_further other1] at decoded
      split at decoded
      · rename_i tailB
        by_cases leadTwo : 192 ≤ a.toNat ∧ a.toNat < 224
        · have value : (a.toNat * 64 + (b.toNat - 128)) % 2 ^ 11 = (a.toNat - 192) * 64 + (b.toNat - 128) := by omega
          rw [utf8Rows_matched (k := 11) (two.mpr leadTwo) rfl (by decide), value] at decoded
          split at decoded
          · rename_i fits
            obtain ⟨rfl, rfl⟩ := Prod.mk.inj (Option.some.inj decoded)
            exact .two s leadTwo tailB fits.1
          · cases decoded
        have other2 : ¬ a.toNat &&& 0xE0 = 0xC0 := fun same => leadTwo (two.mp same)
        cases s with
        | nil =>
          rw [utf8Rows_nothing other2] at decoded
          cases decoded
        | cons c s =>
          rw [utf8Rows_further other2] at decoded
          split at decoded
          · rename_i tailC
            by_cases leadThree : 224 ≤ a.toNat ∧ a.toNat < 240
            · have value : ((a.toNat * 64 + (b.toNat - 128)) * 64 + (c.toNat - 128)) % 2 ^ 16 =
                  ((a.toNat - 224) * 64 + (b.toNat - 128)) * 64 + (c.toNat - 128) := by omega
              rw [utf8Rows_matched (k := 16) (three.mpr leadThree) rfl (by decide), value] at decoded
              split at decoded
              · rename_i fits
                obtain ⟨rfl, rfl⟩ := Prod.mk.inj (Option.some.inj decoded)
                exact .three s leadThree ⟨tailB, tailC⟩ fits.1 (fits.2.imp_right And.left)
              · cases decoded
            · have other3 : ¬ a.toNat &&& 0xF0 = 0xE0 := fun same => leadThree (three.mp same)
              cases s with
              | nil =>
                rw [utf8Rows_nothing other3] at decoded
                cases decoded
              | cons d s =>
                rw [utf8Rows_further other3] at decoded
                split at decoded
                · rename_i tailD
                  by_cases leadFour : 240 ≤ a.toNat ∧ a.toNat < 248
                  · have value : (((a.toNat * 64 + (b.toNat - 128)) * 64 + (c.toNat - 128)) * 64 +
                        (d.toNat - 128)) % 2 ^ 21 = (((a.toNat - 240) * 64 + (b.toNat - 128)) * 64 + (c.toNat - 128)) * 64 +
                          (d.toNat - 128) := by omega
                    rw [utf8Rows_matched (k := 21) (four.mpr leadFour) rfl (by decide), value] at decoded
                    split at decoded
                    · rename_i fits
                      obtain ⟨rfl, rfl⟩ := Prod.mk.inj (Option.some.inj decoded)
                      exact .four s leadFour ⟨tailB, tailC, tailD⟩ fits.1 (by
                        have := fits.1
                        dsimp only at this
                        omega)
                    · cases decoded
                  · -- what five or six bytes stand for is no character
                    have other4 : ¬ a.toNat &&& 0xF8 = 0xF0 := fun same => leadFour (four.mp same)
                    exact absurd decoded (utf8Rows_long other4)
                · cases decoded
          · cases decoded
      · cases decoded

/-- What is read is decoded. -/
theorem Reads.decoded (reads : Reads s u n) : utf8ToUtf32 s = some (u, n) := by
  cases reads with
  | @one a rest lead =>
    obtain ⟨ascii, -⟩ := lead_bits a.toNat_lt
    rw [utf8ToUtf32, utf8Table, utf8Rows_matched (k := 7) (ascii.mpr lead) rfl (by decide),
      show a.toNat % 2 ^ 7 = a.toNat by omega, if_pos ⟨Nat.zero_le _, by omega⟩]
  | @two a b rest lead tail long =>
    obtain ⟨ascii, two, -⟩ := lead_bits a.toNat_lt
    have value : (a.toNat * 64 + (b.toNat - 128)) % 2 ^ 11 = (a.toNat - 192) * 64 + (b.toNat - 128) := by
      have := tail
      unfold GoesOn at this
      omega
    rw [utf8ToUtf32, utf8Table, utf8Rows_further (by rw [ascii]; omega),
      if_pos (show 128 ≤ b.toNat ∧ b.toNat < 192 from tail),
      utf8Rows_matched (k := 11) (two.mpr lead) rfl (by decide), value, if_pos ⟨long, .inl (by
        have := tail
        unfold GoesOn at this
        omega)⟩]
  | @three a b c rest lead tail long scalar =>
    obtain ⟨ascii, two, three, -⟩ := lead_bits a.toNat_lt
    have bounds := tail
    unfold GoesOn at bounds
    have value : ((a.toNat * 64 + (b.toNat - 128)) * 64 + (c.toNat - 128)) % 2 ^ 16 =
        ((a.toNat - 224) * 64 + (b.toNat - 128)) * 64 + (c.toNat - 128) := by omega
    rw [utf8ToUtf32, utf8Table, utf8Rows_further (by rw [ascii]; omega), if_pos tail.1,
      utf8Rows_further (by rw [two]; omega), if_pos tail.2, utf8Rows_matched (k := 16) (three.mpr lead) rfl (by decide),
      value, if_pos ⟨long, scalar.imp_right fun above => ⟨above, by omega⟩⟩]
  | @four a b c d rest lead tail long scalar =>
    obtain ⟨ascii, two, three, four, -⟩ := lead_bits a.toNat_lt
    have bounds := tail
    unfold GoesOn at bounds
    have value : (((a.toNat * 64 + (b.toNat - 128)) * 64 + (c.toNat - 128)) * 64 + (d.toNat - 128)) % 2 ^ 21 =
        (((a.toNat - 240) * 64 + (b.toNat - 128)) * 64 + (c.toNat - 128)) * 64 + (d.toNat - 128) := by omega
    rw [utf8ToUtf32, utf8Table, utf8Rows_further (by rw [ascii]; omega), if_pos tail.1,
      utf8Rows_further (by rw [two]; omega), if_pos tail.2.1, utf8Rows_further (by rw [three]; omega), if_pos tail.2.2,
      utf8Rows_matched (k := 21) (four.mpr lead) rfl (by decide), value, if_pos ⟨long, .inr ⟨by omega, scalar⟩⟩]

theorem toNat_ofNat_byte {k : Nat} (small : k < 256) : (UInt8.ofNat k).toNat = k := by
  rw [UInt8.toNat_ofNat']
  exact Nat.mod_eq_of_lt small

/-- The bytes of a character are read as the character. -/
theorem reads_encode (c : Char) (rest : List UInt8) :
    Reads (String.utf8EncodeChar c ++ rest) c.toNat (String.utf8EncodeChar c).length := by
  have range := char_range c
  have value : c.val.toNat = c.toNat := rfl
  rw [String.utf8EncodeChar, value]
  generalize c.toNat = v at range
  have lead {k : Nat} (small : k < 256) := toNat_ofNat_byte small
  split
  · have reads := @Reads.one (UInt8.ofNat v) rest (by rw [lead (by omega)]; omega)
    rwa [lead (by omega)] at reads
  split
  · have a : (UInt8.ofNat (v / 64 % 0x20 + 0xc0)).toNat = v / 64 % 0x20 + 0xc0 := lead (by omega)
    have b : (UInt8.ofNat (v % 0x40 + 0x80)).toNat = v % 0x40 + 0x80 := lead (by omega)
    have whole : (v / 64 % 0x20 + 0xc0 - 192) * 64 + (v % 0x40 + 0x80 - 128) = v := by omega
    have reads := @Reads.two (UInt8.ofNat (v / 64 % 0x20 + 0xc0)) (UInt8.ofNat (v % 0x40 + 0x80)) rest
      (by rw [a]; omega) (by rw [GoesOn, b]; omega) (by rw [a, b]; omega)
    rw [a, b, whole] at reads
    exact reads
  · split
    · have a : (UInt8.ofNat (v / 4096 % 0x10 + 0xe0)).toNat = v / 4096 % 0x10 + 0xe0 := lead (by omega)
      have b : (UInt8.ofNat (v / 64 % 0x40 + 0x80)).toNat = v / 64 % 0x40 + 0x80 := lead (by omega)
      have c : (UInt8.ofNat (v % 0x40 + 0x80)).toNat = v % 0x40 + 0x80 := lead (by omega)
      have whole : ((v / 4096 % 0x10 + 0xe0 - 224) * 64 + (v / 64 % 0x40 + 0x80 - 128)) * 64 +
          (v % 0x40 + 0x80 - 128) = v := by omega
      have reads := @Reads.three (UInt8.ofNat (v / 4096 % 0x10 + 0xe0)) (UInt8.ofNat (v / 64 % 0x40 + 0x80))
        (UInt8.ofNat (v % 0x40 + 0x80)) rest (by rw [a]; omega) (by rw [GoesOn, GoesOn, b, c]; omega)
        (by rw [a, b, c, whole]; omega) (by rw [a, b, c, whole]; omega)
      rw [a, b, c, whole] at reads
      exact reads
    · have a : (UInt8.ofNat (v / 262144 % 0x08 + 0xf0)).toNat = v / 262144 % 0x08 + 0xf0 := lead (by omega)
      have b : (UInt8.ofNat (v / 4096 % 0x40 + 0x80)).toNat = v / 4096 % 0x40 + 0x80 := lead (by omega)
      have c : (UInt8.ofNat (v / 64 % 0x40 + 0x80)).toNat = v / 64 % 0x40 + 0x80 := lead (by omega)
      have d : (UInt8.ofNat (v % 0x40 + 0x80)).toNat = v % 0x40 + 0x80 := lead (by omega)
      have whole : (((v / 262144 % 0x08 + 0xf0 - 240) * 64 + (v / 4096 % 0x40 + 0x80 - 128)) * 64 +
          (v / 64 % 0x40 + 0x80 - 128)) * 64 + (v % 0x40 + 0x80 - 128) = v := by omega
      have reads := @Reads.four (UInt8.ofNat (v / 262144 % 0x08 + 0xf0)) (UInt8.ofNat (v / 4096 % 0x40 + 0x80))
        (UInt8.ofNat (v / 64 % 0x40 + 0x80)) (UInt8.ofNat (v % 0x40 + 0x80)) rest (by rw [a]; omega)
        (by rw [GoesOn, GoesOn, GoesOn, b, c, d]; omega) (by rw [a, b, c, d, whole]; omega)
        (by rw [a, b, c, d, whole]; omega)
      rw [a, b, c, d, whole] at reads
      exact reads

/-- What is read are the bytes of a character. -/
theorem Reads.char (reads : Reads s u n) : ∃ c : Char, c.toNat = u ∧ (String.utf8EncodeChar c).length = n ∧
    s = String.utf8EncodeChar c ++ s.drop n := by
  have byte (a : UInt8) (k : Nat) (same : k = a.toNat) : UInt8.ofNat k = a := by
    rw [same]
    exact UInt8.ofNat_toNat
  cases reads with
  | @one a rest lead =>
    obtain ⟨c, value⟩ := exists_char (n := a.toNat) (.inl (by omega))
    have bytes : String.utf8EncodeChar c = [a] := by
      rw [String.utf8EncodeChar, show c.val.toNat = a.toNat from value, if_pos (by omega), byte a _ rfl]
    exact ⟨c, value, by rw [bytes]; rfl, by rw [bytes]; rfl⟩
  | @two a b rest lead tail long =>
    have bounds := tail
    unfold GoesOn at bounds
    obtain ⟨c, value⟩ := exists_char (n := (a.toNat - 192) * 64 + (b.toNat - 128)) (.inl (by omega))
    have bytes : String.utf8EncodeChar c = [a, b] := by
      rw [String.utf8EncodeChar, show c.val.toNat = _ from value, if_neg (by omega), if_pos (by omega),
        byte a _ (by omega), byte b _ (by omega)]
    exact ⟨c, value, by rw [bytes]; rfl, by rw [bytes]; rfl⟩
  | @three a b d rest lead tail long scalar =>
    have bounds := tail
    unfold GoesOn at bounds
    obtain ⟨c, value⟩ := exists_char (n := ((a.toNat - 224) * 64 + (b.toNat - 128)) * 64 + (d.toNat - 128))
      (scalar.imp_right fun above => ⟨above, by omega⟩)
    have bytes : String.utf8EncodeChar c = [a, b, d] := by
      rw [String.utf8EncodeChar, show c.val.toNat = _ from value, if_neg (by omega), if_neg (by omega), if_pos (by omega),
        byte a _ (by omega), byte b _ (by omega), byte d _ (by omega)]
    exact ⟨c, value, by rw [bytes]; rfl, by rw [bytes]; rfl⟩
  | @four a b d e rest lead tail long scalar =>
    have bounds := tail
    unfold GoesOn at bounds
    obtain ⟨c, value⟩ := exists_char
      (n := (((a.toNat - 240) * 64 + (b.toNat - 128)) * 64 + (d.toNat - 128)) * 64 + (e.toNat - 128))
      (.inr ⟨by omega, scalar⟩)
    have bytes : String.utf8EncodeChar c = [a, b, d, e] := by
      rw [String.utf8EncodeChar, show c.val.toNat = _ from value, if_neg (by omega), if_neg (by omega), if_neg (by omega),
        byte a _ (by omega), byte b _ (by omega), byte d _ (by omega), byte e _ (by omega)]
    exact ⟨c, value, by rw [bytes]; rfl, by rw [bytes]; rfl⟩

end Decoding

section Encoding

variable {l n maxout : Nat} {c : Char} {text : List Char}

theorem tail_byte (l n : Nat) : 0x80 ||| (l >>> (6 * n) &&& 0x3F) = l / 2 ^ (6 * n) % 0x40 + 0x80 := by
  have bits : l >>> (6 * n) &&& 0x3F = l / 2 ^ (6 * n) % 2 ^ 6 := by
    rw [Nat.and_two_pow_sub_one_eq_mod _ 6, Nat.shiftRight_eq_div_pow]
  rw [bits]
  have joined := Nat.shiftLeft_add_eq_or_of_lt (i := 6) (Nat.mod_lt (l / 2 ^ (6 * n)) (by decide)) 2
  rw [Nat.add_comm]
  exact joined.symm

theorem utf8Tail_succ (l n : Nat) :
    utf8Tail l (n + 1) = UInt8.ofNat (l / 2 ^ (6 * n) % 0x40 + 0x80) :: utf8Tail l n := by
  rw [utf8Tail, tail_byte]

/-- The bytes of a character, if they fit. -/
theorem utf32ToUtf8_char (c : Char) (room : (String.utf8EncodeChar c).length ≤ maxout) :
    utf32ToUtf8 c.toNat maxout = some (String.utf8EncodeChar c) := by
  have range := char_range c
  have surrogate : c.toNat &&& surrogateMask = surrogatePair ↔ _ := surrogate_bits (by omega)
  have maximum : unicodeMax = 0x10ffff := rfl
  rw [utf32ToUtf8, if_neg (by rw [surrogate]; omega)]
  have value : c.val.toNat = c.toNat := rfl
  rw [String.utf8EncodeChar, value] at room ⊢
  generalize c.toNat = v at range room
  have lead (k i : Nat) {y : Nat} (small : y < 2 ^ i) : k <<< i ||| y = y + k <<< i := by
    rw [← Nat.shiftLeft_add_eq_or_of_lt small, Nat.add_comm]
  have tailOne : utf8Tail v 1 = [UInt8.ofNat (v % 0x40 + 0x80)] := by
    rw [utf8Tail_succ, Nat.mul_zero, Nat.pow_zero, Nat.div_one]
    rfl
  have tailTwo : utf8Tail v 2 = [UInt8.ofNat (v / 64 % 0x40 + 0x80), UInt8.ofNat (v % 0x40 + 0x80)] := by
    rw [utf8Tail_succ, tailOne, show 2 ^ (6 * 1) = 64 from rfl]
  have tailThree : utf8Tail v 3 = [UInt8.ofNat (v / 4096 % 0x40 + 0x80), UInt8.ofNat (v / 64 % 0x40 + 0x80),
      UInt8.ofNat (v % 0x40 + 0x80)] := by
    rw [utf8Tail_succ, tailTwo, show 2 ^ (6 * 2) = 4096 from rfl]
  rw [utf8Table]
  split at room
  · rename_i one
    obtain ⟨maxout, rfl⟩ : ∃ fewer, maxout = fewer + 1 := ⟨maxout - 1, by simp at room; omega⟩
    rw [utf32Rows, if_pos (by simpa using one), if_pos one]
    simp [utf8Tail]
  rename_i notOne
  rw [if_neg notOne]
  split at room
  · rename_i two
    obtain ⟨maxout, rfl⟩ : ∃ fewer, maxout = fewer + 2 := ⟨maxout - 2, by simp at room; omega⟩
    rw [utf32Rows, if_neg (by simpa using notOne), utf32Rows, if_pos (by simpa using two), if_pos two]
    have first : 0xC0 ||| v >>> 6 = v / 64 % 0x20 + 0xc0 := by
      rw [Nat.shiftRight_eq_div_pow, show (0xC0 : Nat) = 6 <<< 5 from rfl, lead 6 5 (by omega)]
      omega
    change some (UInt8.ofNat (0xC0 ||| v >>> 6) :: utf8Tail v 1) = _
    rw [first, tailOne]
  · rename_i notTwo
    rw [if_neg notTwo]
    split at room
    · rename_i three
      obtain ⟨maxout, rfl⟩ : ∃ fewer, maxout = fewer + 3 := ⟨maxout - 3, by simp at room; omega⟩
      rw [utf32Rows, if_neg (by simpa using notOne), utf32Rows, if_neg (by simpa using notTwo), utf32Rows,
        if_pos (by simpa using three), if_pos three]
      have first : 0xE0 ||| v >>> 12 = v / 4096 % 0x10 + 0xe0 := by
        rw [Nat.shiftRight_eq_div_pow, show (0xE0 : Nat) = 14 <<< 4 from rfl, lead 14 4 (by omega)]
        omega
      change some (UInt8.ofNat (0xE0 ||| v >>> 12) :: utf8Tail v 2) = _
      rw [first, tailTwo]
    · rename_i notThree
      obtain ⟨maxout, rfl⟩ : ∃ fewer, maxout = fewer + 4 := ⟨maxout - 4, by simp at room; omega⟩
      rw [if_neg notThree, utf32Rows, if_neg (by simpa using notOne), utf32Rows, if_neg (by simpa using notTwo),
        utf32Rows, if_neg (by simpa using notThree), utf32Rows, if_pos (by dsimp only; omega)]
      have first : 0xF0 ||| v >>> 18 = v / 262144 % 0x08 + 0xf0 := by
        rw [Nat.shiftRight_eq_div_pow, show (0xF0 : Nat) = 30 <<< 3 from rfl, lead 30 3 (by omega)]
        omega
      change some (UInt8.ofNat (0xF0 ||| v >>> 18) :: utf8Tail v 3) = _
      rw [first, tailThree]

end Encoding

section Conversion

variable {s rest : List UInt8} {units : List UInt16} {maxout : Nat} {c : Char} {text : List Char}

/-- A character has a first byte, and an ASCII one has no other. -/
theorem utf8EncodeChar_cons (c : Char) : ∃ b bytes, String.utf8EncodeChar c = b :: bytes ∧
    (c.toNat < 128 → b.toNat = c.toNat ∧ bytes = []) ∧ (128 ≤ c.toNat → 128 ≤ b.toNat) := by
  have range := char_range c
  rw [String.utf8EncodeChar, show c.val.toNat = c.toNat from rfl]
  generalize c.toNat = v at range
  split
  · exact ⟨_, _, rfl, fun small => ⟨toNat_ofNat_byte (by omega), rfl⟩, fun large => by omega⟩
  · split
    · exact ⟨_, _, rfl, fun small => by omega, fun large => by rw [toNat_ofNat_byte (by omega)]; omega⟩
    · split
      · exact ⟨_, _, rfl, fun small => by omega, fun large => by rw [toNat_ofNat_byte (by omega)]; omega⟩
      · exact ⟨_, _, rfl, fun small => by omega, fun large => by rw [toNat_ofNat_byte (by omega)]; omega⟩

theorem surrogate_pair {u : Nat} (plane : u < 0x100000) :
    surrogatePair ||| (u >>> 10 &&& surrogateBits) = 0xd800 + u / 0x400 ∧
      surrogatePair ||| surrogateLow ||| (u &&& surrogateBits) = 0xdc00 + u % 0x400 := by
  have high : u >>> 10 &&& surrogateBits = u / 0x400 := by
    rw [show surrogateBits = 2 ^ 10 - 1 from rfl, Nat.and_two_pow_sub_one_eq_mod, Nat.shiftRight_eq_div_pow]
    omega
  have low : u &&& surrogateBits = u % 0x400 := Nat.and_two_pow_sub_one_eq_mod u 10
  rw [high, low]
  constructor
  · exact (Nat.shiftLeft_add_eq_or_of_lt (i := 10) (show u / 0x400 < 2 ^ 10 by omega) 54).symm
  · exact (Nat.shiftLeft_add_eq_or_of_lt (i := 10) (show u % 0x400 < 2 ^ 10 by omega) 55).symm

/-- A character that is no NUL is converted, where there is room for it. -/
theorem utf8sToUtf16s_char (notNul : c.toNat ≠ 0) (room : (utf16EncodeChar c).length ≤ maxout) :
    utf8sToUtf16s (String.utf8EncodeChar c ++ rest) maxout =
      (utf8sToUtf16s rest (maxout - (utf16EncodeChar c).length)).map fun units => utf16EncodeChar c ++ units := by
  have range := char_range c
  have decoded := (reads_encode c rest).decoded
  obtain ⟨b, bytes, shape, ascii, longer⟩ := utf8EncodeChar_cons c
  have some_room : maxout ≠ 0 := by
    unfold utf16EncodeChar at room
    split at room
    · simp only [List.length_singleton] at room
      omega
    · simp only [List.length_cons] at room
      omega
  have noZero : b ≠ 0 := by
    rintro rfl
    by_cases small : c.toNat < 128
    · exact notNul (ascii small).1.symm
    · exact absurd (longer (by omega)) (by decide)
  obtain ⟨high, -⟩ := lead_bits b.toNat_lt
  conv_lhs => rw [shape, List.cons_append]; unfold utf8sToUtf16s
  simp only [some_room, noZero, or_self, if_false]
  by_cases small : c.toNat < 128
  · obtain ⟨same, rfl⟩ := ascii small
    rw [if_neg (not_not.mpr (high.mpr (by omega))), same, utf16EncodeChar, if_pos (by omega)]
    rfl
  rw [if_pos (fun zero => absurd (high.mp zero) (by have := longer (by omega); omega))]
  rw [shape, List.cons_append] at decoded
  have behind : (b :: (bytes ++ rest)).drop (b :: bytes).length = rest := by
    rw [← List.cons_append, List.drop_left]
  rw [shape] at *
  split
  · rename_i none
    rw [none] at decoded
    cases decoded
  rename_i u size read
  rw [read] at decoded
  obtain ⟨rfl, rfl⟩ := Prod.mk.inj (Option.some.inj decoded)
  rw [behind]
  by_cases plane : c.toNat < 0x10000
  · rw [if_neg (by rw [planeSize]; omega), utf16EncodeChar, if_pos plane]
    rfl
  · obtain ⟨first, second⟩ := surrogate_pair (u := c.toNat - planeSize) (by rw [planeSize]; omega)
    have two : utf16EncodeChar c = [UInt16.ofNat (0xd800 + (c.toNat - 0x10000) / 0x400),
        UInt16.ofNat (0xdc00 + (c.toNat - 0x10000) % 0x400)] := by rw [utf16EncodeChar, if_neg plane]
    rw [two] at room ⊢
    rw [if_pos (by rw [planeSize]; omega), if_neg (show ¬ maxout < 2 from Nat.not_lt.mpr room), first, second]
    rfl

theorem utf8sToUtf16s_encode (noNul : ∀ c ∈ text, c.toNat ≠ 0) (room : (utf16Encode text).length ≤ maxout) :
    utf8sToUtf16s (utf8Encode text) maxout = some (utf16Encode text) := by
  induction text generalizing maxout with
  | nil =>
    unfold utf8sToUtf16s
    rfl
  | cons c text ih =>
    rw [utf16Encode_cons, List.length_append] at room
    rw [utf16Encode_cons, utf8Encode_cons, utf8sToUtf16s_char (noNul c List.mem_cons_self) (by omega),
      ih (fun d there => noNul d (List.mem_cons_of_mem _ there)) (by omega)]
    rfl

/-- The first bytes of what is converted are those of a character. -/
theorem char_of_converted (notEmpty : s ≠ []) (noNul : (0 : UInt8) ∉ s) (room : 0 < maxout)
    (converted : utf8sToUtf16s s maxout = some units) :
    ∃ c rest, s = String.utf8EncodeChar c ++ rest ∧ c.toNat ≠ 0 := by
  obtain ⟨b, tail, rfl⟩ := List.exists_cons_of_ne_nil notEmpty
  have noZero : b ≠ 0 := fun zero => noNul (zero ▸ List.mem_cons_self)
  have positive : b.toNat ≠ 0 := fun zero => noZero (UInt8.toNat_inj.mp zero)
  obtain ⟨high, -⟩ := lead_bits b.toNat_lt
  suffices ∃ u n, Reads (b :: tail) u n by
    obtain ⟨u, n, reads⟩ := this
    obtain ⟨c, rfl, -, same⟩ := reads.char
    refine ⟨c, _, same, fun zero => ?_⟩
    obtain ⟨a, bytes, shape, ascii, -⟩ := utf8EncodeChar_cons c
    rw [shape, List.cons_append] at same
    have := (List.cons.inj same).1
    have := (ascii (by omega)).1
    exact positive (by simp_all)
  by_cases small : b.toNat < 128
  · exact ⟨_, _, .one tail small⟩
  · unfold utf8sToUtf16s at converted
    simp only [Nat.ne_of_gt room, noZero, or_self, if_false] at converted
    rw [if_pos (fun zero => small (high.mp zero))] at converted
    split at converted
    · cases converted
    · rename_i u n decoded
      exact ⟨u, n, reads_of_decoded decoded⟩

/-- What is converted with room to spare is the UTF-8 encoding of a text. -/
theorem text_of_converted (noNul : (0 : UInt8) ∉ s) (converted : utf8sToUtf16s s maxout = some units)
    (room : units.length + 2 ≤ maxout) : ∃ text, s = utf8Encode text ∧ units = utf16Encode text := by
  induction size : s.length using Nat.strong_induction_on generalizing s units maxout with
  | _ size ih =>
    by_cases empty : s = []
    · subst empty
      unfold utf8sToUtf16s at converted
      exact ⟨[], rfl, (Option.some.inj converted).symm⟩
    obtain ⟨c, rest, rfl, notNul⟩ := char_of_converted empty noNul (by omega) converted
    have short : (utf16EncodeChar c).length ≤ 2 := by
      unfold utf16EncodeChar
      split
      · exact Nat.le_succ 1
      · exact Nat.le_refl 2
    rw [utf8sToUtf16s_char notNul (by omega)] at converted
    obtain ⟨further, convertedRest, rfl⟩ := Option.map_eq_some_iff.mp converted
    obtain ⟨b, bytes, shape, -⟩ := utf8EncodeChar_cons c
    rw [List.length_append] at room
    obtain ⟨text, rfl, rfl⟩ := ih rest.length
      (by rw [← size, shape, List.cons_append, List.length_cons, List.length_append]; omega)
      (fun zero => noNul (List.mem_append_right _ zero)) convertedRest (by omega) rfl
    exact ⟨c :: text, (utf8Encode_cons c text).symm, (utf16Encode_cons c text).symm⟩

end Conversion

section Back

variable {units rest : List UInt16} {maxout : Nat} {c : Char} {text : List Char}

theorem toNat_ofNat_unit {k : Nat} (small : k < 65536) : (UInt16.ofNat k).toNat = k := by
  rw [UInt16.toNat_ofNat']
  exact Nat.mod_eq_of_lt small

/-- A character that is no NUL is converted back, where there is room for it. -/
theorem utf16sToUtf8s_char (notNul : c.toNat ≠ 0) (room : (String.utf8EncodeChar c).length ≤ maxout) :
    utf16sToUtf8s (utf16EncodeChar c ++ rest) maxout =
      String.utf8EncodeChar c ++ utf16sToUtf8s rest (maxout - (String.utf8EncodeChar c).length) := by
  have range := char_range c
  have encoded := utf32ToUtf8_char c room
  obtain ⟨b, bytes, shape, ascii, -⟩ := utf8EncodeChar_cons c
  have some_room : maxout ≠ 0 := by
    rw [shape, List.length_cons] at room
    omega
  by_cases plane : c.toNat < 0x10000
  · have unit := toNat_ofNat_unit plane
    have noZero : UInt16.ofNat c.toNat ≠ 0 := fun zero => notNul (by rw [← unit, zero]; rfl)
    have scalar : ¬ c.toNat &&& surrogateMask = surrogatePair := fun surrogate => by
      have := (surrogate_bits (by omega)).mp surrogate
      omega
    rw [utf16EncodeChar, if_pos plane, List.singleton_append]
    conv_lhs => unfold utf16sToUtf8s
    simp only [some_room, noZero, or_self, if_false, unit, scalar, encoded, Option.getD_some]
    by_cases small : c.toNat < 128
    · rw [if_neg (by omega), shape, (ascii small).2, ← (ascii small).1, UInt8.ofNat_toNat]
      rfl
    · rw [if_pos (by omega)]
  · have high := toNat_ofNat_unit (k := 0xd800 + (c.toNat - 0x10000) / 0x400) (by omega)
    have low := toNat_ofNat_unit (k := 0xdc00 + (c.toNat - 0x10000) % 0x400) (by omega)
    rw [utf16EncodeChar, if_neg plane]
    generalize UInt16.ofNat (0xd800 + (c.toNat - 0x10000) / 0x400) = first at high
    generalize UInt16.ofNat (0xdc00 + (c.toNat - 0x10000) % 0x400) = second at low
    have noZero : first ≠ 0 := by
      rintro rfl
      change 0 = _ at high
      omega
    have lead : first.toNat &&& surrogateMask = surrogatePair :=
      (surrogate_bits (by omega)).mpr (by omega)
    have tail : second.toNat &&& surrogateMask = surrogatePair :=
      (surrogate_bits (by omega)).mpr (by omega)
    have leadHigh : first.toNat &&& surrogateLow = 0 :=
      (low_surrogate_bits (by omega) (by omega)).mpr (by omega)
    have tailLow : ¬ second.toNat &&& surrogateLow = 0 := fun zero => by
      have := (low_surrogate_bits (by omega) (by omega)).mp zero
      omega
    have together : planeSize + ((first.toNat &&& surrogateBits) <<< 10) + (second.toNat &&& surrogateBits) =
        c.toNat := by
      rw [show surrogateBits = 2 ^ 10 - 1 from rfl, Nat.and_two_pow_sub_one_eq_mod, Nat.and_two_pow_sub_one_eq_mod,
        Nat.shiftLeft_eq, planeSize]
      omega
    rw [List.cons_append, List.cons_append, List.nil_append]
    conv_lhs => unfold utf16sToUtf8s
    simp only [some_room, noZero, or_self, if_false, lead, leadHigh, tail, tailLow, ne_eq, not_true_eq_false, together,
      encoded, Option.getD_some, if_true]
    rw [if_pos (by omega)]

theorem utf16sToUtf8s_encode (noNul : ∀ c ∈ text, c.toNat ≠ 0) (room : (utf8Encode text).length ≤ maxout) :
    utf16sToUtf8s (utf16Encode text) maxout = utf8Encode text := by
  induction text generalizing maxout with
  | nil => rfl
  | cons c text ih =>
    rw [utf8Encode_cons, List.length_append] at room
    rw [utf8Encode_cons, utf16Encode_cons, utf16sToUtf8s_char (noNul c List.mem_cons_self) (by omega),
      ih (fun d there => noNul d (List.mem_cons_of_mem _ there)) (by omega)]

theorem utf8EncodeChar_units (c : Char) : (String.utf8EncodeChar c).length ≤ 3 * (utf16EncodeChar c).length ∧
    (utf16EncodeChar c).length ≤ (String.utf8EncodeChar c).length := by
  rw [String.utf8EncodeChar, utf16EncodeChar, show c.val.toNat = c.toNat from rfl]
  generalize c.toNat = v
  split
  · rw [if_pos (by omega)]
    simp
  split
  · rw [if_pos (by omega)]
    simp
  · split
    · rw [if_pos (by omega)]
      simp
    · rw [if_neg (by omega)]
      simp

theorem utf8Encode_units (text : List Char) : (utf8Encode text).length ≤ 3 * (utf16Encode text).length := by
  induction text with
  | nil => exact Nat.le_refl 0
  | cons c text ih =>
    have one := (utf8EncodeChar_units c).1
    rw [utf8Encode_cons,
      utf16Encode_cons,
      List.length_append, List.length_append]
    omega

end Back

end Ttntfs.Platform
