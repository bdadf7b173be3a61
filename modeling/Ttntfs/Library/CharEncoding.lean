import Ttntfs.Library.BitMasks

/-!
# Encodings of characters

A character is a Unicode scalar value. UTF-8 writes it as one to four bytes, whose leading bits
tell a byte that begins a character from those that go on with it, and UTF-16 as one or two
units, two of which are a pair of surrogates.
-/

namespace Ttntfs.Library.CharEncoding

open BitMasks

/-- The leading bits of a byte, by its value. -/
theorem lead_bits {x : Nat} (byte : x < 256) :
    (x &&& 0x80 = 0 ↔ x < 128) ∧ (x &&& 0xE0 = 0xC0 ↔ 192 ≤ x ∧ x < 224) ∧ (x &&& 0xF0 = 0xE0 ↔ 224 ≤ x ∧ x < 240) ∧
      (x &&& 0xF8 = 0xF0 ↔ 240 ≤ x ∧ x < 248) ∧ (x &&& 0xFC = 0xF8 ↔ 248 ≤ x ∧ x < 252) ∧
      (x &&& 0xFE = 0xFC ↔ 252 ≤ x ∧ x < 254) := by
  rw [@and_high_iff 8 7 x 0 0x80 0 byte (by decide) rfl rfl, @and_high_iff 8 5 x 6 0xE0 0xC0 byte (by decide) rfl rfl,
    @and_high_iff 8 4 x 14 0xF0 0xE0 byte (by decide) rfl rfl, @and_high_iff 8 3 x 30 0xF8 0xF0 byte (by decide) rfl rfl,
    @and_high_iff 8 2 x 62 0xFC 0xF8 byte (by decide) rfl rfl, @and_high_iff 8 1 x 126 0xFE 0xFC byte (by decide) rfl rfl]
  omega

/-- A byte that goes on with a character, and its bits. -/
theorem tail_bits {x : Nat} (byte : x < 256) :
    ((x ^^^ 0x80) &&& 0xC0 = 0 ↔ 128 ≤ x ∧ x < 192) ∧ (128 ≤ x → x ^^^ 0x80 = x - 128) := by
  revert x
  decide +kernel

/-- Six bits more. -/
theorem append_bits (l : Nat) {c : Nat} (small : c < 64) : l <<< 6 ||| c = l * 64 + c := by
  rw [← Nat.shiftLeft_add_eq_or_of_lt (i := 6) small, Nat.shiftLeft_eq]

/-- The surrogates, as the mask tells them. -/
theorem surrogate_bits {n : Nat} (word : n < 2 ^ 32) : n &&& 0xfffff800 = 0xd800 ↔ 0xd800 ≤ n ∧ n < 0xe000 := by
  rw [@and_high_iff 32 11 n 27 0xfffff800 0xd800 word (by decide) rfl rfl]
  omega

/-- The second one of a pair of surrogates. -/
theorem low_surrogate_bits {n : Nat} (lower : 0xd800 ≤ n) (upper : n < 0xe000) : n &&& 0x400 = 0 ↔ n < 0xdc00 := by
  have parts : n &&& 0x400 = (n % 2 ^ 11) &&& 0x400 := by
    rw [← Nat.and_two_pow_sub_one_eq_mod, Nat.and_assoc]
    rfl
  rw [parts, @and_high_iff 11 10 (n % 2 ^ 11) 0 0x400 0 (Nat.mod_lt _ (by decide)) (by decide) rfl rfl]
  omega

/-- The UTF-16 encoding of a character. -/
def utf16EncodeChar (c : Char) : List UInt16 :=
  if c.toNat < 0x10000 then [UInt16.ofNat c.toNat]
  else [UInt16.ofNat (0xd800 + (c.toNat - 0x10000) / 0x400), UInt16.ofNat (0xdc00 + (c.toNat - 0x10000) % 0x400)]

/-- The UTF-8 encoding of a text. -/
def utf8Encode (text : List Char) : List UInt8 := text.flatMap String.utf8EncodeChar

/-- The UTF-16 encoding of a text. -/
def utf16Encode (text : List Char) : List UInt16 := text.flatMap utf16EncodeChar

theorem utf8Encode_cons (c : Char) (text : List Char) :
    utf8Encode (c :: text) = String.utf8EncodeChar c ++ utf8Encode text := List.flatMap_cons

theorem utf16Encode_cons (c : Char) (text : List Char) :
    utf16Encode (c :: text) = utf16EncodeChar c ++ utf16Encode text := List.flatMap_cons

/-- A character is a scalar value. -/
theorem char_range (c : Char) : c.toNat < 0xd800 ∨ 0xe000 ≤ c.toNat ∧ c.toNat < 0x110000 := by
  have valid := c.valid
  simp only [UInt32.isValidChar, Nat.isValidChar] at valid
  change c.val.toNat < _ ∨ _ ≤ c.val.toNat ∧ c.val.toNat < _
  omega

/-- A scalar value is a character. -/
theorem exists_char {n : Nat} (scalar : n < 0xd800 ∨ 0xe000 ≤ n ∧ n < 0x110000) : ∃ c : Char, c.toNat = n := by
  have valid : n.isValidChar := by
    rcases scalar with low | ⟨above, below⟩
    · exact .inl low
    · exact .inr ⟨by omega, below⟩
  exact ⟨Char.ofNatAux n valid, rfl⟩

/-- Whether every surrogate among the units is one of a pair. -/
def surrogatesPaired : List UInt16 → Bool
  | [] => true
  | u :: rest =>
    if u.toNat < 0xd800 ∨ 0xe000 ≤ u.toNat then surrogatesPaired rest
    else
      match rest with
      | [] => false
      | v :: behind => u.toNat < 0xdc00 && 0xdc00 ≤ v.toNat && v.toNat < 0xe000 && surrogatesPaired behind

/-- Units whose surrogates are paired are the encoding of a text. -/
theorem exists_text_of_paired {units : List UInt16} (paired : surrogatesPaired units = true) :
    ∃ text, units = utf16Encode text := by
  fun_induction surrogatesPaired units with
  | case1 => exact ⟨[], rfl⟩
  | case2 u rest scalar ih =>
    obtain ⟨text, rfl⟩ := ih paired
    have small := u.toNat_lt
    obtain ⟨c, value⟩ := exists_char (n := u.toNat) (by omega)
    have unit : utf16EncodeChar c = [u] := by
      rw [utf16EncodeChar, if_pos (by omega), value, UInt16.ofNat_toNat]
    exact ⟨c :: text, by rw [utf16Encode_cons, unit]; rfl⟩
  | case3 => cases paired
  | case4 u surrogate v behind ih =>
    simp only [Bool.and_eq_true, decide_eq_true_eq] at paired
    obtain ⟨⟨⟨high, lower⟩, upper⟩, further⟩ := paired
    obtain ⟨text, rfl⟩ := ih further
    obtain ⟨c, value⟩ := exists_char (n := 0x10000 + (u.toNat - 0xd800) * 0x400 + (v.toNat - 0xdc00)) (by omega)
    have first : 0xd800 + (c.toNat - 0x10000) / 0x400 = u.toNat := by omega
    have second : 0xdc00 + (c.toNat - 0x10000) % 0x400 = v.toNat := by omega
    have pair : utf16EncodeChar c = [u, v] := by
      rw [utf16EncodeChar, if_neg (by omega), first, second, UInt16.ofNat_toNat, UInt16.ofNat_toNat]
    exact ⟨c :: text, by rw [utf16Encode_cons, pair]; rfl⟩

end Ttntfs.Library.CharEncoding
