import Mathlib.Tactic
import Ttntfs.Library.ByteMemory

/-!
# Texts written as symbols and phrases

A text can be given by tokens: a symbol is the next byte itself, a phrase repeats what
stands a distance back, and may run into what it writes itself. A memory that agrees with
the text up to a position agrees with it behind the next token, if the token describes the
text at this position.
-/

namespace Ttntfs.Library.BackReferences

open Ttntfs.Library.ByteMemory

/-- Copy bytes upwards one by one, so that a copy can read what it has written. -/
def copyForward : Nat → Mem → Nat → Nat → Mem
  | 0, m, _, _ => m
  | n + 1, m, dst, src => copyForward n (Function.update m dst (m src)) (dst + 1) (src + 1)

/-- A token: a byte, or a number of bytes from some distance back. -/
inductive Token where
  | symbol (byte : UInt8)
  | phrase (distance length : Nat)
  deriving DecidableEq

/-- The number of bytes of the text that a token stands for. -/
def Token.width : Token → Nat
  | .symbol _ => 1
  | .phrase _ length => length

/-- Whether a token stands for the text at a position. -/
def Token.Describes (text : Mem) (pos : Nat) : Token → Prop
  | .symbol byte => byte = text pos
  | .phrase distance length =>
    0 < distance ∧ distance ≤ pos ∧ ∀ k < length, text (pos - distance + k) = text (pos + k)

/-- The number of bytes that tokens stand for. -/
def tokensWidth (tokens : List Token) : Nat := (tokens.map Token.width).sum

/-- A memory agrees with a text in a number of bytes from some offset on. -/
def Agrees (m : Mem) (base : Nat) (text : Mem) (n : Nat) : Prop := ∀ k < n, m (base + k) = text k

section Copy

variable {m : Mem} {dst src n : Nat}

/-- A copy upwards changes nothing outside its destination. -/
theorem copyForward_outside {i : Nat} (outside : i < dst ∨ dst + n ≤ i) : copyForward n m dst src i = m i := by
  induction n generalizing m dst src with
  | zero => rfl
  | succ n ih =>
    rw [copyForward, ih (by omega), Function.update_of_ne (by omega)]

/-- After a copy upwards from below each byte is the one of its source. -/
theorem copyForward_inside (below : src < dst) {k : Nat} (inside : k < n) :
    copyForward n m dst src (dst + k) = copyForward n m dst src (src + k) := by
  induction n generalizing m dst src k with
  | zero => cases inside
  | succ n ih =>
    rw [copyForward]
    cases k with
    | zero =>
      rw [copyForward_outside (by omega), copyForward_outside (by omega), Nat.add_zero, Nat.add_zero,
        Function.update_self, Function.update_of_ne (by omega)]
    | succ k =>
      rw [show dst + (k + 1) = dst + 1 + k by omega, show src + (k + 1) = src + 1 + k by omega]
      exact ih (by omega) (by omega)

end Copy

section Text

variable {m text : Mem} {base pos : Nat}

/-- A symbol in its place extends the agreement with the text. -/
theorem Agrees.symbol (agrees : Agrees m base text pos) {byte : UInt8}
    (describes : (Token.symbol byte).Describes text pos) :
    Agrees (Function.update m (base + pos) byte) base text (pos + 1) := by
  intro k early
  by_cases last : k = pos
  · rw [last, Function.update_self]
    exact describes
  · rw [Function.update_of_ne (by omega)]
    exact agrees k (by omega)

/-- Bytes that equal those a distance back extend the agreement with the text. -/
theorem Agrees.phrase {m' : Mem} (agrees : Agrees m base text pos) {distance length : Nat}
    (describes : (Token.phrase distance length).Describes text pos)
    (kept : ∀ k < pos, m' (base + k) = m (base + k))
    (copied : ∀ k < length, m' (base + pos + k) = m' (base + pos - distance + k)) :
    Agrees m' base text (pos + length) := by
  obtain ⟨some, back, repeats⟩ := describes
  intro k
  induction k using Nat.strong_induction_on with
  | _ k ih =>
    intro early
    rcases Nat.lt_or_ge k pos with old | new
    · rw [kept k old]
      exact agrees k old
    · obtain ⟨l, rfl⟩ : ∃ l, k = pos + l := ⟨k - pos, by omega⟩
      have source := ih (pos - distance + l) (by omega) (by omega)
      rw [← Nat.add_assoc, copied l (by omega), show base + pos - distance + l = base + (pos - distance + l) by omega,
        source]
      exact repeats l (by omega)

@[simp] theorem tokensWidth_nil : tokensWidth [] = 0 := rfl

@[simp] theorem tokensWidth_cons (token : Token) (rest : List Token) :
    tokensWidth (token :: rest) = token.width + tokensWidth rest := by
  simp [tokensWidth]

@[simp] theorem tokensWidth_append (tokens others : List Token) :
    tokensWidth (tokens ++ others) = tokensWidth tokens + tokensWidth others := by
  simp [tokensWidth]

end Text

end Ttntfs.Library.BackReferences
