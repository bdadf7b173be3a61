import Ttntfs.Logfile.MftRecord

/-!
# Sector tails

A page that is protected and then read back is the page that was protected, apart from
the update sequence array and the sector tails. A tail is the last two bytes of a
sector; a byte is away from the tails when its place in its sector is before them.
-/

namespace Ttntfs.Logfile

open Library.ByteMemory

theorem usaOk_iff {record : Mem} {bytes sector : Nat} :
    usaOk record bytes sector = true ↔
      lfGet16 record mrUsaOfs % 2 = 0 ∧ 2 ≤ lfGet16 record mrUsaCount ∧
        lfGet16 record mrUsaOfs + lfGet16 record mrUsaCount * 2 ≤ sector ∧
        (lfGet16 record mrUsaCount - 1) * sector % 2 ^ 32 = bytes := by
  simp only [usaOk, Bool.not_eq_true', Bool.or_eq_false_iff, decide_eq_false_iff_not,
    Nat.mod_two_not_eq_one, Nat.not_lt, gt_iff_lt, ne_eq, Decidable.not_not, and_assoc]

/-- The round of `lfs_fixup_pre_write` for one sector. -/
def putTailAway (usaOfs usn : Nat) (m : Mem) (i : Nat) : Mem :=
  lfPut16 (lfPut16 m (usaOfs + i * 2) (lfGet16 m (i * lfsSectorSize - 2)))
    (i * lfsSectorSize - 2) usn

/-- The round of `lfs_fixup_post_read` for one sector. -/
def restoreTail (usaOfs usn : Nat) (state : Mem × Bool) (i : Nat) : Mem × Bool :=
  (lfPut16 state.1 (i * lfsSectorSize - 2) (lfGet16 state.1 (usaOfs + i * 2)),
    state.2 || lfGet16 state.1 (i * lfsSectorSize - 2) ≠ usn)

/-- The number that protects the next write. -/
def nextUsn (record : Mem) : Nat :=
  let raised := (lfGet16 record (lfGet16 record mrUsaOfs) + 1) % 2 ^ 16
  if raised = 0xffff || raised = 0 then 1 else raised

theorem lfsFixupPreWrite_eq {record : Mem} {bytes : Nat} (ok : usaOk record bytes lfsSectorSize) :
    lfsFixupPreWrite record bytes lfsSectorSize =
      some ((List.range' 1 (lfGet16 record mrUsaCount - 1)).foldl
        (putTailAway (lfGet16 record mrUsaOfs) (nextUsn record))
        (lfPut16 record (lfGet16 record mrUsaOfs) (nextUsn record))) := by
  simp only [lfsFixupPreWrite, ok]
  rfl

/-- With a sound array the tails of the sectors are restored one by one. -/
theorem lfsFixupPostRead_eq {record : Mem} {bytes : Nat} (ok : usaOk record bytes lfsSectorSize) :
    lfsFixupPostRead record bytes lfsSectorSize =
      some ((List.range' 1 (lfGet16 record mrUsaCount - 1)).foldl
        (restoreTail (lfGet16 record mrUsaOfs) (lfGet16 record (lfGet16 record mrUsaOfs)))
        (record, false)) := by
  simp only [lfsFixupPostRead, ok]
  rfl

theorem putTailAway_outside {usaOfs usn i byte : Nat} {m : Mem}
    (array : byte < usaOfs + i * 2 ∨ usaOfs + i * 2 + 2 ≤ byte)
    (tail : byte < i * 512 - 2 ∨ i * 512 - 2 + 2 ≤ byte) :
    putTailAway usaOfs usn m i byte = m byte :=
  (putLE_outside tail).trans (putLE_outside array)

theorem putTailsAway_outside {usaOfs usn byte : Nat} {m : Mem} (n : Nat)
    (array : byte < usaOfs + 2 ∨ usaOfs + (n + 1) * 2 ≤ byte)
    (tail : byte % 512 < 510 ∨ 512 * n ≤ byte) :
    (List.range' 1 n).foldl (putTailAway usaOfs usn) m byte = m byte := by
  induction n with
  | zero => rfl
  | succ n ih =>
    have earlier := ih (by omega) (by omega)
    rw [List.range'_1_concat, List.foldl_append, List.foldl_cons, List.foldl_nil, ← earlier]
    exact putTailAway_outside (by omega) (by omega)

theorem putTailsAway_tail {usaOfs usn k : Nat} {m : Mem} (n : Nat) (fits : usn < 2 ^ 16)
    (array : usaOfs + (n + 1) * 2 ≤ 510) (first : 1 ≤ k) (last : k ≤ n) :
    lfGet16 ((List.range' 1 n).foldl (putTailAway usaOfs usn) m) (k * 512 - 2) = usn := by
  induction n with
  | zero => omega
  | succ n ih =>
    rw [List.range'_1_concat, List.foldl_append, List.foldl_cons, List.foldl_nil]
    obtain rfl | earlier : k = n + 1 ∨ k ≤ n := by omega
    · rw [show 1 + n = n + 1 by omega]
      exact getLE_putLE_of_lt fits
    · refine Eq.trans ?_ (ih (by omega) earlier)
      exact getLE_congr fun byte lower upper => putTailAway_outside (by omega) (by omega)

theorem nextUsn_lt (record : Mem) : nextUsn record < 2 ^ 16 := by
  simp only [nextUsn]
  split <;> omega

/-- What the restoring rounds do: they change only the tails, and they find no torn tail
where every tail carries the number. -/
theorem restoreTails_spec {usaOfs usn : Nat} (m : Mem) (n : Nat) :
    let restored := (List.range' 1 n).foldl (restoreTail usaOfs usn) (m, false)
    (∀ byte, byte % 512 < 510 ∨ 512 * n ≤ byte → restored.1 byte = m byte) ∧
      ((∀ k, 1 ≤ k → k ≤ n → lfGet16 m (k * 512 - 2) = usn) → restored.2 = false) := by
  induction n with
  | zero => exact ⟨fun _ _ => rfl, fun _ => rfl⟩
  | succ n ih =>
    obtain ⟨outside, torn⟩ := ih
    rw [List.range'_1_concat, List.foldl_append, List.foldl_cons, List.foldl_nil]
    refine ⟨fun byte away => ?_, fun carried => ?_⟩
    · have kept : byte < (1 + n) * 512 - 2 ∨ (1 + n) * 512 - 2 + 2 ≤ byte := by omega
      have unchanged := outside byte (by omega)
      rw [← unchanged]
      exact putLE_outside kept
    · have tail : lfGet16 ((List.range' 1 n).foldl (restoreTail usaOfs usn) (m, false)).1
          ((1 + n) * 512 - 2) = lfGet16 m ((1 + n) * 512 - 2) :=
        getLE_congr fun byte lower upper => outside byte (by omega)
      have matching := carried (1 + n) (by omega) (by omega)
      have earlier := torn fun k first last => carried k first (by omega)
      simp only [restoreTail, lfsSectorSize, earlier, tail, matching]
      simp

theorem lfsFixupPostRead_outside {record restored : Mem} {bytes byte : Nat} {torn : Bool}
    (read : lfsFixupPostRead record bytes lfsSectorSize = some (restored, torn))
    (away : byte % 512 < 510) : restored byte = record byte := by
  by_cases ok : usaOk record bytes lfsSectorSize = true
  · rw [lfsFixupPostRead_eq ok, Option.some.injEq] at read
    have spec := (@restoreTails_spec (lfGet16 record mrUsaOfs)
      (lfGet16 record (lfGet16 record mrUsaOfs)) record (lfGet16 record mrUsaCount - 1)).1 byte
      (.inl away)
    rwa [read] at spec
  · simp [lfsFixupPostRead, ok] at read

/-- The number and the tails of a protected record, and the bytes that protecting it
leaves alone. The array ends before the first tail and begins after the two header
words that describe it. -/
structure Protects (record sealed : Mem) : Prop where
  kept : ∀ byte, byte % 512 < 510 →
    byte < lfGet16 record mrUsaOfs ∨
      lfGet16 record mrUsaOfs + lfGet16 record mrUsaCount * 2 ≤ byte →
    sealed byte = record byte
  carried : ∀ k, 1 ≤ k → k < lfGet16 record mrUsaCount →
    lfGet16 sealed (k * 512 - 2) = lfGet16 sealed (lfGet16 record mrUsaOfs)

/-- `lfs_fixup_pre_write` protects a record. -/
theorem lfsFixupPreWrite_protects {record : Mem} {bytes : Nat}
    (ok : usaOk record bytes lfsSectorSize)
    (array : lfGet16 record mrUsaOfs + lfGet16 record mrUsaCount * 2 ≤ 510) :
    ∃ sealed, lfsFixupPreWrite record bytes lfsSectorSize = some sealed ∧
      Protects record sealed := by
  have several : 2 ≤ lfGet16 record mrUsaCount := (usaOk_iff.mp ok).2.1
  refine ⟨_, lfsFixupPreWrite_eq ok, fun byte away apart => ?_, fun k first last => ?_⟩
  · rw [putTailsAway_outside _ (by omega) (.inl away)]
    exact putLE_outside (by omega)
  rw [putTailsAway_tail _ (nextUsn_lt record) (by omega) first (by omega)]
  have number : lfGet16 ((List.range' 1 (lfGet16 record mrUsaCount - 1)).foldl
      (putTailAway (lfGet16 record mrUsaOfs) (nextUsn record))
      (lfPut16 record (lfGet16 record mrUsaOfs) (nextUsn record))) (lfGet16 record mrUsaOfs) =
      lfGet16 (lfPut16 record (lfGet16 record mrUsaOfs) (nextUsn record))
        (lfGet16 record mrUsaOfs) :=
    getLE_congr fun byte lower upper => putTailsAway_outside _ (by omega) (by omega)
  rw [number]
  exact (getLE_putLE_of_lt (nextUsn_lt record)).symm

/-- A record that was protected reads back without a torn tail, unchanged apart from the
array and the tails. -/
theorem Protects.restores {record sealed : Mem} {bytes : Nat}
    (ok : usaOk record bytes lfsSectorSize) (protects : Protects record sealed)
    (array : 8 ≤ lfGet16 record mrUsaOfs) {stored : Mem}
    (same : ∀ byte, byte < bytes → stored byte = sealed byte) (nonempty : 512 ≤ bytes) :
    ∃ restored, lfsFixupPostRead stored bytes lfsSectorSize = some (restored, false) ∧
      ∀ byte, byte < bytes → byte % 512 < 510 →
        byte < lfGet16 record mrUsaOfs ∨
          lfGet16 record mrUsaOfs + lfGet16 record mrUsaCount * 2 ≤ byte →
        restored byte = record byte := by
  have head : ∀ byte, byte < 8 → stored byte = record byte := fun byte low =>
    (same byte (by omega)).trans (protects.kept byte (by omega) (by omega))
  have ofs : lfGet16 stored mrUsaOfs = lfGet16 record mrUsaOfs :=
    getLE_congr fun byte _ upper => head byte (by simp only [mrUsaOfs] at upper; omega)
  have count : lfGet16 stored mrUsaCount = lfGet16 record mrUsaCount :=
    getLE_congr fun byte _ upper => head byte (by simp only [mrUsaCount] at upper; omega)
  have stillOk : usaOk stored bytes lfsSectorSize = true := by
    rw [← ok]
    simp only [usaOk, ofs, count]
  obtain ⟨-, several, short, size⟩ := usaOk_iff.mp ok
  simp only [lfsSectorSize] at short size
  obtain ⟨outside, torn⟩ := @restoreTails_spec (lfGet16 stored mrUsaOfs)
    (lfGet16 stored (lfGet16 stored mrUsaOfs)) stored (lfGet16 stored mrUsaCount - 1)
  have number : lfGet16 stored (lfGet16 record mrUsaOfs) =
      lfGet16 sealed (lfGet16 record mrUsaOfs) :=
    getLE_congr fun byte _ upper => same byte (by omega)
  have whole := torn fun k first last => by
    rw [ofs, number, ← protects.carried k first (by omega)]
    exact getLE_congr fun byte _ upper => same byte (by omega)
  refine ⟨_, (lfsFixupPostRead_eq stillOk).trans (congrArg some (Prod.ext rfl whole)),
    fun byte inside away apart => ?_⟩
  exact (outside byte (.inl away)).trans
    ((same byte inside).trans (protects.kept byte away apart))

end Ttntfs.Logfile
