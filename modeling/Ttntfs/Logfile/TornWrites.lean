import Ttntfs.Logfile.SectorTails

/-!
# Torn writes

A protected record reads back whole, the tails of its sectors included. A write that a crash
leaves half done mixes sectors of two protected records; they carry different numbers, so the
reader does not take the mixture for a record.
-/

namespace Ttntfs.Logfile

open Library.ByteMemory

/-- The update sequence array stands behind the header words that describe it and before the
first sector tail. -/
structure ArrayApart (record : Mem) (bytes : Nat) : Prop where
  ok : usaOk record bytes lfsSectorSize = true
  behind : 8 ≤ lfGet16 record mrUsaOfs
  before : lfGet16 record mrUsaOfs + lfGet16 record mrUsaCount * 2 ≤ 510

/-- A record as `lfs_fixup_pre_write` leaves it: the array and the tails change, the array keeps
the tails, and they and its first entry are the number. -/
structure Sealed (record sealed : Mem) : Prop where
  kept : ∀ byte, byte % 512 < 510 → byte < lfGet16 record mrUsaOfs ∨
    lfGet16 record mrUsaOfs + lfGet16 record mrUsaCount * 2 ≤ byte → sealed byte = record byte
  number : lfGet16 sealed (lfGet16 record mrUsaOfs) = nextUsn record
  tails : ∀ k, 1 ≤ k → k < lfGet16 record mrUsaCount → lfGet16 sealed (k * 512 - 2) = nextUsn record
  entries : ∀ k, 1 ≤ k → k < lfGet16 record mrUsaCount →
    lfGet16 sealed (lfGet16 record mrUsaOfs + k * 2) = lfGet16 record (k * 512 - 2)

/-- After the rounds, the array holds the tails that they reached. -/
theorem putTailsAway_entry {usaOfs usn k : Nat} {m : Mem} (n : Nat) (array : usaOfs + (n + 1) * 2 ≤ 510)
    (first : 1 ≤ k) (last : k ≤ n) :
    lfGet16 ((List.range' 1 n).foldl (putTailAway usaOfs usn) m) (usaOfs + k * 2) = lfGet16 m (k * 512 - 2) := by
  induction n with
  | zero => omega
  | succ n ih =>
    rw [List.range'_1_concat, List.foldl_append, List.foldl_cons, List.foldl_nil]
    obtain rfl | earlier : k = n + 1 ∨ k ≤ n := by omega
    · rw [show 1 + n = n + 1 by omega]
      have apart : lfGet16 (putTailAway usaOfs usn ((List.range' 1 n).foldl (putTailAway usaOfs usn) m) (n + 1))
          (usaOfs + (n + 1) * 2) = lfGet16 ((List.range' 1 n).foldl (putTailAway usaOfs usn) m) ((n + 1) * 512 - 2) := by
        refine (getLE_putLE_disjoint (by simp only [lfsSectorSize]; omega)).trans ?_
        exact getLE_putLE_of_lt (getLE_lt _ 2 _)
      rw [apart]
      exact getLE_congr fun byte lower upper => putTailsAway_outside _ (by omega) (by omega)
    · refine Eq.trans ?_ (ih (by omega) earlier)
      exact getLE_congr fun byte lower upper => putTailAway_outside (by omega) (by omega)

theorem ArrayApart.sealed {record : Mem} {bytes : Nat} (apart : ArrayApart record bytes) :
    ∃ sealed, lfsFixupPreWrite record bytes lfsSectorSize = some sealed ∧ Sealed record sealed := by
  have several : 2 ≤ lfGet16 record mrUsaCount := (usaOk_iff.mp apart.ok).2.1
  have before := apart.before
  have behind := apart.behind
  have kept (byte : Nat) (array : byte < lfGet16 record mrUsaOfs + 2 ∨
      lfGet16 record mrUsaOfs + lfGet16 record mrUsaCount * 2 ≤ byte) (away : byte % 512 < 510) :=
    @putTailsAway_outside (lfGet16 record mrUsaOfs) (nextUsn record) byte
      (lfPut16 record (lfGet16 record mrUsaOfs) (nextUsn record)) (lfGet16 record mrUsaCount - 1) (by omega) (.inl away)
  refine ⟨_, lfsFixupPreWrite_eq apart.ok, { kept := ?_, number := ?_, tails := ?_, entries := ?_ }⟩
  · intro byte away array
    rw [kept byte (by omega) away]
    exact putLE_outside (by omega)
  · refine (getLE_congr fun byte lower upper => kept byte (by omega) (by omega)).trans ?_
    exact getLE_putLE_of_lt (nextUsn_lt record)
  · intro k first last
    exact putTailsAway_tail _ (nextUsn_lt record) (by omega) first (by omega)
  · intro k first last
    rw [putTailsAway_entry _ (by omega) first (by omega)]
    exact getLE_putLE_disjoint (by omega)

section Sealed

variable {record sealed : Mem} {bytes : Nat}

theorem Sealed.header (seals : Sealed record sealed) (apart : ArrayApart record bytes) :
    lfGet16 sealed mrUsaOfs = lfGet16 record mrUsaOfs ∧ lfGet16 sealed mrUsaCount = lfGet16 record mrUsaCount := by
  have behind := apart.behind
  constructor
  · exact getLE_congr fun byte _ upper => seals.kept byte (by simp only [mrUsaOfs] at upper; omega)
      (by simp only [mrUsaOfs] at upper; omega)
  · exact getLE_congr fun byte _ upper => seals.kept byte (by simp only [mrUsaCount] at upper; omega)
      (by simp only [mrUsaCount] at upper; omega)

theorem restoreTails_tail {usaOfs usn k : Nat} (m : Mem) (n : Nat) (array : usaOfs + (n + 1) * 2 ≤ 510)
    (first : 1 ≤ k) (last : k ≤ n) :
    lfGet16 ((List.range' 1 n).foldl (restoreTail usaOfs usn) (m, false)).1 (k * 512 - 2) = lfGet16 m (usaOfs + k * 2) := by
  induction n with
  | zero => omega
  | succ n ih =>
    have kept := (@restoreTails_spec usaOfs usn m n).1
    rw [List.range'_1_concat, List.foldl_append, List.foldl_cons, List.foldl_nil]
    obtain rfl | earlier : k = n + 1 ∨ k ≤ n := by omega
    · rw [show 1 + n = n + 1 by omega]
      refine (getLE_putLE_of_lt (getLE_lt _ 2 _)).trans ?_
      exact getLE_congr fun byte lower upper => kept byte (by omega)
    · refine Eq.trans ?_ (ih (by omega) earlier)
      exact getLE_putLE_disjoint (by simp only [lfsSectorSize]; omega)

/-- One tail without the number makes the record torn. -/
theorem restoreTails_torn {usaOfs usn k : Nat} (m : Mem) (n : Nat) (first : 1 ≤ k) (last : k ≤ n)
    (other : lfGet16 m (k * 512 - 2) ≠ usn) :
    ((List.range' 1 n).foldl (restoreTail usaOfs usn) (m, false)).2 = true := by
  induction n with
  | zero => omega
  | succ n ih =>
    have kept := (@restoreTails_spec usaOfs usn m n).1
    rw [List.range'_1_concat, List.foldl_append, List.foldl_cons, List.foldl_nil]
    obtain rfl | earlier : k = n + 1 ∨ k ≤ n := by omega
    · have tail : lfGet16 ((List.range' 1 n).foldl (restoreTail usaOfs usn) (m, false)).1 ((1 + n) * lfsSectorSize - 2) =
          lfGet16 m ((n + 1) * 512 - 2) := by
        rw [show 1 + n = n + 1 by omega]
        exact getLE_congr fun byte lower upper => kept byte (by simp only [lfsSectorSize] at lower upper; omega)
      simp only [restoreTail, tail, ne_eq, other, not_false_eq_true, decide_true, Bool.or_true]
    · simp only [restoreTail, ih earlier, Bool.true_or]

theorem word_bytes {m m' : Mem} {off : Nat} (same : lfGet16 m off = lfGet16 m' off) :
    m off = m' off ∧ m (off + 1) = m' (off + 1) := by
  have low : (m off).toNat < 256 := (m off).toNat_lt
  have low' : (m' off).toNat < 256 := (m' off).toNat_lt
  simp only [lfGet16, getLE] at same
  exact ⟨UInt8.toNat_inj.mp (by omega), UInt8.toNat_inj.mp (by omega)⟩

end Sealed

/-- A record whose array stands apart is read back whole after it was protected: no tail is torn,
and no byte outside the array differs. -/
theorem fixup_round_trip {record : Mem} {bytes : Nat} (apart : ArrayApart record bytes) :
    ∃ sealed restored, lfsFixupPreWrite record bytes lfsSectorSize = some sealed ∧
      lfsFixupPostRead sealed bytes lfsSectorSize = some (restored, false) ∧
      ∀ byte < bytes, byte < lfGet16 record mrUsaOfs ∨
        lfGet16 record mrUsaOfs + lfGet16 record mrUsaCount * 2 ≤ byte → restored byte = record byte := by
  obtain ⟨sealed, written, seals⟩ := apart.sealed
  obtain ⟨ofs, count⟩ := seals.header apart
  obtain ⟨-, several, -, size⟩ := usaOk_iff.mp apart.ok
  have before := apart.before
  simp only [lfsSectorSize] at size
  have stillOk : usaOk sealed bytes lfsSectorSize = true := by
    rw [← apart.ok]
    simp only [usaOk, ofs, count]
  obtain ⟨outside, whole⟩ := @restoreTails_spec (lfGet16 record mrUsaOfs) (nextUsn record) sealed
    (lfGet16 record mrUsaCount - 1)
  refine ⟨sealed, _, written, (lfsFixupPostRead_eq stillOk).trans (congrArg some (Prod.ext rfl ?_)), ?_⟩
  · rw [ofs, count, seals.number]
    exact whole fun k first last => seals.tails k first (by omega)
  rw [ofs, count, seals.number]
  intro byte inside array
  by_cases away : byte % 512 < 510
  · exact (outside byte (.inl away)).trans (seals.kept byte away array)
  -- the tail of sector `byte / 512`
  have tail := (@restoreTails_tail (lfGet16 record mrUsaOfs) (nextUsn record) (byte / 512 + 1) sealed
    (lfGet16 record mrUsaCount - 1) (by omega) (by omega) (by omega)).trans
    (seals.entries (byte / 512 + 1) (by omega) (by omega))
  obtain ⟨low, high⟩ := word_bytes tail
  obtain here | here : byte = (byte / 512 + 1) * 512 - 2 ∨ byte = (byte / 512 + 1) * 512 - 2 + 1 := by omega
  · rw [here]
    exact low
  · rw [here]
    exact high

/-- A record of two sectors whose number is `usn`. -/
def twoSectors (usn : UInt8) : Mem :=
  fun byte => if byte = mrUsaOfs then 40 else if byte = mrUsaCount then 3 else if byte = 40 then usn else 0

theorem twoSectors_apart (usn : UInt8) : ArrayApart (twoSectors usn) 1024 := by
  have ofs : lfGet16 (twoSectors usn) mrUsaOfs = 40 := rfl
  have count : lfGet16 (twoSectors usn) mrUsaCount = 3 := rfl
  exact { ok := by simp [usaOk, ofs, count, lfsSectorSize], behind := by omega, before := by omega }

/-- A record of two sectors comes back from its protected form. -/
theorem fixup_two_sectors :
    ∃ sealed restored, lfsFixupPreWrite (twoSectors 7) 1024 lfsSectorSize = some sealed ∧
      lfsFixupPostRead sealed 1024 lfsSectorSize = some (restored, false) ∧
      ∀ byte < 1024, byte < lfGet16 (twoSectors 7) mrUsaOfs ∨
        lfGet16 (twoSectors 7) mrUsaOfs + lfGet16 (twoSectors 7) mrUsaCount * 2 ≤ byte →
          restored byte = twoSectors 7 byte :=
  fixup_round_trip (twoSectors_apart 7)

/-- The sectors of two memories, each from one of them. -/
def mixedSectors (chosen : Nat → Bool) (first second : Mem) : Mem :=
  fun byte => if chosen (byte / 512) then first byte else second byte

theorem mixedSectors_swap (chosen : Nat → Bool) (first second : Mem) :
    mixedSectors chosen first second = mixedSectors (fun sector => !chosen sector) second first := by
  funext byte
  cases here : chosen (byte / 512) <;> simp [mixedSectors, here]

/-- A mixture that begins with a sector of one record and has a later one of another is torn. -/
theorem Sealed.mixed {record other sealed sealed' : Mem} {bytes sector : Nat} (seals : Sealed record sealed)
    (apart : ArrayApart record bytes) (seals' : Sealed other sealed') (apart' : ArrayApart other bytes)
    (numbers : nextUsn record ≠ nextUsn other) (chosen : Nat → Bool) (begins : chosen 0 = true)
    (inside : sector * 512 < bytes) (later : chosen sector = false) :
    ∃ restored, lfsFixupPostRead (mixedSectors chosen sealed sealed') bytes lfsSectorSize = some (restored, true) := by
  have before := apart.before
  have head : ∀ byte < 512, mixedSectors chosen sealed sealed' byte = sealed byte := fun byte low => by
    rw [mixedSectors, Nat.div_eq_of_lt low, begins, if_pos rfl]
  obtain ⟨sealedOfs, sealedCount⟩ := seals.header apart
  have ofs : lfGet16 (mixedSectors chosen sealed sealed') mrUsaOfs = lfGet16 record mrUsaOfs :=
    (getLE_congr fun byte _ upper => head byte (by simp only [mrUsaOfs] at upper; omega)).trans sealedOfs
  have count : lfGet16 (mixedSectors chosen sealed sealed') mrUsaCount = lfGet16 record mrUsaCount :=
    (getLE_congr fun byte _ upper => head byte (by simp only [mrUsaCount] at upper; omega)).trans sealedCount
  obtain ⟨-, several, -, size⟩ := usaOk_iff.mp apart.ok
  have number : lfGet16 (mixedSectors chosen sealed sealed') (lfGet16 record mrUsaOfs) = nextUsn record :=
    (getLE_congr fun byte _ upper => head byte (by omega)).trans seals.number
  have stillOk : usaOk (mixedSectors chosen sealed sealed') bytes lfsSectorSize = true := by
    rw [← apart.ok]
    simp only [usaOk, ofs, count]
  obtain ⟨-, several', -, size'⟩ := usaOk_iff.mp apart'.ok
  simp only [lfsSectorSize] at size size'
  have limit : lfGet16 record mrUsaCount < 65536 := getLE_lt _ 2 _
  have limit' : lfGet16 other mrUsaCount < 65536 := getLE_lt _ 2 _
  have tail : lfGet16 (mixedSectors chosen sealed sealed') ((sector + 1) * 512 - 2) ≠ nextUsn record := by
    have same : lfGet16 (mixedSectors chosen sealed sealed') ((sector + 1) * 512 - 2) = nextUsn other := by
      refine (getLE_congr fun byte lower upper => ?_).trans (seals'.tails (sector + 1) (by omega) (by omega))
      rw [mixedSectors, show byte / 512 = sector by omega, later, if_neg (by decide)]
    rw [same]
    exact fun equal => numbers equal.symm
  refine ⟨_, (lfsFixupPostRead_eq stillOk).trans (congrArg some (Prod.ext rfl ?_))⟩
  rw [ofs, count, number]
  exact restoreTails_torn _ _ (k := sector + 1) (by omega) (by omega) tail

/-- A half-done write is found: where two records are protected with different numbers, no
mixture of their sectors with at least one of each is read as a whole record. -/
theorem torn_write_found {record other : Mem} {bytes : Nat} (apart : ArrayApart record bytes)
    (apart' : ArrayApart other bytes) (numbers : nextUsn record ≠ nextUsn other) {chosen : Nat → Bool}
    (first : ∃ sector, sector * 512 < bytes ∧ chosen sector = true)
    (second : ∃ sector, sector * 512 < bytes ∧ chosen sector = false) :
    ∃ sealed sealed' restored, lfsFixupPreWrite record bytes lfsSectorSize = some sealed ∧
      lfsFixupPreWrite other bytes lfsSectorSize = some sealed' ∧
      lfsFixupPostRead (mixedSectors chosen sealed sealed') bytes lfsSectorSize = some (restored, true) := by
  obtain ⟨sealed, written, seals⟩ := apart.sealed
  obtain ⟨sealed', written', seals'⟩ := apart'.sealed
  refine ⟨sealed, sealed', ?_⟩
  cases begins : chosen 0 with
  | true =>
    obtain ⟨sector, inside, later⟩ := second
    obtain ⟨restored, torn⟩ := seals.mixed apart seals' apart' numbers chosen begins inside later
    exact ⟨restored, written, written', torn⟩
  | false =>
    obtain ⟨sector, inside, later⟩ := first
    rw [mixedSectors_swap]
    obtain ⟨restored, torn⟩ := seals'.mixed apart' seals apart numbers.symm
      (fun sector => !chosen sector) (by simp [begins]) inside (by simp [later])
    exact ⟨restored, written, written', torn⟩

/-- The first sector of one write and the second of another are found torn. -/
theorem torn_write_two_sectors :
    ∃ sealed sealed' restored, lfsFixupPreWrite (twoSectors 7) 1024 lfsSectorSize = some sealed ∧
      lfsFixupPreWrite (twoSectors 8) 1024 lfsSectorSize = some sealed' ∧
      lfsFixupPostRead (mixedSectors (fun sector => sector == 0) sealed sealed') 1024 lfsSectorSize =
        some (restored, true) :=
  torn_write_found (twoSectors_apart 7) (twoSectors_apart 8) (by decide) ⟨0, by decide⟩ ⟨1, by decide⟩

end Ttntfs.Logfile
