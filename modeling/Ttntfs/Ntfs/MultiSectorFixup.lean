import Ttntfs.Logfile.SectorTails
import Ttntfs.Ntfs.MftWrite

/-!
# Multi-sector fixups of the driver and of the journal engine

`mst.c` protects MFT and index records the way the journal engine does, with checks of its
own: it takes an update sequence array anywhere in the record, looks for a torn sector before
it restores one, and reads a record without a proper array as it is.
-/

namespace Ttntfs.Ntfs

open Library.ByteMemory Logfile

/-- The first loop of `post_read_mst_fixup`: every block ends with the update sequence number. -/
def blocksWhole (record : Mem) (usn dataPos : Nat) : Nat → Bool
  | 0 => true
  | count + 1 => getLE record 2 dataPos = usn && blocksWhole record usn (dataPos + ntfsBlockSize) count

/-- Its second loop: the last word of each block comes back from the update sequence array. -/
def restoreBlocks (usaPos dataPos : Nat) : Nat → Mem → Mem
  | 0, record => record
  | count + 1, record =>
    restoreBlocks (usaPos + 2) (dataPos + ntfsBlockSize) count
      (putLE record 2 dataPos (getLE record 2 (usaPos + 2)))

/-- `post_read_mst_fixup`: the record, where `-EINVAL` is returned with its magic overwritten. -/
def postReadMstFixup (record : Mem) (size : Nat) : Except Mem Mem :=
  let usaOfs := getLE record 2 recordUsaOfs
  let usaCount := (getLE record 2 recordUsaCount + 2 ^ 16 - 1) % 2 ^ 16
  if size % ntfsBlockSize ≠ 0 ∨ usaOfs % 2 ≠ 0 ∨ usaOfs + usaCount * 2 > size ∨
      size / ntfsBlockSize ≠ usaCount then .ok record
  else if blocksWhole record (getLE record 2 usaOfs) (ntfsBlockSize - 2) usaCount then
    .ok (restoreBlocks usaOfs (ntfsBlockSize - 2) usaCount record)
  else .error (putLE record 4 0 magicBaad)

section Rounds

variable {usaOfs usn : Nat}

theorem protectBlocks_eq (count first : Nat) (record : Mem) :
    protectBlocks usn (usaOfs + first * 2) ((first + 1) * 512 - 2) count record =
      (List.range' (first + 1) count).foldl (putTailAway usaOfs usn) record := by
  induction count generalizing first record with
  | zero => rfl
  | succ count ih =>
    rw [List.range'_succ, List.foldl_cons, ← ih (first + 1), protectBlocks,
      show usaOfs + first * 2 + 2 = usaOfs + (first + 1) * 2 by omega,
      show (first + 1) * 512 - 2 + ntfsBlockSize = (first + 1 + 1) * 512 - 2 by rw [ntfsBlockSize]; omega]
    rfl

theorem restoreBlocks_eq (count first : Nat) (record : Mem) (torn : Bool) :
    restoreBlocks (usaOfs + first * 2) ((first + 1) * 512 - 2) count record =
      ((List.range' (first + 1) count).foldl (restoreTail usaOfs usn) (record, torn)).1 := by
  induction count generalizing first record torn with
  | zero => rfl
  | succ count ih =>
    rw [List.range'_succ, List.foldl_cons, restoreTail, ← ih (first + 1), restoreBlocks,
      show usaOfs + first * 2 + 2 = usaOfs + (first + 1) * 2 by omega,
      show (first + 1) * 512 - 2 + ntfsBlockSize = (first + 1 + 1) * 512 - 2 by rw [ntfsBlockSize]; omega]
    rfl

/-- The tails that the rounds find torn are those of the record that they begin with: a round
writes only a tail that no later round looks at. -/
theorem blocksWhole_eq (count first : Nat) (record : Mem) (torn : Bool) :
    ((List.range' (first + 1) count).foldl (restoreTail usaOfs usn) (record, torn)).2 =
      (torn || !blocksWhole record usn ((first + 1) * 512 - 2) count) := by
  induction count generalizing first record torn with
  | zero => simp [blocksWhole]
  | succ count ih =>
    have later (n at' : Nat) (past : (first + 1) * 512 ≤ at') (written : Nat) :
        blocksWhole (lfPut16 record ((first + 1) * lfsSectorSize - 2) written) usn at' n =
          blocksWhole record usn at' n := by
      induction n generalizing at' with
      | zero => rfl
      | succ n inner =>
        rw [blocksWhole, blocksWhole, inner (at' + ntfsBlockSize) (by omega), getLE_putLE_disjoint]
        rw [lfsSectorSize]
        omega
    rw [List.range'_succ, List.foldl_cons, restoreTail, ih (first + 1), later _ _ (by omega),
      blocksWhole, show (first + 1) * 512 - 2 + ntfsBlockSize = (first + 1 + 1) * 512 - 2 by rw [ntfsBlockSize]; omega]
    by_cases same : getLE record 2 ((first + 1) * 512 - 2) = usn
    · simp [lfsSectorSize, same]
    · simp [lfsSectorSize, same]

end Rounds

section Agreement

variable {record sealed restored : Mem} {size : Nat} {torn : Bool}

/-- The checks of the driver. -/
def UsaTaken (record : Mem) (size : Nat) : Prop :=
  size % 512 = 0 ∧ getLE record 2 recordUsaOfs % 2 = 0 ∧
    getLE record 2 recordUsaOfs + (getLE record 2 recordUsaCount + 2 ^ 16 - 1) % 2 ^ 16 * 2 ≤ size ∧
    size / 512 = (getLE record 2 recordUsaCount + 2 ^ 16 - 1) % 2 ^ 16

/-- The journal engine takes the arrays of the driver that have two entries or more and lie in
the first sector. -/
theorem usaOk_iff_taken : usaOk record size lfsSectorSize = true ↔
    UsaTaken record size ∧ 2 ≤ lfGet16 record mrUsaCount ∧
      lfGet16 record mrUsaOfs + lfGet16 record mrUsaCount * 2 ≤ 512 := by
  have count := getLE_lt record 2 mrUsaCount
  rw [usaOk_iff, UsaTaken, show getLE record 2 recordUsaOfs = lfGet16 record mrUsaOfs from rfl,
    show getLE record 2 recordUsaCount = lfGet16 record mrUsaCount from rfl]
  change lfGet16 record mrUsaCount < _ at count
  generalize lfGet16 record mrUsaCount = n at count
  generalize lfGet16 record mrUsaOfs = ofs
  rw [lfsSectorSize]
  omega

theorem fixups_eq (several : 2 ≤ lfGet16 record mrUsaCount) :
    (getLE record 2 recordUsaCount + 2 ^ 16 - 1) % 2 ^ 16 = lfGet16 record mrUsaCount - 1 := by
  have count := getLE_lt record 2 mrUsaCount
  change (lfGet16 record mrUsaCount + 2 ^ 16 - 1) % 2 ^ 16 = lfGet16 record mrUsaCount - 1
  change lfGet16 record mrUsaCount < _ at count
  omega

/-- Reading a record that the journal engine accepts: the driver fails where it is torn, and
else restores the same bytes. -/
theorem postReadMstFixup_of_accepted (accepted : lfsFixupPostRead record size lfsSectorSize = some (restored, torn)) :
    postReadMstFixup record size = if torn then .error (putLE record 4 0 magicBaad) else .ok restored := by
  by_cases ok : usaOk record size lfsSectorSize = true
  · have taken := ok
    rw [usaOk_iff_taken] at taken
    obtain ⟨⟨whole, even, inside, number⟩, several, -⟩ := taken
    have memory := @restoreBlocks_eq (lfGet16 record mrUsaOfs) (lfGet16 record (lfGet16 record mrUsaOfs))
      (lfGet16 record mrUsaCount - 1) 0 record false
    have tails := @blocksWhole_eq (lfGet16 record mrUsaOfs) (lfGet16 record (lfGet16 record mrUsaOfs))
      (lfGet16 record mrUsaCount - 1) 0 record false
    rw [lfsFixupPostRead_eq ok, Option.some.injEq] at accepted
    rw [Nat.zero_add, accepted] at memory tails
    rw [postReadMstFixup, if_neg (by rw [ntfsBlockSize]; omega), fixups_eq several]
    rw [Bool.false_or] at tails
    change torn = _ at tails
    rw [tails]
    cases shape : blocksWhole record (lfGet16 record (lfGet16 record mrUsaOfs)) (1 * 512 - 2)
        (lfGet16 record mrUsaCount - 1) with
    | false => exact if_neg (fun same => Bool.false_ne_true (shape.symm.trans same))
    | true => exact (if_pos shape).trans (congrArg Except.ok memory)
  · simp [lfsFixupPostRead, ok] at accepted

/-- Both protect a record alike that the journal engine accepts and whose magic is not one of
those that the driver leaves alone. -/
theorem lfsFixupPreWrite_eq_driver (ok : usaOk record size lfsSectorSize = true)
    (notBaad : getLE record 4 0 ≠ magicBaad) (notHole : getLE record 4 0 ≠ magicHole) :
    preWriteMstFixup record size = lfsFixupPreWrite record size lfsSectorSize := by
  have taken := ok
  rw [usaOk_iff_taken] at taken
  obtain ⟨⟨whole, even, inside, number⟩, several, -⟩ := taken
  have rounds := @protectBlocks_eq (lfGet16 record mrUsaOfs) (nextUsn record) (lfGet16 record mrUsaCount - 1) 0
    (lfPut16 record (lfGet16 record mrUsaOfs) (nextUsn record))
  rw [Nat.zero_add] at rounds
  rw [lfsFixupPreWrite_eq ok, ← rounds, preWriteMstFixup, if_neg (by simp [notBaad, notHole]), if_neg (by rw [ntfsBlockSize]; omega), fixups_eq several]
  simp only [nextUsn, Bool.or_eq_true, decide_eq_true_eq]
  rfl

/-- A record whose array does not cover the two words that describe it keeps them when it is
protected. -/
theorem usaOk_of_protected (ok : usaOk record size lfsSectorSize = true)
    (beside : lfGet16 record mrUsaOfs + lfGet16 record mrUsaCount * 2 ≤ 4 ∨ 8 ≤ lfGet16 record mrUsaOfs)
    (written : lfsFixupPreWrite record size lfsSectorSize = some sealed) :
    usaOk sealed size lfsSectorSize = true := by
  have several := (usaOk_iff.mp ok).2.1
  rw [lfsFixupPreWrite_eq ok, Option.some.injEq] at written
  have kept (byte : Nat) (lower : 4 ≤ byte) (upper : byte < 8) : sealed byte = record byte := by
    rw [← written, putTailsAway_outside _ (by omega) (by omega)]
    exact putLE_outside (by omega)
  have ofs : lfGet16 sealed mrUsaOfs = lfGet16 record mrUsaOfs :=
    getLE_congr fun byte lower upper => kept byte (by rw [mrUsaOfs] at lower; omega) (by rw [mrUsaOfs] at upper; omega)
  have count : lfGet16 sealed mrUsaCount = lfGet16 record mrUsaCount :=
    getLE_congr fun byte lower upper => kept byte (by rw [mrUsaCount] at lower; omega)
      (by rw [mrUsaCount] at upper; omega)
  rw [← ok]
  simp only [usaOk, ofs, count]

/-- Where the journal engine accepts a record, the driver fails to read it if and only if it is
torn, and else restores the same bytes; it protects alike what the journal engine protects; and
what one of them protects is read back by both alike, where the array has two entries or more,
lies in the first sector and does not cover the two words that describe it. -/
theorem fixups_agree (record : Mem) (size : Nat) :
    (∀ restored torn, lfsFixupPostRead record size lfsSectorSize = some (restored, torn) →
      (torn = false → postReadMstFixup record size = .ok restored) ∧
        ((∃ bad, postReadMstFixup record size = .error bad) ↔ torn = true)) ∧
    (∀ sealed, lfsFixupPreWrite record size lfsSectorSize = some sealed → getLE record 4 0 ≠ magicBaad →
      getLE record 4 0 ≠ magicHole → preWriteMstFixup record size = some sealed) ∧
    ∀ sealed, lfsFixupPreWrite record size lfsSectorSize = some sealed ∨ preWriteMstFixup record size = some sealed →
      2 ≤ lfGet16 record mrUsaCount → lfGet16 record mrUsaOfs + lfGet16 record mrUsaCount * 2 ≤ 512 →
      (lfGet16 record mrUsaOfs + lfGet16 record mrUsaCount * 2 ≤ 4 ∨ 8 ≤ lfGet16 record mrUsaOfs) →
      ∃ restored torn, lfsFixupPostRead sealed size lfsSectorSize = some (restored, torn) ∧
        postReadMstFixup sealed size = if torn then .error (putLE sealed 4 0 magicBaad) else .ok restored := by
  refine ⟨fun restored torn accepted => ?_, fun sealed written notBaad notHole => ?_, ?_⟩
  · rw [postReadMstFixup_of_accepted accepted]
    cases torn with
    | false => simp
    | true => simp
  · by_cases ok : usaOk record size lfsSectorSize = true
    · rw [lfsFixupPreWrite_eq_driver ok notBaad notHole, written]
    · simp [lfsFixupPreWrite, ok] at written
  · intro sealed written several first beside
    have accepted : usaOk record size lfsSectorSize = true ∧ lfsFixupPreWrite record size lfsSectorSize = some sealed := by
      rcases written with written | written
      · by_cases ok : usaOk record size lfsSectorSize = true
        · exact ⟨ok, written⟩
        · simp [lfsFixupPreWrite, ok] at written
      have checks := written
      rw [preWriteMstFixup] at checks
      split at checks
      · cases checks
      rename_i magic
      rw [not_or] at magic
      split at checks
      · cases checks
      · rename_i taken
        have ok : usaOk record size lfsSectorSize = true := by
          refine usaOk_iff_taken.mpr ⟨?_, several, first⟩
          unfold UsaTaken
          rw [ntfsBlockSize] at taken
          omega
        exact ⟨ok, by rw [← lfsFixupPreWrite_eq_driver ok magic.1 magic.2, written]⟩
    have ok := usaOk_of_protected accepted.1 beside accepted.2
    exact ⟨_, _, lfsFixupPostRead_eq ok, postReadMstFixup_of_accepted (lfsFixupPostRead_eq ok)⟩

theorem lfsFixupPostRead_refused (refused : usaOk record size lfsSectorSize = false) :
    lfsFixupPostRead record size lfsSectorSize = none := by
  simp [lfsFixupPostRead, refused]

/-- A record of two sectors whose array lies in the second one. -/
def arrayInSecondSector : Mem := putLE (putLE zeros 2 recordUsaOfs 600) 2 recordUsaCount 3

/-- A record of one sector whose array covers the number of its entries. -/
def arrayOverCount : Mem := putLE (putLE zeros 2 recordUsaOfs 6) 2 recordUsaCount 2

/-- The journal engine does not read back what the driver protects with an array in the second
sector, nor does it report such a record torn where the driver finds it so; and it does not read
back what it has itself protected with an array over the number of entries, which the driver
takes for a record without protection. -/
theorem array_place_matters :
    (∃ sealed restored, preWriteMstFixup arrayInSecondSector 1024 = some sealed ∧
      postReadMstFixup sealed 1024 = .ok restored ∧ lfsFixupPostRead sealed 1024 lfsSectorSize = none) ∧
    (∃ bad, postReadMstFixup (putLE arrayInSecondSector 2 510 1) 1024 = .error bad) ∧
    lfsFixupPostRead (putLE arrayInSecondSector 2 510 1) 1024 lfsSectorSize = none ∧
    ∃ sealed, lfsFixupPreWrite arrayOverCount 512 lfsSectorSize = some sealed ∧
      lfsFixupPostRead sealed 512 lfsSectorSize = none ∧ postReadMstFixup sealed 512 = .ok sealed := by
  have sealedFar : preWriteMstFixup arrayInSecondSector 1024 =
      some (protectBlocks 1 600 510 2 (putLE arrayInSecondSector 2 600 1)) := by
    rw [preWriteMstFixup, if_neg (by decide +kernel), if_neg (by decide +kernel)]
    rfl
  have readFar : postReadMstFixup (protectBlocks 1 600 510 2 (putLE arrayInSecondSector 2 600 1)) 1024 =
      .ok (restoreBlocks 600 510 2 (protectBlocks 1 600 510 2 (putLE arrayInSecondSector 2 600 1))) := by
    rw [postReadMstFixup, if_neg (by decide +kernel), if_pos (by decide +kernel)]
    rfl
  have refusedFar : lfsFixupPostRead (protectBlocks 1 600 510 2 (putLE arrayInSecondSector 2 600 1)) 1024
      lfsSectorSize = none := lfsFixupPostRead_refused (by decide +kernel)
  have tornFar : postReadMstFixup (putLE arrayInSecondSector 2 510 1) 1024 =
      .error (putLE (putLE arrayInSecondSector 2 510 1) 4 0 magicBaad) := by
    rw [postReadMstFixup, if_neg (by decide +kernel), if_neg (by decide +kernel)]
  have sealedOver : lfsFixupPreWrite arrayOverCount 512 lfsSectorSize =
      some ((List.range' 1 1).foldl (putTailAway 6 3) (lfPut16 arrayOverCount 6 3)) := by
    rw [lfsFixupPreWrite_eq (by decide +kernel)]
    rfl
  refine ⟨⟨_, _, sealedFar, readFar, refusedFar⟩, ⟨_, tornFar⟩, lfsFixupPostRead_refused (by decide +kernel), _,
    sealedOver, lfsFixupPostRead_refused (by decide +kernel), ?_⟩
  rw [postReadMstFixup, if_pos (by decide +kernel)]

end Agreement

end Ttntfs.Ntfs
