import Mathlib.Tactic
import Ttntfs.Library.ByteMemory

/-!
# Searching the bitmap of the MFT

`ntfs_mft_bitmap_find_and_alloc_free_rec_nolock` takes the first free MFT record that it finds:
in a first pass from the search position on, and in a second one among the records before it.
A pass goes from page to page and from byte to byte, and of every byte it looks at the lowest
clear bit only.
-/

namespace Ttntfs.Ntfs

open Ttntfs.Library.ByteMemory

/-- `RESERVED_MFT_RECORDS` -/
def reservedMftRecords : Nat := 64

/-- What the search reads: the sizes of `$MFT` and of its bitmap, the default position, the
bytes of the bitmap, and which of its pages can be read. -/
structure MftBitmap where
  allocatedSize : Nat
  mftRecordSizeBits : Nat
  initializedSize : Nat
  mftDataPos : Nat
  pageShift : Nat
  bytes : Mem
  readable : Nat → Bool

/-- The errors of the search. -/
inductive FreeRecordError where
  | enospc
  | eio
  deriving DecidableEq

/-- How a pass ends. -/
inductive PassEnd where
  | through
  | failed (error : FreeRecordError)
  | found (mftNo : Nat)

/-- `ffz`: the lowest clear bit. -/
def ffz (word : Nat) : Nat := ((List.range 64).find? fun i => !word.testBit i).getD 64

/-- The inner loop, over the bytes of one page from a bit on. -/
def scanBytes (bytes : Mem) (forMft : Bool) (size dataPos passEnd bit : Nat) : PassEnd :=
  if bit < size ∧ dataPos + bit < passEnd then
    if forMft ∧ 400 < bit then .failed .enospc
    else if (bytes (dataPos / 8 + bit / 8)).toNat ≠ 0xff ∧ ffz (bytes (dataPos / 8 + bit / 8)).toNat < 8 ∧
        bit % 8 ≤ ffz (bytes (dataPos / 8 + bit / 8)).toNat then
      if 2 ^ 32 ≤ dataPos + bit / 8 * 8 + ffz (bytes (dataPos / 8 + bit / 8)).toNat then .failed .enospc
      else .found (dataPos + bit / 8 * 8 + ffz (bytes (dataPos / 8 + bit / 8)).toNat)
    else scanBytes bytes forMft size dataPos passEnd (bit / 8 * 8 + 8)
  else .through
termination_by size - bit

/-- The number of bits that are searched of a page. -/
def MftBitmap.pageBits (vol : MftBitmap) (passEnd dataPos : Nat) : Nat :=
  min (2 ^ vol.pageShift - dataPos / 8 % 2 ^ vol.pageShift) ((passEnd + 7) / 8 - dataPos / 8) * 8

/-- One pass of the search. -/
def MftBitmap.searchPass (vol : MftBitmap) (forMft : Bool) (passEnd dataPos : Nat) : PassEnd :=
  if vol.pageBits passEnd dataPos = 0 then .through
  else if !vol.readable (dataPos / 8 / 2 ^ vol.pageShift) then .failed .eio
  else
    match scanBytes vol.bytes forMft (vol.pageBits passEnd dataPos) (dataPos / 8 * 8) passEnd (dataPos % 8) with
    | .through =>
      if dataPos / 8 * 8 + vol.pageBits passEnd dataPos < passEnd then
        vol.searchPass forMft passEnd (dataPos / 8 * 8 + vol.pageBits passEnd dataPos)
      else .through
    | ended => ended
termination_by passEnd - dataPos
decreasing_by
  unfold MftBitmap.pageBits at *
  omega

/-- The end of the first pass: the records that `$MFT` has room for and its bitmap has bits for. -/
def MftBitmap.passEnd (vol : MftBitmap) : Nat :=
  min (vol.allocatedSize / 2 ^ vol.mftRecordSizeBits) (vol.initializedSize * 8)

/-- The position that the search begins at, by the base inode. -/
def MftBitmap.dataPos (vol : MftBitmap) (baseNi : Option Nat) : Nat :=
  max (match baseNi with
    | none => vol.mftDataPos
    | some mftNo => mftNo + 1) reservedMftRecords

/-- The two passes. -/
def MftBitmap.search (vol : MftBitmap) (baseNi : Option Nat) : PassEnd :=
  if vol.passEnd ≤ vol.dataPos baseNi ∧ vol.passEnd ≤ reservedMftRecords then .failed .enospc
  else if baseNi = some 0 then vol.searchPass true vol.passEnd 0
  else if vol.passEnd ≤ vol.dataPos baseNi then vol.searchPass false vol.passEnd reservedMftRecords
  else
    match vol.searchPass false vol.passEnd (vol.dataPos baseNi) with
    | .through =>
      if vol.dataPos baseNi ≤ reservedMftRecords then .through
      else vol.searchPass false (vol.dataPos baseNi) reservedMftRecords
    | ended => ended

/-- `ntfs_mft_bitmap_find_and_alloc_free_rec_nolock`: the record, and the bytes of the bitmap. -/
def MftBitmap.findAndAllocFreeRec (vol : MftBitmap) (baseNi : Option Nat) : Except FreeRecordError Nat × Mem :=
  match vol.search baseNi with
  | .through => (.error .enospc, vol.bytes)
  | .failed error => (.error error, vol.bytes)
  | .found mftNo =>
    (.ok mftNo, Function.update vol.bytes (mftNo / 8) (vol.bytes (mftNo / 8) ||| 1 <<< UInt8.ofNat (mftNo % 8)))

/-- The bit of a record. -/
def recordUsed (bytes : Mem) (mftNo : Nat) : Bool := (bytes (mftNo / 8)).toNat.testBit (mftNo % 8)

section Search

variable {vol : MftBitmap} {bytes : Mem} {start stop passEnd : Nat}

theorem ffz_byte {byte : Nat} (small : byte < 256) (notFull : byte ≠ 0xff) :
    ffz byte < 8 ∧ byte.testBit (ffz byte) = false ∧ ∀ i < ffz byte, byte.testBit i = true := by
  revert byte
  decide +kernel

theorem testBit_full {i : Nat} (inside : i < 8) : Nat.testBit 0xff i = true := by
  revert i
  decide

/-- What the end of a pass over some bits tells. A byte whose lowest clear bit lies before the
start is passed over. -/
def EndOk (bytes : Mem) (passEnd start stop : Nat) : PassEnd → Prop
  | .through => ∀ n, start ≤ n → n < stop → recordUsed bytes n = false →
      ∃ m, m < start ∧ m / 8 = start / 8 ∧ recordUsed bytes m = false
  | .failed .enospc => ∃ n, 2 ^ 32 ≤ n ∧ n / 8 * 8 < passEnd ∧ recordUsed bytes n = false
  | .failed .eio => True
  | .found n => start ≤ n ∧ recordUsed bytes n = false

theorem EndOk.further {middle : Nat} {ended : PassEnd} (ok : EndOk bytes passEnd middle stop ended)
    (order : start ≤ middle) (whole : middle % 8 = 0)
    (passed : ∀ n, start ≤ n → n < middle → recordUsed bytes n = false →
      ∃ m, m < start ∧ m / 8 = start / 8 ∧ recordUsed bytes m = false) :
    EndOk bytes passEnd start stop ended := by
  cases ended with
  | through =>
    intro n lower upper clear
    by_cases before : n < middle
    · exact passed n lower before clear
    · obtain ⟨m, below, same, _⟩ := ok n (by omega) upper clear
      omega
  | failed error =>
    cases error with
    | enospc => exact ok
    | eio => trivial
  | found n => exact ⟨order.trans ok.1, ok.2⟩

theorem scanBytes_readable {forMft : Bool} {size dataPos : Nat} (bit : Nat) :
    scanBytes bytes forMft size dataPos passEnd bit ≠ .failed .eio := by
  fun_induction scanBytes bytes forMft size dataPos passEnd bit with
  | case1 | case2 | case3 => nofun
  | case4 bit inside notMft passed ih => exact ih
  | case5 => nofun

theorem recordUsed_of_byte {n at_ b : Nat} (place : n = at_ * 8 + b) (small : b < 8) :
    recordUsed bytes n = (bytes at_).toNat.testBit b := by
  rw [recordUsed, show n / 8 = at_ by omega, show n % 8 = b by omega]

/-- The search of a page. -/
theorem scanBytes_ok {size dataPos : Nat} (bit : Nat) (whole : dataPos % 8 = 0) :
    EndOk bytes passEnd (dataPos + bit) (min (dataPos + size) passEnd)
      (scanBytes bytes false size dataPos passEnd bit) := by
  fun_induction scanBytes bytes false size dataPos passEnd bit with
  | case1 bit inside forMft => simp at forMft
  | case2 bit inside notMft free large =>
    obtain ⟨notFull, small, -⟩ := free
    have clear := (ffz_byte (UInt8.toNat_lt _) notFull).2.1
    exact ⟨_, large, by omega, (recordUsed_of_byte (by omega) small).trans clear⟩
  | case3 bit inside notMft free small =>
    obtain ⟨notFull, small, after⟩ := free
    have clear := (ffz_byte (UInt8.toNat_lt _) notFull).2.1
    exact ⟨by omega, (recordUsed_of_byte (by omega) small).trans clear⟩
  | case4 bit inside notMft passed ih =>
    refine ih.further (by omega) (by omega) fun n lower before clear => ?_
    -- the byte is full, or its lowest clear bit lies before the bit the search begins at
    have place : n = (dataPos / 8 + bit / 8) * 8 + n % 8 := by omega
    rw [recordUsed_of_byte place (Nat.mod_lt _ (by decide))] at clear
    have notFull : (bytes (dataPos / 8 + bit / 8)).toNat ≠ 0xff := by
      intro full
      rw [full, testBit_full (Nat.mod_lt _ (by decide))] at clear
      cases clear
    obtain ⟨small, lowest, -⟩ := ffz_byte (UInt8.toNat_lt _) notFull
    have earlier : ffz (bytes (dataPos / 8 + bit / 8)).toNat < bit % 8 :=
      Nat.lt_of_not_le fun after => passed ⟨notFull, small, after⟩
    exact ⟨(dataPos / 8 + bit / 8) * 8 + ffz (bytes (dataPos / 8 + bit / 8)).toNat, by omega, by omega,
      (recordUsed_of_byte rfl small).trans lowest⟩
  | case5 bit outside =>
    intro n lower upper
    omega

theorem searchPage_ok (passEnd dataPos : Nat) :
    EndOk vol.bytes passEnd dataPos (min (dataPos / 8 * 8 + vol.pageBits passEnd dataPos) passEnd)
      (scanBytes vol.bytes false (vol.pageBits passEnd dataPos) (dataPos / 8 * 8) passEnd (dataPos % 8)) := by
  have page := @scanBytes_ok vol.bytes passEnd (vol.pageBits passEnd dataPos) (dataPos / 8 * 8) (dataPos % 8) (by omega)
  rwa [show dataPos / 8 * 8 + dataPos % 8 = dataPos by omega] at page

/-- The end of a pass. -/
theorem searchPass_ok (passEnd dataPos : Nat) :
    EndOk vol.bytes passEnd dataPos passEnd (vol.searchPass false passEnd dataPos) := by
  fun_induction MftBitmap.searchPass vol false passEnd dataPos with
  | case1 dataPos none =>
    intro n lower upper
    have := Nat.mod_lt (dataPos / 8) (Nat.two_pow_pos vol.pageShift)
    unfold MftBitmap.pageBits at none
    omega
  | case2 dataPos some_bit unreadable => trivial
  | case3 dataPos some_bit readable through left ih =>
    have page := @searchPage_ok vol passEnd dataPos
    rw [through] at page
    have whole : vol.pageBits passEnd dataPos % 8 = 0 := by
      unfold MftBitmap.pageBits
      omega
    have some_byte : 8 ≤ vol.pageBits passEnd dataPos := by omega
    refine ih.further (by omega) (by omega) fun n lower before => page n lower (by omega)
  | case4 dataPos some_bit readable through last =>
    have page := @searchPage_ok vol passEnd dataPos
    rw [through] at page
    exact fun n lower upper => page n lower (by omega)
  | case5 dataPos some_bit readable notThrough =>
    have page := @searchPage_ok vol passEnd dataPos
    cases ended : scanBytes vol.bytes false (vol.pageBits passEnd dataPos) (dataPos / 8 * 8) passEnd
        (dataPos % 8) with
    | through => exact absurd ended notThrough
    | failed error =>
      rw [ended] at page
      cases error with
      | enospc => exact page
      | eio => trivial
    | found n =>
      rw [ended] at page
      exact page

theorem EndOk.none_left (ok : EndOk bytes passEnd start stop .through) (whole : start % 8 = 0) {n : Nat}
    (lower : start ≤ n) (upper : n < stop) : recordUsed bytes n = true := by
  refine Bool.of_not_eq_false fun clear => ?_
  obtain ⟨m, before, same, -⟩ := ok n lower upper clear
  omega

theorem searchPass_eio {forMft : Bool} {passEnd dataPos : Nat}
    (failed : vol.searchPass forMft passEnd dataPos = .failed .eio) : ∃ page, vol.readable page = false := by
  fun_induction MftBitmap.searchPass vol forMft passEnd dataPos with
  | case1 => cases failed
  | case2 dataPos some_bit unreadable => exact ⟨_, by simpa using unreadable⟩
  | case3 dataPos some_bit readable through left ih => exact ih failed
  | case4 => cases failed
  | case5 dataPos some_bit readable notThrough => exact absurd failed (scanBytes_readable _)

theorem search_eio {baseNi : Option Nat} (failed : vol.search baseNi = .failed .eio) :
    ∃ page, vol.readable page = false := by
  unfold MftBitmap.search at failed
  split at failed
  · cases failed
  split at failed
  · exact searchPass_eio failed
  · split at failed
    · exact searchPass_eio failed
    · split at failed
      · split at failed
        · cases failed
        · exact searchPass_eio failed
      · exact searchPass_eio failed

/-- Every record behind the reserved ones and before an end is in use. -/
def NoneFree (bytes : Mem) (passEnd : Nat) : Prop :=
  ∀ n, reservedMftRecords ≤ n → n < passEnd → recordUsed bytes n = true

/-- A record from the 2^32nd on is free, in the bytes before an end. -/
def LargeRecordFree (bytes : Mem) (passEnd : Nat) : Prop :=
  ∃ n, 2 ^ 32 ≤ n ∧ n / 8 * 8 < passEnd ∧ recordUsed bytes n = false

/-- What the end of the search tells. -/
structure SearchOk (bytes : Mem) (passEnd : Nat) (ended : PassEnd) : Prop where
  found : ∀ n, ended = .found n → reservedMftRecords ≤ n ∧ recordUsed bytes n = false
  refused : ended = .through ∨ ended = .failed .enospc → NoneFree bytes passEnd ∨ LargeRecordFree bytes passEnd

theorem EndOk.searchOk {limit : Nat} {ended : PassEnd} (ok : EndOk bytes passEnd start stop ended)
    (behind : reservedMftRecords ≤ start) (within : passEnd ≤ limit)
    (through : ended = .through → NoneFree bytes limit) : SearchOk bytes limit ended := by
  constructor
  · rintro n rfl
    exact ⟨behind.trans ok.1, ok.2⟩
  · rintro (rfl | rfl)
    · exact .inl (through rfl)
    · obtain ⟨n, large, below, clear⟩ := ok
      exact .inr ⟨n, large, by omega, clear⟩

/-- How the two passes end. -/
theorem search_ok {baseNi : Option Nat} (notMft : baseNi ≠ some 0) :
    SearchOk vol.bytes vol.passEnd (vol.search baseNi) := by
  have reserved : reservedMftRecords ≤ vol.dataPos baseNi := Nat.le_max_right _ _
  have aligned : reservedMftRecords % 8 = 0 := rfl
  rw [MftBitmap.search, if_neg notMft]
  split
  · exact ⟨nofun, fun _ => .inl fun n lower upper => by omega⟩
  split
  · -- one pass over all the records
    have only := @searchPass_ok vol vol.passEnd reservedMftRecords
    refine only.searchOk le_rfl le_rfl fun through => ?_
    rw [through] at only
    exact fun n lower upper => only.none_left aligned lower upper
  rename_i inside
  have first := @searchPass_ok vol vol.passEnd (vol.dataPos baseNi)
  cases shape : vol.searchPass false vol.passEnd (vol.dataPos baseNi) with
  | failed error | found n =>
    rw [shape] at first
    exact first.searchOk reserved le_rfl nofun
  | through =>
    rw [shape] at first
    dsimp only
    -- what the first pass passes over has a clear bit before its start
    have rest (before : NoneFree vol.bytes (vol.dataPos baseNi)) : NoneFree vol.bytes vol.passEnd := by
      intro n lower upper
      by_cases early : n < vol.dataPos baseNi
      · exact before n lower early
      · refine Bool.of_not_eq_false fun clear => ?_
        obtain ⟨m, below, same, clearBelow⟩ := first n (by omega) upper clear
        rw [before m (by omega) below] at clearBelow
        cases clearBelow
    split
    · exact ⟨nofun, fun _ => .inl (rest fun n lower upper => by omega)⟩
    · have second := @searchPass_ok vol (vol.dataPos baseNi) reservedMftRecords
      refine second.searchOk le_rfl (by omega) fun through => rest ?_
      rw [through] at second
      exact fun n lower upper => second.none_left aligned lower upper

theorem recordUsed_set (bytes : Mem) (mftNo n : Nat) :
    recordUsed (Function.update bytes (mftNo / 8) (bytes (mftNo / 8) ||| 1 <<< UInt8.ofNat (mftNo % 8))) n =
      (recordUsed bytes n || decide (n = mftNo)) := by
  unfold recordUsed
  by_cases sameByte : n / 8 = mftNo / 8
  · have small : mftNo % 8 < 8 := Nat.mod_lt _ (by decide)
    have shifted : (1 <<< UInt8.ofNat (mftNo % 8) : UInt8).toNat = 2 ^ (mftNo % 8) := by
      generalize mftNo % 8 = b at small
      revert b
      decide
    rw [sameByte, Function.update_self, UInt8.toNat_or, Nat.testBit_or, shifted, Nat.testBit_two_pow]
    congr 1
    exact decide_eq_decide.mpr (by omega)
  · rw [Function.update_of_ne sameByte, decide_eq_false (fun same => sameByte (by rw [same])), Bool.or_false]

end Search

/-- A record that the search returns was free, is behind the reserved ones, and is the only one
whose bit is changed. The search refuses only where no record is free, or where one is from the
2^32nd on; a page that cannot be read is the only other error. -/
theorem free_record_search_exact (vol : MftBitmap) (baseNi : Option Nat) (notMft : baseNi ≠ some 0) :
    (∀ n bytes, vol.findAndAllocFreeRec baseNi = (.ok n, bytes) →
      recordUsed vol.bytes n = false ∧ reservedMftRecords ≤ n ∧
        ∀ m, recordUsed bytes m = (recordUsed vol.bytes m || decide (m = n))) ∧
    (∀ bytes, vol.findAndAllocFreeRec baseNi = (.error .enospc, bytes) →
      bytes = vol.bytes ∧ (NoneFree vol.bytes vol.passEnd ∨ LargeRecordFree vol.bytes vol.passEnd)) ∧
    ∀ bytes, vol.findAndAllocFreeRec baseNi = (.error .eio, bytes) →
      bytes = vol.bytes ∧ ∃ page, vol.readable page = false := by
  have ok := @search_ok vol baseNi notMft
  unfold MftBitmap.findAndAllocFreeRec
  cases ended : vol.search baseNi with
  | through =>
    refine ⟨nofun, fun bytes same => ?_, nofun⟩
    cases same
    exact ⟨rfl, ok.refused (.inl ended)⟩
  | failed error =>
    refine ⟨nofun, fun bytes same => ?_, fun bytes same => ?_⟩
    · cases same
      exact ⟨rfl, ok.refused (.inr ended)⟩
    · cases same
      exact ⟨rfl, search_eio ended⟩
  | found n =>
    refine ⟨fun m bytes same => ?_, nofun, nofun⟩
    cases same
    exact ⟨(ok.found n ended).2, (ok.found n ended).1, recordUsed_set vol.bytes n⟩

/-- An MFT of so many records, none of them in use, that is searched from a position on. -/
def freeMft (records position : Nat) : MftBitmap :=
  ⟨records * 1024, 10, (records + 7) / 8, position, 12, zeros, fun _ => true⟩

theorem ffz_zero : ffz 0 = 0 := by decide +kernel

/-- From record 70 on, the search passes over the rest of a byte whose lowest bit is clear. -/
theorem record_72_found : ∃ bytes, (freeMft 100 0).findAndAllocFreeRec (some 69) = (.ok 72, bytes) ∧
    recordUsed zeros 72 = false ∧ recordUsed bytes 72 = true ∧ recordUsed bytes 73 = false := by
  have found : (freeMft 100 0).findAndAllocFreeRec (some 69) =
      (.ok 72, Function.update zeros 9 (1 <<< UInt8.ofNat 0)) := by
    simp [MftBitmap.findAndAllocFreeRec, MftBitmap.search, MftBitmap.searchPass, MftBitmap.pageBits,
      MftBitmap.passEnd, MftBitmap.dataPos, freeMft, scanBytes, ffz_zero, reservedMftRecords, zeros]
  obtain ⟨clear, -, others⟩ := (free_record_search_exact (freeMft 100 0) (some 69) (by decide)).1 72 _ found
  exact ⟨_, found, clear, others 72, others 73⟩

/-- Where the first free record that the search meets is the 2^32nd, it refuses although record
64 is free. -/
theorem large_record_refused : (freeMft (2 ^ 32 + 8) (2 ^ 32)).findAndAllocFreeRec none = (.error .enospc, zeros) ∧
    (∀ page, (freeMft (2 ^ 32 + 8) (2 ^ 32)).readable page = true) ∧
    ¬ NoneFree (freeMft (2 ^ 32 + 8) (2 ^ 32)).bytes (freeMft (2 ^ 32 + 8) (2 ^ 32)).passEnd := by
  refine ⟨?_, fun _ => rfl, fun full => absurd (full 64 (by decide) (by decide +kernel)) (by decide)⟩
  simp [MftBitmap.findAndAllocFreeRec, MftBitmap.search, MftBitmap.searchPass, MftBitmap.pageBits, MftBitmap.passEnd,
    MftBitmap.dataPos, freeMft, scanBytes, ffz_zero, reservedMftRecords, zeros]

end Ttntfs.Ntfs
