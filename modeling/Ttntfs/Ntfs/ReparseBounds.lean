import Ttntfs.Ntfs.ReparsePoint

/-!
# Reparse points are read inside their value

The checks of a value read the length of its data before they know that the value is long enough
for it. Of a longer value they read nothing that is not there, and neither does the decoder that
runs behind them. The fallback of `ntfs_readlink` trusts the length that the value declares.
-/

namespace Ttntfs.Ntfs

open Ttntfs.Library.ByteMemory

section Reading

variable {v : List UInt8} {width off n : Nat}

theorem readValue_inside (inside : off + width ≤ v.length) : readValue v width off = some (valueField v width off) :=
  if_pos inside

theorem readValue_eq {x : Nat} (read : readValue v width off = some x) : x = valueField v width off := by
  unfold readValue at read
  split at read
  · exact (Option.some.inj read).symm
  · cases read

/-- A name whose units are inside the value up to the first that is zero. -/
def UnitsInside (v : List UInt8) (off n : Nat) : Prop :=
  n = 0 ∨ off + 2 * n ≤ v.length ∨ ∃ k < n, off + 2 * k + 2 ≤ v.length ∧ valueField v 2 (off + 2 * k) = 0

/-- The units of a name are read inside the value exactly where they are there. -/
theorem readUnits_isSome : (readUnits v off n).isSome ↔ UnitsInside v off n := by
  induction n generalizing off with
  | zero => exact ⟨fun _ => .inl rfl, fun _ => rfl⟩
  | succ n ih =>
    rw [readUnits]
    by_cases inside : off + 2 ≤ v.length
    · rw [readValue_inside inside]
      by_cases zero : valueField v 2 off = 0
      · simp only [Option.bind_eq_bind, Option.bind_some, zero, if_true]
        exact ⟨fun _ => .inr (.inr ⟨0, Nat.succ_pos n, by omega, zero⟩), fun _ => rfl⟩
      simp only [Option.bind_eq_bind, Option.bind_some, zero, if_false]
      have same : ((readUnits v (off + 2) n).bind fun units => pure (UInt16.ofNat (valueField v 2 off) :: units)).isSome =
          (readUnits v (off + 2) n).isSome := by
        cases readUnits v (off + 2) n <;> rfl
      rw [same, ih]
      constructor
      · rintro (rfl | whole | ⟨k, before, there, ends⟩)
        · exact .inr (.inl (by omega))
        · exact .inr (.inl (by omega))
        · refine .inr (.inr ⟨k + 1, by omega, by omega, ?_⟩)
          rw [← ends]
          congr 1
          omega
      · rintro (none | whole | ⟨k, before, there, ends⟩)
        · omega
        · exact .inr (.inl (by omega))
        · cases k with
          | zero => exact absurd ends zero
          | succ k =>
            refine .inr (.inr ⟨k, by omega, by omega, ?_⟩)
            rw [← ends]
            congr 1
            omega
    · rw [readValue, if_neg inside]
      refine ⟨nofun, ?_⟩
      rintro (none | whole | ⟨k, before, there, ends⟩)
      · omega
      · omega
      · omega

end Reading

section Validity

variable {v : List UInt8} {recallOnOpen dirRecord : Bool}

/-- Both names of a Windows link are inside its data, at even places. -/
structure NamesInside (v : List UInt8) : Prop where
  header : linkHeader (reparseTag v) ≤ reparseDataLength v
  even : (valueField v 2 8 ||| valueField v 2 10 ||| valueField v 2 12 ||| valueField v 2 14) % 2 = 0
  subst : linkHeader (reparseTag v) + valueField v 2 8 + valueField v 2 10 ≤ reparseDataLength v
  print : linkHeader (reparseTag v) + valueField v 2 12 + valueField v 2 14 ≤ reparseDataLength v

/-- What the checks of a value find out. -/
structure ReparseValid (recallOnOpen dirRecord : Bool) (v : List UInt8) : Prop where
  header : 8 ≤ v.length
  tag : reparseTag v ≠ ioReparseTagReservedZero
  size : reparsePointSize + reparseDataLength v +
    (if reparseTag v &&& ioReparseTagIsMicrosoft = 0 then guidSize else 0) = v.length
  wsl : reparseTag v = ioReparseTagLxSymlink → 4 < reparseDataLength v ∧ valueField v 4 8 = 2
  mount : reparseTag v = ioReparseTagMountPoint → dirRecord = true
  names : reparseTag v = ioReparseTagMountPoint ∨ reparseTag v = ioReparseTagSymlink → NamesInside v
  special : reparseTag v = ioReparseTagAfUnix ∨ reparseTag v = ioReparseTagLxFifo ∨ reparseTag v = ioReparseTagLxChr ∨
    reparseTag v = ioReparseTagLxBlk → reparseDataLength v = 0 ∧ recallOnOpen = true

/-- The checks of a value that has a length field read nothing outside of it. -/
theorem validReparseData_long (long : 6 ≤ v.length) :
    ∃ valid, validReparseData recallOnOpen dirRecord v = some valid ∧
      (valid = true ↔ ReparseValid recallOnOpen dirRecord v) := by
  rw [validReparseData, readValue_inside (show 4 + 2 ≤ v.length by omega)]
  simp only [Option.bind_eq_bind, Option.bind_some, ntfsIsValidReparseBuffer, Option.pure_def]
  by_cases header : v.length < reparsePointSize
  · refine ⟨false, by simp [header], by simp, fun valid => ?_⟩
    have := valid.header
    rw [reparsePointSize] at header
    omega
  rw [if_neg header, readValue_inside (show 0 + 4 ≤ v.length by omega)]
  simp only [Option.bind_some]
  by_cases reserved : valueField v 4 0 = ioReparseTagReservedZero
  · exact ⟨false, by simp [reserved], by simp, fun valid => absurd reserved valid.tag⟩
  rw [if_neg reserved, readValue_inside (show 4 + 2 ≤ v.length by omega)]
  simp only [Option.bind_some]
  have tagIs : reparseTag v = valueField v 4 0 := rfl
  have lengthIs : reparseDataLength v = valueField v 2 4 := rfl
  by_cases size : reparsePointSize + valueField v 2 4 +
      (if valueField v 4 0 &&& ioReparseTagIsMicrosoft = 0 then guidSize else 0) = v.length
  case neg => exact ⟨false, by simp [size], by simp, fun valid => absurd valid.size size⟩
  simp only [size, decide_true, Bool.not_true, Bool.false_eq_true, if_false]
  have inside : 8 + valueField v 2 4 ≤ v.length := by
    rw [reparsePointSize] at size
    omega
  rw [reparsePointSize] at header
  by_cases wsl : valueField v 4 0 = ioReparseTagLxSymlink
  · rw [if_pos wsl]
    by_cases short : valueField v 2 4 ≤ 4
    · exact ⟨false, by simp [short], by simp, fun valid => absurd (valid.wsl wsl).1 (by omega)⟩
    rw [if_neg short, readValue_inside (by omega)]
    refine ⟨_, rfl, ?_⟩
    rw [decide_eq_true_eq]
    refine ⟨fun type => ?_, fun valid => (valid.wsl wsl).2⟩
    exact
      { header := by omega
        tag := reserved
        size := size
        wsl := fun _ => ⟨by omega, type⟩
        mount := fun other => absurd (wsl.symm.trans other) (by decide)
        names := fun other => by
          rw [tagIs, wsl] at other
          exact absurd other (by decide)
        special := fun other => by
          rw [tagIs, wsl] at other
          exact absurd other (by decide) }
  rw [if_neg wsl]
  by_cases mount : valueField v 4 0 = ioReparseTagMountPoint ∧ (!dirRecord) = true
  · refine ⟨false, by simp [mount], by simp, fun valid => ?_⟩
    have := valid.mount mount.1
    simp [this] at mount
  rw [if_neg mount]
  have directory : reparseTag v = ioReparseTagMountPoint → dirRecord = true := fun tag => by
    simpa [tagIs.symm.trans tag] using mount
  by_cases windows : valueField v 4 0 = ioReparseTagMountPoint ∨ valueField v 4 0 = ioReparseTagSymlink
  · rw [if_pos windows]
    by_cases short : valueField v 2 4 < linkHeader (valueField v 4 0)
    · exact ⟨false, by simp [short], by simp, fun valid => absurd (valid.names windows).header (Nat.not_le.mpr short)⟩
    have long : 8 ≤ linkHeader (valueField v 4 0) := by
      unfold linkHeader
      split <;> decide
    rw [if_neg short, readValue_inside (show 8 + 2 ≤ v.length by omega),
      readValue_inside (show 10 + 2 ≤ v.length by omega), readValue_inside (show 12 + 2 ≤ v.length by omega),
      readValue_inside (show 14 + 2 ≤ v.length by omega)]
    simp only [Option.bind_some]
    by_cases odd : (valueField v 2 8 ||| valueField v 2 10 ||| valueField v 2 12 ||| valueField v 2 14) % 2 = 1
    · refine ⟨false, by simp [odd], by simp, fun valid => ?_⟩
      have := (valid.names windows).even
      omega
    rw [if_neg odd]
    refine ⟨_, rfl, ?_⟩
    simp only [Bool.not_eq_true', Bool.or_eq_false_iff, decide_eq_false_iff_not, Nat.not_lt]
    refine ⟨fun ⟨subst, print⟩ => ?_, fun valid => ⟨(valid.names windows).subst, (valid.names windows).print⟩⟩
    exact
      { header := by omega
        tag := reserved
        size := size
        wsl := fun tag => absurd tag wsl
        mount := directory
        names := fun _ => ⟨Nat.le_of_not_lt short, by omega, subst, print⟩
        special := by
          intro other
          rcases windows with windows | windows
          · rw [tagIs, windows] at other
            exact absurd other (by decide)
          · rw [tagIs, windows] at other
            exact absurd other (by decide) }
  rw [if_neg windows]
  by_cases special : valueField v 4 0 = ioReparseTagAfUnix ∨ valueField v 4 0 = ioReparseTagLxFifo ∨
      valueField v 4 0 = ioReparseTagLxChr ∨ valueField v 4 0 = ioReparseTagLxBlk
  · rw [if_pos special]
    refine ⟨_, rfl, ?_⟩
    simp only [Bool.not_eq_true', Bool.or_eq_false_iff, decide_eq_false_iff_not, Decidable.not_not, Bool.not_eq_false', ne_eq]
    refine ⟨fun ⟨empty, recalled⟩ => ?_, fun valid => valid.special special⟩
    exact
      { header := by omega
        tag := reserved
        size := size
        wsl := fun tag => absurd tag wsl
        mount := directory
        names := fun tag => absurd tag windows
        special := fun _ => ⟨empty, recalled⟩ }
  · rw [if_neg special]
    refine ⟨true, rfl, fun _ => ?_, fun _ => rfl⟩
    exact
      { header := by omega
        tag := reserved
        size := size
        wsl := fun tag => absurd tag wsl
        mount := directory
        names := fun tag => absurd tag windows
        special := fun tag => absurd tag special }

theorem validReparseData_iff (long : 6 ≤ v.length) :
    validReparseData recallOnOpen dirRecord v = some true ↔ ReparseValid recallOnOpen dirRecord v := by
  obtain ⟨valid, checked, means⟩ := @validReparseData_long v recallOnOpen dirRecord long
  rw [checked, Option.some.injEq, means]

theorem validReparseData_short (short : v.length < 6) : validReparseData recallOnOpen dirRecord v = none := by
  rw [validReparseData, readValue, if_neg (by omega)]
  rfl

end Validity

section Decoders

variable {v : List UInt8} {recallOnOpen dirRecord someMemory : Bool} {memory : LoadMemory}

/-- The substitute or the print name that a Windows link declares. -/
def DeclaredName (v : List UInt8) (off len : Nat) : Prop :=
  off = reparsePointSize + linkHeader (reparseTag v) + valueField v 2 8 ∧ len = valueField v 2 10 ∨
    off = reparsePointSize + linkHeader (reparseTag v) + valueField v 2 12 ∧ len = valueField v 2 14

/-- A target that is built from nothing but the link that the value declares: the text of a WSL
link, or what is left of one of the names of a Windows link when a prefix is taken away and the
separators are changed. -/
inductive BuiltFrom (v : List UInt8) : List UInt8 → Prop where
  | wsl (tag : reparseTag v = ioReparseTagLxSymlink) (inside : 12 + (reparseDataLength v - 4) ≤ v.length) :
      BuiltFrom v (((v.drop 12).take (reparseDataLength v - 4)).takeWhile (· ≠ 0))
  | windows {off len : Nat} {units : List UInt16} {s : List UInt8} (taken : Nat) (declared : DeclaredName v off len)
      (inside : readUnits v off (len / 2) = some units) (text : ntfsUcstonls true units none = .ok s) :
      BuiltFrom v ((s.drop taken).map flipSeparator)

theorem ucstonls_memory {units : List UInt16} {s : List UInt8} (text : ntfsUcstonls someMemory units none = .ok s) :
    ntfsUcstonls true units none = .ok s := by
  cases someMemory with
  | true => exact text
  | false => simp [ntfsUcstonls] at text

/-- A name inside the value is decoded without a read outside of it. -/
theorem decodeName_inside {off nlen : Nat} (tag : reparseTag v = ioReparseTagMountPoint ∨ reparseTag v = ioReparseTagSymlink)
    (inside : reparsePointSize + linkHeader (reparseTag v) + off + nlen ≤ v.length)
    (declared : DeclaredName v (reparsePointSize + linkHeader (reparseTag v) + off) nlen) :
    ∃ load, decodeName memory v (reparseTag v) off nlen = some load ∧
      ∀ target, load.target = some target → BuiltFrom v target := by
  rw [decodeName]
  by_cases empty : nlen = 0
  · exact ⟨_, if_pos empty, nofun⟩
  have units : UnitsInside v (reparsePointSize + linkHeader (reparseTag v) + off) (nlen / 2) := .inr (.inl (by omega))
  obtain ⟨units, read⟩ := Option.isSome_iff_exists.mp (readUnits_isSome.mpr units)
  rw [if_neg empty, read]
  simp only [Option.bind_eq_bind, Option.bind_some, Option.pure_def]
  cases converted : ntfsUcstonls memory.name units none with
  | error error => exact ⟨_, rfl, nofun⟩
  | ok s =>
    dsimp only
    by_cases nothing : s = []
    · exact ⟨_, if_pos nothing, nofun⟩
    rw [if_neg nothing]
    have built (absolute : Bool) (target : List UInt8)
        (decoded : (if memory.target then ⟨true, ntfsReparseTagMode (reparseTag v), some (windowsTarget absolute s).1,
          (windowsTarget absolute s).2⟩ else ReparseLoad.nothing).target = some target) : BuiltFrom v target := by
      split at decoded
      · cases decoded
        rw [windowsTarget]
        split
        · exact .windows _ declared read (ucstonls_memory converted)
        · exact .windows _ declared read (ucstonls_memory converted)
      · cases decoded
    rcases tag with mount | symlink
    · rw [if_pos mount]
      exact ⟨_, rfl, built _⟩
    · have header : linkHeader (reparseTag v) = 12 := by
        rw [symlink]
        decide
      rw [header, reparsePointSize] at inside
      rw [if_neg (by rw [symlink]; decide), readValue_inside (by omega)]
      exact ⟨_, rfl, built _⟩

/-- The decoder reads nothing outside of a value that has a length field, and builds its target
from the link that the value declares. -/
theorem ntfsMakeSymlink_long (long : 6 ≤ v.length) :
    ∃ load, ntfsMakeSymlink memory recallOnOpen dirRecord v = some load ∧
      ∀ target, load.target = some target → BuiltFrom v target := by
  obtain ⟨valid, checked, means⟩ := @validReparseData_long v recallOnOpen dirRecord long
  have notEmpty : v ≠ [] := by
    rintro rfl
    exact absurd long (by decide)
  rw [ntfsMakeSymlink, if_neg notEmpty, checked]
  simp only [Option.bind_eq_bind, Option.bind_some, Option.pure_def]
  cases valid with
  | false => exact ⟨_, rfl, nofun⟩
  | true =>
    have sound := means.mp rfl
    have header := sound.header
    have size := sound.size
    rw [reparsePointSize] at size
    simp only [Bool.not_true, Bool.false_eq_true, if_false]
    rw [readValue_inside (show 0 + 4 ≤ v.length by omega)]
    simp only [Option.bind_some]
    by_cases wsl : valueField v 4 0 = ioReparseTagLxSymlink
    · obtain ⟨some_byte, type⟩ := sound.wsl wsl
      have inside : 12 + (reparseDataLength v - 4) ≤ v.length := by omega
      rw [if_pos wsl, readValue_inside (show 8 + 4 ≤ v.length by omega)]
      simp only [Option.bind_some]
      rw [if_neg (not_not.mpr type), readValue_inside (show 4 + 2 ≤ v.length by omega)]
      simp only [Option.bind_some]
      rw [readBytes, if_pos (show 12 + (valueField v 2 4 - 4) ≤ v.length from inside)]
      simp only [Option.bind_some]
      refine ⟨_, rfl, fun target decoded => ?_⟩
      split at decoded
      · cases decoded
        exact .wsl wsl inside
      · cases decoded
    rw [if_neg wsl]
    by_cases windows : valueField v 4 0 = ioReparseTagSymlink ∨ valueField v 4 0 = ioReparseTagMountPoint
    · have link := windows.symm
      have names := sound.names link
      have inside := names.header
      have long : 8 ≤ linkHeader (reparseTag v) := by
        unfold linkHeader
        split <;> decide
      rw [if_pos windows, readValue_inside (show 8 + 2 ≤ v.length by omega),
        readValue_inside (show 10 + 2 ≤ v.length by omega)]
      simp only [Option.bind_some]
      have subst := names.subst
      have print := names.print
      by_cases empty : valueField v 2 10 = 0
      · rw [if_pos empty, readValue_inside (show 12 + 2 ≤ v.length by omega),
          readValue_inside (show 14 + 2 ≤ v.length by omega)]
        exact decodeName_inside link (by rw [reparsePointSize]; omega) (.inr ⟨rfl, rfl⟩)
      · rw [if_neg empty]
        exact decodeName_inside link (by rw [reparsePointSize]; omega) (.inl ⟨rfl, rfl⟩)
    · rw [if_neg windows]
      exact ⟨_, rfl, nofun⟩

theorem ntfsMakeSymlink_short (some_byte : v ≠ []) (short : v.length < 6) :
    ntfsMakeSymlink memory recallOnOpen dirRecord v = none := by
  rw [ntfsMakeSymlink, if_neg some_byte, validReparseData_short short]
  rfl

/-- What the fallback needs of a name: it is longer than the length that the value declares, or it
is inside the value. -/
def NameInside (v : List UInt8) (off nlen : Nat) : Prop :=
  reparseDataLength v < winSymlinkSize + off + nlen ∨ UnitsInside v (reparsePointSize + winSymlinkSize + off) (nlen / 2)

/-- The values of which the fallback reads nothing outside: those without a header, those with
another tag, and the links that have the fields of both names and the name that is chosen. -/
def FallbackInside (v : List UInt8) : Prop :=
  v.length < 8 ∨ reparseTag v ≠ ioReparseTagSymlink ∨
    16 ≤ v.length ∧ (valueField v 2 14 = 0 → NameInside v (valueField v 2 8) (valueField v 2 10)) ∧
      (valueField v 2 14 ≠ 0 → NameInside v (valueField v 2 12) (valueField v 2 14))

/-- The fallback reads nothing outside where the name is inside. -/
theorem fallbackName_isSome {off nlen : Nat} (header : 6 ≤ v.length) :
    (fallbackName someMemory v off nlen).isSome ↔ NameInside v off nlen := by
  rw [fallbackName, readValue_inside (show 4 + 2 ≤ v.length by omega)]
  simp only [Option.bind_eq_bind, Option.bind_some, Option.pure_def]
  by_cases refused : valueField v 2 4 < winSymlinkSize + off + nlen
  · rw [if_pos refused]
    exact ⟨fun _ => .inl refused, fun _ => rfl⟩
  rw [if_neg refused]
  rw [NameInside, ← readUnits_isSome]
  cases readUnits v (reparsePointSize + winSymlinkSize + off) (nlen / 2) with
  | none => exact ⟨nofun, fun inside => absurd (inside.resolve_left refused) nofun⟩
  | some units =>
    simp only [Option.bind_some]
    refine ⟨fun _ => .inr rfl, fun _ => ?_⟩
    cases ntfsUcstonls someMemory units none with
    | error error => rfl
    | ok s => rfl

/-- Where the fallback reads nothing outside. -/
theorem readlinkFallback_isSome : (readlinkFallback someMemory v).isSome ↔ FallbackInside v := by
  rw [readlinkFallback, FallbackInside]
  by_cases header : v.length < reparsePointSize
  · rw [if_pos header]
    exact ⟨fun _ => .inl header, fun _ => rfl⟩
  rw [if_neg header]
  rw [reparsePointSize] at header
  rw [readValue_inside (show 0 + 4 ≤ v.length by omega)]
  simp only [Option.bind_eq_bind, Option.bind_some]
  by_cases other : valueField v 4 0 ≠ ioReparseTagSymlink
  · rw [if_pos other]
    exact ⟨fun _ => .inr (.inl other), fun _ => rfl⟩
  rw [if_neg other]
  have tag : ¬ reparseTag v ≠ ioReparseTagSymlink := other
  simp only [header, tag, false_or]
  by_cases fields : 16 ≤ v.length
  · rw [readValue_inside (show 12 + 2 ≤ v.length by omega), readValue_inside (show 14 + 2 ≤ v.length by omega)]
    simp only [Option.bind_some]
    by_cases empty : valueField v 2 14 = 0
    · rw [if_pos empty, readValue_inside (show 8 + 2 ≤ v.length by omega),
        readValue_inside (show 10 + 2 ≤ v.length by omega)]
      simp only [Option.bind_some]
      rw [fallbackName_isSome (by omega)]
      exact ⟨fun inside => ⟨fields, fun _ => inside, fun some_unit => absurd empty some_unit⟩, fun all => all.2.1 empty⟩
    · rw [if_neg empty, fallbackName_isSome (by omega)]
      exact ⟨fun inside => ⟨fields, fun none => absurd none empty, fun _ => inside⟩, fun all => all.2.2 empty⟩
  · refine ⟨fun read => ?_, fun all => absurd all.1 fields⟩
    by_cases print : 12 + 2 ≤ v.length
    · rw [readValue_inside print, readValue, if_neg (by omega)] at read
      cases read
    · rw [readValue, if_neg print] at read
      cases read

/-- The fallback builds its target from one of the names. -/
theorem readlinkFallback_built {target : List UInt8} (decoded : readlinkFallback someMemory v = some (.ok target)) :
    BuiltFrom v target := by
  have named {off nlen : Nat} (tag : reparseTag v = ioReparseTagSymlink)
      (declared : DeclaredName v (reparsePointSize + linkHeader (reparseTag v) + off) nlen)
      (decoded : fallbackName someMemory v off nlen = some (.ok target)) : BuiltFrom v target := by
    rw [show linkHeader (reparseTag v) = winSymlinkSize by rw [tag]; decide] at declared
    unfold fallbackName at decoded
    simp only [Option.bind_eq_bind, Option.pure_def, Option.bind_eq_some_iff] at decoded
    obtain ⟨dataLength, -, decoded⟩ := decoded
    split at decoded
    · cases decoded
    · obtain ⟨units, read, decoded⟩ := Option.bind_eq_some_iff.mp decoded
      split at decoded
      · cases decoded
      · rename_i s converted
        cases decoded
        exact .windows _ declared read (ucstonls_memory converted)
  unfold readlinkFallback at decoded
  split at decoded
  · cases decoded
  obtain ⟨tag, readTag, decoded⟩ := Option.bind_eq_some_iff.mp decoded
  split at decoded
  · cases decoded
  rename_i symlink
  have tagIs : reparseTag v = ioReparseTagSymlink := (readValue_eq readTag).symm.trans (not_not.mp symlink)
  obtain ⟨po, readPo, decoded⟩ := Option.bind_eq_some_iff.mp decoded
  obtain ⟨pn, readPn, decoded⟩ := Option.bind_eq_some_iff.mp decoded
  split at decoded
  · obtain ⟨so, readSo, decoded⟩ := Option.bind_eq_some_iff.mp decoded
    obtain ⟨sn, readSn, decoded⟩ := Option.bind_eq_some_iff.mp decoded
    rw [readValue_eq readSo, readValue_eq readSn] at decoded
    exact named tagIs (.inl ⟨rfl, rfl⟩) decoded
  · rw [readValue_eq readPo, readValue_eq readPn] at decoded
    exact named tagIs (.inr ⟨rfl, rfl⟩) decoded

end Decoders

/-- The checks and both decoders read nothing outside of a value, and build a target from nothing
but the link that it declares. -/
structure ReadsInside (memory : LoadMemory) (recallOnOpen dirRecord : Bool) (v : List UInt8) : Prop where
  checks : (validReparseData recallOnOpen dirRecord v).isSome
  decoder : (ntfsMakeSymlink memory recallOnOpen dirRecord v).isSome
  fallback : (readlinkFallback memory.name v).isSome
  target : ∀ load target, ntfsMakeSymlink memory recallOnOpen dirRecord v = some load → load.target = some target →
    BuiltFrom v target
  fallbackTarget : ∀ target, readlinkFallback memory.name v = some (.ok target) → BuiltFrom v target

/-- A value is read inside its bounds exactly where it is long enough for its length field, and,
if it is one of a link, for the name that the fallback takes. -/
theorem reads_inside_iff (memory : LoadMemory) (recallOnOpen dirRecord : Bool) (v : List UInt8) (some_byte : v ≠ []) :
    ReadsInside memory recallOnOpen dirRecord v ↔ 6 ≤ v.length ∧ FallbackInside v := by
  constructor
  · intro inside
    refine ⟨Nat.le_of_not_lt fun short => ?_, readlinkFallback_isSome.mp inside.fallback⟩
    have decoder := inside.decoder
    rw [ntfsMakeSymlink_short some_byte short] at decoder
    cases decoder
  · rintro ⟨long, fallback⟩
    obtain ⟨valid, checked, -⟩ := @validReparseData_long v recallOnOpen dirRecord long
    obtain ⟨load, decoded, built⟩ := @ntfsMakeSymlink_long v recallOnOpen dirRecord memory long
    exact
      { checks := by rw [checked]; rfl
        decoder := by rw [decoded]; rfl
        fallback := readlinkFallback_isSome.mpr fallback
        target := fun other target same => by
          rw [decoded] at same
          cases same
          exact built target
        fallbackTarget := fun target => readlinkFallback_built }

/-- A native link to a file of one letter. -/
def letterLink : List UInt8 :=
  [0x0C, 0, 0, 0xA0, 16, 0, 0, 0, 0, 0, 2, 0, 2, 0, 2, 0, 1, 0, 0, 0, 0x61, 0, 0x61, 0]

/-- Everything that is read of a whole link is inside of it. -/
theorem letterLink_inside : ReadsInside ⟨true, true⟩ false false letterLink := by
  refine (reads_inside_iff ⟨true, true⟩ false false letterLink (by decide)).mpr ⟨by decide, .inr (.inr ⟨by decide, ?_, ?_⟩)⟩
  · exact fun none => absurd none (by decide)
  · exact fun _ => .inr (.inr (.inl (by decide)))

/-- The length field of a value of one byte is read behind its end, and so is the print name of a
link that declares more than there is. -/
theorem short_value_overrun : validReparseData false false [0x0C] = none ∧
    ntfsMakeSymlink ⟨true, true⟩ false false [0x0C] = none ∧ ¬ ReadsInside ⟨true, true⟩ false false [0x0C] ∧
    readlinkFallback true (letterLink.take 8) = none := by
  refine ⟨by decide, by decide, fun inside => ?_, by decide⟩
  have checks := inside.checks
  revert checks
  decide

end Ttntfs.Ntfs
