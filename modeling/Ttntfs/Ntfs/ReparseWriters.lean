import Mathlib.Data.List.TakeWhile
import Ttntfs.Library.ByteFields
import Ttntfs.Ntfs.ReparseBounds
import Ttntfs.Ntfs.ReparseIndex

/-!
# Reparse points that are written

A symbolic link is written as a native link of Windows where its target can be one, with its
separators turned around, and as a link of WSL elsewhere. What is written passes the checks and is
decoded to the target that it was made of.
-/

namespace Ttntfs.Ntfs

open Ttntfs.Library.ByteMemory Ttntfs.Library.ByteFields Ttntfs.Library.CharEncoding Ttntfs.Platform

/-- A reparse point with its header. -/
def reparseValue (tag : Nat) (data : List UInt8) : List UInt8 :=
  leBytes 4 tag ++ (leBytes 2 data.length ++ (leBytes 2 0 ++ data))

/-- The bytes of some units. -/
def unitBytes (units : List UInt16) : List UInt8 := units.flatMap fun unit => leBytes 2 unit.toNat

/-- The units that a component of a path of Windows must not have. -/
def windowsForbidden : List UInt16 := [0x3a, 0x2a, 0x3f, 0x22, 0x3c, 0x3e, 0x7c, 0x5c]

/-- `ntfs_symlink_target_is_windows_safe` -/
def ntfsSymlinkTargetIsWindowsSafe (target : List UInt16) : Bool :=
  0 < target.length && target.all fun unit => unit ∉ windowsForbidden && 0x20 ≤ unit.toNat

/-- A separator of POSIX as that of Windows. -/
def flipUnit (unit : UInt16) : UInt16 := if unit = 0x2f then 0x5c else unit

/-- `SYMLINK_FLAG_RELATIVE` -/
def symlinkFlagRelative : Nat := 1

/-- The value of a native link: the substitute name and the print name are both the target. -/
def winSymlinkValue (target : List UInt16) : List UInt8 :=
  let path := unitBytes (target.map flipUnit)
  reparseValue ioReparseTagSymlink
    (leBytes 2 0 ++ (leBytes 2 path.length ++ (leBytes 2 path.length ++ (leBytes 2 path.length ++
      (leBytes 4 symlinkFlagRelative ++ (path ++ path))))))

/-- The value of a link of WSL. -/
def wslSymlinkValue (link : List UInt8) : List UInt8 := reparseValue ioReparseTagLxSymlink (leBytes 4 2 ++ link)

/-- `ENOMEM` -/
def reparseEnomem : Int := 12

/-- Whether there is memory for the converted target and for the value. -/
structure SetterMemory where
  name : Bool
  value : Bool

/-- What a setter of links does behind the conversion of the target: the error, the attribute and
the index, and `ni->target`. -/
def setLinkValue (memory : SetterMemory) (course : SetCourse) (ni : ReparseInode) (value link : List UInt8)
    (s : ReparseState) : Int × ReparseState × Option (List UInt8) :=
  if link = [] then (-reparseEinval, s, none)
  else if !memory.value then (-reparseEnomem, s, none)
  else
    let (err, s) := ntfsSetNtfsReparseData course ni value s
    (err, s, if err = 0 then some link else none)

/-- `ntfs_reparse_set_win_symlink` -/
def ntfsReparseSetWinSymlink (memory : SetterMemory) (course : SetCourse) (ni : ReparseInode) (target : List UInt16)
    (s : ReparseState) : Int × ReparseState × Option (List UInt8) :=
  if target.length = 0 ∨ 4096 < target.length then (-reparseEinval, s, none)
  else
    match ntfsUcstonls memory.name target none with
    | .error _ => (-reparseEinval, s, none)
    | .ok link => setLinkValue memory course ni (winSymlinkValue target) link s

/-- `ntfs_reparse_set_wsl_symlink` -/
def ntfsReparseSetWslSymlink (memory : SetterMemory) (course : SetCourse) (ni : ReparseInode) (target : List UInt16)
    (s : ReparseState) : Int × ReparseState × Option (List UInt8) :=
  match ntfsUcstonls memory.name target none with
  | .error _ => (-reparseEinval, s, none)
  | .ok link => setLinkValue memory course ni (wslSymlinkValue link) link s

/-! ## Fields of a value -/

section Values

variable {tag : Nat} {data : List UInt8}

theorem length_reparseValue : (reparseValue tag data).length = 8 + data.length := by
  simp only [reparseValue, List.length_append, length_leBytes]
  omega

theorem reparseTag_reparseValue (fits : tag < 256 ^ 4) : reparseTag (reparseValue tag data) = tag :=
  @fieldAt_written 4 tag 0 [] (leBytes 2 data.length ++ (leBytes 2 0 ++ data)) rfl fits

theorem reparseDataLength_reparseValue (fits : data.length < 256 ^ 2) :
    reparseDataLength (reparseValue tag data) = data.length :=
  fieldAt_written (length_leBytes 4 tag) fits

theorem valueField_reparseValue (width off : Nat) :
    valueField (reparseValue tag data) width (8 + off) = fieldAt data width off := by
  have header : reparseValue tag data = (leBytes 4 tag ++ (leBytes 2 data.length ++ leBytes 2 0)) ++ data := by
    rw [reparseValue, List.append_assoc, List.append_assoc]
  rw [header]
  exact fieldAt_append (leBytes 4 tag ++ (leBytes 2 data.length ++ leBytes 2 0)) data width off

theorem length_unitBytes (units : List UInt16) : (unitBytes units).length = 2 * units.length := by
  induction units with
  | nil => rfl
  | cons unit units ih =>
    rw [unitBytes, List.flatMap_cons, List.length_append, length_leBytes, ← unitBytes, ih,
      List.length_cons]
    omega

/-- Units none of which is zero are read back. -/
theorem readUnits_written (before : List UInt8) (units : List UInt16) (behind : List UInt8)
    (noNul : ∀ unit ∈ units, unit ≠ 0) :
    readUnits (before ++ (unitBytes units ++ behind)) before.length units.length = some units := by
  induction units generalizing before with
  | nil => rfl
  | cons unit units ih =>
    have shape : before ++ (unitBytes (unit :: units) ++ behind) =
        before ++ (leBytes 2 unit.toNat ++ (unitBytes units ++ behind)) := by
      rw [unitBytes, List.flatMap_cons, ← unitBytes, List.append_assoc]
    have field : valueField (before ++ (leBytes 2 unit.toNat ++ (unitBytes units ++ behind))) 2 before.length =
        unit.toNat := fieldAt_written rfl unit.toNat_lt
    have nonzero : unit.toNat ≠ 0 := fun zero => noNul unit List.mem_cons_self (UInt16.toNat_inj.mp zero)
    have rest := ih (before ++ leBytes 2 unit.toNat) fun other there =>
      noNul other (List.mem_cons_of_mem _ there)
    rw [List.append_assoc, List.length_append, length_leBytes] at rest
    rw [shape, List.length_cons, readUnits, readValue_inside (by simp only [List.length_append, length_leBytes]; omega),
      field]
    simp only [Option.bind_eq_bind, Option.bind_some, nonzero, if_false, rest, Option.pure_def, UInt16.ofNat_toNat]

/-- The fields of the data of a native link. -/
structure NativeFields (v : List UInt8) (nameLength : Nat) : Prop where
  substOffset : valueField v 2 8 = 0
  substLength : valueField v 2 10 = nameLength
  printOffset : valueField v 2 12 = nameLength
  printLength : valueField v 2 14 = nameLength
  flags : valueField v 4 16 = symlinkFlagRelative

theorem winSymlinkValue_fields {target : List UInt16} (short : target.length ≤ 4096) :
    NativeFields (winSymlinkValue target) (2 * target.length) := by
  have size : (unitBytes (target.map flipUnit)).length = 2 * target.length := by
    rw [length_unitBytes, List.length_map]
  have fits : (unitBytes (target.map flipUnit)).length < 256 ^ 2 := by omega
  rw [← size]
  constructor
  · rw [winSymlinkValue, show 8 = 8 + 0 from rfl, valueField_reparseValue, fieldAt_first (by decide)]
  · rw [winSymlinkValue, show 10 = 8 + (2 + 0) from rfl, valueField_reparseValue, fieldAt_skip, fieldAt_first fits]
  · rw [winSymlinkValue, show 12 = 8 + (2 + (2 + 0)) from rfl, valueField_reparseValue, fieldAt_skip, fieldAt_skip,
      fieldAt_first fits]
  · rw [winSymlinkValue, show 14 = 8 + (2 + (2 + (2 + 0))) from rfl, valueField_reparseValue, fieldAt_skip,
      fieldAt_skip, fieldAt_skip, fieldAt_first fits]
  · rw [winSymlinkValue, show 16 = 8 + (2 + (2 + (2 + (2 + 0)))) from rfl, valueField_reparseValue, fieldAt_skip,
      fieldAt_skip, fieldAt_skip, fieldAt_skip, fieldAt_first (by decide)]

end Values

/-! ## Texts with turned separators -/

section Texts

variable {c : Char} {text : List Char}

/-- A separator of POSIX as that of Windows, among characters. -/
def flipChar (c : Char) : Char := if c = '/' then '\\' else c

theorem char_eq_of_toNat {d : Char} (same : c.toNat = d.toNat) : c = d :=
  Char.ext (UInt32.toNat_inj.mp same)

theorem utf8EncodeChar_ascii (small : c.toNat < 128) : String.utf8EncodeChar c = [UInt8.ofNat c.toNat] := by
  obtain ⟨b, bytes, shape, ascii, -⟩ := utf8EncodeChar_cons c
  obtain ⟨same, rfl⟩ := ascii small
  rw [shape, ← same, UInt8.ofNat_toNat]

theorem utf8EncodeChar_high (large : 128 ≤ c.toNat) : ∀ b ∈ String.utf8EncodeChar c, 128 ≤ b.toNat := by
  have range := char_range c
  rw [String.utf8EncodeChar, show c.val.toNat = c.toNat from rfl]
  generalize c.toNat = v at range large
  have byte {k : Nat} (small : k < 256) (high : 128 ≤ k) : 128 ≤ (UInt8.ofNat k).toNat := by
    rwa [toNat_ofNat_byte small]
  split
  · omega
  split
  · simp only [List.mem_cons, List.not_mem_nil, or_false]
    rintro b (rfl | rfl) <;> exact byte (by omega) (by omega)
  · split
    · simp only [List.mem_cons, List.not_mem_nil, or_false]
      rintro b (rfl | rfl | rfl) <;> exact byte (by omega) (by omega)
    · simp only [List.mem_cons, List.not_mem_nil, or_false]
      rintro b (rfl | rfl | rfl | rfl) <;> exact byte (by omega) (by omega)

theorem utf8Encode_ne_nil (notEmpty : text ≠ []) : utf8Encode text ≠ [] := by
  obtain ⟨c, rest, rfl⟩ := List.exists_cons_of_ne_nil notEmpty
  obtain ⟨b, bytes, shape, -⟩ := utf8EncodeChar_cons c
  rw [utf8Encode_cons, shape]
  exact nofun

theorem utf16Encode_length (text : List Char) : (utf16Encode text).length ≤ (utf8Encode text).length := by
  induction text with
  | nil => exact le_rfl
  | cons c text ih =>
    have one := (utf8EncodeChar_units c).2
    rw [utf8Encode_cons, utf16Encode_cons, List.length_append, List.length_append]
    omega

theorem char_of_byte {b : UInt8} (there : b ∈ utf8Encode text) (small : b.toNat < 128) :
    ∃ c ∈ text, c.toNat = b.toNat := by
  obtain ⟨c, listed, held⟩ := List.mem_flatMap.mp there
  have ascii : c.toNat < 128 := by
    by_contra large
    have := utf8EncodeChar_high (not_lt.mp large) b held
    omega
  rw [utf8EncodeChar_ascii ascii, List.mem_singleton] at held
  exact ⟨c, listed, by rw [held, toNat_ofNat_byte (by omega)]⟩

theorem utf16EncodeChar_zero (held : 0 ∈ utf16EncodeChar c) : c.toNat = 0 := by
  have range := char_range c
  have value {k : Nat} (small : k < 65536) (same : 0 = UInt16.ofNat k) : k = 0 := by
    rw [← toNat_ofNat_unit small, ← same]
    rfl
  rw [utf16EncodeChar] at held
  split at held
  · exact value (by omega) (List.mem_singleton.mp held)
  · rcases List.mem_cons.mp held with same | held
    · have := value (by omega) same
      omega
    · have := value (by omega) (List.mem_singleton.mp held)
      omega

/-- The units of a text with turned separators. -/
theorem utf16Encode_flip (text : List Char) : utf16Encode (text.map flipChar) = (utf16Encode text).map flipUnit := by
  induction text with
  | nil => rfl
  | cons c text ih =>
    have one : utf16EncodeChar (flipChar c) = (utf16EncodeChar c).map flipUnit := by
      by_cases slash : c = '/'
      · rw [slash]
        decide
      have other (k : Nat) (small : k < 65536) (not : k ≠ 0x2f) : flipUnit (UInt16.ofNat k) = UInt16.ofNat k := by
        refine if_neg fun same => not ?_
        have value := congrArg UInt16.toNat same
        rwa [toNat_ofNat_unit small] at value
      have notSlash : c.toNat ≠ 0x2f := fun same => slash (char_eq_of_toNat same)
      have range := char_range c
      rw [flipChar, if_neg slash, utf16EncodeChar]
      split
      · rw [List.map_singleton, other _ (by omega) notSlash]
      · rw [List.map_cons, List.map_singleton, other _ (by omega) (by omega), other _ (by omega) (by omega)]
    rw [List.map_cons, utf16Encode_cons, utf16Encode_cons, List.map_append, one, ih]

/-- The separators of a text without those of Windows are turned back. -/
theorem utf8Encode_flip (plain : ∀ c ∈ text, c.toNat ≠ 0x5c) :
    (utf8Encode (text.map flipChar)).map flipSeparator = utf8Encode text := by
  induction text with
  | nil => rfl
  | cons c text ih =>
    have one : (String.utf8EncodeChar (flipChar c)).map flipSeparator = String.utf8EncodeChar c := by
      by_cases slash : c = '/'
      · rw [slash]
        decide
      rw [flipChar, if_neg slash]
      refine (List.map_congr_left fun b held => ?_).trans (List.map_id _)
      refine if_neg ?_
      rintro rfl
      have there : (0x5c : UInt8) ∈ utf8Encode [c] := List.mem_flatMap.mpr ⟨c, List.mem_cons_self, held⟩
      obtain ⟨d, listed, same⟩ := char_of_byte there (by decide)
      rw [List.mem_singleton.mp listed] at same
      exact plain c List.mem_cons_self same
    rw [List.map_cons, utf8Encode_cons, utf8Encode_cons, List.map_append, one,
      ih fun d there => plain d (List.mem_cons_of_mem _ there)]

theorem windowsSafe_chars (safe : ntfsSymlinkTargetIsWindowsSafe (utf16Encode text) = true) :
    ∀ c ∈ text, c.toNat ≠ 0x5c ∧ c.toNat ≠ 0x3f := by
  intro c there
  rw [ntfsSymlinkTargetIsWindowsSafe, Bool.and_eq_true] at safe
  have each := List.all_eq_true.mp safe.2
  have ascii (k : Nat) (small : k < 128) (same : c.toNat = k) : UInt16.ofNat k ∈ utf16Encode text := by
    refine List.mem_flatMap.mpr ⟨c, there, ?_⟩
    rw [utf16EncodeChar, if_pos (by omega), same]
    exact List.mem_cons_self
  constructor
  · intro same
    exact absurd (each _ (ascii 0x5c (by decide) same)) (by decide)
  · intro same
    exact absurd (each _ (ascii 0x3f (by decide) same)) (by decide)

end Texts

/-! ## What is written is decoded -/

section Decoding

variable {text : List Char} {recallOnOpen dirRecord : Bool}

/-- A native link passes the checks. -/
theorem winSymlinkValue_valid {target : List UInt16} (short : target.length ≤ 4096) :
    validReparseData recallOnOpen dirRecord (winSymlinkValue target) = some true := by
  have fields := winSymlinkValue_fields short
  have tag : reparseTag (winSymlinkValue target) = ioReparseTagSymlink := reparseTag_reparseValue (by decide)
  have size : (unitBytes (target.map flipUnit)).length = 2 * target.length := by
    rw [length_unitBytes, List.length_map]
  have length : (winSymlinkValue target).length = 8 + (12 + 4 * target.length) := by
    rw [winSymlinkValue, length_reparseValue]
    simp only [List.length_append, length_leBytes, size]
    omega
  have dataLength : reparseDataLength (winSymlinkValue target) = 12 + 4 * target.length := by
    rw [winSymlinkValue, reparseDataLength_reparseValue]
    all_goals simp only [List.length_append, length_leBytes, size]; omega
  have header : linkHeader ioReparseTagSymlink = 12 := rfl
  rw [validReparseData_iff (by omega)]
  constructor
  · omega
  · rw [tag]
    decide
  · rw [tag, dataLength, length, if_neg (by decide)]
    rfl
  · intro wsl
    exact absurd (tag.symm.trans wsl) (by decide)
  · intro mount
    exact absurd (tag.symm.trans mount) (by decide)
  · intro _
    constructor
    · rw [tag, dataLength, header]
      omega
    · rw [fields.substOffset, fields.substLength, fields.printOffset, fields.printLength, Nat.zero_or,
        Nat.or_self, Nat.or_self]
      omega
    · rw [tag, dataLength, header, fields.substOffset, fields.substLength]
      omega
    · rw [tag, dataLength, header, fields.printOffset, fields.printLength]
      omega
  · rintro (special | special | special | special) <;> exact absurd (tag.symm.trans special) (by decide)

theorem objectPrefix_none {s : List UInt8} (plain : (0x3f : UInt8) ∉ s) : objectPrefix s = 0 := by
  refine if_neg ?_
  rintro (same | same)
  · exact plain (List.mem_of_mem_take (same ▸ (by decide : (0x3f : UInt8) ∈ ascii "\\??\\")))
  · exact plain (List.mem_of_mem_take (same ▸ (by decide : (0x3f : UInt8) ∈ ascii "\\\\?\\")))

/-- What a load has where there is memory for it. -/
def linkLoad (memory : Bool) (target : List UInt8) : ReparseLoad :=
  if memory then ⟨true, .lnk, some target, false⟩ else .nothing

theorem winSymlinkValue_names (target : List UInt16) : ∃ before : List UInt8, before.length = 20 ∧
    winSymlinkValue target = before ++ (unitBytes (target.map flipUnit) ++ unitBytes (target.map flipUnit)) := by
  simp only [winSymlinkValue, reparseValue, ← List.append_assoc]
  exact ⟨_, by simp only [List.length_append, length_leBytes], rfl⟩

theorem mem_flipChar {c : Char} (there : c ∈ text.map flipChar) : c ∈ text ∨ c = '\\' := by
  obtain ⟨d, listed, rfl⟩ := List.mem_map.mp there
  rw [flipChar]
  split
  · exact .inr rfl
  · exact .inl listed

theorem readUnits_win (noNul : ∀ c ∈ text, c.toNat ≠ 0) :
    readUnits (winSymlinkValue (utf16Encode text)) 20 (utf16Encode text).length =
      some (utf16Encode (text.map flipChar)) := by
  obtain ⟨before, size, shape⟩ := winSymlinkValue_names (utf16Encode text)
  have nonzero : ∀ unit ∈ (utf16Encode text).map flipUnit, unit ≠ 0 := by
    rw [← utf16Encode_flip]
    rintro unit there rfl
    obtain ⟨c, listed, held⟩ := List.mem_flatMap.mp there
    have zero := utf16EncodeChar_zero held
    rcases mem_flipChar listed with listed | rfl
    · exact noNul c listed zero
    · exact absurd zero (by decide)
  have read := readUnits_written before ((utf16Encode text).map flipUnit) (unitBytes ((utf16Encode text).map flipUnit))
    nonzero
  rwa [← shape, size, List.length_map, ← utf16Encode_flip] at read

/-- A native link is decoded to the target that it was written for. -/
theorem ntfsMakeSymlink_win (memory : LoadMemory) (noNul : ∀ c ∈ text, c.toNat ≠ 0)
    (short : (utf16Encode text).length ≤ 4096)
    (safe : ntfsSymlinkTargetIsWindowsSafe (utf16Encode text) = true) :
    ntfsMakeSymlink memory recallOnOpen dirRecord (winSymlinkValue (utf16Encode text)) =
      some (linkLoad (memory.name && memory.target) (utf8Encode text)) := by
  have fields := winSymlinkValue_fields short
  have plain := windowsSafe_chars safe
  have positive : 0 < (utf16Encode text).length := by
    rw [ntfsSymlinkTargetIsWindowsSafe, Bool.and_eq_true] at safe
    exact of_decide_eq_true safe.1
  have length : (winSymlinkValue (utf16Encode text)).length = 20 + 4 * (utf16Encode text).length := by
    obtain ⟨before, size, shape⟩ := winSymlinkValue_names (utf16Encode text)
    rw [shape, List.length_append, List.length_append, size, length_unitBytes, List.length_map]
    omega
  have filled : winSymlinkValue (utf16Encode text) ≠ [] := List.ne_nil_of_length_pos (by omega)
  have tag : readValue (winSymlinkValue (utf16Encode text)) 4 0 = some ioReparseTagSymlink :=
    (readValue_inside (by omega)).trans (congrArg some (reparseTag_reparseValue (by decide)))
  have so : readValue (winSymlinkValue (utf16Encode text)) 2 8 = some 0 :=
    (readValue_inside (by omega)).trans (congrArg some fields.substOffset)
  have sn : readValue (winSymlinkValue (utf16Encode text)) 2 10 = some (2 * (utf16Encode text).length) :=
    (readValue_inside (by omega)).trans (congrArg some fields.substLength)
  have flags : readValue (winSymlinkValue (utf16Encode text)) 4 16 = some symlinkFlagRelative :=
    (readValue_inside (by omega)).trans (congrArg some fields.flags)
  have named : 2 * (utf16Encode text).length ≠ 0 := by omega
  have half : 2 * (utf16Encode text).length / 2 = (utf16Encode text).length := by omega
  have notWsl : ioReparseTagSymlink ≠ ioReparseTagLxSymlink := by decide
  have notMount : ioReparseTagSymlink ≠ ioReparseTagMountPoint := by decide
  have relative : decide (symlinkFlagRelative % 2 = 0) = false := by decide
  have unprefixed : objectPrefix (utf8Encode (text.map flipChar)) = 0 := by
    refine objectPrefix_none fun there => ?_
    obtain ⟨c, listed, same⟩ := char_of_byte there (by decide)
    rcases mem_flipChar listed with listed | rfl
    · exact (plain c listed).2 same
    · exact absurd same (by decide)
  have target : windowsTarget false (utf8Encode (text.map flipChar)) = (utf8Encode text, false) := by
    rw [windowsTarget, unprefixed]
    exact Prod.ext (utf8Encode_flip fun c there => (plain c there).1) rfl
  unfold ntfsMakeSymlink
  simp only [filled, if_false, winSymlinkValue_valid short, Option.bind_eq_bind, Option.bind_some, Bool.not_true,
    Bool.false_eq_true, tag, notWsl, true_or, if_true, so, sn, named]
  unfold decodeName
  have place : reparsePointSize + linkHeader ioReparseTagSymlink + 0 = 20 := rfl
  simp only [named, if_false, place, half, readUnits_win noNul, Option.bind_eq_bind, Option.bind_some, notMount, flags,
    relative, Option.pure_def]
  cases memory.name
  · rfl
  have notEmpty : text ≠ [] := by
    rintro rfl
    exact absurd positive (Nat.lt_irrefl 0)
  have converted : ntfsUcstonls true (utf16Encode (text.map flipChar)) none = .ok (utf8Encode (text.map flipChar)) := by
    refine ntfsUcstonls_encode (fun c there => ?_) (List.map_eq_nil_iff.not.mpr notEmpty) (fun _ => rfl) (by simp)
    rcases mem_flipChar there with listed | rfl
    · exact noNul c listed
    · decide
  have bytes : utf8Encode (text.map flipChar) ≠ [] := utf8Encode_ne_nil (List.map_eq_nil_iff.not.mpr notEmpty)
  simp only [converted, bytes, if_false, target, Bool.true_and]
  cases memory.target <;> rfl

/-- A link of WSL passes the checks. -/
theorem wslSymlinkValue_valid {link : List UInt8} (notEmpty : link ≠ []) (short : link.length ≤ 65531) :
    validReparseData recallOnOpen dirRecord (wslSymlinkValue link) = some true := by
  have tag : reparseTag (wslSymlinkValue link) = ioReparseTagLxSymlink := reparseTag_reparseValue (by decide)
  have positive := List.length_pos_of_ne_nil notEmpty
  have size : (leBytes 4 2 ++ link).length = 4 + link.length := by rw [List.length_append, length_leBytes]
  have length : (wslSymlinkValue link).length = 8 + (4 + link.length) := by
    rw [wslSymlinkValue, length_reparseValue, size]
  have dataLength : reparseDataLength (wslSymlinkValue link) = 4 + link.length := by
    rw [wslSymlinkValue, reparseDataLength_reparseValue, size]
    omega
  have type : valueField (wslSymlinkValue link) 4 8 = 2 := by
    rw [wslSymlinkValue, show 8 = 8 + 0 from rfl, valueField_reparseValue, fieldAt_first (by decide)]
  rw [validReparseData_iff (by omega)]
  constructor
  · omega
  · rw [tag]
    decide
  · rw [tag, dataLength, length, if_neg (by decide)]
    rfl
  · rw [dataLength]
    exact fun _ => ⟨by omega, type⟩
  · intro mount
    exact absurd (tag.symm.trans mount) (by decide)
  · rintro (named | named) <;> exact absurd (tag.symm.trans named) (by decide)
  · rintro (special | special | special | special) <;> exact absurd (tag.symm.trans special) (by decide)

/-- A link of WSL is decoded to the target that it was written for. -/
theorem ntfsMakeSymlink_wsl (memory : LoadMemory) {link : List UInt8} (notEmpty : link ≠ [])
    (noNul : (0 : UInt8) ∉ link) (short : link.length ≤ 65531) :
    ntfsMakeSymlink memory recallOnOpen dirRecord (wslSymlinkValue link) = some (linkLoad memory.target link) := by
  have size : (leBytes 4 2 ++ link).length = 4 + link.length := by rw [List.length_append, length_leBytes]
  have length : (wslSymlinkValue link).length = 8 + (4 + link.length) := by
    rw [wslSymlinkValue, length_reparseValue, size]
  have filled : wslSymlinkValue link ≠ [] := List.ne_nil_of_length_pos (by omega)
  have tag : readValue (wslSymlinkValue link) 4 0 = some ioReparseTagLxSymlink :=
    (readValue_inside (by omega)).trans (congrArg some (reparseTag_reparseValue (by decide)))
  have type : readValue (wslSymlinkValue link) 4 8 = some 2 := by
    rw [readValue_inside (by omega), wslSymlinkValue, show 8 = 8 + 0 from rfl, valueField_reparseValue,
      fieldAt_first (by decide)]
  have dataLength : readValue (wslSymlinkValue link) 2 4 = some (4 + link.length) := by
    rw [readValue_inside (by omega), ← size]
    exact congrArg some (reparseDataLength_reparseValue (by omega))
  have bytes : readBytes (wslSymlinkValue link) 12 link.length = some link := by
    have shape : wslSymlinkValue link = (leBytes 4 ioReparseTagLxSymlink ++ (leBytes 2 (4 + link.length) ++ (leBytes 2 0 ++
        leBytes 4 2))) ++ link := by
      rw [wslSymlinkValue, reparseValue, size]
      simp only [List.append_assoc]
    rw [readBytes, if_pos (by omega), shape, List.drop_left' (by simp only [List.length_append, length_leBytes]),
      List.take_length]
  have whole : link.takeWhile (· ≠ 0) = link := by
    refine List.takeWhile_eq_self_iff.mpr fun b there => decide_eq_true fun zero => noNul ?_
    rwa [← zero]
  unfold ntfsMakeSymlink
  simp only [filled, if_false, wslSymlinkValue_valid notEmpty short, Option.bind_eq_bind, Option.bind_some,
    Bool.not_true, Bool.false_eq_true, tag, if_true, type, ne_eq, not_true, dataLength, Nat.add_sub_cancel_left, bytes,
    Option.pure_def]
  rw [show (fun x : UInt8 => decide ¬ x = 0) = fun x => decide (x ≠ 0) from rfl, whole, linkLoad]
  cases memory.target <;> rfl

end Decoding

end Ttntfs.Ntfs
