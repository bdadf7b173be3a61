import Ttntfs.Platform.Unicode

/-!
# Names between UTF-8 and the volume

`ntfs_nlstoucs` converts the names of callers and `ntfs_ucstonls` those of the volume, on a
volume that is mounted with UTF-8 names.
-/

namespace Ttntfs.Ntfs

open Ttntfs.Library.CharEncoding Ttntfs.Platform

/-- The errors of the two conversions. -/
inductive NameConversionError where
  | enomem
  | eilseq
  | enametoolong
  deriving DecidableEq

/-- `NLS_MAX_CHARSET_SIZE` -/
def nlsMaxCharsetSize : Nat := 6

/-- `ntfs_nlstoucs`, by whether there is memory for the output. -/
def ntfsNlstoucs (someMemory : Bool) (ins : List UInt8) (maxNameLen : Nat) :
    Except NameConversionError (List UInt16) :=
  if !someMemory then .error .enomem
  else
    match utf8sToUtf16s ins (maxNameLen + 2) with
    | none => .error .eilseq
    | some ucs => if maxNameLen < ucs.length then .error .enametoolong else .ok ucs

/-- `ntfs_ucstonls`, into a buffer of the caller of so many bytes or into one of its own. -/
def ntfsUcstonls (someMemory : Bool) (ins : List UInt16) (outs : Option Nat) :
    Except NameConversionError (List UInt8) :=
  if outs = some 0 then .error .enametoolong
  else if outs = none ∧ !someMemory then .error .enomem
  else if outs.getD (ins.length * nlsMaxCharsetSize) ≤
      (utf16sToUtf8s ins (outs.getD (ins.length * nlsMaxCharsetSize))).length then .error .enametoolong
  else .ok (utf16sToUtf8s ins (outs.getD (ins.length * nlsMaxCharsetSize)))

section Conversion

variable {someMemory : Bool} {name : List UInt8} {units : List UInt16} {maxNameLen : Nat} {text : List Char}

/-- The UTF-16 encoding of a text that is not empty is converted back, into a buffer that has
room for it or one of the call's own. -/
theorem ntfsUcstonls_encode {outs : Option Nat} (noNul : ∀ c ∈ text, c.toNat ≠ 0) (notEmpty : text ≠ [])
    (memory : outs = none → someMemory = true) (room : ∀ size ∈ outs, (utf8Encode text).length < size) :
    ntfsUcstonls someMemory (utf16Encode text) outs = .ok (utf8Encode text) := by
  have bytes := utf8Encode_units text
  have positive : 0 < (utf16Encode text).length := by
    obtain ⟨c, text, rfl⟩ := List.exists_cons_of_ne_nil notEmpty
    obtain ⟨b, bytes, shape, -⟩ := utf8EncodeChar_cons c
    have one := (utf8EncodeChar_units c).1
    rw [shape, List.length_cons] at one
    rw [utf16Encode_cons,
      List.length_append]
    omega
  have fits : (utf8Encode text).length < outs.getD ((utf16Encode text).length * nlsMaxCharsetSize) := by
    cases outs with
    | none =>
      change (utf8Encode text).length < (utf16Encode text).length * 6
      omega
    | some size => exact room size rfl
  have given : outs ≠ some 0 := by
    rintro rfl
    exact absurd fits (Nat.not_lt_zero _)
  have allocated : ¬ (outs = none ∧ (!someMemory) = true) := by
    rintro ⟨own, refused⟩
    rw [memory own] at refused
    cases refused
  rw [ntfsUcstonls, if_neg given, if_neg allocated, utf16sToUtf8s_encode noNul (Nat.le_of_lt fits),
    if_neg (Nat.not_le.mpr fits)]

theorem noNul_of_bytes (noZero : (0 : UInt8) ∉ utf8Encode text) : ∀ c ∈ text, c.toNat ≠ 0 := by
  intro c there zero
  refine noZero (List.mem_flatMap.mpr ⟨c, there, ?_⟩)
  obtain ⟨b, bytes, shape, ascii, -⟩ := utf8EncodeChar_cons c
  have same := (ascii (by omega)).1
  rw [shape, UInt8.toNat_inj.mp (same.trans zero : b.toNat = (0 : UInt8).toNat)]
  exact List.mem_cons_self

theorem ntfsNlstoucs_encode (noNul : ∀ c ∈ text, c.toNat ≠ 0) (short : (utf16Encode text).length ≤ maxNameLen) :
    ntfsNlstoucs true (utf8Encode text) maxNameLen = .ok (utf16Encode text) := by
  rw [ntfsNlstoucs, utf8sToUtf16s_encode noNul (by omega)]
  simp only [Bool.not_true, Bool.false_eq_true, if_false]
  rw [if_neg (Nat.not_lt.mpr short)]

theorem text_of_ntfsNlstoucs (noNul : (0 : UInt8) ∉ name) (done : ntfsNlstoucs someMemory name maxNameLen = .ok units) :
    someMemory = true ∧ ∃ text, name = utf8Encode text ∧ units = utf16Encode text ∧ units.length ≤ maxNameLen := by
  unfold ntfsNlstoucs at done
  split at done
  · cases done
  rename_i memory
  split at done
  · cases done
  · rename_i ucs converted
    split at done
    · cases done
    · rename_i short
      cases done
      obtain ⟨text, bytes, sameUnits⟩ := text_of_converted noNul converted (by omega)
      exact ⟨by simpa using memory, text, bytes, sameUnits, by omega⟩

/-- A name without NUL is converted exactly when it is the UTF-8 encoding of a text that is not
too long in UTF-16, which is the result, and the result is converted back to the name. -/
theorem names_survive_conversion (someMemory : Bool) (name : List UInt8) (maxNameLen : Nat) (units : List UInt16)
    (notEmpty : name ≠ []) (noNul : (0 : UInt8) ∉ name) :
    (ntfsNlstoucs someMemory name maxNameLen = .ok units ↔ someMemory = true ∧
      ∃ text, name = utf8Encode text ∧ units = utf16Encode text ∧ units.length ≤ maxNameLen) ∧
    (ntfsNlstoucs someMemory name maxNameLen = .ok units →
      ntfsUcstonls true units none = .ok name ∧
      ∀ memory size, name.length < size → ntfsUcstonls memory units (some size) = .ok name) := by
  refine ⟨⟨text_of_ntfsNlstoucs noNul, ?_⟩, fun done => ?_⟩
  · rintro ⟨rfl, text, rfl, rfl, short⟩
    exact ntfsNlstoucs_encode (noNul_of_bytes noNul) short
  obtain ⟨-, text, rfl, rfl, -⟩ := text_of_ntfsNlstoucs noNul done
  have nonEmpty : text ≠ [] := by
    rintro rfl
    exact notEmpty rfl
  constructor
  · exact ntfsUcstonls_encode (noNul_of_bytes noNul) nonEmpty (fun _ => rfl) (fun size given => by cases given)
  · intro memory size room
    exact ntfsUcstonls_encode (noNul_of_bytes noNul) nonEmpty (fun own => by cases own)
      (fun given same => by cases same; exact room)

/-- The sign of the Euro has three bytes. -/
theorem euro_survives_conversion : ntfsNlstoucs true [0xE2, 0x82, 0xAC] 255 = .ok [0x20AC] ∧
    ntfsUcstonls true [0x20AC] none = .ok [0xE2, 0x82, 0xAC] := by
  have survives := names_survive_conversion true [0xE2, 0x82, 0xAC] 255 [0x20AC] (by decide) (by decide)
  have done := survives.1.mpr ⟨rfl, ['€'], by decide +kernel, by decide +kernel, by decide⟩
  exact ⟨done, (survives.2 done).1⟩

end Conversion

section Listing

variable {name : List UInt16}

/-- A name of a directory: 1 to 255 units, without NUL and slash. -/
structure ListedName (name : List UInt16) : Prop where
  notEmpty : name ≠ []
  short : name.length ≤ 255
  noNul : (0 : UInt16) ∉ name
  noSlash : (0x2f : UInt16) ∉ name

/-- The bytes of the buffer that `ntfs_readdir` passes to `ntfs_ucstonls`. -/
def readdirNameSize : Nat := 255 * nlsMaxCharsetSize + 1

theorem noNul_of_units {text : List Char} (noZero : (0 : UInt16) ∉ utf16Encode text) : ∀ c ∈ text, c.toNat ≠ 0 := by
  intro c there zero
  refine noZero (List.mem_flatMap.mpr ⟨c, there, ?_⟩)
  rw [utf16EncodeChar, if_pos (by omega), zero]
  exact List.mem_cons_self

/-- A name without unpaired surrogates is listed under bytes that are converted back to it. -/
theorem ListedName.listed (listed : ListedName name) (paired : surrogatesPaired name = true) :
    ∃ bytes, ntfsUcstonls false name (some readdirNameSize) = .ok bytes ∧ bytes ≠ [] ∧
      ntfsNlstoucs true bytes 255 = .ok name := by
  obtain ⟨text, rfl⟩ := exists_text_of_paired paired
  have noNul := noNul_of_units listed.noNul
  have bytes := utf8Encode_units text
  have short := listed.short
  have nonEmpty : text ≠ [] := by
    rintro rfl
    exact listed.notEmpty rfl
  refine ⟨utf8Encode text, ntfsUcstonls_encode noNul nonEmpty (fun own => by cases own) (fun size given => ?_), ?_,
    ntfsNlstoucs_encode noNul short⟩
  · cases given
    change _ < 255 * 6 + 1
    omega
  · obtain ⟨c, text, rfl⟩ := List.exists_cons_of_ne_nil nonEmpty
    obtain ⟨b, tail, shape, -⟩ := utf8EncodeChar_cons c
    rw [utf8Encode_cons, shape]
    exact List.cons_ne_nil _ _

/-- Of the names of a directory, those without unpaired surrogates are listed under names that
are not empty, differ where the names do, and are converted back to them. -/
theorem listed_names_found (names : Set (List UInt16)) (allowed : ∀ name ∈ names, ListedName name) :
    (∀ name ∈ names, surrogatesPaired name = true →
      ∃ bytes, ntfsUcstonls false name (some readdirNameSize) = .ok bytes ∧ bytes ≠ [] ∧
        ntfsNlstoucs true bytes 255 = .ok name) ∧
    ∀ name ∈ names, ∀ other ∈ names, surrogatesPaired name = true → surrogatesPaired other = true → name ≠ other →
      ntfsUcstonls false name (some readdirNameSize) ≠ ntfsUcstonls false other (some readdirNameSize) := by
  refine ⟨fun name there => (allowed name there).listed, ?_⟩
  intro name there other otherThere paired otherPaired differ same
  obtain ⟨bytes, listed, -, found⟩ := (allowed name there).listed paired
  obtain ⟨otherBytes, otherListed, -, otherFound⟩ := (allowed other otherThere).listed otherPaired
  rw [listed, otherListed] at same
  cases same
  rw [found] at otherFound
  exact differ (by cases otherFound; rfl)

/-- A directory of two names. -/
theorem two_names_found :
    (∃ bytes, ntfsUcstonls false [0xd83d, 0xde00] (some readdirNameSize) = .ok bytes ∧ bytes ≠ [] ∧
      ntfsNlstoucs true bytes 255 = .ok [0xd83d, 0xde00]) ∧
    ntfsUcstonls false [0xd83d, 0xde00] (some readdirNameSize) ≠
      ntfsUcstonls false [0x61] (some readdirNameSize) := by
  have found := listed_names_found {[0xd83d, 0xde00], [0x61]} (by
    rintro name (rfl | rfl)
    · exact ⟨by decide, by decide, by decide, by decide⟩
    · exact ⟨by decide, by decide, by decide, by decide⟩)
  exact ⟨found.1 _ (.inl rfl) (by decide),
    found.2 _ (.inl rfl) _ (.inr rfl) (by decide) (by decide) (by decide)⟩

/-- An unpaired surrogate is skipped: a name that has one is listed as another name of its
directory, which the lookup then finds, and a name of nothing else is listed as none. -/
theorem unpaired_surrogate_skipped :
    ListedName [0xd800, 0x61] ∧ ListedName [0x61] ∧ ListedName [0xd800] ∧
    ntfsUcstonls false [0xd800, 0x61] (some readdirNameSize) = .ok [0x61] ∧
    ntfsUcstonls false [0x61] (some readdirNameSize) = .ok [0x61] ∧
    ntfsNlstoucs true [0x61] 255 = .ok [0x61] ∧
    ntfsUcstonls false [0xd800] (some readdirNameSize) = .ok [] := by
  refine ⟨⟨by decide, by decide, by decide, by decide⟩, ⟨by decide, by decide, by decide, by decide⟩,
    ⟨by decide, by decide, by decide, by decide⟩, by decide +kernel, by decide +kernel, ?_, by decide +kernel⟩
  simp [ntfsNlstoucs, utf8sToUtf16s]

end Listing

end Ttntfs.Ntfs
