import Mathlib.Tactic

/-!
# Comparing names

A file name is a string of 16-bit characters. Two comparisons are used on directories:
`ntfs_are_names_equal`, which ends at a NUL, and `ntfs_collate_names`, by which an index is
sorted: first without regard to case, by the upcase table of the volume, and then with it.
The collation refuses some characters of its first argument; without them it is the
lexicographic order of the characters, or of their upper case.
-/

namespace Ttntfs.Ntfs

/-- A name, as its characters. -/
abbrev Uname := List Nat

/-- The upcase table of a volume. -/
structure Upcase where
  table : List Nat

/-- The upper case of a character; characters behind the table stay as they are. -/
def Upcase.char (upcase : Upcase) (c : Nat) : Nat := (upcase.table[c]?).getD c

/-- `CASE_SENSITIVE` and `IGNORE_CASE` -/
inductive CaseRule where
  | caseSensitive
  | ignoreCase
  deriving DecidableEq

/-- A character as a comparison sees it. -/
def CaseRule.char (rule : CaseRule) (upcase : Upcase) (c : Nat) : Nat :=
  match rule with
  | .caseSensitive => c
  | .ignoreCase => upcase.char c

/-- `legal_ansi_char_array` -/
def legalAnsiCharArray : List Nat :=
  [0x00, 0x10, 0x10, 0x10, 0x10, 0x10, 0x10, 0x10, 0x10, 0x10, 0x10, 0x10, 0x10, 0x10, 0x10, 0x10,
    0x10, 0x10, 0x10, 0x10, 0x10, 0x10, 0x10, 0x10, 0x10, 0x10, 0x10, 0x10, 0x10, 0x10, 0x10, 0x10,
    0x17, 0x07, 0x18, 0x17, 0x17, 0x17, 0x17, 0x17, 0x17, 0x17, 0x18, 0x16, 0x16, 0x17, 0x07, 0x00,
    0x17, 0x17, 0x17, 0x17, 0x17, 0x17, 0x17, 0x17, 0x17, 0x17, 0x04, 0x16, 0x18, 0x16, 0x18, 0x18]

/-- Whether the collation refuses a character. -/
def isRefusedChar (c : Nat) : Bool :=
  match legalAnsiCharArray[c]? with
  | none => false
  | some flags => flags &&& 8 ≠ 0

/-- The loop of `ntfs_ucsncmp` and `ntfs_ucsncasecmp` over strings of one length: whether
they are equal up to the first NUL. -/
def sameUpToNul (rule : CaseRule) (upcase : Upcase) : Uname → Uname → Bool
  | c1 :: rest1, c2 :: rest2 =>
    if rule.char upcase c1 ≠ rule.char upcase c2 then false
    else if rule.char upcase c1 = 0 then true
    else sameUpToNul rule upcase rest1 rest2
  | _, _ => true

/-- `ntfs_are_names_equal` -/
def ntfsAreNamesEqual (s1 s2 : Uname) (rule : CaseRule) (upcase : Upcase) : Bool :=
  if s1.length ≠ s2.length then false else sameUpToNul rule upcase s1 s2

/-- `ntfs_collate_names` -/
def ntfsCollateNames (errVal : Int) (rule : CaseRule) (upcase : Upcase) : Uname → Uname → Int
  | [], [] => 0
  | [], _ :: _ => -1
  | c1 :: _, [] => if isRefusedChar c1 then errVal else 1
  | c1 :: rest1, c2 :: rest2 =>
    let c1 := rule.char upcase c1
    let c2 := rule.char upcase c2
    if isRefusedChar c1 then errVal
    else if c1 < c2 then -1
    else if c1 > c2 then 1
    else ntfsCollateNames errVal rule upcase rest1 rest2

/-- A name none of whose characters is refused by the collation, in whatever case. -/
def LegalName (upcase : Upcase) (name : Uname) : Prop :=
  ∀ c ∈ name, isRefusedChar c = false ∧ isRefusedChar (upcase.char c) = false

instance (upcase : Upcase) (name : Uname) : Decidable (LegalName upcase name) :=
  inferInstanceAs (Decidable (∀ c ∈ name, _ ∧ _))

/-- A name in upper case. -/
def upperName (upcase : Upcase) (name : Uname) : List Nat := name.map upcase.char

/-- The order of an index: without regard to case first, and with it for names that differ
in nothing else. -/
def CollatesBefore (upcase : Upcase) (left right : Uname) : Prop :=
  upperName upcase left < upperName upcase right ∨
    (upperName upcase left = upperName upcase right ∧ left < right)

/-- Names that differ at most in case. -/
def SameIgnoringCase (upcase : Upcase) (left right : Uname) : Prop :=
  upperName upcase left = upperName upcase right

instance (upcase : Upcase) (left right : Uname) : Decidable (CollatesBefore upcase left right) :=
  inferInstanceAs (Decidable (_ ∨ (_ ∧ _)))

instance (upcase : Upcase) (left right : Uname) : Decidable (SameIgnoringCase upcase left right) :=
  inferInstanceAs (Decidable (_ = _))

section Collation

variable {upcase : Upcase} {name left right other : Uname}

/-- The collation of names without refused characters is the lexicographic order of what
the rule makes of their characters. -/
theorem ntfsCollateNames_eq (errVal : Int) (rule : CaseRule) (legal : LegalName upcase left) :
    ntfsCollateNames errVal rule upcase left right =
      if left.map (rule.char upcase) < right.map (rule.char upcase) then -1
      else if left.map (rule.char upcase) = right.map (rule.char upcase) then 0 else 1 := by
  induction left generalizing right with
  | nil =>
    cases right with
    | nil => simp [ntfsCollateNames]
    | cons c rest => simp [ntfsCollateNames]
  | cons c1 rest1 ih =>
    obtain ⟨plain, upper⟩ := legal c1 (by simp)
    have accepted : isRefusedChar (rule.char upcase c1) = false := by
      cases rule with
      | caseSensitive => exact plain
      | ignoreCase => exact upper
    cases right with
    | nil => simp [ntfsCollateNames, plain]
    | cons c2 rest2 =>
      have others := @ih rest2 (fun c listed => legal c (by simp [listed]))
      simp only [ntfsCollateNames, accepted, Bool.false_eq_true, if_false, List.map_cons,
        List.cons_lt_cons_iff, List.cons.injEq]
      rcases Nat.lt_trichotomy (rule.char upcase c1) (rule.char upcase c2) with before | same | behind
      · simp [before]
      · simp [same, others]
      · have apart : rule.char upcase c1 ≠ rule.char upcase c2 := by omega
        have late : ¬ rule.char upcase c1 < rule.char upcase c2 := by omega
        simp [behind, apart, late]

theorem sameUpToNul_exact (lengths : left.length = right.length) (text : 0 ∉ right) :
    sameUpToNul .caseSensitive upcase left right = true ↔ left = right := by
  induction left generalizing right with
  | nil =>
    have nothing : right = [] := List.eq_nil_of_length_eq_zero (by simpa using lengths.symm)
    simp [nothing, sameUpToNul]
  | cons c1 rest1 ih =>
    cases right with
    | nil => simp at lengths
    | cons c2 rest2 =>
      rw [List.mem_cons, not_or] at text
      have others := @ih rest2 (by simpa using lengths) text.2
      by_cases same : c1 = c2
      · have visible : ¬ c1 = 0 := by omega
        simp [sameUpToNul, CaseRule.char, same, others]
        intro nul
        exact absurd nul.symm text.1
      · simp [sameUpToNul, CaseRule.char, same]

theorem ntfsAreNamesEqual_exact (text : 0 ∉ right) :
    ntfsAreNamesEqual left right .caseSensitive upcase = true ↔ left = right := by
  by_cases lengths : left.length = right.length
  · simp only [ntfsAreNamesEqual, lengths, ne_eq, not_true, if_false]
    exact sameUpToNul_exact lengths text
  · simp only [ntfsAreNamesEqual, ne_eq, lengths, not_false_iff, if_true, Bool.false_eq_true, false_iff]
    intro same
    exact lengths (by rw [same])

theorem ntfsAreNamesEqual_of_same (same : SameIgnoringCase upcase left right) :
    ntfsAreNamesEqual left right .ignoreCase upcase = true := by
  have lengths : left.length = right.length := by
    have mapped := congrArg List.length same
    simpa [upperName] using mapped
  simp only [ntfsAreNamesEqual, lengths, ne_eq, not_true, if_false]
  induction left generalizing right with
  | nil => simp [sameUpToNul]
  | cons c1 rest1 ih =>
    cases right with
    | nil => simp at lengths
    | cons c2 rest2 =>
      simp only [SameIgnoringCase, upperName, List.map_cons, List.cons.injEq] at same
      simp only [sameUpToNul, CaseRule.char, same.1, ne_eq, not_true, if_false]
      split
      · rfl
      · exact ih same.2 (by simpa using lengths)

/-- The collation is transitive. -/
theorem CollatesBefore.trans (first : CollatesBefore upcase left other)
    (second : CollatesBefore upcase other right) : CollatesBefore upcase left right := by
  rcases first with before | ⟨same, before⟩ <;> rcases second with behind | ⟨equal, behind⟩
  · exact .inl (lt_trans before behind)
  · exact .inl (by rw [← equal]; exact before)
  · exact .inl (by rw [same]; exact behind)
  · exact .inr ⟨same.trans equal, lt_trans before behind⟩

theorem CollatesBefore.irrefl : ¬ CollatesBefore upcase left left := by
  rintro (before | ⟨_, before⟩)
  · exact lt_irrefl _ before
  · exact lt_irrefl _ before

/-- Of two different names one collates before the other. -/
theorem CollatesBefore.total (apart : left ≠ right) :
    CollatesBefore upcase left right ∨ CollatesBefore upcase right left := by
  rcases lt_trichotomy (upperName upcase left) (upperName upcase right) with before | same | behind
  · exact .inl (.inl before)
  · rcases lt_trichotomy left right with before | equal | behind
    · exact .inl (.inr ⟨same, before⟩)
    · exact absurd equal apart
    · exact .inr (.inr ⟨same.symm, behind⟩)
  · exact .inr (.inl behind)

theorem SameIgnoringCase.between (same : SameIgnoringCase upcase left right)
    (first : CollatesBefore upcase left other) (second : CollatesBefore upcase other right) :
    SameIgnoringCase upcase other right := by
  have lower : upperName upcase left ≤ upperName upcase other := by
    rcases first with before | ⟨equal, _⟩
    · exact le_of_lt before
    · exact le_of_eq equal
  have upper : upperName upcase other ≤ upperName upcase right := by
    rcases second with before | ⟨equal, _⟩
    · exact le_of_lt before
    · exact le_of_eq equal
  rw [SameIgnoringCase] at same ⊢
  exact le_antisymm upper (same ▸ lower)

end Collation

end Ttntfs.Ntfs
