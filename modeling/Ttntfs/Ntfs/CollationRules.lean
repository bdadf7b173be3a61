import Ttntfs.Library.ByteMemory
import Ttntfs.Ntfs.IndexChange

/-!
# The collation rules

An index names the rule that its keys are sorted by. Each rule compares what it sees of two keys
in one linear order, and the search along the entries of a node, which tells only `-EINVAL`, -1
and 0 from other results, stops at the place of the key.
-/

namespace Ttntfs.Ntfs

open Library.ByteMemory

/-- A key, and its length in bytes. -/
structure KeyData where
  data : Mem
  len : Nat

/-- A little-endian word of a key. -/
def KeyData.word (key : KeyData) (i : Nat) : Nat := getLE key.data 4 (i * 4)

/-- The name in a key that is a `struct file_name_attr`. -/
def KeyData.fileName (key : KeyData) : Uname :=
  (List.range (key.data 64).toNat).map fun i => getLE key.data 2 (66 + i * 2)

/-- `COLLATION_BINARY`, `COLLATION_FILE_NAME`, `COLLATION_NTOFS_ULONG`, `COLLATION_NTOFS_ULONGS`, and
the rules that are not supported. -/
inductive CollationRule where
  | binary
  | fileName
  | ntofsUlong
  | ntofsUlongs
  | other
  deriving DecidableEq

/-- `cmp_int` -/
def cmpInt (a b : Nat) : Int := if a > b then 1 else if a < b then -1 else 0

section Rules

variable (memcmp : Mem → Mem → Nat → Int) (upcase : Upcase) (key1 key2 : KeyData)

/-- `ntfs_collate_binary` -/
def ntfsCollateBinary : Int :=
  let rc := memcmp key1.data key2.data (min key1.len key2.len)
  if rc = 0 ∧ key1.len ≠ key2.len then if key1.len < key2.len then -1 else 1 else rc

/-- `ntfs_collate_ntofs_ulong` -/
def ntfsCollateNtofsUlong : Int :=
  if key1.len ≠ key2.len ∨ key1.len ≠ 4 then collationError
  else if key1.word 0 < key2.word 0 then -1
  else if key1.word 0 = key2.word 0 then 0
  else 1

/-- The loop of `ntfs_collate_ntofs_ulongs`: `len` bytes are left from the word at `i` on. -/
def collateUlongsFrom (i len : Nat) : Int :=
  if key1.word i = key2.word i ∧ 4 < len then collateUlongsFrom (i + 1) (len - 4)
  else cmpInt (key1.word i) (key2.word i)
termination_by len

/-- `ntfs_collate_ntofs_ulongs` -/
def ntfsCollateNtofsUlongs : Int :=
  if key1.len ≠ key2.len ∨ key1.len % 4 ≠ 0 then -1 else collateUlongsFrom key1 key2 0 key1.len

/-- `ntfs_collate` -/
def ntfsCollate : CollationRule → Int
  | .binary => ntfsCollateBinary memcmp key1 key2
  | .fileName => ntfsCollateFileName upcase key1.fileName key2.fileName
  | .ntofsUlong => ntfsCollateNtofsUlong key1 key2
  | .ntofsUlongs => ntfsCollateNtofsUlongs key1 key2
  | .other => collationError

end Rules

/-- The loop of `ntfs_ie_lookup` over the keys of a node whose entries are in bounds: the number
of the entry it stops at and whether that is the one looked for, none for a collation error. -/
def ieLookupKeys (collate : KeyData → Int) : List KeyData → Nat → Option (Nat × Bool)
  | [], item => some (item, false)
  | key :: rest, item =>
    if collate key = collationError then none
    else if collate key = -1 then some (item, false)
    else if collate key = 0 then some (item, true)
    else ieLookupKeys collate rest (item + 1)

/-! ## What a rule compares -/

/-- The bytes from the start of a buffer. -/
def bytesOf (m : Mem) (n : Nat) : List Nat := (List.range n).map fun i => (m i).toNat

/-- `memcmp` compares bytes as unsigned numbers. -/
def ComparesBytes (memcmp : Mem → Mem → Nat → Int) : Prop :=
  ∀ m m' n, (memcmp m m' n < 0 ↔ bytesOf m n < bytesOf m' n) ∧ (memcmp m m' n = 0 ↔ bytesOf m n = bytesOf m' n)

/-- What a rule sees of a key. -/
def CollationRule.view (upcase : Upcase) (key : KeyData) : CollationRule → List Nat ×ₗ List Nat
  | .binary => toLex (bytesOf key.data key.len, [])
  | .fileName => toLex (upperName upcase key.fileName, key.fileName)
  | .ntofsUlong => toLex ([key.word 0], [])
  | .ntofsUlongs => toLex ((List.range (key.len / 4)).map key.word, [])
  | .other => toLex ([], [])

/-- Two keys of an index that has the rule. -/
def KeysFit (upcase : Upcase) (key1 key2 : KeyData) : CollationRule → Prop
  | .binary => True
  | .fileName => LegalName upcase key1.fileName
  | .ntofsUlong => key1.len = 4 ∧ key2.len = 4
  | .ntofsUlongs => key1.len = key2.len ∧ key1.len % 4 = 0 ∧ 0 < key1.len
  | .other => False

/-- A result whose sign reports how two values are ordered. -/
def ReportsSign {α : Type} [LT α] (rc : Int) (left right : α) : Prop :=
  (rc < 0 ↔ left < right) ∧ (rc = 0 ↔ left = right)

/-- A result that reports it as -1, 0 or 1. -/
structure Reports {α : Type} [LT α] (rc : Int) (left right : α) : Prop where
  before : left < right → rc = -1
  same : left = right → rc = 0
  behind : right < left → rc = 1

section Lists

variable {rc : Int} {left right rest rest' : List Nat} {a b : Nat}

theorem Reports.sign {α : Type} [LinearOrder α] {left right : α} (reports : Reports rc left right) :
    ReportsSign rc left right := by
  rcases lt_trichotomy left right with before | same | behind
  · simp [ReportsSign, reports.before before, before, before.ne]
  · simp [ReportsSign, reports.same same, same]
  · simp [ReportsSign, reports.behind behind, behind.not_gt, behind.ne']

theorem reports_choice {α : Type} [Preorder α] (left right : α) [Decidable (left < right)] [Decidable (left = right)] :
    Reports (if left < right then -1 else if left = right then 0 else 1) left right := by
  constructor <;> intro order
  · rw [if_pos order]
  · rw [if_neg order.not_lt, if_pos order]
  · rw [if_neg order.not_gt, if_neg order.ne']

theorem reports_equal {α : Type} [Preorder α] (left : α) : Reports 0 left left :=
  ⟨fun order => absurd order (lt_irrefl left), fun _ => rfl, fun order => absurd order (lt_irrefl left)⟩

theorem reports_head (reports : Reports rc a b) (apart : a ≠ b) : Reports rc (a :: rest) (b :: rest') where
  before order := reports.before (by simpa [List.cons_lt_cons_iff, apart] using order)
  same equal := absurd (List.cons.inj equal).1 apart
  behind order := reports.behind (by simpa [List.cons_lt_cons_iff, apart.symm] using order)

theorem reports_rest (reports : Reports rc rest rest') : Reports rc (a :: rest) (a :: rest') where
  before order := reports.before (by simpa [List.cons_lt_cons_iff] using order)
  same equal := reports.same (List.cons.inj equal).2
  behind order := reports.behind (by simpa [List.cons_lt_cons_iff] using order)

theorem append_lt_append {first second : List Nat} (lengths : first.length = second.length) :
    first < second → first ++ rest < second ++ rest' := by
  induction first generalizing second with
  | nil => cases second with
    | nil => simp
    | cons c second => simp at lengths
  | cons b first ih => cases second with
    | nil => simp at lengths
    | cons c second =>
      simp only [List.cons_append, List.cons_lt_cons_iff]
      exact Or.imp_right (And.imp_right (ih (Nat.succ.inj lengths)))

theorem lt_append (front : List Nat) : front < front ++ a :: rest := by
  induction front with
  | nil => simp
  | cons b front ih => simpa [List.cons_lt_cons_iff] using ih

end Lists

theorem bytesOf_add (m : Mem) (n k : Nat) :
    bytesOf m (n + k) = bytesOf m n ++ (List.range k).map fun i => (m (n + i)).toNat := by
  simp [bytesOf, List.range_add]

section Reporting

variable {memcmp : Mem → Mem → Nat → Int} {upcase : Upcase} {key1 key2 : KeyData}

theorem ntfsCollateBinary_sign (compares : ComparesBytes memcmp) :
    ReportsSign (ntfsCollateBinary memcmp key1 key2) (bytesOf key1.data key1.len) (bytesOf key2.data key2.len) := by
  obtain ⟨negative, zero⟩ := compares key1.data key2.data (min key1.len key2.len)
  obtain ⟨more, first⟩ := Nat.exists_eq_add_of_le (Nat.min_le_left key1.len key2.len)
  obtain ⟨more', second⟩ := Nat.exists_eq_add_of_le (Nat.min_le_right key1.len key2.len)
  have shorter : more = 0 ∨ more' = 0 := by omega
  rw [ntfsCollateBinary]
  generalize memcmp key1.data key2.data (min key1.len key2.len) = rc at *
  generalize min key1.len key2.len = n at *
  rw [first, second, bytesOf_add, bytesOf_add]
  have lengths : (bytesOf key1.data n).length = (bytesOf key2.data n).length := by simp [bytesOf]
  rcases lt_trichotomy (bytesOf key1.data n) (bytesOf key2.data n) with before | same | behind
  · have apart : rc ≠ 0 := fun none => before.ne (zero.mp none)
    simp only [apart, false_and, if_false]
    exact ⟨iff_of_true (negative.mpr before) (append_lt_append lengths before),
      iff_of_false apart (ne_of_lt (append_lt_append lengths before))⟩
  · obtain rfl := zero.mpr same
    rw [same]
    rcases shorter with rfl | rfl
    · cases more' with
      | zero => simp [ReportsSign]
      | succ more' => simp [ReportsSign, List.range_succ_eq_map, lt_append]
    · cases more with
      | zero => simp [ReportsSign]
      | succ more => simp [ReportsSign, List.range_succ_eq_map, (lt_append _).le]
  · have apart : rc ≠ 0 := fun none => behind.ne' (zero.mp none)
    simp only [apart, false_and, if_false]
    exact ⟨iff_of_false (fun less => behind.not_gt (negative.mp less)) (lt_asymm (append_lt_append lengths.symm behind)),
      iff_of_false apart (ne_of_gt (append_lt_append lengths.symm behind))⟩

theorem cmpInt_eq (a b : Nat) : cmpInt a b = if a < b then -1 else if a = b then 0 else 1 := by
  rw [cmpInt]
  split_ifs <;> omega

theorem collateUlongsFrom_reports (n i : Nat) : Reports (collateUlongsFrom key1 key2 i (4 * (n + 1)))
    ((List.range' i (n + 1)).map key1.word) ((List.range' i (n + 1)).map key2.word) := by
  induction n generalizing i with
  | zero =>
    rw [collateUlongsFrom, if_neg (by omega), cmpInt_eq]
    by_cases same : key1.word i = key2.word i
    · simpa [same] using reports_equal [key2.word i]
    · exact reports_head (reports_choice _ _) same
  | succ n ih =>
    rw [collateUlongsFrom, List.range'_succ, List.map_cons, List.map_cons, cmpInt_eq,
      show 4 * (n + 1 + 1) - 4 = 4 * (n + 1) by omega]
    by_cases same : key1.word i = key2.word i
    · rw [if_pos ⟨same, by omega⟩, same]
      exact reports_rest (ih (i + 1))
    · rw [if_neg (fun both => same both.1)]
      exact reports_head (reports_choice _ _) same

theorem Reports.lex {left left' right right' : List Nat} {first second : Int} (reports : Reports first left left')
    (others : Reports second right right') :
    Reports (if first = 0 then second else first) (toLex (left, right)) (toLex (left', right')) := by
  rcases lt_trichotomy left left' with before | rfl | behind
  · rw [reports.before before]
    constructor <;> simp [Prod.Lex.lt_iff, before, before.ne, before.ne', before.not_gt]
  · rw [reports.same rfl]
    constructor <;> simp [Prod.Lex.lt_iff]
    · exact others.before
    · exact others.same
    · exact others.behind
  · rw [reports.behind behind]
    constructor <;> simp [Prod.Lex.lt_iff, behind, behind.ne, behind.ne', behind.not_gt]

theorem Reports.alone {left left' : List Nat} {rc : Int} (reports : Reports rc left left') :
    Reports rc (toLex (left, ([] : List Nat))) (toLex (left', [])) := by
  have pair := reports.lex (reports_equal ([] : List Nat))
  split at pair
  · rename_i none
    rwa [none]
  · exact pair

theorem ntfsCollateNames_reports (errVal : Int) (rule : CaseRule) {left right : Uname} (legal : LegalName upcase left) :
    Reports (ntfsCollateNames errVal rule upcase left right) (left.map (rule.char upcase)) (right.map (rule.char upcase)) := by
  rw [ntfsCollateNames_eq errVal rule legal]
  exact reports_choice _ _

/-- The rules that are not left to `memcmp` report the order of what they see as -1, 0 or 1. -/
theorem ntfsCollate_exact {rule : CollationRule} (fit : KeysFit upcase key1 key2 rule) (other : rule ≠ .binary) :
    Reports (ntfsCollate memcmp upcase key1 key2 rule) (rule.view upcase key1) (rule.view upcase key2) := by
  cases rule with
  | binary => exact absurd rfl other
  | fileName =>
    have exact_case := @ntfsCollateNames_reports upcase collationError .caseSensitive key1.fileName key2.fileName fit
    have plain (name : Uname) : name.map (CaseRule.char .caseSensitive upcase) = name := List.map_id'' (fun _ => rfl) name
    rw [plain, plain] at exact_case
    exact (ntfsCollateNames_reports collationError .ignoreCase fit).lex exact_case
  | ntofsUlong =>
    obtain ⟨length, length'⟩ := fit
    rw [ntfsCollate, ntfsCollateNtofsUlong, if_neg (by omega)]
    refine Reports.alone ?_
    by_cases same : key1.word 0 = key2.word 0
    · simpa [same] using reports_equal [key2.word 0]
    · exact reports_head (reports_choice _ _) same
  | ntofsUlongs =>
    obtain ⟨lengths, whole, some_word⟩ := fit
    have words : key1.len = 4 * (key1.len / 4 - 1 + 1) := by omega
    have reports := @collateUlongsFrom_reports key1 key2 (key1.len / 4 - 1) 0
    rw [← words, show key1.len / 4 - 1 + 1 = key1.len / 4 by omega, ← List.range_eq_range'] at reports
    rw [ntfsCollate, ntfsCollateNtofsUlongs, if_neg (by omega), CollationRule.view, CollationRule.view, ← lengths]
    exact reports.alone
  | other => exact fit.elim

/-- The comparison of two keys that fit a rule has the sign of their order. -/
theorem ntfsCollate_sign {rule : CollationRule} (compares : ComparesBytes memcmp) (fit : KeysFit upcase key1 key2 rule) :
    ReportsSign (ntfsCollate memcmp upcase key1 key2 rule) (rule.view upcase key1) (rule.view upcase key2) := by
  by_cases other : rule = .binary
  · subst other
    have sign := @ntfsCollateBinary_sign memcmp key1 key2 compares
    simpa [ReportsSign, ntfsCollate, CollationRule.view, Prod.Lex.lt_iff] using sign
  · exact (ntfsCollate_exact fit other).sign

/-- A key of two words. -/
def twoWords (first second : UInt8) : KeyData :=
  { data := fun i => if i = 0 then first else if i = 4 then second else 0, len := 8 }

/-- A `memcmp`. -/
def compareBytes (m m' : Mem) (n : Nat) : Int :=
  if bytesOf m n < bytesOf m' n then -1 else if bytesOf m n = bytesOf m' n then 0 else 1

/-- Keys of two words, of which the first words differ. -/
theorem ntfsCollate_sign_two_words :
    ReportsSign (ntfsCollate compareBytes ⟨[]⟩ (twoWords 1 9) (twoWords 2 0) .ntofsUlongs)
      (CollationRule.view ⟨[]⟩ (twoWords 1 9) .ntofsUlongs) (CollationRule.view ⟨[]⟩ (twoWords 2 0) .ntofsUlongs) :=
  ntfsCollate_sign (fun _ _ _ => (reports_choice _ _).sign) ⟨rfl, by decide, by decide⟩

/-- The search along the sorted keys of a node ends at the place of the key: behind the keys that
come before it, and at its own entry where there is one. -/
theorem ieLookupKeys_place {rule : CollationRule} {key : KeyData} {keys : List KeyData} (other : rule ≠ .binary)
    (fit : ∀ entry ∈ keys, KeysFit upcase key entry rule)
    (sorted : keys.Pairwise fun left right => rule.view upcase left < rule.view upcase right) (item : Nat) :
    ieLookupKeys (fun entry => ntfsCollate memcmp upcase key entry rule) keys item =
      some (item + keys.countP fun entry => decide (rule.view upcase entry < rule.view upcase key),
        decide (∃ entry ∈ keys, rule.view upcase entry = rule.view upcase key)) := by
  induction keys generalizing item with
  | nil => simp [ieLookupKeys]
  | cons first rest ih =>
    obtain ⟨behind, sorted⟩ := List.pairwise_cons.mp sorted
    have reports := @ntfsCollate_exact memcmp upcase key first rule (fit first List.mem_cons_self) other
    -- nothing in the rest comes before a key that does not come behind the first entry
    have none_before (least : rule.view upcase key ≤ rule.view upcase first) :
        (rest.countP fun entry => decide (rule.view upcase entry < rule.view upcase key)) = 0 :=
      List.countP_eq_zero.mpr fun entry listed => by simpa using (least.trans_lt (behind entry listed)).le
    have ended : (-1 : Int) ≠ collationError ∧ (0 : Int) ≠ collationError ∧ (1 : Int) ≠ collationError := by decide
    rw [ieLookupKeys]
    rcases lt_trichotomy (rule.view upcase key) (rule.view upcase first) with before | same | later
    · have absent : ¬ ∃ entry ∈ first :: rest, rule.view upcase entry = rule.view upcase key := by
        rintro ⟨entry, listed, equal⟩
        rcases List.mem_cons.mp listed with rfl | listed
        · exact before.ne' equal
        · exact (before.trans (behind entry listed)).ne' equal
      rw [reports.before before, if_neg ended.1, if_pos rfl, decide_eq_false absent,
        List.countP_cons_of_neg (by simpa using before.le), none_before before.le]
      rfl
    · have present : ∃ entry ∈ first :: rest, rule.view upcase entry = rule.view upcase key :=
        ⟨first, List.mem_cons_self, same.symm⟩
      rw [reports.same same, if_neg ended.2.1, if_neg (by decide), if_pos rfl, decide_eq_true present,
        List.countP_cons_of_neg (by simpa using same.le), none_before same.le]
      rfl
    · have others := ih (fun entry listed => fit entry (List.mem_cons_of_mem _ listed)) sorted (item + 1)
      rw [reports.behind later, if_neg ended.2.2, if_neg (by decide), if_neg (by decide), others,
        List.countP_cons_of_pos (by simpa using later)]
      simp [later.ne, Nat.add_assoc, Nat.add_comm 1]

/-- The second of two entries is found. -/
theorem ieLookupKeys_two_entries :
    ieLookupKeys (fun entry => ntfsCollate compareBytes ⟨[]⟩ (twoWords 2 0) entry .ntofsUlongs)
      [twoWords 1 9, twoWords 2 0] 0 = some (1, true) := by
  have view (first second : UInt8) : CollationRule.view ⟨[]⟩ (twoWords first second) .ntofsUlongs =
      toLex ([first.toNat, second.toNat], []) := by
    simp [CollationRule.view, twoWords, KeyData.word, getLE, List.range_succ]
  refine (ieLookupKeys_place (by decide) (fun entry listed => ?_) ?_ 0).trans ?_
  · simp only [List.mem_cons, List.not_mem_nil, or_false] at listed
    rcases listed with rfl | rfl <;> exact ⟨rfl, by decide, by decide⟩
  · simp [view, Prod.Lex.lt_iff, List.cons_lt_cons_iff]
  · simp [view, Prod.Lex.lt_iff, List.cons_lt_cons_iff]

end Reporting

end Ttntfs.Ntfs
