import Ttntfs.Ntfs.IndexChange

/-!
# The entry that a name resolves to

A lookup ends at an entry of the directory and keeps what it has found: nothing but the
reference for an entry of exactly the name, and the name of an entry that differs from it
in case. An entry that can be found in its index by its own name has no characters that the
collation refuses.
-/

namespace Ttntfs.Ntfs

section Equality

variable {upcase : Upcase} {left right : Uname}

/-- Names that collate equal are equal by the rule, and none of the characters was refused. -/
theorem ntfsCollateNames_zero {errVal : Int} {rule : CaseRule} (fails : errVal ≠ 0)
    (equal : ntfsCollateNames errVal rule upcase left right = 0) :
    (∀ c ∈ left, isRefusedChar (rule.char upcase c) = false) ∧
      left.map (rule.char upcase) = right.map (rule.char upcase) := by
  induction left generalizing right with
  | nil =>
    cases right with
    | nil => exact ⟨by simp, rfl⟩
    | cons c rest => simp [ntfsCollateNames] at equal
  | cons c1 rest1 ih =>
    cases right with
    | nil =>
      rw [ntfsCollateNames] at equal
      split at equal
      · exact absurd equal fails
      · simp at equal
    | cons c2 rest2 =>
      rw [ntfsCollateNames] at equal
      split at equal
      · exact absurd equal fails
      rename_i taken
      split at equal
      · simp at equal
      rename_i notBelow
      split at equal
      · simp at equal
      rename_i notAbove
      obtain ⟨restTaken, restSame⟩ := ih equal
      have same : rule.char upcase c1 = rule.char upcase c2 := by omega
      refine ⟨?_, by rw [List.map_cons, List.map_cons, same, restSame]⟩
      intro c listed
      rcases List.mem_cons.mp listed with rfl | behind
      · simpa using taken
      · exact restTaken c behind

theorem legal_of_collates (equal : ntfsCollateFileName upcase left right = 0) : LegalName upcase left := by
  rw [ntfsCollateFileName] at equal
  split at equal
  · rename_i loosely
    obtain ⟨upper, _⟩ := ntfsCollateNames_zero (by decide) loosely
    obtain ⟨plain, _⟩ := ntfsCollateNames_zero (by decide) equal
    exact fun c listed => ⟨plain c listed, upper c listed⟩
  · rename_i apart
    exact absurd equal apart

end Equality

section Found

variable {upcase : Upcase} {dir : DirectoryIndex} {name : Uname} {key : IndexKey}

/-- A node in which a name is found, or below which it is, says that it has no refused
characters. -/
theorem keyBelow_legal {next : Int → Except NameError (Option IndexKey)}
    (children : ∀ vcn key, next vcn = .ok (some key) → LegalName upcase name) {entries : List IndexEntry}
    (found : keyBelow next (ntfsIeLookup upcase name entries) = .ok (some key)) : LegalName upcase name := by
  have below {child : Option Int} (reached : keyBelow next (.stopped child) = .ok (some key)) :
      LegalName upcase name := by
    cases child with
    | none => cases reached
    | some vcn =>
      rw [keyBelow] at reached
      split at reached
      · cases reached
      · exact children vcn key reached
  induction entries with
  | nil => cases found
  | cons entry rest ih =>
    cases entry with
    | corrupt => cases found
    | last child => exact below found
    | named other child =>
      rw [ntfsIeLookup] at found
      split at found
      · cases found
      · split at found
        · exact below found
        · split at found
          · rename_i equal
            exact legal_of_collates equal
          · exact ih found

theorem lookupBelow_legal (levels : Nat) :
    ∀ vcn key, lookupBelow upcase dir name levels vcn = .ok (some key) → LegalName upcase name := by
  induction levels with
  | zero =>
    intro vcn key found
    cases found
  | succ levels ih =>
    intro vcn key found
    rw [lookupBelow] at found
    cases node : dir.block vcn with
    | none => simp [node] at found
    | some block =>
      simp only [node] at found
      apply keyBelow_legal _ found
      intro child other inner
      split at inner
      · cases inner
      · exact ih child other inner

theorem ntfsIndexLookup_legal (found : ntfsIndexLookup upcase dir name = .ok (some key)) :
    LegalName upcase name :=
  keyBelow_legal (lookupBelow_legal _) found

end Found

section Entry

variable {vol : NameVolume} {uname : Uname} {dir : DirectoryIndex} {keys : List IndexKey} {ino : Nat}

/-- The entry at which a lookup of a name has ended. -/
def EndsAt (uname : Uname) (result : LookupResult) (key : IndexKey) : Prop :=
  result.mref = .ok key.mref ∧
    ((result.res = none ∧ key.name = uname ∧ key.type ≠ .dos) ∨ result.res = some (keptName key))

/-- A name that is kept is that of an entry. -/
def KeptFrom (known : IndexKey → Prop) (name : Option NtfsName) : Prop :=
  ∀ kept, name = some kept → ∃ key, known key ∧ keptName key = kept

variable {known : IndexKey → Prop} {below : Int → Option (List IndexKey)}
  {next : Int → Option NtfsName → LookupResult} {name : Option NtfsName}

/-- A search below an entry ends at an entry. -/
def EndsBelow (known : IndexKey → Prop) (uname : Uname) (below : Int → Option (List IndexKey))
    (next : Int → Option NtfsName → LookupResult) : Prop :=
  ∀ vcn keys name ino, below vcn = some keys → (∀ key ∈ keys, known key) → KeptFrom known name →
    (next vcn name).mref = .ok ino → ∃ key, known key ∧ EndsAt uname (next vcn name) key

theorem afterNode_found {key : IndexKey} (listed : known key) (same : key.name = uname) :
    ∃ other, known other ∧ EndsAt uname (afterNode next (.found key)) other := by
  refine ⟨key, listed, rfl, ?_⟩
  by_cases dos : key.type = .dos
  · exact .inr (by simp [afterNode, keptName, dos])
  · exact .inl ⟨by simp [afterNode, dos], same, dos⟩

theorem afterNode_stopped {child : Option Int} (children : EndsBelow known uname below next)
    (listed : listChild below child = some keys) (all : ∀ key ∈ keys, known key)
    (kept : KeptFrom known name) (success : (afterNode next (.stopped child name)).mref = .ok ino) :
    ∃ key, known key ∧ EndsAt uname (afterNode next (.stopped child name)) key := by
  cases child with
  | some vcn => exact children vcn keys name ino listed all kept success
  | none =>
    cases name with
    | none => cases success
    | some found =>
      obtain ⟨key, there, rfl⟩ := kept found rfl
      exact ⟨key, there, rfl, .inr rfl⟩

/-- The search of a node ends at an entry of it or below. -/
theorem searchNode_endsAt {entries : List IndexEntry} (text : ∀ key, known key → 0 ∉ key.name)
    (children : EndsBelow known uname below next) (listed : listEntries keyOnly below entries = some keys)
    (all : ∀ key ∈ keys, known key) (kept : KeptFrom known name)
    (success : (afterNode next (searchNode vol uname entries name)).mref = .ok ino) :
    ∃ key, known key ∧ EndsAt uname (afterNode next (searchNode vol uname entries name)) key := by
  induction entries generalizing keys name with
  | nil => cases listed
  | cons entry rest ih =>
    cases entry with
    | corrupt => cases listed
    | last child => exact afterNode_stopped children listed all kept success
    | named key child =>
      obtain ⟨left, right, leftKeys, rightKeys, rfl⟩ := listEntries_named keyOnly listed
      have here : known key := all key (by simp [keyOnly])
      have atLeft (other : IndexKey) (member : other ∈ left) : known other := all other (by simp [member])
      have atRight (other : IndexKey) (member : other ∈ right) : known other := all other (by simp [member])
      have keptHere : KeptFrom known (if isCandidate vol uname key then some (keptName key) else name) := by
        intro found same
        split at same
        · exact ⟨key, here, Option.some.inj same⟩
        · exact kept found same
      rw [searchNode] at success ⊢
      by_cases exact_match : ntfsAreNamesEqual uname key.name .caseSensitive vol.upcase = true
      · rw [if_pos exact_match]
        exact afterNode_found here ((ntfsAreNamesEqual_exact (text key here)).mp exact_match).symm
      rw [if_neg exact_match] at success ⊢
      by_cases another : isCandidate vol uname key = true ∧ name.isSome = true
      · rw [if_pos another] at success ⊢
        exact ih rightKeys atRight kept success
      rw [if_neg another] at success ⊢
      dsimp only at success ⊢
      by_cases before : ntfsCollateNames 1 .ignoreCase vol.upcase uname key.name = -1
      · rw [if_pos before] at success ⊢
        exact afterNode_stopped children leftKeys atLeft keptHere success
      rw [if_neg before] at success ⊢
      by_cases behind : ntfsCollateNames 1 .ignoreCase vol.upcase uname key.name ≠ 0
      · rw [if_pos behind] at success ⊢
        exact ih rightKeys atRight keptHere success
      rw [if_neg behind] at success ⊢
      by_cases exactlyBefore : ntfsCollateNames 1 .caseSensitive vol.upcase uname key.name = -1
      · rw [if_pos exactlyBefore] at success ⊢
        exact afterNode_stopped children leftKeys atLeft keptHere success
      rw [if_neg exactlyBefore] at success ⊢
      by_cases exactlyBehind : ntfsCollateNames 1 .caseSensitive vol.upcase uname key.name ≠ 0
      · rw [if_pos exactlyBehind] at success ⊢
        exact ih rightKeys atRight keptHere success
      · rw [if_neg exactlyBehind]
        obtain ⟨_, same⟩ := ntfsCollateNames_zero (by decide) (not_not.mp exactlyBehind)
        have plain : CaseRule.char .caseSensitive vol.upcase = id := rfl
        rw [plain, List.map_id, List.map_id] at same
        exact afterNode_found here same.symm

/-- The descent into the child nodes ends at an entry. -/
theorem descendIntoChild_endsAt (text : ∀ key, known key → 0 ∉ key.name) (depth : Nat) :
    EndsBelow known uname (listBlock keyOnly dir depth) (descendIntoChild vol dir uname depth) := by
  induction depth with
  | zero =>
    intro vcn keys name ino listed
    cases listed
  | succ depth ih =>
    intro vcn keys name ino listed all kept success
    rw [listBlock] at listed
    rw [descendIntoChild] at success ⊢
    cases node : dir.block vcn with
    | none => simp [node] at listed
    | some block =>
      simp only [node] at listed success ⊢
      refine searchNode_endsAt text ?_ listed all kept success
      intro child childKeys childName childIno childListed childAll childKept childSuccess
      dsimp only at childListed childSuccess ⊢
      split at childListed
      · cases childListed
      · rename_i inner
        rw [if_neg inner] at childSuccess ⊢
        exact ih child childKeys childName childIno childListed childAll childKept childSuccess

theorem lookup_endsAt {depth : Nat} (index : WellFormedIndex vol.upcase dir depth keys)
    (success : (ntfsLookupInodeByName vol dir depth uname).mref = .ok ino) :
    ∃ key ∈ keys, EndsAt uname (ntfsLookupInodeByName vol dir depth uname) key := by
  have kept : KeptFrom (· ∈ keys) none := by
    intro found impossible
    cases impossible
  exact searchNode_endsAt index.keys.text (descendIntoChild_endsAt index.keys.text depth) index.listed
    (fun _ listed => listed) kept success

end Entry

end Ttntfs.Ntfs
