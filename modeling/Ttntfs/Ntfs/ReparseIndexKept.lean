import Ttntfs.Ntfs.ReparseBounds
import Ttntfs.Ntfs.ReparseIndex

/-!
# When the index follows the attribute

A call that sets a value keeps the promise, that there is exactly the value and its key or nothing
new, where every step after the creation of the attribute is carried out. A key that cannot be
added takes the attribute with it, and the call succeeds all the same.
-/

namespace Ttntfs.Ntfs

open Ttntfs.Library.ByteMemory

/-- The keys of an inode. -/
def reparseKeysOf (mref : Nat) (index : Finset ReparseIndexKey) : Finset ReparseIndexKey :=
  index.filter fun key => key.fileId = mref

@[simp] theorem mem_reparseKeysOf {mref : Nat} {index : Finset ReparseIndexKey} {key : ReparseIndexKey} :
    key ∈ reparseKeysOf mref index ↔ key ∈ index ∧ key.fileId = mref := Finset.mem_filter

theorem reparseKeysOf_erase (mref : Nat) (index : Finset ReparseIndexKey) (key : ReparseIndexKey) :
    reparseKeysOf mref (index.erase key) = (reparseKeysOf mref index).erase key :=
  Finset.filter_erase ..

theorem reparseKeysOf_insert (mref tag : Nat) (index : Finset ReparseIndexKey) :
    reparseKeysOf mref (insert ⟨tag, mref⟩ index) = insert ⟨tag, mref⟩ (reparseKeysOf mref index) := by
  rw [reparseKeysOf, Finset.filter_insert, if_pos rfl, reparseKeysOf]

/-! ## The steps -/

section Removal

variable (course : RemoveCourse) (mref : Nat) (old : List UInt8) (index : Finset ReparseIndexKey)

/-- The keys that are left where the key of the old value has been looked for and taken out. -/
def remainingKeys : Finset ReparseIndexKey :=
  if old.length = 0 ∨ course.searched = false then reparseKeysOf mref index
  else (reparseKeysOf mref index).erase ⟨reparseTag old, mref⟩

/-- The removal of the old key is carried out, or there is nothing that it finds. -/
def RemovalRuns : Prop :=
  old.length = 0 ∨
    course.tagRead = true ∧ 4 ≤ old.length ∧ 0 ≤ sizeAsInt old.length ∧
      (course.searched = true → (⟨reparseTag old, mref⟩ : ReparseIndexKey) ∈ index → course.removal = .removed)

variable {course mref old index}

/-- A removal that is carried out returns the old size and leaves the remaining keys. -/
theorem removeReparseIndex_runs (runs : RemovalRuns course mref old index) :
    ∃ left, removeReparseIndex course mref old index = (sizeAsInt old.length, left) ∧
      0 ≤ sizeAsInt old.length ∧ left ⊆ index ∧ reparseKeysOf mref left = remainingKeys course mref old index := by
  unfold removeReparseIndex remainingKeys
  by_cases empty : old.length = 0
  · refine ⟨index, ?_, ?_, Finset.Subset.refl _, ?_⟩
    · rw [if_pos empty, empty]
      rfl
    · rw [empty]
      decide
    · rw [if_pos (.inl empty)]
  obtain ⟨tagRead, long, size, removal⟩ := runs.resolve_left empty
  rw [if_neg empty, if_neg (by simp [tagRead]; omega)]
  cases searched : course.searched
  case false => exact ⟨index, by simp, size, Finset.Subset.refl _, by simp⟩
  by_cases there : (⟨reparseTag old, mref⟩ : ReparseIndexKey) ∈ index
  · refine ⟨index.erase ⟨reparseTag old, mref⟩, by simp [there, removal searched there], size,
      Finset.erase_subset .., ?_⟩
    rw [reparseKeysOf_erase, if_neg (by simp [empty])]
  · refine ⟨index, by simp [there], size, Finset.Subset.refl _, ?_⟩
    rw [if_neg (by simp [empty]), Finset.erase_eq_of_notMem fun held => there (mem_reparseKeysOf.mp held).1]

/-- A removal that is not carried out returns a failure and adds no key. -/
theorem removeReparseIndex_fails (fails : ¬ RemovalRuns course mref old index) :
    (removeReparseIndex course mref old index).1 < 0 ∧ (removeReparseIndex course mref old index).2 ⊆ index := by
  simp only [RemovalRuns, not_or, not_and] at fails
  obtain ⟨filled, stops⟩ := fails
  unfold removeReparseIndex
  rw [if_neg filled]
  by_cases unread : (!course.tagRead || decide (old.length < 4)) = true
  · rw [if_pos unread]
    exact ⟨neg_lt_zero.mpr (by decide), Finset.Subset.refl _⟩
  rw [if_neg unread]
  have tagRead : course.tagRead = true ∧ 4 ≤ old.length := by simpa using unread
  have stops := stops tagRead.1 tagRead.2
  by_cases found : (course.searched && decide ((⟨reparseTag old, mref⟩ : ReparseIndexKey) ∈ index)) = true
  · simp only [found, if_true]
    cases ending : course.removal with
    | removed =>
      have negative : sizeAsInt old.length < 0 := not_le.mp fun size => stops size fun _ _ => ending
      dsimp only
      exact ⟨negative, Finset.erase_subset ..⟩
    | failed code gone =>
      dsimp only
      refine ⟨code.2, ?_⟩
      cases gone
      · exact Finset.Subset.refl _
      · exact Finset.erase_subset ..
  · simp only [found, Bool.false_eq_true, if_false]
    have negative : sizeAsInt old.length < 0 :=
      not_le.mp fun size => stops size fun searched there => absurd (by simp [searched, there]) found
    exact ⟨negative, Finset.Subset.refl _⟩

theorem reparseKeysOf_subset {left : Finset ReparseIndexKey} (fewer : left ⊆ index) : reparseKeysOf mref left ⊆ reparseKeysOf mref index :=
  Finset.filter_subset_filter _ fewer

end Removal

section Update

variable (course : UpdateCourse) (mref : Nat) (value old : List UInt8) (index : Finset ReparseIndexKey)

/-- Every step that can end an update is carried out. -/
def UpdateRuns : Prop :=
  course.opened = true ∧ RemovalRuns course.remove mref old index ∧ course.write = none

/-- The value is not shorter than the old one, and its key is added where no key remains; or the key
remains, and the attribute is not taken away for it. -/
def Indexed : Prop :=
  old.length ≤ value.length ∧
    (remainingKeys course.remove mref old index = ∅ ∧ course.room = true ∨
      remainingKeys course.remove mref old index = {⟨reparseTag value, mref⟩} ∧
        (old.length = 0 ∨ course.attrRemoved = false))

variable {course mref value old index} {s : ReparseState}

theorem failure_ne {code : Int} (positive : 0 < code) : -code ≠ 0 := by omega

variable (value) in
/-- An update that ends early returns a failure. It adds no key and leaves an attribute. -/
theorem updateReparseData_fails (there : s.point = some old) (fails : ¬ UpdateRuns course mref old s.index) :
    (updateReparseData course mref value s).1 ≠ 0 ∧ (updateReparseData course mref value s).2.point.isSome ∧
      (updateReparseData course mref value s).2.index ⊆ s.index := by
  unfold updateReparseData
  rw [there]
  cases opened : course.opened
  case false => exact ⟨failure_ne (by decide), by simp [there], Finset.Subset.refl _⟩
  simp only [Bool.not_true, Bool.false_eq_true, if_false]
  by_cases removal : RemovalRuns course.remove mref old s.index
  · obtain ⟨left, removed, size, fewer, kept⟩ := removeReparseIndex_runs removal
    obtain ⟨rest, write⟩ := Option.ne_none_iff_exists'.mp fun written => fails ⟨opened, removal, written⟩
    simp only [removed, not_lt.mpr size, if_false, write]
    exact ⟨failure_ne (by decide), rfl, fewer⟩
  · obtain ⟨negative, fewer⟩ := removeReparseIndex_fails removal
    simp only [negative, if_true]
    exact ⟨negative.ne, rfl, fewer⟩

theorem sizeAsInt_short {size : Nat} (short : size < 2 ^ 31) : sizeAsInt size = size := by
  have bound : ((2 ^ 32 : Nat) : Int) = 4294967296 := by norm_num
  exact Int.bmod_eq_of_le (by omega) (by omega)

theorem overwritten_eq : overwritten value old = value ↔ old.length ≤ value.length := by
  rw [overwritten, List.append_right_eq_self, List.drop_eq_nil_iff]

/-- An update that runs to its end succeeds, and it keeps the promise where the value is indexed. -/
theorem updateReparseData_runs (there : s.point = some old) (runs : UpdateRuns course mref old s.index)
    (short : value.length < 2 ^ 31) :
    (updateReparseData course mref value s).1 = 0 ∧
      ((updateReparseData course mref value s).2.point = some value ∧
        reparseKeysOf mref (updateReparseData course mref value s).2.index = {⟨reparseTag value, mref⟩} ↔
          Indexed course mref value old s.index) := by
  obtain ⟨opened, removal, write⟩ := runs
  obtain ⟨left, removed, size, fewer, kept⟩ := removeReparseIndex_runs removal
  unfold updateReparseData Indexed
  rw [there]
  simp only [opened, Bool.not_true, Bool.false_eq_true, if_false, removed, not_lt.mpr size, write, true_and, ← kept]
  by_cases fits : old.length ≤ value.length
  case neg =>
    have cut : overwritten value old ≠ value := fun same => fits (overwritten_eq.mp same)
    have lost : (if (!(setReparseIndex course.room mref (reparseTag value) left).1 &&
        decide (sizeAsInt old.length > 0) && course.attrRemoved) = true then none
          else some (overwritten value old)) ≠ some value := by
      split
      · exact nofun
      · exact fun same => cut (Option.some.inj same)
    exact ⟨fun kept => absurd kept.1 lost, fun indexed => absurd indexed.1 fits⟩
  rw [overwritten_eq.mpr fits, sizeAsInt_short (by omega)]
  have member : (⟨reparseTag value, mref⟩ : ReparseIndexKey) ∈ left ↔
      (⟨reparseTag value, mref⟩ : ReparseIndexKey) ∈ reparseKeysOf mref left := by simp
  by_cases held : (⟨reparseTag value, mref⟩ : ReparseIndexKey) ∈ left
  · -- the key is there already, so that it is not added
    have filled : reparseKeysOf mref left ≠ ∅ := fun none => by simp [none] at member; exact member held
    simp only [setReparseIndex, held, decide_true, Bool.or_true, if_true, fits, filled, false_and, false_or, true_and]
    cases attrRemoved : course.attrRemoved <;> by_cases empty : old.length = 0 <;> simp [empty]
  · have others : reparseKeysOf mref left ≠ {⟨reparseTag value, mref⟩} := fun one => held (member.mpr (by simp [one]))
    cases room : course.room
    · simp [setReparseIndex, others]
    · simp only [setReparseIndex, held, decide_false, Bool.or_self, Bool.not_true, Bool.false_eq_true, if_false,
        Bool.false_and, true_and, and_true, fits, others, false_and, or_false, reparseKeysOf_insert]
      refine ⟨fun one => ?_, fun none => by rw [none]; rfl⟩
      rw [← Finset.erase_insert fun there => held (member.mpr there), one, Finset.erase_singleton]

end Update

/-! ## The calls -/

section Calls

variable (course : SetCourse) (ni : ReparseInode) (value : List UInt8) (s : ReparseState)

/-- A value that has been set is in the attribute, and its key is the one key of the inode; a call
that fails adds neither an attribute nor a key. -/
def SetPromise : Prop :=
  ((ntfsSetNtfsReparseData course ni value s).1 = 0 →
      (ntfsSetNtfsReparseData course ni value s).2.point = some value ∧
        reparseKeysOf ni.mref (ntfsSetNtfsReparseData course ni value s).2.index = {⟨reparseTag value, ni.mref⟩}) ∧
    ((ntfsSetNtfsReparseData course ni value s).1 ≠ 0 →
      ((ntfsSetNtfsReparseData course ni value s).2.point.isSome → s.point.isSome) ∧
        reparseKeysOf ni.mref (ntfsSetNtfsReparseData course ni value s).2.index ⊆ reparseKeysOf ni.mref s.index)

/-- The value is one that may be set, and an attribute may be added where none is found. -/
def SetAdmitted : Prop :=
  validReparseData ni.recallOnOpen ni.isDir value = some true ∧ course.indexOpened = true ∧
    (course.seen = true ∧ s.point.isSome ∨ 3 ≤ ni.majorVer)

/-- There is an attribute to update: it has been found, or it has been added. -/
def PointReady : Prop := course.seen = true ∧ s.point.isSome ∨ s.point = none ∧ course.add = none

/-- The old value of the update, the empty header where the attribute has been added for it. -/
def oldValue : List UInt8 := s.point.getD (List.replicate reparsePointSize 0)

/-- Where the promise of setting a value is kept. An addition that fails leaves nothing; an update that
ends early has not been made for a new attribute; and one that runs to its end indexes the value. -/
structure SetKept : Prop where
  addition : s.point = none → ∀ code left, course.add = some (code, left) → left = none
  early : PointReady course s → ¬ UpdateRuns course.update ni.mref (oldValue s) s.index → s.point.isSome
  whole : PointReady course s → UpdateRuns course.update ni.mref (oldValue s) s.index →
    Indexed course.update ni.mref value (oldValue s) s.index

variable {course ni value s}

theorem validReparseData_fits (valid : validReparseData ni.recallOnOpen ni.isDir value = some true) :
    value.length < 2 ^ 31 := by
  have long : 6 ≤ value.length := by
    by_contra short
    rw [validReparseData_short (not_le.mp short)] at valid
    cases valid
  have size := ((validReparseData_iff long).mp valid).size
  have data : reparseDataLength value < 256 ^ 2 := getLE_lt (fun i => value.getD i 0) 2 4
  have bound : 256 ^ 2 = 65536 := rfl
  simp only [reparsePointSize, guidSize] at size
  split at size <;> omega

/-- A call that is not admitted changes nothing. -/
theorem ntfsSetNtfsReparseData_refused (refused : ¬ SetAdmitted course ni value s) :
    (ntfsSetNtfsReparseData course ni value s).1 ≠ 0 ∧ (ntfsSetNtfsReparseData course ni value s).2 = s := by
  unfold ntfsSetNtfsReparseData
  by_cases valid : validReparseData ni.recallOnOpen ni.isDir value = some true
  case neg => rw [if_pos valid]; exact ⟨failure_ne (by decide), rfl⟩
  rw [if_neg (not_not.mpr valid)]
  cases indexOpened : course.indexOpened
  case false => exact ⟨failure_ne (by decide), rfl⟩
  simp only [SetAdmitted, valid, indexOpened, true_and, not_or, not_and, not_le] at refused
  have absent : (course.seen && s.point.isSome) = false := by
    cases seen : course.seen
    · rfl
    · simpa using refused.1 seen
  simp only [Bool.not_true, Bool.false_eq_true, if_false, absent, Bool.not_false, Bool.true_and, refused.2,
    decide_true, if_true]
  exact ⟨failure_ne (by decide), trivial⟩

/-- A call that is admitted adds the attribute where it finds none, and updates it. -/
theorem ntfsSetNtfsReparseData_admitted (admitted : SetAdmitted course ni value s) :
    ntfsSetNtfsReparseData course ni value s =
      let added := if course.seen && s.point.isSome then (0, s) else addReparseAttribute course.add (reparseTag value) s
      if added.1 ≠ 0 then added
      else
        let updated := updateReparseData course.update ni.mref value added.2
        (updated.1, if updated.1 ≠ 0 then { updated.2 with flagged := false } else updated.2) := by
  obtain ⟨valid, indexOpened, place⟩ := admitted
  have allowed : ¬ ((!(course.seen && s.point.isSome) && decide (ni.majorVer < 3)) = true) := by
    rcases place with ⟨seen, there⟩ | version
    · simp [seen, there]
    · simp [not_lt.mpr version]
  unfold ntfsSetNtfsReparseData
  rw [if_neg (not_not.mpr valid), indexOpened]
  simp only [Bool.not_true, Bool.false_eq_true, if_false, if_neg allowed]

theorem addReparseAttribute_fails {code : FailureCode} {left : Option (List UInt8)} {tag : Nat}
    (absent : s.point = none) :
    addReparseAttribute (some (code, left)) tag s = (code.1, { s with point := left }) := by
  simp only [addReparseAttribute, absent]

theorem addReparseAttribute_adds {tag : Nat} (absent : s.point = none) :
    addReparseAttribute none tag s =
      (0, { s with point := some (List.replicate reparsePointSize 0), flagged := true, tagOfInode := tag }) := by
  simp only [addReparseAttribute, absent]

variable (value s) in
/-- What an update of an attribute that is there does for the promise. -/
theorem updated_promise (s₀ : ReparseState) {old : List UInt8} (course : UpdateCourse) (mref : Nat)
    (there : s₀.point = some old) (same : s₀.index = s.index) (fits : value.length < 2 ^ 31) :
    let updated := updateReparseData course mref value s₀
    let out := if updated.1 ≠ 0 then { updated.2 with flagged := false } else updated.2
    (updated.1 = 0 → out.point = some value ∧ reparseKeysOf mref out.index = {⟨reparseTag value, mref⟩}) ∧
        (updated.1 ≠ 0 → (out.point.isSome → s.point.isSome) ∧ reparseKeysOf mref out.index ⊆ reparseKeysOf mref s.index) ↔
      (¬ UpdateRuns course mref old s.index → s.point.isSome) ∧
        (UpdateRuns course mref old s.index → Indexed course mref value old s.index) := by
  intro updated out
  rw [← same]
  by_cases runs : UpdateRuns course mref old s₀.index
  · obtain ⟨succeeds, indexed⟩ := updateReparseData_runs there runs fits
    have kept : out = updated.2 := if_neg (not_not.mpr succeeds)
    rw [kept]
    exact ⟨fun ⟨whole, _⟩ => ⟨fun stopped => absurd runs stopped, fun _ => indexed.mp (whole succeeds)⟩,
      fun ⟨_, whole⟩ => ⟨fun _ => indexed.mpr (whole runs), fun fails => absurd succeeds fails⟩⟩
  · obtain ⟨fails, left, fewer⟩ := updateReparseData_fails value there runs
    have kept : out = { updated.2 with flagged := false } := if_pos fails
    rw [kept]
    exact ⟨fun ⟨_, nothing⟩ => ⟨fun _ => (nothing fails).1 left, fun ran => absurd ran runs⟩,
      fun ⟨before, _⟩ => ⟨fun succeeds => absurd succeeds fails,
        fun _ => ⟨fun _ => before runs, reparseKeysOf_subset fewer⟩⟩⟩

/-- The promise of setting a value is kept exactly where `SetKept` says. -/
theorem setPromise_iff :
    SetPromise course ni value s ↔ (SetAdmitted course ni value s → SetKept course ni value s) := by
  by_cases admitted : SetAdmitted course ni value s
  case neg =>
    obtain ⟨fails, same⟩ := ntfsSetNtfsReparseData_refused admitted
    refine ⟨fun _ enters => absurd enters admitted, fun _ => ⟨fun succeeds => absurd succeeds fails, fun _ => ?_⟩⟩
    rw [same]
    exact ⟨id, Finset.Subset.refl _⟩
  have fits := validReparseData_fits admitted.1
  rw [SetPromise, ntfsSetNtfsReparseData_admitted admitted, forall_prop_of_true admitted]
  by_cases found : (course.seen && s.point.isSome) = true
  · obtain ⟨seen, there⟩ : course.seen = true ∧ s.point.isSome = true := by simpa using found
    obtain ⟨old, old_eq⟩ := Option.isSome_iff_exists.mp there
    have promise := updated_promise value s s course.update ni.mref old_eq rfl fits
    simp only [found, if_true, ne_eq, not_true, if_false] at promise ⊢
    have value_eq : oldValue s = old := by rw [oldValue, old_eq, Option.getD_some]
    have ready : PointReady course s := .inl ⟨seen, there⟩
    rw [promise, ← value_eq]
    exact ⟨fun ⟨early, whole⟩ => ⟨fun none => absurd none (Option.isSome_iff_ne_none.mp there),
        fun _ => early, fun _ => whole⟩,
      fun kept => ⟨kept.early ready, kept.whole ready⟩⟩
  simp only [found, Bool.false_eq_true, if_false]
  cases point : s.point with
  | some old =>
    have unseen : course.seen = false := by simpa [point] using found
    have unready : ¬ PointReady course s := by simp [PointReady, unseen, point]
    have fails : -reparseEexist ≠ 0 := failure_ne (by decide)
    simp only [addReparseAttribute, point, fails, ne_eq, not_false_eq_true, if_true]
    exact ⟨fun _ => ⟨fun none => by simp [point] at none, fun ready => absurd ready unready,
        fun ready => absurd ready unready⟩,
      fun _ => ⟨nofun, fun _ => ⟨fun _ => rfl, Finset.Subset.refl _⟩⟩⟩
  | none =>
    cases add : course.add with
    | some failure =>
      obtain ⟨code, left⟩ := failure
      have unready : ¬ PointReady course s := by simp [PointReady, point, add]
      have fails : code.1 ≠ 0 := code.2.ne
      rw [addReparseAttribute_fails point, if_pos fails]
      refine ⟨fun promise => ⟨fun _ other rest eq => ?_, fun ready => absurd ready unready,
          fun ready => absurd ready unready⟩,
        fun kept => ⟨fun succeeds => absurd succeeds fails, fun _ => ⟨fun there => ?_, Finset.Subset.refl _⟩⟩⟩
      · rw [add] at eq
        cases eq
        exact Option.not_isSome_iff_eq_none.mp fun there => by simpa [point] using (promise.2 fails).1 there
      · rw [kept.addition point code left add] at there
        exact there
    | none =>
      have ready : PointReady course s := .inr ⟨point, add⟩
      have value_eq : oldValue s = List.replicate reparsePointSize 0 := by rw [oldValue, point, Option.getD_none]
      rw [addReparseAttribute_adds point, if_neg (not_not.mpr rfl), ← point]
      have promise := updated_promise value s
        { s with point := some (List.replicate reparsePointSize 0), flagged := true, tagOfInode := reparseTag value }
        course.update ni.mref rfl rfl fits
      refine promise.trans ?_
      rw [← value_eq]
      exact ⟨fun ⟨early, whole⟩ => ⟨fun _ code left failed => by simp [add] at failed, fun _ => early, fun _ => whole⟩,
        fun kept => ⟨kept.early ready, kept.whole ready⟩⟩

end Calls

section Deleting

variable (course : DeleteCourse) (mref : Nat) (s : ReparseState)

/-- A call that does not fail leaves no key of the inode. -/
def DeletePromise : Prop :=
  0 ≤ (ntfsDeleteReparseIndex course mref s).1 → reparseKeysOf mref (ntfsDeleteReparseIndex course mref s).2.index = ∅

/-- Where the promise of the deletion is kept. An inode without its flag has no key, nor has one whose index
is not opened; and the key of the value is the one that there is. -/
structure DeleteKept : Prop where
  unflagged : s.flagged = false → reparseKeysOf mref s.index = ∅
  unopened : s.flagged = true → s.point.isSome → course.iget = none → course.indexOpened = false →
    reparseKeysOf mref s.index = ∅
  removal : ∀ old, s.flagged = true → s.point = some old → course.iget = none → course.indexOpened = true →
    RemovalRuns course.remove mref old s.index → remainingKeys course.remove mref old s.index = ∅

variable {course mref s}

/-- The promise of the deletion is kept exactly where `DeleteKept` says. -/
theorem deletePromise_iff : DeletePromise course mref s ↔ DeleteKept course mref s := by
  unfold DeletePromise ntfsDeleteReparseIndex
  cases flagged : s.flagged
  case false =>
    exact ⟨fun empty => ⟨fun _ => empty le_rfl, fun set => by simp [flagged] at set, fun _ set => by simp [flagged] at set⟩,
      fun kept _ => kept.unflagged flagged⟩
  have flag : s.flagged ≠ false := by simp [flagged]
  simp only [Bool.not_true, Bool.false_eq_true, if_false]
  cases point : s.point with
  | none =>
    have vacuous : DeleteKept course mref s :=
      ⟨fun clear => absurd clear flag, fun _ there => by simp [point] at there, fun old _ there => by simp [point] at there⟩
    refine iff_of_true (fun success => absurd success (not_le.mpr ?_)) vacuous
    cases iget : course.iget with
    | none => exact neg_lt_zero.mpr (by decide)
    | some code => exact code.2
  | some old =>
    cases iget : course.iget with
    | some code =>
      have vacuous : DeleteKept course mref s :=
        ⟨fun clear => absurd clear flag, fun _ _ found => by simp [iget] at found, fun _ _ _ found => by simp [iget] at found⟩
      exact iff_of_true (fun success => absurd success (not_le.mpr code.2)) vacuous
    | none =>
      cases indexOpened : course.indexOpened
      case false =>
        exact ⟨fun empty => ⟨fun clear => absurd clear flag, fun _ _ _ _ => empty le_rfl,
            fun _ _ _ _ open_eq => by simp [indexOpened] at open_eq⟩,
          fun kept _ => kept.unopened flagged (by simp [point]) iget indexOpened⟩
      simp only [Bool.not_true, Bool.false_eq_true, if_false]
      by_cases removal : RemovalRuns course.remove mref old s.index
      · obtain ⟨left, removed, size, _, kept⟩ := removeReparseIndex_runs removal
        simp only [removed, not_lt.mpr size, if_false, kept]
        refine ⟨fun empty => ⟨fun clear => absurd clear flag, fun _ _ _ shut => by simp [indexOpened] at shut, ?_⟩,
          fun kept _ => kept.removal old flagged point iget indexOpened removal⟩
        intro other _ other_eq _ _ _
        obtain rfl : old = other := Option.some.inj (point.symm.trans other_eq)
        exact empty size
      · obtain ⟨negative, _⟩ := removeReparseIndex_fails removal
        have vacuous : DeleteKept course mref s :=
          ⟨fun clear => absurd clear flag, fun _ _ _ shut => by simp [indexOpened] at shut,
            fun other _ other_eq _ _ runs => by
              obtain rfl : old = other := Option.some.inj (point.symm.trans other_eq)
              exact absurd runs removal⟩
        simp only [negative, if_true]
        exact iff_of_true (fun success => absurd success (not_le.mpr negative)) vacuous

end Deleting

/-! ## What the index is for -/

/-- The index follows the attribute: a value that has been set is the attribute with the one key of
the inode, a failure adds nothing, and a deletion leaves no key. Each is so exactly where every step
behind the creation of the attribute is carried out and the keys are those that the steps look for. -/
theorem index_follows_iff (course : SetCourse) (ni : ReparseInode) (value : List UInt8) (s : ReparseState)
    (delete : DeleteCourse) :
    (SetPromise course ni value s ↔ (SetAdmitted course ni value s → SetKept course ni value s)) ∧
      (DeletePromise delete ni.mref s ↔ DeleteKept delete ni.mref s) :=
  ⟨setPromise_iff, deletePromise_iff⟩

/-! ## New values -/

section Fresh

variable {course : SetCourse} {ni : ReparseInode} {value : List UInt8} {s : ReparseState}

/-- The key of a new value is added, or the attribute is not taken away for it. -/
def KeyKept (course : UpdateCourse) (mref : Nat) (value : List UInt8) (index : Finset ReparseIndexKey) : Prop :=
  course.room = true ∧ (⟨reparseTag value, mref⟩ : ReparseIndexKey) ∉ index ∨ course.attrRemoved = false

/-- Setting the value of an inode without one that succeeds has added the attribute and has run to its end. -/
theorem updated_of_success (fresh : s.point = none) (success : (ntfsSetNtfsReparseData course ni value s).1 = 0) :
    let s₀ := { s with point := some (List.replicate reparsePointSize 0), flagged := true, tagOfInode := reparseTag value }
    validReparseData ni.recallOnOpen ni.isDir value = some true ∧
      UpdateRuns course.update ni.mref (List.replicate reparsePointSize 0) s.index ∧
        (ntfsSetNtfsReparseData course ni value s).2 = (updateReparseData course.update ni.mref value s₀).2 := by
  intro s₀
  have admitted : SetAdmitted course ni value s := by
    by_contra refused
    exact (ntfsSetNtfsReparseData_refused refused).1 success
  have absent : (course.seen && s.point.isSome) = false := by simp [fresh]
  rw [ntfsSetNtfsReparseData_admitted admitted] at success ⊢
  simp only [absent, Bool.false_eq_true, if_false] at success ⊢
  cases add : course.add with
  | some failure =>
    obtain ⟨code, left⟩ := failure
    have fails : code.1 ≠ 0 := code.2.ne
    rw [add, addReparseAttribute_fails fresh, if_pos fails] at success
    exact absurd success fails
  | none =>
    rw [add, addReparseAttribute_adds fresh, if_neg (not_not.mpr rfl)] at success
    rw [addReparseAttribute_adds fresh, if_neg (not_not.mpr rfl)]
    refine ⟨admitted.1, ?_, if_neg (not_not.mpr success)⟩
    by_contra stops
    exact (updateReparseData_fails value (s := s₀) rfl stops).1 success

/-- The attribute of a new value stays where its key is kept, and is lost elsewhere. -/
theorem point_of_success (fresh : s.point = none) (success : (ntfsSetNtfsReparseData course ni value s).1 = 0) :
    (KeyKept course.update ni.mref value s.index → (ntfsSetNtfsReparseData course ni value s).2.point = some value) ∧
      (¬ KeyKept course.update ni.mref value s.index → (ntfsSetNtfsReparseData course ni value s).2.point = none) := by
  obtain ⟨valid, ⟨opened, removal, write⟩, same⟩ := updated_of_success fresh success
  obtain ⟨left, removed, size, -, kept⟩ := removeReparseIndex_runs removal
  have long : 6 ≤ value.length := by
    by_contra short
    rw [validReparseData_short (not_le.mp short)] at valid
    cases valid
  have checked := (validReparseData_iff long).mp valid
  have member : (⟨reparseTag value, ni.mref⟩ : ReparseIndexKey) ∈ left ↔
      (⟨reparseTag value, ni.mref⟩ : ReparseIndexKey) ∈ s.index := by
    have other : (⟨reparseTag value, ni.mref⟩ : ReparseIndexKey) ≠
        ⟨reparseTag (List.replicate reparsePointSize 0), ni.mref⟩ := by
      intro eq
      exact checked.tag (congrArg ReparseIndexKey.reparseTag eq)
    have inLeft : (⟨reparseTag value, ni.mref⟩ : ReparseIndexKey) ∈ left ↔
        (⟨reparseTag value, ni.mref⟩ : ReparseIndexKey) ∈ reparseKeysOf ni.mref left := by simp
    rw [inLeft, kept, remainingKeys]
    split
    · simp
    · simp [other]
  have replaced : overwritten value (List.replicate reparsePointSize 0) = value := by
    rw [overwritten_eq, List.length_replicate]
    exact checked.header
  have positive : decide (sizeAsInt (List.replicate reparsePointSize (0 : UInt8)).length > 0) = true := by decide
  rw [same]
  unfold updateReparseData KeyKept
  simp only [opened, Bool.not_true, Bool.false_eq_true, if_false, removed, not_lt.mpr size, write, replaced, positive,
    Bool.and_true, setReparseIndex, member]
  by_cases held : (⟨reparseTag value, ni.mref⟩ : ReparseIndexKey) ∈ s.index
  · cases course.update.attrRemoved <;> simp [held]
  · cases course.update.attrRemoved <;> cases course.update.room <;> simp [held]

end Fresh

/-- The value of a FIFO. -/
def fifoValue : List UInt8 := [0x24, 0, 0, 0x80, 0, 0, 0, 0]

/-- A new FIFO. -/
def fifoInode : ReparseInode := ⟨64 + 2 ^ 48, true, false, 3⟩

/-- An index without room for another key. -/
def noRoom : SetCourse := ⟨true, true, none, ⟨true, ⟨true, true, .removed⟩, none, false, true⟩⟩

/-- Setting the value of a new FIFO succeeds without room for its key, and leaves neither value nor key. -/
theorem value_lost_without_room :
    (ntfsSetNtfsReparseData noRoom fifoInode fifoValue ⟨none, false, 0, ∅⟩).1 = 0 ∧
      (ntfsSetNtfsReparseData noRoom fifoInode fifoValue ⟨none, false, 0, ∅⟩).2.point = none ∧
      ¬ SetPromise noRoom fifoInode fifoValue ⟨none, false, 0, ∅⟩ := by
  have succeeds : (ntfsSetNtfsReparseData noRoom fifoInode fifoValue ⟨none, false, 0, ∅⟩).1 = 0 := by decide
  have lost : (ntfsSetNtfsReparseData noRoom fifoInode fifoValue ⟨none, false, 0, ∅⟩).2.point = none := by decide
  refine ⟨succeeds, lost, fun promise => ?_⟩
  have held := (promise.1 succeeds).1
  rw [lost] at held
  cases held

end Ttntfs.Ntfs
