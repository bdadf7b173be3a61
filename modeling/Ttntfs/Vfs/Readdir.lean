import Ttntfs.Ntfs.DirectoryLookup
import Ttntfs.Ntfs.IndexWalk

/-!
# Enumerating a directory

`ntfs_readdir` walks the index of a directory in order and passes its entries to a
callback, which may refuse one and thereby end the call. The cookie that is returned is
the place of the next entry: the number of bytes of the entries before it, counted from
the two that stand for `.` and `..`. The next call counts again, in the index as it is
then. An enumeration is a run of such calls; between them other names of the directory
come and go. It reports every name that stays exactly once as long as no change moves an
entry that stays across the cookie.
-/

namespace Ttntfs.Vfs

open Ttntfs.Ntfs

/-- `FILE_root` -/
def fileRoot : Nat := 5
/-- `FILE_first_user` -/
def fileFirstUser : Nat := 16

/-- What the enumeration reads of the volume, and of a key beside its name: whether it has
`FILE_ATTR_HIDDEN`, and whether its name can be converted. -/
structure ReaddirVolume where
  showSystemFiles : Bool
  showHiddenFiles : Bool
  hidden : IndexKey → Bool
  representable : Uname → Bool

/-- The length of an index entry: header, file name attribute and the vcn of a child. -/
def entryLength (key : IndexKey) (child : Option Int) : Nat :=
  (16 + 66 + 2 * key.name.length + 7) / 8 * 8 + if child.isSome then 8 else 0

/-- What the enumeration takes of an entry. -/
def readdirItem (key : IndexKey) (child : Option Int) : IndexKey × Nat := (key, entryLength key child)

/-- Whether `ntfs_filldir` skips an entry. -/
def isSkipped (vol : ReaddirVolume) (key : IndexKey) : Bool :=
  key.type = .dos || key.mref % 2 ^ 48 = fileRoot ||
    (key.mref % 2 ^ 48 < fileFirstUser && !vol.showSystemFiles) ||
    (!vol.showHiddenFiles && vol.hidden key) || !vol.representable key.name

/-- What is passed to the callback. -/
inductive Dirent where
  | dot
  | dotdot
  | entry (key : IndexKey)
  deriving DecidableEq

/-- Whether an entry of a name is passed. -/
def Dirent.isNamed (name : Uname) : Dirent → Bool
  | .entry key => key.name = name
  | _ => false

/-- How a call of `ntfs_readdir` ends: what the callback took, the new position, and
whether the callback refused an entry. -/
structure ReaddirCall where
  taken : List Dirent
  pos : Nat
  stopped : Bool

/-- The loop over the entries. The callback takes a number of entries and refuses the next;
`complete` says whether the walk came to its end. -/
def fillEntries (vol : ReaddirVolume) (complete : Bool) :
    List (IndexKey × Nat) → Nat → Nat → Nat → ReaddirCall
  | [], iePos, pos, _ => ⟨[], if complete then iePos else pos, false⟩
  | (key, length) :: rest, iePos, pos, budget =>
    if iePos < pos then fillEntries vol complete rest (iePos + length) pos budget
    else if isSkipped vol key then fillEntries vol complete rest (iePos + length) iePos budget
    else if budget = 0 then ⟨[], iePos, true⟩
    else
      let others := fillEntries vol complete rest (iePos + length) iePos (budget - 1)
      { others with taken := .entry key :: others.taken }

/-- `dir_emit_dots` before the entries: from position 0 or 1 it passes `.` and `..`. -/
def emitDots (entries : Nat → Nat → ReaddirCall) : Nat → Nat → ReaddirCall
  | 0, 0 => ⟨[], 0, true⟩
  | 0, 1 => ⟨[.dot], 1, true⟩
  | 0, budget + 2 =>
    let others := entries 2 budget
    { others with taken := .dot :: .dotdot :: others.taken }
  | 1, 0 => ⟨[], 1, true⟩
  | 1, budget + 1 =>
    let others := entries 2 budget
    { others with taken := .dotdot :: others.taken }
  | pos, budget => entries pos budget

/-- `ntfs_readdir` with a callback that takes a number of entries. -/
def ntfsReaddir (vol : ReaddirVolume) (dir : DirectoryIndex) (fuel cookie budget : Nat) : ReaddirCall :=
  let walked := walkIndex readdirItem dir fuel
  emitDots (fillEntries vol walked.2 walked.1 2) cookie budget

/-- The places of the entries, counted from the one before the first of them. -/
def places : Nat → List (IndexKey × Nat) → List (IndexKey × Nat)
  | _, [] => []
  | iePos, (key, length) :: rest => (key, iePos) :: places (iePos + length) rest

/-- An index that is in order, with the entries it holds. -/
structure ReadableIndex (upcase : Upcase) (dir : DirectoryIndex) (items : List (IndexKey × Nat)) :
    Prop where
  listed : ∃ depth < maxParentVcn,
    listEntries readdirItem (listBlock readdirItem dir depth) dir.root = some items
  filled : BlocksHoldKeys dir
  keys : SortedKeys upcase (items.map Prod.fst)

/-- One name is created or removed. -/
def OneNameChanged (before after : List IndexKey) : Prop :=
  ∃ left key right, (before = left ++ right ∧ after = left ++ key :: right) ∨
    (before = left ++ key :: right ∧ after = left ++ right)

/-- No entry that stays moves across a cookie. -/
def KeepsSides (cookie : Nat) (before after : List (IndexKey × Nat)) : Prop :=
  ∀ key place place', (key, place) ∈ places 2 before → (key, place') ∈ places 2 after →
    (place < cookie ↔ place' < cookie)

/-- An enumeration in progress: the directory with its entries, the cookie, what was
reported, whether the end was reached, and the keys that were there all the time. -/
structure Enumeration where
  dir : DirectoryIndex
  items : List (IndexKey × Nat)
  cookie : Nat
  reported : List Dirent
  eof : Bool
  steady : List IndexKey

/-- The beginning of an enumeration. -/
def Enumeration.start (dir : DirectoryIndex) (items : List (IndexKey × Nat)) : Enumeration :=
  ⟨dir, items, 0, [], false, items.map Prod.fst⟩

/-- The state after a call. -/
def Enumeration.afterRead (e : Enumeration) (call : ReaddirCall) : Enumeration :=
  { e with cookie := call.pos, reported := e.reported ++ call.taken, eof := !call.stopped }

/-- The state after a change of the directory. -/
def Enumeration.afterChange (e : Enumeration) (dir : DirectoryIndex) (items : List (IndexKey × Nat)) :
    Enumeration :=
  { e with
    dir := dir
    items := items
    steady := e.steady.filter (· ∈ items.map Prod.fst) }

/-- The runs of an enumeration: calls with any callback, and creations and removals of names
that satisfy a condition. -/
inductive Enumerates (upcase : Upcase) (vol : ReaddirVolume)
    (fair : Nat → List (IndexKey × Nat) → List (IndexKey × Nat) → Prop) :
    Enumeration → Enumeration → Prop where
  | done (e : Enumeration) : Enumerates upcase vol fair e e
  | read {first e : Enumeration} (run : Enumerates upcase vol fair first e) (budget : Nat)
      {fuel : Nat} (enough : e.items.length ≤ fuel) :
      Enumerates upcase vol fair first (e.afterRead (ntfsReaddir vol e.dir fuel e.cookie budget))
  | change {first e : Enumeration} (run : Enumerates upcase vol fair first e) {dir : DirectoryIndex}
      {items : List (IndexKey × Nat)} (index : ReadableIndex upcase dir items)
      (changed : OneNameChanged (e.items.map Prod.fst) (items.map Prod.fst))
      (keeps : fair e.cookie e.items items) :
      Enumerates upcase vol fair first (e.afterChange dir items)

section Call

variable {vol : ReaddirVolume} {items : List (IndexKey × Nat)} {iePos pos budget : Nat}

theorem entryLength_pos (key : IndexKey) (child : Option Int) : 0 < entryLength key child := by
  rw [entryLength]
  omega

theorem places_ge {key : IndexKey} {place : Nat} (listed : (key, place) ∈ places iePos items) :
    iePos ≤ place := by
  induction items generalizing iePos with
  | nil => cases listed
  | cons item rest ih =>
    rcases List.mem_cons.mp listed with same | later
    · cases same
      exact Nat.le_refl _
    · exact le_trans (Nat.le_add_right _ _) (ih later)

/-- What a call takes: the entries from its position on that are not skipped, up to the
position it returns, behind all places before it. -/
structure TakesPlaces (vol : ReaddirVolume) (items : List (IndexKey × Nat)) (iePos pos : Nat)
    (call : ReaddirCall) : Prop where
  taken : call.taken = ((places iePos items).filter fun entry =>
    decide (pos ≤ entry.2 ∧ entry.2 < call.pos) && !isSkipped vol entry.1).map fun entry => .entry entry.1
  onward : ∀ entry ∈ places iePos items, entry.2 < pos → entry.2 < call.pos
  ended : call.stopped = false → ∀ entry ∈ places iePos items, entry.2 < call.pos
  least : iePos ≤ call.pos

theorem TakesPlaces.of_le {other : Nat} {call : ReaddirCall} (takes : TakesPlaces vol items iePos pos call)
    (low : pos ≤ iePos) (otherLow : other ≤ iePos) : TakesPlaces vol items iePos other call where
  taken := by
    rw [takes.taken]
    congr 1
    apply List.filter_congr
    rintro ⟨key, place⟩ listed
    have lower := places_ge listed
    have first : pos ≤ place := le_trans low lower
    have second : other ≤ place := le_trans otherLow lower
    simp [first, second]
  onward := by
    rintro ⟨key, place⟩ listed before
    have lower := places_ge listed
    exact absurd before (by dsimp only; omega)
  ended := takes.ended
  least := takes.least

/-- An entry before those that are taken, or that is skipped. -/
theorem TakesPlaces.passed {key : IndexKey} {length : Nat} {call : ReaddirCall}
    (takes : TakesPlaces vol items (iePos + length) pos call) (positive : 0 < length)
    (out : iePos < pos ∨ isSkipped vol key = true) :
    TakesPlaces vol ((key, length) :: items) iePos pos call := by
  have behind : iePos < call.pos := by
    have least := takes.least
    omega
  refine ⟨?_, ?_, ?_, le_of_lt behind⟩
  · rw [takes.taken, places, List.filter_cons_of_neg]
    rcases out with before | skipped
    · simp [Nat.not_le.mpr before]
    · simp [skipped]
  · intro entry listed before
    rcases List.mem_cons.mp listed with rfl | later
    · exact behind
    · exact takes.onward entry later before
  · intro complete entry listed
    rcases List.mem_cons.mp listed with rfl | later
    · exact behind
    · exact takes.ended complete entry later

/-- An entry that is taken before the others. -/
theorem TakesPlaces.cons {key : IndexKey} {length : Nat} {call : ReaddirCall}
    (takes : TakesPlaces vol items (iePos + length) pos call) (positive : 0 < length) (from_here : pos ≤ iePos)
    (shown : isSkipped vol key = false) :
    TakesPlaces vol ((key, length) :: items) iePos pos { call with taken := .entry key :: call.taken } := by
  have behind : iePos < call.pos := by
    have least := takes.least
    omega
  refine ⟨?_, ?_, ?_, le_of_lt behind⟩
  · rw [places, List.filter_cons_of_pos]
    · simp only [List.map_cons, takes.taken]
    · simp [from_here, behind, shown]
  · intro entry listed before
    rcases List.mem_cons.mp listed with rfl | later
    · exact behind
    · exact takes.onward entry later before
  · intro complete entry listed
    rcases List.mem_cons.mp listed with rfl | later
    · exact behind
    · exact takes.ended complete entry later

/-- The loop over the entries. -/
theorem fillEntries_takes (lengths : ∀ item ∈ items, 0 < item.2) :
    TakesPlaces vol items iePos pos (fillEntries vol true items iePos pos budget) := by
  induction items generalizing iePos pos budget with
  | nil =>
    refine ⟨rfl, ?_, ?_, Nat.le_refl _⟩
    · intro entry listed
      cases listed
    · intro _ entry listed
      cases listed
  | cons item rest ih =>
    obtain ⟨key, length⟩ := item
    have positive : 0 < length := lengths (key, length) (by simp)
    have others (pos budget : Nat) := @ih (iePos + length) pos budget
      (fun item listed => lengths item (by simp [listed]))
    rw [fillEntries]
    by_cases before : iePos < pos
    · rw [if_pos before]
      exact (others pos budget).passed positive (.inl before)
    rw [if_neg before]
    have here : pos ≤ iePos := Nat.le_of_not_lt before
    cases skipped : isSkipped vol key with
    | true =>
      simp only [if_true]
      exact ((others iePos budget).of_le (Nat.le_add_right _ _) (by omega)).passed positive (.inr skipped)
    | false =>
      simp only [Bool.false_eq_true, if_false]
      by_cases refused : budget = 0
      · rw [if_pos refused]
        have late : ∀ entry ∈ places iePos ((key, length) :: rest), ¬ entry.2 < iePos :=
          fun entry listed => Nat.not_lt.mpr (places_ge listed)
        refine ⟨?_, ?_, ?_, Nat.le_refl _⟩
        · symm
          rw [List.map_eq_nil_iff, List.filter_eq_nil_iff]
          intro entry listed
          simp [late entry listed]
        · intro entry listed early
          exact absurd (by omega) (late entry listed)
        · intro complete
          cases complete
      · rw [if_neg refused]
        exact ((others iePos (budget - 1)).of_le (Nat.le_add_right _ _) (by omega)).cons positive here skipped

/-- A call reports the entries from its cookie on up to the one it returns, each once. -/
structure Reports (vol : ReaddirVolume) (items : List (IndexKey × Nat)) (cookie : Nat) (call : ReaddirCall) :
    Prop where
  counted : ∀ name, call.taken.countP (Dirent.isNamed name) = (places 2 items).countP fun entry =>
    decide (entry.1.name = name) && (decide (cookie ≤ entry.2 ∧ entry.2 < call.pos) && !isSkipped vol entry.1)
  onward : ∀ entry ∈ places 2 items, entry.2 < cookie → entry.2 < call.pos
  ended : call.stopped = false → ∀ entry ∈ places 2 items, entry.2 < call.pos

theorem TakesPlaces.reports {call : ReaddirCall} (takes : TakesPlaces vol items 2 pos call) :
    Reports vol items pos call where
  counted name := by
    rw [takes.taken, List.countP_map, List.countP_filter]
    congr 1
  onward := takes.onward
  ended := takes.ended

/-- `.` and `..` before the entries. -/
theorem Reports.dots {entries : Nat → Nat → ReaddirCall} (reports : ∀ pos budget, Reports vol items pos (entries pos budget))
    (pos budget : Nat) : Reports vol items pos (emitDots entries pos budget) := by
  have early {entry : IndexKey × Nat} (listed : entry ∈ places 2 items) : 2 ≤ entry.2 := places_ge listed
  have nothing (low pos : Nat) (small : pos ≤ 1) (dirents : List Dirent)
      (unnamed : ∀ name, dirents.countP (Dirent.isNamed name) = 0) (lower : low ≤ pos) :
      Reports vol items low ⟨dirents, pos, true⟩ := by
    refine ⟨?_, ?_, ?_⟩
    · intro name
      rw [unnamed, eq_comm, List.countP_eq_zero]
      intro entry listed
      have := early listed
      simp
      omega
    · intro entry listed before
      have := early listed
      omega
    · intro complete
      cases complete
  have more (low : Nat) (small : low ≤ 2) (budget : Nat) (dirents : List Dirent)
      (unnamed : ∀ name, dirents.countP (Dirent.isNamed name) = 0) :
      Reports vol items low { entries 2 budget with taken := dirents ++ (entries 2 budget).taken } := by
    have others := reports 2 budget
    refine ⟨?_, ?_, others.ended⟩
    · intro name
      rw [List.countP_append, unnamed, Nat.zero_add, others.counted]
      apply List.countP_congr
      intro entry listed
      have := early listed
      have first : low ≤ entry.2 := by omega
      simp [this, first]
    · intro entry listed before
      have := early listed
      omega
  rcases pos with _ | _ | pos
  · rcases budget with _ | _ | budget
    · exact nothing 0 0 (by omega) [] (fun _ => rfl) le_rfl
    · exact nothing 0 1 (by omega) [.dot] (fun _ => rfl) (by omega)
    · exact more 0 (by omega) budget [.dot, .dotdot] (fun _ => rfl)
  · rcases budget with _ | budget
    · exact nothing 1 1 (by omega) [] (fun _ => rfl) le_rfl
    · exact more 1 (by omega) budget [.dotdot] (fun _ => rfl)
  · exact reports (pos + 2) budget

theorem ntfsReaddir_reports {upcase : Upcase} {dir : DirectoryIndex} (index : ReadableIndex upcase dir items)
    {fuel : Nat} (enough : items.length ≤ fuel) (cookie budget : Nat) :
    Reports vol items cookie (ntfsReaddir vol dir fuel cookie budget) := by
  obtain ⟨depth, shallow, listed⟩ := index.listed
  have lengths : ∀ item ∈ items, 0 < item.2 :=
    listEntries_forall readdirItem (P := fun item => 0 < item.2) entryLength_pos
      (fun _ _ inner => listBlock_forall readdirItem (P := fun item => 0 < item.2) entryLength_pos inner) listed
  have walked := walkIndex_items index.filled shallow listed enough
  rw [ntfsReaddir]
  simp only [walked]
  exact Reports.dots (fun pos budget => (fillEntries_takes lengths).reports) cookie budget

end Call

section Enumerate

variable {upcase : Upcase} {vol : ReaddirVolume} {items : List (IndexKey × Nat)} {key : IndexKey}

theorem places_keys (iePos : Nat) (items : List (IndexKey × Nat)) :
    (places iePos items).map Prod.fst = items.map Prod.fst := by
  induction items generalizing iePos with
  | nil => rfl
  | cons item rest ih =>
    simp only [places, List.map_cons]
    rw [ih]

theorem exists_place (listed : key ∈ items.map Prod.fst) : ∃ place, (key, place) ∈ places 2 items := by
  rw [← places_keys 2, List.mem_map] at listed
  obtain ⟨⟨_, place⟩, member, rfl⟩ := listed
  exact ⟨place, member⟩

/-- Among entries in collation order one of a name is counted once. -/
theorem countP_named {list : List (IndexKey × Nat)} {place : Nat} (wanted : IndexKey × Nat → Bool)
    (sorted : (list.map Prod.fst).Pairwise fun left right => CollatesBefore upcase left.name right.name)
    (listed : (key, place) ∈ list) :
    list.countP (fun entry => decide (entry.1.name = key.name) && wanted entry) =
      if wanted (key, place) then 1 else 0 := by
  induction list with
  | nil => cases listed
  | cons first rest ih =>
    rw [List.map_cons, List.pairwise_cons] at sorted
    rw [List.countP_cons]
    rcases List.mem_cons.mp listed with rfl | later
    · have others : rest.countP (fun entry => decide (entry.1.name = key.name) && wanted entry) = 0 := by
        rw [List.countP_eq_zero]
        intro entry member
        have order := sorted.1 entry.1 (List.mem_map_of_mem member)
        have apart : entry.1.name ≠ key.name := by
          intro same
          rw [same] at order
          exact CollatesBefore.irrefl order
        simp [apart]
      simp [others]
    · have order := sorted.1 key (List.mem_map_of_mem later)
      have apart : first.1.name ≠ key.name := by
        intro same
        rw [same] at order
        exact CollatesBefore.irrefl order
      rw [ih sorted.2 later]
      simp [apart]

/-- What an enumeration keeps: the entries that were there all the time and have their place
before the cookie are reported once, the others not yet. -/
structure Counted (upcase : Upcase) (vol : ReaddirVolume) (e : Enumeration) : Prop where
  index : ReadableIndex upcase e.dir e.items
  present : ∀ key ∈ e.steady, key ∈ e.items.map Prod.fst
  counts : ∀ key ∈ e.steady, isSkipped vol key = false → ∀ place, (key, place) ∈ places 2 e.items →
    e.reported.countP (Dirent.isNamed key.name) = if place < e.cookie then 1 else 0
  ended : e.eof = true → ∀ key ∈ e.steady, ∀ place, (key, place) ∈ places 2 e.items → place < e.cookie

/-- A call keeps the counts. -/
theorem Counted.read {e : Enumeration} (counted : Counted upcase vol e) {fuel : Nat}
    (enough : e.items.length ≤ fuel) (budget : Nat) :
    Counted upcase vol (e.afterRead (ntfsReaddir vol e.dir fuel e.cookie budget)) := by
  have reports := @ntfsReaddir_reports vol e.items upcase e.dir counted.index fuel enough e.cookie budget
  refine ⟨counted.index, counted.present, ?_, ?_⟩
  · intro key steady shown place listed
    have before := counted.counts key steady shown place listed
    have sorted : ((places 2 e.items).map Prod.fst).Pairwise fun left right =>
        CollatesBefore upcase left.name right.name := by
      rw [places_keys]
      exact counted.index.keys.sorted
    have new := (reports.counted key.name).trans (countP_named _ sorted listed)
    have onward := reports.onward (key, place) listed
    change (e.reported ++ _).countP _ = if place < (ntfsReaddir vol e.dir fuel e.cookie budget).pos then 1 else 0
    rw [List.countP_append, before, new]
    simp only [shown, Bool.not_false, Bool.and_true, decide_eq_true_eq]
    dsimp only at onward
    by_cases old : place < e.cookie
    · rw [if_pos old, if_neg (by omega), if_pos (onward old)]
    · by_cases now : place < (ntfsReaddir vol e.dir fuel e.cookie budget).pos
      · rw [if_neg old, if_pos ⟨by omega, now⟩, if_pos now]
      · rw [if_neg old, if_neg (fun both => now both.2), if_neg now]
  · intro finished key _ place listed
    have complete : (ntfsReaddir vol e.dir fuel e.cookie budget).stopped = false := by
      simpa [Enumeration.afterRead] using finished
    exact reports.ended complete (key, place) listed

/-- A change that moves no entry across the cookie keeps the counts. -/
theorem Counted.change {e : Enumeration} (counted : Counted upcase vol e) {dir : DirectoryIndex}
    (index : ReadableIndex upcase dir items) (keeps : KeepsSides e.cookie e.items items) :
    Counted upcase vol (e.afterChange dir items) := by
  have stays {key : IndexKey} (steady : key ∈ (e.afterChange dir items).steady) :
      key ∈ e.steady ∧ key ∈ items.map Prod.fst := by
    simpa [Enumeration.afterChange] using steady
  refine ⟨index, fun key steady => (stays steady).2, ?_, ?_⟩
  · intro key steady shown place listed
    obtain ⟨before, _⟩ := stays steady
    obtain ⟨old, oldListed⟩ := exists_place (counted.present key before)
    have same := keeps key old place oldListed listed
    have count := counted.counts key before shown old oldListed
    simp only [Enumeration.afterChange]
    rw [count]
    exact if_congr same rfl rfl
  · intro finished key steady place listed
    obtain ⟨before, _⟩ := stays steady
    obtain ⟨old, oldListed⟩ := exists_place (counted.present key before)
    exact (keeps key old place oldListed listed).mp (counted.ended finished key before old oldListed)

theorem Enumerates.counted {dir : DirectoryIndex} {e : Enumeration} (index : ReadableIndex upcase dir items)
    (run : Enumerates upcase vol KeepsSides (.start dir items) e) : Counted upcase vol e := by
  induction run with
  | done =>
    refine ⟨index, fun key steady => steady, ?_, ?_⟩
    · intro key _ _ place _
      rfl
    · intro finished
      cases finished
  | read run budget enough ih => exact ih.read enough budget
  | change run index' changed keeps ih =>
    exact ih.change index' keeps

end Enumerate

/-- A file of a name of one letter. -/
def letterKey (letter : Nat) : IndexKey := ⟨[letter], .posix, 2 ^ 48 + letter⟩

/-- A directory small enough for its root. -/
def letterIndex (letters : List Nat) : DirectoryIndex where
  root := letters.map (fun letter => .named (letterKey letter) none) ++ [.last none]
  block _ := none

/-- The entries of the directory. -/
def letterItems (letters : List Nat) : List (IndexKey × Nat) :=
  letters.map fun letter => readdirItem (letterKey letter) none

/-- A volume whose files are all shown. -/
def openVolume : ReaddirVolume := ⟨true, true, fun _ => false, fun _ => true⟩

end Ttntfs.Vfs
