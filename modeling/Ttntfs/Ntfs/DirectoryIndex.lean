import Ttntfs.Ntfs.Collation

/-!
# The index of a directory

The index of a directory is a B-tree: the root in the mft record and index blocks named by
their vcns, each a list of entries in collation order with a child node to the left of an
entry, and a last entry without a name that may have a child as well. The items of an index
are what is taken of its entries, in the order of the tree.
-/

namespace Ttntfs.Ntfs

/-- `FILE_NAME_POSIX` and the other name spaces. -/
inductive FileNameType where
  | posix
  | win32
  | dos
  | win32AndDos
  deriving DecidableEq

/-- The key of an index entry, with the reference of its file. -/
structure IndexKey where
  name : Uname
  type : FileNameType
  mref : Nat
  deriving DecidableEq

/-- `struct index_entry`, with the vcn of its child node. An entry that fails the bounds
or consistency checks is corrupt. -/
inductive IndexEntry where
  | corrupt
  | named (key : IndexKey) (child : Option Int)
  | last (child : Option Int)

/-- `struct index_block`: whether it is a leaf node, and its entries. -/
structure IndexBlock where
  leaf : Bool
  entries : List IndexEntry

/-- The index of a directory: the entries of the root, and the block of a vcn if it can be
read and its header is as it should be. -/
structure DirectoryIndex where
  root : List IndexEntry
  block : Int → Option IndexBlock

section Listing

variable {α : Type} (item : IndexKey → Option Int → α)

/-- The items below an entry. -/
def listChild (below : Int → Option (List α)) : Option Int → Option (List α)
  | none => some []
  | some vcn => below vcn

/-- The items of a node and its children in order, if the node is in order. -/
def listEntries (below : Int → Option (List α)) : List IndexEntry → Option (List α)
  | [] => none
  | .corrupt :: _ => none
  | .last child :: _ => listChild below child
  | .named key child :: rest =>
    match listChild below child, listEntries below rest with
    | some left, some right => some (left ++ item key child :: right)
    | _, _ => none

/-- The items of a block and its children in order, down to a depth. -/
def listBlock (dir : DirectoryIndex) : Nat → Int → Option (List α)
  | 0, _ => none
  | depth + 1, vcn =>
    match dir.block vcn with
    | none => none
    | some block =>
      listEntries item (fun child => if block.leaf ∨ child < 0 then none else listBlock dir depth child)
        block.entries

/-- The items of a node are those below its first entry, the entry and the rest. -/
theorem listEntries_named {below : Int → Option (List α)} {key : IndexKey} {child : Option Int}
    {rest : List IndexEntry} {items : List α}
    (listed : listEntries item below (.named key child :: rest) = some items) :
    ∃ left right, listChild below child = some left ∧ listEntries item below rest = some right ∧
      items = left ++ item key child :: right := by
  rw [listEntries] at listed
  cases leftItems : listChild below child with
  | none => simp [leftItems] at listed
  | some left =>
    cases rightItems : listEntries item below rest with
    | none => simp [leftItems, rightItems] at listed
    | some right =>
      simp only [leftItems, rightItems, Option.some.injEq] at listed
      exact ⟨left, right, rfl, rfl, listed.symm⟩

/-- What holds of the item of every entry holds of all items of a node. -/
theorem listEntries_forall {P : α → Prop} (each : ∀ key child, P (item key child))
    {below : Int → Option (List α)} (belowAll : ∀ vcn list, below vcn = some list → ∀ x ∈ list, P x)
    {entries : List IndexEntry} {items : List α} (listed : listEntries item below entries = some items) :
    ∀ x ∈ items, P x := by
  have childAll {child : Option Int} {list : List α} (inner : listChild below child = some list) :
      ∀ x ∈ list, P x := by
    cases child with
    | none =>
      obtain rfl : list = [] := by simpa [listChild] using inner.symm
      intro x member
      cases member
    | some vcn => exact belowAll vcn list inner
  induction entries generalizing items with
  | nil => cases listed
  | cons entry rest ih =>
    cases entry with
    | corrupt => cases listed
    | last child => exact childAll listed
    | named key child =>
      obtain ⟨left, right, leftItems, rightItems, rfl⟩ := listEntries_named item listed
      intro x member
      rcases List.mem_append.mp member with earlier | later
      · exact childAll leftItems x earlier
      · rcases List.mem_cons.mp later with rfl | behind
        · exact each key child
        · exact ih rightItems x behind

theorem listBlock_forall {P : α → Prop} (each : ∀ key child, P (item key child)) {dir : DirectoryIndex}
    {depth : Nat} {vcn : Int} {items : List α} (listed : listBlock item dir depth vcn = some items) :
    ∀ x ∈ items, P x := by
  induction depth generalizing vcn items with
  | zero => cases listed
  | succ depth ih =>
    rw [listBlock] at listed
    cases node : dir.block vcn with
    | none => simp [node] at listed
    | some block =>
      simp only [node] at listed
      apply listEntries_forall item each _ listed
      intro child list inner
      split at inner
      · cases inner
      · exact ih inner

end Listing

/-- Only the keys of an index. -/
def keyOnly (key : IndexKey) (_ : Option Int) : IndexKey := key

end Ttntfs.Ntfs
