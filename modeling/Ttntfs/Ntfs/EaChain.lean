import Mathlib.Data.List.Basic
import Mathlib.Logic.Function.Basic
import Ttntfs.Ntfs.ExtendedAttributes

/-!
# Chains of extended attributes

A well-formed `$EA` is a chain of entries with distinct names. Every entry but the last says how
far the next one is; the last one may say where it ends or nothing. In such a chain the lookup
finds the entry of a name and takes its whole length.
-/

namespace Ttntfs.Ntfs

open Library.ByteFields Library.ByteMemory

/-- An entry of `$EA`. -/
structure EaEntry where
  flags : UInt8
  name : List UInt8
  /-- the byte behind the name -/
  terminator : UInt8
  value : List UInt8
  padding : List UInt8
  /-- `next_entry_offset` is zero -/
  ends : Bool
  nameFits : name.length ≤ 255
  valueFits : value.length < 2 ^ 16
  padded : eaEntrySize name.length value.length ≤ eaAttrSize + (1 + name.length + value.length) + padding.length
  trimmed : ends = true →
    eaAttrSize + (1 + name.length + value.length) + padding.length = eaEntrySize name.length value.length

namespace EaEntry

/-- The length of an entry. -/
def size (e : EaEntry) : Nat := eaAttrSize + (1 + e.name.length + e.value.length) + e.padding.length

/-- `next_entry_offset` -/
def next (e : EaEntry) : Nat := if e.ends then 0 else e.size

/-- An entry as it stands in `$EA`. -/
def bytes (e : EaEntry) : List UInt8 :=
  leBytes 4 e.next ++ (leBytes 1 e.flags.toNat ++ (leBytes 1 e.name.length ++ (leBytes 2 e.value.length ++
    (e.name ++ (e.terminator :: (e.value ++ e.padding))))))

@[simp] theorem length_bytes (e : EaEntry) : e.bytes.length = e.size := by
  simp only [bytes, List.length_append, length_leBytes, List.length_cons, size, eaAttrSize]
  omega

theorem size_pos (e : EaEntry) : 9 ≤ e.size := by
  simp only [size, eaAttrSize]
  omega

end EaEntry

namespace EaEntry

variable (before behind : List UInt8) (e : EaEntry)

theorem next_read (small : e.size < 2 ^ 32) :
    fieldAt (before ++ (e.bytes ++ behind)) 4 before.length = e.next := by
  have fits : e.next < 256 ^ 4 := by
    rw [next]
    split <;> omega
  rw [bytes, List.append_assoc]
  exact fieldAt_written rfl fits

theorem header_read (width off : Nat) :
    fieldAt (before ++ (e.bytes ++ behind)) width (before.length + (4 + off)) =
      fieldAt (leBytes 1 e.flags.toNat ++ (leBytes 1 e.name.length ++ (leBytes 2 e.value.length ++
        (e.name ++ (e.terminator :: (e.value ++ e.padding)) ++ behind)))) width off := by
  rw [fieldAt_append, bytes]
  simp only [List.append_assoc]
  exact fieldAt_skip 4 _ _ width off

theorem flags_read : fieldAt (before ++ (e.bytes ++ behind)) 1 (before.length + 4) = e.flags.toNat :=
  (header_read before behind e 1 0).trans (fieldAt_first e.flags.toNat_lt)

theorem nameLength_read : fieldAt (before ++ (e.bytes ++ behind)) 1 (before.length + 5) = e.name.length := by
  have fits := e.nameFits
  exact (header_read before behind e 1 1).trans ((fieldAt_skip 1 _ _ 1 0).trans (fieldAt_first (by omega)))

theorem valueLength_read : fieldAt (before ++ (e.bytes ++ behind)) 2 (before.length + 6) = e.value.length := by
  have first := (header_read before behind e 2 2).trans (fieldAt_skip 1 _ _ 2 1)
  exact first.trans ((fieldAt_skip 1 _ _ 2 0).trans (fieldAt_first e.valueFits))

theorem drop_header : (before ++ (e.bytes ++ behind)).drop (before.length + eaAttrSize) =
    e.name ++ (e.terminator :: (e.value ++ (e.padding ++ behind))) := by
  have header : e.bytes ++ behind = (leBytes 4 e.next ++ (leBytes 1 e.flags.toNat ++ (leBytes 1 e.name.length ++
      leBytes 2 e.value.length))) ++ (e.name ++ (e.terminator :: (e.value ++ (e.padding ++ behind)))) := by
    simp only [bytes, List.append_assoc, List.cons_append]
  rw [List.drop_append, List.drop_of_length_le (by omega), List.nil_append, Nat.add_sub_cancel_left, header]
  exact List.drop_left' (by simp only [List.length_append, length_leBytes, eaAttrSize])

theorem name_read (name : List UInt8) (sameLength : e.name.length = name.length) :
    ((before ++ (e.bytes ++ behind)).drop (before.length + eaAttrSize)).take name.length = name ↔ e.name = name := by
  rw [drop_header, ← sameLength, List.take_left]

theorem value_read :
    ((before ++ (e.bytes ++ behind)).drop (before.length + eaAttrSize + (e.name.length + 1))).take e.value.length =
      e.value := by
  rw [← List.drop_drop, drop_header, ← List.drop_drop, List.drop_left, List.drop_one, List.tail_cons, List.take_left]

end EaEntry

/-! ## Chains -/

/-- The entries one behind the other. -/
def chainBytes (entries : List EaEntry) : List UInt8 := entries.flatMap EaEntry.bytes

/-- How long the entries are. -/
def chainSize (entries : List EaEntry) : Nat := (entries.map EaEntry.size).sum

/-- How long the entries are when they are packed. -/
def chainPacked (entries : List EaEntry) : Nat :=
  (entries.map fun e => eaPackedSize e.name.length e.value.length).sum

/-- Every entry but the last leads to the next, and no two have the same name. -/
def Linked (entries : List EaEntry) : Prop := entries.Pairwise fun e f => e.ends = false ∧ e.name ≠ f.name

@[simp] theorem chainBytes_nil : chainBytes [] = [] := rfl

@[simp] theorem chainBytes_cons (e : EaEntry) (rest : List EaEntry) :
    chainBytes (e :: rest) = e.bytes ++ chainBytes rest := List.flatMap_cons

@[simp] theorem chainBytes_append (first second : List EaEntry) :
    chainBytes (first ++ second) = chainBytes first ++ chainBytes second := List.flatMap_append

@[simp] theorem chainSize_nil : chainSize [] = 0 := rfl

@[simp] theorem chainSize_cons (e : EaEntry) (rest : List EaEntry) :
    chainSize (e :: rest) = e.size + chainSize rest := List.sum_cons

@[simp] theorem chainSize_append (first second : List EaEntry) :
    chainSize (first ++ second) = chainSize first + chainSize second := by
  rw [chainSize, List.map_append, List.sum_append, chainSize, chainSize]

@[simp] theorem chainPacked_cons (e : EaEntry) (rest : List EaEntry) :
    chainPacked (e :: rest) = eaPackedSize e.name.length e.value.length + chainPacked rest := List.sum_cons

@[simp] theorem chainPacked_append (first second : List EaEntry) :
    chainPacked (first ++ second) = chainPacked first + chainPacked second := by
  rw [chainPacked, List.map_append, List.sum_append, chainPacked, chainPacked]

@[simp] theorem length_chainBytes (entries : List EaEntry) : (chainBytes entries).length = chainSize entries := by
  induction entries with
  | nil => rfl
  | cons e rest ih =>
    rw [chainBytes_cons, List.length_append, EaEntry.length_bytes, ih, chainSize_cons]

theorem chainPacked_le (entries : List EaEntry) : chainPacked entries + 4 * entries.length ≤ chainSize entries := by
  induction entries with
  | nil => exact Nat.le_refl 0
  | cons e rest ih =>
    simp only [chainPacked_cons, chainSize_cons, EaEntry.size, eaPackedSize, eaAttrSize, List.length_cons]
    omega

theorem chainPacked_lt {entries : List EaEntry} (short : chainSize entries ≤ 64 * 1024) :
    chainPacked entries < 2 ^ 16 := by
  have smaller := chainPacked_le entries
  cases entries with
  | nil => decide
  | cons e rest =>
    rw [List.length_cons] at smaller
    omega

theorem chainSize_pos {entries : List EaEntry} (some : entries ≠ []) : 0 < chainSize entries := by
  cases entries with
  | nil => exact absurd rfl some
  | cons e rest =>
    have := e.size_pos
    rw [chainSize_cons]
    omega

/-- Where the first entry of a name is and how long it is. -/
def entryPlace (name : List UInt8) : List EaEntry → Nat → Option (Nat × Nat)
  | [], _ => none
  | e :: rest, offset => if e.name = name then some (offset, e.size) else entryPlace name rest (offset + e.size)

/-- One round of the loop at an entry that is inside the size, and that reaches its end where it
does not lead on. -/
theorem eaLookupFrom_round (name before behind : List UInt8) (e : EaEntry) (size : Nat) (small : e.size < 2 ^ 32)
    (inside : before.length + e.size ≤ size) (last : e.ends = true → before.length + e.size = size) :
    eaLookupFrom (before ++ (e.bytes ++ behind)) size name before.length =
      if e.name = name then some (before.length, e.size)
      else if before.length + e.size < size then
        eaLookupFrom (before ++ (e.bytes ++ behind)) size name (before.length + e.size)
      else none := by
  have positive := e.size_pos
  have padded := e.padded
  have length : e.size = eaAttrSize + (1 + e.name.length + e.value.length) + e.padding.length := rfl
  have entry : (if e.next ≠ 0 then e.next else size - before.length) = e.size := by
    rw [EaEntry.next]
    cases ends : e.ends with
    | false => rw [if_neg Bool.false_ne_true, if_pos (by omega)]
    | true =>
      have := last ends
      rw [if_pos rfl, if_neg (by decide)]
      omega
  have taken : (if e.next ≠ 0 then e.next else eaEntrySize e.name.length e.value.length) = e.size := by
    rw [EaEntry.next]
    cases ends : e.ends with
    | false => rw [if_neg Bool.false_ne_true, if_pos (by omega)]
    | true =>
      rw [if_pos rfl, if_neg (by decide)]
      exact (e.trimmed ends).symm
  rw [eaLookupFrom, e.next_read before behind small, e.nameLength_read, e.valueLength_read, entry]
  dsimp only
  rw [taken]
  have named : (e.name.length = name.length ∧
      ((before ++ (e.bytes ++ behind)).drop (before.length + eaAttrSize)).take name.length = name) ↔
        e.name = name :=
    ⟨fun ⟨sameLength, same⟩ => (e.name_read before behind name sameLength).mp same,
      fun same => ⟨congrArg List.length same, (e.name_read before behind name (congrArg List.length same)).mpr same⟩⟩
  rw [if_neg (by simp only [eaAttrSize]; omega), if_neg (by simp only [eaAttrSize] at length ⊢; omega),
    if_neg (by omega)]
  simp only [named]
  by_cases same : e.name = name
  · rw [if_pos same, if_pos same, if_neg (by omega)]
  · rw [if_neg same, if_neg same, EaEntry.next]
    cases ends : e.ends with
    | false => simp only [Bool.false_eq_true, if_false, show 0 < e.size by omega, true_and]
    | true =>
      have := last ends
      rw [if_pos rfl, if_neg (by omega), if_neg (by omega)]

/-- The loop goes through a chain from any of its entries. -/
theorem eaLookupFrom_chain (name tail : List UInt8) (e : EaEntry) (rest : List EaEntry) (before : List UInt8)
    (linked : Linked (e :: rest)) (small : chainSize (e :: rest) < 2 ^ 32) :
    eaLookupFrom (before ++ (chainBytes (e :: rest) ++ tail)) (before.length + chainSize (e :: rest)) name
      before.length = entryPlace name (e :: rest) before.length := by
  induction rest generalizing e before with
  | nil =>
    rw [chainSize_cons, chainSize_nil, Nat.add_zero] at small ⊢
    rw [chainBytes_cons, chainBytes_nil, List.append_nil,
      eaLookupFrom_round name before tail e _ small le_rfl (fun _ => rfl), if_neg (Nat.lt_irrefl _)]
    rfl
  | cons f rest ih =>
    rw [chainSize_cons] at small ⊢
    have leads : e.ends = false := ((List.pairwise_cons.mp linked).1 f (List.mem_cons_self ..)).1
    have positive := chainSize_pos (List.cons_ne_nil f rest)
    have more : before.length + e.size < before.length + (e.size + chainSize (f :: rest)) := by omega
    have further := ih f (before ++ e.bytes) (List.pairwise_cons.mp linked).2 (by omega)
    rw [List.length_append, EaEntry.length_bytes, List.append_assoc, Nat.add_assoc] at further
    rw [chainBytes_cons, List.append_assoc,
      eaLookupFrom_round name before _ e _ (by omega) (by omega) (fun ends => absurd (leads ▸ ends) (by decide)),
      if_pos more, further]
    rfl

theorem ntfsEaLookup_chain {entries : List EaEntry} (name tail : List UInt8) (linked : Linked entries)
    (small : chainSize entries < 2 ^ 32) :
    ntfsEaLookup (chainBytes entries ++ tail) (chainSize entries) name = entryPlace name entries 0 := by
  cases entries with
  | nil => exact if_pos (by decide)
  | cons e rest =>
    have positive := e.size_pos
    have long : ¬chainSize (e :: rest) < eaAttrSize := by
      simp only [chainSize_cons, eaAttrSize]
      omega
    have found := eaLookupFrom_chain name tail e rest [] linked small
    rw [List.nil_append, List.length_nil, Nat.zero_add] at found
    rw [ntfsEaLookup, if_neg long, found]

theorem entryPlace_none {name : List UInt8} {entries : List EaEntry} (absent : ∀ e ∈ entries, e.name ≠ name)
    (offset : Nat) : entryPlace name entries offset = none := by
  induction entries generalizing offset with
  | nil => rfl
  | cons e rest ih =>
    rw [entryPlace, if_neg (absent e (List.mem_cons_self ..))]
    exact ih (fun f member => absent f (List.mem_cons_of_mem e member)) _

theorem entryPlace_split {name : List UInt8} {first second : List EaEntry} {e : EaEntry}
    (linked : Linked (first ++ e :: second)) (named : e.name = name) (offset : Nat) :
    entryPlace name (first ++ e :: second) offset = some (offset + chainSize first, e.size) := by
  induction first generalizing offset with
  | nil => rw [List.nil_append, entryPlace, if_pos named, chainSize_nil, Nat.add_zero]
  | cons f first ih =>
    obtain ⟨head, linked⟩ := List.pairwise_cons.mp linked
    have other : f.name ≠ name := named ▸ (head e (List.mem_append_right first (List.mem_cons_self ..))).2
    rw [List.cons_append, entryPlace, if_neg other, ih linked, chainSize_cons, Nat.add_assoc]

/-- What the entries say about a name. -/
def valueOf (entries : List EaEntry) (name : List UInt8) : Option (List UInt8) :=
  (entries.find? fun e => e.name = name).map EaEntry.value

theorem entry_or_none (entries : List EaEntry) (name : List UInt8) :
    (∀ e ∈ entries, e.name ≠ name) ∨ ∃ first e second, entries = first ++ e :: second ∧ e.name = name := by
  by_cases there : ∃ e ∈ entries, e.name = name
  · obtain ⟨e, member, named⟩ := there
    obtain ⟨first, second, split⟩ := List.append_of_mem member
    exact .inr ⟨first, e, second, split, named⟩
  · exact .inl fun e member named => there ⟨e, member, named⟩

/-- An attribute that no entry names has no value. -/
theorem valueOf_none {entries : List EaEntry} {name : List UInt8} (absent : ∀ e ∈ entries, e.name ≠ name) :
    valueOf entries name = none := by
  rw [valueOf, List.find?_eq_none.mpr fun e member => by simpa using absent e member, Option.map_none]

theorem valueOf_cons (e : EaEntry) (rest : List EaEntry) (name : List UInt8) :
    valueOf (e :: rest) name = if e.name = name then some e.value else valueOf rest name := by
  unfold valueOf
  rw [List.find?_cons]
  by_cases same : e.name = name
  · simp only [same, decide_true, if_true, Option.map_some]
  · simp only [same, decide_false, if_false]

theorem before_other {first second : List EaEntry} {e : EaEntry} (linked : Linked (first ++ e :: second)) :
    ∀ f ∈ first, f.name ≠ e.name :=
  fun f member => ((List.pairwise_append.mp linked).2.2 f member e (List.mem_cons_self ..)).2

theorem behind_other {first second : List EaEntry} {e : EaEntry} (linked : Linked (first ++ e :: second)) :
    ∀ f ∈ second, f.name ≠ e.name :=
  fun f member => ((List.pairwise_cons.mp (List.pairwise_append.mp linked).2.1).1 f member).2.symm

theorem valueOf_append (first second : List EaEntry) (name : List UInt8) :
    valueOf (first ++ second) name = (valueOf first name).or (valueOf second name) := by
  induction first with
  | nil => rfl
  | cons e first ih =>
    rw [List.cons_append, valueOf_cons, valueOf_cons, ih]
    split <;> rfl

theorem valueOf_split {first second : List EaEntry} {e : EaEntry} (linked : Linked (first ++ e :: second)) :
    valueOf (first ++ e :: second) e.name = some e.value := by
  rw [valueOf_append, valueOf_none (before_other linked), Option.none_or, valueOf_cons, if_pos rfl]

theorem valueOf_without {first second : List EaEntry} {e : EaEntry} (linked : Linked (first ++ e :: second)) :
    valueOf (first ++ second) = Function.update (valueOf (first ++ e :: second)) e.name none := by
  funext name
  by_cases same : name = e.name
  · subst same
    rw [Function.update_self, valueOf_append, valueOf_none (before_other linked), valueOf_none (behind_other linked)]
    rfl
  · rw [Function.update_of_ne same, valueOf_append, valueOf_append, valueOf_cons, if_neg (Ne.symm same)]

theorem valueOf_added {entries : List EaEntry} {e : EaEntry} (absent : ∀ f ∈ entries, f.name ≠ e.name) :
    valueOf (entries ++ [e]) = Function.update (valueOf entries) e.name (some e.value) := by
  funext name
  rw [valueOf_append, valueOf_cons]
  by_cases same : name = e.name
  · subst same
    rw [Function.update_self, valueOf_none absent, if_pos rfl]
    rfl
  · rw [Function.update_of_ne same, if_neg (Ne.symm same)]
    exact Option.or_none ..

theorem Linked.without {first second : List EaEntry} {e : EaEntry} (linked : Linked (first ++ e :: second)) :
    Linked (first ++ second) :=
  linked.sublist ((List.sublist_cons_self e second).append_left first)

theorem Linked.added {entries : List EaEntry} {e : EaEntry} (linked : Linked entries)
    (lead : ∀ f ∈ entries, f.ends = false) (absent : ∀ f ∈ entries, f.name ≠ e.name) : Linked (entries ++ [e]) := by
  refine List.pairwise_append.mpr ⟨linked, List.pairwise_singleton _ e, fun f member g single => ?_⟩
  rw [List.mem_singleton.mp single]
  exact ⟨lead f member, absent f member⟩

end Ttntfs.Ntfs
