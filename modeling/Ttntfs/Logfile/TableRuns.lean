import Ttntfs.Logfile.TableOperations

/-!
# Runs of table operations

A client allocates and frees entries in any order and, between the calls, fills
the bodies of entries it holds. What one step keeps, a whole run keeps. Freeing
is the exception: `lfs_table_entry_ok` looks at the mark alone, so an offset
inside an entry passes when the owner's data happen to look like the mark.
-/

namespace Ttntfs.Logfile

open Library.ByteMemory Library.LinkedOffsets

/-- One step of a client of a table. -/
inductive TableOp where
  /-- `lfs_table_alloc` -/
  | alloc
  /-- `lfs_table_alloc_at` -/
  | allocAt (vbo : Nat)
  /-- `lfs_table_free_idx` -/
  | freeIdx (off : Nat)
  /-- The owner of the entry at `off` fills it behind its first word. -/
  | store (off : Nat) (contents : Mem)

namespace TableOp

/-- The table after a step, and the entry it returned. -/
def apply (t : Table) : TableOp → Table × Option Nat
  | alloc => lfsTableAlloc t
  | allocAt vbo => lfsTableAllocAt t vbo
  | freeIdx off => (lfsTableFreeIdx t off, none)
  | store off contents =>
    ({ t with buf := copyRange t.buf (off + 4) contents 0 (t.esize - 4) }, none)

/-- A client fills only entries it holds. -/
def Permitted (t : Table) : TableOp → Prop
  | store off _ => Allocated t off
  | _ => True

/-- An offset given to `lfs_table_free_idx` does not wrap, and if it passes
`lfs_table_entry_ok` it is that of an entry. -/
def FreesEntries (t : Table) : TableOp → Prop
  | freeIdx off => off + t.esize < 2 ^ 32 ∧ (lfsTableEntryOk t off = true → IsEntry t off)
  | _ => True

/-- The entry a step is about. -/
def addressed (t : Table) : TableOp → Option Nat
  | alloc => (lfsTableAlloc t).2
  | allocAt vbo => some vbo
  | freeIdx off => some off
  | store off _ => some off

/-- A step leaves all allocated entries but the addressed one alone. -/
def Safe (t : Table) (op : TableOp) : Prop :=
  KeepsAllocated t (op.apply t).1 (op.addressed t)

/-- What a step promises about its result: `lfs_table_alloc` returns a zeroed entry
that was free, and `lfs_table_alloc_at` fails only for offsets it must refuse. -/
def Returns (t : Table) : TableOp → Prop
  | alloc => ∀ off, (lfsTableAlloc t).2 = some off →
      ¬ Allocated t off ∧ Allocated (lfsTableAlloc t).1 off ∧
        ∀ i, off + 4 ≤ i → i < off + t.esize → (lfsTableAlloc t).1.buf i = 0
  | allocAt vbo => (lfsTableAllocAt t vbo).2 = none → RefusedOffset t vbo
  | _ => True

end TableOp

/-- The tables reached from `start` by steps of which each is allowed where it is
taken. -/
inductive TableRun (allowed : Table → TableOp → Prop) (start : Table) : Table → Prop where
  | start : TableRun allowed start start
  | step {t : Table} {op : TableOp} :
      TableRun allowed start t → allowed t op → TableRun allowed start (op.apply t).1

section Steps

variable {t t' : Table} {free free' : List Nat} {off : Nat}

theorem keepsAllocated_refl (t : Table) (addressed : Option Nat) : KeepsAllocated t t addressed :=
  fun _ allocated _ => ⟨allocated, fun _ _ _ => rfl⟩

/-- What every step does to a well-formed table: it is well formed afterwards, with
entries of the same size and at least as many of them. -/
structure StepKeeps (t t' : Table) (free free' : List Nat) : Prop where
  size : t'.esize = t.esize
  grown : t.entries ≤ t'.entries
  inv : TableInv t' free'
  covers : CoversFree t free → CoversFree t' free'

theorem stepKeeps_refl (inv : TableInv t free) : StepKeeps t t free free :=
  { size := rfl, grown := Nat.le_refl _, inv := inv, covers := fun covers => covers }

theorem store_fills (inv : TableInv t free) (allocated : Allocated t off) (contents : Mem) :
    FillsEntries 4 t ((TableOp.store off contents).apply t).1 := by
  have large := inv.esize_ge
  exact FillsEntries.single allocated (fun i outside => copyRange_outside (by omega))

theorem store_keeps (inv : TableInv t free) (allocated : Allocated t off) (contents : Mem) :
    StepKeeps t ((TableOp.store off contents).apply t).1 free free := by
  have fills := store_fills inv allocated contents
  have small : 4 ≤ 4 := Nat.le_refl 4
  exact { size := fills.size small, grown := (fills.entries small).ge
          inv := fills.inv small inv, covers := fills.covers small }

theorem marked_of_ok (accepted : lfsTableEntryOk t off = true) :
    t.word off = rtEntryAllocated := by
  simp only [lfsTableEntryOk, Bool.and_eq_true, decide_eq_true_eq] at accepted
  exact accepted.2

/-- Every step that fills only held entries and frees only entries keeps a table
well formed. -/
theorem step_keeps (inv : TableInv t free) {op : TableOp} (permitted : op.Permitted t)
    (frees : op.FreesEntries t) : ∃ free', StepKeeps t (op.apply t).1 free free' := by
  cases op with
  | alloc =>
    rcases lfsTableAlloc_spec inv with ⟨t', off, free', computed, allocates⟩ | ⟨computed, _⟩
    · refine ⟨free', ?_⟩
      rw [show (TableOp.alloc.apply t).1 = t' by rw [TableOp.apply, computed]]
      exact { size := allocates.size, grown := allocates.grown, inv := allocates.inv,
              covers := allocates.covers }
    · refine ⟨free, ?_⟩
      rw [show (TableOp.alloc.apply t).1 = t by rw [TableOp.apply, computed]]
      exact stepKeeps_refl inv
  | allocAt vbo =>
    have unchanged : ∀ result, lfsTableAllocAt t vbo = (t, result) →
        ∃ free', StepKeeps t ((TableOp.allocAt vbo).apply t).1 free free' := by
      intro result computed
      refine ⟨free, ?_⟩
      rw [show ((TableOp.allocAt vbo).apply t).1 = t by rw [TableOp.apply, computed]]
      exact stepKeeps_refl inv
    rcases lfsTableAllocAt_spec inv vbo with
      ⟨_, computed⟩ | ⟨_, ⟨_, computed⟩ | ⟨t', free', computed, allocates⟩ | ⟨_, computed⟩⟩
    · exact unchanged _ computed
    · exact unchanged _ computed
    · refine ⟨free', ?_⟩
      rw [show ((TableOp.allocAt vbo).apply t).1 = t' by rw [TableOp.apply, computed]]
      exact { size := allocates.size, grown := allocates.grown, inv := allocates.inv,
              covers := allocates.covers }
    · exact unchanged _ computed
  | freeIdx off =>
    rcases Bool.eq_false_or_eq_true (lfsTableEntryOk t off) with accepted | refused
    · obtain ⟨free', freed⟩ := lfsTableFreeIdx_spec inv ⟨frees.2 accepted, marked_of_ok accepted⟩
      exact ⟨free', { size := freed.size, grown := freed.entries.ge, inv := freed.inv,
                      covers := freed.covers }⟩
    · refine ⟨free, ?_⟩
      rw [show ((TableOp.freeIdx off).apply t).1 = t from lfsTableFreeIdx_refused refused]
      exact stepKeeps_refl inv
  | store off contents => exact ⟨free, store_keeps inv permitted contents⟩

/-- Every step that fills only held entries and frees only entries leaves the other
allocated entries alone. -/
theorem step_safe (inv : TableInv t free) {op : TableOp} (permitted : op.Permitted t)
    (frees : op.FreesEntries t) : op.Safe t := by
  unfold TableOp.Safe
  cases op with
  | alloc =>
    simp only [TableOp.apply, TableOp.addressed]
    rcases lfsTableAlloc_spec inv with ⟨t', off, free', computed, allocates⟩ | ⟨computed, _⟩
    · rw [computed]
      exact allocates.kept
    · rw [computed]
      exact keepsAllocated_refl t none
  | allocAt vbo =>
    simp only [TableOp.apply, TableOp.addressed]
    rcases lfsTableAllocAt_spec inv vbo with
      ⟨_, computed⟩ | ⟨_, ⟨_, computed⟩ | ⟨t', free', computed, allocates⟩ | ⟨_, computed⟩⟩
    · rw [computed]
      exact keepsAllocated_refl t _
    · rw [computed]
      exact keepsAllocated_refl t _
    · rw [computed]
      exact allocates.kept
    · rw [computed]
      exact keepsAllocated_refl t _
  | freeIdx off =>
    simp only [TableOp.apply, TableOp.addressed]
    rcases Bool.eq_false_or_eq_true (lfsTableEntryOk t off) with accepted | refused
    · obtain ⟨free', freed⟩ := lfsTableFreeIdx_spec inv ⟨frees.2 accepted, marked_of_ok accepted⟩
      exact freed.kept
    · rw [lfsTableFreeIdx_refused refused]
      exact keepsAllocated_refl t _
  | store off contents =>
    intro other allocated different
    have distinct : other ≠ off := fun same => different (congrArg some same)
    have apart := allocated.1.disjoint permitted.1 distinct
    have still := (store_fills inv permitted contents).allocated (Nat.le_refl 4) other
    refine ⟨still.mpr allocated, ?_⟩
    intro i lower upper
    exact copyRange_outside (by omega)

end Steps

/-- The steps after which a table stays well formed. -/
def TableOp.Sound (t : Table) (op : TableOp) : Prop := op.Permitted t ∧ op.FreesEntries t

/-- A run of sound steps keeps a table well formed, its entry size, and a free list
that covers every unallocated entry. -/
theorem tableRun_keeps {start t : Table} {free : List Nat} (inv : TableInv start free)
    (run : TableRun TableOp.Sound start t) : ∃ free', StepKeeps start t free free' := by
  induction run with
  | start => exact ⟨free, stepKeeps_refl inv⟩
  | step _ sound ih =>
    obtain ⟨between, before⟩ := ih
    obtain ⟨free', after⟩ := step_keeps before.inv sound.1 sound.2
    exact ⟨free', { size := after.size.trans before.size, grown := before.grown.trans after.grown,
                    inv := after.inv, covers := fun covers => after.covers (before.covers covers) }⟩

end Ttntfs.Logfile
