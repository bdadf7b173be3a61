import Mathlib.Data.List.Nodup

/-!
# Singly linked lists threaded through offsets

An intrusive list is a successor map on offsets together with a start. `Linked`
relates a start to the list of nodes visited and to the offset at which the walk
arrives afterwards; a whole list arrives at its terminator. Splitting and joining
at any node are then the same law, and each update of the successor map is local
to the one node it rewrites.
-/

namespace Ttntfs.Library.LinkedOffsets

/-- Following `next` from `first` visits exactly the listed nodes and then
arrives at `stop`. -/
def Linked (next : Nat → Nat) : Nat → List Nat → Nat → Prop
  | first, [], stop => first = stop
  | first, node :: rest, stop => first = node ∧ Linked next (next node) rest stop

/-- A walk through two lists in a row passes some offset between them. -/
theorem linked_append {next : Nat → Nat} {first stop : Nat} {front back : List Nat} :
    Linked next first (front ++ back) stop ↔
      ∃ middle, Linked next first front middle ∧ Linked next middle back stop := by
  induction front generalizing first with
  | nil => exact ⟨fun linked => ⟨first, rfl, linked⟩, fun ⟨_, same, linked⟩ => same ▸ linked⟩
  | cons node rest ih =>
    constructor
    · rintro ⟨same, tail⟩
      obtain ⟨middle, left, right⟩ := ih.mp tail
      exact ⟨middle, ⟨same, left⟩, right⟩
    · rintro ⟨middle, ⟨same, left⟩, right⟩
      exact ⟨same, ih.mpr ⟨middle, left, right⟩⟩

/-- Only the successors of the visited nodes matter. -/
theorem linked_congr {next next' : Nat → Nat} {first stop : Nat} {nodes : List Nat}
    (same : ∀ node ∈ nodes, next node = next' node) (linked : Linked next first nodes stop) :
    Linked next' first nodes stop := by
  induction nodes generalizing first with
  | nil => exact linked
  | cons node rest ih =>
    obtain ⟨start, tail⟩ := linked
    refine ⟨start, ?_⟩
    rw [← same node List.mem_cons_self]
    exact ih (fun other member => same other (List.mem_cons_of_mem _ member)) tail

/-- The start of a nonempty walk is its first node. -/
theorem linked_head {next : Nat → Nat} {first stop node : Nat} {rest : List Nat}
    (linked : Linked next first (node :: rest) stop) : first = node := linked.1

/-- A list terminated by zero whose nodes are nonzero is empty exactly when it
starts at zero. -/
theorem linked_nil_iff {next : Nat → Nat} {first : Nat} {nodes : List Nat}
    (linked : Linked next first nodes 0) (nonzero : ∀ node ∈ nodes, node ≠ 0) :
    nodes = [] ↔ first = 0 := by
  cases nodes with
  | nil => exact iff_of_true rfl linked
  | cons node rest =>
    have start : first = node := linked.1
    have positive : node ≠ 0 := nonzero node List.mem_cons_self
    simp [start, positive]

/-- Walks from one start to zero through nonzero nodes visit the same nodes. -/
theorem linked_unique {next : Nat → Nat} {first : Nat} {nodes nodes' : List Nat}
    (linked : Linked next first nodes 0) (nonzero : ∀ node ∈ nodes, node ≠ 0)
    (linked' : Linked next first nodes' 0) (nonzero' : ∀ node ∈ nodes', node ≠ 0) :
    nodes = nodes' := by
  induction nodes generalizing first nodes' with
  | nil =>
    have start : first = 0 := linked
    exact ((linked_nil_iff linked' nonzero').mpr start).symm
  | cons node rest ih =>
    cases nodes' with
    | nil =>
      have start : first = 0 := linked'
      exact absurd (linked.1.symm.trans start) (nonzero node List.mem_cons_self)
    | cons node' rest' =>
      have same : node = node' := linked.1.symm.trans linked'.1
      subst same
      have tails : rest = rest' := ih linked.2
        (fun other member => nonzero other (List.mem_cons_of_mem _ member)) linked'.2
        (fun other member => nonzero' other (List.mem_cons_of_mem _ member))
      rw [tails]

/-- A walk that arrives at zero visits no node twice: from both visits the same
nodes would follow. -/
theorem linked_nodup {next : Nat → Nat} {first : Nat} {nodes : List Nat}
    (linked : Linked next first nodes 0) (nonzero : ∀ node ∈ nodes, node ≠ 0) : nodes.Nodup := by
  induction nodes generalizing first with
  | nil => exact List.nodup_nil
  | cons node rest ih =>
    have restNonzero : ∀ other ∈ rest, other ≠ 0 :=
      fun other member => nonzero other (List.mem_cons_of_mem _ member)
    refine List.nodup_cons.mpr ⟨fun again => ?_, ih linked.2 restNonzero⟩
    obtain ⟨front, back, rfl⟩ := List.append_of_mem again
    have parts := linked.2
    rw [linked_append] at parts
    obtain ⟨middle, _, atNode, after⟩ := parts
    have repeated : front ++ node :: back = back := by
      refine linked_unique linked.2 restNonzero after (fun other member => ?_)
      exact restNonzero other (List.mem_append_right _ (List.mem_cons_of_mem _ member))
    have lengths := congrArg List.length repeated
    simp only [List.length_append, List.length_cons] at lengths
    omega

/-- Redirecting the last node extends the list at its end. -/
theorem linked_extend {next next' : Nat → Nat} {first stop last target : Nat}
    {front : List Nat} (linked : Linked next first (front ++ [last]) stop)
    (kept : ∀ node ∈ front, next' node = next node) (redirected : next' last = target) :
    Linked next' first (front ++ [last]) target := by
  rw [linked_append] at linked ⊢
  obtain ⟨middle, before, atLast, _⟩ := linked
  refine ⟨middle, linked_congr (fun node member => (kept node member).symm) before,
    atLast, ?_⟩
  exact redirected

/-- Redirecting the predecessor of a node past it unlinks the node. -/
theorem linked_unlink {next next' : Nat → Nat} {first stop before node : Nat}
    {front back : List Nat} (linked : Linked next first (front ++ before :: node :: back) stop)
    (keptFront : ∀ other ∈ front, next' other = next other)
    (keptBack : ∀ other ∈ back, next' other = next other)
    (redirected : next' before = next node) :
    Linked next' first (front ++ before :: back) stop := by
  rw [linked_append] at linked ⊢
  obtain ⟨middle, initial, atBefore, atNode, rest⟩ := linked
  refine
    ⟨middle, linked_congr (fun other member => (keptFront other member).symm) initial, atBefore, ?_⟩
  rw [redirected]
  exact linked_congr (fun other member => (keptBack other member).symm) rest

/-- Consecutive positions whose successors are the following positions form a
walk from the first to just past the last. -/
theorem linked_consecutive {next : Nat → Nat} (position : Nat → Nat) (start count : Nat)
    (successor : ∀ k, start ≤ k → k < start + count → next (position k) = position (k + 1)) :
    Linked next (position start) ((List.range' start count).map position)
      (position (start + count)) := by
  induction count generalizing start with
  | zero => rfl
  | succ count ih =>
    simp only [List.range'_succ, List.map_cons, Linked, true_and]
    rw [successor start (Nat.le_refl _) (by omega), show start + (count + 1) = start + 1 + count by omega]
    exact ih (start + 1) (fun k lower upper => successor k (by omega) (by omega))

/-- Follow the list from `before` until the node whose successor is `target`.
The walk gives up at the terminator and when its budget runs out. -/
def findPredecessor (next : Nat → Nat) (target : Nat) : Nat → Nat → Option Nat
  | _, 0 => none
  | 0, before + 1 => if next (before + 1) = target then some (before + 1) else none
  | budget + 1, before + 1 =>
    if next (before + 1) = target then some (before + 1)
    else findPredecessor next target budget (next (before + 1))

/-- With enough budget the walk stops at the node just before a later member. -/
theorem findPredecessor_linked {next : Nat → Nat} {first target : Nat} {front back : List Nat}
    {before budget : Nat} (linked : Linked next first (front ++ before :: target :: back) 0)
    (nonzero : ∀ node ∈ front ++ before :: target :: back, node ≠ 0)
    (fresh : target ∉ front ++ [before]) (enough : front.length ≤ budget) :
    findPredecessor next target budget first = some before := by
  induction front generalizing first budget with
  | nil =>
    obtain ⟨start, successor, _⟩ := linked
    have positive : before ≠ 0 := nonzero before (by simp)
    obtain ⟨value, rfl⟩ := Nat.exists_eq_succ_of_ne_zero positive
    subst start
    cases budget <;> simp [findPredecessor, successor]
  | cons node rest ih =>
    obtain ⟨start, tail⟩ := linked
    have positive : node ≠ 0 := nonzero node (by simp)
    obtain ⟨value, rfl⟩ := Nat.exists_eq_succ_of_ne_zero positive
    subst start
    obtain ⟨smaller, rfl⟩ : ∃ smaller, budget = smaller + 1 := by
      cases budget with
      | zero => simp at enough
      | succ smaller => exact ⟨smaller, rfl⟩
    have different : next (value + 1) ≠ target := by
      intro same
      cases rest with
      | nil => exact fresh (by simp [← linked_head tail, same])
      | cons other others => exact fresh (by simp [← linked_head tail, same])
    have recursive := ih tail
      (fun other member => nonzero other (List.mem_cons_of_mem _ member))
      (fun member => fresh (List.mem_cons_of_mem _ member))
      (Nat.le_of_succ_le_succ (by simpa using enough))
    simp [findPredecessor, different, recursive]

/-- The walk never reports a node that is not on the list. -/
theorem findPredecessor_absent {next : Nat → Nat} {first target : Nat} {nodes : List Nat}
    {budget : Nat} (linked : Linked next first nodes 0) (nonzero : ∀ node ∈ nodes, node ≠ 0)
    (positive : target ≠ 0) (absent : target ∉ nodes) :
    findPredecessor next target budget first = none := by
  induction nodes generalizing first budget with
  | nil =>
    have start : first = 0 := linked
    cases budget <;> simp [start, findPredecessor]
  | cons node rest ih =>
    obtain ⟨start, tail⟩ := linked
    have nodePositive : node ≠ 0 := nonzero node List.mem_cons_self
    obtain ⟨value, rfl⟩ := Nat.exists_eq_succ_of_ne_zero nodePositive
    subst start
    have different : next (value + 1) ≠ target := by
      intro same
      cases rest with
      | nil => exact positive (same ▸ tail)
      | cons other others =>
        exact absent (by simp [← linked_head tail, same])
    cases budget with
    | zero => simp [findPredecessor, different]
    | succ smaller =>
      have recursive : findPredecessor next target smaller (next (value + 1)) = none :=
        ih tail
          (fun other member => nonzero other (List.mem_cons_of_mem _ member))
          (fun member => absent (List.mem_cons_of_mem _ member))
      simp [findPredecessor, different, recursive]

end Ttntfs.Library.LinkedOffsets
