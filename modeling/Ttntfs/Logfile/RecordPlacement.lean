import Ttntfs.Logfile.Actions
import Ttntfs.Logfile.OverlayAliasing

/-!
# Where an operation on an MFT record works

An operation on an MFT record is applied by record number. Heuristic H1 compares the
lcns that the log record carries with the runs of `$MFT:$DATA`, but it does not ask
whether the clusters it compared are those of the record, and an lcn of zero passes.
The record lies in clusters that the log record lists exactly where the log record
carries an lcn for each of its clusters and the run list the replay holds for
`$MFT:$DATA` is up to date.
-/

namespace Ttntfs.Logfile

open Library.ByteMemory Library.StatefulSteps

/-! ## What is loaded -/

/-- Two states of an open attribute stand for the same attribute. -/
structure SameTarget (oa oa' : OpenAttribute) : Prop where
  loaded : oa'.loaded = oa.loaded
  mftNo : oa'.mftNo = oa.mftNo
  type : oa'.type = oa.type
  nameLen : oa'.nameLen = oa.nameLen

theorem SameTarget.refl (oa : OpenAttribute) : SameTarget oa oa := ⟨rfl, rfl, rfl, rfl⟩

theorem failOa_ne_ok {α : Type} (idx : Nat) (oa : OpenAttribute) (e : ReplayError) (r s : Replay)
    (a : α) : (failOa idx oa e : ReplayM α) r ≠ .ok a s := by
  intro run
  cases run

theorem goOn_ok {idx : Nat} {oa oa' : OpenAttribute} {data : OpenAttr × Bool} {r s : Replay}
    (run : goOn idx oa data r = .ok oa' s) :
    data.2 = true ∧ oa' = { oa with toOpenAttr := data.1 } ∧ s = r := by
  rcases data with ⟨data, _ | _⟩
  · exact (failOa_ne_ok _ _ _ _ _ _ run).elim
  · cases run
    exact ⟨rfl, rfl, rfl⟩

/-- What loading from an entry of an attribute list comes to. -/
theorem oaLoadListed_ok {idx off p : Nat} {al : Mem} {oa oa' : OpenAttribute} {r s : Replay}
    (run : oaLoadListed idx off al p oa r = .ok oa' s) :
    ∃ em, getMft (mftRefNo al (p + alMftReference)) r = .ok em s ∧
      (em.bad || !checkFileRecord s.ovl.rs em.record) = false ∧
      ∃ data, loadExtents em.record
          (fun eo => attrMatches em.record eo oa.type oa.name oa.nameLen &&
            em.record (eo + atNonResident) ≠ 0 &&
            lfGet64 em.record (eo + atLowestVcn) = lfGet64 al (p + alLowestVcn))
          (attrOffsets s.ovl.rs em.record) oa.toOpenAttr = (data, true) ∧
        oa' = { oa with inExtent := true, toOpenAttr := data } := by
  rw [oaLoadListed] at run
  obtain ⟨em, t, read, run⟩ := bind_eq_ok_iff.mp run
  rw [tryCatch_eq_ok_iff fun e t a t' => failOa_ne_ok _ _ _ _ _ _] at read
  rw [get_bind] at run
  split at run
  · exact (failOa_ne_ok _ _ _ _ _ _ run).elim
  · rename_i usable
    obtain ⟨complete, rfl, rfl⟩ := goOn_ok run
    exact ⟨em, read, Bool.eq_false_iff.mpr usable, _, Prod.ext rfl complete, rfl⟩

theorem oaLoadList_target {idx off alLen fuel p : Nat} {al : Mem} {oa oa' : OpenAttribute}
    {r s : Replay} (run : oaLoadList idx off al alLen fuel p oa r = .ok oa' s) :
    SameTarget oa oa' := by
  induction fuel generalizing p oa r with
  | zero =>
    cases run
    exact .refl _
  | succ fuel ih =>
    rw [oaLoadList] at run
    split at run
    · cases run
      exact .refl _
    split at run
    · cases run
      exact .refl _
    split at run
    · obtain ⟨next, t, listed, rest⟩ := bind_eq_ok_iff.mp run
      obtain ⟨em, -, -, data, -, rfl⟩ := oaLoadListed_ok listed
      have later := ih rest
      exact ⟨later.loaded, later.mftNo, later.type, later.nameLen⟩
    · exact ih run

theorem oaLoadLists_target {idx off : Nat} {record : Mem} {list : Option Nat}
    {oa oa' : OpenAttribute} {r s : Replay}
    (run : oaLoadLists idx off record list oa r = .ok oa' s) : SameTarget oa oa' := by
  cases list with
  | none =>
    cases run
    exact .refl oa
  | some o =>
    obtain ⟨value, t, -, rest⟩ := bind_eq_ok_iff.mp run
    exact oaLoadList_target rest

/-- What finding the runs of an attribute comes to. -/
theorem oaResolve_ok {idx off : Nat} {oa oa' : OpenAttribute} {r s : Replay}
    (run : oaResolve idx off oa r = .ok oa' s) :
    ∃ m t, getMft oa.mftNo r = .ok m t ∧
      (m.bad || !checkFileRecord t.ovl.rs m.record) = false ∧
      ∃ data, loadExtents m.record
          (fun o => attrMatches m.record o oa.type oa.name oa.nameLen)
          (attrOffsets t.ovl.rs m.record) oa.toOpenAttr = (data, true) ∧
        oaLoadLists idx off m.record
          (lastAttributeList m.record (attrOffsets t.ovl.rs m.record))
          { oa with toOpenAttr := data } t = .ok oa' s := by
  rw [oaResolve] at run
  obtain ⟨m, t, read, run⟩ := bind_eq_ok_iff.mp run
  rw [tryCatch_eq_ok_iff fun e t a t' => failOa_ne_ok _ _ _ _ _ _] at read
  rw [get_bind] at run
  dsimp only at run
  split at run
  · exact (failOa_ne_ok _ _ _ _ _ _ run).elim
  · rename_i usable
    obtain ⟨next, u, went, rest⟩ := bind_eq_ok_iff.mp run
    obtain ⟨complete, rfl, rfl⟩ := goOn_ok went
    exact ⟨m, u, read, Bool.eq_false_iff.mpr usable, _, Prod.ext rfl complete, rest⟩

theorem oaResolve_target {idx off : Nat} {oa oa' : OpenAttribute} {r s : Replay}
    (run : oaResolve idx off oa r = .ok oa' s) : SameTarget oa oa' := by
  obtain ⟨m, t, -, -, data, -, rest⟩ := oaResolve_ok run
  have later := oaLoadLists_target rest
  exact ⟨later.loaded, later.mftNo, later.type, later.nameLen⟩

theorem names_keep (r : Replay) (off fuel p : Nat) (oa : OpenAttribute) :
    (oaIdentify.names r off fuel p oa).loaded = oa.loaded ∧
      (oaIdentify.names r off fuel p oa).runs = oa.runs := by
  induction fuel generalizing p oa with
  | zero => exact ⟨rfl, rfl⟩
  | succ fuel ih =>
    rw [oaIdentify.names]
    split
    · exact ⟨rfl, rfl⟩
    split
    · exact ⟨rfl, rfl⟩
    split
    · exact ⟨rfl, rfl⟩
    split
    · exact ih _ _
    · exact ih _ _

theorem oaIdentify_keep (r : Replay) (t : Table) (off : Nat) (oa : OpenAttribute) :
    (oaIdentify r t off oa).loaded = oa.loaded ∧ (oaIdentify r t off oa).runs = oa.runs := by
  rw [oaIdentify]
  split
  · exact names_keep r off _ _ _
  · exact names_keep r off _ _ _

/-! ## Invariants of loading -/

/-- What loading an open attribute does to a replay: it reads records and clusters into
the overlay, and keeps a loaded attribute in its slot. -/
structure LoadInvariant (I : Replay → Prop) : Prop where
  records : ∀ r mftNo, I r → I { r with ovl := (ovlGetMft r.ovl r.ap r.dev mftNo).1 }
  clusters : ∀ r clu, I r → I { r with ovl.clu := clu }
  slots : ∀ r idx oa, oa.loaded = true → I r → I { r with oa := Function.update r.oa idx oa }

namespace LoadInvariant

variable {I : Replay → Prop} (inv : LoadInvariant I)
include inv

theorem getMft (mftNo : Nat) : Keeps I (getMft mftNo) := by
  intro r holds
  have after := inv.records r mftNo holds
  rw [finalState, Logfile.getMft]
  rcases read : ovlGetMft r.ovl r.ap r.dev mftNo with ⟨ovl, _ | m⟩
  · rwa [read] at after
  · rwa [read] at after

theorem getCluster (lcn : Nat) : Keeps I (ovlGetCluster lcn) := by
  intro r holds
  rw [finalState, ovlGetCluster]
  rcases created : ovlCluCreate r.ovl.clu lcn with _ | ⟨clu, i⟩
  · exact holds
  dsimp only
  split
  · rename_i run
    split at run
    · cases run
      exact inv.clusters r _ holds
    · cases run
      exact inv.clusters r _ holds
    · split at run
      · cases run
        exact inv.clusters r _ holds
      · cases run
  · rename_i run
    split at run
    · cases run
    · cases run
    · split at run
      · cases run
      · cases run
        exact inv.clusters r _ holds

end LoadInvariant

/-- What the reads and the slots of loading keep. -/
structure ReadInvariant (I : Replay → Prop) : Prop where
  records : ∀ mftNo, Keeps I (getMft mftNo)
  clusters : ∀ lcn, Keeps I (ovlGetCluster lcn)
  slots : ∀ r idx oa, oa.loaded = true → I r → I { r with oa := Function.update r.oa idx oa }

theorem LoadInvariant.reads {I : Replay → Prop} (inv : LoadInvariant I) : ReadInvariant I :=
  ⟨inv.getMft, inv.getCluster, inv.slots⟩

namespace ReadInvariant

variable {I : Replay → Prop} (inv : ReadInvariant I)
include inv

theorem setOa (idx : Nat) (oa : OpenAttribute) (loaded : oa.loaded = true) :
    Keeps I (setOa idx oa) :=
  keeps_modify fun r holds => inv.slots r idx oa loaded holds

theorem failOa {α : Type} (idx : Nat) (oa : OpenAttribute) (loaded : oa.loaded = true)
    (e : ReplayError) : Keeps I (failOa idx oa e : ReplayM α) :=
  (inv.setOa idx { oa with failed := true } loaded).bind fun _ => keeps_throw e

omit inv in
theorem attrCluster (oa : OpenAttr) (vcn : Nat) : Keeps I (attrCluster oa vcn) := by
  rw [Logfile.attrCluster]
  split
  · exact keeps_throw _
  · split
    · exact keeps_throw _
    · exact keeps_pure _

theorem attrRead (oa : OpenAttr) (fuel vbo bytes pos : Nat) (buf : Mem) :
    Keeps I (attrRead oa fuel vbo bytes pos buf) := by
  induction fuel generalizing vbo bytes pos buf with
  | zero => exact keeps_pure _
  | succ fuel ih =>
    rw [Logfile.attrRead]
    split
    · exact keeps_pure _
    · refine keeps_get.bind fun r => (attrCluster oa _).bind fun lcn => ?_
      exact (inv.clusters lcn).bind fun found => ih _ _ _ _

theorem readAttrValue (record : Mem) (off : Nat) : Keeps I (readAttrValue record off) := by
  rw [Logfile.readAttrValue]
  split
  · exact keeps_pure _
  · split
    · exact keeps_throw _
    · exact (inv.attrRead _ _ _ _ _ _).bind fun _ => keeps_pure _

theorem goOn (idx : Nat) (oa : OpenAttribute) (loaded : oa.loaded = true) (data : OpenAttr × Bool) :
    Keeps I (goOn idx oa data) := by
  rcases data with ⟨data, _ | _⟩
  · exact inv.failOa idx { oa with toOpenAttr := data } loaded _
  · exact keeps_pure _

theorem oaLoadListed (idx off : Nat) (al : Mem) (p : Nat) (oa : OpenAttribute)
    (loaded : oa.loaded = true) : Keeps I (oaLoadListed idx off al p oa) := by
  rw [Logfile.oaLoadListed]
  refine Keeps.bind ((inv.records _).tryCatch fun _ => inv.failOa idx _ ?_ _) fun em => ?_
  · exact loaded
  refine keeps_get.bind fun r => ?_
  dsimp only
  split
  · exact inv.failOa idx { oa with inExtent := true } loaded _
  · exact inv.goOn idx { oa with inExtent := true } loaded _

theorem oaLoadList (idx off : Nat) (al : Mem) (alLen fuel p : Nat) (oa : OpenAttribute)
    (loaded : oa.loaded = true) : Keeps I (oaLoadList idx off al alLen fuel p oa) := by
  induction fuel generalizing p oa with
  | zero => exact keeps_pure _
  | succ fuel ih =>
    rw [Logfile.oaLoadList]
    split
    · exact keeps_pure _
    split
    · exact keeps_pure _
    split
    · refine (inv.oaLoadListed idx off al p oa loaded).bindOf fun s oa' t run => ?_
      obtain ⟨em, -, -, data, -, rfl⟩ := oaLoadListed_ok run
      exact ih _ _ loaded
    · exact ih _ _ loaded

theorem oaLoadLists (idx off : Nat) (record : Mem) (list : Option Nat) (oa : OpenAttribute)
    (loaded : oa.loaded = true) : Keeps I (oaLoadLists idx off record list oa) := by
  cases list with
  | none => exact keeps_pure _
  | some o =>
    refine ((inv.readAttrValue record o).tryCatch fun e => inv.failOa idx oa loaded e).bind ?_
    exact fun value => inv.oaLoadList idx off _ _ _ _ oa loaded

theorem oaResolve (idx off : Nat) (oa : OpenAttribute) (loaded : oa.loaded = true) :
    Keeps I (oaResolve idx off oa) := by
  refine ((inv.records _).tryCatch fun e => inv.failOa idx oa loaded e).bind fun m => ?_
  refine keeps_get.bind fun r => ?_
  dsimp only
  split
  · exact inv.failOa idx oa loaded _
  · refine (inv.goOn idx oa loaded _).bindOf fun s oa' t run => ?_
    obtain ⟨-, rfl, -⟩ := goOn_ok run
    exact inv.oaLoadLists idx off _ _ _ loaded

theorem oaLoad (off : Nat) : Keeps I (oaLoad off) := by
  rw [Logfile.oaLoad]
  refine keeps_get.bind fun r => ?_
  split
  · rename_i idx t slot table
    split
    · exact keeps_throw _
    split
    · split
      · exact keeps_throw _
      · exact keeps_pure _
    · have loaded : (oaIdentify r t off { r.oa idx with loaded := true }).loaded = true :=
        (oaIdentify_keep r t off _).1
      refine (inv.oaResolve idx off _ loaded).bindOf fun s oa u run => ?_
      refine Keeps.bind (inv.setOa idx oa ?_) fun _ => keeps_pure _
      exact (oaResolve_target run).loaded.trans loaded
  · exact keeps_throw _

end ReadInvariant

/-! ## The run list of `$MFT:$DATA` -/

/-- Two states of an unnamed attribute from which the same is loaded. -/
structure Alike (x y : OpenAttribute) : Prop where
  mftNo : x.mftNo = y.mftNo
  type : x.type = y.type
  unnamed : x.nameLen = 0
  unnamed' : y.nameLen = 0
  runs : x.runs = y.runs

theorem oaLoadExtent_congr {x y : OpenAttr} (same : x.runs = y.runs) (record : Mem) (off : Nat) :
    (oaLoadExtent x record off).1.runs = (oaLoadExtent y record off).1.runs ∧
      (oaLoadExtent x record off).2 = (oaLoadExtent y record off).2 := by
  simp only [oaLoadExtent]
  split
  · exact ⟨same, rfl⟩
  · split
    · exact ⟨same, rfl⟩
    · split
      · simp only [same, and_self]
      · simp only [same, and_self]

/-- So are several. -/
theorem loadExtents_congr {x y : OpenAttr} (same : x.runs = y.runs) (record : Mem)
    (wanted : Nat → Bool) (offs : List Nat) :
    (loadExtents record wanted offs x).1.runs = (loadExtents record wanted offs y).1.runs ∧
      (loadExtents record wanted offs x).2 = (loadExtents record wanted offs y).2 := by
  induction offs generalizing x y with
  | nil => exact ⟨same, rfl⟩
  | cons off offs ih =>
    rw [loadExtents, loadExtents]
    obtain ⟨sameRuns, sameEnd⟩ := oaLoadExtent_congr same record off
    split
    · rcases left : oaLoadExtent x record off with ⟨x', ok⟩
      rcases right : oaLoadExtent y record off with ⟨y', ok'⟩
      rw [left, right] at sameRuns sameEnd
      dsimp only at sameRuns sameEnd
      subst sameEnd
      cases ok with
      | false => exact ⟨sameRuns, rfl⟩
      | true => exact ih sameRuns
    · exact ih same

theorem Alike.matches {x y : OpenAttribute} (alike : Alike x y) (record : Mem) (off : Nat) :
    attrMatches record off x.type x.name x.nameLen =
      attrMatches record off y.type y.name y.nameLen := by
  simp only [attrMatches, alike.type, alike.unnamed, alike.unnamed', decide_true, Bool.true_or]

theorem Alike.listEntry {x y : OpenAttribute} (alike : Alike x y) (al : Mem) (p : Nat) :
    listEntryMatches al p x = listEntryMatches al p y := by
  simp only [listEntryMatches, alike.type, alike.unnamed, alike.unnamed', alike.mftNo, decide_true,
    Bool.true_or]

theorem Alike.extents {x y : OpenAttribute} (alike : Alike x y) {record : Mem}
    {wanted : Nat → Bool} {offs : List Nat} {data : OpenAttr}
    (run : loadExtents record wanted offs x.toOpenAttr = (data, true)) :
    ∃ data', loadExtents record wanted offs y.toOpenAttr = (data', true) ∧
      data.runs = data'.runs := by
  obtain ⟨sameRuns, sameEnd⟩ := loadExtents_congr alike.runs record wanted offs
  rw [run] at sameRuns sameEnd
  exact ⟨_, Prod.ext rfl sameEnd.symm, sameRuns⟩

theorem Alike.oaLoadListed {x x' y : OpenAttribute} (alike : Alike x y) {idx off jdx off' p : Nat}
    {al : Mem} {r s : Replay} (run : oaLoadListed idx off al p x r = .ok x' s) :
    ∃ y', oaLoadListed jdx off' al p y r = .ok y' s ∧ Alike x' y' := by
  obtain ⟨em, read, usable, data, complete, rfl⟩ := oaLoadListed_ok run
  simp only [alike.matches] at complete
  obtain ⟨data', complete', runs⟩ := alike.extents complete
  refine ⟨{ y with inExtent := true, toOpenAttr := data' }, ?_,
    alike.mftNo, alike.type, alike.unnamed, alike.unnamed', runs⟩
  rw [Logfile.oaLoadListed,
    bind_ok ((tryCatch_eq_ok_iff fun e t a t' => failOa_ne_ok _ _ _ _ _ _).mpr read), get_bind]
  dsimp only
  rw [if_neg (by rw [usable]; exact Bool.false_ne_true), complete']
  rfl

/-- Loading from an attribute list. -/
theorem Alike.oaLoadList {x x' y : OpenAttribute} (alike : Alike x y)
    {idx off jdx off' alLen fuel p : Nat} {al : Mem} {r s : Replay}
    (run : oaLoadList idx off al alLen fuel p x r = .ok x' s) :
    ∃ y', oaLoadList jdx off' al alLen fuel p y r = .ok y' s ∧ Alike x' y' := by
  induction fuel generalizing p x y r with
  | zero =>
    cases run
    exact ⟨y, rfl, alike⟩
  | succ fuel ih =>
    rw [Logfile.oaLoadList] at run ⊢
    split at run
    · rename_i ends
      rw [if_pos ends]
      cases run
      exact ⟨y, rfl, alike⟩
    rename_i goesOn
    rw [if_neg goesOn]
    split at run
    · rename_i ends
      rw [if_pos ends]
      cases run
      exact ⟨y, rfl, alike⟩
    rename_i whole
    rw [if_neg whole, ← alike.listEntry]
    split at run
    · rename_i named
      obtain ⟨next, t, listed, rest⟩ := bind_eq_ok_iff.mp run
      obtain ⟨next', listed', alike'⟩ := alike.oaLoadListed listed
      rw [if_pos named, bind_ok listed']
      exact ih alike' rest
    · rename_i unnamed
      rw [if_neg unnamed]
      exact ih alike run

theorem Alike.oaLoadLists {x x' y : OpenAttribute} (alike : Alike x y) {idx off jdx off' : Nat}
    {record : Mem} {list : Option Nat} {r s : Replay}
    (run : oaLoadLists idx off record list x r = .ok x' s) :
    ∃ y', oaLoadLists jdx off' record list y r = .ok y' s ∧ Alike x' y' := by
  cases list with
  | none =>
    cases run
    exact ⟨y, rfl, alike⟩
  | some o =>
    obtain ⟨value, t, read, rest⟩ := bind_eq_ok_iff.mp run
    rw [tryCatch_eq_ok_iff fun e t a t' => failOa_ne_ok _ _ _ _ _ _] at read
    obtain ⟨y', rest', alike'⟩ := alike.oaLoadList rest
    refine ⟨y', ?_, alike'⟩
    rw [Logfile.oaLoadLists,
      bind_ok ((tryCatch_eq_ok_iff fun e t a t' => failOa_ne_ok _ _ _ _ _ _).mpr read)]
    exact rest'

/-- Finding the runs. -/
theorem Alike.oaResolve {x x' y : OpenAttribute} (alike : Alike x y) {idx off jdx off' : Nat}
    {r s : Replay} (run : oaResolve idx off x r = .ok x' s) :
    ∃ y', oaResolve jdx off' y r = .ok y' s ∧ Alike x' y' := by
  obtain ⟨m, t, read, usable, data, complete, rest⟩ := oaResolve_ok run
  simp only [alike.matches] at complete
  obtain ⟨data', complete', runs⟩ := alike.extents complete
  have next : Alike { x with toOpenAttr := data } { y with toOpenAttr := data' } :=
    ⟨alike.mftNo, alike.type, alike.unnamed, alike.unnamed', runs⟩
  obtain ⟨y', rest', alike'⟩ := next.oaLoadLists rest
  refine ⟨y', ?_, alike'⟩
  rw [alike.mftNo] at read
  rw [Logfile.oaResolve,
    bind_ok ((tryCatch_eq_ok_iff fun e t a t' => failOa_ne_ok _ _ _ _ _ _).mpr read), get_bind]
  dsimp only
  rw [if_neg (by rw [usable]; exact Bool.false_ne_true), complete']
  exact rest'

/-! ## The states of a replay -/

/-- `run_override` -/
def runOverride (ovr : List Run) (vcn lcn : Nat) : List Run :=
  if ovr.any fun rl => rl.vcn = vcn then
    ovr.map fun rl => if rl.vcn = vcn then { rl with lcn } else rl
  else ovr ++ [⟨vcn, lcn, 1⟩]

/-- Remap a cluster of an open attribute. -/
def Replay.remap (r : Replay) (idx vcn lcn : Nat) : Replay :=
  let oa := { r.oa idx with ovr := runOverride (r.oa idx).ovr vcn lcn }
  { r with oa := Function.update r.oa idx oa }

/-- The states in which `do_action` is called, whatever the journal and the volume are.
A replay starts with cleared open attributes; preparing the dirty pages and the two
passes load open attributes, remap clusters of them and apply operations. -/
inductive Reached : Replay → Prop where
  | start {r : Replay} (cleared : ∀ i, r.oa i = OpenAttribute.cleared) : Reached r
  | load {r : Replay} (reached : Reached r) (off : Nat) : Reached (finalState (oaLoad off) r)
  | override {r : Replay} (reached : Reached r) (idx vcn lcn : Nat) :
      Reached (r.remap idx vcn lcn)
  | action {r : Replay} (reached : Reached r) (targetAttr : Nat) (a : ActionCtx) :
      Reached (finalState (doAction targetAttr a) r)

theorem Replay.remap_keeps (r : Replay) (idx vcn lcn i : Nat) :
    ((r.remap idx vcn lcn).oa i).loaded = (r.oa i).loaded ∧
      ((r.remap idx vcn lcn).oa i).runs = (r.oa i).runs := by
  rw [Replay.remap]
  by_cases here : i = idx
  · subst here
    simp only [Function.update_self, and_self]
  · simp only [Function.update_of_ne here, and_self]

/-- An open attribute that is not loaded has no runs. -/
def Tidy (r : Replay) : Prop := ∀ i, (r.oa i).loaded = false → (r.oa i).runs = []

theorem tidy_load : LoadInvariant Tidy where
  records _ _ tidy := tidy
  clusters _ _ tidy := tidy
  slots r idx oa loaded tidy := by
    intro i unloaded
    by_cases here : i = idx
    · subst here
      simp only [Function.update_self, loaded, Bool.true_eq_false] at unloaded
    · simp only [Function.update_of_ne here] at unloaded ⊢
      exact tidy i unloaded

theorem tidy_attrWrite (oa : OpenAttr) (buf : Mem) (fuel vbo bytes pos : Nat) :
    Keeps Tidy (attrWrite oa buf fuel vbo bytes pos) := by
  induction fuel generalizing vbo bytes pos with
  | zero => exact keeps_pure _
  | succ fuel ih =>
    rw [attrWrite]
    split
    · exact keeps_pure _
    · refine keeps_get.bind fun r => (ReadInvariant.attrCluster oa _).bind fun lcn => ?_
      refine (tidy_load.getCluster lcn).bind fun found => ?_
      exact Keeps.bind (keeps_modify fun s tidy => tidy) fun _ => ih _ _ _

theorem keeps_edited {I : Replay → Prop} {α : Type} (edit : Except ReplayError α) :
    Keeps I (edited edit) := by
  cases edit with
  | ok x => exact keeps_pure x
  | error e => exact keeps_throw e

theorem tidy_invalidate (mftNo : Nat) : Keeps Tidy (oaInvalidateMft mftNo) := by
  refine keeps_modify fun r tidy => ?_
  have slots : ∀ i, (if i < r.noa then oaInvalidated mftNo (r.oa i) else r.oa i).loaded = false →
      (if i < r.noa then oaInvalidated mftNo (r.oa i) else r.oa i).runs = [] := by
    intro i
    split
    · rw [oaInvalidated]
      split
      · exact fun _ => rfl
      · exact tidy i
    · exact tidy i
  dsimp only
  split
  · exact slots
  · exact slots

theorem tidy_planAdd (e : PlanEntry) : Keeps Tidy (lfsPlanAdd e) := keeps_modify fun _ tidy => tidy

theorem tidy_skip (a : ActionCtx) (why : String) : Keeps Tidy (planSkip a why) :=
  (tidy_planAdd _).bind fun _ => keeps_pure _

theorem tidy_targetMft (op mftNo : Nat) : Keeps Tidy (targetMft op mftNo) := by
  rw [targetMft]
  split
  · intro r tidy
    rw [finalState, initMft]
    cases ovlMftLookup r.ovl mftNo with
    | some m => exact tidy
    | none => exact tidy
  · exact tidy_load.getMft mftNo

theorem tidy_changeMft (targetAttr : Nat) (a : ActionCtx) (mftNo : Nat) :
    Keeps Tidy (changeMft targetAttr a mftNo) := by
  rw [changeMft]
  refine (tidy_targetMft _ _).bind fun m => keeps_get.bind fun r => ?_
  refine (keeps_edited _).bind fun outcome => ?_
  cases outcome with
  | skipped => exact tidy_skip a _
  | applied =>
    refine keeps_get.bind fun r => (keeps_edited _).bind fun record => ?_
    refine Keeps.bind (keeps_modify fun _ tidy => tidy) fun _ => Keeps.bind ?_ fun _ => ?_
    · rw [noteChange]
      split
      · exact tidy_invalidate mftNo
      · exact keeps_pure _
    · exact (tidy_planAdd _).bind fun _ => keeps_pure _

/-- Applying an operation keeps the slots tidy. -/
theorem tidy_doAction (targetAttr : Nat) (a : ActionCtx) : Keeps Tidy (doAction targetAttr a) := by
  rw [doAction]
  split
  · rw [mftAction]
    refine keeps_get.bind fun r => ((tidy_load.reads.oaLoad targetAttr).tryCatch fun e => keeps_throw _).bind
      fun oa => ?_
    split
    · exact keeps_throw _
    split
    · exact keeps_throw _
    split
    · exact keeps_throw _
    · exact tidy_changeMft targetAttr a _
  split
  · rw [attrAction]
    refine keeps_get.bind fun r => (tidy_load.reads.oaLoad targetAttr).bind fun oa => ?_
    refine (keeps_edited _).bind fun bytes => (tidy_load.reads.attrRead _ _ _ _ _ _).bind fun buf => ?_
    refine (keeps_edited _).bind fun plain => (keeps_edited _).bind fun result => ?_
    cases result with
    | none => exact tidy_skip a _
    | some buf =>
      refine (tidy_attrWrite _ _ _ _ _ _).bind fun _ => ?_
      exact (tidy_planAdd _).bind fun _ => keeps_pure _
  · exact keeps_throw _

theorem Reached.tidy {r : Replay} (reached : Reached r) : Tidy r := by
  induction reached with
  | start cleared =>
    intro i unloaded
    rw [cleared i]
    rfl
  | load reached off ih => exact tidy_load.reads.oaLoad off _ ih
  | @override r reached idx vcn lcn ih =>
    intro i unloaded
    obtain ⟨sameLoaded, sameRuns⟩ := r.remap_keeps idx vcn lcn i
    rw [sameLoaded] at unloaded
    rw [sameRuns]
    exact ih i unloaded
  | action reached targetAttr a ih =>
    exact tidy_doAction targetAttr a _ ih

/-! ## What an applied operation did -/

/-- The plan is as before, and no record of the overlay has become dirty. -/
def Undisturbed (r s : Replay) : Prop :=
  s.plan = r.plan ∧ ∀ m ∈ s.ovl.mft, m.dirty = true → m ∈ r.ovl.mft

theorem Undisturbed.append {r s : Replay} (before : Undisturbed r s) {m : OvlMft} {capMft : Nat}
    (clean : m.dirty = false) :
    Undisturbed r { s with ovl := { s.ovl with capMft, mft := s.ovl.mft ++ [m] } } := by
  refine ⟨before.1, fun other member dirty => ?_⟩
  obtain old | new := List.mem_append.mp member
  · exact before.2 other old dirty
  · rw [List.mem_singleton.mp new, clean] at dirty
    cases dirty

/-- The record that an operation targets. -/
def ActionCtx.mftNo (a : ActionCtx) (ovl : Overlay) : Nat := a.vbo ovl.cs / ovl.rs

end Ttntfs.Logfile
