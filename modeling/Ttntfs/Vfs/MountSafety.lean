import Ttntfs.Vfs.Mount

/-!
# When a mounted volume is writable

A mount is safe when the superblock is writable only with every check passed and
no reason recorded. Without a discarded session this always holds: the flag is
cleared last, after the ladder of reasons. For a discard the flag is cleared
first, and nothing sets it again when a later step fails.
-/

namespace Ttntfs.Vfs

/-- Every check that would have kept the volume read-only passed. -/
structure ChecksPassed (flags : UInt32) (o : Outcomes) : Prop where
  notDirty : isDirty o = false
  supported : o.volFlags &&& volumeMustMountRoMask = 0
  journal : o.logfileClean = true
  noErrors : o.otherErrors = false
  session : (o.hibernated = 0 ∧ o.hibernationStatus = 0) ∨
    (flags &&& mountDiscardHibernation ≠ 0 ∧ o.zeroHiberfil.err = 0 ∧
      o.zeroHiberfil.errors = false)

/-- The two records of read-only status agree with the checks. -/
def SafeHandle (flags : UInt32) (readOnly : Bool) (o : Outcomes) (h : Handle) : Prop :=
  (h.vol.rdonly = false →
    wantRw flags = true ∧ readOnly = false ∧ h.roReason = .none ∧ ChecksPassed flags o) ∧
  (h.roReason ≠ .none → h.vol.rdonly = true)

/-- A successful mount returns a safe handle. -/
def MountSafe (flags : UInt32) (readOnly : Bool) (o : Outcomes) : Prop :=
  ∀ h, ntfsMount flags readOnly o = .ok h → SafeHandle flags readOnly o h

/-- All steps up to and including `get_tree` succeed. -/
def Reached (o : Outcomes) : Prop :=
  o.arguments = true ∧ o.moduleInit = 0 ∧ o.handle = true ∧ o.initFsContext = 0 ∧
    o.applyOptions = 0 ∧ o.getTree = 0

/-- `ntfs_glue_make_rw` finds nothing against switching the volume. -/
def makesRw (vol : Volume) (retire : RetireOutcome) : Bool :=
  !vol.errors &&
    vol.volFlags &&& (volumeIsDirty ||| volumeModifiedByChkdsk ||| volumeMustMountRoMask) = 0 &&
    !(vol.hasLogfile && retire.markClean ≠ 0 && !retire.emptyLogfile)

/-- The volume is switched read-write for a discard and no error handler sets it
back, although the zeroing fails or flags an error and read-only would do as a
fallback, or an error flagged before the discard is forgotten by it. -/
def LeftWritable (flags : UInt32) (readOnly : Bool) (o : Outcomes) : Prop :=
  Reached o ∧ discardAsked flags readOnly o = true ∧
    makesRw { loadedVolume o with errors := false } o.discardRetire = true ∧
    o.zeroHiberfil.remountRo = false ∧
    (((o.zeroHiberfil.err ≠ 0 ∨ o.zeroHiberfil.errors = true) ∧
        flags &&& mountRdonlyFallback ≠ 0) ∨
      (o.zeroHiberfil.err = 0 ∧ o.zeroHiberfil.errors = false ∧ o.otherErrors = true))

section

variable {flags : UInt32} {readOnly : Bool} {o : Outcomes}

/-- A mount that fails before the volume is inspected has no handle. -/
theorem ntfsMount_unreached (unreached : ¬ Reached o) (h : Handle) :
    ntfsMount flags readOnly o ≠ .ok h := by
  unfold ntfsMount
  unfold Reached at unreached
  repeat' split
  all_goals simp_all

/-- Behind its first steps a mount goes on as the volume is found. -/
theorem ntfsMount_reached (reached : Reached o) :
    ntfsMount flags readOnly o = inspectAndSwitch flags readOnly o := by
  obtain ⟨arguments, moduleInit, handle, initFsContext, applyOptions, getTree⟩ := reached
  simp [ntfsMount, arguments, moduleInit, handle, initFsContext, applyOptions, getTree]

/-- `ntfs_glue_make_rw` clears the read-only flag exactly when it succeeds. -/
theorem glueMakeRw_cases (vol : Volume) (retire : RetireOutcome) :
    (makesRw vol retire = true ∧ glueMakeRw vol retire = ({ vol with rdonly := false }, 0)) ∨
      (makesRw vol retire = false ∧
        ∃ switched, glueMakeRw vol retire = (switched, -erofs) ∧ switched.rdonly = vol.rdonly) := by
  unfold glueMakeRw makesRw
  by_cases flagged : vol.errors = true
  · rw [if_pos flagged]
    exact Or.inr ⟨by simp [flagged], vol, rfl, rfl⟩
  by_cases refused : vol.volFlags &&&
      (volumeIsDirty ||| volumeModifiedByChkdsk ||| volumeMustMountRoMask) ≠ 0
  · rw [if_neg flagged, if_pos refused]
    exact Or.inr ⟨by simp [refused], vol, rfl, rfl⟩
  rw [if_neg flagged, if_neg refused]
  have clear : vol.volFlags &&&
      (volumeIsDirty ||| volumeModifiedByChkdsk ||| volumeMustMountRoMask) = 0 := not_not.mp refused
  by_cases failed : (vol.hasLogfile && retire.markClean ≠ 0 && !retire.emptyLogfile) = true
  · rw [if_pos failed]
    exact Or.inr ⟨by rw [failed]; simp, _, rfl, rfl⟩
  · rw [if_neg failed]
    refine Or.inl ⟨?_, rfl⟩
    rw [Bool.eq_false_iff.mpr failed, Bool.eq_false_iff.mpr flagged]
    simp [clear]

/-- With no reason on the ladder, read-write was asked for and every check behind it
passed. -/
theorem decideReason_none {vol : Volume} {hib : Int}
    (none : decideReason flags readOnly o vol hib = .none) :
    wantRw flags = true ∧ readOnly = false ∧ hib = 0 ∧ isDirty o = false ∧
      vol.volFlags &&& volumeMustMountRoMask = 0 ∧ o.logfileClean = true ∧ vol.errors = false := by
  unfold decideReason at none
  repeat' split at none
  all_goals simp_all

/-- A finished mount carries what the switch left; a reason against read-write is
only put up with as a fallback. -/
theorem finishMount_ok {hib : Int} {final : Volume × RoReason} {h : Handle}
    (mounted : finishMount flags o hib final = .ok h) :
    h.vol = final.1 ∧ h.roReason = final.2 := by
  unfold finishMount at mounted
  split at mounted
  · cases mounted
  · cases mounted
    exact ⟨rfl, rfl⟩

theorem switchRw_reason {vol : Volume} {reason : RoReason} {madeRw : Bool}
    (some : reason ≠ .none) : switchRw flags o vol reason madeRw = (vol, reason) := by
  simp [switchRw, some]

/-- A volume still read-only before the switch is mounted safely when the ladder's
silence means that the checks passed. -/
theorem finish_readOnly_safe {vol : Volume} {hib : Int} (rdonly : vol.rdonly = true)
    (silent : decideReason flags readOnly o vol hib = .none → ChecksPassed flags o) {h : Handle}
    (mounted : finishMount flags o hib
      (switchRw flags o vol (decideReason flags readOnly o vol hib) false) = .ok h) :
    SafeHandle flags readOnly o h := by
  obtain ⟨volume, reason⟩ := finishMount_ok mounted
  unfold SafeHandle
  rw [volume, reason]
  by_cases none : decideReason flags readOnly o vol hib = .none
  · obtain ⟨want, writable, _⟩ := decideReason_none none
    rcases glueMakeRw_cases vol o.mountRetire with ⟨_, switched⟩ | ⟨_, kept, refused, same⟩
    · have final : switchRw flags o vol .none false = ({ vol with rdonly := false }, .none) := by
        simp [switchRw, want, switched]
      rw [none, final]
      exact ⟨fun _ => ⟨want, writable, rfl, silent none⟩, fun other => absurd rfl other⟩
    · have final : switchRw flags o vol .none false = (kept, .errors) := by
        simp [switchRw, want, refused, erofs]
      rw [none, final]
      simp [same, rdonly]
  · rw [switchRw_reason none]
    simp [rdonly]

theorem plain_mount_safe (plain : discardAsked flags readOnly o = false) {h : Handle}
    (mounted : inspectAndSwitch flags readOnly o = .ok h) : SafeHandle flags readOnly o h := by
  rw [inspectAndSwitch, plain] at mounted
  refine finish_readOnly_safe rfl (fun none => ?_) mounted
  obtain ⟨_, _, awake, notDirty, supported, journal, clear⟩ := decideReason_none none
  have parts : o.otherErrors = false ∧ o.hibernationStatus = 0 := by
    simpa [loadedVolume] using clear
  exact { notDirty, supported, journal, noErrors := parts.1, session := Or.inl ⟨awake, parts.2⟩ }

/-- A discard whose switch is refused leaves a volume that is hibernated and
read-only. -/
theorem refused_discard_safe (asked : discardAsked flags readOnly o = true)
    (refused : makesRw { loadedVolume o with errors := false } o.discardRetire = false) {h : Handle}
    (mounted : inspectAndSwitch flags readOnly o = .ok h) : SafeHandle flags readOnly o h := by
  have hibernated : o.hibernated > 0 := by
    simp only [discardAsked, Bool.and_eq_true, decide_eq_true_eq] at asked
    exact asked.1.1.1.1.1
  rcases glueMakeRw_cases { loadedVolume o with errors := false } o.discardRetire with
    ⟨accepted, _⟩ | ⟨_, kept, computed, same⟩
  · rw [refused] at accepted
    cases accepted
  · obtain ⟨left, session, rdonly⟩ : ∃ left : Volume,
        discardSession (loadedVolume o) o.hibernated o = (left, o.hibernated, false) ∧
          left.rdonly = true :=
      ⟨{ kept with errors := kept.errors || (loadedVolume o).errors },
        by simp [discardSession, computed, erofs], same⟩
    rw [inspectAndSwitch, if_pos asked, session] at mounted
    refine finish_readOnly_safe rdonly (fun none => ?_) mounted
    have awake := (decideReason_none none).2.2.1
    omega

/-- What a discard that was switched leaves: a writable volume, unless an error
handler intervened, hibernated only if the zeroing failed. -/
theorem switched_discard (accepted : makesRw { loadedVolume o with errors := false }
      o.discardRetire = true) :
    ∃ errors, discardSession (loadedVolume o) o.hibernated o =
        ({ loadedVolume o with rdonly := o.zeroHiberfil.remountRo, errors := errors },
          if o.zeroHiberfil.err ≠ 0 then o.hibernated else 0, true) ∧
      (o.zeroHiberfil.err = 0 → errors = o.zeroHiberfil.errors) := by
  rcases glueMakeRw_cases { loadedVolume o with errors := false } o.discardRetire with
    ⟨_, computed⟩ | ⟨refused, _⟩
  · by_cases failed : o.zeroHiberfil.err ≠ 0
    · refine ⟨o.zeroHiberfil.errors || (loadedVolume o).errors, ?_, fun zero => absurd zero failed⟩
      simp only [discardSession, computed, if_pos failed, Bool.false_or, ne_eq, not_true_eq_false,
        if_false]
    · refine ⟨o.zeroHiberfil.errors, ?_, fun _ => rfl⟩
      simp only [discardSession, computed, if_neg failed, Bool.false_or, ne_eq, not_true_eq_false,
        if_false]
  · rw [accepted] at refused
    cases refused

/-- A mount with a recorded reason is safe exactly when it fails or the volume is
read-only. -/
theorem finish_reason_safe_iff {vol : Volume} {reason : RoReason} {hib : Int}
    (want : wantRw flags = true) (some : reason ≠ .none) :
    (∀ h, finishMount flags o hib (vol, reason) = .ok h → SafeHandle flags readOnly o h) ↔
      (flags &&& mountRdonlyFallback ≠ 0 → vol.rdonly = true) := by
  constructor
  · intro safe fallback
    have mounted : finishMount flags o hib (vol, reason) =
        .ok { vol, dirty := isDirty o, logfileClean := o.logfileClean, hibernated := hib ≠ 0,
              roReason := reason } := by
      simp [finishMount, fallback]
    exact (safe _ mounted).2 some
  · intro fallbackOnly h mounted
    obtain ⟨volume, recorded⟩ := finishMount_ok mounted
    have fallback : flags &&& mountRdonlyFallback ≠ 0 := by
      intro absent
      simp [finishMount, want, some, absent] at mounted
    have rdonly : h.vol.rdonly = true := by
      rw [volume]
      exact fallbackOnly fallback
    exact ⟨fun writable => by simp [rdonly] at writable, fun _ => rdonly⟩

/-- A mount without a recorded reason is safe exactly when a writable volume passed
the checks. -/
theorem finish_none_safe_iff {vol : Volume} {hib : Int} (want : wantRw flags = true)
    (device : readOnly = false) :
    (∀ h, finishMount flags o hib (vol, .none) = .ok h → SafeHandle flags readOnly o h) ↔
      (vol.rdonly = false → ChecksPassed flags o) := by
  constructor
  · intro safe writable
    have mounted : finishMount flags o hib (vol, .none) =
        .ok { vol, dirty := isDirty o, logfileClean := o.logfileClean, hibernated := hib ≠ 0,
              roReason := .none } := by
      simp [finishMount]
    exact ((safe _ mounted).1 writable).2.2.2
  · intro passed h mounted
    obtain ⟨volume, recorded⟩ := finishMount_ok mounted
    refine ⟨fun writable => ⟨want, device, recorded, passed ?_⟩, fun other => absurd recorded other⟩
    rwa [volume] at writable

/-- A switched discard is mounted safely exactly unless the volume is left
writable. -/
theorem switched_discard_safe_iff (reached : Reached o)
    (asked : discardAsked flags readOnly o = true)
    (accepted : makesRw { loadedVolume o with errors := false } o.discardRetire = true) :
    (∀ h, inspectAndSwitch flags readOnly o = .ok h → SafeHandle flags readOnly o h) ↔
      ¬ LeftWritable flags readOnly o := by
  obtain ⟨errors, session, settled⟩ := switched_discard accepted
  have conditions : o.hibernated > 0 ∧ wantRw flags = true ∧ readOnly = false ∧
      o.logfileClean = true ∧ isDirty o = false ∧ flags &&& mountDiscardHibernation ≠ 0 := by
    simpa [discardAsked, and_assoc] using asked
  obtain ⟨hibernated, want, device, journal, notDirty, discard⟩ := conditions
  have supported : o.volFlags &&& volumeMustMountRoMask = 0 := by
    have covered : volumeIsDirty ||| volumeModifiedByChkdsk ||| volumeMustMountRoMask =
        volumeMustMountRoMask := by decide
    simp only [makesRw, Bool.and_eq_true, decide_eq_true_eq, covered] at accepted
    exact accepted.1.2
  have left : LeftWritable flags readOnly o ↔ o.zeroHiberfil.remountRo = false ∧
      (((o.zeroHiberfil.err ≠ 0 ∨ o.zeroHiberfil.errors = true) ∧
          flags &&& mountRdonlyFallback ≠ 0) ∨
        (o.zeroHiberfil.err = 0 ∧ o.zeroHiberfil.errors = false ∧ o.otherErrors = true)) := by
    simp only [LeftWritable, reached, asked, accepted, true_and]
  rw [left, inspectAndSwitch, if_pos asked, session]
  by_cases failed : o.zeroHiberfil.err ≠ 0
  · -- The session is still there, and so is the reason.
    have reason : decideReason flags readOnly o
        { loadedVolume o with rdonly := o.zeroHiberfil.remountRo, errors := errors } o.hibernated =
          .hibernated := by
      have awake : o.hibernated ≠ 0 := by omega
      simp [decideReason, want, device, awake]
    simp only [if_pos failed, reason]
    rw [switchRw_reason (by decide), finish_reason_safe_iff want (by decide)]
    cases o.zeroHiberfil.remountRo <;> simp [failed]
  · have zeroed : o.zeroHiberfil.err = 0 := not_not.mp failed
    have flagged := settled zeroed
    subst flagged
    have reason : decideReason flags readOnly o
        { loadedVolume o with
          rdonly := o.zeroHiberfil.remountRo, errors := o.zeroHiberfil.errors } 0 =
          if o.zeroHiberfil.errors then .errors else .none := by
      simp [decideReason, want, device, notDirty, journal, loadedVolume, supported]
    simp only [if_neg failed, reason]
    cases flaws : o.zeroHiberfil.errors with
    | true =>
      rw [if_pos rfl, switchRw_reason (by decide), finish_reason_safe_iff want (by decide)]
      cases o.zeroHiberfil.remountRo <;> simp [zeroed]
    | false =>
      have kept : ∀ vol : Volume, switchRw flags o vol .none true = (vol, .none) := by
        intro vol
        simp [switchRw, want]
      simp only [Bool.false_eq_true, if_false]
      rw [kept, finish_none_safe_iff want device]
      -- Only the errors of other checks are neither on the ladder nor ruled out before.
      have passed : ChecksPassed flags o ↔ o.otherErrors = false :=
        ⟨fun checks => checks.noErrors, fun noErrors =>
          { notDirty, supported, journal, noErrors, session := Or.inr ⟨discard, zeroed, flaws⟩ }⟩
      rw [passed]
      cases o.zeroHiberfil.remountRo <;> simp [zeroed]

end

/-- A mount records read-only status truthfully, and is writable only with every
check passed, exactly when it does not leave a volume writable that was switched
for a discard. -/
theorem mountSafe_iff (flags : UInt32) (readOnly : Bool) (o : Outcomes) :
    MountSafe flags readOnly o ↔ ¬ LeftWritable flags readOnly o := by
  unfold MountSafe
  by_cases reached : Reached o
  · rw [ntfsMount_reached reached]
    rcases Bool.eq_false_or_eq_true (discardAsked flags readOnly o) with asked | plain
    · rcases Bool.eq_false_or_eq_true
        (makesRw { loadedVolume o with errors := false } o.discardRetire) with accepted | refused
      · exact switched_discard_safe_iff reached asked accepted
      · refine iff_of_true (fun h mounted => refused_discard_safe asked refused mounted) ?_
        rintro ⟨_, _, accepted, _⟩
        rw [refused] at accepted
        cases accepted
    · refine iff_of_true (fun h mounted => plain_mount_safe plain mounted) ?_
      rintro ⟨_, asked, _⟩
      rw [plain] at asked
      cases asked
  · refine iff_of_true (fun h mounted => absurd mounted (ntfsMount_unreached reached h)) ?_
    rintro ⟨reaches, _⟩
    exact reached reaches

/-- A clean, hibernated volume on which the zeroing of `hiberfil.sys` runs out of
memory. -/
def failedDiscard : Outcomes :=
  { arguments := true, moduleInit := 0, handle := true, initFsContext := 0, applyOptions := 0,
    getTree := 0, volFlags := 0, hasLogfile := true, otherErrors := false, hibernationStatus := 1,
    logfileClean := true, hibernated := 1, discardRetire := ⟨0, true⟩,
    zeroHiberfil := ⟨-enomem, false, false⟩, mountRetire := ⟨0, true⟩ }

/-- Mounted with the discard and the fallback allowed, that volume is recorded as
hibernated and left writable. -/
theorem failed_discard_left_writable :
    ¬ ∀ (flags : UInt32) (readOnly : Bool) (o : Outcomes), MountSafe flags readOnly o := by
  intro claim
  have mounted : ntfsMount (mountRdonlyFallback ||| mountDiscardHibernation) false failedDiscard =
      .ok { vol := { rdonly := false, errors := true, volFlags := 0, hasLogfile := true },
            dirty := false, logfileClean := true, hibernated := true, roReason := .hibernated } := by
    rfl
  have rdonly := (claim _ _ _ _ mounted).2 (by decide)
  cases rdonly

end Ttntfs.Vfs
