import Ttntfs.Platform.BlockDevice

/-!
# Writes that are not aligned

No interleaving of the calls loses a byte. A call under the lock keeps a copy of the blocks that
cover it; nobody else writes to these blocks meanwhile, since another call that is not aligned
waits for the lock, and one that is aligned would have to write a whole block of them and so a
byte of the call itself.
-/

namespace Ttntfs.Platform

open Ttntfs.Library.ByteMemory

/-- The place up to which a call has written its bytes. -/
def WriteCall.progress (dev : BlockDevice) (call : WriteCall) : WritePhase → Nat
  | .called | .waiting | .reading _ _ => 0
  | .writing done => call.offset + done
  | .rewriting done _ => call.start dev + done
  | .returned _ => call.offset + call.count

/-- The call holds the lock. -/
def WritePhase.locks : WritePhase → Bool
  | .reading _ _ | .rewriting _ _ => true
  | _ => false

/-- The call has failed. -/
def WritePhase.Failed (phase : WritePhase) : Prop := ∃ error, phase = .returned (.error error)

/-- What a call has found out, and what its buffer holds of the device. -/
def PhaseOk (dev : BlockDevice) (call : WriteCall) (device : Mem) : WritePhase → Prop
  | .called => True
  | .writing _ => call.aligned dev = true
  | .waiting => SubBlock dev call
  | .reading done tmp => SubBlock dev call ∧ done ≤ call.len dev ∧ ∀ k < done, tmp k = device (call.start dev + k)
  | .rewriting _ tmp => SubBlock dev call ∧ ∀ k < call.len dev,
      (call.Covers (call.start dev + k) → tmp k = call.buf (call.start dev + k - call.offset)) ∧
        (¬ call.Covers (call.start dev + k) → tmp k = device (call.start dev + k))
  | .returned _ => True

section Invariant

variable {Call : Type} {dev : BlockDevice} {calls : Call → WriteCall} {before : Mem} {s : DeviceState Call}

/-- The invariant of the calls. -/
structure Lossless (dev : BlockDevice) (calls : Call → WriteCall) (before : Mem) (s : DeviceState Call) : Prop where
  outside : ∀ byte, (∀ i, ¬ (calls i).Covers byte) → s.device byte = before byte
  inside : ∀ i byte, (calls i).Covers byte → ¬ (s.phase i).Failed →
    s.device byte = if byte < (calls i).progress dev (s.phase i) then (calls i).buf (byte - (calls i).offset)
      else before byte
  locked : ∀ i, (s.phase i).locks = true → s.rmwLock = some i
  phases : ∀ i, PhaseOk dev (calls i) s.device (s.phase i)

theorem lossless_begun : Lossless dev calls before (DeviceState.begun before) where
  outside _ _ := rfl
  inside _ _ _ _ := rfl
  locked _ locks := nomatch locks
  phases _ := trivial

/-- What a call has found out stays true where the blocks that it has copied stay as they are. -/
theorem PhaseOk.congr {call : WriteCall} {device device' : Mem} {phase : WritePhase}
    (ok : PhaseOk dev call device phase)
    (same : phase.locks = true → ∀ byte, call.start dev ≤ byte → byte < call.start dev + call.len dev →
      device' byte = device byte) : PhaseOk dev call device' phase := by
  cases phase with
  | called => trivial
  | writing done => exact ok
  | waiting => exact ok
  | reading done tmp =>
    obtain ⟨sub, fits, copied⟩ := ok
    refine ⟨sub, fits, fun k read => ?_⟩
    rw [same rfl _ (Nat.le_add_right _ _) (by omega)]
    exact copied k read
  | rewriting done tmp =>
    obtain ⟨sub, copied⟩ := ok
    refine ⟨sub, fun k inside => ⟨(copied k inside).1, fun apart => ?_⟩⟩
    rw [same rfl _ (Nat.le_add_right _ _) (by omega)]
    exact (copied k inside).2 apart
  | returned result => trivial

theorem PhaseOk.subBlock {call : WriteCall} {device : Mem} {phase : WritePhase} (ok : PhaseOk dev call device phase)
    (locks : phase.locks = true) : SubBlock dev call := by
  cases phase with
  | reading done tmp => exact ok.1
  | rewriting done tmp => exact ok.1
  | called => cases locks
  | writing done => cases locks
  | waiting => cases locks
  | returned result => cases locks

/-- What a call finds out before its first system call. -/
theorem enterWrite_ok {call : WriteCall} {device : Mem} {memory : Bool}
    (power : memory = true → ∃ k, dev.logicalBlockSize = 2 ^ k) :
    PhaseOk dev call device (enterWrite dev call memory) ∧
      (¬ (enterWrite dev call memory).Failed → ∀ byte, call.Covers byte →
        (byte < call.progress dev (enterWrite dev call memory) ↔ byte < call.progress dev .called)) ∧
      (enterWrite dev call memory).locks = false := by
  unfold enterWrite
  split
  · rename_i none
    refine ⟨trivial, fun _ byte covered => ?_, rfl⟩
    have := covered.1
    have := covered.2
    omega
  · rename_i some_byte
    split
    · exact ⟨trivial, fun running => absurd ⟨_, rfl⟩ running, rfl⟩
    split
    · exact ⟨trivial, fun running => absurd ⟨_, rfl⟩ running, rfl⟩
    rename_i within
    split
    · rename_i aligned
      refine ⟨aligned, fun _ byte covered => ?_, rfl⟩
      have := covered.1
      change byte < call.offset + 0 ↔ byte < 0
      omega
    · rename_i unaligned
      split
      · rename_i allocated
        simp only [Bool.or_eq_true, decide_eq_true_eq] at within
        have offsets := dev.offsets
        exact ⟨⟨by simpa using unaligned, by omega, by omega, power allocated⟩, fun _ byte covered => Iff.rfl, rfl⟩
      · exact ⟨trivial, fun running => absurd ⟨_, rfl⟩ running, rfl⟩

theorem not_failed {i : Call} {phase : WritePhase} (now : s.phase i = phase)
    (underway : ∀ result, phase ≠ .returned result) : ¬ (s.phase i).Failed := by
  rintro ⟨error, failed⟩
  exact underway _ (now.symm.trans failed)

variable [DecidableEq Call]

/-- A step that writes nothing. -/
theorem Lossless.goto (ok : Lossless dev calls before s) (i : Call) (phase : WritePhase) (rmwLock : Option Call)
    (active : phase.Failed ∨ ¬ (s.phase i).Failed)
    (progress : ¬ phase.Failed → ∀ byte, (calls i).Covers byte →
      (byte < (calls i).progress dev phase ↔ byte < (calls i).progress dev (s.phase i)))
    (found : PhaseOk dev (calls i) s.device phase)
    (self : phase.locks = true → rmwLock = some i)
    (others : ∀ j, j ≠ i → s.rmwLock = some j → rmwLock = some j) :
    Lossless dev calls before { s.goto i phase with rmwLock := rmwLock } where
  outside := ok.outside
  inside j byte covered running := by
    change ¬ (Function.update s.phase i phase j).Failed at running
    change s.device byte = if byte < (calls j).progress dev (Function.update s.phase i phase j) then _ else _
    by_cases same : j = i
    · subst same
      rw [Function.update_self] at running ⊢
      rw [ok.inside j byte covered (active.resolve_left running), if_congr (progress running byte covered) rfl rfl]
    · rw [Function.update_of_ne same] at running ⊢
      exact ok.inside j byte covered running
  locked j locks := by
    change (Function.update s.phase i phase j).locks = true at locks
    by_cases same : j = i
    · subst same
      rw [Function.update_self] at locks
      exact self locks
    · rw [Function.update_of_ne same] at locks
      exact others j same (ok.locked j locks)
  phases j := by
    change PhaseOk dev (calls j) s.device (Function.update s.phase i phase j)
    by_cases same : j = i
    · subst same
      rw [Function.update_self]
      exact found
    · rw [Function.update_of_ne same]
      exact ok.phases j

/-- A step that writes a piece of the bytes of its call. -/
theorem Lossless.store (ok : Lossless dev calls before s) (i : Call) (phase : WritePhase) (device : Mem)
    (disjoint : ∀ i j, i ≠ j → ∀ byte, ¬ ((calls i).Covers byte ∧ (calls j).Covers byte))
    (lower upper : Nat) (old : (calls i).progress dev (s.phase i) = lower) (new : (calls i).progress dev phase = upper)
    (order : lower ≤ upper) (active : ¬ (s.phase i).Failed)
    (stored : ∀ byte, device byte = if (lower ≤ byte ∧ byte < upper) ∧ (calls i).Covers byte then
      (calls i).buf (byte - (calls i).offset) else s.device byte)
    (found : PhaseOk dev (calls i) device phase) (locks : phase.locks = (s.phase i).locks)
    (alone : (s.phase i).locks = true ∨ (calls i).aligned dev = true) :
    Lossless dev calls before { s.goto i phase with device := device } where
  outside byte apart := by
    change device byte = before byte
    rw [stored, if_neg (fun written => apart i written.2)]
    exact ok.outside byte apart
  inside j byte covered running := by
    change ¬ (Function.update s.phase i phase j).Failed at running
    change device byte = if byte < (calls j).progress dev (Function.update s.phase i phase j) then _ else _
    by_cases same : j = i
    · subst same
      have earlier := ok.inside j byte covered active
      rw [old] at earlier
      rw [Function.update_self, new, stored]
      by_cases piece : lower ≤ byte ∧ byte < upper
      · rw [if_pos ⟨piece, covered⟩, if_pos piece.2]
      · rw [if_neg (fun written => piece written.1), earlier]
        exact if_congr (by omega) rfl rfl
    · rw [Function.update_of_ne same] at running ⊢
      rw [stored, if_neg (fun written => disjoint j i same byte ⟨covered, written.2⟩)]
      exact ok.inside j byte covered running
  locked j held := by
    change (Function.update s.phase i phase j).locks = true at held
    refine ok.locked j ?_
    by_cases same : j = i
    · subst same
      rwa [Function.update_self, locks] at held
    · rwa [Function.update_of_ne same] at held
  phases j := by
    change PhaseOk dev (calls j) device (Function.update s.phase i phase j)
    by_cases same : j = i
    · subst same
      rw [Function.update_self]
      exact found
    · rw [Function.update_of_ne same]
      refine (ok.phases j).congr fun held byte first last => ?_
      -- who holds the lock is alone with its blocks: an aligned call writes none of them
      rw [stored, if_neg]
      rintro ⟨-, covered⟩
      rcases alone with holder | aligned
      · have both := (ok.locked j held).symm.trans (ok.locked i holder)
        exact same (Option.some.inj both)
      · have sub := (ok.phases j).subBlock held
        obtain ⟨shared, shares, others⟩ := sub.shared_byte aligned first last covered
        exact disjoint j i same shared ⟨shares, others⟩

/-- Each step loses nothing. -/
theorem Lossless.step {s' : DeviceState Call} (ok : Lossless dev calls before s)
    (disjoint : ∀ i j, i ≠ j → ∀ byte, ¬ ((calls i).Covers byte ∧ (calls j).Covers byte))
    (step : DeviceStep dev calls s s') : Lossless dev calls before s' := by
  cases step with
  | enter i memory now power =>
    have found := @enterWrite_ok dev (calls i) s.device memory power
    refine ok.goto i _ s.rmwLock (.inr (not_failed now (by simp))) ?_ found.1 ?_ (fun j _ held => held)
    · rw [now]
      exact found.2.1
    · intro locks
      rw [found.2.2] at locks
      cases locks
  | write i done n now piece =>
    have aligned := ok.phases i
    rw [now] at aligned
    refine ok.store i _ _ disjoint ((calls i).offset + done) ((calls i).offset + (done + n)) ?_ rfl (by omega)
      (not_failed now (by simp)) ?_ aligned ?_ (.inr aligned)
    · rw [now]
      rfl
    · intro byte
      rw [copyRange]
      obtain ⟨-, short, -⟩ := piece
      by_cases inside : (calls i).offset + done ≤ byte ∧ byte < (calls i).offset + done + n
      · rw [if_pos inside, if_pos ⟨by omega, by omega, by omega⟩,
          show done + (byte - ((calls i).offset + done)) = byte - (calls i).offset by omega]
      · rw [if_neg inside, if_neg (by omega)]
    · rw [now]
      rfl
  | written i now =>
    refine ok.goto i _ s.rmwLock (.inr (not_failed now (by simp))) ?_ trivial
      (fun locks => absurd locks Bool.false_ne_true) (fun j _ held => held)
    · rw [now]
      exact fun _ byte covered => Iff.rfl
  | writeFails i done error now left =>
    exact ok.goto i _ s.rmwLock (.inl ⟨error, rfl⟩) (fun running => absurd ⟨error, rfl⟩ running) trivial
      (fun locks => absurd locks Bool.false_ne_true) (fun j _ held => held)
  | lock i tmp now free =>
    have sub := ok.phases i
    rw [now] at sub
    refine ok.goto i _ (some i) (.inr (not_failed now (by simp))) ?_
      ⟨sub, Nat.zero_le _, fun k read => absurd read (Nat.not_lt_zero k)⟩ (fun _ => rfl) (fun j _ held => ?_)
    · rw [now]
      exact fun _ byte covered => Iff.rfl
    · rw [free] at held
      cases held
  | read i done n tmp now piece =>
    have found := ok.phases i
    rw [now] at found
    obtain ⟨sub, fits, copied⟩ := found
    obtain ⟨-, short, -⟩ := piece
    refine ok.goto i _ s.rmwLock (.inr (not_failed now (by simp))) ?_ ⟨sub, by omega, fun k read => ?_⟩
      (fun _ => ok.locked i (by rw [now]; rfl)) (fun j _ held => held)
    · rw [now]
      exact fun _ byte covered => Iff.rfl
    · rw [copyRange]
      by_cases piece : done ≤ k ∧ k < done + n
      · rw [if_pos piece, show (calls i).start dev + done + (k - done) = (calls i).start dev + k by omega]
      · rw [if_neg piece]
        exact copied k (by omega)
  | change i tmp now =>
    have found := ok.phases i
    rw [now] at found
    obtain ⟨sub, fits, copied⟩ := found
    obtain ⟨first, last⟩ := sub.around
    refine ok.goto i _ s.rmwLock (.inr (not_failed now (by simp))) ?_ ⟨sub, fun k inside => ?_⟩
      (fun _ => ok.locked i (by rw [now]; rfl)) (fun j _ held => held)
    · rw [now]
      intro _ byte covered
      have lower := covered.1
      change byte < (calls i).start dev + 0 ↔ byte < 0
      omega
    · rw [copyRange]
      constructor
      · rintro ⟨lower, upper⟩
        rw [if_pos (by omega)]
        congr 1
        omega
      · intro apart
        rw [if_neg (fun inside => apart ⟨by omega, by omega⟩)]
        exact copied k inside
  | rewrite i done n tmp now piece =>
    have found := ok.phases i
    rw [now] at found
    obtain ⟨sub, copied⟩ := found
    obtain ⟨-, short, -⟩ := piece
    have stored (byte : Nat) : copyRange s.device ((calls i).start dev + done) tmp done n byte =
        if ((calls i).start dev + done ≤ byte ∧ byte < (calls i).start dev + (done + n)) ∧ (calls i).Covers byte then
          (calls i).buf (byte - (calls i).offset) else s.device byte := by
      rw [copyRange]
      by_cases inside : (calls i).start dev + done ≤ byte ∧ byte < (calls i).start dev + done + n
      · have at' := copied (done + (byte - ((calls i).start dev + done))) (by omega)
        rw [show (calls i).start dev + (done + (byte - ((calls i).start dev + done))) = byte by omega] at at'
        rw [if_pos inside]
        by_cases covered : (calls i).Covers byte
        · rw [if_pos ⟨by omega, covered⟩, at'.1 covered]
        · rw [if_neg (fun written => covered written.2), at'.2 covered]
      · rw [if_neg inside, if_neg (fun written => inside (by omega))]
    refine ok.store i _ _ disjoint ((calls i).start dev + done) ((calls i).start dev + (done + n)) ?_ rfl (by omega)
      (not_failed now (by simp)) stored ⟨sub, fun k inside => ⟨(copied k inside).1, fun apart => ?_⟩⟩ ?_ (.inl ?_)
    · rw [now]
      rfl
    · rw [stored, if_neg (fun written => apart written.2)]
      exact (copied k inside).2 apart
    · rw [now]
      rfl
    · rw [now]
      rfl
  | unlock i tmp now =>
    have held := ok.locked i (by rw [now]; rfl)
    have found := ok.phases i
    rw [now] at found
    obtain ⟨first, last⟩ := found.1.around
    refine ok.goto i _ none (.inr (not_failed now (by simp))) ?_ trivial
      (fun locks => absurd locks Bool.false_ne_true) (fun j other others => ?_)
    · rw [now]
      intro _ byte covered
      have upper := covered.2
      change byte < (calls i).offset + (calls i).count ↔ byte < (calls i).start dev + (calls i).len dev
      omega
    · exact absurd (Option.some.inj (others.symm.trans held)) other
  | readFails i done tmp error now left | rewriteFails i done tmp error now left =>
    have held := ok.locked i (by rw [now]; rfl)
    exact ok.goto i _ none (.inl ⟨error, rfl⟩) (fun running => absurd ⟨error, rfl⟩ running) trivial
      (fun locks => absurd locks Bool.false_ne_true)
      (fun j other others => absurd (Option.some.inj (others.symm.trans held)) other)

theorem Lossless.run {s' : DeviceState Call} (ok : Lossless dev calls before s)
    (disjoint : ∀ i j, i ≠ j → ∀ byte, ¬ ((calls i).Covers byte ∧ (calls j).Covers byte))
    (run : Relation.ReflTransGen (DeviceStep dev calls) s s') : Lossless dev calls before s' := by
  induction run with
  | refl => exact ok
  | tail _ step ih => exact ih.step disjoint step

end Invariant

/-- In every interleaving of writes of disjoint ranges, when they have all returned without an
error, every range holds its bytes, and no other byte of the device has changed. -/
theorem concurrent_writes_lose_nothing {Call : Type} [DecidableEq Call] (dev : BlockDevice)
    (calls : Call → WriteCall) (before : Mem) (s : DeviceState Call)
    (disjoint : ∀ i j, i ≠ j → ∀ byte, ¬ ((calls i).Covers byte ∧ (calls j).Covers byte))
    (run : Relation.ReflTransGen (DeviceStep dev calls) (DeviceState.begun before) s)
    (finished : ∀ i, s.phase i = .returned (.ok ())) :
    (∀ i byte, (calls i).Covers byte → s.device byte = (calls i).buf (byte - (calls i).offset)) ∧
      ∀ byte, (∀ i, ¬ (calls i).Covers byte) → s.device byte = before byte := by
  have ok : Lossless dev calls before s := lossless_begun.run disjoint run
  refine ⟨fun i byte covered => ?_, ok.outside⟩
  have running : ¬ (s.phase i).Failed := by
    rw [finished i]
    rintro ⟨error, failed⟩
    cases failed
  rw [ok.inside i byte covered running, finished i]
  exact if_pos covered.2

/-- A device of two sectors of 512 bytes. -/
def twoSectors : BlockDevice := ⟨512, true, false, 1024, by decide, by decide, by decide⟩

/-- Two bytes of the first sector. -/
def twoBytes (second : Bool) : WriteCall := ⟨fun _ => if second then 2 else 1, if second then 2 else 1, 1⟩

/-- Two calls write to one sector, the second one waiting for the first. -/
theorem two_bytes_of_a_block : ∃ s : DeviceState Bool,
    Relation.ReflTransGen (DeviceStep twoSectors twoBytes) (DeviceState.begun zeros) s ∧
      s.device 0 = 0 ∧ s.device 1 = 1 ∧ s.device 2 = 2 ∧ s.device 511 = 0 := by
  have piece : PieceOf 0 512 512 := by unfold PieceOf ioChunk; omega
  have first : DeviceStep twoSectors twoBytes (DeviceState.begun zeros) _ :=
    .enter (DeviceState.begun zeros) false true rfl (fun _ => ⟨9, rfl⟩)
  have run := Relation.ReflTransGen.single first
    |>.tail (.enter _ true true rfl (fun _ => ⟨9, rfl⟩))
    |>.tail (.lock _ false zeros rfl rfl)
    |>.tail (.read _ false 0 512 _ rfl piece)
    |>.tail (.change _ false _ rfl)
    |>.tail (.rewrite _ false 0 512 _ rfl piece)
    |>.tail (.unlock _ false _ rfl)
    |>.tail (.lock _ true zeros rfl rfl)
    |>.tail (.read _ true 0 512 _ rfl piece)
    |>.tail (.change _ true _ rfl)
    |>.tail (.rewrite _ true 0 512 _ rfl piece)
    |>.tail (.unlock _ true _ rfl)
  have finished := concurrent_writes_lose_nothing twoSectors twoBytes zeros _ (by
    intro i j differ byte both
    cases i <;> cases j <;> simp_all [WriteCall.Covers, twoBytes] <;> omega) run (by
    intro i
    cases i <;> rfl)
  refine ⟨_, run, finished.2 0 ?_, finished.1 false 1 (by decide), finished.1 true 2 (by decide), finished.2 511 ?_⟩
  · intro i
    cases i <;> decide
  · intro i
    cases i <;> decide

end Ttntfs.Platform
