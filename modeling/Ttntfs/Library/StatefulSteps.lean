import Mathlib.Tactic.Common

/-!
# Steps that may fail and keep their state

`EStateM` is the monad of code that works in place: a step that fails leaves behind
what it did to the state. The equations below run such a program one step at a time;
`bind_eq_ok_iff` takes a run that succeeded apart into its steps. `Keeps` is an
invariant of a program, whether it succeeds or fails, with one rule for each way to
build programs.
-/

namespace Ttntfs.Library.StatefulSteps

variable {ε σ α β : Type}

/-- Two steps without a state succeed where both do. -/
theorem bind_eq_ok {x : Except ε α} {f : α → Except ε β} {b : β} :
    (x >>= f) = .ok b ↔ ∃ a, x = .ok a ∧ f a = .ok b := by
  cases x with
  | ok a => simp [bind, Except.bind]
  | error e => simp [bind, Except.bind]

/-- A step that does nothing. -/
theorem pure_eq_ok {a b : α} : (pure a : Except ε α) = .ok b ↔ a = b := by
  simp [pure, Except.pure]

/-- Behind a check that refuses. -/
theorem check_eq_ok {c : Prop} [Decidable c] {e : ε} {x : Except ε β} {b : β} :
    (if c then .error e else x) = .ok b ↔ ¬ c ∧ x = .ok b := by
  by_cases refused : c
  · simp [refused]
  · simp [refused]

/-- The second step runs in the state that the first leaves. -/
theorem bind_ok {x : EStateM ε σ α} {f : α → EStateM ε σ β} {s s' : σ} {a : α}
    (first : x s = .ok a s') : (x >>= f) s = f a s' := by
  change EStateM.bind x f s = f a s'
  rw [EStateM.bind, first]

/-- A failure ends the run. -/
theorem bind_error {x : EStateM ε σ α} {f : α → EStateM ε σ β} {s s' : σ} {e : ε}
    (first : x s = .error e s') : (x >>= f) s = .error e s' := by
  change EStateM.bind x f s = .error e s'
  rw [EStateM.bind, first]

/-- A run of two steps succeeds where both do. -/
theorem bind_eq_ok_iff {x : EStateM ε σ α} {f : α → EStateM ε σ β} {s s' : σ} {b : β} :
    (x >>= f) s = .ok b s' ↔ ∃ a t, x s = .ok a t ∧ f a t = .ok b s' := by
  cases first : x s with
  | ok a t => simp [bind_ok first]
  | error e t => simp [bind_error first]

/-- A program that reads its state first. -/
theorem get_bind (f : σ → EStateM ε σ β) (s : σ) : (get >>= f) s = f s s := rfl

/-- A program that changes its state first. -/
theorem modify_bind (f : σ → σ) (g : PUnit → EStateM ε σ β) (s : σ) :
    (modify f >>= g) s = g ⟨⟩ (f s) := rfl

/-- A handler runs in the state that the failed program leaves. -/
theorem tryCatch_eq (x : EStateM ε σ α) (handle : ε → EStateM ε σ α) (s : σ) :
    (tryCatch x handle) s = match x s with
      | .ok a t => .ok a t
      | .error e t => handle e t := by
  change EStateM.tryCatch x handle s = _
  rw [EStateM.tryCatch]
  cases x s with
  | ok a t => rfl
  | error e t => rfl

/-- A program with a handler that always fails succeeds where the program does. -/
theorem tryCatch_eq_ok_iff {x : EStateM ε σ α} {handle : ε → EStateM ε σ α} {s s' : σ} {a : α}
    (fails : ∀ e t a t', handle e t ≠ .ok a t') :
    (tryCatch x handle) s = .ok a s' ↔ x s = .ok a s' := by
  rw [tryCatch_eq]
  cases x s with
  | ok b t => rfl
  | error e t => simp [fails]

/-! ## Invariants -/

/-- The state a program ends in, also where it fails. -/
def finalState (x : EStateM ε σ α) (s : σ) : σ :=
  match x s with
  | .ok _ t => t
  | .error _ t => t

/-- A program leads from states with the invariant to states with the invariant. -/
def Keeps (I : σ → Prop) (x : EStateM ε σ α) : Prop := ∀ s, I s → I (finalState x s)

variable {I : σ → Prop}

/-- The invariant holds after a run that succeeds. -/
theorem Keeps.ok {x : EStateM ε σ α} (keeps : Keeps I x) {s s' : σ} {a : α}
    (run : x s = .ok a s') (holds : I s) : I s' := by
  have final := keeps s holds
  rwa [finalState, run] at final

/-- The invariant holds after a run that fails. -/
theorem Keeps.error {x : EStateM ε σ α} (keeps : Keeps I x) {s s' : σ} {e : ε}
    (run : x s = .error e s') (holds : I s) : I s' := by
  have final := keeps s holds
  rwa [finalState, run] at final

/-- Nothing is done. -/
theorem keeps_pure (a : α) : Keeps I (pure a : EStateM ε σ α) := fun _ holds => holds

/-- A failure. -/
theorem keeps_throw (e : ε) : Keeps I (throw e : EStateM ε σ α) := fun _ holds => holds

/-- The state is read. -/
theorem keeps_get : Keeps I (get : EStateM ε σ σ) := fun _ holds => holds

/-- The state is changed. -/
theorem keeps_modify {f : σ → σ} (change : ∀ s, I s → I (f s)) :
    Keeps I (modify f : EStateM ε σ PUnit) := change

/-- One step after the other, where the second relies on what the first returns. -/
theorem Keeps.bindOf {x : EStateM ε σ α} {f : α → EStateM ε σ β} (first : Keeps I x)
    (second : ∀ s a t, x s = .ok a t → Keeps I (f a)) : Keeps I (x >>= f) := by
  intro s holds
  cases run : x s with
  | ok a t =>
    rw [finalState, bind_ok run]
    exact second s a t run t (first.ok run holds)
  | error e t =>
    rw [finalState, bind_error run]
    exact first.error run holds

/-- One step after the other. -/
theorem Keeps.bind {x : EStateM ε σ α} {f : α → EStateM ε σ β} (first : Keeps I x)
    (second : ∀ a, Keeps I (f a)) : Keeps I (x >>= f) :=
  first.bindOf fun _ a _ _ => second a

/-- A program with a handler. -/
theorem Keeps.tryCatch {x : EStateM ε σ α} {handle : ε → EStateM ε σ α} (body : Keeps I x)
    (handler : ∀ e, Keeps I (handle e)) : Keeps I (tryCatch x handle) := by
  intro s holds
  rw [finalState, tryCatch_eq]
  cases run : x s with
  | ok a t => exact body.ok run holds
  | error e t => exact handler e t (body.error run holds)

/-! ## Both ends of a program -/

/-- From a state a program ends as one of two postconditions says: one for a run that
succeeds, one for a run that fails. -/
def Ends (x : EStateM ε σ α) (s : σ) (done : α → σ → Prop) (failed : ε → σ → Prop) : Prop :=
  match x s with
  | .ok a t => done a t
  | .error e t => failed e t

variable {done : α → σ → Prop} {failed : ε → σ → Prop} {s s' : σ}

/-- The postcondition of a run that succeeded. -/
theorem Ends.ok {x : EStateM ε σ α} {a : α} (ends : Ends x s done failed) (run : x s = .ok a s') :
    done a s' := by
  rwa [Ends, run] at ends

/-- A program that cannot fail succeeds. -/
theorem Ends.succeeds {x : EStateM ε σ α} (ends : Ends x s done failed)
    (never : ∀ e t, ¬ failed e t) : ∃ a t, x s = .ok a t ∧ done a t := by
  rw [Ends] at ends
  cases run : x s with
  | ok a t =>
    rw [run] at ends
    exact ⟨a, t, rfl, ends⟩
  | error e t =>
    rw [run] at ends
    exact absurd ends (never e t)

/-- Weaker postconditions. -/
theorem Ends.imp {x : EStateM ε σ α} {done' : α → σ → Prop} {failed' : ε → σ → Prop}
    (ends : Ends x s done failed) (ok : ∀ a t, done a t → done' a t)
    (error : ∀ e t, failed e t → failed' e t) : Ends x s done' failed' := by
  rw [Ends] at ends ⊢
  cases run : x s with
  | ok a t =>
    rw [run] at ends
    exact ok a t ends
  | error e t =>
    rw [run] at ends
    exact error e t ends

/-- Every program ends in one way or the other. -/
theorem ends_anyhow (x : EStateM ε σ α) (s : σ) : Ends x s (fun _ _ => True) fun _ _ => True := by
  rw [Ends]
  cases x s with
  | ok a t => trivial
  | error e t => trivial

/-- One step after the other. -/
theorem Ends.bind {x : EStateM ε σ β} {f : β → EStateM ε σ α}
    (ends : Ends x s (fun b t => Ends (f b) t done failed) failed) : Ends (x >>= f) s done failed := by
  rw [Ends] at ends ⊢
  cases run : x s with
  | ok b t =>
    rw [run] at ends
    rw [bind_ok run]
    exact ends
  | error e t =>
    rw [run] at ends
    rw [bind_error run]
    exact ends

/-- A program with a handler. -/
theorem Ends.tryCatch {x : EStateM ε σ α} {handle : ε → EStateM ε σ α}
    (ends : Ends x s done fun e t => Ends (handle e) t done failed) :
    Ends (MonadExcept.tryCatch x handle) s done failed := by
  rw [Ends] at ends ⊢
  rw [tryCatch_eq]
  cases run : x s with
  | ok a t =>
    rw [run] at ends
    exact ends
  | error e t =>
    rw [run] at ends
    exact ends

end Ttntfs.Library.StatefulSteps
