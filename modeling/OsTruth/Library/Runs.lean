/-
Runs of a machine that takes one call after another.

`step` is the outcome of a call, which may fail; a machine that failed makes no further
step.  `Reach step ok` are the runs all of whose calls `ok` admits in the state before
them, so a property that holds under a condition on the calls is a property of these
runs.  `runAll` executes a list of calls.
-/
import Mathlib.Logic.Relation
import Mathlib.Algebra.Ring.Nat
import Mathlib.Tactic.Common

namespace Runs

variable {σ κ ε : Type} {step : σ → κ → Except ε σ} {ok : σ → κ → Prop}

/-- One call that `ok` admits. -/
def Next (step : σ → κ → Except ε σ) (ok : σ → κ → Prop) (s t : σ) : Prop :=
  ∃ c, ok s c ∧ step s c = .ok t

/-- Any number of calls that `ok` admits. -/
abbrev Reach (step : σ → κ → Except ε σ) (ok : σ → κ → Prop) : σ → σ → Prop :=
  Relation.ReflTransGen (Next step ok)

/-- What every admitted call keeps holds in every state that is reached. -/
theorem Reach.invariant {I : σ → Prop} {s t : σ} (h : Reach step ok s t) (hs : I s)
    (hstep : ∀ s c t, I s → ok s c → step s c = .ok t → I t) : I t := by
  induction h with
  | refl => exact hs
  | tail _ hnext ih =>
      obtain ⟨c, hok, hc⟩ := hnext
      exact hstep _ c _ ih hok hc

/-- The state after a list of calls. -/
def runAll (step : σ → κ → Except ε σ) (s : σ) : List κ → Except ε σ
  | [] => .ok s
  | c :: cs =>
      match step s c with
      | .error e => .error e
      | .ok t => runAll step t cs

/-- The calls of a list are all admitted, up to the first that fails. -/
def AllOk (step : σ → κ → Except ε σ) (ok : σ → κ → Prop) (s : σ) : List κ → Prop
  | [] => True
  | c :: cs =>
      ok s c ∧
        match step s c with
        | .error _ => True
        | .ok t => AllOk step ok t cs

instance decidableAllOk [∀ s c, Decidable (ok s c)] :
    ∀ (cs : List κ) (s : σ), Decidable (AllOk step ok s cs)
  | [], _ => isTrue True.intro
  | c :: cs, s =>
      have : Decidable (match step s c with
        | .error _ => True
        | .ok t => AllOk step ok t cs) :=
        match step s c with
        | .error _ => isTrue True.intro
        | .ok t => decidableAllOk cs t
      inferInstanceAs (Decidable (_ ∧ _))

theorem allOk_true (cs : List κ) : ∀ s, AllOk step (fun _ _ => True) s cs := by
  induction cs with
  | nil => exact fun _ => True.intro
  | cons c cs ih =>
      intro s
      refine ⟨True.intro, ?_⟩
      cases step s c with
      | error e => exact True.intro
      | ok t => exact ih t

theorem reach_of_runAll {t : σ} (cs : List κ) :
    ∀ {s : σ}, AllOk step ok s cs → runAll step s cs = .ok t → Reach step ok s t := by
  induction cs with
  | nil =>
      intro s _ h
      cases h
      exact Relation.ReflTransGen.refl
  | cons c cs ih =>
      rintro s ⟨hok, hrest⟩ h
      rw [runAll] at h
      cases hc : step s c with
      | error e =>
          rw [hc] at h
          cases h
      | ok u =>
          rw [hc] at h hrest
          exact Relation.ReflTransGen.head ⟨c, hok, hc⟩ (ih hrest h)

/-- The state after a list of calls, or the first state when one of them fails. -/
def final (step : σ → κ → Except ε σ) (s : σ) (cs : List κ) : σ :=
  match runAll step s cs with
  | .error _ => s
  | .ok t => t

theorem reach_final {s : σ} {cs : List κ} (hok : AllOk step ok s cs) :
    Reach step ok s (final step s cs) := by
  unfold final
  cases hrun : runAll step s cs with
  | error e => exact Relation.ReflTransGen.refl
  | ok t => exact reach_of_runAll cs hok hrun

/-- The calls of a list all return, and `P` holds at the end. -/
def EndsIn (step : σ → κ → Except ε σ) (s : σ) (cs : List κ) (P : σ → Prop) : Prop :=
  match runAll step s cs with
  | .error _ => False
  | .ok t => P t

instance {s : σ} {cs : List κ} {P : σ → Prop} [DecidablePred P] :
    Decidable (EndsIn step s cs P) :=
  match h : runAll step s cs with
  | .error _ => isFalse fun hends => by
      unfold EndsIn at hends
      rw [h] at hends
      exact hends
  | .ok t => decidable_of_iff (P t) (by
      unfold EndsIn
      rw [h])

theorem exists_reach (step : σ → κ → Except ε σ) (ok : σ → κ → Prop) (s : σ) (cs : List κ)
    (P : σ → Prop) (hok : AllOk step ok s cs) (h : EndsIn step s cs P) :
    ∃ t, Reach step ok s t ∧ P t := by
  unfold EndsIn at h
  cases hrun : runAll step s cs with
  | error e =>
      rw [hrun] at h
      exact h.elim
  | ok t =>
      rw [hrun] at h
      exact ⟨t, reach_of_runAll cs hok hrun, h⟩

end Runs
