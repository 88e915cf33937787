/-
Weakest preconditions of stateful programs that can fail.

A program is `StateT σ (Except ε) α`.  `Wp x s F Q` says where the run of `x` from
`s` ends: a run that returns ends in `Q`, and a run that fails fails with an error
in `F`.  Partial correctness, `Ensures`, lets a run fail with any error; total
correctness, `Returns`, with none.

Each rule is an equivalence, so a proof follows the program statement by statement
in either direction, and `Wp.mono` replaces a call by what is known of the called
program.
-/
import Mathlib.Algebra.Ring.Nat
import Mathlib.Tactic.Common

namespace Fallible

variable {σ ε α β : Type}

/-- The run of `x` from `s` ends in `Q`, or fails with an error in `F`. -/
def Wp (x : StateT σ (Except ε) α) (s : σ) (F : ε → Prop) (Q : α → σ → Prop) : Prop :=
  match x.run s with
  | .ok (a, t) => Q a t
  | .error e => F e

/-- Every run of `x` from `s` that returns ends in `Q`. -/
abbrev Ensures (x : StateT σ (Except ε) α) (s : σ) (Q : α → σ → Prop) : Prop :=
  Wp x s (fun _ => True) Q

/-- The run of `x` from `s` returns, and ends in `Q`. -/
abbrev Returns (x : StateT σ (Except ε) α) (s : σ) (Q : α → σ → Prop) : Prop :=
  Wp x s (fun _ => False) Q

/-- A run on a given state can be executed. -/
instance {x : StateT σ (Except ε) α} {s : σ} {F : ε → Prop} {Q : α → σ → Prop} [DecidablePred F]
    [∀ a t, Decidable (Q a t)] : Decidable (Wp x s F Q) :=
  match h : x.run s with
  | .ok (a, t) => decidable_of_iff (Q a t) (by
      unfold Wp
      rw [h])
  | .error e => decidable_of_iff (F e) (by
      unfold Wp
      rw [h])

theorem ensures_iff {x : StateT σ (Except ε) α} {s : σ} {Q : α → σ → Prop} :
    Ensures x s Q ↔ ∀ a t, x.run s = .ok (a, t) → Q a t := by
  unfold Ensures Wp
  cases h : x.run s with
  | error e => simp
  | ok p =>
      obtain ⟨a, t⟩ := p
      simp

theorem returns_iff {x : StateT σ (Except ε) α} {s : σ} {Q : α → σ → Prop} :
    Returns x s Q ↔ ∃ a t, x.run s = .ok (a, t) ∧ Q a t := by
  unfold Returns Wp
  cases h : x.run s with
  | error e => simp
  | ok p =>
      obtain ⟨a, t⟩ := p
      simp

namespace Wp

variable {x : StateT σ (Except ε) α} {f : α → StateT σ (Except ε) β} {s : σ}
variable {F G : ε → Prop}

/-! ## Structural rules -/

theorem mono {Q R : α → σ → Prop} (h : Wp x s F Q) (hF : ∀ e, F e → G e)
    (hQ : ∀ a t, Q a t → R a t) : Wp x s G R := by
  unfold Wp at h ⊢
  cases hx : x.run s with
  | error e =>
      rw [hx] at h
      exact hF e h
  | ok p =>
      rw [hx] at h
      exact hQ p.1 p.2 h

/-- `mono` with the failures left as they are: the rule for a call. -/
theorem call {Q R : α → σ → Prop} (h : Wp x s F Q) (hQ : ∀ a t, Q a t → R a t) : Wp x s F R :=
  h.mono (fun _ he => he) hQ

theorem trivial : Ensures x s (fun _ _ => True) :=
  ensures_iff.mpr fun _ _ _ => True.intro

/-- A run that is known. -/
theorem of_run {a : α} {t : σ} (h : x.run s = .ok (a, t)) {Q : α → σ → Prop} :
    Wp x s F Q ↔ Q a t := by
  unfold Wp
  rw [h]

theorem and {Q R : α → σ → Prop} (hQ : Wp x s F Q) (hR : Ensures x s R) :
    Wp x s F fun a t => Q a t ∧ R a t := by
  unfold Ensures Wp at *
  cases hx : x.run s with
  | error e =>
      rw [hx] at hQ
      exact hQ
  | ok p =>
      rw [hx] at hQ hR
      exact ⟨hQ, hR⟩

/-! ## One rule for each construct -/

theorem bind {Q : β → σ → Prop} :
    Wp (x >>= f) s F Q ↔ Wp x s F (fun a t => Wp (f a) t F Q) := by
  unfold Wp
  rw [StateT.run_bind]
  cases h : x.run s with
  | error e => exact Iff.rfl
  | ok p => exact Iff.rfl

theorem pure {a : α} {Q : α → σ → Prop} :
    Wp (Pure.pure a : StateT σ (Except ε) α) s F Q ↔ Q a s :=
  Iff.rfl

theorem get {Q : σ → σ → Prop} :
    Wp (MonadState.get : StateT σ (Except ε) σ) s F Q ↔ Q s s :=
  Iff.rfl

theorem set {u : σ} {Q : PUnit → σ → Prop} :
    Wp (MonadStateOf.set u : StateT σ (Except ε) PUnit) s F Q ↔ Q ⟨⟩ u :=
  Iff.rfl

theorem modify {g : σ → σ} {Q : PUnit → σ → Prop} :
    Wp (modify g : StateT σ (Except ε) PUnit) s F Q ↔ Q ⟨⟩ (g s) :=
  Iff.rfl

theorem throw {e : ε} {Q : α → σ → Prop} :
    Wp (MonadExcept.throw e : StateT σ (Except ε) α) s F Q ↔ F e :=
  Iff.rfl

theorem ite {c : Prop} [Decidable c] {y : StateT σ (Except ε) α} {Q : α → σ → Prop} :
    Wp (if c then x else y) s F Q ↔ (c → Wp x s F Q) ∧ (¬c → Wp y s F Q) := by
  by_cases hc : c
  · simp [hc]
  · simp [hc]

theorem lift {y : Except ε α} {Q : α → σ → Prop} :
    Wp (StateT.lift y : StateT σ (Except ε) α) s F Q ↔
      (∀ a, y = .ok a → Q a s) ∧ ∀ e, y = .error e → F e := by
  cases y with
  | error e =>
      have h : (StateT.lift (Except.error e : Except ε α) : StateT σ (Except ε) α).run s =
        .error e := rfl
      unfold Wp
      rw [h]
      simp
  | ok a =>
      have h : (StateT.lift (Except.ok a : Except ε α) : StateT σ (Except ε) α).run s =
        .ok (a, s) := rfl
      unfold Wp
      rw [h]
      simp

theorem lift_pure {a : α} {Q : α → σ → Prop} :
    Wp (StateT.lift (.ok a) : StateT σ (Except ε) α) s F Q ↔ Q a s :=
  Iff.rfl

theorem lift_ok {a : α} {y : Except ε α} (hy : y = .ok a) {Q : α → σ → Prop} (hQ : Q a s) :
    Wp (StateT.lift y : StateT σ (Except ε) α) s F Q := by
  rw [hy]
  exact hQ

end Wp

/-! ## A part of the state -/

/-- `x` runs on a part of the state. -/
def onPart {τ : Type} (part : σ → τ) (put : σ → τ → σ) (x : StateT τ (Except ε) α) :
    StateT σ (Except ε) α :=
  fun s => match x.run (part s) with
    | .ok (a, t) => .ok (a, put s t)
    | .error e => .error e

theorem Wp.onPart {τ : Type} {part : σ → τ} {put : σ → τ → σ} {x : StateT τ (Except ε) α} {s : σ}
    {F : ε → Prop} {Q : α → σ → Prop} :
    Wp (onPart part put x) s F Q ↔ Wp x (part s) F fun a t => Q a (put s t) := by
  have hrun : (Fallible.onPart part put x).run s = match x.run (part s) with
      | .ok (a, t) => .ok (a, put s t)
      | .error e => .error e := rfl
  unfold Wp
  rw [hrun]
  cases x.run (part s) with
  | error e => exact Iff.rfl
  | ok r => exact Iff.rfl

end Fallible
