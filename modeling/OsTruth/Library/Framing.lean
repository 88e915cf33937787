/-
What a stateful program leaves alone, and what it looks at.

`Within R x` says that every run of `x` that returns ends in a state that `R` relates
to the first one.  For a preorder `R` this is closed under every construct, so a
frame property of a long program is read off its text: one fact for each primitive
that writes, and nothing for the control flow.

`Observes v x` says that `x` changes nothing and that its outcome depends on `v` of the
state, so two runs on states that agree there are alike.

`Blind g x` says that `g` may be applied behind `x` as well as before it: what `g` changes
is neither read nor written.
-/
import OsTruth.Library.Fallible

namespace Fallible

variable {σ ε α β : Type}

/-- Every run of `x` that returns moves along `R`. -/
def Within (R : σ → σ → Prop) (x : StateT σ (Except ε) α) : Prop :=
  ∀ s, Ensures x s (fun _ t => R s t)

namespace Within

variable {R : σ → σ → Prop} {x : StateT σ (Except ε) α} {f : α → StateT σ (Except ε) β}

theorem mono {S : σ → σ → Prop} (hx : Within R x) (h : ∀ s t, R s t → S s t) : Within S x :=
  fun s => (hx s).call fun _ t => h s t

theorem throw (e : ε) : Within R (MonadExcept.throw e : StateT σ (Except ε) α) :=
  fun _ => True.intro

theorem modify {g : σ → σ} (h : ∀ s, R s (g s)) :
    Within R (modify g : StateT σ (Except ε) PUnit) :=
  fun s => h s

theorem ite {c : Prop} [Decidable c] {y : StateT σ (Except ε) α} (hx : Within R x)
    (hy : Within R y) : Within R (if c then x else y) := by
  by_cases hc : c
  · rw [if_pos hc]
    exact hx
  · rw [if_neg hc]
    exact hy

theorem bind [IsTrans σ R] (hx : Within R x) (hf : ∀ a, Within R (f a)) :
    Within R (x >>= f) := by
  intro s
  rw [Ensures, Wp.bind]
  exact (hx s).call fun a t hst => (hf a t).call fun _ u htu => trans_of R hst htu

/-- A program that reads the state may use what it read. -/
theorem get_bind {f : σ → StateT σ (Except ε) β} (h : ∀ s, Ensures (f s) s (fun _ t => R s t)) :
    Within R (MonadState.get >>= f) := by
  intro s
  rw [Ensures, Wp.bind, Wp.get]
  exact h s

section

variable [Std.Refl R]

theorem pure (a : α) : Within R (Pure.pure a : StateT σ (Except ε) α) :=
  fun s => refl_of R s

theorem get : Within R (MonadState.get : StateT σ (Except ε) σ) :=
  fun s => refl_of R s

theorem lift (y : Except ε α) : Within R (StateT.lift y : StateT σ (Except ε) α) := by
  intro s
  rw [Ensures, Wp.lift]
  exact ⟨fun _ _ => refl_of R s, fun _ _ => True.intro⟩

end

end Within

/-- `x` changes nothing, and its outcome depends on `v` of the state. -/
def Observes {ν : Type} (v : σ → ν) (x : StateT σ (Except ε) α) : Prop :=
  ∃ f : ν → Except ε α, ∀ s, x.run s = (f (v s)).map fun a => (a, s)

namespace Observes

variable {ν : Type} {v : σ → ν} {x : StateT σ (Except ε) α} {f : α → StateT σ (Except ε) β}

theorem pure (a : α) : Observes v (Pure.pure a : StateT σ (Except ε) α) :=
  ⟨fun _ => .ok a, fun _ => rfl⟩

theorem throw (e : ε) : Observes v (MonadExcept.throw e : StateT σ (Except ε) α) :=
  ⟨fun _ => .error e, fun _ => rfl⟩

theorem lift (y : Except ε α) : Observes v (StateT.lift y : StateT σ (Except ε) α) := by
  refine ⟨fun _ => y, fun s => ?_⟩
  cases y with
  | error e => rfl
  | ok a => rfl

theorem bind (hx : Observes v x) (hf : ∀ a, Observes v (f a)) : Observes v (x >>= f) := by
  obtain ⟨g, hg⟩ := hx
  choose k hk using hf
  refine ⟨fun n => g n >>= fun a => k a n, fun s => ?_⟩
  rw [StateT.run_bind, hg]
  show _ = Except.map _ (g (v s) >>= fun a => k a (v s))
  cases g (v s) with
  | error e => rfl
  | ok a => exact hk a s

theorem ite {c : Prop} [Decidable c] {y : StateT σ (Except ε) α} (hx : Observes v x)
    (hy : Observes v y) : Observes v (if c then x else y) := by
  by_cases hc : c
  · rw [if_pos hc]
    exact hx
  · rw [if_neg hc]
    exact hy

/-- A program that reads the state and goes on with what it saw of `v`. -/
theorem get_bind {g : ν → StateT σ (Except ε) β} (h : ∀ n, Observes v (g n)) :
    Observes v (MonadState.get >>= fun s => g (v s)) := by
  choose k hk using h
  exact ⟨fun n => k n n, fun s => hk (v s) s⟩

/-- The run from one state says what the run from another does. -/
theorem run_eq (h : Observes v x) {s t : σ} (hst : v s = v t) :
    x.run t = (x.run s).map fun r => (r.1, t) := by
  obtain ⟨f, hf⟩ := h
  rw [hf, hf, hst]
  cases f (v t) with
  | error e => rfl
  | ok a => rfl

theorem wp_iff (h : Observes v x) {s t : σ} (hst : v s = v t) {F : ε → Prop} {Q : α → σ → Prop} :
    Wp x t F Q ↔ Wp x s F fun a _ => Q a t := by
  unfold Wp
  rw [h.run_eq hst]
  cases x.run s with
  | error e => exact Iff.rfl
  | ok r => exact Iff.rfl

end Observes

/-- It is the same to change the state by `g` before `x` or behind it. -/
def Blind (g : σ → σ) (x : StateT σ (Except ε) α) : Prop :=
  ∀ s, x.run (g s) = (x.run s).map fun r => (r.1, g r.2)

namespace Blind

variable {g : σ → σ} {x : StateT σ (Except ε) α} {f : α → StateT σ (Except ε) β}

theorem pure (a : α) : Blind g (Pure.pure a : StateT σ (Except ε) α) := fun _ => rfl

theorem throw (e : ε) : Blind g (MonadExcept.throw e : StateT σ (Except ε) α) := fun _ => rfl

theorem modify {k : σ → σ} (h : ∀ s, k (g s) = g (k s)) :
    Blind g (modify k : StateT σ (Except ε) PUnit) :=
  fun s => congrArg (fun t => Except.ok ((), t)) (h s)

theorem lift (y : Except ε α) : Blind g (StateT.lift y : StateT σ (Except ε) α) := by
  intro s
  cases y with
  | error e => rfl
  | ok a => rfl

theorem bind (hx : Blind g x) (hf : ∀ a, Blind g (f a)) : Blind g (x >>= f) := by
  intro s
  rw [StateT.run_bind, StateT.run_bind, hx]
  cases x.run s with
  | error e => rfl
  | ok r => exact hf r.1 r.2

theorem ite {c : Prop} [Decidable c] {y : StateT σ (Except ε) α} (hx : Blind g x)
    (hy : Blind g y) : Blind g (if c then x else y) := by
  by_cases hc : c
  · rw [if_pos hc]
    exact hx
  · rw [if_neg hc]
    exact hy

/-- A program that reads the state, but not what `g` changes. -/
theorem get_bind {k : σ → StateT σ (Except ε) β} (h : ∀ s, k (g s) = k s)
    (hk : ∀ s, Blind g (k s)) : Blind g (MonadState.get >>= k) := by
  intro s
  show (k (g s)).run (g s) = _
  rw [h]
  exact hk s s

theorem wp_iff (h : Blind g x) {s : σ} {F : ε → Prop} {Q : α → σ → Prop} :
    Wp x (g s) F Q ↔ Wp x s F fun a t => Q a (g t) := by
  unfold Wp
  rw [h]
  cases x.run s with
  | error e => exact Iff.rfl
  | ok r => exact Iff.rfl

theorem of_wp (h : ∀ (s : σ) (F : ε → Prop) (Q : α → σ → Prop),
    Wp x (g s) F Q ↔ Wp x s F fun a t => Q a (g t)) : Blind g x := by
  intro s
  cases hrun : x.run s with
  | error e =>
      have hfail : Wp x (g s) (fun e' => e' = e) fun _ _ => False := by
        refine (h s _ _).mpr ?_
        unfold Wp
        rw [hrun]
      unfold Wp at hfail
      cases hrun' : x.run (g s) with
      | error e' =>
          rw [hrun'] at hfail
          rw [hfail]
          rfl
      | ok r =>
          rw [hrun'] at hfail
          exact hfail.elim
  | ok r =>
      have hreturns : Returns x (g s) fun a t => a = r.1 ∧ t = g r.2 :=
        (h s _ _).mpr ((Wp.of_run hrun).mpr ⟨rfl, rfl⟩)
      obtain ⟨a, t, hrun', rfl, rfl⟩ := returns_iff.mp hreturns
      exact hrun'

end Blind

end Fallible
