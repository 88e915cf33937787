/-
Parties that take turns on one machine.

`play` makes the calls of several parties in the order in which they come.  The parties are
`Apart` when each of them gets the answers that it gets alone, whatever the others do in
between.  They are, if a local state for each of them, which only its own calls change, is
enough to follow the machine.
-/
import Mathlib.Logic.Function.Basic
import Mathlib.Algebra.Ring.Nat
import Mathlib.Tactic.Common

namespace Interleave

variable {ι κ ο σ τ ε α : Type}

/-- The answers to a sequence of calls. -/
def play (step : σ → ι → κ → Except ε (ο × σ)) : σ → List (ι × κ) → Except ε (List (ι × ο))
  | _, [] => .ok []
  | s, (i, c) :: l =>
      match step s i c with
      | .error e => .error e
      | .ok (o, t) => (play step t l).map fun os => (i, o) :: os

theorem play_cons {step : σ → ι → κ → Except ε (ο × σ)} {s : σ} {i : ι} {c : κ}
    {l : List (ι × κ)} {os : List (ι × ο)} :
    play step s ((i, c) :: l) = .ok os ↔
      ∃ o t os', step s i c = .ok (o, t) ∧ play step t l = .ok os' ∧ os = (i, o) :: os' := by
  rw [play]
  cases hstep : step s i c with
  | error e => simp
  | ok r =>
      obtain ⟨o, t⟩ := r
      cases hrest : play step t l with
      | error e => simp [hrest, Except.map]
      | ok os' => simp [hrest, Except.map, eq_comm]

variable [DecidableEq ι]

/-- What concerns party `i`. -/
def only (i : ι) (l : List (ι × α)) : List (ι × α) := l.filter fun x => x.1 = i

/-- When the calls of each party return alone, they return together, and each party gets
the same answers. -/
structure Apart (step : σ → ι → κ → Except ε (ο × σ)) (s : σ) : Prop where
  returns : ∀ l, (∀ i, ∃ os, play step s (only i l) = .ok os) → ∃ os, play step s l = .ok os
  answers : ∀ l os i, play step s l = .ok os → play step s (only i l) = .ok (only i os)

section

variable {i j : ι}

theorem only_same (x : α) (l : List (ι × α)) : only i ((i, x) :: l) = (i, x) :: only i l := by
  simp [only]

theorem only_other (x : α) (l : List (ι × α)) (h : j ≠ i) : only i ((j, x) :: l) = only i l := by
  simp [only, h]

end

/-! ## Local states -/

variable {locally : ι → τ → κ → Except ε (ο × τ)}

/-- The machine that keeps a local state for each party. -/
def product (locally : ι → τ → κ → Except ε (ο × τ)) (f : ι → τ) (i : ι) (c : κ) :
    Except ε (ο × (ι → τ)) :=
  (locally i (f i) c).map fun r => (r.1, Function.update f i r.2)

section

variable {f g : ι → τ} {i j : ι} {c : κ} {l : List (ι × κ)} {os : List (ι × ο)}

theorem product_cons : play (product locally) f ((i, c) :: l) = .ok os ↔
    ∃ o x os', locally i (f i) c = .ok (o, x) ∧
      play (product locally) (Function.update f i x) l = .ok os' ∧ os = (i, o) :: os' := by
  have hstep : ∀ o g, product locally f i c = .ok (o, g) ↔
      ∃ x, locally i (f i) c = .ok (o, x) ∧ Function.update f i x = g := by
    intro o g
    unfold product
    cases locally i (f i) c with
    | error e => simp [Except.map]
    | ok r =>
        obtain ⟨o', x⟩ := r
        simp only [Except.map, Except.ok.injEq, Prod.mk.injEq]
        constructor
        · rintro ⟨ho, hg⟩
          exact ⟨x, ⟨ho, rfl⟩, hg⟩
        · rintro ⟨y, ⟨ho, hx⟩, hg⟩
          exact ⟨ho, hx ▸ hg⟩
  rw [play_cons]
  constructor
  · rintro ⟨o, g, os', hg, hrest, hos⟩
    obtain ⟨x, hx, rfl⟩ := (hstep o g).mp hg
    exact ⟨o, x, os', hx, hrest, hos⟩
  · rintro ⟨o, x, os', hx, hrest, hos⟩
    exact ⟨o, _, os', (hstep o _).mpr ⟨x, hx, rfl⟩, hrest, hos⟩

/-- Alone, a party depends on its own state. -/
theorem play_only_congr (l : List (ι × κ)) (os : List (ι × ο)) (h : f i = g i)
    (hf : play (product locally) f (only i l) = .ok os) :
    play (product locally) g (only i l) = .ok os := by
  induction l generalizing f g os with
  | nil => exact hf
  | cons call l ih =>
      obtain ⟨j, c⟩ := call
      by_cases hj : j = i
      · rw [hj, only_same, product_cons] at hf ⊢
        obtain ⟨o, x, os', hstep, hrest, heq⟩ := hf
        rw [h] at hstep
        exact ⟨o, x, os', hstep, ih os' (by simp) hrest, heq⟩
      · rw [only_other _ _ hj] at hf ⊢
        exact ih os h hf

/-- A machine that keeps the parties' states apart keeps the parties apart. -/
theorem product_apart (f : ι → τ) : Apart (product locally) f := by
  constructor
  · intro l
    induction l generalizing f with
    | nil => exact fun _ => ⟨[], rfl⟩
    | cons call l ih =>
        obtain ⟨j, c⟩ := call
        intro h
        obtain ⟨os, hos⟩ := h j
        rw [only_same, product_cons] at hos
        obtain ⟨o, x, os', hstep, hrest, -⟩ := hos
        have hall : ∀ i, ∃ os, play (product locally) (Function.update f j x) (only i l) = .ok os := by
          intro i
          by_cases hj : j = i
          · rw [← hj]
            exact ⟨os', hrest⟩
          · obtain ⟨os, hos⟩ := h i
            rw [only_other _ _ hj] at hos
            exact ⟨os, play_only_congr l os (by simp [Ne.symm hj]) hos⟩
        obtain ⟨os, hos⟩ := ih _ hall
        exact ⟨(j, o) :: os, product_cons.mpr ⟨o, x, os, hstep, hos, rfl⟩⟩
  · intro l
    induction l generalizing f with
    | nil =>
        intro os i h
        cases h
        rfl
    | cons call l ih =>
        obtain ⟨j, c⟩ := call
        intro os i h
        obtain ⟨o, x, os', hstep, hrest, rfl⟩ := product_cons.mp h
        have halone := ih _ os' i hrest
        by_cases hj : j = i
        · rw [hj, only_same, only_same, product_cons]
          rw [hj] at hstep halone
          exact ⟨o, x, _, hstep, halone, rfl⟩
        · rw [only_other _ _ hj, only_other _ _ hj]
          exact play_only_congr l _ (by simp [Ne.symm hj]) halone

end

/-! ## Following a machine -/

/-- The local states say what the machine answers the parties in `P`, and its calls change
them only where they say so. -/
def Follows (P : ι → Prop) (step : σ → ι → κ → Except ε (ο × σ))
    (locally : ι → τ → κ → Except ε (ο × τ)) (R : σ → (ι → τ) → Prop) : Prop :=
  ∀ s f i c, P i → R s f →
    match locally i (f i) c with
    | .error _ => ∃ e, step s i c = .error e
    | .ok (o, x) => ∃ t, step s i c = .ok (o, t) ∧ R t (Function.update f i x)

section

variable {step : σ → ι → κ → Except ε (ο × σ)} {P Q : ι → Prop} {R S : σ → (ι → τ) → Prop}
variable {s t : σ} {f g : ι → τ}

theorem Follows.play_iff (h : Follows P step locally R) (l : List (ι × κ)) (os : List (ι × ο))
    (hl : ∀ call ∈ l, P call.1) (hs : R s f) :
    play step s l = .ok os ↔ play (product locally) f l = .ok os := by
  induction l generalizing s f os with
  | nil => exact Iff.rfl
  | cons call l ih =>
      obtain ⟨i, c⟩ := call
      have hrest : ∀ call ∈ l, P call.1 := fun x hx => hl x (List.mem_cons_of_mem _ hx)
      have hcall := h s f i c (hl _ List.mem_cons_self) hs
      rw [play_cons, product_cons]
      cases hlocal : locally i (f i) c with
      | error e =>
          rw [hlocal] at hcall
          obtain ⟨e', he⟩ := hcall
          simp [he]
      | ok r =>
          rw [hlocal] at hcall
          obtain ⟨t, ht, hr⟩ := hcall
          constructor
          · rintro ⟨o, u, os', hstep, hplay, rfl⟩
            rw [ht] at hstep
            cases hstep
            exact ⟨r.1, r.2, os', rfl, (ih os' hrest hr).mp hplay, rfl⟩
          · rintro ⟨o, x, os', hstep, hplay, rfl⟩
            cases hstep
            exact ⟨o, t, os', ht, (ih os' hrest hr).mpr hplay, rfl⟩

/-- A machine that local states follow keeps the parties apart. -/
theorem Follows.apart (h : Follows (fun _ => True) step locally R) (hs : R s f) : Apart step s := by
  have hproduct : Apart (product locally) f := product_apart f
  have hplay : ∀ l os, play step s l = .ok os ↔ play (product locally) f l = .ok os :=
    fun l os => h.play_iff l os (fun _ _ => True.intro) hs
  constructor
  · intro l hl
    obtain ⟨os, hos⟩ := hproduct.returns l fun i => by
      obtain ⟨os, hos⟩ := hl i
      exact ⟨os, (hplay _ os).mp hos⟩
    exact ⟨os, (hplay l os).mpr hos⟩
  · intro l os i hos
    exact (hplay _ _).mpr (hproduct.answers l os i ((hplay l os).mp hos))

/-- A party gets the same answers wherever its local state is the same. -/
theorem Follows.only_iff (hP : Follows P step locally R) (hQ : Follows Q step locally S) {i : ι}
    (hi : P i ∧ Q i) (hs : R s f) (ht : S t g) (hfg : f i = g i) (l : List (ι × κ))
    (os : List (ι × ο)) : play step s (only i l) = .ok os ↔ play step t (only i l) = .ok os := by
  have hmem : ∀ call ∈ only i l, call.1 = i := by
    intro call hcall
    have hfilter := (List.mem_filter.mp hcall).2
    simpa using hfilter
  rw [hP.play_iff _ os (fun x hx => (hmem x hx).symm ▸ hi.1) hs,
    hQ.play_iff _ os (fun x hx => (hmem x hx).symm ▸ hi.2) ht]
  exact ⟨play_only_congr l os hfg, play_only_congr l os hfg.symm⟩

end

end Interleave
