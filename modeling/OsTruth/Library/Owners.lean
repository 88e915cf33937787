/-
Resources that have one owner each.

`own x` is the resource of owner `x`, when it has one, and `held` are the resources that some
allocator has handed out.  An owner gets a resource that nobody else has, and gives it back.
-/
import Mathlib.Logic.Function.Basic

namespace Owners

variable {ι ρ : Type}

structure Owned (own : ι → Option ρ) (held : ρ → Prop) : Prop where
  inj : ∀ x y r, own x = some r → own y = some r → x = y
  held : ∀ x r, own x = some r → held r

namespace Owned

variable {own : ι → Option ρ} {held held' : ρ → Prop} {x y : ι} {r : ρ}

/-- A resource that is not handed out has no owner. -/
theorem not_owned (h : Owned own held) (hr : ¬held r) (x : ι) : own x ≠ some r :=
  fun hx => hr (h.held x r hx)

/-- More resources are handed out. -/
theorem mono (h : Owned own held) (hheld : ∀ r, held r → held' r) : Owned own held' where
  inj := h.inj
  held x r hx := hheld r (h.held x r hx)

/-- The resource of one owner changes. -/
theorem update [DecidableEq ι] (h : Owned own held) {o : Option ρ}
    (ho : ∀ r, o = some r → held r ∧ ∀ y, y ≠ x → own y ≠ some r) :
    Owned (Function.update own x o) held := by
  refine ⟨fun y z r hy hz => ?_, fun y r hy => ?_⟩
  · by_cases hyx : y = x
    · by_cases hzx : z = x
      · rw [hyx, hzx]
      · rw [hyx, Function.update_self] at hy
        rw [Function.update_of_ne hzx] at hz
        exact absurd hz ((ho r hy).2 z hzx)
    · rw [Function.update_of_ne hyx] at hy
      by_cases hzx : z = x
      · rw [hzx, Function.update_self] at hz
        exact absurd hy ((ho r hz).2 y hyx)
      · rw [Function.update_of_ne hzx] at hz
        exact h.inj y z r hy hz
  · by_cases hyx : y = x
    · rw [hyx, Function.update_self] at hy
      exact (ho r hy).1
    · rw [Function.update_of_ne hyx] at hy
      exact h.held y r hy

/-- An owner gives its resource back. -/
theorem release [DecidableEq ι] (h : Owned own held) (hx : own x = some r)
    (hheld : ∀ q, held q → q ≠ r → held' q) : Owned (Function.update own x none) held' := by
  refine ⟨(h.update fun q hq => by cases hq).inj, fun y q hy => ?_⟩
  by_cases hyx : y = x
  · rw [hyx, Function.update_self] at hy
    cases hy
  · rw [Function.update_of_ne hyx] at hy
    apply hheld q (h.held y q hy)
    rintro rfl
    exact hyx (h.inj y x q hy hx)

end Owned

end Owners
