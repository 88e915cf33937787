/-
How a kernel function stops without returning, from `kernel/debug.h`.
-/
import Mathlib.Algebra.Ring.Nat
import Mathlib.Tactic.Common

namespace OsTruth

/-- `ASSERT` and `PANIC` print and spin with interrupts off, so a kernel that
reaches one of them makes no further step.  `undefined` is an access that the C
language gives no meaning: through a null or freed pointer, outside an object,
or of a variable that was never written. -/
inductive Fault
  | assert
  | undefined
  deriving DecidableEq, Repr

/-- `ASSERT(c)` in a function that changes no state. -/
def assert (c : Prop) [Decidable c] : Except Fault Unit :=
  if c then .ok () else .error .assert

theorem assert_bind {c : Prop} [Decidable c] {α : Type} (h : c) (f : Unit → Except Fault α) :
    (assert c >>= f) = f () := by
  rw [assert, if_pos h]
  rfl

theorem assert_bind_false {c : Prop} [Decidable c] {α : Type} (h : ¬c)
    (f : Unit → Except Fault α) : (assert c >>= f) = .error .assert := by
  rw [assert, if_neg h]
  rfl

end OsTruth
