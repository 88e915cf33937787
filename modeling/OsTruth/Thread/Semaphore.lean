/-
The semaphores of `thread/sync.c`.

`sema_down` and `sema_up` run with interrupts off.  A task that finds the value 0 in
`sema_down` waits in its loop, and what a task does is said where the semaphore is used.
-/
import OsTruth.Kernel.Global

namespace OsTruth

structure Semaphore where
  value : UInt8
  waiters : List Nat

namespace Semaphore

/-- A round of the loop of `sema_down` for task `t`, and whether it is the last one. -/
def down (s : Semaphore) (t : Nat) : Except Fault (Semaphore × Bool) :=
  if s.value = 0 then do
    assert (t ∉ s.waiters)
    pure ({ s with waiters := s.waiters ++ [t] }, false)
  else do
    assert (s.value - 1 = 0)
    pure ({ s with value := s.value - 1 }, true)

/-- `sema_up`, and the task that it unblocks. -/
def up (s : Semaphore) : Except Fault (Semaphore × Option Nat) := do
  assert (s.value = 0)
  assert (s.value + 1 = 1)
  pure (⟨s.value + 1, s.waiters.tail⟩, s.waiters.head?)

section

variable {s : Semaphore} {t : Nat}

theorem down_zero (hzero : s.value = 0) (hnew : t ∉ s.waiters) :
    s.down t = .ok ({ s with waiters := s.waiters ++ [t] }, false) := by
  unfold down
  rw [if_pos hzero, assert, if_pos hnew]
  rfl

theorem down_one (hone : s.value = 1) :
    s.down t = .ok ({ s with value := s.value - 1 }, true) := by
  unfold down
  rw [hone]
  rfl

theorem up_nil (hzero : s.value = 0) (hwaiters : s.waiters = []) :
    s.up = .ok ({ s with value := s.value + 1 }, none) := by
  unfold up
  rw [hzero, hwaiters]
  rfl

theorem up_cons {ws : List Nat} (hzero : s.value = 0) (hwaiters : s.waiters = t :: ws) :
    s.up = .ok (⟨s.value + 1, ws⟩, some t) := by
  unfold up
  rw [hzero, hwaiters]
  rfl

end

end Semaphore

end OsTruth
