/-
Taking turns.

Members wait in a queue, and each has a budget of time.  The member that has spent its
budget goes to the end of the queue; a member may also enter at the front.  What `x` still
has to wait for are the budgets of the members that are not behind it in the queue: no
move makes this more, and time makes it less.
-/
import Mathlib.Algebra.BigOperators.Group.Finset.Basic
import Mathlib.Algebra.Order.BigOperators.Group.Finset

/-- `members` take turns, and `queue` holds those that wait for one. -/
structure Rota (α : Type) where
  members : Finset α
  queue : List α
  budget : α → Nat

namespace Rota

variable {α : Type} [DecidableEq α]

/-- What comes behind `x` in a queue. -/
def behind (x : α) : List α → List α
  | [] => []
  | y :: q => if y = x then q else behind x q

variable {x y : α} {q l : List α} {r s t : Rota α} {b n k : Nat}

theorem mem_of_behind (h : y ∈ behind x q) : y ∈ q := by
  induction q with
  | nil => exact h
  | cons z q ih =>
      rw [behind] at h
      by_cases hz : z = x
      · rw [if_pos hz] at h
        exact List.mem_cons_of_mem z h
      · rw [if_neg hz] at h
        exact List.mem_cons_of_mem z (ih h)

theorem behind_cons (hy : y ≠ x) : behind x (y :: q) = behind x q :=
  if_neg hy

theorem behind_append (hx : x ∈ q) : behind x (q ++ l) = behind x q ++ l := by
  induction q with
  | nil => cases hx
  | cons z q ih =>
      by_cases hz : z = x
      · simp [behind, hz]
      · have hx' : x ∈ q := List.mem_of_ne_of_mem (Ne.symm hz) hx
        simp [behind, hz, ih hx']

/-- The members that can have a turn before `x`. -/
def before (r : Rota α) (x : α) : Finset α :=
  r.members.filter fun u => u ≠ x ∧ u ∉ behind x r.queue

/-- What `x` has to wait for: a turn takes one unit more than its budget. -/
def wait (r : Rota α) (x : α) : Nat := ∑ u ∈ r.before x, (r.budget u + 1)

theorem mem_before : y ∈ r.before x ↔ y ∈ r.members ∧ y ≠ x ∧ y ∉ behind x r.queue :=
  Finset.mem_filter

theorem wait_le (r : Rota α) (x : α) : r.wait x ≤ ∑ u ∈ r.members.erase x, (r.budget u + 1) := by
  apply Finset.sum_le_sum_of_subset
  intro u hu
  rw [mem_before] at hu
  exact Finset.mem_erase.mpr ⟨hu.2.1, hu.1⟩

theorem mem_before_of_not_mem (hy : y ∈ r.members) (hne : y ≠ x) (hq : y ∉ r.queue) :
    y ∈ r.before x :=
  mem_before.mpr ⟨hy, hne, fun h => hq (mem_of_behind h)⟩

/-- As long as another member has the turn, there is something to wait for. -/
theorem wait_pos (hy : y ∈ r.members) (hne : y ≠ x) (hq : y ∉ r.queue) : 0 < r.wait x := by
  have hmem := Finset.single_le_sum (f := fun u => r.budget u + 1) (fun _ _ => Nat.zero_le _)
    (mem_before_of_not_mem hy hne hq)
  exact Nat.lt_of_lt_of_le (Nat.succ_pos _) hmem

theorem wait_congr (hbefore : s.before x = r.before x)
    (hbudget : ∀ u, u ∈ r.before x → s.budget u = r.budget u) : s.wait x = r.wait x := by
  unfold wait
  rw [hbefore]
  exact Finset.sum_congr rfl fun u hu => by rw [hbudget u hu]

/-- The budget of one member does not count among the others. -/
theorem sum_erase_update (c : α → Nat) (m : Finset α) (y : α) (b : Nat) :
    ∑ u ∈ m.erase y, (Function.update c y b u + 1) = ∑ u ∈ m.erase y, (c u + 1) := by
  apply Finset.sum_congr rfl
  intro u hu
  rw [Function.update_of_ne (Finset.ne_of_mem_erase hu)]

/-- `x` waits on, and `n` units of its wait are over. -/
structure Waits (x : α) (n : Nat) (r s : Rota α) : Prop where
  mem : x ∈ s.queue
  le : s.wait x + n ≤ r.wait x

theorem Waits.refl (hx : x ∈ r.queue) : Waits x 0 r r := ⟨hx, Nat.le_refl _⟩

theorem Waits.trans (h : Waits x n r s) (h' : Waits x k s t) : Waits x (n + k) r t where
  mem := h'.mem
  le := by
    have hrs := h.le
    have hst := h'.le
    omega

theorem Waits.weaken (h : Waits x n r s) (hk : k ≤ n) : Waits x k r s where
  mem := h.mem
  le := Nat.le_trans (Nat.add_le_add_left hk _) h.le

/-! ## Moves -/

/-- Another member enters at the front. -/
theorem Waits.push (hx : x ∈ r.queue) (hy : y ≠ x) :
    Waits x 0 r { r with queue := y :: r.queue } where
  mem := List.mem_cons_of_mem y hx
  le := by
    apply Nat.le_of_eq
    refine wait_congr ?_ fun _ _ => rfl
    unfold before
    rw [behind_cons hy]

/-- Another member leaves at the front. -/
theorem Waits.pop (hx : x ∈ r.queue) (hq : r.queue = y :: q) (hy : y ≠ x) :
    Waits x 0 r { r with queue := q } where
  mem := by
    rw [hq] at hx
    exact List.mem_of_ne_of_mem (Ne.symm hy) hx
  le := by
    apply Nat.le_of_eq
    refine wait_congr ?_ fun _ _ => rfl
    unfold before
    rw [hq, behind_cons hy]

/-- The member that has the turn spends a unit of its budget. -/
theorem Waits.spend (hx : x ∈ r.queue) (hy : y ∈ r.members) (hne : y ≠ x) (hq : y ∉ r.queue)
    (hb : r.budget y = b + 1) : Waits x 1 r { r with budget := Function.update r.budget y b } where
  mem := hx
  le := by
    have hmem := mem_before_of_not_mem hy hne hq
    have hold := Finset.add_sum_erase (r.before x) (fun u => r.budget u + 1) hmem
    have hnew := Finset.add_sum_erase (r.before x)
      (fun u => Function.update r.budget y b u + 1) hmem
    simp only [Function.update_self, sum_erase_update] at hnew
    simp only [hb] at hold
    show ∑ u ∈ r.before x, (Function.update r.budget y b u + 1) + 1 ≤
      ∑ u ∈ r.before x, (r.budget u + 1)
    omega

/-- The member that has the turn goes to the end, and with it all that its budget was. -/
theorem Waits.toEnd (hx : x ∈ r.queue) (hy : y ∈ r.members) (hne : y ≠ x) (hq : y ∉ r.queue)
    (b : Nat) : Waits x 1 r
      { r with queue := r.queue ++ [y], budget := Function.update r.budget y b } where
  mem := List.mem_append_left _ hx
  le := by
    have hold := Finset.add_sum_erase (r.before x) (fun u => r.budget u + 1)
      (mem_before_of_not_mem hy hne hq)
    have hbefore : before { r with queue := r.queue ++ [y], budget := Function.update r.budget y b }
        x = (r.before x).erase y := by
      ext u
      rw [Finset.mem_erase, mem_before, mem_before, behind_append hx, List.mem_append,
        List.mem_singleton]
      tauto
    unfold wait
    rw [hbefore, sum_erase_update]
    omega

/-- A new member enters at the end. -/
theorem Waits.join (hx : x ∈ r.queue) (hy : y ∉ r.members) (b : Nat) : Waits x 0 r
    ⟨insert y r.members, r.queue ++ [y], Function.update r.budget y b⟩ where
  mem := List.mem_append_left _ hx
  le := by
    apply Nat.le_of_eq
    refine wait_congr ?_ fun u hu => ?_
    · ext u
      rw [mem_before, mem_before, behind_append hx, List.mem_append, List.mem_singleton,
        Finset.mem_insert]
      constructor
      · tauto
      · rintro ⟨hu, hne, hq⟩
        refine ⟨Or.inr hu, hne, ?_⟩
        rintro (h | rfl)
        · exact hq h
        · exact hy hu
    · rw [mem_before] at hu
      refine Function.update_of_ne ?_ ..
      rintro rfl
      exact hy hu.1

end Rota
