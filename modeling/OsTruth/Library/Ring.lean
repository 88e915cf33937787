/-
A queue in a circular array that leaves one slot free.

`Holds n buf head tail q` says that the slots from `tail` to `head` of an array of `n`
slots hold the elements of `q`: they are taken at `tail` and put at `head`.  The array is
empty when the two positions are equal, and full when the next one behind `head` is
`tail`.
-/
import Mathlib.Logic.Function.Basic
import Mathlib.Algebra.Ring.Nat
import Mathlib.Tactic.Common

namespace Ring

variable {α : Type} {n head tail : Nat} {buf : Nat → α} {q : List α} {x : α}

structure Holds (n : Nat) (buf : Nat → α) (head tail : Nat) (q : List α) : Prop where
  tail_lt : tail < n
  head_eq : head = (tail + q.length) % n
  short : q.length < n
  kept : ∀ i y, q[i]? = some y → buf ((tail + i) % n) = y

theorem holds_nil (hn : 0 < n) (buf : Nat → α) : Holds n buf 0 0 [] where
  tail_lt := hn
  head_eq := (Nat.mod_eq_of_lt hn).symm
  short := hn
  kept _ _ := nofun

/-- Positions less than one lap apart are different slots. -/
theorem slot_ne (tail : Nat) {i j : Nat} (hij : i < j) (hj : j < n) :
    (tail + i) % n ≠ (tail + j) % n := by
  intro heq
  have hdvd := Nat.sub_mod_eq_zero_of_mod_eq heq.symm
  have hsub : tail + j - (tail + i) = j - i := by omega
  rw [hsub, Nat.mod_eq_of_lt (by omega)] at hdvd
  omega

theorem Holds.head_lt (h : Holds n buf head tail q) : head < n := by
  rw [h.head_eq]
  exact Nat.mod_lt _ (Nat.lt_of_le_of_lt (Nat.zero_le _) h.tail_lt)

theorem Holds.empty_iff (h : Holds n buf head tail q) : head = tail ↔ q = [] := by
  constructor
  · intro heq
    by_contra hne
    have hpos : 0 < q.length := List.length_pos_iff.mpr hne
    have hslot := slot_ne tail hpos h.short
    rw [Nat.add_zero, Nat.mod_eq_of_lt h.tail_lt, ← h.head_eq] at hslot
    exact hslot heq.symm
  · intro hq
    have heq := h.head_eq
    rw [hq] at heq
    exact heq.trans (Nat.mod_eq_of_lt h.tail_lt)

theorem Holds.next_head (h : Holds n buf head tail q) :
    (head + 1) % n = (tail + (q.length + 1)) % n := by
  rw [h.head_eq, Nat.mod_add_mod, Nat.add_assoc]

theorem Holds.full_iff (h : Holds n buf head tail q) :
    (head + 1) % n = tail ↔ q.length + 1 = n := by
  rw [h.next_head]
  constructor
  · intro heq
    by_contra hne
    have hshort := h.short
    have hslot := slot_ne tail (Nat.succ_pos q.length) (show q.length + 1 < n by omega)
    rw [Nat.add_zero, Nat.mod_eq_of_lt h.tail_lt] at hslot
    exact hslot heq.symm
  · intro hq
    rw [hq, Nat.add_mod_right, Nat.mod_eq_of_lt h.tail_lt]

/-- An element is put at the head. -/
theorem Holds.put (h : Holds n buf head tail q) (hroom : q.length + 1 ≠ n) (x : α) :
    Holds n (Function.update buf head x) ((head + 1) % n) tail (q ++ [x]) where
  tail_lt := h.tail_lt
  head_eq := by
    rw [h.next_head, List.length_append, List.length_singleton]
  short := by
    have hshort := h.short
    rw [List.length_append, List.length_singleton]
    omega
  kept i y hy := by
    rw [h.head_eq]
    rcases Nat.lt_trichotomy i q.length with hlt | rfl | hgt
    · rw [Function.update_of_ne (slot_ne tail hlt h.short)]
      rw [List.getElem?_append_left hlt] at hy
      exact h.kept i y hy
    · rw [Function.update_self]
      rw [List.getElem?_concat_length] at hy
      exact Option.some.inj hy
    · rw [List.getElem?_eq_none (by rw [List.length_append, List.length_singleton]; omega)] at hy
      cases hy

/-- The element at the tail is taken. -/
theorem Holds.take (h : Holds n buf head tail (x :: q)) :
    buf tail = x ∧ Holds n buf head ((tail + 1) % n) q := by
  have hpos : 0 < n := Nat.lt_of_le_of_lt (Nat.zero_le _) h.tail_lt
  have hslot : ∀ i, ((tail + 1) % n + i) % n = (tail + (i + 1)) % n := by
    intro i
    rw [Nat.mod_add_mod, Nat.add_assoc, Nat.add_comm 1 i]
  refine ⟨?_, Nat.mod_lt _ hpos, ?_, Nat.lt_of_succ_lt h.short, fun i y hy => ?_⟩
  · have hfirst := h.kept 0 x rfl
    rwa [Nat.add_zero, Nat.mod_eq_of_lt h.tail_lt] at hfirst
  · rw [hslot, h.head_eq]
    rfl
  · rw [hslot]
    exact h.kept (i + 1) y hy

end Ring
