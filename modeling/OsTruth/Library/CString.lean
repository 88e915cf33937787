/-
Strings with a terminating zero in a byte string.

`StrAt b a cs` says that the string at address `a` of the memory `b` is `cs`: its
characters, none of them zero, with a zero behind.  A memory has at most one string at an
address, and a write elsewhere leaves the string alone.
-/
import OsTruth.Library.ByteString

namespace ByteString

def StrAt (b : Bytes) : Nat → List UInt8 → Prop
  | a, [] => b a = 0
  | a, c :: cs => b a = c ∧ c ≠ 0 ∧ StrAt b (a + 1) cs

/-- The memory that holds a string at address 0. -/
def strBytes (cs : List UInt8) : Bytes := fun k => cs.getD k 0

variable {b d : Bytes} {a n : Nat} {cs ds : List UInt8}

/-- There is one string at an address. -/
theorem StrAt.unique (h : StrAt b a cs) (h' : StrAt b a ds) : cs = ds := by
  induction cs generalizing a ds with
  | nil =>
      cases ds with
      | nil => rfl
      | cons d ds => exact absurd (h'.1.symm.trans h) h'.2.1
  | cons c cs ih =>
      cases ds with
      | nil => exact absurd (h.1.symm.trans h') h.2.1
      | cons d ds => rw [← h.1, ← h'.1, ih h.2.2 h'.2.2]

theorem StrAt.get (h : StrAt b a cs) {k : Nat} (hk : k ≤ cs.length) : b (a + k) = cs.getD k 0 := by
  induction cs generalizing a k with
  | nil =>
      obtain rfl : k = 0 := by simpa using hk
      exact h
  | cons c cs ih =>
      cases k with
      | zero => exact h.1
      | succ k =>
          have hk' : k ≤ cs.length := by simpa using hk
          have := ih h.2.2 hk'
          rw [show a + (k + 1) = a + 1 + k by omega, this]
          simp

theorem StrAt.not_mem (h : StrAt b a cs) : 0 ∉ cs := by
  induction cs generalizing a with
  | nil => simp
  | cons c cs ih =>
      simp only [List.mem_cons, not_or]
      exact ⟨fun h0 => h.2.1 h0.symm, ih h.2.2⟩

/-- Only the bytes up to the zero matter. -/
theorem StrAt.congr (h : StrAt b a cs) (heq : ∀ k, k ≤ cs.length → d (a + k) = b (a + k)) :
    StrAt d a cs := by
  induction cs generalizing a with
  | nil => exact (heq 0 (Nat.le_refl _)).trans h
  | cons c cs ih =>
      refine ⟨(heq 0 (Nat.zero_le _)).trans h.1, h.2.1, ih h.2.2 fun k hk => ?_⟩
      have hk' : k + 1 ≤ (c :: cs).length := by simpa using hk
      simpa only [Nat.add_assoc, Nat.add_comm 1] using heq (k + 1) hk'

/-- A write in front of the string. -/
theorem StrAt.splice_before {off : Nat} (h : StrAt b a cs) (hoff : off + n ≤ a) :
    StrAt (splice b off n d) a cs :=
  h.congr fun _ _ => splice_outside (Or.inr (by omega))

/-- The characters and the zero are where they should be. -/
theorem strAt_of_get (h : 0 ∉ cs) (hget : ∀ k, k ≤ cs.length → b (a + k) = cs.getD k 0) :
    StrAt b a cs := by
  induction cs generalizing a with
  | nil => exact hget 0 (Nat.le_refl _)
  | cons c cs ih =>
      simp only [List.mem_cons, not_or] at h
      refine ⟨hget 0 (Nat.zero_le _), fun h0 => h.1 h0.symm, ih h.2 fun k hk => ?_⟩
      have hk' : k + 1 ≤ (c :: cs).length := by simpa using hk
      have := hget (k + 1) hk'
      rw [show a + 1 + k = a + (k + 1) by omega, this]
      simp

theorem strAt_strBytes (h : 0 ∉ cs) : StrAt (strBytes cs) 0 cs :=
  strAt_of_get h fun k _ => by rw [Nat.zero_add, strBytes]

/-- The first `n` bytes up to a zero are the string at `a`, when it is shorter than that. -/
theorem takeWhile_eq_iff (b : Bytes) (hlen : cs.length < n) :
    ((List.range' a n).map b).takeWhile (· ≠ 0) = cs ↔ StrAt b a cs := by
  induction cs generalizing a n with
  | nil =>
      obtain ⟨m, rfl⟩ := Nat.exists_eq_add_one_of_ne_zero (Nat.ne_of_gt hlen)
      rw [List.range'_succ, List.map_cons, List.takeWhile_cons]
      show _ ↔ b a = 0
      by_cases h : b a = 0
      · simp [h]
      · simp [h]
  | cons c cs ih =>
      obtain ⟨m, rfl⟩ := Nat.exists_eq_add_one_of_ne_zero (Nat.ne_zero_of_lt hlen)
      rw [List.range'_succ, List.map_cons, List.takeWhile_cons]
      show _ ↔ b a = c ∧ c ≠ 0 ∧ StrAt b (a + 1) cs
      rw [← ih (Nat.lt_of_succ_lt_succ hlen)]
      by_cases h : b a = 0
      · simp only [h, ne_eq, not_true_eq_false, decide_false, Bool.false_eq_true, if_false,
          reduceCtorEq, false_iff, not_and]
        exact fun hc hne => absurd hc.symm hne
      · simp only [ne_eq, h, not_false_eq_true, decide_true, if_true, List.cons.injEq]
        refine and_congr_right fun hc => ?_
        rw [← hc]
        exact (and_iff_right h).symm

/-- The end of a string is a string. -/
theorem StrAt.append_right (h : StrAt b a (cs ++ ds)) : StrAt b (a + cs.length) ds := by
  induction cs generalizing a with
  | nil => exact h
  | cons c cs ih => simpa only [List.length_cons, Nat.add_assoc, Nat.add_comm 1] using ih h.2.2

end ByteString
