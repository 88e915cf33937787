/-
`lib/kernel/bitmap.c`.

The `int` results are integers with `-1` for failure.  A byte access outside
`bits[0 .. btmpBytesLen)` is an undefined access, except the one that the first
loop of `bitmapScan` makes behind the last byte: its value is not used, since the
bound in the same condition then ends the loop.
-/
import OsTruth.Kernel.Global
import OsTruth.Library.ByteString

namespace OsTruth

open ByteString

structure Bitmap where
  btmpBytesLen : Nat
  bits : Bytes

namespace Bitmap

def bit (b : Bitmap) (i : Nat) : Bool := testBit b.bits i

def set (b : Bitmap) (i : Nat) (v : Bool) : Bitmap := { b with bits := setBit b.bits i v }

def FirstClear (b : Bitmap) (i : Nat) : Prop :=
  i < 8 * b.btmpBytesLen ∧ b.bit i = false ∧ ∀ j, j < i → b.bit j = true

def Full (b : Bitmap) : Prop := ∀ i, i < 8 * b.btmpBytesLen → b.bit i = true

@[simp] theorem set_btmpBytesLen (b : Bitmap) (i : Nat) (v : Bool) :
    (b.set i v).btmpBytesLen = b.btmpBytesLen := rfl

theorem bit_set (b : Bitmap) (i j : Nat) (v : Bool) :
    (b.set i v).bit j = if j = i then v else b.bit j :=
  testBit_setBit b.bits i j v

end Bitmap

/-- The byte is indexed by `bit_idx` itself and not by `bit_idx / 8`. -/
def bitmapScanTest (btmp : Bitmap) (bitIdx : Nat) : Except Fault Bool :=
  if bitIdx < btmp.btmpBytesLen then
    .ok ((btmp.bits bitIdx).toNat.testBit (bitIdx % 8))
  else .error .undefined

/-- The first loop of `bitmapScan`: skip the bytes that are `0xff`. -/
def scanBytes (bits : Bytes) : Nat → Nat → Nat
  | 0, idxByte => idxByte
  | left + 1, idxByte =>
      if bits idxByte = 0xff then scanBytes bits left (idxByte + 1) else idxByte

/-- The second loop of `bitmapScan`: skip the one bits of the byte found. -/
def scanBits (b : UInt8) : Nat → Nat → Nat
  | 0, idxBit => idxBit
  | left + 1, idxBit => if b.toNat.testBit idxBit then scanBits b left (idxBit + 1) else idxBit

/-- The third loop of `bitmapScan`: count free bits from `nextBit` on. -/
def scanRun (btmp : Bitmap) (cnt : Nat) : Nat → Nat → Nat → Except Fault Int
  | 0, _, _ => .ok (-1)
  | bitLeft + 1, nextBit, count => do
      let used ← bitmapScanTest btmp nextBit
      let count := if used then 0 else count + 1
      if count = cnt then .ok (nextBit - cnt + 1)
      else scanRun btmp cnt bitLeft (nextBit + 1) count

/-- `cnt` free bits in a row: the first bit's index.  The `return -1` behind the
assertion is unreachable and left out. -/
def bitmapScan (btmp : Bitmap) (cnt : Nat) : Except Fault Int := do
  let idxByte := scanBytes btmp.bits btmp.btmpBytesLen 0
  assert (idxByte < btmp.btmpBytesLen)
  let idxBit := scanBits (btmp.bits idxByte) 8 0
  let bitIdxStart := idxByte * 8 + idxBit
  if cnt = 1 then .ok bitIdxStart
  else scanRun btmp cnt (btmp.btmpBytesLen * 8 - bitIdxStart) (bitIdxStart + 1) 1

/-- `value` is the `int8_t` that the callers pass as 0 or 1. -/
def bitmapSet (btmp : Bitmap) (bitIdx : Nat) (value : Bool) : Except Fault Bitmap :=
  if bitIdx / 8 < btmp.btmpBytesLen then .ok (btmp.set bitIdx value)
  else .error .undefined

/-! ## What the scan finds -/

theorem scanBytes_spec (bits : Bytes) :
    ∀ (left idx : Nat), idx ≤ scanBytes bits left idx ∧ scanBytes bits left idx ≤ idx + left ∧
      (∀ k, idx ≤ k → k < scanBytes bits left idx → bits k = 0xff) ∧
      (scanBytes bits left idx < idx + left → bits (scanBytes bits left idx) ≠ 0xff) := by
  intro left
  induction left with
  | zero =>
    intro idx
    exact ⟨Nat.le_refl _, Nat.le_refl _, fun k h₁ h₂ => absurd h₁ (Nat.not_le.mpr h₂),
      fun h => absurd h (Nat.lt_irrefl _)⟩
  | succ left ih =>
    intro idx
    by_cases h : bits idx = 0xff
    · obtain ⟨h₁, h₂, h₃, h₄⟩ := ih (idx + 1)
      rw [scanBytes, if_pos h]
      refine ⟨by omega, by omega, fun k hk hlt => ?_, fun hlt => h₄ (by omega)⟩
      by_cases hk' : k = idx
      · rw [hk', h]
      · exact h₃ k (by omega) hlt
    · rw [scanBytes, if_neg h]
      exact ⟨Nat.le_refl _, by omega, fun k h₁ h₂ => absurd h₁ (Nat.not_le.mpr h₂), fun _ => h⟩

theorem scanBits_spec (b : UInt8) :
    ∀ (left idx : Nat), idx ≤ scanBits b left idx ∧ scanBits b left idx ≤ idx + left ∧
      (∀ k, idx ≤ k → k < scanBits b left idx → b.toNat.testBit k = true) ∧
      (scanBits b left idx < idx + left → b.toNat.testBit (scanBits b left idx) = false) := by
  intro left
  induction left with
  | zero =>
    intro idx
    exact ⟨Nat.le_refl _, Nat.le_refl _, fun k h₁ h₂ => absurd h₁ (Nat.not_le.mpr h₂),
      fun h => absurd h (Nat.lt_irrefl _)⟩
  | succ left ih =>
    intro idx
    by_cases h : b.toNat.testBit idx = true
    · obtain ⟨h₁, h₂, h₃, h₄⟩ := ih (idx + 1)
      rw [scanBits, if_pos h]
      refine ⟨by omega, by omega, fun k hk hlt => ?_, fun hlt => h₄ (by omega)⟩
      by_cases hk' : k = idx
      · rw [hk', h]
      · exact h₃ k (by omega) hlt
    · rw [scanBits, if_neg h]
      exact ⟨Nat.le_refl _, by omega, fun k h₁ h₂ => absurd h₁ (Nat.not_le.mpr h₂),
        fun _ => Bool.eq_false_iff.mpr h⟩

/-- A byte whose eight bits are all set is `0xff`. -/
theorem eq_ff_of_testBit {b : UInt8} (h : ∀ k, k < 8 → b.toNat.testBit k = true) : b = 0xff := by
  apply UInt8.toNat_inj.mp
  refine Nat.eq_of_testBit_eq (fun k => ?_)
  by_cases hk : k < 8
  · rw [h k hk]
    show _ = (2 ^ 8 - 1).testBit k
    rw [Nat.testBit_two_pow_sub_one, decide_eq_true hk]
  · have hlt : ∀ c : UInt8, c.toNat < 2 ^ k := fun c =>
      Nat.lt_of_lt_of_le c.toNat_lt (Nat.pow_le_pow_right (by omega) (by omega : 8 ≤ k))
    rw [Nat.testBit_lt_two_pow (hlt _), Nat.testBit_lt_two_pow (hlt _)]

theorem testBit_ff {k : Nat} (hk : k < 8) : (0xff : UInt8).toNat.testBit k = true := by
  show (2 ^ 8 - 1).testBit k = true
  rw [Nat.testBit_two_pow_sub_one, decide_eq_true hk]

/-- For one bit the scan returns the first clear bit, or it fails its assertion
because no bit is clear. -/
theorem bitmapScan_one (b : Bitmap) :
    (∃ i : Nat, bitmapScan b 1 = .ok i ∧ b.FirstClear i) ∨
      (bitmapScan b 1 = .error .assert ∧ b.Full) := by
  obtain ⟨-, hle, hff, hne⟩ := scanBytes_spec b.bits b.btmpBytesLen 0
  have hones : ∀ i, i / 8 < scanBytes b.bits b.btmpBytesLen 0 → b.bit i = true := by
    intro i hi
    unfold Bitmap.bit testBit
    rw [hff (i / 8) (Nat.zero_le _) hi]
    exact testBit_ff (Nat.mod_lt i (by omega))
  by_cases hlt : scanBytes b.bits b.btmpBytesLen 0 < b.btmpBytesLen
  · left
    have hbyte := hne (by omega)
    obtain ⟨-, hle', hone, hzero⟩ :=
      scanBits_spec (b.bits (scanBytes b.bits b.btmpBytesLen 0)) 8 0
    have hlt' : scanBits (b.bits (scanBytes b.bits b.btmpBytesLen 0)) 8 0 < 8 := by
      by_contra h
      exact hbyte (eq_ff_of_testBit (fun k hk => hone k (Nat.zero_le k) (by omega)))
    refine ⟨scanBytes b.bits b.btmpBytesLen 0 * 8 +
      scanBits (b.bits (scanBytes b.bits b.btmpBytesLen 0)) 8 0, ?_, by omega, ?_, ?_⟩
    · simp only [bitmapScan, assert, hlt, if_true, bind, Except.bind]
    · unfold Bitmap.bit testBit
      have h₁ : (scanBytes b.bits b.btmpBytesLen 0 * 8 +
          scanBits (b.bits (scanBytes b.bits b.btmpBytesLen 0)) 8 0) / 8 =
          scanBytes b.bits b.btmpBytesLen 0 := by omega
      have h₂ : (scanBytes b.bits b.btmpBytesLen 0 * 8 +
          scanBits (b.bits (scanBytes b.bits b.btmpBytesLen 0)) 8 0) % 8 =
          scanBits (b.bits (scanBytes b.bits b.btmpBytesLen 0)) 8 0 := by omega
      rw [h₁, h₂]
      exact hzero (by omega)
    · intro j hj
      by_cases hj' : j / 8 < scanBytes b.bits b.btmpBytesLen 0
      · exact hones j hj'
      · have h₁ : j / 8 = scanBytes b.bits b.btmpBytesLen 0 := by omega
        unfold Bitmap.bit testBit
        rw [h₁]
        exact hone (j % 8) (Nat.zero_le _) (by omega)
  · right
    refine ⟨?_, fun i hi => hones i (by omega)⟩
    simp only [bitmapScan, assert, hlt, if_false, bind, Except.bind]

/-- At most one bit is the first clear one, and none is in a full bitmap. -/
theorem Bitmap.FirstClear.unique {b : Bitmap} {i j : Nat} (hi : b.FirstClear i)
    (hj : b.FirstClear j) : i = j := by
  rcases Nat.lt_trichotomy i j with h | h | h
  · exact absurd (hj.2.2 i h) (by simp [hi.2.1])
  · exact h
  · exact absurd (hi.2.2 j h) (by simp [hj.2.1])

theorem Bitmap.FirstClear.not_full {b : Bitmap} {i : Nat} (hi : b.FirstClear i) : ¬b.Full :=
  fun h => absurd (h i hi.1) (by simp [hi.2.1])

/-- A bitmap with a clear bit has a first one. -/
theorem Bitmap.exists_firstClear {b : Bitmap} {i : Nat} (hi : i < 8 * b.btmpBytesLen)
    (h : b.bit i = false) : ∃ j, b.FirstClear j ∧ j ≤ i := by
  rcases bitmapScan_one b with ⟨j, -, hj⟩ | ⟨-, hfull⟩
  · refine ⟨j, hj, ?_⟩
    by_contra hlt
    exact absurd (hj.2.2 i (by omega)) (by simp [h])
  · exact absurd (hfull i hi) (by simp [h])

theorem bitmapSet_eq_ok {b c : Bitmap} {i : Nat} {v : Bool} :
    bitmapSet b i v = .ok c ↔ i < 8 * b.btmpBytesLen ∧ c = b.set i v := by
  unfold bitmapSet
  by_cases hi : i / 8 < b.btmpBytesLen
  · rw [if_pos hi]
    have hlt : i < 8 * b.btmpBytesLen := by omega
    simp [hlt, eq_comm]
  · rw [if_neg hi]
    have hge : ¬i < 8 * b.btmpBytesLen := by omega
    simp [hge]

theorem bitmapSet_of_lt {b : Bitmap} {i : Nat} (h : i < 8 * b.btmpBytesLen) (v : Bool) :
    bitmapSet b i v = .ok (b.set i v) :=
  bitmapSet_eq_ok.mpr ⟨h, rfl⟩

end OsTruth
