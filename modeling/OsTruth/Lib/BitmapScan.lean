/-
`bitmap_scan` for any number of bits.

The third loop tests bit `k % 8` of byte `k` where bit `k` is meant, so it searches a
sequence of bits of its own, `Tested`.
-/
import OsTruth.Lib.Bitmap

namespace OsTruth

/-- `s` is the first place below `n` where `free` holds `cnt` times in a row. -/
structure FirstRun (free : Nat → Prop) (n cnt s : Nat) : Prop where
  inside : s + cnt ≤ n
  run : ∀ k, s ≤ k → k < s + cnt → free k
  first : ∀ t, t < s → ∃ k, t ≤ k ∧ k < t + cnt ∧ ¬free k

theorem FirstRun.unique {free : Nat → Prop} {n m cnt s t : Nat} (hs : FirstRun free n cnt s)
    (ht : FirstRun free m cnt t) : s = t := by
  rcases Nat.lt_trichotomy s t with h | h | h
  · obtain ⟨k, h₁, h₂, h₃⟩ := ht.first s h
    exact absurd (hs.run k h₁ h₂) h₃
  · exact h
  · obtain ⟨k, h₁, h₂, h₃⟩ := hs.first t h
    exact absurd (ht.run k h₁ h₂) h₃

namespace Bitmap

/-- Bit `k` is clear. -/
def Free (b : Bitmap) (k : Nat) : Prop := b.bit k = false

/-- What the third loop takes for a free bit `k`, after the second found `start`. -/
def Tested (b : Bitmap) (start k : Nat) : Prop :=
  k = start ∨ start < k ∧ (b.bits k).toNat.testBit (k % 8) = false

/-- More than one bit is asked for, and the third loop counts to its end without a run: it
tests up to the bit behind the last one, in as many bytes. -/
def NoRun (b : Bitmap) (reach cnt : Nat) : Prop :=
  cnt ≠ 1 ∧ 8 * b.btmpBytesLen < reach ∧ ∃ start, b.FirstClear start ∧
    ∀ s, s + cnt ≤ 8 * b.btmpBytesLen + 1 → ∃ k, s ≤ k ∧ k < s + cnt ∧ ¬b.Tested start k

end Bitmap

/-- `bitmap_scan` where `reach` bytes can be read from `bits` on, those of the bitmap and the
memory behind them. -/
def bitmapScanTo (reach : Nat) (btmp : Bitmap) (cnt : Nat) : Except Fault Int := do
  let idxByte := scanBytes btmp.bits btmp.btmpBytesLen 0
  assert (idxByte < btmp.btmpBytesLen)
  let idxBit := scanBits (btmp.bits idxByte) 8 0
  let bitIdxStart := idxByte * 8 + idxBit
  let bitLeft := btmp.btmpBytesLen * 8 - bitIdxStart
  if cnt = 1 then .ok bitIdxStart
  else scanRun { btmp with btmpBytesLen := reach } cnt bitLeft (bitIdxStart + 1) 1

section

variable {b : Bitmap} {start cnt reach : Nat}

/-! ## The third loop -/

/-- Before `next`, the loop counted `count` free bits in a row and no run before them. -/
structure Counting (b : Bitmap) (start cnt next count : Nat) : Prop where
  behind : start < next
  few : count < cnt
  bound : count ≤ next
  run : ∀ k, next - count ≤ k → k < next → b.Tested start k
  earlier : ∀ t, t < next - count → ∃ k, t ≤ k ∧ k < t + cnt ∧ k < next ∧ ¬b.Tested start k

theorem Counting.initial (hcnt : 1 < cnt) : Counting b start cnt (start + 1) 1 where
  behind := Nat.lt_succ_self start
  few := hcnt
  bound := Nat.succ_le_succ (Nat.zero_le start)
  run k h₁ h₂ := Or.inl (by omega)
  earlier t ht := by
    refine ⟨t, Nat.le_refl t, by omega, by omega, fun h => ?_⟩
    rcases h with h | h
    · omega
    · omega

theorem Counting.used {next count : Nat} (h : Counting b start cnt next count)
    (hused : ¬b.Tested start next) : Counting b start cnt (next + 1) 0 where
  behind := Nat.lt_succ_of_lt h.behind
  few := Nat.lt_of_le_of_lt (Nat.zero_le count) h.few
  bound := Nat.zero_le _
  run k h₁ h₂ := absurd h₂ (by omega)
  earlier t ht := by
    by_cases hold : t < next - count
    · obtain ⟨k, h₁, h₂, h₃, h₄⟩ := h.earlier t hold
      exact ⟨k, h₁, h₂, by omega, h₄⟩
    · have hfew := h.few
      exact ⟨next, by omega, by omega, by omega, hused⟩

theorem Counting.free {next count : Nat} (h : Counting b start cnt next count)
    (hfree : b.Tested start next) (hfew : count + 1 < cnt) :
    Counting b start cnt (next + 1) (count + 1) where
  behind := Nat.lt_succ_of_lt h.behind
  few := hfew
  bound := Nat.succ_le_succ h.bound
  run k h₁ h₂ := by
    by_cases hk : k = next
    · rw [hk]
      exact hfree
    · exact h.run k (by omega) (by omega)
  earlier t ht := by
    obtain ⟨k, h₁, h₂, h₃, h₄⟩ := h.earlier t (by omega)
    exact ⟨k, h₁, h₂, by omega, h₄⟩

/-- The loop returns `-1` exactly when it counts to its end, inside the bytes, without a
run. -/
theorem scanRun_fails_iff (left : Nat) : ∀ next count, Counting b start cnt next count →
    (scanRun b cnt left next count = .ok (-1) ↔
      (left = 0 ∨ next + left ≤ b.btmpBytesLen) ∧
        ∀ s, s + cnt ≤ next + left → ∃ k, s ≤ k ∧ k < s + cnt ∧ ¬b.Tested start k) := by
  induction left with
  | zero =>
      intro next count h
      refine iff_of_true rfl ⟨Or.inl rfl, fun s hs => ?_⟩
      have hfew := h.few
      obtain ⟨k, hk, hk', -, hused⟩ := h.earlier s (by omega)
      exact ⟨k, hk, hk', hused⟩
  | succ left ih =>
      intro next count h
      have hbehind := h.behind
      by_cases hlt : next < b.btmpBytesLen
      · have htest : bitmapScanTest b next = .ok ((b.bits next).toNat.testBit (next % 8)) :=
          if_pos hlt
        have hend : next + (left + 1) = next + 1 + left := by omega
        have hinside : left + 1 = 0 ∨ next + 1 + left ≤ b.btmpBytesLen ↔
            left = 0 ∨ next + 1 + left ≤ b.btmpBytesLen := by omega
        rw [scanRun, htest, hend, hinside]
        cases hbit : (b.bits next).toNat.testBit (next % 8) with
        | true =>
            have hused : ¬b.Tested start next := by
              rintro (heq | ⟨-, hclear⟩)
              · omega
              · rw [hbit] at hclear
                cases hclear
            have hne : ¬0 = cnt := by
              have hfew := h.few
              omega
            show (if 0 = cnt then _ else scanRun b cnt left (next + 1) 0) = _ ↔ _
            rw [if_neg hne]
            exact ih _ _ (h.used hused)
        | false =>
            have hfree : b.Tested start next := Or.inr ⟨hbehind, hbit⟩
            show (if count + 1 = cnt then _ else scanRun b cnt left (next + 1) (count + 1)) = _ ↔ _
            by_cases hfull : count + 1 = cnt
            · have hbound := h.bound
              rw [if_pos hfull]
              constructor
              · intro hneg
                have hneg' : (next : Int) - cnt + 1 = -1 := Except.ok.inj hneg
                omega
              · rintro ⟨-, hno⟩
                obtain ⟨k, hk, hk', hused⟩ := hno (next + 1 - cnt) (by omega)
                by_cases hlast : k = next
                · exact absurd (hlast ▸ hfree) hused
                · exact absurd (h.run k (by omega) (by omega)) hused
            · have hfew := h.few
              rw [if_neg hfull]
              exact ih _ _ (h.free hfree (by omega))
      · have htest : bitmapScanTest b next = .error .undefined := if_neg hlt
        rw [scanRun, htest]
        constructor
        · intro h
          cases h
        · rintro ⟨hin, -⟩
          omega

/-! ## The whole function -/

/-- Without a clear bit the assertion fails, and behind the first clear bit the third
loop runs. -/
theorem bitmapScanTo_cases (reach : Nat) (b : Bitmap) (cnt : Nat) :
    (bitmapScanTo reach b cnt = .error .assert ∧ b.Full) ∨
      ∃ start, b.FirstClear start ∧ bitmapScanTo reach b cnt =
        if cnt = 1 then .ok (start : Int)
        else scanRun { b with btmpBytesLen := reach } cnt (b.btmpBytesLen * 8 - start)
          (start + 1) 1 := by
  rcases bitmapScan_one b with ⟨start, hone, hstart⟩ | ⟨hone, hfull⟩
  · refine Or.inr ⟨start, hstart, ?_⟩
    by_cases hlt : scanBytes b.bits b.btmpBytesLen 0 < b.btmpBytesLen
    · simp only [bitmapScan, assert, hlt, if_true, bind, Except.bind, Except.ok.injEq] at hone
      have hnat : scanBytes b.bits b.btmpBytesLen 0 * 8 +
          scanBits (b.bits (scanBytes b.bits b.btmpBytesLen 0)) 8 0 = start := by omega
      simp only [bitmapScanTo, assert, hlt, if_true, bind, Except.bind, hnat]
    · simp only [bitmapScan, assert, hlt, if_false, bind, Except.bind, reduceCtorEq] at hone
  · refine Or.inl ⟨?_, hfull⟩
    by_cases hlt : scanBytes b.bits b.btmpBytesLen 0 < b.btmpBytesLen
    · simp only [bitmapScan, assert, hlt, if_true, bind, Except.bind, reduceCtorEq] at hone
    · simp only [bitmapScanTo, assert, hlt, if_false, bind, Except.bind]

theorem bitmapScanTo_one (h : b.FirstClear start) : bitmapScanTo reach b 1 = .ok (start : Int) := by
  rcases bitmapScanTo_cases reach b 1 with ⟨-, hfull⟩ | ⟨start', hstart', hscan⟩
  · exact absurd hfull h.not_full
  · rw [hscan, if_pos rfl, hstart'.unique h]

/-- For more than one bit the scan returns `-1` exactly when no run is counted. -/
theorem bitmapScanTo_fails_iff (hcnt : 1 ≤ cnt) :
    bitmapScanTo reach b cnt = .ok (-1) ↔ b.NoRun reach cnt := by
  rcases bitmapScanTo_cases reach b cnt with ⟨hscan, hfull⟩ | ⟨start, hstart, hscan⟩
  · rw [hscan]
    constructor
    · intro h
      cases h
    · rintro ⟨-, -, start, hstart, -⟩
      exact absurd hfull hstart.not_full
  · rw [hscan]
    by_cases h1 : cnt = 1
    · rw [if_pos h1]
      constructor
      · intro h
        have hneg : (start : Int) = -1 := Except.ok.inj h
        omega
      · exact fun h => absurd h1 h.1
    · have hlt := hstart.1
      have hinitial : Counting { b with btmpBytesLen := reach } start cnt (start + 1) 1 :=
        Counting.initial (by omega)
      have hend : start + 1 + (b.btmpBytesLen * 8 - start) = 8 * b.btmpBytesLen + 1 := by omega
      rw [if_neg h1, scanRun_fails_iff _ _ _ hinitial, hend]
      constructor
      · rintro ⟨hzero | hreach, hno⟩
        · omega
        · exact ⟨h1, hreach, start, hstart, hno⟩
      · rintro ⟨-, hreach, start', hstart', hno⟩
        rw [hstart'.unique hstart] at hno
        exact ⟨Or.inr hreach, hno⟩

end

end OsTruth
