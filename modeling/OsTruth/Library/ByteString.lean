/-
Byte strings as functions from offsets to bytes.

A storage medium, a buffer and a packed structure are all byte strings.
`view` reads from an offset on and `splice` overwrites a run of bytes, so the
content after a sequence of writes is read off one offset at a time.  `wordAt`
is the little-endian 32-bit word at an offset and `ofWords` packs words, with
`wordAt_ofWords` and `ofWords_wordAt` the two round trips.  `testBit` and
`setBit` read and write the bits of a byte string in little-endian order.
-/
import Mathlib.Algebra.Ring.Nat
import Mathlib.Tactic.Common

namespace ByteString

/-- The bytes at and after each offset of a store. -/
abbrev Bytes := Nat → UInt8

def view (b : Bytes) (off : Nat) : Bytes := fun i => b (off + i)

/-- `b` with the `len` bytes at `off` replaced by the first bytes of `d`. -/
def splice (b : Bytes) (off len : Nat) (d : Bytes) : Bytes :=
  fun a => if off ≤ a ∧ a < off + len then d (a - off) else b a

theorem splice_inside {b d : Bytes} {off len a : Nat} (h₁ : off ≤ a) (h₂ : a < off + len) :
    splice b off len d a = d (a - off) :=
  if_pos ⟨h₁, h₂⟩

theorem splice_outside {b d : Bytes} {off len a : Nat} (h : a < off ∨ off + len ≤ a) :
    splice b off len d a = b a := by
  refine if_neg ?_
  rintro ⟨h₁, h₂⟩
  omega

theorem splice_at {b d : Bytes} {off len i : Nat} (h : i < len) :
    splice b off len d (off + i) = d i := by
  rw [splice_inside (Nat.le_add_right off i) (by omega), Nat.add_sub_cancel_left]

/-- Reading a run, overwriting part of it and writing the run back is
overwriting that part in place. -/
theorem splice_splice_view {b d : Bytes} {off i n : Nat} (len : Nat) (h : i + n ≤ len) :
    splice b off len (splice (view b off) i n d) = splice b (off + i) n d := by
  funext a
  by_cases h₁ : off ≤ a ∧ a < off + len
  · rw [splice_inside h₁.1 h₁.2]
    by_cases h₂ : off + i ≤ a ∧ a < off + i + n
    · rw [splice_inside (by omega) (by omega), splice_inside h₂.1 h₂.2]
      exact congrArg d (by omega)
    · rw [splice_outside (by omega), splice_outside (by omega)]
      exact congrArg b (by omega)
  · rw [splice_outside (by omega), splice_outside (by omega)]

theorem view_view (b : Bytes) (m n : Nat) : view (view b m) n = view b (m + n) := by
  funext i
  simp only [view, Nat.add_assoc]

/-- Only the spliced bytes of the data matter. -/
theorem splice_congr {b d e : Bytes} {off len : Nat} (h : ∀ i, i < len → d i = e i) :
    splice b off len d = splice b off len e := by
  funext a
  by_cases ha : off ≤ a ∧ a < off + len
  · rw [splice_inside ha.1 ha.2, splice_inside ha.1 ha.2]
    exact h _ (by omega)
  · rw [splice_outside (by omega), splice_outside (by omega)]

theorem splice_zero (b d : Bytes) (off : Nat) : splice b off 0 d = b :=
  funext fun _ => splice_outside (by omega)

/-- A run is written in two parts. -/
theorem splice_add (b d : Bytes) (off m n : Nat) :
    splice b off (m + n) d = splice (splice b off m d) (off + m) n (view d m) := by
  funext a
  by_cases hlow : off + m ≤ a ∧ a < off + m + n
  · rw [splice_inside hlow.1 hlow.2, splice_inside (by omega) (by omega), view]
    congr 1
    omega
  · rw [splice_outside (b := splice b off m d) (by omega)]
    by_cases hin : off ≤ a ∧ a < off + m
    · rw [splice_inside hin.1 hin.2, splice_inside hin.1 (by omega)]
    · rw [splice_outside (by omega), splice_outside (by omega)]

/-! ## Words -/

/-- Byte `i` of a word, least significant first. -/
def byteOf (w : UInt32) (i : Nat) : UInt8 := UInt8.ofNat (w.toNat / 256 ^ i)

/-- The little-endian 32-bit word at offset `off`. -/
def wordAt (b : Bytes) (off : Nat) : UInt32 :=
  UInt32.ofNat ((b off).toNat + 256 * (b (off + 1)).toNat + 65536 * (b (off + 2)).toNat +
    16777216 * (b (off + 3)).toNat)

def ofWords (w : Nat → UInt32) : Bytes := fun k => byteOf (w (k / 4)) (k % 4)

theorem toNat_byteOf (w : UInt32) (i : Nat) : (byteOf w i).toNat = w.toNat / 256 ^ i % 256 := by
  rw [byteOf, UInt8.toNat_ofNat']

theorem toNat_wordAt (b : Bytes) (off : Nat) :
    (wordAt b off).toNat = (b off).toNat + 256 * (b (off + 1)).toNat +
      65536 * (b (off + 2)).toNat + 16777216 * (b (off + 3)).toNat := by
  have h₀ := (b off).toNat_lt
  have h₁ := (b (off + 1)).toNat_lt
  have h₂ := (b (off + 2)).toNat_lt
  have h₃ := (b (off + 3)).toNat_lt
  rw [wordAt, UInt32.toNat_ofNat']
  omega

theorem wordAt_congr {b c : Bytes} {off : Nat} (h : ∀ i, i < 4 → b (off + i) = c (off + i)) :
    wordAt b off = wordAt c off := by
  have h₀ := h 0 (by omega)
  have h₁ := h 1 (by omega)
  have h₂ := h 2 (by omega)
  have h₃ := h 3 (by omega)
  rw [Nat.add_zero] at h₀
  rw [wordAt, wordAt, h₀, h₁, h₂, h₃]

theorem wordAt_view (b : Bytes) (off i : Nat) : wordAt (view b off) i = wordAt b (off + i) := rfl

theorem wordAt_ofWords (w : Nat → UInt32) (j : Nat) : wordAt (ofWords w) (4 * j) = w j := by
  have hw := (w j).toNat_lt
  have hbyte : ∀ i, i < 4 → (ofWords w (4 * j + i)).toNat = (w j).toNat / 256 ^ i % 256 := by
    intro i hi
    rw [ofWords, toNat_byteOf]
    have h₁ : (4 * j + i) / 4 = j := by omega
    have h₂ : (4 * j + i) % 4 = i := by omega
    rw [h₁, h₂]
  have h₀ := hbyte 0 (by omega)
  have h₁ := hbyte 1 (by omega)
  have h₂ := hbyte 2 (by omega)
  have h₃ := hbyte 3 (by omega)
  rw [Nat.add_zero] at h₀
  apply UInt32.toNat_inj.mp
  rw [toNat_wordAt, h₀, h₁, h₂, h₃]
  omega

theorem byteOf_wordAt (b : Bytes) (off : Nat) {i : Nat} (hi : i < 4) :
    byteOf (wordAt b off) i = b (off + i) := by
  have h₀ := (b off).toNat_lt
  have h₁ := (b (off + 1)).toNat_lt
  have h₂ := (b (off + 2)).toNat_lt
  have h₃ := (b (off + 3)).toNat_lt
  apply UInt8.toNat_inj.mp
  rw [toNat_byteOf, toNat_wordAt]
  have hi' : i = 0 ∨ i = 1 ∨ i = 2 ∨ i = 3 := by omega
  rcases hi' with rfl | rfl | rfl | rfl
  · rw [Nat.pow_zero, Nat.div_one]
    change _ = (b off).toNat
    omega
  all_goals omega

/-- A word that lies inside spliced data is the word of the data. -/
theorem wordAt_splice_inside {b d : Bytes} {len i : Nat} (off : Nat) (h : i + 4 ≤ len) :
    wordAt (splice b off len d) (off + i) = wordAt d i := by
  rw [← wordAt_view]
  refine wordAt_congr (fun k hk => ?_)
  rw [view, splice_at (by omega)]

theorem wordAt_splice_outside {b d : Bytes} {off len i : Nat} (h : i + 4 ≤ off ∨ off + len ≤ i) :
    wordAt (splice b off len d) i = wordAt b i :=
  wordAt_congr fun _ _ => splice_outside (by omega)

/-! ## Bits -/

/-- Bit `i` of a byte string, least significant bit of each byte first. -/
def testBit (b : Bytes) (i : Nat) : Bool := (b (i / 8)).toNat.testBit (i % 8)

def setBit (b : Bytes) (i : Nat) (v : Bool) : Bytes := fun k =>
  if k = i / 8 then
    if v then b k ||| ((1 : UInt8) <<< UInt8.ofNat (i % 8))
    else b k &&& ~~~((1 : UInt8) <<< UInt8.ofNat (i % 8))
  else b k

theorem toNat_one_shiftLeft {k : Nat} (hk : k < 8) :
    ((1 : UInt8) <<< UInt8.ofNat k).toNat = 2 ^ k := by
  have hk' : k = 0 ∨ k = 1 ∨ k = 2 ∨ k = 3 ∨ k = 4 ∨ k = 5 ∨ k = 6 ∨ k = 7 := by omega
  rcases hk' with rfl | rfl | rfl | rfl | rfl | rfl | rfl | rfl <;> rfl

theorem testBit_or_mask (b : UInt8) {k m : Nat} (hk : k < 8) :
    (b ||| ((1 : UInt8) <<< UInt8.ofNat k)).toNat.testBit m =
      (b.toNat.testBit m || decide (k = m)) := by
  rw [UInt8.toNat_or, Nat.testBit_or, toNat_one_shiftLeft hk, Nat.testBit_two_pow]

theorem testBit_and_mask (b : UInt8) {k m : Nat} (hk : k < 8) (hm : m < 8) :
    (b &&& ~~~((1 : UInt8) <<< UInt8.ofNat k)).toNat.testBit m =
      (b.toNat.testBit m && !decide (k = m)) := by
  rw [UInt8.toNat_and, Nat.testBit_and, UInt8.toNat_not, toNat_one_shiftLeft hk]
  have hlt : 2 ^ k < 2 ^ 8 := Nat.pow_lt_pow_right (by omega) hk
  have hnot : UInt8.size - 1 - 2 ^ k = 2 ^ 8 - (2 ^ k + 1) := by
    show 256 - 1 - 2 ^ k = 256 - (2 ^ k + 1)
    omega
  rw [hnot, Nat.testBit_two_pow_sub_succ hlt, Nat.testBit_two_pow]
  simp [hm]

theorem testBit_setBit (b : Bytes) (i j : Nat) (v : Bool) :
    testBit (setBit b i v) j = if j = i then v else testBit b j := by
  have hi : i % 8 < 8 := Nat.mod_lt i (by omega)
  have hj : j % 8 < 8 := Nat.mod_lt j (by omega)
  by_cases hbyte : j / 8 = i / 8
  · have hbit : i % 8 = j % 8 ↔ j = i := by omega
    unfold testBit setBit
    rw [if_pos hbyte]
    cases v with
    | true =>
        rw [if_pos rfl, testBit_or_mask _ hi]
        by_cases h : j = i
        · simp [h]
        · simp [h, hbit]
    | false =>
        rw [if_neg Bool.false_ne_true, testBit_and_mask _ hi hj]
        by_cases h : j = i
        · simp [h]
        · simp [h, hbit]
  · have hne : j ≠ i := fun h => hbyte (congrArg (· / 8) h)
    unfold testBit setBit
    rw [if_neg hbyte, if_neg hne]

end ByteString
