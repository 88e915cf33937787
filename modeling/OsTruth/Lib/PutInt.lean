/-
`put_int` of `lib/kernel/print.S`, against `itoa`.

The routine fills eight places with the digits of the number, lowest first from the back, skips the
zeros in front and passes what is left to `put_char`.  It also reads the bytes behind the buffer,
which it does not use.
-/
import OsTruth.Lib.Stdio

namespace OsTruth

open ByteString

/-! ## Functions -/

def zeroChar : UInt8 := '0'.toUInt8

/-- `.16based_4bits`, with `edi` and the buffer behind the loop.  `edx` is a copy of `eax`, and `jg`
compares as signed numbers. -/
def putIntDigits : Nat → UInt32 → UInt32 → Bytes → UInt32 × Bytes
  | 0, _, edi, buf => (edi, buf)
  | ecx + 1, eax, edi, buf =>
      let edx := eax &&& 0x0000000f
      let edx := if edx.toInt32 > 9 then edx - 10 + 'A'.val else edx + '0'.val
      let buf := fun k => if k = edi.toNat then edx.toUInt8 else buf k
      putIntDigits ecx (eax >>> 4) (edi - 1) buf

/-- `.skip_prefix_0`, with `edi` and `cl` in front of `.put_each_num`. -/
def skipPrefix0 (buf : Bytes) : Nat → UInt32 → Except Fault (UInt32 × UInt8)
  | 0, _ => .error .undefined
  | left + 1, edi =>
      if edi = 8 then .ok (edi, zeroChar)
      else
        let cl := buf edi.toNat
        let edi := edi + 1
        if cl = zeroChar then skipPrefix0 buf left edi else .ok (edi - 1, cl)

/-- `.put_each_num`, with the characters passed to `put_char`. -/
def putEachNum (buf : Bytes) : Nat → UInt32 → UInt8 → Except Fault Str
  | 0, _, _ => .error .undefined
  | left + 1, edi, cl => do
      let edi := edi + 1
      if edi.toInt32 < 8 then do
        let rest ← putEachNum buf left edi (buf edi.toNat)
        .ok (cl :: rest)
      else .ok [cl]

/-- `put_int`; `buf` is what `put_int_buffer` and the bytes behind it hold before. -/
def putInt (buf : Bytes) (v : UInt32) : Except Fault Str := do
  let (edi, buf) := putIntDigits 8 v 7 buf
  let (edi, cl) ← skipPrefix0 buf 9 (edi + 1)
  putEachNum buf 8 edi cl

section

variable {buf : Bytes} {v edi : UInt32} {n w i left : Nat}

/-! ## The digits -/

/-- The digits of `n` in `w` places, highest first. -/
def padded (w n : Nat) : Str := (List.range w).map fun k => digitChar (n / 16 ^ (w - 1 - k) % 16)

theorem padded_succ (w n : Nat) :
    padded (w + 1) n = padded w (n / 16) ++ [digitChar (n % 16)] := by
  unfold padded
  rw [List.range_succ, List.map_append, List.map_singleton]
  congr 1
  · apply List.map_congr_left
    intro k hk
    have hlt := List.mem_range.mp hk
    have hexp : w + 1 - 1 - k = w - 1 - k + 1 := by omega
    rw [hexp, Nat.pow_succ, Nat.mul_comm, ← Nat.div_div_eq_div_mul]
  · simp

theorem digitChar_zero_iff (h : n < 16) : digitChar n = zeroChar ↔ n = 0 := by
  have hall : ∀ n, n < 16 → (digitChar n = zeroChar ↔ n = 0) := by decide
  exact hall n h

theorem numeral_sixteen_ne_nil (n : Nat) : numeral 16 n ≠ [] := by
  have hne : numeral (16 : UInt8).toNat n ≠ [] := numeral_ne_nil (by decide) n
  exact hne

/-- Behind the zeros in front, the padded digits are the numeral. -/
theorem dropWhile_padded (h : n < 16 ^ w) :
    (padded w n).dropWhile (· = zeroChar) = if n = 0 then [] else numeral 16 n := by
  induction w generalizing n with
  | zero =>
      have hn : n = 0 := by simpa using h
      rw [if_pos hn]
      rfl
  | succ w ih =>
      have hstep : numeral (16 : UInt8).toNat n = _ := numeral_step (by decide) n
      have h16 : (16 : UInt8).toNat = 16 := rfl
      have hdigit := digitChar_zero_iff (Nat.mod_lt n (by omega : 0 < 16))
      rw [h16] at hstep
      rw [Nat.pow_succ] at h
      rw [padded_succ, List.dropWhile_append, ih (by omega)]
      by_cases hdiv : n / 16 = 0
      · rw [if_pos hdiv]
        by_cases hn : n = 0
        · simp [hn, digitChar_zero_iff]
        · have hmod : n % 16 ≠ 0 := by omega
          rw [if_pos hdiv, List.nil_append] at hstep
          simp [hn, hstep, hdigit, hmod]
      · have hn : n ≠ 0 := by omega
        have hne := numeral_sixteen_ne_nil (n / 16)
        rw [if_neg hdiv] at hstep ⊢
        rw [if_neg hn, hstep, if_neg]
        simpa using hne

theorem length_numeral_le (v : UInt32) : (numeral 16 v.toNat).length ≤ 8 := by
  have hlt : v.toNat < 16 ^ 8 := v.toNat_lt
  have hdrop := dropWhile_padded hlt
  by_cases hv : v.toNat = 0
  · rw [hv]
    decide
  · rw [if_neg hv] at hdrop
    rw [← hdrop]
    have hle := (List.dropWhile_sublist (· = zeroChar) (l := padded 8 v.toNat)).length_le
    simpa [padded] using hle

/-! ## The loops -/

/-- The character that is stored for the lowest digit. -/
theorem nibbleChar (v : UInt32) :
    (if (v &&& 0x0000000f).toInt32 > 9 then (v &&& 0x0000000f) - 10 + 'A'.val
      else (v &&& 0x0000000f) + '0'.val).toUInt8 = digitChar (v.toNat % 16) := by
  have hall : ∀ n, n < 16 → (if (UInt32.ofNat n).toInt32 > 9 then UInt32.ofNat n - 10 + 'A'.val
      else UInt32.ofNat n + '0'.val).toUInt8 = digitChar n := by decide
  have hand : v &&& 0x0000000f = UInt32.ofNat (v.toNat % 16) := by
    apply UInt32.toNat_inj.mp
    rw [UInt32.toNat_and, UInt32.toNat_ofNat']
    show v.toNat &&& (2 ^ 4 - 1) = _
    rw [Nat.and_two_pow_sub_one_eq_mod]
    omega
  rw [hand]
  exact hall _ (Nat.mod_lt _ (by omega))

theorem toNat_shr_four (v : UInt32) : (v >>> 4).toNat = v.toNat / 16 := by
  have h4 : (4 : UInt32).toNat % 32 = 4 := rfl
  rw [UInt32.toNat_shiftRight, h4, Nat.shiftRight_eq_div_pow]

/-- The loop fills the places from the back. -/
theorem putIntDigits_eq (h : n ≤ 8) (v : UInt32) (buf : Bytes) :
    putIntDigits n v (UInt32.ofNat n - 1) buf = (0 - 1, fun k =>
      if k < n then digitChar (v.toNat / 16 ^ (n - 1 - k) % 16) else buf k) := by
  induction n generalizing v buf with
  | zero => simp [putIntDigits]
  | succ n ih =>
      have hedi : UInt32.ofNat (n + 1) - 1 = UInt32.ofNat n := by
        rw [UInt32.ofNat_add]
        exact UInt32.add_sub_cancel _ 1
      have hnat : (UInt32.ofNat n).toNat = n := by
        rw [UInt32.toNat_ofNat']
        omega
      rw [putIntDigits, hedi, nibbleChar, hnat, ih (by omega), toNat_shr_four]
      congr 1
      funext k
      by_cases hk : k < n
      · have hexp : n + 1 - 1 - k = n - 1 - k + 1 := by omega
        rw [if_pos hk, if_pos (by omega), hexp, Nat.pow_succ, Nat.mul_comm,
          ← Nat.div_div_eq_div_mul]
      · rw [if_neg hk]
        by_cases hkn : k = n
        · simp [hkn]
        · rw [if_neg hkn, if_neg (by omega)]

def charsFrom (buf : Bytes) (i : Nat) : Str := (List.range' i (8 - i)).map buf

theorem charsFrom_cons (buf : Bytes) (h : i < 8) :
    charsFrom buf i = buf i :: charsFrom buf (i + 1) := by
  obtain ⟨m, hm⟩ := Nat.exists_eq_add_of_lt h
  have hi : 8 - i = m + 1 := by omega
  have hnext : 8 - (i + 1) = m := by omega
  unfold charsFrom
  rw [hi, hnext, List.range'_succ, List.map_cons]

theorem toNat_succ (h : edi.toNat < 8) : (edi + 1).toNat = edi.toNat + 1 := by
  rw [UInt32.toNat_add]
  show (edi.toNat + 1) % 2 ^ 32 = _
  omega

/-- A small word has no sign. -/
theorem int32_lt_eight (h : edi.toNat ≤ 8) : edi.toInt32 < 8 ↔ edi.toNat < 8 := by
  have hall : ∀ n, n ≤ 8 → ((UInt32.ofNat n).toInt32 < 8 ↔ n < 8) := by decide
  have hn := hall edi.toNat h
  rwa [UInt32.ofNat_toNat] at hn

theorem putEachNum_eq (h : edi.toNat < 8) (hleft : 8 - edi.toNat ≤ left) :
    putEachNum buf left edi (buf edi.toNat) = .ok (charsFrom buf edi.toNat) := by
  induction left generalizing edi with
  | zero => omega
  | succ left ih =>
      have hnext := toNat_succ h
      have hlt : (edi + 1).toInt32 < 8 ↔ _ := int32_lt_eight (by omega)
      rw [putEachNum, charsFrom_cons buf h]
      by_cases hmore : (edi + 1).toNat < 8
      · rw [if_pos (hlt.mpr hmore), ih hmore (by omega), hnext]
        rfl
      · have hlast : edi.toNat + 1 = 8 := by omega
        rw [if_neg fun h => hmore (hlt.mp h), hlast]
        rfl

/-- Behind the zeros, or behind the buffer with a zero to print. -/
theorem skipPrefix0_eq (h : edi.toNat ≤ 8) (hleft : 8 - edi.toNat < left) :
    ∃ edi' cl, skipPrefix0 buf left edi = .ok (edi', cl) ∧
      ((edi'.toNat < 8 ∧ cl = buf edi'.toNat ∧
          charsFrom buf edi'.toNat = (charsFrom buf edi.toNat).dropWhile (· = zeroChar) ∧
          charsFrom buf edi'.toNat ≠ []) ∨
        (edi' = 8 ∧ cl = zeroChar ∧
          (charsFrom buf edi.toNat).dropWhile (· = zeroChar) = [])) := by
  induction left generalizing edi with
  | zero => omega
  | succ left ih =>
      rw [skipPrefix0]
      by_cases hend : edi = 8
      · rw [if_pos hend, hend]
        exact ⟨8, zeroChar, rfl, Or.inr ⟨rfl, rfl, rfl⟩⟩
      · have hlt : edi.toNat < 8 := by
          have hne : edi.toNat ≠ 8 := fun h8 => hend (UInt32.toNat_inj.mp h8)
          omega
        have hnext := toNat_succ hlt
        have hchars := charsFrom_cons buf hlt
        rw [if_neg hend]
        show ∃ edi' cl, (if buf edi.toNat = zeroChar then _ else _) = _ ∧ _
        by_cases hzero : buf edi.toNat = zeroChar
        · have hdrop : (charsFrom buf edi.toNat).dropWhile (· = zeroChar) =
              (charsFrom buf (edi + 1).toNat).dropWhile (· = zeroChar) := by
            rw [hchars, List.dropWhile_cons_of_pos (by simpa using hzero), hnext]
          rw [if_pos hzero, hdrop]
          exact ih (by omega) (by omega)
        · rw [if_neg hzero, UInt32.add_sub_cancel]
          refine ⟨edi, buf edi.toNat, rfl, Or.inl ⟨hlt, rfl, ?_, ?_⟩⟩
          · rw [hchars, List.dropWhile_cons_of_neg (by simpa using hzero)]
          · rw [hchars]
            exact List.cons_ne_nil _ _

/-- The routine prints the numeral. -/
theorem putInt_eq (buf : Bytes) (v : UInt32) : putInt buf v = .ok (numeral 16 v.toNat) := by
  have hdigits := putIntDigits_eq (Nat.le_refl 8) v buf
  have hlt : v.toNat < 16 ^ 8 := v.toNat_lt
  have hdrop := dropWhile_padded hlt
  unfold putInt
  have hseven : UInt32.ofNat 8 - 1 = 7 := by decide
  rw [hseven] at hdigits
  rw [hdigits]
  generalize hbuf' : (fun k => if k < 8 then digitChar (v.toNat / 16 ^ (8 - 1 - k) % 16)
    else buf k) = buf'
  have hpadded : charsFrom buf' 0 = padded 8 v.toNat := by
    unfold charsFrom padded
    rw [← List.range_eq_range']
    apply List.map_congr_left
    intro k hk
    rw [← hbuf']
    exact if_pos (List.mem_range.mp hk)
  obtain ⟨edi, cl, hskip, hstop⟩ : ∃ edi cl, skipPrefix0 buf' 9 0 = .ok (edi, cl) ∧ _ :=
    skipPrefix0_eq (by decide) (by decide)
  have hzero : (0 : UInt32) - 1 + 1 = 0 := by decide
  have hnat : (0 : UInt32).toNat = 0 := rfl
  rw [hnat, hpadded, hdrop] at hstop
  show (skipPrefix0 buf' 9 (0 - 1 + 1) >>= _) = _
  rw [hzero, hskip]
  show putEachNum buf' 8 edi cl = _
  rcases hstop with ⟨hlt, hcl, hchars, hne⟩ | ⟨hend, hcl, hnil⟩
  · rw [hcl, putEachNum_eq hlt (by omega)]
    rw [hchars] at hne ⊢
    by_cases hv : v.toNat = 0
    · rw [if_pos hv] at hne
      exact absurd rfl hne
    · rw [if_neg hv]
  · by_cases hv : v.toNat = 0
    · rw [hend, hcl, hv]
      rfl
    · rw [if_neg hv] at hnil
      exact absurd hnil (numeral_sixteen_ne_nil _)

/-- `put_int` prints what `itoa` stores for `%x`. -/
theorem putInt_itoa (buf : Bytes) (v : UInt32) {str : Buf} {p : Nat} (hroom : p + 8 ≤ str.size) :
    putInt buf v = .ok (numeral 16 v.toNat) ∧
      itoa 16 32 v str p =
        .ok (str.putStr p (numeral 16 v.toNat), p + (numeral 16 v.toNat).length) := by
  have hlen := length_numeral_le v
  have h16 : (16 : UInt8).toNat = 16 := rfl
  have hitoa : itoa 16 32 v str p = _ :=
    itoa_eq (by decide) (by decide) v.toNat_lt (by rw [h16]; omega)
  rw [h16] at hitoa
  exact ⟨putInt_eq buf v, hitoa⟩

/-- An address. -/
theorem putInt_itoa_address :
    putInt (fun _ => 0) 0xc0100a00 = .ok (numeral 16 (0xc0100a00 : UInt32).toNat) ∧
      itoa 16 32 0xc0100a00 (.zero 16) 0 =
        .ok ((Buf.zero 16).putStr 0 (numeral 16 (0xc0100a00 : UInt32).toNat),
          0 + (numeral 16 (0xc0100a00 : UInt32).toNat).length) :=
  putInt_itoa _ _ (by decide)

example : numeral 16 0xc0100a00 = [0x43, 0x30, 0x31, 0x30, 0x30, 0x41, 0x30, 0x30] := by decide

end

end OsTruth
