/-
`itoa`, `vsprintf` and `sprintf` of `lib/stdio.c`.

The buffer starts at the first byte that is written, so a write or a read behind its end fails.
A format is a list of pieces: literals and the directives `%s`, `%c`, `%d` and `%x` with their
arguments.  The loop of `vsprintf` stores the text of the pieces and no zero of its own; only
`strcpy` leaves one, and what comes next overwrites it.
-/
import Mathlib.Data.Nat.Digits.Defs
import OsTruth.Lib.Strings

namespace OsTruth

open ByteString

/-! ## Functions -/

def percent : UInt8 := '%'.toUInt8

def minus : UInt8 := '-'.toUInt8

/-- `itoa`.  The value shrinks at least by half in each call, so 32 calls are enough. -/
def itoa (base : UInt8) : Nat → UInt32 → Buf → Nat → Except Fault (Buf × Nat)
  | 0, _, _, _ => .error .undefined
  | left + 1, value, buf, bufPtr => do
      let m := value % base.toUInt32
      let i := value / base.toUInt32
      let (buf, bufPtr) ← if i ≠ 0 then itoa base left i buf bufPtr else .ok (buf, bufPtr)
      let buf ← buf.store bufPtr
        (if m < 10 then (m + '0'.val).toUInt8 else (m - 10 + 'A'.val).toUInt8)
      .ok (buf, bufPtr + 1)

/-- An argument on the stack: a pointer into a buffer, or a word. -/
inductive VaArg where
  | pointer (buf : Buf) (p : Nat)
  | word (w : UInt32)

/-- `va_arg(ap, char*)`. -/
def vaPointer : List VaArg → Except Fault ((Buf × Nat) × List VaArg)
  | .pointer buf p :: ap => .ok ((buf, p), ap)
  | _ => .error .undefined

/-- `va_arg(ap, int)`. -/
def vaWord : List VaArg → Except Fault (UInt32 × List VaArg)
  | .word w :: ap => .ok (w, ap)
  | _ => .error .undefined

/-- The `switch` of `vsprintf`, without the step to the next character that ends each case.
For another character than these there is no case. -/
def vsprintfSwitch (indexChar : UInt8) (str : Buf) (bufPtr : Nat) (ap : List VaArg) :
    Except Fault (Option (Buf × Nat × List VaArg)) :=
  if indexChar = 's'.toUInt8 then do
    let (argStr, ap) ← vaPointer ap
    let str ← strcpy str bufPtr argStr.1 argStr.2
    let len ← strlen argStr.1 argStr.2
    .ok (some (str, bufPtr + len, ap))
  else if indexChar = 'c'.toUInt8 then do
    let (arg, ap) ← vaWord ap
    -- the first byte of the argument
    let str ← str.store bufPtr arg.toUInt8
    .ok (some (str, bufPtr + 1, ap))
  else if indexChar = 'x'.toUInt8 then do
    let (argInt, ap) ← vaWord ap
    let (str, bufPtr) ← itoa 16 32 argInt str bufPtr
    .ok (some (str, bufPtr, ap))
  else if indexChar = 'd'.toUInt8 then do
    let (argInt, ap) ← vaWord ap
    if argInt.toInt32 < 0 then do
      -- the negation wraps for the least number
      let str ← str.store bufPtr minus
      let (str, bufPtr) ← itoa 10 32 (0 - argInt) str (bufPtr + 1)
      .ok (some (str, bufPtr, ap))
    else do
      let (str, bufPtr) ← itoa 10 32 argInt str bufPtr
      .ok (some (str, bufPtr, ap))
  else .ok none

/-- The loop of `vsprintf`, with the last position of `buf_ptr`.  Each round reads a character
of the format, so its size is enough rounds. -/
def vsprintfLoop (format : Buf) :
    Nat → Buf → Nat → Nat → UInt8 → List VaArg → Except Fault (Buf × Nat)
  | 0, _, _, _, _, _ => .error .undefined
  | left + 1, str, bufPtr, indexPtr, indexChar, ap =>
      if indexChar = 0 then .ok (str, bufPtr)
      else if indexChar ≠ percent then do
        let str ← str.store bufPtr indexChar
        let indexChar ← format.load (indexPtr + 1)
        vsprintfLoop format left str (bufPtr + 1) (indexPtr + 1) indexChar ap
      else do
        let indexChar ← format.load (indexPtr + 1)
        match ← vsprintfSwitch indexChar str bufPtr ap with
        | none => vsprintfLoop format left str bufPtr (indexPtr + 1) indexChar ap
        | some (str, bufPtr, ap) => do
            let indexChar ← format.load (indexPtr + 2)
            vsprintfLoop format left str bufPtr (indexPtr + 2) indexChar ap

/-- `vsprintf`, with what it leaves in the buffer. -/
def vsprintf (str : Buf) (format : Buf) (index : Nat) (ap : List VaArg) :
    Except Fault (Nat × Buf) := do
  let indexChar ← format.load index
  let (str, _) ← vsprintfLoop format format.size str 0 index indexChar ap
  let len ← strlen str 0
  .ok (len, str)

/-- `sprintf`: the arguments start behind the format. -/
def sprintf (buf : Buf) (format : Buf) (index : Nat) (args : List VaArg) :
    Except Fault (Nat × Buf) := do
  let retval ← vsprintf buf format index args
  .ok retval

/-! ## Texts -/

/-- The character of a digit. -/
def digitChar (d : Nat) : UInt8 := UInt8.ofNat (if d < 10 then 48 + d else 55 + d)

/-- The digits of a number, highest first and without leading zeros. -/
def numeral (base n : Nat) : Str :=
  if n = 0 then [digitChar 0] else (base.digits n).reverse.map digitChar

/-- A number in decimal, with its sign if it is negative. -/
def decimal (i : Int) : Str :=
  if i < 0 then minus :: numeral 10 i.natAbs else numeral 10 i.natAbs

/-- A piece of a format, with its argument.  The argument of `%s` is the string `s` at place `p`
of the buffer `src`. -/
inductive Piece where
  | lit (c : UInt8)
  | str (src : Buf) (p : Nat) (s : Str)
  | chr (w : UInt32)
  | dec (w : UInt32)
  | hex (w : UInt32)

namespace Piece

def format : Piece → Str
  | .lit c => [c]
  | .str .. => [percent, 's'.toUInt8]
  | .chr _ => [percent, 'c'.toUInt8]
  | .dec _ => [percent, 'd'.toUInt8]
  | .hex _ => [percent, 'x'.toUInt8]

def args : Piece → List VaArg
  | .lit _ => []
  | .str src p _ => [.pointer src p]
  | .chr w => [.word w]
  | .dec w => [.word w]
  | .hex w => [.word w]

def text : Piece → Str
  | .lit c => [c]
  | .str _ _ s => s
  | .chr w => [w.toUInt8]
  | .dec w => decimal w.toInt32.toInt
  | .hex w => numeral 16 w.toNat

def Valid : Piece → Prop
  | .lit c => c ≠ 0 ∧ c ≠ percent
  | .str src p s => src.Holds p s
  | _ => True

def zero : Piece → Str
  | .str .. => [0]
  | _ => []

end Piece

def formatOf (ps : List Piece) : Str := ps.flatMap Piece.format

def argsOf (ps : List Piece) : List VaArg := ps.flatMap Piece.args

def textOf (ps : List Piece) : Str := ps.flatMap Piece.text

/-- The format ends in `%s`. -/
def EndsInString (ps : List Piece) : Prop := ∃ src p s, ps.getLast? = some (.str src p s)

def zeroBehind (ps : List Piece) : Str := (ps.getLast?.map Piece.zero).getD []

section

variable {b str format src : Buf} {p q left : Nat} {s t z : Str} {c base : UInt8} {v : UInt32}

/-! ## Stores one behind the other -/

namespace Buf

theorem putStr_size : (b.putStr q s).size = b.size := rfl

theorem store_room (c : UInt8) (h : p < b.size) : b.store p c = .ok (b.putStr p [c]) := by
  have hone : splice b.data p 1 (fun _ => c) = splice b.data p 1 (strBytes [c]) := by
    apply splice_congr
    intro k hk
    obtain rfl : k = 0 := by omega
    rfl
  rw [store_eq, if_pos h, hone]
  rfl

/-- A store in place of the end of the last one. -/
theorem putStr_putStr (hz : z.length ≤ t.length) :
    (b.putStr q (s ++ z)).putStr (q + s.length) t = b.putStr q (s ++ t) := by
  have hdata : splice (splice b.data q (s ++ z).length (strBytes (s ++ z))) (q + s.length) t.length
      (strBytes t) = splice b.data q (s ++ t).length (strBytes (s ++ t)) := by
    funext a
    rw [List.length_append, List.length_append]
    by_cases hlow : a < q
    · rw [splice_outside (by omega), splice_outside (by omega), splice_outside (by omega)]
    · by_cases hs : a < q + s.length
      · have hlt : a - q < s.length := by omega
        rw [splice_outside (by omega), splice_inside (by omega) (by omega),
          splice_inside (by omega) (by omega), strBytes, strBytes]
        simp [List.getElem?_append_left hlt]
      · by_cases ht : a < q + s.length + t.length
        · have hle : s.length ≤ a - q := by omega
          rw [splice_inside (by omega) ht, splice_inside (by omega) (by omega), strBytes, strBytes]
          simp [List.getElem?_append_right hle, Nat.sub_sub]
        · rw [splice_outside (by omega), splice_outside (by omega), splice_outside (by omega)]
  unfold putStr
  rw [hdata]

/-- A string that is stored with its zero. -/
theorem put_strBytes (h : p + s.length < b.size) :
    b.put p (s.length + 1) (strBytes s) = .ok (b.putStr p (s ++ [0])) := by
  have hdata : splice b.data p (s.length + 1) (strBytes s) =
      splice b.data p (s.length + 1) (strBytes (s ++ [0])) := by
    apply splice_congr
    intro k hk
    rw [strBytes, strBytes]
    by_cases hlt : k < s.length
    · simp [List.getElem?_append_left hlt]
    · obtain rfl : k = s.length := by omega
      simp
  rw [put, if_pos (by omega), hdata, putStr, List.length_append, List.length_singleton]

theorem putStr_append : (b.putStr q s).putStr (q + s.length) t = b.putStr q (s ++ t) := by
  have := putStr_putStr (b := b) (q := q) (s := s) (z := []) (t := t) (Nat.zero_le _)
  rwa [List.append_nil] at this

end Buf

/-! ## Digits -/

theorem numeral_step (hbase : 2 ≤ base.toNat) (n : Nat) :
    numeral base.toNat n =
      (if n / base.toNat = 0 then [] else numeral base.toNat (n / base.toNat)) ++
        [digitChar (n % base.toNat)] := by
  by_cases hn : n = 0
  · simp [hn, numeral]
  · rw [numeral, if_neg hn, Nat.digits_def' hbase (Nat.pos_of_ne_zero hn)]
    by_cases hdiv : n / base.toNat = 0
    · simp [hdiv]
    · simp [hdiv, numeral]

theorem digitChar_eq (m : UInt32) :
    (if m < 10 then (m + '0'.val).toUInt8 else (m - 10 + 'A'.val).toUInt8) =
      digitChar m.toNat := by
  have hm := m.toNat_lt
  apply UInt8.toNat_inj.mp
  unfold digitChar
  by_cases hlt : m < 10
  · have hlt' : m.toNat < 10 := UInt32.lt_iff_toNat_lt.mp hlt
    have h0 : ('0'.val : UInt32).toNat = 48 := rfl
    rw [if_pos hlt, if_pos hlt', UInt32.toNat_toUInt8, UInt32.toNat_add, h0, UInt8.toNat_ofNat']
    omega
  · have hle : ¬m.toNat < 10 := fun h => hlt (UInt32.lt_iff_toNat_lt.mpr h)
    have hA : ('A'.val : UInt32).toNat = 65 := rfl
    have h10 : (10 : UInt32).toNat = 10 := rfl
    have hle' : (10 : UInt32) ≤ m := UInt32.le_iff_toNat_le.mpr (by omega)
    rw [if_neg hlt, if_neg hle, UInt32.toNat_toUInt8, UInt32.toNat_add, hA,
      UInt32.toNat_sub_of_le _ _ hle', h10, UInt8.toNat_ofNat']
    omega

/-- `itoa` stores the digits of the value. -/
theorem itoa_eq (hbase : 2 ≤ base.toNat) (hpos : 0 < left) (hleft : v.toNat < 2 ^ left)
    (hroom : p + (numeral base.toNat v.toNat).length ≤ b.size) :
    itoa base left v b p = .ok (b.putStr p (numeral base.toNat v.toNat),
      p + (numeral base.toNat v.toNat).length) := by
  induction left generalizing v p b with
  | zero => exact absurd hpos (Nat.lt_irrefl 0)
  | succ left ih =>
      have hm : (v % base.toUInt32).toNat = v.toNat % base.toNat := by
        rw [UInt32.toNat_mod, UInt8.toNat_toUInt32]
      have hi : (v / base.toUInt32).toNat = v.toNat / base.toNat := by
        rw [UInt32.toNat_div, UInt8.toNat_toUInt32]
      have hsmall : v.toNat / base.toNat < 2 ^ left := by
        rw [Nat.pow_succ] at hleft
        exact (Nat.div_le_div_left hbase (by omega)).trans_lt (by omega)
      rw [numeral_step hbase] at hroom ⊢
      rw [itoa]
      show (if v / base.toUInt32 ≠ 0 then _ else _) = _
      by_cases hzero : v / base.toUInt32 = 0
      · have hdiv : v.toNat / base.toNat = 0 := by
          rw [← hi, hzero]
          rfl
        rw [if_pos hdiv, List.nil_append, List.length_singleton] at hroom
        rw [if_neg (not_not.mpr hzero), if_pos hdiv, List.nil_append]
        show (b.store p _ >>= _) = _
        rw [digitChar_eq, hm, b.store_room _ hroom]
        rfl
      · have hdiv : v.toNat / base.toNat ≠ 0 := by
          intro h0
          exact hzero (UInt32.toNat_inj.mp (hi.trans h0))
        have hmore : 0 < left := by
          rcases Nat.eq_zero_or_pos left with h0 | h
          · rw [h0] at hsmall
            omega
          · exact h
        rw [if_neg hdiv, List.length_append, List.length_singleton] at hroom
        rw [if_pos hzero, if_neg hdiv, ih hmore (by omega) (by rw [hi]; omega), hi]
        show (Buf.store _ _ _ >>= _) = _
        rw [digitChar_eq, hm, Buf.store_room _ (by rw [Buf.putStr_size]; omega), List.length_append,
          ← Buf.putStr_append, List.length_singleton, Nat.add_assoc]
        rfl

theorem numeral_ne_nil (hbase : 2 ≤ base.toNat) (n : Nat) : numeral base.toNat n ≠ [] := by
  rw [numeral_step hbase]
  simp

theorem digitChar_ne_zero {d : Nat} (h : d < 16) : digitChar d ≠ 0 := by
  intro h0
  have hnat := congrArg UInt8.toNat h0
  have hzero : (0 : UInt8).toNat = 0 := rfl
  rw [digitChar, UInt8.toNat_ofNat', hzero] at hnat
  by_cases hd : d < 10
  · rw [if_pos hd] at hnat
    omega
  · rw [if_neg hd] at hnat
    omega

theorem numeral_not_mem {base : Nat} (hbase : 1 < base) (hle : base ≤ 16) (n : Nat) :
    0 ∉ numeral base n := by
  intro h
  unfold numeral at h
  by_cases hn : n = 0
  · rw [if_pos hn, List.mem_singleton] at h
    exact digitChar_ne_zero (by omega) h.symm
  · rw [if_neg hn] at h
    obtain ⟨d, hd, hzero⟩ := List.mem_map.mp h
    have hlt := Nat.digits_lt_base hbase (List.mem_reverse.mp hd)
    exact digitChar_ne_zero (by omega) hzero

theorem decimal_not_mem (i : Int) : 0 ∉ decimal i := by
  have hnum : 0 ∉ numeral 10 i.natAbs := numeral_not_mem (by omega) (by omega) _
  unfold decimal
  by_cases hneg : i < 0
  · rw [if_pos hneg, List.mem_cons, not_or]
    exact ⟨by decide, hnum⟩
  · rw [if_neg hneg]
    exact hnum

/-! ## One piece -/

variable {x : Piece} {ap : List VaArg} {f : Str} {ps : List Piece}

/-- A text that is stored at the end of what is there, over the zero that may be there. -/
theorem Buf.putStr_next (hz : z.length ≤ 1) (ht : t ≠ []) :
    (b.putStr 0 (s ++ z)).putStr s.length t = b.putStr 0 (s ++ t) := by
  have hpos := List.length_pos_iff.mpr ht
  have := Buf.putStr_putStr (b := b) (q := 0) (s := s) (hz.trans hpos)
  rwa [Nat.zero_add] at this

/-- The digits of an argument behind what is there. -/
theorem itoa_next (hbase : 2 ≤ base.toNat) (hz : z.length ≤ 1)
    (hroom : (s ++ numeral base.toNat v.toNat).length ≤ b.size) :
    itoa base 32 v (b.putStr 0 (s ++ z)) s.length =
      .ok (b.putStr 0 (s ++ numeral base.toNat v.toNat),
        (s ++ numeral base.toNat v.toNat).length) := by
  rw [itoa_eq hbase (by omega) v.toNat_lt (by rwa [← List.length_append]),
    Buf.putStr_next hz (numeral_ne_nil hbase _), List.length_append]

/-- A word as an `int`. -/
theorem toInt_toInt32 (v : UInt32) :
    v.toInt32.toInt = if 2 * v.toNat < 2 ^ 32 then (v.toNat : Int) else v.toNat - 2 ^ 32 :=
  BitVec.toInt_eq_toNat_cond v.toBitVec

theorem toNat_of_nonneg (h : ¬v.toInt32.toInt < 0) : v.toNat = v.toInt32.toInt.natAbs := by
  have hv := v.toNat_lt
  rw [toInt_toInt32] at h ⊢
  by_cases hlow : 2 * v.toNat < 2 ^ 32
  · rw [if_pos hlow]
    omega
  · rw [if_neg hlow] at h
    omega

/-- The least number is its own negative, and as a word it is the absolute value. -/
theorem toNat_neg_of_neg (h : v.toInt32.toInt < 0) :
    (0 - v).toNat = v.toInt32.toInt.natAbs := by
  have hv := v.toNat_lt
  have h0 : (0 : UInt32).toNat = 0 := rfl
  rw [UInt32.toNat_sub, h0]
  rw [toInt_toInt32] at h ⊢
  by_cases hlow : 2 * v.toNat < 2 ^ 32
  · rw [if_pos hlow] at h
    omega
  · rw [if_neg hlow]
    omega

/-- A directive stores its text, and it takes its argument. -/
theorem vsprintfSwitch_eq {d : UInt8} (hx : x.Valid) (hd : x.format = [percent, d])
    (hz : z.length ≤ 1) (hroom : (s ++ x.text).length < b.size) :
    vsprintfSwitch d (b.putStr 0 (s ++ z)) s.length (x.args ++ ap) =
      .ok (some (b.putStr 0 (s ++ x.text ++ x.zero), (s ++ x.text).length, ap)) := by
  cases x with
  | lit c => simp [Piece.format] at hd
  | str src p t =>
      obtain rfl : 's'.toUInt8 = d := by simpa [Piece.format] using hd
      have hroom' : s.length + t.length < b.size := by
        rw [← List.length_append]
        exact hroom
      show (strcpy (b.putStr 0 (s ++ z)) s.length src p >>= _) = _
      rw [strcpy_eq hx, Buf.put_strBytes (b := b.putStr 0 (s ++ z)) hroom', Buf.putStr_next hz (by simp)]
      show (strlen src p >>= _) = _
      rw [strlen_eq hx]
      show Except.ok (some (b.putStr 0 (s ++ (t ++ [0])), s.length + t.length, ap)) = _
      rw [← List.append_assoc, ← List.length_append]
      rfl
  | chr w =>
      obtain rfl : 'c'.toUInt8 = d := by simpa [Piece.format] using hd
      have hroom' : s.length < b.size := Nat.lt_of_succ_lt (by simpa [Piece.text] using hroom)
      show (Buf.store (b.putStr 0 (s ++ z)) s.length w.toUInt8 >>= _) = _
      rw [Buf.store_room (b := b.putStr 0 (s ++ z)) _ hroom', Buf.putStr_next hz (by simp)]
      show Except.ok (some (b.putStr 0 (s ++ [w.toUInt8]), s.length + 1, ap)) = _
      simp [Piece.text, Piece.zero]
  | hex w =>
      obtain rfl : 'x'.toUInt8 = d := by simpa [Piece.format] using hd
      have hfits : (s ++ numeral (16 : UInt8).toNat w.toNat).length ≤ b.size :=
        Nat.le_of_lt hroom
      show (itoa 16 32 w (b.putStr 0 (s ++ z)) s.length >>= _) = _
      rw [itoa_next (by decide) hz hfits]
      show Except.ok (some (b.putStr 0 (s ++ numeral 16 w.toNat), _, ap)) = _
      simp [Piece.text, Piece.zero]
  | dec w =>
      obtain rfl : 'd'.toUInt8 = d := by simpa [Piece.format] using hd
      have hsign : w.toInt32 < 0 ↔ w.toInt32.toInt < 0 := Int32.lt_iff_toInt_lt
      show (if w.toInt32 < 0 then _ else _) = _
      by_cases hneg : w.toInt32.toInt < 0
      · have htext : Piece.text (.dec w) = [minus] ++ numeral 10 (0 - w).toNat := by
          rw [toNat_neg_of_neg hneg]
          exact if_pos hneg
        rw [htext, ← List.append_assoc] at hroom ⊢
        have hend : (s ++ [minus]).length = s.length + 1 := by simp
        have hfirst : s.length < b.size := by
          rw [List.length_append, hend] at hroom
          omega
        have hfits : (s ++ [minus] ++ numeral (10 : UInt8).toNat (0 - w).toNat).length ≤ b.size :=
          Nat.le_of_lt hroom
        have hdigits : itoa 10 32 (0 - w) (b.putStr 0 (s ++ [minus] ++ [])) (s ++ [minus]).length =
            _ :=
          itoa_next (by decide) (Nat.zero_le 1) hfits
        rw [List.append_nil, hend] at hdigits
        rw [if_pos (hsign.mpr hneg)]
        show (Buf.store (b.putStr 0 (s ++ z)) s.length minus >>= _) = _
        rw [Buf.store_room (b := b.putStr 0 (s ++ z)) _ hfirst, Buf.putStr_next hz (by simp)]
        show (itoa 10 32 (0 - w) (b.putStr 0 (s ++ [minus])) (s.length + 1) >>= _) = _
        rw [hdigits]
        show Except.ok (some (b.putStr 0 (s ++ [minus] ++ numeral 10 (0 - w).toNat), _, ap)) = _
        simp [Piece.zero]
      · have htext : Piece.text (.dec w) = numeral 10 w.toNat := by
          rw [toNat_of_nonneg hneg]
          exact if_neg hneg
        rw [htext] at hroom ⊢
        have hfits : (s ++ numeral (10 : UInt8).toNat w.toNat).length ≤ b.size :=
          Nat.le_of_lt hroom
        rw [if_neg fun h => hneg (hsign.mp h)]
        show (itoa 10 32 w (b.putStr 0 (s ++ z)) s.length >>= _) = _
        rw [itoa_next (by decide) hz hfits]
        show Except.ok (some (b.putStr 0 (s ++ numeral 10 w.toNat), _, ap)) = _
        simp [Piece.zero]

namespace Buf.Holds

theorem load_at (h : b.Holds p s) : b.load p = .ok (b.data p) :=
  load_of_lt (Nat.lt_of_le_of_lt (Nat.le_add_right _ _) h.size)

end Buf.Holds

/-- One round of the loop is one piece. -/
theorem vsprintfLoop_piece (hx : x.Valid) (hf : format.Holds q (x.format ++ f))
    (hz : z.length ≤ 1) (hroom : (s ++ x.text).length < b.size) :
    vsprintfLoop format (left + 1) (b.putStr 0 (s ++ z)) s.length q (format.data q)
        (x.args ++ ap) =
      vsprintfLoop format left (b.putStr 0 (s ++ x.text ++ x.zero)) (s ++ x.text).length
        (q + x.format.length) (format.data (q + x.format.length)) ap := by
  have hnext := hf.append_right.load_at
  by_cases hlit : ∃ c, x = .lit c
  · obtain ⟨c, rfl⟩ := hlit
    obtain ⟨hne, hper⟩ : c ≠ 0 ∧ c ≠ percent := hx
    have hc : format.data q = c := hf.str.1
    have hroom' : s.length < b.size := Nat.lt_of_succ_lt (by simpa [Piece.text] using hroom)
    rw [vsprintfLoop, hc, if_neg hne, if_pos hper,
      Buf.store_room (b := b.putStr 0 (s ++ z)) _ hroom', Buf.putStr_next hz (by simp)]
    show (format.load (q + 1) >>= _) = _
    rw [show format.load (q + 1) = .ok (format.data (q + 1)) from hnext]
    show vsprintfLoop format left (b.putStr 0 (s ++ [c])) (s.length + 1) _ _ ap = _
    simp [Piece.text, Piece.zero, Piece.format]
  · obtain ⟨d, hd⟩ : ∃ d, x.format = [percent, d] := by
      cases x with
      | lit c => exact absurd ⟨c, rfl⟩ hlit
      | str src p t => exact ⟨_, rfl⟩
      | chr w => exact ⟨_, rfl⟩
      | dec w => exact ⟨_, rfl⟩
      | hex w => exact ⟨_, rfl⟩
    rw [hd] at hf hnext ⊢
    have hc : format.data q = percent := hf.str.1
    have hload : format.load (q + 1) = .ok d := hf.tail.load_cons
    rw [vsprintfLoop, hc, if_neg (by decide), if_neg (by decide), hload]
    show (vsprintfSwitch d _ _ _ >>= _) = _
    rw [vsprintfSwitch_eq hx hd hz hroom]
    show (format.load (q + 2) >>= _) = _
    rw [show format.load (q + 2) = .ok (format.data (q + 2)) from hnext]
    rfl

/-! ## All pieces -/

/-- The loop stores the text of the pieces, and behind it at most the zero of the last `%s`. -/
theorem vsprintfLoop_eq (hps : ∀ x ∈ ps, x.Valid) (hf : format.Holds q (formatOf ps))
    (hleft : (formatOf ps).length < left) (hz : z.length ≤ 1)
    (hroom : (s ++ textOf ps).length < b.size) :
    vsprintfLoop format left (b.putStr 0 (s ++ z)) s.length q (format.data q)
        (argsOf ps ++ ap) =
      .ok (b.putStr 0 (s ++ textOf ps ++ (ps.getLast?.map Piece.zero).getD z),
        (s ++ textOf ps).length) := by
  induction ps generalizing q left s z with
  | nil =>
      obtain ⟨left, rfl⟩ := Nat.exists_eq_succ_of_ne_zero (Nat.ne_of_gt hleft)
      have hc : format.data q = 0 := hf.str
      rw [vsprintfLoop, hc, if_pos rfl]
      simp [textOf]
  | cons x ps ih =>
      obtain ⟨left, rfl⟩ := Nat.exists_eq_succ_of_ne_zero (Nat.ne_of_gt (Nat.zero_lt_of_lt hleft))
      have hformat : formatOf (x :: ps) = x.format ++ formatOf ps := List.flatMap_cons
      have htext : textOf (x :: ps) = x.text ++ textOf ps := List.flatMap_cons
      have hargs : argsOf (x :: ps) = x.args ++ argsOf ps := List.flatMap_cons
      have hlen : 0 < x.format.length := by
        cases x <;> simp [Piece.format]
      have hzero : x.zero.length ≤ 1 := by
        cases x <;> simp [Piece.zero]
      have hlast : ((x :: ps).getLast?.map Piece.zero).getD z =
          (ps.getLast?.map Piece.zero).getD x.zero := by
        rw [List.getLast?_cons]
        cases ps.getLast? <;> rfl
      rw [hformat] at hf hleft
      rw [htext, ← List.append_assoc] at hroom
      rw [List.length_append] at hleft
      have hroom' : (s ++ x.text).length < b.size := by
        rw [List.length_append] at hroom
        omega
      rw [hargs, List.append_assoc, vsprintfLoop_piece (hps x List.mem_cons_self) hf hz hroom',
        ih (fun y hy => hps y (List.mem_cons_of_mem x hy)) hf.append_right (by omega) hzero hroom,
        htext, hlast, List.append_assoc s]

/-- The content behind a store at the start. -/
theorem Buf.putStr_data (k : Nat) :
    (b.putStr 0 s).data k = if k < s.length then s.getD k 0 else b.data k := by
  by_cases hk : k < s.length
  · rw [if_pos hk]
    exact (splice_inside (Nat.zero_le k) (by omega)).trans rfl
  · rw [if_neg hk]
    exact splice_outside (Or.inr (by omega))

theorem zeroBehind_cases (ps : List Piece) :
    EndsInString ps ∧ zeroBehind ps = [0] ∨ ¬EndsInString ps ∧ zeroBehind ps = [] := by
  unfold EndsInString zeroBehind
  cases ps.getLast? with
  | none => simp
  | some x => cases x <;> simp [Piece.zero]

/-- The buffer behind the loop. -/
def Buf.printed (b : Buf) (ps : List Piece) : Buf := b.putStr 0 (textOf ps ++ zeroBehind ps)

theorem Buf.printed_text {k : Nat} (hk : k < (textOf ps).length) :
    (b.printed ps).data k = (textOf ps)[k] := by
  rw [printed, putStr_data, List.length_append, if_pos (by omega)]
  simp [List.getElem?_append_left hk, hk]

/-- The byte behind the text is a zero of `%s`, or what it was. -/
theorem Buf.printed_end :
    (b.printed ps).data (textOf ps).length = 0 ↔
      EndsInString ps ∨ b.data (textOf ps).length = 0 := by
  rw [printed, putStr_data, List.length_append]
  rcases zeroBehind_cases ps with h | h
  · simp [h.1, h.2]
  · simp [h.1, h.2]

theorem Buf.printed_rest {k : Nat} (hk : (textOf ps).length < k) :
    (b.printed ps).data k = b.data k := by
  rw [printed, putStr_data, List.length_append]
  rcases zeroBehind_cases ps with h | h
  · rw [h.2, List.length_singleton, if_neg (by omega)]
  · rw [h.2, List.length_nil, if_neg (by omega)]

/-- What `vsprintf` leaves, and where it looks for the end. -/
theorem vsprintf_eq (hps : ∀ x ∈ ps, x.Valid) (hf : format.Holds q (formatOf ps))
    (hroom : (textOf ps).length < b.size) :
    vsprintf b format q (argsOf ps ++ ap) = (do
      let len ← strlen (b.printed ps) 0
      .ok (len, b.printed ps)) := by
  have hleft := Nat.lt_of_le_of_lt (Nat.le_add_left _ q) hf.size
  have hstart : b.putStr 0 ([] ++ []) = b := Buf.putStr_nil b 0
  have hloop : vsprintfLoop format format.size (b.putStr 0 ([] ++ [])) 0 q (format.data q)
      (argsOf ps ++ ap) = .ok (b.printed ps, (textOf ps).length) :=
    vsprintfLoop_eq (s := []) hps hf hleft (Nat.zero_le 1) hroom
  rw [hstart] at hloop
  rw [vsprintf, hf.load_at]
  show (vsprintfLoop format format.size b 0 q (format.data q) (argsOf ps ++ ap) >>= _) = _
  rw [hloop]
  rfl

/-! ## The final `strlen` -/

/-- The call returns, and the text of the pieces is at the start of the buffer. -/
def Renders (ps : List Piece) (run : Except Fault (Nat × Buf)) : Prop :=
  ∃ n b', run = .ok (n, b') ∧ ∀ k (h : k < (textOf ps).length), b'.data k = (textOf ps)[k]

/-- A zero in the text, behind the last string or left in the buffer behind the text. -/
def ZeroInside (ps : List Piece) (b : Buf) : Prop :=
  0 ∈ textOf ps ∨ EndsInString ps ∨
    ∃ k, (textOf ps).length ≤ k ∧ k < b.size ∧ b.data k = 0

theorem zeroInside_iff (hroom : (textOf ps).length < b.size) :
    ZeroInside ps b ↔ ∃ k, k < b.size ∧ (b.printed ps).data k = 0 := by
  constructor
  · intro h
    rcases h with hmem | hlast | hrest
    · obtain ⟨k, hk, hget⟩ := List.mem_iff_getElem.mp hmem
      exact ⟨k, by omega, (Buf.printed_text hk).trans hget⟩
    · exact ⟨_, hroom, Buf.printed_end.mpr (Or.inl hlast)⟩
    · obtain ⟨k, hle, hk, hdata⟩ := hrest
      rcases Nat.eq_or_lt_of_le hle with heq | hlt
      · refine ⟨_, hroom, Buf.printed_end.mpr (Or.inr ?_)⟩
        rw [heq]
        exact hdata
      · exact ⟨k, hk, (Buf.printed_rest hlt).trans hdata⟩
  · intro h
    obtain ⟨k, hk, hdata⟩ := h
    rcases Nat.lt_trichotomy k (textOf ps).length with hlt | heq | hgt
    · rw [Buf.printed_text hlt] at hdata
      exact Or.inl (hdata ▸ List.getElem_mem hlt)
    · rw [heq, Buf.printed_end] at hdata
      exact Or.inr (hdata.imp_right fun h => ⟨_, Nat.le_refl _, hroom, h⟩)
    · rw [Buf.printed_rest hgt] at hdata
      exact Or.inr (Or.inr ⟨k, Nat.le_of_lt hgt, hk, hdata⟩)

/-- `vsprintf` returns with the text if its `strlen` meets a zero. -/
theorem vsprintf_renders_iff (hps : ∀ x ∈ ps, x.Valid) (hf : format.Holds q (formatOf ps))
    (hroom : (textOf ps).length < b.size) :
    Renders ps (vsprintf b format q (argsOf ps ++ ap)) ↔ ZeroInside ps b := by
  have hlen : (∃ n, strlen (b.printed ps) 0 = .ok n) ↔ ZeroInside ps b :=
    strlen_iff.trans (zeroInside_iff hroom).symm
  rw [vsprintf_eq hps hf hroom, ← hlen]
  constructor
  · intro h
    obtain ⟨n, b', hrun, -⟩ := h
    cases hstr : strlen (b.printed ps) 0 with
    | error e =>
        rw [hstr] at hrun
        cases hrun
    | ok n => exact ⟨n, rfl⟩
  · intro h
    obtain ⟨n, hstr⟩ := h
    rw [hstr]
    exact ⟨n, _, rfl, fun k hk => Buf.printed_text hk⟩

theorem vsprintf_renders_dec :
    Renders [.lit 97, .dec 5] (vsprintf (.zero 8) (strBuf (formatOf [.lit 97, .dec 5])) 0
      (argsOf [.lit 97, .dec 5] ++ [])) := by
  refine (vsprintf_renders_iff (fun x hx => ?_) (holds_strBuf (by decide)) (by decide)).mpr
    (Or.inr (Or.inr ⟨2, by decide, by decide, rfl⟩))
  have hx : x = .lit 97 ∨ x = .dec 5 := by simpa using hx
  rcases hx with rfl | rfl
  · exact ⟨by decide, by decide⟩
  · trivial

/-- In a buffer without zeros the search for the end of a number leaves the buffer. -/
theorem vsprintf_unterminated :
    (textOf [.dec 5]).length < 2 ∧
      ¬Renders [.dec 5] (vsprintf ⟨2, fun _ => 255⟩ (strBuf [percent, 'd'.toUInt8]) 0
        [.word 5]) := by
  refine ⟨by decide, fun h => ?_⟩
  obtain ⟨n, b', hrun, -⟩ := h
  have hfail : vsprintf ⟨2, fun _ => 255⟩ (strBuf [percent, 'd'.toUInt8]) 0 [.word 5] =
      .error .undefined := by rfl
  rw [hfail] at hrun
  cases hrun

theorem Piece.text_not_mem (hx : x.Valid) (hchr : ∀ w, x = .chr w → w.toUInt8 ≠ 0) :
    0 ∉ x.text := by
  cases x with
  | lit c =>
      intro h
      exact hx.1 (List.mem_singleton.mp h).symm
  | str src p t => exact Buf.Holds.not_mem hx
  | chr w =>
      intro h
      exact hchr w rfl (List.mem_singleton.mp h).symm
  | dec w => exact decimal_not_mem _
  | hex w => exact numeral_not_mem (by omega) (by omega) _

theorem textOf_not_mem (hps : ∀ x ∈ ps, x.Valid) (hchr : ∀ w, .chr w ∈ ps → w.toUInt8 ≠ 0) :
    0 ∉ textOf ps := by
  intro h
  obtain ⟨x, hx, hmem⟩ := List.mem_flatMap.mp h
  refine Piece.text_not_mem (hps x hx) (fun w hw => hchr w ?_) hmem
  rw [← hw]
  exact hx

/-- The call returns the length of the text, and the buffer holds the text with a zero. -/
def PrintsString (ps : List Piece) (run : Except Fault (Nat × Buf)) : Prop :=
  ∃ b', run = .ok ((textOf ps).length, b') ∧ b'.Holds 0 (textOf ps)

theorem vsprintf_string (hps : ∀ x ∈ ps, x.Valid) (hf : format.Holds q (formatOf ps))
    (hroom : (textOf ps).length < b.size) (hzero : 0 ∉ textOf ps) :
    PrintsString ps (vsprintf b format q (argsOf ps ++ ap)) ↔
      EndsInString ps ∨ b.data (textOf ps).length = 0 := by
  rw [vsprintf_eq hps hf hroom, ← Buf.printed_end]
  constructor
  · intro h
    obtain ⟨b', hrun, hb'⟩ := h
    cases hstr : strlen (b.printed ps) 0 with
    | error e =>
        rw [hstr] at hrun
        cases hrun
    | ok n =>
        rw [hstr] at hrun
        cases hrun
        have hend := hb'.str.get (Nat.le_refl _)
        rw [Nat.zero_add] at hend
        rw [hend]
        simp
  · intro h
    have hholds : (b.printed ps).Holds 0 (textOf ps) := by
      refine ⟨strAt_of_get hzero fun k hk => ?_, by rwa [Nat.zero_add]⟩
      rw [Nat.zero_add]
      rcases Nat.eq_or_lt_of_le hk with heq | hlt
      · rw [heq, h]
        simp
      · rw [Buf.printed_text hlt]
        simp [hlt]
    rw [strlen_eq hholds]
    exact ⟨_, rfl, hholds⟩

/-- `sprintf` and `vsprintf` leave a string only where they find its end. -/
theorem sprintf_string_iff (hps : ∀ x ∈ ps, x.Valid) (hchr : ∀ w, .chr w ∈ ps → w.toUInt8 ≠ 0)
    (hf : format.Holds q (formatOf ps)) (hroom : (textOf ps).length < b.size) :
    (PrintsString ps (vsprintf b format q (argsOf ps ++ ap)) ∧
        PrintsString ps (sprintf b format q (argsOf ps ++ ap))) ↔
      EndsInString ps ∨ b.data (textOf ps).length = 0 := by
  have hzero := textOf_not_mem hps hchr
  have hsame : sprintf b format q (argsOf ps ++ ap) = vsprintf b format q (argsOf ps ++ ap) := by
    unfold sprintf
    cases vsprintf b format q (argsOf ps ++ ap) <;> rfl
  rw [hsame, and_self]
  exact vsprintf_string hps hf hroom hzero

theorem sprintf_string_name :
    PrintsString [.lit 97, .str (strBuf [98]) 0 [98]]
      (sprintf ⟨3, fun _ => 255⟩ (strBuf (formatOf [.lit 97, .str (strBuf [98]) 0 [98]])) 0
        (argsOf [.lit 97, .str (strBuf [98]) 0 [98]] ++ [])) := by
  refine ((sprintf_string_iff (fun x hx => ?_) (fun w hw => ?_) (holds_strBuf (by decide))
    (by decide)).mpr (Or.inl ⟨_, _, _, rfl⟩)).2
  · have hx : x = .lit 97 ∨ x = .str (strBuf [98]) 0 [98] := by simpa using hx
    rcases hx with rfl | rfl
    · exact ⟨by decide, by decide⟩
    · exact holds_strBuf (by decide)
  · simp at hw

/-- The 5 takes the place of the first character of the old string, and the second one stays. -/
theorem sprintf_string_stale :
    ¬PrintsString [.dec 5] (sprintf (strBuf [49, 50]) (strBuf [percent, 'd'.toUInt8]) 0
      [.word 5]) := by
  intro h
  obtain ⟨b', hrun, -⟩ := h
  have hreturn : (sprintf (strBuf [49, 50]) (strBuf [percent, 'd'.toUInt8]) 0 [.word 5]).map
      Prod.fst = .ok 2 := by rfl
  rw [hrun] at hreturn
  have hlen : (textOf [.dec 5]).length = 2 := Except.ok.inj hreturn
  exact absurd hlen (by decide)

end

end OsTruth
