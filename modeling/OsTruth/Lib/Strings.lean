/-
`lib/string.c` on the bytes of buffers.

A pointer is a place in its buffer, and a loop gets the size of the buffer that it reads as
its number of rounds, because a read behind the end fails.  No pointer is `NULL` here.  A
function that reads a string has a closed form where the string ends inside its buffer.
-/
import OsTruth.Fs.PathBytes

namespace OsTruth

open ByteString

/-! ## Functions -/

/-- `while (*p ++);`, with the place of the zero. -/
def strEnd (b : Buf) : Nat → Nat → Except Fault Nat
  | 0, _ => .error .undefined
  | left + 1, p => do
      let c ← b.load p
      if c ≠ 0 then strEnd b left (p + 1) else .ok p

def strlen (b : Buf) (str : Nat) : Except Fault Nat := do
  let p ← strEnd b b.size str
  .ok (p - str)

/-- `while ((*dst_ ++ = *src_ ++));` -/
def copyStr (src : Buf) : Nat → Buf → Nat → Nat → Except Fault Buf
  | 0, _, _, _ => .error .undefined
  | left + 1, dst, d, s => do
      let c ← src.load s
      let dst ← dst.store d c
      if c ≠ 0 then copyStr src left dst (d + 1) (s + 1) else .ok dst

def strcpy (dst : Buf) (d : Nat) (src : Buf) (s : Nat) : Except Fault Buf :=
  copyStr src src.size dst d s

def strcat (dst : Buf) (d : Nat) (src : Buf) (s : Nat) : Except Fault Buf := do
  let str ← strEnd dst dst.size d
  copyStr src src.size dst str s

/-- `*a < *b ? -1 : *a > *b`, where a `char` has a sign. -/
def charOrder (c d : UInt8) : Int :=
  if c.toInt8 < d.toInt8 then -1 else if d.toInt8 < c.toInt8 then 1 else 0

def strcmpLoop (a b : Buf) : Nat → Nat → Nat → Except Fault Int
  | 0, _, _ => .error .undefined
  | left + 1, p, q => do
      let c ← a.load p
      let d ← b.load q
      if c ≠ 0 ∧ c = d then strcmpLoop a b left (p + 1) (q + 1)
      else .ok (charOrder c d)

def strcmp (a : Buf) (p : Nat) (b : Buf) (q : Nat) : Except Fault Int :=
  strcmpLoop a b a.size p q

def strrchrLoop (b : Buf) (ch : UInt8) : Nat → Nat → Option Nat → Except Fault (Option Nat)
  | 0, _, _ => .error .undefined
  | left + 1, p, lastChar => do
      let c ← b.load p
      if c ≠ 0 then strrchrLoop b ch left (p + 1) (if c = ch then some p else lastChar)
      else .ok lastChar

def strrchr (b : Buf) (str : Nat) (ch : UInt8) : Except Fault (Option Nat) :=
  strrchrLoop b ch b.size str none

/-! ## Buffers that hold a string -/

/-- The string at `p` of the buffer is `s`, and its zero is inside the buffer. -/
structure Buf.Holds (b : Buf) (p : Nat) (s : Str) : Prop where
  str : StrAt b.data p s
  size : p + s.length < b.size

section

variable {a b src dst : Buf} {p q d left : Nat} {s t front back : Str} {c ch : UInt8}

namespace Buf.Holds

theorem load_nil (h : b.Holds p []) : b.load p = .ok 0 := by
  rw [Buf.load_of_lt (by simpa using h.size)]
  exact congrArg Except.ok h.str

theorem load_cons (h : b.Holds p (c :: s)) : b.load p = .ok c := by
  rw [Buf.load_of_lt (Nat.lt_of_le_of_lt (Nat.le_add_right _ _) h.size), h.str.1]

theorem ne_zero (h : b.Holds p (c :: s)) : c ≠ 0 := h.str.2.1

theorem tail (h : b.Holds p (c :: s)) : b.Holds (p + 1) s where
  str := h.str.2.2
  size := by
    have := h.size
    rw [List.length_cons] at this
    omega

theorem append_right (h : b.Holds p (s ++ t)) : b.Holds (p + s.length) t where
  str := h.str.append_right
  size := by
    have := h.size
    rw [List.length_append] at this
    omega

end Buf.Holds

theorem holds_strBuf (h : 0 ∉ s) : (strBuf s).Holds 0 s where
  str := strAt_strBytes h
  size := by
    show 0 + s.length < s.length + 1
    omega

theorem holds_of_readName (h : readName b = .ok s) : b.Holds 0 s where
  str := (strAt_of_readStr h).1
  size := (strAt_of_readStr h).2

/-! ## Closed forms -/

theorem strEnd_eq (h : b.Holds p s) (hleft : s.length < left) :
    strEnd b left p = .ok (p + s.length) := by
  induction s generalizing p left with
  | nil =>
      obtain ⟨left, rfl⟩ := Nat.exists_eq_succ_of_ne_zero (Nat.ne_of_gt hleft)
      rw [strEnd, h.load_nil]
      rfl
  | cons c s ih =>
      obtain ⟨left, rfl⟩ := Nat.exists_eq_succ_of_ne_zero (Nat.ne_of_gt (Nat.zero_lt_of_lt hleft))
      rw [strEnd, h.load_cons]
      show (if c ≠ 0 then _ else _) = _
      rw [if_pos h.ne_zero, ih h.tail (Nat.lt_of_succ_lt_succ hleft), List.length_cons,
        Nat.add_assoc, Nat.add_comm 1]

theorem strlen_eq (h : b.Holds p s) : strlen b p = .ok s.length := by
  unfold strlen
  rw [strEnd_eq h (Nat.lt_of_le_of_lt (Nat.le_add_left _ _) h.size)]
  show Except.ok (p + s.length - p) = _
  rw [Nat.add_sub_cancel_left]

/-- The search for the end returns if there is a zero. -/
theorem strEnd_iff : (∃ r, strEnd b left p = .ok r) ↔
    ∃ k, k < left ∧ p + k < b.size ∧ b.data (p + k) = 0 := by
  induction left generalizing p with
  | zero => simp [strEnd]
  | succ left ih =>
      rw [strEnd]
      by_cases hp : p < b.size
      · rw [Buf.load_of_lt hp]
        show (∃ r, (if b.data p ≠ 0 then strEnd b left (p + 1) else .ok p) = .ok r) ↔ _
        by_cases hzero : b.data p = 0
        · rw [if_neg (not_not.mpr hzero)]
          exact ⟨fun _ => ⟨0, Nat.succ_pos _, hp, hzero⟩, fun _ => ⟨p, rfl⟩⟩
        · rw [if_pos hzero, ih]
          constructor
          · intro h
            obtain ⟨k, hk, hsize, hdata⟩ := h
            refine ⟨k + 1, Nat.succ_lt_succ hk, by omega, ?_⟩
            rw [← hdata]
            congr 1
            omega
          · intro h
            obtain ⟨k, hk, hsize, hdata⟩ := h
            cases k with
            | zero => exact absurd hdata hzero
            | succ k =>
                refine ⟨k, Nat.lt_of_succ_lt_succ hk, by omega, ?_⟩
                rw [← hdata]
                congr 1
                omega
      · rw [Buf.load, if_neg hp]
        constructor
        · intro h
          obtain ⟨r, hr⟩ := h
          cases hr
        · intro h
          obtain ⟨k, -, hsize, -⟩ := h
          omega

theorem strlen_iff : (∃ n, strlen b 0 = .ok n) ↔ ∃ k, k < b.size ∧ b.data k = 0 := by
  have hend : (∃ r, strEnd b b.size 0 = .ok r) ↔ _ := strEnd_iff
  simp only [Nat.zero_add, and_self_left] at hend
  rw [← hend]
  unfold strlen
  cases strEnd b b.size 0 with
  | error e => simp [bind, Except.bind]
  | ok r => exact ⟨fun _ => ⟨r, rfl⟩, fun _ => ⟨r - 0, rfl⟩⟩

/-- The copy loop stores the string with its zero, or it runs out of the buffer. -/
theorem copyStr_eq (h : src.Holds p s) (hleft : s.length < left) :
    copyStr src left dst d p = dst.put d (s.length + 1) (strBytes s) := by
  induction s generalizing p d left dst with
  | nil =>
      obtain ⟨left, rfl⟩ := Nat.exists_eq_succ_of_ne_zero (Nat.ne_of_gt hleft)
      rw [copyStr, h.load_nil]
      show (dst.put d 1 (fun _ => 0) >>= fun dst => .ok dst) = _
      have hzero : splice dst.data d 1 (fun _ => 0) = splice dst.data d 1 (strBytes []) :=
        splice_congr fun k _ => by simp [strBytes]
      by_cases hfit : d + 1 ≤ dst.size
      · simp [Buf.put, hfit, hzero, bind, Except.bind]
      · simp [Buf.put, hfit, bind, Except.bind]
  | cons c s ih =>
      obtain ⟨left, rfl⟩ := Nat.exists_eq_succ_of_ne_zero (Nat.ne_of_gt (Nat.zero_lt_of_lt hleft))
      rw [copyStr, h.load_cons]
      show (dst.store d c >>= fun dst => if c ≠ 0 then _ else _) = _
      rw [Buf.store_eq]
      by_cases hlt : d < dst.size
      · rw [if_pos hlt]
        show (if c ≠ 0 then _ else _) = _
        rw [if_pos h.ne_zero, ih h.tail (Nat.lt_of_succ_lt_succ hleft)]
        have hview : view (strBytes (c :: s)) 1 = strBytes s := by
          funext k
          simp [view, strBytes, Nat.add_comm 1]
        have hone : splice dst.data d 1 (strBytes (c :: s)) = splice dst.data d 1 fun _ => c := by
          apply splice_congr
          intro k hk
          obtain rfl : k = 0 := by omega
          rfl
        have hparts : splice dst.data d ((c :: s).length + 1) (strBytes (c :: s)) =
            splice (splice dst.data d 1 fun _ => c) (d + 1) (s.length + 1) (strBytes s) := by
          rw [List.length_cons, Nat.add_comm (s.length + 1) 1, splice_add, hview, hone]
        have hadd : d + 1 + (s.length + 1) = d + ((c :: s).length + 1) := by
          rw [List.length_cons]
          omega
        unfold Buf.put
        rw [hadd, hparts]
      · rw [if_neg hlt]
        show Except.error Fault.undefined = Buf.put dst d _ _
        rw [Buf.put, if_neg (by omega)]

theorem strcpy_eq (h : src.Holds p s) :
    strcpy dst d src p = dst.put d (s.length + 1) (strBytes s) :=
  copyStr_eq h (Nat.lt_of_le_of_lt (Nat.le_add_left _ _) h.size)

theorem strcat_eq (hdst : dst.Holds d t) (h : src.Holds p s) :
    strcat dst d src p = dst.put (d + t.length) (s.length + 1) (strBytes s) := by
  unfold strcat
  rw [strEnd_eq hdst (Nat.lt_of_le_of_lt (Nat.le_add_left _ _) hdst.size)]
  exact copyStr_eq h (Nat.lt_of_le_of_lt (Nat.le_add_left _ _) h.size)

theorem charOrder_ne (h : c ≠ ch) : charOrder c ch ≠ 0 := by
  have hne : c.toInt8 ≠ ch.toInt8 := fun heq => h (congrArg Int8.toUInt8 heq)
  unfold charOrder
  by_cases hlt : c.toInt8 < ch.toInt8
  · simp [hlt]
  · have hgt : ch.toInt8 < c.toInt8 := by
      rw [Int8.lt_iff_toInt_lt] at hlt ⊢
      have : c.toInt8.toInt ≠ ch.toInt8.toInt := fun heq => hne (Int8.toInt_inj.mp heq)
      omega
    simp [hlt, hgt]

/-- `strcmp` returns 0 for equal strings, and only for them. -/
theorem strcmpLoop_zero (ha : a.Holds p s) (hb : b.Holds q t) (hleft : s.length < left) :
    ∃ r, strcmpLoop a b left p q = .ok r ∧ (r = 0 ↔ s = t) := by
  induction s generalizing p q left t with
  | nil =>
      obtain ⟨left, rfl⟩ := Nat.exists_eq_succ_of_ne_zero (Nat.ne_of_gt hleft)
      rw [strcmpLoop, ha.load_nil]
      cases t with
      | nil =>
          rw [hb.load_nil]
          exact ⟨0, rfl, by simp⟩
      | cons c t =>
          rw [hb.load_cons]
          exact ⟨charOrder 0 c, rfl, by simp [charOrder_ne hb.ne_zero.symm]⟩
  | cons c s ih =>
      obtain ⟨left, rfl⟩ := Nat.exists_eq_succ_of_ne_zero (Nat.ne_of_gt (Nat.zero_lt_of_lt hleft))
      rw [strcmpLoop, ha.load_cons]
      cases t with
      | nil =>
          rw [hb.load_nil]
          refine ⟨charOrder c 0, if_neg fun h => ha.ne_zero h.2, ?_⟩
          simp [charOrder_ne ha.ne_zero]
      | cons e t =>
          rw [hb.load_cons]
          by_cases heq : c = e
          · obtain ⟨r, hrun, hr⟩ := ih ha.tail hb.tail (Nat.lt_of_succ_lt_succ hleft)
            refine ⟨r, (if_pos ⟨ha.ne_zero, heq⟩).trans hrun, ?_⟩
            simp [heq, hr]
          · refine ⟨charOrder c e, if_neg fun h => heq h.2, ?_⟩
            simp [charOrder_ne heq, heq]

theorem strcmp_zero (ha : a.Holds p s) (hb : b.Holds q t) :
    ∃ r, strcmp a p b q = .ok r ∧ (r = 0 ↔ s = t) :=
  strcmpLoop_zero ha hb (Nat.lt_of_le_of_lt (Nat.le_add_left _ _) ha.size)

theorem strrchrLoop_not_mem {last : Option Nat} (h : b.Holds p s) (hch : ch ∉ s)
    (hleft : s.length < left) : strrchrLoop b ch left p last = .ok last := by
  induction s generalizing p left with
  | nil =>
      obtain ⟨left, rfl⟩ := Nat.exists_eq_succ_of_ne_zero (Nat.ne_of_gt hleft)
      rw [strrchrLoop, h.load_nil]
      rfl
  | cons c s ih =>
      obtain ⟨left, rfl⟩ := Nat.exists_eq_succ_of_ne_zero (Nat.ne_of_gt (Nat.zero_lt_of_lt hleft))
      simp only [List.mem_cons, not_or] at hch
      rw [strrchrLoop, h.load_cons]
      show (if c ≠ 0 then _ else _) = _
      rw [if_pos h.ne_zero, if_neg fun heq => hch.1 heq.symm]
      exact ih h.tail hch.2 (Nat.lt_of_succ_lt_succ hleft)

/-- `strrchr` returns the place of the last such character. -/
theorem strrchrLoop_last {last : Option Nat} (h : b.Holds p (front ++ ch :: back))
    (hch : ch ∉ back) (hleft : (front ++ ch :: back).length < left) :
    strrchrLoop b ch left p last = .ok (some (p + front.length)) := by
  induction front generalizing p left last with
  | nil =>
      obtain ⟨left, rfl⟩ := Nat.exists_eq_succ_of_ne_zero (Nat.ne_of_gt (Nat.zero_lt_of_lt hleft))
      rw [List.nil_append] at h
      rw [strrchrLoop, h.load_cons]
      show (if ch ≠ 0 then _ else _) = _
      rw [if_pos h.ne_zero, if_pos rfl]
      exact strrchrLoop_not_mem h.tail hch (Nat.lt_of_succ_lt_succ hleft)
  | cons c front ih =>
      obtain ⟨left, rfl⟩ := Nat.exists_eq_succ_of_ne_zero (Nat.ne_of_gt (Nat.zero_lt_of_lt hleft))
      rw [List.cons_append] at h
      rw [strrchrLoop, h.load_cons]
      show (if c ≠ 0 then _ else _) = _
      rw [if_pos h.ne_zero, ih h.tail (Nat.lt_of_succ_lt_succ hleft), List.length_cons,
        Nat.add_assoc, Nat.add_comm 1]

theorem strrchr_last (h : b.Holds p (front ++ ch :: back)) (hch : ch ∉ back) :
    strrchr b p ch = .ok (some (p + front.length)) :=
  strrchrLoop_last h hch (Nat.lt_of_le_of_lt (Nat.le_add_left _ _) h.size)

/-! ## Writes that leave a string -/

theorem Buf.Holds.not_mem (h : b.Holds p s) : 0 ∉ s := h.str.not_mem

/-- A string and its zero, stored behind a string in place of its zero. -/
theorem Buf.Holds.put_append (h : b.Holds p t) (hs : 0 ∉ s)
    (hfit : p + t.length + s.length < b.size) :
    ∃ b', b.put (p + t.length) (s.length + 1) (strBytes s) = .ok b' ∧ b'.Holds p (t ++ s) ∧
      b'.size = b.size := by
  refine ⟨_, if_pos (by omega), ⟨?_, ?_⟩, rfl⟩
  · apply strAt_of_get (by simp [h.not_mem, hs])
    intro k hk
    rw [List.length_append] at hk
    show splice b.data (p + t.length) (s.length + 1) (strBytes s) (p + k) = (t ++ s).getD k 0
    by_cases hlt : k < t.length
    · rw [splice_outside (Or.inl (by omega)), h.str.get (Nat.le_of_lt hlt)]
      simp [List.getElem?_append_left hlt]
    · rw [splice_inside (by omega) (by omega), strBytes,
        show p + k - (p + t.length) = k - t.length by omega]
      simp [List.getElem?_append_right (Nat.le_of_not_lt hlt)]
  · show p + (t ++ s).length < b.size
    rw [List.length_append]
    omega

/-- A zero stored in a string cuts it there. -/
theorem Buf.Holds.cut (h : b.Holds p (front ++ back)) :
    ∃ b', b.store (p + front.length) 0 = .ok b' ∧ b'.Holds p front ∧ b'.size = b.size := by
  have hsize := h.size
  rw [List.length_append] at hsize
  have hmem := h.not_mem
  rw [List.mem_append, not_or] at hmem
  refine ⟨_, if_pos (by omega), ⟨?_, ?_⟩, rfl⟩
  · apply strAt_of_get hmem.1
    intro k hk
    show splice b.data (p + front.length) 1 (fun _ => 0) (p + k) = front.getD k 0
    by_cases hlt : k < front.length
    · rw [splice_outside (Or.inl (by omega)), h.str.get (by simp; omega)]
      simp [List.getElem?_append_left hlt]
    · obtain rfl : k = front.length := by omega
      rw [splice_inside (by omega) (by omega)]
      simp
  · show p + front.length < b.size
    omega

end

end OsTruth
