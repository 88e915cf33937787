/-
`printf` of `lib/stdio.c` and `printk` of `lib/kernel/stdio-kernel.c`, up to `console_put_str`.

The string that `vsprintf` leaves ends in the zeros that its array began with, so the two print
the text and nothing behind it.
-/
import OsTruth.Lib.Stdio

namespace OsTruth

open ByteString

/-- The string that `console_put_str` gets from `printf`.  `sys_write` copies it without its zero
into an array of zeros. -/
def printf (format : Buf) (index : Nat) (ap : List VaArg) : Except Fault Str := do
  let r ← vsprintf (.zero 1024) format index ap
  let count ← strlen r.2 0
  let tmpBuf ← (Buf.zero 1024).put 0 count r.2.data
  readStr tmpBuf tmpBuf.size 0

/-- The string that `console_put_str` gets from `printk`. -/
def printk (format : Buf) (index : Nat) (ap : List VaArg) : Except Fault Str := do
  let r ← vsprintf (.zero 1024) format index ap
  readStr r.2 r.2.size 0

section

variable {b format : Buf} {p q : Nat} {s : Str} {ps : List Piece} {ap : List VaArg}

theorem readStr_holds (h : b.Holds p s) : readStr b b.size p = .ok s :=
  readStr_eq h.str h.size (Nat.lt_of_le_of_lt (Nat.le_add_left _ _) h.size)

/-- A string copied without its zero into zeros. -/
theorem copied_holds (h : b.Holds 0 s) {n : Nat} (hlen : s.length < n) :
    ∃ t, (Buf.zero n).put 0 s.length b.data = .ok t ∧ t.Holds 0 s := by
  refine ⟨_, if_pos (by show 0 + s.length ≤ n; omega), ?_, by show 0 + s.length < n; omega⟩
  apply strAt_of_get h.not_mem
  intro k hk
  have hget := h.str.get hk
  show splice (fun _ => 0) 0 s.length b.data (0 + k) = s.getD k 0
  by_cases hlt : k < s.length
  · rw [splice_inside (by omega) (by omega), ← hget, Nat.zero_add, Nat.sub_zero]
  · rw [splice_outside (by omega)]
    simp [List.getElem?_eq_none (Nat.le_of_not_lt hlt)]

theorem zeroed_prints {n : Nat} (hps : ∀ x ∈ ps, x.Valid)
    (hchr : ∀ w, .chr w ∈ ps → w.toUInt8 ≠ 0) (hf : format.Holds q (formatOf ps))
    (hroom : (textOf ps).length < n) (ap : List VaArg) :
    PrintsString ps (vsprintf (.zero n) format q (argsOf ps ++ ap)) :=
  (vsprintf_string hps hf hroom (textOf_not_mem hps hchr)).mpr (Or.inr rfl)

/-- Both print exactly the text, if it is shorter than their array. -/
theorem printf_prints (hps : ∀ x ∈ ps, x.Valid) (hchr : ∀ w, .chr w ∈ ps → w.toUInt8 ≠ 0)
    (hf : format.Holds q (formatOf ps)) (hroom : (textOf ps).length < 1024) :
    printf format q (argsOf ps ++ ap) = .ok (textOf ps) ∧
      printk format q (argsOf ps ++ ap) = .ok (textOf ps) := by
  obtain ⟨b', hrun, hb'⟩ := zeroed_prints hps hchr hf hroom ap
  obtain ⟨t, hput, ht⟩ := copied_holds hb' hroom
  have hbind : ∀ {α β : Type} (a : α) (f : α → Except Fault β), (Except.ok a >>= f) = f a :=
    fun _ _ => rfl
  constructor
  · rw [printf, hrun, hbind, strlen_eq hb', hbind, hput, hbind]
    exact readStr_holds ht
  · rw [printk, hrun, hbind]
    exact readStr_holds hb'

/-- `printf("a%d", 5)`. -/
theorem printf_prints_number :
    printf (strBuf (formatOf [.lit 97, .dec 5])) 0 (argsOf [.lit 97, .dec 5] ++ []) =
        .ok (textOf [.lit 97, .dec 5]) ∧
      printk (strBuf (formatOf [.lit 97, .dec 5])) 0 (argsOf [.lit 97, .dec 5] ++ []) =
        .ok (textOf [.lit 97, .dec 5]) := by
  refine printf_prints (fun x hx => ?_) (by simp) (holds_strBuf (by decide)) (by decide)
  have hx : x = .lit 97 ∨ x = .dec 5 := by simpa using hx
  rcases hx with rfl | rfl
  · exact ⟨by decide, by decide⟩
  · exact trivial

end

end OsTruth
