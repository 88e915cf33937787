/-
The descriptor table of `boot/loader.S` and `userprog/tss.c`, and the task state segment.

A selector gets the privilege level that the descriptor behind it says.  The segments of code and
data are flat, so the addresses of the kernel and of the processes are those of memory.

The processor looks for the base of the I/O permission bitmap in the upper half of the word that
`struct tss` calls `trace`, and `tss_init` writes the word behind it.  So the base is 0 and the
task state segment itself is the bitmap: a process may use almost every port although its `eflags`
have the I/O privilege level 0.
-/
import Mathlib.Tactic.IntervalCases
import OsTruth.Kernel.Entry
import OsTruth.Kernel.Pools

namespace OsTruth

open Processor

/-! ## Descriptors -/

structure GdtDesc where
  limitLowWord : BitVec 16
  baseLowWord : BitVec 16
  baseMidByte : BitVec 8
  attrLowByte : BitVec 8
  limitHighAttrHigh : BitVec 8
  baseHighByte : BitVec 8
  deriving DecidableEq

def makeGdtDesc (descAddr limit : Word) (attrLow attrHigh : BitVec 8) : GdtDesc where
  limitLowWord := (limit &&& 0x0000ffff).setWidth 16
  baseLowWord := (descAddr &&& 0x0000ffff).setWidth 16
  baseMidByte := ((descAddr &&& 0x00ff0000) >>> 16).setWidth 8
  attrLowByte := attrLow
  limitHighAttrHigh := (((limit &&& 0x000f0000) >>> 16) + attrHigh.setWidth 32).setWidth 8
  baseHighByte := (descAddr >>> 24).setWidth 8

namespace GdtDesc

/-- Two words `dd` of the loader. -/
def ofWords (low high : Word) : GdtDesc where
  limitLowWord := low.extractLsb' 0 16
  baseLowWord := low.extractLsb' 16 16
  baseMidByte := high.extractLsb' 0 8
  attrLowByte := high.extractLsb' 8 8
  limitHighAttrHigh := high.extractLsb' 16 8
  baseHighByte := high.extractLsb' 24 8

/-! What the processor reads from a descriptor. -/

def base (d : GdtDesc) : Word := d.baseHighByte ++ d.baseMidByte ++ d.baseLowWord

def rawLimit (d : GdtDesc) : BitVec 20 := d.limitHighAttrHigh.extractLsb' 0 4 ++ d.limitLowWord

/-- Granularity, default size, 64-bit code and the bit that is left to the system. -/
def flags (d : GdtDesc) : BitVec 4 := d.limitHighAttrHigh.extractLsb' 4 4

def limit (d : GdtDesc) : Nat :=
  if d.flags.getLsbD 3 then d.rawLimit.toNat * 4096 + 4095 else d.rawLimit.toNat

def present (d : GdtDesc) : Bool := d.attrLowByte.getLsbD 7

/-- A segment of code or data, not one of the system. -/
def isSegment (d : GdtDesc) : Bool := d.attrLowByte.getLsbD 4

def dpl (d : GdtDesc) : Nat := (d.attrLowByte.extractLsb' 5 2).toNat

end GdtDesc

/-- The descriptor that a selector refers to.  There is no local table. -/
def lookup (gdtLimit : Nat) (table : Nat → GdtDesc) (s : Selector) : Option GdtDesc :=
  if s.getLsbD 2 = false ∧ 8 * (s.toNat / 8) + 7 ≤ gdtLimit then some (table (s.toNat / 8))
  else none

def segmentLevel (gdtLimit : Nat) (table : Nat → GdtDesc) (s : Selector) : Option Nat :=
  (lookup gdtLimit table s).bind fun d => if d.present && d.isSegment then some d.dpl else none

/-! ## The table -/

def descCodeHigh4 : Word :=
  (0x00 <<< 24) + (1 <<< 23) + (1 <<< 22) + 0 + 0 + (0xf <<< 16) + (1 <<< 15) + 0 + (1 <<< 12) +
    (8 <<< 8) + 0x00

def descDataHigh4 : Word :=
  (0x00 <<< 24) + (1 <<< 23) + (1 <<< 22) + 0 + 0 + (0xf <<< 16) + (1 <<< 15) + 0 + (1 <<< 12) +
    (2 <<< 8) + 0x00

def descVideoHigh4 : Word :=
  (0x00 <<< 24) + (1 <<< 23) + (1 <<< 22) + 0 + 0 + 0 + (1 <<< 15) + 0 + (1 <<< 12) +
    (2 <<< 8) + 0x0b

/-- The table of the loader at 0x900, with the entries that it reserves.  When the loader has turned
on paging, the text screen is addressed in the kernel's part. -/
def loaderGdt : Nat → GdtDesc
  | 1 => .ofWords 0x0000FFFF descCodeHigh4
  | 2 => .ofWords 0x0000FFFF descDataHigh4
  | 3 => .ofWords 0x80000007 (descVideoHigh4 ||| 0xc0000000)
  | _ => .ofWords 0 0

def gdtAttrHigh : BitVec 8 := (1 <<< 7) + (1 <<< 6) + (0 <<< 5) + (0 <<< 4)

def gdtCodeAttrLowDpl3 : BitVec 8 := (1 <<< 7) + (3 <<< 5) + (1 <<< 4) + 8

def gdtDataAttrLowDpl3 : BitVec 8 := (1 <<< 7) + (3 <<< 5) + (1 <<< 4) + 2

def tssAttrHigh : BitVec 8 := (1 <<< 7) + (0 <<< 6) + (0 <<< 5) + (0 <<< 4) + 0

def tssAttrLow : BitVec 8 := (1 <<< 7) + (0 <<< 5) + (0 <<< 4) + 9

/-- `sizeof(tss)`. -/
def tssSize : Nat := 108

/-- The entries that `tss_init` writes at 0xc0000920, 0xc0000928 and 0xc0000930. -/
def tssInitGdt (tss : Word) (table : Nat → GdtDesc) : Nat → GdtDesc :=
  Function.update (Function.update (Function.update table
    4 (makeGdtDesc tss (BitVec.ofNat 32 tssSize - 1) tssAttrLow tssAttrHigh))
    5 (makeGdtDesc 0 0xfffff gdtCodeAttrLowDpl3 gdtAttrHigh))
    6 (makeGdtDesc 0 0xfffff gdtDataAttrLowDpl3 gdtAttrHigh)

def selectorTss : Selector := (4 <<< 3) + (0 <<< 2) + 0

/-- The limit that `tss_init` loads with the address of the table. -/
def gdtLimit : Nat := 8 * 7 - 1

/-- The descriptor that the processor finds for a selector. -/
def gdtEntry (tss : Word) (s : Selector) : Option GdtDesc :=
  lookup gdtLimit (tssInitGdt tss loaderGdt) s

/-! ## The task state segment -/

structure Tss where
  backlink : Word
  esp0 : Word
  ss0 : Word
  esp1 : Word
  ss1 : Word
  esp2 : Word
  ss2 : Word
  cr3 : Word
  eip : Word
  eflags : Word
  eax : Word
  ecx : Word
  edx : Word
  ebx : Word
  esp : Word
  ebp : Word
  esi : Word
  edi : Word
  es : Word
  cs : Word
  ss : Word
  ds : Word
  fs : Word
  gs : Word
  ldt : Word
  trace : Word
  ioBase : Word

namespace Tss

def zero : Tss := ⟨0, 0, 0, 0, 0, 0, 0, 0, 0, 0, 0, 0, 0, 0, 0, 0, 0, 0, 0, 0, 0, 0, 0, 0, 0, 0, 0⟩

def words (t : Tss) : List Word :=
  [t.backlink, t.esp0, t.ss0, t.esp1, t.ss1, t.esp2, t.ss2, t.cr3, t.eip, t.eflags, t.eax, t.ecx,
    t.edx, t.ebx, t.esp, t.ebp, t.esi, t.edi, t.es, t.cs, t.ss, t.ds, t.fs, t.gs, t.ldt, t.trace,
    t.ioBase]

/-- The bytes from the segment on, in front of those that follow in memory. -/
def bytes (t : Tss) (behind : Nat → BitVec 8) (i : Nat) : BitVec 8 :=
  if i < tssSize then ((t.words)[i / 4]?.getD 0).extractLsb' (8 * (i % 4)) 8
  else behind (i - tssSize)

end Tss

def tssInit : Tss := { Tss.zero with
  ss0 := selectorKStack.setWidth 32
  ioBase := BitVec.ofNat 32 tssSize }

def updateTssEsp (pthread : Word) (t : Tss) : Tss :=
  { t with esp0 := pthread + BitVec.ofNat 32 pgSize }

/-- The processor's check for the access to a byte at a port.  The base of the bitmap is the word
of 16 bits at offset 102. -/
def ioAllowed (tss : Nat → BitVec 8) (limit iopl cpl : Nat) (port : BitVec 16) : Bool :=
  let a := (tss 103 ++ tss 102).toNat + port.toNat / 8
  decide (cpl ≤ iopl) ||
    (decide (a + 1 ≤ limit) && !(tss (a + 1) ++ tss a).getLsbD (port.toNat % 8))

/-! ## Descriptors are read as they were made -/

theorem makeGdtDesc_base (descAddr limit : Word) (attrLow attrHigh : BitVec 8) :
    (makeGdtDesc descAddr limit attrLow attrHigh).base = descAddr := by
  have hlow : ∀ i, i < 16 → (65535#32).getLsbD i = true := by decide
  have hmid : ∀ i, i < 8 → (16711680#32).getLsbD (16 + i) = true := by decide
  apply BitVec.eq_of_getLsbD_eq
  intro i hi
  unfold GdtDesc.base makeGdtDesc
  simp only [BitVec.getLsbD_append, BitVec.getLsbD_setWidth, BitVec.getLsbD_ushiftRight,
    BitVec.getLsbD_and]
  by_cases h16 : i < 16
  · simp [h16, hlow i h16]
  by_cases h24 : i - 16 < 8
  · have hadd : 16 + (i - 16) = i := by omega
    have hmask := hmid (i - 16) h24
    rw [hadd] at hmask
    simp [h16, h24, hmask, hadd]
  · have hadd : 24 + (i - 16 - 8) = i := by omega
    have hlt : i - 16 - 8 < 8 := by omega
    simp [h16, h24, hadd, hlt]

/-- The byte that a limit and attributes share. -/
theorem makeGdtDesc_shared (descAddr limit : Word) (attrLow attrHigh : BitVec 8) :
    (makeGdtDesc descAddr limit attrLow attrHigh).limitHighAttrHigh.toNat =
      (limit.toNat / 65536 % 16 + attrHigh.toNat) % 256 := by
  have hmask : (limit &&& 0x000f0000) >>> 16 = (limit >>> 16) &&& 0xf := by
    have hf : (0x000f0000 : Word) >>> 16 = 0xf := by decide
    rw [BitVec.ushiftRight_and_distrib, hf]
  have hnibble : ((limit >>> 16) &&& 0xf).toNat = limit.toNat / 65536 % 16 := by
    rw [BitVec.toNat_and, BitVec.toNat_ushiftRight, Nat.shiftRight_eq_div_pow]
    exact Nat.and_two_pow_sub_one_eq_mod _ 4
  have hattr := attrHigh.isLt
  show ((((limit &&& 0x000f0000) >>> 16) + attrHigh.setWidth 32).setWidth 8).toNat = _
  rw [hmask, BitVec.toNat_setWidth, BitVec.toNat_add, hnibble, BitVec.toNat_setWidth]
  omega

/-- The limit and the flags are read as they were given exactly when the attributes leave the half
of the byte that belongs to the limit. -/
theorem makeGdtDesc_reads_iff {limit : Word} (hlimit : limit.toNat < 2 ^ 20) (descAddr : Word)
    (attrLow attrHigh : BitVec 8) :
    (makeGdtDesc descAddr limit attrLow attrHigh).rawLimit.toNat = limit.toNat ∧
      (makeGdtDesc descAddr limit attrLow attrHigh).flags.toNat = attrHigh.toNat / 16 ↔
    attrHigh.toNat % 16 = 0 := by
  have hshared := makeGdtDesc_shared descAddr limit attrLow attrHigh
  have hattr := attrHigh.isLt
  have hlow : (makeGdtDesc descAddr limit attrLow attrHigh).limitLowWord.toNat =
      limit.toNat % 65536 := by
    show ((limit &&& 0x0000ffff).setWidth 16).toNat = _
    rw [BitVec.toNat_setWidth, BitVec.toNat_and]
    have hand : limit.toNat &&& (0x0000ffff : Word).toNat = limit.toNat % 65536 :=
      Nat.and_two_pow_sub_one_eq_mod _ 16
    rw [hand]
    omega
  have hraw : (makeGdtDesc descAddr limit attrLow attrHigh).rawLimit.toNat =
      (makeGdtDesc descAddr limit attrLow attrHigh).limitHighAttrHigh.toNat % 16 * 65536 +
        limit.toNat % 65536 := by
    unfold GdtDesc.rawLimit
    rw [BitVec.toNat_append, BitVec.extractLsb'_toNat, hlow, Nat.shiftRight_zero,
      ← Nat.shiftLeft_add_eq_or_of_lt (by omega), Nat.shiftLeft_eq]
  have hflags : (makeGdtDesc descAddr limit attrLow attrHigh).flags.toNat =
      (makeGdtDesc descAddr limit attrLow attrHigh).limitHighAttrHigh.toNat / 16 % 16 := by
    unfold GdtDesc.flags
    rw [BitVec.extractLsb'_toNat, Nat.shiftRight_eq_div_pow]
  rw [hraw, hflags, hshared]
  omega

/-! ## The descriptor table -/

theorem loaderGdt_level : ∀ i, i < 7 →
    ((loaderGdt i).present && (loaderGdt i).isSegment) = decide (1 ≤ i ∧ i ≤ 3) ∧
      (loaderGdt i).dpl = 0 := by
  decide

theorem loaderGdt_place : ∀ i, i < 4 → i ≠ 0 →
    (loaderGdt i).base = (if i = 3 then 0xc00b8000 else 0) ∧
      (loaderGdt i).limit = if i = 3 then 0x7fff else 0xffffffff := by
  decide

variable (tss : Word) {i : Nat}

/-- The segments are those of the loader and, at level 3, those of `tss_init`. -/
theorem tssInitGdt_level (hi : i < 7) :
    ((tssInitGdt tss loaderGdt i).present && (tssInitGdt tss loaderGdt i).isSegment) =
        decide (i ≠ 0 ∧ i ≠ 4) ∧
      (tssInitGdt tss loaderGdt i).dpl = if i = 5 ∨ i = 6 then 3 else 0 := by
  unfold tssInitGdt
  by_cases h6 : i = 6
  · rw [h6, Function.update_self]
    decide
  rw [Function.update_of_ne h6]
  by_cases h5 : i = 5
  · rw [h5, Function.update_self]
    decide
  rw [Function.update_of_ne h5]
  by_cases h4 : i = 4
  · have hdpl : (tssAttrLow.extractLsb' 5 2).toNat = 0 := by decide
    have hsystem : tssAttrLow.getLsbD 4 = false := by decide
    rw [h4, Function.update_self, if_neg (by omega)]
    refine ⟨?_, hdpl⟩
    show (tssAttrLow.getLsbD 7 && tssAttrLow.getLsbD 4) = _
    rw [hsystem, Bool.and_false]
    rfl
  rw [Function.update_of_ne h4, if_neg (by omega), (loaderGdt_level i hi).1,
    (loaderGdt_level i hi).2]
  exact ⟨decide_eq_decide.mpr (by omega), rfl⟩

theorem tssInitGdt_place (hi : i < 7) (h0 : i ≠ 0) (h4 : i ≠ 4) :
    (tssInitGdt tss loaderGdt i).base = (if i = 3 then 0xc00b8000 else 0) ∧
      (tssInitGdt tss loaderGdt i).limit = if i = 3 then 0x7fff else 0xffffffff := by
  unfold tssInitGdt
  by_cases h6 : i = 6
  · rw [h6, Function.update_self]
    decide
  rw [Function.update_of_ne h6]
  by_cases h5 : i = 5
  · rw [h5, Function.update_self]
    decide
  rw [Function.update_of_ne h5, Function.update_of_ne h4]
  exact loaderGdt_place i (by omega) h0

/-- A selector has the level of its descriptor, and the segments are flat, but for the text
screen. -/
theorem segments_flat (s : Selector) :
    segmentLevel gdtLimit (tssInitGdt tss loaderGdt) s = gdt s ∧
      ∀ d, gdtEntry tss s = some d → (d.present && d.isSegment) = true →
        d.base = (if s.toNat / 8 = 3 then 0xc00b8000 else 0) ∧
          d.limit = if s.toNat / 8 = 3 then 0x7fff else 0xffffffff := by
  have hti : s.getLsbD 2 = decide (s.toNat / 4 % 2 = 1) := by
    rw [← BitVec.testBit_toNat, Nat.testBit_eq_decide_div_mod_eq]
  unfold segmentLevel gdtEntry lookup gdt
  by_cases hin : s.getLsbD 2 = false ∧ 8 * (s.toNat / 8) + 7 ≤ gdtLimit
  · have hglobal : ¬s.toNat / 4 % 2 = 1 := by
      rw [← decide_eq_false_iff_not, ← hti]
      exact hin.1
    have hi : s.toNat / 8 < 7 := by
      have hlimit : gdtLimit = 55 := rfl
      omega
    obtain ⟨hseg, hdpl⟩ := tssInitGdt_level tss hi
    rw [if_pos hin, Option.bind_some, hseg, hdpl]
    constructor
    · grind
    · intro d hd hsegment
      have hentry : tssInitGdt tss loaderGdt (s.toNat / 8) = d := Option.some.inj hd
      rw [← hentry, hseg, decide_eq_true_iff] at hsegment
      rw [← hentry]
      exact tssInitGdt_place tss hi hsegment.1 hsegment.2
  · have hout : s.toNat / 4 % 2 = 1 ∨ 7 ≤ s.toNat / 8 := by
      by_contra hnot
      have hlimit : gdtLimit = 55 := rfl
      have heven : ¬s.toNat / 4 % 2 = 1 := fun h => hnot (Or.inl h)
      exact hin ⟨by rw [hti, decide_eq_false heven], by omega⟩
    rw [if_neg hin, if_neg (by omega), if_neg (by omega)]
    exact ⟨rfl, fun d hd => absurd hd (Option.some_ne_none d).symm⟩

/-! ## Ports -/

/-- A bit of the bitmap is a bit of a word of the segment. -/
theorem Tss.bytes_bit (t : Tss) (behind : Nat → BitVec 8) {p : Nat} (hp : p < 8 * tssSize) :
    (t.bytes behind (p / 8)).getLsbD (p % 8) = ((t.words)[p / 32]?.getD 0).getLsbD (p % 32) := by
  have hsize : tssSize = 108 := rfl
  have hword : p / 8 / 4 = p / 32 := by omega
  have hlow : p % 8 < 8 := by omega
  have hbit : 8 * (p / 8 % 4) + p % 8 = p % 32 := by omega
  unfold bytes
  rw [if_pos (by omega), BitVec.getLsbD_extractLsb', hword, hbit, decide_eq_true hlow,
    Bool.true_and]

/-- The words of the segment when a process runs. -/
theorem tssInit_words (pthread : Word) (j : Nat) :
    ((updateTssEsp pthread tssInit).words)[j]?.getD 0 =
      if j = 1 then pthread + BitVec.ofNat 32 pgSize
      else if j = 2 then 0x10
      else if j = 26 then 0x6c
      else 0 := by
  by_cases hj : j < 27
  · interval_cases j <;> rfl
  · have hlen : (updateTssEsp pthread tssInit).words.length = 27 := rfl
    rw [List.getElem?_eq_none (by omega), if_neg (by omega), if_neg (by omega),
      if_neg (by omega)]
    rfl

theorem tssInit_bit (pthread : Word) (p : Nat) :
    (((updateTssEsp pthread tssInit).words)[p / 32]?.getD 0).getLsbD (p % 32) =
      (decide (p / 32 = 1) && (pthread + BitVec.ofNat 32 pgSize).getLsbD (p % 32) ||
        decide (p = 68 ∨ p = 834 ∨ p = 835 ∨ p = 837 ∨ p = 838)) := by
  have hss0 : ∀ k, k < 32 → (0x10 : Word).getLsbD k = decide (k = 4) := by decide
  have hbase : ∀ k, k < 32 → (0x6c : Word).getLsbD k =
      decide (k = 2 ∨ k = 3 ∨ k = 5 ∨ k = 6) := by decide
  have hk : p % 32 < 32 := Nat.mod_lt _ (by omega)
  rw [tssInit_words]
  by_cases h1 : p / 32 = 1
  · have hnone : ¬(p = 68 ∨ p = 834 ∨ p = 835 ∨ p = 837 ∨ p = 838) := by omega
    rw [if_pos h1, decide_eq_true h1, decide_eq_false hnone, Bool.true_and, Bool.or_false]
  rw [if_neg h1, decide_eq_false h1, Bool.false_and, Bool.false_or]
  by_cases h2 : p / 32 = 2
  · rw [if_pos h2, hss0 _ hk]
    exact decide_eq_decide.mpr (by omega)
  rw [if_neg h2]
  by_cases h26 : p / 32 = 26
  · rw [if_pos h26, hbase _ hk]
    exact decide_eq_decide.mpr (by omega)
  · have hnone : ¬(p = 68 ∨ p = 834 ∨ p = 835 ∨ p = 837 ∨ p = 838) := by omega
    rw [if_neg h26, decide_eq_false hnone]
    exact BitVec.getLsbD_zero

/-- The limit of the task state segment counts pages. -/
theorem gdtEntry_tss : ∃ d, gdtEntry tss selectorTss = some d ∧ d.base = tss ∧
    d.limit = 107 * 4096 + 4095 := by
  refine ⟨makeGdtDesc tss (BitVec.ofNat 32 tssSize - 1) tssAttrLow tssAttrHigh, rfl,
    makeGdtDesc_base .., ?_⟩
  have hsmall : (BitVec.ofNat 32 tssSize - 1).toNat < 2 ^ 20 := by decide
  obtain ⟨hraw, hattr⟩ := (makeGdtDesc_reads_iff hsmall tss tssAttrLow tssAttrHigh).mpr (by decide)
  have hflags : (makeGdtDesc tss (BitVec.ofNat 32 tssSize - 1) tssAttrLow tssAttrHigh).flags = 8 :=
    BitVec.eq_of_toNat_eq hattr
  unfold GdtDesc.limit
  rw [hflags, hraw]
  decide

/-- The word where the processor finds the base of the bitmap is the upper half of `trace`. -/
theorem tssInit_bitmapBase (pthread : Word) (behind : Nat → BitVec 8) :
    ((updateTssEsp pthread tssInit).bytes behind 103 ++
      (updateTssEsp pthread tssInit).bytes behind 102).toNat = 0 := by
  have htrace := tssInit_words pthread 25
  rw [if_neg (by decide), if_neg (by decide), if_neg (by decide)] at htrace
  have h103 : (updateTssEsp pthread tssInit).bytes behind 103 =
      ((((updateTssEsp pthread tssInit).words)[25]?.getD 0).extractLsb' 24 8) := rfl
  have h102 : (updateTssEsp pthread tssInit).bytes behind 102 =
      ((((updateTssEsp pthread tssInit).words)[25]?.getD 0).extractLsb' 16 8) := rfl
  rw [h103, h102, htrace]
  rfl

/-- A process may use a port exactly when its bit in the task state segment is clear: these are
the ports below 864 but for five of them and those that go with the bits of `esp0`.  For the ports
from 864 on the bits are those of the memory behind the segment. -/
theorem ioAllowed_iff (pthread : Word) (behind : Nat → BitVec 8) (port : BitVec 16) :
    ∃ d, gdtEntry tss selectorTss = some d ∧ d.base = tss ∧
      (ioAllowed ((updateTssEsp pthread tssInit).bytes behind) d.limit 0 3 port ↔
        if port.toNat < 864 then
          ¬(port.toNat / 32 = 1 ∧
            (pthread + BitVec.ofNat 32 pgSize).getLsbD (port.toNat % 32) = true) ∧
          port.toNat ∉ [68, 834, 835, 837, 838]
        else (behind (port.toNat / 8 - 108)).getLsbD (port.toNat % 8) = false) := by
  obtain ⟨d, hentry, hbase, hlimit⟩ := gdtEntry_tss tss
  refine ⟨d, hentry, hbase, ?_⟩
  have hport := port.isLt
  have hbit : port.toNat % 8 < 8 := Nat.mod_lt _ (by omega)
  have hin : port.toNat / 8 + 1 ≤ d.limit := by omega
  unfold ioAllowed
  rw [tssInit_bitmapBase, Nat.zero_add]
  dsimp only
  rw [decide_eq_true hin, BitVec.getLsbD_append, if_pos hbit]
  by_cases hlow : port.toNat < 864
  · have hsize : tssSize = 108 := rfl
    rw [if_pos hlow, Tss.bytes_bit _ _ (by omega), tssInit_bit]
    simp [imp_iff_not_or]
  · have hsize : tssSize = 108 := rfl
    unfold Tss.bytes
    rw [if_neg hlow, if_neg (by omega), hsize]
    simp

end OsTruth
