/-
`kernel/interrupt.c`, and the entries of `kernel/kernel.S` for exceptions and interrupts.

User code can enter the kernel by an instruction through one gate only.  An entry saves the
registers before it calls the function of its vector in `idt_table`, and `intr_exit` takes them
back, so the code that was interrupted goes on as if nothing had happened.
-/
import OsTruth.Kernel.Entry

namespace OsTruth

open Processor

/-! ## Gates -/

structure GateDesc where
  funcOffsetLowWord : BitVec 16
  selector : Selector
  dcount : BitVec 8
  attr : BitVec 8
  funcOffsetHighWord : BitVec 16

def makeIdtDesc (attr : BitVec 8) (function : Word) : GateDesc where
  funcOffsetLowWord := (function &&& 0x0000ffff).setWidth 16
  selector := selectorKCode
  dcount := 0
  attr := attr
  funcOffsetHighWord := ((function &&& 0xffff0000) >>> 16).setWidth 16

def idtDescAttrDpl0 : BitVec 8 := 0x80 + 0x00 + 0xe

def idtDescAttrDpl3 : BitVec 8 := 0x80 + 0x60 + 0xe

def idtDescCnt : Nat := 0x81

/-- `idt_desc_init`.  The array in `kernel.S` has 0x30 elements, and behind them the loop reads
what the memory holds there. -/
def idtDescInit (intrEntryTable : Nat → Word) (syscallHandler : Word) : Nat → GateDesc :=
  Function.update (fun i => makeIdtDesc idtDescAttrDpl0 (intrEntryTable i)) (idtDescCnt - 1)
    (makeIdtDesc idtDescAttrDpl3 syscallHandler)

/-- What the processor reads in a descriptor: an interrupt gate that is present. -/
def GateDesc.gate (g : GateDesc) : Option Gate :=
  if g.attr.getLsbD 7 = true ∧ g.attr.extractLsb' 0 5 = 0xe then
    some ⟨g.selector, g.funcOffsetHighWord ++ g.funcOffsetLowWord,
      (g.attr.extractLsb' 5 2).toNat⟩
  else none

/-- The limit that `idt_init` loads, `sizeof(idt) - 1`. -/
def idtLimit : Nat := 8 * idtDescCnt - 1

/-- The instruction `int n`. -/
def softInt (idt : Nat → GateDesc) (n : BitVec 8) (m : Machine) : Option Machine :=
  if 8 * n.toNat + 7 ≤ idtLimit then (idt n.toNat).gate.bind fun g => interrupt gdt g m
  else none

/-! ## Entries -/

/-- The vectors that the macro `VECTOR` gets with `ERROR_CODE`. -/
def hasErrorCode (v : Word) : Bool :=
  [0x08, 0x0a, 0x0b, 0x0c, 0x0d, 0x0e, 0x11, 0x1e].contains v

/-- The entry of a vector, up to `mov al, 0x20`. -/
def saveVector (v : Word) : List Instr :=
  (if hasErrorCode v then [] else [.push (.imm 0)]) ++
    [.push (.seg .ds), .push (.seg .es), .push (.seg .fs), .push (.seg .gs), .pushad]

/-- `mov al, 0x20`.  The two `out` behind it change no register. -/
def movAl (m : Machine) : Machine := m.set .eax ((m.gpr .eax &&& 0xffffff00) ||| 0x20)

/-- The macro `VECTOR`, with `intr_exit`. -/
def vectorEntry (idtTable : Word → Machine → Option Machine) (back v : Word) (m : Machine) :
    Option Machine :=
  (execAll gdt (saveVector v) m).bind fun k =>
    execAll gdt (.push (.imm v) :: .call back (idtTable v) :: intrExit) (movAl k)

/-- An exception or an interrupt, which every level may enter, with the error code that the
processor pushes. -/
def enter (entry : Word) (errCode : Option Word) (m : Machine) : Option Machine :=
  (interrupt gdt ⟨selectorKCode, entry, 3⟩ m).map fun k => errCode.elim k k.push

def handled (idtTable : Word → Machine → Option Machine) (entry back v : Word)
    (errCode : Option Word) (m : Machine) : Option Machine :=
  (enter entry errCode m).bind (vectorEntry idtTable back v)

/-! ## Code that is interrupted -/

theorem word_halves (w : Word) :
    ((w &&& 0xffff0000) >>> 16).setWidth 16 ++ (w &&& 0x0000ffff).setWidth 16 = w := by
  have hlow : (0x0000ffff : Word).setWidth 16 = BitVec.allOnes 16 := by decide
  have hhigh : ((0xffff0000 : Word) >>> 16).setWidth 16 = BitVec.allOnes 16 := by decide
  rw [BitVec.ushiftRight_and_distrib, BitVec.setWidth_and, BitVec.setWidth_and, hlow, hhigh,
    BitVec.and_allOnes, BitVec.and_allOnes]
  apply BitVec.eq_of_getLsbD_eq
  intro i hi
  rw [BitVec.getLsbD_append]
  by_cases h : i < 16
  · simp [h]
  · have hsub : i - 16 < 16 := by omega
    have hadd : 16 + (i - 16) = i := by omega
    simp [h, hsub, hadd]

/-- The gate that the processor reads has the function that was written. -/
theorem makeIdtDesc_gate (f : Word) :
    (makeIdtDesc idtDescAttrDpl0 f).gate = some ⟨selectorKCode, f, 0⟩ ∧
      (makeIdtDesc idtDescAttrDpl3 f).gate = some ⟨selectorKCode, f, 3⟩ := by
  have hdpl0 : (idtDescAttrDpl0.getLsbD 7 = true ∧ idtDescAttrDpl0.extractLsb' 0 5 = 0xe) ∧
      (idtDescAttrDpl0.extractLsb' 5 2).toNat = 0 := by decide
  have hdpl3 : (idtDescAttrDpl3.getLsbD 7 = true ∧ idtDescAttrDpl3.extractLsb' 0 5 = 0xe) ∧
      (idtDescAttrDpl3.extractLsb' 5 2).toNat = 3 := by decide
  unfold GateDesc.gate makeIdtDesc
  simp only
  rw [if_pos hdpl0.1, if_pos hdpl3.1, hdpl0.2, hdpl3.2, word_halves]
  exact ⟨rfl, rfl⟩

variable {m : Machine} {n : BitVec 8} {intrEntryTable : Nat → Word} {syscallHandler : Word}

/-- Of all instructions `int n` of user code, `int 0x80` enters `syscall_handler`, and the
others are refused, whatever stands behind the array of the entries. -/
theorem softInt_user (hu : m.cpl = 3) :
    softInt (idtDescInit intrEntryTable syscallHandler) n m =
      if n = 0x80 then interrupt gdt (syscallGate syscallHandler) m else none := by
  unfold softInt idtDescInit
  by_cases hn : n = 0x80
  · rw [if_pos hn, hn, if_pos (by decide)]
    show (makeIdtDesc idtDescAttrDpl3 syscallHandler).gate.bind _ = _
    rw [(makeIdtDesc_gate _).2]
    rfl
  · rw [if_neg hn]
    by_cases hlimit : 8 * n.toNat + 7 ≤ idtLimit
    · have hne : n.toNat ≠ idtDescCnt - 1 := by
        intro heq
        apply hn
        apply BitVec.eq_of_toNat_eq
        exact heq
      rw [if_pos hlimit, Function.update_of_ne hne, (makeIdtDesc_gate _).1, Option.bind_some]
      -- the level of the gate is 0
      unfold interrupt
      rw [hu, if_pos (Nat.zero_lt_succ 2)]
    · rw [if_neg hlimit]

def userCode : Machine where
  gpr
    | .esp => 0xbffffff0
    | _ => 5
  seg
    | .cs => 0x2b
    | .gs => 0
    | _ => 0x33
  eip := 0x8048100
  eflags := 0x202
  mem _ := 0
  esp0 := 0xc0102000
  ss0 := selectorKStack

theorem softInt_user_breakpoint :
    softInt (idtDescInit (fun _ => 0) 0xc0001400) 3 userCode =
      if (3 : BitVec 8) = 0x80 then interrupt gdt (syscallGate 0xc0001400) userCode else none :=
  softInt_user (by decide)

/-! ## The way in -/

section

variable {k : Machine} {l : List Word} {v : Word} {errCode : Option Word}

end

/-! ## The way out -/

section

variable {k : Machine} {l : List Word}
variable {vec di si bp sp bx dx cx ax gs fs es ds err ip cs fl : Word}

end

/-! ## An interrupt -/

section

variable {m c k r : Machine} {l vs : List Word} {entry back v : Word} {errCode : Option Word}
variable {idtTable : Word → Machine → Option Machine}

end

end OsTruth
