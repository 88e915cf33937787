/-
`kernel/kernel.S`: the system call entry and the way out of an interrupt.

The frame on the kernel stack is `struct intr_stack` of `thread/thread.h`.  The entry
builds it from the registers of the interrupted code and `intr_exit` takes the registers
from it, so the code in between passes a result by changing one field.
-/
import OsTruth.Library.Processor

namespace OsTruth

open Processor

/-! ## Descriptors -/

def selectorKCode : Selector := 0x8

def selectorKStack : Selector := 0x10

/-- The privilege levels of the code and data segments of the descriptor table: code,
data and video segments of the kernel, then code and data segments of the user. -/
def gdt (s : Selector) : Option Nat :=
  if s.toNat / 4 = 2 ∨ s.toNat / 4 = 4 ∨ s.toNat / 4 = 6 then some 0
  else if s.toNat / 4 = 10 ∨ s.toNat / 4 = 12 then some 3
  else none

def syscallGate (syscallHandler : Word) : Gate where
  selector := selectorKCode
  offset := syscallHandler
  dpl := 3

/-! ## Routines -/

/-- `syscall_handler` up to the call. -/
def saveContext : List Instr :=
  [.push (.imm 0), .push (.seg .ds), .push (.seg .es), .push (.seg .fs), .push (.seg .gs),
    .pushad, .push (.imm 0x80), .push (.reg .edx), .push (.reg .ecx), .push (.reg .ebx)]

def intrExit : List Instr :=
  [.add .esp 4, .popad, .popSeg .gs, .popSeg .fs, .popSeg .es, .popSeg .ds, .add .esp 4,
    .iretd]

/-- `syscall_handler`.  `table` is `syscall_table` and `back` the address after the
call. -/
def syscallHandler (table : Word → Machine → Option Machine) (back : Word) : List Instr :=
  saveContext ++ .call back (fun m => table (m.gpr .eax) m) :: .add .esp 12 ::
    .store .esp 32 .eax :: intrExit

/-! ## The frame -/

structure IntrStack where
  vecNo : Word
  edi : Word
  esi : Word
  ebp : Word
  espDummy : Word
  ebx : Word
  edx : Word
  ecx : Word
  eax : Word
  gs : Word
  fs : Word
  es : Word
  ds : Word
  errCode : Word
  eip : Word
  cs : Word
  eflags : Word
  esp : Word
  ss : Word

namespace IntrStack

def words (f : IntrStack) : List Word :=
  [f.vecNo, f.edi, f.esi, f.ebp, f.espDummy, f.ebx, f.edx, f.ecx, f.eax, f.gs, f.fs, f.es,
    f.ds, f.errCode, f.eip, f.cs, f.eflags, f.esp, f.ss]

/-- The registers that the frame describes. -/
def regs (f : IntrStack) : Regs where
  gpr
    | .eax => f.eax
    | .ecx => f.ecx
    | .edx => f.edx
    | .ebx => f.ebx
    | .esp => f.esp
    | .ebp => f.ebp
    | .esi => f.esi
    | .edi => f.edi
  seg
    | .cs => f.cs.setWidth 16
    | .ss => f.ss.setWidth 16
    | .ds => f.ds.setWidth 16
    | .es => f.es.setWidth 16
    | .fs => f.fs.setWidth 16
    | .gs => f.gs.setWidth 16
  eip := f.eip
  eflags := f.eflags

def ofRegs (r : Regs) (espDummy : Word) : IntrStack where
  vecNo := 0x80
  edi := r.gpr .edi
  esi := r.gpr .esi
  ebp := r.gpr .ebp
  espDummy := espDummy
  ebx := r.gpr .ebx
  edx := r.gpr .edx
  ecx := r.gpr .ecx
  eax := r.gpr .eax
  gs := (r.seg .gs).setWidth 32
  fs := (r.seg .fs).setWidth 32
  es := (r.seg .es).setWidth 32
  ds := (r.seg .ds).setWidth 32
  errCode := 0
  eip := r.eip
  cs := (r.seg .cs).setWidth 32
  eflags := r.eflags
  esp := r.gpr .esp
  ss := (r.seg .ss).setWidth 32

theorem regs_ofRegs (r : Regs) (espDummy : Word) : (ofRegs r espDummy).regs = r := by
  ext s
  · cases s <;> rfl
  · cases s <;> simp [regs, ofRegs]
  · rfl
  · rfl

/-- `eax` of the frame is `eax` of the registers. -/
theorem regs_eax (f : IntrStack) (w : Word) :
    { f with eax := w }.regs = { f.regs with gpr := Function.update f.regs.gpr .eax w } := by
  ext s
  · cases s <;> simp [regs]
  · cases s <;> rfl
  · rfl
  · rfl

end IntrStack

/-- A register file that code at privilege level 3 can have: its code and stack segments
are of this level, and each of the other segment registers has a null selector, which may be
1 to 3 as well as 0, or a segment of this level too. -/
structure UserRegs (r : Regs) : Prop where
  cs : rpl (r.seg .cs) = 3 ∧ gdt (r.seg .cs) = some 3
  ss : rpl (r.seg .ss) = 3 ∧ gdt (r.seg .ss) = some 3
  data : ∀ s ∈ [Seg.ds, .es, .fs, .gs], null (r.seg s) = true ∨ gdt (r.seg s) = some 3
  vm : vm r.eflags = false

/-! ## The way in -/

section
variable {m k : Machine} {handlerAt : Word} {l : List Word}

variable (handlerAt) in
/-- `int 0x80` in user code. -/
theorem interrupt_syscall (hu : UserRegs m.toRegs) :
    ∃ k, interrupt gdt (syscallGate handlerAt) m = some k ∧
      k.Stack [m.eip, (m.seg .cs).setWidth 32, m.eflags, m.gpr .esp,
        (m.seg .ss).setWidth 32] ∧
      k.cpl = 0 ∧ k.gpr = Function.update m.gpr .esp (m.esp0 - 20) ∧
      ∀ s ∈ [Seg.ds, .es, .fs, .gs], k.seg s = m.seg s := by
  have hcpl : m.cpl = 3 := hu.cs.1
  have hgdt : gdt (syscallGate handlerAt).selector = some 0 :=
    (by decide : gdt selectorKCode = some 0)
  have hdpl : ¬ (syscallGate handlerAt).dpl < 3 := by simp [syscallGate]
  -- the stack of level 0 is empty
  have h0 : ({ m with gpr := Function.update m.gpr .esp m.esp0 }.setSeg .ss m.ss0).Stack [] :=
    trivial
  have h1 := h0.push (w := m.value (.seg .ss)) (by decide)
  have h2 := h1.push (w := m.gpr .esp) (by simp)
  have h3 := h2.push (w := m.eflags) (by simp)
  have h4 := h3.push (w := m.value (.seg .cs)) (by simp)
  have h5 := h4.push (w := m.eip) (by simp)
  unfold interrupt
  simp only [hcpl, hgdt, hdpl, if_false, Nat.not_lt_zero, Nat.zero_lt_succ, if_true]
  refine ⟨_, rfl, h5, ?_, ?_, ?_⟩
  · simp [Regs.cpl, rpl, syscallGate, selectorKCode]
  · simp
    congr 1
    bv_omega
  · intro s hs
    simp only [List.mem_cons, List.not_mem_nil, or_false] at hs
    rcases hs with rfl | rfl | rfl | rfl <;> rfl

/-- What the entry leaves on the stack: the arguments and the frame. -/
theorem saveContext_spec (hk : k.Stack l) (hlen : 4 * (l.length + 17) ≤ 2 ^ 32) :
    ∃ c, execAll gdt saveContext k = some c ∧
      c.Stack ([k.gpr .ebx, k.gpr .ecx, k.gpr .edx] ++ [0x80, k.gpr .edi, k.gpr .esi,
        k.gpr .ebp, k.gpr .esp - 20, k.gpr .ebx, k.gpr .edx, k.gpr .ecx, k.gpr .eax,
        (k.seg .gs).setWidth 32, (k.seg .fs).setWidth 32, (k.seg .es).setWidth 32,
        (k.seg .ds).setWidth 32, 0] ++ l) ∧
      c.seg = k.seg ∧ c.gpr = Function.update k.gpr .esp (k.gpr .esp - 68) := by
  have h1 := hk.push (w := k.value (.imm 0)) (by omega)
  have h2 := h1.push (w := k.value (.seg .ds)) (by simp only [List.length_cons]; omega)
  have h3 := h2.push (w := k.value (.seg .es)) (by simp only [List.length_cons]; omega)
  have h4 := h3.push (w := k.value (.seg .fs)) (by simp only [List.length_cons]; omega)
  have h5 := h4.push (w := k.value (.seg .gs)) (by simp only [List.length_cons]; omega)
  have h6 := h5.pushad (by simp only [List.length_cons]; omega)
  have h7 := h6.push (w := k.value (.imm 0x80)) (by simp only [List.length_cons]; omega)
  have h8 := h7.push (w := k.value (.reg .edx)) (by simp only [List.length_cons]; omega)
  have h9 := h8.push (w := k.value (.reg .ecx)) (by simp only [List.length_cons]; omega)
  have h10 := h9.push (w := k.value (.reg .ebx)) (by simp only [List.length_cons]; omega)
  have hsp : k.gpr .esp - 4#32 - 4#32 - 4#32 - 4#32 - 4#32 = k.gpr .esp - 20#32 := by
    bv_omega
  refine ⟨_, rfl, ?_, rfl, ?_⟩
  · simpa [Machine.value, Machine.pushad, hsp] using h10
  · simp [Machine.value, Machine.pushad, sub_sub]

def atCall (handlerAt : Word) (m : Machine) : Option Machine :=
  (interrupt gdt (syscallGate handlerAt) m).bind (execAll gdt saveContext)

variable (handlerAt) in
theorem atCall_spec (hu : UserRegs m.toRegs) :
    ∃ c, atCall handlerAt m = some c ∧
      c.Stack ([m.gpr .ebx, m.gpr .ecx, m.gpr .edx] ++
        (IntrStack.ofRegs m.toRegs (m.esp0 - 40)).words) ∧
      c.cpl = 0 ∧ c.gpr = Function.update m.gpr .esp (m.esp0 - 88) := by
  obtain ⟨k, hk, hstack, hcpl, hgpr, hseg⟩ := interrupt_syscall handlerAt hu
  obtain ⟨c, hc, hstack', hseg', hgpr'⟩ := saveContext_spec hstack (by simp)
  refine ⟨c, ?_, ?_, ?_, ?_⟩
  · unfold atCall
    rw [hk, Option.bind_some, hc]
  · have hsp : m.esp0 - 20#32 - 20#32 = m.esp0 - 40#32 := by bv_omega
    simpa [hgpr, hseg, hsp, IntrStack.words, IntrStack.ofRegs] using hstack'
  · unfold Regs.cpl
    rw [hseg']
    exact hcpl
  · rw [hgpr', hgpr, Function.update_self, Function.update_idem]
    congr 1
    bv_omega

/-! ## The way out -/

/-- A data segment register of user code survives the return to user code, unless its selector is
null. -/
theorem kept_user {s : Selector} (h : null s = true ∨ gdt s = some 3) :
    mayLoad gdt 0 s ∧ kept gdt 3 s = if null s then 0 else s := by
  rcases h with h | h
  · simp [mayLoad, kept, h]
  · have hnull : null s = false := by
      by_contra hn
      have hlt : s.toNat < 4 := by simpa [null] using hn
      have hdiv : s.toNat / 4 = 0 := by omega
      simp [gdt, hdiv] at h
    have hrpl : rpl s ≤ 3 := by
      unfold rpl
      omega
    constructor
    · simp [mayLoad, h, hrpl]
    · simp [kept, h, hnull]

/-- `intr_exit` takes the registers from the frame. -/
theorem intrExit_spec {f : IntrStack} (hs : k.Stack f.words) (hc : k.cpl = 0)
    (hu : UserRegs f.regs) :
    ∃ m, execAll gdt intrExit k = some m ∧ m.toRegs = f.regs.nullsCleared := by
  have hgs := kept_user (hu.data .gs (by decide))
  have hfs := kept_user (hu.data .fs (by decide))
  have hes := kept_user (hu.data .es (by decide))
  have hds := kept_user (hu.data .ds (by decide))
  -- the vector number and the registers of `pushad`
  obtain ⟨k1, e1, h1, s1, g1⟩ := hs.skip gdt (n := 4) (l := [f.vecNo]) rfl
  obtain ⟨h2, s2, hdi, hsi, hbp, hbx, hdx, hcx, hax⟩ := h1.popad
  have c2 : k1.popad.cpl = 0 := by
    unfold Regs.cpl
    rw [s2, s1]
    exact hc
  -- the data segments
  obtain ⟨k3, e3, h3, s3, g3⟩ := h2.popSeg (s := .gs) (by rw [c2]; exact hgs.1)
  have c3 : k3.cpl = 0 := by
    rw [← c2]
    simp [Regs.cpl, s3]
  obtain ⟨k4, e4, h4, s4, g4⟩ := h3.popSeg (s := .fs) (by rw [c3]; exact hfs.1)
  have c4 : k4.cpl = 0 := by
    rw [← c3]
    simp [Regs.cpl, s4]
  obtain ⟨k5, e5, h5, s5, g5⟩ := h4.popSeg (s := .es) (by rw [c4]; exact hes.1)
  have c5 : k5.cpl = 0 := by
    rw [← c4]
    simp [Regs.cpl, s5]
  obtain ⟨k6, e6, h6, s6, g6⟩ := h5.popSeg (s := .ds) (by rw [c5]; exact hds.1)
  -- the error code and the frame of the processor
  obtain ⟨k7, e7, h7, s7, g7⟩ := h6.skip gdt (n := 4) (l := [f.errCode]) rfl
  have c7 : k7.cpl = 0 := by
    rw [← c5]
    simp [Regs.cpl, s7, s6]
  have hcs : rpl (f.cs.setWidth 16) = 3 := hu.cs.1
  obtain ⟨m, e8, hip, hfl, hgpr, hmcs, hmss, hdata⟩ := h7.iretd gdt hu.vm
    (by rw [hcs]; exact hu.cs.2) (by rw [c7, hcs]; omega) (by rw [hcs]; exact hu.ss)
  have hg : ∀ r, r ≠ .esp → k7.gpr r = k1.popad.gpr r := by
    intro r hr
    rw [g7 r hr, g6 r hr, g5 r hr, g4 r hr, g3 r hr]
  refine ⟨m, ?_, ?_⟩
  · unfold intrExit
    rw [execAll_cons e1, execAll_cons rfl, execAll_cons e3, execAll_cons e4, execAll_cons e5,
      execAll_cons e6, execAll_cons e7, execAll_cons e8]
    rfl
  · have hseg : ∀ s ∈ [Seg.ds, .es, .fs, .gs], m.seg s = f.regs.nullsCleared.seg s := by
      intro s hmem
      show _ = if s ∈ [Seg.ds, .es, .fs, .gs] ∧ null (f.regs.seg s) then 0 else f.regs.seg s
      simp only [hmem, true_and]
      rw [hdata s hmem, s7, s6, s5, s4, s3, hcs]
      simp only [List.mem_cons, List.not_mem_nil, or_false] at hmem
      rcases hmem with rfl | rfl | rfl | rfl
      · exact hds.2
      · exact hes.2
      · exact hfs.2
      · exact hgs.2
    apply Regs.ext _ _ hip hfl
    · funext r
      rw [hgpr]
      cases r <;> simp [IntrStack.regs, Regs.nullsCleared, *]
    · funext s
      cases s with
      | cs => exact hmcs
      | ss => exact hmss
      | ds => exact hseg .ds (by decide)
      | es => exact hseg .es (by decide)
      | fs => exact hseg .fs (by decide)
      | gs => exact hseg .gs (by decide)

/-! ## A system call -/

variable {table : Word → Machine → Option Machine} {back : Word}

/-- A system call, from `int 0x80` to the return to user code. -/
def syscall (handlerAt : Word) (table : Word → Machine → Option Machine) (back : Word)
    (m : Machine) : Option Machine :=
  (interrupt gdt (syscallGate handlerAt) m).bind (execAll gdt (syscallHandler table back))

theorem syscall_eq {c : Machine} (hc : atCall handlerAt m = some c) :
    syscall handlerAt table back m =
      (table (c.gpr .eax) (c.push back)).bind
        (execAll gdt (.add .esp 12 :: .store .esp 32 .eax :: intrExit)) := by
  unfold atCall at hc
  unfold syscall
  cases hk : interrupt gdt (syscallGate handlerAt) m with
  | none =>
      rw [hk] at hc
      cases hc
  | some k =>
      rw [hk, Option.bind_some] at hc
      rw [Option.bind_some]
      unfold syscallHandler
      rw [execAll_some hc]
      rfl

/-- A result in the frame does not make the registers others than those of user code. -/
theorem UserRegs.eax {f : IntrStack} (hu : UserRegs f.regs) (w : Word) :
    UserRegs { f with eax := w }.regs :=
  ⟨hu.cs, hu.ss, hu.data, hu.vm⟩

/-- The frame of a system call, in memory that still has the bytes above the arguments. -/
theorem frame_holds {c : Machine} {frame : Mem} (hu : UserRegs m.toRegs)
    (hc : atCall handlerAt m = some c) (hkept : FrameKept 12 76 (c.push back) frame) :
    Holds frame (m.esp0 - 76) (IntrStack.ofRegs m.toRegs (m.esp0 - 40)).words := by
  obtain ⟨c', hc', hstack, -, hgpr⟩ := atCall_spec handlerAt hu
  obtain rfl : c = c' := Option.some.inj (hc.symm.trans hc')
  have hesp : c.gpr .esp = m.esp0 - 88 := by rw [hgpr, Function.update_self]
  have hat : m.esp0 - 76 = c.gpr .esp + 12 := by
    rw [hesp]
    bv_omega
  have hpush := (Holds.append hstack).write (b := c.gpr .esp - 4) (w := back)
    (by simp only [List.length_cons, List.length_nil]; bv_omega)
    (by simp only [IntrStack.words, List.length_cons, List.length_nil]; bv_omega)
  rw [hat]
  apply hpush.congr
  intro i hi
  have h := hkept i hi
  rw [Machine.push_gpr, Function.update_self, BitVec.sub_add_cancel] at h
  exact h

/-- User code goes on after a system call with the registers it had, but for `eax` and null
selectors. -/
theorem syscall_resumes {c r : Machine} (hu : UserRegs m.toRegs)
    (hc : atCall handlerAt m = some c) (hr : table (c.gpr .eax) (c.push back) = some r)
    (hcdecl : Cdecl 12 76 (c.push back) r) :
    ∃ u, syscall handlerAt table back m = some u ∧
      u.toRegs = { m.toRegs.nullsCleared with
        gpr := Function.update m.gpr .eax (r.gpr .eax) } := by
  obtain ⟨c', hc', hstack, hcpl, hgpr⟩ := atCall_spec handlerAt hu
  obtain rfl : c = c' := Option.some.inj (hc.symm.trans hc')
  let f := IntrStack.ofRegs m.toRegs (m.esp0 - 40)
  have hesp : r.gpr .esp + 12 = m.esp0 - 76 := by
    rw [hcdecl.esp, Machine.push_gpr, Function.update_self, hgpr, Function.update_self]
    bv_omega
  have hrcpl : r.cpl = 0 := by
    unfold Regs.cpl
    rw [hcdecl.seg]
    exact hcpl
  have hframe : Holds r.mem (r.gpr .esp + 12) f.words := by
    rw [hesp]
    exact frame_holds hu hc hcdecl.frame
  let k := (({ r with eflags := addFlags (r.gpr .esp) 12 r.eflags }).set .esp (r.gpr .esp + 12))
  let k' : Machine := { k with mem := write32 k.mem (k.gpr .esp + 32) (k.gpr .eax) }
  have hk : k'.Stack { f with eax := r.gpr .eax }.words := by
    have hset := Holds.set (l := [f.vecNo, f.edi, f.esi, f.ebp, f.espDummy, f.ebx, f.edx, f.ecx])
      hframe (r.gpr .eax) (by simp)
    exact hset
  have hregs : f.regs = m.toRegs := IntrStack.regs_ofRegs _ _
  have hu' : UserRegs f.regs := by
    rw [hregs]
    exact hu
  obtain ⟨u, hexec, hur⟩ := intrExit_spec hk hrcpl (hu'.eax (r.gpr .eax))
  refine ⟨u, ?_, ?_⟩
  · rw [syscall_eq hc, hr, Option.bind_some, execAll_cons rfl, execAll_cons rfl]
    exact hexec
  · rw [hur, IntrStack.regs_eax, hregs]
    rfl

end

end OsTruth
