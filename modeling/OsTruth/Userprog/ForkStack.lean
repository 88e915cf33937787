/-
The kernel stack of a child, in `userprog/fork.c`.

The child has a copy of the page of its parent, so also of the frame that the entry of the
system call left at its end.  `build_child_stack` puts under this frame what `switch_to`
takes from the stack of a task, and the first switch to the child returns to user code
through `intr_exit`.
-/
import OsTruth.Thread.Switch

namespace OsTruth

open Processor

def intrStackSize : Nat := 76

def buildChildStack (intrExitAt child : Word) (m : Mem) : Mem :=
  let intr0Stack := child + BitVec.ofNat 32 (pgSize - intrStackSize)
  let m := write32 m (intr0Stack + 32) 0
  let retAddr := intr0Stack - 4
  let esiPtr := intr0Stack - 8
  let ediPtr := intr0Stack - 12
  let ebxPtr := intr0Stack - 16
  let ebpPtr := intr0Stack - 20
  let m := write32 m retAddr intrExitAt
  let m := write32 (write32 (write32 (write32 m esiPtr 0) ediPtr 0) ebxPtr 0) ebpPtr 0
  write32 m child ebpPtr

section
variable {m k : Machine} {handlerAt back ret intrExitAt parent child cur next : Word}
variable {table : Word → Machine → Option Machine} {off : Nat}
variable {ebp ebx edi esi eip : Word} {l : List Word}

/-- The child returns to `intr_exit`, with its stack at the frame. -/
theorem buildChildStack_saved {m : Mem} {f : IntrStack} (hpage : child.toNat % pgSize = 0)
    (hf : Holds m (child + BitVec.ofNat 32 (pgSize - intrStackSize)) f.words) :
    Saved (buildChildStack intrExitAt child m) child (pgSize - intrStackSize - 20)
      0 0 0 0 intrExitAt { f with eax := 0 }.words := by
  let a := child + BitVec.ofNat 32 (pgSize - intrStackSize)
  have h0 : Holds (write32 m (a + 32) 0) a { f with eax := 0 }.words :=
    Holds.set (l := [f.vecNo, f.edi, f.esi, f.ebp, f.espDummy, f.ebx, f.edx, f.ecx])
      hf 0 (by simp)
  have h1 := h0.cons (w := intrExitAt) (by simp [IntrStack.words])
  have h2 := h1.cons (w := 0) (by simp [IntrStack.words])
  have h3 := h2.cons (w := 0) (by simp [IntrStack.words])
  have h4 := h3.cons (w := 0) (by simp [IntrStack.words])
  have h5 := h4.cons (w := 0) (by simp [IntrStack.words])
  simp only [sub_sub] at h1 h2 h3 h4 h5
  have hat : child + BitVec.ofNat 32 (pgSize - intrStackSize - 20) = a - 20 := by
    simp only [a, pgSize, intrStackSize]
    bv_omega
  constructor
  · exact hpage
  · rw [hat]
    exact read32_write32 _ _ _
  · rw [hat]
    apply h5.write
    · simp only [a, pgSize, intrStackSize]
      bv_omega
    · simp only [a, pgSize, intrStackSize, IntrStack.words, List.length_cons, List.length_nil]
      bv_omega
  · decide
  · simp [IntrStack.words, pgSize, intrStackSize]

/-- The first switch to the child returns to user code with the registers of the frame. -/
theorem child_resumes {f : IntrStack} {fields : Mem} (hu : UserRegs f.regs)
    (hpage : child.toNat % pgSize = 0)
    (hf : Holds fields (child + BitVec.ofNat 32 (pgSize - intrStackSize)) f.words)
    (hkept : StackKept child (buildChildStack intrExitAt child fields) k.mem)
    (hk : k.Stack [ret, cur, child]) (hcur : OnStack cur (k.gpr .esp)) (hne : cur ≠ child)
    (hcpl : k.cpl = 0) :
    ∃ a, execAll gdt switchTo k = some a ∧ a.eip = intrExitAt ∧
      ∃ u, execAll gdt intrExit a = some u ∧
        u.toRegs = { f.regs.nullsCleared with gpr := Function.update f.regs.gpr .eax 0 } := by
  have hsaved := (buildChildStack_saved hpage hf).congr hkept
  obtain ⟨a, ha, heip, hstack, hseg, -⟩ := switchTo_spec hk hcur hne hsaved
  have hacpl : a.cpl = 0 := by
    unfold Regs.cpl
    rw [hseg]
    exact hcpl
  obtain ⟨u, hexec, hur⟩ := intrExit_spec hstack hacpl (hu.eax 0)
  refine ⟨a, ha, heip, u, hexec, ?_⟩
  rw [hur, IntrStack.regs_eax]
  rfl

/-- After `int 0x80` for `fork` the parent and the child go on in user code with the same
registers but for `eax` and null selectors, of which `iretd` leaves 0.  `copied` is the memory in
which the page of the parent is copied and `fields` the one in which the stack of the child is
built. -/
theorem fork_registers (hu : UserRegs m.toRegs)
    (hesp0 : m.esp0 = parent + BitVec.ofNat 32 pgSize) :
    ∃ c, atCall handlerAt m = some c ∧ c.gpr .eax = m.gpr .eax ∧
      (∀ r, table (m.gpr .eax) (c.push back) = some r → Cdecl 12 76 (c.push back) r →
        ∃ u, syscall handlerAt table back m = some u ∧
          u.toRegs = { m.toRegs.nullsCleared with
            gpr := Function.update m.gpr .eax (r.gpr .eax) }) ∧
      ∀ copied fields (k : Machine) cur ret child, FrameKept 12 76 (c.push back) copied →
        child.toNat % pgSize = 0 →
        StackKept child (copy copied child parent pgSize) fields →
        StackKept child (buildChildStack intrExitAt child fields) k.mem →
        k.Stack [ret, cur, child] → OnStack cur (k.gpr .esp) → cur ≠ child → k.cpl = 0 →
        ∃ a, execAll gdt switchTo k = some a ∧ a.eip = intrExitAt ∧
          ∃ u, execAll gdt intrExit a = some u ∧
            u.toRegs = { m.toRegs.nullsCleared with
              gpr := Function.update m.gpr .eax 0 } := by
  obtain ⟨c, hc, hstack, hcpl, hgpr⟩ := atCall_spec handlerAt hu
  have heax : c.gpr .eax = m.gpr .eax := by simp [hgpr]
  refine ⟨c, hc, heax, ?_, ?_⟩
  · intro r hr hcdecl
    rw [← heax] at hr
    exact syscall_resumes hu hc hr hcdecl
  · intro copied fields k cur ret child hframe hpage hfields hkept hk hcur hne hkcpl
    have hregs := IntrStack.regs_ofRegs m.toRegs (m.esp0 - 40)
    have hcopied := frame_holds hu hc hframe
    have hf : Holds fields (child + BitVec.ofNat 32 (pgSize - intrStackSize))
        (IntrStack.ofRegs m.toRegs (m.esp0 - 40)).words := by
      apply hcopied.congr
      intro i hi
      have hlt : pgSize - intrStackSize + i < pgSize := by
        simp only [IntrStack.words, List.length_cons, List.length_nil] at hi
        simp only [pgSize, intrStackSize]
        omega
      have hat (a : Word) : a + BitVec.ofNat 32 (pgSize - intrStackSize) + BitVec.ofNat 32 i =
          a + BitVec.ofNat 32 (pgSize - intrStackSize + i) := by bv_omega
      have hparent : m.esp0 - 76 = parent + BitVec.ofNat 32 (pgSize - intrStackSize) := by
        rw [hesp0]
        simp only [pgSize, intrStackSize]
        bv_omega
      have habove : taskStructSize ≤ pgSize - intrStackSize + i :=
        Nat.le_trans (by decide) (Nat.le_add_right _ i)
      rw [hparent, hat, hat, hfields _ hlt (.inr habove), copy_at _ hlt]
    have h := child_resumes (by rw [hregs]; exact hu) hpage hf hkept hk hcur hne hkcpl
    rwa [hregs] at h

/-- User code that calls `fork`, with its control block at `0xc0100000` and the null selector 3 in
`gs`. -/
def forkCaller : Machine where
  gpr
    | .eax => 4
    | .ebx => 11
    | .esp => 0xbffffff0
    | _ => 12
  seg
    | .cs => 0x2b
    | .gs => 3
    | _ => 0x33
  eip := 0x8048100
  eflags := 0x202
  mem := fun _ => 0
  esp0 := 0xc0101000
  ss0 := selectorKStack

/-- A system call that returns 3 at once. -/
def returnThree (m : Machine) : Option Machine :=
  some { (m.drop 4).set .eax 3 with eip := m.top }

theorem returnThree_cdecl (k : Machine) :
    Cdecl 12 76 k { (k.drop 4).set .eax 3 with eip := k.top } := by
  refine ⟨rfl, rfl, ?_, rfl, fun _ _ => rfl⟩
  intro x hx
  simp only [List.mem_cons, List.not_mem_nil, or_false] at hx
  rcases hx with rfl | rfl | rfl | rfl <;> simp

theorem forkCaller_user : UserRegs forkCaller.toRegs :=
  ⟨by decide, by decide, by decide, by decide⟩

/-- The parent comes back with 0 in `gs`, where it had 3. -/
theorem fork_clears_gs : forkCaller.seg .gs = 3 ∧
    ∃ u, syscall 0 (fun _ => returnThree) 0 forkCaller = some u ∧ u.seg .gs = 0 ∧
      u.toRegs ≠ { forkCaller.toRegs with gpr := Function.update forkCaller.gpr .eax 3 } := by
  obtain ⟨c, hc, -, -, -⟩ := atCall_spec 0 forkCaller_user
  have hresumed : ∃ u, syscall 0 (fun _ => returnThree) 0 forkCaller = some u ∧
      u.toRegs = { forkCaller.toRegs.nullsCleared with
        gpr := Function.update forkCaller.gpr .eax 3 } :=
    syscall_resumes forkCaller_user hc rfl (returnThree_cdecl (c.push 0))
  obtain ⟨u, hsys, hur⟩ := hresumed
  have hgs : u.seg .gs = 0 := by
    rw [hur]
    exact (by decide : forkCaller.toRegs.nullsCleared.seg .gs = 0)
  refine ⟨rfl, u, hsys, hgs, fun heq => ?_⟩
  rw [heq] at hgs
  exact absurd hgs (by decide : (3 : Selector) ≠ 0)

theorem fork_registers_caller :
    ∃ u v, syscall 0 (fun _ => returnThree) 0 forkCaller = some u ∧
      u.toRegs = { forkCaller.toRegs.nullsCleared with
        gpr := Function.update forkCaller.gpr .eax 3 } ∧
      (∃ k a, execAll gdt switchTo k = some a ∧ execAll gdt intrExit a = some v) ∧
      v.toRegs = { forkCaller.toRegs.nullsCleared with
        gpr := Function.update forkCaller.gpr .eax 0 } := by
  obtain ⟨c, hc, -, hparent, hchild⟩ := @fork_registers forkCaller 0 0 0 0xc0100000
    (fun _ => returnThree) forkCaller_user (by decide)
  obtain ⟨u, hsys, hur⟩ := hparent _ rfl (returnThree_cdecl (c.push 0))
  -- another process, with its control block at 0xc0102000, switches to the child
  let fields := copy (c.push 0).mem 0xc0101000 0xc0100000 pgSize
  let other : Machine := { forkCaller with
    gpr := Function.update forkCaller.gpr .esp 0xc0103000
    seg := Function.update forkCaller.seg .cs selectorKCode
    mem := buildChildStack 0 0xc0101000 fields }
  have hempty : other.Stack [] := trivial
  have hstack := ((hempty.push (w := 0xc0101000) (by simp)).push (w := 0xc0102000) (by simp)).push
    (w := 0) (by simp)
  have hkept : StackKept 0xc0101000 (buildChildStack 0 0xc0101000 fields)
      (((other.push 0xc0101000).push 0xc0102000).push 0).mem := by
    intro i hi _
    simp only [Machine.push_mem, Machine.push_gpr, Function.update_self, other]
    rw [write32_otherPage (c := 0xc0102000) (by decide) (by decide) (by decide) (by decide) hi,
      write32_otherPage (c := 0xc0102000) (by decide) (by decide) (by decide) (by decide) hi,
      write32_otherPage (c := 0xc0102000) (by decide) (by decide) (by decide) (by decide) hi]
  have hcur : OnStack 0xc0102000
      ((((other.push 0xc0101000).push 0xc0102000).push 0).gpr .esp) := by
    simp only [Machine.push_gpr, Function.update_self, other]
    exact ⟨by decide, by decide, by decide⟩
  have hcpl : (((other.push 0xc0101000).push 0xc0102000).push 0).cpl = 0 := by
    simp only [Regs.cpl, Machine.push_seg, Function.update_self, other]
    decide
  obtain ⟨a, ha, -, v, hv, hvr⟩ := hchild _ fields _ _ _ _ (fun _ _ => rfl) (by decide)
    (fun _ _ _ => rfl) hkept hstack hcur (by decide) hcpl
  exact ⟨u, v, hsys, hur, ⟨_, a, ha, hv⟩, hvr⟩

end

end OsTruth
