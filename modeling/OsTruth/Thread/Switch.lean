/-
`thread/switch.S`.

A task that does not run has its kernel stack in the page of its control block, and the
first word of the block points to the registers on it.  `switch_to` leaves the block and
the stack of every other task as they are.
-/
import OsTruth.Kernel.Entry
import OsTruth.Kernel.Pools

namespace OsTruth

open Processor

def switchTo : List Instr :=
  [.push (.reg .esi), .push (.reg .edi), .push (.reg .ebx), .push (.reg .ebp),
    .load .eax .esp 20, .store .eax 0 .esp, .load .eax .esp 24, .load .esp .eax 0,
    .pop .ebp, .pop .ebx, .pop .edi, .pop .esi, .ret]

/-- `sizeof(struct task_struct)`. -/
def taskStructSize : Nat := 280

/-- `pcb` is a page and `a` is a place on the kernel stack in it, above the control block
and with the arguments of a call of `switch_to` above it. -/
structure OnStack (pcb a : Word) : Prop where
  page : pcb.toNat % pgSize = 0
  above : taskStructSize + 16 ≤ (a - pcb).toNat
  below : (a - pcb).toNat + 12 ≤ pgSize

/-- The page of one task is unchanged by a write into the page of another. -/
theorem write32_otherPage {m : Mem} {c next a w : Word} {i : Nat}
    (hc : c.toNat % pgSize = 0) (hnext : next.toNat % pgSize = 0) (hne : c ≠ next)
    (ha : (a - c).toNat + 4 ≤ pgSize) (hi : i < pgSize) :
    write32 m a w (next + BitVec.ofNat 32 i) = m (next + BitVec.ofNat 32 i) := by
  apply write32_outside
  unfold pgSize at *
  bv_omega

/-- The kernel stack of a task and its place are the same, whatever the other fields of
its control block are. -/
def StackKept (pcb : Word) (m m' : Mem) : Prop :=
  ∀ i < pgSize, i < 4 ∨ taskStructSize ≤ i →
    m' (pcb + BitVec.ofNat 32 i) = m (pcb + BitVec.ofNat 32 i)

/-- What `switch_to` takes from the stack of the next task. -/
structure Saved (m : Mem) (next : Word) (off : Nat) (ebp ebx edi esi eip : Word)
    (l : List Word) : Prop where
  page : next.toNat % pgSize = 0
  /-- `self_kstack`. -/
  kstack : read32 m next = next + BitVec.ofNat 32 off
  stack : Holds m (next + BitVec.ofNat 32 off) (ebp :: ebx :: edi :: esi :: eip :: l)
  above : taskStructSize ≤ off
  within : off + 4 * (5 + l.length) ≤ pgSize

section
variable {k : Machine} {cur next back ebp ebx edi esi eip : Word} {off : Nat} {l : List Word}

theorem Saved.congr {m m' : Mem} (h : Saved m next off ebp ebx edi esi eip l)
    (hm : StackKept next m m') : Saved m' next off ebp ebx edi esi eip l where
  page := h.page
  kstack := by
    rw [← h.kstack]
    apply read32_congr
    intro i hi
    exact hm i (Nat.lt_trans hi (by decide)) (.inl hi)
  stack := by
    apply h.stack.congr
    intro i hi
    have hlo := h.above
    have hhi := h.within
    simp only [List.length_cons] at hi
    have ha : next + BitVec.ofNat 32 off + BitVec.ofNat 32 i =
        next + BitVec.ofNat 32 (off + i) := by bv_omega
    rw [ha]
    exact hm (off + i) (by omega) (.inr (by omega))
  above := h.above
  within := h.within

/-- The registers that `switch_to` saves are on the stack of the current task. -/
theorem save_spec (hk : k.Stack [back, cur, next]) (hcur : OnStack cur (k.gpr .esp))
    (hpage : next.toNat % pgSize = 0) (hne : cur ≠ next) :
    ∃ u, execAll gdt [.push (.reg .esi), .push (.reg .edi), .push (.reg .ebx),
        .push (.reg .ebp)] k = some u ∧
      u.Stack [k.gpr .ebp, k.gpr .ebx, k.gpr .edi, k.gpr .esi, back, cur, next] ∧
      u.gpr .esp = k.gpr .esp - 16 ∧ u.seg = k.seg ∧
      ∀ i < pgSize, u.mem (next + BitVec.ofNat 32 i) = k.mem (next + BitVec.ofNat 32 i) := by
  have habove := hcur.above
  have hbelow := hcur.below
  unfold taskStructSize at habove
  have h1 := hk.push (w := k.gpr .esi) (by simp)
  have h2 := h1.push (w := k.gpr .edi) (by simp)
  have h3 := h2.push (w := k.gpr .ebx) (by simp)
  have h4 := h3.push (w := k.gpr .ebp) (by simp)
  refine ⟨_, rfl, h4, ?_, rfl, ?_⟩
  · simp [sub_sub, Machine.value]
  · intro i hi
    have hat (n : Word) (hn : 4 ≤ n.toNat ∧ n.toNat ≤ 16) :
        (k.gpr .esp - n - cur).toNat + 4 ≤ pgSize := by bv_omega
    simp only [Machine.push_mem, Machine.push_gpr, Function.update_self, sub_sub]
    rw [write32_otherPage hcur.page hpage hne (hat _ (by decide)) hi,
      write32_otherPage hcur.page hpage hne (hat _ (by decide)) hi,
      write32_otherPage hcur.page hpage hne (hat _ (by decide)) hi,
      write32_otherPage hcur.page hpage hne (hat _ (by decide)) hi]

/-- `switch_to` goes on where the next task stopped, with the registers it had. -/
theorem switchTo_spec (hk : k.Stack [back, cur, next]) (hcur : OnStack cur (k.gpr .esp))
    (hne : cur ≠ next) (hnext : Saved k.mem next off ebp ebx edi esi eip l) :
    ∃ u, execAll gdt switchTo k = some u ∧ u.eip = eip ∧ u.Stack l ∧ u.seg = k.seg ∧
      u.gpr .ebp = ebp ∧ u.gpr .ebx = ebx ∧ u.gpr .edi = edi ∧ u.gpr .esi = esi := by
  have habove := hcur.above
  have hbelow := hcur.below
  unfold taskStructSize at habove
  unfold pgSize at hbelow
  obtain ⟨a, ha, hstack, hesp, hseg, hmem⟩ := save_spec hk hcur hnext.page hne
  have hargs := Holds.append (l := [k.gpr .ebp, k.gpr .ebx, k.gpr .edi, k.gpr .esi, back]) hstack
  have hcurArg : read32 a.mem (a.gpr .esp + 20) = cur := hargs.1
  let b : Machine := { a.set .eax cur with mem := write32 a.mem (cur + 0) (a.gpr .esp) }
  have hnextArg : read32 b.mem (b.gpr .esp + 24) = next := by
    have h : Holds a.mem (a.gpr .esp + 24) [next] :=
      Holds.append (l := [k.gpr .ebp, k.gpr .ebx, k.gpr .edi, k.gpr .esi, back, cur]) hstack
    apply (h.write _ _).1
    · rw [hesp]
      bv_omega
    · rw [hesp]
      simp
      bv_omega
  have hsaved : Saved b.mem next off ebp ebx edi esi eip l := by
    apply hnext.congr
    intro i hi _
    rw [← hmem i hi]
    apply write32_otherPage hcur.page hnext.page hne _ hi
    simp [pgSize]
  let c : Machine := (b.set .eax next).set .esp (next + BitVec.ofNat 32 off)
  have hc : c.Stack (ebp :: ebx :: edi :: esi :: eip :: l) := by
    show Holds c.mem (c.gpr .esp) _
    simp only [c, Machine.set_gpr, Function.update_self, Machine.set_mem]
    exact hsaved.stack
  have h1 := hc.pop (r := .ebp) (by decide)
  have h2 := h1.pop (r := .ebx) (by decide)
  have h3 := h2.pop (r := .edi) (by decide)
  have h4 := h3.pop (r := .esi) (by decide)
  let d : Machine := (((c.pop .ebp).pop .ebx).pop .edi).pop .esi
  refine ⟨{ d.drop 4 with eip := d.top }, ?_, h4.top, h4.drop (l := [eip]) rfl, ?_, ?_⟩
  · have hloadCur : exec gdt (.load .eax .esp 20) a = some (a.set .eax cur) := by
      simp only [exec, hcurArg]
    have hstore : exec gdt (.store .eax 0 .esp) (a.set .eax cur) = some b := rfl
    have hloadNext : exec gdt (.load .eax .esp 24) b = some (b.set .eax next) := by
      simp only [exec, hnextArg]
    have hswitch : exec gdt (.load .esp .eax 0) (b.set .eax next) = some c := by
      simp [exec, hsaved.kstack, c]
    calc execAll gdt switchTo k
        = execAll gdt (.load .eax .esp 20 :: .store .eax 0 .esp :: .load .eax .esp 24 ::
            .load .esp .eax 0 :: [.pop .ebp, .pop .ebx, .pop .edi, .pop .esi, .ret]) a :=
          execAll_some ha
      _ = execAll gdt [.pop .ebp, .pop .ebx, .pop .edi, .pop .esi, .ret] c := by
          rw [execAll_cons hloadCur, execAll_cons hstore, execAll_cons hloadNext,
            execAll_cons hswitch]
      _ = some { d.drop 4 with eip := d.top } := rfl
  · simp only [Machine.drop_seg, d, Machine.pop, Machine.set_seg, c, b]
    exact hseg
  · simp only [d]
    rw [h3.pop_eq, h2.pop_eq, h1.pop_eq, hc.pop_eq]
    simp

end

end OsTruth
