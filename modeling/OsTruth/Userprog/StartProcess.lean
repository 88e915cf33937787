/-
A new process on its way to user code: `start_process` of `userprog/process.c`.

`process_execute` hands `start_process` to `thread_create`, so the first switch to the process
begins in `kernel_thread`, which calls it.  It makes the frame of an interrupt that never took
place, above the stack that it runs on, and leaves it through `intr_exit`.
-/
import OsTruth.Kernel.Entry
import OsTruth.Thread.SwitchRuns

namespace OsTruth

open Processor Runs

/-! ## Functions -/

def selectorUCode : Selector := (5 <<< 3) + (0 <<< 2) + 3

def selectorUData : Selector := (6 <<< 3) + (0 <<< 2) + 3

/-- `EFLAGS_IOPL_0 | EFLAGS_MBS | EFLAGS_IF_1`. -/
def userEflags : Word := (0 <<< 12) ||| (1 <<< 1) ||| (1 <<< 9)

/-- `kernel_thread`, at its first instruction.  `call` runs the function at an address. -/
def kernelThread (call : Word → Word → Machine → Option Machine) (k : Machine) : Option Machine :=
  let function := read32 k.mem (k.gpr .esp + 4)
  let funcArg := read32 k.mem (k.gpr .esp + 8)
  call function funcArg { k with eflags := k.eflags ||| (1 <<< 9) }

/-- `start_process` in the task `cur`.  `self_kstack` points to words.  The call
`get_a_page(PF_USER, USER_STACK3_VADDR)` changes the memory as `getAPage` and returns `page`, which
is not compared with `NULL`. -/
def startProcess (getAPage : Mem → Mem) (page cur filename : Word) (k : Machine) :
    Option Machine :=
  let m := write32 k.mem cur (read32 k.mem cur + 4 * 32)
  let procStack := read32 m cur
  let frame : IntrStack := {
    vecNo := read32 m procStack
    edi := 0
    esi := 0
    ebp := 0
    espDummy := 0
    ebx := 0
    edx := 0
    ecx := 0
    eax := 0
    gs := 0
    fs := selectorUData.setWidth 32
    es := selectorUData.setWidth 32
    ds := selectorUData.setWidth 32
    errCode := read32 m (procStack + 52)
    eip := filename
    cs := selectorUCode.setWidth 32
    eflags := userEflags
    esp := read32 m (procStack + 68)
    ss := read32 m (procStack + 72) }
  let m := writeWords m procStack frame.words
  let m := write32 (getAPage m) (procStack + 68) (page + BitVec.ofNat 32 pgSize)
  let m := write32 m (procStack + 72) (selectorUData.setWidth 32)
  execAll gdt intrExit ({ k with mem := m }.set .esp procStack)

def processRegs (function stackPage : Word) : Regs where
  gpr
    | .esp => stackPage + BitVec.ofNat 32 pgSize
    | _ => 0
  seg
    | .cs => selectorUCode
    | .gs => 0
    | _ => selectorUData
  eip := function
  eflags := userEflags

/-! ## The way to user code -/

variable {getAPage : Mem → Mem} {page cur filename : Word} {k : Machine}

theorem processRegs_user (filename page : Word) : UserRegs (processRegs filename page) where
  cs := (by decide : rpl selectorUCode = 3 ∧ gdt selectorUCode = some 3)
  ss := (by decide : rpl selectorUData = 3 ∧ gdt selectorUData = some 3)
  data s hs := by
    simp only [List.mem_cons, List.not_mem_nil, or_false] at hs
    have hdata : gdt selectorUData = some 3 := by decide
    rcases hs with rfl | rfl | rfl | rfl
    · exact Or.inr hdata
    · exact Or.inr hdata
    · exact Or.inr hdata
    · exact Or.inl rfl
  vm := (by decide : vm userEflags = false)

/-- The only null selector of a new process is 0. -/
theorem processRegs_nullsCleared (filename page : Word) :
    (processRegs filename page).nullsCleared = processRegs filename page := by
  refine Regs.ext rfl (funext fun s => ?_) rfl rfl
  cases s <;> rfl

/-- `get_a_page` leaves the frame in the page of the task, whatever else it changes. -/
def FrameSpared (getAPage : Mem → Mem) (cur : Word) : Prop :=
  ∀ m, ∀ i < 76, getAPage m (cur + 3792 + BitVec.ofNat 32 i) = m (cur + 3792 + BitVec.ofNat 32 i)

/-- The last two words of the frame are stored after `get_a_page`. -/
theorem frame_completed (hspared : FrameSpared getAPage cur) {low : List Word}
    (hlow : low.length = 17) (m : Mem) (esp ss esp' ss' : Word) :
    Holds (write32 (write32 (getAPage (writeWords m (cur + 3792) (low ++ [esp, ss])))
      (cur + 3792 + 68) esp') (cur + 3792 + 72) ss') (cur + 3792) (low ++ [esp', ss']) := by
  have hlen : (low ++ [esp, ss]).length = 19 := by simp [hlow]
  have h0 : Holds (writeWords m (cur + 3792) (low ++ [esp, ss])) (cur + 3792) (low ++ [esp, ss]) :=
    Holds.writeWords m _ (by omega)
  have h1 : Holds (getAPage (writeWords m (cur + 3792) (low ++ [esp, ss]))) (cur + 3792)
      (low ++ [esp, ss]) :=
    h0.congr fun i hi => hspared _ i (by omega)
  have h2 := h1.set (l := low) esp' (by simp [hlow])
  have h3 := Holds.set (l := low ++ [esp']) (by simpa using h2) ss' (by simp [hlow])
  simpa [hlow] using h3

/-- `jmp intr_exit` with the stack pointer at a frame. -/
theorem intrExit_at {n : Mem} {a : Word} {f : IntrStack} (hn : Holds n a f.words)
    (hcpl : k.cpl = 0) (hu : UserRegs f.regs) :
    ∃ u, execAll gdt intrExit ({ k with mem := n }.set .esp a) = some u ∧
      u.toRegs = f.regs.nullsCleared := by
  have hstack : ({ k with mem := n }.set .esp a).Stack f.words := by
    unfold Machine.Stack
    rw [Machine.set_gpr, Function.update_self]
    exact hn
  have hcpl' : ({ k with mem := n }.set .esp a).cpl = 0 := hcpl
  exact intrExit_spec hstack hcpl' hu

/-- `start_process` enters user code with the registers of a new process. -/
theorem startProcess_enters (hcpl : k.cpl = 0) (hkstack : read32 k.mem cur = cur + 3664)
    (hspared : FrameSpared getAPage cur) :
    ∃ u, startProcess getAPage page cur filename k = some u ∧
      u.toRegs = processRegs filename page := by
  have hstack : cur + 3664 + 4 * 32 = cur + 3792 := by bv_omega
  unfold startProcess
  simp only [hkstack, hstack, read32_write32]
  generalize write32 k.mem cur (cur + 3792) = m
  let f : IntrStack := {
    vecNo := read32 m (cur + 3792)
    edi := 0
    esi := 0
    ebp := 0
    espDummy := 0
    ebx := 0
    edx := 0
    ecx := 0
    eax := 0
    gs := 0
    fs := selectorUData.setWidth 32
    es := selectorUData.setWidth 32
    ds := selectorUData.setWidth 32
    errCode := read32 m (cur + 3792 + 52)
    eip := filename
    cs := selectorUCode.setWidth 32
    eflags := userEflags
    esp := page + BitVec.ofNat 32 pgSize
    ss := selectorUData.setWidth 32 }
  have hregs : f.regs = processRegs filename page := by
    ext r
    · cases r <;> rfl
    · cases r <;> rfl
    · rfl
    · rfl
  have hlow : (f.words.take 17).length = 17 := rfl
  have hframe := frame_completed hspared hlow m
    (read32 m (cur + 3792 + 68)) (read32 m (cur + 3792 + 72)) (page + BitVec.ofNat 32 pgSize)
    (selectorUData.setWidth 32)
  have huser : UserRegs f.regs := by
    rw [hregs]
    exact processRegs_user filename page
  obtain ⟨u, hu, hur⟩ := intrExit_at hframe hcpl huser
  refine ⟨u, hu, ?_⟩
  rw [hur, hregs, processRegs_nullsCleared]

section

variable {σ τ : Tasks} {next back kernelThreadAt retaddr startProcessAt : Word} {l : List Word}
variable {call : Word → Word → Machine → Option Machine}

/-- A process that `process_execute` made begins in user code when the processor is switched to it
for the first time, whatever happened since. -/
theorem process_enters (h : ∀ p, σ.stopped p = none) (hrun : Reach switchStep switchCall σ τ)
    (hnew : τ.stopped next = some (newContext kernelThreadAt retaddr startProcessAt filename))
    (hc : switchCall τ (.switchTo next back l)) (hcpl : τ.machine.cpl = 0)
    (hspared : FrameSpared getAPage next)
    (hcall : ∀ arg k, call startProcessAt arg k = startProcess getAPage page next arg k) :
    ∃ ρ u, switchStep τ (.switchTo next back l) = .ok ρ ∧ ρ.machine.eip = kernelThreadAt ∧
      kernelThread call ρ.machine = some u ∧ u.toRegs = processRegs filename page := by
  obtain ⟨f, ρ, hf, hstep, -, hresumed, hseg⟩ := (stopsKept_of_run h hrun).resume hc
  obtain rfl : f = newContext kernelThreadAt retaddr startProcessAt filename :=
    Option.some.inj (hf.symm.trans hnew)
  have hkstack : read32 ρ.machine.mem next = next + 3664 := hresumed.kstack
  have hfunction : read32 ρ.machine.mem (ρ.machine.gpr .esp + 4) = startProcessAt :=
    hresumed.stack.2.1
  have harg : read32 ρ.machine.mem (ρ.machine.gpr .esp + 8) = filename :=
    (Holds.append (l := [retaddr, startProcessAt]) hresumed.stack).1
  have hcpl' : ρ.machine.cpl = 0 := by
    unfold Regs.cpl
    rw [hseg]
    exact hcpl
  have hentered : ∃ u, startProcess getAPage page next filename
      { ρ.machine with eflags := ρ.machine.eflags ||| (1 <<< 9) } = some u ∧
      u.toRegs = processRegs filename page :=
    startProcess_enters hcpl' hkstack hspared
  obtain ⟨u, hu, hregs⟩ := hentered
  refine ⟨ρ, u, hstep, hresumed.eip, ?_, hregs⟩
  unfold kernelThread
  rw [hfunction, harg, hcall]
  exact hu

/-- The program at 0x8048100. -/
theorem process_enters_first :
    ∃ τ retaddr, Reach switchStep switchCall mainTask τ ∧
      τ.stopped 0xc0100000 = some (newContext 0xc0002000 retaddr 0xc0003000 0x8048100) ∧
      ∃ ρ u, switchStep τ (.switchTo 0xc0100000 0xc0001600 []) = .ok ρ ∧
        ρ.machine.eip = 0xc0002000 ∧
        kernelThread (fun _ arg k => startProcess id 0xbffff000 0xc0100000 arg k) ρ.machine =
          some u ∧ u.toRegs = processRegs 0x8048100 0xbffff000 := by
  obtain ⟨τ, retaddr, hrun, hswitch, hnew, hcpl⟩ := mainTask_creates 0xc0002000 0xc0003000 0x8048100
  exact ⟨τ, retaddr, hrun, hnew, process_enters (fun _ => rfl) hrun hnew hswitch hcpl
    (fun _ _ _ => rfl) fun _ _ => rfl⟩

end

end OsTruth
