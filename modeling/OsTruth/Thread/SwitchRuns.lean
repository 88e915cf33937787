/-
Any number of tasks that switch to each other with `switch_to` of `thread/switch.S`, and the
tasks that `thread_create` of `thread/thread.c` adds to them.

The code between two switches may do what it likes, as long as it leaves the kernel stacks of
the tasks that do not run.  So each task goes on where it called `switch_to`, and a new one
begins in `kernel_thread`.
-/
import OsTruth.Library.Runs
import OsTruth.Thread.Switch

namespace OsTruth

open Processor Runs

/-! ## Functions -/

/-- `init_thread`, as far as the kernel stack is concerned. -/
def initKstack (m : Mem) (pthread : Word) : Mem :=
  write32 m pthread (pthread + BitVec.ofNat 32 pgSize)

/-- `thread_create`.  `self_kstack` points to words, so it is moved by four times the sizes. -/
def threadCreate (m : Mem) (pthread kernelThread function funcArg : Word) : Mem :=
  let m := write32 m pthread (read32 m pthread - 4 * 76)
  let m := write32 m pthread (read32 m pthread - 4 * 32)
  let kthreadStack := read32 m pthread
  let m := write32 m (kthreadStack + 16) kernelThread
  let m := write32 m (kthreadStack + 24) function
  let m := write32 m (kthreadStack + 28) funcArg
  let m := write32 (write32 m (kthreadStack + 8) 0) (kthreadStack + 12) 0
  write32 (write32 m (kthreadStack + 4) 0) kthreadStack 0

/-! ## Runs -/

/-- Where a task goes on: the registers that `switch_to` takes from its stack, and the stack
behind them. -/
structure Context where
  off : Nat
  ebp : Word
  ebx : Word
  edi : Word
  esi : Word
  eip : Word
  stack : List Word

/-- The machine, the task that runs, and where the others stopped. -/
structure Tasks where
  machine : Machine
  cur : Word
  stopped : Word → Option Context

inductive SwitchCall
  /-- The task that runs changes the machine. -/
  | work (k : Machine)
  | create (pthread kernelThread function funcArg : Word)
  /-- The task that runs calls `switch_to`, with the words `l` on its stack behind the call. -/
  | switchTo (next back : Word) (l : List Word)

/-- The place of the stack of a task in its page. -/
def Tasks.off (σ : Tasks) : Nat := (σ.machine.gpr .esp - 16 - σ.cur).toNat

/-- What the task that runs leaves on its stack. -/
def Tasks.context (σ : Tasks) (next back : Word) (l : List Word) : Context where
  off := σ.off
  ebp := σ.machine.gpr .ebp
  ebx := σ.machine.gpr .ebx
  edi := σ.machine.gpr .edi
  esi := σ.machine.gpr .esi
  eip := back
  stack := σ.cur :: next :: l

/-- Where a new task begins: in `kernel_thread`, with two arguments behind a word in the place of
a return address. -/
def newContext (kernelThread retaddr function funcArg : Word) : Context where
  off := pgSize - 4 * 76 - 4 * 32
  ebp := 0
  ebx := 0
  edi := 0
  esi := 0
  eip := kernelThread
  stack := [retaddr, function, funcArg]

def switchStep (σ : Tasks) : SwitchCall → Except Unit Tasks
  | .work k => .ok { σ with machine := k }
  | .create pthread kernelThread function funcArg =>
      let m := threadCreate (initKstack σ.machine.mem pthread) pthread kernelThread function funcArg
      let retaddr := read32 m (pthread + BitVec.ofNat 32 (pgSize - 4 * 76 - 4 * 32 + 20))
      .ok { σ with
        machine := { σ.machine with mem := m }
        stopped := Function.update σ.stopped pthread
          (some (newContext kernelThread retaddr function funcArg)) }
  | .switchTo next back l =>
      match execAll gdt switchTo σ.machine with
      | none => .error ()
      | some k => .ok ⟨k, next, Function.update
          (Function.update σ.stopped σ.cur (some (σ.context next back l))) next none⟩

/-- The work leaves the stacks of the tasks that stopped.  A new task has a page that no task
has.  A call of `switch_to` is on the kernel stack of the task that runs, for a task that
stopped. -/
def switchCall (σ : Tasks) : SwitchCall → Prop
  | .work k => ∀ p, σ.stopped p ≠ none → StackKept p σ.machine.mem k.mem
  | .create pthread _ _ _ =>
      pthread.toNat % pgSize = 0 ∧ pthread ≠ σ.cur ∧ σ.stopped pthread = none
  | .switchTo next back l =>
      σ.machine.Stack (back :: σ.cur :: next :: l) ∧ OnStack σ.cur (σ.machine.gpr .esp) ∧
        (σ.machine.gpr .esp - σ.cur).toNat + 4 * (3 + l.length) ≤ pgSize ∧ σ.stopped next ≠ none

/-- What a task that is resumed finds. -/
structure Resumed (next : Word) (f : Context) (k : Machine) : Prop where
  eip : k.eip = f.eip
  stack : k.Stack f.stack
  esp : k.gpr .esp = next + BitVec.ofNat 32 (f.off + 20)
  /-- `self_kstack`. -/
  kstack : read32 k.mem next = next + BitVec.ofNat 32 f.off
  ebp : k.gpr .ebp = f.ebp
  ebx : k.gpr .ebx = f.ebx
  edi : k.gpr .edi = f.edi
  esi : k.gpr .esi = f.esi

/-! ## A new task -/

section

variable {m : Mem} {p q pthread kernelThread function funcArg : Word}

/-- The stores of `thread_create`, from the place of its `struct thread_stack` on. -/
def threadStackStores (m : Mem) (a kernelThread function funcArg : Word) : Mem :=
  let m := write32 (write32 (write32 m (a + 16) kernelThread) (a + 24) function) (a + 28) funcArg
  let m := write32 (write32 m (a + 8) 0) (a + 12) 0
  write32 (write32 m (a + 4) 0) a 0

theorem threadCreate_eq :
    threadCreate (initKstack m pthread) pthread kernelThread function funcArg =
      threadStackStores (write32 (write32 (initKstack m pthread) pthread
        (pthread + 3792)) pthread (pthread + 3664)) (pthread + 3664) kernelThread function
        funcArg := by
  have h1 : read32 (initKstack m pthread) pthread - 4 * 76 = pthread + 3792 := by
    unfold initKstack
    rw [read32_write32]
    unfold pgSize
    bv_omega
  have h2 : pthread + 3792 - 4 * 32 = pthread + 3664 := by bv_omega
  unfold threadCreate
  simp only [h1, read32_write32, h2]
  rfl

variable (m kernelThread function funcArg) in
/-- The stack that `thread_create` makes. -/
theorem threadStackStores_holds (a : Word) :
    Holds (threadStackStores m a kernelThread function funcArg) a
      [0, 0, 0, 0, kernelThread, read32 m (a + 4 + 4 + 4 + 4 + 4), function, funcArg] := by
  have h0 : Holds m a [read32 m a, read32 m (a + 4), read32 m (a + 4 + 4),
      read32 m (a + 4 + 4 + 4), read32 m (a + 4 + 4 + 4 + 4), read32 m (a + 4 + 4 + 4 + 4 + 4),
      read32 m (a + 4 + 4 + 4 + 4 + 4 + 4), read32 m (a + 4 + 4 + 4 + 4 + 4 + 4 + 4)] :=
    ⟨rfl, rfl, rfl, rfl, rfl, rfl, rfl, rfl, True.intro⟩
  have h1 := Holds.set (l := [_, _, _, _]) h0 kernelThread (by simp)
  have h2 := Holds.set (l := [_, _, _, _, _, _]) h1 function (by simp)
  have h3 := Holds.set (l := [_, _, _, _, _, _, _]) h2 funcArg (by simp)
  have h4 := Holds.set (l := [_, _]) h3 0 (by simp)
  have h5 := Holds.set (l := [_, _, _]) h4 0 (by simp)
  have h6 := Holds.set (l := [_]) h5 0 (by simp)
  have h7 := Holds.set (l := []) h6 0 (by simp)
  simpa [threadStackStores] using h7

/-- The stores spare a word far enough in front of them. -/
theorem threadStackStores_front {a b w : Word} (hb : Holds m b [w])
    (hfar : 4 ≤ (a - b).toNat ∧ (a - b).toNat + 32 ≤ 2 ^ 31) :
    read32 (threadStackStores m a kernelThread function funcArg) b = w := by
  have hwrite : ∀ (n : Mem) (v c : Word), c.toNat ≤ 28 → Holds n b [w] →
      Holds (write32 n (a + c) v) b [w] := by
    intro n v c hc hn
    apply hn.write
    · bv_omega
    · simp only [List.length_cons, List.length_nil]
      bv_omega
  have h := hwrite _ 0 4 (by decide) (hwrite _ 0 12 (by decide) (hwrite _ 0 8 (by decide)
    (hwrite _ funcArg 28 (by decide) (hwrite _ function 24 (by decide)
      (hwrite _ kernelThread 16 (by decide) hb)))))
  refine (h.write ?_ ?_).1
  · bv_omega
  · simp only [List.length_cons, List.length_nil]
    bv_omega

/-- The stores stay in the page of the new task. -/
theorem threadCreate_other {i : Nat} (hpage : pthread.toNat % pgSize = 0)
    (hp : p.toNat % pgSize = 0) (hne : pthread ≠ p) (hi : i < pgSize) :
    threadCreate (initKstack m pthread) pthread kernelThread function funcArg
      (p + BitVec.ofNat 32 i) = m (p + BitVec.ofNat 32 i) := by
  have hwrite : ∀ (n : Mem) (v a : Word), (a - pthread).toNat + 4 ≤ pgSize →
      write32 n a v (p + BitVec.ofNat 32 i) = n (p + BitVec.ofNat 32 i) :=
    fun n v a ha => write32_otherPage hpage hp hne ha hi
  have hin : ∀ c : Word, c.toNat ≤ 28 → (pthread + 3664 + c - pthread).toNat + 4 ≤ pgSize := by
    intro c hc
    unfold pgSize
    bv_omega
  have hfirst : (pthread - pthread).toNat + 4 ≤ pgSize := by simp [pgSize]
  have hbase : (pthread + 3664 - pthread).toNat + 4 ≤ pgSize := by
    unfold pgSize
    bv_omega
  rw [threadCreate_eq]
  unfold threadStackStores initKstack
  rw [hwrite _ _ _ hbase, hwrite _ _ _ (hin 4 (by decide)), hwrite _ _ _ (hin 12 (by decide)),
    hwrite _ _ _ (hin 8 (by decide)), hwrite _ _ _ (hin 28 (by decide)),
    hwrite _ _ _ (hin 24 (by decide)), hwrite _ _ _ (hin 16 (by decide)), hwrite _ _ _ hfirst,
    hwrite _ _ _ hfirst, hwrite _ _ _ hfirst]

/-- `Saved` for a context. -/
abbrev Stopped (m : Mem) (p : Word) (f : Context) : Prop :=
  Saved m p f.off f.ebp f.ebx f.edi f.esi f.eip f.stack

theorem threadCreate_stopped (hpage : pthread.toNat % pgSize = 0) {m' : Mem}
    (hm' : m' = threadCreate (initKstack m pthread) pthread kernelThread function funcArg) :
    Stopped m' pthread (newContext kernelThread
      (read32 m' (pthread + BitVec.ofNat 32 (pgSize - 4 * 76 - 4 * 32 + 20))) function
      funcArg) := by
  have hoff : BitVec.ofNat 32 (pgSize - 4 * 76 - 4 * 32) = 3664 := by decide
  have hret : BitVec.ofNat 32 (pgSize - 4 * 76 - 4 * 32 + 20) = 3684 := by decide
  rw [threadCreate_eq] at hm'
  have hholds := threadStackStores_holds (write32 (write32 (initKstack m pthread) pthread
    (pthread + 3792)) pthread (pthread + 3664)) kernelThread function funcArg (pthread + 3664)
  have hfirst : read32 m' pthread = pthread + 3664 := by
    rw [hm']
    refine threadStackStores_front ⟨read32_write32 _ _ _, True.intro⟩ ?_
    have hsub : pthread + 3664 - pthread = 3664 := by bv_omega
    rw [hsub]
    decide
  rw [← hm'] at hholds
  -- the word in the place of the return address is not written
  have hword := (Holds.append (l := [_, _, _, _, _]) hholds).1
  have hat : pthread + 3664 +
      BitVec.ofNat 32 (4 * ([0, 0, 0, 0, kernelThread] : List Word).length) = pthread + 3684 := by
    simp only [List.length_cons, List.length_nil]
    bv_omega
  rw [hat] at hword
  refine ⟨hpage, ?_, ?_, (by decide : taskStructSize ≤ pgSize - 4 * 76 - 4 * 32), ?_⟩
  · show read32 m' pthread = pthread + BitVec.ofNat 32 (pgSize - 4 * 76 - 4 * 32)
    rw [hoff, hfirst]
  · show Holds m' (pthread + BitVec.ofNat 32 (pgSize - 4 * 76 - 4 * 32)) _
    rw [hoff, hret, hword]
    exact hholds
  · show pgSize - 4 * 76 - 4 * 32 + 4 * (5 + 3) ≤ pgSize
    decide

end

/-! ## A switch -/

/-- The first four instructions of `switch_to`. -/
def saveRegs (k : Machine) : Machine :=
  (((k.push (k.gpr .esi)).push (k.gpr .edi)).push (k.gpr .ebx)).push (k.gpr .ebp)

section

variable {k u : Machine} {cur next back p : Word} {l : List Word} {f : Context}

theorem switchTo_mem (h : execAll gdt switchTo k = some u) :
    u.mem = write32 (saveRegs k).mem (read32 (saveRegs k).mem ((saveRegs k).gpr .esp + 20) + 0)
      ((saveRegs k).gpr .esp) := by
  rw [← Option.some.inj h]
  rfl

theorem switchTo_esp (h : execAll gdt switchTo k = some u) :
    u.gpr .esp =
      read32 u.mem (read32 u.mem ((saveRegs k).gpr .esp + 24) + 0) + 20 := by
  -- up to the load of the stack pointer
  let a := saveRegs k
  let a1 := a.set .eax (read32 a.mem (a.gpr .esp + 20))
  let a2 : Machine := { a1 with mem := write32 a1.mem (a1.gpr .eax + 0) (a1.gpr .esp) }
  let a3 := a2.set .eax (read32 a2.mem (a2.gpr .esp + 24))
  let a4 := a3.set .esp (read32 a3.mem (a3.gpr .eax + 0))
  have hb : execAll gdt (switchTo.take 8) k = some a4 := rfl
  have hmem : u.mem = a2.mem := by
    rw [switchTo_mem h]
    simp [a2, a1, a]
  have hesp : a4.gpr .esp = read32 a2.mem (read32 a2.mem (a.gpr .esp + 24) + 0) := by
    simp [a4, a3, a2, a1]
  have hsplit : switchTo =
      switchTo.take 8 ++ [.pop .ebp, .pop .ebx, .pop .edi, .pop .esi, .ret] := rfl
  rw [hsplit, execAll_some hb] at h
  rw [hmem, ← hesp, ← Option.some.inj h]
  generalize a4 = b
  simp [Machine.pop]
  bv_omega

/-- What `switch_to` stores lies in the page of the task that stops. -/
theorem switchTo_other (h : execAll gdt switchTo k = some u) (hcur : OnStack cur (k.gpr .esp))
    (harg : read32 (saveRegs k).mem ((saveRegs k).gpr .esp + 20) = cur)
    (hp : p.toNat % pgSize = 0) (hne : cur ≠ p) {i : Nat} (hi : i < pgSize) :
    u.mem (p + BitVec.ofNat 32 i) = k.mem (p + BitVec.ofNat 32 i) := by
  have habove := hcur.above
  have hbelow := hcur.below
  unfold taskStructSize at habove
  have hat (n : Word) (hn : 4 ≤ n.toNat ∧ n.toNat ≤ 16) :
      (k.gpr .esp - n - cur).toNat + 4 ≤ pgSize := by bv_omega
  have hfirst : (cur + 0 - cur).toNat + 4 ≤ pgSize := by
    unfold pgSize
    bv_omega
  rw [switchTo_mem h, harg, write32_otherPage hcur.page hp hne hfirst hi]
  simp only [saveRegs, Machine.push_mem, Machine.push_gpr, Function.update_self, sub_sub]
  rw [write32_otherPage hcur.page hp hne (hat _ (by decide)) hi,
    write32_otherPage hcur.page hp hne (hat _ (by decide)) hi,
    write32_otherPage hcur.page hp hne (hat _ (by decide)) hi,
    write32_otherPage hcur.page hp hne (hat _ (by decide)) hi]

/-- `switch_to` goes on with the next task, and leaves the one that called where it can go on. -/
theorem switchTo_full (hk : k.Stack (back :: cur :: next :: l)) (hcur : OnStack cur (k.gpr .esp))
    (hin : (k.gpr .esp - cur).toNat + 4 * (3 + l.length) ≤ pgSize) (hne : cur ≠ next)
    (hnext : Stopped k.mem next f) :
    ∃ u, execAll gdt switchTo k = some u ∧ Resumed next f u ∧ u.seg = k.seg ∧
      Stopped u.mem cur ⟨(k.gpr .esp - 16 - cur).toNat, k.gpr .ebp, k.gpr .ebx, k.gpr .edi,
        k.gpr .esi, back, cur :: next :: l⟩ ∧
      ∀ p, p.toNat % pgSize = 0 → cur ≠ p → ∀ i < pgSize,
        u.mem (p + BitVec.ofNat 32 i) = k.mem (p + BitVec.ofNat 32 i) := by
  have habove := hcur.above
  have hpg : pgSize = 4096 := rfl
  have hsize : taskStructSize = 280 := rfl
  have hprefix : k.Stack [back, cur, next] := ⟨hk.1, hk.2.1, hk.2.2.1, True.intro⟩
  obtain ⟨u, hu, heip, hstack, hseg, hbp, hbx, hdi, hsi⟩ := switchTo_spec hprefix hcur hne hnext
  -- the stack of the task that stops
  have h1 := hk.push (w := k.gpr .esi) (by simp only [List.length_cons]; omega)
  have h2 := h1.push (w := k.gpr .edi) (by simp only [List.length_cons]; omega)
  have h3 := h2.push (w := k.gpr .ebx) (by simp only [List.length_cons]; omega)
  have h4 : (saveRegs k).Stack _ :=
    h3.push (w := k.gpr .ebp) (by simp only [List.length_cons]; omega)
  have hesp : (saveRegs k).gpr .esp = k.gpr .esp - 16 := by
    simp [saveRegs, sub_sub]
  have harg := (Holds.append (l := [_, _, _, _, _]) h4).1
  have harg' := (Holds.append (l := [_, _, _, _, _, _]) h4).1
  have harg1 : read32 (saveRegs k).mem ((saveRegs k).gpr .esp + 20) = cur := harg
  have harg2 : read32 (saveRegs k).mem ((saveRegs k).gpr .esp + 24) = next := harg'
  have hother := fun p hp hpne i hi => switchTo_other (p := p) hu hcur harg1 hp hpne (i := i) hi
  have hmem := switchTo_mem hu
  have hzero : cur + 0 = cur := by simp
  rw [harg1, hzero] at hmem
  have hcurStack : Holds u.mem ((saveRegs k).gpr .esp) (k.gpr .ebp :: k.gpr .ebx :: k.gpr .edi ::
      k.gpr .esi :: back :: cur :: next :: l) := by
    rw [hmem]
    apply h4.write
    · rw [hesp]
      bv_omega
    · rw [hesp]
      simp only [List.length_cons]
      bv_omega
  have hkept : StackKept next k.mem u.mem := fun i hi _ => hother next hnext.page hne i hi
  have hsaved := hnext.congr hkept
  refine ⟨u, hu, ⟨heip, hstack, ?_, hsaved.kstack, hbp, hbx, hdi, hsi⟩, hseg,
    ⟨hcur.page, ?_, ?_, ?_, ?_⟩, hother⟩
  · -- the stack pointer is the one that the task left in its block
    have harg3 : read32 u.mem ((saveRegs k).gpr .esp + 24) = next :=
      (Holds.append (l := [_, _, _, _, _, _]) hcurStack).1
    have hzero' : next + 0 = next := by simp
    rw [switchTo_esp hu, harg3, hzero', hsaved.kstack]
    bv_omega
  · have hfirst : read32 u.mem cur = (saveRegs k).gpr .esp := by
      rw [hmem]
      exact read32_write32 _ _ _
    rw [hfirst, hesp]
    simp only
    bv_omega
  · have hat : cur + BitVec.ofNat 32 (k.gpr .esp - 16 - cur).toNat = (saveRegs k).gpr .esp := by
      rw [hesp]
      bv_omega
    show Holds u.mem (cur + BitVec.ofNat 32 (k.gpr .esp - 16 - cur).toNat) _
    rw [hat]
    exact hcurStack
  · show taskStructSize ≤ (k.gpr .esp - 16 - cur).toNat
    bv_omega
  · show (k.gpr .esp - 16 - cur).toNat + 4 * (5 + (l.length + 1 + 1)) ≤ pgSize
    bv_omega

end

/-! ## All tasks go on where they stopped -/

section

variable {σ τ : Tasks} {c : SwitchCall} {next back : Word} {l : List Word}

/-- The stacks of the tasks that do not run are as they left them. -/
def StopsKept (σ : Tasks) : Prop :=
  ∀ p f, σ.stopped p = some f → p ≠ σ.cur ∧ Stopped σ.machine.mem p f

theorem switchStep_kept (h : StopsKept σ) (hc : switchCall σ c) (hstep : switchStep σ c = .ok τ) :
    StopsKept τ := by
  intro p f hp
  cases c with
  | work k =>
      cases hstep
      obtain ⟨hne, hstopped⟩ := h p f hp
      refine ⟨hne, hstopped.congr (hc p ?_)⟩
      rw [show σ.stopped p = some f from hp]
      exact Option.some_ne_none f
  | create pthread kernelThread function funcArg =>
      obtain ⟨hpage, hcur, hnew⟩ := hc
      cases hstep
      have hp' : Function.update σ.stopped pthread _ p = some f := hp
      by_cases hpp : p = pthread
      · subst hpp
        rw [Function.update_self] at hp'
        cases hp'
        exact ⟨hcur, threadCreate_stopped hpage rfl⟩
      · rw [Function.update_of_ne hpp] at hp'
        obtain ⟨hne, hstopped⟩ := h p f hp'
        refine ⟨hne, hstopped.congr fun i hi _ => ?_⟩
        exact threadCreate_other hpage hstopped.page (Ne.symm hpp) hi
  | switchTo next back l =>
      obtain ⟨hstack, hon, hin, hnext⟩ := hc
      obtain ⟨g, hg⟩ := Option.ne_none_iff_exists'.mp hnext
      obtain ⟨hnextCur, hgstopped⟩ := h next g hg
      obtain ⟨u, hu, -, -, hcurStopped, hother⟩ :=
        switchTo_full hstack hon hin hnextCur.symm hgstopped
      unfold switchStep at hstep
      simp only [hu] at hstep
      cases hstep
      have hp' : Function.update (Function.update σ.stopped σ.cur _) next none p = some f := hp
      by_cases hpn : p = next
      · rw [hpn, Function.update_self] at hp'
        cases hp'
      · rw [Function.update_of_ne hpn] at hp'
        refine ⟨hpn, ?_⟩
        by_cases hpc : p = σ.cur
        · rw [hpc, Function.update_self] at hp'
          cases hp'
          rw [hpc]
          exact hcurStopped
        · rw [Function.update_of_ne hpc] at hp'
          obtain ⟨-, hstopped⟩ := h p f hp'
          exact hstopped.congr fun i hi _ => hother p hstopped.page (Ne.symm hpc) i hi

theorem stopsKept_of_run (h : ∀ p, σ.stopped p = none) (hrun : Reach switchStep switchCall σ τ) :
    StopsKept τ :=
  hrun.invariant
    (fun p f hp => by
      rw [h p] at hp
      cases hp)
    fun _ _ _ hinv hcall hstep => switchStep_kept hinv hcall hstep

/-- A task that gets the processor goes on where it stopped. -/
theorem StopsKept.resume (h : StopsKept τ) (hc : switchCall τ (.switchTo next back l)) :
    ∃ f ρ, τ.stopped next = some f ∧ switchStep τ (.switchTo next back l) = .ok ρ ∧
      ρ.cur = next ∧ Resumed next f ρ.machine ∧ ρ.machine.seg = τ.machine.seg := by
  obtain ⟨hstack, hon, hin, hnext⟩ := hc
  obtain ⟨f, hf⟩ := Option.ne_none_iff_exists'.mp hnext
  obtain ⟨hne, hstopped⟩ := h next f hf
  obtain ⟨u, hu, hresumed, hseg, -, -⟩ := switchTo_full hstack hon hin hne.symm hstopped
  have hstep : switchStep τ (.switchTo next back l) = .ok ⟨u, next, Function.update
      (Function.update τ.stopped τ.cur (some (τ.context next back l))) next none⟩ := by
    unfold switchStep
    simp only [hu]
  exact ⟨f, _, hf, hstep, rfl, hresumed, hseg⟩

/-- However many tasks there are and in whatever order they switch, a task that gets the
processor goes on where it called `switch_to`, with its stack and its registers, or begins in
`kernel_thread` if it is new. -/
theorem tasks_resume (h : ∀ p, σ.stopped p = none) (hrun : Reach switchStep switchCall σ τ)
    (hc : switchCall τ (.switchTo next back l)) :
    ∃ f ρ, τ.stopped next = some f ∧ switchStep τ (.switchTo next back l) = .ok ρ ∧
      ρ.cur = next ∧ Resumed next f ρ.machine ∧ ρ.machine.seg = τ.machine.seg :=
  (stopsKept_of_run h hrun).resume hc

end

def mainTask : Tasks where
  machine := ⟨⟨fun _ => 0xc009ef00, fun _ => 0x10, 0xc0001500, 0x202⟩, fun _ => 0, 0, 0⟩
  cur := 0xc009e000
  stopped _ := none

/-- `main` makes a task and is about to switch to it. -/
theorem mainTask_creates (kernelThread function funcArg : Word) :
    ∃ τ retaddr, Reach switchStep switchCall mainTask τ ∧
      switchCall τ (.switchTo 0xc0100000 0xc0001600 []) ∧
      τ.stopped 0xc0100000 = some (newContext kernelThread retaddr function funcArg) ∧
      τ.machine.cpl = 0 := by
  have hcreate : switchCall mainTask (.create 0xc0100000 kernelThread function funcArg) :=
    ⟨by decide, by decide, rfl⟩
  let m := threadCreate (initKstack mainTask.machine.mem 0xc0100000) 0xc0100000 kernelThread
    function funcArg
  let retaddr := read32 m (0xc0100000 + BitVec.ofNat 32 (pgSize - 4 * 76 - 4 * 32 + 20))
  let σ : Tasks := { mainTask with
    machine := { mainTask.machine with mem := m }
    stopped := Function.update mainTask.stopped 0xc0100000
      (some (newContext kernelThread retaddr function funcArg)) }
  -- the arguments of the call
  let k := ((σ.machine.push 0xc0100000).push 0xc009e000).push 0xc0001600
  have hsp : σ.machine.gpr .esp = 0xc009ef00 := rfl
  have hesp : k.gpr .esp = 0xc009ef00 - 4 - 4 - 4 := rfl
  have hwork : switchCall σ (.work k) := by
    intro p hp i hi _
    by_cases hpp : p = 0xc0100000
    · rw [hpp]
      simp only [k, Machine.push_mem, Machine.push_gpr, Function.update_self, hsp]
      rw [write32_otherPage (c := 0xc009e000) (by decide) (by decide) (by decide) (by decide) hi,
        write32_otherPage (c := 0xc009e000) (by decide) (by decide) (by decide) (by decide) hi,
        write32_otherPage (c := 0xc009e000) (by decide) (by decide) (by decide) (by decide) hi]
    · exact (hp (Function.update_of_ne hpp _ _)).elim
  let τ : Tasks := { σ with machine := k }
  have hrun : Reach switchStep switchCall mainTask τ :=
    (Relation.ReflTransGen.single ⟨_, hcreate, rfl⟩).tail ⟨_, hwork, rfl⟩
  have hempty : σ.machine.Stack [] := True.intro
  have hstack : k.Stack [0xc0001600, 0xc009e000, 0xc0100000] :=
    ((hempty.push (by simp)).push (by simp)).push (by simp)
  have hon : OnStack 0xc009e000 (k.gpr .esp) := by
    rw [hesp]
    exact ⟨by decide, by decide, by decide⟩
  have hnew : τ.stopped 0xc0100000 = some (newContext kernelThread retaddr function funcArg) := by
    have hself : Function.update mainTask.stopped 0xc0100000
        (some (newContext kernelThread retaddr function funcArg)) 0xc0100000 =
          some (newContext kernelThread retaddr function funcArg) := Function.update_self ..
    exact hself
  refine ⟨τ, retaddr, hrun, ⟨hstack, hon, ?_, ?_⟩, hnew, (by decide : mainTask.machine.cpl = 0)⟩
  · show (k.gpr .esp - 0xc009e000).toNat + 4 * 3 ≤ pgSize
    rw [hesp]
    decide
  · rw [hnew]
    exact Option.some_ne_none _

/-- `main` makes a thread and switches to it. -/
theorem tasks_resume_new :
    ∃ τ, Reach switchStep switchCall mainTask τ ∧ ∃ f ρ, τ.stopped 0xc0100000 = some f ∧
      switchStep τ (.switchTo 0xc0100000 0xc0001600 []) = .ok ρ ∧ ρ.cur = 0xc0100000 ∧
        Resumed 0xc0100000 f ρ.machine ∧ ρ.machine.seg = τ.machine.seg := by
  obtain ⟨τ, -, hrun, hswitch, -, -⟩ := mainTask_creates 0xc0002000 0xc0003000 7
  exact ⟨τ, hrun, tasks_resume (fun _ => rfl) hrun hswitch⟩

end OsTruth
