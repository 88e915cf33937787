/-
The names of the processes that `sys_fork` makes, starting with `init`.

A child has the name of its parent with `_fork` behind it, in a field of 16 bytes, and
`copy_pcb_vaddrbitmap_stack0` asserts that the name of the parent is short enough.  The
tasks run as `thread/thread.c` schedules them.
-/
import OsTruth.Thread.Schedule
import OsTruth.Userprog.Fork

namespace OsTruth

open Fallible Runs

/-! ## Processes and the scheduler -/

/-- A task has the same number in both parts. -/
structure ForkTree where
  sys : System
  threads : Threads

/-- The running process forks.  Its child is linked into the lists as a task that
`thread_start` made, with the priority of its parent. -/
def ForkTree.fork (σ : ForkTree) (pages : Nat) : Except Fault ForkTree := do
  let (child, sys) ← σ.sys.exec σ.threads.cur (sysFork pages)
  match child with
  | none => pure { σ with sys := sys }
  | some child => do
      let (_, threads) ←
        (threadStart (σ.threads.thread σ.threads.cur).priority).run σ.threads
      pure ⟨sys.addProc child, threads⟩

inductive TreeCall
  | fork (pages : Nat)
  | sched (c : ThreadCall)

def treeStep (σ : ForkTree) : TreeCall → Except Fault ForkTree
  | .fork pages => σ.fork pages
  | .sched c => (threadStep σ.threads c).map fun threads => { σ with threads := threads }

def State.Supplied (s : State) (n : Nat) : Prop := ∀ i, i < n → s.supply i = true

instance (s : State) (n : Nat) : Decidable (s.Supplied n) :=
  inferInstanceAs (Decidable (∀ i, i < n → _))

/-- A process forks while memory suffices, or the tasks are scheduled. -/
def treeCall (σ : ForkTree) : TreeCall → Prop
  | .fork pages => σ.sys.kernel.Supplied (pages + 4) ∧
      (σ.sys.procs σ.threads.cur).any (fun pr => pr.task.pgdir)
  | .sched c => threadCall σ.threads c ∧ match c with
      | .start _ => False
      | _ => True

/-- `init`. -/
def initName : List UInt8 := [105, 110, 105, 116]

/-- A process that forks is `init` or a child of `init`, by its name. -/
def treeCallYoung (σ : ForkTree) : TreeCall → Prop
  | .fork _ => (σ.sys.procs σ.threads.cur).any fun pr =>
      pr.task.name == initName || pr.task.name == initName ++ forkSuffix
  | .sched _ => True

/-! ## Booting -/

def initThread (name : List UInt8) (pgdir : Bool) : Proc where
  task := ⟨pgdir, name, fun fd => if fd < 3 then fd else -1, 0⟩
  inodes _ := none
  dirs _ := none
  bufs := []

/-- `main`, `init` and `idle` after `thread_init`. -/
def bootTree (kernel : State) (threads : Threads) : ForkTree where
  sys :=
    { kernel := kernel
      procs := fun t =>
        if t = 0 then some (initThread [109, 97, 105, 110] false)
        else if t = 1 then some (initThread initName true)
        else if t = 2 then some (initThread [105, 100, 108, 101] false)
        else none
      nextPid := 3 }
  threads := threads

/-! ## The property -/

/-- `name` has 16 bytes, the last of them at the latest is the terminating zero. -/
def FitsName (name : List UInt8) : Prop := (0 : UInt8) ∉ name ∧ name.length < 16

def ForkTree.NamesFit (σ : ForkTree) : Prop :=
  ∀ t pr, σ.sys.procs t = some pr → FitsName pr.task.name

/-! ## One fork -/

/-- What a request for pages that is granted leaves alone. -/
structure Granted (s t : State) (n : Nat) : Prop where
  cur : t.cur = s.cur
  supply : t.supply = fun i => s.supply (n + i)

section
variable {s t u : State} {m n : Nat} {F : Fault → Prop} {pr : Proc} {σ τ : ForkTree}

theorem Granted.refl (s : State) : Granted s s 0 := ⟨rfl, by simp⟩

theorem Granted.trans (h : Granted s t m) (k : Granted t u n) : Granted s u (m + n) where
  cur := k.cur.trans h.cur
  supply := by
    rw [k.supply, h.supply]
    simp only [Nat.add_assoc]

theorem Granted.supplied (h : Granted s t m) (hs : s.Supplied (m + n)) : t.Supplied n := by
  intro i hi
  rw [h.supply]
  exact hs (m + i) (by omega)

theorem getPages_supplied {Q : Bool → State → Prop} (hs : s.Supplied 1)
    (hQ : ∀ t, Granted s t 1 → Q true t) : Wp getPages s F Q := by
  rw [wp_getPages, hs 0 Nat.one_pos]
  refine ⟨fun _ => hQ s.grant ⟨rfl, ?_⟩, fun hno => Bool.noConfusion hno⟩
  funext i
  exact congrArg s.supply (Nat.add_comm i 1)

/-- The child's name, or the assertion. -/
theorem wp_copyPcb (hs : s.Supplied 1) :
    Wp copyPcb s (fun e => e = .assert ∧ ¬s.cur.name.length < 11) fun r t =>
      s.cur.name.length < 11 ∧ Granted s t 1 ∧
        r = some { s.cur with name := s.cur.name ++ forkSuffix } := by
  unfold copyPcb
  rw [Wp.bind]
  apply getPages_supplied hs
  intro t ht
  show Wp (get >>= _) t _ _
  rw [Wp.bind, Wp.get, Wp.bind, wp_kassert, ht.cur]
  exact ⟨fun hlen => ⟨hlen, ht, rfl⟩, fun hlen => ⟨rfl, hlen⟩⟩

theorem copyBody_granted (pages : Nat) (hs : s.Supplied pages) :
    Wp (copyBody pages) s F fun _ t => Granted s t pages := by
  induction pages generalizing s with
  | zero => exact Granted.refl s
  | succ pages ih =>
      unfold copyBody
      rw [Wp.bind]
      apply getPages_supplied fun i hi => hs i (by omega)
      intro t ht
      apply (ih (ht.supplied fun i hi => hs i (by omega))).call
      intro _ u hu
      rw [Nat.add_comm]
      exact ht.trans hu

/-- A process without open files has no counts to raise. -/
theorem updateInodeOpenCnts_none {c : Task} {left localFd : Nat}
    (hfd : ∀ fd, localFd ≤ fd → c.fdTable fd = -1) :
    Wp (updateInodeOpenCnts c left localFd) s F fun _ t => t = s := by
  induction left generalizing localFd with
  | zero => exact rfl
  | succ left ih =>
      have hcur := hfd localFd (Nat.le_refl _)
      unfold updateInodeOpenCnts
      rw [Wp.bind, wp_kassert, hcur]
      refine ⟨fun _ => ?_, fun hn => absurd (by decide) hn⟩
      rw [Wp.bind, wp_when]
      refine ⟨fun hn => absurd rfl hn, fun _ => ?_⟩
      exact ih fun fd hle => hfd fd (by omega)

/-- `sys_fork` while memory suffices: the child, or the assertion about the name. -/
theorem wp_sysFork {pages : Nat} (hs : s.Supplied (pages + 4)) (hpgdir : s.cur.pgdir = true)
    (hfd : ∀ fd, 3 ≤ fd → s.cur.fdTable fd = -1) :
    Wp (sysFork pages) s (fun e => e = .assert ∧ ¬s.cur.name.length < 11) fun r t =>
      s.cur.name.length < 11 ∧ t.cur = s.cur ∧ ∃ child, r = some child ∧
        child.task = { s.cur with name := s.cur.name ++ forkSuffix } := by
  unfold sysFork
  rw [Wp.bind]
  apply getPages_supplied fun i hi => hs i (by omega)
  intro s₁ h₁
  have hs₁ : s₁.Supplied (pages + 3) := h₁.supplied fun i hi => hs i (by omega)
  show Wp (get >>= _) s₁ _ _
  rw [Wp.bind, Wp.get, Wp.bind, wp_kassert, h₁.cur]
  refine ⟨fun _ => ?_, fun hn => absurd hpgdir hn⟩
  unfold copyProcess
  rw [Wp.bind]
  apply getPages_supplied fun i hi => hs₁ i (by omega)
  intro s₂ h₂
  have hs₂ : s₂.Supplied (pages + 2) := h₂.supplied fun i hi => hs₁ i (by omega)
  have hcur₂ : s₂.cur = s.cur := h₂.cur.trans h₁.cur
  show Wp (copyPcb >>= _) s₂ _ _
  rw [Wp.bind]
  have hpcb := wp_copyPcb (s := s₂) fun i hi => hs₂ i (by omega)
  rw [hcur₂] at hpcb
  apply hpcb.call
  rintro r s₃ ⟨hlen, h₃, rfl⟩
  have hs₃ : s₃.Supplied (pages + 1) := h₃.supplied fun i hi => hs₂ i (by omega)
  show Wp (getPages >>= _) s₃ _ _
  rw [Wp.bind]
  apply getPages_supplied fun i hi => hs₃ i (by omega)
  intro s₄ h₄
  have hs₄ : s₄.Supplied pages := h₄.supplied fun i hi => hs₃ i (by omega)
  show Wp (copyBody pages >>= _) s₄ _ _
  rw [Wp.bind]
  apply (copyBody_granted pages hs₄).call
  intro _ s₅ h₅
  rw [Wp.bind, Wp.get, Wp.bind]
  apply (updateInodeOpenCnts_none (c := { s.cur with name := s.cur.name ++ forkSuffix })
    hfd).call
  rintro _ _ rfl
  refine ⟨hlen, ?_, _, rfl, ?_⟩
  · rw [h₅.cur, h₄.cur, h₃.cur, hcur₂]
  · simp [hpgdir]

/-! ## The invariant -/

/-- The name of a process that is so many forks away from `init`. -/
def forkName (n : Nat) : List UInt8 := initName ++ (List.replicate n forkSuffix).flatten

theorem forkName_succ (n : Nat) : forkName (n + 1) = forkName n ++ forkSuffix := by
  unfold forkName
  rw [List.replicate_succ', List.flatten_append, List.append_assoc]
  simp

theorem forkName_length (n : Nat) : (forkName n).length = 4 + 5 * n := by
  induction n with
  | zero => rfl
  | succ n ih =>
      rw [forkName_succ, List.length_append, ih]
      simp only [forkSuffix, List.length_cons, List.length_nil]
      omega

theorem forkName_fits {n : Nat} (hn : n ≤ 2) : FitsName (forkName n) := by
  have h : n = 0 ∨ n = 1 ∨ n = 2 := by omega
  rcases h with rfl | rfl | rfl <;> exact ⟨by decide, by decide⟩

/-- The process is at most two forks away from `init`; only processes fork. -/
structure NamedProc (pr : Proc) : Prop where
  fits : FitsName pr.task.name
  named : pr.task.pgdir = true → ∃ n, n ≤ 2 ∧ pr.task.name = forkName n
  noFd : ∀ fd, 3 ≤ fd → pr.task.fdTable fd = -1

structure TreeInv (σ : ForkTree) : Prop where
  sched : ∃ f, Scheduled σ.threads f
  count : σ.sys.nextPid = σ.threads.taskCnt
  alive : ∀ t, t < σ.threads.taskCnt → ∃ pr, σ.sys.procs t = some pr
  named : ∀ t pr, σ.sys.procs t = some pr → NamedProc pr

/-- A process that is allowed to fork is at most one fork away from `init`. -/
theorem young_iff (hpr : NamedProc pr) (hpgdir : pr.task.pgdir = true) :
    (pr.task.name == initName || pr.task.name == initName ++ forkSuffix) = true ↔
      pr.task.name.length < 11 := by
  obtain ⟨n, hn, hname⟩ := hpr.named hpgdir
  have h : n = 0 ∨ n = 1 ∨ n = 2 := by omega
  rw [hname]
  rcases h with rfl | rfl | rfl <;> decide

/-- The child of a process whose name is short enough. -/
theorem NamedProc.child {child : Proc} (hpr : NamedProc pr) (hpgdir : pr.task.pgdir = true)
    (hlen : pr.task.name.length < 11)
    (htask : child.task = { pr.task with name := pr.task.name ++ forkSuffix }) :
    NamedProc child := by
  obtain ⟨n, -, hname⟩ := hpr.named hpgdir
  rw [hname, forkName_length] at hlen
  have hchild : child.task.name = forkName (n + 1) := by
    rw [htask, forkName_succ, ← hname]
  refine ⟨?_, fun _ => ⟨n + 1, by omega, hchild⟩, ?_⟩
  · rw [hchild]
    exact forkName_fits (by omega)
  · rw [htask]
    exact hpr.noFd

theorem NamedProc.congr {pr' : Proc} (hpr : NamedProc pr) (htask : pr'.task = pr.task) :
    NamedProc pr' := by
  refine ⟨?_, ?_, ?_⟩ <;> rw [htask]
  · exact hpr.fits
  · exact hpr.named
  · exact hpr.noFd

/-- The parent, unchanged, and a child with the next number. -/
theorem TreeInv.grow {child : Proc} {threads : Threads} (hσ : TreeInv σ)
    (hsched : ∃ g, Scheduled threads g) (hcnt : threads.taskCnt = σ.threads.taskCnt + 1)
    (hparent : NamedProc (System.procOf t)) (hchild : NamedProc child) :
    TreeInv ⟨(σ.sys.leave σ.threads.cur t).addProc child, threads⟩ where
  sched := hsched
  count := by
    show σ.sys.nextPid + 1 = threads.taskCnt
    rw [hcnt, hσ.count]
  alive k hk := by
    show ∃ pr, (if k = σ.sys.nextPid then some child
      else if k = σ.threads.cur then some (System.procOf t) else σ.sys.procs k) = some pr
    have hk' : k < σ.threads.taskCnt + 1 := by rwa [← hcnt]
    by_cases hnew : k = σ.sys.nextPid
    · exact ⟨child, if_pos hnew⟩
    · rw [if_neg hnew]
      by_cases hcur : k = σ.threads.cur
      · exact ⟨_, if_pos hcur⟩
      · rw [if_neg hcur]
        rw [hσ.count] at hnew
        exact hσ.alive k (by omega)
  named k pr hk := by
    have hk' : (if k = σ.sys.nextPid then some child
      else if k = σ.threads.cur then some (System.procOf t) else σ.sys.procs k) = some pr := hk
    by_cases hnew : k = σ.sys.nextPid
    · rw [if_pos hnew] at hk'
      rw [← Option.some.inj hk']
      exact hchild
    · rw [if_neg hnew] at hk'
      by_cases hcur : k = σ.threads.cur
      · rw [if_pos hcur] at hk'
        rw [← Option.some.inj hk']
        exact hparent
      · rw [if_neg hcur] at hk'
        exact hσ.named k pr hk'

/-- The run of `sys_fork` in the tree. -/
theorem TreeInv.fork_run (hσ : TreeInv σ) {pages : Nat}
    (hpr : σ.sys.procs σ.threads.cur = some pr) (hs : σ.sys.kernel.Supplied (pages + 4))
    (hpgdir : pr.task.pgdir = true) :
    if pr.task.name.length < 11 then ∃ τ, σ.fork pages = .ok τ ∧ TreeInv τ
    else σ.fork pages = .error .assert := by
  have hnamed := hσ.named _ pr hpr
  have henter : (σ.sys.enter pr).cur = pr.task := rfl
  have hw := wp_sysFork (s := σ.sys.enter pr) hs hpgdir hnamed.noFd
  rw [henter] at hw
  unfold Wp at hw
  unfold ForkTree.fork System.exec
  cases hrun : (sysFork pages).run (σ.sys.enter pr) with
  | error e =>
      rw [hrun] at hw
      obtain ⟨rfl, hlen⟩ := hw
      rw [if_neg hlen]
      simp only [hpr, hrun]
      rfl
  | ok r =>
      rw [hrun] at hw
      obtain ⟨hlen, hcur, child, hr, htask⟩ := hw
      obtain ⟨f, hf⟩ := hσ.sched
      obtain ⟨_, threads, hstart, g, hg, -, hcnt, -⟩ :=
        returns_iff.mp (threadStart_returns hf (σ.threads.thread σ.threads.cur).priority)
      rw [if_pos hlen]
      refine ⟨⟨(σ.sys.leave σ.threads.cur r.2).addProc child, threads⟩, ?_, ?_⟩
      · simp only [hpr, hrun, hr]
        show (do
          let (_, threads) ← (threadStart _).run σ.threads
          pure (ForkTree.mk _ threads) : Except Fault ForkTree) = _
        rw [hstart]
        rfl
      · have hcur' : (r.2.cur) = pr.task := hcur
        exact hσ.grow ⟨g, hg⟩ hcnt (hnamed.congr hcur') (hnamed.child hpgdir hlen htask)

theorem TreeInv.sched_step {c : ThreadCall} (hσ : TreeInv σ) (hc : treeCall σ (.sched c)) :
    ∃ τ, treeStep σ (.sched c) = .ok τ ∧ TreeInv τ := by
  obtain ⟨f, hf⟩ := hσ.sched
  obtain ⟨_, threads, hrun, hg⟩ := returns_iff.mp (hf.call_returns hc.1)
  have hstart : ∀ prio, c ≠ .start prio := by
    rintro prio rfl
    exact hc.2
  have hcnt : threads.taskCnt = σ.threads.taskCnt :=
    ensures_iff.mp (ThreadCall.run_sameTasks hstart σ.threads) _ _ hrun
  refine ⟨{ σ with threads := threads }, ?_, hg, ?_, ?_, hσ.named⟩
  · simp only [treeStep, threadStep, hrun]
    rfl
  · rw [hcnt]
    exact hσ.count
  · rw [hcnt]
    exact hσ.alive

/-- A step that a process near enough to `init` makes. -/
theorem TreeInv.step {c : TreeCall} (hσ : TreeInv σ) (hc : treeCall σ c)
    (hyoung : treeCallYoung σ c) : ∃ τ, treeStep σ c = .ok τ ∧ TreeInv τ := by
  cases c with
  | sched c => exact hσ.sched_step hc
  | fork pages =>
      obtain ⟨pr, hpr, hpgdir⟩ := (Option.any_eq_true _ _).mp hc.2
      have hnamed := hσ.named _ pr hpr
      simp only [treeCallYoung, hpr, Option.any_some] at hyoung
      have h := hσ.fork_run hpr hc.1 hpgdir
      rwa [if_pos ((young_iff hnamed hpgdir).mp hyoung)] at h

/-- The assertion fails for every other process. -/
theorem TreeInv.stop {c : TreeCall} (hσ : TreeInv σ) (hc : treeCall σ c)
    (hold : ¬treeCallYoung σ c) : treeStep σ c = .error .assert := by
  cases c with
  | sched c => exact absurd True.intro hold
  | fork pages =>
      obtain ⟨pr, hpr, hpgdir⟩ := (Option.any_eq_true _ _).mp hc.2
      have hnamed := hσ.named _ pr hpr
      simp only [treeCallYoung, hpr, Option.any_some] at hold
      have h := hσ.fork_run hpr hc.1 hpgdir
      rwa [if_neg fun hlen => hold ((young_iff hnamed hpgdir).mpr hlen)] at h

theorem bootTree_inv {kernel : State} {threads : Threads} (hsched : ∃ f, Scheduled threads f)
    (hcnt : threads.taskCnt = 3) : TreeInv (bootTree kernel threads) where
  sched := hsched
  count := hcnt.symm
  alive t ht := by
    have ht' : t < 3 := by rwa [← hcnt]
    have h : t = 0 ∨ t = 1 ∨ t = 2 := by omega
    rcases h with rfl | rfl | rfl <;> exact ⟨_, rfl⟩
  named t pr hpr := by
    have hfd : ∀ fd : Nat, 3 ≤ fd → (if fd < 3 then (fd : Int) else -1) = -1 :=
      fun fd hle => if_neg (by omega)
    simp only [bootTree] at hpr
    split at hpr
    · rw [← Option.some.inj hpr]
      exact ⟨⟨by decide, by decide⟩, fun h => absurd h (by decide), hfd⟩
    · split at hpr
      · rw [← Option.some.inj hpr]
        exact ⟨⟨by decide, by decide⟩, fun _ => ⟨0, by decide, rfl⟩, hfd⟩
      · split at hpr
        · rw [← Option.some.inj hpr]
          exact ⟨⟨by decide, by decide⟩, fun h => absurd h (by decide), hfd⟩
        · cases hpr

/-! ## Runs -/

/-- While only `init` and its children fork, every name fits its field and every call
returns; a process further away from `init` that forks fails the assertion. -/
theorem forkTree_names (kernel : State) (values : Nat → UInt8)
    (hvalues : ∀ s, values s = 0 ∨ values s = 1) :
    ∃ threads, threadInit.run (bootThreads values) = .ok ((), threads) ∧
      ∀ τ, Reach treeStep (fun σ c => treeCall σ c ∧ treeCallYoung σ c)
          (bootTree kernel threads) τ →
        τ.NamesFit ∧ ∀ c, treeCall τ c →
          (treeCallYoung τ c → ∃ υ, treeStep τ c = .ok υ) ∧
            (¬treeCallYoung τ c → treeStep τ c = .error .assert) := by
  obtain ⟨_, threads, hinit, hsched, hcnt⟩ := returns_iff.mp (threadInit_returns hvalues)
  refine ⟨threads, hinit, fun τ hτ => ?_⟩
  have hinv : TreeInv τ := by
    apply hτ.invariant (bootTree_inv hsched hcnt)
    intro σ c υ hσ hc hstep
    obtain ⟨υ', hstep', hυ⟩ := hσ.step hc.1 hc.2
    rw [hstep, Except.ok.injEq] at hstep'
    rwa [hstep']
  refine ⟨fun t pr hpr => (hinv.named t pr hpr).fits, fun c hc => ⟨fun hyoung => ?_, ?_⟩⟩
  · obtain ⟨υ, hstep, -⟩ := hinv.step hc hyoung
    exact ⟨υ, hstep⟩
  · exact hinv.stop hc

instance (σ : ForkTree) : ∀ c, Decidable (treeCall σ c)
  | .fork _ => inferInstanceAs (Decidable (_ ∧ _))
  | .sched c => match c with
      | .start _ => inferInstanceAs (Decidable (_ ∧ False))
      | .tick | .yield | .block _ | .unblock _ | .down _ | .up _ | .resume =>
          inferInstanceAs (Decidable (_ ∧ True))

instance (σ : ForkTree) : ∀ c, Decidable (treeCallYoung σ c)
  | .fork _ => inferInstanceAs (Decidable (_ = true))
  | .sched _ => isTrue True.intro

/-- `main` yields to `init`, which forks, and its child forks when it runs. -/
def forkTwice : List TreeCall :=
  [.sched .yield, .fork 1, .sched .yield, .sched (.block .blocked), .sched .yield, .fork 1]

/-- `init` has a grandchild. -/
theorem forkTree_names_grandchild :
    ∃ threads τ, threadInit.run (bootThreads fun _ => 1) = .ok ((), threads) ∧
      Reach treeStep (fun σ c => treeCall σ c ∧ treeCallYoung σ c)
        (bootTree freshState threads) τ ∧ τ.NamesFit ∧
      (τ.sys.procs 4).any (fun pr => pr.task.name == forkName 2) := by
  obtain ⟨threads, hinit, hnames⟩ := forkTree_names freshState (fun _ => 1) fun _ => Or.inr rfl
  have hrun : (match threadInit.run (bootThreads fun _ => 1) with
      | .ok (_, threads) => decide (AllOk treeStep (fun σ c => treeCall σ c ∧ treeCallYoung σ c)
          (bootTree freshState threads) forkTwice ∧
        EndsIn treeStep (bootTree freshState threads) forkTwice
          fun τ => (τ.sys.procs 4).any (fun pr => pr.task.name == forkName 2) = true)
      | .error _ => false) = true := by decide +kernel
  rw [hinit] at hrun
  obtain ⟨hok, hends⟩ := of_decide_eq_true hrun
  obtain ⟨τ, hreach, hτ⟩ := exists_reach _ _ _ _ _ hok hends
  exact ⟨threads, τ, hinit, hreach, (hnames τ hreach).1, hτ⟩

/-- The grandchild of `init` forks too. -/
theorem forkTree_grandchild_stops :
    ∃ threads τ, threadInit.run (bootThreads fun _ => 1) = .ok ((), threads) ∧
      Reach treeStep treeCall (bootTree freshState threads) τ ∧ treeCall τ (.fork 1) ∧
      treeStep τ (.fork 1) = .error .assert := by
  obtain ⟨_, threads, hinit, -⟩ :=
    returns_iff.mp (threadInit_returns (v := fun _ => 1) fun _ => Or.inr rfl)
  have hrun : (match threadInit.run (bootThreads fun _ => 1) with
      | .ok (_, threads) => decide (AllOk treeStep treeCall (bootTree freshState threads)
          (forkTwice ++ [.sched .yield, .sched .yield, .sched .yield]) ∧
        EndsIn treeStep (bootTree freshState threads)
          (forkTwice ++ [.sched .yield, .sched .yield, .sched .yield])
          fun τ => treeCall τ (.fork 1) ∧
            (match treeStep τ (.fork 1) with
            | .error e => e == .assert
            | .ok _ => false) = true)
      | .error _ => false) = true := by decide +kernel
  rw [hinit] at hrun
  obtain ⟨hok, hends⟩ := of_decide_eq_true hrun
  obtain ⟨τ, hreach, hcall, hτ⟩ := exists_reach _ _ _ _ _ hok hends
  refine ⟨threads, τ, hinit, hreach, hcall, ?_⟩
  cases hstep : treeStep τ (.fork 1) with
  | ok υ =>
      rw [hstep] at hτ
      cases hτ
  | error e =>
      rw [hstep] at hτ
      rw [eq_of_beq hτ]

end

end OsTruth
