/-
`ide_read` and `ide_write` of `device/ide.c` on the disks of one channel, one statement at
a time, with `intr_hd_handler`.

A task may be switched out between two statements, and an interrupt may come there.  The
handler, `sema_down` and `sema_up` run with interrupts off.  The bytes that go through the
ports are left out: whether the disk is ready in `busy_wait` is said by the step.
-/
import OsTruth.Fs.State
import OsTruth.Thread.Mutex

namespace OsTruth

open Runs

inductive IdeOp
  | read
  | write
  deriving DecidableEq, Repr

/-- The statement that a task executes next. -/
inductive IdePc
  | outside
  | assertLba
  | assertCnt
  | callAcquire
  | acquire
  | selectDisk
  | whileDone
  | selectSector
  | expect
  | outCmd
  | semaDown
  | busyWait
  | transfer
  | addDone
  | callRelease
  | release
  deriving DecidableEq, Repr

/-- A call with its arguments and its variables. -/
structure IdeTask where
  pc : IdePc
  blocked : Bool
  op : IdeOp
  lba : UInt32
  secCnt : UInt32
  secsDone : UInt32
  secsOp : UInt32

/-- What happens to `expecting_intr` and `disk_done`. -/
inductive IdeEvent
  | cmdOut (t : Nat)
  | semaUp
  | semaDown (t : Nat)
  deriving DecidableEq, Repr

/-- `struct ide_channel` with the tasks that use it and with what happened so far. -/
structure IdeState where
  lock : LockState
  expectingIntr : Bool
  diskDone : Semaphore
  task : Nat → IdeTask
  history : List IdeEvent

namespace IdeState

def setTask (σ : IdeState) (t : Nat) (p : IdeTask) : IdeState :=
  { σ with task := fun k => if k = t then p else σ.task k }

def goto (σ : IdeState) (t : Nat) (pc : IdePc) : IdeState :=
  σ.setTask t { σ.task t with pc := pc }

/-- A round of the loop of `sema_down(&channel->disk_done)`, and what follows the loop. -/
def semaDown (σ : IdeState) (t : Nat) (next : IdePc) : Except Fault IdeState := do
  let (s, last) ← σ.diskDone.down t
  let τ := { σ with diskDone := s }
  if last then pure ({ τ with history := σ.history ++ [IdeEvent.semaDown t] }.goto t next)
  else pure (τ.setTask t { σ.task t with blocked := true })

/-- `thread_unblock`, of a task that waits for the disk. -/
def threadUnblock (σ : IdeState) (t : Nat) : Except Fault IdeState := do
  assert ((σ.task t).blocked = true)
  pure (σ.setTask t { σ.task t with blocked := false })

/-- `sema_up(&channel->disk_done)`. -/
def semaUp (σ : IdeState) : Except Fault IdeState := do
  let (s, w) ← σ.diskDone.up
  let σ := { σ with diskDone := s }
  let τ ← w.elim (pure σ) σ.threadUnblock
  pure { τ with history := τ.history ++ [IdeEvent.semaUp] }

end IdeState

def intrHdHandler (σ : IdeState) : Except Fault IdeState :=
  if σ.expectingIntr = true then { σ with expectingIntr := false }.semaUp else pure σ

/-- The next statement of a task.  A read waits for the disk before the transfer, a write
behind it. -/
def ideGo (σ : IdeState) (t : Nat) (ready : Bool) : Except Fault IdeState :=
  let p := σ.task t
  match p.pc with
  | .outside => pure σ
  | .assertLba => do
      assert (p.lba ≤ maxLba)
      pure (σ.goto t .assertCnt)
  | .assertCnt => do
      assert (p.secCnt > 0)
      pure (σ.goto t .callAcquire)
  | .callAcquire => do
      let l ← lockStep σ.lock (.acquire t)
      pure ({ σ with lock := l }.goto t .acquire)
  | .acquire => do
      let l ← lockStep σ.lock (.go t)
      pure ({ σ with lock := l }.goto t (if l.phase t = Phase.inside then .selectDisk else .acquire))
  | .selectDisk => pure (σ.setTask t { p with pc := .whileDone, secsDone := 0 })
  | .whileDone =>
      if p.secsDone < p.secCnt then
        pure (σ.setTask t { p with
          pc := .selectSector
          secsOp := if p.secsDone + 256 ≤ p.secCnt then 256 else p.secCnt - p.secsDone })
      else pure (σ.goto t .callRelease)
  | .selectSector => do
      assert (p.lba + p.secsDone ≤ maxLba)
      pure (σ.goto t .expect)
  | .expect => pure ({ σ with
      expectingIntr := true
      history := σ.history ++ [IdeEvent.cmdOut t] }.goto t .outCmd)
  | .outCmd => pure (σ.goto t (match p.op with | .read => .semaDown | .write => .busyWait))
  | .semaDown => σ.semaDown t (match p.op with | .read => .busyWait | .write => .addDone)
  | .busyWait => do
      assert (ready = true)
      pure (σ.goto t .transfer)
  | .transfer => pure (σ.goto t (match p.op with | .read => .addDone | .write => .semaDown))
  | .addDone => pure (σ.setTask t { p with pc := .whileDone, secsDone := p.secsDone + p.secsOp })
  | .callRelease => do
      let l ← lockStep σ.lock (.release t)
      pure ({ σ with lock := l }.goto t .release)
  | .release => do
      let l ← lockStep σ.lock (.go t)
      pure ({ σ with lock := l }.goto t (if l.phase t = Phase.free then .outside else .release))

inductive IdeCall
  | ide (t : Nat) (op : IdeOp) (lba secCnt : UInt32)
  | go (t : Nat) (ready : Bool)
  | intr

def ideStep (σ : IdeState) : IdeCall → Except Fault IdeState
  | .ide t op lba secCnt => pure (σ.setTask t { σ.task t with
      pc := .assertLba, op := op, lba := lba, secCnt := secCnt })
  | .go t ready => ideGo σ t ready
  | .intr => intrHdHandler σ

/-- A task makes one call after another.  An interrupt may come at any time. -/
def ideCall (σ : IdeState) : IdeCall → Prop
  | .ide t _ _ _ => (σ.task t).pc = .outside
  | .go t _ => (σ.task t).pc ≠ .outside ∧ (σ.task t).blocked = false ∧
      (σ.lock.thread t).blocked = false
  | .intr => True

/-- The channel as `ide_init` leaves it. -/
def ideInit : IdeState where
  lock := lockUnused
  expectingIntr := false
  diskDone := ⟨0, []⟩
  task _ := ⟨.outside, false, .read, 0, 0, 0, 0⟩
  history := []

/-! ## The property -/

/-- How far a command is. -/
inductive IdeStage
  | idle
  | sent (t : Nat)
  | raised (t : Nat)

namespace IdeStage

def events : IdeStage → List IdeEvent
  | .idle => []
  | .sent t => [.cmdOut t]
  | .raised t => [.cmdOut t, .semaUp]

def expecting : IdeStage → Bool
  | .sent _ => true
  | _ => false

def value : IdeStage → UInt8
  | .raised _ => 1
  | _ => 0

def task : IdeStage → Option Nat
  | .idle => none
  | .sent t | .raised t => some t

end IdeStage

/-- The commands of the tasks `ts`, each with the `sema_up` that its `sema_down` took. -/
def ideRounds (ts : List Nat) : List IdeEvent :=
  ts.flatMap fun t => [.cmdOut t, .semaUp, .semaDown t]

/-- The statements that an argument or the disk can stop. -/
def IdePc.checks : IdePc → Bool
  | .assertLba | .assertCnt | .selectSector | .busyWait => true
  | _ => false

structure IdeRight (σ : IdeState) : Prop where
  value : σ.diskDone.value = 0 ∨ σ.diskDone.value = 1
  paired : ∃ ts s, σ.history = ideRounds ts ++ IdeStage.events s ∧
    σ.expectingIntr = s.expecting ∧ σ.diskDone.value = s.value ∧
    ∀ t, s = .raised t → σ.diskDone.waiters = [] ∧ (σ.task t).blocked = false
  returns : ∀ c, ideCall σ c → (∃ τ, ideStep σ c = .ok τ) ∨
    ∃ t ready, c = .go t ready ∧ (σ.task t).pc.checks = true

/-! ## The invariant -/

/-- Where a statement is with respect to the lock of the channel. -/
def IdePc.phase : IdePc → Phase
  | .outside | .assertLba | .assertCnt | .callAcquire => .free
  | .acquire => .acquiring
  | .release => .releasing
  | _ => .inside

/-- The command of the task is sent and its `sema_down` not passed. -/
def IdeTask.awaits (p : IdeTask) : Bool :=
  match p.pc, p.op with
  | .outCmd, _ | .semaDown, _ | .busyWait, .write | .transfer, .write => true
  | _, _ => false

structure IdeInv (σ : IdeState) (s : IdeStage) : Prop where
  lock : Mutex σ.lock
  phase : ∀ t, σ.lock.phase t = (σ.task t).pc.phase
  expecting : σ.expectingIntr = s.expecting
  value : σ.diskDone.value = s.value
  history : ∃ ts, σ.history = ideRounds ts ++ s.events
  task : ∀ t, (σ.task t).awaits = true ↔ s.task = some t
  nodup : σ.diskDone.waiters.Nodup
  waits : ∀ t, t ∈ σ.diskDone.waiters ↔ (σ.task t).blocked = true
  sleeps : ∀ t, (σ.task t).blocked = true → (σ.task t).pc = .semaDown ∧ s = .sent t

section

variable {σ τ : IdeState} {s : IdeStage} {t u : Nat} {p : IdeTask} {l : LockState} {pc : IdePc}

theorem IdeState.setTask_task (σ : IdeState) (t u : Nat) (p : IdeTask) :
    (σ.setTask t p).task u = if u = t then p else σ.task u := rfl

theorem ideInit_inv : IdeInv ideInit .idle where
  lock := lockUnused_mutex
  phase _ := rfl
  expecting := rfl
  value := rfl
  history := ⟨[], rfl⟩
  task t := by simp [ideInit, IdeTask.awaits, IdeStage.task]
  nodup := List.nodup_nil
  waits t := by simp [ideInit]
  sleeps t h := by simp [ideInit] at h

/-- A command is sent and waited for inside the lock. -/
theorem IdeTask.awaits_inside (h : p.awaits = true) : p.pc.phase = .inside := by
  unfold awaits at h
  unfold IdePc.phase
  cases hpc : p.pc <;> simp_all

theorem IdeInv.right (h : IdeInv σ s)
    (hreturns : ∀ c, ideCall σ c → (∃ τ, ideStep σ c = .ok τ) ∨
      ∃ t ready, c = .go t ready ∧ (σ.task t).pc.checks = true) : IdeRight σ where
  value := by
    rw [h.value]
    cases s <;> simp [IdeStage.value]
  paired := by
    obtain ⟨ts, hts⟩ := h.history
    refine ⟨ts, s, hts, h.expecting, h.value, ?_⟩
    rintro t rfl
    have hawake : ∀ u, (σ.task u).blocked = false := by
      intro u
      rw [← Bool.not_eq_true]
      intro hu
      cases (h.sleeps u hu).2
    refine ⟨?_, hawake t⟩
    rw [List.eq_nil_iff_forall_not_mem]
    intro u hu
    rw [h.waits, hawake] at hu
    cases hu
  returns := hreturns

/-! ## Steps -/

/-- What a step of task `t` has to keep. -/
theorem IdeInv.update {s' : IdeStage} (h : IdeInv σ s) (htask : τ.task = (σ.setTask t p).task)
    (hl : Mutex τ.lock) (hself : τ.lock.phase t = p.pc.phase)
    (hother : ∀ u, u ≠ t → τ.lock.phase u = σ.lock.phase u)
    (hexpecting : τ.expectingIntr = s'.expecting) (hvalue : τ.diskDone.value = s'.value)
    (hhistory : ∃ ts, τ.history = ideRounds ts ++ s'.events)
    (hawaits : p.awaits = true ↔ s'.task = some t)
    (hstage : ∀ u, u ≠ t → (s'.task = some u ↔ s.task = some u))
    (hnodup : τ.diskDone.waiters.Nodup) (hin : t ∈ τ.diskDone.waiters ↔ p.blocked = true)
    (hwaits : ∀ u, u ≠ t → (u ∈ τ.diskDone.waiters ↔ u ∈ σ.diskDone.waiters))
    (hsleep : p.blocked = true → p.pc = .semaDown ∧ s' = .sent t)
    (hsleeps : ∀ u, u ≠ t → (σ.task u).blocked = true → s' = s) : IdeInv τ s' := by
  have hat : ∀ u, τ.task u = if u = t then p else σ.task u := by
    intro u
    rw [htask]
    rfl
  refine ⟨hl, ?_, hexpecting, hvalue, hhistory, ?_, hnodup, ?_, ?_⟩
  · intro u
    rw [hat]
    by_cases hut : u = t
    · rw [if_pos hut, hut]
      exact hself
    · rw [if_neg hut]
      exact (hother u hut).trans (h.phase u)
  · intro u
    rw [hat]
    by_cases hut : u = t
    · rw [if_pos hut, hut]
      exact hawaits
    · rw [if_neg hut, hstage u hut]
      exact h.task u
  · intro u
    rw [hat]
    by_cases hut : u = t
    · rw [if_pos hut, hut]
      exact hin
    · rw [if_neg hut, hwaits u hut]
      exact h.waits u
  · intro u hu
    rw [hat] at hu ⊢
    by_cases hut : u = t
    · rw [if_pos hut] at hu ⊢
      rw [hut]
      exact hsleep hu
    · rw [if_neg hut] at hu ⊢
      rw [hsleeps u hut hu]
      exact h.sleeps u hu

/-- A task that is awake does not wait for the disk. -/
theorem IdeInv.awake (h : IdeInv σ s) (hblocked : (σ.task t).blocked = false) :
    t ∉ σ.diskDone.waiters := by
  rw [h.waits, hblocked]
  exact Bool.false_ne_true

/-- A task goes on without a word to the disk. -/
theorem IdeInv.move (h : IdeInv σ s) (hl : Mutex l) (hself : l.phase t = p.pc.phase)
    (hother : ∀ u, u ≠ t → l.phase u = σ.lock.phase u) (hawaits : p.awaits = (σ.task t).awaits)
    (hblocked : (σ.task t).blocked = false) (hp : p.blocked = false) :
    IdeInv ({ σ with lock := l }.setTask t p) s := by
  refine h.update (t := t) (p := p) rfl hl hself hother h.expecting h.value h.history
    ?_ ?_ ?_ ?_ ?_ ?_ ?_
  · rw [hawaits]
    exact h.task t
  · exact fun _ _ => Iff.rfl
  · exact h.nodup
  · exact iff_of_false (h.awake hblocked) (by simp [hp])
  · exact fun _ _ => Iff.rfl
  · simp [hp]
  · exact fun _ _ _ => rfl

theorem IdeInv.next (h : IdeInv σ s) (hphase : p.pc.phase = (σ.task t).pc.phase)
    (hawaits : p.awaits = (σ.task t).awaits) (hblocked : (σ.task t).blocked = false)
    (hp : p.blocked = false) : IdeInv (σ.setTask t p) s :=
  h.move (l := σ.lock) h.lock ((h.phase t).trans hphase.symm) (fun _ _ => rfl) hawaits hblocked hp

theorem IdeInv.advance (h : IdeInv σ s) (hblocked : (σ.task t).blocked = false)
    (hphase : pc.phase = (σ.task t).pc.phase)
    (hawaits : ({ σ.task t with pc := pc } : IdeTask).awaits = (σ.task t).awaits) :
    ∃ τ, (pure (σ.goto t pc) : Except Fault IdeState) = .ok τ ∧ ∃ s', IdeInv τ s' :=
  ⟨_, rfl, s, h.next hphase hawaits hblocked hblocked⟩

/-- A statement that asserts something and goes on. -/
theorem IdeInv.asserted (h : IdeInv σ s) (c : Prop) [Decidable c]
    (hblocked : (σ.task t).blocked = false) (hphase : pc.phase = (σ.task t).pc.phase)
    (hawaits : ({ σ.task t with pc := pc } : IdeTask).awaits = (σ.task t).awaits) :
    (∃ τ, (do
      assert c
      pure (σ.goto t pc)) = .ok τ ∧ ∃ s', IdeInv τ s') ∨
      (do
        assert c
        pure (σ.goto t pc)) = .error .assert := by
  by_cases hc : c
  · rw [assert_bind hc]
    exact Or.inl (h.advance hblocked hphase hawaits)
  · exact Or.inr (assert_bind_false hc _)

/-- A task inside the lock that does not wait for the disk finds it idle. -/
theorem IdeInv.idle (h : IdeInv σ s) (hpc : (σ.task t).pc.phase = .inside)
    (hawaits : (σ.task t).awaits = false) : s = .idle := by
  have hnone : ∀ u, s.task ≠ some u := by
    intro u hu
    have hu' := (h.task u).mpr hu
    have hut : u = t := by
      apply h.lock.one
      · rw [h.phase]
        exact IdeTask.awaits_inside hu'
      · rw [h.phase]
        exact hpc
    rw [hut, hawaits] at hu'
    cases hu'
  cases s with
  | idle => rfl
  | sent u => exact absurd rfl (hnone u)
  | raised u => exact absurd rfl (hnone u)

/-- Nobody sleeps unless a command is sent. -/
theorem IdeInv.no_sleep (h : IdeInv σ s) (hs : s.expecting = false) (u : Nat) :
    (σ.task u).blocked = false := by
  rw [← Bool.not_eq_true]
  intro hu
  rw [(h.sleeps u hu).2] at hs
  cases hs

/-- `cmd_out` sets `expecting_intr`. -/
theorem IdeInv.expect (h : IdeInv σ s) (hpc : (σ.task t).pc = .expect)
    (hblocked : (σ.task t).blocked = false) :
    IdeInv ({ σ with
      expectingIntr := true
      history := σ.history ++ [IdeEvent.cmdOut t] }.goto t .outCmd) (.sent t) := by
  have hidle : s = .idle := h.idle (t := t) (by rw [hpc]; rfl) (by simp [IdeTask.awaits, hpc])
  subst hidle
  obtain ⟨ts, hts⟩ := h.history
  refine h.update (t := t) (p := { σ.task t with pc := .outCmd }) rfl h.lock ?_ (fun _ _ => rfl)
    rfl h.value ?_ ?_ ?_ h.nodup ?_ ?_ ?_ ?_
  · show σ.lock.phase t = _
    rw [h.phase, hpc]
    rfl
  · refine ⟨ts, ?_⟩
    show σ.history ++ _ = _
    rw [hts, List.append_assoc]
    rfl
  · simp [IdeTask.awaits, IdeStage.task]
  · intro u hu
    simp [IdeStage.task, Ne.symm hu]
  · exact iff_of_false (h.awake hblocked) (by simp [hblocked])
  · exact fun _ _ => Iff.rfl
  · simp [hblocked]
  · intro u _ hu
    rw [h.no_sleep rfl u] at hu
    cases hu

/-- A task sleeps until the disk is done. -/
theorem IdeInv.block (h : IdeInv σ (.sent t)) (hpc : (σ.task t).pc = .semaDown)
    (hblocked : (σ.task t).blocked = false) :
    IdeInv ({ σ with diskDone.waiters := σ.diskDone.waiters ++ [t] }.setTask t
      { σ.task t with blocked := true }) (.sent t) := by
  refine h.update (t := t) (p := { σ.task t with blocked := true }) rfl h.lock (h.phase t)
    (fun _ _ => rfl) h.expecting h.value h.history ?_ ?_ ?_ ?_ ?_ ?_ ?_
  · exact h.task t
  · exact fun _ _ => Iff.rfl
  · apply h.nodup.append (List.nodup_singleton t)
    simpa using h.awake hblocked
  · simp [IdeState.setTask]
  · intro u hu
    simp [IdeState.setTask, hu]
  · exact fun _ => ⟨hpc, rfl⟩
  · exact fun _ _ _ => rfl

/-- The `sema_up` is taken. -/
theorem IdeInv.pass (h : IdeInv σ (.raised t)) (hpc : (σ.task t).pc = .semaDown)
    (hphase : pc.phase = .inside) (hawaits : ({ σ.task t with pc := pc } : IdeTask).awaits = false) :
    IdeInv ({ σ with
      diskDone.value := σ.diskDone.value - 1
      history := σ.history ++ [IdeEvent.semaDown t] }.goto t pc) .idle := by
  have hblocked := h.no_sleep rfl
  obtain ⟨ts, hts⟩ := h.history
  refine h.update (t := t) (p := { σ.task t with pc := pc }) rfl h.lock ?_ (fun _ _ => rfl)
    h.expecting ?_ ?_ ?_ ?_ h.nodup ?_ ?_ ?_ ?_
  · show σ.lock.phase t = _
    rw [h.phase, hpc]
    exact hphase.symm
  · show σ.diskDone.value - 1 = 0
    simp [h.value, IdeStage.value]
  · refine ⟨ts ++ [t], ?_⟩
    show σ.history ++ _ = _
    rw [hts]
    simp [ideRounds, IdeStage.events]
  · exact iff_of_false (by simpa using hawaits) (by simp [IdeStage.task])
  · intro u hu
    simp [IdeStage.task, Ne.symm hu]
  · exact iff_of_false (h.awake (hblocked t)) (by simp [hblocked])
  · exact fun _ _ => Iff.rfl
  · simp [hblocked]
  · intro u _ hu
    rw [hblocked] at hu
    cases hu

/-- The handler of a disk interrupt that is expected wakes the task that waits for it. -/
theorem IdeInv.intr (h : IdeInv σ (.sent t)) :
    ∃ τ, { σ with expectingIntr := false }.semaUp = .ok τ ∧ IdeInv τ (.raised t) := by
  obtain ⟨ts, hts⟩ := h.history
  have hzero : σ.diskDone.value = 0 := h.value
  have honly : ∀ u, (σ.task u).blocked = true → u = t := by
    intro u hu
    have hs := (h.sleeps u hu).2
    injection hs with hs
    exact hs.symm
  have hvalue : σ.diskDone.value + 1 = 1 := by
    rw [hzero]
    rfl
  have hhistory : σ.history ++ [IdeEvent.semaUp] = ideRounds ts ++ (IdeStage.raised t).events := by
    rw [hts, List.append_assoc]
    rfl
  cases hw : σ.diskDone.waiters with
  | nil =>
      have hasleep : ∀ u, (σ.task u).blocked = false := by
        intro u
        rw [← Bool.not_eq_true, ← h.waits, hw]
        exact List.not_mem_nil
      refine ⟨{ σ with
        expectingIntr := false
        diskDone.value := σ.diskDone.value + 1
        history := σ.history ++ [IdeEvent.semaUp] }, ?_, ?_⟩
      · unfold IdeState.semaUp
        rw [Semaphore.up_nil hzero hw]
        rfl
      · have htask : σ.task = (σ.setTask t (σ.task t)).task := by
          funext u
          rw [IdeState.setTask_task]
          by_cases hut : u = t
          · rw [if_pos hut, hut]
          · rw [if_neg hut]
        refine h.update (t := t) (p := σ.task t) htask h.lock (h.phase t) (fun _ _ => rfl) rfl
          hvalue ⟨ts, hhistory⟩ ?_ ?_ ?_ ?_ ?_ ?_ ?_
        · exact h.task t
        · exact fun _ _ => Iff.rfl
        · exact h.nodup
        · exact h.waits t
        · exact fun _ _ => Iff.rfl
        · simp [hasleep]
        · simp [hasleep]
  | cons w ws =>
      have hwb : (σ.task w).blocked = true := by
        rw [← h.waits, hw]
        exact List.mem_cons_self
      obtain rfl := honly w hwb
      have hnodup := h.nodup
      rw [hw, List.nodup_cons] at hnodup
      refine ⟨{ σ with
        expectingIntr := false
        diskDone := ⟨σ.diskDone.value + 1, ws⟩
        task := (σ.setTask w { σ.task w with blocked := false }).task
        history := σ.history ++ [IdeEvent.semaUp] }, ?_, ?_⟩
      · unfold IdeState.semaUp
        rw [Semaphore.up_cons hzero hw]
        show IdeState.threadUnblock _ w >>= _ = _
        unfold IdeState.threadUnblock
        rw [assert, if_pos hwb]
        rfl
      · refine h.update (t := w) (p := { σ.task w with blocked := false }) rfl h.lock (h.phase w)
          (fun _ _ => rfl) rfl hvalue ⟨ts, hhistory⟩ ?_ ?_ ?_ ?_ ?_ ?_ ?_
        · exact h.task w
        · exact fun _ _ => Iff.rfl
        · exact hnodup.2
        · exact iff_of_false hnodup.1 (by simp)
        · intro u hu
          rw [hw, List.mem_cons, or_iff_right hu]
        · simp
        · intro u hu hb
          exact absurd (honly u hb) hu

/-- A task whose `sema_down` comes has sent its command. -/
theorem IdeInv.stage (h : IdeInv σ s) (hawaits : (σ.task t).awaits = true) :
    s = .sent t ∨ s = .raised t := by
  have htask := (h.task t).mp hawaits
  cases s with
  | idle => cases htask
  | sent u =>
      cases htask
      exact Or.inl rfl
  | raised u =>
      cases htask
      exact Or.inr rfl

/-- `sema_down` takes the `sema_up` of its command, or waits for it. -/
theorem IdeInv.semaDown (h : IdeInv σ s) (hpc : (σ.task t).pc = .semaDown)
    (hblocked : (σ.task t).blocked = false) (hphase : pc.phase = .inside)
    (hawaits : ({ σ.task t with pc := pc } : IdeTask).awaits = false) :
    ∃ τ, σ.semaDown t pc = .ok τ ∧ ∃ s', IdeInv τ s' := by
  rcases h.stage (t := t) (by simp [IdeTask.awaits, hpc]) with rfl | rfl
  · have hzero : σ.diskDone.value = 0 := h.value
    have hwaits := h.awake hblocked
    refine ⟨_, ?_, _, h.block hpc hblocked⟩
    unfold IdeState.semaDown
    rw [Semaphore.down_zero hzero hwaits]
    rfl
  · have hone : σ.diskDone.value = 1 := h.value
    refine ⟨_, ?_, _, h.pass hpc hphase hawaits⟩
    unfold IdeState.semaDown
    rw [Semaphore.down_one hone]
    rfl

/-- The statements of a task. -/
theorem IdeInv.go (h : IdeInv σ s) (ready : Bool) (hpc : (σ.task t).pc ≠ .outside)
    (hblocked : (σ.task t).blocked = false) (hlock : (σ.lock.thread t).blocked = false) :
    (∃ τ, ideGo σ t ready = .ok τ ∧ ∃ s', IdeInv τ s') ∨
      (σ.task t).pc.checks = true ∧ ideGo σ t ready = .error .assert := by
  have hphase := h.phase t
  unfold ideGo
  simp only
  cases hat : (σ.task t).pc with
  | outside => exact absurd hat hpc
  | assertLba =>
      refine (h.asserted _ hblocked ?_ ?_).imp_right fun herror => ⟨rfl, herror⟩
      · rw [hat]
        rfl
      · simp [IdeTask.awaits, hat]
  | assertCnt =>
      refine (h.asserted _ hblocked ?_ ?_).imp_right fun herror => ⟨rfl, herror⟩
      · rw [hat]
        rfl
      · simp [IdeTask.awaits, hat]
  | callAcquire =>
      left
      rw [hat] at hphase
      obtain ⟨l, hstep, hl, hacq, hother⟩ := h.lock.acquire hphase
      rw [hstep]
      refine ⟨_, rfl, s, h.move hl hacq hother ?_ hblocked hblocked⟩
      simp [IdeTask.awaits, hat]
  | acquire =>
      left
      rw [hat] at hphase
      obtain ⟨l, hstep, hl, hnext, -, hother⟩ := h.lock.go (Or.inl hphase) hlock
      rw [hstep]
      refine ⟨_, rfl, s, h.move hl ?_ hother ?_ hblocked hblocked⟩
      · rcases hnext hphase with hself | hself <;> rw [hself] <;> rfl
      · rcases hnext hphase with hself | hself <;> simp [IdeTask.awaits, hat, hself]
  | selectDisk =>
      left
      refine ⟨_, rfl, s, h.next ?_ ?_ hblocked hblocked⟩
      · rw [hat]
        rfl
      · simp [IdeTask.awaits, hat]
  | whileDone =>
      left
      by_cases hlt : (σ.task t).secsDone < (σ.task t).secCnt
      · rw [if_pos hlt]
        refine ⟨_, rfl, s, h.next ?_ ?_ hblocked hblocked⟩
        · rw [hat]
          rfl
        · simp [IdeTask.awaits, hat]
      · rw [if_neg hlt]
        exact h.advance hblocked (by rw [hat]; rfl) (by simp [IdeTask.awaits, hat])
  | selectSector =>
      refine (h.asserted _ hblocked ?_ ?_).imp_right fun herror => ⟨rfl, herror⟩
      · rw [hat]
        rfl
      · simp [IdeTask.awaits, hat]
  | expect =>
      left
      exact ⟨_, rfl, _, h.expect hat hblocked⟩
  | outCmd =>
      left
      cases hop : (σ.task t).op with
      | read => exact h.advance hblocked (by rw [hat]; rfl) (by simp [IdeTask.awaits, hat])
      | write =>
          exact h.advance hblocked (by rw [hat]; rfl) (by simp [IdeTask.awaits, hat, hop])
  | semaDown =>
      left
      cases hop : (σ.task t).op with
      | read => exact h.semaDown hat hblocked rfl (by simp [IdeTask.awaits, hop])
      | write => exact h.semaDown hat hblocked rfl (by simp [IdeTask.awaits])
  | busyWait =>
      refine (h.asserted _ hblocked ?_ ?_).imp_right fun herror => ⟨rfl, herror⟩
      · rw [hat]
        rfl
      · cases hop : (σ.task t).op <;> simp [IdeTask.awaits, hat, hop]
  | transfer =>
      left
      cases hop : (σ.task t).op with
      | read =>
          exact h.advance hblocked (by rw [hat]; rfl) (by simp [IdeTask.awaits, hat, hop])
      | write =>
          exact h.advance hblocked (by rw [hat]; rfl) (by simp [IdeTask.awaits, hat, hop])
  | addDone =>
      left
      refine ⟨_, rfl, s, h.next ?_ ?_ hblocked hblocked⟩
      · rw [hat]
        rfl
      · simp [IdeTask.awaits, hat]
  | callRelease =>
      left
      rw [hat] at hphase
      obtain ⟨l, hstep, hl, hrel, hother⟩ := h.lock.release hphase
      rw [hstep]
      refine ⟨_, rfl, s, h.move hl hrel hother ?_ hblocked hblocked⟩
      simp [IdeTask.awaits, hat]
  | release =>
      left
      rw [hat] at hphase
      obtain ⟨l, hstep, hl, -, hnext, hother⟩ := h.lock.go (Or.inr hphase) hlock
      rw [hstep]
      refine ⟨_, rfl, s, h.move hl ?_ hother ?_ hblocked hblocked⟩
      · rcases hnext hphase with hself | hself <;> rw [hself] <;> rfl
      · rcases hnext hphase with hself | hself <;> simp [IdeTask.awaits, hat, hself]

theorem IdeInv.step (h : IdeInv σ s) {c : IdeCall} (hok : ideCall σ c) :
    (∃ τ, ideStep σ c = .ok τ ∧ ∃ s', IdeInv τ s') ∨
      (∃ t ready, c = .go t ready ∧ (σ.task t).pc.checks = true) ∧ ideStep σ c = .error .assert := by
  cases c with
  | ide t op lba secCnt =>
      have hpc : (σ.task t).pc = .outside := hok
      have hblocked : (σ.task t).blocked = false := by
        rw [← Bool.not_eq_true]
        intro hb
        have hdown := (h.sleeps t hb).1
        rw [hpc] at hdown
        cases hdown
      left
      refine ⟨_, rfl, s, h.next ?_ ?_ hblocked hblocked⟩
      · rw [hpc]
        rfl
      · simp [IdeTask.awaits, hpc]
  | go t ready =>
      obtain ⟨hpc, hblocked, hlock⟩ := hok
      rcases h.go ready hpc hblocked hlock with hgo | ⟨hchecks, hfail⟩
      · exact Or.inl hgo
      · exact Or.inr ⟨⟨t, ready, rfl, hchecks⟩, hfail⟩
  | intr =>
      left
      show ∃ τ, intrHdHandler σ = .ok τ ∧ _
      unfold intrHdHandler
      cases s with
      | sent t =>
          have hexp : σ.expectingIntr = true := h.expecting
          rw [if_pos hexp]
          obtain ⟨τ, hup, hτ⟩ := h.intr
          exact ⟨τ, hup, _, hτ⟩
      | idle =>
          have hexp : σ.expectingIntr = false := h.expecting
          rw [hexp, if_neg Bool.false_ne_true]
          exact ⟨σ, rfl, _, h⟩
      | raised t =>
          have hexp : σ.expectingIntr = false := h.expecting
          rw [hexp, if_neg Bool.false_ne_true]
          exact ⟨σ, rfl, _, h⟩

/-! ## Runs -/

/-- Over every run the commands and the interrupts are paired. -/
theorem ideRight_of_run (hrun : Reach ideStep ideCall ideInit τ) : IdeRight τ := by
  obtain ⟨s, hτ⟩ : ∃ s, IdeInv τ s := by
    refine hrun.invariant (I := fun σ => ∃ s, IdeInv σ s) ⟨.idle, ideInit_inv⟩ ?_
    intro σ c υ ⟨s, hσ⟩ hok hc
    rcases hσ.step hok with ⟨υ', hstep, hυ⟩ | ⟨-, hfail⟩
    · rw [hc, Except.ok.injEq] at hstep
      rw [hstep]
      exact hυ
    · rw [hc] at hfail
      cases hfail
  apply hτ.right
  intro c hok
  rcases hτ.step hok with ⟨υ, hstep, -⟩ | ⟨hchecks, -⟩
  · exact Or.inl ⟨υ, hstep⟩
  · exact Or.inr hchecks

instance (σ : IdeState) : ∀ c, Decidable (ideCall σ c)
  | .ide _ _ _ _ => inferInstanceAs (Decidable (_ = _))
  | .go _ _ => inferInstanceAs (Decidable (_ ∧ _))
  | .intr => inferInstanceAs (Decidable True)

/-- The interrupt for a read comes before the task waits, the one for a write wakes it. -/
theorem ideRight_two : ∃ τ, Reach ideStep ideCall ideInit τ ∧ IdeRight τ ∧
    τ.history = ideRounds [0, 1] := by
  obtain ⟨τ, hrun, hτ⟩ := exists_reach ideStep ideCall ideInit
    ([.ide 0 .read 0 1, .intr] ++ List.replicate 12 (.go 0 true) ++ [.intr] ++
      List.replicate 13 (.go 0 true) ++ [.ide 1 .write 5 1] ++ List.replicate 16 (.go 1 true) ++
      [.intr, .intr, .go 1 true])
    (fun τ => τ.history = ideRounds [0, 1]) (by decide +kernel) (by decide +kernel)
  exact ⟨τ, hrun, ideRight_of_run hrun, hτ⟩

end

end OsTruth
