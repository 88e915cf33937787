/-
`lock_acquire` and `lock_release` of `thread/sync.c`, one statement at a time.

Any task may be switched out between two statements.  `sema_down` and `sema_up` run with
interrupts off and are one step each; a task that finds the value 0 in `sema_down` blocks
in its loop, and its next step tests the value again.
-/
import Mathlib.Data.List.Nodup
import OsTruth.Library.Runs
import OsTruth.Thread.Semaphore

namespace OsTruth

open Runs

/-- The statement that a task executes next, in the order of the source: those of
`lock_acquire`, then those of `lock_release`. -/
inductive LockPc
  | outside
  | ifHolder
  | semaDown
  | setHolder
  | assertZero
  | setOne
  | bump
  | assertHolder
  | ifNested
  | drop
  | assertOne
  | clearHolder
  | clearNr
  | semaUp
  deriving DecidableEq, Repr

/-- A task as far as one lock is concerned.  `passed` holds from its `sema_down` to its
`sema_up`; `depth` counts the acquisitions that returned and that no release has undone. -/
structure LockThread where
  pc : LockPc
  blocked : Bool
  passed : Bool
  depth : Nat

structure Lock extends Semaphore where
  holder : Option Nat
  holderRepeatNr : UInt32

def lockInit : Lock := ⟨⟨1, []⟩, none, 0⟩

/-- A lock and the tasks that use it. -/
structure LockState extends Lock where
  thread : Nat → LockThread

namespace LockState

def setThread (σ : LockState) (t : Nat) (p : LockThread) : LockState :=
  { σ with thread := fun k => if k = t then p else σ.thread k }

def goto (σ : LockState) (t : Nat) (pc : LockPc) : LockState :=
  σ.setThread t { σ.thread t with pc := pc }

/-- A round of the loop of `sema_down`, and what follows the loop. -/
def semaDown (σ : LockState) (t : Nat) : Except Fault LockState := do
  let (s, last) ← σ.toSemaphore.down t
  pure ({ σ with value := s.value, waiters := s.waiters }.setThread t
    (if last then { σ.thread t with pc := .setHolder, passed := true }
    else { σ.thread t with blocked := true }))

/-- `thread_unblock`, of a task that waits for this lock. -/
def threadUnblock (σ : LockState) (t : Nat) : Except Fault LockState := do
  assert ((σ.thread t).blocked = true)
  pure (σ.setThread t { σ.thread t with blocked := false })

def semaUp (σ : LockState) (t : Nat) : Except Fault LockState := do
  let (s, w) ← σ.toSemaphore.up
  let σ := { σ with value := s.value, waiters := s.waiters }
  let τ ← w.elim (pure σ) σ.threadUnblock
  pure (τ.setThread t { τ.thread t with pc := .outside, passed := false })

def go (σ : LockState) (t : Nat) : Except Fault LockState :=
  let p := σ.thread t
  match p.pc with
  | .outside => pure σ
  | .ifHolder => pure (σ.goto t (if σ.holder ≠ some t then .semaDown else .bump))
  | .semaDown => σ.semaDown t
  | .setHolder => pure ({ σ with holder := some t }.goto t .assertZero)
  | .assertZero => do
      assert (σ.holderRepeatNr = 0)
      pure (σ.goto t .setOne)
  | .setOne => pure ({ σ with holderRepeatNr := 1 }.setThread t { p with pc := .outside, depth := 1 })
  | .bump => pure ({ σ with holderRepeatNr := σ.holderRepeatNr + 1 }.setThread t
      { p with pc := .outside, depth := p.depth + 1 })
  | .assertHolder => do
      assert (σ.holder = some t)
      pure (σ.goto t .ifNested)
  | .ifNested => pure (σ.goto t (if σ.holderRepeatNr > 1 then .drop else .assertOne))
  | .drop => pure ({ σ with holderRepeatNr := σ.holderRepeatNr - 1 }.setThread t
      { p with pc := .outside, depth := p.depth - 1 })
  | .assertOne => do
      assert (σ.holderRepeatNr = 1)
      pure (σ.goto t .clearHolder)
  | .clearHolder => pure ({ σ with holder := none }.setThread t { p with pc := .clearNr, depth := 0 })
  | .clearNr => pure ({ σ with holderRepeatNr := 0 }.goto t .semaUp)
  | .semaUp => σ.semaUp t

end LockState

def lockUnused : LockState := { lockInit with thread := fun _ => ⟨.outside, false, false, 0⟩ }

inductive LockCall
  | acquire (t : Nat)
  | release (t : Nat)
  | go (t : Nat)

def lockStep (σ : LockState) : LockCall → Except Fault LockState
  | .acquire t => pure (σ.goto t .ifHolder)
  | .release t => pure (σ.goto t .assertHolder)
  | .go t => σ.go t

/-- A task makes one call after another, and releases what it acquired. -/
def lockCall (σ : LockState) : LockCall → Prop
  | .acquire t => (σ.thread t).pc = .outside
  | .release t => (σ.thread t).pc = .outside ∧ 0 < (σ.thread t).depth
  | .go t => (σ.thread t).pc ≠ .outside ∧ (σ.thread t).blocked = false

/-- The calls that nest fewer than 2^32 acquisitions, as `holder_repeat_nr` is a 32-bit
word. -/
def lockCallBelow (σ : LockState) (c : LockCall) : Prop :=
  lockCall σ c ∧ ∀ t, c = .acquire t → (σ.thread t).depth + 1 < 2 ^ 32

/-- The property of a lock. -/
structure LockRight (σ : LockState) : Prop where
  one : ∀ t u, 0 < (σ.thread t).depth → 0 < (σ.thread u).depth → t = u
  holds : ∀ t, 0 < (σ.thread t).depth →
    σ.holder = some t ∧ σ.holderRepeatNr.toNat = (σ.thread t).depth
  zero : σ.value = 0 ↔ ∃ t, (σ.thread t).passed = true

/-! ## The invariant -/

/-- A task that has not passed `sema_down`. -/
structure LockThread.Away (p : LockThread) : Prop where
  pc : p.pc = .outside ∨ p.pc = .ifHolder ∨ p.pc = .semaDown
  depth : p.depth = 0
  passed : p.passed = false
  blocked : p.blocked = true → p.pc = .semaDown

/-- What the fields are at each statement of the task that has passed `sema_down`. -/
def LockState.AtOwner (σ : LockState) (t : Nat) : LockPc → Nat → Prop
  | .semaDown, _ => False
  | .setHolder, depth => σ.holder = none ∧ σ.holderRepeatNr = 0 ∧ depth = 0
  | .assertZero, depth | .setOne, depth => σ.holder = some t ∧ σ.holderRepeatNr = 0 ∧ depth = 0
  | .clearNr, depth => σ.holder = none ∧ depth = 0
  | .semaUp, depth => σ.holder = none ∧ σ.holderRepeatNr = 0 ∧ depth = 0
  | .drop, depth => σ.holder = some t ∧ σ.holderRepeatNr.toNat = depth ∧ 1 < depth
  | .assertOne, depth | .clearHolder, depth =>
      σ.holder = some t ∧ σ.holderRepeatNr.toNat = depth ∧ depth = 1
  | .ifHolder, depth | .bump, depth =>
      σ.holder = some t ∧ σ.holderRepeatNr.toNat = depth ∧ 0 < depth ∧ depth + 1 < 2 ^ 32
  | .outside, depth | .assertHolder, depth | .ifNested, depth =>
      σ.holder = some t ∧ σ.holderRepeatNr.toNat = depth ∧ 0 < depth

/-- `o` is the task that has passed `sema_down`. -/
structure LockInv (σ : LockState) (o : Option Nat) : Prop where
  away : ∀ t, o ≠ some t → (σ.thread t).Away
  owner : ∀ t, o = some t → σ.AtOwner t (σ.thread t).pc (σ.thread t).depth ∧
    (σ.thread t).passed = true ∧ (σ.thread t).blocked = false
  free : o = none → σ.holder = none ∧ σ.holderRepeatNr = 0
  holder : ∀ t, σ.holder = some t → o = some t
  value : σ.value = if o = none then 1 else 0
  nodup : σ.waiters.Nodup
  waits : ∀ t, t ∈ σ.waiters ↔ (σ.thread t).blocked = true

section

variable {σ τ : LockState} {o : Option Nat} {t u : Nat} {p : LockThread} {c : LockCall}

theorem LockState.setThread_thread (σ : LockState) (t u : Nat) (p : LockThread) :
    (σ.setThread t p).thread u = if u = t then p else σ.thread u :=
  rfl

theorem lockUnused_inv : LockInv lockUnused none where
  away _ _ := ⟨Or.inl rfl, rfl, rfl, nofun⟩
  owner _ := nofun
  free _ := ⟨rfl, rfl⟩
  holder _ := nofun
  value := rfl
  nodup := List.nodup_nil
  waits _ := iff_of_false List.not_mem_nil Bool.false_ne_true

/-- Between the acquisition and the release the fields say who holds the lock. -/
theorem LockState.AtOwner.inside {pc : LockPc} {depth : Nat} (h : σ.AtOwner t pc depth)
    (hdepth : 0 < depth) : σ.holder = some t ∧ σ.holderRepeatNr.toNat = depth := by
  cases pc with
  | semaDown => exact h.elim
  | setHolder | assertZero | setOne | semaUp => exact absurd h.2.2 (Nat.ne_of_gt hdepth)
  | clearNr => exact absurd h.2 (Nat.ne_of_gt hdepth)
  | outside | ifHolder | bump | assertHolder | ifNested | drop | assertOne | clearHolder =>
      exact ⟨h.1, h.2.1⟩

theorem LockInv.right (h : LockInv σ o) : LockRight σ := by
  have hown : ∀ t, 0 < (σ.thread t).depth → o = some t := by
    intro t ht
    by_cases ho : o = some t
    · exact ho
    · rw [(h.away t ho).depth] at ht
      exact absurd ht (Nat.lt_irrefl 0)
  refine ⟨fun t u ht hu => ?_, fun t ht => (h.owner t (hown t ht)).1.inside ht, ?_⟩
  · exact Option.some.inj ((hown t ht).symm.trans (hown u hu))
  · rw [h.value]
    cases o with
    | none =>
        refine iff_of_false (by decide) ?_
        rintro ⟨t, ht⟩
        rw [(h.away t nofun).passed] at ht
        cases ht
    | some t => exact iff_of_true rfl ⟨t, (h.owner t rfl).2.1⟩

/-! ## Steps -/

/-- A task that has not passed `sema_down` goes on. -/
theorem LockInv.away_step (h : LockInv σ o) (ho : o ≠ some t) (hp : p.Away)
    (hblocked : p.blocked = (σ.thread t).blocked) : LockInv (σ.setThread t p) o where
  away u hu := by
    rw [LockState.setThread_thread]
    by_cases hut : u = t
    · rw [if_pos hut]
      exact hp
    · rw [if_neg hut]
      exact h.away u hu
  owner u hu := by
    have hut : u ≠ t := by
      rintro rfl
      exact ho hu
    have hold : (σ.setThread t p).thread u = σ.thread u := if_neg hut
    rw [hold]
    exact h.owner u hu
  free := h.free
  holder := h.holder
  value := h.value
  nodup := h.nodup
  waits u := by
    rw [LockState.setThread_thread]
    by_cases hut : u = t
    · rw [if_pos hut, hut, hblocked]
      exact h.waits t
    · rw [if_neg hut]
      exact h.waits u

/-- The task that has passed `sema_down` goes on. -/
theorem LockInv.owner_step (h : LockInv σ (some t)) (hvalue : τ.value = σ.value)
    (hwaiters : τ.waiters = σ.waiters) (hthread : τ.thread = (σ.setThread t p).thread)
    (hholder : ∀ u, τ.holder = some u → u = t) (hat : τ.AtOwner t p.pc p.depth)
    (hpassed : p.passed = true) (hblocked : p.blocked = false) : LockInv τ (some t) := by
  have hself : τ.thread t = p := by
    rw [hthread]
    exact if_pos rfl
  have hother : ∀ u, u ≠ t → τ.thread u = σ.thread u := by
    intro u hu
    rw [hthread]
    exact if_neg hu
  refine ⟨fun u hu => ?_, fun u hu => ?_, nofun, fun u hu => ?_, ?_, ?_, fun u => ?_⟩
  · rw [hother u fun hut => hu (hut ▸ rfl)]
    exact h.away u hu
  · cases hu
    rw [hself]
    exact ⟨hat, hpassed, hblocked⟩
  · rw [hholder u hu]
  · rw [hvalue]
    exact h.value
  · rw [hwaiters]
    exact h.nodup
  · rw [hwaiters]
    by_cases hut : u = t
    · rw [hut, hself, hblocked, h.waits, (h.owner t rfl).2.2]
    · rw [hother u hut]
      exact h.waits u

/-- A task blocks in `sema_down`. -/
theorem LockInv.block (h : LockInv σ o) (ho : o ≠ some t) (hpc : (σ.thread t).pc = .semaDown)
    (hblocked : (σ.thread t).blocked = false) :
    LockInv ({ σ with waiters := σ.waiters ++ [t] }.setThread t
      { σ.thread t with blocked := true }) o := by
  have hnew : t ∉ σ.waiters := by
    rw [h.waits, hblocked]
    exact Bool.false_ne_true
  refine ⟨fun u hu => ?_, fun u hu => ?_, h.free, h.holder, h.value, ?_, fun u => ?_⟩
  · rw [LockState.setThread_thread]
    by_cases hut : u = t
    · rw [if_pos hut]
      have haway := h.away t ho
      exact ⟨haway.pc, haway.depth, haway.passed, fun _ => hpc⟩
    · rw [if_neg hut]
      exact h.away u hu
  · have hut : u ≠ t := by
      rintro rfl
      exact ho hu
    rw [LockState.setThread_thread, if_neg hut]
    exact h.owner u hu
  · refine List.nodup_append.mpr ⟨h.nodup, List.nodup_singleton t, fun a ha b hb => ?_⟩
    rw [List.mem_singleton.mp hb]
    rintro rfl
    exact hnew ha
  · rw [LockState.setThread_thread]
    show u ∈ σ.waiters ++ [t] ↔ _
    rw [List.mem_append, List.mem_singleton]
    by_cases hut : u = t
    · rw [if_pos hut]
      exact iff_of_true (Or.inr hut) rfl
    · rw [if_neg hut, h.waits]
      exact or_iff_left hut

/-- A task passes `sema_down`. -/
theorem LockInv.pass (h : LockInv σ none) (hblocked : (σ.thread t).blocked = false) :
    LockInv ({ σ with value := σ.value - 1 }.setThread t
      { σ.thread t with pc := .setHolder, passed := true }) (some t) := by
  obtain ⟨hholder, hnr⟩ := h.free rfl
  refine ⟨fun u hu => ?_, fun u hu => ?_, nofun, fun u hu => ?_, ?_, h.nodup, fun u => ?_⟩
  · have hut : u ≠ t := by
      rintro rfl
      exact hu rfl
    rw [LockState.setThread_thread, if_neg hut]
    exact h.away u nofun
  · cases hu
    rw [LockState.setThread_thread, if_pos rfl]
    exact ⟨⟨hholder, hnr, (h.away t nofun).depth⟩, rfl, hblocked⟩
  · have hu' : σ.holder = some u := hu
    rw [hholder] at hu'
    cases hu'
  · show σ.value - 1 = 0
    rw [h.value]
    rfl
  · rw [LockState.setThread_thread]
    by_cases hut : u = t
    · rw [if_pos hut, hut]
      exact h.waits t
    · rw [if_neg hut]
      exact h.waits u

/-- The first waiter goes on. -/
theorem LockInv.wake (h : LockInv σ (some t)) {w : Nat} {ws : List Nat} (hw : σ.waiters = w :: ws) :
    LockInv ({ σ with waiters := ws }.setThread w { σ.thread w with blocked := false })
      (some t) := by
  have hmem : w ∈ σ.waiters := by
    rw [hw]
    exact List.mem_cons_self
  have hwt : w ≠ t := by
    rintro rfl
    have hblocked := (h.waits w).mp hmem
    rw [(h.owner w rfl).2.2] at hblocked
    cases hblocked
  have hnodup := h.nodup
  rw [hw] at hnodup
  obtain ⟨hnew, hnodup'⟩ := List.nodup_cons.mp hnodup
  refine ⟨fun u hu => ?_, fun u hu => ?_, nofun, h.holder, h.value, hnodup', fun u => ?_⟩
  · rw [LockState.setThread_thread]
    by_cases huw : u = w
    · rw [if_pos huw]
      have haway := h.away w fun heq => hwt (Option.some.inj heq).symm
      exact ⟨haway.pc, haway.depth, haway.passed, nofun⟩
    · rw [if_neg huw]
      exact h.away u hu
  · cases hu
    rw [LockState.setThread_thread, if_neg (Ne.symm hwt)]
    exact h.owner t rfl
  · rw [LockState.setThread_thread]
    by_cases huw : u = w
    · rw [if_pos huw, huw]
      exact iff_of_false hnew Bool.false_ne_true
    · rw [if_neg huw, ← h.waits u, hw, List.mem_cons, or_iff_right huw]
      exact Iff.rfl

theorem LockInv.up (h : LockInv σ (some t)) (hpc : (σ.thread t).pc = .semaUp) :
    LockInv ({ σ with value := σ.value + 1 }.setThread t
      { σ.thread t with pc := .outside, passed := false }) none := by
  obtain ⟨hat, -, hblocked⟩ := h.owner t rfl
  rw [hpc] at hat
  refine ⟨fun u _ => ?_, nofun, fun _ => ⟨hat.1, hat.2.1⟩, fun u hu => ?_, ?_, h.nodup,
    fun u => ?_⟩
  · rw [LockState.setThread_thread]
    by_cases hut : u = t
    · rw [if_pos hut]
      refine ⟨Or.inl rfl, hat.2.2, rfl, fun hb => ?_⟩
      rw [hblocked] at hb
      cases hb
    · rw [if_neg hut]
      exact h.away u fun heq => hut (Option.some.inj heq).symm
  · have hu' : σ.holder = some u := hu
    rw [hat.1] at hu'
    cases hu'
  · show σ.value + 1 = 1
    rw [h.value]
    rfl
  · rw [LockState.setThread_thread]
    by_cases hut : u = t
    · rw [if_pos hut, hut]
      exact h.waits t
    · rw [if_neg hut]
      exact h.waits u

theorem LockInv.semaUp (h : LockInv σ (some t)) (hpc : (σ.thread t).pc = .semaUp) :
    ∃ τ, σ.semaUp t = .ok τ ∧ LockInv τ none ∧
      (∀ u, u ≠ t → (τ.thread u).pc = (σ.thread u).pc ∧ (τ.thread u).depth = (σ.thread u).depth) ∧
      (τ.thread t).pc = .outside ∧ (τ.thread t).depth = (σ.thread t).depth := by
  have hzero : σ.value = 0 := h.value
  obtain ⟨υ, hup, hυ, hsame⟩ : ∃ υ, σ.semaUp t = .ok ({ υ with value := υ.value + 1 }.setThread t
      { υ.thread t with pc := .outside, passed := false }) ∧ LockInv υ (some t) ∧
        ∀ u, (υ.thread u).pc = (σ.thread u).pc ∧ (υ.thread u).depth = (σ.thread u).depth := by
    unfold LockState.semaUp
    cases hw : σ.waiters with
    | nil =>
        refine ⟨σ, ?_, h, fun _ => ⟨rfl, rfl⟩⟩
        rw [Semaphore.up_nil hzero hw]
        rfl
    | cons w ws =>
        have hmem : w ∈ σ.waiters := by
          rw [hw]
          exact List.mem_cons_self
        have hwt : t ≠ w := by
          rintro rfl
          have hblocked := (h.waits t).mp hmem
          rw [(h.owner t rfl).2.2] at hblocked
          cases hblocked
        refine ⟨_, ?_, h.wake hw, fun u => ?_⟩
        · rw [Semaphore.up_cons hzero hw]
          show LockState.threadUnblock _ w >>= _ = _
          unfold LockState.threadUnblock
          rw [assert, if_pos ((h.waits w).mp hmem)]
          rfl
        · rw [LockState.setThread_thread]
          by_cases huw : u = w
          · rw [if_pos huw, huw]
            exact ⟨rfl, rfl⟩
          · rw [if_neg huw]
            exact ⟨rfl, rfl⟩
  have hpc' : (υ.thread t).pc = .semaUp := (hsame t).1.trans hpc
  refine ⟨_, hup, hυ.up hpc', fun u hu => ?_, ?_, ?_⟩
  · rw [LockState.setThread_thread, if_neg hu]
    exact hsame u
  · rw [LockState.setThread_thread, if_pos rfl]
  · rw [LockState.setThread_thread, if_pos rfl]
    exact (hsame t).2

def LockPc.acquires : LockPc → Bool
  | .ifHolder | .semaDown | .setHolder | .assertZero | .setOne | .bump => true
  | _ => false

def LockPc.releases : LockPc → Bool
  | .assertHolder | .ifNested | .drop | .assertOne | .clearHolder | .clearNr | .semaUp => true
  | _ => false

/-- Where a statement of a task that does not nest its acquisitions leads. -/
structure GoStep (p q : LockThread) : Prop where
  acquires : p.pc.acquires = true → p.depth = 0 →
    (q.pc.acquires = true ∧ q.depth = 0) ∨ (q.pc = .outside ∧ q.depth = 1)
  releases : p.pc.releases = true → p.depth ≤ 1 →
    (q.pc.releases = true ∧ q.depth ≤ 1) ∨ (q.pc = .outside ∧ q.depth = 0)

theorem GoStep.of_acquires {p q : LockThread} (hp : p.pc.releases = false)
    (hq : p.depth = 0 → (q.pc.acquires = true ∧ q.depth = 0) ∨ (q.pc = .outside ∧ q.depth = 1)) :
    GoStep p q :=
  ⟨fun _ => hq, fun h => nomatch hp.symm.trans h⟩

theorem GoStep.of_releases {p q : LockThread} (hp : p.pc.acquires = false)
    (hq : p.depth ≤ 1 → (q.pc.releases = true ∧ q.depth ≤ 1) ∨ (q.pc = .outside ∧ q.depth = 0)) :
    GoStep p q :=
  ⟨fun h => (nomatch hp.symm.trans h), fun _ => hq⟩

/-- The other tasks stay where they are. -/
def LockMoved (σ τ : LockState) (t : Nat) : Prop :=
  ∀ u, u ≠ t → (τ.thread u).pc = (σ.thread u).pc ∧ (τ.thread u).depth = (σ.thread u).depth

theorem lockMoved_setThread (σ : LockState) {τ : LockState} (h : τ.thread = (σ.setThread t p).thread) :
    LockMoved σ τ t := by
  intro u hu
  have hold : τ.thread u = σ.thread u := by
    rw [h]
    exact if_neg hu
  rw [hold]
  exact ⟨rfl, rfl⟩

/-- What a step of a task leaves. -/
structure LockWent (σ : LockState) (t : Nat) (τ : LockState) (o : Option Nat) : Prop where
  inv : LockInv τ o
  moved : LockMoved σ τ t
  step : GoStep (σ.thread t) (τ.thread t)

theorem LockInv.owner_went (h : LockInv σ (some t)) (hvalue : τ.value = σ.value)
    (hwaiters : τ.waiters = σ.waiters) (hthread : τ.thread = (σ.setThread t p).thread)
    (hholder : ∀ u, τ.holder = some u → u = t) (hat : τ.AtOwner t p.pc p.depth)
    (hpassed : p.passed = true) (hblocked : p.blocked = false) (hstep : GoStep (σ.thread t) p) :
    LockWent σ t τ (some t) where
  inv := h.owner_step hvalue hwaiters hthread hholder hat hpassed hblocked
  moved := lockMoved_setThread σ hthread
  step := by
    have hself : τ.thread t = p := by
      rw [hthread]
      exact if_pos rfl
    rw [hself]
    exact hstep

/-- A statement of the task that has passed `sema_down`. -/
theorem LockInv.owner_go (h : LockInv σ (some t)) (hpc : (σ.thread t).pc ≠ .outside) :
    ∃ τ o, σ.go t = .ok τ ∧ LockWent σ t τ o := by
  obtain ⟨hat, hpassed, hblocked⟩ := h.owner t rfl
  have hholder : ∀ u, σ.holder = some u → u = t := fun u hu =>
    (Option.some.inj (h.holder u hu)).symm
  have hself : ∀ u, some t = some u → u = t := fun u hu => (Option.some.inj hu).symm
  unfold LockState.go
  simp only
  cases hat' : (σ.thread t).pc with
  | outside => exact absurd hat' hpc
  | semaDown =>
      rw [hat'] at hat
      exact hat.elim
  | ifHolder =>
      rw [hat'] at hat
      obtain ⟨hown, hnr, hpos, hlt⟩ := hat
      refine ⟨_, some t, rfl, ?_⟩
      rw [hown, if_neg (not_not.mpr rfl)]
      refine h.owner_went rfl rfl rfl hholder ⟨hown, hnr, hpos, hlt⟩ hpassed hblocked
        (GoStep.of_acquires (by rw [hat']; rfl) fun hzero => ?_)
      exact absurd hzero (Nat.ne_of_gt hpos)
  | setHolder =>
      rw [hat'] at hat
      obtain ⟨-, hnr, hzero⟩ := hat
      refine ⟨_, some t, rfl, h.owner_went rfl rfl rfl hself ⟨rfl, hnr, hzero⟩ hpassed hblocked
        (GoStep.of_acquires (by rw [hat']; rfl) fun _ => Or.inl ⟨rfl, hzero⟩)⟩
  | assertZero =>
      rw [hat'] at hat
      obtain ⟨hown, hnr, hzero⟩ := hat
      refine ⟨σ.goto t .setOne, some t, ?_, h.owner_went rfl rfl rfl hholder ⟨hown, hnr, hzero⟩
        hpassed hblocked (GoStep.of_acquires (by rw [hat']; rfl) fun _ => Or.inl ⟨rfl, hzero⟩)⟩
      exact assert_bind hnr _
  | setOne =>
      rw [hat'] at hat
      obtain ⟨hown, hnr, hzero⟩ := hat
      exact ⟨_, some t, rfl, h.owner_went rfl rfl rfl hholder ⟨hown, rfl, Nat.zero_lt_one⟩ hpassed
        hblocked (GoStep.of_acquires (by rw [hat']; rfl) fun _ => Or.inr ⟨rfl, rfl⟩)⟩
  | bump =>
      rw [hat'] at hat
      obtain ⟨hown, hnr, hpos, hlt⟩ := hat
      have hsum : (σ.holderRepeatNr + 1).toNat = (σ.thread t).depth + 1 := by
        rw [UInt32.toNat_add, hnr]
        exact Nat.mod_eq_of_lt hlt
      refine ⟨_, some t, rfl, h.owner_went rfl rfl rfl hholder ⟨hown, hsum, Nat.succ_pos _⟩ hpassed
        hblocked (GoStep.of_acquires (by rw [hat']; rfl) fun hzero => ?_)⟩
      exact absurd hzero (Nat.ne_of_gt hpos)
  | assertHolder =>
      rw [hat'] at hat
      obtain ⟨hown, hnr, hpos⟩ := hat
      refine ⟨σ.goto t .ifNested, some t, ?_, h.owner_went rfl rfl rfl hholder ⟨hown, hnr, hpos⟩
        hpassed hblocked (GoStep.of_releases (by rw [hat']; rfl) fun hle => Or.inl ⟨rfl, hle⟩)⟩
      exact assert_bind hown _
  | ifNested =>
      rw [hat'] at hat
      obtain ⟨hown, hnr, hpos⟩ := hat
      refine ⟨_, some t, rfl, ?_⟩
      by_cases hgt : σ.holderRepeatNr > 1
      · rw [if_pos hgt]
        have hlt : 1 < (σ.thread t).depth := hnr ▸ UInt32.lt_iff_toNat_lt.mp hgt
        exact h.owner_went rfl rfl rfl hholder ⟨hown, hnr, hlt⟩ hpassed hblocked
          (GoStep.of_releases (by rw [hat']; rfl) fun hle => Or.inl ⟨rfl, hle⟩)
      · rw [if_neg hgt]
        have hle : (σ.thread t).depth ≤ 1 := by
          rw [← hnr]
          exact Nat.le_of_not_lt fun hlt => hgt (UInt32.lt_iff_toNat_lt.mpr hlt)
        exact h.owner_went rfl rfl rfl hholder ⟨hown, hnr, Nat.le_antisymm hle hpos⟩ hpassed hblocked
          (GoStep.of_releases (by rw [hat']; rfl) fun hle => Or.inl ⟨rfl, hle⟩)
  | drop =>
      rw [hat'] at hat
      obtain ⟨hown, hnr, hlt⟩ := hat
      have hsub : (σ.holderRepeatNr - 1).toNat = (σ.thread t).depth - 1 := by
        have hle : (1 : UInt32) ≤ σ.holderRepeatNr := by
          rw [UInt32.le_iff_toNat_le, hnr]
          exact Nat.le_of_lt hlt
        rw [UInt32.toNat_sub_of_le _ _ hle, hnr]
        rfl
      refine ⟨_, some t, rfl, h.owner_went rfl rfl rfl hholder ⟨hown, hsub, Nat.sub_pos_of_lt hlt⟩
        hpassed hblocked (GoStep.of_releases (by rw [hat']; rfl) fun hle => ?_)⟩
      exact absurd hlt (Nat.not_lt.mpr hle)
  | assertOne =>
      rw [hat'] at hat
      obtain ⟨hown, hnr, hone⟩ := hat
      have hnr' : σ.holderRepeatNr = 1 := UInt32.toNat_inj.mp (hnr.trans hone)
      refine ⟨σ.goto t .clearHolder, some t, ?_, h.owner_went rfl rfl rfl hholder ⟨hown, hnr, hone⟩
        hpassed hblocked (GoStep.of_releases (by rw [hat']; rfl) fun hle => Or.inl ⟨rfl, hle⟩)⟩
      exact assert_bind hnr' _
  | clearHolder =>
      exact ⟨_, some t, rfl, h.owner_went rfl rfl rfl nofun ⟨rfl, rfl⟩ hpassed hblocked
        (GoStep.of_releases (by rw [hat']; rfl) fun _ => Or.inl ⟨rfl, Nat.zero_le 1⟩)⟩
  | clearNr =>
      rw [hat'] at hat
      obtain ⟨hown, hzero⟩ := hat
      exact ⟨_, some t, rfl, h.owner_went rfl rfl rfl hholder ⟨hown, rfl, hzero⟩ hpassed hblocked
        (GoStep.of_releases (by rw [hat']; rfl) fun hle => Or.inl ⟨rfl, hle⟩)⟩
  | semaUp =>
      obtain ⟨τ, hup, hinv, hmoved, hout, hdepth⟩ := h.semaUp hat'
      rw [hat'] at hat
      exact ⟨τ, none, hup, hinv, hmoved, GoStep.of_releases (by rw [hat']; rfl) fun _ =>
        Or.inr ⟨hout, hdepth.trans hat.2.2⟩⟩

/-- A statement of a task that has not passed `sema_down`. -/
theorem LockInv.away_go (h : LockInv σ o) (ho : o ≠ some t) (hpc : (σ.thread t).pc ≠ .outside)
    (hblocked : (σ.thread t).blocked = false) : ∃ τ o, σ.go t = .ok τ ∧ LockWent σ t τ o := by
  have haway := h.away t ho
  rcases haway.pc with hat | hat | hat
  · exact absurd hat hpc
  · have hne : σ.holder ≠ some t := fun heq => ho (h.holder t heq)
    refine ⟨σ.goto t .semaDown, o, ?_, ?_, lockMoved_setThread σ rfl, ?_⟩
    · unfold LockState.go
      simp only
      rw [hat]
      show pure (σ.goto t (if σ.holder ≠ some t then .semaDown else .bump)) = _
      rw [if_pos hne]
      rfl
    · exact h.away_step ho ⟨Or.inr (Or.inr rfl), haway.depth, haway.passed, fun _ => rfl⟩ rfl
    · have hself : (σ.goto t .semaDown).thread t = { σ.thread t with pc := .semaDown } := if_pos rfl
      rw [hself]
      exact GoStep.of_acquires (by rw [hat]; rfl) fun hzero => Or.inl ⟨rfl, hzero⟩
  · have hgo : σ.go t = σ.semaDown t := by
      unfold LockState.go
      simp only
      rw [hat]
    rw [hgo]
    unfold LockState.semaDown
    cases o with
    | some u =>
        have hzero : σ.value = 0 := h.value
        have hnew : t ∉ σ.waiters := by
          rw [h.waits, hblocked]
          exact Bool.false_ne_true
        refine ⟨_, some u, ?_, h.block ho hat hblocked, lockMoved_setThread σ rfl, ?_⟩
        · rw [Semaphore.down_zero hzero hnew]
          rfl
        · have hself : ({ σ with waiters := σ.waiters ++ [t] }.setThread t
              { σ.thread t with blocked := true }).thread t =
                { σ.thread t with blocked := true } := if_pos rfl
          rw [hself]
          exact GoStep.of_acquires (by rw [hat]; rfl) fun hzero =>
            Or.inl ⟨by show (σ.thread t).pc.acquires = true; rw [hat]; rfl, hzero⟩
    | none =>
        have hone : σ.value = 1 := h.value
        refine ⟨_, some t, ?_, h.pass hblocked, lockMoved_setThread σ rfl, ?_⟩
        · rw [Semaphore.down_one hone]
          rfl
        · have hself : ({ σ with value := σ.value - 1 }.setThread t { σ.thread t with
              pc := .setHolder, passed := true }).thread t =
                { σ.thread t with pc := .setHolder, passed := true } := if_pos rfl
          rw [hself]
          exact GoStep.of_acquires (by rw [hat]; rfl) fun hzero => Or.inl ⟨rfl, hzero⟩

def LockCall.task : LockCall → Nat
  | .acquire t | .release t | .go t => t

/-- What a call leaves; it never fails. -/
structure LockStepped (σ : LockState) (c : LockCall) (τ : LockState) (o : Option Nat) : Prop where
  inv : LockInv τ o
  moved : LockMoved σ τ c.task
  acquire : ∀ t, c = .acquire t → (τ.thread t).pc = .ifHolder ∧
    (τ.thread t).depth = (σ.thread t).depth
  release : ∀ t, c = .release t → (τ.thread t).pc = .assertHolder ∧
    (τ.thread t).depth = (σ.thread t).depth
  go : ∀ t, c = .go t → GoStep (σ.thread t) (τ.thread t)

theorem LockInv.step (h : LockInv σ o) (hok : lockCallBelow σ c) :
    ∃ τ o, lockStep σ c = .ok τ ∧ LockStepped σ c τ o := by
  obtain ⟨hok, hbelow⟩ := hok
  cases c with
  | acquire t =>
      have hpc : (σ.thread t).pc = .outside := hok
      have hself : (σ.goto t .ifHolder).thread t = { σ.thread t with pc := .ifHolder } := if_pos rfl
      refine ⟨σ.goto t .ifHolder, o, rfl, ?_, lockMoved_setThread σ rfl, ?_, nofun, nofun⟩
      · by_cases ho : o = some t
        · rw [ho] at h ⊢
          obtain ⟨hat, hpassed, hblocked⟩ := h.owner t rfl
          rw [hpc] at hat
          exact h.owner_step rfl rfl rfl (fun u hu => (Option.some.inj (h.holder u hu)).symm)
            ⟨hat.1, hat.2.1, hat.2.2, hbelow t rfl⟩ hpassed hblocked
        · have haway := h.away t ho
          refine h.away_step ho ⟨Or.inr (Or.inl rfl), haway.depth, haway.passed, fun hb => ?_⟩ rfl
          have hpc' := haway.blocked hb
          rw [hpc] at hpc'
          cases hpc'
      · intro u hu
        cases hu
        rw [hself]
        exact ⟨rfl, rfl⟩
  | release t =>
      obtain ⟨hpc, hpos⟩ := hok
      have hself : (σ.goto t .assertHolder).thread t = { σ.thread t with pc := .assertHolder } :=
        if_pos rfl
      have ho : o = some t := by
        by_cases ho : o = some t
        · exact ho
        · rw [(h.away t ho).depth] at hpos
          exact absurd hpos (Nat.lt_irrefl 0)
      refine ⟨σ.goto t .assertHolder, o, rfl, ?_, lockMoved_setThread σ rfl, nofun, ?_, nofun⟩
      · rw [ho] at h ⊢
        obtain ⟨hat, hpassed, hblocked⟩ := h.owner t rfl
        rw [hpc] at hat
        exact h.owner_step rfl rfl rfl (fun u hu => (Option.some.inj (h.holder u hu)).symm)
          hat hpassed hblocked
      · intro u hu
        cases hu
        rw [hself]
        exact ⟨rfl, rfl⟩
  | go t =>
      obtain ⟨hpc, hblocked⟩ := hok
      obtain ⟨τ, o', hgo, hwent⟩ : ∃ τ o, σ.go t = .ok τ ∧ LockWent σ t τ o := by
        by_cases ho : o = some t
        · rw [ho] at h
          exact h.owner_go hpc
        · exact h.away_go ho hpc hblocked
      refine ⟨τ, o', hgo, hwent.inv, hwent.moved, nofun, nofun, fun u hu => ?_⟩
      cases hu
      exact hwent.step

/-! ## Runs -/

instance (σ : LockState) : ∀ c, Decidable (lockCall σ c)
  | .acquire _ => inferInstanceAs (Decidable (_ = _))
  | .release _ => inferInstanceAs (Decidable (_ ∧ _))
  | .go _ => inferInstanceAs (Decidable (_ ∧ _))

instance (σ : LockState) : ∀ c, Decidable (lockCallBelow σ c)
  | .acquire t => decidable_of_iff (lockCall σ (.acquire t) ∧ (σ.thread t).depth + 1 < 2 ^ 32)
      ⟨fun h => ⟨h.1, fun _ ht => by cases ht; exact h.2⟩, fun h => ⟨h.1, h.2 t rfl⟩⟩
  | .release t => decidable_of_iff (lockCall σ (.release t)) ⟨fun h => ⟨h, nofun⟩, fun h => h.1⟩
  | .go t => decidable_of_iff (lockCall σ (.go t)) ⟨fun h => ⟨h, nofun⟩, fun h => h.1⟩

/-- Over every run the lock is right, and no assertion fails. -/
theorem lockRight_of_run (hrun : Reach lockStep lockCallBelow lockUnused τ) :
    LockRight τ ∧ ∀ c, lockCallBelow τ c → ∃ υ, lockStep τ c = .ok υ := by
  obtain ⟨o, hτ⟩ : ∃ o, LockInv τ o := by
    refine hrun.invariant (I := fun σ => ∃ o, LockInv σ o) ⟨none, lockUnused_inv⟩ ?_
    rintro σ c τ ⟨o, hσ⟩ hok hc
    obtain ⟨τ', o', hc', hτ'⟩ := hσ.step hok
    rw [hc, Except.ok.injEq] at hc'
    rw [hc']
    exact ⟨o', hτ'.inv⟩
  refine ⟨hτ.right, fun c hok => ?_⟩
  obtain ⟨υ, -, hc, -⟩ := hτ.step hok
  exact ⟨υ, hc⟩

/-- Task 0 gives the lock up while task 1 waits, and task 2 takes it before task 1 has
tested the value again. -/
theorem lockRight_overtaken : ∃ τ, Reach lockStep lockCallBelow lockUnused τ ∧ LockRight τ ∧
    (τ.thread 1).blocked = true ∧ (τ.thread 2).depth = 1 := by
  obtain ⟨τ, hrun, hτ⟩ := exists_reach lockStep lockCallBelow lockUnused
    [.acquire 0, .go 0, .go 0, .go 0, .go 0, .go 0, .acquire 1, .go 1, .go 1, .release 0,
      .go 0, .go 0, .go 0, .go 0, .go 0, .go 0, .acquire 2, .go 2, .go 2, .go 2, .go 2, .go 2,
      .go 1]
    (fun τ => (τ.thread 1).blocked = true ∧ (τ.thread 2).depth = 1)
    (by decide +kernel) (by decide +kernel)
  exact ⟨τ, hrun, (lockRight_of_run hrun).1, hτ⟩

/-! ## The counter -/

/-- A task nests its acquisitions. -/
theorem exists_nested (n : Nat) : ∃ τ, Reach lockStep lockCall lockUnused τ ∧ τ.holder = some 0 ∧
    τ.holderRepeatNr = UInt32.ofNat (n + 1) ∧ (τ.thread 0).pc = .outside ∧
      (τ.thread 0).blocked = false ∧ (τ.thread 0).depth = n + 1 := by
  induction n with
  | zero =>
      exact exists_reach lockStep lockCall lockUnused [.acquire 0, .go 0, .go 0, .go 0, .go 0, .go 0] _
        (by decide +kernel) (by decide +kernel)
  | succ n ih =>
      obtain ⟨τ, hrun, hholder, hnr, hpc, hblocked, hdepth⟩ := ih
      have hacquire : Next lockStep lockCall τ (τ.goto 0 .ifHolder) := ⟨.acquire 0, hpc, rfl⟩
      have hif : Next lockStep lockCall (τ.goto 0 .ifHolder) ((τ.goto 0 .ifHolder).goto 0 .bump) := by
        refine ⟨.go 0, ⟨nofun, hblocked⟩, ?_⟩
        show pure ((τ.goto 0 .ifHolder).goto 0 (if τ.holder ≠ some 0 then .semaDown else .bump)) = _
        rw [if_neg (not_not.mpr hholder)]
        rfl
      refine ⟨_, ((hrun.tail hacquire).tail hif).tail ⟨.go 0, ⟨nofun, hblocked⟩, rfl⟩, hholder, ?_,
        rfl, hblocked, ?_⟩
      · show τ.holderRepeatNr + 1 = _
        rw [hnr]
        exact (UInt32.ofNat_add (n + 1) 1).symm
      · show (τ.thread 0).depth + 1 = _
        rw [hdepth]

/-- The counter wraps to 0 with the 2^32nd acquisition. -/
theorem lockRight_wraps : ∃ τ, Reach lockStep lockCall lockUnused τ ∧ ¬LockRight τ := by
  obtain ⟨τ, hrun, -, hnr, -, -, hdepth⟩ := exists_nested (2 ^ 32 - 1)
  refine ⟨τ, hrun, fun h => ?_⟩
  have hnr' := (h.holds 0 (by rw [hdepth]; decide)).2
  rw [hnr, hdepth] at hnr'
  revert hnr'
  decide

end

end OsTruth
