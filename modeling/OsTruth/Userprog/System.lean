/-
The kernel with any number of tasks.

All tasks share the kernel: the file table, the open inodes, the partition and the
kernel heap.  Each has its own user heap, so a pointer into a user heap means
something only in the task that owns it.  A call runs to its end before another task
runs, on the state that its task sees.
-/
import OsTruth.Fs.OpenCounts

namespace OsTruth

/-- A task with what is in its user heap. -/
structure Proc where
  task : Task
  inodes : Ptr → Option Inode
  dirs : Ptr → Option Dir
  bufs : List Ptr

/-- `nextPid` is the number that the next task gets. -/
structure System where
  kernel : State
  procs : Nat → Option Proc
  nextPid : Nat

namespace System

/-- What a task sees while it runs. -/
def enter (σ : System) (pr : Proc) : State :=
  { σ.kernel with
    cur := pr.task
    inodes := fun p => if p.user then pr.inodes p else σ.kernel.inodes p
    dirs := fun p => if p.user then pr.dirs p else σ.kernel.dirs p
    bufs := σ.kernel.bufs.filter (fun p => !p.user) ++ pr.bufs }

def procOf (t : State) : Proc where
  task := t.cur
  inodes := t.inodes
  dirs := t.dirs
  bufs := t.bufs.filter fun p => p.user

/-- The system after task `pid` ran and left the state `t` behind. -/
def leave (σ : System) (pid : Nat) (t : State) : System :=
  { σ with
    kernel := t
    procs := fun k => if k = pid then some (procOf t) else σ.procs k }

def exec {α : Type} (σ : System) (pid : Nat) (x : Kern α) : Except Fault (α × System) :=
  match σ.procs pid with
  | none => .error .undefined
  | some pr =>
      match x.run (σ.enter pr) with
      | .error e => .error e
      | .ok (a, t) => .ok (a, σ.leave pid t)

theorem exec_eq_ok {α : Type} {σ τ : System} {pid : Nat} {x : Kern α} {a : α} :
    σ.exec pid x = .ok (a, τ) ↔
      ∃ pr t, σ.procs pid = some pr ∧ x.run (σ.enter pr) = .ok (a, t) ∧ τ = σ.leave pid t := by
  unfold exec
  cases hp : σ.procs pid with
  | none => simp
  | some pr =>
      constructor
      · intro h
        cases hx : x.run (σ.enter pr) with
        | error e => simp [hx] at h
        | ok r =>
            simp only [hx, Except.ok.injEq, Prod.mk.injEq] at h
            exact ⟨pr, r.2, rfl, by rw [hx, ← h.1], h.2.symm⟩
      · rintro ⟨pr', t, hpr, hrun, rfl⟩
        cases hpr
        simp only [hrun]

theorem exec_map_eq_ok {α β : Type} {σ : System} {pid : Nat} {x : Kern α} {f : α × System → β}
    {b : β} : (σ.exec pid x).map f = .ok b ↔
      ∃ pr a t, σ.procs pid = some pr ∧ x.run (σ.enter pr) = .ok (a, t) ∧
        b = f (a, σ.leave pid t) := by
  cases hexec : σ.exec pid x with
  | error e =>
      refine ⟨nofun, ?_⟩
      rintro ⟨pr, a, t, hpr, hrun, -⟩
      rw [exec_eq_ok.mpr ⟨pr, t, hpr, hrun, rfl⟩] at hexec
      cases hexec
  | ok r =>
      obtain ⟨pr, t, hpr, hrun, hτ⟩ := exec_eq_ok.mp hexec
      constructor
      · intro h
        cases h
        exact ⟨pr, r.1, t, hpr, hrun, by rw [← hτ]⟩
      · rintro ⟨pr', a, t', hpr', hrun', rfl⟩
        rw [exec_eq_ok.mpr ⟨pr', t', hpr', hrun', rfl⟩] at hexec
        rw [← Except.ok.inj hexec]
        rfl

section

variable {σ : System} {pr : Proc} {p : Ptr}

theorem enter_user (hp : p.user = true) : (σ.enter pr).inodes p = pr.inodes p := if_pos hp

theorem enter_kernel (hp : p.user = false) : (σ.enter pr).inodes p = σ.kernel.inodes p :=
  if_neg (by rw [hp]; exact Bool.false_ne_true)

/-- A task that ran sees the state that it left behind. -/
theorem enter_leave_self (t : State) (pid : Nat) (p : Ptr) :
    ((σ.leave pid t).enter (procOf t)).inodes p = t.inodes p :=
  ite_self _

/-- A pointer into the kernel heap means the same in every task. -/
theorem counted_leave {t : State} {h : Ptr → Nat} {pid : Nat}
    (hold : ∀ k pr p i, σ.procs k = some pr → (σ.enter pr).inodes p = some i → p.id < σ.kernel.next)
    (hc : Counted t h) (hnext : σ.kernel.next ≤ t.next) {k : Nat} {pr' : Proc}
    (hk : (σ.leave pid t).procs k = some pr') : Counted ((σ.leave pid t).enter pr') h where
  old p i hi := by
    by_cases hkp : k = pid
    · rw [hkp] at hk
      have hpr' := Option.some.inj ((if_pos rfl).symm.trans hk)
      rw [← hpr', enter_leave_self] at hi
      exact hc.old p i hi
    · cases hp : p.user with
      | true =>
          rw [enter_user hp] at hi
          have hk' : σ.procs k = some pr' := (if_neg hkp).symm.trans hk
          exact Nat.lt_of_lt_of_le (hold k pr' p i hk' ((enter_user hp).trans hi)) hnext
      | false =>
          rw [enter_kernel hp] at hi
          exact hc.old p i hi
  cnt p hp hpos := by
    rw [enter_kernel hp]
    exact hc.cnt p hp hpos

end

/-- The system as `filesys_init` leaves it: the root directory is the only inode that is
open, and the tasks have neither descriptors nor inodes in their heaps. -/
structure Booted (σ : System) : Prop where
  noFile : ∀ g, (σ.kernel.fileTable g).fdInode = none
  root : ∃ p i, σ.kernel.rootDir.inode = some p ∧ σ.kernel.part.openInodes = [p] ∧
    p.user = false ∧ σ.kernel.inodes p = some i ∧ 1 ≤ i.iOpenCnts ∧
    σ.kernel.part.inodeBitmap.bit i.iNo.toNat = true
  old : ∀ p i, σ.kernel.inodes p = some i → p.id < σ.kernel.next
  below : ∀ pid pr, σ.procs pid = some pr → pid < σ.nextPid
  bits : 8 * σ.kernel.part.inodeBitmap.btmpBytesLen ≤ 2 ^ 32
  noFd : ∀ pid pr fd, σ.procs pid = some pr → 3 ≤ fd → fd < maxFilesOpenPerProc →
    pr.task.fdTable fd = -1
  noInode : ∀ pid pr p, σ.procs pid = some pr → pr.inodes p = none

end System

/-! ## A system after boot -/

/-- Task 0 is a kernel thread and task 1 a process. -/
def freshProc (pid : Nat) : Proc :=
  ⟨{ freshState.cur with pgdir := decide (pid = 1) }, fun _ => none, fun _ => none, []⟩

def freshSystem : System where
  kernel := freshState
  procs pid := if pid < 2 then some (freshProc pid) else none
  nextPid := 2

theorem freshSystem_procs {pid : Nat} {pr : Proc} (h : freshSystem.procs pid = some pr) :
    pr = freshProc pid := by
  by_cases hpid : pid < 2
  · exact (Option.some.inj ((if_pos hpid).symm.trans h)).symm
  · have hnone : (none : Option Proc) = some pr := (if_neg hpid).symm.trans h
    cases hnone

theorem freshSystem_booted : freshSystem.Booted where
  noFile _ := rfl
  root := ⟨⟨false, 0⟩, _, rfl, rfl, rfl, rfl, Nat.le_refl _, by decide⟩
  old p i hi := by
    by_cases hp : p = ⟨false, 0⟩
    · rw [hp]
      exact Nat.one_pos
    · have hnone : (none : Option Inode) = some i := (if_neg hp).symm.trans hi
      cases hnone
  below pid pr hpr := by
    by_contra hpid
    have hnone : (none : Option Proc) = some pr := (if_neg hpid).symm.trans hpr
    cases hnone
  bits := by decide
  noFd pid pr fd hpr _ _ := by
    rw [freshSystem_procs hpr]
    rfl
  noInode pid pr p hpr := by
    rw [freshSystem_procs hpr]
    rfl

end OsTruth
