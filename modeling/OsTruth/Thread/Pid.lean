/-
`allocate_pid` of `thread/thread.c`, run by any number of tasks.

The lock is that of `thread/sync.c`, statement by statement.  The increment of `next_pid`
is a read and a write, so that it takes the lock to make it one.
-/
import Mathlib.Algebra.BigOperators.Group.Finset.Basic
import OsTruth.Thread.Mutex

namespace OsTruth

open Runs

inductive PidPc
  | outside
  | acquire
  | load
  | store (value : Int16)
  | unlock
  | release
  | fetch
  deriving DecidableEq, Repr

/-- `calls` counts the calls that were started, and `returned` are the results of those
that returned. -/
structure PidState where
  pidLock : LockState
  nextPid : Int16
  pc : Nat → PidPc
  calls : Nat
  returned : List Int16

def PidState.goto (σ : PidState) (t : Nat) (pc : PidPc) : PidState :=
  { σ with pc := fun k => if k = t then pc else σ.pc k }

def pidStep (σ : PidState) (t : Nat) : Except Fault PidState :=
  match σ.pc t with
  | .outside => do
      let l ← lockStep σ.pidLock (.acquire t)
      pure ({ σ with pidLock := l, calls := σ.calls + 1 }.goto t .acquire)
  | .acquire => do
      let l ← lockStep σ.pidLock (.go t)
      pure ({ σ with pidLock := l }.goto t (if l.phase t = Phase.inside then .load else .acquire))
  | .load => pure (σ.goto t (.store σ.nextPid))
  | .store value => pure ({ σ with nextPid := value + 1 }.goto t .unlock)
  | .unlock => do
      let l ← lockStep σ.pidLock (.release t)
      pure ({ σ with pidLock := l }.goto t .release)
  | .release => do
      let l ← lockStep σ.pidLock (.go t)
      pure ({ σ with pidLock := l }.goto t (if l.phase t = Phase.free then .fetch else .release))
  | .fetch => pure ({ σ with returned := σ.nextPid :: σ.returned }.goto t .outside)

/-- `pid_lock` is initialised, and `next_pid` is 0. -/
def pidInit : PidState := ⟨lockUnused, 0, fun _ => .outside, 0, []⟩

/-- A task that has incremented `next_pid` and not yet read it for its result. -/
def PidPc.late : PidPc → Bool
  | .unlock | .release | .fetch => true
  | _ => false

/-- The write of `next_pid`. -/
def PidPc.stores : PidPc → Bool
  | .store _ => true
  | _ => false

/-- One of `n` tasks that is not blocked makes a step; fewer than 32767 calls are made. -/
def pidCall (n : Nat) (σ : PidState) (t : Nat) : Prop :=
  t < n ∧ (σ.pidLock.thread t).blocked = false ∧ (σ.pc t = .outside → σ.calls + 1 < 32767)

/-- No task writes `next_pid` while another is between its own write and its last read. -/
def pidCallAlone (n : Nat) (σ : PidState) (t : Nat) : Prop :=
  pidCall n σ t ∧ ((σ.pc t).stores = true → ∀ u, u < n → (σ.pc u).late = false)

/-! ## The invariant -/

/-- Where a task in `allocate_pid` is with respect to the lock. -/
def PidPc.phase : PidPc → Phase
  | .outside | .fetch => .free
  | .acquire => .acquiring
  | .load | .store _ | .unlock => .inside
  | .release => .releasing

/-- The calls that have not yet incremented `next_pid`. -/
def PidPc.pending : PidPc → Nat
  | .acquire | .load | .store _ => 1
  | _ => 0

/-- `next_pid` is `k`, and the results are the numbers `js`. -/
structure PidInv (n : Nat) (σ : PidState) (k : Nat) (js : List Nat) : Prop where
  lock : Mutex σ.pidLock
  small : ∀ t, n ≤ t → σ.pc t = .outside
  phase : ∀ t, σ.pidLock.phase t = (σ.pc t).phase
  next : σ.nextPid = Int16.ofNat k
  read : ∀ t value, σ.pc t = .store value → value = σ.nextPid
  one : ∀ t u, (σ.pc t).late = true → (σ.pc u).late = true → t = u
  count : k + ∑ t ∈ Finset.range n, (σ.pc t).pending = σ.calls
  calls : σ.calls < 32767
  returned : σ.returned = js.map Int16.ofNat
  nodup : js.Nodup
  below : ∀ j, j ∈ js → j ≤ k
  fresh : ∀ t, (σ.pc t).late = true → k ∉ js

section

variable {n k t : Nat} {σ τ : PidState} {js : List Nat} {pc : PidPc}

theorem PidState.goto_pc (σ : PidState) (t u : Nat) (pc : PidPc) :
    (σ.goto t pc).pc u = if u = t then pc else σ.pc u :=
  rfl

theorem pending_goto (σ : PidState) (ht : t < n) (pc : PidPc) :
    ∑ u ∈ Finset.range n, ((σ.goto t pc).pc u).pending + (σ.pc t).pending =
      ∑ u ∈ Finset.range n, (σ.pc u).pending + pc.pending := by
  have hmem : t ∈ Finset.range n := Finset.mem_range.mpr ht
  have hrest : ∑ u ∈ (Finset.range n).erase t, ((σ.goto t pc).pc u).pending =
      ∑ u ∈ (Finset.range n).erase t, (σ.pc u).pending := by
    refine Finset.sum_congr rfl fun u hu => ?_
    rw [PidState.goto_pc, if_neg (Finset.ne_of_mem_erase hu)]
  have hself : ((σ.goto t pc).pc t).pending = pc.pending := by
    rw [PidState.goto_pc, if_pos rfl]
  rw [← Finset.add_sum_erase _ _ hmem, ← Finset.add_sum_erase _ _ hmem, hrest, hself]
  omega

/-- Task `t` goes to another place; what it does to the counter and to the results is left
open. -/
theorem PidInv.move (pc : PidPc) (h : PidInv n σ k js) (ht : t < n)
    (hpc : τ.pc = (σ.goto t pc).pc)
    (hlock : Mutex τ.pidLock) (hself : τ.pidLock.phase t = pc.phase)
    (hother : ∀ u, u ≠ t → τ.pidLock.phase u = σ.pidLock.phase u) {k' : Nat} {js' : List Nat}
    (hnext : τ.nextPid = Int16.ofNat k')
    (hread : ∀ u value, τ.pc u = .store value → value = τ.nextPid)
    (hone : pc.late = true → ∀ u, u ≠ t → (σ.pc u).late = false)
    (hcount : k' + pc.pending + σ.calls = k + (σ.pc t).pending + τ.calls)
    (hcalls : τ.calls < 32767) (hreturned : τ.returned = js'.map Int16.ofNat)
    (hnodup : js'.Nodup) (hbelow : ∀ j, j ∈ js' → j ≤ k')
    (hfresh : ∀ u, (τ.pc u).late = true → k' ∉ js') : PidInv n τ k' js' where
  lock := hlock
  small u hu := by
    have hut : u ≠ t := Nat.ne_of_gt (Nat.lt_of_lt_of_le ht hu)
    rw [hpc]
    exact (if_neg hut).trans (h.small u hu)
  phase u := by
    rw [hpc, PidState.goto_pc]
    by_cases hut : u = t
    · rw [if_pos hut, hut]
      exact hself
    · rw [if_neg hut]
      exact (hother u hut).trans (h.phase u)
  next := hnext
  read := hread
  one u v hu hv := by
    rw [hpc, PidState.goto_pc] at hu hv
    by_cases hut : u = t
    · by_cases hvt : v = t
      · rw [hut, hvt]
      · rw [if_pos hut] at hu
        rw [if_neg hvt, hone hu v hvt] at hv
        cases hv
    · rw [if_neg hut] at hu
      by_cases hvt : v = t
      · rw [if_pos hvt] at hv
        rw [hone hv u hut] at hu
        cases hu
      · rw [if_neg hvt] at hv
        exact h.one u v hu hv
  count := by
    have hsum := pending_goto σ ht pc
    have hold := h.count
    rw [hpc]
    omega
  calls := hcalls
  returned := hreturned
  nodup := hnodup
  below := hbelow
  fresh := hfresh

/-- The counter and the results stay. -/
theorem PidInv.goto (pc : PidPc) (h : PidInv n σ k js) (ht : t < n) {l : LockState} (hl : Mutex l)
    (hself : l.phase t = pc.phase) (hother : ∀ u, u ≠ t → l.phase u = σ.pidLock.phase u)
    (hread : ∀ value, pc = .store value → value = σ.nextPid)
    (hlate : pc.late = (σ.pc t).late) (hpending : pc.pending = (σ.pc t).pending) :
    PidInv n ({ σ with pidLock := l }.goto t pc) k js := by
  refine h.move pc (τ := { σ with pidLock := l }.goto t pc) ht rfl hl hself hother h.next
    (fun u value hu => ?_) (fun hpc u hu => ?_) (by rw [hpending]; rfl) h.calls h.returned h.nodup h.below fun u hu => ?_
  · rw [PidState.goto_pc] at hu
    by_cases hut : u = t
    · rw [if_pos hut] at hu
      exact hread value hu
    · rw [if_neg hut] at hu
      exact h.read u value hu
  · rw [← Bool.not_eq_true]
    exact fun hlate' => hu (h.one u t hlate' (hlate ▸ hpc))
  · rw [PidState.goto_pc] at hu
    by_cases hut : u = t
    · rw [if_pos hut, hlate] at hu
      exact h.fresh t hu
    · rw [if_neg hut] at hu
      exact h.fresh u hu

/-- A call starts. -/
theorem PidInv.start (h : PidInv n σ k js) (ht : t < n) (hpc : σ.pc t = .outside)
    (hcalls : σ.calls + 1 < 32767) {l : LockState} (hl : Mutex l) (hself : l.phase t = .acquiring)
    (hother : ∀ u, u ≠ t → l.phase u = σ.pidLock.phase u) :
    PidInv n ({ σ with pidLock := l, calls := σ.calls + 1 }.goto t .acquire) k js := by
  refine h.move .acquire (τ := { σ with pidLock := l, calls := σ.calls + 1 }.goto t .acquire)
    ht rfl hl hself hother h.next (fun u value hu => ?_) nofun ?_ hcalls
    h.returned h.nodup h.below fun u hu => ?_
  · rw [PidState.goto_pc] at hu
    by_cases hut : u = t
    · rw [if_pos hut] at hu
      cases hu
    · rw [if_neg hut] at hu
      exact h.read u value hu
  · rw [hpc]
    show k + 1 + σ.calls = k + 0 + (σ.calls + 1)
    omega
  · rw [PidState.goto_pc] at hu
    by_cases hut : u = t
    · rw [if_pos hut] at hu
      cases hu
    · rw [if_neg hut] at hu
      exact h.fresh u hu

/-- The increment is written while no other result is open. -/
theorem PidInv.store (h : PidInv n σ k js) (ht : t < n) {value : Int16} (hpc : σ.pc t = .store value)
    (halone : ∀ u, u < n → (σ.pc u).late = false) :
    PidInv n ({ σ with nextPid := value + 1 }.goto t .unlock) (k + 1) js := by
  have hinside : σ.pidLock.phase t = .inside := by
    rw [h.phase t, hpc]
    rfl
  have hlate : ∀ u, (σ.pc u).late = false := by
    intro u
    by_cases hu : u < n
    · exact halone u hu
    · rw [h.small u (Nat.le_of_not_lt hu)]
      rfl
  refine h.move .unlock (τ := { σ with nextPid := value + 1 }.goto t .unlock) ht rfl
    h.lock hinside (fun _ _ => rfl) ?_ (fun u value' hu => ?_) (fun _ u _ => hlate u) ?_ h.calls h.returned h.nodup
    (fun j hj => Nat.le_succ_of_le (h.below j hj)) fun _ _ hmem => ?_
  · show value + 1 = _
    rw [h.read t value hpc, h.next]
    exact (Int16.ofNat_add k 1).symm
  · rw [PidState.goto_pc] at hu
    by_cases hut : u = t
    · rw [if_pos hut] at hu
      cases hu
    · rw [if_neg hut] at hu
      have hu' : σ.pc u = .store value' := hu
      have hinside' : σ.pidLock.phase u = .inside := by
        rw [h.phase u, hu']
        rfl
      exact absurd (h.lock.one hinside' hinside) hut
  · rw [hpc]
    show k + 1 + 0 + σ.calls = k + 1 + σ.calls
    omega
  · exact Nat.lt_irrefl _ (h.below _ hmem)

/-- The result is read. -/
theorem PidInv.fetch (h : PidInv n σ k js) (ht : t < n) (hpc : σ.pc t = .fetch) :
    PidInv n ({ σ with returned := σ.nextPid :: σ.returned }.goto t .outside) k (k :: js) := by
  have hlate : (σ.pc t).late = true := by
    rw [hpc]
    rfl
  have hfree : σ.pidLock.phase t = .free := by
    rw [h.phase t, hpc]
    rfl
  refine h.move .outside (τ := { σ with returned := σ.nextPid :: σ.returned }.goto t .outside)
    ht rfl h.lock hfree (fun _ _ => rfl) h.next (fun u value hu => ?_) nofun ?_
    h.calls ?_ (List.nodup_cons.mpr ⟨h.fresh t hlate, h.nodup⟩) (fun j hj => ?_) fun u hu => ?_
  · rw [PidState.goto_pc] at hu
    by_cases hut : u = t
    · rw [if_pos hut] at hu
      cases hu
    · rw [if_neg hut] at hu
      exact h.read u value hu
  · rw [hpc]
    rfl
  · show σ.nextPid :: σ.returned = _
    rw [List.map_cons, h.next, h.returned]
  · rcases List.mem_cons.mp hj with rfl | hj
    · exact Nat.le_refl _
    · exact h.below j hj
  · rw [PidState.goto_pc] at hu
    by_cases hut : u = t
    · rw [if_pos hut] at hu
      cases hu
    · rw [if_neg hut] at hu
      exact absurd (h.one u t hu hlate) hut

/-- A step of a task that meets the condition succeeds and keeps the invariant. -/
theorem PidInv.step (h : PidInv n σ k js) (hok : pidCallAlone n σ t) :
    ∃ τ k js, pidStep σ t = .ok τ ∧ PidInv n τ k js := by
  obtain ⟨⟨ht, hblocked, hcalls⟩, halone⟩ := hok
  have hphase := h.phase t
  unfold pidStep
  cases hpc : σ.pc t with
  | outside =>
      rw [hpc] at hphase
      obtain ⟨l, hl, hmutex, hself, hother⟩ := h.lock.acquire hphase
      refine ⟨_, k, js, ?_, h.start ht hpc (hcalls hpc) hmutex hself hother⟩
      simp only [hl, bind, Except.bind, pure, Except.pure]
  | acquire =>
      rw [hpc] at hphase
      obtain ⟨l, hl, hmutex, hself, -, hother⟩ := h.lock.go (Or.inl hphase) hblocked
      refine ⟨{ σ with pidLock := l }.goto t (if l.phase t = Phase.inside then .load else .acquire),
        k, js, ?_, ?_⟩
      · simp only [hl, bind, Except.bind, pure, Except.pure]
      · rcases hself hphase with hself | hself
        · rw [hself, if_neg nofun]
          exact h.goto _ ht hmutex hself hother nofun (by rw [hpc]) (by rw [hpc])
        · rw [hself, if_pos rfl]
          exact h.goto _ ht hmutex hself hother nofun (by rw [hpc]; rfl) (by rw [hpc]; rfl)
  | load =>
      rw [hpc] at hphase
      refine ⟨_, k, js, rfl, h.goto (.store σ.nextPid) ht h.lock hphase (fun _ _ => rfl)
        (fun value hvalue => ?_) (by rw [hpc]; rfl) (by rw [hpc]; rfl)⟩
      exact (PidPc.store.inj hvalue).symm
  | store value => exact ⟨_, k + 1, js, rfl, h.store ht hpc (halone (by rw [hpc]; rfl))⟩
  | unlock =>
      rw [hpc] at hphase
      obtain ⟨l, hl, hmutex, hself, hother⟩ := h.lock.release hphase
      refine ⟨_, k, js, ?_, h.goto .release ht hmutex hself hother nofun (by rw [hpc]; rfl)
        (by rw [hpc]; rfl)⟩
      simp only [hl, bind, Except.bind, pure, Except.pure]
  | release =>
      rw [hpc] at hphase
      obtain ⟨l, hl, hmutex, -, hself, hother⟩ := h.lock.go (Or.inr hphase) hblocked
      refine ⟨{ σ with pidLock := l }.goto t (if l.phase t = Phase.free then .fetch else .release),
        k, js, ?_, ?_⟩
      · simp only [hl, bind, Except.bind, pure, Except.pure]
      · rcases hself hphase with hself | hself
        · rw [hself, if_neg nofun]
          exact h.goto _ ht hmutex hself hother nofun (by rw [hpc]) (by rw [hpc])
        · rw [hself, if_pos rfl]
          exact h.goto _ ht hmutex hself hother nofun (by rw [hpc]; rfl) (by rw [hpc]; rfl)
  | fetch => exact ⟨_, k, k :: js, rfl, h.fetch ht hpc⟩

theorem pidInit_inv (n : Nat) : PidInv n pidInit 0 [] where
  lock := lockUnused_mutex
  small _ _ := rfl
  phase _ := rfl
  next := rfl
  read _ _ := nofun
  one _ _ := nofun
  count := by
    show 0 + ∑ t ∈ Finset.range n, 0 = 0
    rw [Finset.sum_const_zero, Nat.zero_add]
  calls := by decide
  returned := rfl
  nodup := List.nodup_nil
  below _ hj := absurd hj List.not_mem_nil
  fresh _ := nofun

/-- Results below 32767 are different when the numbers are. -/
theorem PidInv.distinct (h : PidInv n σ k js) : σ.returned.Nodup := by
  have hk : k < 32767 := by
    have hcount := h.count
    have hcalls := h.calls
    omega
  rw [h.returned]
  refine List.Nodup.map_on (fun i hi j hj heq => ?_) h.nodup
  have hi' := h.below i hi
  have hj' := h.below j hj
  have hint := congrArg Int16.toInt heq
  rw [Int16.toInt_ofNat_of_lt (by omega), Int16.toInt_ofNat_of_lt (by omega)] at hint
  omega

/-- Over every run whose steps meet the condition, the pids are different. -/
theorem pids_distinct (hrun : Reach pidStep (pidCallAlone n) pidInit τ) : τ.returned.Nodup := by
  obtain ⟨k, js, hτ⟩ : ∃ k js, PidInv n τ k js := by
    refine hrun.invariant (I := fun σ => ∃ k js, PidInv n σ k js) ⟨0, [], pidInit_inv n⟩ ?_
    rintro σ t τ ⟨k, js, hσ⟩ hok hstep
    obtain ⟨τ', k', js', hstep', hτ'⟩ := hσ.step hok
    rw [hstep, Except.ok.injEq] at hstep'
    rw [hstep']
    exact ⟨k', js', hτ'⟩
  exact hτ.distinct

instance (n : Nat) (σ : PidState) (t : Nat) : Decidable (pidCall n σ t) :=
  inferInstanceAs (Decidable (_ ∧ _ ∧ (_ → _)))

instance (n : Nat) (σ : PidState) (t : Nat) : Decidable (pidCallAlone n σ t) :=
  inferInstanceAs (Decidable (_ ∧ (_ → ∀ u, u < n → _)))

/-- Two tasks allocate pids one after the other. -/
theorem pids_distinct_two : ∃ τ, Reach pidStep (pidCallAlone 2) pidInit τ ∧ τ.returned.Nodup ∧
    τ.returned = [2, 1] := by
  obtain ⟨τ, hrun, hτ⟩ := exists_reach pidStep (pidCallAlone 2) pidInit
    (List.replicate 16 0 ++ List.replicate 16 1) (fun τ => τ.returned = [2, 1])
    (by decide +kernel) (by decide +kernel)
  exact ⟨τ, hrun, pids_distinct hrun, hτ⟩

/-- Task 0 has released the lock when task 1 increments `next_pid`, and both return 2. -/
theorem pids_equal : ∃ τ, Reach pidStep (pidCall 2) pidInit τ ∧ ¬τ.returned.Nodup := by
  obtain ⟨τ, hrun, hτ⟩ := exists_reach pidStep (pidCall 2) pidInit
    (List.replicate 15 0 ++ List.replicate 16 1 ++ [0])
    (fun τ => ¬τ.returned.Nodup)
    (by decide +kernel) (by decide +kernel)
  exact ⟨τ, hrun, hτ⟩

end

end OsTruth
