/-
A lock whose users do not nest their acquisitions, seen from outside.

`LockState.phase` is where a task is with respect to the lock, and `Mutex` the states of
such a lock.  `Mutex.acquire`, `Mutex.release` and `Mutex.go` say how a call changes the
phase of the task that makes it; all other phases stay, and at most one task is inside.
A model of code that uses a lock takes no more from `thread/sync.c` than this.
-/
import OsTruth.Thread.Sync

namespace OsTruth

/-- Where a task is with respect to a lock. -/
inductive Phase
  | free
  | acquiring
  | inside
  | releasing
  deriving DecidableEq, Repr

def LockThread.phase (p : LockThread) : Phase :=
  if p.pc = .outside then if p.depth = 0 then .free else .inside
  else if p.pc.acquires = true then .acquiring else .releasing

def LockState.phase (σ : LockState) (t : Nat) : Phase := (σ.thread t).phase

/-- No acquisition is nested. -/
structure LockThread.Flat (p : LockThread) : Prop where
  outside : p.pc = .outside → p.depth ≤ 1
  acquires : p.pc.acquires = true → p.depth = 0
  releases : p.pc.releases = true → p.depth ≤ 1

structure Mutex (σ : LockState) : Prop where
  inv : ∃ o, LockInv σ o
  flat : ∀ t, (σ.thread t).Flat

section

variable {σ τ : LockState} {t u : Nat} {p q : LockThread}

theorem lockUnused_mutex : Mutex lockUnused where
  inv := ⟨none, lockUnused_inv⟩
  flat _ := ⟨fun _ => Nat.zero_le 1, nofun, nofun⟩

theorem LockThread.phase_free (hpc : p.pc = .outside) (hdepth : p.depth = 0) : p.phase = .free := by
  rw [phase, if_pos hpc, if_pos hdepth]

theorem LockThread.phase_inside (hpc : p.pc = .outside) (hdepth : p.depth = 1) :
    p.phase = .inside := by
  rw [phase, if_pos hpc, if_neg (by rw [hdepth]; exact Nat.one_ne_zero)]

theorem LockThread.phase_acquiring (h : p.pc.acquires = true) : p.phase = .acquiring := by
  have hpc : p.pc ≠ .outside := by
    intro hpc
    rw [hpc] at h
    cases h
  rw [phase, if_neg hpc, if_pos h]

/-- A statement is of one of the two functions. -/
theorem LockPc.acquires_of_releases {pc : LockPc} : pc.releases = true → pc.acquires = false := by
  cases pc <;> first | exact fun _ => rfl | exact nofun

theorem LockThread.phase_releasing (h : p.pc.releases = true) : p.phase = .releasing := by
  have hpc : p.pc ≠ .outside := by
    intro hpc
    rw [hpc] at h
    cases h
  rw [phase, if_neg hpc, LockPc.acquires_of_releases h, if_neg Bool.false_ne_true]

theorem LockThread.Flat.of_zero (hdepth : p.depth = 0) : p.Flat where
  outside _ := Nat.le_trans (Nat.le_of_eq hdepth) (Nat.zero_le 1)
  acquires _ := hdepth
  releases _ := Nat.le_trans (Nat.le_of_eq hdepth) (Nat.zero_le 1)

theorem LockThread.Flat.of_releases (h : p.pc.releases = true) (hdepth : p.depth ≤ 1) : p.Flat where
  outside _ := hdepth
  acquires hacq := nomatch (LockPc.acquires_of_releases h).symm.trans hacq
  releases _ := hdepth

theorem LockThread.Flat.of_outside (h : p.pc = .outside) (hdepth : p.depth ≤ 1) :
    p.Flat where
  outside _ := hdepth
  acquires hacq := by
    rw [h] at hacq
    cases hacq
  releases _ := hdepth

/-- What each phase says of the task. -/
theorem LockThread.of_phase (p : LockThread) : match p.phase with
    | .free => p.pc = .outside ∧ p.depth = 0
    | .acquiring => p.pc.acquires = true
    | .inside => p.pc = .outside ∧ 0 < p.depth
    | .releasing => p.pc.releases = true := by
  unfold phase
  by_cases hpc : p.pc = .outside
  · rw [if_pos hpc]
    by_cases hdepth : p.depth = 0
    · rw [if_pos hdepth]
      exact ⟨hpc, hdepth⟩
    · rw [if_neg hdepth]
      exact ⟨hpc, Nat.pos_of_ne_zero hdepth⟩
  · rw [if_neg hpc]
    by_cases hacq : p.pc.acquires = true
    · rw [if_pos hacq]
      exact hacq
    · rw [if_neg hacq]
      show p.pc.releases = true
      revert hpc hacq
      cases p.pc <;> intro hpc hacq <;> first | rfl | exact absurd rfl hpc | exact absurd rfl hacq

/-- Two tasks are never inside together. -/
theorem Mutex.one (h : Mutex σ) (ht : σ.phase t = .inside) (hu : σ.phase u = .inside) : t = u := by
  obtain ⟨o, hinv⟩ := h.inv
  have hdepth : ∀ v, σ.phase v = .inside → 0 < (σ.thread v).depth := by
    intro v hv
    have hof := (σ.thread v).of_phase
    have hv' : (σ.thread v).phase = .inside := hv
    rw [hv'] at hof
    exact hof.2
  exact hinv.right.one t u (hdepth t ht) (hdepth u hu)

/-- The other tasks stay in their phase. -/
theorem LockMoved.phase (h : LockMoved σ τ t) (hu : u ≠ t) : τ.phase u = σ.phase u := by
  obtain ⟨hpc, hdepth⟩ := h u hu
  unfold LockState.phase LockThread.phase
  rw [hpc, hdepth]

theorem LockMoved.flat (h : LockMoved σ τ t) (hσ : ∀ u, (σ.thread u).Flat)
    (ht : (τ.thread t).Flat) (u : Nat) : (τ.thread u).Flat := by
  by_cases hut : u = t
  · rw [hut]
    exact ht
  · obtain ⟨hpc, hdepth⟩ := h u hut
    have hold := hσ u
    refine ⟨?_, ?_, ?_⟩
    · rw [hpc, hdepth]
      exact hold.outside
    · rw [hpc, hdepth]
      exact hold.acquires
    · rw [hpc, hdepth]
      exact hold.releases

/-- A task that is free calls `lock_acquire`. -/
theorem Mutex.acquire (h : Mutex σ) (ht : σ.phase t = .free) : ∃ τ,
    lockStep σ (.acquire t) = .ok τ ∧ Mutex τ ∧ τ.phase t = .acquiring ∧
      ∀ u, u ≠ t → τ.phase u = σ.phase u := by
  obtain ⟨o, hinv⟩ := h.inv
  have hof := (σ.thread t).of_phase
  have ht' : (σ.thread t).phase = .free := ht
  rw [ht'] at hof
  obtain ⟨hpc, hdepth⟩ := hof
  obtain ⟨τ, o', hstep, hτ⟩ := hinv.step (c := .acquire t) ⟨hpc, fun u hu => by
    cases hu
    rw [hdepth]
    decide⟩
  obtain ⟨hpc', hdepth'⟩ := hτ.acquire t rfl
  have hacq : (τ.thread t).pc.acquires = true := by
    rw [hpc']
    rfl
  exact ⟨τ, hstep, ⟨⟨o', hτ.inv⟩, hτ.moved.flat h.flat (.of_zero (hdepth'.trans hdepth))⟩,
    LockThread.phase_acquiring hacq, fun u hu => hτ.moved.phase hu⟩

/-- The task inside calls `lock_release`. -/
theorem Mutex.release (h : Mutex σ) (ht : σ.phase t = .inside) : ∃ τ,
    lockStep σ (.release t) = .ok τ ∧ Mutex τ ∧ τ.phase t = .releasing ∧
      ∀ u, u ≠ t → τ.phase u = σ.phase u := by
  obtain ⟨o, hinv⟩ := h.inv
  have hof := (σ.thread t).of_phase
  have ht' : (σ.thread t).phase = .inside := ht
  rw [ht'] at hof
  obtain ⟨hpc, hdepth⟩ := hof
  obtain ⟨τ, o', hstep, hτ⟩ := hinv.step (c := .release t) ⟨⟨hpc, hdepth⟩, fun u hu => by cases hu⟩
  obtain ⟨hpc', hdepth'⟩ := hτ.release t rfl
  have hle : (τ.thread t).depth ≤ 1 := by
    rw [hdepth']
    exact (h.flat t).outside hpc
  have hrel : (τ.thread t).pc.releases = true := by
    rw [hpc']
    rfl
  exact ⟨τ, hstep, ⟨⟨o', hτ.inv⟩, hτ.moved.flat h.flat (.of_releases hrel hle)⟩,
    LockThread.phase_releasing hrel, fun u hu => hτ.moved.phase hu⟩

/-- A task goes on with the call that it is in. -/
theorem Mutex.go (h : Mutex σ) (ht : σ.phase t = .acquiring ∨ σ.phase t = .releasing)
    (hblocked : (σ.thread t).blocked = false) : ∃ τ, lockStep σ (.go t) = .ok τ ∧ Mutex τ ∧
      (σ.phase t = .acquiring → τ.phase t = .acquiring ∨ τ.phase t = .inside) ∧
      (σ.phase t = .releasing → τ.phase t = .releasing ∨ τ.phase t = .free) ∧
      ∀ u, u ≠ t → τ.phase u = σ.phase u := by
  obtain ⟨o, hinv⟩ := h.inv
  have hpc : (σ.thread t).pc ≠ .outside := by
    intro hpc
    have hphase : σ.phase t = if (σ.thread t).depth = 0 then .free else .inside := if_pos hpc
    rw [hphase] at ht
    by_cases hdepth : (σ.thread t).depth = 0
    · rw [if_pos hdepth] at ht
      rcases ht with ht | ht <;> cases ht
    · rw [if_neg hdepth] at ht
      rcases ht with ht | ht <;> cases ht
  obtain ⟨τ, o', hstep, hτ⟩ := hinv.step (c := .go t) ⟨⟨hpc, hblocked⟩, fun u hu => by cases hu⟩
  have hgo := hτ.go t rfl
  have hof := (σ.thread t).of_phase
  have hflat := h.flat t
  have hsame : ∀ u, u ≠ t → τ.phase u = σ.phase u := fun u hu => hτ.moved.phase hu
  rcases ht with ht | ht
  · have ht' : (σ.thread t).phase = .acquiring := ht
    rw [ht'] at hof
    have hacq : (σ.thread t).pc.acquires = true := hof
    have hnrel : σ.phase t ≠ .releasing := by
      intro hphase
      rw [ht] at hphase
      cases hphase
    rcases hgo.acquires hacq (hflat.acquires hacq) with ⟨hacq', hzero⟩ | ⟨hout, hone⟩
    · exact ⟨τ, hstep, ⟨⟨o', hτ.inv⟩, hτ.moved.flat h.flat (.of_zero hzero)⟩,
        fun _ => Or.inl (LockThread.phase_acquiring hacq'), fun hrel => absurd hrel hnrel, hsame⟩
    · exact ⟨τ, hstep, ⟨⟨o', hτ.inv⟩, hτ.moved.flat h.flat (.of_outside hout (Nat.le_of_eq hone))⟩,
        fun _ => Or.inr (LockThread.phase_inside hout hone), fun hrel => absurd hrel hnrel, hsame⟩
  · have ht' : (σ.thread t).phase = .releasing := ht
    rw [ht'] at hof
    have hrel : (σ.thread t).pc.releases = true := hof
    have hnacq : σ.phase t ≠ .acquiring := by
      intro hphase
      rw [ht] at hphase
      cases hphase
    rcases hgo.releases hrel (hflat.releases hrel) with ⟨hrel', hle⟩ | ⟨hout, hzero⟩
    · exact ⟨τ, hstep, ⟨⟨o', hτ.inv⟩, hτ.moved.flat h.flat (.of_releases hrel' hle)⟩,
        fun hacq => absurd hacq hnacq, fun _ => Or.inl (LockThread.phase_releasing hrel'), hsame⟩
    · have hle : (τ.thread t).depth ≤ 1 := by
        rw [hzero]
        exact Nat.zero_le 1
      exact ⟨τ, hstep, ⟨⟨o', hτ.inv⟩, hτ.moved.flat h.flat (.of_outside hout hle)⟩,
        fun hacq => absurd hacq hnacq, fun _ => Or.inr (LockThread.phase_free hout hzero), hsame⟩

end

end OsTruth
