/-
`userprog/fork.c`.

The child gets copies of the user pages and of the descriptors of its parent.  Its
pages are requests for memory, as those of `sys_malloc` are.
-/
import OsTruth.Fs.OpenCounts
import OsTruth.Userprog.System

namespace OsTruth

open ByteString Fallible

/-! ## Copying a process -/

/-- A request for pages, `false` for `NULL`. -/
def getPages : Kern Bool := do
  let s ← get
  if s.supply 0 then
    set s.grant
    pure true
  else
    set s.refuse
    pure false

theorem wp_getPages {s : State} {F : Fault → Prop} {Q : Bool → State → Prop} :
    Wp getPages s F Q ↔
      (s.supply 0 = true → Q true s.grant) ∧ (s.supply 0 = false → Q false s.refuse) := by
  unfold getPages
  simp only [Wp.bind, Wp.get, Wp.ite, Wp.set, Wp.pure, Bool.not_eq_true]

/-- The string `"_fork"`. -/
def forkSuffix : Str := [95, 102, 111, 114, 107]

/-- `copy_pcb_vaddrbitmap_stack0`. -/
def copyPcb : Kern (Option Task) := do
  if ← getPages then do
    let s ← get
    kassert (s.cur.name.length < 11)
    pure (some { s.cur with name := s.cur.name ++ forkSuffix })
  else pure none

/-- `copy_body_stack3` for so many pages.  The result of
`get_a_page_without_opvaddrbitmap` is not checked. -/
def copyBody : Nat → Kern Unit
  | 0 => pure ()
  | pages + 1 => do
      if ← getPages then copyBody pages else undefined

/-- `file_table[globalFd].fd_inode->i_open_cnts ++`. -/
def bumpOpenCnts (globalFd : Int) : Kern Unit := do
  let s ← get
  if globalFd < 0 then undefined
  else
    match (s.fileTable globalFd.toNat).fdInode with
    | none => undefined
    | some p => do
        let i ← loadInode p
        storeInode p { i with iOpenCnts := i.iOpenCnts + 1 }

/-- `update_inode_open_cnts`, from `localFd` on. -/
def updateInodeOpenCnts (thread : Task) : Nat → Nat → Kern Unit
  | 0, _ => pure ()
  | left + 1, localFd => do
      kassert (thread.fdTable localFd < maxFileOpen)
      when (thread.fdTable localFd ≠ -1) (bumpOpenCnts (thread.fdTable localFd))
      updateInodeOpenCnts thread left (localFd + 1)

/-- `copy_process`.  The page table of the parent is active again when the counts go
up, so the copies in the child keep theirs. -/
def copyProcess (pages : Nat) : Kern (Option Proc) := do
  if ← getPages then do
    match ← copyPcb with
    | none => pure none
    | some task => do
        if ← getPages then do
          copyBody pages
          let s ← get
          updateInodeOpenCnts task 5 3
          pure (some { System.procOf s with task := { task with pgdir := true } })
        else pure none
  else pure none

/-- `sys_fork`, with the child for its number. -/
def sysFork (pages : Nat) : Kern (Option Proc) := do
  if ← getPages then do
    let s ← get
    kassert (s.cur.pgdir = true)
    copyProcess pages
  else pure none

/-- The system with a new task. -/
def System.addProc (σ : System) (child : Proc) : System :=
  { σ with
    procs := fun k => if k = σ.nextPid then some child else σ.procs k
    nextPid := σ.nextPid + 1 }

/-- Task `pid` forks.  The number that a failing `sys_fork` takes names no task. -/
def System.fork (σ : System) (pid pages : Nat) : Except Fault System :=
  (σ.exec pid (sysFork pages)).map fun r => r.1.elim r.2 r.2.addProc

/-! ## What forking changes -/

structure Paged (s t : State) : Prop where
  fileTable : t.fileTable = s.fileTable
  cur : t.cur = s.cur
  rootDir : t.rootDir = s.rootDir
  inodes : t.inodes = s.inodes
  next : s.next ≤ t.next

instance : Std.Refl Paged := ⟨fun _ => ⟨rfl, rfl, rfl, rfl, Nat.le_refl _⟩⟩

instance : IsTrans State Paged :=
  ⟨fun _ _ _ h k => ⟨k.fileTable.trans h.fileTable, k.cur.trans h.cur,
    k.rootDir.trans h.rootDir, k.inodes.trans h.inodes, Nat.le_trans h.next k.next⟩⟩

/-- Open counts went up. -/
structure Grows (s t : State) : Prop where
  fileTable : t.fileTable = s.fileTable
  cur : t.cur = s.cur
  rootDir : t.rootDir = s.rootDir
  next : s.next ≤ t.next
  unseen : ∀ p, s.inodes p = none → t.inodes p = none
  seen : ∀ p i, s.inodes p = some i →
    ∃ j, t.inodes p = some j ∧ j.iNo = i.iNo ∧ i.iOpenCnts ≤ j.iOpenCnts

section

variable {s t u : State} {h : Ptr → Nat}

theorem Paged.grows (hp : Paged s t) : Grows s t where
  fileTable := hp.fileTable
  cur := hp.cur
  rootDir := hp.rootDir
  next := hp.next
  unseen p hi := by rw [hp.inodes, hi]
  seen p i hi := ⟨i, by rw [hp.inodes, hi], rfl, Nat.le_refl _⟩

instance : Std.Refl Grows := ⟨fun s => (refl_of Paged s).grows⟩

instance : IsTrans State Grows where
  trans s t u h k := by
    refine ⟨k.fileTable.trans h.fileTable, k.cur.trans h.cur, k.rootDir.trans h.rootDir,
      Nat.le_trans h.next k.next, fun p hi => k.unseen p (h.unseen p hi), fun p i hi => ?_⟩
    obtain ⟨j, hj, hno, hle⟩ := h.seen p i hi
    obtain ⟨j', hj', hno', hle'⟩ := k.seen p j hj
    exact ⟨j', hj', hno'.trans hno, Nat.le_trans hle hle'⟩

theorem Counted.grows (hs : Counted s h) (hg : Grows s t) : Counted t h where
  old p j hj := by
    cases hi : s.inodes p with
    | none =>
        rw [hg.unseen p hi] at hj
        cases hj
    | some i => exact Nat.lt_of_lt_of_le (hs.old p i hi) hg.next
  cnt p hp hpos := by
    obtain ⟨i, hi, hcnt⟩ := hs.cnt p hp hpos
    obtain ⟨j, hj, -, hle⟩ := hg.seen p i hi
    exact ⟨j, hj, Nat.le_trans hcnt hle⟩

theorem getPages_paged : Within Paged getPages := by
  refine Within.get_bind fun s => ?_
  rw [Ensures, Wp.ite]
  exact ⟨fun _ => ⟨rfl, rfl, rfl, rfl, Nat.le_succ _⟩, fun _ => ⟨rfl, rfl, rfl, rfl, Nat.le_refl _⟩⟩

theorem copyPcb_paged : Ensures copyPcb s (fun r t => Paged s t ∧
    ∀ task, r = some task → task.fdTable = s.cur.fdTable) := by
  unfold copyPcb
  rw [Ensures, Wp.bind]
  refine (getPages_paged s).call fun r t ht => ?_
  rw [Wp.ite]
  refine ⟨fun _ => ?_, fun _ => ⟨ht, fun _ h => absurd h (Option.some_ne_none _).symm⟩⟩
  rw [Wp.bind, Wp.get, Wp.bind, wp_kassert]
  refine ⟨fun _ => ⟨ht, fun task htask => ?_⟩, fun _ => True.intro⟩
  rw [← Option.some.inj htask, ← ht.cur]

theorem copyBody_paged (pages : Nat) : Within Paged (copyBody pages) := by
  induction pages with
  | zero => exact Within.pure _
  | succ pages ih => exact getPages_paged.bind fun _ => Within.ite ih (Within.throw _)

theorem bumpOpenCnts_grows (globalFd : Int) : Within Grows (bumpOpenCnts globalFd) := by
  refine Within.get_bind fun s => ?_
  rw [Ensures, Wp.ite]
  refine ⟨fun _ => True.intro, fun _ => ?_⟩
  cases (s.fileTable globalFd.toNat).fdInode with
  | none => exact True.intro
  | some p =>
      show Wp (loadInode p >>= _) s _ _
      rw [Wp.bind, wp_loadInode]
      refine ⟨fun i hi => ?_, fun _ => True.intro⟩
      rw [wp_storeInode_some hi]
      refine ⟨rfl, rfl, rfl, Nat.le_refl _, fun q hq => ?_, fun q j hj => ?_⟩
      · have hqp : q ≠ p := by
          rintro rfl
          rw [hi] at hq
          cases hq
        exact (State.putInode_other _ _ hqp).trans hq
      · by_cases hqp : q = p
        · rw [hqp, hi, Option.some.injEq] at hj
          rw [hqp, ← hj]
          exact ⟨_, State.putInode_same .., rfl, Nat.le_succ _⟩
        · exact ⟨j, (State.putInode_other _ _ hqp).trans hj, rfl, Nat.le_refl _⟩

theorem updateInodeOpenCnts_grows (thread : Task) (left : Nat) :
    ∀ localFd, Within Grows (updateInodeOpenCnts thread left localFd) := by
  induction left with
  | zero => exact fun _ => Within.pure _
  | succ left ih =>
      intro localFd
      unfold updateInodeOpenCnts
      refine (Within.lift _).bind fun _ => Within.bind ?_ fun _ => ih (localFd + 1)
      exact Within.ite (bumpOpenCnts_grows _) (Within.pure _)

/-- The child has the descriptors of its parent, and copies of its inodes. -/
structure IsChild (s : State) (child : Proc) : Prop where
  fdTable : child.task.fdTable = s.cur.fdTable
  inodes : child.inodes = s.inodes

theorem copyProcess_child (pages : Nat) : Ensures (copyProcess pages) s
    (fun r t => Grows s t ∧ ∀ child, r = some child → IsChild s child) := by
  have hnone : ∀ child, none = some child → IsChild s child :=
    fun _ h => absurd h (Option.some_ne_none _).symm
  unfold copyProcess
  rw [Ensures, Wp.bind]
  refine (getPages_paged s).call fun _ s₁ h₁ => ?_
  rw [Wp.ite]
  refine ⟨fun _ => ?_, fun _ => ⟨h₁.grows, hnone⟩⟩
  rw [Wp.bind]
  refine copyPcb_paged.call fun r s₂ h₂ => ?_
  have hp₂ := trans_of Paged h₁ h₂.1
  cases r with
  | none => exact ⟨hp₂.grows, hnone⟩
  | some task =>
      rw [Wp.bind]
      refine (getPages_paged s₂).call fun _ s₃ h₃ => ?_
      have hp₃ := trans_of Paged hp₂ h₃
      rw [Wp.ite]
      refine ⟨fun _ => ?_, fun _ => ⟨hp₃.grows, hnone⟩⟩
      rw [Wp.bind]
      refine (copyBody_paged pages s₃).call fun _ s₄ h₄ => ?_
      have hp₄ := trans_of Paged hp₃ h₄
      rw [Wp.bind, Wp.get, Wp.bind]
      refine (updateInodeOpenCnts_grows task 5 3 s₄).call fun _ t ht => ?_
      refine ⟨trans_of Grows hp₄.grows ht, fun child hchild => ?_⟩
      rw [← Option.some.inj hchild]
      exact ⟨(h₂.2 task rfl).trans (congrArg Task.fdTable h₁.cur), hp₄.inodes⟩

theorem sysFork_child (pages : Nat) : Ensures (sysFork pages) s
    (fun r t => Grows s t ∧ ∀ child, r = some child → IsChild s child) := by
  unfold sysFork
  rw [Ensures, Wp.bind]
  refine (getPages_paged s).call fun _ t ht => ?_
  rw [Wp.ite]
  refine ⟨fun _ => ?_, fun _ => ⟨ht.grows, fun _ h => absurd h (Option.some_ne_none _).symm⟩⟩
  rw [Wp.bind, Wp.get, Wp.bind, wp_kassert]
  refine ⟨fun _ => ?_, fun _ => True.intro⟩
  refine (copyProcess_child pages).call fun r u hu => ?_
  refine ⟨trans_of Grows ht.grows hu.1, fun child hchild => ?_⟩
  obtain ⟨hfd, hinodes⟩ := hu.2 child hchild
  exact ⟨hfd.trans (congrArg Task.fdTable ht.cur), hinodes.trans ht.inodes⟩

end

end OsTruth
