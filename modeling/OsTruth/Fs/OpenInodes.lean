/-
Opening and closing inodes and directories.

`inode_open` looks in the list of open inodes first, so `firstOpen` is the function that
decides which inode in memory a number means.
-/
import OsTruth.Fs.InodeSlot

namespace OsTruth

open ByteString Fallible

variable {s : State} {F : Fault → Prop}

/-! ## The list of open inodes -/

/-- The first inode of the list with the given number.  The walk reads every inode on
its way. -/
def firstOpen (inodes : Ptr → Option Inode) (inodeNo : UInt32) :
    List Ptr → Except Fault (Option Ptr)
  | [] => .ok none
  | p :: rest =>
      match inodes p with
      | none => .error .undefined
      | some i => if i.iNo = inodeNo then .ok (some p) else firstOpen inodes inodeNo rest

theorem firstOpen_some {inodes : Ptr → Option Inode} {n : UInt32} {p : Ptr} :
    ∀ {l : List Ptr}, firstOpen inodes n l = .ok (some p) →
      p ∈ l ∧ ∃ i, inodes p = some i ∧ i.iNo = n := by
  intro l
  induction l with
  | nil =>
      intro h
      cases h
  | cons q rest ih =>
      intro h
      rw [firstOpen] at h
      cases hq : inodes q with
      | none =>
          rw [hq] at h
          cases h
      | some i =>
          rw [hq] at h
          by_cases hn : i.iNo = n
          · simp only [hn, if_true, Except.ok.injEq, Option.some.injEq] at h
            rw [← h]
            exact ⟨List.mem_cons_self, i, hq, hn⟩
          · simp only [hn, if_false] at h
            obtain ⟨hp, hi⟩ := ih h
            exact ⟨List.mem_cons_of_mem q hp, hi⟩

theorem firstOpen_none {inodes : Ptr → Option Inode} {n : UInt32} :
    ∀ {l : List Ptr}, firstOpen inodes n l = .ok none →
      ∀ p, p ∈ l → ∃ i, inodes p = some i ∧ i.iNo ≠ n := by
  intro l
  induction l with
  | nil => exact fun _ p hp => absurd hp List.not_mem_nil
  | cons q rest ih =>
      intro h p hp
      rw [firstOpen] at h
      cases hq : inodes q with
      | none =>
          rw [hq] at h
          cases h
      | some i =>
          rw [hq] at h
          by_cases hn : i.iNo = n
          · simp only [hn, if_true, Except.ok.injEq, reduceCtorEq] at h
          · simp only [hn, if_false] at h
            rcases List.mem_cons.mp hp with hpq | hp'
            · rw [hpq]
              exact ⟨i, hq, hn⟩
            · exact ih h p hp'

/-- The walk ends when every inode of the list is there. -/
theorem firstOpen_ok {inodes : Ptr → Option Inode} (n : UInt32) :
    ∀ {l : List Ptr}, (∀ p, p ∈ l → ∃ i, inodes p = some i) →
      ∃ r, firstOpen inodes n l = .ok r := by
  intro l
  induction l with
  | nil => exact fun _ => ⟨none, rfl⟩
  | cons p rest ih =>
      intro h
      obtain ⟨i, hi⟩ := h p List.mem_cons_self
      rw [firstOpen, hi]
      by_cases hn : i.iNo = n
      · exact ⟨some p, if_pos hn⟩
      · obtain ⟨r, hr⟩ := ih fun q hq => h q (List.mem_cons_of_mem p hq)
        exact ⟨r, (if_neg hn).trans hr⟩

/-- The inode that `inode_open` returns for a number. -/
def State.inodeNamed (s : State) (n : UInt32) : Option Inode :=
  match firstOpen s.inodes n s.part.openInodes with
  | .ok (some p) => s.inodes p
  | .ok none => some (readSlot s.part s.disk n)
  | .error _ => none

theorem wp_findOpen {n : UInt32} {Q : Option Ptr → State → Prop} (l : List Ptr) :
    Wp (findOpen n l) s F Q ↔
      (∀ r, firstOpen s.inodes n l = .ok r → Q r s) ∧
        ∀ e, firstOpen s.inodes n l = .error e → F e := by
  induction l with
  | nil =>
      unfold findOpen firstOpen
      rw [Wp.pure]
      simp
  | cons p rest ih =>
      unfold findOpen firstOpen
      rw [Wp.bind, wp_loadInode]
      cases hp : s.inodes p with
      | none => simp
      | some i =>
          by_cases hn : i.iNo = n
          · simp [hn, Wp.pure]
          · simp [hn, ih]

/-! ## Opening an inode -/

namespace State

/-- The state after inode `n` was read into the next block of the kernel heap. -/
def loaded (s : State) (n : UInt32) : State :=
  let p : Ptr := ⟨false, s.next⟩
  { s with
    next := s.next + 2
    supply := fun k => s.supply (k + 2)
    inodes := fun q => if q = p then some { readSlot s.part s.disk n with iOpenCnts := 1 }
      else s.inodes q
    part := { s.part with openInodes := p :: s.part.openInodes } }

/-- The state after inode `p` was opened once more. -/
def reopened (s : State) (p : Ptr) (i : Inode) : State :=
  s.putInode p (some { i with iOpenCnts := i.iOpenCnts + 1 })

/-- The state after the last close of inode `p`. -/
def dropped (s : State) (p : Ptr) : State :=
  { s with
    inodes := fun q => if q = p then none else s.inodes q
    part := { s.part with openInodes := s.part.openInodes.erase p } }

end State

theorem wp_openLoaded {p buf : Ptr} {i j : Inode} {Q : Ptr → State → Prop} (hj : s.inodes p = some j)
    (huser : buf.user = s.cur.pgdir) (hbuf : buf ∈ s.bufs) :
    Wp (openLoaded p i buf) s F Q ↔
      Q p { (s.putInode p (some { i with iOpenCnts := 1 })).pushOpen p with
        bufs := s.bufs.erase buf } := by
  have hfree := wp_sysFreeBuf_live
    (s := (s.putInode p (some { i with iOpenCnts := 1 })).pushOpen p) (p := buf)
    (F := F) (Q := fun _ t => Q p t) huser hbuf
  rw [openLoaded, Wp.bind, wp_storeInode_some hj, Wp.bind, Wp.modify, Wp.bind]
  exact hfree

/-- The second half of `inode_open`.  Each failure is an unchecked `NULL` or an
assertion. -/
theorem wp_inodeRead {n : UInt32} {Q : Ptr → State → Prop} :
    Wp (inodeRead n) s F Q ↔
      (n < 4096 → (s.supply 1 = true →
        (Selectable (inodePos s.part n).secLba (inodePos s.part n).secCnt →
          (s.supply 0 = true → Q ⟨false, s.next⟩ (s.loaded n)) ∧
            (s.supply 0 = false → F .assert)) ∧
        (¬Selectable (inodePos s.part n).secLba (inodePos s.part n).secCnt → F .assert)) ∧
      (s.supply 1 = false → F .undefined)) ∧ (¬n < 4096 → F .assert) := by
  have hput : 512 * (inodePos s.part n).secCnt ≤ (Buf.zero (512 * (inodePos s.part n).secCnt)).size :=
    Nat.le_refl _
  unfold inodeRead
  rw [Wp.bind, Wp.get, Wp.bind, wp_inodeLocate]
  refine and_congr_left fun _ => forall_congr' fun hn => ?_
  rw [Wp.bind, wp_inKernel, sysMallocInode, wp_sysMalloc]
  cases h0 : s.supply 0 with
  | true =>
      simp only [true_implies, Bool.true_eq_false, false_implies, and_true]
      rw [Wp.bind, sysMallocBuf, wp_sysMalloc]
      cases h1 : s.supply 1 with
      | true =>
          simp only [State.grant, State.fresh, State.putInode, h1, true_implies, Bool.true_eq_false,
            false_implies, and_true, Nat.zero_add]
          rw [Wp.bind, wp_ideRead]
          simp only [hput, true_implies, not_true_eq_false, false_implies, and_true]
          refine and_congr_left fun _ => forall_congr' fun _ => ?_
          refine (wp_openLoaded (j := .zero) (if_pos rfl) rfl List.mem_cons_self).trans ?_
          have hstate : ∀ u : State, u = s.loaded n →
              (Q ⟨false, s.next⟩ u ↔ Q ⟨false, s.next⟩ (s.loaded n)) := by
            rintro u rfl
            exact Iff.rfl
          refine hstate _ ?_
          simp only [State.loaded, State.pushOpen, State.putInode, List.erase_cons_head]
          congr 1
          funext q
          by_cases hq : q = ⟨false, s.next⟩
          · rw [if_pos hq, if_pos hq]
            rfl
          · rw [if_neg hq, if_neg hq]
            exact if_neg hq
      | false =>
          simp only [State.grant, State.fresh, State.putInode, h1, true_implies, reduceCtorEq,
            false_implies, true_and, Nat.zero_add]
          rfl
  | false =>
      simp only [true_implies, reduceCtorEq, false_implies, true_and]
      rw [Wp.bind, sysMallocBuf, wp_sysMalloc]
      cases h1 : s.supply 1 with
      | true =>
          simp only [State.refuse, h1, true_implies, reduceCtorEq, false_implies, and_true, Nat.zero_add]
          rw [Wp.bind, wp_ideRead]
          simp only [hput, true_implies, not_true_eq_false, false_implies, and_true]
          rfl
      | false =>
          simp only [State.refuse, h1, true_implies, reduceCtorEq, false_implies, Nat.zero_add]
          rfl

theorem wp_inodeOpen {n : UInt32} {Q : Ptr → State → Prop} :
    Wp (inodeOpen n) s F Q ↔
      (∀ p i, firstOpen s.inodes n s.part.openInodes = .ok (some p) → s.inodes p = some i →
        Q p (s.reopened p i)) ∧
      (firstOpen s.inodes n s.part.openInodes = .ok none → Wp (inodeRead n) s F Q) ∧
      ∀ e, firstOpen s.inodes n s.part.openInodes = .error e → F e := by
  unfold inodeOpen
  rw [Wp.bind, Wp.get, Wp.bind, wp_findOpen]
  cases hfirst : firstOpen s.inodes n s.part.openInodes with
  | error e => simp
  | ok r =>
      cases r with
      | none => simp
      | some p =>
          obtain ⟨-, i, hi, -⟩ := firstOpen_some hfirst
          simp only [Except.ok.injEq, forall_eq', reduceCtorEq, false_implies, implies_true,
            and_true, Option.some.injEq]
          rw [Wp.bind, wp_loadInode_some hi, Wp.bind, wp_storeInode_some hi, Wp.pure]
          constructor
          · rintro h q j rfl hj
            rw [hi, Option.some.injEq] at hj
            rw [← hj]
            exact h
          · exact fun h => h p i rfl hi

/-! ## Closing an inode -/

theorem wp_sysFreeInode_kernel {p : Ptr} {i : Inode} {Q : Unit → State → Prop}
    (hcur : s.cur.pgdir = false) (hi : s.inodes p = some i) :
    Wp (sysFreeInode p) s F Q ↔
      (p.user = false → Q () (s.putInode p none)) ∧ (p.user = true → F .assert) := by
  unfold sysFreeInode
  rw [wp_sysFree, hcur, hi]
  simp

theorem wp_inodeClose {p : Ptr} {i : Inode} {Q : Unit → State → Prop} (hi : s.inodes p = some i) :
    Wp (inodeClose p) s F Q ↔
      (i.iOpenCnts ≠ 1 → Q () (s.putInode p (some { i with iOpenCnts := decOpenCnts i.iOpenCnts }))) ∧
      (i.iOpenCnts = 1 → (p.user = false → Q () (s.dropped p)) ∧ (p.user = true → F .assert)) := by
  have hdec : decOpenCnts i.iOpenCnts = 0 ↔ i.iOpenCnts = 1 := by
    unfold decOpenCnts
    by_cases h : i.iOpenCnts = 0
    · rw [if_pos h]
      omega
    · rw [if_neg h]
      omega
  unfold inodeClose
  rw [Wp.bind, wp_loadInode_some hi, Wp.bind, wp_storeInode_some hi, wp_when, hdec]
  refine and_comm.trans (and_congr Iff.rfl (forall_congr' fun h1 => ?_))
  rw [Wp.bind, Wp.modify, wp_inKernel]
  refine (wp_sysFreeInode_kernel (i := { i with iOpenCnts := decOpenCnts i.iOpenCnts })
    ?_ ?_).trans (and_congr (forall_congr' fun _ => ?_) Iff.rfl)
  · rfl
  · exact if_pos rfl
  have hstate : ∀ u : State, u = s.dropped p → (Q () u ↔ Q () (s.dropped p)) := by
    rintro u rfl
    exact Iff.rfl
  refine hstate _ ?_
  simp only [State.dropped, State.removeOpen, State.putInode]
  congr 1
  funext q
  by_cases hq : q = p
  · rw [if_pos hq, if_pos hq]
  · rw [if_neg hq, if_neg hq, if_neg hq]

/-! ## Directories -/

/-- The state after a `struct dir` was taken from the heap. -/
def State.newDir (s : State) : State := s.grant.putDir s.fresh (some .zero)

/-- The state after the new `struct dir` was filled in. -/
def State.setDir (s : State) (q p : Ptr) : State :=
  s.putDir q (some { Dir.zero with inode := some p })

theorem wp_dirOpen {n : UInt32} {Q : DirPtr → State → Prop} :
    Wp (dirOpen n) s F Q ↔
      (s.supply 0 = true →
        Wp (inodeOpen n) s.newDir F (fun p t => Q (.heap s.fresh) (t.setDir s.fresh p))) ∧
      (s.supply 0 = false → Wp (inodeOpen n) s.refuse F (fun _ _ => F .undefined)) := by
  unfold dirOpen
  simp only [Wp.bind, sysMallocDir, wp_sysMalloc]
  exact Iff.rfl

theorem wp_dirClose_heap {q p : Ptr} {d : Dir} {Q : Unit → State → Prop}
    (hd : s.dirs q = some d) (hp : d.inode = some p) :
    Wp (dirClose (.heap q)) s F Q ↔
      Wp (inodeClose p) s F (fun _ t => Wp (sysFreeDir q) t F Q) := by
  have hinode : s.inodeOf (.heap q) = some p := by simp [State.inodeOf, hd, hp]
  unfold dirClose
  rw [Wp.bind, wp_dirInode_some hinode, Wp.bind]

theorem wp_sysFreeDir {q : Ptr} {d : Dir} {Q : Unit → State → Prop} (hd : s.dirs q = some d) :
    Wp (sysFreeDir q) s F Q ↔
      (q.user = s.cur.pgdir → Q () (s.putDir q none)) ∧
        (q.user = true → s.cur.pgdir = false → F .assert) ∧
        (q.user = false → s.cur.pgdir = true → F .undefined) := by
  unfold sysFreeDir
  rw [wp_sysFree, hd]
  simp

/-! ## A formatted partition -/

/-- A formatted partition: inode 0 and block 0 belong to the root directory. -/
def freshPart : Partition :=
  { emptyPart 2048 8192 with
    blockBitmap := (emptyPart 2048 8192).blockBitmap.set 0 true
    inodeBitmap := (emptyPart 2048 8192).inodeBitmap.set 0 true
    openInodes := [⟨false, 0⟩] }

theorem freshPart_mounted : freshPart.Mounted := { emptyPart_mounted with }

def freshDisk : Bytes :=
  splice
    (splice (fun _ => 0) (slotOff freshPart 0) inodeSize (rootInode freshPart.sb).bytes)
    (sectorOff freshPart.sb.dataStartLba) 512 (dotEntries 0 0)

/-- A kernel thread on the formatted partition, with the root directory open. -/
def freshState : State :=
  { idleState freshPart with
    disk := freshDisk
    inodes := fun p => if p = ⟨false, 0⟩ then some { rootInode freshPart.sb with iOpenCnts := 1 }
      else none
    next := 1
    rootDir := { Dir.zero with inode := some ⟨false, 0⟩ } }

end OsTruth
