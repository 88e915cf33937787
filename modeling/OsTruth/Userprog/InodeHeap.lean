/-
The heap that an inode comes from and the heap it goes back to, over runs of
`file_create`, `inode_open` and `inode_close` by any number of tasks.

`inode_open` takes its block from the kernel heap and `inode_close` gives it back there;
`file_create` takes it from the heap of the running task.
-/
import OsTruth.Fs.FileTable
import OsTruth.Library.Runs
import OsTruth.Userprog.System

namespace OsTruth

open ByteString Fallible Runs OsTruth.System

inductive InodeUse
  | create (parentDir : DirPtr) (filename : Str) (flag : UInt8)
  | open (inodeNo : UInt32)
  | close (inode : Ptr)

/-- Task `c.1` makes the call `c.2`. -/
def inodeUse (σ : System) (c : Nat × InodeUse) : Except Fault System :=
  match c.2 with
  | .create parentDir filename flag =>
      (σ.exec c.1 (fileCreate parentDir filename flag)).map fun r => r.2
  | .open inodeNo => (σ.exec c.1 (inodeOpen inodeNo)).map fun r => r.2
  | .close inode => (σ.exec c.1 (inodeClose inode)).map fun r => r.2

/-- An inode that is closed is open. -/
def inodeUsed (σ : System) (c : Nat × InodeUse) : Prop :=
  match c.2 with
  | .create _ _ _ | .open _ => True
  | .close inode => inode ∈ σ.kernel.part.openInodes

/-- Files are created by kernel threads. -/
def inodeUsedKernel (σ : System) (c : Nat × InodeUse) : Prop :=
  inodeUsed σ c ∧
    match c.2 with
    | .create _ _ _ => ∀ pr, σ.procs c.1 = some pr → pr.task.pgdir = false
    | .open _ | .close _ => True

/-- A task that gives up the last reference to an inode frees a block of the kernel heap. -/
def InodesFreed (σ : System) : Prop :=
  ∀ pid pr p i, σ.procs pid = some pr → p ∈ σ.kernel.part.openInodes →
    (σ.enter pr).inodes p = some i → i.iOpenCnts = 1 →
      p.user = false ∧ ∃ τ, inodeUse σ (pid, .close p) = .ok τ ∧ τ.kernel.inodes p = none

/-! ## The invariant -/

/-- The open inodes lie in the kernel heap. -/
structure OpenKernel (s : State) : Prop where
  nodup : s.part.openInodes.Nodup
  linked : ∀ p ∈ s.part.openInodes, p.user = false ∧ p.id < s.next ∧ ∃ i, s.inodes p = some i

/-- A block of the kernel heap for an inode that is not yet open. -/
structure Spare (s : State) (p : Ptr) : Prop where
  opened : OpenKernel s
  kernel : p.user = false
  old : p.id < s.next
  fresh : p ∉ s.part.openInodes
  seen : ∃ i, s.inodes p = some i

section

variable {s t : State} {p : Ptr} {i : Inode} {σ τ : System}

theorem OpenKernel.quiet (h : OpenKernel s) (hq : Quiet s t) : OpenKernel t where
  nodup := by
    rw [hq.openInodes]
    exact h.nodup
  linked q hqm := by
    rw [hq.openInodes] at hqm
    obtain ⟨huser, hold, i, hi⟩ := h.linked q hqm
    obtain ⟨j, hj, -⟩ := hq.of_inodes hi
    exact ⟨huser, Nat.lt_of_lt_of_le hold hq.next, j, hj⟩

theorem Spare.quiet (h : Spare s p) (hq : Quiet s t) : Spare t p where
  opened := h.opened.quiet hq
  kernel := h.kernel
  old := Nat.lt_of_lt_of_le h.old hq.next
  fresh := by
    rw [hq.openInodes]
    exact h.fresh
  seen := by
    obtain ⟨i, hi⟩ := h.seen
    obtain ⟨j, hj, -⟩ := hq.of_inodes hi
    exact ⟨j, hj⟩

theorem OpenKernel.putInode (h : OpenKernel s) : OpenKernel (s.putInode p (some i)) where
  nodup := h.nodup
  linked q hq := by
    obtain ⟨huser, hold, j, hj⟩ := h.linked q hq
    refine ⟨huser, hold, ?_⟩
    by_cases hqp : q = p
    · rw [hqp]
      exact ⟨i, State.putInode_same ..⟩
    · exact ⟨j, (State.putInode_other _ _ hqp).trans hj⟩

theorem Spare.setFile {g : Nat} {f : File} (h : Spare s p) : Spare (s.setFile g f) p :=
  ⟨⟨h.opened.nodup, h.opened.linked⟩, h.kernel, h.old, h.fresh, h.seen⟩

/-- An inode is linked. -/
theorem Spare.pushOpen (h : Spare s p) : OpenKernel (s.pushOpen p) where
  nodup := List.nodup_cons.mpr ⟨h.fresh, h.opened.nodup⟩
  linked q hq := by
    rcases List.mem_cons.mp hq with rfl | hq
    · exact ⟨h.kernel, h.old, h.seen⟩
    · exact h.opened.linked q hq

/-- An inode that is not linked goes. -/
theorem OpenKernel.drop (h : OpenKernel s) (hp : p ∉ s.part.openInodes) :
    OpenKernel (s.putInode p none) where
  nodup := h.nodup
  linked q hq := by
    obtain ⟨huser, hold, j, hj⟩ := h.linked q hq
    have hqp : q ≠ p := by
      rintro rfl
      exact hp hq
    exact ⟨huser, hold, j, (State.putInode_other _ _ hqp).trans hj⟩

/-- The next block of a kernel thread is new. -/
theorem OpenKernel.spare (h : OpenKernel s) (hcur : s.cur.pgdir = false) :
    Spare (s.grant.putInode s.fresh (some i)) s.fresh where
  opened := by
    refine OpenKernel.putInode ⟨h.nodup, ?_⟩
    intro q hq
    obtain ⟨huser, hold, hseen⟩ := h.linked q hq
    exact ⟨huser, Nat.lt_succ_of_lt hold, hseen⟩
  kernel := hcur
  old := Nat.lt_succ_self _
  fresh := by
    intro hmem
    exact Nat.lt_irrefl _ (h.linked _ hmem).2.1
  seen := ⟨i, State.putInode_same ..⟩

/-! ## The three calls -/

theorem inodeOpen_openKernel (h : OpenKernel s) (n : UInt32) :
    Ensures (inodeOpen n) s fun _ t => OpenKernel t := by
  rw [Ensures, wp_inodeOpen]
  refine ⟨?_, ?_, ?_⟩
  · intro p i _ _
    exact h.putInode
  · intro _
    rw [wp_inodeRead]
    refine ⟨fun _ => ⟨fun _ => ⟨fun _ => ⟨fun _ => ?_, ?_⟩, ?_⟩, ?_⟩, ?_⟩
    · constructor
      · refine List.nodup_cons.mpr ⟨?_, h.nodup⟩
        intro hmem
        exact Nat.lt_irrefl _ (h.linked _ hmem).2.1
      · intro q hq
        by_cases hnew : q = ⟨false, s.next⟩
        · rw [hnew]
          exact ⟨rfl, Nat.lt_add_of_pos_right (by omega), _, if_pos rfl⟩
        · obtain ⟨huser, hold, i, hi⟩ := h.linked q ((List.mem_cons.mp hq).resolve_left hnew)
          exact ⟨huser, Nat.lt_add_right 2 hold, i, (if_neg hnew).trans hi⟩
    all_goals exact fun _ => True.intro
  · exact fun _ _ => True.intro

theorem inodeClose_openKernel (h : OpenKernel s) (hp : p ∈ s.part.openInodes) :
    Ensures (inodeClose p) s fun _ t => OpenKernel t := by
  obtain ⟨huser, -, i, hi⟩ := h.linked p hp
  rw [Ensures, wp_inodeClose hi]
  refine ⟨fun _ => h.putInode, fun _ => ⟨fun _ => ?_, fun _ => True.intro⟩⟩
  constructor
  · exact h.nodup.erase p
  · intro q hq
    obtain ⟨hqp, hmem⟩ := (List.Nodup.mem_erase_iff h.nodup).mp hq
    obtain ⟨huser', hold, j, hj⟩ := h.linked q hmem
    exact ⟨huser', hold, j, (if_neg hqp).trans hj⟩

theorem createRollback1_openKernel (h : OpenKernel s) (n : UInt32) (ioBuf : Ptr) :
    Ensures (createRollback1 n ioBuf) s fun _ t => OpenKernel t := by
  unfold createRollback1
  rw [Ensures, Wp.bind, wp_inodeBitmapClear]
  refine ⟨fun _ => ?_, fun _ => True.intro⟩
  rw [Wp.bind]
  refine (sysFreeBuf_quiet ioBuf _).call fun _ u hu => ?_
  exact OpenKernel.quiet (s := s.setInodeBitmap (s.part.inodeBitmap.set n.toNat false))
    ⟨h.nodup, h.linked⟩ hu

theorem createRollback2_openKernel (h : Spare s p) (n : UInt32) (ioBuf : Ptr) :
    Ensures (createRollback2 p n ioBuf) s fun _ t => OpenKernel t := by
  unfold createRollback2
  rw [Ensures, Wp.bind, sysFreeInode, wp_sysFree]
  refine ⟨fun _ _ => ?_, fun _ _ => True.intro, fun _ _ => True.intro, fun _ _ => True.intro⟩
  exact createRollback1_openKernel (h.opened.drop h.fresh) n ioBuf

theorem fileInstall_openKernel (h : Spare s p) (d : DirPtr) (filename : Str) (n : UInt32)
    (g : Nat) (ioBuf : Ptr) :
    Ensures (fileInstall d filename p n g ioBuf) s fun _ t => OpenKernel t := by
  refine fileInstall_rule (fun _ u _ hu => ?_) fun u i v hu _ hv => ?_
  · unfold createRollback3
    rw [Ensures, Wp.bind, Wp.modify]
    exact createRollback2_openKernel (h.quiet hu).setFile n ioBuf
  · have hlinked : OpenKernel v := OpenKernel.quiet (OpenKernel.putInode (h.quiet hu).pushOpen) hv
    exact wp_pcbFdInstall hlinked fun fd _ _ _ => ⟨hlinked.nodup, hlinked.linked⟩

/-- A kernel thread creates a file. -/
theorem fileCreate_openKernel (h : OpenKernel s) (hcur : s.cur.pgdir = false) (d : DirPtr)
    (filename : Str) (flag : UInt8) :
    Ensures (fileCreate d filename flag) s fun _ t => OpenKernel t := by
  refine fileCreate_rule (fun t ht => h.quiet ht) fun t b ioBuf ht _ => ?_
  have hquiet := h.quiet ht
  have htaken : OpenKernel (t.takeInodeNo b) := ⟨hquiet.nodup, hquiet.linked⟩
  have hcur' : (t.takeInodeNo b).cur.pgdir = false := by
    show t.cur.pgdir = false
    rw [ht.cur]
    exact hcur
  have hspare := htaken.spare (i := inodeInit (UInt32.ofNat b) .zero) hcur'
  exact ⟨htaken, createRollback1_openKernel (s := (t.takeInodeNo b).refuse)
      ⟨htaken.nodup, htaken.linked⟩ _ ioBuf,
    createRollback2_openKernel hspare _ ioBuf, fun g _ _ =>
      fileInstall_openKernel hspare.setFile d filename _ _ ioBuf⟩

/-! ## Runs -/

theorem OpenKernel.enter {pr : Proc} (h : OpenKernel σ.kernel) : OpenKernel (σ.enter pr) where
  nodup := h.nodup
  linked p hp := by
    obtain ⟨huser, hold, i, hi⟩ := h.linked p hp
    exact ⟨huser, hold, i, (enter_kernel huser).trans hi⟩

theorem System.Booted.openKernel (h : σ.Booted) : OpenKernel σ.kernel := by
  obtain ⟨r, i, -, hopen, huser, hi, -⟩ := h.root
  constructor
  · rw [hopen]
    exact List.pairwise_singleton _ r
  · intro p hp
    rw [hopen] at hp
    rw [List.mem_singleton.mp hp]
    exact ⟨huser, h.old r i hi, i, hi⟩

theorem OpenKernel.inodeUse {c : Nat × InodeUse} (h : OpenKernel σ.kernel)
    (hok : inodeUsedKernel σ c) (hstep : inodeUse σ c = .ok τ) : OpenKernel τ.kernel := by
  obtain ⟨pid, use⟩ := c
  cases use with
  | create parentDir filename flag =>
      obtain ⟨pr, a, t, hpr, hrun, rfl⟩ := exec_map_eq_ok.mp hstep
      exact ensures_iff.mp (fileCreate_openKernel h.enter (hok.2 pr hpr) ..) a t hrun
  | «open» inodeNo =>
      obtain ⟨pr, a, t, hpr, hrun, rfl⟩ := exec_map_eq_ok.mp hstep
      exact ensures_iff.mp (inodeOpen_openKernel h.enter inodeNo) a t hrun
  | close inode =>
      obtain ⟨pr, a, t, hpr, hrun, rfl⟩ := exec_map_eq_ok.mp hstep
      exact ensures_iff.mp (inodeClose_openKernel h.enter hok.1) a t hrun

/-- An inode of the kernel heap goes back there, whoever closes it. -/
theorem OpenKernel.freed (h : OpenKernel σ.kernel) : InodesFreed σ := by
  intro pid pr p i hpr hp hi hcnt
  have huser := (h.linked p hp).1
  refine ⟨huser, ?_⟩
  have hclose : Returns (inodeClose p) (σ.enter pr) fun _ t => t = (σ.enter pr).dropped p := by
    rw [Returns, wp_inodeClose hi]
    exact ⟨fun hne => absurd hcnt hne, fun _ => ⟨fun _ => rfl, fun hu => by simp [huser] at hu⟩⟩
  obtain ⟨a, t, hrun, rfl⟩ := returns_iff.mp hclose
  refine ⟨σ.leave pid ((σ.enter pr).dropped p), ?_, if_pos rfl⟩
  exact exec_map_eq_ok.mpr ⟨pr, a, _, hpr, hrun, rfl⟩

/-- When kernel threads create the files, every inode goes back to the heap that it
came from. -/
theorem inodesFreed_of_kernel (h : σ.Booted) (hrun : Reach inodeUse inodeUsedKernel σ τ) :
    InodesFreed τ :=
  (hrun.invariant (I := fun σ => OpenKernel σ.kernel) h.openKernel
    fun _ _ _ hs hok hstep => hs.inodeUse hok hstep).freed

instance (σ : System) : ∀ c : Nat × InodeUse, Decidable (inodeUsed σ c)
  | (_, .create _ _ _) => isTrue True.intro
  | (_, .open _) => isTrue True.intro
  | (_, .close inode) => inferInstanceAs (Decidable (inode ∈ σ.kernel.part.openInodes))

instance (σ : System) : ∀ c : Nat × InodeUse, Decidable (inodeUsedKernel σ c)
  | (pid, .create parentDir filename flag) =>
      inferInstanceAs (Decidable (inodeUsed σ (pid, .create parentDir filename flag) ∧
        ∀ pr, σ.procs pid = some pr → pr.task.pgdir = false))
  | (pid, .open inodeNo) =>
      inferInstanceAs (Decidable (inodeUsed σ (pid, .open inodeNo) ∧ True))
  | (pid, .close inode) =>
      inferInstanceAs (Decidable (inodeUsed σ (pid, .close inode) ∧ True))

/-- A kernel thread makes a file that a process opens and closes last. -/
theorem inodesFreed_process_closes :
    ∃ τ, Reach inodeUse inodeUsedKernel freshSystem τ ∧ InodesFreed τ ∧
      τ.kernel.part.openInodes = [⟨false, 0⟩] := by
  obtain ⟨τ, hrun, hopen⟩ := exists_reach inodeUse inodeUsedKernel freshSystem
    [(0, .create .root [102] oCreat), (1, .open 1), (0, .close ⟨false, 2⟩),
      (1, .close ⟨false, 2⟩)]
    (fun τ => τ.kernel.part.openInodes = [⟨false, 0⟩]) (by decide +kernel) (by decide +kernel)
  exact ⟨τ, hrun, inodesFreed_of_kernel freshSystem_booted hrun, hopen⟩

/-- The inode of a file that a process creates cannot be closed. -/
theorem process_creates :
    ∃ τ, Reach inodeUse inodeUsed freshSystem τ ∧ ¬InodesFreed τ := by
  obtain ⟨τ, hrun, hseen, hopen, hcnt⟩ := exists_reach inodeUse inodeUsed freshSystem
    [(1, .create .root [102] oCreat)]
    (fun τ => (τ.procs 1).isSome ∧ ⟨true, 2⟩ ∈ τ.kernel.part.openInodes ∧
      ((τ.procs 1).bind fun pr => ((τ.enter pr).inodes ⟨true, 2⟩).map Inode.iOpenCnts) = some 1)
    (by decide +kernel) (by decide +kernel)
  refine ⟨τ, hrun, fun h => ?_⟩
  obtain ⟨pr, hpr⟩ := Option.isSome_iff_exists.mp hseen
  rw [hpr, Option.bind_some, Option.map_eq_some_iff] at hcnt
  obtain ⟨i, hi, hone⟩ := hcnt
  cases (h 1 pr _ i hpr hopen hi hone).1

end

end OsTruth
