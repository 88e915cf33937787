/-
`sys_fork` when one of its requests for pages is answered with `NULL`.

Its pages come from the kernel's virtual pool, and no return before the last gives one back.
The fields of the control blocks, the bitmap of the parent and the lists of the tasks are
values here, next to the memory in which they lie.  Interrupts are off, so the locks of the
pools and of `allocate_pid` are left out.
-/
import OsTruth.Library.Framing
import OsTruth.Thread.Thread
import OsTruth.Userprog.Fork
import OsTruth.Userprog.ForkCopy
import OsTruth.Userprog.ForkStack

namespace OsTruth

open ByteString Fallible Paging

/-- `parentThread` is the address of the control block of the running process, with the
fields `pgdir` and `userprog_vaddr.vaddr_bitmap.bits`.  The others are in `files.cur`. -/
structure ForkState where
  pages : Pages
  threads : Threads
  files : State
  nextPid : Int16
  parentThread : Nat
  pgdir : Option Nat
  vaddrBits : Nat

abbrev ForkM := StateT ForkState (Except Fault)

/-- What `copy_pcb_vaddrbitmap_stack0` writes into the control block of the child. -/
structure ForkChild where
  pid : Int16
  task : Task

namespace Forking

def onPages {α : Type} (x : PageM α) : ForkM α :=
  onPart ForkState.pages (fun σ p => { σ with pages := p }) x

def onThreads {α : Type} (x : Sched α) : ForkM α :=
  onPart ForkState.threads (fun σ t => { σ with threads := t }) x

def onFiles {α : Type} (x : Kern α) : ForkM α :=
  onPart ForkState.files (fun σ s => { σ with files := s }) x

def fassert (c : Prop) [Decidable c] : ForkM Unit := StateT.lift (assert c)

/-! ## Functions -/

def forkPid : ForkM Int16 := do
  modify fun σ => { σ with nextPid := σ.nextPid + 1 }
  let σ ← get
  pure σ.nextPid

def bitmapPgCnt : Nat := ((0xc0000000 - userVaddrStart) / pgSize / 8 + pgSize - 1) / pgSize

def copyPcbVaddrbitmapStack0 (childThread : Nat) : ForkM (Option ForkChild) := do
  let σ ← get
  onPages (onSpace (memcpyPage childThread σ.parentThread))
  let pid ← forkPid
  match ← onPages (getKernelPages bitmapPgCnt) with
  | none => pure none
  | some vaddrBtmp => do
      onPages (onSpace (writeMem fun d m =>
        copyBytes d (bitmapPgCnt * pgSize) vaddrBtmp σ.vaddrBits m))
      fassert (σ.files.cur.name.length < 11)
      pure (some ⟨pid, { σ.files.cur with name := σ.files.cur.name ++ forkSuffix }⟩)

/-- What `create_page_dir` writes: the kernel's entries and the entry for the directory itself. -/
def fillPageDir (pageDirVaddr : Nat) : Mmu Unit := do
  writeMem fun d m => copyBytes d 1024 (pageDirVaddr + 0x300 * 4) (0xfffff000 + 0x300 * 4) m
  let newPageDirPhyAddr ← addrV2p pageDirVaddr
  writeWord (pageDirVaddr + 1023 * 4) (link (UInt32.ofNat newPageDirPhyAddr))

def createPageDir : PageM (Option Nat) := do
  match ← getKernelPages 1 with
  | none => pure none
  | some pageDirVaddr => do
      onSpace (fillPageDir pageDirVaddr)
      pure (some pageDirVaddr)

/-- `build_child_stack`, with the address of `intr_exit`. -/
def buildChildStack (intrExitAt : UInt32) (childThread : Nat) : Mmu Unit := do
  let intr0Stack := childThread + pgSize - intrStackSize
  writeWord (intr0Stack + 32) 0
  writeWord (intr0Stack - 4) intrExitAt
  writeWord (intr0Stack - 8) 0
  writeWord (intr0Stack - 12) 0
  writeWord (intr0Stack - 16) 0
  writeWord (intr0Stack - 20) 0
  writeWord childThread (UInt32.ofNat (intr0Stack - 20))

def copyProcess (intrExitAt : UInt32) (childThread : Nat) : ForkM (Option ForkChild) := do
  match ← onPages (getKernelPages 1) with
  | none => pure none
  | some bufPage => do
      match ← copyPcbVaddrbitmapStack0 childThread with
      | none => pure none
      | some child => do
          match ← onPages createPageDir with
          | none => pure none
          | some pgdir => do
              let σ ← get
              let v := σ.pages.userprogVaddr
              onPages (onSpace (copyBodyStack3 ⟨some pgdir, v⟩ ⟨σ.pgdir, v⟩ bufPage))
              onPages (onSpace (buildChildStack intrExitAt childThread))
              onFiles (updateInodeOpenCnts child.task 5 3)
              onPages (mfreePage .pfKernel bufPage 1)
              pure (some child)

/-- `sys_fork`.  The child is linked into the lists like a task that `thread_start` made, with
the priority of its parent. -/
def sysFork (intrExitAt : UInt32) : ForkM Int := do
  match ← onPages (getKernelPages 1) with
  | none => pure (-1)
  | some childThread => do
      let σ ← get
      fassert (σ.pgdir ≠ none)
      match ← copyProcess intrExitAt childThread with
      | none => pure (-1)
      | some child => do
          onThreads (threadStart (σ.threads.thread σ.threads.cur).priority)
          pure child.pid.toInt

end Forking

/-! ## The property -/

/-- The bits of the pools and of the kernel's virtual pool are the same, and so are the members
of the lists and the open counts. -/
structure ForkState.AsBefore (σ τ : ForkState) : Prop where
  pools : ∀ pf i, i < 8 * (σ.pages.space.pools.pool pf).poolBitmap.btmpBytesLen →
    (τ.pages.space.pools.pool pf).poolBitmap.bit i = (σ.pages.space.pools.pool pf).poolBitmap.bit i
  kernelVaddr : ∀ i, i < 8 * σ.pages.kernelVaddr.vaddrBitmap.btmpBytesLen →
    τ.pages.kernelVaddr.vaddrBitmap.bit i = σ.pages.kernelVaddr.vaddrBitmap.bit i
  lists : ∀ q, q = Queue.ready ∨ q = Queue.all → ∀ elem,
    elemFind τ.threads.links q.ends elem (τ.threads.taskCnt + 1) =
      elemFind σ.threads.links q.ends elem (σ.threads.taskCnt + 1)
  counts : ∀ p, (τ.files.inodes p).map Inode.iOpenCnts = (σ.files.inodes p).map Inode.iOpenCnts

/-! ## The kernel's virtual pool -/

/-- Pages of the kernel's virtual pool were taken, and none given back. -/
structure Pages.Takes (σ τ : Pages) : Prop where
  start : τ.kernelVaddr.vaddrStart = σ.kernelVaddr.vaddrStart
  length : τ.kernelVaddr.vaddrBitmap.btmpBytesLen = σ.kernelVaddr.vaddrBitmap.btmpBytesLen
  bits : ∀ k, σ.kernelVaddr.vaddrBitmap.bit k = true → τ.kernelVaddr.vaddrBitmap.bit k = true

instance : Std.Refl Pages.Takes := ⟨fun _ => ⟨rfl, rfl, fun _ h => h⟩⟩

instance : IsTrans Pages Pages.Takes :=
  ⟨fun _ _ _ h k => ⟨k.start.trans h.start, k.length.trans h.length,
    fun i hi => k.bits i (h.bits i hi)⟩⟩

section

variable {σ τ : Pages} {α : Type}

theorem onSpace_takes (x : Mmu α) : Within Pages.Takes (onSpace x) := by
  intro σ
  rw [Ensures, wp_onSpace]
  exact Wp.trivial.call fun _ _ _ => ⟨rfl, rfl, fun _ h => h⟩

theorem vaddrGet_takes (pgCnt : Nat) : Within Pages.Takes (vaddrGet .pfKernel pgCnt) := by
  intro σ
  unfold vaddrGet
  rw [Ensures, Wp.bind, Wp.get, Wp.bind, Wp.lift]
  refine ⟨fun bitIdxStart _ => ?_, fun _ _ => True.intro⟩
  rw [Wp.ite]
  refine ⟨fun _ => refl_of Pages.Takes σ, fun _ => ?_⟩
  rw [Wp.bind, Wp.lift]
  refine ⟨fun b hb => ?_, fun _ _ => True.intro⟩
  obtain ⟨-, hbit⟩ := vaddrSet_bit _ _ _ hb
  have htakes : σ.Takes (σ.setBits .pfKernel b.bits) := by
    refine ⟨rfl, rfl, fun k hk => ?_⟩
    show b.bit k = true
    rw [hbit]
    split_ifs with hin
    · rfl
    · exact hk
  rw [Wp.bind, Wp.set, Wp.bind, passert, Wp.lift]
  exact ⟨fun _ _ => htakes, fun _ _ => True.intro⟩

theorem getKernelPages_takes (pgCnt : Nat) : Within Pages.Takes (getKernelPages pgCnt) := by
  unfold getKernelPages mallocPage
  refine .bind (.bind (vaddrGet_takes pgCnt) fun r => ?_) fun r => ?_
  · cases r with
    | none => exact .pure _
    | some vaddrStart => exact .bind (onSpace_takes _) fun _ => .pure _
  · cases r with
    | none => exact .pure _
    | some vaddr => exact .bind (onSpace_takes _) fun _ => .pure _

/-- One page is taken at the first clear bit. -/
structure Pages.TakesOne (σ τ : Pages) (i : Nat) : Prop where
  first : σ.kernelVaddr.vaddrBitmap.FirstClear i
  takes : σ.Takes τ
  taken : τ.kernelVaddr.vaddrBitmap.bit i = true

/-- A request for one page returns its address, or does not return. -/
theorem vaddrGet_one : Ensures (vaddrGet .pfKernel 1) σ fun r τ =>
    ∃ i, r = some (σ.kernelVaddr.vaddrStart + i * pgSize) ∧ σ.TakesOne τ i := by
  have htakes := vaddrGet_takes 1 σ
  unfold vaddrGet at htakes ⊢
  rw [Ensures, Wp.bind, Wp.get, Wp.bind, Wp.lift] at htakes ⊢
  refine ⟨fun bitIdxStart hscan => ?_, fun _ _ => True.intro⟩
  have hnext := htakes.1 bitIdxStart hscan
  rcases bitmapScanTo_cases (σ.reach .pfKernel) (σ.vaddrBitmap .pfKernel) 1 with
    ⟨hfail, -⟩ | ⟨start, hstart, hfound⟩
  · rw [hfail] at hscan
    cases hscan
  · rw [hfound, if_pos rfl] at hscan
    have hidx : (start : Int) = bitIdxStart := Except.ok.inj hscan
    rw [← hidx, if_neg (by omega), Int.toNat_natCast, Wp.bind, Wp.lift] at hnext ⊢
    refine ⟨fun b hb => ?_, fun _ _ => True.intro⟩
    have hb' := hnext.1 b hb
    obtain ⟨hpos, hlt⟩ := σ.vaddr_bounds .pfKernel hstart.1
    obtain ⟨-, hbit⟩ := vaddrSet_bit _ _ _ hb
    rw [Wp.bind, Wp.set, Wp.bind, passert, Wp.lift] at hb' ⊢
    refine ⟨fun _ hassert => ⟨start, ?_, hstart, hb'.1 _ hassert, ?_⟩, fun _ _ => True.intro⟩
    · rw [Nat.mod_eq_of_lt hlt, if_neg (by omega)]
      rfl
    · show b.bit start = true
      rw [hbit]
      exact if_pos (by omega)

theorem getKernelPages_one : Ensures (getKernelPages 1) σ fun r τ =>
    ∃ i, r = some (σ.kernelVaddr.vaddrStart + i * pgSize) ∧ σ.TakesOne τ i := by
  unfold getKernelPages mallocPage
  rw [Ensures, Wp.bind, Wp.bind]
  refine vaddrGet_one.call fun r τ hget => ?_
  obtain ⟨i, hr, hone⟩ := hget
  rw [hr]
  show Wp (onSpace (mapPages .pfKernel 1 _) >>= _) τ _ _
  rw [Wp.bind, wp_onSpace]
  refine (mapPages_true 1 _ _).call fun mapped s hmapped => ?_
  rw [hmapped]
  show Wp (onSpace (writeMem _) >>= _) _ _ _
  rw [Wp.bind, wp_onSpace]
  exact Wp.trivial.call fun _ _ _ =>
    ⟨i, rfl, hone.first, ⟨hone.takes.start, hone.takes.length, hone.takes.bits⟩, hone.taken⟩

/-- `mfree_page` gives one page back, which is not page `i`. -/
theorem mfreePage_keeps {i j : Nat} (hi : σ.kernelVaddr.vaddrBitmap.bit i = true)
    (hj : j < 8 * σ.kernelVaddr.vaddrBitmap.btmpBytesLen) (hne : i ≠ j) :
    Ensures (mfreePage .pfKernel (σ.kernelVaddr.vaddrStart + j * pgSize) 1) σ fun _ τ =>
      τ.kernelVaddr.vaddrBitmap.bit i = true := by
  obtain ⟨-, hlt⟩ := σ.vaddr_bounds .pfKernel hj
  have hlt' : σ.kernelVaddr.vaddrStart + j * pgSize < 2 ^ 32 := hlt
  have hidx : (σ.kernelVaddr.vaddrStart + j * pgSize + 2 ^ 32 - σ.kernelVaddr.vaddrStart) %
      2 ^ 32 / pgSize = j := by
    have hsub : σ.kernelVaddr.vaddrStart + j * pgSize + 2 ^ 32 - σ.kernelVaddr.vaddrStart =
        j * pgSize + 2 ^ 32 := by omega
    rw [hsub, Nat.add_mod_right, Nat.mod_eq_of_lt (by omega), Nat.mul_div_cancel _ (by decide)]
  unfold mfreePage
  rw [Ensures, Wp.bind, passert, Wp.lift]
  refine ⟨fun _ _ => ?_, fun _ _ => True.intro⟩
  rw [Wp.bind, wp_onSpace]
  refine Wp.trivial.call fun pgPhyAddr s _ => ?_
  rw [Wp.bind, passert, Wp.lift]
  refine ⟨fun _ _ => ?_, fun _ _ => True.intro⟩
  rw [Wp.bind, Wp.get, Wp.bind, wp_onSpace]
  refine Wp.trivial.call fun _ s' _ => ?_
  unfold vaddrRemove
  rw [Wp.bind, Wp.get, Wp.bind, Wp.lift]
  refine ⟨fun b hb => ?_, fun _ _ => True.intro⟩
  obtain ⟨-, hbit⟩ := vaddrSet_bit _ _ _ hb
  rw [Wp.set]
  show b.bit i = true
  rw [hbit, if_neg]
  · exact hi
  · show ¬(_ / pgSize ≤ i ∧ i < _ / pgSize + 1)
    have hidx' := hidx
    simp only [Pages.vaddrStart]
    rw [hidx']
    omega

theorem createPageDir_takes : Within Pages.Takes Forking.createPageDir := by
  unfold Forking.createPageDir
  refine .bind (getKernelPages_takes 1) fun r => ?_
  cases r with
  | none => exact .pure _
  | some pageDirVaddr =>
      exact .bind (onSpace_takes _) fun _ => .pure _

end

/-! ## The functions -/

/-- Between the two states no page of the kernel's virtual pool was given back. -/
def ForkState.Takes (σ τ : ForkState) : Prop := σ.pages.Takes τ.pages

instance : Std.Refl ForkState.Takes := ⟨fun σ => refl_of Pages.Takes σ.pages⟩

instance : IsTrans ForkState ForkState.Takes :=
  ⟨fun _ _ _ h k => trans_of Pages.Takes h k⟩

namespace Forking

section

variable {σ τ : ForkState} {α : Type} {F : Fault → Prop} {i : Nat}

theorem wp_onPages {x : PageM α} {Q : α → ForkState → Prop} :
    Wp (onPages x) σ F Q ↔ Wp x σ.pages F fun a p => Q a { σ with pages := p } :=
  Wp.onPart

theorem onPages_takes {x : PageM α} (hx : Within Pages.Takes x) :
    Within ForkState.Takes (onPages x) := by
  intro σ
  rw [Ensures, wp_onPages]
  exact hx σ.pages

theorem onThreads_takes (x : Sched α) : Within ForkState.Takes (onThreads x) := by
  intro σ
  rw [Ensures, onThreads, Wp.onPart]
  exact Wp.trivial.call fun _ _ _ => refl_of ForkState.Takes σ

theorem onFiles_takes (x : Kern α) : Within ForkState.Takes (onFiles x) := by
  intro σ
  rw [Ensures, onFiles, Wp.onPart]
  exact Wp.trivial.call fun _ _ _ => refl_of ForkState.Takes σ

theorem copyPcb_takes (childThread : Nat) :
    Within ForkState.Takes (copyPcbVaddrbitmapStack0 childThread) := by
  unfold copyPcbVaddrbitmapStack0 forkPid
  refine .get_bind fun σ => ?_
  refine Within.bind (R := ForkState.Takes) (onPages_takes (onSpace_takes _)) (fun _ => ?_) σ
  refine .bind (.bind (.modify fun σ => refl_of Pages.Takes σ.pages) fun _ =>
    .bind .get fun _ => .pure _) fun pid => ?_
  refine .bind (onPages_takes (getKernelPages_takes _)) fun r => ?_
  cases r with
  | none => exact .pure _
  | some vaddrBtmp =>
      exact .bind (onPages_takes (onSpace_takes _)) fun _ => .bind (.lift _) fun _ => .pure _

/-- `copy_process` gives back the page of its buffer at most, and page `i` is another. -/
theorem copyProcess_keeps (intrExitAt : UInt32) (childThread : Nat)
    (hi : σ.pages.kernelVaddr.vaddrBitmap.bit i = true) :
    Ensures (copyProcess intrExitAt childThread) σ fun _ τ =>
      τ.pages.kernelVaddr.vaddrBitmap.bit i = true := by
  unfold copyProcess
  rw [Ensures, Wp.bind, wp_onPages]
  refine getKernelPages_one.call fun r p hget => ?_
  obtain ⟨j, hr, hone⟩ := hget
  have hne : i ≠ j := by
    intro hij
    rw [hij, hone.first.2.1] at hi
    cases hi
  have hi' := hone.takes.bits i hi
  rw [hr]
  show Wp (copyPcbVaddrbitmapStack0 childThread >>= _) _ _ _
  rw [Wp.bind]
  refine (copyPcb_takes childThread _).call fun r τ hcopy => ?_
  cases r with
  | none => exact hcopy.bits i hi'
  | some child =>
      show Wp (onPages createPageDir >>= _) τ _ _
      rw [Wp.bind]
      refine (onPages_takes createPageDir_takes τ).call fun r υ hdir => ?_
      have hdir' : (p.Takes υ.pages) := trans_of Pages.Takes hcopy hdir
      cases r with
      | none => exact hdir'.bits i hi'
      | some pgdir =>
          show Wp (get >>= _) υ _ _
          rw [Wp.bind, Wp.get, Wp.bind]
          refine (onPages_takes (onSpace_takes _) υ).call fun _ τ₁ h₁ => ?_
          rw [Wp.bind]
          refine (onPages_takes (onSpace_takes _) τ₁).call fun _ τ₂ h₂ => ?_
          rw [Wp.bind]
          refine (onFiles_takes _ τ₂).call fun _ τ₃ h₃ => ?_
          have h : p.Takes τ₃.pages :=
            trans_of Pages.Takes hdir' (trans_of Pages.Takes h₁ (trans_of Pages.Takes h₂ h₃))
          have hstart : σ.pages.kernelVaddr.vaddrStart = τ₃.pages.kernelVaddr.vaddrStart :=
            (h.start.trans hone.takes.start).symm
          have hlength := h.length.trans hone.takes.length
          rw [Wp.bind, wp_onPages, hstart]
          exact (mfreePage_keeps (h.bits i hi') (hlength ▸ hone.first.1) hne).call
            fun _ _ hkept => hkept

/-- Whatever `sys_fork` returns, it has taken a page that is still taken. -/
theorem sysFork_takes (intrExitAt : UInt32) (σ : ForkState) :
    Ensures (sysFork intrExitAt) σ fun _ τ =>
      ∃ i, i < 8 * σ.pages.kernelVaddr.vaddrBitmap.btmpBytesLen ∧
        σ.pages.kernelVaddr.vaddrBitmap.bit i = false ∧
        τ.pages.kernelVaddr.vaddrBitmap.bit i = true := by
  unfold sysFork
  rw [Ensures, Wp.bind, wp_onPages]
  refine getKernelPages_one.call fun r p hget => ?_
  obtain ⟨i, hr, hone⟩ := hget
  have hfirst := hone.first
  rw [hr]
  show Wp (get >>= _) _ _ _
  rw [Wp.bind, Wp.get, Wp.bind, fassert, Wp.lift]
  refine ⟨fun _ _ => ?_, fun _ _ => True.intro⟩
  rw [Wp.bind]
  refine (copyProcess_keeps intrExitAt _ hone.taken).call fun r τ hkept => ?_
  cases r with
  | none => exact ⟨i, hfirst.1, hfirst.2.1, hkept⟩
  | some child =>
      show Wp (onThreads _ >>= _) τ _ _
      rw [Wp.bind]
      exact (onThreads_takes _ τ).call fun _ υ h => ⟨i, hfirst.1, hfirst.2.1, h.bits i hkept⟩

theorem not_asBefore (h : ∃ i, i < 8 * σ.pages.kernelVaddr.vaddrBitmap.btmpBytesLen ∧
    σ.pages.kernelVaddr.vaddrBitmap.bit i = false ∧
      τ.pages.kernelVaddr.vaddrBitmap.bit i = true) : ¬σ.AsBefore τ := by
  intro hsame
  obtain ⟨i, hi, hclear, htaken⟩ := h
  rw [hsame.kernelVaddr i hi, hclear] at htaken
  cases htaken

/-- No `sys_fork` that returns `-1` leaves everything as it was. -/
theorem sysFork_not_undone (intrExitAt : UInt32) (σ : ForkState) :
    Ensures (sysFork intrExitAt) σ fun r τ => r = -1 → ¬σ.AsBefore τ :=
  (sysFork_takes intrExitAt σ).call fun _ _ htakes _ => not_asBefore htakes

/-- The requests for the control block and the buffer are granted, and the one for the bitmap is
answered with `NULL`. -/
theorem sysFork_fails (intrExitAt : UInt32) {j t p f i' j' t' p' f' q g : Nat}
    (h : σ.pages.HasPage i j t p f) (hp : p < 2 ^ 20)
    (h' : (σ.pages.withPage i j t p f).HasPage i' j' t' p' f') (hp' : p' < 2 ^ 20)
    (hpgdir : σ.pgdir ≠ none) (hparent : σ.parentThread = pgSize * q)
    (υ : Pages) (hυ : (σ.pages.withPage i j t p f).withPage i' j' t' p' f' = υ)
    (hq : walk υ.space.phys υ.space.cr3 q = some g)
    (hchild : walk υ.space.phys υ.space.cr3 p = some f) (hne : g ≠ f)
    (hspared : Spared υ.space.phys υ.space.cr3 q f ∧ Spared υ.space.phys υ.space.cr3 p f)
    (hno : υ.kernelVaddr.vaddrBitmap.NoRun (υ.reach .pfKernel) bitmapPgCnt) :
    ∃ τ, (sysFork intrExitAt).run σ = .ok (-1, τ) ∧ ¬σ.AsBefore τ := by
  suffices hfails : Returns (sysFork intrExitAt) σ fun r _ => r = -1 by
    obtain ⟨r, τ, hrun, hr⟩ := returns_iff.mp hfails
    have htakes := ensures_iff.mp (sysFork_takes intrExitAt σ) r τ hrun
    exact ⟨τ, hr ▸ hrun, not_asBefore htakes⟩
  unfold sysFork
  rw [Returns, Wp.bind, wp_onPages]
  refine wp_getKernelPages_one h hp ?_
  show Wp (get >>= _) _ _ _
  rw [Wp.bind, Wp.get, Wp.bind]
  refine Wp.lift_ok (if_pos hpgdir) ?_
  unfold copyProcess
  rw [Wp.bind, Wp.bind, wp_onPages]
  refine wp_getKernelPages_one h' hp' ?_
  show Wp (copyPcbVaddrbitmapStack0 _ >>= _) _ _ _
  rw [Wp.bind, hυ]
  unfold copyPcbVaddrbitmapStack0 forkPid
  rw [Wp.bind, Wp.get, Wp.bind, wp_onPages, wp_onSpace, hparent]
  refine wp_memcpyPage hq hchild hne hspared.1 hspared.2 ?_
  rw [Wp.bind, Wp.bind, Wp.modify, Wp.bind, Wp.get, Wp.pure, Wp.bind, wp_onPages]
  unfold getKernelPages
  rw [Wp.bind]
  refine (mallocPage_noRun (by decide) ?_).call fun r τ hr => ?_
  · exact hno
  · rw [hr.1]
    exact rfl

end

/-! ## Three pages left -/

/-- Of 256 pages, or of their frames, the first three are free. -/
def threeBits : Bytes := fun k => if k = 0 then 0xf8 else 0xff

/-- A machine with 4 MiB.  The heap of the kernel has three pages left, and so has its pool of
frames; the parent has its control block at `0xc0103000` and its page directory behind it. -/
def threePages : Pages :=
  { bootPages threeBits with
    space :=
      { phys
          | 516 => ofWords fun i => if 768 ≤ i ∧ i < 1023 then
              0x101007 + (UInt32.ofNat i - 768) * 4096 else if i = 1023 then 0x204007 else 0
          | 257 => ofWords fun i => if i < 256 then UInt32.ofNat i * 4096 + 7 else
              if 259 ≤ i ∧ i < 512 then UInt32.ofNat (i - 256) * 4096 + 0x200007 else 0
          | _ => fun _ => 0
        cr3 := 516
        pools := (memPoolInit 0x400000).put .pfKernel
          { (memPoolInit 0x400000).kernelPool with poolBitmap := ⟨32, threeBits⟩ } } }

def threePagesFork : ForkState where
  pages := threePages
  threads := bootThreads fun _ => 1
  files := { idleState (emptyPart 2048 8192) with
    cur := { (idleState (emptyPart 2048 8192)).cur with pgdir := true, name := [105, 110, 105, 116] } }
  nextPid := 3
  parentThread := 0xc0103000
  pgdir := some 0xc0104000
  vaddrBits := 0xc0105000

def twoPagesLeft : Pages := threePages.withPage 0 0 257 0xc0100 512

def onePageLeft : Pages := twoPagesLeft.withPage 1 1 257 0xc0101 513

theorem threePages_hasPage : threePages.HasPage 0 0 257 0xc0100 512 where
  free := ⟨by decide, by decide +kernel, by decide +kernel⟩
  frame := ⟨by decide, by decide +kernel, by decide +kernel⟩
  page := by decide
  target := by decide +kernel
  self := by
    unfold Recursive
    decide +kernel
  table := by decide +kernel
  unmapped := by decide +kernel
  dir := by decide
  apart := by decide

theorem twoPagesLeft_hasPage : twoPagesLeft.HasPage 1 1 257 0xc0101 513 where
  free := ⟨by decide, by decide +kernel, by decide +kernel⟩
  frame := ⟨by decide, by decide +kernel, by decide +kernel⟩
  page := by decide +kernel
  target := by decide +kernel
  self := by
    unfold Recursive
    decide +kernel
  table := by decide +kernel
  unmapped := by decide +kernel
  dir := by decide
  apart := by decide

theorem threeBits_used {b : Bitmap} (hb : b = (Bitmap.set ⟨32, threeBits⟩ 0 true).set 1 true)
    {k : Nat} (hk : 1 ≤ k) : (b.bits k).toNat.testBit (k % 8) = true := by
  have hbyte : b.bits k = 0xff := by
    rw [hb]
    have hne : ¬k = 0 := by omega
    simp [Bitmap.set, setBit, threeBits, hne]
  rw [hbyte]
  exact testBit_ff (Nat.mod_lt _ (by decide))

/-- With one page left the request for the bitmap is answered with `NULL`. -/
theorem onePageLeft_noRun :
    Bitmap.NoRun ((Bitmap.set ⟨32, threeBits⟩ 0 true).set 1 true) 0x10000 bitmapPgCnt := by
  refine ⟨by decide, ?_, 2, ⟨by decide, by decide, by decide⟩, fun s _ => ?_⟩
  · show 8 * 32 < 0x10000
    omega
  · have hcnt : bitmapPgCnt = 23 := by decide
    refine ⟨s + 3, by omega, by omega, ?_⟩
    rintro (htwo | ⟨-, hclear⟩)
    · omega
    · cases (threeBits_used rfl (by omega)).symm.trans hclear

/-- With three pages left the fork fails, and two of them are not given back. -/
theorem sysFork_leaks : ∃ τ, (sysFork 0xc0001500).run threePagesFork = .ok (-1, τ) ∧
    ¬threePagesFork.AsBefore τ := by
  have hparent : threePagesFork.parentThread = pgSize * 0xc0103 := by decide
  have hpgdir : threePagesFork.pgdir ≠ none := by decide
  have hq : walk onePageLeft.space.phys onePageLeft.space.cr3 0xc0103 = some 515 := by
    decide +kernel
  have hchild : walk onePageLeft.space.phys onePageLeft.space.cr3 0xc0100 = some 512 := by
    decide +kernel
  have htable : table onePageLeft.space.phys onePageLeft.space.cr3 0xc0103 ≠ some 512 ∧
      table onePageLeft.space.phys onePageLeft.space.cr3 0xc0100 ≠ some 512 := by
    decide +kernel
  exact sysFork_fails 0xc0001500 threePages_hasPage (by decide) twoPagesLeft_hasPage (by decide)
    hpgdir hparent onePageLeft rfl hq hchild (by decide) ⟨⟨by decide, htable.1⟩, by decide, htable.2⟩
    onePageLeft_noRun

end Forking

end OsTruth
