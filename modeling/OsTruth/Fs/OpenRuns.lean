/-
`sys_chdir` and `sys_stat` of `fs/fs.c`, and runs of the calls that open and close.

Every call closes what it opens, but for one: `sys_open` of a file that exists does not close
the directory of the file, which is left open for ever unless it is `root_dir`.
-/
import OsTruth.Fs.OpenBalance
import OsTruth.Fs.OneBlock
import OsTruth.Library.Runs

namespace OsTruth

open ByteString Fallible Runs

/-! ## The calls -/

/-- `struct stat`. -/
structure Stat where
  stIno : UInt32
  stSize : UInt32
  stFiletype : FileType

def chdirFound (inodeNo : UInt32) (r : SearchRecord) : Kern Int :=
  if inodeNo ≠ -1 ∧ r.fileType = .directory then do
    modify fun s => { s with cur := { s.cur with cwdInodeNr := inodeNo } }
    dirClose r.parentDir
    pure 0
  else closeAndFail r.parentDir

def sysChdir (path : Str) : Kern Int := do
  let (inodeNo, r) ← searchFile path
  chdirFound inodeNo r

/-- `sys_stat`.  The buffer is filled in exactly when the call returns 0. -/
def sysStat (path : Str) : Kern (Option Stat) :=
  if isRootName path then do
    let i ← loadInode (← dirInode .root)
    pure (some ⟨0, i.iSize, .directory⟩)
  else do
    let (inodeNo, r) ← searchFile path
    if inodeNo ≠ -1 then do
      let objInode ← inodeOpen inodeNo
      let i ← loadInode objInode
      inodeClose objInode
      dirClose r.parentDir
      pure (some ⟨inodeNo, i.iSize, r.fileType⟩)
    else do
      dirClose r.parentDir
      pure none

/-- A task and the directories that `sys_opendir` gave it and that it has not closed. -/
structure Session where
  fs : State
  handles : List Ptr

inductive FsCall
  | sysOpen (pathname : Str) (flags : UInt8)
  | sysClose (fd : Int)
  | sysUnlink (pathname : Str)
  | sysMkdir (pathname : Str)
  | sysRmdir (pathname : Str)
  | sysStat (path : Str)
  | sysChdir (path : Str)
  | sysOpendir (name : Str)
  | sysClosedir (dir : Option DirPtr)

/-- The directories that are open after `sys_opendir`. -/
def handlesOpened (handles : List Ptr) (dir : Option DirPtr) : List Ptr :=
  dir.elim handles fun d => d.opened handles

/-- The directories that are open after `sys_closedir`. -/
def handlesClosed (handles : List Ptr) : Option DirPtr → List Ptr
  | some (.heap q) => handles.erase q
  | some .root => handles
  | none => handles

/-- A call, and the directories that are open after it. -/
def FsCall.run (handles : List Ptr) : FsCall → Kern (List Ptr)
  | .sysOpen pathname flags => do
      let _ ← OsTruth.sysOpen pathname flags
      pure handles
  | .sysClose fd => do
      let _ ← OsTruth.sysClose fd
      pure handles
  | .sysUnlink pathname => do
      let _ ← OsTruth.sysUnlink pathname
      pure handles
  | .sysMkdir pathname => do
      let _ ← OsTruth.sysMkdir pathname
      pure handles
  | .sysRmdir pathname => do
      let _ ← OsTruth.sysRmdir pathname
      pure handles
  | .sysStat path => do
      let _ ← OsTruth.sysStat path
      pure handles
  | .sysChdir path => do
      let _ ← OsTruth.sysChdir path
      pure handles
  | .sysOpendir name => do
      let dir ← OsTruth.sysOpendir name
      pure (handlesOpened handles dir)
  | .sysClosedir dir => do
      let _ ← OsTruth.sysClosedir dir
      pure (handlesClosed handles dir)

def fsStep (σ : Session) (c : FsCall) : Except Fault Session :=
  ((c.run σ.handles).run σ.fs).map fun r => ⟨r.2, r.1⟩

/-! ## What is to hold -/

/-- As `filesys_init` leaves the file system: `root_dir` is open, and nothing else. -/
structure State.AtBoot (s : State) : Prop where
  root : ∃ p i, s.rootDir.inode = some p ∧ s.part.openInodes = [p] ∧ s.inodes p = some i ∧
    i.iOpenCnts = 1
  old : ∀ p i, s.inodes p = some i → p.id < s.next
  files : ∀ g, g < maxFileOpen → (s.fileTable g).fdInode = none
  dirs : ∀ q, s.dirs q = none

/-- Every count is the number of entries, open directories and the root that refer to the
inode. -/
def Session.CountsRight (σ : Session) : Prop :=
  ∀ p, σ.fs.openCnts p = σ.fs.refsTo σ.handles p

/-- When `sys_open` is about to open a file that exists, the file lies in `root_dir`. -/
def ClosesParent (s : State) (pathname : Str) (flags : UInt8) : Prop :=
  flags &&& oCreat = 0 → pathname.getLast? ≠ some slash →
    Ensures (searchFile (parsedPath pathname)) s fun r _ => r.1 ≠ -1 → r.2.fileType ≠ .directory →
      pathDepthCnt r.2.searchedPath = pathDepthCnt pathname → r.2.parentDir = .root

instance (s : State) (pathname : Str) (flags : UInt8) :
    Decidable (ClosesParent s pathname flags) :=
  inferInstanceAs (Decidable (_ → _ → _))

def FsCall.Closes (σ : Session) : FsCall → Prop
  | .sysOpen pathname flags => ClosesParent σ.fs pathname flags
  | _ => True

instance (σ : Session) : ∀ c : FsCall, Decidable (c.Closes σ)
  | .sysOpen pathname flags => inferInstanceAs (Decidable (ClosesParent σ.fs pathname flags))
  | .sysClose _ => isTrue True.intro
  | .sysUnlink _ => isTrue True.intro
  | .sysMkdir _ => isTrue True.intro
  | .sysRmdir _ => isTrue True.intro
  | .sysStat _ => isTrue True.intro
  | .sysChdir _ => isTrue True.intro
  | .sysOpendir _ => isTrue True.intro
  | .sysClosedir _ => isTrue True.intro

section

variable {s t u : State} {h : Ptr → Nat} {p q : Ptr} {handles : List Ptr} {d : DirPtr}

theorem State.AtBoot.balanced (hs : s.AtBoot) : Balanced s [] where
  tallied := by
    obtain ⟨p, i, hroot, hopen, hi, hcnt⟩ := hs.root
    have hrefs : ∀ q, s.refsTo [] q = if p = q then 1 else 0 := by
      intro q
      have hzero : s.holders q = 0 := by
        refine List.countP_eq_zero.mpr fun g hg hopen => ?_
        have hfree := hs.files g (List.mem_range.mp hg)
        have hq := of_decide_eq_true hopen
        unfold State.OpenOn at hq
        rw [hfree] at hq
        cases hq
      unfold State.refsTo
      rw [hzero, hroot]
      simp
    refine ⟨hs.old, fun q hq => ?_, fun q hq => ?_, ?_⟩
    · rw [hopen, List.mem_singleton] at hq
      rw [hq, hrefs, if_pos rfl]
      exact ⟨i, hi, hcnt⟩
    · rw [hopen, List.mem_singleton] at hq
      rw [hrefs, if_neg fun heq => hq heq.symm]
    · rw [hopen]
      exact List.nodup_cons.mpr ⟨List.not_mem_nil, List.nodup_nil⟩
  nodup := List.nodup_nil
  mem q := by simp [hs.dirs q]
  old _ hq := absurd hq List.not_mem_nil

/-! ## Opening and closing files -/

theorem openFound_balanced {r : SearchRecord} (hb : Balanced s (r.parentDir.opened handles))
    (pathname : Str) {flags : UInt8} {depth : Nat} {inodeNo : UInt32}
    (hroot : flags &&& oCreat = 0 → inodeNo ≠ -1 → r.fileType ≠ .directory →
      pathDepthCnt r.searchedPath = .ok depth → r.parentDir = .root) :
    Ensures (openFound pathname flags depth inodeNo r) s fun _ t => Balanced t handles := by
  unfold openFound
  rw [Ensures, Wp.ite]
  refine ⟨fun _ => closeAndFail_balanced hb, fun htype => ?_⟩
  rw [Wp.bind, Wp.lift]
  refine ⟨fun depth' hdepth' => ?_, fun _ _ => True.intro⟩
  rw [Wp.ite, Wp.ite, Wp.ite, Wp.ite]
  refine ⟨fun _ => closeAndFail_balanced hb, fun hdepth =>
    ⟨fun _ => closeAndFail_balanced hb, fun hmissing =>
      ⟨fun _ => closeAndFail_balanced hb, fun hexists => ⟨fun _ => ?_, fun hopen => ?_⟩⟩⟩⟩
  · refine hb.bind (Within.lift _) fun filename u hu => ?_
    rw [Ensures, Wp.bind]
    refine (fileCreate_balanced hu r.parentDir filename flags).call fun fd v hv => ?_
    rw [Wp.bind]
    exact (dirClose_balanced hv).call fun _ _ hw => hw
  · -- the directory is not closed
    have hflags : flags &&& oCreat = 0 := not_not.mp hopen
    have hfound : inodeNo ≠ -1 := fun hno => hmissing ⟨hno, hflags⟩
    have hparent : r.parentDir = .root := by
      refine hroot hflags hfound htype ?_
      rw [hdepth', not_not.mp hdepth]
    rw [hparent] at hb
    exact fileOpen_balanced hb inodeNo flags

theorem sysOpen_balanced {pathname : Str} {flags : UInt8} (hb : Balanced s handles)
    (hclose : ClosesParent s pathname flags) :
    Ensures (sysOpen pathname flags) s fun _ t => Balanced t handles := by
  unfold sysOpen
  cases hlast : pathname.getLast? with
  | none => exact True.intro
  | some c =>
      show Wp (if c = slash then _ else _) s _ _
      rw [Wp.ite]
      refine ⟨fun _ => hb, fun hc => ?_⟩
      rw [Wp.bind, wp_kassert]
      refine ⟨fun _ => ?_, fun _ => True.intro⟩
      rw [Wp.bind, Wp.lift]
      refine ⟨fun depth hdepth => ?_, fun _ _ => True.intro⟩
      rw [Wp.bind]
      have hsearch := ensures_iff.mp (searchFile_balanced hb (parsedPath pathname))
      refine ensures_iff.mpr fun r t hrun => ?_
      refine openFound_balanced (hsearch r t hrun) _ fun hflags hfound htype hsearched => ?_
      have hslash : pathname.getLast? ≠ some slash := by
        rw [hlast]
        exact fun heq => hc (Option.some.inj heq)
      exact ensures_iff.mp (hclose hflags hslash) r t hrun hfound htype (hsearched.trans hdepth.symm)

theorem sysClose_balanced (hb : Balanced s handles) (fd : Int) :
    Ensures (sysClose fd) s fun _ t => Balanced t handles := by
  unfold sysClose
  rw [Ensures, Wp.ite]
  refine ⟨fun _ => ?_, fun _ => hb⟩
  unfold fdLocal2global
  rw [Wp.bind, Wp.bind, Wp.get, Wp.ite]
  refine ⟨fun _ => ?_, fun _ => True.intro⟩
  rw [Wp.bind, wp_kassert]
  refine ⟨fun hrange => ?_, fun _ => True.intro⟩
  have hg : (s.cur.fdTable fd.toNat).toNat < maxFileOpen := by omega
  rw [Wp.pure, Wp.bind]
  refine (fileClose_balanced hb hg).call fun _ t ht => ?_
  exact ht.congr ⟨rfl, rfl, rfl, Nat.le_refl _⟩ rfl rfl

/-! ## Releasing an inode -/

theorem inodeRelease_balanced (hb : Balanced s handles) (n : UInt32) :
    Ensures (inodeRelease n) s fun _ t => Balanced t handles := by
  unfold inodeRelease
  rw [Ensures, Wp.bind]
  refine (inodeOpen_tallied hb.tallied n).call fun p s₁ h₁ => ?_
  rw [Wp.bind]
  refine (quiet_allows.loadInode p s₁).call fun i s₂ h₂ => ?_
  rw [Wp.bind]
  refine (kassert_quiet _ s₂).call fun _ s₃ h₃ => ?_
  rw [Wp.bind]
  refine (collectBlocks_quiet i s₃).call fun allBlocks s₄ h₄ => ?_
  rw [Wp.bind]
  refine (when_quiet (Within.get.bind fun _ => (kassert_quiet _).bind fun _ =>
    blockRelease_quiet _) s₄).call fun _ s₅ h₅ => ?_
  rw [Wp.bind]
  refine (releaseBlocks_quiet allBlocks _ 0 s₅).call fun _ s₆ h₆ => ?_
  have hq₆ := trans_of Quiet (trans_of Quiet (trans_of Quiet (trans_of Quiet h₂ h₃) h₄) h₅) h₆
  have htally₆ := h₁.1.quiet hq₆
  have hsame₆ := h₁.2.trans hq₆.sameRefs
  rw [releaseEnd, Wp.bind, wp_inodeBitmapClear]
  refine ⟨fun _ => ?_, fun _ => True.intro⟩
  have htally₇ : Tallied (s₆.setInodeBitmap (s₆.part.inodeBitmap.set n.toNat false))
      (bump (s.refsTo handles) p) := htally₆.congr rfl rfl (Nat.le_refl _)
  rw [Wp.bind]
  refine (quiet_allows.bitmapSync n _ _).call fun _ s₈ h₈ => ?_
  rw [deleteClose, Wp.bind]
  refine (sysMallocBuf_quiet s₈).call fun r s₉ h₉ => ?_
  cases r with
  | none => exact True.intro
  | some ioBuf =>
      show Wp _ _ _ _
      rw [Wp.bind]
      refine (inodeDelete_quiet n _ s₉).call fun _ t ht => ?_
      rw [Wp.bind]
      refine (sysFreeBuf_quiet ioBuf t).call fun _ u hu => ?_
      have hq := trans_of Quiet (trans_of Quiet (trans_of Quiet h₈ h₉) ht) hu
      refine (inodeClose_tallied (htally₇.quiet hq)).call fun _ v hv => ?_
      have hsame : SameRefs s u := hsame₆.trans ⟨hq.fileTable, hq.dirs, hq.rootDir, hq.next⟩
      exact hb.same (hsame.trans hv.2) hv.1

/-! ## Removing files and directories -/

theorem inodeInUse_quiet (n : UInt32) :
    ∀ left fileIdx, Within Quiet (inodeInUse n left fileIdx) := by
  intro left
  induction left with
  | zero => exact fun _ => Within.pure _
  | succ left ih =>
      intro fileIdx
      rw [inodeInUse]
      refine Within.get.bind fun s => ?_
      cases (s.fileTable fileIdx).fdInode with
      | none => exact ih _
      | some p => exact (quiet_allows.loadInode p).bind fun _ => Within.ite (Within.pure _) (ih _)

theorem unlinkFound_balanced (hb : Balanced s (d.opened handles)) (n : UInt32) :
    Ensures (unlinkFound n d) s fun _ t => Balanced t handles := by
  unfold unlinkFound
  refine hb.bind sysMallocBuf_quiet fun r s₁ h₁ => ?_
  cases r with
  | none => exact closeAndFail_balanced h₁
  | some ioBuf =>
      refine h₁.bind (deleteDirEntry_quiet d n) fun _ s₂ h₂ => ?_
      rw [Ensures, Wp.bind]
      refine (inodeRelease_balanced h₂ n).call fun _ s₃ h₃ => ?_
      refine h₃.bind (sysFreeBuf_quiet ioBuf) fun _ s₄ h₄ => ?_
      rw [Ensures, Wp.bind]
      exact (dirClose_balanced h₄).call fun _ _ ht => ht

theorem sysUnlink_balanced (hb : Balanced s handles) (pathname : Str) :
    Ensures (sysUnlink pathname) s fun _ t => Balanced t handles := by
  unfold sysUnlink
  refine hb.bind (kassert_quiet _) fun _ s₁ h₁ => ?_
  rw [Ensures, Wp.bind]
  refine (searchFile_balanced h₁ pathname).call fun r s₂ h₂ => ?_
  refine h₂.bind (kassert_quiet _) fun _ s₃ h₃ => ?_
  rw [Ensures, Wp.ite, Wp.ite]
  refine ⟨fun _ => closeAndFail_balanced h₃, fun _ => ⟨fun _ => closeAndFail_balanced h₃,
    fun _ => h₃.bind (inodeInUse_quiet _ _ _) fun inUse s₄ h₄ => ?_⟩⟩
  rw [Ensures, Wp.ite]
  exact ⟨fun _ => closeAndFail_balanced h₄, fun _ => unlinkFound_balanced h₄ _⟩

theorem dirRemove_balanced (hb : Balanced s handles) (parentDir childDir : DirPtr) :
    Ensures (dirRemove parentDir childDir) s fun _ t => Balanced t handles := by
  unfold dirRemove
  refine hb.bind (quiet_allows.dirInode _) fun p s₁ h₁ => h₁.bind (quiet_allows.loadInode _) fun i s₂ h₂ =>
    h₂.bind (kassert_quiet _) fun _ s₃ h₃ => h₃.bind sysMallocBuf_quiet fun r s₄ h₄ => ?_
  cases r with
  | none => exact h₄
  | some ioBuf =>
      refine h₄.bind (deleteDirEntry_quiet _ _) fun _ s₅ h₅ =>
        h₅.bind (quiet_allows.loadInode _) fun j s₆ h₆ => ?_
      rw [Ensures, Wp.bind]
      refine (inodeRelease_balanced h₆ _).call fun _ s₇ h₇ => ?_
      exact h₇.bind (sysFreeBuf_quiet ioBuf) fun _ _ ht => ht

theorem dirIsEmpty_quiet (d : DirPtr) : Within Quiet (dirIsEmpty d) :=
  (quiet_allows.dirInode _).bind fun _ => (quiet_allows.loadInode _).bind fun _ =>
    Within.get.bind fun _ => Within.pure _

theorem rmdirClose_balanced {dir : DirPtr} (hb : Balanced s (dir.opened (d.opened handles)))
    (x : Int) : Ensures (rmdirClose dir d x) s fun _ t => Balanced t handles := by
  unfold rmdirClose
  rw [Ensures, Wp.bind]
  refine (dirClose_balanced hb).call fun _ t ht => ?_
  rw [Wp.bind]
  exact (dirClose_balanced ht).call fun _ _ hu => hu

theorem rmdirFound_balanced (hb : Balanced s (d.opened handles)) (n : UInt32) :
    Ensures (rmdirFound n d) s fun _ t => Balanced t handles := by
  unfold rmdirFound rmdirOpened
  rw [Ensures, Wp.bind]
  refine (dirOpen_balanced hb n).call fun dir s₁ h₁ => ?_
  refine h₁.bind (dirIsEmpty_quiet dir) fun empty s₂ h₂ => ?_
  rw [Ensures, Wp.ite]
  refine ⟨fun _ => ?_, fun _ => ?_⟩
  · rw [Wp.bind]
    exact (dirRemove_balanced h₂ d dir).call fun _ s₃ h₃ => rmdirClose_balanced h₃ _
  · exact rmdirClose_balanced h₂ _

theorem sysRmdir_balanced (hb : Balanced s handles) (pathname : Str) :
    Ensures (sysRmdir pathname) s fun _ t => Balanced t handles := by
  unfold sysRmdir
  rw [Ensures, Wp.bind]
  refine (searchFile_balanced hb pathname).call fun r s₁ h₁ => ?_
  refine h₁.bind (kassert_quiet _) fun _ s₂ h₂ => ?_
  rw [Ensures, Wp.ite]
  exact ⟨fun _ => closeAndFail_balanced h₂, fun _ => rmdirFound_balanced h₂ _⟩

/-! ## Making a directory -/

theorem mkdirRollback1_balanced (hb : Balanced s (d.opened handles)) (ioBuf : Ptr) :
    Ensures (mkdirRollback1 d ioBuf) s fun _ t => Balanced t handles := by
  unfold mkdirRollback1 mkdirFail
  rw [Ensures, Wp.bind]
  refine (dirClose_balanced hb).call fun _ t ht => ?_
  rw [Wp.ite]
  exact ⟨fun _ => True.intro, fun _ => ht⟩

theorem mkdirRollback2_balanced (hb : Balanced s (d.opened handles)) (n : UInt32) (ioBuf : Ptr) :
    Ensures (mkdirRollback2 n d ioBuf) s fun _ t => Balanced t handles := by
  unfold mkdirRollback2
  rw [Ensures, Wp.bind, wp_inodeBitmapClear]
  exact ⟨fun _ => mkdirRollback1_balanced (hb.setInodeBitmap _) ioBuf, fun _ => True.intro⟩

theorem mkdirInstall_balanced (hb : Balanced s (d.opened handles)) (dirname : Str)
    (n lba : UInt32) (ioBuf : Ptr) :
    Ensures (mkdirInstall dirname d n lba ioBuf) s fun _ t => Balanced t handles := by
  unfold mkdirInstall mkdirEnd
  refine hb.bind Within.get fun _ s₁ h₁ => h₁.bind (kassert_quiet _) fun _ s₂ h₂ =>
    h₂.bind (quiet_allows.bitmapSync _ _) fun _ s₃ h₃ => h₃.bind (quiet_allows.dirInode _) fun _ s₄ h₄ =>
    h₄.bind (quiet_allows.loadInode _) fun _ s₅ h₅ => h₅.bind (quiet_allows.ideWrite _ _ _) fun _ s₆ h₆ =>
    h₆.bind Within.get fun _ s₇ h₇ => h₇.bind (Within.lift _) fun _ s₈ h₈ =>
    h₈.bind (syncDirEntry_quiet _ _ _) fun synced s₉ h₉ => ?_
  rw [Ensures, Wp.ite]
  refine ⟨fun _ => ?_, fun _ => mkdirRollback2_balanced h₉ n ioBuf⟩
  refine h₉.bind (quiet_allows.dirInode _) fun _ t₁ k₁ => k₁.bind (quiet_allows.loadInode _) fun _ t₂ k₂ =>
    k₂.bind (quiet_allows.inodeSync _ _) fun _ t₃ k₃ => k₃.bind (quiet_allows.inodeSync _ _) fun _ t₄ k₄ =>
    k₄.bind (quiet_allows.bitmapSync _ _) fun _ t₅ k₅ => k₅.bind (sysFreeBuf_quiet _) fun _ t₆ k₆ => ?_
  rw [Ensures, Wp.bind]
  exact (dirClose_balanced k₆).call fun _ _ ht => ht

theorem mkdirNew_balanced (hb : Balanced s (d.opened handles)) (dirname : Str) (ioBuf : Ptr) :
    Ensures (mkdirNew dirname d ioBuf) s fun _ t => Balanced t handles := by
  unfold mkdirNew
  rw [Ensures, Wp.bind, wp_inodeBitmapAlloc]
  refine ⟨fun i _ => ?_, fun _ => True.intro⟩
  have h₁ := hb.setInodeBitmap (s.part.inodeBitmap.set i true)
  rw [Wp.ite]
  refine ⟨fun _ => mkdirRollback1_balanced h₁ ioBuf, fun _ => ?_⟩
  refine h₁.bind quiet_allows.blockBitmapAlloc fun lba s₂ h₂ => ?_
  rw [Ensures, Wp.ite]
  exact ⟨fun _ => mkdirRollback2_balanced h₂ _ ioBuf,
    fun _ => mkdirInstall_balanced h₂ dirname _ lba ioBuf⟩

theorem mkdirWithBuf_balanced (hb : Balanced s handles) (pathname : Str) (ioBuf : Ptr) :
    Ensures (mkdirWithBuf pathname ioBuf) s fun _ t => Balanced t handles := by
  unfold mkdirWithBuf
  rw [Ensures, Wp.bind]
  refine (searchFile_balanced hb pathname).call fun r s₁ h₁ => ?_
  rw [Wp.ite]
  refine ⟨fun _ => mkdirRollback1_balanced h₁ ioBuf, fun _ => ?_⟩
  refine h₁.bind (Within.lift _) fun depth s₂ h₂ => h₂.bind (Within.lift _) fun depth' s₃ h₃ => ?_
  rw [Ensures, Wp.ite]
  refine ⟨fun _ => mkdirRollback1_balanced h₃ ioBuf, fun _ => ?_⟩
  exact h₃.bind (Within.lift _) fun dirname s₄ h₄ => mkdirNew_balanced h₄ dirname ioBuf

theorem sysMkdir_balanced (hb : Balanced s handles) (pathname : Str) :
    Ensures (sysMkdir pathname) s fun _ t => Balanced t handles := by
  unfold sysMkdir
  refine hb.bind sysMallocBuf_quiet fun r s₁ h₁ => ?_
  cases r with
  | none => exact h₁
  | some ioBuf => exact mkdirWithBuf_balanced h₁ pathname ioBuf

/-! ## Looking at files and directories -/

theorem sysChdir_balanced (hb : Balanced s handles) (path : Str) :
    Ensures (sysChdir path) s fun _ t => Balanced t handles := by
  unfold sysChdir chdirFound
  rw [Ensures, Wp.bind]
  refine (searchFile_balanced hb path).call fun r s₁ h₁ => ?_
  rw [Wp.ite]
  refine ⟨fun _ => ?_, fun _ => closeAndFail_balanced h₁⟩
  rw [Wp.bind, Wp.modify, Wp.bind]
  have h₂ : Balanced { s₁ with cur := { s₁.cur with cwdInodeNr := r.1 } }
      (r.2.parentDir.opened handles) := h₁.congr ⟨rfl, rfl, rfl, Nat.le_refl _⟩ rfl rfl
  exact (dirClose_balanced h₂).call fun _ _ ht => ht

theorem sysStat_balanced (hb : Balanced s handles) (path : Str) :
    Ensures (sysStat path) s fun _ t => Balanced t handles := by
  unfold sysStat
  rw [Ensures, Wp.ite]
  refine ⟨fun _ => hb.bind (quiet_allows.dirInode _) fun _ s₁ h₁ =>
    h₁.bind (quiet_allows.loadInode _) fun _ _ ht => ht, fun _ => ?_⟩
  rw [Wp.bind]
  refine (searchFile_balanced hb path).call fun r s₁ h₁ => ?_
  rw [Wp.ite]
  refine ⟨fun _ => ?_, fun _ => ?_⟩
  · rw [Wp.bind]
    refine (inodeOpen_tallied h₁.tallied r.1).call fun p s₂ h₂ => ?_
    rw [Wp.bind]
    refine (quiet_allows.loadInode p s₂).call fun i s₃ h₃ => ?_
    rw [Wp.bind]
    refine (inodeClose_tallied (h₂.1.quiet h₃)).call fun _ s₄ h₄ => ?_
    have hb₄ := h₁.same ((h₂.2.trans h₃.sameRefs).trans h₄.2) h₄.1
    rw [Wp.bind]
    exact (dirClose_balanced hb₄).call fun _ _ ht => ht
  · rw [Wp.bind]
    exact (dirClose_balanced h₁).call fun _ _ ht => ht

/-- Two directories may be closed in any order. -/
theorem opened_comm (d d' : DirPtr) (handles : List Ptr) :
    (d.opened (d'.opened handles)).Perm (d'.opened (d.opened handles)) := by
  cases d with
  | root => exact List.Perm.refl _
  | heap q =>
      cases d' with
      | root => exact List.Perm.refl _
      | heap q' => exact List.Perm.swap q' q handles

theorem sysOpendir_balanced (hb : Balanced s handles) (name : Str) :
    Ensures (sysOpendir name) s fun dir t => Balanced t (handlesOpened handles dir) := by
  unfold sysOpendir
  refine hb.bind (kassert_quiet _) fun _ s₁ h₁ => ?_
  rw [Ensures, Wp.ite]
  refine ⟨fun _ => h₁, fun _ => ?_⟩
  rw [Wp.bind]
  refine (searchFile_balanced h₁ name).call fun r s₂ h₂ => ?_
  have hnone : Ensures (do
      dirClose r.2.parentDir
      pure (none : Option DirPtr)) s₂ fun dir t => Balanced t (handlesOpened handles dir) := by
    rw [Ensures, Wp.bind]
    exact (dirClose_balanced h₂).call fun _ _ ht => ht
  unfold opendirFound openSearched
  rw [Wp.bind, Wp.ite, Wp.ite]
  refine ⟨fun _ => hnone, fun _ => ⟨fun _ => ?_, fun _ => hnone⟩⟩
  rw [Wp.bind]
  refine (dirOpen_balanced h₂ r.1).call fun dir s₃ h₃ => ?_
  rw [Wp.pure, Wp.bind]
  exact (dirClose_balanced (h₃.perm (opened_comm _ _ _))).call fun _ _ ht => ht

theorem sysClosedir_balanced (hb : Balanced s handles) (dir : Option DirPtr) :
    Ensures (sysClosedir dir) s fun _ t => Balanced t (handlesClosed handles dir) := by
  cases dir with
  | none => exact hb
  | some d =>
      unfold sysClosedir
      rw [Ensures, Wp.bind]
      cases d with
      | root => exact hb
      | heap q =>
          by_cases hq : q ∈ handles
          · have hperm : handles.Perm ((DirPtr.heap q).opened (handles.erase q)) :=
              List.perm_cons_erase hq
            exact (dirClose_balanced (hb.perm hperm)).call fun _ _ ht => ht
          · -- a directory that is not open is not in memory
            have hnone : s.dirs q = none := by
              by_contra hsome
              exact hq ((hb.mem q).mpr (Option.isSome_iff_ne_none.mpr hsome))
            unfold dirClose
            rw [Wp.bind, wp_dirInode]
            refine ⟨fun p hp => ?_, fun _ => True.intro⟩
            simp [State.inodeOf, hnone] at hp

/-! ## Runs -/

variable {σ τ : Session}

theorem FsCall.run_balanced (hb : Balanced σ.fs σ.handles) {c : FsCall} (hc : c.Closes σ) :
    Ensures (c.run σ.handles) σ.fs fun handles t => Balanced t handles := by
  cases c with
  | sysOpen pathname flags => exact Wp.bind.mpr ((sysOpen_balanced hb hc).call fun _ _ ht => ht)
  | sysClose fd => exact Wp.bind.mpr ((sysClose_balanced hb fd).call fun _ _ ht => ht)
  | sysUnlink pathname => exact Wp.bind.mpr ((sysUnlink_balanced hb pathname).call fun _ _ ht => ht)
  | sysMkdir pathname => exact Wp.bind.mpr ((sysMkdir_balanced hb pathname).call fun _ _ ht => ht)
  | sysRmdir pathname => exact Wp.bind.mpr ((sysRmdir_balanced hb pathname).call fun _ _ ht => ht)
  | sysStat path => exact Wp.bind.mpr ((sysStat_balanced hb path).call fun _ _ ht => ht)
  | sysChdir path => exact Wp.bind.mpr ((sysChdir_balanced hb path).call fun _ _ ht => ht)
  | sysOpendir name => exact Wp.bind.mpr ((sysOpendir_balanced hb name).call fun _ _ ht => ht)
  | sysClosedir dir => exact Wp.bind.mpr ((sysClosedir_balanced hb dir).call fun _ _ ht => ht)

theorem fsStep_balanced (hb : Balanced σ.fs σ.handles) {c : FsCall} (hc : c.Closes σ)
    (hstep : fsStep σ c = .ok τ) : Balanced τ.fs τ.handles := by
  unfold fsStep at hstep
  cases hrun : (c.run σ.handles).run σ.fs with
  | error e =>
      rw [hrun] at hstep
      cases hstep
  | ok r =>
      rw [hrun] at hstep
      cases hstep
      exact ensures_iff.mp (FsCall.run_balanced hb hc) r.1 r.2 hrun

/-- Under the condition the counts are the references in every state between calls. -/
theorem countsRight_of_run (hs : s.AtBoot)
    (hrun : Reach fsStep (fun σ c => c.Closes σ) ⟨s, []⟩ τ) : τ.CountsRight := by
  have hb : Balanced τ.fs τ.handles :=
    hrun.invariant (I := fun τ => Balanced τ.fs τ.handles) hs.balanced
      fun _ _ _ hσ hc hstep => fsStep_balanced hσ hc hstep
  exact hb.tallied.openCnts

theorem freshState_atBoot : freshState.AtBoot where
  root := ⟨⟨false, 0⟩, _, rfl, rfl, rfl, rfl⟩
  old p i hi := by
    by_cases hp : p = ⟨false, 0⟩
    · rw [hp]
      exact Nat.one_pos
    · cases (if_neg hp).symm.trans hi
  files _ _ := rfl
  dirs _ := rfl

/-- A directory `/d` with a file is made, and opened. -/
theorem countsRight_opendir :
    ∃ τ, Reach fsStep (fun σ c => c.Closes σ) ⟨freshState, []⟩ τ ∧ τ.CountsRight ∧
      τ.handles = [⟨false, 19⟩] := by
  obtain ⟨τ, hrun, hopen⟩ := exists_reach fsStep (fun σ c => c.Closes σ) ⟨freshState, []⟩
    [.sysMkdir [slash, 100], .sysOpen [slash, 100, slash, 102] 6, .sysOpendir [slash, 100],
      .sysOpen [slash, 102] 0]
    (fun τ => τ.handles = [⟨false, 19⟩]) (by decide +kernel) (by decide +kernel)
  exact ⟨τ, hrun, countsRight_of_run freshState_atBoot hrun, hopen⟩

/-- The file `/d/f` is made, closed and opened again: nothing refers to `/d`, but its count
is 1. -/
theorem countsWrong_open : freshState.AtBoot ∧
    ∃ τ, Reach fsStep (fun _ _ => True) ⟨freshState, []⟩ τ ∧ ¬τ.CountsRight := by
  obtain ⟨τ, hrun, hτ⟩ := exists_reach fsStep (fun _ _ => True) ⟨freshState, []⟩
    [.sysMkdir [slash, 100], .sysOpen [slash, 100, slash, 102] 6, .sysClose 3,
      .sysOpen [slash, 100, slash, 102] 2]
    (fun τ => τ.fs.openCnts ⟨false, 16⟩ ≠ τ.fs.refsTo τ.handles ⟨false, 16⟩)
    (allOk_true _ _) (by decide +kernel)
  exact ⟨freshState_atBoot, τ, hrun, fun hright => hτ (hright _)⟩

end

end OsTruth
