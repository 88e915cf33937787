/-
What `sys_mkdir` leaves behind when it does not create the directory.

The buffer `io_buf` is taken first, and the rollback passes it to `sys_close` where it was
to go to `sys_free`.  The other functions give back every buffer that they take, so it is
still in use when the call is over.
-/
import OsTruth.Fs.DirMade
import OsTruth.Fs.OpenBalance
import OsTruth.Fs.Quiet

namespace OsTruth

open ByteString Fallible

/-- The inode of `p` is open as often as before, and has the same size and sectors. -/
def SameInode (s t : State) (p : Ptr) : Prop :=
  s.openCnts p = t.openCnts p ∧ (s.inodes p).map Inode.content = (t.inodes p).map Inode.content

/-- What `sys_mkdir` is to leave as it was. -/
structure MkdirSame (s t : State) : Prop where
  inodeBitmap : ∀ b, t.part.inodeBitmap.bit b = s.part.inodeBitmap.bit b
  blockBitmap : ∀ b, t.part.blockBitmap.bit b = s.part.blockBitmap.bit b
  inodes : ∀ p, SameInode s t p
  fdTable : t.cur.fdTable = s.cur.fdTable
  bufs : t.bufs.Perm s.bufs
  dirs : ∀ p, (t.dirs p).isSome = (s.dirs p).isSome
  entries : ∀ i e, Live t.disk i e ↔ Live s.disk i e

def MkdirCreates (s : State) (pathname : Str) : Prop :=
  Returns (sysMkdir pathname) s fun r _ => r = 0

instance (s : State) (pathname : Str) : Decidable (MkdirCreates s pathname) :=
  inferInstanceAs (Decidable (Wp _ _ _ _))

/-- The call returns -1 and leaves everything as it was. -/
def MkdirFailsClean (s : State) (pathname : Str) : Prop :=
  Returns (sysMkdir pathname) s fun r t => r = -1 ∧ MkdirSame s t

/-- A call that does not create the directory is undone. -/
def MkdirUndone (s : State) (pathname : Str) : Prop :=
  ¬MkdirCreates s pathname → MkdirFailsClean s pathname

/-- The buffer at `q` is in use as it was, unless its address was not yet handed out. -/
def KeepsBuf (q : Ptr) (s t : State) : Prop :=
  q.id < s.next → q.id < t.next ∧ t.bufs.count q = s.bufs.count q

instance (q : Ptr) : Std.Refl (KeepsBuf q) := ⟨fun _ h => ⟨h, rfl⟩⟩

instance (q : Ptr) : IsTrans State (KeepsBuf q) := by
  refine ⟨fun s t u h k hq => ?_⟩
  have ht := h hq
  have hu := k ht.1
  exact ⟨hu.1, hu.2.trans ht.2⟩

section

variable {s t : State} {p q : Ptr}

theorem keepsBuf_of_eq (hnext : s.next ≤ t.next) (hbufs : t.bufs = s.bufs) : KeepsBuf q s t := by
  intro hq
  rw [hbufs]
  exact ⟨Nat.lt_of_lt_of_le hq hnext, rfl⟩

theorem keepsBuf_allows (q : Ptr) : Allows (KeepsBuf q) where
  store s _ _ _ := keepsBuf_of_eq (Nat.le_refl s.next) rfl
  setBlockBitmap s _ := keepsBuf_of_eq (Nat.le_refl s.next) rfl

theorem keepsBuf_allowsInode (p q : Ptr) : AllowsInode (KeepsBuf q) p where
  toAllows := keepsBuf_allows q
  putInode s _ _ _ _ := keepsBuf_of_eq (Nat.le_refl s.next) rfl

/-! ## Buffers -/

/-- A new buffer is another one. -/
theorem sysMallocBuf_bind {β : Type} {f : Option Ptr → Kern β}
    (hnone : Within (KeepsBuf q) (f none))
    (hsome : ∀ p, p ≠ q → Within (KeepsBuf q) (f (some p))) :
    Within (KeepsBuf q) (sysMallocBuf >>= f) := by
  intro s
  rw [Ensures, Wp.bind, wp_sysMallocBuf]
  refine ⟨fun _ => ?_, fun _ => ?_⟩
  · by_cases hq : q.id < s.next
    · have hne : s.fresh ≠ q := by
        intro heq
        rw [← heq] at hq
        exact Nat.lt_irrefl _ hq
      have hbuf : KeepsBuf q s s.withBuf :=
        fun _ => ⟨Nat.lt_succ_of_lt hq, List.count_cons_of_ne hne⟩
      exact (hsome s.fresh hne s.withBuf).call fun _ t ht => trans_of _ hbuf ht
    · exact Wp.trivial.call fun _ _ _ hlt => absurd hlt hq
  · have hrefuse : KeepsBuf q s s.refuse := keepsBuf_of_eq (Nat.le_refl s.next) rfl
    exact (hnone s.refuse).call fun _ t ht => trans_of _ hrefuse ht

theorem sysFreeBuf_keepsBuf (hne : p ≠ q) : Within (KeepsBuf q) (sysFreeBuf p) := by
  intro s
  rw [Ensures, sysFreeBuf, wp_sysFree]
  exact ⟨fun _ _ hq => ⟨hq, List.count_erase_of_ne hne.symm⟩, fun _ _ => True.intro,
    fun _ _ => True.intro, fun _ _ => True.intro⟩

theorem searchDirEntry_keepsBuf (d : DirPtr) (name : Str) :
    Within (KeepsBuf q) (searchDirEntry d name) := by
  have hr := keepsBuf_allows q
  apply sysMallocBuf_bind
  · exact Within.pure _
  · intro allBlocksPtr hall
    refine (hr.dirInode d).bind fun p => (hr.loadInode p).bind fun i =>
      (within_of_same (collectBlocks_same i)).bind fun allBlocks => ?_
    apply sysMallocBuf_bind
    · exact hr.getEntrySize.bind fun _ => Within.throw _
    · intro bufPtr hbuf
      exact hr.getEntrySize.bind fun _ =>
        (within_of_same (searchBlocks_same allBlocks name 140 0)).bind fun r =>
          (sysFreeBuf_keepsBuf hbuf).bind fun _ => (sysFreeBuf_keepsBuf hall).bind fun _ =>
            Within.pure r

/-! ## Inodes and directories -/

theorem inKernel_keepsBuf {α : Type} {x : Kern α} (hx : Within (KeepsBuf q) x) :
    Within (KeepsBuf q) (inKernel x) := by
  intro s
  rw [Ensures, wp_inKernel]
  exact (hx _).call fun _ t ht => ht

theorem storeInode_keepsBuf (p : Ptr) (i : Inode) : Within (KeepsBuf q) (storeInode p i) := by
  intro s
  rw [Ensures, wp_storeInode]
  exact ⟨fun _ => keepsBuf_of_eq (Nat.le_refl s.next) rfl, fun _ => True.intro⟩

theorem sysFree_keepsBuf {live : State → Bool} {drop : State → State}
    (h : ∀ s, KeepsBuf q s (drop s)) : Within (KeepsBuf q) (sysFree p live drop) := by
  intro s
  rw [Ensures, wp_sysFree]
  exact ⟨fun _ _ => h s, fun _ _ => True.intro, fun _ _ => True.intro, fun _ _ => True.intro⟩

theorem inodeOpen_keepsBuf (n : UInt32) : Within (KeepsBuf q) (inodeOpen n) := by
  intro s
  rw [Ensures, wp_inodeOpen]
  refine ⟨fun p i _ _ => keepsBuf_of_eq (Nat.le_refl s.next) rfl, fun _ => ?_,
    fun _ _ => True.intro⟩
  rw [wp_inodeRead]
  refine ⟨fun _ => ⟨fun _ => ⟨fun _ => ⟨fun _ => ?_, fun _ => True.intro⟩, fun _ => True.intro⟩,
    fun _ => True.intro⟩, fun _ => True.intro⟩
  exact keepsBuf_of_eq (Nat.le_add_right s.next 2) rfl

theorem inodeClose_keepsBuf (p : Ptr) : Within (KeepsBuf q) (inodeClose p) := by
  refine ((keepsBuf_allows q).loadInode p).bind fun i => (storeInode_keepsBuf p _).bind fun _ =>
    Within.ite ?_ (Within.pure _)
  refine (Within.modify fun s => ?_).bind fun _ => inKernel_keepsBuf (sysFree_keepsBuf fun s => ?_)
  · exact keepsBuf_of_eq (Nat.le_refl s.next) rfl
  · exact keepsBuf_of_eq (Nat.le_refl s.next) rfl

theorem dirOpen_keepsBuf (n : UInt32) : Within (KeepsBuf q) (dirOpen n) := by
  intro s
  rw [Ensures, wp_dirOpen]
  refine ⟨fun _ => ?_, fun _ => Wp.trivial⟩
  have hnew : KeepsBuf q s s.newDir := keepsBuf_of_eq (Nat.le_succ s.next) rfl
  exact (inodeOpen_keepsBuf n s.newDir).call fun _ t ht => trans_of _ hnew ht

theorem dirClose_keepsBuf (d : DirPtr) : Within (KeepsBuf q) (dirClose d) := by
  cases d with
  | root => exact Within.pure _
  | heap p =>
      refine ((keepsBuf_allows q).dirInode _).bind fun r => (inodeClose_keepsBuf r).bind fun _ =>
        sysFree_keepsBuf fun s => ?_
      exact keepsBuf_of_eq (Nat.le_refl s.next) rfl

/-! ## Searching a path -/

theorem searchEnd_keepsBuf (d : DirPtr) (n : UInt32) (e : Option DirEntry) (path : Str) :
    Within (KeepsBuf q) (searchEnd d n e path) := by
  refine (dirClose_keepsBuf d).bind fun _ => (dirOpen_keepsBuf n).bind fun d' => ?_
  cases e with
  | none => exact Within.throw _
  | some e => exact Within.pure _

theorem searchLoop_keepsBuf (left : Nat) : ∀ (d : DirPtr) (n : UInt32) (e : Option DirEntry)
    (name : Str) (sub : Option Str) (path : Str),
      Within (KeepsBuf q) (searchLoop left d n e name sub path) := by
  induction left with
  | zero =>
      intro d n e name sub path
      cases name with
      | nil =>
          unfold searchLoop
          exact searchEnd_keepsBuf d n e path
      | cons c name => exact Within.throw _
  | succ left ih =>
      intro d n e name sub path
      cases name with
      | nil =>
          unfold searchLoop
          exact searchEnd_keepsBuf d n e path
      | cons c name =>
          unfold searchLoop
          refine (Within.lift _).bind fun _ => (Within.lift _).bind fun path' =>
            (searchDirEntry_keepsBuf d _).bind fun r => ?_
          cases r with
          | none => exact Within.pure _
          | some e' =>
              refine (Within.lift _).bind fun next => Within.ite ?_ (Within.ite (Within.pure _) ?_)
              · exact ((keepsBuf_allows q).dirInode d).bind fun p =>
                  ((keepsBuf_allows q).loadInode p).bind fun i => (dirClose_keepsBuf d).bind fun _ =>
                    (dirOpen_keepsBuf _).bind fun d' => ih _ _ _ _ _ _
              · exact ih _ _ _ _ _ _

theorem searchFile_keepsBuf (path : Str) : Within (KeepsBuf q) (searchFile path) :=
  Within.ite (Within.pure _) ((Within.lift _).bind fun _ => (Within.lift _).bind fun _ =>
    searchLoop_keepsBuf _ _ _ _ _ _ _)

/-! ## Making a directory -/

theorem mkdirRollback1_keepsBuf (d : DirPtr) (ioBuf : Ptr) :
    Within (KeepsBuf q) (mkdirRollback1 d ioBuf) :=
  (dirClose_keepsBuf d).bind fun _ => Within.ite (Within.throw _) (Within.pure _)

theorem mkdirRollback2_keepsBuf (n : UInt32) (d : DirPtr) (ioBuf : Ptr) :
    Within (KeepsBuf q) (mkdirRollback2 n d ioBuf) := by
  have hclear : Within (KeepsBuf q) (inodeBitmapClear n) := by
    intro s
    rw [Ensures, wp_inodeBitmapClear]
    exact ⟨fun _ => keepsBuf_of_eq (Nat.le_refl s.next) rfl, fun _ => True.intro⟩
  exact hclear.bind fun _ => mkdirRollback1_keepsBuf d ioBuf

/-- A part that gives its buffers back comes before one that does so when it fails. -/
theorem fails_bind {α : Type} {x : Kern α} {f : α → Kern Int} (hx : Within (KeepsBuf q) x)
    (hf : ∀ a t, Ensures (f a) t fun r u => r = -1 → KeepsBuf q t u) :
    Ensures (x >>= f) s fun r u => r = -1 → KeepsBuf q s u := by
  rw [Ensures, Wp.bind]
  exact (hx s).call fun a t ht => (hf a t).call fun r u hu hr => trans_of _ ht (hu hr)

theorem mkdirInstall_keepsBuf (dirname : Str) (d : DirPtr) (n lba : UInt32) (ioBuf : Ptr) :
    Ensures (mkdirInstall dirname d n lba ioBuf) s fun r t => r = -1 → KeepsBuf q s t := by
  have hr := keepsBuf_allows q
  refine fails_bind Within.get fun u _ => fails_bind (Within.lift _) fun _ _ =>
    fails_bind (hr.bitmapSync _ _) fun _ _ => fails_bind (hr.dirInode d) fun p _ =>
      fails_bind (hr.loadInode p) fun i _ => fails_bind (hr.ideWrite _ _ _) fun _ _ =>
        fails_bind Within.get fun v _ => fails_bind (Within.lift _) fun e _ =>
          fails_bind (fun w => syncDirEntry_within (fun r _ => keepsBuf_allowsInode r q) e _)
            fun added w => ?_
  cases added with
  | true =>
      -- from here on the call returns 0
      refine Wp.bind.mpr (Wp.trivial.call fun _ _ _ => Wp.bind.mpr (Wp.trivial.call fun _ _ _ =>
        Wp.bind.mpr (Wp.trivial.call fun _ _ _ => Wp.bind.mpr (Wp.trivial.call fun _ _ _ =>
          Wp.bind.mpr (Wp.trivial.call fun _ _ _ => Wp.bind.mpr (Wp.trivial.call fun _ _ _ =>
            Wp.bind.mpr (Wp.trivial.call fun _ _ _ => ?_)))))))
      intro hzero
      cases hzero
  | false => exact (mkdirRollback2_keepsBuf n d ioBuf w).call fun _ _ ht _ => ht

theorem mkdirNew_keepsBuf (dirname : Str) (d : DirPtr) (ioBuf : Ptr) :
    Ensures (mkdirNew dirname d ioBuf) s fun r t => r = -1 → KeepsBuf q s t := by
  have halloc : Within (KeepsBuf q) inodeBitmapAlloc := by
    intro s
    rw [Ensures, wp_inodeBitmapAlloc]
    exact ⟨fun _ _ => keepsBuf_of_eq (Nat.le_refl s.next) rfl, fun _ => True.intro⟩
  refine fails_bind halloc fun n t => ?_
  rw [Ensures, Wp.ite]
  refine ⟨fun _ => (mkdirRollback1_keepsBuf d ioBuf t).call fun _ _ hu _ => hu, fun _ => ?_⟩
  refine fails_bind (keepsBuf_allows q).blockBitmapAlloc fun lba u => ?_
  rw [Ensures, Wp.ite]
  exact ⟨fun _ => (mkdirRollback2_keepsBuf n d ioBuf u).call fun _ _ hv _ => hv,
    fun _ => mkdirInstall_keepsBuf dirname d n lba ioBuf⟩

theorem mkdirWithBuf_keepsBuf (pathname : Str) (ioBuf : Ptr) :
    Ensures (mkdirWithBuf pathname ioBuf) s fun r t => r = -1 → KeepsBuf q s t := by
  refine fails_bind (searchFile_keepsBuf pathname) fun found t => ?_
  rw [Ensures, Wp.ite]
  refine ⟨fun _ => (mkdirRollback1_keepsBuf _ _ t).call fun _ _ hu _ => hu, fun _ => ?_⟩
  refine fails_bind (Within.lift _) fun _ _ => fails_bind (Within.lift _) fun _ u => ?_
  rw [Ensures, Wp.ite]
  refine ⟨fun _ => (mkdirRollback1_keepsBuf _ _ u).call fun _ _ hv _ => hv, fun _ => ?_⟩
  exact fails_bind (Within.lift _) fun _ _ => mkdirNew_keepsBuf _ _ _

/-- With memory for `io_buf`, a call that fails leaves the buffer in use. -/
theorem sysMkdir_leaks {pathname : Str} (hmem : s.supply 0 = true) :
    Ensures (sysMkdir pathname) s fun r t => r = -1 →
      t.bufs.count s.fresh = s.bufs.count s.fresh + 1 := by
  unfold sysMkdir
  rw [Ensures, Wp.bind, wp_sysMallocBuf]
  refine ⟨fun _ => ?_, fun hnone => ?_⟩
  · refine (mkdirWithBuf_keepsBuf (s := s.withBuf) (q := s.fresh) pathname s.fresh).call
      fun r t ht hr => ?_
    rw [(ht hr (Nat.lt_succ_self s.next)).2]
    exact List.count_cons_self
  · rw [hmem] at hnone
    cases hnone

/-! ## The whole call -/

theorem MkdirSame.of_refuse (s : State) : MkdirSame s s.refuse where
  inodeBitmap _ := rfl
  blockBitmap _ := rfl
  inodes _ := ⟨rfl, rfl⟩
  fdTable := rfl
  bufs := List.Perm.refl s.bufs
  dirs _ := rfl
  entries _ _ := Iff.rfl

theorem MkdirFailsClean.refused {pathname : Str} (h : MkdirFailsClean s pathname) :
    s.supply 0 = false := by
  cases hmem : s.supply 0 with
  | false => rfl
  | true =>
      obtain ⟨r, t, hrun, hr, hsame⟩ := returns_iff.mp h
      have hcount := ensures_iff.mp (sysMkdir_leaks hmem) r t hrun hr
      rw [hsame.bufs.count_eq] at hcount
      omega

theorem mkdirFailsClean_of_refused {pathname : Str} (hmem : s.supply 0 = false) :
    MkdirFailsClean s pathname := by
  unfold MkdirFailsClean sysMkdir
  rw [Returns, Wp.bind, wp_sysMallocBuf]
  refine ⟨fun hsome => ?_, fun _ => ⟨rfl, MkdirSame.of_refuse s⟩⟩
  rw [hmem] at hsome
  cases hsome

/-- A call of `sys_mkdir` is as it is to be exactly when it creates the directory.  No call that
fails undoes what it did, unless it is refused the memory for `io_buf` and did nothing. -/
theorem sysMkdir_undone_iff (s : State) (pathname : Str) :
    MkdirUndone s pathname ↔ MkdirCreates s pathname ∨ s.supply 0 = false := by
  by_cases hcreates : MkdirCreates s pathname
  · exact ⟨fun _ => Or.inl hcreates, fun _ hno => absurd hcreates hno⟩
  · constructor
    · intro h
      exact Or.inr (h hcreates).refused
    · rintro (h | h)
      · exact absurd h hcreates
      · exact fun _ => mkdirFailsClean_of_refused h

/-- A kernel thread makes `/`, which exists: the call fails, and the buffer is lost. -/
theorem sysMkdir_leaks_root :
    (∃ t, (sysMkdir [slash]).run freshState = .ok (-1, t)) ∧ ¬MkdirUndone freshState [slash] := by
  have hrun : (sysMkdir [slash]).run freshState = .ok (-1, freshState.withBuf) := rfl
  refine ⟨⟨_, hrun⟩, fun h => ?_⟩
  have hcreates : ¬MkdirCreates freshState [slash] := by
    rw [MkdirCreates, Returns, Wp.of_run hrun]
    decide
  cases (h hcreates).refused

example : MkdirCreates freshState [slash, 97] := by decide +kernel

end

end OsTruth
