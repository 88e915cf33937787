/-
The position of an open file and its size.

`PosOk` says that no entry of `file_table` stands behind the end of its file, and `Moves`
what a call can do that keeps it.  A directory grows when a file is made in it, without a
look at its size, so `D` names the inodes that are left out.
-/
import OsTruth.Fs.FileTable
import OsTruth.Fs.FileCalls
import OsTruth.Fs.WriteBounds

namespace OsTruth

open ByteString Fallible

def State.DirInode (s : State) (p : Ptr) : Prop := ∃ d, s.inodeOf d = some p

/-- `fd_pos` is at most `i_size`.  An entry and an inode are older than what comes next. -/
structure PosOk (D : Ptr → Prop) (s : State) : Prop where
  pos : ∀ g p i, s.OpenOn g p → ¬D p → s.inodes p = some i → (s.fileTable g).fdPos ≤ i.iSize
  table : ∀ g p, s.OpenOn g p → p.id < s.next
  heap : ∀ p i, s.inodes p = some i → p.id < s.next

/-- A call moves only entries whose inodes the task sees, and makes its inodes anew. -/
structure Moves (D : Ptr → Prop) (s t : State) : Prop where
  rootDir : t.rootDir = s.rootDir
  dirs : t.dirs = s.dirs
  next : s.next ≤ t.next
  heap : ∀ p i, t.inodes p = some i → (∃ j, s.inodes p = some j) ∨ s.next ≤ p.id
  entry : ∀ g p, t.OpenOn g p →
    t.fileTable g = s.fileTable g ∨ (∃ i, s.inodes p = some i) ∨ s.next ≤ p.id
  ok : PosOk D s → PosOk D t

structure Still (s t : State) : Prop where
  rootDir : t.rootDir = s.rootDir
  dirs : t.dirs = s.dirs
  inodes : t.inodes = s.inodes
  fileTable : t.fileTable = s.fileTable
  next : s.next ≤ t.next

/-- Quiet, and only the sizes of directories are different. -/
structure Calm (D : Ptr → Prop) (s t : State) : Prop extends Quiet s t where
  sizes : ∀ p, ¬D p → (t.inodes p).map Inode.iSize = (s.inodes p).map Inode.iSize

section

variable {D : Ptr → Prop} {s t u : State} {p : Ptr} {i j : Inode} {g : Nat}

/-! ## The relations -/

instance : Std.Refl (Calm D) := ⟨fun s => ⟨refl_of Quiet s, fun _ _ => rfl⟩⟩

instance : IsTrans State (Calm D) :=
  ⟨fun _ _ _ h k => ⟨trans_of Quiet h.toQuiet k.toQuiet,
    fun p hp => (k.sizes p hp).trans (h.sizes p hp)⟩⟩

instance : Std.Refl Still := ⟨fun _ => ⟨rfl, rfl, rfl, rfl, Nat.le_refl _⟩⟩

instance : IsTrans State Still :=
  ⟨fun _ _ _ h k => ⟨k.rootDir.trans h.rootDir, k.dirs.trans h.dirs, k.inodes.trans h.inodes,
    k.fileTable.trans h.fileTable, Nat.le_trans h.next k.next⟩⟩

instance : Std.Refl (Moves D) :=
  ⟨fun _ => ⟨rfl, rfl, Nat.le_refl _, fun _ i hi => .inl ⟨i, hi⟩, fun _ _ _ => .inl rfl,
    fun h => h⟩⟩

instance : IsTrans State (Moves D) := by
  refine ⟨fun s t u h k => ⟨k.rootDir.trans h.rootDir, k.dirs.trans h.dirs,
    Nat.le_trans h.next k.next, fun p i hi => ?_, fun g p hg => ?_, fun hs => k.ok (h.ok hs)⟩⟩
  · rcases k.heap p i hi with ⟨j, hj⟩ | hnew
    · exact h.heap p j hj
    · exact .inr (Nat.le_trans h.next hnew)
  · rcases k.entry g p hg with hsame | ⟨i, hi⟩ | hnew
    · have hg' : t.OpenOn g p := by
        rw [State.OpenOn, ← hsame]
        exact hg
      rcases h.entry g p hg' with hsame' | hold
      · exact .inl (hsame.trans hsame')
      · exact .inr hold
    · exact .inr (h.heap p i hi)
    · exact .inr (.inr (Nat.le_trans h.next hnew))

theorem Reads.still (h : Reads s t) : Still s t :=
  ⟨h.rootDir, h.dirs, h.inodes, h.fileTable, h.next⟩

theorem still_allows : Allows Still where
  store _ _ _ _ := ⟨rfl, rfl, rfl, rfl, Nat.le_refl _⟩
  setBlockBitmap _ _ := ⟨rfl, rfl, rfl, rfl, Nat.le_refl _⟩

theorem freeBuffers_still {α : Type} (allBlocks ioBuf : Ptr) (retval : α) :
    Within Still (freeBuffers allBlocks ioBuf retval) :=
  ((sysFreeBuf_reads allBlocks).mono fun _ _ => Reads.still).bind fun _ =>
    ((sysFreeBuf_reads ioBuf).mono fun _ _ => Reads.still).bind fun _ => Within.pure _

theorem Calm.of_inodes (h : Quiet s t) (hinodes : t.inodes = s.inodes) : Calm D s t :=
  ⟨h, fun _ _ => by rw [hinodes]⟩

theorem calm_putInode (hi : s.inodes p = some i) (hhead : j.head = i.head)
    (hsize : ¬D p → j.iSize = i.iSize) : Calm D s (s.putInode p (some j)) := by
  refine ⟨quiet_putInode hi hhead, fun q hq => ?_⟩
  show (if q = p then some j else s.inodes q).map Inode.iSize = _
  by_cases hqp : q = p
  · rw [if_pos hqp, hqp, hi, Option.map_some, Option.map_some, hsize (hqp ▸ hq)]
  · rw [if_neg hqp]

theorem Reads.calm (s t : State) (h : Reads s t) : Calm D s t :=
  Calm.of_inodes (Reads.quiet s t h) h.inodes

theorem calm_allows : Allows (Calm D) where
  store s off len d := Calm.of_inodes (quiet_allows.store s off len d) rfl
  setBlockBitmap s b := Calm.of_inodes (quiet_allows.setBlockBitmap s b) rfl

theorem calm_allowsInode (hD : D p) : AllowsInode (Calm D) p where
  toAllows := calm_allows
  putInode _ _ _ hi hhead := calm_putInode hi hhead fun hnot => absurd hD hnot

/-! ## Steps -/

/-- Inodes that do not shrink, and the same entries. -/
theorem Moves.of_sizes (hroot : t.rootDir = s.rootDir) (hdirs : t.dirs = s.dirs)
    (htable : t.fileTable = s.fileTable) (hnext : s.next ≤ t.next)
    (hinodes : ∀ p j, t.inodes p = some j →
      ∃ i, s.inodes p = some i ∧ (¬D p → i.iSize ≤ j.iSize)) : Moves D s t := by
  refine ⟨hroot, hdirs, hnext, fun p j hj => ?_, fun g _ _ => .inl (by rw [htable]),
    fun hok => ⟨fun g p j hg hp hj => ?_, fun g p hg => ?_, fun p j hj => ?_⟩⟩
  · obtain ⟨i, hi, -⟩ := hinodes p j hj
    exact .inl ⟨i, hi⟩
  · obtain ⟨i, hi, hsize⟩ := hinodes p j hj
    rw [State.OpenOn, htable] at hg
    rw [htable]
    exact UInt32.le_trans (hok.pos g p i hg hp hi) (hsize hp)
  · rw [State.OpenOn, htable] at hg
    exact Nat.lt_of_lt_of_le (hok.table g p hg) hnext
  · obtain ⟨i, hi, -⟩ := hinodes p j hj
    exact Nat.lt_of_lt_of_le (hok.heap p i hi) hnext

theorem Still.moves (h : Still s t) : Moves D s t :=
  .of_sizes h.rootDir h.dirs h.fileTable h.next fun _ j hj =>
    ⟨j, by rw [← h.inodes, hj], fun _ => UInt32.le_refl _⟩

theorem Calm.moves (h : Calm D s t) : Moves D s t := by
  refine .of_sizes h.rootDir h.dirs h.fileTable h.next fun p j hj => ?_
  have hhead := h.heads p
  rw [hj] at hhead
  cases hi : s.inodes p with
  | none =>
      rw [hi] at hhead
      cases hhead
  | some i =>
      refine ⟨i, rfl, fun hp => ?_⟩
      have hsize := h.sizes p hp
      rw [hj, hi] at hsize
      exact UInt32.le_of_eq (Option.some.inj hsize).symm

/-- An inode that is there keeps its size or grows. -/
theorem Moves.putInode (hi : s.inodes p = some i) (hsize : i.iSize ≤ j.iSize) :
    Moves D s (s.putInode p (some j)) := by
  refine .of_sizes rfl rfl rfl (Nat.le_refl _) fun q k hk => ?_
  have hk' : (if q = p then some j else s.inodes q) = some k := hk
  by_cases hq : q = p
  · rw [if_pos hq] at hk'
    rw [hq, ← Option.some.inj hk']
    exact ⟨i, hi, fun _ => hsize⟩
  · rw [if_neg hq] at hk'
    exact ⟨k, hk', fun _ => UInt32.le_refl _⟩

theorem Moves.dropInode (hroot : t.rootDir = s.rootDir) (hdirs : t.dirs = s.dirs)
    (htable : t.fileTable = s.fileTable) (hnext : t.next = s.next)
    (hinodes : t.inodes = fun q => if q = p then none else s.inodes q) : Moves D s t := by
  refine .of_sizes hroot hdirs htable (Nat.le_of_eq hnext.symm) fun q k hk => ?_
  rw [hinodes] at hk
  by_cases hq : q = p
  · simp [hq] at hk
  · simp only [hq, if_false] at hk
    exact ⟨k, hk, fun _ => UInt32.le_refl _⟩

/-- An entry is set to one that is not open, or that is open inside its file. -/
theorem Moves.setFile (f : File)
    (hopen : ∀ p, f.fdInode = some p → (∃ i, s.inodes p = some i) ∧
      (PosOk D s → ¬D p → ∀ i, s.inodes p = some i → f.fdPos ≤ i.iSize)) :
    Moves D s (s.setFile g f) := by
  have hother : ∀ k p, k ≠ g → (s.setFile g f).OpenOn k p → s.OpenOn k p := by
    intro k p hk hopen
    rwa [State.OpenOn, State.setFile_fileTable_other s f hk] at hopen
  have hself : ∀ p, (s.setFile g f).OpenOn g p → f.fdInode = some p := by
    intro p hopen
    rwa [State.OpenOn, State.setFile_fileTable_same] at hopen
  refine ⟨rfl, rfl, Nat.le_refl _, fun p i hi => .inl ⟨i, hi⟩, fun k p hk => ?_,
    fun hok => ⟨fun k p i hk hp hi => ?_, fun k p hk => ?_, hok.heap⟩⟩
  · by_cases hkg : k = g
    · rw [hkg] at hk
      exact .inr (.inl (hopen p (hself p hk)).1)
    · exact .inl (State.setFile_fileTable_other s f hkg)
  · by_cases hkg : k = g
    · rw [hkg] at hk ⊢
      rw [State.setFile_fileTable_same]
      exact (hopen p (hself p hk)).2 hok hp i hi
    · rw [State.setFile_fileTable_other s f hkg]
      exact hok.pos k p i (hother k p hkg hk) hp hi
  · by_cases hkg : k = g
    · rw [hkg] at hk
      obtain ⟨i, hi⟩ := (hopen p (hself p hk)).1
      exact hok.heap p i hi
    · exact hok.table k p (hother k p hkg hk)

/-- A new inode is one that no entry has. -/
theorem Moves.fresh (hroot : t.rootDir = s.rootDir) (hdirs : t.dirs = s.dirs)
    (htable : t.fileTable = s.fileTable) (hnext : s.next < t.next) (hp : p.id = s.next)
    (hinodes : t.inodes = fun q => if q = p then some i else s.inodes q) : Moves D s t := by
  have hcases : ∀ q k, t.inodes q = some k → q = p ∨ s.inodes q = some k := by
    intro q k hk
    rw [hinodes] at hk
    by_cases hq : q = p
    · exact .inl hq
    · simp only [hq, if_false] at hk
      exact .inr hk
  have hgone : ∀ k q, t.OpenOn k q → s.OpenOn k q := by
    intro k q hk
    rwa [State.OpenOn, htable] at hk
  refine ⟨hroot, hdirs, Nat.le_of_lt hnext, fun q k hk => ?_, fun k _ _ => .inl (by rw [htable]),
    fun hok => ⟨fun k q j hk hq hj => ?_, fun k q hk => ?_, fun q k hk => ?_⟩⟩
  · rcases hcases q k hk with rfl | hk
    · exact .inr (Nat.le_of_eq hp.symm)
    · exact .inl ⟨k, hk⟩
  · rw [htable]
    rcases hcases q j hj with rfl | hj
    · exact absurd (hok.table k q (hgone k q hk)) (by omega)
    · exact hok.pos k q j (hgone k q hk) hq hj
  · exact Nat.lt_trans (hok.table k q (hgone k q hk)) hnext
  · rcases hcases q k hk with rfl | hk
    · omega
    · exact Nat.lt_trans (hok.heap q k hk) hnext

/-! ## Creating, opening and closing -/

variable {d : DirPtr} {filename : Str} {flag : UInt8} {n : UInt32} {v : Int}

theorem pcbFdInstall_moves (v : Int) : Within (Moves D) (pcbFdInstall v) := fun s =>
  wp_pcbFdInstall (refl_of _ s) fun _ _ _ _ =>
    Still.moves ⟨rfl, rfl, rfl, rfl, Nat.le_refl _⟩

theorem createRollback1_moves (n : UInt32) (ioBuf : Ptr) :
    Within (Moves D) (createRollback1 n ioBuf) := by
  intro s
  rw [createRollback1, Ensures, Wp.bind, wp_inodeBitmapClear]
  refine ⟨fun _ => ?_, fun _ => True.intro⟩
  rw [Wp.bind]
  refine (sysFreeBuf_reads ioBuf _).call fun _ t ht => ?_
  have hbit : Still s (s.setInodeBitmap (s.part.inodeBitmap.set n.toNat false)) :=
    ⟨rfl, rfl, rfl, rfl, Nat.le_refl _⟩
  exact (trans_of Still hbit ht.still).moves

theorem createRollback2_moves (p : Ptr) (n : UInt32) (ioBuf : Ptr) :
    Within (Moves D) (createRollback2 p n ioBuf) := by
  intro s
  rw [createRollback2, Ensures, Wp.bind]
  have hfree : Ensures (sysFreeInode p) s fun _ t => Moves D s t := by
    rw [Ensures, sysFreeInode, wp_sysFree]
    exact ⟨fun _ _ => .dropInode rfl rfl rfl rfl rfl, fun _ _ => True.intro,
      fun _ _ => True.intro, fun _ _ => True.intro⟩
  exact hfree.call fun _ t ht => (createRollback1_moves n ioBuf t).call fun _ u hu =>
    trans_of _ ht hu

theorem createRollback3_moves (g : Nat) (p : Ptr) (n : UInt32) (ioBuf : Ptr) :
    Within (Moves D) (createRollback3 g p n ioBuf) := by
  intro s
  rw [createRollback3, Ensures, Wp.bind, Wp.modify]
  refine (createRollback2_moves p n ioBuf _).call fun _ t ht => trans_of _ ?_ ht
  refine Moves.setFile _ fun q hq => ?_
  cases hq

theorem fileInstall_moves (hD : ∀ p, s.inodeOf d = some p → D p) (g : Nat) (p ioBuf : Ptr) :
    Ensures (fileInstall d filename p n g ioBuf) s fun _ t => Moves D s t := by
  refine fileInstall_within (R := Calm D) calm_allows
    ((sysFreeBuf_reads ioBuf).mono Reads.calm) (fun q hq => calm_allowsInode (hD q hq))
    (fun e u _ hu => ?_) fun u i w hu hi hw => ?_
  · exact (createRollback3_moves g p n ioBuf u).call fun _ t ht => trans_of _ hu.moves ht
  · have hpush : Moves D u (u.pushOpen p) := Still.moves ⟨rfl, rfl, rfl, rfl, Nat.le_refl _⟩
    have hcnt : Moves D (u.pushOpen p)
        ((u.pushOpen p).putInode p (some { i with iOpenCnts := 1 })) :=
      .putInode (i := i) hi (UInt32.le_refl _)
    have h := trans_of _ (trans_of _ (trans_of _ hu.moves hpush) hcnt) hw.moves
    exact (pcbFdInstall_moves g w).call fun _ t ht => trans_of _ h ht

theorem fileCreate_moves (hD : ∀ p, s.inodeOf d = some p → D p) :
    Ensures (fileCreate d filename flag) s fun _ t => Moves D s t := by
  refine fileCreate_reads (fun t ht => ht.still.moves) fun t b ioBuf ht _ => ?_
  have hbit : Moves D t (t.takeInodeNo b) := Still.moves ⟨rfl, rfl, rfl, rfl, Nat.le_refl _⟩
  have hnone : Moves D (t.takeInodeNo b) (t.takeInodeNo b).refuse :=
    Still.moves ⟨rfl, rfl, rfl, rfl, Nat.le_refl _⟩
  have hsome : Moves D (t.takeInodeNo b) ((t.takeInodeNo b).newInode (UInt32.ofNat b)) :=
    .fresh (p := (t.takeInodeNo b).fresh) rfl rfl rfl (Nat.lt_succ_self _) rfl rfl
  have htake := trans_of _ ht.still.moves hbit
  have hrefuse := trans_of _ htake hnone
  have hnew := trans_of _ htake hsome
  refine ⟨htake, ?_, ?_, fun g _ _ => ?_⟩
  · exact (createRollback1_moves _ ioBuf _).call fun _ u hu => trans_of _ hrefuse hu
  · exact (createRollback2_moves _ _ ioBuf _).call fun _ u hu => trans_of _ hnew hu
  · have hentry : Moves D ((t.takeInodeNo b).newInode (UInt32.ofNat b))
        (((t.takeInodeNo b).newInode (UInt32.ofNat b)).setFile g
          ⟨0, flag.toUInt32, some (t.takeInodeNo b).fresh⟩) := by
      refine .setFile _ fun q hq => ?_
      rw [← Option.some.inj hq]
      exact ⟨⟨_, if_pos rfl⟩, fun _ _ i _ => UInt32.zero_le⟩
    refine (fileInstall_moves (fun p hp => hD p ?_) g _ ioBuf).call fun _ u hu =>
      trans_of _ (trans_of _ hnew hentry) hu
    rw [← hp]
    cases d with
    | root => exact congrArg Dir.inode ht.rootDir.symm
    | heap q => exact congrArg (fun dirs => (dirs q).bind Dir.inode) ht.dirs.symm

theorem inodeOpen_moves (n : UInt32) :
    Ensures (inodeOpen n) s fun p t => Moves D s t ∧ ∃ i, t.inodes p = some i := by
  rw [Ensures, wp_inodeOpen]
  refine ⟨fun p i _ hi => ⟨.putInode hi (UInt32.le_refl _), _, if_pos rfl⟩, fun _ => ?_, fun _ _ => True.intro⟩
  rw [wp_inodeRead]
  refine ⟨fun _ => ⟨fun _ => ⟨fun _ => ⟨fun _ => ⟨?_, _, if_pos rfl⟩, fun _ => True.intro⟩,
    fun _ => True.intro⟩, fun _ => True.intro⟩, fun _ => True.intro⟩
  exact .fresh (p := ⟨false, s.next⟩) rfl rfl rfl (show s.next < s.next + 2 by omega) rfl rfl

theorem fileOpen_moves (n : UInt32) (flag : UInt8) :
    Ensures (fileOpen n flag) s fun _ t => Moves D s t := by
  unfold fileOpen fileOpenAt
  rw [Ensures, Wp.bind]
  refine ensures_getFreeSlot (refl_of _ s) fun g _ hg _ => ?_
  rw [if_neg (by omega), Wp.bind]
  refine (inodeOpen_moves (D := D) n).call fun p u hu => ?_
  obtain ⟨hu, i, hi⟩ := hu
  have hentry : Moves D s (u.setFile g ⟨0, flag.toUInt32, some p⟩) := by
    refine trans_of _ hu (.setFile _ fun q hq => ?_)
    rw [← Option.some.inj hq]
    exact ⟨⟨i, hi⟩, fun _ _ _ _ => UInt32.zero_le⟩
  have hi' : (u.setFile g ⟨0, flag.toUInt32, some p⟩).inodes p = some i := hi
  rw [Wp.bind, Wp.modify, Int.toNat_natCast, Wp.ite]
  refine ⟨fun _ => ?_, fun _ => ?_⟩
  · rw [Wp.bind, wp_loadInode_some hi', Wp.ite]
    refine ⟨fun _ => ?_, fun _ => hentry⟩
    rw [Wp.bind, wp_storeInode_some hi']
    have hdeny := trans_of _ hentry (Moves.putInode hi' (j := { i with writeDeny := 1 })
      (UInt32.le_refl _))
    exact (pcbFdInstall_moves g _).call fun _ t ht => trans_of _ hdeny ht
  · exact (pcbFdInstall_moves g _).call fun _ t ht => trans_of _ hentry ht

theorem fileClose_moves (g : Nat) : Ensures (fileClose g) s fun _ t => Moves D s t := by
  have hclear : ∀ u : State, Moves D u (u.clearEntry g) := fun u =>
    .setFile _ fun q hq => by cases hq
  refine fileClose_open fun p i hp hi => (wp_fileClose hp hi).mpr ⟨fun _ => ?_, fun _ =>
    ⟨fun _ => ?_, fun _ => True.intro⟩⟩
  · exact trans_of _ (Moves.putInode hi (j := { i with
      writeDeny := 0, iOpenCnts := decOpenCnts i.iOpenCnts }) (UInt32.le_refl _)) (hclear _)
  · have hdrop : Moves D s (s.dropped p) := .dropInode rfl rfl rfl rfl rfl
    exact trans_of _ hdrop (hclear _)

/-! ## Moving a position -/

/-- `file_table[g].fd_pos = v`. -/
def State.setPos (s : State) (g : Nat) (v : UInt32) : State :=
  s.setFile g { s.fileTable g with fdPos := v }

theorem setPos_self (s : State) (g : Nat) : s.setPos g (s.fileTable g).fdPos = s := by
  have htable : (s.setPos g (s.fileTable g).fdPos).fileTable = s.fileTable := by
    funext k
    show (if k = g then _ else _) = _
    by_cases hk : k = g
    · rw [if_pos hk, hk]
    · rw [if_neg hk]
  show { s with fileTable := (s.setPos g (s.fileTable g).fdPos).fileTable } = s
  rw [htable]

theorem setPos_setPos (s : State) (g : Nat) (v w : UInt32) :
    (s.setPos g v).setPos g w = s.setPos g w := by
  unfold State.setPos
  rw [State.setFile_fileTable_same]
  show { s with fileTable := _ } = { s with fileTable := _ }
  congr 1
  funext k
  by_cases hk : k = g
  · rw [if_pos hk, if_pos hk]
  · rw [if_neg hk, if_neg hk]
    exact if_neg hk

@[simp] theorem setPos_fdPos (s : State) (g : Nat) (v : UInt32) :
    ((s.setPos g v).fileTable g).fdPos = v := by
  rw [State.setPos, State.setFile_fileTable_same]

theorem Moves.setPos {v : UInt32} (hg : s.OpenOn g p) (hi : s.inodes p = some i)
    (hle : PosOk D s → ¬D p → v ≤ i.iSize) : Moves D s (s.setPos g v) := by
  refine .setFile _ fun q hq => ?_
  obtain rfl : p = q := Option.some.inj (hg.symm.trans hq)
  refine ⟨⟨i, hi⟩, fun hok hp j hj => ?_⟩
  rw [hi] at hj
  rw [← Option.some.inj hj]
  exact hle hok hp

theorem fileInode_open {Q : Ptr → State → Prop} (h : ∀ p, s.OpenOn g p → Q p s) :
    Ensures (fileInode g) s Q := by
  unfold fileInode
  rw [Ensures, Wp.bind, Wp.get]
  cases hg : (s.fileTable g).fdInode with
  | none => exact True.intro
  | some p => exact h p hg

theorem seekOpened_moves (g : Nat) (offset : UInt32) (whence : UInt8) :
    Ensures (seekOpened g offset whence) s fun _ t => Moves D s t := by
  unfold seekOpened
  rw [Ensures, Wp.bind]
  refine fileInode_open fun p hp => ?_
  rw [Wp.bind, wp_loadInode]
  refine ⟨fun i hi => ?_, fun _ => True.intro⟩
  rw [Wp.bind, Wp.get, Wp.ite]
  refine ⟨fun _ => refl_of _ s, fun hin => ?_⟩
  generalize newPos (s.fileTable g).fdPos i.iSize offset whence = v at hin ⊢
  refine Moves.setPos hp hi fun _ _ => ?_
  have hv := v.toNat_lt
  have hsize := i.iSize.toNat_lt
  rw [not_or] at hin
  have hlow : 0 ≤ int32 v := Int.not_lt.mp hin.1
  have hhigh : int32 v ≤ int32 (i.iSize - 1) := Int.not_lt.mp hin.2
  have hlast : (i.iSize - 1).toNat = (2 ^ 32 - 1 + i.iSize.toNat) % 2 ^ 32 := UInt32.toNat_sub ..
  unfold int32 at hlow hhigh
  rw [BitVec.toInt_eq_toNat_cond] at hlow hhigh
  rw [BitVec.toInt_eq_toNat_cond] at hhigh
  simp only [UInt32.toNat_toBitVec, hlast] at hlow hhigh
  rw [UInt32.le_iff_toNat_le]
  split_ifs at hlow hhigh <;> omega

theorem sysLseek_moves (fd : Int) (offset : UInt32) (whence : UInt8) :
    Ensures (sysLseek fd offset whence) s fun _ t => Moves D s t := by
  unfold sysLseek
  rw [Ensures, Wp.ite]
  refine ⟨fun _ => refl_of _ s, fun hfd => ?_⟩
  rw [Wp.bind, wp_kassert]
  refine ⟨fun _ => ?_, fun _ => True.intro⟩
  rw [Wp.bind, wp_fdLocal2global (Int.not_lt.mp hfd)]
  exact ⟨fun _ => seekOpened_moves _ offset whence, fun _ _ => True.intro, fun _ => True.intro⟩

/-! ## Reading -/

/-- The loop of `file_read` moves the position by the bytes that are left. -/
theorem readLoop_pos {allBlocks : BlockArray} {size : UInt32} (left bufDst : Nat)
    (bytesRead sizeLeft : UInt32) (out : Stores) (hleft : bytesRead.toNat + sizeLeft.toNat = size.toNat) :
    Ensures (readLoop g allBlocks size left bufDst bytesRead sizeLeft out) s fun _ t =>
      ∃ v : UInt32, v.toNat = (s.fileTable g).fdPos.toNat + sizeLeft.toNat ∧
        Still (s.setPos g v) t := by
  induction left generalizing s bufDst bytesRead sizeLeft out with
  | zero => exact True.intro
  | succ left ih =>
      rw [readLoop, Ensures, Wp.ite]
      refine ⟨fun hlt => ?_, fun hend => ?_⟩
      · rw [Wp.bind, Wp.get, Wp.ite]
        refine ⟨fun _ => True.intro, fun hidx => ?_⟩
        rw [Wp.bind]
        refine (ideRead_reads _ _ _ s).call fun b s₁ h₁ => ?_
        rw [Wp.bind, Wp.modify]
        generalize hpos : (s.fileTable g).fdPos = pos at hidx ⊢
        generalize hchunk : (if sizeLeft < 512 - pos % 512 then sizeLeft else 512 - pos % 512) = chunk
        have hidx' : pos.toNat / 512 < 140 := by
          have hdiv : (pos / 512).toNat = pos.toNat / 512 := UInt32.toNat_div ..
          omega
        have hle : chunk.toNat ≤ sizeLeft.toNat := by
          rw [← hchunk]
          by_cases hless : sizeLeft < 512 - pos % 512
          · rw [if_pos hless]
          · rw [if_neg hless]
            exact Nat.le_of_not_lt hless
        have hsmall : chunk.toNat ≤ 512 := by
          have hroom : (512 - pos % 512).toNat ≤ 512 := by
            have hmod : (pos % 512).toNat < 512 := by
              rw [UInt32.toNat_mod]
              exact Nat.mod_lt _ (by decide)
            rw [UInt32.toNat_sub_of_le _ _ (UInt32.le_iff_toNat_le.mpr (Nat.le_of_lt hmod))]
            exact Nat.sub_le _ _
          rw [← hchunk]
          by_cases hless : sizeLeft < 512 - pos % 512
          · rw [if_pos hless]
            exact Nat.le_trans (Nat.le_of_lt hless) hroom
          · rw [if_neg hless]
            exact hroom
        have hsize := size.toNat_lt
        have hread : (bytesRead + chunk).toNat = bytesRead.toNat + chunk.toNat := by
          rw [UInt32.toNat_add]
          omega
        have hrest : (sizeLeft - chunk).toNat = sizeLeft.toNat - chunk.toNat :=
          UInt32.toNat_sub_of_le _ _ (UInt32.le_iff_toNat_le.mpr hle)
        have hnew : (pos + chunk).toNat = pos.toNat + chunk.toNat := by
          rw [UInt32.toNat_add]
          omega
        have hpos₁ : (s₁.fileTable g).fdPos = pos := by rw [h₁.fileTable, hpos]
        have hadv : s₁.advance g chunk = s₁.setPos g (pos + chunk) := by
          unfold State.advance State.setPos
          rw [hpos₁]
        rw [hadv]
        refine (ih _ _ _ _ (by omega)).call fun _ t ht => ?_
        obtain ⟨v, hv, hstill⟩ := ht
        rw [setPos_fdPos] at hv
        rw [setPos_setPos] at hstill
        refine ⟨v, by omega, trans_of Still ?_ hstill⟩
        have h := h₁.still
        refine ⟨h.rootDir, h.dirs, h.inodes, ?_, h.next⟩
        show (fun k => if k = g then _ else _) = (fun k => if k = g then _ else _)
        rw [h.fileTable]
      · refine ⟨(s.fileTable g).fdPos, ?_, by rw [setPos_self]; exact refl_of Still s⟩
        have hend' : ¬bytesRead.toNat < size.toNat := hend
        omega

theorem gatherRead_still (i : Inode) (startIdx endIdx : Nat) :
    Within Still (gatherRead i startIdx endIdx) := by
  have htable : ∀ lba b, Within Still (ideReadTable lba b) := fun lba b =>
    (ideReadTable_reads lba b).mono fun _ _ => Reads.still
  exact Within.ite (Within.ite (Within.pure _) (htable _ _)) (Within.ite (Within.pure _)
    (Within.ite ((Within.lift _).bind fun _ => htable _ _) (Within.pure _)))

theorem fileRead_moves (g : Nat) (count : UInt32) :
    Ensures (fileRead g count) s fun _ t => Moves D s t := by
  unfold fileRead
  rw [Ensures, Wp.bind]
  refine fileInode_open fun p hp => ?_
  rw [Wp.bind, wp_loadInode]
  refine ⟨fun i hi => ?_, fun _ => True.intro⟩
  rw [Wp.bind, Wp.get, Wp.ite]
  refine ⟨fun _ => refl_of _ s, fun _ => ?_⟩
  unfold readBuffers
  rw [Wp.bind]
  refine (sysMallocBuf_reads s).call fun ioBuf s₁ h₁ => ?_
  rw [Wp.bind]
  refine (sysMallocBuf_reads s₁).call fun r s₂ h₂ => ?_
  have h₂ := trans_of Still h₁.still h₂.still
  cases r with
  | none => exact h₂.moves
  | some allBlocksPtr =>
      unfold readBody
      rw [Wp.bind]
      refine (kassert_reads _ s₂).call fun _ s₃ h₃ => ?_
      rw [Wp.bind]
      refine (gatherRead_still i _ _ s₃).call fun allBlocks s₄ h₄ => ?_
      have h₄ := trans_of Still (trans_of Still h₂ h₃.still) h₄
      cases ioBuf with
      | none => exact True.intro
      | some ioBufPtr =>
          rw [Wp.bind]
          refine (readLoop_pos 141 0 0 _ _ (Nat.zero_add _)).call fun r s₅ h₅ => ?_
          obtain ⟨v, hv, h₅⟩ := h₅
          refine (freeBuffers_still _ _ _ s₅).call fun _ s₆ h₆ => ?_
          have h₆ := trans_of Still h₅ h₆
          have hp₄ : s₄.OpenOn g p := by
            rw [State.OpenOn, h₄.fileTable]
            exact hp
          have hi₄ : s₄.inodes p = some i := by rw [h₄.inodes, hi]
          refine trans_of _ h₄.moves (trans_of _ (Moves.setPos hp₄ hi₄ fun hok hD => ?_) h₆.moves)
          have hpos := hok.pos g p i hp₄ hD hi₄
          rw [h₄.fileTable] at hpos hv
          generalize (s.fileTable g).fdPos = pos at hpos hv
          rw [UInt32.le_iff_toNat_le] at hpos ⊢
          have hvlt := v.toNat_lt
          rw [hv]
          unfold readSize at hv ⊢
          by_cases hover : pos + count > i.iSize
          · rw [if_pos hover, UInt32.toNat_sub_of_le _ _ (UInt32.le_iff_toNat_le.mpr hpos)]
            omega
          · rw [if_neg hover] at hv ⊢
            have hsum : (pos + count).toNat = pos.toNat + count.toNat := by
              rw [UInt32.toNat_add]
              omega
            have hle : (pos + count).toNat ≤ i.iSize.toNat := Nat.le_of_not_lt hover
            omega

/-! ## Writing -/

/-- A new sector is no new size. -/
theorem calm_setSector (hi : s.inodes p = some i) (k : Nat) (lba : UInt32) :
    Calm D s (s.putInode p (some (i.setSector k lba))) :=
  calm_putInode hi rfl fun _ => rfl

theorem firstBlock_calm (p : Ptr) : Within (Calm D) (firstBlock p) := by
  intro s
  unfold firstBlock
  rw [Ensures, Wp.bind, wp_loadInode]
  refine ⟨fun i hi => ?_, fun _ => True.intro⟩
  rw [Wp.ite]
  refine ⟨fun _ => ?_, fun _ => refl_of _ s⟩
  rw [Wp.bind, wp_blockBitmapAlloc]
  refine ⟨fun b _ => ?_, fun _ => True.intro⟩
  have hbit : Calm D s (s.setBlockBitmap (s.part.blockBitmap.set b true)) :=
    calm_allows.setBlockBitmap ..
  have hi' : (s.setBlockBitmap (s.part.blockBitmap.set b true)).inodes p = some i := hi
  rw [Wp.ite]
  refine ⟨fun _ => hbit, fun _ => ?_⟩
  rw [Wp.bind, wp_storeInode_some hi', Wp.bind, Wp.get, Wp.bind]
  refine (Within.lift (R := Calm D) _ _).call fun _ t ht => ?_
  rw [Wp.bind]
  refine ((calm_allows (D := D)).bitmapSync _ _ t).call fun _ u hu => ?_
  exact trans_of _ (trans_of _ (trans_of _ hbit (calm_setSector hi' 0 _)) ht) hu

theorem setDirect_calm (p : Ptr) (blockIdx : Nat) (lba : UInt32) :
    Within (Calm D) (setDirect p blockIdx lba) := by
  refine Within.ite (fun s => ?_) (Within.pure _)
  rw [Ensures, Wp.bind, wp_loadInode]
  refine ⟨fun i hi => ?_, fun _ => True.intro⟩
  rw [Wp.bind, wp_kassert]
  refine ⟨fun _ => ?_, fun _ => True.intro⟩
  rw [wp_storeInode_some hi]
  exact calm_setSector hi blockIdx lba

theorem growLoop_calm (p : Ptr) (left blockIdx : Nat) (allBlocks : BlockArray) :
    Within (Calm D) (growLoop p left blockIdx allBlocks) := by
  induction left generalizing blockIdx allBlocks with
  | zero => exact Within.pure _
  | succ left ih =>
      rw [growLoop]
      exact calm_allows.blockBitmapAlloc.bind fun _ => Within.ite (Within.pure _)
        ((setDirect_calm p _ _).bind fun _ => Within.get.bind fun _ =>
          (calm_allows.bitmapSync _ _).bind fun _ => ih _ _)

theorem gatherWrite_calm (p : Ptr) (hasUsed willUse : Nat) :
    Within (Calm D) (gatherWrite p hasUsed willUse) := by
  have hassert : ∀ c [Decidable c], Within (Calm D) (kassert c) := fun _ _ => Within.lift _
  have htable : ∀ lba b, Within (Calm D) (ideReadTable lba b) := fun lba b =>
    (ideReadTable_reads lba b).mono Reads.calm
  refine (calm_allows.loadInode p).bind fun i => Within.ite (Within.ite (Within.pure _) ?_)
    (Within.ite (Within.ite (Within.throw _) ?_) (Within.ite (Within.throw _) ?_))
  · exact (hassert _).bind fun _ => (htable _ _).bind fun _ => Within.pure _
  · exact (hassert _).bind fun _ => growLoop_calm p _ _ _
  · refine (hassert _).bind fun _ => (htable _ _).bind fun _ => (growLoop_calm p _ _ _).bind
      fun r => ?_
    cases r with
    | none => exact Within.pure _
    | some allBlocks => exact (calm_allows.ideWriteTable _ _).bind fun _ => Within.pure _

/-- The state with size `v` of the inode at `p`, and the position in front of it. -/
def State.grown (s : State) (g : Nat) (p : Ptr) (i : Inode) (v : UInt32) : State :=
  (s.putInode p (some { i with iSize := v })).setPos g (v - 1)

theorem Still.grown {v : UInt32} (h : Still s t) : Still (s.grown g p i v) (t.grown g p i v) := by
  refine ⟨h.rootDir, h.dirs, ?_, ?_, h.next⟩
  · show (fun q => if q = p then _ else t.inodes q) = (fun q => if q = p then _ else s.inodes q)
    rw [h.inodes]
  · show (fun k => if k = g then _ else t.fileTable k) = (fun k => if k = g then _ else s.fileTable k)
    show (fun k => if k = g then { t.fileTable g with fdPos := v - 1 } else t.fileTable k) = _
    rw [h.fileTable]
    rfl

theorem grown_grown (s : State) (g : Nat) (p : Ptr) (i : Inode) (v w : UInt32) :
    (s.grown g p i v).grown g p { i with iSize := v } w = s.grown g p i w := by
  have hput : ∀ u : State, (u.setPos g (v - 1)).putInode p (some { i with iSize := w }) =
      (u.putInode p (some { i with iSize := w })).setPos g (v - 1) := fun _ => rfl
  show (((s.putInode p _).setPos g (v - 1)).putInode p (some { i with iSize := w })).setPos g _ = _
  rw [hput, setPos_setPos, State.putInode_putInode]
  rfl

/-- The copy loop keeps the position in front of the size. -/
theorem writeLoop_pos {src : Bytes} {count : UInt32} {allBlocks : BlockArray} (left srcOff : Nat)
    (bytesWritten : UInt32) (first : Bool) (hi : s.inodes p = some i)
    (hpos : (s.fileTable g).fdPos = i.iSize - 1) :
    Ensures (writeLoop p g src count count allBlocks left srcOff bytesWritten first) s fun _ t =>
      ∃ v : UInt32, i.iSize ≤ v ∧ (bytesWritten < count → v ≠ 0) ∧ Still (s.grown g p i v) t := by
  induction left generalizing s i srcOff bytesWritten first with
  | zero => exact True.intro
  | succ left ih =>
      rw [writeLoop, Ensures, Wp.ite]
      refine ⟨fun hlt => ?_, fun hend => ?_⟩
      · rw [Wp.bind, wp_loadInode_some hi, Wp.ite]
        refine ⟨fun _ => True.intro, fun hidx => ?_⟩
        have hcount : 0 < count.toNat := Nat.lt_of_le_of_lt (Nat.zero_le _) hlt
        have hsmall : (chunkSize count i.iSize).toNat ≤ 512 ∧ 0 < (chunkSize count i.iSize).toNat := by
          rw [toNat_chunkSize]
          omega
        have hidx' : i.iSize.toNat / 512 < 140 := by
          have hdiv : (i.iSize / 512).toNat = i.iSize.toNat / 512 := UInt32.toNat_div ..
          omega
        have hsum : (i.iSize + chunkSize count i.iSize).toNat =
            i.iSize.toNat + (chunkSize count i.iSize).toNat := by
          rw [UInt32.toNat_add]
          omega
        have hnext : ∀ u : State, Still s u →
            Ensures (writeLoop p g src count count allBlocks left
              (srcOff + (chunkSize count i.iSize).toNat)
              (bytesWritten - chunkSize count i.iSize) false)
              ((u.putInode p (some { i with iSize := i.iSize + chunkSize count i.iSize })).advance g
                (chunkSize count i.iSize))
              fun _ t => ∃ v : UInt32, i.iSize ≤ v ∧ (bytesWritten < count → v ≠ 0) ∧
                Still (s.grown g p i v) t := by
          intro u hu
          have hadv : (u.putInode p (some { i with iSize := i.iSize + chunkSize count i.iSize })).advance
              g (chunkSize count i.iSize) = u.grown g p i (i.iSize + chunkSize count i.iSize) := by
            have hupos : ((u.putInode p (some { i with
                iSize := i.iSize + chunkSize count i.iSize })).fileTable g).fdPos = i.iSize - 1 := by
              show (u.fileTable g).fdPos = _
              rw [hu.fileTable, hpos]
            have hsub : i.iSize - 1 + chunkSize count i.iSize =
                i.iSize + chunkSize count i.iSize - 1 := by
              rw [← UInt32.toNat_inj]
              simp only [UInt32.toNat_add, UInt32.toNat_sub, UInt32.toNat_ofNat]
              omega
            unfold State.advance State.grown State.setPos
            rw [hupos, hsub]
          rw [hadv]
          have hi' : (u.grown g p i (i.iSize + chunkSize count i.iSize)).inodes p =
              some { i with iSize := i.iSize + chunkSize count i.iSize } := if_pos rfl
          refine (ih (i := { i with iSize := i.iSize + chunkSize count i.iSize }) _ _ _ hi'
            (setPos_fdPos ..)).call fun _ t ht => ?_
          obtain ⟨v, hv, -, hstill⟩ := ht
          rw [grown_grown] at hstill
          have hv' : (i.iSize + chunkSize count i.iSize).toNat ≤ v.toNat := hv
          refine ⟨v, UInt32.le_iff_toNat_le.mpr (by omega), fun _ hzero => ?_,
            trans_of Still hu.grown hstill⟩
          rw [hzero] at hv'
          simp at hv'
          omega
        simp only [Wp.ite, Wp.bind, wp_ideRead, Wp.pure, wp_put, wp_ideWrite, wp_storeInode,
          Wp.modify, implies_true, and_true]
        exact ⟨fun _ _ _ _ _ _ _ => hnext _ (still_allows.store ..),
          fun _ _ _ _ _ => hnext _ (still_allows.store ..)⟩
      · refine ⟨i.iSize, UInt32.le_refl _, fun hlt => absurd hlt hend, ?_⟩
        have hsame : s.grown g p i i.iSize = s := by
          unfold State.grown
          rw [State.putInode_self hi, ← hpos, setPos_self]
        rw [hsame]
        exact refl_of Still s

theorem Moves.grown {v : UInt32} (hg : s.OpenOn g p) (hi : s.inodes p = some i) (hle : i.iSize ≤ v)
    (hne : ¬D p → v ≠ 0) : Moves D s (s.grown g p i v) := by
  have hput : Moves D s (s.putInode p (some { i with iSize := v })) := .putInode hi hle
  have hpos : Moves D (s.putInode p (some { i with iSize := v })) (s.grown g p i v) := by
    refine .setPos hg (i := { i with iSize := v }) (if_pos rfl) fun _ hD => ?_
    have hv : v.toNat ≠ 0 := fun hzero => hne hD (UInt32.toNat_inj.mp hzero)
    rw [UInt32.le_iff_toNat_le]
    show (v - 1).toNat ≤ v.toNat
    have hlt := v.toNat_lt
    rw [UInt32.toNat_sub]
    show (2 ^ 32 - 1 + v.toNat) % 2 ^ 32 ≤ _
    omega
  exact trans_of _ hput hpos

/-- `file_write` with a count, or on a file that is not empty. -/
theorem fileWrite_moves (g : Nat) (buf : Bytes) (count : UInt32)
    (hzero : count = 0 → ∀ p i, s.OpenOn g p → ¬D p → s.inodes p = some i → i.iSize ≠ 0) :
    Ensures (fileWrite g buf count) s fun _ t => Moves D s t := by
  unfold fileWrite writeBuffers
  rw [Ensures, Wp.bind]
  refine fileInode_open fun p hp => ?_
  rw [Wp.bind, wp_loadInode]
  refine ⟨fun i hi => ?_, fun _ => True.intro⟩
  rw [Wp.ite]
  refine ⟨fun _ => refl_of _ s, fun _ => ?_⟩
  rw [Wp.bind]
  refine (sysMallocBuf_reads s).call fun r s₁ h₁ => ?_
  cases r with
  | none => exact h₁.still.moves
  | some ioBuf =>
      rw [Wp.bind]
      refine (sysMallocBuf_reads s₁).call fun r s₂ h₂ => ?_
      have h₂ : Calm D s s₂ := trans_of _ (Reads.calm _ _ h₁) (Reads.calm _ _ h₂)
      cases r with
      | none => exact h₂.moves
      | some allBlocksPtr =>
          unfold writeBody writeBlocks
          rw [Wp.bind]
          refine (firstBlock_calm (D := D) p s₂).call fun first s₃ h₃ => ?_
          have h₃ := trans_of _ h₂ h₃
          rw [Wp.ite]
          refine ⟨fun _ => ?_, fun _ => h₃.moves⟩
          rw [Wp.bind, wp_loadInode]
          refine ⟨fun i₃ _ => ?_, fun _ => True.intro⟩
          rw [Wp.bind, wp_kassert]
          refine ⟨fun _ => ?_, fun _ => True.intro⟩
          rw [Wp.bind]
          refine (gatherWrite_calm (D := D) p _ _ s₃).call fun gathered s₄ h₄ => ?_
          have h₄ := trans_of _ h₃ h₄
          cases gathered with
          | none => exact h₄.moves
          | some allBlocks =>
              dsimp only
              rw [writeCopy, Wp.bind, wp_loadInode]
              refine ⟨fun i₄ hi₄ => ?_, fun _ => True.intro⟩
              have hp₄ : s₄.OpenOn g p := by
                rw [State.OpenOn, h₄.fileTable]
                exact hp
              rw [Wp.bind, Wp.modify, Wp.bind]
              refine (writeLoop_pos (s := s₄.setPos g (i₄.iSize - 1)) 141 0 0 true hi₄
                (setPos_fdPos ..)).call fun written s₅ h₅ => ?_
              obtain ⟨v, hle, hne, h₅⟩ := h₅
              have hgrown : (s₄.setPos g (i₄.iSize - 1)).grown g p i₄ v = s₄.grown g p i₄ v :=
                setPos_setPos (s₄.putInode p (some { i₄ with iSize := v })) g _ _
              rw [hgrown] at h₅
              rw [Wp.bind, wp_loadInode]
              refine ⟨fun j _ => ?_, fun _ => True.intro⟩
              rw [Wp.bind]
              refine (still_allows.inodeSync j _ s₅).call fun _ s₆ h₆ => ?_
              refine (freeBuffers_still _ _ _ s₆).call fun _ s₇ h₇ => ?_
              have h₇ := trans_of Still (trans_of Still h₅ h₆) h₇
              refine trans_of _ h₄.moves (trans_of _ (Moves.grown hp₄ hi₄ hle fun hD hv => ?_) h₇.moves)
              by_cases hcount : count = 0
              · have hsize := h₄.sizes p hD
                rw [hi₄, hi] at hsize
                have heq : i₄.iSize = i.iSize := Option.some.inj hsize
                rw [heq, hv] at hle
                exact hzero hcount p i hp hD hi (UInt32.le_antisymm hle UInt32.zero_le)
              · have hpos : 0 < count.toNat :=
                  Nat.pos_of_ne_zero fun h0 => hcount (UInt32.toNat_inj.mp h0)
                exact hne hpos hv

end

end OsTruth
