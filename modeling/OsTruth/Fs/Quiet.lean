/-
The functions that neither open nor close anything.

They write to disk, to buffers, to the block bitmap, and to the size and the sectors of
an inode in memory.  The tables of open files and inodes stay as they are.
-/
import OsTruth.Fs.Reads

namespace OsTruth

open ByteString Fallible

/-- The fields of an inode that say which file it is and who has it open. -/
def Inode.head (i : Inode) : UInt32 × Nat × UInt32 := (i.iNo, i.iOpenCnts, i.writeDeny)

structure Quiet (s t : State) : Prop where
  fileTable : t.fileTable = s.fileTable
  cur : t.cur = s.cur
  rootDir : t.rootDir = s.rootDir
  dirs : t.dirs = s.dirs
  openInodes : t.part.openInodes = s.part.openInodes
  inodeBitmap : t.part.inodeBitmap = s.part.inodeBitmap
  next : s.next ≤ t.next
  heads : ∀ p, (t.inodes p).map Inode.head = (s.inodes p).map Inode.head

instance : Std.Refl Quiet :=
  ⟨fun _ => ⟨rfl, rfl, rfl, rfl, rfl, rfl, Nat.le_refl _, fun _ => rfl⟩⟩

instance : IsTrans State Quiet :=
  ⟨fun _ _ _ h k => ⟨k.fileTable.trans h.fileTable, k.cur.trans h.cur, k.rootDir.trans h.rootDir,
    k.dirs.trans h.dirs, k.openInodes.trans h.openInodes, k.inodeBitmap.trans h.inodeBitmap,
    Nat.le_trans h.next k.next, fun p => (k.heads p).trans (h.heads p)⟩⟩

theorem Quiet.of_inodes {s t : State} {p : Ptr} {i : Inode} (h : Quiet s t)
    (hi : s.inodes p = some i) : ∃ j, t.inodes p = some j ∧ j.head = i.head := by
  have hp := h.heads p
  rw [hi] at hp
  cases ht : t.inodes p with
  | none =>
      rw [ht] at hp
      cases hp
  | some j =>
      rw [ht] at hp
      exact ⟨j, rfl, Option.some.inj hp⟩

theorem Quiet.of_none {s t : State} {p : Ptr} (h : Quiet s t) (hp : s.inodes p = none) :
    t.inodes p = none := by
  have h' := h.heads p
  rw [hp] at h'
  cases ht : t.inodes p with
  | none => rfl
  | some j =>
      rw [ht] at h'
      cases h'

theorem Reads.quiet (s t : State) (h : Reads s t) : Quiet s t :=
  ⟨h.fileTable, h.cur, h.rootDir, h.dirs, by rw [h.part], by rw [h.part], h.next,
    fun p => by rw [h.inodes]⟩

/-! ## Functions that write to the disk -/

/-- `R` allows for writes to the disk and to the block bitmap. -/
structure Allows (R : State → State → Prop) : Prop where
  store : ∀ s off len d, R s (s.store off len d)
  setBlockBitmap : ∀ s b, R s (s.setBlockBitmap b)

/-- `R` also allows for updates of the inode at `p` that keep its head. -/
structure AllowsInode (R : State → State → Prop) (p : Ptr) : Prop extends Allows R where
  putInode : ∀ s i j, s.inodes p = some i → j.head = i.head → R s (s.putInode p (some j))

section

variable {α β : Type} {R : State → State → Prop} {p : Ptr}

theorem within_of_same [Std.Refl R] {x : Kern α} (hx : Within Eq x) : Within R x := by
  apply hx.mono
  intro s t h
  rw [h]
  exact refl_of R t

namespace Allows

theorem ideRead [Std.Refl R] (_ : Allows R) (lba : UInt32) (buf : Buf) (n : Nat) :
    Within R (OsTruth.ideRead lba buf n) :=
  within_of_same (ideRead_same lba buf n)

theorem loadInode [Std.Refl R] (_ : Allows R) (p : Ptr) : Within R (OsTruth.loadInode p) :=
  within_of_same (loadInode_same p)

theorem dirInode [Std.Refl R] (_ : Allows R) (d : DirPtr) : Within R (OsTruth.dirInode d) :=
  within_of_same (dirInode_same d)

theorem getEntrySize [Std.Refl R] (_ : Allows R) : Within R OsTruth.getEntrySize :=
  within_of_same getEntrySize_same

theorem blockBitmapAlloc (h : Allows R) : Within R OsTruth.blockBitmapAlloc := by
  intro s
  rw [Ensures, wp_blockBitmapAlloc]
  exact ⟨fun _ _ => h.setBlockBitmap .., fun _ => True.intro⟩

theorem blockBitmapClear (h : Allows R) (idx : UInt32) :
    Within R (OsTruth.blockBitmapClear idx) := by
  intro s
  rw [Ensures, wp_blockBitmapClear]
  exact ⟨fun _ => h.setBlockBitmap .., fun _ => True.intro⟩

variable [IsTrans State R]

/-- An update of an inode that `R` allows. -/
theorem update {f : Inode → Inode} {k : Kern β}
    (hf : ∀ s i, s.inodes p = some i → R s (s.putInode p (some (f i)))) (hk : Within R k) :
    Within R (do
      let i ← OsTruth.loadInode p
      storeInode p (f i)
      k) := by
  intro s
  rw [Ensures, Wp.bind, wp_loadInode]
  refine ⟨fun i hi => ?_, fun _ => True.intro⟩
  rw [Wp.bind, wp_storeInode_some hi]
  exact (hk _).call fun _ t ht => trans_of R (hf s i hi) ht

variable [Std.Refl R]

theorem ideWrite (h : Allows R) (lba : UInt32) (buf : Buf) (n : Nat) :
    Within R (OsTruth.ideWrite lba buf n) :=
  (Within.lift _).bind fun _ =>
    Within.ite (Within.modify fun _ => h.store ..) (Within.throw _)

theorem ideWriteTable (h : Allows R) (lba : UInt32) (allBlocks : BlockArray) :
    Within R (OsTruth.ideWriteTable lba allBlocks) :=
  h.ideWrite _ _ _

theorem bitmapSync (h : Allows R) (idx : UInt32) (btmp : BitmapType) :
    Within R (OsTruth.bitmapSync idx btmp) :=
  Within.get.bind fun _ => h.ideWrite _ _ _

theorem inodeSync (h : Allows R) (i : Inode) (ioBuf : Buf) :
    Within R (OsTruth.inodeSync i ioBuf) :=
  Within.get.bind fun _ => (Within.lift _).bind fun _ => (Within.lift _).bind fun _ =>
    (h.ideRead _ _ _).bind fun _ => (Within.lift _).bind fun _ => h.ideWrite _ _ _

theorem allocAndSync (h : Allows R) : Within R OsTruth.allocAndSync :=
  h.blockBitmapAlloc.bind fun _ => Within.ite (Within.pure _)
    (Within.get.bind fun _ => (Within.lift _).bind fun _ =>
      (h.bitmapSync _ _).bind fun _ => Within.pure _)

end Allows

/-! ## Adding an entry -/

variable [IsTrans State R]

namespace AllowsInode

/-- An update of an inode that keeps its head. -/
theorem update (h : AllowsInode R p) {f : Inode → Inode} {k : Kern β}
    (hf : ∀ i, (f i).head = i.head) (hk : Within R k) :
    Within R (do
      let i ← loadInode p
      storeInode p (f i)
      k) :=
  Allows.update (fun s i hi => h.putInode s i (f i) hi (hf i)) hk

theorem growDir [Std.Refl R] (h : AllowsInode R p) : Within R (OsTruth.growDir p) := by
  refine h.getEntrySize.bind fun entrySize s => ?_
  rw [Ensures, Wp.bind, wp_loadInode]
  refine ⟨fun i hi => ?_, fun _ => True.intro⟩
  rw [wp_storeInode_some hi]
  exact h.putInode s i _ hi rfl

variable [Std.Refl R]

theorem hookBlock (h : AllowsInode R p) (allBlocks : BlockArray) (blockIdx : Nat) (lba : UInt32) :
    Within R (OsTruth.hookBlock p allBlocks blockIdx lba) := by
  refine Within.ite (h.update (fun _ => rfl) (Within.pure _)) (Within.ite ?_ ?_)
  · refine h.update (fun _ => rfl) (h.allocAndSync.bind fun second => Within.ite ?_ ?_)
    · exact Within.get.bind fun s => (h.blockBitmapClear _).bind fun _ =>
        h.update (fun _ => rfl) (Within.pure _)
    · exact (h.ideWriteTable _ _).bind fun _ => Within.pure _
  · exact (h.loadInode _).bind fun _ => (h.ideWriteTable _ _).bind fun _ => Within.pure _

theorem syncNewBlock (h : AllowsInode R p) (e : DirEntry) (ioBuf : Buf) (allBlocks : BlockArray)
    (blockIdx : Nat) : Within R (OsTruth.syncNewBlock p e ioBuf allBlocks blockIdx) := by
  refine h.allocAndSync.bind fun lba => Within.ite (Within.pure _)
    ((h.hookBlock _ _ _).bind fun r => ?_)
  cases r with
  | none => exact Within.pure _
  | some lba =>
      exact (Within.lift _).bind fun _ => (Within.lift _).bind fun _ =>
        (h.ideWrite _ _ _).bind fun _ => h.growDir.bind fun _ => Within.pure _

theorem syncBlocks (h : AllowsInode R p) (e : DirEntry) (allBlocks : BlockArray) :
    ∀ left blockIdx ioBuf, Within R (OsTruth.syncBlocks p e allBlocks left blockIdx ioBuf) := by
  intro left
  induction left with
  | zero => exact fun _ _ => Within.pure _
  | succ left ih =>
      intro blockIdx ioBuf
      rw [OsTruth.syncBlocks]
      refine Within.ite (h.syncNewBlock _ _ _ _) ((h.ideRead _ _ _).bind fun ioBuf => ?_)
      cases freeSlot ioBuf.data dirEntrysPerSec 0 with
      | none => exact ih _ _
      | some idx =>
          exact (Within.lift _).bind fun _ => (h.ideWrite _ _ _).bind fun _ =>
            h.growDir.bind fun _ => Within.pure _

end AllowsInode

/-- An entry is added to a directory whose inode `R` allows to be updated. -/
theorem syncDirEntry_within [Std.Refl R] {d : DirPtr} {s : State}
    (h : ∀ p, s.inodeOf d = some p → AllowsInode R p) (e : DirEntry) (ioBuf : Buf) :
    Ensures (syncDirEntry d e ioBuf) s fun _ t => R s t := by
  rw [syncDirEntry, Ensures, Wp.bind, wp_dirInode]
  refine ⟨fun p hp => ?_, fun _ => True.intro⟩
  have hp := h p hp
  exact ((hp.loadInode p).bind fun _ => hp.getEntrySize.bind fun _ => (Within.lift _).bind
    fun _ => hp.syncBlocks _ _ _ _ _) s

end

/-! ## Quiet functions -/

section

variable {α β : Type} {s : State}

theorem quiet_putInode {p : Ptr} {i j : Inode} (hi : s.inodes p = some i) (h : j.head = i.head) :
    Quiet s (s.putInode p (some j)) := by
  refine ⟨rfl, rfl, rfl, rfl, rfl, rfl, Nat.le_refl _, fun q => ?_⟩
  show (if q = p then some j else s.inodes q).map Inode.head = _
  by_cases hq : q = p
  · rw [if_pos hq, hq, hi, Option.map_some, Option.map_some, h]
  · rw [if_neg hq]

theorem quiet_allows : Allows Quiet where
  store _ _ _ _ := ⟨rfl, rfl, rfl, rfl, rfl, rfl, Nat.le_refl _, fun _ => rfl⟩
  setBlockBitmap _ _ := ⟨rfl, rfl, rfl, rfl, rfl, rfl, Nat.le_refl _, fun _ => rfl⟩

theorem quiet_allowsInode (p : Ptr) : AllowsInode Quiet p where
  toAllows := quiet_allows
  putInode _ _ _ hi h := quiet_putInode hi h

theorem kassert_quiet (c : Prop) [Decidable c] : Within Quiet (kassert c) := Within.lift _

theorem sysMallocBuf_quiet : Within Quiet sysMallocBuf := sysMallocBuf_reads.mono Reads.quiet

theorem sysFreeBuf_quiet (p : Ptr) : Within Quiet (sysFreeBuf p) :=
  (sysFreeBuf_reads p).mono Reads.quiet

theorem syncDirEntry_quiet (d : DirPtr) (e : DirEntry) (ioBuf : Buf) :
    Within Quiet (syncDirEntry d e ioBuf) :=
  fun _ => syncDirEntry_within (fun p _ => quiet_allowsInode p) e ioBuf

/-! ## Removing an entry -/

theorem blockRelease_quiet (idx : UInt32) : Within Quiet (blockRelease idx) :=
  (quiet_allows.blockBitmapClear _).bind fun _ => quiet_allows.bitmapSync _ _

/-- An update of an inode that keeps its head, as the last step. -/
theorem updateLast_quiet {p : Ptr} {f : Inode → Inode} (hf : ∀ i, (f i).head = i.head) :
    Within Quiet (do
      let i ← loadInode p
      storeInode p (f i)) := by
  intro s
  rw [Ensures, Wp.bind, wp_loadInode]
  refine ⟨fun i hi => ?_, fun _ => True.intro⟩
  rw [wp_storeInode_some hi]
  exact quiet_putInode hi (hf i)

theorem unhookBlock_quiet (p : Ptr) (allBlocks : BlockArray) (blockIdx : Nat) :
    Within Quiet (unhookBlock p allBlocks blockIdx) := by
  unfold unhookBlock
  generalize countBlocks allBlocks 128 12 = indirectBlocks
  refine Within.ite (updateLast_quiet fun _ => rfl) ((kassert_quiet _).bind fun _ s => ?_)
  rw [Ensures, Wp.bind, wp_loadInode]
  refine ⟨fun i hi => ?_, fun _ => True.intro⟩
  rw [Wp.ite]
  refine ⟨fun _ => quiet_allows.ideWriteTable _ _ s, fun _ => ?_⟩
  rw [Wp.bind, Wp.get, Wp.bind]
  refine (blockRelease_quiet _ s).call fun _ t ht => ?_
  obtain ⟨j, hj, hhead⟩ := ht.of_inodes hi
  rw [wp_storeInode_some hj]
  have hset : (i.setSector 12 0).head = j.head := hhead.symm
  exact trans_of Quiet ht (quiet_putInode hj hset)

theorem clearFound_quiet (p : Ptr) (allBlocks : BlockArray) (blockIdx : Nat) (ioBuf : Buf)
    (r : SlotScan) (found : Nat) :
    Within Quiet (clearFound p allBlocks blockIdx ioBuf r found) :=
  Within.ite
    (Within.get.bind fun _ => (blockRelease_quiet _).bind fun _ => unhookBlock_quiet _ _ _)
    ((Within.lift _).bind fun _ => quiet_allows.ideWrite _ _ _)

theorem deleteFound_quiet (p : Ptr) (allBlocks : BlockArray) (blockIdx : Nat) (ioBuf : Buf)
    (r : SlotScan) (found : Nat) :
    Within Quiet (deleteFound p allBlocks blockIdx ioBuf r found) := by
  refine (kassert_quiet _).bind fun _ => (clearFound_quiet _ _ _ _ _ _).bind fun _ =>
    quiet_allows.getEntrySize.bind fun entrySize s => ?_
  rw [Ensures, Wp.bind, wp_loadInode]
  refine ⟨fun i hi => ?_, fun _ => True.intro⟩
  rw [Wp.bind, wp_kassert]
  refine ⟨fun _ => ?_, fun _ => True.intro⟩
  rw [Wp.bind, wp_storeInode_some hi]
  have hput : Quiet s (s.putInode p (some { i with iSize := i.iSize - entrySize })) :=
    quiet_putInode hi rfl
  rw [Wp.bind]
  refine (quiet_allows.loadInode p _).call fun i t ht =>
    (quiet_allows.inodeSync i _ t).call fun _ u hu => ?_
  exact trans_of Quiet (trans_of Quiet hput ht) hu

theorem deleteBlocks_quiet (p : Ptr) (n : UInt32) (allBlocks : BlockArray) :
    ∀ left blockIdx, Within Quiet (deleteBlocks p n allBlocks left blockIdx) := by
  intro left
  induction left with
  | zero => exact fun _ => Within.pure _
  | succ left ih =>
      intro blockIdx
      rw [deleteBlocks]
      refine Within.ite (ih _) ((quiet_allows.ideRead _ _ _).bind fun ioBuf => (Within.lift _).bind
        fun r => ?_)
      cases r.dirEntryFound with
      | none => exact ih _
      | some found => exact (deleteFound_quiet _ _ _ _ _ _).bind fun _ => Within.pure _

theorem collectBlocks_quiet (i : Inode) : Within Quiet (collectBlocks i) :=
  (collectBlocks_reads i).mono Reads.quiet

theorem deleteDirEntry_quiet (d : DirPtr) (n : UInt32) : Within Quiet (deleteDirEntry d n) :=
  (quiet_allows.dirInode _).bind fun _ => (quiet_allows.loadInode _).bind fun _ =>
    (collectBlocks_quiet _).bind fun _ => quiet_allows.getEntrySize.bind fun _ =>
      deleteBlocks_quiet _ _ _ _ _

/-! ## Releasing an inode -/

theorem when_quiet {c : Prop} [Decidable c] {x : Kern Unit} (hx : Within Quiet x) :
    Within Quiet (when c x) :=
  Within.ite hx (Within.pure _)

theorem releaseBlocks_quiet (allBlocks : BlockArray) :
    ∀ left blockIdx, Within Quiet (releaseBlocks allBlocks left blockIdx) := by
  intro left
  induction left with
  | zero => exact fun _ => Within.pure _
  | succ left ih =>
      intro blockIdx
      rw [releaseBlocks]
      refine Within.bind (when_quiet ?_) fun _ => ih _
      exact Within.get.bind fun _ => (kassert_quiet _).bind fun _ => blockRelease_quiet _

theorem inodeDelete_quiet (n : UInt32) (ioBuf : Buf) : Within Quiet (inodeDelete n ioBuf) :=
  (kassert_quiet _).bind fun _ => Within.get.bind fun _ => (Within.lift _).bind fun _ =>
    (quiet_allows.ideRead _ _ _).bind fun _ =>
      (Within.lift _).bind fun _ => quiet_allows.ideWrite _ _ _

end

end OsTruth
