/-
The functions that only read: they take memory for their buffers and give it back.
-/
import OsTruth.Fs.Rules
import OsTruth.Library.Framing

namespace OsTruth

open ByteString Fallible

/-- Nothing but the buffers is different. -/
structure Reads (s t : State) : Prop where
  disk : t.disk = s.disk
  part : t.part = s.part
  inodes : t.inodes = s.inodes
  dirs : t.dirs = s.dirs
  rootDir : t.rootDir = s.rootDir
  fileTable : t.fileTable = s.fileTable
  cur : t.cur = s.cur
  next : s.next ≤ t.next

instance : Std.Refl Reads := ⟨fun _ => ⟨rfl, rfl, rfl, rfl, rfl, rfl, rfl, Nat.le_refl _⟩⟩

instance : IsTrans State Reads :=
  ⟨fun _ _ _ h k => ⟨k.disk.trans h.disk, k.part.trans h.part, k.inodes.trans h.inodes,
    k.dirs.trans h.dirs, k.rootDir.trans h.rootDir, k.fileTable.trans h.fileTable,
    k.cur.trans h.cur, Nat.le_trans h.next k.next⟩⟩

theorem Reads.of_eq (s t : State) (h : s = t) : Reads s t := by
  rw [h]
  exact refl_of Reads t

section

variable {s : State}

/-! ## Primitives -/

theorem kassert_reads (c : Prop) [Decidable c] : Within Reads (kassert c) := Within.lift _

theorem ideRead_same (lba : UInt32) (buf : Buf) (n : Nat) : Within Eq (ideRead lba buf n) :=
  (Within.lift _).bind fun _ => Within.get.bind fun _ => Within.lift _

theorem ideRead_reads (lba : UInt32) (buf : Buf) (n : Nat) : Within Reads (ideRead lba buf n) :=
  (ideRead_same lba buf n).mono Reads.of_eq

theorem ideReadTable_same (lba : UInt32) (allBlocks : BlockArray) :
    Within Eq (ideReadTable lba allBlocks) :=
  (ideRead_same _ _ _).bind fun _ => Within.pure _

theorem ideReadTable_reads (lba : UInt32) (allBlocks : BlockArray) :
    Within Reads (ideReadTable lba allBlocks) :=
  (ideReadTable_same lba allBlocks).mono Reads.of_eq

theorem sysMallocBuf_reads : Within Reads sysMallocBuf := by
  intro s
  rw [Ensures, sysMallocBuf, wp_sysMalloc]
  exact ⟨fun _ => ⟨rfl, rfl, rfl, rfl, rfl, rfl, rfl, Nat.le_succ _⟩,
    fun _ => ⟨rfl, rfl, rfl, rfl, rfl, rfl, rfl, Nat.le_refl _⟩⟩

theorem sysFreeBuf_reads (p : Ptr) : Within Reads (sysFreeBuf p) := by
  intro s
  rw [Ensures, sysFreeBuf, wp_sysFree]
  exact ⟨fun _ _ => ⟨rfl, rfl, rfl, rfl, rfl, rfl, rfl, Nat.le_refl _⟩,
    fun _ _ => True.intro, fun _ _ => True.intro, fun _ _ => True.intro⟩

theorem loadInode_same (p : Ptr) : Within Eq (loadInode p) := by
  intro s
  rw [Ensures, wp_loadInode]
  exact ⟨fun _ _ => rfl, fun _ => True.intro⟩

theorem loadInode_reads (p : Ptr) : Within Reads (loadInode p) :=
  (loadInode_same p).mono Reads.of_eq

theorem dirInode_same (d : DirPtr) : Within Eq (dirInode d) := by
  intro s
  rw [Ensures, wp_dirInode]
  exact ⟨fun _ _ => rfl, fun _ => True.intro⟩

theorem dirInode_reads (d : DirPtr) : Within Reads (dirInode d) :=
  (dirInode_same d).mono Reads.of_eq

theorem getEntrySize_same : Within Eq getEntrySize := by
  intro s
  rw [Ensures, wp_getEntrySize]
  exact ⟨fun _ => rfl, fun _ => True.intro⟩

theorem getEntrySize_reads : Within Reads getEntrySize := getEntrySize_same.mono Reads.of_eq

/-! ## Inodes, next to what else changes -/

theorem loadInode_blind {g : State → State} {p : Ptr} (hg : ∀ s, (g s).inodes = s.inodes) :
    Blind g (loadInode p) := by
  refine .of_wp fun s F Q => ?_
  rw [wp_loadInode, wp_loadInode, hg]

theorem storeInode_blind {g : State → State} {p : Ptr} {i : Inode}
    (hg : ∀ s, (g s).inodes = s.inodes) (hput : ∀ s i, (g s).putInode p i = g (s.putInode p i)) :
    Blind g (storeInode p i) := by
  refine .of_wp fun s F Q => ?_
  rw [wp_storeInode, wp_storeInode, hg, hput]

/-! ## Searching a directory -/

theorem collectBlocks_same (i : Inode) : Within Eq (collectBlocks i) :=
  Within.ite (ideReadTable_same _ _) (Within.pure _)

theorem collectBlocks_reads (i : Inode) : Within Reads (collectBlocks i) :=
  (collectBlocks_same i).mono Reads.of_eq

theorem searchBlocks_same (allBlocks : BlockArray) (name : Str) :
    ∀ left blockIdx, Within Eq (searchBlocks allBlocks name left blockIdx) := by
  intro left
  induction left with
  | zero => exact fun _ => Within.pure _
  | succ left ih =>
      intro blockIdx
      rw [searchBlocks]
      refine Within.ite (ih _) ((ideRead_same _ _ _).bind fun buf => ?_)
      cases searchSlots buf.data name dirEntrysPerSec 0 with
      | none => exact ih _
      | some e => exact Within.pure _

theorem searchBlocks_reads (allBlocks : BlockArray) (name : Str) (left blockIdx : Nat) :
    Within Reads (searchBlocks allBlocks name left blockIdx) :=
  (searchBlocks_same allBlocks name left blockIdx).mono Reads.of_eq

theorem searchDirEntry_reads (pdir : DirPtr) (name : Str) :
    Within Reads (searchDirEntry pdir name) := by
  refine sysMallocBuf_reads.bind fun allBlocksPtr => ?_
  cases allBlocksPtr with
  | none => exact Within.pure _
  | some allBlocksPtr =>
      refine (dirInode_reads _).bind fun p => (loadInode_reads _).bind fun i =>
        (collectBlocks_reads _).bind fun allBlocks => sysMallocBuf_reads.bind fun buf =>
          getEntrySize_reads.bind fun _ => ?_
      cases buf with
      | none => exact Within.throw _
      | some bufPtr =>
          exact (searchBlocks_reads _ _ _ _).bind fun r => (sysFreeBuf_reads _).bind fun _ =>
            (sysFreeBuf_reads _).bind fun _ => Within.pure _

end

end OsTruth
