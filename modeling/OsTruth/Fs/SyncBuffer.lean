/-
The buffers that are passed to `inode_sync`.

`inode_sync` transfers one or two sectors, as the slot of the inode lies, and its callers
decide how large the buffer is before they know the slot.
-/
import OsTruth.Fs.InodeSlot
import OsTruth.Fs.FileRw
import OsTruth.Fs.Fs

namespace OsTruth

open ByteString Fallible

/-! ## The calls -/

/-- The calls of `inode_sync` in `file_create`, `file_write`, `sys_mkdir` and
`delete_dir_entry`. -/
inductive SyncCall
  | createParent
  | createNew
  | fileWrite
  | mkdirParent
  | mkdirNew
  | deleteEntry
  deriving DecidableEq

namespace SyncCall

/-- The bytes of the heap block behind `io_buf`. -/
def bufSize : SyncCall → Nat
  | fileWrite => 512
  | _ => 1024

def ioBuf (c : SyncCall) : Buf := .zero c.bufSize

/-- `inode_sync(cur_part, i, io_buf)`. -/
def sync (c : SyncCall) (i : Inode) : Kern Unit := inodeSync i c.ioBuf

/-- The buffer takes the sectors of the slot, and no run of the call leaves it. -/
structure Covers (c : SyncCall) (i : Inode) : Prop where
  transfer : ∀ part pos, inodeLocate part i.iNo.toUInt8.toUInt32 = .ok pos →
    512 * pos.secCnt ≤ c.ioBuf.size
  inside : ∀ s, Wp (c.sync i) s (fun e => e = .assert) fun _ _ => True

end SyncCall

/-- The slot that `inode_sync` picks lies in one sector. -/
def OneSector (inodeNo : UInt32) : Prop := 76 * (inodeNo.toNat % 256) % 512 ≤ 436

instance (inodeNo : UInt32) : Decidable (OneSector inodeNo) := inferInstanceAs (Decidable (_ ≤ _))

section

variable {i : Inode} {s : State} {p : Ptr}

/-- The number that `inode_sync` locates. -/
theorem toNat_syncNo (n : UInt32) : n.toUInt8.toUInt32.toNat = n.toNat % 256 := by
  rw [UInt8.toNat_toUInt32, UInt32.toNat_toUInt8]

theorem syncNo_lt (n : UInt32) : n.toUInt8.toUInt32 < 4096 := by
  rw [UInt32.lt_iff_toNat_lt, toNat_syncNo]
  show _ < 4096
  omega

theorem secCnt_syncNo (part : Partition) (n : UInt32) :
    (inodePos part n.toUInt8.toUInt32).secCnt = if OneSector n then 1 else 2 := by
  rw [inodePos_secCnt part (syncNo_lt n), toNat_syncNo]
  by_cases hone : OneSector n
  · rw [if_pos hone, if_neg (Nat.not_lt.mpr hone)]
  · rw [if_neg hone, if_pos (Nat.lt_of_not_le hone)]

/-- A call with a buffer stays inside it, or runs out of it in every state. -/
theorem inodeSync_inside {ioBuf : Buf}
    (hbuf : 512 * (inodePos s.part i.iNo.toUInt8.toUInt32).secCnt ≤ ioBuf.size) :
    Wp (inodeSync i ioBuf) s (fun e => e = .assert) fun _ _ => True := by
  have hspan := (inodePos_span s.part (syncNo_lt i.iNo)).1
  have hoff := inodePos_offset s.part (syncNo_lt i.iNo)
  have hput : (inodePos s.part i.iNo.toUInt8.toUInt32).offSize.toNat + inodeSize ≤ ioBuf.size := by
    unfold inodeSize
    omega
  unfold inodeSync writeSlot
  simp only [Wp.bind, Wp.get, wp_inodeLocate, wp_kassert, wp_ideRead, wp_put, wp_ideWrite, hbuf,
    hput, not_true_eq_false, false_implies, implies_true, and_true]

/-- A call that returns had room for the sectors in its buffer. -/
theorem inodeSync_room (ioBuf : Buf) :
    Ensures (inodeSync i ioBuf) s fun _ t =>
      t.inodes = s.inodes ∧
        512 * (inodePos s.part i.iNo.toUInt8.toUInt32).secCnt ≤ ioBuf.size := by
  unfold inodeSync writeSlot
  simp only [Ensures, Wp.bind, Wp.get, wp_inodeLocate, wp_kassert, wp_ideRead, wp_put, wp_ideWrite,
    implies_true, and_true]
  exact fun _ _ _ hbuf _ _ _ => ⟨rfl, hbuf⟩

namespace SyncCall

/-- The buffer is large enough exactly when the call is not the one of `file_write`, or the
slot does not cross into a second sector. -/
theorem covers_iff (c : SyncCall) (i : Inode) : c.Covers i ↔ c ≠ fileWrite ∨ OneSector i.iNo := by
  have hsize : ∀ part, (c ≠ fileWrite ∨ OneSector i.iNo) →
      512 * (inodePos part i.iNo.toUInt8.toUInt32).secCnt ≤ c.ioBuf.size := by
    intro part hcond
    rw [secCnt_syncNo]
    by_cases hone : OneSector i.iNo
    · rw [if_pos hone]
      cases c <;> decide
    · have hc := hcond.resolve_right hone
      rw [if_neg hone]
      cases c with
      | fileWrite => exact absurd rfl hc
      | _ => exact Nat.le_refl 1024
  constructor
  · intro hcovers
    by_contra hnot
    rw [not_or, not_not] at hnot
    obtain ⟨rfl, hone⟩ := hnot
    have hle := hcovers.transfer (emptyPart 2048 8192) _ (inodeLocate_eq (syncNo_lt i.iNo))
    rw [secCnt_syncNo, if_neg hone] at hle
    exact absurd hle (by decide)
  · intro hcond
    constructor
    · intro part pos hpos
      rw [inodeLocate_eq (syncNo_lt i.iNo)] at hpos
      rw [← Except.ok.inj hpos]
      exact hsize part hcond
    · intro s
      exact inodeSync_inside (hsize s.part hcond)

/-- The slot of inode 6 crosses into a second sector. -/
theorem not_covers_six : ¬fileWrite.Covers (freshInode 6) := by
  intro hcovers
  have hle := hcovers.transfer (emptyPart 2048 8192) _ (inodeLocate_eq (by decide))
  exact absurd hle (by decide)

end SyncCall

/-! ## Where they stand -/

theorem fileInstall_sync (parentDir : DirPtr) (filename : Str) (newFileInode : Ptr)
    (inodeNo : UInt32) (fdIdx : Nat) (ioBuf : Ptr) :
    fileInstall parentDir filename newFileInode inodeNo fdIdx ioBuf = (do
      let newDirEntry ← StateT.lift (createDirEntry filename inodeNo .regular)
      if ← syncDirEntry parentDir newDirEntry (.zero 1024) then do
        SyncCall.createParent.sync (← loadInode (← dirInode parentDir))
        SyncCall.createNew.sync (← loadInode newFileInode)
        bitmapSync inodeNo .inodeBitmap
        modify fun s => s.pushOpen newFileInode
        let i ← loadInode newFileInode
        storeInode newFileInode { i with iOpenCnts := 1 }
        sysFreeBuf ioBuf
        pcbFdInstall fdIdx
      else createRollback3 fdIdx newFileInode inodeNo ioBuf) := rfl

theorem mkdirEnd_sync (inodeNo : UInt32) (newDirInode : Inode) (parentDir : DirPtr) (ioBuf : Ptr) :
    mkdirEnd inodeNo newDirInode parentDir ioBuf = (do
      SyncCall.mkdirParent.sync (← loadInode (← dirInode parentDir))
      SyncCall.mkdirNew.sync newDirInode
      bitmapSync inodeNo .inodeBitmap
      sysFreeBuf ioBuf
      dirClose parentDir
      pure 0) := rfl

theorem deleteFound_sync (dirInode : Ptr) (allBlocks : BlockArray) (blockIdx : Nat) (ioBuf : Buf)
    (r : SlotScan) (found : Nat) :
    deleteFound dirInode allBlocks blockIdx ioBuf r found = (do
      kassert (r.dirEntryCnt ≥ 1)
      clearFound dirInode allBlocks blockIdx ioBuf r found
      let entrySize ← getEntrySize
      let i ← loadInode dirInode
      kassert (i.iSize ≥ entrySize)
      storeInode dirInode { i with iSize := i.iSize - entrySize }
      SyncCall.deleteEntry.sync (← loadInode dirInode)) := rfl

/-- The end of `file_write`, from its call on. -/
def writeEnd (p : Ptr) (ioBuf allBlocksPtr : Ptr) (bytesWritten : UInt32) : Kern UInt32 := do
  SyncCall.fileWrite.sync (← loadInode p)
  freeBuffers allBlocksPtr ioBuf bytesWritten

theorem writeCopy_sync (p : Ptr) (fdIdx : Nat) (buf : Bytes) (count : UInt32)
    (ioBuf allBlocksPtr : Ptr) (allBlocks : BlockArray) :
    writeCopy p fdIdx buf count ioBuf allBlocksPtr allBlocks = (do
      let i ← loadInode p
      modify fun s => s.setFile fdIdx { s.fileTable fdIdx with fdPos := i.iSize - 1 }
      writeEnd p ioBuf allBlocksPtr
        (← writeLoop p fdIdx buf count count allBlocks 141 0 0 true)) := rfl

/-- A `file_write` that comes to its end synced an inode whose slot lies in one sector. -/
theorem writeBody_oneSector (p : Ptr) (fdIdx : Nat) (buf : Bytes) (count : UInt32)
    (ioBuf allBlocksPtr : Ptr) :
    Ensures (writeBody p fdIdx buf count ioBuf allBlocksPtr) s fun r t =>
      r = -1 ∨ ∃ i, t.inodes p = some i ∧ OneSector i.iNo := by
  rw [writeBody, writeBlocks, Ensures, Wp.bind]
  refine Wp.trivial.call fun first s₁ _ => ?_
  rw [Wp.ite]
  refine ⟨fun _ => ?_, fun _ => .inl rfl⟩
  rw [Wp.bind]
  refine Wp.trivial.call fun i s₂ _ => ?_
  rw [Wp.bind]
  refine Wp.trivial.call fun _ s₃ _ => ?_
  rw [Wp.bind]
  refine Wp.trivial.call fun gathered s₄ _ => ?_
  cases gathered with
  | none => exact .inl rfl
  | some allBlocks =>
      dsimp only
      rw [writeCopy_sync, Wp.bind]
      refine Wp.trivial.call fun j s₅ _ => ?_
      rw [Wp.bind, Wp.modify, Wp.bind]
      refine Wp.trivial.call fun bytesWritten s₆ _ => ?_
      rw [writeEnd, Wp.bind, wp_loadInode]
      refine ⟨fun k hk => ?_, fun _ => True.intro⟩
      rw [Wp.bind]
      refine (inodeSync_room _).call fun _ s₇ ⟨hinodes, hroom⟩ => ?_
      have hone : OneSector k.iNo := by
        by_contra hnot
        rw [secCnt_syncNo, if_neg hnot] at hroom
        exact absurd hroom (by decide)
      unfold freeBuffers sysFreeBuf
      simp only [Wp.bind, wp_sysFree, Wp.pure, implies_true, and_true]
      exact fun _ _ _ _ => .inr ⟨k, (congrFun hinodes p).trans hk, hone⟩

end

end OsTruth
