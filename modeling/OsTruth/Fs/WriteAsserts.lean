/-
The assertions that `file_write` can fail.

The call allocates blocks before it copies, so which assertion it comes to depends on the
block map, on the number of clear bits of the block bitmap and, when the size check was
passed by a sum that wraps, on every entry of the indirect table.
-/
import OsTruth.Fs.BitmapSync
import OsTruth.Fs.DirSlots
import OsTruth.Fs.FileTable
import OsTruth.Fs.InodeSlot
import OsTruth.Fs.ReadAsserts

namespace OsTruth

open ByteString Fallible

/-! ## The condition -/

def Bitmap.clearBits (b : Bitmap) : Nat :=
  (List.range (8 * b.btmpBytesLen)).countP fun k => !b.bit k

def blockCount (n : UInt32) : Nat := n.toNat / 512 + 1

/-- The blocks of a write are gathered without an access that has no meaning. -/
def Gathers (hasUsed willUse : Nat) : Prop :=
  (willUse ≤ 12 → hasUsed ≤ 13) ∧ (12 < willUse → 12 < hasUsed)

/-- What gathering the blocks of a write asks of the inode and of the block bitmap. -/
structure GatherFits (blockBitmap : Bitmap) (i : Inode) (hasUsed willUse : Nat) : Prop where
  table : 12 < hasUsed → 12 < willUse → i.sector 12 ≠ 0 ∧ i.sector 12 ≤ maxLba
  last : willUse ≤ 12 → willUse ≠ hasUsed → hasUsed ≤ 13 → i.sector (hasUsed - 1) ≠ 0
  unused : willUse ≤ 12 → ∀ k, hasUsed ≤ k → k < willUse → i.sector k = 0
  room : willUse ≤ 12 ∨ 12 < hasUsed → willUse - hasUsed ≤ blockBitmap.clearBits

/-- The copy loop comes to block `k` of `all_blocks`.  It goes on behind its first round
when `bytes_written`, which it lowers, stays below `count`. -/
def CopyComesTo (iSize count : UInt32) (k : Nat) : Prop :=
  iSize.toNat / 512 ≤ k ∧ k < 140 ∧
    (k = iSize.toNat / 512 ∨ 2 ^ 32 < count.toNat + (chunkSize count iSize).toNat)

/-- The call comes to the copy loop and to a block of `all_blocks` there. -/
def Copies (iSize count : UInt32) : Prop :=
  Gathers (blockCount iSize) (blockCount (iSize + count)) ∧ 0 < count ∧ iSize.toNat / 512 < 140

/-- What a write of `count` bytes asks of the inode, its indirect table and the block bitmap,
once the file has a first block. -/
structure WriteFits (disk : Bytes) (blockBitmap : Bitmap) (i : Inode) (isNull : Bool)
    (count : UInt32) : Prop where
  blocks : blockCount (i.iSize + count) ≤ 140
  gather : GatherFits blockBitmap i (blockCount i.iSize) (blockCount (i.iSize + count))
  buf : Copies i.iSize count → isNull = false
  direct : Copies i.iSize count → blockCount (i.iSize + count) ≤ 12 →
    i.sector (i.iSize.toNat / 512) ≤ maxLba
  indirect : Copies i.iSize count → 12 < blockCount (i.iSize + count) →
    ∀ k, CopyComesTo i.iSize count k → indirectEntry disk i k ≤ maxLba

/-- The same before the file has a first block: one is taken for it, which must not be
block 0. -/
def BodyFits (s : State) (i : Inode) (isNull : Bool) (count : UInt32) : Prop :=
  if i.sector 0 = 0 then
    ∃ b, s.part.blockBitmap.FirstClear b ∧ 0 < b ∧
      WriteFits (s.takeBlock b).disk (s.part.blockBitmap.set b true)
        (i.setSector 0 (blockAddr s.part b)) isNull count
  else WriteFits s.disk s.part.blockBitmap i isNull count

/-- The arguments of `file_write` on `file_table[fdIdx]` with which it fails no `ASSERT`. -/
def WriteAccepted (s : State) (fdIdx : Nat) (isNull : Bool) (count : UInt32) : Prop :=
  ∀ p i, (s.fileTable fdIdx).fdInode = some p → s.inodes p = some i →
    ¬i.iSize + count > 512 * 140 → s.supply 0 = true → s.supply 1 = true →
      BodyFits s i isNull count

/-! ## Clear bits -/

namespace Bitmap

variable {b : Bitmap} {k : Nat}

end Bitmap

section

variable {s : State} {F : Fault → Prop} {p : Ptr} {i : Inode} {fdIdx : Nat}

/-! ## Gathering -/

/-- The inode at `p` has size `n`, on a mounted partition and for the running task `cur`. -/
structure Writing (cur : Task) (p : Ptr) (n : UInt32) (u : State) : Prop where
  mounted : u.part.Mounted
  cur : u.cur = cur
  inode : ∃ i, u.inodes p = some i ∧ i.iSize = n

theorem Writing.takeBlock {cur : Task} {n : UInt32} {u : State} (h : Writing cur p n u) (b : Nat) :
    Writing cur p n (u.takeBlock b) :=
  ⟨h.mounted.setBlockBit b true, h.cur, h.inode⟩

theorem Writing.setSector {cur : Task} {n : UInt32} {u : State} (h : Writing cur p n u)
    (hi : u.inodes p = some i) (k : Nat) (v : UInt32) :
    Writing cur p n (u.putInode p (some (i.setSector k v))) := by
  obtain ⟨j, hj, hsize⟩ := h.inode
  obtain rfl := Option.some.inj (hi.symm.trans hj)
  exact ⟨h.mounted, h.cur, i.setSector k v, if_pos rfl, hsize⟩

theorem Writing.store {cur : Task} {n : UInt32} {u : State} (h : Writing cur p n u)
    (off len : Nat) (d : Bytes) : Writing cur p n (u.store off len d) :=
  ⟨h.mounted, h.cur, h.inode⟩

end

end OsTruth
