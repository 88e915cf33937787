/-
The assertions that `file_read` can fail.

They are `start_idx < 139` and `end_idx < 139`, the one on the indirect table, the range
check of `select_sector` in each disk access, and the checks for `NULL` in `memset` and
`sys_free`.  Which of them a call comes to depends on `fd_pos`, the size and the block map.
-/
import OsTruth.Fs.FileRead
import OsTruth.Fs.WriteBounds

namespace OsTruth

open ByteString Fallible

def indirectEntry (disk : Bytes) (i : Inode) (k : Nat) : UInt32 :=
  wordAt disk (sectorOff (i.sector 12) + 4 * (k - 12))

/-- A read from block `startIdx` to block `endIdx` takes the indirect table from disk. -/
def ReadsTable (startIdx endIdx : Nat) : Prop :=
  12 ≤ endIdx ∧ (startIdx = endIdx ∨ startIdx < 12 ∧ 12 < endIdx)

instance (startIdx endIdx : Nat) : Decidable (ReadsTable startIdx endIdx) :=
  inferInstanceAs (Decidable (_ ∧ _))

/-- A read of `size` bytes at `fdPos` comes to block `k` of `all_blocks`. -/
def ComesTo (fdPos size : UInt32) (k : Nat) : Prop :=
  0 < size ∧ fdPos.toNat / 512 ≤ k ∧ 512 * k < fdPos.toNat + size.toNat ∧ k < 140

/-- What a read of `size` bytes at `fdPos` asks of the inode and of its indirect table. -/
structure ReadFits (disk : Bytes) (i : Inode) (fdPos size : UInt32) : Prop where
  start : fdPos.toNat / 512 < 139
  stop : (fdPos + size).toNat / 512 < 139
  table : ReadsTable (fdPos.toNat / 512) ((fdPos + size).toNat / 512) → i.sector 12 ≤ maxLba ∧
    (fdPos.toNat / 512 ≠ (fdPos + size).toNat / 512 → i.sector 12 ≠ 0)
  direct : ∀ k, ComesTo fdPos size k → k = (fdPos + size).toNat / 512 → k < 12 →
    i.sector k ≤ maxLba
  indirect : ∀ k, ComesTo fdPos size k →
    ReadsTable (fdPos.toNat / 512) ((fdPos + size).toNat / 512) → 12 ≤ k →
      indirectEntry disk i k ≤ maxLba

/-- The arguments of `file_read` on `file_table[fdIdx]` with which it fails no `ASSERT`. -/
def ReadAccepted (s : State) (fdIdx : Nat) (count : UInt32) : Prop :=
  ∀ p i, (s.fileTable fdIdx).fdInode = some p → s.inodes p = some i →
    let fdPos := (s.fileTable fdIdx).fdPos
    let size := readSize fdPos i.iSize count
    ¬(fdPos + count > i.iSize ∧ size = 0) → s.supply 1 = true →
      s.supply 0 = true ∧ ReadFits s.disk i fdPos size

section

variable {s : State} {F : Fault → Prop} {fdIdx : Nat} {i : Inode} {fdPos size : UInt32}
  {allBlocks : BlockArray}

/-! ## Assertions and memory -/

end

end OsTruth
