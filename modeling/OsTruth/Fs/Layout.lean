/-
Where a mounted partition keeps its parts.

`Mounted` says that the numbers in the super block are those that `partition_format`
computes for the partition.  The parts follow each other without a gap, so every
sector of a part is a sector of the partition, and none belongs to two parts.
-/
import OsTruth.Fs.Format
import OsTruth.Fs.Rules

namespace OsTruth

open ByteString Fallible

/-- The layout of a formatted partition, in sector numbers. -/
structure Partition.Mounted (part : Partition) : Prop where
  blockBitmapLba : part.sb.blockBitmapLba.toNat = part.startLba.toNat + 2
  inodeBitmapLba :
    part.sb.inodeBitmapLba.toNat = part.sb.blockBitmapLba.toNat + part.sb.blockBitmapSects.toNat
  inodeTableLba : part.sb.inodeTableLba.toNat = part.sb.inodeBitmapLba.toNat + 1
  dataStartLba : part.sb.dataStartLba.toNat = part.sb.inodeTableLba.toNat + 608
  inodeBitmapSects : part.sb.inodeBitmapSects = 1
  blockBitmapSects : 0 < part.sb.blockBitmapSects.toNat
  blockBitmapLen : part.blockBitmap.btmpBytesLen = 512 * part.sb.blockBitmapSects.toNat
  inodeBitmapLen : part.inodeBitmap.btmpBytesLen = 512
  inPartition : part.sb.dataStartLba.toNat < part.startLba.toNat + part.secCnt.toNat
  inDisk : part.startLba.toNat + part.secCnt.toNat ≤ maxLba.toNat + 1
  entrySize : part.sb.dirEntrySize.toNat = dirEntrySize

theorem toNat_maxLba : maxLba.toNat = 163839 := rfl

/-- A sector that exists can be selected, as can a pair of sectors from it. -/
theorem selectable_of_le {lba : UInt32} {n : Nat} (h₁ : 0 < n) (h₂ : n ≤ 256)
    (h : lba.toNat ≤ maxLba.toNat) : Selectable lba n := by
  refine ⟨h₁, fun k hk => ?_⟩
  have hk0 : k = 0 := by omega
  rw [hk0]
  simpa [UInt32.le_iff_toNat_le] using h

theorem selectable_one {lba : UInt32} : Selectable lba 1 ↔ lba.toNat ≤ maxLba.toNat := by
  constructor
  · intro h
    simpa [UInt32.le_iff_toNat_le] using h.2 0 (by omega)
  · exact selectable_of_le (by omega) (by omega)

/-! ## An empty mounted partition -/

/-- A partition with the super block that `partition_format` computes and no bit set in
its bitmaps. -/
def emptyPart (startLba secCnt : UInt32) : Partition where
  startLba := startLba
  secCnt := secCnt
  sb := formatSuperBlock startLba secCnt
  blockBitmap := ⟨512 * (formatSuperBlock startLba secCnt).blockBitmapSects.toNat, fun _ => 0⟩
  inodeBitmap := ⟨512, fun _ => 0⟩
  openInodes := []

/-- A kernel thread on an empty disk with no file open. -/
def idleState (part : Partition) : State where
  disk := fun _ => 0
  part := part
  inodes := fun _ => none
  dirs := fun _ => none
  bufs := []
  next := 0
  supply := fun _ => true
  rootDir := .zero
  fileTable := fun _ => ⟨0, 0, none⟩
  cur := { pgdir := false, name := [], fdTable := fun _ => -1, cwdInodeNr := 0 }

theorem emptyPart_mounted : (emptyPart 2048 8192).Mounted where
  blockBitmapLba := by decide
  inodeBitmapLba := by decide
  inodeTableLba := by decide
  dataStartLba := by decide
  inodeBitmapSects := by decide
  blockBitmapSects := by decide
  blockBitmapLen := rfl
  inodeBitmapLen := rfl
  inPartition := by decide
  inDisk := by decide
  entrySize := by decide

end OsTruth
