/-
The part of `fs/file.c` that allocates inodes and blocks and writes the bitmaps
back, which `fs/inode.c`, `fs/dir.c` and `fs/fs.c` call.

`-1` for "none" is `0xffffffff` here as it is in the source, where the `int32_t`
results are stored in `uint32_t` variables.
-/
import OsTruth.Fs.State

namespace OsTruth

open ByteString

inductive BitmapType
  | inodeBitmap
  | blockBitmap
  deriving DecidableEq, Repr

namespace State

def setInodeBitmap (s : State) (b : Bitmap) : State :=
  { s with part := { s.part with inodeBitmap := b } }

def setBlockBitmap (s : State) (b : Bitmap) : State :=
  { s with part := { s.part with blockBitmap := b } }

end State

/-- Scan for one clear bit and set it.  The result is the bit, or `-1`. -/
def allocBit (bitmap : Bitmap) : Except Fault (Int × Bitmap) := do
  let bitIdx ← bitmapScan bitmap 1
  if bitIdx = -1 then pure (-1, bitmap)
  else do
    let bitmap ← bitmapSet bitmap bitIdx.toNat true
    pure (bitIdx, bitmap)

def inodeBitmapAlloc : Kern UInt32 := do
  let s ← get
  let (bitIdx, bitmap) ← StateT.lift (allocBit s.part.inodeBitmap)
  set (s.setInodeBitmap bitmap)
  if bitIdx = -1 then pure (-1) else pure (UInt32.ofNat bitIdx.toNat)

/-- The result is the address of the block and not its index in the bitmap. -/
def blockBitmapAlloc : Kern UInt32 := do
  let s ← get
  let (bitIdx, bitmap) ← StateT.lift (allocBit s.part.blockBitmap)
  set (s.setBlockBitmap bitmap)
  if bitIdx = -1 then pure (-1)
  else pure (s.part.sb.dataStartLba + UInt32.ofNat bitIdx.toNat)

/-- `bitmap_set(&cur_part->inode_bitmap, inode_no, 0)`. -/
def inodeBitmapClear (inodeNo : UInt32) : Kern Unit := do
  let s ← get
  let bitmap ← StateT.lift (bitmapSet s.part.inodeBitmap inodeNo.toNat false)
  set (s.setInodeBitmap bitmap)

/-- `bitmap_set(&cur_part->block_bitmap, block_bitmap_idx, 0)`. -/
def blockBitmapClear (blockBitmapIdx : UInt32) : Kern Unit := do
  let s ← get
  let bitmap ← StateT.lift (bitmapSet s.part.blockBitmap blockBitmapIdx.toNat false)
  set (s.setBlockBitmap bitmap)

/-- The sector that holds a bit, from the start of its bitmap. -/
def offSec (bitIdx : UInt32) : UInt32 := bitIdx / 4096

def syncLba (sb : SuperBlock) (bitIdx : UInt32) : BitmapType → UInt32
  | .inodeBitmap => sb.inodeBitmapLba + offSec bitIdx
  | .blockBitmap => sb.blockBitmapLba + offSec bitIdx

/-- What `bitmapSync` writes: for both kinds the source takes the block bitmap, and
it adds the sector offset and not the byte offset to the address. -/
def syncBuf (part : Partition) (bitIdx : UInt32) (_btmp : BitmapType) : Buf where
  size := part.blockBitmap.btmpBytesLen - (offSec bitIdx).toNat
  data := view part.blockBitmap.bits (offSec bitIdx).toNat

def bitmapSync (bitIdx : UInt32) (btmp : BitmapType) : Kern Unit := do
  let s ← get
  ideWrite (syncLba s.part.sb bitIdx btmp) (syncBuf s.part bitIdx btmp) 1

end OsTruth
