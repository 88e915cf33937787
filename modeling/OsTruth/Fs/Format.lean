/-
`partition_format` and `mount_partition` of `fs/fs.c`, and the part of
`filesys_init` that runs once the partition is known.

All sizes are computed in `uint32_t`.  The super block that is written is a local
variable whose padding is never set; `pad` is what the stack held there.
-/
import OsTruth.Fs.Dir

namespace OsTruth

open ByteString

namespace SuperBlock

/-- Word `j` of the packed structure. -/
def word (sb : SuperBlock) (pad : Bytes) : Nat → UInt32
  | 0 => sb.magic
  | 1 => sb.secCnt
  | 2 => sb.inodeCnt
  | 3 => sb.partLbaBase
  | 4 => sb.blockBitmapLba
  | 5 => sb.blockBitmapSects
  | 6 => sb.inodeBitmapLba
  | 7 => sb.inodeBitmapSects
  | 8 => sb.inodeTableLba
  | 9 => sb.inodeTableSects
  | 10 => sb.dataStartLba
  | 11 => sb.rootInodeNo
  | 12 => sb.dirEntrySize
  | j + 13 => wordAt pad (4 * j)

def bytes (sb : SuperBlock) (pad : Bytes) : Bytes := ofWords (sb.word pad)

def ofBytes (b : Bytes) : SuperBlock where
  magic := wordAt b 0
  secCnt := wordAt b 4
  inodeCnt := wordAt b 8
  partLbaBase := wordAt b 12
  blockBitmapLba := wordAt b 16
  blockBitmapSects := wordAt b 20
  inodeBitmapLba := wordAt b 24
  inodeBitmapSects := wordAt b 28
  inodeTableLba := wordAt b 32
  inodeTableSects := wordAt b 36
  dataStartLba := wordAt b 40
  rootInodeNo := wordAt b 44
  dirEntrySize := wordAt b 48

end SuperBlock

def divRoundUp (x step : UInt32) : UInt32 := (x + step - 1) / step

def blockBitmapBitLen (secCnt : UInt32) : UInt32 :=
  let usedSects := 1 + 1 + divRoundUp 4096 4096 + divRoundUp (UInt32.ofNat inodeSize * 4096) 512
  let freeSects := secCnt - usedSects
  freeSects - divRoundUp freeSects 4096

/-- The super block of a partition, from its first sector and its size. -/
def formatSuperBlock (startLba secCnt : UInt32) : SuperBlock :=
  let inodeBitmapSects := divRoundUp 4096 4096
  let inodeTableSects := divRoundUp (UInt32.ofNat inodeSize * 4096) 512
  let blockBitmapSects := divRoundUp (blockBitmapBitLen secCnt) 4096
  let blockBitmapLba := startLba + 2
  let inodeBitmapLba := blockBitmapLba + blockBitmapSects
  let inodeTableLba := inodeBitmapLba + inodeBitmapSects
  { magic := 0x20050102
    secCnt := secCnt
    inodeCnt := 4096
    partLbaBase := startLba
    blockBitmapLba := blockBitmapLba
    blockBitmapSects := blockBitmapSects
    inodeBitmapLba := inodeBitmapLba
    inodeBitmapSects := inodeBitmapSects
    inodeTableLba := inodeTableLba
    inodeTableSects := inodeTableSects
    dataStartLba := inodeTableLba + inodeTableSects
    rootInodeNo := 0
    dirEntrySize := UInt32.ofNat dirEntrySize }

/-- The bitmap byte that bounds the valid bits: bits `0 .. block_bitmap_last_bit` are
cleared. -/
def clearLowBits : Nat → UInt8 → UInt8
  | 0, b => b
  | n + 1, b => clearLowBits n b &&& ~~~((1 : UInt8) <<< UInt8.ofNat n)

/-- The content of the block bitmap, in a buffer that `sys_malloc` zeroed. -/
def formatBlockBitmap (bitLen : UInt32) (buf : Buf) : Except Fault Buf := do
  let buf ← buf.put 0 1 fun _ => buf.data 0 ||| 1
  let lastByte := (bitLen / 8).toNat
  let lastBit := (bitLen % 8).toNat
  let lastSize := 512 - lastByte % 512
  let buf ← buf.put lastByte lastSize fun _ => 0xff
  buf.put lastByte 1 fun _ => clearLowBits (lastBit + 1) (buf.data lastByte)

/-- The inode table: all zero but the root directory's slot. -/
def rootInode (sb : SuperBlock) : Inode :=
  { Inode.zero with iSize := sb.dirEntrySize * 2 }.setSector 0 sb.dataStartLba

def dotEntries (self parent : UInt32) : Bytes := fun k =>
  if k < dirEntrySize then
    DirEntry.bytes ⟨fun j => if j.val = 0 then dot else 0, self, FileType.directory.code⟩ k
  else if k < 2 * dirEntrySize then
    DirEntry.bytes ⟨fun j => if j.val < 2 then dot else 0, parent, FileType.directory.code⟩
      (k - dirEntrySize)
  else 0

def partitionFormat (pad : Bytes) : Kern Unit := do
  let s ← get
  let sb := formatSuperBlock s.part.startLba s.part.secCnt
  ideWrite (s.part.startLba + 1) ⟨512, sb.bytes pad⟩ 1
  let bufSize := if sb.blockBitmapSects ≥ sb.inodeBitmapSects then sb.blockBitmapSects
    else sb.inodeBitmapSects
  let bufSize := (if bufSize ≥ sb.inodeTableSects then bufSize else sb.inodeTableSects) * 512
  match ← sysMallocBuf with
  | none => undefined
  | some bufPtr => do
      let buf ← StateT.lift
        (formatBlockBitmap (blockBitmapBitLen s.part.secCnt) (.zero bufSize.toNat))
      ideWrite sb.blockBitmapLba buf sb.blockBitmapSects.toNat
      ideWrite sb.inodeBitmapLba ⟨bufSize.toNat, fun k => if k = 0 then 1 else 0⟩
        sb.inodeBitmapSects.toNat
      ideWrite sb.inodeTableLba
        ⟨bufSize.toNat, splice (fun _ => 0) 0 inodeSize (rootInode sb).bytes⟩
        sb.inodeTableSects.toNat
      ideWrite sb.dataStartLba ⟨bufSize.toNat, dotEntries 0 0⟩ 1
      sysFreeBuf bufPtr

/-- `sys_malloc` whose `NULL` is answered with `PANIC`. -/
def mallocOrPanic : Kern Unit := do
  match ← sysMallocBuf with
  | none => throw .assert
  | some _ => pure ()

/-- One bitmap is read into a block of its size. -/
def readBitmap (lba sects : UInt32) : Kern Bitmap := do
  mallocOrPanic
  let size := sects * 512
  let b ← ideRead lba (.zero size.toNat) sects.toNat
  pure ⟨size.toNat, b.data⟩

/-- `mount_partition` on the partition with the right name.  `sb_buf` is not checked by
the function, but `memset` asserts that it is not `NULL`. -/
def mountPartition : Kern Unit := do
  mallocOrPanic
  mallocOrPanic
  let s ← get
  let sbBuf ← ideRead (s.part.startLba + 1) (.zero 512) 1
  let sb := SuperBlock.ofBytes sbBuf.data
  let blockBitmap ← readBitmap sb.blockBitmapLba sb.blockBitmapSects
  let inodeBitmap ← readBitmap sb.inodeBitmapLba sb.inodeBitmapSects
  modify fun s => { s with part :=
    { s.part with sb := sb, blockBitmap := blockBitmap, inodeBitmap := inodeBitmap,
                  openInodes := [] } }

/-- The end of `filesys_init`: mount, open the root directory and clear the file
table. -/
def mountAndOpen : Kern Unit := do
  mountPartition
  openRootDir
  modify fun s => { s with fileTable := fun k =>
    if k < maxFileOpen then { s.fileTable k with fdInode := none } else s.fileTable k }

/-- `filesys_init` on a partition without a file system. -/
def filesysInit (pad : Bytes) : Kern Unit := do
  partitionFormat pad
  mountAndOpen

end OsTruth
