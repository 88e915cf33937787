/-
`file_write` and `file_read` of `fs/file.c`.

A caller's buffer is its bytes from the start of the buffer on.  `file_read` gives
back the stores that it made relative to the start of the buffer, so that a store
outside the bytes that it reports is seen.
-/
import OsTruth.Fs.File

namespace OsTruth

open ByteString

/-- The `struct file` and its inode, which both functions dereference. -/
def fileInode (fdIdx : Nat) : Kern Ptr := do
  let s ← get
  match (s.fileTable fdIdx).fdInode with
  | none => undefined
  | some p => pure p

/-- `all_blocks[k] = v`. -/
def BlockArray.set (allBlocks : BlockArray) (k : Nat) (v : UInt32) : BlockArray :=
  fun j => if j = k then v else allBlocks j

def noBlocks : BlockArray := fun _ => 0

/-! ## Writing -/

/-- A new direct block is entered in the inode, where no block may be yet. -/
def setDirect (p : Ptr) (blockIdx : Nat) (blockLba : UInt32) : Kern Unit :=
  when (blockIdx < 12) do
    let i ← loadInode p
    kassert (i.sector blockIdx = 0)
    storeInode p (i.setSector blockIdx blockLba)

/-- The loop that allocates the blocks from `blockIdx` on.  The source has it three
times, with the case that `blockIdx` cannot be in left out.  `none` is `return -1`. -/
def growLoop (p : Ptr) : Nat → Nat → BlockArray → Kern (Option BlockArray)
  | 0, _, allBlocks => pure (some allBlocks)
  | left + 1, blockIdx, allBlocks => do
      let blockLba ← blockBitmapAlloc
      if blockLba = -1 then pure none
      else do
        setDirect p blockIdx blockLba
        let s ← get
        bitmapSync (blockLba - s.part.sb.dataStartLba) .blockBitmap
        growLoop p left (blockIdx + 1) (allBlocks.set blockIdx blockLba)

/-- The blocks that a write needs.  When the old data ends in a direct block and the new
data in an indirect one, the source reads `block_idx` before any assignment to it.  When a
sum that wraps ends in a direct block, `i_sectors` may be read behind its 13 entries. -/
def gatherWrite (p : Ptr) (hasUsed willUse : Nat) : Kern (Option BlockArray) := do
  let i ← loadInode p
  if willUse = hasUsed then
    if willUse ≤ 12 then pure (some (noBlocks.set (hasUsed - 1) (i.sector (hasUsed - 1))))
    else do
      kassert (i.sector 12 ≠ 0)
      let allBlocks ← ideReadTable (i.sector 12) noBlocks
      pure (some allBlocks)
  else if willUse ≤ 12 then
    if 13 < hasUsed then undefined
    else do
      kassert (i.sector (hasUsed - 1) ≠ 0)
      growLoop p (willUse - hasUsed) hasUsed (noBlocks.set (hasUsed - 1) (i.sector (hasUsed - 1)))
  else if hasUsed ≤ 12 then undefined
  else do
    kassert (i.sector 12 ≠ 0)
    let allBlocks ← ideReadTable (i.sector 12) noBlocks
    match ← growLoop p (willUse - hasUsed) hasUsed allBlocks with
    | none => pure none
    | some allBlocks => do
        ideWriteTable (i.sector 12) allBlocks
        pure (some allBlocks)

/-- The first block of a file that was never written.  `false` is `return -1`. -/
def firstBlock (p : Ptr) : Kern Bool := do
  let i ← loadInode p
  if i.sector 0 = 0 then do
    let blockLba ← blockBitmapAlloc
    if blockLba = -1 then pure false
    else do
      storeInode p (i.setSector 0 blockLba)
      let s ← get
      let blockBitmapIdx := blockLba - s.part.sb.dataStartLba
      kassert (0 < blockBitmapIdx)
      bitmapSync blockBitmapIdx .blockBitmap
      pure true
  else pure true

def State.advance (s : State) (fdIdx : Nat) (n : UInt32) : State :=
  s.setFile fdIdx { s.fileTable fdIdx with fdPos := (s.fileTable fdIdx).fdPos + n }

/-- The copy loop, with `srcOff` the bytes of `src` that are behind and `sizeLeft` the
variable `size_left`, which the loop never lowers.  A round that does not end the loop
ends on a block boundary, so `all_blocks` is left before the rounds run out. -/
def writeLoop (p : Ptr) (fdIdx : Nat) (src : Bytes) (count sizeLeft : UInt32)
    (allBlocks : BlockArray) : Nat → Nat → UInt32 → Bool → Kern UInt32
  | 0, _, _, _ => undefined
  | left + 1, srcOff, bytesWritten, firstWriteBlock =>
      if bytesWritten < count then do
        let i ← loadInode p
        let secIdx := (i.iSize / 512).toNat
        if 140 ≤ secIdx then undefined
        else do
          let secLba := allBlocks secIdx
          let secOffBytes := i.iSize % 512
          let secLeftBytes := 512 - secOffBytes
          let chunkSize := if sizeLeft < secLeftBytes then sizeLeft else secLeftBytes
          let ioBuf ← if firstWriteBlock then ideRead secLba (.zero 512) 1
            else pure (.zero 512)
          let ioBuf ← StateT.lift
            (ioBuf.put secOffBytes.toNat chunkSize.toNat (view src srcOff))
          ideWrite secLba ioBuf 1
          storeInode p { i with iSize := i.iSize + chunkSize }
          modify fun s => s.advance fdIdx chunkSize
          writeLoop p fdIdx src count sizeLeft allBlocks left (srcOff + chunkSize.toNat)
            (bytesWritten - chunkSize) false
      else pure bytesWritten

/-- `file_write` once both buffers are there, up to the copy loop.  The buffers are not given
back on the paths that return `-1`. -/
def writeBlocks (p : Ptr) (count : UInt32) (copy : BlockArray → Kern UInt32) : Kern UInt32 := do
  if ← firstBlock p then do
    let i ← loadInode p
    let fileHasUsedBlocks := (i.iSize / 512 + 1).toNat
    let fileWillUseBlocks := ((i.iSize + count) / 512 + 1).toNat
    kassert (fileWillUseBlocks ≤ 140)
    match ← gatherWrite p fileHasUsedBlocks fileWillUseBlocks with
    | none => pure (-1)
    | some allBlocks => copy allBlocks
  else pure (-1)

/-- `file_read` and `file_write` give both buffers back when they come to their end. -/
def freeBuffers {α : Type} (allBlocks ioBuf : Ptr) (retval : α) : Kern α := do
  sysFreeBuf allBlocks
  sysFreeBuf ioBuf
  pure retval

/-- `file_write` from `fd_pos = i_size - 1` on. -/
def writeCopy (p : Ptr) (fdIdx : Nat) (buf : Bytes) (count : UInt32) (ioBuf allBlocksPtr : Ptr)
    (allBlocks : BlockArray) : Kern UInt32 := do
  let i ← loadInode p
  modify fun s => s.setFile fdIdx { s.fileTable fdIdx with fdPos := i.iSize - 1 }
  let bytesWritten ← writeLoop p fdIdx buf count count allBlocks 141 0 0 true
  let i ← loadInode p
  inodeSync i (.zero 512)
  freeBuffers allBlocksPtr ioBuf bytesWritten

def writeBody (p : Ptr) (fdIdx : Nat) (buf : Bytes) (count : UInt32) (ioBuf allBlocksPtr : Ptr) :
    Kern UInt32 :=
  writeBlocks p count (writeCopy p fdIdx buf count ioBuf allBlocksPtr)

/-- `file_write` up to the point where both buffers are there. -/
def writeBuffers (fdIdx : Nat) (count : UInt32) (body : Ptr → Ptr → Ptr → Kern UInt32) :
    Kern UInt32 := do
  let p ← fileInode fdIdx
  let i ← loadInode p
  if i.iSize + count > 512 * 140 then pure (-1)
  else do
    match ← sysMallocBuf with
    | none => pure (-1)
    | some ioBuf => do
        match ← sysMallocBuf with
        | none => pure (-1)
        | some allBlocksPtr => body p ioBuf allBlocksPtr

def fileWrite (fdIdx : Nat) (buf : Bytes) (count : UInt32) : Kern UInt32 :=
  writeBuffers fdIdx count fun p ioBuf allBlocksPtr => writeBody p fdIdx buf count ioBuf allBlocksPtr

/-- `writeCopy` when `buf` is `NULL`: the first `memcpy` of the copy loop asserts that its
source is not. -/
def writeCopyNull (p : Ptr) (fdIdx : Nat) (count : UInt32) (ioBuf allBlocksPtr : Ptr)
    (allBlocks : BlockArray) : Kern UInt32 := do
  let i ← loadInode p
  modify fun s => s.setFile fdIdx { s.fileTable fdIdx with fdPos := i.iSize - 1 }
  let secIdx := (i.iSize / 512).toNat
  if 0 < count then
    if 140 ≤ secIdx then undefined
    else do
      let _ ← ideRead (allBlocks secIdx) (.zero 512) 1
      throw .assert
  else do
    inodeSync i (.zero 512)
    freeBuffers allBlocksPtr ioBuf 0

/-- `file_write` when `buf` is `NULL`. -/
def fileWriteNull (fdIdx : Nat) (count : UInt32) : Kern UInt32 :=
  writeBuffers fdIdx count fun p ioBuf allBlocksPtr =>
    writeBlocks p count (writeCopyNull p fdIdx count ioBuf allBlocksPtr)

/-- `file_write(&file_table[fdIdx], buf, count)`. -/
def writeFile (fdIdx : Nat) (buf : Option Bytes) (count : UInt32) : Kern UInt32 :=
  match buf with
  | none => fileWriteNull fdIdx count
  | some src => fileWrite fdIdx src count

/-! ## Reading -/

/-- The bytes that were stored, by their distance from the start of the buffer. -/
abbrev Stores := Nat → Option UInt8

/-- `memcpy(buf_dst, d, len)`. -/
def Stores.put (out : Stores) (bufDst len : Nat) (d : Bytes) : Stores := fun k =>
  if bufDst ≤ k ∧ k < bufDst + len then some (d (k - bufDst)) else out k

/-- The entries `blockIdx .. blockIdx + left - 1` of `all_blocks` get the value `v k`. -/
def copySectors (v : Nat → UInt32) : Nat → Nat → BlockArray → BlockArray
  | 0, _, allBlocks => allBlocks
  | left + 1, blockIdx, allBlocks =>
      copySectors v left (blockIdx + 1) (allBlocks.set blockIdx (v blockIdx))

/-- The blocks that a read needs.  Between two direct blocks the loop starts at the last
one; from a direct to an indirect block the direct entries all get `i_sectors[12]`; from
an indirect block to another, or to number 12, nothing is entered. -/
def gatherRead (i : Inode) (startIdx endIdx : Nat) : Kern BlockArray :=
  if startIdx = endIdx then
    if endIdx < 12 then pure (noBlocks.set endIdx (i.sector endIdx))
    else ideReadTable (i.sector 12) noBlocks
  else if endIdx < 12 then
    pure (copySectors i.sector (endIdx + 1 - endIdx) endIdx noBlocks)
  else if startIdx < 12 ∧ endIdx > 12 then do
    let allBlocks := copySectors (fun _ => i.sector 12) (12 - startIdx) startIdx noBlocks
    kassert (i.sector 12 ≠ 0)
    ideReadTable (i.sector 12) allBlocks
  else pure noBlocks

/-- The copy loop.  `buf_dst` is a `uint32_t*`, so adding the chunk size moves it by four
times as many bytes. -/
def readLoop (fdIdx : Nat) (allBlocks : BlockArray) (size : UInt32) :
    Nat → Nat → UInt32 → UInt32 → Stores → Kern (UInt32 × Stores)
  | 0, _, _, _, _ => undefined
  | left + 1, bufDst, bytesRead, sizeLeft, out =>
      if bytesRead < size then do
        let s ← get
        let fdPos := (s.fileTable fdIdx).fdPos
        let secIdx := (fdPos / 512).toNat
        if 140 ≤ secIdx then undefined
        else do
          let secOffBytes := fdPos % 512
          let secLeftBytes := 512 - secOffBytes
          let chunkSize := if sizeLeft < secLeftBytes then sizeLeft else secLeftBytes
          let ioBuf ← ideRead (allBlocks secIdx) (.zero 512) 1
          let out := out.put bufDst chunkSize.toNat (view ioBuf.data secOffBytes.toNat)
          modify fun s => s.advance fdIdx chunkSize
          readLoop fdIdx allBlocks size left (bufDst + 4 * chunkSize.toNat)
            (bytesRead + chunkSize) (sizeLeft - chunkSize) out
      else pure (bytesRead, out)

/-- `size` in `fileRead`. -/
def readSize (fdPos iSize count : UInt32) : UInt32 :=
  if fdPos + count > iSize then iSize - fdPos else count

/-- `file_read` once there is memory for `all_blocks`.  Without memory for `io_buf` it
goes on, and the first `memset` or the last `sys_free` asserts that the pointer is not
`NULL`. -/
def readBody (i : Inode) (fdIdx : Nat) (fdPos size : UInt32) (ioBuf : Option Ptr)
    (allBlocksPtr : Ptr) : Kern (UInt32 × Stores) := do
  let startIdx := (fdPos / 512).toNat
  let endIdx := ((fdPos + size) / 512).toNat
  kassert (startIdx < 139 ∧ endIdx < 139)
  let allBlocks ← gatherRead i startIdx endIdx
  match ioBuf with
  | none => throw .assert
  | some ioBufPtr => do
      let r ← readLoop fdIdx allBlocks size 141 0 0 size (fun _ => none)
      freeBuffers allBlocksPtr ioBufPtr r

/-- `file_read` once the size is known. -/
def readBuffers (i : Inode) (fdIdx : Nat) (fdPos size : UInt32) : Kern (UInt32 × Stores) := do
  let ioBuf ← sysMallocBuf
  match ← sysMallocBuf with
  | none => pure (-1, fun _ => none)
  | some allBlocksPtr => readBody i fdIdx fdPos size ioBuf allBlocksPtr

def fileRead (fdIdx : Nat) (count : UInt32) : Kern (UInt32 × Stores) := do
  let p ← fileInode fdIdx
  let i ← loadInode p
  let s ← get
  let fdPos := (s.fileTable fdIdx).fdPos
  let size := readSize fdPos i.iSize count
  if fdPos + count > i.iSize ∧ size = 0 then pure (-1, fun _ => none)
  else readBuffers i fdIdx fdPos size

end OsTruth
