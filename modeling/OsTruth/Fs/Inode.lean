/-
`fs/inode.c`.

`inodeOpen` first walks the list of open inodes and then reads the inode from disk;
the second half is a definition of its own, `inodeRead`.
-/
import OsTruth.Fs.Alloc

namespace OsTruth

open ByteString

structure InodePosition where
  twoSec : Bool
  secLba : UInt32
  offSize : UInt32

/-- `inodePos.twoSec ? 2 : 1`, which the source writes as two branches. -/
def InodePosition.secCnt (p : InodePosition) : Nat := if p.twoSec then 2 else 1

def inodeLocate (part : Partition) (inodeNo : UInt32) : Except Fault InodePosition := do
  assert (inodeNo < 4096)
  let inodeTableLba := part.sb.inodeTableLba
  let inodeSize : UInt32 := UInt32.ofNat inodeSize
  let offSize := inodeNo * inodeSize
  let offSec := offSize / 512
  let offSizeInSec := offSize % 512
  let leftInSec := 512 - offSizeInSec
  pure {
    twoSec := leftInSec < inodeSize
    secLba := inodeTableLba + offSec
    offSize := offSizeInSec }

/-- The copy of an inode that is written to disk. -/
def pureInode (i : Inode) : Inode :=
  { i with iOpenCnts := 0, writeDeny := 0, tagPrev := 0, tagNext := 0 }

/-- The bytes `d` go into the slot at `inodePos`, through the sectors that hold it. -/
def writeSlot (inodePos : InodePosition) (ioBuf : Buf) (d : Bytes) : Kern Unit := do
  let inodeBuf ← ideRead inodePos.secLba ioBuf inodePos.secCnt
  let inodeBuf ← StateT.lift (inodeBuf.put inodePos.offSize.toNat inodeSize d)
  ideWrite inodePos.secLba inodeBuf inodePos.secCnt

/-- The number is copied to a `uint8_t` before it is located. -/
def inodeSync (inode : Inode) (ioBuf : Buf) : Kern Unit := do
  let inodeNo : UInt8 := inode.iNo.toUInt8
  let s ← get
  let inodePos ← StateT.lift (inodeLocate s.part inodeNo.toUInt32)
  kassert (inodePos.secLba ≤ s.part.startLba + s.part.secCnt)
  writeSlot inodePos ioBuf (pureInode inode).bytes

/-- The walk of `inodeOpen` over `open_inodes`. -/
def findOpen (inodeNo : UInt32) : List Ptr → Kern (Option Ptr)
  | [] => pure none
  | p :: rest => do
      let i ← loadInode p
      if i.iNo = inodeNo then pure (some p) else findOpen inodeNo rest

/-- `cur->pgdir = NULL; x; cur->pgdir = cur_pagedir_bak`: the memory that `x` takes
or gives back is kernel memory. -/
def inKernel {α : Type} (x : Kern α) : Kern α := do
  let s ← get
  let curPagedirBak := s.cur.pgdir
  set { s with cur := { s.cur with pgdir := false } }
  let r ← x
  modify fun s => { s with cur := { s.cur with pgdir := curPagedirBak } }
  pure r

/-- `list_push(&part->open_inodes, &inode->inode_tag)`. -/
def State.pushOpen (s : State) (p : Ptr) : State :=
  { s with part := { s.part with openInodes := p :: s.part.openInodes } }

/-- `list_remove(&inode->inode_tag)`. -/
def State.removeOpen (s : State) (p : Ptr) : State :=
  { s with part := { s.part with openInodes := s.part.openInodes.erase p } }

/-- The inode that was read is opened, and the buffer goes back. -/
def openLoaded (inodeFound : Ptr) (i : Inode) (inodeBuf : Ptr) : Kern Ptr := do
  storeInode inodeFound { i with iOpenCnts := 1 }
  modify fun s => s.pushOpen inodeFound
  sysFreeBuf inodeBuf
  pure inodeFound

/-- The second half of `inodeOpen`: read the inode into a block of the kernel heap.
Neither `sys_malloc` result is checked, and `memcpy` asserts that its destination is
not `NULL`. -/
def inodeRead (inodeNo : UInt32) : Kern Ptr := do
  let s ← get
  let inodePos ← StateT.lift (inodeLocate s.part inodeNo)
  let inodeFound ← inKernel sysMallocInode
  let inodeBuf ← sysMallocBuf
  match inodeBuf with
  | none => undefined
  | some inodeBuf => do
      let b ← ideRead inodePos.secLba (.zero (512 * inodePos.secCnt)) inodePos.secCnt
      match inodeFound with
      | none => throw .assert
      | some inodeFound =>
          openLoaded inodeFound (Inode.ofBytes b.data inodePos.offSize.toNat) inodeBuf

def inodeOpen (inodeNo : UInt32) : Kern Ptr := do
  let s ← get
  match ← findOpen inodeNo s.part.openInodes with
  | some inodeFound => do
      let i ← loadInode inodeFound
      storeInode inodeFound { i with iOpenCnts := i.iOpenCnts + 1 }
      pure inodeFound
  | none => inodeRead inodeNo

/-- `--inode->i_open_cnts` on an unsigned counter. -/
def decOpenCnts (n : Nat) : Nat := if n = 0 then 2 ^ 32 - 1 else n - 1

def inodeClose (p : Ptr) : Kern Unit := do
  let i ← loadInode p
  let cnts := decOpenCnts i.iOpenCnts
  storeInode p { i with iOpenCnts := cnts }
  when (cnts = 0) do
    modify fun s => s.removeOpen p
    inKernel (sysFreeInode p)

def inodeDelete (inodeNo : UInt32) (ioBuf : Buf) : Kern Unit := do
  kassert (inodeNo < 4096)
  let s ← get
  let inodePos ← StateT.lift (inodeLocate s.part inodeNo)
  writeSlot inodePos ioBuf fun _ => 0

/-- Give one block back: clear its bit and write the bitmap. -/
def blockRelease (blockBitmapIdx : UInt32) : Kern Unit := do
  blockBitmapClear blockBitmapIdx
  bitmapSync blockBitmapIdx .blockBitmap

/-- The blocks `blockIdx .. blockIdx + left - 1` of an inode are given back. -/
def releaseBlocks (allBlocks : BlockArray) : Nat → Nat → Kern Unit
  | 0, _ => pure ()
  | left + 1, blockIdx => do
      when (allBlocks blockIdx ≠ 0) do
        let s ← get
        let blockBitmapIdx := allBlocks blockIdx - s.part.sb.dataStartLba
        kassert (0 < blockBitmapIdx)
        blockRelease blockBitmapIdx
      releaseBlocks allBlocks left (blockIdx + 1)

/-- All blocks of an inode, with the indirect ones when there is a table. -/
def collectBlocks (i : Inode) : Kern BlockArray :=
  if i.sector 12 ≠ 0 then ideReadTable (i.sector 12) (directBlocks i)
  else pure (directBlocks i)

/-- The indirect table is given back when there is one. -/
def releaseTable (i : Inode) : Kern Unit :=
  when (i.sector 12 ≠ 0) do
    let s ← get
    let blockBitmapIdx := i.sector 12 - s.part.sb.dataStartLba
    kassert (0 < blockBitmapIdx)
    blockRelease blockBitmapIdx

/-- The slot on disk is zeroed and the inode closed. -/
def deleteClose (inodeNo : UInt32) (inodeToDel : Ptr) : Kern Unit := do
  match ← sysMallocBuf with
  | none => undefined
  | some ioBuf => do
      inodeDelete inodeNo (.zero 1024)
      sysFreeBuf ioBuf
      inodeClose inodeToDel

/-- `inodeRelease` behind the blocks. -/
def releaseEnd (inodeNo : UInt32) (inodeToDel : Ptr) : Kern Unit := do
  inodeBitmapClear inodeNo
  bitmapSync inodeNo .inodeBitmap
  deleteClose inodeNo inodeToDel

def inodeRelease (inodeNo : UInt32) : Kern Unit := do
  let inodeToDel ← inodeOpen inodeNo
  let i ← loadInode inodeToDel
  kassert (i.iNo = inodeNo)
  let allBlocks ← collectBlocks i
  releaseTable i
  releaseBlocks allBlocks (if i.sector 12 ≠ 0 then 140 else 12) 0
  releaseEnd inodeNo inodeToDel

/-- `inode_init` fills in a block that `sys_malloc` zeroed or a local structure. -/
def inodeInit (inodeNo : UInt32) (newInode : Inode) : Inode :=
  { newInode with
    iNo := inodeNo, iSize := 0, iOpenCnts := 0, writeDeny := 0, iSectors := fun _ => 0 }

end OsTruth
