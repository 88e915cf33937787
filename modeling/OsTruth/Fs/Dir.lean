/-
`fs/dir.c`.

The loops over the blocks of a directory and over the slots of a block count down
the rounds that are left; the number of the block or slot counts up beside it.
-/
import OsTruth.Fs.Inode
import OsTruth.Fs.Path

namespace OsTruth

open ByteString

namespace DirEntry

/-- The string at `filename`, which goes on in `i_no` and `f_type` when `filename` has no
zero.  A name of at most 23 characters compares equal to `filename` under `strcmp` when it is
this string. -/
def name (e : DirEntry) : Str := ((List.range dirEntrySize).map e.bytes).takeWhile (· ≠ 0)

end DirEntry

/-- `sb->dir_entry_size`.  The records of a block are `sizeof(struct dir_entry)` apart;
with another number in the super block the copies below take part of a record or
run past it. -/
def getEntrySize : Kern UInt32 := do
  let s ← get
  if s.part.sb.dirEntrySize.toNat = dirEntrySize then pure s.part.sb.dirEntrySize
  else undefined

def dirEntrysPerSec : Nat := 512 / dirEntrySize

/-- `dir_e + idx`. -/
def slotAt (b : Bytes) (idx : Nat) : DirEntry := DirEntry.ofBytes b (dirEntrySize * idx)

def openRootDir : Kern Unit := do
  let s ← get
  let inode ← inodeOpen s.part.sb.rootInodeNo
  modify fun s => { s with rootDir := { s.rootDir with inode := some inode, dirPos := 0 } }

/-- The result of `sys_malloc` is not checked, and `pdir->inode` is written after
`inode_open` returns. -/
def dirOpen (inodeNo : UInt32) : Kern DirPtr := do
  let pdir ← sysMallocDir
  let inode ← inodeOpen inodeNo
  match pdir with
  | none => undefined
  | some pdir => do
      modify fun s => s.putDir pdir (some { Dir.zero with inode := some inode })
      pure (.heap pdir)

/-! ## Searching -/

/-- The first slot of a block with the given name. -/
def searchSlots (b : Bytes) (name : Str) : Nat → Nat → Option DirEntry
  | 0, _ => none
  | left + 1, idx =>
      if (slotAt b idx).name = name then some (slotAt b idx)
      else searchSlots b name left (idx + 1)

/-- The first slot with the given name in the blocks from `blockIdx` on. -/
def searchBlocks (allBlocks : BlockArray) (name : Str) : Nat → Nat → Kern (Option DirEntry)
  | 0, _ => pure none
  | left + 1, blockIdx =>
      if allBlocks blockIdx = 0 then searchBlocks allBlocks name left (blockIdx + 1)
      else do
        let buf ← ideRead (allBlocks blockIdx) (.zero 512) 1
        match searchSlots buf.data name dirEntrysPerSec 0 with
        | some e => pure (some e)
        | none => searchBlocks allBlocks name left (blockIdx + 1)

/-- `search_dir_entry`, with the entry that it stores in `dir_e` for `true`. -/
def searchDirEntry (pdir : DirPtr) (name : Str) : Kern (Option DirEntry) := do
  match ← sysMallocBuf with
  | none => pure none
  | some allBlocksPtr => do
      let i ← loadInode (← dirInode pdir)
      let allBlocks ← collectBlocks i
      let buf ← sysMallocBuf
      let _ ← getEntrySize
      match buf with
      | none => undefined
      | some bufPtr => do
          let r ← searchBlocks allBlocks name 140 0
          sysFreeBuf bufPtr
          sysFreeBuf allBlocksPtr
          pure r

def dirClose : DirPtr → Kern Unit
  | .root => pure ()
  | .heap p => do
      inodeClose (← dirInode (.heap p))
      sysFreeDir p

/-! ## Adding an entry -/

/-- `create_dir_entry` on a zeroed `struct dir_entry`. -/
def createDirEntry (filename : Str) (inodeNo : UInt32) (fileType : FileType) :
    Except Fault DirEntry := do
  assert (filename.length ≤ maxFileNameLen)
  .ok {
    filename := fun k => filename.getD k.val 0
    iNo := inodeNo
    fType := fileType.code }

/-- The first slot of a block whose type is `FT_UNKNOWN`. -/
def freeSlot (b : Bytes) : Nat → Nat → Option Nat
  | 0, _ => none
  | left + 1, idx =>
      if (slotAt b idx).fType = FileType.unknown.code then some idx
      else freeSlot b left (idx + 1)

/-- `dir_inode->i_size += dir_entry_size`. -/
def growDir (dirInode : Ptr) : Kern Unit := do
  let entrySize ← getEntrySize
  let i ← loadInode dirInode
  storeInode dirInode { i with iSize := i.iSize + entrySize }

/-- `block_bitmap_alloc` and the synchronisation of the bit.  `block_bitmap_idx` is an
`int32_t`. -/
def allocAndSync : Kern UInt32 := do
  let blockLba ← blockBitmapAlloc
  if blockLba = -1 then pure blockLba
  else do
    let s ← get
    let blockBitmapIdx := blockLba - s.part.sb.dataStartLba
    kassert (blockBitmapIdx ≠ -1)
    bitmapSync blockBitmapIdx .blockBitmap
    pure blockLba

/-- Hook the new block `blockLba` into the block map as number `blockIdx`; the result is
the block that number `blockIdx` then is.  For number 12 the new block becomes the
indirect table and another block is allocated.  The table that is written is
`all_blocks + 12`, which is never read from disk. -/
def hookBlock (dirInode : Ptr) (allBlocks : BlockArray) (blockIdx : Nat) (blockLba : UInt32) :
    Kern (Option UInt32) :=
  if blockIdx < 12 then do
    let i ← loadInode dirInode
    storeInode dirInode (i.setSector blockIdx blockLba)
    pure (some blockLba)
  else if blockIdx = 12 then do
    let i ← loadInode dirInode
    storeInode dirInode (i.setSector 12 blockLba)
    let second ← allocAndSync
    if second = -1 then do
      let s ← get
      blockBitmapClear (blockLba - s.part.sb.dataStartLba)
      let i ← loadInode dirInode
      storeInode dirInode (i.setSector 12 0)
      pure none
    else do
      ideWriteTable blockLba fun k => if k = 12 then second else allBlocks k
      pure (some second)
  else do
    let i ← loadInode dirInode
    ideWriteTable (i.sector 12) fun k => if k = blockIdx then blockLba else allBlocks k
    pure (some blockLba)

/-- The entry goes into the first slot of a new block. -/
def fillBlock (dirInode : Ptr) (pDe : DirEntry) (ioBuf : Buf) (lba : UInt32) : Kern Bool := do
  let ioBuf ← StateT.lift (ioBuf.put 0 512 fun _ => 0)
  let ioBuf ← StateT.lift (ioBuf.put 0 dirEntrySize pDe.bytes)
  ideWrite lba ioBuf 1
  growDir dirInode
  pure true

/-- The round of `syncBlocks` at a block that does not exist. -/
def syncNewBlock (dirInode : Ptr) (pDe : DirEntry) (ioBuf : Buf) (allBlocks : BlockArray)
    (blockIdx : Nat) : Kern Bool := do
  let blockLba ← allocAndSync
  if blockLba = -1 then pure false
  else do
    match ← hookBlock dirInode allBlocks blockIdx blockLba with
    | none => pure false
    | some lba => fillBlock dirInode pDe ioBuf lba

/-- The loop of `syncDirEntry` over the blocks from `blockIdx` on. -/
def syncBlocks (dirInode : Ptr) (pDe : DirEntry) (allBlocks : BlockArray) :
    Nat → Nat → Buf → Kern Bool
  | 0, _, _ => pure false
  | left + 1, blockIdx, ioBuf =>
      if allBlocks blockIdx = 0 then syncNewBlock dirInode pDe ioBuf allBlocks blockIdx
      else do
        let ioBuf ← ideRead (allBlocks blockIdx) ioBuf 1
        match freeSlot ioBuf.data dirEntrysPerSec 0 with
        | some idx => do
            let ioBuf ← StateT.lift (ioBuf.put (dirEntrySize * idx) dirEntrySize pDe.bytes)
            ideWrite (allBlocks blockIdx) ioBuf 1
            growDir dirInode
            pure true
        | none => syncBlocks dirInode pDe allBlocks left (blockIdx + 1) ioBuf

/-- `sync_dir_entry`.  Only the direct blocks are copied to `all_blocks`. -/
def syncDirEntry (parentDir : DirPtr) (pDe : DirEntry) (ioBuf : Buf) : Kern Bool := do
  let dirInode ← dirInode parentDir
  let i ← loadInode dirInode
  let entrySize ← getEntrySize
  kassert (i.iSize % entrySize = 0)
  syncBlocks dirInode pDe (directBlocks i) 140 0 ioBuf

/-! ## Deleting an entry -/

/-- The three variables that the loop of `deleteDirEntry` over the slots of a block
sets. -/
structure SlotScan where
  isDirFirstBlock : Bool
  dirEntryCnt : Nat
  dirEntryFound : Option Nat

/-- One slot: `.` marks the first block, and any other name but `..` counts. -/
def scanSlot (inodeNo : UInt32) (e : DirEntry) (idx : Nat) (r : SlotScan) :
    Except Fault SlotScan :=
  if e.fType = FileType.unknown.code then .ok r
  else if e.name = [dot] then .ok { r with isDirFirstBlock := true }
  else if e.name = [dot, dot] then .ok r
  else if e.iNo = inodeNo then do
    assert (r.dirEntryFound = none)
    .ok { r with dirEntryCnt := r.dirEntryCnt + 1, dirEntryFound := some idx }
  else .ok { r with dirEntryCnt := r.dirEntryCnt + 1 }

def scanSlots (b : Bytes) (inodeNo : UInt32) : Nat → Nat → SlotScan → Except Fault SlotScan
  | 0, _, r => .ok r
  | left + 1, idx, r => do
      let r ← scanSlot inodeNo (slotAt b idx) idx r
      scanSlots b inodeNo left (idx + 1) r

/-- How many of the blocks from `blockIdx` on exist. -/
def countBlocks (allBlocks : BlockArray) : Nat → Nat → Nat
  | 0, _ => 0
  | left + 1, blockIdx =>
      (if allBlocks blockIdx ≠ 0 then 1 else 0) + countBlocks allBlocks left (blockIdx + 1)

/-- Take block `blockIdx` out of the block map, and the indirect table too when that was
its last block. -/
def unhookBlock (dirInode : Ptr) (allBlocks : BlockArray) (blockIdx : Nat) : Kern Unit :=
  if blockIdx < 12 then do
    let i ← loadInode dirInode
    storeInode dirInode (i.setSector blockIdx 0)
  else do
    let indirectBlocks := countBlocks allBlocks 128 12
    kassert (indirectBlocks ≥ 1)
    let i ← loadInode dirInode
    if indirectBlocks > 1 then
      ideWriteTable (i.sector 12) fun k => if k = blockIdx then 0 else allBlocks k
    else do
      let s ← get
      blockRelease (i.sector 12 - s.part.sb.dataStartLba)
      storeInode dirInode (i.setSector 12 0)

/-- A block that holds only the entry in slot `found` is given back, unless it is the
directory's first; in any other block the slot is zeroed. -/
def clearFound (dirInode : Ptr) (allBlocks : BlockArray) (blockIdx : Nat) (ioBuf : Buf)
    (r : SlotScan) (found : Nat) : Kern Unit :=
  if r.dirEntryCnt = 1 ∧ r.isDirFirstBlock = false then do
    let s ← get
    blockRelease (allBlocks blockIdx - s.part.sb.dataStartLba)
    unhookBlock dirInode allBlocks blockIdx
  else do
    let ioBuf ← StateT.lift (ioBuf.put (dirEntrySize * found) dirEntrySize fun _ => 0)
    ideWrite (allBlocks blockIdx) ioBuf 1

/-- The entry in slot `found` of block `blockIdx` goes. -/
def deleteFound (dirInode : Ptr) (allBlocks : BlockArray) (blockIdx : Nat) (ioBuf : Buf)
    (r : SlotScan) (found : Nat) : Kern Unit := do
  kassert (r.dirEntryCnt ≥ 1)
  clearFound dirInode allBlocks blockIdx ioBuf r found
  let entrySize ← getEntrySize
  let i ← loadInode dirInode
  kassert (i.iSize ≥ entrySize)
  storeInode dirInode { i with iSize := i.iSize - entrySize }
  let i ← loadInode dirInode
  inodeSync i (.zero 1024)

/-- The loop of `deleteDirEntry` over the blocks from `blockIdx` on. -/
def deleteBlocks (dirInode : Ptr) (inodeNo : UInt32) (allBlocks : BlockArray) :
    Nat → Nat → Kern Bool
  | 0, _ => pure false
  | left + 1, blockIdx =>
      if allBlocks blockIdx = 0 then deleteBlocks dirInode inodeNo allBlocks left (blockIdx + 1)
      else do
        let ioBuf ← ideRead (allBlocks blockIdx) (.zero 1024) 1
        let r ← StateT.lift (scanSlots ioBuf.data inodeNo dirEntrysPerSec 0 ⟨false, 0, none⟩)
        match r.dirEntryFound with
        | none => deleteBlocks dirInode inodeNo allBlocks left (blockIdx + 1)
        | some found => do
            deleteFound dirInode allBlocks blockIdx ioBuf r found
            pure true

/-- `delete_dir_entry`, whose `io_buf` has two sectors at every call. -/
def deleteDirEntry (pdir : DirPtr) (inodeNo : UInt32) : Kern Bool := do
  let dirInode ← dirInode pdir
  let i ← loadInode dirInode
  let allBlocks ← collectBlocks i
  let _ ← getEntrySize
  deleteBlocks dirInode inodeNo allBlocks 140 0

def dirIsEmpty (dir : DirPtr) : Kern Bool := do
  let i ← loadInode (← dirInode dir)
  let s ← get
  pure (decide (i.iSize = s.part.sb.dirEntrySize * 2))

/-- What the first loop of `dirRemove` asserts: no block but the first. -/
def OneBlock (i : Inode) : Prop := ∀ k, k < 12 → i.sector (k + 1) = 0

instance (i : Inode) : Decidable (OneBlock i) := Nat.decidableBallLT 12 _

/-- `dir_remove`.  The result of `delete_dir_entry` is not used. -/
def dirRemove (parentDir childDir : DirPtr) : Kern Int := do
  let childDirInode ← dirInode childDir
  let i ← loadInode childDirInode
  kassert (OneBlock i)
  match ← sysMallocBuf with
  | none => pure (-1)
  | some ioBuf => do
      let _ ← deleteDirEntry parentDir i.iNo
      let i ← loadInode childDirInode
      inodeRelease i.iNo
      sysFreeBuf ioBuf
      pure 0

/-! ## Reading the entries one by one -/

/-- The slots of one block in `dirRead`: the entry at `dir_pos`, or how far the count
of live entries got. -/
def readSlots (b : Bytes) (entrySize dirPos : UInt32) :
    Nat → Nat → UInt32 → Except Fault (Option DirEntry × UInt32)
  | 0, _, pos => .ok (none, pos)
  | left + 1, idx, pos =>
      if (slotAt b idx).fType = FileType.unknown.code then
        readSlots b entrySize dirPos left (idx + 1) pos
      else if pos < dirPos then
        readSlots b entrySize dirPos left (idx + 1) (pos + entrySize)
      else do
        assert (pos = dirPos)
        .ok (some (slotAt b idx), pos)

/-- The loop of `dirRead` over the blocks from `blockIdx` on.  The second result is the
last content of `dir_buf`. -/
def readBlocks (allBlocks : BlockArray) (entrySize dirPos iSize : UInt32) :
    Nat → Nat → UInt32 → Bytes → Kern (Option DirEntry × Bytes)
  | 0, _, _, dirBuf => pure (none, dirBuf)
  | left + 1, blockIdx, pos, dirBuf =>
      if dirPos ≥ iSize then pure (none, dirBuf)
      else if allBlocks blockIdx = 0 then
        readBlocks allBlocks entrySize dirPos iSize left (blockIdx + 1) pos dirBuf
      else do
        let buf ← ideRead (allBlocks blockIdx) (.zero 512) 1
        let (found, pos) ←
          StateT.lift (readSlots buf.data entrySize dirPos dirEntrysPerSec 0 pos)
        match found with
        | some e => pure (some e, buf.data)
        | none => readBlocks allBlocks entrySize dirPos iSize left (blockIdx + 1) pos buf.data

def storeDir : DirPtr → Dir → Kern Unit
  | .root, d => modify fun s => { s with rootDir := d }
  | .heap p, d => modify fun s => s.putDir p (some d)

/-- `dir_read`, with `none` for `NULL`. -/
def dirRead (dir : DirPtr) : Kern (Option DirEntry) := do
  let i ← loadInode (← dirInode dir)
  let d ← loadDir dir
  let allBlocks ← collectBlocks i
  let entrySize ← getEntrySize
  let blockCnt := if i.sector 12 ≠ 0 then 140 else 12
  let (found, dirBuf) ←
    readBlocks allBlocks entrySize d.dirPos i.iSize blockCnt 0 0 d.dirBuf
  match found with
  | some e => do
      storeDir dir { d with dirPos := d.dirPos + entrySize, dirBuf := dirBuf }
      pure (some e)
  | none => do
      storeDir dir { d with dirBuf := dirBuf }
      pure none

end OsTruth
