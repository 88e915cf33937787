/-
The data model of the file system and the state that its functions run on.

The structures are those of `fs/inode.h`, `fs/dir.h`, `fs/file.h`, `fs/fs.h`,
`fs/super_block.h`, `device/ide.h` and `thread/thread.h`, with the fields that a
modelled function reads.  There is one mounted partition, `cur_part`, so the
`part` argument of the source is the field `part` of the state.

A pointer names a heap block by a number that is never used again, and says
whether the block lies in the kernel heap or in the heap of the running process.
`State` is what the running task can reach, so a pointer into the heap of another
process reaches nothing.  `sys_malloc` succeeds or fails as `supply` says.
-/
import OsTruth.Lib.Bitmap
import OsTruth.Library.Fallible

namespace OsTruth

open ByteString

/-! ## Structures -/

/-- `struct inode`.  A reference count is not taken modulo `2 ^ 32`: each reference
is held by a heap block or a table entry. -/
structure Inode where
  iNo : UInt32
  iSize : UInt32
  iOpenCnts : Nat
  writeDeny : UInt32
  iSectors : Fin 13 → UInt32
  tagPrev : UInt32
  tagNext : UInt32

/-- `sizeof(struct inode)`: 19 words. -/
def inodeSize : Nat := 76

namespace Inode

def zero : Inode := ⟨0, 0, 0, 0, fun _ => 0, 0, 0⟩

def sector (i : Inode) (k : Nat) : UInt32 := if h : k < 13 then i.iSectors ⟨k, h⟩ else 0

def setSector (i : Inode) (k : Nat) (v : UInt32) : Inode :=
  { i with iSectors := fun j => if j.val = k then v else i.iSectors j }

/-- Word `j` of the packed structure. -/
def word (i : Inode) (j : Nat) : UInt32 :=
  if j = 0 then i.iNo
  else if j = 1 then i.iSize
  else if j = 2 then UInt32.ofNat i.iOpenCnts
  else if j = 3 then i.writeDeny
  else if j < 17 then i.sector (j - 4)
  else if j = 17 then i.tagPrev
  else i.tagNext

def bytes (i : Inode) : Bytes := ofWords i.word

def ofBytes (b : Bytes) (off : Nat) : Inode where
  iNo := wordAt b off
  iSize := wordAt b (off + 4)
  iOpenCnts := (wordAt b (off + 8)).toNat
  writeDeny := wordAt b (off + 12)
  iSectors k := wordAt b (off + 16 + 4 * k.val)
  tagPrev := wordAt b (off + 68)
  tagNext := wordAt b (off + 72)

end Inode

inductive FileType
  | unknown
  | regular
  | directory
  deriving DecidableEq, Repr

/-- The number of `enum file_types` that is stored on disk. -/
def FileType.code : FileType → UInt32
  | .unknown => 0
  | .regular => 1
  | .directory => 2

structure DirEntry where
  filename : Fin 16 → UInt8
  iNo : UInt32
  fType : UInt32

def dirEntrySize : Nat := 24

namespace DirEntry

def bytes (e : DirEntry) : Bytes := fun k =>
  if h : k < 16 then e.filename ⟨k, h⟩
  else ofWords (fun j => if j = 4 then e.iNo else e.fType) k

def ofBytes (b : Bytes) (off : Nat) : DirEntry where
  filename k := b (off + k.val)
  iNo := wordAt b (off + 16)
  fType := wordAt b (off + 20)

end DirEntry

structure SuperBlock where
  magic : UInt32
  secCnt : UInt32
  inodeCnt : UInt32
  partLbaBase : UInt32
  blockBitmapLba : UInt32
  blockBitmapSects : UInt32
  inodeBitmapLba : UInt32
  inodeBitmapSects : UInt32
  inodeTableLba : UInt32
  inodeTableSects : UInt32
  dataStartLba : UInt32
  rootInodeNo : UInt32
  dirEntrySize : UInt32

structure Ptr where
  user : Bool
  id : Nat
  deriving DecidableEq, Repr

/-- `open_inodes` is the sequence of the inodes that are linked, head first. -/
structure Partition where
  startLba : UInt32
  secCnt : UInt32
  sb : SuperBlock
  blockBitmap : Bitmap
  inodeBitmap : Bitmap
  openInodes : List Ptr

structure Dir where
  inode : Option Ptr
  dirPos : UInt32
  dirBuf : Bytes

def Dir.zero : Dir := ⟨none, 0, fun _ => 0⟩

/-- A `struct dir*`: the static `root_dir` or a heap block. -/
inductive DirPtr
  | root
  | heap (p : Ptr)
  deriving DecidableEq, Repr

structure File where
  fdPos : UInt32
  fdFlag : UInt32
  fdInode : Option Ptr

def maxFileOpen : Nat := 32
def maxFilesOpenPerProc : Nat := 8

/-- The fields of `struct task_struct` that file functions use.  `pgdir` says that
the page directory is not `NULL`: the task is a process and not a kernel thread. -/
structure Task where
  pgdir : Bool
  name : List UInt8
  fdTable : Nat → Int
  cwdInodeNr : UInt32

structure SearchRecord where
  searchedPath : List UInt8
  parentDir : DirPtr
  fileType : FileType

structure State where
  disk : Bytes
  part : Partition
  inodes : Ptr → Option Inode
  dirs : Ptr → Option Dir
  bufs : List Ptr
  next : Nat
  supply : Nat → Bool
  rootDir : Dir
  fileTable : Nat → File
  cur : Task

abbrev Kern := StateT State (Except Fault)

/-! ## Failing -/

def kassert (c : Prop) [Decidable c] : Kern Unit := StateT.lift (assert c)

/-- An access without meaning. -/
def undefined {α : Type} : Kern α := throw .undefined

/-- An `if` without an `else` branch. -/
def when (c : Prop) [Decidable c] (x : Kern Unit) : Kern Unit := if c then x else pure ()

/-! ## Buffers -/

structure Buf where
  size : Nat
  data : Bytes

namespace Buf

def zero (size : Nat) : Buf := ⟨size, fun _ => 0⟩

/-- `memcpy(buf + off, d, len)`, or `memset` for constant `d`. -/
def put (b : Buf) (off len : Nat) (d : Bytes) : Except Fault Buf :=
  if off + len ≤ b.size then .ok { b with data := splice b.data off len d }
  else .error .undefined

end Buf

/-! ## Disk -/

def maxLba : UInt32 := 80 * 1024 * 1024 / 512 - 1

def sectorOff (lba : UInt32) : Nat := 512 * lba.toNat

/-- `select_sector` asserts that the start of each group of 256 sectors is in range. -/
def Selectable (lba : UInt32) (secCnt : Nat) : Prop :=
  0 < secCnt ∧ ∀ k, k < (secCnt + 255) / 256 → lba + UInt32.ofNat (256 * k) ≤ maxLba

instance (lba : UInt32) (secCnt : Nat) : Decidable (Selectable lba secCnt) :=
  inferInstanceAs (Decidable (_ ∧ _))

/-- `ide_read(hd, lba, buf, sec_cnt)`. -/
def ideRead (lba : UInt32) (buf : Buf) (secCnt : Nat) : Kern Buf := do
  kassert (Selectable lba secCnt)
  let s ← get
  StateT.lift (buf.put 0 (512 * secCnt) (view s.disk (sectorOff lba)))

/-- The state with `len` bytes written to disk at offset `off`. -/
def State.store (s : State) (off len : Nat) (d : Bytes) : State :=
  { s with disk := splice s.disk off len d }

/-- `ide_write(hd, lba, buf, sec_cnt)`. -/
def ideWrite (lba : UInt32) (buf : Buf) (secCnt : Nat) : Kern Unit := do
  kassert (Selectable lba secCnt)
  if 512 * secCnt ≤ buf.size then
    modify fun s => s.store (sectorOff lba) (512 * secCnt) buf.data
  else undefined

/-- An array `uint32_t all_blocks[140]`. -/
abbrev BlockArray := Nat → UInt32

/-- `all_blocks` after the twelve direct blocks are copied into a zero array. -/
def directBlocks (i : Inode) : BlockArray := fun k => if k < 12 then i.sector k else 0

/-- `ide_read(hd, lba, all_blocks + 12, 1)`. -/
def ideReadTable (lba : UInt32) (allBlocks : BlockArray) : Kern BlockArray := do
  let b ← ideRead lba ⟨512, ofWords fun j => allBlocks (12 + j)⟩ 1
  pure fun k => if k < 12 then allBlocks k else wordAt b.data (4 * (k - 12))

/-- `ide_write(hd, lba, all_blocks + 12, 1)`. -/
def ideWriteTable (lba : UInt32) (allBlocks : BlockArray) : Kern Unit :=
  ideWrite lba ⟨512, ofWords fun j => allBlocks (12 + j)⟩ 1

/-! ## Heap -/

namespace State

/-- The address of the next block of the running task. -/
def fresh (s : State) : Ptr := ⟨s.cur.pgdir, s.next⟩

/-- The state after a request that found no memory. -/
def refuse (s : State) : State := { s with supply := fun k => s.supply (k + 1) }

/-- The state after a request that found memory. -/
def grant (s : State) : State :=
  { s with next := s.next + 1, supply := fun k => s.supply (k + 1) }

def putInode (s : State) (p : Ptr) (o : Option Inode) : State :=
  { s with inodes := fun q => if q = p then o else s.inodes q }

def putDir (s : State) (p : Ptr) (o : Option Dir) : State :=
  { s with dirs := fun q => if q = p then o else s.dirs q }

end State

/-- `sys_malloc`, with `use` recording what the caller uses the block for.  The
block is zeroed. -/
def sysMalloc (use : State → Ptr → State) : Kern (Option Ptr) := do
  let s ← get
  if s.supply 0 then
    set (use s.grant s.fresh)
    pure (some s.fresh)
  else
    set s.refuse
    pure none

def sysMallocBuf : Kern (Option Ptr) := sysMalloc fun s p => { s with bufs := p :: s.bufs }

def sysMallocInode : Kern (Option Ptr) := sysMalloc fun s p => s.putInode p (some .zero)

def sysMallocDir : Kern (Option Ptr) := sysMalloc fun s p => s.putDir p (some .zero)

/-- `sys_free`, with `live` saying whether the block is one in use and `drop`
recording that it is not.  A kernel thread asserts that it frees a kernel
address; a process that frees a block of another heap corrupts its own lists. -/
def sysFree (p : Ptr) (live : State → Bool) (drop : State → State) : Kern Unit := do
  let s ← get
  if s.cur.pgdir then
    if p.user && live s then set (drop s) else undefined
  else do
    kassert (p.user = false)
    if live s then set (drop s) else undefined

def sysFreeBuf (p : Ptr) : Kern Unit :=
  sysFree p (fun s => p ∈ s.bufs) fun s => { s with bufs := s.bufs.erase p }

def sysFreeInode (p : Ptr) : Kern Unit :=
  sysFree p (fun s => (s.inodes p).isSome) fun s => s.putInode p none

def sysFreeDir (p : Ptr) : Kern Unit :=
  sysFree p (fun s => (s.dirs p).isSome) fun s => s.putDir p none

def loadInode (p : Ptr) : Kern Inode := do
  let s ← get
  match s.inodes p with
  | some i => pure i
  | none => undefined

def storeInode (p : Ptr) (i : Inode) : Kern Unit := do
  let s ← get
  if (s.inodes p).isSome then set (s.putInode p (some i)) else undefined

def loadDir : DirPtr → Kern Dir
  | .root => do
      let s ← get
      pure s.rootDir
  | .heap p => do
      let s ← get
      match s.dirs p with
      | some d => pure d
      | none => undefined

/-- `pdir->inode`, which every use dereferences. -/
def dirInode (d : DirPtr) : Kern Ptr := do
  let d ← loadDir d
  match d.inode with
  | some p => pure p
  | none => undefined

end OsTruth
