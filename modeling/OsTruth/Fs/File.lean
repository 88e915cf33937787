/-
The functions of `fs/file.c` on `file_table` and on the content of files.

A file descriptor or `-1` is an integer.  The counts that `file_write` and
`file_read` return are 32-bit words, in which `-1` is `0xffffffff`.
-/
import OsTruth.Fs.Dir

namespace OsTruth

open ByteString

def oWronly : UInt8 := 1
def oRdwr : UInt8 := 2
def oCreat : UInt8 := 4

/-- `flag & O_WRONLY || flag & O_RDWR`. -/
def Writes (flag : UInt8) : Prop := flag &&& oWronly ≠ 0 ∨ flag &&& oRdwr ≠ 0

instance (flag : UInt8) : Decidable (Writes flag) := inferInstanceAs (Decidable (_ ∨ _))

/-- The first entry from `fdIdx` on whose `fd_inode` is `NULL`. -/
def freeSlotFrom (fileTable : Nat → File) : Nat → Nat → Nat
  | 0, fdIdx => fdIdx
  | left + 1, fdIdx =>
      if (fileTable fdIdx).fdInode = none then fdIdx
      else freeSlotFrom fileTable left (fdIdx + 1)

def getFreeSlotInGlobal : Kern Int := do
  let s ← get
  let fdIdx := freeSlotFrom s.fileTable 29 3
  if fdIdx = maxFileOpen then pure (-1) else pure fdIdx

/-- The first entry from `localFdIdx` on that is `-1`. -/
def freeLocalFrom (fdTable : Nat → Int) : Nat → Nat → Nat
  | 0, localFdIdx => localFdIdx
  | left + 1, localFdIdx =>
      if fdTable localFdIdx = -1 then localFdIdx
      else freeLocalFrom fdTable left (localFdIdx + 1)

/-- `cur->fd_table[fd] = v`. -/
def State.setFd (s : State) (fd : Nat) (v : Int) : State :=
  { s with cur := { s.cur with fdTable := fun k => if k = fd then v else s.cur.fdTable k } }

/-- `file_table[fdIdx] = f`. -/
def State.setFile (s : State) (fdIdx : Nat) (f : File) : State :=
  { s with fileTable := fun k => if k = fdIdx then f else s.fileTable k }

def pcbFdInstall (globalFdIdx : Int) : Kern Int := do
  let s ← get
  let localFdIdx := freeLocalFrom s.cur.fdTable 5 3
  if localFdIdx = maxFilesOpenPerProc then pure (-1)
  else do
    set (s.setFd localFdIdx globalFdIdx)
    pure localFdIdx

/-! ## Creating, opening and closing -/

/-- `case 1` of the rollback in `fileCreate`. -/
def createRollback1 (inodeNo : UInt32) (ioBuf : Ptr) : Kern Int := do
  inodeBitmapClear inodeNo
  sysFreeBuf ioBuf
  pure (-1)

/-- `case 2`, which falls through to `case 1`. -/
def createRollback2 (newFileInode : Ptr) (inodeNo : UInt32) (ioBuf : Ptr) : Kern Int := do
  sysFreeInode newFileInode
  createRollback1 inodeNo ioBuf

/-- `case 3`, which falls through to `case 2`. -/
def createRollback3 (fdIdx : Nat) (newFileInode : Ptr) (inodeNo : UInt32) (ioBuf : Ptr) :
    Kern Int := do
  modify fun s => s.setFile fdIdx ⟨0, 0, none⟩
  createRollback2 newFileInode inodeNo ioBuf

/-- Steps a to e of `fileCreate`. -/
def fileInstall (parentDir : DirPtr) (filename : Str) (newFileInode : Ptr) (inodeNo : UInt32)
    (fdIdx : Nat) (ioBuf : Ptr) : Kern Int := do
  let newDirEntry ← StateT.lift (createDirEntry filename inodeNo .regular)
  if ← syncDirEntry parentDir newDirEntry (.zero 1024) then do
    let parentInode ← loadInode (← dirInode parentDir)
    inodeSync parentInode (.zero 1024)
    let i ← loadInode newFileInode
    inodeSync i (.zero 1024)
    bitmapSync inodeNo .inodeBitmap
    modify fun s => s.pushOpen newFileInode
    let i ← loadInode newFileInode
    storeInode newFileInode { i with iOpenCnts := 1 }
    sysFreeBuf ioBuf
    pcbFdInstall fdIdx
  else createRollback3 fdIdx newFileInode inodeNo ioBuf

/-- `file_create`.  `io_buf` is not given back when no inode is free. -/
def fileCreate (parentDir : DirPtr) (filename : Str) (flag : UInt8) : Kern Int := do
  match ← sysMallocBuf with
  | none => pure (-1)
  | some ioBuf => do
      let inodeNo ← inodeBitmapAlloc
      if inodeNo = -1 then pure (-1)
      else do
        match ← sysMallocInode with
        | none => createRollback1 inodeNo ioBuf
        | some newFileInode => do
            storeInode newFileInode (inodeInit inodeNo .zero)
            let fdIdx ← getFreeSlotInGlobal
            if fdIdx = -1 then createRollback2 newFileInode inodeNo ioBuf
            else do
              modify fun s => s.setFile fdIdx.toNat ⟨0, flag.toUInt32, some newFileInode⟩
              fileInstall parentDir filename newFileInode inodeNo fdIdx.toNat ioBuf

/-- The rest of `file_open`, with an entry of `file_table`.  A writer that is refused leaves it
there. -/
def fileOpenAt (fdIdx : Int) (inodeNo : UInt32) (flag : UInt8) : Kern Int := do
  let p ← inodeOpen inodeNo
  modify fun s => s.setFile fdIdx.toNat ⟨0, flag.toUInt32, some p⟩
  if Writes flag then do
    let i ← loadInode p
    if i.writeDeny = 0 then do
      storeInode p { i with writeDeny := 1 }
      pcbFdInstall fdIdx
    else pure (-1)
  else pcbFdInstall fdIdx

def fileOpen (inodeNo : UInt32) (flag : UInt8) : Kern Int := do
  let fdIdx ← getFreeSlotInGlobal
  if fdIdx = -1 then pure (-1)
  else fileOpenAt fdIdx inodeNo flag

def fileClose (fdIdx : Nat) : Kern Int := do
  let s ← get
  match (s.fileTable fdIdx).fdInode with
  | none => undefined
  | some p => do
      let i ← loadInode p
      storeInode p { i with writeDeny := 0 }
      inodeClose p
      modify fun s => s.setFile fdIdx { s.fileTable fdIdx with fdInode := none }
      pure 0

end OsTruth
