/-
`search_file` and the system calls of `fs/fs.c` on names.

Every caller of `search_file` passes a record of zeros, so the record is a result
here.  An inode number is a 32-bit word, and `-1` stands for none.
-/
import OsTruth.Fs.File
import OsTruth.Fs.Format

namespace OsTruth

open ByteString

/-! ## Searching a path -/

/-- The next component, from a `sub_path` that is `NULL` behind the last one. -/
def nextName : Option Str → Except Fault (Str × Option Str)
  | none => .ok ([], none)
  | some p => pathParse p

/-- The names `/`, `/.` and `/..` of the root directory. -/
def isRootName (pathname : Str) : Prop :=
  pathname = [slash] ∨ pathname = [slash, dot] ∨ pathname = [slash, dot, dot]

instance (pathname : Str) : Decidable (isRootName pathname) :=
  inferInstanceAs (Decidable (_ ∨ _ ∨ _))

/-- `strcat(searched_path, "/")` and `strcat(searched_path, name)`.  A name of 16
characters has no terminating zero. -/
def appendName (searchedPath name : Str) : Except Fault Str :=
  if name.length < maxFileNameLen ∧ searchedPath.length + 1 + name.length < maxPathLen then
    .ok (searchedPath ++ slash :: name)
  else .error .undefined

/-- The end of `search_file`, behind the loop: the last component was a directory.
`dir_e` is not initialised, so it must have been written in a round of the loop. -/
def searchEnd (parentDir : DirPtr) (parentInodeNo : UInt32) (dirE : Option DirEntry)
    (searchedPath : Str) : Kern (UInt32 × SearchRecord) := do
  dirClose parentDir
  let d ← dirOpen parentInodeNo
  match dirE with
  | none => undefined
  | some e => pure (e.iNo, ⟨searchedPath, d, .directory⟩)

/-- The rest of a round of `search_file`, once the entry `e` is found.  `next` goes on with the
loop. -/
def searchFound (next : DirPtr → UInt32 → Str → Option Str → Kern (UInt32 × SearchRecord))
    (parentDir : DirPtr) (parentInodeNo : UInt32) (e : DirEntry) (subPath : Option Str)
    (searchedPath : Str) : Kern (UInt32 × SearchRecord) := do
  let (name, subPath) ← StateT.lift (nextName subPath)
  if e.fType = FileType.directory.code then do
    let parentInode ← loadInode (← dirInode parentDir)
    dirClose parentDir
    let parentDir ← dirOpen e.iNo
    next parentDir parentInode.iNo name subPath
  else if e.fType = FileType.regular.code then
    pure (e.iNo, ⟨searchedPath, parentDir, .regular⟩)
  else next parentDir parentInodeNo name subPath

/-- The loop of `search_file`.  Each round takes a byte of the path, so its length is
enough rounds. -/
def searchLoop : Nat → DirPtr → UInt32 → Option DirEntry → Str → Option Str → Str →
    Kern (UInt32 × SearchRecord)
  | _, parentDir, parentInodeNo, dirE, [], _, searchedPath =>
      searchEnd parentDir parentInodeNo dirE searchedPath
  | 0, _, _, _, _ :: _, _, _ => undefined
  | left + 1, parentDir, parentInodeNo, _, name@(_ :: _), subPath, searchedPath => do
      kassert (searchedPath.length < 512)
      let searchedPath ← StateT.lift (appendName searchedPath name)
      match ← searchDirEntry parentDir name with
      | none => pure (-1, ⟨searchedPath, parentDir, .unknown⟩)
      | some e =>
          searchFound (fun parentDir parentInodeNo name subPath =>
            searchLoop left parentDir parentInodeNo (some e) name subPath searchedPath)
            parentDir parentInodeNo e subPath searchedPath

def searchFile (pathname : Str) : Kern (UInt32 × SearchRecord) :=
  if isRootName pathname then pure (0, ⟨[], .root, .directory⟩)
  else do
    kassert (pathname.head? = some slash ∧ pathname.length > 1 ∧ pathname.length < maxPathLen)
    let (name, subPath) ← StateT.lift (pathParse pathname)
    searchLoop pathname.length .root 0 none name subPath []

/-! ## Files -/

/-- What every failing branch of the callers does. -/
def closeAndFail (dir : DirPtr) : Kern Int := do
  dirClose dir
  pure (-1)

/-- `sys_open` once the path has been searched. -/
def openFound (pathname : Str) (flags : UInt8) (pathnameDepth : Nat) (inodeNo : UInt32)
    (r : SearchRecord) : Kern Int := do
  if r.fileType = .directory then closeAndFail r.parentDir
  else do
    let pathSearchedDepth ← StateT.lift (pathDepthCnt r.searchedPath)
    if pathnameDepth ≠ pathSearchedDepth then closeAndFail r.parentDir
    else if inodeNo = -1 ∧ flags &&& oCreat = 0 then closeAndFail r.parentDir
    else if inodeNo ≠ -1 ∧ flags &&& oCreat ≠ 0 then closeAndFail r.parentDir
    else if flags &&& oCreat ≠ 0 then do
      let filename ← StateT.lift (afterLastSlash pathname)
      let fd ← fileCreate r.parentDir filename flags
      dirClose r.parentDir
      pure fd
    else fileOpen inodeNo flags

/-- `sys_open`.  `path_depth_cnt` writes to the string. -/
def sysOpen (pathname : Str) (flags : UInt8) : Kern Int :=
  match pathname.getLast? with
  | none => undefined
  | some c =>
      if c = slash then pure (-1)
      else do
        kassert (flags ≤ 7)
        let pathnameDepth ← StateT.lift (pathDepthCnt pathname)
        let (inodeNo, r) ← searchFile (parsedPath pathname)
        openFound (parsedPath pathname) flags pathnameDepth inodeNo r

/-- `fd_local2global`.  `fd_table` has eight entries. -/
def fdLocal2global (localFd : Nat) : Kern Nat := do
  let s ← get
  if localFd < maxFilesOpenPerProc then do
    let globalFd := s.cur.fdTable localFd
    kassert (0 ≤ globalFd ∧ globalFd < maxFileOpen)
    pure globalFd.toNat
  else undefined

def sysClose (fd : Int) : Kern Int :=
  if fd > 2 then do
    let globalFd ← fdLocal2global fd.toNat
    let ret ← fileClose globalFd
    modify fun s => s.setFd fd.toNat (-1)
    pure ret
  else pure (-1)

/-- The search of `sys_unlink` in `file_table`, from `fileIdx` on: is the inode open? -/
def inodeInUse (inodeNo : UInt32) : Nat → Nat → Kern Bool
  | 0, _ => pure false
  | left + 1, fileIdx => do
      let s ← get
      match (s.fileTable fileIdx).fdInode with
      | none => inodeInUse inodeNo left (fileIdx + 1)
      | some p => do
          let i ← loadInode p
          if inodeNo = i.iNo then pure true else inodeInUse inodeNo left (fileIdx + 1)

/-- The end of `sys_unlink`.  The result of `delete_dir_entry` is not used. -/
def unlinkFound (inodeNo : UInt32) (parentDir : DirPtr) : Kern Int := do
  match ← sysMallocBuf with
  | none => closeAndFail parentDir
  | some ioBuf => do
      let _ ← deleteDirEntry parentDir inodeNo
      inodeRelease inodeNo
      sysFreeBuf ioBuf
      dirClose parentDir
      pure 0

def sysUnlink (pathname : Str) : Kern Int := do
  kassert (pathname.length < maxPathLen)
  let (inodeNo, r) ← searchFile pathname
  kassert (inodeNo ≠ 0)
  if inodeNo = -1 then closeAndFail r.parentDir
  else if r.fileType = .directory then closeAndFail r.parentDir
  else if ← inodeInUse inodeNo maxFileOpen 0 then closeAndFail r.parentDir
  else unlinkFound inodeNo r.parentDir

/-! ## Directories -/

/-- The end of `sys_mkdir` after a failure.  `io_buf` is passed to `sys_close` and not to
`sys_free`: as a number, an address of the kernel is negative, and one of a process is
far behind the end of `fd_table`. -/
def mkdirFail (ioBuf : Ptr) : Kern Int := if ioBuf.user then undefined else pure (-1)

/-- `case 1` of the rollback in `sysMkdir`. -/
def mkdirRollback1 (parentDir : DirPtr) (ioBuf : Ptr) : Kern Int := do
  dirClose parentDir
  mkdirFail ioBuf

/-- `case 2`, which falls through to `case 1`. -/
def mkdirRollback2 (inodeNo : UInt32) (parentDir : DirPtr) (ioBuf : Ptr) : Kern Int := do
  inodeBitmapClear inodeNo
  mkdirRollback1 parentDir ioBuf

/-- The end of `mkdirInstall`: both inodes and the inode bitmap go to disk. -/
def mkdirEnd (inodeNo : UInt32) (newDirInode : Inode) (parentDir : DirPtr) (ioBuf : Ptr) :
    Kern Int := do
  let parentInode ← loadInode (← dirInode parentDir)
  inodeSync parentInode (.zero 1024)
  inodeSync newDirInode (.zero 1024)
  bitmapSync inodeNo .inodeBitmap
  sysFreeBuf ioBuf
  dirClose parentDir
  pure 0

/-- `sys_mkdir` once the inode and the block of the new directory are taken. -/
def mkdirInstall (dirname : Str) (parentDir : DirPtr) (inodeNo blockLba : UInt32) (ioBuf : Ptr) :
    Kern Int := do
  let s ← get
  let newDirInode := (inodeInit inodeNo .zero).setSector 0 blockLba
  let blockBitmapIdx := blockLba - s.part.sb.dataStartLba
  kassert (0 < blockBitmapIdx)
  bitmapSync blockBitmapIdx .blockBitmap
  let parentInode ← loadInode (← dirInode parentDir)
  ideWrite blockLba ⟨1024, dotEntries inodeNo parentInode.iNo⟩ 1
  let s ← get
  let newDirInode := { newDirInode with iSize := 2 * s.part.sb.dirEntrySize }
  let newDirEntry ← StateT.lift (createDirEntry dirname inodeNo .directory)
  if ← syncDirEntry parentDir newDirEntry (.zero 1024) then do
    mkdirEnd inodeNo newDirInode parentDir ioBuf
  else mkdirRollback2 inodeNo parentDir ioBuf

/-- `sys_mkdir` once the name is known to be free. -/
def mkdirNew (dirname : Str) (parentDir : DirPtr) (ioBuf : Ptr) : Kern Int := do
  let inodeNo ← inodeBitmapAlloc
  if inodeNo = -1 then mkdirRollback1 parentDir ioBuf
  else do
    let blockLba ← blockBitmapAlloc
    if blockLba = -1 then mkdirRollback2 inodeNo parentDir ioBuf
    else mkdirInstall dirname parentDir inodeNo blockLba ioBuf

/-- `sys_mkdir` once `io_buf` is there. -/
def mkdirWithBuf (pathname : Str) (ioBuf : Ptr) : Kern Int := do
  let (inodeNo, r) ← searchFile pathname
  if inodeNo ≠ -1 then mkdirRollback1 r.parentDir ioBuf
  else do
    let pathnameDepth ← StateT.lift (pathDepthCnt pathname)
    let pathSearchedDepth ← StateT.lift (pathDepthCnt r.searchedPath)
    if pathnameDepth ≠ pathSearchedDepth then mkdirRollback1 r.parentDir ioBuf
    else do
      let dirname ← StateT.lift (afterLastSlash r.searchedPath)
      mkdirNew dirname r.parentDir ioBuf

def sysMkdir (pathname : Str) : Kern Int := do
  match ← sysMallocBuf with
  | none => pure (-1)
  | some ioBuf => mkdirWithBuf pathname ioBuf

def rmdirClose (dir parentDir : DirPtr) (retval : Int) : Kern Int := do
  dirClose dir
  dirClose parentDir
  pure retval

def rmdirOpened (dir parentDir : DirPtr) : Kern Int := do
  if ← dirIsEmpty dir then do
    let r ← dirRemove parentDir dir
    rmdirClose dir parentDir (if r = 0 then 0 else -1)
  else rmdirClose dir parentDir (-1)

/-- `sys_rmdir` on a name that exists, whatever it names. -/
def rmdirFound (inodeNo : UInt32) (parentDir : DirPtr) : Kern Int := do
  rmdirOpened (← dirOpen inodeNo) parentDir

def sysRmdir (pathname : Str) : Kern Int := do
  let (inodeNo, r) ← searchFile pathname
  kassert (inodeNo ≠ 0)
  if inodeNo = -1 then closeAndFail r.parentDir
  else rmdirFound inodeNo r.parentDir

end OsTruth
