/-
`sys_write`, `sys_read`, `sys_lseek` and `sys_close` of `fs/fs.c`, which take a descriptor
and the other arguments as a process gives them.

A buffer is `none` when the pointer is `NULL`.  What goes to the console is not part of
the state, and the bytes that a call stores for its caller are a part of the result.
-/
import OsTruth.Fs.FileTable
import OsTruth.Fs.Fs
import OsTruth.Fs.OpenInodes
import OsTruth.Fs.WriteAsserts

namespace OsTruth

open ByteString Fallible

def int32 (v : UInt32) : Int := v.toBitVec.toInt

/-- `kbd_buf`, with the bytes that `ioq_getchar` takes out one after another.  The caller
of `ioq_getchar` has interrupts off. -/
structure Keyboard where
  intrOff : Bool
  getchar : Nat → UInt8

/-! ## Writing -/

/-- `console_put_str` goes on to the first zero. -/
def consolePutStr (str : Buf) : Kern Unit :=
  if ∃ k, k < str.size ∧ str.data k = 0 then pure () else undefined

/-- `sys_write` to `stdout_no`.  `memcpy` asserts that its source is not `NULL`. -/
def writeStdout (buf : Option Bytes) (count : UInt32) : Kern Int :=
  match buf with
  | none => throw .assert
  | some src => do
      let tmpBuf ← StateT.lift ((Buf.zero 1024).put 0 count.toNat src)
      consolePutStr tmpBuf
      pure (int32 count)

/-- The end of `sys_write`, on `file_table[wrFile]`. -/
def writeOpened (wrFile : Nat) (buf : Option Bytes) (count : UInt32) : Kern Int := do
  let s ← get
  if (s.fileTable wrFile).Writes then do
    let bytesWritten ← writeFile wrFile buf count
    pure (int32 bytesWritten)
  else pure (-1)

def sysWrite (fd : Int) (buf : Option Bytes) (count : UInt32) : Kern Int :=
  if fd < 0 then pure (-1)
  else if fd = 1 then writeStdout buf count
  else do
    let wrFile ← fdLocal2global fd.toNat
    writeOpened wrFile buf count

/-! ## Reading -/

/-- The loop of `sys_read` over the keyboard, which `left` bytes are still wanted from. -/
def readStdin (kbd : Keyboard) : Nat → Nat → Stores → Kern Stores
  | 0, _, out => pure out
  | left + 1, bytesRead, out => do
      kassert (kbd.intrOff = true)
      readStdin kbd left (bytesRead + 1) (out.put bytesRead 1 fun _ => kbd.getchar bytesRead)

def sysRead (kbd : Keyboard) (fd : Int) (isNull : Bool) (count : UInt32) :
    Kern (Int × Stores) := do
  kassert (isNull = false)
  if fd < 0 ∨ fd = 1 ∨ fd = 2 then pure (-1, fun _ => none)
  else if fd = 0 then do
    let out ← readStdin kbd count.toNat 0 fun _ => none
    pure (if count = 0 then -1 else int32 count, out)
  else do
    let globalFd ← fdLocal2global fd.toNat
    let r ← fileRead globalFd count
    pure (int32 r.1, r.2)

/-! ## Seeking -/

def seekSet : UInt8 := 1
def seekCur : UInt8 := 2
def seekEnd : UInt8 := 3

/-- `new_pos` in `sysLseek`; the word arithmetic of the machine does not see signs. -/
def newPos (fdPos fileSize offset : UInt32) (whence : UInt8) : UInt32 :=
  if whence = seekSet then offset
  else if whence = seekCur then fdPos + offset
  else if whence = seekEnd then fileSize + offset
  else 0

/-- The end of `sys_lseek`, on `file_table[pf]`. -/
def seekOpened (pf : Nat) (offset : UInt32) (whence : UInt8) : Kern Int := do
  let i ← loadInode (← fileInode pf)
  let s ← get
  let newPos := newPos (s.fileTable pf).fdPos i.iSize offset whence
  if int32 newPos < 0 ∨ int32 newPos > int32 (i.iSize - 1) then pure (-1)
  else do
    modify fun s => s.setFile pf { s.fileTable pf with fdPos := newPos }
    pure (int32 newPos)

def sysLseek (fd : Int) (offset : UInt32) (whence : UInt8) : Kern Int :=
  if fd < 0 then pure (-1)
  else do
    kassert (0 < whence ∧ whence < 4)
    let pf ← fdLocal2global fd.toNat
    seekOpened pf offset whence

/-! ## The property -/

inductive RwCall
  | write (fd : Int) (buf : Option Bytes) (count : UInt32)
  | read (fd : Int) (isNull : Bool) (count : UInt32)
  | lseek (fd : Int) (offset : UInt32) (whence : UInt8)
  | close (fd : Int)

namespace RwCall

def fd : RwCall → Int
  | write fd _ _ | read fd _ _ | lseek fd _ _ | close fd => fd

/-- The result, with the bytes that are stored for the caller. -/
def run (kbd : Keyboard) : RwCall → Kern (Int × Stores)
  | write fd buf count => do
      let r ← sysWrite fd buf count
      pure (r, fun _ => none)
  | read fd isNull count => sysRead kbd fd isNull count
  | lseek fd offset whence => do
      let r ← sysLseek fd offset whence
      pure (r, fun _ => none)
  | close fd => do
      let r ← sysClose fd
      pure (r, fun _ => none)

end RwCall

def State.FdOpen (s : State) (fd : Int) : Prop :=
  0 ≤ fd ∧ fd < maxFilesOpenPerProc ∧ s.cur.fdTable fd.toNat ≠ -1

instance (s : State) (fd : Int) : Decidable (s.FdOpen fd) := inferInstanceAs (Decidable (_ ∧ _))

/-- The entry of `fd_table` is there and names one of `file_table`. -/
def State.Translates (s : State) (fd : Int) : Prop :=
  0 ≤ fd ∧ fd < maxFilesOpenPerProc ∧ 0 ≤ s.cur.fdTable fd.toNat ∧
    s.cur.fdTable fd.toNat < maxFileOpen

def State.globalFd (s : State) (fd : Int) : Nat := (s.cur.fdTable fd.toNat).toNat

/-- `count` bytes of `src` and a zero fit into `tmp_buf`. -/
def FitsTmpBuf (src : Bytes) (count : UInt32) : Prop :=
  count.toNat < 1024 ∨ count.toNat = 1024 ∧ ∃ k, k < 1024 ∧ src k = 0

/-- The last reference to an inode of a user heap is not given up: `inode_close` frees
kernel memory. -/
def ClosesKernel (s : State) (fdIdx : Nat) : Prop :=
  ∀ p i, (s.fileTable fdIdx).fdInode = some p → s.inodes p = some i → i.iOpenCnts = 1 →
    p.user = false

/-- The arguments that a call accepts.  Behind a descriptor that is open a read and a write ask
something of the file as well. -/
def RwCall.Accepted (kbd : Keyboard) (s : State) : RwCall → Prop
  | write fd buf count =>
      (fd = 1 → s.FdOpen 1 ∧ ∃ src, buf = some src ∧ FitsTmpBuf src count) ∧
        (0 ≤ fd → fd ≠ 1 → s.Translates fd ∧
          ((s.fileTable (s.globalFd fd)).Writes →
            WriteAccepted s (s.globalFd fd) buf.isNone count))
  | read fd isNull count =>
      isNull = false ∧ (fd = 0 → count ≠ 0 → s.FdOpen 0 ∧ kbd.intrOff = true) ∧
        (2 < fd → s.Translates fd ∧ ReadAccepted s (s.globalFd fd) count)
  | lseek fd _ whence => 0 ≤ fd → 0 < whence ∧ whence < 4 ∧ s.Translates fd
  | close fd => 2 < fd → s.Translates fd ∧ ClosesKernel s (s.globalFd fd)

section

variable {α : Type} {kbd : Keyboard} {s : State} {F : Fault → Prop} {fd : Int} {buf : Option Bytes}
variable {count : UInt32}

/-! ## The descriptor -/

theorem State.Translates.open (h : s.Translates fd) : s.FdOpen fd := by
  refine ⟨h.1, h.2.1, fun hnone => ?_⟩
  have hnonneg := h.2.2.1
  omega

theorem wp_fdLocal2global {Q : Nat → State → Prop} (h : 0 ≤ fd) :
    Wp (fdLocal2global fd.toNat) s F Q ↔
      (s.Translates fd → Q (s.globalFd fd) s) ∧
        (fd < maxFilesOpenPerProc → ¬s.Translates fd → F .assert) ∧
        (¬fd < maxFilesOpenPerProc → F .undefined) := by
  have hlt : fd.toNat < maxFilesOpenPerProc ↔ fd < maxFilesOpenPerProc := by omega
  unfold fdLocal2global
  simp only [Wp.bind, Wp.get, Wp.ite, wp_kassert, wp_undefined, Wp.pure, hlt]
  unfold State.Translates State.globalFd
  by_cases hfd : fd < maxFilesOpenPerProc <;> simp [hfd, h]

end

end OsTruth
