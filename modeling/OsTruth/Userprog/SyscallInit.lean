/-
`lib/user/syscall.c` and `userprog/syscall-init.c`: a system call from the function that the user
calls to the function of the kernel and back.

The two sides agree on a number and on the registers `ebx`, `ecx` and `edx` only, and each lists
all calls once more.
-/
import OsTruth.Kernel.Interrupt

namespace OsTruth

open Processor

/-! ## The lists -/

inductive SyscallNr
  | getpid
  | write
  | malloc
  | free
  | fork
  | read
  | putchar
  | clear
  | getcwd
  | open_
  | close
  | lseek
  | unlink
  | mkdir
  | opendir
  | closedir
  | chdir
  | rmdir
  | readdir
  | rewinddir
  | stat
  | ps
  deriving DecidableEq, Repr

def SyscallNr.number (n : SyscallNr) : Word := BitVec.ofNat 32 n.ctorIdx

inductive UserFunction
  | getpid
  | write
  | malloc
  | free
  | fork
  | read
  | putchar
  | clear
  | getcwd
  | open_
  | close
  | lseek
  | unlink
  | mkdir
  | opendir
  | closedir
  | rmdir
  | readdir
  | rewinddir
  | stat
  | chdir
  | ps
  deriving DecidableEq, Repr

namespace UserFunction

/-- The number and how many arguments the macro of the function gets. -/
def macroArgs : UserFunction → SyscallNr × Nat
  | getpid => (.getpid, 0)
  | write => (.write, 3)
  | malloc => (.malloc, 1)
  | free => (.free, 1)
  | fork => (.fork, 0)
  | read => (.read, 3)
  | putchar => (.putchar, 1)
  | clear => (.clear, 0)
  | getcwd => (.getcwd, 2)
  | open_ => (.open_, 2)
  | close => (.close, 1)
  | lseek => (.lseek, 3)
  | unlink => (.unlink, 1)
  | mkdir => (.mkdir, 1)
  | opendir => (.opendir, 1)
  | closedir => (.closedir, 1)
  | rmdir => (.rmdir, 1)
  | readdir => (.readdir, 1)
  | rewinddir => (.rewinddir, 1)
  | stat => (.stat, 2)
  | chdir => (.chdir, 1)
  | ps => (.ps, 0)

end UserFunction

/-! ## The call -/

def loadArgs : List Word → Machine → Machine
  | [], m => m
  | [arg1], m => m.set .ebx arg1
  | [arg1, arg2], m => (m.set .ebx arg1).set .ecx arg2
  | arg1 :: arg2 :: arg3 :: _, m => ((m.set .ebx arg1).set .ecx arg2).set .edx arg3

/-- At `int $0x80` of the macro. -/
def UserFunction.enter (f : UserFunction) (args : List Word) (m : Machine) : Machine :=
  (loadArgs args m).set .eax f.macroArgs.1.number

section

variable {m : Machine} {args : List Word} {f : UserFunction}

end

end OsTruth
