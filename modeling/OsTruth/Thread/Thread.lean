/-
`thread/thread.c`, the semaphores of `thread/sync.c` and the clock tick of
`device/timer.c`.

A task is a number, in the order of creation.  Its `general_tag` is the one node by which
it is linked into `thread_ready_list` and into the waiters of a semaphore.  Every function
here runs with interrupts off.
-/
import OsTruth.Lib.List
import OsTruth.Library.Fallible

namespace OsTruth

inductive TaskStatus
  | running
  | ready
  | blocked
  | waiting
  | hanging
  | died
  deriving DecidableEq, Repr

/-- The lists that tasks are linked into. -/
inductive Queue
  | ready
  | all
  | waiters (psema : Nat)
  deriving DecidableEq, Repr

/-- A `struct list_elem`. -/
inductive Node
  | head (q : Queue)
  | tail (q : Queue)
  | generalTag (pthread : Nat)
  | allListTag (pthread : Nat)
  deriving DecidableEq, Repr

def Queue.ends (q : Queue) : ListEnds Node := ⟨.head q, .tail q⟩

/-- The fields of `struct task_struct` that are read here.  `inDown` is where the task
left off: in the loop of `sema_down` on this semaphore. -/
structure Thread where
  status : TaskStatus
  priority : UInt8
  ticks : UInt8
  inDown : Option Nat

/-- `cur` is the task that runs, and `values` are the values of the semaphores. -/
structure Threads where
  links : Links Node
  thread : Nat → Thread
  taskCnt : Nat
  cur : Nat
  idleThread : Nat
  values : Nat → UInt8

abbrev Sched := StateT Threads (Except Fault)

namespace Threads

def setThread (σ : Threads) (t : Nat) (p : Thread) : Threads :=
  { σ with thread := fun k => if k = t then p else σ.thread k }

def setStatus (σ : Threads) (t : Nat) (stat : TaskStatus) : Threads :=
  σ.setThread t { σ.thread t with status := stat }

def setInDown (σ : Threads) (t : Nat) (psema : Option Nat) : Threads :=
  σ.setThread t { σ.thread t with inDown := psema }

def setLinks (σ : Threads) (m : Links Node) : Threads := { σ with links := m }

def setValue (σ : Threads) (psema : Nat) (v : UInt8) : Threads :=
  { σ with values := fun k => if k = psema then v else σ.values k }

end Threads

/-! ## Functions -/

def sassert (c : Prop) [Decidable c] : Sched Unit := StateT.lift (assert c)

/-- `ASSERT(!elem_find(plist, elem))` and `list_append(plist, elem)`. -/
def appendNew (q : Queue) (elem : Node) : Sched Unit := do
  let σ ← get
  let found ← StateT.lift (elemFind σ.links q.ends elem (σ.taskCnt + 1))
  sassert (found = false)
  set (σ.setLinks (listAppend σ.links q.ends elem))

/-- `elem2entry(struct task_struct, general_tag, elem)`. -/
def elem2entry : Node → Sched Nat
  | .generalTag t => pure t
  | _ => throw .undefined

/-- The status of a task that is not scheduled. -/
def TaskStatus.Blocks (stat : TaskStatus) : Prop :=
  stat = .blocked ∨ stat = .waiting ∨ stat = .hanging

instance (stat : TaskStatus) : Decidable stat.Blocks := inferInstanceAs (Decidable (_ ∨ _ ∨ _))

/-- `thread_unblock`.  `PANIC` repeats the assertion in front of it. -/
def threadUnblock (pthread : Nat) : Sched Unit := do
  let σ ← get
  sassert (σ.thread pthread).status.Blocks
  if (σ.thread pthread).status ≠ .ready then do
    let found ← StateT.lift
      (elemFind σ.links Queue.ready.ends (.generalTag pthread) (σ.taskCnt + 1))
    sassert (found = false)
    set ((σ.setLinks (listPush σ.links Queue.ready.ends (.generalTag pthread))).setStatus pthread
      .ready)
  else pure ()

/-- The end of `schedule`, with the ready list not empty. -/
def switchNext : Sched Unit := do
  let σ ← get
  sassert (listEmpty σ.links Queue.ready.ends = false)
  let (threadTag, m) := listPop σ.links Queue.ready.ends
  let next ← elem2entry threadTag
  set { (σ.setLinks m).setStatus next .running with cur := next }

/-- The rest of `schedule`, once the current task is where it belongs. -/
def scheduleNext : Sched Unit := do
  let σ ← get
  if listEmpty σ.links Queue.ready.ends = true then threadUnblock σ.idleThread else pure ()
  switchNext

/-- `schedule`.  The page table that `process_activate` loads is left out. -/
def schedule : Sched Unit := do
  let σ ← get
  if (σ.thread σ.cur).status = .running then do
    appendNew .ready (.generalTag σ.cur)
    modify fun σ => σ.setThread σ.cur
      { σ.thread σ.cur with ticks := (σ.thread σ.cur).priority, status := .ready }
  else pure ()
  scheduleNext

def threadBlock (stat : TaskStatus) : Sched Unit := do
  sassert stat.Blocks
  modify fun σ => σ.setStatus σ.cur stat
  schedule

def threadYield : Sched Unit := do
  let σ ← get
  appendNew .ready (.generalTag σ.cur)
  modify fun σ => σ.setStatus σ.cur .ready
  schedule

/-- `thread_start` for the page that `get_kernel_pages` returned, and the end of
`process_execute`. -/
def threadStart (prio : UInt8) : Sched Unit := do
  let σ ← get
  set { σ.setThread σ.taskCnt ⟨.ready, prio, prio, none⟩ with taskCnt := σ.taskCnt + 1 }
  appendNew .ready (.generalTag σ.taskCnt)
  appendNew .all (.allListTag σ.taskCnt)

/-- A round of the loop of `sema_down`, and what follows the loop. -/
def semaDown (psema : Nat) : Sched Unit := do
  let σ ← get
  if σ.values psema = 0 then do
    appendNew (.waiters psema) (.generalTag σ.cur)
    modify fun σ => σ.setInDown σ.cur (some psema)
    threadBlock .blocked
  else do
    sassert (σ.values psema - 1 = 0)
    set ((σ.setValue psema (σ.values psema - 1)).setInDown σ.cur none)

def semaUp (psema : Nat) : Sched Unit := do
  let σ ← get
  sassert (σ.values psema = 0)
  if listEmpty σ.links (Queue.waiters psema).ends = false then do
    let (elem, m) := listPop σ.links (Queue.waiters psema).ends
    let threadBlocked ← elem2entry elem
    set (σ.setLinks m)
    threadUnblock threadBlocked
  else pure ()
  let σ ← get
  sassert (σ.values psema + 1 = 1)
  set (σ.setValue psema (σ.values psema + 1))

/-- `intr_timer_handler` without its check of the stack. -/
def intrTimerHandler : Sched Unit := do
  let σ ← get
  if (σ.thread σ.cur).ticks = 0 then schedule
  else set (σ.setThread σ.cur { σ.thread σ.cur with ticks := (σ.thread σ.cur).ticks - 1 })

/-! ## Booting -/

/-- Before `thread_init`: `main` runs and the lists are empty. -/
def bootThreads (values : Nat → UInt8) : Threads where
  links := ⟨fun x => match x with
      | .head q => .tail q
      | x => x, fun x => match x with
      | .tail q => .head q
      | x => x⟩
  thread _ := ⟨.running, 31, 31, none⟩
  taskCnt := 1
  cur := 0
  idleThread := 0
  values := values

/-- `thread_init`: the process `init`, `main` itself, and the idle thread. -/
def threadInit : Sched Unit := do
  threadStart 31
  appendNew .all (.allListTag 0)
  threadStart 10
  modify fun σ => { σ with idleThread := 2 }

end OsTruth
