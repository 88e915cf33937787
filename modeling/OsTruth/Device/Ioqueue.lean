/-
`device/ioqueue.c`: a circular buffer between tasks that put bytes and tasks that take
them.

All functions run with interrupts off, so a task is switched out only where it blocks: in
the loop of `sema_down`, or in `ioq_wait`.  What a task does from one such place to the
next, or to the end of its call, is one step.
-/
import OsTruth.Library.Fallible
import OsTruth.Library.Ring
import OsTruth.Thread.Sync

namespace OsTruth

open Fallible Runs

def bufsize : Nat := 64

/-- The two fields in which a task that waits in `ioq_wait` is noted. -/
inductive Side
  | producer
  | consumer
  deriving DecidableEq, Repr

/-- A call of `ioq_putchar` or `ioq_getchar`. -/
inductive IoCall
  | put (byte : UInt8)
  | get
  deriving DecidableEq, Repr

def IoCall.side : IoCall → Side
  | .put _ => .producer
  | .get => .consumer

/-- Where a task was switched out. -/
inductive Place
  | outside
  | down (c : IoCall)
  | wait (c : IoCall)
  deriving DecidableEq, Repr

/-- `struct ioqueue`, with `waiter` for its fields `producer` and `consumer`, and the tasks
that use it.  `ready` are those of the ready list that go on in a call.  `puts` and `taken`
are all bytes put and all bytes taken so far. -/
structure IoqState extends Lock where
  waiter : Side → Option Nat
  buf : Nat → UInt8
  head : Int32
  tail : Int32
  place : Nat → Place
  blocked : Nat → Bool
  ready : List Nat
  puts : List UInt8
  taken : List UInt8

abbrev Ioq := StateT IoqState (Except Fault)

/-- `ioqueue_init`; nobody uses the queue yet. -/
def ioqueueInit : IoqState :=
  { lockInit with
    waiter := fun _ => none
    buf := fun _ => 0
    head := 0
    tail := 0
    place := fun _ => .outside
    blocked := fun _ => false
    ready := []
    puts := []
    taken := [] }

def nextPos (pos : Int32) : Int32 := (pos + 1) % 64

def ioqFull (σ : IoqState) : Bool := decide (nextPos σ.head = σ.tail)

def ioqEmpty (σ : IoqState) : Bool := decide (σ.head = σ.tail)

/-- The condition under which a call has to wait. -/
def IoqState.stuck (σ : IoqState) : Side → Bool
  | .producer => ioqFull σ
  | .consumer => ioqEmpty σ

namespace IoqState

def setPlace (σ : IoqState) (t : Nat) (place : Place) : IoqState :=
  { σ with place := Function.update σ.place t place }

def block (σ : IoqState) (t : Nat) (place : Place) : IoqState :=
  { σ.setPlace t place with blocked := Function.update σ.blocked t true }

def setWaiter (σ : IoqState) (side : Side) (waiter : Option Nat) : IoqState :=
  { σ with waiter := Function.update σ.waiter side waiter }

def wake (σ : IoqState) (t : Nat) : IoqState :=
  { σ with ready := t :: σ.ready, blocked := Function.update σ.blocked t false }

end IoqState

def ioqAssert (c : Prop) [Decidable c] : Ioq Unit := StateT.lift (assert c)

def ioqUnblock (pthread : Nat) : Ioq Unit := do
  let σ ← get
  ioqAssert (σ.blocked pthread = true)
  ioqAssert (pthread ∉ σ.ready)
  set (σ.wake pthread)

/-- `ioq_wait`; `thread_block` switches the task out. -/
def ioqWait (t : Nat) (c : IoCall) : Ioq Unit := do
  let σ ← get
  ioqAssert (σ.waiter c.side = none)
  set ((σ.setWaiter c.side (some t)).block t (.wait c))

def wakeup (side : Side) : Ioq Unit := do
  let σ ← get
  match σ.waiter side with
  | none => throw .assert
  | some pthread => do
      ioqUnblock pthread
      modify fun σ => σ.setWaiter side none

/-- `lock_acquire` behind `sema_down`, and `ioq_wait`. -/
def lockTaken (t : Nat) (c : IoCall) : Ioq Unit := do
  modify fun σ => { σ with holder := some t }
  let σ ← get
  ioqAssert (σ.holderRepeatNr = 0)
  set { σ with holderRepeatNr := 1 }
  ioqWait t c

/-- A round of the loop of `sema_down` in `lock_acquire`, and what follows the loop. -/
def ioqSemaDown (t : Nat) (c : IoCall) : Ioq Unit := do
  let σ ← get
  let (s, last) ← StateT.lift (σ.toSemaphore.down t)
  set { σ with value := s.value, waiters := s.waiters }
  if last then lockTaken t c else modify fun σ => σ.block t (.down c)

/-- `lock_acquire(&ioq->lock)` and `ioq_wait`. -/
def ioqAcquire (t : Nat) (c : IoCall) : Ioq Unit := do
  let σ ← get
  if σ.holder ≠ some t then ioqSemaDown t c
  else do
    set { σ with holderRepeatNr := σ.holderRepeatNr + 1 }
    ioqWait t c

def ioqSemaUp : Ioq Unit := do
  let σ ← get
  let (s, w) ← StateT.lift σ.toSemaphore.up
  set { σ with value := s.value, waiters := s.waiters }
  match w with
  | none => pure ()
  | some w => ioqUnblock w

def ioqRelease (t : Nat) : Ioq Unit := do
  let σ ← get
  ioqAssert (σ.holder = some t)
  if σ.holderRepeatNr > 1 then set { σ with holderRepeatNr := σ.holderRepeatNr - 1 }
  else do
    ioqAssert (σ.holderRepeatNr = 1)
    set { σ with holder := none, holderRepeatNr := 0 }
    ioqSemaUp

def ioqAccess (pos : Int32) : Ioq Nat :=
  if 0 ≤ pos ∧ pos < 64 then pure pos.toInt.toNat else throw .undefined

/-- What follows the loop of `ioq_getchar`. -/
def ioqTake : Ioq Unit := do
  let σ ← get
  let pos ← ioqAccess σ.tail
  set { σ with tail := nextPos σ.tail, taken := σ.taken ++ [σ.buf pos] }
  if σ.waiter .producer ≠ none then wakeup .producer else pure ()

/-- What follows the loop of `ioq_putchar`. -/
def ioqPut (byte : UInt8) : Ioq Unit := do
  let σ ← get
  let pos ← ioqAccess σ.head
  set { σ with
    buf := Function.update σ.buf pos byte
    head := nextPos σ.head
    puts := σ.puts ++ [byte] }
  if σ.waiter .consumer ≠ none then wakeup .consumer else pure ()

def IoCall.finish : IoCall → Ioq Unit
  | .put byte => ioqPut byte
  | .get => ioqTake

/-- The test of the loop of `ioq_putchar` or `ioq_getchar`. -/
def ioqLoop (t : Nat) (c : IoCall) : Ioq Unit := do
  let σ ← get
  if σ.stuck c.side = true then ioqAcquire t c else c.finish

def ioqPutchar (t : Nat) (byte : UInt8) : Ioq Unit := ioqLoop t (.put byte)

def ioqGetchar (t : Nat) : Ioq Unit := ioqLoop t .get

/-- A task that was switched out goes on. -/
def ioqResume (t : Nat) : Ioq Unit := do
  let σ ← get
  set { σ.setPlace t .outside with ready := σ.ready.erase t }
  match σ.place t with
  | .outside => pure ()
  | .down c => ioqSemaDown t c
  | .wait c => do
      ioqRelease t
      ioqLoop t c

/-! ## Runs -/

inductive IoqStep
  | putchar (t : Nat) (byte : UInt8)
  | getchar (t : Nat)
  | resume (t : Nat)

def IoqStep.run : IoqStep → Ioq Unit
  | .putchar t byte => ioqPutchar t byte
  | .getchar t => ioqGetchar t
  | .resume t => ioqResume t

def ioqStep (σ : IoqState) (c : IoqStep) : Except Fault IoqState :=
  (c.run.run σ).map Prod.snd

/-- A task that is in no call makes one, or a task of the ready list goes on. -/
def ioqCall (σ : IoqState) : IoqStep → Prop
  | .putchar t _ | .getchar t => σ.place t = .outside
  | .resume t => t ∈ σ.ready

end OsTruth
