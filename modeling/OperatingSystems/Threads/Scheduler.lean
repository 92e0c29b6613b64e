import OperatingSystems.Library.LinkedQueue
import OperatingSystems.Library.Machine

/-!
# The thread library

Threads, the queues they stand in and the interrupt flag, as `thread.c` and `interrupt.c` keep
them. A node of a queue and the control block it points to are allocated together and freed
together, so that one handle names both. A handle stands for one allocation: it is not given out
again after it has been freed, and what was stored under it stays readable. A use of freed memory
therefore does not end a run; it is written to `log`, where it can be seen.

The library is executed in steps. A thread carries the list `todo` of the statements it has still
to execute before it is back in its own code, and `saved`, the values of the local variables
`enabled` of the functions it is inside of. A function of the library is a list of such
statements (`code`); a statement that branches or loops puts further statements in front of the
list. `getcontext` and `setcontext` are the change of `current` and of the flag: a thread that is
switched away goes on, when it is switched to, with the statements after its `getcontext`
(`resumeCode`) and with the signal mask saved there. A new thread starts with `thread_stub`.

The timer may interrupt the running thread before any step while the flag is set (`Move.timer`). It
clears the flag and puts `interrupt_handler` in front of whatever the thread was about to do.

A failing assertion, a null pointer that is followed and an index outside of a table end the run:
there is no next state. `call`, `enabled`, `target`, `woken`, `holds`, `since` and `exited` of a
thread, `holder` of a lock, `clock` and `log` record what has happened and are read by no step.
-/

set_option autoImplicit false
set_option relaxedAutoImplicit false

namespace OperatingSystems.Threads

open OperatingSystems.Library.LinkedQueue (Queue)

abbrev threadMaxThreads : ℕ := 1024
abbrev threadAny : ℤ := -1
abbrev threadSelf : ℤ := -2
abbrev threadInvalid : ℤ := -3
abbrev threadNone : ℤ := -4
abbrev threadNomore : ℤ := -5
abbrev threadNomemory : ℤ := -6

inductive Status
  | running
  | ready
  | blocked
  | exited
  deriving DecidableEq

/-- The wait queues: `thread_wait_queues[tid]`, the queue of a lock, that of a condition variable,
and the queues from `wait_queue_create`. -/
inductive WaitQueue
  | thread (tid : ℕ)
  | lock (l : ℕ)
  | cv (c : ℕ)
  | user (u : ℕ)
  deriving DecidableEq

inductive QueueId
  | rq
  | eq
  | wait (w : WaitQueue)
  deriving DecidableEq

/-- The places inside `clear_queue`: before the test of the loop, before `next` is read, before
`free_node`, before the head is advanced, and before the two assignments after the loop. The local
variable `next` goes along. -/
inductive ClearPc
  | test
  | next
  | free (next : Option ℕ)
  | advance (next : Option ℕ)
  | tail
  | size
  deriving DecidableEq

/-- The statements of the library between which the timer can interrupt, if the flag is set. -/
inductive Instr
  | off
  | set
  | on
  | sigreturn
  | create
  | yieldTo (want : ℤ)
  | sleepOn (w : WaitQueue)
  | wakeup (w : WaitQueue) (all : Bool)
  | kill (tid : ℤ)
  | waitCheck (tid : ℤ)
  | waitReturn (tid : ℤ)
  | checkExited
  | setRunning
  | clear (pc : ClearPc)
  | exit
  | lockCreate
  | lockDestroy (l : ℕ)
  | acquire (l : ℕ)
  | release (l : ℕ)
  | cvCreate
  | cvDestroy (c : ℕ)
  | assertHeld (c l : ℕ)
  | queueCreate
  deriving DecidableEq

/-- The calls a thread makes from its own code. A thread whose `thread_main` returns calls
`thread_exit`. -/
inductive Call
  | threadCreate
  | threadYield (want : ℤ)
  | threadExit
  | threadKill (tid : ℤ)
  | threadSleep (u : ℕ)
  | threadWakeup (u : ℕ) (all : Bool)
  | threadWait (tid : ℤ)
  | lockCreate
  | lockDestroy (l : ℕ)
  | lockAcquire (l : ℕ)
  | lockRelease (l : ℕ)
  | cvCreate
  | cvDestroy (c : ℕ)
  | cvWait (c l : ℕ)
  | cvSignal (c l : ℕ)
  | cvBroadcast (c l : ℕ)
  | waitQueueCreate
  deriving DecidableEq

/-! ### The code of the library -/

open Instr in
/-- What `thread_yield` and `thread_sleep` do after their `getcontext` when the thread is switched
to, up to `interrupts_set`. -/
def resumeCode : List Instr := [checkExited, setRunning, clear .test]

open Instr in
/-- `thread_stub` up to the call of `thread_main`. -/
def stubCode : List Instr := [on, checkExited, setRunning, clear .test]

open Instr in
/-- `thread_yield`. -/
def yieldCode (want : ℤ) : List Instr := [off, yieldTo want, set]

open Instr in
/-- `interrupt_handler` and the return from the signal. -/
def handlerCode : List Instr := yieldCode threadAny ++ [sigreturn]

open Instr in
/-- `thread_sleep`. -/
def sleepCode (w : WaitQueue) : List Instr := [off, sleepOn w, set]

open Instr in
/-- `thread_wakeup`. -/
def wakeupCode (w : WaitQueue) (all : Bool) : List Instr := [off, wakeup w all, set]

open Instr in
/-- `lock_acquire`. -/
def acquireCode (l : ℕ) : List Instr := [off, acquire l, set]

open Instr in
/-- `lock_release`. The statement `release` ends inside `thread_wakeup`, before its
`interrupts_set`. -/
def releaseCode (l : ℕ) : List Instr := [off, release l, set, set]

open Instr in
/-- The statements of each call. -/
def code : Call → List Instr
  | .threadCreate => [off, create, set]
  | .threadYield want => yieldCode want
  | .threadExit => [exit]
  | .threadKill tid => [off, kill tid, set]
  | .threadSleep u => sleepCode (.user u)
  | .threadWakeup u all => wakeupCode (.user u) all
  | .threadWait tid => [off, waitCheck tid, set]
  | .lockCreate => [off, lockCreate, set]
  | .lockDestroy l => [off, lockDestroy l, set]
  | .lockAcquire l => acquireCode l
  | .lockRelease l => releaseCode l
  | .cvCreate => [off, cvCreate, set]
  | .cvDestroy c => [off, cvDestroy c, set]
  | .cvWait c l =>
    [off, assertHeld c l] ++ releaseCode l ++ sleepCode (.cv c) ++ acquireCode l ++ [set]
  | .cvSignal c l => [off, assertHeld c l] ++ wakeupCode (.cv c) false ++ [set]
  | .cvBroadcast c l => [off, assertHeld c l] ++ wakeupCode (.cv c) true ++ [set]
  | .waitQueueCreate => [queueCreate]

/-! ### The state -/

/-- A thread: its control block, the rest of its call stack, and what is recorded of it. -/
structure Thread where
  id : ℕ
  status : Status
  /-- The signal mask in its saved context: whether interrupts are enabled. -/
  mask : Bool
  todo : List Instr
  saved : List Bool
  ret : ℤ
  /-- The call it is inside of. -/
  call : Option Call
  /-- The flag when that call was made. -/
  enabled : Bool
  /-- The thread that had the awaited id when `thread_wait` was called. -/
  target : Option ℕ
  /-- The queues a wake-up has taken it from since that call. -/
  woken : List WaitQueue
  /-- The locks it has got back from `lock_acquire` or `cv_wait` and has not called `lock_release`
  or `cv_wait` on since. -/
  holds : List ℕ
  /-- When it last joined a wait queue. -/
  since : ℕ
  /-- It has executed `thread_exit`. -/
  exited : Bool

structure Lock where
  locked : Bool
  thread : ℤ
  /-- The thread that last took the lock. -/
  holder : ℕ

/-- A thread before its first step. -/
def Thread.start (id : ℕ) (status : Status) (mask : Bool) (todo : List Instr) : Thread where
  id := id
  status := status
  mask := mask
  todo := todo
  saved := []
  ret := 0
  call := none
  enabled := true
  target := none
  woken := []
  holds := []
  since := 0
  exited := false

/-- The state apart from the queues. -/
structure Core where
  tcb : ℕ → Thread
  /-- The array `threads`. -/
  threads : ℕ → Option ℕ
  locks : ℕ → Option Lock
  /-- Whether interrupts are enabled. -/
  flag : Bool
  /-- The thread that is executed. -/
  current : ℕ
  /-- The number of threads allocated so far. -/
  allocated : ℕ
  /-- The number of locks, condition variables and user queues allocated so far. -/
  objects : ℕ
  /-- The number of times a thread has joined a wait queue. -/
  clock : ℕ
  /-- The process has called `exit`. -/
  halted : Bool

/-- What `clear_queue` does with a node. -/
inductive Event
  | read (node : ℕ)
  | free (by_ node : ℕ)
  deriving DecidableEq

structure State where
  core : Core
  next : ℕ → Option ℕ
  queues : QueueId → Option (Queue ℕ)
  /-- The newest event comes first. -/
  log : List Event

/-! ### Changes of the state apart from the queues -/

namespace Core

variable (c : Core)

/-- The thread that is executed. -/
def self : Thread := c.tcb c.current

def modify (h : ℕ) (f : Thread → Thread) : Core :=
  { c with tcb := Function.update c.tcb h (f (c.tcb h)) }

/-- Put statements in front of those the running thread has still to execute. -/
def push (extra : List Instr) : Core :=
  c.modify c.current fun t ↦ { t with todo := extra ++ t.todo }

/-- The running thread stores a result. -/
def setRet (r : ℤ) : Core := c.modify c.current fun t ↦ { t with ret := r }

/-- `set_thread_status`. -/
def setThreadStatus (h : ℕ) (status : Status) : Core :=
  c.modify h fun t ↦ if t.status = .exited then t else { t with status := status }

/-- `getcontext` in `thread_yield` and `thread_sleep`: the signal mask is saved, and the thread will
go on with the resume path. -/
def getcontext : Core :=
  c.modify c.current fun t ↦ { t with mask := c.flag, todo := resumeCode ++ t.todo }

/-- `setcontext`. -/
def setcontext (h : ℕ) : Core := { c with current := h, flag := (c.tcb h).mask }

/-- `interrupts_off`, with its result kept. -/
def interruptsOff : Core :=
  { c.modify c.current fun t ↦ { t with saved := c.flag :: t.saved } with flag := false }

/-- `interrupts_set(enabled)` with the value kept last. -/
def interruptsSet : Option Core :=
  match c.self.saved with
  | [] => none
  | b :: rest => some { c.modify c.current fun t ↦ { t with saved := rest } with flag := b }

/-- A thread is taken from a wait queue by a wake-up. -/
def wake (w : WaitQueue) (h : ℕ) : Core :=
  (c.setThreadStatus h .ready).modify h fun t ↦ { t with woken := w :: t.woken }

/-- The running thread leaves `thread_stub` or the resume path for `thread_exit`. -/
def abandon : Core :=
  c.modify c.current fun t ↦ { t with todo := [.exit], saved := [], call := some .threadExit }

/-- The least `i` from `i` on, among the next `n`, that is no id of a thread. -/
def findFree : ℕ → ℕ → Option ℕ
  | _, 0 => none
  | i, n + 1 => if c.threads i = none then some i else findFree (i + 1) n

/-- `threads[tid]`; there is no value at an index outside of the array. -/
def threadAt (tid : ℤ) : Option (Option ℕ) :=
  if 0 ≤ tid ∧ tid < threadMaxThreads then some (c.threads tid.toNat) else none

theorem threadAt_eq_some {tid : ℤ} {found : Option ℕ} : c.threadAt tid = some found ↔
    (0 ≤ tid ∧ tid < threadMaxThreads) ∧ c.threads tid.toNat = found := by
  rw [threadAt, Option.ite_none_right_eq_some, Option.some.injEq]

/-- The control block of a new thread is filled in and entered in `threads`. -/
def addThread (id : ℕ) : Core :=
  { c with
    tcb := Function.update c.tcb c.allocated (.start id .ready c.flag stubCode)
    threads := Function.update c.threads id (some c.allocated)
    allocated := c.allocated + 1 }

def setLock (l : ℕ) (k : Option Lock) : Core := { c with locks := Function.update c.locks l k }

/-- The running thread has joined a wait queue. -/
def stamp : Core :=
  { c.modify c.current fun t ↦ { t with since := c.clock } with clock := c.clock + 1 }

/-- The thread that `thread_wait` is to wait for. -/
def targetOf : Call → Option ℕ
  | .threadWait tid => if 0 ≤ tid ∧ tid < threadMaxThreads then c.threads tid.toNat else none
  | _ => none

/-- The running thread makes a call. -/
def begin (k : Call) : Core :=
  c.modify c.current fun t ↦
    { t with
      todo := code k
      call := some k
      enabled := c.flag
      target := c.targetOf k
      woken := []
      holds :=
        match k with
        | .lockRelease l | .cvWait _ l => t.holds.filter (· ≠ l)
        | _ => t.holds }

/-- A thread with no statement of the library left is back from its call. -/
def finish (h : ℕ) : Core :=
  c.modify h fun t ↦
    if t.todo = [] then
      { t with
        call := none
        holds :=
          match t.call with
          | some (.lockAcquire l) | some (.cvWait _ l) => l :: t.holds
          | _ => t.holds }
    else t

/-- The timer interrupts the running thread. -/
def interrupt : Core := { c.push handlerCode with flag := false }

end Core

namespace State

/-! ### Queues -/

variable (s : State)

def mapCore (f : Core → Core) : State := { s with core := f s.core }

/-- `append_node_to_queue`. -/
def appendNodeToQueue (q : QueueId) (n : ℕ) : Option State := do
  let k ← s.queues q
  let (next, k) ← Library.LinkedQueue.append s.next k n
  some { s with next := next, queues := Function.update s.queues q (some k) }

/-- `pop_queue`. -/
def popQueue (q : QueueId) : Option (ℕ × State) := do
  let k ← s.queues q
  let (n, next, k) ← Library.LinkedQueue.pop s.next k
  some (n, { s with next := next, queues := Function.update s.queues q (some k) })

/-- `move_head_to_end`. -/
def moveHeadToEnd (q : QueueId) : Option State := do
  let k ← s.queues q
  let (next, k) ← Library.LinkedQueue.moveHeadToEnd s.next k
  some { s with next := next, queues := Function.update s.queues q (some k) }

/-- `move_to_head`. -/
def moveToHead (q : QueueId) (target : ℕ) (prev : Option ℕ) : Option State := do
  let k ← s.queues q
  if k.size ≤ 1 then some s
  else if k.head = some target then some s
  else do
    let p ← prev
    let (next, k) := Library.LinkedQueue.moveToHead s.next k p target
    some { s with next := next, queues := Function.update s.queues q (some k) }

/-- The loop of `find_in_queue_with_prev`, which stands at `current`. -/
def findLoop (tid : ℤ) : ℕ → ℕ → Option (ℕ × Option ℕ)
  | 0, _ => none
  | fuel + 1, current =>
    match s.next current with
    | none => some (current, none)
    | some n => if (s.core.tcb n).id = tid then some (current, some n) else findLoop tid fuel n

/-- `find_in_queue_with_prev`: the node before the one that is found, and that node. -/
def findInQueueWithPrev (q : QueueId) (tid : ℤ) : Option (Option ℕ × Option ℕ) := do
  let k ← s.queues q
  let h ← k.head
  if (s.core.tcb h).id = tid then some (none, some h)
  else do
    let (prev, found) ← s.findLoop tid (s.core.allocated + 1) h
    some (some prev, found)

/-- One step of `clear_queue`, and the place it leads to. -/
def clearStep (q : QueueId) : ClearPc → Option (State × Option ClearPc)
  | .test => do
    let k ← s.queues q
    some (s, some (if k.head = none then .tail else .next))
  | .next => do
    let k ← s.queues q
    let h ← k.head
    some ({ s with log := .read h :: s.log }, some (.free (s.next h)))
  | .free next => do
    let k ← s.queues q
    match k.head with
    | none => some (s, some (.advance next))
    | some h => some ({ s with log := .free s.core.current h :: s.log }, some (.advance next))
  | .advance next => do
    let k ← s.queues q
    some ({ s with queues := Function.update s.queues q (some { k with head := next }) },
      some .test)
  | .tail => do
    let k ← s.queues q
    some ({ s with queues := Function.update s.queues q (some { k with tail := none }) },
      some .size)
  | .size => do
    let k ← s.queues q
    some ({ s with queues := Function.update s.queues q (some { k with size := 0 }) }, none)

/-- `clear_queue` from a place to its end. -/
def clearQueue (q : QueueId) : ℕ → ClearPc → State → Option State
  | 0, _, _ => none
  | fuel + 1, pc, s => do
    match ← s.clearStep q pc with
    | (s, none) => some s
    | (s, some pc) => clearQueue q fuel pc s

/-- The steps `clear_queue` takes at most: four for each node there is, and three. -/
def clearFuel : ℕ := 4 * s.core.allocated + 3

/-- `wait_queue_destroy`, and the pointer to the queue is null from then on. -/
def waitQueueDestroy (w : WaitQueue) : Option State :=
  match s.queues (.wait w) with
  | none => some s
  | some _ => do
    let s ← clearQueue (.wait w) s.clearFuel .test s
    some { s with queues := Function.update s.queues (.wait w) none }

/-- `wait_queue_create`. -/
def waitQueueCreate (w : WaitQueue) : State :=
  { s with queues := Function.update s.queues (.wait w) (some Queue.empty) }

/-- The loop of `thread_wakeup`, with the number of threads it moves. -/
def wakeupLoop (w : WaitQueue) (all : Bool) : ℕ → State → Option (State × ℕ)
  | 0, _ => none
  | fuel + 1, s => do
    let (n, s) ← s.popQueue (.wait w)
    let s ← (s.mapCore (·.wake w n)).appendNodeToQueue .rq n
    let k ← s.queues (.wait w)
    if all ∧ k.head ≠ none then do
      let (s, count) ← wakeupLoop w all fuel s
      some (s, count + 1)
    else some (s, 1)

/-- `thread_wakeup` between its `interrupts_off` and its `interrupts_set`. -/
def threadWakeup (w : WaitQueue) (all : Bool) : Option (State × ℕ) :=
  match s.queues (.wait w) with
  | none => some (s, 0)
  | some k => if k.size = 0 then some (s, 0) else wakeupLoop w all (s.core.allocated + 1) s

/-- The node at the head of the ready queue. -/
def readyHead : Option ℕ := (s.queues .rq).bind (·.head)

/-- `thread_id`. -/
def threadId : Option ℕ := s.readyHead.map fun h ↦ (s.core.tcb h).id

/-! ### The statements -/

/-- The last part of `thread_yield`: `current_thread` makes way for `want_thread`. -/
def yieldSwitch (old want : ℕ) : State :=
  s.mapCore fun c ↦
    (((c.setThreadStatus old .ready).getcontext).setRet (c.tcb want).id).setcontext want

/-- `thread_yield` between its `interrupts_off` and its `interrupts_set`. -/
def threadYield (want : ℤ) : Option State := do
  let k ← s.queues .rq
  let old ← k.head
  if want = threadAny then
    if k.size = 1 then some (s.mapCore (·.setRet threadNone))
    else do
      let target ← s.next old
      let s ← s.moveHeadToEnd .rq
      some (s.yieldSwitch old target)
  else if want = threadSelf ∨ want = (s.core.tcb old).id then some (s.yieldSwitch old old)
  else do
    let (prev, found) ← s.findInQueueWithPrev .rq want
    match found with
    | none => some (s.mapCore (·.setRet threadInvalid))
    | some target => do
      let s ← s.moveHeadToEnd .rq
      let s ← s.moveToHead .rq target prev
      some (s.yieldSwitch old target)

/-- `thread_sleep` between its `interrupts_off` and its `interrupts_set`. -/
def threadSleep (w : WaitQueue) : Option State :=
  match s.queues (.wait w) with
  | none => some (s.mapCore (·.setRet threadInvalid))
  | some _ => do
    let k ← s.queues .rq
    if k.size = 1 then some (s.mapCore (·.setRet threadNone))
    else do
      let (n, s) ← s.popQueue .rq
      let s ← s.appendNodeToQueue (.wait w) n
      let new ← s.readyHead
      some (s.mapCore fun c ↦
        ((((c.setThreadStatus n .blocked).getcontext).stamp).setRet (c.tcb new).id).setcontext new)

/-- `thread_create` between its `interrupts_off` and its `interrupts_set`. It calls `malloc` three
times, of which the first `memory` succeed; after a failure it frees what it has got. -/
def threadCreate (memory : ℕ) : Option State :=
  match s.core.findFree 0 threadMaxThreads with
  | none => some (s.mapCore (·.setRet threadNomore))
  | some id =>
    if memory < 3 then some (s.mapCore (·.setRet threadNomemory))
    else do
      let s' ← { s with next := Function.update s.next s.core.allocated none }.appendNodeToQueue .rq
        s.core.allocated
      some (s'.mapCore fun c ↦ (c.addThread id).setRet id)

/-- `thread_kill` between its `interrupts_off` and its `interrupts_set`. -/
def threadKill (tid : ℤ) : Option State := do
  let self ← s.threadId
  if tid = self then some (s.mapCore (·.setRet threadInvalid))
  else if tid < 0 ∨ threadMaxThreads ≤ tid then some (s.mapCore (·.setRet threadInvalid))
  else do
    match ← s.core.threadAt tid with
    | none => some (s.mapCore (·.setRet threadInvalid))
    | some h => some (s.mapCore fun c ↦ (c.setThreadStatus h .exited).setRet (c.tcb h).id)

/-- `thread_wait` from its `interrupts_off` to its call of `thread_sleep`. -/
def threadWait (tid : ℤ) (memory : ℕ) : Option State := do
  let self ← s.threadId
  if tid < 0 ∨ tid = self then some (s.mapCore (·.setRet threadInvalid))
  else do
    match ← s.core.threadAt tid with
    | none => some (s.mapCore (·.setRet threadInvalid))
    | some _ =>
      let sleep (s : State) :=
        s.mapCore (·.push (sleepCode (.thread tid.toNat) ++ [.waitReturn tid]))
      match s.queues (.wait (.thread tid.toNat)) with
      | some _ => some (sleep s)
      | none => if memory < 1 then none else some (sleep (s.waitQueueCreate (.thread tid.toNat)))

/-- `thread_exit` of the last thread that is ready, after it has been taken off the ready queue. -/
def exitProcess : Option State := do
  let s ← clearQueue .eq s.clearFuel .test s
  let s ← (List.range threadMaxThreads).foldlM (fun s i ↦ s.waitQueueDestroy (.thread i)) s
  some (s.mapCore fun c ↦ { c with halted := true })

/-- `thread_exit`. -/
def threadExit : Option State := do
  let id ← s.threadId
  let s := s.mapCore fun c ↦
    { c with flag := false, threads := Function.update c.threads id none }
  let (s, _) ← s.threadWakeup (.thread id) true
  let s ← s.waitQueueDestroy (.thread id)
  let (n, s) ← s.popQueue .rq
  let s := s.mapCore (·.modify n fun t ↦ { t with exited := true })
  match s.readyHead with
  | none => s.exitProcess
  | some _ => do
    let s ← s.appendNodeToQueue .eq n
    let new ← s.readyHead
    some (s.mapCore (·.setcontext new))

/-- `lock_create` between its `interrupts_off` and its `interrupts_set`. The new lock's `thread` is
what `malloc` left there. -/
def lockCreate (memory : ℕ) (left : ℤ) : Option State :=
  if memory < 2 then none
  else
    let l := s.core.objects
    some ((s.waitQueueCreate (.lock l)).mapCore fun c ↦
      ({ c.setLock l (some ⟨false, left, 0⟩) with objects := l + 1 }).setRet l)

/-- `lock_destroy` between its `interrupts_off` and its `interrupts_set`. -/
def lockDestroy (l : ℕ) : Option State := do
  let k ← s.core.locks l
  if k.locked then none
  else do
    let s ← s.waitQueueDestroy (.lock l)
    some (s.mapCore (·.setLock l none))

/-- The test of the loop of `lock_acquire`, and what follows: a call of `thread_sleep`, or the
taking of the lock. -/
def lockAcquire (l : ℕ) : Option State := do
  let k ← s.core.locks l
  if k.locked then some (s.mapCore (·.push (sleepCode (.lock l) ++ [.acquire l])))
  else do
    let id ← s.threadId
    some (s.mapCore fun c ↦ c.setLock l (some ⟨true, id, c.current⟩))

/-- The assertion that the calling thread has the lock. -/
def holdsLock (l : ℕ) : Option Bool := do
  let k ← s.core.locks l
  let id ← s.threadId
  some (k.locked && k.thread = id)

/-- `lock_release` from its assertion to the `interrupts_set` of its `thread_wakeup`. -/
def lockRelease (l : ℕ) : Option State := do
  let k ← s.core.locks l
  let held ← s.holdsLock l
  if held then do
    let (s, _) ← (s.mapCore fun c ↦
      (c.setLock l (some { k with locked := false })).interruptsOff).threadWakeup (.lock l) true
    some s
  else none

/-- `cv_create` between its `interrupts_off` and its `interrupts_set`. -/
def cvCreate (memory : ℕ) : Option State :=
  if memory < 2 then none
  else
    let c := s.core.objects
    some ((s.waitQueueCreate (.cv c)).mapCore fun k ↦ ({ k with objects := c + 1 }).setRet c)

/-- `cv_destroy` between its `interrupts_off` and its `interrupts_set`. -/
def cvDestroy (c : ℕ) : Option State := do
  let k ← s.queues (.wait (.cv c))
  if k.size = 0 then s.waitQueueDestroy (.cv c) else none

/-- The assertions of `cv_wait`, `cv_signal` and `cv_broadcast`. -/
def assertHeld (c l : ℕ) : Option State := do
  let _ ← s.queues (.wait (.cv c))
  let held ← s.holdsLock l
  if held then some s else none

/-- `wait_queue_create` called by a thread. -/
def queueCreate (memory : ℕ) : Option State :=
  if memory < 1 then none
  else
    let u := s.core.objects
    some ((s.waitQueueCreate (.user u)).mapCore fun c ↦ ({ c with objects := u + 1 }).setRet u)

/-- The test whether the thread at the head of the ready queue has been killed. -/
def checkExited : Option State := do
  let h ← s.readyHead
  if (s.core.tcb h).status = .exited then some (s.mapCore (·.abandon)) else some s

/-- What a step may find in memory: how many calls of `malloc` succeed, and what `malloc` leaves in
the first field it is asked for. -/
structure Memory where
  mallocs : ℕ
  left : ℤ
  deriving DecidableEq

/-- Execute a statement. -/
def exec (m : Memory) : Instr → Option State
  | .off => some (s.mapCore (·.interruptsOff))
  | .set => s.core.interruptsSet.map fun c ↦ { s with core := c }
  | .on => some (s.mapCore fun c ↦ { c with flag := true })
  | .sigreturn => some (s.mapCore fun c ↦ { c with flag := true })
  | .create => s.threadCreate m.mallocs
  | .yieldTo want => s.threadYield want
  | .sleepOn w => s.threadSleep w
  | .wakeup w all => do
    let (s, count) ← s.threadWakeup w all
    some (s.mapCore (·.setRet count))
  | .kill tid => s.threadKill tid
  | .waitCheck tid => s.threadWait tid m.mallocs
  | .waitReturn tid => some (s.mapCore (·.setRet tid))
  | .checkExited => s.checkExited
  | .setRunning => do
    let h ← s.readyHead
    some (s.mapCore (·.setThreadStatus h .running))
  | .clear pc => do
    let (s, pc) ← s.clearStep .eq pc
    some (s.mapCore (·.push (pc.toList.map .clear)))
  | .exit => s.threadExit
  | .lockCreate => s.lockCreate m.mallocs m.left
  | .lockDestroy l => s.lockDestroy l
  | .acquire l => s.lockAcquire l
  | .release l => s.lockRelease l
  | .cvCreate => s.cvCreate m.mallocs
  | .cvDestroy c => s.cvDestroy c
  | .assertHeld c l => s.assertHeld c l
  | .queueCreate => s.queueCreate m.mallocs

/-! ### Runs -/

/-- The moves: the timer interrupts, the running thread makes a call or calls `interrupts_set`
from its own code, or it executes its next statement of the library. -/
inductive Move
  | timer
  | call (k : Call)
  | interrupts (enabled : Bool)
  | instr (m : Memory)
  deriving DecidableEq

/-- The move leads from the state to the next one. -/
def step : Move → Option State
  | .timer => if s.core.flag ∧ ¬s.core.halted then some (s.mapCore (·.interrupt)) else none
  | .call k =>
    if s.core.self.todo = [] ∧ ¬s.core.halted then some (s.mapCore (·.begin k)) else none
  | .interrupts enabled =>
    if s.core.self.todo = [] ∧ ¬s.core.halted then
      some (s.mapCore fun c ↦ { c with flag := enabled })
    else none
  | .instr m =>
    match s.core.self.todo with
    | [] => none
    | i :: rest =>
      if s.core.halted then none
      else do
        let t ← (s.mapCore (·.modify s.core.current fun t ↦ { t with todo := rest })).exec m i
        some (t.mapCore (·.finish s.core.current))

/-- The moves of a run in which `malloc` succeeds: calls, each with the number of statements that
are executed before the next one. -/
def script (calls : List (Call × ℕ)) : List Move :=
  calls.flatMap fun p ↦ .call p.1 :: List.replicate p.2 (.instr ⟨3, 0⟩)

/-- The state after `thread_init`. -/
def init : State where
  core :=
    { tcb := fun _ ↦ .start 0 .running false []
      threads := Function.update (fun _ ↦ none) 0 (some 0)
      locks := fun _ ↦ none
      flag := true
      current := 0
      allocated := 1
      objects := 0
      clock := 0
      halted := false }
  next := fun _ ↦ none
  queues := Function.update (Function.update (fun _ ↦ none) .rq (some ⟨some 0, some 0, 1⟩)) .eq
    (some Queue.empty)
  log := []

/-- The states that can be reached. -/
def Reachable (s : State) : Prop := Library.Machine.Reaches (fun _ _ ↦ True) step init s

end State

end OperatingSystems.Threads
