import OperatingSystems.Threads.Scheduler

/-!
# The thread library over lists

What the library does, with the queues as lists of threads and without the exit queue, on which no
decision of the scheduler depends. `Executes a i b` says that a statement `i`, executed in `a`, may
lead to `b`; it has one constructor for each outcome of a statement, with the condition of the
outcome. `Transition` adds the moves. The model of the code is related to this one in
`Threads.Refinement`; every invariant of the scheduler is a fact about `Executes`.
-/

set_option autoImplicit false
set_option relaxedAutoImplicit false

namespace OperatingSystems.Threads

/-- Take the threads of a list, in order, from a wait queue. -/
def Core.wakeAll (c : Core) (w : WaitQueue) (moved : List ℕ) : Core :=
  moved.foldl (fun c h ↦ c.wake w h) c

/-- Waking threads changes nothing but their control blocks. -/
theorem Core.wakeAll_eq (c : Core) (w : WaitQueue) (moved : List ℕ) :
    c.wakeAll w moved = { c with tcb := (c.wakeAll w moved).tcb } := by
  induction moved generalizing c with
  | nil => rfl
  | cons h moved ih => exact ih (c.wake w h)

/-- The change of the state apart from the queues when `old` yields to `want`. -/
def Core.yieldSwitch (c : Core) (old want : ℕ) : Core :=
  (((c.setThreadStatus old .ready).getcontext).setRet (c.tcb want).id).setcontext want

/-- The change of the state apart from the queues when `old` goes to sleep and `new` runs. -/
def Core.sleepSwitch (c : Core) (old new : ℕ) : Core :=
  ((((c.setThreadStatus old .blocked).getcontext).stamp).setRet (c.tcb new).id).setcontext new

/-- The change of the state apart from the queues when `old` exits, wakes the threads `moved` and
`new` runs. -/
def Core.exitSwitch (c : Core) (old new : ℕ) (moved : List ℕ) : Core :=
  ((({ c with flag := false, threads := Function.update c.threads (c.tcb old).id none }).wakeAll
      (.thread (c.tcb old).id) moved).modify old fun t ↦ { t with exited := true }).setcontext new

/-- The scheduler over lists: the ready threads, the running one first, and the threads in each
wait queue there is. -/
structure Ideal where
  core : Core
  ready : List ℕ
  waiting : WaitQueue → Option (List ℕ)

namespace Ideal

variable (a : Ideal)

def mapCore (f : Core → Core) : Ideal := { a with core := f a.core }

/-- The threads in a wait queue, none if the queue does not exist. -/
def waiters (w : WaitQueue) : List ℕ := (a.waiting w).getD []

/-- The threads in a queue; the exit queue is left out. -/
def lists : QueueId → List ℕ
  | .rq => a.ready
  | .eq => []
  | .wait w => a.waiters w

def setList : QueueId → List ℕ → Ideal
  | .rq, l => { a with ready := l }
  | .eq, _ => a
  | .wait w, l => { a with waiting := Function.update a.waiting w (some l) }

/-- Remove a wait queue. -/
def dropQueue (w : WaitQueue) : Ideal := { a with waiting := Function.update a.waiting w none }

@[simp]
theorem mapCore_core (f : Core → Core) : (a.mapCore f).core = f a.core := rfl

@[simp]
theorem mapCore_ready (f : Core → Core) : (a.mapCore f).ready = a.ready := rfl

@[simp]
theorem mapCore_waiting (f : Core → Core) : (a.mapCore f).waiting = a.waiting := rfl

@[simp]
theorem mapCore_lists (f : Core → Core) (q : QueueId) : (a.mapCore f).lists q = a.lists q := by
  cases q <;> rfl

@[simp]
theorem setList_core (q : QueueId) (l : List ℕ) : (a.setList q l).core = a.core := by
  cases q <;> rfl

@[simp]
theorem dropQueue_core (w : WaitQueue) : (a.dropQueue w).core = a.core := rfl

@[simp]
theorem dropQueue_ready (w : WaitQueue) : (a.dropQueue w).ready = a.ready := rfl

theorem setList_lists_self {q : QueueId} (hq : q ≠ .eq) (l : List ℕ) :
    (a.setList q l).lists q = l := by
  cases q with
  | rq => rfl
  | eq => exact absurd rfl hq
  | wait w => simp [setList, lists, waiters]

theorem setList_lists_of_ne {q q' : QueueId} (hq : q' ≠ q) (l : List ℕ) :
    (a.setList q l).lists q' = a.lists q' := by
  cases q with
  | rq => cases q' <;> simp_all [setList, lists, waiters]
  | eq => rfl
  | wait w =>
    cases q' with
    | rq => rfl
    | eq => rfl
    | wait v =>
      have hv : v ≠ w := fun heq ↦ hq (by rw [heq])
      simp [setList, lists, waiters, Function.update_of_ne hv]

theorem dropQueue_lists_self (w : WaitQueue) : (a.dropQueue w).lists (.wait w) = [] := by
  simp [dropQueue, lists, waiters]

theorem dropQueue_lists_of_ne {w : WaitQueue} {q : QueueId} (hq : q ≠ .wait w) :
    (a.dropQueue w).lists q = a.lists q := by
  cases q with
  | rq => rfl
  | eq => rfl
  | wait v =>
    have hv : v ≠ w := fun heq ↦ hq (by rw [heq])
    simp [dropQueue, lists, waiters, Function.update_of_ne hv]

open State (Move Memory)

/-- The statement may lead from the first state to the second. -/
inductive Executes (a : Ideal) : Instr → Ideal → Prop
  | off : Executes a .off (a.mapCore (·.interruptsOff))
  | set {c : Core} (hset : a.core.interruptsSet = some c) : Executes a .set { a with core := c }
  | on : Executes a .on (a.mapCore fun c ↦ { c with flag := true })
  | sigreturn : Executes a .sigreturn (a.mapCore fun c ↦ { c with flag := true })
  | createNomore (hfull : ∀ i < threadMaxThreads, a.core.threads i ≠ none) :
    Executes a .create (a.mapCore (·.setRet threadNomore))
  | createNomemory {id : ℕ} (hid : id < threadMaxThreads) (hfree : a.core.threads id = none) :
    Executes a .create (a.mapCore (·.setRet threadNomemory))
  | create {id : ℕ} (hid : id < threadMaxThreads) (hfree : a.core.threads id = none)
      (hleast : ∀ i < id, a.core.threads i ≠ none) :
    Executes a .create ((a.setList .rq (a.ready ++ [a.core.allocated])).mapCore fun c ↦
      (c.addThread id).setRet id)
  | yieldNone {old : ℕ} (hready : a.ready = [old]) :
    Executes a (.yieldTo threadAny) (a.mapCore (·.setRet threadNone))
  | yieldInvalid {want : ℤ} (hany : want ≠ threadAny)
      (hwant : ∀ h ∈ a.ready, (a.core.tcb h).id ≠ want) :
    Executes a (.yieldTo want) (a.mapCore (·.setRet threadInvalid))
  | yieldSelf {want : ℤ} {old : ℕ} {rest : List ℕ} (hready : a.ready = old :: rest)
      (hany : want ≠ threadAny) (hwant : want = threadSelf ∨ want = (a.core.tcb old).id) :
    Executes a (.yieldTo want) (a.mapCore (·.yieldSwitch old old))
  | yieldSwitch {want : ℤ} {old target : ℕ} {before after : List ℕ}
      (hready : a.ready = old :: (before ++ target :: after))
      (hwant : want = threadAny ∧ before = [] ∨ want = (a.core.tcb target).id) :
    Executes a (.yieldTo want) ((a.setList .rq (target :: (before ++ after ++ [old]))).mapCore
      (·.yieldSwitch old target))
  | sleepInvalid {w : WaitQueue} (hw : a.waiting w = none) :
    Executes a (.sleepOn w) (a.mapCore (·.setRet threadInvalid))
  | sleepNone {w : WaitQueue} {old : ℕ} {l : List ℕ} (hready : a.ready = [old])
      (hw : a.waiting w = some l) :
    Executes a (.sleepOn w) (a.mapCore (·.setRet threadNone))
  | sleep {w : WaitQueue} {old new : ℕ} {rest l : List ℕ} (hready : a.ready = old :: new :: rest)
      (hw : a.waiting w = some l) :
    Executes a (.sleepOn w) (((a.setList .rq (new :: rest)).setList (.wait w) (l ++ [old])).mapCore
      (·.sleepSwitch old new))
  | wakeupNone {w : WaitQueue} {all : Bool} (hw : a.waiters w = []) :
    Executes a (.wakeup w all) (a.mapCore (·.setRet 0))
  | wakeup {w : WaitQueue} {all : Bool} {h : ℕ} {more kept : List ℕ}
      (hw : a.waiting w = some (h :: more ++ kept)) (hmore : all = false → more = [])
      (hkept : all = true → kept = []) :
    Executes a (.wakeup w all)
      (((a.setList (.wait w) kept).setList .rq (a.ready ++ h :: more)).mapCore fun c ↦
        (c.wakeAll w (h :: more)).setRet ((h :: more).length : ℕ))
  | killFails {tid : ℤ} {old : ℕ} {rest : List ℕ} (hready : a.ready = old :: rest)
      (hfails : tid = (a.core.tcb old).id ∨ tid < 0 ∨ (threadMaxThreads : ℤ) ≤ tid ∨
        a.core.threads tid.toNat = none) :
    Executes a (.kill tid) (a.mapCore (·.setRet threadInvalid))
  | kill {tid : ℤ} {old h : ℕ} {rest : List ℕ} (hready : a.ready = old :: rest)
      (hself : tid ≠ (a.core.tcb old).id) (htid : 0 ≤ tid ∧ tid < threadMaxThreads)
      (hthread : a.core.threads tid.toNat = some h) :
    Executes a (.kill tid) (a.mapCore fun c ↦
      (c.setThreadStatus h .exited).setRet (c.tcb h).id)
  | waitFails {tid : ℤ} {old : ℕ} {rest : List ℕ} (hready : a.ready = old :: rest)
      (hfails : tid < 0 ∨ tid = (a.core.tcb old).id ∨ a.core.threads tid.toNat = none) :
    Executes a (.waitCheck tid) (a.mapCore (·.setRet threadInvalid))
  | wait {tid : ℤ} {old h : ℕ} {rest : List ℕ} (hready : a.ready = old :: rest)
      (hself : tid ≠ (a.core.tcb old).id) (htid : 0 ≤ tid ∧ tid < threadMaxThreads)
      (hthread : a.core.threads tid.toNat = some h) :
    Executes a (.waitCheck tid)
      ((a.setList (.wait (.thread tid.toNat)) (a.waiters (.thread tid.toNat))).mapCore
        (·.push (sleepCode (.thread tid.toNat) ++ [.waitReturn tid])))
  | waitReturn {tid : ℤ} : Executes a (.waitReturn tid) (a.mapCore (·.setRet tid))
  | checkPasses {old : ℕ} {rest : List ℕ} (hready : a.ready = old :: rest)
      (hstatus : (a.core.tcb old).status ≠ .exited) : Executes a .checkExited a
  | checkExits {old : ℕ} {rest : List ℕ} (hready : a.ready = old :: rest)
      (hstatus : (a.core.tcb old).status = .exited) :
    Executes a .checkExited (a.mapCore (·.abandon))
  | setRunning {old : ℕ} {rest : List ℕ} (hready : a.ready = old :: rest) :
    Executes a .setRunning (a.mapCore (·.setThreadStatus old .running))
  | clear {pc : ClearPc} {pc' : Option ClearPc} :
    Executes a (.clear pc) (a.mapCore (·.push (pc'.toList.map .clear)))
  | exit {old new : ℕ} {rest rest' : List ℕ} (hready : a.ready = old :: rest)
      (hrest : rest ++ a.waiters (.thread (a.core.tcb old).id) = new :: rest') :
    Executes a .exit (((a.setList .rq (new :: rest')).dropQueue
      (.thread (a.core.tcb old).id)).mapCore
        (·.exitSwitch old new (a.waiters (.thread (a.core.tcb old).id))))
  | lockCreate {left : ℤ} :
    Executes a .lockCreate ((a.setList (.wait (.lock a.core.objects)) []).mapCore fun c ↦
      ({ c.setLock c.objects (some ⟨false, left, 0⟩) with objects := c.objects + 1 }).setRet
        c.objects)
  | lockDestroy {l : ℕ} {k : Lock} (hlock : a.core.locks l = some k) (hfree : k.locked = false) :
    Executes a (.lockDestroy l) ((a.dropQueue (.lock l)).mapCore (·.setLock l none))
  | acquireBlocked {l : ℕ} {k : Lock} (hlock : a.core.locks l = some k) (hheld : k.locked = true) :
    Executes a (.acquire l) (a.mapCore (·.push (sleepCode (.lock l) ++ [.acquire l])))
  | acquire {l old : ℕ} {rest : List ℕ} {k : Lock} (hready : a.ready = old :: rest)
      (hlock : a.core.locks l = some k) (hfree : k.locked = false) :
    Executes a (.acquire l) (a.mapCore fun c ↦
      c.setLock l (some ⟨true, (c.tcb old).id, c.current⟩))
  | release {l old : ℕ} {rest : List ℕ} {k : Lock} (hready : a.ready = old :: rest)
      (hlock : a.core.locks l = some k) (hheld : k.locked = true)
      (hthread : k.thread = (a.core.tcb old).id) (hwaiting : a.waiting (.lock l) ≠ none) :
    Executes a (.release l)
      (((a.setList (.wait (.lock l)) []).setList .rq (a.ready ++ a.waiters (.lock l))).mapCore
        fun c ↦ ((c.setLock l (some { k with locked := false })).interruptsOff).wakeAll (.lock l)
          (a.waiters (.lock l)))
  | cvCreate :
    Executes a .cvCreate ((a.setList (.wait (.cv a.core.objects)) []).mapCore fun c ↦
      ({ c with objects := c.objects + 1 }).setRet c.objects)
  | cvDestroy {c : ℕ} (hwaiting : a.waiting (.cv c) = some []) :
    Executes a (.cvDestroy c) (a.dropQueue (.cv c))
  | assertHeld {c l old : ℕ} {rest : List ℕ} {k : Lock} (hready : a.ready = old :: rest)
      (hwaiting : a.waiting (.cv c) ≠ none) (hlock : a.core.locks l = some k)
      (hheld : k.locked = true) (hthread : k.thread = (a.core.tcb old).id) :
    Executes a (.assertHeld c l) a
  | queueCreate :
    Executes a .queueCreate ((a.setList (.wait (.user a.core.objects)) []).mapCore fun c ↦
      ({ c with objects := c.objects + 1 }).setRet c.objects)

/-- The state in which the next statement is executed: it has been taken off the list. -/
def popped (rest : List Instr) : Ideal :=
  a.mapCore (·.modify a.core.current fun t ↦ { t with todo := rest })

/-- The move may lead from the first state to the second. -/
inductive Transition (a : Ideal) : Move → Ideal → Prop
  | timer (hflag : a.core.flag = true) : Transition a .timer (a.mapCore (·.interrupt))
  | call {k : Call} (htodo : a.core.self.todo = []) :
    Transition a (.call k) (a.mapCore (·.begin k))
  | interrupts {enabled : Bool} (htodo : a.core.self.todo = []) :
    Transition a (.interrupts enabled) (a.mapCore fun c ↦ { c with flag := enabled })
  | instr {m : Memory} {i : Instr} {rest : List Instr} {b : Ideal}
      (htodo : a.core.self.todo = i :: rest)
      (hexec : Executes (a.popped rest) i b) :
    Transition a (.instr m) (b.mapCore (·.finish a.core.current))

end Ideal

end OperatingSystems.Threads
