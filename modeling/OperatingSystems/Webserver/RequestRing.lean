import OperatingSystems.Library.Machine
import OperatingSystems.Library.RingBuffer

/-!
# The request ring of the web server

`server_thread.c`: `add_request`, `take_request`, `worker_thread`, `server_init` and `server_exit`.
Producers put connections into a ring under `sv->lock` and wait on `cv_full`; the worker threads
take them out under the same lock and wait on `cv_empty`; `server_exit` sets `exiting` and
broadcasts `cv_empty`, both without the lock.

Every statement of these functions that touches shared memory is a step of its own. A thread's
program position says which statement it executes next; the positions between the acquisition and
the release of `sv->lock` are reachable only for the thread that holds it. `pthread_cond_wait`
is three steps: it gives up the lock and joins the waiters in one step, it is woken by a broadcast
or for no reason at all, and it takes the lock again. A thread that a broadcast has woken is
`woken`, so the threads that wait un-notified are exactly those that are `asleep`.

The slots of the ring are a map from indices to connections, with whatever contents the allocation
leaves there at first. The last three fields of `Server` record the history of a run and no step
reads them: which connections were added and taken, in order, and which request each call of
`do_server_request` was for.
-/

set_option autoImplicit false
set_option relaxedAutoImplicit false

namespace OperatingSystems.Webserver

open OperatingSystems.Library

/-- `struct request_buffer`. -/
structure RequestBuffer where
  requests : ℕ → ℤ
  inp : ℕ
  out : ℕ
  maxSize : ℕ

/-- The condition under which the buffer is full. The source computes `in - out + max_size`, which
is not negative as both indices are below `max_size`. -/
def RequestBuffer.full (b : RequestBuffer) : Bool :=
  (b.inp + b.maxSize - b.out) % b.maxSize == b.maxSize - 1

/-- The condition under which the buffer is empty. -/
def RequestBuffer.empty (b : RequestBuffer) : Bool := b.inp == b.out

/-- What a producer executes next in `add_request`. -/
inductive ProducerPc
  /-- Not in `add_request`. -/
  | idle
  /-- Take `sv->lock`. -/
  | lock (connfd : ℤ)
  /-- Test whether the buffer is full. -/
  | test (connfd : ℤ)
  /-- The buffer was full: release the lock and join the waiters of `cv_full`. -/
  | wait (connfd : ℤ)
  /-- Waiting on `cv_full`, not notified. -/
  | asleep (connfd : ℤ)
  /-- Woken from `cv_full`: take the lock again. -/
  | woken (connfd : ℤ)
  /-- Store the connection. -/
  | store (connfd : ℤ)
  /-- Broadcast `cv_empty` if the buffer was empty. -/
  | notify (connfd : ℤ)
  /-- Move `in` on. -/
  | advance (connfd : ℤ)
  /-- Release the lock. -/
  | unlock
  deriving DecidableEq, Repr

/-- A request as a worker takes it: its place in the order of all takes, which is a record of the
run only, and the connection read from the buffer. -/
structure Request where
  ticket : ℕ
  connfd : ℤ
  deriving DecidableEq, Repr

/-- What a worker executes next in `worker_thread` and `take_request`. -/
inductive WorkerPc
  /-- Test `exiting` in the loop of `worker_thread`. -/
  | loop
  /-- Take `sv->lock`. -/
  | lock
  /-- Test `exiting` and whether the buffer is empty. -/
  | test
  /-- Not exiting and the buffer was empty: release the lock and join the waiters of `cv_empty`. -/
  | wait
  /-- Waiting on `cv_empty`, not notified. -/
  | asleep
  /-- Woken from `cv_empty`: take the lock again. -/
  | woken
  /-- Read the connection. -/
  | take
  /-- Broadcast `cv_full` if the buffer was full. -/
  | notify (connfd : ℤ)
  /-- Move `out` on. -/
  | advance (connfd : ℤ)
  /-- Release the lock. -/
  | unlock (r : Request)
  /-- Test `exiting` before processing the request. -/
  | check (r : Request)
  /-- Call `do_server_request`. -/
  | serve (r : Request)
  /-- In `do_server_request`. -/
  | serving (r : Request)
  /-- After `pthread_exit`. -/
  | exited
  deriving DecidableEq, Repr

/-- What the thread that shuts the server down executes next in `server_exit`. -/
inductive ExitPc
  /-- `server_exit` is not called yet. -/
  | running
  /-- `exiting` is set: broadcast `cv_empty`. -/
  | broadcast
  /-- In the `pthread_join` loop. -/
  | joining
  /-- All workers are joined and the server is freed. -/
  | freed
  deriving DecidableEq, Repr

/-- The holder of `sv->lock`. -/
inductive Agent
  | producer (p : ℕ)
  | worker (w : ℕ)
  deriving DecidableEq, Repr

/-- `struct server` with the program positions of its threads and the history of the run. -/
structure Server where
  nrThreads : ℕ
  maxRequests : ℕ
  exiting : Bool
  buffer : RequestBuffer
  lock : Option Agent
  producers : ℕ → ProducerPc
  workers : ℕ → WorkerPc
  exit : ExitPc
  added : List ℤ
  taken : List ℤ
  served : List Request

/-- The server when `server_init` returns, with the contents that the allocation left in the slots.
`server_init` starts the workers before it initialises the lock and the condition variables; runs in
which a worker moves before that are left out. -/
def serverInit (nrThreads maxRequests : ℕ) (slots : ℕ → ℤ) : Server where
  nrThreads := nrThreads
  maxRequests := maxRequests + 1
  exiting := false
  buffer := ⟨slots, 0, 0, maxRequests + 1⟩
  lock := none
  producers := fun _ ↦ .idle
  workers := fun _ ↦ .loop
  exit := .running
  added := []
  taken := []
  served := []

namespace Server

/-- Producer `p` goes to a position. -/
def setProducer (s : Server) (p : ℕ) (pc : ProducerPc) : Server :=
  { s with producers := Function.update s.producers p pc }

/-- Worker `w` goes to a position. -/
def setWorker (s : Server) (w : ℕ) (pc : WorkerPc) : Server :=
  { s with workers := Function.update s.workers w pc }

/-- `pthread_mutex_lock(&sv->lock)`, once the lock is free. -/
def acquire (s : Server) (a : Agent) : Option Server :=
  if s.lock = none then some { s with lock := some a } else none

/-- `pthread_mutex_unlock(&sv->lock)`. -/
def release (s : Server) : Server := { s with lock := none }

/-- `pthread_cond_broadcast(&sv->cv_empty)`. -/
def broadcastEmpty (s : Server) : Server :=
  { s with workers := fun w ↦ if s.workers w = .asleep then .woken else s.workers w }

/-- The position of a producer after `pthread_cond_broadcast(&sv->cv_full)`. -/
def wakeFull : ProducerPc → ProducerPc
  | .asleep connfd => .woken connfd
  | pc => pc

/-- `pthread_cond_broadcast(&sv->cv_full)`. -/
def broadcastFull (s : Server) : Server :=
  { s with producers := fun p ↦ wakeFull (s.producers p) }

/-- The next statement of `add_request` in producer `p`. -/
def stepProducer (s : Server) (p : ℕ) : Option Server :=
  match s.producers p with
  | .idle => none
  | .lock connfd => (s.acquire (.producer p)).map fun t ↦ t.setProducer p (.test connfd)
  | .test connfd =>
    some (s.setProducer p (if s.buffer.full then .wait connfd else .store connfd))
  | .wait connfd => some (s.release.setProducer p (.asleep connfd))
  | .asleep _ => none
  | .woken connfd => (s.acquire (.producer p)).map fun t ↦ t.setProducer p (.test connfd)
  | .store connfd =>
    let requests := Function.update s.buffer.requests s.buffer.inp connfd
    let t := { s with buffer := { s.buffer with requests := requests } }
    some (t.setProducer p (.notify connfd))
  | .notify connfd =>
    let t := if s.buffer.empty then s.broadcastEmpty else s
    some (t.setProducer p (.advance connfd))
  | .advance connfd =>
    let inp := (s.buffer.inp + 1) % s.buffer.maxSize
    let t := { s with buffer := { s.buffer with inp := inp }, added := s.added ++ [connfd] }
    some (t.setProducer p .unlock)
  | .unlock => some (s.release.setProducer p .idle)

/-- The next statement of `worker_thread` or `take_request` in worker `w`. -/
def stepWorker (s : Server) (w : ℕ) : Option Server :=
  match s.workers w with
  | .loop => some (s.setWorker w (if s.exiting then .exited else .lock))
  | .lock => (s.acquire (.worker w)).map fun t ↦ t.setWorker w .test
  | .test => some (s.setWorker w (if !s.exiting && s.buffer.empty then .wait else .take))
  | .wait => some (s.release.setWorker w .asleep)
  | .asleep => none
  | .woken => (s.acquire (.worker w)).map fun t ↦ t.setWorker w .test
  | .take => some (s.setWorker w (.notify (s.buffer.requests s.buffer.out)))
  | .notify connfd =>
    let t := if s.buffer.full then s.broadcastFull else s
    some (t.setWorker w (.advance connfd))
  | .advance connfd =>
    let out := (s.buffer.out + 1) % s.buffer.maxSize
    let t := { s with buffer := { s.buffer with out := out }, taken := s.taken ++ [connfd] }
    some (t.setWorker w (.unlock ⟨s.taken.length, connfd⟩))
  | .unlock r => some (s.release.setWorker w (.check r))
  | .check r => some (s.setWorker w (if s.exiting then .loop else .serve r))
  | .serve r => some ({ s with served := s.served ++ [r] }.setWorker w (.serving r))
  | .serving _ => some (s.setWorker w .loop)
  | .exited => none

/-- The next statement of `server_exit`. It ends once all the workers have. -/
def stepExit (s : Server) : Option Server :=
  match s.exit with
  | .running => some { s with exiting := true, exit := .broadcast }
  | .broadcast =>
    let t := if s.maxRequests > 1 ∧ s.nrThreads > 0 then s.broadcastEmpty else s
    some { t with exit := .joining }
  | .joining =>
    if ∀ w < s.nrThreads, s.workers w = .exited then some { s with exit := .freed } else none
  | .freed => none

/-- The moves of the threads. -/
inductive Move
  /-- Producer `p` calls `add_request`. -/
  | request (p : ℕ) (connfd : ℤ)
  /-- Producer `p` executes its next statement. -/
  | producer (p : ℕ)
  /-- Worker `w` executes its next statement. -/
  | worker (w : ℕ)
  /-- Producer `p` wakes from `cv_full` without a broadcast. -/
  | wakeProducer (p : ℕ)
  /-- Worker `w` wakes from `cv_empty` without a broadcast. -/
  | wakeWorker (w : ℕ)
  /-- The thread in `server_exit` executes its next statement. -/
  | exit
  deriving DecidableEq, Repr

/-- One move of one thread. Nothing moves once the server is freed. -/
def step (s : Server) (m : Move) : Option Server :=
  if s.exit = .freed then none
  else
    match m with
    | .request p connfd =>
      if s.producers p = .idle then some (s.setProducer p (.lock connfd)) else none
    | .producer p => s.stepProducer p
    | .worker w => if w < s.nrThreads then s.stepWorker w else none
    | .wakeProducer p =>
      match s.producers p with
      | .asleep connfd => some (s.setProducer p (.woken connfd))
      | _ => none
    | .wakeWorker w => if s.workers w = .asleep then some (s.setWorker w .woken) else none
    | .exit => s.stepExit

/-! ### What a move can do -/

/-- What one move can do, statement by statement, with the state it leaves. -/
inductive Transition (s : Server) : Move → Server → Prop
  | request {p c} (hpc : s.producers p = .idle) :
    Transition s (.request p c) (s.setProducer p (.lock c))
  | producerLock {p c} (hpc : s.producers p = .lock c ∨ s.producers p = .woken c)
      (hfree : s.lock = none) :
    Transition s (.producer p)
      ({ s with lock := some (.producer p) }.setProducer p (.test c))
  | producerFull {p c} (hpc : s.producers p = .test c) (hfull : s.buffer.full = true) :
    Transition s (.producer p) (s.setProducer p (.wait c))
  | producerRoom {p c} (hpc : s.producers p = .test c) (hfull : s.buffer.full = false) :
    Transition s (.producer p) (s.setProducer p (.store c))
  | producerWait {p c} (hpc : s.producers p = .wait c) :
    Transition s (.producer p) (s.release.setProducer p (.asleep c))
  | producerStore {p c} (hpc : s.producers p = .store c) :
    Transition s (.producer p)
      ({ s with
        buffer := { s.buffer with requests := Function.update s.buffer.requests s.buffer.inp c }
        }.setProducer p (.notify c))
  | producerNotify {p c} (hpc : s.producers p = .notify c) (hempty : s.buffer.empty = true) :
    Transition s (.producer p) (s.broadcastEmpty.setProducer p (.advance c))
  | producerQuiet {p c} (hpc : s.producers p = .notify c) (hempty : s.buffer.empty = false) :
    Transition s (.producer p) (s.setProducer p (.advance c))
  | producerAdvance {p c} (hpc : s.producers p = .advance c) :
    Transition s (.producer p)
      ({ s with
        buffer := { s.buffer with inp := (s.buffer.inp + 1) % s.buffer.maxSize },
        added := s.added ++ [c] }.setProducer p .unlock)
  | producerUnlock {p} (hpc : s.producers p = .unlock) :
    Transition s (.producer p) (s.release.setProducer p .idle)
  | wakeProducer {p c} (hpc : s.producers p = .asleep c) :
    Transition s (.wakeProducer p) (s.setProducer p (.woken c))
  | workerLoop {w} (hpc : s.workers w = .loop) (hexit : s.exiting = false) :
    Transition s (.worker w) (s.setWorker w .lock)
  | workerLeave {w} (hpc : s.workers w = .loop) (hexit : s.exiting = true) :
    Transition s (.worker w) (s.setWorker w .exited)
  | workerLock {w} (hpc : s.workers w = .lock ∨ s.workers w = .woken) (hfree : s.lock = none) :
    Transition s (.worker w) ({ s with lock := some (.worker w) }.setWorker w .test)
  | workerEmpty {w} (hpc : s.workers w = .test) (hexit : s.exiting = false)
      (hempty : s.buffer.empty = true) :
    Transition s (.worker w) (s.setWorker w .wait)
  | workerTest {w} (hpc : s.workers w = .test)
      (htest : s.exiting = true ∨ s.buffer.empty = false) :
    Transition s (.worker w) (s.setWorker w .take)
  | workerWait {w} (hpc : s.workers w = .wait) :
    Transition s (.worker w) (s.release.setWorker w .asleep)
  | workerTake {w} (hpc : s.workers w = .take) :
    Transition s (.worker w) (s.setWorker w (.notify (s.buffer.requests s.buffer.out)))
  | workerNotify {w c} (hpc : s.workers w = .notify c) (hfull : s.buffer.full = true) :
    Transition s (.worker w) (s.broadcastFull.setWorker w (.advance c))
  | workerQuiet {w c} (hpc : s.workers w = .notify c) (hfull : s.buffer.full = false) :
    Transition s (.worker w) (s.setWorker w (.advance c))
  | workerAdvance {w c} (hpc : s.workers w = .advance c) :
    Transition s (.worker w)
      ({ s with
        buffer := { s.buffer with out := (s.buffer.out + 1) % s.buffer.maxSize },
        taken := s.taken ++ [c] }.setWorker w (.unlock ⟨s.taken.length, c⟩))
  | workerUnlock {w r} (hpc : s.workers w = .unlock r) :
    Transition s (.worker w) (s.release.setWorker w (.check r))
  | workerSkip {w r} (hpc : s.workers w = .check r) (hexit : s.exiting = true) :
    Transition s (.worker w) (s.setWorker w .loop)
  | workerCheck {w r} (hpc : s.workers w = .check r) (hexit : s.exiting = false) :
    Transition s (.worker w) (s.setWorker w (.serve r))
  | workerServe {w r} (hpc : s.workers w = .serve r) :
    Transition s (.worker w) ({ s with served := s.served ++ [r] }.setWorker w (.serving r))
  | workerServed {w r} (hpc : s.workers w = .serving r) :
    Transition s (.worker w) (s.setWorker w .loop)
  | wakeWorker {w} (hpc : s.workers w = .asleep) :
    Transition s (.wakeWorker w) (s.setWorker w .woken)
  | exitSet (hpc : s.exit = .running) :
    Transition s .exit { s with exiting := true, exit := .broadcast }
  | exitBroadcast (hpc : s.exit = .broadcast) (hring : s.maxRequests > 1 ∧ s.nrThreads > 0) :
    Transition s .exit { s.broadcastEmpty with exit := .joining }
  | exitQuiet (hpc : s.exit = .broadcast) (hring : ¬(s.maxRequests > 1 ∧ s.nrThreads > 0)) :
    Transition s .exit { s with exit := .joining }
  | exitJoin (hpc : s.exit = .joining) : Transition s .exit { s with exit := .freed }

variable {s t : Server}

/-- A statement that takes the lock can run once the lock is free. -/
theorem acquire_map_eq_some_iff {a : Agent} {f : Server → Server} :
    (s.acquire a).map f = some t ↔ s.lock = none ∧ f { s with lock := some a } = t := by
  unfold acquire
  split_ifs with h <;> simp [h]

/-- The statements of `add_request`. -/
theorem Transition.of_stepProducer {p : ℕ} (h : s.stepProducer p = some t) :
    Transition s (.producer p) t := by
  unfold stepProducer at h
  split at h
  case h_1 | h_5 => cases h
  case h_2 c hpc =>
    obtain ⟨hfree, rfl⟩ := acquire_map_eq_some_iff.mp h
    exact .producerLock (.inl hpc) hfree
  case h_6 c hpc =>
    obtain ⟨hfree, rfl⟩ := acquire_map_eq_some_iff.mp h
    exact .producerLock (.inr hpc) hfree
  case h_3 c hpc =>
    cases h
    cases hfull : s.buffer.full with
    | true => exact .producerFull hpc hfull
    | false => exact .producerRoom hpc hfull
  case h_8 c hpc =>
    cases h
    cases hempty : s.buffer.empty with
    | true => exact .producerNotify hpc hempty
    | false => exact .producerQuiet hpc hempty
  all_goals
    cases h
    constructor
    assumption

/-- The statements of `worker_thread` and `take_request`. -/
theorem Transition.of_stepWorker {w : ℕ} (h : s.stepWorker w = some t) :
    Transition s (.worker w) t := by
  unfold stepWorker at h
  split at h
  case h_5 | h_14 => cases h
  case h_1 hpc =>
    cases h
    cases hexit : s.exiting with
    | true => exact .workerLeave hpc hexit
    | false => exact .workerLoop hpc hexit
  case h_2 hpc =>
    obtain ⟨hfree, rfl⟩ := acquire_map_eq_some_iff.mp h
    exact .workerLock (.inl hpc) hfree
  case h_6 hpc =>
    obtain ⟨hfree, rfl⟩ := acquire_map_eq_some_iff.mp h
    exact .workerLock (.inr hpc) hfree
  case h_3 hpc =>
    cases h
    cases hexit : s.exiting with
    | true => exact .workerTest hpc (.inl hexit)
    | false =>
      cases hempty : s.buffer.empty with
      | true => exact .workerEmpty hpc hexit hempty
      | false => exact .workerTest hpc (.inr hempty)
  case h_8 c hpc =>
    cases h
    cases hfull : s.buffer.full with
    | true => exact .workerNotify hpc hfull
    | false => exact .workerQuiet hpc hfull
  case h_11 r hpc =>
    cases h
    cases hexit : s.exiting with
    | true => exact .workerSkip hpc hexit
    | false => exact .workerCheck hpc hexit
  case h_13 r hpc =>
    cases h
    exact .workerServed hpc
  all_goals
    cases h
    constructor
    assumption

/-- Every move is one of the transitions. -/
theorem Transition.of_step {m : Move} (h : s.step m = some t) : Transition s m t := by
  unfold step at h
  split_ifs at h
  cases m with
  | request p connfd =>
    dsimp only at h
    split_ifs at h with hpc
    cases h
    exact .request hpc
  | producer p => exact .of_stepProducer h
  | worker w =>
    dsimp only at h
    split_ifs at h with hw
    exact .of_stepWorker h
  | wakeProducer p =>
    dsimp only at h
    split at h
    case h_1 c hpc =>
      cases h
      exact .wakeProducer hpc
    case h_2 => cases h
  | wakeWorker w =>
    dsimp only at h
    split_ifs at h with hpc
    cases h
    exact .wakeWorker hpc
  | exit =>
    simp only [stepExit] at h
    split at h
    case h_2 hpc =>
      split_ifs at h with hring
      · cases h
        exact .exitBroadcast hpc hring
      · cases h
        exact .exitQuiet hpc hring
    case h_3 hpc =>
      split_ifs at h
      cases h
      exact .exitJoin hpc
    case h_4 => cases h
    all_goals
      cases h
      constructor
      assumption

/-- The state is reached by some interleaving from a new server. -/
def Reachable (nrThreads maxRequests : ℕ) (slots : ℕ → ℤ) (s : Server) : Prop :=
  Machine.Reaches (fun _ _ ↦ True) step (serverInit nrThreads maxRequests slots) s

end Server

end OperatingSystems.Webserver
