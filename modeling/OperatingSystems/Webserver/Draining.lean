import OperatingSystems.Webserver.WholeServer
import Mathlib.Algebra.BigOperators.Group.Finset.Basic
import Mathlib.Algebra.Order.BigOperators.Group.Finset

/-!
# The server left alone

When no connection comes in any more and the server is not shut down, its threads answer what there
is and come to rest, whatever the order in which they run, unless one of them comes to the slot
behind those that are allocated (`left_alone_answers_all`).

That they come to rest is shown with a potential that every statement lowers. A connection in the
buffer counts for as much as a worker's way from `take_request` through the call and back to its
place among the waiters. A broadcast raises the potential of those it wakes, so the statement that
broadcasts counts for that as well: the potential of a worker depends on the number of producers,
and that of a producer on the number of workers.

That nothing is left when they rest is the other half. A thread inside the lock, and a thread that
needs the free lock, can move, so at rest everybody waits or is in a call; a call can go on; and a
thread that waits un-notified has the reason for it (`Attentive`): the ring is empty.
-/

set_option autoImplicit false
set_option relaxedAutoImplicit false

namespace OperatingSystems.Webserver

open Library Finset

/-! ### The threads of the ring -/

namespace Server

variable {s t : Server} {m : Move} {n : ℕ} {active : Finset ℕ}

/-- What else holds before a shutdown: a thread that holds the lock is inside it, no worker has
exited, and only finitely many producers are in `add_request`. -/
structure Running (n : ℕ) (active : Finset ℕ) (s : Server) : Prop where
  nrThreads : s.nrThreads = n
  exit : s.exit = .running
  exiting : s.exiting = false
  inside_worker : ∀ w, s.lock = some (.worker w) → (s.workers w).critical = true
  inside_producer : ∀ p, s.lock = some (.producer p) → (s.producers p).critical = true
  present : ∀ w, s.workers w ≠ .exited
  idle : ∀ p ∉ active, s.producers p = .idle

/-- The move is a statement of `add_request`, or of `worker_thread` and `take_request`. -/
def Move.Statement : Move → Prop
  | .producer _ | .worker _ => True
  | .request .. | .wakeProducer _ | .wakeWorker _ | .exit => False

/-- Every move that is not one of the shutdown keeps this. -/
theorem Running.step (h : s.Running n active) (hm : m ≠ .exit)
    (hstep : Transition s m t) (hactive : ∀ p c, m = .request p c → p ∈ active) :
    t.Running n active := by
  obtain ⟨hn, hexit, hexiting, hworker, hproducer, hpresent, hidle⟩ := h
  cases hstep with
  | exitSet | exitBroadcast | exitQuiet | exitJoin => exact absurd rfl hm
  | workerLeave hpc hleave => exact absurd (hleave.symm.trans hexiting) (by simp)
  | _ =>
    refine ⟨hn, hexit, hexiting, fun w ↦ ?_, fun p ↦ ?_, fun w ↦ ?_, fun p hp ↦ ?_⟩
    · have := hworker w
      dsimp only [setProducer, setWorker, release, broadcastEmpty, broadcastFull]
      grind [WorkerPc.critical, Function.update_apply]
    · have := hproducer p
      dsimp only [setProducer, setWorker, release, broadcastEmpty, broadcastFull]
      grind [ProducerPc.critical, Function.update_apply]
    · have := hpresent w
      dsimp only [setProducer, setWorker, release, broadcastEmpty, broadcastFull]
      grind [Function.update_apply]
    · have := hidle p hp
      dsimp only [setProducer, setWorker, release, broadcastEmpty, broadcastFull]
      grind [Function.update_apply, wakeFull]

/-- More producers may be active. -/
theorem Running.mono {active' : Finset ℕ} (h : s.Running n active) (hle : active ⊆ active') :
    s.Running n active' :=
  { h with idle := fun p hp ↦ h.idle p fun hmem ↦ hp (hle hmem) }

/-- As long as `exiting` is clear, all this holds, with the producers that have called
`add_request`. -/
theorem exists_running_of_step (h : s.exiting = false → ∃ active, s.Running n active)
    (hstep : Transition s m t) (hexiting : t.exiting = false) : ∃ active, t.Running n active := by
  obtain ⟨active, hrunning⟩ := h (hstep.frame.1 hexiting)
  by_cases hm : m = .exit
  · subst hm
    cases hstep with
    | exitSet => cases hexiting
    | exitBroadcast hpc | exitQuiet hpc | exitJoin hpc =>
      rw [hrunning.exit] at hpc
      cases hpc
  · cases m with
    | request p c =>
      refine ⟨insert p active, (hrunning.mono (subset_insert p active)).step hm hstep ?_⟩
      rintro q d heq
      cases heq
      exact mem_insert_self p active
    | _ => exact ⟨active, hrunning.step hm hstep nofun⟩

/-! ### The potential -/

/-- What is left for a worker at a position, in units that cover what it wakes. -/
def workerRank (producers : ℕ) : WorkerPc → ℕ
  | .asleep | .exited => 0
  | .wait | .advance _ => 1
  | .notify _ => 3 * producers + 2
  | .take => 3 * producers + 3
  | .test => 3 * producers + 4
  | .lock | .woken => 3 * producers + 5
  | .loop => 3 * producers + 6
  | .serving _ => 3 * producers + 7
  | .serve _ => 3 * producers + 12
  | .check _ => 3 * producers + 13
  | .unlock _ => 3 * producers + 14

/-- What a connection in the buffer counts for: a worker's way with it. -/
def queuedRank (producers : ℕ) : ℕ := 3 * producers + 14

/-- What waking all workers costs at most. -/
def wakeCost (workers producers : ℕ) : ℕ := workers * (3 * producers + 5)

/-- What is left for a producer at a position, in units that cover what it wakes. -/
def producerRank (workers producers : ℕ) : ProducerPc → ℕ
  | .idle => 0
  | .unlock => 1
  | .advance _ => queuedRank producers + 2
  | .notify _ | .asleep _ => queuedRank producers + wakeCost workers producers + 3
  | .store _ | .wait _ => queuedRank producers + wakeCost workers producers + 4
  | .test _ => queuedRank producers + wakeCost workers producers + 5
  | .lock _ | .woken _ => queuedRank producers + wakeCost workers producers + 6

/-- What is left for the workers. -/
def workersLeft (n producers : ℕ) (workers : ℕ → WorkerPc) : ℕ :=
  ∑ w ∈ range n, workerRank producers (workers w)

/-- What is left for the producers. -/
def producersLeft (n : ℕ) (active : Finset ℕ) (producers : ℕ → ProducerPc) : ℕ :=
  ∑ p ∈ active, producerRank n active.card (producers p)

/-- What is left for all threads of the ring, and for the connections in the buffer. -/
def potential (n : ℕ) (active : Finset ℕ) (s : Server) : ℕ :=
  workersLeft n active.card s.workers + producersLeft n active s.producers +
    queuedRank active.card * (s.added.length - s.taken.length)

/-- A sum over a function that is changed at one place. -/
theorem sum_update_add {α : Type} {S : Finset ℕ} (rank : α → ℕ) (f : ℕ → α) {i : ℕ} (hi : i ∈ S)
    (x : α) : (∑ j ∈ S, rank (Function.update f i x j)) + rank (f i) =
      (∑ j ∈ S, rank (f j)) + rank x := by
  have hsame : ∑ j ∈ S.erase i, rank (Function.update f i x j) = ∑ j ∈ S.erase i, rank (f j) :=
    sum_congr rfl fun j hj ↦ by rw [Function.update_of_ne (ne_of_mem_erase hj)]
  rw [← sum_erase_add S _ hi, ← sum_erase_add S (fun j ↦ rank (f j)) hi, hsame,
    Function.update_self]
  omega

theorem workersLeft_update {w : ℕ} (hw : w < n) (producers : ℕ) (workers : ℕ → WorkerPc)
    (pc : WorkerPc) : workersLeft n producers (Function.update workers w pc) +
      workerRank producers (workers w) = workersLeft n producers workers +
        workerRank producers pc :=
  sum_update_add (workerRank producers) workers (mem_range.mpr hw) pc

theorem producersLeft_update {p : ℕ} (hp : p ∈ active) (producers : ℕ → ProducerPc)
    (pc : ProducerPc) : producersLeft n active (Function.update producers p pc) +
      producerRank n active.card (producers p) = producersLeft n active producers +
        producerRank n active.card pc :=
  sum_update_add (producerRank n active.card) producers hp pc

/-- What `pthread_cond_broadcast(&sv->cv_empty)` costs. -/
theorem workersLeft_broadcast_le (n producers : ℕ) (workers : ℕ → WorkerPc) :
    workersLeft n producers (fun w ↦ if workers w = .asleep then .woken else workers w) ≤
      workersLeft n producers workers + wakeCost n producers := by
  have hle : workersLeft n producers (fun w ↦ if workers w = .asleep then .woken else workers w) ≤
      ∑ w ∈ range n, (workerRank producers (workers w) + (3 * producers + 5)) := by
    refine sum_le_sum fun w _ ↦ ?_
    dsimp only
    split_ifs with hasleep
    · simp [hasleep, workerRank]
    · omega
  rw [sum_add_distrib, sum_const, card_range, Nat.nsmul_eq_mul] at hle
  exact hle

theorem producerRank_wakeFull_le (workers producers : ℕ) (pc : ProducerPc) :
    producerRank workers producers (wakeFull pc) ≤ producerRank workers producers pc + 3 := by
  cases pc <;> simp [wakeFull, producerRank]

/-- What `pthread_cond_broadcast(&sv->cv_full)` costs. -/
theorem producersLeft_broadcast_le (n : ℕ) (active : Finset ℕ) (producers : ℕ → ProducerPc) :
    producersLeft n active (fun p ↦ wakeFull (producers p)) ≤
      producersLeft n active producers + 3 * active.card := by
  have hle : producersLeft n active (fun p ↦ wakeFull (producers p)) ≤
      ∑ p ∈ active, (producerRank n active.card (producers p) + 3) :=
    sum_le_sum fun p _ ↦ producerRank_wakeFull_le n active.card (producers p)
  rw [sum_add_distrib, sum_const, Nat.nsmul_eq_mul, Nat.mul_comm] at hle
  exact hle

/-- A producer that executes a statement is active. -/
theorem Running.mem_active (h : s.Running n active) {p : ℕ} (hp : s.producers p ≠ .idle) :
    p ∈ active := by
  by_contra hnot
  exact hp (h.idle p hnot)

/-- A producer that goes on, and nothing else. -/
theorem potential_lt_of_producers {p : ℕ} {pc : ProducerPc} (hp : p ∈ active)
    (hworkers : t.workers = s.workers) (hproducers : t.producers = Function.update s.producers p pc)
    (hadded : t.added = s.added) (htaken : t.taken = s.taken)
    (hrank : producerRank n active.card pc < producerRank n active.card (s.producers p)) :
    t.potential n active < s.potential n active := by
  have hlower := producersLeft_update (n := n) hp s.producers pc
  rw [potential, potential, hworkers, hproducers, hadded, htaken]
  omega

/-- A worker that goes on, and nothing else. -/
theorem potential_lt_of_workers {w : ℕ} {pc : WorkerPc} (hw : w < n)
    (hworkers : t.workers = Function.update s.workers w pc) (hproducers : t.producers = s.producers)
    (hadded : t.added = s.added) (htaken : t.taken = s.taken)
    (hrank : workerRank active.card pc < workerRank active.card (s.workers w)) :
    t.potential n active < s.potential n active := by
  have hlower := workersLeft_update hw active.card s.workers pc
  rw [potential, potential, hworkers, hproducers, hadded, htaken]
  omega

/-- Every statement of a producer lowers the potential. -/
theorem potential_lt_of_producer (h : s.Running n active) (hqueued : s.Queued) {p : ℕ}
    (hstep : Transition s (.producer p) t) : t.potential n active < s.potential n active := by
  have hmem : p ∈ active := h.mem_active (by cases hstep <;> grind)
  cases hstep with
  | @producerAdvance _ c hpc =>
    have hle : s.taken.length ≤ s.added.length := by
      obtain ⟨pending, hadded, -⟩ := hqueued
      rw [hadded, List.length_append]
      omega
    have hlower := producersLeft_update (n := n) hmem s.producers .unlock
    rw [hpc] at hlower
    dsimp only [potential, setProducer, producerRank] at hlower ⊢
    rw [List.length_append, List.length_singleton, Nat.sub_add_comm hle, Nat.mul_succ]
    omega
  | @producerNotify _ c hpc hempty =>
    have hlower := producersLeft_update (n := n) hmem s.producers (.advance c)
    have hwake := workersLeft_broadcast_le n active.card s.workers
    rw [hpc] at hlower
    dsimp only [potential, setProducer, broadcastEmpty, producerRank] at hlower ⊢
    omega
  | producerLock hpc hfree =>
    refine potential_lt_of_producers hmem rfl rfl rfl rfl ?_
    rcases hpc with hpc | hpc <;>
    · rw [hpc]
      simp [producerRank]
  | producerQuiet hpc | producerFull hpc | producerRoom hpc | producerWait hpc | producerStore hpc
  | producerUnlock hpc =>
    refine potential_lt_of_producers hmem rfl rfl rfl rfl ?_
    rw [hpc]
    simp only [producerRank]
    omega

/-- Every statement of a worker lowers the potential. The call of `do_server_request` lowers it by
what the call takes as well. -/
theorem potential_lt_of_worker (h : s.Running n active) (hqueued : t.Queued) {w : ℕ} (hw : w < n)
    (hstep : Transition s (.worker w) t) : t.potential n active < s.potential n active ∧
      ((∃ r, s.workers w = .serve r) → t.potential n active + 5 ≤ s.potential n active) := by
  have hlower := workersLeft_update hw active.card s.workers
  cases hstep with
  | @workerAdvance _ c hpc =>
    have hle : s.taken.length + 1 ≤ s.added.length := by
      obtain ⟨pending, hadded, -⟩ := hqueued
      have hlength := congrArg List.length hadded
      simp only [setWorker, List.length_append, List.length_singleton] at hlength
      omega
    have hrank := hlower (.unlock ⟨s.taken.length, c⟩)
    obtain ⟨left, hleft⟩ := Nat.exists_eq_add_of_le hle
    rw [hpc] at hrank
    refine ⟨?_, by simp [hpc]⟩
    dsimp only [potential, setWorker, workerRank] at hrank ⊢
    rw [List.length_append, List.length_singleton, hleft, Nat.add_sub_cancel_left,
      show s.taken.length + 1 + left - s.taken.length = left + 1 by omega, Nat.mul_succ]
    unfold queuedRank at *
    omega
  | @workerNotify _ c hpc hfull =>
    have hrank := hlower (.advance c)
    have hwake := producersLeft_broadcast_le n active s.producers
    rw [hpc] at hrank
    refine ⟨?_, by simp [hpc]⟩
    dsimp only [potential, setWorker, broadcastFull, workerRank] at hrank ⊢
    omega
  | @workerServe _ r hpc =>
    have hrank := hlower (.serving r)
    rw [hpc] at hrank
    dsimp only [potential, setWorker, workerRank] at hrank ⊢
    omega
  | workerLeave hpc hexit => exact absurd (hexit.symm.trans h.exiting) (by simp)
  | workerSkip hpc hexit => exact absurd (hexit.symm.trans h.exiting) (by simp)
  | workerLock hpc hfree =>
    rcases hpc with hpc | hpc <;>
    · refine ⟨potential_lt_of_workers hw rfl rfl rfl rfl ?_, by simp [hpc]⟩
      rw [hpc]
      simp [workerRank]
  | workerLoop hpc | workerEmpty hpc | workerTest hpc | workerWait hpc | workerTake hpc
  | workerQuiet hpc | workerUnlock hpc | workerCheck hpc | workerServed hpc =>
    refine ⟨potential_lt_of_workers hw rfl rfl rfl rfl ?_, by simp [hpc]⟩
    rw [hpc]
    simp only [workerRank]
    omega

/-! ### Connections on their way -/

/-- The number of connections that a producer is still to add. -/
def ProducerPc.toAdd : ProducerPc → ℕ
  | .idle | .unlock => 0
  | .lock _ | .test _ | .wait _ | .asleep _ | .woken _ | .store _ | .notify _ | .advance _ => 1

/-- The connections that have been added, and those that producers are still to add. -/
def arrivals (active : Finset ℕ) (s : Server) : ℕ :=
  s.added.length + ∑ p ∈ active, ProducerPc.toAdd (s.producers p)

/-- A producer has one connection at most. -/
theorem arrivals_le (active : Finset ℕ) (s : Server) :
    s.arrivals active ≤ s.added.length + active.card := by
  refine Nat.add_le_add_left ?_ _
  rw [card_eq_sum_ones]
  refine sum_le_sum fun p _ ↦ ?_
  unfold ProducerPc.toAdd
  split <;> decide

theorem toAdd_wakeFull (pc : ProducerPc) :
    ProducerPc.toAdd (wakeFull pc) = ProducerPc.toAdd pc := by
  cases pc <;> rfl

/-- No statement brings a connection in. -/
theorem Running.arrivals_eq (h : s.Running n active) (hm : m.Statement)
    (hstep : Transition s m t) : t.arrivals active = s.arrivals active := by
  cases m with
  | producer p =>
    have hmem : p ∈ active := h.mem_active (by cases hstep <;> grind)
    have hsum := sum_update_add ProducerPc.toAdd s.producers hmem
    cases hstep with
    | producerAdvance hpc =>
      have hadded := hsum .unlock
      rw [hpc] at hadded
      dsimp only [arrivals, setProducer, ProducerPc.toAdd] at hadded ⊢
      rw [List.length_append, List.length_singleton]
      omega
    | @producerLock _ c hpc hfree =>
      have hsame := hsum (.test c)
      rcases hpc with hpc | hpc <;>
      · rw [hpc] at hsame
        exact congrArg (s.added.length + ·) (Nat.add_right_cancel hsame)
    | @producerFull _ c hpc | @producerRoom _ c hpc | @producerWait _ c hpc
    | @producerStore _ c hpc | @producerNotify _ c hpc | @producerQuiet _ c hpc
    | producerUnlock hpc =>
      refine congrArg (s.added.length + ·) (Nat.add_right_cancel ((hsum _).trans ?_))
      rw [hpc]
      rfl
  | worker w =>
    cases hstep with
    | workerNotify => simp only [arrivals, setWorker, broadcastFull, toAdd_wakeFull]
    | _ => rfl
  | _ => cases hm

/-! ### What can move -/

/-- A worker that neither waits nor needs a lock that is taken can move. -/
theorem Running.exists_step_worker (h : s.Running n active) {w : ℕ} (hw : w < n)
    (hasleep : s.workers w ≠ .asleep)
    (hfree : s.workers w = .lock ∨ s.workers w = .woken → s.lock = none) :
    ∃ t, s.step (.worker w) = some t := by
  have hpresent := h.present w
  simp only [Server.step, h.exit, h.nrThreads, hw, if_true, reduceCtorEq, if_false, stepWorker]
  cases hpc : s.workers w with
  | asleep => exact absurd hpc hasleep
  | exited => exact absurd hpc hpresent
  | lock => exact ⟨_, acquire_map_eq_some_iff.mpr ⟨hfree (.inl hpc), rfl⟩⟩
  | woken => exact ⟨_, acquire_map_eq_some_iff.mpr ⟨hfree (.inr hpc), rfl⟩⟩
  | _ => exact ⟨_, rfl⟩

/-- A producer in `add_request` that neither waits nor needs a lock that is taken can move. -/
theorem Running.exists_step_producer (h : s.Running n active) {p : ℕ}
    (hidle : s.producers p ≠ .idle) (hasleep : ∀ c, s.producers p ≠ .asleep c)
    (hfree : ∀ c, s.producers p = .lock c ∨ s.producers p = .woken c → s.lock = none) :
    ∃ t, s.step (.producer p) = some t := by
  simp only [Server.step, h.exit, reduceCtorEq, if_false, stepProducer]
  cases hpc : s.producers p with
  | idle => exact absurd hpc hidle
  | asleep c => exact absurd hpc (hasleep c)
  | lock c => exact ⟨_, acquire_map_eq_some_iff.mpr ⟨hfree c (.inl hpc), rfl⟩⟩
  | woken c => exact ⟨_, acquire_map_eq_some_iff.mpr ⟨hfree c (.inr hpc), rfl⟩⟩
  | _ => exact ⟨_, rfl⟩

/-- Assumes: no producer can move, and no worker that is not in a call of `do_server_request`. Then
the lock is free, the workers that are not in a call wait, and the producers in `add_request` do. -/
theorem Running.waiting (h : s.Running n active) (hjoined : s.Joined)
    (hproducer : ∀ p, s.step (.producer p) = none)
    (hworker : ∀ w, (∀ r, s.workers w ≠ .serving r) → s.step (.worker w) = none) :
    (∀ w < n, s.workers w = .asleep ∨ ∃ r, s.workers w = .serving r) ∧
      ∀ p, s.producers p = .idle ∨ ∃ c, s.producers p = .asleep c := by
  have hfree : s.lock = none := by
    cases hlock : s.lock with
    | none => rfl
    | some a =>
      cases a with
      | worker w =>
        have hin := h.inside_worker w hlock
        have hw : w < n := by
          by_contra hge
          rw [hjoined.absent w (by rw [h.nrThreads]; omega)] at hin
          cases hin
        obtain ⟨t, ht⟩ := h.exists_step_worker hw (fun hpc ↦ by rw [hpc] at hin; cases hin)
          fun hpc ↦ by rcases hpc with hpc | hpc <;> rw [hpc] at hin <;> cases hin
        rw [hworker w fun r hpc ↦ by rw [hpc] at hin; cases hin] at ht
        cases ht
      | producer p =>
        have hin := h.inside_producer p hlock
        obtain ⟨t, ht⟩ := h.exists_step_producer (fun hpc ↦ by rw [hpc] at hin; cases hin)
          (fun c hpc ↦ by rw [hpc] at hin; cases hin)
          fun c hpc ↦ by rcases hpc with hpc | hpc <;> rw [hpc] at hin <;> cases hin
        rw [hproducer p] at ht
        cases ht
  constructor
  · intro w hw
    by_contra hnot
    rw [not_or, not_exists] at hnot
    obtain ⟨t, ht⟩ := h.exists_step_worker hw hnot.1 fun _ ↦ hfree
    rw [hworker w hnot.2] at ht
    cases ht
  · intro p
    by_contra hnot
    rw [not_or, not_exists] at hnot
    obtain ⟨t, ht⟩ := h.exists_step_producer hnot.1 hnot.2 fun _ _ ↦ hfree
    rw [hproducer p] at ht
    cases ht

/-- Assumes: there is a worker and room for a request, every worker waits, and so does every
producer in `add_request`. Then no producer is there, and every connection that was added has been
taken and is with a call of `do_server_request`. -/
theorem Invariant.drained {maxRequests : ℕ} (h : s.Invariant maxRequests) (hjoined : s.Joined)
    (hexiting : s.exiting = false) (hthreads : 0 < s.nrThreads) (hmax : 0 < maxRequests)
    (hworkers : ∀ w < s.nrThreads, s.workers w = .asleep)
    (hproducers : ∀ p, s.producers p = .idle ∨ ∃ c, s.producers p = .asleep c) :
    (∀ p, s.producers p = .idle) ∧
      ∀ ticket c, s.added[ticket]? = some c → ⟨ticket, c⟩ ∈ s.served := by
  obtain ⟨hattentive, ⟨pending, hadded, hring⟩, htracked⟩ := h.live hexiting
  have hempty : s.buffer.empty = true := by
    by_contra hnot
    exact hattentive.worker_awake (by simpa using hnot) 0 (hworkers 0 hthreads)
  have hpending : pending = [] := by
    by_contra hne
    exact absurd (hempty.symm.trans ((empty_eq_false_iff hring).mpr hne)) (by simp)
  have hfull : s.buffer.full = false := by
    rw [full_eq_false_iff hring, hpending, h.size, List.length_nil]
    omega
  have hholding : ∀ w, (s.workers w).holding = none := by
    intro w
    rcases Nat.lt_or_ge w s.nrThreads with hw | hw
    · rw [hworkers w hw]
      rfl
    · rw [hjoined.absent w hw]
      rfl
  refine ⟨fun p ↦ ?_, fun ticket c hticket ↦ ?_⟩
  · rcases hproducers p with hidle | ⟨c, hasleep⟩
    · exact hidle
    · exact absurd hasleep (hattentive.producer_awake hfull p c)
  · rw [hadded, hpending, List.append_nil] at hticket
    rcases htracked.accounted ticket (List.getElem?_eq_some_iff.mp hticket).1 with
      hserved | ⟨w, r, hw, -⟩
    · obtain ⟨⟨k, d⟩, hr, rfl⟩ := List.mem_map.mp hserved
      have hconnfd := htracked.processed _ hr
      rw [hticket, Option.some.injEq] at hconnfd
      exact hconnfd ▸ hr
    · rw [hholding w] at hw
      cases hw

end Server

/-! ### The threads and the calls -/

namespace WholeServer

variable {disk : List UInt8 → FileStatus} {asked : ℕ → CompleteRequest} {s t : WholeServer}
  {m : Move} {n nrThreads maxRequests : ℕ} {slots : ℕ → ℤ} {maxCacheSize : ℤ} {active : Finset ℕ}

/-- The move is a statement of a producer, of a worker or of a call. -/
def Move.Statement : Move → Prop
  | .thread m => m.Statement
  | .request _ => True

/-- The moves of the threads when they are left alone: no connection comes in, the server is not
shut down, no thread wakes for no reason, and the move is regular. -/
structure Working (disk : List UInt8 → FileStatus) (asked : ℕ → CompleteRequest)
    (maxRequests : ℕ) (s : WholeServer) (m : Move) : Prop where
  statement : m.Statement
  regular : s.Regular disk asked maxRequests m

/-- The next statement of a thread is an access behind the slots that are allocated. -/
def Overruns (asked : ℕ → CompleteRequest) (maxRequests : ℕ) (s : WholeServer) : Prop :=
  ∃ m i t, s.slotAccess m = some i ∧ Server.slotsAllocated maxRequests ≤ i ∧
    s.step asked m = some t

/-- What is left for the calls. -/
def callsLeft (executions : List Execution) : ℕ :=
  (executions.map fun x ↦ CacheServer.remaining x.position).sum

/-- What is left for the threads and the calls. -/
def potential (n : ℕ) (active : Finset ℕ) (s : WholeServer) : ℕ :=
  s.ring.potential n active + callsLeft s.cached.executions

theorem callsLeft_append_singleton (executions : List Execution) (x : Execution) :
    callsLeft (executions ++ [x]) = callsLeft executions + CacheServer.remaining x.position := by
  simp [callsLeft]

/-- A call that goes on has less left. -/
theorem callsLeft_set_lt {executions : List Execution} {i : ℕ} {x y : Execution}
    (hi : executions[i]? = some x)
    (hless : CacheServer.remaining y.position < CacheServer.remaining x.position) :
    callsLeft (executions.set i y) < callsLeft executions := by
  induction executions generalizing i with
  | nil => cases hi
  | cons z rest ih =>
    cases i with
    | zero =>
      rw [List.getElem?_cons_zero, Option.some.injEq] at hi
      subst hi
      simp only [callsLeft, List.set_cons_zero, List.map_cons, List.sum_cons]
      omega
    | succ i =>
      have hrest := ih (by simpa using hi)
      simp only [callsLeft, List.set_cons_succ, List.map_cons, List.sum_cons] at hrest ⊢
      omega

/-- A statement of the ring is one of a producer or of one of the workers. -/
theorem ring_potential_lt {ring : Server} {m : Server.Move} (hm : m.Statement)
    (h : s.ring.Running n active) (hbefore : s.ring.Queued) (hafter : ring.Queued)
    (hring : s.ring.step m = some ring) :
    ring.Running n active ∧ ring.potential n active < s.ring.potential n active := by
  have htransition := Server.Transition.of_step hring
  cases m with
  | producer p =>
    exact ⟨h.step (m := .producer p) nofun htransition nofun,
      Server.potential_lt_of_producer h hbefore htransition⟩
  | worker w =>
    have hw := h.nrThreads ▸ Server.lt_nrThreads_of_step hring
    exact ⟨h.step (m := .worker w) nofun htransition nofun,
      (Server.potential_lt_of_worker h hafter hw htransition).1⟩
  | _ => cases hm

/-- Every move of the threads left alone lowers the potential. -/
theorem potential_lt (hinv : s.Invariant disk asked maxRequests maxCacheSize)
    (h : s.ring.Running n active) (hworking : s.Working disk asked maxRequests m)
    (hstep : s.step asked m = some t) :
    (t.Invariant disk asked maxRequests maxCacheSize ∧ t.ring.Running n active) ∧
      t.potential n active < s.potential n active := by
  have hinv' := hinv.step hworking.regular.reads hstep
  have hqueued := (hinv.ring.live h.exiting).2.1
  have hkept : ∀ {w : ℕ} {ring : Server}, s.ring.step (.worker w) = some ring →
      ring.Running n active := fun {w} _ hring ↦
    h.step (m := .worker w) nofun (Server.Transition.of_step hring) nofun
  cases Transition.of_step hstep with
  | @thread m ring hring hm =>
    have hrunning : ring.Running n active :=
      h.step (by rintro rfl; exact hworking.statement) (Server.Transition.of_step hring)
        (by rintro p c rfl; exact hworking.statement.elim)
    have hlower := ring_potential_lt (m := m) hworking.statement h hqueued
      (hinv'.ring.live hrunning.exiting).2.1 hring
    exact ⟨⟨hinv', hrunning⟩, Nat.add_lt_add_right hlower.2 _⟩
  | @call w r ring hpc hring =>
    have hrunning := hkept hring
    have hlower : ring.potential n active + 5 ≤ s.ring.potential n active :=
      (Server.potential_lt_of_worker h (hinv'.ring.live hrunning.exiting).2.1
        (h.nrThreads ▸ Server.lt_nrThreads_of_step hring)
        (Server.Transition.of_step hring)).2 ⟨r, hpc⟩
    have hstart := CacheServer.remaining_le (.start (asked r.ticket).line)
    refine ⟨⟨hinv', hrunning⟩, ?_⟩
    dsimp only [potential]
    rw [callsLeft_append_singleton]
    dsimp only
    omega
  | @callReturns w r line response ring hpc hdone hring =>
    have hrunning := hkept hring
    have hlower := ring_potential_lt (m := .worker w) trivial h hqueued
      (hinv'.ring.live hrunning.exiting).2.1 hring
    exact ⟨⟨hinv', hrunning⟩, Nat.add_lt_add_right hlower.2 _⟩
  | @request m cached hm hcached =>
    obtain ⟨i, x, position, hi, -, hset, hless⟩ := CacheServer.exists_set_of_step hcached hm
    refine ⟨⟨hinv', h⟩, Nat.add_lt_add_left ?_ _⟩
    dsimp only
    rw [hset]
    exact callsLeft_set_lt hi hless

/-- No statement brings a connection in. -/
theorem arrivals_step (h : s.ring.Running n active) (hm : m.Statement)
    (hstep : s.step asked m = some t) : t.ring.arrivals active = s.ring.arrivals active := by
  cases Transition.of_step hstep with
  | thread hring => exact h.arrivals_eq hm (Server.Transition.of_step hring)
  | @call w r ring hpc hring =>
    exact h.arrivals_eq (m := .worker w) trivial (Server.Transition.of_step hring)
  | @callReturns w r line response ring hpc hdone hring =>
    exact h.arrivals_eq (m := .worker w) trivial (Server.Transition.of_step hring)
  | request => rfl

/-! ### At rest -/

/-- A worker that is in no call can execute a statement of the ring if the ring alone can. -/
theorem exists_step_of_ring (asked : ℕ → CompleteRequest) {w : ℕ} {ring : Server}
    (hring : s.ring.step (.worker w) = some ring)
    (hcall : ∀ r, s.ring.workers w ≠ .serving r) :
    ∃ t, s.step asked (.thread (.worker w)) = some t := by
  simp only [step, stepWorker]
  split
  case h_1 r hpc => exact ⟨_, by simp only [call, hring, CacheServer.step]; rfl⟩
  case h_2 r hpc => exact absurd hpc (hcall r)
  case h_3 => exact ⟨_, by rw [moveThread, hring]; rfl⟩

/-- Assumes: the process can answer a request. A worker in a call can go on with it. -/
theorem exists_step_of_serving (hinv : s.Invariant disk asked maxRequests maxCacheSize)
    (h : s.ring.Running n active)
    (hanswerable : ∀ ticket, ∃ r, Answerable disk (asked ticket).line r)
    {w : ℕ} {r : Request} (hpc : s.ring.workers w = .serving r) :
    ∃ m t, m.Statement ∧ s.ReadsFrom disk m ∧ s.step asked m = some t := by
  obtain ⟨position, hi⟩ := hinv.linked.exists_execution (hinv.linked.job w r hpc)
  obtain ⟨response, hresponse, -⟩ := hanswerable r.ticket
  by_cases hleft : CacheServer.remaining position = 0
  · -- The response is sent, and the call returns.
    have hdone := CacheServer.eq_done hinv.cached hi hresponse hleft
    have hw : w < n := by
      by_contra hge
      rw [hinv.joined.absent w (by rw [h.nrThreads]; omega)] at hpc
      cases hpc
    obtain ⟨ring, hring⟩ := h.exists_step_worker hw (by simp [hpc]) (by simp [hpc])
    refine ⟨.thread (.worker w), { s with ring := ring }, trivial, trivial, ?_⟩
    rw [hdone] at hi
    simp only [step, stepWorker, hpc, callReturns, hi, moveThread, hring, Option.map_some]
  · obtain ⟨m, cached, -, hm, hreads, hstep, -⟩ :=
      CacheServer.advances hinv.cached hi hresponse hleft
    refine ⟨.request m, { s with cached := cached }, trivial, hreads, ?_⟩
    cases m with
    | arrive line => cases hm
    | _ => simp only [step, hstep, Option.map_some]

/-- Assumes: the process can answer a request, and no thread and no call can move. Then no producer
is in `add_request`, the workers wait, and every connection that was added has been answered. -/
theorem answered_of_rest (hinv : s.Invariant disk asked maxRequests maxCacheSize)
    (h : s.ring.Running n active)
    (hanswerable : ∀ ticket, ∃ r, Answerable disk (asked ticket).line r)
    (hthreads : 0 < n) (hmax : 0 < maxRequests)
    (hrest : ∀ m : Move, m.Statement → s.ReadsFrom disk m → s.step asked m = none) :
    (∀ p, s.ring.producers p = .idle) ∧ (∀ w < n, s.ring.workers w = .asleep) ∧
      ∀ ticket c, s.ring.added[ticket]? = some c →
        ∃! k, s.ring.served[k]? = some ⟨ticket, c⟩ ∧ s.Answered disk asked k ⟨ticket, c⟩ := by
  have hnone : ∀ w r, s.ring.workers w ≠ .serving r := by
    intro w r hpc
    obtain ⟨m, t, hm, hreads, ht⟩ := exists_step_of_serving hinv h hanswerable hpc
    rw [hrest m hm hreads] at ht
    cases ht
  have hproducer : ∀ p, s.ring.step (.producer p) = none := fun p ↦
    Option.map_eq_none_iff.mp (hrest (.thread (.producer p)) trivial trivial)
  have hworker : ∀ w, s.ring.step (.worker w) = none := by
    intro w
    cases hring : s.ring.step (.worker w) with
    | none => rfl
    | some ring =>
      obtain ⟨t, ht⟩ := exists_step_of_ring asked hring (hnone w)
      rw [hrest (.thread (.worker w)) trivial trivial] at ht
      cases ht
  obtain ⟨hworkers, hproducers⟩ := h.waiting hinv.joined hproducer fun w _ ↦ hworker w
  have hasleep : ∀ w < n, s.ring.workers w = .asleep := fun w hw ↦
    (hworkers w hw).resolve_right fun ⟨r, hpc⟩ ↦ hnone w r hpc
  obtain ⟨hidle, hserved⟩ := hinv.ring.drained hinv.joined h.exiting (h.nrThreads ▸ hthreads) hmax
    (fun w hw ↦ hasleep w (h.nrThreads ▸ hw)) hproducers
  refine ⟨hidle, hasleep, fun ticket c hticket ↦ ?_⟩
  obtain ⟨k, hk⟩ := List.mem_iff_getElem?.mp (hserved ticket c hticket)
  refine ⟨k, ⟨hk, hinv.answered hk fun w hw ↦ hnone w _ hw.1⟩, fun l hl ↦ ?_⟩
  exact hinv.ring.served.eq_of_ticket_eq hk hl.1 rfl

/-- An access behind the slots takes that all of them have been used. -/
theorem Overruns.le_length (h : s.Overruns asked maxRequests)
    (hinv : s.Invariant disk asked maxRequests maxCacheSize) (hexiting : s.ring.exiting = false) :
    maxRequests ≤ s.ring.added.length := by
  obtain ⟨m, i, t, haccess, hle, -⟩ := h
  obtain ⟨pending, hadded, -⟩ := (hinv.ring.live hexiting).2.1
  have hlength := congrArg List.length hadded
  rw [List.length_append] at hlength
  rw [Server.slotsAllocated] at hle
  cases m with
  | thread m =>
    rcases hinv.counted.access_le haccess with hin | hout
    · omega
    · omega
  | request m => cases haccess

/-- Unless a thread comes to the slot behind the others, every statement that can be executed is
regular. -/
theorem rest_of_not_overruns (hanswerable : ∀ ticket, ∃ r, Answerable disk (asked ticket).line r)
    (hrest : ∀ m, s.Working disk asked maxRequests m → s.step asked m = none)
    (hslots : ¬s.Overruns asked maxRequests) (hm : m.Statement) (hreads : s.ReadsFrom disk m) :
    s.step asked m = none := by
  by_contra hsome
  obtain ⟨t, ht⟩ := Option.ne_none_iff_exists'.mp hsome
  refine hsome (hrest m ⟨hm, hreads, fun i hi ↦ ?_, fun line hline ↦ ?_⟩)
  · by_contra hlarge
    exact hslots ⟨m, i, t, hi, not_lt.mp hlarge, ht⟩
  · unfold calledLine at hline
    split at hline
    case h_1 w =>
      split at hline
      case h_1 r hpc =>
        obtain rfl := Option.some.inj hline
        exact (hanswerable r.ticket).choose_spec.fits
      case h_2 => cases hline
    case h_2 => cases hline

/-- As long as `exiting` is clear, the ring is running. -/
theorem Reachable.exists_running
    (h : Reachable disk asked nrThreads maxRequests slots maxCacheSize s)
    (hexiting : s.ring.exiting = false) : ∃ active, s.ring.Running nrThreads active := by
  refine Machine.Reaches.invariant (I := fun s ↦ s.ring.exiting = false →
    ∃ active, s.ring.Running nrThreads active) (fun s m t hs _ hstep ↦ ?_) h (fun _ ↦ ⟨∅, ?_⟩)
    hexiting
  · cases Transition.of_step hstep with
    | thread hring | call hpc hring | callReturns hpc hdone hring =>
      exact Server.exists_running_of_step hs (Server.Transition.of_step hring)
    | request => exact hs
  · exact ⟨rfl, rfl, rfl, nofun, nofun, nofun, fun _ _ ↦ rfl⟩

/-- Assumes: there is a worker and room for a request, all reads find the same disk, every
connection brings a whole header, and the process can answer every request. From every reachable
state in which `exiting` is clear, whatever the threads are doing there: left alone, the threads
make a bounded number of moves, in whichever order they run. When none of them can make a regular
move, either one comes to the slot behind those that are allocated, which takes as many connections,
with those of the producers, as there are slots; or every call of `add_request` has returned, every
worker waits, and every connection that was added has been answered by exactly one call, with the
response that the disk determines. -/
theorem left_alone_answers_all (disk : List UInt8 → FileStatus) (asked : ℕ → CompleteRequest)
    (nrThreads maxRequests : ℕ) (slots : ℕ → ℤ) (maxCacheSize : ℤ) (s : WholeServer)
    (active : Finset ℕ) (hthreads : 0 < nrThreads) (hmax : 0 < maxRequests)
    (hanswerable : ∀ ticket, ∃ response, Answerable disk (asked ticket).line response)
    (hreach : Reachable disk asked nrThreads maxRequests slots maxCacheSize s)
    (hexiting : s.ring.exiting = false) (hidle : ∀ p ∉ active, s.ring.producers p = .idle) :
    ∃ bound, ∀ k t, Machine.Steps (Working disk asked maxRequests) (step asked) s k t →
      k ≤ bound ∧ ((∀ m, t.Working disk asked maxRequests m → t.step asked m = none) →
        (t.Overruns asked maxRequests ∧ maxRequests ≤ s.ring.added.length + active.card) ∨
        (∀ p, t.ring.producers p = .idle) ∧ (∀ w < nrThreads, t.ring.workers w = .asleep) ∧
        ∀ ticket c, t.ring.added[ticket]? = some c →
          ∃! k, t.ring.served[k]? = some ⟨ticket, c⟩ ∧ t.Answered disk asked k ⟨ticket, c⟩) := by
  obtain ⟨active', hrunning'⟩ := hreach.exists_running hexiting
  have hrunning : s.ring.Running nrThreads active := { hrunning' with idle := hidle }
  refine ⟨s.potential nrThreads active, fun k t hsteps ↦ ?_⟩
  obtain ⟨⟨⟨hinv, hrest'⟩, harrivals⟩, hlength⟩ := hsteps.length_le
    (I := fun t ↦ (t.Invariant disk asked maxRequests maxCacheSize ∧
      t.ring.Running nrThreads active) ∧ t.ring.arrivals active = s.ring.arrivals active)
    (Φ := potential nrThreads active)
    (fun _ _ _ ⟨⟨hinv, hrunning⟩, harrivals⟩ hworking hstep ↦ by
      obtain ⟨hkept, hlower⟩ := potential_lt hinv hrunning hworking hstep
      exact ⟨⟨hkept, (arrivals_step hrunning hworking.statement hstep).trans harrivals⟩, hlower⟩)
    ⟨⟨hreach.invariant, hrunning⟩, rfl⟩
  refine ⟨by omega, fun hrest ↦ ?_⟩
  by_cases hslots : t.Overruns asked maxRequests
  · have hfull := hslots.le_length hinv hrest'.exiting
    have hcame := s.ring.arrivals_le active
    have hadded : t.ring.added.length ≤ t.ring.arrivals active := Nat.le_add_right _ _
    exact .inl ⟨hslots, by omega⟩
  · exact .inr (answered_of_rest hinv hrest' hanswerable hthreads hmax fun m hm hreads ↦
      rest_of_not_overruns hanswerable hrest hslots hm hreads)

/-- Two producers have called `add_request` of a ring with three slots, and the only worker has not
begun: they come to rest when both connections are answered. -/
theorem left_alone_answers_all_called : ∃ s bound,
    Reachable CacheServer.twoBytes (fun _ ↦ askForA) 1 3 (fun _ ↦ 0) 10 s ∧
      s.ring.producers 0 = .lock 7 ∧ s.ring.producers 1 = .lock 8 ∧
      ∀ k t, Machine.Steps (Working CacheServer.twoBytes (fun _ ↦ askForA) 3)
          (step fun _ ↦ askForA) s k t → k ≤ bound ∧
        ((∀ m, t.Working CacheServer.twoBytes (fun _ ↦ askForA) 3 m →
            t.step (fun _ ↦ askForA) m = none) →
          (∀ p, t.ring.producers p = .idle) ∧ (∀ w < 1, t.ring.workers w = .asleep) ∧
          ∀ ticket c, t.ring.added[ticket]? = some c → ∃! k,
            t.ring.served[k]? = some ⟨ticket, c⟩ ∧
              t.Answered CacheServer.twoBytes (fun _ ↦ askForA) k ⟨ticket, c⟩) := by
  have hanswerable : ∀ _ : ℕ, ∃ response, Answerable CacheServer.twoBytes askForA.line response :=
    fun _ ↦ ⟨requestSendfile ⟨ascii "./a", [1, 2], 2⟩, by decide, by decide⟩
  obtain ⟨s, hs⟩ : ∃ s : WholeServer, s = { init 1 3 (fun _ ↦ 0) 10 with
    ring := ((serverInit 1 3 fun _ ↦ 0).setProducer 0 (.lock 7)).setProducer 1 (.lock 8) } :=
    ⟨_, rfl⟩
  have hrun : Machine.run (Regular CacheServer.twoBytes (fun _ ↦ askForA) 3)
      (step fun _ ↦ askForA) (init 1 3 (fun _ ↦ 0) 10)
      [.thread (.request 0 7), .thread (.request 1 8)] = some s := hs ▸ rfl
  have hreach : Reachable CacheServer.twoBytes (fun _ ↦ askForA) 1 3 (fun _ ↦ 0) 10 s :=
    Machine.Reaches.of_run hrun
  have hidle : ∀ p ∉ ({0, 1} : Finset ℕ), s.ring.producers p = .idle := by
    intro p hp
    rw [mem_insert, mem_singleton, not_or] at hp
    rw [hs]
    exact (Function.update_of_ne hp.2 ..).trans (Function.update_of_ne hp.1 ..)
  obtain ⟨bound, hbound⟩ := left_alone_answers_all CacheServer.twoBytes (fun _ ↦ askForA) 1 3 _ 10 s
    {0, 1} Nat.one_pos (by decide) hanswerable hreach (by rw [hs]; rfl) hidle
  refine ⟨s, bound, hreach, (by rw [hs]; rfl), (by rw [hs]; rfl), fun k t hsteps ↦ ?_⟩
  obtain ⟨hle, hrest⟩ := hbound k t hsteps
  refine ⟨hle, fun hnone ↦ (hrest hnone).resolve_left fun hslots ↦ ?_⟩
  have hmany := hslots.2
  rw [hs] at hmany
  exact absurd hmany (by decide)

end WholeServer

end OperatingSystems.Webserver
