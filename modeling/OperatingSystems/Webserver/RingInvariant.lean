import OperatingSystems.Webserver.RequestRing

/-!
# What holds of the request ring in every interleaving

Four invariants of the machine of `RequestRing`, each kept by every transition.

`Locked`: a thread at a position between the acquisition and the release of `sv->lock` is the one
that holds it, so no two threads are there at once. `Attentive`: while the server is not exiting,
threads wait on `cv_empty` only while the ring is empty and on `cv_full` only while it is full, a
thread that is about to move an index still finds the condition it tested, and it has woken the
waiters if the move ends that condition. `Queued`: the connections added and not yet taken are the
queue the ring keeps, so the connections taken are the first of those added. `Tracked`: every taken
request is held by exactly one worker until `do_server_request` is called for it.

After `exiting` is set a worker may take a slot of an empty ring, and only `Locked` and what
`Served` says about the calls of `do_server_request` remain: a worker that takes such a slot finds
`exiting` set before it would process it.
-/

set_option autoImplicit false
set_option relaxedAutoImplicit false

namespace OperatingSystems.Webserver

open OperatingSystems.Library

/-- The position lies between the acquisition and the release of the lock. -/
def ProducerPc.critical : ProducerPc → Bool
  | .test _ | .wait _ | .store _ | .notify _ | .advance _ | .unlock => true
  | .idle | .lock _ | .asleep _ | .woken _ => false

/-- The position lies between the acquisition and the release of the lock. -/
def WorkerPc.critical : WorkerPc → Bool
  | .test | .wait | .take | .notify _ | .advance _ | .unlock _ => true
  | .loop | .lock | .asleep | .woken | .check _ | .serve _ | .serving _ | .exited => false

/-- The request a worker holds between taking and processing it. -/
def WorkerPc.holding : WorkerPc → Option Request
  | .unlock r | .check r | .serve r => some r
  | .loop | .lock | .test | .wait | .asleep | .woken | .take | .notify _ | .advance _ | .serving _
  | .exited => none

namespace Server

variable {s t : Server} {m : Move}

@[grind =]
theorem wakeFull_critical (pc : ProducerPc) : (wakeFull pc).critical = pc.critical := by
  cases pc <;> rfl

@[grind .]
theorem wakeFull_ne_asleep (pc : ProducerPc) (connfd : ℤ) : wakeFull pc ≠ .asleep connfd := by
  cases pc <;> simp [wakeFull]

/-! ### Mutual exclusion -/

/-- The threads inside the lock hold it. -/
structure Locked (s : Server) : Prop where
  worker : ∀ w, (s.workers w).critical = true → s.lock = some (.worker w)
  producer : ∀ p, (s.producers p).critical = true → s.lock = some (.producer p)

/-- Every transition keeps the threads inside the lock its holders. -/
theorem Locked.step (h : s.Locked) (hstep : Transition s m t) : t.Locked := by
  obtain ⟨hworker, hproducer⟩ := h
  constructor
  · intro w
    have := hworker w
    cases hstep <;>
      dsimp only [setProducer, setWorker, release, broadcastEmpty, broadcastFull] <;>
      grind [WorkerPc.critical, ProducerPc.critical, Function.update_apply]
  · intro p
    have := hproducer p
    cases hstep <;>
      dsimp only [setProducer, setWorker, release, broadcastEmpty, broadcastFull] <;>
      grind [WorkerPc.critical, ProducerPc.critical, Function.update_apply]

/-- While one worker is inside the lock, no other worker is. -/
theorem Locked.worker_eq (h : s.Locked) {w v : ℕ} (hw : (s.workers w).critical = true)
    (hv : (s.workers v).critical = true) : v = w := by
  have heq := (h.worker w hw).symm.trans (h.worker v hv)
  simp only [Option.some.injEq, Agent.worker.injEq] at heq
  exact heq.symm

/-- While one producer is inside the lock, no other producer is. -/
theorem Locked.producer_eq (h : s.Locked) {p q : ℕ} (hp : (s.producers p).critical = true)
    (hq : (s.producers q).critical = true) : q = p := by
  have heq := (h.producer p hp).symm.trans (h.producer q hq)
  simp only [Option.some.injEq, Agent.producer.injEq] at heq
  exact heq.symm

/-- While a producer is inside the lock, no worker is. -/
theorem Locked.worker_out (h : s.Locked) {p : ℕ} (hp : (s.producers p).critical = true) (w : ℕ) :
    (s.workers w).critical = false := by
  by_contra hw
  rw [Bool.not_eq_false] at hw
  have heq := (h.producer p hp).symm.trans (h.worker w hw)
  simp at heq

/-- While a worker is inside the lock, no producer is. -/
theorem Locked.producer_out (h : s.Locked) {w : ℕ} (hw : (s.workers w).critical = true) (p : ℕ) :
    (s.producers p).critical = false := by
  by_contra hp
  rw [Bool.not_eq_false] at hp
  have heq := (h.worker w hw).symm.trans (h.producer p hp)
  simp at heq

/-! ### Waiting and notifying -/

/-- What a worker finds at its position while the server is not exiting. -/
def WorkerOk (s : Server) : WorkerPc → Prop
  | .wait | .asleep => s.buffer.empty = true
  | .take => s.buffer.empty = false
  | .notify connfd => s.buffer.empty = false ∧ s.buffer.requests s.buffer.out = connfd
  | .advance connfd =>
    s.buffer.empty = false ∧ s.buffer.requests s.buffer.out = connfd ∧
      ∀ p d, s.producers p ≠ .asleep d
  | .loop | .lock | .test | .woken | .unlock _ | .check _ | .serve _ | .serving _ | .exited => True

/-- What a producer finds at its position while the server is not exiting. -/
def ProducerOk (s : Server) : ProducerPc → Prop
  | .wait _ | .asleep _ => s.buffer.full = true
  | .store _ => s.buffer.full = false
  | .notify connfd => s.buffer.full = false ∧ s.buffer.requests s.buffer.inp = connfd
  | .advance connfd =>
    s.buffer.full = false ∧ s.buffer.requests s.buffer.inp = connfd ∧ ∀ w, s.workers w ≠ .asleep
  | .idle | .lock _ | .test _ | .woken _ | .unlock => True

/-- Every thread finds at its position what it tested before. -/
structure Attentive (s : Server) : Prop where
  worker : ∀ w, s.WorkerOk (s.workers w)
  producer : ∀ p, s.ProducerOk (s.producers p)

/-- A worker's findings depend on the buffer and on which producers wait. -/
theorem WorkerOk.congr {pc : WorkerPc} (h : s.WorkerOk pc) (hbuffer : t.buffer = s.buffer)
    (hasleep : ∀ p d, t.producers p = .asleep d → s.producers p = .asleep d) : t.WorkerOk pc := by
  cases pc with
  | advance connfd =>
    obtain ⟨hempty, hslot, hnone⟩ := h
    exact ⟨hbuffer ▸ hempty, hbuffer ▸ hslot, fun p d hp ↦ hnone p d (hasleep p d hp)⟩
  | wait | asleep | take | notify connfd => simpa only [WorkerOk, hbuffer] using h
  | _ => trivial

/-- A producer's findings depend on the buffer and on which workers wait. -/
theorem ProducerOk.congr {pc : ProducerPc} (h : s.ProducerOk pc) (hbuffer : t.buffer = s.buffer)
    (hasleep : ∀ w, t.workers w = .asleep → s.workers w = .asleep) : t.ProducerOk pc := by
  cases pc with
  | advance connfd =>
    obtain ⟨hfull, hslot, hnone⟩ := h
    exact ⟨hbuffer ▸ hfull, hbuffer ▸ hslot, fun w hw ↦ hnone w (hasleep w hw)⟩
  | wait connfd | asleep connfd | store connfd | notify connfd =>
    simpa only [ProducerOk, hbuffer] using h
  | _ => trivial

/-- A worker outside the lock that does not wait finds nothing in particular. -/
theorem WorkerOk.of_not_critical {pc : WorkerPc} (hpc : pc.critical = false)
    (hawake : pc ≠ .asleep) : s.WorkerOk pc := by
  cases pc <;> simp_all [WorkerPc.critical, WorkerOk]

/-- A producer outside the lock that does not wait finds nothing in particular. -/
theorem ProducerOk.of_not_critical {pc : ProducerPc} (hpc : pc.critical = false)
    (hawake : ∀ d, pc ≠ .asleep d) : s.ProducerOk pc := by
  cases pc <;> simp_all [ProducerPc.critical, ProducerOk]

/-- While the ring is not empty no worker waits. -/
theorem Attentive.worker_awake (h : s.Attentive) (hempty : s.buffer.empty = false) (w : ℕ) :
    s.workers w ≠ .asleep := by
  intro hw
  have hok := h.worker w
  rw [hw] at hok
  exact absurd (hok.symm.trans hempty) (by simp)

/-- While the ring is not full no producer waits. -/
theorem Attentive.producer_awake (h : s.Attentive) (hfull : s.buffer.full = false) (p : ℕ) (d : ℤ) :
    s.producers p ≠ .asleep d := by
  intro hp
  have hok := h.producer p
  rw [hp] at hok
  exact absurd (hok.symm.trans hfull) (by simp)

/-- Every transition to a state that is not exiting keeps what the workers find. -/
theorem Attentive.step_worker (h : s.Attentive) (hlocked : s.Locked) (hexit : t.exiting = false)
    (hstep : Transition s m t) (v : ℕ) : t.WorkerOk (t.workers v) := by
  have hv := h.worker v
  cases hstep with
  | exitSet => cases hexit
  | producerWait hpc =>
    -- The waiting producer held the lock, so no worker has told the producers and not moved yet.
    have hout := hlocked.worker_out (by rw [hpc]; rfl) v
    by_cases hasleep : s.workers v = .asleep
    · dsimp only [setProducer, release]
      rw [hasleep] at hv ⊢
      exact hv
    · exact .of_not_critical hout hasleep
  | producerStore hpc =>
    have hout := hlocked.worker_out (by rw [hpc]; rfl) v
    by_cases hasleep : s.workers v = .asleep
    · dsimp only [setProducer]
      rw [hasleep] at hv ⊢
      exact hv
    · exact .of_not_critical hout hasleep
  | @producerAdvance p c hpc =>
    -- The ring is not empty any more, and the producer has seen to it that no worker waits.
    have hok := h.producer p
    rw [hpc] at hok
    exact .of_not_critical (hlocked.worker_out (by rw [hpc]; rfl) v) (hok.2.2 v)
  | @workerAdvance w c hpc =>
    have hok := h.worker w
    rw [hpc] at hok
    dsimp only [setWorker]
    by_cases hw : v = w
    · subst hw
      rw [Function.update_self]
      trivial
    · rw [Function.update_of_ne hw]
      have hout : (s.workers v).critical = false := by
        by_contra hin
        exact hw (hlocked.worker_eq (by rw [hpc]; rfl) (by simpa using hin))
      exact .of_not_critical hout (h.worker_awake hok.1 v)
  | @workerNotify w c hpc hfull =>
    have hok := h.worker w
    rw [hpc] at hok
    dsimp only [setWorker, broadcastFull]
    by_cases hw : v = w
    · subst hw
      rw [Function.update_self]
      exact ⟨hok.1, hok.2, fun p d ↦ wakeFull_ne_asleep _ d⟩
    · rw [Function.update_of_ne hw]
      exact hv.congr rfl fun p d hp ↦ absurd hp (wakeFull_ne_asleep _ d)
  | @workerQuiet w c hpc hfull =>
    have hok := h.worker w
    rw [hpc] at hok
    dsimp only [setWorker]
    by_cases hw : v = w
    · subst hw
      rw [Function.update_self]
      exact ⟨hok.1, hok.2, h.producer_awake hfull⟩
    · rw [Function.update_of_ne hw]
      exact hv
  | _ =>
    dsimp only [setProducer, setWorker, release, broadcastEmpty] at *
    grind [WorkerOk, WorkerOk.congr, Function.update_apply]

/-- Every transition to a state that is not exiting keeps what the producers find. -/
theorem Attentive.step_producer (h : s.Attentive) (hlocked : s.Locked) (hexit : t.exiting = false)
    (hstep : Transition s m t) (q : ℕ) : t.ProducerOk (t.producers q) := by
  have hq := h.producer q
  cases hstep with
  | exitSet => cases hexit
  | workerWait hpc =>
    -- The waiting worker held the lock, so no producer has told the workers and not moved yet.
    have hout := hlocked.producer_out (by rw [hpc]; rfl) q
    dsimp only [setWorker, release]
    cases hasleep : s.producers q with
    | asleep d =>
      rw [hasleep] at hq
      exact hq
    | _ =>
      rw [hasleep] at hout
      exact .of_not_critical hout (by simp)
  | @workerAdvance w c hpc =>
    have hok := h.worker w
    rw [hpc] at hok
    exact .of_not_critical (hlocked.producer_out (by rw [hpc]; rfl) q) (hok.2.2 q)
  | @producerStore p c hpc =>
    have hok := h.producer p
    rw [hpc] at hok
    dsimp only [setProducer]
    by_cases hp : q = p
    · subst hp
      rw [Function.update_self]
      exact ⟨hok, Function.update_self ..⟩
    · rw [Function.update_of_ne hp]
      have hout : (s.producers q).critical = false := by
        by_contra hin
        exact hp (hlocked.producer_eq (by rw [hpc]; rfl) (by simpa using hin))
      exact .of_not_critical hout (h.producer_awake hok q)
  | @producerAdvance p c hpc =>
    have hok := h.producer p
    rw [hpc] at hok
    dsimp only [setProducer]
    by_cases hp : q = p
    · subst hp
      rw [Function.update_self]
      trivial
    · rw [Function.update_of_ne hp]
      have hout : (s.producers q).critical = false := by
        by_contra hin
        exact hp (hlocked.producer_eq (by rw [hpc]; rfl) (by simpa using hin))
      exact .of_not_critical hout (h.producer_awake hok.1 q)
  | @producerNotify p c hpc hempty =>
    have hok := h.producer p
    rw [hpc] at hok
    dsimp only [setProducer, broadcastEmpty]
    by_cases hp : q = p
    · subst hp
      rw [Function.update_self]
      exact ⟨hok.1, hok.2, by grind⟩
    · rw [Function.update_of_ne hp]
      exact hq.congr rfl (by grind)
  | @producerQuiet p c hpc hempty =>
    have hok := h.producer p
    rw [hpc] at hok
    dsimp only [setProducer]
    by_cases hp : q = p
    · subst hp
      rw [Function.update_self]
      exact ⟨hok.1, hok.2, h.worker_awake hempty⟩
    · rw [Function.update_of_ne hp]
      exact hq
  | @workerNotify w c hpc hfull =>
    -- The woken producers need not find anything.
    dsimp only [setWorker, broadcastFull]
    have hout := hlocked.producer_out (by rw [hpc]; rfl) q
    exact .of_not_critical ((wakeFull_critical _).trans hout) (wakeFull_ne_asleep _)
  | _ =>
    dsimp only [setProducer, setWorker, release, broadcastEmpty] at *
    grind [ProducerOk, ProducerOk.congr, Function.update_apply]

/-- Every transition to a state that is not exiting keeps what the threads find. -/
theorem Attentive.step (h : s.Attentive) (hlocked : s.Locked) (hexit : t.exiting = false)
    (hstep : Transition s m t) : t.Attentive where
  worker := h.step_worker hlocked hexit hstep
  producer := h.step_producer hlocked hexit hstep

/-! ### The queue in the ring -/

/-- The connections added and not taken are the queue the ring keeps. -/
def Queued (s : Server) : Prop :=
  ∃ pending, s.added = s.taken ++ pending ∧
    RingBuffer.Holds s.buffer.requests s.buffer.maxSize s.buffer.inp s.buffer.out pending

/-- The ring is full when its queue has one element less than the ring has slots. -/
theorem full_eq_false_iff {b : RequestBuffer} {q : List ℤ}
    (h : RingBuffer.Holds b.requests b.maxSize b.inp b.out q) :
    b.full = false ↔ q.length + 1 < b.maxSize := by
  have hlength := h.length_lt
  unfold RequestBuffer.full
  rw [h.occupancy_eq, beq_eq_false_iff_ne]
  omega

/-- The ring is empty when its queue is. -/
theorem empty_eq_false_iff {b : RequestBuffer} {q : List ℤ}
    (h : RingBuffer.Holds b.requests b.maxSize b.inp b.out q) : b.empty = false ↔ q ≠ [] := by
  unfold RequestBuffer.empty
  rw [beq_eq_false_iff_ne, Ne, h.eq_iff]

/-- Every transition keeps the queue in the ring. -/
theorem Queued.step (h : s.Queued) (hattentive : s.Attentive) (hstep : Transition s m t) :
    t.Queued := by
  obtain ⟨pending, hadded, hring⟩ := h
  cases hstep with
  | producerStore hpc => exact ⟨pending, hadded, hring.store _⟩
  | @producerAdvance p c hpc =>
    have hok := hattentive.producer p
    rw [hpc] at hok
    refine ⟨pending ++ [c], ?_, hring.push ((full_eq_false_iff hring).mp hok.1) hok.2.1⟩
    dsimp only [setProducer]
    rw [hadded, List.append_assoc]
  | @workerAdvance w c hpc =>
    have hok := hattentive.worker w
    rw [hpc] at hok
    obtain ⟨x, rest, rfl⟩ := List.exists_cons_of_ne_nil ((empty_eq_false_iff hring).mp hok.1)
    refine ⟨rest, ?_, hring.pop⟩
    dsimp only [setWorker]
    rw [hadded, ← hok.2.1, hring.head, List.append_assoc, List.singleton_append]
  | _ => exact ⟨pending, hadded, hring⟩

/-! ### The requests between taking and processing -/

/-- Every taken request is held by exactly one worker until it is processed. -/
structure Tracked (s : Server) : Prop where
  held : ∀ w r, (s.workers w).holding = some r →
    s.taken[r.ticket]? = some r.connfd ∧ r.ticket ∉ s.served.map Request.ticket
  held_eq : ∀ w v r q, (s.workers w).holding = some r → (s.workers v).holding = some q →
    r.ticket = q.ticket → w = v
  processed : ∀ r ∈ s.served, s.taken[r.ticket]? = some r.connfd
  accounted : ∀ k < s.taken.length, k ∈ s.served.map Request.ticket ∨
    ∃ w r, (s.workers w).holding = some r ∧ r.ticket = k

/-- The requests are tracked in a state in which the workers hold what they held and the history
is the same. -/
theorem Tracked.congr (h : s.Tracked) (htaken : t.taken = s.taken) (hserved : t.served = s.served)
    (hholding : ∀ w, (t.workers w).holding = (s.workers w).holding) : t.Tracked where
  held w r := by
    rw [htaken, hserved, hholding]
    exact h.held w r
  held_eq w v r q := by
    rw [hholding, hholding]
    exact h.held_eq w v r q
  processed := by
    rw [htaken, hserved]
    exact h.processed
  accounted k := by
    simp only [htaken, hserved, hholding]
    exact h.accounted k

/-- The worker that moves `out` on holds the request with the next ticket. -/
theorem Tracked.take (h : s.Tracked) {w : ℕ} (hw : (s.workers w).holding = none) (c : ℤ)
    (b : RequestBuffer) :
    ({ s with buffer := b, taken := s.taken ++ [c] }.setWorker w
      (.unlock ⟨s.taken.length, c⟩)).Tracked := by
  have hlt : ∀ {k : ℕ} {d : ℤ}, s.taken[k]? = some d → k < s.taken.length := fun hk ↦
    (List.getElem?_eq_some_iff.mp hk).1
  have hold : ∀ {k : ℕ} {d : ℤ}, s.taken[k]? = some d → (s.taken ++ [c])[k]? = some d :=
    fun hk ↦ (List.getElem?_append_left (hlt hk)).trans hk
  have hfresh : s.taken.length ∉ s.served.map Request.ticket := by
    intro hmem
    obtain ⟨r, hr, hticket⟩ := List.mem_map.mp hmem
    exact absurd (hlt (h.processed r hr)) (by omega)
  constructor
  · intro v r hv
    dsimp only [setWorker] at hv ⊢
    by_cases hvw : v = w
    · rw [hvw, Function.update_self] at hv
      cases hv
      exact ⟨by simp, hfresh⟩
    · rw [Function.update_of_ne hvw] at hv
      exact ⟨hold (h.held v r hv).1, (h.held v r hv).2⟩
  · intro v u r q hv hu hticket
    dsimp only [setWorker] at hv hu
    by_cases hvw : v = w
    · by_cases huw : u = w
      · rw [hvw, huw]
      · rw [hvw, Function.update_self] at hv
        rw [Function.update_of_ne huw] at hu
        cases hv
        exact absurd (hlt (h.held u q hu).1) (by simp [← hticket])
    · rw [Function.update_of_ne hvw] at hv
      by_cases huw : u = w
      · rw [huw, Function.update_self] at hu
        cases hu
        exact absurd (hlt (h.held v r hv).1) (by simp [hticket])
      · rw [Function.update_of_ne huw] at hu
        exact h.held_eq v u r q hv hu hticket
  · intro r hr
    exact hold (h.processed r hr)
  · intro k hk
    dsimp only [setWorker] at hk ⊢
    rw [List.length_append, List.length_singleton] at hk
    rcases Nat.lt_or_ge k s.taken.length with hlt' | hge
    · refine (h.accounted k hlt').imp id ?_
      rintro ⟨v, r, hv, hticket⟩
      have hvw : v ≠ w := by
        rintro rfl
        rw [hw] at hv
        cases hv
      exact ⟨v, r, by rw [Function.update_of_ne hvw]; exact hv, hticket⟩
    · exact .inr ⟨w, ⟨s.taken.length, c⟩,
        by rw [Function.update_self]; rfl, hge.antisymm (by omega)⟩

/-- The worker that calls `do_server_request` does not hold the request any more. -/
theorem Tracked.serve (h : s.Tracked) {w : ℕ} {r : Request} (hw : s.workers w = .serve r) :
    ({ s with served := s.served ++ [r] }.setWorker w (.serving r)).Tracked := by
  have hholding : (s.workers w).holding = some r := by rw [hw]; rfl
  have hother : ∀ {v : ℕ} {q : Request},
      ((({ s with served := s.served ++ [r] } : Server).setWorker w (.serving r)).workers v).holding
        = some q → v ≠ w ∧ (s.workers v).holding = some q := by
    intro v q hv
    dsimp only [setWorker] at hv
    by_cases hvw : v = w
    · rw [hvw, Function.update_self] at hv
      cases hv
    · rw [Function.update_of_ne hvw] at hv
      exact ⟨hvw, hv⟩
  constructor
  · intro v q hv
    obtain ⟨hvw, hq⟩ := hother hv
    refine ⟨(h.held v q hq).1, ?_⟩
    dsimp only [setWorker]
    rw [List.map_append, List.mem_append, not_or]
    refine ⟨(h.held v q hq).2, ?_⟩
    rw [List.map_singleton, List.mem_singleton]
    exact fun hticket ↦ hvw (h.held_eq v w q r hq hholding hticket)
  · intro v u q q' hv hu
    exact h.held_eq v u q q' (hother hv).2 (hother hu).2
  · intro q hq
    rcases List.mem_append.mp hq with hold | hnew
    · exact h.processed q hold
    · rw [List.mem_singleton.mp hnew]
      exact (h.held w r hholding).1
  · intro k hk
    dsimp only [setWorker]
    rw [List.map_append, List.mem_append]
    rcases h.accounted k hk with hserved | ⟨v, q, hv, hticket⟩
    · exact .inl (.inl hserved)
    · by_cases hvw : v = w
      · rw [hvw, hholding, Option.some.injEq] at hv
        exact .inl (.inr (by simp [hv, hticket]))
      · exact .inr ⟨v, q, by rw [Function.update_of_ne hvw]; exact hv, hticket⟩

/-- Every transition to a state that is not exiting keeps the requests tracked. -/
theorem Tracked.step (h : s.Tracked) (hexit : t.exiting = false) (hstep : Transition s m t) :
    t.Tracked := by
  cases hstep with
  | @workerAdvance w c hpc => exact h.take (by rw [hpc]; rfl) c _
  | workerServe hpc => exact h.serve hpc
  | workerSkip hpc hexiting => exact absurd (hexiting.symm.trans hexit) (by simp)
  | _ =>
    refine h.congr rfl rfl fun v ↦ ?_
    simp only [setProducer, setWorker, release, broadcastEmpty, broadcastFull,
      Function.update_apply]
    try grind [WorkerPc.holding]

/-! ### The calls of `do_server_request` -/

/-- Every call of `do_server_request`, made or about to be made, is for an added request, and there
is one call for a request at most. -/
structure Served (s : Server) : Prop where
  added : ∀ r ∈ s.served, s.added[r.ticket]? = some r.connfd
  nodup : (s.served.map Request.ticket).Nodup
  next : ∀ w r, s.workers w = .serve r →
    s.added[r.ticket]? = some r.connfd ∧ r.ticket ∉ s.served.map Request.ticket
  next_eq : ∀ w v r q, s.workers w = .serve r → s.workers v = .serve q → r.ticket = q.ticket →
    w = v

/-- An element of a list is in the same place of every longer one. -/
theorem getElem?_of_isPrefix {l l' : List ℤ} (h : l <+: l') {k : ℕ} {c : ℤ} (hk : l[k]? = some c) :
    l'[k]? = some c := by
  obtain ⟨rest, rfl⟩ := h
  exact (List.getElem?_append_left (List.getElem?_eq_some_iff.mp hk).1).trans hk

/-- The calls are as before in a state in which at most fewer are about to be made. -/
theorem Served.mono (h : s.Served) (hadded : s.added <+: t.added) (hserved : t.served = s.served)
    (hnext : ∀ w r, t.workers w = .serve r → s.workers w = .serve r) : t.Served where
  added r hr := by
    rw [hserved] at hr
    exact getElem?_of_isPrefix hadded (h.added r hr)
  nodup := by
    rw [hserved]
    exact h.nodup
  next w r hw := by
    rw [hserved]
    exact ⟨getElem?_of_isPrefix hadded (h.next w r (hnext w r hw)).1, (h.next w r (hnext w r hw)).2⟩
  next_eq w v r q hw hv := h.next_eq w v r q (hnext w r hw) (hnext v q hv)

/-- Assumes: the requests are tracked, and the taken connections are the first of those added. A
worker that finds `exiting` clear is about to call `do_server_request` for a new request. -/
theorem Served.check (h : s.Served) (htracked : s.Tracked) (htaken : s.taken <+: s.added) {w : ℕ}
    {r : Request} (hw : s.workers w = .check r) : (s.setWorker w (.serve r)).Served := by
  have hholding : (s.workers w).holding = some r := by rw [hw]; rfl
  have hserve : ∀ {v : ℕ} {q : Request}, (s.setWorker w (.serve r)).workers v = .serve q →
      (s.workers v).holding = some q ∧ (v = w ∨ s.workers v = .serve q) := by
    intro v q hv
    dsimp only [setWorker] at hv
    by_cases hvw : v = w
    · rw [hvw, Function.update_self] at hv
      cases hv
      exact ⟨hvw ▸ hholding, .inl hvw⟩
    · rw [Function.update_of_ne hvw] at hv
      exact ⟨by rw [hv]; rfl, .inr hv⟩
  constructor
  · exact h.added
  · exact h.nodup
  · intro v q hv
    have hheld := htracked.held v q (hserve hv).1
    exact ⟨getElem?_of_isPrefix htaken hheld.1, hheld.2⟩
  · intro v u q q' hv hu
    exact htracked.held_eq v u q q' (hserve hv).1 (hserve hu).1

/-- The worker that is about to call `do_server_request` calls it. -/
theorem Served.serve (h : s.Served) {w : ℕ} {r : Request} (hw : s.workers w = .serve r) :
    ({ s with served := s.served ++ [r] }.setWorker w (.serving r)).Served := by
  have hother : ∀ {v : ℕ} {q : Request},
      (({ s with served := s.served ++ [r] } : Server).setWorker w (.serving r)).workers v
        = .serve q → v ≠ w ∧ s.workers v = .serve q := by
    intro v q hv
    dsimp only [setWorker] at hv
    by_cases hvw : v = w
    · rw [hvw, Function.update_self] at hv
      cases hv
    · rw [Function.update_of_ne hvw] at hv
      exact ⟨hvw, hv⟩
  constructor
  · intro q hq
    rcases List.mem_append.mp hq with hold | hnew
    · exact h.added q hold
    · rw [List.mem_singleton.mp hnew]
      exact (h.next w r hw).1
  · dsimp only [setWorker]
    rw [List.map_append, List.map_singleton, List.nodup_append]
    refine ⟨h.nodup, by simp, fun k hk j hj heq ↦ ?_⟩
    rw [heq, List.mem_singleton.mp hj] at hk
    exact (h.next w r hw).2 hk
  · intro v q hv
    obtain ⟨hvw, hq⟩ := hother hv
    refine ⟨(h.next v q hq).1, ?_⟩
    dsimp only [setWorker]
    rw [List.map_append, List.mem_append, not_or, List.map_singleton, List.mem_singleton]
    exact ⟨(h.next v q hq).2, fun hticket ↦ hvw (h.next_eq v w q r hq hw hticket)⟩
  · intro v u q q' hv hu
    exact h.next_eq v u q q' (hother hv).2 (hother hu).2

/-- Assumes: what `Tracked` and `Queued` say, if the server is not exiting. Every transition keeps
what is known of the calls. -/
theorem Served.step (h : s.Served) (hlive : s.exiting = false → s.Tracked ∧ s.Queued)
    (hstep : Transition s m t) : t.Served := by
  cases hstep with
  | workerCheck hpc hexit =>
    obtain ⟨htracked, pending, hadded, -⟩ := hlive hexit
    exact h.check htracked ⟨pending, hadded.symm⟩ hpc
  | workerServe hpc => exact h.serve hpc
  | producerAdvance hpc => exact h.mono ⟨_, rfl⟩ rfl fun _ _ hw ↦ hw
  | _ =>
    refine h.mono (List.prefix_refl _) rfl fun v q hv ↦ ?_
    simp only [setProducer, setWorker, release, broadcastEmpty, broadcastFull,
      Function.update_apply] at hv
    grind

/-! ### Every reachable state -/

/-- The invariant of the machine. Only what concerns the lock and the calls of `do_server_request`
outlives the setting of `exiting`. -/
structure Invariant (maxRequests : ℕ) (s : Server) : Prop where
  size : s.buffer.maxSize = maxRequests + 1
  locked : s.Locked
  served : s.Served
  live : s.exiting = false → s.Attentive ∧ s.Queued ∧ s.Tracked

/-- A new server satisfies the invariant. -/
theorem invariant_serverInit (nrThreads maxRequests : ℕ) (slots : ℕ → ℤ) :
    (serverInit nrThreads maxRequests slots).Invariant maxRequests where
  size := rfl
  locked := ⟨by simp [serverInit, WorkerPc.critical], by simp [serverInit, ProducerPc.critical]⟩
  served := ⟨by simp [serverInit], by simp [serverInit], by simp [serverInit], by simp [serverInit]⟩
  live _ :=
    ⟨⟨fun _ ↦ trivial, fun _ ↦ trivial⟩,
      ⟨[], rfl, ⟨Nat.succ_pos _, Nat.succ_pos _, by simp [serverInit], by simp⟩⟩,
      ⟨by simp [serverInit, WorkerPc.holding], by simp [serverInit, WorkerPc.holding],
        by simp [serverInit], by simp [serverInit]⟩⟩

/-- `exiting` is never cleared, and the number of slots never changes. -/
theorem Transition.frame (hstep : Transition s m t) :
    (t.exiting = false → s.exiting = false) ∧ t.buffer.maxSize = s.buffer.maxSize := by
  cases hstep with
  | exitSet => exact ⟨fun h ↦ absurd h (by simp), rfl⟩
  | _ => exact ⟨id, rfl⟩

/-- Every move keeps the invariant. -/
theorem Invariant.step {maxRequests : ℕ} (h : s.Invariant maxRequests)
    (hstep : s.step m = some t) : t.Invariant maxRequests := by
  have htransition := Transition.of_step hstep
  obtain ⟨hexit, hsize⟩ := htransition.frame
  refine ⟨hsize.trans h.size, h.locked.step htransition, ?_, ?_⟩
  · exact h.served.step (fun hs ↦ ⟨(h.live hs).2.2, (h.live hs).2.1⟩) htransition
  · intro ht
    obtain ⟨hattentive, hqueued, htracked⟩ := h.live (hexit ht)
    exact ⟨hattentive.step h.locked ht htransition, hqueued.step hattentive htransition,
      htracked.step ht htransition⟩

/-- Every reachable state satisfies the invariant. -/
theorem Reachable.invariant {nrThreads maxRequests : ℕ} {slots : ℕ → ℤ}
    (h : Reachable nrThreads maxRequests slots s) : s.Invariant maxRequests :=
  Machine.Reaches.invariant (fun _ _ _ hs _ hstep ↦ hs.step hstep) h
    (invariant_serverInit nrThreads maxRequests slots)

/-! ### The order of the requests -/

/-- The number of connections in the buffer, as the source computes it. -/
def occupancy (s : Server) : ℕ :=
  (s.buffer.inp + s.buffer.maxSize - s.buffer.out) % s.buffer.maxSize

/-- The request lies in the buffer, behind the requests that are taken before it. -/
def Pending (s : Server) (r : Request) : Prop :=
  s.taken.length ≤ r.ticket ∧ r.ticket - s.taken.length < s.occupancy ∧
    s.buffer.requests ((s.buffer.out + (r.ticket - s.taken.length)) % s.buffer.maxSize) = r.connfd

/-- The worker holds the request between taking and processing it. -/
def Holding (s : Server) (w : ℕ) (r : Request) : Prop := (s.workers w).holding = some r

/-- The buffer holds the requests added and not taken. -/
theorem Queued.occupancy_eq (h : s.Queued) : s.taken.length + s.occupancy = s.added.length := by
  obtain ⟨pending, hadded, hring⟩ := h
  rw [occupancy, hring.occupancy_eq, hadded, List.length_append]

/-- A request added and not taken lies in the buffer. -/
theorem Queued.pending (h : s.Queued) {r : Request} (hr : s.added[r.ticket]? = some r.connfd)
    (htaken : s.taken.length ≤ r.ticket) : s.Pending r := by
  obtain ⟨pending, hadded, hring⟩ := h
  rw [hadded, List.getElem?_append_right htaken, List.getElem?_eq_some_iff] at hr
  obtain ⟨hlt, hslot⟩ := hr
  refine ⟨htaken, ?_, ?_⟩
  · rw [occupancy, hring.occupancy_eq]
    exact hlt
  · rw [hring.slots _ hlt]
    exact hslot

/-- As long as `exiting` is clear, no worker waits un-notified on `cv_empty` while the ring is not
empty, and no producer waits un-notified on `cv_full` while the ring is not full. -/
theorem no_missed_notifications (nrThreads maxRequests : ℕ) (slots : ℕ → ℤ) (s : Server)
    (hreach : Reachable nrThreads maxRequests slots s) (hexit : s.exiting = false) :
    (s.buffer.empty = false → ∀ w, s.workers w ≠ .asleep) ∧
    (s.buffer.full = false → ∀ p connfd, s.producers p ≠ .asleep connfd) := by
  have hattentive := (hreach.invariant.live hexit).1
  exact ⟨hattentive.worker_awake, hattentive.producer_awake⟩

/-- A worker waits for the first connection, and has been notified when it is there. -/
theorem no_missed_notifications_of_one : ∃ s, Reachable 1 1 (fun _ ↦ 0) s ∧
    s.buffer.empty = false ∧ s.workers 0 = .woken ∧ (∀ w, s.workers w ≠ .asleep) := by
  have hrun : (Machine.run (fun _ _ ↦ True) step (serverInit 1 1 fun _ ↦ 0)
      (.replicate 4 (.worker 0) ++ [.request 0 7] ++ .replicate 5 (.producer 0))).map
        (fun s ↦ (s.exiting, s.buffer.empty, s.workers 0)) = some (false, false, .woken) := by
    decide
  obtain ⟨s, hs, hshape⟩ := Option.map_eq_some_iff.mp hrun
  have hreach : Reachable 1 1 (fun _ ↦ 0) s := Machine.Reaches.of_run hs
  simp only [Prod.mk.injEq] at hshape
  obtain ⟨hexit, hempty, hworker⟩ := hshape
  exact ⟨s, hreach, hempty, hworker, (no_missed_notifications 1 1 _ s hreach hexit).1 hempty⟩

end Server

end OperatingSystems.Webserver
