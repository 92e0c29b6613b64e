import OperatingSystems.Webserver.Connection
import OperatingSystems.Webserver.Finishing
import OperatingSystems.Webserver.RingInvariant
import OperatingSystems.Webserver.SlotBounds

/-!
# The server as a whole

A server with worker threads and a buffer: the request ring of `RequestRing` and the cache with the
executions of `CacheServer`, put together. What is a single step of the ring, the call of
`do_server_request` in a worker, starts an execution here, the statements of the execution are moves
of their own among those of all other threads, and the worker is in the call until its execution
has sent the response. (Without worker threads or without a buffer `server_request` makes the call
itself, and there is no ring.)

`asked` gives the request that comes over a connection; it is indexed by the ticket of the request,
as a descriptor can be used for one connection after the other. A call begins where `request_init`
has read it.

`Linked` is the invariant that ties the two parts together: the executions are those of the calls,
in their order, and the ones under way are those of the workers that are in a call, one each. So a
connection that has been taken is held by a worker, or a worker is in the call for it, or it has
been answered with the response that the disk determines (`connections_answered`).

Scope. The runs have a meaning in C (`Regular`): no access to `buffer.requests` is behind the slots
that `server_init` has allocated, and no error message is longer than its array. They start when
`server_init` returns. It starts the workers before it initialises the lock, the condition variables
and the cache, and runs in which a worker moves before that are left out. Every connection brings a
whole header, `malloc` does not fail, and nothing fails in sending.
-/

set_option autoImplicit false
set_option relaxedAutoImplicit false

namespace OperatingSystems.Webserver

open Library

/-! ### The two parts -/

namespace Server

variable {s t : Server} {m : Move}

/-- The move is the call of `do_server_request` or the return from it. -/
def Calls (s : Server) (m : Move) : Prop :=
  ∃ w r, m = .worker w ∧ (s.workers w = .serve r ∨ s.workers w = .serving r)

/-- The other moves leave the calls, and who is in one. -/
theorem Transition.calls_frame (h : Transition s m t) (hm : ¬s.Calls m) :
    t.served = s.served ∧ ∀ w r, t.workers w = .serving r ↔ s.workers w = .serving r := by
  cases h with
  | workerServe hpc => exact absurd ⟨_, _, rfl, .inl hpc⟩ hm
  | workerServed hpc => exact absurd ⟨_, _, rfl, .inr hpc⟩ hm
  | _ =>
    refine ⟨rfl, fun w r ↦ ?_⟩
    simp only [setProducer, setWorker, release, broadcastEmpty, broadcastFull,
      Function.update_apply]
    try grind

/-- Only the workers of the server move, and `server_exit` has joined them when it frees the
server. -/
structure Joined (s : Server) : Prop where
  absent : ∀ w, s.nrThreads ≤ w → s.workers w = .loop
  joined : s.exit = .freed → ∀ w < s.nrThreads, s.workers w = .exited

/-- A worker moves only if it is one of the server's. -/
theorem lt_nrThreads_of_step {w : ℕ} (h : s.step (.worker w) = some t) : w < s.nrThreads := by
  simp only [step] at h
  split_ifs at h with hfreed hw
  exact hw

/-- A worker that is in its loop stays there unless it moves itself. -/
theorem Transition.loop_frame (h : Transition s m t) {w : ℕ} (hm : m ≠ .worker w)
    (hw : s.workers w = .loop) : t.workers w = .loop := by
  cases h <;>
    simp only [setProducer, setWorker, release, broadcastEmpty, broadcastFull,
      Function.update_apply] <;>
    grind

/-- `server_exit` frees the server once the workers have exited. -/
theorem exited_of_freed (h : s.step m = some t) (hfreed : t.exit = .freed) :
    m = .exit ∧ t.nrThreads = s.nrThreads ∧ ∀ w < s.nrThreads, t.workers w = .exited := by
  have hlive : s.exit ≠ .freed := by
    intro hexit
    simp only [step, hexit, if_true, reduceCtorEq] at h
  cases m with
  | exit =>
    simp only [step, if_neg hlive, stepExit] at h
    split at h
    case h_3 hpc =>
      split_ifs at h with hall
      cases h
      exact ⟨rfl, rfl, hall⟩
    case h_2 hpc =>
      split_ifs at h <;>
      · cases h
        cases hfreed
    all_goals
      cases h
      try cases hfreed
  | _ => cases Transition.of_step h <;> exact absurd hfreed hlive

/-- There is one call for a request at most. -/
theorem Served.eq_of_ticket_eq (h : s.Served) {k l : ℕ} {r q : Request}
    (hr : s.served[k]? = some r) (hq : s.served[l]? = some q) (hticket : q.ticket = r.ticket) :
    l = k := by
  obtain ⟨hlt, -⟩ := List.getElem?_eq_some_iff.mp hq
  refine (List.getElem?_inj (by simpa using hlt) h.nodup).mp ?_
  rw [List.getElem?_map, List.getElem?_map, hq, hr, Option.map_some, Option.map_some, hticket]

/-- The number of the workers does not change. -/
theorem Transition.nrThreads_eq (h : Transition s m t) : t.nrThreads = s.nrThreads := by
  cases h <;> rfl

/-- Every move keeps it so. -/
theorem Joined.step (h : s.Joined) (hstep : s.step m = some t) : t.Joined where
  absent w hw := by
    have htransition := Transition.of_step hstep
    rw [htransition.nrThreads_eq] at hw
    refine htransition.loop_frame ?_ (h.absent w hw)
    rintro rfl
    exact absurd (lt_nrThreads_of_step hstep) (by omega)
  joined hfreed w hw := by
    rw [(exited_of_freed hstep hfreed).2.1] at hw
    exact (exited_of_freed hstep hfreed).2.2 w hw

end Server

namespace CacheServer

variable {s t : CacheServer} {m : Move}

/-- Apart from the arrival of a request a move takes one execution on that is not done. -/
theorem exists_set_of_step (hstep : s.step m = some t) (hm : ∀ line, m ≠ .arrive line) :
    ∃ i x position, s.executions[i]? = some x ∧ (∀ response, x.position ≠ .done response) ∧
      t.executions = s.executions.set i ⟨x.line, position⟩ ∧
      remaining position < remaining x.position := by
  cases Transition.of_step hstep with
  | arrive line => exact absurd rfl (hm line)
  | @lookup i line fileName c c' found hi hcache hrun =>
    refine ⟨i, _, found.elim (.read fileName) .hit, hi, nofun, rfl, ?_⟩
    cases found <;> simp [remaining]
  | @send i line data entry hi =>
    refine ⟨i, _, _, hi, nofun, rfl, ?_⟩
    cases entry <;> simp [remaining]
  | lookupNone hi | use hi | readRefused hi | readFilled hi | insertNone hi | insert hi
  | release hi => exact ⟨_, _, _, hi, nofun, rfl, by simp [remaining]⟩

end CacheServer

/-! ### The server -/

/-- The ring with its threads, the cache with the executions, and for each worker the execution of
its last call. -/
structure WholeServer where
  ring : Server
  cached : CacheServer
  job : ℕ → ℕ

namespace WholeServer

/-- `server_init`. -/
def init (nrThreads maxRequests : ℕ) (slots : ℕ → ℤ) (maxCacheSize : ℤ) : WholeServer :=
  ⟨serverInit nrThreads maxRequests slots, .init maxCacheSize, fun _ ↦ 0⟩

/-- The moves. -/
inductive Move
  /-- A thread executes a statement of the ring. -/
  | thread (m : Server.Move)
  /-- A statement of an execution of `do_server_request`. -/
  | request (m : CacheServer.Move)

/-- A statement of the ring that is neither the call of `do_server_request` nor its return. -/
def moveThread (s : WholeServer) (m : Server.Move) : Option WholeServer :=
  (s.ring.step m).map fun ring ↦ { s with ring := ring }

/-- Worker `w` calls `do_server_request` for the request that it has taken. -/
def call (asked : ℕ → CompleteRequest) (s : WholeServer) (w : ℕ) (r : Request) :
    Option WholeServer := do
  let ring ← s.ring.step (.worker w)
  let cached ← s.cached.step (.arrive (asked r.ticket).line)
  some ⟨ring, cached, Function.update s.job w s.cached.executions.length⟩

/-- The call returns to worker `w`, once its execution has sent the response. -/
def callReturns (s : WholeServer) (w : ℕ) : Option WholeServer :=
  match s.cached.executions[s.job w]? with
  | some ⟨_, .done _⟩ => s.moveThread (.worker w)
  | _ => none

/-- The next statement of worker `w`. -/
def stepWorker (asked : ℕ → CompleteRequest) (s : WholeServer) (w : ℕ) : Option WholeServer :=
  match s.ring.workers w with
  | .serve r => s.call asked w r
  | .serving _ => s.callReturns w
  | _ => s.moveThread (.worker w)

/-- One move of one thread. Requests arrive with the calls of the workers only. -/
def step (asked : ℕ → CompleteRequest) (s : WholeServer) : Move → Option WholeServer
  | .thread (.worker w) => s.stepWorker asked w
  | .thread m => s.moveThread m
  | .request (.arrive _) => none
  | .request m => (s.cached.step m).map fun cached ↦ { s with cached := cached }

/-- Every read finds the same disk. -/
def ReadsFrom (disk : List UInt8 → FileStatus) (s : WholeServer) : Move → Prop
  | .thread _ => True
  | .request m => s.cached.ReadsFrom disk m

instance (disk : List UInt8 → FileStatus) (s : WholeServer) (m : Move) :
    Decidable (s.ReadsFrom disk m) :=
  match m with
  | .thread _ => inferInstanceAs (Decidable True)
  | .request m => inferInstanceAs (Decidable (s.cached.ReadsFrom disk m))

/-- The index at which a move writes or reads `buffer.requests`, if it does. -/
def slotAccess (s : WholeServer) : Move → Option ℕ
  | .thread m => s.ring.slotAccess m
  | .request _ => none

/-- The request line for which a move calls `do_server_request`, if it does. -/
def calledLine (asked : ℕ → CompleteRequest) (s : WholeServer) : Move → Option RequestLine
  | .thread (.worker w) =>
    match s.ring.workers w with
    | .serve r => some (asked r.ticket).line
    | _ => none
  | _ => none

/-- A move that reads from the disk and has a meaning in C: it stays within the slots that are
allocated, and the message about the request it is for, if there is one, within its array. -/
structure Regular (disk : List UInt8 → FileStatus) (asked : ℕ → CompleteRequest)
    (maxRequests : ℕ) (s : WholeServer) (m : Move) : Prop where
  reads : s.ReadsFrom disk m
  inBounds : ∀ i ∈ s.slotAccess m, i < Server.slotsAllocated maxRequests
  fits : ∀ line ∈ s.calledLine asked m, MessageFits disk line

instance (disk : List UInt8 → FileStatus) (asked : ℕ → CompleteRequest) (maxRequests : ℕ)
    (s : WholeServer) (m : Move) : Decidable (s.Regular disk asked maxRequests m) :=
  decidable_of_iff (s.ReadsFrom disk m ∧
      (∀ i ∈ s.slotAccess m, i < Server.slotsAllocated maxRequests) ∧
      ∀ line ∈ s.calledLine asked m, MessageFits disk line)
    ⟨fun ⟨hreads, hbounds, hfits⟩ ↦ ⟨hreads, hbounds, hfits⟩,
      fun ⟨hreads, hbounds, hfits⟩ ↦ ⟨hreads, hbounds, hfits⟩⟩

/-- The state is reached by some interleaving of all threads, all moves of which are regular. -/
def Reachable (disk : List UInt8 → FileStatus) (asked : ℕ → CompleteRequest)
    (nrThreads maxRequests : ℕ) (slots : ℕ → ℤ) (maxCacheSize : ℤ) (s : WholeServer) : Prop :=
  Machine.Reaches (Regular disk asked maxRequests) (step asked)
    (init nrThreads maxRequests slots maxCacheSize) s

/-- What one move can do, with the state it leaves. -/
inductive Transition (asked : ℕ → CompleteRequest) (s : WholeServer) : Move → WholeServer → Prop
  | thread {m ring} (hring : s.ring.step m = some ring) (hm : ¬s.ring.Calls m) :
    Transition asked s (.thread m) { s with ring := ring }
  | call {w r ring} (hpc : s.ring.workers w = .serve r)
      (hring : s.ring.step (.worker w) = some ring) :
    Transition asked s (.thread (.worker w))
      ⟨ring, { s.cached with executions :=
          s.cached.executions ++ [⟨(asked r.ticket).line, .start (asked r.ticket).line⟩] },
        Function.update s.job w s.cached.executions.length⟩
  | callReturns {w r line response ring} (hpc : s.ring.workers w = .serving r)
      (hdone : s.cached.executions[s.job w]? = some ⟨line, .done response⟩)
      (hring : s.ring.step (.worker w) = some ring) :
    Transition asked s (.thread (.worker w)) { s with ring := ring }
  | request {m cached} (hm : ∀ line, m ≠ .arrive line) (hstep : s.cached.step m = some cached) :
    Transition asked s (.request m) { s with cached := cached }

variable {disk : List UInt8 → FileStatus} {asked : ℕ → CompleteRequest} {s t : WholeServer}
  {m : Move} {nrThreads maxRequests : ℕ} {slots : ℕ → ℤ} {maxCacheSize : ℤ}

/-- A statement of the ring that is no call. -/
theorem Transition.of_moveThread {m : Server.Move} (h : s.moveThread m = some t)
    (hm : ¬s.ring.Calls m) : Transition asked s (.thread m) t := by
  obtain ⟨ring, hring, rfl⟩ := Option.map_eq_some_iff.mp h
  exact .thread hring hm

/-- The statements of a worker. -/
theorem Transition.of_stepWorker {w : ℕ} (h : s.stepWorker asked w = some t) :
    Transition asked s (.thread (.worker w)) t := by
  unfold stepWorker at h
  split at h
  case h_1 r hpc =>
    simp only [WholeServer.call, Option.bind_eq_bind, Option.bind_eq_some_iff] at h
    obtain ⟨ring, hring, cached, hcached, heq⟩ := h
    cases hcached
    cases heq
    exact .call hpc hring
  case h_2 r hpc =>
    unfold WholeServer.callReturns at h
    split at h
    case h_1 line response hdone =>
      obtain ⟨ring, hring, rfl⟩ := Option.map_eq_some_iff.mp h
      exact .callReturns hpc hdone hring
    case h_2 => cases h
  case h_3 hserve hserving =>
    refine .of_moveThread h ?_
    rintro ⟨v, r, heq, hpc | hpc⟩
    · cases heq
      exact hserve r hpc
    · cases heq
      exact hserving r hpc

/-- Every move is one of the transitions. -/
theorem Transition.of_step (h : s.step asked m = some t) : Transition asked s m t := by
  cases m with
  | thread m =>
    cases m with
    | worker w => exact .of_stepWorker h
    | _ =>
      refine .of_moveThread h ?_
      rintro ⟨w, r, heq, -⟩
      cases heq
  | request m =>
    cases m with
    | arrive line => cases h
    | _ =>
      obtain ⟨cached, hcached, rfl⟩ := Option.map_eq_some_iff.mp h
      exact .request nofun hcached

/-! ### What ties the two parts together -/

/-- The executions are those of the calls, in their order, and the ones that are not done are those
of the workers in a call, one each. -/
structure Linked (asked : ℕ → CompleteRequest) (s : WholeServer) : Prop where
  lines : s.cached.executions.map Execution.line = s.ring.served.map fun r ↦ (asked r.ticket).line
  job : ∀ w r, s.ring.workers w = .serving r → s.ring.served[s.job w]? = some r
  job_eq : ∀ w v r q, s.ring.workers w = .serving r → s.ring.workers v = .serving q →
    s.job w = s.job v → w = v
  underWay : ∀ k x, s.cached.executions[k]? = some x → (∃ response, x.position = .done response) ∨
    ∃ w r, s.ring.workers w = .serving r ∧ s.job w = k

/-- There is an execution for each call. -/
theorem Linked.length_eq (h : s.Linked asked) :
    s.cached.executions.length = s.ring.served.length := by
  simpa only [List.length_map] using congrArg List.length h.lines

/-- The execution of a call is for the request line of its request. -/
theorem Linked.exists_execution (h : s.Linked asked) {k : ℕ} {r : Request}
    (hr : s.ring.served[k]? = some r) :
    ∃ position, s.cached.executions[k]? = some ⟨(asked r.ticket).line, position⟩ := by
  have hline := congrArg (fun l ↦ l[k]?) h.lines
  simp only [List.getElem?_map, hr, Option.map_some, Option.map_eq_some_iff] at hline
  obtain ⟨⟨line, position⟩, hx, hline⟩ := hline
  exact ⟨position, hline ▸ hx⟩

/-- A statement of the ring that is no call leaves them tied. -/
theorem Linked.thread (h : s.Linked asked) {m : Server.Move} {ring : Server}
    (hring : s.ring.step m = some ring) (hm : ¬s.ring.Calls m) :
    ({ s with ring := ring } : WholeServer).Linked asked := by
  obtain ⟨hserved, hserving⟩ := (Server.Transition.of_step hring).calls_frame hm
  constructor
  · dsimp only
    rw [hserved]
    exact h.lines
  · intro w r hw
    dsimp only at hw ⊢
    rw [hserved]
    exact h.job w r ((hserving w r).mp hw)
  · intro w v r q hw hv
    exact h.job_eq w v r q ((hserving w r).mp hw) ((hserving v q).mp hv)
  · intro k x hx
    refine (h.underWay k x hx).imp id ?_
    rintro ⟨w, r, hw, hjob⟩
    exact ⟨w, r, (hserving w r).mpr hw, hjob⟩

/-- What the call of `do_server_request` does to the ring. -/
theorem ring_of_call {w : ℕ} {r : Request} {ring : Server} (hpc : s.ring.workers w = .serve r)
    (hring : s.ring.step (.worker w) = some ring) : ring.served = s.ring.served ++ [r] ∧
      ring.workers = Function.update s.ring.workers w (.serving r) := by
  cases Server.Transition.of_step hring with
  | workerServe hpc' =>
    rw [hpc] at hpc'
    cases hpc'
    exact ⟨rfl, rfl⟩
  | _ => simp_all

/-- What the return of the call does to the ring. -/
theorem ring_of_callReturns {w : ℕ} {r : Request} {ring : Server}
    (hpc : s.ring.workers w = .serving r) (hring : s.ring.step (.worker w) = some ring) :
    ring = s.ring.setWorker w .loop := by
  cases Server.Transition.of_step hring with
  | workerServed hpc' => rfl
  | _ => simp_all

/-- The call starts the execution that is the last of all. -/
theorem Linked.call (h : s.Linked asked) {w : ℕ} {r : Request} {ring : Server}
    (hpc : s.ring.workers w = .serve r) (hring : s.ring.step (.worker w) = some ring) :
    (⟨ring, { s.cached with executions :=
      s.cached.executions ++ [⟨(asked r.ticket).line, .start (asked r.ticket).line⟩] },
      Function.update s.job w s.cached.executions.length⟩ : WholeServer).Linked asked := by
  obtain ⟨hserved, hworkers⟩ := ring_of_call hpc hring
  have hlength := h.length_eq
  have hearlier : ∀ {v : ℕ} {q : Request}, s.ring.workers v = .serving q →
      s.job v < s.ring.served.length := fun hv ↦
    (List.getElem?_eq_some_iff.mp (h.job _ _ hv)).1
  constructor
  · dsimp only
    rw [hserved, List.map_append, List.map_append, h.lines, List.map_singleton, List.map_singleton]
  · intro v q hv
    dsimp only at hv ⊢
    rw [hworkers] at hv
    rw [hserved]
    by_cases hvw : v = w
    · subst hvw
      rw [Function.update_self] at hv
      cases hv
      rw [Function.update_self, hlength]
      simp
    · rw [Function.update_of_ne hvw] at hv ⊢
      exact (List.getElem?_append_left (hearlier hv)).trans (h.job v q hv)
  · intro v u q q' hv hu hjob
    dsimp only at hv hu hjob
    rw [hworkers] at hv hu
    by_cases hvw : v = w <;> by_cases huw : u = w
    · rw [hvw, huw]
    · rw [Function.update_of_ne huw] at hu
      rw [hvw, Function.update_self, Function.update_of_ne huw] at hjob
      exact absurd (hearlier hu) (by omega)
    · rw [Function.update_of_ne hvw] at hv
      rw [huw, Function.update_self, Function.update_of_ne hvw] at hjob
      exact absurd (hearlier hv) (by omega)
    · rw [Function.update_of_ne hvw] at hv hjob
      rw [Function.update_of_ne huw] at hu hjob
      exact h.job_eq v u q q' hv hu hjob
  · intro k x hx
    dsimp only at hx ⊢
    rw [hworkers]
    rcases Nat.lt_or_ge k s.cached.executions.length with hlt | hge
    · rw [List.getElem?_append_left hlt] at hx
      refine (h.underWay k x hx).imp id ?_
      rintro ⟨v, q, hv, hjob⟩
      have hvw : v ≠ w := by
        rintro rfl
        rw [hpc] at hv
        cases hv
      exact ⟨v, q, by rw [Function.update_of_ne hvw]; exact hv,
        by rw [Function.update_of_ne hvw]; exact hjob⟩
    · have hlt := (List.getElem?_eq_some_iff.mp hx).1
      rw [List.length_append, List.length_singleton] at hlt
      exact .inr ⟨w, r, Function.update_self .., by rw [Function.update_self]; omega⟩

/-- The call returns once its execution is done. -/
theorem Linked.callReturns (h : s.Linked asked) {w : ℕ} {r : Request} {line : RequestLine}
    {response : List UInt8} {ring : Server} (hpc : s.ring.workers w = .serving r)
    (hdone : s.cached.executions[s.job w]? = some ⟨line, .done response⟩)
    (hring : s.ring.step (.worker w) = some ring) :
    ({ s with ring := ring } : WholeServer).Linked asked := by
  obtain rfl := ring_of_callReturns hpc hring
  have hother : ∀ {v : ℕ} {q : Request}, (s.ring.setWorker w .loop).workers v = .serving q →
      s.ring.workers v = .serving q := by
    intro v q hv
    dsimp only [Server.setWorker] at hv
    by_cases hvw : v = w
    · rw [hvw, Function.update_self] at hv
      cases hv
    · rw [Function.update_of_ne hvw] at hv
      exact hv
  constructor
  · exact h.lines
  · exact fun v q hv ↦ h.job v q (hother hv)
  · exact fun v u q q' hv hu ↦ h.job_eq v u q q' (hother hv) (hother hu)
  · intro k x hx
    rcases h.underWay k x hx with hfinished | ⟨v, q, hv, hjob⟩
    · exact .inl hfinished
    · by_cases hvw : v = w
      · subst hvw
        rw [← hjob, hdone, Option.some.injEq] at hx
        exact .inl ⟨response, by rw [← hx]⟩
      · refine .inr ⟨v, q, ?_, hjob⟩
        dsimp only [Server.setWorker]
        rw [Function.update_of_ne hvw]
        exact hv

/-- A statement of an execution leaves them tied. -/
theorem Linked.request (h : s.Linked asked) {m : CacheServer.Move} {cached : CacheServer}
    (hm : ∀ line, m ≠ .arrive line) (hstep : s.cached.step m = some cached) :
    ({ s with cached := cached } : WholeServer).Linked asked := by
  obtain ⟨i, x, position, hi, hunfinished, hset, -⟩ := CacheServer.exists_set_of_step hstep hm
  obtain ⟨hlt, hx⟩ := List.getElem?_eq_some_iff.mp hi
  constructor
  · dsimp only
    rw [← h.lines, hset, List.map_set]
    have hsame := List.set_getElem_self
      (show i < (s.cached.executions.map Execution.line).length by simpa using hlt)
    rwa [List.getElem_map, hx] at hsame
  · exact h.job
  · exact h.job_eq
  · intro k y hy
    dsimp only at hy ⊢
    rw [hset] at hy
    by_cases hik : i = k
    · subst hik
      rcases h.underWay i x hi with ⟨response, hdone⟩ | hworker
      · exact absurd hdone (hunfinished response)
      · exact .inr hworker
    · rw [List.getElem?_set_ne hik] at hy
      exact h.underWay k y hy

/-- Every move leaves them tied. -/
theorem Linked.step (h : s.Linked asked) (hstep : s.step asked m = some t) : t.Linked asked := by
  cases Transition.of_step hstep with
  | thread hring hm => exact h.thread hring hm
  | call hpc hring => exact h.call hpc hring
  | callReturns hpc hdone hring => exact h.callReturns hpc hdone hring
  | request hm hcached => exact h.request hm hcached

/-! ### Every reachable state -/

/-- What holds of every reachable state. -/
structure Invariant (disk : List UInt8 → FileStatus) (asked : ℕ → CompleteRequest) (maxRequests : ℕ)
    (maxCacheSize : ℤ) (s : WholeServer) : Prop where
  ring : s.ring.Invariant maxRequests
  counted : s.ring.Counted maxRequests
  joined : s.ring.Joined
  cached : s.cached.Ready disk maxCacheSize
  linked : s.Linked asked

/-- A statement of the ring keeps what holds of it. -/
theorem Invariant.ring_step (h : s.Invariant disk asked maxRequests maxCacheSize) {m : Server.Move}
    {ring : Server} (hring : s.ring.step m = some ring) :
    ring.Invariant maxRequests ∧ ring.Counted maxRequests ∧ ring.Joined :=
  ⟨h.ring.step hring, h.counted.step (Server.Transition.of_step hring), h.joined.step hring⟩

/-- Every move keeps the invariant. -/
theorem Invariant.step (h : s.Invariant disk asked maxRequests maxCacheSize)
    (hreads : s.ReadsFrom disk m) (hstep : s.step asked m = some t) :
    t.Invariant disk asked maxRequests maxCacheSize := by
  have hlinked := h.linked.step hstep
  cases Transition.of_step hstep with
  | thread hring hm =>
    obtain ⟨hinv, hcounted, hjoined⟩ := h.ring_step hring
    exact ⟨hinv, hcounted, hjoined, h.cached, hlinked⟩
  | @call w r ring hpc hring =>
    obtain ⟨hinv, hcounted, hjoined⟩ := h.ring_step hring
    exact ⟨hinv, hcounted, hjoined,
      h.cached.step (m := .arrive (asked r.ticket).line) trivial rfl, hlinked⟩
  | callReturns hpc hdone hring =>
    obtain ⟨hinv, hcounted, hjoined⟩ := h.ring_step hring
    exact ⟨hinv, hcounted, hjoined, h.cached, hlinked⟩
  | request hm hcached =>
    exact ⟨h.ring, h.counted, h.joined, h.cached.step hreads hcached, hlinked⟩

/-- A new server. -/
theorem invariant_init (disk : List UInt8 → FileStatus) (asked : ℕ → CompleteRequest)
    (nrThreads maxRequests : ℕ) (slots : ℕ → ℤ) (maxCacheSize : ℤ) :
    (init nrThreads maxRequests slots maxCacheSize).Invariant disk asked maxRequests
      maxCacheSize where
  ring := Server.invariant_serverInit nrThreads maxRequests slots
  counted := Server.counted_serverInit nrThreads maxRequests slots
  joined := ⟨fun _ _ ↦ rfl, nofun⟩
  cached := CacheServer.ready_of_reaches .refl
  linked := ⟨rfl, nofun, nofun, nofun⟩

/-- Every reachable state satisfies the invariant. -/
theorem Reachable.invariant
    (h : Reachable disk asked nrThreads maxRequests slots maxCacheSize s) :
    s.Invariant disk asked maxRequests maxCacheSize :=
  Machine.Reaches.invariant (fun _ _ _ hs hregular hstep ↦ hs.step hregular.reads hstep) h
    (invariant_init disk asked nrThreads maxRequests slots maxCacheSize)

/-- The worker is in the `k`-th call of `do_server_request`. -/
def InCall (s : WholeServer) (w k : ℕ) (r : Request) : Prop :=
  s.ring.workers w = .serving r ∧ s.job w = k

/-- The `k`-th call of `do_server_request`, for the request, has sent the response that the disk
determines. -/
def Answered (disk : List UInt8 → FileStatus) (asked : ℕ → CompleteRequest) (s : WholeServer)
    (k : ℕ) (r : Request) : Prop :=
  ∃ response, s.cached.executions[k]? = some ⟨(asked r.ticket).line, .done response⟩ ∧
    respond disk (asked r.ticket).line = some response

/-- A call that no worker is in has been answered. -/
theorem Invariant.answered (h : s.Invariant disk asked maxRequests maxCacheSize) {k : ℕ}
    {r : Request} (hr : s.ring.served[k]? = some r) (hcall : ∀ w, ¬s.InCall w k r) :
    s.Answered disk asked k r := by
  obtain ⟨position, hx⟩ := h.linked.exists_execution hr
  rcases h.linked.underWay k _ hx with ⟨response, rfl⟩ | ⟨w, q, hw, hjob⟩
  · exact ⟨response, hx, h.cached.faithful.right _ (List.mem_of_getElem? hx)⟩
  · have hq := h.linked.job w q hw
    rw [hjob, hr, Option.some.injEq] at hq
    exact absurd ⟨hq ▸ hw, hjob⟩ (hcall w)

/-- Assumes: all reads find the same disk, every connection brings a whole header, and the moves
have a meaning in C. In every interleaving of producers, workers, a shutdown and the statements of
the calls, for every size of the ring and limit of the cache: every call of `do_server_request` is
for a connection added before, no two are for the same one, and either exactly one worker is in the
call or it has sent the response that the disk determines; a connection that has been taken is in
exactly one call, or held by a worker, as long as `exiting` is clear; and when `server_exit` frees
the server, every call has sent its response. -/
theorem connections_answered (disk : List UInt8 → FileStatus) (asked : ℕ → CompleteRequest)
    (nrThreads maxRequests : ℕ) (slots : ℕ → ℤ) (maxCacheSize : ℤ) (s : WholeServer)
    (hreach : Reachable disk asked nrThreads maxRequests slots maxCacheSize s) :
    (∀ k r, s.ring.served[k]? = some r →
      s.ring.added[r.ticket]? = some r.connfd ∧
      (∀ l q, s.ring.served[l]? = some q → q.ticket = r.ticket → l = k) ∧
      ((∃! w, s.InCall w k r) ∨ (∀ w, ¬s.InCall w k r) ∧ s.Answered disk asked k r)) ∧
    (s.ring.exiting = false → ∀ ticket < s.ring.taken.length,
      (∃! k : ℕ, ∃ r : Request, s.ring.served[k]? = some r ∧ r.ticket = ticket) ∨
      ∃ w r, s.ring.Holding w r ∧ r.ticket = ticket) ∧
    (s.ring.exit = .freed → ∀ k r, s.ring.served[k]? = some r → s.Answered disk asked k r) := by
  have hinv := hreach.invariant
  refine ⟨fun k r hr ↦ ⟨hinv.ring.served.added r (List.mem_of_getElem? hr),
    fun l q hq ↦ hinv.ring.served.eq_of_ticket_eq hr hq, ?_⟩, fun hexit ticket hlt ↦ ?_,
    fun hfreed k r hr ↦ ?_⟩
  · by_cases hcall : ∃ w, s.InCall w k r
    · obtain ⟨w, hw, hjob⟩ := hcall
      exact .inl ⟨w, ⟨hw, hjob⟩, fun v hv ↦
        hinv.linked.job_eq v w r r hv.1 hw (hv.2.trans hjob.symm)⟩
    · rw [not_exists] at hcall
      exact .inr ⟨hcall, hinv.answered hr hcall⟩
  · rcases (hinv.ring.live hexit).2.2.accounted ticket hlt with hserved | hheld
    · obtain ⟨r, hr, hticket⟩ := List.mem_map.mp hserved
      obtain ⟨k, hk⟩ := List.mem_iff_getElem?.mp hr
      refine .inl ⟨k, ⟨r, hk, hticket⟩, ?_⟩
      rintro l ⟨q, hq, hq'⟩
      exact hinv.ring.served.eq_of_ticket_eq hk hq (hq'.trans hticket.symm)
    · exact .inr hheld
  · refine hinv.answered hr fun w hw ↦ ?_
    have hpc := hw.1
    rcases Nat.lt_or_ge w s.ring.nrThreads with hlt | hge
    · rw [hinv.joined.joined hfreed w hlt] at hpc
      cases hpc
    · rw [hinv.joined.absent w hge] at hpc
      cases hpc

/-- Two workers take the connections that a producer has added one after the other, and call
`do_server_request`. -/
def twoCalls : List Server.Move :=
  [.request 0 7] ++ .replicate 6 (.producer 0) ++ [.request 0 8] ++ .replicate 6 (.producer 0) ++
    .replicate 9 (.worker 0) ++ .replicate 9 (.worker 1)

/-- The second call is answered, and the first has not found the file in the cache. -/
def twoRequests : List Move :=
  twoCalls.map .thread ++
    [.request (.lookup 1), .request (.read 1 (.filled [1, 2] 2)), .request (.lookup 0),
      .request (.insert 1 0 0), .request (.send 1), .thread (.worker 1)]

/-- Each connection is in its call or answered. -/
theorem connections_answered_twoRequests : ∃ s,
    Reachable CacheServer.twoBytes (fun _ ↦ askForA) 2 2 (fun _ ↦ 0) 10 s ∧
      s.ring.served = [⟨0, 7⟩, ⟨1, 8⟩] ∧ s.ring.workers 0 = .serving ⟨0, 7⟩ ∧
      s.ring.workers 1 = .loop ∧
      ∀ k r, s.ring.served[k]? = some r → (∃! w, s.InCall w k r) ∨
        (∀ w, ¬s.InCall w k r) ∧ s.Answered CacheServer.twoBytes (fun _ ↦ askForA) k r := by
  have hrun : (Machine.run (Regular CacheServer.twoBytes (fun _ ↦ askForA) 2)
      (step fun _ ↦ askForA) (init 2 2 (fun _ ↦ 0) 10) twoRequests).map
        (fun s ↦ (s.ring.served, s.ring.workers 0, s.ring.workers 1)) =
      some ([⟨0, 7⟩, ⟨1, 8⟩], .serving ⟨0, 7⟩, .loop) := by
    decide +kernel
  obtain ⟨s, hs, hend⟩ := Option.map_eq_some_iff.mp hrun
  obtain ⟨hserved, hworkers⟩ := Prod.mk.inj hend
  obtain ⟨hfirst, hsecond⟩ := Prod.mk.inj hworkers
  have hreach : Reachable CacheServer.twoBytes (fun _ ↦ askForA) 2 2 (fun _ ↦ 0) 10 s :=
    Machine.Reaches.of_run hs
  exact ⟨s, hreach, hserved, hfirst, hsecond, fun k r hr ↦
    ((connections_answered _ _ 2 2 _ 10 s hreach).1 k r hr).2.2⟩

end WholeServer

end OperatingSystems.Webserver
