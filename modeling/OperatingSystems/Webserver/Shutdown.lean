import OperatingSystems.Webserver.RequestRing

/-!
# Shutting the server down

`server_exit` sets `exiting` and broadcasts `cv_empty` without taking `sv->lock`, and then joins
the workers. A worker tests `exiting` and the ring under the lock and joins the waiters of
`cv_empty` in a later step, so the broadcast can fall between the two: it finds the worker not yet
among the waiters, the worker then waits for a broadcast that has already happened, and
`server_exit` waits for the worker.

`BroadcastSeen` names the moves that avoid this. Along runs of such moves no worker is stranded
(`exit_strands_no_worker`), and every other run can go on to strand one.
-/

set_option autoImplicit false
set_option relaxedAutoImplicit false

namespace OperatingSystems.Webserver.Server

open OperatingSystems.Library

variable {s t : Server} {m : Move}

/-- The condition on a move under which shutting down strands no worker: when `server_exit`
broadcasts `cv_empty`, no worker stands between its test of `exiting` and the ring and its joining
of the waiters. -/
def BroadcastSeen (s : Server) (m : Move) : Prop :=
  m = .exit → s.exit = .broadcast → ∀ w < s.nrThreads, s.workers w ≠ .wait

instance (s : Server) (m : Move) : Decidable (s.BroadcastSeen m) := by
  unfold BroadcastSeen
  infer_instance

/-- What holds in a run whose moves all meet `BroadcastSeen`: once the broadcast is over no worker
waits, nor is about to. -/
structure Released (maxRequests : ℕ) (s : Server) : Prop where
  requests : s.maxRequests = maxRequests + 1
  exiting : s.exit ≠ .running → s.exiting = true
  awake : s.exit = .joining ∨ s.exit = .freed → ∀ w < s.nrThreads,
    s.workers w ≠ .wait ∧ s.workers w ≠ .asleep

/-- Every move that meets the condition keeps it so. -/
theorem Released.step {maxRequests : ℕ} (h : s.Released maxRequests) (hmax : 1 ≤ maxRequests)
    (hseen : s.BroadcastSeen m) (hstep : Transition s m t) : t.Released maxRequests := by
  obtain ⟨hrequests, hexiting, hawake⟩ := h
  cases hstep with
  | exitSet hpc => exact ⟨hrequests, fun _ ↦ rfl, by simp⟩
  | exitBroadcast hpc hring =>
    refine ⟨hrequests, fun _ ↦ hexiting (by simp [hpc]), fun _ w hw ↦ ?_⟩
    have hwait := hseen rfl hpc w hw
    dsimp only [broadcastEmpty]
    split_ifs with hasleep
    · simp
    · exact ⟨hwait, hasleep⟩
  | exitQuiet hpc hring =>
    -- There is no broadcast only if there are no workers.
    refine ⟨hrequests, fun _ ↦ hexiting (by simp [hpc]), fun _ w hw ↦ ?_⟩
    exact absurd ⟨by omega, Nat.zero_lt_of_lt hw⟩ hring
  | exitJoin hpc =>
    exact ⟨hrequests, fun _ ↦ hexiting (by simp [hpc]), fun _ ↦ hawake (.inl hpc)⟩
  | workerEmpty hpc hexit hempty =>
    -- A worker decides to wait only before `exiting` is set.
    have hrunning : s.exit = .running := by
      by_contra hpast
      exact absurd ((hexiting hpast).symm.trans hexit) (by simp)
    exact ⟨hrequests, hexiting, fun hpast ↦ by simp [setWorker, hrunning] at hpast⟩
  | @workerWait w hpc =>
    refine ⟨hrequests, hexiting, fun hpast v hv ↦ ?_⟩
    have hmine := hawake hpast v hv
    have hvw : v ≠ w := by
      rintro rfl
      exact hmine.1 hpc
    dsimp only [setWorker, release]
    rw [Function.update_of_ne hvw]
    exact hmine
  | _ =>
    refine ⟨hrequests, hexiting, fun hpast v hv ↦ ?_⟩
    have hmine := hawake hpast v hv
    simp only [setProducer, setWorker, release, broadcastEmpty, broadcastFull,
      Function.update_apply]
    grind

/-- A worker that the broadcast of `server_exit` finds about to wait joins the waiters after it. -/
theorem stranded_of_wait {w : ℕ} (hexit : s.exit = .broadcast) (hw : w < s.nrThreads)
    (hwait : s.workers w = .wait) :
    ∃ t, Machine.Reaches (fun _ _ ↦ True) step s t ∧ t.exit = .joining ∧ t.workers w = .asleep := by
  obtain ⟨u, hu, hjoining, hthreads, hworker⟩ : ∃ u, s.step .exit = some u ∧ u.exit = .joining ∧
      u.nrThreads = s.nrThreads ∧ u.workers w = .wait := by
    simp only [step, stepExit, hexit, reduceCtorEq, if_false]
    refine ⟨_, rfl, rfl, ?_, ?_⟩ <;> split_ifs <;> simp [broadcastEmpty, hwait]
  have hnext : u.step (.worker w) = some (u.release.setWorker w .asleep) := by
    simp [step, stepWorker, hjoining, hthreads, hw, hworker]
  refine ⟨u.release.setWorker w .asleep, ?_, hjoining, Function.update_self ..⟩
  exact (Relation.ReflTransGen.single ⟨_, trivial, hu⟩).tail ⟨_, trivial, hnext⟩

/-- Assumes: `max_requests` is at least one. In every interleaving in which the broadcast of
`server_exit` finds no worker between its test and its wait, no worker is un-notified among the
waiters of `cv_empty` while `server_exit` is past its broadcast. In an interleaving in which the
broadcast is about to find such a worker, the next two steps strand it. -/
theorem exit_strands_no_worker (nrThreads maxRequests : ℕ) (slots : ℕ → ℤ)
    (hmax : 1 ≤ maxRequests) :
    (∀ s, Machine.Reaches BroadcastSeen step (serverInit nrThreads maxRequests slots) s →
      s.exit = .joining → ∀ w < s.nrThreads, s.workers w ≠ .asleep) ∧
    (∀ s, Reachable nrThreads maxRequests slots s → ¬s.BroadcastSeen .exit →
      ∃ t, Machine.Reaches (fun _ _ ↦ True) step s t ∧ t.exit = .joining ∧
        ∃ w < s.nrThreads, t.workers w = .asleep) := by
  constructor
  · intro s hreach hjoining w hw
    have hreleased : s.Released maxRequests :=
      Machine.Reaches.invariant
        (fun _ _ _ hs hseen hstep ↦ hs.step hmax hseen (Transition.of_step hstep)) hreach
        ⟨rfl, fun h ↦ absurd rfl h, by simp [serverInit]⟩
    exact (hreleased.awake (.inl hjoining) w hw).2
  · intro s _ hseen
    simp only [BroadcastSeen, forall_const, not_forall, not_not] at hseen
    obtain ⟨hexit, w, hw, hwait⟩ := hseen
    obtain ⟨t, hreach, hjoining, hasleep⟩ := stranded_of_wait hexit hw hwait
    exact ⟨t, hreach, hjoining, w, hw, hasleep⟩

/-- One worker and a ring of one request: the server shuts down while the worker waits. -/
theorem exit_strands_no_worker_of_one : ∃ s,
    Machine.Reaches BroadcastSeen step (serverInit 1 1 fun _ ↦ 0) s ∧ s.exit = .joining ∧
      s.workers 0 = .woken ∧ ∀ w < s.nrThreads, s.workers w ≠ .asleep := by
  have hrun : (Machine.run BroadcastSeen step (serverInit 1 1 fun _ ↦ 0)
      (.replicate 4 (.worker 0) ++ [.exit, .exit])).map
        (fun s ↦ (s.exit, s.workers 0)) = some (.joining, .woken) := by
    decide
  obtain ⟨s, hs, hshape⟩ := Option.map_eq_some_iff.mp hrun
  simp only [Prod.mk.injEq] at hshape
  have hreach := Machine.Reaches.of_run hs
  exact ⟨s, hreach, hshape.1, hshape.2,
    (exit_strands_no_worker 1 1 _ (Nat.le_refl 1)).1 s hreach hshape.1⟩

/-- The worker finds the ring empty, `server_exit` sets `exiting` and broadcasts, and the worker
joins the waiters. -/
theorem exit_strands_worker : ¬∀ s, Reachable 1 1 (fun _ ↦ 0) s →
    s.exit = .joining → ∀ w < s.nrThreads, s.workers w ≠ .asleep := by
  intro h
  have hrun : (Machine.run (fun _ _ ↦ True) step (serverInit 1 1 fun _ ↦ 0)
      (.replicate 3 (.worker 0) ++ [.exit, .exit, .worker 0])).map
        (fun s ↦ (s.exit, s.nrThreads, s.workers 0)) = some (.joining, 1, .asleep) := by
    decide
  obtain ⟨s, hs, hshape⟩ := Option.map_eq_some_iff.mp hrun
  simp only [Prod.mk.injEq] at hshape
  obtain ⟨hjoining, hthreads, hasleep⟩ := hshape
  exact h s (Machine.Reaches.of_run hs) hjoining 0 (by omega) hasleep

end OperatingSystems.Webserver.Server
