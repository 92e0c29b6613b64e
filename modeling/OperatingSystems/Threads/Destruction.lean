import OperatingSystems.Threads.Exclusion

/-!
# Destroying queues

`clear_queue` frees every thread it finds. Four functions call it: `lock_destroy`, `cv_destroy` and
`thread_exit` on a queue that is empty by then, and `wait_queue_destroy` on the queue it is given,
whatever stands there. Only the last one can free a thread that is alive, and it does so exactly if
the queue is not empty (`destruction_spares_iff`).

The other modules leave `wait_queue_destroy` out of the runs. Here a thread may also destroy a wait
queue of its own (`Action`), in one step and as long as no thread waits in it; such a step keeps
what holds of the queues and of the locks.
-/

set_option autoImplicit false
set_option relaxedAutoImplicit false

namespace OperatingSystems.Threads

open State (Move Memory)
open OperatingSystems.Library.LinkedQueue (IsQueue Path Queue)

variable {a b : Ideal} {m : Move} {s t : State} {g h : ℕ} {q : QueueId} {w : WaitQueue}
  {l : List ℕ} {k : Queue ℕ}

/-! ### What `clear_queue` frees -/

/-- What `clear_queue`, executed by a thread, does with the nodes of a queue. -/
def cleared (by_ : ℕ) : List ℕ → List Event
  | [] => []
  | h :: l => cleared by_ l ++ [.free by_ h, .read h]

theorem mem_cleared {by_ : ℕ} (hh : h ∈ l) : .free by_ h ∈ cleared by_ l := by
  induction l with
  | nil => cases hh
  | cons g l ih =>
    rcases List.mem_cons.mp hh with rfl | hmem
    · simp [cleared]
    · exact List.mem_append_left _ (ih hmem)

namespace State

/-- `clear_queue` frees the threads of the queue, in order. -/
theorem clearQueue_spec (hk : s.queues q = some k) (hpath : Path s.next k.head l none) {fuel : ℕ}
    (hfuel : 4 * l.length + 3 ≤ fuel) :
    ∃ t, clearQueue q fuel .test s = some t ∧ t.log = cleared s.core.current l ++ s.log := by
  induction l generalizing s k fuel with
  | nil =>
    obtain ⟨n, rfl⟩ := Nat.exists_eq_add_of_le hfuel
    have hhead : k.head = none := hpath
    rw [show 4 * [].length + 3 + n = n + 1 + 1 + 1 by simp; omega]
    simp [clearQueue, clearStep, hk, hhead, cleared]
  | cons h l ih =>
    obtain ⟨n, rfl⟩ : ∃ n, fuel = n + 1 + 1 + 1 + 1 :=
      ⟨fuel - 4, by simp only [List.length_cons] at hfuel; omega⟩
    obtain ⟨hhead, hrest⟩ := hpath
    have hfuel' : 4 * l.length + 3 ≤ n := by
      simp only [List.length_cons] at hfuel
      omega
    obtain ⟨t, ht, hlog⟩ := ih (k := { k with head := s.next h })
      (s := { s with
        log := .free s.core.current h :: .read h :: s.log
        queues := Function.update s.queues q (some { k with head := s.next h }) })
      (Function.update_self ..) hrest hfuel'
    refine ⟨t, ?_, ?_⟩
    · simpa [clearQueue, clearStep, hk, hhead] using ht
    · simp [hlog, cleared]

/-- `wait_queue_destroy` frees the threads in the queue. -/
theorem waitQueueDestroy_spec (hl : s.Waits w l) (hlength : l.length ≤ s.core.allocated) :
    ∃ t, s.waitQueueDestroy w = some t ∧ t.log = cleared s.core.current l ++ s.log := by
  rcases hl with ⟨hnone, rfl⟩ | ⟨k, hk, hqueue⟩
  · exact ⟨s, by simp [waitQueueDestroy, hnone], rfl⟩
  · have hfuel : 4 * l.length + 3 ≤ s.clearFuel := by
      rw [clearFuel]
      omega
    obtain ⟨t, ht, hlog⟩ := clearQueue_spec hk hqueue.path hfuel
    exact ⟨{ t with queues := Function.update t.queues (.wait w) none },
      by simp [waitQueueDestroy, hk, ht], hlog⟩

/-! ### What the other operations log -/

theorem appendNodeToQueue_log {n : ℕ} (h : s.appendNodeToQueue q n = some t) : t.log = s.log := by
  obtain ⟨k, -, h⟩ := Option.bind_eq_some_iff.mp h
  obtain ⟨⟨next, k⟩, -, h⟩ := Option.bind_eq_some_iff.mp h
  obtain rfl := Option.some.inj h
  rfl

theorem popQueue_log {n : ℕ} (h : s.popQueue q = some (n, t)) : t.log = s.log := by
  obtain ⟨k, -, h⟩ := Option.bind_eq_some_iff.mp h
  obtain ⟨⟨n, next, k⟩, -, h⟩ := Option.bind_eq_some_iff.mp h
  obtain ⟨-, rfl⟩ := Prod.mk.inj (Option.some.inj h)
  rfl

theorem wakeupLoop_log {all : Bool} {fuel count : ℕ}
    (h : wakeupLoop w all fuel s = some (t, count)) : t.log = s.log := by
  induction fuel generalizing s t count with
  | zero => cases h
  | succ fuel ih =>
    obtain ⟨⟨n, u⟩, hpop, h⟩ := Option.bind_eq_some_iff.mp h
    obtain ⟨v, happend, h⟩ := Option.bind_eq_some_iff.mp h
    obtain ⟨k, -, h⟩ := Option.bind_eq_some_iff.mp h
    have hlog : v.log = s.log :=
      (appendNodeToQueue_log happend).trans (popQueue_log (t := u) hpop)
    split_ifs at h
    · obtain ⟨⟨x, count'⟩, hloop, h⟩ := Option.bind_eq_some_iff.mp h
      obtain ⟨rfl, -⟩ := Prod.mk.inj (Option.some.inj h)
      exact (ih hloop).trans hlog
    · obtain ⟨rfl, -⟩ := Prod.mk.inj (Option.some.inj h)
      exact hlog

theorem threadWakeup_log {all : Bool} {count : ℕ} (h : s.threadWakeup w all = some (t, count)) :
    t.log = s.log := by
  rw [threadWakeup] at h
  split at h
  · obtain ⟨rfl, -⟩ := Prod.mk.inj (Option.some.inj h)
    rfl
  · split_ifs at h
    · obtain ⟨rfl, -⟩ := Prod.mk.inj (Option.some.inj h)
      rfl
    · exact wakeupLoop_log h

end State

/-! ### Threads that are alive -/

namespace State

/-- The thread is in the array `threads`. -/
def Recorded (s : State) (h : ℕ) : Prop := ∃ tid, s.core.threads tid = some h

/-- The thread is in the ready queue or in a wait queue. -/
def Queued (s : State) (h : ℕ) : Prop :=
  (∃ l, s.Ready l ∧ h ∈ l) ∨ ∃ w l, s.Waits w l ∧ h ∈ l

end State

theorem Linked.queued_iff (hs : Linked s a) :
    s.Queued h ↔ h ∈ a.ready ∨ ∃ w, h ∈ a.waiters w := by
  constructor
  · rintro (⟨l, hl, hmem⟩ | ⟨w, l, hl, hmem⟩)
    · exact .inl (State.HasQueue.eq hl hs.ready_list ▸ hmem)
    · exact .inr ⟨w, hl.eq (hs.waits w) ▸ hmem⟩
  · rintro (hmem | ⟨w, hmem⟩)
    · exact .inl ⟨_, hs.ready_list, hmem⟩
    · exact .inr ⟨w, _, hs.waits w, hmem⟩

theorem Linked.recorded_iff (hs : Linked s a) : s.Recorded h ↔
    ∃ tid, a.core.threads tid = some h := by
  rw [State.Recorded, hs.core]

/-- No wait queue is longer than the threads are many. -/
theorem Linked.waiters_length (hs : Linked s a) (ha : a.Ordered) (w : WaitQueue) :
    (a.waiters w).length ≤ s.core.allocated := by
  cases hw : a.waiting w with
  | none => simp [Ideal.waiters, hw]
  | some l =>
    rw [hs.core]
    exact hs.length_le ha.separate (q := .wait w) (by simp) fun hnone ↦ by
      simp [(hs.waiting w).mp hnone] at hw

/-! ### The destructions -/

/-- The operations that destroy a queue. -/
inductive Destruction
  | queue (w : WaitQueue)
  | lock (x : ℕ)
  | cv (c : ℕ)
  | exit

namespace State

def destroy (s : State) : Destruction → Option State
  | .queue w => s.waitQueueDestroy w
  | .lock x => s.lockDestroy x
  | .cv c => s.cvDestroy c
  | .exit => s.threadExit

/-- The destruction frees no thread that is alive, and leaves each of them where it can be found,
but for the thread that exits. -/
structure Spares (s : State) (d : Destruction) (t : State) : Prop where
  freed : ∃ new, t.log = new ++ s.log ∧ ∀ g h, .free g h ∈ new → ¬s.Recorded h ∧ ¬s.Queued h
  recorded : ∀ h, s.Recorded h → t.Recorded h ∨ d = .exit ∧ h = s.core.current
  queued : ∀ h, s.Queued h → t.Queued h ∨ d = .exit ∧ h = s.core.current

end State

namespace Ideal

/-- The wait queues of a scheduler from which an empty queue has been removed. -/
theorem waiters_dropQueue_nil (a : Ideal) (v : WaitQueue) (hw : a.waiters w = []) :
    (a.dropQueue w).waiters v = a.waiters v := by
  rw [waiters_dropQueue]
  split_ifs with hv
  · rw [hv, hw]
  · rfl

end Ideal

namespace Linked

/-- Nothing is freed, and the threads are where they were. -/
theorem spares_of_same (hs : Linked s a) (ht : Linked t b) (hlog : t.log = s.log)
    (hthreads : b.core.threads = a.core.threads) (hready : b.ready = a.ready)
    (hwaiters : ∀ w, b.waiters w = a.waiters w) (d : Destruction) : s.Spares d t where
  freed := ⟨[], hlog, by simp⟩
  recorded h hmem := .inl (by rwa [ht.recorded_iff, hthreads, ← hs.recorded_iff])
  queued h hmem := .inl (by
    rw [ht.queued_iff, hready]
    simp only [hwaiters]
    exact hs.queued_iff.mp hmem)

/-- `wait_queue_destroy` spares the threads that are alive exactly if no thread waits in the queue.
-/
theorem queue_spares_iff (hs : Linked s a) (ha : a.Ordered)
    (hdestroy : s.waitQueueDestroy w = some t) :
    s.Spares (.queue w) t ↔ a.waiters w = [] := by
  obtain ⟨u, hu, hlog⟩ := State.waitQueueDestroy_spec (hs.waits w) (hs.waiters_length ha w)
  obtain rfl := Option.some.inj (hdestroy.symm.trans hu)
  constructor
  · intro hspares
    by_contra hne
    obtain ⟨h, hmem⟩ := List.exists_mem_of_ne_nil _ hne
    obtain ⟨new, hnew, hfreed⟩ := hspares.freed
    have hcleared : cleared s.core.current (a.waiters w) = new :=
      List.append_cancel_right (hlog.symm.trans hnew)
    exact (hfreed _ h (hcleared ▸ mem_cleared hmem)).2 (hs.queued_iff.mpr (.inr ⟨w, hmem⟩))
  · intro hnil
    rw [hnil] at hlog
    exact hs.spares_of_same (hs.waitQueueDestroy hdestroy) hlog rfl rfl
      (fun v ↦ a.waiters_dropQueue_nil v hnil) _

/-- `lock_destroy` finds no waiting thread, because the lock is free. -/
theorem lock_spares (hs : Linked s a) (ha : a.Ordered) (hx : a.Exclusive) {x : ℕ}
    (hdestroy : s.lockDestroy x = some t) : s.Spares (.lock x) t := by
  obtain ⟨k, hk, hdestroy⟩ := Option.bind_eq_some_iff.mp hdestroy
  split_ifs at hdestroy with hlocked
  obtain ⟨u, hu, hdestroy⟩ := Option.bind_eq_some_iff.mp hdestroy
  obtain rfl := Option.some.inj hdestroy
  rw [hs.core] at hk
  have hnil := hx.empty x k hk (by simpa using hlocked)
  have hspares := (hs.queue_spares_iff ha hu).mpr hnil
  exact ⟨hspares.freed, fun h hmem ↦ .inl ((hspares.recorded h hmem).resolve_right (by simp)),
    fun h hmem ↦ .inl ((hspares.queued h hmem).resolve_right (by simp))⟩

/-- `cv_destroy` asserts that no thread waits. -/
theorem cv_spares (hs : Linked s a) (ha : a.Ordered) {c : ℕ} (hdestroy : s.cvDestroy c = some t) :
    s.Spares (.cv c) t := by
  obtain ⟨k, hk, hdestroy⟩ := Option.bind_eq_some_iff.mp hdestroy
  split_ifs at hdestroy with hsize
  have hnil : a.waiters (.cv c) = [] := by
    have hlength := (hs.queue (.wait (.cv c)) k (by simp) hk).size
    rw [hsize] at hlength
    exact List.length_eq_zero_iff.mp (Int.ofNat_inj.mp hlength.symm)
  have hspares := (hs.queue_spares_iff ha hdestroy).mpr hnil
  exact ⟨hspares.freed, fun h hmem ↦ .inl ((hspares.recorded h hmem).resolve_right (by simp)),
    fun h hmem ↦ .inl ((hspares.queued h hmem).resolve_right (by simp))⟩

/-- `thread_exit` wakes the threads that wait for it, and so frees none. -/
theorem threadExit_log (hs : Linked s a) (ha : a.Ordered) (hexit : s.threadExit = some t)
    (hlive : t.core.halted = false) : t.log = s.log := by
  obtain ⟨id, hid, hexit⟩ := Option.bind_eq_some_iff.mp hexit
  set f : Core → Core := fun c ↦
    { c with flag := false, threads := Function.update c.threads id none } with hf
  have hs₁ : Linked (s.mapCore f) (a.mapCore f) := hs.mapCore' fun _ hexited ↦ hexited
  have ha₁ : (a.mapCore f).Separate :=
    ha.separate.mapCore' (Nat.le_refl _) (fun _ _ _ ↦ rfl) fun _ hlock ↦ hlock
  obtain ⟨s₂, a₂, hwakeup, hs₂, -, hwaiters, -⟩ := hs₁.threadWakeup_spec ha₁ (.thread id) true
  have hlog₂ : s₂.log = s.log := State.threadWakeup_log (s := s.mapCore f) hwakeup
  simp only [hwakeup, Option.bind_eq_bind, Option.bind_some] at hexit
  obtain ⟨s₃, hdestroy, hexit⟩ := Option.bind_eq_some_iff.mp hexit
  have hnil : a₂.waiters (.thread id) = [] := by
    rw [hwaiters, if_pos rfl, wakeupCount, if_pos rfl, List.drop_length]
  obtain ⟨u, hu, hlog⟩ := State.waitQueueDestroy_spec (hs₂.waits (.thread id)) (by simp [hnil])
  obtain rfl := Option.some.inj (hdestroy.symm.trans hu)
  rw [hnil] at hlog
  obtain ⟨⟨n, s₄⟩, hpop, hexit⟩ := Option.bind_eq_some_iff.mp hexit
  have hlog₄ : s₄.log = s.log := (State.popQueue_log hpop).trans (hlog.trans hlog₂)
  split at hexit
  · obtain ⟨v, -, hexit⟩ := Option.bind_eq_some_iff.mp hexit
    obtain ⟨v', -, hexit⟩ := Option.bind_eq_some_iff.mp hexit
    obtain rfl := Option.some.inj hexit
    exact absurd hlive (by simp [State.mapCore])
  · obtain ⟨s₅, happend, hexit⟩ := Option.bind_eq_some_iff.mp hexit
    obtain ⟨new, -, hexit⟩ := Option.bind_eq_some_iff.mp hexit
    obtain rfl := Option.some.inj hexit
    exact (State.appendNodeToQueue_log happend).trans hlog₄

theorem exit_spares (hs : Linked s a) (ha : a.Ordered) (hexit : s.threadExit = some t)
    (hlive : t.core.halted = false) : s.Spares .exit t := by
  have hlog := hs.threadExit_log ha hexit hlive
  rcases hs.threadExit ha.separate hexit with hend | ⟨b, hexec, ht⟩
  · exact absurd (hend.symm.trans hlive) (by simp)
  cases hexec with
  | @exit old new rest rest' hready hrest =>
    have hcurrent : s.core.current = old := by rw [hs.core, ha.eq_current hready]
    refine ⟨⟨[], hlog, by simp⟩, fun h hmem ↦ ?_, fun h hmem ↦ ?_⟩
    · obtain ⟨tid, htid⟩ := hs.recorded_iff.mp hmem
      by_cases hid : tid = (a.core.tcb old).id
      · obtain rfl := ha.eq_current hready
        rw [hid, ha.threads_current] at htid
        exact .inr ⟨rfl, hcurrent ▸ (Option.some.inj htid).symm⟩
      · refine .inl (ht.recorded_iff.mpr ⟨tid, ?_⟩)
        rw [Ideal.mapCore_core, Core.exitSwitch, Core.wakeAll_eq]
        exact (Function.update_of_ne hid ..).trans htid
    · rcases hs.queued_iff.mp hmem with hmem | ⟨v, hmem⟩
      · rw [hready] at hmem
        rcases List.mem_cons.mp hmem with rfl | hmem
        · exact .inr ⟨rfl, hcurrent.symm⟩
        · refine .inl (ht.queued_iff.mpr (.inl ?_))
          show h ∈ new :: rest'
          rw [← hrest]
          exact List.mem_append_left _ hmem
      · refine .inl (ht.queued_iff.mpr ?_)
        by_cases hv : v = .thread (a.core.tcb old).id
        · left
          show h ∈ new :: rest'
          rw [← hrest, ← hv]
          exact List.mem_append_right _ hmem
        · refine .inr ⟨v, ?_⟩
          rwa [Ideal.waiters_mapCore, Ideal.waiters_dropQueue, if_neg hv]

end Linked

/-! ### Runs in which threads destroy wait queues -/

/-- A move, or a call of `wait_queue_destroy` by the running thread. -/
inductive Action
  | move (m : Move)
  | destroy (u : ℕ)

namespace State

def act (s : State) : Action → Option State
  | .move m => s.step m
  | .destroy u =>
    if s.core.self.todo = [] ∧ ¬s.core.halted then s.waitQueueDestroy (.user u) else none

/-- No thread waits in a queue when it is destroyed. -/
def Proper (s : State) : Action → Prop
  | .move _ => True
  | .destroy u => s.Waits (.user u) []

end State

/-- The locks stay exclusive when a wait queue of a thread is removed. -/
theorem Ideal.Exclusive.dropQueue (hx : a.Exclusive) (u : ℕ) :
    (a.dropQueue (.user u)).Exclusive where
  located := ⟨hx.located.orderly, hx.located.located⟩
  mortal := ⟨hx.mortal.paused, hx.mortal.doomed⟩
  releasing := hx.releasing
  holding := hx.holding
  sleeping := hx.sleeping
  taken := hx.taken
  empty x k hlock hfree := by
    rw [Ideal.waiters_dropQueue, if_neg (by simp)]
    exact hx.empty x k hlock hfree

/-- What holds of the locks in every run holds in these runs too. -/
theorem State.proper_exclusive
    (hrun : Library.Machine.Reaches State.Proper State.act State.init s)
    (hlive : s.core.halted = false) : ∃ a, Linked s a ∧ a.Ordered ∧ a.Exclusive := by
  refine (Library.Machine.Reaches.invariant
    (I := fun s ↦ s.core.halted = true ∨ ∃ a, Linked s a ∧ a.Ordered ∧ a.Exclusive) ?_ hrun
    (.inr ⟨_, init_linked, Ideal.init_ordered, Ideal.init_exclusive⟩)).resolve_left
      (by simp [hlive])
  rintro s (m | u) t hs hproper hact
  · have hlive := State.halted_of_step hact
    obtain ⟨a, hlinked, ha, hx⟩ := hs.resolve_left (by simp [hlive])
    rcases hlinked.step_refines ha.separate (ha.unused _ (Nat.le_refl _)) hact with
      hend | ⟨b, htransition, hb⟩
    · exact .inl hend
    · exact .inr ⟨b, hb, ha.transition htransition, hx.transition ha htransition⟩
  · simp only [State.act] at hact
    split_ifs at hact with hown
    obtain ⟨a, hlinked, ha, hx⟩ := hs.resolve_left hown.2
    have hordered : ((a.dropQueue (.user u)).mapCore id).Ordered :=
      ha.dropQueue (.user u) (Core.Frame.refl _) (fun _ hl ↦ ⟨hl, by simp⟩) rfl rfl
    exact .inr ⟨_, hlinked.waitQueueDestroy hact, hordered, hx.dropQueue u⟩

theorem State.Reachable.proper (hs : s.Reachable) :
    Library.Machine.Reaches State.Proper State.act State.init s := by
  induction hs with
  | refl => exact Relation.ReflTransGen.refl
  | tail _ hmove ih =>
    obtain ⟨m, -, hstep⟩ := hmove
    exact ih.tail ⟨.move m, trivial, hstep⟩

/-- Assumes: a run in which every wait queue a thread has destroyed was empty, and a destruction
that does not abort and does not end the process. It frees no thread that is alive and leaves each
of them where it can be found, but for the thread that exits, if and only if it is not the
destruction of a wait queue in which a thread waits. -/
theorem destruction_spares_iff
    (hrun : Library.Machine.Reaches State.Proper State.act State.init s)
    (hlive : s.core.halted = false) {d : Destruction} (hdestroy : s.destroy d = some t)
    (hend : t.core.halted = false) : s.Spares d t ↔ ∀ w, d = .queue w → s.Waits w [] := by
  obtain ⟨a, hs, ha, hx⟩ := State.proper_exclusive hrun hlive
  cases d with
  | queue w =>
    refine (hs.queue_spares_iff ha hdestroy).trans ⟨?_, fun h ↦ ?_⟩
    · rintro hnil v heq
      obtain rfl := Destruction.queue.inj heq
      exact hnil ▸ hs.waits w
    · exact (hs.waits w).eq (h w rfl)
  | lock x => exact iff_of_true (hs.lock_spares ha hx hdestroy) (by simp)
  | cv c => exact iff_of_true (hs.cv_spares ha hdestroy) (by simp)
  | exit => exact iff_of_true (hs.exit_spares ha hdestroy hend) (by simp)

set_option synthInstance.maxSize 1000 in
/-- The first thread sleeps in a wait queue, and the second one destroys another wait queue. -/
theorem destruction_spares_iff_sleeper : ∃ s t : State,
    Library.Machine.Reaches State.Proper State.act State.init s ∧ s.Waits (.user 1) [0] ∧
      s.destroy (.queue (.user 0)) = some t ∧ s.Spares (.queue (.user 0)) t := by
  have hrun : (Library.Machine.run (fun _ _ ↦ True) State.step State.init
      (State.script [(.waitQueueCreate, 1), (.waitQueueCreate, 1), (.threadCreate, 3),
        (.threadSleep 1, 8)])).map (fun s ↦ (s.core.halted, s.queues (.wait (.user 0)),
          s.queues (.wait (.user 1)), s.next 0,
          (s.waitQueueDestroy (.user 0)).map (·.core.halted))) =
      some (false, some Queue.empty, some ⟨some 0, some 0, 1⟩, none, some false) := by
    decide +kernel
  obtain ⟨s, hs, hshape⟩ := Option.map_eq_some_iff.mp hrun
  simp only [Prod.mk.injEq] at hshape
  obtain ⟨hlive, hempty, hqueue, hnext, hdestroy⟩ := hshape
  obtain ⟨t, ht, hend⟩ := Option.map_eq_some_iff.mp hdestroy
  have hreach := State.Reachable.proper (Library.Machine.Reaches.of_run hs)
  have hsleeper : s.Waits (.user 1) [0] := .inr ⟨_, hqueue, ⟨rfl, hnext⟩,
    fun r g hlist ↦ by simpa using congrArg List.getLast? hlist, rfl⟩
  refine ⟨s, t, hreach, hsleeper, ht,
    (destruction_spares_iff (d := .queue _) hreach hlive ht hend).mpr fun w heq ↦ ?_⟩
  obtain rfl := Destruction.queue.inj heq
  exact .inr ⟨_, hempty, Library.LinkedQueue.IsQueue.empty⟩

set_option synthInstance.maxSize 1000 in
/-- The first thread sleeps on a wait queue, and the second one destroys the queue: the first thread
is freed while it is in the array `threads`. -/
theorem destruction_frees_sleeper : ∃ s t : State, s.Reachable ∧ s.core.self.todo = [] ∧
    s.destroy (.queue (.user 0)) = some t ∧ t.core.halted = false ∧
    ¬s.Spares (.queue (.user 0)) t := by
  have hrun : (Library.Machine.run (fun _ _ ↦ True) State.step State.init
      (State.script [(.waitQueueCreate, 1), (.threadCreate, 3), (.threadSleep 0, 8)])).map (fun s ↦
        (s.core.self.todo, s.core.threads 0, s.log,
          (s.waitQueueDestroy (.user 0)).map fun t ↦ (t.core.halted, t.log))) =
      some ([], some 0, [], some (false, [.free 1 0, .read 0])) := by
    decide +kernel
  obtain ⟨s, hs, hshape⟩ := Option.map_eq_some_iff.mp hrun
  simp only [Prod.mk.injEq] at hshape
  obtain ⟨htodo, hthread, hlog, hdestroy⟩ := hshape
  obtain ⟨t, ht, heq⟩ := Option.map_eq_some_iff.mp hdestroy
  obtain ⟨hend, hnew⟩ := Prod.mk.inj heq
  refine ⟨s, t, Library.Machine.Reaches.of_run hs, htodo, ht, hend, fun hspares ↦ ?_⟩
  obtain ⟨new, hlogs, hfreed⟩ := hspares.freed
  rw [hlog, List.append_nil] at hlogs
  exact (hfreed 1 0 (by rw [← hlogs, hnew]; simp)).1 ⟨0, hthread⟩

end OperatingSystems.Threads
