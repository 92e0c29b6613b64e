import OperatingSystems.Threads.Destruction

/-!
# Threads that have exited

The node of a thread that has exited is in no list of the scheduler, so that no statement but
`thread_exit` and `clear_queue` touches it, the exit queue or the log (`Linked.exec_untouched`).
What `thread_exit` does before it appends the node of its thread to the exit queue leaves these
alone as well (`Linked.threadExit_cases`); the last thread that is ready clears the exit queue and
the wait queues there still are, and ends the process (`Linked.exitProcess_log`).
-/

set_option autoImplicit false
set_option relaxedAutoImplicit false

namespace OperatingSystems.Threads

open State (Move Memory)
open OperatingSystems.Library.LinkedQueue (IsQueue Path Queue)

variable {a b : Ideal} {s t u : State} {g h n : ℕ} {q : QueueId} {w : WaitQueue} {i : Instr}
  {l : List ℕ} {k : Queue ℕ} {kept : Set ℕ} {m : Move} {rest : List Instr} {pc : ClearPc}

/-! ### What is left alone -/

/-- The pointers of a set of nodes, the exit queue and the log are unchanged. -/
structure State.Untouched (kept : Set ℕ) (s t : State) : Prop where
  next : ∀ h ∈ kept, t.next h = s.next h
  exitQueue : t.queues .eq = s.queues .eq
  log : t.log = s.log

namespace State

theorem Untouched.refl (kept : Set ℕ) (s : State) : s.Untouched kept s :=
  ⟨fun _ _ ↦ rfl, rfl, rfl⟩

theorem Untouched.trans (h : s.Untouched kept t) (h' : t.Untouched kept u) : s.Untouched kept u :=
  ⟨fun g hg ↦ (h'.next g hg).trans (h.next g hg), h'.exitQueue.trans h.exitQueue,
    h'.log.trans h.log⟩

theorem untouched_mapCore (kept : Set ℕ) (s : State) (f : Core → Core) :
    s.Untouched kept (s.mapCore f) :=
  ⟨fun _ _ ↦ rfl, rfl, rfl⟩

theorem untouched_waitQueueCreate (kept : Set ℕ) (s : State) (w : WaitQueue) :
    s.Untouched kept (s.waitQueueCreate w) :=
  ⟨fun _ _ ↦ rfl, by simp [waitQueueCreate], rfl⟩

/-- `pop_queue` writes to the node it takes off. -/
theorem untouched_popQueue (hq : q ≠ .eq) (hpop : s.popQueue q = some (n, t)) (hn : n ∉ kept) :
    s.Untouched kept t := by
  obtain ⟨k, -, hpop⟩ := Option.bind_eq_some_iff.mp hpop
  obtain ⟨⟨n', next, k'⟩, hlink, hpop⟩ := Option.bind_eq_some_iff.mp hpop
  obtain ⟨rfl, rfl⟩ := Prod.mk.inj (Option.some.inj hpop)
  obtain ⟨h, -, hlink⟩ := Option.bind_eq_some_iff.mp hlink
  simp only [Option.some.injEq, Prod.mk.injEq] at hlink
  obtain ⟨rfl, rfl, -⟩ := hlink
  exact ⟨fun g hg ↦ Function.update_of_ne (ne_of_mem_of_not_mem hg hn) ..,
    Function.update_of_ne hq.symm .., rfl⟩

/-- `append_node_to_queue` writes to the last node of its queue. -/
theorem untouched_appendNodeToQueue (hq : q ≠ .eq) (hk : s.queues q = some k)
    (hqueue : IsQueue s.next k l) (hl : ∀ g ∈ l, g ∉ kept)
    (happend : s.appendNodeToQueue q n = some t) : s.Untouched kept t := by
  obtain ⟨k', hk', happend⟩ := Option.bind_eq_some_iff.mp happend
  obtain rfl := Option.some.inj (hk.symm.trans hk')
  obtain ⟨⟨next, k'⟩, hlink, happend⟩ := Option.bind_eq_some_iff.mp happend
  obtain rfl := Option.some.inj happend
  refine ⟨fun g hg ↦ ?_, Function.update_of_ne hq.symm .., rfl⟩
  rw [Library.LinkedQueue.append] at hlink
  split at hlink
  · obtain ⟨rfl, -⟩ := Prod.mk.inj (Option.some.inj hlink)
    rfl
  · rename_i head hhead
    obtain ⟨m, hm, hlink⟩ := Option.bind_eq_some_iff.mp hlink
    obtain ⟨rfl, -⟩ := Prod.mk.inj (Option.some.inj hlink)
    have hne : l ≠ [] := fun hnil ↦ by
      rw [hqueue.head_eq, hnil] at hhead
      cases hhead
    obtain ⟨r, last, rfl, hlast⟩ := hqueue.exists_tail hne
    obtain rfl := Option.some.inj (hlast.symm.trans hm)
    exact Function.update_of_ne (ne_of_mem_of_not_mem hg (hl last (by simp))) ..

end State

namespace Linked

/-- What `pop_queue` does to the lists. -/
theorem of_popQueue (hs : Linked s a) (ha : a.Separate) (hq : q ≠ .eq)
    (hpop : s.popQueue q = some (n, t)) :
    ∃ l, a.lists q = n :: l ∧ Linked t (a.setList q l) ∧ (a.setList q l).Separate ∧
      t.next n = none ∧ ∀ q', n ∉ (a.setList q l).lists q' := by
  obtain ⟨k, hk, hrest⟩ := Option.bind_eq_some_iff.mp hpop
  have hqueue := hs.queue q k hq hk
  cases hlist : a.lists q with
  | nil =>
    have hhead : k.head = none := by rw [hqueue.head_eq, hlist, List.head?_nil]
    simp [Library.LinkedQueue.pop, hhead] at hrest
  | cons n' l =>
    obtain ⟨t', hpop', ht, hnull, hsep, hfloat⟩ :=
      hs.popQueue ha hq (fun hnone ↦ by simp [hnone] at hk) hlist
    obtain ⟨rfl, rfl⟩ := Prod.mk.inj (Option.some.inj (hpop'.symm.trans hpop))
    exact ⟨l, rfl, ht, hsep, hnull, hfloat⟩

/-- A thread in a list has not exited. -/
theorem notMem_kept (ha : a.Separate) (hkept : ∀ g ∈ kept, (a.core.tcb g).exited = true)
    (hmem : g ∈ a.lists q) : g ∉ kept := fun hg ↦ by
  simpa [hkept g hg] using (ha.live q g hmem).2

/-- Taking a thread off a list and appending it to another one. -/
theorem move_untouched (hs : Linked s a) (ha : a.Separate)
    (hkept : ∀ g ∈ kept, (a.core.tcb g).exited = true) {q' : QueueId} (hq : q ≠ .eq)
    (hq' : q' ≠ .eq) (hpop : s.popQueue q = some (n, t)) {f : Core → Core}
    (hf : a.core.Frame (f a.core)) (happend : (t.mapCore f).appendNodeToQueue q' n = some u) :
    s.Untouched kept u ∧ ∃ b, Linked u b ∧ b.Separate ∧ b.core = f a.core := by
  obtain ⟨l, hlist, ht, hsep, hnull, hfloat⟩ := hs.of_popQueue ha hq hpop
  have hmem : n ∈ a.lists q := by
    rw [hlist]
    exact List.mem_cons_self
  have hframe : (a.setList q l).core.Frame (f (a.setList q l).core) := by
    rwa [Ideal.setList_core]
  have ht' := ht.mapCore hframe
  have hsep' := hsep.mapCore hframe
  have hfloat' : ∀ p, n ∉ ((a.setList q l).mapCore f).lists p := fun p ↦ by
    rw [Ideal.mapCore_lists]
    exact hfloat p
  obtain ⟨k, hk, -⟩ := Option.bind_eq_some_iff.mp happend
  have hqueue := ht'.queue q' k hq' hk
  obtain ⟨u', happend', hu, -⟩ := ht'.appendNodeToQueue hsep' hq'
    (fun hnone ↦ by simp [hnone] at hk) (hfloat' q') hnull
  obtain rfl := Option.some.inj (happend'.symm.trans happend)
  have hkept' : ∀ g ∈ kept, (((a.setList q l).mapCore f).core.tcb g).exited = true := fun g hg ↦ by
    rw [Ideal.mapCore_core, hframe.exited, Ideal.setList_core]
    exact hkept g hg
  refine ⟨?_, _, hu, hsep'.add hq' hfloat' ?_, by simp⟩
  · refine (State.untouched_popQueue hq hpop (notMem_kept ha hkept hmem)).trans
      ((State.untouched_mapCore kept t f).trans ?_)
    exact State.untouched_appendNodeToQueue hq' hk hqueue
      (fun g hg ↦ notMem_kept hsep' hkept' hg) happend
  · rw [Ideal.mapCore_core, hframe.allocated, hframe.exited, Ideal.setList_core]
    exact ha.live q n hmem

/-! ### The statements -/

theorem wakeupLoop_untouched (hs : Linked s a) (ha : a.Separate)
    (hkept : ∀ g ∈ kept, (a.core.tcb g).exited = true) {all : Bool} {fuel count : ℕ}
    (hloop : State.wakeupLoop w all fuel s = some (t, count)) : s.Untouched kept t := by
  induction fuel generalizing s a count with
  | zero => cases hloop
  | succ fuel ih =>
    obtain ⟨⟨n, u⟩, hpop, hloop⟩ := Option.bind_eq_some_iff.mp hloop
    obtain ⟨v, happend, hloop⟩ := Option.bind_eq_some_iff.mp hloop
    obtain ⟨k, -, hloop⟩ := Option.bind_eq_some_iff.mp hloop
    obtain ⟨hfirst, b, hv, hb, hcore⟩ := hs.move_untouched ha hkept (by simp) (by simp) hpop
      (a.core.frame_wake w n) happend
    split_ifs at hloop
    · obtain ⟨⟨x, count'⟩, hrest, hloop⟩ := Option.bind_eq_some_iff.mp hloop
      obtain ⟨rfl, -⟩ := Prod.mk.inj (Option.some.inj hloop)
      refine hfirst.trans (ih hv hb (fun g hg ↦ ?_) hrest)
      rw [hcore, (a.core.frame_wake w n).exited]
      exact hkept g hg
    · obtain ⟨rfl, -⟩ := Prod.mk.inj (Option.some.inj hloop)
      exact hfirst

theorem threadWakeup_untouched (hs : Linked s a) (ha : a.Separate)
    (hkept : ∀ g ∈ kept, (a.core.tcb g).exited = true) {all : Bool} {count : ℕ}
    (hwakeup : s.threadWakeup w all = some (t, count)) : s.Untouched kept t := by
  rw [State.threadWakeup] at hwakeup
  split at hwakeup
  · obtain ⟨rfl, -⟩ := Prod.mk.inj (Option.some.inj hwakeup)
    exact .refl kept s
  · split_ifs at hwakeup
    · obtain ⟨rfl, -⟩ := Prod.mk.inj (Option.some.inj hwakeup)
      exact .refl kept s
    · exact hs.wakeupLoop_untouched ha hkept hwakeup

/-- A queue in which no thread waits is destroyed. -/
theorem waitQueueDestroy_untouched (hs : Linked s a) (hnil : a.waiters w = [])
    (hdestroy : s.waitQueueDestroy w = some t) : s.Untouched kept t := by
  obtain ⟨t', hdestroy', hlog⟩ := State.waitQueueDestroy_spec (hs.waits w) (by simp [hnil])
  obtain rfl := Option.some.inj (hdestroy'.symm.trans hdestroy)
  rw [hnil] at hlog
  rw [State.waitQueueDestroy] at hdestroy
  split at hdestroy
  · obtain rfl := Option.some.inj hdestroy
    exact .refl kept s
  · obtain ⟨u, hclear, heq⟩ := Option.bind_eq_some_iff.mp hdestroy
    obtain ⟨-, hnext, hqueues⟩ := State.clearQueue_frame hclear
    obtain rfl := Option.some.inj heq
    refine ⟨fun g _ ↦ congrFun hnext g, ?_, hlog⟩
    change Function.update u.queues (.wait w) none .eq = _
    rw [Function.update_of_ne (by simp), hqueues .eq (by simp)]

theorem threadYield_untouched (hs : Linked s a) (ha : a.Separate)
    (hkept : ∀ g ∈ kept, (a.core.tcb g).exited = true) {want : ℤ}
    (hexec : s.threadYield want = some t) : s.Untouched kept t := by
  obtain ⟨k, hk, hqueue⟩ := hs.exists_ready
  cases hready : a.ready with
  | nil =>
    have hhead : k.head = none := by rw [hqueue.head_eq, hready, List.head?_nil]
    simp [State.threadYield, hk, hhead] at hexec
  | cons old rest =>
    have hlength := hs.length_le ha (q := .rq) (by simp) hs.ready
    rw [Ideal.lists, hready, List.length_cons, ← hs.core] at hlength
    have hlist := hs.ready_list
    rw [hready] at hlist
    obtain ⟨t', hexec', hyields⟩ := State.threadYield_spec hlist (Nat.le_of_succ_le hlength) want
    obtain rfl := Option.some.inj (hexec'.symm.trans hexec)
    cases hyields with
    | alone | self | invalid => exact State.untouched_mapCore kept s _
    | switch _ _ hreorders =>
      obtain ⟨next, k', rfl, -, hframe⟩ := hreorders
      refine ⟨fun g hg ↦ hframe g fun hmem ↦ ?_, by simp [State.yieldSwitch, State.mapCore], rfl⟩
      exact notMem_kept (q := .rq) ha hkept (by rwa [Ideal.lists, hready]) hg

theorem threadSleep_untouched (hs : Linked s a) (ha : a.Separate)
    (hkept : ∀ g ∈ kept, (a.core.tcb g).exited = true) (hexec : s.threadSleep w = some t) :
    s.Untouched kept t := by
  rw [State.threadSleep] at hexec
  split at hexec
  · obtain rfl := Option.some.inj hexec
    exact State.untouched_mapCore kept s _
  · obtain ⟨k, -, hexec⟩ := Option.bind_eq_some_iff.mp hexec
    split_ifs at hexec
    · obtain rfl := Option.some.inj hexec
      exact State.untouched_mapCore kept s _
    · obtain ⟨⟨n, u⟩, hpop, hexec⟩ := Option.bind_eq_some_iff.mp hexec
      obtain ⟨v, happend, hexec⟩ := Option.bind_eq_some_iff.mp hexec
      obtain ⟨new, -, hexec⟩ := Option.bind_eq_some_iff.mp hexec
      obtain rfl := Option.some.inj hexec
      have hmove := hs.move_untouched ha hkept (by simp) (by simp) hpop (f := id)
        (Core.Frame.refl _) happend
      exact hmove.1.trans (State.untouched_mapCore kept v _)

theorem threadCreate_untouched (hs : Linked s a) (ha : a.Separate)
    (hkept : ∀ g ∈ kept, (a.core.tcb g).exited = true)
    (hnew : (a.core.tcb a.core.allocated).exited = false) {memory : ℕ}
    (hexec : s.threadCreate memory = some t) : s.Untouched kept t := by
  rw [State.threadCreate] at hexec
  split at hexec
  · obtain rfl := Option.some.inj hexec
    exact State.untouched_mapCore kept s _
  · split_ifs at hexec
    · obtain rfl := Option.some.inj hexec
      exact State.untouched_mapCore kept s _
    · obtain ⟨v, happend, hexec⟩ := Option.bind_eq_some_iff.mp hexec
      obtain rfl := Option.some.inj hexec
      obtain ⟨k, hk, hqueue⟩ := hs.exists_ready
      -- The node of the new thread is in no queue yet, and no thread of its handle has exited.
      have hfresh : s.Untouched kept
          { s with next := Function.update s.next s.core.allocated none } := by
        refine ⟨fun g hg ↦ Function.update_of_ne (fun heq ↦ ?_) .., rfl, rfl⟩
        simpa [heq, hs.core, hnew] using hkept g hg
      refine (hfresh.trans ?_).trans (State.untouched_mapCore kept v _)
      refine State.untouched_appendNodeToQueue (l := a.ready) (by simp) hk ?_
        (fun g hg ↦ notMem_kept (q := .rq) ha hkept hg) happend
      refine hqueue.congr fun g hg ↦ Function.update_of_ne (fun heq ↦ ?_) ..
      rw [heq, hs.core] at hg
      exact absurd (ha.live .rq _ hg).1 (Nat.lt_irrefl _)

theorem threadKill_untouched {tid : ℤ} (hexec : s.threadKill tid = some t) :
    s.Untouched kept t := by
  obtain ⟨id, -, hexec⟩ := Option.bind_eq_some_iff.mp hexec
  split_ifs at hexec
  · obtain rfl := Option.some.inj hexec
    exact State.untouched_mapCore kept s _
  · obtain rfl := Option.some.inj hexec
    exact State.untouched_mapCore kept s _
  · obtain ⟨found, -, hexec⟩ := Option.bind_eq_some_iff.mp hexec
    split at hexec <;> obtain rfl := Option.some.inj hexec <;>
      exact State.untouched_mapCore kept s _

theorem threadWait_untouched {tid : ℤ} {memory : ℕ} (hexec : s.threadWait tid memory = some t) :
    s.Untouched kept t := by
  rw [State.threadWait, Option.bind_eq_bind, Option.bind_eq_some_iff] at hexec
  obtain ⟨id, -, hexec⟩ := hexec
  by_cases hself : tid < 0 ∨ tid = id
  · rw [if_pos hself] at hexec
    obtain rfl := Option.some.inj hexec
    exact State.untouched_mapCore kept s _
  · rw [if_neg hself, Option.bind_eq_bind, Option.bind_eq_some_iff] at hexec
    obtain ⟨found, -, hexec⟩ := hexec
    split at hexec
    · obtain rfl := Option.some.inj hexec
      exact State.untouched_mapCore kept s _
    · split at hexec
      · obtain rfl := Option.some.inj hexec
        exact State.untouched_mapCore kept s _
      · split_ifs at hexec
        obtain rfl := Option.some.inj hexec
        exact (State.untouched_waitQueueCreate kept s _).trans (State.untouched_mapCore kept _ _)

theorem lockDestroy_untouched (hs : Linked s a)
    (hempty : ∀ x k, a.core.locks x = some k → k.locked = false → a.waiters (.lock x) = [])
    {x : ℕ} (hexec : s.lockDestroy x = some t) : s.Untouched kept t := by
  obtain ⟨k, hk, hexec⟩ := Option.bind_eq_some_iff.mp hexec
  split_ifs at hexec with hlocked
  obtain ⟨u, hdestroy, hexec⟩ := Option.bind_eq_some_iff.mp hexec
  obtain rfl := Option.some.inj hexec
  rw [hs.core] at hk
  exact (hs.waitQueueDestroy_untouched (hempty x k hk (by simpa using hlocked)) hdestroy).trans
    (State.untouched_mapCore kept u _)

theorem cvDestroy_untouched (hs : Linked s a) {c : ℕ} (hexec : s.cvDestroy c = some t) :
    s.Untouched kept t := by
  obtain ⟨k, hk, hexec⟩ := Option.bind_eq_some_iff.mp hexec
  split_ifs at hexec with hsize
  refine hs.waitQueueDestroy_untouched (List.length_eq_zero_iff.mp ?_) hexec
  have hlength := (hs.queue (.wait (.cv c)) k (by simp) hk).size
  rw [hsize] at hlength
  exact Int.ofNat_inj.mp hlength.symm

theorem lockRelease_untouched (hs : Linked s a) (ha : a.Separate)
    (hkept : ∀ g ∈ kept, (a.core.tcb g).exited = true) {x : ℕ}
    (hexec : s.lockRelease x = some t) : s.Untouched kept t := by
  obtain ⟨k, hk, hexec⟩ := Option.bind_eq_some_iff.mp hexec
  obtain ⟨held, -, hexec⟩ := Option.bind_eq_some_iff.mp hexec
  split_ifs at hexec
  obtain ⟨⟨u, count⟩, hwakeup, hexec⟩ := Option.bind_eq_some_iff.mp hexec
  obtain rfl := Option.some.inj hexec
  rw [hs.core] at hk
  set f : Core → Core := fun c ↦ (c.setLock x (some { k with locked := false })).interruptsOff
  have hframe : a.core.Frame (f a.core) :=
    (Core.frame_setLock a.core x hk).trans (Core.frame_interruptsOff _)
  refine (State.untouched_mapCore kept s f).trans
    ((hs.mapCore hframe).threadWakeup_untouched (ha.mapCore hframe) (fun g hg ↦ ?_) hwakeup)
  rw [Ideal.mapCore_core, hframe.exited]
  exact hkept g hg

/-- Assumes: no thread waits for a free lock. A statement other than `thread_exit` and the steps of
`clear_queue` touches no node of a thread that has exited, nor the exit queue, nor the log. -/
theorem exec_untouched (hs : Linked s a) (ha : a.Ordered)
    (hempty : ∀ x k, a.core.locks x = some k → k.locked = false → a.waiters (.lock x) = [])
    {m : Memory} (hclear : ∀ pc, i ≠ .clear pc) (hexit : i ≠ .exit)
    (hexec : s.exec m i = some t) :
    s.Untouched {g | (a.core.tcb g).exited = true} t := by
  have hsep := ha.separate
  have hkept : ∀ g ∈ {g | (a.core.tcb g).exited = true}, (a.core.tcb g).exited = true :=
    fun _ hg ↦ hg
  cases i with
  | clear pc => exact absurd rfl (hclear pc)
  | exit => exact absurd rfl hexit
  | off | on | sigreturn | waitReturn =>
    obtain rfl := Option.some.inj hexec
    exact State.untouched_mapCore _ s _
  | set =>
    obtain ⟨c, -, rfl⟩ := Option.map_eq_some_iff.mp hexec
    exact State.untouched_mapCore _ s fun _ ↦ c
  | create => exact hs.threadCreate_untouched hsep hkept (ha.unused _ (Nat.le_refl _)) hexec
  | yieldTo want => exact hs.threadYield_untouched hsep hkept hexec
  | sleepOn w => exact hs.threadSleep_untouched hsep hkept hexec
  | wakeup w all =>
    obtain ⟨⟨u, count⟩, hwakeup, heq⟩ := Option.bind_eq_some_iff.mp hexec
    obtain rfl := Option.some.inj heq
    exact (hs.threadWakeup_untouched hsep hkept hwakeup).trans (State.untouched_mapCore _ u _)
  | kill tid => exact threadKill_untouched hexec
  | waitCheck tid => exact threadWait_untouched hexec
  | checkExited =>
    obtain ⟨old, -, hexec⟩ := Option.bind_eq_some_iff.mp hexec
    split_ifs at hexec <;> obtain rfl := Option.some.inj hexec
    · exact State.untouched_mapCore _ s _
    · exact .refl _ s
  | setRunning =>
    obtain ⟨old, -, hexec⟩ := Option.bind_eq_some_iff.mp hexec
    obtain rfl := Option.some.inj hexec
    exact State.untouched_mapCore _ s _
  | lockCreate =>
    rw [State.exec, State.lockCreate] at hexec
    split_ifs at hexec
    obtain rfl := Option.some.inj hexec
    exact (State.untouched_waitQueueCreate _ s _).trans (State.untouched_mapCore _ _ _)
  | lockDestroy x => exact hs.lockDestroy_untouched hempty hexec
  | acquire x =>
    obtain ⟨k, -, hexec⟩ := Option.bind_eq_some_iff.mp hexec
    split_ifs at hexec
    · obtain rfl := Option.some.inj hexec
      exact State.untouched_mapCore _ s _
    · obtain ⟨id, -, hexec⟩ := Option.bind_eq_some_iff.mp hexec
      obtain rfl := Option.some.inj hexec
      exact State.untouched_mapCore _ s _
  | release x => exact hs.lockRelease_untouched hsep hkept hexec
  | cvCreate =>
    rw [State.exec, State.cvCreate] at hexec
    split_ifs at hexec
    obtain rfl := Option.some.inj hexec
    exact (State.untouched_waitQueueCreate _ s _).trans (State.untouched_mapCore _ _ _)
  | cvDestroy c => exact hs.cvDestroy_untouched hexec
  | assertHeld c x =>
    obtain ⟨k, -, hexec⟩ := Option.bind_eq_some_iff.mp hexec
    obtain ⟨held, -, hexec⟩ := Option.bind_eq_some_iff.mp hexec
    split_ifs at hexec
    obtain rfl := Option.some.inj hexec
    exact .refl _ s
  | queueCreate =>
    rw [State.exec, State.queueCreate] at hexec
    split_ifs at hexec
    obtain rfl := Option.some.inj hexec
    exact (State.untouched_waitQueueCreate _ s _).trans (State.untouched_mapCore _ _ _)

/-- `thread_exit` takes its thread off the ready queue. If that was the last thread, the process
ends; otherwise the node is appended to the exit queue and the next thread runs. -/
theorem threadExit_cases (hs : Linked s a) (ha : a.Ordered) (hexit : s.threadExit = some t) :
    ∃ u b, s.Untouched {g | (a.core.tcb g).exited = true} u ∧ Linked u b ∧ b.Separate ∧
      u.core.current = s.core.current ∧ u.core.allocated = s.core.allocated ∧
      (∀ g, (u.core.tcb g).exited = if g = s.core.current then true else (s.core.tcb g).exited) ∧
      u.next s.core.current = none ∧
      (u.exitProcess = some t ∨ ∃ v new, u.appendNodeToQueue .eq s.core.current = some v ∧
        t = v.mapCore (·.setcontext new)) := by
  obtain ⟨id, hid, hexit⟩ := Option.bind_eq_some_iff.mp hexit
  set f : Core → Core := fun c ↦
    { c with flag := false, threads := Function.update c.threads id none } with hf
  have hs₁ : Linked (s.mapCore f) (a.mapCore f) := hs.mapCore' fun _ hexited ↦ hexited
  have ha₁ : (a.mapCore f).Separate :=
    ha.separate.mapCore' (Nat.le_refl _) (fun _ _ _ ↦ rfl) fun _ hlock ↦ hlock
  obtain ⟨s₂, count, a₂, hwakeup, hs₂, ha₂, hcore₂, hready₂, -⟩ :=
    hs₁.threadWakeup_waiters ha₁ (.thread id)
  obtain ⟨s₂', a₂', hwakeup', hs₂', -, hwaiters, -⟩ := hs₁.threadWakeup_spec ha₁ (.thread id) true
  obtain ⟨rfl, -⟩ := Prod.mk.inj (Option.some.inj (hwakeup'.symm.trans hwakeup))
  have hnil : a₂.waiters (.thread id) = [] := by
    rw [(hs₂.waits _).eq (hs₂'.waits _), hwaiters, if_pos rfl, wakeupCount, if_pos rfl,
      List.drop_length]
  have hfirst : s.Untouched {g | (a.core.tcb g).exited = true} s₂' :=
    (State.untouched_mapCore _ s f).trans
      (hs₁.threadWakeup_untouched ha₁ (fun _ hg ↦ hg) hwakeup)
  have hframe₂ := (f a.core).frame_wakeAll (.thread id) ((a.mapCore f).waiters (.thread id))
  have hsame₂ : ∀ g, (a₂.core.tcb g).exited = (a.core.tcb g).exited := fun g ↦ by
    rw [hcore₂]
    exact hframe₂.exited g
  have hcurrent₂ : a₂.core.current = a.core.current ∧ a₂.core.allocated = a.core.allocated := by
    rw [hcore₂, Core.wakeAll_eq]
    exact ⟨rfl, rfl⟩
  simp only [hwakeup, Option.bind_eq_bind, Option.bind_some] at hexit
  obtain ⟨s₃, hdestroy, hexit⟩ := Option.bind_eq_some_iff.mp hexit
  have hs₃ := hs₂.waitQueueDestroy hdestroy
  have ha₃ := ha₂.dropQueue (w := .thread id) (by simp)
  obtain ⟨⟨n, s₄⟩, hpop, hexit⟩ := Option.bind_eq_some_iff.mp hexit
  obtain ⟨l, hlist, hs₄, ha₄, hnull, hfloat⟩ := hs₃.of_popQueue ha₃ (by simp) hpop
  have hn : n = a.core.current := by
    obtain ⟨rest, hready⟩ := ha.running
    have hcons : a₂.ready = n :: l := hlist
    rw [hready₂, Ideal.mapCore_ready, hready] at hcons
    exact (List.cons.inj hcons).1.symm
  have hlive : n ∉ {g | (a.core.tcb g).exited = true} := by
    rw [hn]
    simp [ha.current_live.2]
  have hthird := (hfirst.trans (hs₂.waitQueueDestroy_untouched hnil hdestroy)).trans
    (State.untouched_popQueue (by simp) hpop hlive)
  set e : Core → Core := (·.modify n fun t ↦ { t with exited := true }) with he
  have hexited : ∀ c : Core, ∀ g, ((e c).tcb g).exited =
      if g = n then true else (c.tcb g).exited := fun c g ↦ by
    simp only [he, Core.modify, Function.update_apply]
    split_ifs <;> rfl
  have hs₅ : Linked (s₄.mapCore e) (((a₂.dropQueue (.thread id)).setList .rq l).mapCore e) :=
    hs₄.mapCore' fun g hg ↦ by
      rw [hexited, hg, ite_self]
  have ha₅ : (((a₂.dropQueue (.thread id)).setList .rq l).mapCore e).Separate := by
    refine ha₄.mapCore' (Nat.le_refl _) (fun q g hg ↦ ?_) fun _ hlock ↦ hlock
    have hne : g ≠ n := fun heq ↦ hfloat q (heq ▸ hg)
    rw [hexited, if_neg hne]
  have hcurrent : s.core.current = n := by rw [hs.core, hn]
  have hcore : (s₄.mapCore e).core = e a₂.core := by
    rw [hs₅.core]
    rfl
  rw [hcurrent]
  refine ⟨s₄.mapCore e, _, hthird.trans (State.untouched_mapCore _ s₄ e), hs₅, ha₅, ?_, ?_,
    fun g ↦ ?_, hnull, ?_⟩
  · rw [hcore, ← hcurrent, hs.core]
    exact hcurrent₂.1
  · rw [hcore, hs.core]
    exact hcurrent₂.2
  · rw [hcore, hexited, hsame₂, hs.core]
  · split at hexit
    · exact .inl hexit
    · obtain ⟨v, happend, hexit⟩ := Option.bind_eq_some_iff.mp hexit
      obtain ⟨new, -, hexit⟩ := Option.bind_eq_some_iff.mp hexit
      exact .inr ⟨v, new, happend, (Option.some.inj hexit).symm⟩

/-! ### The end of the process -/

/-- The threads that have exited are among those that have been allocated. -/
theorem length_of_exited (ha : a.Ordered) (hnodup : l.Nodup)
    (hl : ∀ g ∈ l, (a.core.tcb g).exited = true) : l.length ≤ a.core.allocated := by
  have hsub : l ⊆ List.range a.core.allocated := fun g hg ↦ by
    rw [List.mem_range]
    by_contra hge
    simpa [hl g hg] using ha.unused g (Nat.le_of_not_lt hge)
  simpa using (List.subperm_of_subset hnodup hsub).length_le

theorem clearQueue (hs : Linked s a) {fuel : ℕ} {pc : ClearPc}
    (hclear : State.clearQueue .eq fuel pc s = some t) : Linked t a := by
  induction fuel generalizing s pc with
  | zero => cases hclear
  | succ fuel ih =>
    rw [State.clearQueue, Option.bind_eq_bind, Option.bind_eq_some_iff] at hclear
    obtain ⟨⟨u, pc'⟩, hstep, hrest⟩ := hclear
    cases pc' with
    | none =>
      obtain rfl := Option.some.inj hrest
      exact hs.clear hstep
    | some pc' => exact ih (hs.clear hstep) hrest

end Linked

/-- The node an event is about. -/
def Event.node : Event → ℕ
  | .read h => h
  | .free _ h => h

theorem node_of_mem_cleared {by_ : ℕ} {e : Event} (he : e ∈ cleared by_ l) : e.node ∈ l := by
  induction l with
  | nil => cases he
  | cons g l ih =>
    rw [cleared, List.mem_append] at he
    rcases he with he | he
    · exact List.mem_cons_of_mem _ (ih he)
    · simp only [List.mem_cons, List.not_mem_nil, or_false] at he
      rcases he with rfl | rfl <;> exact List.mem_cons_self

namespace Linked

/-- The last thread destroys the wait queues of threads: no thread in one of them has exited. -/
theorem destroyAll_log (hs : Linked s a) (ha : a.Separate) {tids : List ℕ}
    (hdestroy : tids.foldlM (fun s i ↦ s.waitQueueDestroy (.thread i)) s = some t) :
    ∃ more, t.log = more ++ s.log ∧ (∀ e ∈ more, (a.core.tcb e.node).exited = false) ∧
      t.core = s.core := by
  induction tids generalizing s a with
  | nil =>
    obtain rfl := Option.some.inj hdestroy
    exact ⟨[], rfl, by simp, rfl⟩
  | cons tid tids ih =>
    rw [List.foldlM_cons, Option.bind_eq_bind, Option.bind_eq_some_iff] at hdestroy
    obtain ⟨u, hfirst, hrest⟩ := hdestroy
    have hlength : (a.waiters (.thread tid)).length ≤ s.core.allocated := by
      cases hw : a.waiting (.thread tid) with
      | none => simp [Ideal.waiters, hw]
      | some l =>
        rw [hs.core]
        exact hs.length_le ha (q := .wait (.thread tid)) (by simp) fun hnone ↦ by
          simp [(hs.waiting _).mp hnone] at hw
    obtain ⟨u', hfirst', hlog⟩ := State.waitQueueDestroy_spec (hs.waits (.thread tid)) hlength
    obtain rfl := Option.some.inj (hfirst'.symm.trans hfirst)
    have hu := hs.waitQueueDestroy hfirst
    obtain ⟨more, hmore, hlive, hcore⟩ :=
      ih hu (ha.dropQueue (w := .thread tid) (by simp)) hrest
    refine ⟨more ++ cleared s.core.current (a.waiters (.thread tid)), ?_, fun e he ↦ ?_, ?_⟩
    · rw [hmore, hlog, List.append_assoc]
    · rcases List.mem_append.mp he with he | he
      · exact hlive e he
      · exact (ha.live (.wait (.thread tid)) _ (node_of_mem_cleared he)).2
    · rw [hcore, hu.core, hs.core, Ideal.dropQueue_core]

/-- The last thread frees the threads of the exit queue, in order, and threads that have not
exited. -/
theorem exitProcess_log (hs : Linked s a) (ha : a.Separate) (hk : s.queues .eq = some k)
    (hpath : Path s.next k.head l none) (hlength : l.length ≤ s.core.allocated)
    (hexit : s.exitProcess = some t) :
    ∃ more, t.log = more ++ cleared s.core.current l ++ s.log ∧
      (∀ e ∈ more, (s.core.tcb e.node).exited = false) ∧ t.core.tcb = s.core.tcb ∧
      t.core.halted = true := by
  obtain ⟨u, hclear, hexit⟩ := Option.bind_eq_some_iff.mp hexit
  obtain ⟨v, hdestroy, hexit⟩ := Option.bind_eq_some_iff.mp hexit
  obtain rfl := Option.some.inj hexit
  have hfuel : 4 * l.length + 3 ≤ s.clearFuel := by
    rw [State.clearFuel]
    omega
  obtain ⟨u', hclear', hlog⟩ := State.clearQueue_spec hk hpath hfuel
  obtain rfl := Option.some.inj (hclear'.symm.trans hclear)
  obtain ⟨more, hmore, hlive, hcore⟩ := (hs.clearQueue hclear).destroyAll_log ha hdestroy
  refine ⟨more, ?_, fun e he ↦ ?_, ?_, rfl⟩
  · rw [List.append_assoc, ← hlog]
    exact hmore
  · rw [hs.core]
    exact hlive e he
  · change v.core.tcb = s.core.tcb
    rw [hcore, (State.clearQueue_frame hclear).1]

end Linked

/-! ### Steps of the running thread -/

/-- The threads that have exited. -/
def Core.exitedThreads (c : Core) : Set ℕ := {g | (c.tcb g).exited = true}

/-- A thread that has exited stays so. -/
theorem Ideal.Transition.exitedThreads (ha : a.Ordered) (htransition : a.Transition m b) :
    a.core.exitedThreads ⊆ b.core.exitedThreads := by
  intro g hg
  refine ((htransition.threads ha).2.1 g ?_).2 hg
  by_contra hge
  exact absurd (hg.symm.trans (ha.unused g (Nat.le_of_not_lt hge))) (by simp)

/-- The running thread executes a step of `clear_queue`. -/
theorem State.step_clear (hlive : s.core.halted = false)
    (htodo : s.core.self.todo = .clear pc :: rest) {memory : Memory}
    (hstep : s.step (.instr memory) = some t) :
    ∃ u pc', (s.pop rest).clearStep .eq pc = some (u, pc') ∧ t.next = u.next ∧
      t.queues = u.queues ∧ t.log = u.log ∧ t.core.halted = false ∧
      t.core.current = s.core.current ∧ t.core.self.todo = pc'.toList.map .clear ++ rest := by
  rw [State.step_instr hlive htodo] at hstep
  obtain ⟨v, hexec, rfl⟩ := Option.map_eq_some_iff.mp hstep
  obtain ⟨⟨u, pc'⟩, hclear, hexec⟩ := Option.bind_eq_some_iff.mp hexec
  obtain rfl := Option.some.inj hexec
  have hcore := (State.clearStep_frame hclear).1
  have hcurrent : u.core.current = s.core.current := by
    rw [hcore]
    rfl
  have hhalted : u.core.halted = false := by
    rw [hcore]
    exact hlive
  refine ⟨u, pc', hclear, rfl, rfl, rfl, hhalted, hcurrent, ?_⟩
  have hself : u.core.self.todo = rest := by
    rw [hcore, State.pop_self]
  change (((u.core.push (pc'.toList.map .clear)).finish s.core.current).tcb u.core.current).todo = _
  rw [← hcurrent, Core.todo_finish]
  simpa [Core.push, Core.modify, Core.self] using hself

/-- A move other than `thread_exit` and a step of `clear_queue` touches no node of a thread that has
exited, nor the exit queue, nor the log. -/
theorem Linked.step_untouched (hs : Linked s a) (ha : a.Ordered) (hx : a.Exclusive)
    (hstep : s.step m = some t)
    (hclear : ∀ memory pc rest, m = .instr memory → a.core.self.todo ≠ .clear pc :: rest)
    (hexit : ∀ memory rest, m = .instr memory → a.core.self.todo ≠ .exit :: rest) :
    s.Untouched a.core.exitedThreads t := by
  rcases m with _ | c | enabled | memory
  case instr =>
    have hlive := State.halted_of_step hstep
    rcases htodo : a.core.self.todo with _ | ⟨i, rest⟩
    · simp [State.step, hs.core, htodo] at hstep
    rw [State.step_instr hlive (by rw [hs.core, htodo])] at hstep
    obtain ⟨v, hexec, rfl⟩ := Option.map_eq_some_iff.mp hstep
    have hpopped : {g | ((a.popped rest).core.tcb g).exited = true} = a.core.exitedThreads := by
      ext g
      simp only [Core.exitedThreads, Set.mem_ofPred_eq, (a.popped_frame rest).exited g]
    have huntouched := (State.linked_pop hs rest).exec_untouched (ha.popped rest)
      (fun x k hk hfree ↦ hx.empty x k hk hfree) (fun pc heq ↦ hclear memory pc rest rfl
        (heq ▸ htodo))
      (fun heq ↦ hexit memory rest rfl (heq ▸ htodo)) hexec
    rw [hpopped] at huntouched
    exact ((State.untouched_mapCore _ s _).trans huntouched).trans (State.untouched_mapCore _ v _)
  all_goals
    rw [State.step] at hstep
    split_ifs at hstep
    obtain rfl := Option.some.inj hstep
    exact State.untouched_mapCore _ s _

/-! ### Places inside of `clear_queue` -/

/-- The statement is a step of `clear_queue` at one of the places. -/
def Instr.at (places : ClearPc → Bool) : Instr → Bool
  | .clear pc => places pc
  | _ => false

/-- None of the statements is at one of the places. -/
def Avoids (places : ClearPc → Bool) (todo : List Instr) : Prop := ∀ i ∈ todo, i.at places = false

instance (places : ClearPc → Bool) (todo : List Instr) : Decidable (Avoids places todo) :=
  inferInstanceAs (Decidable (∀ i ∈ todo, i.at places = false))

section Avoids

variable {places : ClearPc → Bool} {todo todo' : List Instr}

theorem avoids_iff_all : Avoids places todo ↔ todo.all (fun i ↦ !i.at places) = true := by
  simp [Avoids]

theorem Avoids.append (h : Avoids places todo) (h' : Avoids places todo') :
    Avoids places (todo ++ todo') := fun i hi ↦
  (List.mem_append.mp hi).elim (h i) (h' i)

theorem Avoids.tail (h : Avoids places (i :: rest)) : Avoids places rest := fun j hj ↦
  h j (List.mem_cons_of_mem i hj)

theorem avoids_code (places : ClearPc → Bool) (k : Call) : Avoids places (code k) :=
  avoids_iff_all.mpr (by cases k <;> rfl)

theorem avoids_handlerCode (places : ClearPc → Bool) : Avoids places handlerCode :=
  avoids_iff_all.mpr rfl

/-- Only `clear_queue` itself leads to a place after its first test. -/
theorem avoids_of_expands (htest : places .test = false) {extra : List Instr}
    (hextra : Control.Expands i extra) (hclear : ∀ pc, i ≠ .clear pc) : Avoids places extra := by
  cases hextra with
  | straight | waits | blocks => exact avoids_iff_all.mpr rfl
  | yields | sleeps => exact avoids_iff_all.mpr (by simp [resumeCode, Instr.at, htest])
  | clears pc => exact absurd rfl (hclear pc)

/-- Assumes: the next statement of the thread is none of `clear_queue`. It does not get to a place
after the first test. -/
theorem Control.Step.avoids {x y : Control} (hstep : x.Step y) (htest : places .test = false)
    (havoids : Avoids places x.todo) (hclear : ∀ pc rest, x.todo ≠ .clear pc :: rest) :
    Avoids places y.todo := by
  cases hstep with
  | timer => exact (avoids_handlerCode places).append havoids
  | call => exact avoids_code places _
  | interrupts => exact havoids
  | @instr i rest extra f saved htodo _ hextra =>
    have hfinish : ∀ z : Control, z.finish.todo = z.todo := fun z ↦ by
      rw [Control.finish]
      split_ifs <;> rfl
    rw [hfinish]
    rw [htodo] at havoids
    exact (avoids_of_expands htest hextra fun pc heq ↦ hclear pc rest (heq ▸ htodo)).append
      havoids.tail
  | abandon => exact avoids_iff_all.mpr rfl

namespace Ideal

/-- The threads that do not run are not at one of the places. -/
def OthersAvoid (a : Ideal) (places : ClearPc → Bool) : Prop :=
  ∀ g < a.core.allocated, (a.core.tcb g).exited = false → g ≠ a.core.current →
    Avoids places (a.core.tcb g).todo

/-- A move leaves the threads that do not run, and a new thread, where they are. -/
theorem OthersAvoid.other (hothers : a.OthersAvoid places) (htest : places .test = false)
    (ha : a.Ordered) (htransition : a.Transition m b) (hg : g < b.core.allocated)
    (hlive : (b.core.tcb g).exited = false) (hne : g ≠ a.core.current) :
    Avoids places (b.core.tcb g).todo := by
  obtain ⟨-, hold, hcases⟩ := htransition.threads ha
  rcases hcases g hg with hlt | ⟨-, f, hcontrol⟩
  · have hlive' : (a.core.tcb g).exited = false := by
      rw [← Bool.not_eq_true]
      exact fun hx ↦ absurd (((hold g hlt).2 hx).symm.trans hlive) (by simp)
    have hsame : (b.core.tcb g).todo = (a.core.tcb g).todo :=
      congrArg Control.todo (htransition.control_other ha hne hlt)
    rw [hsame]
    exact hothers g hlt hlive' hne
  · have hstub : (b.core.tcb g).todo = stubCode := congrArg Control.todo hcontrol
    rw [hstub]
    exact avoids_iff_all.mpr (by simp [stubCode, Instr.at, htest])

/-- Assumes: the next statement of the running thread is none of `clear_queue`. No thread gets to
one of the places. -/
theorem OthersAvoid.all (hothers : a.OthersAvoid places) (htest : places .test = false)
    (ha : a.Ordered) (htransition : a.Transition m b) (havoids : Avoids places a.core.self.todo)
    (hclear : ∀ pc rest, a.core.self.todo ≠ .clear pc :: rest) (hg : g < b.core.allocated)
    (hlive : (b.core.tcb g).exited = false) : Avoids places (b.core.tcb g).todo := by
  by_cases hcurrent : g = a.core.current
  · subst hcurrent
    exact (htransition.control_self ha hlive).avoids htest havoids hclear
  · exact hothers.other htest ha htransition hg hlive hcurrent

end Ideal

end Avoids

end OperatingSystems.Threads
