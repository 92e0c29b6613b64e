import OperatingSystems.Threads.Exited

/-!
# Where the threads are

Every thread that has not exited is in one queue, once, and the array `threads` lists these threads
by their ids. That no thread is in two queues, and that `threads` is right, is `Ideal.Ordered`; here
it is shown that no thread is lost (`Ideal.Present`), and that the exit queue is in order whenever
the running thread is not inside of `clear_queue` (`Settled`), in the runs in which the timer
interrupts a thread only between two calls. `scheduler_accounted` puts these together and derives
what `thread_create` returns.
-/

set_option autoImplicit false
set_option relaxedAutoImplicit false

namespace OperatingSystems.Threads

open State (Move Memory)
open OperatingSystems.Library.LinkedQueue (IsQueue Path Queue)

variable {a b : Ideal} {s t u : State} {g h n : ℕ} {i : Instr} {m : Move} {l : List ℕ}
  {k : Queue ℕ} {q : QueueId} {w : WaitQueue} {rest : List Instr} {pc : ClearPc}

/-! ### No thread is lost -/

namespace Ideal

/-- Every thread that has not exited is in a list. -/
def Present (a : Ideal) : Prop :=
  ∀ g < a.core.allocated, (a.core.tcb g).exited = false → ∃ q, g ∈ a.lists q

/-- Threads are moved between the ready queue and a wait queue. -/
theorem exists_lists_move (ready waiting : List ℕ)
    (hmove : ∀ g, g ∈ a.ready ∨ g ∈ a.waiters w → g ∈ ready ∨ g ∈ waiting) (hg : g ∈ a.lists q) :
    ∃ q', g ∈ ((a.setList (.wait w) waiting).setList .rq ready).lists q' := by
  have hboth : ∀ g, g ∈ ready ∨ g ∈ waiting →
      ∃ q', g ∈ ((a.setList (.wait w) waiting).setList .rq ready).lists q' := by
    rintro g (hg | hg)
    · exact ⟨.rq, hg⟩
    · refine ⟨.wait w, ?_⟩
      rwa [setList_lists_of_ne _ (by simp), setList_lists_self _ (by simp)]
  cases q with
  | rq => exact hboth g (hmove g (.inl hg))
  | eq => cases hg
  | wait v =>
    by_cases hv : v = w
    · subst hv
      exact hboth g (hmove g (.inr hg))
    · refine ⟨.wait v, ?_⟩
      rwa [setList_lists_of_ne _ (by simp), setList_lists_of_ne _ (by simpa using hv)]

/-- A queue without threads is removed. -/
theorem exists_lists_dropQueue (hnil : a.waiters w = []) (hg : g ∈ a.lists q) :
    g ∈ (a.dropQueue w).lists q := by
  have hne : q ≠ .wait w := by
    rintro rfl
    rw [lists, hnil] at hg
    cases hg
  rwa [dropQueue_lists_of_ne _ hne]

/-- A queue is added. -/
theorem exists_lists_addQueue (hnone : a.waiting w = none) (hg : g ∈ a.lists q) :
    g ∈ (a.setList (.wait w) []).lists q := by
  have hne : q ≠ .wait w := by
    rintro rfl
    simp [lists, waiters, hnone] at hg
  rwa [setList_lists_of_ne _ hne]

/-- Assumes: no thread waits for a free lock. A thread that is in a list still is in one after a
statement, unless it has executed `thread_exit`. -/
theorem Executes.exists_lists (ha : a.Ordered)
    (hempty : ∀ x k, a.core.locks x = some k → k.locked = false → a.waiters (.lock x) = [])
    (hexec : a.Executes i b) (hg : g ∈ a.lists q) :
    i = .exit ∧ g = a.core.current ∨ ∃ q', g ∈ b.lists q' := by
  have hfresh : ∀ w, w.object = some a.core.objects → a.waiting w = none := fun w hw ↦ by
    by_contra hne
    exact Nat.lt_irrefl _ (ha.waiting_object w _ hw hne)
  cases hexec with
  | set | checkPasses | assertHeld => exact .inr ⟨q, hg⟩
  | off | on | sigreturn | createNomore | createNomemory | yieldNone | yieldInvalid | yieldSelf
  | sleepInvalid | sleepNone | wakeupNone | killFails | kill | waitFails | waitReturn | checkExits
  | setRunning | clear | acquireBlocked | acquire =>
    refine .inr ⟨q, ?_⟩
    rwa [mapCore_lists]
  | create =>
    refine .inr ?_
    by_cases hq : q = .rq
    · subst hq
      refine ⟨.rq, ?_⟩
      rw [mapCore_lists, setList_lists_self _ (by simp)]
      exact List.mem_append_left _ hg
    · refine ⟨q, ?_⟩
      rwa [mapCore_lists, setList_lists_of_ne _ hq]
  | @yieldSwitch want old target before after hready =>
    refine .inr ?_
    by_cases hq : q = .rq
    · subst hq
      refine ⟨.rq, ?_⟩
      rw [mapCore_lists, setList_lists_self _ (by simp)]
      rw [lists, hready] at hg
      simp only [List.mem_cons, List.mem_append, List.not_mem_nil, or_false] at hg ⊢
      tauto
    · refine ⟨q, ?_⟩
      rwa [mapCore_lists, setList_lists_of_ne _ hq]
  | @sleep w old new rest l hready hw =>
    obtain ⟨q', hq'⟩ := exists_lists_move (w := w) (new :: rest) (l ++ [old])
      (fun g hg ↦ by
        rw [hready, Ideal.waiters, hw, Option.getD_some] at hg
        simp only [List.mem_cons, List.mem_append, List.not_mem_nil, or_false] at hg ⊢
        tauto) hg
    refine .inr ⟨q', ?_⟩
    rwa [mapCore_lists]
  | @wakeup w all h more kept hw =>
    obtain ⟨q', hq'⟩ := exists_lists_move (w := w) (a.ready ++ h :: more) kept
      (fun g hg ↦ by
        rw [Ideal.waiters, hw, Option.getD_some] at hg
        simp only [List.mem_cons, List.mem_append] at hg ⊢
        tauto) hg
    refine .inr ⟨q', ?_⟩
    rwa [mapCore_lists]
  | @wait tid =>
    refine .inr ⟨q, ?_⟩
    rw [mapCore_lists]
    by_cases hq : q = .wait (.thread tid.toNat)
    · subst hq
      rwa [setList_lists_self _ (by simp)]
    · rwa [setList_lists_of_ne _ hq]
  | @exit old new rest rest' hready hrest =>
    by_cases hold : g = old
    · exact .inl ⟨rfl, hold.trans (ha.eq_current hready)⟩
    · refine .inr ?_
      rw [← hrest]
      by_cases hq : q = .wait (.thread (a.core.tcb old).id)
      · subst hq
        refine ⟨.rq, ?_⟩
        rw [mapCore_lists, dropQueue_lists_of_ne _ (by simp), setList_lists_self _ (by simp)]
        exact List.mem_append_right _ hg
      · by_cases hq' : q = .rq
        · subst hq'
          refine ⟨.rq, ?_⟩
          rw [mapCore_lists, dropQueue_lists_of_ne _ (by simp), setList_lists_self _ (by simp)]
          rw [lists, hready] at hg
          exact List.mem_append_left _ ((List.mem_cons.mp hg).resolve_left hold)
        · refine ⟨q, ?_⟩
          rwa [mapCore_lists, dropQueue_lists_of_ne _ hq, setList_lists_of_ne _ hq']
  | lockCreate | cvCreate | queueCreate =>
    refine .inr ⟨q, ?_⟩
    rw [mapCore_lists]
    exact exists_lists_addQueue (hfresh _ rfl) hg
  | lockDestroy hlock hfree =>
    refine .inr ⟨q, ?_⟩
    rw [mapCore_lists]
    exact exists_lists_dropQueue (hempty _ _ hlock hfree) hg
  | cvDestroy hwaiting =>
    exact .inr ⟨q, exists_lists_dropQueue (by simp [Ideal.waiters, hwaiting]) hg⟩
  | @release x old rest k =>
    obtain ⟨q', hq'⟩ := exists_lists_move (w := .lock x)
      (a.ready ++ a.waiters (.lock x)) [] (fun g hg ↦ by
        simp only [List.mem_append, List.not_mem_nil, or_false]
        exact hg) hg
    refine .inr ⟨q', ?_⟩
    rwa [mapCore_lists]

/-- A new thread is ready. -/
theorem Executes.ready_of_new (hexec : a.Executes i b) (hg : g < b.core.allocated)
    (hnew : ¬g < a.core.allocated) : g ∈ b.ready := by
  rcases hexec.frame with hf | ⟨id, rfl, hb⟩ | ⟨old, new, rest, moved, -, -, hb⟩
  · exact absurd (hf.allocated ▸ hg) hnew
  · have hallocated : b.core.allocated = a.core.allocated + 1 := by rw [hb]; rfl
    obtain rfl : g = a.core.allocated := by omega
    cases hexec with
    | createNomore | createNomemory => exact absurd hg (Nat.lt_irrefl _)
    | create => exact List.mem_append_right _ (List.mem_singleton_self _)
  · rw [hb, Core.exitSwitch, Core.wakeAll_eq] at hg
    exact absurd hg hnew

/-- A move loses no thread. -/
theorem Present.transition (hp : a.Present) (ha : a.Ordered) (hx : a.Exclusive)
    (htransition : a.Transition m b) : b.Present := by
  intro g hg hlive
  have hthreads := htransition.threads ha
  have hold : g < a.core.allocated → ∃ q, g ∈ a.lists q := fun hlt ↦ by
    refine hp g hlt ?_
    rw [← Bool.not_eq_true]
    exact fun hexited ↦ absurd (((hthreads.2.1 g hlt).2 hexited).symm.trans hlive) (by simp)
  have hsame : ∀ {f : Core → Core}, g < a.core.allocated → ∃ q, g ∈ (a.mapCore f).lists q :=
    fun hlt ↦ (hold hlt).imp fun q hq ↦ by rwa [mapCore_lists]
  cases htransition with
  | timer => exact hsame ((Core.frame_interrupt _).allocated ▸ hg)
  | call => exact hsame ((Core.frame_begin _ _).allocated ▸ hg)
  | interrupts => exact hsame hg
  | @instr _ i rest b htodo hexec =>
    rw [mapCore_core, (Core.frame_finish _ _).allocated] at hg
    rw [mapCore_core, (Core.frame_finish _ _).exited] at hlive
    by_cases hlt : g < a.core.allocated
    · obtain ⟨q, hq⟩ := hsame (f := (·.modify a.core.current fun t ↦ { t with todo := rest })) hlt
      rcases hexec.exists_lists (ha.popped rest) (fun x k hk hfree ↦ hx.empty x k hk hfree) hq with
        ⟨rfl, rfl⟩ | ⟨q', hq'⟩
      · have hexited := (hexec.threads (ha.popped rest)).2.2.2 rfl
        exact absurd (hexited.symm.trans hlive) (by simp)
      · refine ⟨q', ?_⟩
        rwa [mapCore_lists]
    · refine ⟨.rq, hexec.ready_of_new hg ?_⟩
      rwa [(a.popped_frame rest).allocated]

end Ideal

/-! ### The exit queue -/

/-- The step of `clear_queue` comes after the first test of its loop. -/
def ClearPc.started : ClearPc → Bool
  | .test => false
  | _ => true

/-- What is known of the exit queue at the steps of `clear_queue`: the local variable `next` is the
pointer of the head, and the last two assignments find no node. -/
inductive Clearing (next : ℕ → Option ℕ) (k : Queue ℕ) (l : List ℕ) : ClearPc → Prop
  | test : Clearing next k l .test
  | next : Clearing next k l .next
  | free {h : ℕ} (hhead : k.head = some h) : Clearing next k l (.free (next h))
  | advance {h : ℕ} (hhead : k.head = some h) : Clearing next k l (.advance (next h))
  | tail (hl : l = []) : Clearing next k l .tail
  | size (hl : l = []) : Clearing next k l .size

/-- The nodes from the head of the exit queue on are those of threads that have exited. Its record
is right, or the running thread is inside of `clear_queue`. No other thread is. -/
structure Settled (s : State) (a : Ideal) : Prop where
  queue : ∃ k l, s.queues .eq = some k ∧ Path s.next k.head l none ∧
    (∀ h ∈ l, (a.core.tcb h).exited = true) ∧
    (Avoids ClearPc.started a.core.self.todo ∧ IsQueue s.next k l ∨
      ∃ pc rest, a.core.self.todo = .clear pc :: rest ∧ Avoids ClearPc.started rest ∧
        Clearing s.next k l pc)
  others : a.OthersAvoid ClearPc.started

/-- The exit queue is a queue of threads that have exited. -/
def State.ExitsQueued (s : State) : Prop :=
  ∃ k l, s.queues .eq = some k ∧ IsQueue s.next k l ∧ ∀ h ∈ l, (s.core.tcb h).exited = true

theorem State.ExitsQueued.of_untouched (hqueue : s.ExitsQueued)
    (huntouched : s.Untouched s.core.exitedThreads t)
    (hsub : s.core.exitedThreads ⊆ t.core.exitedThreads) : t.ExitsQueued := by
  obtain ⟨k, l, hk, hqueue, hexited⟩ := hqueue
  exact ⟨k, l, huntouched.exitQueue.trans hk,
    hqueue.congr fun g hg ↦ huntouched.next g (hexited g hg), fun h hh ↦ hsub (hexited h hh)⟩

namespace Settled

/-- Outside of `clear_queue` the exit queue is in order. -/
theorem outside (hset : Settled s a) (hs : Linked s a)
    (hclear : ∀ pc rest, a.core.self.todo ≠ .clear pc :: rest) :
    Avoids ClearPc.started a.core.self.todo ∧ s.ExitsQueued := by
  obtain ⟨k, l, hk, -, hexited, ⟨havoids, hqueue⟩ | ⟨pc, rest, htodo, -⟩⟩ := hset.queue
  · exact ⟨havoids, k, l, hk, hqueue, hs.core ▸ hexited⟩
  · exact absurd htodo (hclear pc rest)

/-- A move outside of `clear_queue` that leaves the exit queue in order. -/
theorem of_exitsQueued (hset : Settled s a) (hs : Linked s a) (ha : a.Ordered)
    (hclear : ∀ pc rest, a.core.self.todo ≠ .clear pc :: rest) (htransition : a.Transition m b)
    (hb : Linked t b) (hqueue : t.ExitsQueued) : Settled t b := by
  have havoids := (hset.outside hs hclear).1
  have hall : ∀ g < b.core.allocated, (b.core.tcb g).exited = false →
      Avoids ClearPc.started (b.core.tcb g).todo := fun g hg hlive ↦
    hset.others.all rfl ha htransition havoids hclear hg hlive
  obtain ⟨k, l, hk, hqueue, hexited⟩ := hqueue
  obtain ⟨hlt, hlive⟩ := (ha.transition htransition).current_live
  exact ⟨⟨k, l, hk, hqueue.path, hb.core ▸ hexited, .inl ⟨hall _ hlt hlive, hqueue⟩⟩,
    fun g hg hlive _ ↦ hall g hg hlive⟩

/-- The running thread executes a step of `clear_queue`. -/
theorem clear (hset : Settled s a) (hs : Linked s a) (ha : a.Ordered)
    (hlive : s.core.halted = false) (htodo : a.core.self.todo = .clear pc :: rest)
    {memory : Memory} (hstep : s.step (.instr memory) = some t) (hb : Linked t b)
    (htransition : a.Transition (.instr memory) b) : Settled t b := by
  obtain ⟨u, pc', hclear, hnext, hqueues, -, -, hcurrent, htodo'⟩ :=
    State.step_clear hlive (by rwa [hs.core]) hstep
  rw [hb.core, hs.core] at hcurrent
  rw [hb.core] at htodo'
  refine ⟨?_, fun g hg hlive hne ↦ hset.others.other rfl ha htransition hg hlive fun heq ↦
    hne (heq.trans hcurrent.symm)⟩
  obtain ⟨k, l, hk, hpath, hexited, hcases⟩ := hset.queue
  obtain ⟨hrest, hplace⟩ : Avoids ClearPc.started rest ∧ Clearing s.next k l pc := by
    rcases hcases with ⟨havoids, -⟩ | ⟨pc', rest', htodo', hrest, hplace⟩
    · rw [htodo] at havoids
      refine ⟨havoids.tail, ?_⟩
      have hpc : pc.started = false := havoids _ List.mem_cons_self
      cases pc with
      | test => exact .test
      | _ => cases hpc
    · obtain ⟨heq, rfl⟩ := List.cons.inj (htodo.symm.trans htodo')
      exact ⟨hrest, Instr.clear.inj heq ▸ hplace⟩
  have hk' : (s.pop rest).queues .eq = some k := hk
  have hexited' : ∀ h ∈ l, (b.core.tcb h).exited = true := fun h hh ↦
    htransition.exitedThreads ha (hexited h hh)
  have hagain : ∀ {r : Queue ℕ} {l' : List ℕ} {pc₁ : ClearPc}, pc' = some pc₁ →
      u.queues .eq = some r → u.next = s.next → Path s.next r.head l' none →
      (∀ h ∈ l', h ∈ l) → Clearing s.next r l' pc₁ →
      ∃ k l, t.queues .eq = some k ∧ Path t.next k.head l none ∧
        (∀ h ∈ l, (b.core.tcb h).exited = true) ∧
        (Avoids ClearPc.started b.core.self.todo ∧ IsQueue t.next k l ∨
          ∃ pc rest, b.core.self.todo = .clear pc :: rest ∧ Avoids ClearPc.started rest ∧
            Clearing t.next k l pc) := by
    rintro r l' pc₁ rfl hk' hsame hpath' hsub hplace'
    rw [hnext, hqueues, hsame]
    exact ⟨r, l', hk', hpath', fun h hh ↦ hexited' h (hsub h hh), .inr ⟨_, rest, htodo', hrest,
      hplace'⟩⟩
  cases hplace with
  | test =>
    simp only [State.clearStep, hk', Option.bind_eq_bind, Option.bind_some] at hclear
    obtain ⟨rfl, rfl⟩ := Prod.mk.inj (Option.some.inj hclear)
    refine hagain rfl hk' rfl hpath (fun _ hh ↦ hh) ?_
    split_ifs with hhead
    · exact .tail ((hhead ▸ hpath).eq rfl)
    · exact .next
  | next =>
    simp only [State.clearStep, hk', Option.bind_eq_bind, Option.bind_some,
      Option.bind_eq_some_iff] at hclear
    obtain ⟨h, hhead, hclear⟩ := hclear
    obtain ⟨rfl, rfl⟩ := Prod.mk.inj (Option.some.inj hclear)
    exact hagain rfl hk' rfl hpath (fun _ hh ↦ hh) (.free hhead)
  | @free h hhead =>
    simp only [State.clearStep, hk', hhead, Option.bind_eq_bind, Option.bind_some] at hclear
    obtain ⟨rfl, rfl⟩ := Prod.mk.inj (Option.some.inj hclear)
    exact hagain rfl hk' rfl hpath (fun _ hh ↦ hh) (.advance hhead)
  | @advance h hhead =>
    simp only [State.clearStep, hk', Option.bind_eq_bind, Option.bind_some] at hclear
    obtain ⟨rfl, rfl⟩ := Prod.mk.inj (Option.some.inj hclear)
    cases l with
    | nil => exact absurd (hpath.symm.trans hhead) (by simp)
    | cons g l =>
      obtain rfl := Option.some.inj (hpath.1.symm.trans hhead)
      exact hagain rfl (r := { k with head := s.next g }) (by simp) rfl hpath.2
        (fun _ hh ↦ List.mem_cons_of_mem _ hh) .test
  | tail hl =>
    simp only [State.clearStep, hk', Option.bind_eq_bind, Option.bind_some] at hclear
    obtain ⟨rfl, rfl⟩ := Prod.mk.inj (Option.some.inj hclear)
    exact hagain rfl (r := { k with tail := none }) (by simp) rfl hpath (fun _ hh ↦ hh) (.size hl)
  | size hl =>
    simp only [State.clearStep, hk', Option.bind_eq_bind, Option.bind_some] at hclear
    obtain ⟨rfl, rfl⟩ := Prod.mk.inj (Option.some.inj hclear)
    subst hl
    have hqueue : IsQueue t.next { k with size := 0 } [] :=
      ⟨hpath, fun r x heq ↦ absurd heq.symm (by simp), rfl⟩
    exact ⟨{ k with size := 0 }, [], by simp [hqueues], hqueue.path, by simp,
      .inl ⟨htodo' ▸ hrest, hqueue⟩⟩

/-- The running thread executes `thread_exit`, and the process goes on. -/
theorem exit (hset : Settled s a) (hs : Linked s a) (ha : a.Ordered)
    (hlive : s.core.halted = false) (htodo : a.core.self.todo = .exit :: rest)
    {memory : Memory} (hstep : s.step (.instr memory) = some t) (hend : t.core.halted = false) :
    t.ExitsQueued := by
  obtain ⟨-, k, l, hk, hqueue, hexited⟩ := hset.outside hs (by simp [htodo])
  rw [State.step_instr hlive (by rwa [hs.core])] at hstep
  obtain ⟨v, hexit, rfl⟩ := Option.map_eq_some_iff.mp hstep
  obtain ⟨u, b, huntouched, hu, -, -, -, hsame, hnull, hcases⟩ :=
    (State.linked_pop hs rest).threadExit_cases (ha.popped rest) hexit
  have hself : (s.pop rest).core.current = a.core.current := by
    rw [← hs.core]
    rfl
  have hold : ∀ g, ((s.pop rest).core.tcb g).exited = (a.core.tcb g).exited := fun g ↦ by
    rw [(State.linked_pop hs rest).core]
    exact (a.popped_frame rest).exited g
  rw [hself] at hnull hcases
  rw [hs.core] at hexited
  rcases hcases with hhalt | ⟨w, new, happend, rfl⟩
  · obtain ⟨x, -, hhalt⟩ := Option.bind_eq_some_iff.mp hhalt
    obtain ⟨y, -, hhalt⟩ := Option.bind_eq_some_iff.mp hhalt
    obtain rfl := Option.some.inj hhalt
    cases hend
  · have hqueue' : IsQueue u.next k l := hqueue.congr fun g hg ↦
      huntouched.next g (((a.popped_frame rest).exited g).trans (hexited g hg))
    have hn : a.core.current ∉ l := fun hmem ↦ by
      simpa [ha.current_live.2] using hexited _ hmem
    obtain ⟨next', k', hlink, hqueue'', -⟩ := hqueue'.append hn hnull
    have hku : u.queues .eq = some k := huntouched.exitQueue.trans hk
    simp only [State.appendNodeToQueue, hku, hlink, Option.bind_eq_bind, Option.bind_some,
      Option.some.injEq] at happend
    subst happend
    refine ⟨k', l ++ [a.core.current], by simp [State.mapCore], hqueue'', fun g hg ↦ ?_⟩
    change (((u.core.setcontext new).finish s.core.current).tcb g).exited = true
    rw [(Core.frame_finish _ _).exited, (Core.frame_setcontext _ _).exited, hsame, hself, hold]
    split_ifs with hcurrent
    · rfl
    · rcases List.mem_append.mp hg with hg | hg
      · exact hexited g hg
      · exact absurd (List.mem_singleton.mp hg) hcurrent

/-- Assumes: a move that is no interrupt, or one outside of the library. -/
theorem step (hset : Settled s a) (hs : Linked s a) (ha : a.Ordered) (hx : a.Exclusive)
    (hpermitted : m = .timer → a.core.self.todo = []) (hstep : s.step m = some t)
    (htransition : a.Transition m b) (hb : Linked t b) (hend : t.core.halted = false) :
    Settled t b := by
  have hlive := State.halted_of_step hstep
  by_cases hclear : ∃ memory pc rest, m = .instr memory ∧ a.core.self.todo = .clear pc :: rest
  · obtain ⟨memory, pc, rest, rfl, htodo⟩ := hclear
    exact hset.clear hs ha hlive htodo hstep hb htransition
  have hnot : ∀ pc rest, a.core.self.todo ≠ .clear pc :: rest := by
    intro pc rest htodo
    cases htransition with
    | timer => simp [hpermitted rfl] at htodo
    | call hnil => simp [hnil] at htodo
    | interrupts hnil => simp [hnil] at htodo
    | instr => exact hclear ⟨_, pc, rest, rfl, htodo⟩
  refine hset.of_exitsQueued hs ha hnot htransition hb ?_
  by_cases hexit : ∃ memory rest, m = .instr memory ∧ a.core.self.todo = .exit :: rest
  · obtain ⟨memory, rest, rfl, htodo⟩ := hexit
    exact hset.exit hs ha hlive htodo hstep hend
  · refine (hset.outside hs hnot).2.of_untouched ?_ ?_
    · rw [hs.core]
      exact hs.step_untouched ha hx hstep (fun _ pc rest _ ↦ hnot pc rest)
        fun memory rest hm htodo ↦ hexit ⟨memory, rest, hm, htodo⟩
    · rw [hs.core, hb.core]
      exact htransition.exitedThreads ha

end Settled

/-! ### `thread_create` -/

namespace Core

/-- The threads that have been created and have not exited. -/
def liveThreads (c : Core) : Finset ℕ :=
  (Finset.range c.allocated).filter fun h ↦ (c.tcb h).exited = false

theorem mem_liveThreads (c : Core) :
    h ∈ c.liveThreads ↔ h < c.allocated ∧ (c.tcb h).exited = false := by
  simp [liveThreads]

end Core

/-- No id is free exactly if there are as many live threads as ids. -/
theorem Ideal.Ordered.card_liveThreads_iff (ha : a.Ordered) :
    a.core.liveThreads.card = threadMaxThreads ↔
      ∀ tid < threadMaxThreads, a.core.threads tid ≠ none := by
  have hinj : Set.InjOn (fun h ↦ (a.core.tcb h).id) a.core.liveThreads := by
    intro g hg h hh heq
    rw [Finset.mem_coe, Core.mem_liveThreads] at hg hh
    exact ha.eq_of_id_eq hg.1 hg.2 hh.1 hh.2 heq
  have hcard := Finset.card_image_of_injOn hinj
  have hsub : a.core.liveThreads.image (fun h ↦ (a.core.tcb h).id) ⊆
      Finset.range threadMaxThreads := by
    intro tid htid
    obtain ⟨h, hh, rfl⟩ := Finset.mem_image.mp htid
    exact Finset.mem_range.mpr (ha.id_lt h (a.core.mem_liveThreads.mp hh).1)
  have hmem : ∀ tid, tid ∈ a.core.liveThreads.image (fun h ↦ (a.core.tcb h).id) ↔
      a.core.threads tid ≠ none := by
    intro tid
    rw [Finset.mem_image, Option.ne_none_iff_exists']
    refine exists_congr fun h ↦ ?_
    rw [Core.mem_liveThreads, ha.threads, and_assoc]
  rw [← hcard]
  constructor
  · intro hfull tid htid
    have hall := Finset.eq_of_subset_of_card_le hsub (by simp [hfull])
    rw [← hmem, hall]
    exact Finset.mem_range.mpr htid
  · intro hfull
    have hall : a.core.liveThreads.image (fun h ↦ (a.core.tcb h).id) =
        Finset.range threadMaxThreads :=
      hsub.antisymm fun tid htid ↦ (hmem tid).mpr (hfull tid (Finset.mem_range.mp htid))
    rw [hall, Finset.card_range]

/-- What `thread_create` may return: the least id that is free, if there is one and memory for the
new thread. -/
inductive Creates (threads : ℕ → Option ℕ) (memory : ℕ) : ℤ → Prop
  | nomore (hfull : ∀ tid < threadMaxThreads, threads tid ≠ none) :
    Creates threads memory threadNomore
  | nomemory {id : ℕ} (hid : id < threadMaxThreads) (hfree : threads id = none)
      (hmemory : memory < 3) : Creates threads memory threadNomemory
  | thread {id : ℕ} (hid : id < threadMaxThreads) (hfree : threads id = none)
      (hleast : ∀ tid < id, threads tid ≠ none) (hmemory : 3 ≤ memory) :
    Creates threads memory id

/-- The statement of `thread_create` does not abort, and of the running thread it changes the result
only. -/
theorem Linked.threadCreate_returns (hs : Linked s a) (ha : a.Ordered) (memory : ℕ) :
    ∃ t r, s.threadCreate memory = some t ∧ Creates s.core.threads memory r ∧
      t.core.current = s.core.current ∧ t.core.halted = s.core.halted ∧
      t.core.tcb s.core.current = { s.core.self with ret := r } := by
  have hkept : ∀ r, (s.core.setRet r).tcb s.core.current = { s.core.self with ret := r } :=
    fun r ↦ s.core.setRet_self r
  rcases Linked.findFree_spec s.core 0 threadMaxThreads with
    ⟨hnone, hfull⟩ | ⟨id, hsome, -, hlt, hfree, hleast⟩
  · exact ⟨s.mapCore (·.setRet threadNomore), _, by simp only [State.threadCreate, hnone],
      .nomore fun tid htid ↦ hfull tid (Nat.zero_le tid) (by omega), rfl, rfl, hkept _⟩
  by_cases hmemory : memory < 3
  · exact ⟨s.mapCore (·.setRet threadNomemory), _, by simp only [State.threadCreate, hsome, hmemory,
      if_true], .nomemory (by omega) hfree hmemory, rfl, rfl, hkept _⟩
  obtain ⟨k, hk, hqueue⟩ := hs.exists_ready
  have hfresh : s.core.allocated ∉ a.ready := fun hmem ↦ by
    have hlt := (ha.separate.live .rq _ hmem).1
    rw [hs.core] at hlt
    exact Nat.lt_irrefl _ hlt
  have hqueue' : IsQueue (Function.update s.next s.core.allocated none) k a.ready :=
    hqueue.congr fun g hg ↦ Function.update_of_ne (ne_of_mem_of_not_mem hg hfresh) ..
  obtain ⟨next', k', hlink, -, -⟩ := hqueue'.append hfresh (Function.update_self ..)
  have hne : s.core.current ≠ s.core.allocated := by
    rw [hs.core]
    exact Nat.ne_of_lt ha.current_live.1
  refine ⟨({ s with next := next', queues := Function.update s.queues .rq (some k') }).mapCore
    fun c ↦ (c.addThread id).setRet id, id, ?_, .thread (by omega) hfree
      (fun tid htid ↦ hleast tid (Nat.zero_le tid) htid) (Nat.le_of_not_lt hmemory), rfl, rfl, ?_⟩
  · simp only [State.threadCreate, hsome, hmemory, if_false, State.appendNodeToQueue, hk, hlink,
      Option.bind_eq_bind, Option.bind_some]
  · simp [State.mapCore, Core.setRet, Core.modify, Core.addThread, Core.self, hne]

/-- The running thread makes a call that disables interrupts first. -/
theorem State.step_begin_off (hlive : s.core.halted = false) (htodo : s.core.self.todo = [])
    {c : Call} (hcode : code c = .off :: rest) (hrest : rest ≠ []) (memory : Memory) :
    ∃ t u, s.step (.call c) = some t ∧ t.step (.instr memory) = some u ∧
      t.core.halted = false ∧ u.core.halted = false ∧ u.core.current = s.core.current ∧
      u.core.threads = s.core.threads ∧ u.core.self.todo = rest ∧ u.core.self.saved ≠ [] := by
  have hcall : s.step (.call c) = some (s.mapCore (·.begin c)) := by
    simp [State.step, htodo, hlive]
  have htodo' : (s.mapCore (·.begin c)).core.self.todo = .off :: rest := by
    simp [State.mapCore, Core.begin, Core.self, Core.modify, hcode]
  have hoff := State.step_instr (s := s.mapCore (·.begin c)) hlive htodo' memory
  refine ⟨_, _, hcall, hoff, hlive, hlive, rfl, rfl, ?_, ?_⟩ <;>
    simp [State.mapCore, State.pop, Core.begin, Core.self, Core.modify, Core.interruptsOff,
      Core.finish, hrest]

/-- A call of `thread_create` comes back when no timer interrupts it. -/
theorem Linked.create_call (hs : Linked s a) (ha : a.Ordered) (hlive : s.core.halted = false)
    (htodo : s.core.self.todo = []) (memory : Memory) :
    ∃ t, Library.Machine.run (fun _ _ ↦ True) State.step s
      [.call .threadCreate, .instr memory, .instr memory, .instr memory] = some t ∧
      t.core.current = s.core.current ∧ t.core.self.todo = [] ∧
      Creates s.core.threads memory.mallocs t.core.self.ret := by
  obtain ⟨s₁, s₂, hcall, hoff, hlive₁, hlive₂, hcurrent₂, hthreads, htodo₂, hsaved⟩ :=
    State.step_begin_off hlive htodo (c := .threadCreate) rfl (by simp) memory
  obtain ⟨b, hb, hordered⟩ : ∃ b, Linked s₂ b ∧ b.Ordered := by
    rcases hs.step_refines ha.separate (ha.unused _ (Nat.le_refl _)) hcall with
      hend | ⟨c, htransition, hc⟩
    · exact absurd (hend.symm.trans hlive₁) (by simp)
    have hc' := ha.transition htransition
    rcases hc.step_refines hc'.separate (hc'.unused _ (Nat.le_refl _)) hoff with
      hend | ⟨b, htransition, hb⟩
    · exact absurd (hend.symm.trans hlive₂) (by simp)
    · exact ⟨b, hb, hc'.transition htransition⟩
  obtain ⟨s₃, r, hcreate, hcreates, hcurrent₃, hhalted₃, hself₃⟩ :=
    (State.linked_pop hb [.set]).threadCreate_returns (hordered.popped [.set]) memory.mallocs
  rw [State.pop_self] at hself₃
  replace hcurrent₃ : s₃.core.current = s₂.core.current := hcurrent₃
  replace hself₃ : s₃.core.self = { s₂.core.self with todo := [.set], ret := r } := by
    rw [Core.self, hcurrent₃]
    exact hself₃
  have hfinish : s₃.mapCore (·.finish s₂.core.current) = s₃ := by
    have htodo₃ : (s₃.core.tcb s₃.core.current).todo = [.set] := congrArg Thread.todo hself₃
    rw [hcurrent₃] at htodo₃
    rw [State.mapCore, Core.finish_of_ne _ (by simp [htodo₃])]
  have hstep₃ := State.step_instr hlive₂ htodo₂ memory
  rw [show (s₂.pop [.set]).exec memory .create = some s₃ from hcreate, Option.map_some,
    hfinish] at hstep₃
  obtain ⟨t, hset, -, hcurrent, htodo', -, hret⟩ := State.step_set (hhalted₃.trans hlive₂)
    (by rw [hself₃]) (by rwa [hself₃]) memory
  refine ⟨t, ?_, hcurrent.trans (hcurrent₃.trans hcurrent₂), htodo', ?_⟩
  · simp only [Library.Machine.run, hcall, hoff, hstep₃, hset, if_true, Option.bind_some]
  · rw [hret, hself₃, ← hthreads]
    exact hcreates

/-! ### The scheduler -/

namespace State

/-- The queues and the array `threads` account for the threads. -/
structure Accounted (s : State) : Prop where
  queues : ∀ q ≠ .eq, s.queues q ≠ none → ∃ l, s.HasQueue q l
  running : ∃ rest, s.HasQueue .rq (s.core.current :: rest)
  ids : ∀ tid < threadMaxThreads,
    s.core.threads tid ≠ none ↔ ∃! h, s.Live h ∧ (s.core.tcb h).id = tid
  entry : ∀ tid h, s.core.threads tid = some h → s.Live h ∧ (s.core.tcb h).id = tid
  once : ∀ h, s.Live h → ∃ q l, q ≠ .eq ∧ s.HasQueue q l ∧ l.count h = 1 ∧
    ∀ q' l', q' ≠ .eq → s.HasQueue q' l' → h ∈ l' → q' = q
  /-- In the middle of `clear_queue` the tail and the size of the exit queue are those of before. -/
  exits : ∃ k l, s.queues .eq = some k ∧ Path s.next k.head l none ∧
    (∀ h ∈ l, ∀ q l', q ≠ .eq → s.HasQueue q l' → h ∉ l') ∧
    ((∀ pc rest, s.core.self.todo ≠ .clear pc :: rest) → IsQueue s.next k l)
  waiting : ∀ tid, s.queues (.wait (.thread tid)) ≠ none → s.core.threads tid ≠ none

/-- The timer has interrupted the running threads only between two calls. -/
def ReachableBetween (s : State) : Prop :=
  Library.Machine.Reaches (fun s m ↦ m = .timer → s.core.self.todo = []) step init s

end State

/-- The exit queue is empty at first. -/
theorem init_settled : Settled State.init Ideal.init where
  queue := ⟨Queue.empty, [], by simp [State.init], IsQueue.empty.path, by simp,
    .inl ⟨(fun i hi ↦ by cases hi), IsQueue.empty⟩⟩
  others g hg _ hne := absurd (Nat.lt_one_iff.mp hg) hne

namespace Ideal

theorem init_present : init.Present := fun _ hg _ ↦
  ⟨.rq, List.mem_singleton.mpr (Nat.lt_one_iff.mp hg)⟩

end Ideal

/-- In every state that can be reached before the process ends, no thread has been lost and the exit
queue is in order. -/
theorem State.ReachableBetween.settled (hs : s.ReachableBetween) (hlive : s.core.halted = false) :
    ∃ a, Linked s a ∧ a.Ordered ∧ a.Present ∧ Settled s a := by
  have hinv : s.core.halted = true ∨
      ∃ a, Linked s a ∧ a.Ordered ∧ a.Exclusive ∧ a.Present ∧ Settled s a := by
    refine Library.Machine.Reaches.invariant (I := fun s ↦ s.core.halted = true ∨
      ∃ a, Linked s a ∧ a.Ordered ∧ a.Exclusive ∧ a.Present ∧ Settled s a) ?_ hs
      (.inr ⟨_, init_linked, Ideal.init_ordered, Ideal.init_exclusive, Ideal.init_present,
        init_settled⟩)
    rintro s m t (hhalted | ⟨a, hlinked, ha, hx, hp, hset⟩) hpermitted hstep
    · exact absurd (hhalted.symm.trans (State.halted_of_step hstep)) (by simp)
    by_cases hend : t.core.halted = true
    · exact .inl hend
    rcases hlinked.step_refines ha.separate (ha.unused _ (Nat.le_refl _)) hstep with
      hend' | ⟨b, htransition, hb⟩
    · exact absurd hend' hend
    rw [hlinked.core] at hpermitted
    exact .inr ⟨b, hb, ha.transition htransition, hx.transition ha htransition,
      hp.transition ha hx htransition, hset.step hlinked ha hx hpermitted hstep htransition hb
        (by simpa using hend)⟩
  rcases hinv with hhalted | ⟨a, hlinked, ha, -, hp, hset⟩
  · exact absurd (hhalted.symm.trans hlive) (by simp)
  · exact ⟨a, hlinked, ha, hp, hset⟩

namespace Linked

/-- The lists are those of the queues. -/
theorem hasQueue_iff (hs : Linked s a) (hq : q ≠ .eq) :
    s.HasQueue q l ↔ s.queues q ≠ none ∧ a.lists q = l := by
  constructor
  · rintro ⟨k, hk, hqueue⟩
    exact ⟨by simp [hk], (hs.queue q k hq hk).eq hqueue⟩
  · rintro ⟨hne, rfl⟩
    obtain ⟨k, hk⟩ := Option.ne_none_iff_exists'.mp hne
    exact ⟨k, hk, hs.queue q k hq hk⟩

/-- A list with a thread is that of a queue. -/
theorem queues_of_mem (hs : Linked s a) (hmem : h ∈ a.lists q) : q ≠ .eq ∧ s.queues q ≠ none := by
  cases q with
  | rq => exact ⟨by simp, hs.ready⟩
  | eq => cases hmem
  | wait w =>
    refine ⟨by simp, fun hnone ↦ ?_⟩
    simp [Ideal.lists, Ideal.waiters, (hs.waiting w).mp hnone] at hmem

/-- The code accounts for its threads when the scheduler over lists does. -/
theorem accounted (hs : Linked s a) (ha : a.Ordered) (hp : a.Present) (hset : Settled s a) :
    s.Accounted where
  queues q hq hne := ⟨a.lists q, (hs.hasQueue_iff hq).mpr ⟨hne, rfl⟩⟩
  running := by
    obtain ⟨rest, hready⟩ := ha.running
    exact ⟨rest, (hs.hasQueue_iff (by simp)).mpr ⟨hs.ready, hs.core ▸ hready⟩⟩
  ids tid _ := by
    simp only [State.Live, hs.core]
    rw [Option.ne_none_iff_exists']
    constructor
    · rintro ⟨h, hthread⟩
      obtain ⟨hlt, hlive, hid⟩ := (ha.threads tid h).mp hthread
      exact ⟨h, ⟨⟨hlt, hlive⟩, hid⟩, fun g hg ↦
        ha.eq_of_id_eq hg.1.1 hg.1.2 hlt hlive (hg.2.trans hid.symm)⟩
    · rintro ⟨h, ⟨⟨hlt, hlive⟩, hid⟩, -⟩
      exact ⟨h, (ha.threads tid h).mpr ⟨hlt, hlive, hid⟩⟩
  entry tid h hthread := by
    rw [hs.core] at hthread
    obtain ⟨hlt, hlive, hid⟩ := (ha.threads tid h).mp hthread
    rw [State.Live, hs.core]
    exact ⟨⟨hlt, hlive⟩, hid⟩
  once h hlive := by
    rw [State.Live, hs.core] at hlive
    obtain ⟨q, hmem⟩ := hp h hlive.1 hlive.2
    obtain ⟨hq, hne⟩ := hs.queues_of_mem hmem
    refine ⟨q, a.lists q, hq, (hs.hasQueue_iff hq).mpr ⟨hne, rfl⟩,
      List.count_eq_one_of_mem (ha.nodup q) hmem, fun q' l' hq' hqueued hmem' ↦ ?_⟩
    obtain ⟨-, rfl⟩ := (hs.hasQueue_iff hq').mp hqueued
    exact ha.separate.apart q' q h hmem' hmem
  exits := by
    obtain ⟨k, l, hk, hpath, hexited, hcases⟩ := hset.queue
    refine ⟨k, l, hk, hpath, fun h hh q l' hq hqueued hmem ↦ ?_, fun hclear ↦ ?_⟩
    · obtain ⟨-, rfl⟩ := (hs.hasQueue_iff hq).mp hqueued
      simpa [hexited h hh] using (ha.separate.live q h hmem).2
    · rcases hcases with ⟨-, hqueue⟩ | ⟨pc, rest, htodo, -⟩
      · exact hqueue
      · exact absurd htodo (hs.core ▸ hclear pc rest)
  waiting tid hne := by
    rw [hs.core]
    exact ha.waiting_thread tid fun hnone ↦ hne ((hs.waiting _).mpr hnone)

end Linked

/-- Assumes: every id is that of a live thread just when there are as many live threads as ids. -/
theorem Creates.result {c : Core} {memory : ℕ} {r : ℤ} (h : Creates c.threads memory r)
    (hcard : c.liveThreads.card = threadMaxThreads ↔
      ∀ tid < threadMaxThreads, c.threads tid ≠ none) :
    (r = threadNomore ↔ c.liveThreads.card = threadMaxThreads) ∧
      (c.liveThreads.card ≠ threadMaxThreads → 3 ≤ memory → ∃ id < threadMaxThreads, r = (id : ℕ) ∧
        c.threads id = none ∧ ∀ tid < id, c.threads tid ≠ none) := by
  rw [ne_eq, hcard]
  cases h with
  | nomore hfull => exact ⟨iff_of_true rfl hfull, fun hnot ↦ absurd hfull hnot⟩
  | nomemory hid hfree hmemory =>
    exact ⟨iff_of_false (by decide) fun hfull ↦ hfull _ hid hfree, fun _ hmore ↦ by omega⟩
  | @thread id hid hfree hleast =>
    refine ⟨iff_of_false ?_ fun hfull ↦ hfull _ hid hfree, fun _ _ ↦ ⟨id, hid, rfl, hfree, hleast⟩⟩
    simp only [threadNomore]
    omega

/-- When the timer interrupts threads only between two calls, the queues and the array `threads`
account for the threads in every state that is reached before the process ends. A thread that is
outside of the library may then call `thread_create`, and is told that there are no more ids when
and only when there are as many threads as ids; otherwise it gets the least id that is free, if
there is memory for the new thread. -/
theorem scheduler_accounted (hs : s.ReachableBetween) (hlive : s.core.halted = false) :
    s.Accounted ∧ (s.core.self.todo = [] → ∀ memory : Memory, ∃ t,
      Library.Machine.run (fun _ _ ↦ True) State.step s
        [.call .threadCreate, .instr memory, .instr memory, .instr memory] = some t ∧
      t.core.current = s.core.current ∧ t.core.self.todo = [] ∧
      (t.core.self.ret = threadNomore ↔ s.core.liveThreads.card = threadMaxThreads) ∧
      (s.core.liveThreads.card ≠ threadMaxThreads → 3 ≤ memory.mallocs →
        ∃ id < threadMaxThreads, t.core.self.ret = (id : ℕ) ∧ s.core.threads id = none ∧
          ∀ tid < id, s.core.threads tid ≠ none)) := by
  obtain ⟨a, hlinked, ha, hp, hset⟩ := hs.settled hlive
  refine ⟨hlinked.accounted ha hp hset, fun htodo memory ↦ ?_⟩
  obtain ⟨t, hrun, hcurrent, hback, hcreates⟩ := hlinked.create_call ha hlive htodo memory
  exact ⟨t, hrun, hcurrent, hback, hcreates.result (hlinked.core ▸ ha.card_liveThreads_iff)⟩

/-- The first thread creates another one, and the timer switches to it. -/
theorem scheduler_accounted_two : ∃ s : State, s.ReachableBetween ∧ s.core.current = 1 ∧
    s.Accounted ∧ ∃ t, Library.Machine.run (fun _ _ ↦ True) State.step s
        [.call .threadCreate, .instr ⟨3, 0⟩, .instr ⟨3, 0⟩, .instr ⟨3, 0⟩] = some t ∧
      (t.core.self.ret = threadNomore ↔ s.core.liveThreads.card = threadMaxThreads) := by
  have hrun : (Library.Machine.run (fun s m ↦ m = .timer → s.core.self.todo = []) State.step
      State.init (State.script [(.threadCreate, 3)] ++ .timer ::
        List.replicate 8 (.instr ⟨3, 0⟩))).map
          (fun s ↦ (s.core.current, s.core.self.todo, s.core.halted)) = some (1, [], false) := by
    decide +kernel
  obtain ⟨s, hs, hshape⟩ := Option.map_eq_some_iff.mp hrun
  simp only [Prod.mk.injEq] at hshape
  obtain ⟨hcurrent, htodo, hlive⟩ := hshape
  have hreach : s.ReachableBetween := Library.Machine.Reaches.of_run hs
  obtain ⟨haccounted, hcreate⟩ := scheduler_accounted hreach hlive
  obtain ⟨t, ht, -, -, hret, -⟩ := hcreate htodo ⟨3, 0⟩
  exact ⟨s, hreach, hcurrent, haccounted, t, ht, hret⟩

end OperatingSystems.Threads
