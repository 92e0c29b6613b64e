import OperatingSystems.Threads.Identifiers
import OperatingSystems.Threads.Killing

/-!
# Wake-ups

`Traffic w` goes along a run from the start of the process and lists the threads that join the wait
queue `w`, and those that leave it. The threads that have left are always the first of those that
have joined, and the others are in the queue (`Traffic.eq`): a move appends the running thread or
takes threads from the front (`Transition.waiters`). What one call of `thread_wakeup` moves is in
`wakeups_fifo`.
-/

set_option autoImplicit false
set_option relaxedAutoImplicit false

namespace OperatingSystems.Threads

open State (Move Memory)
open OperatingSystems.Library.LinkedQueue (IsQueue)

variable {a b : Ideal} {i : Instr} {m : Move} {s t : State} {g h : ℕ} {w : WaitQueue}
  {l l' joined left ready rest' : List ℕ} {rest : List Instr}

namespace Ideal

theorem waiters_mapCore (a : Ideal) (f : Core → Core) (w : WaitQueue) :
    (a.mapCore f).waiters w = a.waiters w := rfl

theorem waiters_setList_rq (a : Ideal) (l : List ℕ) (w : WaitQueue) :
    (a.setList .rq l).waiters w = a.waiters w := rfl

theorem waiters_setList (a : Ideal) (v w : WaitQueue) (l : List ℕ) :
    (a.setList (.wait v) l).waiters w = if w = v then l else a.waiters w := by
  simp only [waiters, setList, Function.update_apply]
  split_ifs <;> rfl

theorem waiters_dropQueue (a : Ideal) (v w : WaitQueue) :
    (a.dropQueue v).waiters w = if w = v then [] else a.waiters w := by
  simp only [waiters, dropQueue, Function.update_apply]
  split_ifs <;> rfl

/-- A thread that waits in a queue does not run. -/
theorem Ordered.not_waiting (ha : a.Ordered) {w : WaitQueue} :
    a.core.current ∉ a.waiters w := fun hmem ↦ by
  obtain ⟨rest, hready⟩ := ha.running
  have hrq : a.core.current ∈ a.lists .rq := by
    rw [lists, hready]
    exact List.mem_cons_self
  exact absurd (ha.separate.apart .rq (.wait w) _ hrq hmem) (by simp)

/-- A new queue is empty, as the queue was before it existed. -/
theorem Ordered.waiters_new (ha : a.Ordered) (hw : w.object = some a.core.objects) :
    a.waiters w = [] := by
  have hnone : a.waiting w = none := by
    by_contra hne
    exact absurd (ha.waiting_object w _ hw hne) (Nat.lt_irrefl _)
  rw [waiters, hnone, Option.getD_none]

/-- A statement takes threads from the front of a wait queue, or appends the running thread. -/
theorem Executes.waiters (ha : a.Ordered) (hexec : a.Executes i b) (w : WaitQueue) :
    (∃ moved, a.waiters w = moved ++ b.waiters w) ∨
      i = .sleepOn w ∧ b.waiters w = a.waiters w ++ [a.core.current] := by
  have hsame : b.waiters w = a.waiters w → (∃ moved, a.waiters w = moved ++ b.waiters w) ∨
      i = .sleepOn w ∧ b.waiters w = a.waiters w ++ [a.core.current] :=
    fun heq ↦ .inl ⟨[], heq.symm⟩
  have hset : ∀ {v : WaitQueue} {m kept : List ℕ}, a.waiters v = m ++ kept →
      b.waiters w = (if w = v then kept else a.waiters w) →
      (∃ moved, a.waiters w = moved ++ b.waiters w) ∨
        i = .sleepOn w ∧ b.waiters w = a.waiters w ++ [a.core.current] :=
      fun {v m kept} hv hb ↦ by
    by_cases hwv : w = v
    · subst hwv
      rw [if_pos rfl] at hb
      exact .inl ⟨m, by rw [hb, hv]⟩
    · rw [if_neg hwv] at hb
      exact hsame hb
  cases hexec with
  | @sleep v old new rest l hready hw =>
    by_cases hwv : w = v
    · subst hwv
      refine .inr ⟨rfl, ?_⟩
      rw [← ha.eq_current hready]
      simp [Ideal.waiters, setList, hw]
    · exact hsame ((waiters_setList _ v w _).trans (if_neg hwv))
  | @wakeup v all h more kept hw =>
    exact hset (v := v) (m := h :: more) (by simp [Ideal.waiters, hw])
      (waiters_setList a v w kept)
  | @wait tid =>
    refine hset (v := .thread tid.toNat) (m := []) rfl (waiters_setList a _ w _)
  | @exit old =>
    exact hset (v := .thread (a.core.tcb old).id) (List.append_nil _).symm
      (waiters_dropQueue (a.setList .rq _) _ w)
  | @lockDestroy l =>
    exact hset (v := .lock l) (List.append_nil _).symm (waiters_dropQueue a _ w)
  | @cvDestroy c => exact hset (v := .cv c) (List.append_nil _).symm (waiters_dropQueue a _ w)
  | @release l =>
    exact hset (v := .lock l) (List.append_nil _).symm (waiters_setList a _ w [])
  | lockCreate =>
    exact hset (v := .lock a.core.objects) (m := []) (ha.waiters_new rfl)
      (waiters_setList a _ w [])
  | cvCreate =>
    exact hset (v := .cv a.core.objects) (m := []) (ha.waiters_new rfl)
      (waiters_setList a _ w [])
  | queueCreate =>
    exact hset (v := .user a.core.objects) (m := []) (ha.waiters_new rfl)
      (waiters_setList a _ w [])
  | _ => exact hsame rfl

/-- A move takes threads from the front of a wait queue, or appends the running thread. -/
theorem Transition.waiters (ha : a.Ordered) (htransition : a.Transition m b) (w : WaitQueue) :
    (∃ moved, a.waiters w = moved ++ b.waiters w) ∨
      (∃ rest, a.core.self.todo = .sleepOn w :: rest) ∧
        b.waiters w = a.waiters w ++ [a.core.current] := by
  cases htransition with
  | timer | call | interrupts => exact .inl ⟨[], rfl⟩
  | instr htodo hexec =>
    refine (hexec.waiters (ha.popped _) w).imp_right ?_
    rintro ⟨rfl, happend⟩
    exact ⟨⟨_, htodo⟩, happend⟩

end Ideal

/-! ### The order of the sleepers -/

/-- The list of the threads in the wait queue, none if there is no such queue. -/
def State.Waits (s : State) (w : WaitQueue) (l : List ℕ) : Prop :=
  s.queues (.wait w) = none ∧ l = [] ∨
    ∃ k, s.queues (.wait w) = some k ∧ IsQueue s.next k l

theorem Linked.waits (hs : Linked s a) (w : WaitQueue) : s.Waits w (a.waiters w) := by
  cases hw : a.waiting w with
  | none => exact .inl ⟨(hs.waiting w).mpr hw, by rw [Ideal.waiters, hw, Option.getD_none]⟩
  | some l =>
    obtain ⟨k, hk, hqueue⟩ := hs.exists_waiting hw
    exact .inr ⟨k, hk, by rwa [Ideal.waiters, hw, Option.getD_some]⟩

theorem State.Waits.eq (hl : s.Waits w l) (hl' : s.Waits w l') : l = l' := by
  rcases hl with ⟨hnone, rfl⟩ | ⟨k, hk, hqueue⟩ <;> rcases hl' with
      ⟨hnone', rfl⟩ | ⟨k', hk', hqueue'⟩
  · rfl
  · exact absurd (hnone.symm.trans hk') (by simp)
  · exact absurd (hnone'.symm.trans hk) (by simp)
  · exact State.HasQueue.eq ⟨k, hk, hqueue⟩ ⟨k', hk', hqueue'⟩

/-- A run from the start of the process, with the threads that have joined the wait queue and those
that have left it, each list in order. -/
inductive State.Traffic (w : WaitQueue) : State → List ℕ → List ℕ → Prop
  | init : Traffic w State.init [] []
  | step {s t : State} {m : Move} {joined left l l' : List ℕ} (hrun : Traffic w s joined left)
      (hstep : s.step m = some t) (hl : s.Waits w l) (hl' : t.Waits w l') :
      Traffic w t (joined ++ l'.filter (· ∉ l)) (left ++ l.filter (· ∉ l'))

/-- Every state of such a run can be reached. -/
theorem State.Traffic.reachable (hrun : State.Traffic w s joined left) : s.Reachable := by
  induction hrun with
  | init => exact Relation.ReflTransGen.refl
  | step _ hstep _ _ ih => exact Relation.ReflTransGen.tail ih ⟨_, trivial, hstep⟩

/-- The threads that have joined the queue are those that have left it, and then those in it. -/
theorem State.Traffic.eq (hrun : State.Traffic w s joined left) (hlive : s.core.halted = false)
    (hl : s.Waits w l) : joined = left ++ l := by
  induction hrun generalizing l with
  | init =>
    rcases hl with ⟨-, rfl⟩ | ⟨k, hk, -⟩
    · rfl
    · simp [State.init] at hk
  | @step s t m joined left l₁ l₂ hrun hstep hl₁ hl₂ ih =>
    have hbefore := State.halted_of_step hstep
    obtain ⟨a, hlinked, ha, -⟩ := hrun.reachable.mortal hbefore
    rcases hlinked.step_refines ha.separate (ha.unused _ (Nat.le_refl _)) hstep with
      hend | ⟨b, htransition, hb⟩
    · exact absurd (hend.symm.trans hlive) (by simp)
    obtain rfl := hl₁.eq (hlinked.waits w)
    obtain rfl := hl₂.eq (hb.waits w)
    obtain rfl := hl.eq hl₂
    rw [ih hbefore hl₁]
    have hnodup : (a.waiters w).Nodup := ha.nodup (.wait w)
    -- A list keeps none of its own threads, and all threads of a list apart from it.
    have hnone : ∀ {l r : List ℕ}, (∀ g ∈ l, g ∈ r) → l.filter (· ∉ r) = [] := fun hsub ↦
      List.filter_eq_nil_iff.mpr fun g hg ↦ by simpa using hsub g hg
    have hall : ∀ {l r : List ℕ}, (∀ g ∈ l, g ∉ r) → l.filter (· ∉ r) = l := fun hdisjoint ↦
      List.filter_eq_self.mpr fun g hg ↦ by simpa using hdisjoint g hg
    rcases htransition.waiters ha w with ⟨moved, hmoved⟩ | ⟨-, happend⟩
    · rw [hmoved, List.nodup_append] at hnodup
      obtain ⟨-, -, hdisjoint⟩ := hnodup
      rw [hmoved, hnone fun g hg ↦ List.mem_append_right _ hg, List.filter_append,
        hall fun g hg hg' ↦ hdisjoint g hg g hg' rfl, hnone fun g hg ↦ hg, List.append_nil,
        List.append_nil, List.append_assoc]
    · have hnew : a.core.current ∉ a.waiters w := ha.not_waiting
      rw [happend, List.filter_append, hnone fun g hg ↦ hg,
        hall (l := [a.core.current]) (by simpa using hnew),
        hnone fun g hg ↦ List.mem_append_left _ hg, List.nil_append, List.append_nil,
        List.append_assoc]

/-- Every state that can be reached while the process runs is at the end of such a run. -/
theorem State.Reachable.traffic (hs : s.Reachable) (hlive : s.core.halted = false)
    (w : WaitQueue) : ∃ joined left, State.Traffic w s joined left := by
  induction hs with
  | refl => exact ⟨[], [], .init⟩
  | @tail u v hu hmove ih =>
    obtain ⟨m, -, hstep⟩ := hmove
    have hbefore := State.halted_of_step hstep
    obtain ⟨joined, left, hrun⟩ := ih hbefore
    obtain ⟨a, hlinked, -⟩ := State.Reachable.mortal hu hbefore
    obtain ⟨b, hlinked', -⟩ :=
      State.Reachable.mortal (Relation.ReflTransGen.tail hu ⟨m, trivial, hstep⟩) hlive
    exact ⟨_, _, .step hrun hstep (hlinked.waits w) (hlinked'.waits w)⟩

/-! ### One wake-up -/

/-- The number of threads that `thread_wakeup` moves from a queue of the length. -/
def wakeupCount (all : Bool) (size : ℕ) : ℕ := if all then size else min 1 size

/-- `thread_wakeup` moves the first threads of the queue to the end of the ready queue, and returns
their number. -/
theorem Linked.threadWakeup_spec (hs : Linked s a) (ha : a.Separate) (w : WaitQueue) (all : Bool) :
    ∃ t b, s.threadWakeup w all = some (t, wakeupCount all (a.waiters w).length) ∧ Linked t b ∧
      b.ready = a.ready ++ (a.waiters w).take (wakeupCount all (a.waiters w).length) ∧
      (∀ v, b.waiters v = if v = w then (a.waiters w).drop (wakeupCount all (a.waiters w).length)
        else a.waiters v) ∧ t.core.current = s.core.current := by
  cases hl : a.waiters w with
  | nil =>
    have hcount : wakeupCount all ([] : List ℕ).length = 0 := by
      cases all <;> rfl
    rw [hcount]
    refine ⟨s, a, hs.threadWakeup_nil hl all, hs, (List.append_nil _).symm, fun v ↦ ?_, rfl⟩
    split_ifs with hv
    · rw [hv, hl, List.drop_nil]
    · rfl
  | cons h l =>
    have hw : a.waiting w = some (h :: l) := by
      cases hw : a.waiting w with
      | none => simp [Ideal.waiters, hw] at hl
      | some l' => simpa [Ideal.waiters, hw] using hl
    obtain ⟨more, kept, t, rfl, hmore, hkept, hwakeup, ht, -⟩ := hs.threadWakeup_cons ha hw all
    have hcount : wakeupCount all (h :: (more ++ kept)).length = (h :: more).length := by
      cases all with
      | false => simp [wakeupCount, hmore rfl]
      | true => simp [wakeupCount, hkept rfl]
    rw [hcount]
    refine ⟨t, _, hwakeup, ht, ?_, fun v ↦ ?_, ?_⟩
    · simp [Ideal.setList]
    · rw [← List.cons_append, List.drop_left]
      exact Ideal.waiters_setList a w v kept
    · rw [ht.core, hs.core, Ideal.mapCore_core, Core.wakeAll_eq]
      rfl

/-- A statement `thread_wakeup` of the running thread. -/
theorem State.Reachable.wakeup (hs : s.Reachable) (hlive : s.core.halted = false) {all : Bool}
    (htodo : s.core.self.todo = .wakeup w all :: rest) (hl : s.Waits w l) (hready : s.Ready ready)
    (memory : Memory) : ∃ t, s.step (.instr memory) = some t ∧
      t.Waits w (l.drop (wakeupCount all l.length)) ∧
      t.Ready (ready ++ l.take (wakeupCount all l.length)) ∧
      (t.core.tcb s.core.current).ret = wakeupCount all l.length ∧
      ready.head? = some s.core.current ∧ t.core.current = s.core.current := by
  obtain ⟨a, hlinked, ha, -⟩ := hs.mortal hlive
  obtain rfl := hl.eq (hlinked.waits w)
  obtain rfl := State.HasQueue.eq hready hlinked.ready_list
  obtain ⟨t, b, hwakeup, hb, hbready, hbwait, hcurrent⟩ :=
    (State.linked_pop hlinked rest).threadWakeup_spec (ha.popped rest).separate w all
  have hexec : (s.pop rest).exec memory (.wakeup w all) =
      some (t.mapCore (·.setRet (wakeupCount all (a.waiters w).length : ℕ))) := by
    simp only [State.exec, hwakeup, Option.bind_eq_bind, Option.bind_some]
    rfl
  have hstep := State.step_instr hlive htodo memory
  rw [hexec, Option.map_some] at hstep
  have hwaits := hb.waits w
  rw [hbwait w, if_pos rfl] at hwaits
  have hready' := hb.ready_list
  rw [hbready] at hready'
  refine ⟨_, hstep, hwaits, hready', ?_, ?_, hcurrent⟩
  · have hself := Core.setRet_self t.core (wakeupCount all (a.waiters w).length)
    rw [hcurrent] at hself
    exact (Core.finish_ret _ _ _).trans (congrArg Thread.ret hself)
  · obtain ⟨rest', hrun⟩ := ha.running
    rw [hrun, List.head?_cons, hlinked.core]

/-- The wake-up inside of `lock_release`. -/
theorem State.Reachable.wakeup_release (hs : s.Reachable) {x : ℕ}
    (htodo : s.core.self.todo = .release x :: rest) (hl : s.Waits (.lock x) l)
    (hready : s.Ready ready) {memory : Memory} (hstep : s.step (.instr memory) = some t)
    (hlive : t.core.halted = false) :
    t.Waits (.lock x) [] ∧ t.Ready (ready ++ l) ∧ t.core.current = s.core.current := by
  obtain ⟨a, hlinked, ha, -⟩ := hs.mortal (State.halted_of_step hstep)
  obtain rfl := hl.eq (hlinked.waits _)
  obtain rfl := State.HasQueue.eq hready hlinked.ready_list
  rcases hlinked.step_refines ha.separate (ha.unused _ (Nat.le_refl _)) hstep with
    hend | ⟨b, htransition, hb⟩
  · exact absurd (hend.symm.trans hlive) (by simp)
  rw [hlinked.core] at htodo
  cases htransition with
  | instr htodo' hexec =>
    obtain ⟨rfl, rfl⟩ := List.cons.inj (htodo.symm.trans htodo')
    have hwaits := hb.waits (.lock x)
    have hready' := hb.ready_list
    cases hexec with
    | @release _ old rest' k =>
      refine ⟨?_, hready', ?_⟩
      · rwa [Ideal.waiters_mapCore, Ideal.waiters_mapCore, Ideal.waiters_setList_rq,
          Ideal.waiters_setList, if_pos rfl] at hwaits
      · rw [hb.core, hlinked.core]
        show (Core.wakeAll _ _ _).current = _
        rw [Core.wakeAll_eq]
        rfl

/-- The wake-up inside of `thread_exit`. -/
theorem State.Reachable.wakeup_exit (hs : s.Reachable) (htodo : s.core.self.todo = .exit :: rest)
    (hl : s.Waits (.thread s.core.self.id) l) (hready : s.Ready ready) {memory : Memory}
    (hstep : s.step (.instr memory) = some t) (hlive : t.core.halted = false) :
    t.Waits (.thread s.core.self.id) [] ∧ t.Ready (ready.tail ++ l) := by
  obtain ⟨a, hlinked, ha, -⟩ := hs.mortal (State.halted_of_step hstep)
  obtain rfl := hl.eq (hlinked.waits _)
  obtain rfl := State.HasQueue.eq hready hlinked.ready_list
  rcases hlinked.step_refines ha.separate (ha.unused _ (Nat.le_refl _)) hstep with
    hend | ⟨b, htransition, hb⟩
  · exact absurd (hend.symm.trans hlive) (by simp)
  rw [hlinked.core] at htodo ⊢
  cases htransition with
  | @instr _ _ popped _ htodo' hexec =>
    obtain ⟨rfl, rfl⟩ := List.cons.inj (htodo.symm.trans htodo')
    have hready' := hb.ready_list
    cases hexec with
    | @exit old new rest' rest'' hready hrest =>
      have hid : ((a.popped rest).core.tcb old).id = a.core.self.id := by
        rw [(ha.popped rest).eq_current hready]
        exact (a.popped_frame rest).id a.core.current
      have hwaits := hb.waits (.thread a.core.self.id)
      refine ⟨?_, ?_⟩
      · rw [← hid] at hwaits ⊢
        rwa [Ideal.waiters_mapCore, Ideal.waiters_mapCore, Ideal.waiters_dropQueue, if_pos rfl]
          at hwaits
      · have htail : a.ready.tail = rest' := congrArg List.tail hready
        have hlist : a.ready.tail ++ a.waiters (.thread a.core.self.id) = new :: rest'' := by
          rw [htail, ← hid]
          exact hrest
        rw [hlist]
        exact hready'

/-! ### The law -/

/-- In every run: the threads that have left a wait queue are the first of those that have joined
it, and the others are in it in the order they joined; `thread_wakeup` moves the first one or all of
them to the end of the ready queue and returns their number; the wake-ups inside of `lock_release`
and `thread_exit` move all of them; and a thread that has been killed while it was in the queue
stays so. -/
theorem wakeups_fifo (hrun : State.Traffic w s joined left) (hlive : s.core.halted = false)
    (hl : s.Waits w l) (hready : s.Ready ready) :
    joined = left ++ l ∧
    (∀ all rest memory, s.core.self.todo = .wakeup w all :: rest →
      ∃ t, s.step (.instr memory) = some t ∧
        t.Waits w (l.drop (wakeupCount all l.length)) ∧
        t.Ready (ready ++ l.take (wakeupCount all l.length)) ∧
        (t.core.tcb s.core.current).ret = wakeupCount all l.length ∧
        ready.head? = some s.core.current ∧ t.core.current = s.core.current) ∧
    (∀ x rest memory t, w = .lock x → s.core.self.todo = .release x :: rest →
      s.step (.instr memory) = some t → t.core.halted = false →
      t.Waits w [] ∧ t.Ready (ready ++ l) ∧ t.core.current = s.core.current) ∧
    (∀ rest memory t, w = .thread s.core.self.id → s.core.self.todo = .exit :: rest →
      s.step (.instr memory) = some t → t.core.halted = false →
      t.Waits w [] ∧ t.Ready (ready.tail ++ l)) ∧
    ∀ h ∈ l, s.core.Killed h → ∀ t, Library.Machine.Reaches (fun _ _ ↦ True) State.step s t →
      t.core.halted = false → t.core.Killed h := by
  have hs := hrun.reachable
  refine ⟨hrun.eq hlive hl, fun all rest memory htodo ↦ hs.wakeup hlive htodo hl hready memory, ?_,
    ?_, fun h hh hkilled t ht hlive' ↦ ?_⟩
  · rintro x rest memory t rfl htodo hstep hlive'
    exact hs.wakeup_release htodo hl hready hstep hlive'
  · rintro rest memory t rfl htodo hstep hlive'
    exact hs.wakeup_exit htodo hl hready hstep hlive'
  · obtain ⟨a, hlinked, ha, -⟩ := hs.mortal hlive
    obtain rfl := hl.eq (hlinked.waits w)
    have hallocated : h < s.core.allocated := by
      rw [hlinked.core]
      exact (ha.separate.live (.wait w) h hh).1
    exact ((hs.killed ht hkilled hallocated).2.resolve_left (by simp [hlive'])).1

set_option synthInstance.maxSize 1000 in
/-- Two threads have gone to sleep on a queue, the third one has killed the second of them, and
wakes both. -/
theorem wakeups_fifo_two : ∃ (s t : State) (joined left : List ℕ),
    State.Traffic (.user 0) s joined left ∧ joined = left ++ [0, 1] ∧ s.core.Killed 1 ∧
      s.step (.instr ⟨3, 0⟩) = some t ∧ t.Waits (.user 0) [] ∧ t.Ready [2, 0, 1] ∧
      (t.core.halted = false → t.core.Killed 1) := by
  have hrun : (Library.Machine.run (fun _ _ ↦ True) State.step State.init
      (State.script [(.waitQueueCreate, 1), (.threadCreate, 3), (.threadCreate, 3),
        (.threadSleep 0, 8), (.threadSleep 0, 8), (.threadKill 1, 3),
        (.threadWakeup 0 true, 1)])).map
      (fun s ↦ (s.core.halted, s.core.self.todo, s.queues (.wait (.user 0)), s.queues .rq,
        (s.next 0, s.next 1, s.next 2), (s.core.tcb 1).status)) =
      some (false, [.wakeup (.user 0) true, .set], some ⟨some 0, some 1, 2⟩,
        some ⟨some 2, some 2, 1⟩, (some 1, none, none), .exited) := by
    decide +kernel
  obtain ⟨s, hs, hshape⟩ := Option.map_eq_some_iff.mp hrun
  simp only [Prod.mk.injEq] at hshape
  obtain ⟨hlive, htodo, hwait, hrq, ⟨hnext0, hnext1, hnext2⟩, hkilled⟩ := hshape
  have hreach : s.Reachable := Library.Machine.Reaches.of_run hs
  obtain ⟨joined, left, htraffic⟩ := hreach.traffic hlive (.user 0)
  have hwaiters : IsQueue s.next ⟨some 0, some 1, 2⟩ [0, 1] :=
    ⟨⟨rfl, hnext0, hnext1⟩, fun r g hlist ↦ by simpa using congrArg List.getLast? hlist, rfl⟩
  have hready : IsQueue s.next ⟨some 2, some 2, 1⟩ [2] :=
    ⟨⟨rfl, hnext2⟩, fun r g hlist ↦ by simpa using congrArg List.getLast? hlist, rfl⟩
  obtain ⟨hjoined, hwakeup, -, -, hstays⟩ :=
    wakeups_fifo htraffic hlive (.inr ⟨_, hwait, hwaiters⟩) ⟨_, hrq, hready⟩
  obtain ⟨t, ht, hwaits, hqueue, -⟩ := hwakeup true _ ⟨3, 0⟩ htodo
  exact ⟨s, t, joined, left, htraffic, hjoined, hkilled, ht, hwaits, hqueue,
    hstays 1 (by simp) hkilled t (Relation.ReflTransGen.single ⟨_, trivial, ht⟩)⟩

end OperatingSystems.Threads
