import Mathlib.Data.List.Perm.Subperm
import OperatingSystems.Threads.Ideal
import OperatingSystems.Threads.Yield

/-!
# The queues of the code are the lists of the ideal scheduler

`Linked s a` relates a state of the code to a state of the scheduler over lists: both agree apart
from the queues, and each queue of the code other than the exit queue describes the list of the
same name. Of the exit queue it says only that its tail, if it has one, is a thread that has
exited; that is what keeps an append to it from writing into another queue, also after the exit
queue has been damaged.

`Separate a` says that no thread is in two lists. Under it each statement of the code is a
statement of the scheduler over lists (`exec_refines`), and so is each move (`step_refines`).
-/

set_option autoImplicit false
set_option relaxedAutoImplicit false

namespace OperatingSystems.Threads

open OperatingSystems.Library.LinkedQueue (Queue IsQueue)

variable {c d e : Core} {s t : State} {a b : Ideal} {q q' : QueueId} {w : WaitQueue} {n h : ℕ}
  {l : List ℕ}

/-! ### What most statements leave alone -/

/-- The two differ in no id, in no exit, not in the array `threads` and not in what has been
allocated. -/
structure Core.Frame (c d : Core) : Prop where
  id : ∀ h, (d.tcb h).id = (c.tcb h).id
  exited : ∀ h, (d.tcb h).exited = (c.tcb h).exited
  threads : d.threads = c.threads
  allocated : d.allocated = c.allocated
  locks : ∀ l, d.locks l = none ↔ c.locks l = none

namespace Core

theorem Frame.refl (c : Core) : c.Frame c where
  id _ := rfl
  exited _ := rfl
  threads := rfl
  allocated := rfl
  locks _ := Iff.rfl

theorem Frame.trans (h₁ : c.Frame d) (h₂ : d.Frame e) : c.Frame e where
  id h := (h₂.id h).trans (h₁.id h)
  exited h := (h₂.exited h).trans (h₁.exited h)
  threads := h₂.threads.trans h₁.threads
  allocated := h₂.allocated.trans h₁.allocated
  locks l := (h₂.locks l).trans (h₁.locks l)

theorem frame_modify (c : Core) (h : ℕ) {f : Thread → Thread} (hid : ∀ t, (f t).id = t.id)
    (hexited : ∀ t, (f t).exited = t.exited) : c.Frame (c.modify h f) where
  id g := by
    simp only [modify, Function.update_apply]
    split_ifs with hg
    · rw [hid, hg]
    · rfl
  exited g := by
    simp only [modify, Function.update_apply]
    split_ifs with hg
    · rw [hexited, hg]
    · rfl
  threads := rfl
  allocated := rfl
  locks _ := Iff.rfl

theorem frame_flag (c : Core) (b : Bool) : c.Frame { c with flag := b } :=
  ⟨fun _ ↦ rfl, fun _ ↦ rfl, rfl, rfl, fun _ ↦ Iff.rfl⟩

theorem frame_objects (c : Core) (n : ℕ) : c.Frame { c with objects := n } :=
  ⟨fun _ ↦ rfl, fun _ ↦ rfl, rfl, rfl, fun _ ↦ Iff.rfl⟩

theorem frame_setcontext (c : Core) (h : ℕ) : c.Frame (c.setcontext h) :=
  ⟨fun _ ↦ rfl, fun _ ↦ rfl, rfl, rfl, fun _ ↦ Iff.rfl⟩

theorem frame_push (c : Core) (extra : List Instr) : c.Frame (c.push extra) :=
  c.frame_modify _ (fun _ ↦ rfl) fun _ ↦ rfl

theorem frame_setRet (c : Core) (r : ℤ) : c.Frame (c.setRet r) :=
  c.frame_modify _ (fun _ ↦ rfl) fun _ ↦ rfl

theorem frame_setThreadStatus (c : Core) (h : ℕ) (status : Status) :
    c.Frame (c.setThreadStatus h status) :=
  c.frame_modify _ (fun t ↦ by split_ifs <;> rfl) fun t ↦ by split_ifs <;> rfl

theorem frame_getcontext (c : Core) : c.Frame c.getcontext :=
  c.frame_modify _ (fun _ ↦ rfl) fun _ ↦ rfl

theorem frame_stamp (c : Core) : c.Frame c.stamp :=
  (c.frame_modify c.current (f := fun t ↦ { t with since := c.clock }) (fun _ ↦ rfl)
    fun _ ↦ rfl).trans ⟨fun _ ↦ rfl, fun _ ↦ rfl, rfl, rfl, fun _ ↦ Iff.rfl⟩

theorem frame_interruptsOff (c : Core) : c.Frame c.interruptsOff :=
  (c.frame_modify c.current (f := fun t ↦ { t with saved := c.flag :: t.saved }) (fun _ ↦ rfl)
    fun _ ↦ rfl).trans (frame_flag _ false)

theorem frame_interruptsSet (h : c.interruptsSet = some d) : c.Frame d := by
  rw [interruptsSet] at h
  split at h
  · cases h
  · rename_i b rest _
    obtain rfl := Option.some.inj h
    exact (c.frame_modify c.current (f := fun t ↦ { t with saved := rest }) (fun _ ↦ rfl)
      fun _ ↦ rfl).trans (frame_flag _ b)

theorem frame_wake (c : Core) (w : WaitQueue) (h : ℕ) : c.Frame (c.wake w h) :=
  (c.frame_setThreadStatus h .ready).trans (frame_modify _ _ (fun _ ↦ rfl) fun _ ↦ rfl)

theorem frame_wakeAll (c : Core) (w : WaitQueue) (moved : List ℕ) :
    c.Frame (c.wakeAll w moved) := by
  induction moved generalizing c with
  | nil => exact .refl c
  | cons h moved ih => exact (c.frame_wake w h).trans (ih _)

theorem frame_abandon (c : Core) : c.Frame c.abandon :=
  c.frame_modify _ (fun _ ↦ rfl) fun _ ↦ rfl

theorem frame_begin (c : Core) (k : Call) : c.Frame (c.begin k) :=
  c.frame_modify _ (fun _ ↦ rfl) fun _ ↦ rfl

theorem frame_finish (c : Core) (h : ℕ) : c.Frame (c.finish h) :=
  c.frame_modify _ (fun t ↦ by split_ifs <;> rfl) fun t ↦ by split_ifs <;> rfl

theorem frame_interrupt (c : Core) : c.Frame c.interrupt :=
  (c.frame_push handlerCode).trans (frame_flag _ false)

theorem frame_yieldSwitch (c : Core) (old want : ℕ) : c.Frame (c.yieldSwitch old want) :=
  (((c.frame_setThreadStatus old .ready).trans (frame_getcontext _)).trans (frame_setRet _ _)).trans
    (frame_setcontext _ _)

theorem frame_sleepSwitch (c : Core) (old new : ℕ) : c.Frame (c.sleepSwitch old new) :=
  ((((c.frame_setThreadStatus old .blocked).trans (frame_getcontext _)).trans
    (frame_stamp _)).trans (frame_setRet _ _)).trans (frame_setcontext _ _)

theorem frame_setLock {k : Lock} (c : Core) (l : ℕ) {k' : Lock} (hlock : c.locks l = some k) :
    c.Frame (c.setLock l (some k')) where
  id _ := rfl
  exited _ := rfl
  threads := rfl
  allocated := rfl
  locks m := by
    simp only [setLock, Function.update_apply]
    split_ifs with hm
    · simp [hm, hlock]
    · rfl

end Core

/-! ### Lists without common threads -/

/-- Every thread in a list is allocated and has not exited, no thread is in two lists, and a lock
has its queue. -/
structure Ideal.Separate (a : Ideal) : Prop where
  live : ∀ q h, h ∈ a.lists q → h < a.core.allocated ∧ (a.core.tcb h).exited = false
  apart : ∀ q q' h, h ∈ a.lists q → h ∈ a.lists q' → q = q'
  lock : ∀ l, a.core.locks l ≠ none → a.waiting (.lock l) ≠ none

namespace Ideal

theorem waiting_setList (a : Ideal) (q : QueueId) (l : List ℕ) {w : WaitQueue}
    (hw : a.waiting w ≠ none) : (a.setList q l).waiting w ≠ none := by
  cases q with
  | rq => exact hw
  | eq => exact hw
  | wait v =>
    simp only [setList, Function.update_apply]
    split_ifs
    · simp
    · exact hw

theorem Separate.mapCore' (ha : a.Separate) {f : Core → Core}
    (hallocated : a.core.allocated ≤ (f a.core).allocated)
    (hexited : ∀ q, ∀ h ∈ a.lists q, ((f a.core).tcb h).exited = (a.core.tcb h).exited)
    (hlocks : ∀ l, (f a.core).locks l ≠ none → a.core.locks l ≠ none) :
    (a.mapCore f).Separate where
  live q h hmem := by
    rw [mapCore_lists] at hmem
    obtain ⟨hlt, hlive⟩ := ha.live q h hmem
    exact ⟨Nat.lt_of_lt_of_le hlt hallocated, (hexited q h hmem).trans hlive⟩
  apart q q' h hmem hmem' := by
    rw [mapCore_lists] at hmem hmem'
    exact ha.apart q q' h hmem hmem'
  lock l hl := ha.lock l (hlocks l hl)

theorem Separate.mapCore (ha : a.Separate) {f : Core → Core} (hf : a.core.Frame (f a.core)) :
    (a.mapCore f).Separate :=
  ha.mapCore' (Nat.le_of_eq hf.allocated.symm) (fun _ h _ ↦ hf.exited h) fun l ↦ mt (hf.locks l).mpr

/-- A list is replaced by one that has no further threads. -/
theorem Separate.shrink (ha : a.Separate) (hq : q ≠ .eq) (hl : ∀ h ∈ l, h ∈ a.lists q) :
    (a.setList q l).Separate := by
  have hsub : ∀ q' h, h ∈ (a.setList q l).lists q' → h ∈ a.lists q' := by
    intro q' h hmem
    by_cases hqq : q' = q
    · subst hqq
      rw [setList_lists_self a hq] at hmem
      exact hl h hmem
    · rwa [setList_lists_of_ne a hqq] at hmem
  refine ⟨fun q' h hmem ↦ ?_, fun q' q'' h hmem hmem' ↦ ?_, fun m hm ↦ ?_⟩
  · rw [setList_core]
    exact ha.live q' h (hsub q' h hmem)
  · exact ha.apart q' q'' h (hsub q' h hmem) (hsub q'' h hmem')
  · rw [setList_core] at hm
    exact a.waiting_setList q l (ha.lock m hm)

/-- A thread of no list is added to one. -/
theorem Separate.add (ha : a.Separate) (hq : q ≠ .eq) (hn : ∀ q, n ∉ a.lists q)
    (hlive : n < a.core.allocated ∧ (a.core.tcb n).exited = false) :
    (a.setList q (a.lists q ++ [n])).Separate := by
  have hcases : ∀ q' h, h ∈ (a.setList q (a.lists q ++ [n])).lists q' →
      h ∈ a.lists q' ∨ q' = q ∧ h = n := by
    intro q' h hmem
    by_cases hqq : q' = q
    · subst hqq
      rw [setList_lists_self a hq, List.mem_append, List.mem_singleton] at hmem
      exact hmem.imp_right fun heq ↦ ⟨rfl, heq⟩
    · rw [setList_lists_of_ne a hqq] at hmem
      exact .inl hmem
  refine ⟨fun q' h hmem ↦ ?_, fun q' q'' h hmem hmem' ↦ ?_, fun m hm ↦ ?_⟩
  · rw [setList_core]
    rcases hcases q' h hmem with hmem | ⟨-, rfl⟩
    · exact ha.live q' h hmem
    · exact hlive
  · rcases hcases q' h hmem with hold | ⟨hq', hh⟩
    · rcases hcases q'' h hmem' with hold' | ⟨-, hh'⟩
      · exact ha.apart q' q'' h hold hold'
      · exact absurd (hh' ▸ hold) (hn q')
    · rcases hcases q'' h hmem' with hold' | ⟨hq'', -⟩
      · exact absurd (hh ▸ hold') (hn q'')
      · rw [hq', hq'']
  · rw [setList_core] at hm
    exact a.waiting_setList q _ (ha.lock m hm)

/-- The first thread of a list is in no list after it has been taken off. -/
theorem Separate.floating (ha : a.Separate) (hq : q ≠ .eq) (hlist : a.lists q = n :: l)
    (hnodup : (n :: l).Nodup) (q' : QueueId) : n ∉ (a.setList q l).lists q' := by
  by_cases hqq : q' = q
  · subst hqq
    rw [setList_lists_self a hq]
    exact (List.nodup_cons.mp hnodup).1
  · rw [setList_lists_of_ne a hqq]
    intro hmem
    exact hqq (ha.apart q' q n hmem (by rw [hlist]; exact List.mem_cons_self))

end Ideal

/-! ### The relation -/

/-- The queues of the code describe the lists. -/
structure Linked (s : State) (a : Ideal) : Prop where
  core : s.core = a.core
  queue : ∀ q k, q ≠ .eq → s.queues q = some k → IsQueue s.next k (a.lists q)
  ready : s.queues .rq ≠ none
  waiting : ∀ w, s.queues (.wait w) = none ↔ a.waiting w = none
  tail : ∃ k, s.queues .eq = some k ∧ ∀ t, k.tail = some t → (a.core.tcb t).exited = true

namespace Linked

/-- The ready queue. -/
theorem exists_ready (hs : Linked s a) : ∃ k, s.queues .rq = some k ∧ IsQueue s.next k a.ready := by
  obtain ⟨k, hk⟩ := Option.ne_none_iff_exists'.mp hs.ready
  exact ⟨k, hk, hs.queue .rq k (by simp) hk⟩

/-- A wait queue. -/
theorem exists_waiting (hs : Linked s a) (hw : a.waiting w = some l) :
    ∃ k, s.queues (.wait w) = some k ∧ IsQueue s.next k l := by
  have hsome : s.queues (.wait w) ≠ none := fun h ↦ by simp [(hs.waiting w).mp h] at hw
  obtain ⟨k, hk⟩ := Option.ne_none_iff_exists'.mp hsome
  refine ⟨k, hk, ?_⟩
  have := hs.queue _ k (by simp) hk
  simpa [Ideal.lists, Ideal.waiters, hw] using this

theorem readyHead (hs : Linked s a) : s.readyHead = a.ready.head? := by
  obtain ⟨k, hk, hqueue⟩ := hs.exists_ready
  simp [State.readyHead, hk, hqueue.head_eq]

theorem threadId (hs : Linked s a) {old : ℕ} {rest : List ℕ} (hready : a.ready = old :: rest) :
    s.threadId = some (a.core.tcb old).id := by
  simp [State.threadId, hs.readyHead, hready, hs.core]

/-- The state apart from the queues is changed, and what has exited stays so. -/
theorem mapCore' (hs : Linked s a) {f : Core → Core}
    (hf : ∀ h, (a.core.tcb h).exited = true → ((f a.core).tcb h).exited = true) :
    Linked (s.mapCore f) (a.mapCore f) where
  core := by simp [State.mapCore, hs.core]
  queue q k hq hk := by
    rw [Ideal.mapCore_lists]
    exact hs.queue q k hq hk
  ready := hs.ready
  waiting := hs.waiting
  tail := by
    obtain ⟨k, hk, htail⟩ := hs.tail
    exact ⟨k, hk, fun t ht ↦ hf t (htail t ht)⟩

theorem mapCore (hs : Linked s a) {f : Core → Core} (hf : a.core.Frame (f a.core)) :
    Linked (s.mapCore f) (a.mapCore f) :=
  hs.mapCore' fun h hexited ↦ (hf.exited h).trans hexited

/-- Assumes: a change of one queue that leaves the pointers of all other nodes alone. -/
theorem change (hs : Linked s a) (ha : a.Separate) (hq : q ≠ .eq) (hsome : s.queues q ≠ none)
    {next' : ℕ → Option ℕ} {k' : Queue ℕ} (hnew : IsQueue next' k' l)
    (hframe : ∀ g, g ∉ a.lists q → next' g = s.next g) :
    Linked { s with next := next', queues := Function.update s.queues q (some k') }
      (a.setList q l) where
  core := by rw [Ideal.setList_core]; exact hs.core
  queue q' k hq' hk := by
    dsimp only at hk ⊢
    by_cases hqq : q' = q
    · subst hqq
      rw [Function.update_self] at hk
      obtain rfl := Option.some.inj hk
      rwa [Ideal.setList_lists_self a hq]
    · rw [Function.update_of_ne hqq] at hk
      rw [Ideal.setList_lists_of_ne a hqq]
      refine (hs.queue q' k hq' hk).congr fun g hg ↦ hframe g fun hmem ↦ ?_
      exact hqq (ha.apart q' q g hg hmem)
  ready := by
    dsimp only
    rw [Function.update_apply]
    split_ifs
    · simp
    · exact hs.ready
  waiting v := by
    dsimp only
    rw [Function.update_apply]
    split_ifs with hv
    · subst hv
      simp [Ideal.setList]
    · rw [hs.waiting v]
      cases q with
      | rq => rfl
      | eq => rfl
      | wait u =>
        have huv : v ≠ u := fun heq ↦ hv (by rw [heq])
        simp [Ideal.setList, Function.update_of_ne huv]
  tail := by
    rw [Ideal.setList_core]
    obtain ⟨k, hk, htail⟩ := hs.tail
    exact ⟨k, by dsimp only; rw [Function.update_of_ne hq.symm, hk], htail⟩

/-- `pop_queue`. -/
theorem popQueue (hs : Linked s a) (ha : a.Separate) (hq : q ≠ .eq) (hsome : s.queues q ≠ none)
    (hlist : a.lists q = n :: l) :
    ∃ t, s.popQueue q = some (n, t) ∧ Linked t (a.setList q l) ∧ t.next n = none ∧
      (a.setList q l).Separate ∧ ∀ q', n ∉ (a.setList q l).lists q' := by
  obtain ⟨k, hk⟩ := Option.ne_none_iff_exists'.mp hsome
  have hqueue := hs.queue q k hq hk
  rw [hlist] at hqueue
  obtain ⟨k', hpop, hqueue'⟩ := hqueue.pop
  refine ⟨_, ?_, hs.change ha hq hsome hqueue' fun g hg ↦ ?_, ?_, ?_, ?_⟩
  · simp only [State.popQueue, hk, Option.bind_eq_bind, Option.bind_some, hpop]
  · exact Function.update_of_ne (fun heq ↦ hg (by rw [hlist, heq]; exact List.mem_cons_self)) ..
  · exact Function.update_self ..
  · exact ha.shrink hq fun g hg ↦ by rw [hlist]; exact List.mem_cons_of_mem _ hg
  · exact ha.floating hq hlist hqueue.nodup

/-- `append_node_to_queue`, of a node that is in no queue. -/
theorem appendNodeToQueue (hs : Linked s a) (ha : a.Separate) (hq : q ≠ .eq)
    (hsome : s.queues q ≠ none) (hn : n ∉ a.lists q) (hnull : s.next n = none) :
    ∃ t, s.appendNodeToQueue q n = some t ∧ Linked t (a.setList q (a.lists q ++ [n])) ∧
      t.core = s.core := by
  obtain ⟨k, hk⟩ := Option.ne_none_iff_exists'.mp hsome
  obtain ⟨next', k', happend, hqueue', hframe⟩ := (hs.queue q k hq hk).append hn hnull
  refine ⟨_, ?_, hs.change ha hq hsome hqueue' hframe, rfl⟩
  simp only [State.appendNodeToQueue, hk, Option.bind_eq_bind, Option.bind_some, happend]

/-- `append_node_to_queue` to the exit queue, of a node that has exited and is in no other queue. -/
theorem appendExit (hs : Linked s a) (ha : a.Separate) (hn : (a.core.tcb n).exited = true)
    (happend : s.appendNodeToQueue .eq n = some t) : Linked t a ∧ t.core = s.core := by
  obtain ⟨k, hk, htail⟩ := hs.tail
  obtain ⟨next', k', hlink, rfl⟩ : ∃ next' k',
      Library.LinkedQueue.append s.next k n = some (next', k') ∧ t =
        { s with next := next', queues := Function.update s.queues .eq (some k') } := by
    simp only [State.appendNodeToQueue, hk, Option.bind_eq_bind, Option.bind_some,
      Option.bind_eq_some_iff] at happend
    obtain ⟨⟨next', k'⟩, hlink, heq⟩ := happend
    exact ⟨next', k', hlink, (Option.some.inj heq).symm⟩
  have hnew : k'.tail = some n := by
    rw [Library.LinkedQueue.append] at hlink
    split at hlink
    · obtain ⟨-, rfl⟩ := Prod.mk.inj (Option.some.inj hlink)
      rfl
    · obtain ⟨m, -, heq⟩ := Option.bind_eq_some_iff.mp hlink
      obtain ⟨-, rfl⟩ := Prod.mk.inj (Option.some.inj heq)
      rfl
  -- The node that is written to, if any, is the old tail, and that is in no other queue.
  have hframe : ∀ g, (a.core.tcb g).exited = false → next' g = s.next g := by
    intro g hg
    rw [Library.LinkedQueue.append] at hlink
    split at hlink
    · obtain ⟨rfl, -⟩ := Prod.mk.inj (Option.some.inj hlink)
      rfl
    · obtain ⟨m, hm, heq⟩ := Option.bind_eq_some_iff.mp hlink
      obtain ⟨rfl, -⟩ := Prod.mk.inj (Option.some.inj heq)
      refine Function.update_of_ne (fun hgm ↦ ?_) ..
      rw [hgm, htail m hm] at hg
      cases hg
  refine ⟨⟨hs.core, fun q k hq hk ↦ ?_, ?_, fun v ↦ ?_, k', by simp, ?_⟩, rfl⟩
  · dsimp only at hk ⊢
    rw [Function.update_of_ne hq] at hk
    exact (hs.queue q k hq hk).congr fun g hg ↦ hframe g (ha.live q g hg).2
  · dsimp only
    rw [Function.update_of_ne (by simp)]
    exact hs.ready
  · dsimp only
    rw [Function.update_of_ne (by simp)]
    exact hs.waiting v
  · intro m hm
    rw [hnew] at hm
    rwa [← Option.some.inj hm]

/-- No list has more threads than have been allocated. -/
theorem length_le (hs : Linked s a) (ha : a.Separate) (hq : q ≠ .eq) (hsome : s.queues q ≠ none) :
    (a.lists q).length ≤ a.core.allocated := by
  obtain ⟨k, hk⟩ := Option.ne_none_iff_exists'.mp hsome
  have hsub : a.lists q ⊆ List.range a.core.allocated := fun g hg ↦
    List.mem_range.mpr (ha.live q g hg).1
  simpa using (List.subperm_of_subset (hs.queue q k hq hk).nodup hsub).length_le

/-- The ready threads. -/
theorem ready_list (hs : Linked s a) : s.Ready a.ready := hs.exists_ready

/-- The ready queue is put in another order. -/
theorem reorders (hs : Linked s a) (ha : a.Separate) (ht : s.Reorders t a.ready l) :
    Linked t (a.setList .rq l) := by
  obtain ⟨next, k, rfl, hqueue, hframe⟩ := ht
  exact hs.change ha (by simp) hs.ready hqueue hframe

end Linked

/-! ### Waking threads and destroying queues -/

/-- The scheduler after the first of the waiting threads has been woken. -/
def Ideal.wakeOne (a : Ideal) (w : WaitQueue) (h : ℕ) (l : List ℕ) : Ideal :=
  ((a.setList (.wait w) l).setList .rq (a.ready ++ [h])).mapCore (·.wake w h)

/-- One round of the loop of `thread_wakeup`. -/
theorem Linked.wakeOne (hs : Linked s a) (ha : a.Separate) (hw : a.waiting w = some (h :: l)) :
    ∃ t u, s.popQueue (.wait w) = some (h, t) ∧
      (t.mapCore (·.wake w h)).appendNodeToQueue .rq h = some u ∧
      Linked u (a.wakeOne w h l) ∧ (a.wakeOne w h l).Separate := by
  have hlist : a.lists (.wait w) = h :: l := by simp [Ideal.lists, Ideal.waiters, hw]
  have hsome : s.queues (.wait w) ≠ none := fun hnone ↦ by simp [(hs.waiting w).mp hnone] at hw
  obtain ⟨t, hpop, ht, hnull, hsep, hfloat⟩ := hs.popQueue ha (by simp) hsome hlist
  have hframe := (a.setList (.wait w) l).core.frame_wake w h
  have ht' := ht.mapCore (f := (·.wake w h)) hframe
  have hsep' := hsep.mapCore (f := (·.wake w h)) hframe
  have hfloat' : ∀ q, h ∉ ((a.setList (.wait w) l).mapCore (·.wake w h)).lists q := fun q ↦ by
    rw [Ideal.mapCore_lists]
    exact hfloat q
  obtain ⟨u, happend, hu, -⟩ :=
    ht'.appendNodeToQueue hsep' (q := .rq) (by simp) ht'.ready (hfloat' .rq) hnull
  refine ⟨t, u, hpop, happend, hu, hsep'.add (q := .rq) (by simp) hfloat' ?_⟩
  have hlive := ha.live (.wait w) h (by rw [hlist]; exact List.mem_cons_self)
  rw [Ideal.mapCore_core, hframe.allocated, hframe.exited, Ideal.setList_core]
  exact hlive

/-- Waking one thread and then others is waking them all. -/
theorem Ideal.wakeOne_wakeAll (a : Ideal) (w : WaitQueue) (l kept more : List ℕ) (h g : ℕ) :
    (((a.wakeOne w h l).setList (.wait w) kept).setList .rq
      ((a.wakeOne w h l).ready ++ g :: more)).mapCore (·.wakeAll w (g :: more)) =
    ((a.setList (.wait w) kept).setList .rq (a.ready ++ h :: g :: more)).mapCore
      (·.wakeAll w (h :: g :: more)) := by
  simp [Ideal.wakeOne, Ideal.setList, Ideal.mapCore, Core.wakeAll, Function.update_idem]

/-- The loop of `thread_wakeup` moves the first thread, or all of them. -/
theorem Linked.wakeupLoop (hs : Linked s a) (ha : a.Separate) (hw : a.waiting w = some (h :: l))
    (all : Bool) {fuel : ℕ} (hfuel : l.length < fuel) :
    ∃ more kept t, l = more ++ kept ∧ (all = false → more = []) ∧ (all = true → kept = []) ∧
      State.wakeupLoop w all fuel s = some (t, more.length + 1) ∧
      Linked t (((a.setList (.wait w) kept).setList .rq (a.ready ++ h :: more)).mapCore
        (·.wakeAll w (h :: more))) ∧
      (((a.setList (.wait w) kept).setList .rq (a.ready ++ h :: more)).mapCore
        (·.wakeAll w (h :: more))).Separate := by
  induction l generalizing s a h fuel with
  | nil =>
    obtain ⟨fuel, rfl⟩ := Nat.exists_eq_succ_of_ne_zero (Nat.ne_of_gt hfuel)
    obtain ⟨t, u, hpop, happend, hu, hsep⟩ := hs.wakeOne ha hw
    have hw' : (a.wakeOne w h []).waiting w = some [] := by simp [Ideal.wakeOne, Ideal.setList]
    obtain ⟨k, hk, hqueue⟩ := hu.exists_waiting hw'
    have hhead : k.head = none := hqueue.path
    refine ⟨[], [], u, rfl, fun _ ↦ rfl, fun _ ↦ rfl, ?_, hu, hsep⟩
    simp [State.wakeupLoop, hpop, happend, hk, hhead]
  | cons g l ih =>
    obtain ⟨fuel, rfl⟩ := Nat.exists_eq_succ_of_ne_zero (Nat.ne_of_gt (Nat.zero_lt_of_lt hfuel))
    obtain ⟨t, u, hpop, happend, hu, hsep⟩ := hs.wakeOne ha hw
    have hw' : (a.wakeOne w h (g :: l)).waiting w = some (g :: l) := by
      simp [Ideal.wakeOne, Ideal.setList]
    obtain ⟨k, hk, hqueue⟩ := hu.exists_waiting hw'
    have hhead : k.head = some g := hqueue.path.1
    cases all with
    | false =>
      refine ⟨[], g :: l, u, rfl, fun _ ↦ rfl, by simp, ?_, hu, hsep⟩
      simp [State.wakeupLoop, hpop, happend, hk]
    | true =>
      obtain ⟨more, kept, v, hl, -, hkept, hloop, hv, hsep'⟩ :=
        ih hu hsep hw' (by simpa using hfuel)
      rw [Ideal.wakeOne_wakeAll] at hv hsep'
      refine ⟨g :: more, kept, v, by rw [hl, List.cons_append], by simp, hkept, ?_, hv, hsep'⟩
      simp [State.wakeupLoop, hpop, happend, hk, hhead, hloop]

/-- `thread_wakeup` when no thread waits. -/
theorem Linked.threadWakeup_nil (hs : Linked s a) (hw : a.waiters w = []) (all : Bool) :
    s.threadWakeup w all = some (s, 0) := by
  cases hwait : a.waiting w with
  | none => simp [State.threadWakeup, (hs.waiting w).mpr hwait]
  | some l =>
    obtain ⟨k, hk, hqueue⟩ := hs.exists_waiting hwait
    have hsize : k.size = 0 := by
      have hl : l = [] := by simpa [Ideal.waiters, hwait] using hw
      rw [hqueue.size, hl]
      rfl
    simp [State.threadWakeup, hk, hsize]

/-- `thread_wakeup` when a thread waits. -/
theorem Linked.threadWakeup_cons (hs : Linked s a) (ha : a.Separate)
    (hw : a.waiting w = some (h :: l)) (all : Bool) :
    ∃ more kept t, l = more ++ kept ∧ (all = false → more = []) ∧ (all = true → kept = []) ∧
      s.threadWakeup w all = some (t, more.length + 1) ∧
      Linked t (((a.setList (.wait w) kept).setList .rq (a.ready ++ h :: more)).mapCore
        (·.wakeAll w (h :: more))) ∧
      (((a.setList (.wait w) kept).setList .rq (a.ready ++ h :: more)).mapCore
        (·.wakeAll w (h :: more))).Separate := by
  obtain ⟨k, hk, hqueue⟩ := hs.exists_waiting hw
  have hlist : a.lists (.wait w) = h :: l := by simp [Ideal.lists, Ideal.waiters, hw]
  have hlength := hs.length_le ha (q := .wait w) (by simp) (by simp [hk])
  have hsize : k.size ≠ 0 := by
    rw [hqueue.size, List.length_cons]
    omega
  rw [hlist, List.length_cons, ← hs.core] at hlength
  have hwakeup : s.threadWakeup w all = State.wakeupLoop w all (s.core.allocated + 1) s := by
    simp [State.threadWakeup, hk, hsize]
  rw [hwakeup]
  exact hs.wakeupLoop ha hw all (by omega)

/-- `thread_wakeup` of all threads that wait. -/
theorem Linked.threadWakeup_all (hs : Linked s a) (ha : a.Separate) (hw : a.waiting w ≠ none) :
    ∃ t count, s.threadWakeup w true = some (t, count) ∧
      Linked t (((a.setList (.wait w) []).setList .rq (a.ready ++ a.waiters w)).mapCore
        (·.wakeAll w (a.waiters w))) ∧
      (((a.setList (.wait w) []).setList .rq (a.ready ++ a.waiters w)).mapCore
        (·.wakeAll w (a.waiters w))).Separate := by
  obtain ⟨l, hl⟩ := Option.ne_none_iff_exists'.mp hw
  have hwaiters : a.waiters w = l := by simp [Ideal.waiters, hl]
  cases l with
  | nil =>
    refine ⟨s, 0, hs.threadWakeup_nil hwaiters true, ?_⟩
    have hsame : ((a.setList (.wait w) []).setList .rq (a.ready ++ a.waiters w)).mapCore
        (·.wakeAll w (a.waiters w)) = a := by
      simp [hwaiters, Ideal.setList, Ideal.mapCore, Core.wakeAll, ← hl]
    rw [hsame]
    exact ⟨hs, ha⟩
  | cons h l =>
    obtain ⟨more, kept, t, hmore, -, hkept, hwakeup, ht, hsep⟩ :=
      hs.threadWakeup_cons ha hl true
    rw [hkept rfl, List.append_nil] at hmore
    subst hmore
    rw [hkept rfl] at ht hsep
    rw [hwaiters]
    exact ⟨t, _, hwakeup, ht, hsep⟩

/-- `clear_queue` changes nothing but its queue and the log. -/
theorem State.clearStep_frame {pc : ClearPc} {pc' : Option ClearPc}
    (hstep : s.clearStep q pc = some (t, pc')) :
    t.core = s.core ∧ t.next = s.next ∧ (∀ q' ≠ q, t.queues q' = s.queues q') ∧
      ∃ k k', s.queues q = some k ∧ t.queues q = some k' ∧
        (k'.tail = k.tail ∨ k'.tail = none) := by
  cases hk : s.queues q with
  | none => cases pc <;> simp [clearStep, hk] at hstep
  | some k =>
    cases pc with
    | next =>
      simp only [clearStep, hk, Option.bind_eq_bind, Option.bind_some,
        Option.bind_eq_some_iff] at hstep
      obtain ⟨h, -, heq⟩ := hstep
      obtain ⟨rfl, -⟩ := Prod.mk.inj (Option.some.inj heq)
      exact ⟨rfl, rfl, fun _ _ ↦ rfl, k, k, rfl, hk, .inl rfl⟩
    | free n =>
      simp only [clearStep, hk, Option.bind_eq_bind, Option.bind_some] at hstep
      split at hstep <;> obtain ⟨rfl, -⟩ := Prod.mk.inj (Option.some.inj hstep) <;>
        exact ⟨rfl, rfl, fun _ _ ↦ rfl, k, k, rfl, hk, .inl rfl⟩
    | test =>
      simp only [clearStep, hk, Option.bind_eq_bind, Option.bind_some] at hstep
      obtain ⟨rfl, -⟩ := Prod.mk.inj (Option.some.inj hstep)
      exact ⟨rfl, rfl, fun _ _ ↦ rfl, k, k, rfl, hk, .inl rfl⟩
    | _ =>
      simp only [clearStep, hk, Option.bind_eq_bind, Option.bind_some] at hstep
      obtain ⟨rfl, -⟩ := Prod.mk.inj (Option.some.inj hstep)
      refine ⟨rfl, rfl, fun q' hq' ↦ Function.update_of_ne hq' .., k, _, rfl,
        Function.update_self .., ?_⟩
      simp

/-- `clear_queue` changes nothing but its queue and the log. -/
theorem State.clearQueue_frame {fuel : ℕ} {pc : ClearPc}
    (hclear : State.clearQueue q fuel pc s = some t) :
    t.core = s.core ∧ t.next = s.next ∧ ∀ q' ≠ q, t.queues q' = s.queues q' := by
  induction fuel generalizing s pc with
  | zero => cases hclear
  | succ fuel ih =>
    rw [clearQueue, Option.bind_eq_bind, Option.bind_eq_some_iff] at hclear
    obtain ⟨⟨u, pc'⟩, hstep, hrest⟩ := hclear
    obtain ⟨hcore, hnext, hqueues, -⟩ := State.clearStep_frame hstep
    cases pc' with
    | none =>
      obtain rfl := Option.some.inj hrest
      exact ⟨hcore, hnext, hqueues⟩
    | some pc' =>
      obtain ⟨hcore', hnext', hqueues'⟩ := ih hrest
      exact ⟨hcore'.trans hcore, hnext'.trans hnext,
        fun q' hq' ↦ (hqueues' q' hq').trans (hqueues q' hq')⟩

/-- A wait queue is destroyed. -/
theorem Linked.waitQueueDestroy (hs : Linked s a) (hdestroy : s.waitQueueDestroy w = some t) :
    Linked t (a.dropQueue w) := by
  obtain ⟨hcore, hnext, hqueues, hnone⟩ : t.core = s.core ∧ t.next = s.next ∧
      (∀ q' ≠ .wait w, t.queues q' = s.queues q') ∧ t.queues (.wait w) = none := by
    rw [State.waitQueueDestroy] at hdestroy
    split at hdestroy
    · rename_i hnone
      obtain rfl := Option.some.inj hdestroy
      exact ⟨rfl, rfl, fun _ _ ↦ rfl, hnone⟩
    · obtain ⟨u, hclear, heq⟩ := Option.bind_eq_some_iff.mp hdestroy
      obtain rfl := Option.some.inj heq
      obtain ⟨hcore, hnext, hqueues⟩ := State.clearQueue_frame hclear
      refine ⟨hcore, hnext, fun q' hq' ↦ ?_, Function.update_self ..⟩
      dsimp only
      rw [Function.update_of_ne hq', hqueues q' hq']
  refine ⟨by rw [hcore, hs.core, Ideal.dropQueue_core], fun q k hq hk ↦ ?_, ?_, fun v ↦ ?_, ?_⟩
  · by_cases hqw : q = .wait w
    · rw [hqw, hnone] at hk
      cases hk
    · rw [hqueues q hqw] at hk
      rw [hnext, Ideal.dropQueue_lists_of_ne a hqw]
      exact hs.queue q k hq hk
  · rw [hqueues .rq (by simp)]
    exact hs.ready
  · by_cases hvw : v = w
    · subst hvw
      simp [hnone, Ideal.dropQueue]
    · rw [hqueues _ (by simpa using hvw), hs.waiting v]
      simp [Ideal.dropQueue, Function.update_of_ne hvw]
  · rw [hqueues .eq (by simp), Ideal.dropQueue_core]
    exact hs.tail

/-- A wait queue is removed. -/
theorem Ideal.Separate.dropQueue (ha : a.Separate)
    (hlock : ∀ l, w = .lock l → a.core.locks l = none) :
    (a.dropQueue w).Separate := by
  have hsub : ∀ q h, h ∈ (a.dropQueue w).lists q → h ∈ a.lists q := by
    intro q h hmem
    by_cases hq : q = .wait w
    · rw [hq, Ideal.dropQueue_lists_self] at hmem
      cases hmem
    · rwa [Ideal.dropQueue_lists_of_ne a hq] at hmem
  refine ⟨fun q h hmem ↦ ha.live q h (hsub q h hmem),
    fun q q' h hmem hmem' ↦ ha.apart q q' h (hsub q h hmem) (hsub q' h hmem'), fun l hl ↦ ?_⟩
  have hne : .lock l ≠ w := fun heq ↦ hl (hlock l heq.symm)
  simp only [Ideal.dropQueue, Function.update_of_ne hne]
  exact ha.lock l hl

/-- A wait queue is created. -/
theorem Linked.waitQueueCreate (hs : Linked s a) (w : WaitQueue) :
    Linked (s.waitQueueCreate w) (a.setList (.wait w) []) := by
  refine ⟨by simpa [State.waitQueueCreate] using hs.core, fun q k hq hk ↦ ?_, ?_, fun v ↦ ?_, ?_⟩
  · simp only [State.waitQueueCreate] at hk ⊢
    by_cases hqw : q = .wait w
    · subst hqw
      rw [Function.update_self] at hk
      obtain rfl := Option.some.inj hk
      rw [Ideal.setList_lists_self a (by simp)]
      exact IsQueue.empty
    · rw [Function.update_of_ne hqw] at hk
      rw [Ideal.setList_lists_of_ne a hqw]
      exact hs.queue q k hq hk
  · simpa [State.waitQueueCreate] using hs.ready
  · simp only [State.waitQueueCreate, Ideal.setList, Function.update_apply, QueueId.wait.injEq]
    split_ifs
    · simp
    · exact hs.waiting v
  · simpa [State.waitQueueCreate] using hs.tail

/-! ### The statements -/

namespace Linked

/-- There is a running thread wherever the head of the ready queue is read. -/
theorem ready_of_threadId (hs : Linked s a) {id : ℕ} (hid : s.threadId = some id) :
    ∃ old rest, a.ready = old :: rest ∧ (a.core.tcb old).id = id := by
  cases hready : a.ready with
  | nil => simp [State.threadId, hs.readyHead, hready] at hid
  | cons old rest =>
    rw [hs.threadId hready, Option.some.injEq] at hid
    exact ⟨old, rest, rfl, hid⟩

theorem threadYield (hs : Linked s a) (ha : a.Separate) {want : ℤ}
    (hexec : s.threadYield want = some t) : ∃ b, a.Executes (.yieldTo want) b ∧ Linked t b := by
  obtain ⟨k, hk, hqueue⟩ := hs.exists_ready
  cases hready : a.ready with
  | nil =>
    have hhead : k.head = none := by rw [hqueue.head_eq, hready, List.head?_nil]
    simp [State.threadYield, hk, hhead] at hexec
  | cons old rest =>
    have hlength := hs.length_le ha (q := .rq) (by simp) hs.ready
    rw [Ideal.lists, hready, List.length_cons, ← hs.core] at hlength
    have hlist := hs.ready_list
    rw [hready] at hlist
    obtain ⟨t', hexec', hyields⟩ := State.threadYield_spec hlist (Nat.le_of_succ_le hlength) want
    obtain rfl := Option.some.inj (hexec'.symm.trans hexec)
    cases hyields with
    | alone hrest =>
      subst hrest
      exact ⟨_, .yieldNone hready, hs.mapCore (Core.frame_setRet _ _)⟩
    | self hany hwant =>
      rw [hs.core] at hwant
      exact ⟨_, .yieldSelf hready hany hwant, hs.mapCore (Core.frame_yieldSwitch _ _ _)⟩
    | switch hrest hwant hreorders =>
      rw [hs.core] at hwant
      rw [← hready] at hreorders
      exact ⟨_, .yieldSwitch (by rw [hready, hrest]) hwant,
        (hs.reorders ha hreorders).mapCore (Core.frame_yieldSwitch _ _ _)⟩
    | invalid hany _ hwant =>
      rw [hs.core] at hwant
      exact ⟨_, .yieldInvalid hany (by rwa [hready]), hs.mapCore (Core.frame_setRet _ _)⟩

/-- The running thread goes to sleep while another is ready. -/
theorem threadSleep_run (hs : Linked s a) (ha : a.Separate) {old new : ℕ} {rest : List ℕ}
    (hready : a.ready = old :: new :: rest) (hw : a.waiting w = some l) :
    ∃ t, s.threadSleep w = some t ∧
      Linked t (((a.setList .rq (new :: rest)).setList (.wait w) (l ++ [old])).mapCore
        (·.sleepSwitch old new)) := by
  obtain ⟨kw, hkw, -⟩ := hs.exists_waiting hw
  obtain ⟨k, hk, hqueue⟩ := hs.exists_ready
  have hone : k.size ≠ 1 := by
    have hsize := hqueue.size
    rw [hready] at hsize
    simp only [List.length_cons] at hsize
    omega
  obtain ⟨u, hpop, hu, hnull, hsep, hfloat⟩ := hs.popQueue ha (q := .rq) (by simp) hs.ready hready
  have hlist : (a.setList .rq (new :: rest)).lists (.wait w) = l := by
    simp [Ideal.setList, Ideal.lists, Ideal.waiters, hw]
  have hsome : u.queues (.wait w) ≠ none := fun hnone ↦ by
    have := (hu.waiting w).mp hnone
    simp [Ideal.setList, hw] at this
  obtain ⟨v, happend, hv, -⟩ :=
    hu.appendNodeToQueue hsep (q := .wait w) (by simp) hsome (hfloat _) hnull
  rw [hlist] at hv
  have hnew : v.readyHead = some new := hv.readyHead
  refine ⟨_, ?_, hv.mapCore (Core.frame_sleepSwitch _ _ _)⟩
  simp only [State.threadSleep, hkw, hk, hone, hpop, happend, hnew, Option.bind_eq_bind,
    Option.bind_some, if_false]
  rfl

theorem threadSleep (hs : Linked s a) (ha : a.Separate) (hexec : s.threadSleep w = some t) :
    ∃ b, a.Executes (.sleepOn w) b ∧ Linked t b := by
  cases hw : a.waiting w with
  | none =>
    simp only [State.threadSleep, (hs.waiting w).mpr hw, Option.some.injEq] at hexec
    obtain rfl := hexec
    exact ⟨_, .sleepInvalid hw, hs.mapCore (Core.frame_setRet _ _)⟩
  | some l =>
    obtain ⟨kw, hkw, -⟩ := hs.exists_waiting hw
    obtain ⟨k, hk, hqueue⟩ := hs.exists_ready
    have hsize := hqueue.size
    rcases hready : a.ready with _ | ⟨old, _ | ⟨new, rest⟩⟩
    · have hhead : k.head = none := by rw [hqueue.head_eq, hready, List.head?_nil]
      rw [hready] at hsize
      simp [State.threadSleep, State.popQueue, Library.LinkedQueue.pop, hkw, hk, hhead,
        hsize] at hexec
    · rw [hready] at hsize
      have hone : k.size = 1 := hsize
      simp only [State.threadSleep, hkw, hk, hone, Option.bind_eq_bind, Option.bind_some, if_true,
        Option.some.injEq] at hexec
      obtain rfl := hexec
      exact ⟨_, .sleepNone hready hw, hs.mapCore (Core.frame_setRet _ _)⟩
    · obtain ⟨u, hsleep, hu⟩ := hs.threadSleep_run ha hready hw
      obtain rfl := Option.some.inj (hsleep.symm.trans hexec)
      exact ⟨_, .sleep hready hw, hu⟩

/-- The search of `thread_create` finds the least free id, if there is one. -/
theorem findFree_spec (c : Core) (i n : ℕ) :
    (c.findFree i n = none ∧ ∀ j, i ≤ j → j < i + n → c.threads j ≠ none) ∨
      ∃ id, c.findFree i n = some id ∧ i ≤ id ∧ id < i + n ∧ c.threads id = none ∧
        ∀ j, i ≤ j → j < id → c.threads j ≠ none := by
  induction n generalizing i with
  | zero => exact .inl ⟨rfl, fun j hle hlt ↦ absurd hlt (by omega)⟩
  | succ n ih =>
    by_cases hi : c.threads i = none
    · exact .inr ⟨i, by simp [Core.findFree, hi], le_refl i, by omega, hi,
        fun j hle hlt ↦ absurd hlt (by omega)⟩
    · have hnext : c.findFree i (n + 1) = c.findFree (i + 1) n := by simp [Core.findFree, hi]
      rw [hnext]
      have hcases : ∀ j, i ≤ j → j = i ∨ i + 1 ≤ j := fun j hle ↦ by omega
      rcases ih (i + 1) with ⟨hnone, hfull⟩ | ⟨id, hsome, hle, hlt, hfree, hleast⟩
      · refine .inl ⟨hnone, fun j hij hj ↦ ?_⟩
        rcases hcases j hij with rfl | hij'
        · exact hi
        · exact hfull j hij' (by omega)
      · refine .inr ⟨id, hsome, by omega, by omega, hfree, fun j hij hj ↦ ?_⟩
        rcases hcases j hij with rfl | hij'
        · exact hi
        · exact hleast j hij' hj

theorem threadCreate (hs : Linked s a) (ha : a.Separate) {memory : ℕ}
    (hnew : (a.core.tcb a.core.allocated).exited = false)
    (hexec : s.threadCreate memory = some t) : ∃ b, a.Executes .create b ∧ Linked t b := by
  rcases findFree_spec s.core 0 threadMaxThreads with
    ⟨hnone, hfull⟩ | ⟨id, hsome, -, hlt, hfree, hleast⟩
  · simp only [State.threadCreate, hnone, Option.some.injEq] at hexec
    obtain rfl := hexec
    rw [hs.core] at hfull
    exact ⟨_, .createNomore fun i hi ↦ hfull i (Nat.zero_le i) (by omega),
      hs.mapCore (Core.frame_setRet _ _)⟩
  · rw [hs.core] at hfree hleast
    by_cases hmemory : memory < 3
    · simp only [State.threadCreate, hsome, hmemory, if_true, Option.some.injEq] at hexec
      obtain rfl := hexec
      exact ⟨_, .createNomemory (by omega) hfree, hs.mapCore (Core.frame_setRet _ _)⟩
    · -- The node of the new thread is in no queue yet.
      have hfresh : ∀ q, a.core.allocated ∉ a.lists q := fun q hmem ↦
        absurd (ha.live q _ hmem).1 (lt_irrefl _)
      have hs' : Linked { s with next := Function.update s.next s.core.allocated none } a := by
        refine ⟨hs.core, fun q k hq hk ↦ ?_, hs.ready, hs.waiting, hs.tail⟩
        refine (hs.queue q k hq hk).congr fun g hg ↦ Function.update_of_ne (fun heq ↦ ?_) ..
        rw [heq, hs.core] at hg
        exact hfresh q hg
      obtain ⟨u, happend, hu, -⟩ := hs'.appendNodeToQueue ha (q := .rq) (n := s.core.allocated)
        (by simp) hs.ready (by rw [hs.core]; exact hfresh .rq) (by simp)
      simp only [State.threadCreate, hsome, hmemory, if_false, happend, Option.bind_eq_bind,
        Option.bind_some, Option.some.injEq] at hexec
      obtain rfl := hexec
      rw [hs.core] at hu
      refine ⟨_, .create (by omega) hfree fun i hi ↦ hleast i (Nat.zero_le i) hi, ?_⟩
      refine hu.mapCore' fun g hg ↦ ?_
      rw [(Core.frame_setRet _ _).exited]
      simp only [Core.addThread, Ideal.setList_core, Function.update_apply] at hg ⊢
      split_ifs with hga
      · rw [hga, hnew] at hg
        cases hg
      · exact hg

theorem threadKill (hs : Linked s a) {tid : ℤ} (hexec : s.threadKill tid = some t) :
    ∃ b, a.Executes (.kill tid) b ∧ Linked t b := by
  rw [State.threadKill, Option.bind_eq_bind, Option.bind_eq_some_iff] at hexec
  obtain ⟨id, hid, hexec⟩ := hexec
  obtain ⟨old, rest, hready, rfl⟩ := hs.ready_of_threadId hid
  rw [hs.core] at hexec
  have hfail (hfails : tid = (a.core.tcb old).id ∨ tid < 0 ∨ (threadMaxThreads : ℤ) ≤ tid ∨
      a.core.threads tid.toNat = none) (ht : s.mapCore (·.setRet threadInvalid) = t) :
      ∃ b, a.Executes (.kill tid) b ∧ Linked t b :=
    ⟨_, .killFails hready hfails, ht ▸ hs.mapCore (Core.frame_setRet _ _)⟩
  split_ifs at hexec with hself hrange
  · exact hfail (.inl hself) (Option.some.inj hexec)
  · exact hfail (.inr (hrange.imp_right .inl)) (Option.some.inj hexec)
  · rw [Option.bind_eq_bind, Option.bind_eq_some_iff] at hexec
    obtain ⟨found, hat, hexec⟩ := hexec
    obtain ⟨htid, rfl⟩ := a.core.threadAt_eq_some.mp hat
    split at hexec
    · rename_i hnone
      exact hfail (.inr (.inr (.inr hnone))) (Option.some.inj hexec)
    · rename_i h hsome
      obtain rfl := Option.some.inj hexec
      refine ⟨_, .kill hready hself htid hsome, hs.mapCore ?_⟩
      exact (Core.frame_setThreadStatus _ _ _).trans (Core.frame_setRet _ _)

theorem threadWait (hs : Linked s a) {tid : ℤ} {memory : ℕ}
    (hexec : s.threadWait tid memory = some t) :
    ∃ b, a.Executes (.waitCheck tid) b ∧ Linked t b := by
  rw [State.threadWait, Option.bind_eq_bind, Option.bind_eq_some_iff] at hexec
  obtain ⟨id, hid, hexec⟩ := hexec
  obtain ⟨old, rest, hready, rfl⟩ := hs.ready_of_threadId hid
  rw [hs.core] at hexec
  have hfail (hfails : tid < 0 ∨ tid = (a.core.tcb old).id ∨ a.core.threads tid.toNat = none)
      (ht : s.mapCore (·.setRet threadInvalid) = t) :
      ∃ b, a.Executes (.waitCheck tid) b ∧ Linked t b :=
    ⟨_, .waitFails hready hfails, ht ▸ hs.mapCore (Core.frame_setRet _ _)⟩
  by_cases hself : tid < 0 ∨ tid = (a.core.tcb old).id
  · rw [if_pos hself] at hexec
    exact hfail (hself.imp_right .inl) (Option.some.inj hexec)
  rw [if_neg hself] at hexec
  rw [Option.bind_eq_bind, Option.bind_eq_some_iff] at hexec
  obtain ⟨found, hat, hexec⟩ := hexec
  obtain ⟨htid, rfl⟩ := a.core.threadAt_eq_some.mp hat
  split at hexec
  · rename_i hnone
    exact hfail (.inr (.inr hnone)) (Option.some.inj hexec)
  · rename_i h hsome
    refine ⟨_, .wait hready (fun heq ↦ hself (.inr heq)) htid hsome, ?_⟩
    cases hw : a.waiting (.thread tid.toNat) with
    | some l =>
      obtain ⟨k, hk, -⟩ := hs.exists_waiting hw
      simp only [hk, Option.some.injEq] at hexec
      obtain rfl := hexec
      have hsame : a.setList (.wait (.thread tid.toNat)) (a.waiters (.thread tid.toNat)) = a := by
        rw [Ideal.waiters, hw, Option.getD_some, Ideal.setList, ← hw, Function.update_eq_self]
      rw [hsame]
      exact hs.mapCore (Core.frame_push _ _)
    | none =>
      simp only [(hs.waiting _).mpr hw] at hexec
      split_ifs at hexec
      obtain rfl := Option.some.inj hexec
      have hwaiters : a.waiters (.thread tid.toNat) = [] := by simp [Ideal.waiters, hw]
      rw [hwaiters]
      exact (hs.waitQueueCreate _).mapCore (Core.frame_push _ _)

/-- `thread_wakeup` of all threads that wait, if the queue exists. -/
theorem threadWakeup_waiters (hs : Linked s a) (ha : a.Separate) (w : WaitQueue) :
    ∃ t count b, s.threadWakeup w true = some (t, count) ∧ Linked t b ∧ b.Separate ∧
      b.core = a.core.wakeAll w (a.waiters w) ∧ b.ready = a.ready ++ a.waiters w ∧
      ∀ v ≠ w, b.waiting v = a.waiting v := by
  cases hw : a.waiting w with
  | none =>
    have hwaiters : a.waiters w = [] := by simp [Ideal.waiters, hw]
    rw [hwaiters, List.append_nil]
    exact ⟨s, 0, a, hs.threadWakeup_nil hwaiters true, hs, ha, rfl, rfl, fun _ _ ↦ rfl⟩
  | some l =>
    obtain ⟨t, count, hwakeup, ht, hsep⟩ := hs.threadWakeup_all ha (w := w) (by simp [hw])
    refine ⟨t, count, _, hwakeup, ht, hsep, rfl, rfl, fun v hv ↦ ?_⟩
    simp [Ideal.setList, Function.update_of_ne hv]

theorem threadExit (hs : Linked s a) (ha : a.Separate) (hexec : s.threadExit = some t) :
    t.core.halted = true ∨ ∃ b, a.Executes .exit b ∧ Linked t b := by
  rw [State.threadExit, Option.bind_eq_bind, Option.bind_eq_some_iff] at hexec
  obtain ⟨id, hid, hexec⟩ := hexec
  obtain ⟨old, rest, hready, rfl⟩ := hs.ready_of_threadId hid
  set f : Core → Core := fun c ↦
    { c with flag := false, threads := Function.update c.threads (a.core.tcb old).id none } with hf
  have hs₁ : Linked (s.mapCore f) (a.mapCore f) := hs.mapCore' fun _ hexited ↦ hexited
  have ha₁ : (a.mapCore f).Separate :=
    ha.mapCore' (Nat.le_refl _) (fun _ _ _ ↦ rfl) fun _ hlock ↦ hlock
  obtain ⟨s₂, count, a₂, hwakeup, hs₂, ha₂, hcore, hready₂, hwaiting⟩ :=
    hs₁.threadWakeup_waiters ha₁ (.thread (a.core.tcb old).id)
  dsimp only at hexec
  rw [hwakeup, Option.bind_eq_bind, Option.bind_some, Option.bind_eq_bind,
    Option.bind_eq_some_iff] at hexec
  obtain ⟨s₃, hdestroy, hexec⟩ := hexec
  have hs₃ := hs₂.waitQueueDestroy hdestroy
  have ha₃ := ha₂.dropQueue (w := .thread (a.core.tcb old).id) (by simp)
  set waiters := a.waiters (.thread (a.core.tcb old).id) with hwaiters
  have hready₃ : (a₂.dropQueue (.thread (a.core.tcb old).id)).lists .rq =
      old :: (rest ++ waiters) := by
    show a₂.ready = _
    rw [hready₂, Ideal.mapCore_ready, hready]
    rfl
  obtain ⟨s₄, hpop, hs₄, -, ha₄, hfloat⟩ := hs₃.popQueue ha₃ (by simp) hs₃.ready hready₃
  set a₄ := (a₂.dropQueue (.thread (a.core.tcb old).id)).setList .rq (rest ++ waiters) with ha₄def
  have hs₅ : Linked (s₄.mapCore (·.modify old fun t ↦ { t with exited := true }))
      (a₄.mapCore (·.modify old fun t ↦ { t with exited := true })) := by
    refine hs₄.mapCore' fun g hg ↦ ?_
    simp only [Core.modify, Function.update_apply]
    split_ifs
    · rfl
    · exact hg
  have ha₅ : (a₄.mapCore (·.modify old fun t ↦ { t with exited := true })).Separate := by
    refine ha₄.mapCore' (Nat.le_refl _) (fun q g hg ↦ ?_) fun _ hlock ↦ hlock
    have hne : g ≠ old := fun heq ↦ hfloat q (heq ▸ hg)
    simp [Core.modify, Function.update_of_ne hne]
  simp only [hpop, Option.bind_eq_bind, Option.bind_some] at hexec
  rw [hs₅.readyHead] at hexec
  cases hrest : rest ++ waiters with
  | nil =>
    left
    have hnil : (a₄.mapCore (·.modify old fun t ↦ { t with exited := true })).ready.head? =
        none := by
      simp [ha₄def, Ideal.setList, hrest]
    rw [hnil] at hexec
    obtain ⟨u, -, hexec⟩ := Option.bind_eq_some_iff.mp hexec
    obtain ⟨v, -, hexec⟩ := Option.bind_eq_some_iff.mp hexec
    obtain rfl := Option.some.inj hexec
    rfl
  | cons new rest' =>
    right
    have hcons : (a₄.mapCore (·.modify old fun t ↦ { t with exited := true })).ready.head? =
        some new := by
      simp [ha₄def, Ideal.setList, hrest]
    rw [hcons] at hexec
    obtain ⟨s₆, happend, hexec⟩ := Option.bind_eq_some_iff.mp hexec
    obtain ⟨hs₆, -⟩ := hs₅.appendExit ha₅ (n := old) (by simp [Core.modify]) happend
    rw [hs₆.readyHead, hcons] at hexec
    obtain rfl := Option.some.inj hexec
    refine ⟨_, .exit hready hrest, ?_⟩
    have hgoal := hs₆.mapCore (f := (·.setcontext new)) (Core.frame_setcontext _ _)
    have hsame : (a₄.mapCore (·.modify old fun t ↦ { t with exited := true })).mapCore
        (·.setcontext new) = ((a.setList .rq (new :: rest')).dropQueue
          (.thread (a.core.tcb old).id)).mapCore (·.exitSwitch old new waiters) := by
      simp only [ha₄def, Ideal.mapCore, Ideal.setList, Ideal.dropQueue, hcore, hrest,
        Core.exitSwitch, Ideal.mk.injEq]
      refine ⟨rfl, trivial, ?_⟩
      funext v
      simp only [Function.update_apply]
      split_ifs with hv
      · rfl
      · exact hwaiting v hv
    rwa [hsame] at hgoal

theorem lockDestroy (hs : Linked s a) {l : ℕ} (hexec : s.lockDestroy l = some t) :
    ∃ b, a.Executes (.lockDestroy l) b ∧ Linked t b := by
  rw [State.lockDestroy, Option.bind_eq_bind, Option.bind_eq_some_iff] at hexec
  obtain ⟨k, hk, hexec⟩ := hexec
  rw [hs.core] at hk
  split_ifs at hexec with hlocked
  obtain ⟨u, hdestroy, hexec⟩ := Option.bind_eq_some_iff.mp hexec
  obtain rfl := Option.some.inj hexec
  refine ⟨_, .lockDestroy hk (by simpa using hlocked), ?_⟩
  exact (hs.waitQueueDestroy hdestroy).mapCore' fun _ hexited ↦ hexited

theorem lockAcquire (hs : Linked s a) {l : ℕ} (hexec : s.lockAcquire l = some t) :
    ∃ b, a.Executes (.acquire l) b ∧ Linked t b := by
  rw [State.lockAcquire, Option.bind_eq_bind, Option.bind_eq_some_iff] at hexec
  obtain ⟨k, hk, hexec⟩ := hexec
  rw [hs.core] at hk
  split_ifs at hexec with hlocked
  · obtain rfl := Option.some.inj hexec
    exact ⟨_, .acquireBlocked hk hlocked, hs.mapCore (Core.frame_push _ _)⟩
  · obtain ⟨id, hid, hexec⟩ := Option.bind_eq_some_iff.mp hexec
    obtain ⟨old, rest, hready, rfl⟩ := hs.ready_of_threadId hid
    obtain rfl := Option.some.inj hexec
    refine ⟨_, .acquire hready hk (by simpa using hlocked), ?_⟩
    exact hs.mapCore' fun _ hexited ↦ hexited

/-- The assertion that the calling thread has the lock. -/
theorem holdsLock (hs : Linked s a) {l : ℕ} (hheld : s.holdsLock l = some true) :
    ∃ k old rest, a.ready = old :: rest ∧ a.core.locks l = some k ∧ k.locked = true ∧
      k.thread = (a.core.tcb old).id := by
  rw [State.holdsLock, Option.bind_eq_bind, Option.bind_eq_some_iff] at hheld
  obtain ⟨k, hk, hheld⟩ := hheld
  obtain ⟨id, hid, hheld⟩ := Option.bind_eq_some_iff.mp hheld
  obtain ⟨old, rest, hready, rfl⟩ := hs.ready_of_threadId hid
  rw [hs.core] at hk
  have hboth := Option.some.inj hheld
  rw [Bool.and_eq_true, decide_eq_true_eq] at hboth
  exact ⟨k, old, rest, hready, hk, hboth.1, hboth.2⟩

/-- A thread that has the lock frees it. -/
theorem lockRelease_run (hs : Linked s a) (ha : a.Separate) {l : ℕ}
    (hheld : s.holdsLock l = some true) :
    ∃ t b, s.lockRelease l = some t ∧ a.Executes (.release l) b ∧ Linked t b := by
  obtain ⟨k, old, rest, hready, hk, hlocked, hthread⟩ := hs.holdsLock hheld
  have hwaiting := ha.lock l (by simp [hk])
  set f : Core → Core := fun c ↦
    (c.setLock l (some { k with locked := false })).interruptsOff with hf
  have hframe : a.core.Frame (f a.core) :=
    (Core.frame_setLock a.core l hk).trans (Core.frame_interruptsOff _)
  obtain ⟨u, count, hwakeup, hu, -⟩ :=
    (hs.mapCore hframe).threadWakeup_all (ha.mapCore hframe) (w := .lock l) hwaiting
  refine ⟨u, _, ?_, .release hready hk hlocked hthread hwaiting, hu⟩
  simp only [State.lockRelease, hheld, hs.core, hk, Option.bind_eq_bind, Option.bind_some,
    if_true, ← hf, hwakeup]

theorem lockRelease (hs : Linked s a) (ha : a.Separate) {l : ℕ}
    (hexec : s.lockRelease l = some t) : ∃ b, a.Executes (.release l) b ∧ Linked t b := by
  have hheld : s.holdsLock l = some true := by
    rw [State.lockRelease, Option.bind_eq_bind, Option.bind_eq_some_iff] at hexec
    obtain ⟨k, -, hexec⟩ := hexec
    obtain ⟨held, hheld, hexec⟩ := Option.bind_eq_some_iff.mp hexec
    split_ifs at hexec with htrue
    rw [hheld, htrue]
  obtain ⟨u, b, hrelease, hb, hu⟩ := hs.lockRelease_run ha hheld
  obtain rfl := Option.some.inj (hrelease.symm.trans hexec)
  exact ⟨b, hb, hu⟩

theorem assertHeld (hs : Linked s a) {c l : ℕ} (hexec : s.assertHeld c l = some t) :
    ∃ b, a.Executes (.assertHeld c l) b ∧ Linked t b := by
  rw [State.assertHeld, Option.bind_eq_bind, Option.bind_eq_some_iff] at hexec
  obtain ⟨k, hk, hexec⟩ := hexec
  obtain ⟨held, hheld, hexec⟩ := Option.bind_eq_some_iff.mp hexec
  split_ifs at hexec with htrue
  subst htrue
  obtain rfl := Option.some.inj hexec
  obtain ⟨k', old, rest, hready, hk', hlocked, hthread⟩ := hs.holdsLock hheld
  refine ⟨_, .assertHeld hready (fun hnone ↦ ?_) hk' hlocked hthread, hs⟩
  rw [(hs.waiting _).mpr hnone] at hk
  cases hk

theorem cvDestroy (hs : Linked s a) {c : ℕ} (hexec : s.cvDestroy c = some t) :
    ∃ b, a.Executes (.cvDestroy c) b ∧ Linked t b := by
  rw [State.cvDestroy, Option.bind_eq_bind, Option.bind_eq_some_iff] at hexec
  obtain ⟨k, hk, hexec⟩ := hexec
  split_ifs at hexec with hsize
  have hne : a.waiting (.cv c) ≠ none := fun hnone ↦ by
    rw [(hs.waiting _).mpr hnone] at hk
    cases hk
  obtain ⟨l, hl⟩ := Option.ne_none_iff_exists'.mp hne
  obtain ⟨k', hk', hqueue⟩ := hs.exists_waiting hl
  rw [hk, Option.some.injEq] at hk'
  subst hk'
  have hnil : l = [] := by
    have := hqueue.size
    rw [hsize] at this
    exact List.length_eq_zero_iff.mp (by omega)
  subst hnil
  exact ⟨_, .cvDestroy hl, hs.waitQueueDestroy hexec⟩

theorem wakeup (hs : Linked s a) (ha : a.Separate) {all : Bool} {count : ℕ}
    (hexec : s.threadWakeup w all = some (t, count)) :
    ∃ b, a.Executes (.wakeup w all) b ∧ Linked (t.mapCore (·.setRet count)) b := by
  cases hw : a.waiters w with
  | nil =>
    rw [hs.threadWakeup_nil hw] at hexec
    obtain ⟨rfl, rfl⟩ := Prod.mk.inj (Option.some.inj hexec)
    exact ⟨_, .wakeupNone hw, hs.mapCore (Core.frame_setRet _ _)⟩
  | cons h l =>
    have hwaiting : a.waiting w = some (h :: l) := by
      cases hcases : a.waiting w with
      | none => simp [Ideal.waiters, hcases] at hw
      | some r => simpa [Ideal.waiters, hcases] using hw
    obtain ⟨more, kept, u, rfl, hmore, hkept, hwakeup, hu, -⟩ :=
      hs.threadWakeup_cons ha hwaiting all
    rw [hwakeup] at hexec
    obtain ⟨rfl, rfl⟩ := Prod.mk.inj (Option.some.inj hexec)
    exact ⟨_, .wakeup hwaiting hmore hkept, hu.mapCore (Core.frame_setRet _ _)⟩

theorem clear (hs : Linked s a) {pc : ClearPc} {pc' : Option ClearPc}
    (hstep : s.clearStep .eq pc = some (t, pc')) : Linked t a := by
  obtain ⟨hcore, hnext, hqueues, k, k', hk, hk', htail⟩ := State.clearStep_frame hstep
  refine ⟨hcore.trans hs.core, fun q j hq hj ↦ ?_, ?_, fun v ↦ ?_, k', hk', fun m hm ↦ ?_⟩
  · rw [hqueues q hq] at hj
    rw [hnext]
    exact hs.queue q j hq hj
  · rw [hqueues .rq (by simp)]
    exact hs.ready
  · rw [hqueues _ (by simp)]
    exact hs.waiting v
  · obtain ⟨j, hj, hold⟩ := hs.tail
    rw [hk, Option.some.injEq] at hj
    subst hj
    rcases htail with htail | htail
    · exact hold m (htail ▸ hm)
    · rw [htail] at hm
      cases hm

end Linked

/-! ### The simulation -/

open State (Move Memory)

/-- Assumes: no thread is in two lists, and the next handle has not been used. A statement of the
code ends the process or is a statement of the scheduler over lists. -/
theorem Linked.exec_refines (hs : Linked s a) (ha : a.Separate)
    (hnew : (a.core.tcb a.core.allocated).exited = false) {m : Memory} {i : Instr}
    (hexec : s.exec m i = some t) :
    t.core.halted = true ∨ ∃ b, a.Executes i b ∧ Linked t b := by
  cases i with
  | exit => exact hs.threadExit ha hexec
  | off =>
    obtain rfl := Option.some.inj hexec
    exact .inr ⟨_, .off, hs.mapCore (Core.frame_interruptsOff _)⟩
  | set =>
    obtain ⟨c, hset, rfl⟩ := Option.map_eq_some_iff.mp hexec
    rw [hs.core] at hset
    refine .inr ⟨_, .set hset, ?_⟩
    exact hs.mapCore (f := fun _ ↦ c) (Core.frame_interruptsSet hset)
  | on =>
    obtain rfl := Option.some.inj hexec
    exact .inr ⟨_, .on, hs.mapCore (Core.frame_flag _ true)⟩
  | sigreturn =>
    obtain rfl := Option.some.inj hexec
    exact .inr ⟨_, .sigreturn, hs.mapCore (Core.frame_flag _ true)⟩
  | create => exact .inr (hs.threadCreate ha hnew hexec)
  | yieldTo want => exact .inr (hs.threadYield ha hexec)
  | sleepOn w => exact .inr (hs.threadSleep ha hexec)
  | wakeup w all =>
    obtain ⟨⟨u, count⟩, hwakeup, heq⟩ := Option.bind_eq_some_iff.mp hexec
    obtain rfl := Option.some.inj heq
    exact .inr (hs.wakeup ha hwakeup)
  | kill tid => exact .inr (hs.threadKill hexec)
  | waitCheck tid => exact .inr (hs.threadWait hexec)
  | waitReturn tid =>
    obtain rfl := Option.some.inj hexec
    exact .inr ⟨_, .waitReturn, hs.mapCore (Core.frame_setRet _ _)⟩
  | checkExited =>
    obtain ⟨old, hold, hexec⟩ := Option.bind_eq_some_iff.mp hexec
    rw [hs.readyHead] at hold
    obtain ⟨rest, hready⟩ := List.head?_eq_some_iff.mp hold
    rw [hs.core] at hexec
    split_ifs at hexec with hstatus
    · obtain rfl := Option.some.inj hexec
      exact .inr ⟨_, .checkExits hready hstatus, hs.mapCore (Core.frame_abandon _)⟩
    · obtain rfl := Option.some.inj hexec
      exact .inr ⟨_, .checkPasses hready hstatus, hs⟩
  | setRunning =>
    obtain ⟨old, hold, hexec⟩ := Option.bind_eq_some_iff.mp hexec
    rw [hs.readyHead] at hold
    obtain ⟨rest, hready⟩ := List.head?_eq_some_iff.mp hold
    obtain rfl := Option.some.inj hexec
    exact .inr ⟨_, .setRunning hready, hs.mapCore (Core.frame_setThreadStatus _ _ _)⟩
  | clear pc =>
    obtain ⟨⟨u, pc'⟩, hclear, heq⟩ := Option.bind_eq_some_iff.mp hexec
    obtain rfl := Option.some.inj heq
    exact .inr ⟨_, .clear, (hs.clear hclear).mapCore (Core.frame_push _ _)⟩
  | lockCreate =>
    rw [State.exec, State.lockCreate] at hexec
    split_ifs at hexec
    obtain rfl := Option.some.inj hexec
    rw [hs.core]
    refine .inr ⟨_, @Ideal.Executes.lockCreate a m.left, ?_⟩
    refine (hs.waitQueueCreate (.lock a.core.objects)).mapCore' (f := fun c ↦
      ({ c.setLock a.core.objects (some ⟨false, m.left, 0⟩) with
        objects := a.core.objects + 1 }).setRet a.core.objects) fun g hg ↦ ?_
    rw [(Core.frame_setRet _ _).exited]
    exact hg
  | lockDestroy l => exact .inr (hs.lockDestroy hexec)
  | acquire l => exact .inr (hs.lockAcquire hexec)
  | release l => exact .inr (hs.lockRelease ha hexec)
  | cvCreate =>
    rw [State.exec, State.cvCreate] at hexec
    split_ifs at hexec
    obtain rfl := Option.some.inj hexec
    rw [hs.core]
    refine .inr ⟨_, .cvCreate, ?_⟩
    refine (hs.waitQueueCreate (.cv a.core.objects)).mapCore' (f := fun c ↦
      ({ c with objects := a.core.objects + 1 }).setRet a.core.objects) fun g hg ↦ ?_
    rw [(Core.frame_setRet _ _).exited]
    exact hg
  | cvDestroy c => exact .inr (hs.cvDestroy hexec)
  | assertHeld c l => exact .inr (hs.assertHeld hexec)
  | queueCreate =>
    rw [State.exec, State.queueCreate] at hexec
    split_ifs at hexec
    obtain rfl := Option.some.inj hexec
    rw [hs.core]
    refine .inr ⟨_, .queueCreate, ?_⟩
    refine (hs.waitQueueCreate (.user a.core.objects)).mapCore' (f := fun c ↦
      ({ c with objects := a.core.objects + 1 }).setRet a.core.objects) fun g hg ↦ ?_
    rw [(Core.frame_setRet _ _).exited]
    exact hg

/-- Assumes: no thread is in two lists, and the next handle has not been used. A move of the code
ends the process or is a move of the scheduler over lists. -/
theorem Linked.step_refines (hs : Linked s a) (ha : a.Separate)
    (hnew : (a.core.tcb a.core.allocated).exited = false) {m : Move} (hstep : s.step m = some t) :
    t.core.halted = true ∨ ∃ b, a.Transition m b ∧ Linked t b := by
  have hself : s.core.self = a.core.self := by rw [hs.core]
  cases m with
  | timer =>
    rw [State.step] at hstep
    split_ifs at hstep with hflag
    obtain rfl := Option.some.inj hstep
    rw [hs.core] at hflag
    exact .inr ⟨_, .timer hflag.1, hs.mapCore (Core.frame_interrupt _)⟩
  | call k =>
    rw [State.step] at hstep
    split_ifs at hstep with htodo
    obtain rfl := Option.some.inj hstep
    rw [hs.core] at htodo
    exact .inr ⟨_, .call htodo.1, hs.mapCore (Core.frame_begin _ _)⟩
  | interrupts enabled =>
    rw [State.step] at hstep
    split_ifs at hstep with htodo
    obtain rfl := Option.some.inj hstep
    rw [hs.core] at htodo
    exact .inr ⟨_, .interrupts htodo.1, hs.mapCore (Core.frame_flag _ _)⟩
  | instr m =>
    rw [State.step] at hstep
    split at hstep
    · cases hstep
    · rename_i i rest htodo
      split_ifs at hstep with hhalted
      obtain ⟨u, hexec, heq⟩ := Option.bind_eq_some_iff.mp hstep
      obtain rfl := Option.some.inj heq
      rw [hs.core] at hexec htodo
      have hframe : a.core.Frame
          (a.core.modify a.core.current fun t ↦ { t with todo := rest }) :=
        a.core.frame_modify _ (fun _ ↦ rfl) fun _ ↦ rfl
      have hpopped : (((a.mapCore (·.modify a.core.current fun t ↦
          { t with todo := rest })).core.tcb a.core.allocated)).exited = false :=
        (hframe.exited _).trans hnew
      rcases (hs.mapCore (f := (·.modify a.core.current fun t ↦ { t with todo := rest }))
        hframe).exec_refines (ha.mapCore hframe) hpopped hexec with hend | ⟨b, hb, hu⟩
      · exact .inl hend
      · rw [hs.core]
        exact .inr ⟨_, .instr htodo hb, hu.mapCore (Core.frame_finish _ _)⟩

end OperatingSystems.Threads
