import Mathlib.Data.List.Rotate
import OperatingSystems.Threads.Scheduler

/-!
# The queue operations implement lists

The helpers of `thread.c` on queues, used in any order on any number of queues (`QueueRun`). The
caller keeps the list of the nodes of each queue: it appends a node that is in no queue, pops a
queue that is not empty, and passes a node of the queue with the node before it where a node is to
be moved or removed. `State.Holds` says that the queues are these lists, that no node is in two of
them, and that the pointer of a node in none of them is null; each operation keeps it and does to
its list what its name says (`State.Holds.queueStep`).

The tail of an empty queue is not constrained: `pop_queue` leaves it stale. `size` is an integer
without bounds, since the library makes one node for each thread and there are at most
`THREAD_MAX_THREADS` threads.
-/

set_option autoImplicit false
set_option relaxedAutoImplicit false

namespace OperatingSystems.Threads

open OperatingSystems.Library.LinkedQueue (Queue IsQueue Path)

/-- `remove_from_queue`. -/
def State.removeFromQueue (s : State) (q : QueueId) (target : ℕ) (prev : Option ℕ) :
    Option State := do
  let k ← s.queues q
  if k.size = 1 then
    some { s with queues := Function.update s.queues q (some ⟨none, none, k.size - 1⟩) }
  else if k.head = some target then
    some { s with
      next := Function.update s.next target none
      queues := Function.update s.queues q (some ⟨s.next target, k.tail, k.size - 1⟩) }
  else do
    let p ← prev
    let (next, k) := Library.LinkedQueue.unlink s.next k p target
    some { s with next := next, queues := Function.update s.queues q (some k) }

/-- The calls of the queue operations. -/
inductive QueueCall
  | append (q : QueueId) (n : ℕ)
  | pop (q : QueueId)
  | moveHeadToEnd (q : QueueId)
  | moveToHead (q : QueueId) (target : ℕ) (prev : Option ℕ)
  | remove (q : QueueId) (target : ℕ) (prev : Option ℕ)

/-- Execute a call. -/
def State.queueStep (s : State) : QueueCall → Option State
  | .append q n => s.appendNodeToQueue q n
  | .pop q => (s.popQueue q).map Prod.snd
  | .moveHeadToEnd q => s.moveHeadToEnd q
  | .moveToHead q target prev => s.moveToHead q target prev
  | .remove q target prev => s.removeFromQueue q target prev

/-! ### What the operations are for -/

/-- The node is the first of the list, or `prev` is the node before it. -/
def Follows (l : List ℕ) (target : ℕ) (prev : Option ℕ) : Prop :=
  (∃ after, l = target :: after) ∨
    ∃ p before after, prev = some p ∧ l = before ++ p :: target :: after

namespace QueueCall

/-- What the caller sees to, with these lists in the queues of the state. -/
def Allowed (s : State) (lists : QueueId → List ℕ) : QueueCall → Prop
  | .append q n => s.queues q ≠ none ∧ ∀ q, n ∉ lists q
  | .pop q => lists q ≠ []
  | .moveHeadToEnd q => s.queues q ≠ none
  | .moveToHead q target prev => Follows (lists q) target prev
  | .remove q target prev => Follows (lists q) target prev

/-- The queue of a call. -/
def queue : QueueCall → QueueId
  | .append q _ | .pop q | .moveHeadToEnd q | .moveToHead q _ _ | .remove q _ _ => q

/-- What becomes of the list of its queue. -/
def effect (l : List ℕ) : QueueCall → List ℕ
  | .append _ n => l ++ [n]
  | .pop _ => l.tail
  | .moveHeadToEnd _ => l.rotate 1
  | .moveToHead _ target _ => target :: l.erase target
  | .remove _ target _ => l.erase target

/-- The lists after a call. -/
def result (lists : QueueId → List ℕ) (call : QueueCall) : QueueId → List ℕ :=
  Function.update lists call.queue (call.effect (lists call.queue))

end QueueCall

/-- The queues of the state are the lists. -/
structure State.Holds (s : State) (lists : QueueId → List ℕ) : Prop where
  queue : ∀ q k, s.queues q = some k → IsQueue s.next k (lists q)
  missing : ∀ q, s.queues q = none → lists q = []
  apart : ∀ q q' n, n ∈ lists q → n ∈ lists q' → q = q'
  loose : ∀ n, (∀ q, n ∉ lists q) → s.next n = none

/-- The lists after a run of allowed calls that starts from any lists. -/
inductive QueueRun : State → (QueueId → List ℕ) → Prop
  | start {s : State} {lists : QueueId → List ℕ} (hs : s.Holds lists) : QueueRun s lists
  | step {s t : State} {lists : QueueId → List ℕ} {call : QueueCall} (hrun : QueueRun s lists)
      (hallowed : call.Allowed s lists) (hstep : s.queueStep call = some t) :
    QueueRun t (call.result lists)

variable {s t : State} {lists : QueueId → List ℕ} {q : QueueId} {n target : ℕ} {prev : Option ℕ}
  {l : List ℕ} {k : Queue ℕ}

/-! ### The operations -/

/-- The list without a node that has a node before it. -/
theorem erase_middle {p : ℕ} {before after : List ℕ} (hbefore : target ∉ before)
    (hp : p ≠ target) : (before ++ p :: target :: after).erase target = before ++ p :: after := by
  rw [List.erase_append_right _ hbefore, List.erase_cons_tail (by simpa using hp),
    List.erase_cons_head]

namespace State.Holds

/-- Assumes: empty queues, and pointers that are null. -/
theorem of_empty (hempty : ∀ q k, s.queues q = some k → k.head = none ∧ k.size = 0)
    (hnull : ∀ n, s.next n = none) : s.Holds fun _ ↦ [] where
  queue q k hk := by
    refine ⟨(hempty q k hk).1, fun r a heq ↦ absurd heq (by simp), ?_⟩
    rw [(hempty q k hk).2]
    rfl
  missing _ _ := rfl
  apart q q' n hn := absurd hn List.not_mem_nil
  loose n _ := hnull n

/-- The queue of a list that is not empty. -/
theorem exists_queue (hs : s.Holds lists) (hl : lists q ≠ []) : ∃ k, s.queues q = some k :=
  Option.ne_none_iff_exists'.mp fun hnone ↦ hl (hs.missing q hnone)

/-- Assumes: a change of one queue that leaves the pointers of all other nodes alone. Its new nodes
were in no queue, and the pointer of a node that leaves it is cleared. -/
theorem change (hs : s.Holds lists) (hsome : s.queues q ≠ none) {next' : ℕ → Option ℕ}
    {k' : Queue ℕ} (hnew : IsQueue next' k' l)
    (hadded : ∀ g ∈ l, g ∈ lists q ∨ ∀ q, g ∉ lists q)
    (hframe : ∀ g, g ∉ lists q → next' g = s.next g)
    (hcleared : ∀ g ∈ lists q, g ∉ l → next' g = none) :
    { s with next := next', queues := Function.update s.queues q (some k') }.Holds
      (Function.update lists q l) where
  queue q' k hk := by
    dsimp only at hk ⊢
    by_cases hq : q' = q
    · subst hq
      rw [Function.update_self, Option.some.injEq] at hk
      rwa [Function.update_self, ← hk]
    · rw [Function.update_of_ne hq] at hk
      rw [Function.update_of_ne hq]
      exact (hs.queue q' k hk).congr fun g hg ↦ hframe g fun hmem ↦ hq (hs.apart q' q g hg hmem)
  missing q' hnone := by
    dsimp only at hnone
    by_cases hq : q' = q
    · subst hq
      rw [Function.update_self] at hnone
      cases hnone
    · rw [Function.update_of_ne hq] at hnone ⊢
      exact hs.missing q' hnone
  apart := by
    have hother : ∀ q' g, q' ≠ q → g ∈ l → g ∉ lists q' := fun q' g hq hg hmem ↦ by
      rcases hadded g hg with hold | hold
      · exact hq (hs.apart q' q g hmem hold)
      · exact hold q' hmem
    intro q' q'' g hg hg'
    by_cases hq : q' = q <;> by_cases hq' : q'' = q
    · rw [hq, hq']
    · rw [hq, Function.update_self] at hg
      rw [Function.update_of_ne hq'] at hg'
      exact absurd hg' (hother q'' g hq' hg)
    · rw [Function.update_of_ne hq] at hg
      rw [hq', Function.update_self] at hg'
      exact absurd hg (hother q' g hq hg')
    · rw [Function.update_of_ne hq] at hg
      rw [Function.update_of_ne hq'] at hg'
      exact hs.apart q' q'' g hg hg'
  loose g hg := by
    dsimp only
    have hl : g ∉ l := by
      have hself := hg q
      rwa [Function.update_self] at hself
    by_cases hmem : g ∈ lists q
    · exact hcleared g hmem hl
    · rw [hframe g hmem]
      refine hs.loose g fun q' ↦ ?_
      by_cases hq : q' = q
      · rwa [hq]
      · have hother := hg q'
        rwa [Function.update_of_ne hq] at hother

/-- `append_node_to_queue`. -/
theorem append (hs : s.Holds lists) (hsome : s.queues q ≠ none) (hn : ∀ q, n ∉ lists q) :
    ∃ t, s.appendNodeToQueue q n = some t ∧ t.Holds (Function.update lists q (lists q ++ [n])) := by
  obtain ⟨k, hk⟩ := Option.ne_none_iff_exists'.mp hsome
  obtain ⟨next', k', happend, hqueue, hframe⟩ := (hs.queue q k hk).append (hn q) (hs.loose n hn)
  refine ⟨_, ?_, hs.change hsome hqueue (fun g hg ↦ ?_) hframe fun g hg hnot ↦ ?_⟩
  · simp only [State.appendNodeToQueue, hk, Option.bind_eq_bind, Option.bind_some, happend]
  · rcases List.mem_append.mp hg with hold | hnew
    · exact .inl hold
    · rw [List.mem_singleton.mp hnew]
      exact .inr hn
  · exact absurd (List.mem_append_left _ hg) hnot

/-- `pop_queue`. -/
theorem pop (hs : s.Holds lists) (hl : lists q = n :: l) :
    ∃ t, s.popQueue q = some (n, t) ∧ t.Holds (Function.update lists q l) := by
  obtain ⟨k, hk⟩ := hs.exists_queue (q := q) (by simp [hl])
  have hqueue := hs.queue q k hk
  rw [hl] at hqueue
  obtain ⟨k', hpop, hqueue'⟩ := hqueue.pop
  refine ⟨_, ?_, hs.change (by simp [hk]) hqueue' (fun g hg ↦ ?_) (fun g hg ↦ ?_)
    fun g hg hnot ↦ ?_⟩
  · simp only [State.popQueue, hk, Option.bind_eq_bind, Option.bind_some, hpop]
  · exact .inl (by rw [hl]; exact List.mem_cons_of_mem n hg)
  · exact Function.update_of_ne (fun heq ↦ hg (by rw [hl, heq]; exact List.mem_cons_self)) ..
  · rw [hl] at hg
    rw [(List.mem_cons.mp hg).resolve_right hnot, Function.update_self]

/-- `move_head_to_end`. -/
theorem moveHeadToEnd (hs : s.Holds lists) (hsome : s.queues q ≠ none) :
    ∃ t, s.moveHeadToEnd q = some t ∧ t.Holds (Function.update lists q ((lists q).rotate 1)) := by
  obtain ⟨k, hk⟩ := Option.ne_none_iff_exists'.mp hsome
  have hqueue := hs.queue q k hk
  cases hl : lists q with
  | nil =>
    rw [hl] at hqueue
    have hsmall : k.size ≤ 1 := by
      rw [hqueue.size]
      simp
    refine ⟨_, ?_, hs.change hsome hqueue (by simp) (fun _ _ ↦ rfl) (by simp [hl])⟩
    simp only [State.moveHeadToEnd, hk, Option.bind_eq_bind, Option.bind_some,
      Library.LinkedQueue.moveHeadToEnd, if_pos hsmall]
  | cons n l =>
    rw [hl] at hqueue
    obtain ⟨next', k', hmove, hqueue', hframe⟩ := hqueue.moveHeadToEnd
    rw [← hl] at hframe
    have hmem : ∀ g, g ∈ l ++ [n] ↔ g ∈ lists q := fun g ↦ by simp [hl, or_comm]
    rw [List.rotate_cons_succ, List.rotate_zero]
    refine ⟨_, ?_, hs.change hsome hqueue' (fun g hg ↦ .inl ((hmem g).mp hg)) hframe
      fun g hg hnot ↦ absurd ((hmem g).mpr hg) hnot⟩
    simp only [State.moveHeadToEnd, hk, Option.bind_eq_bind, Option.bind_some, hmove]

/-- `move_to_head`. -/
theorem moveToHead (hs : s.Holds lists) (htarget : Follows (lists q) target prev) :
    ∃ t, s.moveToHead q target prev = some t ∧
      t.Holds (Function.update lists q (target :: (lists q).erase target)) := by
  rcases htarget with ⟨after, hl⟩ | ⟨p, before, after, rfl, hl⟩
  · obtain ⟨k, hk⟩ := hs.exists_queue (q := q) (by simp [hl])
    have hhead : k.head = some target := by rw [(hs.queue q k hk).head_eq, hl, List.head?_cons]
    refine ⟨s, by simp [State.moveToHead, hk, hhead], ?_⟩
    rwa [hl, List.erase_cons_head, ← hl, Function.update_eq_self]
  · obtain ⟨k, hk⟩ := hs.exists_queue (q := q) (by simp [hl])
    have hqueue := hs.queue q k hk
    rw [hl] at hqueue
    obtain ⟨hpb, htb, hpt, hpa, hta⟩ := hqueue.path.middle
    have hsize : ¬k.size ≤ 1 := by
      rw [hqueue.size, List.length_append, List.length_cons, List.length_cons]
      omega
    have hhead : k.head ≠ some target := hqueue.head_ne
    have herase : (lists q).erase target = before ++ p :: after := by
      rw [hl, erase_middle htb hpt]
    have hmem : ∀ g, g ∈ target :: (before ++ p :: after) ↔ g ∈ lists q := fun g ↦ by
      rw [hl]
      simp only [List.mem_cons, List.mem_append]
      grind
    rw [herase]
    refine ⟨_, ?_, hs.change (by simp [hk]) hqueue.moveToHead (fun g hg ↦ .inl ((hmem g).mp hg))
      (fun g hg ↦ ?_) fun g hg hnot ↦ absurd ((hmem g).mpr hg) hnot⟩
    · simp [State.moveToHead, hk, hsize, hhead]
    · have hgp : g ≠ p := fun heq ↦ hg (by simp [hl, heq])
      have hgt : g ≠ target := fun heq ↦ hg (by simp [hl, heq])
      simp only [Library.LinkedQueue.moveToHead]
      rw [Function.update_of_ne hgt, Function.update_of_ne hgp]

/-- `remove_from_queue`. -/
theorem remove (hs : s.Holds lists) (htarget : Follows (lists q) target prev) :
    ∃ t, s.removeFromQueue q target prev = some t ∧
      t.Holds (Function.update lists q ((lists q).erase target)) := by
  obtain ⟨k, hk⟩ := hs.exists_queue (q := q) (by
    rcases htarget with ⟨after, hl⟩ | ⟨p, before, after, -, hl⟩ <;> simp [hl])
  have hqueue := hs.queue q k hk
  have hsome : s.queues q ≠ none := by simp [hk]
  rcases htarget with ⟨after, hl⟩ | ⟨p, before, after, rfl, hl⟩
  · rw [hl] at hqueue
    have hhead : k.head = some target := hqueue.path.1
    rw [hl, List.erase_cons_head]
    by_cases hone : k.size = 1
    · obtain rfl : after = [] := by
        have hsize := hqueue.size
        rw [List.length_cons] at hsize
        exact List.length_eq_zero_iff.mp (by omega)
      have hempty : IsQueue s.next ⟨none, none, k.size - 1⟩ [] := by
        rw [hone]
        exact IsQueue.empty
      -- The pointer of the only node is null already.
      refine ⟨_, ?_, hs.change hsome hempty (by simp) (fun _ _ ↦ rfl) fun g hg _ ↦ ?_⟩
      · simp only [State.removeFromQueue, hk, Option.bind_eq_bind, Option.bind_some, if_pos hone]
      · rw [hl, List.mem_singleton] at hg
        rw [hg]
        exact hqueue.path.2
    · obtain ⟨k', hpop, hqueue'⟩ := hqueue.pop
      rw [Library.LinkedQueue.pop, hhead] at hpop
      simp only [Option.bind_eq_bind, Option.bind_some, Option.some.injEq, Prod.mk.injEq,
        true_and] at hpop
      subst hpop
      refine ⟨_, ?_, hs.change hsome hqueue' (fun g hg ↦ .inl ?_) (fun g hg ↦ ?_)
        fun g hg hnot ↦ ?_⟩
      · simp only [State.removeFromQueue, hk, Option.bind_eq_bind, Option.bind_some, if_neg hone,
          if_pos hhead]
      · rw [hl]
        exact List.mem_cons_of_mem target hg
      · exact Function.update_of_ne (fun heq ↦ hg (by rw [hl, heq]; exact List.mem_cons_self)) ..
      · rw [hl] at hg
        rw [(List.mem_cons.mp hg).resolve_right hnot, Function.update_self]
  · rw [hl] at hqueue
    obtain ⟨hpb, htb, hpt, hpa, hta⟩ := hqueue.path.middle
    have hone : k.size ≠ 1 := by
      rw [hqueue.size, List.length_append, List.length_cons, List.length_cons]
      omega
    have hhead : k.head ≠ some target := hqueue.head_ne
    rw [hl, erase_middle htb hpt]
    refine ⟨_, ?_, hs.change hsome hqueue.unlink (fun g hg ↦ .inl ?_) (fun g hg ↦ ?_)
      fun g hg hnot ↦ ?_⟩
    · simp only [State.removeFromQueue, hk, Option.bind_eq_bind, Option.bind_some, if_neg hone,
        if_neg hhead]
    · rw [hl]
      simp only [List.mem_append, List.mem_cons] at hg ⊢
      tauto
    · have hgp : g ≠ p := fun heq ↦ hg (by simp [hl, heq])
      have hgt : g ≠ target := fun heq ↦ hg (by simp [hl, heq])
      simp only [Library.LinkedQueue.unlink]
      rw [Function.update_of_ne hgt, Function.update_of_ne hgp]
    · have hgt : g = target := by
        rw [hl] at hg
        simp only [List.mem_append, List.mem_cons] at hg hnot
        tauto
      rw [hgt]
      exact Function.update_self ..

/-- An allowed call is executed, and does to the list of its queue what its name says. -/
theorem queueStep {call : QueueCall} (hs : s.Holds lists) (hallowed : call.Allowed s lists) :
    ∃ t, s.queueStep call = some t ∧ t.Holds (call.result lists) := by
  cases call with
  | append q n => exact hs.append hallowed.1 hallowed.2
  | pop q =>
    obtain ⟨n, l, hl⟩ := List.exists_cons_of_ne_nil hallowed
    obtain ⟨t, hpop, ht⟩ := hs.pop hl
    refine ⟨t, by simp only [State.queueStep, hpop, Option.map_some], ?_⟩
    simpa only [QueueCall.result, QueueCall.queue, QueueCall.effect, hl, List.tail_cons] using ht
  | moveHeadToEnd q => exact hs.moveHeadToEnd hallowed
  | moveToHead q target prev => exact hs.moveToHead hallowed
  | remove q target prev => exact hs.remove hallowed

/-- A node that a call takes out of its queue has a null pointer. -/
theorem next_eq_none {call : QueueCall} (ht : t.Holds (call.result lists))
    (hs : s.Holds lists) (hn : n ∈ lists call.queue)
    (hout : n ∉ call.result lists call.queue) : t.next n = none := by
  refine ht.loose n fun q ↦ ?_
  by_cases hq : q = call.queue
  · rwa [hq]
  · rw [QueueCall.result, Function.update_of_ne hq]
    exact fun hmem ↦ hq (hs.apart q call.queue n hmem hn)

end State.Holds

/-! ### Runs -/

/-- In every run of allowed calls the queues are their lists. -/
theorem QueueRun.holds (hrun : QueueRun s lists) : s.Holds lists := by
  induction hrun with
  | start hs => exact hs
  | step hrun hallowed hstep ih =>
    obtain ⟨t, ht, hholds⟩ := ih.queueStep hallowed
    rwa [Option.some.inj (ht.symm.trans hstep)] at hholds

/-- After every sequence of calls each queue is an acyclic list that ends at the null pointer, with
its length and, unless it is empty, its last node. The next call, if it is allowed, appends to this
list, drops or rotates its first node, or moves its target to the front or removes it. `pop_queue`
returns the first node, and the pointer of a node that leaves is null. -/
theorem queue_operations_implement_lists (hrun : QueueRun s lists) :
    (∀ q k, s.queues q = some k →
      Path s.next k.head (lists q) none ∧ (lists q).Nodup ∧ k.size = (lists q).length ∧
        ∀ r a, lists q = r ++ [a] → k.tail = some a) ∧
    (∀ call, call.Allowed s lists → ∃ t, s.queueStep call = some t ∧
      (∀ q k, t.queues q = some k →
        IsQueue t.next k (call.result lists q) ∧ (call.result lists q).Nodup) ∧
      ∀ n ∈ lists call.queue, n ∉ call.result lists call.queue → t.next n = none) ∧
    ∀ q n l, lists q = n :: l → ∃ t, s.popQueue q = some (n, t) := by
  have hs := hrun.holds
  refine ⟨fun q k hk ↦ ?_, fun call hallowed ↦ ?_, fun q n l hl ↦ ?_⟩
  · have hqueue := hs.queue q k hk
    exact ⟨hqueue.path, hqueue.nodup, hqueue.size, hqueue.tail⟩
  · obtain ⟨t, hstep, ht⟩ := hs.queueStep hallowed
    refine ⟨t, hstep, fun q k hk ↦ ?_, fun n hn hout ↦ ht.next_eq_none hs hn hout⟩
    exact ⟨ht.queue q k hk, (ht.queue q k hk).nodup⟩
  · obtain ⟨t, hpop, -⟩ := hs.pop hl
    exact ⟨t, hpop⟩

/-- Two nodes are appended to an empty queue, and the second is removed. -/
theorem queue_operations_implement_lists_two : ∃ s lists, QueueRun s lists ∧
    lists .rq = [0, 1] ∧ ∃ t, s.queueStep (.remove .rq 1 (some 0)) = some t ∧ t.next 1 = none := by
  have hempty : QueueRun { State.init with queues := fun _ ↦ some Queue.empty } fun _ ↦ [] :=
    .start (.of_empty (fun q k hk ↦ by cases hk; exact ⟨rfl, rfl⟩) fun _ ↦ rfl)
  have hone : QueueRun _ (QueueCall.result _ (.append .rq 0)) :=
    hempty.step ⟨by simp, by simp⟩ rfl
  have htwo : QueueRun _ (QueueCall.result _ (.append .rq 1)) := hone.step ⟨?_, fun q ↦ ?_⟩ rfl
  · refine ⟨_, _, htwo, rfl, ?_⟩
    obtain ⟨t, hstep, -, hnull⟩ := (queue_operations_implement_lists htwo).2.1
      (.remove .rq 1 (some 0)) (.inr ⟨0, [], [], rfl, rfl⟩)
    exact ⟨t, hstep, hnull 1 (by decide) (by decide)⟩
  · decide
  · by_cases hq : q = .rq
    · subst hq
      decide
    · simp [QueueCall.result, QueueCall.queue, hq]

end OperatingSystems.Threads
