import OperatingSystems.Threads.Refinement

/-!
# The order of the scheduler

`Ordered` collects what holds of the lists and of the array `threads` in every state: no thread is
in two lists or twice in one, the first ready thread is the running one, `threads` lists the
threads that have not exited by their ids, and a thread has a wait queue only while it is listed.
Every statement keeps it (`Ordered.executes`), and so does every move.
-/

set_option autoImplicit false
set_option relaxedAutoImplicit false

namespace OperatingSystems.Threads

open State (Move Memory)

variable {a b : Ideal} {q : QueueId} {w : WaitQueue} {i : Instr} {m : Move} {h n : ℕ} {l : List ℕ}

/-- The number of the lock, condition variable or queue of a thread. -/
def WaitQueue.object : WaitQueue → Option ℕ
  | .thread _ => none
  | .lock l => some l
  | .cv c => some c
  | .user u => some u

namespace Ideal

/-- The lists and the array `threads` are in order. -/
structure Ordered (a : Ideal) : Prop where
  separate : a.Separate
  nodup : ∀ q, (a.lists q).Nodup
  running : ∃ rest, a.ready = a.core.current :: rest
  threads : ∀ tid h, a.core.threads tid = some h ↔
    h < a.core.allocated ∧ (a.core.tcb h).exited = false ∧ (a.core.tcb h).id = tid
  id_lt : ∀ h < a.core.allocated, (a.core.tcb h).id < threadMaxThreads
  unused : ∀ h, a.core.allocated ≤ h → (a.core.tcb h).exited = false
  waiting_thread : ∀ tid, a.waiting (.thread tid) ≠ none → a.core.threads tid ≠ none
  waiting_object : ∀ w o, w.object = some o → a.waiting w ≠ none → o < a.core.objects
  lock_object : ∀ l, a.core.locks l ≠ none → l < a.core.objects

namespace Ordered

/-- The running thread is the head of the ready queue. -/
theorem eq_current (ha : a.Ordered) {old : ℕ} {rest : List ℕ} (hready : a.ready = old :: rest) :
    old = a.core.current := by
  obtain ⟨rest', hrun⟩ := ha.running
  rw [hready] at hrun
  exact (List.cons.inj hrun).1

theorem current_live (ha : a.Ordered) :
    a.core.current < a.core.allocated ∧ (a.core.tcb a.core.current).exited = false := by
  obtain ⟨rest, hrun⟩ := ha.running
  exact ha.separate.live .rq _ (by rw [lists, hrun]; exact List.mem_cons_self)

/-- Two threads that have not exited have different ids. -/
theorem eq_of_id_eq (ha : a.Ordered) {g : ℕ} (hg : g < a.core.allocated)
    (hgx : (a.core.tcb g).exited = false) (hh : h < a.core.allocated)
    (hhx : (a.core.tcb h).exited = false) (hid : (a.core.tcb g).id = (a.core.tcb h).id) :
    g = h := by
  have hfirst := (ha.threads (a.core.tcb h).id g).mpr ⟨hg, hgx, hid⟩
  have hsecond := (ha.threads (a.core.tcb h).id h).mpr ⟨hh, hhx, rfl⟩
  exact Option.some.inj (hfirst.symm.trans hsecond)

/-- The thread at the head of the ready queue is in the array `threads`. -/
theorem threads_current (ha : a.Ordered) :
    a.core.threads (a.core.tcb a.core.current).id = some a.core.current :=
  (ha.threads _ _).mpr ⟨ha.current_live.1, ha.current_live.2, rfl⟩

/-- The threads are moved between the lists, and nothing else is changed that matters here. -/
theorem move (ha : a.Ordered) (hf : a.core.Frame b.core)
    (hobjects : b.core.objects = a.core.objects) (hsep : b.Separate)
    (hnodup : ∀ q, (b.lists q).Nodup) (hrun : ∃ rest, b.ready = b.core.current :: rest)
    (hwaiting : ∀ w, b.waiting w ≠ none →
      a.waiting w ≠ none ∨ ∃ tid, w = .thread tid ∧ a.core.threads tid ≠ none) : b.Ordered where
  separate := hsep
  nodup := hnodup
  running := hrun
  threads tid h := by rw [hf.threads, hf.allocated, hf.exited, hf.id, ha.threads]
  id_lt h hh := by
    rw [hf.id]
    exact ha.id_lt h (by rwa [hf.allocated] at hh)
  unused h hh := by
    rw [hf.exited]
    exact ha.unused h (by rwa [hf.allocated] at hh)
  waiting_thread tid hne := by
    rw [hf.threads]
    rcases hwaiting _ hne with hne | ⟨tid', heq, hne⟩
    · exact ha.waiting_thread tid hne
    · obtain rfl := WaitQueue.thread.inj heq
      exact hne
  waiting_object w o ho hne := by
    rw [hobjects]
    rcases hwaiting w hne with hne | ⟨tid, rfl, -⟩
    · exact ha.waiting_object w o ho hne
    · cases ho
  lock_object l hne := by
    rw [hobjects]
    exact ha.lock_object l (by rwa [ne_eq, hf.locks] at hne)

/-- The state apart from the queues is changed, and not in what matters here. -/
theorem mapCore (ha : a.Ordered) {f : Core → Core} (hf : a.core.Frame (f a.core))
    (hobjects : (f a.core).objects = a.core.objects)
    (hcurrent : (f a.core).current = a.core.current) :
    (a.mapCore f).Ordered := by
  refine ha.move hf hobjects (ha.separate.mapCore hf) (fun q ↦ ?_) ?_ fun w hne ↦ .inl hne
  · rw [mapCore_lists]
    exact ha.nodup q
  · rw [mapCore_core, mapCore_ready, hcurrent]
    exact ha.running

/-- The ready threads are put in another order, and the first of them runs. -/
theorem permute (ha : a.Ordered) {l : List ℕ} (hperm : l.Perm a.ready) {f : Core → Core}
    (hf : a.core.Frame (f a.core)) (hobjects : (f a.core).objects = a.core.objects)
    (hrun : ∃ rest, l = (f a.core).current :: rest) :
    ((a.setList .rq l).mapCore f).Ordered := by
  have hshrink : (a.setList .rq l).Separate :=
    ha.separate.shrink (by simp) fun g hg ↦ hperm.mem_iff.mp hg
  refine ha.move hf hobjects (hshrink.mapCore hf) (fun q ↦ ?_) hrun fun w hne ↦ .inl hne
  rw [mapCore_lists]
  by_cases hq : q = .rq
  · subst hq
    exact hperm.nodup_iff.mpr (ha.nodup .rq)
  · rw [setList_lists_of_ne a hq]
    exact ha.nodup q

/-- The first ready thread is put into a wait queue. -/
theorem sleep (ha : a.Ordered) {old new : ℕ} {rest l : List ℕ}
    (hready : a.ready = old :: new :: rest) (hw : a.waiting w = some l) :
    (((a.setList .rq (new :: rest)).setList (.wait w) (l ++ [old])).mapCore
      (·.sleepSwitch old new)).Ordered := by
  have hnodup := ha.nodup .rq
  rw [lists, hready] at hnodup
  have hlist : a.lists (.wait w) = l := by simp [lists, waiters, hw]
  have hlist' : (a.setList .rq (new :: rest)).lists (.wait w) = l := by
    rw [setList_lists_of_ne a (by simp), hlist]
  have hshrink : (a.setList .rq (new :: rest)).Separate :=
    ha.separate.shrink (by simp) fun g hg ↦ by
      rw [lists, hready]
      exact List.mem_cons_of_mem _ hg
  have hfloat := ha.separate.floating (q := .rq) (by simp) hready hnodup
  have hlive := ha.separate.live .rq old (by rw [lists, hready]; exact List.mem_cons_self)
  have hadd := hshrink.add (q := .wait w) (by simp) hfloat hlive
  rw [hlist'] at hadd
  have hframe := Core.frame_sleepSwitch a.core old new
  refine ha.move hframe rfl (hadd.mapCore hframe) (fun q ↦ ?_) ⟨rest, rfl⟩ fun v hne ↦ .inl ?_
  · rw [mapCore_lists]
    by_cases hq : q = .wait w
    · subst hq
      rw [setList_lists_self _ (by simp), List.nodup_append]
      refine ⟨hlist ▸ ha.nodup (.wait w), by simp, fun g hg g' hg' ↦ ?_⟩
      rw [List.mem_singleton.mp hg']
      exact fun heq ↦ hfloat (.wait w) (by rw [hlist', ← heq]; exact hg)
    · rw [setList_lists_of_ne _ hq]
      by_cases hq' : q = .rq
      · subst hq'
        exact (List.nodup_cons.mp hnodup).2
      · rw [setList_lists_of_ne a hq']
        exact ha.nodup q
  · simp only [mapCore_waiting, setList, Function.update_apply] at hne
    split_ifs at hne with hv
    · rw [hv, hw]
      simp
    · exact hne

/-- The lists after threads have been moved from a wait queue to the ready queue. -/
theorem transfer (ha : a.Ordered) {moved kept : List ℕ} (hw : a.waiting w = some (moved ++ kept)) :
    ((a.setList (.wait w) kept).setList .rq (a.ready ++ moved)).Separate ∧
      ∀ q, (((a.setList (.wait w) kept).setList .rq (a.ready ++ moved)).lists q).Nodup := by
  have hlist : a.lists (.wait w) = moved ++ kept := by simp [lists, waiters, hw]
  have hnodup := ha.nodup (.wait w)
  rw [hlist, List.nodup_append] at hnodup
  obtain ⟨hmoved, hkept, hapart⟩ := hnodup
  set b := (a.setList (.wait w) kept).setList .rq (a.ready ++ moved) with hb
  have hrq : b.lists .rq = a.ready ++ moved := setList_lists_self _ (by simp) _
  have hwait : b.lists (.wait w) = kept := by
    rw [hb, setList_lists_of_ne _ (by simp), setList_lists_self _ (by simp)]
  have hother : ∀ q, q ≠ .rq → q ≠ .wait w → b.lists q = a.lists q := fun q hq hq' ↦ by
    rw [hb, setList_lists_of_ne _ hq, setList_lists_of_ne _ hq']
  have hout : ∀ g ∈ moved ++ kept, ∀ q, g ∈ a.lists q → q = .wait w := fun g hg q hq ↦
    ha.separate.apart q (.wait w) g hq (by rwa [hlist])
  have hfrom : ∀ q g, g ∈ b.lists q → g ∈ a.lists q ∨ q = .rq ∧ g ∈ moved := by
    intro q g hg
    by_cases hq : q = .rq
    · subst hq
      rw [hrq, List.mem_append] at hg
      exact hg.imp_right fun hmem ↦ ⟨rfl, hmem⟩
    · by_cases hq' : q = .wait w
      · subst hq'
        rw [hwait] at hg
        exact .inl (by rw [hlist]; exact List.mem_append_right _ hg)
      · rw [hother q hq hq'] at hg
        exact .inl hg
  -- A thread that has been moved is in no other list any more.
  have honly : ∀ q g, g ∈ b.lists q → g ∈ moved → q = .rq := by
    intro q g hg hmem
    by_contra hq
    rcases hfrom q g hg with hold | ⟨hrq', -⟩
    · have hqw := hout g (List.mem_append_left _ hmem) q hold
      rw [hqw, hwait] at hg
      exact hapart g hmem g hg rfl
    · exact hq hrq'
  refine ⟨⟨fun q g hg ↦ ?_, fun q q' g hg hg' ↦ ?_, fun l hl ↦ ?_⟩, fun q ↦ ?_⟩
  · rw [hb, setList_core, setList_core]
    rcases hfrom q g hg with hold | ⟨-, hmem⟩
    · exact ha.separate.live q g hold
    · exact ha.separate.live (.wait w) g (by rw [hlist]; exact List.mem_append_left _ hmem)
  · by_cases hmem : g ∈ moved
    · rw [honly q g hg hmem, honly q' g hg' hmem]
    · have hold := (hfrom q g hg).resolve_right fun hcase ↦ hmem hcase.2
      have hold' := (hfrom q' g hg').resolve_right fun hcase ↦ hmem hcase.2
      exact ha.separate.apart q q' g hold hold'
  · rw [hb, setList_core, setList_core] at hl
    exact waiting_setList _ _ _ (waiting_setList _ _ _ (ha.separate.lock l hl))
  · by_cases hq : q = .rq
    · subst hq
      rw [hrq, List.nodup_append]
      refine ⟨ha.nodup .rq, hmoved, fun g hg g' hg' heq ↦ ?_⟩
      have := hout g (List.mem_append_left _ (heq ▸ hg')) .rq hg
      cases this
    · by_cases hq' : q = .wait w
      · subst hq'
        rwa [hwait]
      · rw [hother q hq hq']
        exact ha.nodup q

/-- Threads are woken. -/
theorem wakeup (ha : a.Ordered) {moved kept : List ℕ} (hw : a.waiting w = some (moved ++ kept))
    {f : Core → Core} (hf : a.core.Frame (f a.core))
    (hobjects : (f a.core).objects = a.core.objects)
    (hcurrent : (f a.core).current = a.core.current) :
    (((a.setList (.wait w) kept).setList .rq (a.ready ++ moved)).mapCore f).Ordered := by
  obtain ⟨hsep, hnodup⟩ := ha.transfer hw
  refine ha.move hf hobjects (hsep.mapCore hf) (fun q ↦ ?_) ?_ fun v hne ↦ .inl ?_
  · rw [mapCore_lists]
    exact hnodup q
  · obtain ⟨rest, hrun⟩ := ha.running
    refine ⟨rest ++ moved, ?_⟩
    simp [setList, hrun, hcurrent]
  · simp only [mapCore_waiting, setList, Function.update_apply] at hne
    split_ifs at hne with hv
    · rw [hv, hw]
      simp
    · exact hne

/-- A thread is created with a free id. -/
theorem create (ha : a.Ordered) {id : ℕ} (hid : id < threadMaxThreads)
    (hfree : a.core.threads id = none) :
    ((a.setList .rq (a.ready ++ [a.core.allocated])).mapCore fun c ↦
      (c.addThread id).setRet id).Ordered := by
  set b := (a.setList .rq (a.ready ++ [a.core.allocated])).mapCore fun c ↦
    (c.addThread id).setRet id with hb
  have hframe := Core.frame_setRet (a.core.addThread id) id
  have hcurrent : b.core.current = a.core.current := rfl
  have hallocated : b.core.allocated = a.core.allocated + 1 := rfl
  have hthreads : b.core.threads = Function.update a.core.threads id (some a.core.allocated) := rfl
  have hold : ∀ g < a.core.allocated, (b.core.tcb g).id = (a.core.tcb g).id ∧
      (b.core.tcb g).exited = (a.core.tcb g).exited := fun g hg ↦ by
    have hne : g ≠ a.core.allocated := Nat.ne_of_lt hg
    have hsame : (a.core.addThread id).tcb g = a.core.tcb g := Function.update_of_ne hne ..
    exact ⟨(hframe.id g).trans (congrArg Thread.id hsame),
      (hframe.exited g).trans (congrArg Thread.exited hsame)⟩
  have hnew : (b.core.tcb a.core.allocated).id = id ∧
      (b.core.tcb a.core.allocated).exited = false := by
    have hsame : (a.core.addThread id).tcb a.core.allocated =
      .start id .ready a.core.flag stubCode := Function.update_self ..
    exact ⟨(hframe.id _).trans (congrArg Thread.id hsame),
      (hframe.exited _).trans (congrArg Thread.exited hsame)⟩
  have hunused : ∀ q, a.core.allocated ∉ a.lists q := fun q hmem ↦
    absurd (ha.separate.live q _ hmem).1 (Nat.lt_irrefl _)
  have hlists : ∀ q, b.lists q = if q = .rq then a.ready ++ [a.core.allocated] else a.lists q := by
    intro q
    rw [hb, mapCore_lists]
    split_ifs with hq
    · subst hq
      rfl
    · exact setList_lists_of_ne a hq _
  have hfrom : ∀ q g, g ∈ b.lists q → g ∈ a.lists q ∨ q = .rq ∧ g = a.core.allocated := by
    intro q g hg
    rw [hlists] at hg
    split_ifs at hg with hq
    · subst hq
      exact (List.mem_append.mp hg).imp_right fun hmem ↦ ⟨rfl, List.mem_singleton.mp hmem⟩
    · exact .inl hg
  refine ⟨⟨fun q g hg ↦ ?_, fun q q' g hg hg' ↦ ?_, ha.separate.lock⟩, fun q ↦ ?_, ?_,
    fun tid g ↦ ?_, fun g hg ↦ ?_, fun g hg ↦ ?_, fun tid hne ↦ ?_, ha.waiting_object,
    ha.lock_object⟩
  · rw [hallocated]
    rcases hfrom q g hg with hmem | ⟨-, rfl⟩
    · obtain ⟨hlt, hlive⟩ := ha.separate.live q g hmem
      exact ⟨by omega, (hold g hlt).2.trans hlive⟩
    · exact ⟨by omega, hnew.2⟩
  · rcases hfrom q g hg with hmem | ⟨hq, hgn⟩
    · rcases hfrom q' g hg' with hmem' | ⟨-, rfl⟩
      · exact ha.separate.apart q q' g hmem hmem'
      · exact absurd hmem (hunused q)
    · rcases hfrom q' g hg' with hmem' | ⟨hq', -⟩
      · exact absurd (hgn ▸ hmem') (hunused q')
      · rw [hq, hq']
  · rw [hlists]
    split_ifs with hq
    · rw [List.nodup_append]
      refine ⟨ha.nodup .rq, by simp, fun g hg g' hg' heq ↦ hunused .rq ?_⟩
      rw [← List.mem_singleton.mp hg', ← heq]
      exact hg
    · exact ha.nodup q
  · obtain ⟨rest, hrun⟩ := ha.running
    exact ⟨rest ++ [a.core.allocated], by
      show a.ready ++ _ = _
      rw [hrun, hcurrent, List.cons_append]⟩
  · rw [hthreads, hallocated, Function.update_apply]
    split_ifs with htid
    · subst htid
      rw [Option.some.injEq]
      constructor
      · rintro rfl
        exact ⟨by omega, hnew.2, hnew.1⟩
      · rintro ⟨hlt, hlive, hid'⟩
        by_contra hne
        have hlt' : g < a.core.allocated := by omega
        rw [(hold g hlt').2] at hlive
        rw [(hold g hlt').1] at hid'
        rw [(ha.threads tid g).mpr ⟨hlt', hlive, hid'⟩] at hfree
        cases hfree
    · rw [ha.threads]
      constructor
      · rintro ⟨hlt, hlive, hid'⟩
        exact ⟨by omega, (hold g hlt).2.trans hlive, (hold g hlt).1.trans hid'⟩
      · rintro ⟨hlt, hlive, hid'⟩
        have hlt' : g < a.core.allocated := by
          by_contra hge
          have hgn : g = a.core.allocated := by omega
          rw [hgn, hnew.1] at hid'
          exact htid hid'.symm
        exact ⟨hlt', (hold g hlt').2.symm.trans hlive, (hold g hlt').1.symm.trans hid'⟩
  · rw [hallocated] at hg
    by_cases hlt : g < a.core.allocated
    · rw [(hold g hlt).1]
      exact ha.id_lt g hlt
    · have hgn : g = a.core.allocated := by omega
      rw [hgn, hnew.1]
      exact hid
  · rw [hallocated] at hg
    have hne : g ≠ a.core.allocated := by omega
    have hsame : (a.core.addThread id).tcb g = a.core.tcb g := Function.update_of_ne hne ..
    exact ((hframe.exited g).trans (congrArg Thread.exited hsame)).trans (ha.unused g (by omega))
  · rw [hthreads, Function.update_apply]
    split_ifs
    · simp
    · exact ha.waiting_thread tid hne

/-- The running thread exits. -/
theorem exit (ha : a.Ordered) {old new : ℕ} {rest rest' : List ℕ} (hready : a.ready = old :: rest)
    (hrest : rest ++ a.waiters (.thread (a.core.tcb old).id) = new :: rest') :
    (((a.setList .rq (new :: rest')).dropQueue (.thread (a.core.tcb old).id)).mapCore
      (·.exitSwitch old new (a.waiters (.thread (a.core.tcb old).id)))).Ordered := by
  set w : WaitQueue := .thread (a.core.tcb old).id with hw
  set b := ((a.setList .rq (new :: rest')).dropQueue w).mapCore
    (·.exitSwitch old new (a.waiters w)) with hb
  -- Apart from `threads` and the exit of `old`, the threads are as before.
  have hframe := Core.frame_wakeAll ({ a.core with
    flag := false, threads := Function.update a.core.threads (a.core.tcb old).id none }) w
      (a.waiters w)
  have hid : ∀ g, (b.core.tcb g).id = (a.core.tcb g).id := by
    intro g
    show ((Core.exitSwitch _ _ _ _).tcb g).id = _
    simp only [Core.exitSwitch, Core.setcontext, Core.modify, Function.update_apply]
    split_ifs with hg
    · rw [hg]
      exact hframe.id old
    · exact hframe.id g
  have hexited : ∀ g, (b.core.tcb g).exited = if g = old then true else (a.core.tcb g).exited := by
    intro g
    show ((Core.exitSwitch _ _ _ _).tcb g).exited = _
    simp only [Core.exitSwitch, Core.setcontext, Core.modify, Function.update_apply]
    split_ifs with hg
    · rfl
    · exact hframe.exited g
  have hthreads : b.core.threads =
      Function.update a.core.threads (a.core.tcb old).id none := hframe.threads
  have hallocated : b.core.allocated = a.core.allocated := hframe.allocated
  have hobjects : b.core.objects = a.core.objects := by
    show (Core.exitSwitch _ _ _ _).objects = _
    rw [Core.exitSwitch, Core.wakeAll_eq]
    rfl
  have hlocks : ∀ l, b.core.locks l = none ↔ a.core.locks l = none := hframe.locks
  have hold : old = a.core.current := ha.eq_current hready
  have hnodup := ha.nodup .rq
  rw [lists, hready, List.nodup_cons] at hnodup
  have hlists : ∀ q, b.lists q =
      if q = .rq then rest ++ a.waiters w else if q = .wait w then [] else a.lists q := by
    intro q
    rw [hb, mapCore_lists]
    split_ifs with hq hq'
    · subst hq
      exact hrest.symm
    · subst hq'
      exact dropQueue_lists_self _ _
    · rw [dropQueue_lists_of_ne _ hq', setList_lists_of_ne a hq]
  have hfrom : ∀ q g, g ∈ b.lists q →
      g ≠ old ∧ (g ∈ a.lists q ∧ q ≠ .wait w ∨ q = .rq ∧ g ∈ a.lists (.wait w)) := by
    intro q g hg
    have hne : ∀ q', q' ≠ .rq → g ∈ a.lists q' → g ≠ old := by
      rintro q' hq' hmem rfl
      exact hq' (ha.separate.apart q' .rq g hmem (by rw [lists, hready]; exact List.mem_cons_self))
    rw [hlists] at hg
    split_ifs at hg with hq hq'
    · subst hq
      rcases List.mem_append.mp hg with hmem | hmem
      · refine ⟨fun heq ↦ hnodup.1 (heq ▸ hmem), .inl ⟨?_, by simp⟩⟩
        rw [lists, hready]
        exact List.mem_cons_of_mem _ hmem
      · exact ⟨hne (.wait w) (by simp) hmem, .inr ⟨rfl, hmem⟩⟩
    · cases hg
    · exact ⟨hne q hq hg, .inl ⟨hg, hq'⟩⟩
  refine ⟨⟨fun q g hg ↦ ?_, fun q q' g hg hg' ↦ ?_, fun l hl ↦ ?_⟩, fun q ↦ ?_, ⟨rest', rfl⟩,
    fun tid g ↦ ?_, fun g hg ↦ ?_, fun g hg ↦ ?_, fun tid hne ↦ ?_, fun v o ho hne ↦ ?_,
    fun l hl ↦ ?_⟩
  · obtain ⟨hne, hcases⟩ := hfrom q g hg
    rw [hallocated, hexited, if_neg hne]
    rcases hcases with ⟨hmem, -⟩ | ⟨-, hmem⟩
    · exact ha.separate.live q g hmem
    · exact ha.separate.live _ g hmem
  · obtain ⟨-, hcases⟩ := hfrom q g hg
    obtain ⟨-, hcases'⟩ := hfrom q' g hg'
    rcases hcases with ⟨hmem, hq⟩ | ⟨hq, hmem⟩ <;> rcases hcases' with ⟨hmem', hq'⟩ | ⟨hq', hmem'⟩
    · exact ha.separate.apart q q' g hmem hmem'
    · exact absurd (ha.separate.apart q _ g hmem hmem') hq
    · exact absurd (ha.separate.apart q' _ g hmem' hmem) hq'
    · rw [hq, hq']
  · rw [ne_eq, hlocks] at hl
    have hne : WaitQueue.lock l ≠ w := by simp [hw]
    show ((a.setList .rq (new :: rest')).dropQueue w).waiting (.lock l) ≠ none
    simp only [dropQueue, Function.update_of_ne hne]
    exact ha.separate.lock l hl
  · rw [hlists]
    split_ifs
    · rw [List.nodup_append]
      refine ⟨hnodup.2, ha.nodup (.wait w), fun g hg g' hg' heq ↦ ?_⟩
      have hmem : g ∈ a.lists .rq := by
        rw [lists, hready]
        exact List.mem_cons_of_mem _ hg
      have := ha.separate.apart .rq (.wait w) g hmem (heq ▸ hg')
      cases this
    · exact List.nodup_nil
    · exact ha.nodup q
  · rw [hthreads, hallocated, hid, hexited, Function.update_apply]
    have hlive := ha.current_live
    rw [← hold] at hlive
    split_ifs with htid hg hg
    · simp
    · -- No other thread has the id of the one that exits.
      subst htid
      simp only [false_iff, not_and]
      intro hlt hgx hgid
      exact hg (ha.eq_of_id_eq hlt hgx hlive.1 hlive.2 hgid)
    · subst hg
      simp only [false_and, and_false, iff_false]
      intro hsome
      exact htid ((ha.threads tid g).mp hsome).2.2.symm
    · exact ha.threads tid g
  · rw [hid]
    exact ha.id_lt g (by rwa [hallocated] at hg)
  · rw [hallocated] at hg
    rw [hexited, if_neg]
    · exact ha.unused g hg
    · have hlive := ha.current_live
      rw [← hold] at hlive
      omega
  · change Function.update a.waiting w none (.thread tid) ≠ none at hne
    rw [Function.update_apply] at hne
    split_ifs at hne with htid
    · exact absurd rfl hne
    · rw [hthreads, Function.update_of_ne fun heq ↦ htid (by rw [heq])]
      exact ha.waiting_thread tid hne
  · change Function.update a.waiting w none v ≠ none at hne
    rw [Function.update_apply] at hne
    split_ifs at hne with hv
    · exact absurd rfl hne
    · rw [hobjects]
      exact ha.waiting_object v o ho hne
  · rw [ne_eq, hlocks] at hl
    rw [hobjects]
    exact ha.lock_object l hl

/-- A queue without threads is added under a number not used yet. -/
theorem addQueue (ha : a.Ordered) (hw : w.object = some a.core.objects) {f : Core → Core}
    (hf : ({ a.core with locks := (f a.core).locks }).Frame (f a.core))
    (hlocks : ∀ l, (f a.core).locks l ≠ none → a.core.locks l ≠ none ∨ w = .lock l)
    (hcurrent : (f a.core).current = a.core.current)
    (hobjects : (f a.core).objects = a.core.objects + 1) :
    ((a.setList (.wait w) []).mapCore f).Ordered := by
  have hshrink : (a.setList (.wait w) []).Separate := ha.separate.shrink (by simp) (by simp)
  have hlists : ∀ q, ((a.setList (.wait w) []).mapCore f).lists q =
      if q = .wait w then [] else a.lists q := by
    intro q
    rw [mapCore_lists]
    split_ifs with hq
    · subst hq
      exact setList_lists_self a (by simp) _
    · exact setList_lists_of_ne a hq _
  have hwaiting : ∀ v, ((a.setList (.wait w) []).mapCore f).waiting v =
      if v = w then some [] else a.waiting v := fun v ↦ Function.update_apply ..
  refine ⟨⟨fun q g hg ↦ ?_, fun q q' g hg hg' ↦ ?_, fun l hl ↦ ?_⟩, fun q ↦ ?_, ?_,
    fun tid g ↦ ?_, fun g hg ↦ ?_, fun g hg ↦ ?_, fun tid hne ↦ ?_, fun v o ho hne ↦ ?_,
    fun l hl ↦ ?_⟩
  · rw [mapCore_lists] at hg
    obtain ⟨hlt, hlive⟩ := hshrink.live q g hg
    exact ⟨hf.allocated ▸ hlt, (hf.exited g).trans hlive⟩
  · rw [mapCore_lists] at hg hg'
    exact hshrink.apart q q' g hg hg'
  · rw [hwaiting]
    split_ifs with hv
    · simp
    · rcases hlocks l hl with hold | heq
      · exact ha.separate.lock l hold
      · exact absurd heq.symm hv
  · rw [hlists]
    split_ifs
    · exact List.nodup_nil
    · exact ha.nodup q
  · rw [mapCore_core, setList_core, hcurrent]
    exact ha.running
  · rw [mapCore_core, setList_core, hf.threads, hf.allocated, hf.exited, hf.id]
    exact ha.threads tid g
  · rw [mapCore_core, setList_core, hf.id]
    exact ha.id_lt g (hf.allocated ▸ hg)
  · rw [mapCore_core, setList_core, hf.exited]
    exact ha.unused g (hf.allocated ▸ hg)
  · rw [hwaiting] at hne
    split_ifs at hne with hv
    · subst hv
      cases hw
    · rw [mapCore_core, setList_core, hf.threads]
      exact ha.waiting_thread tid hne
  · rw [mapCore_core, setList_core, hobjects]
    rw [hwaiting] at hne
    split_ifs at hne with hv
    · subst hv
      rw [hw, Option.some.injEq] at ho
      omega
    · have := ha.waiting_object v o ho hne
      omega
  · rw [mapCore_core, setList_core, hobjects]
    rcases hlocks l hl with hold | rfl
    · have := ha.lock_object l hold
      omega
    · have := Option.some.inj hw
      omega

/-- A queue is removed, with its lock if it is that of a lock. -/
theorem dropQueue (ha : a.Ordered) (w : WaitQueue) {f : Core → Core}
    (hf : ({ a.core with locks := (f a.core).locks }).Frame (f a.core))
    (hlocks : ∀ l, (f a.core).locks l ≠ none → a.core.locks l ≠ none ∧ w ≠ .lock l)
    (hcurrent : (f a.core).current = a.core.current)
    (hobjects : (f a.core).objects = a.core.objects) :
    ((a.dropQueue w).mapCore f).Ordered := by
  have hlists : ∀ q, ((a.dropQueue w).mapCore f).lists q =
      if q = .wait w then [] else a.lists q := by
    intro q
    rw [mapCore_lists]
    split_ifs with hq
    · subst hq
      exact dropQueue_lists_self a _
    · exact dropQueue_lists_of_ne a hq
  have hsub : ∀ q g, g ∈ ((a.dropQueue w).mapCore f).lists q → g ∈ a.lists q := by
    intro q g hg
    rw [hlists] at hg
    split_ifs at hg
    · cases hg
    · exact hg
  have hwaiting : ∀ v, ((a.dropQueue w).mapCore f).waiting v =
      if v = w then none else a.waiting v := fun v ↦ Function.update_apply ..
  have hkept : ∀ v, ((a.dropQueue w).mapCore f).waiting v ≠ none → a.waiting v ≠ none := by
    intro v hne
    rw [hwaiting] at hne
    split_ifs at hne
    · exact absurd rfl hne
    · exact hne
  refine ⟨⟨fun q g hg ↦ ?_, fun q q' g hg hg' ↦ ?_, fun l hl ↦ ?_⟩, fun q ↦ ?_, ?_,
    fun tid g ↦ ?_, fun g hg ↦ ?_, fun g hg ↦ ?_, fun tid hne ↦ ?_, fun v o ho hne ↦ ?_,
    fun l hl ↦ ?_⟩
  · obtain ⟨hlt, hlive⟩ := ha.separate.live q g (hsub q g hg)
    exact ⟨hf.allocated ▸ hlt, (hf.exited g).trans hlive⟩
  · exact ha.separate.apart q q' g (hsub q g hg) (hsub q' g hg')
  · obtain ⟨hold, hne⟩ := hlocks l hl
    rw [hwaiting, if_neg hne.symm]
    exact ha.separate.lock l hold
  · rw [hlists]
    split_ifs
    · exact List.nodup_nil
    · exact ha.nodup q
  · rw [mapCore_core, dropQueue_core, hcurrent]
    exact ha.running
  · rw [mapCore_core, dropQueue_core, hf.threads, hf.allocated, hf.exited, hf.id]
    exact ha.threads tid g
  · rw [mapCore_core, dropQueue_core, hf.id]
    exact ha.id_lt g (hf.allocated ▸ hg)
  · rw [mapCore_core, dropQueue_core, hf.exited]
    exact ha.unused g (hf.allocated ▸ hg)
  · rw [mapCore_core, dropQueue_core, hf.threads]
    exact ha.waiting_thread tid (hkept _ hne)
  · rw [mapCore_core, dropQueue_core, hobjects]
    exact ha.waiting_object v o ho (hkept v hne)
  · rw [mapCore_core, dropQueue_core, hobjects]
    exact ha.lock_object l (hlocks l hl).1

/-- A statement keeps the order. -/
theorem executes (ha : a.Ordered) (hexec : a.Executes i b) : b.Ordered := by
  cases hexec with
  | off => exact ha.mapCore (Core.frame_interruptsOff _) rfl rfl
  | @set c hset =>
    have hsame : c.objects = a.core.objects ∧ c.current = a.core.current := by
      rw [Core.interruptsSet] at hset
      split at hset
      · cases hset
      · obtain rfl := Option.some.inj hset
        exact ⟨rfl, rfl⟩
    exact ha.mapCore (f := fun _ ↦ c) (Core.frame_interruptsSet hset) hsame.1 hsame.2
  | on => exact ha.mapCore (Core.frame_flag _ true) rfl rfl
  | sigreturn => exact ha.mapCore (Core.frame_flag _ true) rfl rfl
  | createNomore | createNomemory | yieldNone | yieldInvalid | sleepInvalid | sleepNone
  | wakeupNone | killFails | waitFails | waitReturn =>
    exact ha.mapCore (Core.frame_setRet _ _) rfl rfl
  | create hid hfree => exact ha.create hid hfree
  | @yieldSelf want old rest hready =>
    refine ha.move (Core.frame_yieldSwitch _ _ _) rfl
      (ha.separate.mapCore (Core.frame_yieldSwitch _ _ _)) (fun q ↦ ?_) ⟨rest, hready⟩
      fun w hne ↦ .inl hne
    rw [mapCore_lists]
    exact ha.nodup q
  | @yieldSwitch want old target before after hready =>
    refine ha.permute ?_ (Core.frame_yieldSwitch _ _ _) rfl ⟨_, rfl⟩
    rw [hready]
    have hlast : (target :: (before ++ after) ++ [old]).Perm (old :: target :: (before ++ after)) :=
      List.perm_append_comm
    exact hlast.trans (List.Perm.cons old List.perm_middle.symm)
  | sleep hready hw => exact ha.sleep hready hw
  | wakeup hw =>
    refine ha.wakeup hw ((Core.frame_wakeAll _ _ _).trans (Core.frame_setRet _ _)) ?_ ?_ <;>
      rw [Core.wakeAll_eq] <;> rfl
  | @kill tid old h =>
    exact ha.mapCore (f := fun c ↦ (c.setThreadStatus h .exited).setRet (c.tcb h).id)
      ((Core.frame_setThreadStatus _ _ _).trans (Core.frame_setRet _ _)) rfl rfl
  | @wait tid old h rest hready hself htid hthread =>
    have hkept : (a.setList (.wait (.thread tid.toNat)) (a.waiters (.thread tid.toNat))).Separate :=
      ha.separate.shrink (by simp) fun g hg ↦ hg
    refine ha.move (Core.frame_push _ _) rfl (hkept.mapCore (Core.frame_push _ _)) (fun q ↦ ?_)
      ha.running fun v hne ↦ ?_
    · rw [mapCore_lists]
      by_cases hq : q = .wait (.thread tid.toNat)
      · subst hq
        rw [setList_lists_self _ (by simp)]
        exact ha.nodup (.wait _)
      · rw [setList_lists_of_ne _ hq]
        exact ha.nodup q
    · simp only [mapCore_waiting, setList, Function.update_apply] at hne
      split_ifs at hne with hv
      · exact .inr ⟨tid.toNat, hv, by simp [hthread]⟩
      · exact .inl hne
  | checkPasses => exact ha
  | checkExits => exact ha.mapCore (Core.frame_abandon _) rfl rfl
  | setRunning => exact ha.mapCore (Core.frame_setThreadStatus _ _ _) rfl rfl
  | clear => exact ha.mapCore (Core.frame_push _ _) rfl rfl
  | exit hready hrest => exact ha.exit hready hrest
  | lockCreate =>
    refine ha.addQueue rfl ((Core.frame_objects _ _).trans (Core.frame_setRet _ _)) (fun l hl ↦ ?_)
      rfl rfl
    change Function.update a.core.locks _ _ l ≠ none at hl
    rw [Function.update_apply] at hl
    split_ifs at hl with hlo
    · exact .inr (by rw [hlo])
    · exact .inl hl
  | lockDestroy hlock hfree =>
    refine ha.dropQueue _ (Core.Frame.refl _) (fun m hm ↦ ?_) rfl rfl
    change Function.update a.core.locks _ _ m ≠ none at hm
    rw [Function.update_apply] at hm
    split_ifs at hm with hml
    · exact absurd rfl hm
    · exact ⟨hm, by simpa [eq_comm] using hml⟩
  | acquireBlocked => exact ha.mapCore (Core.frame_push _ _) rfl rfl
  | acquire hready hlock hfree => exact ha.mapCore (Core.frame_setLock _ _ hlock) rfl rfl
  | @release l old rest k hready hlock hheld hthread hwaiting =>
    obtain ⟨waiters, hw⟩ := Option.ne_none_iff_exists'.mp hwaiting
    have hw' : a.waiting (.lock l) = some (a.waiters (.lock l) ++ []) := by
      rw [List.append_nil, Ideal.waiters, hw, Option.getD_some]
    refine ha.wakeup hw' (((Core.frame_setLock _ _ hlock).trans (Core.frame_interruptsOff _)).trans
      (Core.frame_wakeAll _ _ _)) ?_ ?_ <;> rw [Core.wakeAll_eq] <;> rfl
  | cvCreate =>
    exact ha.addQueue rfl ((Core.frame_objects _ _).trans (Core.frame_setRet _ _))
      (fun l hl ↦ .inl hl) rfl rfl
  | cvDestroy hwaiting =>
    exact ha.dropQueue _ (f := id) (Core.Frame.refl _) (fun l hl ↦ ⟨hl, by simp⟩) rfl rfl
  | assertHeld => exact ha
  | queueCreate =>
    exact ha.addQueue rfl ((Core.frame_objects _ _).trans (Core.frame_setRet _ _))
      (fun l hl ↦ .inl hl) rfl rfl

/-- A move keeps the order. -/
theorem transition (ha : a.Ordered) (h : a.Transition m b) : b.Ordered := by
  cases h with
  | timer => exact ha.mapCore (Core.frame_interrupt _) rfl rfl
  | call => exact ha.mapCore (Core.frame_begin _ _) rfl rfl
  | interrupts => exact ha.mapCore (Core.frame_flag _ _) rfl rfl
  | @instr _ i rest b htodo hexec =>
    have hpopped := ha.mapCore
      (f := (·.modify a.core.current fun t ↦ { t with todo := rest }))
      (Core.frame_modify _ _ (fun _ ↦ rfl) fun _ ↦ rfl) rfl rfl
    exact (hpopped.executes hexec).mapCore (Core.frame_finish _ _) rfl rfl

end Ordered

/-- The scheduler after `thread_init`. -/
def init : Ideal where
  core := State.init.core
  ready := [0]
  waiting := fun _ ↦ none

theorem init_ordered : init.Ordered where
  separate :=
    { live := fun q h hh ↦ by
        cases q with
        | rq =>
          obtain rfl := List.mem_singleton.mp hh
          exact ⟨Nat.zero_lt_one, rfl⟩
        | eq => cases hh
        | wait w => cases hh
      apart := fun q q' h hh hh' ↦ by
        cases q with
        | rq => cases q' <;> first | rfl | cases hh'
        | eq => cases hh
        | wait w => cases hh
      lock := fun l hl ↦ absurd rfl hl }
  nodup q := by cases q <;> simp [lists, init, waiters]
  running := ⟨[], rfl⟩
  threads tid h := by
    simp only [init, State.init, Function.update_apply]
    split_ifs with htid
    · rw [Option.some.injEq]
      constructor
      · rintro rfl
        exact ⟨Nat.zero_lt_one, rfl, htid.symm⟩
      · rintro ⟨hlt, -, -⟩
        exact (Nat.lt_one_iff.mp hlt).symm
    · simp only [Thread.start, false_iff, not_and]
      intro _ _ heq
      exact htid heq.symm
  id_lt h hh := Nat.zero_lt_of_lt (show 0 < threadMaxThreads by decide)
  unused h hh := rfl
  waiting_thread tid hne := absurd rfl hne
  waiting_object w o ho hne := absurd rfl hne
  lock_object l hne := absurd rfl hne

end Ideal

/-- The state after `thread_init` describes the scheduler after `thread_init`. -/
theorem init_linked : Linked State.init Ideal.init where
  core := rfl
  queue q k hq hk := by
    cases q with
    | rq =>
      obtain rfl := Option.some.inj hk
      refine ⟨⟨rfl, rfl⟩, fun r t heq ↦ ?_, rfl⟩
      cases r with
      | nil => rw [(List.cons.inj heq).1]
      | cons g r =>
        have hlength := congrArg List.length heq
        simp [Ideal.lists, Ideal.init] at hlength
    | eq => exact absurd rfl hq
    | wait w => cases hk
  ready := by simp [State.init]
  waiting w := by simp [State.init, Ideal.init]
  tail := ⟨Library.LinkedQueue.Queue.empty, by simp [State.init], fun t ht ↦ by cases ht⟩

/-- Assumes: a property of the scheduler over lists that every permitted move keeps. It holds along
every run of permitted moves of the code, until the process ends. -/
theorem Linked.reaches {permitted : State → Move → Prop} {I : Ideal → Prop} {s : State}
    (hstep : ∀ s a m b, Linked s a → a.Ordered → I a → permitted s m → a.Transition m b → I b)
    (hinit : I Ideal.init) (hrun : Library.Machine.Reaches permitted State.step State.init s) :
    s.core.halted = true ∨ ∃ a, Linked s a ∧ a.Ordered ∧ I a := by
  refine Library.Machine.Reaches.invariant
    (I := fun s ↦ s.core.halted = true ∨ ∃ a, Linked s a ∧ a.Ordered ∧ I a) ?_ hrun
    (.inr ⟨_, init_linked, Ideal.init_ordered, hinit⟩)
  intro s m t hs hpermitted hmove
  rcases hs with hhalted | ⟨a, hlinked, hordered, hI⟩
  · -- The process has ended, and no move is left.
    cases m <;> simp [State.step, hhalted] at hmove
    split at hmove <;> cases hmove
  · rcases hlinked.step_refines hordered.separate (hordered.unused _ (Nat.le_refl _)) hmove with
      hend | ⟨b, htransition, hb⟩
    · exact .inl hend
    · exact .inr ⟨b, hb, hordered.transition htransition,
        hstep s a m b hlinked hordered hI hpermitted htransition⟩

end OperatingSystems.Threads
