import Mathlib.Data.List.Nodup
import Mathlib.Data.List.Perm.Subperm
import OperatingSystems.Threads.Scheduler

/-!
# What `thread_yield` does to the ready queue

`Reorders` says that the nodes of the ready queue have been put in another order, and nothing else
has been changed. `thread_yield` looks for the node before the wanted one while the running thread
is still at the head, moves the head to the end and uses that node then; `State.threadYield_spec`
gives the order it arrives at in each case.
-/

set_option autoImplicit false
set_option relaxedAutoImplicit false

namespace OperatingSystems.Threads

open OperatingSystems.Library.LinkedQueue (Queue IsQueue Path)

namespace State

variable {s t u : State} {l l' l'' before rest after : List ℕ} {n old prev target : ℕ}

/-- The record of the queue is right, and it has the threads, in order: its size is their number. -/
def HasQueue (s : State) (q : QueueId) (l : List ℕ) : Prop :=
  ∃ k, s.queues q = some k ∧ IsQueue s.next k l

theorem HasQueue.eq {q : QueueId} (h : s.HasQueue q l) (h' : s.HasQueue q l') : l = l' := by
  obtain ⟨k, hk, hqueue⟩ := h
  obtain ⟨k', hk', hqueue'⟩ := h'
  obtain rfl := Option.some.inj (hk.symm.trans hk')
  exact hqueue.eq hqueue'

/-- The list of the threads in the ready queue. -/
def Ready (s : State) (l : List ℕ) : Prop := ∃ k, s.queues .rq = some k ∧ IsQueue s.next k l

/-- The nodes of the ready queue are put in another order. -/
def Reorders (s t : State) (l l' : List ℕ) : Prop :=
  ∃ next k, t = { s with next := next, queues := Function.update s.queues .rq (some k) } ∧
    IsQueue next k l' ∧ ∀ g ∉ l, next g = s.next g

theorem Reorders.ready (h : s.Reorders t l l') : t.Ready l' := by
  obtain ⟨next, k, rfl, hqueue, -⟩ := h
  exact ⟨k, by simp, hqueue⟩

theorem Reorders.core (h : s.Reorders t l l') : t.core = s.core := by
  obtain ⟨next, k, rfl, -, -⟩ := h
  rfl

theorem Reorders.trans (h : s.Reorders t l l') (h' : t.Reorders u l' l'')
    (hmem : ∀ g, g ∈ l' → g ∈ l) : s.Reorders u l l'' := by
  obtain ⟨next, k, rfl, -, hframe⟩ := h
  obtain ⟨next', k', rfl, hqueue, hframe'⟩ := h'
  refine ⟨next', k', by simp, hqueue, fun g hg ↦ ?_⟩
  exact (hframe' g fun hin ↦ hg (hmem g hin)).trans (hframe g hg)

/-- The head is moved to the end. -/
theorem moveHeadToEnd_spec (hs : s.Ready (n :: l)) :
    ∃ t, s.moveHeadToEnd .rq = some t ∧ s.Reorders t (n :: l) (l ++ [n]) := by
  obtain ⟨k, hk, hqueue⟩ := hs
  obtain ⟨next, k', hmove, hqueue', hframe⟩ := hqueue.moveHeadToEnd
  refine ⟨_, ?_, next, k', rfl, hqueue', hframe⟩
  simp only [State.moveHeadToEnd, hk, Option.bind_eq_bind, Option.bind_some, hmove]

/-- `move_to_head` leaves a queue alone that the node heads already. -/
theorem moveToHead_first (hs : s.Ready (n :: l)) (prev : Option ℕ) :
    s.moveToHead .rq n prev = some s := by
  obtain ⟨k, hk, hqueue⟩ := hs
  have hhead : k.head = some n := by rw [hqueue.head_eq, List.head?_cons]
  simp [State.moveToHead, hk, hhead]

/-- An inner node is moved to the head. -/
theorem moveToHead_spec (hs : s.Ready (before ++ prev :: n :: after)) :
    ∃ t, s.moveToHead .rq n (some prev) = some t ∧
      s.Reorders t (before ++ prev :: n :: after) (n :: (before ++ prev :: after)) := by
  obtain ⟨k, hk, hqueue⟩ := hs
  have hsize : ¬k.size ≤ 1 := by
    rw [hqueue.size]
    simp only [List.length_append, List.length_cons]
    omega
  have hnodup := hqueue.nodup
  have hhead : k.head ≠ some n := by
    rw [hqueue.head_eq]
    cases before with
    | nil =>
      simp only [List.nil_append, List.nodup_cons, List.mem_cons] at hnodup
      simp only [List.nil_append, List.head?_cons, ne_eq, Option.some.injEq]
      exact fun heq ↦ hnodup.1 (.inl heq)
    | cons g before =>
      simp only [List.cons_append, List.nodup_cons, List.mem_append, List.mem_cons] at hnodup
      simp only [List.cons_append, List.head?_cons, ne_eq, Option.some.injEq]
      exact fun heq ↦ hnodup.1 (.inr (.inr (.inl heq)))
  refine ⟨_, ?_, _, _, rfl, hqueue.moveToHead, fun g hg ↦ ?_⟩
  · simp [State.moveToHead, hk, hsize, hhead]
  · simp only [List.mem_append, List.mem_cons, not_or] at hg
    simp only [Library.LinkedQueue.moveToHead]
    rw [Function.update_of_ne hg.2.2.1, Function.update_of_ne hg.2.1]

/-- The loop ends at a node with the id, with the node before it, or finds none. -/
theorem findLoop_spec (s : State) (tid : ℤ) {fuel cur : ℕ}
    (hpath : Path s.next (s.next cur) l none) (hfuel : l.length < fuel) :
    (∃ prev, s.findLoop tid fuel cur = some (prev, none) ∧ ∀ h ∈ l, (s.core.tcb h).id ≠ tid) ∨
      ∃ before prev target after, cur :: l = before ++ prev :: target :: after ∧
        s.findLoop tid fuel cur = some (prev, some target) ∧ (s.core.tcb target).id = tid := by
  induction l generalizing fuel cur with
  | nil =>
    obtain ⟨fuel, rfl⟩ := Nat.exists_eq_succ_of_ne_zero (Nat.ne_of_gt hfuel)
    have hnext : s.next cur = none := hpath
    exact .inl ⟨cur, by simp [findLoop, hnext], by simp⟩
  | cons g l ih =>
    obtain ⟨fuel, rfl⟩ := Nat.exists_eq_succ_of_ne_zero (Nat.ne_of_gt (Nat.zero_lt_of_lt hfuel))
    obtain ⟨hnext, hrest⟩ := hpath
    by_cases hid : (s.core.tcb g).id = tid
    · exact .inr ⟨[], cur, g, l, rfl, by simp [findLoop, hnext, hid], hid⟩
    · have hloop : s.findLoop tid (fuel + 1) cur = s.findLoop tid fuel g := by
        simp [findLoop, hnext, hid]
      rw [Nat.succ_eq_add_one, hloop]
      rcases ih hrest (by simpa using hfuel) with ⟨prev, hfind, hne⟩ | ⟨before, prev, target, after,
        hl, hfind, htid⟩
      · refine .inl ⟨prev, hfind, fun h hmem ↦ ?_⟩
        rcases List.mem_cons.mp hmem with rfl | hmem
        · exact hid
        · exact hne h hmem
      · exact .inr ⟨cur :: before, prev, target, after, by rw [hl, List.cons_append], hfind, htid⟩

/-- The outcomes of `thread_yield`. -/
inductive Yields (s : State) (old : ℕ) (rest : List ℕ) : ℤ → State → Prop
  | alone (hrest : rest = []) : Yields s old rest threadAny (s.mapCore (·.setRet threadNone))
  | self {want : ℤ} (hany : want ≠ threadAny)
      (hwant : want = threadSelf ∨ want = (s.core.tcb old).id) :
    Yields s old rest want (s.yieldSwitch old old)
  | switch {want : ℤ} {p q : List ℕ} {target : ℕ} {u : State}
      (hrest : rest = p ++ target :: q)
      (hwant : want = threadAny ∧ p = [] ∨ want = (s.core.tcb target).id)
      (hreorders : s.Reorders u (old :: rest) (target :: (p ++ q ++ [old]))) :
    Yields s old rest want (u.yieldSwitch old target)
  | invalid {want : ℤ} (hany : want ≠ threadAny)
      (hself : want ≠ threadSelf) (hwant : ∀ h ∈ old :: rest, (s.core.tcb h).id ≠ want) :
    Yields s old rest want (s.mapCore (·.setRet threadInvalid))

/-- Assumes: a ready queue of allocated threads. `thread_yield` ends, in one of its outcomes. -/
theorem threadYield_spec (hs : s.Ready (old :: rest)) (hlength : rest.length ≤ s.core.allocated)
    (want : ℤ) : ∃ t, s.threadYield want = some t ∧ s.Yields old rest want t := by
  obtain ⟨k, hk, hqueue⟩ := hs
  have hhead : k.head = some old := by rw [hqueue.head_eq, List.head?_cons]
  have hsize : k.size = rest.length + 1 := by simpa using hqueue.size
  by_cases hany : want = threadAny
  · subst hany
    cases rest with
    | nil =>
      refine ⟨_, ?_, .alone rfl⟩
      simp [threadYield, hk, hhead, hsize]
    | cons target rest =>
      have hone : k.size ≠ 1 := by
        simp only [List.length_cons] at hsize
        omega
      have hnext : s.next old = some target := hqueue.path.2.1
      obtain ⟨u, hmove, hu⟩ := moveHeadToEnd_spec ⟨k, hk, hqueue⟩
      refine ⟨u.yieldSwitch old target, ?_, .switch (p := []) rfl (.inl ⟨rfl, rfl⟩) hu⟩
      simp only [threadYield, hk, hhead, hone, hnext, hmove, Option.bind_eq_bind, Option.bind_some,
        if_true, if_false]
  by_cases hself : want = threadSelf ∨ want = (s.core.tcb old).id
  · refine ⟨_, ?_, .self hany hself⟩
    simp only [threadYield, hk, hhead, hany, hself, Option.bind_eq_bind, Option.bind_some, if_true,
      if_false]
  have hid : ((s.core.tcb old).id : ℤ) ≠ want := fun heq ↦ hself (.inr heq.symm)
  rcases s.findLoop_spec want hqueue.path.2
      (show rest.length < s.core.allocated + 1 by omega) with
    ⟨prev, hfind, hne⟩ | ⟨before, prev, target, after, hlist, hfind, htid⟩
  · refine ⟨_, ?_, .invalid hany (fun heq ↦ hself (.inl heq)) fun h hmem ↦ ?_⟩
    · simp only [threadYield, findInQueueWithPrev, hk, hhead, hany, hself, hid, hfind,
        Option.bind_eq_bind, Option.bind_some, if_false]
    · rcases List.mem_cons.mp hmem with rfl | hmem
      · exact hid
      · exact hne h hmem
  · obtain ⟨u, hmove, hu⟩ := moveHeadToEnd_spec ⟨k, hk, hqueue⟩
    have hrun : s.threadYield want = (u.moveToHead .rq target (some prev)).bind fun v ↦
        some (v.yieldSwitch old target) := by
      simp only [threadYield, findInQueueWithPrev, hk, hhead, hany, hself, hid, hfind, hmove,
        Option.bind_eq_bind, Option.bind_some, if_false]
    cases before with
    | nil =>
      -- The node before the wanted one is the head, and has gone to the end.
      obtain ⟨rfl, rfl⟩ := List.cons.inj hlist
      have hready : u.Ready (target :: (after ++ [old])) := hu.ready
      refine ⟨u.yieldSwitch old target, ?_, .switch (p := []) rfl (.inr htid.symm) hu⟩
      rw [hrun, moveToHead_first hready, Option.bind_some]
    | cons g before =>
      rw [List.cons_append] at hlist
      obtain ⟨rfl, rfl⟩ := List.cons.inj hlist
      have hready : u.Ready (before ++ prev :: target :: (after ++ [old])) := by
        simpa using hu.ready
      obtain ⟨v, hmove', hv⟩ := moveToHead_spec hready
      refine ⟨v.yieldSwitch old target, by rw [hrun, hmove', Option.bind_some],
        .switch (p := before ++ [prev]) (q := after) (by simp) (.inr htid.symm) ?_⟩
      have hboth := hu.trans (by simpa using hv) (fun g hg ↦ by
        simp only [List.mem_append, List.mem_cons] at hg ⊢
        tauto)
      simpa using hboth

/-- The running thread `old` makes way for the first of the list, which is now the list of the ready
queue. Nothing else changes. -/
structure SwitchesTo (s t : State) (old target : ℕ) (l l' : List ℕ) : Prop where
  ready : t.Ready l'
  length : l'.length = l.length
  head : l'.head? = some target
  current : t.core.current = target
  core : t.core = (s.yieldSwitch old target).core
  queues : ∀ q ≠ .rq, t.queues q = s.queues q
  next : ∀ g ∉ l, t.next g = s.next g

theorem Reorders.switchesTo (h : s.Reorders u l (target :: l')) (hlength : (target :: l').length =
    l.length) : s.SwitchesTo (u.yieldSwitch old target) old target l (target :: l') := by
  obtain ⟨next, k, rfl, hqueue, hframe⟩ := h
  exact ⟨⟨k, by simp [yieldSwitch, mapCore], hqueue⟩, hlength, rfl, rfl, rfl,
    fun q hq ↦ Function.update_of_ne hq .., hframe⟩

/-- Assumes: the ready queue is a list of allocated threads with different ids, the running thread
`old` first. -/
theorem thread_yield_permutes (hs : s.Ready (old :: l))
    (hallocated : ∀ h ∈ old :: l, h < s.core.allocated)
    (hids : ((old :: l).map fun h ↦ (s.core.tcb h).id).Nodup) (want : ℤ) :
    ∃ t, s.threadYield want = some t ∧
      (want = threadAny → l = [] → t = s.mapCore (·.setRet threadNone)) ∧
      (∀ x rest, want = threadAny → l = x :: rest →
        s.SwitchesTo t old x (old :: l) (x :: (rest ++ [old]))) ∧
      (want = threadSelf ∨ want = (s.core.tcb old).id →
        s.SwitchesTo t old old (old :: l) (old :: l)) ∧
      (∀ before x after, l = before ++ x :: after → want = (s.core.tcb x).id →
        s.SwitchesTo t old x (old :: l) (x :: (before ++ after ++ [old]))) ∧
      (want ≠ threadAny → want ≠ threadSelf → (∀ h ∈ old :: l, (s.core.tcb h).id ≠ want) →
        t = s.mapCore (·.setRet threadInvalid)) := by
  have hnodup : (old :: l).Nodup := by
    obtain ⟨k, -, hqueue⟩ := hs
    exact hqueue.nodup
  have hlength : l.length ≤ s.core.allocated := by
    have hsub : old :: l ⊆ List.range s.core.allocated := fun g hg ↦
      List.mem_range.mpr (hallocated g hg)
    have hle := (List.subperm_of_subset hnodup hsub).length_le
    simp only [List.length_cons, List.length_range] at hle
    omega
  have hinj : ∀ g ∈ old :: l, ∀ h ∈ old :: l, (s.core.tcb g).id = (s.core.tcb h).id → g = h :=
    fun g hg h hh heq ↦ List.inj_on_of_nodup_map hids hg hh heq
  obtain ⟨t, hexec, hyields⟩ := threadYield_spec hs hlength want
  have hnat : ∀ h : ℕ, ((s.core.tcb h).id : ℤ) ≠ threadAny ∧ ((s.core.tcb h).id : ℤ) ≠ threadSelf :=
    fun h ↦ by
      simp only [threadAny, threadSelf]
      omega
  refine ⟨t, hexec, ?_⟩
  cases hyields with
  | alone hrest =>
    subst hrest
    refine ⟨fun _ _ ↦ rfl, by simp, ?_, by simp, by simp⟩
    rintro (hself | hself)
    · exact absurd hself (by decide)
    · exact absurd hself.symm (hnat old).1
  | self hany hwant =>
    refine ⟨fun h ↦ absurd h hany, fun _ _ h ↦ absurd h hany, fun _ ↦ ?_, ?_, fun _ hself hother ↦
      ?_⟩
    · exact ⟨hs, rfl, rfl, rfl, rfl, fun _ _ ↦ rfl, fun _ _ ↦ rfl⟩
    · rintro before x after hl rfl
      have hid := hwant.resolve_left (hnat x).2
      have heq := hinj x (by simp [hl]) old (by simp) (Int.ofNat_inj.mp hid)
      rw [hl, heq] at hnodup
      simp at hnodup
    · exact absurd (hwant.resolve_left hself).symm (hother old (by simp))
  | @switch _ before after target u hrest hwant hreorders =>
    have hswitch : s.SwitchesTo (u.yieldSwitch old target) old target (old :: l)
        (target :: (before ++ after ++ [old])) :=
      hreorders.switchesTo (by simp [hrest, Nat.add_assoc])
    refine ⟨?_, ?_, ?_, ?_, ?_⟩
    · rintro - rfl
      simp at hrest
    · rintro x rest hany rfl
      have hbefore := (hwant.resolve_right (by rw [hany]; exact (hnat target).1.symm)).2
      subst hbefore
      obtain ⟨rfl, rfl⟩ := List.cons.inj hrest
      exact hswitch
    · intro hself
      have hid : want = (s.core.tcb target).id := hwant.resolve_left fun h ↦ by
        rcases hself with hself | hself
        · exact absurd (h.1.symm.trans hself) (by decide)
        · exact absurd (hself.symm.trans h.1) (hnat old).1
      have hself' : want = (s.core.tcb old).id :=
        hself.resolve_left fun h ↦ (hnat target).2 (hid.symm.trans h)
      have heq := hinj target (by simp [hrest]) old (by simp)
        (Int.ofNat_inj.mp (hid.symm.trans hself'))
      rw [hrest, heq] at hnodup
      simp at hnodup
    · rintro before' x after' hl rfl
      have hid := hwant.resolve_left fun h ↦ (hnat x).1 h.1
      have heq := hinj x (by simp [hl]) target (by simp [hrest]) (Int.ofNat_inj.mp hid)
      subst heq
      have hnodup' := (List.nodup_cons.mp hnodup).2
      rw [hl, List.nodup_append, List.nodup_cons] at hnodup'
      obtain ⟨-, ⟨hafter, -⟩, happart⟩ := hnodup'
      have hbefore : x ∉ before' := fun hmem ↦ happart x hmem x List.mem_cons_self rfl
      obtain ⟨rfl, -, rfl⟩ := (List.append_cons_inj_of_notMem hbefore hafter).mp (hl ▸ hrest)
      exact hswitch
    · intro hany hself hother
      have hid := hwant.resolve_left fun h ↦ hany h.1
      exact absurd hid.symm (hother target (by simp [hrest]))
  | invalid hany hself hwant =>
    refine ⟨fun h ↦ absurd h hany, fun _ _ h ↦ absurd h hany, fun h ↦ ?_, ?_, fun _ _ _ ↦ rfl⟩
    · exact absurd (h.resolve_left hself).symm (hwant old (by simp))
    · rintro before x after rfl hid
      exact absurd hid.symm (hwant x (by simp))

/-- Three threads are ready and the first yields to the last. -/
theorem thread_yield_permutes_last : ∃ s t : State, s.Ready [0, 1, 2] ∧
    s.threadYield 2 = some t ∧ s.SwitchesTo t 0 2 [0, 1, 2] [2, 1, 0] := by
  let s : State :=
    { init with
      core := { init.core with tcb := fun h ↦ .start h .ready false [], allocated := 3 }
      next := Function.update (Function.update (fun _ ↦ none) 0 (some 1)) 1 (some 2)
      queues := Function.update init.queues .rq (some ⟨some 0, some 2, 3⟩) }
  have hready : s.Ready [0, 1, 2] := by
    refine ⟨⟨some 0, some 2, 3⟩, rfl, ⟨rfl, rfl, rfl, rfl⟩, fun r a hlist ↦ ?_, rfl⟩
    have hlast := congrArg List.getLast? hlist
    simpa using hlast
  obtain ⟨t, ht, -, -, -, hyields, -⟩ := thread_yield_permutes hready
    (by decide) (by decide) 2
  exact ⟨s, t, hready, ht, hyields [1] 2 [] rfl rfl⟩

end State

end OperatingSystems.Threads
