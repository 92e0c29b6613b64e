import OperatingSystems.Threads.Conditions

/-!
# Calls that wait for an event

`thread_wait` and `cv_wait` put the calling thread into a wait queue, and return after it has left
the queue. `Phase` follows such a call from its start: the thread has not made its test yet, or it
is on the way to the queue with interrupts off (`Ideal.Committed`), or it is in the queue, or the
event has happened. A thread leaves a wait queue only by `thread_wakeup`, which the library calls
for the queue of a condition variable in `cv_signal` and `cv_broadcast`, or by the exit of the
thread whose queue it is (`Transition.leaves`).

`thread_sleep` does not put the thread into the queue if no other thread is ready, and the two calls
do not look at its result. `State.Blocks` leaves these moves out.
-/

set_option autoImplicit false
set_option relaxedAutoImplicit false

namespace OperatingSystems.Threads

open State (Move Memory)

variable {a b : Ideal} {i j : Instr} {m : Move} {s t u v : State} {g h x : ℕ} {k : Call}
  {l rest stage : List Instr} {w : WaitQueue} {E E' : Prop}

/-! ### Leaving a wait queue -/

/-- A wake-up is that of a user's queue, or part of `cv_signal` or `cv_broadcast`. -/
theorem wakeup_stage {all : Bool} (hstage : stage ∈ stages k)
    (hl : j :: .wakeup w all :: l <:+ stage) :
    (∃ n, w = .user n) ∨ ∃ c x, w = .cv c ∧ (k = .cvSignal c x ∨ k = .cvBroadcast c x) := by
  refine of_stage (P := fun _ l ↦ ∀ w all l', l = .wakeup w all :: l' →
    (∃ n, w = .user n) ∨ ∃ c x, w = .cv c ∧ (k = .cvSignal c x ∨ k = .cvBroadcast c x))
    ?_ hstage hl w all l rfl
  cases k with
  | threadWakeup n all =>
    simp only [stages, code, wakeupCode, List.mem_singleton, forall_eq, EachEnd, and_true]
    refine ⟨?_, ?_, ?_⟩ <;> rintro w all l' heq
    · obtain ⟨rfl, -⟩ := Instr.wakeup.inj (List.cons.inj heq).1
      exact .inl ⟨n, rfl⟩
    · simp at heq
    · cases heq
  | _ =>
    simp [stages, code, yieldCode, sleepCode, wakeupCode, acquireCode, releaseCode, EachEnd]

namespace Ideal

/-- A thread leaves a wait queue by a wake-up, by the exit of the thread whose queue it is, or, if
it is the queue of a lock, when the lock is freed. -/
theorem Executes.leaves (ha : a.Ordered) (hexec : a.Executes i b) (hin : g ∈ a.waiters w)
    (hout : g ∉ b.waiters w) :
    (∃ all, i = .wakeup w all) ∨ (i = .exit ∧ w = .thread a.core.self.id) ∨ ∃ x, w = .lock x := by
  have hset : ∀ {v : WaitQueue} {l : List ℕ}, b.waiters w = (if w = v then l else a.waiters w) →
      w = v ∧ g ∉ l := fun {v l} hb ↦ by
    rw [hb] at hout
    by_cases hwv : w = v
    · exact ⟨hwv, by rwa [if_pos hwv] at hout⟩
    · rw [if_neg hwv] at hout
      exact absurd hin hout
  cases hexec with
  | @sleep v old new rest l hready hw =>
    obtain ⟨rfl, hmem⟩ := hset (waiters_setList (a.setList .rq (new :: rest)) v w _)
    rw [Ideal.waiters, hw, Option.getD_some] at hin
    exact absurd (List.mem_append_left _ hin) hmem
  | @wakeup v all h more kept hw =>
    obtain ⟨rfl, -⟩ := hset (waiters_setList a v w kept)
    exact .inl ⟨all, rfl⟩
  | @wait tid =>
    obtain ⟨rfl, hmem⟩ := hset (waiters_setList a (.thread tid.toNat) w _)
    exact absurd hin hmem
  | @exit old new rest rest' hready =>
    obtain ⟨rfl, -⟩ := hset (waiters_dropQueue (a.setList .rq (new :: rest')) _ w)
    exact .inr (.inl ⟨rfl, by rw [ha.eq_current hready]; rfl⟩)
  | @lockDestroy l => exact .inr (.inr ⟨l, (hset (waiters_dropQueue a (.lock l) w)).1⟩)
  | @release l => exact .inr (.inr ⟨l, (hset (waiters_setList a (.lock l) w [])).1⟩)
  | lockCreate => exact .inr (.inr ⟨_, (hset (waiters_setList a (.lock _) w [])).1⟩)
  | @cvDestroy c hwaiting =>
    obtain ⟨rfl, -⟩ := hset (waiters_dropQueue a (.cv c) w)
    rw [Ideal.waiters, hwaiting] at hin
    cases hin
  | cvCreate =>
    obtain ⟨rfl, -⟩ := hset (waiters_setList a (.cv a.core.objects) w [])
    rw [ha.waiters_new rfl] at hin
    cases hin
  | queueCreate =>
    obtain ⟨rfl, -⟩ := hset (waiters_setList a (.user a.core.objects) w [])
    rw [ha.waiters_new rfl] at hin
    cases hin
  | _ => exact absurd hin hout

theorem Transition.leaves (ha : a.Ordered) (htransition : a.Transition m b) (hin : g ∈ a.waiters w)
    (hout : g ∉ b.waiters w) :
    ∃ memory i rest, m = .instr memory ∧ a.core.self.todo = i :: rest ∧
      ((∃ all, i = .wakeup w all) ∨ (i = .exit ∧ w = .thread a.core.self.id) ∨
        ∃ x, w = .lock x) := by
  cases htransition with
  | timer | call | interrupts => exact absurd hin hout
  | @instr memory i rest b htodo hexec =>
    refine ⟨memory, i, rest, rfl, htodo, ?_⟩
    have hid : (a.popped rest).core.self.id = a.core.self.id := (a.popped_frame rest).id _
    rw [← hid]
    exact hexec.leaves (ha.popped rest) hin hout

/-- A thread that has made no call since is inside of the call it was inside of. -/
theorem Transition.call_before (ha : a.Ordered) (htransition : a.Transition m b)
    (hm : ∀ k', m = .call k' → a.core.current ≠ g) (hg : g < a.core.allocated)
    (hlive : (b.core.tcb g).exited = false) (hk : k ≠ .threadExit)
    (hcall : (b.core.tcb g).call = some k) : (a.core.tcb g).call = some k := by
  by_cases hcurrent : g = a.core.current
  swap
  · rwa [Thread.call_of_own (htransition.own_other ha hcurrent hg)] at hcall
  subst hcurrent
  have hstep := htransition.control_self ha hlive
  rcases hstep.call_eq hcall with hsame | ⟨hnil, htodo⟩ | heq
  · exact hsame
  · cases htransition with
    | timer => simp [Core.interrupt, Core.push, Core.modify] at hcall; exact hcall
    | call => exact absurd rfl (hm _ rfl)
    | interrupts => exact hcall
    | instr htodo' => exact absurd (htodo'.symm.trans hnil) (by simp)
  · exact absurd heq hk

/-! ### On the way to the queue -/

/-- The thread runs, with interrupts off, and has only statements that go straight on to execute
before it sleeps on the queue. -/
structure Committed (a : Ideal) (h : ℕ) (w : WaitQueue) : Prop where
  current : a.core.current = h
  waiting : a.waiting w ≠ none
  todo : ∃ p r, a.core.self.todo = p ++ .sleepOn w :: r ∧
    ∀ i ∈ p, i = .off ∨ i = .set ∨ ∃ x, i = .release x
  stage : ∃ k g j, a.core.self.call = some k ∧ g ∈ stages k ∧ j :: a.core.self.todo <:+ g

theorem Committed.finish (hcommitted : b.Committed h w) :
    (b.mapCore (·.finish h)).Committed h w := by
  obtain ⟨p, r, htodo, -⟩ := hcommitted.todo
  have hne : (b.core.tcb h).todo ≠ [] := by
    rw [← hcommitted.current]
    show b.core.self.todo ≠ []
    simp [htodo]
  rwa [mapCore, Core.finish_of_ne _ hne]

/-- What the thread does on its way: it goes on, or it joins the queue, unless it finds that no
other thread is ready. -/
theorem Committed.transition (hcommitted : a.Committed h w) (ha : a.Ordered) (hloc : a.Located)
    (htransition : a.Transition m b) :
    b.Committed h w ∨ h ∈ b.waiters w ∨
      (∃ memory r, m = .instr memory ∧ a.core.self.todo = .sleepOn w :: r) ∧ a.ready = [h] := by
  obtain ⟨hcurrent, hwaiting, ⟨p, r, htodo, hp⟩, k, stage, j, hcall, hstage, hl⟩ := hcommitted
  subst hcurrent
  obtain ⟨hlt, hlive⟩ := ha.current_live
  have hne : a.core.self.todo ≠ [] := by simp [htodo]
  cases htransition with
  | timer hflag =>
    have hoff := (hloc.orderly _ hlt hlive).flag_inner (r := []) (l := a.core.self.todo) rfl
      (by simp)
      hstage hl hne
    simp [Core.control, Core.flagOf] at hoff
    exact absurd (hoff.symm.trans hflag) (by simp)
  | call hnil | interrupts hnil => exact absurd hnil hne
  | @instr memory i rest b htodo' hexec =>
    have hlist : i :: rest = p ++ .sleepOn w :: r := htodo'.symm.trans htodo
    cases p with
    | nil =>
      obtain ⟨rfl, rfl⟩ := List.cons.inj hlist
      cases hexec with
      | sleepInvalid hnone => exact absurd hnone hwaiting
      | @sleepNone _ old _ hready =>
        have hold : old = a.core.current := (ha.popped rest).eq_current hready
        exact .inr (.inr ⟨⟨memory, rest, rfl, htodo'⟩, hold ▸ hready⟩)
      | @sleep _ old new more l hready hw =>
        have hold : old = a.core.current := (ha.popped rest).eq_current hready
        refine .inr (.inl ?_)
        rw [waiters_mapCore, waiters_mapCore, waiters_setList, if_pos rfl, hold]
        exact List.mem_append_right _ (List.mem_singleton_self _)
    | cons i' p =>
      obtain ⟨rfl, rfl⟩ := List.cons.inj hlist
      have hquiet := hp i List.mem_cons_self
      have hi : i ≠ .exit ∧ i ≠ .checkExited := by
        rcases hquiet with rfl | rfl | ⟨x, rfl⟩ <;> simp
      rcases hexec.control_self hi.1 (ha.popped _).current_live.1 with
        ⟨extra, f, saved, hextra, -, hstep⟩ | ⟨heq, -⟩
      swap
      · exact absurd heq hi.2
      obtain rfl : extra = [] := by
        rcases hquiet with rfl | rfl | ⟨x, rfl⟩ <;> cases hextra <;> rfl
      rw [show (a.popped _).core.current = a.core.current from rfl, popped_control_self] at hstep
      have htodo'' : (b.core.tcb a.core.current).todo = p ++ .sleepOn w :: r :=
        congrArg Control.todo hstep
      have hcall' : (b.core.tcb a.core.current).call = some k :=
        (congrArg Control.call hstep).trans hcall
      have hkept : b.core.current = a.core.current ∧ b.waiting w ≠ none := by
        rcases hquiet with rfl | rfl | ⟨x, rfl⟩
        · cases hexec
          exact ⟨rfl, hwaiting⟩
        · cases hexec with
          | set hset =>
            rw [Core.interruptsSet] at hset
            split at hset
            · cases hset
            · obtain rfl := Option.some.inj hset
              exact ⟨rfl, hwaiting⟩
        · cases hexec
          refine ⟨by rw [mapCore_core, Core.wakeAll_eq]; rfl, ?_⟩
          simp only [mapCore_waiting, setList, Function.update_apply]
          split_ifs
          · simp
          · exact hwaiting
      refine .inl (Committed.finish ⟨hkept.1, hkept.2, ⟨p, r, ?_, fun i' hi' ↦
        hp i' (List.mem_cons_of_mem i hi')⟩, k, stage, i, ?_, hstage, ?_⟩)
      · rw [Core.self, hkept.1, htodo'']
      · rw [Core.self, hkept.1, hcall']
      · rw [Core.self, hkept.1, htodo'']
        rw [htodo'] at hl
        exact (List.suffix_cons j _).trans hl

/-! ### The phases of a call -/

/-- Where a thread is that has called a function which makes a test, sleeps on a queue and returns
after an event. -/
inductive Phase (a : Ideal) (h : ℕ) (k : Call) (test : Instr) (w : WaitQueue) (E : Prop) : Prop
  | before (hmem : test ∈ (a.core.tcb h).todo)
  | committed (hcommitted : a.Committed h w)
  | asleep (hmem : h ∈ a.waiters w)
  | event (he : E)
  | back (hcall : (a.core.tcb h).call ≠ some k)
  | gone (hexited : (a.core.tcb h).exited = true)

/-- A thread that has the test still to make goes on towards it, if it does not make it now. -/
theorem Transition.before_test {test : Instr} (ha : a.Ordered) (htransition : a.Transition m b)
    (hh : h < a.core.allocated) (hk : k ≠ .threadExit) (hlive : (b.core.tcb h).exited = false)
    (hmem : test ∈ (a.core.tcb h).todo)
    (hnot : a.core.current = h → ∀ memory rest, m = .instr memory →
      a.core.self.todo ≠ test :: rest) :
    test ∈ (b.core.tcb h).todo ∨ (b.core.tcb h).call ≠ some k := by
  by_cases hcurrent : h = a.core.current
  swap
  · rw [Thread.todo_of_own (htransition.own_other ha hcurrent hh)]
    exact .inl hmem
  subst hcurrent
  have hstep := htransition.control_self ha hlive
  have hinstr : (∃ memory, m = .instr memory) ∨ test ∈ (b.core.tcb a.core.current).todo := by
    cases htransition with
    | timer =>
      refine .inr ?_
      simp only [mapCore_core, Core.interrupt, Core.push, Core.modify, Function.update_self]
      exact List.mem_append_right _ hmem
    | call htodo => exact absurd (htodo ▸ hmem) (by simp)
    | interrupts => exact .inr hmem
    | @instr memory => exact .inl ⟨memory, rfl⟩
  rcases hinstr with ⟨memory, rfl⟩ | hkept
  swap
  · exact .inl hkept
  generalize hx : a.core.control a.core.current = x at hstep
  generalize hy : b.core.control a.core.current = y at hstep
  have hxtodo : a.core.self.todo = x.todo := congrArg Control.todo hx
  have hytodo : (b.core.tcb a.core.current).todo = y.todo := congrArg Control.todo hy
  have hycall : (b.core.tcb a.core.current).call = y.call := congrArg Control.call hy
  rw [hytodo, hycall]
  rw [show (a.core.tcb a.core.current).todo = x.todo from hxtodo] at hmem
  cases hstep with
  | timer => exact .inl (List.mem_append_right _ hmem)
  | call hnil | interrupts hnil => exact absurd (hnil ▸ hmem) (by simp)
  | @instr i rest extra f saved htodo =>
    have hi : test ∈ rest := by
      rw [htodo] at hmem
      refine (List.mem_cons.mp hmem).resolve_left fun heq ↦ ?_
      exact hnot rfl memory rest rfl (by rw [hxtodo, htodo, heq])
    have hrest : test ∈ extra ++ rest := List.mem_append_right _ hi
    rw [Control.finish_of_ne _ (List.ne_nil_of_mem hrest)]
    exact .inl hrest
  | abandon => exact .inr fun heq ↦ hk (Option.some.inj heq).symm

/-- Assumes: the event stays, the test leads on to the queue or fails, and the thread leaves the
queue by the event only; the thread makes no other call, and does not find itself alone when it goes
to sleep. Then it stays in a phase of its call. -/
theorem Phase.transition {test : Instr} (hphase : a.Phase h k test w E) (ha : a.Ordered)
    (hloc : a.Located) (htransition : a.Transition m b) (hh : h < a.core.allocated)
    (hk : k ≠ .threadExit) (hm : ∀ k', m = .call k' → a.core.current ≠ h)
    (halone : ∀ memory r, m = .instr memory → a.core.current = h →
      a.core.self.todo = .sleepOn w :: r → a.ready ≠ [h])
    (hE : E → (b.core.tcb h).exited = false → E')
    (htest : (b.core.tcb h).exited = false → a.core.current = h → ∀ memory rest,
      m = .instr memory → a.core.self.todo = test :: rest → a.core.self.call = some k →
      b.Committed h w ∨ E')
    (hleave : h ∈ a.waiters w → h ∉ b.waiters w → E') : b.Phase h k test w E' := by
  by_cases hexited : (b.core.tcb h).exited = true
  · exact .gone hexited
  have hlive : (b.core.tcb h).exited = false := by simpa using hexited
  by_cases hcall : (a.core.tcb h).call = some k
  swap
  · exact .back fun heq ↦ hcall (htransition.call_before ha hm hh hlive hk heq)
  cases hphase with
  | before hmem =>
    by_cases hnow : a.core.current = h ∧ ∃ memory rest, m = .instr memory ∧
        a.core.self.todo = test :: rest
    · obtain ⟨hcurrent, memory, rest, hmove, htodo⟩ := hnow
      rcases htest hlive hcurrent memory rest hmove htodo (by rw [Core.self, hcurrent, hcall]) with
        hcommitted | he
      · exact .committed hcommitted
      · exact .event he
    · rcases htransition.before_test ha hh hk hlive hmem
        (fun hcurrent memory rest hmove htodo ↦ hnow ⟨hcurrent, memory, rest, hmove, htodo⟩) with
        hkept | hback
      · exact .before hkept
      · exact .back hback
  | committed hcommitted =>
    rcases hcommitted.transition ha hloc htransition with hkept | hjoined |
      ⟨⟨memory, r, hmove, htodo⟩, hready⟩
    · exact .committed hkept
    · exact .asleep hjoined
    · exact absurd hready (halone memory r hmove hcommitted.current htodo)
  | asleep hmem =>
    by_cases hkept : h ∈ b.waiters w
    · exact .asleep hkept
    · exact .event (hleave hmem hkept)
  | event he => exact .event (hE he hlive)
  | back hback => exact absurd hcall hback
  | gone hgone =>
    exact .gone (((htransition.threads ha).2.1 h hh).2 hgone)

/-- A call returns from its last statement. -/
theorem Transition.returns_last (ha : a.Ordered) (htransition : a.Transition m b)
    (hcall : a.core.self.call = some k) (hback : (b.core.tcb a.core.current).call = none)
    (hlive : (b.core.tcb a.core.current).exited = false) : ∃ i, a.core.self.todo = [i] := by
  have hstep := htransition.control_self ha hlive
  generalize hx : a.core.control a.core.current = x at hstep
  generalize hy : b.core.control a.core.current = y at hstep
  have hxcall : x.call = some k := (congrArg Control.call hx).symm.trans hcall
  have hycall : y.call = none := (congrArg Control.call hy).symm.trans hback
  have hxtodo : a.core.self.todo = x.todo := congrArg Control.todo hx
  rw [hxtodo]
  cases hstep with
  | timer | interrupts => exact absurd (hxcall.symm.trans hycall) (by simp)
  | call => exact absurd hycall (by simp)
  | @instr i rest extra f saved htodo =>
    by_cases hnil : extra ++ rest = []
    · obtain ⟨-, rfl⟩ := List.append_eq_nil_iff.mp hnil
      exact ⟨i, htodo⟩
    · rw [Control.finish_of_ne _ hnil] at hycall
      exact absurd (hxcall.symm.trans hycall) (by simp)
  | abandon => exact absurd hycall (by simp)

/-- When the call returns, the event has happened. -/
theorem Phase.returned {test : Instr} (hphase : a.Phase h k test w E) (ha : a.Ordered)
    (hcurrent : a.core.current = h) (hcall : a.core.self.call = some k)
    (hlast : a.core.self.todo = [i]) (htest : i ≠ test) : E := by
  subst hcurrent
  cases hphase with
  | before hmem =>
    rw [show (a.core.tcb a.core.current).todo = [i] from hlast] at hmem
    exact absurd (List.mem_singleton.mp hmem).symm htest
  | committed hcommitted =>
    obtain ⟨-, -, ⟨p, r, htodo, -⟩, k', stage, j, -, hstage, hl⟩ := hcommitted
    have hlength := congrArg List.length (hlast.symm.trans htodo)
    cases p with
    | cons =>
      simp only [List.length_append, List.length_cons, List.length_nil] at hlength
      omega
    | nil =>
      rw [htodo] at hl
      obtain ⟨r', rfl⟩ := switch_stage hstage ((List.suffix_cons j _).trans hl) trivial
      simp at hlength
  | asleep hmem => exact absurd hmem ha.not_waiting
  | event he => exact he
  | back hback => exact absurd hcall hback
  | gone hgone => exact absurd (ha.current_live.2.symm.trans hgone) (by simp)

end Ideal

/-! ### Runs of a call -/

namespace State

/-- In the move the thread makes no call, and it does not go to sleep while no other thread is
ready, but on the queue of a lock. -/
def Blocks (h : ℕ) (s : State) (m : Move) : Prop :=
  (∀ k, m = .call k → s.core.current ≠ h) ∧
    ∀ memory w rest, m = .instr memory → s.core.current = h →
      s.core.self.todo = .sleepOn w :: rest →
      (∀ x, w ≠ .lock x) → ¬s.Ready [h]

/-- The thread is in a phase of its call, until the process ends. -/
def InPhase (u : State) (h : ℕ) (k : Call) (test : Instr) (w : WaitQueue) (E : Prop) : Prop :=
  u.Reachable ∧ (u.core.halted = true ∨ ∃ a, Linked u a ∧ a.Ordered ∧ a.Located ∧
    h < a.core.allocated ∧ a.Phase h k test w E)

/-- A call begins with the first phase. -/
theorem Reachable.inPhase {test : Instr} (hs : s.Reachable) (hcall : s.step (.call k) = some t)
    (htest : test ∈ code k) : t.InPhase s.core.current k test w E := by
  refine ⟨hs.tail ⟨_, trivial, hcall⟩, ?_⟩
  obtain ⟨a, hlinked, ha, hloc⟩ := hs.located (State.halted_of_step hcall)
  rcases hlinked.step_refines ha.separate (ha.unused _ (Nat.le_refl _)) hcall with
    hend | ⟨b, htransition, hb⟩
  · exact .inl hend
  have hlt := Nat.lt_of_lt_of_le ha.current_live.1 (htransition.threads ha).1
  refine .inr ⟨b, hb, ha.transition htransition, hloc.transition ha htransition,
    hlinked.core ▸ hlt, .before ?_⟩
  cases htransition
  rw [hlinked.core]
  simpa [Core.begin, Core.modify] using htest

/-- Assumes: as for one move over the lists. -/
theorem InPhase.step {test : Instr} (hphase : u.InPhase h k test w E) (hk : k ≠ .threadExit)
    (hw : ∀ x, w ≠ .lock x) (hpermitted : u.Blocks h m) (hstep : u.step m = some v)
    (hnext : ∀ a b, Linked u a → a.Ordered → a.Located → Linked v b → a.Transition m b →
      h < a.core.allocated →
      (E → (b.core.tcb h).exited = false → E') ∧
      ((b.core.tcb h).exited = false → a.core.current = h → ∀ memory rest, m = .instr memory →
        a.core.self.todo = test :: rest → a.core.self.call = some k → b.Committed h w ∨ E') ∧
      (h ∈ a.waiters w → h ∉ b.waiters w → E')) :
    v.InPhase h k test w E' := by
  obtain ⟨hu, hcases⟩ := hphase
  refine ⟨hu.tail ⟨m, trivial, hstep⟩, ?_⟩
  obtain ⟨a, hlinked, ha, hloc, hlt, hphase⟩ :=
    hcases.resolve_left (by simp [State.halted_of_step hstep])
  rcases hlinked.step_refines ha.separate (ha.unused _ (Nat.le_refl _)) hstep with
    hend | ⟨b, htransition, hb⟩
  · exact .inl hend
  obtain ⟨hstays, htest, hleave⟩ := hnext a b hlinked ha hloc hb htransition hlt
  obtain ⟨hcalls, hsleeps⟩ := hpermitted
  rw [hlinked.core] at hcalls hsleeps
  refine .inr ⟨b, hb, ha.transition htransition, hloc.transition ha htransition,
    Nat.lt_of_lt_of_le hlt (htransition.threads ha).1,
    hphase.transition ha hloc htransition hlt hk hcalls ?_ hstays htest hleave⟩
  intro memory r hmove hcurrent htodo hready
  exact hsleeps memory w r hmove hcurrent htodo hw (hready ▸ hlinked.ready_list)

/-- When the call returns, the event has happened. -/
theorem InPhase.returned {test : Instr} (hphase : u.InPhase h k test w E)
    (hcurrent : u.core.current = h) (hstep : u.step m = some v) (hreturns : u.Returns v k)
    (hguarded : test.guarded = true) (hyield : test ≠ .yieldTo threadAny)
    (hstage : ∀ stage ∈ stages k, ∀ j, ¬[j, test] <:+ stage) : E := by
  obtain ⟨-, hcases⟩ := hphase
  obtain ⟨a, hlinked, ha, hloc, -, hphase⟩ :=
    hcases.resolve_left (by simp [State.halted_of_step hstep])
  obtain ⟨hcall, hend, hsame, hback⟩ := hreturns
  rcases hlinked.step_refines ha.separate (ha.unused _ (Nat.le_refl _)) hstep with
    hend' | ⟨b, htransition, hb⟩
  · exact absurd (hend'.symm.trans hend) (by simp)
  rw [hlinked.core] at hcall hsame hcurrent
  rw [hb.core] at hsame hback
  rw [Core.self, hsame] at hback
  have hlive : (b.core.tcb a.core.current).exited = false :=
    hsame ▸ (ha.transition htransition).current_live.2
  obtain ⟨i, hlast⟩ := htransition.returns_last ha hcall hback hlive
  refine hphase.returned ha hcurrent hcall hlast ?_
  rintro rfl
  rcases (hloc.located _ ha.current_live.1 ha.current_live.2).guarded hlast hguarded with
    ⟨k', stage, j, hcall', hmem, hl⟩ | heq
  · obtain rfl := Option.some.inj (hcall'.symm.trans hcall)
    exact hstage stage hmem j hl
  · exact hyield heq

/-! ### `thread_wait` -/

/-- The awaited thread has exited, or the call has failed and only restores the flag. -/
def WaitOver (u : State) (h g : ℕ) (tid : ℤ) : Prop :=
  (u.core.tcb g).exited = true ∨ ((u.core.tcb h).call = some (.threadWait tid) →
    (u.core.tcb h).todo = [.set] ∧ (u.core.tcb h).ret ≠ tid)

/-- Assumes: the thread makes no other call. A call of `thread_wait` that is over stays so. -/
theorem WaitOver.transition {tid : ℤ} (hover : u.WaitOver h g tid) (hlinked : Linked u a)
    (ha : a.Ordered) (hloc : a.Located) (hb : Linked v b) (htransition : a.Transition m b)
    (hm : ∀ k, m = .call k → a.core.current ≠ h) (hh : h < a.core.allocated)
    (hg : g < a.core.allocated) (hlive : (b.core.tcb h).exited = false) : v.WaitOver h g tid := by
  rw [WaitOver, hlinked.core] at hover
  rw [WaitOver, hb.core]
  rcases hover with hexited | hfails
  · exact .inl (((htransition.threads ha).2.1 g hg).2 hexited)
  refine .inr fun hcall ↦ ?_
  have hbefore := htransition.call_before ha hm hh hlive (by simp) hcall
  obtain ⟨htodo, hret⟩ := hfails hbefore
  by_cases hcurrent : h = a.core.current
  · subst hcurrent
    have hstep := htransition.control_self ha hlive
    have hstage : code (.threadWait tid) ∈ stages (.threadWait tid) := by simp [stages]
    have hl : Instr.waitCheck tid :: [.set] <:+ code (.threadWait tid) := by simp [code]
    have hback := hstep.last (hloc.orderly _ ha.current_live.1 ha.current_live.2) hstage hl htodo
    exact absurd (hback.symm.trans hcall) (by simp)
  · have hown := htransition.own_other ha hcurrent hh
    rw [Thread.todo_of_own hown, Thread.ret_of_own hown]
    exact ⟨htodo, hret⟩

/-- The test of `thread_wait` fails, or the thread is on its way to the queue. -/
theorem committed_of_waitCheck {tid : ℤ} {memory : Memory} (htid : 0 ≤ tid) (ha : a.Ordered)
    (hloc : a.Located) (hb : Linked v b) (htransition : a.Transition (.instr memory) b)
    (htodo : a.core.self.todo = .waitCheck tid :: rest)
    (hcall : a.core.self.call = some (.threadWait tid)) :
    b.Committed a.core.current (.thread tid.toNat) ∨ v.WaitOver a.core.current g tid := by
  obtain ⟨hlt, hlive⟩ := ha.current_live
  have hrest : rest = [.set] := by
    rcases (hloc.located _ hlt hlive).guarded htodo rfl with ⟨k, stage, j, -, hstage, hl⟩ | heq
    · exact (waitCheck_stage hstage hl).2
    · cases heq
  subst hrest
  cases htransition with
  | instr htodo' hexec =>
    obtain ⟨rfl, rfl⟩ := List.cons.inj (htodo.symm.trans htodo')
    cases hexec with
    | waitFails =>
      refine .inr (.inr fun _ ↦ ?_)
      rw [hb.core]
      have hself := (a.popped [.set]).core.setRet_self threadInvalid
      have htodo'' : (((a.popped [.set]).core.setRet threadInvalid).tcb a.core.current).todo =
          [.set] := by
        rw [show a.core.current = (a.popped [.set]).core.current from rfl, hself]
        simp [Ideal.popped, Core.modify]
      rw [Ideal.mapCore_core, Ideal.mapCore_core, Core.finish_of_ne _ (by rw [htodo'']; simp)]
      refine ⟨htodo'', ?_⟩
      rw [show a.core.current = (a.popped [.set]).core.current from rfl, hself]
      show threadInvalid ≠ tid
      simp only [threadInvalid]
      omega
    | @wait _ old h' rest' hready hself hrange hthread =>
      have htodo'' : ((((a.popped [.set]).core.push
          (sleepCode (.thread tid.toNat) ++ [.waitReturn tid])).tcb a.core.current).todo) =
          sleepCode (.thread tid.toNat) ++ [.waitReturn tid, .set] := by
        simp [Core.push, Ideal.popped, Core.modify]
      refine .inl (Ideal.Committed.finish ⟨rfl, ?_, ⟨[.off], [.set, .waitReturn tid, .set], htodo'',
        by simp⟩, .threadWait tid,
        .waitCheck tid :: (sleepCode (.thread tid.toNat) ++ [.waitReturn tid, .set]),
          .waitCheck tid,
        ?_, by simp [stages], List.suffix_cons_iff.mpr (.inl ?_)⟩)
      · simp [Ideal.mapCore, Ideal.setList]
      · simpa [Ideal.mapCore, Core.self, Core.push, Ideal.popped, Core.modify] using hcall
      · exact congrArg (List.cons _) htodo''

/-- A thread that waits for the exit of another leaves the queue when that one exits. -/
theorem exited_of_leaves {tid : ℕ} (ha : a.Ordered) (hloc : a.Located)
    (htransition : a.Transition m b) (hg : g < a.core.allocated) (hid : (a.core.tcb g).id = tid)
    (hin : h ∈ a.waiters (.thread tid)) (hout : h ∉ b.waiters (.thread tid)) :
    (b.core.tcb g).exited = true := by
  obtain ⟨memory, i, rest, rfl, htodo, hcases⟩ := htransition.leaves ha hin hout
  obtain ⟨hlt, hlive⟩ := ha.current_live
  rcases hcases with ⟨all, rfl⟩ | ⟨rfl, hthread⟩ | ⟨x, heq⟩
  · -- No call of the library wakes this queue.
    rcases (hloc.located _ hlt hlive).guarded htodo rfl with ⟨k, stage, j, -, hstage, hl⟩ | heq
    · rcases wakeup_stage hstage hl with ⟨n, heq⟩ | ⟨c, x, heq, -⟩ <;> cases heq
    · cases heq
  · by_contra hexited
    have hgx : (a.core.tcb g).exited = false := by
      by_contra hx
      exact hexited (((htransition.threads ha).2.1 g hg).2 (by simpa using hx))
    have hsame : (a.core.tcb g).id = (a.core.tcb a.core.current).id :=
      hid.trans (WaitQueue.thread.inj hthread)
    obtain rfl := ha.eq_of_id_eq hg hgx hlt hlive hsame
    cases htransition with
    | @instr _ i' rest' b htodo' hexec =>
      obtain ⟨rfl, rfl⟩ := List.cons.inj (htodo.symm.trans htodo')
      refine hexited ?_
      rw [Ideal.mapCore_core, (b.core.frame_finish _).exited]
      exact (hexec.threads (ha.popped _)).2.2.2 rfl
  · cases heq

/-- A thread follows its call of `thread_wait` along a run. -/
theorem Reachable.waits_for {tid : ℤ} (hs : s.Reachable)
    (hcall : s.step (.call (.threadWait tid)) = some t) (htid : 0 ≤ tid)
    (hg : s.core.threads tid.toNat = some g)
    (hrun : Library.Machine.Reaches (State.Blocks s.core.current) State.step t u) :
    u.InPhase s.core.current (.threadWait tid) (.waitCheck tid) (.thread tid.toNat)
      (u.WaitOver s.core.current g tid) ∧
      (u.core.halted = true ∨ g < u.core.allocated ∧ (u.core.tcb g).id = tid.toNat) := by
  refine hrun.invariant (I := fun u ↦ u.InPhase s.core.current (.threadWait tid) (.waitCheck tid)
    (.thread tid.toNat) (u.WaitOver s.core.current g tid) ∧
      (u.core.halted = true ∨ g < u.core.allocated ∧ (u.core.tcb g).id = tid.toNat)) ?_
    ⟨hs.inPhase hcall (by simp [code]), ?_⟩
  · rintro u m v ⟨hphase, hname⟩ hpermitted hstep
    obtain ⟨hlt, hid⟩ := hname.resolve_left (by simp [State.halted_of_step hstep])
    refine ⟨hphase.step (by simp) (by simp) hpermitted hstep
      fun a b hlinked ha hloc hb htransition hh ↦ ⟨fun hover hlive ↦ ?_, ?_, fun hin hout ↦ ?_⟩, ?_⟩
    · rw [hlinked.core] at hlt
      refine hover.transition hlinked ha hloc hb htransition (fun k hk ↦ ?_) hh hlt hlive
      rw [← hlinked.core]
      exact hpermitted.1 k hk
    · rintro hlive hcurrent memory rest rfl htodo hcall
      rw [← hcurrent]
      exact committed_of_waitCheck htid ha hloc hb htransition htodo hcall
    · rw [hlinked.core] at hlt hid
      rw [State.WaitOver, hb.core]
      exact .inl (exited_of_leaves ha hloc htransition hlt hid hin hout)
    · obtain ⟨a, hlinked, ha, -⟩ := hphase.1.mortal (State.halted_of_step hstep)
      rcases hlinked.step_refines ha.separate (ha.unused _ (Nat.le_refl _)) hstep with
        hend | ⟨b, htransition, hb⟩
      · exact .inl hend
      · rw [hlinked.core] at hlt hid
        rw [hb.core]
        obtain ⟨hle, hold, -⟩ := htransition.threads ha
        exact .inr ⟨Nat.lt_of_lt_of_le hlt hle, (hold g hlt).1.trans hid⟩
  · obtain ⟨a, hlinked, ha, -⟩ := hs.mortal (State.halted_of_step hcall)
    rw [hlinked.core] at hg
    obtain ⟨hlt, -, hid⟩ := (ha.threads _ _).mp hg
    rcases hlinked.step_refines ha.separate (ha.unused _ (Nat.le_refl _)) hcall with
      hend | ⟨b, htransition, hb⟩
    · exact .inl hend
    · rw [hb.core]
      obtain ⟨hle, hold, -⟩ := htransition.threads ha
      exact .inr ⟨Nat.lt_of_lt_of_le hlt hle, (hold g hlt).1.trans hid⟩

/-- A call of `thread_wait` that returns the id returns after the thread with that id has exited. -/
theorem Reachable.exited_of_returns {tid : ℤ} (hs : s.Reachable)
    (hcall : s.step (.call (.threadWait tid)) = some t) (htid : 0 ≤ tid)
    (hg : s.core.threads tid.toNat = some g)
    (hrun : Library.Machine.Reaches (State.Blocks s.core.current) State.step t u)
    (hcurrent : u.core.current = s.core.current) (hstep : u.step m = some v)
    (hreturns : u.Returns v (.threadWait tid)) (hret : v.core.self.ret = tid) :
    (v.core.tcb g).exited = true := by
  obtain ⟨hphase, hname⟩ := hs.waits_for hcall htid hg hrun
  have hover := hphase.returned hcurrent hstep hreturns rfl (by simp) fun stage hstage j hl ↦
    absurd (waitCheck_stage hstage hl).2 (by simp)
  have hlive := State.halted_of_step hstep
  obtain ⟨hlt, -⟩ := hname.resolve_left (by simp [hlive])
  obtain ⟨a, hlinked, ha, -⟩ := hphase.1.mortal hlive
  obtain ⟨hcall', hend, hsame, hback⟩ := hreturns
  rcases hlinked.step_refines ha.separate (ha.unused _ (Nat.le_refl _)) hstep with
    hend' | ⟨b, htransition, hb⟩
  · exact absurd (hend'.symm.trans hend) (by simp)
  rw [State.WaitOver, ← hcurrent, hlinked.core] at hover
  rw [hlinked.core] at hcall' hsame hlt
  rw [hb.core] at hsame hback hret ⊢
  rw [Core.self, hsame] at hback hret
  rcases hover with hexited | hfails
  · exact ((htransition.threads ha).2.1 g hlt).2 hexited
  · obtain ⟨htodo, hne⟩ := hfails hcall'
    exact absurd ((htransition.ret_set htodo hback (by simp [hcall'])).symm.trans hret) hne

/-! ### `cv_wait` -/

/-- In the move a `cv_signal` or `cv_broadcast` on the condition variable takes the thread from its
queue. -/
def Signal (h c : ℕ) (u : State) (v : State) : Prop :=
  (∃ x, u.core.self.call = some (.cvSignal c x) ∨ u.core.self.call = some (.cvBroadcast c x)) ∧
    (∃ all rest, u.core.self.todo = .wakeup (.cv c) all :: rest) ∧
    ∃ l l', u.Waits (.cv c) l ∧ h ∈ l ∧ v.Waits (.cv c) l' ∧ h ∉ l'

/-- A run of permitted moves, with the number of moves in it that signal the thread. -/
inductive Signals (h c : ℕ) (t : State) : State → ℕ → Prop
  | start : Signals h c t t 0
  | signal {u v : State} {m : Move} {n : ℕ} (hrun : Signals h c t u n) (hpermitted : u.Blocks h m)
      (hstep : u.step m = some v) (hsignal : u.Signal h c v) : Signals h c t v (n + 1)
  | other {u v : State} {m : Move} {n : ℕ} (hrun : Signals h c t u n) (hpermitted : u.Blocks h m)
      (hstep : u.step m = some v) (hnot : ¬u.Signal h c v) : Signals h c t v n

/-- A thread in `cv_wait` that has passed the assertion is on its way to the queue. -/
theorem committed_of_assertHeld {c : ℕ} {memory : Memory} (ha : a.Ordered) (hloc : a.Located)
    (htransition : a.Transition (.instr memory) b)
    (htodo : a.core.self.todo = .assertHeld c x :: rest)
    (hcall : a.core.self.call = some (.cvWait c x)) : b.Committed a.core.current (.cv c) := by
  obtain ⟨hlt, hlive⟩ := ha.current_live
  rcases (hloc.located _ hlt hlive).guarded htodo rfl with ⟨k, stage, j, hcall', hstage, hl⟩ | heq
  swap
  · cases heq
  obtain rfl := Option.some.inj (hcall'.symm.trans hcall)
  obtain ⟨-, rfl⟩ := (assertHeld_stage hstage hl).resolve_right (by simp)
  cases htransition with
  | instr htodo' hexec =>
    obtain ⟨rfl, rfl⟩ := List.cons.inj (htodo.symm.trans htodo')
    cases hexec with
    | assertHeld hready hwaiting =>
      have htodo'' : (a.popped (releaseCode x ++ sleepCode (.cv c) ++ acquireCode x ++
          [.set])).core.self.todo = releaseCode x ++ [.off] ++ .sleepOn (.cv c) ::
            (.set :: (acquireCode x ++ [.set])) := by
        simp [Ideal.popped, Core.self, Core.modify, sleepCode]
      refine Ideal.Committed.finish ⟨rfl, hwaiting, ⟨_, _, htodo'', by simp [releaseCode]⟩,
        .cvWait c x, stage, .assertHeld c x, ?_, hstage, ?_⟩
      · simpa [Core.self, Ideal.popped, Core.modify] using hcall
      · rw [htodo'']
        refine (List.suffix_cons j _).trans ?_
        simpa [sleepCode] using hl

/-- A thread leaves the queue of a condition variable by a signal. -/
theorem signal_of_leaves {c : ℕ} (hlinked : Linked u a) (ha : a.Ordered) (hloc : a.Located)
    (hb : Linked v b) (htransition : a.Transition m b) (hin : h ∈ a.waiters (.cv c))
    (hout : h ∉ b.waiters (.cv c)) : u.Signal h c v := by
  obtain ⟨memory, i, rest, rfl, htodo, hcases⟩ := htransition.leaves ha hin hout
  obtain ⟨hlt, hlive⟩ := ha.current_live
  rcases hcases with ⟨all, rfl⟩ | ⟨-, heq⟩ | ⟨x, heq⟩
  · rcases (hloc.located _ hlt hlive).guarded htodo rfl with ⟨k, stage, j, hcall, hstage, hl⟩ | heq
    · rcases wakeup_stage hstage hl with ⟨n, heq⟩ | ⟨c', x, heq, hk⟩
      · cases heq
      · obtain rfl := WaitQueue.cv.inj heq
        have hcall' : a.core.self.call = some k := hcall
        refine ⟨⟨x, ?_⟩, ⟨all, rest, by rw [hlinked.core, htodo]⟩, _, _, hlinked.waits _, hin,
          hb.waits _, hout⟩
        rw [hlinked.core, hcall']
        rcases hk with rfl | rfl
        · exact .inl rfl
        · exact .inr rfl
    · cases heq
  · cases heq
  · cases heq

/-- A thread follows its call of `cv_wait` along a run. -/
theorem Reachable.waits_for_signal {c n : ℕ} (hs : s.Reachable)
    (hcall : s.step (.call (.cvWait c x)) = some t)
    (hrun : State.Signals s.core.current c t u n) :
    u.InPhase s.core.current (.cvWait c x) (.assertHeld c x) (.cv c) (0 < n) := by
  have htest : ∀ {a b : Ideal} {m : Move}, a.Ordered → a.Located → a.Transition m b →
      (b.core.tcb s.core.current).exited = false → a.core.current = s.core.current →
      ∀ memory rest, m = .instr memory → a.core.self.todo = .assertHeld c x :: rest →
      a.core.self.call = some (.cvWait c x) → b.Committed s.core.current (.cv c) := by
    rintro a b m ha hloc htransition - hcurrent memory rest rfl htodo hcall'
    rw [← hcurrent]
    exact committed_of_assertHeld ha hloc htransition htodo hcall'
  induction hrun with
  | start => exact hs.inPhase hcall (by simp [code])
  | signal _ hpermitted hstep _ ih =>
    refine ih.step (by simp) (by simp) hpermitted hstep fun a b _ ha hloc _ htransition _ ↦
      ⟨fun _ _ ↦ Nat.succ_pos _, fun hlive hcurrent memory rest hm htodo hcall' ↦ .inl ?_,
        fun _ _ ↦ Nat.succ_pos _⟩
    exact htest ha hloc htransition hlive hcurrent memory rest hm htodo hcall'
  | other _ hpermitted hstep hnot ih =>
    refine ih.step (by simp) (by simp) hpermitted hstep fun a b hlinked ha hloc hb htransition _ ↦
      ⟨fun he _ ↦ he, fun hlive hcurrent memory rest hm htodo hcall' ↦ .inl ?_, fun hin hout ↦ ?_⟩
    · exact htest ha hloc htransition hlive hcurrent memory rest hm htodo hcall'
    · exact absurd (signal_of_leaves hlinked ha hloc hb htransition hin hout) hnot

/-- A call of `cv_wait` returns after a signal. -/
theorem Reachable.signalled_of_returns {c n : ℕ} (hs : s.Reachable)
    (hcall : s.step (.call (.cvWait c x)) = some t)
    (hrun : State.Signals s.core.current c t u n) (hcurrent : u.core.current = s.core.current)
    (hstep : u.step m = some v) (hreturns : u.Returns v (.cvWait c x)) : 0 < n := by
  refine (hs.waits_for_signal hcall hrun).returned hcurrent hstep hreturns rfl (by simp)
    fun stage hstage j hl ↦ ?_
  rcases assertHeld_stage hstage hl with ⟨-, heq⟩ | ⟨-, heq⟩ | ⟨-, heq⟩ <;>
    simp [releaseCode, wakeupCode] at heq

end State

/-- Assumes: a thread has made the call, and then a run in which it makes no other call and whenever
its call executes `thread_sleep` another thread is ready. If `thread_wait(tid)` returns `tid`, the
thread that had the id when the call was made has exited since; and if `cv_wait` returns, a
`cv_signal` or `cv_broadcast` in the run has taken the thread from the queue of the condition
variable. -/
theorem blocking_calls_return_on_event (hs : s.Reachable) (hcall : s.step (.call k) = some t) :
    (∀ (tid : ℤ) g u m v, k = .threadWait tid → s.Live g → (s.core.tcb g).id = tid →
      Library.Machine.Reaches (State.Blocks s.core.current) State.step t u →
      u.core.current = s.core.current → u.step m = some v → u.Returns v k →
      v.core.self.ret = tid → (v.core.tcb g).exited = true) ∧
    ∀ c x n u m v, k = .cvWait c x → State.Signals s.core.current c t u n →
      u.core.current = s.core.current → u.step m = some v → u.Returns v k → 0 < n := by
  refine ⟨?_, ?_⟩
  · rintro tid g u m v rfl hg rfl hrun hcurrent hstep hreturns hret
    refine hs.exited_of_returns hcall (Int.natCast_nonneg _) ?_ hrun hcurrent hstep hreturns hret
    obtain ⟨a, hlinked, ha, -⟩ := hs.mortal (State.halted_of_step hcall)
    rw [State.Live, hlinked.core] at hg
    rw [hlinked.core, Int.toNat_natCast]
    exact (ha.threads _ _).mpr ⟨hg.1, hg.2, rfl⟩
  · rintro c x n u m v rfl hrun hcurrent hstep hreturns
    exact hs.signalled_of_returns hcall hrun hcurrent hstep hreturns

set_option synthInstance.maxSize 1000 in
/-- The first thread waits for the second one, which exits, while a third one is ready. -/
theorem blocking_calls_return_on_event_exited : ∃ s t u v : State, s.Reachable ∧
    s.step (.call (.threadWait 1)) = some t ∧
    Library.Machine.Reaches (State.Blocks 0) State.step t u ∧ u.step (.instr ⟨3, 0⟩) = some v ∧
    u.Returns v (.threadWait 1) ∧ v.core.self.ret = 1 ∧ (v.core.tcb 1).exited = true := by
  have hbefore : (Library.Machine.run (fun _ _ ↦ True) State.step State.init
      (State.script [(.threadCreate, 3), (.threadCreate, 3)])).bind (fun s ↦
          (s.step (.call (.threadWait 1))).bind fun t ↦
            (Library.Machine.run (fun s m ↦ (s.queues .rq).map (·.size) ≠ some 1 ∧
              (s.core.current = 0 → m = .instr ⟨3, 0⟩)) State.step t
              (List.replicate 10 (.instr ⟨3, 0⟩) ++
                State.script [(.threadExit, 11), (.threadYield threadAny, 9)])).bind fun u ↦
              (u.step (.instr ⟨3, 0⟩)).map fun v ↦
                ((s.core.current, s.core.allocated, (s.core.tcb 1).exited, (s.core.tcb 1).id),
                  (u.core.current, u.core.self.call),
                  v.core.halted, v.core.current, v.core.self.call, v.core.self.ret)) =
      some ((0, 3, false, 1), (0, some (.threadWait 1)), false, 0, none, 1) := by
    decide +kernel
  obtain ⟨s, hs, hbefore⟩ := Option.bind_eq_some_iff.mp hbefore
  obtain ⟨t, ht, hbefore⟩ := Option.bind_eq_some_iff.mp hbefore
  obtain ⟨u, hu, hbefore⟩ := Option.bind_eq_some_iff.mp hbefore
  obtain ⟨v, hv, hshape⟩ := Option.map_eq_some_iff.mp hbefore
  simp only [Prod.mk.injEq] at hshape
  obtain ⟨⟨hs0, hallocated, hlive, hid⟩, ⟨hu0, hcall⟩, hend, hv0, hback, hret⟩ := hshape
  have hreach : s.Reachable := Library.Machine.Reaches.of_run hs
  have hrun : Library.Machine.Reaches (State.Blocks 0) State.step t u := by
    refine (Library.Machine.Reaches.of_run hu).mono fun p m ⟨hsize, hinstr⟩ ↦ ⟨fun k hk hp ↦ ?_,
      fun _ _ _ _ _ _ _ ⟨q, hq, hqueue⟩ ↦ hsize ?_⟩
    · exact absurd (hk.symm.trans (hinstr hp)) (by simp)
    · rw [hq, Option.map_some]
      exact congrArg some hqueue.size
  have hreturns : u.Returns v (.threadWait 1) := ⟨hcall, hend, hv0.trans hu0.symm, hback⟩
  refine ⟨s, t, u, v, hreach, ht, hrun, hv, hreturns, hret, ?_⟩
  exact (blocking_calls_return_on_event hreach ht).1 1 1 u _ v rfl ⟨by omega, hlive⟩
    (by rw [hid]; rfl)
    (hs0 ▸ hrun) (hu0.trans hs0.symm) hv hreturns hret

set_option synthInstance.maxSize 1000 in
/-- The first thread waits for the second one while that one sleeps and no other is ready: the call
returns the id of the second thread, which has not exited. -/
theorem blocking_call_returns_without_event : ∃ s t u v : State, s.Reachable ∧
    s.step (.call (.threadWait 1)) = some t ∧
    Library.Machine.Reaches (fun _ m ↦ m = .instr ⟨3, 0⟩) State.step t u ∧
    u.step (.instr ⟨3, 0⟩) = some v ∧ u.Returns v (.threadWait 1) ∧
    u.core.current = s.core.current ∧ v.core.self.ret = 1 ∧ s.Live 1 ∧ (s.core.tcb 1).id = 1 ∧
    (v.core.tcb 1).exited = false := by
  have hbefore : (Library.Machine.run (fun _ _ ↦ True) State.step State.init
      (State.script [(.waitQueueCreate, 1), (.threadCreate, 3), (.threadYield threadAny, 8),
        (.threadSleep 0, 8)])).bind (fun s ↦
          (s.step (.call (.threadWait 1))).bind fun t ↦
            (Library.Machine.run (fun _ m ↦ m = .instr ⟨3, 0⟩) State.step t
              (List.replicate 6 (.instr ⟨3, 0⟩))).bind fun u ↦
              (u.step (.instr ⟨3, 0⟩)).map fun v ↦
                ((s.core.current, s.core.allocated, (s.core.tcb 1).exited, (s.core.tcb 1).id),
                  (u.core.current, u.core.self.call),
                  v.core.halted, v.core.current, v.core.self.call, v.core.self.ret,
                  (v.core.tcb 1).exited)) =
      some ((0, 2, false, 1), (0, some (.threadWait 1)), false, 0, none, 1, false) := by
    decide +kernel
  obtain ⟨s, hs, hbefore⟩ := Option.bind_eq_some_iff.mp hbefore
  obtain ⟨t, ht, hbefore⟩ := Option.bind_eq_some_iff.mp hbefore
  obtain ⟨u, hu, hbefore⟩ := Option.bind_eq_some_iff.mp hbefore
  obtain ⟨v, hv, hshape⟩ := Option.map_eq_some_iff.mp hbefore
  simp only [Prod.mk.injEq] at hshape
  obtain ⟨⟨hs0, hallocated, hlive, hid⟩, ⟨hu0, hcall⟩, hend, hv0, hback, hret, hend'⟩ := hshape
  exact ⟨s, t, u, v, Library.Machine.Reaches.of_run hs, ht, Library.Machine.Reaches.of_run hu, hv,
    ⟨hcall, hend, hv0.trans hu0.symm, hback⟩, hu0.trans hs0.symm, hret, ⟨by omega, hlive⟩, hid,
    hend'⟩

end OperatingSystems.Threads
