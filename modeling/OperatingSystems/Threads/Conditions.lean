import OperatingSystems.Threads.Exclusion

/-!
# Condition variables

From the assertion of `cv_wait` on, the thread that waits runs with interrupts off until it has
joined the queue of the condition variable: it frees the lock, and goes to sleep, without another
thread running in between. `State.Ahead` says that whatever moves are made, the next ones are those
of the running thread and lead to a state with some property; `Stands` follows the code and the
lists along them, statement by statement.

The queue of a condition variable, as every wait queue, lists its threads in the order they joined
it (`Ideal.Aged`).
-/

set_option autoImplicit false
set_option relaxedAutoImplicit false

namespace OperatingSystems.Threads

open State (Move Memory)
open OperatingSystems.Library.LinkedQueue (Queue Path)

variable {a b : Ideal} {c d : Core} {i : Instr} {m : Move} {s t u : State} {g h x n : ℕ} {k : Call}
  {rest todo : List Instr} {saved : List Bool} {w : WaitQueue} {P : State → Prop}

/-! ### How long the threads have waited -/

theorem Thread.since_of_own {t u : Thread} (h : u.own = t.own) : u.since = t.since :=
  show u.own.since = t.own.since by rw [h]

theorem Thread.saved_of_own {t u : Thread} (h : u.own = t.own) : u.saved = t.saved :=
  show u.own.saved = t.own.saved by rw [h]

namespace Ideal

/-- Each wait queue lists its threads in the order they joined it. -/
def Aged (a : Ideal) : Prop :=
  ∀ w, (a.waiters w).Pairwise (fun g h ↦ (a.core.tcb g).since < (a.core.tcb h).since) ∧
    ∀ g ∈ a.waiters w, (a.core.tcb g).since < a.core.clock

theorem Executes.clock_le (hexec : a.Executes i b) : a.core.clock ≤ b.core.clock := by
  cases hexec with
  | set hset =>
    rw [Core.interruptsSet] at hset
    split at hset
    · cases hset
    · obtain rfl := Option.some.inj hset
      exact Nat.le_refl _
  | wakeup | release =>
    rw [mapCore_core, Core.wakeAll_eq]
    exact Nat.le_refl _
  | exit =>
    rw [mapCore_core, Core.exitSwitch, Core.wakeAll_eq]
    exact Nat.le_refl _
  | sleep => exact Nat.le_succ _
  | _ => exact Nat.le_refl _

theorem Transition.clock_le (htransition : a.Transition m b) : a.core.clock ≤ b.core.clock := by
  cases htransition with
  | timer | call | interrupts => exact Nat.le_refl _
  | @instr _ _ _ b _ hexec => exact hexec.clock_le (b := b)

/-- A thread that joins a wait queue records the time. -/
theorem Executes.since_sleep (hexec : a.Executes (.sleepOn w) b)
    (happend : b.waiters w = a.waiters w ++ [a.core.current]) :
    (b.core.tcb a.core.current).since = a.core.clock ∧ b.core.clock = a.core.clock + 1 := by
  have hlength := congrArg List.length happend
  rw [List.length_append, List.length_singleton] at hlength
  cases hexec with
  | sleepInvalid | sleepNone =>
    rw [waiters_mapCore] at hlength
    omega
  | sleep =>
    refine ⟨?_, rfl⟩
    simp only [mapCore_core, setList_core, Core.sleepSwitch, Core.setcontext, Core.setRet,
      Core.stamp, Core.getcontext, Core.setThreadStatus, Core.modify, Function.update_self]

theorem Aged.transition (haged : a.Aged) (ha : a.Ordered) (htransition : a.Transition m b) :
    b.Aged := by
  intro w
  have hclock := htransition.clock_le
  -- A thread that waits is not the one that runs.
  have hsame : ∀ g ∈ a.waiters w, (b.core.tcb g).since = (a.core.tcb g).since := fun g hg ↦ by
    refine Thread.since_of_own (htransition.own_other ha ?_ (ha.separate.live (.wait w) g hg).1)
    rintro rfl
    exact ha.not_waiting hg
  obtain ⟨hsorted, hbefore⟩ := haged w
  have hkept : (a.waiters w).Pairwise
      (fun g h ↦ (b.core.tcb g).since < (b.core.tcb h).since) :=
    hsorted.imp_of_mem fun {g h} hg hh hlt ↦ by rwa [hsame g hg, hsame h hh]
  rcases htransition.waiters ha w with ⟨moved, hmoved⟩ | ⟨⟨rest, htodo⟩, happend⟩
  · have hsub : ∀ g ∈ b.waiters w, g ∈ a.waiters w := fun g hg ↦ by
      rw [hmoved]
      exact List.mem_append_right _ hg
    refine ⟨hkept.sublist (by rw [hmoved]; exact List.sublist_append_right _ _), fun g hg ↦ ?_⟩
    rw [hsame g (hsub g hg)]
    exact Nat.lt_of_lt_of_le (hbefore g (hsub g hg)) hclock
  · have hnew : (b.core.tcb a.core.current).since = a.core.clock ∧
        b.core.clock = a.core.clock + 1 := by
      cases htransition with
      | timer | call | interrupts =>
        have hlength := congrArg List.length happend
        rw [List.length_append, List.length_singleton] at hlength
        exact absurd hlength (by simp [waiters_mapCore])
      | @instr _ i rest' b htodo' hexec =>
        obtain ⟨rfl, rfl⟩ := List.cons.inj (htodo.symm.trans htodo')
        obtain ⟨hsince, hafter⟩ := hexec.since_sleep happend
        refine ⟨Eq.trans ?_ hsince, hafter⟩
        simp only [mapCore_core, Core.finish, Core.modify, Function.update_self]
        split_ifs <;> rfl
    rw [happend]
    refine ⟨List.pairwise_append.mpr ⟨hkept, List.pairwise_singleton _ _, fun g hg h hh ↦ ?_⟩,
      fun g hg ↦ ?_⟩
    · rw [List.mem_singleton.mp hh, hnew.1, hsame g hg]
      exact hbefore g hg
    · rcases List.mem_append.mp hg with hg | hg
      · rw [hsame g hg]
        exact Nat.lt_of_lt_of_le (hbefore g hg) hclock
      · rw [List.mem_singleton.mp hg, hnew.1, hnew.2]
        exact Nat.lt_succ_self _

theorem init_aged : init.Aged := fun _ ↦ ⟨List.Pairwise.nil, fun _ hg ↦ by cases hg⟩

end Ideal

/-! ### What the running thread does next -/

/-- Whatever moves are made, the next ones are possible and leave the running thread the same, up to
the last of them, and the state after them has the property. -/
def State.Ahead (P : State → Prop) : ℕ → State → Prop
  | 0, s => P s
  | n + 1, s => (∃ m t, s.step m = some t) ∧ ∀ m t, s.step m = some t →
    (n ≠ 0 → t.core.current = s.core.current) ∧ t.Ahead P n

/-- The assertion that the thread has a lock looks at the lock and at an id only. -/
theorem State.holdsLock_mapCore (s : State) {f : Core → Core} (hf : s.core.Frame (f s.core))
    (hlocks : (f s.core).locks = s.core.locks) (x : ℕ) :
    (s.mapCore f).holdsLock x = s.holdsLock x := by
  have hthread : (s.mapCore f).threadId = s.threadId := by
    simp only [State.threadId, State.mapCore, hf.id]
    rfl
  rw [State.holdsLock, State.holdsLock, hthread, State.mapCore, hlocks]

theorem State.holdsLock_pop (s : State) (rest : List Instr) (x : ℕ) :
    (s.pop rest).holdsLock x = s.holdsLock x :=
  s.holdsLock_mapCore (Core.frame_modify _ _ (f := fun t ↦ { t with todo := rest }) (fun _ ↦ rfl)
    fun _ ↦ rfl) rfl x

theorem State.holdsLock_finish (s : State) (h x : ℕ) :
    (s.mapCore (·.finish h)).holdsLock x = s.holdsLock x :=
  s.holdsLock_mapCore (Core.frame_finish _ _) rfl x

/-- The code is in a state described by the lists, in which the thread runs with interrupts off, has
these statements left and has saved these values. -/
structure Stands (s : State) (a : Ideal) (h : ℕ) (todo : List Instr) (saved : List Bool) :
    Prop where
  linked : Linked s a
  ordered : a.Ordered
  current : a.core.current = h
  flag : a.core.flag = false
  halted : a.core.halted = false
  todo : (a.core.tcb h).todo = todo
  saved : (a.core.tcb h).saved = saved

namespace Stands

/-- The state in which the next statement is executed. -/
theorem pop (hs : Stands s a h (i :: rest) saved) : Stands (s.pop rest)
    (a.popped rest) h rest saved where
  linked := State.linked_pop hs.linked rest
  ordered := hs.ordered.popped rest
  current := hs.current
  flag := hs.flag
  halted := hs.halted
  todo := by simp [Ideal.popped, Core.modify, hs.current]
  saved := by simpa [Ideal.popped, Core.modify, hs.current] using hs.saved

theorem finish (hs : Stands s a h todo saved) :
    Stands (s.mapCore (·.finish h)) (a.mapCore (·.finish h)) h todo saved where
  linked := hs.linked.mapCore (Core.frame_finish _ _)
  ordered := hs.ordered.mapCore (Core.frame_finish _ _) rfl rfl
  current := hs.current
  flag := hs.flag
  halted := hs.halted
  todo := (Core.todo_finish _ _).trans hs.todo
  saved := by
    rw [← hs.saved]
    simp only [Ideal.mapCore_core, Core.finish, Core.modify, Function.update_self]
    split_ifs <;> rfl

/-- The thread executes its next statement, and no other move is possible. -/
theorem ahead (hs : Stands s a h (i :: rest) saved)
    (hexec : ∀ memory, ∃ t, (s.pop rest).exec memory i = some t ∧ (n ≠ 0 → t.core.current = h) ∧
      (t.mapCore (·.finish h)).Ahead P n) : s.Ahead P (n + 1) := by
  have hcurrent : s.core.current = h := by rw [hs.linked.core, hs.current]
  have htodo : s.core.self.todo = i :: rest := by
    rw [Core.self, hcurrent, hs.linked.core, hs.todo]
  have hlive : s.core.halted = false := by rw [hs.linked.core, hs.halted]
  have hstep : ∀ memory, ∃ t, s.step (.instr memory) = some t ∧
      (n ≠ 0 → t.core.current = s.core.current) ∧ t.Ahead P n := fun memory ↦ by
    obtain ⟨t, ht, hsame, hahead⟩ := hexec memory
    refine ⟨t.mapCore (·.finish h), ?_, hcurrent ▸ hsame, hahead⟩
    rw [State.step_instr hlive htodo, ht, Option.map_some, hcurrent]
  refine ⟨?_, fun m t hmove ↦ ?_⟩
  · obtain ⟨t, ht, -⟩ := hstep ⟨0, 0⟩
    exact ⟨_, t, ht⟩
  · cases m with
    | timer => simp [State.step, hs.linked.core, hs.flag] at hmove
    | call | interrupts => simp [State.step, htodo] at hmove
    | instr memory =>
      obtain ⟨t', ht', hahead⟩ := hstep memory
      obtain rfl := Option.some.inj (ht'.symm.trans hmove)
      exact hahead

/-- `interrupts_off`. -/
theorem off (hs : Stands s a h (.off :: rest) saved) : ∃ t b, Stands t b h rest (false :: saved) ∧
    b.ready = a.ready ∧ b.waiting = a.waiting ∧ (∀ x, t.holdsLock x = s.holdsLock x) ∧
    (t.Ahead P n → s.Ahead P (n + 1)) := by
  have hpop := hs.pop
  have hoff : Stands ((s.pop rest).mapCore (·.interruptsOff))
      ((a.popped rest).mapCore (·.interruptsOff)) h rest (false :: saved) :=
    { linked := hpop.linked.mapCore (Core.frame_interruptsOff _)
      ordered := hpop.ordered.mapCore (Core.frame_interruptsOff _) rfl rfl
      current := hpop.current
      flag := rfl
      halted := hpop.halted
      todo := by simpa [Core.interruptsOff, Core.modify, hpop.current] using hpop.todo
      saved := by
        simpa [Core.interruptsOff, Core.modify, hpop.current, hpop.flag] using hpop.saved }
  refine ⟨_, _, hoff.finish, rfl, rfl, fun x ↦ ?_, fun hahead ↦ hs.ahead fun memory ↦
    ⟨_, rfl, fun _ ↦ ?_, hahead⟩⟩
  · rw [State.holdsLock_finish, State.holdsLock_mapCore _ (Core.frame_interruptsOff _) rfl,
      State.holdsLock_pop]
  · rw [hoff.linked.core, hoff.current]

/-- `interrupts_set`, nested in another pair. -/
theorem set (hs : Stands s a h (.set :: rest) (false :: saved)) : ∃ t b, Stands t b h rest saved ∧
    b.ready = a.ready ∧ b.waiting = a.waiting ∧ (t.Ahead P n → s.Ahead P (n + 1)) := by
  have hpop := hs.pop
  set c : Core := (a.popped rest).core.modify h fun t ↦ { t with saved := saved } with hc
  have hset : (s.pop rest).core.interruptsSet = some { c with flag := false } := by
    have hself : (a.popped rest).core.self.saved = false :: saved := by
      rw [Core.self, hpop.current, hpop.saved]
    rw [hpop.linked.core, Core.interruptsSet, hself, hpop.current]
  have hset' : (a.popped rest).core.interruptsSet = some { c with flag := false } := by
    rwa [hpop.linked.core] at hset
  have hdone : Stands { s.pop rest with core := { c with flag := false } }
      ((a.popped rest).mapCore fun _ ↦ { c with flag := false }) h rest saved :=
    { linked := by
        have hlinked := hpop.linked.mapCore (f := fun _ ↦ { c with flag := false })
          (Core.frame_interruptsSet hset')
        exact hlinked
      ordered := hpop.ordered.mapCore (f := fun _ ↦ { c with flag := false })
        (Core.frame_interruptsSet hset') rfl rfl
      current := hpop.current
      flag := rfl
      halted := hpop.halted
      todo := by simpa [hc, Core.modify] using hpop.todo
      saved := by simp [hc, Core.modify] }
  refine ⟨_, _, hdone.finish, rfl, rfl, fun hahead ↦ hs.ahead fun memory ↦
    ⟨{ s.pop rest with core := { c with flag := false } }, ?_, fun _ ↦ ?_, hahead⟩⟩
  · rw [State.exec, hset, Option.map_some]
  · rw [hdone.linked.core, hdone.current]

/-- The assertion that the thread has the lock holds. -/
theorem assertHeld {v : ℕ} (hs : Stands s a h (.assertHeld v x :: rest) saved)
    (hv : a.waiting (.cv v) ≠ none) (hheld : s.holdsLock x = some true) :
    ∃ t b, Stands t b h rest saved ∧ b.ready = a.ready ∧ b.waiting = a.waiting ∧
      (∀ x, t.holdsLock x = s.holdsLock x) ∧ (t.Ahead P n → s.Ahead P (n + 1)) := by
  have hpop := hs.pop
  refine ⟨_, _, hpop.finish, rfl, rfl, fun y ↦ ?_, fun hahead ↦ hs.ahead fun memory ↦
    ⟨s.pop rest, ?_, fun _ ↦ ?_, hahead⟩⟩
  · rw [State.holdsLock_finish, State.holdsLock_pop]
  · obtain ⟨q, hq⟩ := Option.ne_none_iff_exists'.mp
      (show (s.pop rest).queues (.wait (.cv v)) ≠ none from
      fun hnone ↦ hv ((hs.linked.waiting _).mp hnone))
    rw [State.exec, State.assertHeld, hq, State.holdsLock_pop, hheld]
    rfl
  · rw [hpop.linked.core, hpop.current]

/-- The thread frees a lock it has, and wakes the threads that wait for it. -/
theorem release (hs : Stands s a h (.release x :: rest) saved) (hheld : s.holdsLock x = some true) :
    ∃ t b, Stands t b h rest (false :: saved) ∧ b.ready = a.ready ++ a.waiters (.lock x) ∧
      (∀ v, v ≠ .lock x → b.waiting v = a.waiting v) ∧ (t.Ahead P n → s.Ahead P (n + 1)) := by
  have hpop := hs.pop
  obtain ⟨t, b, hrelease, hexec, ht⟩ := hpop.linked.lockRelease_run hpop.ordered.separate
    ((s.holdsLock_pop rest x).trans hheld)
  have hdone : Stands t b h rest (false :: saved) ∧
      b.ready = a.ready ++ a.waiters (.lock x) ∧ ∀ v, v ≠ .lock x → b.waiting v = a.waiting v := by
    have hordered := hpop.ordered.executes hexec
    cases hexec with
    | @release _ old rest' k =>
      have hown := Core.own_wakeAll (((a.popped rest).core.setLock x
        (some { k with locked := false })).interruptsOff) (.lock x)
        ((a.popped rest).waiters (.lock x)) h
      refine ⟨⟨ht, hordered, ?_, ?_, ?_, ?_, ?_⟩, rfl, fun v hv ↦ ?_⟩
      · rw [Ideal.mapCore_core, Core.wakeAll_eq]
        exact hpop.current
      · rw [Ideal.mapCore_core, Core.wakeAll_eq]
        rfl
      · rw [Ideal.mapCore_core, Core.wakeAll_eq]
        exact hpop.halted
      · refine (Thread.todo_of_own hown).trans ?_
        simpa [Core.interruptsOff, Core.setLock, Core.modify, hpop.current] using hpop.todo
      · refine (Thread.saved_of_own hown).trans ?_
        simpa [Core.interruptsOff, Core.setLock, Core.modify, hpop.current, hpop.flag]
          using hpop.saved
      · exact Function.update_of_ne hv ..
  obtain ⟨hstands, hready, hwaiting⟩ := hdone
  refine ⟨_, _, hstands.finish, hready, hwaiting, fun hahead ↦ hs.ahead fun memory ↦
    ⟨t, hrelease, fun _ ↦ ?_, hahead⟩⟩
  rw [hstands.linked.core, hstands.current]

/-- The thread goes to sleep, and the next one runs. -/
theorem sleepOn (hs : Stands s a h (.sleepOn w :: rest) saved) {new : ℕ} {more l : List ℕ}
    (hready : a.ready = h :: new :: more) (hw : a.waiting w = some l)
    (hP : ∀ t : State, t.Waits w (l ++ [h]) → t.Ready (new :: more) → t.core.current = new → P t) :
    s.Ahead P 1 := by
  have hpop := hs.pop
  obtain ⟨t, hsleep, ht⟩ := hpop.linked.threadSleep_run hpop.ordered.separate hready hw
  refine hs.ahead fun memory ↦ ⟨t, hsleep, fun hne ↦ absurd rfl hne, hP _ ?_ ?_ ?_⟩
  · have hwaits := ht.waits w
    rwa [Ideal.waiters_mapCore, Ideal.waiters_setList, if_pos rfl] at hwaits
  · exact ht.ready_list
  · show t.core.current = new
    rw [ht.core]
    rfl

/-- The thread wakes the first thread of a queue, or all of them. -/
theorem wakeup {all : Bool} (hs : Stands s a h (.wakeup w all :: rest) saved)
    (hP : ∀ t : State, t.Waits w ((a.waiters w).drop (wakeupCount all (a.waiters w).length)) →
      t.Ready (a.ready ++ (a.waiters w).take (wakeupCount all (a.waiters w).length)) →
      t.core.current = h → P t) : s.Ahead P 1 := by
  have hpop := hs.pop
  obtain ⟨t, b, hwakeup, ht, hready, hwaiters, hcurrent⟩ :=
    hpop.linked.threadWakeup_spec hpop.ordered.separate w all
  refine hs.ahead fun memory ↦
    ⟨t.mapCore (·.setRet (wakeupCount all ((a.popped rest).waiters w).length)), ?_,
      fun hne ↦ absurd rfl hne, hP _ ?_ ?_ ?_⟩
  · rw [State.exec, hwakeup]
    rfl
  · have hwaits := ht.waits w
    rw [hwaiters, if_pos rfl] at hwaits
    exact hwaits
  · have hlist := ht.ready_list
    rw [hready] at hlist
    exact hlist
  · show t.core.current = h
    rw [hcurrent, hpop.linked.core, hpop.current]

end Stands

/-! ### Calls on a condition variable -/

/-- Where a call asserts that the thread has the lock, and what it does then. -/
theorem assertHeld_stage {v : ℕ} {stage l : List Instr} {j : Instr} (hstage : stage ∈ stages k)
    (hl : j :: .assertHeld v x :: l <:+ stage) :
    k = .cvWait v x ∧ l = releaseCode x ++ sleepCode (.cv v) ++ acquireCode x ++ [.set] ∨
      k = .cvSignal v x ∧ l = wakeupCode (.cv v) false ++ [.set] ∨
      k = .cvBroadcast v x ∧ l = wakeupCode (.cv v) true ++ [.set] := by
  refine of_stage (P := fun _ l ↦ ∀ v x l', l = .assertHeld v x :: l' →
    k = .cvWait v x ∧ l' = releaseCode x ++ sleepCode (.cv v) ++ acquireCode x ++ [.set] ∨
      k = .cvSignal v x ∧ l' = wakeupCode (.cv v) false ++ [.set] ∨
      k = .cvBroadcast v x ∧ l' = wakeupCode (.cv v) true ++ [.set]) ?_ hstage hl v x l rfl
  cases k <;> simp [stages, code, yieldCode, sleepCode, wakeupCode, acquireCode, releaseCode,
    EachEnd]

namespace State.Reachable

/-- In every state that can be reached before the process ends, the locks are exclusive and the wait
queues list their threads in order. -/
theorem aged (hs : s.Reachable) (hlive : s.core.halted = false) :
    ∃ a, Linked s a ∧ a.Ordered ∧ a.Exclusive ∧ a.Aged := by
  rcases Linked.reaches (I := fun a ↦ a.Exclusive ∧ a.Aged)
    (fun _ _ _ _ _ ha hI _ htransition ↦ ⟨hI.1.transition ha htransition,
      hI.2.transition ha htransition⟩)
    ⟨Ideal.init_exclusive, Ideal.init_aged⟩ hs with hhalted | h
  · exact absurd (hhalted.symm.trans hlive) (by simp)
  · exact h

/-- What is known of a thread before the assertion that it has the lock. -/
theorem asserting (hs : s.Reachable) (hlive : s.core.halted = false) {v : ℕ}
    (htodo : s.core.self.todo = .assertHeld v x :: rest) (hcall : s.core.self.call = some k) :
    ∃ a saved, Stands s a s.core.current (.assertHeld v x :: rest) saved ∧ a.Aged ∧
      (k = .cvWait v x ∧ rest = releaseCode x ++ sleepCode (.cv v) ++ acquireCode x ++ [.set] ∨
        k = .cvSignal v x ∧ rest = wakeupCode (.cv v) false ++ [.set] ∨
        k = .cvBroadcast v x ∧ rest = wakeupCode (.cv v) true ++ [.set]) := by
  obtain ⟨a, hlinked, ha, hx, haged⟩ := hs.aged hlive
  rw [hlinked.core] at htodo hcall hlive ⊢
  obtain ⟨hlt, hliving⟩ := ha.current_live
  rcases (hx.located.located _ hlt hliving).guarded htodo rfl with
    ⟨k', stage, j, hcall', hstage, hl⟩ | heq
  · obtain rfl := Option.some.inj (hcall'.symm.trans hcall)
    have hcases := assertHeld_stage hstage hl
    have hflag := (hx.located.orderly _ hlt hliving).flag_inner (r := []) htodo (by simp) hstage hl
      (by simp)
    refine ⟨a, _, ⟨hlinked, ha, rfl, ?_, hlive, htodo, rfl⟩, haged, hcases⟩
    simpa [Core.control, Core.flagOf] using hflag
  · cases heq

/-- A thread that calls `cv_wait` joins the queue before another thread runs. -/
theorem waits_cv (hs : s.Reachable) (hlive : s.core.halted = false) {v new : ℕ}
    {ready blocked waiting more : List ℕ} (hcall : s.core.self.call = some (.cvWait v x))
    (htodo : s.core.self.todo = .assertHeld v x :: rest) (hv : s.queues (.wait (.cv v)) ≠ none)
    (hheld : s.holdsLock x = some true) (hready : s.Ready (s.core.current :: ready))
    (hblocked : s.Waits (.lock x) blocked) (hwaiting : s.Waits (.cv v) waiting)
    (hother : ready ++ blocked = new :: more) :
    s.Ahead (fun t ↦ t.Waits (.cv v) (waiting ++ [s.core.current]) ∧ t.Ready (new :: more) ∧
      t.core.current = new) 7 := by
  obtain ⟨a, saved, h0, -, hcases⟩ := hs.asserting hlive htodo hcall
  obtain ⟨-, rfl⟩ := hcases.resolve_right (by simp)
  obtain hlist := State.HasQueue.eq hready h0.linked.ready_list
  obtain rfl := hblocked.eq (h0.linked.waits _)
  obtain rfl := hwaiting.eq (h0.linked.waits _)
  have hv' : a.waiting (.cv v) ≠ none := fun hnone ↦ hv ((h0.linked.waiting _).mpr hnone)
  obtain ⟨t1, b1, h1, hready1, hwait1, hheld1, hback⟩ := h0.assertHeld hv' hheld
  refine hback ?_
  obtain ⟨t2, b2, h2, hready2, hwait2, hheld2, hback⟩ := h1.off
  refine hback ?_
  obtain ⟨t3, b3, h3, hready3, hwait3, hback⟩ := h2.release (by rw [hheld2, hheld1, hheld])
  refine hback ?_
  obtain ⟨t4, b4, h4, hready4, hwait4, hback⟩ := h3.set
  refine hback ?_
  obtain ⟨t5, b5, h5, hready5, hwait5, hback⟩ := h4.set
  refine hback ?_
  obtain ⟨t6, b6, h6, hready6, hwait6, -, hback⟩ := h5.off
  have hready : b6.ready = s.core.current :: new :: more := by
    rw [hready6, hready5, hready4, hready3, hready2, hready1, Ideal.waiters, hwait2, hwait1,
      ← hlist, List.cons_append]
    exact congrArg _ hother
  have hwait : b6.waiting (.cv v) = some (a.waiters (.cv v)) := by
    obtain ⟨l, hl⟩ := Option.ne_none_iff_exists'.mp hv'
    rw [hwait6, hwait5, hwait4, hwait3 _ (by simp), hwait2, hwait1, Ideal.waiters, hl,
      Option.getD_some]
  exact hback (h6.sleepOn hready hwait fun t hwaits hready hcurrent ↦ ⟨hwaits, hready, hcurrent⟩)

/-- A call of `cv_signal` or `cv_broadcast` wakes threads of the queue before another thread runs.
-/
theorem wakes_cv (hs : s.Reachable) (hlive : s.core.halted = false) {v : ℕ} {all : Bool}
    {ready waiting : List ℕ}
    (hcall : s.core.self.call = some (if all then .cvBroadcast v x else .cvSignal v x))
    (htodo : s.core.self.todo = .assertHeld v x :: rest) (hv : s.queues (.wait (.cv v)) ≠ none)
    (hheld : s.holdsLock x = some true) (hready : s.Ready ready)
    (hwaiting : s.Waits (.cv v) waiting) :
    waiting.Pairwise (fun g h ↦ (s.core.tcb g).since < (s.core.tcb h).since) ∧
      s.Ahead (fun t ↦ t.Waits (.cv v) (waiting.drop (wakeupCount all waiting.length)) ∧
        t.Ready (ready ++ waiting.take (wakeupCount all waiting.length)) ∧
        t.core.current = s.core.current) 3 := by
  obtain ⟨a, saved, h0, haged, hcases⟩ := hs.asserting hlive htodo hcall
  obtain rfl := State.HasQueue.eq hready h0.linked.ready_list
  obtain rfl := hwaiting.eq (h0.linked.waits _)
  obtain rfl : rest = wakeupCode (.cv v) all ++ [.set] := by
    cases all <;> simpa using hcases
  have hv' : a.waiting (.cv v) ≠ none := fun hnone ↦ hv ((h0.linked.waiting _).mpr hnone)
  refine ⟨h0.linked.core ▸ (haged (.cv v)).1, ?_⟩
  obtain ⟨t1, b1, h1, hready1, hwait1, -, hback⟩ := h0.assertHeld hv' hheld
  refine hback ?_
  obtain ⟨t2, b2, h2, hready2, hwait2, -, hback⟩ := h1.off
  have hwaiters : b2.waiters (.cv v) = a.waiters (.cv v) := by
    rw [Ideal.waiters, hwait2, hwait1]
    rfl
  refine hback (h2.wakeup fun t hwaits hready hcurrent ↦ ⟨?_, ?_, hcurrent⟩)
  · rwa [hwaiters] at hwaits
  · rwa [hwaiters, hready2, hready1] at hready

/-- A thread that comes back from `cv_wait` has the lock. -/
theorem back_from_cv (hs : s.Reachable) (hstep : s.step m = some t) {v : ℕ}
    (hreturns : s.Returns t (.cvWait v x)) :
    ∃ lock, t.core.locks x = some lock ∧ lock.locked = true ∧ lock.thread = t.core.self.id ∧
      lock.holder = t.core.current := by
  obtain ⟨hlt, hmem, -⟩ := hs.returned hstep hreturns rfl
  have ht : t.Reachable := Relation.ReflTransGen.tail hs ⟨m, trivial, hstep⟩
  obtain ⟨-, hlive, hcurrent, -⟩ := hreturns
  obtain ⟨a, hlinked, ha, -⟩ := ht.mortal hlive
  have hexited : (t.core.tcb t.core.current).exited = false := by
    rw [hlinked.core]
    exact ha.current_live.2
  rw [← hcurrent] at hlt hmem
  exact ht.holder hlive hlt hexited hmem

end State.Reachable

/-- In every interleaving: a thread that has the lock and calls `cv_wait` while another thread is
ready, or waits for the lock, joins the queue of the condition variable before another thread runs;
`cv_signal` of a thread that has the lock moves the thread that has waited longest, and
`cv_broadcast` moves all in the order they joined; and a thread has the lock when it comes back from
`cv_wait`. -/
theorem no_lost_wakeup (hs : s.Reachable) (hlive : s.core.halted = false) :
    (∀ v x rest ready blocked waiting new more, s.core.self.call = some (.cvWait v x) →
      s.core.self.todo = .assertHeld v x :: rest → s.queues (.wait (.cv v)) ≠ none →
      s.holdsLock x = some true → s.Ready (s.core.current :: ready) →
      s.Waits (.lock x) blocked → s.Waits (.cv v) waiting → ready ++ blocked = new :: more →
      s.Ahead (fun t ↦ t.Waits (.cv v) (waiting ++ [s.core.current]) ∧ t.Ready (new :: more) ∧
        t.core.current = new) 7) ∧
    (∀ v x all rest ready waiting,
      s.core.self.call = some (if all then .cvBroadcast v x else .cvSignal v x) →
      s.core.self.todo = .assertHeld v x :: rest → s.queues (.wait (.cv v)) ≠ none →
      s.holdsLock x = some true → s.Ready ready → s.Waits (.cv v) waiting →
      waiting.Pairwise (fun g h ↦ (s.core.tcb g).since < (s.core.tcb h).since) ∧
      s.Ahead (fun t ↦ t.Waits (.cv v) (waiting.drop (wakeupCount all waiting.length)) ∧
        t.Ready (ready ++ waiting.take (wakeupCount all waiting.length)) ∧
        t.core.current = s.core.current) 3) ∧
    ∀ m v x t, s.step m = some t → s.Returns t (.cvWait v x) →
      ∃ lock, t.core.locks x = some lock ∧ lock.locked = true ∧ lock.thread = t.core.self.id ∧
        lock.holder = t.core.current := by
  refine ⟨?_, ?_, ?_⟩
  · intro v x rest ready blocked waiting new more hcall htodo hv hheld hready hblocked hwaiting
      hother
    exact hs.waits_cv hlive hcall htodo hv hheld hready hblocked hwaiting hother
  · intro v x all rest ready waiting hcall htodo hv hheld hready hwaiting
    exact hs.wakes_cv hlive hcall htodo hv hheld hready hwaiting
  · intro m v x t hstep hreturns
    exact hs.back_from_cv hstep hreturns

set_option synthInstance.maxSize 1000 in
/-- The first thread waits on a condition variable while the second one is ready. -/
theorem no_lost_wakeup_two : ∃ s : State, s.Reachable ∧ s.core.self.call = some (.cvWait 1 0) ∧
    s.Ahead (fun t ↦ t.Waits (.cv 1) [0] ∧ t.Ready [1] ∧ t.core.current = 1) 7 := by
  have hrun : (Library.Machine.run (fun _ _ ↦ True) State.step State.init
      (State.script [(.lockCreate, 3), (.cvCreate, 3), (.threadCreate, 3), (.lockAcquire 0, 3),
        (.cvWait 1 0, 1)])).map (fun s ↦
          ((s.core.halted, s.core.self.call, s.core.self.todo.head?, s.core.current,
            s.holdsLock 0), s.queues .rq, s.queues (.wait (.lock 0)), s.queues (.wait (.cv 1)),
            s.next 0, s.next 1)) =
      some ((false, some (.cvWait 1 0), some (.assertHeld 1 0), 0, some true),
        some ⟨some 0, some 1, 2⟩, some Queue.empty, some Queue.empty, some 1, none) := by
    decide +kernel
  obtain ⟨s, hs, hshape⟩ := Option.map_eq_some_iff.mp hrun
  simp only [Prod.mk.injEq] at hshape
  obtain ⟨⟨hlive, hcall, hfirst, hcurrent, hheld⟩, hrq, hlock, hcv, hnext0, hnext1⟩ := hshape
  obtain ⟨rest, htodo⟩ := List.head?_eq_some_iff.mp hfirst
  have hreach : s.Reachable := Library.Machine.Reaches.of_run hs
  have hready : s.Ready [0, 1] := by
    have hpath : Path s.next (some 0) [0, 1] none := ⟨rfl, hnext0, hnext1⟩
    refine ⟨_, hrq, hpath, fun r g hlist ↦ ?_, rfl⟩
    simpa using congrArg List.getLast? hlist
  have hahead := (no_lost_wakeup hreach hlive).1 1 0 _ [1] [] [] 1 [] hcall htodo (by simp [hcv])
    hheld (hcurrent ▸ hready) (.inr ⟨_, hlock, Library.LinkedQueue.IsQueue.empty⟩)
    (.inr ⟨_, hcv, Library.LinkedQueue.IsQueue.empty⟩) rfl
  rw [hcurrent] at hahead
  exact ⟨s, hreach, hcall, hahead⟩

end OperatingSystems.Threads
