import OperatingSystems.Threads.Position

/-!
# What only the thread itself changes

Of another thread a statement changes the status, and records that it has woken it. Everything else
that belongs to a thread is changed by the thread itself only (`Transition.own_other`): what it has
left to do, its results, the call it is inside of and what has been recorded of it. A statement
about one thread over a run is therefore proved by looking at the moves of that thread.
-/

set_option autoImplicit false
set_option relaxedAutoImplicit false

namespace OperatingSystems.Threads

open State (Move Memory)

variable {a b : Ideal} {c d : Core} {w : WaitQueue} {i : Instr} {m : Move} {g h : ℕ}

/-- A thread without what other threads change of it. -/
def Thread.own (t : Thread) : Thread := { t with status := .ready, woken := [] }

namespace Thread

variable {t u : Thread}

theorem todo_of_own (h : u.own = t.own) : u.todo = t.todo :=
  show u.own.todo = t.own.todo by rw [h]

theorem call_of_own (h : u.own = t.own) : u.call = t.call :=
  show u.own.call = t.own.call by rw [h]

theorem ret_of_own (h : u.own = t.own) : u.ret = t.ret := show u.own.ret = t.own.ret by rw [h]

theorem exited_of_own (h : u.own = t.own) : u.exited = t.exited :=
  show u.own.exited = t.own.exited by rw [h]

end Thread

namespace Core

def own (c : Core) (h : ℕ) : Thread := (c.tcb h).own

theorem own_modify (c : Core) (h g : ℕ) {f : Thread → Thread} (hf : ∀ t, (f t).own = t.own) :
    (c.modify h f).own g = c.own g := by
  simp only [own, modify, Function.update_apply]
  split_ifs with hg
  · rw [hf, hg]
  · rfl

theorem own_modify_of_ne (c : Core) (hg : g ≠ h) (f : Thread → Thread) :
    (c.modify h f).own g = c.own g := by
  simp only [own, modify, Function.update_of_ne hg]

theorem own_setThreadStatus (c : Core) (h : ℕ) (status : Status) (g : ℕ) :
    (c.setThreadStatus h status).own g = c.own g :=
  c.own_modify h g fun t ↦ by split_ifs <;> rfl

theorem own_wake (c : Core) (w : WaitQueue) (h g : ℕ) : (c.wake w h).own g = c.own g :=
  (own_modify _ h g (f := fun t ↦ { t with woken := w :: t.woken }) fun _ ↦ rfl).trans
    (c.own_setThreadStatus h .ready g)

theorem own_wakeAll (c : Core) (w : WaitQueue) (moved : List ℕ) (g : ℕ) :
    (c.wakeAll w moved).own g = c.own g := by
  induction moved generalizing c with
  | nil => rfl
  | cons h moved ih => exact (ih (c.wake w h)).trans (c.own_wake w h g)

theorem own_setRet_of_ne (c : Core) (r : ℤ) (hg : g ≠ c.current) : (c.setRet r).own g = c.own g :=
  c.own_modify_of_ne hg _

theorem setRet_self (c : Core) (r : ℤ) :
    (c.setRet r).tcb c.current = { c.tcb c.current with ret := r } := by
  simp [setRet, modify]

theorem finish_ret (c : Core) (h g : ℕ) : ((c.finish h).tcb g).ret = (c.tcb g).ret := by
  simp only [finish, modify, Function.update_apply]
  split_ifs with hg
  · rw [hg]
  · rw [hg]
  · rfl

/-- A thread that has something left is not back from its call. -/
theorem finish_of_ne (c : Core) (hne : (c.tcb h).todo ≠ []) : c.finish h = c := by
  rw [finish, modify, if_neg hne, Function.update_eq_self]

theorem own_push_of_ne (c : Core) (extra : List Instr) (hg : g ≠ c.current) :
    (c.push extra).own g = c.own g :=
  c.own_modify_of_ne hg _

theorem own_begin_of_ne (c : Core) (k : Call) (hg : g ≠ c.current) : (c.begin k).own g = c.own g :=
  c.own_modify_of_ne hg _

theorem own_abandon_of_ne (c : Core) (hg : g ≠ c.current) : c.abandon.own g = c.own g :=
  c.own_modify_of_ne hg _

theorem own_getcontext_of_ne (c : Core) (hg : g ≠ c.current) : c.getcontext.own g = c.own g :=
  c.own_modify_of_ne hg _

theorem own_stamp_of_ne (c : Core) (hg : g ≠ c.current) : c.stamp.own g = c.own g :=
  c.own_modify_of_ne hg fun t ↦ { t with since := c.clock }

theorem own_yieldSwitch_of_ne (c : Core) (old want : ℕ) (hg : g ≠ c.current) :
    (c.yieldSwitch old want).own g = c.own g :=
  (own_setRet_of_ne (c.setThreadStatus old .ready).getcontext _ hg).trans
    ((own_getcontext_of_ne (c.setThreadStatus old .ready) hg).trans
      (c.own_setThreadStatus old .ready g))

theorem own_sleepSwitch_of_ne (c : Core) (old new : ℕ) (hg : g ≠ c.current) :
    (c.sleepSwitch old new).own g = c.own g :=
  (own_setRet_of_ne (c.setThreadStatus old .blocked).getcontext.stamp _ hg).trans
    ((own_stamp_of_ne (c.setThreadStatus old .blocked).getcontext hg).trans
      ((own_getcontext_of_ne (c.setThreadStatus old .blocked) hg).trans
        (c.own_setThreadStatus old .blocked g)))

theorem own_exitSwitch_of_ne (c : Core) (old new : ℕ) (moved : List ℕ) (hg : g ≠ old) :
    (c.exitSwitch old new moved).own g = c.own g :=
  (own_modify_of_ne _ hg fun t ↦ { t with exited := true }).trans
    (own_wakeAll { c with flag := false, threads := Function.update c.threads (c.tcb old).id none }
      (.thread (c.tcb old).id) moved g)

theorem own_interruptsSet_of_ne (hset : c.interruptsSet = some d) (hg : g ≠ c.current) :
    d.own g = c.own g := by
  rw [interruptsSet] at hset
  split at hset
  · cases hset
  · rename_i f saved _
    obtain rfl := Option.some.inj hset
    exact c.own_modify_of_ne hg fun t ↦ { t with saved := saved }

end Core

namespace Ideal

/-- A statement of the running thread leaves alone what the others have of their own. -/
theorem Executes.own_other (ha : a.Ordered) (hexec : a.Executes i b) (hg : g ≠ a.core.current)
    (hallocated : g < a.core.allocated) : b.core.own g = a.core.own g := by
  cases hexec with
  | off => exact a.core.own_modify_of_ne hg fun t ↦ { t with saved := a.core.flag :: t.saved }
  | set hset => exact Core.own_interruptsSet_of_ne hset hg
  | on | sigreturn | cvDestroy | checkPasses | assertHeld | lockDestroy | acquire => rfl
  | createNomore | createNomemory | yieldNone | yieldInvalid | sleepInvalid | sleepNone
  | wakeupNone | killFails | waitFails | waitReturn | lockCreate | cvCreate | queueCreate =>
    exact Core.own_setRet_of_ne _ _ hg
  | @create id =>
    refine (Core.own_setRet_of_ne (a.core.addThread id) _ hg).trans ?_
    simp only [Core.own, Core.addThread, Function.update_of_ne (Nat.ne_of_lt hallocated)]
  | yieldSelf | yieldSwitch => exact Core.own_yieldSwitch_of_ne _ _ _ hg
  | sleep => exact Core.own_sleepSwitch_of_ne _ _ _ hg
  | @wakeup w all h more kept =>
    refine (Core.own_setRet_of_ne _ _ ?_).trans (Core.own_wakeAll _ _ _ _)
    rw [Core.wakeAll_eq]
    exact hg
  | @kill tid old h =>
    exact (Core.own_setRet_of_ne (a.core.setThreadStatus h .exited) _ hg).trans
      (a.core.own_setThreadStatus h .exited g)
  | wait | clear | acquireBlocked => exact Core.own_push_of_ne _ _ hg
  | checkExits => exact a.core.own_abandon_of_ne hg
  | setRunning => exact Core.own_setThreadStatus _ _ _ _
  | @exit old new rest rest' hready =>
    exact Core.own_exitSwitch_of_ne _ _ _ _ (by rwa [ha.eq_current hready])
  | @release l old rest k =>
    refine (Core.own_wakeAll _ _ _ _).trans ?_
    exact a.core.own_modify_of_ne hg fun t ↦ { t with saved := a.core.flag :: t.saved }

/-- A move leaves alone what the threads that do not run have of their own. -/
theorem Transition.own_other (ha : a.Ordered) (htransition : a.Transition m b)
    (hg : g ≠ a.core.current) (hallocated : g < a.core.allocated) :
    b.core.own g = a.core.own g := by
  cases htransition with
  | timer => exact a.core.own_push_of_ne _ hg
  | call => exact a.core.own_begin_of_ne _ hg
  | interrupts => rfl
  | @instr _ i rest b htodo hexec =>
    refine (b.core.own_modify_of_ne hg _).trans ?_
    refine (hexec.own_other (ha.popped rest) hg (by rwa [(a.popped_frame rest).allocated])).trans ?_
    exact a.core.own_modify_of_ne hg fun t ↦ { t with todo := rest }

end Ideal

end OperatingSystems.Threads
