import OperatingSystems.Threads.Order

/-!
# What a thread does on its own

The control state of a thread is what decides how it goes on: the interrupt flag it runs with, or
will run with when it is switched to, the statements it has still to execute, the values of
`enabled` it has saved, and the call it is inside of. The other threads do not change it
(`Transition.control_other`), and the thread itself changes it by `Control.Step` only
(`Transition.control_self`). A property of control states that `Control.Step` keeps and that a new
thread has therefore holds of every thread (`Control.invariant`).
-/

set_option autoImplicit false
set_option relaxedAutoImplicit false

namespace OperatingSystems.Threads

open State (Move Memory)

variable {a b : Ideal} {c d : Core} {w : WaitQueue} {i : Instr} {m : Move} {g h : ℕ}

/-! ### Control states -/

/-- What decides how a thread goes on. -/
structure Control where
  flag : Bool
  todo : List Instr
  saved : List Bool
  call : Option Call
  enabled : Bool

/-- The interrupt flag a thread runs with, or will run with when it is switched to. -/
def Core.flagOf (c : Core) (h : ℕ) : Bool := if h = c.current then c.flag else (c.tcb h).mask

/-- The control state of a thread. -/
def Core.control (c : Core) (h : ℕ) : Control where
  flag := c.flagOf h
  todo := (c.tcb h).todo
  saved := (c.tcb h).saved
  call := (c.tcb h).call
  enabled := (c.tcb h).enabled

namespace Control

/-- A statement may put the list in front of the statements that are left. -/
inductive Expands : Instr → List Instr → Prop
  | straight (i : Instr) : Expands i []
  | yields (want : ℤ) : Expands (.yieldTo want) resumeCode
  | sleeps (w : WaitQueue) : Expands (.sleepOn w) resumeCode
  | waits (tid : ℤ) :
    Expands (.waitCheck tid) (sleepCode (.thread tid.toNat) ++ [.waitReturn tid])
  | blocks (l : ℕ) : Expands (.acquire l) (sleepCode (.lock l) ++ [.acquire l])
  | clears (pc pc' : ClearPc) : Expands (.clear pc) [.clear pc']

/-- The flag and the saved values after a statement. -/
def flagEffect : Instr → Bool → List Bool → Option (Bool × List Bool)
  | .off, f, saved => some (false, f :: saved)
  | .release _, f, saved => some (false, f :: saved)
  | .set, _, [] => none
  | .set, _, f :: saved => some (f, saved)
  | .on, _, saved => some (true, saved)
  | .sigreturn, _, saved => some (true, saved)
  | _, f, saved => some (f, saved)

/-- A thread with no statement of the library left is inside of no call. -/
def finish (x : Control) : Control := if x.todo = [] then { x with call := none } else x

/-- The changes a thread makes of its own control state. -/
inductive Step (x : Control) : Control → Prop
  | timer (hflag : x.flag = true) :
    Step x { x with flag := false, todo := handlerCode ++ x.todo }
  | call {k : Call} (htodo : x.todo = []) :
    Step x { x with todo := code k, call := some k, enabled := x.flag }
  | interrupts {enabled : Bool} (htodo : x.todo = []) : Step x { x with flag := enabled }
  | instr {i : Instr} {rest extra : List Instr} {f : Bool} {saved : List Bool}
      (htodo : x.todo = i :: rest) (hi : i ≠ .exit) (hextra : Expands i extra)
      (heffect : flagEffect i x.flag x.saved = some (f, saved)) :
    Step x (finish { x with flag := f, saved := saved, todo := extra ++ rest })
  | abandon {rest : List Instr} (htodo : x.todo = .checkExited :: rest) :
    Step x { x with todo := [.exit], saved := [], call := some .threadExit }

end Control

namespace Core

/-! ### Changes that leave control states alone -/

theorem control_modify (c : Core) (h g : ℕ) {f : Thread → Thread}
    (hf : ∀ t, (f t).mask = t.mask ∧ (f t).todo = t.todo ∧ (f t).saved = t.saved ∧
      (f t).call = t.call ∧ (f t).enabled = t.enabled) :
        (c.modify h f).control g = c.control g := by
  simp only [control, flagOf, modify, Function.update_apply]
  split_ifs with hcurrent hg hg
  · subst hg
    simp [hf]
  · rfl
  · subst hg
    simp [hf]
  · rfl

theorem control_modify_of_ne (c : Core) (hgh : g ≠ h) (f : Thread → Thread) :
    (c.modify h f).control g = c.control g := by
  simp only [control, flagOf, modify, Function.update_of_ne hgh]

theorem control_setRet (c : Core) (r : ℤ) (g : ℕ) : (c.setRet r).control g = c.control g :=
  c.control_modify _ g fun _ ↦ ⟨rfl, rfl, rfl, rfl, rfl⟩

theorem control_setThreadStatus (c : Core) (h : ℕ) (status : Status) (g : ℕ) :
    (c.setThreadStatus h status).control g = c.control g :=
  c.control_modify _ g fun t ↦ by split_ifs <;> exact ⟨rfl, rfl, rfl, rfl, rfl⟩

theorem control_wake (c : Core) (w : WaitQueue) (h g : ℕ) :
    (c.wake w h).control g = c.control g :=
  (control_modify _ h g (f := fun t ↦ { t with woken := w :: t.woken }) fun _ ↦
    ⟨rfl, rfl, rfl, rfl, rfl⟩).trans (c.control_setThreadStatus h .ready g)

theorem control_wakeAll (c : Core) (w : WaitQueue) (moved : List ℕ) (g : ℕ) :
    (c.wakeAll w moved).control g = c.control g := by
  induction moved generalizing c with
  | nil => rfl
  | cons h moved ih => exact (ih (c.wake w h)).trans (c.control_wake w h g)

theorem control_stamp (c : Core) (g : ℕ) : c.stamp.control g = c.control g :=
  c.control_modify c.current g (f := fun t ↦ { t with since := c.clock }) fun _ ↦
    ⟨rfl, rfl, rfl, rfl, rfl⟩

/-! ### Changes of the running thread -/

/-- After a switch every thread has the flag of its saved context. -/
theorem control_setcontext (c : Core) (h g : ℕ) :
    (c.setcontext h).control g = { c.control g with flag := (c.tcb g).mask } := by
  by_cases hg : g = h
  · subst hg
    simp [control, flagOf, setcontext]
  · simp [control, flagOf, setcontext, hg]

/-- What a switch after `getcontext` makes of the control states: the running thread will go on with
the resume path. -/
theorem control_switch (c : Core) (h : ℕ) {d : Core}
    (hd : ∀ g, d.control g = c.getcontext.control g) (hmask : ∀ g, (d.tcb g).mask =
      (c.getcontext.tcb g).mask) (g : ℕ) :
    (d.setcontext h).control g = if g = c.current then
      { c.control g with todo := resumeCode ++ (c.control g).todo } else c.control g := by
  rw [control_setcontext, hd, hmask]
  simp only [control, flagOf, getcontext, modify, Function.update_apply]
  split_ifs with hg
  · subst hg
    rfl
  · rfl

theorem control_yieldSwitch (c : Core) (old want g : ℕ) :
    (c.yieldSwitch old want).control g = if g = c.current then
      { c.control g with todo := resumeCode ++ (c.control g).todo } else c.control g := by
  have hswitch := control_switch (c.setThreadStatus old .ready) want
    (d := ((c.setThreadStatus old .ready).getcontext).setRet (c.tcb want).id)
    (fun g ↦ control_setRet _ _ g) (fun g ↦ by
      simp only [setRet, modify, Function.update_apply]
      split_ifs with hg
      · rw [hg]
      · rfl) g
  rwa [control_setThreadStatus] at hswitch

theorem control_sleepSwitch (c : Core) (old new g : ℕ) :
    (c.sleepSwitch old new).control g = if g = c.current then
      { c.control g with todo := resumeCode ++ (c.control g).todo } else c.control g := by
  have hswitch := control_switch (c.setThreadStatus old .blocked) new
    (d := (((c.setThreadStatus old .blocked).getcontext).stamp).setRet (c.tcb new).id)
    (fun g ↦ (control_setRet _ _ g).trans (control_stamp _ g)) (fun g ↦ by
      simp only [setRet, stamp, modify, Function.update_apply]
      split_ifs with hg
      · rw [hg]
      · rfl) g
  rwa [control_setThreadStatus] at hswitch

theorem control_push_self (c : Core) (extra : List Instr) :
    (c.push extra).control c.current =
      { c.control c.current with todo := extra ++ (c.control c.current).todo } := by
  simp [control, flagOf, push, modify]

theorem control_interruptsOff_self (c : Core) :
    c.interruptsOff.control c.current =
      { c.control c.current with
        flag := false
        saved := (c.control c.current).flag :: (c.control c.current).saved } := by
  simp [control, flagOf, interruptsOff, modify]

theorem control_flag_of_ne (c : Core) (f : Bool) (hg : g ≠ c.current) :
    ({ c with flag := f } : Core).control g = c.control g := by
  simp [control, flagOf, hg]

theorem control_interruptsOff_of_ne (c : Core) (hg : g ≠ c.current) :
    c.interruptsOff.control g = c.control g :=
  (control_flag_of_ne (c.modify c.current fun t ↦ { t with saved := c.flag :: t.saved }) false
    hg).trans (c.control_modify_of_ne hg _)

theorem mask_wakeAll (c : Core) (w : WaitQueue) (moved : List ℕ) (g : ℕ) :
    ((c.wakeAll w moved).tcb g).mask = (c.tcb g).mask := by
  induction moved generalizing c with
  | nil => rfl
  | cons h moved ih =>
    refine (ih (c.wake w h)).trans ?_
    simp only [wake, setThreadStatus, modify, Function.update_apply]
    split_ifs with hg
    · subst hg
      rfl
    · subst hg
      rfl
    · rfl

theorem control_flag_self (c : Core) (f : Bool) :
    ({ c with flag := f } : Core).control c.current =
      { c.control c.current with flag := f } := by
  simp [control, flagOf]

theorem control_interruptsSet_self (hset : c.interruptsSet = some d) :
    ∃ f saved, (c.control c.current).saved = f :: saved ∧
      d.control c.current = { c.control c.current with flag := f, saved := saved } := by
  rw [interruptsSet] at hset
  split at hset
  · cases hset
  · rename_i f saved hsaved
    obtain rfl := Option.some.inj hset
    exact ⟨f, saved, hsaved, by simp [control, flagOf, modify]⟩

theorem control_interruptsSet_of_ne (hset : c.interruptsSet = some d) (hg : g ≠ c.current) :
    d.control g = c.control g := by
  rw [interruptsSet] at hset
  split at hset
  · cases hset
  · rename_i f saved _
    obtain rfl := Option.some.inj hset
    exact (control_flag_of_ne (c.modify c.current fun t ↦ { t with saved := saved }) f hg).trans
      (c.control_modify_of_ne hg _)

theorem control_abandon_self (c : Core) :
    c.abandon.control c.current = { c.control c.current with
      todo := [.exit], saved := [], call := some .threadExit } := by
  simp [control, flagOf, abandon, modify]

theorem control_addThread_of_ne (c : Core) (id : ℕ) (hg : g ≠ c.allocated) :
    (c.addThread id).control g = c.control g := by
  simp [control, flagOf, addThread, Function.update_of_ne hg]

theorem control_addThread_self (c : Core) (id : ℕ) (hcurrent : c.current ≠ c.allocated) :
    (c.addThread id).control c.allocated = ⟨c.flag, stubCode, [], none, true⟩ := by
  simp [control, flagOf, addThread, Thread.start, hcurrent.symm]

theorem control_finish_self (c : Core) (h : ℕ) :
    (c.finish h).control h = (c.control h).finish := by
  simp only [control, flagOf, finish, modify, Control.finish, Function.update_self]
  split_ifs <;> rfl

theorem control_push_of_ne (c : Core) (extra : List Instr) (hg : g ≠ c.current) :
    (c.push extra).control g = c.control g :=
  c.control_modify_of_ne hg _

end Core

/-! ### The statements -/

namespace Ideal

open Control

/-- Assumes: a statement other than `thread_exit`. The running thread's control state after it,
before it may be back from its call. -/
theorem Executes.control_self (hexec : a.Executes i b) (hi : i ≠ .exit)
    (hlive : a.core.current < a.core.allocated) :
    (∃ extra f saved, Expands i extra ∧
      flagEffect i (a.core.control a.core.current).flag (a.core.control a.core.current).saved =
        some (f, saved) ∧
      b.core.control a.core.current = { a.core.control a.core.current with
        flag := f, saved := saved, todo := extra ++ (a.core.control a.core.current).todo }) ∨
      i = .checkExited ∧ b.core.control a.core.current = { a.core.control a.core.current with
        todo := [.exit], saved := [], call := some .threadExit } := by
  -- Most statements leave the control state as it is.
  have hsame : flagEffect i (a.core.control a.core.current).flag
      (a.core.control a.core.current).saved =
        some ((a.core.control a.core.current).flag, (a.core.control a.core.current).saved) →
      b.core.control a.core.current = a.core.control a.core.current →
      ∃ extra f saved, Expands i extra ∧
        flagEffect i (a.core.control a.core.current).flag
          (a.core.control a.core.current).saved = some (f, saved) ∧
        b.core.control a.core.current = { a.core.control a.core.current with
          flag := f, saved := saved, todo := extra ++ (a.core.control a.core.current).todo } :=
    fun heffect hcontrol ↦ ⟨[], _, _, .straight i, heffect, hcontrol⟩
  cases hexec with
  | off => exact .inl ⟨[], _, _, .straight _, rfl, a.core.control_interruptsOff_self⟩
  | set hset =>
    obtain ⟨f, saved, hsaved, hcontrol⟩ := Core.control_interruptsSet_self hset
    rw [hsaved]
    exact .inl ⟨[], f, saved, .straight _, rfl, hcontrol⟩
  | on => exact .inl ⟨[], _, _, .straight _, rfl, a.core.control_flag_self true⟩
  | sigreturn => exact .inl ⟨[], _, _, .straight _, rfl, a.core.control_flag_self true⟩
  | createNomore | createNomemory | yieldNone | yieldInvalid | sleepInvalid | sleepNone
  | wakeupNone | killFails | waitFails | waitReturn =>
    exact .inl (hsame rfl (Core.control_setRet _ _ _))
  | create hid hfree =>
    refine .inl (hsame rfl ?_)
    rw [mapCore_core, setList_core, Core.control_setRet]
    exact Core.control_addThread_of_ne _ _ (Nat.ne_of_lt hlive)
  | yieldSelf =>
    refine .inl ⟨resumeCode, _, _, .yields _, rfl, ?_⟩
    rw [mapCore_core, Core.control_yieldSwitch, if_pos rfl]
  | yieldSwitch =>
    refine .inl ⟨resumeCode, _, _, .yields _, rfl, ?_⟩
    rw [mapCore_core, setList_core, Core.control_yieldSwitch, if_pos rfl]
  | sleep =>
    refine .inl ⟨resumeCode, _, _, .sleeps _, rfl, ?_⟩
    rw [mapCore_core, setList_core, setList_core, Core.control_sleepSwitch, if_pos rfl]
  | wakeup =>
    refine .inl (hsame rfl ?_)
    rw [mapCore_core, setList_core, setList_core, Core.control_setRet, Core.control_wakeAll]
  | kill =>
    refine .inl (hsame rfl ?_)
    rw [mapCore_core, Core.control_setRet, Core.control_setThreadStatus]
  | wait =>
    refine .inl ⟨_, _, _, .waits _, rfl, ?_⟩
    rw [mapCore_core, setList_core, Core.control_push_self]
  | checkPasses => exact .inl (hsame rfl rfl)
  | checkExits =>
    exact .inr ⟨rfl, Core.control_abandon_self _⟩
  | setRunning => exact .inl (hsame rfl (Core.control_setThreadStatus _ _ _ _))
  | @clear pc pc' =>
    cases pc' with
    | none => exact .inl ⟨[], _, _, .straight _, rfl, Core.control_push_self _ _⟩
    | some pc' => exact .inl ⟨_, _, _, .clears pc pc', rfl, Core.control_push_self _ _⟩
  | exit => exact absurd rfl hi
  | lockCreate =>
    refine .inl (hsame rfl ?_)
    rw [mapCore_core, setList_core, Core.control_setRet]
    rfl
  | lockDestroy => exact .inl (hsame rfl rfl)
  | acquireBlocked =>
    refine .inl ⟨_, _, _, .blocks _, rfl, ?_⟩
    rw [mapCore_core, Core.control_push_self]
  | acquire => exact .inl (hsame rfl rfl)
  | release =>
    refine .inl ⟨[], _, _, .straight _, rfl, ?_⟩
    rw [mapCore_core, setList_core, setList_core, Core.control_wakeAll]
    exact Core.control_interruptsOff_self _
  | cvCreate =>
    refine .inl (hsame rfl ?_)
    rw [mapCore_core, setList_core, Core.control_setRet]
    rfl
  | cvDestroy => exact .inl (hsame rfl rfl)
  | assertHeld => exact .inl (hsame rfl rfl)
  | queueCreate =>
    refine .inl (hsame rfl ?_)
    rw [mapCore_core, setList_core, Core.control_setRet]
    rfl

/-- A statement of the running thread leaves the control states of the others alone. -/
theorem Executes.control_other (ha : a.Ordered) (hexec : a.Executes i b)
    (hg : g ≠ a.core.current) (hallocated : g < a.core.allocated) :
    b.core.control g = a.core.control g := by
  cases hexec with
  | off => exact Core.control_interruptsOff_of_ne _ hg
  | set hset => exact Core.control_interruptsSet_of_ne hset hg
  | on | sigreturn => exact Core.control_flag_of_ne _ _ hg
  | createNomore | createNomemory | yieldNone | yieldInvalid | sleepInvalid | sleepNone
  | wakeupNone | killFails | waitFails | waitReturn => exact Core.control_setRet _ _ _
  | create =>
    rw [mapCore_core, setList_core, Core.control_setRet]
    exact Core.control_addThread_of_ne _ _ (Nat.ne_of_lt hallocated)
  | yieldSelf => rw [mapCore_core, Core.control_yieldSwitch, if_neg hg]
  | yieldSwitch => rw [mapCore_core, setList_core, Core.control_yieldSwitch, if_neg hg]
  | sleep => rw [mapCore_core, setList_core, setList_core, Core.control_sleepSwitch, if_neg hg]
  | wakeup =>
    rw [mapCore_core, setList_core, setList_core, Core.control_setRet, Core.control_wakeAll]
  | kill => rw [mapCore_core, Core.control_setRet, Core.control_setThreadStatus]
  | wait => rw [mapCore_core, setList_core, Core.control_push_of_ne _ _ hg]
  | checkPasses | assertHeld | cvDestroy => rfl
  | checkExits => exact Core.control_modify_of_ne _ hg _
  | setRunning => exact Core.control_setThreadStatus _ _ _ _
  | clear => exact Core.control_push_of_ne _ _ hg
  | @exit old new rest rest' hready =>
    rw [ha.eq_current hready, mapCore_core, dropQueue_core, setList_core, Core.exitSwitch,
      Core.control_setcontext, Core.control_modify_of_ne _ hg, Core.control_wakeAll]
    simp only [Core.modify, Function.update_of_ne hg, Core.mask_wakeAll]
    simp [Core.control, Core.flagOf, hg]
  | lockDestroy | acquire => rfl
  | acquireBlocked => exact Core.control_push_of_ne _ _ hg
  | release =>
    rw [mapCore_core, setList_core, setList_core, Core.control_wakeAll]
    exact Core.control_interruptsOff_of_ne _ hg
  | lockCreate | cvCreate | queueCreate =>
    rw [mapCore_core, setList_core, Core.control_setRet]
    rfl

/-- A statement other than `thread_create` and `thread_exit` changes no id, ends no thread and
allocates none. -/
theorem Executes.frame (hexec : a.Executes i b) :
    ({ a.core with locks := b.core.locks }).Frame b.core ∨
      (∃ id, i = .create ∧ b.core = (a.core.addThread id).setRet id) ∨
      ∃ old new rest moved, i = .exit ∧ a.ready = old :: rest ∧
        b.core = a.core.exitSwitch old new moved := by
  have hlift : ∀ {c : Core}, a.core.Frame c → ({ a.core with locks := c.locks }).Frame c :=
    fun hf ↦ ⟨hf.id, hf.exited, hf.threads, hf.allocated, fun _ ↦ Iff.rfl⟩
  have hrefl : ∀ {c : Core}, c.tcb = a.core.tcb → c.threads = a.core.threads →
      c.allocated = a.core.allocated → ({ a.core with locks := c.locks }).Frame c :=
    fun htcb hthreads hallocated ↦ ⟨fun _ ↦ by rw [htcb], fun _ ↦ by rw [htcb], hthreads,
      hallocated, fun _ ↦ Iff.rfl⟩
  cases hexec with
  | off => exact .inl (hlift (Core.frame_interruptsOff _))
  | set hset => exact .inl (hlift (Core.frame_interruptsSet hset))
  | on | sigreturn => exact .inl (hlift (Core.frame_flag _ true))
  | createNomore | createNomemory | yieldNone | yieldInvalid | sleepInvalid | sleepNone
  | wakeupNone | killFails | waitFails | waitReturn =>
    exact .inl (hlift (Core.frame_setRet _ _))
  | create => exact .inr (.inl ⟨_, rfl, rfl⟩)
  | yieldSelf | yieldSwitch => exact .inl (hlift (Core.frame_yieldSwitch _ _ _))
  | sleep => exact .inl (hlift (Core.frame_sleepSwitch _ _ _))
  | wakeup => exact .inl (hlift ((Core.frame_wakeAll _ _ _).trans (Core.frame_setRet _ _)))
  | @kill tid old h =>
    exact .inl (hlift (c := (a.core.setThreadStatus h .exited).setRet (a.core.tcb h).id)
      ((Core.frame_setThreadStatus _ _ _).trans (Core.frame_setRet _ _)))
  | wait | clear | acquireBlocked => exact .inl (hlift (Core.frame_push _ _))
  | checkPasses | assertHeld | cvDestroy | lockDestroy | acquire => exact .inl (hrefl rfl rfl rfl)
  | checkExits => exact .inl (hlift (Core.frame_abandon _))
  | setRunning => exact .inl (hlift (Core.frame_setThreadStatus _ _ _))
  | exit hready => exact .inr (.inr ⟨_, _, _, _, rfl, hready, rfl⟩)
  | release hready hlock =>
    exact .inl (hlift (((Core.frame_setLock _ _ hlock).trans (Core.frame_interruptsOff _)).trans
      (Core.frame_wakeAll _ _ _)))
  | lockCreate | cvCreate | queueCreate =>
    exact .inl ((Core.frame_objects _ _).trans (Core.frame_setRet _ _))

/-- Which threads have exited after `thread_exit`. -/
theorem Core.exitSwitch_exited (c : Core) (old new : ℕ) (moved : List ℕ) (g : ℕ) :
    ((c.exitSwitch old new moved).tcb g).exited = if g = old then true else (c.tcb g).exited := by
  simp only [Core.exitSwitch, Core.setcontext, Core.modify, Function.update_apply]
  split_ifs with hg
  · rfl
  · exact (Core.frame_wakeAll _ _ _).exited g

theorem Core.exitSwitch_id (c : Core) (old new : ℕ) (moved : List ℕ) (g : ℕ) :
    ((c.exitSwitch old new moved).tcb g).id = (c.tcb g).id := by
  simp only [Core.exitSwitch, Core.setcontext, Core.modify, Function.update_apply]
  split_ifs with hg
  · rw [hg]
    exact (Core.frame_wakeAll _ _ _).id old
  · exact (Core.frame_wakeAll _ _ _).id g

/-- The threads there are after a statement: those there were, with their ids, and perhaps one that
has just been created. A thread that has exited stays so. -/
theorem Executes.threads (ha : a.Ordered) (hexec : a.Executes i b) :
    a.core.allocated ≤ b.core.allocated ∧
    (∀ g < a.core.allocated, (b.core.tcb g).id = (a.core.tcb g).id ∧
      ((a.core.tcb g).exited = true → (b.core.tcb g).exited = true)) ∧
    (∀ g < b.core.allocated, g < a.core.allocated ∨ g = a.core.allocated ∧
      b.core.control g = ⟨a.core.flag, stubCode, [], none, true⟩) ∧
    (i = .exit → (b.core.tcb a.core.current).exited = true) := by
  rcases hexec.frame with hf | ⟨id, rfl, hb⟩ | ⟨old, new, rest, moved, rfl, hready, hb⟩
  · refine ⟨Nat.le_of_eq hf.allocated.symm, fun g _ ↦ ⟨hf.id g, fun hx ↦ (hf.exited g).trans hx⟩,
      fun g hg ↦ .inl (hf.allocated ▸ hg), ?_⟩
    rintro rfl
    cases hexec with
    | exit hready =>
      have hlive := ha.current_live.2
      have hx := hf.exited a.core.current
      rw [mapCore_core, dropQueue_core, setList_core, Core.exitSwitch_exited,
        if_pos (ha.eq_current hready).symm] at hx
      exact absurd (hx.trans hlive) (by simp)
  · have hframe := Core.frame_setRet (a.core.addThread id) id
    have hallocated : b.core.allocated = a.core.allocated + 1 := by rw [hb]; rfl
    refine ⟨by omega, fun g hg ↦ ?_, fun g hg ↦ ?_, fun h ↦ by cases h⟩
    · have hsame : (a.core.addThread id).tcb g = a.core.tcb g :=
        Function.update_of_ne (Nat.ne_of_lt hg) ..
      rw [hb]
      exact ⟨(hframe.id g).trans (congrArg Thread.id hsame),
        fun hx ↦ ((hframe.exited g).trans (congrArg Thread.exited hsame)).trans hx⟩
    · by_cases hlt : g < a.core.allocated
      · exact .inl hlt
      · have hgn : g = a.core.allocated := by omega
        refine .inr ⟨hgn, ?_⟩
        rw [hb, hgn, Core.control_setRet]
        exact Core.control_addThread_self _ _ (Nat.ne_of_lt ha.current_live.1)
  · have hallocated : b.core.allocated = a.core.allocated := by
      rw [hb, Core.exitSwitch, Core.wakeAll_eq]
      rfl
    refine ⟨Nat.le_of_eq hallocated.symm, fun g _ ↦ ⟨?_, fun hx ↦ ?_⟩,
      fun g hg ↦ .inl (hallocated ▸ hg), fun _ ↦ ?_⟩
    · rw [hb, Core.exitSwitch_id]
    · rw [hb, Core.exitSwitch_exited, hx, ite_self]
    · rw [hb, Core.exitSwitch_exited, if_pos (ha.eq_current hready).symm]

/-! ### The moves -/

theorem popped_frame (a : Ideal) (rest : List Instr) : a.core.Frame (a.popped rest).core :=
  Core.frame_modify _ _ (f := fun t ↦ { t with todo := rest }) (fun _ ↦ rfl) fun _ ↦ rfl

theorem Ordered.popped (ha : a.Ordered) (rest : List Instr) : (a.popped rest).Ordered :=
  ha.mapCore (a.popped_frame rest) rfl rfl

theorem popped_control_self (a : Ideal) (rest : List Instr) :
    (a.popped rest).core.control a.core.current =
      { a.core.control a.core.current with todo := rest } := by
  simp [popped, Core.control, Core.flagOf, Core.modify]

theorem popped_control_other (a : Ideal) (rest : List Instr) (hg : g ≠ a.core.current) :
    (a.popped rest).core.control g = a.core.control g :=
  Core.control_modify_of_ne _ hg _

/-- The threads there are after a move: those there were, with their ids, and perhaps one that has
just been created. A thread that has exited stays so. -/
theorem Transition.threads (ha : a.Ordered) (htransition : a.Transition m b) :
    a.core.allocated ≤ b.core.allocated ∧
    (∀ g < a.core.allocated, (b.core.tcb g).id = (a.core.tcb g).id ∧
      ((a.core.tcb g).exited = true → (b.core.tcb g).exited = true)) ∧
    ∀ g < b.core.allocated, g < a.core.allocated ∨ g = a.core.allocated ∧
      ∃ f, b.core.control g = ⟨f, stubCode, [], none, true⟩ := by
  have hframe : ∀ {c : Core}, a.core.Frame c → a.core.allocated ≤ c.allocated ∧
      (∀ g < a.core.allocated, (c.tcb g).id = (a.core.tcb g).id ∧
        ((a.core.tcb g).exited = true → (c.tcb g).exited = true)) ∧
      ∀ g < c.allocated, g < a.core.allocated ∨ g = a.core.allocated ∧
        ∃ f, c.control g = ⟨f, stubCode, [], none, true⟩ := fun hf ↦
    ⟨Nat.le_of_eq hf.allocated.symm, fun g _ ↦ ⟨hf.id g, fun hx ↦ (hf.exited g).trans hx⟩,
      fun g hg ↦ .inl (hf.allocated ▸ hg)⟩
  cases htransition with
  | timer => exact hframe (Core.frame_interrupt _)
  | call => exact hframe (Core.frame_begin _ _)
  | interrupts => exact hframe (Core.frame_flag _ _)
  | @instr _ i rest b htodo hexec =>
    obtain ⟨hle, hold, hnew, -⟩ := hexec.threads (ha.popped rest)
    have hpopped := a.popped_frame rest
    have hfinish := b.core.frame_finish a.core.current
    rw [hpopped.allocated] at hle
    refine ⟨?_, fun g hg ↦ ?_, fun g hg ↦ ?_⟩
    · rwa [mapCore_core, hfinish.allocated]
    · obtain ⟨hid, hx⟩ := hold g (by rwa [hpopped.allocated])
      rw [mapCore_core, hfinish.id, hfinish.exited, hid, hpopped.id]
      exact ⟨rfl, fun h ↦ hx ((hpopped.exited g).trans h)⟩
    · rw [mapCore_core, hfinish.allocated] at hg
      rcases hnew g hg with hlt | ⟨rfl, hcontrol⟩
      · exact .inl (by rwa [hpopped.allocated] at hlt)
      · refine .inr ⟨hpopped.allocated, (a.popped rest).core.flag, ?_⟩
        rw [mapCore_core, ← hcontrol]
        refine Core.control_modify_of_ne _ ?_ _
        rw [hpopped.allocated]
        exact (Nat.ne_of_lt ha.current_live.1).symm

/-- A thread that exits in a move is the one that runs, and executes `thread_exit`. -/
theorem Transition.exits (ha : a.Ordered) (htransition : a.Transition m b)
    (hg : g < a.core.allocated) (hlive : (a.core.tcb g).exited = false)
    (hexited : (b.core.tcb g).exited = true) :
    g = a.core.current ∧ ∃ memory rest, m = .instr memory ∧ a.core.self.todo = .exit :: rest := by
  have hframe : ∀ {c : Core}, a.core.Frame c → (c.tcb g).exited = false := fun hf ↦
    (hf.exited g).trans hlive
  cases htransition with
  | timer => exact absurd ((hframe (Core.frame_interrupt _)).symm.trans hexited) (by simp)
  | call => exact absurd ((hframe (Core.frame_begin _ _)).symm.trans hexited) (by simp)
  | interrupts => exact absurd (hlive.symm.trans hexited) (by simp)
  | @instr memory i rest b htodo hexec =>
    have hpopped := a.popped_frame rest
    have hlive' := (hpopped.exited g).trans hlive
    have hexited' := ((b.core.frame_finish a.core.current).exited g).symm.trans hexited
    rcases hexec.frame with hf | ⟨id, rfl, hb⟩ | ⟨old, new, rest', moved, rfl, hready, hb⟩
    · exact absurd ((hf.exited g).symm.trans hexited') (by simp [hlive'])
    · have hsame : ((a.popped rest).core.addThread id).tcb g = (a.popped rest).core.tcb g :=
        Function.update_of_ne (Nat.ne_of_lt (by rwa [hpopped.allocated])) ..
      rw [hb, (Core.frame_setRet _ _).exited, hsame] at hexited'
      exact absurd (hlive'.symm.trans hexited') (by simp)
    · refine ⟨?_, memory, rest, rfl, htodo⟩
      by_contra hne
      rw [hb, Core.exitSwitch_exited, if_neg fun heq ↦ hne (heq.trans
        ((ha.popped rest).eq_current hready))] at hexited'
      exact absurd (hlive'.symm.trans hexited') (by simp)

/-- The running thread changes its own control state by a step, or exits. -/
theorem Transition.control_self (ha : a.Ordered) (htransition : a.Transition m b)
    (hlive : (b.core.tcb a.core.current).exited = false) :
    Control.Step (a.core.control a.core.current) (b.core.control a.core.current) := by
  cases htransition with
  | timer hflag =>
    have hcontrol : a.core.interrupt.control a.core.current = { a.core.control a.core.current with
        flag := false, todo := handlerCode ++ (a.core.control a.core.current).todo } := by
      simp [Core.control, Core.flagOf, Core.interrupt, Core.push, Core.modify]
    rw [mapCore_core, hcontrol]
    exact .timer (by simpa [Core.control, Core.flagOf] using hflag)
  | @call k htodo =>
    have hcontrol : (a.core.begin k).control a.core.current = { a.core.control a.core.current with
        todo := code k, call := some k, enabled := (a.core.control a.core.current).flag } := by
      simp [Core.control, Core.flagOf, Core.begin, Core.modify]
    rw [mapCore_core, hcontrol]
    exact .call htodo
  | interrupts htodo =>
    rw [mapCore_core, Core.control_flag_self]
    exact .interrupts htodo
  | @instr _ i rest b htodo hexec =>
    obtain ⟨-, -, -, hexit⟩ := hexec.threads (ha.popped rest)
    have hi : i ≠ .exit := fun heq ↦ by
      have hx := hexit heq
      rw [mapCore_core, (b.core.frame_finish _).exited] at hlive
      exact absurd (hx.symm.trans hlive) (by simp)
    rw [mapCore_core, Core.control_finish_self]
    rcases hexec.control_self hi (ha.popped rest).current_live.1 with
      ⟨extra, f, saved, hextra, heffect, hcontrol⟩ | ⟨rfl, hcontrol⟩
    · rw [show (a.popped rest).core.current = a.core.current from rfl, popped_control_self]
        at heffect hcontrol
      rw [hcontrol]
      exact .instr htodo hi hextra heffect
    · rw [show (a.popped rest).core.current = a.core.current from rfl, popped_control_self]
        at hcontrol
      rw [hcontrol, Control.finish, if_neg (by simp)]
      exact .abandon htodo

/-- The other threads keep their control states. -/
theorem Transition.control_other (ha : a.Ordered) (htransition : a.Transition m b)
    (hg : g ≠ a.core.current) (hallocated : g < a.core.allocated) :
    b.core.control g = a.core.control g := by
  cases htransition with
  | timer =>
    exact (Core.control_flag_of_ne (a.core.push handlerCode) false hg).trans
      (a.core.control_push_of_ne _ hg)
  | call => exact a.core.control_modify_of_ne hg _
  | interrupts => exact Core.control_flag_of_ne _ _ hg
  | @instr _ i rest b htodo hexec =>
    refine (b.core.control_modify_of_ne hg _).trans ?_
    rw [hexec.control_other (ha.popped rest) hg (by rwa [(a.popped_frame rest).allocated])]
    exact a.popped_control_other rest hg

/-- Assumes: a property of control states that a thread keeps by its own steps, and that a new
thread has. A move keeps it for all threads that have not exited. -/
theorem Ordered.control_invariant {P : Control → Prop} (hstep : ∀ x y, P x → Control.Step x y → P y)
    (hnew : ∀ f, P ⟨f, stubCode, [], none, true⟩) (ha : a.Ordered)
    (htransition : a.Transition m b)
    (hP : ∀ g < a.core.allocated, (a.core.tcb g).exited = false → P (a.core.control g)) :
    ∀ g < b.core.allocated, (b.core.tcb g).exited = false → P (b.core.control g) := by
  intro g hg hlive
  obtain ⟨-, hold, hcases⟩ := htransition.threads ha
  rcases hcases g hg with hlt | ⟨-, f, hcontrol⟩
  · have hlive' : (a.core.tcb g).exited = false := by
      rw [← Bool.not_eq_true]
      exact fun hx ↦ absurd (((hold g hlt).2 hx).symm.trans hlive) (by simp)
    by_cases hcurrent : g = a.core.current
    · subst hcurrent
      exact hstep _ _ (hP _ hlt hlive') (htransition.control_self ha hlive)
    · rw [htransition.control_other ha hcurrent hlt]
      exact hP g hlt hlive'
  · rw [hcontrol]
    exact hnew f

end Ideal

end OperatingSystems.Threads
