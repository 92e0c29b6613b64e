import OperatingSystems.Threads.Wakeup

/-!
# Locks

What the moves do with locks. A statement changes a lock only as `LockStep` says: the running thread
takes a lock that is free, or frees one that names it. A thread that owns a lock therefore owns it
until it executes `lock_release` itself (`Owns.transition`). Between the test of a lock and the
sleep on its queue, and between the taking of a lock and the return, the thread keeps running with
interrupts off; what statements surround these places is read off the stages of the calls.
-/

set_option autoImplicit false
set_option relaxedAutoImplicit false

namespace OperatingSystems.Threads

open State (Move Memory)

variable {a b : Ideal} {c d : Core} {i j : Instr} {m : Move} {s t : State} {g h x : ℕ} {k : Call}
  {l rest stage r : List Instr} {w : WaitQueue}

/-! ### Calls on a lock -/

/-- The call has the lock when it returns. -/
def Call.Acquires (x : ℕ) : Call → Prop
  | .lockAcquire y | .cvWait _ y => y = x
  | _ => False

/-- The call gives the lock away. -/
def Call.Releases (x : ℕ) : Call → Prop
  | .lockRelease y | .cvWait _ y => y = x
  | _ => False

/-- A thread goes to sleep on a lock's queue right after it has switched interrupts off. -/
theorem sleep_lock_stage (hstage : stage ∈ stages k) (hl : i :: .sleepOn (.lock x) :: l <:+ stage) :
    i = .off := by
  refine of_stage (P := fun i l ↦ ∀ x l', l = .sleepOn (.lock x) :: l' → i = .off) ?_ hstage hl
    x l rfl
  cases k <;> simp [stages, code, yieldCode, sleepCode, wakeupCode, acquireCode, releaseCode,
    EachEnd]

/-- That is the first statement of the stage the thread comes to when it finds the lock taken. -/
theorem off_sleep_lock_stage (hstage : stage ∈ stages k)
    (hl : j :: i :: .off :: .sleepOn (.lock x) :: l <:+ stage) : False := by
  refine of_stage (P := fun _ l ↦ ∀ i x l', l ≠ i :: .off :: .sleepOn (.lock x) :: l') ?_ hstage hl
    i x l rfl
  cases k <;> simp [stages, code, yieldCode, sleepCode, wakeupCode, acquireCode, releaseCode,
    EachEnd]

/-- Only restoring the flag follows the taking of the lock. -/
theorem taken_stage (hstage : stage ∈ stages k) (hk : k.Acquires x) (hl : i :: l <:+ stage)
    (hne : l ≠ []) (hset : ∀ i ∈ l, i = .set) : i = .set ∨ i = .acquire x := by
  refine of_stage (P := fun i l ↦ l ≠ [] → (∀ i ∈ l, i = .set) → i = .set ∨ i = .acquire x) ?_
    hstage hl hne hset
  cases k <;> simp_all [stages, code, yieldCode, sleepCode, wakeupCode, acquireCode, releaseCode,
    EachEnd, Call.Acquires]

theorem release_stage (hstage : stage ∈ stages k) (hl : i :: .release x :: l <:+ stage) :
    k.Releases x := by
  refine of_stage (P := fun _ l ↦ ∀ x l', l = .release x :: l' → k.Releases x) ?_ hstage hl x l rfl
  cases k <;> simp [stages, code, yieldCode, sleepCode, wakeupCode, acquireCode, releaseCode,
    EachEnd, Call.Releases]

/-- What a thread has left outside of all functions that save the flag is no sleep on a lock. -/
theorem Outside.not_sleep {call : Option Call} (hbase : Outside call (i :: rest)) :
    i ≠ .sleepOn (.lock x) ∧ rest ≠ .sleepOn (.lock x) :: l ∧
      rest ≠ .off :: .sleepOn (.lock x) :: l ∧
      i :: rest ≠ .off :: .sleepOn (.lock x) :: l := by
  cases call with
  | none =>
    rcases hbase with hstub | hresumes
    · obtain ⟨rfl, rfl⟩ := List.cons.inj hstub
      simp
    · have hhead : ∀ {j : Instr} {l : List Instr}, rest = j :: l → j.resumes := fun heq ↦
        hresumes _ (by simp [heq])
      have hi := hresumes i List.mem_cons_self
      refine ⟨fun heq ↦ by rw [heq] at hi; exact hi, fun heq ↦ hhead heq, fun heq ↦ hhead heq,
        fun heq ↦ by rw [(List.cons.inj heq).1] at hi; exact hi⟩
  | some k =>
    have hcode : i :: rest = code k := hbase
    cases k <;> simp_all [code, yieldCode, sleepCode, wakeupCode, acquireCode, releaseCode]

namespace Control

variable {y : Control}

/-- Before a thread goes to sleep on a lock's queue it switches interrupts off. -/
theorem Located.sleep_lock (h : y.Located) (htodo : y.todo = i :: rest)
    (hrest : rest = .sleepOn (.lock x) :: l ∨ rest = .off :: .sleepOn (.lock x) :: l) :
    i = .off ∧ rest = .sleepOn (.lock x) :: l := by
  have hhead : ∀ {j : Instr} {l : List Instr}, rest = j :: l → ¬j.resumes := by
    rintro j l' rfl hj
    rcases hrest with heq | heq
    · rw [(List.cons.inj heq).1] at hj
      exact hj
    · rw [(List.cons.inj heq).1] at hj
      exact hj
  cases h with
  | @outer resume handler base hy hresume hhandler hfirst hflag hbase =>
    exfalso
    rw [htodo] at hy
    rcases resume with _ | ⟨j, _ | ⟨j', resume⟩⟩
    · cases handler with
      | nil =>
        rw [List.nil_append, List.nil_append] at hy
        rw [← hy] at hbase
        obtain ⟨-, hfirst, hsecond, -⟩ := hbase.not_sleep (x := x) (l := l)
        exact hrest.elim hfirst hsecond
      | cons j handler =>
        obtain ⟨rfl, rfl⟩ := List.cons.inj hy
        rcases handler_cases hhandler with ⟨-, rfl⟩ | ⟨-, rfl⟩ | ⟨-, rfl⟩ | ⟨-, rfl⟩
        · simp at hrest
        · simp at hrest
        · simp at hrest
        · change base = _ ∨ base = _ at hrest
          cases base with
          | nil => simp at hrest
          | cons j' base =>
            obtain ⟨hnone, -, -, hboth⟩ := hbase.not_sleep (x := x) (l := l)
            rcases hrest with heq | heq
            · exact hnone (List.cons.inj heq).1
            · exact hboth heq
    · have hne : handler ≠ [] := fun hnil ↦ absurd (hfirst hnil) (by simp)
      obtain ⟨rfl, rfl⟩ := List.cons.inj hy
      cases handler with
      | nil => exact hne rfl
      | cons j handler =>
        rcases handler_cases hhandler with ⟨rfl, rfl⟩ | ⟨rfl, rfl⟩ | ⟨rfl, rfl⟩ | ⟨rfl, rfl⟩ <;>
          simp at hrest
    · obtain ⟨rfl, rfl⟩ := List.cons.inj hy
      exact hhead rfl (hresume j' (by simp))
  | @inner resume l' stage j k hy hresume hswitched hcall hstage hl hne =>
    rw [htodo] at hy
    rcases resume with _ | ⟨j', _ | ⟨j'', resume⟩⟩
    · obtain rfl : i :: rest = l' := hy
      rcases hrest with rfl | rfl
      · exact ⟨sleep_lock_stage hstage ((List.suffix_cons j _).trans hl), rfl⟩
      · exact (off_sleep_lock_stage hstage hl).elim
    · obtain ⟨rfl, rfl⟩ := List.cons.inj hy
      obtain ⟨r, rfl⟩ := switch_stage hstage hl (hswitched (by simp))
      simp at hrest
    · obtain ⟨rfl, rfl⟩ := List.cons.inj hy
      exact absurd (hresume j'' (by simp)) (hhead rfl)

/-- Before a thread only restores the flag, in a call that takes the lock, it has taken it. -/
theorem Located.taken (h : y.Located) (htodo : y.todo = i :: rest) (hcall : y.call = some k)
    (hk : k.Acquires x) (hne : rest ≠ []) (hset : ∀ i ∈ rest, i = .set) :
    i = .set ∨ i = .acquire x := by
  cases h with
  | @outer resume handler base hy hresume hhandler hfirst hflag hbase =>
    exfalso
    rw [hcall] at hbase
    obtain rfl : base = code k := hbase
    -- A call begins by saving the flag, and saves it only once outside of the stages.
    have hcode : ∃ l, code k = .off :: l ∧ ∃ j ∈ l, j ≠ .set := by
      cases k <;> simp_all [code, acquireCode, releaseCode, sleepCode, Call.Acquires]
    obtain ⟨l, hl, j, hj, hjset⟩ := hcode
    rw [htodo, hl] at hy
    rw [← List.append_assoc] at hy
    cases hbefore : resume ++ handler with
    | nil =>
      rw [hbefore, List.nil_append] at hy
      obtain ⟨-, rfl⟩ := List.cons.inj hy
      exact hjset (hset j hj)
    | cons j' before =>
      rw [hbefore, List.cons_append] at hy
      obtain ⟨-, rfl⟩ := List.cons.inj hy
      exact absurd (hset .off (by simp)) (by simp)
  | @inner resume l' stage j k' hy hresume hswitched hcall' hstage hl hne' =>
    obtain rfl := Option.some.inj (hcall'.symm.trans hcall)
    rw [htodo] at hy
    rcases resume with _ | ⟨j', _ | ⟨j'', resume⟩⟩
    · obtain rfl : i :: rest = l' := hy
      exact taken_stage hstage hk ((List.suffix_cons j _).trans hl) hne hset
    · obtain ⟨rfl, rfl⟩ := List.cons.inj hy
      have hj := hswitched (by simp)
      rcases taken_stage hstage hk hl hne hset with rfl | rfl <;> exact hj.elim
    · obtain ⟨rfl, rfl⟩ := List.cons.inj hy
      have hj := hresume j'' (by simp)
      rw [hset j'' (by simp)] at hj
      exact hj.elim

/-- A call that has the lock when it returns ends by restoring the flag. -/
theorem Located.last (h : y.Located) (htodo : y.todo = [i]) (hcall : y.call = some k)
    (hk : k.Acquires x) : i = .set := by
  cases h with
  | @outer resume handler base hy hresume hhandler hfirst hflag hbase =>
    rw [hcall] at hbase
    obtain rfl : base = code k := hbase
    have hlength := congrArg List.length (htodo.symm.trans hy)
    cases k <;> simp [code, acquireCode, releaseCode, sleepCode, Call.Acquires] at hk hlength <;>
      omega
  | @inner resume l' stage j k' hy hresume hswitched hcall' hstage hl hne' =>
    obtain rfl := Option.some.inj (hcall'.symm.trans hcall)
    rw [htodo] at hy
    rcases resume with _ | ⟨j', resume⟩
    · obtain rfl : [i] = l' := hy
      refine of_stage (P := fun _ l ↦ ∀ i, l = [i] → i = .set) ?_ hstage hl i rfl
      cases k' <;> simp_all [stages, code, sleepCode, acquireCode, releaseCode, EachEnd,
        Call.Acquires]
    · have hlength := congrArg List.length hy
      have hpos := List.length_pos_iff.mpr hne'
      simp only [List.length_cons, List.length_append, List.length_nil] at hlength
      omega

/-- The call a thread is inside of after a step. -/
theorem Step.call_eq {z : Control} (hstep : Step y z) (hcall : z.call = some k) :
    y.call = some k ∨ (y.todo = [] ∧ z.todo = code k) ∨ k = .threadExit := by
  cases hstep with
  | timer | interrupts => exact .inl hcall
  | call htodo =>
    obtain rfl := Option.some.inj hcall
    exact .inr (.inl ⟨htodo, rfl⟩)
  | instr =>
    rw [finish] at hcall
    split_ifs at hcall
    exact .inl hcall
  | abandon => exact .inr (.inr (Option.some.inj hcall).symm)

end Control

/-! ### What is recorded when a call begins and ends -/

/-- What is recorded of a thread when it makes a call or comes back from one. -/
def Thread.notes (t : Thread) : List ℕ × Option ℕ := (t.holds, t.target)

namespace Core

def notes (c : Core) (h : ℕ) : List ℕ × Option ℕ := (c.tcb h).notes

theorem notes_modify (c : Core) (h g : ℕ) {f : Thread → Thread}
    (hf : ∀ t, (f t).notes = t.notes) : (c.modify h f).notes g = c.notes g := by
  simp only [notes, modify, Function.update_apply]
  split_ifs with hg
  · rw [hf, hg]
  · rfl

theorem notes_of_own (h : c.own g = d.own g) : c.notes g = d.notes g :=
  show (c.own g).notes = (d.own g).notes by rw [h]

theorem notes_setRet (c : Core) (r : ℤ) (g : ℕ) : (c.setRet r).notes g = c.notes g :=
  c.notes_modify _ g fun _ ↦ rfl

theorem notes_push (c : Core) (extra : List Instr) (g : ℕ) : (c.push extra).notes g = c.notes g :=
  c.notes_modify _ g fun _ ↦ rfl

theorem notes_abandon (c : Core) (g : ℕ) : c.abandon.notes g = c.notes g :=
  c.notes_modify _ g fun _ ↦ rfl

theorem notes_interruptsOff (c : Core) (g : ℕ) : c.interruptsOff.notes g = c.notes g :=
  c.notes_modify _ g (f := fun t ↦ { t with saved := c.flag :: t.saved }) fun _ ↦ rfl

theorem notes_getcontext (c : Core) (g : ℕ) : c.getcontext.notes g = c.notes g :=
  c.notes_modify _ g fun _ ↦ rfl

theorem notes_stamp (c : Core) (g : ℕ) : c.stamp.notes g = c.notes g :=
  c.notes_modify _ g (f := fun t ↦ { t with since := c.clock }) fun _ ↦ rfl

theorem holds_of_notes (h : d.notes g = c.notes g) : (d.tcb g).holds = (c.tcb g).holds :=
  congrArg Prod.fst h

/-- A thread that has just called a function that gives a lock away is not recorded to have it. -/
theorem begin_holds (c : Core) (hx : x ∈ ((c.begin k).tcb c.current).holds) :
    x ∈ (c.tcb c.current).holds ∧ ¬k.Releases x := by
  simp only [begin, modify, Function.update_self] at hx
  cases k with
  | lockRelease | cvWait =>
    obtain ⟨hmem, hne⟩ := List.mem_filter.mp hx
    exact ⟨hmem, fun heq ↦ of_decide_eq_true hne heq.symm⟩
  | _ => exact ⟨hx, id⟩

/-- A thread that is back from a call that takes a lock has it. -/
theorem finish_holds (c : Core) (hx : x ∈ ((c.finish h).tcb h).holds) :
    x ∈ (c.tcb h).holds ∨ (c.tcb h).todo = [] ∧ ∃ k, (c.tcb h).call = some k ∧ k.Acquires x := by
  simp only [finish, modify, Function.update_self] at hx
  split_ifs at hx with hnil
  · cases hcall : (c.tcb h).call with
    | none => exact .inl (by simpa [hcall] using hx)
    | some k =>
      rw [hcall] at hx
      cases k with
      | lockAcquire | cvWait =>
        rcases List.mem_cons.mp hx with rfl | hmem
        · exact .inr ⟨hnil, _, rfl, rfl⟩
        · exact .inl hmem
      | _ => exact .inl hx
  · exact .inl hx

theorem holds_finish (c : Core) (hx : x ∈ (c.tcb h).holds) :
    x ∈ ((c.finish h).tcb h).holds := by
  simp only [finish, modify, Function.update_self]
  split_ifs
  · cases (c.tcb h).call with
    | none => exact hx
    | some k =>
      cases k with
      | lockAcquire | cvWait => exact List.mem_cons_of_mem _ hx
      | _ => exact hx
  · exact hx

theorem holds_finish_self (c : Core) (hnil : (c.tcb h).todo = []) (hcall : (c.tcb h).call = some k)
    (hk : k.Acquires x) : x ∈ ((c.finish h).tcb h).holds := by
  simp only [finish, modify, Function.update_self, if_pos hnil, hcall]
  cases k with
  | lockAcquire | cvWait => exact List.mem_cons.mpr (.inl hk.symm)
  | _ => exact hk.elim

theorem notes_yieldSwitch (c : Core) (old want g : ℕ) :
    (c.yieldSwitch old want).notes g = c.notes g :=
  ((c.setThreadStatus old .ready).getcontext.notes_setRet _ g).trans
    (((c.setThreadStatus old .ready).notes_getcontext g).trans
      (notes_of_own (c.own_setThreadStatus old .ready g)))

theorem notes_sleepSwitch (c : Core) (old new g : ℕ) :
    (c.sleepSwitch old new).notes g = c.notes g :=
  ((c.setThreadStatus old .blocked).getcontext.stamp.notes_setRet _ g).trans
    (((c.setThreadStatus old .blocked).getcontext.notes_stamp g).trans
      (((c.setThreadStatus old .blocked).notes_getcontext g).trans
        (notes_of_own (c.own_setThreadStatus old .blocked g))))

end Core

namespace Ideal

/-- No statement changes these notes. -/
theorem Executes.notes (hexec : a.Executes i b) (hg : g < a.core.allocated) :
    b.core.notes g = a.core.notes g := by
  cases hexec with
  | off => exact a.core.notes_interruptsOff g
  | set hset =>
    rw [Core.interruptsSet] at hset
    split at hset
    · cases hset
    · rename_i f saved _
      obtain rfl := Option.some.inj hset
      exact a.core.notes_modify _ g (f := fun t ↦ { t with saved := saved }) fun _ ↦ rfl
  | on | sigreturn | cvDestroy | checkPasses | assertHeld | lockDestroy | acquire => rfl
  | createNomore | createNomemory | yieldNone | yieldInvalid | sleepInvalid | sleepNone
  | wakeupNone | killFails | waitFails | waitReturn | lockCreate | cvCreate | queueCreate =>
    exact Core.notes_setRet _ _ g
  | @create id =>
    refine ((a.core.addThread id).notes_setRet _ g).trans ?_
    simp only [Core.notes, Core.addThread, Function.update_of_ne (Nat.ne_of_lt hg)]
  | yieldSelf | yieldSwitch => exact Core.notes_yieldSwitch _ _ _ _
  | sleep => exact Core.notes_sleepSwitch _ _ _ _
  | wakeup => exact (Core.notes_setRet _ _ g).trans (Core.notes_of_own (Core.own_wakeAll _ _ _ g))
  | @kill tid old h =>
    exact ((a.core.setThreadStatus h .exited).notes_setRet _ g).trans
      (Core.notes_of_own (a.core.own_setThreadStatus h .exited g))
  | wait | clear | acquireBlocked => exact Core.notes_push _ _ g
  | checkExits => exact a.core.notes_abandon g
  | setRunning => exact Core.notes_of_own (Core.own_setThreadStatus _ _ _ g)
  | @exit old new rest rest' hready =>
    refine (Core.notes_modify _ old g (f := fun t ↦ { t with exited := true }) fun _ ↦ rfl).trans ?_
    exact Core.notes_of_own (Core.own_wakeAll { a.core with
      flag := false, threads := Function.update a.core.threads (a.core.tcb old).id none }
      (.thread (a.core.tcb old).id) _ g)
  | release =>
    exact (Core.notes_of_own (Core.own_wakeAll _ _ _ g)).trans (a.core.notes_interruptsOff g)

/-! ### What statements do to locks -/

/-- What a statement may do to a lock. -/
inductive LockStep (a b : Ideal) (x : ℕ) : Instr → Prop
  | same {i : Instr} (hlocks : b.core.locks x = a.core.locks x) : LockStep a b x i
  | create {left : ℤ} (hx : x = a.core.objects) (hlock : b.core.locks x = some ⟨false, left, 0⟩)
      (hwaiting : b.waiters (.lock x) = []) : LockStep a b x .lockCreate
  | destroy {k : Lock} (hlock : a.core.locks x = some k) (hfree : k.locked = false)
      (hnone : b.core.locks x = none) : LockStep a b x (.lockDestroy x)
  | acquire {k : Lock} (hlock : a.core.locks x = some k) (hfree : k.locked = false)
      (htaken : b.core.locks x =
        some ⟨true, (a.core.tcb a.core.current).id, a.core.current⟩) : LockStep a b x (.acquire x)
  | release {k : Lock} (hlock : a.core.locks x = some k) (hheld : k.locked = true)
      (hthread : k.thread = (a.core.tcb a.core.current).id)
      (hfree : b.core.locks x = some { k with locked := false })
      (hwaiting : b.waiters (.lock x) = []) : LockStep a b x (.release x)

theorem Executes.lockStep (ha : a.Ordered) (hexec : a.Executes i b) (x : ℕ) :
    a.LockStep b x i := by
  cases hexec with
  | set hset =>
    rw [Core.interruptsSet] at hset
    split at hset
    · cases hset
    · obtain rfl := Option.some.inj hset
      exact .same rfl
  | wakeup =>
    refine .same ?_
    rw [mapCore_core, setList_core, setList_core, Core.wakeAll_eq]
    rfl
  | exit =>
    refine .same ?_
    rw [mapCore_core, dropQueue_core, setList_core, Core.exitSwitch, Core.wakeAll_eq]
    rfl
  | @lockCreate left =>
    by_cases hx : x = a.core.objects
    · subst hx
      exact .create rfl (Function.update_self ..)
        ((waiters_setList a _ _ []).trans (if_pos rfl))
    · exact .same (Function.update_of_ne hx ..)
  | @lockDestroy y k hlock hfree =>
    by_cases hx : x = y
    · subst hx
      exact .destroy hlock hfree (Function.update_self ..)
    · exact .same (Function.update_of_ne hx ..)
  | @acquire y old rest k hready hlock hfree =>
    by_cases hx : x = y
    · subst hx
      refine .acquire hlock hfree ?_
      rw [← ha.eq_current hready]
      show Function.update a.core.locks x _ x = _
      rw [Function.update_self, ha.eq_current hready]
    · exact .same (Function.update_of_ne hx ..)
  | @release y old rest k hready hlock hheld hthread =>
    have hlocks : ∀ (c : Core) w moved, (c.wakeAll w moved).locks = c.locks := fun c w moved ↦ by
      rw [Core.wakeAll_eq]
    by_cases hx : x = y
    · subst hx
      refine .release hlock hheld (by rw [hthread, ha.eq_current hready]) ?_
        ((waiters_setList a _ _ []).trans (if_pos rfl))
      rw [mapCore_core, setList_core, setList_core, hlocks]
      exact Function.update_self ..
    · refine .same ?_
      rw [mapCore_core, setList_core, setList_core, hlocks]
      exact Function.update_of_ne hx ..
  | _ => exact .same rfl

/-- What a move may do to a lock. -/
theorem Transition.lockStep (ha : a.Ordered) (htransition : a.Transition m b) (x : ℕ) :
    b.core.locks x = a.core.locks x ∨
      ∃ i rest, a.core.self.todo = i :: rest ∧ a.LockStep b x i := by
  cases htransition with
  | timer | call | interrupts => exact .inl rfl
  | @instr _ i rest b htodo hexec =>
    have hid : ((a.popped rest).core.tcb a.core.current).id = (a.core.tcb a.core.current).id :=
      (a.popped_frame rest).id _
    refine .inr ⟨i, rest, htodo, ?_⟩
    cases hexec.lockStep (ha.popped rest) x with
    | same hlocks => exact .same hlocks
    | create hx hlock hwaiting => exact .create hx hlock hwaiting
    | destroy hlock hfree hnone => exact .destroy hlock hfree hnone
    | acquire hlock hfree htaken => exact .acquire hlock hfree (hid ▸ htaken)
    | release hlock hheld hthread hfree hwaiting =>
      exact .release hlock hheld (hid ▸ hthread) hfree hwaiting

/-! ### The owner of a lock -/

/-- The lock is taken, and names the thread. -/
def Owns (a : Ideal) (g x : ℕ) : Prop :=
  ∃ k, a.core.locks x = some k ∧ k.locked = true ∧ k.thread = (a.core.tcb g).id ∧ k.holder = g

/-- A thread that has not exited owns a lock until it executes `lock_release` itself. -/
theorem Owns.transition (howns : a.Owns g x) (ha : a.Ordered) (htransition : a.Transition m b)
    (hg : g < a.core.allocated) (hlive : (a.core.tcb g).exited = false)
    (hnot : ∀ rest, a.core.self.todo = .release x :: rest → g ≠ a.core.current) : b.Owns g x := by
  obtain ⟨k, hlock, hlocked, hthread, hholder⟩ := howns
  have hid := ((htransition.threads ha).2.1 g hg).1
  have hkept : b.core.locks x = a.core.locks x → b.Owns g x := fun hlocks ↦
    ⟨k, hlocks.trans hlock, hlocked, by rw [hid, hthread], hholder⟩
  rcases htransition.lockStep ha x with hlocks | ⟨i, rest, htodo, hstep⟩
  · exact hkept hlocks
  cases hstep with
  | same hlocks => exact hkept hlocks
  | create hx =>
    have hlt := ha.lock_object x (by rw [hlock]; simp)
    exact absurd (hx ▸ hlt) (Nat.lt_irrefl _)
  | destroy hlock' hfree | acquire hlock' hfree =>
    obtain rfl := Option.some.inj (hlock.symm.trans hlock')
    exact absurd (hlocked.symm.trans hfree) (by simp)
  | release hlock' _ hthread' =>
    obtain rfl := Option.some.inj (hlock.symm.trans hlock')
    obtain ⟨hcurrent, hrunning⟩ := ha.current_live
    have hsame : (a.core.tcb g).id = (a.core.tcb a.core.current).id :=
      Int.ofNat_inj.mp (hthread.symm.trans hthread')
    exact absurd (ha.eq_of_id_eq hg hlive hcurrent hrunning hsame) (hnot _ htodo)

/-- A thread is recorded to have a lock after a move: it had it before, and has not just called a
function that gives it away, or it is back from a call that takes it. -/
theorem Transition.holds (ha : a.Ordered) (htransition : a.Transition m b)
    (hg : g < a.core.allocated) (hlive : (b.core.tcb g).exited = false)
    (hx : x ∈ (b.core.tcb g).holds) :
    (x ∈ (a.core.tcb g).holds ∧ ∀ k, g = a.core.current → m = .call k → ¬k.Releases x) ∨
      g = a.core.current ∧ (b.core.tcb g).call = none ∧
        ∃ memory i k, m = .instr memory ∧ a.core.self.todo = [i] ∧ a.core.self.call = some k ∧
          k.Acquires x := by
  by_cases hcurrent : g = a.core.current
  swap
  · refine .inl ⟨?_, fun k heq ↦ absurd heq hcurrent⟩
    rwa [Core.holds_of_notes (Core.notes_of_own (htransition.own_other ha hcurrent hg))] at hx
  subst hcurrent
  have hcontrol := htransition.control_self ha hlive
  cases htransition with
  | timer =>
    have hkept : (a.core.interrupt.tcb a.core.current).holds = (a.core.tcb a.core.current).holds :=
      Core.holds_of_notes (d := a.core.push handlerCode) (a.core.notes_push handlerCode _)
    exact .inl ⟨hkept ▸ hx, by simp⟩
  | interrupts => exact .inl ⟨hx, by simp⟩
  | @call k htodo =>
    obtain ⟨hmem, hnot⟩ := a.core.begin_holds hx
    exact .inl ⟨hmem, fun k' _ heq ↦ Move.call.inj heq ▸ hnot⟩
  | @instr memory i rest b htodo hexec =>
    have hkept : (b.core.tcb a.core.current).holds = (a.core.tcb a.core.current).holds :=
      Core.holds_of_notes ((hexec.notes (by rwa [(a.popped_frame rest).allocated])).trans
        (a.core.notes_modify _ _ (f := fun t ↦ { t with todo := rest }) fun _ ↦ rfl))
    rcases b.core.finish_holds hx with hmem | ⟨hnil, k, hcall, hk⟩
    · exact .inl ⟨hkept ▸ hmem, by simp⟩
    have hnone : ((b.core.finish a.core.current).tcb a.core.current).call = none := by
      simp [Core.finish, Core.modify, hnil]
    have hi : i ≠ .exit := fun heq ↦ by
      have hexited := (hexec.threads (ha.popped rest)).2.2.2 heq
      rw [mapCore_core, (b.core.frame_finish _).exited] at hlive
      exact absurd (hexited.symm.trans hlive) (by simp)
    refine .inr ⟨rfl, hnone, memory, i, k, rfl, ?_⟩
    rcases hexec.control_self hi (ha.popped rest).current_live.1 with
      ⟨extra, f, saved, -, -, hstep⟩ | ⟨-, hstep⟩
    · rw [show (a.popped rest).core.current = a.core.current from rfl, popped_control_self] at hstep
      have htodo' : (b.core.tcb a.core.current).todo = extra ++ rest := congrArg Control.todo hstep
      have hcall' : (b.core.tcb a.core.current).call = a.core.self.call :=
        congrArg Control.call hstep
      obtain ⟨-, rfl⟩ := List.append_eq_nil_iff.mp (htodo'.symm.trans hnil)
      exact ⟨htodo, hcall'.symm.trans hcall, hk⟩
    · have htodo' : (b.core.tcb a.core.current).todo = [.exit] := congrArg Control.todo hstep
      exact absurd (htodo'.symm.trans hnil) (by simp)

/-- A thread that has not exited after a move: it was there before, or is the one that has just been
created. -/
theorem Transition.before (ha : a.Ordered) (htransition : a.Transition m b)
    (hg : g < b.core.allocated) (hlive : (b.core.tcb g).exited = false) :
    (g < a.core.allocated ∧ (a.core.tcb g).exited = false) ∨
      g = a.core.allocated ∧ ∃ f, b.core.control g = ⟨f, stubCode, [], none, true⟩ := by
  obtain ⟨-, hold, hcases⟩ := htransition.threads ha
  refine (hcases g hg).imp_left fun hlt ↦ ⟨hlt, ?_⟩
  rw [← Bool.not_eq_true]
  exact fun hexited ↦ absurd (((hold g hlt).2 hexited).symm.trans hlive) (by simp)

/-- What is recorded of a thread that has just been created. -/
theorem Transition.notes_new (ha : a.Ordered) (htransition : a.Transition m b)
    (hnew : a.core.allocated < b.core.allocated) : b.core.notes a.core.allocated = ([], none) := by
  cases htransition with
  | timer | call | interrupts => exact absurd hnew (Nat.lt_irrefl _)
  | @instr _ i rest b htodo hexec =>
    have hne : a.core.allocated ≠ a.core.current := (Nat.ne_of_lt ha.current_live.1).symm
    refine (Core.notes_of_own (b.core.own_modify_of_ne hne _)).trans ?_
    rcases hexec.frame with hf | ⟨id, rfl, hb⟩ | ⟨old, new, rest', moved, rfl, hready, hb⟩
    · have hallocated : b.core.allocated = a.core.allocated := hf.allocated
      exact absurd hnew (by
        show ¬a.core.allocated < b.core.allocated
        omega)
    · rw [hb]
      refine (((a.popped rest).core.addThread id).notes_setRet _ _).trans ?_
      have hnew : ((a.popped rest).core.addThread id).tcb a.core.allocated =
        .start id .ready (a.popped rest).core.flag stubCode := Function.update_self ..
      exact congrArg Thread.notes hnew
    · have hallocated : b.core.allocated = a.core.allocated := by
        rw [hb, Core.exitSwitch, Core.wakeAll_eq]
        rfl
      exact absurd hnew (by
        show ¬a.core.allocated < b.core.allocated
        omega)

end Ideal

end OperatingSystems.Threads
