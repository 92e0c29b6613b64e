import OperatingSystems.Threads.Locks

/-!
# Mutual exclusion

`Exclusive` says what holds of the locks in every state. A thread that is back from `lock_acquire`
or `cv_wait` on a lock, and has not called `lock_release` or `cv_wait` on it since, owns it: the
lock is taken and names the thread. A lock that is free has no waiting threads. What holds between
the test of a lock and the sleep on its queue, and between the taking of a lock and the return, is
stated of the running thread only: no other thread stands at these places.

A thread that has a lock may be killed, and may exit while it has it; the statements here are about
threads that have not exited.
-/

set_option autoImplicit false
set_option relaxedAutoImplicit false

namespace OperatingSystems.Threads

open State (Move Memory)

variable {a b : Ideal} {i : Instr} {m : Move} {s t : State} {g h x : ℕ} {k : Call}
  {l rest r : List Instr}

namespace Ideal

/-- What the running thread has left after a statement, while it has not exited. -/
theorem Executes.left (ha : a.Ordered) (hexec : (a.popped rest).Executes i b)
    (hlive : ((b.mapCore (·.finish a.core.current)).core.tcb a.core.current).exited = false) :
    (∃ extra, Control.Expands i extra ∧ (b.core.tcb a.core.current).todo = extra ++ rest ∧
      (b.core.tcb a.core.current).call = (a.core.tcb a.core.current).call) ∨
      (b.core.tcb a.core.current).todo = [.exit] ∧
        (b.core.tcb a.core.current).call = some .threadExit := by
  have hi : i ≠ .exit := fun heq ↦ by
    have hexited := (hexec.threads (ha.popped rest)).2.2.2 heq
    rw [mapCore_core, (b.core.frame_finish _).exited] at hlive
    exact absurd (hexited.symm.trans hlive) (by simp)
  rcases hexec.control_self hi (ha.popped rest).current_live.1 with
    ⟨extra, f, saved, hextra, -, hstep⟩ | ⟨-, hstep⟩
  · rw [show (a.popped rest).core.current = a.core.current from rfl, popped_control_self] at hstep
    exact .inl ⟨extra, hextra, congrArg Control.todo hstep, congrArg Control.call hstep⟩
  · exact .inr ⟨congrArg Control.todo hstep, congrArg Control.call hstep⟩

/-- What holds of the locks in every state. -/
structure Exclusive (a : Ideal) : Prop where
  located : a.Located
  mortal : a.Mortal
  releasing : ∀ g < a.core.allocated, (a.core.tcb g).exited = false →
    ∀ k, (a.core.tcb g).call = some k → ∀ x, k.Releases x → x ∉ (a.core.tcb g).holds
  holding : ∀ g < a.core.allocated, (a.core.tcb g).exited = false →
    ∀ x ∈ (a.core.tcb g).holds, a.Owns g x
  sleeping : ∀ x r, a.core.self.todo = .sleepOn (.lock x) :: r ∨
    a.core.self.todo = .off :: .sleepOn (.lock x) :: r →
      ∃ k, a.core.locks x = some k ∧ k.locked = true
  taken : ∀ k x, a.core.self.call = some k → k.Acquires x → a.core.self.todo ≠ [] →
    (∀ i ∈ a.core.self.todo, i = .set) → a.Owns a.core.current x
  empty : ∀ x k, a.core.locks x = some k → k.locked = false → a.waiters (.lock x) = []

namespace Exclusive

/-- A thread that is inside of a call that gives a lock away is not recorded to have it. -/
theorem releasing_step (hx : a.Exclusive) (ha : a.Ordered) (htransition : a.Transition m b)
    (hg : g < b.core.allocated) (hlive : (b.core.tcb g).exited = false)
    (hcall : (b.core.tcb g).call = some k) (hk : k.Releases x) : x ∉ (b.core.tcb g).holds := by
  rcases htransition.before ha hg hlive with ⟨hlt, hlive'⟩ | ⟨-, f, hcontrol⟩
  swap
  · exact absurd ((congrArg Control.call hcontrol).symm.trans hcall) (by simp)
  intro hmem
  rcases htransition.holds ha hlt hlive hmem with ⟨hmem', hnot⟩ | ⟨-, hnone, -⟩
  swap
  · exact absurd (hnone.symm.trans hcall) (by simp)
  have hbefore : (a.core.tcb g).call ≠ some k := fun heq ↦
    hx.releasing g hlt hlive' k heq x hk hmem'
  by_cases hcurrent : g = a.core.current
  · subst hcurrent
    have hcontrol := htransition.control_self ha hlive
    cases htransition with
    | @call k' =>
      have hbegin : ((a.core.begin k').tcb a.core.current).call = some k' := by
        simp [Core.begin, Core.modify]
      obtain rfl := Option.some.inj (hbegin.symm.trans hcall)
      exact hnot _ rfl rfl hk
    | timer =>
      have hkept : (a.core.interrupt.tcb a.core.current).call =
          (a.core.tcb a.core.current).call := by
        simp [Core.interrupt, Core.push, Core.modify]
      exact hbefore (hkept.symm.trans hcall)
    | interrupts => exact hbefore hcall
    | instr htodo =>
      rcases hcontrol.call_eq hcall with hsame | ⟨hnil, -⟩ | rfl
      · exact hbefore hsame
      · exact absurd (htodo.symm.trans hnil) (by simp)
      · exact hk.elim
  · exact hbefore ((Thread.call_of_own (htransition.own_other ha hcurrent hlt)).symm.trans hcall)


/-- Another thread runs after a move: it stands before the test of its status. -/
theorem paused_of_switched (hx : a.Exclusive) (ha : a.Ordered) (htransition : a.Transition m b)
    (hne : b.core.current ≠ a.core.current) : Paused b.core.self.todo := by
  obtain ⟨hcurrent, hlive⟩ := (ha.transition htransition).current_live
  rcases htransition.before ha hcurrent hlive with ⟨hlt, hlive'⟩ | ⟨-, f, hcontrol⟩
  · have hpaused := hx.mortal.paused _ hlt hlive' hne
    rwa [← Thread.todo_of_own (htransition.own_other ha hne hlt)] at hpaused
  · exact ⟨[], .inr (congrArg Control.todo hcontrol)⟩

/-- A recorded owner of a lock owns it after a move. -/
theorem holding_step (hx : a.Exclusive) (ha : a.Ordered) (htransition : a.Transition m b)
    (hg : g < b.core.allocated) (hlive : (b.core.tcb g).exited = false)
    (hmem : x ∈ (b.core.tcb g).holds) : b.Owns g x := by
  rcases htransition.before ha hg hlive with ⟨hlt, hlive'⟩ | ⟨rfl, -⟩
  swap
  · have hnil : (b.core.tcb a.core.allocated).holds = [] :=
      congrArg Prod.fst (htransition.notes_new ha hg)
    exact absurd (hnil ▸ hmem) (by simp)
  rcases htransition.holds ha hlt hlive hmem with
    ⟨hmem', -⟩ | ⟨rfl, -, memory, i, k, -, htodo, hcall, hk⟩
  · refine (hx.holding g hlt hlive' x hmem').transition ha htransition hlt hlive' ?_
    rintro rest htodo rfl
    -- A thread that gives the lock away has called a function that does so.
    rcases (hx.located.located _ hlt hlive').guarded htodo rfl with
      ⟨k, stage, j, hcall, hstage, hl⟩ | heq
    · exact hx.releasing _ hlt hlive' k hcall x (release_stage hstage hl) hmem'
    · cases heq
  · have hlocated := hx.located.located _ hlt hlive'
    obtain rfl := hlocated.last htodo hcall hk
    refine Owns.transition (hx.taken k x hcall hk (by simp [htodo]) (by simp [htodo])) ha
      htransition
      hlt hlive' fun rest hrelease ↦ ?_
    rw [htodo] at hrelease
    exact absurd (List.cons.inj hrelease).1 (by simp)

/-- The running thread goes to sleep on the queue of a lock that is taken. -/
theorem sleeping_step (hx : a.Exclusive) (ha : a.Ordered) (htransition : a.Transition m b)
    (htodo : b.core.self.todo = .sleepOn (.lock x) :: r ∨
      b.core.self.todo = .off :: .sleepOn (.lock x) :: r) :
    ∃ k, b.core.locks x = some k ∧ k.locked = true := by
  by_cases hcurrent : b.core.current = a.core.current
  swap
  · obtain ⟨rest, hpaused | hpaused⟩ := hx.paused_of_switched ha htransition hcurrent
    · simp [hpaused, resumeCode] at htodo
    · simp [hpaused, stubCode] at htodo
  have hlive := (ha.transition htransition).current_live.2
  rw [Core.self, hcurrent] at htodo
  rw [hcurrent] at hlive
  cases htransition with
  | timer => simp [Core.interrupt, Core.push, Core.modify, handlerCode, yieldCode] at htodo
  | @call k =>
    cases k <;> simp [Core.begin, Core.modify, code, yieldCode, sleepCode, wakeupCode, acquireCode,
      releaseCode] at htodo
  | interrupts htodo' =>
    have hnil : (a.core.tcb a.core.current).todo = [] := htodo'
    simp [hnil] at htodo
  | @instr memory i rest b htodo' hexec =>
    rw [mapCore_core, Core.todo_finish] at htodo
    obtain ⟨hcurrent', hlive'⟩ := ha.current_live
    have hsame := hexec.lockStep (ha.popped rest) x
    rcases hexec.left ha hlive with ⟨extra, hextra, htodo'', -⟩ | ⟨hexit, -⟩
    swap
    · simp [hexit] at htodo
    rw [htodo''] at htodo
    cases hextra with
    | straight =>
      obtain ⟨rfl, hrest⟩ := (hx.located.located _ hcurrent' hlive').sleep_lock htodo' htodo
      cases hsame with
      | same hlocks =>
        obtain ⟨k, hlock, hlocked⟩ := hx.sleeping x r (.inr (hrest ▸ htodo'))
        exact ⟨k, hlocks.trans hlock, hlocked⟩
    | yields | sleeps => simp [resumeCode] at htodo
    | waits | clears => simp [sleepCode] at htodo
    | blocks y =>
      have hboth : y = x ∧ .set :: .acquire y :: rest = r := by simpa [sleepCode] using htodo
      obtain ⟨rfl, -⟩ := hboth
      cases hexec with
      | acquireBlocked hlock hheld => exact ⟨_, hlock, hheld⟩
      | acquire hready hlock hfree =>
        have hpopped : ((a.popped rest).core.tcb a.core.current).todo = rest := by
          simp [popped, Core.modify]
        have hlength := congrArg List.length (hpopped.symm.trans htodo'')
        simp only [List.length_append] at hlength
        simp [sleepCode] at hlength

/-- The running thread has taken the lock, or is about to. -/
theorem taken_step (hx : a.Exclusive) (ha : a.Ordered) (htransition : a.Transition m b)
    (hcall : b.core.self.call = some k) (hk : k.Acquires x) (hne : b.core.self.todo ≠ [])
    (hset : ∀ i ∈ b.core.self.todo, i = .set) : b.Owns b.core.current x := by
  by_cases hcurrent : b.core.current = a.core.current
  swap
  · obtain ⟨rest, hpaused | hpaused⟩ := hx.paused_of_switched ha htransition hcurrent
    · exact absurd (hset .checkExited (by simp [hpaused, resumeCode])) (by simp)
    · exact absurd (hset .on (by simp [hpaused, stubCode])) (by simp)
  have hlive := (ha.transition htransition).current_live.2
  obtain ⟨hcurrent', hlive'⟩ := ha.current_live
  rw [hcurrent]
  rw [Core.self, hcurrent] at hcall hne hset
  rw [hcurrent] at hlive
  have howns : a.Owns a.core.current x → a.core.self.todo.head? = some .set →
      b.Owns a.core.current x := fun howns hhead ↦
    howns.transition ha htransition hcurrent' hlive' fun rest heq ↦ by simp [heq] at hhead
  cases htransition with
  | timer =>
    exact absurd (hset .off (by simp [Core.interrupt, Core.push, Core.modify, handlerCode,
      yieldCode])) (by simp)
  | @call k' =>
    obtain rfl : k' = k := by simpa [Core.begin, Core.modify] using hcall
    refine absurd (hset .off ?_) (by simp)
    cases k' <;> simp [Core.begin, Core.modify, code, acquireCode, Call.Acquires] at hk ⊢
  | interrupts htodo => exact absurd htodo hne
  | @instr memory i rest b htodo hexec =>
    rw [mapCore_core, Core.todo_finish] at hne hset
    have hcall' : (b.core.tcb a.core.current).call = some k := by
      rwa [mapCore_core, Core.finish_of_ne _ hne] at hcall
    rcases hexec.left ha hlive with ⟨extra, hextra, htodo', hcontrol⟩ | ⟨hexit, -⟩
    swap
    · exact absurd (hset .exit (by simp [hexit])) (by simp)
    rw [htodo'] at hne hset
    have hbefore : a.core.self.call = some k := hcontrol.symm.trans hcall'
    cases hextra with
    | straight =>
      rcases (hx.located.located _ hcurrent' hlive').taken htodo hbefore hk hne hset with rfl | rfl
      · refine howns (hx.taken k x hbefore hk (by simp [htodo]) ?_) (by simp [htodo])
        rw [htodo]
        exact fun i hi ↦ (List.mem_cons.mp hi).elim id (hset i)
      · cases hexec with
        | acquireBlocked =>
          have hlength := congrArg List.length htodo'
          simp only [mapCore_core, Core.push, popped, Core.modify, Function.update_self, sleepCode,
            List.length_append, List.length_cons, List.length_nil, List.nil_append] at hlength
          omega
        | acquire hready hlock hfree =>
          refine ⟨⟨true, _, _⟩, Function.update_self .., rfl, ?_, rfl⟩
          rw [(ha.popped rest).eq_current hready, mapCore_core, (Core.frame_finish _ _).id]
          rfl
    | yields | sleeps => exact absurd (hset .checkExited (by simp [resumeCode])) (by simp)
    | waits | blocks => exact absurd (hset .off (by simp [sleepCode])) (by simp)
    | clears pc pc' => exact absurd (hset (.clear pc') (by simp)) (by simp)

/-- A lock that is free has no waiting threads. -/
theorem empty_step (hx : a.Exclusive) (ha : a.Ordered) (htransition : a.Transition m b) {k : Lock}
    (hlock : b.core.locks x = some k) (hfree : k.locked = false) : b.waiters (.lock x) = [] := by
  have hsame : b.core.locks x = a.core.locks x → b.waiters (.lock x) = [] := fun hlocks ↦ by
    have hlock' : a.core.locks x = some k := hlocks.symm.trans hlock
    rcases htransition.waiters ha (.lock x) with ⟨moved, hmoved⟩ | ⟨⟨r, htodo⟩, -⟩
    · rw [hx.empty x k hlock' hfree] at hmoved
      exact (List.append_eq_nil_iff.mp hmoved.symm).2
    · obtain ⟨k', hlock'', hlocked⟩ := hx.sleeping x r (.inl htodo)
      obtain rfl := Option.some.inj (hlock'.symm.trans hlock'')
      exact absurd (hlocked.symm.trans hfree) (by simp)
  rcases htransition.lockStep ha x with hlocks | ⟨i, rest, -, hstep⟩
  · exact hsame hlocks
  cases hstep with
  | same hlocks => exact hsame hlocks
  | create _ _ hwaiting | release _ _ _ _ hwaiting => exact hwaiting
  | destroy _ _ hnone => exact absurd (hnone.symm.trans hlock) (by simp)
  | acquire _ _ htaken =>
    obtain rfl := Option.some.inj (htaken.symm.trans hlock)
    exact absurd hfree (by simp)

/-- Every move keeps the locks exclusive. -/
theorem transition (hx : a.Exclusive) (ha : a.Ordered) (htransition : a.Transition m b) :
    b.Exclusive where
  located := hx.located.transition ha htransition
  mortal := hx.mortal.transition ha htransition
  releasing _ hg hlive _ hcall _ hk := hx.releasing_step ha htransition hg hlive hcall hk
  holding _ hg hlive _ hmem := hx.holding_step ha htransition hg hlive hmem
  sleeping _ _ htodo := hx.sleeping_step ha htransition htodo
  taken _ _ hcall hk hne hset := hx.taken_step ha htransition hcall hk hne hset
  empty _ _ hlock hfree := hx.empty_step ha htransition hlock hfree

end Exclusive

theorem init_exclusive : init.Exclusive where
  located := init_located
  mortal := init_mortal
  releasing _ _ _ _ hcall := by cases hcall
  holding _ _ _ _ hmem := by cases hmem
  sleeping _ _ htodo := by rcases htodo with htodo | htodo <;> cases htodo
  taken _ _ hcall := by cases hcall
  empty _ _ hlock := by cases hlock

end Ideal

/-- In every state that can be reached before the process ends, the locks are exclusive. -/
theorem State.Reachable.exclusive (hs : s.Reachable) (hlive : s.core.halted = false) :
    ∃ a, Linked s a ∧ a.Ordered ∧ a.Exclusive := by
  rcases Linked.reaches (fun _ _ _ _ _ ha hI _ htransition ↦ hI.transition ha htransition)
    Ideal.init_exclusive hs with hhalted | h
  · exact absurd (hhalted.symm.trans hlive) (by simp)
  · exact h

/-! ### Between a return and the next release -/

namespace Ideal

/-- A thread that comes back from a call that takes a lock is recorded to have it. -/
theorem Transition.holds_returned (ha : a.Ordered) (htransition : a.Transition m b)
    (hcall : a.core.self.call = some k) (hk : k.Acquires x)
    (hcurrent : b.core.current = a.core.current) (hback : b.core.self.call = none) :
    x ∈ (b.core.tcb a.core.current).holds := by
  have hlive := (ha.transition htransition).current_live.2
  rw [hcurrent] at hlive
  rw [Core.self, hcurrent] at hback
  cases htransition with
  | timer =>
    have hkept : (a.core.interrupt.tcb a.core.current).call = a.core.self.call := by
      simp [Core.interrupt, Core.push, Core.modify, Core.self]
    exact absurd (hback.symm.trans (hkept.trans hcall)) (by simp)
  | call => simp [Core.begin, Core.modify] at hback
  | interrupts => exact absurd (hback.symm.trans hcall) (by simp)
  | @instr memory i rest b htodo hexec =>
    rcases hexec.left ha hlive with ⟨extra, -, -, hsame⟩ | hexit
    · have hcall' : (b.core.tcb a.core.current).call = some k := hsame.trans hcall
      by_cases hnil : (b.core.tcb a.core.current).todo = []
      · exact b.core.holds_finish_self hnil hcall' hk
      · rw [mapCore_core, Core.finish_of_ne _ hnil, hcall'] at hback
        cases hback
    · rw [mapCore_core, Core.finish_of_ne _ (by simp [hexit.1]), hexit.2] at hback
      cases hback

/-- A thread is recorded to have a lock until it calls a function that gives it away. -/
theorem Transition.holds_kept (ha : a.Ordered) (htransition : a.Transition m b)
    (hg : g < a.core.allocated) (hmem : x ∈ (a.core.tcb g).holds)
    (hnot : ∀ k, m = .call k → a.core.current = g → ¬k.Releases x) :
    x ∈ (b.core.tcb g).holds := by
  by_cases hcurrent : g = a.core.current
  swap
  · rwa [Core.holds_of_notes (Core.notes_of_own (htransition.own_other ha hcurrent hg))]
  subst hcurrent
  cases htransition with
  | timer =>
    have hkept : (a.core.interrupt.tcb a.core.current).holds = (a.core.tcb a.core.current).holds :=
      Core.holds_of_notes (d := a.core.push handlerCode) (a.core.notes_push handlerCode _)
    exact hkept ▸ hmem
  | interrupts => exact hmem
  | @call k =>
    have hfree := hnot k rfl rfl
    simp only [mapCore_core, Core.begin, Core.modify, Function.update_self]
    cases k with
    | lockRelease | cvWait =>
      exact List.mem_filter.mpr ⟨hmem, decide_eq_true fun heq ↦ hfree heq.symm⟩
    | _ => exact hmem
  | @instr memory i rest b htodo hexec =>
    have hkept : (b.core.tcb a.core.current).holds = (a.core.tcb a.core.current).holds :=
      Core.holds_of_notes ((hexec.notes (by rwa [(a.popped_frame rest).allocated])).trans
        (a.core.notes_modify _ _ (f := fun t ↦ { t with todo := rest }) fun _ ↦ rfl))
    exact b.core.holds_finish (hkept ▸ hmem)

end Ideal

/-- The thread does not call a function that gives the lock away. -/
def State.Keeps (h x : ℕ) (s : State) (m : Move) : Prop :=
  ∀ k, m = .call k → s.core.current = h → ¬k.Releases x

/-- A thread is recorded to have a lock along a run, until it gives it away. -/
theorem State.Reachable.keeps (hs : s.Reachable)
    (hrun : Library.Machine.Reaches (State.Keeps h x) State.step s t)
    (hallocated : h < s.core.allocated) (hmem : x ∈ (s.core.tcb h).holds) :
    t.Reachable ∧ (t.core.halted = true ∨ h < t.core.allocated ∧ x ∈ (t.core.tcb h).holds) := by
  refine Library.Machine.Reaches.invariant
    (I := fun t ↦ t.Reachable ∧
      (t.core.halted = true ∨ h < t.core.allocated ∧ x ∈ (t.core.tcb h).holds))
    ?_ hrun ⟨hs, .inr ⟨hallocated, hmem⟩⟩
  rintro u m v ⟨hu, hcases⟩ hkeeps hstep
  refine ⟨Relation.ReflTransGen.tail hu ⟨m, trivial, hstep⟩, ?_⟩
  have hlive := State.halted_of_step hstep
  obtain ⟨hlt, hmem⟩ := hcases.resolve_left (by simp [hlive])
  obtain ⟨a, hlinked, ha, -⟩ := hu.mortal hlive
  rw [hlinked.core] at hlt hmem
  rcases hlinked.step_refines ha.separate (ha.unused _ (Nat.le_refl _)) hstep with
    hend | ⟨b, htransition, hb⟩
  · exact .inl hend
  · rw [hb.core]
    refine .inr ⟨Nat.lt_of_lt_of_le hlt (htransition.threads ha).1,
      htransition.holds_kept ha hlt hmem fun k hk hcurrent ↦ hkeeps k hk ?_⟩
    rw [hlinked.core, hcurrent]

/-- A thread that comes back from a call that takes a lock is recorded to have it. -/
theorem State.Reachable.returned (hs : s.Reachable) (hstep : s.step m = some t)
    (hreturns : s.Returns t k) (hk : k.Acquires x) :
    s.core.current < t.core.allocated ∧ x ∈ (t.core.tcb s.core.current).holds ∧
      ∀ h, h < s.core.allocated → h ≠ s.core.current →
        (t.core.tcb h).exited = (s.core.tcb h).exited := by
  obtain ⟨hcall, hend, hcurrent, hback⟩ := hreturns
  obtain ⟨a, hlinked, ha, -⟩ := hs.mortal (State.halted_of_step hstep)
  rcases hlinked.step_refines ha.separate (ha.unused _ (Nat.le_refl _)) hstep with
    hend' | ⟨b, htransition, hb⟩
  · exact absurd (hend'.symm.trans hend) (by simp)
  rw [hlinked.core] at hcall hcurrent ⊢
  rw [hb.core] at hcurrent hback ⊢
  refine ⟨Nat.lt_of_lt_of_le ha.current_live.1 (htransition.threads ha).1,
    htransition.holds_returned ha hcall hk hcurrent hback, fun h hh hne ↦ ?_⟩
  exact Thread.exited_of_own (htransition.own_other ha hne hh)

/-- A recorded owner of a lock that has not exited is named by the lock, and is the only one. -/
theorem State.Reachable.holder (hs : s.Reachable) (hlive : s.core.halted = false)
    (hallocated : h < s.core.allocated) (hexited : (s.core.tcb h).exited = false)
    (hmem : x ∈ (s.core.tcb h).holds) :
    ∃ lock, s.core.locks x = some lock ∧ lock.locked = true ∧
      lock.thread = (s.core.tcb h).id ∧ lock.holder = h := by
  obtain ⟨a, hlinked, ha, hx⟩ := hs.exclusive hlive
  rw [hlinked.core] at hallocated hexited hmem ⊢
  exact hx.holding h hallocated hexited x hmem

/-- In every interleaving: from the return of `lock_acquire` or `cv_wait` on a lock until the thread
calls `lock_release` or `cv_wait` on it or exits, the lock is taken and names the thread, and no
such call of another thread returns. A lock that is free has an empty wait queue, so that
`lock_destroy` discards no waiting thread. -/
theorem mutual_exclusion (hs : s.Reachable) :
    (∀ m k x t u, s.step m = some t → s.Returns t k → k.Acquires x →
      Library.Machine.Reaches (State.Keeps s.core.current x) State.step t u →
      u.core.halted = false → (u.core.tcb s.core.current).exited = false →
      (∃ lock, u.core.locks x = some lock ∧ lock.locked = true ∧
        lock.thread = (u.core.tcb s.core.current).id) ∧
      ∀ m k v, u.step m = some v → u.Returns v k → k.Acquires x →
        u.core.current = s.core.current) ∧
    (s.core.halted = false → ∀ x lock, s.core.locks x = some lock → lock.locked = false →
      s.Waits (.lock x) []) ∧
    (s.core.halted = false → ∀ x t, s.lockDestroy x = some t → s.Waits (.lock x) []) := by
  refine ⟨fun m k x t u hstep hreturns hk hrun hlive hexited ↦ ?_, fun hlive x lock hlock hfree ↦
    ?_, fun hlive x t hdestroy ↦ ?_⟩
  · obtain ⟨hallocated, hmem, -⟩ := hs.returned hstep hreturns hk
    have ht : t.Reachable := Relation.ReflTransGen.tail hs ⟨m, trivial, hstep⟩
    obtain ⟨hu, hcases⟩ := ht.keeps hrun hallocated hmem
    obtain ⟨hlt, hholds⟩ := hcases.resolve_left (by simp [hlive])
    obtain ⟨lock, hlock, hlocked, hthread, -⟩ := hu.holder hlive hlt hexited hholds
    refine ⟨⟨lock, hlock, hlocked, hthread⟩, fun m' k' v hstep' hreturns' hk' ↦ ?_⟩
    by_contra hne
    obtain ⟨hallocated', hmem', hother⟩ := hu.returned hstep' hreturns' hk'
    have hv : v.Reachable := Relation.ReflTransGen.tail hu ⟨m', trivial, hstep'⟩
    have hrun' : Library.Machine.Reaches (State.Keeps s.core.current x) State.step u v :=
      Relation.ReflTransGen.single ⟨m', fun k _ hcurrent ↦ absurd hcurrent hne, hstep'⟩
    have hlive' : v.core.halted = false := hreturns'.2.1
    obtain ⟨-, hcases'⟩ := hu.keeps hrun' hlt hholds
    obtain ⟨hlt', hholds'⟩ := hcases'.resolve_left (by simp [hlive'])
    -- In the state after the return both threads would be the one that last took the lock.
    obtain ⟨lock', hlock', -, -, hholder'⟩ := hv.holder hlive' hlt'
      ((hother _ hlt (fun heq ↦ hne heq.symm)).trans hexited) hholds'
    have hself : (v.core.tcb u.core.current).exited = false := by
      obtain ⟨a, hlinked, ha, -⟩ := hv.mortal hlive'
      rw [← hreturns'.2.2.1, hlinked.core]
      exact ha.current_live.2
    obtain ⟨lock'', hlock'', -, -, hholder''⟩ := hv.holder hlive' hallocated' hself hmem'
    obtain rfl := Option.some.inj (hlock'.symm.trans hlock'')
    exact hne (hholder''.symm.trans hholder')
  · obtain ⟨a, hlinked, ha, hx⟩ := hs.exclusive hlive
    rw [hlinked.core] at hlock
    exact hx.empty x lock hlock hfree ▸ hlinked.waits (.lock x)
  · obtain ⟨a, hlinked, ha, hx⟩ := hs.exclusive hlive
    obtain ⟨lock, hlock, hdestroy⟩ := Option.bind_eq_some_iff.mp hdestroy
    split_ifs at hdestroy with hlocked
    rw [hlinked.core] at hlock
    exact hx.empty x lock hlock (by simpa using hlocked) ▸ hlinked.waits (.lock x)

set_option synthInstance.maxSize 1000 in
/-- The first thread takes a lock and yields, the second one calls `lock_acquire` on it and goes to
sleep, and the first one is back: the lock is still its own, and no call of another thread that has
the lock when it returns can return next. -/
theorem mutual_exclusion_contended : ∃ s t u : State, s.Reachable ∧
    s.step (.instr ⟨3, 0⟩) = some t ∧ s.Returns t (.lockAcquire 0) ∧
    Library.Machine.Reaches (State.Keeps 0 0) State.step t u ∧
    u.core.current = 0 ∧ (u.core.tcb 1).call = some (.lockAcquire 0) ∧
    u.queues (.wait (.lock 0)) = some ⟨some 1, some 1, 1⟩ ∧
    (∃ lock, u.core.locks 0 = some lock ∧ lock.locked = true ∧
      lock.thread = (u.core.tcb 0).id) ∧
    ∀ m k v, u.step m = some v → u.Returns v k → k.Acquires 0 → u.core.current = 0 := by
  have hrun : ((Library.Machine.run (fun _ _ ↦ True) State.step State.init
      (State.script [(.lockCreate, 3), (.threadCreate, 3), (.lockAcquire 0, 2)])).bind fun s ↦
        (s.step (.instr ⟨3, 0⟩)).bind fun t ↦
          (Library.Machine.run (fun _ m ↦ m ∈ [.call (.threadYield threadAny),
              .call (.lockAcquire 0), .instr ⟨3, 0⟩]) State.step t
            (State.script [(.threadYield threadAny, 8), (.lockAcquire 0, 10)])).map fun u ↦
              ((s.core.self.call, s.core.current),
                (t.core.halted, t.core.current, t.core.self.call),
                (u.core.halted, u.core.current, (u.core.tcb 0).exited, (u.core.tcb 1).call,
                  u.queues (.wait (.lock 0))))) =
      some ((some (.lockAcquire 0), 0), (false, 0, none),
        (false, 0, false, some (.lockAcquire 0), some ⟨some 1, some 1, 1⟩)) := by
    decide +kernel
  obtain ⟨s, hs, hnext⟩ := Option.bind_eq_some_iff.mp hrun
  obtain ⟨t, ht, hrest⟩ := Option.bind_eq_some_iff.mp hnext
  obtain ⟨u, hu, hshape⟩ := Option.map_eq_some_iff.mp hrest
  simp only [Prod.mk.injEq] at hshape
  obtain ⟨⟨hcall, hcurrent⟩, ⟨hlive, hcurrent', hback⟩, hlive', hfirst, hexited, hwaits, hqueue⟩ :=
    hshape
  have hreach : s.Reachable := Library.Machine.Reaches.of_run hs
  have hreturns : s.Returns t (.lockAcquire 0) :=
    ⟨hcall, hlive, hcurrent'.trans hcurrent.symm, hback⟩
  have hkeeps : Library.Machine.Reaches (State.Keeps 0 0) State.step t u := by
    refine (Library.Machine.Reaches.of_run hu).mono fun _ m hm k hk _ ↦ ?_
    simp only [hk, List.mem_cons, Move.call.injEq, reduceCtorEq, List.not_mem_nil, or_false] at hm
    rcases hm with rfl | rfl <;> exact id
  obtain ⟨howner, hothers⟩ := (mutual_exclusion hreach).1 _ _ 0 t u ht hreturns rfl
    (hcurrent ▸ hkeeps) hlive' (hcurrent ▸ hexited)
  exact ⟨s, t, u, hreach, ht, hreturns, hkeeps, hfirst, hwaits, hqueue, hcurrent ▸ howner,
    hcurrent ▸ hothers⟩

end OperatingSystems.Threads
