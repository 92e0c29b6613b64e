import OperatingSystems.Threads.Own

/-!
# Thread identifiers

What `thread_kill`, `thread_wait` and `thread_yield` make of an identifier. `Answering` follows one
thread from the statement that decides what its call returns to the return; between them the thread
may sleep, be woken and be killed, and the other threads do anything (`Reachable.answers`). A call
that has only the flag to restore comes back with the next statement (`Reachable.givesBack`).
-/

set_option autoImplicit false
set_option relaxedAutoImplicit false

namespace OperatingSystems.Threads

open State (Move Memory)

variable {a b : Ideal} {i : Instr} {m : Move} {s t : State} {g h : ℕ} {r : ℤ}
  {rest extra : List Instr}

/-! ### What a call returns -/

/-- In every run in which the thread makes no other call, the call it is inside of returns the value
if it returns at all. -/
def State.Answers (s : State) (h : ℕ) (r : ℤ) : Prop :=
  ∀ u m v k, Library.Machine.Reaches (fun u m ↦ (∃ k, m = .call k) → u.core.current ≠ h) State.step
    s u → u.step m = some v → u.core.current = h → u.Returns v k → v.core.self.ret = r

/-- The call that the thread is inside of will return the value: it only has to restore the flag, or
it waits for a thread to exit and returns the id then, or the thread has been killed. Or the call
has returned. -/
inductive Thread.Answering (r : ℤ) (t : Thread) : Prop
  | last {k : Call} {g : List Instr} {j i : Instr} (hcall : t.call = some k)
      (hstage : g ∈ stages k) (hl : j :: i :: [.set] <:+ g) (htodo : t.todo = [.set])
      (hret : t.ret = r)
  | waiting {tid : ℤ} {q l : List Instr} (hcall : t.call = some (.threadWait tid))
      (hr : r = tid) (hresume : ∀ i ∈ q, i.resumes)
      (hl : l <:+ sleepCode (.thread tid.toNat))
      (htodo : t.todo = q ++ (l ++ [.waitReturn tid, .set]))
  | killed (hcall : t.call = some .threadExit) (htodo : .exit ∈ t.todo)
  | back (hcall : t.call = none)

theorem Thread.Answering.congr {t u : Thread} (h : t.Answering r) (hown : u.own = t.own) :
    u.Answering r := by
  have hcall := Thread.call_of_own hown
  have htodo := Thread.todo_of_own hown
  have hret := Thread.ret_of_own hown
  cases h with
  | last hcall' hstage hl htodo' hret' =>
    exact .last (hcall.trans hcall') hstage hl (htodo.trans htodo') (hret.trans hret')
  | waiting hcall' hr hresume hl htodo' =>
    exact .waiting (hcall.trans hcall') hr hresume hl (htodo.trans htodo')
  | killed hcall' htodo' => exact .killed (hcall.trans hcall') (htodo ▸ htodo')
  | back hcall' => exact .back (hcall.trans hcall')

namespace Control

variable {x y : Control} {k : Call} {stage : List Instr} {j : Instr}

/-- A thread that waits for another to exit stands in the second stage of its call. -/
theorem exists_suffix_waiting {tid : ℤ} {l : List Instr}
    (hl : l <:+ sleepCode (.thread tid.toNat)) :
    ∃ j, j :: (l ++ [.waitReturn tid, .set]) <:+
      .waitCheck tid :: (sleepCode (.thread tid.toNat) ++ [.waitReturn tid, .set]) := by
  simp only [sleepCode, List.suffix_cons_iff, List.suffix_nil] at hl
  rcases hl with rfl | rfl | rfl | rfl
  · exact ⟨_, List.suffix_refl _⟩
  all_goals exact ⟨_, by simp [sleepCode, List.suffix_cons_iff]; rfl⟩

/-- A thread that only has to restore the flag returns. -/
theorem Step.last (hstep : Step x y) (hx : x.Orderly) (hstage : stage ∈ stages k)
    (hl : i :: [.set] <:+ stage) (htodo : x.todo = [.set]) :
    y.call = none := by
  have hoff := hx.flag_inner (r := []) htodo (by simp) hstage hl (by simp)
  cases hstep with
  | timer hflag => exact absurd (hoff.symm.trans hflag) (by simp)
  | call hnil | interrupts hnil => exact absurd (htodo.symm.trans hnil) (by simp)
  | instr htodo' hi hextra heffect =>
    obtain ⟨rfl, rfl⟩ := List.cons.inj (htodo.symm.trans htodo')
    cases hextra
    simp [finish]
  | abandon htodo' => exact absurd (htodo.symm.trans htodo') (by simp)

/-- A thread that waits goes on with its waiting, or has been killed. -/
theorem Step.waiting {tid : ℤ} {resume l : List Instr} (hstep : Step x y) (hx : x.Orderly)
    (hcall : x.call = some (.threadWait tid)) (hresume : ∀ i ∈ resume, i.resumes)
    (hl : l <:+ sleepCode (.thread tid.toNat))
    (htodo : x.todo = resume ++ (l ++ [.waitReturn tid, .set])) :
    (y.call = some (.threadWait tid) ∧
      ((∃ resume' l', (∀ i ∈ resume', i.resumes) ∧ l' <:+ sleepCode (.thread tid.toNat) ∧
        y.todo = resume' ++ (l' ++ [.waitReturn tid, .set])) ∨
      x.todo = [.waitReturn tid, .set] ∧ y.todo = [.set])) ∨
    y.call = some .threadExit ∧ y.todo = [.exit] := by
  obtain ⟨j, hsuffix⟩ := exists_suffix_waiting hl
  have hoff := hx.flag_inner (k := .threadWait tid) htodo hresume (by simp [stages]) hsuffix
    (by simp)
  cases hstep with
  | timer hflag => exact absurd (hoff.symm.trans hflag) (by simp)
  | call hnil | interrupts hnil => exact absurd (htodo.symm.trans hnil) (by simp)
  | @instr i rest extra f saved htodo' hi hextra heffect =>
    have hlist := htodo'.symm.trans htodo
    cases resume with
    | cons j' resume =>
      obtain ⟨rfl, rfl⟩ := List.cons.inj hlist
      have hi' := hresume i List.mem_cons_self
      rw [finish_of_ne _ (by simp)]
      refine .inl ⟨hcall, .inl ⟨extra ++ resume, l, fun j hj ↦ ?_, hl,
        (List.append_assoc ..).symm⟩⟩
      rcases List.mem_append.mp hj with hj | hj
      · exact hextra.resumes hi' j hj
      · exact hresume j (List.mem_cons_of_mem _ hj)
    | nil =>
      cases l with
      | nil =>
        obtain ⟨rfl, rfl⟩ := List.cons.inj hlist
        cases hextra
        rw [finish_of_ne _ (by simp)]
        exact .inl ⟨hcall, .inr ⟨htodo, rfl⟩⟩
      | cons j' l =>
        obtain ⟨rfl, rfl⟩ := List.cons.inj hlist
        have hextra' : ∀ j ∈ extra, j.resumes := by
          simp only [sleepCode, List.suffix_cons_iff, List.suffix_nil, List.cons.injEq] at hl
          rcases hl with ⟨rfl, -⟩ | ⟨rfl, -⟩ | ⟨rfl, -⟩ | hl
          · cases hextra
            simp
          · cases hextra with
            | straight => simp
            | sleeps => exact resumes_resumeCode
          · cases hextra
            simp
          · cases hl
        rw [finish_of_ne _ (by simp)]
        exact .inl ⟨hcall, .inl ⟨extra, l, hextra', (List.suffix_cons i l).trans hl, rfl⟩⟩
  | abandon => exact .inr ⟨rfl, rfl⟩

/-- A thread that is going to exit goes on with that. -/
theorem Step.exiting (hstep : Step x y) (hcall : x.call = some .threadExit)
    (hexit : .exit ∈ x.todo) : y.call = some .threadExit ∧ .exit ∈ y.todo := by
  have hne : ∀ {todo : List Instr}, .exit ∈ todo → todo ≠ [] := fun hmem ↦ List.ne_nil_of_mem hmem
  cases hstep with
  | timer => exact ⟨hcall, List.mem_append_right _ hexit⟩
  | call hnil | interrupts hnil => exact absurd hnil (hne hexit)
  | @instr i rest extra _ _ htodo hi =>
    have hrest : .exit ∈ extra ++ rest := by
      rw [htodo, List.mem_cons] at hexit
      exact List.mem_append_right _ (hexit.resolve_left hi.symm)
    rw [finish_of_ne _ (hne hrest)]
    exact ⟨hcall, hrest⟩
  | abandon => exact ⟨rfl, by simp⟩

end Control

namespace Ideal

/-- The statement `return ret_id` of `thread_wait` stores the id. -/
theorem Transition.ret_waitReturn {tid : ℤ} {memory : Memory}
    (htransition : a.Transition (.instr memory) b)
    (htodo : a.core.self.todo = .waitReturn tid :: rest) :
    (b.core.tcb a.core.current).ret = tid := by
  cases htransition with
  | instr htodo' hexec =>
    obtain ⟨rfl, rfl⟩ := List.cons.inj (htodo.symm.trans htodo')
    cases hexec
    simp only [mapCore_core, Core.finish, Core.setRet, popped, Core.modify, Function.update_self]
    split_ifs <;> rfl

/-- Restoring the flag changes no result. -/
theorem Transition.ret_set (htransition : a.Transition m b) (htodo : a.core.self.todo = [.set])
    (hback : (b.core.tcb a.core.current).call = none) (hcall : a.core.self.call ≠ none) :
    (b.core.tcb a.core.current).ret = a.core.self.ret := by
  cases htransition with
  | timer => simp [Core.interrupt, Core.push, Core.modify, Core.self] at hback hcall; contradiction
  | call hnil | interrupts hnil => exact absurd (htodo.symm.trans hnil) (by simp)
  | instr htodo' hexec =>
    obtain ⟨rfl, rfl⟩ := List.cons.inj (htodo.symm.trans htodo')
    cases hexec with
    | @set c hset =>
      rw [Core.interruptsSet] at hset
      split at hset
      · cases hset
      · obtain rfl := Option.some.inj hset
        simp only [mapCore_core, Core.finish, popped, Core.modify, Function.update_self, Core.self]
        split_ifs <;> rfl

/-- A move of the thread leads on to the return of the value. -/
theorem Transition.answering (ha : a.Ordered) (hloc : a.Located) (htransition : a.Transition m b)
    (hm : ∀ k, m ≠ .call k) (hanswering : a.core.self.Answering r)
    (hlive : (b.core.tcb a.core.current).exited = false) :
    (b.core.tcb a.core.current).Answering r := by
  obtain ⟨hlt, hliving⟩ := ha.current_live
  have horderly := hloc.orderly _ hlt hliving
  have hstep := htransition.control_self ha hlive
  cases hanswering with
  | last hcall hstage hl htodo hret =>
    exact .back (hstep.last horderly hstage ((List.suffix_cons _ _).trans hl) htodo)
  | @waiting tid resume l hcall hr hresume hl htodo =>
    rcases hstep.waiting horderly hcall hresume hl htodo with
      ⟨hcall', ⟨resume', l', hresume', hl', htodo'⟩ | ⟨hthis, htodo'⟩⟩ | ⟨hcall', htodo'⟩
    · exact .waiting hcall' hr hresume' hl' htodo'
    · have hret : (b.core.tcb a.core.current).ret = tid := by
        cases m with
        | timer =>
          cases htransition
          have hlength := congrArg List.length htodo'
          simp [Core.control, Core.interrupt, Core.push, Core.modify, handlerCode,
            yieldCode] at hlength
        | call k => exact absurd rfl (hm k)
        | interrupts =>
          cases htransition with
          | interrupts hnil => exact absurd (hnil.symm.trans hthis) (by simp)
        | instr memory => exact htransition.ret_waitReturn hthis
      exact .last hcall' (g := .waitCheck tid ::
        (sleepCode (.thread tid.toNat) ++ [.waitReturn tid, .set])) (j := .set)
        (i := .waitReturn tid) (by simp [stages]) (by simp [sleepCode, List.suffix_cons_iff])
        htodo' (hret.trans hr.symm)
    · exact .killed hcall' (by
        rw [show (b.core.tcb a.core.current).todo = [.exit] from htodo']
        exact List.mem_singleton_self _)
  | killed hcall htodo =>
    obtain ⟨hcall', hexit⟩ := hstep.exiting hcall htodo
    exact .killed hcall' hexit
  | back hcall =>
    cases htransition with
    | timer =>
      refine .back ?_
      simpa [Core.interrupt, Core.push, Core.modify, Core.self] using hcall
    | call => exact absurd rfl (hm _)
    | interrupts => exact .back hcall
    | instr htodo hexec =>
      generalize hx : a.core.control a.core.current = x at hstep
      generalize hy : Core.control _ a.core.current = y at hstep
      have hxcall : x.call = none := hx ▸ hcall
      have hxtodo := congrArg Control.todo hx
      cases hstep with
      | timer => exact .back ((congrArg Control.call hy).trans hxcall)
      | interrupts => exact .back ((congrArg Control.call hy).trans hxcall)
      | call hnil => exact absurd (htodo.symm.trans (hxtodo.trans hnil)) (by simp)
      | instr =>
        refine .back ((congrArg Control.call hy).trans ?_)
        rw [Control.finish]
        split_ifs
        · rfl
        · exact hxcall
      | abandon =>
        refine .killed (congrArg Control.call hy) ?_
        rw [show Thread.todo _ = [.exit] from congrArg Control.todo hy]
        exact List.mem_singleton_self _

end Ideal

/-- In every run a thread whose call will return the value is followed by `Answering`, until it
exits. -/
theorem State.Reachable.answering (hs : s.Reachable) (hlt : h < s.core.allocated)
    (hanswering : (s.core.tcb h).Answering r)
    (hrun : Library.Machine.Reaches (fun u m ↦ (∃ k, m = .call k) → u.core.current ≠ h) State.step
      s t) :
    t.Reachable ∧ (t.core.halted = true ∨ h < t.core.allocated ∧
      ((t.core.tcb h).exited = true ∨ (t.core.tcb h).Answering r)) := by
  refine hrun.invariant (I := fun t ↦ t.Reachable ∧ (t.core.halted = true ∨ h < t.core.allocated ∧
    ((t.core.tcb h).exited = true ∨ (t.core.tcb h).Answering r))) ?_
    ⟨hs, .inr ⟨hlt, .inr hanswering⟩⟩
  rintro u m v ⟨hu, hcases⟩ hpermitted hstep
  refine ⟨Relation.ReflTransGen.tail hu ⟨m, trivial, hstep⟩, ?_⟩
  have hlive := State.halted_of_step hstep
  obtain ⟨hult, hthread⟩ := hcases.resolve_left (by simp [hlive])
  obtain ⟨a, hlinked, ha, hloc⟩ := hu.located hlive
  rcases hlinked.step_refines ha.separate (ha.unused _ (Nat.le_refl _)) hstep with
    hend | ⟨b, htransition, hb⟩
  · exact .inl hend
  rw [hlinked.core] at hult hthread hpermitted
  rw [hb.core]
  obtain ⟨hle, hold, -⟩ := htransition.threads ha
  refine .inr ⟨Nat.lt_of_lt_of_le hult hle, ?_⟩
  by_cases hexited : (b.core.tcb h).exited = true
  · exact .inl hexited
  have hanswers := hthread.resolve_left fun hx ↦ hexited ((hold h hult).2 hx)
  refine .inr ?_
  by_cases hcurrent : h = a.core.current
  · subst hcurrent
    exact htransition.answering ha hloc (fun k hk ↦ hpermitted ⟨k, hk⟩ rfl) hanswers
      (by simpa using hexited)
  · exact hanswers.congr (htransition.own_other ha hcurrent hult)

/-- A thread whose call will return the value returns it in every run. -/
theorem State.Reachable.answers (hs : s.Reachable) (hlt : h < s.core.allocated)
    (hanswering : (s.core.tcb h).Answering r) : s.Answers h r := by
  rintro u m v k hrun hstep rfl ⟨hcall, hlive, hcurrent, hback⟩
  obtain ⟨hu, hcases⟩ := hs.answering hlt hanswering hrun
  have hulive := State.halted_of_step hstep
  obtain ⟨-, hthread⟩ := hcases.resolve_left (by simp [hulive])
  obtain ⟨a, hlinked, ha, hloc⟩ := hu.located hulive
  rcases hlinked.step_refines ha.separate (ha.unused _ (Nat.le_refl _)) hstep with
    hend | ⟨b, htransition, hb⟩
  · exact absurd (hend.symm.trans hlive) (by simp)
  rw [hlinked.core] at hcall hthread hcurrent
  rw [hb.core] at hcurrent hback ⊢
  rw [Core.self, hcurrent] at hback ⊢
  have hlive' : (b.core.tcb a.core.current).exited = false :=
    hcurrent ▸ (ha.transition htransition).current_live.2
  obtain ⟨halt, hliving⟩ := ha.current_live
  have hstep' := htransition.control_self ha hlive'
  cases hthread.resolve_left (by rw [hliving]; simp) with
  | last hcall' hstage hl htodo hret =>
    exact (htransition.ret_set htodo hback (by rw [hcall]; simp)).trans hret
  | waiting hcall' _ hresume hl htodo =>
    rcases hstep'.waiting (hloc.orderly _ halt hliving) hcall' hresume hl htodo with
        ⟨hnext, -⟩ | ⟨hnext, -⟩
    all_goals exact absurd (hback.symm.trans hnext) (by simp)
  | killed hcall' htodo =>
    exact absurd (hback.symm.trans (hstep'.exiting hcall' htodo).1) (by simp)
  | back hnone => exact absurd (hnone.symm.trans hcall) (by simp)

/-! ### Checking identifiers -/

namespace State

/-- A thread that has not exited. -/
def Live (s : State) (h : ℕ) : Prop := h < s.core.allocated ∧ (s.core.tcb h).exited = false

/-- No other thread that has not exited has the id. -/
def InvalidId (s : State) (tid : ℤ) : Prop :=
  tid < 0 ∨ threadMaxThreads ≤ tid ∨ tid = s.core.self.id ∨
    ∀ h, s.Live h → ((s.core.tcb h).id : ℤ) ≠ tid

/-- The next statement can be executed, nothing else can happen before it, and it brings the
running thread back from its call with the value. -/
def GivesBack (s : State) (r : ℤ) : Prop :=
  (∀ memory, ∃ t, s.step (.instr memory) = some t) ∧
    ∀ m t, s.step m = some t → ∃ k, s.Returns t k ∧ t.core.self.ret = r

/-- The next statement fails: only the running thread changes, and its call returns
`THREAD_INVALID` with the statement after it. -/
def Fails (s : State) (memory : Memory) : Prop :=
  ∃ t, s.step (.instr memory) = some t ∧ t = s.mapCore (·.modify s.core.current fun x ↦
    { x with todo := x.todo.tail, ret := threadInvalid }) ∧
      t.Answers s.core.current threadInvalid ∧ t.GivesBack threadInvalid

/-- The next statement is executed, and the call returns the value if it returns. -/
def Succeeds (s : State) (memory : Memory) (r : ℤ) : Prop :=
  ∃ t, s.step (.instr memory) = some t ∧ t.Answers s.core.current r

/-- The next statement is executed, and the same thread's call returns the value with the statement
after it. -/
def SucceedsAtOnce (s : State) (memory : Memory) (r : ℤ) : Prop :=
  ∃ t, s.step (.instr memory) = some t ∧ t.core.current = s.core.current ∧
    t.Answers s.core.current r ∧ t.GivesBack r

/-- The running thread's next statement deals with its identifier as it should. A thread that waits
or yields may never be switched to again; a refused call and `thread_kill` come back at once. -/
def Validates (s : State) : Instr → Prop
  | .kill tid => (s.InvalidId tid → ∀ memory, s.Fails memory) ∧
      (¬s.InvalidId tid → ∀ memory, s.SucceedsAtOnce memory tid)
  | .waitCheck tid => (s.InvalidId tid → ∀ memory, s.Fails memory) ∧
      (¬s.InvalidId tid → ∀ memory : Memory, 1 ≤ memory.mallocs → s.Succeeds memory tid)
  | .yieldTo want => 0 ≤ want → ∀ memory,
      (s.Fails memory ↔ ∀ l, s.Ready l → ∀ h ∈ l, ((s.core.tcb h).id : ℤ) ≠ want)
  | _ => True

/-- The statement finds another thread with the id in `threads`, and within the array. -/
theorem invalidId_iff (hlinked : Linked s a) (ha : a.Ordered) {tid : ℤ} :
    s.InvalidId tid ↔ tid < 0 ∨ threadMaxThreads ≤ tid ∨ tid = s.core.self.id ∨
      s.core.threads tid.toNat = none := by
  have hlive : 0 ≤ tid → ((∀ h, s.Live h → ((s.core.tcb h).id : ℤ) ≠ tid) ↔
      s.core.threads tid.toNat = none) := fun hpos ↦ by
    rw [hlinked.core, Option.eq_none_iff_forall_ne_some]
    refine forall_congr' fun h ↦ ?_
    have hthread := ha.threads tid.toNat h
    simp only [ne_eq, hthread, Live, hlinked.core, not_and, and_imp]
    refine imp_congr_right fun _ ↦ imp_congr_right fun _ ↦ not_congr ?_
    omega
  by_cases hneg : tid < 0
  · simp [InvalidId, hneg]
  · rw [InvalidId, hlive (by omega)]

/-- The state in which the next statement is executed: it has been taken off the list. -/
def pop (s : State) (rest : List Instr) : State :=
  s.mapCore (·.modify s.core.current fun t ↦ { t with todo := rest })

theorem step_instr (hlive : s.core.halted = false) (htodo : s.core.self.todo = i :: rest)
    (memory : Memory) : s.step (.instr memory) =
      ((s.pop rest).exec memory i).map (·.mapCore (·.finish s.core.current)) := by
  rw [step, htodo]
  dsimp only
  rw [if_neg (by simp [hlive])]
  cases hexec : (s.pop rest).exec memory i <;> simp [pop] at hexec <;> simp [hexec]

theorem pop_self (s : State) (rest : List Instr) :
    (s.pop rest).core.self = { s.core.self with todo := rest } := by
  simp [pop, mapCore, Core.self, Core.modify]

theorem pop_threads (s : State) (rest : List Instr) :
    (s.pop rest).core.threads = s.core.threads := rfl

/-- A statement that fails changes the running thread only. -/
theorem fails_eq (s : State) (r : ℤ) : (s.pop rest).mapCore (·.setRet r) =
    s.mapCore (·.modify s.core.current fun x ↦ { x with todo := rest, ret := r }) := by
  simp [pop, mapCore, Core.setRet, Core.modify]

/-- `thread_kill` of an identifier that is not valid. -/
theorem threadKill_invalid {tid : ℤ} (hid : s.threadId = some s.core.self.id)
    (hinvalid : tid < 0 ∨ threadMaxThreads ≤ tid ∨ tid = s.core.self.id ∨
      s.core.threads tid.toNat = none) :
    s.threadKill tid = some (s.mapCore (·.setRet threadInvalid)) := by
  rw [threadKill, hid, Option.bind_eq_bind, Option.bind_some]
  by_cases hself : tid = s.core.self.id
  · rw [if_pos hself]
  rw [if_neg hself]
  by_cases hrange : tid < 0 ∨ threadMaxThreads ≤ tid
  · rw [if_pos hrange]
  rw [if_neg hrange]
  have hnone : s.core.threads tid.toNat = none :=
    ((hinvalid.resolve_left fun h ↦ hrange (.inl h)).resolve_left fun h ↦
      hrange (.inr h)).resolve_left hself
  rw [s.core.threadAt_eq_some.mpr ⟨by omega, hnone⟩]
  rfl

/-- `thread_kill` of a valid identifier. -/
theorem threadKill_valid {tid : ℤ} (hid : s.threadId = some s.core.self.id)
    (hself : tid ≠ s.core.self.id) (hrange : 0 ≤ tid ∧ tid < threadMaxThreads)
    (hthread : s.core.threads tid.toNat = some h) : s.threadKill tid =
      some (s.mapCore fun c ↦ (c.setThreadStatus h .exited).setRet (c.tcb h).id) := by
  rw [threadKill, hid, Option.bind_eq_bind, Option.bind_some, if_neg hself, if_neg (by omega),
    s.core.threadAt_eq_some.mpr ⟨hrange, hthread⟩]
  rfl

/-- `thread_wait` for an identifier that is not valid, and not too large. -/
theorem threadWait_invalid {tid : ℤ} {memory : ℕ} (hid : s.threadId = some s.core.self.id)
    (hlarge : tid < threadMaxThreads) (hinvalid : tid < 0 ∨ tid = s.core.self.id ∨
      s.core.threads tid.toNat = none) :
    s.threadWait tid memory = some (s.mapCore (·.setRet threadInvalid)) := by
  rw [threadWait, hid, Option.bind_eq_bind, Option.bind_some]
  by_cases hself : tid < 0 ∨ tid = s.core.self.id
  · rw [if_pos hself]
  rw [if_neg hself]
  have hnone : s.core.threads tid.toNat = none :=
    (hinvalid.resolve_left fun h ↦ hself (.inl h)).resolve_left fun h ↦ hself (.inr h)
  rw [s.core.threadAt_eq_some.mpr ⟨by omega, hnone⟩]
  rfl

/-- `thread_wait` for a valid identifier, with memory for a wait queue. -/
theorem threadWait_valid {tid : ℤ} {memory : ℕ} (hid : s.threadId = some s.core.self.id)
    (hself : tid ≠ s.core.self.id) (hrange : 0 ≤ tid ∧ tid < threadMaxThreads)
    (hthread : s.core.threads tid.toNat = some h) (hmemory : 1 ≤ memory) :
    ∃ t, s.threadWait tid memory = some t ∧
      t.core = s.core.push (sleepCode (.thread tid.toNat) ++ [.waitReturn tid]) := by
  rw [threadWait, hid, Option.bind_eq_bind, Option.bind_some, if_neg (by omega),
    s.core.threadAt_eq_some.mpr ⟨hrange, hthread⟩]
  cases hqueue : s.queues (.wait (.thread tid.toNat)) with
  | some k => exact ⟨_, rfl, rfl⟩
  | none => exact ⟨_, if_neg (Nat.not_lt.mpr hmemory), rfl⟩

/-- `thread_wait` for an identifier that is too large looks it up outside of the array. -/
theorem threadWait_large {tid : ℤ} {memory : ℕ} (hid : s.threadId = some s.core.self.id)
    (hself : tid ≠ s.core.self.id) (hlarge : threadMaxThreads ≤ tid) :
    s.threadWait tid memory = none := by
  have hat : s.core.threadAt tid = none := by
    rw [Core.threadAt, if_neg (by omega)]
  rw [threadWait, hid, Option.bind_eq_bind, Option.bind_some, if_neg (by omega), hat]
  rfl

/-! ### The three entry points -/

/-- What is known of the running thread before a statement that decides what its call returns: the
call has only to restore the flag after it. -/
theorem Reachable.deciding (hs : s.Reachable) (hlive : s.core.halted = false)
    (htodo : s.core.self.todo = i :: rest) (hi : i.decides) (hany : i ≠ .yieldTo threadAny) :
    rest = [.set] ∧ ∃ k stage j, s.core.self.call = some k ∧ stage ∈ stages k ∧
      j :: i :: [.set] <:+ stage := by
  obtain ⟨a, hlinked, ha, hloc⟩ := hs.located hlive
  have hlocated := hloc.located _ ha.current_live.1 ha.current_live.2
  rw [hlinked.core] at htodo ⊢
  have hguarded : i.guarded = true := by
    cases i <;> first | rfl | exact hi.elim
  rcases hlocated.guarded htodo hguarded with ⟨k, stage, j, hcall, hstage, hl⟩ | heq
  · obtain rfl := decides_stage hstage hl hi
    exact ⟨rfl, k, stage, j, hcall, hstage, hl⟩
  · exact absurd heq hany

/-- Restoring the flag is the last statement of a call: the thread is back from it, with the result
that is stored. -/
theorem step_set (hlive : s.core.halted = false) (htodo : s.core.self.todo = [.set])
    (hsaved : s.core.self.saved ≠ []) (memory : Memory) :
    ∃ t, s.step (.instr memory) = some t ∧ t.core.halted = false ∧
      t.core.current = s.core.current ∧ t.core.self.todo = [] ∧ t.core.self.call = none ∧
      t.core.self.ret = s.core.self.ret := by
  obtain ⟨flag, saved, hsaved⟩ := List.exists_cons_of_ne_nil hsaved
  have hset : (s.pop []).core.interruptsSet = some { (s.pop []).core.modify s.core.current
      fun t ↦ { t with saved := saved } with flag := flag } := by
    rw [Core.interruptsSet, pop_self, hsaved]
    rfl
  have hexec : (s.pop []).exec memory .set = some _ := congrArg (Option.map _) hset
  have hstep := step_instr hlive htodo memory
  rw [hexec, Option.map_some] at hstep
  refine ⟨_, hstep, hlive, rfl, ?_, ?_, ?_⟩
  all_goals simp [pop, mapCore, Core.finish, Core.modify, Core.self]

/-- A thread that only has to restore the flag returns with the next statement: it has a value to
restore, and the timer cannot interrupt it before. -/
theorem Reachable.givesBack {k : Call} {stage : List Instr} (hs : s.Reachable)
    (hlive : s.core.halted = false) (hcall : s.core.self.call = some k)
    (hstage : stage ∈ stages k) (hl : i :: [.set] <:+ stage)
    (htodo : s.core.self.todo = [.set]) : s.GivesBack s.core.self.ret := by
  obtain ⟨a, hlinked, ha, hloc⟩ := hs.located hlive
  have hx := hloc.orderly _ ha.current_live.1 ha.current_live.2
  rw [← hlinked.core] at hx
  have hflag : (s.core.control s.core.current).flag = false :=
    hx.flag_inner (r := []) htodo (by simp) hstage hl (by simp)
  have hsaved : s.core.self.saved ≠ [] :=
    hx.saved_inner (r := []) htodo (by simp) hstage hl (by simp)
  refine ⟨fun memory ↦ ?_, fun m t hstep ↦ ?_⟩
  · obtain ⟨t, hstep, -⟩ := step_set hlive htodo hsaved memory
    exact ⟨t, hstep⟩
  cases m with
  | timer =>
    have hoff : s.core.flag = false := by simpa [Core.control, Core.flagOf] using hflag
    simp [step, hoff] at hstep
  | call k => simp [step, htodo] at hstep
  | interrupts e => simp [step, htodo] at hstep
  | instr memory =>
    obtain ⟨u, hset, hulive, hcurrent, -, hback, hret⟩ := step_set hlive htodo hsaved memory
    obtain rfl := Option.some.inj (hset.symm.trans hstep)
    exact ⟨k, ⟨hcall, hulive, hcurrent, hback⟩, hret⟩

/-- Assumes: the function that decides what the call returns stores its result and leaves the rest
of the running thread alone. -/
theorem Reachable.decided (hs : s.Reachable) (hlive : s.core.halted = false)
    (htodo : s.core.self.todo = i :: rest) (hi : i.decides) (hany : i ≠ .yieldTo threadAny)
    {memory : Memory} (hexec : (s.pop rest).exec memory i = some t)
    (hallocated : t.core.allocated = s.core.allocated)
    (hcurrent : t.core.current = s.core.current) (hlive' : t.core.halted = false)
    (htodo' : t.core.self.todo = rest) (hcall' : t.core.self.call = s.core.self.call) :
    s.step (.instr memory) = some t ∧
      t.Answers s.core.current t.core.self.ret ∧ t.GivesBack t.core.self.ret := by
  obtain ⟨rfl, k, stage, j, hcall, hstage, hl⟩ := hs.deciding hlive htodo hi hany
  have hstep := step_instr hlive htodo memory
  have hfinish : t.mapCore (·.finish s.core.current) = t := by
    rw [mapCore, ← hcurrent, Core.finish_of_ne _ (by rw [← Core.self, htodo']; simp)]
  rw [hexec, Option.map_some, hfinish] at hstep
  have ht : t.Reachable := Relation.ReflTransGen.tail hs ⟨_, trivial, hstep⟩
  obtain ⟨a, hlinked, ha, -⟩ := hs.located hlive
  have hlt : t.core.current < t.core.allocated := by
    rw [hallocated, hcurrent, hlinked.core]
    exact ha.current_live.1
  refine ⟨hstep, hcurrent ▸ ht.answers hlt (.last (hcall'.trans hcall) hstage hl htodo' rfl),
    ht.givesBack hlive' (hcall'.trans hcall) hstage ((List.suffix_cons _ _).trans hl) htodo'⟩

/-- The statement fails if its function does no more than store `THREAD_INVALID`. -/
theorem Reachable.fails (hs : s.Reachable) (hlive : s.core.halted = false)
    (htodo : s.core.self.todo = i :: rest) (hi : i.decides) (hany : i ≠ .yieldTo threadAny)
    {memory : Memory}
    (hexec : (s.pop rest).exec memory i = some ((s.pop rest).mapCore (·.setRet threadInvalid))) :
    s.Fails memory := by
  have htail : (s.core.tcb s.core.current).todo.tail = rest := congrArg List.tail htodo
  rw [fails_eq] at hexec
  obtain ⟨hstep, hreturned⟩ := hs.decided hlive htodo hi hany hexec rfl rfl hlive
    (by simp [mapCore, Core.modify, Core.self]) (by simp [mapCore, Core.modify, Core.self])
  refine ⟨_, hstep, by simp only [mapCore, Core.modify, htail], ?_⟩
  simpa [mapCore, Core.modify, Core.self] using hreturned

theorem linked_pop (hlinked : Linked s a) (rest : List Instr) :
    Linked (s.pop rest) (a.popped rest) := by
  rw [pop, hlinked.core]
  exact hlinked.mapCore (a.popped_frame rest)

/-- The running thread is at the head of the ready queue. -/
theorem threadId_pop (hlinked : Linked s a) (ha : a.Ordered) (rest : List Instr) :
    (s.pop rest).threadId = some (s.pop rest).core.self.id := by
  obtain ⟨l, hready⟩ := ha.running
  have hpop := linked_pop hlinked rest
  have hready' : (a.popped rest).ready = a.core.current :: l := hready
  rw [hpop.threadId hready', hpop.core]
  rfl

/-- `thread_kill` deals with every identifier as it should. -/
theorem Reachable.validates_kill (hs : s.Reachable) (hlive : s.core.halted = false) {tid : ℤ}
    (htodo : s.core.self.todo = .kill tid :: rest) : s.Validates (.kill tid) := by
  obtain ⟨a, hlinked, ha, -⟩ := hs.located hlive
  have hid := threadId_pop hlinked ha rest
  have hselfId : (s.pop rest).core.self.id = s.core.self.id := by rw [pop_self]
  refine ⟨fun hinvalid memory ↦ ?_, fun hvalid memory ↦ ?_⟩
  · rw [invalidId_iff hlinked ha, ← hselfId, ← pop_threads s rest] at hinvalid
    exact hs.fails hlive htodo trivial (by simp) (threadKill_invalid hid hinvalid)
  · rw [invalidId_iff hlinked ha, ← hselfId, ← pop_threads s rest] at hvalid
    simp only [not_or] at hvalid
    obtain ⟨hneg, hlarge, hself, hthread⟩ := hvalid
    have hrange : 0 ≤ tid ∧ tid < threadMaxThreads := by omega
    obtain ⟨h, hthread⟩ := Option.ne_none_iff_exists'.mp hthread
    have hexec : (s.pop rest).exec memory (.kill tid) = _ :=
      threadKill_valid hid hself hrange hthread
    have hid' : (((s.pop rest).core.tcb h).id : ℤ) = tid := by
      have hpop := linked_pop hlinked rest
      rw [hpop.core] at hthread ⊢
      rw [(((ha.popped _).threads _ _).mp hthread).2.2]
      omega
    -- The mark changes the status of the other thread only.
    have hown : ((s.pop rest).core.setThreadStatus h .exited).own s.core.current =
        (s.pop rest).core.own s.core.current := Core.own_setThreadStatus _ _ _ _
    have hpopped : (s.pop rest).core.tcb s.core.current = { s.core.self with todo := rest } :=
      pop_self s rest
    have htodo' := Thread.todo_of_own hown
    have hcall' := Thread.call_of_own hown
    rw [hpopped] at htodo' hcall'
    have hself' : ((s.pop rest).mapCore fun c ↦ (c.setThreadStatus h .exited).setRet
        (c.tcb h).id).core.self =
        { ((s.pop rest).core.setThreadStatus h .exited).tcb s.core.current with
          ret := ((s.pop rest).core.tcb h).id } := Core.setRet_self _ _
    obtain ⟨hstep, hreturned⟩ := hs.decided hlive htodo trivial (by simp) hexec rfl rfl hlive
      (by rw [hself']; exact htodo') (by rw [hself']; exact hcall')
    rw [hself', hid'] at hreturned
    exact ⟨_, hstep, rfl, hreturned⟩

/-- `thread_wait` deals with every identifier that is not too large as it should. -/
theorem Reachable.validates_wait (hs : s.Reachable) (hlive : s.core.halted = false) {tid : ℤ}
    (htodo : s.core.self.todo = .waitCheck tid :: rest) (hlarge : tid < threadMaxThreads) :
    s.Validates (.waitCheck tid) := by
  obtain ⟨a, hlinked, ha, -⟩ := hs.located hlive
  have hid := threadId_pop hlinked ha rest
  have hselfId : (s.pop rest).core.self.id = s.core.self.id := by rw [pop_self]
  refine ⟨fun hinvalid memory ↦ ?_, fun hvalid memory hmemory ↦ ?_⟩
  · rw [invalidId_iff hlinked ha, ← hselfId, ← pop_threads s rest] at hinvalid
    exact hs.fails hlive htodo trivial (by simp)
      (threadWait_invalid hid hlarge (hinvalid.imp_right (·.resolve_left (by omega))))
  · rw [invalidId_iff hlinked ha, ← hselfId, ← pop_threads s rest] at hvalid
    simp only [not_or] at hvalid
    obtain ⟨hneg, -, hself, hthread⟩ := hvalid
    have hrange : 0 ≤ tid ∧ tid < threadMaxThreads := by omega
    obtain ⟨h, hthread⟩ := Option.ne_none_iff_exists'.mp hthread
    obtain ⟨u, hexec, hcore⟩ := threadWait_valid hid hself hrange hthread hmemory
    have hexec' : (s.pop rest).exec memory (.waitCheck tid) = some u := hexec
    obtain ⟨rfl, k, stage, j, hcall, hstage, hl⟩ := hs.deciding hlive htodo trivial (by simp)
    obtain ⟨rfl, -⟩ := waitCheck_stage hstage hl
    have hthread' : u.core.tcb s.core.current = { s.core.self with
        todo := sleepCode (.thread tid.toNat) ++ [.waitReturn tid] ++ [.set] } := by
      rw [hcore]
      simp [Core.push, Core.modify, pop, mapCore, Core.self]
    have hstep := step_instr hlive htodo memory
    have hfinish : u.mapCore (·.finish s.core.current) = u := by
      rw [mapCore, Core.finish_of_ne _ (by simp [hthread'])]
    rw [hexec', Option.map_some, hfinish] at hstep
    have hu : u.Reachable := Relation.ReflTransGen.tail hs ⟨_, trivial, hstep⟩
    refine ⟨u, hstep, hu.answers ?_ (.waiting (q := []) (by rw [hthread']; exact hcall) rfl
      (by simp) (List.suffix_refl _) (by simp [hthread', sleepCode]))⟩
    rw [hcore, show s.core.current = a.core.current by rw [hlinked.core]]
    show a.core.current < s.core.allocated
    rw [hlinked.core]
    exact ha.current_live.1

/-- A statement that stores another result has not failed. -/
theorem not_fails (hlive : s.core.halted = false) (htodo : s.core.self.todo = i :: rest)
    {memory : Memory} (hexec : (s.pop rest).exec memory i = some t)
    (hret : (t.core.tcb s.core.current).ret ≠ threadInvalid) : ¬s.Fails memory := by
  rintro ⟨u, hstep, rfl, -, -⟩
  rw [step_instr hlive htodo, hexec, Option.map_some, Option.some.injEq] at hstep
  have hsame := congrArg (fun u : State ↦ (u.core.tcb s.core.current).ret) hstep
  simp only [mapCore, Core.finish_ret] at hsame
  exact hret (hsame.trans (by simp [Core.modify]))

theorem yieldSwitch_ret (s : State) (old want : ℕ) :
    ((s.yieldSwitch old want).core.tcb s.core.current).ret = (s.core.tcb want).id :=
  congrArg Thread.ret (Core.setRet_self _ _)

/-- `thread_yield` to an identifier fails just when no ready thread has it. -/
theorem Reachable.validates_yield (hs : s.Reachable) (hlive : s.core.halted = false) {want : ℤ}
    (htodo : s.core.self.todo = .yieldTo want :: rest) : s.Validates (.yieldTo want) := by
  intro hwant memory
  have hnat : ∀ n : ℕ, (n : ℤ) ≠ threadInvalid := fun n ↦ by
    simp only [threadInvalid]
    omega
  have hany : want ≠ threadAny := fun h ↦ by simp [h, threadAny] at hwant
  have hself : want ≠ threadSelf := fun h ↦ by simp [h, threadSelf] at hwant
  obtain ⟨a, hlinked, ha, -⟩ := hs.located hlive
  obtain ⟨l, hready⟩ := ha.running
  have hpop := linked_pop hlinked rest
  have hlist : (s.pop rest).Ready (a.core.current :: l) := by
    rw [← hready]
    exact hpop.ready_list
  have hlength := hpop.length_le (ha.popped rest).separate (q := .rq) (by simp) hpop.ready
  rw [← hpop.core] at hlength
  have hids : ∀ g, ((s.pop rest).core.tcb g).id = (s.core.tcb g).id := fun g ↦ by
    rw [hpop.core, hlinked.core]
    exact (a.popped_frame rest).id g
  obtain ⟨t, hexec, hyields⟩ := threadYield_spec hlist (Nat.le_of_succ_le (by
    simpa [Ideal.lists, Ideal.popped, hready] using hlength)) want
  have hfound : ∀ g, g ∈ a.core.current :: l → ((s.pop rest).core.tcb g).id = want →
      (∀ u, t = u → (u.core.tcb s.core.current).ret = ((s.pop rest).core.tcb g).id) →
      (s.Fails memory ↔ ∀ l, s.Ready l → ∀ h ∈ l, ((s.core.tcb h).id : ℤ) ≠ want) :=
    fun g hg hid hret ↦ by
      refine iff_of_false (not_fails hlive htodo hexec ?_) fun hnone ↦ ?_
      · rw [hret t rfl]
        exact hnat _
      · exact hnone _ hlist g hg (by rw [← hids, hid])
  cases hyields with
  | alone => exact absurd rfl hany
  | self _ hcases =>
    refine hfound a.core.current (by simp) (hcases.resolve_left hself).symm ?_
    rintro _ rfl
    exact yieldSwitch_ret _ _ _
  | @switch _ before after target u hrest hcases hreorders =>
    refine hfound _ (by simp [hrest]) (hcases.resolve_left fun h ↦ hany h.1).symm ?_
    rintro _ rfl
    have hret := yieldSwitch_ret u a.core.current target
    rwa [hreorders.core] at hret
  | invalid _ _ hnone =>
    refine iff_of_true (hs.fails hlive htodo trivial (by simpa using hany) hexec) ?_
    intro l' hl' h hh
    have hl : (s.pop rest).Ready l' := hl'
    rw [HasQueue.eq hl hlist] at hh
    rw [← hids]
    exact hnone h hh

/-- `thread_wait` of a large identifier looks it up outside of the array. -/
theorem Reachable.wait_large (hs : s.Reachable) (hlive : s.core.halted = false) {tid : ℤ}
    (htodo : s.core.self.todo = .waitCheck tid :: rest) (hlarge : threadMaxThreads ≤ tid)
    (memory : Memory) : s.step (.instr memory) = none := by
  obtain ⟨a, hlinked, ha, -⟩ := hs.located hlive
  have hself : tid ≠ (s.pop rest).core.self.id := fun heq ↦ by
    have hlt := ha.id_lt _ ha.current_live.1
    rw [pop_self, Core.self, hlinked.core] at heq
    dsimp only at heq
    omega
  have hexec : (s.pop rest).exec memory (.waitCheck tid) = none :=
    threadWait_large (threadId_pop hlinked ha rest) hself hlarge
  rw [step_instr hlive htodo, hexec, Option.map_none]

/-- In every state that can be reached while the process runs, `thread_kill`, `thread_wait` and
`thread_yield` deal with their identifier as they should, except that `thread_wait` looks up an
identifier from 1024 on outside of the array. -/
theorem identifiers_validated_iff (hs : s.Reachable) (hlive : s.core.halted = false)
    (htodo : s.core.self.todo = i :: rest) :
    s.Validates i ↔ ∀ tid, i = .waitCheck tid → tid < threadMaxThreads := by
  constructor
  · rintro hvalidates tid rfl
    by_contra hsmall
    have hlarge : threadMaxThreads ≤ tid := by omega
    obtain ⟨t, hstep, -⟩ := hvalidates.1 (.inr (.inl hlarge)) ⟨1, 0⟩
    rw [hs.wait_large hlive htodo hlarge] at hstep
    cases hstep
  · intro hsmall
    cases i with
    | kill tid => exact hs.validates_kill hlive htodo
    | waitCheck tid => exact hs.validates_wait hlive htodo (hsmall tid rfl)
    | yieldTo want => exact hs.validates_yield hlive htodo
    | _ => trivial

/-- The first thread calls `thread_wait(0)`. -/
theorem identifiers_validated_iff_zero : ∃ s : State, s.Reachable ∧
    s.core.self.todo = [.waitCheck 0, .set] ∧ (s.Validates (.waitCheck 0) ↔
      ∀ tid, Instr.waitCheck 0 = .waitCheck tid → tid < threadMaxThreads) := by
  have hrun : (Library.Machine.run (fun _ _ ↦ True) State.step State.init
      [.call (.threadWait 0), .instr ⟨3, 0⟩]).map (fun s ↦ (s.core.self.todo, s.core.halted)) =
      some ([.waitCheck 0, .set], false) := by
    decide +kernel
  obtain ⟨s, hs, hshape⟩ := Option.map_eq_some_iff.mp hrun
  obtain ⟨htodo, hlive⟩ := Prod.mk.inj hshape
  have hreach : s.Reachable := Library.Machine.Reaches.of_run hs
  exact ⟨s, hreach, htodo, identifiers_validated_iff hreach hlive htodo⟩

/-- The first thread calls `thread_wait(1024)`: the identifier is not valid, and the call does not
fail with `THREAD_INVALID`, but reads outside of the array. -/
theorem identifiers_not_validated : ∃ s : State, s.Reachable ∧
    s.core.self.todo = [.waitCheck 1024, .set] ∧ s.InvalidId 1024 ∧
      (∀ memory, s.step (.instr memory) = none) ∧ ¬s.Validates (.waitCheck 1024) := by
  have hrun : (Library.Machine.run (fun _ _ ↦ True) State.step State.init
      [.call (.threadWait 1024), .instr ⟨3, 0⟩]).map (fun s ↦ (s.core.self.todo, s.core.halted)) =
      some ([.waitCheck 1024, .set], false) := by
    decide +kernel
  obtain ⟨s, hs, hshape⟩ := Option.map_eq_some_iff.mp hrun
  obtain ⟨htodo, hlive⟩ := Prod.mk.inj hshape
  have hreach : s.Reachable := Library.Machine.Reaches.of_run hs
  have hinvalid : s.InvalidId 1024 := .inr (.inl (by decide))
  have hnone := hreach.wait_large hlive htodo (by decide)
  refine ⟨s, hreach, htodo, hinvalid, hnone, fun hvalidates ↦ ?_⟩
  obtain ⟨t, hstep, -⟩ := hvalidates.1 hinvalid ⟨1, 0⟩
  exact absurd ((hnone _).symm.trans hstep) (by simp)

end State

end OperatingSystems.Threads
