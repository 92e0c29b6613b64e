import OperatingSystems.Threads.Exclusion

/-!
# The owners of locks

A lock records the id of the thread that took it. `Owned` says that the id is that of the thread,
and that the thread has not exited; no two such threads have the same id, so the assertion of
`lock_release`, `cv_wait`, `cv_signal` and `cv_broadcast` is passed by that thread alone.

Every move keeps this but one: a thread that has been killed calls `thread_exit` on its resume path,
whatever locks it holds, and its id becomes free for another thread. `ExitsFree` leaves these moves
out.
-/

set_option autoImplicit false
set_option relaxedAutoImplicit false

namespace OperatingSystems.Threads

open State (Move Memory)

variable {a b : Ideal} {i : Instr} {m : Move} {s : State} {g x : ℕ}

namespace Ideal

/-- A lock that is taken names the thread that took it, which has not exited. -/
def Owned (a : Ideal) : Prop :=
  ∀ x k, a.core.locks x = some k → k.locked = true → k.holder < a.core.allocated ∧
    (a.core.tcb k.holder).exited = false ∧ k.thread = (a.core.tcb k.holder).id

/-- A thread that holds a lock does not exit in the move. -/
def ExitsFree (a : Ideal) (m : Move) : Prop :=
  ∀ memory rest, m = .instr memory → a.core.self.todo = .exit :: rest →
    ∀ x k, a.core.locks x = some k → k.locked = true → k.holder ≠ a.core.current

/-- Every move in which no thread that holds a lock exits leaves the locks with their owners. -/
theorem Owned.transition (howned : a.Owned) (ha : a.Ordered) (hfree : a.ExitsFree m)
    (htransition : a.Transition m b) : b.Owned := by
  intro x k hlock hlocked
  obtain ⟨hle, hold, -⟩ := htransition.threads ha
  have hkept : ∀ {k' : Lock}, a.core.locks x = some k' → k'.locked = true → k'.holder = k.holder →
      k'.thread = k.thread → k.holder < b.core.allocated ∧
        (b.core.tcb k.holder).exited = false ∧ k.thread = (b.core.tcb k.holder).id := by
    intro k' hlock' hlocked' hholder hthread
    obtain ⟨hlt, hlive, hid⟩ := howned x k' hlock' hlocked'
    rw [hholder] at hlt hlive hid
    refine ⟨Nat.lt_of_lt_of_le hlt hle, ?_, ?_⟩
    · by_contra hexited
      obtain ⟨hcurrent, memory, rest, hm, htodo⟩ :=
        htransition.exits ha hlt hlive (by simpa using hexited)
      exact hfree memory rest hm htodo x k' hlock' hlocked' (hholder.trans hcurrent)
    · rw [(hold k.holder hlt).1, ← hthread, hid]
  rcases htransition.lockStep ha x with hlocks | ⟨i, rest, htodo, hstep⟩
  · exact hkept (hlocks.symm.trans hlock) hlocked rfl rfl
  cases hstep with
  | same hlocks => exact hkept (hlocks.symm.trans hlock) hlocked rfl rfl
  | create _ hnew =>
    obtain rfl := Option.some.inj (hnew.symm.trans hlock)
    exact absurd hlocked (by simp)
  | destroy _ _ hnone => exact absurd (hnone.symm.trans hlock) (by simp)
  | acquire _ _ htaken =>
    obtain rfl := Option.some.inj (htaken.symm.trans hlock)
    obtain ⟨hlt, hlive⟩ := ha.current_live
    refine ⟨Nat.lt_of_lt_of_le hlt hle, ?_, by rw [(hold _ hlt).1]⟩
    by_contra hexited
    obtain ⟨-, -, rest', -, htodo'⟩ := htransition.exits ha hlt hlive (by simpa using hexited)
    exact absurd (htodo.symm.trans htodo') (by simp)
  | release _ _ _ hnew =>
    obtain rfl := Option.some.inj (hnew.symm.trans hlock)
    exact absurd hlocked (by simp)

/-- The exit of a thread that holds a lock leaves the lock without its owner. -/
theorem Owned.exitsFree (howned : b.Owned) (ha : a.Ordered) (htransition : a.Transition m b) :
    a.ExitsFree m := by
  rintro memory rest rfl htodo x k hlock hlocked hholder
  cases htransition with
  | @instr _ i rest' b htodo' hexec =>
    obtain ⟨rfl, rfl⟩ := List.cons.inj (htodo.symm.trans htodo')
    have hexited := (hexec.threads (ha.popped rest)).2.2.2 rfl
    have hsame : b.core.locks x = a.core.locks x := by
      cases hexec.lockStep (ha.popped rest) x with
      | same hlocks => exact hlocks
    obtain ⟨-, hlive, -⟩ := howned x k (hsame.trans hlock) hlocked
    rw [mapCore_core, (b.core.frame_finish _).exited, hholder] at hlive
    exact absurd (hexited.symm.trans hlive) (by simp)

end Ideal

namespace State

/-- The move is not the exit of a thread that holds a lock. -/
def ExitsFree (s : State) (m : Move) : Prop :=
  ∀ memory rest, m = .instr memory → s.core.self.todo = .exit :: rest →
    ∀ x k, s.core.locks x = some k → k.locked = true → k.holder ≠ s.core.current

/-- A lock that is taken records the id of the thread that took it, under which that thread is in
the array `threads`. -/
def Owned (s : State) : Prop :=
  ∀ x k, s.core.locks x = some k → k.locked = true →
    ∃ id : ℕ, k.thread = id ∧ s.core.threads id = some k.holder

end State

theorem Linked.owned_iff (hs : Linked s a) (ha : a.Ordered) : s.Owned ↔ a.Owned := by
  rw [State.Owned, hs.core]
  refine forall₄_congr fun x k hlock hlocked ↦ ?_
  constructor
  · rintro ⟨id, hid, hthread⟩
    obtain ⟨hlt, hlive, rfl⟩ := (ha.threads _ _).mp hthread
    exact ⟨hlt, hlive, hid⟩
  · rintro ⟨hlt, hlive, hid⟩
    exact ⟨_, hid, (ha.threads _ _).mpr ⟨hlt, hlive, rfl⟩⟩

theorem Linked.exitsFree_iff (hs : Linked s a) : s.ExitsFree m ↔ a.ExitsFree m := by
  rw [State.ExitsFree, hs.core]
  rfl

/-- In a run in which no thread that holds a lock exits, the locks have their owners. -/
theorem State.owned_of_reaches
    (hrun : Library.Machine.Reaches State.ExitsFree State.step State.init s)
    (hlive : s.core.halted = false) : ∃ a, Linked s a ∧ a.Ordered ∧ a.Owned :=
  (Linked.reaches (I := Ideal.Owned)
    (fun _ _ _ _ hlinked ha howned hfree htransition ↦
      howned.transition ha (hlinked.exitsFree_iff.mp hfree) htransition)
    (fun _ _ hlock ↦ by cases hlock) hrun).resolve_left (by simp [hlive])

/-- In every run in which no thread that holds a lock exits, a lock that is taken names a thread
that has not exited, the one that took it; only that thread passes the assertion of `lock_release`
and `cv_wait`; and the next move leaves it so if and only if it is not the exit of a thread that
holds a lock. -/
theorem held_lock_has_live_owner
    (hrun : Library.Machine.Reaches State.ExitsFree State.step State.init s)
    (hlive : s.core.halted = false) :
    s.Owned ∧
    (∀ x, s.holdsLock x = some true →
      ∃ k, s.core.locks x = some k ∧ k.locked = true ∧ k.holder = s.core.current) ∧
    ∀ m t, s.step m = some t → t.core.halted = false → (t.Owned ↔ s.ExitsFree m) := by
  obtain ⟨a, hlinked, ha, howned⟩ := State.owned_of_reaches hrun hlive
  refine ⟨(hlinked.owned_iff ha).mpr howned, fun x hheld ↦ ?_, fun m t hstep hlive' ↦ ?_⟩
  · obtain ⟨k, old, rest, hready, hlock, hlocked, hthread⟩ := hlinked.holdsLock hheld
    rw [hlinked.core]
    obtain ⟨hlt, hholder, hid⟩ := howned x k hlock hlocked
    obtain ⟨hlt', hrunning⟩ := ha.current_live
    refine ⟨k, hlock, hlocked, ha.eq_of_id_eq hlt hholder hlt' hrunning ?_⟩
    rw [ha.eq_current hready] at hthread
    exact Int.ofNat_inj.mp (hid.symm.trans hthread)
  · rcases hlinked.step_refines ha.separate (ha.unused _ (Nat.le_refl _)) hstep with
      hend | ⟨b, htransition, hb⟩
    · exact absurd (hend.symm.trans hlive') (by simp)
    rw [hb.owned_iff (ha.transition htransition), hlinked.exitsFree_iff]
    exact ⟨fun h ↦ h.exitsFree ha htransition, fun h ↦ howned.transition ha h htransition⟩

/-- For a thread that exits it is enough to look at the locks there are. -/
theorem State.Reachable.exitsFree (hs : s.Reachable) (hlive : s.core.halted = false)
    (hfree : s.core.self.todo.head? = some .exit → ∀ x < s.core.objects,
      (s.core.locks x).all fun k ↦ !k.locked || k.holder != s.core.current) : s.ExitsFree m := by
  rintro memory rest rfl htodo x k hlock hlocked
  obtain ⟨a, hlinked, ha, -⟩ := hs.mortal hlive
  have hlt : x < s.core.objects := by
    rw [hlinked.core] at hlock ⊢
    exact ha.lock_object x (by simp [hlock])
  have hall := hfree (by rw [htodo, List.head?_cons]) x hlt
  rw [hlock, Option.all_some, hlocked] at hall
  simpa using hall

set_option synthInstance.maxSize 1000 in
/-- A thread is killed and exits, the next one gets its id, and takes a lock: this one is the owner,
and passes the assertion. -/
theorem held_lock_has_live_owner_reused : ∃ s : State,
    Library.Machine.Reaches State.ExitsFree State.step State.init s ∧ s.core.current = 2 ∧
      (s.core.tcb 1).id = 1 ∧ s.core.Killed 1 ∧ (s.core.tcb 2).id = 1 ∧ s.Owned ∧
      ∃ k, s.core.locks 0 = some k ∧ k.locked = true ∧ k.holder = 2 := by
  have hrun : (Library.Machine.run (fun s _ ↦ s.core.halted = false ∧
      (s.core.self.todo.head? = some .exit → ∀ x < s.core.objects,
        (s.core.locks x).all fun k ↦ !k.locked || k.holder != s.core.current)) State.step State.init
      (State.script [(.lockCreate, 3), (.threadCreate, 3), (.threadKill 1, 3),
        (.threadYield threadAny, 15), (.threadCreate, 3), (.threadYield threadAny, 8),
        (.lockAcquire 0, 3)])).map (fun s ↦ (s.core.halted, s.core.current, (s.core.tcb 1).id,
          (s.core.tcb 1).status, (s.core.tcb 2).id, s.holdsLock 0)) =
      some (false, 2, 1, .exited, 1, some true) := by
    decide +kernel
  obtain ⟨s, hs, hshape⟩ := Option.map_eq_some_iff.mp hrun
  simp only [Prod.mk.injEq] at hshape
  obtain ⟨hlive, hcurrent, hid, hkilled, hreused, hheld⟩ := hshape
  have hreach : Library.Machine.Reaches State.ExitsFree State.step State.init s :=
    (Library.Machine.Reaches.of_run hs).mono_of (I := State.Reachable)
      (fun _ m _ hu _ hstep ↦ hu.tail ⟨m, trivial, hstep⟩)
      (fun _ _ hu hguard ↦ hu.exitsFree hguard.1 hguard.2) Relation.ReflTransGen.refl
  obtain ⟨howned, hholder, -⟩ := held_lock_has_live_owner hreach hlive
  exact ⟨s, hreach, hcurrent, hid, hkilled, hreused, howned, hcurrent ▸ hholder 0 hheld⟩

/-- The move is no call of `thread_exit` by a thread that holds a lock. -/
def State.CallsExitFree (s : State) (m : Move) : Prop :=
  m = .call .threadExit → ∀ x k, s.core.locks x = some k → k.locked = true →
    k.holder ≠ s.core.current

set_option synthInstance.maxSize 1000 in
/-- A thread is killed while it holds a lock, and the next thread gets its id: this one passes the
assertion. -/
theorem held_lock_has_dead_owner : ∃ s : State,
    Library.Machine.Reaches State.CallsExitFree State.step State.init s ∧ s.core.halted = false ∧
      ¬s.Owned ∧ ∃ k, s.holdsLock 0 = some true ∧ s.core.locks 0 = some k ∧
        k.holder ≠ s.core.current := by
  have hrun : (Library.Machine.run (fun _ m ↦ m ≠ .call .threadExit) State.step State.init
      (State.script [(.lockCreate, 3), (.threadCreate, 3), (.threadYield threadAny, 8),
        (.lockAcquire 0, 3), (.threadYield threadAny, 8), (.threadKill 1, 3),
        (.threadYield threadAny, 14), (.threadCreate, 3), (.threadYield threadAny, 8)])).map
          (fun s ↦
          (s.core.halted, s.core.current, s.core.threads 1, s.holdsLock 0,
            (s.core.locks 0).map fun k ↦ (k.locked, k.thread, k.holder))) =
      some (false, 2, some 2, some true, some (true, 1, 1)) := by
    decide +kernel
  obtain ⟨s, hs, hshape⟩ := Option.map_eq_some_iff.mp hrun
  simp only [Prod.mk.injEq] at hshape
  obtain ⟨hlive, hcurrent, hthread, hheld, hlock⟩ := hshape
  obtain ⟨k, hk, hfields⟩ := Option.map_eq_some_iff.mp hlock
  simp only [Prod.mk.injEq] at hfields
  obtain ⟨hlocked, hid, hholder⟩ := hfields
  refine ⟨s, (Library.Machine.Reaches.of_run hs).mono fun _ _ hm heq ↦ absurd heq hm, hlive,
    fun howned ↦ ?_, k, hheld, hk, by rw [hholder, hcurrent]; decide⟩
  obtain ⟨id, hname, hthread'⟩ := howned 0 k hk hlocked
  obtain rfl : 1 = id := Int.ofNat_inj.mp (hid.symm.trans hname)
  rw [hthread, hholder] at hthread'
  exact absurd hthread' (by decide)

end OperatingSystems.Threads
