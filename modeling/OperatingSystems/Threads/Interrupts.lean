import OperatingSystems.Threads.Control

/-!
# The interrupt flag

Every call saves the flag with `interrupts_off` and restores it with `interrupts_set`, and the calls
nest. `Balanced` executes the statements a thread has left as far as the flag and the saved values
go: they use up what has been saved, they work on the queues only while a value is saved, they set
the flag unconditionally only while none is, and at the end of a call the flag is what it was when
the call was made. `Masked` says that the flag is clear while a value is saved, and that all saved
values but the first are clear.

Both are properties of control states that every thread keeps by its own steps. Because a context
is resumed with the mask it was saved with, they hold of every thread in every interleaving
(`Reachable.orderly`), and a call that returns has restored the flag (`interrupts_restored`).
-/

set_option autoImplicit false
set_option relaxedAutoImplicit false

namespace OperatingSystems.Threads

open State (Move Memory)

variable {a b : Ideal} {i : Instr} {m : Move} {s t : State} {f : Bool} {saved : List Bool}
  {want : Option Bool} {rest extra : List Instr}

/-- A call executes these statements between its `interrupts_off` and its `interrupts_set`. -/
def Instr.guarded : Instr → Bool
  | .create | .yieldTo _ | .sleepOn _ | .wakeup _ _ | .kill _ | .waitCheck _ | .waitReturn _
  | .lockCreate | .lockDestroy _ | .acquire _ | .release _ | .cvCreate | .cvDestroy _
  | .assertHeld _ _ => true
  | .off | .set | .on | .sigreturn | .checkExited | .setRunning | .clear _ | .exit
  | .queueCreate => false

/-- These statements set the flag, whatever has been saved. -/
def Instr.enables : Instr → Bool
  | .on | .sigreturn => true
  | _ => false

namespace Control

/-- The statements, executed from the flag and the saved values, use up the saved values and end
with the flag that is wanted. -/
def Balanced (want : Option Bool) : Bool → List Bool → List Instr → Prop
  | f, saved, [] => saved = [] ∧ ∀ e, want = some e → f = e
  | f, saved, i :: rest =>
    i = .exit ∨ (i.guarded = true → saved ≠ []) ∧ (i.enables = true → saved = []) ∧
      ∃ f' saved', flagEffect i f saved = some (f', saved') ∧ Balanced want f' saved' rest

/-- The flag is clear while a value is saved, and so are all saved values but the first. -/
def Masked : Bool → List Bool → Prop
  | _, [] => True
  | f, e :: saved => f = false ∧ Masked e saved

theorem Masked.flag_eq (h : Masked f saved) (hsaved : saved ≠ []) : f = false := by
  cases saved with
  | nil => exact absurd rfl hsaved
  | cons e saved => exact h.1

theorem Masked.saved_eq (h : Masked true saved) : saved = [] := by
  by_contra hsaved
  exact absurd (h.flag_eq hsaved) (by simp)

/-- A statement keeps the flag clear while a value is saved. -/
theorem Masked.effect {f' : Bool} {saved' : List Bool} (h : Masked f saved)
    (henables : i.enables = true → saved = [])
    (heffect : flagEffect i f saved = some (f', saved')) : Masked f' saved' := by
  cases i with
  | off | release =>
    obtain ⟨rfl, rfl⟩ := Prod.mk.inj (Option.some.inj heffect)
    exact ⟨rfl, h⟩
  | set =>
    cases saved with
    | nil => cases heffect
    | cons e saved =>
      obtain ⟨rfl, rfl⟩ := Prod.mk.inj (Option.some.inj heffect)
      exact h.2
  | on | sigreturn =>
    obtain ⟨rfl, rfl⟩ := Prod.mk.inj (Option.some.inj heffect)
    rw [henables rfl]
    trivial
  | _ =>
    obtain ⟨rfl, rfl⟩ := Prod.mk.inj (Option.some.inj heffect)
    exact h

/-- The statements after one whose effect is none on the flag. -/
theorem balanced_neutral (heffect : flagEffect i f saved = some (f, saved))
    (hguarded : i.guarded = true → saved ≠ []) (henables : i.enables = false)
    (h : Balanced want f saved rest) : Balanced want f saved (i :: rest) :=
  .inr ⟨hguarded, fun h ↦ absurd (henables.symm.trans h) (by simp), f, saved, heffect, h⟩

/-- The resume path does nothing to the flag. -/
theorem Balanced.resume (h : Balanced want f saved rest) :
    Balanced want f saved (resumeCode ++ rest) :=
  balanced_neutral rfl (by simp [Instr.guarded]) rfl
    (balanced_neutral rfl (by simp [Instr.guarded]) rfl
      (balanced_neutral rfl (by simp [Instr.guarded]) rfl h))

/-- A call of `thread_sleep` inside of another call restores the flag. -/
theorem Balanced.sleep (h : Balanced want f saved rest) (w : WaitQueue) :
    Balanced want f saved (sleepCode w ++ rest) :=
  .inr ⟨by simp [Instr.guarded], by simp [Instr.enables], false, f :: saved, rfl,
    .inr ⟨by simp, by simp [Instr.enables], false, f :: saved, rfl,
      .inr ⟨by simp [Instr.guarded], by simp [Instr.enables], f, saved, rfl, h⟩⟩⟩

/-- The statements that a statement may put in front of the others restore the flag. -/
theorem Balanced.expands (h : Balanced want f saved rest) (hextra : Expands i extra)
    (hguarded : i.guarded = true → saved ≠ []) : Balanced want f saved (extra ++ rest) := by
  cases hextra with
  | straight => exact h
  | yields | sleeps => exact h.resume
  | waits tid =>
    rw [List.append_assoc]
    exact Balanced.sleep (balanced_neutral rfl (fun _ ↦ hguarded rfl) rfl h) _
  | blocks l =>
    rw [List.append_assoc]
    exact Balanced.sleep (balanced_neutral rfl (fun _ ↦ hguarded rfl) rfl h) _
  | clears => exact balanced_neutral rfl (by simp [Instr.guarded]) rfl h

/-- The handler restores the flag. -/
theorem Balanced.handler (h : Balanced want true [] rest) :
    Balanced want false [] (handlerCode ++ rest) := by
  simp [handlerCode, yieldCode, Balanced, Instr.guarded, Instr.enables, flagEffect, h]

/-- Every call restores the flag. -/
theorem balanced_code (k : Call) (f : Bool) : Balanced (some f) f [] (code k) := by
  cases k <;> simp [code, yieldCode, sleepCode, wakeupCode, acquireCode, releaseCode, Balanced,
    Instr.guarded, Instr.enables, flagEffect]

theorem balanced_stubCode (f : Bool) : Balanced none f [] stubCode := by
  simp [stubCode, Balanced, Instr.guarded, Instr.enables, flagEffect]

/-- The thread is on its way to restore the flag, and interrupts are off where they have to be. -/
structure Orderly (x : Control) : Prop where
  balanced : Balanced (x.call.map fun _ ↦ x.enabled) x.flag x.saved x.todo
  masked : Masked x.flag x.saved
  idle : x.todo = [] → x.call = none

/-- What remains after a statement. -/
theorem Orderly.statement {x : Control} (hx : x.Orderly) (htodo : x.todo = i :: rest)
    (hi : i ≠ .exit) (hextra : Expands i extra) {saved : List Bool}
    (heffect : flagEffect i x.flag x.saved = some (f, saved)) :
    Balanced (x.call.map fun _ ↦ x.enabled) f saved (extra ++ rest) ∧ Masked f saved := by
  have hbalanced := hx.balanced
  rw [htodo] at hbalanced
  obtain ⟨hguarded, henables, f', saved', heffect', hrest⟩ := hbalanced.resolve_left hi
  rw [heffect, Option.some.injEq, Prod.mk.injEq] at heffect'
  obtain ⟨rfl, rfl⟩ := heffect'
  refine ⟨hrest.expands hextra fun hguard ↦ ?_, hx.masked.effect henables heffect⟩
  -- The statements that expand leave the saved values as they are, except `release`.
  have hsaved := hguarded hguard
  cases i <;> simp_all [flagEffect, Instr.guarded]
  obtain ⟨-, rfl⟩ := heffect
  simp

/-- A thread keeps itself orderly. -/
theorem Orderly.step {x y : Control} (hx : x.Orderly) (hstep : Step x y) : y.Orderly := by
  cases hstep with
  | timer hflag =>
    have hbalanced := hx.balanced
    have hmasked := hx.masked
    rw [hflag] at hbalanced hmasked
    have hsaved : x.saved = [] := hmasked.saved_eq
    rw [hsaved] at hbalanced
    exact ⟨by rw [hsaved]; exact hbalanced.handler, by rw [hsaved]; trivial,
      fun htodo ↦ by simp [handlerCode, yieldCode] at htodo⟩
  | @call k htodo =>
    have hbalanced := hx.balanced
    rw [htodo] at hbalanced
    have hsaved : x.saved = [] := hbalanced.1
    exact ⟨by rw [hsaved]; exact balanced_code k _, by rw [hsaved]; trivial,
      fun hcode ↦ by cases k <;> simp [code, yieldCode, sleepCode, wakeupCode, acquireCode,
        releaseCode] at hcode⟩
  | interrupts htodo =>
    have hbalanced := hx.balanced
    rw [htodo] at hbalanced
    have hcall := hx.idle htodo
    refine ⟨?_, by rw [hbalanced.1]; trivial, fun _ ↦ hcall⟩
    rw [htodo, hcall]
    exact ⟨hbalanced.1, by simp⟩
  | instr htodo hi hextra heffect =>
    obtain ⟨hbalanced, hmasked⟩ := hx.statement htodo hi hextra heffect
    rw [finish]
    split_ifs with hnil
    · dsimp only at hnil
      rw [hnil] at hbalanced
      refine ⟨?_, hmasked, fun _ ↦ rfl⟩
      rw [hnil]
      exact ⟨hbalanced.1, by simp⟩
    · exact ⟨hbalanced, hmasked, fun h ↦ absurd h hnil⟩
  | abandon => exact ⟨.inl rfl, trivial, fun htodo ↦ by cases htodo⟩

/-- A thread that is back from its call has restored the flag. -/
theorem Orderly.flag_eq {x y : Control} {k : Call} (hx : x.Orderly) (hstep : Step x y)
    (hcall : x.call = some k) (hback : y.call = none) : y.flag = x.enabled := by
  cases hstep with
  | timer | abandon => simp_all
  | call htodo | interrupts htodo => exact absurd (hcall.symm.trans (hx.idle htodo)) (by simp)
  | instr htodo hi hextra heffect =>
    obtain ⟨hbalanced, -⟩ := hx.statement htodo hi hextra heffect
    rw [finish] at hback ⊢
    split_ifs at hback ⊢ with hnil
    · dsimp only at hnil ⊢
      rw [hnil, hcall] at hbalanced
      exact hbalanced.2 _ rfl
    · exact absurd (hcall.symm.trans hback) (by simp)

end Control

/-- All threads that have not exited are orderly. -/
def Ideal.Orderly (a : Ideal) : Prop :=
  ∀ g < a.core.allocated, (a.core.tcb g).exited = false → (a.core.control g).Orderly

theorem Ideal.Orderly.transition (horderly : a.Orderly) (ha : a.Ordered)
    (htransition : a.Transition m b) : b.Orderly :=
  ha.control_invariant (fun _ _ hx hstep ↦ hx.step hstep)
    (fun f ↦ ⟨Control.balanced_stubCode f, trivial, fun _ ↦ rfl⟩) htransition horderly

theorem Ideal.init_orderly : Ideal.init.Orderly := fun g hg _ ↦ by
  obtain rfl : g = 0 := Nat.lt_one_iff.mp hg
  exact ⟨⟨rfl, by simp [Ideal.init, State.init, Core.control, Thread.start]⟩, trivial, fun _ ↦ rfl⟩

/-- In every state that can be reached before the process ends, the queues are lists in order and
the threads are orderly. -/
theorem State.Reachable.orderly (hs : s.Reachable) (hlive : s.core.halted = false) :
    ∃ a, Linked s a ∧ a.Ordered ∧ a.Orderly := by
  rcases Linked.reaches (fun _ _ _ _ _ ha hI _ htransition ↦ hI.transition ha htransition)
    Ideal.init_orderly hs with hhalted | h
  · exact absurd (hhalted.symm.trans hlive) (by simp)
  · exact h

/-- No move is left after the process has ended. -/
theorem State.halted_of_step (hstep : s.step m = some t) : s.core.halted = false := by
  rw [← Bool.not_eq_true]
  intro hhalted
  cases m <;> simp [State.step, hhalted] at hstep
  split at hstep <;> cases hstep

/-- The move brings the running thread back from a call. -/
def State.Returns (s t : State) (k : Call) : Prop :=
  s.core.self.call = some k ∧ t.core.halted = false ∧ t.core.current = s.core.current ∧
    t.core.self.call = none

/-- In every interleaving of the threads and the timer, a call that returns leaves the interrupt
flag as it was when the call was made, and the timer does not interrupt a thread between the
`interrupts_off` and the last `interrupts_set` of a call. -/
theorem interrupts_restored (hs : s.Reachable) :
    (∀ k t, s.step (.call k) = some t →
      t.core.self.call = some k ∧ t.core.self.enabled = s.core.flag) ∧
    (∀ m k t, s.step m = some t → s.Returns t k → t.core.flag = s.core.self.enabled) ∧
    (s.core.self.saved ≠ [] → s.step .timer = none) := by
  refine ⟨fun k t hcall ↦ ?_, fun m k t hstep hreturns ↦ ?_, fun hsaved ↦ ?_⟩
  · rw [State.step] at hcall
    split_ifs at hcall
    obtain rfl := Option.some.inj hcall
    simp [State.mapCore, Core.begin, Core.self, Core.modify]
  · obtain ⟨hcall, hlive, hcurrent, hback⟩ := hreturns
    obtain ⟨a, hlinked, ha, horderly⟩ := hs.orderly (State.halted_of_step hstep)
    rcases hlinked.step_refines ha.separate (ha.unused _ (Nat.le_refl _)) hstep with
      hend | ⟨b, htransition, hb⟩
    · exact absurd (hend.symm.trans hlive) (by simp)
    rw [hlinked.core] at hcurrent hcall ⊢
    rw [hb.core] at hcurrent hback ⊢
    have hself : b.core.self = b.core.tcb a.core.current := by rw [Core.self, hcurrent]
    have hcontrol := htransition.control_self ha
      (by rw [← hcurrent]; exact (ha.transition htransition).current_live.2)
    have hflag := (horderly _ ha.current_live.1 ha.current_live.2).flag_eq hcontrol hcall
      (by rw [hself] at hback; exact hback)
    have hcontrolFlag : (b.core.control a.core.current).flag = b.core.flag := by
      simp [Core.control, Core.flagOf, hcurrent]
    rw [← hcontrolFlag, hflag]
    rfl
  · rw [State.step]
    refine if_neg fun hboth ↦ ?_
    obtain ⟨a, hlinked, ha, horderly⟩ := hs.orderly (by simpa using hboth.2)
    rw [hlinked.core] at hboth hsaved
    have hmasked := (horderly _ ha.current_live.1 ha.current_live.2).masked.flag_eq hsaved
    have hcontrolFlag : (a.core.control a.core.current).flag = a.core.flag := by
      simp [Core.control, Core.flagOf]
    exact absurd ((hcontrolFlag.symm.trans hmasked).symm.trans hboth.1) (by simp)

set_option synthInstance.maxSize 1000 in
/-- The first thread creates another one: in the middle of the call the timer cannot interrupt it,
and the flag is set again at the end. -/
theorem interrupts_restored_create : ∃ s : State, s.Reachable ∧ s.core.self.saved = [true] ∧
    s.step .timer = none ∧ ∃ t, s.step (.instr ⟨3, 0⟩) = some t ∧
      s.Returns t .threadCreate ∧ t.core.flag = true := by
  have hrun : (Library.Machine.run (fun _ _ ↦ True) State.step State.init
      [.call .threadCreate, .instr ⟨3, 0⟩, .instr ⟨3, 0⟩]).map (fun s ↦
        (s.core.self.saved, s.core.self.enabled, s.core.self.call, s.core.current,
          (s.step (.instr ⟨3, 0⟩)).map fun t ↦
            (t.core.halted, t.core.current, t.core.self.call))) =
      some ([true], true, some .threadCreate, 0, some (false, 0, none)) := by
    decide +kernel
  obtain ⟨s, hs, hshape⟩ := Option.map_eq_some_iff.mp hrun
  simp only [Prod.mk.injEq] at hshape
  obtain ⟨hsaved, henabled, hcall, hcurrent, hnext⟩ := hshape
  obtain ⟨t, ht, hshape⟩ := Option.map_eq_some_iff.mp hnext
  simp only [Prod.mk.injEq] at hshape
  have hreach : s.Reachable := Library.Machine.Reaches.of_run hs
  have hreturns : s.Returns t .threadCreate :=
    ⟨hcall, hshape.1, hshape.2.1.trans hcurrent.symm, hshape.2.2⟩
  obtain ⟨-, hrestored, hquiet⟩ := interrupts_restored hreach
  exact ⟨s, hreach, hsaved, hquiet (by simp [hsaved]), t, ht, hreturns,
    (hrestored _ _ t ht hreturns).trans henabled⟩

end OperatingSystems.Threads
