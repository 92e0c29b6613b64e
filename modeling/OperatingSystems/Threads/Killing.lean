import OperatingSystems.Threads.Interrupts

/-!
# Killed threads

`thread_kill` only marks a thread: its status becomes `THREAD_EXITED`, and the thread exits at the
next test of the status. A thread that does not run stands right before such a test (`Paused`), and
no other status replaces `THREAD_EXITED`. So the statements a killed thread has left lead to
`thread_exit` before they reach its own code (`Doomed`), in every interleaving
(`Ideal.Mortal.transition`).
-/

set_option autoImplicit false
set_option relaxedAutoImplicit false

namespace OperatingSystems.Threads

open State (Move Memory)

variable {a b : Ideal} {c : Core} {i : Instr} {m : Move} {s t : State} {g h : ℕ}
  {todo rest extra : List Instr}

/-- The statements lead to `thread_exit` if the thread has been killed: up to the test of the status
they are statements of `thread_stub` and of `thread_yield`. -/
def Doomed : List Instr → Prop
  | .checkExited :: _ | .exit :: _ => True
  | .on :: rest | .off :: rest | .set :: rest | .sigreturn :: rest => Doomed rest
  | .yieldTo want :: rest => want = threadAny ∧ Doomed rest
  | _ => False

/-- The thread goes on with the test of its status, at the start of `thread_stub` or of the resume
path. -/
def Paused (todo : List Instr) : Prop :=
  ∃ rest, todo = resumeCode ++ rest ∨ todo = stubCode ++ rest

theorem Paused.doomed (h : Paused todo) : Doomed todo := by
  obtain ⟨rest, rfl | rfl⟩ := h <;> trivial

theorem Doomed.ne_nil (h : Doomed todo) : todo ≠ [] := by
  rintro rfl
  exact h

/-- Assumes: a statement other than the test of the status. What is left after it is still doomed.
-/
theorem Doomed.expands (h : Doomed (i :: rest)) (hi : i ≠ .checkExited) (hexit : i ≠ .exit)
    (hextra : Control.Expands i extra) : Doomed (extra ++ rest) := by
  cases hextra with
  | straight =>
    cases i with
    | on | off | set | sigreturn => exact h
    | yieldTo want => exact h.2
    | checkExited => exact absurd rfl hi
    | exit => exact absurd rfl hexit
    | _ => exact h.elim
  | yields | sleeps => trivial
  | waits | blocks | clears => exact h.elim

/-! ### Marks -/

namespace Core

/-- The thread has been killed. -/
def Killed (c : Core) (h : ℕ) : Prop := (c.tcb h).status = .exited

theorem killed_modify (c : Core) (h g : ℕ) {f : Thread → Thread}
    (hf : ∀ t, (f t).status = t.status) : (c.modify h f).Killed g ↔ c.Killed g := by
  simp only [Killed, modify, Function.update_apply]
  split_ifs with hg
  · rw [hf, hg]
  · rfl

theorem killed_setThreadStatus (c : Core) (h g : ℕ) {status : Status} (hstatus : status ≠ .exited) :
    (c.setThreadStatus h status).Killed g ↔ c.Killed g := by
  simp only [Killed, setThreadStatus, modify, Function.update_apply]
  split_ifs with hg hexited
  · rw [hg]
  · simp [hg, hexited, hstatus]
  · rfl

theorem killed_kill (c : Core) (h g : ℕ) :
    (c.setThreadStatus h .exited).Killed g ↔ g = h ∨ c.Killed g := by
  simp only [Killed, setThreadStatus, modify, Function.update_apply]
  split_ifs with hg hexited
  · simp [hg, hexited]
  · simp [hg]
  · simp [hg]

theorem killed_wakeAll (c : Core) (w : WaitQueue) (moved : List ℕ) (g : ℕ) :
    (c.wakeAll w moved).Killed g ↔ c.Killed g := by
  induction moved generalizing c with
  | nil => exact Iff.rfl
  | cons h moved ih =>
    refine (ih (c.wake w h)).trans ?_
    exact (killed_modify _ h g (f := fun t ↦ { t with woken := w :: t.woken }) fun _ ↦ rfl).trans
      (c.killed_setThreadStatus h g (by simp))

theorem killed_setRet (c : Core) (r : ℤ) (g : ℕ) : (c.setRet r).Killed g ↔ c.Killed g :=
  c.killed_modify _ g fun _ ↦ rfl

theorem killed_push (c : Core) (extra : List Instr) (g : ℕ) :
    (c.push extra).Killed g ↔ c.Killed g :=
  c.killed_modify _ g fun _ ↦ rfl

theorem killed_interruptsOff (c : Core) (g : ℕ) : c.interruptsOff.Killed g ↔ c.Killed g :=
  c.killed_modify c.current g (f := fun t ↦ { t with saved := c.flag :: t.saved }) fun _ ↦ rfl

theorem killed_abandon (c : Core) (g : ℕ) : c.abandon.Killed g ↔ c.Killed g :=
  c.killed_modify _ g fun _ ↦ rfl

theorem killed_getcontext (c : Core) (g : ℕ) : c.getcontext.Killed g ↔ c.Killed g :=
  c.killed_modify _ g fun _ ↦ rfl

theorem killed_stamp (c : Core) (g : ℕ) : c.stamp.Killed g ↔ c.Killed g :=
  c.killed_modify c.current g (f := fun t ↦ { t with since := c.clock }) fun _ ↦ rfl

theorem killed_begin (c : Core) (k : Call) (g : ℕ) : (c.begin k).Killed g ↔ c.Killed g :=
  c.killed_modify _ g fun _ ↦ rfl

theorem killed_exitSwitch (c : Core) (old new : ℕ) (moved : List ℕ) (g : ℕ) :
    (c.exitSwitch old new moved).Killed g ↔ c.Killed g :=
  (killed_modify _ old g (f := fun t ↦ { t with exited := true }) fun _ ↦ rfl).trans
    (killed_wakeAll _ _ _ g)

theorem killed_yieldSwitch (c : Core) (old want g : ℕ) :
    (c.yieldSwitch old want).Killed g ↔ c.Killed g :=
  ((killed_setRet _ _ g).trans (killed_getcontext _ g)).trans
    (c.killed_setThreadStatus old g (by simp))

theorem killed_sleepSwitch (c : Core) (old new g : ℕ) :
    (c.sleepSwitch old new).Killed g ↔ c.Killed g :=
  (((killed_setRet _ _ g).trans (killed_stamp _ g)).trans (killed_getcontext _ g)).trans
    (c.killed_setThreadStatus old g (by simp))

theorem todo_yieldSwitch (c : Core) (old want : ℕ) :
    ((c.yieldSwitch old want).tcb c.current).todo = resumeCode ++ (c.tcb c.current).todo := by
  have hcontrol := congrArg Control.todo (c.control_yieldSwitch old want c.current)
  rwa [if_pos rfl] at hcontrol

theorem todo_sleepSwitch (c : Core) (old new : ℕ) :
    ((c.sleepSwitch old new).tcb c.current).todo = resumeCode ++ (c.tcb c.current).todo := by
  have hcontrol := congrArg Control.todo (c.control_sleepSwitch old new c.current)
  rwa [if_pos rfl] at hcontrol

theorem todo_abandon (c : Core) : (c.abandon.tcb c.current).todo = [.exit] :=
  congrArg Control.todo c.control_abandon_self

theorem todo_finish (c : Core) (h : ℕ) : ((c.finish h).tcb h).todo = (c.tcb h).todo := by
  simp only [finish, modify, Function.update_self]
  split_ifs <;> rfl

theorem killed_finish (c : Core) (h g : ℕ) : (c.finish h).Killed g ↔ c.Killed g :=
  c.killed_modify _ g fun t ↦ by split_ifs <;> rfl

end Core

namespace Ideal

/-- A statement marks no thread but the one it kills, which is not the running one, and takes no
mark away. -/
theorem Executes.killed (ha : a.Ordered) (hexec : a.Executes i b) (hg : g < a.core.allocated) :
    (a.core.Killed g → b.core.Killed g) ∧
      (b.core.Killed g → a.core.Killed g ∨ g ≠ a.core.current) := by
  have hiff : (b.core.Killed g ↔ a.core.Killed g) → (a.core.Killed g → b.core.Killed g) ∧
      (b.core.Killed g → a.core.Killed g ∨ g ≠ a.core.current) :=
    fun h ↦ ⟨h.mpr, fun hb ↦ .inl (h.mp hb)⟩
  cases hexec with
  | off => exact hiff (Core.killed_interruptsOff _ _)
  | set hset =>
    rw [Core.interruptsSet] at hset
    split at hset
    · cases hset
    · rename_i f saved _
      obtain rfl := Option.some.inj hset
      exact hiff (a.core.killed_modify a.core.current g (f := fun t ↦ { t with saved := saved })
        fun _ ↦ rfl)
  | on | sigreturn | cvDestroy | checkPasses | assertHeld | lockDestroy | acquire =>
    exact hiff Iff.rfl
  | createNomore | createNomemory | yieldNone | yieldInvalid | sleepInvalid | sleepNone
  | wakeupNone | killFails | waitFails | waitReturn => exact hiff (Core.killed_setRet _ _ _)
  | @create id =>
    refine hiff ((Core.killed_setRet _ _ _).trans ?_)
    simp [Core.Killed, Core.addThread, Function.update_of_ne (Nat.ne_of_lt hg)]
  | yieldSelf | yieldSwitch => exact hiff (Core.killed_yieldSwitch _ _ _ _)
  | sleep => exact hiff (Core.killed_sleepSwitch _ _ _ _)
  | wakeup => exact hiff ((Core.killed_setRet _ _ _).trans (Core.killed_wakeAll _ _ _ _))
  | @kill tid old h rest hready hself htid hthread =>
    rw [mapCore_core, Core.killed_setRet, Core.killed_kill]
    refine ⟨.inr, fun hor ↦ hor.symm.imp_right ?_⟩
    rintro rfl heq
    have hid := ((ha.threads _ _).mp hthread).2.2
    rw [heq, ← ha.eq_current hready] at hid
    omega
  | wait | clear | acquireBlocked => exact hiff (Core.killed_push _ _ _)
  | checkExits => exact hiff (Core.killed_abandon _ _)
  | setRunning => exact hiff (Core.killed_setThreadStatus _ _ _ (by simp))
  | exit => exact hiff (Core.killed_exitSwitch _ _ _ _ _)
  | release =>
    exact hiff ((Core.killed_wakeAll _ _ _ _).trans (Core.killed_interruptsOff _ _))
  | lockCreate | cvCreate | queueCreate => exact hiff (Core.killed_setRet _ _ _)

/-- A move marks no thread but one that does not run, and takes no mark away. -/
theorem Transition.killed (ha : a.Ordered) (htransition : a.Transition m b)
    (hg : g < a.core.allocated) :
    (a.core.Killed g → b.core.Killed g) ∧
      (b.core.Killed g → a.core.Killed g ∨ g ≠ a.core.current) := by
  cases htransition with
  | timer =>
    have hiff : a.core.interrupt.Killed g ↔ a.core.Killed g := Core.killed_push _ _ _
    exact ⟨hiff.mpr, fun hb ↦ .inl (hiff.mp hb)⟩
  | @call k =>
    have hiff := a.core.killed_begin k g
    exact ⟨hiff.mpr, fun hb ↦ .inl (hiff.mp hb)⟩
  | interrupts => exact ⟨id, .inl⟩
  | @instr _ i rest b htodo hexec =>
    have hpopped : (a.popped rest).core.Killed g ↔ a.core.Killed g :=
      a.core.killed_modify a.core.current g (f := fun t ↦ { t with todo := rest }) fun _ ↦ rfl
    obtain ⟨hkept, hfrom⟩ := hexec.killed (g := g) (ha.popped rest)
      (by rwa [(a.popped_frame rest).allocated])
    rw [mapCore_core, Core.killed_finish]
    exact ⟨fun hkilled ↦ hkept (hpopped.mpr hkilled), fun hkilled ↦ (hfrom hkilled).imp_left
      hpopped.mp⟩

/-- A statement after which another thread runs leaves the thread that executed it at the start of
the resume path, or it has exited. -/
theorem Executes.switched (ha : a.Ordered) (hexec : a.Executes i b)
    (hlive : (b.core.tcb a.core.current).exited = false)
    (hne : b.core.current ≠ a.core.current) :
    ∃ rest, (b.core.tcb a.core.current).todo = resumeCode ++ rest := by
  have hsame : ∀ {P : Prop}, b.core.current = a.core.current → P := fun h ↦ absurd h hne
  cases hexec with
  | set hset =>
    rw [Core.interruptsSet] at hset
    split at hset
    · cases hset
    · obtain rfl := Option.some.inj hset
      exact hsame rfl
  | wakeup | release =>
    refine hsame ?_
    rw [mapCore_core, Core.wakeAll_eq]
    rfl
  | yieldSelf | yieldSwitch => exact ⟨_, a.core.todo_yieldSwitch _ _⟩
  | sleep => exact ⟨_, a.core.todo_sleepSwitch _ _⟩
  | exit hready hrest =>
    have hexited := (Executes.exit hready hrest).threads ha |>.2.2.2 rfl
    exact absurd (hexited.symm.trans hlive) (by simp)
  | _ => exact hsame rfl

theorem Transition.switched (ha : a.Ordered) (htransition : a.Transition m b)
    (hlive : (b.core.tcb a.core.current).exited = false)
    (hne : b.core.current ≠ a.core.current) :
    ∃ rest, (b.core.tcb a.core.current).todo = resumeCode ++ rest := by
  cases htransition with
  | timer | call | interrupts => exact absurd rfl hne
  | @instr _ i rest b htodo hexec =>
    rw [mapCore_core, (b.core.frame_finish _).exited] at hlive
    obtain ⟨rest', hrest⟩ := hexec.switched (ha.popped rest) hlive hne
    exact ⟨rest', (b.core.todo_finish _).trans hrest⟩

/-! ### The invariant -/

/-- The threads that do not run stand before a test of their status, and the killed ones are
doomed. -/
structure Mortal (a : Ideal) : Prop where
  paused : ∀ g < a.core.allocated, (a.core.tcb g).exited = false → g ≠ a.core.current →
    Paused (a.core.tcb g).todo
  doomed : ∀ g < a.core.allocated, (a.core.tcb g).exited = false → a.core.Killed g →
    Doomed (a.core.tcb g).todo

/-- The statements a killed thread has left after a statement of its own. -/
theorem Executes.doomed (ha : a.Ordered) (hexec : a.Executes i b)
    (hkilled : a.core.Killed a.core.current) (hlive : (b.core.tcb a.core.current).exited = false)
    (hdoomed : Doomed (i :: (a.core.tcb a.core.current).todo)) :
    Doomed (b.core.tcb a.core.current).todo := by
  have hi : i ≠ .exit := fun heq ↦
    absurd ((hexec.threads ha |>.2.2.2 heq).symm.trans hlive) (by simp)
  by_cases hcheck : i = .checkExited
  · subst hcheck
    cases hexec with
    | checkPasses hready hstatus =>
      rw [ha.eq_current hready] at hstatus
      exact absurd hkilled hstatus
    | checkExits =>
      rw [mapCore_core, Core.todo_abandon]
      trivial
  · rcases hexec.control_self hi ha.current_live.1 with ⟨extra, f, saved, hextra, -, hcontrol⟩ |
      ⟨heq, -⟩
    · have htodo : (b.core.tcb a.core.current).todo = extra ++ (a.core.tcb a.core.current).todo :=
        congrArg Control.todo hcontrol
      rw [htodo]
      exact hdoomed.expands hcheck hi hextra
    · exact absurd heq hcheck

/-- Every move keeps the killed threads doomed. -/
theorem Mortal.transition (hmortal : a.Mortal) (ha : a.Ordered) (htransition : a.Transition m b) :
    b.Mortal := by
  obtain ⟨-, hold, hcases⟩ := htransition.threads ha
  have hlive : ∀ g < a.core.allocated, (b.core.tcb g).exited = false →
      (a.core.tcb g).exited = false := fun g hg hexited ↦ by
    rw [← Bool.not_eq_true]
    exact fun hx ↦ absurd (((hold g hg).2 hx).symm.trans hexited) (by simp)
  have hother : ∀ g < a.core.allocated, g ≠ a.core.current →
      (b.core.tcb g).todo = (a.core.tcb g).todo := fun g hg hne ↦
    congrArg Control.todo (htransition.control_other ha hne hg)
  refine ⟨fun g hg hexited hne ↦ ?_, fun g hg hexited hkilled ↦ ?_⟩
  · rcases hcases g hg with hlt | ⟨-, f, hcontrol⟩
    · by_cases hcurrent : g = a.core.current
      · subst hcurrent
        obtain ⟨rest, hrest⟩ := htransition.switched ha hexited hne.symm
        exact ⟨rest, .inl hrest⟩
      · rw [hother g hlt hcurrent]
        exact hmortal.paused g hlt (hlive g hlt hexited) hcurrent
    · have htodo : (b.core.tcb g).todo = stubCode := congrArg Control.todo hcontrol
      exact ⟨[], .inr (by rw [htodo, List.append_nil])⟩
  · rcases hcases g hg with hlt | ⟨-, f, hcontrol⟩
    · by_cases hcurrent : g = a.core.current
      · subst hcurrent
        have hmarked := ((htransition.killed ha hlt).2 hkilled).resolve_right (fun h ↦ h rfl)
        have hdoomed := hmortal.doomed _ hlt (hlive _ hlt hexited) hmarked
        cases htransition with
        | timer =>
          have htodo : (a.core.interrupt.tcb a.core.current).todo =
              handlerCode ++ (a.core.tcb a.core.current).todo := by
            simp [Core.interrupt, Core.push, Core.modify]
          rw [mapCore_core, htodo]
          exact ⟨rfl, hdoomed⟩
        | call htodo => exact absurd htodo hdoomed.ne_nil
        | interrupts htodo => exact absurd htodo hdoomed.ne_nil
        | @instr _ i rest b htodo hexec =>
          have hpopped : ((a.popped rest).core.tcb a.core.current).todo = rest := by
            simp [popped, Core.modify]
          rw [mapCore_core, (b.core.frame_finish _).exited] at hexited
          rw [show (a.core.tcb a.core.current).todo = i :: rest from htodo, ← hpopped] at hdoomed
          have hresult := hexec.doomed (ha.popped rest)
            ((a.core.killed_modify a.core.current _ (f := fun t ↦ { t with todo := rest })
              fun _ ↦ rfl).mpr hmarked) hexited hdoomed
          rwa [mapCore_core, Core.todo_finish]
      · rw [hother g hlt hcurrent]
        exact (hmortal.paused g hlt (hlive g hlt hexited) hcurrent).doomed
    · have htodo : (b.core.tcb g).todo = stubCode := congrArg Control.todo hcontrol
      rw [htodo]
      trivial

theorem init_mortal : init.Mortal where
  paused g hg _ hne := absurd (Nat.lt_one_iff.mp hg) hne
  doomed g _ _ hkilled := by cases hkilled

end Ideal

/-- In every state that can be reached before the process ends, the killed threads are doomed. -/
theorem State.Reachable.mortal (hs : s.Reachable) (hlive : s.core.halted = false) :
    ∃ a, Linked s a ∧ a.Ordered ∧ a.Mortal := by
  rcases Linked.reaches (fun _ _ _ _ _ ha hI _ htransition ↦ hI.transition ha htransition)
    Ideal.init_mortal hs with hhalted | h
  · exact absurd (hhalted.symm.trans hlive) (by simp)
  · exact h

/-- A mark is kept in every run. -/
theorem State.Reachable.killed (hs : s.Reachable)
    (hrun : Library.Machine.Reaches (fun _ _ ↦ True) State.step s t)
    (hkilled : s.core.Killed h) (hallocated : h < s.core.allocated) :
    t.Reachable ∧ (t.core.halted = true ∨ t.core.Killed h ∧ h < t.core.allocated) := by
  refine Library.Machine.Reaches.invariant
    (I := fun t ↦ t.Reachable ∧ (t.core.halted = true ∨ t.core.Killed h ∧ h < t.core.allocated))
    ?_ hrun ⟨hs, .inr ⟨hkilled, hallocated⟩⟩
  rintro u m v ⟨hu, hcases⟩ - hstep
  refine ⟨Relation.ReflTransGen.tail hu ⟨m, trivial, hstep⟩, ?_⟩
  have hlive := State.halted_of_step hstep
  obtain ⟨hmarked, hlt⟩ := hcases.resolve_left (by simp [hlive])
  obtain ⟨a, hlinked, ha, -⟩ := hu.mortal hlive
  rw [hlinked.core] at hmarked hlt
  rcases hlinked.step_refines ha.separate (ha.unused _ (Nat.le_refl _)) hstep with
    hend | ⟨b, htransition, hb⟩
  · exact .inl hend
  · rw [hb.core]
    exact .inr ⟨(htransition.killed ha hlt).1 hmarked,
      Nat.lt_of_lt_of_le hlt (htransition.threads ha).1⟩

/-- Assumes: the running thread executes the statement of `thread_kill(tid)` and stores the result
`tid`, not an error. The thread with that id is another one, it is marked, and in every state that
can be reached from there, until the process ends, it stays marked, and when it runs, its statements
lead to `thread_exit` without reaching its own code, where alone it could make a call. -/
theorem killed_runs_no_further (hs : s.Reachable) {tid : ℤ}
    (htodo : s.core.self.todo = .kill tid :: rest) {memory : Memory}
    (hstep : s.step (.instr memory) = some t) (htid : 0 ≤ tid)
    (hreturn : (t.core.tcb s.core.current).ret = tid) :
    ∃ h, s.core.threads tid.toNat = some h ∧ h ≠ s.core.current ∧
      ∀ u, Library.Machine.Reaches (fun _ _ ↦ True) State.step t u → u.core.halted = false →
        u.core.Killed h ∧ (u.core.current = h → Doomed u.core.self.todo ∧
          (∀ k, u.step (.call k) = none) ∧ ∀ e, u.step (.interrupts e) = none) := by
  have hlive := State.halted_of_step hstep
  obtain ⟨a, hlinked, ha, -⟩ := hs.mortal hlive
  have ht : t.Reachable := Relation.ReflTransGen.tail hs ⟨_, trivial, hstep⟩
  rw [State.step, htodo] at hstep
  dsimp only at hstep
  rw [if_neg (by simp [hlive])] at hstep
  obtain ⟨u, hexec, heq⟩ := Option.bind_eq_some_iff.mp hstep
  obtain rfl := Option.some.inj heq
  have hpopped := hlinked.mapCore (f := (·.modify s.core.current fun t ↦ { t with todo := rest }))
    (by rw [hlinked.core]; exact a.popped_frame rest)
  rw [hlinked.core] at hexec hpopped hreturn ⊢
  obtain ⟨b, hb, hu⟩ := hpopped.threadKill hexec
  have hret : ((u.core.finish a.core.current).tcb a.core.current).ret =
      (b.core.tcb a.core.current).ret := by
    rw [hu.core]
    simp only [Core.finish, Core.modify, Function.update_self]
    split_ifs <;> rfl
  rw [State.mapCore, hret] at hreturn
  cases hb with
  | killFails =>
    -- The error is not an id.
    have hinvalid : threadInvalid = tid := by
      simpa [Core.setRet, Core.modify] using hreturn
    simp only [threadInvalid] at hinvalid
    omega
  | @kill _ old h _ hready hself hrange hthread =>
    have hold := (ha.popped rest).eq_current hready
    obtain ⟨hlt, -, hid⟩ := ((ha.popped rest).threads _ _).mp hthread
    refine ⟨h, hthread, fun heq ↦ hself ?_, fun v hv hvlive ↦ ?_⟩
    · rw [hold]
      have hcurrent : ((a.popped rest).core.tcb (a.popped rest).core.current).id = tid.toNat :=
        heq ▸ hid
      have hnat : (tid.toNat : ℤ) = tid := Int.toNat_of_nonneg htid
      exact hnat.symm.trans (congrArg Nat.cast hcurrent.symm)
    have hkilled : (u.mapCore (·.finish a.core.current)).core.Killed h := by
      rw [State.mapCore, Core.killed_finish, hu.core, Ideal.mapCore_core, Core.killed_setRet,
        Core.killed_kill]
      exact .inl rfl
    have hallocated : h < (u.mapCore (·.finish a.core.current)).core.allocated := by
      rw [State.mapCore, (u.core.frame_finish _).allocated, hu.core]
      exact hlt
    obtain ⟨hvreach, hcases⟩ := State.Reachable.killed (by rwa [hlinked.core] at ht) hv hkilled
      hallocated
    obtain ⟨hvkilled, -⟩ := hcases.resolve_left (by simp [hvlive])
    refine ⟨hvkilled, ?_⟩
    rintro rfl
    obtain ⟨a', hlinked', ha', hmortal'⟩ := hvreach.mortal hvlive
    rw [hlinked'.core] at hvkilled
    have hdoomed := hmortal'.doomed _ ha'.current_live.1 ha'.current_live.2 hvkilled
    have hself' : v.core.self.todo = (a'.core.tcb a'.core.current).todo := by
      rw [hlinked'.core]
      rfl
    refine ⟨by rwa [hself'], fun k ↦ ?_, fun e ↦ ?_⟩ <;>
      exact if_neg fun hidle ↦ hdoomed.ne_nil (hself'.symm.trans hidle.1)

set_option synthInstance.maxSize 1000 in
/-- The first thread creates another one and kills it before it has started. -/
theorem killed_runs_no_further_created : ∃ s t : State, s.Reachable ∧
    s.step (.instr ⟨3, 0⟩) = some t ∧ ∃ h, s.core.threads 1 = some h ∧ h ≠ s.core.current ∧
      ∀ u, Library.Machine.Reaches (fun _ _ ↦ True) State.step t u → u.core.halted = false →
        u.core.Killed h ∧ (u.core.current = h → Doomed u.core.self.todo ∧
          (∀ k, u.step (.call k) = none) ∧ ∀ e, u.step (.interrupts e) = none) := by
  have hrun : (Library.Machine.run (fun _ _ ↦ True) State.step State.init
      [.call .threadCreate, .instr ⟨3, 0⟩, .instr ⟨3, 0⟩, .instr ⟨3, 0⟩, .call (.threadKill 1),
        .instr ⟨3, 0⟩]).map (fun s ↦ (s.core.self.todo,
          (s.step (.instr ⟨3, 0⟩)).map fun t ↦ (t.core.tcb s.core.current).ret)) =
      some ([.kill 1, .set], some 1) := by
    decide +kernel
  obtain ⟨s, hs, hshape⟩ := Option.map_eq_some_iff.mp hrun
  obtain ⟨htodo, hnext⟩ := Prod.mk.inj hshape
  obtain ⟨t, ht, hreturn⟩ := Option.map_eq_some_iff.mp hnext
  have hreach : s.Reachable := Library.Machine.Reaches.of_run hs
  exact ⟨s, t, hreach, ht, killed_runs_no_further hreach htodo ht (by decide) hreturn⟩

end OperatingSystems.Threads
