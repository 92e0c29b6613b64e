import OperatingSystems.Threads.Interrupts
import Mathlib.Algebra.BigOperators.Group.List.Basic
import Mathlib.Tactic

/-!
# Where a thread stands

The statements a thread has left are known up to the resume path. Inside of a call they are the end
of one of the call's `stages`, behind what is left of a resume path; everywhere else they are the
code of a call not yet begun, `thread_stub`, or nothing, behind what is left of the interrupt
handler. The timer does not interrupt a call that has saved the flag, so no handler stands in front
of the end of a stage. A thread keeps itself at such a place (`Located.step`), so that every thread
stands at one in every interleaving (`State.Reachable.located`).
-/

set_option autoImplicit false
set_option relaxedAutoImplicit false

namespace OperatingSystems.Threads

open State (Move Memory)

variable {a b : Ideal} {i j : Instr} {m : Move} {s t : State} {f : Bool} {saved : List Bool}
  {want : Option Bool} {k : Call} {todo l rest extra stage : List Instr}

/-- A statement of a resume path. -/
def Instr.resumes : Instr → Prop
  | .checkExited | .setRunning | .clear _ => True
  | _ => False

/-- A statement after which another thread may run, and the thread go on with its resume path. -/
def Instr.switches : Instr → Prop
  | .yieldTo _ | .sleepOn _ => True
  | _ => False

open Instr in
/-- The statements of a call, and those it comes to when it waits, each behind the statement that
leads there. -/
def stages : Call → List (List Instr)
  | .threadWait tid =>
    [code (.threadWait tid),
      waitCheck tid :: (sleepCode (.thread tid.toNat) ++ [waitReturn tid, set])]
  | .lockAcquire l =>
    [code (.lockAcquire l), acquire l :: (sleepCode (.lock l) ++ [acquire l, set])]
  | .cvWait c l => [code (.cvWait c l), acquire l :: (sleepCode (.lock l) ++ [acquire l, set, set])]
  | k => [code k]

/-- What a thread may have left when it is inside of no function that has saved the flag. -/
def Outside : Option Call → List Instr → Prop
  | none, todo => todo = stubCode ∨ ∀ i ∈ todo, i.resumes
  | some k, todo => todo = code k

/-- The number of values a statement saves. -/
def Instr.saves : Instr → ℤ
  | .off | .release _ => 1
  | .set => -1
  | _ => 0

namespace Control

/-- The places where a thread may stand. -/
inductive Located (x : Control) : Prop
  | outer {r h b : List Instr}
      (htodo : x.todo = r ++ (h ++ b)) (hresume : ∀ i ∈ r, i.resumes)
      (hhandler : h <:+ handlerCode) (hfirst : h = [] → r = [])
      (hflag : h ≠ [] → x.flag = false ∧ ∀ e ∈ x.saved, e = false)
      (hbase : Outside x.call b)
  | inner {r l g : List Instr} {i : Instr} {k : Call}
      (htodo : x.todo = r ++ l) (hresume : ∀ i ∈ r, i.resumes)
      (hswitched : r ≠ [] → i.switches) (hcall : x.call = some k)
      (hstage : g ∈ stages k) (hl : i :: l <:+ g) (hne : l ≠ [])

/-! ### The saved values -/

/-- Statements that do not exit use up exactly the saved values. -/
theorem Balanced.length (h : Balanced want f saved todo) (hexit : .exit ∉ todo) :
    (saved.length : ℤ) + (todo.map Instr.saves).sum = 0 := by
  induction todo generalizing f saved with
  | nil => simp [h.1]
  | cons i rest ih =>
    obtain ⟨-, -, f', saved', heffect, hrest⟩ :=
      h.resolve_left fun heq ↦ hexit (by simp [heq])
    have hsum := ih hrest fun hmem ↦ hexit (List.mem_cons_of_mem i hmem)
    rw [List.map_cons, List.sum_cons]
    cases i with
    | off | release =>
      obtain ⟨-, rfl⟩ := Prod.mk.inj (Option.some.inj heffect)
      simp only [List.length_cons, Instr.saves] at hsum ⊢
      omega
    | set =>
      cases saved with
      | nil => cases heffect
      | cons e saved =>
        obtain ⟨-, rfl⟩ := Prod.mk.inj (Option.some.inj heffect)
        simp only [List.length_cons, Instr.saves] at hsum ⊢
        omega
    | _ =>
      obtain ⟨-, rfl⟩ := Prod.mk.inj (Option.some.inj heffect)
      simp only [Instr.saves] at hsum ⊢
      omega

end Control

/-! ### Stages -/

/-- The property holds of every statement of the list and those after it. -/
def EachEnd (P : Instr → List Instr → Prop) : List Instr → Prop
  | [] => True
  | i :: l => P i l ∧ EachEnd P l

theorem EachEnd.suffix {P : Instr → List Instr → Prop} (h : EachEnd P stage)
    (hl : i :: l <:+ stage) : P i l := by
  induction stage with
  | nil => exact absurd (List.suffix_nil.mp hl) (by simp)
  | cons j stage ih =>
    rcases List.suffix_cons_iff.mp hl with heq | hl
    · obtain ⟨rfl, rfl⟩ := List.cons.inj heq
      exact h.1
    · exact ih h.2 hl

/-- A property of the ends of all stages. -/
theorem of_stage {P : Instr → List Instr → Prop} (h : ∀ stage ∈ stages k, EachEnd P stage)
    (hstage : stage ∈ stages k) (hl : i :: l <:+ stage) : P i l :=
  (h stage hstage).suffix hl

/-- What is left of a stage uses up a saved value, and does not exit. -/
theorem saves_stage (hstage : stage ∈ stages k) (hl : i :: l <:+ stage) (hne : l ≠ []) :
    (l.map Instr.saves).sum < 0 ∧ .exit ∉ l := by
  refine of_stage (P := fun _ l ↦ l ≠ [] → (l.map Instr.saves).sum < 0 ∧ .exit ∉ l) ?_ hstage hl hne
  cases k <;> simp [stages, code, yieldCode, sleepCode, wakeupCode, acquireCode, releaseCode,
    EachEnd, Instr.saves]

/-- After a switch a call restores the flag. -/
theorem switch_stage (hstage : stage ∈ stages k) (hl : i :: l <:+ stage)
    (hi : i.switches) : ∃ r, l = .set :: r := by
  refine of_stage (P := fun i l ↦ i.switches → ∃ r, l = .set :: r) ?_ hstage hl hi
  cases k <;> simp [stages, code, yieldCode, sleepCode, wakeupCode, acquireCode, releaseCode,
    EachEnd, Instr.switches]

/-- No stage clears the exit queue: only a resume path does. -/
theorem clear_stage {pc : ClearPc} (hstage : stage ∈ stages k)
    (hl : i :: .clear pc :: l <:+ stage) :
    False := by
  refine of_stage (P := fun _ l ↦ ∀ pc l', l ≠ .clear pc :: l') ?_ hstage hl pc l rfl
  cases k <;> simp [stages, code, yieldCode, sleepCode, wakeupCode, acquireCode, releaseCode,
    EachEnd]

/-- Where a call of `thread_wait` tests the id. -/
theorem waitCheck_stage {tid : ℤ} (hstage : stage ∈ stages k)
    (hl : i :: .waitCheck tid :: l <:+ stage) : k = .threadWait tid ∧ l = [.set] := by
  refine of_stage (P := fun _ l ↦ ∀ tid l', l = .waitCheck tid :: l' →
    k = .threadWait tid ∧ l' = [.set]) ?_ hstage hl tid l rfl
  cases k <;> simp [stages, code, yieldCode, sleepCode, wakeupCode, acquireCode, releaseCode,
    EachEnd]

/-- Statements that decide what a call returns, but for the flag. -/
def Instr.decides : Instr → Prop
  | .kill _ | .waitCheck _ | .yieldTo _ => True
  | _ => False

/-- After such a statement a call only restores the flag. -/
theorem decides_stage (hstage : stage ∈ stages k) (hl : i :: j :: l <:+ stage) (hj : j.decides) :
    l = [.set] := by
  refine of_stage (P := fun _ l ↦ ∀ j l', l = j :: l' → j.decides → l' = [.set]) ?_ hstage hl j l
    rfl hj
  cases k <;> simp [stages, code, yieldCode, sleepCode, wakeupCode, acquireCode, releaseCode,
    EachEnd, Instr.decides]

/-- Where a call tests a lock. -/
theorem acquire_stage {x : ℕ} (hstage : stage ∈ stages k)
    (hl : i :: .acquire x :: l <:+ stage) :
    .acquire x :: (sleepCode (.lock x) ++ .acquire x :: l) ∈ stages k := by
  refine of_stage (P := fun _ l ↦ ∀ x l', l = .acquire x :: l' →
    .acquire x :: (sleepCode (.lock x) ++ .acquire x :: l') ∈ stages k) ?_ hstage hl x l rfl
  cases k <;> simp [stages, code, yieldCode, sleepCode, wakeupCode, acquireCode, releaseCode,
    EachEnd]

namespace Control

variable {x y : Control}

/-- What is left of a stage has a saved value of the flag to restore. -/
theorem Orderly.saved_inner {r : List Instr} (hx : x.Orderly) (htodo : x.todo = r ++ l)
    (hresume : ∀ i ∈ r, i.resumes) (hstage : stage ∈ stages k) (hl : i :: l <:+ stage)
    (hne : l ≠ []) : x.saved ≠ [] := by
  obtain ⟨hneg, hexit⟩ := saves_stage hstage hl hne
  have hnone : ∀ i ∈ r, i.saves = 0 ∧ i ≠ .exit := fun i hi ↦ by
    have := hresume i hi
    cases i <;> simp_all [Instr.resumes, Instr.saves]
  have hlength := hx.balanced.length (by
    rw [htodo, List.mem_append]
    rintro (hmem | hmem)
    · exact (hnone _ hmem).2 rfl
    · exact hexit hmem)
  have hzero : (r.map Instr.saves).sum = 0 :=
    List.sum_eq_zero fun v hv ↦ by
      obtain ⟨i, hi, rfl⟩ := List.mem_map.mp hv
      exact (hnone i hi).1
  rw [htodo, List.map_append, List.sum_append, hzero, zero_add] at hlength
  intro hnil
  have hempty : x.saved.length = 0 := by rw [hnil, List.length_nil]
  omega

/-- The timer does not interrupt what is left of a stage. -/
theorem Orderly.flag_inner {r : List Instr} (hx : x.Orderly) (htodo : x.todo = r ++ l)
    (hresume : ∀ i ∈ r, i.resumes) (hstage : stage ∈ stages k) (hl : i :: l <:+ stage)
    (hne : l ≠ []) : x.flag = false :=
  hx.masked.flag_eq (hx.saved_inner htodo hresume hstage hl hne)

/-- A statement of a resume path leads on along the resume path. -/
theorem Expands.resumes (hextra : Expands i extra) (hi : i.resumes) : ∀ j ∈ extra, j.resumes := by
  cases hextra with
  | straight => simp
  | clears => simp [Instr.resumes]
  | yields | sleeps | waits | blocks => exact hi.elim

theorem flagEffect_resumes (hi : i.resumes) : flagEffect i f saved = some (f, saved) := by
  cases i <;> first | rfl | exact hi.elim

theorem resumes_resumeCode : ∀ i ∈ resumeCode, i.resumes := by
  simp [resumeCode, Instr.resumes]

theorem finish_of_ne (x : Control) (hne : x.todo ≠ []) : x.finish = x := if_neg hne

/-- A thread that has nothing left stands outside. -/
theorem Located.of_nil (htodo : x.todo = []) (hcall : x.call = none) : x.Located := by
  refine .outer (r := []) (h := []) (b := []) htodo (by simp) (by simp) (fun _ ↦ rfl)
    (by simp) ?_
  rw [hcall]
  exact .inr (by simp)

/-- The statements of the interrupt handler. -/
theorem handler_cases {handler : List Instr} (h : i :: handler <:+ handlerCode) :
    i = .off ∧ handler = [.yieldTo threadAny, .set, .sigreturn] ∨
      i = .yieldTo threadAny ∧ handler = [.set, .sigreturn] ∨ i = .set ∧ handler = [.sigreturn] ∨
      i = .sigreturn ∧ handler = [] := by
  simpa [handlerCode, yieldCode, List.suffix_cons_iff] using h

/-- The thread leaves a statement of the interrupt handler behind. -/
theorem Located.handler_step {handler base : List Instr} (hhandler : i :: handler <:+ handlerCode)
    (hflag : x.flag = false) (hsaved : ∀ e ∈ x.saved, e = false) (hbase : Outside x.call base)
    (hextra : Expands i extra) (heffect : flagEffect i x.flag x.saved = some (f, saved)) :
    Located (finish { x with flag := f, saved := saved, todo := extra ++ (handler ++ base) }) := by
  have hsuffix : handler <:+ handlerCode := (List.suffix_cons i handler).trans hhandler
  -- The flag stays clear up to the return from the signal.
  have hcases : (handler = [] ∧ extra = []) ∨
      handler ≠ [] ∧ (∀ j ∈ extra, j.resumes) ∧ f = false ∧ ∀ e ∈ saved, e = false := by
    rcases handler_cases hhandler with ⟨rfl, rfl⟩ | ⟨rfl, rfl⟩ | ⟨rfl, rfl⟩ | ⟨rfl, rfl⟩
    · cases hextra
      obtain ⟨rfl, rfl⟩ := Prod.mk.inj (Option.some.inj heffect)
      exact .inr ⟨by simp, by simp, rfl, by simpa [hflag] using hsaved⟩
    · obtain ⟨rfl, rfl⟩ := Prod.mk.inj (Option.some.inj heffect)
      refine .inr ⟨by simp, ?_, hflag, hsaved⟩
      cases hextra with
      | straight => simp
      | yields => exact resumes_resumeCode
    · cases hextra
      cases hlist : x.saved with
      | nil => simp [hlist, flagEffect] at heffect
      | cons e tail =>
        rw [hlist] at heffect hsaved
        obtain ⟨rfl, rfl⟩ := Prod.mk.inj (Option.some.inj heffect)
        exact .inr ⟨by simp, by simp, hsaved e List.mem_cons_self,
          fun d hd ↦ hsaved d (List.mem_cons_of_mem _ hd)⟩
    · cases hextra
      exact .inl ⟨rfl, rfl⟩
  rcases hcases with ⟨rfl, rfl⟩ | ⟨hne, hresume, hclear, hsaves⟩
  · by_cases hnil : base = []
    · subst hnil
      exact .of_nil (by simp [finish]) (by simp [finish])
    · rw [finish_of_ne _ hnil]
      exact .outer (r := []) (h := []) (b := base) rfl (by simp) (by simp)
        (fun _ ↦ rfl) (by simp) hbase
  · rw [finish_of_ne _ (by simp [hne])]
    exact .outer rfl hresume hsuffix (fun hnil ↦ absurd hnil hne) (fun _ ↦ ⟨hclear, hsaves⟩) hbase

/-- The thread leaves the first statement of a call, of `thread_stub`, or one behind it. -/
theorem Located.base_step (hbase : Outside x.call (i :: rest)) (hi : i ≠ .exit)
    (hextra : Expands i extra) :
    Located (finish { x with flag := f, saved := saved, todo := extra ++ rest }) := by
  rcases Option.eq_none_or_eq_some x.call with hcall | ⟨k, hcall⟩
  · rw [hcall] at hbase
    have hresumes : ∀ j ∈ extra ++ rest, j.resumes := by
      rcases hbase with hstub | hresume
      · obtain ⟨rfl, rfl⟩ := List.cons.inj hstub
        cases hextra
        simp [Instr.resumes]
      · intro j hj
        rcases List.mem_append.mp hj with hj | hj
        · exact hextra.resumes (hresume i List.mem_cons_self) j hj
        · exact hresume j (List.mem_cons_of_mem i hj)
    refine .outer (r := []) (h := []) (b := extra ++ rest) ?_ (by simp) (by simp)
      (fun _ ↦ rfl) (by simp) ?_
    · rw [finish]
      split_ifs <;> rfl
    · have hcall' : (finish { x with flag := f, saved := saved, todo := extra ++ rest }).call =
          none := by
        rw [finish]
        split_ifs
        · rfl
        · exact hcall
      rw [hcall']
      exact .inr hresumes
  · rw [hcall] at hbase
    have hcode : code k = i :: rest := hbase.symm
    by_cases hrest : rest = []
    · subst hrest
      have hextra' : extra = [] := by
        cases k <;> simp [code, yieldCode, sleepCode, wakeupCode, acquireCode, releaseCode] at hcode
        · exact absurd hcode.symm hi
        · subst hcode
          cases hextra
          rfl
      subst hextra'
      exact .of_nil (by simp [finish]) (by simp [finish])
    · have hoff : i = .off := by
        cases k <;> simp [code, yieldCode, sleepCode, wakeupCode, acquireCode, releaseCode] at hcode
        all_goals first | exact hcode.1.symm | exact absurd hcode.2 hrest
      subst hoff
      cases hextra
      rw [finish_of_ne _ hrest]
      refine .inner (r := []) (l := rest) (i := .off) (k := k) rfl (by simp) (by simp) hcall
        (g := code k) ?_ (hcode ▸ List.suffix_refl _) hrest
      cases k <;> simp [stages]

/-- The thread leaves a statement of a stage behind. -/
theorem Located.stage_step (hcall : x.call = some k) (hstage : stage ∈ stages k)
    (hl : j :: i :: l <:+ stage) (hextra : Expands i extra) :
    Located (finish { x with flag := f, saved := saved, todo := extra ++ l }) := by
  have hsuffix : i :: l <:+ stage := (List.suffix_cons j _).trans hl
  have hswitch : i.switches →
      Located (finish { x with flag := f, saved := saved, todo := resumeCode ++ l }) := fun h ↦ by
    rw [finish_of_ne _ (by simp [resumeCode])]
    obtain ⟨r, rfl⟩ := switch_stage hstage hsuffix h
    exact .inner rfl resumes_resumeCode (fun _ ↦ h) hcall hstage hsuffix (by simp)
  cases hextra with
  | straight =>
    by_cases hnil : l = []
    · subst hnil
      exact .of_nil (by simp [finish]) (by simp [finish])
    · rw [finish_of_ne _ hnil]
      exact .inner (r := []) rfl (by simp) (by simp) hcall hstage hsuffix hnil
  | yields want => exact hswitch trivial
  | sleeps w => exact hswitch trivial
  | waits tid =>
    obtain ⟨rfl, rfl⟩ := waitCheck_stage hstage hl
    rw [finish_of_ne _ (by simp [sleepCode])]
    exact .inner (r := []) (i := .waitCheck tid) rfl (by simp) (by simp) hcall
      (g := .waitCheck tid :: (sleepCode (.thread tid.toNat) ++ [.waitReturn tid, .set]))
      (by simp [stages]) (List.suffix_refl _) (by simp)
  | blocks x =>
    have hnext := acquire_stage hstage hl
    rw [finish_of_ne _ (by simp [sleepCode])]
    exact .inner (r := []) (i := .acquire x) rfl (by simp) (by simp) hcall hnext
      (List.suffix_refl _) (by simp)
  | clears pc pc' => exact (clear_stage hstage hl).elim

/-- A thread at a statement that works on the queues is inside of a call, or of the interrupt
handler. -/
theorem Located.guarded (h : x.Located) (htodo : x.todo = i :: rest) (hi : i.guarded = true) :
    (∃ k stage j, x.call = some k ∧ stage ∈ stages k ∧ j :: i :: rest <:+ stage) ∨
      i = .yieldTo threadAny := by
  cases h with
  | @outer resume handler base hx hresume hhandler hfirst hflag hbase =>
    rw [htodo] at hx
    cases resume with
    | cons j resume =>
      obtain ⟨rfl, rfl⟩ := List.cons.inj hx
      have := hresume i List.mem_cons_self
      cases i <;> first | exact this.elim | cases hi
    | nil =>
      cases handler with
      | cons j handler =>
        obtain ⟨rfl, rfl⟩ := List.cons.inj hx
        rcases handler_cases hhandler with ⟨rfl, -⟩ | ⟨rfl, -⟩ | ⟨rfl, -⟩ | ⟨rfl, -⟩
        · cases hi
        · exact .inr rfl
        · cases hi
        · cases hi
      | nil =>
        rw [List.nil_append, List.nil_append] at hx
        rw [← hx] at hbase
        rcases Option.eq_none_or_eq_some x.call with hcall | ⟨k, hcall⟩
        · rw [hcall] at hbase
          rcases hbase with hstub | hresumes
          · obtain ⟨rfl, -⟩ := List.cons.inj hstub
            cases hi
          · have := hresumes i List.mem_cons_self
            cases i <;> first | exact this.elim | cases hi
        · rw [hcall] at hbase
          have hcode : i :: rest = code k := hbase
          have hfree : i.guarded = false := by
            cases k <;> obtain ⟨rfl, -⟩ := List.cons.inj hcode <;> rfl
          exact absurd (hfree.symm.trans hi) (by simp)
  | @inner resume l stage j k hx hresume _ hcall hstage hl hne =>
    rw [htodo] at hx
    cases resume with
    | cons j' resume =>
      obtain ⟨rfl, rfl⟩ := List.cons.inj hx
      have := hresume i List.mem_cons_self
      cases i <;> first | exact this.elim | cases hi
    | nil =>
      obtain rfl : i :: rest = l := hx
      exact .inl ⟨k, stage, j, hcall, hstage, hl⟩

/-- A thread keeps itself at a place where it may stand. -/
theorem Located.step (hx : x.Orderly) (hloc : x.Located) (hstep : Step x y) : y.Located := by
  cases hstep with
  | timer hflag =>
    cases hloc with
    | @outer resume handler base htodo _ _ hfirst hclear hbase =>
      have hhandler : handler = [] := by
        by_contra hne
        exact absurd ((hclear hne).1.symm.trans hflag) (by simp)
      subst hhandler
      have hresume := hfirst rfl
      subst hresume
      have hsaved : x.saved = [] := by
        have hmasked := hx.masked
        rw [hflag] at hmasked
        exact hmasked.saved_eq
      refine .outer (r := []) (h := handlerCode) (b := base) ?_ (by simp)
        (List.suffix_refl _) (fun _ ↦ rfl) (fun _ ↦ ⟨rfl, by simp [hsaved]⟩) hbase
      show handlerCode ++ x.todo = _
      rw [htodo]
      rfl
    | inner htodo hresume _ hcall hstage hl hne =>
      exact absurd ((hx.flag_inner htodo hresume hstage hl hne).symm.trans hflag) (by simp)
  | @call k htodo =>
    exact .outer (r := []) (h := []) (b := code k) rfl (by simp) (by simp)
      (fun _ ↦ rfl) (by simp) rfl
  | interrupts htodo => exact .of_nil htodo (hx.idle htodo)
  | @instr i rest extra f saved htodo hi hextra heffect =>
    cases hloc with
    | @outer resume handler base hx' hresume hhandler hfirst hclear hbase =>
      rw [htodo] at hx'
      cases resume with
      | cons j resume =>
        obtain ⟨rfl, rfl⟩ := List.cons.inj hx'
        have hi' := hresume i List.mem_cons_self
        rw [flagEffect_resumes hi'] at heffect
        obtain ⟨rfl, rfl⟩ := Prod.mk.inj (Option.some.inj heffect)
        have hne : handler ≠ [] := fun hnil ↦ absurd (hfirst hnil) (by simp)
        rw [finish_of_ne _ (by simp [hne])]
        refine .outer (r := extra ++ resume) (h := handler) (b := base)
          (List.append_assoc ..).symm ?_ hhandler (fun hnil ↦ absurd hnil hne) hclear hbase
        intro j hj
        rcases List.mem_append.mp hj with hj | hj
        · exact hextra.resumes hi' j hj
        · exact hresume j (List.mem_cons_of_mem i hj)
      | nil =>
        cases handler with
        | cons j handler =>
          obtain ⟨rfl, rfl⟩ := List.cons.inj hx'
          obtain ⟨hoff, hsaved⟩ := hclear (by simp)
          exact .handler_step hhandler hoff hsaved hbase hextra heffect
        | nil =>
          rw [List.nil_append, List.nil_append] at hx'
          rw [← hx'] at hbase
          exact .base_step hbase hi hextra
    | @inner resume l stage j k hx' hresume hswitched hcall hstage hl hne =>
      rw [htodo] at hx'
      cases resume with
      | cons j' resume =>
        obtain ⟨rfl, rfl⟩ := List.cons.inj hx'
        have hi' := hresume i List.mem_cons_self
        rw [finish_of_ne _ (by simp [hne])]
        refine .inner (r := extra ++ resume) (l := l) (List.append_assoc ..).symm ?_
          (fun _ ↦ hswitched (by simp)) hcall hstage hl hne
        intro j hj
        rcases List.mem_append.mp hj with hj | hj
        · exact hextra.resumes hi' j hj
        · exact hresume j (List.mem_cons_of_mem i hj)
      | nil =>
        obtain rfl : i :: rest = l := hx'
        exact .stage_step hcall hstage hl hextra
  | abandon htodo =>
    exact .outer (r := []) (h := []) (b := [.exit]) rfl (by simp) (by simp)
      (fun _ ↦ rfl) (by simp) rfl

end Control

/-- Every thread that has not exited stands at a place where it may stand. -/
structure Ideal.Located (a : Ideal) : Prop where
  orderly : a.Orderly
  located : ∀ g < a.core.allocated, (a.core.tcb g).exited = false → (a.core.control g).Located

theorem Ideal.Located.transition (hloc : a.Located) (ha : a.Ordered)
    (htransition : a.Transition m b) : b.Located := by
  have hboth := ha.control_invariant (P := fun x ↦ x.Orderly ∧ x.Located)
    (fun _ _ hx hstep ↦ ⟨hx.1.step hstep, hx.2.step hx.1 hstep⟩)
    (fun f ↦ ⟨⟨Control.balanced_stubCode f, trivial, fun _ ↦ rfl⟩,
      .outer (r := []) (h := []) (b := stubCode) rfl (by simp) (by simp)
        (fun _ ↦ rfl) (by simp) (.inl rfl)⟩)
    htransition fun g hg hlive ↦ ⟨hloc.orderly g hg hlive, hloc.located g hg hlive⟩
  exact ⟨fun g hg hlive ↦ (hboth g hg hlive).1, fun g hg hlive ↦ (hboth g hg hlive).2⟩

theorem Ideal.init_located : Ideal.init.Located where
  orderly := Ideal.init_orderly
  located g hg _ := by
    obtain rfl : g = 0 := Nat.lt_one_iff.mp hg
    exact .of_nil rfl rfl

/-- In every state that can be reached before the process ends, the threads stand where they may. -/
theorem State.Reachable.located (hs : s.Reachable) (hlive : s.core.halted = false) :
    ∃ a, Linked s a ∧ a.Ordered ∧ a.Located := by
  rcases Linked.reaches (fun _ _ _ _ _ ha hI _ htransition ↦ hI.transition ha htransition)
    Ideal.init_located hs with hhalted | h
  · exact absurd (hhalted.symm.trans hlive) (by simp)
  · exact h

end OperatingSystems.Threads
