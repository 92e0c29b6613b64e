import Mathlib.Tactic.Common

/-!
# Stateful programs that may halt

A `Program σ ε α` reads and updates a state of type `σ` and either returns a value of type `α`
or halts with a reason of type `ε`, after which there is no state to speak of. This is the shape
of a sequential C program whose assertions abort the process: an assertion that fails ends the
run, and every other outcome returns to the caller.

`run_bind` steps a program past a call whose outcome is known, `bind_eq_ok_iff` takes a finished
run apart into its calls. `Preserves` is the partial correctness of an invariant: whenever the
program returns from a state with the invariant, the state it leaves has the invariant as well.
It composes along `bind`, conditionals and guarded halts, so that an invariant of the primitive
operations of a system is an invariant of every command written with them. `Triple` is the same
for a precondition and a postcondition that differ.
-/

set_option autoImplicit false
set_option relaxedAutoImplicit false

namespace OperatingSystems.Library

/-- A program over the state `σ` that returns an `α` or halts with an `ε`. -/
def Program (σ ε α : Type) : Type := σ → Except ε (α × σ)

namespace Program

variable {σ ε α β : Type}

/-- The outcome of a program from a state. -/
def run (m : Program σ ε α) (s : σ) : Except ε (α × σ) := m s

instance : Monad (Program σ ε) where
  pure a := fun s ↦ .ok (a, s)
  bind m f := fun s ↦
    match m.run s with
    | .ok (a, s') => (f a).run s'
    | .error e => .error e

/-- The current state. -/
def get : Program σ ε σ := fun s ↦ .ok (s, s)

/-- Read a component of the current state. -/
def gets (f : σ → α) : Program σ ε α := fun s ↦ .ok (f s, s)

/-- Update the current state. -/
def modify (f : σ → σ) : Program σ ε Unit := fun s ↦ .ok ((), f s)

/-- End the run. -/
def halt (e : ε) : Program σ ε α := fun _ ↦ .error e

/-- Continue when the condition holds and end the run otherwise. -/
def check (c : Prop) [Decidable c] (e : ε) : Program σ ε Unit :=
  if c then pure () else halt e

/-- The outcome of a computation that does not use the state. -/
def ofExcept (r : Except ε α) : Program σ ε α := fun s ↦ r.map fun a ↦ (a, s)

/-- The loop that runs its body for `k, …, k + n - 1`. -/
def forRange (body : ℕ → Program σ ε Unit) : ℕ → ℕ → Program σ ε Unit
  | 0, _ => pure ()
  | n + 1, k => do
    body k
    forRange body n (k + 1)

/-- The loop that runs its body for `k, …, k + n - 1` while a condition on a value holds that the
body updates. The last value is returned. -/
def forWhile (cond : β → Bool) (body : ℕ → β → Program σ ε β) : ℕ → ℕ → β → Program σ ε β
  | 0, _, b => pure b
  | n + 1, k, b =>
    if cond b = true then do
      let b ← body k b
      forWhile cond body n (k + 1) b
    else pure b

/-! ### Running a program -/

@[simp] theorem pure_run (a : α) (s : σ) : (pure a : Program σ ε α).run s = .ok (a, s) := rfl

@[simp] theorem get_run (s : σ) : (get : Program σ ε σ).run s = .ok (s, s) := rfl

@[simp] theorem gets_run (f : σ → α) (s : σ) : (gets f : Program σ ε α).run s = .ok (f s, s) := rfl

@[simp] theorem modify_run (f : σ → σ) (s : σ) :
    (modify f : Program σ ε Unit).run s = .ok ((), f s) := rfl

@[simp] theorem halt_run (e : ε) (s : σ) : (halt e : Program σ ε α).run s = .error e := rfl

@[simp] theorem ofExcept_ok_run (a : α) (s : σ) :
    (ofExcept (.ok a) : Program σ ε α).run s = .ok (a, s) := rfl

@[simp] theorem ofExcept_error_run (e : ε) (s : σ) :
    (ofExcept (.error e) : Program σ ε α).run s = .error e := rfl

theorem ofExcept_eq_ok_iff {r : Except ε α} {s s' : σ} {a : α} :
    (ofExcept r : Program σ ε α).run s = .ok (a, s') ↔ r = .ok a ∧ s' = s := by
  cases r with
  | ok b => simp [eq_comm]
  | error e => simp

theorem check_run {c : Prop} [Decidable c] (h : c) (e : ε) (s : σ) :
    (check c e : Program σ ε Unit).run s = .ok ((), s) := by
  simp [check, h]

@[simp] theorem check_eq_ok_iff {c : Prop} [Decidable c] {e : ε} {s s' : σ} {u : Unit} :
    (check c e : Program σ ε Unit).run s = .ok (u, s') ↔ c ∧ s' = s := by
  unfold check
  split_ifs with h
  · simp [h, eq_comm]
  · simp [h]

/-- A call that returns hands its value and state to the rest of the program. -/
theorem run_bind {m : Program σ ε α} {f : α → Program σ ε β} {s s' : σ} {a : α}
    (h : m.run s = .ok (a, s')) : (m >>= f).run s = (f a).run s' := by
  change (match m.run s with | .ok (a, s') => (f a).run s' | .error e => .error e) = _
  rw [h]

theorem bind_run (m : Program σ ε α) (f : α → Program σ ε β) (s : σ) :
    (m >>= f).run s = match m.run s with | .ok (a, s') => (f a).run s' | .error e => .error e := rfl

/-- A call that ends the program ends it before the rest. -/
theorem run_bind_error {m : Program σ ε α} {f : α → Program σ ε β} {s : σ} {e : ε}
    (h : m.run s = .error e) : (m >>= f).run s = .error e := by
  rw [bind_run, h]

@[simp] theorem pure_bind_run (a : α) (f : α → Program σ ε β) (s : σ) :
    ((pure a : Program σ ε α) >>= f).run s = (f a).run s := rfl

@[simp] theorem get_bind_run (f : σ → Program σ ε β) (s : σ) :
    ((get : Program σ ε σ) >>= f).run s = (f s).run s := rfl

@[simp] theorem gets_bind_run (g : σ → α) (f : α → Program σ ε β) (s : σ) :
    ((gets g : Program σ ε α) >>= f).run s = (f (g s)).run s := rfl

@[simp] theorem modify_bind_run (g : σ → σ) (f : Unit → Program σ ε β) (s : σ) :
    ((modify g : Program σ ε Unit) >>= f).run s = (f ()).run (g s) := rfl

theorem check_bind_run {c : Prop} [Decidable c] (h : c) (e : ε) (f : Unit → Program σ ε β)
    (s : σ) : ((check c e : Program σ ε Unit) >>= f).run s = (f ()).run s :=
  run_bind (check_run h e s)

theorem check_bind_fails {c : Prop} [Decidable c] (h : ¬c) (e : ε) (f : Unit → Program σ ε β)
    (s : σ) : ((check c e : Program σ ε Unit) >>= f).run s = .error e := by
  apply run_bind_error
  rw [check, if_neg h, halt_run]

theorem forRange_succ_run (body : ℕ → Program σ ε Unit) {n k : ℕ} {s s' : σ}
    (h : (body k).run s = .ok ((), s')) :
    (forRange body (n + 1) k).run s = (forRange body n (k + 1)).run s' :=
  run_bind h

theorem forWhile_succ_run {cond : β → Bool} (body : ℕ → β → Program σ ε β) {n k : ℕ} {b b' : β}
    {s s' : σ} (hb : cond b = true) (h : (body k b).run s = .ok (b', s')) :
    (forWhile cond body (n + 1) k b).run s = (forWhile cond body n (k + 1) b').run s' := by
  rw [forWhile, if_pos hb, run_bind h]

theorem forWhile_stop_run {cond : β → Bool} (body : ℕ → β → Program σ ε β) (n k : ℕ) {b : β}
    (hb : cond b = false) (s : σ) : (forWhile cond body n k b).run s = .ok (b, s) := by
  cases n with
  | zero => rfl
  | succ n => rw [forWhile, if_neg (by simp [hb]), pure_run]

/-- A program that returns has returned from its first call and then from the rest. -/
theorem bind_eq_ok_iff {m : Program σ ε α} {f : α → Program σ ε β} {s s' : σ} {b : β} :
    (m >>= f).run s = .ok (b, s') ↔ ∃ a t, m.run s = .ok (a, t) ∧ (f a).run t = .ok (b, s') := by
  rw [bind_run]
  cases hm : m.run s with
  | ok result => obtain ⟨a, t⟩ := result; simp
  | error e => simp

/-- A call whose result is not used returns when the call does. -/
theorem discard_eq_ok_iff {m : Program σ ε α} {s t : σ} :
    (do let _ ← m : Program σ ε Unit).run s = .ok ((), t) ↔ ∃ a, m.run s = .ok (a, t) := by
  rw [bind_eq_ok_iff]
  simp

theorem discard_run {m : Program σ ε α} {s t : σ} {a : α} (h : m.run s = .ok (a, t)) :
    (do let _ ← m : Program σ ε Unit).run s = .ok ((), t) :=
  discard_eq_ok_iff.mpr ⟨a, h⟩

/-! ### Programs that return at least as often -/

/-- Whenever the first program returns, the second returns with the same result and state. -/
def Extends (m m' : Program σ ε α) : Prop := ∀ ⦃s r⦄, m.run s = .ok r → m'.run s = .ok r

theorem Extends.refl (m : Program σ ε α) : Extends m m := fun _ _ h ↦ h

theorem Extends.trans {m m' m'' : Program σ ε α} (h₁ : Extends m m') (h₂ : Extends m' m'') :
    Extends m m'' := fun _ _ h ↦ h₂ (h₁ h)

theorem Extends.bind {m m' : Program σ ε α} {f f' : α → Program σ ε β} (hm : Extends m m')
    (hf : ∀ a, Extends (f a) (f' a)) : Extends (m >>= f) (m' >>= f') := by
  rintro s ⟨b, t⟩ h
  obtain ⟨a, u, hfirst, hrest⟩ := bind_eq_ok_iff.mp h
  rw [run_bind (hm hfirst)]
  exact hf a hrest

theorem Extends.ite {c : Prop} [Decidable c] {m₁ m₁' m₂ m₂' : Program σ ε α} (h₁ : Extends m₁ m₁')
    (h₂ : Extends m₂ m₂') : Extends (if c then m₁ else m₂) (if c then m₁' else m₂') := by
  split_ifs
  · exact h₁
  · exact h₂

/-! ### Invariants -/

/-- Every return from a state with the invariant leaves a state with the invariant. -/
def Preserves (I : σ → Prop) (m : Program σ ε α) : Prop :=
  ∀ ⦃s s' : σ⦄ ⦃a : α⦄, I s → m.run s = .ok (a, s') → I s'

variable {I : σ → Prop}

theorem preserves_pure (a : α) : Preserves I (pure a : Program σ ε α) := by
  intro s s' b hs hrun
  simp only [pure_run, Except.ok.injEq, Prod.mk.injEq] at hrun
  exact hrun.2 ▸ hs

theorem preserves_gets (f : σ → α) : Preserves I (gets f : Program σ ε α) := by
  intro s s' b hs hrun
  simp only [gets_run, Except.ok.injEq, Prod.mk.injEq] at hrun
  exact hrun.2 ▸ hs

theorem preserves_halt (e : ε) : Preserves I (halt e : Program σ ε α) := by
  intro s s' b _ hrun
  simp at hrun

theorem preserves_check (c : Prop) [Decidable c] (e : ε) :
    Preserves I (check c e : Program σ ε Unit) := by
  intro s s' b hs hrun
  exact (check_eq_ok_iff.mp hrun).2 ▸ hs

theorem preserves_ofExcept (r : Except ε α) : Preserves I (ofExcept r : Program σ ε α) := by
  intro s s' b hs hrun
  exact (ofExcept_eq_ok_iff.mp hrun).2 ▸ hs

theorem preserves_modify {f : σ → σ} (h : ∀ s, I s → I (f s)) :
    Preserves I (modify f : Program σ ε Unit) := by
  intro s s' b hs hrun
  simp only [modify_run, Except.ok.injEq, Prod.mk.injEq] at hrun
  exact hrun.2 ▸ h s hs

theorem Preserves.bind {m : Program σ ε α} {f : α → Program σ ε β} (hm : Preserves I m)
    (hf : ∀ a, Preserves I (f a)) : Preserves I (m >>= f) := by
  intro s s' b hs hrun
  obtain ⟨a, t, hfirst, hrest⟩ := bind_eq_ok_iff.mp hrun
  exact hf a (hm hs hfirst) hrest

theorem Preserves.ite {c : Prop} [Decidable c] {m₁ m₂ : Program σ ε α} (h₁ : c → Preserves I m₁)
    (h₂ : ¬ c → Preserves I m₂) : Preserves I (if c then m₁ else m₂) := by
  split_ifs with h
  · exact h₁ h
  · exact h₂ h

/-! ### Triples -/

/-- Every return from a state with the precondition ends with the postcondition. -/
def Triple (P : σ → Prop) (m : Program σ ε α) (Q : α → σ → Prop) : Prop :=
  ∀ ⦃s t : σ⦄ ⦃a : α⦄, P s → m.run s = .ok (a, t) → Q a t

variable {P : σ → Prop} {Q : β → σ → Prop}

theorem triple_pure {b : β} (h : ∀ s, P s → Q b s) : Triple P (pure b : Program σ ε β) Q := by
  intro s t c hs hrun
  obtain ⟨rfl, rfl⟩ := Prod.mk.inj (Except.ok.inj hrun)
  exact h s hs

theorem Triple.bind {m : Program σ ε α} {f : α → Program σ ε β} {R : α → σ → Prop}
    (hm : Triple P m R) (hf : ∀ a, Triple (R a) (f a) Q) : Triple P (m >>= f) Q := by
  intro s t b hs hrun
  obtain ⟨a, u, hfirst, hrest⟩ := bind_eq_ok_iff.mp hrun
  exact hf a (hm hs hfirst) hrest

theorem Triple.ite {c : Prop} [Decidable c] {m₁ m₂ : Program σ ε β} (h₁ : c → Triple P m₁ Q)
    (h₂ : ¬ c → Triple P m₂ Q) : Triple P (if c then m₁ else m₂) Q := by
  split_ifs with h
  · exact h₁ h
  · exact h₂ h

/-- A call that keeps the precondition, and the rest. -/
theorem Preserves.andThen {m : Program σ ε α} {f : α → Program σ ε β} (hm : Preserves P m)
    (hf : ∀ a, Triple P (f a) Q) : Triple P (m >>= f) Q :=
  Triple.bind (R := fun _ ↦ P) hm hf

end Program

end OperatingSystems.Library
