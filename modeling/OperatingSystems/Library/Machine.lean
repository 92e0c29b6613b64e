import Mathlib.Data.Nat.Notation
import Mathlib.Logic.Relation
import Mathlib.Tactic.SplitIfs

/-!
# Machines with a partial step function

A concurrent program is embedded as a step function `step : σ → α → Option σ`: the label `α` says
which agent moves and which choice it makes, and `none` says that the agent cannot make that move
in the state at hand. An interleaving of the agents is then nothing but a list of labels.

`Reaches permitted step s t` says that some finite sequence of moves leads from `s` to `t`, each
of them permitted in the state it starts from; with `permitted` constantly true these are all the
interleavings. `Reaches.invariant` is the induction over a run, stated once. `run` executes a list
of labels, so that one particular interleaving can be evaluated (`Reaches.of_run`).

`Steps` counts the moves of a run. When every permitted move lowers a potential, no run has more
moves than the potential of the state it starts from (`Steps.length_le`), so all runs end.
-/

set_option autoImplicit false
set_option relaxedAutoImplicit false

namespace OperatingSystems.Library.Machine

universe u v

variable {σ : Type u} {α : Type v} {permitted : σ → α → Prop} {step : σ → α → Option σ} {s t : σ}

/-- Some permitted move leads from the first state to the second. -/
def Moves (permitted : σ → α → Prop) (step : σ → α → Option σ) (s t : σ) : Prop :=
  ∃ a, permitted s a ∧ step s a = some t

/-- Some finite sequence of permitted moves leads from the first state to the second. -/
def Reaches (permitted : σ → α → Prop) (step : σ → α → Option σ) : σ → σ → Prop :=
  Relation.ReflTransGen (Moves permitted step)

/-- Assumes: every permitted move keeps the property. Then every run keeps it. -/
theorem Reaches.invariant {I : σ → Prop}
    (hstep : ∀ s a t, I s → permitted s a → step s a = some t → I t)
    (h : Reaches permitted step s t) (hs : I s) : I t := by
  induction h with
  | refl => exact hs
  | tail _ hmove ih =>
    obtain ⟨a, hpermitted, ha⟩ := hmove
    exact hstep _ a _ ih hpermitted ha

/-- What is permitted by one condition may be permitted by a weaker one. -/
theorem Reaches.mono {permitted' : σ → α → Prop}
    (hpermitted : ∀ s a, permitted s a → permitted' s a) (h : Reaches permitted step s t) :
    Reaches permitted' step s t :=
  h.lift id fun _ _ ⟨a, ha, hstep⟩ ↦ ⟨a, hpermitted _ a ha, hstep⟩

/-- The weaker condition need only be weaker in the states that a run with the first one reaches. -/
theorem Reaches.mono_of {permitted' : σ → α → Prop} {I : σ → Prop}
    (hstep : ∀ s a t, I s → permitted s a → step s a = some t → I t)
    (hpermitted : ∀ s a, I s → permitted s a → permitted' s a) (hs : I s)
    (h : Reaches permitted step s t) : Reaches permitted' step s t := by
  induction h with
  | refl => exact Relation.ReflTransGen.refl
  | tail hrun hmove ih =>
    obtain ⟨a, ha, hnext⟩ := hmove
    exact ih.tail ⟨a, hpermitted _ a (Reaches.invariant hstep hrun hs) ha, hnext⟩

/-- Execute a list of labels, as long as each of them is a permitted and possible move. -/
def run (permitted : σ → α → Prop) [∀ s a, Decidable (permitted s a)] (step : σ → α → Option σ) :
    σ → List α → Option σ
  | s, [] => some s
  | s, a :: rest =>
    if permitted s a then (step s a).bind fun t ↦ run permitted step t rest else none

/-- The machine reaches the state in which a list of labels ends. -/
theorem Reaches.of_run [∀ s a, Decidable (permitted s a)] {labels : List α}
    (h : run permitted step s labels = some t) : Reaches permitted step s t := by
  induction labels generalizing s with
  | nil =>
    rw [run, Option.some.injEq] at h
    exact h ▸ Relation.ReflTransGen.refl
  | cons a rest ih =>
    rw [run] at h
    split_ifs at h with hpermitted
    obtain ⟨next, ha, hrest⟩ := Option.bind_eq_some_iff.mp h
    exact Relation.ReflTransGen.head ⟨a, hpermitted, ha⟩ (ih hrest)

/-- So many permitted moves lead from the first state to the second. -/
inductive Steps (permitted : σ → α → Prop) (step : σ → α → Option σ) : σ → ℕ → σ → Prop
  | refl (s : σ) : Steps permitted step s 0 s
  | head {s t u : σ} {k : ℕ} (hmove : Moves permitted step s t)
    (hrest : Steps permitted step t k u) : Steps permitted step s (k + 1) u

/-- Assumes: an invariant under which every permitted move keeps the invariant and lowers the
potential. A run keeps the invariant and has at most as many moves as the potential has fallen. -/
theorem Steps.length_le {I : σ → Prop} {Φ : σ → ℕ} {k : ℕ}
    (hstep : ∀ s a t, I s → permitted s a → step s a = some t → I t ∧ Φ t < Φ s)
    (h : Steps permitted step s k t) (hs : I s) : I t ∧ k + Φ t ≤ Φ s := by
  induction h with
  | refl s => exact ⟨hs, Nat.le_of_eq (Nat.zero_add _)⟩
  | head hmove hrest ih =>
    obtain ⟨a, hpermitted, ha⟩ := hmove
    obtain ⟨hkept, hlower⟩ := hstep _ a _ hs hpermitted ha
    obtain ⟨hend, hle⟩ := ih hkept
    exact ⟨hend, by omega⟩

end OperatingSystems.Library.Machine
