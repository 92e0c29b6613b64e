import Mathlib.Tactic
import Mathlib.Data.Fintype.Card

/-!
# Ledgers of exclusively owned resources

Owners hold resources in slots: `own i σ` is the resource that owner `i` holds in slot `σ`, and
zero when the slot is empty. A `Ledger` over a set of owners says that no resource is held
twice, that the resources marked as taken are the ones that are held, and that every owner knows
the number of resources it holds. Claiming a free resource into an empty slot and releasing
everything an owner holds keep the ledger.
-/

set_option autoImplicit false
set_option relaxedAutoImplicit false

namespace OperatingSystems.Library

variable {I S R : Type} [Zero R] [DecidableEq R] [Fintype S]

/-- The slots in which an owner holds something. -/
def heldSlots (holding : S → R) : Finset S := Finset.univ.filter fun σ ↦ holding σ ≠ 0

theorem mem_heldSlots {holding : S → R} {σ : S} : σ ∈ heldSlots holding ↔ holding σ ≠ 0 := by
  simp [heldSlots]

/-- The owners in `D` hold disjoint resources, exactly the taken ones, and count them. -/
structure Ledger (D : Set I) (own : I → S → R) (taken : R → Prop) (count : I → ℤ) : Prop where
  unique : ∀ i ∈ D, ∀ j ∈ D, ∀ σ τ, own i σ ≠ 0 → own i σ = own j τ → i = j ∧ σ = τ
  taken_iff : ∀ r, r ≠ 0 → (taken r ↔ ∃ i ∈ D, ∃ σ, own i σ = r)
  count_eq : ∀ i ∈ D, count i = (heldSlots (own i)).card

namespace Ledger

variable {D : Set I} {own own' : I → S → R} {taken taken' : R → Prop} {count count' : I → ℤ}

theorem taken_of_own (h : Ledger D own taken count) {i : I} (hi : i ∈ D) {σ : S}
    (hσ : own i σ ≠ 0) : taken (own i σ) :=
  (h.taken_iff _ hσ).mpr ⟨i, hi, σ, rfl⟩

/-- A ledger depends on what the owners of the set hold and count, and on what is taken. -/
theorem congr (h : Ledger D own taken count) (hown : ∀ i ∈ D, own' i = own i)
    (htaken : ∀ r, r ≠ 0 → (taken' r ↔ taken r)) (hcount : ∀ i ∈ D, count' i = count i) :
    Ledger D own' taken' count' where
  unique := by
    intro i hi j hj σ τ
    rw [hown i hi, hown j hj]
    exact h.unique i hi j hj σ τ
  taken_iff := by
    intro r hr
    rw [htaken r hr, h.taken_iff r hr]
    constructor
    · rintro ⟨i, hi, σ, hσ⟩
      exact ⟨i, hi, σ, by rw [hown i hi, hσ]⟩
    · rintro ⟨i, hi, σ, hσ⟩
      exact ⟨i, hi, σ, by rw [← hown i hi, hσ]⟩
  count_eq := by
    intro i hi
    rw [hcount i hi, hown i hi, h.count_eq i hi]

variable [DecidableEq I] [DecidableEq S]

/-- Claiming a resource that is not taken into an empty slot. -/
theorem claim (h : Ledger D own taken count) {i : I} (hi : i ∈ D) {σ : S} (hσ : own i σ = 0)
    {r : R} (hr : r ≠ 0) (hfree : ¬ taken r) :
    Ledger D (Function.update own i (Function.update (own i) σ r)) (fun x ↦ x = r ∨ taken x)
      (Function.update count i (count i + 1)) where
  unique := by
    have hnew : ∀ j ∈ D, ∀ τ, own j τ ≠ r := by
      intro j hj τ hτ
      exact hfree ((h.taken_iff r hr).mpr ⟨j, hj, τ, hτ⟩)
    have hvalue : ∀ j τ, Function.update own i (Function.update (own i) σ r) j τ =
        if j = i ∧ τ = σ then r else own j τ := by
      intro j τ
      by_cases hj : j = i
      · subst hj
        by_cases hτ : τ = σ <;> simp [hτ]
      · simp [hj]
    intro j hj k hk τ υ hne heq
    rw [hvalue] at hne heq
    rw [hvalue] at heq
    split_ifs at hne heq with hfirst hsecond hsecond
    · exact ⟨hfirst.1.trans hsecond.1.symm, hfirst.2.trans hsecond.2.symm⟩
    · exact absurd heq.symm (hnew k hk υ)
    · exact absurd heq (hnew j hj τ)
    · exact h.unique j hj k hk τ υ hne heq
  taken_iff := by
    intro x hx
    constructor
    · rintro (rfl | htaken)
      · exact ⟨i, hi, σ, by simp⟩
      · obtain ⟨j, hj, τ, hτ⟩ := (h.taken_iff x hx).mp htaken
        refine ⟨j, hj, τ, ?_⟩
        by_cases hji : j = i
        · subst hji
          have hne : τ ≠ σ := by
            rintro rfl
            exact hx (hτ.symm.trans hσ)
          simp [hne, hτ]
        · simp [hji, hτ]
    · rintro ⟨j, hj, τ, hτ⟩
      by_cases hji : j = i
      · subst hji
        by_cases hτσ : τ = σ
        · subst hτσ
          exact Or.inl (by simpa using hτ.symm)
        · exact Or.inr ((h.taken_iff x hx).mpr ⟨j, hj, τ, by simpa [hτσ] using hτ⟩)
      · exact Or.inr ((h.taken_iff x hx).mpr ⟨j, hj, τ, by simpa [hji] using hτ⟩)
  count_eq := by
    intro j hj
    by_cases hji : j = i
    · subst hji
      have hslots : heldSlots (Function.update (own j) σ r) = insert σ (heldSlots (own j)) := by
        ext τ
        by_cases hτ : τ = σ <;> simp [heldSlots, hτ, hr]
      have hnot : σ ∉ heldSlots (own j) := by simp [heldSlots, hσ]
      simp only [Function.update_self, hslots, Finset.card_insert_of_notMem hnot]
      rw [h.count_eq j hj]
      push_cast
      rfl
    · simp only [Function.update_of_ne hji]
      exact h.count_eq j hj

omit [DecidableEq S] in
/-- Releasing everything an owner holds. -/
theorem releaseAll (h : Ledger D own taken count) {i : I} (hi : i ∈ D) :
    Ledger D (Function.update own i fun _ ↦ 0) (fun x ↦ taken x ∧ ∀ σ, own i σ ≠ x)
      (Function.update count i 0) where
  unique := by
    intro j hj k hk τ υ hne heq
    by_cases hji : j = i
    · subst hji
      simp at hne
    · by_cases hki : k = i
      · subst hki
        simp only [Function.update_self, Function.update_of_ne hji] at heq hne
        exact absurd heq hne
      · simp only [Function.update_of_ne hji, Function.update_of_ne hki] at heq hne
        exact h.unique j hj k hk τ υ hne heq
  taken_iff := by
    intro x hx
    constructor
    · rintro ⟨htaken, hnot⟩
      obtain ⟨j, hj, τ, hτ⟩ := (h.taken_iff x hx).mp htaken
      have hji : j ≠ i := by
        rintro rfl
        exact hnot τ hτ
      exact ⟨j, hj, τ, by simpa [hji] using hτ⟩
    · rintro ⟨j, hj, τ, hτ⟩
      by_cases hji : j = i
      · subst hji
        simp only [Function.update_self] at hτ
        exact absurd hτ.symm hx
      · simp only [Function.update_of_ne hji] at hτ
        refine ⟨(h.taken_iff x hx).mpr ⟨j, hj, τ, hτ⟩, fun σ hσ ↦ hji ?_⟩
        exact (h.unique j hj i hi τ σ (by rw [hτ]; exact hx) (by rw [hτ, hσ])).1
  count_eq := by
    intro j hj
    by_cases hji : j = i
    · subst hji
      simp [heldSlots]
    · simp only [Function.update_of_ne hji]
      exact h.count_eq j hj

end Ledger

-- The type of slots may be large: membership goes through `mem_heldSlots`.
attribute [irreducible] heldSlots

end OperatingSystems.Library
