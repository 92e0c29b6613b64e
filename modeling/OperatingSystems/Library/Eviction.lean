import Mathlib.Data.List.Basic
import Mathlib.Tactic.SplitIfs

/-!
# Making room in a list

A list of things with sizes, some of them pinned. `leave pinned size amount n l` walks the list and
drops what is not pinned, until the sizes dropped and the `n` before them come to `amount`; it is
what is left. What is dropped is the shortest part of the unpinned things, from the front, that
comes to the amount, or all of them if that is not enough (`leave_eq`, `leave_eq_filter`), and the
rest keeps its order.
-/

set_option autoImplicit false
set_option relaxedAutoImplicit false

namespace OperatingSystems.Library.Eviction

universe u

variable {α : Type u} (pinned : α → Bool) (size : α → ℕ) (amount : ℕ)

/-- What is left of a list when unpinned things are dropped from its front on until, with what was
dropped before, their sizes come to an amount. -/
def leave : ℕ → List α → List α
  | _, [] => []
  | n, x :: l =>
    if pinned x then x :: leave n l
    else if amount ≤ n + size x then l
    else leave (n + size x) l

/-- The things that are not pinned. -/
def idle (l : List α) : List α := l.filter fun x ↦ !pinned x

/-- The sizes of a list together. -/
def total : List α → ℕ
  | [] => 0
  | x :: l => size x + total l

variable {pinned size amount}

@[simp] theorem total_nil : total size [] = 0 := rfl

@[simp] theorem total_cons (x : α) (l : List α) : total size (x :: l) = size x + total size l := rfl

/-- The total depends on the sizes of the list's own things only. -/
theorem total_congr {size' : α → ℕ} {l : List α} (h : ∀ x ∈ l, size' x = size x) :
    total size' l = total size l := by
  induction l with
  | nil => rfl
  | cons x l ih =>
    rw [total_cons, total_cons, h x List.mem_cons_self,
      ih fun y hy ↦ h y (List.mem_cons_of_mem x hy)]

theorem idle_cons_of_pinned {x : α} (h : pinned x = true) (l : List α) :
    idle pinned (x :: l) = idle pinned l := List.filter_cons_of_neg (by simp [h])

theorem idle_cons_of_not_pinned {x : α} (h : ¬pinned x = true) (l : List α) :
    idle pinned (x :: l) = x :: idle pinned l := List.filter_cons_of_pos (by simp [h])

theorem total_append (l r : List α) : total size (l ++ r) = total size l + total size r := by
  induction l with
  | nil => rw [List.nil_append, total_nil, Nat.zero_add]
  | cons x l ih => rw [List.cons_append, total_cons, total_cons, ih, Nat.add_assoc]

/-- The things of a list are those pinned and those not pinned. -/
theorem total_filter_add_idle (l : List α) :
    total size (l.filter pinned) + total size (idle pinned l) = total size l := by
  induction l with
  | nil => rfl
  | cons x l ih =>
    by_cases hx : pinned x = true
    · rw [List.filter_cons_of_pos hx, idle_cons_of_pinned hx, total_cons, total_cons]
      omega
    · rw [List.filter_cons_of_neg hx, idle_cons_of_not_pinned hx, total_cons, total_cons]
      omega

/-- Nothing is added and the order stays. -/
theorem leave_sublist (n : ℕ) (l : List α) : (leave pinned size amount n l).Sublist l := by
  induction l generalizing n with
  | nil => exact List.Sublist.refl []
  | cons x l ih =>
    rw [leave]
    split_ifs
    · exact (ih n).cons_cons x
    · exact List.sublist_cons_self x l
    · exact (ih _).cons x

/-- The list depends on the pins and sizes of its own things only. -/
theorem leave_congr {pinned' : α → Bool} {size' : α → ℕ} {l : List α}
    (hpinned : ∀ x ∈ l, pinned' x = pinned x) (hsize : ∀ x ∈ l, size' x = size x) (n : ℕ) :
    leave pinned' size' amount n l = leave pinned size amount n l := by
  induction l generalizing n with
  | nil => rfl
  | cons x l ih =>
    have hrest := ih (fun y hy ↦ hpinned y (List.mem_cons_of_mem x hy))
      fun y hy ↦ hsize y (List.mem_cons_of_mem x hy)
    rw [leave, leave, hpinned x List.mem_cons_self, hsize x List.mem_cons_self, hrest, hrest]

/-- If the unpinned things do not come to the amount, all of them are dropped. -/
theorem leave_eq_filter {n : ℕ} {l : List α} (h : n + total size (idle pinned l) < amount) :
    leave pinned size amount n l = l.filter pinned := by
  induction l generalizing n with
  | nil => rfl
  | cons x l ih =>
    rw [leave]
    by_cases hx : pinned x = true
    · rw [idle_cons_of_pinned hx] at h
      rw [if_pos hx, ih h, List.filter_cons_of_pos hx]
    · rw [idle_cons_of_not_pinned hx, total_cons] at h
      rw [if_neg hx, if_neg (by omega), ih (by omega), List.filter_cons_of_neg hx]

/-- All unpinned things are dropped, or what is dropped comes to the amount. -/
theorem leave_eq_filter_or (n : ℕ) (l : List α) :
    leave pinned size amount n l = l.filter pinned ∨
      amount + total size (leave pinned size amount n l) ≤ n + total size l := by
  induction l generalizing n with
  | nil => exact .inl rfl
  | cons x l ih =>
    rw [leave, total_cons]
    by_cases hx : pinned x = true
    · rw [if_pos hx, List.filter_cons_of_pos hx, total_cons]
      refine (ih n).imp (fun h ↦ by rw [h]) fun h ↦ ?_
      omega
    · rw [if_neg hx, List.filter_cons_of_neg hx]
      by_cases hdone : amount ≤ n + size x
      · rw [if_pos hdone]
        right
        omega
      · rw [if_neg hdone]
        refine (ih (n + size x)).imp id fun h ↦ ?_
        omega

/-- Otherwise the shortest part of them is dropped that comes to the amount. -/
theorem leave_eq [BEq α] [LawfulBEq α] {n : ℕ} {l : List α} (hnodup : l.Nodup) (hn : n < amount)
    (h : amount ≤ n + total size (idle pinned l)) :
    ∃ k ≤ (idle pinned l).length,
      leave pinned size amount n l = l.filter (· ∉ (idle pinned l).take k) ∧
      amount ≤ n + total size ((idle pinned l).take k) ∧
      ∀ j < k, n + total size ((idle pinned l).take j) < amount := by
  induction l generalizing n with
  | nil =>
    rw [idle, List.filter_nil, total_nil] at h
    omega
  | cons x l ih =>
    obtain ⟨hx, hnodup⟩ := List.nodup_cons.mp hnodup
    -- What is dropped of the rest does not contain the first thing.
    have hfilter : ∀ dropped : List α, x ∉ dropped →
        (x :: l).filter (· ∉ dropped) = x :: l.filter (· ∉ dropped) := fun dropped hd ↦
      List.filter_cons_of_pos (by simpa using hd)
    by_cases hpin : pinned x = true
    · rw [idle_cons_of_pinned hpin] at h ⊢
      obtain ⟨k, hk, hleave, henough, hleast⟩ := ih hnodup hn h
      refine ⟨k, hk, ?_, henough, hleast⟩
      rw [leave, if_pos hpin, hleave, hfilter]
      exact fun hmem ↦ hx (List.mem_of_mem_filter (List.mem_of_mem_take hmem))
    rw [idle_cons_of_not_pinned hpin] at h ⊢
    rw [total_cons] at h
    have hrest : ∀ k, (x :: l).filter (· ∉ (x :: idle pinned l).take (k + 1)) =
        l.filter (· ∉ (idle pinned l).take k) := by
      intro k
      rw [List.take_succ_cons, List.filter_cons_of_neg (by simp)]
      refine List.filter_congr fun y hy ↦ ?_
      have hne : y ≠ x := ne_of_mem_of_not_mem hy hx
      simp [hne]
    by_cases hdone : amount ≤ n + size x
    · refine ⟨1, by simp, ?_, by simpa using hdone, fun j hj ↦ ?_⟩
      · rw [leave, if_neg hpin, if_pos hdone, hrest 0, List.take_zero]
        simp
      · rw [Nat.lt_one_iff.mp hj, List.take_zero, total_nil]
        omega
    · obtain ⟨k, hk, hleave, henough, hleast⟩ := @ih (n + size x) hnodup (by omega) (by omega)
      refine ⟨k + 1, by simpa using hk, ?_, ?_, fun j hj ↦ ?_⟩
      · rw [leave, if_neg hpin, if_neg hdone, hleave, hrest]
      · rw [List.take_succ_cons, total_cons]
        omega
      · cases j with
        | zero =>
          rw [List.take_zero, total_nil]
          omega
        | succ j =>
          have hj' := hleast j (by omega)
          rw [List.take_succ_cons, total_cons]
          omega

end OperatingSystems.Library.Eviction
