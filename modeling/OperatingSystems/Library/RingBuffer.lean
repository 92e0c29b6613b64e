import Mathlib.Data.List.Basic
import Mathlib.Data.Nat.ModEq
import Mathlib.Logic.Function.Basic
import Mathlib.Tactic.Common

/-!
# A queue kept in a ring of slots

A ring of `n` slots with an index `i` of the next slot to fill and an index `o` of the next slot to
empty keeps a queue of fewer than `n` elements: `Holds slot n i o q` says that the queue `q` lies in
the slots `o, o + 1, …` modulo `n` and that `i` is the slot after them. One slot stays unused, so
that `i = o` is the empty queue (`Holds.eq_iff`) and the number of elements is the distance from `o`
to `i` modulo `n` (`Holds.occupancy_eq`).

Filling the slot `i` leaves the queue alone (`Holds.store`); moving `i` on appends what was filled
(`Holds.push`); moving `o` on drops the first element (`Holds.pop`), which is found in slot `o`
(`Holds.head`).
-/

set_option autoImplicit false
set_option relaxedAutoImplicit false

namespace OperatingSystems.Library.RingBuffer

universe u

variable {α : Type u} {slot : ℕ → α} {n i o : ℕ} {q : List α} {x : α}

/-- The ring of `n` slots keeps the queue `q`. -/
structure Holds (slot : ℕ → α) (n i o : ℕ) (q : List α) : Prop where
  out_lt : o < n
  length_lt : q.length < n
  in_eq : i = (o + q.length) % n
  slots : ∀ k (h : k < q.length), slot ((o + k) % n) = q[k]

namespace Holds

/-- A sum of two indices reduced modulo the number of slots. -/
theorem mod_eq_ite {k : ℕ} (ho : o < n) (hk : k < n) :
    (o + k) % n = if o + k < n then o + k else o + k - n := by
  split_ifs with h
  · exact Nat.mod_eq_of_lt h
  · rw [Nat.mod_eq_sub_mod (by omega), Nat.mod_eq_of_lt (by omega)]

/-- The distance between the indices is the length of the queue. -/
theorem occupancy_eq (h : Holds slot n i o q) : (i + n - o) % n = q.length := by
  have ho := h.out_lt
  have hq := h.length_lt
  rw [h.in_eq, mod_eq_ite ho hq]
  split_ifs with hwrap
  · rw [show o + q.length + n - o = q.length + n by omega, Nat.add_mod_right,
      Nat.mod_eq_of_lt hq]
  · rw [show o + q.length - n + n - o = q.length by omega, Nat.mod_eq_of_lt hq]

/-- The indices meet exactly when the queue is empty. -/
theorem eq_iff (h : Holds slot n i o q) : i = o ↔ q = [] := by
  have ho := h.out_lt
  have hq := h.length_lt
  rw [h.in_eq, mod_eq_ite ho hq, ← List.length_eq_zero_iff]
  split_ifs with hwrap <;> omega

/-- The next slot to fill is none of the slots of the queue. -/
theorem slot_ne_in (h : Holds slot n i o q) {k : ℕ} (hk : k < q.length) : (o + k) % n ≠ i := by
  have ho := h.out_lt
  have hq := h.length_lt
  rw [h.in_eq, mod_eq_ite ho hq, mod_eq_ite ho (by omega)]
  split_ifs <;> omega

/-- Filling the next slot leaves the queue alone. -/
theorem store (h : Holds slot n i o q) (x : α) : Holds (Function.update slot i x) n i o q where
  out_lt := h.out_lt
  length_lt := h.length_lt
  in_eq := h.in_eq
  slots k hk := by
    rw [Function.update_of_ne (h.slot_ne_in hk)]
    exact h.slots k hk

/-- Assumes: room for one more element. Moving the index on appends what the slot was filled
with. -/
theorem push (h : Holds slot n i o q) (hroom : q.length + 1 < n) (hx : slot i = x) :
    Holds slot n ((i + 1) % n) o (q ++ [x]) where
  out_lt := h.out_lt
  length_lt := by
    rw [List.length_append]
    exact hroom
  in_eq := by
    rw [h.in_eq, Nat.mod_add_mod, List.length_append, List.length_singleton, Nat.add_assoc]
  slots k hk := by
    rw [List.length_append, List.length_singleton] at hk
    rcases Nat.lt_or_ge k q.length with hold | hnew
    · rw [List.getElem_append_left hold]
      exact h.slots k hold
    · have hlast : k = q.length := by omega
      subst hlast
      rw [List.getElem_append_right (Nat.le_refl _), List.getElem_singleton, ← h.in_eq]
      exact hx

/-- The first element of the queue lies in the next slot to empty. -/
theorem head (h : Holds slot n i o (x :: q)) : slot o = x := by
  have hfirst := h.slots 0 (by simp)
  rw [Nat.add_zero, Nat.mod_eq_of_lt h.out_lt] at hfirst
  exact hfirst

/-- Moving the other index on drops the first element. -/
theorem pop (h : Holds slot n i o (x :: q)) : Holds slot n i ((o + 1) % n) q where
  out_lt := Nat.mod_lt _ (by have := h.out_lt; omega)
  length_lt := by
    have := h.length_lt
    rw [List.length_cons] at this
    omega
  in_eq := by
    rw [h.in_eq, Nat.mod_add_mod, List.length_cons]
    congr 1
    omega
  slots k hk := by
    have hnext := h.slots (k + 1) (by rw [List.length_cons]; omega)
    rw [List.getElem_cons_succ] at hnext
    rw [Nat.mod_add_mod, ← hnext]
    congr 2
    omega

end Holds

end OperatingSystems.Library.RingBuffer
