import Mathlib.Data.UInt

/-!
# Numbers in decimal

The bytes that `printf` prints for `%d` and `%u`, and what they denote.
-/

set_option autoImplicit false
set_option relaxedAutoImplicit false

namespace OperatingSystems.Library

variable {n m : ℕ} {c : UInt8}

/-- The decimal digits of a number, in ASCII. -/
def digitBytes (n : ℕ) : List UInt8 := (Nat.toDigits 10 n).map fun c ↦ UInt8.ofNat c.toNat

theorem toNat_of_isDigit {c : Char} (h : c.isDigit = true) : 48 ≤ c.toNat ∧ c.toNat ≤ 57 := by
  rw [Char.isDigit, Bool.and_eq_true, decide_eq_true_eq, decide_eq_true_eq] at h
  exact ⟨UInt32.le_iff_toNat_le.mp h.1, UInt32.le_iff_toNat_le.mp h.2⟩

theorem toNat_ofNat_digit {c : Char} (h : c.isDigit = true) :
    (UInt8.ofNat c.toNat).toNat = c.toNat := by
  have hdigit := toNat_of_isDigit h
  rw [UInt8.toNat_ofNat', Nat.mod_eq_of_lt (by omega)]

/-- Every byte of a number is a digit. -/
theorem range_of_mem_digitBytes (h : c ∈ digitBytes n) : 48 ≤ c.toNat ∧ c.toNat ≤ 57 := by
  rw [digitBytes, List.mem_map] at h
  obtain ⟨d, hd, rfl⟩ := h
  have hdigit := Nat.isDigit_of_mem_toDigits (by decide) (by decide) hd
  rw [toNat_ofNat_digit hdigit]
  exact toNat_of_isDigit hdigit

theorem digitBytes_ne_nil (n : ℕ) : digitBytes n ≠ [] := by
  rw [digitBytes, Ne, List.map_eq_nil_iff]
  exact Nat.toDigits_ne_nil

theorem length_digitBytes_le (h : n < 10 ^ 10) : (digitBytes n).length ≤ 10 := by
  rw [digitBytes, List.length_map]
  exact (Nat.length_toDigits_le_iff (by decide) (by decide)).mpr h

/-- The digits denote the number. -/
theorem foldl_digitBytes (n : ℕ) :
    (digitBytes n).foldl (fun v c ↦ 10 * v + (c.toNat - 48)) 0 = n := by
  have hfold : ∀ (l : List Char) (v : ℕ), (∀ c ∈ l, c.isDigit = true) →
      (l.map fun c ↦ UInt8.ofNat c.toNat).foldl (fun v c ↦ 10 * v + (c.toNat - 48)) v =
        Nat.ofDigitChars 10 l v := by
    intro l
    induction l with
    | nil => exact fun v _ ↦ Nat.ofDigitChars_nil.symm
    | cons c l ih =>
      intro v h
      rw [List.map_cons, List.foldl_cons, ih _ fun d hd ↦ h d (List.mem_cons_of_mem c hd),
        toNat_ofNat_digit (h c List.mem_cons_self), Nat.ofDigitChars_cons]
      rfl
  rw [digitBytes, hfold _ _ fun c hc ↦ Nat.isDigit_of_mem_toDigits (by decide) (by decide) hc,
    Nat.ofDigitChars_ten_toDigits]

/-- Different numbers have different digits. -/
theorem digitBytes_injective : Function.Injective digitBytes := by
  intro n m h
  rw [← foldl_digitBytes n, ← foldl_digitBytes m, h]

end OperatingSystems.Library
