import Mathlib.Tactic
import Mathlib.Data.Int.Basic

/-!
# Little-endian words in byte arrays

A byte array is a function from offsets to bytes. `leByte v k` is byte `k` of the little-endian
form of `v`, and `leNat w bytes` the value of the `w` bytes from offset zero; `leNat_leByte` is
the round trip, which keeps the value modulo `256 ^ w`. Signed machine integers are two's
complement: `toUnsigned w` is the word that represents an integer and `toSigned w` the integer
that a word represents, and the two are inverse on the range of the type
(`toSigned_toUnsigned`).

`wordAt w bytes k` reads word `k` of an array of `w`-byte words and `setWord w bytes k v` writes
it; `wordAt_setWord` is the array law.
-/

set_option autoImplicit false
set_option relaxedAutoImplicit false

namespace OperatingSystems.Library

/-! ### Words and bytes -/

/-- Byte `k` of the little-endian form of `v`. -/
def leByte (v k : ℕ) : UInt8 := UInt8.ofNat (v / 256 ^ k)

/-- The value of the first `w` bytes, least significant byte first. -/
def leNat : ℕ → (ℕ → UInt8) → ℕ
  | 0, _ => 0
  | w + 1, bytes => (bytes 0).toNat + 256 * leNat w fun k ↦ bytes (k + 1)

theorem leNat_congr {w : ℕ} {first second : ℕ → UInt8} (h : ∀ k < w, first k = second k) :
    leNat w first = leNat w second := by
  induction w generalizing first second with
  | zero => rfl
  | succ w ih =>
    simp only [leNat]
    rw [h 0 (by omega), ih fun k hk ↦ h (k + 1) (by omega)]

theorem leByte_succ (v k : ℕ) : leByte v (k + 1) = leByte (v / 256) k := by
  simp only [leByte, pow_succ', Nat.div_div_eq_div_mul]

/-- The bytes of a value, read back as a word, are the value modulo `256 ^ w`. -/
theorem leNat_leByte (w v : ℕ) : leNat w (leByte v) = v % 256 ^ w := by
  induction w generalizing v with
  | zero => simp [leNat, Nat.mod_one]
  | succ w ih =>
    have hrest : (fun k ↦ leByte v (k + 1)) = leByte (v / 256) := by
      funext k
      exact leByte_succ v k
    simp only [leNat, hrest, ih]
    rw [pow_succ', Nat.mod_mul]
    simp [leByte]

@[simp] theorem leNat_zero (w : ℕ) : leNat w (fun _ ↦ 0) = 0 := by
  induction w with
  | zero => rfl
  | succ w ih => simp [leNat, ih]

/-! ### Two's complement -/

/-- The `w`-byte word that represents an integer. -/
def toUnsigned (w : ℕ) (z : ℤ) : ℕ := (z % 256 ^ w).toNat

/-- The integer that a `w`-byte word represents in two's complement. -/
def toSigned (w : ℕ) (n : ℕ) : ℤ := Int.bmod n (256 ^ w)

theorem toSigned_eq_self {w : ℕ} {z : ℤ} (hlow : -(256 ^ w / 2) ≤ z)
    (hhigh : z < (256 ^ w + 1) / 2) :
    Int.bmod z (256 ^ w) = z := by
  apply Int.bmod_eq_of_le
  · push_cast
    exact hlow
  · push_cast
    exact hhigh

/-- Storing an integer of the range of the type and loading it gives it back. -/
theorem toSigned_toUnsigned {w : ℕ} {z : ℤ} (hlow : -(256 ^ w / 2) ≤ z)
    (hhigh : z < (256 ^ w + 1) / 2) : toSigned w (toUnsigned w z % 256 ^ w) = z := by
  have hpos : (0 : ℤ) < 256 ^ w := by positivity
  have hnonneg : 0 ≤ z % 256 ^ w := Int.emod_nonneg z hpos.ne'
  have hcast : ((toUnsigned w z % 256 ^ w : ℕ) : ℤ) = z % 256 ^ w := by
    simp only [toUnsigned]
    push_cast [Int.toNat_of_nonneg hnonneg]
    exact Int.emod_emod_of_dvd z (dvd_refl _)
  rw [toSigned, hcast]
  have hbmod : Int.bmod (z % 256 ^ w) (256 ^ w) = Int.bmod z (256 ^ w) := by
    have h := Int.emod_bmod (n := 256 ^ w) z
    push_cast at h
    exact h
  rw [hbmod]
  exact toSigned_eq_self hlow hhigh

@[simp] theorem toSigned_zero (w : ℕ) : toSigned w 0 = 0 := by
  simp [toSigned]

theorem toSigned_range {w : ℕ} (n : ℕ) :
    -(256 ^ w / 2) ≤ toSigned w n ∧ toSigned w n < (256 ^ w + 1) / 2 := by
  have hpos : 0 < 256 ^ w := by positivity
  have hlow := Int.le_bmod (x := n) hpos
  have hhigh := Int.bmod_lt (x := n) hpos
  push_cast at hlow hhigh
  exact ⟨hlow, hhigh⟩

/-! ### Arrays of words -/

/-- Word `k` of an array of `w`-byte words. -/
def wordAt (w : ℕ) (bytes : ℕ → UInt8) (k : ℕ) : ℕ := leNat w fun j ↦ bytes (w * k + j)

/-- The array with word `k` replaced. -/
def setWord (w : ℕ) (bytes : ℕ → UInt8) (k v : ℕ) : ℕ → UInt8 := fun j ↦
  if w * k ≤ j ∧ j < w * k + w then leByte v (j - w * k) else bytes j

@[simp] theorem wordAt_zero (w k : ℕ) : wordAt w (fun _ ↦ 0) k = 0 := by
  simp [wordAt]

theorem wordAt_congr {w k : ℕ} {first second : ℕ → UInt8}
    (h : ∀ j < w, first (w * k + j) = second (w * k + j)) :
    wordAt w first k = wordAt w second k :=
  leNat_congr h

/-- A word of an array whose bytes there are those of a number. -/
theorem wordAt_of_leByte {w k v : ℕ} {bytes : ℕ → UInt8}
    (h : ∀ j < w, bytes (w * k + j) = leByte v j) : wordAt w bytes k = v % 256 ^ w := by
  rw [← leNat_leByte]
  exact leNat_congr h

theorem wordAt_setWord_self (w : ℕ) (bytes : ℕ → UInt8) (k v : ℕ) :
    wordAt w (setWord w bytes k v) k = v % 256 ^ w := by
  rw [← leNat_leByte]
  apply leNat_congr
  intro j hj
  simp only [setWord]
  rw [if_pos ⟨by omega, by omega⟩, Nat.add_sub_cancel_left]

theorem wordAt_setWord_of_ne {w k l : ℕ} (bytes : ℕ → UInt8) (v : ℕ) (h : l ≠ k) :
    wordAt w (setWord w bytes k v) l = wordAt w bytes l := by
  apply leNat_congr
  intro j hj
  simp only [setWord]
  rw [if_neg]
  rintro ⟨hlow, hhigh⟩
  rcases lt_or_gt_of_ne h with hlt | hgt
  · have hmul : w * (l + 1) ≤ w * k := Nat.mul_le_mul_left w hlt
    rw [mul_add, mul_one] at hmul
    omega
  · have hmul : w * (k + 1) ≤ w * l := Nat.mul_le_mul_left w hgt
    rw [mul_add, mul_one] at hmul
    omega

/-- Reading a word of an array after writing one. -/
theorem wordAt_setWord (w : ℕ) (bytes : ℕ → UInt8) (k l v : ℕ) :
    wordAt w (setWord w bytes k v) l = if l = k then v % 256 ^ w else wordAt w bytes l := by
  split_ifs with h
  · rw [h, wordAt_setWord_self]
  · exact wordAt_setWord_of_ne bytes v h

-- Unfolding these computes with the powers of 256; from here on their lemmas are used.
attribute [irreducible] toUnsigned toSigned wordAt setWord

end OperatingSystems.Library
