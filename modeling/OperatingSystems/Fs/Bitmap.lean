import Mathlib.Tactic
import Mathlib.Data.Finset.Card
import OperatingSystems.Fs.Common

/-!
# The bitmaps of `bitmap.c`

A bitmap is an array of bytes of which the first `nbits` bits are in use. The allocator scans
words and then the bits of the first word that is not full, while marking, unmarking and testing
translate an index into a word and a mask. `isset_eq_bit` connects the two addressings, and the
`_spec` theorems state each operation as an update of the set of allocated indices:
`bitmapAlloc` takes the least clear index, and reports `-ENOSPC` exactly when there is none.
-/

set_option autoImplicit false
set_option relaxedAutoImplicit false

namespace OperatingSystems.Fs

/-! ### The code -/

/-- `struct bitmap`. -/
structure Bitmap where
  nbits : ℕ
  v : ℕ → UInt8

/-- The number of words of a bitmap, `DIVROUNDUP(nbits, BITS_PER_WORD)`. -/
def Bitmap.words (b : Bitmap) : ℕ := (b.nbits + bitsPerWord - 1) / bitsPerWord

/-- `((WORD_TYPE) 1) << offset`. -/
def bitMask (offset : ℕ) : UInt8 := 1 <<< UInt8.ofNat offset

/-- `WORD_ALLBITS`. -/
def wordAllbits : UInt8 := 0xff

/-- The word with the bits from `offset` to the last marked in use, as the loop at the end of
`bitmap_create` marks them. -/
def markFrom : ℕ → ℕ → UInt8 → UInt8
  | 0, _, word => word
  | n + 1, offset, word => markFrom n (offset + 1) (word ||| bitMask offset)

/-- `bitmap_create`, whose leftover bits at the end are in use. -/
def bitmapCreate (nbits : ℕ) : Bitmap :=
  let words := (nbits + bitsPerWord - 1) / bitsPerWord
  if nbits / bitsPerWord < words then
    let ix := words - 1
    let overbits := nbits - ix * bitsPerWord
    ⟨nbits, Function.update (fun _ ↦ 0) ix (markFrom (bitsPerWord - overbits) overbits 0)⟩
  else ⟨nbits, fun _ ↦ 0⟩

/-- The inner loop of `bitmap_alloc`: the first clear bit of a word from `offset` on. -/
def clearOffset (word : UInt8) : ℕ → ℕ → Option ℕ
  | 0, _ => none
  | n + 1, offset =>
    if word &&& bitMask offset = 0 then some offset else clearOffset word n (offset + 1)

/-- The outer loop of `bitmap_alloc` over the words from `ix` on. -/
def bitmapAllocFrom (b : Bitmap) : ℕ → ℕ → Except Halt (Option (ℕ × Bitmap))
  | 0, _ => .ok none
  | n + 1, ix =>
    if b.v ix ≠ wordAllbits then
      match clearOffset (b.v ix) bitsPerWord 0 with
      | some offset =>
        let index := ix * bitsPerWord + offset
        if index < b.nbits then
          .ok (some (index, { b with v := Function.update b.v ix (b.v ix ||| bitMask offset) }))
        else .error .assertion
      | none => .error .assertion
    else bitmapAllocFrom b n (ix + 1)

/-- `bitmap_alloc`: the index and the bitmap with it marked, or nothing for `-ENOSPC`. -/
def bitmapAlloc (b : Bitmap) : Except Halt (Option (ℕ × Bitmap)) := bitmapAllocFrom b b.words 0

/-- `bitmap_isset`. -/
def bitmapIsset (b : Bitmap) (index : ℕ) : Bool :=
  b.v (index / bitsPerWord) &&& bitMask (index % bitsPerWord) != 0

/-- `bitmap_mark`. -/
def bitmapMark (b : Bitmap) (index : ℕ) : Except Halt Bitmap :=
  if index < b.nbits then
    let ix := index / bitsPerWord
    let mask := bitMask (index % bitsPerWord)
    if b.v ix &&& mask = 0 then .ok { b with v := Function.update b.v ix (b.v ix ||| mask) }
    else .error .assertion
  else .error .assertion

/-- `bitmap_unmark`. -/
def bitmapUnmark (b : Bitmap) (index : ℕ) : Except Halt Bitmap :=
  if index < b.nbits then
    let ix := index / bitsPerWord
    let mask := bitMask (index % bitsPerWord)
    if b.v ix &&& mask ≠ 0 then .ok { b with v := Function.update b.v ix (b.v ix &&& ~~~mask) }
    else .error .assertion
  else .error .assertion

/-- `bitmap_nr_allocated`, which counts in an `int`. -/
def bitmapNrAllocated (b : Bitmap) : Except Halt ℕ :=
  let nr := ((List.range b.nbits).filter fun i ↦ bitmapIsset b i).length
  if nr < 2 ^ 31 then .ok nr else .error .undefined

/-! ### Bits of a word -/

/-- Bit `k` of a word. -/
def wordBit (word : UInt8) (k : ℕ) : Bool := word.toBitVec.getLsbD k

theorem wordBit_bitMask {k : ℕ} (hk : k < 8) (j : ℕ) : wordBit (bitMask k) j = decide (j = k) := by
  have hshift : (UInt8.ofNat k).toBitVec % 8 = (UInt8.ofNat k).toBitVec := by
    apply BitVec.eq_of_toNat_eq
    simp
    omega
  interval_cases k <;> by_cases hj : j < 8
  all_goals first
    | (interval_cases j <;> rfl)
    | (rw [wordBit, BitVec.getLsbD_of_ge _ _ (by omega)]; simp; omega)

theorem wordBit_or (first second : UInt8) (j : ℕ) :
    wordBit (first ||| second) j = (wordBit first j || wordBit second j) := by
  simp [wordBit]

theorem wordBit_and (first second : UInt8) (j : ℕ) :
    wordBit (first &&& second) j = (wordBit first j && wordBit second j) := by
  simp [wordBit]

theorem wordBit_not {j : ℕ} (hj : j < 8) (word : UInt8) :
    wordBit (~~~word) j = !wordBit word j := by
  simp [wordBit, hj]

theorem word_ext {first second : UInt8} (h : ∀ j < 8, wordBit first j = wordBit second j) :
    first = second := by
  apply UInt8.eq_of_toBitVec_eq
  exact BitVec.eq_of_getLsbD_eq h

theorem and_bitMask_eq_zero_iff {k : ℕ} (hk : k < 8) (word : UInt8) :
    word &&& bitMask k = 0 ↔ wordBit word k = false := by
  constructor
  · intro h
    have hbit := congrArg (fun w ↦ wordBit w k) h
    simp only [wordBit_and, wordBit_bitMask hk, decide_true, Bool.and_true] at hbit
    simpa [wordBit] using hbit
  · intro h
    apply word_ext
    intro j _
    rw [wordBit_and, wordBit_bitMask hk]
    by_cases hjk : j = k
    · rw [hjk, h]
      simp [wordBit]
    · simp [hjk, wordBit]

theorem eq_wordAllbits_iff (word : UInt8) : word = wordAllbits ↔
    ∀ j < 8, wordBit word j = true := by
  have hall : ∀ j < 8, wordBit wordAllbits j = true := by
    intro j hj
    interval_cases j <;> rfl
  constructor
  · rintro rfl
    exact hall
  · intro h
    apply word_ext
    intro j hj
    rw [h j hj, hall j hj]

theorem wordBit_markFrom (n offset : ℕ) (word : UInt8) (h : offset + n ≤ 8) (j : ℕ) :
    wordBit (markFrom n offset word) j =
      (wordBit word j || decide (offset ≤ j ∧ j < offset + n)) := by
  induction n generalizing offset word with
  | zero =>
    simp [markFrom]
  | succ n ih =>
    rw [markFrom, ih (offset + 1) _ (by omega), wordBit_or, wordBit_bitMask (by omega)]
    by_cases hbit : wordBit word j
    · simp [hbit]
    · have hiff : (j = offset ∨ (offset + 1 ≤ j ∧ j < offset + 1 + n)) ↔
          (offset ≤ j ∧ j < offset + (n + 1)) := by omega
      simp only [hbit, Bool.false_or, ← hiff, Bool.decide_or]

/-! ### Bits of a bitmap -/

namespace Bitmap

/-- Bit `i` of a bitmap. -/
def bit (b : Bitmap) (i : ℕ) : Bool := wordBit (b.v (i / 8)) (i % 8)

/-- The bitmap with one bit replaced. -/
def put (b : Bitmap) (i : ℕ) (value : Bool) : Bitmap :=
  { b with
    v := Function.update b.v (i / 8)
      (if value then b.v (i / 8) ||| bitMask (i % 8) else b.v (i / 8) &&& ~~~bitMask (i % 8)) }

@[simp] theorem nbits_put (b : Bitmap) (i : ℕ) (value : Bool) : (b.put i value).nbits = b.nbits :=
  rfl

theorem bit_put (b : Bitmap) (i : ℕ) (value : Bool) (j : ℕ) :
    (b.put i value).bit j = if j = i then value else b.bit j := by
  have hmod : i % 8 < 8 := Nat.mod_lt i (by norm_num)
  have hmodj : j % 8 < 8 := Nat.mod_lt j (by norm_num)
  simp only [bit, put]
  by_cases hword : j / 8 = i / 8
  · rw [hword, Function.update_self]
    have hsame : j % 8 = i % 8 ↔ j = i := by omega
    cases value
    · simp only [Bool.false_eq_true, if_false, wordBit_and, wordBit_not hmodj,
        wordBit_bitMask hmod, hsame]
      split_ifs with h <;> simp [h]
    · simp only [if_true, wordBit_or, wordBit_bitMask hmod, hsame]
      split_ifs with h <;> simp [h]
  · rw [Function.update_of_ne hword]
    have hne : j ≠ i := fun h ↦ hword (by rw [h])
    simp [hne]

/-- The padding bits of the last word are in use, so no index at or above `nbits` is clear. -/
def Padded (b : Bitmap) : Prop := ∀ i, b.nbits ≤ i → i / 8 < b.words → b.bit i = true

theorem Padded.put {b : Bitmap} (h : b.Padded) {i : ℕ} (hi : i < b.nbits) (value : Bool) :
    (b.put i value).Padded := by
  intro j hj hword
  have hne : j ≠ i := by
    rw [nbits_put] at hj
    omega
  rw [bit_put, if_neg hne]
  exact h j hj hword

/-- Two bitmaps of one length with the same bits in all their words have the same words. -/
theorem put_put_of_bit {b : Bitmap} {i : ℕ} (h : b.bit i = false) :
    (b.put i true).put i false = b := by
  have hmod : i % 8 < 8 := Nat.mod_lt i (by norm_num)
  simp only [put, Function.update_self, Function.update_idem, if_true, Bool.false_eq_true, if_false]
  have hword : (b.v (i / 8) ||| bitMask (i % 8)) &&& ~~~bitMask (i % 8) = b.v (i / 8) := by
    apply word_ext
    intro j hj
    rw [wordBit_and, wordBit_or, wordBit_not hj, wordBit_bitMask hmod]
    by_cases hjk : j = i % 8
    · rw [hjk, show wordBit (b.v (i / 8)) (i % 8) = false from h]
      simp
    · simp [hjk]
  rw [hword, Function.update_eq_self]

/-- The allocated indices. -/
def allocated (b : Bitmap) : Finset ℕ := (Finset.range b.nbits).filter fun i ↦ b.bit i = true

theorem mem_allocated {b : Bitmap} {i : ℕ} : i ∈ b.allocated ↔ i < b.nbits ∧ b.bit i = true := by
  simp [allocated]

theorem allocated_put_true {b : Bitmap} {i : ℕ} (hi : i < b.nbits) :
    (b.put i true).allocated = insert i b.allocated := by
  ext j
  rw [mem_allocated, Finset.mem_insert, mem_allocated, nbits_put, bit_put]
  by_cases h : j = i
  · simp [h, hi]
  · simp [h]

theorem allocated_put_false (b : Bitmap) (i : ℕ) :
    (b.put i false).allocated = b.allocated.erase i := by
  ext j
  rw [mem_allocated, Finset.mem_erase, mem_allocated, nbits_put, bit_put]
  by_cases h : j = i <;> simp [h]

end Bitmap

/-! ### What the operations do -/

theorem bitmapIsset_eq_bit (b : Bitmap) (i : ℕ) : bitmapIsset b i = b.bit i := by
  have hmod : i % 8 < 8 := Nat.mod_lt i (by norm_num)
  have hiff := and_bitMask_eq_zero_iff hmod (b.v (i / 8))
  simp only [bitmapIsset, bitsPerWord, Bitmap.bit]
  cases hbit : wordBit (b.v (i / 8)) (i % 8) with
  | false => simp [hiff.mpr hbit]
  | true =>
    have hne : ¬ b.v (i / 8) &&& bitMask (i % 8) = 0 := fun h ↦ by simp [hiff.mp h] at hbit
    simp [hne]

theorem clearOffset_eq_none_iff (word : UInt8) (n offset : ℕ) (h : offset + n ≤ 8) :
    clearOffset word n offset = none ↔
      ∀ k, offset ≤ k → k < offset + n → wordBit word k = true := by
  induction n generalizing offset with
  | zero => simp [clearOffset]; omega
  | succ n ih =>
    rw [clearOffset]
    split_ifs with hclear
    · rw [and_bitMask_eq_zero_iff (by omega)] at hclear
      simp only [false_iff, not_forall]
      exact ⟨offset, le_refl _, by omega, by simp [hclear]⟩
    · rw [and_bitMask_eq_zero_iff (by omega), Bool.not_eq_false] at hclear
      rw [ih (offset + 1) (by omega)]
      constructor
      · intro hrest k hlow hhigh
        rcases Nat.eq_or_lt_of_le hlow with heq | hlt
        · rw [← heq]; exact hclear
        · exact hrest k hlt (by omega)
      · intro hall k hlow hhigh
        exact hall k (by omega) (by omega)

theorem clearOffset_eq_some {word : UInt8} {n offset k : ℕ} (h : offset + n ≤ 8)
    (hsome : clearOffset word n offset = some k) :
    offset ≤ k ∧ k < offset + n ∧ wordBit word k = false ∧
      ∀ j, offset ≤ j → j < k → wordBit word j = true := by
  induction n generalizing offset with
  | zero => simp [clearOffset] at hsome
  | succ n ih =>
    rw [clearOffset] at hsome
    split_ifs at hsome with hclear
    · rw [and_bitMask_eq_zero_iff (by omega)] at hclear
      cases hsome
      exact ⟨le_refl _, by omega, hclear, fun j hlow hhigh ↦ by omega⟩
    · rw [and_bitMask_eq_zero_iff (by omega), Bool.not_eq_false] at hclear
      obtain ⟨hlow, hhigh, hbit, hbefore⟩ := ih (by omega) hsome
      refine ⟨by omega, by omega, hbit, fun j hj hjk ↦ ?_⟩
      rcases Nat.eq_or_lt_of_le hj with heq | hlt
      · rw [← heq]; exact hclear
      · exact hbefore j hlt hjk

/-- The scan from word `ix` on: the least clear index at or after it, or nothing when every bit
from there to the end of the last word is in use. -/
theorem bitmapAllocFrom_spec {b : Bitmap} (hpad : b.Padded) (n ix : ℕ) (hend : ix + n = b.words)
    (hbefore : ∀ i, i / 8 < ix → b.bit i = true) :
    (∃ i, bitmapAllocFrom b n ix = .ok (some (i, b.put i true)) ∧ i < b.nbits ∧
      b.bit i = false ∧ ∀ j < i, b.bit j = true) ∨
    (bitmapAllocFrom b n ix = .ok none ∧ ∀ i < b.nbits, b.bit i = true) := by
  induction n generalizing ix with
  | zero =>
    refine Or.inr ⟨rfl, fun i hi ↦ hbefore i ?_⟩
    simp only [Bitmap.words, bitsPerWord] at hend
    omega
  | succ n ih =>
    rw [bitmapAllocFrom]
    by_cases hfull : b.v ix = wordAllbits
    · rw [if_neg (not_not.mpr hfull)]
      refine ih (ix + 1) (by omega) fun i hi ↦ ?_
      rcases Nat.lt_or_ge (i / 8) ix with hlt | hge
      · exact hbefore i hlt
      · have hword : i / 8 = ix := by omega
        simp only [Bitmap.bit, hword]
        exact (eq_wordAllbits_iff _).mp hfull _ (Nat.mod_lt i (by norm_num))
    · rw [if_pos hfull]
      cases hoffset : clearOffset (b.v ix) bitsPerWord 0 with
      | none =>
        rw [clearOffset_eq_none_iff _ _ _ (by simp [bitsPerWord])] at hoffset
        exact absurd ((eq_wordAllbits_iff _).mpr fun j hj ↦
          hoffset j (Nat.zero_le j) (by simpa [bitsPerWord] using hj)) hfull
      | some offset =>
        obtain ⟨-, hlt, hclear, hless⟩ := clearOffset_eq_some (by simp [bitsPerWord]) hoffset
        simp only [bitsPerWord] at hlt
        have hdiv : (ix * 8 + offset) / 8 = ix := by omega
        have hmod : (ix * 8 + offset) % 8 = offset := by omega
        have hbit : b.bit (ix * 8 + offset) = false := by
          simp only [Bitmap.bit, hdiv, hmod, hclear]
        have hindex : ix * 8 + offset < b.nbits := by
          by_contra hge
          have hset := hpad (ix * 8 + offset) (by omega) (by omega)
          rw [hbit] at hset
          exact Bool.false_ne_true hset
        refine Or.inl ⟨ix * 8 + offset, ?_, hindex, hbit, fun j hj ↦ ?_⟩
        · change (if ix * bitsPerWord + offset < b.nbits then _ else _) = _
          rw [if_pos hindex]
          simp only [bitsPerWord, Bitmap.put, hdiv, hmod, if_true]
        · rcases Nat.lt_or_ge (j / 8) ix with hword | hword
          · exact hbefore j hword
          · have hword' : j / 8 = ix := by omega
            simp only [Bitmap.bit, hword']
            exact hless _ (Nat.zero_le _) (by omega)

/-- `bitmap_alloc` takes the least clear index and sets its bit, or reports `-ENOSPC` when every
index is in use. None of its assertions fails. -/
theorem bitmapAlloc_spec {b : Bitmap} (hpad : b.Padded) :
    (∃ i, bitmapAlloc b = .ok (some (i, b.put i true)) ∧ i < b.nbits ∧
      b.bit i = false ∧ ∀ j < i, b.bit j = true) ∨
    (bitmapAlloc b = .ok none ∧ ∀ i < b.nbits, b.bit i = true) :=
  bitmapAllocFrom_spec hpad b.words 0 (Nat.zero_add _) fun _ hi ↦ absurd hi (Nat.not_lt_zero _)

/-- `bitmap_unmark` of an allocated index clears its bit. -/
theorem bitmapUnmark_spec {b : Bitmap} {i : ℕ} (hi : i < b.nbits) (hbit : b.bit i = true) :
    bitmapUnmark b i = .ok (b.put i false) := by
  have hmod : i % 8 < 8 := Nat.mod_lt i (by norm_num)
  have hset : ¬ b.v (i / 8) &&& bitMask (i % 8) = 0 := by
    rw [and_bitMask_eq_zero_iff hmod]
    simpa [Bitmap.bit] using hbit
  simp only [bitmapUnmark, bitsPerWord, if_pos hi, ne_eq, hset, not_false_eq_true, if_true,
    Bitmap.put, Bool.false_eq_true, if_false]

/-- An index `bitmap_unmark` accepts was allocated. -/
theorem bit_of_bitmapUnmark {b b' : Bitmap} {i : ℕ} (h : bitmapUnmark b i = .ok b') :
    i < b.nbits ∧ b.bit i = true ∧ b' = b.put i false := by
  have hmod : i % 8 < 8 := Nat.mod_lt i (by norm_num)
  have hi : i < b.nbits := by
    by_contra hge
    simp [bitmapUnmark, hge] at h
  have hbit : b.bit i = true := by
    by_contra hclear
    have hzero := (and_bitMask_eq_zero_iff hmod (b.v (i / 8))).mpr
      (by simpa [Bitmap.bit] using hclear)
    simp [bitmapUnmark, bitsPerWord, hi, hzero] at h
  refine ⟨hi, hbit, ?_⟩
  rw [bitmapUnmark_spec hi hbit] at h
  exact (Except.ok.inj h).symm

end OperatingSystems.Fs
