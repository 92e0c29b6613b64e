import OperatingSystems.Fs.Bitmap

/-!
# Runs of the bitmap operations

A bitmap is created with any number of bits, and then `bitmap_alloc`, `bitmap_mark` and
`bitmap_unmark` are called, in any order, where their assertions hold (`BitmapRun`). The run keeps
the set of the indices that are allocated and the numbers of allocations and releases, as a caller
would. `BitmapRun.tracked` says that the bits of the bitmap are this set and that its padding bits
stay in use; what the operations return follows from that.

`bitmap_nr_allocated` counts in an `int`, so that it fails on a bitmap with `2^31` bits in use.
-/

set_option autoImplicit false
set_option relaxedAutoImplicit false

namespace OperatingSystems.Fs

variable {nbits i allocations releases : ℕ} {b b' : Bitmap} {held : Finset ℕ}

/-! ### A new bitmap -/

/-- The bits of a new bitmap that are in use are those behind its end in the last word. -/
theorem bit_bitmapCreate (hi : i / 8 < (bitmapCreate nbits).words) :
    (bitmapCreate nbits).bit i = decide (nbits ≤ i) := by
  have hwords : (bitmapCreate nbits).words = (nbits + 7) / 8 := by
    rw [bitmapCreate]
    split_ifs <;> rfl
  rw [hwords] at hi
  have hzero : ∀ k, wordBit 0 k = false := fun k ↦ by simp [wordBit]
  rw [bitmapCreate]
  simp only [bitsPerWord, Nat.add_one_sub_one]
  split_ifs with hpadded
  · rw [Bitmap.bit]
    dsimp only
    by_cases hword : i / 8 = (nbits + 7) / 8 - 1
    · rw [hword, Function.update_self, wordBit_markFrom _ _ _ (by omega), hzero, Bool.false_or,
        decide_eq_decide]
      omega
    · rw [Function.update_of_ne hword, hzero, eq_comm, decide_eq_false_iff_not]
      omega
  · rw [Bitmap.bit, hzero, eq_comm, decide_eq_false_iff_not]
    omega

theorem nbits_bitmapCreate (nbits : ℕ) : (bitmapCreate nbits).nbits = nbits := by
  rw [bitmapCreate]
  split_ifs <;> rfl

theorem padded_bitmapCreate (nbits : ℕ) : (bitmapCreate nbits).Padded := by
  intro i hi hword
  rw [nbits_bitmapCreate] at hi
  rw [bit_bitmapCreate hword, decide_eq_true_eq]
  exact hi

theorem allocated_bitmapCreate (nbits : ℕ) : (bitmapCreate nbits).allocated = ∅ := by
  refine Finset.eq_empty_of_forall_notMem fun i hi ↦ ?_
  obtain ⟨hlt, hbit⟩ := Bitmap.mem_allocated.mp hi
  have hword : i / 8 < (bitmapCreate nbits).words := by
    simp only [Bitmap.words, bitsPerWord]
    omega
  rw [nbits_bitmapCreate] at hlt
  rw [bit_bitmapCreate hword, decide_eq_true_eq] at hbit
  omega

/-- An index `bitmap_mark` accepts was free. -/
theorem bit_of_bitmapMark (h : bitmapMark b i = .ok b') :
    i < b.nbits ∧ b.bit i = false ∧ b' = b.put i true := by
  have hmod : i % 8 < 8 := Nat.mod_lt i (by norm_num)
  simp only [bitmapMark, bitsPerWord] at h
  split_ifs at h with hi hclear
  refine ⟨hi, (and_bitMask_eq_zero_iff hmod _).mp hclear, ?_⟩
  rw [← Except.ok.inj h, Bitmap.put, if_pos rfl]

/-! ### Runs -/

/-- A run of calls that starts with `bitmap_create`: the bitmap after it, the indices that are
allocated then, and the numbers of allocations and of releases. -/
inductive BitmapRun (nbits : ℕ) : Bitmap → Finset ℕ → ℕ → ℕ → Prop
  | create (hbits : nbits + 7 < 2 ^ 32) : BitmapRun nbits (bitmapCreate nbits) ∅ 0 0
  | alloc {b b' : Bitmap} {held : Finset ℕ} {allocations releases i : ℕ}
      (hrun : BitmapRun nbits b held allocations releases)
      (hcall : bitmapAlloc b = .ok (some (i, b'))) :
    BitmapRun nbits b' (insert i held) (allocations + 1) releases
  | full {b : Bitmap} {held : Finset ℕ} {allocations releases : ℕ}
      (hrun : BitmapRun nbits b held allocations releases) (hcall : bitmapAlloc b = .ok none) :
    BitmapRun nbits b held allocations releases
  | mark {b b' : Bitmap} {held : Finset ℕ} {allocations releases i : ℕ}
      (hrun : BitmapRun nbits b held allocations releases) (hcall : bitmapMark b i = .ok b') :
    BitmapRun nbits b' (insert i held) (allocations + 1) releases
  | unmark {b b' : Bitmap} {held : Finset ℕ} {allocations releases i : ℕ}
      (hrun : BitmapRun nbits b held allocations releases) (hcall : bitmapUnmark b i = .ok b') :
    BitmapRun nbits b' (held.erase i) allocations (releases + 1)

/-- The bitmap has exactly the allocated indices in use. -/
structure Bitmap.Tracks (b : Bitmap) (nbits : ℕ) (held : Finset ℕ) (allocations releases : ℕ) :
    Prop where
  nbits : b.nbits = nbits
  padded : b.Padded
  allocated : b.allocated = held
  count : held.card + releases = allocations

namespace Bitmap.Tracks

/-- A free index is allocated. -/
theorem take (h : b.Tracks nbits held allocations releases) (hi : i < b.nbits)
    (hbit : b.bit i = false) :
    (b.put i true).Tracks nbits (insert i held) (allocations + 1) releases where
  nbits := h.nbits
  padded := h.padded.put hi true
  allocated := by rw [allocated_put_true hi, h.allocated]
  count := by
    have hnot : i ∉ held := by
      rw [← h.allocated, mem_allocated, hbit]
      simp
    rw [Finset.card_insert_of_notMem hnot, ← h.count]
    omega

/-- An allocated index is released. -/
theorem release (h : b.Tracks nbits held allocations releases) (hi : i < b.nbits)
    (hbit : b.bit i = true) :
    (b.put i false).Tracks nbits (held.erase i) allocations (releases + 1) where
  nbits := h.nbits
  padded := h.padded.put hi false
  allocated := by rw [allocated_put_false, h.allocated]
  count := by
    have hmem : i ∈ held := h.allocated ▸ mem_allocated.mpr ⟨hi, hbit⟩
    have hcard := Finset.card_erase_add_one hmem
    rw [← h.count]
    omega

/-- `bitmap_isset` tells whether an index is allocated. -/
theorem isset_iff (h : b.Tracks nbits held allocations releases) (hi : i < nbits) :
    bitmapIsset b i = true ↔ i ∈ held := by
  rw [bitmapIsset_eq_bit, ← h.allocated, mem_allocated, h.nbits]
  exact (and_iff_right hi).symm

/-- The number of bits in use. -/
theorem count_isset (h : b.Tracks nbits held allocations releases) :
    ((List.range b.nbits).filter fun j ↦ bitmapIsset b j).length = held.card := by
  rw [← h.allocated, Bitmap.allocated]
  simp only [Finset.card_def, Finset.filter_val, Finset.range_val, Multiset.range,
    Multiset.filter_coe, Multiset.coe_card, Bool.decide_eq_true, bitmapIsset_eq_bit]

end Bitmap.Tracks

/-- A run keeps the bitmap and the allocated indices together. -/
theorem BitmapRun.tracked (hrun : BitmapRun nbits b held allocations releases) :
    b.Tracks nbits held allocations releases := by
  induction hrun with
  | create => exact ⟨nbits_bitmapCreate nbits, padded_bitmapCreate nbits,
      allocated_bitmapCreate nbits, rfl⟩
  | alloc _ hcall ih =>
    rcases bitmapAlloc_spec ih.padded with ⟨i, halloc, hi, hbit, -⟩ | ⟨halloc, -⟩
    · obtain ⟨rfl, rfl⟩ := Prod.mk.inj (Option.some.inj (Except.ok.inj (halloc.symm.trans hcall)))
      exact ih.take hi hbit
    · cases halloc.symm.trans hcall
  | full _ _ ih => exact ih
  | mark _ hcall ih =>
    obtain ⟨hi, hbit, rfl⟩ := bit_of_bitmapMark hcall
    exact ih.take hi hbit
  | unmark _ hcall ih =>
    obtain ⟨hi, hbit, rfl⟩ := bit_of_bitmapUnmark hcall
    exact ih.release hi hbit

/-- In every run: `bitmap_alloc` passes its assertions, reports `-ENOSPC` exactly if all indices are
allocated, and takes the least free index otherwise, and just this one; `bitmap_unmark` gives up
just its index; `bitmap_isset` tells the allocated indices; and `bitmap_nr_allocated` is the number
of allocations less the releases exactly if that is below `2^31`. -/
theorem bitmap_allocates_least (hrun : BitmapRun nbits b held allocations releases) :
    ((∃ result, bitmapAlloc b = .ok result) ∧
      (bitmapAlloc b = .ok none ↔ ∀ i < nbits, i ∈ held) ∧
      ∀ i b', bitmapAlloc b = .ok (some (i, b')) → i < nbits ∧ i ∉ held ∧ (∀ j < i, j ∈ held) ∧
        b'.nbits = b.nbits ∧ ∀ j, bitmapIsset b' j = if j = i then true else bitmapIsset b j) ∧
    (∀ i b', bitmapUnmark b i = .ok b' → i < nbits ∧ i ∈ held ∧ b'.nbits = b.nbits ∧
      ∀ j, bitmapIsset b' j = if j = i then false else bitmapIsset b j) ∧
    (∀ i < nbits, bitmapIsset b i = true ↔ i ∈ held) ∧
    ((∃ nr, bitmapNrAllocated b = .ok nr ∧ nr + releases = allocations) ↔
      allocations < 2 ^ 31 + releases) := by
  have htracks := hrun.tracked
  have hmem : ∀ i < nbits, (b.bit i = true ↔ i ∈ held) := fun i hi ↦ by
    rw [← bitmapIsset_eq_bit]
    exact htracks.isset_iff hi
  refine ⟨?_, fun i b' hcall ↦ ?_, fun i hi ↦ htracks.isset_iff hi, ?_⟩
  · rcases bitmapAlloc_spec htracks.padded with ⟨i, halloc, hi, hbit, hleast⟩ | ⟨halloc, hfull⟩
    · rw [htracks.nbits] at hi
      have hfree : i ∉ held := fun hin ↦ by simp [(hmem i hi).mpr hin] at hbit
      refine ⟨⟨_, halloc⟩, ⟨fun hnone ↦ ?_, fun hall ↦ absurd (hall i hi) hfree⟩,
        fun j b' hcall ↦ ?_⟩
      · cases halloc.symm.trans hnone
      · obtain ⟨rfl, rfl⟩ := Prod.mk.inj (Option.some.inj (Except.ok.inj (halloc.symm.trans hcall)))
        refine ⟨hi, hfree, fun j hj ↦ (hmem j (by omega)).mp (hleast j hj), rfl, fun j ↦ ?_⟩
        rw [bitmapIsset_eq_bit, bitmapIsset_eq_bit, Bitmap.bit_put]
    · rw [htracks.nbits] at hfull
      refine ⟨⟨_, halloc⟩, ⟨fun _ i hi ↦ (hmem i hi).mp (hfull i hi), fun _ ↦ halloc⟩,
        fun j b' hcall ↦ ?_⟩
      cases halloc.symm.trans hcall
  · obtain ⟨hi, hbit, rfl⟩ := bit_of_bitmapUnmark hcall
    rw [htracks.nbits] at hi
    refine ⟨hi, (hmem i hi).mp hbit, rfl, fun j ↦ ?_⟩
    rw [bitmapIsset_eq_bit, bitmapIsset_eq_bit, Bitmap.bit_put]
  · have hcount := htracks.count
    rw [bitmapNrAllocated, htracks.count_isset]
    split_ifs with hsmall
    · exact iff_of_true ⟨_, rfl, hcount⟩ (by omega)
    · exact iff_of_false (fun ⟨_, hnr, _⟩ ↦ by cases hnr) (by omega)

/-- As many indices can be allocated as there are bits. -/
theorem BitmapRun.exists_allocated (hbits : nbits + 7 < 2 ^ 32) :
    ∀ n ≤ nbits, ∃ b held, BitmapRun nbits b held n 0 := by
  intro n
  induction n with
  | zero => exact fun _ ↦ ⟨_, _, .create hbits⟩
  | succ n ih =>
    intro hn
    obtain ⟨b, held, hrun⟩ := ih (by omega)
    have htracks := hrun.tracked
    rcases bitmapAlloc_spec htracks.padded with ⟨i, halloc, -⟩ | ⟨-, hfull⟩
    · exact ⟨_, _, hrun.alloc halloc⟩
    · have hall : b.allocated = Finset.range nbits := by
        rw [Bitmap.allocated, Finset.filter_true_of_mem fun i hi ↦ hfull i (Finset.mem_range.mp hi),
          htracks.nbits]
      have hcard := htracks.count
      rw [← htracks.allocated, hall, Finset.card_range] at hcard
      omega

/-- Of ten indices three are allocated. -/
theorem bitmap_allocates_least_ten : ∃ b held, BitmapRun 10 b held 3 0 ∧
    ∃ nr, bitmapNrAllocated b = .ok nr ∧ nr + 0 = 3 := by
  obtain ⟨b, held, hrun⟩ := BitmapRun.exists_allocated (by norm_num : 10 + 7 < 2 ^ 32) 3
    (by norm_num)
  exact ⟨b, held, hrun, (bitmap_allocates_least hrun).2.2.2.mpr (by norm_num)⟩

/-- A bitmap with `2^31` bits, all of them allocated, has too many for `bitmap_nr_allocated`. -/
theorem bitmapNrAllocated_overflows : ∃ b held, BitmapRun (2 ^ 31) b held (2 ^ 31) 0 ∧
    ¬∃ nr, bitmapNrAllocated b = .ok nr ∧ nr + 0 = 2 ^ 31 := by
  obtain ⟨b, held, hrun⟩ := BitmapRun.exists_allocated (by norm_num : 2 ^ 31 + 7 < 2 ^ 32) _ le_rfl
  refine ⟨b, held, hrun, fun ⟨nr, hnr, hcount⟩ ↦ ?_⟩
  rw [bitmapNrAllocated] at hnr
  split_ifs at hnr with hsmall
  rw [Except.ok.inj hnr] at hsmall
  omega

end OperatingSystems.Fs
