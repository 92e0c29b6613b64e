import OperatingSystems.Fs.Write

/-!
# Freeing the blocks of an inode

`testfs_free_blocks` walks over the slots of an inode in three loops, bounded by the number of
blocks that the size allows. `Freeing i inode S s t n` describes the state `t` in the middle of
the walk: the blocks in the slots `S` have been given back and zeroed, everything else is as it
was in `s`, and the in-memory inode `n` has counted down. Every turn of every loop adds a slot to
`S` (`Freeing.free`). At the end `S` has all slots that hold a block, because no slot lies beyond
the size.
-/

set_option autoImplicit false
set_option relaxedAutoImplicit false

namespace OperatingSystems.Fs

open Library

/-- The slots of a set that hold a block. -/
def heldIn (own : Slot → ℤ) (S : Finset Slot) : Finset Slot := S.filter fun σ ↦ own σ ≠ 0

theorem heldIn_insert_of_zero {own : Slot → ℤ} {σ : Slot} (h : own σ = 0) (S : Finset Slot) :
    heldIn own (insert σ S) = heldIn own S := by
  rw [heldIn, Finset.filter_insert, if_neg (not_not.mpr h), heldIn]

theorem card_heldIn_insert {own : Slot → ℤ} {σ : Slot} (h : own σ ≠ 0) {S : Finset Slot}
    (hσ : σ ∉ S) : (heldIn own (insert σ S)).card = (heldIn own S).card + 1 := by
  rw [heldIn, Finset.filter_insert, if_pos h, Finset.card_insert_of_notMem, heldIn]
  exact fun hmem ↦ hσ (Finset.mem_of_mem_filter σ hmem)

/-- The blocks in the slots `S` of inode `i` have been given back. -/
structure Freeing (i : ℕ) (inode : Inode) (S : Finset Slot) (s t : FsState) (n : Inode) : Prop where
  sb : t.sb = { s.sb with usedBlockCount := t.blockFreemap.allocated.card }
  inodeFreemap : t.inodeFreemap = s.inodeFreemap
  nbits : t.blockFreemap.nbits = s.blockFreemap.nbits
  bit : ∀ idx, t.blockFreemap.bit idx = true ↔
    s.blockFreemap.bit idx = true ∧ ∀ σ ∈ S, s.own i σ ≠ (firstDataBlock + idx : ℕ)
  zeroed : ∀ σ ∈ S, s.own i σ ≠ 0 → t.dev.blocks (s.own i σ).toNat = Block.zero
  kept : ∀ b, firstInodeBlock ≤ b → (∀ σ ∈ S, s.own i σ ≠ 0 → b ≠ (s.own i σ).toNat) →
    t.dev.blocks b = s.dev.blocks b
  len : s.dev.len ≤ t.dev.len
  table_ne : ∀ j, j ≠ i → t.inodeHashTable j = s.inodeHashTable j
  allocFailed : t.allocFailed = s.allocFailed
  inMemory : t.inodeHashTable i = some n
  count : n.din.blockCount = inode.din.blockCount - (heldIn (s.own i) S).card
  iCount : n.iCount = inode.iCount
  slots : ∀ σ, σ.parent = none → σ ∉ S → slotVal s.dev.blocks n.din σ = s.own i σ

section Freeing

variable {i : ℕ} {inode n : Inode} {S : Finset Slot} {s t : FsState} {σ : Slot}

namespace Freeing

theorem start (hs : Core s) (ht : s.inodeHashTable i = some inode) :
    Freeing i inode ∅ s s inode where
  sb := by rw [← hs.used]
  inodeFreemap := rfl
  nbits := rfl
  bit := by simp
  zeroed := by simp
  kept := fun _ _ _ ↦ rfl
  len := le_rfl
  table_ne := fun _ _ ↦ rfl
  allocFailed := rfl
  inMemory := ht
  count := by simp [heldIn]
  iCount := rfl
  slots := fun σ _ _ ↦ (own_of_some ht σ).symm

/-- An empty slot can be passed over. -/
theorem skip (h : Freeing i inode S s t n) (hzero : s.own i σ = 0) :
    Freeing i inode (insert σ S) s t n where
  sb := h.sb
  inodeFreemap := h.inodeFreemap
  nbits := h.nbits
  bit := by
    intro idx
    have hne : s.own i σ ≠ (firstDataBlock + idx : ℕ) := by
      rw [hzero]
      exact Ne.symm (by positivity)
    rw [h.bit, Finset.forall_mem_insert]
    exact ⟨fun hand ↦ ⟨hand.1, hne, hand.2⟩, fun hand ↦ ⟨hand.1, hand.2.2⟩⟩
  zeroed := by
    intro τ hτ hne
    rcases Finset.mem_insert.mp hτ with rfl | hmem
    · exact absurd hzero hne
    · exact h.zeroed τ hmem hne
  kept := fun b hb hne ↦ h.kept b hb fun τ hτ ↦ hne τ (Finset.mem_insert_of_mem hτ)
  len := h.len
  table_ne := h.table_ne
  allocFailed := h.allocFailed
  inMemory := h.inMemory
  count := by rw [heldIn_insert_of_zero hzero]; exact h.count
  iCount := h.iCount
  slots := fun τ hτ hmem ↦ h.slots τ hτ fun hS ↦ hmem (Finset.mem_insert_of_mem hS)

theorem layout (h : Freeing i inode S s t n) (hs : Layout s) : Layout t where
  inodeFreemapStart := by rw [h.sb]; exact hs.inodeFreemapStart
  blockFreemapStart := by rw [h.sb]; exact hs.blockFreemapStart
  inodeBlocksStart := by rw [h.sb]; exact hs.inodeBlocksStart
  dataBlocksStart := by rw [h.sb]; exact hs.dataBlocksStart
  inodeBits := by rw [h.inodeFreemap]; exact hs.inodeBits
  blockBits := by rw [h.nbits]; exact hs.blockBits
  devLen := hs.devLen.trans h.len

/-- The block of a slot that was not freed is still in use. -/
theorem bit_of_notMem (h : Freeing i inode S s t n) (hs : Core s) (hi : i < nrInodes)
    (hσ : σ ∉ S) {idx : ℕ} (hown : s.own i σ = (firstDataBlock + idx : ℕ))
    (hset : s.blockFreemap.bit idx = true) : t.blockFreemap.bit idx = true := by
  rw [h.bit]
  refine ⟨hset, fun τ hτ heq ↦ hσ ?_⟩
  have hne : s.own i σ ≠ 0 := by
    rw [hown]
    positivity
  obtain ⟨-, rfl⟩ := hs.ledger.unique i hi i hi σ τ hne (hown.trans heq.symm)
  exact hτ

/-- The index block of a slot that was not freed is still there. -/
theorem blocks_of_notMem (h : Freeing i inode S s t n) (hs : Core s) (hi : i < nrInodes)
    (hσ : σ ∉ S) (hne : s.own i σ ≠ 0) :
    t.dev.blocks (s.own i σ).toNat = s.dev.blocks (s.own i σ).toNat := by
  apply h.kept
  · exact le_trans (by decide) (hs.own_toNat hi hne).2.1
  · intro τ hτ hτne heq
    obtain ⟨-, rfl⟩ := hs.own_inj hi hi hne heq hτne
    exact hσ hτ

/-- Freeing the block of a slot. -/
theorem free (h : Freeing i inode S s t n) (hs : Core s) (hi : i < nrInodes) (hσ : σ ∉ S) :
    ∃ t' n', (testfsFreeBlockFromInode i (s.own i σ)).run t = .ok ((), t') ∧
      Freeing i inode (insert σ S) s t' n' := by
  by_cases hzero : s.own i σ = 0
  · refine ⟨t, n, ?_, h.skip hzero⟩
    rw [hzero, testfsFreeBlockFromInode, if_pos rfl, Program.pure_run]
  obtain ⟨idx, hidx, hown, hset⟩ := hs.inUse hi hzero
  have hlayout := h.layout hs.layout
  have hbit := h.bit_of_notMem hs hi hσ hown hset
  have hnbits : idx < t.blockFreemap.nbits := by rw [hlayout.blockBits]; exact hidx
  have hmem : idx ∈ t.blockFreemap.allocated := Bitmap.mem_allocated.mpr ⟨hnbits, hbit⟩
  have hused : t.sb.usedBlockCount = t.blockFreemap.allocated.card := by rw [h.sb]
  have hpos : 0 < t.sb.usedBlockCount := by
    rw [hused]
    exact Finset.card_pos.mpr ⟨idx, hmem⟩
  have hstart := hlayout.dataBlocksStart
  have hzeroed : Layout (t.putDev (firstDataBlock + idx) Block.zero) := hlayout.putDev _ _
  have hblocks : ∀ b, firstInodeBlock ≤ b → (t.releaseBlock idx).dev.blocks b =
      (t.dev.put (firstDataBlock + idx) Block.zero).blocks b := by
    intro b hb
    rw [FsState.releaseBlock, hstart]
    exact blocks_putBlockBit hzeroed hidx hb
  have htoNat : (s.own i σ).toNat = firstDataBlock + idx := by rw [hown, Int.toNat_natCast]
  refine ⟨(t.releaseBlock idx).setInode i (some (n.addCount (-1))), n.addCount (-1),
    by rw [hown]; exact testfsFreeBlockFromInode_run hlayout h.inMemory hidx hbit hpos,
    ?_, h.inodeFreemap, h.nbits, ?_, ?_, ?_, ?_, ?_, h.allocFailed,
    inodeHashTable_setInode_self _ _ _, ?_, h.iCount, ?_⟩
  · change { t.sb with usedBlockCount := t.sb.usedBlockCount - 1 } =
      { s.sb with usedBlockCount := (t.blockFreemap.put idx false).allocated.card }
    rw [Bitmap.allocated_put_false, Finset.card_erase_of_mem hmem, ← hused, h.sb]
  · intro idx'
    change (t.blockFreemap.put idx false).bit idx' = true ↔ _
    rw [Bitmap.bit_put, Finset.forall_mem_insert, hown]
    by_cases heq : idx' = idx
    · subst heq
      simp
    · rw [if_neg heq, h.bit]
      have hne : ((firstDataBlock + idx : ℕ) : ℤ) ≠ (firstDataBlock + idx' : ℕ) := by
        intro hcast
        have := Int.ofNat.inj hcast
        omega
      exact ⟨fun hand ↦ ⟨hand.1, hne, hand.2⟩, fun hand ↦ ⟨hand.1, hand.2.2⟩⟩
  · intro τ hτ hτne
    have hlow : firstInodeBlock ≤ (s.own i τ).toNat :=
      le_trans (by decide) (hs.own_toNat hi hτne).2.1
    refine (hblocks _ hlow).trans ?_
    by_cases hsame : (s.own i τ).toNat = firstDataBlock + idx
    · rw [hsame, Device.blocks_put_self]
    · rw [Device.blocks_put_of_ne _ _ hsame]
      rcases Finset.mem_insert.mp hτ with rfl | hmem'
      · exact absurd htoNat hsame
      · exact h.zeroed τ hmem' hτne
  · intro b hb hne
    have hnew : b ≠ firstDataBlock + idx := by
      rw [← htoNat]
      exact hne σ (Finset.mem_insert_self σ S) hzero
    refine (hblocks b hb).trans ?_
    rw [Device.blocks_put_of_ne _ _ hnew]
    exact h.kept b hb fun τ hτ ↦ hne τ (Finset.mem_insert_of_mem hτ)
  · refine h.len.trans ?_
    change t.dev.len ≤ (t.releaseBlock idx).dev.len
    rw [FsState.releaseBlock, hstart]
    exact le_trans (Device.len_le_put _ _ _) (len_putBlockBit hzeroed hidx).ge
  · intro j hj
    rw [inodeHashTable_setInode_of_ne _ _ hj]
    exact h.table_ne j hj
  · change n.din.blockCount + -1 = _
    rw [h.count, card_heldIn_insert hzero hσ]
    push_cast
    ring
  · intro τ hτ hmem'
    rw [← h.slots τ hτ fun hS ↦ hmem' (Finset.mem_insert_of_mem hS)]
    exact slotVal_top_congr _ _ rfl hτ

/-- Clearing a slot of the dinode whose block was freed. -/
theorem setSlot (h : Freeing i inode S s t n) (hσ : σ ∈ S) :
    Freeing i inode S s (t.setInode i (some { n with din := n.din.setSlot σ 0 }))
      { n with din := n.din.setSlot σ 0 } where
  sb := h.sb
  inodeFreemap := h.inodeFreemap
  nbits := h.nbits
  bit := h.bit
  zeroed := h.zeroed
  kept := h.kept
  len := h.len
  table_ne := fun j hj ↦ by rw [inodeHashTable_setInode_of_ne _ _ hj, h.table_ne j hj]
  allocFailed := h.allocFailed
  inMemory := inodeHashTable_setInode_self _ _ _
  count := by
    rw [← h.count]
    cases σ <;> rfl
  iCount := h.iCount
  slots := by
    intro τ hτ hmem
    have hne : τ ≠ σ := by
      rintro rfl
      exact hmem hσ
    rw [slotVal_setSlot_top _ _ _ hτ, if_neg hne]
    exact h.slots τ hτ hmem

end Freeing

/-! ### The loops -/

/-- The loop over the entries `k, …, k + m - 1` of an index block, where entry `j` is slot `f j`. -/
theorem freeEntries_run (hs : Core s) (hi : i < nrInodes) {block : Block}
    {f : Fin nrIndirectBlocks → Slot}
    (hf : Function.Injective f)
    (hblock : ∀ (j : ℕ) (hj : j < nrIndirectBlocks), block.getInt j = s.own i (f ⟨j, hj⟩)) (m : ℕ) :
    ∀ (k : ℕ) {S : Finset Slot} {t : FsState} {n : Inode}, k + m ≤ nrIndirectBlocks →
      Freeing i inode S s t n → (∀ j : Fin nrIndirectBlocks, k ≤ j → f j ∉ S) →
      ∃ S' t' n', (freeEntries i block m k).run t = .ok ((), t') ∧ Freeing i inode S' s t' n' ∧
        ∀ σ, σ ∈ S' ↔ σ ∈ S ∨ ∃ j : Fin nrIndirectBlocks, k ≤ j ∧ (j : ℕ) < k + m ∧ σ = f j := by
  induction m with
  | zero =>
    intro k S t n _ h _
    refine ⟨S, t, n, rfl, h, fun σ ↦ ⟨Or.inl, ?_⟩⟩
    rintro (hmem | ⟨j, hle, hlt, -⟩)
    · exact hmem
    · omega
  | succ m ih =>
    intro k S t n hk h hfresh
    have hlt : k < nrIndirectBlocks := by omega
    obtain ⟨t₁, n₁, hfree, h₁⟩ := h.free hs hi (hfresh ⟨k, hlt⟩ le_rfl)
    obtain ⟨S', t', n', hrest, h', hmem⟩ := ih (k + 1) (by omega) h₁ (by
      intro j hj hmem
      rcases Finset.mem_insert.mp hmem with heq | hold
      · have := congrArg Fin.val (hf heq)
        simp only at this
        omega
      · exact hfresh j (by omega) hold)
    refine ⟨S', t', n', ?_, h', ?_⟩
    · rw [← hblock k hlt] at hfree
      rw [freeEntries] at hrest ⊢
      rw [Program.forRange_succ_run (fun j ↦ testfsFreeBlockFromInode i (block.getInt j)) hfree]
      exact hrest
    · intro σ
      rw [hmem, Finset.mem_insert]
      constructor
      · rintro ((rfl | hold) | ⟨j, hle, hj, rfl⟩)
        · exact Or.inr ⟨⟨k, hlt⟩, le_rfl, by simp, rfl⟩
        · exact Or.inl hold
        · exact Or.inr ⟨j, by omega, by omega, rfl⟩
      · rintro (hold | ⟨j, hle, hj, rfl⟩)
        · exact Or.inl (Or.inr hold)
        · rcases hle.eq_or_lt with heq | hlt'
          · refine Or.inl (Or.inl ?_)
            congr 1
            exact Fin.ext heq.symm
          · exact Or.inr ⟨j, hlt', by omega, rfl⟩

/-- The loop over the direct blocks. -/
theorem freeDirect_run (hs : Core s) (hi : i < nrInodes) (e : ℕ) (m : ℕ) :
    ∀ (k : ℕ) {S : Finset Slot} {t : FsState} {n : Inode}, k + m = nrDirectBlocks →
      Freeing i inode S s t n → (∀ σ ∈ S, ∃ j : Fin nrDirectBlocks, (j : ℕ) < k ∧ σ = .direct j) →
      ∃ S' t' n', (freeDirect i e m k).run t = .ok ((), t') ∧ Freeing i inode S' s t' n' ∧ S ⊆ S' ∧
        (∀ σ ∈ S', ∃ j, σ = .direct j) ∧
        ∀ j : Fin nrDirectBlocks, k ≤ j → (j : ℕ) < e → Slot.direct j ∈ S' := by
  induction m with
  | zero =>
    intro k S t n hk h hS
    refine ⟨S, t, n, rfl, h, Finset.Subset.refl S, ?_, ?_⟩
    · intro σ hσ
      obtain ⟨j, -, rfl⟩ := hS σ hσ
      exact ⟨j, rfl⟩
    · intro j hj
      have := j.isLt
      omega
  | succ m ih =>
    intro k S t n hk h hS
    have hlt : k < nrDirectBlocks := by omega
    rw [freeDirect]
    by_cases hend : (k : ℤ) < e
    swap
    · refine ⟨S, t, n, by rw [if_neg hend, Program.pure_run], h, Finset.Subset.refl S, ?_, ?_⟩
      · intro σ hσ
        obtain ⟨j, -, rfl⟩ := hS σ hσ
        exact ⟨j, rfl⟩
      · intro j hj hje
        omega
    have hnot : Slot.direct ⟨k, hlt⟩ ∉ S := by
      intro hmem
      obtain ⟨j, hj, heq⟩ := hS _ hmem
      rw [Slot.direct.injEq] at heq
      rw [← heq] at hj
      exact lt_irrefl k hj
    have hslot : n.din.iBlockNr ⟨k, hlt⟩ = s.own i (.direct ⟨k, hlt⟩) := h.slots _ rfl hnot
    have hnext : ∀ σ ∈ insert (Slot.direct ⟨k, hlt⟩) S,
        ∃ j : Fin nrDirectBlocks, (j : ℕ) < k + 1 ∧ σ = .direct j := by
      intro σ hσ
      rcases Finset.mem_insert.mp hσ with rfl | hold
      · exact ⟨⟨k, hlt⟩, Nat.lt_succ_self k, rfl⟩
      · obtain ⟨j, hj, heq⟩ := hS σ hold
        exact ⟨j, by omega, heq⟩
    -- What the rest of the loop adds, from either way of passing this slot.
    have hfinish : ∀ {t₁ : FsState} {n₁ : Inode},
        Freeing i inode (insert (Slot.direct ⟨k, hlt⟩) S) s t₁ n₁ →
        ∃ S' t' n', (freeDirect i e m (k + 1)).run t₁ = .ok ((), t') ∧ Freeing i inode S' s t' n' ∧
          S ⊆ S' ∧ (∀ σ ∈ S', ∃ j, σ = .direct j) ∧
          ∀ j : Fin nrDirectBlocks, k ≤ j → (j : ℕ) < e → Slot.direct j ∈ S' := by
      intro t₁ n₁ h₁
      obtain ⟨S', t', n', hrun, h', hsub, hdirect, hall⟩ := ih (k + 1) (by omega) h₁ hnext
      refine ⟨S', t', n', hrun, h', (Finset.subset_insert _ S).trans hsub, hdirect, ?_⟩
      intro j hj hje
      rcases hj.eq_or_lt with heq | hlt'
      · have hjk : j = ⟨k, hlt⟩ := Fin.ext heq.symm
        rw [hjk]
        exact hsub (Finset.mem_insert_self _ S)
      · exact hall j hlt' hje
    rw [if_pos hend, Program.run_bind (inodeRef_run h.inMemory), dif_pos hlt, hslot]
    by_cases hzero : s.own i (.direct ⟨k, hlt⟩) = 0
    · rw [if_pos hzero]
      exact hfinish (h.skip hzero)
    · rw [if_neg hzero]
      obtain ⟨t₁, n₁, hfree, h₁⟩ := h.free hs hi hnot
      rw [Program.run_bind hfree, Program.run_bind (modifyDinode_run h₁.inMemory _)]
      exact hfinish (h₁.setSlot (Finset.mem_insert_self _ S))

/-- Entry `j` of an index block of the inode, read at a time when it is not freed. -/
theorem getInt_index (hown : s.own i σ ≠ 0) {τ : Slot} (hτ : τ.parent = some σ) :
    (s.dev.blocks (s.own i σ).toNat).getInt τ.entryIndex = s.own i τ := by
  rw [own_eq_entry s i hτ, entry, if_neg hown]

/-- Reading an index block that is not freed. -/
theorem Freeing.readBlock_run (h : Freeing i inode S s t n) (hs : Core s) (hr : Reached s)
    (hi : i < nrInodes) (hσ : σ ∉ S) (hown : s.own i σ ≠ 0) :
    (readBlock (s.own i σ)).run t = .ok (s.dev.blocks (s.own i σ).toNat, t) := by
  rw [Fs.readBlock_run (hs.own_pos hi hown).le ((hs.lt_len hr hi hown).trans_le h.len),
    h.blocks_of_notMem hs hi hσ hown]

/-- Freeing a second-level indirect block with its first `e` entries. -/
theorem freeSecondLevel_run (hs : Core s) (hr : Reached s) (hi : i < nrInodes)
    (k : Fin nrIndirectBlocks)
    {e : ℤ} (he : 0 < e) (h : Freeing i inode S s t n) (hk : Slot.dindirectEntry k ∉ S)
    (hleaf : ∀ j, Slot.leafEntry k j ∉ S) :
    ∃ S' t' n', (freeSecondLevel i (s.own i (.dindirectEntry k)) e).run t =
        .ok (e - nrIndirectBlocks, t') ∧ Freeing i inode S' s t' n' ∧
      (∀ σ ∈ S, σ ∈ S') ∧
      (∀ σ ∈ S', σ ∈ S ∨ σ = .dindirectEntry k ∨ ∃ j, σ = .leafEntry k j) ∧
      .dindirectEntry k ∈ S' ∧
      ∀ j : Fin nrIndirectBlocks, (j : ℤ) < e → s.own i (.leafEntry k j) ≠ 0 →
        .leafEntry k j ∈ S' := by
  rw [freeSecondLevel]
  by_cases hzero : s.own i (.dindirectEntry k) = 0
  · refine ⟨insert (.dindirectEntry k) S, t, n, by rw [if_pos hzero, Program.pure_run],
      h.skip hzero, fun σ hσ ↦ Finset.mem_insert_of_mem hσ, ?_, Finset.mem_insert_self _ _, ?_⟩
    · intro σ hσ
      rcases Finset.mem_insert.mp hσ with rfl | hold
      · exact Or.inr (Or.inl rfl)
      · exact Or.inl hold
    · intro j _ hne
      rw [own_eq_entry (σ := .leafEntry k j) s i rfl, hzero, entry, if_pos rfl] at hne
      exact absurd rfl hne
  · obtain ⟨S₁, t₁, n₁, hentries, h₁, hmem⟩ := freeEntries_run hs hi
      (f := fun j ↦ Slot.leafEntry k j) (fun _ _ heq ↦ (Slot.leafEntry.inj heq).2)
      (fun j hj ↦ getInt_index hzero (τ := .leafEntry k ⟨j, hj⟩) rfl) (indirectTurns e) 0
      (by rw [zero_add, indirectTurns]; exact min_le_right _ _) h (fun j _ ↦ hleaf j)
    have hk₁ : Slot.dindirectEntry k ∉ S₁ := by
      rw [hmem]
      rintro (hold | ⟨j, -, -, heq⟩)
      · exact hk hold
      · exact Slot.noConfusion heq
    obtain ⟨t₂, n₂, hfree, h₂⟩ := h₁.free hs hi hk₁
    refine ⟨insert (.dindirectEntry k) S₁, t₂, n₂, ?_, h₂, ?_, ?_, Finset.mem_insert_self _ _, ?_⟩
    · rw [if_neg hzero, Program.run_bind (h.readBlock_run hs hr hi hk hzero),
        Program.run_bind hentries, Program.run_bind hfree, Program.pure_run]
    · exact fun σ hσ ↦ Finset.mem_insert_of_mem ((hmem σ).mpr (Or.inl hσ))
    · intro σ hσ
      rcases Finset.mem_insert.mp hσ with rfl | hold
      · exact Or.inr (Or.inl rfl)
      · rcases (hmem σ).mp hold with hS | ⟨j, -, -, rfl⟩
        · exact Or.inl hS
        · exact Or.inr (Or.inr ⟨j, rfl⟩)
    · intro j hj _
      refine Finset.mem_insert_of_mem ((hmem _).mpr (Or.inr ⟨j, Nat.zero_le _, ?_, rfl⟩))
      have := j.isLt
      rw [indirectTurns]
      omega

theorem indirectBlocks_succ (m : ℕ) : ((nrIndirectBlocks : ℕ) : ℤ) * (m + 1 : ℕ) =
    (nrIndirectBlocks : ℕ) * (m : ℕ) + (nrIndirectBlocks : ℕ) := by
  rw [Nat.cast_add, mul_add, Nat.cast_one, mul_one]

/-- The loop over the entries of the double indirect block frees what lies in the first `e` blocks
from entry `k` on. -/
theorem freeDindirect_run (hs : Core s) (hr : Reached s) (hi : i < nrInodes) {didBlock : Block}
    (hdid : ∀ (j : ℕ) (hj : j < nrIndirectBlocks),
      didBlock.getInt j = s.own i (.dindirectEntry ⟨j, hj⟩))
    (m : ℕ) : ∀ (k : ℕ) (e : ℤ) {S : Finset Slot} {t : FsState} {n : Inode},
      k + m = nrIndirectBlocks → e ≤ nrIndirectBlocks * m → Freeing i inode S s t n →
      (∀ j : Fin nrIndirectBlocks, k ≤ j → Slot.dindirectEntry j ∉ S ∧
        ∀ l, Slot.leafEntry j l ∉ S) →
      ∃ e' S' t' n', (freeDindirect i didBlock m k e).run t = .ok (e', t') ∧ e' ≤ 0 ∧
        Freeing i inode S' s t' n' ∧ (∀ σ ∈ S, σ ∈ S') ∧ (.dindirect ∈ S' → .dindirect ∈ S) ∧
        (∀ j : Fin nrIndirectBlocks, k ≤ j → (nrIndirectBlocks * ((j : ℕ) - k : ℕ) : ℤ) < e →
          .dindirectEntry j ∈ S') ∧
        ∀ j l : Fin nrIndirectBlocks, k ≤ j →
          (nrIndirectBlocks * ((j : ℕ) - k : ℕ) + (l : ℕ) : ℤ) < e → s.own i (.leafEntry j l) ≠ 0 →
            .leafEntry j l ∈ S' := by
  induction m with
  | zero =>
    intro k e S t n hk he h _
    have he' : e ≤ 0 := by simpa using he
    refine ⟨e, S, t, n, rfl, he', h, fun _ ↦ id, id, ?_, ?_⟩
    · intro j hj
      have := j.isLt
      omega
    · intro j l hj
      have := j.isLt
      omega
  | succ m ih =>
    intro k e S t n hk he h hfresh
    by_cases hpos : e > 0
    swap
    · refine ⟨e, S, t, n, Program.forWhile_stop_run (b := e) _ _ _ (decide_eq_false hpos) t,
        not_lt.mp hpos, h, fun _ ↦ id, id, ?_, ?_⟩
      · intro j _ hlt
        exact absurd (lt_of_le_of_lt (by positivity) hlt) hpos
      · intro j l _ hlt
        exact absurd (lt_of_le_of_lt (by positivity) hlt) hpos
    have hlt : k < nrIndirectBlocks := by omega
    obtain ⟨S₁, t₁, n₁, hturn, h₁, hsub, honly, hentry, hleaf⟩ := freeSecondLevel_run hs hr hi
      ⟨k, hlt⟩
      hpos h (hfresh ⟨k, hlt⟩ le_rfl).1 (hfresh ⟨k, hlt⟩ le_rfl).2
    rw [← hdid k hlt] at hturn
    obtain ⟨e', S', t', n', hrest, he', h', hsub', hdind, hentries, hleaves⟩ := ih (k + 1)
      (e - nrIndirectBlocks) (by omega) (by rw [indirectBlocks_succ] at he; omega) h₁ (by
        intro j hj
        have hne : (⟨k, hlt⟩ : Fin nrIndirectBlocks) ≠ j := by
          rintro rfl
          simp at hj
        constructor
        · intro hmem
          rcases honly _ hmem with hold | heq | ⟨l, heq⟩
          · exact (hfresh j (by omega)).1 hold
          · exact hne (Slot.dindirectEntry.inj heq).symm
          · exact Slot.noConfusion heq
        · intro l hmem
          rcases honly _ hmem with hold | heq | ⟨l', heq⟩
          · exact (hfresh j (by omega)).2 l hold
          · exact Slot.noConfusion heq
          · exact hne (Slot.leafEntry.inj heq).1.symm)
    refine ⟨e', S', t', n', ?_, he', h', fun σ hσ ↦ hsub' σ (hsub σ hσ), ?_, ?_, ?_⟩
    · rw [freeDindirect] at hrest ⊢
      rw [Program.forWhile_succ_run (fun j e ↦ freeSecondLevel i (didBlock.getInt j) e)
        (decide_eq_true hpos) hturn]
      exact hrest
    · intro hmem
      rcases honly _ (hdind hmem) with hold | heq | ⟨l, heq⟩
      · exact hold
      · exact Slot.noConfusion heq
      · exact Slot.noConfusion heq
    · intro j hj hje
      rcases hj.eq_or_lt with heq | hlt'
      · have hjk : j = ⟨k, hlt⟩ := Fin.ext heq.symm
        rw [hjk]
        exact hsub' _ hentry
      · apply hentries j hlt'
        have hstep : (j : ℕ) - k = (j : ℕ) - (k + 1) + 1 := by omega
        rw [hstep, indirectBlocks_succ] at hje
        omega
    · intro j l hj hje hne
      rcases hj.eq_or_lt with heq | hlt'
      · have hjk : j = ⟨k, hlt⟩ := Fin.ext heq.symm
        rw [hjk] at hje hne ⊢
        refine hsub' _ (hleaf l ?_ hne)
        simpa using hje
      · apply hleaves j l hlt' _ hne
        have hstep : (j : ℕ) - k = (j : ℕ) - (k + 1) + 1 := by omega
        rw [hstep, indirectBlocks_succ] at hje
        omega

/-! ### The whole walk -/

/-- The part on the indirect block, when no slot lies beyond the first `e` blocks. -/
theorem freeIndirectPart_run (hs : Core s) (hr : Reached s) (hi : i < nrInodes) {e : ℕ}
    (hfirst : ∀ σ, s.own i σ ≠ 0 → σ.first < e) (h : Freeing i inode S s t n)
    (hS : ∀ σ ∈ S, ∃ j, σ = Slot.direct j) :
    ∃ S' t' n', (freeIndirectPart i (e - nrDirectBlocks)).run t = .ok ((), t') ∧
      Freeing i inode S' s t' n' ∧ (∀ σ ∈ S, σ ∈ S') ∧
      (s.own i .indirect ≠ 0 → .indirect ∈ S') ∧
      (∀ j, s.own i (.indirectEntry j) ≠ 0 → .indirectEntry j ∈ S') ∧
      ∀ σ ∈ S', σ ∈ S ∨ σ = .indirect ∨ ∃ j, σ = .indirectEntry j := by
  have hnot : Slot.indirect ∉ S := by
    intro hmem
    obtain ⟨j, heq⟩ := hS _ hmem
    exact Slot.noConfusion heq
  have hslot : n.din.iIndirect = s.own i .indirect := h.slots _ rfl hnot
  rw [freeIndirectPart, Program.run_bind (inodeRef_run h.inMemory), hslot]
  by_cases hzero : s.own i .indirect = 0
  · refine ⟨S, t, n, by rw [if_neg (by rw [hzero]; exact lt_irrefl 0), Program.pure_run], h,
      fun _ ↦ id, fun hne ↦ absurd hzero hne, ?_, fun σ hσ ↦ Or.inl hσ⟩
    intro j hne
    rw [own_eq_entry (σ := .indirectEntry j) s i rfl, hzero, entry, if_pos rfl] at hne
    exact absurd rfl hne
  · have hlow : nrDirectBlocks < e := hfirst _ hzero
    obtain ⟨S₁, t₁, n₁, hentries, h₁, hmem⟩ := freeEntries_run hs hi
      (f := fun j ↦ Slot.indirectEntry j) (fun _ _ heq ↦ Slot.indirectEntry.inj heq)
      (fun j hj ↦ getInt_index hzero (τ := .indirectEntry ⟨j, hj⟩) rfl)
      (indirectTurns (e - nrDirectBlocks)) 0
        (by rw [zero_add, indirectTurns]; exact min_le_right _ _)
      h (fun j _ hold ↦ by obtain ⟨k, heq⟩ := hS _ hold; exact Slot.noConfusion heq)
    have hnot₁ : Slot.indirect ∉ S₁ := by
      rw [hmem]
      rintro (hold | ⟨j, -, -, heq⟩)
      · exact hnot hold
      · exact Slot.noConfusion heq
    obtain ⟨t₂, n₂, hfree, h₂⟩ := h₁.free hs hi hnot₁
    have hset := h₂.setSlot (Finset.mem_insert_self .indirect S₁)
    refine ⟨_, _, _, ?_, hset, ?_, fun _ ↦ Finset.mem_insert_self _ _, ?_, ?_⟩
    · rw [if_pos (hs.own_pos hi hzero), Program.check_bind_run (by omega),
        Program.run_bind (h.readBlock_run hs hr hi hnot hzero), Program.run_bind hentries,
        Program.run_bind hfree, modifyDinode_run h₂.inMemory]
      rfl
    · exact fun σ hσ ↦ Finset.mem_insert_of_mem ((hmem σ).mpr (Or.inl hσ))
    · intro j hne
      refine Finset.mem_insert_of_mem ((hmem _).mpr (Or.inr ⟨j, Nat.zero_le _, ?_, rfl⟩))
      have hj := hfirst _ hne
      simp only [Slot.first] at hj
      have := j.isLt
      rw [indirectTurns]
      omega
    · intro σ hσ
      rcases Finset.mem_insert.mp hσ with rfl | hold
      · exact Or.inr (Or.inl rfl)
      · rcases (hmem σ).mp hold with hold | ⟨j, -, -, rfl⟩
        · exact Or.inl hold
        · exact Or.inr (Or.inr ⟨j, rfl⟩)

/-- The part on the double indirect block, when no slot lies beyond the first `e` blocks and the
last of them is allocated. -/
theorem freeDindirectPart_run (hs : Core s) (hr : Reached s) (hi : i < nrInodes) {e : ℕ}
    (hmax : e ≤ maxBlockNr) (hfirst : ∀ σ, s.own i σ ≠ 0 → σ.first < e)
    (hlast : nrDirectBlocks + nrIndirectBlocks < e → s.own i .dindirect ≠ 0)
    (h : Freeing i inode S s t n)
    (hS : ∀ σ ∈ S, (∃ j, σ = Slot.direct j) ∨ σ = .indirect ∨ ∃ j, σ = .indirectEntry j) :
    ∃ e' S' t' n', (freeDindirectPart i (e - nrDirectBlocks - nrIndirectBlocks)).run t =
      .ok (e', t') ∧ e' ≤ 0 ∧ Freeing i inode S' s t' n' ∧ (∀ σ ∈ S, σ ∈ S') ∧
      (s.own i .dindirect ≠ 0 → .dindirect ∈ S') ∧
      (∀ j, s.own i (.dindirectEntry j) ≠ 0 → .dindirectEntry j ∈ S') ∧
      ∀ j l, s.own i (.leafEntry j l) ≠ 0 → .leafEntry j l ∈ S' := by
  have hnot : ∀ σ : Slot, σ = .dindirect ∨ (∃ j, σ = .dindirectEntry j) ∨
      (∃ j l, σ = .leafEntry j l) →
      σ ∉ S := by
    rintro σ hσ hmem
    rcases hS σ hmem with ⟨j, rfl⟩ | rfl | ⟨j, rfl⟩ <;> simp at hσ
  have hdind : Slot.dindirect ∉ S := hnot _ (Or.inl rfl)
  have hslot : n.din.iDindirect = s.own i .dindirect := h.slots _ rfl hdind
  rw [freeDindirectPart, Program.run_bind (inodeRef_run h.inMemory), hslot]
  by_cases hzero : s.own i .dindirect = 0
  · refine ⟨_, S, t, n,
      by rw [if_neg (by rw [hzero]; exact fun hand ↦ lt_irrefl 0 hand.2), Program.pure_run],
      ?_, h, fun _ ↦ id, fun hne ↦ absurd hzero hne, ?_, ?_⟩
    · have hle : e ≤ nrDirectBlocks + nrIndirectBlocks := by
        by_contra hlt
        exact hlast (not_le.mp hlt) hzero
      omega
    · intro j hne
      rw [own_eq_entry (σ := .dindirectEntry j) s i rfl, hzero, entry, if_pos rfl] at hne
      exact absurd rfl hne
    · intro j l hne
      rw [own_eq_entry (σ := .leafEntry j l) s i rfl, own_eq_entry (σ := .dindirectEntry j) s i rfl,
        hzero, entry, entry, if_pos rfl, if_pos rfl] at hne
      exact absurd rfl hne
  · have hlow : nrDirectBlocks + nrIndirectBlocks < e := hfirst _ hzero
    have hpos : (e : ℤ) - nrDirectBlocks - nrIndirectBlocks > 0 := by omega
    have hbound : (e : ℤ) - nrDirectBlocks - nrIndirectBlocks ≤
        nrIndirectBlocks * nrIndirectBlocks := by
      rw [maxBlockNr] at hmax
      omega
    obtain ⟨e', S₁, t₁, n₁, hloop, he', h₁, hsub, hdind₁, hentries, hleaves⟩ :=
      freeDindirect_run hs hr hi (fun j hj ↦ getInt_index hzero (τ := .dindirectEntry ⟨j, hj⟩) rfl)
        nrIndirectBlocks 0 _ (zero_add _) hbound h (fun j _ ↦
          ⟨hnot _ (Or.inr (Or.inl ⟨j, rfl⟩)), fun l ↦ hnot _ (Or.inr (Or.inr ⟨j, l, rfl⟩))⟩)
    obtain ⟨t₂, n₂, hfree, h₂⟩ := h₁.free hs hi (fun hmem ↦ hdind (hdind₁ hmem))
    have hset := h₂.setSlot (Finset.mem_insert_self .dindirect S₁)
    refine ⟨e', _, _, _, ?_, he', hset, ?_, fun _ ↦ Finset.mem_insert_self _ _, ?_, ?_⟩
    · rw [if_pos ⟨hpos, hs.own_pos hi hzero⟩,
        Program.run_bind (h.readBlock_run hs hr hi hdind hzero), Program.run_bind hloop,
        Program.run_bind hfree, Program.run_bind (modifyDinode_run h₂.inMemory _), Program.pure_run]
      rfl
    · exact fun σ hσ ↦ Finset.mem_insert_of_mem (hsub σ hσ)
    · intro j hne
      refine Finset.mem_insert_of_mem (hentries j (Nat.zero_le _) ?_)
      have hj := hfirst _ hne
      simp only [Slot.first] at hj
      rw [Nat.sub_zero]
      omega
    · intro j l hne
      refine Finset.mem_insert_of_mem (hleaves j l (Nat.zero_le _) ?_ hne)
      have hj := hfirst _ hne
      simp only [Slot.first] at hj
      rw [Nat.sub_zero]
      omega

/-- Other fields of the in-memory inode can be assigned. -/
theorem Freeing.assign (h : Freeing i inode S s t n) (n' : Inode)
    (hslots : n'.din.slots = n.din.slots)
    (hcount : n'.din.blockCount = n.din.blockCount) (hrefs : n'.iCount = n.iCount) :
    Freeing i inode S s (t.setInode i (some n')) n' where
  sb := h.sb
  inodeFreemap := h.inodeFreemap
  nbits := h.nbits
  bit := h.bit
  zeroed := h.zeroed
  kept := h.kept
  len := h.len
  table_ne := fun j hj ↦ by rw [inodeHashTable_setInode_of_ne _ _ hj, h.table_ne j hj]
  allocFailed := h.allocFailed
  inMemory := inodeHashTable_setInode_self _ _ _
  count := by rw [hcount, h.count]
  iCount := by rw [hrefs, h.iCount]
  slots := fun σ hσ hmem ↦ by rw [slotVal_top_congr _ _ hslots hσ]; exact h.slots σ hσ hmem

/-- `DIVROUNDUP(in->in.i_size, BLOCK_SIZE)`. -/
theorem eBlockNr_eq {size : ℤ} (hnonneg : 0 ≤ size) (hmax : size ≤ maxFileSize) :
    toInt32 ((size + blockSize - 1).tdiv blockSize) = ((size.toNat + 8191) / 8192 : ℕ) := by
  have hsize : size ≤ 34376597504 := hmax
  rw [show ((blockSize : ℕ) : ℤ) = 8192 from rfl, Int.tdiv_eq_ediv_of_nonneg (by omega),
    toInt32_of_range (by omega) (by omega)]
  omega

/-- `testfs_free_blocks` passes its assertions and frees every block of the inode. -/
theorem testfsFreeBlocks_run (hs : Core s) (hr : Reached s) (ht : s.inodeHashTable i = some inode)
    (hext : Extent (s.own i) inode.din.iSize) :
    ∃ S t n, (testfsFreeBlocks i).run s = .ok (0, t) ∧ Freeing i inode S s t n ∧
      ∀ σ, s.own i σ ≠ 0 → σ ∈ S := by
  have hi := hs.table i inode ht
  have hnonneg := hext.nonneg
  have hsize : inode.din.iSize ≤ 34376597504 := hext.le_max
  obtain ⟨e, he⟩ : ∃ e, e = (inode.din.iSize.toNat + 8191) / 8192 := ⟨_, rfl⟩
  have hmax : e ≤ maxBlockNr := by
    rw [maxBlockNr_eq]
    omega
  have hfirst : ∀ σ, s.own i σ ≠ 0 → σ.first < e := by
    intro σ hσ
    have hwithin := hext.within σ hσ
    simp only [blockSize] at hwithin
    omega
  have hlast : nrDirectBlocks + nrIndirectBlocks < e → s.own i .dindirect ≠ 0 := by
    intro hlt hzero
    have hpos : 0 < inode.din.iSize := by
      simp only [nrDirectBlocks, nrIndirectBlocks] at hlt
      omega
    have hblock : (inode.din.iSize.toNat - 1) / blockSize = e - 1 := by
      simp only [blockSize, nrDirectBlocks, nrIndirectBlocks] at hlt ⊢
      omega
    have hown := hext.last hpos
    have hquot : (e - 1 - nrDirectBlocks - nrIndirectBlocks) / nrIndirectBlocks <
        nrIndirectBlocks := by
      simp only [maxBlockNr, nrDirectBlocks, nrIndirectBlocks] at *
      omega
    rw [hblock, Slot.ofLog_leaf (by omega) (by omega) hquot,
      own_eq_entry (σ := .leafEntry _ _) s i rfl, own_eq_entry (σ := .dindirectEntry _) s i rfl,
      hzero, entry, entry, if_pos rfl, if_pos rfl] at hown
    exact hown rfl
  obtain ⟨S₁, t₁, n₁, hrun₁, h₁, -, honly₁, hall₁⟩ := freeDirect_run hs hi e nrDirectBlocks 0
    (zero_add _) (Freeing.start hs ht) (by simp)
  obtain ⟨S₂, t₂, n₂, hrun₂, h₂, hsub₂, hind, hentry, honly₂⟩ :=
    freeIndirectPart_run hs hr hi hfirst h₁ honly₁
  obtain ⟨e', S₃, t₃, n₃, hrun₃, he', h₃, hsub₃, hdind, hdentry, hleaf⟩ :=
    freeDindirectPart_run hs hr hi hmax hfirst hlast h₂ (by
      intro σ hσ
      rcases honly₂ σ hσ with hold | hnew
      · exact Or.inl (honly₁ σ hold)
      · exact Or.inr hnew)
  have hsize₃ := h₃.assign { n₃ with din := { n₃.din with iSize := 0 } } rfl rfl rfl
  refine ⟨S₃, _, _, ?_, hsize₃.assign { n₃ with din := { n₃.din with iSize := 0 }, dirty := true }
    rfl rfl rfl, ?_⟩
  · rw [testfsFreeBlocks, Program.run_bind (inodeRef_run ht), eBlockNr_eq hnonneg hext.le_max, ← he,
      Program.run_bind hrun₁, Program.run_bind hrun₂, Program.run_bind hrun₃,
      Program.check_bind_run he', Program.run_bind (modifyDinode_run h₃.inMemory _),
      Program.run_bind (markDirty_run hsize₃.inMemory), Program.pure_run]
  · intro σ hσ
    cases σ with
    | direct k => exact hsub₃ _ (hsub₂ _ (hall₁ k (Nat.zero_le _) (hfirst _ hσ)))
    | indirect => exact hsub₃ _ (hind hσ)
    | dindirect => exact hdind hσ
    | indirectEntry k => exact hsub₃ _ (hentry k hσ)
    | dindirectEntry k => exact hdentry k hσ
    | leafEntry k l => exact hleaf k l hσ

end Freeing

end OperatingSystems.Fs
