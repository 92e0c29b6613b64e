import OperatingSystems.Fs.Growth

/-!
# The block map: `testfs_read_block` and `testfs_allocate_block`

`testfsReadBlock_run` says that reading a logical block finds the number in its data slot.
`testfsAllocateBlock_spec` says what allocating one does: a block that exists is found; otherwise
one to three claims lead to the data slot (`Grown`), or an allocation fails and what was taken is
given back, so that nothing but the dirty flag and the record of the failure is different
(`Restored`).
-/

set_option autoImplicit false
set_option relaxedAutoImplicit false

namespace OperatingSystems.Fs

open Library

/-! ### Reading -/

/-- The contents of a logical block, zero when it is not allocated. -/
def FsState.blockOf (s : FsState) (i l : ℕ) : Block :=
  if s.own i (Slot.ofLog l) = 0 then Block.zero
  else s.dev.blocks (s.own i (Slot.ofLog l)).toNat

/-- The index blocks of an inode lie within the device file. -/
def FsState.IndexReached (s : FsState) (i : ℕ) : Prop :=
  ∀ σ : Slot, σ.isData = false → s.own i σ ≠ 0 → (s.own i σ).toNat < s.dev.len

section Read

variable {s : FsState} {i l : ℕ} {inode : Inode}

theorem Core.indexReached (h : Core s) (hr : Reached s) (hi : i < nrInodes) : s.IndexReached i :=
  fun _ _ hσ ↦ h.lt_len hr hi hσ

/-- Reading the block of a slot. -/
theorem Core.readBlock_run (h : Core s) (hr : Reached s) (hi : i < nrInodes) {σ : Slot}
    (hσ : s.own i σ ≠ 0) :
    (readBlock (s.own i σ)).run s = .ok (s.dev.blocks (s.own i σ).toNat, s) :=
  Fs.readBlock_run (h.own_pos hi hσ).le (h.lt_len hr hi hσ)

/-- Reading an index block. -/
theorem Core.readIndex_run (h : Core s) (hindex : s.IndexReached i) (hi : i < nrInodes) {σ : Slot}
    (hσ : s.own i σ ≠ 0) (hdata : σ.isData = false) :
    (readBlock (s.own i σ)).run s = .ok (s.dev.blocks (s.own i σ).toNat, s) :=
  Fs.readBlock_run (h.own_pos hi hσ).le (hindex σ hdata hσ)

theorem own_of_some (h : s.inodeHashTable i = some inode) (σ : Slot) :
    s.own i σ = slotVal s.dev.blocks inode.din σ := by
  rw [FsState.own, dinode_of_some h]

/-- The two reads through the double indirect block find the number in a leaf entry. -/
theorem leafEntry_run (h : Core s) (hindex : s.IndexReached i) (hi : i < nrInodes) {k e : ℕ}
    (hk : k < nrIndirectBlocks) (he : e < nrIndirectBlocks) :
    (if k ≤ nrIndirectBlocks ∧ s.own i .dindirect > 0 then do
        let dindirect ← readBlock (s.own i .dindirect)
        if dindirect.getInt k > 0 then do
          let indirect ← readBlock (dindirect.getInt k)
          pure (indirect.getInt e)
        else pure 0
      else pure 0 : FsProgram ℤ).run s = .ok (s.own i (.leafEntry ⟨k, hk⟩ ⟨e, he⟩), s) := by
  have hentry : s.own i (.dindirectEntry ⟨k, hk⟩) = entry s.dev.blocks (s.own i .dindirect) k :=
    own_eq_entry s i rfl
  rw [own_eq_entry (σ := .leafEntry ⟨k, hk⟩ ⟨e, he⟩) s i rfl]
  by_cases hzero : s.own i .dindirect = 0
  · rw [if_neg fun hand ↦ by rw [hzero] at hand; exact lt_irrefl 0 hand.2, Program.pure_run,
      hentry, hzero, entry, entry, if_pos rfl, if_pos rfl]
  · rw [if_pos ⟨hk.le, h.own_pos hi hzero⟩, Program.run_bind (h.readIndex_run hindex hi hzero rfl)]
    have hslot : (s.dev.blocks (s.own i .dindirect).toNat).getInt k =
        s.own i (.dindirectEntry ⟨k, hk⟩) := by
      rw [hentry, entry, if_neg hzero]
    simp only [hslot]
    rw [entry]
    by_cases hleaf : s.own i (.dindirectEntry ⟨k, hk⟩) = 0
    · rw [if_neg (by rw [hleaf]; exact lt_irrefl 0), if_pos hleaf, Program.pure_run]
    · rw [if_pos (h.own_pos hi hleaf), if_neg hleaf,
        Program.run_bind (h.readIndex_run hindex hi hleaf rfl)]
      rfl

theorem physicalBlock_run (h : Core s) (hindex : s.IndexReached i)
    (ht : s.inodeHashTable i = some inode) (hl : l < maxBlockNr) :
    (physicalBlock inode l).run s = .ok (s.own i (Slot.ofLog l), s) := by
  have hi := h.table i inode ht
  have hind : s.own i .indirect = inode.din.iIndirect := own_of_some ht _
  have hdind : s.own i .dindirect = inode.din.iDindirect := own_of_some ht _
  rw [physicalBlock]
  by_cases hdirect : l < nrDirectBlocks
  · rw [dif_pos hdirect, Slot.ofLog, dif_pos hdirect, Program.pure_run, own_of_some ht]
    rfl
  rw [dif_neg hdirect]
  by_cases hindirect : l - nrDirectBlocks < nrIndirectBlocks
  · rw [if_neg (not_le.mpr hindirect), ← hind, Slot.ofLog, dif_neg hdirect, dif_pos hindirect,
      own_eq_entry (σ := .indirectEntry _) s i rfl, entry]
    by_cases hzero : s.own i .indirect = 0
    · rw [if_neg (by rw [hzero]; exact lt_irrefl 0), if_pos hzero, Program.pure_run]
    · rw [if_pos (h.own_pos hi hzero), if_neg hzero,
        Program.run_bind (h.readIndex_run hindex hi hzero rfl)]
      rfl
  · have hquot : (l - nrDirectBlocks - nrIndirectBlocks) / nrIndirectBlocks < nrIndirectBlocks := by
      simp only [maxBlockNr, nrDirectBlocks, nrIndirectBlocks] at *
      omega
    rw [if_pos (not_lt.mp hindirect), ← hdind, Slot.ofLog_leaf hdirect hindirect hquot]
    exact leafEntry_run h hindex hi hquot (Nat.mod_lt _ (by decide))

/-- `testfs_read_block` finds the number in the data slot. It reads the block, or zeros if there is
none, and ends the process if the block lies behind the end of the device file. -/
theorem testfsReadBlock_index_run (h : Core s) (hindex : s.IndexReached i)
    (ht : s.inodeHashTable i = some inode) (hl : l < maxBlockNr) (block : Block) :
    (testfsReadBlock i l block).run s =
      if s.own i (Slot.ofLog l) ≠ 0 → (s.own i (Slot.ofLog l)).toNat < s.dev.len then
        .ok ((s.own i (Slot.ofLog l), s.blockOf i l), s)
      else .error .exit := by
  have hi := h.table i inode ht
  rw [testfsReadBlock, if_neg (not_le.mpr hl), Program.run_bind (inodeRef_run ht),
    Program.run_bind (physicalBlock_run h hindex ht hl), FsState.blockOf]
  by_cases hzero : s.own i (Slot.ofLog l) = 0
  · rw [if_neg (by rw [hzero]; exact lt_irrefl 0), if_pos (absurd hzero), if_pos hzero,
      Program.pure_run]
  · have hpos := h.own_pos hi hzero
    rw [if_pos hpos, if_neg hzero]
    by_cases hlen : (s.own i (Slot.ofLog l)).toNat < s.dev.len
    · rw [if_pos fun _ ↦ hlen, Program.run_bind (readBlock_run hpos.le hlen), Program.pure_run]
    · rw [if_neg fun himp ↦ hlen (himp hzero), Program.run_bind_error
        (readBlock_fails hpos.le hlen)]

/-- In a file system all of whose blocks lie within the device file, reading succeeds. -/
theorem testfsReadBlock_run (h : Core s) (hr : Reached s) (ht : s.inodeHashTable i = some inode)
    (hl : l < maxBlockNr) (block : Block) :
    (testfsReadBlock i l block).run s =
      .ok ((s.own i (Slot.ofLog l), s.blockOf i l), s) := by
  have hi := h.table i inode ht
  rw [testfsReadBlock_index_run h (h.indexReached hr hi) ht hl, if_pos (h.lt_len hr hi)]

end Read

/-! ### Allocating -/

theorem Device.put_comm (dev : Device) {b c : ℕ} (h : b ≠ c) (first second : Block) :
    (dev.put b first).put c second = (dev.put c second).put b first := by
  simp only [Device.put, Device.mk.injEq]
  exact ⟨max_right_comm _ _ _, Function.update_comm h _ _ _⟩

/-- Taking a block does not touch the blocks from the inode blocks on. -/
theorem takeBlock_putDev {s : FsState} (h : Layout s) {idx b : ℕ} (hidx : idx < nrDataBlocks)
    (hb : firstInodeBlock ≤ b) (block : Block) :
    (s.putDev b block).takeBlock idx = (s.takeBlock idx).putDev b block := by
  have hnr : idx / (blockSize * bitsPerWord) < 16 := by
    simp only [nrDataBlocks, blockSize, blockFreemapSize, bitsPerWord] at *
    omega
  have hstart := h.blockFreemapStart
  have hmap : b ≠ s.sb.blockFreemapStart + idx / (blockSize * bitsPerWord) := by
    simp only [firstInodeBlock, superBlockSize, inodeFreemapSize, blockFreemapSize] at *
    omega
  have hsuper : b ≠ 0 := by
    simp only [firstInodeBlock, superBlockSize, inodeFreemapSize, blockFreemapSize] at *
    omega
  simp only [FsState.takeBlock, FsState.putBlockBit, FsState.putDev]
  rw [Device.put_comm _ hmap, Device.put_comm _ hsuper]

theorem inodeRef_putDev_run {s : FsState} {i : ℕ} {inode : Inode}
    (h : s.inodeHashTable i = some inode) (b : ℕ) (block : Block) :
    (inodeRef i).run (s.putDev b block) = .ok (inode, s.putDev b block) :=
  inodeRef_run h

/-- The data slot of logical block `l` was filled with `p`. -/
structure Allocated (i l : ℕ) (s t : FsState) (p : ℤ) : Prop where
  grown : Grown i l s t
  reached : ReachedBut t i (Slot.ofLog l)
  own : t.own i (Slot.ofLog l) = p
  pos : 0 < p
  fresh : s.own i (Slot.ofLog l) = 0 →
    ¬ s.Full ∧ ∃ inode, t.inodeHashTable i = some inode ∧ inode.dirty = true

/-- The allocation failed, at once in a full file system, or later and was undone. -/
structure Refused (i : ℕ) (inode : Inode) (s t : FsState) : Prop where
  restored : Restored i s t
  inMemory : t.inodeHashTable i = some inode ∧ s.Full ∨
    t.inodeHashTable i = some { inode with dirty := true } ∧ ¬ s.Full

/-- The two outcomes of allocating a missing block. -/
def AllocOutcome (i l : ℕ) (inode : Inode) (s : FsState) (result : Except Halt (ℤ × FsState)) :
    Prop :=
  (∃ p t, result = .ok (p, t) ∧ Allocated i l s t p) ∨
    ∃ t, result = .ok (-eNOSPC, t) ∧ Refused i inode s t

section Outcome

variable {s : FsState} {i l idx : ℕ} {inode : Inode}

theorem refused_full (ht : s.inodeHashTable i = some inode) (hfull : s.Full) :
    Refused i inode s s.failAlloc :=
  ⟨restored_fail s i, Or.inl ⟨ht, hfull⟩⟩

theorem Reached.reachedBut (h : Reached s) (i : ℕ) (σ : Slot) : ReachedBut s i σ :=
  fun idx hidx hset ↦ Or.inl (h idx hidx hset)

/-- The last claim of a chain is the one of the data slot. -/
theorem Allocated.claim {t : FsState} {inode' : Inode} (hl : l < maxBlockNr) (hfull : ¬ s.Full)
    (h : Claimable t i inode' (Slot.ofLog l) idx) (hgrown : Grown i l s t)
    (hr : ReachedBut (t.claim i inode' (Slot.ofLog l) idx) i (Slot.ofLog l)) :
    Allocated i l s (t.claim i inode' (Slot.ofLog l) idx) (firstDataBlock + idx : ℕ) where
  grown := hgrown.trans (Grown.claim h (Slot.first_ofLog hl).le fun _ ↦ rfl)
  reached := hr
  own := own_claim_self h
  pos := by positivity
  fresh := fun _ ↦ ⟨hfull, _, h.inodeHashTable_self, rfl⟩

/-- The direct branch is one claim. -/
theorem allocateDirect_spec (h : Core s) (hr : Reached s) (ht : s.inodeHashTable i = some inode)
    (hl : l < nrDirectBlocks) (hempty : s.own i (Slot.ofLog l) = 0) :
    AllocOutcome i l inode s ((allocateDirect i ⟨l, hl⟩).run s) := by
  have hslot : Slot.ofLog l = .direct ⟨l, hl⟩ := by rw [Slot.ofLog, dif_pos hl]
  have hzero : inode.din.iBlockNr ⟨l, hl⟩ = 0 := by
    rw [← hempty, hslot, own_of_some ht]
    rfl
  rw [allocateDirect, Program.run_bind (inodeRef_run ht), Program.check_bind_run hzero]
  rcases testfsAllocBlockForInode_spec h.layout ht with
      ⟨idx, hidx, hclear, hroom, halloc⟩ | ⟨halloc, hfull⟩
  · have hclaim : Claimable s i inode (Slot.ofLog l) idx :=
      ⟨h, ht, hempty, by simp [hslot, Slot.parent], hidx, hclear, hroom⟩
    refine Or.inl ⟨_, _, ?_, Allocated.claim (hl.trans_le (by decide)) hclaim.not_full hclaim
      (Grown.refl h)
      (reachedBut_claim hclaim hr)⟩
    rw [Program.run_bind halloc, if_pos (by positivity),
      Program.run_bind (modifyDinode_run (inodeHashTable_setInode_self _ _ _) _), Program.pure_run,
      setInode_setInode, hslot]
    rfl
  · refine Or.inr ⟨_, ?_, refused_full ht hfull⟩
    rw [Program.run_bind halloc, if_neg (by norm_num), Program.pure_run]

/-- The direct branch fails in a full file system only. -/
theorem allocateDirect_full (hs : Layout s) (ht : s.inodeHashTable i = some inode)
    (hl : l < nrDirectBlocks) {t : FsState}
    (hrun : (allocateDirect i ⟨l, hl⟩).run s = .ok (-eNOSPC, t)) : s.Full := by
  rw [allocateDirect, Program.run_bind (inodeRef_run ht)] at hrun
  obtain ⟨_, u, hcheck, hrun⟩ := Program.bind_eq_ok_iff.mp hrun
  rw [(Program.check_eq_ok_iff.mp hcheck).2] at hrun
  rcases testfsAllocBlockForInode_spec hs ht with ⟨idx, -, -, -, halloc⟩ | ⟨-, hfull⟩
  · rw [Program.run_bind halloc, if_pos (by positivity)] at hrun
    obtain ⟨_, v, -, hrun⟩ := Program.bind_eq_ok_iff.mp hrun
    rw [Program.pure_run, Except.ok.injEq, Prod.mk.injEq] at hrun
    have hnonneg := Int.natCast_nonneg (firstDataBlock + idx)
    rw [hrun.1] at hnonneg
    exact absurd hnonneg (by decide)
  · exact hfull

/-- Allocating the data block of an entry of an index block. -/
theorem allocateInIndirect_run (hs : Layout s) (ht : s.inodeHashTable i = some inode)
    {indirect : Block} {e : ℕ} (hzero : indirect.getInt e = 0) {idBlock : ℤ} (hid : 0 ≤ idBlock) :
    (∃ idx < nrDataBlocks, s.blockFreemap.bit idx = false ∧
      s.sb.usedBlockCount < s.sb.maxFsBlocks ∧
      (allocateInIndirect i indirect e idBlock).run s = .ok ((firstDataBlock + idx : ℕ),
        ((s.takeBlock idx).setInode i (some (inode.addCount 1))).putDev idBlock.toNat
          (indirect.setInt e (firstDataBlock + idx : ℕ)))) ∨
    ((allocateInIndirect i indirect e idBlock).run s = .ok (-eNOSPC, s.failAlloc) ∧
      s.Full) := by
  rw [allocateInIndirect, Program.check_bind_run hzero]
  rcases testfsAllocBlockForInode_spec hs ht with
      ⟨idx, hidx, hclear, hroom, halloc⟩ | ⟨halloc, hfull⟩
  · refine Or.inl ⟨idx, hidx, hclear, hroom, ?_⟩
    rw [Program.run_bind halloc, if_pos (by positivity),
      Program.run_bind (writeBlocks_run hid _ _), Program.pure_run]
    rfl
  · refine Or.inr ⟨?_, hfull⟩
    rw [Program.run_bind halloc, if_neg (by norm_num), Program.pure_run]

/-- Allocating the data block of an entry of an index block of the inode is one claim. -/
theorem allocateInIndirect_claim (h : Core s) (ht : s.inodeHashTable i = some inode)
    {σ π : Slot} (hπ : σ.parent = some π) (hown : s.own i π ≠ 0) (hempty : s.own i σ = 0)
    (hslot : ∀ p, inode.din.setSlot σ p = inode.din) :
    (∃ idx, Claimable s i inode σ idx ∧
      (allocateInIndirect i (s.dev.blocks (s.own i π).toNat) σ.entryIndex (s.own i π)).run s =
        .ok ((firstDataBlock + idx : ℕ), s.claim i inode σ idx)) ∨
    ((allocateInIndirect i (s.dev.blocks (s.own i π).toNat) σ.entryIndex (s.own i π)).run s =
      .ok (-eNOSPC, s.failAlloc) ∧ s.Full) := by
  have hzero : (s.dev.blocks (s.own i π).toNat).getInt σ.entryIndex = 0 := by
    rw [own_eq_entry s i hπ, entry, if_neg hown] at hempty
    exact hempty
  have hid : 0 ≤ s.own i π := (h.own_pos (h.table i inode ht) hown).le
  rcases allocateInIndirect_run h.layout ht hzero hid with ⟨idx, hidx, hclear, hroom, hrun⟩ | hfail
  · refine Or.inl ⟨idx, ⟨h, ht, hempty, ?_, hidx, hclear, hroom⟩, ?_⟩
    · intro π' hπ'
      rw [hπ, Option.some.injEq] at hπ'
      exact hπ' ▸ hown
    · rw [hrun, FsState.claim, hπ, Inode.enter, hslot]
  · exact Or.inr hfail

/-- Taking an index block and entering it in the dinode is a claim. -/
theorem claim_top (s : FsState) (inode : Inode) {σ : Slot} (hσ : σ.parent = none) (idx : ℕ) :
    s.claim i inode σ idx = ((s.takeBlock idx).setInode i
      (some (inode.enter σ (firstDataBlock + idx : ℕ)))) := by
  rw [FsState.claim, hσ]

/-- The block of a claimed slot of the dinode is given back. -/
theorem Claimable.free_run {t : FsState} {inode' : Inode} {σ : Slot}
    (hclaim : Claimable s i inode σ idx) (hσ : σ.parent = none)
    (h : Restored i (s.claim i inode σ idx) t) (ht : t.inodeHashTable i = some inode') :
    ∃ t', (testfsFreeBlockFromInode i (firstDataBlock + idx : ℕ)).run t = .ok ((), t') ∧
      Restored i s t' ∧ t'.inodeHashTable i = some (inode'.addCount (-1)) := by
  rw [claim_top _ _ hσ] at h
  exact Restored.undo hclaim.core.layout hclaim.idx_lt hclaim.clear
    (hclaim.core.zeroed idx hclaim.idx_lt hclaim.clear) h.of_setInode ht

/-- Undoing the claim of the indirect block. -/
theorem takeBackIndirect_run {t : FsState} (hclaim : Claimable s i inode .indirect idx)
    (h : Restored i (s.claim i inode .indirect idx) t)
    (ht : t.inodeHashTable i = some (inode.enter .indirect (firstDataBlock + idx : ℕ))) :
    ∃ t', (takeBackIndirect i).run t = .ok ((), t') ∧ Restored i s t' ∧
      t'.inodeHashTable i = some { inode with dirty := true } := by
  have hzero : inode.din.iIndirect = 0 := by
    rw [← hclaim.empty, own_of_some hclaim.inMemory]
    rfl
  obtain ⟨t', hfree, hrestored, htable⟩ := hclaim.free_run rfl h ht
  refine ⟨_, ?_, hrestored.setInode _, inodeHashTable_setInode_self _ _ _⟩
  have hblock : (inode.enter .indirect (firstDataBlock + idx : ℕ)).din.iIndirect =
      (firstDataBlock + idx : ℕ) := rfl
  rw [takeBackIndirect, Program.run_bind (inodeRef_run ht), hblock, Program.run_bind hfree,
    modifyDinode_run htable]
  simp only [Inode.enter, Inode.addCount, Dinode.setSlot, add_neg_cancel_right, ← hzero]

/-- Undoing the claim of the double indirect block. -/
theorem takeBackDindirect_run {t : FsState} {inode' : Inode}
    (hclaim : Claimable s i inode .dindirect idx)
    (h : Restored i (s.claim i inode .dindirect idx) t) (ht : t.inodeHashTable i = some inode')
    (hdin : inode'.din = (inode.enter .dindirect (firstDataBlock + idx : ℕ)).din)
    (hcount : inode'.iCount = inode.iCount) :
    ∃ t', (takeBackDindirect i true).run t = .ok ((), t') ∧ Restored i s t' ∧
      t'.inodeHashTable i = some { inode with dirty := true } := by
  have hzero : inode.din.iDindirect = 0 := by
    rw [← hclaim.empty, own_of_some hclaim.inMemory]
    rfl
  have hblock : inode'.din.iDindirect = (firstDataBlock + idx : ℕ) := by rw [hdin]; rfl
  obtain ⟨t', hfree, hrestored, htable⟩ := hclaim.free_run rfl h ht
  refine ⟨_, ?_, hrestored.setInode _, inodeHashTable_setInode_self _ _ _⟩
  rw [takeBackDindirect, if_pos rfl, Program.run_bind (inodeRef_run ht), hblock,
    Program.run_bind hfree, modifyDinode_run htable]
  simp only [Inode.addCount, hdin, hcount, Inode.enter, Dinode.setSlot, add_neg_cancel_right,
    ← hzero]

/-- The indirect branch is a claim of the entry, after one of the indirect block if need be. -/
theorem allocateIndirect_spec (h : Core s) (hr : Reached s) (ht : s.inodeHashTable i = some inode)
    (hlow : ¬ l < nrDirectBlocks) (hl : l - nrDirectBlocks < nrIndirectBlocks)
    (hempty : s.own i (Slot.ofLog l) = 0) :
    AllocOutcome i l inode s ((allocateIndirect i (l - nrDirectBlocks)).run s) := by
  have hmax : l < maxBlockNr := by
    simp only [maxBlockNr, nrDirectBlocks, nrIndirectBlocks] at *
    omega
  have hslot : Slot.ofLog l = .indirectEntry ⟨l - nrDirectBlocks, hl⟩ := by
    rw [Slot.ofLog, dif_neg hlow, dif_pos hl]
  have hparent : (Slot.ofLog l).parent = some .indirect := by rw [hslot]; rfl
  have hindex : (Slot.ofLog l).entryIndex = l - nrDirectBlocks := by rw [hslot]; rfl
  have hset : ∀ (d : Dinode) p, d.setSlot (Slot.ofLog l) p = d := by
    intro d p
    rw [hslot]
    rfl
  have hind : s.own i .indirect = inode.din.iIndirect := own_of_some ht _
  rw [allocateIndirect, Program.run_bind (inodeRef_run ht)]
  by_cases hzero : inode.din.iIndirect = 0
  · rw [if_pos hzero]
    rcases testfsAllocBlockForInode_spec h.layout ht with
        ⟨idx, hidx, hclear, hroom, halloc⟩ | ⟨halloc, hfull⟩
    · have hclaim : Claimable s i inode .indirect idx :=
        ⟨h, ht, by rw [hind, hzero], by simp [Slot.parent], hidx, hclear, hroom⟩
      have hown := own_claim_self hclaim
      have hentry : (s.claim i inode .indirect idx).own i (Slot.ofLog l) = 0 := by
        rw [own_claim_of_ne hclaim (by rw [hslot]; exact Slot.noConfusion), hempty]
      have hblock : (s.claim i inode .indirect idx).dev.blocks
          ((s.claim i inode .indirect idx).own i .indirect).toNat = Block.zero := by
        rw [hown, Int.toNat_natCast, hclaim.blocks_new]
      have hrun := allocateInIndirect_claim (Core.claim hclaim) hclaim.inodeHashTable_self hparent
        (by rw [hown]; positivity) hentry (hset _)
      rw [hblock, hown, hindex] at hrun
      have henter : (modifyDinode i fun d ↦ { d with iIndirect := (firstDataBlock + idx : ℕ) }).run
          ((s.takeBlock idx).setInode i (some (inode.addCount 1))) =
            .ok ((), s.claim i inode .indirect idx) := by
        rw [modifyDinode_run (inodeHashTable_setInode_self _ _ _), setInode_setInode,
          claim_top _ _ rfl]
        rfl
      rw [Program.run_bind halloc, if_neg (by rw [not_lt]; positivity), Program.run_bind henter]
      rcases hrun with ⟨idx', hclaim', hrun⟩ | ⟨hrun, -⟩
      · refine Or.inl ⟨_, _, ?_, Allocated.claim hmax hclaim.not_full hclaim'
          (Grown.claim hclaim (not_lt.mp hlow) (by simp [Slot.isData]))
          (reachedBut_claim_entry hclaim' hparent (reachedBut_claim hclaim hr))⟩
        rw [Program.run_bind hrun, if_pos (by positivity), Program.pure_run]
      · obtain ⟨t, hback, hrestored, htable⟩ := takeBackIndirect_run hclaim
          (restored_fail _ i) hclaim.inodeHashTable_self
        refine Or.inr ⟨t, ?_, hrestored, Or.inr ⟨htable, not_full hidx hclear hroom⟩⟩
        rw [Program.run_bind hrun, if_neg (by norm_num), Program.run_bind hback, Program.pure_run]
    · refine Or.inr ⟨_, ?_, refused_full ht hfull⟩
      rw [Program.run_bind halloc, if_pos (by norm_num), Program.pure_run]
  · have hown : s.own i .indirect ≠ 0 := by rw [hind]; exact hzero
    have hrun := allocateInIndirect_claim h ht hparent hown hempty (hset _)
    rw [hindex] at hrun
    rw [if_neg hzero, ← hind, Program.run_bind (h.readBlock_run hr (h.table i inode ht) hown)]
    rcases hrun with ⟨idx, hclaim, hrun⟩ | ⟨hrun, hfull⟩
    · exact Or.inl ⟨_, _, hrun, Allocated.claim hmax hclaim.not_full hclaim (Grown.refl h)
        (reachedBut_claim hclaim hr)⟩
    · exact Or.inr ⟨_, hrun, refused_full ht hfull⟩

/-- The claims of a second-level indirect block and of an entry of it, in the order of the code:
both blocks are taken before the two index blocks are written. -/
theorem claim_claim {k : Fin nrIndirectBlocks} (h : Claimable s i inode (.dindirectEntry k) idx)
    {idx' : ℕ} (hidx' : idx' < nrDataBlocks) (e : Fin nrIndirectBlocks) :
    (s.claim i inode (.dindirectEntry k) idx).claim i
        (inode.enter (.dindirectEntry k) (firstDataBlock + idx : ℕ)) (.leafEntry k e) idx' =
      (((((s.takeBlock idx).setInode i (some (inode.addCount 1))).takeBlock idx').setInode i
        (some ((inode.addCount 1).addCount 1))).putDev (firstDataBlock + idx)
          (Block.zero.setInt e (firstDataBlock + idx' : ℕ))).putDev (s.own i .dindirect).toNat
            ((s.dev.blocks (s.own i .dindirect).toNat).setInt k (firstDataBlock + idx : ℕ)) := by
  have hown : s.own i .dindirect ≠ 0 := h.parent _ rfl
  have hne : (s.own i .dindirect).toNat ≠ firstDataBlock + idx := h.ne_own h.lt_nrInodes hown
  have hlow : firstInodeBlock ≤ (s.own i .dindirect).toNat :=
    le_trans (by decide) (h.core.own_toNat h.lt_nrInodes hown).2.1
  have hlayout : Layout ((s.takeBlock idx).setInode i (some (inode.addCount 1))) :=
    (h.core.layout.putBlockBit h.idx_lt).setInode i _
  have hfirst : s.claim i inode (.dindirectEntry k) idx =
      ((s.takeBlock idx).setInode i (some (inode.addCount 1))).putDev (s.own i .dindirect).toNat
        ((s.dev.blocks (s.own i .dindirect).toNat).setInt k (firstDataBlock + idx : ℕ)) := rfl
  have hsecond : (s.claim i inode (.dindirectEntry k) idx).claim i
        (inode.enter (.dindirectEntry k) (firstDataBlock + idx : ℕ)) (.leafEntry k e) idx' =
      (((s.claim i inode (.dindirectEntry k) idx).takeBlock idx').setInode i
        (some ((inode.addCount 1).addCount 1))).putDev
          ((s.claim i inode (.dindirectEntry k) idx).own i (.dindirectEntry k)).toNat
          (((s.claim i inode (.dindirectEntry k) idx).dev.blocks
            ((s.claim i inode (.dindirectEntry k) idx).own i (.dindirectEntry k)).toNat).setInt e
              (firstDataBlock + idx' : ℕ)) := rfl
  rw [hsecond, own_claim_self h, Int.toNat_natCast, h.blocks_new, hfirst,
    takeBlock_putDev hlayout hidx' hlow]
  simp only [FsState.putDev, FsState.setInode]
  rw [Device.put_comm _ hne]

/-- A missing second-level indirect block is claimed together with its first data block. The code
takes both blocks before it writes the two index blocks, which is the same as two claims. -/
theorem allocateInDindirect_newEntry (h : Core s) (ht : s.inodeHashTable i = some inode)
    {k e : ℕ} (hk : k < nrIndirectBlocks) (he : e < nrIndirectBlocks)
    (hown : s.own i .dindirect ≠ 0) (hempty : s.own i (.dindirectEntry ⟨k, hk⟩) = 0)
    (dindirectAllocated : Bool) :
    (∃ idx idx', Claimable s i inode (.dindirectEntry ⟨k, hk⟩) idx ∧
      Claimable (s.claim i inode (.dindirectEntry ⟨k, hk⟩) idx) i
        (inode.enter (.dindirectEntry ⟨k, hk⟩) (firstDataBlock + idx : ℕ))
        (.leafEntry ⟨k, hk⟩ ⟨e, he⟩) idx' ∧
      (allocateInDindirect i (s.dev.blocks (s.own i .dindirect).toNat) dindirectAllocated k
          e).run s =
        .ok ((firstDataBlock + idx' : ℕ), (s.claim i inode (.dindirectEntry ⟨k, hk⟩) idx).claim i
          (inode.enter (.dindirectEntry ⟨k, hk⟩) (firstDataBlock + idx : ℕ))
          (.leafEntry ⟨k, hk⟩ ⟨e, he⟩) idx')) ∨
    ∃ t, Refused i inode s t ∧
      (allocateInDindirect i (s.dev.blocks (s.own i .dindirect).toNat) dindirectAllocated k
          e).run s =
        (do takeBackDindirect i dindirectAllocated; pure (-eNOSPC) : FsProgram ℤ).run t := by
  have hi : i < nrInodes := h.table i inode ht
  have hdind : s.own i .dindirect = inode.din.iDindirect := own_of_some ht _
  have hzero : (s.dev.blocks (s.own i .dindirect).toNat).getInt k = 0 := by
    rw [own_eq_entry (σ := .dindirectEntry ⟨k, hk⟩) s i rfl, entry, if_neg hown] at hempty
    exact hempty
  rw [allocateInDindirect, if_pos hzero]
  rcases testfsAllocBlockForInode_spec h.layout ht with
      ⟨idx, hidx, hclear, hroom, halloc⟩ | ⟨halloc, hfull⟩
  · have hclaim : Claimable s i inode (.dindirectEntry ⟨k, hk⟩) idx :=
      ⟨h, ht, hempty, fun π hπ ↦ by cases hπ; exact hown, hidx, hclear, hroom⟩
    have hpos : (0 : ℤ) ≤ ((firstDataBlock + idx : ℕ) : ℤ) := by positivity
    have htable : ((s.takeBlock idx).setInode i (some (inode.addCount 1))).inodeHashTable i =
        some (inode.addCount 1) := inodeHashTable_setInode_self _ _ _
    rw [Program.run_bind halloc, if_neg (not_lt.mpr hpos)]
    have hlayout : Layout ((s.takeBlock idx).setInode i (some (inode.addCount 1))) :=
      (h.layout.putBlockBit hidx).setInode i _
    rcases allocateInIndirect_run hlayout htable
      (Block.getInt_zero e) hpos with ⟨idx', hidx', hclear', hroom', hrun⟩ | ⟨hrun, -⟩
    · have hentry := own_claim_self hclaim
      have hleaf : s.own i (.leafEntry ⟨k, hk⟩ ⟨e, he⟩) = 0 := by
        rw [own_eq_entry (σ := .leafEntry ⟨k, hk⟩ ⟨e, he⟩) s i rfl, hempty, entry, if_pos rfl]
      have hclaim' : Claimable (s.claim i inode (.dindirectEntry ⟨k, hk⟩) idx) i
          (inode.enter (.dindirectEntry ⟨k, hk⟩) (firstDataBlock + idx : ℕ))
          (.leafEntry ⟨k, hk⟩ ⟨e, he⟩) idx' := by
        refine ⟨Core.claim hclaim, hclaim.inodeHashTable_self, ?_, ?_, hidx', ?_, ?_⟩
        · rw [own_claim_of_ne hclaim Slot.noConfusion, hleaf]
        · intro π hπ
          cases hπ
          rw [hentry]
          positivity
        · rw [hclaim.blockFreemap]
          exact hclear'
        · rw [hclaim.sb]
          exact hroom'
      refine Or.inl ⟨idx, idx', hclaim, hclaim', ?_⟩
      have htable' :
          ((((s.takeBlock idx).setInode i (some (inode.addCount 1))).takeBlock idx').setInode
          i (some ((inode.addCount 1).addCount 1))).inodeHashTable i =
            some ((inode.addCount 1).addCount 1) := inodeHashTable_setInode_self _ _ _
      have hwrite : ((inode.addCount 1).addCount 1).din.iDindirect = s.own i .dindirect :=
        hdind.symm
      rw [Program.run_bind hrun, if_pos (by positivity),
        Program.run_bind (inodeRef_putDev_run htable' _ _), hwrite,
        Program.run_bind (writeBlocks_run (h.own_pos hi hown).le _ _), Program.pure_run,
        claim_claim hclaim hidx', Int.toNat_natCast]
      rfl
    · have hfail : Restored i (s.takeBlock idx)
          ((s.takeBlock idx).setInode i (some (inode.addCount 1))).failAlloc :=
        (restored_fail _ i).of_setInode
      obtain ⟨t, hfree, hrestored, htable'⟩ := Restored.undo h.layout hidx hclear
        (h.zeroed idx hidx hclear) hfail htable
      refine Or.inr ⟨t, ⟨hrestored, Or.inr ⟨?_, not_full hidx hclear hroom⟩⟩, ?_⟩
      · rw [htable']
        simp only [Inode.addCount, add_neg_cancel_right]
      · rw [Program.run_bind hrun, if_neg (by norm_num), Program.run_bind hfree]
  · refine Or.inr ⟨_, refused_full ht hfull, ?_⟩
    rw [Program.run_bind halloc, if_pos (by norm_num)]

/-- The double indirect branch, from a double indirect block of the inode on. -/
theorem allocateInDindirect_spec (h : Core s) (hr : Reached s)
    (ht : s.inodeHashTable i = some inode)
    {k e : ℕ} (hk : k < nrIndirectBlocks) (he : e < nrIndirectBlocks) (hl : l < maxBlockNr)
    (hslot : Slot.ofLog l = .leafEntry ⟨k, hk⟩ ⟨e, he⟩) (hempty : s.own i (Slot.ofLog l) = 0)
    (hown : s.own i .dindirect ≠ 0) :
    AllocOutcome i l inode s
      ((allocateInDindirect i (s.dev.blocks (s.own i .dindirect).toNat) false k
      e).run s) := by
  have hparent : (Slot.ofLog l).parent = some (.dindirectEntry ⟨k, hk⟩) := by rw [hslot]; rfl
  have hindex : (Slot.ofLog l).entryIndex = e := by rw [hslot]; rfl
  by_cases hentry : s.own i (.dindirectEntry ⟨k, hk⟩) = 0
  · have hfirst : (Slot.dindirectEntry ⟨k, hk⟩).first ≤ l :=
      (Slot.first_le_of_parent hparent).trans (Slot.first_ofLog hl).le
    rcases allocateInDindirect_newEntry h ht hk he hown hentry false with
      ⟨idx, idx', hclaim, hclaim', hrun⟩ | ⟨t, hrefused, hrun⟩
    · rw [← hslot] at hclaim' hrun
      exact Or.inl ⟨_, _, hrun, Allocated.claim hl hclaim.not_full hclaim'
        (Grown.claim hclaim hfirst (by simp [Slot.isData]))
        (reachedBut_claim_entry hclaim' hparent (reachedBut_claim hclaim hr))⟩
    · exact Or.inr ⟨t, hrun, hrefused⟩
  · have hgetInt : (s.dev.blocks (s.own i .dindirect).toNat).getInt k =
        s.own i (.dindirectEntry ⟨k, hk⟩) := by
      rw [own_eq_entry (σ := .dindirectEntry ⟨k, hk⟩) s i rfl, entry, if_neg hown]
      rfl
    have hrun := allocateInIndirect_claim h ht hparent hentry hempty
      (by rw [hslot]; exact fun _ ↦ rfl)
    rw [hindex] at hrun
    rw [allocateInDindirect, hgetInt, if_neg hentry,
      Program.run_bind (h.readBlock_run hr (h.table i inode ht) hentry)]
    rcases hrun with ⟨idx, hclaim, hrun⟩ | ⟨hrun, hfull⟩
    · exact Or.inl ⟨_, _, hrun, Allocated.claim hl hclaim.not_full hclaim (Grown.refl h)
        (reachedBut_claim hclaim hr)⟩
    · exact Or.inr ⟨_, hrun, refused_full ht hfull⟩

/-- The double indirect branch claims the data block after the missing index blocks. -/
theorem allocateDindirect_spec (h : Core s) (hr : Reached s) (ht : s.inodeHashTable i = some inode)
    {k e : ℕ} (hk : k < nrIndirectBlocks) (he : e < nrIndirectBlocks) (hl : l < maxBlockNr)
    (hslot : Slot.ofLog l = .leafEntry ⟨k, hk⟩ ⟨e, he⟩) (hempty : s.own i (Slot.ofLog l) = 0) :
    AllocOutcome i l inode s ((allocateDindirect i k e).run s) := by
  have hparent : (Slot.ofLog l).parent = some (.dindirectEntry ⟨k, hk⟩) := by rw [hslot]; rfl
  have hdind : s.own i .dindirect = inode.din.iDindirect := own_of_some ht _
  rw [allocateDindirect, Program.run_bind (inodeRef_run ht)]
  by_cases hzero : inode.din.iDindirect = 0
  swap
  · have hown : s.own i .dindirect ≠ 0 := by rw [hdind]; exact hzero
    rw [if_neg hzero, ← hdind, Program.run_bind (h.readBlock_run hr (h.table i inode ht) hown)]
    exact allocateInDindirect_spec h hr ht hk he hl hslot hempty hown
  rw [if_pos hzero]
  rcases testfsAllocBlockForInode_spec h.layout ht with
      ⟨idx, hidx, hclear, hroom, halloc⟩ | ⟨halloc, hfull⟩
  swap
  · refine Or.inr ⟨_, ?_, refused_full ht hfull⟩
    rw [Program.run_bind halloc, if_pos (by norm_num), Program.pure_run]
  have hclaim : Claimable s i inode .dindirect idx :=
    ⟨h, ht, by rw [hdind, hzero], by simp [Slot.parent], hidx, hclear, hroom⟩
  have hown := own_claim_self hclaim
  have hentry : s.own i (.dindirectEntry ⟨k, hk⟩) = 0 := by
    rw [own_eq_entry (σ := .dindirectEntry ⟨k, hk⟩) s i rfl, hdind, hzero, entry, if_pos rfl]
  have hempty' : (s.claim i inode .dindirect idx).own i (.dindirectEntry ⟨k, hk⟩) = 0 := by
    rw [own_claim_of_ne hclaim Slot.noConfusion, hentry]
  have henter : (modifyDinode i fun d ↦ { d with iDindirect := (firstDataBlock + idx : ℕ) }).run
      ((s.takeBlock idx).setInode i (some (inode.addCount 1))) =
        .ok ((), s.claim i inode .dindirect idx) := by
    rw [modifyDinode_run (inodeHashTable_setInode_self _ _ _), setInode_setInode,
      claim_top _ _ rfl]
    rfl
  have hrun := allocateInDindirect_newEntry (Core.claim hclaim) hclaim.inodeHashTable_self hk he
    (by rw [hown]; positivity) hempty' true
  rw [hown, Int.toNat_natCast, hclaim.blocks_new] at hrun
  rw [Program.run_bind halloc, if_neg (by rw [not_lt]; positivity), Program.run_bind henter]
  rcases hrun with ⟨idx₁, idx₂, hclaim₁, hclaim₂, hrun⟩ | ⟨t, hrefused, hrun⟩
  · have hfirst : (Slot.dindirectEntry ⟨k, hk⟩).first ≤ l :=
      (Slot.first_le_of_parent hparent).trans (Slot.first_ofLog hl).le
    have hfirst' : Slot.dindirect.first ≤ l :=
      (Slot.first_le_of_parent (σ := .dindirectEntry ⟨k, hk⟩) rfl).trans hfirst
    rw [← hslot] at hclaim₂ hrun
    exact Or.inl ⟨_, _, hrun, Allocated.claim hl hclaim.not_full hclaim₂
      ((Grown.claim hclaim hfirst' (by simp [Slot.isData])).trans
        (Grown.claim hclaim₁ hfirst (by simp [Slot.isData])))
      (reachedBut_claim_entry hclaim₂ hparent
        (reachedBut_claim_entry hclaim₁ rfl (reachedBut_claim hclaim hr)))⟩
  · obtain ⟨inode', htable, hdin, hcount⟩ : ∃ inode' : Inode, t.inodeHashTable i = some inode' ∧
        inode'.din = (inode.enter .dindirect (firstDataBlock + idx : ℕ)).din ∧
        inode'.iCount = inode.iCount := by
      rcases hrefused.inMemory with ⟨htable, -⟩ | ⟨htable, -⟩
      · exact ⟨_, htable, rfl, rfl⟩
      · exact ⟨_, htable, rfl, rfl⟩
    obtain ⟨t', hback, hrestored, htable'⟩ :=
      takeBackDindirect_run hclaim hrefused.restored htable hdin hcount
    refine Or.inr ⟨t', ?_, hrestored, Or.inr ⟨htable', not_full hidx hclear hroom⟩⟩
    rw [hrun, Program.run_bind hback, Program.pure_run]

/-- A missing block of the inode is allocated, or the allocation is undone. -/
theorem allocateMissing_spec (h : Core s) (hr : Reached s) (ht : s.inodeHashTable i = some inode)
    (hl : l < maxBlockNr) (hempty : s.own i (Slot.ofLog l) = 0) :
    AllocOutcome i l inode s ((allocateMissing i l).run s) := by
  rw [allocateMissing]
  by_cases hdirect : l < nrDirectBlocks
  · rw [dif_pos hdirect]
    exact allocateDirect_spec h hr ht hdirect hempty
  rw [dif_neg hdirect]
  by_cases hindirect : l - nrDirectBlocks < nrIndirectBlocks
  · rw [if_neg (not_le.mpr hindirect)]
    exact allocateIndirect_spec h hr ht hdirect hindirect hempty
  · have hquot : (l - nrDirectBlocks - nrIndirectBlocks) / nrIndirectBlocks < nrIndirectBlocks := by
      simp only [maxBlockNr, nrDirectBlocks, nrIndirectBlocks] at *
      omega
    rw [if_pos (not_lt.mp hindirect)]
    exact allocateDindirect_spec h hr ht hquot (Nat.mod_lt _ (by decide)) hl
      (Slot.ofLog_leaf hdirect hindirect hquot) hempty

/-- `testfs_allocate_block` finds the block that exists, or allocates the missing one. -/
theorem testfsAllocateBlock_spec (h : Core s) (hr : Reached s)
    (ht : s.inodeHashTable i = some inode) (hl : l < maxBlockNr) (block : Block) :
    (∃ t, (testfsAllocateBlock i l block).run s =
        .ok ((t.own i (Slot.ofLog l), s.blockOf i l), t) ∧
      Allocated i l s t (t.own i (Slot.ofLog l)) ∧ (s.own i (Slot.ofLog l) ≠ 0 → t = s)) ∨
    ∃ t, (testfsAllocateBlock i l block).run s = .ok ((-eNOSPC, Block.zero), t) ∧
      Refused i inode s t ∧ s.own i (Slot.ofLog l) = 0 ∧ (l < nrDirectBlocks → s.Full) := by
  rw [testfsAllocateBlock, if_neg (not_le.mpr hl),
    Program.run_bind (testfsReadBlock_run h hr ht hl block)]
  by_cases hempty : s.own i (Slot.ofLog l) = 0
  · have hblock : s.blockOf i l = Block.zero := by rw [FsState.blockOf, if_pos hempty]
    simp only [hempty, hblock, ne_eq, not_true_eq_false, if_false]
    rcases allocateMissing_spec h hr ht hl hempty with
        ⟨p, t, hrun, hallocated⟩ | ⟨t, hrun, hrefused⟩
    · refine Or.inl ⟨t, ?_, hallocated.own.symm ▸ hallocated, fun hne ↦ False.elim hne⟩
      rw [Program.run_bind hrun, Program.pure_run, hallocated.own]
    · refine Or.inr ⟨t, ?_, hrefused, trivial, fun hdirect ↦ ?_⟩
      · rw [Program.run_bind hrun, Program.pure_run]
      · rw [allocateMissing, dif_pos hdirect] at hrun
        exact allocateDirect_full h.layout ht hdirect hrun
  · refine Or.inl ⟨s, ?_, ⟨Grown.refl h, hr.reachedBut i _, rfl,
      h.own_pos (h.table i inode ht) hempty, fun hzero ↦ absurd hzero hempty⟩, fun _ ↦ rfl⟩
    simp only [ne_eq, hempty, not_false_eq_true, if_true, Program.pure_run]

end Outcome

end OperatingSystems.Fs
