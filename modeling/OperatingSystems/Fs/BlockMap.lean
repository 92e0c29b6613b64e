import OperatingSystems.Fs.Fresh

/-!
# The block map that readers see

`FsState.blockMap s i l` is what `testfs_read_block` returns for logical block `l` of inode `i`.
`testfs_allocate_block` extends this map at one point, with a block that was free, or leaves it
alone together with everything that records allocations (`testfsAllocateBlock_extends`).

A block that was just allocated need not lie within the device file, which grows when it is
written. Until the caller has written the block, reading it can end the process
(`testfsAllocateBlock_unwritten`).
-/

set_option autoImplicit false
set_option relaxedAutoImplicit false

namespace OperatingSystems.Fs

open Library

/-- The result of `testfs_read_block` for a logical block of an inode, which `testfs_get_inode`
finds in memory or fetches. -/
def FsState.blockMap (s : FsState) (i l : ℕ) : Except Halt ℤ :=
  ((do testfsGetInode i; testfsReadBlock i l Block.zero : FsProgram (ℤ × Block)).run s).map
    fun result ↦ result.1.1

/-- The block map of `t` is that of `s` with logical block `l` of inode `i` mapped to `p`, which can
be read as soon as the device file reaches so far. -/
structure Mapped (i l : ℕ) (s t : FsState) (p : ℤ) : Prop where
  slot : t.own i (Slot.ofLog l) = p
  self : t.blockMap i l = if p.toNat < t.dev.len then .ok p else .error .exit
  others : ∀ j < nrInodes, ∀ m < maxBlockNr, j ≠ i ∨ m ≠ l → t.blockMap j m = s.blockMap j m

/-- Nothing that records an allocation is different, except that inode `i` may be marked dirty. -/
structure Unmapped (i : ℕ) (inode : Inode) (s t : FsState) : Prop where
  inMemory : ∃ dirty, t.inodeHashTable i = some { inode with dirty }
  table : ∀ j, j ≠ i → t.inodeHashTable j = s.inodeHashTable j
  map : ∀ j < nrInodes, ∀ m < maxBlockNr, t.blockMap j m = s.blockMap j m
  blockFreemap : t.blockFreemap = s.blockFreemap
  sb : t.sb = s.sb

variable {s t : FsState} {i j l m : ℕ} {inode : Inode} {p : ℤ}

/-! ### Reading -/

/-- Fetching an inode changes no file. -/
theorem Core.sameFiles_fetch (h : Core s) (hi : i < nrInodes) : SameFiles s (s.fetch i) :=
  have hdinode : (s.fetch i).dinode i = s.dinode i := dinode_fetch s i i
  sameFiles_setInode h hi (congrArg Dinode.slots hdinode) (congrArg Dinode.blockCount hdinode)

/-- The block map is the number in the data slot, if the block can be read. -/
theorem blockMap_eq (h : Core s) (hindex : s.IndexReached i) (hi : i < nrInodes)
    (hl : l < maxBlockNr) : s.blockMap i l =
      if s.own i (Slot.ofLog l) ≠ 0 → (s.own i (Slot.ofLog l)).toNat < s.dev.len then
        .ok (s.own i (Slot.ofLog l))
      else .error .exit := by
  obtain ⟨n, hn⟩ := inodeHashTable_fetch s i
  have hindex' : (s.fetch i).IndexReached i := by
    rw [FsState.IndexReached, own_fetch]
    exact hindex
  have hread := testfsReadBlock_index_run ((h.sameFiles_fetch hi).core h) hindex' hn hl Block.zero
  rw [own_fetch] at hread
  rw [FsState.blockMap, Program.run_bind (testfsGetInode_fetch h.layout hi), hread]
  have hlen : (s.fetch i).dev.len = s.dev.len := rfl
  rw [hlen]
  split_ifs with hreach
  · rfl
  · rfl

theorem blockMap_of_reached (h : Core s) (hr : Reached s) (hi : i < nrInodes)
    (hl : l < maxBlockNr) : s.blockMap i l = .ok (s.own i (Slot.ofLog l)) := by
  rw [blockMap_eq h (h.indexReached hr hi) hi hl, if_pos (h.lt_len hr hi)]

/-- A block is within the device file unless it is that of the slot left out. -/
theorem ReachedBut.lt_len {σ τ : Slot} (hr : ReachedBut s i σ) (h : Core s) (hi : i < nrInodes)
    (hj : j < nrInodes) (hτ : s.own j τ ≠ 0) (hne : j ≠ i ∨ τ ≠ σ) :
    (s.own j τ).toNat < s.dev.len := by
  obtain ⟨idx, hidx, hown, hset⟩ := h.inUse hj hτ
  rcases hr idx hidx hset with hlen | hleft
  · rwa [hown, Int.toNat_natCast]
  · obtain ⟨hji, hτσ⟩ := h.ledger.unique j hj i hi τ σ hτ (hown.trans hleft)
    exact absurd hτσ (hne.resolve_left (absurd hji))

/-! ### A successful allocation -/

namespace Allocated

/-- The data slots of all other logical blocks are as they were. -/
theorem own_of_ne (h : Allocated i l s t p) (hj : j < nrInodes) (hl : l < maxBlockNr)
    (hm : m < maxBlockNr) (hne : j ≠ i ∨ m ≠ l) :
    t.own j (Slot.ofLog m) = s.own j (Slot.ofLog m) := by
  by_cases hji : j = i
  · subst hji
    by_cases hzero : s.own j (Slot.ofLog m) = 0
    · rw [hzero]
      by_contra hfilled
      have hslot := (h.grown.own_new _ hzero hfilled).2 (Slot.isData_ofLog m)
      exact hne.resolve_left (absurd rfl) (Slot.ofLog_injective hm hl hslot)
    · exact h.grown.own_keep _ hzero
  · rw [h.grown.own_ne j hj hji]

/-- What any inode owned it still owns. -/
theorem own_keep (h : Allocated i l s t p) (hj : j < nrInodes) {σ : Slot} (hσ : s.own j σ ≠ 0) :
    t.own j σ = s.own j σ := by
  by_cases hji : j = i
  · rw [hji] at hσ ⊢
    exact h.grown.own_keep σ hσ
  · rw [h.grown.own_ne j hj hji]

/-- The block of a slot that was empty was free. -/
theorem free (h : Allocated i l s t p) (hs : Core s) (hi : i < nrInodes)
    (hempty : s.own i (Slot.ofLog l) = 0) :
    ∃ idx < nrDataBlocks, p = (firstDataBlock + idx : ℕ) ∧ s.blockFreemap.bit idx = false := by
  have hfilled : t.own i (Slot.ofLog l) ≠ 0 := by
    rw [h.own]
    exact h.pos.ne'
  obtain ⟨idx, hidx, hown, -⟩ := h.grown.core.inUse hi hfilled
  rw [h.own] at hown
  refine ⟨idx, hidx, hown, ?_⟩
  by_contra hset
  have huse : InUse s.blockFreemap p := ⟨idx, hidx, hown, by simpa using hset⟩
  -- Its owner would own it still, beside the new one.
  obtain ⟨j, hj, σ, hσ⟩ := (hs.ledger.taken_iff p huse.ne_zero).mp huse
  have hkeep : t.own j σ = p := (h.own_keep hj (by rw [hσ]; exact h.pos.ne')).trans hσ
  obtain ⟨rfl, rfl⟩ := h.grown.core.ledger.unique j hj i hi σ _ (by rw [hkeep]; exact h.pos.ne')
    (hkeep.trans h.own.symm)
  rw [hempty] at hσ
  exact h.pos.ne hσ

theorem mapped (h : Allocated i l s t p) (hs : Core s) (hr : Reached s) (hi : i < nrInodes)
    (hl : l < maxBlockNr) : Mapped i l s t p := by
  have hcore := h.grown.core
  have hindex : ∀ j < nrInodes, t.IndexReached j := fun j hj σ hdata hσ ↦
    h.reached.lt_len hcore hi hj hσ (.inr fun heq ↦ by
      rw [heq, Slot.isData_ofLog] at hdata
      cases hdata)
  refine ⟨h.own, ?_, fun j hj m hm hne ↦ ?_⟩
  · rw [blockMap_eq hcore (hindex i hi) hi hl, h.own]
    simp only [ne_eq, h.pos.ne', not_false_eq_true, forall_const]
  · have hslot : j ≠ i ∨ Slot.ofLog m ≠ Slot.ofLog l :=
      hne.imp_right fun hml heq ↦ hml (Slot.ofLog_injective hm hl heq)
    rw [blockMap_of_reached hs hr hj hm, blockMap_eq hcore (hindex j hj) hj hm,
      if_pos fun hown ↦ h.reached.lt_len hcore hi hj hown hslot, h.own_of_ne hj hl hm hne]

end Allocated

/-! ### An allocation that fails -/

theorem Refused.unmapped (h : Refused i inode s t) (hs : Core s) (hr : Reached s)
    (ht : s.inodeHashTable i = some inode) : Unmapped i inode s t := by
  obtain ⟨dirty, hdirty⟩ : ∃ dirty, t.inodeHashTable i = some { inode with dirty } := by
    rcases h.inMemory with ⟨hsame, -⟩ | ⟨hmarked, -⟩
    · exact ⟨inode.dirty, hsame⟩
    · exact ⟨true, hmarked⟩
  have hsame : SameFiles s t := h.restored.same hs hdirty ht rfl
  refine ⟨⟨dirty, hdirty⟩, h.restored.table_ne, fun j hj m hm ↦ ?_, h.restored.blockFreemap,
    h.restored.sb⟩
  rw [blockMap_of_reached hs hr hj hm,
    blockMap_of_reached (hsame.core hs) (hsame.reached hr) hj hm, hsame.own hs hj]

/-! ### Allocating -/

/-- Assumes: the ownership invariant, and every block in use within the device file. Allocating a
logical block of an in-memory inode returns a positive number `p`, to which the block map has been
extended at this point, or a negative one with nothing changed. If the logical block was not mapped
before, `p` was free and the buffer is zero; if it was, nothing is changed either. -/
theorem testfsAllocateBlock_extends (h : Core s) (hr : Reached s)
    (ht : s.inodeHashTable i = some inode) (hl : l < maxBlockNr) (block : Block) :
    ∃ p data t, (testfsAllocateBlock i l block).run s = .ok ((p, data), t) ∧
      (0 < p ∧ Mapped i l s t p ∧
          (s.blockMap i l = .ok 0 → data = Block.zero ∧
            ∃ idx < nrDataBlocks, p = (firstDataBlock + idx : ℕ) ∧
              s.blockFreemap.bit idx = false) ∧
          (s.blockMap i l ≠ .ok 0 → t = s) ∨
        p < 0 ∧ Unmapped i inode s t) := by
  have hi := h.table i inode ht
  have hmap : s.blockMap i l = .ok 0 ↔ s.own i (Slot.ofLog l) = 0 := by
    rw [blockMap_of_reached h hr hi hl, Except.ok.injEq]
  rcases testfsAllocateBlock_spec h hr ht hl block with
    ⟨t, hrun, hallocated, hkept⟩ | ⟨t, hrun, hrefused, -, -⟩
  · refine ⟨_, _, t, hrun, .inl ⟨hallocated.pos, hallocated.mapped h hr hi hl, fun hzero ↦ ?_,
      fun hsome ↦ hkept fun hzero ↦ hsome (hmap.mpr hzero)⟩⟩
    rw [hmap] at hzero
    exact ⟨by rw [FsState.blockOf, if_pos hzero], hallocated.free h hi hzero⟩
  · exact ⟨_, _, t, hrun, .inr ⟨by decide, hrefused.unmapped h hr ht⟩⟩

/-- A block behind two index blocks, for the root directory of a new file system. -/
theorem testfsAllocateBlock_extends_root : ∃ s t p data, freshFs 100 = .ok s ∧
    (testfsAllocateBlock 0 3000 Block.zero).run s = .ok ((p, data), t) ∧
    (0 < p ∧ t.own 0 (Slot.ofLog 3000) = p ∨ p < 0 ∧ t.blockFreemap = s.blockFreemap) := by
  obtain ⟨s, hs, hfresh⟩ := freshFs_spec (by decide : 100 ≤ nrDataBlocks)
  obtain ⟨inode, hinode, -, -⟩ := hfresh.root
  obtain ⟨p, data, t, hrun, hcases⟩ := testfsAllocateBlock_extends hfresh.sound.core
    hfresh.sound.reached hinode (by decide : 3000 < maxBlockNr) Block.zero
  refine ⟨s, t, p, data, hs, hrun, hcases.imp (fun hmapped ↦ ?_) fun hunmapped ↦ ?_⟩
  · exact ⟨hmapped.1, hmapped.2.1.slot⟩
  · exact ⟨hunmapped.1, hunmapped.2.blockFreemap⟩

/-! ### A block that is not written yet -/

/-- The direct branch does not write data blocks, so that the device file keeps its length. -/
theorem allocateDirect_len (h : Layout s) (ht : s.inodeHashTable i = some inode)
    {k : Fin nrDirectBlocks} (hrun : (allocateDirect i k).run s = .ok (p, t)) :
    t.dev.len = s.dev.len := by
  rw [allocateDirect, Program.run_bind (inodeRef_run ht)] at hrun
  obtain ⟨_, u, hcheck, hrun⟩ := Program.bind_eq_ok_iff.mp hrun
  rw [(Program.check_eq_ok_iff.mp hcheck).2] at hrun
  rcases testfsAllocBlockForInode_spec h ht with ⟨idx, hidx, -, -, halloc⟩ | ⟨halloc, -⟩
  · rw [Program.run_bind halloc, if_pos (by positivity),
      Program.run_bind (modifyDinode_run (inodeHashTable_setInode_self _ _ _) _), Program.pure_run,
      Except.ok.injEq, Prod.mk.injEq] at hrun
    rw [← hrun.2]
    exact len_putBlockBit h hidx
  · rw [Program.run_bind halloc, if_neg (by norm_num), Program.pure_run, Except.ok.injEq,
      Prod.mk.injEq] at hrun
    rw [← hrun.2]
    rfl

/-- The first direct block of an inode that owns nothing, in a file system whose data blocks all lie
behind the end of the device file, is allocated where it cannot be read. -/
theorem blockMap_unwritten (h : Sound s) (ht : s.inodeHashTable i = some inode)
    (hown : ∀ j < nrInodes, s.own j = fun _ ↦ 0) (hroom : s.sb.maxFsBlocks ≠ 0)
    (hlen : s.dev.len = firstDataBlock) :
    ∃ p data t, (testfsAllocateBlock i 0 Block.zero).run s = .ok ((p, data), t) ∧ 0 < p ∧
      t.blockMap i 0 = .error .exit := by
  have hi := h.lt ht
  have hl : 0 < maxBlockNr := by decide
  have hempty : s.own i (Slot.ofLog 0) = 0 := by rw [hown i hi]
  rcases allocateDirect_spec h.core h.reached ht (by decide) hempty with
    ⟨p, t, hrun, hallocated⟩ | ⟨t, hrun, -⟩
  · have hfilled : t.own i (Slot.ofLog 0) ≠ 0 := by
      rw [hallocated.own]
      exact hallocated.pos.ne'
    have hbehind : ¬p.toNat < t.dev.len := by
      have hlow := (hallocated.grown.core.own_toNat hi hfilled).2.1
      rw [hallocated.own] at hlow
      rw [allocateDirect_len h.core.layout ht hrun, hlen]
      exact not_lt.mpr hlow
    refine ⟨p, s.blockOf i 0, t, ?_, hallocated.pos, ?_⟩
    · rw [testfsAllocateBlock, if_neg (not_le.mpr hl),
        Program.run_bind (testfsReadBlock_run h.core h.reached ht hl _)]
      simp only [hempty, ne_eq, not_true_eq_false, if_false]
      rw [allocateMissing, dif_pos (by decide), Program.run_bind hrun, Program.pure_run]
    · rw [(hallocated.mapped h.core h.reached hi hl).self, if_neg hbehind]
  · exact absurd (h.max_of_full hown (allocateDirect_full h.core.layout ht (by decide) hrun)) hroom

/-- On a device that `mktestfs` has just mounted, the first block of the root directory is
allocated, and reading it would end the process. -/
theorem testfsAllocateBlock_unwritten : ∃ s t inode p data, Core s ∧ Reached s ∧
    s.inodeHashTable 0 = some inode ∧
    (testfsAllocateBlock 0 0 Block.zero).run s = .ok ((p, data), t) ∧ 0 < p ∧
    t.blockMap 0 0 = .error .exit := by
  obtain ⟨dev, -, hlen, -, hblocks⟩ := testfsMakeBlocks_run nrDataBlocks
  obtain ⟨s, hs⟩ : ∃ s, s = ({ testfsMakeSuperBlock nrDataBlocks with dev := dev }).mounted
      (testfsMakeSuperBlock nrDataBlocks).sb := ⟨_, rfl⟩
  have hempty : Empty s := by
    rw [hs]
    exact empty_mounted hlen.ge hblocks rfl rfl
  have hmax : s.sb.maxFsBlocks = nrDataBlocks := by
    rw [hs]
    rfl
  have hdev : s.dev.len = firstDataBlock := by
    rw [hs]
    exact hlen
  have hsound : Sound (s.fetch 0) := hempty.sound.fetch (by decide)
  obtain ⟨inode, hinode⟩ := inodeHashTable_fetch s 0
  obtain ⟨p, data, t, hrun, hpos, hmap⟩ := blockMap_unwritten hsound hinode
    (fun j _ ↦ by rw [own_fetch, hempty.own]) (ne_of_eq_of_ne hmax (by decide)) hdev
  exact ⟨_, t, inode, p, data, hsound.core, hsound.reached, hinode, hrun, hpos, hmap⟩

end OperatingSystems.Fs
