import OperatingSystems.Fs.Free

/-!
# Inodes between memory and disk

A dinode whose fields fit their C types is stored in its 64 bytes of an inode block and read back
as it was (`decodeDinode_encodeDinode`). `testfs_sync_inode` is therefore the update `syncInode`:
it makes the disk inode equal to the one in memory, leaves all other disk inodes as they are, and
does not change what any inode is. Fetching and dropping a clean inode do not either, when its
copy on disk is the same.
-/

set_option autoImplicit false
set_option relaxedAutoImplicit false

namespace OperatingSystems.Fs

open Library

/-! ### Bytes of a dinode -/

/-- The fields of a dinode are in the ranges of their types. -/
structure Dinode.Fits (d : Dinode) : Prop where
  ints : ∀ k < 14, -2 ^ 31 ≤ d.int k ∧ d.int k < 2 ^ 31
  iSize : -2 ^ 63 ≤ d.iSize ∧ d.iSize < 2 ^ 63

theorem Dinode.Fits.iType {d : Dinode} (h : d.Fits) : -2 ^ 31 ≤ d.iType ∧ d.iType < 2 ^ 31 := by
  simpa [Dinode.int] using h.ints 0 (by norm_num)

theorem decodeDinode_congr {first second : ℕ → UInt8} (h : ∀ j < dinodeSize, first j = second j) :
    decodeDinode first = decodeDinode second := by
  have hword : ∀ k < 14, wordAt 4 first k = wordAt 4 second k := by
    intro k hk
    apply wordAt_congr
    intro j hj
    exact h _ (by simp only [dinodeSize]; omega)
  have hsize : wordAt 8 first 7 = wordAt 8 second 7 := by
    apply wordAt_congr
    intro j hj
    exact h _ (by simp only [dinodeSize]; omega)
  simp only [decodeDinode, hsize, hword 0 (by omega), hword 11 (by omega), hword 12 (by omega),
    hword 13 (by omega)]
  congr 1
  funext i
  rw [hword _ (by have := i.isLt; simp only [nrDirectBlocks] at this; omega)]

theorem wordAt_encodeDinode (d : Dinode) {k : ℕ} (hk : k < 14) :
    wordAt 4 (encodeDinode d) k = toUnsigned 4 (d.int k) % 256 ^ 4 := by
  apply wordAt_of_leByte
  intro j hj
  rw [encodeDinode, if_pos (by omega), show (4 * k + j) / 4 = k by omega,
    show (4 * k + j) % 4 = j by omega]

theorem decodeDinode_encodeDinode {d : Dinode} (h : d.Fits) : decodeDinode
    (encodeDinode d) = d := by
  have hint : ∀ k < 14, toSigned 4 (wordAt 4 (encodeDinode d) k) = d.int k := by
    intro k hk
    have hrange := h.ints k hk
    rw [wordAt_encodeDinode d hk]
    apply toSigned_toUnsigned
    · norm_num
      omega
    · norm_num
      omega
  have hsize : toSigned 8 (wordAt 8 (encodeDinode d) 7) = d.iSize := by
    have hword : wordAt 8 (encodeDinode d) 7 = toUnsigned 8 d.iSize % 256 ^ 8 := by
      apply wordAt_of_leByte
      intro j hj
      rw [encodeDinode, if_neg (by omega), show 8 * 7 + j - 56 = j by omega]
    have hrange := h.iSize
    rw [hword]
    apply toSigned_toUnsigned
    · norm_num
      omega
    · norm_num
      omega
  ext
  · exact hint 0 (by omega)
  · rename_i i
    have hi := i.isLt
    refine (hint (i + 1) (by simp only [nrDirectBlocks] at hi; omega)).trans ?_
    simp [Dinode.int]
  · exact hint 11 (by omega)
  · exact hint 12 (by omega)
  · exact hint 13 (by omega)
  · exact hsize

/-- What is read from disk fits. -/
theorem fits_decodeDinode (bytes : ℕ → UInt8) : (decodeDinode bytes).Fits := by
  have hfour : ∀ n : ℕ, -2 ^ 31 ≤ toSigned 4 n ∧ toSigned 4 n < 2 ^ 31 := by
    intro n
    simpa using toSigned_range (w := 4) n
  refine ⟨?_, by simpa [decodeDinode] using toSigned_range (w := 8) (wordAt 8 bytes 7)⟩
  intro k _
  simp only [Dinode.int, decodeDinode]
  split_ifs <;> exact hfour _

theorem fits_diskDinode (s : FsState) (i : ℕ) : (s.diskDinode i).Fits := fits_decodeDinode _

/-! ### Inode blocks -/

/-- The number of the block that holds a disk inode. -/
def inodeBlock (i : ℕ) : ℕ := firstInodeBlock + i / inodesPerBlock

theorem inodeBlock_lt {i : ℕ} (hi : i < nrInodes) : inodeBlock i < firstDataBlock := by
  have hdiv : i / inodesPerBlock < nrInodeBlocks :=
    Nat.div_lt_of_lt_mul (by rw [mul_comm]; exact hi)
  exact Nat.add_lt_add_left hdiv _

theorem diskDinode_eq {s : FsState} (h : Layout s) (i : ℕ) :
    s.diskDinode i = decodeDinode fun j ↦
      (s.dev.blocks (inodeBlock i)).byte (testfsInodeToBlockOffset i + j) := by
  rw [FsState.diskDinode, h.inodeBlocksStart, inodeBlock]

/-- The state after `testfs_sync_inode` wrote a dirty inode. -/
def FsState.syncInode (s : FsState) (i : ℕ) (inode : Inode) : FsState :=
  (s.putDev (inodeBlock i) ((s.dev.blocks (inodeBlock i)).copyIn (testfsInodeToBlockOffset i)
    dinodeSize (encodeDinode inode.din))).setInode i (some { inode with dirty := false })

section Sync

variable {s : FsState} {i : ℕ} {inode : Inode}

theorem testfsInodeToBlockNr_run (hi : i < nrInodes) (s : FsState) :
    (testfsInodeToBlockNr i).run s = .ok (i / inodesPerBlock, s) := by
  have hdiv : i / inodesPerBlock < nrInodeBlocks :=
    Nat.div_lt_of_lt_mul (by rw [mul_comm]; exact hi)
  rw [testfsInodeToBlockNr, Program.check_bind_run hdiv, Program.pure_run]

theorem testfsReadInodeBlock_run (h : Layout s) (hi : i < nrInodes) :
    (testfsReadInodeBlock i).run s = .ok (s.dev.blocks (inodeBlock i), s) := by
  have hblock : ((s.sb.inodeBlocksStart : ℤ) + (i / inodesPerBlock : ℕ)) = (inodeBlock i : ℕ) := by
    rw [h.inodeBlocksStart]
    exact (Nat.cast_add _ _).symm
  have hlen : ((inodeBlock i : ℕ) : ℤ).toNat < s.dev.len := by
    rw [Int.toNat_natCast]
    exact (inodeBlock_lt hi).trans_le h.devLen
  rw [testfsReadInodeBlock, Program.gets_bind_run, Program.run_bind (testfsInodeToBlockNr_run hi s),
    hblock, readBlock_run (Int.natCast_nonneg _) hlen, Int.toNat_natCast]

theorem testfsWriteInodeBlock_run (h : Layout s) (hi : i < nrInodes) (block : Block) :
    (testfsWriteInodeBlock i block).run s = .ok ((), s.putDev (inodeBlock i) block) := by
  have hblock : ((s.sb.inodeBlocksStart : ℤ) + (i / inodesPerBlock : ℕ)) = (inodeBlock i : ℕ) := by
    rw [h.inodeBlocksStart]
    exact (Nat.cast_add _ _).symm
  rw [testfsWriteInodeBlock, Program.gets_bind_run, Program.run_bind
    (testfsInodeToBlockNr_run hi s), hblock, writeBlocks_run (Int.natCast_nonneg _),
    Int.toNat_natCast]
  rfl

/-- `testfs_sync_inode` writes a dirty inode. -/
theorem testfsSyncInode_run (h : Layout s) (hi : i < nrInodes)
    (ht : s.inodeHashTable i = some inode) :
    (testfsSyncInode i).run s = .ok ((), if inode.dirty then s.syncInode i inode else s) := by
  rw [testfsSyncInode, Program.run_bind (inodeRef_run ht)]
  cases hdirty : inode.dirty with
  | false => rw [if_pos rfl, Program.pure_run, if_neg Bool.false_ne_true]
  | true =>
    rw [if_neg (Bool.true_eq_false_eq_False), Program.run_bind (testfsReadInodeBlock_run h hi),
      Program.run_bind (testfsWriteInodeBlock_run h hi _), if_pos rfl]
    rfl

/-- The written disk inode is the one in memory, and the other disk inodes are as before. -/
theorem diskDinode_syncInode (h : Layout s) (hfits : inode.din.Fits) (j : ℕ) :
    (s.syncInode i inode).diskDinode j = if j = i then inode.din else s.diskDinode j := by
  have hlayout : Layout (s.syncInode i inode) := (h.putDev _ _).setInode _ _
  have hblocks : ∀ b, (s.syncInode i inode).dev.blocks b = if b = inodeBlock i then
      (s.dev.blocks (inodeBlock i)).copyIn (testfsInodeToBlockOffset i) dinodeSize
        (encodeDinode inode.din) else s.dev.blocks b := by
    intro b
    by_cases hb : b = inodeBlock i
    · rw [if_pos hb, hb]
      exact Device.blocks_put_self _ _ _
    · rw [if_neg hb]
      exact Device.blocks_put_of_ne _ _ hb
  have hplace : ∀ k m : ℕ, m < dinodeSize → testfsInodeToBlockOffset k + m < blockSize := by
    intro k m hm
    have hmod := Nat.mod_lt k (by decide : 0 < inodesPerBlock)
    simp only [testfsInodeToBlockOffset, dinodeSize, inodesPerBlock, blockSize] at *
    omega
  rw [diskDinode_eq hlayout, diskDinode_eq h]
  by_cases hji : j = i
  · subst hji
    rw [if_pos rfl, ← decodeDinode_encodeDinode hfits]
    apply decodeDinode_congr
    intro m hm
    rw [hblocks, if_pos rfl, Block.byte_copyIn (hplace j m hm), if_pos (by omega),
      Nat.add_sub_cancel_left]
  · rw [if_neg hji]
    apply decodeDinode_congr
    intro m hm
    rw [hblocks]
    by_cases hb : inodeBlock j = inodeBlock i
    · -- Two inodes of one block are in different places of it.
      have hne : j % inodesPerBlock ≠ i % inodesPerBlock := by
        simp only [inodeBlock, inodesPerBlock] at hb ⊢
        omega
      rw [if_pos hb, hb, Block.byte_copyIn (hplace j m hm), if_neg]
      simp only [testfsInodeToBlockOffset, dinodeSize] at hm ⊢
      omega
    · rw [if_neg hb]

/-! ### What moving inodes leaves as it is -/

theorem dinode_syncInode (h : Layout s) (ht : s.inodeHashTable i = some inode)
    (hfits : inode.din.Fits) (j : ℕ) : (s.syncInode i inode).dinode j = s.dinode j := by
  by_cases hji : j = i
  · subst hji
    rw [dinode_of_some ht, FsState.dinode, FsState.syncInode, inodeHashTable_setInode_self]
  · rw [FsState.dinode, FsState.dinode, diskDinode_syncInode h hfits j, if_neg hji,
      FsState.syncInode, inodeHashTable_setInode_of_ne _ _ hji]
    rfl

/-- Synchronising changes no inode. -/
theorem sameFiles_syncInode (h : Core s) (ht : s.inodeHashTable i = some inode)
    (hfits : inode.din.Fits) : SameFiles s (s.syncInode i inode) where
  layout := (h.layout.putDev _ _).setInode _ _
  blockFreemap := rfl
  used := rfl
  maxFsBlocks := rfl
  blocks := by
    intro b hb
    have hlt := inodeBlock_lt (h.table i inode ht)
    exact Device.blocks_put_of_ne _ _ (by omega)
  len := Device.len_le_put _ _ _
  slots := fun j _ ↦ by rw [dinode_syncInode h.layout ht hfits]
  count := fun j _ ↦ by rw [dinode_syncInode h.layout ht hfits]
  table := by
    intro j inode' hj
    by_cases hji : j = i
    · exact hji ▸ h.table i inode ht
    · rw [FsState.syncInode, inodeHashTable_setInode_of_ne _ _ hji] at hj
      exact h.table j inode' hj

theorem dinode_setInode_self (s : FsState) (i : ℕ) (inode : Option Inode) :
    (s.setInode i inode).dinode i = (inode.map Inode.din).getD (s.diskDinode i) := by
  rw [FsState.dinode, inodeHashTable_setInode_self]
  cases inode <;> rfl

theorem dinode_setInode_of_ne (s : FsState) {i j : ℕ} (inode : Option Inode) (h : j ≠ i) :
    (s.setInode i inode).dinode j = s.dinode j := by
  rw [FsState.dinode, FsState.dinode, inodeHashTable_setInode_of_ne _ _ h]
  rfl

/-- Replacing an in-memory inode by one with the same blocks changes no block. -/
theorem sameFiles_setInode (h : Core s) {inode' : Option Inode} (hi : i < nrInodes)
    (hslots : ((s.setInode i inode').dinode i).slots = (s.dinode i).slots)
    (hcount : ((s.setInode i inode').dinode i).blockCount = (s.dinode i).blockCount) :
    SameFiles s (s.setInode i inode') where
  layout := h.layout.setInode _ _
  blockFreemap := rfl
  used := rfl
  maxFsBlocks := rfl
  blocks := fun _ _ ↦ rfl
  len := le_rfl
  slots := by
    intro j _
    by_cases hji : j = i
    · rw [hji, hslots]
    · rw [dinode_setInode_of_ne _ _ hji]
  count := by
    intro j _
    by_cases hji : j = i
    · rw [hji, hcount]
    · rw [dinode_setInode_of_ne _ _ hji]
  table := by
    intro j inode'' hj
    by_cases hji : j = i
    · exact hji ▸ hi
    · rw [inodeHashTable_setInode_of_ne _ _ hji] at hj
      exact h.table j inode'' hj

/-- `testfs_get_inode` counts one more reference, or fetches the disk inode. -/
theorem testfsGetInode_run (h : Layout s) (hi : i < nrInodes) :
    (testfsGetInode i).run s = .ok ((), s.setInode i (some (match s.inodeHashTable i with
      | some inode => { inode with iCount := inode.iCount + 1 }
      | none => ⟨s.diskDinode i, false, 1⟩))) := by
  rw [testfsGetInode, Program.gets_bind_run]
  cases ht : s.inodeHashTable i with
  | some inode => rfl
  | none =>
    refine (Program.run_bind (testfsReadInodeBlock_run h hi)).trans ?_
    rw [diskDinode_eq h]
    rfl

/-- `testfs_put_inode` of a clean inode drops the last reference, or counts one less. -/
theorem testfsPutInode_run (ht : s.inodeHashTable i = some inode) (hclean : inode.dirty = false) :
    (testfsPutInode i).run s = .ok ((), s.setInode i
      (if inode.iCount - 1 = 0 then none else some { inode with iCount := inode.iCount - 1 })) := by
  rw [testfsPutInode, Program.run_bind (inodeRef_run ht), Program.check_bind_run hclean]
  split_ifs
  · rfl
  · rfl

end Sync

end OperatingSystems.Fs
