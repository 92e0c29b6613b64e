import OperatingSystems.Fs.Sync

/-!
# The invariant of the inode layer

`Sound` collects what holds of a mounted file system whatever its callers do: the ownership
invariant, every used block within the device file, every inode within its size, and every clean
in-memory inode equal to its copy on disk, the size apart. Each operation of `inode.c` and
`read_write.c` keeps it, whenever the operation returns. `Others i` says that an operation on
inode `i` left every other inode alone.
-/

set_option autoImplicit false
set_option relaxedAutoImplicit false

namespace OperatingSystems.Fs

open Library

/-- The invariant of a mounted file system. A clean inode may differ from its copy on disk in its
size, as long as the size on disk is one for the blocks it has. -/
structure Sound (s : FsState) : Prop where
  core : Core s
  reached : Reached s
  extent : ∀ i < nrInodes, Extent (s.own i) (s.dinode i).iSize
  types : ∀ i inode, s.inodeHashTable i = some inode →
    -2 ^ 31 ≤ inode.din.iType ∧ inode.din.iType < 2 ^ 31
  clean : ∀ i inode, s.inodeHashTable i = some inode → inode.dirty = false →
    inode.din = (s.diskDinode i).withSize inode.din.iSize ∧
      Extent (s.own i) (s.diskDinode i).iSize
  inodes : s.sb.usedInodeCount = s.inodeFreemap.allocated.card

/-- Every inode but `i` is as it was, in memory and on disk. -/
structure Others (i : ℕ) (s t : FsState) : Prop where
  table : ∀ j, j ≠ i → t.inodeHashTable j = s.inodeHashTable j
  disk : ∀ j < nrInodes, j ≠ i → t.diskDinode j = s.diskDinode j
  own : ∀ j < nrInodes, j ≠ i → t.own j = s.own j
  content : ∀ j < nrInodes, j ≠ i → t.content j = s.content j
  maxFsBlocks : t.sb.maxFsBlocks = s.sb.maxFsBlocks
  allocFailed : t.allocFailed = false → s.allocFailed = false

namespace Others

variable {i : ℕ} {s t u : FsState}

theorem refl (i : ℕ) (s : FsState) : Others i s s :=
  ⟨fun _ _ ↦ rfl, fun _ _ _ ↦ rfl, fun _ _ _ ↦ rfl, fun _ _ _ ↦ rfl, rfl, id⟩

theorem trans (h₁ : Others i s t) (h₂ : Others i t u) : Others i s u where
  table := fun j hj ↦ (h₂.table j hj).trans (h₁.table j hj)
  disk := fun j hj hne ↦ (h₂.disk j hj hne).trans (h₁.disk j hj hne)
  own := fun j hj hne ↦ (h₂.own j hj hne).trans (h₁.own j hj hne)
  content := fun j hj hne ↦ (h₂.content j hj hne).trans (h₁.content j hj hne)
  maxFsBlocks := h₂.maxFsBlocks.trans h₁.maxFsBlocks
  allocFailed := fun hfalse ↦ h₁.allocFailed (h₂.allocFailed hfalse)

theorem dinode (h : Others i s t) {j : ℕ} (hj : j < nrInodes) (hne : j ≠ i) :
    t.dinode j = s.dinode j := by
  rw [FsState.dinode, FsState.dinode, h.table j hne, h.disk j hj hne]

end Others

section Sound

variable {s t : FsState} {i : ℕ} {inode inode' : Inode}

theorem Sound.lt (h : Sound s) (ht : s.inodeHashTable i = some inode) : i < nrInodes :=
  h.core.table i inode ht

theorem Sound.extent_of_some (h : Sound s) (ht : s.inodeHashTable i = some inode) :
    Extent (s.own i) inode.din.iSize := by
  rw [← dinode_of_some ht]
  exact h.extent i (h.lt ht)

/-! ### Fields fit their types -/

theorem Core.own_range (h : Core s) (hi : i < nrInodes) (σ : Slot) :
    -2 ^ 31 ≤ s.own i σ ∧ s.own i σ < 2 ^ 31 := by
  by_cases hzero : s.own i σ = 0
  · rw [hzero]
    norm_num
  · obtain ⟨idx, hidx, hown, -⟩ := h.inUse hi hzero
    rw [hown]
    exact dataBlock_range hidx

/-- An inode owns no more blocks than the freemap has bits. -/
theorem Core.card_heldSlots_le (h : Core s) (hi : i < nrInodes) :
    (heldSlots (s.own i)).card ≤ nrDataBlocks := by
  have hmaps : ∀ σ ∈ heldSlots (s.own i), (s.own i σ).toNat - firstDataBlock ∈
      Finset.range nrDataBlocks := by
    intro σ hσ
    have hne : s.own i σ ≠ 0 := mem_heldSlots.mp hσ
    have hrange := (h.own_toNat hi hne).2
    rw [Finset.mem_range]
    omega
  have hinj : Set.InjOn (fun σ ↦ (s.own i σ).toNat - firstDataBlock) (heldSlots (s.own i)) := by
    intro σ hσ τ hτ heq
    have hσne : s.own i σ ≠ 0 := mem_heldSlots.mp hσ
    have hτne : s.own i τ ≠ 0 := mem_heldSlots.mp hτ
    have hσlow := (h.own_toNat hi hσne).2.1
    have hτlow := (h.own_toNat hi hτne).2.1
    simp only at heq
    exact (h.own_inj hi hi hσne (by omega) hτne).2
  have hcard := Finset.card_le_card_of_injOn _ hmaps hinj
  rwa [Finset.card_range] at hcard

theorem Sound.fits (h : Sound s) (ht : s.inodeHashTable i = some inode) : inode.din.Fits := by
  have hi := h.lt ht
  have hslot : ∀ σ, -2 ^ 31 ≤ slotVal s.dev.blocks inode.din σ ∧
      slotVal s.dev.blocks inode.din σ < 2 ^ 31 := by
    intro σ
    rw [← own_of_some ht σ]
    exact h.core.own_range hi σ
  have hcount : -2 ^ 31 ≤ inode.din.blockCount ∧ inode.din.blockCount < 2 ^ 31 := by
    have hledger := h.core.ledger.count_eq i hi
    rw [dinode_of_some ht] at hledger
    have hle := h.core.card_heldSlots_le hi
    simp only [nrDataBlocks, blockSize, blockFreemapSize] at hle
    omega
  refine ⟨?_, ?_⟩
  · intro k _
    simp only [Dinode.int]
    split_ifs with h0 h1 h11 h12
    · exact h.types i inode ht
    · exact hslot (.direct ⟨k - 1, h1⟩)
    · exact hslot .indirect
    · exact hslot .dindirect
    · exact hcount
  · have hext := h.extent_of_some ht
    have hnonneg := hext.nonneg
    have hmax : inode.din.iSize ≤ 34376597504 := hext.le_max
    omega

/-! ### Fetching, synchronising and dropping -/

/-- The invariant after a change of inode `i` that leaves its blocks. -/
theorem Sound.of_same (h : Sound s) (hsame : SameFiles s t) (hothers : Others i s t)
    (hi : i < nrInodes) (hextent : Extent (s.own i) (t.dinode i).iSize)
    (htypes : ∀ n, t.inodeHashTable i = some n → -2 ^ 31 ≤ n.din.iType ∧ n.din.iType < 2 ^ 31)
    (hclean : ∀ n, t.inodeHashTable i = some n → n.dirty = false →
      n.din = (t.diskDinode i).withSize n.din.iSize ∧ Extent (s.own i) (t.diskDinode i).iSize)
    (hinodes : t.sb.usedInodeCount = t.inodeFreemap.allocated.card) : Sound t where
  core := hsame.core h.core
  reached := hsame.reached h.reached
  extent := by
    intro j hj
    rw [hsame.own h.core hj]
    by_cases hji : j = i
    · rw [hji]
      exact hextent
    · rw [hothers.dinode hj hji]
      exact h.extent j hj
  types := by
    intro j n hn
    by_cases hji : j = i
    · exact htypes n (hji ▸ hn)
    · rw [hothers.table j hji] at hn
      exact h.types j n hn
  clean := by
    intro j n hn hdirty
    have hj := hsame.table j n hn
    rw [hsame.own h.core hj]
    by_cases hji : j = i
    · subst hji
      exact hclean n hn hdirty
    · rw [hothers.table j hji] at hn
      rw [hothers.disk j hj hji]
      exact h.clean j n hn hdirty
  inodes := hinodes

/-- Storing an in-memory inode leaves the other inodes alone. -/
theorem others_setInode (s : FsState) (i : ℕ) (inode : Option Inode) :
    Others i s (s.setInode i inode) where
  table := fun _ hj ↦ inodeHashTable_setInode_of_ne _ _ hj
  disk := fun _ _ _ ↦ rfl
  own := fun j _ hne ↦ own_congr (by rw [dinode_setInode_of_ne _ _ hne]) fun _ _ _ ↦ rfl
  content := fun j _ hne ↦ content_congr
    (own_congr (by rw [dinode_setInode_of_ne _ _ hne]) fun _ _ _ ↦ rfl) fun _ _ _ ↦ rfl
  maxFsBlocks := rfl
  allocFailed := id

theorem others_syncInode (h : Sound s) (ht : s.inodeHashTable i = some inode) :
    Others i s (s.syncInode i inode) where
  table := fun _ hj ↦ inodeHashTable_setInode_of_ne _ _ hj
  disk := fun j _ hne ↦ by rw [diskDinode_syncInode h.core.layout (h.fits ht), if_neg hne]
  own := fun j hj _ ↦ (sameFiles_syncInode h.core ht (h.fits ht)).own h.core hj
  content := fun j hj _ ↦ (sameFiles_syncInode h.core ht (h.fits ht)).content h.core hj
  maxFsBlocks := rfl
  allocFailed := id

/-- Storing an inode with the same blocks that is dirty, or agrees with the disk. -/
theorem Sound.setInode (h : Sound s) (hi : i < nrInodes) {n : Inode}
    (hslots : n.din.slots = (s.dinode i).slots)
    (hcount : n.din.blockCount = (s.dinode i).blockCount) (hextent : Extent (s.own i) n.din.iSize)
    (htype : -2 ^ 31 ≤ n.din.iType ∧ n.din.iType < 2 ^ 31)
    (hclean : n.dirty = false → n.din = (s.diskDinode i).withSize n.din.iSize ∧
      Extent (s.own i) (s.diskDinode i).iSize) : Sound (s.setInode i (some n)) := by
  have hsame : SameFiles s (s.setInode i (some n)) :=
    sameFiles_setInode h.core hi (by rw [dinode_setInode_self]; exact hslots)
      (by rw [dinode_setInode_self]; exact hcount)
  refine h.of_same hsame (others_setInode s i _) hi ?_ ?_ ?_ h.inodes
  · rw [dinode_setInode_self]
    exact hextent
  · intro n' hn'
    rw [inodeHashTable_setInode_self, Option.some.injEq] at hn'
    exact hn' ▸ htype
  · intro n' hn' hdirty
    rw [inodeHashTable_setInode_self, Option.some.injEq] at hn'
    subst hn'
    exact hclean hdirty

/-- Changing the reference count. -/
theorem Sound.setCount (h : Sound s) (ht : s.inodeHashTable i = some inode) (count : ℤ) :
    Sound (s.setInode i (some { inode with iCount := count })) := by
  have hextent := h.extent_of_some ht
  exact h.setInode (h.lt ht) (by rw [dinode_of_some ht]) (by rw [dinode_of_some ht]) hextent
    (h.types i inode ht) (h.clean i inode ht)

/-- `testfs_get_inode` keeps the invariant. -/
theorem Sound.getInode (h : Sound s) (hi : i < nrInodes) :
    ∃ t n, (testfsGetInode i).run s = .ok ((), t) ∧ t = s.setInode i (some n) ∧ Sound t ∧
      n.din = s.dinode i ∧ n.iCount = ((s.inodeHashTable i).map Inode.iCount).getD 0 + 1 ∧
      n.dirty = ((s.inodeHashTable i).map Inode.dirty).getD false := by
  have hrun := testfsGetInode_run h.core.layout hi
  cases ht : s.inodeHashTable i with
  | some inode =>
    rw [ht] at hrun
    exact ⟨_, _, hrun, rfl, h.setCount ht _, (dinode_of_some ht).symm, rfl, rfl⟩
  | none =>
    rw [ht] at hrun
    have hdinode := dinode_of_none ht
    refine ⟨_, _, hrun, rfl, ?_, hdinode.symm, by simp, rfl⟩
    have hextent := h.extent i hi
    rw [hdinode] at hextent
    exact h.setInode hi (by rw [hdinode]) (by rw [hdinode]) hextent (fits_diskDinode s i).iType
      fun _ ↦ ⟨(s.diskDinode i).withSize_self.symm, hextent⟩

/-- Writing an inode to disk keeps the invariant. -/
theorem Sound.syncInode (h : Sound s) (ht : s.inodeHashTable i = some inode) :
    Sound (s.syncInode i inode) := by
  have hfits := h.fits ht
  have hi := h.lt ht
  have hdisk : (s.syncInode i inode).diskDinode i = inode.din := by
    rw [diskDinode_syncInode h.core.layout hfits, if_pos rfl]
  refine h.of_same (sameFiles_syncInode h.core ht hfits) (others_syncInode h ht) hi ?_ ?_ ?_
    h.inodes
  · rw [dinode_syncInode h.core.layout ht hfits]
    exact h.extent i hi
  · intro n hn
    rw [FsState.syncInode, inodeHashTable_setInode_self, Option.some.injEq] at hn
    exact hn ▸ h.types i inode ht
  · intro n hn _
    rw [FsState.syncInode, inodeHashTable_setInode_self, Option.some.injEq] at hn
    subst hn
    rw [hdisk]
    exact ⟨inode.din.withSize_self.symm, h.extent_of_some ht⟩

/-- `testfs_put_inode` of a clean inode keeps the invariant. -/
theorem Sound.putInode (h : Sound s) (ht : s.inodeHashTable i = some inode)
    (hclean : inode.dirty = false) : Sound (s.setInode i
      (if inode.iCount - 1 = 0 then none else some { inode with iCount := inode.iCount - 1 })) := by
  split_ifs with hlast
  · have hi := h.lt ht
    obtain ⟨hdin, hextent⟩ := h.clean i inode ht hclean
    have hdinode : (s.setInode i none).dinode i = s.diskDinode i := dinode_setInode_self s i none
    have hslots : (s.diskDinode i).slots = (s.dinode i).slots := by
      rw [dinode_of_some ht, hdin, Dinode.slots_withSize]
    have hcount : (s.diskDinode i).blockCount = (s.dinode i).blockCount := by
      rw [dinode_of_some ht, hdin, Dinode.blockCount_withSize]
    refine h.of_same (sameFiles_setInode h.core hi (by rw [hdinode, hslots])
      (by rw [hdinode, hcount]))
      (others_setInode s i none) hi (by rw [hdinode]; exact hextent) ?_ ?_ h.inodes
    · intro n hn
      rw [inodeHashTable_setInode_self] at hn
      exact absurd hn (by simp)
    · intro n hn
      rw [inodeHashTable_setInode_self] at hn
      exact absurd hn (by simp)
  · exact h.setCount ht _

end Sound

end OperatingSystems.Fs
