import OperatingSystems.Fs.Claim

/-!
# How an inode grows, and how a failed allocation is undone

`Confined i s t` says that only inode `i` was worked on between two states, and `Grown i l s t` is
what a chain of claims on the way to logical block `l` of inode `i` may do to a file system: slots
of that inode are filled, those that were filled stay as they are, and all contents stay the same.
Both are reflexive and transitive, and one claim is an instance.

`Restored i s t` is what is left of a chain that was given up: the bitmaps, the super block and
all blocks from the inode blocks on are the same, and the device may be longer. Giving a block
back right after it was taken restores the state before (`Restored.undo`).
-/

set_option autoImplicit false
set_option relaxedAutoImplicit false

namespace OperatingSystems.Fs

open Library

/-! ### Growing -/

/-- What an allocation does to the in-memory inode it is for, the slots and the count apart. -/
structure Inode.Extends (inode inode' : Inode) : Prop where
  iType : inode'.din.iType = inode.din.iType
  iSize : inode'.din.iSize = inode.din.iSize
  iCount : inode'.iCount = inode.iCount
  changed : inode' = inode ∨ inode'.dirty = true

theorem Inode.Extends.refl (inode : Inode) : inode.Extends inode := ⟨rfl, rfl, rfl, Or.inl rfl⟩

theorem Inode.Extends.trans {first second third : Inode} (h₁ : first.Extends second)
    (h₂ : second.Extends third) : first.Extends third where
  iType := h₂.iType.trans h₁.iType
  iSize := h₂.iSize.trans h₁.iSize
  iCount := h₂.iCount.trans h₁.iCount
  changed := by
    rcases h₂.changed with rfl | hdirty
    · exact h₁.changed
    · exact Or.inr hdirty

theorem Inode.extends_enter (inode : Inode) (σ : Slot) (p : ℤ) :
    inode.Extends (inode.enter σ p) where
  iType := by cases σ <;> rfl
  iSize := by cases σ <;> rfl
  iCount := rfl
  changed := Or.inr rfl

/-- Only inode `i` was worked on, and what it owned it still owns. -/
structure Confined (i : ℕ) (s t : FsState) : Prop where
  own_ne : ∀ j < nrInodes, j ≠ i → t.own j = s.own j
  own_keep : ∀ σ, s.own i σ ≠ 0 → t.own i σ = s.own i σ
  content_ne : ∀ j < nrInodes, j ≠ i → t.content j = s.content j
  table_ne : ∀ j, j ≠ i → t.inodeHashTable j = s.inodeHashTable j
  inodeBlocks : ∀ b, firstInodeBlock ≤ b → b < firstDataBlock →
    t.dev.blocks b = s.dev.blocks b
  sb : t.sb = { s.sb with usedBlockCount := t.sb.usedBlockCount }
  inodeFreemap : t.inodeFreemap = s.inodeFreemap
  allocFailed : t.allocFailed = false → s.allocFailed = false
  len : s.dev.len ≤ t.dev.len

namespace Confined

variable {i : ℕ} {s t u : FsState}

theorem refl (i : ℕ) (s : FsState) : Confined i s s where
  own_ne := fun _ _ _ ↦ rfl
  own_keep := fun _ _ ↦ rfl
  content_ne := fun _ _ _ ↦ rfl
  table_ne := fun _ _ ↦ rfl
  inodeBlocks := fun _ _ _ ↦ rfl
  sb := rfl
  inodeFreemap := rfl
  allocFailed := id
  len := le_rfl

theorem trans (h₁ : Confined i s t) (h₂ : Confined i t u) : Confined i s u where
  own_ne := fun j hj hne ↦ (h₂.own_ne j hj hne).trans (h₁.own_ne j hj hne)
  own_keep := by
    intro σ hσ
    have hkeep := h₁.own_keep σ hσ
    rw [h₂.own_keep σ (by rw [hkeep]; exact hσ), hkeep]
  content_ne := fun j hj hne ↦ (h₂.content_ne j hj hne).trans (h₁.content_ne j hj hne)
  table_ne := fun j hj ↦ (h₂.table_ne j hj).trans (h₁.table_ne j hj)
  inodeBlocks := fun b hlow hhigh ↦ (h₂.inodeBlocks b hlow hhigh).trans
    (h₁.inodeBlocks b hlow hhigh)
  sb := by
    have hsb := h₂.sb
    rw [h₁.sb] at hsb
    exact hsb
  inodeFreemap := h₂.inodeFreemap.trans h₁.inodeFreemap
  allocFailed := fun hfalse ↦ h₁.allocFailed (h₂.allocFailed hfalse)
  len := h₁.len.trans h₂.len

end Confined

/-- Slots of inode `i` on the way to logical block `l` were filled. -/
structure Grown (i l : ℕ) (s t : FsState) : Prop extends Confined i s t where
  core : Core t
  table : ∀ inode, s.inodeHashTable i = some inode →
    ∃ inode', t.inodeHashTable i = some inode' ∧ inode.Extends inode'
  own_new : ∀ σ, s.own i σ = 0 → t.own i σ ≠ 0 →
    σ.first ≤ l ∧ (σ.isData = true → σ = Slot.ofLog l)
  content : ∀ j < nrInodes, t.content j = s.content j
  flag : t.allocFailed = s.allocFailed

/-- Every data block in use lies within the device file, except possibly the block of one slot,
which is not written yet. -/
def ReachedBut (s : FsState) (i : ℕ) (σ : Slot) : Prop :=
  ∀ idx < nrDataBlocks, s.blockFreemap.bit idx = true →
    firstDataBlock + idx < s.dev.len ∨ ((firstDataBlock + idx : ℕ) : ℤ) = s.own i σ

namespace Grown

variable {i l : ℕ} {s t u : FsState}

theorem refl (h : Core s) : Grown i l s s where
  toConfined := Confined.refl i s
  core := h
  table := fun inode hinode ↦ ⟨inode, hinode, Inode.Extends.refl inode⟩
  own_new := fun _ hzero hne ↦ absurd hzero hne
  content := fun _ _ ↦ rfl
  flag := rfl

theorem trans (h₁ : Grown i l s t) (h₂ : Grown i l t u) : Grown i l s u where
  toConfined := h₁.toConfined.trans h₂.toConfined
  core := h₂.core
  table := by
    intro inode hinode
    obtain ⟨mid, hmid, hext⟩ := h₁.table inode hinode
    obtain ⟨last, hlast, hext'⟩ := h₂.table mid hmid
    exact ⟨last, hlast, hext.trans hext'⟩
  own_new := by
    intro σ hzero hne
    by_cases hmid : t.own i σ = 0
    · exact h₂.own_new σ hmid hne
    · exact h₁.own_new σ hzero hmid
  content := fun j hj ↦ (h₂.content j hj).trans (h₁.content j hj)
  flag := h₂.flag.trans h₁.flag

end Grown

section Claim

variable {s : FsState} {i l : ℕ} {inode : Inode} {σ : Slot} {idx : ℕ}

theorem own_claim_self (h : Claimable s i inode σ idx) :
    (s.claim i inode σ idx).own i σ = (firstDataBlock + idx : ℕ) := by
  rw [own_claim h h.lt_nrInodes, if_pos ⟨rfl, rfl⟩]

theorem own_claim_of_ne (h : Claimable s i inode σ idx) {τ : Slot} (hne : τ ≠ σ) :
    (s.claim i inode σ idx).own i τ = s.own i τ := by
  rw [own_claim h h.lt_nrInodes, if_neg fun hand ↦ hne hand.2]

theorem Confined.claim (h : Claimable s i inode σ idx) :
    Confined i s (s.claim i inode σ idx) where
  own_ne := by
    intro j hj hne
    funext τ
    rw [own_claim h hj, if_neg fun hand ↦ hne hand.1]
  own_keep := by
    intro τ hτ
    apply own_claim_of_ne h
    rintro rfl
    exact hτ h.empty
  content_ne := fun j hj _ ↦ content_claim h hj
  table_ne := fun j hj ↦ h.inodeHashTable_of_ne hj
  inodeBlocks := by
    intro b hlow hhigh
    apply h.blocks hlow
    intro π hπ heq
    have := (h.core.own_toNat h.lt_nrInodes (h.parent π hπ)).2.1
    omega
  sb := by rw [h.sb]
  inodeFreemap := h.inodeFreemap
  allocFailed := fun hfalse ↦ by rw [← h.allocFailed]; exact hfalse
  len := h.len_le

theorem Grown.claim (h : Claimable s i inode σ idx) (hfirst : σ.first ≤ l)
    (hdata : σ.isData = true → σ = Slot.ofLog l) : Grown i l s (s.claim i inode σ idx) where
  toConfined := Confined.claim h
  core := Core.claim h
  table := by
    intro inode' hinode'
    rw [h.inMemory, Option.some.injEq] at hinode'
    subst hinode'
    exact ⟨_, h.inodeHashTable_self, inode.extends_enter _ _⟩
  own_new := by
    intro τ hzero hne
    have hτ : τ = σ := by
      by_contra hτ
      rw [own_claim_of_ne h hτ] at hne
      exact hne hzero
    rw [hτ]
    exact ⟨hfirst, hdata⟩
  content := fun j hj ↦ content_claim h hj
  flag := h.allocFailed

/-- After a claim only the claimed block may lie outside the device file. -/
theorem reachedBut_claim (h : Claimable s i inode σ idx) (hr : Reached s) :
    ReachedBut (s.claim i inode σ idx) i σ := by
  intro idx' hidx' hset
  rw [h.blockFreemap, Bitmap.bit_put] at hset
  rw [own_claim_self h]
  by_cases heq : idx' = idx
  · exact Or.inr (by rw [heq])
  · rw [if_neg heq] at hset
    exact Or.inl ((hr idx' hidx' hset).trans_le h.len_le)

/-- A claim of an entry writes its index block, so that this one is in the device file. -/
theorem reachedBut_claim_entry (h : Claimable s i inode σ idx) {π : Slot}
    (hπ : σ.parent = some π) (hr : ReachedBut s i π) :
    ReachedBut (s.claim i inode σ idx) i σ := by
  intro idx' hidx' hset
  rw [h.blockFreemap, Bitmap.bit_put] at hset
  rw [own_claim_self h]
  by_cases heq : idx' = idx
  · exact Or.inr (by rw [heq])
  · rw [if_neg heq] at hset
    rcases hr idx' hidx' hset with hlen | hparent
    · exact Or.inl (hlen.trans_le h.len_le)
    · have hwrite : (s.own i π).toNat < (s.claim i inode σ idx).dev.len := by
        rw [FsState.claim, hπ]
        exact Device.lt_len_put _ _ _
      rw [← hparent, Int.toNat_natCast] at hwrite
      exact Or.inl hwrite

end Claim

/-! ### Giving up -/

/-- Everything but the blocks before the inode blocks, the length of the device and the in-memory
inode `i` is the same, and an allocation has failed. -/
structure Restored (i : ℕ) (s t : FsState) : Prop where
  sb : t.sb = s.sb
  inodeFreemap : t.inodeFreemap = s.inodeFreemap
  blockFreemap : t.blockFreemap = s.blockFreemap
  blocks : ∀ b, firstInodeBlock ≤ b → t.dev.blocks b = s.dev.blocks b
  len : s.dev.len ≤ t.dev.len
  table_ne : ∀ j, j ≠ i → t.inodeHashTable j = s.inodeHashTable j
  allocFailed : t.allocFailed = true

section Restored

variable {s t : FsState} {i idx : ℕ} {inode inode' : Inode}

theorem restored_fail (s : FsState) (i : ℕ) : Restored i s s.failAlloc where
  sb := rfl
  inodeFreemap := rfl
  blockFreemap := rfl
  blocks := fun _ _ ↦ rfl
  len := le_rfl
  table_ne := fun _ _ ↦ rfl
  allocFailed := rfl

theorem Restored.setInode (h : Restored i s t) (inode : Option Inode) :
    Restored i s (t.setInode i inode) where
  sb := h.sb
  inodeFreemap := h.inodeFreemap
  blockFreemap := h.blockFreemap
  blocks := h.blocks
  len := h.len
  table_ne := fun j hj ↦ by rw [inodeHashTable_setInode_of_ne _ _ hj, h.table_ne j hj]
  allocFailed := h.allocFailed

theorem Restored.of_setInode {inode : Option Inode} (h : Restored i (s.setInode i inode) t) :
    Restored i s t where
  sb := h.sb
  inodeFreemap := h.inodeFreemap
  blockFreemap := h.blockFreemap
  blocks := h.blocks
  len := h.len
  table_ne := fun j hj ↦ by rw [h.table_ne j hj, inodeHashTable_setInode_of_ne _ _ hj]
  allocFailed := h.allocFailed

theorem Restored.layout (h : Restored i s t) (hs : Layout s) : Layout t where
  inodeFreemapStart := by rw [h.sb]; exact hs.inodeFreemapStart
  blockFreemapStart := by rw [h.sb]; exact hs.blockFreemapStart
  inodeBlocksStart := by rw [h.sb]; exact hs.inodeBlocksStart
  dataBlocksStart := by rw [h.sb]; exact hs.dataBlocksStart
  inodeBits := by rw [h.inodeFreemap]; exact hs.inodeBits
  blockBits := by rw [h.blockFreemap]; exact hs.blockBits
  devLen := hs.devLen.trans h.len

/-- A block that was taken last and is given back leaves the state before. -/
theorem Restored.undo (hs : Layout s) (hidx : idx < nrDataBlocks)
    (hclear : s.blockFreemap.bit idx = false)
    (hzero : s.dev.blocks (firstDataBlock + idx) = Block.zero)
    (h : Restored i (s.takeBlock idx) t) (ht : t.inodeHashTable i = some inode) :
    ∃ t', (testfsFreeBlockFromInode i (firstDataBlock + idx : ℕ)).run t = .ok ((), t') ∧
      Restored i s t' ∧ t'.inodeHashTable i = some (inode.addCount (-1)) := by
  have hlayout : Layout t := h.layout (hs.putBlockBit hidx)
  have hset : t.blockFreemap.bit idx = true := by
    rw [h.blockFreemap]
    exact (Bitmap.bit_put _ _ _ _).trans (if_pos rfl)
  have hcount : t.sb.usedBlockCount = s.sb.usedBlockCount + 1 := by
    rw [h.sb]
    rfl
  refine ⟨_, testfsFreeBlockFromInode_run hlayout ht hidx hset (by omega), ?_,
    inodeHashTable_setInode_self _ _ _⟩
  apply Restored.setInode
  have hstart : t.sb.dataBlocksStart = firstDataBlock := hlayout.dataBlocksStart
  have hzeroed : Layout { t with dev := t.dev.put (firstDataBlock + idx) Block.zero } :=
    { hlayout with devLen := hlayout.devLen.trans (Device.len_le_put _ _ _) }
  refine ⟨?_, h.inodeFreemap, ?_, ?_, ?_, ?_, h.allocFailed⟩
  · change { t.sb with usedBlockCount := t.sb.usedBlockCount - 1 } = s.sb
    rw [h.sb]
    rfl
  · change t.blockFreemap.put idx false = s.blockFreemap
    rw [h.blockFreemap]
    exact Bitmap.put_put_of_bit hclear
  · intro b hb
    rw [FsState.releaseBlock, hstart]
    refine (blocks_putBlockBit hzeroed hidx hb).trans ?_
    by_cases hblock : b = firstDataBlock + idx
    · subst hblock
      rw [Device.blocks_put_self, hzero]
    · rw [Device.blocks_put_of_ne _ _ hblock, h.blocks b hb]
      exact blocks_putBlockBit hs hidx hb
  · rw [FsState.releaseBlock, hstart]
    refine le_trans ?_ (len_putBlockBit hzeroed hidx).ge
    refine le_trans ?_ (Device.len_le_put _ _ _)
    refine le_trans ?_ h.len
    exact (len_putBlockBit hs hidx).ge
  · exact h.table_ne

section Same

variable (h : Restored i s t) (hs : Core s) (ht : t.inodeHashTable i = some inode')
  (hinode : s.inodeHashTable i = some inode) (hdin : inode'.din = inode.din)

include h hs ht hinode hdin

theorem Restored.dinode {j : ℕ} (hj : j < nrInodes) : t.dinode j = s.dinode j := by
  by_cases hji : j = i
  · subst hji
    rw [dinode_of_some ht, dinode_of_some hinode, hdin]
  · rw [FsState.dinode, FsState.dinode, h.table_ne j hji,
      diskDinode_congr hs.layout (by rw [h.sb]) (fun b hb _ ↦ h.blocks b hb) hj]

/-- What is restored has the same inodes and data blocks. -/
theorem Restored.same : SameFiles s t where
  layout := h.layout hs.layout
  blockFreemap := h.blockFreemap
  used := by rw [h.sb]
  maxFsBlocks := by rw [h.sb]
  blocks := fun b hb ↦ h.blocks b (le_trans (by decide) hb)
  len := h.len
  slots := fun j hj ↦ by rw [h.dinode hs ht hinode hdin hj]
  count := fun j hj ↦ by rw [h.dinode hs ht hinode hdin hj]
  table := by
    intro j inode'' hj
    by_cases hji : j = i
    · exact hji ▸ hs.table i inode hinode
    · rw [h.table_ne j hji] at hj
      exact hs.table j inode'' hj

theorem Restored.confined : Confined i s t where
  own_ne := fun j hj _ ↦ (h.same hs ht hinode hdin).own hs hj
  own_keep := fun σ _ ↦ by rw [(h.same hs ht hinode hdin).own hs (hs.table i inode hinode)]
  content_ne := fun j hj _ ↦ (h.same hs ht hinode hdin).content hs hj
  table_ne := h.table_ne
  inodeBlocks := fun b hb _ ↦ h.blocks b hb
  sb := by rw [h.sb]
  inodeFreemap := h.inodeFreemap
  allocFailed := fun hfalse ↦ by rw [h.allocFailed] at hfalse; exact absurd hfalse (by decide)
  len := h.len

end Same

end Restored

end OperatingSystems.Fs
