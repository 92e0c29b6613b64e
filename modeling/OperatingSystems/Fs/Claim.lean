import OperatingSystems.Fs.Ownership

/-!
# Entering a free block in an empty slot

`claim` is the pure update that every successful allocation of `read_write.c` is made of: take
the block of a clear bit, enter its number in an empty slot of an inode, and count it. `claim`
changes the owned blocks at that slot only (`own_claim`), keeps the ownership invariant
(`Core.claim`), and leaves every byte of every file as it is (`content_claim`), because a block
that was free is zero and a missing block reads as zero.
-/

set_option autoImplicit false
set_option relaxedAutoImplicit false

namespace OperatingSystems.Fs

open Library

/-- The state with one block of the device written. -/
def FsState.putDev (s : FsState) (b : ℕ) (block : Block) : FsState :=
  { s with dev := s.dev.put b block }

theorem Layout.putDev {s : FsState} (h : Layout s) (b : ℕ) (block : Block) :
    Layout (s.putDev b block) :=
  { h with devLen := h.devLen.trans (Device.len_le_put _ _ _) }

/-- The in-memory inode after block `p` was entered in slot `σ` and counted. -/
def Inode.enter (inode : Inode) (σ : Slot) (p : ℤ) : Inode :=
  Inode.addCount { inode with din := inode.din.setSlot σ p } 1

/-- The state after the block of bit `idx` was entered in slot `σ` of inode `i`. -/
def FsState.claim (s : FsState) (i : ℕ) (inode : Inode) (σ : Slot) (idx : ℕ) : FsState :=
  let p : ℤ := (firstDataBlock + idx : ℕ)
  let t := (s.takeBlock idx).setInode i (some (inode.enter σ p))
  match σ.parent with
  | none => t
  | some π =>
    t.putDev (s.own i π).toNat ((s.dev.blocks (s.own i π).toNat).setInt σ.entryIndex p)

theorem dataBlock_range {idx : ℕ} (h : idx < nrDataBlocks) :
    (-2 ^ 31 : ℤ) ≤ (firstDataBlock + idx : ℕ) ∧ ((firstDataBlock + idx : ℕ) : ℤ) < 2 ^ 31 := by
  simp only [nrDataBlocks, blockSize, blockFreemapSize, firstDataBlock, firstInodeBlock,
    superBlockSize, inodeFreemapSize, nrInodeBlocks] at *
  omega

/-- The byte at an offset of a file, zero where no block is allocated. -/
def FsState.content (s : FsState) (i : ℕ) (off : ℕ) : UInt8 :=
  if off < maxFileSize ∧ s.own i (Slot.ofLog (off / blockSize)) ≠ 0 then
    (s.dev.blocks (s.own i (Slot.ofLog (off / blockSize))).toNat).byte (off % blockSize)
  else 0

/-- Files whose blocks are the same and hold the same bytes have the same contents. -/
theorem content_congr {s s' : FsState} {i : ℕ} (hown : s'.own i = s.own i)
    (hblocks : ∀ σ, σ.isData = true → s.own i σ ≠ 0 →
      s'.dev.blocks (s.own i σ).toNat = s.dev.blocks (s.own i σ).toNat) :
    s'.content i = s.content i := by
  funext off
  rw [FsState.content, FsState.content, hown]
  split_ifs with h
  · rw [hblocks _ (Slot.isData_ofLog _) h.2]
  · rfl

/-- Every inode has the same blocks, and these hold the same, though inodes may have moved between
memory and disk, and the allocation of inode numbers may have changed. -/
structure SameFiles (s t : FsState) : Prop where
  layout : Layout t
  blockFreemap : t.blockFreemap = s.blockFreemap
  used : t.sb.usedBlockCount = s.sb.usedBlockCount
  maxFsBlocks : t.sb.maxFsBlocks = s.sb.maxFsBlocks
  blocks : ∀ b, firstDataBlock ≤ b → t.dev.blocks b = s.dev.blocks b
  len : s.dev.len ≤ t.dev.len
  slots : ∀ j < nrInodes, (t.dinode j).slots = (s.dinode j).slots
  count : ∀ j < nrInodes, (t.dinode j).blockCount = (s.dinode j).blockCount
  table : ∀ j inode, t.inodeHashTable j = some inode → j < nrInodes

namespace SameFiles

variable {s t : FsState}

theorem own (h : SameFiles s t) (hs : Core s) {j : ℕ} (hj : j < nrInodes) : t.own j = s.own j := by
  apply own_congr
  · exact h.slots j hj
  · exact fun σ _ hσ ↦ h.blocks _ (hs.own_toNat hj hσ).2.1

theorem content (h : SameFiles s t) (hs : Core s) {j : ℕ} (hj : j < nrInodes) :
    t.content j = s.content j := by
  apply content_congr (h.own hs hj)
  exact fun σ _ hσ ↦ h.blocks _ (hs.own_toNat hj hσ).2.1

theorem core (h : SameFiles s t) (hs : Core s) : Core t := by
  apply hs.congr h.layout
  · exact fun j hj ↦ h.own hs hj
  · exact h.count
  · exact fun idx _ ↦ by rw [h.blockFreemap]
  · exact h.used
  · exact h.maxFsBlocks
  · exact fun idx _ _ ↦ h.blocks _ (Nat.le_add_right _ _)
  · exact h.table

theorem reached (h : SameFiles s t) (hr : Reached s) : Reached t := by
  intro idx hidx hset
  rw [h.blockFreemap] at hset
  exact (hr idx hidx hset).trans_le h.len

end SameFiles

/-- Entering a block in an empty slot. -/
structure Claimable (s : FsState) (i : ℕ) (inode : Inode) (σ : Slot) (idx : ℕ) : Prop where
  core : Core s
  inMemory : s.inodeHashTable i = some inode
  empty : s.own i σ = 0
  parent : ∀ π, σ.parent = some π → s.own i π ≠ 0
  idx_lt : idx < nrDataBlocks
  clear : s.blockFreemap.bit idx = false
  room : s.sb.usedBlockCount < s.sb.maxFsBlocks

section Claim

variable {s : FsState} {i : ℕ} {inode : Inode} {σ : Slot} {idx : ℕ}

namespace Claimable

theorem lt_nrInodes (h : Claimable s i inode σ idx) : i < nrInodes :=
  h.core.table i inode h.inMemory

theorem not_full (h : Claimable s i inode σ idx) : ¬ s.Full :=
  Fs.not_full h.idx_lt h.clear h.room

/-- The claimed block is not the block of any slot. -/
theorem ne_own (h : Claimable s i inode σ idx) {j : ℕ} (hj : j < nrInodes) {τ : Slot}
    (hτ : s.own j τ ≠ 0) : (s.own j τ).toNat ≠ firstDataBlock + idx := by
  intro heq
  have huse := h.core.inUse hj hτ
  rw [← (h.core.own_toNat hj hτ).1, heq] at huse
  exact not_inUse h.clear huse

/-- The blocks from the inode blocks on: only the index block of the slot is written. -/
theorem blocks (h : Claimable s i inode σ idx) {b : ℕ} (hb : firstInodeBlock ≤ b)
    (hne : ∀ π, σ.parent = some π → b ≠ (s.own i π).toNat) :
    (s.claim i inode σ idx).dev.blocks b = s.dev.blocks b := by
  have htake : (s.takeBlock idx).dev.blocks b = s.dev.blocks b :=
    blocks_putBlockBit h.core.layout h.idx_lt hb
  rw [FsState.claim]
  cases hparent : σ.parent with
  | none => exact htake
  | some π =>
    simp only [FsState.putDev]
    rw [Device.blocks_put_of_ne _ _ (hne π hparent)]
    exact htake

theorem blocks_parent (_h : Claimable s i inode σ idx) {π : Slot} (hparent : σ.parent = some π) :
    (s.claim i inode σ idx).dev.blocks (s.own i π).toNat =
      (s.dev.blocks (s.own i π).toNat).setInt σ.entryIndex (firstDataBlock + idx : ℕ) := by
  rw [FsState.claim, hparent]
  exact Device.blocks_put_self _ _ _

/-- The claimed block is still zero. -/
theorem blocks_new (h : Claimable s i inode σ idx) :
    (s.claim i inode σ idx).dev.blocks (firstDataBlock + idx) = Block.zero := by
  rw [h.blocks (le_trans (by decide : firstInodeBlock ≤ firstDataBlock) (Nat.le_add_right _ _))]
  · exact h.core.zeroed idx h.idx_lt h.clear
  · intro π hparent
    exact (h.ne_own h.lt_nrInodes (h.parent π hparent)).symm

theorem inodeHashTable_self (_h : Claimable s i inode σ idx) :
    (s.claim i inode σ idx).inodeHashTable i =
      some (inode.enter σ (firstDataBlock + idx : ℕ)) := by
  rw [FsState.claim]
  cases σ.parent <;> simp [FsState.putDev]

theorem inodeHashTable_of_ne (_h : Claimable s i inode σ idx) {j : ℕ} (hj : j ≠ i) :
    (s.claim i inode σ idx).inodeHashTable j = s.inodeHashTable j := by
  rw [FsState.claim]
  cases σ.parent with
  | none => exact inodeHashTable_setInode_of_ne _ _ hj
  | some π => exact inodeHashTable_setInode_of_ne _ _ hj

theorem sb (_h : Claimable s i inode σ idx) : (s.claim i inode σ idx).sb =
    { s.sb with usedBlockCount := s.sb.usedBlockCount + 1 } := by
  rw [FsState.claim]
  cases σ.parent <;> rfl

theorem blockFreemap (_h : Claimable s i inode σ idx) :
    (s.claim i inode σ idx).blockFreemap = s.blockFreemap.put idx true := by
  rw [FsState.claim]
  cases σ.parent <;> rfl

theorem inodeFreemap (_h : Claimable s i inode σ idx) :
    (s.claim i inode σ idx).inodeFreemap = s.inodeFreemap := by
  rw [FsState.claim]
  cases σ.parent <;> rfl

theorem allocFailed (_h : Claimable s i inode σ idx) :
    (s.claim i inode σ idx).allocFailed = s.allocFailed := by
  rw [FsState.claim]
  cases σ.parent <;> rfl

theorem len_le (h : Claimable s i inode σ idx) :
    s.dev.len ≤ (s.claim i inode σ idx).dev.len := by
  have htake : (s.takeBlock idx).dev.len = s.dev.len := len_putBlockBit h.core.layout h.idx_lt
  rw [FsState.claim]
  cases σ.parent with
  | none => exact htake.ge
  | some π => exact htake.ge.trans (Device.len_le_put _ _ _)

theorem layout (h : Claimable s i inode σ idx) : Layout (s.claim i inode σ idx) where
  inodeFreemapStart := by rw [h.sb]; exact h.core.layout.inodeFreemapStart
  blockFreemapStart := by rw [h.sb]; exact h.core.layout.blockFreemapStart
  inodeBlocksStart := by rw [h.sb]; exact h.core.layout.inodeBlocksStart
  dataBlocksStart := by rw [h.sb]; exact h.core.layout.dataBlocksStart
  inodeBits := by rw [h.inodeFreemap]; exact h.core.layout.inodeBits
  blockBits := by rw [h.blockFreemap]; exact h.core.layout.blockBits
  devLen := le_trans h.core.layout.devLen h.len_le

theorem dinode_self (h : Claimable s i inode σ idx) : (s.claim i inode σ idx).dinode i =
    (inode.enter σ (firstDataBlock + idx : ℕ)).din :=
  dinode_of_some h.inodeHashTable_self

theorem diskDinode (h : Claimable s i inode σ idx) {j : ℕ} (hj : j < nrInodes) :
    (s.claim i inode σ idx).diskDinode j = s.diskDinode j := by
  apply diskDinode_congr h.core.layout
  · rw [h.sb]
  · intro b hlow hhigh
    apply h.blocks hlow
    intro π hparent
    have := (h.core.own_toNat h.lt_nrInodes (h.parent π hparent)).2.1
    omega
  · exact hj

theorem dinode_of_ne (h : Claimable s i inode σ idx) {j : ℕ} (hj : j < nrInodes) (hne : j ≠ i) :
    (s.claim i inode σ idx).dinode j = s.dinode j := by
  rw [FsState.dinode, FsState.dinode, h.inodeHashTable_of_ne hne, h.diskDinode hj]

/-- The slots of the dinodes change at the claimed slot only. -/
theorem own_top (h : Claimable s i inode σ idx) {j : ℕ} (hj : j < nrInodes) {τ : Slot}
    (hτ : τ.parent = none) : (s.claim i inode σ idx).own j τ =
      if j = i ∧ τ = σ then ((firstDataBlock + idx : ℕ) : ℤ) else s.own j τ := by
  have htop : ∀ blocks blocks' d, slotVal blocks d τ = slotVal blocks' d τ :=
    fun _ _ _ ↦ slotVal_top_congr _ _ rfl hτ
  by_cases hji : j = i
  · subst hji
    -- Counting the block leaves the slots alone.
    have hcount : ∀ blocks, slotVal blocks (inode.enter σ (firstDataBlock + idx : ℕ)).din τ =
        slotVal blocks (inode.din.setSlot σ (firstDataBlock + idx : ℕ)) τ :=
      fun _ ↦ slotVal_top_congr _ _ rfl hτ
    rw [FsState.own, h.dinode_self, hcount, slotVal_setSlot_top _ _ _ hτ, FsState.own,
      dinode_of_some h.inMemory, htop _ s.dev.blocks]
    simp
  · rw [if_neg fun hand ↦ hji hand.1, FsState.own, FsState.own, h.dinode_of_ne hj hji,
      htop _ s.dev.blocks]

end Claimable

/-- A claim changes the owned blocks at the claimed slot only. -/
theorem own_claim (h : Claimable s i inode σ idx) {j : ℕ} (hj : j < nrInodes) (τ : Slot) :
    (s.claim i inode σ idx).own j τ =
      if j = i ∧ τ = σ then ((firstDataBlock + idx : ℕ) : ℤ) else s.own j τ := by
  induction τ using Slot.parentInduction with
  | htop τ hτ => exact h.own_top hj hτ
  | hentry τ π hτ ih =>
    rw [own_eq_entry _ _ hτ, ih]
    by_cases hnew : j = i ∧ π = σ
    · -- The index block is the claimed one: it is zero, and had no entries before.
      obtain ⟨rfl, rfl⟩ := hnew
      have hne : τ ≠ π := by
        rintro rfl
        exact Slot.parent_ne hτ
      rw [if_pos ⟨rfl, rfl⟩, if_neg fun hand ↦ hne hand.2, own_eq_entry _ _ hτ, h.empty, entry,
        entry, if_pos rfl, if_neg (by positivity), Int.toNat_natCast, h.blocks_new,
        Block.getInt_zero]
    · rw [if_neg hnew]
      by_cases hzero : s.own j π = 0
      · have hne : ¬ (j = i ∧ τ = σ) := by
          rintro ⟨rfl, rfl⟩
          exact h.parent π hτ hzero
        rw [if_neg hne, own_eq_entry _ _ hτ, hzero, entry, entry, if_pos rfl, if_pos rfl]
      · rw [own_eq_entry s j hτ, entry, entry, if_neg hzero, if_neg hzero]
        by_cases hindex : j = i ∧ σ.parent = some π
        · -- The entry is in the index block that was written.
          obtain ⟨rfl, hparent⟩ := hindex
          rw [h.blocks_parent hparent,
            Block.getInt_setInt _ (Slot.entryIndex_lt τ) (dataBlock_range h.idx_lt).1
              (dataBlock_range h.idx_lt).2]
          have hsame : τ.entryIndex = σ.entryIndex ↔ τ = σ :=
            ⟨Slot.eq_of_parent hτ hparent, fun heq ↦ by rw [heq]⟩
          simp only [hsame, true_and]
        · have hne : ¬ (j = i ∧ τ = σ) := by
            rintro ⟨rfl, rfl⟩
            exact hindex ⟨rfl, hτ⟩
          rw [if_neg hne, h.blocks]
          · exact le_trans (by decide) (h.core.own_toNat hj hzero).2.1
          · intro ρ hρ heq
            obtain ⟨rfl, rfl⟩ := h.core.own_inj hj h.lt_nrInodes hzero heq (h.parent ρ hρ)
            exact hindex ⟨rfl, hρ⟩

/-- A claim leaves the bytes of every data block as they are. -/
theorem blocks_data_claim (h : Claimable s i inode σ idx) {j : ℕ} (hj : j < nrInodes) {τ : Slot}
    (hdata : τ.isData = true) (hτ : s.own j τ ≠ 0) :
    (s.claim i inode σ idx).dev.blocks (s.own j τ).toNat = s.dev.blocks (s.own j τ).toNat := by
  apply h.blocks
  · exact le_trans (by decide) (h.core.own_toNat hj hτ).2.1
  · intro π hparent heq
    obtain ⟨-, rfl⟩ := h.core.own_inj hj h.lt_nrInodes hτ heq (h.parent π hparent)
    rw [Slot.isData_parent hparent] at hdata
    exact Bool.false_ne_true hdata

/-- A claim leaves the contents of every file as they are. -/
theorem content_claim (h : Claimable s i inode σ idx) {j : ℕ} (hj : j < nrInodes) :
    (s.claim i inode σ idx).content j = s.content j := by
  funext off
  rw [FsState.content, FsState.content, own_claim h hj]
  by_cases hnew : j = i ∧ Slot.ofLog (off / blockSize) = σ
  · obtain ⟨rfl, hσ⟩ := hnew
    have hzero : s.own j (Slot.ofLog (off / blockSize)) = 0 := by rw [hσ]; exact h.empty
    have hnew : (if j = j ∧ Slot.ofLog (off / blockSize) = σ then
        ((firstDataBlock + idx : ℕ) : ℤ) else s.own j (Slot.ofLog (off / blockSize))) =
        (firstDataBlock + idx : ℕ) := if_pos ⟨rfl, hσ⟩
    rw [hnew, hzero, Int.toNat_natCast, h.blocks_new]
    simp
  · rw [if_neg hnew]
    split_ifs with hhave
    · rw [blocks_data_claim h hj (Slot.isData_ofLog _) hhave.2]
    · rfl

/-- A claim keeps the ownership invariant. -/
theorem Core.claim (h : Claimable s i inode σ idx) : Core (s.claim i inode σ idx) where
  layout := h.layout
  ledger := by
    have hclaim := h.core.ledger.claim (i := i) (σ := σ) (r := ((firstDataBlock + idx : ℕ) : ℤ))
      h.lt_nrInodes h.empty (by positivity) (not_inUse h.clear)
    refine hclaim.congr ?_ ?_ ?_
    · intro j hj
      funext τ
      rw [own_claim h hj]
      by_cases hji : j = i
      · subst hji
        by_cases hτ : τ = σ <;> simp [hτ]
      · simp [hji]
    · intro r _
      rw [h.blockFreemap]
      constructor
      · rintro ⟨idx', hlt, rfl, hset⟩
        rw [Bitmap.bit_put] at hset
        by_cases heq : idx' = idx
        · exact Or.inl (by rw [heq])
        · rw [if_neg heq] at hset
          exact Or.inr ⟨idx', hlt, rfl, hset⟩
      · rintro (rfl | ⟨idx', hlt, rfl, hset⟩)
        · exact ⟨idx, h.idx_lt, rfl, by rw [Bitmap.bit_put, if_pos rfl]⟩
        · refine ⟨idx', hlt, rfl, ?_⟩
          rw [Bitmap.bit_put, hset, ite_self]
    · intro j hj
      by_cases hji : j = i
      · subst hji
        simp only [Function.update_self, h.dinode_self, dinode_of_some h.inMemory]
        cases σ <;> rfl
      · simp only [Function.update_of_ne hji, h.dinode_of_ne hj hji]
  used := by
    have hnot : idx ∉ s.blockFreemap.allocated := by
      rw [Bitmap.mem_allocated, h.clear]
      simp
    rw [h.sb, h.blockFreemap,
      Bitmap.allocated_put_true (by rw [h.core.layout.blockBits]; exact h.idx_lt),
      Finset.card_insert_of_notMem hnot, ← h.core.used]
  limit := by
    rw [h.sb]
    exact h.room
  zeroed := by
    intro idx' hlt hclear
    rw [h.blockFreemap, Bitmap.bit_put] at hclear
    split_ifs at hclear with heq
    rw [h.blocks (le_trans (by decide : firstInodeBlock ≤ firstDataBlock) (Nat.le_add_right _ _))]
    · exact h.core.zeroed idx' hlt hclear
    · intro π hparent hblock
      have huse := h.core.inUse h.lt_nrInodes (h.parent π hparent)
      rw [← (h.core.own_toNat h.lt_nrInodes (h.parent π hparent)).1, ← hblock] at huse
      exact not_inUse hclear huse
  table := by
    intro j inode' hj
    by_cases hji : j = i
    · rw [hji]
      exact h.lt_nrInodes
    · rw [h.inodeHashTable_of_ne hji] at hj
      exact h.core.table j inode' hj

end Claim

end OperatingSystems.Fs
