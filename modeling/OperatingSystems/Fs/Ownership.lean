import OperatingSystems.Fs.Allocation
import OperatingSystems.Library.Ledger
import Mathlib.Tactic.DeriveFintype

/-!
# The blocks an inode owns

A block number of an inode is stored in a `Slot`: a direct entry, the indirect or double indirect
entry of its dinode, an entry of its indirect block or of its double indirect block, or an entry
of a second-level indirect block. `own s i σ` is the number stored in slot `σ` of inode `i`, read
from memory when the inode is in memory and from disk otherwise, and zero when there is none.

`Core` is the block ownership invariant over all inodes: the owned blocks are those of the set
bits of the block freemap, none is owned twice, every inode counts the blocks it owns, the super
block counts them all, and a block that nobody owns is zero on disk. The last part makes a block
usable as an index block as soon as it is allocated, and it is what lets the two pure updates of
this module keep the invariant: `claim` enters a free block in an empty slot.
-/

set_option autoImplicit false
set_option relaxedAutoImplicit false

namespace OperatingSystems.Fs

open Library

/-! ### Slots -/

/-- A place in an inode or its index blocks that holds a block number. -/
inductive Slot
  | direct (k : Fin nrDirectBlocks)
  | indirect
  | dindirect
  | indirectEntry (k : Fin nrIndirectBlocks)
  | dindirectEntry (k : Fin nrIndirectBlocks)
  | leafEntry (k l : Fin nrIndirectBlocks)
  deriving DecidableEq, Fintype

namespace Slot

/-- The slot of the index block that an entry is in. -/
def parent : Slot → Option Slot
  | .direct _ => none
  | .indirect => none
  | .dindirect => none
  | .indirectEntry _ => some .indirect
  | .dindirectEntry _ => some .dindirect
  | .leafEntry k _ => some (.dindirectEntry k)

/-- The position of an entry in its index block. -/
def entryIndex : Slot → ℕ
  | .direct _ => 0
  | .indirect => 0
  | .dindirect => 0
  | .indirectEntry k => k
  | .dindirectEntry k => k
  | .leafEntry _ l => l

/-- The slot holds the number of a data block and not of an index block. -/
def isData : Slot → Bool
  | .direct _ => true
  | .indirect => false
  | .dindirect => false
  | .indirectEntry _ => true
  | .dindirectEntry _ => false
  | .leafEntry _ _ => true

/-- The first logical block that is found through the slot. -/
def first : Slot → ℕ
  | .direct k => k
  | .indirect => nrDirectBlocks
  | .dindirect => nrDirectBlocks + nrIndirectBlocks
  | .indirectEntry k => nrDirectBlocks + k
  | .dindirectEntry k => nrDirectBlocks + nrIndirectBlocks + nrIndirectBlocks * k
  | .leafEntry k l => nrDirectBlocks + nrIndirectBlocks + nrIndirectBlocks * k + l

/-- The data slot of a logical block. -/
def ofLog (l : ℕ) : Slot :=
  if h : l < nrDirectBlocks then .direct ⟨l, h⟩
  else if h : l - nrDirectBlocks < nrIndirectBlocks then .indirectEntry ⟨l - nrDirectBlocks, h⟩
  else
    .leafEntry
      ⟨(l - nrDirectBlocks - nrIndirectBlocks) / nrIndirectBlocks % nrIndirectBlocks,
        Nat.mod_lt _ (by decide)⟩
      ⟨(l - nrDirectBlocks - nrIndirectBlocks) % nrIndirectBlocks, Nat.mod_lt _ (by decide)⟩

theorem ofLog_leaf {l : ℕ} (hdirect : ¬ l < nrDirectBlocks)
    (hindirect : ¬ l - nrDirectBlocks < nrIndirectBlocks)
    (hquot : (l - nrDirectBlocks - nrIndirectBlocks) / nrIndirectBlocks < nrIndirectBlocks) :
    ofLog l = .leafEntry ⟨_, hquot⟩
      ⟨(l - nrDirectBlocks - nrIndirectBlocks) % nrIndirectBlocks, Nat.mod_lt _ (by decide)⟩ := by
  have hfirst : (⟨(l - nrDirectBlocks - nrIndirectBlocks) / nrIndirectBlocks % nrIndirectBlocks,
      Nat.mod_lt _ (by decide)⟩ : Fin nrIndirectBlocks) = ⟨_, hquot⟩ :=
    Fin.ext (Nat.mod_eq_of_lt hquot)
  rw [ofLog, dif_neg hdirect, dif_neg hindirect, hfirst]

/-- A property of all slots follows from the slots of the dinode and from the slot of the index
block to its entries. -/
theorem parentInduction {P : Slot → Prop} (htop : ∀ σ, σ.parent = none → P σ)
    (hentry : ∀ σ π, σ.parent = some π → P π → P σ) (σ : Slot) : P σ := by
  cases σ with
  | direct k => exact htop _ rfl
  | indirect => exact htop _ rfl
  | dindirect => exact htop _ rfl
  | indirectEntry k => exact hentry _ _ rfl (htop _ rfl)
  | dindirectEntry k => exact hentry _ _ rfl (htop _ rfl)
  | leafEntry k l => exact hentry _ _ rfl (hentry _ _ rfl (htop _ rfl))

theorem eq_of_parent {σ τ : Slot} {π : Slot} (hσ : σ.parent = some π) (hτ : τ.parent = some π)
    (h : σ.entryIndex = τ.entryIndex) : σ = τ := by
  cases σ <;> cases τ <;> simp_all [parent, entryIndex, Fin.ext_iff] <;> grind

theorem entryIndex_lt (σ : Slot) : σ.entryIndex < nrIndirectBlocks := by
  cases σ with
  | indirectEntry k => exact k.isLt
  | dindirectEntry k => exact k.isLt
  | leafEntry k l => exact l.isLt
  | _ => exact (by decide : 0 < nrIndirectBlocks)

theorem isData_parent {σ π : Slot} (h : σ.parent = some π) : π.isData = false := by
  cases σ <;> simp_all [parent] <;> subst h <;> rfl

theorem parent_ne {σ : Slot} : σ.parent ≠ some σ := by
  cases σ <;> simp [parent]

theorem isData_ofLog (l : ℕ) : (ofLog l).isData = true := by
  unfold ofLog
  split_ifs <;> rfl

theorem first_ofLog {l : ℕ} (h : l < maxBlockNr) : (ofLog l).first = l := by
  unfold ofLog
  simp only [maxBlockNr, nrDirectBlocks, nrIndirectBlocks] at *
  split_ifs with hdirect hindirect
  · rfl
  · simp only [first, nrDirectBlocks]
    omega
  · simp only [first, nrDirectBlocks, nrIndirectBlocks]
    omega

/-- Different logical blocks have different data slots. -/
theorem ofLog_injective {l m : ℕ} (hl : l < maxBlockNr) (hm : m < maxBlockNr)
    (h : ofLog l = ofLog m) : l = m := by
  rw [← first_ofLog hl, ← first_ofLog hm, h]

theorem first_le_of_parent {σ π : Slot} (h : σ.parent = some π) : π.first ≤ σ.first := by
  cases σ with
  | indirectEntry k => cases h; simp [first]
  | dindirectEntry k => cases h; simp [first]
  | leafEntry k l => cases h; simp [first]
  | _ => simp [parent] at h

end Slot

/-! ### The numbers in the slots -/

/-- Entry `k` of the index block with number `p`, when there is one. -/
def entry (blocks : ℕ → Block) (p : ℤ) (k : ℕ) : ℤ :=
  if p = 0 then 0 else (blocks p.toNat).getInt k

/-- The number stored in a slot of an inode. -/
def slotVal (blocks : ℕ → Block) (d : Dinode) : Slot → ℤ
  | .direct k => d.iBlockNr k
  | .indirect => d.iIndirect
  | .dindirect => d.iDindirect
  | .indirectEntry k => entry blocks d.iIndirect k
  | .dindirectEntry k => entry blocks d.iDindirect k
  | .leafEntry k l => entry blocks (entry blocks d.iDindirect k) l

theorem slotVal_eq_entry (blocks : ℕ → Block) (d : Dinode) {σ π : Slot}
    (h : σ.parent = some π) :
    slotVal blocks d σ = entry blocks (slotVal blocks d π) σ.entryIndex := by
  cases σ with
  | indirectEntry k => cases h; rfl
  | dindirectEntry k => cases h; rfl
  | leafEntry k l => cases h; rfl
  | _ => simp [Slot.parent] at h

/-- The numbers in the slots depend on the index blocks only. -/
theorem slotVal_congr {blocks blocks' : ℕ → Block} {d d' : Dinode}
    (htop : ∀ σ, σ.parent = none → slotVal blocks' d' σ = slotVal blocks d σ)
    (hindex : ∀ σ, σ.isData = false → slotVal blocks d σ ≠ 0 →
      blocks' (slotVal blocks d σ).toNat = blocks (slotVal blocks d σ).toNat) :
    slotVal blocks' d' = slotVal blocks d := by
  funext σ
  induction σ using Slot.parentInduction with
  | htop σ h => exact htop σ h
  | hentry σ π h ih =>
    rw [slotVal_eq_entry _ _ h, slotVal_eq_entry _ _ h, ih, entry, entry]
    split_ifs with hzero
    · rfl
    · rw [hindex π (Slot.isData_parent h) hzero]

/-- The block numbers stored in the dinode itself. -/
def Dinode.slots (d : Dinode) : (Fin nrDirectBlocks → ℤ) × ℤ × ℤ :=
  (d.iBlockNr, d.iIndirect, d.iDindirect)

/-- The dinode with another size. -/
def Dinode.withSize (d : Dinode) (size : ℤ) : Dinode := { d with iSize := size }

@[simp] theorem Dinode.slots_withSize (d : Dinode) (size : ℤ) : (d.withSize size).slots = d.slots :=
    rfl

@[simp] theorem Dinode.blockCount_withSize (d : Dinode) (size : ℤ) :
    (d.withSize size).blockCount = d.blockCount := rfl

@[simp] theorem Dinode.iType_withSize (d : Dinode) (size : ℤ) : (d.withSize size).iType = d.iType :=
    rfl

@[simp] theorem Dinode.iSize_withSize (d : Dinode) (size : ℤ) : (d.withSize size).iSize = size :=
    rfl

@[simp] theorem Dinode.withSize_self (d : Dinode) : d.withSize d.iSize = d := rfl

theorem slotVal_top_congr (blocks blocks' : ℕ → Block) {d d' : Dinode} (h : d'.slots = d.slots)
    {σ : Slot} (hσ : σ.parent = none) : slotVal blocks' d' σ = slotVal blocks d σ := by
  simp only [Dinode.slots, Prod.mk.injEq] at h
  cases σ with
  | direct k => exact congrFun h.1 k
  | indirect => exact h.2.1
  | dindirect => exact h.2.2
  | _ => simp [Slot.parent] at hσ

/-- The dinode with a block number stored in a slot of the dinode itself. -/
def Dinode.setSlot (d : Dinode) (σ : Slot) (p : ℤ) : Dinode :=
  match σ with
  | .direct k => { d with iBlockNr := Function.update d.iBlockNr k p }
  | .indirect => { d with iIndirect := p }
  | .dindirect => { d with iDindirect := p }
  | _ => d

theorem slotVal_setSlot_top (blocks : ℕ → Block) (d : Dinode) {σ τ : Slot} (p : ℤ)
    (hτ : τ.parent = none) :
    slotVal blocks (d.setSlot σ p) τ = if τ = σ then p else slotVal blocks d τ := by
  cases τ with
  | direct k => cases σ <;> simp [slotVal, Dinode.setSlot, Function.update_apply]
  | indirect => cases σ <;> simp [slotVal, Dinode.setSlot]
  | dindirect => cases σ <;> simp [slotVal, Dinode.setSlot]
  | _ => simp [Slot.parent] at hτ

/-! ### Inodes in memory and on disk -/

/-- The dinode of an inode on disk. -/
def FsState.diskDinode (s : FsState) (i : ℕ) : Dinode :=
  decodeDinode fun j ↦
    (s.dev.blocks (s.sb.inodeBlocksStart + i / inodesPerBlock)).byte
      (testfsInodeToBlockOffset i + j)

/-- The current dinode of an inode: the one in memory, or the one on disk. -/
def FsState.dinode (s : FsState) (i : ℕ) : Dinode :=
  match s.inodeHashTable i with
  | some inode => inode.din
  | none => s.diskDinode i

/-- The block number in a slot of an inode. -/
def FsState.own (s : FsState) (i : ℕ) (σ : Slot) : ℤ := slotVal s.dev.blocks (s.dinode i) σ

/-- The number is that of a data block whose bit is set. -/
def InUse (freemap : Bitmap) (r : ℤ) : Prop :=
  ∃ idx < nrDataBlocks, r = (firstDataBlock + idx : ℕ) ∧ freemap.bit idx = true

/-- The block ownership invariant over all inodes, in memory or on disk. -/
structure Core (s : FsState) : Prop where
  layout : Layout s
  ledger : Ledger {i | i < nrInodes} s.own (InUse s.blockFreemap) fun i ↦ (s.dinode i).blockCount
  used : s.sb.usedBlockCount = s.blockFreemap.allocated.card
  limit : s.sb.usedBlockCount ≤ s.sb.maxFsBlocks
  zeroed : ∀ idx < nrDataBlocks, s.blockFreemap.bit idx = false →
    s.dev.blocks (firstDataBlock + idx) = Block.zero
  table : ∀ i inode, s.inodeHashTable i = some inode → i < nrInodes

/-- Every data block in use lies within the device file. -/
def Reached (s : FsState) : Prop :=
  ∀ idx < nrDataBlocks, s.blockFreemap.bit idx = true → firstDataBlock + idx < s.dev.len

section Basic

variable {s : FsState} {i : ℕ} {inode : Inode}

theorem dinode_of_some (h : s.inodeHashTable i = some inode) : s.dinode i = inode.din := by
  simp [FsState.dinode, h]

theorem dinode_of_none (h : s.inodeHashTable i = none) : s.dinode i = s.diskDinode i := by
  simp [FsState.dinode, h]

theorem own_eq_entry (s : FsState) (i : ℕ) {σ π : Slot} (h : σ.parent = some π) :
    s.own i σ = entry s.dev.blocks (s.own i π) σ.entryIndex :=
  slotVal_eq_entry _ _ h

theorem InUse.ne_zero {freemap : Bitmap} {r : ℤ} (h : InUse freemap r) : r ≠ 0 := by
  obtain ⟨idx, -, rfl, -⟩ := h
  positivity

theorem not_inUse {freemap : Bitmap} {idx : ℕ} (h : freemap.bit idx = false) :
    ¬ InUse freemap (firstDataBlock + idx : ℕ) := by
  rintro ⟨idx', -, heq, hset⟩
  have : idx' = idx := by
    have := Int.ofNat.inj heq
    omega
  rw [this, h] at hset
  exact Bool.false_ne_true hset

/-- An owned block is a data block in use. -/
theorem Core.inUse (h : Core s) (hi : i < nrInodes) {σ : Slot} (hσ : s.own i σ ≠ 0) :
    InUse s.blockFreemap (s.own i σ) :=
  h.ledger.taken_of_own hi hσ

theorem Core.own_toNat (h : Core s) (hi : i < nrInodes) {σ : Slot} (hσ : s.own i σ ≠ 0) :
    ((s.own i σ).toNat : ℤ) = s.own i σ ∧ firstDataBlock ≤ (s.own i σ).toNat ∧
      (s.own i σ).toNat < firstDataBlock + nrDataBlocks := by
  obtain ⟨idx, hidx, heq, -⟩ := h.inUse hi hσ
  rw [heq, Int.toNat_natCast]
  exact ⟨rfl, Nat.le_add_right _ _, Nat.add_lt_add_left hidx _⟩

theorem Core.own_pos (h : Core s) (hi : i < nrInodes) {σ : Slot} (hσ : s.own i σ ≠ 0) :
    0 < s.own i σ := by
  obtain ⟨idx, -, heq, -⟩ := h.inUse hi hσ
  rw [heq]
  positivity

/-- Two slots with the same block are the same slot. -/
theorem Core.own_inj (h : Core s) {i j : ℕ} (hi : i < nrInodes) (hj : j < nrInodes) {σ τ : Slot}
    (hσ : s.own i σ ≠ 0) (heq : (s.own i σ).toNat = (s.own j τ).toNat) (hτ : s.own j τ ≠ 0) :
    i = j ∧ σ = τ := by
  apply h.ledger.unique i hi j hj σ τ hσ
  rw [← (h.own_toNat hi hσ).1, ← (h.own_toNat hj hτ).1, heq]

theorem Core.lt_len (h : Core s) (hr : Reached s) (hi : i < nrInodes) {σ : Slot}
    (hσ : s.own i σ ≠ 0) : (s.own i σ).toNat < s.dev.len := by
  obtain ⟨idx, hidx, heq, hset⟩ := h.inUse hi hσ
  rw [heq, Int.toNat_natCast]
  exact hr idx hidx hset

/-- Blocks outside the inode blocks do not hold dinodes. -/
theorem diskDinode_congr {s s' : FsState} (hs : Layout s)
    (hstart : s'.sb.inodeBlocksStart = s.sb.inodeBlocksStart)
    (hblocks : ∀ b, firstInodeBlock ≤ b → b < firstDataBlock →
      s'.dev.blocks b = s.dev.blocks b) (hi : i < nrInodes) :
    s'.diskDinode i = s.diskDinode i := by
  have hblock : i / inodesPerBlock < nrInodeBlocks := by
    simp only [nrInodes, inodesPerBlock, nrInodeBlocks] at *
    omega
  rw [FsState.diskDinode, FsState.diskDinode, hstart, hs.inodeBlocksStart,
    hblocks _ (Nat.le_add_right _ _) (Nat.add_lt_add_left hblock _)]

/-- What an inode owns depends on its dinode and its index blocks. -/
theorem own_congr {s t : FsState} (hslots : (t.dinode i).slots = (s.dinode i).slots)
    (hindex : ∀ σ, σ.isData = false → s.own i σ ≠ 0 →
      t.dev.blocks (s.own i σ).toNat = s.dev.blocks (s.own i σ).toNat) :
    t.own i = s.own i :=
  slotVal_congr (fun _ hσ ↦ slotVal_top_congr _ _ hslots hσ) hindex

/-- The invariant depends on what is owned, counted and allocated, and on the free blocks. -/
theorem Core.congr {s t : FsState} (h : Core s) (hlayout : Layout t)
    (hown : ∀ j < nrInodes, t.own j = s.own j)
    (hcount : ∀ j < nrInodes, (t.dinode j).blockCount = (s.dinode j).blockCount)
    (hbits : ∀ idx < nrDataBlocks, t.blockFreemap.bit idx = s.blockFreemap.bit idx)
    (hused : t.sb.usedBlockCount = s.sb.usedBlockCount)
    (hmax : t.sb.maxFsBlocks = s.sb.maxFsBlocks)
    (hfree : ∀ idx < nrDataBlocks, s.blockFreemap.bit idx = false →
      t.dev.blocks (firstDataBlock + idx) = s.dev.blocks (firstDataBlock + idx))
    (htable : ∀ j inode, t.inodeHashTable j = some inode → j < nrInodes) : Core t where
  layout := hlayout
  ledger := by
    refine h.ledger.congr hown (fun r _ ↦ ?_) hcount
    constructor
    · rintro ⟨idx, hidx, hr, hset⟩
      exact ⟨idx, hidx, hr, by rw [← hbits idx hidx, hset]⟩
    · rintro ⟨idx, hidx, hr, hset⟩
      exact ⟨idx, hidx, hr, by rw [hbits idx hidx, hset]⟩
  used := by
    have hallocated : t.blockFreemap.allocated = s.blockFreemap.allocated := by
      ext idx
      rw [Bitmap.mem_allocated, Bitmap.mem_allocated, hlayout.blockBits, h.layout.blockBits]
      refine and_congr_right fun hidx ↦ ?_
      rw [hbits idx hidx]
    rw [hused, hallocated, h.used]
  limit := by rw [hused, hmax]; exact h.limit
  zeroed := by
    intro idx hidx hclear
    rw [hbits idx hidx] at hclear
    rw [hfree idx hidx hclear, h.zeroed idx hidx hclear]
  table := htable

end Basic

/-! ### The freemap and the owners -/

section Allocated

variable {s t : FsState}

/-- A bit of the block freemap is set exactly if some inode owns the block. -/
theorem Core.mem_allocated (h : Core s) {idx : ℕ} : idx ∈ s.blockFreemap.allocated ↔
    ∃ j < nrInodes, ∃ σ, s.own j σ = (firstDataBlock + idx : ℕ) := by
  have hne : ((firstDataBlock + idx : ℕ) : ℤ) ≠ 0 := by positivity
  have htaken := h.ledger.taken_iff _ hne
  rw [Bitmap.mem_allocated, h.layout.blockBits]
  refine Iff.trans ⟨?_, ?_⟩ htaken
  · rintro ⟨hidx, hset⟩
    exact ⟨idx, hidx, rfl, hset⟩
  · rintro ⟨idx', hidx, heq, hset⟩
    obtain rfl : idx = idx' := by omega
    exact ⟨hidx, hset⟩

/-- The freemap depends on what the inodes own. -/
theorem Core.allocated_congr (hs : Core s) (ht : Core t)
    (hown : ∀ j < nrInodes, t.own j = s.own j) :
    t.blockFreemap.allocated = s.blockFreemap.allocated := by
  ext idx
  rw [ht.mem_allocated, hs.mem_allocated]
  constructor
  · rintro ⟨j, hj, σ, hσ⟩
    exact ⟨j, hj, σ, by rw [← hown j hj, hσ]⟩
  · rintro ⟨j, hj, σ, hσ⟩
    exact ⟨j, hj, σ, by rw [hown j hj, hσ]⟩

end Allocated

end OperatingSystems.Fs
