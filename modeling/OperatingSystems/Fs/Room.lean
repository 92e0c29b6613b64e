import OperatingSystems.Fs.InodeOps

/-!
# Writes that find room

`HasRoom n s` says that `n` more blocks can be allocated. An allocation takes one of them, and
nothing else in `testfs_allocate_block` does, as long as no allocation fails. The blocks that a
logical block needs are the missing ones among its own slot and the slots of the index blocks
above it (`Slot.path`), so a write for whose missing slots there is room is completed
(`Sound.write_room`). A write whose slots are all filled needs no room. If only the root owns blocks
and its records fit into one, no more than one is in use (`Sound.used_le_one_of_root`).
-/

set_option autoImplicit false
set_option relaxedAutoImplicit false

namespace OperatingSystems.Fs

open Library

/-! ### Room -/

/-- The file system has room for `n` more blocks. -/
structure HasRoom (n : ℕ) (s : FsState) : Prop where
  layout : Layout s
  used : s.sb.usedBlockCount = s.blockFreemap.allocated.card
  limit : s.sb.usedBlockCount + n ≤ s.sb.maxFsBlocks
  bits : s.sb.usedBlockCount + n ≤ nrDataBlocks

section HasRoom

variable {s t : FsState} {m n i idx : ℕ}

theorem Core.hasRoom (h : Core s) (hlimit : s.sb.usedBlockCount + n ≤ s.sb.maxFsBlocks)
    (hbits : s.sb.usedBlockCount + n ≤ nrDataBlocks) : HasRoom n s :=
  ⟨h.layout, h.used, hlimit, hbits⟩

theorem Core.used_le (h : Core s) : s.sb.usedBlockCount ≤ nrDataBlocks := by
  rw [h.used, ← h.layout.blockBits]
  exact (Finset.card_filter_le _ _).trans (Finset.card_range _).le

theorem HasRoom.mono (h : HasRoom n s) (hle : m ≤ n) : HasRoom m s :=
  ⟨h.layout, h.used, (Nat.add_le_add_left hle _).trans h.limit,
    (Nat.add_le_add_left hle _).trans h.bits⟩

theorem HasRoom.not_full (h : HasRoom (n + 1) s) : ¬ s.Full := by
  rintro (hlimit | hall)
  · have := h.limit
    omega
  · have hcard : s.blockFreemap.allocated.card = nrDataBlocks := by
      have hrange : s.blockFreemap.allocated = Finset.range nrDataBlocks := by
        ext idx
        rw [Bitmap.mem_allocated, h.layout.blockBits, Finset.mem_range]
        exact ⟨And.left, fun hidx ↦ ⟨hidx, hall idx hidx⟩⟩
      rw [hrange, Finset.card_range]
    have hused := h.used
    have hbits := h.bits
    omega

theorem HasRoom.setInode (h : HasRoom n s) (i : ℕ) (inode : Option Inode) :
    HasRoom n (s.setInode i inode) :=
  ⟨h.layout.setInode i inode, h.used, h.limit, h.bits⟩

theorem HasRoom.putDev (h : HasRoom n s) (b : ℕ) (block : Block) : HasRoom n (s.putDev b block) :=
  ⟨h.layout.putDev b block, h.used, h.limit, h.bits⟩

/-- Taking a block takes room for one. -/
theorem HasRoom.takeBlock (h : HasRoom (n + 1) s) (hidx : idx < nrDataBlocks)
    (hclear : s.blockFreemap.bit idx = false) : HasRoom n (s.takeBlock idx) := by
  have hnot : idx ∉ s.blockFreemap.allocated := by simp [Bitmap.mem_allocated, hclear]
  have hlimit := h.limit
  have hbits := h.bits
  refine ⟨h.layout.putBlockBit hidx, ?_, ?_, ?_⟩
  · change s.sb.usedBlockCount + 1 = (s.blockFreemap.put idx true).allocated.card
    rw [Bitmap.allocated_put_true (by rw [h.layout.blockBits]; exact hidx),
      Finset.card_insert_of_notMem hnot, h.used]
  · change s.sb.usedBlockCount + 1 + n ≤ s.sb.maxFsBlocks
    omega
  · change s.sb.usedBlockCount + 1 + n ≤ nrDataBlocks
    omega

/-- The number of blocks that can be allocated. -/
def FsState.room (s : FsState) : ℕ := min s.sb.maxFsBlocks nrDataBlocks - s.sb.usedBlockCount

theorem Core.hasRoom_iff (h : Core s) : HasRoom n s ↔ n ≤ s.room := by
  have hlimit := h.limit
  have hbits := h.used_le
  rw [FsState.room]
  constructor
  · intro hroom
    have hroomLimit := hroom.limit
    have hroomBits := hroom.bits
    omega
  · intro hn
    exact h.hasRoom (by omega) (by omega)

/-- Nothing can be allocated exactly if there is no room. -/
theorem Core.full_iff (h : Core s) : s.Full ↔ s.room = 0 := by
  have hbits := h.used_le
  constructor
  · intro hfull
    by_contra hne
    exact (h.hasRoom_iff.mpr (Nat.one_le_iff_ne_zero.mpr hne)).not_full hfull
  · intro hzero
    rw [FsState.room, Nat.sub_eq_zero_iff_le, min_le_iff] at hzero
    refine hzero.imp_right fun hall idx hidx ↦ ?_
    have hsubset : s.blockFreemap.allocated ⊆ Finset.range nrDataBlocks := by
      intro k hk
      rw [Bitmap.mem_allocated, h.layout.blockBits] at hk
      exact Finset.mem_range.mpr hk.1
    have hrange : s.blockFreemap.allocated = Finset.range nrDataBlocks := by
      refine Finset.eq_of_subset_of_card_le hsubset ?_
      rw [Finset.card_range, ← h.used]
      exact hall
    have hmem : idx ∈ s.blockFreemap.allocated := by rw [hrange, Finset.mem_range]; exact hidx
    exact (Bitmap.mem_allocated.mp hmem).2

end HasRoom

/-! ### What the allocator leaves -/

section Triples

variable {n i : ℕ}

/-- The allocation succeeded and left room for `n` blocks. -/
def Left (n : ℕ) (p : ℤ) (s : FsState) : Prop := 0 ≤ p ∧ HasRoom n s

theorem preserves_storeInode (i : ℕ) (inode : Inode) :
    Program.Preserves (HasRoom n) (storeInode i inode) :=
  Program.preserves_modify fun _ h ↦ h.setInode i (some inode)

theorem preserves_modifyDinode (i : ℕ) (f : Dinode → Dinode) :
    Program.Preserves (HasRoom n) (modifyDinode i f) :=
  (preserves_inodeRef i).bind fun _ ↦ preserves_storeInode i _

theorem preserves_markDirty (i : ℕ) : Program.Preserves (HasRoom n) (markDirty i) :=
  (preserves_inodeRef i).bind fun _ ↦ preserves_storeInode i _

theorem preserves_writeBlock (block : Block) (start : ℤ) :
    Program.Preserves (HasRoom n) (writeBlocks (fun _ ↦ block) start 1) := by
  refine (Program.preserves_check _ _).bind fun _ ↦ Program.preserves_modify fun s h ↦ ?_
  rw [Device.write_one]
  exact h.putDev start.toNat block

/-- The result of an allocation is not negative. -/
theorem triple_left {m : FsProgram ℤ} {p : ℤ} {k : ℕ}
    (hm : 0 ≤ p → Program.Triple (HasRoom k) m (Left n)) : Program.Triple (Left k p) m (Left n) :=
  fun _ _ _ h hrun ↦ hm h.1 h.2 hrun

theorem triple_pure_nonneg {p : ℤ} (hp : 0 ≤ p) :
    Program.Triple (HasRoom n) (pure p : FsProgram ℤ) (Left n) :=
  Program.triple_pure fun _ h ↦ ⟨hp, h⟩

/-- `testfs_alloc_block` takes room for one block. -/
theorem triple_allocBlock : Program.Triple (HasRoom (n + 1)) testfsAllocBlock (Left n) := by
  intro s t p h hrun
  rcases testfsAllocBlock_spec h.layout with ⟨idx, hidx, hclear, -, halloc⟩ | ⟨-, hfull⟩
  · obtain ⟨rfl, rfl⟩ := Prod.mk.inj (Except.ok.inj (halloc.symm.trans hrun))
    exact ⟨by positivity, h.takeBlock hidx hclear⟩
  · exact absurd hfull h.not_full

/-- `testfs_alloc_block_for_inode` does, too. -/
theorem triple_allocBlockForInode :
    Program.Triple (HasRoom (n + 1)) (testfsAllocBlockForInode i) (Left n) := by
  refine triple_allocBlock.bind fun p ↦ triple_left fun hp ↦ ?_
  rw [if_pos hp]
  exact (preserves_modifyDinode i _).andThen fun _ ↦ (preserves_markDirty i).andThen fun _ ↦
    triple_pure_nonneg hp

theorem triple_allocateDirect (k : Fin nrDirectBlocks) :
    Program.Triple (HasRoom (n + 1)) (allocateDirect i k) (Left n) := by
  refine (preserves_inodeRef i).andThen fun inode ↦ (Program.preserves_check _ _).andThen fun _ ↦ ?_
  refine triple_allocBlockForInode.bind fun p ↦ triple_left fun hp ↦ ?_
  rw [if_pos hp]
  exact (preserves_modifyDinode i _).andThen fun _ ↦ triple_pure_nonneg hp

theorem triple_allocateInIndirect (indirect : Block) (e : ℕ) (idBlock : ℤ) :
    Program.Triple (HasRoom (n + 1)) (allocateInIndirect i indirect e idBlock) (Left n) := by
  refine (Program.preserves_check _ _).andThen fun _ ↦ ?_
  refine triple_allocBlockForInode.bind fun p ↦ triple_left fun hp ↦ ?_
  rw [if_pos hp]
  exact (preserves_writeBlock _ _).andThen fun _ ↦ triple_pure_nonneg hp

/-- A second-level indirect block that is missing takes room as well. -/
theorem triple_allocateInDindirect {d : Block} {a : Bool} {k : ℕ} (e : ℕ) :
    Program.Triple (HasRoom (n + 1 + if d.getInt k = 0 then 1 else 0))
      (allocateInDindirect i d a k e) (Left n) := by
  rw [allocateInDindirect]
  by_cases hzero : d.getInt k = 0
  · rw [if_pos hzero, if_pos hzero]
    refine triple_allocBlockForInode.bind fun idBlock ↦ triple_left fun hid ↦ ?_
    rw [if_neg (not_lt.mpr hid)]
    refine (triple_allocateInIndirect _ _ _).bind fun p ↦ triple_left fun hp ↦ ?_
    rw [if_pos hp]
    exact (preserves_inodeRef i).andThen fun _ ↦ (preserves_writeBlock _ _).andThen fun _ ↦
      triple_pure_nonneg hp
  · rw [if_neg hzero, if_neg hzero]
    exact (preserves_readBlock _).andThen fun _ ↦ triple_allocateInIndirect _ _ _

end Triples

/-! ### The blocks that a logical block needs -/

/-- The slot and the slots of the index blocks it is found through. -/
def Slot.path : Slot → Finset Slot
  | .direct k => {.direct k}
  | .indirect => {.indirect}
  | .dindirect => {.dindirect}
  | .indirectEntry k => {.indirectEntry k, .indirect}
  | .dindirectEntry k => {.dindirectEntry k, .dindirect}
  | .leafEntry k l => {.leafEntry k l, .dindirectEntry k, .dindirect}

/-- The number of slots of a set that are empty. -/
def FsState.missing (s : FsState) (i : ℕ) (slots : Finset Slot) : ℕ :=
  (slots.filter fun σ ↦ s.own i σ = 0).card

section Missing

variable {s t : FsState} {i l n : ℕ} {inode : Inode} {p : ℤ}

/-- A block in use is found through blocks in use. -/
theorem own_path (s : FsState) (i : ℕ) {σ τ : Slot} (h : s.own i σ ≠ 0) (hτ : τ ∈ σ.path) :
    s.own i τ ≠ 0 := by
  have hparent : ∀ {σ π : Slot}, σ.parent = some π → s.own i σ ≠ 0 → s.own i π ≠ 0 := by
    intro σ π hπ hσ hzero
    rw [own_eq_entry s i hπ, hzero, entry, if_pos rfl] at hσ
    exact hσ rfl
  cases σ with
  | direct k => rwa [Finset.mem_singleton.mp hτ]
  | indirect => rwa [Finset.mem_singleton.mp hτ]
  | dindirect => rwa [Finset.mem_singleton.mp hτ]
  | indirectEntry k =>
    rcases Finset.mem_insert.mp hτ with rfl | hτ
    · exact h
    · rw [Finset.mem_singleton.mp hτ]
      exact hparent rfl h
  | dindirectEntry k =>
    rcases Finset.mem_insert.mp hτ with rfl | hτ
    · exact h
    · rw [Finset.mem_singleton.mp hτ]
      exact hparent rfl h
  | leafEntry k e =>
    have hentry := hparent (σ := .leafEntry k e) rfl h
    rcases Finset.mem_insert.mp hτ with rfl | hτ
    · exact h
    rcases Finset.mem_insert.mp hτ with rfl | hτ
    · exact hentry
    · rw [Finset.mem_singleton.mp hτ]
      exact hparent rfl hentry

theorem missing_singleton {σ : Slot} (h : s.own i σ = 0) : s.missing i {σ} = 1 := by
  rw [FsState.missing, Finset.filter_singleton, if_pos h, Finset.card_singleton]

/-- One more slot. -/
theorem missing_insert {σ : Slot} {slots : Finset Slot} (hσ : σ ∉ slots) :
    s.missing i (insert σ slots) = s.missing i slots + if s.own i σ = 0 then 1 else 0 := by
  rw [FsState.missing, FsState.missing, Finset.filter_insert]
  split_ifs
  · rw [Finset.card_insert_of_notMem fun hmem ↦ hσ (Finset.mem_of_mem_filter σ hmem)]
  · rfl

theorem allocateIndirect_room (ht : s.inodeHashTable i = some inode) {k : Fin nrIndirectBlocks}
    (hempty : s.own i (.indirectEntry k) = 0)
    (h : HasRoom (n + s.missing i (Slot.indirectEntry k).path) s)
    (hrun : (allocateIndirect i k).run s = .ok (p, t)) : Left n p t := by
  have hind : s.own i .indirect = inode.din.iIndirect := own_of_some ht _
  rw [Slot.path, missing_insert (by simp), if_pos hempty] at h
  rw [allocateIndirect, Program.run_bind (inodeRef_run ht)] at hrun
  by_cases hzero : inode.din.iIndirect = 0
  · rw [if_pos hzero] at hrun
    rw [missing_singleton (hind.trans hzero)] at h
    refine Program.Triple.bind triple_allocBlockForInode (fun q ↦ triple_left fun hq ↦ ?_)
      (show HasRoom (n + 1 + 1) s from h) hrun
    rw [if_neg (not_lt.mpr hq)]
    refine (preserves_modifyDinode i _).andThen fun _ ↦ ?_
    refine (triple_allocateInIndirect _ _ _).bind fun r ↦ triple_left fun hr ↦ ?_
    rw [if_pos hr]
    exact triple_pure_nonneg hr
  · rw [if_neg hzero] at hrun
    exact (preserves_readBlock _).andThen (fun _ ↦ triple_allocateInIndirect _ _ _)
      (h.mono (by omega)) hrun

theorem allocateDindirect_room (hs : Core s) (hr : Reached s) (ht : s.inodeHashTable i = some inode)
    {k e : Fin nrIndirectBlocks} (hempty : s.own i (.leafEntry k e) = 0)
    (h : HasRoom (n + s.missing i (Slot.leafEntry k e).path) s)
    (hrun : (allocateDindirect i k e).run s = .ok (p, t)) : Left n p t := by
  have hdind : s.own i .dindirect = inode.din.iDindirect := own_of_some ht _
  rw [Slot.path, missing_insert (by simp), if_pos hempty, missing_insert (by simp)] at h
  rw [allocateDindirect, Program.run_bind (inodeRef_run ht)] at hrun
  by_cases hzero : inode.din.iDindirect = 0
  · have hentry : s.own i (.dindirectEntry k) = 0 := by
      rw [own_eq_entry (σ := .dindirectEntry k) s i rfl, hdind, hzero, entry, if_pos rfl]
    rw [if_pos hzero] at hrun
    rw [missing_singleton (hdind.trans hzero), if_pos hentry] at h
    refine Program.Triple.bind triple_allocBlockForInode (fun q ↦ triple_left fun hq ↦ ?_)
      (show HasRoom (n + 1 + 1 + 1) s from h.mono (by omega)) hrun
    rw [if_neg (not_lt.mpr hq)]
    refine (preserves_modifyDinode i _).andThen fun _ ↦ ?_
    have hnew := triple_allocateInDindirect (n := n) (i := i) (d := Block.zero) (a := true)
      (k := k) e
    rw [if_pos (Block.getInt_zero k)] at hnew
    exact hnew
  · have hown : s.own i .dindirect ≠ 0 := by rw [hdind]; exact hzero
    have hentry : (s.dev.blocks (s.own i .dindirect).toNat).getInt k = s.own i
        (.dindirectEntry k) := by
      rw [own_eq_entry (σ := .dindirectEntry k) s i rfl, entry, if_neg hown]
      rfl
    rw [if_neg hzero, ← hdind, Program.run_bind
      (hs.readBlock_run hr (hs.table i inode ht) hown)] at hrun
    refine triple_allocateInDindirect e (h.mono ?_) hrun
    rw [hentry]
    omega

/-- A missing block is allocated if there is room for it and the missing index blocks above. -/
theorem allocateMissing_room (hs : Core s) (hr : Reached s) (ht : s.inodeHashTable i = some inode)
    (hl : l < maxBlockNr) (hempty : s.own i (Slot.ofLog l) = 0)
    (h : HasRoom (n + s.missing i (Slot.ofLog l).path) s)
    (hrun : (allocateMissing i l).run s = .ok (p, t)) : Left n p t := by
  rw [allocateMissing] at hrun
  by_cases hdirect : l < nrDirectBlocks
  · rw [Slot.ofLog, dif_pos hdirect] at h hempty
    rw [Slot.path, missing_singleton hempty] at h
    rw [dif_pos hdirect] at hrun
    exact triple_allocateDirect _ h hrun
  rw [dif_neg hdirect] at hrun
  by_cases hindirect : l - nrDirectBlocks < nrIndirectBlocks
  · rw [if_neg (not_le.mpr hindirect)] at hrun
    rw [Slot.ofLog, dif_neg hdirect, dif_pos hindirect] at h hempty
    exact allocateIndirect_room ht hempty h hrun
  · have hquot : (l - nrDirectBlocks - nrIndirectBlocks) / nrIndirectBlocks < nrIndirectBlocks := by
      simp only [maxBlockNr, nrDirectBlocks, nrIndirectBlocks] at *
      omega
    rw [if_pos (not_lt.mp hindirect)] at hrun
    rw [Slot.ofLog_leaf hdirect hindirect hquot] at h hempty
    exact allocateDindirect_room hs hr ht hempty h hrun

/-- `testfs_allocate_block` finds the block or allocates it. -/
theorem testfsAllocateBlock_room (hs : Core s) (hr : Reached s)
    (ht : s.inodeHashTable i = some inode) (hl : l < maxBlockNr)
    (h : HasRoom (n + s.missing i (Slot.ofLog l).path) s) (block : Block) :
    ∃ t, (testfsAllocateBlock i l block).run s =
        .ok ((t.own i (Slot.ofLog l), s.blockOf i l), t) ∧
      Allocated i l s t (t.own i (Slot.ofLog l)) ∧ HasRoom n t := by
  rcases testfsAllocateBlock_spec hs hr ht hl block with
      ⟨t, hrun, halloc, hsame⟩ | ⟨t, hrun, -, hempty, -⟩
  · refine ⟨t, hrun, halloc, ?_⟩
    by_cases hempty : s.own i (Slot.ofLog l) = 0
    · rw [testfsAllocateBlock, if_neg (not_le.mpr hl),
        Program.run_bind (testfsReadBlock_run hs hr ht hl block)] at hrun
      simp only [hempty, ne_eq, not_true_eq_false, if_false] at hrun
      obtain ⟨p, u, hmissing, hpure⟩ := Program.bind_eq_ok_iff.mp hrun
      rw [Program.pure_run, Except.ok.injEq, Prod.mk.injEq] at hpure
      exact hpure.2 ▸ (allocateMissing_room hs hr ht hl hempty h hmissing).2
    · rw [hsame hempty]
      exact h.mono (Nat.le_add_right _ _)
  · rw [testfsAllocateBlock, if_neg (not_le.mpr hl),
      Program.run_bind (testfsReadBlock_run hs hr ht hl block)] at hrun
    simp only [hempty, ne_eq, not_true_eq_false, if_false] at hrun
    obtain ⟨p, u, hmissing, hpure⟩ := Program.bind_eq_ok_iff.mp hrun
    rw [Program.pure_run, Except.ok.injEq, Prod.mk.injEq, Prod.mk.injEq] at hpure
    have hnonneg := (allocateMissing_room hs hr ht hl hempty h hmissing).1
    rw [hpure.1.1] at hnonneg
    exact absurd hnonneg (by decide)

end Missing

/-! ### Writing -/

/-- The slots that `len` bytes from offset `off` on are stored through. -/
def writeSlots (off len : ℕ) : Finset Slot :=
  (Finset.Ico off (off + len)).biUnion fun o ↦ (Slot.ofLog (o / blockSize)).path

section Write

variable {s t : FsState} {i n : ℕ} {inode : Inode}

/-- The slots of the first block, and those of the rest. -/
theorem writeSlots_step {off len m : ℕ} (hlen : 0 < len)
    (hm : m = min (blockSize - off % blockSize) len) :
    writeSlots off len = (Slot.ofLog (off / blockSize)).path ∪ writeSlots (off + m) (len - m) := by
  have hmod := Nat.mod_lt off (by decide : 0 < blockSize)
  ext σ
  simp only [writeSlots, Finset.mem_union, Finset.mem_biUnion, Finset.mem_Ico]
  constructor
  · rintro ⟨o, ho, hσ⟩
    by_cases hfirst : o < off + m
    · left
      have hdiv : o / blockSize = off / blockSize := by
        simp only [blockSize] at *
        omega
      rwa [hdiv] at hσ
    · right
      exact ⟨o, by omega, hσ⟩
  · rintro (hσ | ⟨o, ho, hσ⟩)
    · exact ⟨off, by omega, hσ⟩
    · exact ⟨o, by omega, hσ⟩

/-- Filling some slots and no others leaves the rest to be filled. -/
theorem missing_add_le
    (hkeep : ∀ σ, s.own i σ ≠ 0 → t.own i σ = s.own i σ) {first rest : Finset Slot}
    (hfilled : ∀ σ ∈ first, t.own i σ ≠ 0) :
    s.missing i first + t.missing i rest ≤ s.missing i (first ∪ rest) := by
  have hdisjoint : Disjoint (first.filter fun σ ↦ s.own i σ = 0) (rest.filter fun σ ↦
      t.own i σ = 0) := by
    rw [Finset.disjoint_left]
    intro σ hfirst hrest
    exact hfilled σ (Finset.mem_filter.mp hfirst).1 (Finset.mem_filter.mp hrest).2
  rw [FsState.missing, FsState.missing, FsState.missing, ← Finset.card_union_of_disjoint hdisjoint]
  apply Finset.card_le_card
  intro σ hσ
  rw [Finset.mem_filter, Finset.mem_union]
  rcases Finset.mem_union.mp hσ with hfirst | hrest
  · obtain ⟨hmem, hzero⟩ := Finset.mem_filter.mp hfirst
    exact ⟨Or.inl hmem, hzero⟩
  · obtain ⟨hmem, hzero⟩ := Finset.mem_filter.mp hrest
    refine ⟨Or.inr hmem, ?_⟩
    by_contra hne
    rw [hkeep σ hne] at hzero
    exact hne hzero

theorem missing_congr (hown : t.own i = s.own i) (slots : Finset Slot) :
    t.missing i slots = s.missing i slots := by
  rw [FsState.missing, FsState.missing, hown]

/-- The loop of `testfs_write_data` with room for all blocks it has to allocate. -/
theorem writeLoop_room (turns : ℕ) : ∀ {s : FsState} {inode : Inode} (off pos l ix : ℕ)
    (buf : List UInt8) (block : Block), Core s → Reached s → s.inodeHashTable i = some inode →
    (0 < buf.length → off + buf.length ≤ maxFileSize) →
    HasRoom (n + s.missing i (writeSlots off buf.length)) s → buf.length ≤ turns →
    (0 < buf.length → l = off / blockSize ∧ ix = off % blockSize) →
    ∃ t, (writeLoop i turns l ix pos buf block).run s = .ok ((none, pos + buf.length), t) ∧
      HasRoom n t ∧ ∀ σ, s.own i σ ≠ 0 → t.own i σ = s.own i σ := by
  induction turns with
  | zero =>
    intro s inode off pos l ix buf block _ _ _ _ h hturns _
    obtain rfl : buf = [] := List.length_eq_zero_iff.mp (Nat.le_zero.mp hturns)
    exact ⟨s, rfl, h.mono (Nat.le_add_right _ _), fun _ _ ↦ rfl⟩
  | succ turns ih =>
    intro s inode off pos l ix buf block hs hr ht hend h hturns hplace
    rw [writeLoop]
    by_cases hbuf : buf.length > 0
    swap
    · obtain rfl : buf = [] := List.length_eq_zero_iff.mp (Nat.le_zero.mp (not_lt.mp hbuf))
      exact ⟨s, rfl, h.mono (Nat.le_add_right _ _), fun _ _ ↦ rfl⟩
    obtain ⟨rfl, rfl⟩ := hplace hbuf
    rw [if_pos hbuf]
    have hi := hs.table i inode ht
    have hmax := hend hbuf
    have hl : off / blockSize < maxBlockNr :=
      Nat.div_lt_of_lt_mul (by rw [mul_comm]; exact lt_of_lt_of_le (by omega) hmax)
    have hmod := Nat.mod_lt off (by decide : 0 < blockSize)
    obtain ⟨m, hm⟩ : ∃ m, m = min (blockSize - off % blockSize) buf.length := ⟨_, rfl⟩
    obtain ⟨need, hneed⟩ : ∃ need, need = s.missing i (writeSlots off buf.length) -
      s.missing i (Slot.ofLog (off / blockSize)).path := ⟨_, rfl⟩
    have hstep := writeSlots_step hbuf hm
    have hsplit : s.missing i (Slot.ofLog (off / blockSize)).path ≤
        s.missing i (writeSlots off buf.length) := by
      rw [hstep]
      exact Finset.card_le_card (Finset.filter_subset_filter _ Finset.subset_union_left)
    obtain ⟨t, hrun, halloc, hroom⟩ := testfsAllocateBlock_room (n := n + need) hs hr ht hl
      (h.mono (by omega)) block
    obtain ⟨inode₁, hinode₁, -⟩ := halloc.grown.table inode ht
    have hwrote := Wrote.block hl hi halloc (off % blockSize) buf
    have hown := own_putData halloc.grown.core hi (Slot.isData_ofLog (off / blockSize))
      halloc.pos.ne'
      ((s.blockOf i (off / blockSize)).copyIn (off % blockSize) m fun k ↦ buf.getD k 0) hi
    rw [← hm] at hwrote
    have hrest : s.missing i (Slot.ofLog (off / blockSize)).path +
        t.missing i (writeSlots (off + m) (buf.length - m)) ≤ s.missing i
          (writeSlots off buf.length) := by
      rw [hstep]
      exact missing_add_le halloc.grown.own_keep fun σ hσ ↦ own_path t i halloc.pos.ne' hσ
    have hleft :=
      (hroom.mono (show n + t.missing i (writeSlots (off + m) (buf.length - m)) ≤ n + need
      by omega)).putDev (t.own i (Slot.ofLog (off / blockSize))).toNat
        ((s.blockOf i (off / blockSize)).copyIn (off % blockSize) m fun k ↦ buf.getD k 0)
    rw [← missing_congr hown] at hleft
    rw [Program.run_bind hrun]
    simp only [← hm]
    rw [if_neg (not_lt.mpr halloc.pos.le), Program.run_bind (writeBlocks_run halloc.pos.le _ _)]
    have hlength : pos + buf.length = pos + m + (buf.drop m).length := by
      rw [List.length_drop]
      omega
    rw [hlength]
    have hmaxRest : 0 < (buf.drop m).length → off + m + (buf.drop m).length ≤ maxFileSize := by
      rw [List.length_drop]
      omega
    rw [← List.length_drop] at hleft
    have hplaceRest : 0 < (buf.drop m).length →
        off / blockSize + 1 = (off + m) / blockSize ∧ 0 = (off + m) % blockSize := by
      rw [List.length_drop]
      simp only [blockSize] at *
      omega
    obtain ⟨u, hrest, hroom', hkeep⟩ := ih (off + m) (pos + m) (off / blockSize + 1) 0 (buf.drop m)
      ((s.blockOf i (off / blockSize)).copyIn (off % blockSize) m fun k ↦ buf.getD k 0) hwrote.core
      hwrote.reached hinode₁ hmaxRest hleft (by rw [List.length_drop]; omega) hplaceRest
    refine ⟨u, hrest, hroom', fun σ hσ ↦ ?_⟩
    have hsame := congrFun hown σ
    have hgrown := halloc.grown.own_keep σ hσ
    rw [hkeep σ (by rw [hsame, hgrown]; exact hσ), hsame, hgrown]

/-- `testfs_write_data` within the largest file and with room for the missing blocks is completed.
-/
theorem Sound.write_room (hs : Sound s) (ht : s.inodeHashTable i = some inode) {buf : List UInt8}
    {start : ℕ} (hstart : start < maxFileSize) (hend : start + buf.length ≤ maxFileSize)
    (h : HasRoom (n + s.missing i (writeSlots start buf.length)) s) :
    ∃ t inode', (testfsWriteData i buf start).run s = .ok (toInt32 buf.length, t) ∧
      Written i start buf inode s none buf.length t inode' ∧ HasRoom n t ∧
      ∀ σ, s.own i σ ≠ 0 → t.own i σ = s.own i σ := by
  obtain ⟨u, hrun, hroom, hkeep⟩ := writeLoop_room buf.length start 0 (start / blockSize)
    (start % blockSize) buf
    Block.zero hs.core hs.reached ht (fun _ ↦ hend) h le_rfl fun _ ↦ ⟨rfl, rfl⟩
  obtain ⟨failure, m, u', inode₁, hloop, hresult⟩ := writeLoop_spec buf.length start 0
    (start / blockSize) (start % blockSize) buf Block.zero hs.core hs.reached ht
      (hs.extent_of_some ht)
    le_rfl fun _ ↦ ⟨rfl, rfl⟩
  rw [hrun, Except.ok.injEq, Prod.mk.injEq, Prod.mk.injEq, zero_add, zero_add] at hloop
  obtain ⟨⟨rfl, rfl⟩, rfl⟩ := hloop
  have hdone := writeDone_run hresult.inMemory start none buf.length
  refine ⟨_, _, ?_, hs.written ht hstart hresult, hroom.setInode _ _, fun σ hσ ↦ ?_⟩
  swap
  · have hsame : (u.setInode i (some (inode₁.finishWrite start none buf.length))).own i =
        u.own i := by
      apply own_congr
      · rw [dinode_setInode_self, dinode_of_some hresult.inMemory]
        rfl
      · exact fun _ _ _ ↦ rfl
    rw [hsame, hkeep σ hσ]
  rw [testfsWriteData, if_neg (not_le.mpr (Int.ofNat_lt.mpr hstart)),
    Program.check_bind_run (Or.inl (by positivity)), Int.toNat_natCast, Program.run_bind hrun,
      zero_add, hdone, Option.getD_none]

/-- A write within the largest file that fails has found no room for the missing blocks. -/
theorem Sound.write_cases (hs : Sound s) (ht : s.inodeHashTable i = some inode) (buf : List UInt8)
    {start : ℕ} (hstart : start < maxFileSize) (hend : start + buf.length ≤ maxFileSize) :
    ∃ failure n t inode', (testfsWriteData i buf start).run s = .ok (failure.getD (toInt32 n), t) ∧
      Written i start buf inode s failure n t inode' ∧
      (failure ≠ none → s.room < s.missing i (writeSlots start buf.length)) := by
  by_cases hroom : s.missing i (writeSlots start buf.length) ≤ s.room
  · obtain ⟨t, inode', hrun, hw, -⟩ := hs.write_room (n := 0) ht hstart hend
      (hs.core.hasRoom_iff.mpr (by rw [zero_add]; exact hroom))
    exact ⟨none, buf.length, t, inode',
      by rw [Option.getD_none]; exact hrun, hw, fun hne ↦ absurd rfl hne⟩
  · obtain ⟨failure, n, t, inode', hrun, hw⟩ := hs.write ht buf start
    exact ⟨failure, n, t, inode', hrun, hw, fun _ ↦ not_le.mp hroom⟩

/-- A write whose first block is missing in a full file system fails and leaves every inode as it
was. -/
theorem Sound.write_stuck (hs : Sound s) (ht : s.inodeHashTable i = some inode) {buf : List UInt8}
    {start : ℕ} (hbuf : 0 < buf.length) (hstart : start < maxFileSize)
    (hempty : s.own i (Slot.ofLog (start / blockSize)) = 0) (hfull : s.Full) :
    ∃ ret t inode', ret < 0 ∧ (testfsWriteData i buf start).run s = .ok (ret, t) ∧
      Written i start buf inode s (some ret) 0 t inode' ∧ ∀ j, Others j s t := by
  have hi := hs.lt ht
  obtain ⟨failure, n, u, inode₁, hloop, hrun⟩ :=
    testfsWriteData_spec hs.core hs.reached ht (hs.extent_of_some ht) hstart buf
  have hw := hs.written ht hstart hloop
  have hstuck : FailsClean s i (start / blockSize) (start / blockSize) :=
    FailsClean.of_stuck (Or.inr ⟨hempty, hfull⟩)
  have hle := Nat.div_mul_le_self start blockSize
  cases hfail : failure with
  | none => exact absurd hstuck (hloop.room hfail hbuf _ (by omega))
  | some ret =>
    subst hfail
    rcases hloop.clean ret rfl with ⟨rfl, hown, hclean⟩ | ⟨-, hnot, -⟩
    swap
    · exact absurd hstuck (hnot _)
    obtain rfl : n = 0 := by
      rcases (hloop.short ret rfl).2 with hn | hdvd
      · exact hn
      · have hdiv := Nat.div_mul_cancel hdvd
        rw [hclean.unique hstuck] at hdiv
        omega
    have hneg : ret < 0 := by
      rcases hloop.error ret rfl with ⟨rfl, -⟩ | ⟨rfl, -⟩
      · decide
      · decide
    have hsame : inode₁.finishWrite start (some ret) 0 = inode₁ := by
      rw [Inode.finishWrite_some, Inode.din_finishWrite, if_pos rfl]
      rfl
    rw [hsame] at hrun hw
    have hothers := hw.others
    have htown : (u.setInode i (some inode₁)).own i = s.own i := by
      rw [← hown]
      exact own_congr (by rw [dinode_setInode_self, dinode_of_some hloop.inMemory]; rfl) fun _ _ _ ↦
        rfl
    refine ⟨ret, _, inode₁, hneg, by rw [Option.getD_some] at hrun; exact hrun, hw, fun j ↦ ?_⟩
    refine ⟨fun k _ ↦ ?_, fun k hk _ ↦ ?_, fun k hk _ ↦ ?_, fun k hk _ ↦ ?_, hothers.maxFsBlocks,
      hothers.allocFailed⟩
    · by_cases hki : k = i
      · rw [hki, inodeHashTable_setInode_self, ht]
      · exact hothers.table k hki
    · by_cases hki : k = i
      · rw [hki]
        exact hw.disk
      · exact hothers.disk k hk hki
    · by_cases hki : k = i
      · rw [hki]
        exact htown
      · exact hothers.own k hk hki
    · by_cases hki : k = i
      · rw [hki]
        funext o
        rw [hw.content, if_neg (by omega)]
      · exact hothers.content k hk hki

/-- Bytes that are stored through blocks in use need no room. -/
theorem missing_eq_zero {off len : ℕ} (h : ∀ o, off ≤ o → o < off + len →
    s.own i (Slot.ofLog (o / blockSize)) ≠ 0) : s.missing i (writeSlots off len) = 0 := by
  rw [FsState.missing, Finset.card_eq_zero, Finset.filter_eq_empty_iff]
  intro σ hσ
  obtain ⟨o, ho, hpath⟩ := Finset.mem_biUnion.mp hσ
  rw [Finset.mem_Ico] at ho
  exact own_path s i (h o ho.1 ho.2) hpath

theorem Slot.card_path_le (σ : Slot) : σ.path.card ≤ 3 := by
  cases σ with
  | direct k => exact (Finset.card_singleton _).le.trans (by decide)
  | indirect => exact (Finset.card_singleton _).le.trans (by decide)
  | dindirect => exact (Finset.card_singleton _).le.trans (by decide)
  | indirectEntry k => exact Finset.card_le_two.trans (by decide)
  | dindirectEntry k => exact Finset.card_le_two.trans (by decide)
  | leafEntry k e => exact Finset.card_le_three

/-- A block needs at most two index blocks. -/
theorem missing_writeSlots_le (s : FsState) (i off len : ℕ) :
    s.missing i (writeSlots off len) ≤ (len / blockSize + 2) * 3 := by
  have hsubset :
      writeSlots off len ⊆ (Finset.Icc (off / blockSize) ((off + len) / blockSize)).biUnion
      fun l ↦ (Slot.ofLog l).path := by
    intro σ hσ
    obtain ⟨o, ho, hpath⟩ := Finset.mem_biUnion.mp hσ
    rw [Finset.mem_Ico] at ho
    refine Finset.mem_biUnion.mpr ⟨o / blockSize, Finset.mem_Icc.mpr ⟨?_, ?_⟩, hpath⟩
    · exact Nat.div_le_div_right ho.1
    · exact Nat.div_le_div_right ho.2.le
  have hcard := Finset.card_biUnion_le_card_mul
    (Finset.Icc (off / blockSize) ((off + len) / blockSize))
    (fun l ↦ (Slot.ofLog l).path) 3 fun l _ ↦ (Slot.ofLog l).card_path_le
  have hcount : (Finset.Icc (off / blockSize) ((off + len) / blockSize)).card ≤
      len / blockSize + 2 := by
    rw [Nat.card_Icc]
    simp only [blockSize]
    omega
  calc s.missing i (writeSlots off len) ≤ (writeSlots off len).card := Finset.card_filter_le _ _
    _ ≤ _ := Finset.card_le_card hsubset
    _ ≤ _ := hcard
    _ ≤ (len / blockSize + 2) * 3 := Nat.mul_le_mul_right 3 hcount

end Write

/-! ### One block at most -/

section One

variable {s : FsState}

theorem Slot.eq_ofLog_zero {σ : Slot} (h : σ.first = 0) : σ = Slot.ofLog 0 := by
  cases σ with
  | direct k => exact congrArg Slot.direct (Fin.ext h)
  | indirect => exact absurd h (by decide)
  | dindirect => exact absurd h (by decide)
  | indirectEntry k =>
    simp only [Slot.first, nrDirectBlocks] at h
    omega
  | dindirectEntry k =>
    simp only [Slot.first, nrDirectBlocks] at h
    omega
  | leafEntry k l =>
    simp only [Slot.first, nrDirectBlocks] at h
    omega

/-- The block that an allocated bit stands for is owned. -/
theorem Sound.own_of_bit (h : Sound s) {idx : ℕ} (hidx : idx < nrDataBlocks)
    (hset : s.blockFreemap.bit idx = true) :
    ∃ i < nrInodes, ∃ σ, s.own i σ = (firstDataBlock + idx : ℕ) ∧ s.own i σ ≠ 0 := by
  have huse : InUse s.blockFreemap (firstDataBlock + idx : ℕ) := ⟨idx, hidx, rfl, hset⟩
  obtain ⟨i, hi, σ, hσ⟩ := (h.core.ledger.taken_iff _ huse.ne_zero).mp huse
  exact ⟨i, hi, σ, hσ, by rw [hσ]; exact huse.ne_zero⟩

/-- If no block but one is owned, no more than one is in use. -/
theorem Sound.used_le_one (h : Sound s) {r : ℤ}
    (hown : ∀ i < nrInodes, ∀ σ, s.own i σ ≠ 0 → s.own i σ = r) : s.sb.usedBlockCount ≤ 1 := by
  rw [h.core.used]
  refine Finset.card_le_one.mpr fun a ha b hb ↦ ?_
  rw [Bitmap.mem_allocated, h.core.layout.blockBits] at ha hb
  obtain ⟨i, hi, σ, hσ, hne⟩ := h.own_of_bit ha.1 ha.2
  obtain ⟨j, hj, τ, hτ, hne'⟩ := h.own_of_bit hb.1 hb.2
  have heq := (hσ.symm.trans (hown i hi σ hne)).trans ((hown j hj τ hne').symm.trans hτ)
  omega

/-- If only the root owns blocks and has less than a block of records, no more than one is in use.
-/
theorem Sound.used_le_one_of_root (h : Sound s)
    (hothers : ∀ i < nrInodes, i ≠ 0 → s.own i = fun _ ↦ 0)
    (hsize : (s.dinode 0).iSize < blockSize) : s.sb.usedBlockCount ≤ 1 := by
  refine h.used_le_one (r := s.own 0 (Slot.ofLog 0)) fun i hi σ hσ ↦ ?_
  by_cases hi0 : i = 0
  · subst hi0
    have hwithin := (h.extent 0 hi).within σ hσ
    have hfirst : σ.first = 0 := by
      simp only [blockSize] at hwithin hsize
      omega
    rw [Slot.eq_ofLog_zero hfirst]
  · rw [hothers i hi hi0] at hσ
    exact absurd rfl hσ

end One

end OperatingSystems.Fs
