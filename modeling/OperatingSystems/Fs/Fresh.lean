import OperatingSystems.Fs.Mount

/-!
# The file system that `mktestfs` makes

`mktestfs` writes an empty file system, mounts it, makes the root directory and closes it. The
root directory takes one data block: without any, it is removed again and there is no inode at
all. `freshFs_spec` describes the file system that the first `testfs` on the device mounts.
-/

set_option autoImplicit false
set_option relaxedAutoImplicit false

namespace OperatingSystems.Fs

open Library

/-! ### The blocks of an empty file system -/

theorem Device.write_succ (dev : Device) (start nr : ℕ) :
    (dev.write (fun _ ↦ Block.zero) start nr).write (fun _ ↦ Block.zero) (start + nr) 1 =
      dev.write (fun _ ↦ Block.zero) start (nr + 1) := by
  simp only [Device.write, Device.mk.injEq]
  constructor
  · by_cases hnr : nr = 0
    · simp [hnr]
    · rw [if_neg one_ne_zero, if_neg hnr, if_neg (Nat.succ_ne_zero nr)]
      omega
  · funext b
    by_cases hlast : start + nr ≤ b ∧ b < start + nr + 1
    · rw [if_pos hlast, if_pos (by omega)]
    · rw [if_neg hlast]
      by_cases hin : start ≤ b ∧ b < start + nr
      · rw [if_pos hin, if_pos (by omega)]
      · rw [if_neg hin, if_neg (by omega)]

theorem zeroBlocks_many_run (start nr : ℕ) (s : FsState) : (zeroBlocks start nr).run s =
    .ok ((), { s with dev := s.dev.write (fun _ ↦ Block.zero) start nr }) := by
  induction nr with
  | zero =>
    have hsame : s.dev.write (fun _ ↦ Block.zero) start 0 = s.dev := by
      rw [Device.write, if_pos rfl]
      congr 1
      funext b
      exact if_neg (by omega)
    rw [hsame]
    rfl
  | succ nr ih =>
    rw [zeroBlocks, Program.run_bind ih]
    have hcast : (start : ℤ) + nr = ((start + nr : ℕ) : ℤ) := (Nat.cast_add _ _).symm
    rw [hcast, writeBlocks_many_run, Device.write_succ]

/-- The blocks that `mktestfs` has written when it mounts the device. -/
theorem testfsMakeBlocks_run (maxFsBlocks : ℕ) :
    ∃ dev, testfsMakeBlocks.run (testfsMakeSuperBlock maxFsBlocks) =
        .ok ((), { testfsMakeSuperBlock maxFsBlocks with dev := dev }) ∧
      dev.len = firstDataBlock ∧
      dev.blocks 0 = encodeSuper (testfsMakeSuperBlock maxFsBlocks).sb ∧
      ∀ b, b ≠ 0 → dev.blocks b = Block.zero := by
  obtain ⟨s, hs⟩ : ∃ s, s = testfsMakeSuperBlock maxFsBlocks := ⟨_, rfl⟩
  have hblocks : ∀ b, s.dev.blocks b = Block.zero := fun b ↦ by rw [hs]; rfl
  have hkeep : ∀ (d : Device) (start nr : ℕ), (∀ b, b ≠ 0 → d.blocks b = Block.zero) →
      ∀ b, b ≠ 0 → (d.write (fun _ ↦ Block.zero) start nr).blocks b = Block.zero := by
    intro d start nr hd b hb
    rw [Device.write]
    simp only
    split_ifs
    · rfl
    · exact hd b hb
  have hput : ∀ (d : Device) (block : Block), (∀ b, b ≠ 0 → d.blocks b = Block.zero) →
      ∀ b, b ≠ 0 → (d.put 0 block).blocks b = Block.zero :=
    fun d block hd b hb ↦ by rw [Device.blocks_put_of_ne _ _ hb, hd b hb]
  rw [← hs, testfsMakeBlocks, Program.run_bind (testfsWriteSuperBlock_run s), Program.gets_bind_run,
    Program.run_bind (zeroBlocks_many_run _ _ _), Program.run_bind (zeroBlocks_many_run _ _ _),
    Program.run_bind (zeroBlocks_many_run _ _ _), testfsWriteSuperBlock_run]
  refine ⟨_, rfl, ?_, Device.blocks_put_self _ _ _, ?_⟩
  · rw [hs]
    rfl
  · exact hput _ _ (hkeep _ _ _ (hkeep _ _ _ (hkeep _ _ _ (hput _ _ fun b _ ↦ hblocks b))))

/-! ### The empty file system is sound -/

theorem decodeDinode_zero : decodeDinode (fun _ ↦ 0) = Dinode.zero := by
  simp [decodeDinode, Dinode.zero]

theorem wordBit_zero (k : ℕ) : wordBit 0 k = false := by
  simp [wordBit]

section Empty

variable {s : FsState}

/-- A file system in which nothing is allocated. -/
structure Empty (s : FsState) : Prop where
  layout : Layout s
  blocks : ∀ b, firstInodeBlock ≤ b → s.dev.blocks b = Block.zero
  blockBits : ∀ idx, idx < nrDataBlocks → s.blockFreemap.bit idx = false
  inodeBits : s.inodeFreemap.allocated = ∅
  usedBlocks : s.sb.usedBlockCount = 0
  usedInodes : s.sb.usedInodeCount = 0
  table : ∀ i, s.inodeHashTable i = none
  flag : s.allocFailed = false

theorem Empty.dinode (h : Empty s) (i : ℕ) : s.dinode i = Dinode.zero := by
  have hblock : s.dev.blocks (s.sb.inodeBlocksStart + i / inodesPerBlock) = Block.zero := by
    rw [h.layout.inodeBlocksStart]
    exact h.blocks _ (Nat.le_add_right _ _)
  rw [dinode_of_none (h.table i), FsState.diskDinode, hblock, ← decodeDinode_zero]
  exact decodeDinode_congr fun j _ ↦ Block.byte_zero _

theorem Empty.own (h : Empty s) (i : ℕ) : s.own i = fun _ ↦ 0 := by
  funext σ
  rw [FsState.own, h.dinode i, slotVal_zero]

theorem Empty.sound (h : Empty s) : Sound s := by
  have hallocated : s.blockFreemap.allocated = ∅ := by
    rw [Finset.eq_empty_iff_forall_notMem]
    intro idx hidx
    rw [Bitmap.mem_allocated, h.layout.blockBits] at hidx
    rw [h.blockBits idx hidx.1] at hidx
    exact absurd hidx.2 (by decide)
  have hnone : ∀ r, ¬ InUse s.blockFreemap r := by
    rintro r ⟨idx, hidx, -, hset⟩
    rw [h.blockBits idx hidx] at hset
    exact absurd hset (by decide)
  refine ⟨⟨h.layout, ⟨?_, ?_, ?_⟩, ?_, ?_, ?_, ?_⟩, ?_, ?_, ?_, ?_, ?_⟩
  · intro i _ j _ σ τ hne
    rw [h.own i] at hne
    exact absurd rfl hne
  · intro r hr
    refine ⟨fun huse ↦ (hnone r huse).elim, ?_⟩
    rintro ⟨i, -, σ, hσ⟩
    rw [h.own i] at hσ
    exact absurd hσ.symm hr
  · intro i _
    have hheld : heldSlots (s.own i) = ∅ := by
      rw [Finset.eq_empty_iff_forall_notMem, h.own i]
      intro σ hσ
      exact mem_heldSlots.mp hσ rfl
    rw [h.dinode i, hheld, Finset.card_empty]
    rfl
  · rw [hallocated, h.usedBlocks, Finset.card_empty]
  · rw [h.usedBlocks]
    exact Nat.zero_le _
  · exact fun idx _ _ ↦ h.blocks _ (le_trans (by decide : firstInodeBlock ≤ firstDataBlock)
      (Nat.le_add_right _ _))
  · intro i inode hi
    rw [h.table i] at hi
    exact absurd hi (by simp)
  · intro idx hidx hset
    rw [h.blockBits idx hidx] at hset
    exact absurd hset (by decide)
  · intro i _
    rw [h.own i, h.dinode i]
    exact ⟨le_rfl, Int.natCast_nonneg _, fun σ hσ ↦ absurd rfl hσ, fun hpos ↦
      absurd hpos (lt_irrefl _)⟩
  · intro i inode hi
    rw [h.table i] at hi
    exact absurd hi (by simp)
  · intro i inode hi
    rw [h.table i] at hi
    exact absurd hi (by simp)
  · rw [h.usedInodes, h.inodeBits, Finset.card_empty]

end Empty

/-! ### The root directory -/

/-- A file system of which no inode owns a block is full only if it has no data blocks. -/
theorem Sound.max_of_full {s : FsState} (h : Sound s) (hown : ∀ i < nrInodes, s.own i = fun _ ↦ 0)
    (hfull : s.Full) : s.sb.maxFsBlocks = 0 := by
  have hclear : ∀ idx < nrDataBlocks, s.blockFreemap.bit idx = false := by
    intro idx hidx
    by_contra hset
    have huse : InUse s.blockFreemap (firstDataBlock + idx : ℕ) :=
      ⟨idx, hidx, rfl, by simpa using hset⟩
    obtain ⟨i, hi, σ, hσ⟩ := (h.core.ledger.taken_iff _ huse.ne_zero).mp huse
    rw [hown i hi] at hσ
    exact huse.ne_zero hσ.symm
  have hused : s.sb.usedBlockCount = 0 := by
    rw [h.core.used, Finset.card_eq_zero, Finset.eq_empty_iff_forall_notMem]
    intro idx hidx
    rw [Bitmap.mem_allocated, h.core.layout.blockBits] at hidx
    rw [hclear idx hidx.1] at hidx
    exact absurd hidx.2 (by decide)
  rcases hfull with hmax | hall
  · rw [hused] at hmax
    exact Nat.le_zero.mp hmax
  · have hbit := hall 0 (by decide)
    rw [hclear 0 (by decide)] at hbit
    exact absurd hbit (by decide)

/-- A new inode of type directory that was free has no records. -/
theorem Created.isDir {s t : FsState} {i : ℕ} {inode : Inode} (h : Created .dir s t i inode)
    (hzero : s.dinode i = Dinode.zero) : IsDir t i [] := by
  have hdin : t.dinode i = { Dinode.zero with iType := InodeType.dir.code } := by
    rw [dinode_of_some h.inMemory, h.inode, hzero]
  refine ⟨by rw [hdin], by rw [hdin]; rfl, rfl⟩

/-- What `mktestfs` has made when it closes the file system: a root directory, or nothing. -/
structure HasRoot (s : FsState) : Prop where
  sound : Sound s
  table : ∀ i, s.inodeHashTable i = none
  free : ∀ i < nrInodes, i ≠ 0 → s.dinode i = Dinode.zero
  cases : s.inodeFreemap.allocated = {0} ∧ IsDir s 0 (emptyDir 0 0 (by decide) (by decide)) ∧
      s.allocFailed = false ∨
    s.inodeFreemap.allocated = ∅ ∧ s.dinode 0 = Dinode.zero ∧ s.sb.maxFsBlocks = 0 ∧
      s.allocFailed = true

/-- `testfs_make_root_dir` in an empty file system. -/
theorem testfsMakeRootDir_run {s : FsState} (h : Empty s) :
    ∃ ret t, testfsMakeRootDir.run s = .ok (ret, t) ∧ HasRoot t ∧
      t.sb.maxFsBlocks = s.sb.maxFsBlocks := by
  have hzero : (0 : ℕ) < nrInodes := by decide
  have hbit : s.inodeFreemap.bit 0 = false := by
    by_contra hset
    have hmem : 0 ∈ s.inodeFreemap.allocated := by
      rw [Bitmap.mem_allocated, h.layout.inodeBits]
      exact ⟨by decide, by simpa using hset⟩
    rw [h.inodeBits] at hmem
    exact absurd hmem (by simp)
  rw [testfsMakeRootDir, testfsCreateFileOrDir, nameExists, Program.pure_bind_run]
  simp only [Bool.false_eq_true, if_false]
  rcases h.sound.create .dir with ⟨i, u, inode, hcreate, hcreated⟩ | ⟨t, hcreate, hnot⟩
  swap
  · rw [hnot.full 0 hzero] at hbit
    exact absurd hbit (by decide)
  obtain rfl : i = 0 := by
    by_contra hne
    rw [hcreated.least 0 (Nat.pos_of_ne_zero hne)] at hbit
    exact absurd hbit (by decide)
  have hinode : inode = ⟨{ Dinode.zero with iType := InodeType.dir.code }, true, 1⟩ := by
    rw [hcreated.inode, h.dinode 0, h.table 0]
    rfl
  have hisDir : IsDir u 0 [] := hcreated.isDir (h.dinode 0)
  have hempty : ∀ j < nrInodes, j ≠ 0 → u.dinode j = Dinode.zero := fun j hj hne ↦ by
    rw [hcreated.others.dinode hj hne, h.dinode j]
  obtain ⟨failure, v, inode', hfill, hworked, hdone, hfailed⟩ :=
    testfsCreateEmptyDir_run hcreated.sound hcreated.inMemory hisDir hzero hzero
  have hcount : inode'.iCount = 1 := by rw [hworked.iCount, hinode]
  have hmap : v.inodeFreemap.allocated = {0} := by
    rw [hworked.inodeFreemap, hcreated.inodeFreemap, Bitmap.allocated_put_true, h.inodeBits]
    · rfl
    · rw [h.layout.inodeBits]
      decide
  have hnone : ∀ j, j ≠ 0 → v.inodeHashTable j = none := fun j hj ↦ by
    rw [hworked.others.table j hj, hcreated.others.table j hj, h.table j]
  have hfree : ∀ j < nrInodes, j ≠ 0 → v.dinode j = Dinode.zero := fun j hj hne ↦ by
    rw [hworked.others.dinode hj hne, hempty j hj hne]
  have hmax : v.sb.maxFsBlocks = s.sb.maxFsBlocks :=
    hworked.others.maxFsBlocks.trans hcreated.others.maxFsBlocks
  have hfillRun : (fillNewInode none .dir 0).run u = .ok (failure.getD 0, v) := hfill
  cases failure with
  | none =>
    obtain ⟨hdir, hdirty, hkept⟩ := hdone rfl
    obtain ⟨_, t, hsync, hput, hdropped⟩ := hworked.sound.syncPut hworked.inMemory hdirty
    refine ⟨0, t, ?_, ⟨hdropped.sound, ?_, ?_, Or.inl ⟨?_, ?_, ?_⟩⟩, ?_⟩
    · refine (Program.run_bind hcreate).trans ?_
      rw [if_neg (by decide)]
      refine (Program.run_bind hfillRun).trans ?_
      rw [Option.getD_none, if_neg (by decide), enterNewInode, Program.pure_bind_run,
        if_neg (by decide), Program.run_bind hsync, Program.run_bind hput, Program.pure_run]
    · intro j
      by_cases hj : j = 0
      · rw [hj, hdropped.inMemory, hcount]
        rfl
      · rw [hdropped.others.table j hj, hnone j hj]
    · exact fun j hj hne ↦ by rw [hdropped.dinode j hj, hfree j hj hne]
    · rw [hdropped.inodeFreemap, hmap]
    · refine hdir.congr (hdropped.dinode 0 hzero) (hdropped.content 0 hzero)
    · rw [hdropped.allocFailed, hkept, hcreated.allocFailed, h.flag]
    · rw [hdropped.others.maxFsBlocks, hmax]
  | some ret =>
    obtain ⟨hneg, hflag, hfull⟩ := hfailed ret rfl
    have hset : v.inodeFreemap.bit 0 = true := by
      have hmem : 0 ∈ v.inodeFreemap.allocated := by rw [hmap]; exact Finset.mem_singleton_self 0
      exact (Bitmap.mem_allocated.mp hmem).2
    obtain ⟨t, hremove, hremoved⟩ := hworked.sound.remove hworked.inMemory hset
    refine ⟨ret, t, ?_, ⟨hremoved.sound, ?_, ?_, Or.inr ⟨?_, hremoved.dinode, ?_, ?_⟩⟩, ?_⟩
    · refine (Program.run_bind hcreate).trans ?_
      rw [if_neg (by decide)]
      refine (Program.run_bind hfillRun).trans ?_
      rw [Option.getD_some, if_pos hneg, Program.run_bind hremove, Program.pure_run]
    · intro j
      by_cases hj : j = 0
      · rw [hj, hremoved.inMemory, hcount]
        rfl
      · rw [hremoved.others.table j hj, hnone j hj]
    · exact fun j hj hne ↦ by rw [hremoved.others.dinode hj hne, hfree j hj hne]
    · rw [hremoved.inodeFreemap, Bitmap.allocated_put_false, hmap]
      rfl
    · rw [hremoved.others.maxFsBlocks, hworked.others.maxFsBlocks]
      refine hcreated.sound.max_of_full (fun i hi ↦ ?_) hfull
      funext σ
      by_cases hi0 : i = 0
      · rw [hi0, hcreated.own, h.own 0]
      · rw [FsState.own, hempty i hi hi0, slotVal_zero]
    · rw [hremoved.allocFailed, hflag]
    · rw [hremoved.others.maxFsBlocks, hmax]

/-! ### `mktestfs` and the first mount -/

/-- The super block of a new file system fits its place on disk. -/
theorem testfsMakeSuperBlock_fits {maxFsBlocks : ℕ} (hmax : maxFsBlocks ≤ nrDataBlocks) :
    (testfsMakeSuperBlock maxFsBlocks).sb.Fits :=
  DsuperBlock.fits_of_le rfl rfl rfl rfl (Nat.zero_le _) (Nat.zero_le _) hmax

/-- Nothing is allocated when `mktestfs` mounts the blocks it has written. -/
theorem empty_mounted {s : FsState} {sb : DsuperBlock} (hlen : firstDataBlock ≤ s.dev.len)
    (hblocks : ∀ b, b ≠ 0 → s.dev.blocks b = Block.zero)
    (hsb : sb = (testfsMakeSuperBlock sb.maxFsBlocks).sb) (hflag : s.allocFailed = false) :
    Empty (s.mounted sb) := by
  have hbit : ∀ (nbits start idx : ℕ), start ≠ 0 →
      (loadFreemap nbits fun k ↦ s.dev.blocks (start + k)).bit idx = false := by
    intro nbits start idx hstart
    rw [bit_loadFreemap, hblocks _ (by rw [ne_eq, Nat.add_eq_zero_iff]; exact fun h ↦ hstart h.1),
      Block.byte_zero, wordBit_zero]
  have hinode : sb.inodeFreemapStart = superBlockSize := by rw [hsb]; rfl
  have hblock : sb.blockFreemapStart = superBlockSize + inodeFreemapSize := by rw [hsb]; rfl
  refine ⟨⟨hinode, hblock, by rw [hsb]; rfl, by rw [hsb]; rfl, rfl, rfl, hlen⟩, ?_, ?_, ?_,
    by rw [hsb]; rfl, by rw [hsb]; rfl, fun _ ↦ rfl, hflag⟩
  · exact fun b hb ↦ hblocks b (Nat.pos_iff_ne_zero.mp (lt_of_lt_of_le (by decide) hb))
  · intro idx _
    rw [blockFreemap_mounted]
    exact hbit _ _ idx (by rw [hblock]; decide)
  · rw [Finset.eq_empty_iff_forall_notMem]
    intro idx hidx
    rw [Bitmap.mem_allocated, inodeFreemap_mounted, hbit _ _ idx (by rw [hinode]; decide)] at hidx
    exact absurd hidx.2 (by decide)

/-- The parts of `mktestfs`. -/
theorem mktestfs_run {s₀ s₁ s₂ s₃ s₄ : FsState} {ret : ℤ}
    (hmake : testfsMakeBlocks.run s₀ = .ok ((), s₁))
    (hinit : testfsInitSuperBlock.run s₁ = .ok ((), s₂))
    (hroot : testfsMakeRootDir.run s₂ = .ok (ret, s₃))
    (hclose : testfsCloseSuperBlock.run s₃ = .ok ((), s₄)) : mktestfs.run s₀ = .ok ((), s₄) := by
  rw [mktestfs, Program.run_bind hmake, Program.run_bind hinit, Program.run_bind hroot, hclose]

/-- `mktestfs` and `testfs_init_super_block` on the file system it made. -/
theorem mktestfs_spec {maxFsBlocks : ℕ} (hmax : maxFsBlocks ≤ nrDataBlocks) :
    ∃ s u t, mktestfs.run (testfsMakeSuperBlock maxFsBlocks) = .ok ((), u) ∧
      testfsInitSuperBlock.run u = .ok ((), t) ∧ HasRoot s ∧ s.sb.maxFsBlocks = maxFsBlocks ∧
      Remounted s t := by
  obtain ⟨dev, hmake, hlen, hsuper, hblocks⟩ := testfsMakeBlocks_run maxFsBlocks
  obtain ⟨s₁, hs₁⟩ : ∃ s₁, s₁ = { testfsMakeSuperBlock maxFsBlocks with dev := dev } := ⟨_, rfl⟩
  obtain ⟨sb, hsb⟩ : ∃ sb, sb = (testfsMakeSuperBlock maxFsBlocks).sb := ⟨_, rfl⟩
  have hsbmax : sb.maxFsBlocks = maxFsBlocks := by rw [hsb]; rfl
  have hinit : testfsInitSuperBlock.run s₁ = .ok ((), s₁.mounted sb) := by
    refine testfsInitSuperBlock_run (by rw [hs₁]; exact hlen.ge) (by rw [hs₁, hsb]; exact hsuper)
      ?_ ?_ ?_
    · rw [hsb]
      exact testfsMakeSuperBlock_fits hmax
    · rw [hsb]
      rfl
    · rw [hsb]
      rfl
  have hempty : Empty (s₁.mounted sb) :=
    empty_mounted (by rw [hs₁]; exact hlen.ge) (by rw [hs₁]; exact hblocks)
      (by rw [hsbmax]; exact hsb)
      (by rw [hs₁]; rfl)
  obtain ⟨ret, s₂, hroot, hhas, hsame⟩ := testfsMakeRootDir_run hempty
  have hmax₂ : s₂.sb.maxFsBlocks = maxFsBlocks := hsame.trans hsbmax
  obtain ⟨u, t, hclose, hmount, hre⟩ := hhas.sound.remount (by rw [hmax₂]; exact hmax) hhas.table
  rw [← hs₁] at hmake
  exact ⟨s₂, u, t, mktestfs_run hmake hinit hroot hclose, hmount, hhas, hmax₂, hre⟩

/-- The file system that the first `testfs` on a new device mounts: the root is in memory. -/
structure Fresh (maxFsBlocks : ℕ) (s : FsState) : Prop where
  sound : Sound s
  maxFsBlocks : s.sb.maxFsBlocks = maxFsBlocks
  table : ∀ i, i ≠ 0 → s.inodeHashTable i = none
  root : ∃ inode, s.inodeHashTable 0 = some inode ∧ inode.dirty = false ∧ inode.iCount = 1
  synced : s.dinode 0 = s.diskDinode 0
  free : ∀ i < nrInodes, i ≠ 0 → s.dinode i = Dinode.zero
  cases : s.inodeFreemap.allocated = {0} ∧ IsDir s 0 (emptyDir 0 0 (by decide) (by decide)) ∧
      s.allocFailed = false ∨
    s.inodeFreemap.allocated = ∅ ∧ s.dinode 0 = Dinode.zero ∧ s.sb.maxFsBlocks = 0 ∧
      s.allocFailed = true

/-- With a block for it the root has been made. -/
theorem Fresh.root_made {maxFsBlocks : ℕ} {s : FsState} (h : Fresh maxFsBlocks s)
    (hpos : 0 < maxFsBlocks) : s.inodeFreemap.allocated = {0} ∧
      IsDir s 0 (emptyDir 0 0 (by decide) (by decide)) ∧ s.allocFailed = false := by
  rcases h.cases with hmade | ⟨-, -, hnone, -⟩
  · exact hmade
  · rw [h.maxFsBlocks] at hnone
    exact absurd hnone hpos.ne'

/-- The inode after the root is free. -/
theorem Fresh.exists_free {maxFsBlocks : ℕ} {s : FsState} (h : Fresh maxFsBlocks s) :
    ∃ i < nrInodes, s.inodeFreemap.bit i = false := by
  have hone : (1 : ℕ) < nrInodes := by decide
  refine ⟨1, hone, Bool.eq_false_iff.mpr fun hset ↦ ?_⟩
  rw [h.sound.bit_iff hone] at hset
  rcases h.cases with ⟨hroot, -⟩ | ⟨hnone, -⟩
  · rw [hroot, Finset.mem_singleton] at hset
    exact absurd hset (by decide)
  · rw [hnone] at hset
    exact Finset.notMem_empty 1 hset

/-- `mktestfs` and the mount of the file system it made. -/
theorem freshFs_spec {maxFsBlocks : ℕ} (hmax : maxFsBlocks ≤ nrDataBlocks) :
    ∃ s, freshFs maxFsBlocks = .ok s ∧ Fresh maxFsBlocks s := by
  obtain ⟨s, u, v, hmk, hmount, hhas, hmaxs, hre⟩ := mktestfs_spec hmax
  have hzero : (0 : ℕ) < nrInodes := by decide
  obtain ⟨t, n, hget, ht, hsound, hdin, hcount, hclean⟩ := hre.sound.getInode hzero
  have htable : ∀ i, i ≠ 0 → t.inodeHashTable i = none := fun i hi ↦ by
    rw [ht, inodeHashTable_setInode_of_ne _ _ hi, hre.empty i]
  have hmem : t.inodeHashTable 0 = some n := by rw [ht, inodeHashTable_setInode_self]
  have hdinode : ∀ i < nrInodes, t.dinode i = s.dinode i := by
    intro i hi
    rw [← hre.dinode i hi]
    by_cases h0 : i = 0
    · rw [h0, dinode_of_some hmem, hdin]
    · rw [ht, dinode_setInode_of_ne _ _ h0]
  have hcontent : t.content 0 = s.content 0 := by
    have hsameFiles : SameFiles v t := by
      rw [ht]
      refine sameFiles_setInode hre.sound.core hzero ?_ ?_
      · rw [dinode_setInode_self, ← hdin]
        rfl
      · rw [dinode_setInode_self, ← hdin]
        rfl
    rw [hsameFiles.content hre.sound.core hzero, hre.content 0 hzero]
  have hmap : t.inodeFreemap.allocated = s.inodeFreemap.allocated := by
    rw [← hre.inodes, ht]
    rfl
  have hsb : t.sb.maxFsBlocks = s.sb.maxFsBlocks := by
    rw [ht]
    exact congrArg DsuperBlock.maxFsBlocks hre.sb
  have hrun : (do mktestfs; mount : FsProgram Unit).run (testfsMakeSuperBlock maxFsBlocks) =
      .ok ((), t) := by
    rw [Program.run_bind hmk, mount, Program.run_bind hmount, hget]
  refine ⟨t, by rw [freshFs, hrun]; rfl, hsound, hsb.trans hmaxs, htable, ⟨n, hmem, ?_, ?_⟩, ?_, ?_,
    ?_⟩
  · rw [hclean, hre.empty 0]
    rfl
  · rw [hcount, hre.empty 0]
    rfl
  · rw [dinode_of_some hmem, hdin, dinode_of_none (hre.empty 0), ht]
    rfl
  · exact fun i hi hne ↦ by rw [hdinode i hi, hhas.free i hi hne]
  · rw [hmap]
    refine hhas.cases.imp (fun hdir ↦ ⟨hdir.1, ?_, ?_⟩) fun hnone ↦ ⟨hnone.1, ?_, ?_, ?_⟩
    · exact hdir.2.1.congr (hdinode 0 hzero) hcontent
    · rw [ht]
      exact hre.allocFailed.trans hdir.2.2
    · rw [hdinode 0 hzero, hnone.2.1]
    · exact hsb.trans hnone.2.2.1
    · rw [ht]
      exact hre.allocFailed.trans hnone.2.2.2

end OperatingSystems.Fs
