import OperatingSystems.Fs.Fresh
import OperatingSystems.Fs.Room
import OperatingSystems.Library.Machine

/-!
# Runs of the inode layer

A run calls `testfs_create_inode`, `testfs_write_data`, `testfs_read_data` and
`testfs_remove_inode` in any order, the last three on inodes in memory, on a file system fresh
from `mktestfs`. `Tidy` holds in every state of such a run: next to `Sound`, a free inode owns
nothing, and an inode in memory is in use and referenced once, unless there are no data blocks at
all. Two theorems are read off it. `blocks_owned_once` is the block ownership invariant in terms
of the freemaps, and `files_refined` says that the calls act on files, which are a size and a
content, as a file system should.
-/

set_option autoImplicit false
set_option relaxedAutoImplicit false

namespace OperatingSystems.Fs

open Library Library.Machine

/-! ### Calls -/

/-- A call of a function of the inode layer. -/
inductive InodeOp
  | create (type : InodeType)
  | write (i : ℕ) (buf : List UInt8) (start : ℕ)
  | read (i : ℕ) (start : ℤ) (size : ℕ)
  | remove (i : ℕ)

namespace InodeOp

/-- The call without its result. -/
def call : InodeOp → FsProgram Unit
  | .create type => do let _ ← testfsCreateInode type
  | .write i buf start => do let _ ← testfsWriteData i buf start
  | .read i start size => do let _ ← testfsReadData i start size
  | .remove i => testfsRemoveInode i

/-- The inode of the call is in memory. -/
def InMemory (s : FsState) : InodeOp → Prop
  | .create _ => True
  | .write i _ _ => (s.inodeHashTable i).isSome
  | .read i _ _ => (s.inodeHashTable i).isSome
  | .remove i => (s.inodeHashTable i).isSome

/-- The state in which the call returns, if it does. -/
def step (s : FsState) (op : InodeOp) : Option FsState := (op.call.run s).toOption.map Prod.snd

theorem step_eq_some_iff {s t : FsState} {op : InodeOp} :
    step s op = some t ↔ op.call.run s = .ok ((), t) := by
  rw [step]
  cases op.call.run s with
  | ok result => simp [Except.toOption, Prod.ext_iff]
  | error e => simp [Except.toOption]

end InodeOp

/-! ### The invariant of a run -/

/-- Next to `Sound`: inode numbers in use are numbers of inodes, a free inode owns nothing, and an
inode in memory is in use and referenced once, unless there are no data blocks. -/
structure Tidy (maxFsBlocks : ℕ) (s : FsState) : Prop where
  sound : Sound s
  limit : s.sb.maxFsBlocks = maxFsBlocks
  inodes : ∀ i ∈ s.inodeFreemap.allocated, i < nrInodes
  free : ∀ i < nrInodes, i ∉ s.inodeFreemap.allocated → s.own i = fun _ ↦ 0
  inMemory : maxFsBlocks = 0 ∨ ∀ i inode, s.inodeHashTable i = some inode →
    i ∈ s.inodeFreemap.allocated ∧ inode.iCount = 1

section Tidy

variable {s t : FsState} {i maxFsBlocks : ℕ} {inode : Inode}

/-- Without data blocks no inode owns anything. -/
theorem Sound.own_of_noBlocks (h : Sound s) (hmax : s.sb.maxFsBlocks = 0) (hi : i < nrInodes) :
    s.own i = fun _ ↦ 0 := by
  funext σ
  by_contra hne
  obtain ⟨idx, hidx, -, hset⟩ := h.core.inUse hi hne
  have hmem : idx ∈ s.blockFreemap.allocated := by
    rw [Bitmap.mem_allocated, h.core.layout.blockBits]
    exact ⟨hidx, hset⟩
  have hpos := Finset.card_pos.mpr ⟨idx, hmem⟩
  have hlimit := h.core.limit
  rw [h.core.used, hmax] at hlimit
  omega

/-- A file system fresh from `mktestfs`. -/
theorem Fresh.tidy (h : Fresh maxFsBlocks s) : Tidy maxFsBlocks s := by
  have hzero : (0 : ℕ) < nrInodes := by decide
  refine ⟨h.sound, h.maxFsBlocks, ?_, ?_, ?_⟩
  · intro i hi
    rcases h.cases with ⟨hroot, -⟩ | ⟨hnone, -⟩
    · rw [hroot, Finset.mem_singleton] at hi
      exact hi ▸ hzero
    · rw [hnone] at hi
      exact absurd hi (Finset.notMem_empty i)
  · intro i hi hfree
    funext σ
    by_cases h0 : i = 0
    · subst h0
      rcases h.cases with ⟨hroot, -⟩ | ⟨-, hdin, -⟩
      · rw [hroot] at hfree
        exact absurd (Finset.mem_singleton_self 0) hfree
      · rw [FsState.own, hdin, slotVal_zero]
    · rw [FsState.own, h.free i hi h0, slotVal_zero]
  · rcases h.cases with ⟨hroot, -⟩ | ⟨-, -, hmax, -⟩
    · refine Or.inr fun i inode hi ↦ ?_
      obtain ⟨root, hmem, -, hcount⟩ := h.root
      by_cases h0 : i = 0
      · subst h0
        rw [hmem, Option.some.injEq] at hi
        exact ⟨by rw [hroot]; exact Finset.mem_singleton_self 0, hi ▸ hcount⟩
      · rw [h.table i h0] at hi
        exact absurd hi (by simp)
    · exact Or.inl (h.maxFsBlocks.symm.trans hmax)

/-- Writing keeps the invariant. -/
theorem Tidy.written (h : Tidy maxFsBlocks s) {start n : ℕ} {buf : List UInt8} {failure : Option ℤ}
    {inode' : Inode} (ht : s.inodeHashTable i = some inode)
    (hw : Written i start buf inode s failure n t inode') : Tidy maxFsBlocks t := by
  refine ⟨hw.sound, hw.others.maxFsBlocks.trans h.limit, ?_, ?_, ?_⟩
  · rw [hw.inodeFreemap]
    exact h.inodes
  · intro j hj hfree
    rw [hw.inodeFreemap] at hfree
    by_cases hji : j = i
    · rcases h.inMemory with hmax | hmem
      · exact hw.sound.own_of_noBlocks (hw.others.maxFsBlocks.trans (h.limit.trans hmax)) hj
      · exact absurd (hji ▸ (hmem i inode ht).1) hfree
    · rw [hw.others.own j hj hji, h.free j hj hfree]
  · rw [hw.inodeFreemap]
    refine h.inMemory.imp_right fun hmem j m hm ↦ ?_
    by_cases hji : j = i
    · subst hji
      rw [hw.inMemory, Option.some.injEq] at hm
      obtain ⟨hbit, hcount⟩ := hmem j inode ht
      exact ⟨hbit, by rw [← hm, hw.iCount, hcount]⟩
    · rw [hw.others.table j hji] at hm
      exact hmem j m hm

/-- A new inode keeps the invariant. -/
theorem Tidy.created (h : Tidy maxFsBlocks s) {type : InodeType} {inode' : Inode}
    (hc : Created type s t i inode') : Tidy maxFsBlocks t := by
  have hbits : i < s.inodeFreemap.nbits := by
    rw [h.sound.core.layout.inodeBits]
    exact lt_of_lt_of_le hc.lt (by decide)
  have hmap : t.inodeFreemap.allocated = insert i s.inodeFreemap.allocated := by
    rw [hc.inodeFreemap, Bitmap.allocated_put_true hbits]
  have hnot : i ∉ s.inodeFreemap.allocated := by
    rw [← h.sound.bit_iff hc.lt, hc.clear]
    exact Bool.false_ne_true
  refine ⟨hc.sound, hc.others.maxFsBlocks.trans h.limit, ?_, ?_, ?_⟩
  · intro j hj
    rw [hmap, Finset.mem_insert] at hj
    exact hj.elim (fun hji ↦ hji ▸ hc.lt) (h.inodes j)
  · intro j hj hfree
    rw [hmap, Finset.mem_insert, not_or] at hfree
    rw [hc.others.own j hj hfree.1, h.free j hj hfree.2]
  · rw [hmap]
    refine h.inMemory.imp_right fun hmem j m hm ↦ ?_
    by_cases hji : j = i
    · subst hji
      rw [hc.inMemory, Option.some.injEq] at hm
      have hnone : s.inodeHashTable j = none := by
        cases htable : s.inodeHashTable j with
        | none => rfl
        | some m => exact absurd (hmem j m htable).1 hnot
      refine ⟨Finset.mem_insert_self _ _, ?_⟩
      rw [← hm, hc.inode, hnone]
      rfl
    · rw [hc.others.table j hji] at hm
      exact ⟨Finset.mem_insert_of_mem (hmem j m hm).1, (hmem j m hm).2⟩

/-- The invariant when no inode number was found. -/
theorem Tidy.notCreated (h : Tidy maxFsBlocks s) (hn : NotCreated s t) : Tidy maxFsBlocks t := by
  refine ⟨hn.sound, (hn.others 0).maxFsBlocks.trans h.limit, ?_, ?_, ?_⟩
  · rw [hn.inodeFreemap]
    exact h.inodes
  · intro j hj hfree
    rw [hn.inodeFreemap] at hfree
    rw [(hn.others (j + 1)).own j hj (by omega), h.free j hj hfree]
  · rw [hn.inodeFreemap]
    refine h.inMemory.imp_right fun hmem j m hm ↦ ?_
    rw [(hn.others (j + 1)).table j (by omega)] at hm
    exact hmem j m hm

/-- Removing an inode keeps the invariant. -/
theorem Tidy.removed (h : Tidy maxFsBlocks s) (ht : s.inodeHashTable i = some inode)
    (hr : Removed i inode s t) : Tidy maxFsBlocks t := by
  have hmap : t.inodeFreemap.allocated = s.inodeFreemap.allocated.erase i := by
    rw [hr.inodeFreemap, Bitmap.allocated_put_false]
  refine ⟨hr.sound, hr.others.maxFsBlocks.trans h.limit, ?_, ?_, ?_⟩
  · intro j hj
    rw [hmap] at hj
    exact h.inodes j (Finset.mem_of_mem_erase hj)
  · intro j hj hfree
    by_cases hji : j = i
    · rw [hji, hr.own]
    · rw [hmap, Finset.mem_erase, not_and] at hfree
      rw [hr.others.own j hj hji, h.free j hj (hfree hji)]
  · rw [hmap]
    refine h.inMemory.imp_right fun hmem j m hm ↦ ?_
    by_cases hji : j = i
    · subst hji
      rw [hr.inMemory, (hmem j inode ht).2] at hm
      exact absurd hm (by simp)
    · rw [hr.others.table j hji] at hm
      exact ⟨Finset.mem_erase.mpr ⟨hji, (hmem j m hm).1⟩, (hmem j m hm).2⟩

/-- `testfs_remove_inode` returns only for an inode in use: `bitmap_unmark` asserts it. -/
theorem Sound.bit_of_remove (h : Sound s) (ht : s.inodeHashTable i = some inode)
    (hrun : (testfsRemoveInode i).run s = .ok ((), t)) : s.inodeFreemap.bit i = true := by
  obtain ⟨S, u, n, hfreed, hfree, hall⟩ :=
    testfsFreeBlocks_run h.core h.reached ht (h.extent_of_some ht)
  have hu : u.inodeHashTable i = some n := hfree.inMemory
  obtain ⟨v, hv⟩ : ∃ v, v = u.setInode i (some ⟨Dinode.zero, true, n.iCount⟩) := ⟨_, rfl⟩
  rw [testfsRemoveInode, Program.run_bind hfreed, Program.run_bind (inodeRef_run hu),
    Program.check_bind_run (hfree.count_zero h.core ht hall),
    Program.run_bind (modifyDinode_run hu _),
    Program.run_bind (markDirty_run (inodeHashTable_setInode_self _ _ _)), setInode_setInode,
    ← hv] at hrun
  obtain ⟨_, w, hput, -⟩ := Program.bind_eq_ok_iff.mp hrun
  rw [testfsPutInodeFreemap, Program.get_bind_run] at hput
  obtain ⟨freemap, _, hunmark, -⟩ := Program.bind_eq_ok_iff.mp hput
  have hbit := (bit_of_bitmapUnmark (Program.ofExcept_eq_ok_iff.mp hunmark).1).2.1
  rwa [hv, show (u.setInode i (some ⟨Dinode.zero, true, n.iCount⟩)).inodeFreemap = u.inodeFreemap
    from rfl, hfree.inodeFreemap] at hbit

/-- Every call keeps the invariant. -/
theorem Tidy.step (h : Tidy maxFsBlocks s) {op : InodeOp} (hop : op.InMemory s)
    (hstep : op.step s = some t) : Tidy maxFsBlocks t := by
  rw [InodeOp.step_eq_some_iff] at hstep
  cases op with
  | create type =>
    obtain ⟨result, hrun⟩ := Program.discard_eq_ok_iff.mp hstep
    rcases h.sound.create type with ⟨i, t', inode', hcreate, hc⟩ | ⟨t', hcreate, hn⟩
    · obtain ⟨-, rfl⟩ := Prod.mk.inj (Except.ok.inj (hcreate.symm.trans hrun))
      exact h.created hc
    · obtain ⟨-, rfl⟩ := Prod.mk.inj (Except.ok.inj (hcreate.symm.trans hrun))
      exact h.notCreated hn
  | write i buf start =>
    obtain ⟨inode, ht⟩ := Option.isSome_iff_exists.mp hop
    obtain ⟨result, hrun⟩ := Program.discard_eq_ok_iff.mp hstep
    obtain ⟨failure, n, t', inode', hwrite, hw⟩ := h.sound.write ht buf start
    obtain ⟨-, rfl⟩ := Prod.mk.inj (Except.ok.inj (hwrite.symm.trans hrun))
    exact h.written ht hw
  | read i start size =>
    obtain ⟨result, hrun⟩ := Program.discard_eq_ok_iff.mp hstep
    exact preserves_testfsReadData i start size h hrun
  | remove i =>
    obtain ⟨inode, ht⟩ := Option.isSome_iff_exists.mp hop
    obtain ⟨t', hremove, hr⟩ := h.sound.remove ht (h.sound.bit_of_remove ht hstep)
    obtain ⟨-, rfl⟩ := Prod.mk.inj (Except.ok.inj (hremove.symm.trans hstep))
    exact h.removed ht hr

/-- A file system fresh from `mktestfs` and every state that calls on inodes in memory lead to. -/
def InodeRun (maxFsBlocks : ℕ) (s : FsState) : Prop :=
  ∃ s₀, freshFs maxFsBlocks = .ok s₀ ∧ Reaches InodeOp.InMemory InodeOp.step s₀ s

/-- The invariant holds in every state of a run on a fresh file system. -/
theorem InodeRun.tidy (hmax : maxFsBlocks ≤ nrDataBlocks) (h : InodeRun maxFsBlocks s) :
    Tidy maxFsBlocks s := by
  obtain ⟨s₀, hfresh, hrun⟩ := h
  obtain ⟨s₁, hs₁, hspec⟩ := freshFs_spec hmax
  obtain rfl := Except.ok.inj (hs₁.symm.trans hfresh)
  exact hrun.invariant (fun _ _ _ h hop hstep ↦ h.step hop hstep) hspec.tidy

end Tidy

/-! ### Blocks are owned once -/

/-- The block ownership invariant in terms of the freemaps and the super block. A slot is a place
that stores a block number: in the dinode, in its indirect block, in its double indirect block or
in a second-level indirect block. -/
structure BlocksOwnedOnce (maxFsBlocks : ℕ) (s : FsState) : Prop where
  range : ∀ i ∈ s.inodeFreemap.allocated, ∀ σ, s.own i σ ≠ 0 →
    (s.sb.dataBlocksStart : ℤ) ≤ s.own i σ ∧ s.own i σ < s.sb.dataBlocksStart + nrDataBlocks
  once : ∀ i < nrInodes, ∀ j < nrInodes, ∀ σ τ, s.own i σ ≠ 0 → s.own i σ = s.own j τ →
    i = j ∧ σ = τ
  bits : ∀ idx, idx ∈ s.blockFreemap.allocated ↔
    ∃ i ∈ s.inodeFreemap.allocated, ∃ σ, s.own i σ = (s.sb.dataBlocksStart + idx : ℕ)
  counts : ∀ i < nrInodes, (s.dinode i).blockCount = (heldSlots (s.own i)).card
  used : s.sb.usedBlockCount = s.blockFreemap.allocated.card
  limit : s.sb.usedBlockCount ≤ maxFsBlocks

section Owned

variable {s : FsState} {maxFsBlocks : ℕ}

/-- A block is in use exactly if an inode in use owns it. -/
theorem Tidy.inUse_iff (h : Tidy maxFsBlocks s) {r : ℤ} (hr : r ≠ 0) :
    InUse s.blockFreemap r ↔ ∃ i ∈ s.inodeFreemap.allocated, ∃ σ, s.own i σ = r := by
  rw [h.sound.core.ledger.taken_iff r hr]
  constructor
  · rintro ⟨i, hi, σ, hσ⟩
    refine ⟨i, ?_, σ, hσ⟩
    by_contra hfree
    rw [h.free i hi hfree] at hσ
    exact hr hσ.symm
  · rintro ⟨i, hi, σ, hσ⟩
    exact ⟨i, h.inodes i hi, σ, hσ⟩

/-- Assumes: a file system of at most as many blocks as the freemap has bits, fresh from
`mktestfs`, and any calls of the inode layer on it. Then every block number that is stored
somewhere is that of a data block, is stored once, and is marked in the freemap, the others are
not, and the counts of the inodes and of the super block are right. -/
theorem blocks_owned_once (hmax : maxFsBlocks ≤ nrDataBlocks) (hrun : InodeRun maxFsBlocks s) :
    BlocksOwnedOnce maxFsBlocks s := by
  have h := hrun.tidy hmax
  have hcore := h.sound.core
  have hstart := hcore.layout.dataBlocksStart
  refine ⟨?_, hcore.ledger.unique, ?_, hcore.ledger.count_eq, hcore.used, h.limit ▸ hcore.limit⟩
  · intro i hi σ hσ
    obtain ⟨idx, hidx, heq, -⟩ := hcore.inUse (h.inodes i hi) hσ
    rw [heq, hstart]
    omega
  · intro idx
    have hne : ((s.sb.dataBlocksStart + idx : ℕ) : ℤ) ≠ 0 := by
      rw [hstart]
      positivity
    rw [← h.inUse_iff hne, Bitmap.mem_allocated, hcore.layout.blockBits, hstart]
    constructor
    · rintro ⟨hidx, hset⟩
      exact ⟨idx, hidx, rfl, hset⟩
    · rintro ⟨idx', hidx, heq, hset⟩
      obtain rfl : idx = idx' := by omega
      exact ⟨hidx, hset⟩

/-- One call on a new file system of eight blocks. -/
theorem blocks_owned_once_create : ∃ s, InodeRun 8 s ∧ BlocksOwnedOnce 8 s := by
  obtain ⟨s₀, hfresh, hspec⟩ := freshFs_spec (by decide : 8 ≤ nrDataBlocks)
  have hcreate : ∃ t, InodeOp.step s₀ (.create .file) = some t := by
    rcases hspec.sound.create .file with ⟨i, t, inode, hrun, -⟩ | ⟨t, hrun, -⟩
    · exact ⟨t, InodeOp.step_eq_some_iff.mpr (Program.discard_run hrun)⟩
    · exact ⟨t, InodeOp.step_eq_some_iff.mpr (Program.discard_run hrun)⟩
  obtain ⟨t, ht⟩ := hcreate
  have hrun : InodeRun 8 t :=
    ⟨s₀, hfresh, Relation.ReflTransGen.single ⟨.create .file, trivial, ht⟩⟩
  exact ⟨t, hrun, blocks_owned_once (by decide) hrun⟩

end Owned

/-! ### Files -/

/-- What a file is: its size and its bytes, zero where nothing was written. -/
@[ext] structure FileView where
  size : ℕ
  content : ℕ → UInt8

/-- A new file. -/
def FileView.empty : FileView := ⟨0, fun _ ↦ 0⟩

/-- The file after the first `n` bytes of `buf` were written at `start`. Writing nothing does not
change the size. -/
def FileView.write (f : FileView) (buf : List UInt8) (start n : ℕ) : FileView where
  size := if n = 0 then f.size else max f.size (start + n)
  content := fun o ↦ if start ≤ o ∧ o < start + n then buf.getD (o - start) 0 else f.content o

/-- The file that an inode stores. -/
def FsState.file (s : FsState) (i : ℕ) : FileView := ⟨(s.dinode i).iSize.toNat, s.content i⟩

section Files

variable {s t : FsState} {i maxFsBlocks : ℕ} {inode inode' : Inode}

theorem Others.file (h : Others i s t) {j : ℕ} (hj : j < nrInodes) (hne : j ≠ i) :
    t.file j = s.file j := by
  rw [FsState.file, FsState.file, h.dinode hj hne, h.content j hj hne]

/-- An inode that owns nothing stores the empty file. -/
theorem Sound.file_of_own (h : Sound s) (hi : i < nrInodes) (hown : s.own i = fun _ ↦ 0) :
    s.file i = FileView.empty := by
  have hext := h.extent i hi
  have hsize : (s.dinode i).iSize.toNat = 0 := by
    by_contra hne
    have hlast := hext.last (by omega)
    rw [hown] at hlast
    exact hlast rfl
  have hcontent : s.content i = fun _ ↦ 0 := by
    funext o
    rw [FsState.content, hown, if_neg fun hand ↦ hand.2 rfl]
  rw [FsState.file, hsize, hcontent, FileView.empty]

theorem Written.file {start n : ℕ} {buf : List UInt8} {failure : Option ℤ}
    (h : Written i start buf inode s failure n t inode') (hs : Sound s)
    (ht : s.inodeHashTable i = some inode) : t.file i = (s.file i).write buf start n := by
  have hnonneg := (hs.extent_of_some ht).nonneg
  rw [FsState.file, FsState.file, FileView.write, dinode_of_some ht, dinode_of_some h.inMemory,
    h.iSize]
  refine FileView.ext ?_ (funext h.content)
  simp only
  split_ifs
  · rfl
  · omega

theorem Created.file {type : InodeType} (h : Created type s t i inode') : t.file i = s.file i := by
  rw [FsState.file, FsState.file, h.content, dinode_of_some h.inMemory, h.inode]

/-- `testfs_write_data` and `testfs_read_data` on inode `i` act on the file it stores, and on no
other. -/
structure ActsOnFile (s : FsState) (i : ℕ) : Prop where
  size : (s.file i).size ≤ maxFileSize
  write : ∀ (buf : List UInt8) (start : ℕ), buf.length < 2 ^ 31 →
    ∃ ret t, (testfsWriteData i buf start).run s = .ok (ret, t) ∧
      (0 ≤ ret → ret = buf.length ∧ t.file i = (s.file i).write buf start buf.length) ∧
      (ret < 0 → ∃ pos ≤ buf.length, (pos = 0 ∨ blockSize ∣ start + pos) ∧
        t.file i = (s.file i).write buf start pos) ∧
      (t.file i).size ≤ maxFileSize ∧ ∀ j < nrInodes, j ≠ i → t.file j = s.file j
  read : ∀ start n : ℕ, start ≤ (s.file i).size → start < maxFileSize → n < 2 ^ 31 →
    (testfsReadData i start n).run s = .ok (((min n ((s.file i).size - start) : ℕ),
      (List.range (min n ((s.file i).size - start))).map fun k ↦ (s.file i).content (start + k)), s)

theorem Sound.size_le (h : Sound s) (hi : i < nrInodes) : (s.file i).size ≤ maxFileSize := by
  have hext := h.extent i hi
  have hle := hext.le_max
  have hnonneg := hext.nonneg
  rw [FsState.file]
  simp only
  omega

theorem Sound.actsOnFile (h : Sound s) (ht : s.inodeHashTable i = some inode) : ActsOnFile s i := by
  have hi := h.lt ht
  refine ⟨h.size_le hi, ?_, ?_⟩
  · intro buf start hlen
    obtain ⟨failure, n, t, inode', hrun, hw⟩ := h.write ht buf start
    have hfile := hw.file h ht
    refine ⟨_, t, hrun, ?_, ?_, hw.sound.size_le hi, fun j hj hne ↦ hw.others.file hj hne⟩
    · intro hret
      cases hfail : failure with
      | some ret =>
        rw [hfail, Option.getD_some] at hret
        exact absurd hret (not_le.mpr (hw.failure_neg hfail))
      | none =>
        rw [(hw.complete hfail).1] at hfile ⊢
        exact ⟨by rw [Option.getD_none, toInt32_of_range (by omega) (by omega)], hfile⟩
    · intro hret
      refine ⟨n, hw.le, ?_, hfile⟩
      cases hfail : failure with
      | some ret => exact hw.short ret hfail
      | none =>
        have hle := hw.le
        rw [hfail, Option.getD_none, toInt32_of_range (by omega) (by omega)] at hret
        omega
  · intro start n hsize hstart hn
    have hnonneg := (h.extent_of_some ht).nonneg
    rw [FsState.file, dinode_of_some ht] at hsize ⊢
    exact testfsReadData_run h.core h.reached ht (h.extent_of_some ht) hstart
      (by simp only at hsize; omega) hn

/-- Assumes: a file system of at most as many blocks as the freemap has bits, fresh from
`mktestfs`, and any calls of the inode layer on it. Then every call acts on the files as the
specification says: writing and reading on the file of the inode they are given, creating makes an
empty file, and no call changes any other file. -/
theorem files_refined (hmax : maxFsBlocks ≤ nrDataBlocks) (hrun : InodeRun maxFsBlocks s) :
    (∀ i ∈ s.inodeFreemap.allocated, (s.inodeHashTable i).isSome → ActsOnFile s i) ∧
    (∀ type, ∃ ret c t, (testfsCreateInode type).run s = .ok ((ret, c), t) ∧
      (0 ≤ ret → c ∉ s.inodeFreemap.allocated ∧ t.inodeFreemap = s.inodeFreemap.put c true ∧
        t.file c = FileView.empty ∧ ∀ j < nrInodes, j ≠ c → t.file j = s.file j) ∧
      (ret < 0 → ∀ j < nrInodes, t.file j = s.file j)) ∧
    ∀ i ∈ s.inodeFreemap.allocated, (s.inodeHashTable i).isSome →
      ∃ t, (testfsRemoveInode i).run s = .ok ((), t) ∧
        t.inodeFreemap = s.inodeFreemap.put i false ∧ ∀ j < nrInodes, j ≠ i →
          t.file j = s.file j := by
  have h := hrun.tidy hmax
  refine ⟨?_, ?_, ?_⟩
  · intro i _ hmem
    obtain ⟨inode, ht⟩ := Option.isSome_iff_exists.mp hmem
    exact h.sound.actsOnFile ht
  · intro type
    rcases h.sound.create type with ⟨c, t, inode', hcreate, hc⟩ | ⟨t, hcreate, hn⟩
    · have hnot : c ∉ s.inodeFreemap.allocated := by
        rw [← h.sound.bit_iff hc.lt, hc.clear]
        exact Bool.false_ne_true
      refine ⟨0, c, t, hcreate, fun _ ↦ ⟨hnot, hc.inodeFreemap, ?_, fun j hj hne ↦
        hc.others.file hj hne⟩, fun hneg ↦ absurd hneg (lt_irrefl _)⟩
      rw [hc.file, h.sound.file_of_own hc.lt (h.free c hc.lt hnot)]
    · exact ⟨-eNOSPC, 0, t, hcreate, fun hneg ↦ absurd hneg (by decide),
        fun _ j hj ↦ (hn.others (j + 1)).file hj (by omega)⟩
  · intro i hi hmem
    obtain ⟨inode, ht⟩ := Option.isSome_iff_exists.mp hmem
    obtain ⟨t, hremove, hr⟩ := h.sound.remove ht ((h.sound.bit_iff (h.inodes i hi)).mpr hi)
    exact ⟨t, hremove, hr.inodeFreemap, fun j hj hne ↦ hr.others.file hj hne⟩

/-- The root directory of a new file system of eight blocks is in use and in memory. -/
theorem freshFs_root : ∃ s, InodeRun 8 s ∧ 0 ∈ s.inodeFreemap.allocated ∧
    (∃ inode, s.inodeHashTable 0 = some inode) ∧ (s.file 0).size = 21 := by
  obtain ⟨s, hfresh, hspec⟩ := freshFs_spec (by decide : 8 ≤ nrDataBlocks)
  obtain ⟨root, hmem, -⟩ := hspec.root
  obtain ⟨hroot, hdir, -⟩ := hspec.root_made (by decide)
  refine ⟨s, ⟨s, hfresh, Relation.ReflTransGen.refl⟩, ?_, ⟨root, hmem⟩, ?_⟩
  · rw [hroot]
    exact Finset.mem_singleton_self 0
  · rw [FsState.file]
    simp only
    rw [hdir.size]
    rfl

/-- In a new file system of eight blocks `testfs_create_inode` makes an empty file with the least
free inode, and `testfs_write_data` then writes three bytes to it. -/
theorem freshFs_written : ∃ s₀ c u t, freshFs 8 = .ok s₀ ∧
    (testfsCreateInode .file).run s₀ = .ok ((0, c), u) ∧
    (testfsWriteData c [97, 10, 98] 0).run u = .ok (3, t) ∧
    c ∈ u.inodeFreemap.allocated ∧ (u.inodeHashTable c).isSome ∧
    c ∈ t.inodeFreemap.allocated ∧ (t.inodeHashTable c).isSome ∧
    t.file c = FileView.empty.write [97, 10, 98] 0 3 := by
  obtain ⟨s, hfresh, hspec⟩ := freshFs_spec (by decide : 8 ≤ nrDataBlocks)
  obtain ⟨hroot, hdir, -⟩ := hspec.root_made (by decide)
  obtain ⟨c, u, inode, hcreate, hc⟩ := hspec.sound.create_free .file hspec.exists_free
  have hc0 : c ≠ 0 := by
    rintro rfl
    have hset := (hspec.sound.bit_iff hc.lt).mpr (hroot ▸ Finset.mem_singleton_self 0)
    exact absurd (hset.symm.trans hc.clear) (by decide)
  have hzero : s.own c = fun _ ↦ 0 := by
    funext σ
    rw [FsState.own, hspec.free c hc.lt hc0, slotVal_zero]
  have hused : u.sb.usedBlockCount ≤ 1 := by
    refine hc.sound.used_le_one_of_root (fun i hi hi0 ↦ ?_) ?_
    · by_cases hic : i = c
      · rw [hic, hc.own, hzero]
      · rw [hc.others.own i hi hic]
        funext σ
        rw [FsState.own, hspec.free i hi hi0, slotVal_zero]
    · rw [hc.others.dinode (by decide) hc0.symm, hdir.size]
      decide
  have hlimit : u.sb.maxFsBlocks = 8 := hc.others.maxFsBlocks.trans hspec.maxFsBlocks
  have hroom : HasRoom 1 u :=
    hc.sound.core.hasRoom (by omega) ((Nat.add_le_add_right hused 1).trans (by decide))
  obtain ⟨failure, n, t, inode', hwrite, hw⟩ := hc.sound.write hc.inMemory [97, 10, 98] 0
  obtain rfl : failure = none :=
    hw.failure_none_of_first (by decide) (Or.inr hroom.not_full)
  obtain rfl : n = 3 := (hw.complete rfl).1
  have hmem : c ∈ u.inodeFreemap.allocated := by
    rw [hc.inodeFreemap, Bitmap.allocated_put_true]
    · exact Finset.mem_insert_self c _
    · rw [hspec.sound.core.layout.inodeBits]
      exact lt_of_lt_of_le hc.lt (by decide)
  have hmap : t.inodeFreemap = u.inodeFreemap := hw.inodeFreemap
  refine ⟨s, c, u, t, hfresh, hcreate, hwrite, hmem, Option.isSome_iff_exists.mpr ⟨_, hc.inMemory⟩,
    hmap ▸ hmem, Option.isSome_iff_exists.mpr ⟨_, hw.inMemory⟩, ?_⟩
  rw [hw.file hc.sound hc.inMemory, hc.file, hspec.sound.file_of_own hc.lt hzero]

/-- The calls on a file that was created and written in a new file system. -/
theorem files_refined_written : ∃ s c, InodeRun 8 s ∧ ActsOnFile s c ∧
    s.file c = FileView.empty.write [97, 10, 98] 0 3 ∧
    ∃ t, (testfsRemoveInode c).run s = .ok ((), t) ∧ ∀ j < nrInodes, j ≠ c →
      t.file j = s.file j := by
  obtain ⟨s₀, c, u, t, hfresh, hcreate, hwrite, -, hmemory, hset, hloaded, hfile⟩ := freshFs_written
  have hfirst : InodeOp.step s₀ (.create .file) = some u :=
    InodeOp.step_eq_some_iff.mpr (Program.discard_run hcreate)
  have hsecond : InodeOp.step u (.write c [97, 10, 98] 0) = some t :=
    InodeOp.step_eq_some_iff.mpr (Program.discard_run hwrite)
  have hrun : InodeRun 8 t :=
    ⟨s₀, hfresh, (Relation.ReflTransGen.single ⟨.create .file, trivial, hfirst⟩).tail
      ⟨.write c [97, 10, 98] 0, hmemory, hsecond⟩⟩
  obtain ⟨hacts, -, hremoves⟩ := files_refined (by decide) hrun
  obtain ⟨v, hremove, -, hothers⟩ := hremoves c hset hloaded
  exact ⟨t, c, hrun, hacts c hset hloaded, hfile, v, hremove, hothers⟩

/-- Writing no bytes past the end of a file succeeds and does not make it longer. -/
theorem empty_write_keeps_size : ∃ s t, InodeRun 8 s ∧ 0 ∈ s.inodeFreemap.allocated ∧
    (s.inodeHashTable 0).isSome ∧ (testfsWriteData 0 [] 8192).run s = .ok (0, t) ∧
    (t.file 0).size ≠ max (s.file 0).size (8192 + ([] : List UInt8).length) := by
  obtain ⟨s, hrun, hset, ⟨root, hmem⟩, hsize⟩ := freshFs_root
  have hwrite : (testfsWriteData 0 [] 8192).run s =
      .ok (0, s.setInode 0 (some { root with dirty := true })) := by
    rw [testfsWriteData, if_neg (by decide), Program.check_bind_run (Or.inr rfl), List.length_nil,
      writeLoop, Program.pure_bind_run]
    simp only [writeDone, growSize]
    rw [if_neg (by decide), Program.pure_bind_run, Program.run_bind (markDirty_run hmem),
      Program.pure_run]
    rfl
  refine ⟨s, _, hrun, hset, Option.isSome_iff_exists.mpr ⟨root, hmem⟩, hwrite, ?_⟩
  have hsame : ((s.setInode 0 (some { root with dirty := true })).file 0).size =
    (s.file 0).size := by
    rw [FsState.file, FsState.file, dinode_setInode_self, dinode_of_some hmem]
    rfl
  rw [hsame, hsize]
  decide

end Files

end OperatingSystems.Fs
