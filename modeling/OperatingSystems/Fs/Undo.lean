import OperatingSystems.Fs.Create
import OperatingSystems.Fs.Dense

/-!
# Failures that leave everything as it was

`Unchanged s t` says that all files and directories, the freemaps, the counters and the in-memory
inodes are the same in both states. Most of it follows from what the inodes own. `room_filled` says
how many blocks are left for the record of a new file or directory when its inode has been made.
-/

set_option autoImplicit false
set_option relaxedAutoImplicit false

namespace OperatingSystems.Fs

open Library

/-! ### Unchanged states -/

/-- The in-memory inodes, every inode with its blocks and its content, the copies on disk of the
inodes in use, the freemaps and the counters are as they were. -/
structure Unchanged (s t : FsState) : Prop where
  table : t.inodeHashTable = s.inodeHashTable
  dinode : ∀ j < nrInodes, t.dinode j = s.dinode j
  disk : ∀ j ∈ s.inodeFreemap.allocated, t.diskDinode j = s.diskDinode j
  own : ∀ j < nrInodes, t.own j = s.own j
  content : ∀ j < nrInodes, t.content j = s.content j
  inodeFreemap : t.inodeFreemap.allocated = s.inodeFreemap.allocated
  blockFreemap : t.blockFreemap.allocated = s.blockFreemap.allocated
  usedInodes : t.sb.usedInodeCount = s.sb.usedInodeCount
  usedBlocks : t.sb.usedBlockCount = s.sb.usedBlockCount

section Unchanged

variable {s t u v w : FsState} {c d : ℕ} {rs : List Record}

theorem Unchanged.refl (s : FsState) : Unchanged s s where
  table := rfl
  dinode := fun _ _ ↦ rfl
  disk := fun _ _ ↦ rfl
  own := fun _ _ ↦ rfl
  content := fun _ _ ↦ rfl
  inodeFreemap := rfl
  blockFreemap := rfl
  usedInodes := rfl
  usedBlocks := rfl

/-- The records of a directory, those in use and those that are free, are as they were. -/
theorem Unchanged.trans (h : Unchanged s t) (h' : Unchanged t u) : Unchanged s u where
  table := h'.table.trans h.table
  dinode := fun j hj ↦ (h'.dinode j hj).trans (h.dinode j hj)
  disk := fun j hj ↦ (h'.disk j (h.inodeFreemap ▸ hj)).trans (h.disk j hj)
  own := fun j hj ↦ (h'.own j hj).trans (h.own j hj)
  content := fun j hj ↦ (h'.content j hj).trans (h.content j hj)
  inodeFreemap := h'.inodeFreemap.trans h.inodeFreemap
  blockFreemap := h'.blockFreemap.trans h.blockFreemap
  usedInodes := h'.usedInodes.trans h.usedInodes
  usedBlocks := h'.usedBlocks.trans h.usedBlocks

theorem Unchanged.isDir_iff (h : Unchanged s t) (hd : d < nrInodes) : IsDir t d rs ↔ IsDir s d rs :=
  ⟨fun hdir ↦ hdir.congr (h.dinode d hd).symm (h.content d hd).symm,
    fun hdir ↦ hdir.congr (h.dinode d hd) (h.content d hd)⟩

/-- The freemap of the blocks and the counters follow from what is owned and the inodes in use. -/
theorem Sound.unchanged (hs : Sound s) (ht : Sound t) (htable : t.inodeHashTable = s.inodeHashTable)
    (hdinode : ∀ j < nrInodes, t.dinode j = s.dinode j)
    (hdisk : ∀ j ∈ s.inodeFreemap.allocated, t.diskDinode j = s.diskDinode j)
    (hown : ∀ j < nrInodes, t.own j = s.own j)
    (hcontent : ∀ j < nrInodes, t.content j = s.content j)
    (halloc : t.inodeFreemap.allocated = s.inodeFreemap.allocated) : Unchanged s t where
  table := htable
  dinode := hdinode
  disk := hdisk
  own := hown
  content := hcontent
  inodeFreemap := halloc
  blockFreemap := hs.core.allocated_congr ht.core hown
  usedInodes := by rw [ht.inodes, hs.inodes, halloc]
  usedBlocks := by rw [ht.core.used, hs.core.used, hs.core.allocated_congr ht.core hown]

/-- Nothing has happened to any inode. -/
theorem Sound.unchanged_of_others (hs : Sound s) (ht : Sound t) (hothers : ∀ j, Others j s t)
    (halloc : t.inodeFreemap = s.inodeFreemap)
    (hbound : ∀ j ∈ s.inodeFreemap.allocated, j < nrInodes) :
    Unchanged s t := by
  refine hs.unchanged ht ?_ (fun j hj ↦ (hothers (j + 1)).dinode hj (by omega))
    (fun j hj ↦ (hothers (j + 1)).disk j (hbound j hj) (by omega))
    (fun j hj ↦ (hothers (j + 1)).own j hj (by omega))
    (fun j hj ↦ (hothers (j + 1)).content j hj (by omega)) (by rw [halloc])
  funext j
  exact (hothers (j + 1)).table j (by omega)

/-- Work on one inode, followed by a write that was stuck. -/
theorem Worked.stuck {inode inode' m m' : Inode} {start : ℕ} {buf : List UInt8} {failure : Option ℤ}
    {i n : ℕ} (hw : Worked c u v inode inode') (hwrite : Written i start buf m v failure n w m')
    (hothers : ∀ j, Others j v w) : Worked c u w inode inode' where
  sound := hwrite.sound
  others := hw.others.trans (hothers c)
  inMemory := by rw [(hothers (c + 1)).table c (by omega), hw.inMemory]
  iType := hw.iType
  iCount := hw.iCount
  disk := by
    by_cases hc : c < nrInodes
    · rw [(hothers (c + 1)).disk c hc (by omega), hw.disk]
    · exact absurd (hw.sound.lt hw.inMemory) hc
  inodeFreemap := hwrite.inodeFreemap.trans hw.inodeFreemap

theorem length_emptyDir {p : ℕ} (hc : c < nrInodes) (hp : p < nrInodes) :
    (encodeDir (emptyDir c p hc hp)).length = 21 := by
  simp only [emptyDir, encodeDir_cons, encodeDir_nil, List.length_append, Record.length_encode,
    size_recordFor]
  rfl

end Unchanged

/-! ### Room after making an inode -/

section Filled

variable {s v : FsState} {c : ℕ} {σ : Slot}

/-- The blocks that a new inode of a type is given. -/
def InodeType.blocks (type : InodeType) : ℕ := if type = .dir then 1 else 0

/-- A record of `size` bytes can be entered at `start` in the directory, after an inode of the type
was made, or the attempt leaves the directory as it is: either there is no block for the new inode;
or there are blocks for it and for all of the record, whose size fits an `int`; or the record starts
in a block that is missing, and the new inode takes the last one. -/
def RoomToEnter (s : FsState) (dir start size : ℕ) (type : InodeType) : Prop :=
  s.room < type.blocks ∨
  (s.missing dir (writeSlots start size) + type.blocks ≤ s.room ∧ size < 2 ^ 31) ∨
  (s.own dir (Slot.ofLog (start / blockSize)) = 0 ∧ s.room = type.blocks)

/-- An inode that owned nothing has got one block. -/
theorem used_add_one (hs : Sound s) (hv : Sound v) (hothers : Others c s v) (hc : c < nrInodes)
    (hzero : s.own c = fun _ ↦ 0) (hone : ∀ τ, v.own c τ ≠ 0 ↔ τ = σ) :
    v.sb.usedBlockCount = s.sb.usedBlockCount + 1 := by
  have hne : ∀ k : ℕ, ((firstDataBlock + k : ℕ) : ℤ) ≠ 0 := fun k ↦ by positivity
  have hσ : v.own c σ ≠ 0 := (hone σ).mpr rfl
  obtain ⟨idx, -, heq, -⟩ := hv.core.inUse hc hσ
  have hinsert : v.blockFreemap.allocated = insert idx s.blockFreemap.allocated := by
    ext k
    rw [Finset.mem_insert, hv.core.mem_allocated, hs.core.mem_allocated]
    constructor
    · rintro ⟨j, hj, τ, hτ⟩
      by_cases hjc : j = c
      · left
        have hτσ : τ = σ := (hone τ).mp (by rw [← hjc, hτ]; exact hne k)
        rw [hjc, hτσ, heq] at hτ
        omega
      · exact Or.inr ⟨j, hj, τ, by rw [← hothers.own j hj hjc, hτ]⟩
    · rintro (rfl | ⟨j, hj, τ, hτ⟩)
      · exact ⟨c, hc, σ, heq⟩
      · have hjc : j ≠ c := by
          rintro rfl
          rw [congrFun hzero τ] at hτ
          exact hne k hτ.symm
        exact ⟨j, hj, τ, by rw [hothers.own j hj hjc, hτ]⟩
  have hnew : idx ∉ s.blockFreemap.allocated := by
    rw [hs.core.mem_allocated]
    rintro ⟨j, hj, τ, hτ⟩
    have hjc : j ≠ c := by
      rintro rfl
      rw [congrFun hzero τ] at hτ
      exact hne idx hτ.symm
    have hτv : v.own j τ = (firstDataBlock + idx : ℕ) := by rw [hothers.own j hj hjc, hτ]
    exact hjc (hv.core.ledger.unique j hj c hc τ σ (by rw [hτv]; exact hne idx)
      (hτv.trans heq.symm)).1
  rw [hv.core.used, hs.core.used, hinsert, Finset.card_insert_of_notMem hnew]

/-- The blocks that are left. -/
theorem room_of_used (hv : Sound v) {k : ℕ} (hmax : v.sb.maxFsBlocks = s.sb.maxFsBlocks)
    (hused : v.sb.usedBlockCount = s.sb.usedBlockCount + k) : v.room + k = s.room := by
  have hlimit := hv.core.limit
  have hbits := hv.core.used_le
  rw [FsState.room, FsState.room, hmax, hused]
  rw [hmax, hused] at hlimit
  rw [hused] at hbits
  omega

end Filled

end OperatingSystems.Fs
