import OperatingSystems.Fs.Sound
import OperatingSystems.Fs.Read

/-!
# What the operations on inodes do

One theorem for each operation of the inode layer, on a file system with the invariant `Sound`:
`testfs_write_data` (`Sound.write`), `testfs_create_inode` (`Sound.create`) and
`testfs_remove_inode` (`Sound.remove`). Each says that the operation returns, that the invariant
still holds, what has become of the inode, and that all others are as they were.
-/

set_option autoImplicit false
set_option relaxedAutoImplicit false

namespace OperatingSystems.Fs

open Library

/-! ### Writing -/

/-- What `testfs_write_data` of `buf` at `start` has done to inode `i`: it wrote `n` bytes. -/
structure Written (i start : ℕ) (buf : List UInt8) (inode : Inode) (s : FsState)
    (failure : Option ℤ) (n : ℕ) (t : FsState) (inode' : Inode) : Prop where
  sound : Sound t
  others : Others i s t
  le : n ≤ buf.length
  inMemory : t.inodeHashTable i = some inode'
  iType : inode'.din.iType = inode.din.iType
  iCount : inode'.iCount = inode.iCount
  iSize : inode'.din.iSize = if n = 0 then inode.din.iSize else max inode.din.iSize (start + n : ℕ)
  content : ∀ o, t.content i o =
    if start ≤ o ∧ o < start + n then buf.getD (o - start) 0 else s.content i o
  disk : t.diskDinode i = s.diskDinode i
  inodeFreemap : t.inodeFreemap = s.inodeFreemap
  complete : failure = none → n = buf.length ∧ inode'.dirty = true
  room : failure = none → 0 < buf.length →
    ∀ k, k * blockSize < start + buf.length → ¬ FailsClean s i (start / blockSize) k
  short : ∀ ret, failure = some ret → (n = 0 ∨ blockSize ∣ start + n)
  error : ∀ ret, failure = some ret → ret = -eNOSPC ∧ t.allocFailed = true ∨
    ret = -eFBIG ∧ (maxFileSize ≤ start ∨ maxFileSize < start + buf.length)
  clean : ∀ ret, failure = some ret →
    inode' = { inode with din := inode.din.withSize inode'.din.iSize } ∧
        FailsClean s i (start / blockSize) ((start + n) / blockSize) ∨
      inode'.dirty = true ∧ (∀ k, ¬ FailsClean s i (start / blockSize) k) ∧
        (n = 0 → nrDirectBlocks ≤ start / blockSize)
  flag : failure = none → t.allocFailed = s.allocFailed
  within : failure = none → start < maxFileSize
  unfinished : ∀ ret, failure = some ret → n < buf.length ∨ maxFileSize ≤ start

section Write

variable {s u : FsState} {i : ℕ} {inode : Inode}

theorem Dinode.withSize_withSize (d : Dinode) (size size' : ℤ) :
    (d.withSize size).withSize size' = d.withSize size' := rfl

theorem Inode.din_finishWrite (inode : Inode) (start : ℕ) (failure : Option ℤ) (n : ℕ) :
    (inode.finishWrite start failure n).din = inode.din.withSize
      (if n = 0 then inode.din.iSize else max inode.din.iSize (start + n : ℕ)) := rfl

theorem Inode.dirty_finishWrite (inode : Inode) (start : ℕ) (failure : Option ℤ) (n : ℕ) :
    (inode.finishWrite start failure n).dirty = (inode.dirty || failure.isNone) := rfl

theorem Inode.iCount_finishWrite (inode : Inode) (start : ℕ) (failure : Option ℤ) (n : ℕ) :
    (inode.finishWrite start failure n).iCount = inode.iCount := rfl

/-- A failed write that allocated nothing changes nothing but the size. -/
theorem Inode.finishWrite_some (inode : Inode) (start : ℕ) (ret : ℤ) (n : ℕ) :
    inode.finishWrite start (some ret) n =
      { inode with
        din := inode.din.withSize (inode.finishWrite start (some ret) n).din.iSize } := by
  rw [Inode.finishWrite, Option.isNone_some, Bool.or_false, Dinode.withSize]

theorem Confined.disk (hc : Confined i s u) (hs : Layout s) {j : ℕ} (hj : j < nrInodes) :
    u.diskDinode j = s.diskDinode j := by
  apply diskDinode_congr hs
  · rw [hc.sb]
  · exact hc.inodeBlocks
  · exact hj

theorem Confined.others (hc : Confined i s u) (hs : Layout s) : Others i s u where
  table := hc.table_ne
  disk := fun j hj _ ↦ hc.disk hs hj
  own := hc.own_ne
  content := hc.content_ne
  maxFsBlocks := by rw [hc.sb]
  allocFailed := hc.allocFailed

/-- The invariant after work on inode `i` is finished by storing its dinode. -/
theorem Sound.of_confined (h : Sound s) (hc : Confined i s u) (hcore : Core u) (hr : Reached u)
    (hi : i < nrInodes) {n : Inode} (hslots : n.din.slots = (u.dinode i).slots)
    (hcount : n.din.blockCount = (u.dinode i).blockCount) (hextent : Extent (u.own i) n.din.iSize)
    (htype : -2 ^ 31 ≤ n.din.iType ∧ n.din.iType < 2 ^ 31)
    (hclean : n.dirty = false → n.din = (s.diskDinode i).withSize n.din.iSize ∧
      Extent (u.own i) (s.diskDinode i).iSize) : Sound (u.setInode i (some n)) := by
  have hsame : SameFiles u (u.setInode i (some n)) :=
    sameFiles_setInode hcore hi (by rw [dinode_setInode_self]; exact hslots)
      (by rw [dinode_setInode_self]; exact hcount)
  have hothers : Others i s (u.setInode i (some n)) :=
    (hc.others h.core.layout).trans (others_setInode u i _)
  have hdisk : ∀ j < nrInodes, (u.setInode i (some n)).diskDinode j = s.diskDinode j :=
    fun j hj ↦ hc.disk h.core.layout hj
  refine ⟨hsame.core hcore, hsame.reached hr, ?_, ?_, ?_, ?_⟩
  · intro j hj
    by_cases hji : j = i
    · subst hji
      rw [hsame.own hcore hj, dinode_setInode_self]
      exact hextent
    · rw [hothers.own j hj hji, hothers.dinode hj hji]
      exact h.extent j hj
  · intro j m hm
    by_cases hji : j = i
    · rw [hji, inodeHashTable_setInode_self, Option.some.injEq] at hm
      exact hm ▸ htype
    · rw [hothers.table j hji] at hm
      exact h.types j m hm
  · intro j m hm hdirty
    have hj := hsame.table j m hm
    rw [hdisk j hj]
    by_cases hji : j = i
    · subst hji
      rw [inodeHashTable_setInode_self, Option.some.injEq] at hm
      rw [hsame.own hcore hj, ← hm]
      exact hclean (hm ▸ hdirty)
    · rw [hothers.table j hji] at hm
      rw [hothers.own j hj hji]
      exact h.clean j m hm hdirty
  · have hsb : (u.setInode i (some n)).sb.usedInodeCount = s.sb.usedInodeCount := by
      change u.sb.usedInodeCount = _
      rw [hc.sb]
    have hmap : (u.setInode i (some n)).inodeFreemap = s.inodeFreemap := hc.inodeFreemap
    rw [hsb, hmap]
    exact h.inodes

/-- What `testfs_write_data` has done when its loop is over and the inode is stored. -/
theorem Sound.written (h : Sound s) (ht : s.inodeHashTable i = some inode) {buf : List UInt8}
    {start n : ℕ} {failure : Option ℤ} {inode₁ : Inode} (hstart : start < maxFileSize)
    (hloop : LoopResult i start buf inode.din.iSize inode s failure n u inode₁) :
    Written i start buf inode s failure n (u.setInode i (some (inode₁.finishWrite start failure n)))
      (inode₁.finishWrite start failure n) := by
  have hi := h.lt ht
  have hext := hloop.extended
  have hconf := hloop.wrote.toConfined
  have hdinode := dinode_of_some hloop.inMemory
  have hsize := inode₁.din_finishWrite start failure n
  have hextent : Extent (u.own i) (inode₁.finishWrite start failure n).din.iSize := by
    rw [hsize, Dinode.iSize_withSize, hext.iSize]
    exact hloop.extent
  have hslots : (inode₁.finishWrite start failure n).din.slots = (u.dinode i).slots := by
    rw [hsize, Dinode.slots_withSize, hdinode]
  have hcount : (inode₁.finishWrite start failure n).din.blockCount = (u.dinode i).blockCount := by
    rw [hsize, Dinode.blockCount_withSize, hdinode]
  have htype : (inode₁.finishWrite start failure n).din.iType = inode.din.iType := by
    rw [hsize, Dinode.iType_withSize, hext.iType]
  have hsound : Sound (u.setInode i (some (inode₁.finishWrite start failure n))) := by
    refine h.of_confined hconf hloop.wrote.core hloop.wrote.reached hi hslots hcount hextent ?_ ?_
    · rw [htype]
      exact h.types i inode ht
    · rw [Inode.dirty_finishWrite]
      intro hdirty
      obtain ⟨hclean₁, hsome⟩ := Bool.or_eq_false_iff.mp hdirty
      obtain ⟨ret, hret⟩ := Option.isSome_iff_exists.mp (Option.isNone_eq_false_iff.mp hsome)
      rcases hloop.clean ret hret with ⟨hinode, hown, -⟩ | ⟨hdirty₁, -⟩
      · subst hinode
        obtain ⟨hdin, hextDisk⟩ := h.clean i inode₁ ht hclean₁
        refine ⟨?_, hown ▸ hextDisk⟩
        rw [hsize, Dinode.iSize_withSize, hdin, Dinode.withSize_withSize]
      · rw [hdirty₁] at hclean₁
        exact absurd hclean₁ (by decide)
  refine ⟨hsound, (hconf.others h.core.layout).trans (others_setInode u i _),
    hloop.le, inodeHashTable_setInode_self _ _ _, htype,
    (inode₁.iCount_finishWrite start failure n).trans hext.iCount, ?_, ?_,
    hconf.disk h.core.layout hi, hconf.inodeFreemap, ?_, hloop.room,
    fun ret hret ↦ (hloop.short ret hret).2,
    fun ret hret ↦ (hloop.error ret hret).imp_right fun hbig ↦ ⟨hbig.1, Or.inr hbig.2⟩, ?_,
      hloop.flag,
    fun _ ↦ hstart, fun ret hret ↦ Or.inl (hloop.short ret hret).1⟩
  · rw [hsize, Dinode.iSize_withSize, hext.iSize]
  · intro o
    have hsame : SameFiles u (u.setInode i (some (inode₁.finishWrite start failure n))) :=
      sameFiles_setInode hloop.wrote.core hi (by rw [dinode_setInode_self]; exact hslots)
        (by rw [dinode_setInode_self]; exact hcount)
    rw [hsame.content hloop.wrote.core hi, hloop.wrote.content o, List.length_take,
      min_eq_left hloop.le]
    split_ifs with hrange
    · rw [List.getD_eq_getElem?_getD, List.getD_eq_getElem?_getD, List.getElem?_take,
        if_pos (by omega)]
    · rfl
  · rintro rfl
    refine ⟨hloop.complete rfl, ?_⟩
    rw [Inode.dirty_finishWrite, Option.isNone_none, Bool.or_true]
  · rintro ret rfl
    rcases hloop.clean ret rfl with ⟨rfl, -, hfail⟩ | ⟨hdirty, hnone, hdirect⟩
    · exact Or.inl ⟨inode₁.finishWrite_some start ret n, hfail⟩
    · refine Or.inr ⟨?_, hnone, hdirect⟩
      rw [Inode.dirty_finishWrite, hdirty, Bool.true_or]

/-- `testfs_write_data` writes a prefix of the buffer and keeps the invariant. -/
theorem Sound.write (h : Sound s) (ht : s.inodeHashTable i = some inode) (buf : List UInt8)
    (start : ℕ) : ∃ failure n t inode', (testfsWriteData i buf start).run s =
      .ok (failure.getD (toInt32 n), t) ∧ Written i start buf inode s failure n t inode' := by
  by_cases hstart : start < maxFileSize
  swap
  · have hbig : maxBlockNr ≤ start / blockSize :=
      (Nat.le_div_iff_mul_le (by decide)).mpr (not_lt.mp hstart)
    refine ⟨some (-eFBIG), 0, s, inode,
      testfsWriteData_tooBig s i buf (Int.ofNat_le.mpr (not_lt.mp hstart)), h, Others.refl i s,
      Nat.zero_le _, ht, rfl, rfl, by rw [if_pos rfl], ?_, rfl, rfl, by simp, by simp,
      fun _ _ ↦ Or.inl rfl, ?_, fun _ _ ↦ Or.inl ⟨rfl, FailsClean.of_stuck (Or.inl hbig)⟩,
      by simp, by simp, fun _ _ ↦ Or.inr (not_lt.mp hstart)⟩
    · intro o
      rw [if_neg (by omega)]
    · intro ret hret
      rw [Option.some.injEq] at hret
      exact Or.inr ⟨hret.symm, Or.inl (not_lt.mp hstart)⟩
  obtain ⟨failure, n, u, inode₁, hloop, hrun⟩ :=
    testfsWriteData_spec h.core h.reached ht (h.extent_of_some ht) hstart buf
  exact ⟨failure, n, _, _, hrun, h.written ht hstart hloop⟩

end Write

/-! ### Creating -/

section Create

variable {s : FsState} {idx : ℕ} {value : Bool} {used : ℕ}

theorem diskDinode_putInodeBit (h : Layout s) (hidx : idx < s.inodeFreemap.nbits) {j : ℕ}
    (hj : j < nrInodes) : (s.putInodeBit idx value used).diskDinode j = s.diskDinode j :=
  diskDinode_congr h rfl (fun _ hb _ ↦ blocks_putInodeBit h hidx hb) hj

theorem dinode_putInodeBit (h : Layout s) (hidx : idx < s.inodeFreemap.nbits) {j : ℕ}
    (hj : j < nrInodes) : (s.putInodeBit idx value used).dinode j = s.dinode j := by
  have htable : (s.putInodeBit idx value used).inodeHashTable = s.inodeHashTable := rfl
  rw [FsState.dinode, FsState.dinode, htable, diskDinode_putInodeBit h hidx hj]

/-- The allocation of inode numbers changes no file. -/
theorem sameFiles_putInodeBit (h : Core s) (hidx : idx < s.inodeFreemap.nbits) :
    SameFiles s (s.putInodeBit idx value used) where
  layout := h.layout.putInodeBit hidx
  blockFreemap := rfl
  used := rfl
  maxFsBlocks := rfl
  blocks := fun _ hb ↦ blocks_putInodeBit h.layout hidx (le_trans (by decide) hb)
  len := (len_putInodeBit h.layout hidx).ge
  slots := fun j hj ↦ by rw [dinode_putInodeBit h.layout hidx hj]
  count := fun j hj ↦ by rw [dinode_putInodeBit h.layout hidx hj]
  table := h.table

theorem others_putInodeBit (h : Core s) (hidx : idx < s.inodeFreemap.nbits) (i : ℕ) :
    Others i s (s.putInodeBit idx value used) where
  table := fun _ _ ↦ rfl
  disk := fun _ hj _ ↦ diskDinode_putInodeBit h.layout hidx hj
  own := fun _ hj _ ↦ (sameFiles_putInodeBit h hidx).own h hj
  content := fun _ hj _ ↦ (sameFiles_putInodeBit h hidx).content h hj
  maxFsBlocks := rfl
  allocFailed := id

/-- Changing a bit of the inode freemap with the count keeps the invariant. -/
theorem Sound.putInodeBit (h : Sound s) (hidx : idx < s.inodeFreemap.nbits)
    (hused : used = (s.inodeFreemap.put idx value).allocated.card) :
    Sound (s.putInodeBit idx value used) := by
  have hzero : 0 < nrInodes := by decide
  refine h.of_same (sameFiles_putInodeBit h.core hidx) (others_putInodeBit h.core hidx 0) hzero
    ?_ ?_ ?_ hused
  · rw [dinode_putInodeBit h.core.layout hidx hzero]
    exact h.extent 0 hzero
  · exact h.types 0
  · rw [diskDinode_putInodeBit h.core.layout hidx hzero]
    exact h.clean 0

/-- What `testfs_create_inode` has done when it made inode `i`: what is in the inode so far stays,
the type is set. -/
structure Created (type : InodeType) (s t : FsState) (i : ℕ) (inode' : Inode) : Prop where
  sound : Sound t
  others : Others i s t
  lt : i < nrInodes
  clear : s.inodeFreemap.bit i = false
  least : ∀ j < i, s.inodeFreemap.bit j = true
  inMemory : t.inodeHashTable i = some inode'
  inode : inode' = ⟨{ s.dinode i with iType := type.code }, true,
    ((s.inodeHashTable i).map Inode.iCount).getD 0 + 1⟩
  own : t.own i = s.own i
  content : t.content i = s.content i
  disk : t.diskDinode i = s.diskDinode i
  inodeFreemap : t.inodeFreemap = s.inodeFreemap.put i true
  allocFailed : t.allocFailed = s.allocFailed

/-- `testfs_create_inode` found no inode number: no inode has changed. -/
structure NotCreated (s t : FsState) : Prop where
  sound : Sound t
  full : ∀ idx < nrInodes, s.inodeFreemap.bit idx = true
  others : ∀ i, Others i s t
  inodeFreemap : t.inodeFreemap = s.inodeFreemap
  allocFailed : t.allocFailed = s.allocFailed

theorem code_range (type : InodeType) : -2 ^ 31 ≤ type.code ∧ type.code < 2 ^ 31 := by
  cases type <;> decide

/-- Setting the type of an in-memory inode. -/
theorem Sound.setType (h : Sound s) {i : ℕ} {inode : Inode} (ht : s.inodeHashTable i = some inode)
    (type : InodeType) : Sound (s.setInode i
      (some { inode with din := { inode.din with iType := type.code }, dirty := true })) := by
  have hextent := h.extent_of_some ht
  refine h.setInode (h.lt ht) ?_ ?_ hextent (code_range type) (fun hdirty ↦ absurd hdirty (by simp))
  · rw [dinode_of_some ht]
    rfl
  · rw [dinode_of_some ht]

theorem Sound.bit_iff {i : ℕ} (h : Sound s) (hi : i < nrInodes) :
    s.inodeFreemap.bit i = true ↔ i ∈ s.inodeFreemap.allocated := by
  rw [Bitmap.mem_allocated, h.core.layout.inodeBits]
  exact ⟨fun hset ↦ ⟨lt_of_lt_of_le hi (by decide), hset⟩, And.right⟩

/-- `testfs_create_inode` takes the least free inode number below `nrInodes`. -/
theorem Sound.create (h : Sound s) (type : InodeType) :
    (∃ i t inode', (testfsCreateInode type).run s = .ok ((0, i), t) ∧ Created type s t i inode') ∨
      ∃ t, (testfsCreateInode type).run s = .ok ((-eNOSPC, 0), t) ∧ NotCreated s t := by
  have hlayout := h.core.layout
  rw [testfsCreateInode]
  rcases testfsGetInodeFreemap_spec hlayout with ⟨idx, hidx, hclear, hleast, hget⟩ | ⟨hget, hfull⟩
  swap
  · refine Or.inr ⟨s, ?_, h, fun idx hidx ↦ hfull idx ?_, fun i ↦ Others.refl i s, rfl, rfl⟩
    · rw [Program.run_bind hget, if_pos (by decide), Program.pure_run]
    · rw [hlayout.inodeBits]
      exact lt_of_lt_of_le hidx (by decide)
  rw [Program.run_bind hget, if_neg (not_lt.mpr (Int.natCast_nonneg idx)), Int.toNat_natCast]
  have hnot : idx ∉ s.inodeFreemap.allocated := by
    rw [Bitmap.mem_allocated, hclear]
    simp
  have hcard : s.sb.usedInodeCount + 1 = (s.inodeFreemap.put idx true).allocated.card := by
    rw [Bitmap.allocated_put_true hidx, Finset.card_insert_of_notMem hnot, h.inodes]
  have hmarked : Sound (s.putInodeBit idx true (s.sb.usedInodeCount + 1)) :=
    h.putInodeBit hidx hcard
  by_cases hlast : idx / inodesPerBlock ≥ nrInodeBlocks
  · have hset : (s.putInodeBit idx true (s.sb.usedInodeCount + 1)).inodeFreemap.bit idx = true := by
      change (s.inodeFreemap.put idx true).bit idx = true
      rw [Bitmap.bit_put, if_pos rfl]
    have hback : (s.inodeFreemap.put idx true).put idx false = s.inodeFreemap :=
      Bitmap.put_put_of_bit hclear
    have hidx' : idx < (s.putInodeBit idx true (s.sb.usedInodeCount + 1)).inodeFreemap.nbits := hidx
    refine Or.inr ⟨(s.putInodeBit idx true (s.sb.usedInodeCount + 1)).putInodeBit idx false
      s.sb.usedInodeCount, ?_, hmarked.putInodeBit hidx' ?_,
      fun j hj ↦ hleast j (lt_of_lt_of_le hj ((Nat.le_div_iff_mul_le (by decide)).mp hlast)),
      fun i ↦ (others_putInodeBit h.core hidx i).trans (others_putInodeBit hmarked.core hidx' i),
      hback, rfl⟩
    · rw [if_pos hlast, Program.run_bind (testfsPutInodeFreemap_run hidx' hset (Nat.succ_pos _)),
        Program.pure_run]
      rfl
    · change s.sb.usedInodeCount = ((s.inodeFreemap.put idx true).put idx false).allocated.card
      rw [hback, h.inodes]
  have hlt : idx < nrInodes := by
    rw [ge_iff_le, Nat.le_div_iff_mul_le (by decide), not_le] at hlast
    exact hlast
  obtain ⟨u, n, hrun, hu, hsound, hdin, hcount, -⟩ := hmarked.getInode hlt
  have hn : u.inodeHashTable idx = some n := by rw [hu, inodeHashTable_setInode_self]
  have hothers : Others idx s u := by
    rw [hu]
    exact (others_putInodeBit h.core hidx idx).trans (others_setInode _ idx _)
  have hsame : SameFiles u (u.setInode idx
      (some { n with din := { n.din with iType := type.code }, dirty := true })) := by
    refine sameFiles_setInode hsound.core hlt ?_ ?_
    · rw [dinode_setInode_self, dinode_of_some hn]
      rfl
    · rw [dinode_setInode_self, dinode_of_some hn]
      rfl
  have hmid : SameFiles (s.putInodeBit idx true (s.sb.usedInodeCount + 1)) u := by
    rw [hu]
    refine sameFiles_setInode hmarked.core hlt ?_ ?_
    · rw [dinode_setInode_self, ← hdin]
      rfl
    · rw [dinode_setInode_self, ← hdin]
      rfl
  have hfirst : SameFiles s (s.putInodeBit idx true (s.sb.usedInodeCount + 1)) :=
    sameFiles_putInodeBit h.core hidx
  rw [dinode_putInodeBit hlayout hidx hlt] at hdin
  refine Or.inl ⟨idx, _, _, ?_, hsound.setType hn type, hothers.trans (others_setInode u idx _),
    hlt, hclear, hleast, inodeHashTable_setInode_self _ _ _, ?_, ?_, ?_, ?_, ?_, ?_⟩
  · rw [if_neg hlast, Program.run_bind hrun, Program.run_bind (modifyDinode_run hn _),
      Program.run_bind (markDirty_run (inodeHashTable_setInode_self _ _ _)), setInode_setInode,
      Program.pure_run]
  · rw [hdin, hcount]
    rfl
  · rw [hsame.own hsound.core hlt, hmid.own hmarked.core hlt, hfirst.own h.core hlt]
  · rw [hsame.content hsound.core hlt, hmid.content hmarked.core hlt, hfirst.content h.core hlt]
  · change u.diskDinode idx = _
    rw [hu]
    exact diskDinode_putInodeBit hlayout hidx hlt
  · change u.inodeFreemap = _
    rw [hu]
    rfl
  · change u.allocFailed = _
    rw [hu]
    rfl

/-- It finds one if one is free. -/
theorem Sound.create_free (h : Sound s) (type : InodeType)
    (hfree : ∃ i < nrInodes, s.inodeFreemap.bit i = false) :
    ∃ c t inode, (testfsCreateInode type).run s = .ok ((0, c), t) ∧ Created type s t c inode := by
  rcases h.create type with hcreated | ⟨t, -, hn⟩
  · exact hcreated
  · obtain ⟨i, hi, hclear⟩ := hfree
    rw [hn.full i hi] at hclear
    exact absurd hclear (by decide)

end Create

/-! ### Removing -/

section Remove

variable {s t : FsState} {i : ℕ} {inode n : Inode} {S : Finset Slot}

theorem slotVal_zero (blocks : ℕ → Block) (σ : Slot) : slotVal blocks Dinode.zero σ = 0 := by
  induction σ using Slot.parentInduction with
  | htop σ hσ =>
    cases σ with
    | direct k => rfl
    | indirect => rfl
    | dindirect => rfl
    | _ => simp [Slot.parent] at hσ
  | hentry σ π hσ ih => rw [slotVal_eq_entry _ _ hσ, ih, entry, if_pos rfl]

namespace Freeing

theorem disk (h : Freeing i inode S s t n) (hs : Core s) (hi : i < nrInodes) {j : ℕ}
    (hj : j < nrInodes) : t.diskDinode j = s.diskDinode j := by
  refine diskDinode_congr hs.layout (by rw [h.sb]) (fun b hlow hhigh ↦ ?_) hj
  refine h.kept b hlow fun σ _ hne ↦ ?_
  have hdata := (hs.own_toNat hi hne).2.1
  omega

/-- The blocks of other inodes are kept. -/
theorem blocks_other (h : Freeing i inode S s t n) (hs : Core s) (hi : i < nrInodes) {j : ℕ}
    (hj : j < nrInodes) (hji : j ≠ i) {σ : Slot} (hσ : s.own j σ ≠ 0) :
    t.dev.blocks (s.own j σ).toNat = s.dev.blocks (s.own j σ).toNat := by
  refine h.kept _ (le_trans (by decide) (hs.own_toNat hj hσ).2.1) fun τ _ hτ heq ↦ ?_
  exact hji (hs.own_inj hj hi hσ heq hτ).1

theorem others (h : Freeing i inode S s t n) (hs : Core s) (hi : i < nrInodes) : Others i s t := by
  have hown : ∀ j < nrInodes, j ≠ i → t.own j = s.own j := by
    intro j hj hji
    refine own_congr ?_ fun σ _ hσ ↦ h.blocks_other hs hi hj hji hσ
    rw [FsState.dinode, FsState.dinode, h.table_ne j hji, h.disk hs hi hj]
  refine ⟨h.table_ne, fun j hj _ ↦ h.disk hs hi hj, hown, ?_, by rw [h.sb], ?_⟩
  · exact fun j hj hji ↦ content_congr (hown j hj hji) fun σ _ hσ ↦ h.blocks_other hs hi hj hji hσ
  · rw [h.allocFailed]
    exact id

theorem allocated_subset (h : Freeing i inode S s t n) :
    t.blockFreemap.allocated ⊆ s.blockFreemap.allocated := by
  intro idx hidx
  rw [Bitmap.mem_allocated] at hidx ⊢
  rw [h.nbits] at hidx
  exact ⟨hidx.1, ((h.bit idx).mp hidx.2).1⟩

/-- What is in use when every block of the inode has been given back. -/
theorem inUse_iff (h : Freeing i inode S s t n) (hall : ∀ σ, s.own i σ ≠ 0 → σ ∈ S) (r : ℤ) :
    InUse t.blockFreemap r ↔ InUse s.blockFreemap r ∧ ∀ σ, s.own i σ ≠ r := by
  constructor
  · rintro ⟨idx, hidx, rfl, hset⟩
    obtain ⟨hbit, hfree⟩ := (h.bit idx).mp hset
    refine ⟨⟨idx, hidx, rfl, hbit⟩, fun σ heq ↦ hfree σ (hall σ ?_) heq⟩
    rw [heq]
    positivity
  · rintro ⟨⟨idx, hidx, rfl, hset⟩, hfree⟩
    exact ⟨idx, hidx, rfl, (h.bit idx).mpr ⟨hset, fun σ _ ↦ hfree σ⟩⟩

/-- A block that is free when every block of the inode has been given back is zero. -/
theorem zero_of_clear (h : Freeing i inode S s t n) (hs : Core s) (hi : i < nrInodes) {idx : ℕ}
    (hidx : idx < nrDataBlocks) (hclear : t.blockFreemap.bit idx = false) :
    t.dev.blocks (firstDataBlock + idx) = Block.zero := by
  by_cases hmine : ∃ σ ∈ S, s.own i σ = (firstDataBlock + idx : ℕ)
  · obtain ⟨σ, hσ, heq⟩ := hmine
    have hzero := h.zeroed σ hσ (by rw [heq]; positivity)
    rwa [heq, Int.toNat_natCast] at hzero
  · push Not at hmine
    have hfree : s.blockFreemap.bit idx = false := by
      by_contra hset
      rw [(h.bit idx).mpr ⟨by simpa using hset, hmine⟩] at hclear
      exact absurd hclear (by decide)
    rw [h.kept (firstDataBlock + idx) (le_trans (by decide : firstInodeBlock ≤ firstDataBlock)
      (Nat.le_add_right _ _)), hs.zeroed idx hidx hfree]
    intro σ hσ hne heq
    exact hmine σ hσ (by rw [heq, (hs.own_toNat hi hne).1])

/-- The count of the inode is down to zero when every block has been given back. -/
theorem count_zero (h : Freeing i inode S s t n) (hs : Core s)
    (ht : s.inodeHashTable i = some inode)
    (hall : ∀ σ, s.own i σ ≠ 0 → σ ∈ S) : n.din.blockCount = 0 := by
  have hcount := hs.ledger.count_eq i (hs.table i inode ht)
  have hheld : heldIn (s.own i) S = heldSlots (s.own i) := by
    ext σ
    rw [heldIn, Finset.mem_filter, mem_heldSlots]
    exact ⟨fun hand ↦ hand.2, fun hne ↦ ⟨hall σ hne, hne⟩⟩
  rw [dinode_of_some ht] at hcount
  rw [h.count, hheld, hcount, sub_self]

end Freeing

/-- The invariant when the inode whose blocks have been given back is cleared. -/
theorem Sound.clear (h : Sound s) (ht : s.inodeHashTable i = some inode)
    (hfree : Freeing i inode S s t n) (hall : ∀ σ, s.own i σ ≠ 0 → σ ∈ S) (count : ℤ) :
    Sound (t.setInode i (some ⟨Dinode.zero, true, count⟩)) := by
  have hi := h.lt ht
  have hcore := h.core
  have hself : (t.setInode i (some ⟨Dinode.zero, true, count⟩)).dinode i = Dinode.zero :=
    dinode_setInode_self _ _ _
  have hothers : Others i s (t.setInode i (some ⟨Dinode.zero, true, count⟩)) :=
    (hfree.others hcore hi).trans (others_setInode _ _ _)
  have hown : (t.setInode i (some ⟨Dinode.zero, true, count⟩)).own i = fun _ ↦ 0 := by
    funext σ
    rw [FsState.own, hself, slotVal_zero]
  have htable : ∀ j m, (t.setInode i (some ⟨Dinode.zero, true, count⟩)).inodeHashTable j = some m →
      j = i ∧ m = ⟨Dinode.zero, true, count⟩ ∨ j ≠ i ∧ s.inodeHashTable j = some m := by
    intro j m hm
    by_cases hji : j = i
    · subst hji
      rw [inodeHashTable_setInode_self, Option.some.injEq] at hm
      exact Or.inl ⟨rfl, hm.symm⟩
    · exact Or.inr ⟨hji, by rwa [hothers.table j hji] at hm⟩
  refine ⟨⟨(hfree.layout hcore.layout).setInode _ _, ?_, ?_, ?_, ?_, ?_⟩, ?_, ?_, ?_, ?_, ?_⟩
  · refine (hcore.ledger.releaseAll (i := i) hi).congr ?_ (fun r _ ↦ hfree.inUse_iff hall r) ?_
    · intro j hj
      by_cases hji : j = i
      · rw [hji, Function.update_self, hown]
      · rw [Function.update_of_ne hji, hothers.own j hj hji]
    · intro j hj
      by_cases hji : j = i
      · simp only [hji, Function.update_self, hself]
        rfl
      · simp only [Function.update_of_ne hji, hothers.dinode hj hji]
  · change t.sb.usedBlockCount = t.blockFreemap.allocated.card
    rw [hfree.sb]
  · have hle := Finset.card_le_card hfree.allocated_subset
    have hlimit := hcore.limit
    rw [hcore.used] at hlimit
    change t.sb.usedBlockCount ≤ t.sb.maxFsBlocks
    rw [hfree.sb]
    exact hle.trans hlimit
  · exact fun idx hidx hclear ↦ hfree.zero_of_clear hcore hi hidx hclear
  · intro j m hm
    rcases htable j m hm with ⟨rfl, -⟩ | ⟨-, hj⟩
    · exact hi
    · exact h.lt hj
  · intro idx hidx hset
    exact (h.reached idx hidx ((hfree.bit idx).mp hset).1).trans_le hfree.len
  · intro j hj
    by_cases hji : j = i
    · rw [hji, hown, hself]
      exact ⟨le_rfl, Int.natCast_nonneg _, fun σ hσ ↦ absurd rfl hσ, fun hpos ↦
        absurd hpos (lt_irrefl _)⟩
    · rw [hothers.own j hj hji, hothers.dinode hj hji]
      exact h.extent j hj
  · intro j m hm
    rcases htable j m hm with ⟨-, rfl⟩ | ⟨-, hj⟩
    · exact code_range .none
    · exact h.types j m hj
  · intro j m hm hdirty
    rcases htable j m hm with ⟨-, rfl⟩ | ⟨hji, hj⟩
    · exact absurd hdirty (by simp)
    · rw [hothers.disk j (h.lt hj) hji, hothers.own j (h.lt hj) hji]
      exact h.clean j m hj hdirty
  · change t.sb.usedInodeCount = t.inodeFreemap.allocated.card
    rw [hfree.sb, hfree.inodeFreemap]
    exact h.inodes

/-- What `testfs_remove_inode` has done to inode `i`. -/
structure Removed (i : ℕ) (inode : Inode) (s t : FsState) : Prop where
  sound : Sound t
  others : Others i s t
  dinode : t.dinode i = Dinode.zero
  disk : t.diskDinode i = Dinode.zero
  inMemory : t.inodeHashTable i =
    if inode.iCount - 1 = 0 then none else some ⟨Dinode.zero, false, inode.iCount - 1⟩
  inodeFreemap : t.inodeFreemap = s.inodeFreemap.put i false
  allocFailed : t.allocFailed = s.allocFailed

theorem Removed.own (h : Removed i inode s t) : t.own i = fun _ ↦ 0 := by
  funext σ
  rw [FsState.own, h.dinode, slotVal_zero]

theorem Removed.content (h : Removed i inode s t) : t.content i = fun _ ↦ 0 := by
  funext o
  rw [FsState.content, h.own, if_neg fun hand ↦ hand.2 rfl]

/-- `testfs_remove_inode` of an inode in use gives back its blocks and its number. -/
theorem Sound.remove (h : Sound s) (ht : s.inodeHashTable i = some inode)
    (hset : s.inodeFreemap.bit i = true) :
    ∃ t, (testfsRemoveInode i).run s = .ok ((), t) ∧ Removed i inode s t := by
  have hi := h.lt ht
  obtain ⟨S, u, n, hrun, hfree, hall⟩ :=
    testfsFreeBlocks_run h.core h.reached ht (h.extent_of_some ht)
  have hcleared := h.clear ht hfree hall n.iCount
  have hu : u.inodeHashTable i = some n := hfree.inMemory
  have hbits : i < u.inodeFreemap.nbits := by
    rw [hfree.inodeFreemap, h.core.layout.inodeBits]
    exact lt_of_lt_of_le hi (by decide)
  have hmem : i ∈ u.inodeFreemap.allocated := by
    rw [Bitmap.mem_allocated]
    exact ⟨hbits, by rw [hfree.inodeFreemap]; exact hset⟩
  have hused := hcleared.inodes
  have hpos : 0 < u.sb.usedInodeCount := by
    change u.sb.usedInodeCount = u.inodeFreemap.allocated.card at hused
    rw [hused]
    exact Finset.card_pos.mpr ⟨i, hmem⟩
  obtain ⟨v, hv⟩ : ∃ v, v = u.setInode i (some ⟨Dinode.zero, true, n.iCount⟩) := ⟨_, rfl⟩
  rw [← hv] at hcleared
  have hvbits : i < v.inodeFreemap.nbits := by rw [hv]; exact hbits
  have hothers : Others i s v := by
    rw [hv]
    exact (hfree.others h.core hi).trans (others_setInode _ _ _)
  have hunmarked : Sound (v.putInodeBit i false (v.sb.usedInodeCount - 1)) := by
    refine hcleared.putInodeBit hvbits ?_
    rw [Bitmap.allocated_put_false, Finset.card_erase_of_mem, hcleared.inodes]
    rw [hv]
    exact hmem
  obtain ⟨w, hw⟩ : ∃ w, w = v.putInodeBit i false (v.sb.usedInodeCount - 1) := ⟨_, rfl⟩
  rw [← hw] at hunmarked
  have hwmem : w.inodeHashTable i = some ⟨Dinode.zero, true, n.iCount⟩ := by
    rw [hw, hv]
    exact inodeHashTable_setInode_self _ _ _
  have hsynced := hunmarked.syncInode hwmem
  have hsyncedMem : (w.syncInode i ⟨Dinode.zero, true, n.iCount⟩).inodeHashTable i =
      some ⟨Dinode.zero, false, n.iCount⟩ := inodeHashTable_setInode_self _ _ _
  have hdisk : (w.syncInode i ⟨Dinode.zero, true, n.iCount⟩).diskDinode i = Dinode.zero := by
    rw [diskDinode_syncInode hunmarked.core.layout (hunmarked.fits hwmem), if_pos rfl]
  have hwothers : Others i s w := by
    rw [hw]
    exact hothers.trans (others_putInodeBit hcleared.core hvbits i)
  refine ⟨_, ?_, hsynced.putInode hsyncedMem rfl, (hwothers.trans
    (others_syncInode hunmarked hwmem)).trans (others_setInode _ _ _), ?_, hdisk, ?_, ?_, ?_⟩
  · have hbit : v.inodeFreemap.bit i = true := by
      rw [hv]
      exact (Bitmap.mem_allocated.mp hmem).2
    have hvpos : 0 < v.sb.usedInodeCount := by rw [hv]; exact hpos
    rw [testfsRemoveInode, Program.run_bind hrun, Program.run_bind (inodeRef_run hu),
      Program.check_bind_run (hfree.count_zero h.core ht hall),
      Program.run_bind (modifyDinode_run hu _),
      Program.run_bind (markDirty_run (inodeHashTable_setInode_self _ _ _)), setInode_setInode,
        ← hv,
      Program.run_bind (testfsPutInodeFreemap_run hvbits hbit hvpos), ← hw,
      Program.run_bind (testfsSyncInode_run hunmarked.core.layout hi hwmem), if_pos rfl,
      testfsPutInode_run hsyncedMem rfl]
  · rw [dinode_setInode_self]
    split_ifs
    · exact hdisk
    · rfl
  · rw [inodeHashTable_setInode_self, hfree.iCount]
  · change w.inodeFreemap = _
    rw [hw, hv]
    change u.inodeFreemap.put i false = _
    rw [hfree.inodeFreemap]
  · change w.allocFailed = _
    rw [hw, hv]
    exact hfree.allocFailed

end Remove

end OperatingSystems.Fs
