import OperatingSystems.Fs.InodeRuns

/-!
# Removing an inode gives back its blocks

Runs in which inodes are also fetched, put back and written to disk at any time, next to the calls
of `InodeRuns`. `Accounted` holds in every state of such a run. It decides by itself which bits of
the block freemap are set: those of the blocks that some inode owns. So the freemap after a removal
can be read off what the other inodes own (`Removed.freesBlocks`), and so can the freemap after a
file has been created, written to in any way and removed: it is the one from before
(`WorkedOn.removed`).
-/

set_option autoImplicit false
set_option relaxedAutoImplicit false

namespace OperatingSystems.Fs

open Library Library.Machine

/-! ### Calls -/

/-- A call of the inode layer, with the functions that fetch an inode, put it back and write it to
disk. -/
inductive InodeAction
  | call (op : InodeOp)
  | get (i : ℕ)
  | put (i : ℕ)
  | sync (i : ℕ)

namespace InodeAction

def program : InodeAction → FsProgram Unit
  | .call op => op.call
  | .get i => testfsGetInode i
  | .put i => testfsPutInode i
  | .sync i => testfsSyncInode i

/-- The inode the call is about, if there is one before the call. -/
def target : InodeAction → Option ℕ
  | .call (.create _) => none
  | .call (.write i _ _) | .call (.read i _ _) | .call (.remove i) => some i
  | .get i | .put i | .sync i => some i

/-- The inode of the call is in use, and in memory unless it is fetched. -/
def Allowed (s : FsState) (action : InodeAction) : Prop :=
  ∀ i, action.target = some i → i ∈ s.inodeFreemap.allocated ∧
    (action = .get i ∨ (s.inodeHashTable i).isSome)

/-- The state in which the call returns, if it does. -/
def step (s : FsState) (action : InodeAction) : Option FsState :=
  (action.program.run s).toOption.map Prod.snd

theorem step_eq_some_iff {s t : FsState} {action : InodeAction} :
    step s action = some t ↔ action.program.run s = .ok ((), t) := by
  rw [step]
  cases action.program.run s with
  | ok result => simp [Except.toOption, Prod.ext_iff]
  | error e => simp [Except.toOption]

end InodeAction

/-! ### The invariant -/

/-- Next to `Sound`: inode numbers in use are numbers of inodes, and a free inode owns nothing. -/
structure Accounted (s : FsState) : Prop where
  sound : Sound s
  inodes : ∀ i ∈ s.inodeFreemap.allocated, i < nrInodes
  free : ∀ i < nrInodes, i ∉ s.inodeFreemap.allocated → s.own i = fun _ ↦ 0

section Accounted

variable {s t : FsState} {i : ℕ} {inode : Inode}

/-- Only one inode has changed what it owns, and it is in use; the freemap of the inodes is as it
was. -/
theorem Accounted.of_others (h : Accounted s) (hsound : Sound t) (hothers : Others i s t)
    (hmap : t.inodeFreemap = s.inodeFreemap) (hi : i ∈ s.inodeFreemap.allocated) : Accounted t where
  sound := hsound
  inodes := by
    rw [hmap]
    exact h.inodes
  free := by
    intro j hj hfree
    rw [hmap] at hfree
    rw [hothers.own j hj (fun heq ↦ hfree (heq ▸ hi)), h.free j hj hfree]

theorem Accounted.created (h : Accounted s) {type : InodeType} {inode' : Inode}
    (hc : Created type s t i inode') : Accounted t := by
  have hbits : i < s.inodeFreemap.nbits := by
    rw [h.sound.core.layout.inodeBits]
    exact lt_of_lt_of_le hc.lt (by decide)
  have hmap : t.inodeFreemap.allocated = insert i s.inodeFreemap.allocated := by
    rw [hc.inodeFreemap, Bitmap.allocated_put_true hbits]
  refine ⟨hc.sound, fun j hj ↦ ?_, fun j hj hfree ↦ ?_⟩
  · rw [hmap, Finset.mem_insert] at hj
    exact hj.elim (fun hji ↦ hji ▸ hc.lt) (h.inodes j)
  · rw [hmap, Finset.mem_insert, not_or] at hfree
    rw [hc.others.own j hj hfree.1, h.free j hj hfree.2]

theorem Accounted.notCreated (h : Accounted s) (hn : NotCreated s t) : Accounted t := by
  refine ⟨hn.sound, ?_, fun j hj hfree ↦ ?_⟩
  · rw [hn.inodeFreemap]
    exact h.inodes
  · rw [hn.inodeFreemap] at hfree
    rw [(hn.others (j + 1)).own j hj (by omega), h.free j hj hfree]

theorem Accounted.removed (h : Accounted s) (hr : Removed i inode s t) : Accounted t := by
  have hmap : t.inodeFreemap.allocated = s.inodeFreemap.allocated.erase i := by
    rw [hr.inodeFreemap, Bitmap.allocated_put_false]
  refine ⟨hr.sound, fun j hj ↦ ?_, fun j hj hfree ↦ ?_⟩
  · rw [hmap] at hj
    exact h.inodes j (Finset.mem_of_mem_erase hj)
  · by_cases hji : j = i
    · rw [hji, hr.own]
    · rw [hmap, Finset.mem_erase, not_and] at hfree
      rw [hr.others.own j hj hji, h.free j hj (hfree hji)]

/-- Fetching an inode, putting it back and writing it to disk keep the invariant, and change no
other inode. -/
theorem Accounted.handle (h : Accounted s) {action : InodeAction}
    (haction : action = .get i ∨ action = .put i ∨ action = .sync i)
    (hallowed : action.Allowed s) (hstep : action.step s = some t) :
    Accounted t ∧ Others i s t ∧ t.inodeFreemap = s.inodeFreemap := by
  have htarget : action.target = some i := by rcases haction with rfl | rfl | rfl <;> rfl
  obtain ⟨hmem, hmemory⟩ := hallowed i htarget
  have hi := h.inodes i hmem
  have hexists : action ≠ .get i → ∃ n, s.inodeHashTable i = some n := fun hne ↦
    Option.isSome_iff_exists.mp (hmemory.resolve_left hne)
  suffices hsuff : Sound t ∧ Others i s t ∧ t.inodeFreemap = s.inodeFreemap by
    obtain ⟨hsound, hothers, hmap⟩ := hsuff
    exact ⟨h.of_others hsound hothers hmap hmem, hothers, hmap⟩
  rw [InodeAction.step_eq_some_iff] at hstep
  rcases haction with rfl | rfl | rfl
  · obtain ⟨u, n, hrun, rfl, hsound, -⟩ := h.sound.getInode hi
    obtain ⟨-, rfl⟩ := Prod.mk.inj (Except.ok.inj (hrun.symm.trans hstep))
    exact ⟨hsound, others_setInode s i _, rfl⟩
  · obtain ⟨n, ht⟩ := hexists (by simp)
    -- A dirty inode fails the assertion of `testfs_put_inode`.
    have hclean : n.dirty = false := by
      have hput : (testfsPutInode i).run s = .ok ((), t) := hstep
      rw [testfsPutInode, Program.run_bind (inodeRef_run ht)] at hput
      obtain ⟨_, _, hcheck, -⟩ := Program.bind_eq_ok_iff.mp hput
      exact (Program.check_eq_ok_iff.mp hcheck).1
    obtain ⟨-, rfl⟩ := Prod.mk.inj (Except.ok.inj ((testfsPutInode_run ht hclean).symm.trans hstep))
    exact ⟨h.sound.putInode ht hclean, others_setInode s i _, rfl⟩
  · obtain ⟨n, ht⟩ := hexists (by simp)
    have hrun := testfsSyncInode_run h.sound.core.layout hi ht
    split_ifs at hrun with hdirty
    · obtain ⟨-, rfl⟩ := Prod.mk.inj (Except.ok.inj (hrun.symm.trans hstep))
      exact ⟨h.sound.syncInode ht, others_syncInode h.sound ht, rfl⟩
    · obtain ⟨-, rfl⟩ := Prod.mk.inj (Except.ok.inj (hrun.symm.trans hstep))
      exact ⟨h.sound, Others.refl i s, rfl⟩

/-- Writing to an inode and reading from it keep the invariant, and change no other inode. -/
theorem Accounted.useFile (h : Accounted s) {op : InodeOp}
    (hop : (∃ buf start, op = .write i buf start) ∨ ∃ start size, op = .read i start size)
    (hallowed : (InodeAction.call op).Allowed s) (hstep : (InodeAction.call op).step s = some t) :
    Accounted t ∧ Others i s t ∧ t.inodeFreemap = s.inodeFreemap := by
  have htarget : (InodeAction.call op).target = some i := by
    rcases hop with ⟨buf, start, rfl⟩ | ⟨start, size, rfl⟩ <;> rfl
  obtain ⟨hmem, hmemory⟩ := hallowed i htarget
  obtain ⟨inode, ht⟩ := Option.isSome_iff_exists.mp (hmemory.resolve_left (by simp))
  have hrun : op.call.run s = .ok ((), t) := InodeAction.step_eq_some_iff.mp hstep
  rcases hop with ⟨buf, start, rfl⟩ | ⟨start, size, rfl⟩
  · obtain ⟨result, hrun⟩ := Program.discard_eq_ok_iff.mp hrun
    obtain ⟨failure, n, u, inode', hwrite, hw⟩ := h.sound.write ht buf start
    obtain ⟨-, rfl⟩ := Prod.mk.inj (Except.ok.inj (hwrite.symm.trans hrun))
    exact ⟨h.of_others hw.sound hw.others hw.inodeFreemap hmem, hw.others, hw.inodeFreemap⟩
  · obtain ⟨result, hrun⟩ := Program.discard_eq_ok_iff.mp hrun
    have hsame : t = s := preserves_testfsReadData (I := (· = s)) i start size rfl hrun
    subst hsame
    exact ⟨h, Others.refl i t, rfl⟩

/-- Every call keeps the invariant. -/
theorem Accounted.step (h : Accounted s) {action : InodeAction} (hallowed : action.Allowed s)
    (hstep : action.step s = some t) : Accounted t := by
  cases action with
  | get i => exact (h.handle (.inl rfl) hallowed hstep).1
  | put i => exact (h.handle (.inr (.inl rfl)) hallowed hstep).1
  | sync i => exact (h.handle (.inr (.inr rfl)) hallowed hstep).1
  | call op =>
    cases op with
    | write i buf start => exact (h.useFile (.inl ⟨buf, start, rfl⟩) hallowed hstep).1
    | read i start size => exact (h.useFile (.inr ⟨start, size, rfl⟩) hallowed hstep).1
    | create type =>
      obtain ⟨result, hrun⟩ := Program.discard_eq_ok_iff.mp (InodeAction.step_eq_some_iff.mp hstep)
      rcases h.sound.create type with ⟨c, u, inode', hcreate, hc⟩ | ⟨u, hcreate, hn⟩
      · obtain ⟨-, rfl⟩ := Prod.mk.inj (Except.ok.inj (hcreate.symm.trans hrun))
        exact h.created hc
      · obtain ⟨-, rfl⟩ := Prod.mk.inj (Except.ok.inj (hcreate.symm.trans hrun))
        exact h.notCreated hn
    | remove i =>
      obtain ⟨hmem, hmemory⟩ := hallowed i rfl
      obtain ⟨inode, ht⟩ := Option.isSome_iff_exists.mp (hmemory.resolve_left (by simp))
      obtain ⟨u, hremove, hr⟩ := h.sound.remove ht ((h.sound.bit_iff (h.inodes i hmem)).mpr hmem)
      obtain ⟨-, rfl⟩ := Prod.mk.inj (Except.ok.inj
        (hremove.symm.trans (InodeAction.step_eq_some_iff.mp hstep)))
      exact h.removed hr

/-- A file system fresh from `mktestfs` and every state that such calls lead to. -/
def ActionRun (maxFsBlocks : ℕ) (s : FsState) : Prop :=
  ∃ s₀, freshFs maxFsBlocks = .ok s₀ ∧ Reaches InodeAction.Allowed InodeAction.step s₀ s

theorem ActionRun.accounted {maxFsBlocks : ℕ} (hmax : maxFsBlocks ≤ nrDataBlocks)
    (h : ActionRun maxFsBlocks s) : Accounted s := by
  obtain ⟨s₀, hfresh, hrun⟩ := h
  obtain ⟨s₁, hs₁, hspec⟩ := freshFs_spec hmax
  obtain rfl := Except.ok.inj (hs₁.symm.trans hfresh)
  have htidy := hspec.tidy
  exact hrun.invariant (fun _ _ _ h hallowed hstep ↦ h.step hallowed hstep)
    ⟨htidy.sound, htidy.inodes, htidy.free⟩

end Accounted

/-! ### What a removal frees -/

/-- The removal of an inode has freed exactly its blocks and its number, and cleared it on disk; the
other inodes are as they were. -/
structure FreesBlocks (i : ℕ) (s t : FsState) : Prop where
  blocks : ∀ idx, idx ∈ t.blockFreemap.allocated ↔ idx ∈ s.blockFreemap.allocated ∧
    ∀ σ, s.own i σ ≠ (s.sb.dataBlocksStart + idx : ℕ)
  usedBlocks : t.sb.usedBlockCount + (s.dinode i).blockCount = s.sb.usedBlockCount
  inodes : t.inodeFreemap.allocated = s.inodeFreemap.allocated.erase i
  usedInodes : t.sb.usedInodeCount + 1 = s.sb.usedInodeCount
  disk : t.diskDinode i = Dinode.zero
  others : ∀ j < nrInodes, j ≠ i → t.dinode j = s.dinode j ∧ t.diskDinode j = s.diskDinode j ∧
    t.own j = s.own j ∧ t.content j = s.content j

section Frees

variable {s t : FsState} {i : ℕ} {inode : Inode}

/-- The number of bits of the blocks an inode owns is the number of slots it holds. -/
theorem Core.card_owned (h : Core s) (hi : i < nrInodes) :
    (s.blockFreemap.allocated.filter fun idx ↦ ∃ σ, s.own i σ = (firstDataBlock + idx : ℕ)).card =
      (heldSlots (s.own i)).card := by
  symm
  refine Finset.card_bij (fun σ _ ↦ (s.own i σ).toNat - firstDataBlock) ?_ ?_ ?_
  · intro σ hσ
    have hne := mem_heldSlots.mp hσ
    obtain ⟨hcast, hle, -⟩ := h.own_toNat hi hne
    have heq : s.own i σ = (firstDataBlock + ((s.own i σ).toNat - firstDataBlock) : ℕ) := by
      rw [Nat.add_sub_cancel' hle, hcast]
    exact Finset.mem_filter.mpr ⟨h.mem_allocated.mpr ⟨i, hi, σ, heq⟩, σ, heq⟩
  · intro σ hσ τ hτ heq
    have hσne := mem_heldSlots.mp hσ
    have hτne := mem_heldSlots.mp hτ
    have hσle := (h.own_toNat hi hσne).2.1
    have hτle := (h.own_toNat hi hτne).2.1
    exact (h.own_inj hi hi hσne (by omega) hτne).2
  · intro idx hidx
    obtain ⟨-, σ, hσ⟩ := Finset.mem_filter.mp hidx
    refine ⟨σ, mem_heldSlots.mpr ?_, ?_⟩
    · rw [hσ]
      positivity
    · rw [hσ, Int.toNat_natCast, Nat.add_sub_cancel_left]

/-- One inode owns nothing any more and the others own what they did: exactly its blocks are freed.
-/
theorem Core.mem_allocated_of_zero (hs : Core s) (ht : Core t) (hi : i < nrInodes)
    (hzero : t.own i = fun _ ↦ 0) (hothers : ∀ j < nrInodes, j ≠ i → t.own j = s.own j) (idx : ℕ) :
    idx ∈ t.blockFreemap.allocated ↔ idx ∈ s.blockFreemap.allocated ∧
      ∀ σ, s.own i σ ≠ (firstDataBlock + idx : ℕ) := by
  have hne : ((firstDataBlock + idx : ℕ) : ℤ) ≠ 0 := by positivity
  rw [ht.mem_allocated, hs.mem_allocated]
  constructor
  · rintro ⟨j, hj, σ, hσ⟩
    have hji : j ≠ i := by
      rintro rfl
      rw [hzero] at hσ
      exact hne hσ.symm
    rw [hothers j hj hji] at hσ
    refine ⟨⟨j, hj, σ, hσ⟩, fun τ hτ ↦ hji ?_⟩
    exact (hs.ledger.unique j hj i hi σ τ (by rw [hσ]; exact hne) (hσ.trans hτ.symm)).1
  · rintro ⟨⟨j, hj, σ, hσ⟩, hfree⟩
    have hji : j ≠ i := by
      rintro rfl
      exact hfree σ hσ
    exact ⟨j, hj, σ, by rw [hothers j hj hji, hσ]⟩

/-- As many blocks are free as the inode had. -/
theorem Core.used_of_zero (hs : Core s) (ht : Core t) (hi : i < nrInodes)
    (hzero : t.own i = fun _ ↦ 0) (hothers : ∀ j < nrInodes, j ≠ i → t.own j = s.own j) :
    t.sb.usedBlockCount + (s.dinode i).blockCount = s.sb.usedBlockCount := by
  have hsplit := Finset.card_filter_add_card_filter_not (s := s.blockFreemap.allocated)
    fun idx ↦ ∃ σ, s.own i σ = (firstDataBlock + idx : ℕ)
  have hrest : (s.blockFreemap.allocated.filter fun idx ↦
      ¬∃ σ, s.own i σ = (firstDataBlock + idx : ℕ)) = t.blockFreemap.allocated := by
    ext idx
    rw [Finset.mem_filter, hs.mem_allocated_of_zero ht hi hzero hothers, not_exists]
  rw [hs.card_owned hi, hrest] at hsplit
  rw [hs.ledger.count_eq i hi, hs.used, ht.used]
  omega

/-- One number fewer is in use. -/
theorem Sound.usedInodes_of_erase (hs : Sound s) (ht : Sound t)
    (hmem : i ∈ s.inodeFreemap.allocated)
    (hmap : t.inodeFreemap.allocated = s.inodeFreemap.allocated.erase i) :
    t.sb.usedInodeCount + 1 = s.sb.usedInodeCount := by
  rw [hs.inodes, ht.inodes, hmap, Finset.card_erase_of_mem hmem]
  have hpos := Finset.card_pos.mpr ⟨i, hmem⟩
  omega

/-- `testfs_remove_inode` frees exactly the blocks of the inode. -/
theorem Removed.freesBlocks (h : Removed i inode s t) (hs : Sound s) (hi : i < nrInodes)
    (hmem : i ∈ s.inodeFreemap.allocated) : FreesBlocks i s t := by
  have hmap : t.inodeFreemap.allocated = s.inodeFreemap.allocated.erase i := by
    rw [h.inodeFreemap, Bitmap.allocated_put_false]
  refine ⟨?_, hs.core.used_of_zero h.sound.core hi h.own h.others.own, hmap,
    hs.usedInodes_of_erase h.sound hmem hmap, h.disk, fun j hj hne ↦ ⟨h.others.dinode hj hne,
      h.others.disk j hj hne, h.others.own j hj hne, h.others.content j hj hne⟩⟩
  rw [hs.core.layout.dataBlocksStart]
  exact hs.core.mem_allocated_of_zero h.sound.core hi h.own h.others.own

/-- Fetching an inode changes nothing of what it owns and stores. -/
theorem Accounted.getInode (h : Accounted s) (hmem : i ∈ s.inodeFreemap.allocated) :
    ∃ u inode, (testfsGetInode i).run s = .ok ((), u) ∧ Accounted u ∧
      u.inodeHashTable i = some inode ∧ u = s.setInode i (some inode) ∧ inode.din = s.dinode i := by
  obtain ⟨u, n, hrun, hu, hsound, hdin, -⟩ := h.sound.getInode (h.inodes i hmem)
  refine ⟨u, n, hrun, ?_, ?_, hu, hdin⟩
  · subst hu
    exact h.of_others hsound (others_setInode s i _) rfl hmem
  · rw [hu, inodeHashTable_setInode_self]

theorem FreesBlocks.of_setInode (h : FreesBlocks i (s.setInode i (some inode)) t)
    (hdin : inode.din = s.dinode i) : FreesBlocks i s t := by
  have hself : (s.setInode i (some inode)).dinode i = s.dinode i := by
    rw [dinode_setInode_self]
    exact hdin
  have hown : (s.setInode i (some inode)).own i = s.own i :=
    own_congr (by rw [hself]) fun _ _ _ ↦ rfl
  have hother := others_setInode s i (some inode)
  refine ⟨?_, ?_, h.inodes, h.usedInodes, h.disk, ?_⟩
  · rw [← hown]
    exact h.blocks
  · rw [← hself]
    exact h.usedBlocks
  · intro j hj hne
    obtain ⟨hdinode, hdisk, hown, hcontent⟩ := h.others j hj hne
    exact ⟨hdinode.trans (hother.dinode hj hne), hdisk.trans (hother.disk j hj hne),
      hown.trans (hother.own j hj hne), hcontent.trans (hother.content j hj hne)⟩

/-- `testfs_remove_inode` succeeds on every inode in use and in memory. -/
theorem Accounted.remove (h : Accounted s) (hmem : i ∈ s.inodeFreemap.allocated)
    (hmemory : (s.inodeHashTable i).isSome) :
    ∃ t, (testfsRemoveInode i).run s = .ok ((), t) ∧ FreesBlocks i s t := by
  have hi := h.inodes i hmem
  obtain ⟨inode, ht⟩ := Option.isSome_iff_exists.mp hmemory
  obtain ⟨t, hrun, hr⟩ := h.sound.remove ht ((h.sound.bit_iff hi).mpr hmem)
  exact ⟨t, hrun, hr.freesBlocks h.sound hi hmem⟩

end Frees

/-! ### A file that is created, used and removed -/

/-- The call is about inode `c`, and does not remove it. -/
def WorksOn (c : ℕ) (s : FsState) (action : InodeAction) : Prop :=
  action.Allowed s ∧ action.target = some c ∧ action ≠ .call (.remove c)

/-- The blocks and inode numbers in use, their counts and every inode in use are as they were. -/
structure AsBefore (s t : FsState) : Prop where
  blocks : t.blockFreemap.allocated = s.blockFreemap.allocated
  usedBlocks : t.sb.usedBlockCount = s.sb.usedBlockCount
  inodes : t.inodeFreemap.allocated = s.inodeFreemap.allocated
  usedInodes : t.sb.usedInodeCount = s.sb.usedInodeCount
  files : ∀ j ∈ s.inodeFreemap.allocated,
    t.dinode j = s.dinode j ∧ t.diskDinode j = s.diskDinode j ∧ t.content j = s.content j

section WorkedOn

variable {s t u v : FsState} {c : ℕ} {inode inode' : Inode} {type : InodeType}

/-- One call about inode `c` keeps the invariant and every other inode. -/
theorem Accounted.worksOn (h : Accounted s) {action : InodeAction} (hworks : WorksOn c s action)
    (hstep : action.step s = some t) :
    Accounted t ∧ Others c s t ∧ t.inodeFreemap = s.inodeFreemap := by
  obtain ⟨hallowed, htarget, hremove⟩ := hworks
  cases action with
  | get i =>
    obtain rfl : i = c := Option.some.inj htarget
    exact h.handle (.inl rfl) hallowed hstep
  | put i =>
    obtain rfl : i = c := Option.some.inj htarget
    exact h.handle (.inr (.inl rfl)) hallowed hstep
  | sync i =>
    obtain rfl : i = c := Option.some.inj htarget
    exact h.handle (.inr (.inr rfl)) hallowed hstep
  | call op =>
    cases op with
    | write i buf start =>
      obtain rfl : i = c := Option.some.inj htarget
      exact h.useFile (.inl ⟨buf, start, rfl⟩) hallowed hstep
    | read i start size =>
      obtain rfl : i = c := Option.some.inj htarget
      exact h.useFile (.inr ⟨start, size, rfl⟩) hallowed hstep
    | create type => exact absurd htarget (by simp [InodeAction.target])
    | remove i =>
      obtain rfl : i = c := Option.some.inj htarget
      exact absurd rfl hremove

/-- Any number of them do. -/
theorem Accounted.workedOn (h : Accounted s) (hrun : Reaches (WorksOn c) InodeAction.step s t) :
    Accounted t ∧ Others c s t ∧ t.inodeFreemap = s.inodeFreemap := by
  refine hrun.invariant (I := fun x ↦ Accounted x ∧ Others c s x ∧ x.inodeFreemap = s.inodeFreemap)
    ?_ ⟨h, Others.refl c s, rfl⟩
  rintro x action y ⟨hx, hothers, hmap⟩ hworks hstep
  obtain ⟨hy, hothers', hmap'⟩ := hx.worksOn hworks hstep
  exact ⟨hy, hothers.trans hothers', hmap'.trans hmap⟩

/-- Removing an inode that was created and then worked on leads back to the state before. -/
theorem WorkedOn.removed (h : Accounted s) (hc : Created type s u c inode)
    (hrun : Reaches (WorksOn c) InodeAction.step u t) (hr : Removed c inode' t v) :
    AsBefore s v := by
  obtain ⟨-, hothers, hmap⟩ := (h.created hc).workedOn hrun
  have hnot : c ∉ s.inodeFreemap.allocated := by
    rw [← h.sound.bit_iff hc.lt, hc.clear]
    exact Bool.false_ne_true
  have hall : Others c s v := (hc.others.trans hothers).trans hr.others
  have hown : ∀ j < nrInodes, v.own j = s.own j := by
    intro j hj
    by_cases hjc : j = c
    · rw [hjc, hr.own, h.free c hc.lt hnot]
    · exact hall.own j hj hjc
  have hblocks : v.blockFreemap.allocated = s.blockFreemap.allocated :=
    h.sound.core.allocated_congr hr.sound.core hown
  have hbits : c < s.inodeFreemap.nbits := by
    rw [h.sound.core.layout.inodeBits]
    exact lt_of_lt_of_le hc.lt (by decide)
  have hinodes : v.inodeFreemap.allocated = s.inodeFreemap.allocated := by
    rw [hr.inodeFreemap, hmap, hc.inodeFreemap, Bitmap.allocated_put_false,
      Bitmap.allocated_put_true hbits, Finset.erase_insert hnot]
  refine ⟨hblocks, ?_, hinodes, ?_, fun j hj ↦ ?_⟩
  · rw [hr.sound.core.used, h.sound.core.used, hblocks]
  · rw [hr.sound.inodes, h.sound.inodes, hinodes]
  · have hjc : j ≠ c := fun heq ↦ hnot (heq ▸ hj)
    have hlt := h.inodes j hj
    exact ⟨hall.dinode hlt hjc, hall.disk j hlt hjc, hall.content j hlt hjc⟩

/-- Assumes: a file system of at most as many blocks as the freemap has bits, fresh from
`mktestfs`, and any calls of the inode layer on it. Then `testfs_remove_inode` on an inode in use
frees exactly its blocks; and if an inode was created and then used by any calls, its removal leads
back to the blocks, the counts and the inodes from before its creation. -/
theorem remove_frees_blocks {maxFsBlocks : ℕ} (hmax : maxFsBlocks ≤ nrDataBlocks)
    (hrun : ActionRun maxFsBlocks s) :
    (∀ i ∈ s.inodeFreemap.allocated, (s.inodeHashTable i).isSome →
      ∃ t, (testfsRemoveInode i).run s = .ok ((), t) ∧ FreesBlocks i s t) ∧
    (∀ i ∈ s.inodeFreemap.allocated, ∃ u t, (testfsGetInode i).run s = .ok ((), u) ∧
      (testfsRemoveInode i).run u = .ok ((), t) ∧ FreesBlocks i s t) ∧
    ∀ type c u t, (testfsCreateInode type).run s = .ok ((0, c), u) →
      Reaches (WorksOn c) InodeAction.step u t → (t.inodeHashTable c).isSome →
      ∃ v, (testfsRemoveInode c).run t = .ok ((), v) ∧ FreesBlocks c t v ∧ AsBefore s v := by
  have h := hrun.accounted hmax
  refine ⟨fun i hmem hmemory ↦ h.remove hmem hmemory, ?_, ?_⟩
  · intro i hmem
    obtain ⟨u, inode, hget, hu, ht, rfl, hdin⟩ := h.getInode hmem
    obtain ⟨t, hremove, hfrees⟩ := hu.remove hmem (Option.isSome_iff_exists.mpr ⟨inode, ht⟩)
    exact ⟨_, t, hget, hremove, hfrees.of_setInode hdin⟩
  · intro type c u t hcreate hworked hmemory
    rcases h.sound.create type with ⟨c', u', inode, hcreate', hc⟩ | ⟨u', hcreate', -⟩
    · obtain ⟨hfst, rfl⟩ := Prod.mk.inj (Except.ok.inj (hcreate'.symm.trans hcreate))
      obtain ⟨-, rfl⟩ := Prod.mk.inj hfst
      obtain ⟨ht, -, hmap⟩ := (h.created hc).workedOn hworked
      have hbits : c' < s.inodeFreemap.nbits := by
        rw [h.sound.core.layout.inodeBits]
        exact lt_of_lt_of_le hc.lt (by decide)
      have hmem : c' ∈ t.inodeFreemap.allocated := by
        rw [hmap, hc.inodeFreemap, Bitmap.allocated_put_true hbits]
        exact Finset.mem_insert_self c' _
      obtain ⟨inode', ht'⟩ := Option.isSome_iff_exists.mp hmemory
      obtain ⟨v, hremove, hr⟩ := ht.sound.remove ht' ((ht.sound.bit_iff hc.lt).mpr hmem)
      exact ⟨v, hremove, hr.freesBlocks ht.sound hc.lt hmem, WorkedOn.removed h hc hworked hr⟩
    · exact absurd (Prod.mk.inj (Prod.mk.inj (Except.ok.inj (hcreate'.symm.trans hcreate))).1).1
        (by decide)

/-- A file is created in a new file system of eight blocks, three bytes are written to it, and it is
removed. -/
theorem remove_frees_blocks_written : ∃ s c t v, freshFs 8 = .ok s ∧
    t.file c = FileView.empty.write [97, 10, 98] 0 3 ∧ ActionRun 8 t ∧
    (testfsRemoveInode c).run t = .ok ((), v) ∧ FreesBlocks c t v ∧ AsBefore s v := by
  obtain ⟨s, c, u, t, hfresh, hcreate, hwrite, hset, hmemory, -, hloaded, hfile⟩ := freshFs_written
  have hrun : ActionRun 8 s := ⟨s, hfresh, Relation.ReflTransGen.refl⟩
  have hworks : WorksOn c u (.call (.write c [97, 10, 98] 0)) := by
    refine ⟨fun i hi ↦ ?_, rfl, by simp⟩
    obtain rfl : c = i := Option.some.inj hi
    exact ⟨hset, Or.inr hmemory⟩
  have hwritten : InodeAction.step u (.call (.write c [97, 10, 98] 0)) = some t :=
    InodeAction.step_eq_some_iff.mpr (Program.discard_run hwrite)
  have hcreated : InodeAction.step s (.call (.create .file)) = some u :=
    InodeAction.step_eq_some_iff.mpr (Program.discard_run hcreate)
  obtain ⟨v, hremove, hfrees, hbefore⟩ := (remove_frees_blocks (by decide) hrun).2.2 .file c u t
    hcreate (Relation.ReflTransGen.single ⟨_, hworks, hwritten⟩) hloaded
  have htrun : ActionRun 8 t := by
    refine ⟨s, hfresh, (Relation.ReflTransGen.single ⟨.call (.create .file), ?_, hcreated⟩).tail
      ⟨_, hworks.1, hwritten⟩⟩
    exact fun i hi ↦ absurd hi (by simp [InodeAction.target])
  exact ⟨s, c, t, v, hfresh, hfile, htrun, hremove, hfrees, hbefore⟩

end WorkedOn

end OperatingSystems.Fs
