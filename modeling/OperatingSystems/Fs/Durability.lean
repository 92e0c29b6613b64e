import OperatingSystems.Fs.References
import OperatingSystems.Fs.Room

/-!
# Written files on disk

When `cmd_write` returns it has written the inode back with `testfs_sync_inode`, which does
nothing for an inode that is not marked as dirty. A write that runs into a block it cannot
allocate stores the size it has reached without the mark, and only an allocation before that
point has set it. `LosesSize` describes, in the state before the command, the writes for which
this matters, and `write_durable_iff` says that it is exactly for these that the dinode on disk is
not the one the write has produced.
-/

set_option autoImplicit false
set_option relaxedAutoImplicit false

namespace OperatingSystems.Fs

open Library Library.Machine

/-- The size of a file that a write from `start` on has filled up to block `k`. -/
def sizeUpTo (size : ℤ) (start k : ℕ) : ℤ :=
  if k * blockSize ≤ start then size else max size (k * blockSize : ℕ)

/-- A write of `buf` at `start` to a clean inode gets stuck at a block before it allocates one,
and the size it has reached is not the one on disk. -/
def LosesSize (s : FsState) (i start : ℕ) (buf : List UInt8) : Prop :=
  (∀ inode, s.inodeHashTable i = some inode → inode.dirty = false) ∧
    ∃ k, FailsClean s i (start / blockSize) k ∧
      (buf ≠ [] ∧ k * blockSize < start + buf.length ∨ maxFileSize ≤ start) ∧
      sizeUpTo (s.dinode i).iSize start k ≠ (s.diskDinode i).iSize

/-- After a write to inode `i` from the state `s` on that has produced the state `u`, the state
`t` has the inode on disk: its dinode is there, the others are as they were, and any file system
that has only this disk finds the file with its size and content. -/
structure Durable (i : ℕ) (s u t : FsState) : Prop where
  disk : t.diskDinode i = u.dinode i
  others : ∀ j < nrInodes, j ≠ i → t.diskDinode j = s.diskDinode j
  reread : ∀ v : FsState, v.dev = t.dev → v.sb = t.sb → v.inodeHashTable i = none →
    v.file i = u.file i

section Durable

variable {s t u : FsState} {i start n k k' : ℕ} {buf : List UInt8} {failure : Option ℤ}
  {inode inode' : Inode}

theorem failsClean_fetch {first : ℕ} (s : FsState) (i k : ℕ) :
    FailsClean (s.fetch i) i first k ↔ FailsClean s i first k := by
  have hstuck : Stuck (s.fetch i) i k ↔ Stuck s i k := by
    rw [Stuck, Stuck, own_fetch]
    rfl
  refine ⟨fun h ↦ ⟨h.le, fun l hle hlt ↦ ?_, hstuck.mp h.stuck⟩,
    fun h ↦ ⟨h.le, fun l hle hlt ↦ ?_, hstuck.mpr h.stuck⟩⟩
  · have hfound := h.found l hle hlt
    rwa [own_fetch] at hfound
  · rw [own_fetch]
    exact h.found l hle hlt

/-- The inode that a write which got stuck leaves has the size up to the block. -/
theorem Written.iSize_eq (hw : Written i start buf inode s failure n t inode') {ret : ℤ}
    (hret : failure = some ret) :
    inode'.din.iSize = sizeUpTo inode.din.iSize start ((start + n) / blockSize) := by
  rw [hw.iSize, sizeUpTo]
  rcases hw.short ret hret with hn | hdvd
  · rw [hn, add_zero, if_pos rfl, if_pos (Nat.div_mul_le_self start blockSize)]
  · rw [Nat.div_mul_cancel hdvd]
    by_cases hn : n = 0
    · rw [if_pos hn, if_pos (by omega)]
    · rw [if_neg hn, if_neg (by omega)]

theorem Dinode.eq_withSize_iff {d : Dinode} {size : ℤ} : d = d.withSize size ↔ size = d.iSize := by
  constructor
  · intro h
    rw [h, Dinode.iSize_withSize]
  · rintro rfl
    rfl

/-- The dinode that a write has produced is on disk after `testfs_sync_inode`, unless the write
loses the size. -/
theorem Written.onDisk_iff (hs : Sound s) (ht : s.inodeHashTable i = some inode)
    (hw : Written i start buf inode s failure n u inode') :
    ((if inode'.dirty then inode'.din else u.diskDinode i) = inode'.din) ↔
      ¬ LosesSize s i start buf := by
  have hdinode := dinode_of_some ht
  rw [hw.disk]
  cases hfail : failure with
  | none =>
    rw [(hw.complete hfail).2, if_pos rfl]
    refine iff_of_true rfl ?_
    rintro ⟨-, k, hstuck, ⟨hbuf, hk⟩ | hbig, -⟩
    · exact hw.room hfail (List.length_pos_iff.mpr hbuf) k hk hstuck
    · exact absurd (hw.within hfail) (not_lt.mpr hbig)
  | some ret =>
    rcases hw.clean ret hfail with ⟨hsame, hstuck⟩ | ⟨hdirty, hnot, -⟩
    swap
    · rw [hdirty, if_pos rfl]
      exact iff_of_true rfl fun hloses ↦ hloses.2.elim fun k hk ↦ hnot k hk.1
    have hflag : inode'.dirty = inode.dirty := by rw [hsame]
    cases hdirty : inode.dirty with
    | true =>
      rw [hflag, hdirty, if_pos rfl]
      refine iff_of_true rfl fun hloses ↦ ?_
      rw [hloses.1 inode ht] at hdirty
      exact absurd hdirty (by decide)
    | false =>
      have hdin : inode'.din = (s.diskDinode i).withSize inode'.din.iSize := by
        have hdisk := (hs.clean i inode ht hdirty).1
        rw [hsame]
        simp only
        rw [hdisk, Dinode.withSize_withSize, Dinode.iSize_withSize]
      have hsize := hw.iSize_eq hfail
      rw [hflag, hdirty, if_neg Bool.false_ne_true, hdin, Dinode.eq_withSize_iff, hsize, ← hdinode]
      constructor
      · rintro heq ⟨-, k, hk, -, hne⟩
        rw [hk.unique hstuck] at hne
        exact hne heq
      · intro hloses
        by_contra hne
        refine hloses ⟨fun m hm ↦ ?_, _, hstuck, ?_, hne⟩
        · rw [ht, Option.some.injEq] at hm
          rw [← hm, hdirty]
        · rcases hw.unfinished ret hfail with hlt | hbig
          · refine Or.inl ⟨fun hempty ↦ ?_, ?_⟩
            · rw [hempty, List.length_nil] at hlt
              omega
            · have hle := Nat.div_mul_le_self (start + n) blockSize
              omega
          · exact Or.inr hbig

/-- A file system that has only the disk of a state in which the inode was given up. -/
theorem Returned.content_of_disk (hr : Returned i inode u t) {v : FsState} (hdev : v.dev = t.dev)
    (hsb : v.sb = t.sb) (hnone : v.inodeHashTable i = none) :
    v.dinode i = t.diskDinode i ∧ v.content i = u.content i := by
  have hdinode : v.dinode i = t.diskDinode i := by
    rw [dinode_of_none hnone, FsState.diskDinode, FsState.diskDinode, hdev, hsb]
  have hslots : (v.dinode i).slots = (t.dinode i).slots := by
    rw [hdinode]
    cases ht : t.inodeHashTable i with
    | none => rw [dinode_of_none ht]
    | some m =>
      have hclean : m.dirty = false := by
        have hmem := hr.inMemory
        rw [ht] at hmem
        split_ifs at hmem with hlast
        rw [Option.some.inj hmem]
      rw [dinode_of_some ht, (hr.sound.clean i m ht hclean).1, Dinode.slots_withSize]
  refine ⟨hdinode, ?_⟩
  rw [← hr.content]
  refine content_congr (own_congr hslots fun _ _ _ ↦ ?_) fun _ _ _ ↦ ?_
  · rw [hdev]
  · rw [hdev]

/-- A dirty inode that was given up. -/
theorem Returned.dinode (hr : Returned i inode u t) (hdirty : inode.dirty = true) :
    t.dinode i = inode.din := by
  cases ht : t.inodeHashTable i with
  | none => rw [dinode_of_none ht, hr.disk, hdirty, if_pos rfl]
  | some m =>
    have hmem := hr.inMemory
    rw [ht] at hmem
    split_ifs at hmem with hlast
    rw [dinode_of_some ht, Option.some.inj hmem]

/-- The inode was written and given up. -/
theorem Written.durable_iff (hs : Sound s) (ht : s.inodeHashTable i = some inode)
    (hw : Written i start buf inode s failure n u inode') (hr : Returned i inode' u t) :
    Durable i s u t ↔ ¬ LosesSize s i start buf := by
  rw [← hw.onDisk_iff hs ht, ← hr.disk, ← dinode_of_some hw.inMemory]
  refine ⟨Durable.disk, fun hdisk ↦ ⟨hdisk, fun j hj hji ↦ ?_, fun v hdev hsb hnone ↦ ?_⟩⟩
  · rw [hr.others.disk j hj hji, hw.others.disk j hj hji]
  · obtain ⟨hdinode, hcontent⟩ := hr.content_of_disk hdev hsb hnone
    rw [FsState.file, FsState.file, hdinode, hdisk, hcontent]

theorem losesSize_fetch (s : FsState) (i start : ℕ) (buf : List UInt8) :
    LosesSize (s.fetch i) i start buf ↔ LosesSize s i start buf := by
  have hdisk : (s.fetch i).diskDinode i = s.diskDinode i := rfl
  have hclean : (∀ inode, (s.fetch i).inodeHashTable i = some inode → inode.dirty = false) ↔
      ∀ inode, s.inodeHashTable i = some inode → inode.dirty = false := by
    rw [FsState.fetch, inodeHashTable_setInode_self]
    cases s.inodeHashTable i with
    | none => simp
    | some m => simp
  rw [LosesSize, LosesSize, hclean, dinode_fetch, hdisk]
  simp only [failsClean_fetch]

theorem durable_fetch (s u t : FsState) (i : ℕ) : Durable i (s.fetch i) u t ↔ Durable i s u t :=
  ⟨fun h ↦ ⟨h.disk, h.others, h.reread⟩, fun h ↦ ⟨h.disk, h.others, h.reread⟩⟩

/-- `testfs_get_file_inode` has fetched the file it found. -/
theorem Sound.getFileInode {dir c : ℕ} {name : CString} (hs : Sound s)
    (hrun : (testfsGetFileInode dir name).run s = .ok ((0, c), t)) : c < nrInodes ∧
    t = s.fetch c := by
  obtain ⟨nr, u, hfind, hrest⟩ := Program.bind_eq_ok_iff.mp hrun
  obtain rfl : u = s := preserves_dirNameToInodeNr (I := (· = s)) dir name rfl hfind
  split_ifs at hrest with hneg
  · obtain ⟨hresult, -⟩ := Prod.mk.inj (Except.ok.inj hrest)
    rw [(Prod.mk.inj hresult).1] at hneg
    exact absurd hneg (lt_irrefl 0)
  obtain ⟨_, v, hget, hrest⟩ := Program.bind_eq_ok_iff.mp hrest
  have hlt := hs.lt_of_getInode hget
  obtain ⟨-, rfl⟩ := Prod.mk.inj (Except.ok.inj
    ((testfsGetInode_fetch hs.core.layout hlt).symm.trans hget))
  obtain ⟨type, w, htype, hrest⟩ := Program.bind_eq_ok_iff.mp hrest
  obtain rfl : w = u.fetch nr.toNat :=
    preserves_getType (I := (· = u.fetch nr.toNat)) nr.toNat rfl htype
  split_ifs at hrest with hdir
  · obtain ⟨_, x, -, hpure⟩ := Program.bind_eq_ok_iff.mp hrest
    obtain ⟨hresult, -⟩ := Prod.mk.inj (Except.ok.inj hpure)
    exact absurd (Prod.mk.inj hresult).1 (by decide)
  · obtain ⟨hresult, rfl⟩ := Prod.mk.inj (Except.ok.inj hrest)
    obtain ⟨-, rfl⟩ := Prod.mk.inj hresult
    exact ⟨hlt, rfl⟩

end Durable

/-! ### Writes in runs -/

section Runs

variable {p : Session} {maxFsBlocks start c : ℕ} {filename offset : CString} {s : FsState}

/-- The file system is sound in every session of a run. -/
theorem CommandRun.sound {permitted : Session → ℕ × Command → Prop}
    (hmax : maxFsBlocks ≤ nrDataBlocks) (h : CommandRun permitted maxFsBlocks p) : Sound p.fs := by
  obtain ⟨p₀, hstart, hrun⟩ := h
  have hinv : ∃ ρ, Referenced ρ p.fs ∧ ρ p.curDir ≠ 0 := by
    refine Reaches.invariant (I := fun p ↦ ∃ ρ, Referenced ρ p.fs ∧ ρ p.curDir ≠ 0) ?_ hrun
      ⟨_, hstart.referenced hmax, only_ne_zero _⟩
    rintro p ⟨depth, c⟩ q ⟨ρ, hρ, hcur⟩ - hstep
    exact hρ.step hcur hstep
  obtain ⟨ρ, hρ, -⟩ := hinv
  exact hρ.sound

/-- `cmd_write` to a file that was found returns, and what `testfs_write_data` has produced is on
disk exactly if the write does not lose the size. -/
theorem Sound.cmdWrite_durable {fs : FsState} {cur : ℕ} (hsound : Sound fs) (buf : CString)
    (hoffset : strToOffset offset = .ok (start : ℤ))
    (hfile : (testfsGetFileInode cur filename).run fs = .ok ((0, c), s)) :
    ∃ ret u t, (testfsWriteData c buf.bytes start).run s = .ok (ret, u) ∧
      (cmdWrite cur [filename, offset, buf]).run fs = .ok (.silent cur ret, t) ∧
      (Durable c fs u t ↔ ¬ LosesSize fs c start buf.bytes) := by
  obtain ⟨hc, rfl⟩ := hsound.getFileInode hfile
  obtain ⟨n, hn⟩ := inodeHashTable_fetch fs c
  have hfetched := hsound.fetch hc
  obtain ⟨failure, k, u, n', hwrite, hw⟩ := hfetched.write hn buf.bytes start
  obtain ⟨t, hr, hcmd⟩ := hw.cmdWrite_run hwrite hoffset hfile
  have hiff := hw.durable_iff hfetched hn hr
  rw [losesSize_fetch, durable_fetch] at hiff
  exact ⟨_, u, t, hwrite, hcmd, hiff⟩

/-- Assumes: any run of commands on a fresh file system, and in the session it leads to a file name
that `testfs_get_file_inode` finds and an offset that is not negative. Then `cmd_write` returns,
and what `testfs_write_data` has produced is on disk exactly if the write does not lose the size. -/
theorem write_durable_iff (buf : CString) (hmax : maxFsBlocks ≤ nrDataBlocks)
    (hrun : CommandRun (fun _ _ ↦ True) maxFsBlocks p)
    (hoffset : strToOffset offset = .ok (start : ℤ))
    (hfile : (testfsGetFileInode p.curDir filename).run p.fs = .ok ((0, c), s)) :
    ∃ ret u t, (testfsWriteData c buf.bytes start).run s = .ok (ret, u) ∧
      (cmdWrite p.curDir [filename, offset, buf]).run p.fs = .ok (.silent p.curDir ret, t) ∧
      (Durable c p.fs u t ↔ ¬ LosesSize p.fs c start buf.bytes) :=
  (hrun.sound hmax).cmdWrite_durable buf hoffset hfile

end Runs

/-! ### A write that loses the size -/

section Full

variable {s : FsState} {i j : ℕ} {σ τ : Slot}

/-- Two owned blocks fill a file system of two blocks. -/
theorem Sound.full_of_two (h : Sound s) (hmax : s.sb.maxFsBlocks = 2) (hi : i < nrInodes)
    (hj : j < nrInodes) (hne : i ≠ j) (hσ : s.own i σ ≠ 0) (hτ : s.own j τ ≠ 0) : s.Full := by
  obtain ⟨a, ha, haeq, haset⟩ := h.core.inUse hi hσ
  obtain ⟨b, hb, hbeq, hbset⟩ := h.core.inUse hj hτ
  have hab : a ≠ b := by
    rintro rfl
    exact hne (h.core.ledger.unique i hi j hj σ τ hσ (haeq.trans hbeq.symm)).1
  have hcard : 1 < s.blockFreemap.allocated.card := by
    refine Finset.one_lt_card.mpr ⟨a, ?_, b, ?_, hab⟩
    · rw [Bitmap.mem_allocated, h.core.layout.blockBits]
      exact ⟨ha, haset⟩
    · rw [Bitmap.mem_allocated, h.core.layout.blockBits]
      exact ⟨hb, hbset⟩
  refine Or.inl ?_
  rw [hmax, h.core.used]
  exact hcard

end Full

/-- The offset `0`. -/
def offsetZero : CString := ⟨[48], by decide⟩

/-- The text `a`. -/
def textA : CString := ⟨[97], by decide⟩

/-- The text `abc`. -/
def textABC : CString := ⟨[97, 98, 99], by decide⟩

/-- The words of `write f 0 a`. -/
def writeA : List CString := [nameF, offsetZero, textA]

/-- The offset `8191`. -/
def offset8191 : CString := ⟨[56, 49, 57, 49], by decide⟩

/-- The text `bc`. -/
def textBC : CString := ⟨[98, 99], by decide⟩

section Lost

variable {T : NameTree ℕ CString} {dirs : ℕ → List Record} {c : ℕ} {p : Session}

/-- After `create f` in a new file system only the root has a block. -/
theorem CreatedF.used_le_one {maxFsBlocks : ℕ} (h : CreatedF maxFsBlocks T dirs c p) :
    p.fs.sb.usedBlockCount ≤ 1 := by
  refine h.inTree.calm.toSound.used_le_one_of_root (fun i hi hi0 ↦ ?_) h.size
  by_cases hmem : i ∈ p.fs.inodeFreemap.allocated
  · rw [(h.allocated i hmem).resolve_right hi0, h.own]
  · funext σ
    have hzero := h.inTree.represents.free i hi fun hpresent ↦
      hmem ((h.inTree.represents.present i).mp hpresent)
    rw [FsState.own, hzero, slotVal_zero]

/-- There is room for the rest of the blocks. -/
theorem CreatedF.hasRoom {maxFsBlocks n : ℕ} (h : CreatedF maxFsBlocks T dirs c p)
    (hlimit : n + 1 ≤ maxFsBlocks) (hmax : maxFsBlocks ≤ nrDataBlocks) : HasRoom n p.fs := by
  have hused := h.used_le_one
  exact h.inTree.calm.core.hasRoom (by rw [h.limit]; omega) (by omega)

theorem CreatedF.file {maxFsBlocks : ℕ} (h : CreatedF maxFsBlocks T dirs c p) : ¬ T.isDir c := by
  intro hdir
  have htype := ((h.inTree.represents.isDir c).mp hdir).2
  rw [h.type] at htype
  exact absurd htype (by decide)

/-- A text of less than a block is written to the new file in a file system of eight blocks. -/
theorem CreatedF.writes (h : CreatedF 8 T dirs c p) {offset : CString} {start : ℕ} (buf : CString)
    (hoffset : strToOffset offset = .ok (start : ℤ)) (hlen : buf.bytes.length < blockSize)
    (hstart : start < maxFileSize) (hend : start + buf.bytes.length ≤ maxFileSize) :
    ∃ q, p.step (0, ⟨.write, [nameF, offset, buf]⟩) = some q ∧ q.curDir = 0 ∧
      InTree T dirs q.fs 0 ∧
      q.fs.file c = FileView.empty.write buf.bytes start buf.bytes.length := by
  have hfile := h.file
  obtain ⟨hpresent, hfound⟩ := h.inTree.fileInode_run h.lookup hfile
  have hlt := h.inTree.represents.bound c hpresent
  have hfetched := (h.inTree.fetch hlt).calm.toSound
  obtain ⟨n, hn⟩ := inodeHashTable_fetch p.fs c
  have hmissing := missing_writeSlots_le (p.fs.fetch c) c start buf.bytes.length
  rw [Nat.div_eq_of_lt hlen] at hmissing
  have hroom : HasRoom (0 + (p.fs.fetch c).missing c (writeSlots start buf.bytes.length))
      (p.fs.fetch c) :=
    ((h.hasRoom (n := 6) (by decide) (by decide)).setInode c _).mono
      (by rw [zero_add]; exact hmissing)
  obtain ⟨u, n', hwrite, hw, -⟩ := hfetched.write_room hn hstart hend hroom
  obtain ⟨t, hr, hcmd⟩ := hw.cmdWrite_run hwrite hoffset hfound
  have hempty : (p.fs.fetch c).file c = FileView.empty :=
    hfetched.file_of_own hlt (by rw [own_fetch, h.own])
  refine ⟨⟨t, 0⟩, Session.step_eq_some_iff.mpr
    ⟨.silent 0 (toInt32 buf.bytes.length), ?_, rfl⟩, rfl,
    h.inTree.wrote hpresent hfile hn hw.worked hr, ?_⟩
  · rw [h.curDir]
    exact hcmd
  · simp only
    rw [← hempty, ← hw.file hfetched hn, FsState.file, FsState.file,
      hr.dinode (hw.complete rfl).2, dinode_of_some hw.inMemory, hr.content]

/-- The session after `create f` and `write f 0 a` in a new file system of two blocks: the file
has one byte, and its block is the last one. -/
structure WrittenA (T : NameTree ℕ CString) (dirs : ℕ → List Record) (c : ℕ) (p : Session) :
    Prop where
  inTree : InTree T dirs p.fs 0
  lookup : lookup (dirs 0) nameF = some (c : ℤ)
  file : ¬ T.isDir c
  curDir : p.curDir = 0
  size : (p.fs.dinode c).iSize = 1
  synced : (p.fs.diskDinode c).iSize = 1
  full : p.fs.Full

theorem CreatedF.write (h : CreatedF 2 T dirs c p) :
    ∃ q, p.step (0, ⟨.write, writeA⟩) = some q ∧ WrittenA T dirs c q := by
  have hfile := h.file
  obtain ⟨hpresent, hfound⟩ := h.inTree.fileInode_run h.lookup hfile
  have hc := h.inTree.represents.bound c hpresent
  have hoffset : strToOffset offsetZero = .ok ((0 : ℕ) : ℤ) := by decide
  obtain ⟨n, failure, k, u, n', t, hn, hw, hr, hrun, hdone⟩ :=
    h.inTree.writeFile hpresent hfile textA hoffset hfound
  have hsucceeds : failure = none := by
    refine hw.failure_none_of_first (by decide) (Or.inr fun hfull ↦ ?_)
    exact (h.hasRoom (n := 1) le_rfl (by decide)).not_full hfull
  obtain ⟨hk, hdirty⟩ := hw.complete hsucceeds
  have hsize₀ : n.din.iSize = 0 := by
    have hextent := h.inTree.calm.toSound.extent c hc
    rw [← dinode_of_some hn, dinode_fetch]
    by_contra hne
    have hlast := hextent.last (lt_of_le_of_ne hextent.nonneg (Ne.symm hne))
    rw [h.own] at hlast
    exact hlast rfl
  have hsize : n'.din.iSize = 1 := by
    rw [hw.iSize, hk, hsize₀]
    rfl
  have hdisk : t.diskDinode c = n'.din := by rw [hr.disk, hdirty, if_pos rfl]
  have hdinode := hr.dinode hdirty
  have hne : c ≠ 0 := fun heq ↦ hfile (heq ▸ h.inTree.isDir)
  have hzero : (0 : ℕ) < nrInodes := by decide
  have hsound := hdone.calm.toSound
  refine ⟨⟨t, 0⟩, ?_, hdone, h.lookup, hfile, rfl, ?_, ?_, ?_⟩
  · refine Session.step_eq_some_iff.mpr ⟨.silent 0 (failure.getD (toInt32 k)), ?_, rfl⟩
    rw [h.curDir]
    exact hrun
  · simp only
    rw [hdinode, hsize]
  · simp only
    rw [hdisk, hsize]
  · have hmax : t.sb.maxFsBlocks = 2 := by
      rw [hr.others.maxFsBlocks, hw.others.maxFsBlocks]
      exact h.limit
    have hown : t.own c (Slot.ofLog 0) ≠ 0 := by
      have hlast := (hsound.extent c hc).last
      rw [hdinode, hsize] at hlast
      exact hlast (by decide)
    have hroot : t.own 0 (Slot.ofLog 0) ≠ 0 := by
      have hdir := hdone.represents.records 0 hdone.isDir
      obtain ⟨r, hr₀, -⟩ := exists_of_lookup (hdone.represents.self 0 hdone.isDir)
      have hpos := size_le_encodeDir (List.mem_filter.mp hr₀).1
      have hlt := h.size
      rw [← dinode_fetch p.fs c 0, ← (hw.others.trans hr.others).dinode hzero hne.symm,
        hdir.size] at hlt
      refine own_of_isDir hsound hzero hdir ?_ (by omega)
      rw [Record.size] at hpos
      omega
    exact hsound.full_of_two hmax hc hzero hne hown hroot

/-- `write f 8191 bc` then finds the block of the first byte and no block for the second. -/
theorem WrittenA.losesSize (h : WrittenA T dirs c p) : LosesSize p.fs c 8191 textBC.bytes := by
  have hsound := h.inTree.calm.toSound
  obtain ⟨hpresent, -⟩ := h.inTree.fileInode_run h.lookup h.file
  have hc := h.inTree.represents.bound c hpresent
  have hextent := hsound.extent c hc
  rw [h.size] at hextent
  have hfirst : p.fs.own c (Slot.ofLog 0) ≠ 0 := hextent.last (by decide)
  have hsecond : p.fs.own c (Slot.ofLog 1) = 0 := by
    by_contra hne
    exact absurd (hextent.within _ hne) (by decide)
  refine ⟨fun inode hinode ↦ (h.inTree.calm.quiet c inode hinode).1, 1, ⟨by decide, ?_, ?_⟩,
    Or.inl ⟨by decide, by decide⟩, ?_⟩
  · intro l _ hl
    obtain rfl : l = 0 := by omega
    exact ⟨by decide, hfirst⟩
  · exact Or.inr ⟨hsecond, h.full⟩
  · rw [h.size, h.synced]
    decide

end Lost

/-- `create f`, `write f 0 a` and `write f 8191 bc` in a new file system of two blocks: the last
command fails after it has written one byte, and the size that it reached is not on disk. -/
theorem failed_write_loses_size : ∃ (p₀ p₁ p₂ : Session) (c : ℕ) (s u t : FsState) (ret : ℤ),
    Started 2 p₀ ∧ p₀.step (0, ⟨.create, [nameF]⟩) = some p₁ ∧
    p₁.step (0, ⟨.write, writeA⟩) = some p₂ ∧
    (testfsGetFileInode p₂.curDir nameF).run p₂.fs = .ok ((0, c), s) ∧
    (testfsWriteData c textBC.bytes 8191).run s = .ok (ret, u) ∧
    (cmdWrite p₂.curDir [nameF, offset8191, textBC]).run p₂.fs = .ok (.silent p₂.curDir ret, t) ∧
    ¬ Durable c p₂.fs u t := by
  obtain ⟨p₀, p₁, T, dirs, c, hstart, -, hcreate, hcreated⟩ :=
    fresh_create (by decide : 0 < 2) (by decide)
  obtain ⟨p₂, hwrite, hwritten⟩ := hcreated.write
  obtain ⟨hpresent, hfound⟩ := hwritten.inTree.fileInode_run hwritten.lookup hwritten.file
  have hsound := hwritten.inTree.calm.toSound
  have hoffset : strToOffset offset8191 = .ok ((8191 : ℕ) : ℤ) := by decide
  rw [← hwritten.curDir] at hfound
  obtain ⟨ret, u, t, hdata, hcmd, hiff⟩ := hsound.cmdWrite_durable textBC hoffset hfound
  exact ⟨p₀, p₁, p₂, c, _, u, t, ret, hstart, hcreate, hwrite, hfound, hdata, hcmd,
    fun hdurable ↦ hiff.mp hdurable hwritten.losesSize⟩

/-- The run `create f` and the command `write f 0 a` after it. -/
theorem write_durable_first : ∃ (p : Session) (c : ℕ) (s : FsState),
    CommandRun (fun _ _ ↦ True) 2 p ∧
    (testfsGetFileInode p.curDir nameF).run p.fs = .ok ((0, c), s) ∧
    ∃ ret u t, (testfsWriteData c [97] (0 : ℕ)).run s = .ok (ret, u) ∧
      (cmdWrite p.curDir writeA).run p.fs = .ok (.silent p.curDir ret, t) ∧
      (Durable c p.fs u t ↔ ¬ LosesSize p.fs c 0 [97]) := by
  obtain ⟨p₀, p, T, dirs, c, hstart, -, hcreate, hcreated⟩ :=
    fresh_create (by decide : 0 < 2) (by decide)
  have hfile : ¬ T.isDir c := hcreated.file
  obtain ⟨-, hfound⟩ := hcreated.inTree.fileInode_run hcreated.lookup hfile
  rw [← hcreated.curDir] at hfound
  have hrun : CommandRun (fun _ _ ↦ True) 2 p :=
    ⟨p₀, hstart, Relation.ReflTransGen.single ⟨_, trivial, hcreate⟩⟩
  have hoffset : strToOffset offsetZero = .ok ((0 : ℕ) : ℤ) := by decide
  exact ⟨p, c, _, hrun, hfound, write_durable_iff textA (by decide) hrun hoffset hfound⟩

end OperatingSystems.Fs
