import OperatingSystems.Fs.Deletion

/-!
# Failed creations

A `create` or `mkdir` that fails leaves everything as it was, unless `testfs_add_dirent` has
written a part of the record by then: the new inode is removed again, but what was written to the
directory stays. `Spoils` tells beforehand when this happens, and `failed_creation_iff` says that
it is exactly then that a failing creation is not undone. So any number of creations that fail
without this leave everything as it was (`failed_creations_undone`).

The case that matters is a record for which there are too few blocks (`create_wide_half_written`):
the part that fits stays at the end of the directory. The other case is that of an overlong record,
which is entered as a whole.
-/

set_option autoImplicit false
set_option relaxedAutoImplicit false

namespace OperatingSystems.Fs

open Library Library.Machine

/-! ### Runs -/

/-- The command is to make a file or directory whose record spoils the current directory. -/
def Session.SpoilsDir (p : Session) (c : Command) : Prop :=
  ∃ type name rs, c.Makes type name ∧ IsDir p.fs p.curDir rs ∧
    Spoils p.fs p.curDir rs name type

/-- Everything is as it was, and the current directory is not left dirty. -/
structure Undone (s t : FsState) (dir : ℕ) : Prop where
  unchanged : Unchanged s t
  records : ∀ d < nrInodes, ∀ rs, IsDir t d rs ↔ IsDir s d rs
  clean : ∀ inode, t.inodeHashTable dir = some inode → inode.dirty = false

theorem Undone.trans {s t u : FsState} {dir : ℕ} (h : Undone s t dir) (h' : Undone t u dir) :
    Undone s u dir where
  unchanged := h.unchanged.trans h'.unchanged
  records := fun d hd rs ↦ (h'.records d hd rs).trans (h.records d hd rs)
  clean := h'.clean

/-- A record whose size fits an `int` does not spoil the directory if there are blocks enough for it
and for a new directory. -/
theorem Session.not_spoilsDir {p : Session} {c : Command} {name : CString} (hargs : c.args = [name])
    (hsize : direntSize + name.length + 1 < 2 ^ 31)
    (hroom : ((direntSize + name.length + 1) / blockSize + 2) * 3 + 1 ≤ p.fs.room) :
    ¬ p.SpoilsDir c := by
  rintro ⟨type, name', rs, ⟨hargs', -⟩, hrs, hspoils⟩
  obtain rfl : name = name' := by simpa using hargs.symm.trans hargs'
  have hblocks : type.blocks ≤ 1 := by cases type <;> decide
  have hmissing := missing_writeSlots_le p.fs p.curDir
    (encodeDir (rs.takeWhile fun r ↦ !r.stopsAdd name)).length (direntSize + name.length + 1)
  exact hspoils.noRoom (Or.inr (Or.inl ⟨by omega, hsize⟩))

theorem Command.Makes.handleCommand_eq {c : Command} {type : InodeType} {name : CString}
    (h : c.Makes type name) (depth curDir : ℕ) :
    handleCommand depth curDir c = cmdMake type curDir [name] := by
  obtain ⟨command, args⟩ := c
  obtain ⟨rfl, ⟨rfl, rfl⟩ | ⟨rfl, rfl⟩⟩ := h
  · rfl
  · rfl

section Runs

variable {T : NameTree ℕ CString} {dirs : ℕ → List Record} {maxFsBlocks cur : ℕ} {p : Session}
  {s t : FsState} {name : CString} {type : InodeType}

theorem InTree.undone (h : InTree T dirs s cur) (hsame : Unchanged s t) : Undone s t cur where
  unchanged := hsame
  records := fun _ hd _ ↦ hsame.isDir_iff hd
  clean := fun inode hinode ↦ by
    rw [hsame.table] at hinode
    exact (h.calm.quiet cur inode hinode).1

/-- In a tree a creation that fails is undone exactly if its record does not spoil the directory. -/
theorem InTree.undone_iff (h : InTree T dirs s cur) (hfit : RecordsFit T dirs) {out : Outcome}
    (hrun : (OperatingSystems.Fs.cmdMake type cur [name]).run s = .ok (out, t))
    (hneg : out.ret < 0) : Undone s t cur ↔
      ¬ Spoils s cur (dirs cur) name type := by
  obtain ⟨-, ⟨hzero, -⟩ | ⟨-, -, hsame, hnot⟩ | ⟨-, name', hargs, hspoiled⟩⟩ := h.cmdMake hfit hrun
  · rw [hzero] at hneg
    exact absurd hneg (lt_irrefl 0)
  · exact iff_of_true (h.undone hsame) (hnot name rfl)
  · obtain rfl : name = name' := by simpa using hargs
    exact iff_of_false (fun hundone ↦ hspoiled.changed hundone.unchanged)
      (not_not.mpr hspoiled.spoils)

/-- The name space is a tree in every session of a run in which no record spoils a directory. -/
theorem CommandRun.inTree (hpos : 0 < maxFsBlocks) (hmax : maxFsBlocks ≤ nrDataBlocks)
    (h : CommandRun (fun q label ↦ ¬ q.SpoilsDir label.2) maxFsBlocks p) :
    ∃ T dirs, InTree T dirs p.fs p.curDir ∧ RecordsFit T dirs := by
  obtain ⟨p₀, ⟨hfresh, hroot⟩, hrun⟩ := h
  obtain ⟨s₀, hs₀, hspec⟩ := freshFs_spec hmax
  obtain rfl := Except.ok.inj (hs₀.symm.trans hfresh)
  obtain ⟨-, -, hflag⟩ := hspec.root_made hpos
  refine hrun.invariant (I := fun p ↦ ∃ T dirs, InTree T dirs p.fs p.curDir ∧ RecordsFit T dirs)
    ?_ ⟨_, _, by rw [hroot]; exact hspec.inTree hflag, recordsFit_emptyDir _⟩
  rintro p label q ⟨T, dirs, htree, hfit⟩ hkept hstep
  obtain ⟨out, hcommand, hcur⟩ := Session.step_eq_some_iff.mp hstep
  rcases htree.handleCommand_cases hfit hcommand with
    ⟨T', dirs', hdone, hfit'⟩ | ⟨type, name, hmakes, hspoiled⟩
  · exact ⟨T', dirs', hcur ▸ hdone, hfit'⟩
  · exact absurd ⟨type, name, dirs p.curDir, hmakes, htree.represents.records _ htree.isDir,
      hspoiled.spoils⟩ hkept

/-- A creation that fails is undone exactly if its record does not spoil the current directory. -/
theorem CommandRun.undone_iff (hpos : 0 < maxFsBlocks) (hmax : maxFsBlocks ≤ nrDataBlocks)
    (hrun : CommandRun (fun q label ↦ ¬ q.SpoilsDir label.2) maxFsBlocks p) {depth : ℕ}
    {c : Command} (hmakes : c.Makes type name) {out : Outcome}
    (hcommand : (handleCommand depth p.curDir c).run p.fs = .ok (out, t)) (hneg : out.ret < 0) :
    Undone p.fs t p.curDir ↔ ¬ p.SpoilsDir c := by
  obtain ⟨T, dirs, htree, hfit⟩ := hrun.inTree hpos hmax
  rw [hmakes.handleCommand_eq] at hcommand
  rw [htree.undone_iff hfit hcommand hneg, not_iff_not]
  have hrecords := htree.represents.records _ htree.isDir
  constructor
  · exact fun hspoils ↦ ⟨type, name, dirs p.curDir, hmakes, hrecords, hspoils⟩
  · rintro ⟨type', name', rs, hmakes', hrs, hspoils⟩
    obtain rfl : name = name' := by simpa using hmakes.1.symm.trans hmakes'.1
    obtain rfl : type = type' := by
      rcases hmakes.2 with ⟨hname, rfl⟩ | ⟨hname, rfl⟩
      · rcases hmakes'.2 with ⟨-, rfl⟩ | ⟨hname', -⟩
        · rfl
        · rw [hname] at hname'
          exact absurd hname' (by decide)
      · rcases hmakes'.2 with ⟨hname', -⟩ | ⟨-, rfl⟩
        · rw [hname] at hname'
          exact absurd hname' (by decide)
        · rfl
    rw [hrecords.unique hrs]
    exact hspoils

/-- Assumes: a run of commands on a fresh file system with a block for the root, in which
allocations may fail but no record spoils a directory, and a `create` or `mkdir` that fails in the
session that it leads to. It is undone exactly if its record does not spoil the current
directory. -/
theorem failed_creation_iff (hpos : 0 < maxFsBlocks) (hmax : maxFsBlocks ≤ nrDataBlocks)
    (hrun : CommandRun (fun q label ↦ ¬ q.SpoilsDir label.2) maxFsBlocks p) {depth : ℕ}
    {c : Command} (hmakes : c.Makes type name) {out : Outcome}
    (hcommand : (handleCommand depth p.curDir c).run p.fs = .ok (out, t)) (hneg : out.ret < 0) :
    Undone p.fs t p.curDir ↔ ¬ p.SpoilsDir c := by
  exact hrun.undone_iff hpos hmax hmakes hcommand hneg

end Runs

/-! ### A record that is written in part -/

section HalfWritten

variable {T : NameTree ℕ CString} {dirs : ℕ → List Record} {s : FsState} {i cur : ℕ}
  {name : CString} {rs : List Record}

/-- A directory fits in the blocks that are in use. -/
theorem IsDir.length_le_used (h : IsDir s i rs) (hs : Sound s) (hi : i < nrInodes) :
    (encodeDir rs).length ≤ s.sb.usedBlockCount * blockSize := by
  obtain ⟨k, hk⟩ : ∃ k, k = ((encodeDir rs).length + (blockSize - 1)) / blockSize := ⟨_, rfl⟩
  have hmax := (hs.extent i hi).le_max
  rw [h.size] at hmax
  have hblock : ∀ l < k, l * blockSize < (encodeDir rs).length := by
    intro l hl
    simp only [blockSize] at *
    omega
  have hbound : ∀ l < k, l < maxBlockNr := by
    intro l hl
    have hlt := hblock l hl
    simp only [maxFileSize, blockSize] at *
    omega
  have hinj : Set.InjOn Slot.ofLog (Finset.range k : Finset ℕ) := by
    intro l hl l' hl' heq
    rw [Finset.coe_range, Set.mem_Iio] at hl hl'
    exact Slot.ofLog_injective (hbound l hl) (hbound l' hl') heq
  have hsubset : (Finset.range k).image Slot.ofLog ⊆ heldSlots (s.own i) := by
    intro σ hσ
    obtain ⟨l, hl, rfl⟩ := Finset.mem_image.mp hσ
    have hown := h.own_ne_zero hs hi (hblock l (Finset.mem_range.mp hl))
    rw [Nat.mul_div_cancel l (by decide)] at hown
    exact mem_heldSlots.mpr hown
  have hle : k ≤ s.sb.usedBlockCount := by
    calc k = (Finset.range k).card := (Finset.card_range k).symm
      _ = ((Finset.range k).image Slot.ofLog).card := (Finset.card_image_of_injOn hinj).symm
      _ ≤ (heldSlots (s.own i)).card := Finset.card_le_card hsubset
      _ ≤ s.blockFreemap.allocated.card := by
        rw [← hs.core.card_owned hi]
        exact Finset.card_filter_le _ _
      _ = s.sb.usedBlockCount := hs.core.used.symm
  have hmul := Nat.mul_le_mul_right blockSize hle
  simp only [blockSize] at *
  omega

/-- A record that is larger than the file system is not entered as a whole. -/
theorem Written.not_added_wide {t : FsState} {new : Record} {m m' : Inode} (hi : i < nrInodes)
    (hwide : s.sb.maxFsBlocks * blockSize < new.size)
    (hadded : Added i rs new m s none t m') : False := by
  have hwork := hadded.worked
  have hused := (hadded.isDir rfl).length_le_used hwork.sound hi
  have hlimit := hwork.sound.core.limit
  rw [hwork.others.maxFsBlocks] at hlimit
  have hmem := size_le_encodeDir (mem_insertRecord new rs)
  have hmul := Nat.mul_le_mul_right blockSize hlimit
  omega

/-- It spoils the directory if the block it starts in is there. -/
theorem InTree.spoils_wide (h : InTree T dirs s cur) (hnone : lookup (dirs cur) name = none)
    (hname : name.length + 1 < 2 ^ 31) (hfree : ∃ i < nrInodes, s.inodeFreemap.bit i = false)
    (hpos : 0 < (encodeDir (dirs cur)).length) (hblock : (encodeDir (dirs cur)).length < blockSize)
    (hwide : s.sb.maxFsBlocks * blockSize < direntSize + name.length + 1) :
    Spoils s cur (dirs cur) name .file := by
  refine ⟨hnone, hname, hfree, ?_⟩
  have hlt := h.represents.lt h.isDir
  have hsound := h.calm.toSound
  have hdir := h.represents.records cur h.isDir
  obtain ⟨m, hmem⟩ := h.inMemory
  have hle := length_takeWhile_le (dirs cur) fun r ↦ !r.stopsAdd name
  rintro (hfew | ⟨hleft, -⟩ | ⟨hempty, -⟩)
  · exact absurd hfew (Nat.not_lt_zero _)
  · obtain ⟨new, hnew⟩ : ∃ new, new = recordFor cur name hlt hname := ⟨_, rfl⟩
    have hsize : new.size = direntSize + name.length + 1 := by rw [hnew, size_recordFor]
    have hnameNew : new.name = name := by rw [hnew]; rfl
    have hlength := new.length_encode
    rw [← hsize, ← hlength, ← hnameNew] at hleft
    rw [← hnameNew] at hle
    have hmax : (encodeDir ((dirs cur).takeWhile fun r ↦ !r.stopsAdd new.name)).length +
        new.dirent.encode.length ≤ maxFileSize := by
      rw [hlength, hsize]
      simp only [maxFileSize, maxBlockNr, nrDirectBlocks, nrIndirectBlocks, blockSize,
        direntSize] at *
      omega
    have hneed : HasRoom (0 + s.missing cur (writeSlots
        (encodeDir ((dirs cur).takeWhile fun r ↦ !r.stopsAdd new.name)).length
        new.dirent.encode.length)) s :=
      hsound.core.hasRoom_iff.mpr (by omega)
    have hstart : (encodeDir ((dirs cur).takeWhile fun r ↦ !r.stopsAdd new.name)).length <
        maxFileSize := lt_of_le_of_lt hle (hblock.trans (by decide))
    obtain ⟨t, m', -, hw, -⟩ := hsound.write_room hmem hstart hmax hneed
    have hadded := hw.added hdir hmem fun r hr ↦ live_of_stopsAdd (by rw [hnameNew]; exact hnone) hr
    exact Written.not_added_wide hlt (by rw [hsize]; exact hwide) hadded
  · rw [Nat.div_eq_of_lt (lt_of_le_of_lt hle hblock)] at hempty
    exact own_of_isDir hsound hlt hdir hpos hblock.le hempty

/-- `cmd_create` of its name fails. -/
theorem InTree.cmdCreate_wide (h : InTree T dirs s cur) (hnone : lookup (dirs cur) name = none)
    (hname : name.length + 1 < 2 ^ 31) (hfree : ∃ i < nrInodes, s.inodeFreemap.bit i = false)
    (hsmall : (encodeDir (dirs cur)).length < 2 ^ 31)
    (hwide : s.sb.maxFsBlocks * blockSize < direntSize + name.length + 1) :
    ∃ ret t, (cmdCreate cur [name]).run s = .ok (.silent cur ret, t) ∧ ret < 0 := by
  have hlt := h.represents.lt h.isDir
  obtain ⟨m, hmem⟩ := h.inMemory
  obtain ⟨c, u, inode, hcreate, hc⟩ := h.calm.toSound.create_free .file hfree
  have hcur : cur ≠ c := fun heq ↦ h.not_present hc (heq ▸ T.present_of_isDir h.isDir)
  have hudir : IsDir u cur (dirs cur) :=
    (h.represents.records cur h.isDir).congr (hc.others.dinode hlt hcur)
      (hc.others.content cur hlt hcur)
  have humem : u.inodeHashTable cur = some m := by rw [hc.others.table cur hcur, hmem]
  have hfill : (fillNewInode (some (cur, name)) .file c).run u = .ok (0, u) := by
    rw [fillNewInode, if_neg (by decide), Program.pure_run]
  obtain ⟨failure, w, m', hadd, hadded⟩ := testfsAddDirent_run hc.sound humem hudir hsmall
    (recordFor c name hc.lt hname) (Int.natCast_nonneg c)
    fun r hr ↦ live_of_stopsAdd hnone hr
  obtain ⟨start, n, hwritten, -⟩ := hadded.written
  cases failure with
  | none =>
    refine (Written.not_added_wide hlt ?_ hadded).elim
    rw [hc.others.maxFsBlocks, size_recordFor]
    exact hwide
  | some ret =>
    have hneg := hwritten.failure_neg rfl
    rw [Option.getD_some] at hadd
    obtain ⟨t, hremove, -⟩ := hadded.worked.sound.remove
      (by rw [hadded.worked.others.table c hcur.symm, hc.inMemory])
      (by rw [hadded.worked.inodeFreemap, hc.inodeFreemap, Bitmap.bit_put, if_pos rfl])
    refine ⟨ret, t, ?_, hneg⟩
    rw [cmdCreate, OperatingSystems.Fs.cmdMake,
      Program.run_bind (h.refused_run hnone hcreate hfill hadd hneg hremove), Program.pure_run]

end HalfWritten

/-- A name of 1 MB. -/
def wideName : CString :=
  ⟨List.replicate (128 * blockSize) 97,
    fun hmem ↦ absurd (List.eq_of_mem_replicate hmem) (by decide)⟩

theorem length_wideName : wideName.length = 128 * blockSize := List.length_replicate

/-- `create` of the wide name in a new file system of 128 blocks fails, and spoils the root. -/
theorem Fresh.create_wide {s : FsState} (h : Fresh 128 s) :
    InTree (NameTree.single 0) (fun _ ↦ emptyDir 0 0 (by decide) (by decide)) s 0 ∧
      Spoils s 0 (emptyDir 0 0 (by decide) (by decide)) wideName .file ∧
      ∃ ret t, (cmdCreate 0 [wideName]).run s = .ok (.silent 0 ret, t) ∧ ret < 0 := by
  have hlength := length_wideName
  obtain ⟨hfree, -, -, htree⟩ := h.started (by decide)
  have hzero : (0 : ℕ) < nrInodes := by decide
  have hempty := length_emptyDir hzero hzero
  have hdots : ¬ (wideName = dot ∨ wideName = dotdot) :=
    not_dots_of_length (by rw [hlength]; decide)
  have hunused := lookup_emptyDir_of_not_dots hzero hzero hdots
  have hname : wideName.length + 1 < 2 ^ 31 := by
    rw [hlength]
    decide
  have hwide : s.sb.maxFsBlocks * blockSize < direntSize + wideName.length + 1 := by
    rw [h.maxFsBlocks, hlength]
    decide
  exact ⟨htree, htree.spoils_wide hunused hname hfree (by rw [hempty]; decide)
    (by rw [hempty]; decide) hwide,
    htree.cmdCreate_wide hunused hname hfree (by rw [hempty]; decide) hwide⟩

/-- The same creation, as a case of `failed_creation_iff`. -/
theorem failed_creation_iff_wide : ∃ p₀ out t, Started 128 p₀ ∧
    (handleCommand 0 p₀.curDir ⟨.create, [wideName]⟩).run p₀.fs = .ok (out, t) ∧
    (Undone p₀.fs t p₀.curDir ↔ ¬ p₀.SpoilsDir ⟨.create, [wideName]⟩) := by
  obtain ⟨s, hfresh, hspec⟩ := freshFs_spec (by decide : 128 ≤ nrDataBlocks)
  obtain ⟨-, -, ret, t, hrun, hneg⟩ := hspec.create_wide
  have hstart : Started 128 ⟨s, 0⟩ := ⟨hfresh, rfl⟩
  have hmakes : Command.Makes ⟨.create, [wideName]⟩ .file wideName :=
    ⟨rfl, Or.inl ⟨rfl, rfl⟩⟩
  have hcommand : (handleCommand 0 0 ⟨.create, [wideName]⟩).run s = .ok (.silent 0 ret, t) := hrun
  exact ⟨⟨s, 0⟩, _, t, hstart, hrun, failed_creation_iff (by decide) (by decide)
    ⟨_, hstart, Relation.ReflTransGen.refl⟩ hmakes hcommand hneg⟩

/-! ### Refused creations -/

section Refused

variable {T : NameTree ℕ CString} {dirs : ℕ → List Record} {maxFsBlocks cur : ℕ} {p : Session}
  {s : FsState} {name : CString}

/-- The command is a `create` or `mkdir` that fails, and its record does not spoil the current
directory. -/
structure Session.Refuses (p : Session) (label : ℕ × Command) : Prop where
  makes : ∃ type name, label.2.Makes type name
  fails : ∀ out t, (handleCommand label.1 p.curDir label.2).run p.fs = .ok (out, t) → out.ret < 0
  keeps : ¬ p.SpoilsDir label.2

/-- A refused command is undone, and the run goes on. -/
theorem CommandRun.refused (hpos : 0 < maxFsBlocks) (hmax : maxFsBlocks ≤ nrDataBlocks)
    (hrun : CommandRun (fun q label ↦ ¬ q.SpoilsDir label.2) maxFsBlocks p) {q : Session}
    {label : ℕ × Command} (hrefuses : p.Refuses label) (hstep : p.step label = some q) :
    CommandRun (fun q label ↦ ¬ q.SpoilsDir label.2) maxFsBlocks q ∧ q.curDir = p.curDir ∧
      Undone p.fs q.fs p.curDir := by
  obtain ⟨⟨type, name, hmakes⟩, hfails, hkeeps⟩ := hrefuses
  obtain ⟨out, hcommand, hcur⟩ := Session.step_eq_some_iff.mp hstep
  have hundone := (hrun.undone_iff hpos hmax hmakes hcommand (hfails _ _ hcommand)).mpr hkeeps
  obtain ⟨T, dirs, htree, hfit⟩ := hrun.inTree hpos hmax
  rw [hmakes.handleCommand_eq] at hcommand
  obtain ⟨p₀, hstart, hreaches⟩ := hrun
  exact ⟨⟨p₀, hstart, hreaches.tail ⟨label, hkeeps, hstep⟩⟩,
    hcur.symm.trans (htree.cmdMake hfit hcommand).1, hundone⟩

/-- Assumes: a run of commands on a fresh file system with a block for the root, in which
allocations may fail but no record spoils a directory. However many creations are refused then,
all is as it was before the first of them; and a failing creation whose record spoils the current
directory is not undone. -/
theorem failed_creations_undone (hpos : 0 < maxFsBlocks) (hmax : maxFsBlocks ≤ nrDataBlocks)
    (hrun : CommandRun (fun q label ↦ ¬ q.SpoilsDir label.2) maxFsBlocks p) :
    (∀ q, Reaches Session.Refuses Session.step p q →
      q.curDir = p.curDir ∧ Undone p.fs q.fs p.curDir) ∧
    ∀ (depth : ℕ) (c : Command) (type : InodeType) (name : CString) (out : Outcome) (t : FsState),
      c.Makes type name → (handleCommand depth p.curDir c).run p.fs = .ok (out, t) → out.ret < 0 →
      p.SpoilsDir c → ¬ Undone p.fs t p.curDir := by
  obtain ⟨T, dirs, htree, hfit⟩ := hrun.inTree hpos hmax
  refine ⟨fun q hrefused ↦ ?_, fun depth c type name out t hmakes hcommand hneg hspoils hundone ↦
    (hrun.undone_iff hpos hmax hmakes hcommand hneg).mp hundone hspoils⟩
  refine (hrefused.invariant (I := fun q ↦
    CommandRun (fun q label ↦ ¬ q.SpoilsDir label.2) maxFsBlocks q ∧
      q.curDir = p.curDir ∧ Undone p.fs q.fs p.curDir) ?_
    ⟨hrun, rfl, htree.undone (Unchanged.refl _)⟩).2
  rintro q label r ⟨hq, hcur, hundone⟩ hrefuses hstep
  obtain ⟨hr, hcur', hundone'⟩ := hq.refused hpos hmax hrefuses hstep
  exact ⟨hr, hcur'.trans hcur, hundone.trans (hcur ▸ hundone')⟩

/-- Without a free block `cmd_mkdir` of a new name fails after it has made an inode. -/
theorem InTree.mkdir_full (h : InTree T dirs s cur) (hnone : lookup (dirs cur) name = none)
    (hfree : ∃ i < nrInodes, s.inodeFreemap.bit i = false) (hroom : s.room = 0) :
    ∃ ret t, (cmdMkdir cur [name]).run s = .ok (.silent cur ret, t) ∧ ret < 0 := by
  have hlt := h.represents.lt h.isDir
  obtain ⟨c, u, inode, hcreate, hc⟩ := h.calm.toSound.create_free .dir hfree
  obtain ⟨failure, v, inode', hfill, hw, hfilled, hfailed⟩ := h.fill hc name hlt
  cases failure with
  | none =>
    obtain ⟨hdir, -, hkept⟩ := hfilled rfl
    have hblocks := h.room_filled hc hw hlt hdir hkept
    rw [hroom] at hblocks
    exact absurd (Nat.eq_zero_of_add_eq_zero_left hblocks) (by decide)
  | some ret =>
    obtain ⟨hneg, -⟩ := hfailed ret rfl
    obtain ⟨t, hremove, -⟩ := hw.sound.remove hw.inMemory
      (by rw [hw.inodeFreemap, hc.inodeFreemap, Bitmap.bit_put, if_pos rfl])
    refine ⟨ret, t, ?_, hneg⟩
    have hrefused : (testfsCreateFileOrDir (some (cur, name)) .dir).run s = .ok (ret, t) := by
      rw [testfsCreateFileOrDir, Program.run_bind (h.nameExists_run hnone),
        if_neg Bool.false_ne_true, Program.run_bind hcreate]
      simp only [lt_irrefl, if_false]
      rw [Program.run_bind hfill, Option.getD_some, if_pos hneg, Program.run_bind hremove,
        Program.pure_run]
    exact Program.run_bind hrefused

/-- The root takes the only block of a new file system, so `mkdir f` is refused: its inode is
removed again. -/
theorem failed_creations_undone_full : ∃ p₀ q, Started 1 p₀ ∧
    p₀.step (0, ⟨.mkdir, [nameF]⟩) = some q ∧ q.curDir = p₀.curDir ∧
    Undone p₀.fs q.fs p₀.curDir := by
  obtain ⟨s, hfresh, hspec⟩ := freshFs_spec (by decide : 1 ≤ nrDataBlocks)
  obtain ⟨hfree, -, -, htree⟩ := hspec.started (by decide)
  have hzero : (0 : ℕ) < nrInodes := by decide
  have hnone : lookup (emptyDir 0 0 (by decide) (by decide)) nameF = none := by decide
  have hused := (htree.represents.records 0 htree.isDir).length_le_used htree.calm.toSound hzero
  have hroom : s.room = 0 := by
    have hmin : min 1 nrDataBlocks = 1 := by decide
    rw [length_emptyDir hzero hzero, blockSize] at hused
    rw [FsState.room, hspec.maxFsBlocks, hmin]
    omega
  obtain ⟨ret, t, hrun, hneg⟩ := htree.mkdir_full hnone hfree hroom
  have hstart : Started 1 ⟨s, 0⟩ := ⟨hfresh, rfl⟩
  have hstep : Session.step ⟨s, 0⟩ (0, ⟨.mkdir, [nameF]⟩) = some ⟨t, 0⟩ :=
    Session.step_eq_some_iff.mpr ⟨_, hrun, rfl⟩
  have hrefuses : Session.Refuses ⟨s, 0⟩ (0, ⟨.mkdir, [nameF]⟩) := by
    refine ⟨⟨.dir, nameF, rfl, Or.inr ⟨rfl, rfl⟩⟩, fun out u hout ↦ ?_, ?_⟩
    · obtain ⟨rfl, rfl⟩ := Prod.mk.inj (Except.ok.inj (hrun.symm.trans hout))
      exact hneg
    · rintro ⟨type, name, rs, ⟨-, ⟨hcreate, -⟩ | ⟨-, rfl⟩⟩, hrs, hspoils⟩
      · exact absurd hcreate (by decide)
      · exact hspoils.noRoom (Or.inl (hroom ▸ Nat.one_pos))
  exact ⟨⟨s, 0⟩, ⟨t, 0⟩, hstart, hstep,
    (failed_creations_undone (by decide) (by decide)
      ⟨_, hstart, Relation.ReflTransGen.refl⟩).1 _
      (Relation.ReflTransGen.single ⟨_, hrefuses, hstep⟩)⟩

end Refused

/-- When the first part of the record has filled the blocks that are left, this is not undone. -/
theorem create_wide_half_written : ∃ p₀ out t, Started 128 p₀ ∧
    (handleCommand 0 p₀.curDir ⟨.create, [wideName]⟩).run p₀.fs = .ok (out, t) ∧ out.ret < 0 ∧
    ¬ Undone p₀.fs t p₀.curDir := by
  obtain ⟨s, hfresh, hspec⟩ := freshFs_spec (by decide : 128 ≤ nrDataBlocks)
  obtain ⟨htree, hspoils, ret, t, hrun, hneg⟩ := hspec.create_wide
  refine ⟨⟨s, 0⟩, _, t, ⟨hfresh, rfl⟩, hrun, hneg, fun hundone ↦ ?_⟩
  exact (htree.undone_iff (recordsFit_emptyDir (by decide)) hrun hneg).mp hundone hspoils

end OperatingSystems.Fs
