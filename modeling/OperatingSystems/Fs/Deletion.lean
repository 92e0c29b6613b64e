import OperatingSystems.Fs.Durability
import OperatingSystems.Fs.Removal

/-!
# Names are removed completely or not at all

`RemovesOrKeeps s dir name` says of `cmd_rm` that it returns zero exactly for the names that may be
removed (`Removable`), that it then leaves nothing of the name and its inode behind and nothing else
changed (`RemovesName`), and that otherwise it leaves everything as it was. This holds in every
state of a run in which no allocation fails and no file or directory is given a name of `2^31 - 9`
bytes or more.

The record of such a name has a size that is no `int`. When `testfs_write_data` has written the
record as a whole its result is negative, so a creation that has entered the name fails, and so does
a removal that has marked its record as free: after such a `create` the name is neither removed nor
kept (`removals_complete`).
-/

set_option autoImplicit false
set_option relaxedAutoImplicit false

namespace OperatingSystems.Fs

open Library Library.Machine

/-! ### What a removal does -/

/-- The name is in use in the directory, it is neither `.` nor `..`, and it is that of an inode in
use which is no directory, or is one in which only `.` and `..` are in use. -/
structure Removable (s : FsState) (dir : ℕ) (name : CString) (c : ℕ) : Prop where
  notDots : ¬ (name = dot ∨ name = dotdot)
  named : ∃ rs, IsDir s dir rs ∧ lookup rs name = some (c : ℤ)
  inUse : c ∈ s.inodeFreemap.allocated
  empty : (s.dinode c).iType = InodeType.dir.code → ∃ rs, IsDir s c rs ∧ OnlyDots rs

/-- The name is no longer found in the directory, its inode and its blocks are free, the directory
is clean and equal to its copy on disk, and all other names and inodes are as they were. -/
structure RemovesName (dir : ℕ) (name : CString) (c : ℕ) (s t : FsState) : Prop where
  missing : (testfsDirNameToInodeNr dir name).run t = .ok (-eNOENT, t)
  names : ∀ other ≠ name, ∀ nr, (testfsDirNameToInodeNr dir other).run s = .ok (nr, s) →
    (testfsDirNameToInodeNr dir other).run t = .ok (nr, t)
  inodes : t.inodeFreemap.allocated = s.inodeFreemap.allocated.erase c
  usedInodes : t.sb.usedInodeCount + 1 = s.sb.usedInodeCount
  blocks : ∀ idx, idx ∈ t.blockFreemap.allocated ↔ idx ∈ s.blockFreemap.allocated ∧
    ∀ σ, s.own c σ ≠ (s.sb.dataBlocksStart + idx : ℕ)
  usedBlocks : t.sb.usedBlockCount + (s.dinode c).blockCount = s.sb.usedBlockCount
  zero : t.dinode c = Dinode.zero ∧ t.diskDinode c = Dinode.zero
  curDir : ∃ inode, t.inodeHashTable dir = some inode ∧ inode.dirty = false ∧
    inode.din = t.diskDinode dir
  counts : ∀ j, (t.inodeHashTable j).map Inode.iCount = (s.inodeHashTable j).map Inode.iCount
  others : ∀ j < nrInodes, j ≠ c → t.dinode j = s.dinode j ∧ t.diskDinode j = s.diskDinode j ∧
    t.own j = s.own j ∧ (j ≠ dir → t.content j = s.content j)

/-- `cmd_rm` of the name returns. It returns zero exactly if the name may be removed and then
removes it with its inode; otherwise it returns a negative value and changes nothing. -/
def RemovesOrKeeps (s : FsState) (dir : ℕ) (name : CString) : Prop :=
  ∃ ret t, (cmdRm dir [name]).run s = .ok (.silent dir ret, t) ∧
    (ret = 0 ↔ ∃ c, Removable s dir name c) ∧
    (∀ c, Removable s dir name c → RemovesName dir name c s t) ∧
    ((¬ ∃ c, Removable s dir name c) → ret < 0 ∧ Unchanged s t)

section Complete

variable {T : NameTree ℕ CString} {dirs : ℕ → List Record} {s t : FsState} {cur c : ℕ}
  {name : CString}

/-- In a tree a name that may be removed is a name of the directory. -/
theorem InTree.lookup_of_removable (h : InTree T dirs s cur) (hr : Removable s cur name c) :
    lookup (dirs cur) name = some (c : ℤ) ∧ (T.isDir c → OnlyDots (dirs c)) := by
  obtain ⟨rs, hrs, hlook⟩ := hr.named
  refine ⟨?_, fun hdir ↦ ?_⟩
  · rw [(h.represents.records cur h.isDir).unique hrs, hlook]
  · obtain ⟨rs', hrs', hdots⟩ := hr.empty ((h.represents.isDir c).mp hdir).2
    rw [(h.represents.records c hdir).unique hrs']
    exact hdots

/-- The name and its inode are gone and nothing else has changed. -/
theorem InTree.removesName (h : InTree T dirs s cur) (hlook : lookup (dirs cur) name = some (c : ℤ))
    (hentry : T.entry cur name = some c) (hu : Unlinked cur c name (dirs cur) s t) :
    RemovesName cur name c s t := by
  have hpresent := (T.entry_present h.isDir hentry).1
  have hc := h.represents.bound c hpresent
  have hmem := (h.represents.present c).mp hpresent
  have hlt := h.represents.lt h.isDir
  have hsound := h.calm.toSound
  obtain ⟨m, m', hm, hm', hclean, hcount⟩ := hu.inMemory
  obtain ⟨r, hfind, -⟩ := Option.map_eq_some_iff.mp hlook
  have hremoved := lookup_removeRecord (h.represents.distinct cur h.isDir) hfind
  have hfound := testfsDirNameToInodeNr_run hsound hm (h.represents.records cur h.isDir)
  have hfound' := testfsDirNameToInodeNr_run hu.sound hm' hu.isDir
  have hdisk : t.diskDinode cur = s.diskDinode cur := by
    rw [hu.disk, dinode_of_some hm, h.synced cur h.isDir m hm]
  refine ⟨?_, fun other hother nr hrun ↦ ?_, hu.inodeFreemap,
    hsound.usedInodes_of_erase hu.sound hmem hu.inodeFreemap, ?_,
    hsound.core.used_of_zero hu.sound.core hc hu.own_zero fun j hj hne ↦ hu.own_of_ne hj hne,
    hu.zero, ⟨m', hm', hclean, ?_⟩, fun j ↦ ?_, fun j hj hjc ↦ ?_⟩
  · rw [hfound' name, hremoved, if_pos rfl, Option.getD_none]
  · rw [hfound other] at hrun
    rw [hfound' other, hremoved, if_neg hother, (Prod.mk.inj (Except.ok.inj hrun)).1]
  · rw [hsound.core.layout.dataBlocksStart]
    exact hsound.core.mem_allocated_of_zero hu.sound.core hc hu.own_zero
      fun j hj hne ↦ hu.own_of_ne hj hne
  · rw [hu.disk, ← hu.dinode, dinode_of_some hm']
  · by_cases hjc : j = c
    · rw [hjc, hu.handle, Option.map_map]
      rfl
    by_cases hjd : j = cur
    · rw [hjd, hm, hm', Option.map_some, Option.map_some, hcount]
    · rw [hu.table j hjc hjd]
  · by_cases hjd : j = cur
    · rw [hjd]
      exact ⟨hu.dinode, hdisk, hu.own, fun hne ↦ absurd rfl hne⟩
    · obtain ⟨hsame, hown, hcontent⟩ := hu.others j hj hjc hjd
      exact ⟨hu.others_dinode hj hjc hjd, hsame, hown, fun _ ↦ hcontent⟩

/-- In a tree `cmd_rm` removes a name completely or not at all. -/
theorem InTree.removesOrKeeps (h : InTree T dirs s cur) (hfit : RecordsFit T dirs)
    (name : CString) : RemovesOrKeeps s cur name := by
  rcases h.cmdRm_run hfit name with ⟨ret, hneg, hrun, hrefused⟩ |
    ⟨c, t, hrun, hdots, hlook, hentry, hempty, hu, -⟩
  · have hnone : ¬ ∃ c, Removable s cur name c := by
      rintro ⟨c, hr⟩
      obtain ⟨hlook, hempty⟩ := h.lookup_of_removable hr
      rcases hrefused with hname | hname | ⟨c', hlook', hdir, hkept⟩
      · exact hr.notDots hname
      · rw [hlook] at hname
        exact absurd hname (by simp)
      · rw [hlook, Option.some.injEq, Nat.cast_inj] at hlook'
        subst hlook'
        exact hkept (hempty hdir)
    exact ⟨ret, s, hrun, iff_of_false hneg.ne hnone, fun c hr ↦ absurd ⟨c, hr⟩ hnone,
      fun _ ↦ ⟨hneg, Unchanged.refl s⟩⟩
  · have hpresent := (T.entry_present h.isDir hentry).1
    have hremovable : Removable s cur name c := by
      refine ⟨hdots, ⟨_, h.represents.records cur h.isDir, hlook⟩,
        (h.represents.present c).mp hpresent, fun htype ↦ ?_⟩
      have hdir := (h.represents.isDir c).mpr ⟨hpresent, htype⟩
      exact ⟨_, h.represents.records c hdir, hempty hdir⟩
    refine ⟨0, t, hrun, iff_of_true rfl ⟨c, hremovable⟩, fun c' hr ↦ ?_,
      fun hnone ↦ absurd ⟨c, hremovable⟩ hnone⟩
    obtain ⟨hlook', -⟩ := h.lookup_of_removable hr
    rw [hlook, Option.some.injEq, Nat.cast_inj] at hlook'
    subst hlook'
    exact h.removesName hlook hentry hu

end Complete

/-! ### Records that are too long -/

section Overlong

variable {T : NameTree ℕ CString} {dirs : ℕ → List Record} {s t : FsState} {dir cur c : ℕ}
  {name : CString} {rs : List Record}

/-- The first record of a new name is the one that was entered. -/
theorem find?_insertRecord {new : Record} (hlive : new.live = true)
    (hnone : lookup rs new.name = none) :
    (insertRecord new rs).find? (Record.named new.name) = some new := by
  have hnamed : new.named new.name = true := by
    rw [Record.named, hlive, Bool.true_and, decide_eq_true rfl]
  cases hfind : (insertRecord new rs).find? (Record.named new.name) with
  | none => exact absurd hnamed (List.find?_eq_none.mp hfind new (mem_insertRecord new rs))
  | some r =>
    rcases mem_insertRecord_or (List.mem_of_find?_eq_some hfind) with rfl | hold
    · rfl
    · have hr := List.find?_some hfind
      rw [Record.named, Bool.and_eq_true, decide_eq_true_eq] at hr
      exact absurd hr.2 (lookup_eq_none_iff.mp hnone r (List.mem_filter.mpr ⟨hold, hr.1⟩))

/-- `cmd_rm` of a name with an overlong record marks the record as free and fails. -/
theorem Overlong.cmdRm_run (h : Overlong t dir rs name) (hdots : ¬ (name = dot ∨ name = dotdot))
    (hnone : lookup rs name = none) :
    ∃ ret u r l, ret < 0 ∧ (cmdRm dir [name]).run t = .ok (.silent dir ret, u) ∧
      IsDir t dir l ∧ l.find? (Record.named name) = some r ∧ IsDir u dir (removeRecord name l) := by
  obtain ⟨c, hc, hname, hdir, hzero⟩ := h.entered
  obtain ⟨inode, hmem⟩ := h.inMemory
  obtain ⟨new, hnew⟩ : ∃ new, new = recordFor c name hc hname := ⟨_, rfl⟩
  have hsize : new.size = direntSize + name.length + 1 := by rw [hnew, size_recordFor]
  have hnumber : new.nr.toNat = c := by
    rw [hnew]
    exact Int.toNat_natCast c
  have hfind : (insertRecord new rs).find? (Record.named name) = some new := by
    rw [hnew]
    exact find?_insertRecord (live_recordFor hc hname) hnone
  rw [← hnew] at hdir
  have hfile : (t.dinode c).iType ≠ InodeType.dir.code := by
    rw [hzero]
    decide
  have hne : c ≠ dir := by
    rintro rfl
    exact hfile hdir.type
  have hallowed := testfsRemoveDirentAllowed_file h.sound.core.layout hc (h.quiet c hne) hfile
  rw [← hnumber] at hallowed
  obtain ⟨post, hsplit, -⟩ := removeRecord_of_find?_eq_some hfind
  have hlength := congrArg (fun l ↦ (encodeDir l).length) hsplit
  simp only [encodeDir_append, encodeDir_cons, List.length_append, Record.length_encode] at hlength
  have hpos : 0 < new.remove.dirent.encode.length := by
    rw [Record.length_encode]
    exact lt_of_lt_of_le (by decide) new.remove.size_ge
  have hend : (encodeDir ((insertRecord new rs).takeWhile fun r ↦ !r.named name)).length +
      new.remove.dirent.encode.length ≤ (encodeDir (insertRecord new rs)).length := by
    rw [Record.length_encode, Record.size_remove]
    omega
  obtain ⟨u, inode', hwrite, hw, -⟩ := hdir.overwrite_run h.sound hmem hpos hend
  have hneg : toInt32 (new.remove.dirent.encode.length : ℤ) < 0 := by
    have hlong := h.long
    simp only [direntSize] at hsize hlong
    rw [Record.length_encode, Record.size_remove]
    exact toInt32_neg (by omega) (by omega)
  have hremove := testfsRemoveDirent_write_run h.sound hmem hdir hdots hfind le_rfl hallowed hwrite
  rw [if_neg (not_le.mpr hneg)] at hremove
  refine ⟨_, u, new, _, hneg, ?_, hdir, hfind, (hw.removedDirent hmem hdir hfind).2 rfl⟩
  rw [cmdRm, Program.run_bind hremove, if_pos hneg, Program.pure_run]

/-- So the name is not removed, and not everything is as it was. -/
theorem Overlong.not_removesOrKeeps (h : Overlong t dir rs name)
    (hdots : ¬ (name = dot ∨ name = dotdot)) (hnone : lookup rs name = none)
    (hlt : dir < nrInodes) :
    ¬ RemovesOrKeeps t dir name := by
  obtain ⟨ret, u, r, l, hneg, hrm, hdir, hfind, hdir'⟩ := h.cmdRm_run hdots hnone
  rintro ⟨ret', u', hrm', hzero, -, hkeeps⟩
  obtain ⟨hout, rfl⟩ := Prod.mk.inj (Except.ok.inj (hrm.symm.trans hrm'))
  obtain rfl : ret = ret' := congrArg Outcome.ret hout
  by_cases hremovable : ∃ c, Removable t dir name c
  · rw [hzero.mpr hremovable] at hneg
    exact absurd hneg (lt_irrefl 0)
  · have hsame := (hkeeps hremovable).2
    have hrecords := hdir'.unique ((hsame.isDir_iff hlt).mpr hdir)
    obtain ⟨post, hsplit, hrem⟩ := removeRecord_of_find?_eq_some hfind
    rw [hrecords] at hrem
    have hcons := List.append_cancel_left (hsplit.symm.trans hrem)
    have hnamed := List.find?_some hfind
    rw [Record.named, Bool.and_eq_true, (List.cons.inj hcons).1, Record.live_remove] at hnamed
    exact absurd hnamed.1 (by decide)

/-- A new name of a file whose record is overlong is entered if there are blocks for it, and
`cmd_create` fails. -/
theorem InTree.cmdCreate_overlong (h : InTree T dirs s cur) (hnone : lookup (dirs cur) name = none)
    (hname : name.length + 1 < 2 ^ 31) (hlong : 2 ^ 31 ≤ direntSize + name.length + 1)
    (hfree : ∃ i < nrInodes, s.inodeFreemap.bit i = false)
    (hsmall : (encodeDir (dirs cur)).length < 2 ^ 31)
    (hroom : ((direntSize + name.length + 1) / blockSize + 2) * 3 ≤ s.room) :
    ∃ ret t, (cmdCreate cur [name]).run s = .ok (.silent cur ret, t) ∧ ret < 0 ∧
      t.allocFailed = s.allocFailed ∧ Overlong t cur (dirs cur) name := by
  have hlt := h.represents.lt h.isDir
  obtain ⟨m, hmem⟩ := h.inMemory
  obtain ⟨c, u, inode, hcreate, hc⟩ := h.calm.toSound.create_free .file hfree
  have hcur : cur ≠ c := fun heq ↦ h.not_present hc (heq ▸ T.present_of_isDir h.isDir)
  have hudir : IsDir u cur (dirs cur) :=
    (h.represents.records cur h.isDir).congr (hc.others.dinode hlt hcur)
      (hc.others.content cur hlt hcur)
  have humem : u.inodeHashTable cur = some m := by rw [hc.others.table cur hcur, hmem]
  obtain ⟨new, hnew⟩ : ∃ new, new = recordFor c name hc.lt hname := ⟨_, rfl⟩
  have hsize : new.size = direntSize + name.length + 1 := by rw [hnew, size_recordFor]
  have hstop : ∀ r, (dirs cur).find? (Record.stopsAdd new.name) = some r → r.live = false := by
    rw [hnew]
    exact fun r hr ↦ live_of_stopsAdd hnone hr
  have hplace := testfsAddDirent_place_run hc.sound humem hudir new
    (by rw [hnew]; exact Int.natCast_nonneg c) hstop
  have hle := length_takeWhile_le (dirs cur) fun r ↦ !r.stopsAdd new.name
  rw [toInt32_of_range (by omega) (by omega)] at hplace
  obtain ⟨start, hstart⟩ : ∃ start, start =
    (encodeDir ((dirs cur).takeWhile fun r ↦ !r.stopsAdd new.name)).length := ⟨_, rfl⟩
  rw [← hstart] at hplace hle
  have hend : start + new.dirent.encode.length ≤ maxFileSize := by
    rw [Record.length_encode, hsize]
    simp only [maxFileSize, maxBlockNr, nrDirectBlocks, nrIndirectBlocks, blockSize, direntSize]
    omega
  have hneed : HasRoom (0 + u.missing cur (writeSlots start new.dirent.encode.length)) u := by
    refine hc.sound.core.hasRoom_iff.mpr ?_
    have hmissing := missing_writeSlots_le u cur start new.dirent.encode.length
    rw [Record.length_encode, hsize] at hmissing ⊢
    rw [h.room_created hc, zero_add]
    exact hmissing.trans hroom
  obtain ⟨w, m', hwrite, hwritten, -⟩ := hc.sound.write_room humem
    (lt_of_le_of_lt hle (hsmall.trans (by decide))) hend hneed
  have hadded : Added cur (dirs cur) new m u none w m' := by
    rw [hstart] at hwritten
    exact hwritten.added hudir humem hstop
  rw [hwrite, Record.length_encode, hnew] at hplace
  have hadd : (testfsAddDirent cur name c).run u =
    .ok (toInt32 (recordFor c name hc.lt hname).size, w) := hplace
  have hneg : toInt32 ((recordFor c name hc.lt hname).size : ℤ) < 0 := by
    rw [← hnew, hsize]
    simp only [direntSize] at hlong ⊢
    exact toInt32_neg (by omega) (by omega)
  obtain ⟨t, hremove, hremoved⟩ := hadded.worked.sound.remove
    (by rw [hadded.worked.others.table c hcur.symm, hc.inMemory])
    (by rw [hadded.worked.inodeFreemap, hc.inodeFreemap, Bitmap.bit_put, if_pos rfl])
  have hworked : Worked c u u inode inode :=
    ⟨hc.sound, Others.refl c u, hc.inMemory, rfl, rfl, rfl, rfl⟩
  rw [hnew] at hadded
  refine ⟨_, t, ?_, hneg, ?_, (h.overlong hc hworked hname hnone hadded hlong hremoved).2⟩
  · have hfill : (fillNewInode (some (cur, name)) .file c).run u = .ok (0, u) := by
      rw [fillNewInode, if_neg (by decide), Program.pure_run]
    rw [cmdCreate, OperatingSystems.Fs.cmdMake,
      Program.run_bind (h.refused_run hnone hcreate hfill hadd hneg hremove), Program.pure_run]
  · rw [hremoved.allocFailed, hwritten.flag rfl, hc.allocFailed]

end Overlong

/-! ### Runs -/

/-- The command is to make a file or directory of a new name, there is an inode for it, and the size
of the record does not fit an `int`. -/
def Session.EntersOverlong (p : Session) (c : Command) : Prop :=
  ∃ type name, c.Makes type name ∧ 2 ^ 31 ≤ direntSize + name.length + 1 ∧
    name.length + 1 < 2 ^ 31 ∧ (∃ rs, IsDir p.fs p.curDir rs ∧ lookup rs name = none) ∧
    ∃ i < nrInodes, p.fs.inodeFreemap.bit i = false

/-- No allocation has failed in the session that the command leads to. -/
def Session.Allocates (p : Session) (label : ℕ × Command) : Prop :=
  ∀ q, p.step label = some q → q.fs.allocFailed = false

/-- A fresh file system and every session that permitted commands lead to, none of which has failed
an allocation. -/
def AllocatedRun (permitted : Session → Command → Prop) (maxFsBlocks : ℕ) (p : Session) : Prop :=
  ∃ p₀, Started maxFsBlocks p₀ ∧ p₀.fs.allocFailed = false ∧
    Reaches (fun q label ↦ q.Allocates label ∧ permitted q label.2) Session.step p₀ p

section Runs

variable {maxFsBlocks : ℕ} {p : Session}

theorem recordsFit_emptyDir {d : ℕ} (hd : d < nrInodes) :
    RecordsFit (NameTree.single 0) fun _ ↦ emptyDir d d hd hd where
  record := fun _ _ r hr ↦ lt_of_le_of_lt (size_le_encodeDir hr) (by
    rw [length_emptyDir]
    decide)
  length := fun _ _ ↦ by
    rw [length_emptyDir]
    decide

/-- The name space is a tree in every session of such a run without overlong records. -/
theorem AllocatedRun.inTree (hmax : maxFsBlocks ≤ nrDataBlocks)
    (h : AllocatedRun (fun q c ↦ ¬ q.EntersOverlong c) maxFsBlocks p) :
    ∃ T dirs, InTree T dirs p.fs p.curDir ∧ RecordsFit T dirs := by
  obtain ⟨p₀, ⟨hfresh, hroot⟩, hflag, hrun⟩ := h
  obtain ⟨s₀, hs₀, hspec⟩ := freshFs_spec hmax
  obtain rfl := Except.ok.inj (hs₀.symm.trans hfresh)
  refine hrun.invariant (I := fun p ↦ ∃ T dirs, InTree T dirs p.fs p.curDir ∧ RecordsFit T dirs)
    ?_ ⟨_, _, by rw [hroot]; exact hspec.inTree hflag, recordsFit_emptyDir _⟩
  rintro p label q ⟨T, dirs, htree, hfit⟩ ⟨hallocates, hshort⟩ hstep
  obtain ⟨out, hcommand, hcur⟩ := Session.step_eq_some_iff.mp hstep
  rcases htree.handleCommand_cases hfit hcommand with
    ⟨T', dirs', hdone, hfit'⟩ | ⟨type, name, hmakes, hspoiled⟩
  · exact ⟨T', dirs', hcur ▸ hdone, hfit'⟩
  · rcases hspoiled.shows with htrue | hoverlong
    · rw [hallocates q hstep] at htrue
      exact absurd htrue (by decide)
    · exact absurd ⟨type, name, hmakes, hoverlong.long, hspoiled.spoils.fits,
        ⟨dirs p.curDir, htree.represents.records _ htree.isDir, hspoiled.spoils.unused⟩,
        hspoiled.spoils.free⟩ hshort

/-- Assumes: a run of commands on a fresh file system in which no allocation fails, and in which no
new name is to be entered with a record of `2^31` bytes or more. Then `cmd_rm` removes a name
completely or not at all. -/
theorem rm_removes_or_keeps (hmax : maxFsBlocks ≤ nrDataBlocks)
    (hrun : AllocatedRun (fun q c ↦ ¬ q.EntersOverlong c) maxFsBlocks p) (name : CString) :
    RemovesOrKeeps p.fs p.curDir name := by
  obtain ⟨T, dirs, htree, hfit⟩ := hrun.inTree hmax
  exact htree.removesOrKeeps hfit name

/-- `create f` in a new file system of eight blocks is such a run. -/
theorem allocatedRun_create : ∃ p T dirs c,
    AllocatedRun (fun q c ↦ ¬ q.EntersOverlong c) 8 p ∧ CreatedF 8 T dirs c p := by
  obtain ⟨p₀, p, T, dirs, c, hstart, hquiet, hstep, hcreated⟩ :=
    fresh_create (by decide : 0 < 8) (by decide)
  refine ⟨p, T, dirs, c, ⟨p₀, hstart, hquiet.1,
    Relation.ReflTransGen.single ⟨_, ⟨fun q hq ↦ ?_, ?_⟩, hstep⟩⟩, hcreated⟩
  · rw [hstep, Option.some.injEq] at hq
    exact hq ▸ hcreated.quiet.1
  · rintro ⟨type, name, ⟨hargs, -⟩, hlong, -⟩
    obtain rfl : nameF = name := by simpa using hargs
    exact absurd hlong (by decide)

/-- `rm f` after `create f` in a new file system of eight blocks. -/
theorem rm_removes_or_keeps_created :
    ∃ p, AllocatedRun (fun q c ↦ ¬ q.EntersOverlong c) 8 p ∧
      p.step (0, ⟨.rm, [nameF]⟩) ≠ none ∧ RemovesOrKeeps p.fs p.curDir nameF := by
  obtain ⟨p, T, dirs, c, hrun, -⟩ := allocatedRun_create
  have hdone := rm_removes_or_keeps (by decide) hrun nameF
  refine ⟨p, hrun, ?_, hdone⟩
  obtain ⟨ret, t, hrm, -⟩ := hdone
  have hsome : p.step (0, ⟨.rm, [nameF]⟩) = some ⟨t, p.curDir⟩ :=
    Session.step_eq_some_iff.mpr ⟨_, hrm, rfl⟩
  rw [hsome]
  exact Option.some_ne_none _

end Runs

/-! ### A name that is too long -/

section Long

variable {maxFsBlocks : ℕ} {p : Session}

/-- What a new file system with a block for the root has. -/
theorem Fresh.started {maxFsBlocks : ℕ} {s : FsState} (h : Fresh maxFsBlocks s)
    (hpos : 0 < maxFsBlocks) :
    (∃ i < nrInodes, s.inodeFreemap.bit i = false) ∧ s.sb.usedBlockCount ≤ 1 ∧
      s.allocFailed = false ∧
      InTree (NameTree.single 0) (fun _ ↦ emptyDir 0 0 (by decide) (by decide)) s 0 := by
  have hzero : (0 : ℕ) < nrInodes := by decide
  obtain ⟨-, hdir, hflag⟩ := h.root_made hpos
  refine ⟨h.exists_free, ?_, hflag, h.inTree hflag⟩
  refine h.sound.used_le_one_of_root (fun i hi hi0 ↦ ?_) ?_
  · funext σ
    rw [FsState.own, h.free i hi hi0, slotVal_zero]
  · rw [hdir.size, length_emptyDir hzero hzero]
    decide

/-- The root takes one block at most. -/
theorem Fresh.le_room {maxFsBlocks : ℕ} {s : FsState} (h : Fresh maxFsBlocks s)
    (hpos : 0 < maxFsBlocks) (hmax : maxFsBlocks ≤ nrDataBlocks) : maxFsBlocks - 1 ≤ s.room := by
  obtain ⟨-, hused, -, -⟩ := h.started hpos
  rw [FsState.room, h.maxFsBlocks, Nat.min_eq_left hmax]
  exact Nat.sub_le_sub_left hused maxFsBlocks

/-- A long name is not in use in an empty directory. -/
theorem not_dots_of_length {name : CString} (h : 2 < name.length) :
    ¬ (name = dot ∨ name = dotdot) := by
  rintro (rfl | rfl)
  · exact absurd h (by decide)
  · exact absurd h (by decide)

theorem lookup_emptyDir_of_not_dots {name : CString} {c d : ℕ} (hc : c < nrInodes)
    (hd : d < nrInodes) (h : ¬ (name = dot ∨ name = dotdot)) :
    lookup (emptyDir c d hc hd) name = none := by
  rw [lookup_emptyDir, if_neg fun hname ↦ h (Or.inl hname), if_neg fun hname ↦ h (Or.inr hname)]

theorem AllocatedRun.allocFailed {permitted : Session → Command → Prop} {maxFsBlocks : ℕ}
    {p : Session} (h : AllocatedRun permitted maxFsBlocks p) : p.fs.allocFailed = false := by
  obtain ⟨p₀, -, hflag, hrun⟩ := h
  exact hrun.invariant (I := fun p ↦ p.fs.allocFailed = false)
    (fun _ _ q _ hallocates hstep ↦ hallocates.1 q hstep) hflag

/-- Assumes: a run of commands on a fresh file system in which no allocation fails, and in which no
new name is to be entered with a record of `2^31` bytes or more. Then `cmd_rm` removes every name
completely or not at all. This ends with the `create` that is to enter such a record in a directory
of less than `2^31` bytes, with blocks for all of it: it leads to a session in which `cmd_rm` of the
name does neither. -/
theorem removals_complete (hmax : maxFsBlocks ≤ nrDataBlocks)
    (hrun : AllocatedRun (fun q c ↦ ¬ q.EntersOverlong c) maxFsBlocks p) :
    (∀ name, RemovesOrKeeps p.fs p.curDir name) ∧
    ∀ depth name, p.EntersOverlong ⟨.create, [name]⟩ →
      (p.fs.dinode p.curDir).iSize < 2 ^ 31 →
      ((direntSize + name.length + 1) / blockSize + 2) * 3 ≤ p.fs.room →
      ∃ q, p.step (depth, ⟨.create, [name]⟩) = some q ∧ q.fs.allocFailed = false ∧
        ¬ RemovesOrKeeps q.fs q.curDir name := by
  obtain ⟨T, dirs, htree, hfit⟩ := hrun.inTree hmax
  refine ⟨htree.removesOrKeeps hfit, fun depth name ⟨type, name', hmakes, hlong, hname, ⟨rs, hrs,
    hnone⟩, hfree⟩ hsmall hroom ↦ ?_⟩
  obtain rfl : name = name' := by simpa using hmakes.1
  have hrecords := htree.represents.records _ htree.isDir
  obtain rfl := hrs.unique hrecords
  rw [hrecords.size] at hsmall
  obtain ⟨ret, t, hcreate, -, hkept, hoverlong⟩ := htree.cmdCreate_overlong hnone hname hlong hfree
    (by exact_mod_cast hsmall) hroom
  refine ⟨⟨t, p.curDir⟩, Session.step_eq_some_iff.mpr ⟨_, hcreate, rfl⟩,
    hkept.trans hrun.allocFailed, hoverlong.not_removesOrKeeps (not_dots_of_length ?_) hnone
      (htree.represents.lt htree.isDir)⟩
  simp only [direntSize] at hlong
  omega

/-- `rm f` after `create f` in a new file system of eight blocks returns zero and leaves nothing of
`f` behind. -/
theorem removals_complete_created : ∃ (p : Session) (c : ℕ) (t : FsState),
    AllocatedRun (fun q c ↦ ¬ q.EntersOverlong c) 8 p ∧ Removable p.fs p.curDir nameF c ∧
    (cmdRm p.curDir [nameF]).run p.fs = .ok (.silent p.curDir 0, t) ∧
    RemovesName p.curDir nameF c p.fs t := by
  obtain ⟨p, T, dirs, c, hrun, hcreated⟩ := allocatedRun_create
  have htree := hcreated.inTree
  obtain ⟨c', hcast, hpresent⟩ := htree.represents.present_of_lookup htree.isDir hcreated.lookup
  obtain rfl : c = c' := Nat.cast_inj.mp hcast
  have hremovable : Removable p.fs p.curDir nameF c := by
    refine ⟨by decide, ⟨dirs 0, ?_, hcreated.lookup⟩, (htree.represents.present c).mp hpresent,
      fun hdir ↦ ?_⟩
    · rw [hcreated.curDir]
      exact htree.represents.records 0 htree.isDir
    · rw [hcreated.type] at hdir
      exact absurd hdir (by decide)
  obtain ⟨ret, t, hrm, hzero, hremoves, -⟩ := (removals_complete (by decide) hrun).1 nameF
  obtain rfl := hzero.mpr ⟨c, hremovable⟩
  exact ⟨p, c, t, hrun, hremovable, hrm, hremoves c hremovable⟩

end Long

/-- A name of `2^31 - 9` bytes. -/
def longName : CString :=
  ⟨List.replicate (2 ^ 31 - 9) 97, fun hmem ↦ absurd (List.eq_of_mem_replicate hmem) (by decide)⟩

theorem length_longName : longName.length = 2 ^ 31 - 9 := List.length_replicate

/-- `create` of the long name in a new file system of `nrDataBlocks` blocks enters it although it
fails, and then `rm` of the name fails although it marks the record as free. -/
theorem overlong_name_half_removed : ∃ p, AllocatedRun (fun _ _ ↦ True) nrDataBlocks p ∧
    ¬ RemovesOrKeeps p.fs p.curDir longName := by
  obtain ⟨s, hfresh, hspec⟩ := freshFs_spec (le_refl nrDataBlocks)
  obtain ⟨hfree, -, hflag, htree⟩ := hspec.started (by decide)
  have hzero : (0 : ℕ) < nrInodes := by decide
  have hlength := length_longName
  have hdots : ¬ (longName = dot ∨ longName = dotdot) :=
    not_dots_of_length (by rw [hlength]; decide)
  have hunused := lookup_emptyDir_of_not_dots hzero hzero hdots
  have hroom : ((direntSize + longName.length + 1) / blockSize + 2) * 3 ≤ s.room := by
    rw [hlength]
    exact le_trans (by decide) (hspec.le_room (by decide) le_rfl)
  obtain ⟨ret, t, hrun, -, hkept, hoverlong⟩ := htree.cmdCreate_overlong hunused
    (by rw [hlength]; decide) (by rw [hlength]; decide) hfree
    (by rw [length_emptyDir]; decide) hroom
  have hstep : (⟨s, 0⟩ : Session).step (0, ⟨.create, [longName]⟩) = some ⟨t, 0⟩ :=
    Session.step_eq_some_iff.mpr ⟨_, hrun, rfl⟩
  refine ⟨⟨t, 0⟩, ⟨⟨s, 0⟩, ⟨hfresh, rfl⟩, hflag, Relation.ReflTransGen.single
    ⟨_, ⟨fun q hq ↦ ?_, trivial⟩, hstep⟩⟩, hoverlong.not_removesOrKeeps hdots hunused hzero⟩
  rw [hstep, Option.some.injEq] at hq
  rw [← hq]
  exact hkept.trans hflag

end OperatingSystems.Fs
