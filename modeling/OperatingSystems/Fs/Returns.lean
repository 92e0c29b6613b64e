import OperatingSystems.Fs.ReadRange
import OperatingSystems.Fs.Readers

/-!
# Every command returns

In a tree no command ends the process: no assertion fails, no block past the end of the device is
read, and the recursions of `testfs_pwd` and `testfs_ls` end. What the code leaves undefined is left
out by `InRange`: names and directories whose lengths do not fit an `int`, and reads whose end does
not fit an `off_t`.

A command may spoil its directory and return. It is the next command that finds it dirty, so
`commands_return` is about runs in which no record has spoiled a directory so far.
-/

set_option autoImplicit false
set_option relaxedAutoImplicit false

namespace OperatingSystems.Fs

open Library Library.Machine

/-- A file or directory is made under a name and in a directory whose lengths fit an `int`, and the
end of a read fits an `off_t`. -/
structure InRange (s : FsState) (cur : ℕ) (c : Command) : Prop where
  made : ∀ type name, c.Makes type name →
    name.length + 1 < 2 ^ 31 ∧ (s.dinode cur).iSize < 2 ^ 31
  read : ∀ name offsetStr sizeStr offset size, c.name = .read →
    c.args = [name, offsetStr, sizeStr] → strToOffset offsetStr = .ok offset →
    strToSize sizeStr = .ok size → offset + size < 2 ^ 63

/-- The command returns and the file system has as many blocks as before. -/
def Answers (m : FsProgram Outcome) (s : FsState) : Prop :=
  ∃ out t, m.run s = .ok (out, t) ∧ t.sb.maxFsBlocks = s.sb.maxFsBlocks

section Returns

variable {T : NameTree ℕ CString} {dirs : ℕ → List Record} {s : FsState} {cur : ℕ}
  {type : InodeType} {name : CString}

/-- `testfs_create_file_or_dir` returns, whether or not the inode can be made, filled and entered.
-/
theorem InTree.createFileOrDir_returns (h : InTree T dirs s cur)
    (hname : name.length + 1 < 2 ^ 31) (hsmall : (encodeDir (dirs cur)).length < 2 ^ 31) :
    ∃ ret t, (testfsCreateFileOrDir (some (cur, name)) type).run s = .ok (ret, t) ∧
      t.sb.maxFsBlocks = s.sb.maxFsBlocks := by
  have hlt := h.represents.lt h.isDir
  obtain ⟨m, hmem⟩ := h.inMemory
  rcases h.find_run name with ⟨d, -, -, hfound⟩ | ⟨hnone, -⟩
  · have hexists : (nameExists (some (cur, name))).run s = .ok (true, s) := by
      rw [nameExists, Program.run_bind hfound, Program.pure_run,
        decide_eq_true (Int.natCast_nonneg d)]
    exact ⟨_, s, by rw [testfsCreateFileOrDir, Program.run_bind hexists, if_pos rfl,
      Program.pure_run], rfl⟩
  rcases h.calm.toSound.create type with ⟨c, u, inode, hcreate, hc⟩ | ⟨u, hcreate, hn⟩
  swap
  · refine ⟨-eNOSPC, u, ?_, (hn.others 0).maxFsBlocks⟩
    rw [testfsCreateFileOrDir, Program.run_bind (h.nameExists_run hnone),
      if_neg Bool.false_ne_true, Program.run_bind hcreate]
    simp only
    rw [if_pos (by decide), Program.pure_run]
  obtain ⟨failure, v, inode', hfill, hw, hfilled, hfailed⟩ := h.fill hc name hlt
  have hmade : Others c s v := hc.others.trans hw.others
  have hset : v.inodeFreemap.bit c = true := by
    rw [hw.inodeFreemap, hc.inodeFreemap, Bitmap.bit_put, if_pos rfl]
  cases failure with
  | some ret =>
    -- a directory that cannot be filled is removed
    obtain ⟨hneg, -⟩ := hfailed ret rfl
    obtain ⟨t, hremove, hremoved⟩ := hw.sound.remove hw.inMemory hset
    refine ⟨ret, t, ?_, hremoved.others.maxFsBlocks.trans hmade.maxFsBlocks⟩
    rw [testfsCreateFileOrDir, Program.run_bind (h.nameExists_run hnone),
      if_neg Bool.false_ne_true, Program.run_bind hcreate]
    simp only [lt_irrefl, if_false]
    rw [Program.run_bind hfill, Option.getD_some, if_pos hneg, Program.run_bind hremove,
      Program.pure_run]
  | none =>
    obtain ⟨hdir, hdirty, -⟩ := hfilled rfl
    have hcur : cur ≠ c := fun heq ↦ h.not_present hc (heq ▸ T.present_of_isDir h.isDir)
    have hvmem : v.inodeHashTable cur = some m := by rw [hmade.table cur hcur, hmem]
    have hvdir : IsDir v cur (dirs cur) := (h.represents.records cur h.isDir).congr
      (hmade.dinode hlt hcur) (hmade.content cur hlt hcur)
    obtain ⟨failure, w, m', hadd, hadded⟩ := testfsAddDirent_run hw.sound hvmem hvdir hsmall
      (recordFor c name hc.lt hname) (Int.natCast_nonneg c)
      fun r hr ↦ live_of_stopsAdd hnone hr
    by_cases hneg : failure.getD (toInt32 (recordFor c name hc.lt hname).size) < 0
    · obtain ⟨t, hremove, hremoved⟩ := hadded.worked.sound.remove
        (by rw [hadded.worked.others.table c hcur.symm, hw.inMemory])
        (by rw [hadded.worked.inodeFreemap, hset])
      exact ⟨_, t, h.refused_run hnone hcreate hfill hadd hneg hremove,
        hremoved.others.maxFsBlocks.trans
          (hadded.worked.others.maxFsBlocks.trans hmade.maxFsBlocks)⟩
    · have hentered : failure = none := by
        cases failure with
        | none => rfl
        | some ret =>
          obtain ⟨start, n, hwritten, -⟩ := hadded.written
          exact absurd (hwritten.failure_neg rfl) hneg
      subst hentered
      rw [Option.getD_none] at hadd hneg
      have hfits : (recordFor c name hc.lt hname).size < 2 ^ 31 := by
        have hsize := size_recordFor hc.lt hname
        by_contra hbig
        refine hneg (toInt32_neg (by omega) ?_)
        simp only [direntSize] at hsize
        omega
      obtain ⟨t, hrun, -, -, -, hlimit, -⟩ := h.enter_run hnone hcreate hc hfill hw hdirty hlt hdir
        hname hmem hadd hadded hfits
      exact ⟨0, t, hrun, hlimit⟩

/-- `cmd_create` and `cmd_mkdir` return. -/
theorem InTree.cmdMake_returns (h : InTree T dirs s cur) (args : List CString)
    (hrange : ∀ name, args = [name] →
      name.length + 1 < 2 ^ 31 ∧ (s.dinode cur).iSize < 2 ^ 31) :
    Answers (OperatingSystems.Fs.cmdMake type cur args) s := by
  match args with
  | [] => exact ⟨_, s, rfl, rfl⟩
  | _ :: _ :: _ => exact ⟨_, s, rfl, rfl⟩
  | [name] =>
    obtain ⟨hname, hsize⟩ := hrange name rfl
    rw [(h.represents.records cur h.isDir).size] at hsize
    obtain ⟨ret, t, hrun, hlimit⟩ := h.createFileOrDir_returns hname (by exact_mod_cast hsize)
    exact ⟨.silent cur ret, t, Program.run_bind hrun, hlimit⟩

/-- `testfs_pwd` returns from every depth that the tree does not exceed. -/
theorem InTree.cmdPwd_returns (h : InTree T dirs s cur) (args : List CString) {depth : ℕ}
    (hdepth : T.depth cur < depth) :
    ∃ out t, (OperatingSystems.Fs.cmdPwd depth cur args).run s = .ok (out, t) := by
  match args with
  | _ :: _ => exact ⟨_, s, rfl⟩
  | [] =>
    obtain ⟨inode, hmem⟩ := h.inMemory
    obtain ⟨names, -, hpwd⟩ := testfsPwd_run depth h.calm h.represents h.isDir hdepth hmem
    exact ⟨_, s, by rw [OperatingSystems.Fs.cmdPwd, Program.run_bind hpwd, Program.pure_run]⟩

/-- So do `testfs_ls` and the commands that list a directory. -/
theorem InTree.cmdLsInternal_returns (h : InTree T dirs s cur) (recursive : Bool)
    (args : List CString) {bound depth : ℕ} (hbound : ∀ d, T.isDir d → T.depth d ≤ bound)
    (hdepth : bound < depth) :
    ∃ out t, (OperatingSystems.Fs.cmdLsInternal depth cur args recursive).run s =
      .ok (out, t) := by
  match args with
  | [] => exact ⟨_, s, rfl⟩
  | _ :: _ :: _ => exact ⟨_, s, rfl⟩
  | [name] =>
    rcases h.find_run name with ⟨c, -, hc, hfind⟩ | ⟨-, hfind⟩
    swap
    · exact ⟨_, s, by rw [OperatingSystems.Fs.cmdLsInternal, Program.run_bind hfind,
        if_pos (by decide), Program.pure_run]⟩
    have hlt := h.represents.bound c hc
    obtain ⟨htype, hget⟩ := h.getType_run hc
    rw [OperatingSystems.Fs.cmdLsInternal, Program.run_bind hfind,
      if_neg (not_lt.mpr (Int.natCast_nonneg c)), Int.toNat_natCast,
      Program.run_bind (testfsGetInode_fetch h.calm.core.layout hlt), Program.run_bind hget]
    by_cases hdir : T.isDir c
    · obtain ⟨n, hn⟩ := inodeHashTable_fetch s c
      obtain ⟨lines, hls⟩ := testfsLs_run hbound recursive depth (h.fetch hlt).calm
        (h.fetch hlt).represents hdir (by omega) hn
      exact ⟨_, s, by rw [if_pos (htype.mpr hdir), Program.run_bind hls,
        Program.run_bind (testfsPutInode_fetch h.calm c), Program.pure_run]⟩
    · exact ⟨_, s.fetch c, by rw [if_neg fun heq ↦ hdir (htype.mp heq), Program.pure_run]⟩

/-- `cmd_stat` returns. -/
theorem InTree.cmdStat_returns (h : InTree T dirs s cur) (args : List CString) :
    ∃ out t, (OperatingSystems.Fs.cmdStat cur args).run s = .ok (out, t) := by
  match args with
  | [] => exact ⟨_, s, rfl⟩
  | _ :: _ :: _ => exact ⟨_, s, rfl⟩
  | [name] =>
    rcases h.find_run name with ⟨c, -, hc, hfind⟩ | ⟨-, hfind⟩
    · obtain ⟨n, hn⟩ := inodeHashTable_fetch s c
      exact ⟨_, s, by
        rw [OperatingSystems.Fs.cmdStat, Program.run_bind hfind,
          if_neg (not_lt.mpr (Int.natCast_nonneg c)), Int.toNat_natCast,
          Program.run_bind (testfsGetInode_fetch h.calm.core.layout (h.represents.bound c hc)),
          Program.run_bind (inodeRef_run hn), Program.run_bind (testfsPutInode_fetch h.calm c),
          Program.pure_run]⟩
    · exact ⟨_, s, by rw [OperatingSystems.Fs.cmdStat, Program.run_bind hfind,
        if_pos (by decide), Program.pure_run]⟩

/-- The part of `cmd_read` that reads returns if the end of the range fits an `off_t`. -/
theorem Sound.readFile_returns (hs : Sound s) {i : ℕ} {inode : Inode}
    (ht : s.inodeHashTable i = some inode) {offset : ℤ} {size : ℕ} (hoffset : 0 ≤ offset)
    (hend : offset + size < 2 ^ 63) :
    ∃ ret output, (readFile i offset size).run s = .ok ((ret, output), s) := by
  by_cases hpasses : PassesRangeCheck (s.dinode i).iSize offset size
  swap
  · exact ⟨_, _, readFile_refuses ht hoffset hpasses⟩
  obtain ⟨-, ret, bytes, hread, hlength, hbuffer⟩ :=
    (hs.readsWithin_iff ht (by omega) (by omega)).mpr (Or.inr (Or.inl hend)) hpasses
  rw [readFile, Program.run_bind (testfsInodeGetSize_run ht), if_neg hpasses.2]
  by_cases hmalloc : toSize (size + 1) ≥ 2 ^ 63
  · exact ⟨_, _, by rw [if_pos hmalloc, Program.pure_run]⟩
  rw [if_neg hmalloc, Program.run_bind hread]
  simp only
  rw [Program.check_bind_run hbuffer.le]
  by_cases hret : ret ≥ 0
  · exact ⟨_, _, by rw [if_pos hret, Program.check_bind_run (hlength ▸ hbuffer),
      Program.pure_run]⟩
  · exact ⟨_, _, by rw [if_neg hret, Program.pure_run]⟩

/-- `cmd_read` returns. -/
theorem InTree.cmdRead_returns (h : InTree T dirs s cur) (args : List CString)
    (hrange : ∀ name offsetStr sizeStr offset size, args = [name, offsetStr, sizeStr] →
      strToOffset offsetStr = .ok offset → strToSize sizeStr = .ok size → offset + size < 2 ^ 63) :
    ∃ out t, (OperatingSystems.Fs.cmdRead cur args).run s = .ok (out, t) := by
  match args with
  | [] => exact ⟨_, s, rfl⟩
  | [_] => exact ⟨_, s, rfl⟩
  | [_, _] => exact ⟨_, s, rfl⟩
  | _ :: _ :: _ :: _ :: _ => exact ⟨_, s, rfl⟩
  | [name, offsetStr, sizeStr] =>
    rw [OperatingSystems.Fs.cmdRead]
    cases hoffset : strToOffset offsetStr with
    | error ret => exact ⟨_, s, rfl⟩
    | ok offset =>
      simp only
      by_cases hneg : offset < 0
      · exact ⟨_, s, by rw [if_pos hneg, Program.pure_run]⟩
      rw [if_neg hneg]
      cases hsize : strToSize sizeStr with
      | error ret => exact ⟨_, s, rfl⟩
      | ok size =>
        simp only
        rcases h.getFileInode name with ⟨ret, hret, hfile⟩ | ⟨c, hc, -, hfile⟩
        · exact ⟨_, s, by rw [Program.run_bind hfile]; simp only; rw [if_pos hret,
            Program.pure_run]⟩
        · obtain ⟨n, hn⟩ := inodeHashTable_fetch s c
          obtain ⟨ret, output, hread⟩ := ((h.fetch (h.represents.bound c hc)).calm.toSound
            ).readFile_returns hn (not_lt.mp hneg) (hrange name _ _ _ _ rfl hoffset hsize)
          rw [Program.run_bind hfile]
          simp only
          rw [if_neg (lt_irrefl 0), Program.run_bind hread]
          simp only
          exact ⟨_, s, by rw [Program.run_bind (testfsPutInode_fetch h.calm c), Program.pure_run]⟩

/-- `cmd_rm` returns. -/
theorem InTree.cmdRm_returns (h : InTree T dirs s cur) (hfit : RecordsFit T dirs)
    (args : List CString) : Answers (OperatingSystems.Fs.cmdRm cur args) s := by
  match args with
  | [] => exact ⟨_, s, rfl, rfl⟩
  | _ :: _ :: _ => exact ⟨_, s, rfl, rfl⟩
  | [name] =>
    rcases h.cmdRm_run hfit name with ⟨ret, -, hrun, -⟩ | ⟨c, t, hrun, -, -, -, -, hu, -⟩
    · exact ⟨_, s, hrun, rfl⟩
    · exact ⟨_, t, hrun, hu.maxFsBlocks⟩

/-- `cmd_write` returns. -/
theorem InTree.cmdWrite_returns (h : InTree T dirs s cur) (args : List CString) :
    Answers (OperatingSystems.Fs.cmdWrite cur args) s := by
  match args with
  | [] => exact ⟨_, s, rfl, rfl⟩
  | [_] => exact ⟨_, s, rfl, rfl⟩
  | [_, _] => exact ⟨_, s, rfl, rfl⟩
  | _ :: _ :: _ :: _ :: _ => exact ⟨_, s, rfl, rfl⟩
  | [filename, offset, buf] =>
    cases hparse : strToOffset offset with
    | error ret => exact ⟨_, s, by rw [OperatingSystems.Fs.cmdWrite, hparse]; rfl, rfl⟩
    | ok value =>
      by_cases hneg : value < 0
      · refine ⟨.silent cur (-eINVAL), s, ?_, rfl⟩
        rw [OperatingSystems.Fs.cmdWrite, hparse]
        simp only
        rw [if_pos hneg, Program.pure_run]
      obtain ⟨start, rfl⟩ := Int.eq_ofNat_of_zero_le (not_lt.mp hneg)
      rcases h.getFileInode filename with ⟨ret, hret, hrun⟩ | ⟨c, hc, hfile, hrun⟩
      · refine ⟨.silent cur ret, s, ?_, rfl⟩
        rw [OperatingSystems.Fs.cmdWrite, hparse]
        simp only
        rw [if_neg hneg, Program.run_bind hrun]
        simp only
        rw [if_pos hret, Program.pure_run]
      · obtain ⟨n, failure, k, u, n', t, -, hw, hr, hwrite, -⟩ :=
          h.writeFile hc hfile buf hparse hrun
        exact ⟨_, t, hwrite, hr.others.maxFsBlocks.trans hw.worked.others.maxFsBlocks⟩

/-- A command that only reads returns with the file system as large as it was. -/
theorem answers_of_reads {c : Command} {depth : ℕ} (hreads : c.Reads)
    (h : ∃ out t, (handleCommand depth cur c).run s = .ok (out, t)) :
    Answers (handleCommand depth cur c) s := by
  obtain ⟨out, t, hrun⟩ := h
  have hsb := ((ignoresTable_sameDisk s).handleCommand hreads (SameDisk.refl s) hrun).sb
  exact ⟨out, t, hrun, congrArg DsuperBlock.maxFsBlocks hsb⟩

/-- Every command returns, if its recursions may go deep enough. -/
theorem InTree.handleCommand_returns (h : InTree T dirs s cur) (hfit : RecordsFit T dirs)
    {c : Command} (hrange : InRange s cur c) :
    ∃ bound, ∀ depth ≥ bound, Answers (OperatingSystems.Fs.handleCommand depth cur c) s := by
  obtain ⟨bound, hbound⟩ := h.represents.exists_bound
  refine ⟨bound + 1, fun depth hdepth ↦ ?_⟩
  obtain ⟨command, args⟩ := c
  have hreads : ∀ {name : CommandName}, command = name →
      name ≠ .create ∧ name ≠ .mkdir ∧ name ≠ .rm ∧ name ≠ .write →
      Command.Reads ⟨command, args⟩ := by
    rintro name rfl hname
    exact hname
  cases command with
  | cd =>
    obtain ⟨out, t, hrun, -⟩ := h.cmdCd args
    exact answers_of_reads (hreads rfl (by decide)) ⟨out, t, hrun⟩
  | pwd =>
    exact answers_of_reads (hreads rfl (by decide))
      (h.cmdPwd_returns args (Nat.lt_of_le_of_lt (hbound cur h.isDir) hdepth))
  | ls =>
    exact answers_of_reads (hreads rfl (by decide))
      (h.cmdLsInternal_returns false args hbound hdepth)
  | lsr =>
    exact answers_of_reads (hreads rfl (by decide))
      (h.cmdLsInternal_returns true args hbound hdepth)
  | create => exact h.cmdMake_returns args fun name hargs ↦
      hrange.made .file name ⟨hargs, Or.inl ⟨rfl, rfl⟩⟩
  | stat => exact answers_of_reads (hreads rfl (by decide)) (h.cmdStat_returns args)
  | rm => exact h.cmdRm_returns hfit args
  | mkdir => exact h.cmdMake_returns args fun name hargs ↦
      hrange.made .dir name ⟨hargs, Or.inr ⟨rfl, rfl⟩⟩
  | read =>
    exact answers_of_reads (hreads rfl (by decide))
      (h.cmdRead_returns args fun name offsetStr sizeStr offset size ↦
        hrange.read name offsetStr sizeStr offset size rfl)
  | write => exact h.cmdWrite_returns args
  | fsstat =>
    refine answers_of_reads (hreads rfl (by decide)) ?_
    match args with
    | [] => exact ⟨_, s, rfl⟩
    | _ :: _ => exact ⟨_, s, rfl⟩

end Returns

section Runs

variable {maxFsBlocks : ℕ} {p : Session} {c : Command}

/-- Assumes: a run of commands on a fresh file system with a block for the root, in which
allocations may fail but no record spoils a directory, and a command that stays in range. It
returns in the session that the run leads to, if its recursions may go deep enough. -/
theorem commands_return (hpos : 0 < maxFsBlocks) (hmax : maxFsBlocks ≤ nrDataBlocks)
    (hrun : CommandRun (fun q label ↦ ¬ q.SpoilsDir label.2) maxFsBlocks p)
    (hrange : InRange p.fs p.curDir c) :
    ∃ bound, ∀ depth ≥ bound, ∃ q, p.step (depth, c) = some q := by
  obtain ⟨T, dirs, htree, hfit⟩ := hrun.inTree hpos hmax
  obtain ⟨bound, hbound⟩ := htree.handleCommand_returns hfit hrange
  refine ⟨bound, fun depth hdepth ↦ ?_⟩
  obtain ⟨out, t, hcommand, -⟩ := hbound depth hdepth
  exact ⟨⟨t, out.curDir⟩, Session.step_eq_some_iff.mpr ⟨out, hcommand, rfl⟩⟩

/-- `create` of the wide name returns in a new file system of 128 blocks, although it spoils the
root. -/
theorem commands_return_wide : ∃ p₀, Started 128 p₀ ∧
    ∃ bound, ∀ depth ≥ bound, ∃ q, p₀.step (depth, ⟨.create, [wideName]⟩) = some q := by
  obtain ⟨s, hfresh, hspec⟩ := freshFs_spec (by decide : 128 ≤ nrDataBlocks)
  have hstart : Started 128 ⟨s, 0⟩ := ⟨hfresh, rfl⟩
  refine ⟨⟨s, 0⟩, hstart, commands_return (by decide) (by decide)
    ⟨_, hstart, Relation.ReflTransGen.refl⟩ ⟨fun type name hmakes ↦ ?_, ?_⟩⟩
  · obtain rfl : wideName = name := by simpa using hmakes.1
    obtain ⟨htree, -⟩ := hspec.create_wide
    have hsize := (htree.represents.records 0 htree.isDir).size
    rw [length_emptyDir] at hsize
    rw [length_wideName, hsize]
    decide
  · intro name offsetStr sizeStr offset size hread
    exact absurd hread (by decide)

end Runs

end OperatingSystems.Fs
