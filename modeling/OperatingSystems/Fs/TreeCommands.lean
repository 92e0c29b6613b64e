import OperatingSystems.Fs.Making
import OperatingSystems.Fs.Removing

/-!
# Every command keeps the tree

Writing to a file changes no directory, and the recursions of `testfs_pwd` and `testfs_ls` end in a
tree and change nothing: the first goes up and the second goes down. So the commands that return
lead from one tree to another, unless a creation has spoiled the directory
(`InTree.handleCommand_cases`).
-/

set_option autoImplicit false
set_option relaxedAutoImplicit false

namespace OperatingSystems.Fs

open Library Library.Machine

/-! ### Files -/

section Files

variable {T : NameTree ℕ CString} {dirs : ℕ → List Record} {s t u : FsState} {cur c : ℕ}

/-- `testfs_get_file_inode` fetches the inode of a file. -/
theorem InTree.fileInode_run (h : InTree T dirs s cur) {name : CString}
    (hlook : lookup (dirs cur) name = some (c : ℤ)) (hfile : ¬ T.isDir c) : T.present c ∧
      (testfsGetFileInode cur name).run s = .ok ((0, c), s.fetch c) := by
  rcases h.find_run name with ⟨c', hlook', hc, hrun⟩ | ⟨hnone, -⟩
  swap
  · rw [hlook] at hnone
    exact absurd hnone (by simp)
  rw [hlook, Option.some.injEq, Nat.cast_inj] at hlook'
  subst hlook'
  obtain ⟨htype, hget⟩ := h.getType_run hc
  refine ⟨hc, ?_⟩
  rw [testfsGetFileInode, Program.run_bind hrun, if_neg (not_lt.mpr (Int.natCast_nonneg c)),
    Int.toNat_natCast,
    Program.run_bind (testfsGetInode_fetch h.calm.core.layout (h.represents.bound c hc)),
    Program.run_bind hget, if_neg (fun heq ↦ hfile (htype.mp heq)), Program.pure_run]

/-- `testfs_get_file_inode` fails or fetches an inode of the tree that is not a directory. -/
theorem InTree.getFileInode (h : InTree T dirs s cur) (name : CString) :
    (∃ ret < 0, (testfsGetFileInode cur name).run s = .ok ((ret, 0), s)) ∨
    ∃ c : ℕ, T.present c ∧ ¬ T.isDir c ∧
      (testfsGetFileInode cur name).run s = .ok ((0, c), s.fetch c) := by
  rcases h.find_run name with ⟨c, hlook, hc, hrun⟩ | ⟨-, hrun⟩
  swap
  · refine Or.inl ⟨-eNOENT, by decide, ?_⟩
    rw [testfsGetFileInode, Program.run_bind hrun, if_pos (by decide), Program.pure_run]
  by_cases hdir : T.isDir c
  · obtain ⟨htype, hget⟩ := h.getType_run hc
    refine Or.inl ⟨-eISDIR, by decide, ?_⟩
    rw [testfsGetFileInode, Program.run_bind hrun, if_neg (not_lt.mpr (Int.natCast_nonneg c)),
      Int.toNat_natCast,
      Program.run_bind (testfsGetInode_fetch h.calm.core.layout (h.represents.bound c hc)),
      Program.run_bind hget, if_pos (htype.mpr hdir), Program.run_bind
        (testfsPutInode_fetch h.calm c),
      Program.pure_run]
  · exact Or.inr ⟨c, hc, hdir, (h.fileInode_run hlook hdir).2⟩

/-- A file was written and given up. -/
theorem InTree.wrote (h : InTree T dirs s cur) (hc : T.present c) (hfile : ¬ T.isDir c)
    {n n' : Inode} (hn : (s.fetch c).inodeHashTable c = some n) (hw : Worked c (s.fetch c) u n n')
    (hr : Returned c n' u t) : InTree T dirs t cur := by
  have hne : ∀ {d}, T.isDir d → d ≠ c := fun hd heq ↦ hfile (heq ▸ hd)
  have hlt := h.represents.bound c hc
  have hfetched := h.fetch hlt
  have hothers : Others c (s.fetch c) t := hw.others.trans hr.others
  have htype : (t.dinode c).iType = (s.dinode c).iType := by
    rw [hr.iType hw.sound hw.inMemory, hw.iType, ← dinode_of_some hn, dinode_fetch]
  refine ⟨⟨hr.sound, ?_⟩, hfetched.represents.congr (by rw [hr.inodeFreemap, hw.inodeFreemap]) ?_
    (fun d hd ↦ hothers.dinode (h.represents.lt hd) (hne hd))
    (fun d hd ↦ hothers.content d (h.represents.lt hd) (hne hd)) ?_, ?_, h.isDir, ?_⟩
  · intro j m hm
    by_cases hjc : j = c
    · have hquiet := (hfetched.calm.quiet c n hn).2
      rw [hjc, hr.inMemory, hw.iCount] at hm
      split_ifs at hm with hlast
      obtain rfl := Option.some.inj hm
      exact ⟨rfl, by simp only; omega⟩
    · rw [hothers.table j hjc] at hm
      exact hfetched.calm.quiet j m hm
  · intro i hi
    by_cases hic : i = c
    · rw [hic, htype, dinode_fetch]
    · rw [hothers.dinode (h.represents.bound i hi) hic]
  · intro i hi hnot
    have hic : i ≠ c := fun heq ↦ hnot (heq ▸ hc)
    rw [hothers.dinode hi hic, hfetched.represents.free i hi hnot]
  · intro d hd m hm
    rw [hothers.table d (hne hd)] at hm
    rw [hothers.disk d (h.represents.lt hd) (hne hd)]
    exact hfetched.synced d hd m hm
  · rw [hothers.table cur (hne h.isDir)]
    exact hfetched.inMemory

/-- `cmd_write` after `testfs_write_data` has done its work. -/
theorem Written.cmdWrite_run {filename offset : CString} {start : ℕ} {buf : CString} {n n' : Inode}
    {failure : Option ℤ} {k : ℕ} {ret : ℤ} {u : FsState}
    (hw : Written c start buf.bytes n (s.fetch c) failure k u n')
    (hwrite : (testfsWriteData c buf.bytes start).run (s.fetch c) = .ok (ret, u))
    (hoffset : strToOffset offset = .ok (start : ℤ))
    (hrun : (testfsGetFileInode cur filename).run s = .ok ((0, c), s.fetch c)) :
    ∃ t, Returned c n' u t ∧
      (cmdWrite cur [filename, offset, buf]).run s = .ok (.silent cur ret, t) := by
  obtain ⟨v, t, hsync, hput, hr⟩ := hw.sound.giveUp hw.inMemory
  refine ⟨t, hr, ?_⟩
  rw [OperatingSystems.Fs.cmdWrite, hoffset]
  simp only
  rw [if_neg (not_lt.mpr (Int.natCast_nonneg start)), Program.run_bind hrun]
  simp only
  rw [if_neg (lt_irrefl 0)]
  refine (Program.run_bind hwrite).trans ?_
  rw [Program.run_bind hsync, Program.run_bind hput, Program.pure_run]

/-- `cmd_write` to a file of the tree. -/
theorem InTree.writeFile (h : InTree T dirs s cur) (hc : T.present c) (hfile : ¬ T.isDir c)
    {filename offset : CString} {start : ℕ} (buf : CString)
    (hoffset : strToOffset offset = .ok (start : ℤ))
    (hrun : (testfsGetFileInode cur filename).run s = .ok ((0, c), s.fetch c)) :
    ∃ n failure k u n' t, (s.fetch c).inodeHashTable c = some n ∧
      Written c start buf.bytes n (s.fetch c) failure k u n' ∧ Returned c n' u t ∧
      (cmdWrite cur [filename, offset, buf]).run s =
        .ok (.silent cur (failure.getD (toInt32 k)), t) ∧
      InTree T dirs t cur := by
  obtain ⟨n, hn⟩ := inodeHashTable_fetch s c
  have hfetched := h.fetch (h.represents.bound c hc)
  obtain ⟨failure, k, u, n', hwrite, hw⟩ := hfetched.calm.toSound.write hn buf.bytes start
  obtain ⟨t, hr, hcmd⟩ := hw.cmdWrite_run hwrite hoffset hrun
  exact ⟨n, failure, k, u, n', t, hn, hw, hr, hcmd, h.wrote hc hfile hn hw.worked hr⟩

/-- `cmd_write`. -/
theorem InTree.cmdWrite (h : InTree T dirs s cur) (args : List CString) :
    ∃ out t, (cmdWrite cur args).run s = .ok (out, t) ∧ InTree T dirs t out.curDir := by
  have hstay : ∀ ret, ∃ out t, (pure (.silent cur ret) : FsProgram Outcome).run s = .ok (out, t) ∧
      InTree T dirs t out.curDir := fun ret ↦ ⟨_, s, rfl, h⟩
  match args with
  | [] => exact hstay _
  | [_] => exact hstay _
  | [_, _] => exact hstay _
  | _ :: _ :: _ :: _ :: _ => exact hstay _
  | [filename, offset, buf] =>
    cases hparse : strToOffset offset with
    | error ret =>
      rw [OperatingSystems.Fs.cmdWrite, hparse]
      exact hstay _
    | ok value =>
      by_cases hneg : value < 0
      · rw [OperatingSystems.Fs.cmdWrite, hparse]
        simp only
        rw [if_pos hneg]
        exact hstay _
      obtain ⟨start, rfl⟩ := Int.eq_ofNat_of_zero_le (not_lt.mp hneg)
      rcases h.getFileInode filename with ⟨ret, hret, hrun⟩ | ⟨c, hc, hfile, hrun⟩
      · rw [OperatingSystems.Fs.cmdWrite, hparse]
        simp only
        rw [if_neg hneg, Program.run_bind hrun]
        simp only
        rw [if_pos hret]
        exact hstay _
      · obtain ⟨n, failure, k, u, n', t, -, -, -, hwrite, hdone⟩ :=
          h.writeFile hc hfile buf hparse hrun
        exact ⟨_, t, hwrite, hdone⟩

end Files

/-! ### Printing the current directory -/

/-- What `testfs_pwd` prints for the names from the root down. -/
def pwdPrint (names : List CString) : List PwdPrint :=
  .root :: names.mapIdx fun k name ↦ .component (if k = 0 then [] else [47]) name.bytes

theorem pwdPrint_append (names : List CString) (name : CString) :
    pwdPrint (names ++ [name]) =
      pwdPrint names ++ [.component (if names = [] then [] else [47]) name.bytes] := by
  simp [pwdPrint, List.mapIdx_append]

section Pwd

variable {T : NameTree ℕ CString} {dirs : ℕ → List Record} {s : FsState}

/-- The record has the number of the inode. -/
def Record.pointsTo (d : ℕ) (r : Record) : Bool := decide (r.nr = (d : ℤ))

/-- `testfs_find_dirent` finds the entry of a directory in its parent. -/
theorem Represents.findDirent_run (h : Represents s T dirs) (hs : Sound s) {d : ℕ} {inode : Inode}
    (hd : T.isDir d) (hroot : d ≠ T.root) (ht : s.inodeHashTable (T.parent d) = some inode) :
    ∃ r : Record, T.entry (T.parent d) r.name = some d ∧
      (testfsFindDirent (T.parent d) d).run s = .ok (some r.dirent, s) := by
  obtain ⟨p, hp⟩ : ∃ p, p = T.parent d := ⟨_, rfl⟩
  have hpdir : T.isDir p := hp ▸ T.isDir_parent hd
  have hdepth : T.depth d = T.depth p + 1 := hp ▸ T.depth_parent hd hroot
  rw [← hp] at ht ⊢
  have hfind : (findFirst p fun e ↦ .ok (decide (e.dInodeNr = (d : ℤ)))).run s =
      .ok (((encodeDir ((dirs p).takeWhile fun r ↦ !r.pointsTo d)).length,
        ((dirs p).find? (Record.pointsTo d)).map Record.dirent), s) :=
    findFirst_run hs ht (h.records p hpdir) fun r _ ↦ rfl
  have hrun : (testfsFindDirent p d).run s =
      .ok (((dirs p).find? (Record.pointsTo d)).map Record.dirent, s) := by
    rw [testfsFindDirent, Program.check_bind_run (Int.natCast_nonneg d), Program.run_bind hfind,
      Program.pure_run]
  obtain ⟨name, hname⟩ := T.parent_entry hd hroot
  rw [← hp] at hname
  have hdots := h.dots p hpdir
  have hdot : name ≠ dot := by
    rintro rfl
    rw [hdots.1] at hname
    exact absurd hname (by simp)
  have hdotdot : name ≠ dotdot := by
    rintro rfl
    rw [hdots.2] at hname
    exact absurd hname (by simp)
  have hlook : lookup (dirs p) name = some (d : ℤ) := by
    rw [h.entry p hpdir name hdot hdotdot, hname, Option.map_some]
  obtain ⟨r₀, hr₀, -, hnr₀⟩ := exists_of_lookup hlook
  cases hfound : (dirs p).find? (Record.pointsTo d) with
  | none =>
    have hnone := List.find?_eq_none.mp hfound r₀ (List.mem_filter.mp hr₀).1
    simp [Record.pointsTo, hnr₀] at hnone
  | some r =>
    have hnr : r.nr = d := by simpa [Record.pointsTo] using List.find?_some hfound
    have hlive : r ∈ liveRecords (dirs p) := by
      refine List.mem_filter.mpr ⟨List.mem_of_find?_eq_some hfound, ?_⟩
      rw [Record.live, hnr]
      exact decide_eq_true (Int.natCast_nonneg d)
    have hrlook := lookup_of_mem (h.distinct p hpdir) hlive
    rw [hnr] at hrlook
    have hrdot : r.name ≠ dot := by
      intro heq
      rw [heq, h.self p hpdir, Option.some.injEq, Nat.cast_inj] at hrlook
      rw [hrlook] at hdepth
      omega
    have hrdotdot : r.name ≠ dotdot := by
      intro heq
      rw [heq, h.parent p hpdir, Option.some.injEq, Nat.cast_inj] at hrlook
      by_cases hproot : p = T.root
      · rw [hproot, T.parent_root] at hrlook
        exact hroot hrlook.symm
      · have hpdepth := T.depth_parent hpdir hproot
        rw [hrlook] at hpdepth
        omega
    rw [h.entry p hpdir r.name hrdot hrdotdot, Option.map_eq_some_iff] at hrlook
    obtain ⟨c, hentry, hcast⟩ := hrlook
    refine ⟨r, ?_, ?_⟩
    · rw [hentry, Nat.cast_inj.mp hcast]
    · rw [hrun, hfound, Option.map_some]

/-- `testfs_pwd` goes up to the root and prints the names on the way down. -/
theorem testfsPwd_run (depth : ℕ) : ∀ {s : FsState} {d : ℕ} {inode : Inode}, Calm s →
    Represents s T dirs → T.isDir d → T.depth d < depth → s.inodeHashTable d = some inode →
    ∃ names, T.IsPath d names ∧
      (testfsPwd depth d).run s = .ok ((if names = [] then 1 else 0, pwdPrint names), s) := by
  induction depth with
  | zero => exact fun _ _ _ hlt ↦ absurd hlt (Nat.not_lt_zero _)
  | succ depth ih =>
    intro s d inode hcalm h hd hlt ht
    have hup := testfsDirNameToInodeNr_run hcalm.toSound ht (h.records d hd) dotdot
    rw [h.parent d hd, Option.getD_some] at hup
    rw [testfsPwd]
    rw [Program.run_bind hup, Program.check_bind_run (Int.natCast_nonneg _)]
    by_cases hself : T.parent d = d
    · refine ⟨[], ?_, ?_⟩
      · rw [T.eq_root_of_parent_eq hd hself]
        exact .root
      · rw [if_pos (by rw [hself]), Program.pure_run, if_pos rfl]
        rfl
    have hroot : d ≠ T.root := by
      rintro rfl
      exact hself T.parent_root
    have hpdir := T.isDir_parent hd
    have hplt := h.lt hpdir
    obtain ⟨n, hn⟩ := inodeHashTable_fetch s (T.parent d)
    obtain ⟨r, hentry, hfind⟩ := (h.fetch (T.parent d)).findDirent_run
      (hcalm.fetch hplt).toSound hd hroot hn
    have hdepth := T.depth_parent hd hroot
    obtain ⟨names, hpath, hrec⟩ := ih (hcalm.fetch hplt) (h.fetch (T.parent d)) hpdir (by omega) hn
    refine ⟨names ++ [r.name], .step hd hroot hentry hpath, ?_⟩
    rw [if_neg (by exact_mod_cast hself), Int.toNat_natCast,
      Program.run_bind (testfsGetInode_fetch hcalm.core.layout hplt), Program.run_bind hfind]
    simp only
    rw [Program.run_bind hrec]
    simp only
    rw [Program.run_bind (testfsPutInode_fetch hcalm _), r.cName_dirent,
      Program.run_bind (Program.ofExcept_ok_run _ _), Program.pure_run, pwdPrint_append]
    by_cases hempty : names = []
    · simp [hempty]
    · simp [hempty]

end Pwd

/-! ### Listing directories -/

section Ls

variable {T : NameTree ℕ CString} {dirs : ℕ → List Record} {s : FsState} {d : ℕ}

/-- The body of the loop for a record in use leaves the state as it is. -/
theorem lsEntry_run {recur : ℕ → FsProgram (List LsLine)} (recursive : Bool) (hcalm : Calm s)
    (h : Represents s T dirs) (hd : T.isDir d)
    (hrecur : ∀ c, T.isDir c → T.depth c = T.depth d + 1 →
      ∃ lines, (recur c).run (s.fetch c) = .ok (lines, s.fetch c))
    {r : Record} (hr : r ∈ liveRecords (dirs d)) :
    ∃ lines, (lsEntry recur recursive r.dirent).run s = .ok (lines, s) := by
  have hlook := lookup_of_mem (h.distinct d hd) hr
  obtain ⟨c, hnr, hc⟩ := h.present_of_lookup hd hlook
  have hclt := h.bound c hc
  have hdirentNr : r.dirent.dInodeNr.toNat = c := by
    change r.nr.toNat = c
    rw [hnr, Int.toNat_natCast]
  obtain ⟨n, hn⟩ := inodeHashTable_fetch s c
  have htype := testfsInodeGetType_run hn
  rw [lsEntry, hdirentNr, Program.run_bind (testfsGetInode_fetch hcalm.core.layout hclt),
    Program.run_bind htype, r.cName_dirent, Program.run_bind (Program.ofExcept_ok_run _ _),
      dinode_fetch]
  have hinner : ∃ lines, (lsInner recur recursive r.name.bytes c
      (decide ((s.dinode c).iType = InodeType.dir.code))).run (s.fetch c) = .ok
        (lines, s.fetch c) := by
    rw [lsInner]
    split_ifs with hcond
    · obtain ⟨-, hisDir, hdot, hdotdot⟩ := hcond
      have hcdir : T.isDir c := (h.isDir c).mpr ⟨hc, by simpa using hisDir⟩
      have hentry := h.entry d hd r.name (fun heq ↦ hdot (by rw [heq])) fun heq ↦
        hdotdot (by rw [heq])
      rw [hlook, hnr, eq_comm, Option.map_eq_some_iff] at hentry
      obtain ⟨c', hentry, hcast⟩ := hentry
      rw [Nat.cast_inj.mp hcast] at hentry
      exact hrecur c hcdir (T.depth_entry hd hcdir hentry)
    · exact ⟨[], rfl⟩
  obtain ⟨lines, hlines⟩ := hinner
  rw [Program.run_bind hlines, Program.run_bind (testfsPutInode_fetch hcalm c), Program.pure_run]
  exact ⟨_, rfl⟩

/-- The loop over the records of a directory ends and leaves the state as it is. -/
theorem lsLoop_run {recur : ℕ → FsProgram (List LsLine)} {recursive : Bool} {inode : Inode}
    (hcalm : Calm s) (h : Represents s T dirs) (hd : T.isDir d)
    (ht : s.inodeHashTable d = some inode)
    (hrecur : ∀ c, T.isDir c → T.depth c = T.depth d + 1 →
      ∃ lines, (recur c).run (s.fetch c) = .ok (lines, s.fetch c))
    (turns : ℕ) : ∀ (pre post : List Record), dirs d = pre ++ post → post.length < turns →
      ∃ lines, (lsLoop recur recursive d turns (encodeDir pre).length).run s = .ok (lines, s) := by
  induction turns with
  | zero => exact fun _ _ _ hturns ↦ absurd hturns (Nat.not_lt_zero _)
  | succ turns ih =>
    intro pre post hsplit hturns
    have hrecords := h.records d hd
    rw [hsplit] at hrecords
    rw [lsLoop, Program.run_bind (testfsNextDirent_run hcalm.toSound ht hrecords)]
    cases post with
    | nil => exact ⟨[], rfl⟩
    | cons r post =>
      simp only [List.head?_cons, Option.map_some]
      have hlast : dirs d = pre ++ [r] ++ post := by rw [hsplit]; simp
      obtain ⟨rest, hrest⟩ := ih (pre ++ [r]) post hlast (by simpa using hturns)
      have hnr : r.dirent.dInodeNr = r.nr := rfl
      by_cases hdead : r.dirent.dInodeNr < 0
      · rw [if_pos hdead]
        exact ⟨rest, hrest⟩
      · have hmem : r ∈ liveRecords (dirs d) := by
          refine List.mem_filter.mpr ⟨by rw [hsplit]; simp, ?_⟩
          rw [Record.live]
          rw [hnr] at hdead
          exact decide_eq_true (not_lt.mp hdead)
        obtain ⟨lines, hlines⟩ := lsEntry_run recursive hcalm h hd hrecur hmem
        rw [if_neg hdead, Program.run_bind hlines, Program.run_bind hrest, Program.pure_run]
        exact ⟨_, rfl⟩

/-- `testfs_ls` goes down in the tree, and its recursion ends. -/
theorem testfsLs_run {bound : ℕ} (hbound : ∀ d, T.isDir d → T.depth d ≤ bound) (recursive : Bool)
    (depth : ℕ) : ∀ {s : FsState} {d : ℕ} {inode : Inode}, Calm s → Represents s T dirs →
    T.isDir d →
    bound < T.depth d + depth → s.inodeHashTable d = some inode →
    ∃ lines, (testfsLs depth recursive d).run s = .ok (lines, s) := by
  induction depth with
  | zero => exact fun _ _ hd hlt ↦ absurd hlt (not_lt.mpr (hbound _ hd))
  | succ depth ih =>
    intro s d inode hcalm h hd hlt ht
    have hlength := length_le_encodeDir (dirs d)
    rw [testfsLs, Program.run_bind (testfsInodeGetSize_run ht), (h.records d hd).size,
      Int.toNat_natCast]
    refine lsLoop_run hcalm h hd ht (fun c hc hdepth ↦ ?_) _ [] (dirs d) rfl
      (Nat.lt_succ_of_le hlength)
    obtain ⟨n, hn⟩ := inodeHashTable_fetch s c
    exact ih (hcalm.fetch (h.lt hc)) (h.fetch c) hc (by omega) hn

/-- The directories of a file system have bounded depth: there are finitely many inodes. -/
theorem Represents.exists_bound (h : Represents s T dirs) : ∃ bound, ∀ d, T.isDir d →
    T.depth d ≤ bound :=
  ⟨(Finset.range nrInodes).sup T.depth, fun _ hd ↦ Finset.le_sup (Finset.mem_range.mpr (h.lt hd))⟩

end Ls

/-! ### The depth of the recursions -/

/-- `testfs_pwd` to a greater depth. -/
theorem testfsPwd_extends (depth : ℕ) :
    ∀ i, Program.Extends (testfsPwd depth i) (testfsPwd (depth + 1) i) := by
  induction depth with
  | zero =>
    intro i s r hrun
    rw [testfsPwd, Program.halt_run] at hrun
    exact absurd hrun (by simp)
  | succ depth ih =>
    intro i
    rw [testfsPwd, testfsPwd]
    refine .bind (.refl _) fun p ↦ .bind (.refl _) fun _ ↦ .ite (.refl _) ?_
    refine .bind (.refl _) fun _ ↦ .bind (.refl _) fun d ↦ ?_
    cases d with
    | none => exact .refl _
    | some d => exact .bind (ih _) fun _ ↦ .refl _

/-- The loop of `testfs_ls` with a recursive call that returns more often. -/
theorem lsLoop_extends {recur recur' : ℕ → FsProgram (List LsLine)} {recursive : Bool} {dir : ℕ}
    (h : ∀ c, Program.Extends (recur c) (recur' c)) (turns : ℕ) : ∀ offset,
    Program.Extends (lsLoop recur recursive dir turns offset)
      (lsLoop recur' recursive dir turns offset) := by
  induction turns with
  | zero => exact fun _ ↦ .refl _
  | succ turns ih =>
    intro offset
    rw [lsLoop, lsLoop]
    refine .bind (.refl _) fun next ↦ ?_
    cases next with
    | none => exact .refl _
    | some next =>
      refine .ite (ih _) (.bind ?_ fun _ ↦ .bind (ih _) fun _ ↦ .refl _)
      refine .bind (.refl _) fun _ ↦ .bind (.refl _) fun _ ↦ .bind (.refl _) fun name ↦ ?_
      exact .bind (.ite (h _) (.refl _)) fun _ ↦ .refl _

/-- `testfs_ls` to a greater depth. -/
theorem testfsLs_extends (recursive : Bool) (depth : ℕ) :
    ∀ dir, Program.Extends (testfsLs depth recursive dir) (testfsLs (depth + 1) recursive dir) := by
  induction depth with
  | zero =>
    intro dir s r hrun
    rw [testfsLs, Program.halt_run] at hrun
    exact absurd hrun (by simp)
  | succ depth ih =>
    intro dir
    rw [testfsLs, testfsLs]
    exact .bind (.refl _) fun _ ↦ lsLoop_extends ih _ _

/-- A recursion that returns at one depth returns the same at every greater depth. -/
theorem extends_of_le {α : Type} {f : ℕ → FsProgram α} (h : ∀ k, Program.Extends (f k) (f (k + 1)))
    {k n : ℕ} (hle : k ≤ n) : Program.Extends (f k) (f n) := by
  induction n, hle using Nat.le_induction with
  | base => exact .refl _
  | succ n _ ih => exact ih.trans (h n)

/-! ### Every command -/

section Commands

variable {T : NameTree ℕ CString} {dirs : ℕ → List Record} {s t : FsState} {cur depth : ℕ}
  {args : List CString} {out : Outcome}

/-- Whenever `testfs_pwd` returns, nothing has changed. -/
theorem InTree.pwd_run (h : InTree T dirs s cur) {result : ℤ × List PwdPrint}
    (hrun : (testfsPwd depth cur).run s = .ok (result, t)) : t = s := by
  obtain ⟨inode, ht⟩ := h.inMemory
  obtain ⟨names, -, hend⟩ := testfsPwd_run (max depth (T.depth cur + 1)) h.calm h.represents h.isDir
    (lt_of_lt_of_le (Nat.lt_succ_self _) (le_max_right _ _)) ht
  have hsame := extends_of_le (fun k ↦ testfsPwd_extends k cur)
    (le_max_left depth (T.depth cur + 1)) hrun
  exact (Prod.mk.inj (Except.ok.inj (hsame.symm.trans hend))).2

/-- Whenever `testfs_ls` returns, nothing has changed. -/
theorem InTree.ls_run (h : InTree T dirs s cur) {c : ℕ} {inode : Inode} {recursive : Bool}
    {lines : List LsLine} (hc : T.isDir c) (ht : s.inodeHashTable c = some inode)
    (hrun : (testfsLs depth recursive c).run s = .ok (lines, t)) : t = s := by
  obtain ⟨bound, hbound⟩ := h.represents.exists_bound
  obtain ⟨lines', hend⟩ := testfsLs_run hbound recursive (max depth (bound + 1)) h.calm h.represents
    hc (by omega) ht
  have hsame := extends_of_le (fun k ↦ testfsLs_extends recursive k c)
    (le_max_left depth (bound + 1)) hrun
  exact (Prod.mk.inj (Except.ok.inj (hsame.symm.trans hend))).2

/-- The part of `cmd_read` that reads changes nothing. -/
theorem preserves_readFile {I : FsState → Prop} (i : ℕ) (offset : ℤ) (size : ℕ) :
    Program.Preserves I (readFile i offset size) := by
  refine .bind ((preserves_inodeRef i).bind fun _ ↦ Program.preserves_pure _) fun fileSize ↦ ?_
  refine .ite (fun _ ↦ Program.preserves_pure _) fun _ ↦ ?_
  refine .ite (fun _ ↦ Program.preserves_pure _) fun _ ↦ ?_
  refine (preserves_testfsReadData i offset size).bind fun result ↦ ?_
  refine (Program.preserves_check _ _).bind fun _ ↦ ?_
  refine .ite (fun _ ↦ ?_) fun _ ↦ Program.preserves_pure _
  exact (Program.preserves_check _ _).bind fun _ ↦ Program.preserves_pure _

/-- `cmd_pwd`. -/
theorem InTree.cmdPwd (h : InTree T dirs s cur)
    (hrun : (cmdPwd depth cur args).run s = .ok (out, t)) : InTree T dirs t out.curDir := by
  match args with
  | _ :: _ =>
    obtain ⟨rfl, rfl⟩ := Prod.mk.inj (Except.ok.inj hrun)
    exact h
  | [] =>
    obtain ⟨result, u, hpwd, hdone⟩ := Program.bind_eq_ok_iff.mp hrun
    obtain ⟨rfl, rfl⟩ := Prod.mk.inj (Except.ok.inj hdone)
    rw [h.pwd_run hpwd]
    exact h

/-- `cmd_ls` and `cmd_lsr`. A file that is listed stays in memory. -/
theorem InTree.cmdLsInternal (h : InTree T dirs s cur) {recursive : Bool}
    (hrun : (cmdLsInternal depth cur args recursive).run s = .ok (out, t)) :
    InTree T dirs t out.curDir := by
  match args with
  | [] =>
    obtain ⟨rfl, rfl⟩ := Prod.mk.inj (Except.ok.inj hrun)
    exact h
  | _ :: _ :: _ =>
    obtain ⟨rfl, rfl⟩ := Prod.mk.inj (Except.ok.inj hrun)
    exact h
  | [name] =>
    rw [OperatingSystems.Fs.cmdLsInternal] at hrun
    rcases h.find_run name with ⟨c, -, hc, hfind⟩ | ⟨-, hfind⟩
    swap
    · rw [Program.run_bind hfind, if_pos (by decide), Program.pure_run] at hrun
      obtain ⟨rfl, rfl⟩ := Prod.mk.inj (Except.ok.inj hrun)
      exact h
    have hlt := h.represents.bound c hc
    obtain ⟨htype, hget⟩ := h.getType_run hc
    rw [Program.run_bind hfind, if_neg (not_lt.mpr (Int.natCast_nonneg c)), Int.toNat_natCast,
      Program.run_bind (testfsGetInode_fetch h.calm.core.layout hlt), Program.run_bind hget] at hrun
    by_cases hdir : T.isDir c
    · rw [if_pos (htype.mpr hdir)] at hrun
      obtain ⟨lines, u, hls, hput⟩ := Program.bind_eq_ok_iff.mp hrun
      obtain ⟨n, hn⟩ := inodeHashTable_fetch s c
      obtain rfl := (h.fetch hlt).ls_run hdir hn hls
      rw [Program.run_bind (testfsPutInode_fetch h.calm c), Program.pure_run] at hput
      obtain ⟨rfl, rfl⟩ := Prod.mk.inj (Except.ok.inj hput)
      exact h
    · rw [if_neg fun heq ↦ hdir (htype.mp heq), Program.pure_run] at hrun
      obtain ⟨rfl, rfl⟩ := Prod.mk.inj (Except.ok.inj hrun)
      exact h.fetch hlt

/-- `cmd_stat`. -/
theorem InTree.cmdStat (h : InTree T dirs s cur)
    (hrun : (cmdStat cur args).run s = .ok (out, t)) : InTree T dirs t out.curDir := by
  match args with
  | [] =>
    obtain ⟨rfl, rfl⟩ := Prod.mk.inj (Except.ok.inj hrun)
    exact h
  | _ :: _ :: _ =>
    obtain ⟨rfl, rfl⟩ := Prod.mk.inj (Except.ok.inj hrun)
    exact h
  | [name] =>
    rw [OperatingSystems.Fs.cmdStat] at hrun
    rcases h.find_run name with ⟨c, -, hc, hfind⟩ | ⟨-, hfind⟩
    · obtain ⟨n, hn⟩ := inodeHashTable_fetch s c
      rw [Program.run_bind hfind, if_neg (not_lt.mpr (Int.natCast_nonneg c)), Int.toNat_natCast,
        Program.run_bind (testfsGetInode_fetch h.calm.core.layout (h.represents.bound c hc)),
        Program.run_bind (inodeRef_run hn), Program.run_bind (testfsPutInode_fetch h.calm c),
        Program.pure_run] at hrun
      obtain ⟨rfl, rfl⟩ := Prod.mk.inj (Except.ok.inj hrun)
      exact h
    · rw [Program.run_bind hfind, if_pos (by decide), Program.pure_run] at hrun
      obtain ⟨rfl, rfl⟩ := Prod.mk.inj (Except.ok.inj hrun)
      exact h

/-- `cmd_read`. -/
theorem InTree.cmdRead (h : InTree T dirs s cur)
    (hrun : (cmdRead cur args).run s = .ok (out, t)) : InTree T dirs t out.curDir := by
  match args with
  | [] => exact h.silent hrun
  | [_] => exact h.silent hrun
  | [_, _] => exact h.silent hrun
  | _ :: _ :: _ :: _ :: _ => exact h.silent hrun
  | [filename, offset, size] =>
    rw [OperatingSystems.Fs.cmdRead] at hrun
    cases hoffset : strToOffset offset with
    | error ret =>
      rw [hoffset] at hrun
      exact h.silent hrun
    | ok offset =>
      rw [hoffset] at hrun
      simp only at hrun
      by_cases hneg : offset < 0
      · rw [if_pos hneg] at hrun
        exact h.silent hrun
      rw [if_neg hneg] at hrun
      cases hsize : strToSize size with
      | error ret =>
        rw [hsize] at hrun
        exact h.silent hrun
      | ok size =>
        rw [hsize] at hrun
        simp only at hrun
        rcases h.getFileInode filename with ⟨ret, hret, hfile⟩ | ⟨c, hc, -, hfile⟩
        · rw [Program.run_bind hfile] at hrun
          simp only at hrun
          rw [if_pos hret] at hrun
          exact h.silent hrun
        · rw [Program.run_bind hfile] at hrun
          simp only at hrun
          rw [if_neg (lt_irrefl 0)] at hrun
          obtain ⟨result, u, hread, hput⟩ := Program.bind_eq_ok_iff.mp hrun
          obtain rfl : u = s.fetch c :=
            preserves_readFile (I := (· = s.fetch c)) c offset size rfl hread
          rw [Program.run_bind (testfsPutInode_fetch h.calm c), Program.pure_run] at hput
          obtain ⟨rfl, rfl⟩ := Prod.mk.inj (Except.ok.inj hput)
          exact h

/-- `cmd_fsstat`. -/
theorem InTree.cmdFsstat (h : InTree T dirs s cur)
    (hrun : (cmdFsstat cur args).run s = .ok (out, t)) : InTree T dirs t out.curDir := by
  match args with
  | [] =>
    obtain ⟨rfl, rfl⟩ := Prod.mk.inj (Except.ok.inj hrun)
    exact h
  | _ :: _ =>
    obtain ⟨rfl, rfl⟩ := Prod.mk.inj (Except.ok.inj hrun)
    exact h

/-- The command makes a file or a directory of this name. -/
def Command.Makes (c : Command) (type : InodeType) (name : CString) : Prop :=
  c.args = [name] ∧ (c.name = .create ∧ type = .file ∨ c.name = .mkdir ∧ type = .dir)

/-- Every command that returns leaves a tree, or has spoiled the directory in which it was to make
a file or directory. -/
theorem InTree.handleCommand_cases (h : InTree T dirs s cur) (hfit : RecordsFit T dirs)
    {c : Command} (hrun : (handleCommand depth cur c).run s = .ok (out, t)) :
    (∃ T' dirs', InTree T' dirs' t out.curDir ∧ RecordsFit T' dirs') ∨
    ∃ type name, c.Makes type name ∧ Spoiled s t cur (dirs cur) name type := by
  obtain ⟨command, args⟩ := c
  have hmade : ∀ {type : InodeType}, (OperatingSystems.Fs.cmdMake type cur args).run s = .ok
      (out, t) →
      (command = .create ∧ type = .file ∨ command = .mkdir ∧ type = .dir) →
      (∃ T' dirs', InTree T' dirs' t out.curDir ∧ RecordsFit T' dirs') ∨
      ∃ type name, Command.Makes ⟨command, args⟩ type name ∧
        Spoiled s t cur (dirs cur) name type := by
    intro type hmake hcommand
    obtain ⟨hcur, ⟨-, hdone⟩ | ⟨-, htree, -⟩ | ⟨-, name, hargs, hspoiled⟩⟩ := h.cmdMake hfit hmake
    · exact Or.inl (hcur ▸ hdone)
    · exact Or.inl ⟨T, dirs, hcur ▸ htree, hfit⟩
    · exact Or.inr ⟨type, name, ⟨hargs, hcommand⟩, hspoiled⟩
  cases command with
  | cd =>
    obtain ⟨out', t', hcd, hdone⟩ := h.cmdCd args
    obtain ⟨rfl, rfl⟩ := Prod.mk.inj (Except.ok.inj (hcd.symm.trans hrun))
    exact Or.inl ⟨T, dirs, hdone, hfit⟩
  | pwd => exact Or.inl ⟨T, dirs, h.cmdPwd hrun, hfit⟩
  | ls => exact Or.inl ⟨T, dirs, h.cmdLsInternal hrun, hfit⟩
  | lsr => exact Or.inl ⟨T, dirs, h.cmdLsInternal hrun, hfit⟩
  | create => exact hmade hrun (Or.inl ⟨rfl, rfl⟩)
  | stat => exact Or.inl ⟨T, dirs, h.cmdStat hrun, hfit⟩
  | rm =>
    obtain ⟨out', t', hrm, hdone⟩ := h.cmdRm hfit args
    obtain ⟨rfl, rfl⟩ := Prod.mk.inj (Except.ok.inj (hrm.symm.trans hrun))
    exact Or.inl hdone
  | mkdir => exact hmade hrun (Or.inr ⟨rfl, rfl⟩)
  | read => exact Or.inl ⟨T, dirs, h.cmdRead hrun, hfit⟩
  | write =>
    obtain ⟨out', t', hwrite, hdone⟩ := h.cmdWrite args
    obtain ⟨rfl, rfl⟩ := Prod.mk.inj (Except.ok.inj (hwrite.symm.trans hrun))
    exact Or.inl ⟨T, dirs, hdone, hfit⟩
  | fsstat => exact Or.inl ⟨T, dirs, h.cmdFsstat hrun, hfit⟩

/-- Every command that returns leaves a tree, if no allocation has failed and no directory has
reached `2^31` bytes. -/
theorem InTree.handleCommand (h : InTree T dirs s cur) (hsmall : DirsSmall s)
    (hsmall' : DirsSmall t) {c : Command}
    (hrun : (handleCommand depth cur c).run s = .ok (out, t)) (hflag : t.allocFailed = false) :
    ∃ T' dirs', InTree T' dirs' t out.curDir := by
  rcases h.handleCommand_cases (h.recordsFit hsmall) hrun with
    ⟨T', dirs', hdone, -⟩ | ⟨type, name, -, hspoiled⟩
  · exact ⟨T', dirs', hdone⟩
  · rcases hspoiled.shows with htrue | hlong
    · rw [htrue] at hflag
      exact absurd hflag (by decide)
    · exact absurd hsmall' hlong.not_dirsSmall

end Commands

end OperatingSystems.Fs
