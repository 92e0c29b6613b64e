import OperatingSystems.Fs.Creation

/-!
# Commands that only read

`cd`, `pwd`, `ls`, `lsr`, `stat`, `read` and `fsstat` reach the disk through `testfs_get_inode` and
`testfs_read_data` only. Whatever state the file system is in, and whatever their arguments are,
they leave the device, the super block and both freemaps as they are; all that changes is which
inodes are in memory (`reading_commands_write_nothing`).

The induction over the two recursions carries any property that does not depend on the in-memory
inodes (`IgnoresTable`).
-/

set_option autoImplicit false
set_option relaxedAutoImplicit false

namespace OperatingSystems.Fs

open Library

/-- The file systems differ in the inodes in memory only. -/
structure SameDisk (s t : FsState) : Prop where
  dev : t.dev = s.dev
  sb : t.sb = s.sb
  inodeFreemap : t.inodeFreemap = s.inodeFreemap
  blockFreemap : t.blockFreemap = s.blockFreemap
  allocFailed : t.allocFailed = s.allocFailed

theorem SameDisk.refl (s : FsState) : SameDisk s s := ⟨rfl, rfl, rfl, rfl, rfl⟩

/-- The property does not depend on the inodes in memory. -/
def IgnoresTable (I : FsState → Prop) : Prop :=
  ∀ (s : FsState) (i : ℕ) (inode : Option Inode), I s → I (s.setInode i inode)

theorem ignoresTable_sameDisk (s : FsState) : IgnoresTable (SameDisk s) :=
  fun _ _ _ h ↦ ⟨h.dev, h.sb, h.inodeFreemap, h.blockFreemap, h.allocFailed⟩

/-- A command that makes, removes and writes nothing. -/
def Command.Reads (c : Command) : Prop :=
  c.name ≠ .create ∧ c.name ≠ .mkdir ∧ c.name ≠ .rm ∧ c.name ≠ .write

section Readers

variable {I : FsState → Prop}

theorem IgnoresTable.getInode (hI : IgnoresTable I) (i : ℕ) :
    Program.Preserves I (testfsGetInode i) := by
  refine (Program.preserves_gets _).bind fun table ↦ ?_
  cases table i with
  | some inode => exact Program.preserves_modify fun s hs ↦ hI s i _ hs
  | none =>
    have hread : Program.Preserves I (testfsReadInodeBlock i) := by
      refine (Program.preserves_gets _).bind fun sb ↦ ?_
      refine Program.Preserves.bind ?_ fun nr ↦ preserves_readBlock _
      exact (Program.preserves_check _ _).bind fun _ ↦ Program.preserves_pure _
    exact hread.bind fun block ↦ Program.preserves_modify fun s hs ↦ hI s i _ hs

theorem IgnoresTable.putInode (hI : IgnoresTable I) (i : ℕ) :
    Program.Preserves I (testfsPutInode i) := by
  refine (preserves_inodeRef i).bind fun inode ↦ ?_
  refine (Program.preserves_check _ _).bind fun _ ↦ ?_
  refine .ite (fun _ ↦ ?_) fun _ ↦ ?_
  · exact Program.preserves_modify fun s hs ↦ hI s i _ hs
  · exact Program.preserves_modify fun s hs ↦ hI s i _ hs

/-- `testfs_pwd` at every depth. -/
theorem IgnoresTable.pwd (hI : IgnoresTable I) (depth : ℕ) :
    ∀ i, Program.Preserves I (testfsPwd depth i) := by
  induction depth with
  | zero => exact fun _ ↦ Program.preserves_halt _
  | succ depth ih =>
    intro i
    rw [testfsPwd]
    refine (preserves_dirNameToInodeNr _ _).bind fun p ↦ ?_
    refine (Program.preserves_check _ _).bind fun _ ↦ ?_
    refine .ite (fun _ ↦ Program.preserves_pure _) fun _ ↦ ?_
    refine (hI.getInode _).bind fun _ ↦ (preserves_findDirent _ _).bind fun d ↦ ?_
    cases d with
    | none => exact Program.preserves_halt _
    | some d =>
      refine (ih _).bind fun result ↦ (hI.putInode _).bind fun _ ↦ ?_
      exact (Program.preserves_ofExcept _).bind fun _ ↦ Program.preserves_pure _

/-- One turn of the loop of `testfs_ls` for a record in use, around a recursive call that keeps the
property. -/
theorem IgnoresTable.lsEntry (hI : IgnoresTable I) {recur : ℕ → FsProgram (List LsLine)}
    (hrecur : ∀ c, Program.Preserves I (recur c)) (recursive : Bool) (d : Dirent) :
    Program.Preserves I (OperatingSystems.Fs.lsEntry recur recursive d) := by
  refine (hI.getInode _).bind fun _ ↦ (preserves_getType _).bind fun type ↦ ?_
  refine (Program.preserves_ofExcept _).bind fun name ↦ ?_
  refine Program.Preserves.bind ?_ fun inner ↦ ?_
  · exact .ite (fun _ ↦ hrecur _) fun _ ↦ Program.preserves_pure _
  · exact (hI.putInode _).bind fun _ ↦ Program.preserves_pure _

theorem IgnoresTable.lsLoop (hI : IgnoresTable I) {recur : ℕ → FsProgram (List LsLine)}
    (hrecur : ∀ c, Program.Preserves I (recur c)) (recursive : Bool) (dir turns : ℕ) :
    ∀ offset, Program.Preserves I
      (OperatingSystems.Fs.lsLoop recur recursive dir turns offset) := by
  induction turns with
  | zero => exact fun _ ↦ Program.preserves_pure _
  | succ turns ih =>
    intro offset
    rw [OperatingSystems.Fs.lsLoop]
    refine (preserves_nextDirent dir offset).bind fun next ↦ ?_
    cases next with
    | none => exact Program.preserves_pure _
    | some next =>
      refine .ite (fun _ ↦ ih _) fun _ ↦ ?_
      exact (hI.lsEntry hrecur recursive _).bind fun _ ↦
        (ih _).bind fun _ ↦ Program.preserves_pure _

/-- `testfs_ls` at every depth. -/
theorem IgnoresTable.ls (hI : IgnoresTable I) (recursive : Bool) (depth : ℕ) :
    ∀ dir, Program.Preserves I (testfsLs depth recursive dir) := by
  induction depth with
  | zero => exact fun _ ↦ Program.preserves_halt _
  | succ depth ih =>
    intro dir
    rw [testfsLs]
    exact (preserves_getSize dir).bind fun _ ↦ hI.lsLoop ih recursive dir _ _

end Readers

/-! ### The commands -/

section Commands

variable {I : FsState → Prop} {cur depth : ℕ}

theorem IgnoresTable.cd (hI : IgnoresTable I) (args : List CString) :
    Program.Preserves I (cmdCd cur args) := by
  match args with
  | [] => exact Program.preserves_pure _
  | _ :: _ :: _ => exact Program.preserves_pure _
  | [name] =>
    refine (preserves_dirNameToInodeNr _ _).bind fun nr ↦ ?_
    refine .ite (fun _ ↦ Program.preserves_pure _) fun _ ↦ ?_
    refine (hI.getInode _).bind fun _ ↦ (preserves_getType _).bind fun type ↦ ?_
    refine .ite (fun _ ↦ ?_) fun _ ↦ ?_
    · exact (hI.putInode _).bind fun _ ↦ Program.preserves_pure _
    · exact (hI.putInode _).bind fun _ ↦ Program.preserves_pure _

theorem IgnoresTable.cmdPwd (hI : IgnoresTable I) (args : List CString) :
    Program.Preserves I (OperatingSystems.Fs.cmdPwd depth cur args) := by
  match args with
  | _ :: _ => exact Program.preserves_pure _
  | [] => exact (hI.pwd depth cur).bind fun _ ↦ Program.preserves_pure _

/-- `cmd_ls` and `cmd_lsr`, with or without dropping the inode at the end. -/
theorem IgnoresTable.cmdLs (hI : IgnoresTable I) (args : List CString) (recursive : Bool) :
    Program.Preserves I (cmdLsInternal depth cur args recursive) := by
  match args with
  | [] => exact Program.preserves_pure _
  | _ :: _ :: _ => exact Program.preserves_pure _
  | [name] =>
    refine (preserves_dirNameToInodeNr _ _).bind fun nr ↦ ?_
    refine .ite (fun _ ↦ Program.preserves_pure _) fun _ ↦ ?_
    refine (hI.getInode _).bind fun _ ↦ (preserves_getType _).bind fun type ↦ ?_
    refine .ite (fun _ ↦ ?_) fun _ ↦ Program.preserves_pure _
    refine (hI.ls recursive depth _).bind fun lines ↦ ?_
    exact (hI.putInode _).bind fun _ ↦ Program.preserves_pure _

theorem IgnoresTable.stat (hI : IgnoresTable I) (args : List CString) :
    Program.Preserves I (cmdStat cur args) := by
  match args with
  | [] => exact Program.preserves_pure _
  | _ :: _ :: _ => exact Program.preserves_pure _
  | [name] =>
    refine (preserves_dirNameToInodeNr _ _).bind fun nr ↦ ?_
    refine .ite (fun _ ↦ Program.preserves_pure _) fun _ ↦ ?_
    refine (hI.getInode _).bind fun _ ↦ (preserves_inodeRef _).bind fun inode ↦ ?_
    exact (hI.putInode _).bind fun _ ↦ Program.preserves_pure _

theorem IgnoresTable.getFileInode (hI : IgnoresTable I) (dir : ℕ) (name : CString) :
    Program.Preserves I (testfsGetFileInode dir name) := by
  refine (preserves_dirNameToInodeNr _ _).bind fun nr ↦ ?_
  refine .ite (fun _ ↦ Program.preserves_pure _) fun _ ↦ ?_
  refine (hI.getInode _).bind fun _ ↦ (preserves_getType _).bind fun type ↦ ?_
  refine .ite (fun _ ↦ ?_) fun _ ↦ Program.preserves_pure _
  exact (hI.putInode _).bind fun _ ↦ Program.preserves_pure _

theorem IgnoresTable.read (hI : IgnoresTable I) (args : List CString) :
    Program.Preserves I (cmdRead cur args) := by
  match args with
  | [] => exact Program.preserves_pure _
  | [_] => exact Program.preserves_pure _
  | [_, _] => exact Program.preserves_pure _
  | _ :: _ :: _ :: _ :: _ => exact Program.preserves_pure _
  | [filename, offset, size] =>
    rw [cmdRead]
    cases strToOffset offset with
    | error ret => exact Program.preserves_pure _
    | ok offset =>
      refine .ite (fun _ ↦ Program.preserves_pure _) fun _ ↦ ?_
      cases strToSize size with
      | error ret => exact Program.preserves_pure _
      | ok size =>
        refine (hI.getFileInode _ _).bind fun result ↦ ?_
        refine .ite (fun _ ↦ Program.preserves_pure _) fun _ ↦ ?_
        refine (preserves_readFile _ offset size).bind fun read ↦ ?_
        exact (hI.putInode _).bind fun _ ↦ Program.preserves_pure _

/-- A command that only reads keeps every property that does not depend on the in-memory inodes. -/
theorem IgnoresTable.handleCommand (hI : IgnoresTable I) {c : Command} (hreads : c.Reads) :
    Program.Preserves I (OperatingSystems.Fs.handleCommand depth cur c) := by
  obtain ⟨name, args⟩ := c
  obtain ⟨hcreate, hmkdir, hrm, hwrite⟩ := hreads
  cases name with
  | cd => exact hI.cd args
  | pwd => exact hI.cmdPwd args
  | ls => exact hI.cmdLs args false
  | lsr => exact hI.cmdLs args true
  | create => exact absurd rfl hcreate
  | stat => exact hI.stat args
  | rm => exact absurd rfl hrm
  | mkdir => exact absurd rfl hmkdir
  | read => exact hI.read args
  | write => exact absurd rfl hwrite
  | fsstat =>
    match args with
    | [] => exact (Program.preserves_gets _).bind fun _ ↦ Program.preserves_pure _
    | _ :: _ => exact Program.preserves_pure _

/-- In every state, a command that only reads and returns has written nothing. -/
theorem reading_commands_write_nothing {s t : FsState} {c : Command} {out : Outcome}
    (hreads : c.Reads)
    (hrun : (OperatingSystems.Fs.handleCommand depth cur c).run s = .ok (out, t)) :
    SameDisk s t :=
  (ignoresTable_sameDisk s).handleCommand hreads (SameDisk.refl s) hrun

/-- `cmd_read` of bytes that a file has shows them, up to the first NUL. -/
theorem InTree.cmdRead_run {T : NameTree ℕ CString} {dirs : ℕ → List Record} {s : FsState}
    {c start n : ℕ} {filename offset size : CString} (h : InTree T dirs s cur) (hc : T.present c)
    (hfound : (testfsGetFileInode cur filename).run s = .ok ((0, c), s.fetch c))
    (hoffset : strToOffset offset = .ok (start : ℤ)) (hsize : strToSize size = .ok n)
    (hend : start + n ≤ (s.file c).size) (hstart : start < maxFileSize) (hn : n < 2 ^ 31) :
    (OperatingSystems.Fs.cmdRead cur [filename, offset, size]).run s = .ok (⟨n, cur, .read
      (((List.range n).map fun k ↦ (s.file c).content (start + k)).takeWhile (· ≠ 0))⟩, s) := by
  have hsound := (h.fetch (h.represents.bound c hc)).calm.toSound
  obtain ⟨inode, hmem⟩ := inodeHashTable_fetch s c
  have hsame : (s.fetch c).file c = s.file c := by
    rw [FsState.file, FsState.file, dinode_fetch, content_fetch]
  have hbytes := (hsound.actsOnFile hmem).read start n (by rw [hsame]; omega) hstart hn
  have hbig : (maxFileSize : ℤ) < 2 ^ 62 := by decide
  have hpasses : ¬ toOff ((start : ℤ) + toOff n) > ((s.fetch c).dinode c).iSize := by
    have hview : (s.file c).size = (s.dinode c).iSize.toNat := rfl
    have hnonneg := (h.calm.toSound.extent c (h.represents.bound c hc)).nonneg
    rw [toOff_of_range (by omega : -2 ^ 63 ≤ (n : ℤ)) (by omega),
      toOff_of_range (by omega) (by omega), dinode_fetch]
    omega
  have hbuffer : toSize ((n : ℤ) + 1) = n + 1 := toSize_of_range (by omega) (by omega)
  rw [hsame, Nat.min_eq_left (by omega : n ≤ (s.file c).size - start)] at hbytes
  have hread : (readFile c start n).run (s.fetch c) = .ok ((n, .read
      (((List.range n).map fun k ↦ (s.file c).content (start + k)).takeWhile (· ≠ 0))),
      s.fetch c) := by
    rw [readFile, Program.run_bind (testfsInodeGetSize_run hmem), if_neg hpasses, hbuffer,
      if_neg (by omega), Program.run_bind hbytes]
    simp only
    rw [List.length_map, List.length_range, Program.check_bind_run (Nat.le_succ n),
      if_pos (Int.natCast_nonneg n), Program.check_bind_run (Nat.lt_succ_self n), Program.pure_run]
  rw [OperatingSystems.Fs.cmdRead, hoffset]
  simp only
  rw [if_neg (not_lt.mpr (Int.natCast_nonneg start)), hsize]
  simp only
  rw [Program.run_bind hfound]
  simp only
  rw [if_neg (lt_irrefl 0), Program.run_bind hread, Program.run_bind
    (testfsPutInode_fetch h.calm c), Program.pure_run]

/-- `create f`, `write f 0 abc` and `read f 0 3` in a new file system of eight blocks. -/
theorem reading_commands_write_nothing_read : ∃ (p₀ p q : Session) (t : FsState), Started 8 p₀ ∧
    p₀.step (0, ⟨.create, [nameF]⟩) = some p ∧
    p.step (0, ⟨.write, [nameF, offsetZero, textABC]⟩) = some q ∧
    (OperatingSystems.Fs.handleCommand 0 0 ⟨.read, [nameF, offsetZero, ⟨[51], by decide⟩]⟩).run
      q.fs = .ok (⟨3, 0, .read [97, 98, 99]⟩, t) ∧ SameDisk q.fs t := by
  obtain ⟨p₀, p, T, dirs, c, hstart, -, hcreate, hcreated⟩ :=
    fresh_create (by decide : 0 < 8) (by decide)
  have hzero : strToOffset offsetZero = .ok ((0 : ℕ) : ℤ) := by decide
  obtain ⟨q, hwrite, -, htree, hwritten⟩ :=
    hcreated.writes textABC hzero (by decide) (by decide) (by decide)
  obtain ⟨hpresent, hfound⟩ := htree.fileInode_run hcreated.lookup hcreated.file
  have hthree : strToSize (⟨[51], by decide⟩ : CString) = .ok 3 := by decide
  have hrun := htree.cmdRead_run hpresent hfound hzero hthree (by rw [hwritten]; decide)
    (by decide) (by decide)
  rw [hwritten] at hrun
  have hcommand : (OperatingSystems.Fs.handleCommand 0 0
      ⟨.read, [nameF, offsetZero, ⟨[51], by decide⟩]⟩).run q.fs =
        .ok (⟨3, 0, .read [97, 98, 99]⟩, q.fs) := hrun
  exact ⟨p₀, p, q, _, hstart, hcreate, hwrite, hcommand,
    reading_commands_write_nothing ⟨by decide, by decide, by decide, by decide⟩ hcommand⟩

end Commands

end OperatingSystems.Fs
