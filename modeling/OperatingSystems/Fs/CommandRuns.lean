import OperatingSystems.Fs.TreeCommands

/-!
# Runs of commands

A session is a mounted file system with the current directory, and a run is any sequence of
commands that return, on a file system fresh from `mktestfs`. The recursions of `testfs_pwd` and
`testfs_ls` are given a depth with every command; a command that would need more does not return.

`name_space_is_tree` is about the runs in which no block allocation fails and no directory reaches
`2^31` bytes: the directories are a tree in every state of such a run, the two recursions end, and
`testfs_pwd` inverts looking names up.
-/

set_option autoImplicit false
set_option relaxedAutoImplicit false

namespace OperatingSystems.Fs

open Library Library.Machine

/-! ### Sessions -/

/-- A mounted file system and the current directory. -/
structure Session where
  fs : FsState
  curDir : ℕ

namespace Session

/-- The session after a command that returns. The recursions may go to the given depth. -/
def step (p : Session) (label : ℕ × Command) : Option Session :=
  ((handleCommand label.1 p.curDir label.2).run p.fs).toOption.map fun result ↦
    ⟨result.2, result.1.curDir⟩

theorem step_eq_some_iff {p q : Session} {label : ℕ × Command} :
    p.step label = some q ↔ ∃ out, (handleCommand label.1 p.curDir label.2).run p.fs = .ok
      (out, q.fs) ∧
      out.curDir = q.curDir := by
  obtain ⟨fs, curDir⟩ := q
  rw [step]
  cases (handleCommand label.1 p.curDir label.2).run p.fs with
  | error e => simp [Except.toOption]
  | ok result =>
    obtain ⟨out, t⟩ := result
    simp only [Except.toOption, Option.map_some, Option.some.injEq, Session.mk.injEq,
      Except.ok.injEq, Prod.mk.injEq]
    constructor
    · rintro ⟨rfl, rfl⟩
      exact ⟨out, ⟨rfl, rfl⟩, rfl⟩
    · rintro ⟨_, ⟨rfl, rfl⟩, rfl⟩
      exact ⟨rfl, rfl⟩

end Session

/-- The session that `testfs` starts with on a new file system. -/
def Started (maxFsBlocks : ℕ) (p : Session) : Prop :=
  freshFs maxFsBlocks = .ok p.fs ∧ p.curDir = 0

/-! ### Runs in which no allocation fails -/

/-- No block allocation has failed and no directory has reached `2^31` bytes. -/
def Session.Quiet (p : Session) : Prop := p.fs.allocFailed = false ∧ DirsSmall p.fs

/-- Commands that lead to a quiet session. -/
def Session.LeadsToQuiet (p : Session) (label : ℕ × Command) : Prop :=
  ∀ q, p.step label = some q → q.Quiet

/-- A quiet session on a fresh file system and every session that commands lead to through quiet
sessions. -/
def QuietRun (maxFsBlocks : ℕ) (p : Session) : Prop :=
  ∃ p₀, Started maxFsBlocks p₀ ∧ p₀.Quiet ∧ Reaches Session.LeadsToQuiet Session.step p₀ p

section Quiet

variable {maxFsBlocks : ℕ} {s : FsState}

/-- A fresh file system has the root directory only. -/
theorem Fresh.inTree (h : Fresh maxFsBlocks s) (hflag : s.allocFailed = false) :
    InTree (NameTree.single 0) (fun _ ↦ emptyDir 0 0 (by decide) (by decide)) s 0 := by
  have hzero : (0 : ℕ) < nrInodes := by decide
  obtain ⟨root, hmem, hclean, hcount⟩ := h.root
  have hquiet : ∀ i inode, s.inodeHashTable i = some inode → i = 0 ∧ inode = root := by
    intro i inode hi
    by_cases h0 : i = 0
    · subst h0
      exact ⟨rfl, Option.some.inj (hi.symm.trans hmem)⟩
    · rw [h.table i h0] at hi
      exact absurd hi (by simp)
  have hcalm : Calm s := by
    refine ⟨h.sound, fun i inode hi ↦ ?_⟩
    obtain ⟨-, rfl⟩ := hquiet i inode hi
    exact ⟨hclean, hcount.ge⟩
  rcases h.cases with ⟨hroot, hdir, -⟩ | ⟨-, -, -, hfailed⟩
  swap
  · rw [hflag] at hfailed
    exact absurd hfailed (by decide)
  refine ⟨hcalm, ?_, ?_, rfl, root, hmem⟩
  · refine ⟨rfl, ?_, ?_, ?_, ?_, ?_, ?_, ?_, ?_, fun _ _ ↦ ⟨rfl, rfl⟩, ?_⟩
    · intro i
      rw [hroot, Finset.mem_singleton]
      rfl
    · rintro i rfl
      exact hzero
    · intro i
      refine ⟨?_, And.left⟩
      rintro rfl
      exact ⟨rfl, hdir.type⟩
    · rintro d rfl
      exact hdir
    · exact fun _ _ ↦ distinctNames_emptyDir hzero hzero
    · rintro d rfl
      rw [lookup_emptyDir, if_pos rfl]
    · rintro d rfl
      rw [lookup_emptyDir, if_neg (by decide), if_pos rfl]
      rfl
    · intro d _ name hdot hdotdot
      rw [lookup_emptyDir, if_neg hdot, if_neg hdotdot]
      rfl
    · exact fun i hi hne ↦ h.free i hi hne
  · rintro d rfl inode hd
    obtain ⟨-, rfl⟩ := hquiet 0 inode hd
    rw [← dinode_of_some hmem, h.synced]

/-- The name space is a tree in every session of a quiet run. -/
theorem QuietRun.inTree {p : Session} (hmax : maxFsBlocks ≤ nrDataBlocks)
    (h : QuietRun maxFsBlocks p) : ∃ T dirs, InTree T dirs p.fs p.curDir := by
  obtain ⟨p₀, ⟨hfresh, hroot⟩, hquiet, hrun⟩ := h
  obtain ⟨s₀, hs₀, hspec⟩ := freshFs_spec hmax
  obtain rfl := Except.ok.inj (hs₀.symm.trans hfresh)
  have hinv : p.Quiet ∧ ∃ T dirs, InTree T dirs p.fs p.curDir := by
    refine Reaches.invariant (I := fun p ↦ p.Quiet ∧ ∃ T dirs, InTree T dirs p.fs p.curDir)
      (fun p label q hp hleads hstep ↦ ?_) hrun
        ⟨hquiet, _, _, by rw [hroot]; exact hspec.inTree hquiet.1⟩
    obtain ⟨⟨-, hsmall⟩, T, dirs, htree⟩ := hp
    have hq := hleads q hstep
    obtain ⟨out, hcommand, hcur⟩ := Session.step_eq_some_iff.mp hstep
    obtain ⟨T', dirs', hdone⟩ := htree.handleCommand hsmall hq.2 hcommand hq.1
    exact ⟨hq, T', dirs', hcur ▸ hdone⟩
  exact hinv.2

end Quiet

/-! ### The tree -/

/-- The inode is in use and a directory. -/
def FsState.IsDirectory (s : FsState) (d : ℕ) : Prop :=
  d ∈ s.inodeFreemap.allocated ∧ (s.dinode d).iType = InodeType.dir.code

/-- The record `r` of the directory `d` is in use, is neither `.` nor `..`, and names `c`. -/
def FsState.Names (s : FsState) (dirs : ℕ → List Record) (d : ℕ) (r : Record) (c : ℕ) : Prop :=
  s.IsDirectory d ∧ r ∈ liveRecords (dirs d) ∧ r.name ≠ dot ∧ r.name ≠ dotdot ∧ r.nr = c

/-- The directories of a file system have the records `dirs` and are a tree. -/
structure IsTree (s : FsState) (dirs : ℕ → List Record) (parent : ℕ → ℕ) : Prop where
  root : s.IsDirectory 0
  records : ∀ d, s.IsDirectory d → IsDir s d (dirs d)
  distinct : ∀ d, s.IsDirectory d → DistinctNames (dirs d)
  self : ∀ d, s.IsDirectory d → lookup (dirs d) dot = some (d : ℤ)
  above : ∀ d, s.IsDirectory d → lookup (dirs d) dotdot = some (parent d : ℤ)
  parent_root : parent 0 = 0
  parent_names : ∀ d, s.IsDirectory d → d ≠ 0 → ∃ r, s.Names dirs (parent d) r d
  named : ∀ c ∈ s.inodeFreemap.allocated, c ≠ 0 → ∃! e : ℕ × Record, s.Names dirs e.1 e.2 c
  live : ∀ d, s.IsDirectory d → ∀ r ∈ liveRecords (dirs d),
    ∃ c ∈ s.inodeFreemap.allocated, r.nr = (c : ℕ)
  up : ∀ d, s.IsDirectory d → ∃ k, parent^[k] d = 0

/-- Look a name up in a directory. -/
def lookUp (r : ℤ) (name : CString) : FsProgram ℤ :=
  if r < 0 then pure r
  else do
    testfsGetInode r.toNat
    let nr ← testfsDirNameToInodeNr r.toNat name
    testfsPutInode r.toNat
    pure nr

/-- Look names up one after another, from a directory on. -/
def followNames (r : ℤ) : List CString → FsProgram ℤ
  | [] => pure r
  | name :: names => do
    let next ← lookUp r name
    followNames next names

section Tree

variable {T : NameTree ℕ CString} {dirs : ℕ → List Record} {s : FsState} {cur d : ℕ}

theorem Represents.isDirectory_iff (h : Represents s T dirs) : s.IsDirectory d ↔ T.isDir d := by
  rw [h.isDir, h.present]
  rfl

/-- The records in use that are neither `.` nor `..` are the entries of the tree. -/
theorem Represents.names_iff (h : Represents s T dirs) {r : Record} {c : ℕ} :
    s.Names dirs d r c ↔ T.isDir d ∧ r ∈ liveRecords (dirs d) ∧ T.entry d r.name = some c := by
  constructor
  · rintro ⟨hd, hr, hdot, hdotdot, hnr⟩
    rw [h.isDirectory_iff] at hd
    refine ⟨hd, hr, ?_⟩
    have hlook := lookup_of_mem (h.distinct d hd) hr
    rw [h.entry d hd r.name hdot hdotdot, hnr, Option.map_eq_some_iff] at hlook
    obtain ⟨c', hentry, hcast⟩ := hlook
    rw [hentry, Nat.cast_inj.mp hcast]
  · rintro ⟨hd, hr, hentry⟩
    have hdots := h.dots d hd
    have hdot : r.name ≠ dot := fun heq ↦ by
      rw [heq, hdots.1] at hentry
      exact absurd hentry (by simp)
    have hdotdot : r.name ≠ dotdot := fun heq ↦ by
      rw [heq, hdots.2] at hentry
      exact absurd hentry (by simp)
    refine ⟨h.isDirectory_iff.mpr hd, hr, hdot, hdotdot, ?_⟩
    have hlook := h.entry d hd r.name hdot hdotdot
    rw [lookup_of_mem (h.distinct d hd) hr, hentry] at hlook
    exact Option.some.inj hlook

/-- An entry of the tree has a record. -/
theorem Represents.exists_names (h : Represents s T dirs) (hd : T.isDir d) {name : CString} {c : ℕ}
    (hentry : T.entry d name = some c) : ∃ r, r.name = name ∧ s.Names dirs d r c := by
  have hdots := h.dots d hd
  have hlook : lookup (dirs d) name = some (c : ℤ) := by
    rw [h.entry d hd name, hentry, Option.map_some]
    · rintro rfl
      rw [hdots.1] at hentry
      exact absurd hentry (by simp)
    · rintro rfl
      rw [hdots.2] at hentry
      exact absurd hentry (by simp)
  obtain ⟨r, hr, rfl, -⟩ := exists_of_lookup hlook
  exact ⟨r, rfl, h.names_iff.mpr ⟨hd, hr, hentry⟩⟩

theorem Represents.isTree (h : Represents s T dirs) : IsTree s dirs T.parent where
  root := h.isDirectory_iff.mpr (h.root ▸ T.isDir_root)
  records := fun d hd ↦ h.records d (h.isDirectory_iff.mp hd)
  distinct := fun d hd ↦ h.distinct d (h.isDirectory_iff.mp hd)
  self := fun d hd ↦ h.self d (h.isDirectory_iff.mp hd)
  above := fun d hd ↦ h.parent d (h.isDirectory_iff.mp hd)
  parent_root := by rw [← h.root, T.parent_root]
  parent_names := by
    intro d hd hroot
    rw [h.isDirectory_iff] at hd
    obtain ⟨name, hentry⟩ := T.parent_entry hd (by rw [h.root]; exact hroot)
    obtain ⟨r, -, hnames⟩ := h.exists_names (T.isDir_parent hd) hentry
    exact ⟨r, hnames⟩
  named := by
    intro c hc hroot
    obtain ⟨d, name, hd, hentry⟩ := T.exists_entry ((h.present c).mpr hc)
      (by rw [h.root]; exact hroot)
    obtain ⟨r, -, hnames⟩ := h.exists_names hd hentry
    refine ⟨(d, r), hnames, ?_⟩
    rintro ⟨d', r'⟩ hnames'
    obtain ⟨-, hr, hentry⟩ := h.names_iff.mp hnames
    obtain ⟨hd', hr', hentry'⟩ := h.names_iff.mp hnames'
    obtain ⟨rfl, hname⟩ := T.entry_inj hd' hd hentry' hentry
    exact congrArg (Prod.mk d') (eq_of_name_eq (h.distinct d' hd') hr' hr hname)
  live := by
    intro d hd r hr
    rw [h.isDirectory_iff] at hd
    obtain ⟨c, hnr, hc⟩ := h.present_of_lookup hd (lookup_of_mem (h.distinct d hd) hr)
    exact ⟨c, (h.present c).mp hc, hnr⟩
  up := by
    intro d hd
    rw [← h.root]
    exact T.exists_iterate_parent (h.isDirectory_iff.mp hd)

theorem followNames_append {t u : FsState} {r r' r'' : ℤ} {names : List CString} {name : CString}
    (h : (followNames r names).run s = .ok (r', t))
    (hlast : (lookUp r' name).run t = .ok (r'', u)) :
    (followNames r (names ++ [name])).run s = .ok (r'', u) := by
  induction names generalizing r s with
  | nil =>
    obtain ⟨rfl, rfl⟩ := Prod.mk.inj (Except.ok.inj h)
    rw [List.nil_append, followNames, Program.run_bind hlast, followNames, Program.pure_run]
  | cons first names ih =>
    obtain ⟨next, v, hfirst, hrest⟩ := Program.bind_eq_ok_iff.mp h
    rw [List.cons_append, followNames, Program.run_bind hfirst]
    exact ih hrest

/-- The names on the way down to a directory lead to it. -/
theorem followNames_run (hcalm : Calm s) (h : Represents s T dirs) {names : List CString}
    (hpath : T.IsPath d names) : (followNames 0 names).run s = .ok ((d : ℤ), s) := by
  induction hpath with
  | root =>
    rw [followNames, Program.pure_run, h.root]
    rfl
  | @step c name names hc hroot hentry hpath ih =>
    refine followNames_append ih ?_
    have hp := T.isDir_parent hc
    have hlt := h.lt hp
    obtain ⟨r, rfl, hnames⟩ := h.exists_names hp hentry
    obtain ⟨-, hr, -, -, hnr⟩ := hnames
    have hlook := lookup_of_mem (h.distinct _ hp) hr
    obtain ⟨n, hn⟩ := inodeHashTable_fetch s (T.parent c)
    have hfind := testfsDirNameToInodeNr_run (hcalm.fetch hlt).toSound hn
      ((h.fetch (T.parent c)).records _ hp) r.name
    rw [hlook, hnr, Option.getD_some] at hfind
    rw [lookUp, if_neg (not_lt.mpr (Int.natCast_nonneg _)), Int.toNat_natCast,
      Program.run_bind (testfsGetInode_fetch hcalm.core.layout hlt), Program.run_bind hfind,
      Program.run_bind (testfsPutInode_fetch hcalm _), Program.pure_run]

/-- Assumes: a run of commands on a fresh file system in which no block allocation fails and no
directory reaches `2^31` bytes. Then the directories are a tree, `testfs_pwd` returns without a
failing assertion at every depth that is large enough, the names it prints lead from the root back
to the current directory, and `testfs_ls` returns for every directory. -/
theorem name_space_is_tree {maxFsBlocks : ℕ} {p : Session} (hmax : maxFsBlocks ≤ nrDataBlocks)
    (hrun : QuietRun maxFsBlocks p) :
    (∃ dirs parent, IsTree p.fs dirs parent) ∧
    (∃ names bound, (∀ depth ≥ bound, (testfsPwd depth p.curDir).run p.fs =
        .ok ((if names = [] then 1 else 0, pwdPrint names), p.fs)) ∧
      (followNames 0 names).run p.fs = .ok ((p.curDir : ℤ), p.fs)) ∧
    ∃ bound, ∀ depth ≥ bound, ∀ recursive, ∀ d, p.fs.IsDirectory d →
      ∃ lines, (testfsLs depth recursive d).run (p.fs.fetch d) = .ok (lines, p.fs.fetch d) := by
  obtain ⟨T, dirs, h⟩ := hrun.inTree hmax
  refine ⟨⟨dirs, T.parent, h.represents.isTree⟩, ?_, ?_⟩
  · obtain ⟨inode, hmem⟩ := h.inMemory
    obtain ⟨names, hpath, hpwd⟩ := testfsPwd_run (T.depth p.curDir + 1) h.calm h.represents h.isDir
      (Nat.lt_succ_self _) hmem
    refine ⟨names, T.depth p.curDir + 1, fun depth hdepth ↦
      ?_, followNames_run h.calm h.represents hpath⟩
    exact extends_of_le (fun k ↦ testfsPwd_extends k p.curDir) hdepth hpwd
  · obtain ⟨bound, hbound⟩ := h.represents.exists_bound
    refine ⟨bound + 1, fun depth hdepth recursive d hd ↦ ?_⟩
    rw [h.represents.isDirectory_iff] at hd
    obtain ⟨n, hn⟩ := inodeHashTable_fetch p.fs d
    exact testfsLs_run hbound recursive depth (h.calm.fetch (h.represents.lt hd))
      (h.represents.fetch d) hd (by omega) hn

end Tree

/-- The name of a file. -/
def nameF : CString := ⟨[102], by decide⟩

/-- The session after `create f` in a new file system. -/
structure CreatedF (maxFsBlocks : ℕ) (T : NameTree ℕ CString) (dirs : ℕ → List Record) (c : ℕ)
    (p : Session) : Prop where
  quiet : p.Quiet
  curDir : p.curDir = 0
  limit : p.fs.sb.maxFsBlocks = maxFsBlocks
  inTree : InTree T dirs p.fs 0
  lookup : lookup (dirs 0) nameF = some (c : ℤ)
  type : (p.fs.dinode c).iType = InodeType.file.code
  own : p.fs.own c = fun _ ↦ 0
  size : (p.fs.dinode 0).iSize < blockSize
  allocated : ∀ d ∈ p.fs.inodeFreemap.allocated, d = c ∨ d = 0

/-- `create f` in a new file system. -/
theorem fresh_create {maxFsBlocks : ℕ} (hpos : 0 < maxFsBlocks)
    (hmax : maxFsBlocks ≤ nrDataBlocks) :
    ∃ p₀ p T dirs c, Started maxFsBlocks p₀ ∧ p₀.Quiet ∧
      p₀.step (0, ⟨.create, [nameF]⟩) = some p ∧ CreatedF maxFsBlocks T dirs c p := by
  obtain ⟨s, hfresh, hspec⟩ := freshFs_spec hmax
  obtain ⟨hroot, hdir, hflag⟩ := hspec.root_made hpos
  have hlen : (encodeDir (emptyDir 0 0 (by decide) (by decide))).length = 21 := by decide
  have hsmall : DirsSmall s := by
    intro d hd _
    rw [hroot, Finset.mem_singleton] at hd
    rw [hd, hdir.size, hlen]
    decide
  have hnone : lookup (emptyDir 0 0 (by decide) (by decide)) nameF = none := by decide
  obtain ⟨c, t, T, dirs, hrun, htree, hlook, htype, hkept, hsmall', hlimit, hown, hsize,
    hall⟩ :=
    (hspec.inTree hflag).cmdCreate_run hnone (by rw [hlen]; decide) (by rw [hlen]; decide)
      hspec.exists_free
  refine ⟨⟨s, 0⟩, ⟨t, 0⟩, T, dirs, c, ⟨hfresh, rfl⟩, ⟨hflag, hsmall⟩,
    Session.step_eq_some_iff.mpr ⟨_, hrun, rfl⟩, ⟨hkept.trans hflag, hsmall' hsmall⟩, rfl,
    hlimit.trans hspec.maxFsBlocks, htree, hlook, htype, hown, hsize, fun d hd ↦ ?_⟩
  refine (hall d hd).imp_right fun hor ↦ ?_
  rw [hroot, Finset.mem_singleton] at hor
  exact hor.elim id id

/-- A new file in a new file system of eight blocks. -/
theorem name_space_is_tree_create : ∃ p : Session, QuietRun 8 p ∧
    ∃ dirs parent, IsTree p.fs dirs parent := by
  obtain ⟨p₀, p, T, dirs, c, hstart, hquiet, hstep, hcreated⟩ :=
    fresh_create (by decide : 0 < 8) (by decide)
  have hrun : QuietRun 8 p := by
    refine ⟨p₀, hstart, hquiet, Relation.ReflTransGen.single ⟨_, fun q hq ↦ ?_, hstep⟩⟩
    rw [hstep, Option.some.injEq] at hq
    exact hq ▸ hcreated.quiet
  exact ⟨p, hrun, (name_space_is_tree (by decide) hrun).1⟩

end OperatingSystems.Fs
