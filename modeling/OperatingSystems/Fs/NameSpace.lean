import OperatingSystems.Fs.Fresh
import OperatingSystems.Fs.Undo
import OperatingSystems.Library.Machine

/-!
# The name space between two commands

`InTree T dirs s cur` says that the file system is a tree of directories `T` between two commands
and that the current directory `cur` is one of them and in memory. Looking a name up in it leads to
an inode of the tree, and `cmd_cd` to a directory of it.
-/

set_option autoImplicit false
set_option relaxedAutoImplicit false

namespace OperatingSystems.Fs

open Library Library.Machine

/-- Between two commands the directories are the tree `T`, with the records `dirs`, and those in
memory are as on disk. -/
structure InTree (T : NameTree ℕ CString) (dirs : ℕ → List Record) (s : FsState) (cur : ℕ) : Prop
    where
  calm : Calm s
  represents : Represents s T dirs
  synced : ∀ d, T.isDir d → ∀ inode, s.inodeHashTable d = some inode → inode.din = s.diskDinode d
  isDir : T.isDir cur
  inMemory : ∃ inode, s.inodeHashTable cur = some inode

/-- No directory has reached `2^31` bytes. -/
def DirsSmall (s : FsState) : Prop :=
  ∀ d ∈ s.inodeFreemap.allocated, (s.dinode d).iType = InodeType.dir.code →
    (s.dinode d).iSize < 2 ^ 31

/-- No record has `2^31` bytes, and no directory `2^32`. -/
structure RecordsFit (T : NameTree ℕ CString) (dirs : ℕ → List Record) : Prop where
  record : ∀ d, T.isDir d → ∀ r ∈ dirs d, r.size < 2 ^ 31
  length : ∀ d, T.isDir d → (encodeDir (dirs d)).length < 2 ^ 32

/-! ### Looking up -/

section Lookup

variable {T : NameTree ℕ CString} {dirs : ℕ → List Record} {s : FsState} {cur d : ℕ}

/-- A name of a directory leads to an inode of the tree. -/
theorem Represents.present_of_lookup (h : Represents s T dirs) (hd : T.isDir d) {name : CString}
    {v : ℤ} (hv : lookup (dirs d) name = some v) : ∃ c : ℕ, v = c ∧ T.present c := by
  by_cases hdot : name = dot
  · rw [hdot, h.self d hd] at hv
    exact ⟨d, (Option.some.inj hv).symm, T.present_of_isDir hd⟩
  by_cases hdotdot : name = dotdot
  · rw [hdotdot, h.parent d hd] at hv
    exact ⟨T.parent d, (Option.some.inj hv).symm, T.present_of_isDir (T.isDir_parent hd)⟩
  · rw [h.entry d hd name hdot hdotdot, Option.map_eq_some_iff] at hv
    obtain ⟨c, hentry, rfl⟩ := hv
    exact ⟨c, rfl, (T.entry_present hd hentry).1⟩

/-- `testfs_dir_name_to_inode_nr` in a directory that is in memory. -/
theorem Represents.nameToInodeNr_run (h : Represents s T dirs) (hs : Sound s) {inode : Inode}
    (hd : T.isDir d) (ht : s.inodeHashTable d = some inode) (name : CString) :
    (∃ c : ℕ, lookup (dirs d) name = some (c : ℤ) ∧ T.present c ∧
      (testfsDirNameToInodeNr d name).run s = .ok ((c : ℤ), s)) ∨
    lookup (dirs d) name = none ∧ (testfsDirNameToInodeNr d name).run s = .ok (-eNOENT, s) := by
  have hrun := testfsDirNameToInodeNr_run hs ht (h.records d hd) name
  cases hlook : lookup (dirs d) name with
  | none =>
    rw [hlook] at hrun
    exact Or.inr ⟨rfl, hrun⟩
  | some v =>
    rw [hlook] at hrun
    obtain ⟨c, rfl, hc⟩ := h.present_of_lookup hd hlook
    exact Or.inl ⟨c, rfl, hc, hrun⟩

theorem Represents.fetch (h : Represents s T dirs) (i : ℕ) : Represents (s.fetch i) T dirs :=
  h.of_dinode rfl (fun j _ ↦ dinode_fetch s i j) fun j _ ↦ content_fetch s i j

theorem InTree.find_run (h : InTree T dirs s cur) (name : CString) :
    (∃ c : ℕ, lookup (dirs cur) name = some (c : ℤ) ∧ T.present c ∧
      (testfsDirNameToInodeNr cur name).run s = .ok ((c : ℤ), s)) ∨
    lookup (dirs cur) name = none ∧
      (testfsDirNameToInodeNr cur name).run s = .ok (-eNOENT, s) := by
  obtain ⟨inode, ht⟩ := h.inMemory
  exact h.represents.nameToInodeNr_run h.calm.toSound h.isDir ht name

theorem InTree.length_lt (h : InTree T dirs s cur) (hsmall : DirsSmall s) (hd : T.isDir d) :
    (encodeDir (dirs d)).length < 2 ^ 31 := by
  obtain ⟨hpresent, htype⟩ := (h.represents.isDir d).mp hd
  have hsize := hsmall d ((h.represents.present d).mp hpresent) htype
  rw [(h.represents.records d hd).size] at hsize
  exact_mod_cast hsize

theorem InTree.recordsFit (h : InTree T dirs s cur) (hsmall : DirsSmall s) : RecordsFit T dirs where
  record := fun _ hd _ hr ↦ lt_of_le_of_lt (size_le_encodeDir hr) (h.length_lt hsmall hd)
  length := fun _ hd ↦ (h.length_lt hsmall hd).trans (by norm_num)

/-- Fetching an inode of the tree keeps the state between commands. -/
theorem InTree.fetch (h : InTree T dirs s cur) {c : ℕ} (hc : c < nrInodes) :
    InTree T dirs (s.fetch c) cur := by
  obtain ⟨inode, ht⟩ := h.inMemory
  refine ⟨h.calm.fetch hc, h.represents.fetch c, ?_, h.isDir, inMemory_fetch ht c⟩
  intro d hd n hn
  have hdisk : (s.fetch c).diskDinode d = s.diskDinode d := rfl
  rw [hdisk, ← dinode_of_some hn, dinode_fetch]
  cases htable : s.inodeHashTable d with
  | some n' => rw [dinode_of_some htable, h.synced d hd n' htable]
  | none => rw [dinode_of_none htable]

/-- The type of an inode of the tree, once it is in memory. -/
theorem InTree.getType_run (h : InTree T dirs s cur) {c : ℕ} (hc : T.present c) :
    ((s.dinode c).iType = InodeType.dir.code ↔ T.isDir c) ∧
      (testfsInodeGetType c).run (s.fetch c) = .ok ((s.dinode c).iType, s.fetch c) := by
  obtain ⟨n, hn⟩ := inodeHashTable_fetch s c
  refine ⟨?_, ?_⟩
  · rw [h.represents.isDir]
    exact ⟨fun htype ↦ ⟨hc, htype⟩, And.right⟩
  · rw [testfsInodeGetType_run hn, dinode_fetch]

end Lookup

/-! ### Changing directories -/

section Cd

variable {T : NameTree ℕ CString} {dirs : ℕ → List Record} {s t : FsState} {cur : ℕ}

/-- Storing an in-memory inode with the same dinode. -/
theorem content_setInode {i : ℕ} {x : Option Inode} (h : (s.setInode i x).dinode i = s.dinode i)
    (j : ℕ) : (s.setInode i x).content j = s.content j := by
  have hdinode : (s.setInode i x).dinode j = s.dinode j := by
    by_cases hji : j = i
    · rw [hji, h]
    · exact dinode_setInode_of_ne _ _ hji
  exact content_congr (own_congr (by rw [hdinode]) fun _ _ _ ↦ rfl) fun _ _ _ ↦ rfl

/-- Dropping a directory. -/
theorem InTree.put {d : ℕ} {inode : Inode} (h : InTree T dirs s cur) (hd : T.isDir d)
    (ht : s.inodeHashTable d = some inode) (hkeep : d = cur → 1 < inode.iCount) :
    ∃ x, (testfsPutInode d).run s = .ok ((), s.setInode d x) ∧
      InTree T dirs (s.setInode d x) cur := by
  obtain ⟨hclean, hcount⟩ := h.calm.quiet d inode ht
  have hsync := h.synced d hd inode ht
  obtain ⟨x, hx⟩ : ∃ x, x = if inode.iCount - 1 = 0 then none
    else some { inode with iCount := inode.iCount - 1 } := ⟨_, rfl⟩
  have hmem : ∀ m, x = some m → m = { inode with iCount := inode.iCount - 1 } ∧
    inode.iCount - 1 ≠ 0 := by
    intro m hm
    rw [hx] at hm
    split_ifs at hm with hlast
    exact ⟨(Option.some.inj hm).symm, hlast⟩
  have hdinode : (s.setInode d x).dinode d = s.dinode d := by
    rw [dinode_setInode_self, dinode_of_some ht, hx]
    split_ifs
    · exact hsync.symm
    · rfl
  have hall : ∀ j < nrInodes, (s.setInode d x).dinode j = s.dinode j := by
    intro j _
    by_cases hjd : j = d
    · rw [hjd, hdinode]
    · exact dinode_setInode_of_ne _ _ hjd
  have hrun := testfsPutInode_run ht hclean
  have hsound := h.calm.toSound.putInode ht hclean
  rw [← hx] at hrun hsound
  refine ⟨x, hrun, ⟨hsound, ?_⟩, h.represents.of_dinode rfl hall fun j _ ↦
    content_setInode hdinode j, ?_, h.isDir, ?_⟩
  · intro j m hm
    by_cases hjd : j = d
    · rw [hjd, inodeHashTable_setInode_self] at hm
      obtain ⟨rfl, hne⟩ := hmem m hm
      exact ⟨hclean, by simp only; omega⟩
    · rw [inodeHashTable_setInode_of_ne _ _ hjd] at hm
      exact h.calm.quiet j m hm
  · intro e he m hm
    by_cases hed : e = d
    · rw [hed, inodeHashTable_setInode_self] at hm
      obtain ⟨rfl, -⟩ := hmem m hm
      rw [hed]
      exact hsync
    · rw [inodeHashTable_setInode_of_ne _ _ hed] at hm
      exact h.synced e he m hm
  · by_cases hcur : cur = d
    · have hlt := hkeep hcur.symm
      rw [hcur, inodeHashTable_setInode_self, hx, if_neg (by omega)]
      exact ⟨_, rfl⟩
    · rw [inodeHashTable_setInode_of_ne _ _ hcur]
      exact h.inMemory

/-- `cmd_cd` leads to a directory of the tree. -/
theorem InTree.cmdCd (h : InTree T dirs s cur) (args : List CString) :
    ∃ out t, (cmdCd cur args).run s = .ok (out, t) ∧ InTree T dirs t out.curDir := by
  match args with
  | [] => exact ⟨_, s, rfl, h⟩
  | _ :: _ :: _ => exact ⟨_, s, rfl, h⟩
  | [name] =>
    rw [OperatingSystems.Fs.cmdCd]
    rcases h.find_run name with ⟨c, -, hc, hrun⟩ | ⟨-, hrun⟩
    swap
    · exact ⟨.silent cur (-eNOENT), s,
        by rw [Program.run_bind hrun, if_pos (by decide), Program.pure_run], h⟩
    have hlt := h.represents.bound c hc
    obtain ⟨htype, hget⟩ := h.getType_run hc
    rw [Program.run_bind hrun, if_neg (not_lt.mpr (Int.natCast_nonneg c)), Int.toNat_natCast,
      Program.run_bind (testfsGetInode_fetch h.calm.core.layout hlt), Program.run_bind hget]
    by_cases hdir : T.isDir c
    · have hfetched := h.fetch hlt
      obtain ⟨n, hn⟩ := inodeHashTable_fetch s c
      obtain ⟨inode, ht⟩ := hfetched.inMemory
      have hkeep : cur = c → 1 < inode.iCount := by
        rintro rfl
        obtain ⟨old, hold⟩ := h.inMemory
        have hcount := (h.calm.quiet cur old hold).2
        rw [FsState.fetch, inodeHashTable_setInode_self, hold, Option.some.injEq] at ht
        rw [← ht]
        simp only
        omega
      have hc' : InTree T dirs (s.fetch c) c :=
        ⟨hfetched.calm, hfetched.represents, hfetched.synced, hdir, n, hn⟩
      obtain ⟨x, hput, hdone⟩ := hc'.put h.isDir ht hkeep
      refine ⟨.silent c 0, _, ?_, hdone⟩
      rw [if_neg (not_not.mpr (htype.mpr hdir)), Program.run_bind hput, Program.pure_run]
    · refine ⟨.silent cur (-eNOTDIR), s, ?_, h⟩
      rw [if_pos (fun heq ↦ hdir (htype.mp heq)), Program.run_bind (testfsPutInode_fetch h.calm c),
        Program.pure_run]

/-- A command that prints nothing and changes nothing leaves the tree. -/
theorem InTree.silent (h : InTree T dirs s cur) {out : Outcome} {ret : ℤ}
    (hrun : (pure (.silent cur ret) : FsProgram Outcome).run s = .ok (out, t)) :
    InTree T dirs t out.curDir := by
  rw [Program.pure_run, Except.ok.injEq, Prod.mk.injEq] at hrun
  rw [← hrun.1, ← hrun.2]
  exact h

end Cd

end OperatingSystems.Fs
