import OperatingSystems.Fs.NameSpace

/-!
# Removing names

`cmd_rm` refuses and changes nothing, or it marks the record as free, removes the inode and writes
the current directory to disk (`Unlinked`); the directories are a tree again. Which of the two it is
depends on the directory and the inode only (`InTree.cmdRm_run`), because the record it writes over
needs no block.
-/

set_option autoImplicit false
set_option relaxedAutoImplicit false

namespace OperatingSystems.Fs

open Library Library.Machine

/-! ### Directories that may be removed -/

/-- No names but `.` and `..` are in use. -/
def OnlyDots (rs : List Record) : Prop :=
  ∀ r ∈ liveRecords rs, r.name = dot ∨ r.name = dotdot

/-- These are the directories in which no record keeps `testfs_remove_dirent_allowed` from
returning zero. -/
theorem find?_keeps_eq_none_iff {rs : List Record} :
    rs.find? Record.keeps = none ↔ OnlyDots rs := by
  rw [List.find?_eq_none]
  constructor
  · intro h r hr
    obtain ⟨hmem, hlive⟩ := List.mem_filter.mp hr
    have hkeep := h r hmem
    rw [Record.keeps, hlive] at hkeep
    by_contra hnot
    rw [not_or] at hnot
    simp [hnot.1, hnot.2] at hkeep
  · intro h r hr hkeep
    rw [Record.keeps, Bool.and_eq_true, Bool.and_eq_true] at hkeep
    rcases h r (List.mem_filter.mpr ⟨hr, hkeep.1.1⟩) with hname | hname
    · simp [hname] at hkeep
    · simp [hname] at hkeep

/-- An inode that owns the same and has the same type and size. -/
theorem Sound.dinode_congr {s t : FsState} {i : ℕ} (hs : Sound s) (ht : Sound t) (hi : i < nrInodes)
    (hown : t.own i = s.own i) (htype : (t.dinode i).iType = (s.dinode i).iType)
    (hsize : (t.dinode i).iSize = (s.dinode i).iSize) : t.dinode i = s.dinode i := by
  have hcount : (t.dinode i).blockCount = (s.dinode i).blockCount := by
    rw [hs.core.ledger.count_eq i hi, ht.core.ledger.count_eq i hi, hown]
  have hindirect : (t.dinode i).iIndirect = (s.dinode i).iIndirect := congrFun hown .indirect
  have hdindirect : (t.dinode i).iDindirect = (s.dinode i).iDindirect := congrFun hown .dindirect
  exact Dinode.ext htype (funext fun k ↦ congrFun hown (.direct k)) hindirect hdindirect hcount
    hsize

/-- The record of `name` in the directory was marked as free, the inode `c` removed, and the
directory written to disk. -/
structure Unlinked (dir c : ℕ) (name : CString) (rs : List Record) (s t : FsState) : Prop where
  sound : Sound t
  isDir : IsDir t dir (removeRecord name rs)
  own : t.own dir = s.own dir
  dinode : t.dinode dir = s.dinode dir
  disk : t.diskDinode dir = s.dinode dir
  inMemory : ∃ m m', s.inodeHashTable dir = some m ∧ t.inodeHashTable dir = some m' ∧
    m'.dirty = false ∧ m'.iCount = m.iCount
  zero : t.dinode c = Dinode.zero ∧ t.diskDinode c = Dinode.zero
  handle : t.inodeHashTable c = (s.inodeHashTable c).map fun m ↦ ⟨Dinode.zero, false, m.iCount⟩
  table : ∀ j, j ≠ c → j ≠ dir → t.inodeHashTable j = s.inodeHashTable j
  others : ∀ j < nrInodes, j ≠ c → j ≠ dir → t.diskDinode j = s.diskDinode j ∧
    t.own j = s.own j ∧ t.content j = s.content j
  inodeFreemap : t.inodeFreemap.allocated = s.inodeFreemap.allocated.erase c
  allocFailed : t.allocFailed = s.allocFailed
  maxFsBlocks : t.sb.maxFsBlocks = s.sb.maxFsBlocks

section Unlinked

variable {s t : FsState} {dir c : ℕ} {name : CString} {rs : List Record}

theorem Unlinked.others_dinode (h : Unlinked dir c name rs s t) {j : ℕ} (hj : j < nrInodes)
    (hc : j ≠ c) (hd : j ≠ dir) : t.dinode j = s.dinode j := by
  rw [FsState.dinode, FsState.dinode, h.table j hc hd, (h.others j hj hc hd).1]

/-- The removed inode owns nothing. -/
theorem Unlinked.own_zero (h : Unlinked dir c name rs s t) : t.own c = fun _ ↦ 0 := by
  funext σ
  rw [FsState.own, h.zero.1, slotVal_zero]

/-- No inode but the removed one owns more or less than before. -/
theorem Unlinked.own_of_ne (h : Unlinked dir c name rs s t) {j : ℕ} (hj : j < nrInodes)
    (hc : j ≠ c) : t.own j = s.own j := by
  by_cases hd : j = dir
  · rw [hd, h.own]
  · exact (h.others j hj hc hd).2.1

end Unlinked

/-! ### Removing -/

section Remove

variable {T : NameTree ℕ CString} {dirs : ℕ → List Record} {s t u v w : FsState} {cur c : ℕ}
  {name : CString} {r : Record}

/-- A directory in which only `.` and `..` are in use has no entries. -/
theorem Represents.leaf (h : Represents s T dirs) (hc : T.isDir c) (hdots : OnlyDots (dirs c))
    (m : CString) : T.entry c m = none := by
  by_cases hdot : m = dot
  · rw [hdot, (h.dots c hc).1]
  by_cases hdotdot : m = dotdot
  · rw [hdotdot, (h.dots c hc).2]
  · have hlook : lookup (dirs c) m = none := by
      rw [lookup_eq_none_iff]
      rintro r hr rfl
      exact (hdots r hr).elim hdot hdotdot
    rw [h.entry c hc m hdot hdotdot, Option.map_eq_none_iff] at hlook
    exact hlook

/-- The record of an entry. -/
theorem Represents.entry_of_find (h : Represents s T dirs) (hd : T.isDir cur)
    (hname : ¬ (name = dot ∨ name = dotdot))
    (hfind : (dirs cur).find? (Record.named name) = some r) :
    ∃ c : ℕ, r.nr = c ∧ T.entry cur name = some c := by
  have hlook : lookup (dirs cur) name = some r.nr := by rw [lookup, hfind, Option.map_some]
  rw [h.entry cur hd name (fun h ↦ hname (Or.inl h)) fun h ↦ hname (Or.inr h),
    Option.map_eq_some_iff] at hlook
  obtain ⟨c, hentry, hnr⟩ := hlook
  exact ⟨c, hnr.symm, hentry⟩

/-- `testfs_remove_dirent_allowed` of an inode of the tree refuses a directory in which other names
than `.` and `..` are in use. -/
theorem InTree.allowed (h : InTree T dirs s cur) (hc : T.present c) :
    (T.isDir c ∧ ¬ OnlyDots (dirs c)) ∧
      (testfsRemoveDirentAllowed c).run s = .ok (-eNOTEMPTY, s) ∨
    (T.isDir c → OnlyDots (dirs c)) ∧ (testfsRemoveDirentAllowed c).run s = .ok (0, s) := by
  have hlt := h.represents.bound c hc
  by_cases hdir : T.isDir c
  · have hrun := testfsRemoveDirentAllowed_dir h.calm hlt (h.represents.records c hdir)
    have hiff : (dirs c).find? Record.keeps = none ↔ OnlyDots (dirs c) := find?_keeps_eq_none_iff
    cases hkeeps : (dirs c).find? Record.keeps with
    | some r =>
      rw [hkeeps] at hrun hiff
      exact Or.inl ⟨⟨hdir, fun hdots ↦ absurd (hiff.mpr hdots) (by simp)⟩, hrun⟩
    | none =>
      rw [hkeeps] at hrun hiff
      exact Or.inr ⟨fun _ ↦ hiff.mp rfl, hrun⟩
  · have hfile : (s.dinode c).iType ≠ InodeType.dir.code :=
      fun htype ↦ hdir ((h.represents.isDir c).mpr ⟨hc, htype⟩)
    exact Or.inr ⟨fun hd ↦ absurd hd hdir,
      testfsRemoveDirentAllowed_file h.calm.core.layout hlt (h.calm.quiet c) hfile⟩

/-- The steps of `cmd_rm`: the record is written, the inode fetched and removed, and the directory
written to disk. -/
theorem InTree.unlink (h : InTree T dirs s cur) (hc : c < nrInodes) (hcur : cur ≠ c)
    {m m' n : Inode} (hmem : s.inodeHashTable cur = some m) (hw : Worked cur s u m m')
    (hown : u.own cur = s.own cur) (hflag : u.allocFailed = s.allocFailed)
    (hdir : IsDir u cur (removeRecord name (dirs cur))) (hv : v = u.setInode c (some n))
    (hcount : n.iCount = ((u.inodeHashTable c).map Inode.iCount).getD 0 + 1)
    (hr : Removed c n v w) (hflush : Flushed cur m' w t) :
    Unlinked cur c name (dirs cur) s t := by
  have hlt := h.represents.lt h.isDir
  have hfetched : Others c u v := hv ▸ others_setInode u c _
  have hothers : Others c u w := hfetched.trans hr.others
  have hlist : IsDir t cur (removeRecord name (dirs cur)) :=
    hdir.congr ((hflush.dinode cur hlt).trans (hothers.dinode hlt hcur))
      ((hflush.content cur hlt).trans (hothers.content cur hlt hcur))
  have hmine : t.own cur = s.own cur := by
    rw [hflush.own cur hlt, hothers.own cur hlt hcur, hown]
  have hdinode : t.dinode cur = s.dinode cur := by
    refine h.calm.toSound.dinode_congr hflush.sound hlt hmine ?_ ?_
    · rw [dinode_of_some hflush.inMemory, dinode_of_some hmem]
      exact hw.iType
    · rw [hlist.size, (h.represents.records cur h.isDir).size, length_removeRecord]
  refine ⟨hflush.sound, hlist, hmine, hdinode, ?_, ⟨m, _, hmem, hflush.inMemory, rfl, hw.iCount⟩,
    ⟨?_, ?_⟩, ?_, fun j hjc hjd ↦ ?_, fun j hj hjc hjd ↦ ⟨?_, ?_, ?_⟩, ?_, ?_, ?_⟩
  · rw [hflush.disk, ← hdinode, dinode_of_some hflush.inMemory]
  · rw [hflush.dinode c hc, hr.dinode]
  · rw [hflush.others.disk c hc hcur.symm, hr.disk]
  · rw [hw.others.table c hcur.symm] at hcount
    rw [hflush.others.table c hcur.symm, hr.inMemory, hcount, add_sub_cancel_right]
    cases htable : s.inodeHashTable c with
    | none => simp
    | some y =>
      have hquiet := (h.calm.quiet c y htable).2
      simp only [Option.map_some, Option.getD_some]
      rw [if_neg (by omega)]
  · rw [hflush.others.table j hjd, hothers.table j hjc, hw.others.table j hjd]
  · rw [hflush.others.disk j hj hjd, hothers.disk j hj hjc, hw.others.disk j hj hjd]
  · rw [hflush.own j hj, hothers.own j hj hjc, hw.others.own j hj hjd]
  · rw [hflush.content j hj, hothers.content j hj hjc, hw.others.content j hj hjd]
  · have hvmap : v.inodeFreemap = u.inodeFreemap := by rw [hv]; rfl
    rw [hflush.inodeFreemap, hr.inodeFreemap, hvmap, hw.inodeFreemap, Bitmap.allocated_put_false]
  · have hvflag : v.allocFailed = u.allocFailed := by rw [hv]; rfl
    rw [hflush.allocFailed, hr.allocFailed, hvflag, hflag]
  · rw [hflush.others.maxFsBlocks, hothers.maxFsBlocks, hw.others.maxFsBlocks]

/-- The records still fit when one was marked as free. -/
theorem RecordsFit.remove (h : RecordsFit T dirs) (hd : T.isDir cur)
    (hentry : T.entry cur name = some c) (hleaf : T.isDir c → ∀ m, T.entry c m = none) :
    RecordsFit (T.remove cur c name hd hentry hleaf)
      (Function.update dirs cur (removeRecord name (dirs cur))) := by
  constructor
  · rintro e ⟨he, -⟩ r hr
    by_cases hecur : e = cur
    · rw [hecur, Function.update_self] at hr
      obtain ⟨q, hq, hsize⟩ := exists_of_mem_removeRecord hr
      rw [← hsize]
      exact h.record cur hd q hq
    · rw [Function.update_of_ne hecur] at hr
      exact h.record e he r hr
  · rintro e ⟨he, -⟩
    by_cases hecur : e = cur
    · rw [hecur, Function.update_self, length_removeRecord]
      exact h.length cur hd
    · rw [Function.update_of_ne hecur]
      exact h.length e he

/-- After an entry was removed with its inode the directories are a tree. -/
theorem InTree.unlinked (h : InTree T dirs s cur) (hname : ¬ (name = dot ∨ name = dotdot))
    (hfind : (dirs cur).find? (Record.named name) = some r) (hentry : T.entry cur name = some c)
    (hdots : T.isDir c → OnlyDots (dirs c)) (hu : Unlinked cur c name (dirs cur) s t) :
    ∃ T' dirs', InTree T' dirs' t cur ∧ (RecordsFit T dirs → RecordsFit T' dirs') := by
  have hcur := T.entry_ne h.isDir hentry
  have hleaf : T.isDir c → ∀ m, T.entry c m = none :=
    fun hc ↦ h.represents.leaf hc (hdots hc)
  have hrep := h.represents.remove h.isDir hentry (fun h ↦ hname (Or.inl h))
    (fun h ↦ hname (Or.inr h)) hleaf hfind hu.inodeFreemap
    (fun j hj hjc hjd ↦ hu.others_dinode hj hjc hjd)
    (fun j hj hjc hjd ↦ (hu.others j hj hjc hjd).2.2) hu.isDir hu.zero.1 hcur
  obtain ⟨m, m', hmem, hmem', hclean, hcount⟩ := hu.inMemory
  refine ⟨_, _, ⟨⟨hu.sound, ?_⟩, hrep, ?_, ⟨h.isDir, hcur⟩, m', hmem'⟩,
    fun hfit ↦ hfit.remove h.isDir hentry hleaf⟩
  · intro j x hx
    by_cases hjd : j = cur
    · rw [hjd, hmem', Option.some.injEq] at hx
      rw [← hx, hcount]
      exact ⟨hclean, (h.calm.quiet cur m hmem).2⟩
    by_cases hjc : j = c
    · rw [hjc, hu.handle, Option.map_eq_some_iff] at hx
      obtain ⟨y, hy, rfl⟩ := hx
      exact ⟨rfl, (h.calm.quiet c y hy).2⟩
    · rw [hu.table j hjc hjd] at hx
      exact h.calm.quiet j x hx
  · rintro d ⟨hd, hdc⟩ x hx
    by_cases hdcur : d = cur
    · rw [hdcur] at hx ⊢
      rw [hu.disk, ← hu.dinode, dinode_of_some hx]
    · rw [hu.table d hdc hdcur] at hx
      rw [(hu.others d (h.represents.lt hd) hdc hdcur).1]
      exact h.synced d hd x hx

/-- `cmd_rm` of a name: it refuses and changes nothing, or it removes the name and its inode. It
refuses exactly if the name is `.` or `..`, is not in use, or is that of a directory in which other
names than `.` and `..` are in use. -/
theorem InTree.cmdRm_run (h : InTree T dirs s cur) (hfit : RecordsFit T dirs) (name : CString) :
    (∃ ret < 0, (cmdRm cur [name]).run s = .ok (.silent cur ret, s) ∧
      ((name = dot ∨ name = dotdot) ∨ lookup (dirs cur) name = none ∨
        ∃ c : ℕ, lookup (dirs cur) name = some (c : ℤ) ∧ T.isDir c ∧ ¬ OnlyDots (dirs c))) ∨
    ∃ (c : ℕ) (t : FsState), (cmdRm cur [name]).run s = .ok (.silent cur 0, t) ∧
      ¬ (name = dot ∨ name = dotdot) ∧ lookup (dirs cur) name = some (c : ℤ) ∧
      T.entry cur name = some c ∧ (T.isDir c → OnlyDots (dirs c)) ∧
      Unlinked cur c name (dirs cur) s t ∧
      ∃ T' dirs', InTree T' dirs' t cur ∧ RecordsFit T' dirs' := by
  obtain ⟨m, hmem⟩ := h.inMemory
  have hrecords := h.represents.records cur h.isDir
  rw [cmdRm]
  by_cases hname : name = dot ∨ name = dotdot
  · refine Or.inl ⟨-eINVAL, by decide, ?_, Or.inl hname⟩
    rw [Program.run_bind (testfsRemoveDirent_dots hname s), if_pos (by decide), Program.pure_run]
  cases hfind : (dirs cur).find? (Record.named name) with
  | none =>
    refine Or.inl ⟨-eNOENT, by decide, ?_, Or.inr (Or.inl ?_)⟩
    · rw [Program.run_bind (testfsRemoveDirent_missing h.calm.toSound hmem hrecords hname hfind),
        if_pos (by decide), Program.pure_run]
    · rw [lookup, hfind, Option.map_none]
  | some r =>
    obtain ⟨c, hnr, hentry⟩ := h.represents.entry_of_find h.isDir hname hfind
    have hlook : lookup (dirs cur) name = some (c : ℤ) := by
      rw [lookup, hfind, Option.map_some, hnr]
    have hpresent := (T.entry_present h.isDir hentry).1
    have hclt := h.represents.bound c hpresent
    have hcur := T.entry_ne h.isDir hentry
    have hnat : r.nr.toNat = c := by rw [hnr, Int.toNat_natCast]
    rcases h.allowed hpresent with ⟨⟨hdir, hkept⟩, hrefused⟩ | ⟨hdots, hallowed⟩
    · refine Or.inl ⟨-eNOTEMPTY, by decide, ?_, Or.inr (Or.inr ⟨c, hlook, hdir, hkept⟩)⟩
      rw [← hnat] at hrefused
      rw [Program.run_bind (testfsRemoveDirent_refused h.calm.toSound hmem hrecords hname hfind
        (by decide) hrefused), if_pos (by decide), Program.pure_run]
    rw [← hnat] at hallowed
    obtain ⟨u, m', hremove, hw, hown, hdir⟩ :=
      testfsRemoveDirent_done h.calm.toSound hmem hrecords hname
        (hfit.record cur h.isDir r (List.mem_of_find?_eq_some hfind)) hfind le_rfl hallowed
    obtain ⟨v, x, hget, hv, hvsound, -, hcount, -⟩ := hw.sound.getInode hclt
    have hvmem : v.inodeHashTable c = some x := by rw [hv, inodeHashTable_setInode_self]
    have hvset : v.inodeFreemap.bit c = true := by
      have hvmap : v.inodeFreemap = s.inodeFreemap := by rw [hv]; exact hw.inodeFreemap
      rw [hvmap]
      exact (Bitmap.mem_allocated.mp ((h.represents.present c).mp hpresent)).2
    obtain ⟨w, hrm, hr⟩ := hvsound.remove hvmem hvset
    have hwmem : w.inodeHashTable cur = some m' := by
      rw [hr.others.table cur hcur, hv, inodeHashTable_setInode_of_ne _ _ hcur, hw.inMemory]
    obtain ⟨t, hsync, hflush⟩ := hr.sound.flush hwmem (hw.complete rfl).2
    have hu := h.unlink hclt hcur hmem hw.worked hown (hw.flag rfl) hdir hv hcount hr hflush
    obtain ⟨T', dirs', htree, hfit'⟩ := h.unlinked hname hfind hentry hdots hu
    refine Or.inr ⟨c, t, ?_, hname, hlook, hentry, hdots, hu, T', dirs', htree, hfit' hfit⟩
    rw [Program.run_bind hremove, hnr, if_neg (not_lt.mpr (Int.natCast_nonneg c)),
      Int.toNat_natCast, Program.run_bind hget, Program.run_bind hrm, Program.run_bind hsync,
      Program.pure_run]

/-- `cmd_rm`. -/
theorem InTree.cmdRm (h : InTree T dirs s cur) (hfit : RecordsFit T dirs) (args : List CString) :
    ∃ out t, (cmdRm cur args).run s = .ok (out, t) ∧
      ∃ T' dirs', InTree T' dirs' t out.curDir ∧ RecordsFit T' dirs' := by
  match args with
  | [] => exact ⟨_, s, rfl, T, dirs, h, hfit⟩
  | _ :: _ :: _ => exact ⟨_, s, rfl, T, dirs, h, hfit⟩
  | [name] =>
    rcases h.cmdRm_run hfit name with ⟨ret, -, hrun, -⟩ | ⟨c, t, hrun, -, -, -, -, -, hdone⟩
    · exact ⟨_, s, hrun, T, dirs, h, hfit⟩
    · exact ⟨_, t, hrun, hdone⟩

end Remove

end OperatingSystems.Fs
