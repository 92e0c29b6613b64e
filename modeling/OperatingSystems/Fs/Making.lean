import OperatingSystems.Fs.NameSpace

/-!
# Making files and directories

`testfs_create_file_or_dir` makes an inode, fills it if it is that of a directory, and enters it in
the current directory. When it fails it removes the inode again, and this leaves everything as it
was (`InTree.undo_unchanged`) unless part of the record, or all of it, is in the directory by then.
`Spoiled` is this case, and `RoomToEnter` tells beforehand when it happens.
-/

set_option autoImplicit false
set_option relaxedAutoImplicit false

namespace OperatingSystems.Fs

open Library Library.Machine

/-! ### Creating -/

section Create

variable {T : NameTree ℕ CString} {dirs : ℕ → List Record} {s t u v : FsState} {cur c : ℕ}
  {type : InodeType} {inode inode' : Inode}

/-- Nothing has changed when there was no inode number. -/
theorem InTree.notCreated (h : InTree T dirs s cur) (hn : NotCreated s t) :
    InTree T dirs t cur := by
  have htable : ∀ j, t.inodeHashTable j = s.inodeHashTable j :=
    fun j ↦ (hn.others (j + 1)).table j (by omega)
  refine ⟨⟨hn.sound, fun j m hm ↦ h.calm.quiet j m (by rwa [htable j] at hm)⟩,
    h.represents.of_dinode (by rw [hn.inodeFreemap]) (fun j hj ↦ (hn.others (j + 1)).dinode hj
      (by omega))
      fun j hj ↦ (hn.others (j + 1)).content j hj (by omega), ?_, h.isDir, ?_⟩
  · intro d hd m hm
    rw [htable d] at hm
    rw [(hn.others (d + 1)).disk d (h.represents.lt hd) (by omega)]
    exact h.synced d hd m hm
  · rw [htable cur]
    exact h.inMemory

/-- A new inode is not in the tree yet. -/
theorem InTree.not_present (h : InTree T dirs s cur) (hc : Created type s u c inode) :
    ¬ T.present c := by
  rw [h.represents.present, Bitmap.mem_allocated, hc.clear]
  simp

theorem Created.iCount_pos (h : Calm s) (hc : Created type s u c inode) : 1 ≤ inode.iCount := by
  rw [hc.inode]
  cases ht : s.inodeHashTable c with
  | none => simp
  | some m =>
    have hcount := (h.quiet c m ht).2
    simp only [Option.map_some, Option.getD_some]
    omega

/-- Making an inode takes no block. -/
theorem InTree.room_created (h : InTree T dirs s cur) (hc : Created type s u c inode) :
    u.room = s.room := by
  have hown : ∀ j < nrInodes, u.own j = s.own j := by
    intro j hj
    by_cases hjc : j = c
    · rw [hjc, hc.own]
    · exact hc.others.own j hj hjc
  refine room_of_used (k := 0) hc.sound hc.others.maxFsBlocks ?_
  rw [add_zero, hc.sound.core.used, h.calm.core.used,
    h.calm.core.allocated_congr hc.sound.core hown]

/-- The new inode is filled if it is a directory. -/
theorem InTree.fill (h : InTree T dirs s cur) (hc : Created type s u c inode) (name : CString)
    (hlt : cur < nrInodes) :
    ∃ failure v inode', (fillNewInode (some (cur, name)) type c).run u = .ok (failure.getD 0, v) ∧
      Worked c u v inode inode' ∧
      (failure = none → (type = .dir → IsDir v c (emptyDir c cur hc.lt hlt)) ∧
        inode'.dirty = true ∧ (type ≠ .dir → v = u)) ∧
      ∀ ret, failure = some ret → ret < 0 ∧ s.room < type.blocks := by
  have hzero := h.represents.free c hc.lt (h.not_present hc)
  by_cases hdir : type = .dir
  · subst hdir
    obtain ⟨failure, v, inode', hrun, hworked, hdone, hfail⟩ :=
      testfsCreateEmptyDir_run hc.sound hc.inMemory (hc.isDir hzero) hc.lt hlt
    refine ⟨failure, v, inode', hrun, hworked,
      fun hnone ↦ ⟨fun _ ↦ (hdone hnone).1, (hdone hnone).2.1, fun hne ↦ absurd rfl hne⟩,
        fun ret hret ↦ ⟨(hfail ret hret).1, ?_⟩⟩
    rw [← h.room_created hc, hc.sound.core.full_iff.mp (hfail ret hret).2.2]
    exact Nat.one_pos
  · refine ⟨none, u, inode, ?_, ⟨hc.sound, Others.refl c u, hc.inMemory, rfl, rfl, rfl, rfl⟩,
      fun _ ↦ ⟨fun htype ↦ absurd htype hdir, by rw [hc.inode], fun _ ↦ rfl⟩, by simp⟩
    rw [fillNewInode, if_neg hdir, Program.pure_run, Option.getD_none]

/-- The new inode could not be entered and was removed. -/
theorem InTree.undo (h : InTree T dirs s cur) (hc : Created type s u c inode)
    (hw : Worked c u v inode inode') (hr : Removed c inode' v t) : InTree T dirs t cur := by
  have hnot := h.not_present hc
  have hne : ∀ {d}, T.isDir d → d ≠ c := fun hd heq ↦ hnot (heq ▸ T.present_of_isDir hd)
  have hothers : Others c s t := (hc.others.trans hw.others).trans hr.others
  have hzero := h.represents.free c hc.lt hnot
  have hdinode : ∀ j < nrInodes, t.dinode j = s.dinode j := by
    intro j hj
    by_cases hjc : j = c
    · rw [hjc, hr.dinode, hzero]
    · exact hothers.dinode hj hjc
  have hcontent : ∀ d, T.isDir d → t.content d = s.content d :=
    fun d hd ↦ hothers.content d (h.represents.lt hd) (hne hd)
  have halloc : t.inodeFreemap.allocated = s.inodeFreemap.allocated := by
    rw [hr.inodeFreemap, hw.inodeFreemap, hc.inodeFreemap, Bitmap.put_put_of_bit hc.clear]
  refine ⟨⟨hr.sound, ?_⟩, h.represents.congr halloc
    (fun i hi ↦ by rw [hdinode i (h.represents.bound i hi)])
    (fun d hd ↦ hdinode d (h.represents.lt hd)) hcontent
    fun i hi hfree ↦ by rw [hdinode i hi, h.represents.free i hi hfree], ?_, h.isDir, ?_⟩
  · intro j m hm
    by_cases hjc : j = c
    · have hpos := hc.iCount_pos h.calm
      rw [← hw.iCount] at hpos
      rw [hjc, hr.inMemory] at hm
      split_ifs at hm with hlast
      obtain rfl := Option.some.inj hm
      exact ⟨rfl, by simp only; omega⟩
    · rw [hothers.table j hjc] at hm
      exact h.calm.quiet j m hm
  · intro d hd m hm
    rw [hothers.table d (hne hd)] at hm
    rw [hothers.disk d (h.represents.lt hd) (hne hd)]
    exact h.synced d hd m hm
  · rw [hothers.table cur (hne h.isDir)]
    exact h.inMemory

/-- The removal has left everything as it was. -/
theorem InTree.undo_unchanged (h : InTree T dirs s cur) (hc : Created type s u c inode)
    (hw : Worked c u v inode inode') (hr : Removed c inode' v t) : Unchanged s t := by
  have hothers : Others c s t := (hc.others.trans hw.others).trans hr.others
  have hzero := h.represents.free c hc.lt (h.not_present hc)
  have hnothing : s.own c = fun _ ↦ 0 := by
    funext σ
    rw [FsState.own, hzero, slotVal_zero]
  have hnot : ∀ j ∈ s.inodeFreemap.allocated, j ≠ c := by
    rintro j hj rfl
    exact h.not_present hc ((h.represents.present j).mpr hj)
  refine h.calm.toSound.unchanged hr.sound ?_ (fun j hj ↦ ?_) (fun j hj ↦ ?_) (fun j hj ↦ ?_)
    (fun j hj ↦ ?_) ?_
  · funext j
    by_cases hjc : j = c
    · rw [hjc, hr.inMemory, hw.iCount, hc.inode]
      cases hmem : s.inodeHashTable c with
      | none => rfl
      | some m =>
        obtain ⟨hclean, hcount⟩ := h.calm.quiet c m hmem
        rw [dinode_of_some hmem] at hzero
        simp only [Option.map_some, Option.getD_some, add_sub_cancel_right]
        rw [if_neg (by omega), ← hclean, ← hzero]
    · exact hothers.table j hjc
  · by_cases hjc : j = c
    · rw [hjc, hr.dinode, hzero]
    · exact hothers.dinode hj hjc
  · exact hothers.disk j (h.represents.bound j ((h.represents.present j).mpr hj)) (hnot j hj)
  · by_cases hjc : j = c
    · rw [hjc, hr.own, hnothing]
    · exact hothers.own j hj hjc
  · by_cases hjc : j = c
    · rw [hjc, hr.content]
      funext o
      rw [FsState.content, hnothing, if_neg fun hand ↦ hand.2 rfl]
    · exact hothers.content j hj hjc
  · rw [hr.inodeFreemap, hw.inodeFreemap, hc.inodeFreemap, Bitmap.put_put_of_bit hc.clear]

/-- The blocks that are left when the new inode is filled. -/
theorem InTree.room_filled (h : InTree T dirs s cur) (hc : Created type s u c inode)
    (hw : Worked c u v inode inode') (hlt : cur < nrInodes)
    (hfilled : type = .dir → IsDir v c (emptyDir c cur hc.lt hlt)) (hkept : type ≠ .dir → v = u) :
    v.room + type.blocks = s.room := by
  have hzero := h.represents.free c hc.lt (h.not_present hc)
  have hnothing : s.own c = fun _ ↦ 0 := by
    funext σ
    rw [FsState.own, hzero, slotVal_zero]
  have hothers : Others c s v := hc.others.trans hw.others
  by_cases hdir : type = .dir
  · have hisDir := hfilled hdir
    have hlen := length_emptyDir hc.lt hlt
    rw [InodeType.blocks, if_pos hdir]
    refine room_of_used hw.sound hothers.maxFsBlocks ?_
    refine used_add_one (σ := Slot.ofLog 0) h.calm.toSound hw.sound hothers hc.lt hnothing fun τ ↦
      ⟨?_, ?_⟩
    · intro hτ
      have hwithin := (hw.sound.extent c hc.lt).within τ hτ
      rw [hisDir.size, hlen] at hwithin
      refine Slot.eq_ofLog_zero ?_
      simp only [blockSize] at hwithin
      omega
    · rintro rfl
      exact own_of_isDir hw.sound hc.lt hisDir (by rw [hlen]; decide) (by rw [hlen]; decide)
  · rw [InodeType.blocks, if_neg hdir, add_zero, hkept hdir, h.room_created hc]

/-- The records still fit when a new one fits and its place is below `2^31`. -/
theorem RecordsFit.add (h : RecordsFit T dirs) {d : ℕ} (hd : T.isDir d) {name : CString}
    (hentry : T.entry d name = none) (hnot : ¬ T.present c) (asDir : Prop) {new : Record}
    (hsize : new.size < 2 ^ 31)
    (hplace : (encodeDir ((dirs d).takeWhile fun r ↦ !r.stopsAdd new.name)).length < 2 ^ 31)
    (hc : c < nrInodes) (hlt : d < nrInodes) :
    RecordsFit (T.add d c name asDir hd hentry hnot)
      (Function.update (Function.update dirs d (insertRecord new (dirs d))) c
        (emptyDir c d hc hlt)) := by
  have hinserted : ∀ r ∈ insertRecord new (dirs d), r.size < 2 ^ 31 := by
    intro r hr
    rcases mem_insertRecord_or hr with rfl | hold
    · exact hsize
    · exact h.record d hd r hold
  have hlength : (encodeDir (insertRecord new (dirs d))).length < 2 ^ 32 := by
    have hmax := length_insertRecord_le_max new (dirs d)
    have hold := h.length d hd
    omega
  constructor
  · intro e he r hr
    by_cases hec : e = c
    · rw [hec, Function.update_self] at hr
      refine lt_of_le_of_lt (size_le_encodeDir hr) ?_
      rw [length_emptyDir]
      decide
    rw [Function.update_of_ne hec] at hr
    have he' : T.isDir e := he.resolve_right fun hand ↦ hec hand.2
    by_cases hed : e = d
    · rw [hed, Function.update_self] at hr
      exact hinserted r hr
    · rw [Function.update_of_ne hed] at hr
      exact h.record e he' r hr
  · intro e he
    by_cases hec : e = c
    · rw [hec, Function.update_self, length_emptyDir]
      decide
    rw [Function.update_of_ne hec]
    have he' : T.isDir e := he.resolve_right fun hand ↦ hec hand.2
    by_cases hed : e = d
    · rw [hed, Function.update_self]
      exact hlength
    · rw [Function.update_of_ne hed]
      exact h.length e he'

/-- The new inode was entered in the current directory and both were written to disk. -/
theorem InTree.entered (h : InTree T dirs s cur) (hc : Created type s u c inode)
    (hw : Worked c u v inode inode') (hlt : cur < nrInodes)
    (hfilled : type = .dir → IsDir v c (emptyDir c cur hc.lt hlt)) {name : CString}
    (hname : name.length + 1 < 2 ^ 31) (hnone : lookup (dirs cur) name = none) {m m' : Inode}
    {w x : FsState} (hmem : s.inodeHashTable cur = some m)
    (hadd : Added cur (dirs cur) (recordFor c name hc.lt hname) m v none w m')
    (hflush : Flushed cur m' w x) (hdrop : Dropped c inode' x t) :
    ∃ T' dirs', InTree T' dirs' t cur ∧ lookup (dirs' cur) name = some (c : ℤ) ∧
      (RecordsFit T dirs → (recordFor c name hc.lt hname).size < 2 ^ 31 →
        (encodeDir ((dirs cur).takeWhile fun r ↦ !r.stopsAdd name)).length < 2 ^ 31 →
        RecordsFit T' dirs') := by
  have hnot := h.not_present hc
  have hne : ∀ {d}, T.isDir d → d ≠ c := fun hd heq ↦ hnot (heq ▸ T.present_of_isDir hd)
  have hcur := hne h.isDir
  have hdot : name ≠ dot := by
    rintro rfl
    rw [h.represents.self cur h.isDir] at hnone
    exact absurd hnone (by simp)
  have hdotdot : name ≠ dotdot := by
    rintro rfl
    rw [h.represents.parent cur h.isDir] at hnone
    exact absurd hnone (by simp)
  have hentry : T.entry cur name = none := by
    rw [h.represents.entry cur h.isDir name hdot hdotdot, Option.map_eq_none_iff] at hnone
    exact hnone
  have hwork := hadd.worked
  have hmade : Others c s v := hc.others.trans hw.others
  have hbits : c < s.inodeFreemap.nbits := by
    rw [h.calm.core.layout.inodeBits]
    exact lt_of_lt_of_le hc.lt (by decide)
  have halloc : t.inodeFreemap.allocated = insert c s.inodeFreemap.allocated := by
    rw [hdrop.inodeFreemap, hflush.inodeFreemap, hwork.inodeFreemap, hw.inodeFreemap,
      hc.inodeFreemap, Bitmap.allocated_put_true hbits]
  have hdinode : ∀ j < nrInodes, t.dinode j = w.dinode j :=
    fun j hj ↦ (hdrop.dinode j hj).trans (hflush.dinode j hj)
  have hcontent : ∀ j < nrInodes, t.content j = w.content j :=
    fun j hj ↦ (hdrop.content j hj).trans (hflush.content j hj)
  have htype : (t.dinode c).iType = type.code := by
    rw [hdinode c hc.lt, hwork.others.dinode hc.lt hcur.symm, dinode_of_some hw.inMemory, hw.iType,
      hc.inode]
  have hdir : IsDir t cur (insertRecord (recordFor c name hc.lt hname) (dirs cur)) :=
    (hadd.isDir rfl).congr (hdinode cur hlt) (hcontent cur hlt)
  have hnew : type = .dir → IsDir t c (emptyDir c cur hc.lt (h.represents.lt h.isDir)) :=
    fun htype ↦
    (hfilled htype).congr ((hdinode c hc.lt).trans (hwork.others.dinode hc.lt hcur.symm))
      ((hcontent c hc.lt).trans (hwork.others.content c hc.lt hcur.symm))
  have hrep := h.represents.add type h.isDir hentry hdot hdotdot hc.lt hnot hname halloc
    (fun j hj hjc hjd ↦ by rw [hdinode j hj, hwork.others.dinode hj hjd, hmade.dinode hj hjc])
    (fun j hj hjc hjd ↦ by
      rw [hcontent j hj, hwork.others.content j hj hjd, hmade.content j hj hjc]) hdir htype hnew
  have htableCur : t.inodeHashTable cur = some { m' with dirty := false } := by
    rw [hdrop.others.table cur hcur, hflush.inMemory]
  have htable : ∀ j, j ≠ c → j ≠ cur → t.inodeHashTable j = s.inodeHashTable j := fun j hjc hjd ↦ by
    rw [hdrop.others.table j hjc, hflush.others.table j hjd, hwork.others.table j hjd,
      hmade.table j hjc]
  have hdisk : ∀ j < nrInodes, j ≠ c → j ≠ cur → t.diskDinode j = s.diskDinode j :=
    fun j hj hjc hjd ↦ by
    rw [hdrop.others.disk j hj hjc, hflush.others.disk j hj hjd, hwork.others.disk j hj hjd,
      hmade.disk j hj hjc]
  have hcount : 1 ≤ inode'.iCount := by
    rw [hw.iCount]
    exact hc.iCount_pos h.calm
  have hlook : lookup (insertRecord (recordFor c name hc.lt hname) (dirs cur)) name =
      some (c : ℤ) :=
    (lookup_insertRecord (live_recordFor (c := c) hc.lt hname)
      (h.represents.distinct cur h.isDir) hnone name).trans (if_pos rfl)
  refine ⟨_, _, ⟨⟨hdrop.sound, ?_⟩, hrep, ?_, Or.inl h.isDir, _, htableCur⟩, ?_, ?_⟩
  · intro j n hn
    by_cases hjc : j = c
    · rw [hjc, hdrop.inMemory] at hn
      split_ifs at hn with hlast
      obtain rfl := Option.some.inj hn
      exact ⟨rfl, by simp only; omega⟩
    by_cases hjd : j = cur
    · rw [hjd, htableCur] at hn
      obtain rfl := Option.some.inj hn
      have hquiet := (h.calm.quiet cur m hmem).2
      exact ⟨rfl, by rw [← hwork.iCount] at hquiet; exact hquiet⟩
    · rw [htable j hjc hjd] at hn
      exact h.calm.quiet j n hn
  · intro d hd n hn
    by_cases hdc : d = c
    · rw [hdc, hdrop.inMemory] at hn
      split_ifs at hn with hlast
      obtain rfl := Option.some.inj hn
      rw [hdc, hdrop.disk]
    by_cases hdcur : d = cur
    · rw [hdcur, htableCur] at hn
      obtain rfl := Option.some.inj hn
      rw [hdcur, hdrop.others.disk cur hlt hcur, hflush.disk]
    · have hd' : T.isDir d := hd.resolve_right fun hand ↦ hdc hand.2
      rw [htable d hdc hdcur] at hn
      rw [hdisk d (h.represents.lt hd') hdc hdcur]
      exact h.synced d hd' n hn
  · rw [Function.update_of_ne hcur, Function.update_self]
    exact hlook
  · intro hfit hsize hplace
    exact hfit.add h.isDir hentry hnot (type = .dir) hsize hplace hc.lt hlt

/-- A name that is not in use does not exist yet. -/
theorem InTree.nameExists_run (h : InTree T dirs s cur) {name : CString}
    (hnone : lookup (dirs cur) name = none) :
    (nameExists (some (cur, name))).run s = .ok (false, s) := by
  rcases h.find_run name with ⟨d, hsome, -⟩ | ⟨-, hfound⟩
  · rw [hnone] at hsome
    exact absurd hsome (by simp)
  · rw [nameExists, Program.run_bind hfound, Program.pure_run]
    rfl

/-- The new inode is filled, but it is not entered, and `testfs_create_file_or_dir` removes it. -/
theorem InTree.refused_run (h : InTree T dirs s cur) {name : CString}
    (hnone : lookup (dirs cur) name = none)
    (hcreate : (testfsCreateInode type).run s = .ok ((0, c), u))
    (hfill : (fillNewInode (some (cur, name)) type c).run u = .ok (0, v)) {ret : ℤ} {w : FsState}
    (hadd : (testfsAddDirent cur name c).run v = .ok (ret, w)) (hneg : ret < 0)
    (hremove : (testfsRemoveInode c).run w = .ok ((), t)) :
    (testfsCreateFileOrDir (some (cur, name)) type).run s = .ok (ret, t) := by
  have henter : (enterNewInode (some (cur, name)) c).run v = .ok (ret, w) := by
    rw [enterNewInode, Program.run_bind hadd, if_pos hneg, Program.pure_run]
  rw [testfsCreateFileOrDir, Program.run_bind (h.nameExists_run hnone),
    if_neg Bool.false_ne_true, Program.run_bind hcreate]
  simp only [lt_irrefl, if_false]
  rw [Program.run_bind hfill, if_neg (lt_irrefl 0), Program.run_bind henter, if_pos hneg,
    Program.run_bind hremove, Program.pure_run]

/-- The new inode is filled and entered, and `testfs_create_file_or_dir` returns. -/
theorem InTree.enter_run (h : InTree T dirs s cur) {name : CString}
    (hnone : lookup (dirs cur) name = none)
    (hcreate : (testfsCreateInode type).run s = .ok ((0, c), u)) (hc : Created type s u c inode)
    (hfill : (fillNewInode (some (cur, name)) type c).run u = .ok (0, v))
    (hw : Worked c u v inode inode') (hdirty : inode'.dirty = true) (hlt : cur < nrInodes)
    (hfilled : type = .dir → IsDir v c (emptyDir c cur hc.lt hlt))
    (hname : name.length + 1 < 2 ^ 31) {m m' : Inode} {w : FsState}
    (hmem : s.inodeHashTable cur = some m)
    (hadd : (testfsAddDirent cur name c).run v =
      .ok (toInt32 (recordFor c name hc.lt hname).size, w))
    (hadded : Added cur (dirs cur) (recordFor c name hc.lt hname) m v none w m')
    (hfits : (recordFor c name hc.lt hname).size < 2 ^ 31) :
    ∃ t, (testfsCreateFileOrDir (some (cur, name)) type).run s = .ok (0, t) ∧
      (∃ T' dirs', InTree T' dirs' t cur ∧ lookup (dirs' cur) name = some (c : ℤ) ∧
        (RecordsFit T dirs → (recordFor c name hc.lt hname).size < 2 ^ 31 →
          (encodeDir ((dirs cur).takeWhile fun r ↦ !r.stopsAdd name)).length < 2 ^ 31 →
          RecordsFit T' dirs')) ∧
      (t.dinode c).iType = type.code ∧ t.own c = v.own c ∧
      t.sb.maxFsBlocks = s.sb.maxFsBlocks ∧ t.allocFailed = v.allocFailed ∧
      IsDir t cur (insertRecord (recordFor c name hc.lt hname) (dirs cur)) ∧
      ∀ d ∈ t.inodeFreemap.allocated, d ≠ c → d ≠ cur →
        d ∈ s.inodeFreemap.allocated ∧ t.dinode d = s.dinode d := by
  have hcur : cur ≠ c := fun heq ↦ h.not_present hc (heq ▸ T.present_of_isDir h.isDir)
  have hwork := hadded.worked
  obtain ⟨start, n, hwritten, -⟩ := hadded.written
  have hwmem : w.inodeHashTable c = some inode' := by
    rw [hwork.others.table c hcur.symm, hw.inMemory]
  obtain ⟨x, hsync, hflushed⟩ := hwork.sound.flush hwork.inMemory (hwritten.complete rfl).2
  have hxmem : x.inodeHashTable c = some inode' := by
    rw [hflushed.others.table c hcur.symm, hwmem]
  obtain ⟨y, t, hsync', hput, hdropped⟩ := hflushed.sound.syncPut hxmem hdirty
  have hnonneg : ¬ toInt32 ((recordFor c name hc.lt hname).size : ℤ) < 0 := by
    rw [toInt32_of_range (by omega) (by omega)]
    exact not_lt.mpr (Int.natCast_nonneg _)
  have henter : (enterNewInode (some (cur, name)) c).run v =
      .ok (toInt32 ((recordFor c name hc.lt hname).size : ℤ), x) := by
    rw [enterNewInode, Program.run_bind hadd, if_neg hnonneg, Program.run_bind hsync,
      Program.pure_run]
  refine ⟨t, ?_, h.entered hc hw hlt hfilled hname hnone hmem hadded hflushed hdropped, ?_, ?_, ?_,
    ?_, ?_, ?_⟩
  · rw [testfsCreateFileOrDir, Program.run_bind (h.nameExists_run hnone),
      if_neg Bool.false_ne_true, Program.run_bind hcreate]
    simp only [lt_irrefl, if_false]
    rw [Program.run_bind hfill, if_neg (lt_irrefl 0), Program.run_bind henter, if_neg hnonneg,
      Program.run_bind hsync', Program.run_bind hput, Program.pure_run]
  · rw [hdropped.dinode c hc.lt, hflushed.dinode c hc.lt, hwork.others.dinode hc.lt hcur.symm,
      dinode_of_some hw.inMemory, hw.iType, hc.inode]
  · rw [hdropped.own c hc.lt, hflushed.own c hc.lt, hwork.others.own c hc.lt hcur.symm]
  · rw [hdropped.others.maxFsBlocks, hflushed.others.maxFsBlocks, hwork.others.maxFsBlocks,
      hw.others.maxFsBlocks, hc.others.maxFsBlocks]
  · rw [hdropped.allocFailed, hflushed.allocFailed, hwritten.flag rfl]
  · exact (hadded.isDir rfl).congr ((hdropped.dinode cur hlt).trans (hflushed.dinode cur hlt))
      ((hdropped.content cur hlt).trans (hflushed.content cur hlt))
  · intro d hd hdc hdcur
    have hbits : c < s.inodeFreemap.nbits := by
      rw [h.calm.core.layout.inodeBits]
      exact lt_of_lt_of_le hc.lt (by decide)
    rw [hdropped.inodeFreemap, hflushed.inodeFreemap, hwork.inodeFreemap, hw.inodeFreemap,
      hc.inodeFreemap, Bitmap.allocated_put_true hbits, Finset.mem_insert] at hd
    have hold := hd.resolve_left hdc
    have hdlt := h.represents.bound d ((h.represents.present d).mpr hold)
    refine ⟨hold, ?_⟩
    rw [hdropped.dinode d hdlt, hflushed.dinode d hdlt, hwork.others.dinode hdlt hdcur,
      hw.others.dinode hdlt hdc, hc.others.dinode hdlt hdc]

theorem mem_insertRecord (new : Record) (rs : List Record) : new ∈ insertRecord new rs := by
  induction rs with
  | nil => exact List.mem_singleton_self new
  | cons r rs ih =>
    rw [insertRecord]
    split_ifs
    · exact List.mem_cons_self
    · exact List.mem_cons_of_mem r ih

theorem length_insertRecord_le (new : Record) (rs : List Record) :
    (encodeDir (insertRecord new rs)).length ≤ (encodeDir rs).length + new.size := by
  have hplace := length_takeWhile_le rs fun r ↦ !r.stopsAdd new.name
  refine (length_insertRecord_le_max new rs).trans (max_le (Nat.le_add_right _ _) ?_)
  exact Nat.add_le_add_right hplace _

/-- The record of a new name that is not entered as a whole, or whose size does not fit an `int`:
there is an inode for it, but `RoomToEnter` fails. -/
structure Spoils (s : FsState) (dir : ℕ) (rs : List Record) (name : CString) (type : InodeType) :
    Prop where
  unused : lookup rs name = none
  fits : name.length + 1 < 2 ^ 31
  free : ∃ i < nrInodes, s.inodeFreemap.bit i = false
  noRoom : ¬ RoomToEnter s dir (encodeDir (rs.takeWhile fun r ↦ !r.stopsAdd name)).length
    (direntSize + name.length + 1) type

/-- A record was entered in the directory whose size does not fit an `int`, and its inode was
removed. -/
structure Overlong (t : FsState) (dir : ℕ) (rs : List Record) (name : CString) : Prop where
  long : 2 ^ 31 ≤ direntSize + name.length + 1
  sound : Sound t
  entered : ∃ (c : ℕ) (hc : c < nrInodes) (hname : name.length + 1 < 2 ^ 31),
    IsDir t dir (insertRecord (recordFor c name hc hname) rs) ∧ t.dinode c = Dinode.zero
  inMemory : ∃ inode, t.inodeHashTable dir = some inode
  quiet : ∀ j ≠ dir, ∀ inode, t.inodeHashTable j = some inode →
    inode.dirty = false ∧ 1 ≤ inode.iCount
  inUse : dir ∈ t.inodeFreemap.allocated

/-- Such a record has changed the directory: an allocation has failed, or the record is overlong. -/
structure Spoiled (s t : FsState) (dir : ℕ) (rs : List Record) (name : CString) (type : InodeType) :
    Prop where
  spoils : Spoils s dir rs name type
  changed : ¬ Unchanged s t
  shows : t.allocFailed = true ∨ Overlong t dir rs name

theorem Overlong.not_dirsSmall {rs : List Record} {name : CString} (h : Overlong t cur rs name) :
    ¬ DirsSmall t := by
  obtain ⟨c', hc', hname, hdir, -⟩ := h.entered
  intro hsmall
  have hlong := h.long
  have hcur := hsmall cur h.inUse hdir.type
  rw [hdir.size] at hcur
  have hle := size_le_encodeDir (mem_insertRecord (recordFor c' name hc' hname) rs)
  rw [size_recordFor] at hle
  omega

/-- A new record changes the directory. -/
theorem not_unchanged_of_entered {rs : List Record} {new : Record} (hlive : new.live = true)
    (hnone : lookup rs new.name = none) (hlt : cur < nrInodes) (hdir : IsDir s cur rs)
    (hdir' : IsDir t cur (insertRecord new rs)) : ¬ Unchanged s t := by
  intro hsame
  have hmem := mem_insertRecord new rs
  rw [hdir'.unique ((hsame.isDir_iff hlt).mpr hdir)] at hmem
  exact lookup_eq_none_iff.mp hnone new (List.mem_filter.mpr ⟨hmem, hlive⟩) rfl

/-- A write at the end of a file that fails, and is not stuck at its first block, has changed the
inode. -/
theorem Written.inode_ne {i start n : ℕ} {buf : List UInt8} {m m' : Inode} {ret : ℤ}
    (hw : Written i start buf m s (some ret) n t m') (hclean : m.dirty = false)
    (hstart : start / blockSize < maxBlockNr)
    (hnot : ¬ (s.own i (Slot.ofLog (start / blockSize)) = 0 ∧ s.Full))
    (hend : m.din.iSize ≤ start) : m' ≠ m := by
  intro hsame
  rcases hw.clean ret rfl with ⟨-, hstuck⟩ | ⟨hdirty, -⟩
  · have hn : n ≠ 0 := by
      rintro rfl
      exact hstuck.stuck.elim (not_le.mpr hstart) hnot
    have hsize := hw.iSize
    rw [if_neg hn, hsame] at hsize
    omega
  · rw [hsame, hclean] at hdirty
    exact absurd hdirty (by decide)

/-- `testfs_add_dirent` of the new inode: it is stuck and leaves all other inodes as they are, or it
enters the record, or it fails for want of blocks and has changed the directory. -/
theorem InTree.addDirent_cases (h : InTree T dirs s cur) (hc : Created type s u c inode)
    (hw : Worked c u v inode inode') (hlt : cur < nrInodes)
    (hfilled : type = .dir → IsDir v c (emptyDir c cur hc.lt hlt)) (hkept : type ≠ .dir → v = u)
    {name : CString} (hname : name.length + 1 < 2 ^ 31) (hnone : lookup (dirs cur) name = none)
    (hfit : (encodeDir (dirs cur)).length < 2 ^ 32) {m : Inode}
    (hmem : s.inodeHashTable cur = some m) {start : ℕ}
    (hstart : start = (encodeDir ((dirs cur).takeWhile fun r ↦ !r.stopsAdd name)).length)
    {ret : ℤ} {w : FsState} (hadd : (testfsAddDirent cur name c).run v = .ok (ret, w)) :
    start < 2 ^ 31 ∧
      ((ret < 0 ∧ Worked c u w inode inode' ∧
        RoomToEnter s cur start (direntSize + name.length + 1) type) ∨
      (∃ m', Added cur (dirs cur) (recordFor c name hc.lt hname) m v none w m' ∧
        ret = toInt32 (recordFor c name hc.lt hname).size ∧
        (2 ^ 31 ≤ (recordFor c name hc.lt hname).size →
          ¬ RoomToEnter s cur start (direntSize + name.length + 1) type)) ∨
      (ret < 0 ∧ w.allocFailed = true ∧ (∃ m', Worked cur v w m m' ∧ m' ≠ m) ∧
        ¬ RoomToEnter s cur start (direntSize + name.length + 1) type)) := by
  have hcur : cur ≠ c := fun heq ↦ h.not_present hc (heq ▸ T.present_of_isDir h.isDir)
  have hmade : Others c s v := hc.others.trans hw.others
  have hvmem : v.inodeHashTable cur = some m := by rw [hmade.table cur hcur, hmem]
  have hvdir : IsDir v cur (dirs cur) :=
    (h.represents.records cur h.isDir).congr (hmade.dinode hlt hcur) (hmade.content cur hlt hcur)
  have hroom := h.room_filled hc hw hlt hfilled hkept
  have hown : v.own cur = s.own cur := hmade.own cur hlt hcur
  have hstop : ∀ r, (dirs cur).find? (Record.stopsAdd (recordFor c name hc.lt hname).name) =
      some r →
      r.live = false := fun r hr ↦ live_of_stopsAdd hnone hr
  obtain ⟨new, hnew⟩ : ∃ new, new = recordFor c name hc.lt hname := ⟨_, rfl⟩
  have hsize : new.size = direntSize + name.length + 1 := by rw [hnew, size_recordFor]
  have hplace := testfsAddDirent_place_run hw.sound hvmem hvdir new
    (by rw [hnew]; exact Int.natCast_nonneg c) (by rw [hnew]; exact hstop)
  have hnameNew : new.name = name := by rw [hnew]; rfl
  have hnrNew : new.nr = c := by rw [hnew]; rfl
  rw [hnameNew, hnrNew, hadd, ← hstart] at hplace
  rw [← hnew, ← hsize]
  have hlength := new.length_encode
  have hpos : 0 < new.dirent.encode.length := by
    rw [hlength]
    exact lt_of_lt_of_le (by decide) new.size_ge
  have hlow : start < 2 ^ 31 := by
    by_contra hhigh
    have hle := length_takeWhile_le (dirs cur) fun r ↦ !r.stopsAdd name
    exact testfsWriteData_neg (List.length_pos_iff.mp hpos) (toInt32_neg (by omega) (by omega))
      hplace.symm
  refine ⟨hlow, ?_⟩
  rw [toInt32_of_range (by omega) (by omega)] at hplace
  by_cases hstuck : v.own cur (Slot.ofLog (start / blockSize)) = 0 ∧ v.Full
  · obtain ⟨ret', w', m', hneg, hwrite, hwritten, hothers⟩ :=
      hw.sound.write_stuck hvmem hpos (hlow.trans (by decide)) hstuck.1 hstuck.2
    obtain ⟨rfl, rfl⟩ := Prod.mk.inj (Except.ok.inj (hplace.trans hwrite))
    refine Or.inl ⟨hneg, hw.stuck hwritten hothers, Or.inr (Or.inr ⟨?_, ?_⟩)⟩
    · rw [← hown, hstuck.1]
    · rw [← hroom, hw.sound.core.full_iff.mp hstuck.2, zero_add]
  have hnoRoom : (s.missing cur (writeSlots start new.size) ≤ v.room → ¬ new.size < 2 ^ 31) →
      ¬ RoomToEnter s cur start new.size type := by
    rintro hno (hnew | ⟨hleft, hfits⟩ | ⟨hempty, hlast⟩)
    · omega
    · exact hno (by omega) hfits
    · exact hstuck ⟨by rw [hown, hempty], hw.sound.core.full_iff.mpr (by omega)⟩
  have hmax : start + new.dirent.encode.length ≤ maxFileSize := by
    have hfits := new.name_fits
    rw [Record.size] at hlength
    simp only [maxFileSize, maxBlockNr, nrDirectBlocks, nrIndirectBlocks, blockSize,
      direntSize] at *
    omega
  obtain ⟨failure, n, w', m', hwrite, hwritten, hmissing⟩ :=
    hw.sound.write_cases hvmem new.dirent.encode (hlow.trans (by decide)) hmax
  obtain ⟨rfl, rfl⟩ := Prod.mk.inj (Except.ok.inj (hplace.trans hwrite))
  rw [hlength] at hmissing
  cases failure with
  | none =>
    refine Or.inr (Or.inl ⟨m', ?_, ?_, fun hbig ↦ hnoRoom fun _ ↦ not_lt.mpr hbig⟩)
    · rw [hstart, ← hnameNew] at hwritten
      exact hwritten.added hvdir hvmem (by rw [hnew]; exact hstop)
    · rw [Option.getD_none, (hwritten.complete rfl).1, hlength]
  | some ret' =>
    have hleft := hmissing (by simp)
    -- records that are there already are written over without failing
    have hend : (encodeDir (dirs cur)).length ≤ start := by
      cases hfind : (dirs cur).find? (Record.stopsAdd new.name) with
      | none => rw [hstart, ← hnameNew, (insertRecord_of_find?_eq_none hfind).2]
      | some r =>
        have hle := length_place_le hfind
        rw [hnameNew, ← hstart] at hle
        rw [missing_eq_zero fun o _ ho ↦ hvdir.own_ne_zero hw.sound hlt (by omega)] at hleft
        exact absurd hleft (Nat.not_lt_zero _)
    have hsizeDir := hvdir.size
    rw [dinode_of_some hvmem] at hsizeDir
    have hblock : start / blockSize < maxBlockNr := by
      simp only [blockSize, maxBlockNr, nrDirectBlocks, nrIndirectBlocks]
      omega
    rw [missing_congr hown] at hleft
    refine Or.inr (Or.inr ⟨hwritten.failure_neg rfl, ?_, ⟨m', hwritten.worked,
      hwritten.inode_ne (h.calm.quiet cur m hmem).1 hblock hstuck (by omega)⟩,
      hnoRoom fun hle ↦ absurd hleft (not_lt.mpr hle)⟩)
    rcases hwritten.error ret' rfl with ⟨-, htrue⟩ | ⟨-, hbig⟩
    · exact htrue
    · have hstartMax : start < maxFileSize := hlow.trans (by decide)
      omega

/-- The record was entered, but its size does not fit an `int`, and the new inode was removed. -/
theorem InTree.overlong (h : InTree T dirs s cur) (hc : Created type s u c inode)
    (hw : Worked c u v inode inode') {name : CString} (hname : name.length + 1 < 2 ^ 31)
    (hnone : lookup (dirs cur) name = none) {m m' : Inode} {w : FsState}
    (hadded : Added cur (dirs cur) (recordFor c name hc.lt hname) m v none w m')
    (hlong : 2 ^ 31 ≤ direntSize + name.length + 1) (hr : Removed c inode' w t) :
    ¬ Unchanged s t ∧ Overlong t cur (dirs cur) name := by
  have hlt := h.represents.lt h.isDir
  have hcur : cur ≠ c := fun heq ↦ h.not_present hc (heq ▸ T.present_of_isDir h.isDir)
  have hwork := hadded.worked
  have hisDir := (hadded.isDir rfl).congr (hr.others.dinode hlt hcur)
    (hr.others.content cur hlt hcur)
  refine ⟨not_unchanged_of_entered (live_recordFor hc.lt hname) hnone hlt
    (h.represents.records cur h.isDir) hisDir, hlong, hr.sound,
      ⟨c, hc.lt, hname, hisDir, hr.dinode⟩,
    ⟨m', ?_⟩, ?_, ?_⟩
  · rw [hr.others.table cur hcur, hwork.inMemory]
  · intro j hj n hn
    by_cases hjc : j = c
    · have hpos := hc.iCount_pos h.calm
      rw [← hw.iCount] at hpos
      rw [hjc, hr.inMemory] at hn
      split_ifs at hn with hlast
      obtain rfl := Option.some.inj hn
      exact ⟨rfl, by simp only; omega⟩
    · rw [hr.others.table j hjc, hwork.others.table j hj, hw.others.table j hjc,
        hc.others.table j hjc] at hn
      exact h.calm.quiet j n hn
  · rw [hr.inodeFreemap, hwork.inodeFreemap, hw.inodeFreemap, hc.inodeFreemap,
      Bitmap.put_put_of_bit hc.clear]
    exact (h.represents.present cur).mp (T.present_of_isDir h.isDir)

/-- A name that is in use is refused. -/
theorem InTree.createFileOrDir_exists (h : InTree T dirs s cur) {name : CString} {d : ℕ}
    (hused : lookup (dirs cur) name = some (d : ℤ)) (type : InodeType) :
    (testfsCreateFileOrDir (some (cur, name)) type).run s = .ok (-eEXIST, s) := by
  rcases h.find_run name with ⟨c, hlook, -, hfound⟩ | ⟨hnone, -⟩
  · have hexists : (nameExists (some (cur, name))).run s = .ok (true, s) := by
      rw [nameExists, Program.run_bind hfound, Program.pure_run,
        decide_eq_true (Int.natCast_nonneg c)]
    rw [testfsCreateFileOrDir, Program.run_bind hexists, if_pos rfl, Program.pure_run]
  · rw [hused] at hnone
    exact absurd hnone (Option.some_ne_none _)

/-- The new inode is removed, and the failure is returned. -/
theorem Sound.removeInode_back (hs : Sound s) (hmem : s.inodeHashTable c = some inode)
    (hset : s.inodeFreemap.bit c = true) {r ret : ℤ}
    (hrun : (testfsRemoveInode c >>= fun _ ↦ (pure r : FsProgram ℤ)).run s = .ok (ret, t)) :
    ret = r ∧ Removed c inode s t := by
  obtain ⟨u, hremove, hremoved⟩ := hs.remove hmem hset
  rw [Program.run_bind hremove, Program.pure_run] at hrun
  obtain ⟨rfl, rfl⟩ := Prod.mk.inj (Except.ok.inj hrun)
  exact ⟨rfl, hremoved⟩

/-- The new inode is removed again, in a state that differs from the one in which it was made in
this inode only. -/
theorem InTree.undo_back (h : InTree T dirs s cur) (hc : Created type s u c inode)
    (hw : Worked c u v inode inode') {r ret : ℤ}
    (hrun : (testfsRemoveInode c >>= fun _ ↦ (pure r : FsProgram ℤ)).run v = .ok (ret, t)) :
    ret = r ∧ InTree T dirs t cur ∧ Unchanged s t := by
  obtain ⟨hret, hremoved⟩ := hw.sound.removeInode_back hw.inMemory
    (by rw [hw.inodeFreemap, hc.inodeFreemap, Bitmap.bit_put, if_pos rfl]) hrun
  exact ⟨hret, h.undo hc hw hremoved, h.undo_unchanged hc hw hremoved⟩

/-- `testfs_create_file_or_dir` after the new inode has been filled: it is entered in the current
directory, or it is removed again. -/
theorem InTree.enter_cases (h : InTree T dirs s cur) (hfit : RecordsFit T dirs) {name : CString}
    (hnone : lookup (dirs cur) name = none)
    (hcreate : (testfsCreateInode type).run s = .ok ((0, c), u)) (hc : Created type s u c inode)
    (hfill : (fillNewInode (some (cur, name)) type c).run u = .ok (0, v))
    (hw : Worked c u v inode inode') (hdirty : inode'.dirty = true) (hlt : cur < nrInodes)
    (hdir : type = .dir → IsDir v c (emptyDir c cur hc.lt hlt)) (hkept : type ≠ .dir → v = u)
    {ret : ℤ} (hrun : (testfsCreateFileOrDir (some (cur, name)) type).run s = .ok (ret, t)) :
    (ret = 0 ∧ ∃ T' dirs', InTree T' dirs' t cur ∧ RecordsFit T' dirs') ∨
    (ret < 0 ∧ InTree T dirs t cur ∧ Unchanged s t ∧ ¬ Spoils s cur (dirs cur) name type) ∨
    (ret < 0 ∧ Spoiled s t cur (dirs cur) name type) := by
  obtain ⟨m, hmem⟩ := h.inMemory
  have hcur : cur ≠ c := fun heq ↦ h.not_present hc (heq ▸ T.present_of_isDir h.isDir)
  have hmade : Others c s v := hc.others.trans hw.others
  have hvmem : v.inodeHashTable cur = some m := by rw [hmade.table cur hcur, hmem]
  have hvdir : IsDir v cur (dirs cur) :=
    (h.represents.records cur h.isDir).congr (hmade.dinode hlt hcur) (hmade.content cur hlt hcur)
  have hset : v.inodeFreemap.bit c = true := by
    rw [hw.inodeFreemap, hc.inodeFreemap, Bitmap.bit_put, if_pos rfl]
  have hrest := hrun
  rw [testfsCreateFileOrDir, Program.run_bind (h.nameExists_run hnone),
    if_neg Bool.false_ne_true, Program.run_bind hcreate] at hrest
  simp only [lt_irrefl, if_false] at hrest
  rw [Program.run_bind hfill, if_neg (lt_irrefl 0)] at hrest
  obtain ⟨ret', z, henter, hrest⟩ := Program.bind_eq_ok_iff.mp hrest
  rw [enterNewInode] at henter
  obtain ⟨r, w, hadd, hdone⟩ := Program.bind_eq_ok_iff.mp henter
  -- a failing `testfs_add_dirent` is what the whole command returns
  have hback : r < 0 →
      (testfsRemoveInode c >>= fun _ ↦ (pure r : FsProgram ℤ)).run w = .ok (ret, t) := by
    intro hneg
    rw [if_pos hneg, Program.pure_run] at hdone
    obtain ⟨rfl, rfl⟩ := Prod.mk.inj (Except.ok.inj hdone)
    rw [if_pos hneg] at hrest
    exact hrest
  by_cases hname : name.length + 1 < 2 ^ 31
  swap
  · obtain ⟨hneg, rfl⟩ := testfsAddDirent_long (not_lt.mp hname) hw.sound hvmem hvdir hadd
    obtain ⟨rfl, htree, hsame⟩ := h.undo_back hc hw (hback hneg)
    exact Or.inr (Or.inl ⟨hneg, htree, hsame, fun hspoils ↦ hname hspoils.fits⟩)
  have hfree : ∃ i < nrInodes, s.inodeFreemap.bit i = false := ⟨c, hc.lt, hc.clear⟩
  obtain ⟨hplace, ⟨hneg, hworked, hroom⟩ | ⟨m', hadded, hr, hbig⟩ |
      ⟨hneg, htrue, ⟨m', hworked, hne⟩, hnoRoom⟩⟩ :=
    h.addDirent_cases hc hw hlt hdir hkept hname hnone (hfit.length cur h.isDir) hmem rfl hadd
  · obtain ⟨rfl, htree, hsame⟩ := h.undo_back hc hworked (hback hneg)
    exact Or.inr (Or.inl ⟨hneg, htree, hsame, fun hspoils ↦ hspoils.noRoom hroom⟩)
  · rw [hr] at hadd hback
    by_cases hfits : (recordFor c name hc.lt hname).size < 2 ^ 31
    · obtain ⟨t', hwhole, ⟨T', dirs', htree, -, hfit'⟩, -⟩ :=
        h.enter_run hnone hcreate hc hfill hw hdirty hlt hdir hname hmem hadd hadded hfits
      obtain ⟨rfl, rfl⟩ := Prod.mk.inj (Except.ok.inj (hwhole.symm.trans hrun))
      exact Or.inl ⟨rfl, T', dirs', htree, hfit' hfit hfits hplace⟩
    · have hsize := size_recordFor hc.lt hname
      have hover : toInt32 ((recordFor c name hc.lt hname).size : ℤ) < 0 := by
        simp only [direntSize] at hsize
        exact toInt32_neg (by omega) (by omega)
      obtain ⟨hret, hremoved⟩ := hadded.worked.sound.removeInode_back
        (by rw [hadded.worked.others.table c hcur.symm, hw.inMemory])
        (by rw [hadded.worked.inodeFreemap, hset]) (hback hover)
      rw [← hret] at hover
      obtain ⟨hchanged, hlong⟩ := h.overlong hc hw hname hnone hadded (by omega) hremoved
      exact Or.inr (Or.inr
        ⟨hover, ⟨hnone, hname, hfree, hbig (not_lt.mp hfits)⟩, hchanged, Or.inr hlong⟩)
  · obtain ⟨rfl, hremoved⟩ := hworked.sound.removeInode_back
      (by rw [hworked.others.table c hcur.symm, hw.inMemory])
      (by rw [hworked.inodeFreemap, hset]) (hback hneg)
    refine Or.inr (Or.inr ⟨hneg, ⟨hnone, hname, hfree, hnoRoom⟩, fun hsame ↦ hne ?_,
      Or.inl (by rw [hremoved.allocFailed, htrue])⟩)
    have htable := congrFun hsame.table cur
    rw [hremoved.others.table cur hcur, hworked.inMemory, hmem] at htable
    exact Option.some.inj htable

/-- `testfs_create_file_or_dir` in the current directory: it succeeds, or it fails and leaves
everything as it was, or it has spoiled the directory. -/
theorem InTree.createFileOrDir (h : InTree T dirs s cur) (hfit : RecordsFit T dirs) {name : CString}
    {ret : ℤ} (hrun : (testfsCreateFileOrDir (some (cur, name)) type).run s = .ok (ret, t)) :
    (ret = 0 ∧ ∃ T' dirs', InTree T' dirs' t cur ∧ RecordsFit T' dirs') ∨
    (ret < 0 ∧ InTree T dirs t cur ∧ Unchanged s t ∧ ¬ Spoils s cur (dirs cur) name type) ∨
    (ret < 0 ∧ Spoiled s t cur (dirs cur) name type) := by
  have hlt := h.represents.lt h.isDir
  have hstart := hrun
  rw [testfsCreateFileOrDir] at hrun
  rcases h.find_run name with ⟨d, hused, -, -⟩ | ⟨hnone, -⟩
  · rw [h.createFileOrDir_exists hused] at hstart
    obtain ⟨rfl, rfl⟩ := Prod.mk.inj (Except.ok.inj hstart)
    refine Or.inr (Or.inl ⟨by decide, h, Unchanged.refl s, fun hspoils ↦ ?_⟩)
    have hunused := hspoils.unused
    rw [hused] at hunused
    exact absurd hunused (by simp)
  rw [Program.run_bind (h.nameExists_run hnone), if_neg Bool.false_ne_true] at hrun
  rcases h.calm.toSound.create type with ⟨c, u, inode, hcreate, hc⟩ | ⟨u, hcreate, hn⟩
  swap
  · rw [Program.run_bind hcreate] at hrun
    simp only at hrun
    rw [if_pos (by decide), Program.pure_run] at hrun
    obtain ⟨rfl, rfl⟩ := Prod.mk.inj (Except.ok.inj hrun)
    refine Or.inr (Or.inl
      ⟨by decide, h.notCreated hn, h.calm.toSound.unchanged_of_others hn.sound hn.others
      hn.inodeFreemap fun j hj ↦ h.represents.bound j ((h.represents.present j).mpr hj),
      fun hspoils ↦ ?_⟩)
    obtain ⟨i, hi, hclear⟩ := hspoils.free
    rw [hn.full i hi] at hclear
    exact absurd hclear (by decide)
  obtain ⟨failure, v, inode', hfill, hw, hfilled, hfailed⟩ := h.fill hc name hlt
  cases failure with
  | some r =>
    obtain ⟨hneg, hroom⟩ := hfailed r rfl
    rw [Program.run_bind hcreate] at hrun
    simp only [lt_irrefl, if_false] at hrun
    rw [Program.run_bind hfill, Option.getD_some, if_pos hneg] at hrun
    obtain ⟨rfl, htree, hsame⟩ := h.undo_back hc hw hrun
    exact Or.inr (Or.inl ⟨hneg, htree, hsame, fun hspoils ↦ hspoils.noRoom (Or.inl hroom)⟩)
  | none =>
    obtain ⟨hdir, hdirty, hkept⟩ := hfilled rfl
    exact h.enter_cases hfit hnone hcreate hc hfill hw hdirty hlt hdir hkept hstart

/-- `cmd_create` and `cmd_mkdir`. -/
theorem InTree.cmdMake (h : InTree T dirs s cur) (hfit : RecordsFit T dirs) {args : List CString}
    {out : Outcome} (hrun : (cmdMake type cur args).run s = .ok (out, t)) :
    out.curDir = cur ∧
    ((out.ret = 0 ∧ ∃ T' dirs', InTree T' dirs' t cur ∧ RecordsFit T' dirs') ∨
    (out.ret < 0 ∧ InTree T dirs t cur ∧ Unchanged s t ∧
      ∀ name, args = [name] → ¬ Spoils s cur (dirs cur) name type) ∨
    (out.ret < 0 ∧ ∃ name, args = [name] ∧ Spoiled s t cur (dirs cur) name type)) := by
  have hrefused : ∀ {ret : ℤ}, ret < 0 → (pure (.silent cur ret) : FsProgram Outcome).run s = .ok
      (out, t) → (∀ name, args ≠ [name]) →
      out.curDir = cur ∧ out.ret < 0 ∧ InTree T dirs t cur ∧ Unchanged s t ∧
        ∀ name, args = [name] → ¬ Spoils s cur (dirs cur) name type := by
    intro ret hneg hpure hargs
    obtain ⟨rfl, rfl⟩ := Prod.mk.inj (Except.ok.inj hpure)
    exact ⟨rfl, hneg, h, Unchanged.refl s, fun name heq ↦ absurd heq (hargs name)⟩
  match args with
  | [] =>
    obtain ⟨hsame, hleft⟩ := hrefused (by decide) hrun (by simp)
    exact ⟨hsame, Or.inr (Or.inl hleft)⟩
  | _ :: _ :: _ =>
    obtain ⟨hsame, hleft⟩ := hrefused (by decide) hrun (by simp)
    exact ⟨hsame, Or.inr (Or.inl hleft)⟩
  | [name] =>
    obtain ⟨ret, u, hcreate, hdone⟩ := Program.bind_eq_ok_iff.mp hrun
    obtain ⟨rfl, rfl⟩ := Prod.mk.inj (Except.ok.inj hdone)
    refine ⟨rfl, (h.createFileOrDir hfit hcreate).imp_right (Or.imp ?_ ?_)⟩
    · rintro ⟨hneg, htree, hsame, hnot⟩
      refine ⟨hneg, htree, hsame, fun name' heq ↦ ?_⟩
      obtain rfl : name = name' := by simpa using heq
      exact hnot
    · rintro ⟨hneg, hspoiled⟩
      exact ⟨hneg, name, rfl, hspoiled⟩

/-- A new name that fits the first block of the directory is entered for a new inode, if there is a
block for a new directory. -/
theorem InTree.cmdMake_run (h : InTree T dirs s cur) (type : InodeType) {name : CString}
    (hnone : lookup (dirs cur) name = none) (hpos : 0 < (encodeDir (dirs cur)).length)
    (hroom : (encodeDir (dirs cur)).length + (direntSize + name.length + 1) < blockSize)
    (hfree : ∃ i < nrInodes, s.inodeFreemap.bit i = false) (hblocks : type.blocks ≤ s.room) :
    ∃ (c : ℕ) (t : FsState) (T' : NameTree ℕ CString) (dirs' : ℕ → List Record),
      (OperatingSystems.Fs.cmdMake type cur [name]).run s = .ok (.silent cur 0, t) ∧
      InTree T' dirs' t cur ∧ lookup (dirs' cur) name = some (c : ℤ) ∧
      (t.dinode c).iType = type.code ∧ t.sb.maxFsBlocks = s.sb.maxFsBlocks ∧
      (type ≠ .dir → t.allocFailed = s.allocFailed ∧ t.own c = fun _ ↦ 0) ∧
      (t.dinode cur).iSize < blockSize ∧ c ≠ cur ∧
      ∀ d ∈ t.inodeFreemap.allocated, d ≠ c → d ≠ cur →
        d ∈ s.inodeFreemap.allocated ∧ t.dinode d = s.dinode d := by
  have hlt := h.represents.lt h.isDir
  simp only [blockSize, direntSize] at hroom
  have hname : name.length + 1 < 2 ^ 31 := by omega
  obtain ⟨m, hmem⟩ := h.inMemory
  obtain ⟨c, u, inode, hcreate, hc⟩ := h.calm.toSound.create_free type hfree
  have hcur : cur ≠ c := fun heq ↦ h.not_present hc (heq ▸ T.present_of_isDir h.isDir)
  obtain ⟨failed, v, inode', hfill, hw, hfilled, hfailed⟩ := h.fill hc name hlt
  obtain rfl : failed = none := by
    cases failed with
    | none => rfl
    | some ret => exact absurd (hfailed ret rfl).2 (not_lt.mpr hblocks)
  obtain ⟨hnew, hdirty, hkept⟩ := hfilled rfl
  have hmade : Others c s v := hc.others.trans hw.others
  have hvdir : IsDir v cur (dirs cur) :=
    (h.represents.records cur h.isDir).congr (hmade.dinode hlt hcur) (hmade.content cur hlt hcur)
  have hvmem : v.inodeHashTable cur = some m := by rw [hmade.table cur hcur, hmem]
  obtain ⟨failure, w, m', hadd, hadded⟩ := testfsAddDirent_run hw.sound hvmem hvdir (by omega)
    (recordFor c name hc.lt hname) (Int.natCast_nonneg c) fun r hr ↦ live_of_stopsAdd hnone hr
  obtain ⟨start, n, hwritten, hstart⟩ := hadded.written
  have hown : v.own cur (Slot.ofLog 0) ≠ 0 := by
    refine own_of_isDir hw.sound hlt hvdir hpos ?_
    simp only [blockSize]
    omega
  have hsucceeds : failure = none := by
    refine hwritten.failure_none_of_first ?_ (Or.inl hown)
    rw [Record.length_encode, size_recordFor]
    simp only [blockSize, direntSize]
    omega
  have hadd' : (testfsAddDirent cur name c).run v =
      .ok (failure.getD (toInt32 (recordFor c name hc.lt hname).size), w) := hadd
  subst hsucceeds
  rw [Option.getD_none] at hadd'
  obtain ⟨t, hrun, ⟨T', dirs', htree, hlook, -⟩, htype, hslots, hlimit, hflag, hlist, hrest⟩ :=
    h.enter_run hnone hcreate hc hfill hw hdirty hlt hnew hname hmem hadd' hadded (by
      rw [size_recordFor]
      simp only [direntSize]
      omega)
  refine ⟨c, t, T', dirs', ?_, htree, hlook, htype, hlimit, ?_, ?_, hcur.symm, hrest⟩
  · rw [OperatingSystems.Fs.cmdMake, Program.run_bind hrun, Program.pure_run]
  · intro hne
    rw [hflag, hslots, hkept hne, hc.allocFailed, hc.own]
    refine ⟨rfl, funext fun σ ↦ ?_⟩
    rw [FsState.own, h.represents.free c hc.lt (h.not_present hc), slotVal_zero]
  · have hle := length_insertRecord_le (recordFor c name hc.lt hname) (dirs cur)
    rw [size_recordFor] at hle
    rw [hlist.size]
    simp only [direntSize, blockSize] at hle ⊢
    omega

/-- `cmd_create` enters a new name that fits the first block of the directory. -/
theorem InTree.cmdCreate_run (h : InTree T dirs s cur) {name : CString}
    (hnone : lookup (dirs cur) name = none) (hpos : 0 < (encodeDir (dirs cur)).length)
    (hroom : (encodeDir (dirs cur)).length + (direntSize + name.length + 1) < blockSize)
    (hfree : ∃ i < nrInodes, s.inodeFreemap.bit i = false) :
    ∃ (c : ℕ) (t : FsState) (T' : NameTree ℕ CString) (dirs' : ℕ → List Record),
      (cmdCreate cur [name]).run s = .ok (.silent cur 0, t) ∧
      InTree T' dirs' t cur ∧ lookup (dirs' cur) name = some (c : ℤ) ∧
      (t.dinode c).iType = InodeType.file.code ∧ t.allocFailed = s.allocFailed ∧
      (DirsSmall s → DirsSmall t) ∧ t.sb.maxFsBlocks = s.sb.maxFsBlocks ∧
      t.own c = (fun _ ↦ 0) ∧ (t.dinode cur).iSize < blockSize ∧
      ∀ d ∈ t.inodeFreemap.allocated, d = c ∨ d = cur ∨ d ∈ s.inodeFreemap.allocated := by
  obtain ⟨c, t, T', dirs', hrun, htree, hlook, htype, hlimit, hkept, hsize, -, hrest⟩ :=
    h.cmdMake_run .file hnone hpos hroom hfree (Nat.zero_le _)
  obtain ⟨hflag, hown⟩ := hkept (by decide)
  refine ⟨c, t, T', dirs', hrun, htree, hlook, htype, hflag, ?_, hlimit, hown, hsize, ?_⟩
  · intro hsmall d hd hdir
    by_cases hdc : d = c
    · rw [hdc, htype] at hdir
      exact absurd hdir (by decide)
    by_cases hdcur : d = cur
    · rw [hdcur]
      exact hsize.trans (by decide)
    · obtain ⟨hold, hsame⟩ := hrest d hd hdc hdcur
      rw [hsame] at hdir ⊢
      exact hsmall d hold hdir
  · intro d hd
    by_cases hdc : d = c
    · exact Or.inl hdc
    by_cases hdcur : d = cur
    · exact Or.inr (Or.inl hdcur)
    · exact Or.inr (Or.inr (hrest d hd hdc hdcur).1)

end Create

end OperatingSystems.Fs
