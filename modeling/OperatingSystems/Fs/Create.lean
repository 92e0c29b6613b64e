import OperatingSystems.Fs.Tree

/-!
# Making files and directories

What `testfs_create_file_or_dir` does in its parts: the new inode is empty, a new directory gets
its two records, the inode is entered in its directory, and both inodes are written to disk. Each
part is followed by what holds of the inode it works on (`Worked`).
-/

set_option autoImplicit false
set_option relaxedAutoImplicit false

namespace OperatingSystems.Fs

open Library

/-- Work on the in-memory inode `i` that leaves its type, its references and its copy on disk. -/
structure Worked (i : ℕ) (s t : FsState) (inode inode' : Inode) : Prop where
  sound : Sound t
  others : Others i s t
  inMemory : t.inodeHashTable i = some inode'
  iType : inode'.din.iType = inode.din.iType
  iCount : inode'.iCount = inode.iCount
  disk : t.diskDinode i = s.diskDinode i
  inodeFreemap : t.inodeFreemap = s.inodeFreemap

section Worked

variable {s t u : FsState} {i start n : ℕ} {inode inode' inode'' : Inode} {buf : List UInt8}
  {failure : Option ℤ}

theorem Worked.trans (h₁ : Worked i s t inode inode') (h₂ : Worked i t u inode' inode'') :
    Worked i s u inode inode'' where
  sound := h₂.sound
  others := h₁.others.trans h₂.others
  inMemory := h₂.inMemory
  iType := h₂.iType.trans h₁.iType
  iCount := h₂.iCount.trans h₁.iCount
  disk := h₂.disk.trans h₁.disk
  inodeFreemap := h₂.inodeFreemap.trans h₁.inodeFreemap

theorem Written.worked (h : Written i start buf inode s failure n t inode') :
    Worked i s t inode inode' :=
  ⟨h.sound, h.others, h.inMemory, h.iType, h.iCount, h.disk, h.inodeFreemap⟩

theorem Written.failure_neg (h : Written i start buf inode s failure n t inode') {ret : ℤ}
    (hfail : failure = some ret) : ret < 0 := by
  rcases h.error ret hfail with ⟨rfl, -⟩ | ⟨rfl, -⟩
  · decide
  · decide

/-- A write within the first block fails only if that block is missing and nothing is free. -/
theorem Written.failure_none_of_first (h : Written i start buf inode s failure n t inode')
    (hend : start + buf.length < blockSize)
    (hroom : s.own i (Slot.ofLog 0) ≠ 0 ∨ ¬ s.Full) : failure = none := by
  have hdiv : start / blockSize = 0 := Nat.div_eq_of_lt (by omega)
  have hle := h.le
  cases hfail : failure with
  | none => rfl
  | some ret =>
    have hn : (start + n) / blockSize = 0 := Nat.div_eq_of_lt (by omega)
    rcases h.clean ret hfail with ⟨-, hclean⟩ | ⟨-, -, hdirect⟩
    · rw [hdiv, hn] at hclean
      rcases hclean.stuck with hmax | ⟨hzero, hfull⟩
      · exact absurd hmax (by decide)
      · exact (hroom.elim (fun hne ↦ hne hzero) fun hnot ↦ hnot hfull).elim
    · have hzero : n = 0 := by
        rcases h.short ret hfail with hn | hdvd
        · exact hn
        · have := Nat.eq_zero_of_dvd_of_lt hdvd (by omega)
          omega
      rw [hdiv] at hdirect
      exact absurd (hdirect hzero) (by decide)

end Worked

/-! ### An empty directory -/

section EmptyDir

variable {s t : FsState} {c p : ℕ} {inode inode' : Inode}

theorem Added.worked {i : ℕ} {rs : List Record} {new : Record} {failure : Option ℤ}
    (h : Added i rs new inode s failure t inode') : Worked i s t inode inode' := by
  obtain ⟨start, n, hw, -⟩ := h.written
  exact hw.worked

theorem size_recordFor {name : CString} (hc : c < nrInodes) (hname : name.length + 1 < 2 ^ 31) :
    (recordFor c name hc hname).size = direntSize + name.length + 1 := rfl

/-- The first block of a directory with a record is there. -/
theorem own_of_isDir (hs : Sound s) (hc : c < nrInodes) {rs : List Record} (h : IsDir s c rs)
    (hpos : 0 < (encodeDir rs).length) (hend : (encodeDir rs).length ≤ blockSize) :
    s.own c (Slot.ofLog 0) ≠ 0 := by
  have hlast := (hs.extent c hc).last
  rw [h.size, Int.toNat_natCast] at hlast
  have hdiv : ((encodeDir rs).length - 1) / blockSize = 0 := Nat.div_eq_of_lt (by omega)
  rw [hdiv] at hlast
  exact hlast (Int.natCast_pos.mpr hpos)

/-- `testfs_create_empty_dir` fills a new directory, or fails on its first record. -/
theorem testfsCreateEmptyDir_run (hs : Sound s) (ht : s.inodeHashTable c = some inode)
    (h : IsDir s c []) (hc : c < nrInodes) (hp : p < nrInodes) :
    ∃ failure t inode', (testfsCreateEmptyDir p c).run s = .ok (failure.getD 0, t) ∧
      Worked c s t inode inode' ∧
      (failure = none → IsDir t c (emptyDir c p hc hp) ∧ inode'.dirty = true ∧
        t.allocFailed = s.allocFailed) ∧
      ∀ ret, failure = some ret → ret < 0 ∧ t.allocFailed = true ∧ s.Full := by
  have hfits : dot.length + 1 < 2 ^ 31 := by decide
  have hfits' : dotdot.length + 1 < 2 ^ 31 := by decide
  obtain ⟨failure, u, inode₁, hrun, hadd⟩ := testfsAddDirent_run hs ht h (by decide)
    (recordFor c dot hc hfits) (Int.natCast_nonneg c) (by simp)
  obtain ⟨start, n, hw, hstart⟩ := hadd.written
  have hlen : (recordFor c dot hc hfits).dirent.encode.length = 10 := by
    rw [Record.length_encode, size_recordFor]
    rfl
  have hlen' : (recordFor p dotdot hp hfits').dirent.encode.length = 11 := by
    rw [Record.length_encode, size_recordFor]
    rfl
  rw [encodeDir_nil, List.length_nil, Nat.le_zero] at hstart
  rw [testfsCreateEmptyDir, Program.run_bind (testfsInodeGetType_run ht),
    Program.check_bind_run h.type]
  cases hfail : failure with
  | some ret =>
    have hneg := hw.failure_neg hfail
    rw [hfail, Option.getD_some] at hrun
    refine ⟨some ret, u, inode₁, ?_, hw.worked, by simp, ?_⟩
    · refine (Program.run_bind hrun).trans ?_
      rw [if_pos hneg, Program.pure_run, Option.getD_some]
    · rintro ret' hret'
      obtain rfl := Option.some.inj hret'
      refine ⟨hneg, ?_, ?_⟩
      · rcases hw.error ret hfail with ⟨-, htrue⟩ | ⟨-, hbig⟩
        · exact htrue
        · rw [hlen, hstart] at hbig
          exact absurd hbig (by decide)
      · by_contra hfull
        have hnone := hw.failure_none_of_first (by rw [hlen, hstart]; decide) (Or.inr hfull)
        rw [hfail] at hnone
        exact absurd hnone (by simp)
  | none =>
    have hdir : IsDir u c [recordFor c dot hc hfits] := hadd.isDir hfail
    have hten : (encodeDir [recordFor c dot hc hfits]).length = 10 := by
      rw [encodeDir_cons, encodeDir_nil, List.append_nil, hlen]
    have hstop : ∀ r, [recordFor c dot hc hfits].find?
        (Record.stopsAdd (recordFor p dotdot hp hfits').name) = some r → r.live = false := by
      intro r hr
      have hlive := live_recordFor (c := c) hc hfits
      have hne : ¬ dot = dotdot := by decide
      rw [List.find?_cons_of_neg, List.find?_nil] at hr
      · exact absurd hr (by simp)
      · rw [Record.stopsAdd, if_pos hlive]
        exact fun heq ↦ hne (of_decide_eq_true heq)
    obtain ⟨failure', v, inode₂, hrun', hadd'⟩ := testfsAddDirent_run hw.sound hw.inMemory hdir
      (by rw [hten]; decide) (recordFor p dotdot hp hfits') (Int.natCast_nonneg p) hstop
    obtain ⟨start', n', hw', hstart'⟩ := hadd'.written
    have hnone : failure' = none := by
      refine hw'.failure_none_of_first ?_ (Or.inl ?_)
      · rw [hlen']
        rw [hten] at hstart'
        simp only [blockSize]
        omega
      · exact own_of_isDir hw.sound hc hdir (by rw [hten]; decide) (by rw [hten]; decide)
    have hins : insertRecord (recordFor p dotdot hp hfits') [recordFor c dot hc hfits] =
        emptyDir c p hc hp := by
      have hnot : [recordFor c dot hc hfits].find?
          (Record.stopsAdd (recordFor p dotdot hp hfits').name) = none := by
        cases hfind : [recordFor c dot hc hfits].find?
            (Record.stopsAdd (recordFor p dotdot hp hfits').name) with
        | none => rfl
        | some r =>
          have hmem := List.mem_singleton.mp (List.mem_of_find?_eq_some hfind)
          have hlive := live_recordFor (c := c) hc hfits
          rw [← hmem, hstop r hfind] at hlive
          exact absurd hlive (by decide)
      rw [(insertRecord_of_find?_eq_none hnot).1]
      rfl
    have hret : toInt32 ((recordFor c dot hc hfits).size : ℕ) = 10 := by
      rw [size_recordFor]
      decide
    have hret' : toInt32 ((recordFor p dotdot hp hfits').size : ℕ) = 11 := by
      rw [size_recordFor]
      decide
    rw [hfail, Option.getD_none, hret] at hrun
    rw [hnone, Option.getD_none, hret'] at hrun'
    refine ⟨none, v, inode₂, ?_, hw.worked.trans hw'.worked, fun _ ↦ ⟨?_, ?_, ?_⟩, by simp⟩
    · refine (Program.run_bind hrun).trans ?_
      rw [if_neg (by decide)]
      refine (Program.run_bind hrun').trans ?_
      rw [if_neg (by decide), Program.pure_run, Option.getD_none]
    · rw [← hins]
      exact hadd'.isDir hnone
    · exact (hw'.complete hnone).2
    · exact (hw'.flag hnone).trans (hw.flag hfail)

end EmptyDir

/-! ### Writing an inode back and dropping it -/

/-- A dirty inode was written to disk. -/
structure Flushed (i : ℕ) (inode : Inode) (s t : FsState) : Prop where
  sound : Sound t
  others : Others i s t
  dinode : ∀ j < nrInodes, t.dinode j = s.dinode j
  own : ∀ j < nrInodes, t.own j = s.own j
  content : ∀ j < nrInodes, t.content j = s.content j
  disk : t.diskDinode i = inode.din
  inMemory : t.inodeHashTable i = some { inode with dirty := false }
  inodeFreemap : t.inodeFreemap = s.inodeFreemap
  allocFailed : t.allocFailed = s.allocFailed

/-- `testfs_sync_inode` of a dirty inode. -/
theorem Sound.flush {s : FsState} {i : ℕ} {inode : Inode} (h : Sound s)
    (ht : s.inodeHashTable i = some inode) (hdirty : inode.dirty = true) :
    ∃ t, (testfsSyncInode i).run s = .ok ((), t) ∧ Flushed i inode s t := by
  have hlayout := h.core.layout
  have hfits := h.fits ht
  have hsame := sameFiles_syncInode h.core ht hfits
  have hrun := testfsSyncInode_run hlayout (h.lt ht) ht
  rw [hdirty, if_pos rfl] at hrun
  refine ⟨_, hrun, h.syncInode ht, others_syncInode h ht,
    fun j _ ↦ dinode_syncInode hlayout ht hfits j, fun j hj ↦ hsame.own h.core hj,
    fun j hj ↦ hsame.content h.core hj, ?_, inodeHashTable_setInode_self _ _ _, rfl, rfl⟩
  rw [diskDinode_syncInode hlayout hfits, if_pos rfl]

/-- An inode that was written to disk is given up. -/
structure Dropped (i : ℕ) (inode : Inode) (s t : FsState) : Prop where
  sound : Sound t
  others : Others i s t
  dinode : ∀ j < nrInodes, t.dinode j = s.dinode j
  own : ∀ j < nrInodes, t.own j = s.own j
  content : ∀ j < nrInodes, t.content j = s.content j
  disk : t.diskDinode i = inode.din
  inMemory : t.inodeHashTable i =
    if inode.iCount - 1 = 0 then none else some { inode with dirty := false, iCount :=
      inode.iCount - 1 }
  inodeFreemap : t.inodeFreemap = s.inodeFreemap
  allocFailed : t.allocFailed = s.allocFailed

/-- `testfs_put_inode` after `testfs_sync_inode`. -/
theorem Flushed.put {s t : FsState} {i : ℕ} {inode : Inode} (h : Flushed i inode s t)
    (hi : i < nrInodes) : ∃ u, (testfsPutInode i).run t = .ok ((), u) ∧ Dropped i inode s u := by
  obtain ⟨rest, hrest⟩ : ∃ rest, rest = if inode.iCount - 1 = 0 then none
      else some { inode with dirty := false, iCount := inode.iCount - 1 } := ⟨_, rfl⟩
  have hput := testfsPutInode_run h.inMemory rfl
  have hsound := h.sound.putInode h.inMemory rfl
  simp only [← hrest] at hput hsound
  have hself : (t.setInode i rest).dinode i = t.dinode i := by
    rw [dinode_setInode_self, dinode_of_some h.inMemory, hrest]
    split_ifs
    · exact h.disk
    · rfl
  have hsame : SameFiles t (t.setInode i rest) :=
    sameFiles_setInode h.sound.core hi (by rw [hself]) (by rw [hself])
  have hdinode : ∀ j < nrInodes, (t.setInode i rest).dinode j = s.dinode j := by
    intro j hj
    rw [← h.dinode j hj]
    by_cases hji : j = i
    · rw [hji, hself]
    · exact dinode_setInode_of_ne _ _ hji
  refine ⟨_, hput, hsound, h.others.trans (others_setInode _ _ _), hdinode, ?_, ?_, h.disk,
    (inodeHashTable_setInode_self _ _ _).trans hrest, h.inodeFreemap, h.allocFailed⟩
  · exact fun j hj ↦ (hsame.own h.sound.core hj).trans (h.own j hj)
  · exact fun j hj ↦ (hsame.content h.sound.core hj).trans (h.content j hj)

/-- `testfs_sync_inode` and then `testfs_put_inode`. -/
theorem Sound.syncPut {s : FsState} {i : ℕ} {inode : Inode} (h : Sound s)
    (ht : s.inodeHashTable i = some inode) (hdirty : inode.dirty = true) :
    ∃ u t, (testfsSyncInode i).run s = .ok ((), u) ∧ (testfsPutInode i).run u = .ok ((), t) ∧
      Dropped i inode s t := by
  obtain ⟨u, hsync, hflushed⟩ := h.flush ht hdirty
  obtain ⟨t, hput, hdropped⟩ := hflushed.put (h.lt ht)
  exact ⟨u, t, hsync, hput, hdropped⟩

/-- An inode was given up, and written to disk before if it was dirty. -/
structure Returned (i : ℕ) (inode : Inode) (s t : FsState) : Prop where
  sound : Sound t
  others : Others i s t
  own : t.own i = s.own i
  content : t.content i = s.content i
  disk : t.diskDinode i = if inode.dirty then inode.din else s.diskDinode i
  inMemory : t.inodeHashTable i =
    if inode.iCount - 1 = 0 then none else some { inode with dirty := false, iCount :=
      inode.iCount - 1 }
  inodeFreemap : t.inodeFreemap = s.inodeFreemap
  allocFailed : t.allocFailed = s.allocFailed

/-- `testfs_sync_inode` and then `testfs_put_inode`, also of a clean inode. -/
theorem Sound.giveUp {s : FsState} {i : ℕ} {inode : Inode} (h : Sound s)
    (ht : s.inodeHashTable i = some inode) :
    ∃ u t, (testfsSyncInode i).run s = .ok ((), u) ∧ (testfsPutInode i).run u = .ok ((), t) ∧
      Returned i inode s t := by
  have hi := h.lt ht
  cases hdirty : inode.dirty with
  | true =>
    obtain ⟨u, t, hsync, hput, hd⟩ := h.syncPut ht hdirty
    exact ⟨u, t, hsync, hput, hd.sound, hd.others, hd.own i hi, hd.content i hi,
      by rw [hdirty, if_pos rfl, hd.disk], hd.inMemory, hd.inodeFreemap, hd.allocFailed⟩
  | false =>
    have hsync := testfsSyncInode_run h.core.layout hi ht
    rw [hdirty, if_neg Bool.false_ne_true] at hsync
    have hput := testfsPutInode_run ht hdirty
    have hsound := h.putInode ht hdirty
    obtain ⟨rest, hrest⟩ : ∃ rest, rest = if inode.iCount - 1 = 0 then none
        else some { inode with iCount := inode.iCount - 1 } := ⟨_, rfl⟩
    rw [← hrest] at hput hsound
    have hdin := (h.clean i inode ht hdirty).1
    have hslots : ((s.setInode i rest).dinode i).slots = (s.dinode i).slots ∧
        ((s.setInode i rest).dinode i).blockCount = (s.dinode i).blockCount := by
      rw [dinode_setInode_self, dinode_of_some ht, hrest]
      split_ifs
      · rw [Option.map_none, Option.getD_none, hdin, Dinode.slots_withSize,
          Dinode.blockCount_withSize]
        exact ⟨rfl, rfl⟩
      · exact ⟨rfl, rfl⟩
    have hsame := sameFiles_setInode h.core hi hslots.1 hslots.2
    refine ⟨s, _, hsync, hput, hsound, others_setInode _ _ _, hsame.own h.core hi,
      hsame.content h.core hi, by rw [hdirty, if_neg Bool.false_ne_true]; rfl, ?_, rfl, rfl⟩
    rw [inodeHashTable_setInode_self, hrest]
    split_ifs
    · rfl
    · simp [hdirty]

section Returned

variable {s t : FsState} {i : ℕ} {inode : Inode}

/-- Giving an inode up does not change its type. -/
theorem Returned.iType (h : Returned i inode s t) (hs : Sound s)
    (ht : s.inodeHashTable i = some inode) : (t.dinode i).iType = inode.din.iType := by
  have hmem := h.inMemory
  split_ifs at hmem with hlast
  · rw [dinode_of_none hmem, h.disk]
    cases hdirty : inode.dirty with
    | true => rw [if_pos rfl]
    | false =>
      rw [if_neg Bool.false_ne_true, (hs.clean i inode ht hdirty).1]
      rfl
  · rw [dinode_of_some hmem]

end Returned

end OperatingSystems.Fs
