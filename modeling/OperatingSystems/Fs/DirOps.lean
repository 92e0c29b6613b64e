import OperatingSystems.Fs.Records

/-!
# Adding and removing records

What `testfs_add_dirent` and `testfs_remove_dirent` do to a directory, in terms of its list of
records. A new record takes the place of the first free record with a name of its length, or is
appended (`insertRecord`); the search for this place ends early at a record in use with the same
name, if that comes first.
-/

set_option autoImplicit false
set_option relaxedAutoImplicit false

namespace OperatingSystems.Fs

open Library

/-! ### Writing a record -/

section Written

variable {s t : FsState} {i n : ℕ} {inode inode' : Inode} {rs rs' : List Record}
  {first new : List UInt8}

/-- Bytes written in the place of as many others, or at the end. -/
theorem IsDir.written (old rest : List UInt8) (h : IsDir s i rs)
    (ht : s.inodeHashTable i = some inode)
    (hw : Written i first.length new inode s none n t inode') (hpos : 0 < new.length)
    (hbytes : encodeDir rs = first ++ old ++ rest) (hbytes' : encodeDir rs' = first ++ new ++ rest)
    (hold : old.length = new.length ∨ old = [] ∧ rest = []) : IsDir t i rs' := by
  obtain ⟨rfl, -⟩ := hw.complete rfl
  have hsize := h.size
  have hlength : (encodeDir rs).length = first.length + old.length + rest.length := by
    rw [hbytes, List.length_append, List.length_append]
  have hlength' : (encodeDir rs').length = first.length + new.length + rest.length := by
    rw [hbytes', List.length_append, List.length_append]
  have hlen : old.length = new.length ∨ old.length = 0 ∧ rest.length = 0 :=
    hold.imp_right fun hand ↦ ⟨by rw [hand.1]; rfl, by rw [hand.2]; rfl⟩
  refine ⟨?_, ?_, ?_⟩
  · rw [dinode_of_some hw.inMemory, hw.iType, ← dinode_of_some ht]
    exact h.type
  · rw [dinode_of_some ht] at hsize
    rw [dinode_of_some hw.inMemory, hw.iSize, if_neg hpos.ne', hsize, hlength, hlength']
    omega
  · have hcontent := bytes_eq_iff.mp h.bytes
    rw [bytes_eq_iff]
    intro k hk
    rw [hlength'] at hk
    rw [hw.content, hbytes', zero_add, List.getD_eq_getElem?_getD, List.getD_eq_getElem?_getD]
    split_ifs with hrange
    · rw [List.append_assoc, List.getElem?_append_right hrange.1,
        List.getElem?_append_left (by omega)]
    · have hkept := hcontent k (by rw [hlength]; omega)
      rw [zero_add, hbytes, List.getD_eq_getElem?_getD] at hkept
      rw [hkept, List.append_assoc, List.append_assoc]
      by_cases hlow : k < first.length
      · rw [List.getElem?_append_left hlow, List.getElem?_append_left hlow]
      · have hsame : old.length = new.length := by omega
        rw [List.getElem?_append_right (by omega), List.getElem?_append_right (by omega),
          List.getElem?_append_right (by omega), List.getElem?_append_right (by omega), hsame]

end Written

/-! ### Adding -/

/-- The record at which the search of `testfs_add_dirent` ends. -/
def Record.stopsAdd (name : CString) (r : Record) : Bool :=
  if r.live then decide (r.name = name) else decide (r.name.length = name.length)

/-- The records with a new one in the first place that fits it. -/
def insertRecord (new : Record) : List Record → List Record
  | [] => [new]
  | r :: rs => if r.stopsAdd new.name then new :: rs else r :: insertRecord new rs

theorem insertRecord_of_find?_eq_none {new : Record} {rs : List Record}
    (h : rs.find? (Record.stopsAdd new.name) = none) :
    insertRecord new rs = rs ++ [new] ∧ rs.takeWhile (fun r ↦ !r.stopsAdd new.name) = rs := by
  induction rs with
  | nil => exact ⟨rfl, rfl⟩
  | cons r rs ih =>
    have hr : r.stopsAdd new.name = false := by
      simpa using List.find?_eq_none.mp h r List.mem_cons_self
    rw [List.find?_cons_of_neg (by simp [hr])] at h
    obtain ⟨hins, htake⟩ := ih h
    rw [insertRecord, if_neg (by simp [hr]), hins, List.takeWhile_cons_of_pos (by simp [hr]), htake]
    exact ⟨rfl, rfl⟩

theorem insertRecord_of_find?_eq_some {new r : Record} {rs : List Record}
    (h : rs.find? (Record.stopsAdd new.name) = some r) :
    ∃ post, rs = rs.takeWhile (fun r ↦ !r.stopsAdd new.name) ++ r :: post ∧
      insertRecord new rs = rs.takeWhile (fun r ↦ !r.stopsAdd new.name) ++ new :: post := by
  induction rs with
  | nil => simp at h
  | cons r' rs ih =>
    cases hr : r'.stopsAdd new.name with
    | true =>
      rw [List.find?_cons_of_pos hr, Option.some.injEq] at h
      subst h
      exact ⟨rs, by simp [hr], by simp [insertRecord, hr]⟩
    | false =>
      rw [List.find?_cons_of_neg (by simp [hr])] at h
      obtain ⟨post, hsplit, hins⟩ := ih h
      rw [List.takeWhile_cons_of_pos (by simp [hr]), insertRecord, if_neg (by simp [hr])]
      refine ⟨post, ?_, ?_⟩
      · rw [List.cons_append, ← hsplit]
      · rw [List.cons_append, ← hins]

/-- A new record grows a directory only from its place on. -/
theorem length_insertRecord_le_max (new : Record) (rs : List Record) :
    (encodeDir (insertRecord new rs)).length ≤ max (encodeDir rs).length
      ((encodeDir (rs.takeWhile fun r ↦ !r.stopsAdd new.name)).length + new.size) := by
  induction rs with
  | nil =>
    rw [insertRecord, encodeDir_cons, List.length_append, Record.length_encode]
    simp
  | cons r rs ih =>
    rw [insertRecord]
    by_cases hstop : r.stopsAdd new.name = true
    · have hsame : r.name.length = new.name.length := by
        rw [Record.stopsAdd] at hstop
        split_ifs at hstop
        · rw [decide_eq_true_eq.mp hstop]
        · exact decide_eq_true_eq.mp hstop
      rw [if_pos hstop, encodeDir_cons, encodeDir_cons, List.length_append, List.length_append,
        Record.length_encode, Record.length_encode, Record.size, Record.size, hsame]
      exact le_max_left _ _
    · rw [if_neg hstop, List.takeWhile_cons_of_pos (by simpa using hstop), encodeDir_cons,
        encodeDir_cons, encodeDir_cons, List.length_append, List.length_append, List.length_append]
      omega

/-- A record that takes the place of another lies within the directory. -/
theorem length_place_le {new r : Record} {rs : List Record}
    (h : rs.find? (Record.stopsAdd new.name) = some r) :
    (encodeDir (rs.takeWhile fun r ↦ !r.stopsAdd new.name)).length + new.size ≤
      (encodeDir rs).length := by
  obtain ⟨post, hsplit, -⟩ := insertRecord_of_find?_eq_some h
  have hlength := congrArg (fun l ↦ (encodeDir l).length) hsplit
  simp only [encodeDir_append, encodeDir_cons, List.length_append, Record.length_encode] at hlength
  have hsame : r.size = new.size := by
    have hstop := List.find?_some h
    rw [Record.stopsAdd] at hstop
    rw [Record.size, Record.size]
    split_ifs at hstop
    · rw [decide_eq_true_eq.mp hstop]
    · rw [decide_eq_true_eq.mp hstop]
  omega

theorem mem_insertRecord_or {new r : Record} {rs : List Record} (h : r ∈ insertRecord new rs) :
    r = new ∨ r ∈ rs := by
  induction rs with
  | nil => exact Or.inl (List.mem_singleton.mp h)
  | cons q rs ih =>
    rw [insertRecord] at h
    split_ifs at h with hstop
    · exact (List.mem_cons.mp h).imp_right (List.mem_cons_of_mem q)
    · rcases List.mem_cons.mp h with rfl | h
      · exact Or.inr List.mem_cons_self
      · exact (ih h).imp_right (List.mem_cons_of_mem q)

theorem stopsAdd_dirent (r : Record) {name : CString} (hname : name.length + 1 < 2 ^ 31) :
    stopsAdd name (toInt32 (name.length + 1)) r.dirent = .ok (r.stopsAdd name) := by
  have hlen : toInt32 ((name.length : ℤ) + 1) = name.length + 1 :=
    toInt32_of_range (by omega) (by omega)
  have hnr : r.dirent.dInodeNr = r.nr := rfl
  have hnameLen : r.dirent.dNameLen = r.name.length + 1 := rfl
  have hiff : ((r.name.length : ℤ) + 1 = name.length + 1) ↔ r.name.length = name.length := by omega
  rw [stopsAdd, hnr, Record.nameIs_dirent, Record.stopsAdd, Record.live, hnameLen, hlen]
  by_cases h : 0 ≤ r.nr
  · rw [if_pos h, if_pos (by simpa using h)]
  · rw [if_neg h, if_neg (by simpa using h)]
    simp only [hiff]

section Add

variable {s t : FsState} {i : ℕ} {inode : Inode} {rs : List Record}

/-- `testfs_write_dirent` writes the bytes of the record. -/
theorem testfsWriteDirent_run (new : Record) (hnr : 0 ≤ new.nr) (offset : ℤ) :
    (testfsWriteDirent i new.name (new.name.length + 1) new.nr offset).run s =
      (testfsWriteData i new.dirent.encode offset).run s := by
  rw [testfsWriteDirent, if_neg (by simp only [direntSize]; omega), Program.check_bind_run hnr,
    Program.check_bind_run le_rfl]
  rfl

/-- What `testfs_add_dirent` has done when it did not find the name: it wrote the record, in part if
it failed, and the directory has it when it did not fail. -/
structure Added (i : ℕ) (rs : List Record) (new : Record) (inode : Inode) (s : FsState)
    (failure : Option ℤ) (t : FsState) (inode' : Inode) : Prop where
  written : ∃ start n, Written i start new.dirent.encode inode s failure n t inode' ∧
    start ≤ (encodeDir rs).length
  isDir : failure = none → IsDir t i (insertRecord new rs)

/-- `testfs_add_dirent` of a name that is not found before a place for it writes its record there.
-/
theorem testfsAddDirent_place_run (hs : Sound s) (ht : s.inodeHashTable i = some inode)
    (h : IsDir s i rs)
    (new : Record) (hnr : 0 ≤ new.nr)
    (hfree : ∀ r, rs.find? (Record.stopsAdd new.name) = some r → r.live = false) :
    (testfsAddDirent i new.name new.nr).run s = (testfsWriteData i new.dirent.encode
      (toInt32 (encodeDir (rs.takeWhile fun r ↦ !r.stopsAdd new.name)).length)).run s := by
  have hlen : toInt32 ((new.name.length : ℤ) + 1) = new.name.length + 1 := by
    have hfits := new.name_fits
    exact toInt32_of_range (by omega) (by omega)
  have hfind := findFirst_run hs ht h fun r _ ↦ stopsAdd_dirent r new.name_fits
  rw [testfsAddDirent]
  simp only
  rw [Program.run_bind hfind]
  cases hr : rs.find? (Record.stopsAdd new.name) with
  | none =>
    have hwhole := (insertRecord_of_find?_eq_none hr).2
    simp only [Option.map_none]
    rw [Program.run_bind (testfsInodeGetSize_run ht), Program.check_bind_run
      (by rw [h.size, hwhole]), hlen, testfsWriteDirent_run new hnr]
  | some r =>
    have hdead : r.live = false := hfree r hr
    have hneg : ¬ 0 ≤ r.dirent.dInodeNr := by
      change ¬ 0 ≤ r.nr
      simpa [Record.live] using hdead
    simp only [Option.map_some]
    rw [if_neg hneg, hlen, testfsWriteDirent_run new hnr]

theorem length_takeWhile_le (rs : List Record) (p : Record → Bool) :
    (encodeDir (rs.takeWhile p)).length ≤ (encodeDir rs).length := by
  have hsplit := congrArg (fun l ↦ (encodeDir l).length)
    (List.takeWhile_append_dropWhile (p := p) (l := rs))
  simp only [encodeDir_append, List.length_append] at hsplit
  omega

/-- Writing the record at its place has added it. -/
theorem Written.added {new : Record} {failure : Option ℤ} {n : ℕ} {inode' : Inode}
    (h : IsDir s i rs)
    (ht : s.inodeHashTable i = some inode)
    (hfree : ∀ r, rs.find? (Record.stopsAdd new.name) = some r → r.live = false)
    (hw : Written i (encodeDir (rs.takeWhile fun r ↦ !r.stopsAdd new.name)).length new.dirent.encode
      inode s failure n t inode') : Added i rs new inode s failure t inode' := by
  obtain ⟨pre, hpre⟩ : ∃ pre, pre = rs.takeWhile fun r ↦ !r.stopsAdd new.name := ⟨_, rfl⟩
  rw [← hpre] at hw
  refine ⟨⟨_, n, hw, hpre ▸ length_takeWhile_le rs _⟩, ?_⟩
  rintro rfl
  have hpos : 0 < new.dirent.encode.length := by
    rw [Record.length_encode]
    exact lt_of_lt_of_le (by decide) new.size_ge
  cases hr : rs.find? (Record.stopsAdd new.name) with
  | none =>
    obtain ⟨hins, hwhole⟩ := insertRecord_of_find?_eq_none hr
    rw [← hpre] at hwhole
    refine h.written [] [] ht hw hpos ?_ ?_ (Or.inr ⟨rfl, rfl⟩)
    · simp [hwhole]
    · simp [hins, hwhole]
  | some r =>
    obtain ⟨post, hsplit, hins⟩ := insertRecord_of_find?_eq_some hr
    rw [← hpre] at hsplit hins
    refine h.written r.dirent.encode (encodeDir post) ht hw hpos ?_ ?_ (Or.inl ?_)
    · rw [hsplit]
      simp
    · rw [hins]
      simp
    · have hstop := List.find?_some hr
      rw [Record.stopsAdd, if_neg (by simp [hfree r hr]), decide_eq_true_eq] at hstop
      rw [Record.length_encode, Record.length_encode, Record.size, Record.size, hstop]

/-- `testfs_add_dirent` of a name that is not found before a place for it, if the offset of the
place is an `int`. -/
theorem testfsAddDirent_near_run (hs : Sound s) (ht : s.inodeHashTable i = some inode)
    (h : IsDir s i rs) (new : Record)
    (hplace : (encodeDir (rs.takeWhile fun r ↦ !r.stopsAdd new.name)).length < 2 ^ 31)
    (hnr : 0 ≤ new.nr)
    (hfree : ∀ r, rs.find? (Record.stopsAdd new.name) = some r → r.live = false) :
    ∃ failure t inode', (testfsAddDirent i new.name new.nr).run s =
      .ok (failure.getD (toInt32 new.size), t) ∧ Added i rs new inode s failure t inode' := by
  obtain ⟨failure, n, t, inode', hrun, hw⟩ := hs.write ht new.dirent.encode
    (encodeDir (rs.takeWhile fun r ↦ !r.stopsAdd new.name)).length
  refine ⟨failure, t, inode', ?_, hw.added h ht hfree⟩
  rw [testfsAddDirent_place_run hs ht h new hnr hfree, toInt32_of_range (by omega) (by omega), hrun]
  cases failure with
  | none => rw [Option.getD_none, Option.getD_none, (hw.complete rfl).1, new.length_encode]
  | some ret => rw [Option.getD_some, Option.getD_some]

/-- `testfs_add_dirent` of a name that is not found before a place for it. -/
theorem testfsAddDirent_run (hs : Sound s) (ht : s.inodeHashTable i = some inode) (h : IsDir s i rs)
    (hdir : (encodeDir rs).length < 2 ^ 31) (new : Record) (hnr : 0 ≤ new.nr)
    (hfree : ∀ r, rs.find? (Record.stopsAdd new.name) = some r → r.live = false) :
    ∃ failure t inode', (testfsAddDirent i new.name new.nr).run s =
      .ok (failure.getD (toInt32 new.size), t) ∧ Added i rs new inode s failure t inode' :=
  testfsAddDirent_near_run hs ht h new ((length_takeWhile_le rs _).trans_lt hdir) hnr hfree

/-- A write before the start of a file does not return. -/
theorem testfsWriteData_neg {buf : List UInt8} (hbuf : buf ≠ []) {start : ℤ}
    (hneg : start < 0) {ret : ℤ} :
    (testfsWriteData i buf start).run s ≠ .ok (ret, t) := by
  intro hrun
  have hlow : ¬ start ≥ maxFileSize := by
    have hnonneg := Int.natCast_nonneg maxFileSize
    omega
  rw [testfsWriteData, if_neg hlow] at hrun
  obtain ⟨_, u, hcheck, -⟩ := Program.bind_eq_ok_iff.mp hrun
  rcases (Program.check_eq_ok_iff.mp hcheck).1 with hle | hempty
  · omega
  · exact hbuf hempty

/-- The length of a name that does not fit an `int` is never the length of a record. -/
theorem testfsAddDirent_long {name : CString} (hname : 2 ^ 31 ≤ name.length + 1) {nr ret : ℤ}
    (hs : Sound s) (ht : s.inodeHashTable i = some inode) (h : IsDir s i rs)
    (hrun : (testfsAddDirent i name nr).run s = .ok (ret, t)) : ret < 0 ∧ t = s := by
  obtain ⟨len, hlen⟩ : ∃ len, len = toInt32 ((name.length : ℤ) + 1) := ⟨_, rfl⟩
  have hle : len < 2 ^ 31 := by
    rw [hlen, toInt32]
    have := Int.bmod_lt (x := (name.length : ℤ) + 1) (m := 2 ^ 32) (by decide)
    norm_num at this ⊢
    omega
  have hwrite : ∀ offset, (testfsWriteDirent i name len nr offset).run s = .ok (ret, t) →
      ret < 0 ∧ t = s := by
    intro offset hrun
    rw [testfsWriteDirent] at hrun
    split_ifs at hrun with hneg
    · rw [Program.pure_run, Except.ok.injEq, Prod.mk.injEq] at hrun
      exact ⟨by rw [← hrun.1]; decide, hrun.2.symm⟩
    · obtain ⟨_, u, -, hrun⟩ := Program.bind_eq_ok_iff.mp hrun
      obtain ⟨_, v, hcheck, -⟩ := Program.bind_eq_ok_iff.mp hrun
      have hfit := (Program.check_eq_ok_iff.mp hcheck).1
      omega
  have hstop : ∀ r ∈ rs, stopsAdd name len r.dirent =
      .ok (if r.live then decide (r.name = name) else decide (r.dirent.dNameLen = len)) := by
    intro r _
    have hnr : r.dirent.dInodeNr = r.nr := rfl
    rw [stopsAdd, hnr, Record.nameIs_dirent, Record.live]
    by_cases hpos : 0 ≤ r.nr
    · rw [if_pos hpos, if_pos (by simpa using hpos)]
    · rw [if_neg hpos, if_neg (by simpa using hpos)]
  rw [testfsAddDirent] at hrun
  simp only [← hlen] at hrun
  rw [Program.run_bind (findFirst_run hs ht h hstop)] at hrun
  generalize rs.find? _ = found at hrun
  cases found with
  | none =>
    simp only [Option.map_none] at hrun
    rw [Program.run_bind (testfsInodeGetSize_run ht)] at hrun
    obtain ⟨_, u, hcheck, hdone⟩ := Program.bind_eq_ok_iff.mp hrun
    rw [(Program.check_eq_ok_iff.mp hcheck).2] at hdone
    exact hwrite _ hdone
  | some r =>
    simp only [Option.map_some] at hrun
    split_ifs at hrun with hlive
    · rw [Program.pure_run, Except.ok.injEq, Prod.mk.injEq] at hrun
      exact ⟨by rw [← hrun.1]; decide, hrun.2.symm⟩
    · exact hwrite _ hrun

end Add

/-! ### Fetching an inode and dropping it again -/

/-- The state after `testfs_get_inode`. -/
def FsState.fetch (s : FsState) (i : ℕ) : FsState :=
  s.setInode i (some (match s.inodeHashTable i with
    | some inode => { inode with iCount := inode.iCount + 1 }
    | none => ⟨s.diskDinode i, false, 1⟩))

/-- A state between two commands: every in-memory inode is clean and referred to. -/
structure Calm (s : FsState) : Prop extends Sound s where
  quiet : ∀ i inode, s.inodeHashTable i = some inode → inode.dirty = false ∧ 1 ≤ inode.iCount

section Fetch

variable {s : FsState} {i j : ℕ}

theorem dinode_fetch (s : FsState) (i j : ℕ) : (s.fetch i).dinode j = s.dinode j := by
  by_cases hji : j = i
  · subst hji
    rw [FsState.fetch, dinode_setInode_self]
    cases ht : s.inodeHashTable j with
    | some inode => exact (dinode_of_some ht).symm
    | none => exact (dinode_of_none ht).symm
  · exact dinode_setInode_of_ne _ _ hji

theorem own_fetch (s : FsState) (i j : ℕ) : (s.fetch i).own j = s.own j :=
  own_congr (by rw [dinode_fetch]) fun _ _ _ ↦ rfl

theorem content_fetch (s : FsState) (i j : ℕ) : (s.fetch i).content j = s.content j :=
  content_congr (own_fetch s i j) fun _ _ _ ↦ rfl

theorem isDir_fetch_iff {rs : List Record} : IsDir (s.fetch i) j rs ↔ IsDir s j rs :=
  ⟨fun h ↦ h.congr (dinode_fetch s i j).symm (content_fetch s i j).symm,
    fun h ↦ h.congr (dinode_fetch s i j) (content_fetch s i j)⟩

theorem inodeHashTable_fetch (s : FsState) (i : ℕ) :
    ∃ n, (s.fetch i).inodeHashTable i = some n :=
  ⟨_, inodeHashTable_setInode_self _ _ _⟩

/-- An in-memory inode stays in memory when another is fetched, or it itself. -/
theorem inMemory_fetch {inode : Inode} (ht : s.inodeHashTable j = some inode) (i : ℕ) :
    ∃ n, (s.fetch i).inodeHashTable j = some n := by
  by_cases hji : j = i
  · rw [hji]
    exact inodeHashTable_fetch s i
  · exact ⟨inode, by rw [FsState.fetch, inodeHashTable_setInode_of_ne _ _ hji, ht]⟩

theorem testfsGetInode_fetch (h : Layout s) (hi : i < nrInodes) :
    (testfsGetInode i).run s = .ok ((), s.fetch i) :=
  testfsGetInode_run h hi

theorem Sound.fetch (h : Sound s) (hi : i < nrInodes) : Sound (s.fetch i) := by
  obtain ⟨t, n, hrun, -, hsound, -⟩ := h.getInode hi
  rw [testfsGetInode_fetch h.core.layout hi, Except.ok.injEq, Prod.mk.injEq] at hrun
  rw [hrun.2]
  exact hsound

theorem Calm.fetch (h : Calm s) (hi : i < nrInodes) : Calm (s.fetch i) := by
  refine ⟨h.toSound.fetch hi, fun j inode hj ↦ ?_⟩
  by_cases hji : j = i
  · subst hji
    rw [FsState.fetch, inodeHashTable_setInode_self, Option.some.injEq] at hj
    cases ht : s.inodeHashTable j with
    | some inode' =>
      rw [ht] at hj
      obtain ⟨hclean, hcount⟩ := h.quiet j inode' ht
      rw [← hj]
      exact ⟨hclean, hcount.trans (le_add_of_nonneg_right zero_le_one)⟩
    | none =>
      rw [ht] at hj
      rw [← hj]
      exact ⟨rfl, le_rfl⟩
  · rw [FsState.fetch, inodeHashTable_setInode_of_ne _ _ hji] at hj
    exact h.quiet j inode hj

/-- Dropping an inode that was fetched restores the state, if the inode was clean and referred to.
-/
theorem putInode_fetch_run {i : ℕ}
    (hquiet : ∀ inode, s.inodeHashTable i = some inode → inode.dirty = false ∧ 1 ≤ inode.iCount) :
    (testfsPutInode i).run (s.fetch i) = .ok ((), s) := by
  cases ht : s.inodeHashTable i with
  | some inode =>
    obtain ⟨hclean, hcount⟩ := hquiet inode ht
    have hmem : (s.fetch i).inodeHashTable i = some { inode with iCount := inode.iCount + 1 } := by
      rw [FsState.fetch, inodeHashTable_setInode_self, ht]
    rw [testfsPutInode_run hmem hclean, if_neg (by simp only [add_sub_cancel_right]; omega),
      FsState.fetch, setInode_setInode]
    simp only [add_sub_cancel_right]
    rw [setInode_self ht]
  | none =>
    have hmem : (s.fetch i).inodeHashTable i = some ⟨s.diskDinode i, false, 1⟩ := by
      rw [FsState.fetch, inodeHashTable_setInode_self, ht]
    rw [testfsPutInode_run hmem rfl, if_pos (sub_self 1), FsState.fetch, setInode_setInode,
      FsState.setInode, ← ht, Function.update_eq_self]

/-- Between two commands dropping an inode that was fetched restores the state. -/
theorem testfsPutInode_fetch (h : Calm s) (i : ℕ) :
    (testfsPutInode i).run (s.fetch i) = .ok ((), s) := putInode_fetch_run (h.quiet i)

end Fetch

/-! ### Removing -/

/-- The record is in use and is neither `"."` nor `".."`. -/
def Record.keeps (r : Record) : Bool :=
  r.live && !decide (r.name = dot) && !decide (r.name = dotdot)

theorem keepsDir_dirent (r : Record) : r.dirent.keepsDir = .ok r.keeps := by
  have hnr : r.dirent.dInodeNr = r.nr := rfl
  rw [Dirent.keepsDir, hnr, Record.nameIs_dirent, Record.nameIs_dirent, Record.keeps, Record.live]
  by_cases h : r.nr < 0
  · rw [if_pos h, decide_eq_false (not_le.mpr h), Bool.false_and, Bool.false_and]
  · rw [if_neg h, decide_eq_true (not_lt.mp h), Bool.true_and]
    rfl

/-- The records with the first one of a name removed. -/
def removeRecord (name : CString) : List Record → List Record
  | [] => []
  | r :: rs => if r.named name then r.remove :: rs else r :: removeRecord name rs

theorem removeRecord_of_find?_eq_some {name : CString} {r : Record} {rs : List Record}
    (h : rs.find? (Record.named name) = some r) :
    ∃ post, rs = rs.takeWhile (fun r ↦ !r.named name) ++ r :: post ∧
      removeRecord name rs = rs.takeWhile (fun r ↦ !r.named name) ++ r.remove :: post := by
  induction rs with
  | nil => simp at h
  | cons r' rs ih =>
    cases hr : r'.named name with
    | true =>
      rw [List.find?_cons_of_pos hr, Option.some.injEq] at h
      subst h
      exact ⟨rs, by simp [hr], by simp [removeRecord, hr]⟩
    | false =>
      rw [List.find?_cons_of_neg (by simp [hr])] at h
      obtain ⟨post, hsplit, hrem⟩ := ih h
      rw [List.takeWhile_cons_of_pos (by simp [hr]), removeRecord, if_neg (by simp [hr])]
      refine ⟨post, ?_, ?_⟩
      · rw [List.cons_append, ← hsplit]
      · rw [List.cons_append, ← hrem]

theorem length_removeRecord (name : CString) (rs : List Record) :
    (encodeDir (removeRecord name rs)).length = (encodeDir rs).length := by
  induction rs with
  | nil => rfl
  | cons r rs ih =>
    rw [removeRecord]
    split_ifs
    · rw [encodeDir_cons, encodeDir_cons, List.length_append, List.length_append,
        Record.length_encode, Record.length_encode, Record.size_remove]
    · rw [encodeDir_cons, encodeDir_cons, List.length_append, List.length_append, ih]

theorem exists_of_mem_removeRecord {name : CString} {r : Record} {rs : List Record}
    (h : r ∈ removeRecord name rs) : ∃ q ∈ rs, q.size = r.size := by
  induction rs with
  | nil => exact absurd h List.not_mem_nil
  | cons q rs ih =>
    rw [removeRecord] at h
    split_ifs at h with hnamed
    · rcases List.mem_cons.mp h with rfl | h
      · exact ⟨q, List.mem_cons_self, rfl⟩
      · exact ⟨r, List.mem_cons_of_mem q h, rfl⟩
    · rcases List.mem_cons.mp h with rfl | h
      · exact ⟨r, List.mem_cons_self, rfl⟩
      · obtain ⟨p, hp, hsize⟩ := ih h
        exact ⟨p, List.mem_cons_of_mem q hp, hsize⟩

section Remove

variable {s t : FsState} {i : ℕ} {inode : Inode} {rs : List Record}

/-- `testfs_remove_dirent_allowed` of a directory: it has to be empty. -/
theorem testfsRemoveDirentAllowed_dir (h : Calm s) (hi : i < nrInodes) (hdir : IsDir s i rs) :
    (testfsRemoveDirentAllowed i).run s =
      .ok (if (rs.find? Record.keeps).isSome then -eNOTEMPTY else 0, s) := by
  obtain ⟨n, hn⟩ := inodeHashTable_fetch s i
  have hdir' : IsDir (s.fetch i) i rs := isDir_fetch_iff.mpr hdir
  have hcheck : (checkEmpty i).run (s.fetch i) =
      .ok (if (rs.find? Record.keeps).isSome then -eNOTEMPTY else 0, s.fetch i) := by
    rw [checkEmpty, Program.run_bind (testfsInodeGetType_run hn),
      if_neg (not_not.mpr hdir'.type),
      Program.run_bind (findFirst_run (h.fetch hi).toSound hn hdir' fun r _ ↦ keepsDir_dirent r)]
    simp only [Option.isSome_map]
    rfl
  rw [testfsRemoveDirentAllowed, Program.run_bind (testfsGetInode_fetch h.core.layout hi),
    Program.run_bind hcheck, Program.run_bind (testfsPutInode_fetch h i), Program.pure_run]

/-- `testfs_remove_dirent_allowed` of anything else, if it is clean and referred to in memory. -/
theorem testfsRemoveDirentAllowed_file (h : Layout s) (hi : i < nrInodes)
    (hquiet : ∀ inode, s.inodeHashTable i = some inode → inode.dirty = false ∧ 1 ≤ inode.iCount)
    (hfile : (s.dinode i).iType ≠ InodeType.dir.code) :
    (testfsRemoveDirentAllowed i).run s = .ok (0, s) := by
  obtain ⟨n, hn⟩ := inodeHashTable_fetch s i
  have hcheck : (checkEmpty i).run (s.fetch i) = .ok (0, s.fetch i) := by
    rw [checkEmpty, Program.run_bind (testfsInodeGetType_run hn), dinode_fetch, if_pos hfile,
      Program.pure_run]
  rw [testfsRemoveDirentAllowed, Program.run_bind (testfsGetInode_fetch h hi),
    Program.run_bind hcheck, Program.run_bind (putInode_fetch_run hquiet), Program.pure_run]

/-- `testfs_remove_dirent` never removes `"."` or `".."`. -/
theorem testfsRemoveDirent_dots {name : CString} (hname : name = dot ∨ name = dotdot)
    (s : FsState) :
    (testfsRemoveDirent i name).run s = .ok (-eINVAL, s) := by
  rw [testfsRemoveDirent, if_pos hname, Program.pure_run]

section Named

variable {name : CString} {r : Record} (h : Sound s) (ht : s.inodeHashTable i = some inode)
  (hdir : IsDir s i rs) (hname : ¬ (name = dot ∨ name = dotdot))
include h ht hdir hname

/-- `testfs_remove_dirent` of a name that is not there. -/
theorem testfsRemoveDirent_missing (hfind : rs.find? (Record.named name) = none) :
    (testfsRemoveDirent i name).run s = .ok (-eNOENT, s) := by
  rw [testfsRemoveDirent, if_neg hname,
    Program.run_bind (findFirst_run h ht hdir fun r _ ↦ r.isLive_dirent name), hfind]
  rfl

/-- `testfs_remove_dirent` of something that may not be removed. -/
theorem testfsRemoveDirent_refused (hfind : rs.find? (Record.named name) = some r) {ret : ℤ}
    (hret : ret < 0) (hallowed : (testfsRemoveDirentAllowed r.nr.toNat).run s = .ok (ret, s)) :
    (testfsRemoveDirent i name).run s = .ok (ret, s) := by
  have hnr : r.dirent.dInodeNr = r.nr := rfl
  rw [testfsRemoveDirent, if_neg hname,
    Program.run_bind (findFirst_run h ht hdir fun r _ ↦ r.isLive_dirent name), hfind]
  simp only [Option.map_some]
  rw [hnr, Program.run_bind hallowed, if_pos hret, Program.pure_run]

/-- `testfs_remove_dirent` of a name returns what the write of its record has returned, or the inode
number. -/
theorem testfsRemoveDirent_write_run (hfind : rs.find? (Record.named name) = some r) {a ret : ℤ}
    (ha : 0 ≤ a) (hallowed : (testfsRemoveDirentAllowed r.nr.toNat).run s = .ok (a, s))
    (hrun : (testfsWriteData i r.remove.dirent.encode
      (encodeDir (rs.takeWhile fun r ↦ !r.named name)).length).run s = .ok (ret, t)) :
    (testfsRemoveDirent i name).run s = .ok (if ret ≥ 0 then r.nr else ret, t) := by
  have hnr : r.dirent.dInodeNr = r.nr := rfl
  have hdirent : ({ r.dirent with dInodeNr := invalidInodeNr } : Dirent) = r.remove.dirent := rfl
  have hnameLen : (r.dirent.dName.length : ℤ) = r.dirent.dNameLen := by
    change ((r.name.bytes ++ [0]).length : ℤ) = r.name.length + 1
    rw [List.length_append]
    rfl
  rw [testfsRemoveDirent, if_neg hname,
    Program.run_bind (findFirst_run h ht hdir fun r _ ↦ r.isLive_dirent name), hfind]
  simp only [Option.map_some]
  rw [hnr, Program.run_bind hallowed, if_neg (not_lt.mpr ha), Program.check_bind_run hnameLen,
    hdirent, Program.run_bind hrun, Program.pure_run]

omit h hname in
/-- Writing the record without its inode number has removed the name. -/
theorem Written.removedDirent (hfind : rs.find? (Record.named name) = some r) {failure : Option ℤ}
    {n : ℕ}
    {inode' : Inode}
    (hw : Written i (encodeDir (rs.takeWhile fun r ↦ !r.named name)).length r.remove.dirent.encode
      inode s failure n t inode') :
    (encodeDir (rs.takeWhile fun r ↦ !r.named name)).length + r.size ≤ (encodeDir rs).length ∧
      (failure = none → IsDir t i (removeRecord name rs)) := by
  obtain ⟨post, hsplit, hrem⟩ := removeRecord_of_find?_eq_some hfind
  obtain ⟨pre, hpre⟩ : ∃ pre, pre = rs.takeWhile fun r ↦ !r.named name := ⟨_, rfl⟩
  rw [← hpre] at hsplit hrem hw ⊢
  have hbytes : encodeDir rs = encodeDir pre ++ r.dirent.encode ++ encodeDir post := by
    rw [hsplit]
    simp
  have hlength : (encodeDir rs).length = (encodeDir pre).length + r.size +
      (encodeDir post).length := by
    rw [hbytes, List.length_append, List.length_append, Record.length_encode]
  have hpos : 0 < r.remove.dirent.encode.length := by
    rw [Record.length_encode]
    exact lt_of_lt_of_le (by decide) r.remove.size_ge
  refine ⟨by omega, ?_⟩
  rintro rfl
  refine hdir.written _ _ ht hw hpos hbytes ?_ (Or.inl ?_)
  · rw [hrem]
    simp
  · rw [Record.length_encode, Record.length_encode, Record.size_remove]

end Named

end Remove

end OperatingSystems.Fs
