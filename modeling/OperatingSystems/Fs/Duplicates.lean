import OperatingSystems.Fs.NameMap

/-!
# Adding a name that is there

The loop of `testfs_add_dirent` looks for a record in use with the name and for a free record with a
name of its length at once, and ends at whichever comes first. So a name that is in use is found
exactly if no free record of its length stands before it (`FoundFirst`); otherwise the new record
takes the place of the free one, and the name is in use twice (`testfsAddDirent_exists_iff`).

`testfs_create_file_or_dir` looks the name up before it makes an inode, and does not meet this.
-/

set_option autoImplicit false
set_option relaxedAutoImplicit false

namespace OperatingSystems.Fs

open Library

/-! ### The search -/

/-- If the name is in use, no record that is free for it stands before the first record in use with
it. -/
def FoundFirst (name : CString) (rs : List Record) : Prop :=
  lookup rs name ≠ none → ∀ q ∈ rs.takeWhile (fun r ↦ !r.named name), ¬ q.FreeFor name

section Search

variable {name : CString} {rs : List Record}

theorem named_of_lookup (h : lookup rs name ≠ none) : ∃ r ∈ rs, r.named name = true := by
  rw [lookup, Ne, Option.map_eq_none_iff, List.find?_eq_none] at h
  simpa using h

/-- Where the search for the place of a record ends when the name is in use: at a record in use
exactly if no free record stands before it. -/
theorem find?_stopsAdd_of_named : ∀ {rs : List Record}, (∃ r ∈ rs, r.named name = true) →
    ∃ r, rs.find? (Record.stopsAdd name) = some r ∧
      (r.live = true ↔ ∀ q ∈ rs.takeWhile (fun r ↦ !r.named name), ¬ q.FreeFor name) := by
  intro rs
  induction rs with
  | nil => simp
  | cons r rs ih =>
    intro hnamed
    cases hr : r.named name with
    | true =>
      have hlive := hr
      rw [Record.named, Bool.and_eq_true] at hlive
      refine ⟨r, List.find?_cons_of_pos ?_, ?_⟩
      · rw [Record.stopsAdd, if_pos hlive.1]
        exact hlive.2
      · simp [hr, hlive.1]
    | false =>
      have hrest : ∃ q ∈ rs, q.named name = true := by
        obtain ⟨q, hq, hqn⟩ := hnamed
        rcases List.mem_cons.mp hq with rfl | hq
        · rw [hr] at hqn
          exact absurd hqn Bool.false_ne_true
        · exact ⟨q, hq, hqn⟩
      obtain ⟨q, hfind, hiff⟩ := ih hrest
      rw [List.takeWhile_cons_of_pos (by simp [hr])]
      by_cases hfree : r.FreeFor name
      · refine ⟨r, List.find?_cons_of_pos ?_, ?_⟩
        · rw [Record.stopsAdd, if_neg (by simp [hfree.1]), decide_eq_true_eq]
          exact hfree.2
        · rw [hfree.1]
          simp [hfree]
      · have hstop : r.stopsAdd name = false := by
          rw [Record.stopsAdd]
          cases hlive : r.live with
          | true =>
            rw [Record.named, hlive, Bool.true_and] at hr
            rw [if_pos rfl, hr]
          | false =>
            rw [if_neg Bool.false_ne_true]
            exact decide_eq_false fun hlen ↦ hfree ⟨hlive, hlen⟩
        exact ⟨q, by rw [List.find?_cons_of_neg (by simp [hstop]), hfind], by simp [hfree, hiff]⟩

/-- A record in use in the place of a free one makes its name a duplicate. -/
theorem not_distinctNames_insertRecord {new r : Record} (hlive : new.live = true)
    (hlook : lookup rs new.name ≠ none) (hfind : rs.find? (Record.stopsAdd new.name) = some r)
    (hdead : r.live = false) : ¬ DistinctNames (insertRecord new rs) := by
  obtain ⟨q, hq, hqn⟩ := named_of_lookup hlook
  rw [Record.named, Bool.and_eq_true, decide_eq_true_eq] at hqn
  obtain ⟨post, hsplit, hins⟩ := insertRecord_of_find?_eq_some hfind
  obtain ⟨pre, hpre⟩ : ∃ pre, pre = rs.takeWhile fun r ↦ !r.stopsAdd new.name := ⟨_, rfl⟩
  rw [← hpre] at hsplit hins
  have hmem : q ∈ liveRecords (pre ++ post) := by
    refine List.mem_filter.mpr ⟨?_, hqn.1⟩
    rw [hsplit] at hq
    rcases List.mem_append.mp hq with hq | hq
    · exact List.mem_append_left _ hq
    · rcases List.mem_cons.mp hq with rfl | hq
      · rw [hdead] at hqn
        exact absurd hqn.1 Bool.false_ne_true
      · exact List.mem_append_right _ hq
  have hlist : liveRecords (pre ++ new :: post) = liveRecords pre ++ new :: liveRecords post := by
    rw [liveRecords, List.filter_append, List.filter_cons_of_pos hlive]
    rfl
  rw [hins, DistinctNames, hlist, List.map_append, List.map_cons, List.nodup_middle,
    List.nodup_cons, ← List.map_append]
  intro hnodup
  refine hnodup.1 (hqn.2 ▸ List.mem_map_of_mem ?_)
  rw [liveRecords, List.filter_append] at hmem
  exact hmem

end Search

/-! ### The call -/

section Add

variable {s t : FsState} {i : ℕ} {inode : Inode} {L : List Record} {name : CString} {nr ret : ℤ}

/-- The search ends at a record in use: the name exists. -/
theorem testfsAddDirent_exists_run (hs : Sound s) (ht : s.inodeHashTable i = some inode)
    (hdir : IsDir s i L) (hname : name.length + 1 < 2 ^ 31) {r : Record}
    (hfind : L.find? (Record.stopsAdd name) = some r) (hlive : r.live = true) (nr : ℤ) :
    (testfsAddDirent i name nr).run s = .ok (-eEXIST, s) := by
  have hnr : 0 ≤ r.dirent.dInodeNr := by
    change 0 ≤ r.nr
    simpa [Record.live] using hlive
  rw [testfsAddDirent]
  simp only
  rw [Program.run_bind (findFirst_run hs ht hdir fun r _ ↦ stopsAdd_dirent r hname), hfind]
  simp only [Option.map_some]
  rw [if_pos hnr, Program.pure_run]

/-- A record that is written, in whole or in part, is no error `EEXIST`. -/
theorem Written.ret_ne_exists {start n : ℕ} {buf : List UInt8} {failure : Option ℤ} {inode' : Inode}
    (hw : Written i start buf inode s failure n t inode') (hbuf : buf.length < 2 ^ 31 + 8) :
    failure.getD (toInt32 n) ≠ -eEXIST := by
  cases hfail : failure with
  | some e =>
    rw [Option.getD_some]
    rcases hw.error e hfail with ⟨rfl, -⟩ | ⟨rfl, -⟩ <;> decide
  | none =>
    have hn := hw.le
    rw [Option.getD_none]
    by_cases hfits : (n : ℤ) < 2 ^ 31
    · rw [toInt32_of_range (by omega) hfits]
      simp only [eEXIST]
      omega
    · have hwrap : toInt32 (n : ℤ) = toInt32 (n - 2 ^ 32) := by
        rw [toInt32, toInt32]
        exact (Int.sub_bmod_right (n : ℤ) (2 ^ 32)).symm
      rw [hwrap, toInt32_of_range (by omega) (by omega)]
      simp only [eEXIST]
      omega

/-- The call with a record in use before any free one, and the call with a free one before. -/
theorem testfsAddDirent_finds_iff (hs : Sound s) (ht : s.inodeHashTable i = some inode)
    (hdir : IsDir s i L) (hnr : 0 ≤ nr) (hfits : nr < 2 ^ 31) (hlook : lookup L name ≠ none) :
    (testfsAddDirent i name nr).run s = .ok (-eEXIST, s) ↔ FoundFirst name L := by
  have hname : name.length + 1 < 2 ^ 31 := by
    obtain ⟨q, -, hqn⟩ := named_of_lookup hlook
    rw [Record.named, Bool.and_eq_true, decide_eq_true_eq] at hqn
    exact hqn.2 ▸ q.name_fits
  obtain ⟨r, hfind, hiff⟩ := find?_stopsAdd_of_named (named_of_lookup hlook)
  cases hlive : r.live with
  | true =>
    exact iff_of_true (testfsAddDirent_exists_run hs ht hdir hname hfind hlive nr) fun _ ↦
      hiff.mp hlive
  | false =>
    refine iff_of_false (fun hrun ↦ ?_) fun hfirst ↦ ?_
    · obtain ⟨new, rfl, rfl⟩ : ∃ new : Record, new.name = name ∧ new.nr = nr :=
        ⟨⟨nr, name, ⟨by omega, hfits⟩, hname⟩, rfl, rfl⟩
      rw [testfsAddDirent_place_run hs ht hdir new hnr fun q hq ↦ by
        rw [hfind, Option.some.injEq] at hq
        exact hq ▸ hlive] at hrun
      have hbuf : new.dirent.encode ≠ [] := by
        rw [← List.length_pos_iff_ne_nil, Record.length_encode]
        exact lt_of_lt_of_le (by decide) new.size_ge
      by_cases hneg : toInt32 (encodeDir (L.takeWhile fun r ↦ !r.stopsAdd new.name)).length < 0
      · exact testfsWriteData_neg hbuf hneg hrun
      · obtain ⟨start, hstart⟩ := Int.eq_ofNat_of_zero_le (not_lt.mp hneg)
        obtain ⟨failure, n, u, inode', hwrite, hw⟩ := hs.write ht new.dirent.encode start
        rw [hstart] at hrun
        have hret := (Prod.mk.inj (Except.ok.inj (hwrite.symm.trans hrun))).1
        refine hw.ret_ne_exists ?_ hret
        rw [Record.length_encode, Record.size]
        simp only [direntSize]
        omega
    · exact absurd (hiff.mpr (hfirst hlook)) (by rw [hlive]; exact Bool.false_ne_true)

/-- A new record in the place of a free one is written completely. -/
theorem testfsAddDirent_replace_run (hs : Sound s) (ht : s.inodeHashTable i = some inode)
    (hdir : IsDir s i L) {new r : Record} (hnr : 0 ≤ new.nr)
    (hfind : L.find? (Record.stopsAdd new.name) = some r) (hdead : r.live = false)
    (hplace : (encodeDir (L.takeWhile fun r ↦ !r.stopsAdd new.name)).length < 2 ^ 31) :
    ∃ t, (testfsAddDirent i new.name new.nr).run s = .ok (toInt32 new.size, t) ∧
      IsDir t i (insertRecord new L) := by
  have hfree : ∀ q, L.find? (Record.stopsAdd new.name) = some q → q.live = false := fun q hq ↦ by
    rw [hfind, Option.some.injEq] at hq
    exact hq ▸ hdead
  obtain ⟨post, hsplit, -⟩ := insertRecord_of_find?_eq_some hfind
  have hlength := congrArg (fun l ↦ (encodeDir l).length) hsplit
  simp only [encodeDir_append, encodeDir_cons, List.length_append, Record.length_encode] at hlength
  have hsame : r.size = new.size := by
    have hstop := List.find?_some hfind
    rw [Record.stopsAdd, if_neg (by simp [hdead]), decide_eq_true_eq] at hstop
    rw [Record.size, Record.size, hstop]
  have hpos : 0 < new.dirent.encode.length := by
    rw [Record.length_encode]
    exact lt_of_lt_of_le (by decide) new.size_ge
  have hend : (encodeDir (L.takeWhile fun r ↦ !r.stopsAdd new.name)).length +
      new.dirent.encode.length ≤ (encodeDir L).length := by
    rw [Record.length_encode]
    omega
  obtain ⟨t, inode', hrun, hw, -⟩ := hdir.overwrite_run hs ht hpos hend
  refine ⟨t, ?_, (hw.added hdir ht hfree).isDir rfl⟩
  rw [testfsAddDirent_place_run hs ht hdir new hnr hfree, toInt32_of_range (by omega) (by omega),
    hrun, Record.length_encode]

/-- The directory still begins with its records, and what follows them is shorter than a record with
the name. -/
structure PartlyAppended (t : FsState) (i : ℕ) (L : List Record) (name : CString) : Prop where
  bytes : t.bytes i 0 (encodeDir L).length = encodeDir L
  size : (t.dinode i).iSize < (encodeDir L).length + direntSize + name.length + 1

/-- A record whose writing fails is not complete. -/
theorem Written.partlyAppended (hdir : IsDir s i L) (ht : s.inodeHashTable i = some inode)
    {new : Record} {n : ℕ} {inode' : Inode}
    (hw : Written i (encodeDir L).length new.dirent.encode inode s (some ret) n t inode') :
    PartlyAppended t i L new.name := by
  have hlength := new.length_encode
  have hshort := hw.unfinished ret rfl
  have hn := hw.le
  have hsize := hdir.size
  rw [dinode_of_some ht] at hsize
  rw [Record.size] at hlength
  refine ⟨bytes_eq_iff.mpr fun k hk ↦ ?_, ?_⟩
  · rw [hw.content, if_neg (by omega)]
    exact bytes_eq_iff.mp hdir.bytes k hk
  · have hmax := (hw.sound.extent_of_some hw.inMemory).le_max
    rw [hw.iSize] at hmax
    rw [dinode_of_some hw.inMemory, hw.iSize, hsize]
    split_ifs at hmax ⊢ with hzero <;> omega

/-- Assumes: the names in use are distinct, and a search for the name finds it before a free record
of its length. Then the names in use are distinct after the call. -/
theorem testfsAddDirent_distinct (hs : Sound s) (ht : s.inodeHashTable i = some inode)
    (hdir : IsDir s i L) (hnr : 0 ≤ nr) (hfits : nr < 2 ^ 31) (hdistinct : DistinctNames L)
    (hfirst : FoundFirst name L)
    (hplace : (encodeDir (L.takeWhile fun r ↦ !r.stopsAdd name)).length < 2 ^ 31)
    (hrun : (testfsAddDirent i name nr).run s = .ok (ret, t)) :
    (∃ L', IsDir t i L' ∧ DistinctNames L') ∨ ret < 0 ∧ PartlyAppended t i L name := by
  by_cases hlook : lookup L name = none
  swap
  · have hexists := (testfsAddDirent_finds_iff hs ht hdir hnr hfits hlook).mpr hfirst
    obtain ⟨-, rfl⟩ := Prod.mk.inj (Except.ok.inj (hexists.symm.trans hrun))
    exact .inl ⟨L, hdir, hdistinct⟩
  by_cases hname : name.length + 1 < 2 ^ 31
  swap
  · obtain ⟨-, rfl⟩ := testfsAddDirent_long (not_lt.mp hname) hs ht hdir hrun
    exact .inl ⟨L, hdir, hdistinct⟩
  obtain ⟨new, rfl, rfl⟩ : ∃ new : Record, new.name = name ∧ new.nr = nr :=
    ⟨⟨nr, name, ⟨by omega, hfits⟩, hname⟩, rfl, rfl⟩
  have hlive : new.live = true := decide_eq_true hnr
  have hins := hdistinct.insertRecord hlive hlook
  cases hfind : L.find? (Record.stopsAdd new.name) with
  | some r =>
    obtain ⟨u, hreplace, hu⟩ := testfsAddDirent_replace_run hs ht hdir hnr hfind
      (live_of_stopsAdd hlook hfind) hplace
    obtain ⟨-, rfl⟩ := Prod.mk.inj (Except.ok.inj (hreplace.symm.trans hrun))
    exact .inl ⟨_, hu, hins⟩
  | none =>
    have hfree : ∀ r, L.find? (Record.stopsAdd new.name) = some r → r.live = false :=
      fun r hr ↦ live_of_stopsAdd hlook hr
    have hwhole := (insertRecord_of_find?_eq_none hfind).2
    obtain ⟨failure, n, u, inode', hwrite, hw⟩ := hs.write ht new.dirent.encode
      (encodeDir (L.takeWhile fun r ↦ !r.stopsAdd new.name)).length
    rw [testfsAddDirent_place_run hs ht hdir new hnr hfree, toInt32_of_range (by omega) (by omega),
      hwrite] at hrun
    obtain ⟨hret, rfl⟩ := Prod.mk.inj (Except.ok.inj hrun)
    cases failure with
    | none => exact .inl ⟨_, (hw.added hdir ht hfree).isDir rfl, hins⟩
    | some e =>
      rw [hwhole] at hw
      rw [Option.getD_some] at hret
      exact .inr ⟨hret ▸ hw.failure_neg rfl, hw.partlyAppended hdir ht⟩

/-- A free record before the first record in use with the name: the new record takes its place. -/
theorem testfsAddDirent_duplicates (hs : Sound s) (ht : s.inodeHashTable i = some inode)
    (hdir : IsDir s i L) (hnr : 0 ≤ nr) (hfits : nr < 2 ^ 31) (hfirst : ¬ FoundFirst name L)
    (hplace : (encodeDir (L.takeWhile fun r ↦ !r.stopsAdd name)).length < 2 ^ 31) :
    ∃ ret t L', (testfsAddDirent i name nr).run s = .ok (ret, t) ∧ IsDir t i L' ∧
      ¬ DistinctNames L' := by
  rw [FoundFirst, Classical.not_imp] at hfirst
  obtain ⟨hlook, hfree⟩ := hfirst
  obtain ⟨r, hfind, hiff⟩ := find?_stopsAdd_of_named (named_of_lookup hlook)
  have hdead : r.live = false := Bool.not_eq_true _ ▸ fun hlive ↦ hfree (hiff.mp hlive)
  have hname : name.length + 1 < 2 ^ 31 := by
    obtain ⟨q, -, hqn⟩ := named_of_lookup hlook
    rw [Record.named, Bool.and_eq_true, decide_eq_true_eq] at hqn
    exact hqn.2 ▸ q.name_fits
  obtain ⟨new, rfl, rfl⟩ : ∃ new : Record, new.name = name ∧ new.nr = nr :=
    ⟨⟨nr, name, ⟨by omega, hfits⟩, hname⟩, rfl, rfl⟩
  obtain ⟨t, hrun, ht'⟩ := testfsAddDirent_replace_run hs ht hdir hnr hfind hdead hplace
  exact ⟨_, t, _, hrun, ht', not_distinctNames_insertRecord (decide_eq_true hnr) hlook hfind hdead⟩

/-- Assumes: a sound file system, and in memory a directory with the records `L`. Then
`testfs_add_dirent` refuses the name of a record in use exactly if no free record with a name of its
length stands before it. Where the new record belongs at an offset that fits an `int`, this is also
when distinct names stay distinct. -/
theorem testfsAddDirent_exists_iff (hs : Sound s) (ht : s.inodeHashTable i = some inode)
    (hdir : IsDir s i L) (hnr : 0 ≤ nr) (hfits : nr < 2 ^ 31) :
    ((lookup L name ≠ none → (testfsAddDirent i name nr).run s = .ok (-eEXIST, s)) ↔
      FoundFirst name L) ∧
    ((encodeDir (L.takeWhile fun r ↦ !r.stopsAdd name)).length < 2 ^ 31 → DistinctNames L →
      (FoundFirst name L → ∀ ret t, (testfsAddDirent i name nr).run s = .ok (ret, t) →
        (∃ L', IsDir t i L' ∧ DistinctNames L') ∨ ret < 0 ∧ PartlyAppended t i L name) ∧
      (¬ FoundFirst name L → ∃ ret t L', (testfsAddDirent i name nr).run s = .ok (ret, t) ∧
        IsDir t i L' ∧ ¬ DistinctNames L')) := by
  refine ⟨⟨fun hall hlook ↦ ?_, fun hfirst hlook ↦ ?_⟩, fun hplace hdistinct ↦ ⟨?_, ?_⟩⟩
  · exact (testfsAddDirent_finds_iff hs ht hdir hnr hfits hlook).mp (hall hlook) hlook
  · exact (testfsAddDirent_finds_iff hs ht hdir hnr hfits hlook).mpr hfirst
  · intro hfirst ret t hrun
    exact testfsAddDirent_distinct hs ht hdir hnr hfits hdistinct hfirst hplace hrun
  · exact fun hfirst ↦ testfsAddDirent_duplicates hs ht hdir hnr hfits hfirst hplace

end Add

/-- The root of a new file system. -/
theorem fresh_root : ∃ (s : FsState) (inode : Inode), Sound s ∧ s.inodeHashTable 0 = some inode ∧
    IsDir s 0 (emptyDir 0 0 (by decide) (by decide)) := by
  obtain ⟨s, -, hspec⟩ := freshFs_spec (by decide : 8 ≤ nrDataBlocks)
  obtain ⟨inode, hmem, -⟩ := hspec.root
  obtain ⟨-, hdir, -⟩ := hspec.root_made (by decide)
  exact ⟨s, inode, hspec.sound, hmem, hdir⟩

/-- `testfs_add_dirent` refuses `.` in the root of a new file system. -/
theorem testfsAddDirent_exists_dot : ∃ (s : FsState) (inode : Inode), Sound s ∧
    s.inodeHashTable 0 = some inode ∧ (testfsAddDirent 0 dot 1).run s = .ok (-eEXIST, s) := by
  obtain ⟨s, inode, hs, ht, hdir⟩ := fresh_root
  have hlook : lookup (emptyDir 0 0 (by decide) (by decide)) dot ≠ none := by decide
  have hfirst : FoundFirst dot (emptyDir 0 0 (by decide) (by decide)) := fun _ q hq ↦ by
    have hnil : (emptyDir 0 0 (by decide) (by decide)).takeWhile (fun r ↦ !r.named dot) = [] := by
      decide
    rw [hnil] at hq
    exact absurd hq List.not_mem_nil
  exact ⟨s, inode, hs, ht,
    (testfsAddDirent_exists_iff hs ht hdir (by decide) (by decide)).1.mpr hfirst hlook⟩

/-- The name of another file. -/
def nameG : CString := ⟨[103], by decide⟩

/-- A free record for `f` and a record in use for `g`. -/
def freeThenUsed : List Record :=
  [(recordFor 1 nameF (by decide) (by decide)).remove, recordFor 1 nameG (by decide) (by decide)]

/-- The root of a new file system with a free record and one in use. -/
theorem root_with_free : ∃ (s : FsState) (inode : Inode), Sound s ∧
    s.inodeHashTable 0 = some inode ∧
    IsDir s 0 (emptyDir 0 0 (by decide) (by decide) ++ freeThenUsed) := by
  obtain ⟨s, inode, hs, ht, hdir⟩ := fresh_root
  have hlen : (encodeDir (emptyDir 0 0 (by decide) (by decide))).length = 21 := length_emptyDir _ _
  have hnew : (encodeDir freeThenUsed).length = 20 := by decide
  -- Both records lie in the first block, which the directory has.
  have hown : s.own 0 (Slot.ofLog (0 / blockSize)) ≠ 0 :=
    hdir.own_ne_zero hs (by decide) (by rw [hlen]; decide)
  have hmissing : s.missing 0 (writeSlots 21 20) = 0 := missing_eq_zero fun o hle hlt ↦ by
    have hdiv : o / blockSize = 0 / blockSize := by
      simp only [blockSize]
      omega
    rw [hdiv]
    exact hown
  obtain ⟨t, inode', -, hw, -⟩ := hs.write_room (n := s.room) ht (by decide : 21 < maxFileSize)
    (by rw [hnew]; decide) (by rw [hnew, hmissing]; exact hs.core.hasRoom_iff.mpr le_rfl)
  refine ⟨t, inode', hw.sound, hw.inMemory, ?_⟩
  rw [← hlen] at hw
  exact hdir.written [] [] ht hw (by rw [hnew]; decide) (by simp) (by simp) (.inr ⟨rfl, rfl⟩)

/-- With a free record for `f` before the one in use for `g`, adding `g` is not refused. -/
theorem testfsAddDirent_misses : ¬ ∀ (s : FsState) (inode : Inode) (L : List Record)
    (name : CString), Sound s → s.inodeHashTable 0 = some inode → IsDir s 0 L →
    lookup L name ≠ none →
    (testfsAddDirent 0 name 1).run s = .ok (-eEXIST, s) := by
  intro h
  obtain ⟨s, inode, hs, ht, hdir⟩ := root_with_free
  have hlook : lookup (emptyDir 0 0 (by decide) (by decide) ++ freeThenUsed) nameG ≠ none := by
    decide
  have hfirst := (testfsAddDirent_finds_iff hs ht hdir (by decide) (by decide) hlook).mp
    (h s inode _ nameG hs ht hdir hlook)
  have hbefore : (emptyDir 0 0 (by decide) (by decide) ++ freeThenUsed).takeWhile
      (fun r ↦ !r.named nameG) = emptyDir 0 0 (by decide) (by decide) ++
        [(recordFor 1 nameF (by decide) (by decide)).remove] := rfl
  refine hfirst hlook (recordFor 1 nameF (by decide) (by decide)).remove ?_ ⟨rfl, rfl⟩
  rw [hbefore]
  exact List.mem_append_right _ (List.mem_singleton_self _)

end OperatingSystems.Fs
