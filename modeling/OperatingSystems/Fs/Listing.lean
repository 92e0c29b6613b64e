import OperatingSystems.Fs.Creation
import OperatingSystems.Library.Traversal

/-!
# What the listings show

`testfs_ls` prints a line for every record in use, and in a recursive listing goes down to every
directory on the way other than `.` and `..`. What it prints is `preorder` on the tree of the
directories (`testfsLs_prints`). So `lsr` shows every record at or below the directory once, and
nothing else (`lsr_lists_below`).
-/

set_option autoImplicit false
set_option relaxedAutoImplicit false

namespace OperatingSystems.Fs

open Library Library.Machine Library.NameTree

/-- The inode that the record names is a directory. -/
def Record.leadsToDir (s : FsState) (r : Record) : Prop :=
  (s.dinode r.nr.toNat).iType = InodeType.dir.code

instance (s : FsState) (r : Record) : Decidable (r.leadsToDir s) :=
  inferInstanceAs (Decidable (_ = _))

/-- The line of a record in use. -/
def listingLine (s : FsState) (r : Record) : LsLine := ⟨r.name.bytes, decide (r.leadsToDir s)⟩

/-- The directory that a listing goes down to after the line of a record. -/
def descend (s : FsState) (recursive : Bool) (r : Record) : Option ℕ :=
  if recursive ∧ r.leadsToDir s ∧ r.name ≠ dot ∧ r.name ≠ dotdot then some r.nr.toNat else none

/-- The records that a listing of `d` meets, each with its directory. -/
def listing (s : FsState) (dirs : ℕ → List Record) (recursive : Bool) (depth d : ℕ) :
    List (ℕ × Record) :=
  preorder (fun e ↦ liveRecords (dirs e)) (descend s recursive) depth d

section Listing

variable {T : NameTree ℕ CString} {dirs : ℕ → List Record} {s : FsState} {d c : ℕ} {r : Record}

theorem leadsToDir_iff (hnr : r.nr = (c : ℕ)) :
    r.leadsToDir s ↔ (s.dinode c).iType = InodeType.dir.code := by
  rw [Record.leadsToDir, hnr, Int.toNat_natCast]

theorem leadsToDir_fetch (s : FsState) (i : ℕ) (r : Record) :
    r.leadsToDir (s.fetch i) ↔ r.leadsToDir s := by
  rw [Record.leadsToDir, dinode_fetch, Record.leadsToDir]

theorem listingLine_fetch (s : FsState) (i : ℕ) : listingLine (s.fetch i) = listingLine s := by
  funext r
  simp only [listingLine, leadsToDir_fetch]

theorem descend_fetch (s : FsState) (i : ℕ) (recursive : Bool) :
    descend (s.fetch i) recursive = descend s recursive := by
  funext r
  simp only [descend, leadsToDir_fetch]

/-! ### The rows are the entries of the tree -/

/-- A record in use names an inode of the tree. -/
theorem Represents.nr_of_live (h : Represents s T dirs) (hd : T.isDir d)
    (hr : r ∈ liveRecords (dirs d)) : ∃ c : ℕ, r.nr = c ∧ T.present c :=
  h.present_of_lookup hd (lookup_of_mem (h.distinct d hd) hr)

/-- A recursive listing goes down to the entries that are directories. -/
theorem Represents.descend_eq_some_iff (h : Represents s T dirs) (hd : T.isDir d)
    (hr : r ∈ liveRecords (dirs d)) :
    descend s true r = some c ↔ T.isDir c ∧ T.entry d r.name = some c := by
  obtain ⟨c', hnr, hc'⟩ := h.nr_of_live hd hr
  have hentry : ∀ {e : ℕ}, T.entry d r.name = some e ↔
      r.name ≠ dot ∧ r.name ≠ dotdot ∧ r.nr = e := by
    intro e
    have hnames := h.names_iff (d := d) (r := r) (c := e)
    rw [FsState.Names, h.isDirectory_iff] at hnames
    exact ⟨fun he ↦ (hnames.mpr ⟨hd, hr, he⟩).2.2, fun hand ↦ (hnames.mp ⟨hd, hr, hand⟩).2.2⟩
  rw [hentry, descend, hnr, Int.toNat_natCast, h.isDir, Option.ite_none_right_eq_some]
  constructor
  · rintro ⟨⟨-, htype, hdot, hdotdot⟩, heq⟩
    obtain rfl := Option.some.inj heq
    exact ⟨⟨hc', (leadsToDir_iff hnr).mp htype⟩, hdot, hdotdot, rfl⟩
  · rintro ⟨⟨-, htype⟩, hdot, hdotdot, hcast⟩
    obtain rfl := Nat.cast_inj.mp hcast
    exact ⟨⟨rfl, (leadsToDir_iff hnr).mpr htype, hdot, hdotdot⟩, rfl⟩

theorem Represents.enumerates (h : Represents s T dirs) :
    T.Enumerates (fun e ↦ liveRecords (dirs e)) (descend s true) where
  nodup := fun hd ↦ List.Nodup.of_map Record.name (h.distinct _ hd)
  sound := fun hd hr hnext ↦
    have hentry := (h.descend_eq_some_iff hd hr).mp hnext
    ⟨hentry.1, _, hentry.2⟩
  complete := by
    intro d c n hd hc hn
    obtain ⟨r, rfl, hnames⟩ := h.exists_names hd hn
    have hr := (h.names_iff.mp hnames).2.1
    exact ⟨r, hr, (h.descend_eq_some_iff hd hr).mpr ⟨hc, hn⟩⟩
  inj := by
    intro d r r' c hd hr hr' hnext hnext'
    have hentry := (h.descend_eq_some_iff hd hr).mp hnext
    have hentry' := (h.descend_eq_some_iff hd hr').mp hnext'
    exact eq_of_name_eq (h.distinct d hd) hr hr' (T.entry_inj hd hd hentry.2 hentry'.2).2

/-! ### What is printed -/

/-- The line of a record and what the recursive call prints. -/
def recordLines (s : FsState) (recursive : Bool) (below : ℕ → List LsLine) (r : Record) :
    List LsLine :=
  listingLine s r :: (descend s recursive r).elim [] below

/-- The body of the loop prints the line of the record and what is below it. -/
theorem lsEntry_prints {recur : ℕ → FsProgram (List LsLine)} {below : ℕ → List LsLine}
    (recursive : Bool) (hcalm : Calm s) (h : Represents s T dirs) (hd : T.isDir d)
    (hr : r ∈ liveRecords (dirs d))
    (hrecur : ∀ c, descend s recursive r = some c →
      (recur c).run (s.fetch c) = .ok (below c, s.fetch c)) :
    (lsEntry recur recursive r.dirent).run s = .ok (recordLines s recursive below r, s) := by
  obtain ⟨c, hnr, hc⟩ := h.nr_of_live hd hr
  have hdirentNr : r.dirent.dInodeNr.toNat = c := by
    change r.nr.toNat = c
    rw [hnr, Int.toNat_natCast]
  obtain ⟨n, hn⟩ := inodeHashTable_fetch s c
  have hname : ∀ name : CString, r.name.bytes = name.bytes ↔ r.name = name := fun name ↦
    ⟨fun heq ↦ by cases hrn : r.name; cases name; simp_all, fun heq ↦ by rw [heq]⟩
  have hinner : (lsInner recur recursive r.name.bytes c
      (decide ((s.dinode c).iType = InodeType.dir.code))).run (s.fetch c) =
        .ok ((descend s recursive r).elim [] below, s.fetch c) := by
    have hdescend : descend s recursive r = if recursive ∧
        decide ((s.dinode c).iType = InodeType.dir.code) ∧ r.name.bytes ≠ dot.bytes ∧
          r.name.bytes ≠ dotdot.bytes then some c else none := by
      rw [descend, hnr, Int.toNat_natCast]
      simp only [leadsToDir_iff hnr, ne_eq, hname, decide_eq_true_eq]
    rw [lsInner]
    split_ifs with hcond
    · rw [if_pos hcond] at hdescend
      rw [hrecur c hdescend, hdescend, Option.elim_some]
    · rw [if_neg hcond] at hdescend
      rw [hdescend, Option.elim_none, Program.pure_run]
  rw [lsEntry, hdirentNr, Program.run_bind (testfsGetInode_fetch hcalm.core.layout (h.bound c hc)),
    Program.run_bind (testfsInodeGetType_run hn), r.cName_dirent,
    Program.run_bind (Program.ofExcept_ok_run _ _), dinode_fetch, Program.run_bind hinner,
    Program.run_bind (testfsPutInode_fetch hcalm c), Program.pure_run, recordLines, listingLine]
  simp only [leadsToDir_iff hnr]

/-- The loop over the records of a directory. -/
theorem lsLoop_prints {recur : ℕ → FsProgram (List LsLine)} {below : ℕ → List LsLine}
    {recursive : Bool} {inode : Inode} (hcalm : Calm s) (h : Represents s T dirs) (hd : T.isDir d)
    (ht : s.inodeHashTable d = some inode)
    (hrecur : ∀ r ∈ liveRecords (dirs d), ∀ c, descend s recursive r = some c →
      (recur c).run (s.fetch c) = .ok (below c, s.fetch c)) (turns : ℕ) :
    ∀ (pre post : List Record), dirs d = pre ++ post → post.length < turns →
      (lsLoop recur recursive d turns (encodeDir pre).length).run s =
        .ok ((liveRecords post).flatMap (recordLines s recursive below), s) := by
  induction turns with
  | zero => exact fun _ _ _ hturns ↦ absurd hturns (Nat.not_lt_zero _)
  | succ turns ih =>
    intro pre post hsplit hturns
    have hrecords := h.records d hd
    rw [hsplit] at hrecords
    rw [lsLoop, Program.run_bind (testfsNextDirent_run hcalm.toSound ht hrecords)]
    cases post with
    | nil => rfl
    | cons r post =>
      simp only [List.head?_cons, Option.map_some]
      have hrest := ih (pre ++ [r]) post (by rw [hsplit]; simp) (by simpa using hturns)
      have hnr : r.dirent.dInodeNr = r.nr := rfl
      by_cases hlive : r.live
      · have hmem : r ∈ liveRecords (dirs d) :=
          List.mem_filter.mpr ⟨by rw [hsplit]; simp, hlive⟩
        have hlines := lsEntry_prints recursive hcalm h hd hmem (hrecur r hmem)
        have hcons : liveRecords (r :: post) = r :: liveRecords post :=
          List.filter_cons_of_pos hlive
        rw [if_neg (by rw [hnr]; exact not_lt.mpr (live_of_mem hmem)), Program.run_bind hlines,
          Program.run_bind hrest, Program.pure_run, hcons, List.flatMap_cons]
      · have hdead : r.nr < 0 := by simpa [Record.live] using hlive
        have hcons : liveRecords (r :: post) = liveRecords post := List.filter_cons_of_neg hlive
        rw [if_pos (by rw [hnr]; exact hdead), hrest, hcons]

/-- Assumes: the depth is enough. `testfs_ls` prints the lines of the records that it meets. -/
theorem testfsLs_prints {bound : ℕ} (hbound : ∀ d, T.isDir d → T.depth d ≤ bound)
    (recursive : Bool) (depth : ℕ) : ∀ {s : FsState} {d : ℕ} {inode : Inode}, Calm s →
    Represents s T dirs → T.isDir d → bound < T.depth d + depth →
    s.inodeHashTable d = some inode →
    (testfsLs depth recursive d).run s =
      .ok ((listing s dirs recursive depth d).map fun e ↦ listingLine s e.2, s) := by
  induction depth with
  | zero => exact fun _ _ hd hlt ↦ absurd hlt (not_lt.mpr (hbound _ hd))
  | succ depth ih =>
    intro s d inode hcalm h hd hlt ht
    rw [testfsLs, Program.run_bind (testfsInodeGetSize_run ht), (h.records d hd).size,
      Int.toNat_natCast]
    have hrecur : ∀ r ∈ liveRecords (dirs d), ∀ c, descend s recursive r = some c →
        (testfsLs depth recursive c).run (s.fetch c) =
          .ok ((listing s dirs recursive depth c).map fun e ↦ listingLine s e.2, s.fetch c) := by
      intro r hr c hc
      -- The recursive call finds the tree as it was, one level deeper.
      have htrue : descend s true r = some c := by
        rw [descend] at hc ⊢
        obtain ⟨hcond, heq⟩ := Option.ite_none_right_eq_some.mp hc
        rw [if_pos ⟨rfl, hcond.2⟩, heq]
      obtain ⟨hcdir, hentry⟩ := (h.descend_eq_some_iff hd hr).mp htrue
      have hdepth := T.depth_entry hd hcdir hentry
      obtain ⟨n, hn⟩ := inodeHashTable_fetch s c
      rw [ih (hcalm.fetch (h.lt hcdir)) (h.fetch c) hcdir (by omega) hn]
      simp only [listing, descend_fetch, listingLine_fetch]
    refine (lsLoop_prints hcalm h hd ht hrecur _ [] (dirs d) rfl
      (Nat.lt_succ_of_le (length_le_encodeDir (dirs d)))).trans ?_
    rw [listing, preorder, List.map_flatMap]
    congr 3
    funext r
    rw [recordLines, List.map_cons]
    cases descend s recursive r with
    | none => rfl
    | some c => rfl

/-- A listing that is not recursive meets the records of the directory. -/
theorem listing_false (s : FsState) (dirs : ℕ → List Record) (depth d : ℕ) :
    listing s dirs false (depth + 1) d = (liveRecords (dirs d)).map fun r ↦ (d, r) := by
  have hnone : descend s false = fun _ ↦ none := funext fun r ↦ if_neg fun hand ↦ by simp at hand
  rw [listing, preorder, hnone]
  simp only [Option.elim_none]
  exact List.map_eq_flatMap.symm

end Listing

/-! ### The commands -/

/-- The pairs are the records in use of the directories at or below `c`, each once. -/
structure Lists (s : FsState) (dirs : ℕ → List Record) (parent : ℕ → ℕ) (c : ℕ)
    (visited : List (ℕ × Record)) : Prop where
  nodup : visited.Nodup
  mem_iff : ∀ e r, (e, r) ∈ visited ↔
    s.IsDirectory e ∧ (∃ k, parent^[k] e = c) ∧ r ∈ liveRecords (dirs e)

section Commands

variable {T : NameTree ℕ CString} {dirs : ℕ → List Record} {s : FsState} {cur c : ℕ}
  {maxFsBlocks : ℕ} {p : Session}

theorem Represents.lists (h : Represents s T dirs) {bound depth : ℕ}
    (hbound : ∀ d, T.isDir d → T.depth d ≤ bound) (hdepth : bound < depth) (hc : T.isDir c) :
    Lists s dirs T.parent c (listing s dirs true depth c) where
  nodup := h.enumerates.nodup_preorder hbound depth hc (by omega)
  mem_iff := fun e r ↦ by
    rw [h.isDirectory_iff]
    exact h.enumerates.mem_preorder_iff hbound depth hc (by omega)

/-- `cmd_ls_internal` of a name that leads to a directory. -/
theorem InTree.cmdLsInternal_prints (h : InTree T dirs s cur) (recursive : Bool) {name : CString}
    (hlook : lookup (dirs cur) name = some (c : ℤ)) (hc : T.isDir c) {bound depth : ℕ}
    (hbound : ∀ d, T.isDir d → T.depth d ≤ bound) (hdepth : bound < depth) :
    (OperatingSystems.Fs.cmdLsInternal depth cur [name] recursive).run s = .ok (⟨0, cur,
      .ls ((listing s dirs recursive depth c).map fun e ↦ listingLine s e.2)⟩, s) := by
  have hlt := h.represents.lt hc
  have hfind : (testfsDirNameToInodeNr cur name).run s = .ok ((c : ℤ), s) := by
    rcases h.find_run name with ⟨c', hlook', -, hfind⟩ | ⟨hnone, -⟩
    · rw [hfind, Option.some.inj (hlook.symm.trans hlook')]
    · rw [hnone] at hlook
      cases hlook
  obtain ⟨htype, hget⟩ := h.getType_run (T.present_of_isDir hc)
  obtain ⟨n, hn⟩ := inodeHashTable_fetch s c
  have hls := testfsLs_prints hbound recursive depth (h.fetch hlt).calm (h.fetch hlt).represents hc
    (by omega) hn
  rw [OperatingSystems.Fs.cmdLsInternal, Program.run_bind hfind,
    if_neg (not_lt.mpr (Int.natCast_nonneg c)), Int.toNat_natCast, Program.run_bind
    (testfsGetInode_fetch h.calm.core.layout hlt),
    Program.run_bind hget, if_pos (htype.mpr hc), Program.run_bind hls,
    Program.run_bind (testfsPutInode_fetch h.calm c), Program.pure_run]
  simp only [listing, descend_fetch, listingLine_fetch]

/-- Assumes: a run of commands on a fresh file system with a block for the root, in which
allocations may fail but no record spoils a directory. In the session that it leads to `ls` of a
directory shows the records of the directory that are in use, and `lsr` those of every directory at
or below it, each once and nothing else. Neither changes anything. -/
theorem lsr_lists_below (hpos : 0 < maxFsBlocks) (hmax : maxFsBlocks ≤ nrDataBlocks)
    (hrun : CommandRun (fun q label ↦ ¬ q.SpoilsDir label.2) maxFsBlocks p) :
    ∃ dirs parent, IsTree p.fs dirs parent ∧ ∃ bound, ∀ depth ≥ bound, ∀ name (c : ℕ),
      lookup (dirs p.curDir) name = some (c : ℤ) → p.fs.IsDirectory c →
      (handleCommand depth p.curDir ⟨.ls, [name]⟩).run p.fs = .ok (⟨0, p.curDir,
        .ls ((liveRecords (dirs c)).map (listingLine p.fs))⟩, p.fs) ∧
      Lists p.fs dirs parent c (listing p.fs dirs true depth c) ∧
      (handleCommand depth p.curDir ⟨.lsr, [name]⟩).run p.fs = .ok (⟨0, p.curDir,
        .ls ((listing p.fs dirs true depth c).map fun e ↦ listingLine p.fs e.2)⟩, p.fs) := by
  obtain ⟨T, dirs, h, -⟩ := hrun.inTree hpos hmax
  obtain ⟨bound, hbound⟩ := h.represents.exists_bound
  refine ⟨dirs, T.parent, h.represents.isTree, bound + 1, fun depth hdepth name c hlook hc ↦ ?_⟩
  rw [h.represents.isDirectory_iff] at hc
  have hlt : bound < depth := Nat.lt_of_succ_le hdepth
  refine ⟨?_, h.represents.lists hbound hlt hc, h.cmdLsInternal_prints true hlook hc hbound hlt⟩
  obtain ⟨depth, rfl⟩ : ∃ k, depth = k + 1 := ⟨depth - 1, by omega⟩
  have hls := h.cmdLsInternal_prints false hlook hc hbound hlt
  rw [listing_false, List.map_map] at hls
  exact hls

/-- The name of a directory. -/
def nameD : CString := ⟨[100], by decide⟩

/-- `mkdir d` and `lsr .` in a new file system of eight blocks: the listing of the root goes down to
the new directory, whose records are in it. -/
theorem lsr_lists_below_subdirectory : ∃ p₀ p, Started 8 p₀ ∧
    p₀.step (0, ⟨.mkdir, [nameD]⟩) = some p ∧ ∃ dirs parent, IsTree p.fs dirs parent ∧
    ∃ (c : ℕ) (r : Record) (depth : ℕ), c ≠ 0 ∧ lookup (dirs 0) nameD = some (c : ℤ) ∧
      p.fs.IsDirectory c ∧ r.name = dot ∧ (c, r) ∈ listing p.fs dirs true depth 0 ∧
      Lists p.fs dirs parent 0 (listing p.fs dirs true depth 0) ∧
      (handleCommand depth p.curDir ⟨.lsr, [dot]⟩).run p.fs = .ok (⟨0, p.curDir,
        .ls ((listing p.fs dirs true depth 0).map fun e ↦ listingLine p.fs e.2)⟩, p.fs) := by
  obtain ⟨s, hfresh, hspec⟩ := freshFs_spec (by decide : 8 ≤ nrDataBlocks)
  obtain ⟨hfree, -, -, htree⟩ := hspec.started (by decide)
  have hlen : (encodeDir (emptyDir 0 0 (by decide) (by decide))).length = 21 := by decide
  have hnone : lookup (emptyDir 0 0 (by decide) (by decide)) nameD = none := by decide
  have hroom : 7 ≤ s.room := hspec.le_room (by decide) (by decide)
  obtain ⟨c, t, T, dirs', hmake, hmade, hlook, htype, -, -, -, hne, -⟩ :=
    htree.cmdMake_run .dir hnone (by rw [hlen]; decide) (by rw [hlen]; decide) hfree
      (le_trans (by decide) hroom)
  have hstep : Session.step ⟨s, 0⟩ (0, ⟨.mkdir, [nameD]⟩) = some ⟨t, 0⟩ :=
    Session.step_eq_some_iff.mpr ⟨_, hmake, rfl⟩
  have hkeeps : ¬ Session.SpoilsDir ⟨s, 0⟩ ⟨.mkdir, [nameD]⟩ :=
    Session.not_spoilsDir rfl (by decide) (le_trans (by decide) hroom)
  have hrun : CommandRun (fun q label ↦ ¬ q.SpoilsDir label.2) 8 ⟨t, 0⟩ :=
    ⟨⟨s, 0⟩, ⟨hfresh, rfl⟩, Relation.ReflTransGen.single ⟨_, hkeeps, hstep⟩⟩
  obtain ⟨dirs, parent, his, bound, hlists⟩ :=
    lsr_lists_below (by decide : 0 < 8) (by decide) hrun
  have hroot : dirs' 0 = dirs 0 :=
    (hmade.represents.records 0 hmade.isDir).unique (his.records 0 his.root)
  rw [hroot] at hlook
  obtain ⟨c', hcast, hpresent⟩ := hmade.represents.present_of_lookup hmade.isDir (hroot ▸ hlook)
  obtain rfl : c = c' := Nat.cast_inj.mp hcast
  have hc : t.IsDirectory c := ⟨(hmade.represents.present c).mp hpresent, htype⟩
  obtain ⟨r, hr, hname, -⟩ := exists_of_lookup (his.self c hc)
  obtain ⟨-, hlist, hprints⟩ := hlists bound le_rfl dot 0 (his.self 0 his.root) his.root
  exact ⟨⟨s, 0⟩, ⟨t, 0⟩, ⟨hfresh, rfl⟩, hstep, dirs, parent, his, c, r, bound, hne, hlook, hc,
    hname, (hlist.mem_iff c r).mpr ⟨hc, his.up c hc, hr⟩, hlist, hprints⟩

end Commands

end OperatingSystems.Fs
