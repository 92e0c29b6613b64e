import OperatingSystems.Fs.DirOps
import OperatingSystems.Library.NameTree

/-!
# The name space as a tree

`Represents s T dirs` says that the directories of a file system, with the records `dirs`, are the
tree `T`: an inode is present when its number is allocated, the records in use of a directory have
distinct names, `"."` and `".."` lead to the directory and its parent, and the other names are its
entries. Entering a record and removing one are the operations of the tree.
-/

set_option autoImplicit false
set_option relaxedAutoImplicit false

namespace OperatingSystems.Fs

open Library

/-! ### Names of a directory -/

/-- The records in use. -/
def liveRecords (rs : List Record) : List Record := rs.filter Record.live

/-- No two records in use have the same name. -/
def DistinctNames (rs : List Record) : Prop := ((liveRecords rs).map Record.name).Nodup

theorem lookup_eq_find? (rs : List Record) (name : CString) :
    lookup rs name = ((liveRecords rs).find? fun r ↦ decide (r.name = name)).map Record.nr := by
  have hnamed : Record.named name =
      fun r ↦ decide (r.live = true ∧ decide (r.name = name) = true) := by
    funext r
    rw [Record.named, Bool.decide_and, Bool.decide_eq_true, Bool.decide_eq_true]
  rw [lookup, liveRecords, List.find?_filter, hnamed]

theorem exists_of_lookup {rs : List Record} {name : CString} {v : ℤ} (h : lookup rs name = some v) :
    ∃ r ∈ liveRecords rs, r.name = name ∧ r.nr = v := by
  rw [lookup_eq_find?, Option.map_eq_some_iff] at h
  obtain ⟨r, hfind, hnr⟩ := h
  exact ⟨r, List.mem_of_find?_eq_some hfind, by simpa using List.find?_some hfind, hnr⟩

theorem eq_of_name_eq {rs : List Record} (h : DistinctNames rs) {r r' : Record}
    (hr : r ∈ liveRecords rs) (hr' : r' ∈ liveRecords rs) (hname : r.name = r'.name) : r = r' :=
  List.inj_on_of_nodup_map h hr hr' hname

theorem lookup_of_mem {rs : List Record} (h : DistinctNames rs) {r : Record}
    (hr : r ∈ liveRecords rs) : lookup rs r.name = some r.nr := by
  rw [lookup_eq_find?]
  cases hfind : (liveRecords rs).find? fun r' ↦ decide (r'.name = r.name) with
  | none =>
    have hnot := List.find?_eq_none.mp hfind r hr
    simp at hnot
  | some r' =>
    have hname : r'.name = r.name := by simpa using List.find?_some hfind
    rw [eq_of_name_eq h (List.mem_of_find?_eq_some hfind) hr hname]
    rfl

theorem lookup_eq_some_iff {rs : List Record} (h : DistinctNames rs) {name : CString} {v : ℤ} :
    lookup rs name = some v ↔ ∃ r ∈ liveRecords rs, r.name = name ∧ r.nr = v := by
  refine ⟨exists_of_lookup, ?_⟩
  rintro ⟨r, hr, rfl, rfl⟩
  exact lookup_of_mem h hr

theorem live_of_mem {rs : List Record} {r : Record} (hr : r ∈ liveRecords rs) : 0 ≤ r.nr := by
  have hlive := (List.mem_filter.mp hr).2
  simpa [Record.live] using hlive

theorem lookup_eq_none_iff {rs : List Record} {name : CString} :
    lookup rs name = none ↔ ∀ r ∈ liveRecords rs, r.name ≠ name := by
  rw [lookup_eq_find?, Option.map_eq_none_iff, List.find?_eq_none]
  simp

/-! ### Inserting and removing -/

/-- A name that is not in use does not end the search for its place. -/
theorem live_of_stopsAdd {rs : List Record} {name : CString} (hnone : lookup rs name = none)
    {r : Record} (h : rs.find? (Record.stopsAdd name) = some r) : r.live = false := by
  by_contra hlive
  rw [Bool.not_eq_false] at hlive
  have hstop := List.find?_some h
  rw [Record.stopsAdd, if_pos hlive, decide_eq_true_eq] at hstop
  exact lookup_eq_none_iff.mp hnone r (List.mem_filter.mpr ⟨List.mem_of_find?_eq_some h, hlive⟩)
    hstop

/-- The records in use after an insertion. -/
theorem liveRecords_insertRecord {new : Record} (hnew : new.live = true) {rs : List Record}
    (hnone : lookup rs new.name = none) :
    ∃ first second, liveRecords rs = first ++ second ∧
      liveRecords (insertRecord new rs) = first ++ new :: second := by
  cases hfind : rs.find? (Record.stopsAdd new.name) with
  | none =>
    refine ⟨liveRecords rs, [], (List.append_nil _).symm, ?_⟩
    rw [(insertRecord_of_find?_eq_none hfind).1, liveRecords, List.filter_append,
      List.filter_cons_of_pos hnew, List.filter_nil]
    rfl
  | some r =>
    obtain ⟨post, hsplit, hins⟩ := insertRecord_of_find?_eq_some hfind
    have hdead := live_of_stopsAdd hnone hfind
    refine ⟨liveRecords (rs.takeWhile fun r ↦ !r.stopsAdd new.name), liveRecords post, ?_, ?_⟩
    · conv_lhs => rw [hsplit]
      rw [liveRecords, List.filter_append, List.filter_cons_of_neg (by simp [hdead])]
      rfl
    · rw [hins, liveRecords, List.filter_append, List.filter_cons_of_pos hnew]
      rfl

/-- The records in use after a removal. -/
theorem liveRecords_removeRecord {rs : List Record} {name : CString} {r : Record}
    (hfind : rs.find? (Record.named name) = some r) :
    ∃ first second, liveRecords rs = first ++ r :: second ∧
      liveRecords (removeRecord name rs) = first ++ second := by
  obtain ⟨post, hsplit, hrem⟩ := removeRecord_of_find?_eq_some hfind
  have hlive : r.live = true := by
    have hnamed := List.find?_some hfind
    rw [Record.named, Bool.and_eq_true] at hnamed
    exact hnamed.1
  refine ⟨liveRecords (rs.takeWhile fun r ↦ !r.named name), liveRecords post, ?_, ?_⟩
  · conv_lhs => rw [hsplit]
    rw [liveRecords, List.filter_append, List.filter_cons_of_pos hlive]
    rfl
  · rw [hrem, liveRecords, List.filter_append, List.filter_cons_of_neg (by simp)]
    rfl

theorem DistinctNames.insertRecord {new : Record} (hnew : new.live = true) {rs : List Record}
    (h : DistinctNames rs) (hnone : lookup rs new.name = none) :
    DistinctNames (insertRecord new rs) := by
  obtain ⟨first, second, hold, hins⟩ := liveRecords_insertRecord hnew hnone
  have hfree := lookup_eq_none_iff.mp hnone
  rw [DistinctNames, hold, List.map_append] at h
  rw [DistinctNames, hins, List.map_append, List.map_cons, List.nodup_middle, List.nodup_cons]
  refine ⟨?_, h⟩
  rw [← List.map_append, ← hold, List.mem_map]
  rintro ⟨r, hr, hname⟩
  exact hfree r hr hname

theorem lookup_insertRecord {new : Record} (hnew : new.live = true) {rs : List Record}
    (h : DistinctNames rs) (hnone : lookup rs new.name = none) (name : CString) :
    lookup (insertRecord new rs) name = if name = new.name then some new.nr else lookup rs
      name := by
  obtain ⟨first, second, hold, hins⟩ := liveRecords_insertRecord hnew hnone
  have hdistinct := h.insertRecord hnew hnone
  split_ifs with hname
  · rw [hname]
    exact lookup_of_mem hdistinct (by rw [hins]; simp)
  · ext v
    rw [lookup_eq_some_iff hdistinct, lookup_eq_some_iff h, hold, hins]
    constructor
    · rintro ⟨r, hr, hrname, hrnr⟩
      have hne : r ≠ new := by
        rintro rfl
        exact hname hrname.symm
      exact ⟨r, by simpa [hne] using hr, hrname, hrnr⟩
    · rintro ⟨r, hr, hrname, hrnr⟩
      exact ⟨r, by rcases List.mem_append.mp hr with hr | hr <;> simp [hr], hrname, hrnr⟩

theorem DistinctNames.removeRecord {rs : List Record} (h : DistinctNames rs) {name : CString}
    {r : Record} (hfind : rs.find? (Record.named name) = some r) :
    DistinctNames (removeRecord name rs) := by
  obtain ⟨first, second, hold, hrem⟩ := liveRecords_removeRecord hfind
  rw [DistinctNames, hold, List.map_append, List.map_cons, List.nodup_middle, List.nodup_cons] at h
  rw [DistinctNames, hrem, List.map_append]
  exact h.2

theorem lookup_removeRecord {rs : List Record} (h : DistinctNames rs) {name : CString} {r : Record}
    (hfind : rs.find? (Record.named name) = some r) (name' : CString) :
    lookup (removeRecord name rs) name' = if name' = name then none else lookup rs name' := by
  obtain ⟨first, second, hold, hrem⟩ := liveRecords_removeRecord hfind
  have hrname : r.name = name := by
    have hnamed := List.find?_some hfind
    rw [Record.named, Bool.and_eq_true, decide_eq_true_eq] at hnamed
    exact hnamed.2
  have hdistinct := h.removeRecord hfind
  split_ifs with hname
  · rw [lookup_eq_none_iff, hrem]
    intro r' hr' hr'name
    have hnodup := h
    rw [DistinctNames, hold, List.map_append, List.map_cons, List.nodup_middle, List.nodup_cons,
      ← List.map_append] at hnodup
    apply hnodup.1
    rw [hrname, ← hname, ← hr'name]
    exact List.mem_map_of_mem hr'
  · ext v
    rw [lookup_eq_some_iff hdistinct, lookup_eq_some_iff h, hold, hrem]
    constructor
    · rintro ⟨r', hr', hname', hnr'⟩
      exact ⟨r', by rcases List.mem_append.mp hr' with hr' | hr' <;> simp [hr'], hname', hnr'⟩
    · rintro ⟨r', hr', hname', hnr'⟩
      have hne : r' ≠ r := by
        rintro rfl
        exact hname (hname'.symm.trans hrname)
      exact ⟨r', by simpa [hne] using hr', hname', hnr'⟩

/-! ### The tree of a file system -/

/-- The record for an inode number. -/
def recordFor (c : ℕ) (name : CString) (hc : c < nrInodes) (hname : name.length + 1 < 2 ^ 31) :
    Record where
  nr := c
  name := name
  nr_range := by
    simp only [nrInodes, nrInodeBlocks, inodesPerBlock] at hc
    omega
  name_fits := hname

theorem live_recordFor {c : ℕ} {name : CString} (hc : c < nrInodes)
    (hname : name.length + 1 < 2 ^ 31) : (recordFor c name hc hname).live = true := by
  simp [Record.live, recordFor]

/-- The records of an empty directory. -/
def emptyDir (c p : ℕ) (hc : c < nrInodes) (hp : p < nrInodes) : List Record :=
  [recordFor c dot hc (by decide), recordFor p dotdot hp (by decide)]

theorem liveRecords_emptyDir {c p : ℕ} (hc : c < nrInodes) (hp : p < nrInodes) :
    liveRecords (emptyDir c p hc hp) = emptyDir c p hc hp := by
  rw [liveRecords, List.filter_eq_self]
  intro r hr
  rcases List.mem_cons.mp hr with rfl | hr
  · exact live_recordFor _ _
  · rw [List.mem_singleton.mp hr]
    exact live_recordFor _ _

theorem distinctNames_emptyDir {c p : ℕ} (hc : c < nrInodes) (hp : p < nrInodes) :
    DistinctNames (emptyDir c p hc hp) := by
  rw [DistinctNames, liveRecords_emptyDir]
  change [dot, dotdot].Nodup
  decide

theorem lookup_emptyDir {c p : ℕ} (hc : c < nrInodes) (hp : p < nrInodes) (name : CString) :
    lookup (emptyDir c p hc hp) name =
      if name = dot then some (c : ℤ) else if name = dotdot then some (p : ℤ) else none := by
  have hdistinct := distinctNames_emptyDir hc hp
  have hlive := liveRecords_emptyDir hc hp
  split_ifs with hdot hdotdot
  · exact (lookup_eq_some_iff hdistinct).mpr ⟨recordFor c dot hc (by decide),
      by rw [hlive]; exact List.mem_cons_self, hdot.symm, rfl⟩
  · exact (lookup_eq_some_iff hdistinct).mpr ⟨recordFor p dotdot hp (by decide),
      by rw [hlive]; exact List.mem_cons_of_mem _ (List.mem_singleton_self _), hdotdot.symm, rfl⟩
  · rw [lookup_eq_none_iff, hlive]
    intro r hr
    rcases List.mem_cons.mp hr with rfl | hr
    · exact Ne.symm hdot
    · rw [List.mem_singleton.mp hr]
      exact Ne.symm hdotdot

/-- The directories of the file system are the tree `T`, with the records `dirs`. -/
structure Represents (s : FsState) (T : NameTree ℕ CString) (dirs : ℕ → List Record) : Prop where
  root : T.root = 0
  present : ∀ i, T.present i ↔ i ∈ s.inodeFreemap.allocated
  bound : ∀ i, T.present i → i < nrInodes
  isDir : ∀ i, T.isDir i ↔ T.present i ∧ (s.dinode i).iType = InodeType.dir.code
  records : ∀ d, T.isDir d → IsDir s d (dirs d)
  distinct : ∀ d, T.isDir d → DistinctNames (dirs d)
  self : ∀ d, T.isDir d → lookup (dirs d) dot = some (d : ℤ)
  parent : ∀ d, T.isDir d → lookup (dirs d) dotdot = some (T.parent d : ℤ)
  entry : ∀ d, T.isDir d → ∀ name, name ≠ dot → name ≠ dotdot →
    lookup (dirs d) name = (T.entry d name).map (Nat.cast : ℕ → ℤ)
  dots : ∀ d, T.isDir d → T.entry d dot = none ∧ T.entry d dotdot = none
  free : ∀ i < nrInodes, ¬ T.present i → s.dinode i = Dinode.zero

namespace Represents

variable {s t : FsState} {T : NameTree ℕ CString} {dirs : ℕ → List Record}

theorem lt (h : Represents s T dirs) {d : ℕ} (hd : T.isDir d) : d < nrInodes :=
  h.bound d (T.present_of_isDir hd)

/-- The tree depends on the allocated numbers, the types, and the directories. -/
theorem congr (h : Represents s T dirs)
    (halloc : t.inodeFreemap.allocated = s.inodeFreemap.allocated)
    (htype : ∀ i, T.present i → (t.dinode i).iType = (s.dinode i).iType)
    (hdinode : ∀ d, T.isDir d → t.dinode d = s.dinode d)
    (hcontent : ∀ d, T.isDir d → t.content d = s.content d)
    (hfree : ∀ i < nrInodes, ¬ T.present i → t.dinode i = Dinode.zero) : Represents t T dirs where
  root := h.root
  present := fun i ↦ by rw [h.present, halloc]
  bound := h.bound
  isDir := by
    intro i
    rw [h.isDir]
    refine and_congr_right fun hpresent ↦ ?_
    rw [htype i hpresent]
  records := fun d hd ↦ (h.records d hd).congr (hdinode d hd) (hcontent d hd)
  distinct := h.distinct
  self := h.self
  parent := h.parent
  entry := h.entry
  dots := h.dots
  free := hfree

/-- The tree of a file system whose inodes are as they were. -/
theorem of_dinode (h : Represents s T dirs)
    (halloc : t.inodeFreemap.allocated = s.inodeFreemap.allocated)
    (hdinode : ∀ i < nrInodes, t.dinode i = s.dinode i)
    (hcontent : ∀ i < nrInodes, t.content i = s.content i) : Represents t T dirs :=
  h.congr halloc (fun i hi ↦ by rw [hdinode i (h.bound i hi)]) (fun d hd ↦ hdinode d (h.lt hd))
    (fun d hd ↦ hcontent d (h.lt hd)) fun i hi hnot ↦ by rw [hdinode i hi, h.free i hi hnot]

/-- A new inode is entered in a directory. -/
theorem add (h : Represents s T dirs) {d c : ℕ} {name : CString} (type : InodeType)
    (hd : T.isDir d) (hnone : T.entry d name = none) (hdot : name ≠ dot) (hdotdot : name ≠ dotdot)
    (hc : c < nrInodes) (hfree : ¬ T.present c) (hname : name.length + 1 < 2 ^ 31)
    (halloc : t.inodeFreemap.allocated = insert c s.inodeFreemap.allocated)
    (hdinode : ∀ j < nrInodes, j ≠ c → j ≠ d → t.dinode j = s.dinode j)
    (hcontent : ∀ j < nrInodes, j ≠ c → j ≠ d → t.content j = s.content j)
    (hdir : IsDir t d (insertRecord (recordFor c name hc hname) (dirs d)))
    (htype : (t.dinode c).iType = type.code)
    (hnew : type = .dir → IsDir t c (emptyDir c d hc (h.lt hd))) :
    Represents t (T.add d c name (type = .dir) hd hnone hfree)
      (Function.update (Function.update dirs d (insertRecord (recordFor c name hc hname) (dirs d)))
        c
        (emptyDir c d hc (h.lt hd))) := by
  have hdc : d ≠ c := fun heq ↦ hfree (heq ▸ T.present_of_isDir hd)
  have hlookup : lookup (dirs d) (recordFor c name hc hname).name = none := by
    change lookup (dirs d) name = none
    rw [h.entry d hd name hdot hdotdot, hnone]
    rfl
  have hlive := live_recordFor (c := c) hc hname
  have hcases : ∀ e, (T.add d c name (type = .dir) hd hnone hfree).isDir e →
      e = c ∧ type = .dir ∨ e ≠ c ∧ T.isDir e := by
    rintro e (he | hself)
    · exact Or.inr ⟨fun heq ↦ hfree (heq ▸ T.present_of_isDir he), he⟩
    · exact Or.inl hself.symm
  have hdirs : ∀ e, e ≠ c → e ≠ d → Function.update (Function.update dirs d
      (insertRecord (recordFor c name hc hname) (dirs d))) c (emptyDir c d hc (h.lt hd)) e =
        dirs e :=
    fun e hec hed ↦ by rw [Function.update_of_ne hec, Function.update_of_ne hed]
  have hdirsD : Function.update (Function.update dirs d
      (insertRecord (recordFor c name hc hname) (dirs d))) c (emptyDir c d hc (h.lt hd)) d =
        insertRecord (recordFor c name hc hname) (dirs d) := by
    rw [Function.update_of_ne hdc, Function.update_self]
  have hins : ∀ m, lookup (insertRecord (recordFor c name hc hname) (dirs d)) m =
      if m = name then some (c : ℤ) else lookup (dirs d) m :=
    lookup_insertRecord hlive (h.distinct d hd) hlookup
  refine ⟨h.root, ?_, ?_, ?_, ?_, ?_, ?_, ?_, ?_, ?_, ?_⟩
  · intro i
    change T.present i ∨ i = c ↔ _
    rw [halloc, Finset.mem_insert, h.present, or_comm]
  · rintro i (hi | rfl)
    · exact h.bound i hi
    · exact hc
  · intro i
    change T.isDir i ∨ type = .dir ∧ i = c ↔ (T.present i ∨ i = c) ∧ _
    by_cases hic : i = c
    · subst hic
      have hcode : type.code = InodeType.dir.code ↔ type = .dir := by cases type <;> decide
      rw [htype, hcode]
      exact ⟨fun hor ↦ ⟨Or.inr rfl, hor.elim (fun hi ↦ (hfree (T.present_of_isDir hi)).elim)
        fun hand ↦ hand.1⟩, fun hand ↦ Or.inr ⟨hand.2, rfl⟩⟩
    · have hiff : T.isDir i ↔ T.present i ∧ (t.dinode i).iType = InodeType.dir.code := by
        by_cases hid : i = d
        · subst hid
          exact ⟨fun hi ↦ ⟨T.present_of_isDir hi, hdir.type⟩, fun _ ↦ hd⟩
        · rw [h.isDir]
          refine and_congr_right fun hpresent ↦ ?_
          rw [hdinode i (h.bound i hpresent) hic hid]
      rw [hiff]
      simp only [hic, or_false, and_false]
  · intro e he
    rcases hcases e he with ⟨rfl, hdirType⟩ | ⟨hec, he'⟩
    · rw [Function.update_self]
      exact hnew hdirType
    · by_cases hed : e = d
      · subst hed
        rw [hdirsD]
        exact hdir
      · rw [hdirs e hec hed]
        exact (h.records e he').congr (hdinode e (h.lt he') hec hed) (hcontent e (h.lt he') hec hed)
  · intro e he
    rcases hcases e he with ⟨rfl, -⟩ | ⟨hec, he'⟩
    · rw [Function.update_self]
      exact distinctNames_emptyDir _ _
    · by_cases hed : e = d
      · subst hed
        rw [hdirsD]
        exact (h.distinct e hd).insertRecord hlive hlookup
      · rw [hdirs e hec hed]
        exact h.distinct e he'
  · intro e he
    rcases hcases e he with ⟨rfl, -⟩ | ⟨hec, he'⟩
    · rw [Function.update_self, lookup_emptyDir, if_pos rfl]
    · by_cases hed : e = d
      · subst hed
        rw [hdirsD, hins, if_neg hdot.symm]
        exact h.self e hd
      · rw [hdirs e hec hed]
        exact h.self e he'
  · intro e he
    change _ = some ((if e = c then d else T.parent e : ℕ) : ℤ)
    rcases hcases e he with ⟨rfl, -⟩ | ⟨hec, he'⟩
    · rw [Function.update_self, lookup_emptyDir, if_neg (by decide), if_pos rfl, if_pos rfl]
    · rw [if_neg hec]
      by_cases hed : e = d
      · subst hed
        rw [hdirsD, hins, if_neg hdotdot.symm]
        exact h.parent e hd
      · rw [hdirs e hec hed]
        exact h.parent e he'
  · intro e he m hm hm'
    change _ = (if e = d ∧ m = name then some c else if e = c then none else T.entry e m).map
      (Nat.cast : ℕ → ℤ)
    rcases hcases e he with ⟨rfl, -⟩ | ⟨hec, he'⟩
    · rw [Function.update_self, lookup_emptyDir, if_neg hm, if_neg hm', if_neg fun hand ↦
        hdc hand.1.symm, if_pos rfl]
      rfl
    · rw [if_neg hec]
      by_cases hed : e = d
      · subst hed
        rw [hdirsD, hins]
        by_cases hmn : m = name
        · rw [if_pos hmn, if_pos ⟨rfl, hmn⟩]
          rfl
        · rw [if_neg hmn, if_neg fun hand ↦ hmn hand.2]
          exact h.entry e hd m hm hm'
      · rw [hdirs e hec hed, if_neg fun hand ↦ hed hand.1]
        exact h.entry e he' m hm hm'
  · intro e he
    change (if e = d ∧ dot = name then some c else if e = c then none else T.entry e dot) = none ∧
      (if e = d ∧ dotdot = name then some c else if e = c then none else T.entry e dotdot) = none
    have hnew : ∀ m, m ≠ name → ¬ (e = d ∧ m = name) := fun m hm hand ↦ hm hand.2
    rw [if_neg (hnew dot hdot.symm), if_neg (hnew dotdot hdotdot.symm)]
    rcases hcases e he with ⟨hec, -⟩ | ⟨hec, he'⟩
    · rw [if_pos hec, if_pos hec]
      exact ⟨rfl, rfl⟩
    · rw [if_neg hec, if_neg hec]
      exact h.dots e he'
  · intro i hi hnot
    have hic : i ≠ c := fun heq ↦ hnot (Or.inr heq)
    have hpresent : ¬ T.present i := fun hp ↦ hnot (Or.inl hp)
    have hid : i ≠ d := fun heq ↦ hpresent (heq ▸ T.present_of_isDir hd)
    rw [hdinode i hi hic hid, h.free i hi hpresent]

/-- An entry is removed with its inode. -/
theorem remove (h : Represents s T dirs) {d c : ℕ} {name : CString} (hd : T.isDir d)
    (hentry : T.entry d name = some c) (hdot : name ≠ dot) (hdotdot : name ≠ dotdot)
    (hleaf : T.isDir c → ∀ m, T.entry c m = none) {r : Record}
    (hfind : (dirs d).find? (Record.named name) = some r)
    (halloc : t.inodeFreemap.allocated = s.inodeFreemap.allocated.erase c)
    (hdinode : ∀ j < nrInodes, j ≠ c → j ≠ d → t.dinode j = s.dinode j)
    (hcontent : ∀ j < nrInodes, j ≠ c → j ≠ d → t.content j = s.content j)
    (hdir : IsDir t d (removeRecord name (dirs d))) (hzero : t.dinode c = Dinode.zero)
    (hdc : d ≠ c) :
    Represents t (T.remove d c name hd hentry hleaf)
      (Function.update dirs d (removeRecord name (dirs d))) := by
  have hrem := lookup_removeRecord (h.distinct d hd) hfind
  have hdirs : ∀ e, e ≠ d → Function.update dirs d (removeRecord name (dirs d)) e = dirs e :=
    fun e hed ↦ Function.update_of_ne hed _ _
  refine ⟨h.root, ?_, fun i hi ↦ h.bound i hi.1, ?_, ?_, ?_, ?_, ?_, ?_, ?_, ?_⟩
  · intro i
    change T.present i ∧ i ≠ c ↔ _
    rw [halloc, Finset.mem_erase, h.present, and_comm]
  · intro i
    change T.isDir i ∧ i ≠ c ↔ (T.present i ∧ i ≠ c) ∧ _
    by_cases hid : i = d
    · subst hid
      exact ⟨fun hand ↦ ⟨⟨T.present_of_isDir hd, hand.2⟩, hdir.type⟩, fun hand ↦ ⟨hd, hand.1.2⟩⟩
    · rw [h.isDir, and_assoc, and_assoc]
      refine and_congr_right fun hpresent ↦ ?_
      by_cases hic : i = c
      · simp [hic]
      · rw [hdinode i (h.bound i hpresent) hic hid]
        exact and_comm
  · rintro e ⟨he, hec⟩
    by_cases hed : e = d
    · subst hed
      rw [Function.update_self]
      exact hdir
    · rw [hdirs e hed]
      exact (h.records e he).congr (hdinode e (h.lt he) hec hed) (hcontent e (h.lt he) hec hed)
  · rintro e ⟨he, -⟩
    by_cases hed : e = d
    · subst hed
      rw [Function.update_self]
      exact (h.distinct e he).removeRecord hfind
    · rw [hdirs e hed]
      exact h.distinct e he
  · rintro e ⟨he, -⟩
    by_cases hed : e = d
    · subst hed
      rw [Function.update_self, hrem, if_neg hdot.symm]
      exact h.self e he
    · rw [hdirs e hed]
      exact h.self e he
  · rintro e ⟨he, -⟩
    change _ = some ((T.parent e : ℕ) : ℤ)
    by_cases hed : e = d
    · subst hed
      rw [Function.update_self, hrem, if_neg hdotdot.symm]
      exact h.parent e he
    · rw [hdirs e hed]
      exact h.parent e he
  · rintro e ⟨he, -⟩ m hm hm'
    change _ = (if e = d ∧ m = name then none else T.entry e m).map (Nat.cast : ℕ → ℤ)
    by_cases hed : e = d
    · subst hed
      rw [Function.update_self, hrem]
      by_cases hmn : m = name
      · rw [if_pos hmn, if_pos ⟨rfl, hmn⟩]
        rfl
      · rw [if_neg hmn, if_neg fun hand ↦ hmn hand.2]
        exact h.entry e he m hm hm'
    · rw [hdirs e hed, if_neg fun hand ↦ hed hand.1]
      exact h.entry e he m hm hm'
  · rintro e ⟨he, -⟩
    change (if e = d ∧ dot = name then none else T.entry e dot) = none ∧
      (if e = d ∧ dotdot = name then none else T.entry e dotdot) = none
    rw [if_neg fun hand ↦ hdot hand.2.symm, if_neg fun hand ↦ hdotdot hand.2.symm]
    exact h.dots e he
  · intro i hi hnot
    by_cases hic : i = c
    · rw [hic, hzero]
    · have hpresent : ¬ T.present i := fun hp ↦ hnot ⟨hp, hic⟩
      have hid : i ≠ d := fun heq ↦ hpresent (heq ▸ T.present_of_isDir hd)
      rw [hdinode i hi hic hid, h.free i hi hpresent]

end Represents

end OperatingSystems.Fs
