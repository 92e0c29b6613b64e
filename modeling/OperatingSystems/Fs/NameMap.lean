import OperatingSystems.Fs.References

/-!
# A directory is a map from names

For a directory of fewer than `2^31` bytes that consists of records, `directory_is_name_map` puts
together what the loops of `dir.c` do: `testfs_next_dirent` goes through the records,
`testfs_dir_name_to_inode_nr` finds the first one in use with the name, `testfs_add_dirent` puts a
record in the first place that fits it, and `testfs_remove_dirent` marks one record as free.

The last one writes in the place of a record, for which the blocks are there, and cannot fail.
-/

set_option autoImplicit false
set_option relaxedAutoImplicit false

namespace OperatingSystems.Fs

open Library

/-! ### Going through the records -/

/-- Call `testfs_next_dirent` from an offset on until there is no record any more. The first
argument bounds the number of calls. -/
def nextDirents (dir : ℕ) : ℕ → ℤ → FsProgram (List Dirent)
  | 0, _ => Program.halt .depth
  | turns + 1, offset => do
    let next ← testfsNextDirent dir offset
    match next with
    | none => pure []
    | some (d, offset') => do
      let rest ← nextDirents dir turns offset'
      pure (d :: rest)

/-- The calls return the records in turn. -/
theorem nextDirents_run {s : FsState} {i : ℕ} {inode : Inode} (hs : Sound s)
    (ht : s.inodeHashTable i = some inode) (turns : ℕ) : ∀ (pre post : List Record),
    IsDir s i (pre ++ post) → post.length < turns →
    (nextDirents i turns (encodeDir pre).length).run s = .ok (post.map Record.dirent, s) := by
  induction turns with
  | zero => exact fun _ _ _ hturns ↦ absurd hturns (Nat.not_lt_zero _)
  | succ turns ih =>
    intro pre post h hturns
    rw [nextDirents, Program.run_bind (testfsNextDirent_run hs ht h)]
    cases post with
    | nil => rfl
    | cons r post =>
      simp only [List.head?_cons, Option.map_some]
      rw [List.append_cons] at h
      rw [Program.run_bind (ih (pre ++ [r]) post h (by simpa using hturns)), Program.pure_run,
        List.map_cons]

/-! ### The place of a new record -/

/-- A record that is free and has a name of the same length. -/
def Record.FreeFor (name : CString) (r : Record) : Prop :=
  r.live = false ∧ r.name.length = name.length

/-- The new record is in the place of the first record that is free for it, or at the end when there
is none. -/
def Placed (new : Record) (rs rs' : List Record) : Prop :=
  (∃ pre r post, rs = pre ++ r :: post ∧ rs' = pre ++ new :: post ∧ r.FreeFor new.name ∧
    ∀ q ∈ pre, ¬ q.FreeFor new.name) ∨
  (∀ q ∈ rs, ¬ q.FreeFor new.name) ∧ rs' = rs ++ [new]

section Place

variable {new r r' : Record} {rs rs' pre post : List Record} {name : CString}

theorem Placed.cons (h : Placed new rs rs') (hr : ¬ r.FreeFor new.name) :
    Placed new (r :: rs) (r :: rs') := by
  rcases h with ⟨pre, q, post, rfl, rfl, hq, hpre⟩ | ⟨hnone, rfl⟩
  · refine Or.inl ⟨r :: pre, q, post, rfl, rfl, hq, fun p hp ↦ ?_⟩
    rcases List.mem_cons.mp hp with rfl | hp
    · exact hr
    · exact hpre p hp
  · refine Or.inr ⟨fun p hp ↦ ?_, rfl⟩
    rcases List.mem_cons.mp hp with rfl | hp
    · exact hr
    · exact hnone p hp

/-- The record is inserted there if its name is not in use. -/
theorem placed_insertRecord : ∀ {rs : List Record}, lookup rs new.name = none →
    Placed new rs (insertRecord new rs) := by
  intro rs
  induction rs with
  | nil => exact fun _ ↦ Or.inr ⟨by simp, rfl⟩
  | cons r rs ih =>
    intro hnone
    have hr : ¬ (r.live = true ∧ r.name = new.name) := by
      rintro ⟨hlive, hname⟩
      exact lookup_eq_none_iff.mp hnone r (List.mem_filter.mpr ⟨List.mem_cons_self, hlive⟩) hname
    have hrest : lookup rs new.name = none := lookup_eq_none_iff.mpr fun q hq ↦ by
      refine lookup_eq_none_iff.mp hnone q (List.mem_filter.mpr ?_)
      exact ⟨List.mem_cons_of_mem r (List.mem_filter.mp hq).1, (List.mem_filter.mp hq).2⟩
    rw [insertRecord]
    cases hlive : r.live with
    | true =>
      have hstop : r.stopsAdd new.name = false := by
        rw [Record.stopsAdd, hlive, if_pos rfl]
        exact decide_eq_false fun hname ↦ hr ⟨hlive, hname⟩
      rw [hstop, if_neg Bool.false_ne_true]
      refine (ih hrest).cons fun hfree ↦ ?_
      rw [Record.FreeFor, hlive] at hfree
      exact absurd hfree.1 (by decide)
    | false =>
      have hstop : r.stopsAdd new.name = decide (r.name.length = new.name.length) := by
        rw [Record.stopsAdd, hlive, if_neg Bool.false_ne_true]
      by_cases hlen : r.name.length = new.name.length
      · rw [hstop, if_pos (decide_eq_true hlen)]
        exact Or.inl ⟨[], r, rs, rfl, rfl, ⟨hlive, hlen⟩, by simp⟩
      · rw [hstop, if_neg (by simpa using hlen)]
        exact (ih hrest).cons fun hfree ↦ hlen hfree.2

/-- A lookup does not see a change of a record that does not have the name before or after. -/
theorem lookup_middle (hr : r.named name = false) (hr' : r'.named name = false) :
    lookup (pre ++ r' :: post) name = lookup (pre ++ r :: post) name := by
  rw [lookup, lookup, List.find?_append, List.find?_append, List.find?_cons_of_neg (by simp [hr']),
    List.find?_cons_of_neg (by simp [hr])]

/-- Another name is found as before when the new record is in its place. -/
theorem Placed.lookup_of_ne (h : Placed new rs rs') (hname : name ≠ new.name) :
    lookup rs' name = lookup rs name := by
  have hnew : new.named name = false := by
    rw [Record.named, decide_eq_false (Ne.symm hname), Bool.and_false]
  rcases h with ⟨pre, r, post, rfl, rfl, ⟨hdead, -⟩, -⟩ | ⟨-, rfl⟩
  · exact lookup_middle (by rw [Record.named, hdead, Bool.false_and]) hnew
  · rw [lookup, lookup, List.find?_append, List.find?_cons_of_neg (by simp [hnew]), List.find?_nil,
      Option.or_none]

end Place

/-! ### The map -/

section Map

variable {ρ : ℕ → ℕ} {s t : FsState} {i c : ℕ} {L : List Record} {a : ℤ}

/-- The test whether an inode may be removed leaves the state as it is. -/
theorem Referenced.removeDirentAllowed (h : Referenced ρ s)
    (hrun : (testfsRemoveDirentAllowed c).run s = .ok (a, t)) : t = s := by
  obtain ⟨_, u, hget, hrest⟩ := Program.bind_eq_ok_iff.mp hrun
  have hlt := h.sound.lt_of_getInode hget
  obtain ⟨-, rfl⟩ := Prod.mk.inj (Except.ok.inj
    ((testfsGetInode_fetch h.sound.core.layout hlt).symm.trans hget))
  obtain ⟨b, v, hcheck, hrest⟩ := Program.bind_eq_ok_iff.mp hrest
  obtain rfl : v = s.fetch c := preserves_checkEmpty (I := (· = s.fetch c)) c rfl hcheck
  obtain ⟨_, w, hput, hpure⟩ := Program.bind_eq_ok_iff.mp hrest
  obtain ⟨-, rfl⟩ := Prod.mk.inj (Except.ok.inj hpure)
  have hquiet : ∀ inode, s.inodeHashTable c = some inode → inode.dirty = false ∧
      1 ≤ inode.iCount := by
    intro inode hc
    have hmem : (s.fetch c).inodeHashTable c = some { inode with iCount := inode.iCount + 1 } := by
      rw [FsState.fetch, inodeHashTable_setInode_self, hc]
    have hclean := hput
    rw [testfsPutInode, Program.run_bind (inodeRef_run hmem)] at hclean
    obtain ⟨_, x, hdirty, -⟩ := Program.bind_eq_ok_iff.mp hclean
    have hcount := h.counts c
    rw [hc, Option.map_some] at hcount
    split_ifs at hcount with hzero
    refine ⟨(Program.check_eq_ok_iff.mp hdirty).1, ?_⟩
    rw [Option.some.inj hcount]
    omega
  exact (Prod.mk.inj (Except.ok.inj ((putInode_fetch_run hquiet).symm.trans hput))).2.symm

/-- Assumes: a sound file system whose in-memory inodes are counted by `ρ`, and in memory a
directory with the records `L` and fewer than `2^31` bytes. Then the calls of `testfs_next_dirent`
return `L`, a lookup finds the first record in use with the name, adding a name that is not in use
places its record, removing a name that may be removed frees one record, and all other names are
found as before. -/
theorem directory_is_name_map (h : Referenced ρ s) (hi : ρ i ≠ 0) (hdir : IsDir s i L)
    (hsize : (encodeDir L).length < 2 ^ 31) :
    (∀ turns > L.length, (nextDirents i turns 0).run s = .ok (L.map Record.dirent, s)) ∧
    (∀ name, (testfsDirNameToInodeNr i name).run s = .ok ((lookup L name).getD (-eNOENT), s)) ∧
    (∀ name nr, 0 ≤ nr → nr < 2 ^ 31 → lookup L name = none →
      (name.length + 1 < 2 ^ 31 → ∃ ret t, (testfsAddDirent i name nr).run s = .ok (ret, t)) ∧
      ∀ ret t, (testfsAddDirent i name nr).run s = .ok (ret, t) → 0 ≤ ret →
        ∃ new L', new.name = name ∧ new.nr = nr ∧ Placed new L L' ∧ IsDir t i L' ∧ Others i s t ∧
          ∀ name', name' ≠ name →
            (testfsDirNameToInodeNr i name').run t = .ok ((lookup L name').getD (-eNOENT), t)) ∧
    (∀ name r, name ≠ dot → name ≠ dotdot → L.find? (Record.named name) = some r →
      ∀ a u, (testfsRemoveDirentAllowed r.nr.toNat).run s = .ok (a, u) → 0 ≤ a →
        ∃ t pre post, (testfsRemoveDirent i name).run s = .ok (r.nr, t) ∧ L = pre ++ r :: post ∧
          (∀ q ∈ pre, q.named name = false) ∧ IsDir t i (pre ++ r.remove :: post) ∧ Others i s t ∧
          ∀ name', name' ≠ name →
            (testfsDirNameToInodeNr i name').run t = .ok ((lookup L name').getD (-eNOENT), t)) := by
  obtain ⟨inode, ht⟩ : ∃ inode, s.inodeHashTable i = some inode := by
    have hcount := h.counts i
    rw [if_neg hi] at hcount
    obtain ⟨inode, ht, -⟩ := Option.map_eq_some_iff.mp hcount
    exact ⟨inode, ht⟩
  refine ⟨?_, ?_, ?_, ?_⟩
  · intro turns hturns
    exact nextDirents_run h.sound ht turns [] L hdir hturns
  · exact testfsDirNameToInodeNr_run h.sound ht hdir
  · intro name nr hnr hhigh hnone
    by_cases hfits : name.length + 1 < 2 ^ 31
    swap
    · refine ⟨fun hlt ↦ absurd hlt hfits, fun ret t hrun hret ↦ ?_⟩
      have hneg := (testfsAddDirent_long (not_lt.mp hfits) h.sound ht hdir hrun).1
      omega
    obtain ⟨new, rfl, rfl⟩ : ∃ new : Record, new.name = name ∧ new.nr = nr :=
      ⟨⟨nr, name, ⟨by omega, hhigh⟩, hfits⟩, rfl, rfl⟩
    obtain ⟨failure, t, inode', hrun, hadded⟩ := testfsAddDirent_run h.sound ht hdir hsize new hnr
      fun r hr ↦ live_of_stopsAdd hnone hr
    refine ⟨fun _ ↦ ⟨_, t, hrun⟩, fun ret u hrun' hret ↦ ?_⟩
    obtain ⟨rfl, rfl⟩ := Prod.mk.inj (Except.ok.inj (hrun.symm.trans hrun'))
    obtain ⟨start, n, hw, -⟩ := hadded.written
    have hsucceeds : failure = none := by
      cases hfail : failure with
      | none => rfl
      | some e =>
        have hneg := hw.failure_neg hfail
        rw [hfail, Option.getD_some] at hret
        omega
    have hplaced := placed_insertRecord hnone
    have hdone := hadded.isDir hsucceeds
    refine ⟨new, _, rfl, rfl, hplaced, hdone, hw.others, fun name' hname' ↦ ?_⟩
    rw [testfsDirNameToInodeNr_run hw.sound hw.inMemory hdone, hplaced.lookup_of_ne hname']
  · intro name r hdot hdotdot hfind a u hallowed ha
    obtain rfl := h.removeDirentAllowed hallowed
    obtain ⟨t, inode', hrun, hw, -, hdone⟩ := testfsRemoveDirent_done h.sound ht hdir
      (not_or.mpr ⟨hdot, hdotdot⟩)
        (lt_of_le_of_lt (size_le_encodeDir (List.mem_of_find?_eq_some hfind)) hsize)
      hfind ha hallowed
    obtain ⟨post, hsplit, hrem⟩ := removeRecord_of_find?_eq_some hfind
    rw [hrem] at hdone
    refine ⟨t, _, post, hrun, hsplit, fun q hq ↦ ?_, hdone, hw.others, fun name' hname' ↦ ?_⟩
    · simpa using List.all_eq_true.mp List.all_takeWhile q hq
    · have hnamed := List.find?_some hfind
      rw [Record.named, Bool.and_eq_true, decide_eq_true_eq] at hnamed
      have hother : r.named name' = false := by
        rw [Record.named, decide_eq_false fun heq ↦ hname' (heq.symm.trans hnamed.2),
          Bool.and_false]
      rw [testfsDirNameToInodeNr_run hw.sound hw.inMemory hdone, lookup_middle hother (by rfl),
        ← hsplit]

end Map

/-- The root of a new file system is a map from names. -/
theorem root_is_name_map : ∃ (p : Session) (L : List Record), Started 8 p ∧ IsDir p.fs 0 L ∧
    ∀ turns > L.length, (nextDirents 0 turns 0).run p.fs = .ok (L.map Record.dirent, p.fs) := by
  obtain ⟨p, -, T, dirs, c, hstart, hquiet, -⟩ := fresh_create (by decide : 0 < 8) (by decide)
  obtain ⟨s, hfresh, hspec⟩ := freshFs_spec (by decide : 8 ≤ nrDataBlocks)
  obtain rfl := Except.ok.inj (hfresh.symm.trans hstart.1)
  have htree := hspec.inTree hquiet.1
  have hdir := htree.represents.records 0 htree.isDir
  have hreferenced := hstart.referenced (by decide)
  rw [hstart.2] at hreferenced
  exact ⟨p, _, hstart, hdir, (directory_is_name_map hreferenced (only_ne_zero 0) hdir
    (by decide)).1⟩

end OperatingSystems.Fs
