import OperatingSystems.Fs.CommandRuns
import OperatingSystems.Fs.InodeRuns

/-!
# References to in-memory inodes

`Referenced ρ s` says that the hash table of a sound file system holds exactly the inodes with a
positive `ρ`, each with that count. `testfs_get_inode` adds one to the count of its inode,
`testfs_put_inode` takes one away, and everything else keeps the counts, so every function has a
triple on `ρ`. Allocations may fail in these runs and directories may be left with records that
were written in part: the triples say nothing about the content of directories.

All commands are balanced but `cmd_ls` and `cmd_lsr` of an inode that is not a directory, which
return without dropping it.
-/

set_option autoImplicit false
set_option relaxedAutoImplicit false

namespace OperatingSystems.Fs

open Library Library.Machine

/-! ### Counts -/

/-- The file system is sound and the in-memory inodes are those with a positive count. -/
structure Referenced (ρ : ℕ → ℕ) (s : FsState) : Prop where
  sound : Sound s
  counts : ∀ i, (s.inodeHashTable i).map Inode.iCount = if ρ i = 0 then none else some (ρ i : ℤ)

/-- One more reference to an inode. -/
def take (ρ : ℕ → ℕ) (i : ℕ) : ℕ → ℕ := Function.update ρ i (ρ i + 1)

/-- One reference less to an inode. -/
def drop (ρ : ℕ → ℕ) (i : ℕ) : ℕ → ℕ := Function.update ρ i (ρ i - 1)

/-- One reference to the current directory and none else. -/
def only (i : ℕ) : ℕ → ℕ := fun j ↦ if j = i then 1 else 0

theorem drop_take (ρ : ℕ → ℕ) (i : ℕ) : drop (take ρ i) i = ρ := by
  funext j
  by_cases hj : j = i
  · subst hj
    simp [drop, take]
  · simp [drop, take, hj]

theorem drop_take_only (i j : ℕ) : drop (take (only i) j) i = only j := by
  funext k
  by_cases hk : k = i
  · subst hk
    by_cases hj : k = j
    · subst hj
      simp [drop, take, only]
    · simp [drop, take, only, hj]
  · by_cases hj : k = j
    · subst hj
      simp [drop, take, only, hk]
    · simp [drop, take, only, hk, hj]

theorem take_ne_zero (ρ : ℕ → ℕ) (i : ℕ) : take ρ i i ≠ 0 := by
  simp [take]

theorem take_ne_zero_of {ρ : ℕ → ℕ} {i : ℕ} (h : ρ i ≠ 0) (j : ℕ) : take ρ j i ≠ 0 := by
  by_cases hij : i = j
  · simp [take, hij]
  · simpa [take, hij] using h

theorem only_ne_zero (i : ℕ) : only i i ≠ 0 := by
  simp [only]

section Primitives

variable {s t : FsState} {ρ : ℕ → ℕ} {i : ℕ}

theorem Referenced.exists_inode (h : Referenced ρ s) (hi : ρ i ≠ 0) :
    ∃ inode, s.inodeHashTable i = some inode ∧ inode.iCount = ρ i := by
  have hcount := h.counts i
  rw [if_neg hi, Option.map_eq_some_iff] at hcount
  exact hcount

theorem Referenced.count (h : Referenced ρ s) {inode : Inode}
    (ht : s.inodeHashTable i = some inode) :
    ρ i ≠ 0 ∧ inode.iCount = ρ i := by
  have hcount := h.counts i
  rw [ht, Option.map_some] at hcount
  split_ifs at hcount with hzero
  exact ⟨hzero, Option.some.inj hcount⟩

/-- Work on one inode that keeps its count. -/
theorem Referenced.keep (h : Referenced ρ s) (hsound : Sound t) (hothers : Others i s t)
    (hself : (t.inodeHashTable i).map Inode.iCount = (s.inodeHashTable i).map Inode.iCount) :
    Referenced ρ t := by
  refine ⟨hsound, fun j ↦ ?_⟩
  rw [← h.counts j]
  by_cases hji : j = i
  · rw [hji, hself]
  · rw [hothers.table j hji]

/-- Work on one inode that adds a reference to it. -/
theorem Referenced.added (h : Referenced ρ s) (hsound : Sound t) (hothers : Others i s t)
    {inode : Inode} (hself : t.inodeHashTable i = some inode)
    (hcount : inode.iCount = ((s.inodeHashTable i).map Inode.iCount).getD 0 + 1) :
    Referenced (take ρ i) t := by
  refine ⟨hsound, fun j ↦ ?_⟩
  by_cases hji : j = i
  · subst hji
    have hold := h.counts j
    rw [hself, Option.map_some, if_neg (take_ne_zero ρ j), hcount, hold, take, Function.update_self]
    split_ifs with hzero
    · simp [hzero]
    · simp
  · rw [hothers.table j hji, take, Function.update_of_ne hji]
    exact h.counts j

/-- Work on one inode that takes a reference to it away. -/
theorem Referenced.dropped (h : Referenced ρ s) (hsound : Sound t) (hothers : Others i s t)
    {inode inode' : Inode} (hold : s.inodeHashTable i = some inode)
    (hcount : inode'.iCount = inode.iCount - 1)
    (hself : t.inodeHashTable i = if inode.iCount - 1 = 0 then none else some inode') :
    Referenced (drop ρ i) t := by
  refine ⟨hsound, fun j ↦ ?_⟩
  by_cases hji : j = i
  · subst hji
    obtain ⟨hne, heq⟩ := h.count hold
    rw [hself, drop, Function.update_self, heq]
    by_cases hlast : ρ j = 1
    · simp [hlast]
    · rw [if_neg (by omega), if_neg (by omega), Option.map_some, hcount, heq]
      congr 1
      omega
  · rw [hothers.table j hji, drop, Function.update_of_ne hji]
    exact h.counts j

/-! ### The functions that change counts -/

/-- `testfs_get_inode` returns for numbers of inodes only. -/
theorem Sound.lt_of_getInode (h : Sound s) (hrun : (testfsGetInode i).run s = .ok ((), t)) :
    i < nrInodes := by
  cases ht : s.inodeHashTable i with
  | some inode => exact h.lt ht
  | none =>
    rw [testfsGetInode, Program.gets_bind_run, ht] at hrun
    obtain ⟨block, u, hread, -⟩ := Program.bind_eq_ok_iff.mp hrun
    rw [testfsReadInodeBlock, Program.gets_bind_run] at hread
    obtain ⟨nr, v, hnr, -⟩ := Program.bind_eq_ok_iff.mp hread
    obtain ⟨_, w, hcheck, -⟩ := Program.bind_eq_ok_iff.mp hnr
    have hlt := (Program.check_eq_ok_iff.mp hcheck).1
    exact (Nat.div_lt_iff_lt_mul (by decide)).mp hlt

theorem triple_getInode (ρ : ℕ → ℕ) (i : ℕ) :
    Program.Triple (Referenced ρ) (testfsGetInode i) fun _ ↦ Referenced (take ρ i) := by
  intro s t _ h hrun
  obtain ⟨u, n, hget, hu, hsound, -, hcount, -⟩ := h.sound.getInode (h.sound.lt_of_getInode hrun)
  obtain ⟨-, rfl⟩ := Prod.mk.inj (Except.ok.inj (hget.symm.trans hrun))
  refine h.added hsound ?_ (by rw [hu, inodeHashTable_setInode_self]) hcount
  rw [hu]
  exact others_setInode s i _

theorem triple_putInode (ρ : ℕ → ℕ) (i : ℕ) :
    Program.Triple (Referenced ρ) (testfsPutInode i) fun _ ↦ Referenced (drop ρ i) := by
  intro s t _ h hrun
  have hstart := hrun
  rw [testfsPutInode] at hrun
  obtain ⟨inode, u, href, hrest⟩ := Program.bind_eq_ok_iff.mp hrun
  obtain ⟨ht, rfl⟩ := inodeRef_eq_ok href
  obtain ⟨_, v, hcheck, -⟩ := Program.bind_eq_ok_iff.mp hrest
  have hclean := (Program.check_eq_ok_iff.mp hcheck).1
  obtain ⟨-, rfl⟩ := Prod.mk.inj (Except.ok.inj ((testfsPutInode_run ht hclean).symm.trans hstart))
  have hself := inodeHashTable_setInode_self u i
    (if inode.iCount - 1 = 0 then none else some { inode with iCount := inode.iCount - 1 })
  exact h.dropped (h.sound.putInode ht hclean) (others_setInode _ _ _) ht rfl hself

theorem preserves_syncInode (ρ : ℕ → ℕ) (i : ℕ) :
    Program.Preserves (Referenced ρ) (testfsSyncInode i) := by
  intro s t _ h hrun
  have hstart := hrun
  rw [testfsSyncInode] at hrun
  obtain ⟨inode, u, href, -⟩ := Program.bind_eq_ok_iff.mp hrun
  obtain ⟨ht, rfl⟩ := inodeRef_eq_ok href
  cases hdirty : inode.dirty with
  | true =>
    obtain ⟨v, hsync, hflushed⟩ := h.sound.flush ht hdirty
    obtain ⟨-, rfl⟩ := Prod.mk.inj (Except.ok.inj (hsync.symm.trans hstart))
    exact h.keep hflushed.sound hflushed.others (by rw [hflushed.inMemory, ht]; rfl)
  | false =>
    have hsync := testfsSyncInode_run h.sound.core.layout (h.sound.lt ht) ht
    rw [hdirty, if_neg Bool.false_ne_true] at hsync
    obtain ⟨-, rfl⟩ := Prod.mk.inj (Except.ok.inj (hsync.symm.trans hstart))
    exact h

/-- A negative offset can only be used to write nothing. -/
theorem preserves_writeData {ρ : ℕ → ℕ} {i : ℕ} (hi : ρ i ≠ 0) {buf : List UInt8} {start : ℤ}
    (hbuf : buf ≠ [] ∨ 0 ≤ start) : Program.Preserves (Referenced ρ)
    (testfsWriteData i buf start) := by
  intro s t ret h hrun
  by_cases hneg : 0 ≤ start
  · obtain ⟨start, rfl⟩ := Int.eq_ofNat_of_zero_le hneg
    obtain ⟨inode, ht, -⟩ := h.exists_inode hi
    obtain ⟨failure, n, u, inode', hwrite, hw⟩ := h.sound.write ht buf start
    obtain ⟨-, rfl⟩ := Prod.mk.inj (Except.ok.inj (hwrite.symm.trans hrun))
    exact h.keep hw.sound hw.others
      (by rw [hw.inMemory, ht, Option.map_some, Option.map_some, hw.iCount])
  · have hmax : (0 : ℤ) ≤ maxFileSize := Int.natCast_nonneg _
    rw [testfsWriteData, if_neg (not_le.mpr (lt_of_lt_of_le (not_le.mp hneg) hmax))] at hrun
    obtain ⟨_, u, hcheck, -⟩ := Program.bind_eq_ok_iff.mp hrun
    exact ((Program.check_eq_ok_iff.mp hcheck).1.elim hneg (hbuf.resolve_right hneg)).elim

theorem triple_createInode (ρ : ℕ → ℕ) (type : InodeType) :
    Program.Triple (Referenced ρ) (testfsCreateInode type) fun result s ↦
      if result.1 < 0 then Referenced ρ s else Referenced (take ρ result.2) s := by
  intro s t result h hrun
  rcases h.sound.create type with ⟨c, u, inode, hcreate, hc⟩ | ⟨u, hcreate, hn⟩
  · obtain ⟨rfl, rfl⟩ := Prod.mk.inj (Except.ok.inj (hcreate.symm.trans hrun))
    rw [if_neg (lt_irrefl 0)]
    exact h.added hc.sound hc.others hc.inMemory (by rw [hc.inode])
  · obtain ⟨rfl, rfl⟩ := Prod.mk.inj (Except.ok.inj (hcreate.symm.trans hrun))
    rw [if_pos (by decide)]
    exact h.keep hn.sound (hn.others 0) (by rw [(hn.others 1).table 0 (by decide)])

theorem triple_removeInode {ρ : ℕ → ℕ} {i : ℕ} (hi : ρ i ≠ 0) :
    Program.Triple (Referenced ρ) (testfsRemoveInode i) fun _ ↦ Referenced (drop ρ i) := by
  intro s t _ h hrun
  obtain ⟨inode, ht, -⟩ := h.exists_inode hi
  obtain ⟨u, hremove, hr⟩ := h.sound.remove ht (h.sound.bit_of_remove ht hrun)
  obtain ⟨-, rfl⟩ := Prod.mk.inj (Except.ok.inj (hremove.symm.trans hrun))
  exact h.dropped hr.sound hr.others ht rfl hr.inMemory

end Primitives

/-! ### Reading directories -/

section Readers

variable {I : FsState → Prop}

theorem preserves_getType (i : ℕ) : Program.Preserves I (testfsInodeGetType i) :=
  (preserves_inodeRef i).bind fun _ ↦ Program.preserves_pure _

theorem preserves_getSize (i : ℕ) : Program.Preserves I (testfsInodeGetSize i) :=
  (preserves_inodeRef i).bind fun _ ↦ Program.preserves_pure _

theorem preserves_readDirentName (dir : ℕ) (offset : ℤ) (header : List UInt8) :
    Program.Preserves I (readDirentName dir offset header) := by
  refine (Program.preserves_check _ _).bind fun _ ↦ ?_
  refine (Program.preserves_check _ _).bind fun _ ↦ ?_
  refine (preserves_testfsReadData _ _ _).bind fun result ↦ ?_
  exact .ite (fun _ ↦ Program.preserves_pure _) fun _ ↦ Program.preserves_pure _

theorem preserves_nextDirent (dir : ℕ) (offset : ℤ) :
    Program.Preserves I (testfsNextDirent dir offset) := by
  refine (preserves_getType dir).bind fun type ↦ ?_
  refine (Program.preserves_check _ _).bind fun _ ↦ ?_
  refine (preserves_getSize dir).bind fun size ↦ ?_
  refine .ite (fun _ ↦ Program.preserves_pure _) fun _ ↦ ?_
  refine (preserves_testfsReadData _ _ _).bind fun result ↦ ?_
  exact .ite (fun _ ↦ Program.preserves_pure _) fun _ ↦ preserves_readDirentName _ _ _

theorem preserves_scanDirents (dir : ℕ) (stop : Dirent → Except Halt Bool) (turns : ℕ) :
    ∀ offset, Program.Preserves I (scanDirents dir stop turns offset) := by
  induction turns with
  | zero => exact fun _ ↦ Program.preserves_pure _
  | succ turns ih =>
    intro offset
    rw [scanDirents]
    refine (preserves_nextDirent dir offset).bind fun next ↦ ?_
    cases next with
    | none => exact Program.preserves_pure _
    | some next =>
      refine (Program.preserves_ofExcept _).bind fun found ↦ ?_
      exact .ite (fun _ ↦ Program.preserves_pure _) fun _ ↦ ih _

theorem preserves_findFirst (dir : ℕ) (stop : Dirent → Except Halt Bool) :
    Program.Preserves I (findFirst dir stop) := by
  refine (preserves_getType dir).bind fun type ↦ ?_
  refine (Program.preserves_check _ _).bind fun _ ↦ ?_
  exact (preserves_getSize dir).bind fun size ↦ preserves_scanDirents _ _ _ _

theorem preserves_findDirent (dir : ℕ) (inodeNr : ℤ) :
    Program.Preserves I (testfsFindDirent dir inodeNr) := by
  refine (Program.preserves_check _ _).bind fun _ ↦ ?_
  exact (preserves_findFirst _ _).bind fun _ ↦ Program.preserves_pure _

theorem preserves_dirNameToInodeNr (dir : ℕ) (name : CString) :
    Program.Preserves I (testfsDirNameToInodeNr dir name) := by
  refine (preserves_findFirst _ _).bind fun result ↦ ?_
  obtain ⟨offset, d⟩ := result
  cases d with
  | none => exact Program.preserves_pure _
  | some d => exact Program.preserves_pure _

theorem preserves_checkEmpty (dir : ℕ) : Program.Preserves I (checkEmpty dir) := by
  refine (preserves_getType dir).bind fun type ↦ ?_
  refine .ite (fun _ ↦ Program.preserves_pure _) fun _ ↦ ?_
  exact (preserves_findFirst _ _).bind fun _ ↦ Program.preserves_pure _

theorem preserves_nameExists (dir : Option (ℕ × CString)) :
    Program.Preserves I (nameExists dir) := by
  cases dir with
  | none => exact Program.preserves_pure _
  | some dir => exact (preserves_dirNameToInodeNr _ _).bind fun _ ↦ Program.preserves_pure _

end Readers

/-! ### Changing directories -/

section Directories

variable {ρ : ℕ → ℕ} {dir : ℕ}

/-- Getting an inode, work that keeps the counts, and putting it back. -/
theorem preserves_bracket {α β : Type} {i : ℕ} {m : FsProgram α} {f : α → FsProgram β}
    (hm : Program.Preserves (Referenced (take ρ i)) m)
    (hf : ∀ a, Program.Preserves (Referenced ρ) (f a)) :
    Program.Preserves (Referenced ρ) (do
      testfsGetInode i
      let a ← m
      testfsPutInode i
      f a) := by
  refine Program.Triple.bind (triple_getInode ρ i) fun _ ↦ ?_
  refine hm.andThen fun a ↦ ?_
  refine Program.Triple.bind (triple_putInode _ i) fun _ ↦ ?_
  rw [drop_take]
  exact hf a

theorem Dirent.encode_ne_nil (d : Dirent) : d.encode ≠ [] := by
  intro h
  have hlen := congrArg List.length h
  simp [Dirent.encode, encodeHeader] at hlen

theorem preserves_writeDirent (hdir : ρ dir ≠ 0) (name : CString) (len inodeNr offset : ℤ) :
    Program.Preserves (Referenced ρ) (testfsWriteDirent dir name len inodeNr offset) := by
  refine .ite (fun _ ↦ Program.preserves_pure _) fun _ ↦ ?_
  refine (Program.preserves_check _ _).bind fun _ ↦ ?_
  refine (Program.preserves_check _ _).bind fun _ ↦ ?_
  exact preserves_writeData hdir (Or.inl (Dirent.encode_ne_nil _))

theorem preserves_addDirent (hdir : ρ dir ≠ 0) (name : CString) (inodeNr : ℤ) :
    Program.Preserves (Referenced ρ) (testfsAddDirent dir name inodeNr) := by
  refine (preserves_findFirst _ _).bind fun result ↦ ?_
  obtain ⟨offset, d⟩ := result
  cases d with
  | some d =>
    exact .ite (fun _ ↦ Program.preserves_pure _) fun _ ↦ preserves_writeDirent hdir _ _ _ _
  | none =>
    refine (preserves_getSize dir).bind fun size ↦ ?_
    exact (Program.preserves_check _ _).bind fun _ ↦ preserves_writeDirent hdir _ _ _ _

theorem preserves_removeDirentAllowed (i : ℕ) :
    Program.Preserves (Referenced ρ) (testfsRemoveDirentAllowed i) :=
  preserves_bracket (preserves_checkEmpty i) fun _ ↦ Program.preserves_pure _

theorem preserves_removeDirent (hdir : ρ dir ≠ 0) (name : CString) :
    Program.Preserves (Referenced ρ) (testfsRemoveDirent dir name) := by
  refine .ite (fun _ ↦ Program.preserves_pure _) fun _ ↦ ?_
  refine (preserves_findFirst _ _).bind fun result ↦ ?_
  obtain ⟨offset, d⟩ := result
  cases d with
  | none => exact Program.preserves_pure _
  | some d =>
    refine (preserves_removeDirentAllowed _).bind fun ret ↦ ?_
    refine .ite (fun _ ↦ Program.preserves_pure _) fun _ ↦ ?_
    refine (Program.preserves_check _ _).bind fun _ ↦ ?_
    refine (preserves_writeData hdir (Or.inl (Dirent.encode_ne_nil _))).bind fun _ ↦ ?_
    exact Program.preserves_pure _

theorem preserves_createEmptyDir {c : ℕ} (hc : ρ c ≠ 0) (p : ℕ) :
    Program.Preserves (Referenced ρ) (testfsCreateEmptyDir p c) := by
  refine (preserves_getType c).bind fun type ↦ ?_
  refine (Program.preserves_check _ _).bind fun _ ↦ ?_
  refine (preserves_addDirent hc _ _).bind fun ret ↦ ?_
  refine .ite (fun _ ↦ Program.preserves_pure _) fun _ ↦ ?_
  refine (preserves_addDirent hc _ _).bind fun ret ↦ ?_
  refine .ite (fun _ ↦ ?_) fun _ ↦ Program.preserves_pure _
  exact (preserves_removeDirent hc _).bind fun _ ↦ Program.preserves_pure _

theorem preserves_fillNewInode {c : ℕ} (hc : ρ c ≠ 0) (entry : Option (ℕ × CString))
    (type : InodeType) :
    Program.Preserves (Referenced ρ) (fillNewInode entry type c) :=
  .ite (fun _ ↦ preserves_createEmptyDir hc _) fun _ ↦ Program.preserves_pure _

theorem preserves_enterNewInode (hdir : ρ dir ≠ 0) (name : CString) (c : ℕ) :
    Program.Preserves (Referenced ρ) (enterNewInode (some (dir, name)) c) := by
  refine (preserves_addDirent hdir _ _).bind fun ret ↦ ?_
  refine .ite (fun _ ↦ Program.preserves_pure _) fun _ ↦ ?_
  exact (preserves_syncInode ρ dir).bind fun _ ↦ Program.preserves_pure _

/-- The new inode is dropped on every path. -/
theorem preserves_createFileOrDir (hdir : ρ dir ≠ 0) (name : CString) (type : InodeType) :
    Program.Preserves (Referenced ρ) (testfsCreateFileOrDir (some (dir, name)) type) := by
  have hremove : ∀ (c : ℕ) (ret : ℤ), Program.Triple (Referenced (take ρ c))
      (do testfsRemoveInode c; pure ret : FsProgram ℤ) fun _ ↦ Referenced ρ := by
    intro c ret
    refine Program.Triple.bind (triple_removeInode (take_ne_zero ρ c)) fun _ ↦ ?_
    rw [drop_take]
    exact Program.preserves_pure ret
  refine (preserves_nameExists _).bind fun taken ↦ ?_
  refine .ite (fun _ ↦ Program.preserves_pure _) fun _ ↦ ?_
  refine Program.Triple.bind (triple_createInode ρ type) fun result ↦ ?_
  obtain ⟨ret, c⟩ := result
  simp only
  by_cases hret : ret < 0
  · simp only [hret, if_true]
    exact Program.preserves_pure ret
  simp only [hret, if_false]
  refine (preserves_fillNewInode (take_ne_zero ρ c) _ type).andThen fun ret ↦ ?_
  refine .ite (fun _ ↦ hremove c ret) fun _ ↦ ?_
  refine (preserves_enterNewInode (take_ne_zero_of hdir c) name c).andThen fun ret ↦ ?_
  refine .ite (fun _ ↦ hremove c ret) fun _ ↦ ?_
  refine (preserves_syncInode _ c).andThen fun _ ↦ ?_
  refine Program.Triple.bind (triple_putInode _ c) fun _ ↦ ?_
  rw [drop_take]
  exact Program.preserves_pure _

end Directories

/-! ### The recursions -/

section Recursions

variable {ρ : ℕ → ℕ}

theorem preserves_pwd (depth : ℕ) : ∀ (ρ : ℕ → ℕ) (i : ℕ),
    Program.Preserves (Referenced ρ) (testfsPwd depth i) := by
  induction depth with
  | zero => exact fun _ _ ↦ Program.preserves_halt _
  | succ depth ih =>
    intro ρ i
    rw [testfsPwd]
    refine (preserves_dirNameToInodeNr _ _).bind fun p ↦ ?_
    refine (Program.preserves_check _ _).bind fun _ ↦ ?_
    refine .ite (fun _ ↦ Program.preserves_pure _) fun _ ↦ ?_
    refine Program.Triple.bind (triple_getInode ρ _) fun _ ↦ ?_
    refine (preserves_findDirent _ _).andThen fun d ↦ ?_
    cases d with
    | none => exact fun s t _ _ hrun ↦ absurd hrun (by simp)
    | some d =>
      refine (ih _ _).andThen fun result ↦ ?_
      refine Program.Triple.bind (triple_putInode _ _) fun _ ↦ ?_
      rw [drop_take]
      exact (Program.preserves_ofExcept _).bind fun _ ↦ Program.preserves_pure _

theorem preserves_lsLoop {recur : ℕ → FsProgram (List LsLine)} {recursive : Bool} {dir : ℕ}
    (hrecur : ∀ (ρ : ℕ → ℕ) c, Program.Preserves (Referenced ρ) (recur c)) (turns : ℕ) : ∀ offset,
    Program.Preserves (Referenced ρ) (lsLoop recur recursive dir turns offset) := by
  induction turns with
  | zero => exact fun _ ↦ Program.preserves_pure _
  | succ turns ih =>
    intro offset
    rw [lsLoop]
    refine (preserves_nextDirent dir offset).bind fun next ↦ ?_
    cases next with
    | none => exact Program.preserves_pure _
    | some next =>
      refine .ite (fun _ ↦ ih _) fun _ ↦ ?_
      refine Program.Preserves.bind ?_ fun _ ↦ (ih _).bind fun _ ↦ Program.preserves_pure _
      refine Program.Triple.bind (triple_getInode ρ _) fun _ ↦ ?_
      refine (preserves_getType _).andThen fun type ↦ ?_
      refine (Program.preserves_ofExcept _).andThen fun name ↦ ?_
      refine Program.Preserves.andThen (.ite (fun _ ↦ hrecur _ _) fun _ ↦ Program.preserves_pure _)
        fun inner ↦ ?_
      refine Program.Triple.bind (triple_putInode _ _) fun _ ↦ ?_
      rw [drop_take]
      exact Program.preserves_pure _

theorem preserves_ls (recursive : Bool) (depth : ℕ) : ∀ (ρ : ℕ → ℕ) (dir : ℕ),
    Program.Preserves (Referenced ρ) (testfsLs depth recursive dir) := by
  induction depth with
  | zero => exact fun _ _ ↦ Program.preserves_halt _
  | succ depth ih =>
    intro ρ dir
    rw [testfsLs]
    exact (preserves_getSize dir).bind fun _ ↦ preserves_lsLoop ih _ _

end Recursions

/-! ### Commands -/

/-- The reference to the current directory is now one to the current directory after the command,
and the others are as they were. -/
def Moved (ρ : ℕ → ℕ) (cur : ℕ) (out : Outcome) (s : FsState) : Prop :=
  Referenced (drop (take ρ out.curDir) cur) s

section Commands

variable {ρ : ℕ → ℕ} {cur : ℕ}

theorem triple_stay {out : Outcome} (h : out.curDir = cur) :
    Program.Triple (Referenced ρ) (pure out : FsProgram Outcome) (Moved ρ cur) :=
  Program.triple_pure fun _ hs ↦ by rw [Moved, h, drop_take]; exact hs

theorem triple_cd (args : List CString) :
    Program.Triple (Referenced ρ) (cmdCd cur args) (Moved ρ cur) := by
  match args with
  | [] => exact triple_stay rfl
  | _ :: _ :: _ => exact triple_stay rfl
  | [name] =>
    refine (preserves_dirNameToInodeNr _ _).andThen fun nr ↦ ?_
    refine .ite (fun _ ↦ triple_stay rfl) fun _ ↦ ?_
    refine Program.Triple.bind (triple_getInode _ _) fun _ ↦ ?_
    refine (preserves_getType _).andThen fun type ↦ ?_
    refine .ite (fun _ ↦ ?_) fun _ ↦ ?_
    · refine Program.Triple.bind (triple_putInode _ _) fun _ ↦ ?_
      rw [drop_take]
      exact triple_stay rfl
    · refine Program.Triple.bind (triple_putInode _ _) fun _ ↦ ?_
      exact Program.triple_pure fun _ hs ↦ hs

theorem triple_pwd (depth : ℕ) (args : List CString) :
    Program.Triple (Referenced ρ) (cmdPwd depth cur args) (Moved ρ cur) := by
  match args with
  | _ :: _ => exact triple_stay rfl
  | [] => exact (preserves_pwd depth _ _).andThen fun _ ↦ triple_stay rfl

theorem triple_make (hcur : ρ cur ≠ 0) (type : InodeType) (args : List CString) :
    Program.Triple (Referenced ρ) (cmdMake type cur args) (Moved ρ cur) := by
  match args with
  | [] => exact triple_stay rfl
  | _ :: _ :: _ => exact triple_stay rfl
  | [name] =>
    exact (preserves_createFileOrDir hcur name type).andThen fun _ ↦ triple_stay rfl

theorem triple_rm (hcur : ρ cur ≠ 0) (args : List CString) :
    Program.Triple (Referenced ρ) (cmdRm cur args) (Moved ρ cur) := by
  match args with
  | [] => exact triple_stay rfl
  | _ :: _ :: _ => exact triple_stay rfl
  | [name] =>
    refine (preserves_removeDirent hcur name).andThen fun nr ↦ ?_
    refine .ite (fun _ ↦ triple_stay rfl) fun _ ↦ ?_
    refine Program.Triple.bind (triple_getInode _ _) fun _ ↦ ?_
    refine Program.Triple.bind (triple_removeInode (take_ne_zero _ _)) fun _ ↦ ?_
    rw [drop_take]
    exact (preserves_syncInode _ _).andThen fun _ ↦ triple_stay rfl

theorem triple_stat (args : List CString) :
    Program.Triple (Referenced ρ) (cmdStat cur args) (Moved ρ cur) := by
  match args with
  | [] => exact triple_stay rfl
  | _ :: _ :: _ => exact triple_stay rfl
  | [name] =>
    refine (preserves_dirNameToInodeNr _ _).andThen fun nr ↦ ?_
    refine .ite (fun _ ↦ triple_stay rfl) fun _ ↦ ?_
    refine Program.Triple.bind (triple_getInode _ _) fun _ ↦ ?_
    refine (preserves_inodeRef _).andThen fun inode ↦ ?_
    refine Program.Triple.bind (triple_putInode _ _) fun _ ↦ ?_
    rw [drop_take]
    exact triple_stay rfl

/-- `testfs_get_file_inode` leaves one more reference when it finds a file. -/
theorem triple_getFileInode (ρ : ℕ → ℕ) (dir : ℕ) (name : CString) :
    Program.Triple (Referenced ρ) (testfsGetFileInode dir name) fun result s ↦
      if result.1 < 0 then Referenced ρ s else Referenced (take ρ result.2) s := by
  refine (preserves_dirNameToInodeNr _ _).andThen fun nr ↦ ?_
  refine .ite (fun hneg ↦ Program.triple_pure fun _ hs ↦ ?_) fun _ ↦ ?_
  · rw [if_pos hneg]
    exact hs
  refine Program.Triple.bind (triple_getInode ρ _) fun _ ↦ ?_
  refine (preserves_getType _).andThen fun type ↦ ?_
  refine .ite (fun _ ↦ ?_) fun _ ↦ Program.triple_pure fun _ hs ↦ ?_
  · refine Program.Triple.bind (triple_putInode _ _) fun _ ↦ Program.triple_pure fun _ hs ↦ ?_
    rw [drop_take] at hs
    rw [if_pos (by decide)]
    exact hs
  · rw [if_neg (lt_irrefl 0)]
    exact hs

/-- A command on a file that keeps the counts before it drops the file. -/
theorem triple_onFile {filename : CString} {f : ℕ → FsProgram Outcome}
    (hf : ∀ i, Program.Triple (Referenced (take ρ i)) (f i) (Moved ρ cur)) :
    Program.Triple (Referenced ρ) (do
      let result ← testfsGetFileInode cur filename
      if result.1 < 0 then pure (.silent cur result.1) else f result.2) (Moved ρ cur) := by
  refine Program.Triple.bind (triple_getFileInode _ cur filename) fun result ↦ ?_
  obtain ⟨ret, i⟩ := result
  simp only
  by_cases hret : ret < 0
  · simp only [hret, if_true]
    exact triple_stay rfl
  · simp only [hret, if_false]
    exact hf i

theorem triple_read (args : List CString) :
    Program.Triple (Referenced ρ) (cmdRead cur args) (Moved ρ cur) := by
  match args with
  | [] => exact triple_stay rfl
  | [_] => exact triple_stay rfl
  | [_, _] => exact triple_stay rfl
  | _ :: _ :: _ :: _ :: _ => exact triple_stay rfl
  | [filename, offset, size] =>
    rw [cmdRead]
    cases strToOffset offset with
    | error ret => exact triple_stay rfl
    | ok offset =>
      refine .ite (fun _ ↦ triple_stay rfl) fun _ ↦ ?_
      cases strToSize size with
      | error ret => exact triple_stay rfl
      | ok size =>
        simp only
        refine triple_onFile (f := fun i ↦ do
          let result ← readFile i offset size
          testfsPutInode i
          pure ⟨result.1, cur, result.2⟩) fun i ↦ ?_
        refine (preserves_readFile i offset size).andThen fun result ↦ ?_
        refine Program.Triple.bind (triple_putInode _ i) fun _ ↦ ?_
        rw [drop_take]
        exact triple_stay rfl

theorem triple_write (args : List CString) :
    Program.Triple (Referenced ρ) (cmdWrite cur args) (Moved ρ cur) := by
  match args with
  | [] => exact triple_stay rfl
  | [_] => exact triple_stay rfl
  | [_, _] => exact triple_stay rfl
  | _ :: _ :: _ :: _ :: _ => exact triple_stay rfl
  | [filename, offset, buf] =>
    rw [cmdWrite]
    cases strToOffset offset with
    | error ret => exact triple_stay rfl
    | ok offset =>
      refine .ite (fun _ ↦ triple_stay rfl) fun hneg ↦ ?_
      refine triple_onFile (f := fun i ↦ do
        let ret ← testfsWriteData i buf.bytes offset
        testfsSyncInode i
        testfsPutInode i
        pure (.silent cur ret)) fun i ↦ ?_
      refine (preserves_writeData (take_ne_zero _ i) (Or.inr (not_lt.mp hneg))).andThen fun ret ↦ ?_
      refine (preserves_syncInode _ i).andThen fun _ ↦ ?_
      refine Program.Triple.bind (triple_putInode _ i) fun _ ↦ ?_
      rw [drop_take]
      exact triple_stay rfl

theorem triple_fsstat (args : List CString) :
    Program.Triple (Referenced ρ) (cmdFsstat cur args) (Moved ρ cur) := by
  match args with
  | _ :: _ => exact triple_stay rfl
  | [] => exact (Program.preserves_gets _).andThen fun _ ↦ triple_stay rfl

/-- `cmd_ls` and `cmd_lsr` drop the inode they look at, or leave one more reference to it. -/
theorem triple_ls (depth : ℕ) (args : List CString) (recursive : Bool) :
    Program.Triple (Referenced ρ) (cmdLsInternal depth cur args recursive) fun out s ↦
      out.curDir = cur ∧ (Referenced ρ s ∨ ∃ i, Referenced (take ρ i) s) := by
  have hstay : ∀ {out : Outcome}, out.curDir = cur → Program.Triple (Referenced ρ)
      (pure out : FsProgram Outcome) fun out s ↦
        out.curDir = cur ∧ (Referenced ρ s ∨ ∃ i, Referenced (take ρ i) s) :=
    fun hcur ↦ Program.triple_pure fun _ hs ↦ ⟨hcur, Or.inl hs⟩
  match args with
  | [] => exact hstay rfl
  | _ :: _ :: _ => exact hstay rfl
  | [name] =>
    refine (preserves_dirNameToInodeNr _ _).andThen fun nr ↦ ?_
    refine .ite (fun _ ↦ hstay rfl) fun _ ↦ ?_
    refine Program.Triple.bind (triple_getInode _ _) fun _ ↦ ?_
    refine (preserves_getType _).andThen fun type ↦ ?_
    refine .ite (fun _ ↦ ?_) fun _ ↦ Program.triple_pure fun _ hs ↦ ⟨rfl, Or.inr ⟨_, hs⟩⟩
    refine (preserves_ls recursive depth _ _).andThen fun lines ↦ ?_
    refine Program.Triple.bind (triple_putInode _ _) fun _ ↦ ?_
    rw [drop_take]
    exact hstay rfl

end Commands

/-- The command lists an inode that is not a directory. -/
def Session.ListsFile (p : Session) (c : Command) : Prop :=
  (c.name = .ls ∨ c.name = .lsr) ∧ ∃ name nr, c.args = [name] ∧
    (testfsDirNameToInodeNr p.curDir name).run p.fs = .ok (nr, p.fs) ∧ 0 ≤ nr ∧
    (p.fs.dinode nr.toNat).iType ≠ InodeType.dir.code

section Steps

variable {ρ : ℕ → ℕ} {p q : Session} {depth : ℕ} {c : Command}

/-- A listing of a directory drops it again. -/
theorem Referenced.ls (h : Referenced ρ p.fs) {args : List CString} {recursive : Bool}
    {out : Outcome} {t : FsState}
    (hdir : ∀ name nr, args = [name] →
      (testfsDirNameToInodeNr p.curDir name).run p.fs = .ok (nr, p.fs) → 0 ≤ nr →
      (p.fs.dinode nr.toNat).iType = InodeType.dir.code)
    (hrun : (cmdLsInternal depth p.curDir args recursive).run p.fs = .ok (out, t)) :
    Moved ρ p.curDir out t := by
  match args with
  | [] => exact triple_stay rfl h hrun
  | _ :: _ :: _ => exact triple_stay rfl h hrun
  | [name] =>
    obtain ⟨nr, u, hfind, hrest⟩ := Program.bind_eq_ok_iff.mp hrun
    obtain rfl : u = p.fs := preserves_dirNameToInodeNr (I := (· = p.fs)) p.curDir name rfl hfind
    by_cases hneg : nr < 0
    · rw [if_pos hneg] at hrest
      exact triple_stay rfl h hrest
    rw [if_neg hneg] at hrest
    obtain ⟨_, v, hget, hrest⟩ := Program.bind_eq_ok_iff.mp hrest
    have htaken := triple_getInode ρ nr.toNat h hget
    obtain ⟨v', n, hget', hv, -, hdin, -⟩ := h.sound.getInode (h.sound.lt_of_getInode hget)
    obtain ⟨-, rfl⟩ := Prod.mk.inj (Except.ok.inj (hget'.symm.trans hget))
    have hmem : v'.inodeHashTable nr.toNat = some n := by rw [hv, inodeHashTable_setInode_self]
    have htype := testfsInodeGetType_run hmem
    rw [dinode_of_some hmem, hdin] at htype
    rw [Program.run_bind htype, if_pos (hdir name nr rfl hfind (not_lt.mp hneg))] at hrest
    have hdone : Program.Triple (Referenced (take ρ nr.toNat)) (do
        let lines ← testfsLs depth recursive nr.toNat
        testfsPutInode nr.toNat
        pure ⟨0, p.curDir, .ls lines⟩ : FsProgram Outcome) (Moved ρ p.curDir) := by
      refine (preserves_ls recursive depth _ _).andThen fun lines ↦ ?_
      refine Program.Triple.bind (triple_putInode _ _) fun _ ↦ ?_
      rw [drop_take]
      exact triple_stay rfl
    exact hdone htaken hrest

/-- Every command but the listing of a file keeps the references balanced. -/
theorem Referenced.handleCommand (h : Referenced ρ p.fs) (hcur : ρ p.curDir ≠ 0)
    (hlist : ¬ p.ListsFile c) {out : Outcome} {t : FsState}
    (hrun : (handleCommand depth p.curDir c).run p.fs = .ok (out, t)) : Moved ρ p.curDir out t := by
  have hdir : c.name = .ls ∨ c.name = .lsr → ∀ name nr, c.args = [name] →
      (testfsDirNameToInodeNr p.curDir name).run p.fs = .ok (nr, p.fs) → 0 ≤ nr →
      (p.fs.dinode nr.toNat).iType = InodeType.dir.code := by
    intro hname name nr hargs hfind hnr
    by_contra hfile
    exact hlist ⟨hname, name, nr, hargs, hfind, hnr, hfile⟩
  obtain ⟨name, args⟩ := c
  cases name with
  | cd => exact triple_cd args h hrun
  | pwd => exact triple_pwd depth args h hrun
  | ls => exact h.ls (hdir (Or.inl rfl)) hrun
  | lsr => exact h.ls (hdir (Or.inr rfl)) hrun
  | create => exact triple_make hcur .file args h hrun
  | stat => exact triple_stat args h hrun
  | rm => exact triple_rm hcur args h hrun
  | mkdir => exact triple_make hcur .dir args h hrun
  | read => exact triple_read args h hrun
  | write => exact triple_write args h hrun
  | fsstat => exact triple_fsstat args h hrun

theorem Moved.curDir_ne_zero {ρ : ℕ → ℕ} {cur i : ℕ} (hcur : ρ cur ≠ 0) :
    drop (take ρ i) cur i ≠ 0 := by
  by_cases hi : i = cur
  · rw [hi, drop_take]
    exact hcur
  · simp [drop, take, hi]

/-- Every command leaves a sound file system with the current directory in memory. -/
theorem Referenced.step (h : Referenced ρ p.fs) (hcur : ρ p.curDir ≠ 0)
    (hstep : p.step (depth, c) = some q) : ∃ ρ', Referenced ρ' q.fs ∧ ρ' q.curDir ≠ 0 := by
  obtain ⟨out, hrun, hout⟩ := Session.step_eq_some_iff.mp hstep
  rw [← hout]
  have hls : ∀ recursive, (cmdLsInternal depth p.curDir c.args recursive).run p.fs = .ok
      (out, q.fs) →
      ∃ ρ', Referenced ρ' q.fs ∧ ρ' out.curDir ≠ 0 := by
    intro recursive hrun
    obtain ⟨hsame, hkept | ⟨i, htaken⟩⟩ := triple_ls depth c.args recursive h hrun
    · exact ⟨ρ, hkept, by rw [hsame]; exact hcur⟩
    · exact ⟨take ρ i, htaken, by rw [hsame]; exact take_ne_zero_of hcur i⟩
  by_cases hname : c.name = .ls ∨ c.name = .lsr
  · obtain ⟨name, args⟩ := c
    rcases hname with rfl | rfl
    · exact hls false hrun
    · exact hls true hrun
  · have hmoved := h.handleCommand hcur (fun hlist ↦ hname hlist.1) hrun
    exact ⟨_, hmoved, Moved.curDir_ne_zero hcur⟩

end Steps

/-! ### Runs -/

/-- A session on a fresh file system and every session that permitted commands lead to. -/
def CommandRun (permitted : Session → ℕ × Command → Prop) (maxFsBlocks : ℕ) (p : Session) : Prop :=
  ∃ p₀, Started maxFsBlocks p₀ ∧ Reaches permitted Session.step p₀ p

/-- The current directory is the only inode in memory, and is referenced once. -/
def Session.HoldsCurDir (p : Session) : Prop :=
  (∃ inode, p.fs.inodeHashTable p.curDir = some inode ∧ inode.iCount = 1) ∧
    ∀ i, i ≠ p.curDir → p.fs.inodeHashTable i = none

section Runs

variable {p : Session} {maxFsBlocks : ℕ}

/-- A new session has the root in memory. -/
theorem Started.referenced (hmax : maxFsBlocks ≤ nrDataBlocks) (h : Started maxFsBlocks p) :
    Referenced (only p.curDir) p.fs := by
  obtain ⟨hfresh, hroot⟩ := h
  obtain ⟨s, hs, hspec⟩ := freshFs_spec hmax
  obtain rfl := Except.ok.inj (hs.symm.trans hfresh)
  refine ⟨hspec.sound, fun i ↦ ?_⟩
  obtain ⟨root, hmem, -, hcount⟩ := hspec.root
  rw [hroot]
  by_cases hi : i = 0
  · rw [hi, hmem, Option.map_some, hcount]
    rfl
  · rw [hspec.table i hi, only, if_neg hi]
    rfl

theorem Referenced.holdsCurDir (h : Referenced (only p.curDir) p.fs) : p.HoldsCurDir := by
  refine ⟨?_, fun i hi ↦ ?_⟩
  · obtain ⟨inode, ht, hcount⟩ := h.exists_inode (only_ne_zero _)
    exact ⟨inode, ht, by rw [hcount, only, if_pos rfl]; rfl⟩
  · have hcount := h.counts i
    rw [only, if_neg hi, if_pos rfl, Option.map_eq_none_iff] at hcount
    exact hcount

/-- Assumes: a run of commands on a fresh file system in which nothing but directories is listed.
Then the current directory is the only inode in memory between commands, and after it is dropped
there is none. -/
theorem references_balance (hmax : maxFsBlocks ≤ nrDataBlocks)
    (hrun : CommandRun (fun p label ↦ ¬ p.ListsFile label.2) maxFsBlocks p) :
    p.HoldsCurDir ∧ ∀ t, (testfsPutInode p.curDir).run p.fs = .ok ((), t) →
      ∀ i, t.inodeHashTable i = none := by
  obtain ⟨p₀, hstart, hrun⟩ := hrun
  have h : Referenced (only p.curDir) p.fs := by
    refine Reaches.invariant (I := fun p ↦ Referenced (only p.curDir) p.fs)
      (fun p label q hp hlist hstep ↦ ?_) hrun (hstart.referenced hmax)
    obtain ⟨out, hcommand, hout⟩ := Session.step_eq_some_iff.mp hstep
    have hmoved := hp.handleCommand (only_ne_zero _) hlist hcommand
    rw [Moved, drop_take_only, hout] at hmoved
    exact hmoved
  refine ⟨h.holdsCurDir, fun t hput i ↦ ?_⟩
  have hcount := (triple_putInode _ _ h hput).counts i
  have hnone : drop (only p.curDir) p.curDir i = 0 := by
    by_cases hi : i = p.curDir
    · simp [drop, only, hi]
    · simp [drop, only, hi]
  rw [hnone, if_pos rfl, Option.map_eq_none_iff] at hcount
  exact hcount

/-- The run that creates a file in a new file system of eight blocks. -/
theorem references_balance_create : ∃ p : Session,
    CommandRun (fun p label ↦ ¬ p.ListsFile label.2) 8 p ∧ p.HoldsCurDir := by
  obtain ⟨p₀, p, -, -, -, hstart, -, hstep, -⟩ := fresh_create (by decide : 0 < 8) (by decide)
  have hrun : CommandRun (fun p label ↦ ¬ p.ListsFile label.2) 8 p := by
    refine ⟨p₀, hstart, Relation.ReflTransGen.single ⟨_, ?_, hstep⟩⟩
    rintro ⟨hname | hname, -⟩
    · exact absurd hname (by decide)
    · exact absurd hname (by decide)
  exact ⟨p, hrun, (references_balance (by decide) hrun).1⟩

/-- Listing a file leaves it in memory. -/
theorem InTree.ls_file {T : NameTree ℕ CString} {dirs : ℕ → List Record} {s : FsState}
    {cur c depth : ℕ} {name : CString} (h : InTree T dirs s cur)
    (hlook : lookup (dirs cur) name = some (c : ℤ))
    (hfile : (s.dinode c).iType ≠ InodeType.dir.code) :
    (cmdLs depth cur [name]).run s = .ok (.silent cur (-eNOTDIR), s.fetch c) ∧ c ≠ cur := by
  have hne : c ≠ cur := fun heq ↦ hfile (heq ▸ ((h.represents.isDir cur).mp h.isDir).2)
  obtain ⟨c', hv, hc⟩ := h.represents.present_of_lookup h.isDir hlook
  obtain rfl := Nat.cast_inj.mp hv
  have hfind : (testfsDirNameToInodeNr cur name).run s = .ok ((c : ℤ), s) := by
    rcases h.find_run name with ⟨d, hsome, -, hrun⟩ | ⟨hnone, -⟩
    · rw [hlook, Option.some.injEq] at hsome
      rw [hsome]
      exact hrun
    · rw [hlook] at hnone
      exact absurd hnone (by simp)
  obtain ⟨-, hget⟩ := h.getType_run hc
  refine ⟨?_, hne⟩
  rw [cmdLs, OperatingSystems.Fs.cmdLsInternal, Program.run_bind hfind,
    if_neg (not_lt.mpr (Int.natCast_nonneg c)), Int.toNat_natCast,
    Program.run_bind (testfsGetInode_fetch h.calm.core.layout (h.represents.bound c hc)),
    Program.run_bind hget, if_neg hfile, Program.pure_run]

/-- `create f` and `ls f` in a new file system of eight blocks: the file stays in memory, and
dropping the current directory does not empty the hash table. -/
theorem ls_file_keeps_reference : ∃ p₀ p₁ p₂ : Session, Started 8 p₀ ∧
    p₀.step (0, ⟨.create, [nameF]⟩) = some p₁ ∧ p₁.step (0, ⟨.ls, [nameF]⟩) = some p₂ ∧
    ¬ p₂.HoldsCurDir ∧ ∃ t, (testfsPutInode p₂.curDir).run p₂.fs = .ok ((), t) ∧
      ∃ i, t.inodeHashTable i ≠ none := by
  obtain ⟨p₀, p₁, T, dirs, c, hstart, -, hcreate, hcreated⟩ :=
    fresh_create (by decide : 0 < 8) (by decide)
  have htree := hcreated.inTree
  have hlook := hcreated.lookup
  have hfile : (p₁.fs.dinode c).iType ≠ InodeType.dir.code := by
    rw [hcreated.type]
    decide
  obtain ⟨hls, hne⟩ := htree.ls_file hlook hfile
  obtain ⟨n, hn⟩ := inodeHashTable_fetch p₁.fs c
  have hfetched := htree.fetch (htree.represents.bound c ?_)
  · obtain ⟨root, hroot⟩ := hfetched.inMemory
    have hput := testfsPutInode_run hroot (hfetched.calm.quiet 0 root hroot).1
    refine ⟨p₀, p₁, ⟨p₁.fs.fetch c, 0⟩, hstart, hcreate, ?_, ?_, _, hput, c, ?_⟩
    · refine Session.step_eq_some_iff.mpr ⟨.silent 0 (-eNOTDIR), ?_, rfl⟩
      rw [hcreated.curDir]
      exact hls
    · intro hholds
      rw [hholds.2 c hne] at hn
      exact absurd hn (by simp)
    · rw [inodeHashTable_setInode_of_ne _ _ hne, hn]
      simp
  · obtain ⟨c', hv, hc⟩ := htree.represents.present_of_lookup htree.isDir hlook
    rw [Nat.cast_inj.mp hv]
    exact hc

end Runs

end OperatingSystems.Fs
