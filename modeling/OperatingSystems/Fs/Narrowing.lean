import OperatingSystems.Fs.Durability

/-!
# Counts and offsets that pass through an `int`

A file may have more than `2^31` bytes, and `testfs_read_data` and `testfs_write_data` return the
number of bytes they have moved as an `int`, as does `testfs_add_dirent` hand the offset of its
record on. `counts_kept_iff` says that a count or an offset arrives exactly if it is below `2^31`.
The first one that does not is negative and taken for an error by the callers: `readBig_run` is
`cmd_read` of a file of `2^31` bytes, which a write of one byte has made.
-/

set_option autoImplicit false
set_option relaxedAutoImplicit false

namespace OperatingSystems.Fs

open Library Library.Machine

/-! ### What is asked for -/

/-- The number of bytes that `testfs_read_data` sets out to copy. -/
def readCount (inode : Inode) (start : ℤ) (size : ℕ) : ℕ :=
  if toOff (start + toOff size) > inode.din.iSize then toSize (inode.din.iSize - start) else size

/-- The search of `testfs_add_dirent` ends at the offset `p`, at a free record or at the end of the
directory: this is where the new record belongs. -/
def BelongsAt (s : FsState) (dir : ℕ) (name : CString) (p : ℤ) : Prop :=
  ∃ d, (findFirst dir (stopsAdd name (toInt32 (name.length + 1)))).run s = .ok ((p, d), s) ∧
    (∀ e, d = some e → e.dInodeNr < 0) ∧ (d = none → p = (s.dinode dir).iSize)

theorem toInt32_eq_iff {z : ℤ} (hz : 0 ≤ z) : toInt32 z = z ↔ z < 2 ^ 31 := by
  constructor
  · intro h
    have hlt := Int.bmod_lt (x := z) (m := 2 ^ 32) (by decide)
    rw [toInt32] at h
    rw [h] at hlt
    norm_num at hlt ⊢
    omega
  · exact fun h ↦ toInt32_of_range (by omega) h

section Counts

variable {s t : FsState} {i : ℕ} {inode : Inode} {ret : ℤ} {bytes : List UInt8}

/-! ### Reading -/

/-- The loop of `testfs_read_data` copies all that is left and returns the count, or stops short
with an error. -/
theorem readLoop_result (turns : ℕ) : ∀ {s : FsState} (l ix size : ℕ) (block : Block)
    (buf : List UInt8), ix < blockSize → size ≤ turns →
    (readLoop i turns l ix size block buf).run s = .ok ((ret, bytes), t) →
    bytes.length = buf.length + size ∧ ret = toInt32 bytes.length ∨
      bytes.length < buf.length + size := by
  induction turns with
  | zero =>
    intro s l ix size block buf _ hturns hrun
    obtain ⟨hresult, -⟩ := Prod.mk.inj (Except.ok.inj hrun)
    obtain ⟨rfl, rfl⟩ := Prod.mk.inj hresult
    exact Or.inl ⟨by omega, rfl⟩
  | succ turns ih =>
    intro s l ix size block buf hix hturns hrun
    rw [readLoop] at hrun
    split_ifs at hrun with hsize
    swap
    · obtain ⟨hresult, -⟩ := Prod.mk.inj (Except.ok.inj hrun)
      obtain ⟨rfl, rfl⟩ := Prod.mk.inj hresult
      exact Or.inl ⟨by omega, rfl⟩
    obtain ⟨⟨nr, data⟩, u, -, hrest⟩ := Program.bind_eq_ok_iff.mp hrun
    simp only at hrest
    split_ifs at hrest with hneg
    · obtain ⟨hresult, -⟩ := Prod.mk.inj (Except.ok.inj hrest)
      obtain ⟨rfl, rfl⟩ := Prod.mk.inj hresult
      exact Or.inr (by omega)
    · have hnext := ih (l + 1) 0 _ data _ (by decide) (by omega) hrest
      rw [List.length_append, Block.length_copyOut] at hnext
      have hsum : buf.length + min (blockSize - ix) size + (size - min (blockSize - ix) size) =
          buf.length + size := by omega
      rwa [hsum] at hnext

/-- A read that copies all it was to copy returns the count, converted to an `int`. -/
theorem testfsReadData_complete (ht : s.inodeHashTable i = some inode) {start : ℤ} {n : ℕ}
    (hstart : start < maxFileSize)
    (hrun : (testfsReadData i start n).run s = .ok ((ret, bytes), t))
    (hall : bytes.length = readCount inode start n) : ret = toInt32 bytes.length := by
  rw [testfsReadData, if_neg (not_le.mpr hstart), Program.run_bind (inodeRef_run ht)] at hrun
  change (if readCount inode start n = 0 then pure (0, []) else do
    Program.check (0 ≤ start) .undefined
    readLoop i (readCount inode start n) (start.toNat / blockSize) (start.toNat % blockSize)
      (readCount inode start n) Block.zero [] : FsProgram (ℤ × List UInt8)).run s = _ at hrun
  by_cases hzero : readCount inode start n = 0
  · rw [if_pos hzero] at hrun
    obtain ⟨hresult, -⟩ := Prod.mk.inj (Except.ok.inj hrun)
    obtain ⟨rfl, rfl⟩ := Prod.mk.inj hresult
    rfl
  rw [if_neg hzero] at hrun
  obtain ⟨_, u, -, hloop⟩ := Program.bind_eq_ok_iff.mp hrun
  have hmod := Nat.mod_lt start.toNat (by decide : 0 < blockSize)
  rcases readLoop_result _ _ _ _ _ _ hmod le_rfl hloop with ⟨-, hret⟩ | hshort
  · exact hret
  · rw [List.length_nil, zero_add] at hshort
    exact absurd hall hshort.ne

/-! ### Searching -/

/-- The next record is further on. -/
theorem testfsNextDirent_lt {offset offset' : ℤ} {d : Dirent}
    (hrun : (testfsNextDirent i offset).run s = .ok (some (d, offset'), t)) : offset < offset' := by
  obtain ⟨type, s₁, -, hrun⟩ := Program.bind_eq_ok_iff.mp hrun
  obtain ⟨_, s₂, -, hrun⟩ := Program.bind_eq_ok_iff.mp hrun
  obtain ⟨size, s₃, -, hrun⟩ := Program.bind_eq_ok_iff.mp hrun
  split_ifs at hrun with hend
  · exact absurd (Prod.mk.inj (Except.ok.inj hrun)).1 (by simp)
  obtain ⟨⟨ret, header⟩, s₄, -, hrun⟩ := Program.bind_eq_ok_iff.mp hrun
  simp only at hrun
  split_ifs at hrun with hneg
  · exact absurd (Prod.mk.inj (Except.ok.inj hrun)).1 (by simp)
  obtain ⟨_, s₅, -, hrun⟩ := Program.bind_eq_ok_iff.mp hrun
  obtain ⟨_, s₆, hcheck, hrun⟩ := Program.bind_eq_ok_iff.mp hrun
  have hpos := (Program.check_eq_ok_iff.mp hcheck).1
  obtain ⟨⟨ret', name⟩, s₇, -, hrun⟩ := Program.bind_eq_ok_iff.mp hrun
  simp only at hrun
  split_ifs at hrun with hneg'
  · exact absurd (Prod.mk.inj (Except.ok.inj hrun)).1 (by simp)
  · have hresult := Option.some.inj (Prod.mk.inj (Except.ok.inj hrun)).1
    rw [← (Prod.mk.inj hresult).2]
    simp only [direntSize]
    omega

/-- A loop over records only goes forward. -/
theorem scanDirents_nonneg {stop : Dirent → Except Halt Bool} (turns : ℕ) : ∀ {s : FsState}
    {offset p : ℤ} {d : Option Dirent}, 0 ≤ offset →
    (scanDirents i stop turns offset).run s = .ok ((p, d), t) → 0 ≤ p := by
  induction turns with
  | zero =>
    intro s offset p d hoffset hrun
    obtain ⟨hresult, -⟩ := Prod.mk.inj (Except.ok.inj hrun)
    exact (Prod.mk.inj hresult).1 ▸ hoffset
  | succ turns ih =>
    intro s offset p d hoffset hrun
    rw [scanDirents] at hrun
    obtain ⟨next, u, hnext, hrest⟩ := Program.bind_eq_ok_iff.mp hrun
    cases next with
    | none =>
      obtain ⟨hresult, -⟩ := Prod.mk.inj (Except.ok.inj hrest)
      exact (Prod.mk.inj hresult).1 ▸ hoffset
    | some next =>
      obtain ⟨e, offset'⟩ := next
      obtain ⟨found, v, -, hrest⟩ := Program.bind_eq_ok_iff.mp hrest
      split_ifs at hrest with hfound
      · obtain ⟨hresult, -⟩ := Prod.mk.inj (Except.ok.inj hrest)
        exact (Prod.mk.inj hresult).1 ▸ hoffset
      · exact ih (hoffset.trans (testfsNextDirent_lt hnext).le) hrest

theorem BelongsAt.nonneg {name : CString} {p : ℤ} (h : BelongsAt s i name p) : 0 ≤ p := by
  obtain ⟨d, hfind, -, -⟩ := h
  obtain ⟨type, s₁, -, hrun⟩ := Program.bind_eq_ok_iff.mp hfind
  obtain ⟨_, s₂, -, hrun⟩ := Program.bind_eq_ok_iff.mp hrun
  obtain ⟨size, s₃, -, hrun⟩ := Program.bind_eq_ok_iff.mp hrun
  exact scanDirents_nonneg _ le_rfl hrun

/-- `testfs_add_dirent` hands the offset on as an `int`. -/
theorem BelongsAt.add_run {name : CString} {p : ℤ} (h : BelongsAt s i name p)
    (ht : s.inodeHashTable i = some inode) (nr : ℤ) : (testfsAddDirent i name nr).run s =
      (testfsWriteDirent i name (toInt32 (name.length + 1)) nr (toInt32 p)).run s := by
  obtain ⟨d, hfind, hfree, hend⟩ := h
  rw [testfsAddDirent]
  simp only
  rw [Program.run_bind hfind]
  cases d with
  | none =>
    simp only
    rw [Program.run_bind (testfsInodeGetSize_run ht), Program.check_bind_run (hend rfl)]
  | some e =>
    simp only
    rw [if_neg (not_le.mpr (hfree e rfl))]

/-! ### Every inode and every request -/

/-- Assumes: a file system with its invariant and an inode in memory, whatever its size. A read that
copies all it sets out to copy returns the number of bytes exactly if it is below `2^31`, a write
that succeeds exactly if its buffer has fewer than `2^31` bytes; and the offset at which
`testfs_add_dirent` has its record written is the one where it belongs exactly if that is below
`2^31`. -/
theorem counts_kept_iff (hs : Sound s) (ht : s.inodeHashTable i = some inode) :
    (∀ (start : ℤ) (n : ℕ) (ret : ℤ) (bytes : List UInt8) (t : FsState), start < maxFileSize →
      (testfsReadData i start n).run s = .ok ((ret, bytes), t) →
      bytes.length = readCount inode start n →
      (ret = bytes.length ↔ readCount inode start n < 2 ^ 31)) ∧
    (∀ (buf : List UInt8) (start : ℕ), ∃ ret failure n t inode',
      (testfsWriteData i buf start).run s = .ok (ret, t) ∧
      Written i start buf inode s failure n t inode' ∧
      (failure = none → n = buf.length ∧ (ret = n ↔ buf.length < 2 ^ 31))) ∧
    ∀ (name : CString) (nr p : ℤ), BelongsAt s i name p →
      ∃ offset, (testfsAddDirent i name nr).run s =
          (testfsWriteDirent i name (toInt32 (name.length + 1)) nr offset).run s ∧
        offset = toInt32 p ∧ (offset = p ↔ p < 2 ^ 31) := by
  refine ⟨?_, ?_, ?_⟩
  · intro start n ret bytes t hstart hrun hall
    rw [testfsReadData_complete ht hstart hrun hall, toInt32_eq_iff (Int.natCast_nonneg _), ← hall]
    norm_cast
  · intro buf start
    obtain ⟨failure, n, t, inode', hrun, hw⟩ := hs.write ht buf start
    refine ⟨_, failure, n, t, inode', hrun, hw, ?_⟩
    rintro rfl
    have hn := (hw.complete rfl).1
    refine ⟨hn, ?_⟩
    rw [Option.getD_none, toInt32_eq_iff (Int.natCast_nonneg n), ← hn]
    norm_cast
  · intro name nr p hp
    exact ⟨_, hp.add_run ht nr, rfl, toInt32_eq_iff hp.nonneg⟩

end Counts

/-! ### A file of `2^31` bytes -/

/-- The offset `2147483647`. -/
def offsetLast : CString := ⟨[50, 49, 52, 55, 52, 56, 51, 54, 52, 55], by decide⟩

/-- The size `2147483648`. -/
def sizeBig : CString := ⟨[50, 49, 52, 55, 52, 56, 51, 54, 52, 56], by decide⟩

section Big

variable {T : NameTree ℕ CString} {dirs : ℕ → List Record} {c : ℕ} {p : Session}

/-- `write f 2147483647 a` after `create f` in a new file system of eight blocks: one byte is
written, and the file has `2^31` bytes. -/
theorem CreatedF.writeBig (h : CreatedF 8 T dirs c p) :
    ∃ q, p.step (0, ⟨.write, [nameF, offsetLast, textA]⟩) = some q ∧ q.curDir = 0 ∧
      InTree T dirs q.fs 0 ∧ (q.fs.dinode c).iSize = 2 ^ 31 := by
  have hoffset : strToOffset offsetLast = .ok ((2147483647 : ℕ) : ℤ) := by decide
  obtain ⟨q, hstep, hcur, htree, hwritten⟩ :=
    h.writes textA hoffset (by decide) (by decide) (by decide)
  refine ⟨q, hstep, hcur, htree, ?_⟩
  have hpresent := (htree.fileInode_run h.lookup h.file).1
  have hnonneg := (htree.calm.toSound.extent c (htree.represents.bound c hpresent)).nonneg
  have hsize : ((q.fs.dinode c).iSize.toNat : ℤ) = ((2 ^ 31 : ℕ) : ℤ) :=
    congrArg (fun f ↦ (FileView.size f : ℤ)) hwritten
  omega

/-- `cmd_read` of a file of `2^31` bytes: they are copied, and the count is taken for an error. -/
theorem readBig_run (h : InTree T dirs p.fs 0) (hcur : p.curDir = 0)
    (hlook : lookup (dirs 0) nameF = some (c : ℤ)) (hfile : ¬ T.isDir c)
    (hsize : (p.fs.dinode c).iSize = 2 ^ 31) : ∃ inode bytes,
    (testfsGetFileInode p.curDir nameF).run p.fs = .ok ((0, c), p.fs.fetch c) ∧
    (p.fs.fetch c).inodeHashTable c = some inode ∧ readCount inode 0 (2 ^ 31) = 2 ^ 31 ∧
    (testfsReadData c 0 (2 ^ 31)).run (p.fs.fetch c) = .ok ((-2 ^ 31, bytes), p.fs.fetch c) ∧
    bytes.length = 2 ^ 31 ∧
    (cmdRead p.curDir [nameF, offsetZero, sizeBig]).run p.fs =
      .ok (⟨-2 ^ 31, p.curDir, .nothing⟩, p.fs) := by
  obtain ⟨hpresent, hfound⟩ := h.fileInode_run hlook hfile
  have hlt := h.represents.bound c hpresent
  obtain ⟨n, hn⟩ := inodeHashTable_fetch p.fs c
  have hfetched := (h.fetch hlt).calm.toSound
  have hext := hfetched.extent_of_some hn
  have hdin : n.din.iSize = 2 ^ 31 := by rw [← dinode_of_some hn, dinode_fetch, hsize]
  have hstart : ((0 : ℕ) : ℤ) ≤ n.din.iSize := by
    rw [hdin]
    norm_num
  have hread := testfsReadData_count_run (n := 2 ^ 31) hfetched.core hfetched.reached hn hext
    (by decide)
    hstart (by norm_num)
  have hcount : min (2 ^ 31) (n.din.iSize.toNat - 0) = 2 ^ 31 := by
    rw [hdin]
    rfl
  have hneg : toInt32 ((2 ^ 31 : ℕ) : ℤ) = -2 ^ 31 := by decide
  rw [hcount, hneg, Nat.cast_zero] at hread
  refine ⟨n, _, by rw [hcur]; exact hfound, hn, ?_, hread, length_bytes _ _ _ _, ?_⟩
  · rw [readCount, hdin]
    decide
  have hoffset : strToOffset offsetZero = .ok 0 := by decide
  have hparse : strToSize sizeBig = .ok (2 ^ 31) := by decide
  have hfileRead : (readFile c 0 (2 ^ 31)).run (p.fs.fetch c) = .ok
      ((-2 ^ 31, .nothing), p.fs.fetch c) := by
    rw [readFile, Program.run_bind (testfsInodeGetSize_run hn), dinode_of_some hn, hdin,
      if_neg (by decide), if_neg (by decide), Program.run_bind hread]
    simp only
    rw [length_bytes, Program.check_bind_run (by decide), if_neg (by decide), Program.pure_run]
  rw [cmdRead, hoffset]
  simp only
  rw [if_neg (lt_irrefl 0), hparse]
  simp only
  rw [hcur, Program.run_bind hfound]
  simp only
  rw [if_neg (lt_irrefl 0), Program.run_bind hfileRead, Program.run_bind
    (testfsPutInode_fetch h.calm c), Program.pure_run]

end Big

/-- `create f`, `write f 2147483647 a` and `read f 0 2147483648` in a new file system of eight
blocks: `testfs_read_data` copies `2^31` bytes and returns `-2^31`, and `cmd_read` fails. -/
theorem read_count_wraps : ∃ (p₀ p₁ p₂ : Session) (c : ℕ) (s : FsState) (inode : Inode)
    (bytes : List UInt8), Started 8 p₀ ∧ p₀.step (0, ⟨.create, [nameF]⟩) = some p₁ ∧
    p₁.step (0, ⟨.write, [nameF, offsetLast, textA]⟩) = some p₂ ∧
    (testfsGetFileInode p₂.curDir nameF).run p₂.fs = .ok ((0, c), s) ∧
    s.inodeHashTable c = some inode ∧ readCount inode 0 (2 ^ 31) = bytes.length ∧
    (testfsReadData c 0 (2 ^ 31)).run s = .ok ((-2 ^ 31, bytes), s) ∧
    bytes.length = 2 ^ 31 ∧
    (cmdRead p₂.curDir [nameF, offsetZero, sizeBig]).run p₂.fs =
      .ok (⟨-2 ^ 31, p₂.curDir, .nothing⟩, p₂.fs) := by
  obtain ⟨p₀, p₁, T, dirs, c, hstart, -, hcreate, hcreated⟩ :=
    fresh_create (by decide : 0 < 8) (by decide)
  obtain ⟨p₂, hwrite, hcur, htree, hsize⟩ := hcreated.writeBig
  obtain ⟨inode, bytes, hfound, hn, hcount, hread, hlength, hcmd⟩ :=
    readBig_run htree hcur hcreated.lookup hcreated.file hsize
  exact ⟨p₀, p₁, p₂, c, _, inode, bytes, hstart, hcreate, hwrite, hfound, hn,
    hcount.trans hlength.symm, hread, hlength, hcmd⟩

/-- Reading the first header of the root in a new file system. -/
theorem counts_kept_header : ∃ (s : FsState) (inode : Inode), Sound s ∧
    s.inodeHashTable 0 = some inode ∧ ∀ (ret : ℤ) (bytes : List UInt8) (t : FsState),
      (testfsReadData 0 0 direntSize).run s = .ok ((ret, bytes), t) →
      bytes.length = readCount inode 0 direntSize →
      (ret = bytes.length ↔ readCount inode 0 direntSize < 2 ^ 31) := by
  obtain ⟨p₀, p, T, dirs, c, -, -, -, hcreated⟩ := fresh_create (by decide : 0 < 8) (by decide)
  obtain ⟨inode, hmem⟩ := hcreated.inTree.inMemory
  have hsound := hcreated.inTree.calm.toSound
  exact ⟨p.fs, inode, hsound, hmem, fun ret bytes t ↦
    (counts_kept_iff hsound hmem).1 0 direntSize ret bytes t (by decide)⟩

end OperatingSystems.Fs
