import OperatingSystems.Fs.DirOps
import OperatingSystems.Fs.Room

/-!
# Directories have no holes

No thirteen bytes in a row of a directory are zero (`encodeDir_window`): they reach into a name or
contain the length at the start of a record. So every block of a directory is there
(`IsDir.own_ne_zero`). Writing over records that are there already needs no block and is completed,
and `testfs_remove_dirent` of a name that may be removed succeeds (`testfsRemoveDirent_done`).
-/

set_option autoImplicit false
set_option relaxedAutoImplicit false

namespace OperatingSystems.Fs

open Library

section Dense

variable {s : FsState} {i : ℕ} {rs : List Record}

/-- The length of a name is not zero, so one of its four bytes is not. -/
theorem Record.header_ne_zero (r : Record) : ∃ k < 4, r.dirent.encode.getD k 0 ≠ 0 := by
  by_contra hnone
  have hzero : ∀ k < 4, r.dirent.encode.getD k 0 = 0 := by
    intro k hk
    by_contra hne
    exact hnone ⟨k, hk, hne⟩
  have hencode : r.dirent.encode =
      encodeHeader (r.name.length + 1) r.nr ++ (r.name.bytes ++ [0]) := rfl
  have hlength := Record.length_encodeHeader (r.name.length + 1) r.nr
  have hheader : ∀ k < 4, (encodeHeader (r.name.length + 1) r.nr).getD k 0 = 0 := by
    intro k hk
    have hbyte := hzero k hk
    rwa [hencode, List.getD_eq_getElem?_getD,
      List.getElem?_append_left (by rw [hlength]; exact hk.trans (by decide)),
      ← List.getD_eq_getElem?_getD] at hbyte
  have hword : wordAt 4 (fun j ↦ (encodeHeader (r.name.length + 1) r.nr).getD j 0) 0 =
      wordAt 4 (fun _ ↦ 0) 0 := by
    apply wordAt_congr
    intro j hj
    rw [mul_zero, zero_add]
    exact hheader j hj
  have hlen := r.intAt_dirent.1
  rw [intAt, hword, wordAt_zero, toSigned_zero] at hlen
  omega

/-- The bytes of a name are not zero. -/
theorem Record.name_ne_zero (r : Record) {k : ℕ} (hk : k < r.name.length) :
    r.dirent.encode.getD (direntSize + k) 0 ≠ 0 := by
  have hlength := Record.length_encodeHeader (r.name.length + 1) r.nr
  have hbyte : r.dirent.encode.getD (direntSize + k) 0 = r.name.bytes.get ⟨k, hk⟩ := by
    have hencode : r.dirent.encode =
        encodeHeader (r.name.length + 1) r.nr ++ (r.name.bytes ++ [0]) := rfl
    rw [hencode, List.getD_eq_getElem?_getD, List.getElem?_append_right (by omega), hlength,
      Nat.add_sub_cancel_left, List.getElem?_append_left hk, List.getElem?_eq_getElem hk]
    rfl
  rw [hbyte]
  exact fun hzero ↦ r.name.nulFree (hzero ▸ List.get_mem _ _)

/-- Of thirteen bytes in a row of a directory one is not zero: they reach into a name or contain
the start of a record. -/
theorem encodeDir_window : ∀ (rs : List Record) (a : ℕ), a + 13 ≤ (encodeDir rs).length →
    ∃ k, a ≤ k ∧ k < a + 13 ∧ (encodeDir rs).getD k 0 ≠ 0 := by
  intro rs
  induction rs with
  | nil => exact fun a h ↦ absurd h (by simp)
  | cons r rs ih =>
    intro a h
    have hsize : r.size = direntSize + r.name.length + 1 := rfl
    have hfirst : ∀ k < r.size, (encodeDir (r :: rs)).getD k 0 = r.dirent.encode.getD k 0 := by
      intro k hk
      rw [encodeDir_cons, List.getD_eq_getElem?_getD, List.getD_eq_getElem?_getD,
        List.getElem?_append_left (by rw [Record.length_encode]; exact hk)]
    have hrest : ∀ k, (encodeDir (r :: rs)).getD (r.size + k) 0 = (encodeDir rs).getD k 0 := by
      intro k
      rw [encodeDir_cons, List.getD_eq_getElem?_getD, List.getD_eq_getElem?_getD,
        List.getElem?_append_right (by rw [Record.length_encode]; omega), Record.length_encode,
        Nat.add_sub_cancel_left]
    have hlength : (encodeDir (r :: rs)).length = r.size + (encodeDir rs).length := by
      rw [encodeDir_cons, List.length_append, Record.length_encode]
    simp only [direntSize] at hsize
    by_cases hlater : r.size ≤ a
    · obtain ⟨k, hle, hlt, hne⟩ := ih (a - r.size) (by omega)
      exact ⟨r.size + k, by omega, by omega, by rwa [hrest]⟩
    by_cases hstart : a = 0
    · obtain ⟨k, hk, hne⟩ := r.header_ne_zero
      exact ⟨k, by omega, by omega, by rwa [hfirst k (by omega)]⟩
    by_cases hname : a < r.name.length
    · refine ⟨direntSize + a, by omega, by simp only [direntSize]; omega, ?_⟩
      rw [hfirst _ (by simp only [direntSize]; omega)]
      exact r.name_ne_zero hname
    · cases rs with
      | nil =>
        rw [encodeDir_nil, List.length_nil] at hlength
        omega
      | cons r' rs =>
        obtain ⟨k, hk, hne⟩ := r'.header_ne_zero
        have hsize' := r'.size_ge
        refine ⟨r.size + k, by omega, by omega, ?_⟩
        rw [hrest, encodeDir_cons, List.getD_eq_getElem?_getD,
          List.getElem?_append_left (by rw [Record.length_encode]; omega),
          ← List.getD_eq_getElem?_getD]
        exact hne

/-- A byte that is not zero is in a block. -/
theorem own_of_content {o : ℕ} (h : s.content i o ≠ 0) : s.own i
    (Slot.ofLog (o / blockSize)) ≠ 0 := by
  rw [FsState.content] at h
  split_ifs at h with hand
  · exact hand.2
  · exact absurd rfl h

/-- Every block of a directory is there. -/
theorem IsDir.own_ne_zero (h : IsDir s i rs) (hs : Sound s) (hi : i < nrInodes) {o : ℕ}
    (ho : o < (encodeDir rs).length) : s.own i (Slot.ofLog (o / blockSize)) ≠ 0 := by
  have hcontent := bytes_eq_iff.mp h.bytes
  by_cases hwhole : (o / blockSize + 1) * blockSize ≤ (encodeDir rs).length
  · obtain ⟨k, hle, hlt, hne⟩ := encodeDir_window rs (o / blockSize * blockSize)
      (by simp only [blockSize] at *; omega)
    have hdiv : k / blockSize = o / blockSize := by
      simp only [blockSize] at *
      omega
    rw [← hdiv]
    apply own_of_content
    rw [← zero_add k, hcontent k (by simp only [blockSize] at *; omega)]
    exact hne
  · have hlast := (hs.extent i hi).last
    rw [h.size, Int.toNat_natCast] at hlast
    have hdiv : ((encodeDir rs).length - 1) / blockSize = o / blockSize := by
      simp only [blockSize] at *
      omega
    rw [hdiv] at hlast
    exact hlast (by omega)

/-- Only one inode may have got blocks, all blocks are kept, and no more are in use: nothing has
changed owner. -/
theorem Sound.own_of_room {t : FsState} (hs : Sound s) (ht : Sound t) (hi : i < nrInodes)
    (hothers : Others i s t) (hkeep : ∀ σ, s.own i σ ≠ 0 → t.own i σ = s.own i σ)
    (hused : t.sb.usedBlockCount ≤ s.sb.usedBlockCount) : t.own i = s.own i := by
  have hne : ∀ k : ℕ, ((firstDataBlock + k : ℕ) : ℤ) ≠ 0 := fun k ↦ by positivity
  have hkept : ∀ j < nrInodes, ∀ σ, s.own j σ ≠ 0 → t.own j σ = s.own j σ := by
    intro j hj σ hσ
    by_cases hji : j = i
    · rw [hji] at hσ ⊢
      exact hkeep σ hσ
    · rw [hothers.own j hj hji]
  have hsubset : s.blockFreemap.allocated ⊆ t.blockFreemap.allocated := by
    intro idx hidx
    obtain ⟨j, hj, σ, hσ⟩ := hs.core.mem_allocated.mp hidx
    exact ht.core.mem_allocated.mpr ⟨j, hj, σ, by rw [hkept j hj σ (by rw [hσ]; exact hne idx), hσ]⟩
  rw [ht.core.used, hs.core.used] at hused
  have hsame := Finset.eq_of_subset_of_card_le hsubset hused
  funext σ
  by_cases hσ : s.own i σ = 0
  swap
  · exact hkeep σ hσ
  by_contra hdiff
  rw [hσ] at hdiff
  obtain ⟨idx, -, heq, hbit⟩ := ht.core.inUse hi hdiff
  have hmem : idx ∈ s.blockFreemap.allocated := by
    rw [hsame, ht.core.mem_allocated]
    exact ⟨i, hi, σ, heq⟩
  obtain ⟨j, hj, τ, hτ⟩ := hs.core.mem_allocated.mp hmem
  have hτt : t.own j τ = (firstDataBlock + idx : ℕ) := by
    rw [hkept j hj τ (by rw [hτ]; exact hne idx), hτ]
  obtain ⟨rfl, rfl⟩ := ht.core.ledger.unique j hj i hi τ σ (by rw [hτt]; exact hne idx)
    (hτt.trans heq.symm)
  rw [hσ] at hτ
  exact hne idx hτ.symm

/-- A write over records of a directory needs no block and is completed. -/
theorem IsDir.overwrite_run (h : IsDir s i rs) (hs : Sound s) {inode : Inode}
    (ht : s.inodeHashTable i = some inode) {start : ℕ} {buf : List UInt8} (hpos : 0 < buf.length)
    (hend : start + buf.length ≤ (encodeDir rs).length) : ∃ t inode',
    (testfsWriteData i buf start).run s = .ok (toInt32 buf.length, t) ∧
      Written i start buf inode s none buf.length t inode' ∧ t.own i = s.own i := by
  have hi := hs.lt ht
  have hmax := (hs.extent i hi).le_max
  rw [h.size] at hmax
  have hnone : s.missing i (writeSlots start buf.length) = 0 :=
    missing_eq_zero fun o _ hlt ↦ h.own_ne_zero hs hi (by omega)
  have hbound : (encodeDir rs).length ≤ maxFileSize := by exact_mod_cast hmax
  have hneed : HasRoom (s.room + s.missing i (writeSlots start buf.length)) s := by
    rw [hnone]
    exact hs.core.hasRoom_iff.mpr le_rfl
  obtain ⟨t, inode', hrun, hw, hroom, hkeep⟩ := hs.write_room ht (by omega) (by omega) hneed
  refine ⟨t, inode', hrun, hw, hs.own_of_room hw.sound hi hw.others hkeep ?_⟩
  have hle := hw.sound.core.hasRoom_iff.mp hroom
  have hlimit := hs.core.limit
  have hbits := hs.core.used_le
  rw [FsState.room, FsState.room, hw.others.maxFsBlocks] at hle
  have hlimit' := hw.sound.core.limit
  have hbits' := hw.sound.core.used_le
  rw [hw.others.maxFsBlocks] at hlimit'
  omega

/-- `testfs_remove_dirent` of a name that may be removed succeeds. -/
theorem testfsRemoveDirent_done {inode : Inode} {name : CString} {r : Record} (hs : Sound s)
    (ht : s.inodeHashTable i = some inode) (hdir : IsDir s i rs)
    (hname : ¬ (name = dot ∨ name = dotdot))
    (hsize : r.size < 2 ^ 31) (hfind : rs.find? (Record.named name) = some r) {a : ℤ}
    (ha : 0 ≤ a) (hallowed : (testfsRemoveDirentAllowed r.nr.toNat).run s = .ok (a, s)) :
    ∃ t inode', (testfsRemoveDirent i name).run s = .ok (r.nr, t) ∧
      Written i (encodeDir (rs.takeWhile fun r ↦ !r.named name)).length r.remove.dirent.encode
        inode s none r.remove.dirent.encode.length t inode' ∧ t.own i = s.own i ∧
      IsDir t i (removeRecord name rs) := by
  obtain ⟨post, hsplit, -⟩ := removeRecord_of_find?_eq_some hfind
  have hlength := congrArg (fun l ↦ (encodeDir l).length) hsplit
  simp only [encodeDir_append, encodeDir_cons, List.length_append, Record.length_encode] at hlength
  have hpos : 0 < r.remove.dirent.encode.length := by
    rw [Record.length_encode]
    exact lt_of_lt_of_le (by decide) r.remove.size_ge
  have hend : (encodeDir (rs.takeWhile fun r ↦ !r.named name)).length +
      r.remove.dirent.encode.length ≤
      (encodeDir rs).length := by
    rw [Record.length_encode, Record.size_remove]
    omega
  obtain ⟨t, inode', hrun, hw, hown⟩ := hdir.overwrite_run hs ht hpos hend
  obtain ⟨hend, hdone⟩ := hw.removedDirent ht hdir hfind
  have hremove := testfsRemoveDirent_write_run hs ht hdir hname hfind ha hallowed hrun
  have hnonneg : 0 ≤ toInt32 r.remove.dirent.encode.length := by
    rw [Record.length_encode, Record.size_remove, toInt32_of_range (by omega) (by omega)]
    exact Int.natCast_nonneg _
  rw [if_pos hnonneg] at hremove
  exact ⟨t, inode', hremove, hw, hown, hdone rfl⟩

end Dense

end OperatingSystems.Fs
