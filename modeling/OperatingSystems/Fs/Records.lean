import OperatingSystems.Fs.Dir
import OperatingSystems.Fs.InodeOps

/-!
# Directories as lists of records

`IsDir s i rs` says that inode `i` is a directory whose bytes are the records `rs`, one after the
other. On such a directory `testfs_next_dirent` returns the records in turn
(`testfsNextDirent_run`), so every loop over a directory is a search in the list `rs`
(`findFirst_run`), and nothing is changed by it. Writing a record at the end or in the place of
one of the same length gives a directory again (`IsDir.append`, `IsDir.replace`).
-/

set_option autoImplicit false
set_option relaxedAutoImplicit false

namespace OperatingSystems.Fs

open Library

/-! ### Records -/

/-- A record of a directory, whose fields fit their types. -/
@[ext] structure Record where
  nr : ℤ
  name : CString
  nr_range : -2 ^ 31 ≤ nr ∧ nr < 2 ^ 31
  name_fits : name.length + 1 < 2 ^ 31

namespace Record

/-- The record as `testfs_next_dirent` returns it. -/
def dirent (r : Record) : Dirent := ⟨r.name.length + 1, r.nr, r.name.bytes ++ [0]⟩

/-- The number of bytes of a record. -/
def size (r : Record) : ℕ := direntSize + r.name.length + 1

/-- The record is in use. -/
def live (r : Record) : Bool := decide (0 ≤ r.nr)

/-- The record is in use and has the name. -/
def named (name : CString) (r : Record) : Bool := r.live && decide (r.name = name)

/-- The record with its inode number removed. -/
def remove (r : Record) : Record := { r with nr := invalidInodeNr, nr_range := by decide }

@[simp] theorem size_remove (r : Record) : r.remove.size = r.size := rfl

@[simp] theorem live_remove (r : Record) : r.remove.live = false := rfl

theorem length_encodeHeader (len nr : ℤ) : (encodeHeader len nr).length = direntSize := by
  simp [encodeHeader]

@[simp] theorem length_encode (r : Record) : r.dirent.encode.length = r.size := by
  rw [Dirent.encode, List.length_append, length_encodeHeader, dirent, List.length_append, size,
    CString.length, add_assoc]
  rfl

theorem size_ge (r : Record) : 9 ≤ r.size := by
  rw [size]
  simp only [direntSize]
  omega

/-! ### Reading a record back -/

/-- A header, read as two integers, gives the fields. -/
theorem intAt_header {len nr : ℤ} (hlen : -2 ^ 31 ≤ len ∧ len < 2 ^ 31)
    (hnr : -2 ^ 31 ≤ nr ∧ nr < 2 ^ 31) :
    intAt (encodeHeader len nr) 0 = len ∧ intAt (encodeHeader len nr) 1 = nr := by
  have hsigned : ∀ {z : ℤ}, -2 ^ 31 ≤ z ∧ z < 2 ^ 31 →
      toSigned 4 (toUnsigned 4 z % 256 ^ 4) = z := by
    intro z hz
    apply toSigned_toUnsigned
    · norm_num
      omega
    · norm_num
      omega
  constructor
  · rw [intAt, wordAt_of_leByte (v := toUnsigned 4 len), hsigned hlen]
    intro j hj
    rw [encodeHeader, List.getD_eq_getElem?_getD, mul_zero, zero_add,
      List.getElem?_append_left (by simpa using hj)]
    simp [hj]
  · rw [intAt, wordAt_of_leByte (v := toUnsigned 4 nr), hsigned hnr]
    intro j hj
    rw [encodeHeader, List.getD_eq_getElem?_getD, mul_one, List.getElem?_append_right (by simp)]
    simp [hj]

theorem intAt_dirent (r : Record) :
    intAt (encodeHeader (r.name.length + 1) r.nr) 0 = r.name.length + 1 ∧
      intAt (encodeHeader (r.name.length + 1) r.nr) 1 = r.nr := by
  have hfits := r.name_fits
  exact intAt_header (by omega) r.nr_range

theorem cName_dirent (r : Record) : r.dirent.cName = .ok r.name.bytes := by
  have hmem : 0 ∈ r.dirent.dName := List.mem_append_right _ (List.mem_singleton_self 0)
  have htake : r.dirent.dName.takeWhile (· ≠ 0) = r.name.bytes := by
    rw [dirent, List.takeWhile_append_of_pos]
    · simp
    · intro c hc
      have hne : c ≠ 0 := fun hzero ↦ r.name.nulFree (hzero ▸ hc)
      simpa using hne
  rw [Dirent.cName, if_pos hmem, htake]

theorem nameIs_dirent (r : Record) (name : CString) :
    r.dirent.nameIs name = .ok (decide (r.name = name)) := by
  have hiff : r.name.bytes = name.bytes ↔ r.name = name := by
    rw [CString.mk.injEq]
  rw [Dirent.nameIs, cName_dirent]
  simp only [Except.map, hiff]

theorem isLive_dirent (r : Record) (name : CString) :
    r.dirent.isLive name = .ok (r.named name) := by
  have hnr : r.dirent.dInodeNr = r.nr := rfl
  rw [Dirent.isLive, hnr, nameIs_dirent, named, live]
  by_cases h : r.nr < 0
  · rw [if_pos h, decide_eq_false (not_le.mpr h), Bool.false_and]
  · rw [if_neg h, decide_eq_true (not_lt.mp h), Bool.true_and]

end Record

/-! ### Directories -/

/-- The bytes of a list of records. -/
def encodeDir (rs : List Record) : List UInt8 := rs.flatMap fun r ↦ r.dirent.encode

@[simp] theorem encodeDir_nil : encodeDir [] = [] := rfl

@[simp] theorem encodeDir_cons (r : Record) (rs : List Record) :
    encodeDir (r :: rs) = r.dirent.encode ++ encodeDir rs := rfl

@[simp] theorem encodeDir_append (rs rs' : List Record) :
    encodeDir (rs ++ rs') = encodeDir rs ++ encodeDir rs' :=
  List.flatMap_append

theorem length_le_encodeDir (rs : List Record) : rs.length ≤ (encodeDir rs).length := by
  induction rs with
  | nil => rfl
  | cons r rs ih =>
    have hsize := r.size_ge
    rw [encodeDir_cons, List.length_append, List.length_cons, Record.length_encode]
    omega

theorem size_le_encodeDir {r : Record} {rs : List Record} (h : r ∈ rs) :
    r.size ≤ (encodeDir rs).length := by
  obtain ⟨first, second, rfl⟩ := List.append_of_mem h
  rw [encodeDir_append, encodeDir_cons, List.length_append, List.length_append,
    Record.length_encode]
  omega

/-- The bytes of a record that is followed by others determine it. -/
theorem Record.dirent_inj {r r' : Record} {rest rest' : List UInt8}
    (h : r.dirent.encode ++ rest = r'.dirent.encode ++ rest') : r = r' ∧ rest = rest' := by
  have hencode : ∀ (q : Record) (l : List UInt8), q.dirent.encode ++ l =
      encodeHeader (q.name.length + 1) q.nr ++ (q.name.bytes ++ ([0] ++ l)) := fun q l ↦ by
    rw [← List.append_assoc q.name.bytes, ← List.append_assoc]
    rfl
  rw [hencode, hencode] at h
  obtain ⟨hheader, hnames⟩ := List.append_inj h (by
    rw [Record.length_encodeHeader, Record.length_encodeHeader])
  have hlen := r.intAt_dirent.1
  have hnr := r.intAt_dirent.2
  rw [hheader, r'.intAt_dirent.1] at hlen
  rw [hheader, r'.intAt_dirent.2] at hnr
  have hlength : r.name.bytes.length = r'.name.bytes.length := by
    rw [CString.length, CString.length] at hlen
    omega
  obtain ⟨hbytes, htail⟩ := List.append_inj hnames hlength
  refine ⟨Record.ext hnr.symm ?_, (List.append_inj htail rfl).2⟩
  rw [CString.mk.injEq]
  exact hbytes

/-- A list of records is determined by its bytes. -/
theorem encodeDir_inj {rs : List Record} : ∀ {rs'}, encodeDir rs = encodeDir rs' → rs = rs' := by
  have hnonempty : ∀ (r : Record) (l : List Record), encodeDir (r :: l) ≠ [] := fun r l hnil ↦ by
    have hsize := size_le_encodeDir (List.mem_cons_self (a := r) (l := l))
    have hge := r.size_ge
    rw [hnil, List.length_nil] at hsize
    omega
  induction rs with
  | nil =>
    intro rs' h
    cases rs' with
    | nil => rfl
    | cons r' rs' => exact absurd h.symm (hnonempty r' rs')
  | cons r rs ih =>
    intro rs' h
    cases rs' with
    | nil => exact absurd h (hnonempty r rs)
    | cons r' rs' =>
      obtain ⟨rfl, hrest⟩ := Record.dirent_inj h
      rw [ih hrest]

/-- Inode `i` is a directory with the records `rs`. -/
structure IsDir (s : FsState) (i : ℕ) (rs : List Record) : Prop where
  type : (s.dinode i).iType = InodeType.dir.code
  size : (s.dinode i).iSize = (encodeDir rs).length
  bytes : s.bytes i 0 (encodeDir rs).length = encodeDir rs

/-- A part of the bytes of a file. -/
theorem bytes_of_append {s : FsState} {i : ℕ} {first second third : List UInt8}
    (h : s.bytes i 0 (first ++ second ++ third).length = first ++ second ++ third) :
    s.bytes i first.length second.length = second := by
  rw [List.length_append, List.length_append, bytes_add, bytes_add, zero_add] at h
  have hsplit := (List.append_inj h (by simp)).1
  exact (List.append_inj hsplit (by simp)).2

/-- The bytes of a file are determined by its contents. -/
theorem bytes_eq_iff {s : FsState} {i off : ℕ} {l : List UInt8} :
    s.bytes i off l.length = l ↔ ∀ k < l.length, s.content i (off + k) = l.getD k 0 := by
  constructor
  · intro h k hk
    conv_rhs => rw [← h]
    rw [List.getD_eq_getElem?_getD, FsState.bytes, List.getElem?_map, List.getElem?_range hk]
    rfl
  · intro h
    apply List.ext_getElem?
    intro k
    by_cases hk : k < l.length
    · rw [FsState.bytes, List.getElem?_map, List.getElem?_range hk, Option.map_some, h k hk,
        List.getD_eq_getElem?_getD, List.getElem?_eq_getElem hk, Option.getD_some]
    · rw [List.getElem?_eq_none (by simpa using hk), List.getElem?_eq_none (by simpa using hk)]

/-- The records of a directory are determined by it. -/
theorem IsDir.unique {s : FsState} {i : ℕ} {rs rs' : List Record} (h : IsDir s i rs)
    (h' : IsDir s i rs') : rs = rs' := by
  have hlength : (encodeDir rs).length = (encodeDir rs').length := by
    have hsize := h.size
    rw [h'.size] at hsize
    omega
  refine encodeDir_inj ?_
  rw [← h.bytes, hlength, h'.bytes]

theorem IsDir.congr {s t : FsState} {i : ℕ} {rs : List Record} (h : IsDir s i rs)
    (hdinode : t.dinode i = s.dinode i) (hcontent : t.content i = s.content i) : IsDir t i rs := by
  refine ⟨by rw [hdinode]; exact h.type, by rw [hdinode]; exact h.size, ?_⟩
  have hbytes := h.bytes
  rw [FsState.bytes] at hbytes ⊢
  rw [hcontent]
  exact hbytes

section Scan

variable {s : FsState} {i : ℕ} {inode : Inode} {pre post : List Record}

theorem testfsInodeGetType_run (ht : s.inodeHashTable i = some inode) :
    (testfsInodeGetType i).run s = .ok ((s.dinode i).iType, s) := by
  rw [testfsInodeGetType, Program.run_bind (inodeRef_run ht), Program.pure_run, dinode_of_some ht]

theorem testfsInodeGetSize_run (ht : s.inodeHashTable i = some inode) :
    (testfsInodeGetSize i).run s = .ok ((s.dinode i).iSize, s) := by
  rw [testfsInodeGetSize, Program.run_bind (inodeRef_run ht), Program.pure_run, dinode_of_some ht]

/-- Reading a part of a directory. -/
theorem IsDir.readData (hs : Sound s) (ht : s.inodeHashTable i = some inode) {rs : List Record}
    (h : IsDir s i rs) {first second third : List UInt8}
    (hbytes : encodeDir rs = first ++ second ++ third) (hpos : 0 < second.length)
    (hlen : second.length < 2 ^ 31) :
    (testfsReadData i first.length second.length).run s = .ok ((second.length, second), s) := by
  have hext := hs.extent_of_some ht
  have hsize := h.size
  rw [dinode_of_some ht, hbytes, List.length_append, List.length_append] at hsize
  have hmax := hext.le_max
  have hmin : min second.length (inode.din.iSize.toNat - first.length) = second.length := by omega
  have hpart := bytes_of_append (hbytes ▸ h.bytes)
  have hstart : first.length < maxFileSize := by omega
  have hrun := testfsReadData_run hs.core hs.reached ht hext hstart (by omega) hlen
  rw [hmin, hpart] at hrun
  exact hrun

/-- The record that a header and the bytes after it make. -/
theorem readDirentName_run {offset len nr ret : ℤ} {header name : List UInt8}
    (hheader : header.length = direntSize) (hlen : intAt header 0 = len) (hnr : intAt header 1 = nr)
    (hpos : 0 < len) (hret : 0 ≤ ret)
    (hread : (testfsReadData i (offset + direntSize) len.toNat).run s = .ok ((ret, name), s)) :
    (readDirentName i offset header).run s =
      .ok (some (⟨len, nr, name⟩, offset + direntSize + len), s) := by
  subst hlen hnr
  rw [readDirentName, Program.check_bind_run hheader, Program.check_bind_run hpos,
    Program.run_bind hread]
  simp only
  rw [if_neg (not_lt.mpr hret), Program.pure_run]

/-- `testfs_next_dirent` returns the record at the offset. -/
theorem testfsNextDirent_run (hs : Sound s) (ht : s.inodeHashTable i = some inode)
    (h : IsDir s i (pre ++ post)) :
    (testfsNextDirent i (encodeDir pre).length).run s = .ok (post.head?.map fun r ↦
      (r.dirent, ((encodeDir (pre ++ [r])).length : ℤ)), s) := by
  rw [testfsNextDirent, Program.run_bind (testfsInodeGetType_run ht), Program.check_bind_run h.type,
    Program.run_bind (testfsInodeGetSize_run ht), h.size, encodeDir_append, List.length_append]
  cases post with
  | nil =>
    rw [if_pos (by simp), Program.pure_run]
    rfl
  | cons r post =>
    have hsize := r.size_ge
    have hlength : (encodeDir (r :: post)).length = r.size + (encodeDir post).length := by
      rw [encodeDir_cons, List.length_append, Record.length_encode]
    have hint := r.intAt_dirent
    have hheader := Record.length_encodeHeader (r.name.length + 1) r.nr
    have hname : (r.name.bytes ++ [0]).length = r.name.length + 1 := by
      rw [List.length_append]
      rfl
    have hfirst : encodeDir (pre ++ r :: post) = encodeDir pre ++
        encodeHeader (r.name.length + 1) r.nr ++ (r.name.bytes ++ [0] ++ encodeDir post) := by
      simp only [encodeDir_append, encodeDir_cons, Dirent.encode, Record.dirent, List.append_assoc]
    have hsecond : encodeDir (pre ++ r :: post) = (encodeDir pre ++
        encodeHeader (r.name.length + 1) r.nr) ++ (r.name.bytes ++ [0]) ++ encodeDir post := by
      rw [hfirst]
      simp only [List.append_assoc]
    have hread₁ := h.readData hs ht hfirst (by rw [hheader]; decide) (by rw [hheader]; decide)
    have hread₂ := h.readData hs ht hsecond (by rw [hname]; omega)
      (by rw [hname]; exact r.name_fits)
    rw [hheader] at hread₁
    have hnat : ((r.name.length : ℤ) + 1).toNat = r.name.length + 1 := by omega
    rw [List.length_append, hheader, hname, Nat.cast_add] at hread₂
    have hend : ((encodeDir (pre ++ [r])).length : ℤ) =
        (encodeDir pre).length + direntSize + (r.name.length + 1) := by
      simp only [encodeDir_append, encodeDir_cons, encodeDir_nil, List.append_nil,
        List.length_append, Record.length_encode, Record.size, Nat.cast_add, Nat.cast_one,
          add_assoc]
    rw [if_neg (by omega), Program.run_bind hread₁]
    simp only
    rw [if_neg (not_lt.mpr (Int.natCast_nonneg _)), List.head?_cons, Option.map_some, hend]
    exact readDirentName_run hheader hint.1 hint.2 (by omega) (Int.natCast_nonneg _)
      (by rw [hnat]; exact hread₂)

/-- A loop over the records from some place on finds the first one of its kind. -/
theorem scanDirents_run (hs : Sound s) (ht : s.inodeHashTable i = some inode)
    {stop : Dirent → Except Halt Bool} {p : Record → Bool} (turns : ℕ) : ∀ (pre post : List Record),
    IsDir s i (pre ++ post) → (∀ r ∈ post, stop r.dirent = .ok (p r)) → post.length < turns →
    (scanDirents i stop turns (encodeDir pre).length).run s =
      .ok ((((encodeDir (pre ++ post.takeWhile fun r ↦ !p r)).length : ℤ),
        (post.find? p).map Record.dirent), s) := by
  induction turns with
  | zero => exact fun _ _ _ _ hturns ↦ absurd hturns (Nat.not_lt_zero _)
  | succ turns ih =>
    intro pre post h hstop hturns
    rw [scanDirents, Program.run_bind (testfsNextDirent_run hs ht h)]
    cases post with
    | nil => simp
    | cons r post =>
      simp only [List.head?_cons, Option.map_some]
      rw [hstop r List.mem_cons_self, Program.run_bind (Program.ofExcept_ok_run _ _)]
      cases hp : p r with
      | true => simp [hp]
      | false =>
        have happend : pre ++ r :: post = pre ++ [r] ++ post := by simp
        rw [happend] at h
        have hrest := ih (pre ++ [r]) post h (fun r' hr' ↦ hstop r' (List.mem_cons_of_mem _ hr'))
          (by simpa using hturns)
        simpa [hp] using hrest

/-- A search in a directory finds the first record of its kind and changes nothing. -/
theorem findFirst_run (hs : Sound s) (ht : s.inodeHashTable i = some inode) {rs : List Record}
    (h : IsDir s i rs) {stop : Dirent → Except Halt Bool} {p : Record → Bool}
    (hstop : ∀ r ∈ rs, stop r.dirent = .ok (p r)) :
    (findFirst i stop).run s = .ok ((((encodeDir (rs.takeWhile fun r ↦ !p r)).length : ℤ),
      (rs.find? p).map Record.dirent), s) := by
  have hlength := length_le_encodeDir rs
  rw [findFirst, Program.run_bind (testfsInodeGetType_run ht), Program.check_bind_run h.type,
    Program.run_bind (testfsInodeGetSize_run ht), h.size, Int.toNat_natCast]
  exact scanDirents_run hs ht _ [] rs h hstop (Nat.lt_succ_of_le hlength)

/-- The inode number that a directory has for a name. -/
def lookup (rs : List Record) (name : CString) : Option ℤ :=
  (rs.find? (Record.named name)).map Record.nr

/-- `testfs_dir_name_to_inode_nr` looks the name up in the records. -/
theorem testfsDirNameToInodeNr_run (hs : Sound s) (ht : s.inodeHashTable i = some inode)
    {rs : List Record} (h : IsDir s i rs) (name : CString) :
    (testfsDirNameToInodeNr i name).run s = .ok ((lookup rs name).getD (-eNOENT), s) := by
  rw [testfsDirNameToInodeNr,
    Program.run_bind (findFirst_run hs ht h fun r _ ↦ r.isLive_dirent name), lookup]
  cases rs.find? (Record.named name) with
  | none => rfl
  | some r => rfl

end Scan

end OperatingSystems.Fs
