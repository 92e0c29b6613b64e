import OperatingSystems.Fs.Sync
import OperatingSystems.Library.HashList

/-!
# The hash table of in-memory inodes: `inode.c` and `list.h`

Everywhere else the hash table is a map from inode numbers to in-memory inodes. Here it is what the
code has: 256 lists of `struct inode`, linked through `hnode`, and `testfs_get_inode` and
`testfs_put_inode` on pointers. `inode_hash_refines` says that the same calls on pointers and on
numbers, made in the same order, keep the two the same: the map is what the lists hold, a number is
found exactly if it is in the map, there is one pointer for each number, and `inode_hash_destroy`
finds its lists empty exactly if the map is.

What the rest of the code does through a pointer is an assignment to the fields of its inode, and
what it does to the device, the super block and the freemaps is left open.
-/

set_option autoImplicit false
set_option relaxedAutoImplicit false

namespace OperatingSystems.Fs

open Library Library.HashList

/-! ### The code -/

/-- `hash_int`. The constant is an `unsigned long`, and the product is cut to an `unsigned int`. -/
def hashInt (val bits : ℕ) : ℕ := val * 0x9e370001 % 2 ^ 32 / 2 ^ (32 - bits)

/-- `INODE_HASH_SHIFT`. -/
abbrev inodeHashShift : ℕ := 8

/-- `inode_hash_size`. -/
abbrev inodeHashSize : ℕ := 2 ^ inodeHashShift

theorem hashInt_lt (val : ℕ) : hashInt val inodeHashShift < inodeHashSize := by
  have hlt := Nat.mod_lt (val * 0x9e370001) (by decide : 0 < 2 ^ 32)
  rw [hashInt]
  simp only [inodeHashSize, inodeHashShift] at *
  omega

/-- `inode_hashfn`. -/
def inodeHashfn (nr : ℕ) : Fin inodeHashSize := ⟨hashInt (nr % 2 ^ 32) inodeHashShift, hashInt_lt _⟩

/-- A mounted file system whose in-memory inodes are behind pointers: `i_nr`, the links `hnode`, and
the other fields. The map of `fs` is not used. -/
structure HashedFs (A : Type) where
  fs : FsState
  heap : Heap (Fin inodeHashSize) A
  inodeNr : A → ℕ
  inode : A → Inode

section Code

variable {A : Type} [DecidableEq A]

/-- A function on the pointers. -/
abbrev HashedProgram (A α : Type) : Type := Program (HashedFs A) Halt α

/-- Call a function that does not use the map. -/
def onFs {α : Type} (m : FsProgram α) : HashedProgram A α := fun c ↦
  match m.run c.fs with
  | .ok (a, fs) => .ok (a, { c with fs := fs })
  | .error e => .error e

/-- The state with the fields of one inode replaced. -/
def HashedFs.setInode (c : HashedFs A) (a : A) (inode : Inode) : HashedFs A :=
  { c with inode := Function.update c.inode a inode }

/-- Assign to fields of an inode. -/
def assignInode (a : A) (f : Inode → Inode) : HashedProgram A Unit :=
  Program.modify fun c ↦ c.setInode a (f (c.inode a))

/-- `inode_hash_init`. -/
def inodeHashInit : HashedProgram A Unit :=
  Program.modify fun c ↦ { c with heap.first := fun _ ↦ none }

/-- `inode_hash_destroy`. -/
def inodeHashDestroy : HashedProgram A Unit := do
  let c ← Program.get
  Program.check (∀ h, (c.heap.first h).isNone = true) .assertion

/-- `inode_hash_find`, for a number of turns at most. -/
def inodeHashFind (turns nr : ℕ) : HashedProgram A (Option A) := do
  let c ← Program.get
  match c.heap.find (fun a ↦ c.inodeNr a = nr) turns (c.heap.first (inodeHashfn nr)) with
  | some found => pure found
  | none => Program.halt .depth

/-- `inode_hash_insert`. -/
def inodeHashInsert (a : A) : HashedProgram A Unit :=
  Program.modify fun c ↦
    { c with heap := (c.heap.initNode a).addHead a (inodeHashfn (c.inodeNr a)) }

/-- `inode_hash_remove`. -/
def inodeHashRemove (a : A) : HashedProgram A Unit := do
  let c ← Program.get
  match c.heap.del a with
  | some heap => Program.modify fun c ↦ { c with heap := heap }
  | none => Program.halt .undefined

/-- The part of `testfs_get_inode` that makes an in-memory inode, at the pointer that `calloc`
returns. -/
def newInodePtr (fresh : A) (nr : ℕ) : HashedProgram A A := do
  Program.modify fun c ↦
    { c with inodeNr := Function.update c.inodeNr fresh nr }.setInode fresh ⟨Dinode.zero, false, 1⟩
  let block ← onFs (testfsReadInodeBlock nr)
  let blockOffset := testfsInodeToBlockOffset nr
  assignInode fresh fun inode ↦
    { inode with din := decodeDinode fun j ↦ block.byte (blockOffset + j) }
  inodeHashInsert fresh
  pure fresh

/-- `testfs_get_inode` on pointers. -/
def testfsGetInodePtr (turns : ℕ) (fresh : A) (nr : ℕ) : HashedProgram A A := do
  let found ← inodeHashFind turns nr
  match found with
  | some a => do
    assignInode a fun inode ↦ { inode with iCount := inode.iCount + 1 }
    pure a
  | none => newInodePtr fresh nr

/-- `testfs_put_inode` on pointers. -/
def testfsPutInodePtr (a : A) : HashedProgram A Unit := do
  let c ← Program.get
  Program.check ((c.inode a).dirty = false) .assertion
  assignInode a fun inode ↦ { inode with iCount := inode.iCount - 1 }
  if (c.inode a).iCount - 1 = 0 then inodeHashRemove a else pure ()

end Code

/-! ### What the lists hold -/

section Tabled

variable {A : Type} {lists : Fin inodeHashSize → List A} {c c' : HashedFs A} {s : FsState} {a b : A}
  {h : Fin inodeHashSize} {i nr turns : ℕ}

/-- The map of `s` is what the lists hold, and the rest is the same. -/
structure Tabled (lists : Fin inodeHashSize → List A) (c : HashedFs A) (s : FsState) : Prop where
  holds : Holds c.heap lists
  bucket : ∀ h, ∀ a ∈ lists h, inodeHashfn (c.inodeNr a) = h
  distinct : ∀ h, ∀ a ∈ lists h, ∀ b ∈ lists h, c.inodeNr a = c.inodeNr b → a = b
  table : ∀ i inode, s.inodeHashTable i = some inode ↔
    ∃ h, ∃ a ∈ lists h, c.inodeNr a = i ∧ c.inode a = inode
  rest : c.fs = { s with inodeHashTable := c.fs.inodeHashTable }

/-- The inode of a number is in the list of the number's hash. -/
theorem Tabled.find (ht : Tabled lists c s) (nr : ℕ) :
    (∃ a ∈ lists (inodeHashfn nr), c.inodeNr a = nr ∧
      (lists (inodeHashfn nr)).find? (fun a ↦ c.inodeNr a = nr) = some a ∧
      s.inodeHashTable nr = some (c.inode a)) ∨
    ((∀ h, ∀ a ∈ lists h, c.inodeNr a ≠ nr) ∧
      (lists (inodeHashfn nr)).find? (fun a ↦ c.inodeNr a = nr) = none ∧
      s.inodeHashTable nr = none) := by
  cases hfind : (lists (inodeHashfn nr)).find? (fun a ↦ decide (c.inodeNr a = nr)) with
  | some a =>
    have hmem := List.mem_of_find?_eq_some hfind
    have hnr : c.inodeNr a = nr := by simpa using List.find?_some hfind
    exact Or.inl ⟨a, hmem, hnr, rfl, (ht.table nr _).mpr ⟨_, a, hmem, hnr, rfl⟩⟩
  | none =>
    have hnone : ∀ h, ∀ a ∈ lists h, c.inodeNr a ≠ nr := by
      rintro h a ha rfl
      rw [← ht.bucket h a ha] at ha
      have hne := List.find?_eq_none.mp hfind a ha
      exact hne (by simp)
    refine Or.inr ⟨hnone, rfl, ?_⟩
    cases htable : s.inodeHashTable nr with
    | none => rfl
    | some inode =>
      obtain ⟨h, a, ha, hnr, -⟩ := (ht.table nr inode).mp htable
      exact absurd hnr (hnone h a ha)

/-- The walk along the list of a number finds the pointer. -/
def HashedFs.InTable (c : HashedFs A) (a : A) : Prop :=
  ∃ turns, c.heap.find (fun b ↦ c.inodeNr b = c.inodeNr a) turns
    (c.heap.first (inodeHashfn (c.inodeNr a))) = some (some a)

theorem Tabled.inTable_iff (ht : Tabled lists c s) : c.InTable a ↔ ∃ h, a ∈ lists h := by
  have hchain := ht.holds (inodeHashfn (c.inodeNr a))
  constructor
  · rintro ⟨turns, hwalk⟩
    exact ⟨_, List.mem_of_find?_eq_some (hchain.find_eq hwalk).symm⟩
  · rintro ⟨h, ha⟩
    refine ⟨_, (hchain.find _ le_rfl).trans ?_⟩
    obtain rfl := ht.bucket h a ha
    rcases ht.find (c.inodeNr a) with ⟨b, hb, hnr, hfind, -⟩ | ⟨hnone, -⟩
    · rw [hfind, ht.distinct _ b hb a ha hnr]
    · exact absurd rfl (hnone _ a ha)

/-- Each inode of the lists is in the map under its number. -/
theorem Tabled.table_of_mem (ht : Tabled lists c s) (ha : a ∈ lists h) :
    s.inodeHashTable (c.inodeNr a) = some (c.inode a) := (ht.table _ _).mpr ⟨h, a, ha, rfl, rfl⟩

/-- There is one pointer for each number. -/
theorem Tabled.eq_of_nr (ht : Tabled lists c s) {h' : Fin inodeHashSize} (ha : a ∈ lists h)
    (hb : b ∈ lists h') (hnr : c.inodeNr a = c.inodeNr b) : a = b := by
  have hh : h = h' := by rw [← ht.bucket h a ha, hnr, ht.bucket h' b hb]
  subst hh
  exact ht.distinct h a ha b hb hnr

/-- Some walk along a list comes to the pointer. -/
def HashedFs.Linked (c : HashedFs A) (a : A) : Prop :=
  ∃ h p turns, c.heap.find p turns (c.heap.first h) = some (some a)

theorem Tabled.mem_of_linked (ht : Tabled lists c s) (ha : c.Linked a) : ∃ h, a ∈ lists h := by
  obtain ⟨h, p, turns, hwalk⟩ := ha
  exact ⟨h, List.mem_of_find?_eq_some ((ht.holds h).find_eq hwalk).symm⟩

theorem Tabled.eq_of_linked (ht : Tabled lists c s) (ha : c.Linked a) (hb : c.Linked b)
    (hnr : c.inodeNr a = c.inodeNr b) : a = b := by
  obtain ⟨h, hal⟩ := ht.mem_of_linked ha
  obtain ⟨h', hbl⟩ := ht.mem_of_linked hb
  exact ht.eq_of_nr hal hbl hnr

variable [DecidableEq A]

@[simp]
theorem HashedFs.inodeNr_setInode (c : HashedFs A) (a : A) (x : Inode) :
    (c.setInode a x).inodeNr = c.inodeNr := rfl

@[simp]
theorem HashedFs.heap_setInode (c : HashedFs A) (a : A) (x : Inode) :
    (c.setInode a x).heap = c.heap := rfl

theorem HashedFs.inode_setInode_self (c : HashedFs A) (a : A) (x : Inode) :
    (c.setInode a x).inode a = x := Function.update_self ..

theorem HashedFs.inode_setInode_of_ne (hba : b ≠ a) (x : Inode) :
    (c.setInode a x).inode b = c.inode b := Function.update_of_ne hba ..

/-- An assignment to the fields of an inode. -/
theorem Tabled.assign (ht : Tabled lists c s) (ha : a ∈ lists h) (x : Inode) :
    Tabled lists (c.setInode a x) (s.setInode (c.inodeNr a) (some x)) where
  holds := ht.holds
  bucket := ht.bucket
  distinct := ht.distinct
  table := by
    intro i inode
    by_cases hi : i = c.inodeNr a
    · subst hi
      rw [inodeHashTable_setInode_self, Option.some.injEq]
      constructor
      · rintro rfl
        exact ⟨h, a, ha, rfl, c.inode_setInode_self a x⟩
      · rintro ⟨h', b, hb, hnr, hx⟩
        obtain rfl := ht.eq_of_nr hb ha hnr
        exact (c.inode_setInode_self b x).symm.trans hx
    · rw [inodeHashTable_setInode_of_ne _ _ hi, ht.table]
      refine exists_congr fun h' ↦ exists_congr fun b ↦ and_congr_right fun _ ↦
        and_congr_right fun hnr ↦ ?_
      rw [HashedFs.inode_setInode_of_ne fun heq ↦ hi (by rw [← hnr, heq])]
  rest := ht.rest

/-- The state with a new inode in its list. -/
def HashedFs.addInode (c : HashedFs A) (a : A) (nr : ℕ) (inode : Inode) : HashedFs A :=
  { c with
    heap := (c.heap.initNode a).addHead a (inodeHashfn nr)
    inodeNr := Function.update c.inodeNr a nr
    inode := Function.update c.inode a inode }

theorem HashedFs.addInode_self (c : HashedFs A) (a : A) (nr : ℕ) (x : Inode) :
    (c.addInode a nr x).inodeNr a = nr ∧ (c.addInode a nr x).inode a = x :=
  ⟨Function.update_self .., Function.update_self ..⟩

theorem HashedFs.addInode_of_ne (hba : b ≠ a) (nr : ℕ) (x : Inode) :
    (c.addInode a nr x).inodeNr b = c.inodeNr b ∧ (c.addInode a nr x).inode b = c.inode b :=
  ⟨Function.update_of_ne hba .., Function.update_of_ne hba ..⟩

/-- A new inode with a number that is not in the map. -/
theorem Tabled.insert (ht : Tabled lists c s) (hnew : ∀ h, a ∉ lists h)
    (hnone : ∀ h, ∀ b ∈ lists h, c.inodeNr b ≠ nr) (x : Inode) :
    Tabled (Function.update lists (inodeHashfn nr) (a :: lists (inodeHashfn nr)))
      (c.addInode a nr x) (s.setInode nr (some x)) := by
  have hmem : ∀ h b, b ∈ Function.update lists (inodeHashfn nr) (a :: lists (inodeHashfn nr)) h ↔
      b ∈ lists h ∨ h = inodeHashfn nr ∧ b = a := by
    intro h b
    by_cases hh : h = inodeHashfn nr
    · rw [hh, Function.update_self, List.mem_cons]
      simp [or_comm]
    · rw [Function.update_of_ne hh]
      simp [hh]
  obtain ⟨hnrNew, hxNew⟩ := c.addInode_self a nr x
  have hkept : ∀ {h b}, b ∈ lists h → (c.addInode a nr x).inodeNr b = c.inodeNr b ∧
      (c.addInode a nr x).inode b = c.inode b :=
    fun hb ↦ HashedFs.addInode_of_ne (fun heq ↦ hnew _ (heq ▸ hb)) nr x
  refine ⟨(ht.holds.initNode hnew).addHead hnew _, fun h b hb ↦ ?_, fun h b hb d hd hnr ↦ ?_,
    fun i inode ↦ ?_, ht.rest⟩
  · rcases (hmem h b).mp hb with hbl | ⟨hh, hba⟩
    · rw [(hkept hbl).1]
      exact ht.bucket h b hbl
    · rw [hba, hnrNew, hh]
  · rcases (hmem h b).mp hb with hbl | ⟨-, hba⟩
    · rcases (hmem h d).mp hd with hdl | ⟨-, hda⟩
      · rw [(hkept hbl).1, (hkept hdl).1] at hnr
        exact ht.distinct h b hbl d hdl hnr
      · rw [(hkept hbl).1, hda, hnrNew] at hnr
        exact absurd hnr (hnone h b hbl)
    · rcases (hmem h d).mp hd with hdl | ⟨-, hda⟩
      · rw [(hkept hdl).1, hba, hnrNew] at hnr
        exact absurd hnr.symm (hnone h d hdl)
      · rw [hba, hda]
  · by_cases hi : i = nr
    · subst hi
      rw [inodeHashTable_setInode_self, Option.some.injEq]
      constructor
      · rintro rfl
        exact ⟨_, a, (hmem _ a).mpr (Or.inr ⟨rfl, rfl⟩), hnrNew, hxNew⟩
      · rintro ⟨h, b, hb, hnr, hx⟩
        rcases (hmem h b).mp hb with hbl | ⟨-, hba⟩
        · exact absurd ((hkept hbl).1.symm.trans hnr) (hnone h b hbl)
        · rw [hba] at hx
          exact hxNew.symm.trans hx
    · rw [inodeHashTable_setInode_of_ne _ _ hi, ht.table]
      constructor
      · rintro ⟨h, b, hb, hnr, hx⟩
        exact ⟨h, b, (hmem h b).mpr (Or.inl hb), (hkept hb).1.trans hnr, (hkept hb).2.trans hx⟩
      · rintro ⟨h, b, hb, hnr, hx⟩
        rcases (hmem h b).mp hb with hbl | ⟨-, hba⟩
        · exact ⟨h, b, hbl, (hkept hbl).1.symm.trans hnr, (hkept hbl).2.symm.trans hx⟩
        · rw [hba] at hnr
          exact absurd (hnr.symm.trans hnrNew) hi

/-- An inode that is taken out of its list. -/
theorem Tabled.remove (ht : Tabled lists c s) (ha : a ∈ lists h) :
    ∃ heap lists', c.heap.del a = some heap ∧
      Tabled lists' { c with heap := heap } (s.setInode (c.inodeNr a) none) := by
  obtain ⟨l, r, hsplit⟩ := List.append_of_mem ha
  obtain ⟨heap, hdel, hholds, -⟩ := ht.holds.del hsplit
  have hnodup := ht.holds.nodup h
  rw [hsplit, List.nodup_middle, List.nodup_cons] at hnodup
  have hmem : ∀ h' b, b ∈ Function.update lists h (l ++ r) h' ↔ b ∈ lists h' ∧ b ≠ a := by
    intro h' b
    by_cases hh : h' = h
    · subst hh
      rw [Function.update_self, hsplit]
      constructor
      · refine fun hb ↦ ⟨?_, fun heq ↦ hnodup.1 (heq ▸ hb)⟩
        rw [List.mem_append, List.mem_cons]
        exact (List.mem_append.mp hb).imp_right Or.inr
      · rintro ⟨hb, hne⟩
        rw [List.mem_append, List.mem_cons] at hb
        rw [List.mem_append]
        exact hb.imp_right fun hor ↦ hor.resolve_left hne
    · rw [Function.update_of_ne hh]
      exact ⟨fun hb ↦ ⟨hb, fun heq ↦ hh (ht.holds.eq_of_mem hb (heq ▸ ha))⟩, And.left⟩
  refine ⟨heap, _, hdel, hholds, fun h' b hb ↦ ht.bucket h' b ((hmem h' b).mp hb).1,
    fun h' b hb d hd ↦ ht.distinct h' b ((hmem h' b).mp hb).1 d ((hmem h' d).mp hd).1,
    fun i inode ↦ ?_, ht.rest⟩
  by_cases hi : i = c.inodeNr a
  · subst hi
    rw [inodeHashTable_setInode_self]
    refine iff_of_false (by simp) ?_
    rintro ⟨h', b, hb, hnr, -⟩
    obtain ⟨hb, hne⟩ := (hmem h' b).mp hb
    exact hne (ht.eq_of_nr hb ha hnr)
  · rw [inodeHashTable_setInode_of_ne _ _ hi, ht.table]
    refine exists_congr fun h' ↦ exists_congr fun b ↦ ?_
    constructor
    · rintro ⟨hb, hnr, hx⟩
      exact ⟨(hmem h' b).mpr ⟨hb, fun heq ↦ hi (by rw [← hnr, heq])⟩, hnr, hx⟩
    · rintro ⟨hb, hnr, hx⟩
      exact ⟨((hmem h' b).mp hb).1, hnr, hx⟩

end Tabled

/-! ### Calls -/

/-- A call on the map. `assign` is any assignment to the fields of an in-memory inode, and `other`
is what may become of everything else. -/
inductive InodeCall
  | get (nr : ℕ)
  | put (nr : ℕ)
  | assign (nr : ℕ) (f : Inode → Inode)
  | other (t : FsState)

/-- The call in the model of the map. -/
def InodeCall.program : InodeCall → FsProgram Unit
  | .get nr => testfsGetInode nr
  | .put nr => testfsPutInode nr
  | .assign nr f => do
    let inode ← inodeRef nr
    storeInode nr (f inode)
  | .other t => Program.modify fun s ↦ { t with inodeHashTable := s.inodeHashTable }

/-- A call on pointers. The first has the turns of the walk and the pointer of `calloc`. -/
inductive PtrCall (A : Type)
  | get (turns : ℕ) (fresh : A) (nr : ℕ)
  | put (a : A)
  | assign (a : A) (f : Inode → Inode)
  | other (t : FsState)

/-- The call on the map that it stands for. -/
def PtrCall.call {A : Type} (c : HashedFs A) : PtrCall A → InodeCall
  | .get _ _ nr => .get nr
  | .put a => .put (c.inodeNr a)
  | .assign a f => .assign (c.inodeNr a) f
  | .other t => .other t

/-- `calloc` returns a pointer that is not in use, and other pointers are in use. -/
def PtrCall.Permitted {A : Type} (c : HashedFs A) : PtrCall A → Prop
  | .get _ fresh _ => ¬ c.InTable fresh
  | .put a => c.InTable a
  | .assign a _ => c.InTable a
  | .other _ => True

section Calls

variable {A : Type} {lists : Fin inodeHashSize → List A} {c c' : HashedFs A} {s : FsState} {a : A}
  {nr turns : ℕ}

/-- Reading an inode block neither changes the state nor uses the map. -/
theorem testfsReadInodeBlock_cases (nr : ℕ) (s : FsState) :
    (∃ e, ∀ table, (testfsReadInodeBlock nr).run { s with inodeHashTable := table } = .error e) ∨
    ∃ block, ∀ table, (testfsReadInodeBlock nr).run { s with inodeHashTable := table } =
      .ok (block, { s with inodeHashTable := table }) := by
  by_cases hlt : nr / inodesPerBlock < nrInodeBlocks
  swap
  · refine Or.inl ⟨.assertion, fun table ↦ ?_⟩
    have hfails : (testfsInodeToBlockNr nr).run { s with inodeHashTable := table } =
        .error .assertion := by
      rw [testfsInodeToBlockNr, Program.check_bind_fails hlt]
    rw [testfsReadInodeBlock, Program.gets_bind_run, Program.run_bind_error hfails]
  have hblockNr : ∀ table, (testfsInodeToBlockNr nr).run { s with inodeHashTable := table } =
      .ok (nr / inodesPerBlock, { s with inodeHashTable := table }) := fun table ↦ by
    rw [testfsInodeToBlockNr, Program.check_bind_run hlt, Program.pure_run]
  have hstart : (0 : ℤ) ≤ s.sb.inodeBlocksStart + (nr / inodesPerBlock : ℕ) := by positivity
  by_cases hlen : (s.sb.inodeBlocksStart + (nr / inodesPerBlock : ℕ) : ℤ).toNat < s.dev.len
  · refine Or.inr ⟨s.dev.blocks (s.sb.inodeBlocksStart + (nr / inodesPerBlock : ℕ) : ℤ).toNat,
      fun table ↦ ?_⟩
    rw [testfsReadInodeBlock, Program.gets_bind_run, Program.run_bind (hblockNr table)]
    exact readBlock_run hstart hlen
  · refine Or.inl ⟨.exit, fun table ↦ ?_⟩
    rw [testfsReadInodeBlock, Program.gets_bind_run, Program.run_bind (hblockNr table)]
    exact readBlock_fails hstart hlen

theorem onFs_run {α : Type} {m : FsProgram α} {x : α} (h : m.run c.fs = .ok (x, c.fs)) :
    (onFs m).run c = .ok (x, c) := by
  change (match m.run c.fs with
    | .ok (a, fs) => Except.ok (a, { c with fs := fs })
    | .error e => .error e) = _
  rw [h]

theorem onFs_fails {α : Type} {m : FsProgram α} {e : Halt} (h : m.run c.fs = .error e) :
    (onFs m).run c = .error e := by
  change (match m.run c.fs with
    | .ok (a, fs) => Except.ok (a, { c with fs := fs })
    | .error e => .error e) = _
  rw [h]

/-- `inode_hash_find` of a number in the map. -/
theorem Tabled.inodeHashFind_run (ht : Tabled lists c s) {found : Option A}
    (hrun : (inodeHashFind turns nr).run c = .ok (found, c')) :
    c' = c ∧ found = (lists (inodeHashfn nr)).find? (fun a ↦ c.inodeNr a = nr) := by
  rw [inodeHashFind, Program.get_bind_run] at hrun
  cases hwalk : c.heap.find (fun a ↦ decide (c.inodeNr a = nr)) turns
      (c.heap.first (inodeHashfn nr)) with
  | none =>
    rw [hwalk] at hrun
    cases hrun
  | some found' =>
    rw [hwalk] at hrun
    obtain ⟨rfl, rfl⟩ := Prod.mk.inj (Except.ok.inj hrun)
    exact ⟨rfl, (ht.holds (inodeHashfn nr)).find_eq hwalk⟩

variable [DecidableEq A]

/-- The call on pointers, with the pointer that `testfs_get_inode` returns. -/
def PtrCall.program : PtrCall A → HashedProgram A (Option A)
  | .get turns fresh nr => do
    let a ← testfsGetInodePtr turns fresh nr
    pure (some a)
  | .put a => do
    testfsPutInodePtr a
    pure none
  | .assign a f => do
    assignInode a f
    pure none
  | .other t => do
    Program.modify fun c ↦ { c with fs := { t with inodeHashTable := c.fs.inodeHashTable } }
    pure none

/-- What a call returns: `testfs_get_inode` the pointer that the table has for the number. -/
def PtrCall.Returns (c : HashedFs A) : PtrCall A → Option A → Prop
  | .get _ _ nr, ptr => ∃ a, ptr = some a ∧ c.InTable a ∧ c.inodeNr a = nr
  | .put _, ptr | .assign _ _, ptr | .other _, ptr => ptr = none

/-- The call does the same on pointers as on the map: both end the process with the same error, or
both return and the map is again what the lists hold. -/
def Alike (op : PtrCall A) (m' : FsProgram Unit) (c : HashedFs A) (s : FsState) : Prop :=
  (∃ e, op.program.run c = .error e ∧ m'.run s = .error e) ∨
  ∃ ptr c' lists' s', op.program.run c = .ok (ptr, c') ∧ m'.run s = .ok ((), s') ∧
    Tabled lists' c' s' ∧ op.Returns c' ptr

/-- The in-memory inode that is made for the block of its number. -/
theorem newInodePtr_run {fresh : A} {block : Block} {x : Inode}
    (hx : x = ⟨decodeDinode fun j ↦ block.byte (testfsInodeToBlockOffset nr + j), false, 1⟩)
    (hread : (testfsReadInodeBlock nr).run c.fs = .ok (block, c.fs)) :
    (newInodePtr fresh nr).run c = .ok (fresh, c.addInode fresh nr x) := by
  obtain ⟨c₁, hc₁⟩ : ∃ c₁ : HashedFs A, c₁ =
      { c with inodeNr := Function.update c.inodeNr fresh nr }.setInode fresh
        ⟨Dinode.zero, false, 1⟩ := ⟨_, rfl⟩
  have hcall : (onFs (testfsReadInodeBlock nr)).run c₁ = .ok (block, c₁) := by
    refine onFs_run ?_
    have hfs : c₁.fs = c.fs := by rw [hc₁]; rfl
    rw [hfs]
    exact hread
  have hinode : c₁.inode fresh = ⟨Dinode.zero, false, 1⟩ := by
    rw [hc₁, HashedFs.inode_setInode_self]
  have hnr : c₁.inodeNr fresh = nr := by
    rw [hc₁, HashedFs.inodeNr_setInode]
    exact Function.update_self ..
  have hassign : ∀ f : Inode → Inode, f ⟨Dinode.zero, false, 1⟩ = x →
      (assignInode fresh f).run c₁ = .ok ((), c₁.setInode fresh x) := by
    rintro f rfl
    rw [assignInode, Program.modify_run, hinode]
  have hinsert : (inodeHashInsert fresh).run (c₁.setInode fresh x) =
      .ok ((), c.addInode fresh nr x) := by
    rw [inodeHashInsert, Program.modify_run, HashedFs.inodeNr_setInode, hnr,
      HashedFs.heap_setInode, hc₁, HashedFs.heap_setInode, HashedFs.addInode, HashedFs.setInode,
      HashedFs.setInode, Function.update_idem]
  rw [newInodePtr, Program.modify_bind_run, ← hc₁, Program.run_bind hcall]
  exact (Program.run_bind (hassign _ hx.symm)).trans (Program.run_bind hinsert)

/-- If the block cannot be read, the process ends. -/
theorem newInodePtr_fails {fresh : A} {e : Halt}
    (hread : (testfsReadInodeBlock nr).run c.fs = .error e) :
    (newInodePtr fresh nr).run c = .error e := by
  rw [newInodePtr, Program.modify_bind_run]
  exact Program.run_bind_error (onFs_fails hread)

/-- `testfs_get_inode`, if the walk along the list ends. -/
theorem Tabled.get (ht : Tabled lists c s) {fresh : A} (hfresh : ∀ h, fresh ∉ lists h)
    {found : Option A} (hfind : (inodeHashFind turns nr).run c = .ok (found, c')) :
    Alike (.get turns fresh nr) (testfsGetInode nr) c s := by
  obtain ⟨rfl, rfl⟩ := ht.inodeHashFind_run hfind
  rcases ht.find nr with ⟨a, ha, hnr, hsome, htable⟩ | ⟨hnone, hfound, htable⟩
  · rw [hsome] at hfind
    have hdone := ht.assign ha { c'.inode a with iCount := (c'.inode a).iCount + 1 }
    rw [hnr] at hdone
    refine Or.inr ⟨some a, _, lists, _, ?_, ?_, hdone, a, rfl, ?_, hnr⟩
    · rw [PtrCall.program, testfsGetInodePtr]
      exact Program.run_bind (Program.run_bind hfind)
    · rw [testfsGetInode, Program.gets_bind_run, htable]
      rfl
    · exact hdone.inTable_iff.mpr ⟨_, ha⟩
  rw [hfound] at hfind
  rcases testfsReadInodeBlock_cases nr s with ⟨e, hread⟩ | ⟨block, hread⟩
  · have hnew : (newInodePtr fresh nr).run c' = .error e :=
      newInodePtr_fails (by rw [ht.rest]; exact hread _)
    refine Or.inl ⟨e, ?_, ?_⟩
    · rw [PtrCall.program, testfsGetInodePtr]
      exact Program.run_bind_error ((Program.run_bind hfind).trans hnew)
    · rw [testfsGetInode, Program.gets_bind_run, htable]
      exact Program.run_bind_error (hread s.inodeHashTable)
  · obtain ⟨x, hx⟩ : ∃ x : Inode, x = ⟨decodeDinode fun j ↦
      block.byte (testfsInodeToBlockOffset nr + j), false, 1⟩ := ⟨_, rfl⟩
    have hnew : (newInodePtr fresh nr).run c' = .ok (fresh, c'.addInode fresh nr x) :=
      newInodePtr_run hx (by rw [ht.rest]; exact hread _)
    have hdone := ht.insert hfresh hnone x
    refine Or.inr ⟨some fresh, _, _, s.setInode nr (some x), ?_, ?_, hdone, fresh, rfl, ?_,
      (c'.addInode_self fresh nr x).1⟩
    · rw [PtrCall.program, testfsGetInodePtr]
      exact Program.run_bind ((Program.run_bind hfind).trans hnew)
    · rw [testfsGetInode, Program.gets_bind_run, htable, hx]
      exact Program.run_bind (hread s.inodeHashTable)
    · refine hdone.inTable_iff.mpr ⟨inodeHashfn nr, ?_⟩
      rw [Function.update_self]
      exact List.mem_cons_self

/-- `testfs_put_inode`. The pointers that `hlist_del` follows are there. -/
theorem Tabled.put (ht : Tabled lists c s) {h : Fin inodeHashSize} (ha : a ∈ lists h) :
    Alike (.put a) (testfsPutInode (c.inodeNr a)) c s := by
  have htable := ht.table_of_mem ha
  by_cases hclean : (c.inode a).dirty = false
  swap
  · refine Or.inl ⟨.assertion, ?_, ?_⟩
    · rw [PtrCall.program, testfsPutInodePtr]
      exact Program.run_bind_error (Program.check_bind_fails hclean ..)
    · rw [testfsPutInode, Program.run_bind (inodeRef_run htable), Program.check_bind_fails hclean]
  have hassigned := ht.assign ha { c.inode a with iCount := (c.inode a).iCount - 1 }
  have hput := testfsPutInode_run htable hclean
  by_cases hlast : (c.inode a).iCount - 1 = 0
  · obtain ⟨heap, lists', hdel, hremoved⟩ := hassigned.remove ha
    rw [if_pos hlast] at hput
    rw [HashedFs.inodeNr_setInode, setInode_setInode] at hremoved
    have hrun : (testfsPutInodePtr a).run c = .ok ((),
        { c.setInode a { c.inode a with iCount := (c.inode a).iCount - 1 } with heap :=
          heap }) := by
      rw [testfsPutInodePtr, Program.get_bind_run, Program.check_bind_run hclean, assignInode,
        Program.modify_bind_run, if_pos hlast, inodeHashRemove, Program.get_bind_run, hdel]
      exact Program.modify_run ..
    exact Or.inr ⟨none, _, lists', _, Program.run_bind hrun, hput, hremoved, rfl⟩
  · rw [if_neg hlast] at hput
    have hrun : (testfsPutInodePtr a).run c = .ok ((),
        c.setInode a { c.inode a with iCount := (c.inode a).iCount - 1 }) := by
      rw [testfsPutInodePtr, Program.get_bind_run, Program.check_bind_run hclean, assignInode,
        Program.modify_bind_run, if_neg hlast, Program.pure_run]
    exact Or.inr ⟨none, _, lists, _, Program.run_bind hrun, hput, hassigned, rfl⟩

/-- The walk along the list ends, if there is one. -/
def PtrCall.Ends (c : HashedFs A) : PtrCall A → Prop
  | .get turns _ nr => ∃ result, (inodeHashFind turns nr).run c = .ok result
  | _ => True

/-- Every call on pointers does on the map what the call on numbers does. -/
theorem Tabled.alike (ht : Tabled lists c s) {op : PtrCall A} (hop : op.Permitted c)
    (hends : op.Ends c) : Alike op (op.call c).program c s := by
  cases op with
  | get turns fresh nr =>
    obtain ⟨⟨found, c'⟩, hfind⟩ := hends
    exact ht.get (fun h hmem ↦ hop (ht.inTable_iff.mpr ⟨h, hmem⟩)) hfind
  | put a =>
    obtain ⟨h, ha⟩ := ht.inTable_iff.mp hop
    exact ht.put ha
  | assign a f =>
    obtain ⟨h, ha⟩ := ht.inTable_iff.mp hop
    exact Or.inr ⟨none, _, lists, _, rfl,
      Program.run_bind (inodeRef_run (ht.table_of_mem ha)), ht.assign ha _, rfl⟩
  | other t => exact Or.inr ⟨none, _, lists, _, rfl, rfl, ⟨ht.holds, ht.bucket, ht.distinct,
      ht.table, rfl⟩, rfl⟩

/-- A call that returns has ended its walk. -/
theorem PtrCall.ends_of_run {op : PtrCall A} {ptr : Option A}
    (hrun : op.program.run c = .ok (ptr, c')) : op.Ends c := by
  cases op with
  | get turns fresh nr =>
    obtain ⟨a, c₁, hget, -⟩ := Program.bind_eq_ok_iff.mp hrun
    obtain ⟨found, c₂, hfind, -⟩ := Program.bind_eq_ok_iff.mp hget
    exact ⟨_, hfind⟩
  | put a => trivial
  | assign a f => trivial
  | other t => trivial

/-! ### Runs -/

/-- A call on pointers that returns. -/
def HashedFs.step (c : HashedFs A) (op : PtrCall A) : Option (HashedFs A) :=
  (op.program.run c).toOption.map Prod.snd

/-- A call on the map that returns. -/
def FsState.callStep (s : FsState) (op : InodeCall) : Option FsState :=
  (op.program.run s).toOption.map Prod.snd

/-- Calls on pointers, one after the other, each permitted where it is made and returning. The list
has the calls on the map that they stand for, in the same order. -/
inductive PtrRun (c : HashedFs A) : List InodeCall → HashedFs A → Prop
  | nil : PtrRun c [] c
  | snoc {calls : List InodeCall} {c₁ c₂ : HashedFs A} {op : PtrCall A} (hrun : PtrRun c calls c₁)
    (hop : op.Permitted c₁) (hstep : c₁.step op = some c₂) :
    PtrRun c (calls ++ [op.call c₁]) c₂

omit [DecidableEq A] in
/-- The walk along the list of a number ends, and finds what the map has. -/
theorem Tabled.find_run (ht : Tabled lists c s) (nr : ℕ) :
    ∃ bound, ∀ turns ≥ bound, ∃ found, (inodeHashFind turns nr).run c = .ok (found, c) ∧
      s.inodeHashTable nr = found.map c.inode ∧ ∀ a ∈ found, c.inodeNr a = nr := by
  refine ⟨(lists (inodeHashfn nr)).length, fun turns hturns ↦ ?_⟩
  have hwalk := (ht.holds (inodeHashfn nr)).find (fun a ↦ decide (c.inodeNr a = nr)) hturns
  have hrun : (inodeHashFind turns nr).run c =
      .ok ((lists (inodeHashfn nr)).find? (fun a ↦ c.inodeNr a = nr), c) := by
    have hfirst : c.heap.read (.first (inodeHashfn nr)) = c.heap.first (inodeHashfn nr) := rfl
    rw [inodeHashFind, Program.get_bind_run, ← hfirst, hwalk]
    rfl
  refine ⟨_, hrun, ?_⟩
  rcases ht.find nr with ⟨a, -, hnr, hsome, htable⟩ | ⟨-, hnone, htable⟩
  · rw [hsome, htable]
    refine ⟨rfl, fun b hb ↦ ?_⟩
    obtain rfl := Option.some.inj hb
    exact hnr
  · rw [hnone, htable]
    exact ⟨rfl, fun b hb ↦ by cases hb⟩

omit [DecidableEq A] in
/-- The lists are empty exactly if the map is. -/
theorem Tabled.destroy_iff (ht : Tabled lists c s) :
    inodeHashDestroy.run c = .ok ((), c) ↔ ∀ i, s.inodeHashTable i = none := by
  rw [inodeHashDestroy, Program.get_bind_run, Program.check_eq_ok_iff]
  constructor
  · rintro ⟨hempty, -⟩ i
    cases htable : s.inodeHashTable i with
    | none => rfl
    | some inode =>
      obtain ⟨h, a, ha, -⟩ := (ht.table i inode).mp htable
      have hchain := ht.holds h
      cases hlist : lists h with
      | nil =>
        rw [hlist] at ha
        cases ha
      | cons b l =>
        rw [hlist] at hchain
        have hfirst : c.heap.first h = some b := hchain.1
        have hnone := hempty h
        rw [hfirst] at hnone
        exact absurd hnone Bool.false_ne_true
  · refine fun hempty ↦ ⟨fun h ↦ ?_, rfl⟩
    cases hfirst : c.heap.first h with
    | none => rfl
    | some a =>
      have ha := (ht.holds h).mem_of_read hfirst
      have htable := ht.table_of_mem ha
      rw [hempty] at htable
      exact absurd htable (by simp)

omit [DecidableEq A] in
/-- The table is the map of `s`. A number is found exactly if it is in the map, with its inode, and
the walk to it ends; the lists have one pointer for each number; and `inode_hash_destroy` returns
exactly if the map is empty. -/
structure IsMap (c : HashedFs A) (s : FsState) : Prop where
  rest : c.fs = { s with inodeHashTable := c.fs.inodeHashTable }
  find : ∀ nr, ∃ bound, ∀ turns ≥ bound, ∃ found, (inodeHashFind turns nr).run c = .ok (found, c) ∧
    s.inodeHashTable nr = found.map c.inode ∧ ∀ a ∈ found, c.inodeNr a = nr
  unique : ∀ a b, c.Linked a → c.Linked b → c.inodeNr a = c.inodeNr b → a = b
  destroy : inodeHashDestroy.run c = .ok ((), c) ↔ ∀ i, s.inodeHashTable i = none

omit [DecidableEq A] in
theorem Tabled.isMap (ht : Tabled lists c s) : IsMap c s :=
  ⟨ht.rest, ht.find_run, fun _ _ ↦ ht.eq_of_linked, ht.destroy_iff⟩

/-- The same calls on the map lead to what the lists hold. -/
theorem Tabled.run {c₁ : HashedFs A} {s₁ : FsState} (ht : Tabled lists c₁ s₁)
    {calls : List InodeCall} (hrun : PtrRun c₁ calls c) :
    ∃ lists' s, calls.foldlM FsState.callStep s₁ = some s ∧ Tabled lists' c s := by
  induction hrun with
  | nil => exact ⟨lists, s₁, rfl, ht⟩
  | @snoc calls c₂ c₃ op hrun hop hstep ih =>
    obtain ⟨lists', s, hcalls, ht'⟩ := ih
    obtain ⟨⟨ptr, c₄⟩, hcall, rfl⟩ := Option.map_eq_some_iff.mp hstep
    have hop' : op.program.run c₂ = .ok (ptr, c₄) := by
      cases hcase : op.program.run c₂ with
      | error e => rw [hcase] at hcall; cases hcall
      | ok result => rw [hcase] at hcall; rw [Option.some.inj hcall]
    rcases ht'.alike hop (PtrCall.ends_of_run hop') with
      ⟨e, herror, -⟩ | ⟨ptr', c₅, lists'', s', hok, hmap, hdone, -⟩
    · rw [hop'] at herror
      cases herror
    · obtain ⟨-, rfl⟩ := Prod.mk.inj (Except.ok.inj (hok.symm.trans hop'))
      refine ⟨lists'', s', ?_, hdone⟩
      rw [List.foldlM_append, hcalls, Option.bind_eq_bind, Option.bind_some, List.foldlM_cons,
        FsState.callStep, hmap]
      rfl

/-- Assumes: a table that `inode_hash_init` has made, and any calls in which `calloc` returns
pointers that are not in use, and pointers that are used are in the table. Then the same calls on
numbers, in the same order, lead the map to what the table is; and every next call whose walk ends
ends the process with the same error as on the map, or returns as on the map, with the pointer of
the number, and leaves the table the map again. -/
theorem inode_hash_refines {c₀ c₁ : HashedFs A} {calls : List InodeCall}
    (hinit : inodeHashInit.run c₀ = .ok ((), c₁)) (hrun : PtrRun c₁ calls c) :
    ∃ s, calls.foldlM FsState.callStep { c₀.fs with inodeHashTable := fun _ ↦ none } = some s ∧
      IsMap c s ∧ ∀ op : PtrCall A, op.Permitted c → op.Ends c →
        (∃ e, op.program.run c = .error e ∧ (op.call c).program.run s = .error e) ∨
        ∃ ptr c' s', op.program.run c = .ok (ptr, c') ∧ (op.call c).program.run s = .ok ((), s') ∧
          IsMap c' s' ∧ op.Returns c' ptr := by
  obtain ⟨-, rfl⟩ := Prod.mk.inj (Except.ok.inj hinit)
  have hempty : Tabled (fun _ ↦ []) { c₀ with heap.first := fun _ ↦ none }
      { c₀.fs with inodeHashTable := fun _ ↦ none } :=
    ⟨fun _ ↦ rfl, fun h a ha ↦ absurd ha List.not_mem_nil,
      fun h a ha ↦ absurd ha List.not_mem_nil, fun i inode ↦ iff_of_false (by simp) (by simp), rfl⟩
  obtain ⟨lists, s, hcalls, ht⟩ := hempty.run hrun
  refine ⟨s, hcalls, ht.isMap, fun op hop hends ↦ ?_⟩
  rcases ht.alike hop hends with herror | ⟨ptr, c', lists', s', hptr, hmap, ht', hreturns⟩
  · exact .inl herror
  · exact .inr ⟨ptr, c', s', hptr, hmap, ht'.isMap, hreturns⟩

end Calls

/-- A file system of empty inode blocks, with no in-memory inode. -/
def blankHashed : HashedFs ℕ where
  fs := { testfsMakeSuperBlock 1 with dev := ⟨firstDataBlock, fun _ ↦ Block.zero⟩ }
  heap := ⟨fun _ ↦ none, fun _ ↦ none, fun _ ↦ none⟩
  inodeNr := fun _ ↦ 0
  inode := fun _ ↦ ⟨Dinode.zero, false, 0⟩

/-- The root is fetched, at the pointer 7, and put back, and the map is empty again. -/
theorem inode_hash_refines_get_put : ∃ c s, PtrRun blankHashed [.get 0, .put 0] c ∧
    [InodeCall.get 0, .put 0].foldlM FsState.callStep
      { blankHashed.fs with inodeHashTable := fun _ ↦ none } = some s ∧ IsMap c s ∧
        ∀ i, s.inodeHashTable i = none := by
  have hfresh : PtrCall.Permitted blankHashed (.get 0 7 0) := by
    rintro ⟨turns, hwalk⟩
    cases turns <;> cases hwalk
  obtain ⟨x, hx⟩ : ∃ x : Inode, x =
      ⟨decodeDinode fun j ↦ Block.zero.byte (testfsInodeToBlockOffset 0 + j), false, 1⟩ := ⟨_, rfl⟩
  have hget : blankHashed.step (.get 0 7 0) = some (blankHashed.addInode 7 0 x) := by
    have hlen : (blankHashed.fs.sb.inodeBlocksStart + (0 : ℕ) : ℤ).toNat <
        blankHashed.fs.dev.len := by
      decide
    have hnr : (testfsInodeToBlockNr 0).run blankHashed.fs = .ok (0, blankHashed.fs) := by
      rw [testfsInodeToBlockNr, Program.check_bind_run (by decide), Program.pure_run, Nat.zero_div]
    have hread : (testfsReadInodeBlock 0).run blankHashed.fs = .ok
        (Block.zero, blankHashed.fs) := by
      rw [testfsReadInodeBlock, Program.gets_bind_run, Program.run_bind hnr]
      exact readBlock_run (by decide) hlen
    have hfind : (inodeHashFind 0 0).run blankHashed = .ok (none, blankHashed) := rfl
    have hcall : (testfsGetInodePtr 0 7 0).run blankHashed =
        .ok (7, blankHashed.addInode 7 0 x) :=
      (Program.run_bind hfind).trans (newInodePtr_run hx hread)
    have hrun : (PtrCall.program (.get 0 7 0)).run blankHashed =
        .ok (some 7, blankHashed.addInode 7 0 x) :=
      Program.run_bind hcall
    rw [HashedFs.step, hrun]
    rfl
  have hin : PtrCall.Permitted (blankHashed.addInode 7 0 x) (.put 7) := by
    refine ⟨1, ?_⟩
    subst hx
    decide +kernel
  obtain ⟨c, hput, hempty⟩ : ∃ c, (blankHashed.addInode 7 0 x).step (.put 7) = some c ∧
      inodeHashDestroy.run c = .ok ((), c) := by
    subst hx
    refine ⟨_, rfl, ?_⟩
    rw [inodeHashDestroy, Program.get_bind_run, Program.check_eq_ok_iff]
    exact ⟨by decide +kernel, rfl⟩
  have hinit : inodeHashInit.run blankHashed = .ok ((), blankHashed) := rfl
  have hrun : PtrRun blankHashed [.get 0, .put 0] c := (PtrRun.nil.snoc hfresh hget).snoc hin hput
  obtain ⟨s, hcalls, hmap, -⟩ := inode_hash_refines hinit hrun
  exact ⟨c, s, hrun, hcalls, hmap, hmap.destroy.mp hempty⟩

end OperatingSystems.Fs
