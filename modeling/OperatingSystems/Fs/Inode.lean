import OperatingSystems.Fs.Super

/-!
# In-memory inodes: `inode.c`

An in-memory inode is found by its number in the hash table and is reference counted. A pointer
to an inode is modelled by the number of the inode: the hash table holds at most one in-memory
inode for a number, and using an inode that has left the table is an access to freed memory.

`testfs_remove_inode` frees the blocks of the inode first and is with `testfs_free_blocks` in
`ReadWrite`.
-/

set_option autoImplicit false
set_option relaxedAutoImplicit false

namespace OperatingSystems.Fs

open Library

/-! ### Disk inodes as bytes -/

/-- The `k`th `s32` of a dinode. -/
def Dinode.int (d : Dinode) (k : ℕ) : ℤ :=
  if k = 0 then d.iType
  else if h : k - 1 < nrDirectBlocks then d.iBlockNr ⟨k - 1, h⟩
  else if k = 11 then d.iIndirect
  else if k = 12 then d.iDindirect
  else d.blockCount

/-- The bytes of a dinode: fourteen `s32` and the `off_t` of the size. -/
def encodeDinode (d : Dinode) (j : ℕ) : UInt8 :=
  if j < 56 then leByte (toUnsigned 4 (d.int (j / 4))) (j % 4)
  else leByte (toUnsigned 8 d.iSize) (j - 56)

/-- The dinode stored in the given bytes. -/
def decodeDinode (bytes : ℕ → UInt8) : Dinode where
  iType := toSigned 4 (wordAt 4 bytes 0)
  iBlockNr := fun i ↦ toSigned 4 (wordAt 4 bytes (i + 1))
  iIndirect := toSigned 4 (wordAt 4 bytes 11)
  iDindirect := toSigned 4 (wordAt 4 bytes 12)
  blockCount := toSigned 4 (wordAt 4 bytes 13)
  iSize := toSigned 8 (wordAt 8 bytes 7)

/-! ### The hash table -/

/-- The in-memory inode behind a pointer. -/
def inodeRef (i : ℕ) : FsProgram Inode := do
  let table ← Program.gets FsState.inodeHashTable
  match table i with
  | some inode => pure inode
  | none => Program.halt .undefined

/-- The state with one in-memory inode replaced. -/
def FsState.setInode (s : FsState) (i : ℕ) (inode : Option Inode) : FsState :=
  { s with inodeHashTable := Function.update s.inodeHashTable i inode }

/-- Store an in-memory inode. -/
def storeInode (i : ℕ) (inode : Inode) : FsProgram Unit :=
  Program.modify fun s ↦ s.setInode i (some inode)

/-- Assign to fields of the dinode of an in-memory inode. -/
def modifyDinode (i : ℕ) (f : Dinode → Dinode) : FsProgram Unit := do
  let inode ← inodeRef i
  storeInode i { inode with din := f inode.din }

/-- `in->i_flags |= I_FLAGS_DIRTY`. -/
def markDirty (i : ℕ) : FsProgram Unit := do
  let inode ← inodeRef i
  storeInode i { inode with dirty := true }

/-! ### Inode blocks -/

/-- `testfs_inode_to_block_nr`. -/
def testfsInodeToBlockNr (i : ℕ) : FsProgram ℕ := do
  Program.check (i / inodesPerBlock < nrInodeBlocks) .assertion
  pure (i / inodesPerBlock)

/-- `testfs_inode_to_block_offset`. -/
def testfsInodeToBlockOffset (i : ℕ) : ℕ := i % inodesPerBlock * dinodeSize

/-- `testfs_read_inode_block`. -/
def testfsReadInodeBlock (i : ℕ) : FsProgram Block := do
  let sb ← Program.gets FsState.sb
  let blockNr ← testfsInodeToBlockNr i
  readBlock (sb.inodeBlocksStart + blockNr)

/-- `testfs_write_inode_block`. -/
def testfsWriteInodeBlock (i : ℕ) (block : Block) : FsProgram Unit := do
  let sb ← Program.gets FsState.sb
  let blockNr ← testfsInodeToBlockNr i
  writeBlocks (fun _ ↦ block) (sb.inodeBlocksStart + blockNr) 1

/-! ### Fetching, synchronising and dropping -/

/-- `testfs_get_inode`. -/
def testfsGetInode (i : ℕ) : FsProgram Unit := do
  let table ← Program.gets FsState.inodeHashTable
  match table i with
  | some inode => storeInode i { inode with iCount := inode.iCount + 1 }
  | none => do
    let block ← testfsReadInodeBlock i
    let blockOffset := testfsInodeToBlockOffset i
    storeInode i ⟨decodeDinode fun j ↦ block.byte (blockOffset + j), false, 1⟩

/-- `testfs_sync_inode`. -/
def testfsSyncInode (i : ℕ) : FsProgram Unit := do
  let inode ← inodeRef i
  if inode.dirty = false then pure ()
  else do
    let block ← testfsReadInodeBlock i
    let blockOffset := testfsInodeToBlockOffset i
    testfsWriteInodeBlock i (block.copyIn blockOffset dinodeSize (encodeDinode inode.din))
    storeInode i { inode with dirty := false }

/-- `testfs_put_inode`. -/
def testfsPutInode (i : ℕ) : FsProgram Unit := do
  let inode ← inodeRef i
  Program.check (inode.dirty = false) .assertion
  if inode.iCount - 1 = 0 then Program.modify fun s ↦ s.setInode i none
  else storeInode i { inode with iCount := inode.iCount - 1 }

/-- `testfs_inode_get_type`. -/
def testfsInodeGetType (i : ℕ) : FsProgram ℤ := do
  let inode ← inodeRef i
  pure inode.din.iType

/-- `testfs_inode_get_size`. -/
def testfsInodeGetSize (i : ℕ) : FsProgram ℤ := do
  let inode ← inodeRef i
  pure inode.din.iSize

/-! ### Creating an inode and giving it blocks -/

/-- `testfs_create_inode`: the result and the number of the new inode. -/
def testfsCreateInode (type : InodeType) : FsProgram (ℤ × ℕ) := do
  let inodeNr ← testfsGetInodeFreemap
  if inodeNr < 0 then pure (inodeNr, 0)
  else if inodeNr.toNat / inodesPerBlock ≥ nrInodeBlocks then do
    testfsPutInodeFreemap inodeNr.toNat
    pure (-eNOSPC, 0)
  else do
    testfsGetInode inodeNr.toNat
    modifyDinode inodeNr.toNat fun d ↦ { d with iType := type.code }
    markDirty inodeNr.toNat
    pure (0, inodeNr.toNat)

/-- `testfs_alloc_block_for_inode`. -/
def testfsAllocBlockForInode (i : ℕ) : FsProgram ℤ := do
  let phyBlockNr ← testfsAllocBlock
  if phyBlockNr ≥ 0 then do
    modifyDinode i fun d ↦ { d with blockCount := d.blockCount + 1 }
    markDirty i
    pure phyBlockNr
  else pure phyBlockNr

/-- `testfs_free_block_from_inode`. -/
def testfsFreeBlockFromInode (i : ℕ) (phyBlockNr : ℤ) : FsProgram Unit := do
  if phyBlockNr = 0 then pure ()
  else do
    let _ ← testfsFreeBlock phyBlockNr
    modifyDinode i fun d ↦ { d with blockCount := d.blockCount - 1 }
    markDirty i

end OperatingSystems.Fs
