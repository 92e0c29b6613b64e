import OperatingSystems.Fs.Bitmap
import OperatingSystems.Library.Program

/-!
# The mounted file system: `block.c` and `super.c`

`FsState` is what a mounted file system holds: the device, the super block and the two bitmaps in
memory, and the in-memory inodes of the hash table of `inode.c`, keyed by inode number. The
device is a file: it has a length, in blocks, a read past its end ends the process, and a write
past its end extends it, with zeros between.

The allocation of blocks and inode numbers is written through: each change of a bitmap writes the
one block of the on-disk freemap that holds the changed bit, and then the super block.
-/

set_option autoImplicit false
set_option relaxedAutoImplicit false

namespace OperatingSystems.Fs

open Library

/-! ### The state -/

/-- The device file: its length in blocks and its contents, zero where never written. -/
structure Device where
  len : ℕ
  blocks : ℕ → Block

/-- `struct dsuper_block`. -/
structure DsuperBlock where
  inodeFreemapStart : ℕ
  blockFreemapStart : ℕ
  inodeBlocksStart : ℕ
  dataBlocksStart : ℕ
  usedInodeCount : ℕ
  usedBlockCount : ℕ
  maxFsBlocks : ℕ
  deriving DecidableEq

/-- `inode_type`. -/
inductive InodeType
  | none
  | file
  | dir
  deriving DecidableEq, Repr

/-- The value of an `inode_type` in the field `i_type`. -/
def InodeType.code : InodeType → ℤ
  | .none => 0
  | .file => 1
  | .dir => 2

/-- `struct dinode`. -/
@[ext] structure Dinode where
  iType : ℤ
  iBlockNr : Fin nrDirectBlocks → ℤ
  iIndirect : ℤ
  iDindirect : ℤ
  blockCount : ℤ
  iSize : ℤ
  deriving DecidableEq

/-- The dinode of `bzero`. -/
def Dinode.zero : Dinode := ⟨0, fun _ ↦ 0, 0, 0, 0, 0⟩

/-- `struct inode`: the disk inode, the dirty flag and the reference count. -/
structure Inode where
  din : Dinode
  dirty : Bool
  iCount : ℤ

/-- A mounted file system. `allocFailed` is not in the source: it records that a block allocation
has failed, and nothing reads it. -/
structure FsState where
  dev : Device
  sb : DsuperBlock
  inodeFreemap : Bitmap
  blockFreemap : Bitmap
  inodeHashTable : ℕ → Option Inode
  allocFailed : Bool

/-- The record of a failed block allocation. -/
def FsState.failAlloc (s : FsState) : FsState := { s with allocFailed := true }

/-- A function of the file system. -/
abbrev FsProgram (α : Type) : Type := Program FsState Halt α

/-! ### `block.c` -/

/-- The device after `nr` blocks were written from block `start` on. -/
def Device.write (dev : Device) (blocks : ℕ → Block) (start nr : ℕ) : Device where
  len := if nr = 0 then dev.len else max dev.len (start + nr)
  blocks := fun b ↦ if start ≤ b ∧ b < start + nr then blocks (b - start) else dev.blocks b

/-- `write_blocks`. -/
def writeBlocks (blocks : ℕ → Block) (start : ℤ) (nr : ℕ) : FsProgram Unit := do
  Program.check (0 ≤ start) .exit
  Program.modify fun s ↦ { s with dev := s.dev.write blocks start.toNat nr }

/-- `zero_blocks`. -/
def zeroBlocks (start : ℤ) : ℕ → FsProgram Unit
  | 0 => pure ()
  | nr + 1 => do
    zeroBlocks start nr
    writeBlocks (fun _ ↦ Block.zero) (start + nr) 1

/-- `read_blocks`. -/
def readBlocks (start : ℤ) (nr : ℕ) : FsProgram (ℕ → Block) := do
  let dev ← Program.gets FsState.dev
  Program.check (0 ≤ start) .exit
  Program.check (start.toNat + nr ≤ dev.len) .exit
  pure fun k ↦ dev.blocks (start.toNat + k)

/-- `read_blocks` of a single block. -/
def readBlock (start : ℤ) : FsProgram Block := do
  let blocks ← readBlocks start 1
  pure (blocks 0)

/-! ### The super block -/

/-- The `k`th `u32` of the super block. -/
def DsuperBlock.word (sb : DsuperBlock) : ℕ → ℕ
  | 0 => sb.inodeFreemapStart
  | 1 => sb.blockFreemapStart
  | 2 => sb.inodeBlocksStart
  | 3 => sb.dataBlocksStart
  | 4 => sb.usedInodeCount
  | 5 => sb.usedBlockCount
  | _ => 0

/-- The block of `testfs_write_super_block`: six `u32`, one `u64`, and zeros. -/
def encodeSuper (sb : DsuperBlock) : Block :=
  Block.ofBytes fun j ↦
    if j < 24 then leByte (sb.word (j / 4)) (j % 4)
    else if j < 32 then leByte sb.maxFsBlocks (j - 24)
    else 0

/-- The super block that `testfs_init_super_block` copies out of block 0. -/
def decodeSuper (b : Block) : DsuperBlock where
  inodeFreemapStart := wordAt 4 b.byte 0
  blockFreemapStart := wordAt 4 b.byte 1
  inodeBlocksStart := wordAt 4 b.byte 2
  dataBlocksStart := wordAt 4 b.byte 3
  usedInodeCount := wordAt 4 b.byte 4
  usedBlockCount := wordAt 4 b.byte 5
  maxFsBlocks := wordAt 8 b.byte 3

/-- `testfs_write_super_block`. -/
def testfsWriteSuperBlock : FsProgram Unit := do
  let sb ← Program.gets FsState.sb
  writeBlocks (fun _ ↦ encodeSuper sb) 0 1

/-- The blocks of the in-memory data of a bitmap. -/
def freemapBlock (b : Bitmap) (nr : ℕ) : Block := Block.ofBytes fun j ↦ b.v (nr * blockSize + j)

/-- `testfs_write_inode_freemap`. -/
def testfsWriteInodeFreemap (inodeNr : ℕ) : FsProgram Unit := do
  let s ← Program.get
  let nr := inodeNr / (blockSize * bitsPerWord)
  writeBlocks (fun _ ↦ freemapBlock s.inodeFreemap nr) (s.sb.inodeFreemapStart + nr) 1

/-- `testfs_write_block_freemap`. -/
def testfsWriteBlockFreemap (blockNr : ℕ) : FsProgram Unit := do
  let s ← Program.get
  let nr := blockNr / (blockSize * bitsPerWord)
  writeBlocks (fun _ ↦ freemapBlock s.blockFreemap nr) (s.sb.blockFreemapStart + nr) 1

/-- `testfs_get_block_freemap`. -/
def testfsGetBlockFreemap : FsProgram ℤ := do
  let s ← Program.get
  let ret ← Program.ofExcept (bitmapAlloc s.blockFreemap)
  match ret with
  | none => pure (-eNOSPC)
  | some (index, freemap) => do
    Program.modify fun s ↦ { s with blockFreemap := freemap }
    testfsWriteBlockFreemap index
    pure index

/-- `testfs_put_block_freemap`. -/
def testfsPutBlockFreemap (blockNr : ℕ) : FsProgram Unit := do
  let s ← Program.get
  let freemap ← Program.ofExcept (bitmapUnmark s.blockFreemap blockNr)
  Program.modify fun s ↦ { s with blockFreemap := freemap }
  testfsWriteBlockFreemap blockNr

/-- `testfs_get_inode_freemap`. -/
def testfsGetInodeFreemap : FsProgram ℤ := do
  let s ← Program.get
  let ret ← Program.ofExcept (bitmapAlloc s.inodeFreemap)
  match ret with
  | none => pure (-eNOSPC)
  | some (index, freemap) => do
    Program.modify fun s ↦ { s with inodeFreemap := freemap }
    testfsWriteInodeFreemap index
    Program.modify fun s ↦ { s with sb.usedInodeCount := s.sb.usedInodeCount + 1 }
    testfsWriteSuperBlock
    pure index

/-- `testfs_put_inode_freemap`. -/
def testfsPutInodeFreemap (inodeNr : ℕ) : FsProgram Unit := do
  let s ← Program.get
  let freemap ← Program.ofExcept (bitmapUnmark s.inodeFreemap inodeNr)
  Program.modify fun s ↦ { s with inodeFreemap := freemap }
  testfsWriteInodeFreemap inodeNr
  Program.check (0 < s.sb.usedInodeCount) .assertion
  Program.modify fun s ↦ { s with sb.usedInodeCount := s.sb.usedInodeCount - 1 }
  testfsWriteSuperBlock

/-- `testfs_alloc_block`. -/
def testfsAllocBlock : FsProgram ℤ := do
  let s ← Program.get
  if s.sb.usedBlockCount ≥ s.sb.maxFsBlocks then do
    Program.modify FsState.failAlloc
    pure (-eNOSPC)
  else do
    let phyBlockNr ← testfsGetBlockFreemap
    if phyBlockNr < 0 then do
      Program.modify FsState.failAlloc
      pure phyBlockNr
    else do
      Program.modify fun s ↦ { s with sb.usedBlockCount := s.sb.usedBlockCount + 1 }
      testfsWriteSuperBlock
      pure (s.sb.dataBlocksStart + phyBlockNr)

/-- `testfs_free_block`. -/
def testfsFreeBlock (blockNr : ℤ) : FsProgram ℤ := do
  zeroBlocks blockNr 1
  let s ← Program.get
  let nr := blockNr - s.sb.dataBlocksStart
  Program.check (0 ≤ nr) .assertion
  testfsPutBlockFreemap nr.toNat
  Program.check (0 < s.sb.usedBlockCount) .assertion
  Program.modify fun s ↦ { s with sb.usedBlockCount := s.sb.usedBlockCount - 1 }
  testfsWriteSuperBlock
  pure 0

/-! ### Making, mounting and closing -/

/-- `testfs_make_super_block` on an empty device, with no bitmap in memory yet. -/
def testfsMakeSuperBlock (maxFsBlocks : ℕ) : FsState where
  dev := ⟨0, fun _ ↦ Block.zero⟩
  sb :=
    { inodeFreemapStart := superBlockSize
      blockFreemapStart := superBlockSize + inodeFreemapSize
      inodeBlocksStart := superBlockSize + inodeFreemapSize + blockFreemapSize
      dataBlocksStart := superBlockSize + inodeFreemapSize + blockFreemapSize + nrInodeBlocks
      usedInodeCount := 0
      usedBlockCount := 0
      maxFsBlocks := maxFsBlocks }
  inodeFreemap := ⟨0, fun _ ↦ 0⟩
  blockFreemap := ⟨0, fun _ ↦ 0⟩
  inodeHashTable := fun _ ↦ none
  allocFailed := false

/-- The blocks `mktestfs` writes before it mounts the device: the super block, the two freemaps,
the inode blocks, and the super block again when it closes it. -/
def testfsMakeBlocks : FsProgram Unit := do
  testfsWriteSuperBlock
  let sb ← Program.gets FsState.sb
  zeroBlocks sb.inodeFreemapStart inodeFreemapSize
  zeroBlocks sb.blockFreemapStart blockFreemapSize
  zeroBlocks sb.inodeBlocksStart nrInodeBlocks
  testfsWriteSuperBlock

/-- The bitmap whose data is read from the blocks of a freemap. -/
def loadFreemap (nbits : ℕ) (blocks : ℕ → Block) : Bitmap where
  nbits := nbits
  v := fun i ↦ (blocks (i / blockSize)).byte (i % blockSize)

/-- `testfs_init_super_block`. The hash table is empty after `inode_hash_init`. -/
def testfsInitSuperBlock : FsProgram Unit := do
  let block ← readBlock 0
  let sb := decodeSuper block
  let inodeBlocks ← readBlocks sb.inodeFreemapStart inodeFreemapSize
  let freemapBlocks ← readBlocks sb.blockFreemapStart blockFreemapSize
  Program.modify fun s ↦
    { s with
      sb := sb
      inodeFreemap := loadFreemap (blockSize * inodeFreemapSize * bitsPerWord) inodeBlocks
      blockFreemap := loadFreemap (blockSize * blockFreemapSize * bitsPerWord) freemapBlocks
      inodeHashTable := fun _ ↦ none }

/-- `testfs_close_super_block`, whose `inode_hash_destroy` asserts that no inode is in memory. -/
def testfsCloseSuperBlock : FsProgram Unit := do
  testfsWriteSuperBlock
  let s ← Program.get
  Program.check (∀ i < nrInodes, (s.inodeHashTable i).isNone = true) .assertion
  writeBlocks (freemapBlock s.inodeFreemap) s.sb.inodeFreemapStart inodeFreemapSize
  writeBlocks (freemapBlock s.blockFreemap) s.sb.blockFreemapStart blockFreemapSize

end OperatingSystems.Fs
