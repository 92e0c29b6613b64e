import OperatingSystems.Fs.Inode

/-!
# Reading, writing and freeing the blocks of a file: `read_write.c`

A logical block number is decoded into a direct entry of the dinode, an entry of the indirect
block, or an entry of a second-level indirect block found through the double indirect block.
`testfs_read_block` and `testfs_allocate_block` decode it each on their own; the allocator
allocates up to three blocks and takes back what it allocated when a later one fails.

The buffers `block`, `indirect` and `dindirect` of the source are values passed along. The loops
`while (size > 0)` move at least one byte in a turn, so they are run with `size` as their bound.
-/

set_option autoImplicit false
set_option relaxedAutoImplicit false

namespace OperatingSystems.Fs

open Library

/-! ### Reading -/

/-- The decoding of a logical block number in `testfs_read_block`. -/
def physicalBlock (inode : Inode) (logBlockNr : ℕ) : FsProgram ℤ :=
  if h : logBlockNr < nrDirectBlocks then pure (inode.din.iBlockNr ⟨logBlockNr, h⟩)
  else if logBlockNr - nrDirectBlocks ≥ nrIndirectBlocks then
    let rest := logBlockNr - nrDirectBlocks - nrIndirectBlocks
    let idBlockNr := rest / nrIndirectBlocks
    if idBlockNr ≤ nrIndirectBlocks ∧ inode.din.iDindirect > 0 then do
      let dindirect ← readBlock inode.din.iDindirect
      let idBlock := dindirect.getInt idBlockNr
      if idBlock > 0 then do
        let indirect ← readBlock idBlock
        pure (indirect.getInt (rest % nrIndirectBlocks))
      else pure 0
    else pure 0
  else if inode.din.iIndirect > 0 then do
    let indirect ← readBlock inode.din.iIndirect
    pure (indirect.getInt (logBlockNr - nrDirectBlocks))
  else pure 0

/-- `testfs_read_block`: the physical block number and the buffer after the call. -/
def testfsReadBlock (i logBlockNr : ℕ) (block : Block) : FsProgram (ℤ × Block) := do
  if logBlockNr ≥ maxBlockNr then pure (-eFBIG, block)
  else do
    let inode ← inodeRef i
    let phyBlockNr ← physicalBlock inode logBlockNr
    if phyBlockNr > 0 then do
      let data ← readBlock phyBlockNr
      pure (phyBlockNr, data)
    else pure (phyBlockNr, Block.zero)

/-- The loop of `testfs_read_data`: the result, and the bytes stored in the buffer from `buf` on.
The first argument bounds the number of turns. -/
def readLoop (i : ℕ) : ℕ → ℕ → ℕ → ℕ → Block → List UInt8 → FsProgram (ℤ × List UInt8)
  | 0, _, _, _, _, buf => pure (toInt32 buf.length, buf)
  | turns + 1, blockNr, blockIx, size, block, buf =>
    if size > 0 then do
      let (ret, block) ← testfsReadBlock i blockNr block
      if ret < 0 then pure (ret, buf)
      else
        let sizeToRead := min (blockSize - blockIx) size
        readLoop i turns (blockNr + 1) 0 (size - sizeToRead) block
          (buf ++ block.copyOut blockIx sizeToRead)
    else pure (toInt32 buf.length, buf)

/-- `testfs_read_data`: the result and the bytes stored in the buffer. A negative `start` indexes
before the block or fails the assertion on the logical block number. -/
def testfsReadData (i : ℕ) (start : ℤ) (size : ℕ) : FsProgram (ℤ × List UInt8) := do
  if start ≥ maxFileSize then pure (-eFBIG, [])
  else do
    let inode ← inodeRef i
    let size :=
      if toOff (start + toOff size) > inode.din.iSize then toSize (inode.din.iSize - start)
      else size
    if size = 0 then pure (0, [])
    else do
      Program.check (0 ≤ start) .undefined
      readLoop i size (start.toNat / blockSize) (start.toNat % blockSize) size Block.zero []

/-! ### Allocating -/

/-- The end of both indirect branches of `testfs_allocate_block`: allocate the data block and
enter it in the indirect block `indirect`, which is at `idBlock` on disk. -/
def allocateInIndirect (i : ℕ) (indirect : Block) (entry : ℕ) (idBlock : ℤ) :
    FsProgram ℤ := do
  Program.check (indirect.getInt entry = 0) .assertion
  let phyBlockNr ← testfsAllocBlockForInode i
  if phyBlockNr ≥ 0 then do
    writeBlocks (fun _ ↦ indirect.setInt entry phyBlockNr) idBlock 1
    pure phyBlockNr
  else pure phyBlockNr

/-- Free the indirect block of an inode again. -/
def takeBackIndirect (i : ℕ) : FsProgram Unit := do
  let inode ← inodeRef i
  testfsFreeBlockFromInode i inode.din.iIndirect
  modifyDinode i fun d ↦ { d with iIndirect := 0 }

/-- Free the double indirect block of an inode again, when it was allocated in this call. -/
def takeBackDindirect (i : ℕ) (dindirectAllocated : Bool) : FsProgram Unit :=
  if dindirectAllocated then do
    let inode ← inodeRef i
    testfsFreeBlockFromInode i inode.din.iDindirect
    modifyDinode i fun d ↦ { d with iDindirect := 0 }
  else pure ()

/-- The double indirect branch of `testfs_allocate_block`, from the double indirect block in
`dindirect` on. -/
def allocateInDindirect (i : ℕ) (dindirect : Block) (dindirectAllocated : Bool)
    (idBlockNr entry : ℕ) : FsProgram ℤ := do
  let idBlock := dindirect.getInt idBlockNr
  if idBlock = 0 then do
    let idBlock ← testfsAllocBlockForInode i
    if idBlock < 0 then do
      takeBackDindirect i dindirectAllocated
      pure idBlock
    else do
      let phyBlockNr ← allocateInIndirect i Block.zero entry idBlock
      if phyBlockNr ≥ 0 then do
        let inode ← inodeRef i
        writeBlocks (fun _ ↦ dindirect.setInt idBlockNr idBlock) inode.din.iDindirect 1
        pure phyBlockNr
      else do
        testfsFreeBlockFromInode i idBlock
        takeBackDindirect i dindirectAllocated
        pure phyBlockNr
  else do
    let indirect ← readBlock idBlock
    allocateInIndirect i indirect entry idBlock

/-- The direct branch of `testfs_allocate_block`. -/
def allocateDirect (i : ℕ) (k : Fin nrDirectBlocks) : FsProgram ℤ := do
  let inode ← inodeRef i
  Program.check (inode.din.iBlockNr k = 0) .assertion
  let phyBlockNr ← testfsAllocBlockForInode i
  if phyBlockNr ≥ 0 then do
    modifyDinode i fun d ↦ { d with iBlockNr := Function.update d.iBlockNr k phyBlockNr }
    pure phyBlockNr
  else pure phyBlockNr

/-- The indirect branch of `testfs_allocate_block`. -/
def allocateIndirect (i entry : ℕ) : FsProgram ℤ := do
  let inode ← inodeRef i
  if inode.din.iIndirect = 0 then do
    let indirectNr ← testfsAllocBlockForInode i
    if indirectNr < 0 then pure indirectNr
    else do
      modifyDinode i fun d ↦ { d with iIndirect := indirectNr }
      let phyBlockNr ← allocateInIndirect i Block.zero entry indirectNr
      if phyBlockNr ≥ 0 then pure phyBlockNr
      else do
        takeBackIndirect i
        pure phyBlockNr
  else do
    let indirect ← readBlock inode.din.iIndirect
    allocateInIndirect i indirect entry inode.din.iIndirect

/-- The double indirect branch of `testfs_allocate_block`. -/
def allocateDindirect (i idBlockNr entry : ℕ) : FsProgram ℤ := do
  let inode ← inodeRef i
  if inode.din.iDindirect = 0 then do
    let dindirectNr ← testfsAllocBlockForInode i
    if dindirectNr < 0 then pure dindirectNr
    else do
      modifyDinode i fun d ↦ { d with iDindirect := dindirectNr }
      allocateInDindirect i Block.zero true idBlockNr entry
  else do
    let dindirect ← readBlock inode.din.iDindirect
    allocateInDindirect i dindirect false idBlockNr entry

/-- The decoding of a logical block number in `testfs_allocate_block`. -/
def allocateMissing (i logBlockNr : ℕ) : FsProgram ℤ :=
  if h : logBlockNr < nrDirectBlocks then allocateDirect i ⟨logBlockNr, h⟩
  else if logBlockNr - nrDirectBlocks ≥ nrIndirectBlocks then
    let rest := logBlockNr - nrDirectBlocks - nrIndirectBlocks
    allocateDindirect i (rest / nrIndirectBlocks) (rest % nrIndirectBlocks)
  else allocateIndirect i (logBlockNr - nrDirectBlocks)

/-- `testfs_allocate_block`: the physical block number and the buffer after the call. -/
def testfsAllocateBlock (i logBlockNr : ℕ) (block : Block) : FsProgram (ℤ × Block) := do
  if logBlockNr ≥ maxBlockNr then pure (-eFBIG, block)
  else do
    let (phyBlockNr, block) ← testfsReadBlock i logBlockNr block
    if phyBlockNr ≠ 0 then pure (phyBlockNr, block)
    else do
      let phyBlockNr ← allocateMissing i logBlockNr
      pure (phyBlockNr, block)

/-! ### Writing -/

/-- `if (pos > 0) in->in.i_size = MAX(in->in.i_size, start + (off_t) pos)`. -/
def growSize (i : ℕ) (start : ℤ) (pos : ℕ) : FsProgram Unit :=
  if pos > 0 then modifyDinode i fun d ↦ { d with iSize := max d.iSize (start + pos) } else pure ()

/-- The loop of `testfs_write_data`: the error of the block that could not be allocated, if there
is one, and the number of bytes written. `buf` holds the bytes from `pos` on. -/
def writeLoop (i : ℕ) : ℕ → ℕ → ℕ → ℕ → List UInt8 → Block → FsProgram (Option ℤ × ℕ)
  | 0, _, _, pos, _, _ => pure (none, pos)
  | turns + 1, blockNr, blockIx, pos, buf, block =>
    if buf.length > 0 then do
      let (ret, block) ← testfsAllocateBlock i blockNr block
      if ret < 0 then pure (some ret, pos)
      else do
        let sizeToWrite := min (blockSize - blockIx) buf.length
        let block := block.copyIn blockIx sizeToWrite fun k ↦ buf.getD k 0
        writeBlocks (fun _ ↦ block) ret 1
        writeLoop i turns (blockNr + 1) 0 (pos + sizeToWrite) (buf.drop sizeToWrite) block
    else pure (none, pos)

/-- What `testfs_write_data` does after its loop, or when it returns an error from it. -/
def writeDone (i : ℕ) (start : ℤ) (failure : Option ℤ) (pos : ℕ) : FsProgram ℤ := do
  growSize i start pos
  match failure with
  | some ret => pure ret
  | none => do
    markDirty i
    pure (toInt32 pos)

/-- `testfs_write_data` of the bytes `buf`. A negative `start` indexes before the block or fails
the assertion on the logical block number. -/
def testfsWriteData (i : ℕ) (buf : List UInt8) (start : ℤ) : FsProgram ℤ := do
  if start ≥ maxFileSize then pure (-eFBIG)
  else do
    Program.check (0 ≤ start ∨ buf = []) .undefined
    let (failure, pos) ← writeLoop i buf.length (start.toNat / blockSize)
        (start.toNat % blockSize) 0
      buf Block.zero
    writeDone i start failure pos

/-! ### Freeing -/

/-- Free the entries `k, …, k + n - 1` of an index block that are in use. -/
def freeEntries (i : ℕ) (block : Block) (n k : ℕ) : FsProgram Unit :=
  Program.forRange (fun j ↦ testfsFreeBlockFromInode i (block.getInt j)) n k

/-- The first loop of `testfs_free_blocks`, over the direct blocks from `k` on. -/
def freeDirect (i : ℕ) (eBlockNr : ℤ) : ℕ → ℕ → FsProgram Unit
  | 0, _ => pure ()
  | n + 1, k =>
    if (k : ℤ) < eBlockNr then do
      let inode ← inodeRef i
      if h : k < nrDirectBlocks then
        if inode.din.iBlockNr ⟨k, h⟩ = 0 then freeDirect i eBlockNr n (k + 1)
        else do
          testfsFreeBlockFromInode i (inode.din.iBlockNr ⟨k, h⟩)
          modifyDinode i fun d ↦ { d with iBlockNr := Function.update d.iBlockNr ⟨k, h⟩ 0 }
          freeDirect i eBlockNr n (k + 1)
      else pure ()
    else pure ()

/-- The number of turns of a loop `for (j = 0; j < eBlockNr && j < NR_INDIRECT_BLOCKS; j++)`. -/
def indirectTurns (eBlockNr : ℤ) : ℕ := min eBlockNr.toNat nrIndirectBlocks

/-- The body of the loop over the entries of the double indirect block: free the second-level
indirect block `idBlock` with its entries, if there is one. The remaining block count is returned.
-/
def freeSecondLevel (i : ℕ) (idBlock eBlockNr : ℤ) : FsProgram ℤ :=
  if idBlock = 0 then pure (eBlockNr - nrIndirectBlocks)
  else do
    let block ← readBlock idBlock
    freeEntries i block (indirectTurns eBlockNr) 0
    testfsFreeBlockFromInode i idBlock
    pure (eBlockNr - nrIndirectBlocks)

/-- The loop of `testfs_free_blocks` over the entries of the double indirect block from `k` on. -/
def freeDindirect (i : ℕ) (didBlock : Block) (n k : ℕ) (eBlockNr : ℤ) : FsProgram ℤ :=
  Program.forWhile (fun e ↦ decide (e > 0)) (fun j e ↦ freeSecondLevel i (didBlock.getInt j) e) n k
    eBlockNr

/-- The part of `testfs_free_blocks` on the indirect block; `eBlockNr` is the number of blocks left
after the direct ones. -/
def freeIndirectPart (i : ℕ) (eBlockNr : ℤ) : FsProgram Unit := do
  let inode ← inodeRef i
  if inode.din.iIndirect > 0 then do
    Program.check (eBlockNr > 0) .assertion
    let block ← readBlock inode.din.iIndirect
    freeEntries i block (indirectTurns eBlockNr) 0
    testfsFreeBlockFromInode i inode.din.iIndirect
    modifyDinode i fun d ↦ { d with iIndirect := 0 }
  else pure ()

/-- The part of `testfs_free_blocks` on the double indirect block; the number of blocks left at the
end is returned. -/
def freeDindirectPart (i : ℕ) (eBlockNr : ℤ) : FsProgram ℤ := do
  let inode ← inodeRef i
  if eBlockNr > 0 ∧ inode.din.iDindirect > 0 then do
    let didBlock ← readBlock inode.din.iDindirect
    let eBlockNr ← freeDindirect i didBlock nrIndirectBlocks 0 eBlockNr
    testfsFreeBlockFromInode i inode.din.iDindirect
    modifyDinode i fun d ↦ { d with iDindirect := 0 }
    pure eBlockNr
  else pure eBlockNr

/-- `testfs_free_blocks`. -/
def testfsFreeBlocks (i : ℕ) : FsProgram ℤ := do
  let inode ← inodeRef i
  let eBlockNr := toInt32 ((inode.din.iSize + blockSize - 1).tdiv blockSize)
  freeDirect i eBlockNr nrDirectBlocks 0
  freeIndirectPart i (eBlockNr - nrDirectBlocks)
  let eBlockNr ← freeDindirectPart i (eBlockNr - nrDirectBlocks - nrIndirectBlocks)
  Program.check (eBlockNr ≤ 0) .assertion
  modifyDinode i fun d ↦ { d with iSize := 0 }
  markDirty i
  pure 0

/-- `testfs_remove_inode` of `inode.c`. -/
def testfsRemoveInode (i : ℕ) : FsProgram Unit := do
  let _ ← testfsFreeBlocks i
  let inode ← inodeRef i
  Program.check (inode.din.blockCount = 0) .assertion
  modifyDinode i fun _ ↦ Dinode.zero
  markDirty i
  testfsPutInodeFreemap i
  testfsSyncInode i
  testfsPutInode i

end OperatingSystems.Fs
