import Mathlib.Tactic.Common
import OperatingSystems.Library.LittleEndian

/-!
# Constants, blocks and machine integers of the file system

The layout constants of `testfs.h` and `inode.h`, the error numbers the file system returns, the
ways in which its process can end early, and the block: an array of `blockSize` bytes that the
code reads both as bytes and, through a cast, as an array of `nrIndirectBlocks` C integers.
-/

set_option autoImplicit false
set_option relaxedAutoImplicit false

namespace OperatingSystems.Fs

open Library

/-! ### Layout -/

/-- `BLOCK_SIZE`. -/
abbrev blockSize : ℕ := 8192

/-- `SUPER_BLOCK_SIZE`. -/
abbrev superBlockSize : ℕ := 1

/-- `INODE_FREEMAP_SIZE`. -/
abbrev inodeFreemapSize : ℕ := 1

/-- `BLOCK_FREEMAP_SIZE`. -/
abbrev blockFreemapSize : ℕ := 16

/-- `NR_INODE_BLOCKS`. -/
abbrev nrInodeBlocks : ℕ := 128

/-- `NR_DIRECT_BLOCKS`. -/
abbrev nrDirectBlocks : ℕ := 10

/-- `NR_INDIRECT_BLOCKS`, the number of C integers in a block. -/
abbrev nrIndirectBlocks : ℕ := 2048

/-- `sizeof(struct dinode)`. -/
abbrev dinodeSize : ℕ := 64

/-- `INODES_PER_BLOCK`. -/
abbrev inodesPerBlock : ℕ := 128

/-- The number of inodes that have a place in the inode blocks. -/
abbrev nrInodes : ℕ := nrInodeBlocks * inodesPerBlock

/-- The first block that is neither the super block nor part of a freemap. -/
abbrev firstInodeBlock : ℕ := superBlockSize + inodeFreemapSize + blockFreemapSize

/-- The first data block. -/
abbrev firstDataBlock : ℕ := firstInodeBlock + nrInodeBlocks

/-- The number of data blocks the block freemap covers. -/
abbrev nrDataBlocks : ℕ := blockSize * blockFreemapSize * 8

/-- `BITS_PER_WORD` of `bitmap.h`. -/
abbrev bitsPerWord : ℕ := 8

/-- `MAX_BLOCK_NR`: direct, single indirect and double indirect blocks. -/
abbrev maxBlockNr : ℕ := nrDirectBlocks + nrIndirectBlocks + nrIndirectBlocks * nrIndirectBlocks

/-- `MAX_FILE_SIZE`. -/
abbrev maxFileSize : ℕ := maxBlockNr * blockSize

theorem maxBlockNr_eq : maxBlockNr = 4196362 := rfl

/-! ### Outcomes -/

/-- Why the process ends before its command is finished: a failed `assert`, a call of `EXIT`, or
an access the C standard leaves undefined. The last is not in the source: a recursion of the model
went deeper than the bound it was given. -/
inductive Halt
  | assertion
  | exit
  | undefined
  | depth
  deriving DecidableEq, Repr

/-- `ENOENT`. -/
abbrev eNOENT : ℤ := 2

/-- `ENOMEM`. -/
abbrev eNOMEM : ℤ := 12

/-- `EEXIST`. -/
abbrev eEXIST : ℤ := 17

/-- `ENOTDIR`. -/
abbrev eNOTDIR : ℤ := 20

/-- `EISDIR`. -/
abbrev eISDIR : ℤ := 21

/-- `EINVAL`. -/
abbrev eINVAL : ℤ := 22

/-- `EFBIG`. -/
abbrev eFBIG : ℤ := 27

/-- `ENOSPC`. -/
abbrev eNOSPC : ℤ := 28

/-- `ENOTEMPTY`. -/
abbrev eNOTEMPTY : ℤ := 39

/-! ### Machine integers -/

/-- Conversion to `int` or `s32`. -/
def toInt32 (z : ℤ) : ℤ := Int.bmod z (2 ^ 32)

/-- Conversion to `off_t`. -/
def toOff (z : ℤ) : ℤ := Int.bmod z (2 ^ 64)

/-- Conversion to `size_t`. -/
def toSize (z : ℤ) : ℕ := (z % 2 ^ 64).toNat

theorem toInt32_of_range {z : ℤ} (hlow : -2 ^ 31 ≤ z) (hhigh : z < 2 ^ 31) : toInt32 z = z := by
  apply Int.bmod_eq_of_le
  · simpa using hlow
  · simpa using hhigh

/-- A value that does not fit an `int` by one bit becomes negative. -/
theorem toInt32_neg {z : ℤ} (hlow : 2 ^ 31 ≤ z) (hhigh : z < 2 ^ 32) : toInt32 z < 0 := by
  have hwrap : toInt32 z = toInt32 (z - 2 ^ 32) := by
    rw [toInt32, toInt32]
    exact (Int.sub_bmod_right z (2 ^ 32)).symm
  rw [hwrap, toInt32_of_range (by omega) (by omega)]
  omega

theorem toOff_of_range {z : ℤ} (hlow : -2 ^ 63 ≤ z) (hhigh : z < 2 ^ 63) : toOff z = z := by
  apply Int.bmod_eq_of_le
  · simpa using hlow
  · simpa using hhigh

theorem toSize_of_range {z : ℤ} (hlow : 0 ≤ z) (hhigh : z < 2 ^ 64) : toSize z = z.toNat := by
  rw [toSize, Int.emod_eq_of_lt hlow hhigh]

/-! ### Blocks -/

/-- The contents of one block. -/
def Block : Type := Fin blockSize → UInt8

namespace Block

/-- The byte at an offset; the offsets the code uses are below `blockSize`. -/
def byte (b : Block) (j : ℕ) : UInt8 := if h : j < blockSize then b ⟨j, h⟩ else 0

/-- The block with the given bytes. -/
def ofBytes (bytes : ℕ → UInt8) : Block := fun j ↦ bytes j

/-- `bzero(block, BLOCK_SIZE)`. -/
def zero : Block := fun _ ↦ 0

instance : Inhabited Block := ⟨zero⟩

/-- `((int *)block)[k]`. -/
def getInt (b : Block) (k : ℕ) : ℤ := toSigned 4 (wordAt 4 b.byte k)

/-- `((int *)block)[k] = v`. -/
def setInt (b : Block) (k : ℕ) (v : ℤ) : Block := ofBytes (setWord 4 b.byte k (toUnsigned 4 v))

/-- `memcpy(block + ix, bytes, n)`, where byte `j` of the source is `bytes j`. -/
def copyIn (b : Block) (ix n : ℕ) (bytes : ℕ → UInt8) : Block := fun j ↦
  if ix ≤ (j : ℕ) ∧ (j : ℕ) < ix + n then bytes (j - ix) else b j

/-- The `n` bytes that `memcpy(buf, block + ix, n)` copies. -/
def copyOut (b : Block) (ix n : ℕ) : List UInt8 := (List.range n).map fun k ↦ b.byte (ix + k)

@[ext] theorem ext {first second : Block} (h : ∀ j < blockSize, first.byte j = second.byte j) :
    first = second := by
  funext j
  have hj := h j j.isLt
  simpa [byte] using hj

@[simp] theorem byte_ofBytes {j : ℕ} (h : j < blockSize) (bytes : ℕ → UInt8) :
    (ofBytes bytes).byte j = bytes j := by
  simp [byte, ofBytes, h]

@[simp] theorem byte_zero (j : ℕ) : zero.byte j = 0 := by
  simp [byte, zero]

theorem byte_copyIn {b : Block} {ix n : ℕ} {bytes : ℕ → UInt8} {j : ℕ} (h : j < blockSize) :
    (b.copyIn ix n bytes).byte j =
      if ix ≤ j ∧ j < ix + n then bytes (j - ix) else b.byte j := by
  simp [byte, copyIn, h]

@[simp] theorem getInt_zero (k : ℕ) : zero.getInt k = 0 := by
  have hbytes : zero.byte = fun _ ↦ 0 := by
    funext j
    exact byte_zero j
  simp [getInt, hbytes]

/-- Reading an entry of an index block after an entry was set. The value is a C integer. -/
theorem getInt_setInt (b : Block) {k l : ℕ} {v : ℤ} (hl : l < nrIndirectBlocks)
    (hlow : -2 ^ 31 ≤ v) (hhigh : v < 2 ^ 31) :
    (b.setInt k v).getInt l = if l = k then v else b.getInt l := by
  have hword : wordAt 4 (b.setInt k v).byte l =
      wordAt 4 (setWord 4 b.byte k (toUnsigned 4 v)) l := by
    apply wordAt_congr
    intro j hj
    apply byte_ofBytes
    simp only [nrIndirectBlocks, blockSize] at *
    omega
  rw [getInt, hword, wordAt_setWord]
  split_ifs with h
  · apply toSigned_toUnsigned <;> norm_num <;> omega
  · rfl

@[simp] theorem length_copyOut (b : Block) (ix n : ℕ) : (b.copyOut ix n).length = n := by
  simp [copyOut]

end Block

end OperatingSystems.Fs
