import OperatingSystems.Fs.ReadWrite

/-!
# Directories: `dir.c`

A directory is a file of records: a `struct dirent` of two `s32`, the length of the name with its
terminator and an inode number, followed by the name. A removed record keeps its place with a
negative inode number, and a new name of the same length reuses the place.

The loops over the records of a directory that stop at the first record of a kind are `findFirst`
with that kind. A loop over records moves on by at least nine bytes in a turn, so it is run with
the size of the directory as its bound. The recursions of `testfs_pwd` and `testfs_ls` follow the
records themselves and are given the depth to which they may go.
-/

set_option autoImplicit false
set_option relaxedAutoImplicit false

namespace OperatingSystems.Fs

open Library

/-! ### Names -/

/-- A C string: its bytes before the terminator. -/
structure CString where
  bytes : List UInt8
  nulFree : 0 ∉ bytes
  deriving DecidableEq

/-- `strlen`. -/
def CString.length (name : CString) : ℕ := name.bytes.length

/-- The name `"."`. -/
def dot : CString := ⟨[46], by decide⟩

/-- The name `".."`. -/
def dotdot : CString := ⟨[46, 46], by decide⟩

/-! ### Records -/

/-- `sizeof(struct dirent)`. -/
abbrev direntSize : ℕ := 8

/-- `INVALID_INODE_NR`. -/
abbrev invalidInodeNr : ℤ := -1

/-- A `struct dirent` in memory with the bytes that were read for its name. -/
structure Dirent where
  dNameLen : ℤ
  dInodeNr : ℤ
  dName : List UInt8
  deriving DecidableEq

/-- The two `s32` of a `struct dirent`. -/
def encodeHeader (dNameLen dInodeNr : ℤ) : List UInt8 :=
  (List.range 4).map (leByte (toUnsigned 4 dNameLen)) ++
    (List.range 4).map (leByte (toUnsigned 4 dInodeNr))

/-- A record as it is stored in a directory. -/
def Dirent.encode (d : Dirent) : List UInt8 := encodeHeader d.dNameLen d.dInodeNr ++ d.dName

/-- The `k`th `s32` of a buffer. -/
def intAt (buf : List UInt8) (k : ℕ) : ℤ := toSigned 4 (wordAt 4 (fun j ↦ buf.getD j 0) k)

/-- The C string at `D_NAME(d)`. Without a terminator it runs past what was read. -/
def Dirent.cName (d : Dirent) : Except Halt (List UInt8) :=
  if 0 ∈ d.dName then .ok (d.dName.takeWhile (· ≠ 0)) else .error .undefined

/-- `strcmp(D_NAME(d), name) == 0`. -/
def Dirent.nameIs (d : Dirent) (name : CString) : Except Halt Bool :=
  d.cName.map fun bytes ↦ decide (bytes = name.bytes)

/-- The part of `testfs_next_dirent` after it has read a header. The header is on the stack, so a
header that was read in part is used with bytes that were never set. -/
def readDirentName (dir : ℕ) (offset : ℤ) (header : List UInt8) :
    FsProgram (Option (Dirent × ℤ)) := do
  Program.check (header.length = direntSize) .undefined
  Program.check (intAt header 0 > 0) .assertion
  let (ret, name) ← testfsReadData dir (offset + direntSize) (intAt header 0).toNat
  if ret < 0 then pure none
  else pure (some (⟨intAt header 0, intAt header 1, name⟩, offset + direntSize + intAt header 0))

/-- `testfs_next_dirent`: the record and the offset after it. -/
def testfsNextDirent (dir : ℕ) (offset : ℤ) : FsProgram (Option (Dirent × ℤ)) := do
  let type ← testfsInodeGetType dir
  Program.check (type = InodeType.dir.code) .assertion
  let size ← testfsInodeGetSize dir
  if offset ≥ size then pure none
  else do
    let (ret, header) ← testfsReadData dir offset direntSize
    if ret < 0 then pure none
    else readDirentName dir offset header

/-- A loop over the records from `offset` on that stops at the first one for which `stop` holds:
the offset at which it stopped, and the record there. -/
def scanDirents (dir : ℕ) (stop : Dirent → Except Halt Bool) : ℕ → ℤ → FsProgram (ℤ × Option Dirent)
  | 0, offset => pure (offset, none)
  | turns + 1, offset => do
    let next ← testfsNextDirent dir offset
    match next with
    | none => pure (offset, none)
    | some (d, offset') => do
      let found ← Program.ofExcept (stop d)
      if found then pure (offset, some d) else scanDirents dir stop turns offset'

/-- The first record of a directory for which `stop` holds. -/
def findFirst (dir : ℕ) (stop : Dirent → Except Halt Bool) : FsProgram (ℤ × Option Dirent) := do
  let type ← testfsInodeGetType dir
  Program.check (type = InodeType.dir.code) .assertion
  let size ← testfsInodeGetSize dir
  scanDirents dir stop (size.toNat + 1) 0

/-! ### Looking up -/

/-- `testfs_find_dirent`. -/
def testfsFindDirent (dir : ℕ) (inodeNr : ℤ) : FsProgram (Option Dirent) := do
  Program.check (0 ≤ inodeNr) .assertion
  let (_, d) ← findFirst dir fun d ↦ .ok (decide (d.dInodeNr = inodeNr))
  pure d

/-- The record is in use and has the name. -/
def Dirent.isLive (name : CString) (d : Dirent) : Except Halt Bool :=
  if d.dInodeNr < 0 then .ok false else d.nameIs name

/-- `testfs_dir_name_to_inode_nr`. -/
def testfsDirNameToInodeNr (dir : ℕ) (name : CString) : FsProgram ℤ := do
  let (_, d) ← findFirst dir (Dirent.isLive name)
  match d with
  | none => pure (-eNOENT)
  | some d => pure d.dInodeNr

/-! ### Adding -/

/-- `testfs_write_dirent`. A negative size makes `malloc` fail; the copy of the name has to fit. -/
def testfsWriteDirent (dir : ℕ) (name : CString) (len inodeNr offset : ℤ) : FsProgram ℤ :=
  if direntSize + len < 0 then pure (-eNOMEM)
  else do
    Program.check (0 ≤ inodeNr) .assertion
    Program.check ((name.length : ℤ) + 1 ≤ len) .undefined
    testfsWriteData dir (Dirent.encode ⟨len, inodeNr, name.bytes ++ [0]⟩) offset

/-- The record at which the loop of `testfs_add_dirent` stops: one in use with the name, or a free
one with the length. -/
def stopsAdd (name : CString) (len : ℤ) (d : Dirent) : Except Halt Bool :=
  if 0 ≤ d.dInodeNr then d.nameIs name else .ok (decide (d.dNameLen = len))

/-- `testfs_add_dirent`. The offset is converted to the `int` that `testfs_write_dirent` takes. -/
def testfsAddDirent (dir : ℕ) (name : CString) (inodeNr : ℤ) : FsProgram ℤ := do
  let len := toInt32 (name.length + 1)
  let (pOffset, d) ← findFirst dir (stopsAdd name len)
  match d with
  | some d =>
    if 0 ≤ d.dInodeNr then pure (-eEXIST)
    else testfsWriteDirent dir name len inodeNr (toInt32 pOffset)
  | none => do
    let size ← testfsInodeGetSize dir
    Program.check (pOffset = size) .assertion
    testfsWriteDirent dir name len inodeNr (toInt32 pOffset)

/-! ### Removing -/

/-- The record keeps a directory from being removed. -/
def Dirent.keepsDir (d : Dirent) : Except Halt Bool :=
  if d.dInodeNr < 0 then .ok false
  else do
    let isDot ← d.nameIs dot
    let isDotdot ← d.nameIs dotdot
    pure (!isDot && !isDotdot)

/-- The loop of `testfs_remove_dirent_allowed`. -/
def checkEmpty (dir : ℕ) : FsProgram ℤ := do
  let type ← testfsInodeGetType dir
  if type ≠ InodeType.dir.code then pure 0
  else do
    let (_, d) ← findFirst dir Dirent.keepsDir
    pure (if d.isSome then -eNOTEMPTY else 0)

/-- `testfs_remove_dirent_allowed`. -/
def testfsRemoveDirentAllowed (inodeNr : ℕ) : FsProgram ℤ := do
  testfsGetInode inodeNr
  let ret ← checkEmpty inodeNr
  testfsPutInode inodeNr
  pure ret

/-- `testfs_remove_dirent`. -/
def testfsRemoveDirent (dir : ℕ) (name : CString) : FsProgram ℤ := do
  if name = dot ∨ name = dotdot then pure (-eINVAL)
  else do
    let (pOffset, d) ← findFirst dir (Dirent.isLive name)
    match d with
    | none => pure (-eNOENT)
    | some d => do
      let ret ← testfsRemoveDirentAllowed d.dInodeNr.toNat
      if ret < 0 then pure ret
      else do
        Program.check (d.dName.length = d.dNameLen) .undefined
        let ret ← testfsWriteData dir (Dirent.encode { d with dInodeNr := invalidInodeNr }) pOffset
        pure (if ret ≥ 0 then d.dInodeNr else ret)

/-! ### Creating -/

/-- `testfs_create_empty_dir`. -/
def testfsCreateEmptyDir (pInodeNr cdir : ℕ) : FsProgram ℤ := do
  let type ← testfsInodeGetType cdir
  Program.check (type = InodeType.dir.code) .assertion
  let ret ← testfsAddDirent cdir dot cdir
  if ret < 0 then pure ret
  else do
    let ret ← testfsAddDirent cdir dotdot pInodeNr
    if ret < 0 then do
      let _ ← testfsRemoveDirent cdir dot
      pure ret
    else pure 0

/-- The test of `testfs_create_file_or_dir` for a name that exists. -/
def nameExists (dir : Option (ℕ × CString)) : FsProgram Bool :=
  match dir with
  | none => pure false
  | some (dir, name) => do
    let inodeNr ← testfsDirNameToInodeNr dir name
    pure (decide (0 ≤ inodeNr))

/-- The part of `testfs_create_file_or_dir` that makes a new directory empty. -/
def fillNewInode (dir : Option (ℕ × CString)) (type : InodeType) (inodeNr : ℕ) : FsProgram ℤ :=
  if type = .dir then testfsCreateEmptyDir ((dir.map Prod.fst).getD inodeNr) inodeNr else pure 0

/-- The part of `testfs_create_file_or_dir` that enters the new inode in its directory. -/
def enterNewInode (dir : Option (ℕ × CString)) (inodeNr : ℕ) : FsProgram ℤ :=
  match dir with
  | none => pure 0
  | some (dir, name) => do
    let ret ← testfsAddDirent dir name inodeNr
    if ret < 0 then pure ret
    else do
      testfsSyncInode dir
      pure ret

/-- `testfs_create_file_or_dir`. There is no name when there is no directory to enter it in. -/
def testfsCreateFileOrDir (dir : Option (ℕ × CString)) (type : InodeType) : FsProgram ℤ := do
  let taken ← nameExists dir
  if taken then pure (-eEXIST)
  else do
    let (ret, inodeNr) ← testfsCreateInode type
    if ret < 0 then pure ret
    else do
      let ret ← fillNewInode dir type inodeNr
      if ret < 0 then do
        testfsRemoveInode inodeNr
        pure ret
      else do
        let ret ← enterNewInode dir inodeNr
        if ret < 0 then do
          testfsRemoveInode inodeNr
          pure ret
        else do
          testfsSyncInode inodeNr
          testfsPutInode inodeNr
          pure 0

/-- `testfs_make_root_dir`. -/
def testfsMakeRootDir : FsProgram ℤ := testfsCreateFileOrDir none .dir

/-! ### Printing -/

/-- A call of `printf` in `testfs_pwd`. -/
inductive PwdPrint
  | root
  | component (separator name : List UInt8)
  deriving DecidableEq

/-- `testfs_pwd`, to the given depth: the result and what was printed. -/
def testfsPwd : ℕ → ℕ → FsProgram (ℤ × List PwdPrint)
  | 0, _ => Program.halt .depth
  | depth + 1, i => do
    let pInodeNr ← testfsDirNameToInodeNr i dotdot
    Program.check (0 ≤ pInodeNr) .assertion
    if pInodeNr = i then pure (1, [.root])
    else do
      testfsGetInode pInodeNr.toNat
      let d ← testfsFindDirent pInodeNr.toNat i
      match d with
      | none => Program.halt .assertion
      | some d => do
        let (ret, printed) ← testfsPwd depth pInodeNr.toNat
        testfsPutInode pInodeNr.toNat
        let name ← Program.ofExcept d.cName
        pure (0, printed ++ [.component (if ret = 1 then [] else [47]) name])

/-- A line that `testfs_ls` prints: the name, and whether a slash follows. -/
structure LsLine where
  name : List UInt8
  slash : Bool
  deriving DecidableEq

/-- The recursive call in the loop of `testfs_ls`, if it is made. -/
def lsInner (recur : ℕ → FsProgram (List LsLine)) (recursive : Bool) (name : List UInt8)
    (cin : ℕ) (isDir : Bool) : FsProgram (List LsLine) :=
  if recursive ∧ isDir ∧ name ≠ dot.bytes ∧ name ≠ dotdot.bytes then recur cin else pure []

/-- The body of the loop of `testfs_ls` for a record in use. -/
def lsEntry (recur : ℕ → FsProgram (List LsLine)) (recursive : Bool) (d : Dirent) :
    FsProgram (List LsLine) := do
  testfsGetInode d.dInodeNr.toNat
  let type ← testfsInodeGetType d.dInodeNr.toNat
  let name ← Program.ofExcept d.cName
  let inner ← lsInner recur recursive name d.dInodeNr.toNat (decide (type = InodeType.dir.code))
  testfsPutInode d.dInodeNr.toNat
  pure (⟨name, decide (type = InodeType.dir.code)⟩ :: inner)

/-- The loop of `testfs_ls` over the records from `offset` on. -/
def lsLoop (recur : ℕ → FsProgram (List LsLine)) (recursive : Bool) (dir : ℕ) :
    ℕ → ℤ → FsProgram (List LsLine)
  | 0, _ => pure []
  | turns + 1, offset => do
    let next ← testfsNextDirent dir offset
    match next with
    | none => pure []
    | some (d, offset') =>
      if d.dInodeNr < 0 then lsLoop recur recursive dir turns offset'
      else do
        let lines ← lsEntry recur recursive d
        let rest ← lsLoop recur recursive dir turns offset'
        pure (lines ++ rest)

/-- `testfs_ls`, to the given depth: the lines it prints. -/
def testfsLs : ℕ → Bool → ℕ → FsProgram (List LsLine)
  | 0, _, _ => Program.halt .depth
  | depth + 1, recursive, dir => do
    let size ← testfsInodeGetSize dir
    lsLoop (testfsLs depth recursive) recursive dir (size.toNat + 1) 0

end OperatingSystems.Fs
