import OperatingSystems.Fs.Dir

/-!
# The commands of `testfs`: `dir.c`, `file.c`, `common.c` and `testfs.c`

A command gets the words of its line after the name of the command, and the current directory. It
returns its result, the current directory after it, and what it printed. `handleCommand` is one
turn of the loop of `main` on a parsed line; `mktestfs` makes a file system, `mount` is the start
of `main`, and `unmount` its end.
-/

set_option autoImplicit false
set_option relaxedAutoImplicit false

namespace OperatingSystems.Fs

open Library

/-! ### Numbers in arguments -/

/-- `isspace` in the C locale. -/
def isSpace (c : UInt8) : Bool := c = 32 || (9 ≤ c && c ≤ 13)

/-- `isdigit`. -/
def isDigit (c : UInt8) : Bool := 48 ≤ c && c ≤ 57

/-- The value of decimal digits. -/
def digitsValue (digits : List UInt8) : ℕ := digits.foldl (fun v c ↦ 10 * v + (c.toNat - 48)) 0

/-- What `strtoll` and `strtoull` read in base 10: the sign, the digits, and what follows them. -/
def scanNumber (str : List UInt8) : Bool × List UInt8 × List UInt8 :=
  let body := str.dropWhile isSpace
  let unsigned := if body.head? = some 45 ∨ body.head? = some 43 then body.tail else body
  (decide (body.head? = some 45), unsigned.takeWhile isDigit, unsigned.dropWhile isDigit)

/-- The string at which the conversion ended; the whole string when there was no number. -/
def numberEnd (str : List UInt8) : List UInt8 :=
  if (scanNumber str).2.1 = [] then str else (scanNumber str).2.2

/-- `strtoll`, which stays within the range of its type. -/
def strtoll (str : List UInt8) : ℤ :=
  let value : ℤ := digitsValue (scanNumber str).2.1
  max (-2 ^ 63) (min (2 ^ 63 - 1) (if (scanNumber str).1 then -value else value))

/-- `strtoull`, which negates in its type after a minus sign. -/
def strtoull (str : List UInt8) : ℕ :=
  let value := digitsValue (scanNumber str).2.1
  if value ≥ 2 ^ 64 then 2 ^ 64 - 1 else if (scanNumber str).1 then toSize (-value) else value

/-- `str_to_offset`. -/
def strToOffset (str : CString) : Except ℤ ℤ :=
  if (numberEnd str.bytes).length > 0 then .error (-eINVAL) else .ok (strtoll str.bytes)

/-- `str_to_size`. -/
def strToSize (str : CString) : Except ℤ ℕ :=
  if (numberEnd str.bytes).length > 0 then .error (-eINVAL) else .ok (strtoull str.bytes)

/-! ### Commands -/

/-- What a command prints. -/
inductive Output
  | nothing
  | pwd (printed : List PwdPrint)
  | ls (lines : List LsLine)
  | stat (inodeNr : ℕ) (type size blockCount : ℤ)
  | read (bytes : List UInt8)
  | fsstat (usedInodeCount usedBlockCount : ℕ)
  deriving DecidableEq

/-- The result, the current directory after the command, and what it printed. -/
structure Outcome where
  ret : ℤ
  curDir : ℕ
  output : Output

/-- A command that prints nothing and stays in its directory. -/
def Outcome.silent (curDir : ℕ) (ret : ℤ) : Outcome := ⟨ret, curDir, .nothing⟩

/-- `cmd_cd`. -/
def cmdCd (curDir : ℕ) (args : List CString) : FsProgram Outcome :=
  match args with
  | [name] => do
    let inodeNr ← testfsDirNameToInodeNr curDir name
    if inodeNr < 0 then pure (.silent curDir inodeNr)
    else do
      testfsGetInode inodeNr.toNat
      let type ← testfsInodeGetType inodeNr.toNat
      if type ≠ InodeType.dir.code then do
        testfsPutInode inodeNr.toNat
        pure (.silent curDir (-eNOTDIR))
      else do
        testfsPutInode curDir
        pure (.silent inodeNr.toNat 0)
  | _ => pure (.silent curDir (-eINVAL))

/-- `cmd_pwd`. -/
def cmdPwd (depth curDir : ℕ) (args : List CString) : FsProgram Outcome :=
  match args with
  | [] => do
    let (_, printed) ← testfsPwd depth curDir
    pure ⟨0, curDir, .pwd printed⟩
  | _ => pure (.silent curDir (-eINVAL))

/-- `cmd_ls_internal`. An inode that is not a directory is not put back. -/
def cmdLsInternal (depth curDir : ℕ) (args : List CString) (recursive : Bool) : FsProgram Outcome :=
  match args with
  | [cdir] => do
    let inodeNr ← testfsDirNameToInodeNr curDir cdir
    if inodeNr < 0 then pure (.silent curDir inodeNr)
    else do
      testfsGetInode inodeNr.toNat
      let type ← testfsInodeGetType inodeNr.toNat
      if type = InodeType.dir.code then do
        let lines ← testfsLs depth recursive inodeNr.toNat
        testfsPutInode inodeNr.toNat
        pure ⟨0, curDir, .ls lines⟩
      else pure (.silent curDir (-eNOTDIR))
  | _ => pure (.silent curDir (-eINVAL))

/-- `cmd_ls`. -/
def cmdLs (depth curDir : ℕ) (args : List CString) : FsProgram Outcome :=
  cmdLsInternal depth curDir args false

/-- `cmd_lsr`. -/
def cmdLsr (depth curDir : ℕ) (args : List CString) : FsProgram Outcome :=
  cmdLsInternal depth curDir args true

/-- The body of `cmd_create` and `cmd_mkdir`. -/
def cmdMake (type : InodeType) (curDir : ℕ) (args : List CString) : FsProgram Outcome :=
  match args with
  | [name] => do
    let ret ← testfsCreateFileOrDir (some (curDir, name)) type
    pure (.silent curDir ret)
  | _ => pure (.silent curDir (-eINVAL))

/-- `cmd_create`. -/
def cmdCreate (curDir : ℕ) (args : List CString) : FsProgram Outcome := cmdMake .file curDir args

/-- `cmd_mkdir`. -/
def cmdMkdir (curDir : ℕ) (args : List CString) : FsProgram Outcome := cmdMake .dir curDir args

/-- `cmd_rm`. -/
def cmdRm (curDir : ℕ) (args : List CString) : FsProgram Outcome :=
  match args with
  | [name] => do
    let inodeNr ← testfsRemoveDirent curDir name
    if inodeNr < 0 then pure (.silent curDir inodeNr)
    else do
      testfsGetInode inodeNr.toNat
      testfsRemoveInode inodeNr.toNat
      testfsSyncInode curDir
      pure (.silent curDir 0)
  | _ => pure (.silent curDir (-eINVAL))

/-- `cmd_stat`. -/
def cmdStat (curDir : ℕ) (args : List CString) : FsProgram Outcome :=
  match args with
  | [name] => do
    let inodeNr ← testfsDirNameToInodeNr curDir name
    if inodeNr < 0 then pure (.silent curDir inodeNr)
    else do
      testfsGetInode inodeNr.toNat
      let inode ← inodeRef inodeNr.toNat
      testfsPutInode inodeNr.toNat
      pure ⟨0, curDir,
        .stat inodeNr.toNat inode.din.iType inode.din.iSize inode.din.blockCount⟩
  | _ => pure (.silent curDir (-eINVAL))

/-- `testfs_get_file_inode`: the result and the inode number. -/
def testfsGetFileInode (dir : ℕ) (name : CString) : FsProgram (ℤ × ℕ) := do
  let inodeNr ← testfsDirNameToInodeNr dir name
  if inodeNr < 0 then pure (inodeNr, 0)
  else do
    testfsGetInode inodeNr.toNat
    let type ← testfsInodeGetType inodeNr.toNat
    if type = InodeType.dir.code then do
      testfsPutInode inodeNr.toNat
      pure (-eISDIR, 0)
    else pure (0, inodeNr.toNat)

/-- The part of `cmd_read` that reads into a buffer of `size + 1` bytes, from the range check on.
A buffer of more than `PTRDIFF_MAX` bytes cannot be had. -/
def readFile (i : ℕ) (offset : ℤ) (size : ℕ) : FsProgram (ℤ × Output) := do
  let fileSize ← testfsInodeGetSize i
  if toOff (offset + toOff size) > fileSize then pure (-eINVAL, .nothing)
  else if toSize (size + 1) ≥ 2 ^ 63 then pure (-eNOMEM, .nothing)
  else do
    let (ret, bytes) ← testfsReadData i offset size
    Program.check (bytes.length ≤ toSize (size + 1)) .undefined
    if ret ≥ 0 then do
      Program.check (size < toSize (size + 1)) .undefined
      pure (ret, .read (bytes.takeWhile (· ≠ 0)))
    else pure (ret, .nothing)

/-- `cmd_read`. -/
def cmdRead (curDir : ℕ) (args : List CString) : FsProgram Outcome :=
  match args with
  | [filename, offset, size] =>
    match strToOffset offset with
    | .error ret => pure (.silent curDir ret)
    | .ok offset =>
      if offset < 0 then pure (.silent curDir (-eINVAL))
      else
        match strToSize size with
        | .error ret => pure (.silent curDir ret)
        | .ok size => do
          let (ret, i) ← testfsGetFileInode curDir filename
          if ret < 0 then pure (.silent curDir ret)
          else do
            let (ret, output) ← readFile i offset size
            testfsPutInode i
            pure ⟨ret, curDir, output⟩
  | _ => pure (.silent curDir (-eINVAL))

/-- `cmd_write`. -/
def cmdWrite (curDir : ℕ) (args : List CString) : FsProgram Outcome :=
  match args with
  | [filename, offset, buf] =>
    match strToOffset offset with
    | .error ret => pure (.silent curDir ret)
    | .ok offset =>
      if offset < 0 then pure (.silent curDir (-eINVAL))
      else do
        let (ret, i) ← testfsGetFileInode curDir filename
        if ret < 0 then pure (.silent curDir ret)
        else do
          let ret ← testfsWriteData i buf.bytes offset
          testfsSyncInode i
          testfsPutInode i
          pure (.silent curDir ret)
  | _ => pure (.silent curDir (-eINVAL))

/-- `cmd_fsstat`. -/
def cmdFsstat (curDir : ℕ) (args : List CString) : FsProgram Outcome :=
  match args with
  | [] => do
    let sb ← Program.gets FsState.sb
    pure ⟨0, curDir, .fsstat sb.usedInodeCount sb.usedBlockCount⟩
  | _ => pure (.silent curDir (-eINVAL))

/-! ### The loop of `main` -/

/-- The commands of `cmdtable` that use the file system. -/
inductive CommandName
  | cd
  | pwd
  | ls
  | lsr
  | create
  | stat
  | rm
  | mkdir
  | read
  | write
  | fsstat
  deriving DecidableEq, Repr

/-- A line: the command and the words after it. -/
structure Command where
  name : CommandName
  args : List CString

/-- The function of a command in `cmdtable`, called by `handle_command`. -/
def handleCommand (depth curDir : ℕ) (c : Command) : FsProgram Outcome :=
  match c.name with
  | .cd => cmdCd curDir c.args
  | .pwd => cmdPwd depth curDir c.args
  | .ls => cmdLs depth curDir c.args
  | .lsr => cmdLsr depth curDir c.args
  | .create => cmdCreate curDir c.args
  | .stat => cmdStat curDir c.args
  | .rm => cmdRm curDir c.args
  | .mkdir => cmdMkdir curDir c.args
  | .read => cmdRead curDir c.args
  | .write => cmdWrite curDir c.args
  | .fsstat => cmdFsstat curDir c.args

/-- `mktestfs` on a new device, from the first block it writes on. -/
def mktestfs : FsProgram Unit := do
  testfsMakeBlocks
  testfsInitSuperBlock
  let _ ← testfsMakeRootDir
  testfsCloseSuperBlock

/-- The start of `main`: the root is the current directory. -/
def mount : FsProgram Unit := do
  testfsInitSuperBlock
  testfsGetInode 0

/-- The end of `main`. -/
def unmount (curDir : ℕ) : FsProgram Unit := do
  testfsPutInode curDir
  testfsCloseSuperBlock

/-- A file system fresh from `mktestfs` and mounted. -/
def freshFs (maxFsBlocks : ℕ) : Except Halt FsState :=
  ((do mktestfs; mount : FsProgram Unit).run (testfsMakeSuperBlock maxFsBlocks)).map Prod.snd

end OperatingSystems.Fs
