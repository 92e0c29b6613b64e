import OperatingSystems.Fs.CommandLine
import OperatingSystems.Fs.Returns

/-!
# Processes: `main`

A `testfs` process mounts the device, reads lines until `quit` or the end of its input, drops the
current directory and closes the file system. What one process leaves to the next is the device
alone. `Host` is a device with at most one process on it, and a run is any sequence of processes
with any lines.

`processes_keep_files` is about the runs whose lines are harmless: none spoils a directory or lists
a file, all stay in range, and `parse_command` gets the rest of the line, unless the C library gives
a meaning to `strtok_r` with two null pointers. Whenever such a process ends, it ends without a
failed assertion, and the next one finds the same tree, the same files and the same blocks in use.
-/

set_option autoImplicit false
set_option relaxedAutoImplicit false

namespace OperatingSystems.Fs

open Library Library.Machine

/-! ### The code -/

/-- What `main` keeps between two lines. -/
structure Shell where
  context : Context
  curDir : ℕ
  canQuit : Bool

/-- The line that `getline` read, as a string. -/
def lineString (line : List UInt8) : List UInt8 := line.takeWhile (· ≠ 0)

/-- The command of the file system that a line calls. -/
def Shell.command (sh : Shell) (line : List UInt8) : Option Command :=
  match parseLine sh.context (lineString line) with
  | some (⟨_, .fs name, _⟩, c) => some ⟨name, c.args⟩
  | _ => none

/-- One turn of the loop of `main`. -/
def mainTurn (depth : ℕ) (sh : Shell) (line : List UInt8) : FsProgram Shell :=
  match parseLine sh.context (lineString line) with
  | none => pure sh
  | some (cmd, c) => do
    let out ← callFunc depth sh.curDir cmd.func c
    pure ⟨c, out.curDir, sh.canQuit || decide (cmd.func = .quit)⟩

/-- Before a process mounts the device, it has nothing of it in memory. -/
def Device.unmounted (dev : Device) : FsState := { testfsMakeSuperBlock 0 with dev := dev }

/-- A device without a process, or with one that has mounted it. -/
inductive Host
  | off (dev : Device)
  | on (fs : FsState) (sh : Shell)

/-- A process starts, with anything in its context, reads a line, or leaves its loop. The
recursions may go to the given depth. -/
inductive HostMove
  | start (context : Context)
  | line (depth : ℕ) (line : List UInt8)
  | stop

/-- A move of `main`, if it can be made and returns. -/
def Host.step : Host → HostMove → Option Host
  | .off dev, .start context =>
    (mount.run dev.unmounted).toOption.map fun result ↦ .on result.2 ⟨context, 0, false⟩
  | .on fs sh, .line depth line =>
    if sh.canQuit then none
    else ((mainTurn depth sh line).run fs).toOption.map fun result ↦ .on result.2 result.1
  | .on fs sh, .stop => ((unmount sh.curDir).run fs).toOption.map fun result ↦ .off result.2.dev
  | _, _ => none

/-! ### Mounting a device again -/

/-- A process can stop in this state: the current directory is the only inode in memory, of a file
system that is a tree. -/
structure Settled (T : NameTree ℕ CString) (dirs : ℕ → List Record) (s : FsState) (cur : ℕ) :
    Prop where
  inTree : InTree T dirs s cur
  fit : RecordsFit T dirs
  holds : Referenced (only cur) s
  limit : s.sb.maxFsBlocks ≤ nrDataBlocks

/-- The same super block, the same inodes and blocks in use, and the same files. -/
structure SameVolume (s t : FsState) : Prop where
  sb : t.sb = s.sb
  inodes : t.inodeFreemap.allocated = s.inodeFreemap.allocated
  blocks : t.blockFreemap.allocated = s.blockFreemap.allocated
  dinode : ∀ i < nrInodes, t.dinode i = s.dinode i
  content : ∀ i < nrInodes, t.content i = s.content i

theorem SameVolume.trans {s t u : FsState} (h : SameVolume s t) (h' : SameVolume t u) :
    SameVolume s u where
  sb := h'.sb.trans h.sb
  inodes := h'.inodes.trans h.inodes
  blocks := h'.blocks.trans h.blocks
  dinode := fun i hi ↦ (h'.dinode i hi).trans (h.dinode i hi)
  content := fun i hi ↦ (h'.content i hi).trans (h.content i hi)

section Mounting

variable {T : NameTree ℕ CString} {dirs : ℕ → List Record} {s t u : FsState} {cur : ℕ}

/-- `testfs_init_super_block` depends on the device only. -/
theorem testfsInitSuperBlock_eq_ok_iff :
    testfsInitSuperBlock.run u = .ok ((), t) ↔
      1 ≤ u.dev.len ∧
      (decodeSuper (u.dev.blocks 0)).inodeFreemapStart + inodeFreemapSize ≤ u.dev.len ∧
      (decodeSuper (u.dev.blocks 0)).blockFreemapStart + blockFreemapSize ≤ u.dev.len ∧
      t = u.mounted (decodeSuper (u.dev.blocks 0)) := by
  constructor
  · intro hrun
    rw [testfsInitSuperBlock, readBlock] at hrun
    obtain ⟨block, s₁, hblock, hrun⟩ := Program.bind_eq_ok_iff.mp hrun
    obtain ⟨blocks, s₂, hread, hblock⟩ := Program.bind_eq_ok_iff.mp hblock
    obtain ⟨-, hlen, rfl, rfl⟩ := readBlocks_eq_ok_iff.mp hread
    obtain ⟨rfl, rfl⟩ := Prod.mk.inj (Except.ok.inj hblock)
    obtain ⟨inodeBlocks, s₃, hinodes, hrun⟩ := Program.bind_eq_ok_iff.mp hrun
    obtain ⟨-, hinodeLen, rfl, rfl⟩ := readBlocks_eq_ok_iff.mp hinodes
    obtain ⟨freemapBlocks, s₄, hblocks, hrun⟩ := Program.bind_eq_ok_iff.mp hrun
    obtain ⟨-, hblockLen, rfl, rfl⟩ := readBlocks_eq_ok_iff.mp hblocks
    obtain ⟨-, rfl⟩ := Prod.mk.inj (Except.ok.inj hrun)
    exact ⟨hlen, hinodeLen, hblockLen, rfl⟩
  · rintro ⟨hlen, hinodeLen, hblockLen, rfl⟩
    have hblock : (readBlock 0).run u = .ok (u.dev.blocks 0, u) := readBlock_run le_rfl hlen
    rw [testfsInitSuperBlock, Program.run_bind hblock]
    simp only
    rw [Program.run_bind (readBlocks_run hinodeLen), Program.run_bind (readBlocks_run hblockLen)]
    rfl

/-- A process starts from the device in the same way as from the memory of the last one. -/
theorem testfsInitSuperBlock_unmounted (h : testfsInitSuperBlock.run u = .ok ((), t)) :
    testfsInitSuperBlock.run u.dev.unmounted = .ok ((), { t with allocFailed := false }) := by
  obtain ⟨hlen, hinodeLen, hblockLen, rfl⟩ := testfsInitSuperBlock_eq_ok_iff.mp h
  exact testfsInitSuperBlock_eq_ok_iff.mpr ⟨hlen, hinodeLen, hblockLen, rfl⟩

/-- The record of failed allocations is not part of the invariant. -/
theorem Sound.clearFlag (h : Sound s) : Sound { s with allocFailed := false } where
  core := ⟨⟨h.core.layout.inodeFreemapStart, h.core.layout.blockFreemapStart,
    h.core.layout.inodeBlocksStart, h.core.layout.dataBlocksStart, h.core.layout.inodeBits,
    h.core.layout.blockBits, h.core.layout.devLen⟩, h.core.ledger, h.core.used, h.core.limit,
    h.core.zeroed, h.core.table⟩
  reached := h.reached
  extent := h.extent
  types := h.types
  clean := h.clean
  inodes := h.inodes

/-- A process that drops its current directory has no inode in memory, and everything else as it
was. -/
theorem Settled.putInode (h : Settled T dirs s cur) :
    ∃ v, (testfsPutInode cur).run s = .ok ((), v) ∧ v.fetch cur = s ∧ Sound v ∧
      ∀ i, v.inodeHashTable i = none := by
  obtain ⟨⟨inode, hmem, hcount⟩, hothers⟩ := Referenced.holdsCurDir (p := ⟨s, cur⟩) h.holds
  obtain ⟨hclean, -⟩ := h.inTree.calm.quiet cur inode hmem
  have hlast : inode.iCount - 1 = 0 := sub_eq_zero.mpr hcount
  have hrun := testfsPutInode_run hmem hclean
  have hsound := h.inTree.calm.toSound.putInode hmem hclean
  rw [if_pos hlast] at hrun hsound
  refine ⟨_, hrun, ?_, hsound, fun i ↦ ?_⟩
  · have hinode : inode = ⟨s.diskDinode cur, false, 1⟩ := by
      obtain ⟨din, dirty, iCount⟩ := inode
      obtain rfl : din = s.diskDinode cur := h.inTree.synced cur h.inTree.isDir _ hmem
      obtain rfl : dirty = false := hclean
      obtain rfl : iCount = 1 := hcount
      rfl
    rw [FsState.fetch, inodeHashTable_setInode_self, setInode_setInode]
    rw [hinode] at hmem
    exact setInode_self hmem
  · by_cases hi : i = cur
    · rw [hi, inodeHashTable_setInode_self]
    · rw [inodeHashTable_setInode_of_ne _ _ hi]
      exact hothers i hi

/-- The start of a process on a device from which a file system without in-memory inodes can be
mounted. -/
theorem Remounted.mount (h : Remounted s t) (hinit : testfsInitSuperBlock.run u = .ok ((), t)) :
    mount.run u.dev.unmounted = .ok ((), { t.fetch 0 with allocFailed := false }) := by
  rw [OperatingSystems.Fs.mount, Program.run_bind (testfsInitSuperBlock_unmounted hinit)]
  exact testfsGetInode_fetch h.sound.clearFlag.core.layout (by decide)

/-- It finds the tree that the file system was. -/
theorem Remounted.settled (h : Remounted s t) (hs : Sound s) (hrep : Represents s T dirs)
    (hfit : RecordsFit T dirs) (hlimit : s.sb.maxFsBlocks ≤ nrDataBlocks) :
    Settled T dirs { t.fetch 0 with allocFailed := false } 0 ∧
      SameVolume s { t.fetch 0 with allocFailed := false } := by
  obtain ⟨v, hv⟩ : ∃ v : FsState, v = { t with allocFailed := false } := ⟨_, rfl⟩
  have hempty : ∀ i, v.inodeHashTable i = none := fun i ↦ by
    rw [hv]
    exact h.empty i
  have hsound : Sound v := hv ▸ h.sound.clearFlag
  have hfetch : ({ t.fetch 0 with allocFailed := false } : FsState) = v.fetch 0 := by
    rw [hv]
    rfl
  have hmem : (v.fetch 0).inodeHashTable 0 = some ⟨v.diskDinode 0, false, 1⟩ := by
    rw [FsState.fetch, inodeHashTable_setInode_self, hempty]
  have hzero : (0 : ℕ) < nrInodes := by decide
  have hdinode : ∀ i < nrInodes, (v.fetch 0).dinode i = s.dinode i := fun i hi ↦ by
    rw [dinode_fetch, ← h.dinode i hi, hv]
    rfl
  have hcontent : ∀ i < nrInodes, (v.fetch 0).content i = s.content i := fun i hi ↦ by
    rw [content_fetch, ← h.content i hi, hv]
    rfl
  have hinodes : (v.fetch 0).inodeFreemap.allocated = s.inodeFreemap.allocated := by
    rw [← h.inodes, hv]
    rfl
  have hown : ∀ i < nrInodes, (v.fetch 0).own i = s.own i := fun i hi ↦ by
    rw [own_fetch, ← h.own i hi, hv]
    rfl
  have hsb : (v.fetch 0).sb = s.sb := by
    rw [← h.sb, hv]
    rfl
  have hcalm : Calm (v.fetch 0) :=
    Calm.fetch ⟨hsound, fun i inode hi ↦ absurd ((hempty i).symm.trans hi) (by simp)⟩ hzero
  have hroot : T.isDir 0 := hrep.root ▸ T.isDir_root
  rw [hfetch]
  refine ⟨⟨⟨hcalm, hrep.of_dinode hinodes hdinode hcontent, fun d _ inode hd ↦ ?_, hroot, _, hmem⟩,
    hfit, ?_, by rw [hsb]; exact hlimit⟩, hsb, hinodes,
    hs.core.allocated_congr hcalm.core hown, hdinode, hcontent⟩
  · by_cases hd0 : d = 0
    · subst hd0
      rw [hmem, Option.some.injEq] at hd
      rw [← hd]
      rfl
    · rw [FsState.fetch, inodeHashTable_setInode_of_ne _ _ hd0, hempty] at hd
      exact absurd hd (by simp)
  · have hnone : Referenced (fun _ ↦ 0) v := ⟨hsound, fun i ↦ by rw [hempty]; rfl⟩
    have htaken := triple_getInode _ 0 hnone (testfsGetInode_fetch hsound.core.layout hzero)
    have honly : take (fun _ ↦ 0) 0 = only 0 := by
      funext i
      by_cases hi : i = 0
      · simp [take, only, hi]
      · simp [take, only, hi]
    rw [honly] at htaken
    exact htaken

/-- A process stops and the next one starts: it finds the same tree and the same files. -/
theorem Settled.restart (h : Settled T dirs s cur) :
    ∃ u t, (unmount cur).run s = .ok ((), u) ∧ OperatingSystems.Fs.mount.run u.dev.unmounted =
      .ok ((), t) ∧ Settled T dirs t 0 ∧ SameVolume s t := by
  obtain ⟨v, hput, hfetch, hsound, hempty⟩ := h.putInode
  have hsb : v.sb = s.sb := by
    rw [← hfetch]
    rfl
  have hlimit : v.sb.maxFsBlocks ≤ nrDataBlocks := by
    rw [hsb]
    exact h.limit
  obtain ⟨u, t, hclose, hinit, hre⟩ := hsound.remount hlimit hempty
  have hdinode : ∀ i < nrInodes, v.dinode i = s.dinode i := fun i _ ↦ by
    rw [← hfetch, dinode_fetch]
  have hcontent : ∀ i < nrInodes, v.content i = s.content i := fun i _ ↦ by
    rw [← hfetch, content_fetch]
  have hinodes : v.inodeFreemap = s.inodeFreemap := by
    rw [← hfetch]
    rfl
  have hblocks : v.blockFreemap = s.blockFreemap := by
    rw [← hfetch]
    rfl
  have hrep : Represents v T dirs :=
    h.inTree.represents.of_dinode (by rw [hinodes]) hdinode hcontent
  obtain ⟨hsettled, hsame⟩ := hre.settled hsound hrep h.fit hlimit
  exact ⟨u, _, by rw [unmount, Program.run_bind hput, hclose], hre.mount hinit, hsettled,
    SameVolume.trans ⟨hsb, by rw [hinodes], by rw [hblocks], hdinode, hcontent⟩ hsame⟩

end Mounting

/-! ### Lines -/

/-- `pargs` of `main`: the line behind its first word. If it is a null pointer, the first call of
`strtok_r` in `parse_command` has two of them. -/
def restOfLine (line : List UInt8) : Option (List UInt8) :=
  (strtokR none lineEnds (strtokR (some line) blanks none).2).1

/-- A line that can be read: no call of `strtok_r` has two null pointers, unless the C library is
lenient and returns a null pointer for them. Its command neither spoils its directory nor lists a
file, and it stays in range. -/
def Harmless (lenient : Prop) : Host → HostMove → Prop
  | .on fs sh, .line _ line =>
    (parseLine sh.context (lineString line) ≠ none →
      restOfLine (lineString line) ≠ none ∨ lenient) ∧
    ∀ c, sh.command line = some c →
      ¬ Session.SpoilsDir ⟨fs, sh.curDir⟩ c ∧ ¬ Session.ListsFile ⟨fs, sh.curDir⟩ c ∧
        InRange fs sh.curDir c
  | _, _ => True

section Lines

variable {T : NameTree ℕ CString} {dirs : ℕ → List Record} {s t : FsState} {cur depth : ℕ}
  {c : Command} {sh sh' : Shell} {line : List UInt8} {lenient : Prop}

/-- Only the commands that read use their depth. -/
theorem Command.handleCommand_depth (h : ¬ c.Reads) (depth depth' : ℕ) :
    handleCommand depth cur c = handleCommand depth' cur c := by
  obtain ⟨name, args⟩ := c
  rw [Command.Reads, not_and_or, not_and_or, not_and_or, not_not, not_not, not_not, not_not] at h
  rcases h with rfl | rfl | rfl | rfl
  · rfl
  · rfl
  · rfl
  · rfl

/-- A command in range keeps the size of the file system. -/
theorem InTree.maxFsBlocks_kept (h : InTree T dirs s cur) (hfit : RecordsFit T dirs)
    (hrange : InRange s cur c) {out : Outcome}
    (hrun : (OperatingSystems.Fs.handleCommand depth cur c).run s = .ok (out, t)) :
    t.sb.maxFsBlocks = s.sb.maxFsBlocks := by
  by_cases hreads : c.Reads
  · have hsb := ((ignoresTable_sameDisk s).handleCommand hreads (SameDisk.refl s) hrun).sb
    exact congrArg DsuperBlock.maxFsBlocks hsb
  · obtain ⟨bound, hbound⟩ := h.handleCommand_returns hfit hrange
    obtain ⟨out', t', hrun', hlimit⟩ := hbound bound le_rfl
    rw [Command.handleCommand_depth hreads bound depth, hrun] at hrun'
    obtain ⟨-, rfl⟩ := Prod.mk.inj (Except.ok.inj hrun')
    exact hlimit

/-- A harmless command that returns leaves a state in which the process can stop. -/
theorem Settled.handleCommand (h : Settled T dirs s cur)
    (hspoils : ¬ Session.SpoilsDir ⟨s, cur⟩ c) (hlist : ¬ Session.ListsFile ⟨s, cur⟩ c)
    (hrange : InRange s cur c) {out : Outcome}
    (hrun : (OperatingSystems.Fs.handleCommand depth cur c).run s = .ok (out, t)) :
    ∃ T' dirs', Settled T' dirs' t out.curDir := by
  have hlimit := h.inTree.maxFsBlocks_kept h.fit hrange hrun
  have hmoved := Referenced.handleCommand (p := ⟨s, cur⟩) h.holds (only_ne_zero _) hlist hrun
  rw [Moved, drop_take_only] at hmoved
  rcases h.inTree.handleCommand_cases h.fit hrun with
    ⟨T', dirs', htree, hfit⟩ | ⟨type, name, hmakes, hspoiled⟩
  · exact ⟨T', dirs', htree, hfit, hmoved, by rw [hlimit]; exact h.limit⟩
  · exact absurd ⟨type, name, dirs cur, hmakes, h.inTree.represents.records _ h.inTree.isDir,
      hspoiled.spoils⟩ hspoils

/-- A line either calls a command of the file system or leaves it and the current directory alone.
-/
theorem Shell.mainTurn_cases (sh : Shell) (line : List UInt8) :
    (∃ c context, sh.command line = some c ∧ ∀ depth, mainTurn depth sh line = do
      let out ← OperatingSystems.Fs.handleCommand depth sh.curDir c
      pure ⟨context, out.curDir, sh.canQuit⟩) ∨
    ∃ sh' : Shell, sh'.curDir = sh.curDir ∧ ∀ depth, mainTurn depth sh line = pure sh' := by
  cases hparse : parseLine sh.context (lineString line) with
  | none => exact Or.inr ⟨sh, rfl, fun depth ↦ by rw [mainTurn, hparse]⟩
  | some parsed =>
    obtain ⟨⟨name, func, maxArgs⟩, context⟩ := parsed
    cases func with
    | help =>
      refine Or.inr ⟨⟨context, sh.curDir, sh.canQuit || false⟩, rfl, fun depth ↦ ?_⟩
      rw [mainTurn, hparse]
      rfl
    | quit =>
      refine Or.inr ⟨⟨context, sh.curDir, sh.canQuit || true⟩, rfl, fun depth ↦ ?_⟩
      rw [mainTurn, hparse]
      rfl
    | fs command =>
      refine Or.inl ⟨⟨command, context.args⟩, context, ?_, fun depth ↦ ?_⟩
      · rw [Shell.command, hparse]
      · rw [mainTurn, hparse]
        simp only [callFunc, reduceCtorEq, decide_false, Bool.or_false]

/-- A harmless line is answered, if its command's recursions may go deep enough. -/
theorem Settled.mainTurn_returns (h : Settled T dirs s sh.curDir)
    (hline : Harmless lenient (.on s sh) (.line depth line)) :
    ∃ bound, ∀ depth' ≥ bound, ∃ sh' t, (mainTurn depth' sh line).run s = .ok (sh', t) := by
  rcases sh.mainTurn_cases line with ⟨c, context, hcommand, hturn⟩ | ⟨sh', -, hturn⟩
  · obtain ⟨-, -, hrange⟩ := hline.2 c hcommand
    obtain ⟨bound, hbound⟩ := h.inTree.handleCommand_returns h.fit hrange
    refine ⟨bound, fun depth' hdepth ↦ ?_⟩
    obtain ⟨out, t, hrun, -⟩ := hbound depth' hdepth
    exact ⟨_, t, by rw [hturn, Program.run_bind hrun, Program.pure_run]⟩
  · exact ⟨0, fun depth' _ ↦ ⟨sh', s, by rw [hturn, Program.pure_run]⟩⟩

/-- A harmless line leaves a state in which the process can stop. -/
theorem Settled.mainTurn (h : Settled T dirs s sh.curDir)
    (hline : Harmless lenient (.on s sh) (.line depth line))
    (hrun : (OperatingSystems.Fs.mainTurn depth sh line).run s = .ok (sh', t)) :
    ∃ T' dirs', Settled T' dirs' t sh'.curDir := by
  rcases sh.mainTurn_cases line with ⟨c, context, hcommand, hturn⟩ | ⟨sh'', hcur, hturn⟩
  · rw [hturn] at hrun
    obtain ⟨out, u, hcall, hrest⟩ := Program.bind_eq_ok_iff.mp hrun
    obtain ⟨rfl, rfl⟩ := Prod.mk.inj (Except.ok.inj hrest)
    obtain ⟨hspoils, hlist, hrange⟩ := hline.2 c hcommand
    exact h.handleCommand hspoils hlist hrange hcall
  · rw [hturn] at hrun
    obtain ⟨rfl, rfl⟩ := Prod.mk.inj (Except.ok.inj hrun)
    exact ⟨T, dirs, by rw [hcur]; exact h⟩

end Lines

/-! ### Runs -/

/-- The device that `mktestfs` leaves, and every host that processes with harmless lines lead to. -/
def HostRun (lenient : Prop) (maxFsBlocks : ℕ) (host : Host) : Prop :=
  ∃ s, mktestfs.run (testfsMakeSuperBlock maxFsBlocks) = .ok ((), s) ∧
    Reaches (Harmless lenient) Host.step (.off s.dev) host

/-- A process can stop, or start, in a state in which it can stop. -/
def Host.Ready : Host → Prop
  | .off dev => ∃ t T dirs, mount.run dev.unmounted = .ok ((), t) ∧ Settled T dirs t 0
  | .on fs sh => ∃ T dirs, Settled T dirs fs sh.curDir

section Runs

variable {lenient : Prop} {maxFsBlocks : ℕ} {host : Host} {fs : FsState} {sh : Shell}

/-- A run of the program as an optional result. -/
theorem map_toOption_eq_some {α β : Type} {m : FsProgram α} {s : FsState} {f : α × FsState → β}
    {b : β} : (m.run s).toOption.map f = some b ↔ ∃ a t, m.run s = .ok (a, t) ∧ f (a, t) = b := by
  cases m.run s with
  | error e => simp [Except.toOption]
  | ok result =>
    obtain ⟨a, t⟩ := result
    simp only [Except.toOption, Option.map_some, Option.some.injEq, Except.ok.injEq,
      Prod.mk.injEq]
    constructor
    · exact fun hb ↦ ⟨a, t, ⟨rfl, rfl⟩, hb⟩
    · rintro ⟨_, _, ⟨rfl, rfl⟩, hb⟩
      exact hb

/-- The first process finds the root directory. -/
theorem mktestfs_settled (hpos : 0 < maxFsBlocks) (hmax : maxFsBlocks ≤ nrDataBlocks)
    {s : FsState} (hmake : mktestfs.run (testfsMakeSuperBlock maxFsBlocks) = .ok ((), s)) :
    ∃ t, freshFs maxFsBlocks = .ok t ∧ mount.run s.dev.unmounted = .ok ((), t) ∧
      Settled (NameTree.single 0) (fun _ ↦ emptyDir 0 0 (by decide) (by decide)) t 0 := by
  obtain ⟨v, u, t, hmake', hinit, -, -, hre⟩ := mktestfs_spec hmax
  obtain ⟨-, rfl⟩ := Prod.mk.inj (Except.ok.inj (hmake'.symm.trans hmake))
  obtain ⟨w, hfresh, hspec⟩ := freshFs_spec hmax
  obtain ⟨-, -, hflag, htree⟩ := hspec.started hpos
  have hmount : mount.run u = .ok ((), t.fetch 0) := by
    rw [mount, Program.run_bind hinit]
    exact testfsGetInode_fetch hre.sound.core.layout (by decide)
  have hw : freshFs maxFsBlocks = .ok (t.fetch 0) := by
    rw [freshFs, Program.run_bind hmake', hmount]
    rfl
  obtain rfl := Except.ok.inj (hw.symm.trans hfresh)
  refine ⟨_, hfresh, ?_, htree, recordsFit_emptyDir _,
    Started.referenced (p := ⟨t.fetch 0, 0⟩) hmax ⟨hfresh, rfl⟩, by
      rw [hspec.maxFsBlocks]; exact hmax⟩
  rw [hre.mount hinit, ← hflag]

/-- The hosts of a run are ready. -/
theorem HostRun.ready (hpos : 0 < maxFsBlocks) (hmax : maxFsBlocks ≤ nrDataBlocks)
    (h : HostRun lenient maxFsBlocks host) : host.Ready := by
  obtain ⟨s, hmake, hrun⟩ := h
  refine hrun.invariant (I := Host.Ready) (fun host move next hready hharmless hstep ↦ ?_) ?_
  · cases host with
    | off dev =>
      cases move with
      | start context =>
        obtain ⟨t, T, dirs, hmount, hsettled⟩ := hready
        obtain ⟨_, u, hrun', rfl⟩ := map_toOption_eq_some.mp hstep
        obtain ⟨-, rfl⟩ := Prod.mk.inj (Except.ok.inj (hmount.symm.trans hrun'))
        exact ⟨T, dirs, hsettled⟩
      | line depth line => exact absurd hstep (by simp [Host.step])
      | stop => exact absurd hstep (by simp [Host.step])
    | on fs sh =>
      obtain ⟨T, dirs, hsettled⟩ := hready
      cases move with
      | start context => exact absurd hstep (by simp [Host.step])
      | line depth line =>
        rw [Host.step] at hstep
        split_ifs at hstep with hquit
        obtain ⟨sh', t, hturn, rfl⟩ := map_toOption_eq_some.mp hstep
        exact hsettled.mainTurn hharmless hturn
      | stop =>
        obtain ⟨_, u, hstop, rfl⟩ := map_toOption_eq_some.mp hstep
        obtain ⟨u', t, hstop', hstart, hsettled', -⟩ := hsettled.restart
        obtain ⟨-, rfl⟩ := Prod.mk.inj (Except.ok.inj (hstop'.symm.trans hstop))
        exact ⟨t, T, dirs, hstart, hsettled'⟩
  · obtain ⟨t, -, hmount, hsettled⟩ := mktestfs_settled hpos hmax hmake
    exact ⟨t, _, _, hmount, hsettled⟩

/-- The process of a shell that has just started. -/
def newShell : Shell := ⟨⟨0, fun _ ↦ none⟩, 0, false⟩

/-- The line `create f`. -/
def createLine : List UInt8 := nameBytes "create" ++ [32, 102, 10]

/-- `create f` in a new file system of 128 blocks is harmless, whatever the C library does. -/
theorem Fresh.harmless_create {s : FsState} (h : Fresh 128 s) :
    Harmless False (.on s newShell) (.line 0 createLine) := by
  have hcommand : newShell.command createLine = some ⟨.create, [nameF]⟩ := rfl
  have hzero : (0 : ℕ) < nrInodes := by decide
  obtain ⟨-, -, -, htree⟩ := h.started (by decide)
  have hdir := htree.represents.records 0 htree.isDir
  refine ⟨fun _ ↦ Or.inl (by decide +kernel), fun c hc ↦ ?_⟩
  obtain rfl := Option.some.inj (hcommand.symm.trans hc)
  refine ⟨?_, ?_, ?_, ?_⟩
  · exact Session.not_spoilsDir rfl (by decide)
      (le_trans (by decide) (h.le_room (by decide) (by decide)))
  · rintro ⟨hls | hlsr, -⟩
    · exact absurd hls (by decide)
    · exact absurd hlsr (by decide)
  · intro type name hmakes
    obtain rfl : nameF = name := by simpa using hmakes.1
    have hsize : (s.dinode 0).iSize < 2 ^ 31 := by
      rw [hdir.size, length_emptyDir hzero hzero]
      decide
    exact ⟨by decide, hsize⟩
  · intro name offsetStr sizeStr offset size hread
    exact absurd hread (by decide)

/-- A process starts on a new file system of 128 blocks. -/
theorem hostRun_start : ∃ fs, freshFs 128 = .ok fs ∧ Fresh 128 fs ∧
    HostRun False 128 (.on fs newShell) := by
  obtain ⟨v, s, t, hmake, -⟩ := mktestfs_spec (by decide : 128 ≤ nrDataBlocks)
  obtain ⟨w, hw, hmount, -⟩ := mktestfs_settled (by decide) (by decide) hmake
  obtain ⟨w', hw', hspec⟩ := freshFs_spec (by decide : 128 ≤ nrDataBlocks)
  obtain rfl := Except.ok.inj (hw.symm.trans hw')
  have hstart : (Host.off s.dev).step (.start newShell.context) = some (.on w newShell) :=
    map_toOption_eq_some.mpr ⟨(), w, hmount, rfl⟩
  exact ⟨w, hw, hspec, s, hmake, Relation.ReflTransGen.single ⟨_, trivial, hstart⟩⟩

/-- A process makes `f` in a new file system of 128 blocks. -/
theorem hostRun_create : ∃ fs sh, HostRun False 128 (.on fs sh) := by
  obtain ⟨p₀, p, T, dirs, c, ⟨hfresh, hroot⟩, -, hstep, hcreated⟩ :=
    fresh_create (by decide : 0 < 128) (by decide)
  obtain ⟨w, hw, hspec, s, hmake, hrun⟩ := hostRun_start
  obtain rfl := Except.ok.inj (hw.symm.trans hfresh)
  obtain ⟨out, hcreate, -⟩ := Session.step_eq_some_iff.mp hstep
  rw [hroot] at hcreate
  obtain ⟨sh, hturn⟩ : ∃ sh, (mainTurn 0 newShell createLine).run p₀.fs = .ok (sh, p.fs) :=
    ⟨_, Program.run_bind hcreate⟩
  have hline : (Host.on p₀.fs newShell).step (.line 0 createLine) = some (.on p.fs sh) :=
    map_toOption_eq_some.mpr ⟨sh, p.fs, hturn, rfl⟩
  exact ⟨p.fs, sh, s, hmake, hrun.tail ⟨_, hspec.harmless_create, hline⟩⟩

/-- Assumes: a device that `mktestfs` has made with a block for the root, any number of processes
with lines that are harmless, with a lenient C library or with one that is not, and a process that
runs. The directories are a tree. If the process stops, it ends as it should, and a new process
finds the same tree and the same files from the root. -/
theorem processes_keep_files (hpos : 0 < maxFsBlocks) (hmax : maxFsBlocks ≤ nrDataBlocks)
    (hrun : HostRun lenient maxFsBlocks (.on fs sh)) :
    ∃ T dirs dev t, InTree T dirs fs sh.curDir ∧
      Host.step (.on fs sh) .stop = some (.off dev) ∧
      (∀ context, Host.step (.off dev) (.start context) = some (.on t ⟨context, 0, false⟩)) ∧
      InTree T dirs t 0 ∧ SameVolume fs t := by
  obtain ⟨T, dirs, hsettled⟩ := hrun.ready hpos hmax
  obtain ⟨u, t, hstop, hstart, hsettled', hsame⟩ := hsettled.restart
  exact ⟨T, dirs, u.dev, t, hsettled.inTree, map_toOption_eq_some.mpr ⟨(), u, hstop, rfl⟩,
    fun context ↦ map_toOption_eq_some.mpr ⟨(), t, hstart, rfl⟩, hsettled'.inTree, hsame⟩

/-- The process that has made `f` stops, and the next one starts. -/
theorem processes_keep_files_create : ∃ fs sh, HostRun False 128 (.on fs sh) ∧
    ∃ T dirs dev t, InTree T dirs fs sh.curDir ∧
      Host.step (.on fs sh) .stop = some (.off dev) ∧
      (∀ context, Host.step (.off dev) (.start context) = some (.on t ⟨context, 0, false⟩)) ∧
      InTree T dirs t 0 ∧ SameVolume fs t := by
  obtain ⟨fs, sh, hrun⟩ := hostRun_create
  exact ⟨fs, sh, hrun, processes_keep_files (by decide) (by decide) hrun⟩

/-- Under the same assumptions no process gets stuck: it can start, it can stop, and it answers
every harmless line, if the recursions may go deep enough. -/
theorem processes_answer (hpos : 0 < maxFsBlocks) (hmax : maxFsBlocks ≤ nrDataBlocks)
    (hrun : HostRun lenient maxFsBlocks host) :
    (∀ dev context, host = .off dev → ∃ next, host.step (.start context) = some next) ∧
    ∀ fs sh, host = .on fs sh → (∃ next, host.step .stop = some next) ∧
      ∀ depth line, sh.canQuit = false → Harmless lenient host (.line depth line) →
        ∃ bound, ∀ depth' ≥ bound, ∃ next, host.step (.line depth' line) = some next := by
  have hready := hrun.ready hpos hmax
  refine ⟨?_, ?_⟩
  · rintro dev context rfl
    obtain ⟨t, T, dirs, hmount, -⟩ := hready
    exact ⟨_, map_toOption_eq_some.mpr ⟨(), t, hmount, rfl⟩⟩
  · rintro fs sh rfl
    obtain ⟨T, dirs, hsettled⟩ := hready
    refine ⟨?_, fun depth line hquit hharmless ↦ ?_⟩
    · obtain ⟨u, t, hstop, -⟩ := hsettled.restart
      exact ⟨_, map_toOption_eq_some.mpr ⟨(), u, hstop, rfl⟩⟩
    · obtain ⟨bound, hbound⟩ := hsettled.mainTurn_returns hharmless
      refine ⟨bound, fun depth' hdepth ↦ ?_⟩
      obtain ⟨sh', t, hturn⟩ := hbound depth' hdepth
      refine ⟨.on t sh', ?_⟩
      rw [Host.step, hquit, if_neg Bool.false_ne_true]
      exact map_toOption_eq_some.mpr ⟨sh', t, hturn, rfl⟩

/-- A process on a new file system can stop, and it answers `create f`. -/
theorem processes_answer_create : ∃ fs, HostRun False 128 (.on fs newShell) ∧
    (∃ next, Host.step (.on fs newShell) .stop = some next) ∧
    ∃ bound, ∀ depth ≥ bound, ∃ next,
      Host.step (.on fs newShell) (.line depth createLine) = some next := by
  obtain ⟨fs, -, hspec, hrun⟩ := hostRun_start
  obtain ⟨hstop, hanswer⟩ :=
    (processes_answer (by decide) (by decide) hrun).2 fs newShell rfl
  exact ⟨fs, hrun, hstop, hanswer 0 createLine rfl hspec.harmless_create⟩

end Runs

end OperatingSystems.Fs
