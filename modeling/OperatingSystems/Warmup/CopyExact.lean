import OperatingSystems.Warmup.CopyTree

/-!
# Exact copies of directories

`cpr` returns if the kernel refuses nothing and there is room at the destination
(`copyDir_returns`). When it returns, nothing outside the destination has changed, and the
destination is an exact copy, with its permissions and without what is neither a file nor a
directory, if and only if none of the three failures that `cpr` does not notice has changed
anything: each `write` has transferred its whole piece, `readdir` has returned all names, and the
`stat` of each file has found its permissions (`cpr_mirrors_iff`).
-/

set_option autoImplicit false
set_option relaxedAutoImplicit false

namespace OperatingSystems.Warmup

open Library

section Copies

variable {sys : System} {p q : List FileName} {t t' t'' : Files} {src dest : List UInt8}
  {recur : List UInt8 → List UInt8 → Files → Except Failure Files} {depth : ℕ}

/-! ### When `cpr` returns -/

/-- The kernel refuses nothing while a file is copied. -/
structure Kernel.Willing (k : Kernel) : Prop where
  opens : k.opens = true
  creates : k.creates = true
  read : ∀ i unread, ∃ n, k.read i unread = some n
  write : ∀ i count, ∃ n, k.write i count = some n
  changesMode : k.changesMode = true

/-- The kernel refuses nothing. -/
structure System.Willing (sys : System) : Prop where
  permits : ∀ call r, sys.permits call r = true
  kernel : ∀ r, (sys.kernel r).Willing

theorem copyLoop_returns {k : Kernel} (hk : k.Willing) {i : ℕ} {unread dest : List UInt8} :
    ∃ result, copyLoop k i unread dest = .ok result := by
  induction hlength : unread.length using Nat.strongRecOn generalizing i unread dest with
  | _ length ih =>
    subst hlength
    obtain ⟨ret, hread⟩ := hk.read i unread.length
    rw [copyLoop]
    split
    · rename_i hnone
      rw [hread] at hnone
      cases hnone
    · rename_i ret' hread'
      obtain rfl := Option.some.inj (hread.symm.trans hread')
      split_ifs with hret
      · exact ⟨dest, rfl⟩
      · obtain ⟨n, hwrite⟩ := hk.write i ret
        have hle := k.read_le i _ ret hread
        rw [hwrite]
        exact ih _ (by rw [List.length_drop]; omega) rfl

theorem copyFile_returns {k : Kernel} (hk : k.Willing) (content : List UInt8) :
    ∃ result, copyFile k content = .ok result := by
  obtain ⟨result, hloop⟩ := @copyLoop_returns k hk 0 content []
  refine ⟨result, ?_⟩
  rw [copyFile, if_pos hk.opens, if_pos hk.creates, hloop]
  exact if_pos hk.changesMode

theorem copyFileAt_returns (hsys : sys.Willing) {x : FileNode} (hsrc : sys.locate src = some p)
    (hdest : sys.locate dest = some q) (hnode : t.node p = some x) (hroom : t.Room q) :
    ∃ t', copyFileAt sys src dest t = .ok t' := by
  have hopen : (t.node p).filter (fun _ ↦ (sys.kernel p).opens) = some x := by
    rw [hnode, (hsys.kernel p).opens]
    rfl
  have hcreat : sys.creat t q = some (t.make q ⟨sys.newMode, .reg []⟩ hroom) := by
    rw [System.creat, hroom.2.1]
    exact dif_pos hroom
  obtain ⟨result, hcopy⟩ := copyFile_returns (hsys.kernel p)
    (contentAt (t.make q ⟨sys.newMode, .reg []⟩ hroom) p)
  rw [copyFileAt, orFail_bind hsrc, orFail_bind hopen, orFail_bind hdest, orFail_bind hcreat, hcopy]
  exact ⟨_, rfl⟩

/-- `recur` returns for every directory that it has room for. -/
def ReturnsDirs (sys : System) (depth : ℕ)
    (recur : List UInt8 → List UInt8 → Files → Except Failure Files) : Prop :=
  ∀ {src dest : List UInt8} {p q : List FileName} {t : Files}, sys.locate src = some p →
    sys.locate dest = some q → (t.node p).any FileNode.isDir = true → ¬ p <+: q → t.Room q →
    (∀ r, (t.node (p ++ r)).isSome → r.length < depth) → ∃ t', recur src dest t = .ok t'

theorem stat_returns (hsys : sys.Willing) (call : DirCall) (hsrc : sys.locate src = some p) :
    sys.stat call t src = t.node p := by
  rw [System.stat, hsrc, Option.bind_some, if_pos (hsys.permits call p)]

theorem copyNode_returns (hsys : sys.Willing) (hreturns : ReturnsDirs sys depth recur)
    {x : FileNode} (hsrc : sys.locate src = some p) (hdest : sys.locate dest = some q)
    (hnode : t.node p = some x) (hnot : ¬ p <+: q) (hroom : t.Room q)
    (hdepth : ∀ r, (t.node (p ++ r)).isSome → r.length < depth) :
    ∃ t', copyNode sys recur src dest t = .ok t' := by
  rw [copyNode, stat_returns hsys .stat hsrc, orFail_bind hnode]
  obtain ⟨mode, kind⟩ := x
  cases kind with
  | dir => exact hreturns hsrc hdest (by rw [hnode]; rfl) hnot hroom hdepth
  | reg content => exact copyFileAt_returns hsys hsrc hdest hnode hroom
  | other => exact ⟨t, rfl⟩

theorem copyEntries_returns (hsys : sys.Willing) (hrecur : CopiesDirs sys depth recur)
    (hreturns : ReturnsDirs sys depth recur) (hsrc : sys.locate src = some p)
    (hdest : sys.locate dest = some q) (happart : Apart p q) (names : List FileName) :
    ∀ {t : Files}, names.Nodup →
    (∀ n ∈ names, t.node (q ++ [n]) = none) → (∀ n ∈ names, (t.node (p ++ [n])).isSome) →
    (t.node q).any FileNode.isDir = true →
    (∀ r, (t.node (p ++ r)).isSome → r.length < depth + 1) →
    ∃ t', copyEntries sys recur src dest (names.map FileName.bytes) t = .ok t' := by
  induction names with
  | nil => exact fun _ _ _ _ _ ↦ ⟨_, rfl⟩
  | cons n names ih =>
    intro t hnodup hfree hsome hdir hdepth
    obtain ⟨x, hx⟩ := Option.isSome_iff_exists.mp (hsome n List.mem_cons_self)
    have hroom : t.Room (q ++ [n]) :=
      ⟨by simp, hfree n List.mem_cons_self, by rwa [List.dropLast_concat]⟩
    have hnot := happart.entry n
    have hdepth' := depth_of_entry hdepth n
    obtain ⟨t', hrun⟩ := copyNode_returns hsys hreturns (System.locate_append hsrc n)
      (System.locate_append hdest n) hx hnot hroom hdepth'
    have hhead := copyNode_settles hrecur (System.locate_append hsrc n)
      (System.locate_append hdest n) hnot (fun _ _ _ ↦ hroom.2.1)
      (fun y hy ↦ absurd (hroom.2.1.symm.trans hy) nofun) hdepth'
    rw [hrun] at hhead
    obtain ⟨hnotMem, hnodup⟩ := List.nodup_cons.mp hnodup
    have hsource := hhead.source happart
    have hself : t'.node q = t.node q := hhead.frame q (not_prefix_self q n)
    obtain ⟨t'', htail⟩ := ih hnodup (fun m hm ↦ by
        rw [hhead.sibling fun heq ↦ hnotMem (heq ▸ hm)]
        exact hfree m (List.mem_cons_of_mem n hm))
      (fun m hm ↦ by
        rw [hsource]
        exact hsome m (List.mem_cons_of_mem n hm))
      (by rwa [hself]) fun r hr ↦ hdepth r (by rwa [hsource] at hr)
    refine ⟨t'', ?_⟩
    rw [List.map_cons, copyEntries, if_neg (not_or.mpr ⟨n.ne_dot, n.ne_dotdot⟩), hrun]
    exact htail

/-- `copy_dir` returns if the kernel refuses nothing. -/
theorem copyDir_returns (hsys : sys.Willing) (depth : ℕ) :
    ReturnsDirs sys depth (copyDir sys depth) := by
  induction depth with
  | zero =>
    intro src dest p q t hsrc hdest hdir hnot hroom hdepth
    exact absurd (hdepth [] (by rw [List.append_nil]; exact isSome_of_any hdir)) (Nat.not_lt_zero _)
  | succ depth ih =>
    intro src dest p q t hsrc hdest hdir hnot hroom hdepth
    obtain ⟨x, hnode⟩ := Option.isSome_iff_exists.mp (isSome_of_any hdir)
    have happart := apart_of_free hnode hnot hroom.2.1
    have hopendir : sys.opendir t src =
        some ([46] :: [46, 46] :: (sys.names t p).map FileName.bytes) := by
      rw [System.opendir, hsrc, Option.bind_some]
      exact if_pos ⟨hsys.permits .opendir p, hdir⟩
    have hmkdir : sys.mkdir t dest = some (t.make q ⟨sys.newMode, .dir⟩ hroom) := by
      rw [System.mkdir, hdest, Option.bind_some]
      exact dif_pos ⟨hsys.permits .mkdir q, hroom⟩
    have hmakes := mkdir_spec hdest hmkdir
    have hsource := hmakes.source hnot
    have hfree : ∀ n ∈ sys.names t p,
        (t.make q ⟨sys.newMode, .dir⟩ hroom).node (q ++ [n]) = none :=
      fun n _ ↦ by simpa using hmakes.below n []
    have hdepth' : ∀ r, ((t.make q ⟨sys.newMode, .dir⟩ hroom).node (p ++ r)).isSome →
        r.length < depth + 1 := fun r hr ↦ hdepth r (by rwa [hsource] at hr)
    obtain ⟨t₂, hrun⟩ := copyEntries_returns hsys (copyDir_settles sys depth) ih hsrc hdest happart
      (sys.names t p) (sys.nodup_names t p) hfree
      (fun n hn ↦ by rw [hsource]; exact (System.mem_names.mp hn).2)
      (by rw [hmakes.made]; rfl) hdepth'
    have hentries := copyEntries_settles (copyDir_settles sys depth) hsrc hdest happart
      (sys.names t p) (sys.nodup_names t p) hfree hdepth'
    rw [hrun] at hentries
    have hself : t₂.node q = some ⟨sys.newMode, .dir⟩ := by
      rw [hentries.frame q fun n _ ↦ not_prefix_self q n, hmakes.made]
    have hchmod : sys.chmod t₂ dest x.mode = some (setMode t₂ q x.mode) := by
      rw [System.chmod, hdest, Option.bind_some]
      exact if_pos ⟨hsys.permits .chmod q, by rw [hself]; rfl⟩
    refine ⟨setMode t₂ q x.mode, ?_⟩
    rw [copyDir]
    refine (orFail_bind ((stat_returns hsys .statDir hsrc).trans hnode) _).trans ?_
    refine (orFail_bind hmkdir _).trans ((orFail_bind hopendir _).trans ?_)
    rw [copyEntries, if_pos (.inl rfl), copyEntries, if_pos (.inr rfl), hrun]
    exact congrArg (orFail · Failure.chmod) hchmod

/-! ### Exact copies -/

/-- Files and directories are copied, the rest is left out. -/
def FileNode.isCopied (x : FileNode) : Bool := decide (x.kind ≠ .other)

theorem filter_isCopied {x : FileNode} (hkind : x.kind ≠ .other) :
    (some x).filter FileNode.isCopied = some x :=
  Option.filter_some.trans (if_pos (decide_eq_true hkind))

/-- Below a path none of the failures that `cpr` does not notice changes anything: `readdir` returns
all names, each `write` transfers its whole piece, and the `stat` of each file finds its
permissions, or they were there before. -/
structure System.Undisturbed (sys : System) (t : Files) (p : List FileName) : Prop where
  lists : ∀ r n x, t.node (p ++ r ++ [n]) = some x → x.kind ≠ .other → n ∈ sys.listing (p ++ r)
  writes : ∀ r mode content, t.node (p ++ r) = some ⟨mode, .reg content⟩ →
    (sys.kernel (p ++ r)).WritesAll content.length
  modes : ∀ r mode content, t.node (p ++ r) = some ⟨mode, .reg content⟩ →
    sys.permits .statFile (p ++ r) = true ∨ sys.leftover (p ++ r) = mode

/-- The permissions of a file are found, or were there before. -/
theorem System.fileMode_eq_iff {mode : BitVec 12} : sys.fileMode p mode = mode ↔
    sys.permits .statFile p = true ∨ sys.leftover p = mode := by
  rw [System.fileMode]
  split_ifs with hpermits
  · simp [hpermits]
  · simp [hpermits]

/-- The copy of a node is the node itself if its permissions are found and each `write` has
transferred its whole piece. -/
theorem CopyOf.eq_iff {x z : FileNode} (h : CopyOf sys p x z) : z = x ↔
    ∀ mode content, x = ⟨mode, .reg content⟩ →
      (sys.kernel p).WritesAll content.length ∧ sys.fileMode p mode = mode := by
  cases h with
  | dir => exact iff_of_true rfl nofun
  | @reg mode content result hcopy =>
    rw [FileNode.mk.injEq, FileKind.reg.injEq, copyLoop_eq_iff (copyFile_eq_ok hcopy), and_comm]
    constructor
    · rintro hboth mode' content' hx
      obtain ⟨rfl, hreg⟩ := FileNode.mk.inj hx
      exact FileKind.reg.inj hreg ▸ hboth
    · exact fun hall ↦ hall mode content rfl

/-- All that is copied is listed on the way. -/
theorem System.Undisturbed.lists_way (h : sys.Undisturbed t p) {r : List FileName} {x : FileNode}
    (hnode : t.node (p ++ r) = some x) (hkind : x.kind ≠ .other) : sys.Lists p r := by
  refine System.lists_of_forall fun r₁ n r₂ heq ↦ ?_
  rw [heq, List.append_cons r₁ n r₂, ← List.append_assoc, ← List.append_assoc] at hnode
  by_cases hlast : r₂ = []
  · rw [hlast, List.append_nil] at hnode
    exact h.lists r₁ n x hnode hkind
  · -- What has something below it is a directory.
    obtain ⟨y, hy, hdir⟩ : ∃ y, t.node (p ++ r₁ ++ [n]) = some y ∧ y.isDir = true := by
      by_contra hnone
      rw [t.node_append_eq_none (fun a ha ↦ ?_) hlast] at hnode
      · cases hnode
      · by_contra hdir
        exact hnone ⟨a, ha, by simpa using hdir⟩
    refine h.lists r₁ n y hy fun hother ↦ ?_
    rw [FileNode.isDir, hother] at hdir
    cases hdir

/-- A copy is exact if and only if nothing has been missed. -/
theorem Copies.exact_iff (h : Copies sys p q t t') :
    (∀ r, t'.node (q ++ r) = (t.node (p ++ r)).filter FileNode.isCopied) ↔
      sys.Undisturbed t p := by
  constructor
  · intro hexact
    -- Where the copy has a node, the way to it has been listed.
    have hsome : ∀ r x, t.node (p ++ r) = some x → x.kind ≠ .other →
        sys.Lists p r ∧ t'.node (q ++ r) = some x := by
      intro r x hx hkind
      have hy : t'.node (q ++ r) = some x := by rw [hexact, hx, filter_isCopied hkind]
      refine ⟨?_, hy⟩
      by_contra hlists
      rw [(h.copied r).none fun _ hfound ↦ absurd hfound.1 hlists] at hy
      cases hy
    have hfile : ∀ r mode content, t.node (p ++ r) = some ⟨mode, .reg content⟩ →
        (sys.kernel (p ++ r)).WritesAll content.length ∧ sys.fileMode (p ++ r) mode = mode := by
      intro r mode content hx
      obtain ⟨hlists, hy⟩ := hsome r _ hx nofun
      obtain ⟨z, hz, hcopy⟩ := (h.copied r).some _ ⟨hlists, hx⟩ nofun
      obtain rfl := Option.some.inj (hy.symm.trans hz)
      exact hcopy.eq_iff.mp rfl mode content rfl
    refine ⟨fun r n x hx hkind ↦ ?_, fun r mode content hx ↦ (hfile r mode content hx).1,
      fun r mode content hx ↦ System.fileMode_eq_iff.mp (hfile r mode content hx).2⟩
    rw [List.append_assoc] at hx
    exact (hsome _ x hx hkind).1.last
  · intro hall r
    cases hx : t.node (p ++ r) with
    | none =>
      exact (h.copied r).none fun y hfound ↦ absurd (hx.symm.trans hfound.2) nofun
    | some x =>
      by_cases hkind : x.kind = .other
      · rw [Option.filter_some, if_neg (by simp [FileNode.isCopied, hkind])]
        refine (h.copied r).none fun y hfound ↦ ?_
        obtain rfl := Option.some.inj (hx.symm.trans hfound.2)
        exact hkind
      · obtain ⟨z, hz, hcopy⟩ := (h.copied r).some x ⟨hall.lists_way hx hkind, hx⟩ hkind
        have hsame : z = x := hcopy.eq_iff.mpr fun mode content heq ↦ by
          rw [heq] at hx
          exact ⟨hall.writes r mode content hx,
            System.fileMode_eq_iff.mpr (hall.modes r mode content hx)⟩
        rw [hz, hsame, filter_isCopied hkind]

/-- Assumes: the source is a file or a directory, the destination is not below it, and no device or
other special file is at the destination. To a depth that exceeds the height of the tree `cpr` does
not go too deep, and it returns if the kernel refuses nothing and has room at the destination. When
it returns, nothing outside the destination has changed, and the destination is a copy of all files
and directories of the source, with their permissions, if and only if `readdir` has returned all
their names, each `write` has transferred its whole piece, and the `stat` of each file has found its
permissions, or they were there before. -/
theorem cpr_mirrors_iff {x : FileNode} (hsrc : sys.locate src = some p)
    (hdest : sys.locate dest = some q) (hnode : t.node p = some x) (hkind : x.kind ≠ .other)
    (hdevice : ∀ y, t.node q = some y → y.kind ≠ .other) (hnot : ¬ p <+: q)
    (hdepth : t.height < depth) :
    Settles (fun t' : Files ↦ (∀ r, ¬ q <+: r → t'.node r = t.node r) ∧
      ((∀ r, t'.node (q ++ r) = (t.node (p ++ r)).filter FileNode.isCopied) ↔
        sys.Undisturbed t p))
      (cpr sys depth src dest t) ∧
    (sys.Willing → t.Room q → ∃ t', cpr sys depth src dest t = .ok t') := by
  have hbelow : ∀ r, (t.node (p ++ r)).isSome → r.length < depth := by
    intro r hr
    have hle := t.length_le hr
    rw [List.length_append] at hle
    omega
  refine ⟨?_, fun hsys hroom ↦ copyNode_returns hsys (copyDir_returns hsys depth) hsrc hdest hnode
    hnot hroom hbelow⟩
  refine (copyNode_settles (copyDir_settles sys depth) hsrc hdest hnot (fun y hy hother ↦ ?_)
    hdevice hbelow).mono fun t' hcopies ↦ ⟨hcopies.frame, hcopies.exact_iff⟩
  rw [hnode] at hy
  obtain rfl := Option.some.inj hy
  exact absurd hother hkind

end Copies

/-! ### An example -/

/-- The names `a`, `b`, `f` and `g`. -/
def nameA : FileName := ⟨[97], by decide, by decide, by decide, by decide⟩

@[inherit_doc nameA] def nameB : FileName := ⟨[98], by decide, by decide, by decide, by decide⟩

@[inherit_doc nameA] def nameF : FileName := ⟨[102], by decide, by decide, by decide, by decide⟩

@[inherit_doc nameA] def nameG : FileName := ⟨[103], by decide, by decide, by decide, by decide⟩

/-- A directory `a` with a file `f` of two bytes. -/
def oneFile : Files :=
  ((FileTree.single ⟨0o755, .dir⟩).make [nameA] ⟨0o700, .dir⟩ (by decide)).make [nameA, nameF]
    ⟨0o644, .reg [1, 2]⟩ (by decide)

/-- A kernel that permits everything, transfers one byte at a time and lists the names of `oneFile`,
and one that is not there. -/
def bytewise : System where
  cwd := []
  permits _ _ := true
  listing _ := [nameG, nameF, nameA]
  nodup_listing _ := by decide
  leftover _ := 0
  umask := 0o022
  kernel _ := .atMost 1 1 (by decide) (by decide)

theorem willing_bytewise : bytewise.Willing where
  permits _ _ := rfl
  kernel _ := ⟨rfl, rfl, fun _ _ ↦ ⟨_, rfl⟩, fun _ _ ↦ ⟨_, rfl⟩, rfl⟩

/-- Pieces of one byte are written as a whole. -/
theorem writesAll_bytewise (p : List FileName) (size : ℕ) :
    (bytewise.kernel p).WritesAll size := by
  intro i ret n hpos hread hwrite
  have hle : min 1 (min 4096 ((bytewise.kernel p).unreadAt size i)) = ret := Option.some.inj hread
  have hn : min 1 ret = n := Option.some.inj hwrite
  omega

/-- Every name of `oneFile` is listed. -/
theorem undisturbed_bytewise : bytewise.Undisturbed oneFile [nameA] where
  lists r n x hx _ := by
    by_contra hn
    obtain ⟨hg, hf, ha⟩ : n ≠ nameG ∧ n ≠ nameF ∧ n ≠ nameA := by simpa [bytewise] using hn
    have hlast : ([nameA] ++ r ++ [n]).getLast? = some n := List.getLast?_concat ..
    have hfile : [nameA] ++ r ++ [n] ≠ [nameA, nameF] := fun heq ↦ by
      rw [heq] at hlast
      exact hf (Option.some.inj hlast).symm
    have hdir : [nameA] ++ r ++ [n] ≠ [nameA] := fun heq ↦ by
      rw [heq] at hlast
      exact ha (Option.some.inj hlast).symm
    rw [oneFile, FileTree.node_make_of_ne _ hfile, FileTree.node_make_of_ne _ hdir] at hx
    exact absurd hx (by simp [FileTree.single])
  writes _ _ content _ := writesAll_bytewise _ content.length
  modes _ _ _ _ := .inl rfl

/-- `cpr a b` makes a directory `b` with the file. -/
theorem cpr_mirrors_iff_oneFile : ∃ t', cpr bytewise 3 [97] [98] oneFile = .ok t' ∧
    ∀ r, t'.node ([nameB] ++ r) = (oneFile.node ([nameA] ++ r)).filter FileNode.isCopied := by
  have hsrc : bytewise.locate [97] = some [nameA] := by decide
  have hdest : bytewise.locate [98] = some [nameB] := by decide
  have hfree : oneFile.node [nameB] = none := by decide
  obtain ⟨hsettles, hreturns⟩ := cpr_mirrors_iff (t := oneFile) (x := ⟨0o700, .dir⟩) hsrc hdest
    (by decide) (by decide) (fun y hy ↦ absurd (hfree.symm.trans hy) nofun) (by decide)
    (by decide : oneFile.height < 3)
  obtain ⟨t', hrun⟩ := hreturns willing_bytewise (by decide)
  rw [hrun] at hsettles
  exact ⟨t', hrun, hsettles.2.mpr undisturbed_bytewise⟩

end OperatingSystems.Warmup
