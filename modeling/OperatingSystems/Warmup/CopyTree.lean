import OperatingSystems.Library.FileTree
import OperatingSystems.Library.Words
import OperatingSystems.Warmup.Cpr

/-!
# Copying a directory: `cpr.c`

`cpr` copies a file, or a directory with everything below it. The paths are texts, and `copy_dir`
makes those of the entries with `strcat`; `System.locate` is what the kernel finds at a text. The
kernel may refuse any call (`System.permits`), and a call that fails ends the process, with three
exceptions. A failure of `readdir` looks like the end of the directory, so the kernel may list any
of the names (`System.listing`). The result of the `stat` in `copy_file` is not looked at, so what
its structure held before (`System.leftover`) is taken for the permissions. Nor is the result of
`opendir`, and `readdir` is undefined then.

`copyDir_settles` says what `copy_dir` has done when it returns: each node of the source that is
listed, with all the directories on the way to it, is at the same place in the destination, with
what `copy_file` has written and with the permissions that it has found, and nothing else has
changed.

Scope. There are no links, hard or symbolic, so a path without `..` leads to one node only; a path
with `..` leads nowhere in the model. No other process changes the files, and what is being read
does not change, as the destination is not below the source. `chmod` sets the permissions as they
are given.
-/

set_option autoImplicit false
set_option relaxedAutoImplicit false

namespace OperatingSystems.Warmup

open Library

/-! ### Files and paths -/

/-- What a node is: a regular file, a directory, or anything else. -/
inductive FileKind
  | reg (content : List UInt8)
  | dir
  | other
  deriving DecidableEq

/-- A node with its permissions. -/
structure FileNode where
  mode : BitVec 12
  kind : FileKind
  deriving DecidableEq

/-- `S_ISDIR`. -/
def FileNode.isDir (x : FileNode) : Bool := decide (x.kind = .dir)

/-- The name of a directory entry. -/
structure FileName where
  bytes : List UInt8
  ne_nil : bytes ≠ []
  slashFree : 47 ∉ bytes
  ne_dot : bytes ≠ [46]
  ne_dotdot : bytes ≠ [46, 46]
  deriving DecidableEq

/-- The files that the kernel holds. -/
abbrev Files := FileTree FileName FileNode FileNode.isDir

/-- The name with these bytes, if there is one. -/
def toFileName (w : List UInt8) : Option FileName :=
  if h : w ≠ [] ∧ 47 ∉ w ∧ w ≠ [46] ∧ w ≠ [46, 46] then
    some ⟨w, h.1, h.2.1, h.2.2.1, h.2.2.2⟩
  else none

/-- The names between the slashes of a path, without `.`. -/
def components (path : List UInt8) : Option (List FileName) :=
  ((words (· == 47) path).filter (· ≠ [46])).mapM toFileName

/-- The calls that the kernel may refuse: `stat` in the loop of `copy_dir` and in `main`, `stat` of
the directory in `copy_dir`, `stat` in `copy_file`, and others. -/
inductive DirCall
  | stat
  | statDir
  | statFile
  | opendir
  | mkdir
  | chmod

/-- What the kernel answers: its working directory, the calls that it permits, the names that
`readdir` returns for a directory, in their order and as far as they are there, the permissions that
it takes from new files, and its answers when a file is copied. What `sb` holds in `copy_file`
before the call of `stat` is `leftover`. -/
structure System where
  cwd : List FileName
  permits : DirCall → List FileName → Bool
  listing : List FileName → List FileName
  nodup_listing : ∀ p, (listing p).Nodup
  leftover : List FileName → BitVec 12
  umask : BitVec 12
  kernel : List FileName → Kernel

/-- Where a path leads. -/
def System.locate (sys : System) (path : List UInt8) : Option (List FileName) :=
  match path with
  | [] => none
  | c :: _ => (components path).map fun p ↦ if c = 47 then p else sys.cwd ++ p

/-! ### System calls -/

/-- `stat`. -/
def System.stat (sys : System) (call : DirCall) (t : Files) (path : List UInt8) :
    Option FileNode :=
  (sys.locate path).bind fun p ↦ if sys.permits call p then t.node p else none

/-- The names that `readdir` returns for a directory, besides the dots. -/
def System.names (sys : System) (t : Files) (p : List FileName) : List FileName :=
  (sys.listing p).filter fun n ↦ (t.node (p ++ [n])).isSome

/-- `opendir`, with the names that `readdir` will return. Where the dots are among them makes no
difference. -/
def System.opendir (sys : System) (t : Files) (path : List UInt8) : Option (List (List UInt8)) :=
  (sys.locate path).bind fun p ↦
    if sys.permits .opendir p ∧ (t.node p).any FileNode.isDir then
      some ([46] :: [46, 46] :: (sys.names t p).map FileName.bytes)
    else none

/-- `M_FULL_WRITE_PERMISSIONS`, without those that are masked. -/
def System.newMode (sys : System) : BitVec 12 := 0o733 &&& ~~~sys.umask

/-- `mkdir`. -/
def System.mkdir (sys : System) (t : Files) (path : List UInt8) : Option Files :=
  (sys.locate path).bind fun q ↦
    if h : sys.permits .mkdir q ∧ t.Room q then some (t.make q ⟨sys.newMode, .dir⟩ h.2) else none

theorem FileNode.isDir_mk (mode : BitVec 12) (x : FileNode) :
    (FileNode.mk mode x.kind).isDir = x.isDir := rfl

/-- Set the permissions of the node at a path. -/
def setMode (t : Files) (q : List FileName) (mode : BitVec 12) : Files :=
  t.modify q (fun x ↦ ⟨mode, x.kind⟩) (FileNode.isDir_mk mode)

/-- `chmod`. -/
def System.chmod (sys : System) (t : Files) (path : List UInt8) (mode : BitVec 12) :
    Option Files :=
  (sys.locate path).bind fun q ↦
    if sys.permits .chmod q ∧ (t.node q).isSome then some (setMode t q mode) else none

/-- Replace the content of a regular file. -/
def FileNode.setContent (content : List UInt8) (x : FileNode) : FileNode :=
  match x.kind with
  | .reg _ => { x with kind := .reg content }
  | _ => x

theorem FileNode.isDir_setContent (content : List UInt8) (x : FileNode) :
    (x.setContent content).isDir = x.isDir := by
  obtain ⟨mode, kind⟩ := x
  cases kind <;> rfl

/-- Replace the content of the file at a path. -/
def setContent (t : Files) (q : List FileName) (content : List UInt8) : Files :=
  t.modify q (FileNode.setContent content) (FileNode.isDir_setContent content)

/-- `creat`: a file that exists is emptied, and anything else but a directory is opened. -/
def System.creat (sys : System) (t : Files) (q : List FileName) : Option Files :=
  match t.node q with
  | some ⟨_, .reg _⟩ => some (setContent t q [])
  | some ⟨_, .dir⟩ => none
  | some ⟨_, .other⟩ => some t
  | none => if h : t.Room q then some (t.make q ⟨sys.newMode, .reg []⟩ h) else none

/-- The content of the file at a path. -/
def contentAt (t : Files) (p : List FileName) : List UInt8 :=
  match t.node p with
  | some ⟨_, .reg content⟩ => content
  | _ => []

/-! ### Copying -/

/-- Why `cpr` does not return: a call failed, `readdir` was called on no directory, or the recursion
went too deep. -/
inductive Failure
  | copyFile (call : SysCall)
  | stat
  | mkdir
  | chmod
  | undefined
  | depth
  deriving DecidableEq

/-- `syserror` if the call has failed. -/
def orFail {α : Type} (result : Option α) (failure : Failure) : Except Failure α :=
  match result with
  | none => .error failure
  | some a => .ok a

/-- `copy_file` between two paths. The result of `stat` is not looked at, and the source is read
after the destination has been emptied. -/
def copyFileAt (sys : System) (src dest : List UInt8) (t : Files) : Except Failure Files := do
  let sb := sys.stat .statFile t src
  let p ← orFail (sys.locate src) (.copyFile .openSrc)
  let _ ← orFail ((t.node p).filter fun _ ↦ (sys.kernel p).opens) (.copyFile .openSrc)
  let q ← orFail (sys.locate dest) (.copyFile .creatDest)
  let emptied ← orFail (sys.creat t q) (.copyFile .creatDest)
  match copyFile (sys.kernel p) (contentAt emptied p) with
  | .error call => .error (.copyFile call)
  | .ok content =>
    .ok (setMode (setContent emptied q content) q (sb.elim (sys.leftover p) FileNode.mode))

/-- Copy what `stat` finds at a path: the body of the loop of `copy_dir`, and what `main` does. -/
def copyNode (sys : System)
    (recur : List UInt8 → List UInt8 → Files → Except Failure Files) (src dest : List UInt8)
    (t : Files) : Except Failure Files := do
  let sb ← orFail (sys.stat .stat t src) .stat
  match sb.kind with
  | .dir => recur src dest t
  | .reg _ => copyFileAt sys src dest t
  | .other => .ok t

/-- The loop of `copy_dir` over the names that `readdir` returns. -/
def copyEntries (sys : System)
    (recur : List UInt8 → List UInt8 → Files → Except Failure Files) (src dest : List UInt8) :
    List (List UInt8) → Files → Except Failure Files
  | [], t => .ok t
  | dName :: names, t =>
    if dName = [46] ∨ dName = [46, 46] then copyEntries sys recur src dest names t
    else do
      let t ← copyNode sys recur (src ++ 47 :: dName) (dest ++ 47 :: dName) t
      copyEntries sys recur src dest names t

/-- `copy_dir`, to the given depth. -/
def copyDir (sys : System) : ℕ → List UInt8 → List UInt8 → Files → Except Failure Files
  | 0, _, _, _ => .error .depth
  | depth + 1, src, dest, t => do
    let dir := sys.opendir t src
    let sb ← orFail (sys.stat .statDir t src) .stat
    let t ← orFail (sys.mkdir t dest) .mkdir
    let names ← orFail dir .undefined
    let t ← copyEntries sys (copyDir sys depth) src dest names t
    orFail (sys.chmod t dest sb.mode) .chmod

/-- `main` of `cpr` with two arguments. -/
def cpr (sys : System) (depth : ℕ) (src dest : List UInt8) (t : Files) : Except Failure Files :=
  copyNode sys (copyDir sys depth) src dest t

/-! ### Paths of entries -/

section Paths

variable {path : List UInt8} {name : FileName}

@[simp] theorem toFileName_bytes (name : FileName) : toFileName name.bytes = some name :=
  dif_pos ⟨name.ne_nil, name.slashFree, name.ne_dot, name.ne_dotdot⟩

theorem components_append (path : List UInt8) (name : FileName) :
    components (path ++ 47 :: name.bytes) = (components path).map (· ++ [name]) := by
  have hword : words (· == 47) name.bytes = [name.bytes] :=
    words_eq_singleton (fun c hc ↦ beq_false_of_ne fun heq ↦ name.slashFree (heq ▸ hc)) name.ne_nil
  have hfilter : [name.bytes].filter (· ≠ [46]) = [name.bytes] :=
    List.filter_cons_of_pos (by simpa using name.ne_dot)
  rw [components, words_append_sep_cons rfl, List.filter_append, hword, hfilter, List.mapM_append,
    components, List.mapM_cons, List.mapM_nil, toFileName_bytes]
  cases (List.filter (· ≠ [46]) (words (· == 47) path)).mapM toFileName <;> rfl

/-- The path that `strcat` makes leads to the entry. -/
theorem System.locate_append {sys : System} {p : List FileName} (h : sys.locate path = some p)
    (name : FileName) : sys.locate (path ++ 47 :: name.bytes) = some (p ++ [name]) := by
  cases path with
  | nil => cases h
  | cons c path =>
    rw [System.locate, Option.map_eq_some_iff] at h
    obtain ⟨r, hr, rfl⟩ := h
    rw [List.cons_append, System.locate, ← List.cons_append, components_append, hr,
      Option.map_some, Option.map_some]
    by_cases hc : c = 47
    · rw [if_pos hc, if_pos hc]
    · rw [if_neg hc, if_neg hc, List.append_assoc]

end Paths

/-! ### Programs that end -/

/-- The program returns with the property, or ends otherwise than by going too deep. -/
def Settles {α : Type} (P : α → Prop) : Except Failure α → Prop
  | .ok a => P a
  | .error failure => failure ≠ .depth

section Settles

variable {α β : Type} {P P' : α → Prop} {Q : β → Prop} {x : Except Failure α}

theorem Settles.mono (h : Settles P x) (himp : ∀ a, P a → P' a) : Settles P' x := by
  cases x with
  | ok a => exact himp a h
  | error failure => exact h

theorem Settles.bind {f : α → Except Failure β} (h : Settles P x)
    (hf : ∀ a, P a → Settles Q (f a)) : Settles Q (x >>= f) := by
  cases x with
  | ok a => exact hf a h
  | error failure => exact h

theorem orFail_bind {result : Option α} {a : α} (h : result = some a) {failure : Failure}
    (f : α → Except Failure β) : orFail result failure >>= f = f a := by
  rw [h]
  rfl

theorem settles_orFail {result : Option α} {failure : Failure} (hfailure : failure ≠ .depth) :
    Settles (fun a ↦ result = some a) (orFail result failure) := by
  cases result with
  | none => exact hfailure
  | some a => exact rfl

end Settles

/-! ### What is listed -/

/-- `readdir` returns all names on the way from a directory to what is below it. -/
def System.Lists (sys : System) : List FileName → List FileName → Prop
  | _, [] => True
  | p, n :: r => n ∈ sys.listing p ∧ sys.Lists (p ++ [n]) r

/-- What `copy_dir` finds on this way. -/
def System.Finds (sys : System) (t : Files) (p r : List FileName) (x : FileNode) : Prop :=
  sys.Lists p r ∧ t.node (p ++ r) = some x

section Listed

variable {sys : System} {p : List FileName} {t t' : Files} {n : FileName} {r : List FileName}
  {x : FileNode}

/-- The last step of the way is listed. -/
theorem System.Lists.last (h : sys.Lists p (r ++ [n])) : n ∈ sys.listing (p ++ r) := by
  induction r generalizing p with
  | nil => simpa using h.1
  | cons m r ih => simpa using ih h.2

/-- A way is listed if each of its steps is. -/
theorem System.lists_of_forall (h : ∀ r₁ n r₂, r = r₁ ++ n :: r₂ → n ∈ sys.listing (p ++ r₁)) :
    sys.Lists p r := by
  induction r generalizing p with
  | nil => trivial
  | cons m r ih =>
    refine ⟨by simpa using h [] m r rfl, ih fun r₁ n r₂ heq ↦ ?_⟩
    have hstep := h (m :: r₁) n r₂ (by rw [heq, List.cons_append])
    rwa [List.append_assoc, List.singleton_append]

/-- The names that are returned are those that are listed and there. -/
theorem System.mem_names : n ∈ sys.names t p ↔ n ∈ sys.listing p ∧ (t.node (p ++ [n])).isSome :=
  List.mem_filter

theorem System.nodup_names (sys : System) (t : Files) (p : List FileName) :
    (sys.names t p).Nodup :=
  (sys.nodup_listing p).filter _

/-- The same is found below what has not changed. -/
theorem System.finds_congr (h : ∀ r, t'.node (p ++ r) = t.node (p ++ r)) (n : FileName)
    (r : List FileName) : sys.Finds t' (p ++ [n]) r = sys.Finds t (p ++ [n]) r := by
  funext x
  rw [Finds, Finds, List.append_assoc, h]

/-- What is found behind a name. -/
theorem System.finds_cons : sys.Finds t p (n :: r) x ↔
    n ∈ sys.listing p ∧ sys.Finds t (p ++ [n]) r x := by
  rw [Finds, Finds, Lists, List.append_assoc, List.singleton_append, and_assoc]

/-- What is found behind a name of an entry is what is found there. -/
theorem System.finds_cons_of_mem (hn : n ∈ sys.names t p) :
    sys.Finds t p (n :: r) = sys.Finds t (p ++ [n]) r := by
  funext x
  exact propext (System.finds_cons.trans (and_iff_right (System.mem_names.mp hn).1))

/-- Nothing is found behind any other name. -/
theorem System.not_finds_cons (hn : n ∉ sys.names t p) : ¬ sys.Finds t p (n :: r) x := by
  intro hx
  obtain ⟨hlisted, -, hnode⟩ := System.finds_cons.mp hx
  have hmissing : t.node (p ++ [n]) = none := by
    rw [System.mem_names, not_and] at hn
    simpa using hn hlisted
  rw [t.node_eq_none hmissing (List.prefix_append _ r)] at hnode
  cases hnode

end Listed

/-! ### What a copy is -/

section Copies

variable {sys : System} {p q : List FileName} {t t' t'' : Files} {src dest : List UInt8}

/-- The permissions that `copy_file` has found, for a file with these. -/
def System.fileMode (sys : System) (p : List FileName) (mode : BitVec 12) : BitVec 12 :=
  if sys.permits .statFile p then mode else sys.leftover p

/-- What `cpr` makes of a node: a file with what `copy_file` wrote, or a directory. The rest is left
out. -/
inductive CopyOf (sys : System) (p : List FileName) : FileNode → FileNode → Prop
  | reg {mode content result} (hcopy : copyFile (sys.kernel p) content = .ok result) :
    CopyOf sys p ⟨mode, .reg content⟩ ⟨sys.fileMode p mode, .reg result⟩
  | dir {mode} : CopyOf sys p ⟨mode, .dir⟩ ⟨mode, .dir⟩

/-- At this place is what `cpr` makes of what it finds: nothing, if that is neither a file nor a
directory. -/
structure Copied (sys : System) (p : List FileName) (found : FileNode → Prop)
    (y : Option FileNode) : Prop where
  some : ∀ x, found x → x.kind ≠ .other → ∃ z, y = some z ∧ CopyOf sys p x z
  none : (∀ x, found x → x.kind = .other) → y = none

/-- What is at `p` has been copied to `q`, and nothing else has changed. -/
structure Copies (sys : System) (p q : List FileName) (t t' : Files) : Prop where
  frame : ∀ r, ¬ q <+: r → t'.node r = t.node r
  copied : ∀ r, Copied sys (p ++ r) (sys.Finds t p r) (t'.node (q ++ r))

theorem node_setContent_self {m : BitVec 12} {old content : List UInt8}
    (h : t.node q = some ⟨m, .reg old⟩) :
    (setContent t q content).node q = some ⟨m, .reg content⟩ := by
  rw [setContent, FileTree.node_modify_self, h]
  rfl

theorem node_setContent_of_ne {r : List FileName} (hr : r ≠ q) (content : List UInt8) :
    (setContent t q content).node r = t.node r :=
  t.node_modify_of_ne hr _ _

theorem node_setMode_self {x : FileNode} (h : t.node q = some x) (mode : BitVec 12) :
    (setMode t q mode).node q = some ⟨mode, x.kind⟩ := by
  rw [setMode, FileTree.node_modify_self, h]
  rfl

theorem node_setMode_of_ne {r : List FileName} (hr : r ≠ q) (mode : BitVec 12) :
    (setMode t q mode).node r = t.node r :=
  t.node_modify_of_ne hr _ _

/-- Assumes: there is nothing but a file, or a directory, at the path. -/
theorem creat_spec (hdevice : ∀ y, t.node q = some y → y.kind ≠ .other)
    (h : sys.creat t q = some t') :
    (∃ m, t'.node q = some ⟨m, .reg []⟩) ∧ ∀ r, r ≠ q → t'.node r = t.node r := by
  rw [System.creat] at h
  split at h
  · rename_i m old hnode
    obtain rfl := Option.some.inj h
    exact ⟨⟨m, node_setContent_self hnode⟩, fun r hr ↦ node_setContent_of_ne hr []⟩
  · cases h
  · rename_i hnode
    exact absurd rfl (hdevice _ hnode)
  · split_ifs at h with hroom
    obtain rfl := Option.some.inj h
    exact ⟨⟨_, t.node_make_self _ hroom⟩, fun r hr ↦ t.node_make_of_ne hr _ hroom⟩

/-- What `copy_dir` finds below a path is nothing, if that is no directory. -/
theorem not_finds_below {x : FileNode} (hnode : t.node p = some x) (hdir : x.isDir = false)
    {r : List FileName} (hr : r ≠ []) (y : FileNode) : ¬ sys.Finds t p r y := by
  rintro ⟨-, hy⟩
  rw [t.node_append_eq_none (fun a ha ↦ ?_) hr] at hy
  · cases hy
  · rw [hnode] at ha
    exact Option.some.inj ha ▸ hdir

/-- At the place of nothing there is nothing. -/
theorem copied_none {found : FileNode → Prop} {y : Option FileNode}
    (hfound : ∀ x, found x → x.kind = .other) (hy : y = none) : Copied sys p found y :=
  ⟨fun x hx hkind ↦ absurd (hfound x hx) hkind, fun _ ↦ hy⟩

/-- At the place of a file or directory is its copy. -/
theorem copied_some {found : FileNode → Prop} {y : Option FileNode} {x z : FileNode}
    (hfound : ∀ x', found x' ↔ x' = x) (hkind : x.kind ≠ .other) (hy : y = some z)
    (hcopy : CopyOf sys p x z) : Copied sys p found y :=
  ⟨fun x' hx' _ ↦ ⟨z, hy, (hfound x').mp hx' ▸ hcopy⟩,
    fun hnone ↦ absurd (hnone x ((hfound x).mpr rfl)) hkind⟩

/-- What is found at the path itself. -/
theorem finds_nil_iff {x : FileNode} (hnode : t.node p = some x) (y : FileNode) :
    sys.Finds t p [] y ↔ y = x := by
  rw [System.Finds, System.Lists, List.append_nil, hnode, Option.some.injEq, true_and]
  exact eq_comm

/-- `copy_file` of a regular file to another path. -/
theorem copyFileAt_settles {mode : BitVec 12} {content : List UInt8}
    (hsrc : sys.locate src = some p)
    (hdest : sys.locate dest = some q) (hnode : t.node p = some ⟨mode, .reg content⟩)
    (hdevice : ∀ y, t.node q = some y → y.kind ≠ .other) (hne : p ≠ q) :
    Settles (Copies sys p q t) (copyFileAt sys src dest t) := by
  have hmode : (sys.stat .statFile t src).elim (sys.leftover p) FileNode.mode =
      sys.fileMode p mode := by
    rw [System.stat, hsrc, Option.bind_some, System.fileMode, hnode]
    split_ifs <;> rfl
  refine (settles_orFail (by decide)).bind fun p' hp' ↦ ?_
  obtain rfl := Option.some.inj (hsrc.symm.trans hp')
  refine (settles_orFail (by decide)).bind fun _ _ ↦ ?_
  refine (settles_orFail (by decide)).bind fun q' hq' ↦ ?_
  obtain rfl := Option.some.inj (hdest.symm.trans hq')
  refine (settles_orFail (by decide)).bind fun emptied hemptied ↦ ?_
  obtain ⟨⟨m, hself⟩, hother⟩ := creat_spec hdevice hemptied
  have hcontent : contentAt emptied p = content := by
    rw [contentAt, hother p hne, hnode]
  rw [hcontent, hmode]
  cases hcopy : copyFile (sys.kernel p) content with
  | error call => exact fun h ↦ by cases h
  | ok result =>
    have hfinal : (setMode (setContent emptied q result) q (sys.fileMode p mode)).node q =
        some ⟨sys.fileMode p mode, .reg result⟩ :=
      node_setMode_self (node_setContent_self hself) _
    have hrest : ∀ r, r ≠ q →
        (setMode (setContent emptied q result) q (sys.fileMode p mode)).node r = t.node r :=
      fun r hr ↦ by rw [node_setMode_of_ne hr, node_setContent_of_ne hr, hother r hr]
    refine ⟨fun r hr ↦ hrest r fun heq ↦ hr (heq ▸ List.prefix_rfl), fun r ↦ ?_⟩
    by_cases hr : r = []
    · rw [hr, List.append_nil, List.append_nil]
      exact copied_some (finds_nil_iff hnode) nofun hfinal (.reg hcopy)
    · refine copied_none (fun y hy ↦ absurd hy (not_finds_below hnode rfl hr y)) ?_
      refine FileTree.node_append_eq_none _ (fun a ha ↦ ?_) hr
      rw [hfinal] at ha
      obtain rfl := Option.some.inj ha
      rfl

/-! ### Directories -/

/-- The entries of `p` with these names have been copied to `q`, and nothing else has changed. -/
structure CopiesEntries (sys : System) (p q : List FileName) (names : List FileName)
    (t t' : Files) : Prop where
  frame : ∀ r, (∀ n ∈ names, ¬ q ++ [n] <+: r) → t'.node r = t.node r
  copied : ∀ n ∈ names, ∀ r, Copied sys (p ++ [n] ++ r) (sys.Finds t (p ++ [n]) r)
    (t'.node (q ++ [n] ++ r))

/-- Nothing is below both paths. -/
def Apart (p q : List FileName) : Prop := ∀ l, p <+: l → ¬ q <+: l

/-- A path without a node is apart from every node that it is not below. -/
theorem apart_of_free {x : FileNode} (hnode : t.node p = some x) (hnot : ¬ p <+: q)
    (hnone : t.node q = none) : Apart p q := by
  intro l hp hq
  rcases List.prefix_or_prefix_of_prefix hp hq with hpq | hqp
  · exact hnot hpq
  · rw [t.node_eq_none hnone hqp] at hnode
    cases hnode

theorem Apart.entry (h : Apart p q) (n : FileName) : ¬ p ++ [n] <+: q ++ [n] := fun hp ↦
  h _ ((List.prefix_append p [n]).trans hp) (List.prefix_append q [n])

theorem not_prefix_self (q : List FileName) (n : FileName) : ¬ q ++ [n] <+: q := by
  intro h
  have hle := h.length_le
  rw [List.length_append, List.length_singleton] at hle
  omega

theorem not_prefix_of_ne {m n : FileName} (hne : m ≠ n) (r : List FileName) :
    ¬ q ++ [m] <+: q ++ [n] ++ r := by
  rw [List.append_assoc, List.prefix_append_right_inj, List.singleton_append, List.cons_prefix_cons]
  exact fun h ↦ hne h.1

/-- What has been copied for one name leaves the source alone. -/
theorem Copies.source {n : FileName} (h : Copies sys (p ++ [n]) (q ++ [n]) t t')
    (happart : Apart p q) (r : List FileName) : t'.node (p ++ r) = t.node (p ++ r) :=
  h.frame _ fun hq ↦ happart _ (List.prefix_append p r) ((List.prefix_append q [n]).trans hq)

/-- It leaves the other names alone, too. -/
theorem Copies.sibling {n m : FileName} (h : Copies sys (p ++ [n]) (q ++ [n]) t t') (hne : n ≠ m) :
    t'.node (q ++ [m]) = t.node (q ++ [m]) := by
  have hkept := h.frame (q ++ [m] ++ []) (not_prefix_of_ne hne [])
  rwa [List.append_nil] at hkept

/-- Nothing below an entry is as deep as below its directory. -/
theorem depth_of_entry {depth : ℕ} (h : ∀ r, (t.node (p ++ r)).isSome → r.length < depth + 1)
    (n : FileName) : ∀ r, (t.node (p ++ [n] ++ r)).isSome → r.length < depth := by
  intro r hr
  rw [List.append_assoc] at hr
  have hlt := h _ hr
  rw [List.length_append, List.length_singleton] at hlt
  omega

theorem isSome_of_any {x : Option FileNode} (h : x.any FileNode.isDir = true) : x.isSome := by
  cases x with
  | none => cases h
  | some x => rfl

/-- `recur` copies every directory to another path, if nothing is deeper than this below it. -/
def CopiesDirs (sys : System) (depth : ℕ)
    (recur : List UInt8 → List UInt8 → Files → Except Failure Files) : Prop :=
  ∀ {src dest : List UInt8} {p q : List FileName} {t : Files}, sys.locate src = some p →
    sys.locate dest = some q → (t.node p).any FileNode.isDir = true → ¬ p <+: q →
    (∀ r, (t.node (p ++ r)).isSome → r.length < depth) →
    Settles (Copies sys p q t) (recur src dest t)

theorem stat_spec {call : DirCall} {x : FileNode} (hsrc : sys.locate src = some p)
    (h : sys.stat call t src = some x) : t.node p = some x := by
  rw [System.stat, hsrc, Option.bind_some] at h
  split_ifs at h
  exact h

variable {recur : List UInt8 → List UInt8 → Files → Except Failure Files} {depth : ℕ}

/-- Anything is copied, or left out. -/
theorem copyNode_settles (hrecur : CopiesDirs sys depth recur) (hsrc : sys.locate src = some p)
    (hdest : sys.locate dest = some q) (hnot : ¬ p <+: q)
    (hother : ∀ x, t.node p = some x → x.kind = .other → t.node q = none)
    (hdevice : ∀ y, t.node q = some y → y.kind ≠ .other)
    (hdepth : ∀ r, (t.node (p ++ r)).isSome → r.length < depth) :
    Settles (Copies sys p q t) (copyNode sys recur src dest t) := by
  refine (settles_orFail (by decide)).bind fun sb hsb ↦ ?_
  have hnode := stat_spec hsrc hsb
  obtain ⟨mode, kind⟩ := sb
  cases kind with
  | dir => exact hrecur hsrc hdest (by rw [hnode]; rfl) hnot hdepth
  | reg content =>
    exact copyFileAt_settles hsrc hdest hnode hdevice fun heq ↦ hnot (heq ▸ List.prefix_rfl)
  | other =>
    refine ⟨fun r hr ↦ rfl, fun r ↦ copied_none (fun y hy ↦ ?_)
      (t.node_eq_none (hother _ hnode rfl) (List.prefix_append q r))⟩
    by_cases hr : r = []
    · subst hr
      rw [(finds_nil_iff hnode y).mp hy]
    · exact absurd hy (not_finds_below hnode rfl hr y)

/-- The loop over the entries. -/
theorem copyEntries_settles (hrecur : CopiesDirs sys depth recur)
    (hsrc : sys.locate src = some p) (hdest : sys.locate dest = some q)
    (happart : Apart p q) (names : List FileName) : ∀ {t : Files}, names.Nodup →
    (∀ n ∈ names, t.node (q ++ [n]) = none) →
    (∀ r, (t.node (p ++ r)).isSome → r.length < depth + 1) →
    Settles (CopiesEntries sys p q names t)
      (copyEntries sys recur src dest (names.map FileName.bytes) t) := by
  induction names with
  | nil => exact fun _ _ _ ↦ ⟨fun _ _ ↦ rfl, fun _ hn ↦ absurd hn List.not_mem_nil⟩
  | cons n names ih =>
    intro t hnodup hfree hdepth
    obtain ⟨hn, hnodup⟩ := List.nodup_cons.mp hnodup
    rw [List.map_cons, copyEntries, if_neg (not_or.mpr ⟨n.ne_dot, n.ne_dotdot⟩)]
    refine (copyNode_settles hrecur (System.locate_append hsrc n) (System.locate_append hdest n)
      (happart.entry n) (fun _ _ _ ↦ hfree n List.mem_cons_self)
      (fun y hy ↦ absurd ((hfree n List.mem_cons_self).symm.trans hy) nofun)
      (depth_of_entry hdepth n)).bind fun t' hhead ↦ ?_
    have hsource := hhead.source happart
    have hfree' : ∀ m ∈ names, t'.node (q ++ [m]) = none := by
      intro m hm
      rw [hhead.sibling fun heq ↦ hn (heq ▸ hm)]
      exact hfree m (List.mem_cons_of_mem n hm)
    refine (ih hnodup hfree' fun r hr ↦ hdepth r (by rwa [hsource] at hr)).mono fun t'' htail ↦ ?_
    refine ⟨fun r hr ↦ ?_, fun m hm r ↦ ?_⟩
    · rw [htail.frame r fun m hm ↦ hr m (List.mem_cons_of_mem n hm),
        hhead.frame r (hr n List.mem_cons_self)]
    · rcases List.mem_cons.mp hm with rfl | hm
      · have hother : ∀ k ∈ names, k ≠ m := fun k hk heq ↦ hn (heq ▸ hk)
        rw [htail.frame _ fun k hk ↦ not_prefix_of_ne (hother k hk) r]
        exact hhead.copied r
      · rw [← System.finds_congr hsource]
        exact htail.copied m hm r

theorem opendir_spec {names : List (List UInt8)} (hsrc : sys.locate src = some p)
    (h : sys.opendir t src = some names) :
    names = [46] :: [46, 46] :: (sys.names t p).map FileName.bytes := by
  rw [System.opendir, hsrc, Option.bind_some] at h
  split_ifs at h
  exact (Option.some.inj h).symm

/-- An empty directory has been made. -/
structure MakesDir (sys : System) (q : List FileName) (t t' : Files) : Prop where
  free : t.node q = none
  made : t'.node q = some ⟨sys.newMode, .dir⟩
  kept : ∀ r, r ≠ q → t'.node r = t.node r

theorem mkdir_spec (hdest : sys.locate dest = some q) (h : sys.mkdir t dest = some t') :
    MakesDir sys q t t' := by
  rw [System.mkdir, hdest, Option.bind_some] at h
  split_ifs at h with hroom
  obtain rfl := Option.some.inj h
  exact ⟨hroom.2.2.1, t.node_make_self _ hroom.2, fun r hr ↦ t.node_make_of_ne hr _ hroom.2⟩

theorem MakesDir.source (h : MakesDir sys q t t') (hnot : ¬ p <+: q) (r : List FileName) :
    t'.node (p ++ r) = t.node (p ++ r) :=
  h.kept _ fun heq ↦ hnot (heq ▸ List.prefix_append p r)

theorem concat_append_ne (q : List FileName) (n : FileName) (r : List FileName) :
    q ++ [n] ++ r ≠ q := fun heq ↦ by
  simpa using congrArg List.length heq

theorem MakesDir.below (h : MakesDir sys q t t') (n : FileName) (r : List FileName) :
    t'.node (q ++ [n] ++ r) = none := by
  rw [h.kept _ (concat_append_ne q n r)]
  exact t.node_eq_none h.free (by rw [List.append_assoc]; exact List.prefix_append q _)

theorem chmod_spec {mode : BitVec 12} (hdest : sys.locate dest = some q)
    (h : sys.chmod t dest mode = some t') : t' = setMode t q mode := by
  rw [System.chmod, hdest, Option.bind_some] at h
  split_ifs at h
  exact (Option.some.inj h).symm

/-- `copy_dir` of a directory to a path that is not below it. -/
theorem copyDir_settles (sys : System) (depth : ℕ) : CopiesDirs sys depth (copyDir sys depth) := by
  induction depth with
  | zero =>
    intro src dest p q t hsrc hdest hdir hnot hdepth
    exact absurd (hdepth [] (by rw [List.append_nil]; exact isSome_of_any hdir)) (Nat.not_lt_zero _)
  | succ depth ih =>
    intro src dest p q t hsrc hdest hdir hnot hdepth
    rw [copyDir]
    refine (settles_orFail (by decide)).bind fun sb hsb ↦ ?_
    refine (settles_orFail (by decide)).bind fun t₁ hmkdir ↦ ?_
    refine (settles_orFail (by decide)).bind fun names hnames ↦ ?_
    have hnode := stat_spec hsrc hsb
    have hmakes := mkdir_spec hdest hmkdir
    obtain rfl := opendir_spec hsrc hnames
    have hkind : sb.kind = .dir := by simpa [hnode, FileNode.isDir] using hdir
    have hsource := hmakes.source hnot
    rw [copyEntries, if_pos (.inl rfl), copyEntries, if_pos (.inr rfl)]
    refine (copyEntries_settles ih hsrc hdest (apart_of_free hnode hnot hmakes.free)
      (sys.names t p) (sys.nodup_names t p) (fun n _ ↦ by simpa using hmakes.below n [])
      fun r hr ↦ hdepth r (by rwa [hsource] at hr)).bind fun t₂ hentries ↦ ?_
    refine (settles_orFail (by decide)).mono fun t₃ hchmod ↦ ?_
    obtain rfl := chmod_spec hdest hchmod
    have hself : t₂.node q = some ⟨sys.newMode, .dir⟩ := by
      rw [hentries.frame q fun n _ ↦ not_prefix_self q n, hmakes.made]
    refine ⟨fun r hr ↦ ?_, fun r ↦ ?_⟩
    · have hne : r ≠ q := fun heq ↦ hr (heq ▸ List.prefix_rfl)
      rw [node_setMode_of_ne hne,
        hentries.frame r fun n _ hn ↦ hr ((List.prefix_append q [n]).trans hn),
        hmakes.kept r hne]
    · cases r with
      | nil =>
        obtain ⟨mode, kind⟩ := sb
        obtain rfl : kind = .dir := hkind
        rw [List.append_nil, List.append_nil]
        exact copied_some (finds_nil_iff hnode) nofun (node_setMode_self hself mode) .dir
      | cons n r =>
        rw [List.append_cons q n r, List.append_cons p n r,
          node_setMode_of_ne (concat_append_ne q n r)]
        by_cases hn : n ∈ sys.names t p
        · have hcopied := hentries.copied n hn r
          rw [System.finds_congr hsource] at hcopied
          rw [System.finds_cons_of_mem hn]
          exact hcopied
        · refine copied_none (fun y hy ↦ absurd hy (System.not_finds_cons hn)) ?_
          rw [hentries.frame _ fun m hm ↦ not_prefix_of_ne (fun heq : m = n ↦ hn (heq ▸ hm)) r,
            hmakes.below]

end Copies

end OperatingSystems.Warmup
