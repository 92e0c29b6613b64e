import OperatingSystems.Fs.Commands
import OperatingSystems.Library.Words

/-!
# Reading a command line: `testfs.c`

`main` splits a line into the name of a command and the rest, and `parse_command` splits the rest
into words, with four calls of `strtok_r`. `strtokR_blanks` and `strtokR_lineEnds` say what a call
does on a string of one line; `parseWords_run` is the loop of `parse_command`. The last call takes
what remains of the line, blanks included, and starts again from the whole string if the loop has
found no word.
-/

set_option autoImplicit false
set_option relaxedAutoImplicit false

namespace OperatingSystems.Fs

open Library

/-! ### The code -/

/-- `MAX_ARGS`. -/
abbrev maxArgs : ℕ := 6

/-- The characters `" \t\r\n"`. -/
def blanks : List UInt8 := [32, 9, 13, 10]

/-- The characters `"\r\n"`. -/
def lineEnds : List UInt8 := [13, 10]

/-- `strtok_r`: the token and the saved pointer. A pointer is the string it points to; the call
changes the string only by ending the token that it returns. A call with two null pointers has no
meaning in C; here it returns a null pointer, as in a C library that is lenient about it, and the
saved one stays. -/
def strtokR (str : Option (List UInt8)) (delim : List UInt8) (save : Option (List UInt8)) :
    Option (List UInt8) × Option (List UInt8) :=
  match str.or save with
  | none => (none, none)
  | some s =>
    let token := s.dropWhile (· ∈ delim)
    if token = [] then (none, some [])
    else (some (token.takeWhile (· ∉ delim)), some (token.dropWhile (· ∉ delim)).tail)

/-- A function of `cmdtable`. -/
inductive CmdFunc
  | help
  | quit
  | fs (name : CommandName)
  deriving DecidableEq

/-- `struct cmd` without its texts. -/
structure Cmd where
  name : List UInt8
  func : CmdFunc
  maxArgs : ℕ
  deriving DecidableEq

/-- The characters of a name. -/
def nameBytes (s : String) : List UInt8 := s.toList.map fun c ↦ UInt8.ofNat c.toNat

/-- `cmdtable`. -/
def cmdtable : List Cmd :=
  [⟨nameBytes "help", .help, 1⟩,
    ⟨nameBytes "cd", .fs .cd, 2⟩,
    ⟨nameBytes "pwd", .fs .pwd, 1⟩,
    ⟨nameBytes "ls", .fs .ls, 2⟩,
    ⟨nameBytes "lsr", .fs .lsr, 2⟩,
    ⟨nameBytes "create", .fs .create, 2⟩,
    ⟨nameBytes "stat", .fs .stat, 2⟩,
    ⟨nameBytes "rm", .fs .rm, 2⟩,
    ⟨nameBytes "mkdir", .fs .mkdir, 2⟩,
    ⟨nameBytes "read", .fs .read, 4⟩,
    ⟨nameBytes "write", .fs .write, 4⟩,
    ⟨nameBytes "fsstat", .fs .fsstat, 1⟩,
    ⟨nameBytes "quit", .quit, 1⟩]

/-- `struct context` without the current directory. -/
structure Context where
  nargs : ℕ
  cmd : ℕ → Option (List UInt8)

/-- The variables of `parse_command`. -/
structure ParseState where
  j : ℕ
  args : Option (List UInt8)
  save : Option (List UInt8)
  cmd : ℕ → Option (List UInt8)

/-- The loop of `parse_command`, for a number of words at most. -/
def parseWords : ℕ → ParseState → ParseState
  | 0, p => p
  | n + 1, p =>
    match strtokR p.args blanks p.save with
    | (none, save) => { p with save := save, cmd := Function.update p.cmd p.j none }
    | (some word, save) =>
      parseWords n ⟨p.j + 1, none, save, Function.update p.cmd p.j (some word)⟩

/-- `parse_command`. The slots of the command after the last argument are cleared. -/
def parseCommand (cmd : Cmd) (c : Context) (name : List UInt8) (args : Option (List UInt8)) :
    Context :=
  let p := parseWords (cmd.maxArgs - 1) ⟨1, args, none, Function.update c.cmd 0 (some name)⟩
  let last := (strtokR p.args lineEnds p.save).1
  let nargs := if last.isSome then p.j + 1 else p.j
  { nargs := nargs
    cmd := fun i ↦
      if nargs < i ∧ i ≤ maxArgs then none else Function.update p.cmd p.j last i }

/-- One turn of the loop of `main`, up to the call of the command. The line is the C string that
`getline` leaves: its characters up to the first NUL. -/
def parseLine (c : Context) (line : List UInt8) : Option (Cmd × Context) :=
  if line.head? = some 35 then none
  else
    let (cname, save) := strtokR (some line) blanks none
    let (pargs, _) := strtokR none lineEnds save
    match cname with
    | none => none
    | some name =>
      (cmdtable.find? fun cmd ↦ cmd.name = name).map fun cmd ↦ (cmd, parseCommand cmd c name pargs)

/-- A string of the line as an argument. -/
def toCString (bytes : List UInt8) : CString where
  bytes := bytes.takeWhile (· ≠ 0)
  nulFree h := by simpa using List.mem_takeWhile_imp h

/-- The arguments of a command. -/
def Context.args (c : Context) : List CString :=
  (List.range (c.nargs - 1)).filterMap fun i ↦ (c.cmd (i + 1)).map toCString

/-- The call of a command's function. What `help` prints is left out. -/
def callFunc (depth curDir : ℕ) (func : CmdFunc) (c : Context) : FsProgram Outcome :=
  match func with
  | .help | .quit => pure (.silent curDir 0)
  | .fs name => handleCommand depth curDir ⟨name, c.args⟩

/-! ### One call of `strtok_r` -/

/-- A character that separates words. -/
def isBlank (c : UInt8) : Bool := c ∈ blanks

/-- The string begins after a blank of the line, or is empty. -/
def Follows (body s : List UInt8) : Prop := s = [] ∨ ∃ p b, isBlank b ∧ body = p ++ b :: s

variable {body s t : List UInt8} {ts : List (List UInt8)} {str save : Option (List UInt8)}
  {n : ℕ} {p : ParseState}

/-- A call with blanks as delimiters when there is no word. -/
theorem strtokR_blanks_nil (hs : str.or save = some s) (hwords : words isBlank s = []) :
    strtokR str blanks save = (none, some []) := by
  have hdrop : s.dropWhile (fun c ↦ decide (c ∈ blanks)) = [] := words_eq_nil_iff.mp hwords
  simp only [strtokR, hs, hdrop, if_true]

/-- A call with blanks as delimiters takes the first word. -/
theorem strtokR_blanks_cons {w : List UInt8} (hs : str.or save = some s)
    (hwords : words isBlank s = w :: ts) :
    ∃ t, strtokR str blanks save = (some w, some t) ∧ words isBlank t = ts ∧ Follows s t := by
  have hdrop : s.dropWhile isBlank ≠ [] := fun h ↦ by
    rw [words_eq_nil_iff.mpr h] at hwords
    cases hwords
  obtain ⟨-, hsplit⟩ := words_eq_cons hdrop
  rw [hsplit, List.cons.injEq] at hwords
  have hnot : (fun c ↦ decide (c ∉ blanks)) = fun c ↦ !isBlank c := by
    funext c
    simp [isBlank]
  refine ⟨((s.dropWhile isBlank).dropWhile fun c ↦ !isBlank c).tail, ?_, ?_, ?_⟩
  · have hne : s.dropWhile (fun c ↦ decide (c ∈ blanks)) ≠ [] := hdrop
    simp only [strtokR, hs, if_neg hne, hnot]
    rw [← hwords.1]
    rfl
  · rw [← hwords.2]
    cases hrest : (s.dropWhile isBlank).dropWhile fun c ↦ !isBlank c with
    | nil => rfl
    | cons b t =>
      have hb := List.head?_dropWhile_not (fun c ↦ !isBlank c) (s.dropWhile isBlank)
      rw [hrest] at hb
      exact (words_cons_of_sep (by simpa using hb) t).symm
  · cases hrest : (s.dropWhile isBlank).dropWhile fun c ↦ !isBlank c with
    | nil => exact .inl rfl
    | cons b t =>
      have hb := List.head?_dropWhile_not (fun c ↦ !isBlank c) (s.dropWhile isBlank)
      rw [hrest] at hb
      refine .inr ⟨s.takeWhile isBlank ++ (s.dropWhile isBlank).takeWhile fun c ↦ !isBlank c, b,
        by simpa using hb, ?_⟩
      rw [List.tail_cons, List.append_assoc, ← hrest, List.takeWhile_append_dropWhile,
        List.takeWhile_append_dropWhile]

/-- A call with line ends as delimiters takes what remains of the line. -/
theorem strtokR_lineEnds {ending : List UInt8} (hs : str.or save = some (s ++ ending))
    (hline : ∀ c ∈ s, c ∉ lineEnds) (hending : ∀ c ∈ ending, c ∈ lineEnds) :
    (strtokR str lineEnds save).1 = if s = [] then none else some s := by
  by_cases hempty : s = []
  · subst hempty
    have hdrop : ending.dropWhile (fun c ↦ decide (c ∈ lineEnds)) = [] :=
      List.dropWhile_eq_nil_iff.mpr fun c hc ↦ decide_eq_true (hending c hc)
    rw [List.nil_append] at hs
    simp only [strtokR, hs, hdrop, if_true]
  · obtain ⟨c, r, hcr⟩ := List.exists_cons_of_ne_nil hempty
    have hdrop : (s ++ ending).dropWhile (fun c ↦ decide (c ∈ lineEnds)) = s ++ ending := by
      rw [hcr]
      exact List.dropWhile_cons_of_neg
        (by simpa using hline c (by rw [hcr]; exact List.mem_cons_self))
    have htake : (s ++ ending).takeWhile (fun c ↦ decide (c ∉ lineEnds)) = s := by
      rw [List.takeWhile_append_of_pos fun d hd ↦ decide_eq_true (hline d hd)]
      cases ending with
      | nil => simp
      | cons d ending =>
        rw [List.takeWhile_cons_of_neg (by simpa using hending d List.mem_cons_self),
          List.append_nil]
    have hne : s ++ ending ≠ [] := List.append_ne_nil_of_left_ne_nil hempty ending
    simp only [strtokR, hs, hdrop, htake, if_neg hne, if_neg hempty]

/-! ### The loop of `parse_command` -/

theorem Follows.trans (h : Follows body s) (h' : Follows s t) : Follows body t := by
  rcases h' with rfl | ⟨p', b', hb', rfl⟩
  · exact .inl rfl
  · rcases h with hnil | ⟨p, b, hb, rfl⟩
    · exact absurd hnil (List.append_ne_nil_of_right_ne_nil p' (List.cons_ne_nil _ _))
    · exact .inr ⟨p ++ b :: p', b', hb', by simp⟩

theorem Follows.mem (h : Follows body s) {c : UInt8} (hc : c ∈ s) : c ∈ body := by
  rcases h with rfl | ⟨p, b, -, rfl⟩
  · cases hc
  · exact List.mem_append_right p (List.mem_cons_of_mem b hc)

/-- If there are enough words, the loop takes as many as it may. -/
theorem parseWords_enough (hs : p.args.or p.save = some s) (hfollows : Follows body s)
    (hwords : words isBlank s = ts) (hn : n ≤ ts.length) :
    ∃ t, (parseWords n p).args.or (parseWords n p).save = some t ∧
      words isBlank t = ts.drop n ∧ Follows body t := by
  induction n generalizing p s ts with
  | zero => exact ⟨s, hs, hwords, hfollows⟩
  | succ n ih =>
    cases ts with
    | nil => cases hn
    | cons w ts =>
      obtain ⟨t, hcall, htwords, ht⟩ := strtokR_blanks_cons hs hwords
      rw [parseWords, hcall]
      exact ih (Option.none_or ..) (hfollows.trans ht) htwords (Nat.le_of_succ_le_succ hn)

/-- If there are too few words, the loop ends behind the line. A string without a word is still
there to start again from. -/
theorem parseWords_few (hs : p.args.or p.save = some s) (hwords : words isBlank s = ts)
    (hn : ts.length < n) :
    (parseWords n p).args = (if ts = [] then p.args else none) ∧
      (parseWords n p).save = some [] := by
  induction n generalizing p s ts with
  | zero => cases hn
  | succ n ih =>
    cases ts with
    | nil =>
      rw [parseWords, strtokR_blanks_nil hs hwords]
      exact ⟨rfl, rfl⟩
    | cons w ts =>
      obtain ⟨t, hcall, htwords, -⟩ := strtokR_blanks_cons hs hwords
      rw [parseWords, hcall]
      obtain ⟨hargs, hsave⟩ := ih (p := ⟨p.j + 1, none, some t, _⟩) (Option.none_or ..) htwords
        (Nat.lt_of_succ_lt_succ hn)
      refine ⟨?_, hsave⟩
      rw [hargs, if_neg (List.cons_ne_nil w ts), ite_self]

/-- The words that the loop takes are stored in their order. -/
theorem parseWords_cmd (hs : p.args.or p.save = some s) (hwords : words isBlank s = ts) :
    (parseWords n p).j = p.j + min n ts.length ∧
      (∀ i < min n ts.length, (parseWords n p).cmd (p.j + i) = ts[i]?) ∧
      ∀ i < p.j, (parseWords n p).cmd i = p.cmd i := by
  induction n generalizing p s ts with
  | zero =>
    rw [Nat.zero_min]
    exact ⟨rfl, fun i hi ↦ absurd hi (Nat.not_lt_zero i), fun i _ ↦ rfl⟩
  | succ n ih =>
    cases ts with
    | nil =>
      rw [parseWords, strtokR_blanks_nil hs hwords, List.length_nil, Nat.min_zero]
      exact ⟨rfl, fun i hi ↦ absurd hi (Nat.not_lt_zero i),
        fun i hi ↦ Function.update_of_ne (Nat.ne_of_lt hi) ..⟩
    | cons w ts =>
      obtain ⟨t, hcall, htwords, -⟩ := strtokR_blanks_cons hs hwords
      rw [parseWords, hcall]
      obtain ⟨hj, hnew, hold⟩ := ih (p := ⟨p.j + 1, none, some t, _⟩) (Option.none_or ..) htwords
      refine ⟨?_, fun i hi ↦ ?_, fun i hi ↦ ?_⟩
      · rw [hj, List.length_cons]
        dsimp only
        omega
      · cases i with
        | zero => exact (hold p.j (Nat.lt_succ_self _)).trans (Function.update_self ..)
        | succ i =>
          rw [List.length_cons] at hi
          rw [List.getElem?_cons_succ, ← hnew i (by omega)]
          congr 1
          dsimp only
          omega
      · exact (hold i (Nat.lt_succ_of_lt hi)).trans (Function.update_of_ne (Nat.ne_of_lt hi) ..)

/-- Without a string nothing is stored and the position stays. -/
theorem parseWords_null (hargs : p.args = none) (hsave : p.save = none) :
    (parseWords n p).j = p.j ∧ (parseWords n p).args = none ∧ (parseWords n p).save = none := by
  cases n with
  | zero => exact ⟨rfl, hargs, hsave⟩
  | succ n =>
    have hcall : strtokR p.args blanks p.save = (none, none) := by
      simp [strtokR, hargs, hsave]
    rw [parseWords, hcall]
    exact ⟨rfl, hargs, rfl⟩

/-! ### The whole line -/

/-- The blanks that a text ends with. -/
def trailing (body : List UInt8) : ℕ := (body.reverse.takeWhile isBlank).length

/-- A string of blanks behind a blank at the end of a text. -/
theorem length_lt_trailing (h : Follows body s) (hne : s ≠ []) (hwords : words isBlank s = []) :
    s.length < trailing body := by
  obtain ⟨p, b, hb, rfl⟩ := h.resolve_left hne
  have hblank : ∀ c ∈ s.reverse, isBlank c = true := by
    intro c hc
    exact List.dropWhile_eq_nil_iff.mp (words_eq_nil_iff.mp hwords) c (List.mem_reverse.mp hc)
  rw [trailing, List.reverse_append, List.reverse_cons, List.append_assoc,
    List.takeWhile_append_of_pos hblank, List.singleton_append, List.takeWhile_cons_of_pos hb,
    List.length_append, List.length_reverse, List.length_cons]
  omega

/-- What `parse_command` leaves, from the end of its loop on. -/
theorem parseCommand_eq {cmd : Cmd} {c : Context} {name : List UInt8}
    {args last : Option (List UInt8)}
    {q : ParseState} (hloop : parseWords (cmd.maxArgs - 1)
      ⟨1, args, none, Function.update c.cmd 0 (some name)⟩ = q)
    (hlast : (strtokR q.args lineEnds q.save).1 = last) :
    (parseCommand cmd c name args).nargs = (if last.isSome then q.j + 1 else q.j) ∧
      (∀ i < q.j, (parseCommand cmd c name args).cmd i = q.cmd i) ∧
      (last.isSome → (parseCommand cmd c name args).cmd q.j = last) := by
  subst hloop hlast
  refine ⟨rfl, fun i hi ↦ ?_, fun hsome ↦ ?_⟩
  · simp only [parseCommand]
    rw [if_neg (by split_ifs <;> omega), Function.update_of_ne (Nat.ne_of_lt hi)]
  · simp only [parseCommand, hsome, if_true]
    rw [if_neg (by omega), Function.update_self]

/-- The arguments that `parse_command` counts and stores: the words, if there are fewer than the
limit and no blanks in their place, and more than the limit if there are as many words. -/
theorem parseCommand_run {cmd : Cmd} (hmax : 1 ≤ cmd.maxArgs) (c : Context) (name : List UInt8)
    (hfollows : Follows body s) (hbody : ∀ c ∈ body, c ∉ lineEnds) (hwords : words isBlank s = ts) :
    (ts.length < cmd.maxArgs → trailing body ≤ 1 ∨ (0 < ts.length ∧ ts.length + 1 < cmd.maxArgs) →
      (parseCommand cmd c name (if s = [] then none else some s)).nargs = ts.length + 1 ∧
      ∀ i < ts.length,
        (parseCommand cmd c name (if s = [] then none else some s)).cmd (i + 1) = ts[i]?) ∧
    (cmd.maxArgs ≤ ts.length →
      (parseCommand cmd c name (if s = [] then none else some s)).nargs = cmd.maxArgs + 1 ∧
      ∀ i < cmd.maxArgs,
        ((parseCommand cmd c name (if s = [] then none else some s)).cmd (i + 1)).isSome) := by
  -- Blanks behind a blank are more than one.
  have hblanks : ∀ {t : List UInt8}, Follows body t → words isBlank t = [] → trailing body ≤ 1 →
      t = [] := by
    intro t ht htwords hone
    by_contra hne
    have hlt := length_lt_trailing ht hne htwords
    have hpos := List.length_pos_iff.mpr hne
    omega
  have hrest : ∀ {t : List UInt8} {str save : Option (List UInt8)}, Follows body t →
      str.or save = some t → (strtokR str lineEnds save).1 = if t = [] then none else some t := by
    intro t str save ht hs
    rw [← List.append_nil t] at hs
    exact strtokR_lineEnds hs (fun c hc ↦ hbody c (ht.mem hc)) (List.forall_mem_nil _)
  by_cases hempty : s = []
  · -- There is no string after the name.
    subst hempty
    obtain rfl : ts = [] := hwords.symm
    obtain ⟨hj, hargs, hsave⟩ := parseWords_null (n := cmd.maxArgs - 1)
      (p := ⟨1, none, none, Function.update c.cmd 0 (some name)⟩) rfl rfl
    have hlast := (congrArg Prod.fst (congrArg₂ (strtokR · lineEnds ·) hargs hsave)).trans
      (show (strtokR none lineEnds none).1 = none from rfl)
    obtain ⟨hnargs, -, -⟩ := parseCommand_eq rfl hlast
    rw [if_pos rfl]
    refine ⟨fun _ _ ↦ ⟨hnargs.trans hj, fun i hi ↦ absurd hi (Nat.not_lt_zero i)⟩, fun hle ↦ ?_⟩
    rw [List.length_nil] at hle
    omega
  rw [if_neg hempty]
  obtain ⟨q, hq⟩ : ∃ q, parseWords (cmd.maxArgs - 1)
    ⟨1, some s, none, Function.update c.cmd 0 (some name)⟩ = q := ⟨_, rfl⟩
  have hs : (some s).or (none : Option (List UInt8)) = some s := rfl
  obtain ⟨hj, hcmd, -⟩ := parseWords_cmd (n := cmd.maxArgs - 1)
    (p := ⟨1, some s, none, Function.update c.cmd 0 (some name)⟩) hs hwords
  rw [hq] at hj hcmd
  dsimp only at hj hcmd
  by_cases hfew : ts.length < cmd.maxArgs - 1
  · obtain ⟨hargs, hsave⟩ := parseWords_few
      (p := ⟨1, some s, none, Function.update c.cmd 0 (some name)⟩) hs hwords hfew
    rw [hq] at hargs hsave
    rw [Nat.min_eq_right hfew.le] at hj hcmd
    refine ⟨fun _ hcase ↦ ?_, fun hle ↦ by omega⟩
    have hne : ts ≠ [] := by
      rintro rfl
      rcases hcase with hone | ⟨hpos, -⟩
      · exact hempty (hblanks hfollows hwords hone)
      · exact absurd hpos (Nat.lt_irrefl 0)
    rw [if_neg hne] at hargs
    have htail : q.args.or q.save = some [] := by
      rw [hargs, hsave]
      rfl
    have hlast := hrest (.inl rfl) htail
    rw [if_pos rfl] at hlast
    obtain ⟨hnargs, hold, -⟩ := parseCommand_eq hq hlast
    refine ⟨hnargs.trans (hj.trans (Nat.add_comm ..)), fun i hi ↦ ?_⟩
    rw [hold (i + 1) (by omega), Nat.add_comm, hcmd i hi]
  · rw [not_lt] at hfew
    obtain ⟨t, htail, htwords, ht⟩ := parseWords_enough
      (p := ⟨1, some s, none, Function.update c.cmd 0 (some name)⟩) hs hfollows hwords hfew
    rw [hq] at htail
    rw [Nat.min_eq_left hfew] at hj hcmd
    obtain ⟨hnargs, hold, hlast⟩ := parseCommand_eq hq (hrest ht htail)
    refine ⟨fun hlt hcase ↦ ?_, fun hle ↦ ?_⟩
    · have hlength : ts.length = cmd.maxArgs - 1 := by omega
      have hone : trailing body ≤ 1 := hcase.resolve_right fun hboth ↦ by omega
      have hnil := hblanks ht (by rw [htwords, ← hlength, List.drop_length]) hone
      rw [hnil] at hnargs
      refine ⟨hnargs.trans (hj.trans (by omega)), fun i hi ↦ ?_⟩
      rw [hold (i + 1) (by omega), Nat.add_comm, hcmd i (by omega)]
    · have hne : t ≠ [] := by
        rintro rfl
        have hlength := congrArg List.length htwords
        rw [words_nil, List.length_nil, List.length_drop] at hlength
        omega
      rw [if_neg hne] at hnargs hlast
      refine ⟨hnargs.trans (by rw [Option.isSome_some, if_pos rfl, hj]; omega), fun i hi ↦ ?_⟩
      by_cases hi' : i + 1 = q.j
      · rw [hi', hlast rfl]
        rfl
      · rw [hold (i + 1) (by omega), Nat.add_comm, hcmd i (by omega),
          List.getElem?_eq_getElem (by omega)]
        rfl

/-- The rest of a line behind its first word: the rest of the text and of the line end. -/
theorem exists_rest {body ending rest : List UInt8} (hfollows : Follows (body ++ ending) rest)
    (hending : ∀ c ∈ ending, c ∈ lineEnds) (hwords : words isBlank rest = ts) :
    ∃ s e, rest = s ++ e ∧ Follows body s ∧ (∀ c ∈ e, c ∈ lineEnds) ∧ words isBlank s = ts := by
  have hblank : ∀ c ∈ ending, isBlank c = true := by
    intro c hc
    have hc' := hending c hc
    simp only [lineEnds, List.mem_cons, List.not_mem_nil, or_false] at hc'
    rcases hc' with rfl | rfl <;> rfl
  -- A rest of the line end only has no word.
  have hnone : ∀ {e : List UInt8}, (∀ c ∈ e, c ∈ ending) → words isBlank e = [] := fun h ↦
    words_eq_nil fun c hc ↦ hblank c (h c hc)
  rcases hfollows with rfl | ⟨p, b, hb, heq⟩
  · exact ⟨[], [], rfl, .inl rfl, List.forall_mem_nil _, hwords⟩
  · rcases List.append_eq_append_iff.mp heq with ⟨a, rfl, hend⟩ | ⟨a, rfl, hrest⟩
    · have hmem : ∀ c ∈ rest, c ∈ ending := fun c hc ↦ by
        rw [hend]
        exact List.mem_append_right a (List.mem_cons_of_mem b hc)
      exact ⟨[], rest, rfl, .inl rfl, fun c hc ↦ hending c (hmem c hc), by
        rw [words_nil, ← hwords, hnone hmem]⟩
    · cases a with
      | nil =>
        have hmem : ∀ c ∈ rest, c ∈ ending := fun c hc ↦ by
          rw [List.nil_append] at hrest
          rw [← hrest]
          exact List.mem_cons_of_mem b hc
        exact ⟨[], rest, rfl, .inl rfl, fun c hc ↦ hending c (hmem c hc), by
          rw [words_nil, ← hwords, hnone hmem]⟩
      | cons d a =>
        rw [List.cons_append, List.cons.injEq] at hrest
        obtain ⟨rfl, rfl⟩ := hrest
        exact ⟨a, ending, rfl, .inr ⟨p, b, hb, rfl⟩, hending, by
          rw [← hwords, words_append_right_of_sep hblank]⟩

/-- A line whose first word is the name of a command is parsed for that command. -/
theorem parseLine_run {body ending : List UInt8} {cmd : Cmd} (hcmd : cmd ∈ cmdtable)
    (hbody : ∀ c ∈ body, c ∉ lineEnds) (hending : ∀ c ∈ ending, c ∈ lineEnds)
    (hwords : words isBlank (body ++ ending) = cmd.name :: ts) (c : Context) :
    ∃ s, Follows body s ∧ words isBlank s = ts ∧ parseLine c (body ++ ending) =
      some (cmd, parseCommand cmd c cmd.name (if s = [] then none else some s)) := by
  have hnames : ∀ cmd ∈ cmdtable, (cmdtable.find? fun other ↦ other.name = cmd.name) = some cmd ∧
      cmd.name.head? ≠ some 35 := by
    decide
  obtain ⟨hfind, hhash⟩ := hnames cmd hcmd
  have hline : (some (body ++ ending)).or none = some (body ++ ending) := rfl
  obtain ⟨rest, hcall, hrest, hfollows⟩ := strtokR_blanks_cons hline hwords
  obtain ⟨s, e, rfl, hs, he, hswords⟩ := exists_rest hfollows hending hrest
  have hpargs : (strtokR none lineEnds (some (s ++ e))).1 = if s = [] then none else some s :=
    strtokR_lineEnds (Option.none_or ..) (fun c hc ↦ hbody c (hs.mem hc)) he
  -- The name of a command does not begin a comment.
  have hcomment : (body ++ ending).head? ≠ some 35 := by
    intro hhead
    obtain ⟨r, hr⟩ : ∃ r, body ++ ending = 35 :: r := by
      cases hline : body ++ ending with
      | nil => rw [hline] at hhead; cases hhead
      | cons d r =>
        rw [hline, List.head?_cons, Option.some.injEq] at hhead
        exact ⟨r, by rw [hhead]⟩
    have hdrop : (body ++ ending).dropWhile isBlank ≠ [] := by
      rw [hr]
      exact List.cons_ne_nil _ _
    obtain ⟨-, hsplit⟩ := words_eq_cons hdrop
    rw [hwords, hr, List.cons.injEq] at hsplit
    exact hhash (by rw [hsplit.1]; rfl)
  refine ⟨s, hs, hswords, ?_⟩
  rw [parseLine, if_neg hcomment]
  simp only [hcall, hpargs, hfind, Option.map_some]

/-! ### Commands with the wrong number of arguments -/

/-- A command that uses the file system refuses every number of arguments but one less than its
limit. -/
theorem handleCommand_of_length {cmd : Cmd} {name : CommandName} {args : List CString}
    (hcmd : cmd ∈ cmdtable) (hfunc : cmd.func = .fs name) (hlength : args.length + 1 ≠ cmd.maxArgs)
    (depth curDir : ℕ) :
    handleCommand depth curDir ⟨name, args⟩ = pure (.silent curDir (-eINVAL)) := by
  simp only [cmdtable, List.mem_cons, List.not_mem_nil, or_false] at hcmd
  rcases args with _ | ⟨a, _ | ⟨b, _ | ⟨c, _ | ⟨d, args⟩⟩⟩⟩ <;>
  rcases hcmd with rfl | rfl | rfl | rfl | rfl | rfl | rfl | rfl | rfl | rfl | rfl | rfl | rfl <;>
  cases hfunc <;> first | rfl | exact absurd rfl hlength

/-- The number of arguments when all of them are stored. -/
theorem Context.length_args {c : Context} (h : ∀ i < c.nargs - 1, (c.cmd (i + 1)).isSome) :
    c.args.length = c.nargs - 1 := by
  have hall := (List.filterMap_length_eq_length (l := List.range (c.nargs - 1))
    (f := fun i ↦ (c.cmd (i + 1)).map toCString)).mpr fun i hi ↦ by
      rw [Option.isSome_map]
      exact h i (List.mem_range.mp hi)
  rw [Context.args, hall, List.length_range]

/-! ### Main results -/

/-- Assumes: a line of one text and its line end, whose first word is the name of a command.
Fewer further words than the limit are counted and stored in their order, if at most one blank
follows the last word or there is more than one argument to spare; as many words as the limit, or
more, count as one more than the limit, and every command that looks at its arguments refuses
them. -/
theorem command_line_words (body ending : List UInt8) (hbody : ∀ c ∈ body, c ∉ lineEnds)
    (hending : ∀ c ∈ ending, c ∈ lineEnds) (cmd : Cmd) (hcmd : cmd ∈ cmdtable)
    (ts : List (List UInt8)) (hwords : words isBlank (body ++ ending) = cmd.name :: ts)
    (c : Context) :
    ∃ c', parseLine c (body ++ ending) = some (cmd, c') ∧
      (ts.length < cmd.maxArgs →
        trailing body ≤ 1 ∨ (0 < ts.length ∧ ts.length + 1 < cmd.maxArgs) →
        c'.nargs = ts.length + 1 ∧ ∀ i < ts.length, c'.cmd (i + 1) = ts[i]?) ∧
      (cmd.maxArgs ≤ ts.length → c'.nargs = cmd.maxArgs + 1 ∧
        (cmd.func = .help ∨ cmd.func = .quit ∨ ∀ depth curDir,
          callFunc depth curDir cmd.func c' = pure (.silent curDir (-eINVAL)))) := by
  have hmax : ∀ cmd ∈ cmdtable, 1 ≤ cmd.maxArgs := by decide
  obtain ⟨s, hfollows, hswords, hparse⟩ := parseLine_run hcmd hbody hending hwords c
  obtain ⟨hfew, hmany⟩ := parseCommand_run (hmax cmd hcmd) c cmd.name hfollows hbody hswords
  refine ⟨_, hparse, hfew, fun hle ↦ ?_⟩
  obtain ⟨hnargs, hsome⟩ := hmany hle
  refine ⟨hnargs, ?_⟩
  cases hfunc : cmd.func with
  | help => exact .inl rfl
  | quit => exact .inr (.inl rfl)
  | fs name =>
    refine .inr (.inr fun depth curDir ↦ handleCommand_of_length hcmd hfunc ?_ depth curDir)
    rw [Context.length_args fun i hi ↦ hsome i (by omega), hnargs]
    omega

/-- The line `ls`, a tab, `a`, a blank and a line end. -/
theorem command_line_words_ls : ∃ c', parseLine ⟨0, fun _ ↦ none⟩ [108, 115, 9, 97, 32, 10] =
    some (⟨nameBytes "ls", .fs .ls, 2⟩, c') ∧ c'.nargs = 2 ∧ c'.cmd 1 = some [97] := by
  obtain ⟨c', hparse, hfew, -⟩ := command_line_words [108, 115, 9, 97, 32] [10] (by decide +kernel)
    (by decide +kernel) ⟨nameBytes "ls", .fs .ls, 2⟩ (by decide +kernel) [[97]]
    (by decide +kernel) ⟨0, fun _ ↦ none⟩
  obtain ⟨hnargs, hwords⟩ := hfew (by decide +kernel) (.inl (by decide +kernel))
  exact ⟨c', hparse, hnargs, hwords 0 (by decide +kernel)⟩

/-- Two blanks after `create` count as an argument, and `help` accepts an argument. -/
theorem not_command_line_words :
    (¬∀ (body ending : List UInt8), (∀ c ∈ body, c ∉ lineEnds) → (∀ c ∈ ending, c ∈ lineEnds) →
      ∀ cmd ∈ cmdtable, ∀ ts, words isBlank (body ++ ending) = cmd.name :: ts →
        ts.length < cmd.maxArgs → ∀ c, ∃ c', parseLine c (body ++ ending) = some (cmd, c') ∧
          c'.nargs = ts.length + 1) ∧
    ¬∀ (body ending : List UInt8), (∀ c ∈ body, c ∉ lineEnds) → (∀ c ∈ ending, c ∈ lineEnds) →
      ∀ cmd ∈ cmdtable, ∀ ts, words isBlank (body ++ ending) = cmd.name :: ts →
        cmd.maxArgs ≤ ts.length → ∀ c, ∃ c', parseLine c (body ++ ending) = some (cmd, c') ∧
          ∀ depth curDir,
            callFunc depth curDir cmd.func c' = pure (.silent curDir (-eINVAL)) := by
  refine ⟨fun hall ↦ ?_, fun hall ↦ ?_⟩
  · obtain ⟨c', hparse, hnargs⟩ := hall (nameBytes "create" ++ [32, 32]) [10] (by decide +kernel)
      (by decide +kernel) ⟨nameBytes "create", .fs .create, 2⟩ (by decide +kernel) []
      (by decide +kernel) (by decide +kernel) ⟨0, fun _ ↦ none⟩
    have htwo : (parseLine ⟨0, fun _ ↦ none⟩ (nameBytes "create" ++ [32, 32] ++ [10])).map
        (fun result ↦ result.2.nargs) = some 2 := by
      decide +kernel
    rw [hparse, Option.map_some, hnargs] at htwo
    exact absurd htwo (by decide +kernel)
  · obtain ⟨c', -, hrefused⟩ := hall (nameBytes "help" ++ [32, 97]) [10] (by decide +kernel)
      (by decide +kernel) ⟨nameBytes "help", .help, 1⟩ (by decide +kernel) [[97]]
      (by decide +kernel) (by decide +kernel) ⟨0, fun _ ↦ none⟩
    have hrun := congrArg (fun m : FsProgram Outcome ↦ m.run (testfsMakeSuperBlock 1))
      (hrefused 0 0)
    have hret := congrArg Outcome.ret (Prod.mk.inj (Except.ok.inj hrun)).1
    exact absurd hret (by decide +kernel)

end OperatingSystems.Fs
