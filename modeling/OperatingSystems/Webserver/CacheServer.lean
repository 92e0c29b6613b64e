import OperatingSystems.Library.Machine
import OperatingSystems.Webserver.CacheRep
import OperatingSystems.Webserver.Response

/-!
# Requests that share a cache

`do_server_request` with any number of executions at once. The three sections of the function that
hold `cache->lock` (`cache_lookup`, `cache_insert` and the decrement of `in_use`) are one step each,
and so are the steps between them that touch nothing but the execution's own data: reading the
file, taking the data of a found entry over and sending the response. An execution's position says
which of them comes next, with the data the function has at hand there.

The loops of the cache are given one turn more than the list has nodes. That this is always enough
is part of what is shown: in every reachable state the sections return.

`Invariant` ties the cache to the executions: it is consistent, an entry's use count is the number
of executions that have found the entry and not released it, and an entry that is so held is still
there. Along runs that read from a fixed `disk`, `Faithful` says that the cache and the executions
hold what is on the disk under the names they are for.
-/

set_option autoImplicit false
set_option relaxedAutoImplicit false

namespace OperatingSystems.Webserver

open Library Cache

/-- What an execution of `do_server_request` does next. -/
inductive Position
  /-- `cache_lookup`. -/
  | lookup (fileName : List UInt8)
  /-- The entry was found: free the own data and take the data of the entry. -/
  | hit (entry : ℕ)
  /-- The name was not found: `request_readfile`. -/
  | read (fileName : List UInt8)
  /-- `cache_insert`. -/
  | insert (data : FileData)
  /-- `request_sendfile`, with the entry if the data is that of an entry. -/
  | send (data : FileData) (entry : Option ℕ)
  /-- The response is sent: release the entry. -/
  | release (response : List UInt8) (entry : ℕ)
  /-- The response is sent. -/
  | done (response : List UInt8)
  deriving DecidableEq

/-- The entry that an execution has found and not released. -/
def Position.entry : Position → Option ℕ
  | .hit entry => some entry
  | .send _ entry => entry
  | .release _ entry => some entry
  | .lookup _ | .read _ | .insert _ | .done _ => none

/-- The position after `request_init`. -/
def Position.start (line : RequestLine) : Position :=
  match requestInit line with
  | .error response => .done response
  | .ok fileName => .lookup fileName

/-- An execution, with the request line it is for. -/
structure Execution where
  line : RequestLine
  position : Position
  deriving DecidableEq

/-- The cache, if there is one, and the executions. -/
structure CacheServer where
  cache : Option Cache
  executions : List Execution

namespace CacheServer

/-- The server that `server_init` makes. -/
def init (maxCacheSize : ℤ) : CacheServer :=
  ⟨if maxCacheSize > 0 then some (Cache.init maxCacheSize) else none, []⟩

/-- Execution `i`, which is `x`, goes to a position. -/
def goto (s : CacheServer) (i : ℕ) (x : Execution) (position : Position) : CacheServer :=
  { s with executions := s.executions.set i ⟨x.line, position⟩ }

/-- The server with another cache. -/
def withCache (s : CacheServer) (cache : Cache) : CacheServer := { s with cache := some cache }

/-- The number of turns the loops of the cache are given. -/
def turns (c : Cache) : ℕ := c.lru.size.toNat + 1

/-- The moves of the executions. -/
inductive Move
  /-- `do_server_request` is called. -/
  | arrive (line : RequestLine)
  /-- Execution `i` looks its name up. -/
  | lookup (i : ℕ)
  /-- Execution `i` takes the data of the entry it has found. -/
  | use (i : ℕ)
  /-- Execution `i` reads its file, with this outcome. -/
  | read (i : ℕ) (outcome : ReadOutcome)
  /-- Execution `i` inserts its file, with the addresses that `malloc` returns. -/
  | insert (i address node : ℕ)
  /-- Execution `i` sends its response. -/
  | send (i : ℕ)
  /-- Execution `i` releases its entry. -/
  | release (i : ℕ)

/-- `cache_lookup` in an execution. -/
def stepLookup (s : CacheServer) (i : ℕ) (x : Execution) (fileName : List UInt8) :
    Option CacheServer :=
  match s.cache with
  | none => some (s.goto i x (.read fileName))
  | some c =>
    match (cacheLookup (turns c) fileName).run c with
    | .ok (some entry, c') => some ((s.withCache c').goto i x (.hit entry))
    | .ok (none, c') => some ((s.withCache c').goto i x (.read fileName))
    | .error _ => none

/-- `request_set_data` with the data of the entry. -/
def stepUse (s : CacheServer) (i : ℕ) (x : Execution) (entry : ℕ) : Option CacheServer := do
  let c ← s.cache
  let e ← c.entries entry
  some (s.goto i x (.send e.data (some entry)))

/-- What follows `request_readfile`. -/
def stepRead (s : CacheServer) (i : ℕ) (x : Execution) (fileName : List UInt8) :
    ReadOutcome → Option CacheServer
  | .refused response => some (s.goto i x (.done response))
  | .filled fileBuf fileSize => some (s.goto i x (.insert ⟨fileName, fileBuf, fileSize⟩))
  | .exits => none

/-- `cache_insert` in an execution. -/
def stepInsert (s : CacheServer) (i : ℕ) (x : Execution) (data : FileData) (address node : ℕ) :
    Option CacheServer :=
  match s.cache with
  | none => some (s.goto i x (.send data none))
  | some c =>
    match (cacheInsert (turns c) address node data).run c with
    | .ok (_, c') => some ((s.withCache c').goto i x (.send data none))
    | .error _ => none

/-- What follows `request_sendfile`. -/
def stepSend (s : CacheServer) (i : ℕ) (x : Execution) (data : FileData) :
    Option ℕ → CacheServer
  | some entry => s.goto i x (.release (requestSendfile data) entry)
  | none => s.goto i x (.done (requestSendfile data))

/-- The decrement of `in_use`. -/
def stepRelease (s : CacheServer) (i : ℕ) (x : Execution) (response : List UInt8) (entry : ℕ) :
    Option CacheServer :=
  match s.cache with
  | none => none
  | some c =>
    match (cacheRelease entry).run c with
    | .ok (_, c') => some ((s.withCache c').goto i x (.done response))
    | .error _ => none

/-- One move of one execution. -/
def step (s : CacheServer) : Move → Option CacheServer
  | .arrive line => some { s with executions := s.executions ++ [⟨line, .start line⟩] }
  | .lookup i =>
    match s.executions[i]? with
    | some ⟨line, .lookup fileName⟩ => s.stepLookup i ⟨line, .lookup fileName⟩ fileName
    | _ => none
  | .use i =>
    match s.executions[i]? with
    | some ⟨line, .hit entry⟩ => s.stepUse i ⟨line, .hit entry⟩ entry
    | _ => none
  | .read i outcome =>
    match s.executions[i]? with
    | some ⟨line, .read fileName⟩ => s.stepRead i ⟨line, .read fileName⟩ fileName outcome
    | _ => none
  | .insert i address node =>
    match s.executions[i]? with
    | some ⟨line, .insert data⟩ => s.stepInsert i ⟨line, .insert data⟩ data address node
    | _ => none
  | .send i =>
    match s.executions[i]? with
    | some ⟨line, .send data entry⟩ => some (s.stepSend i ⟨line, .send data entry⟩ data entry)
    | _ => none
  | .release i =>
    match s.executions[i]? with
    | some ⟨line, .release response entry⟩ =>
      s.stepRelease i ⟨line, .release response entry⟩ response entry
    | _ => none

/-- A file that is read has a size that is not negative. -/
def Sized (_ : CacheServer) : Move → Prop
  | .read _ (.filled _ fileSize) => 0 ≤ fileSize
  | _ => True

instance (s : CacheServer) (m : Move) : Decidable (s.Sized m) :=
  match m with
  | .read _ (.filled _ fileSize) => inferInstanceAs (Decidable (0 ≤ fileSize))
  | .read _ (.refused _) | .read _ .exits | .arrive _ | .lookup _ | .use _ | .insert .. | .send _
  | .release _ => inferInstanceAs (Decidable True)

/-- The state is reached by some interleaving of requests. -/
def Reachable (maxCacheSize : ℤ) (s : CacheServer) : Prop :=
  Machine.Reaches Sized step (init maxCacheSize) s

/-! ### What a move can do -/

/-- What one move can do, with the state it leaves. -/
inductive Transition (s : CacheServer) : Move → CacheServer → Prop
  | arrive (line : RequestLine) :
    Transition s (.arrive line) { s with executions := s.executions ++ [⟨line, .start line⟩] }
  | lookupNone {i line fileName} (hi : s.executions[i]? = some ⟨line, .lookup fileName⟩)
      (hcache : s.cache = none) :
    Transition s (.lookup i) (s.goto i ⟨line, .lookup fileName⟩ (.read fileName))
  | lookup {i line fileName c c' found}
      (hi : s.executions[i]? = some ⟨line, .lookup fileName⟩) (hcache : s.cache = some c)
      (hrun : (cacheLookup (turns c) fileName).run c = .ok (found, c')) :
    Transition s (.lookup i) ((s.withCache c').goto i ⟨line, .lookup fileName⟩
      (found.elim (.read fileName) .hit))
  | use {i line entry c e} (hi : s.executions[i]? = some ⟨line, .hit entry⟩)
      (hcache : s.cache = some c) (hentry : c.entries entry = some e) :
    Transition s (.use i) (s.goto i ⟨line, .hit entry⟩ (.send e.data (some entry)))
  | readRefused {i line fileName response}
      (hi : s.executions[i]? = some ⟨line, .read fileName⟩) :
    Transition s (.read i (.refused response))
      (s.goto i ⟨line, .read fileName⟩ (.done response))
  | readFilled {i line fileName fileBuf fileSize}
      (hi : s.executions[i]? = some ⟨line, .read fileName⟩) :
    Transition s (.read i (.filled fileBuf fileSize))
      (s.goto i ⟨line, .read fileName⟩ (.insert ⟨fileName, fileBuf, fileSize⟩))
  | insertNone {i line data address node} (hi : s.executions[i]? = some ⟨line, .insert data⟩)
      (hcache : s.cache = none) :
    Transition s (.insert i address node) (s.goto i ⟨line, .insert data⟩ (.send data none))
  | insert {i line data address node c c' result}
      (hi : s.executions[i]? = some ⟨line, .insert data⟩) (hcache : s.cache = some c)
      (hrun : (cacheInsert (turns c) address node data).run c = .ok (result, c')) :
    Transition s (.insert i address node)
      ((s.withCache c').goto i ⟨line, .insert data⟩ (.send data none))
  | send {i line data entry} (hi : s.executions[i]? = some ⟨line, .send data entry⟩) :
    Transition s (.send i) (s.goto i ⟨line, .send data entry⟩
      (entry.elim (.done (requestSendfile data)) (.release (requestSendfile data))))
  | release {i line response entry c c' u}
      (hi : s.executions[i]? = some ⟨line, .release response entry⟩) (hcache : s.cache = some c)
      (hrun : (cacheRelease entry).run c = .ok (u, c')) :
    Transition s (.release i)
      ((s.withCache c').goto i ⟨line, .release response entry⟩ (.done response))

/-- Every move is one of the transitions. -/
theorem Transition.of_step {s t : CacheServer} {m : Move} (h : s.step m = some t) :
    Transition s m t := by
  cases m with
  | arrive line =>
    cases h
    exact .arrive line
  | lookup i =>
    simp only [step] at h
    split at h
    case h_1 line fileName hi =>
      unfold stepLookup at h
      split at h
      case h_1 hcache =>
        cases h
        exact .lookupNone hi hcache
      case h_2 c hcache =>
        split at h
        case h_1 entry c' hrun =>
          cases h
          exact .lookup hi hcache hrun
        case h_2 c' hrun =>
          cases h
          exact .lookup hi hcache hrun
        case h_3 => cases h
    case h_2 => cases h
  | use i =>
    simp only [step] at h
    split at h
    case h_1 line entry hi =>
      simp only [stepUse, Option.bind_eq_bind, Option.bind_eq_some_iff, Option.some.injEq] at h
      obtain ⟨c, hcache, e, he, rfl⟩ := h
      exact .use hi hcache he
    case h_2 => cases h
  | read i outcome =>
    simp only [step] at h
    split at h
    case h_1 line fileName hi =>
      cases outcome with
      | refused response =>
        cases h
        exact .readRefused hi
      | filled fileBuf fileSize =>
        cases h
        exact .readFilled hi
      | exits => cases h
    case h_2 => cases h
  | insert i address node =>
    simp only [step] at h
    split at h
    case h_1 line data hi =>
      unfold stepInsert at h
      split at h
      case h_1 hcache =>
        cases h
        exact .insertNone hi hcache
      case h_2 c hcache =>
        split at h
        case h_1 result c' hrun =>
          cases h
          exact .insert hi hcache hrun
        case h_2 => cases h
    case h_2 => cases h
  | send i =>
    simp only [step] at h
    split at h
    case h_1 line data entry hi =>
      cases h
      cases entry with
      | none => exact .send hi
      | some entry => exact .send hi
    case h_2 => cases h
  | release i =>
    simp only [step] at h
    split at h
    case h_1 line response entry hi =>
      unfold stepRelease at h
      split at h
      case h_1 => cases h
      case h_2 c hcache =>
        split at h
        case h_1 u c' hrun =>
          cases h
          exact .release hi hcache hrun
        case h_2 => cases h
    case h_2 => cases h

/-! ### Use counts -/

variable {s t : CacheServer} {m : Move} {c c' : Cache} {maxCacheSize : ℤ} {i : ℕ} {x : Execution}
  {position : Position}

/-- The number of executions that have found an entry and not released it. -/
def users (s : CacheServer) (a : ℕ) : ℕ := s.executions.countP fun x ↦ x.position.entry == some a

/-- The users of the entries when one execution goes to another position. -/
theorem users_goto (hi : s.executions[i]? = some x) (position : Position) (a : ℕ) :
    (s.goto i x position).users a + (if x.position.entry = some a then 1 else 0) =
      s.users a + if position.entry = some a then 1 else 0 := by
  obtain ⟨hlt, hx⟩ := List.getElem?_eq_some_iff.mp hi
  have hle := List.boole_getElem_le_countP (p := fun x : Execution ↦ x.position.entry == some a) hlt
  simp only [users, goto]
  rw [List.countP_set hlt]
  simp only [hx, beq_iff_eq] at hle ⊢
  omega

/-- The execution that holds an entry is one of its users. -/
theorem users_pos {a : ℕ} (hi : s.executions[i]? = some x) (hentry : x.position.entry = some a) :
    0 < s.users a :=
  List.countP_pos_iff.mpr ⟨x, List.mem_of_getElem? hi, by simp [hentry]⟩

/-- A position for the same entry leaves the users of every entry. -/
theorem users_goto_of_eq (hi : s.executions[i]? = some x)
    (hentry : position.entry = x.position.entry) (a : ℕ) :
    (s.goto i x position).users a = s.users a := by
  have h := users_goto hi position a
  rw [hentry] at h
  omega

/-- The use counts are those of the executions, and what is used is there. -/
structure Pinned (s : CacheServer) (c : Cache) : Prop where
  count : ∀ a e, c.entries a = some e → e.inUse = s.users a
  live : ∀ a, 0 < s.users a → ∃ e, c.entries a = some e

/-- The use counts depend on the users only. -/
theorem Pinned.congr (h : s.Pinned c) (husers : ∀ a, t.users a = s.users a)
    (hentries : c'.entries = c.entries) : t.Pinned c' where
  count a e he := by
    rw [husers]
    exact h.count a e (by rw [← hentries]; exact he)
  live a ha := by
    rw [husers] at ha
    rw [hentries]
    exact h.live a ha

/-- Finding an entry raises its use count with the number of its users. -/
theorem Pinned.add {a : ℕ} {e : CacheEntry} {k : ℤ} (h : s.Pinned c) (he : c.entries a = some e)
    (hself : (t.users a : ℤ) = s.users a + k) (hother : ∀ b, b ≠ a → t.users b = s.users b)
    (hentries : c'.entries = (addUse a k c).entries) : t.Pinned c' where
  count b f hf := by
    rw [hentries] at hf
    by_cases hb : b = a
    · subst hb
      rw [addUse_entries_self he, Option.some.injEq] at hf
      rw [← hf, hself, ← h.count b e he]
    · rw [addUse_entries_of_ne hb] at hf
      rw [hother b hb]
      exact h.count b f hf
  live b hb := by
    rw [hentries]
    by_cases hba : b = a
    · subst hba
      exact ⟨_, addUse_entries_self he⟩
    · rw [addUse_entries_of_ne hba]
      rw [hother b hba] at hb
      exact h.live b hb

/-- An entry without users may be evicted, and another one put in its place. -/
theorem Pinned.insert {address : ℕ} {file : FileData} (h : s.Pinned c)
    (husers : ∀ a, t.users a = s.users a) (hinserted : c.Inserted address file c') :
    t.Pinned c' where
  count a e he := by
    rw [husers]
    rcases hinserted.entries a with heq | ⟨hnone, -⟩ | ⟨-, hnew, hidle⟩
    · exact h.count a e (heq.symm.trans he)
    · rw [hnone] at he
      cases he
    · rw [hnew, Option.some.injEq] at he
      have hunused : ¬0 < s.users a := by
        intro hused
        obtain ⟨f, hf⟩ := h.live a hused
        have hidle' := hidle f hf
        rw [h.count a f hf] at hidle'
        omega
      rw [← he]
      dsimp only
      omega
  live a ha := by
    rw [husers] at ha
    obtain ⟨e, he⟩ := h.live a ha
    rcases hinserted.entries a with heq | ⟨-, f, hf, hidle⟩ | ⟨-, hnew, -⟩
    · exact ⟨e, heq.trans he⟩
    · rw [h.count a f hf] at hidle
      omega
    · exact ⟨_, hnew⟩

/-- The invariant of the executions and the cache. -/
structure Invariant (maxCacheSize : ℤ) (s : CacheServer) : Prop where
  consistent : ∀ c, s.cache = some c → ∃ chains lru, c.Consistent chains lru
  maxCacheSize : ∀ c, s.cache = some c → c.maxCacheSize = maxCacheSize
  pinned : ∀ c, s.cache = some c → s.Pinned c
  sized : ∀ x ∈ s.executions, ∀ data, x.position = .insert data → 0 ≤ data.fileSize

/-- A new server. -/
theorem invariant_init (maxCacheSize : ℤ) : (init maxCacheSize).Invariant maxCacheSize := by
  have hcache : ∀ c, (init maxCacheSize).cache = some c →
      0 < maxCacheSize ∧ c = Cache.init maxCacheSize := by
    intro c hc
    simp only [init] at hc
    split_ifs at hc with hpos
    exact ⟨hpos, (Option.some.inj hc).symm⟩
  constructor
  · intro c hc
    obtain ⟨hpos, rfl⟩ := hcache c hc
    exact ⟨_, _, Consistent.init hpos.le⟩
  · intro c hc
    obtain ⟨-, rfl⟩ := hcache c hc
    rfl
  · intro c hc
    obtain ⟨-, rfl⟩ := hcache c hc
    refine ⟨fun a e he ↦ ?_, fun a ha ↦ ?_⟩
    · cases he
    · simp [users, init] at ha
  · intro x hx
    cases hx

/-- The executions after one of them has gone to another position. -/
theorem mem_goto {y : Execution} (hy : y ∈ (s.goto i x position).executions) :
    y ∈ s.executions ∨ y = ⟨x.line, position⟩ :=
  List.mem_or_eq_of_mem_set hy

/-- A move that leaves the cache and goes to a position for the same entry. -/
theorem Invariant.goto (h : s.Invariant maxCacheSize) (hi : s.executions[i]? = some x)
    (hentry : position.entry = x.position.entry)
    (hsized : ∀ data, position = .insert data → 0 ≤ data.fileSize) :
    (s.goto i x position).Invariant maxCacheSize where
  consistent := h.consistent
  maxCacheSize := h.maxCacheSize
  pinned c hc := (h.pinned c hc).congr (users_goto_of_eq hi hentry) rfl
  sized y hy data hdata := by
    rcases mem_goto hy with hold | rfl
    · exact h.sized y hold data hdata
    · exact hsized data hdata

/-- A move that leaves another cache and goes to a position that is not an insertion. -/
theorem Invariant.withCache {chains : ℕ → List ℕ} {lru : List (ℕ × ℕ)}
    (h : s.Invariant maxCacheSize) (hc : c.Consistent chains lru)
    (hmax : c.maxCacheSize = maxCacheSize)
    (hpinned : ((s.withCache c).goto i x position).Pinned c)
    (hsized : ∀ data, position = .insert data → 0 ≤ data.fileSize) :
    ((s.withCache c).goto i x position).Invariant maxCacheSize where
  consistent d hd := by
    cases hd
    exact ⟨chains, lru, hc⟩
  maxCacheSize d hd := by
    cases hd
    exact hmax
  pinned d hd := by
    cases hd
    exact hpinned
  sized y hy data hdata := by
    rcases mem_goto hy with hold | rfl
    · exact h.sized y hold data hdata
    · exact hsized data hdata

/-- Looking a name up keeps the invariant. -/
theorem Invariant.lookup {line : RequestLine} {fileName : List UInt8} {found : Option ℕ}
    (h : s.Invariant maxCacheSize) (hi : s.executions[i]? = some ⟨line, .lookup fileName⟩)
    (hcache : s.cache = some c)
    (hrun : (cacheLookup (turns c) fileName).run c = .ok (found, c')) :
    ((s.withCache c').goto i ⟨line, .lookup fileName⟩
      (found.elim (.read fileName) .hit)).Invariant maxCacheSize := by
  obtain ⟨chains, lru, hc⟩ := h.consistent c hcache
  have hpinned := h.pinned c hcache
  rcases hc.cacheLookup_run hc.enough fileName with
    ⟨hmiss, -⟩ | ⟨⟨n, a⟩, r, s', e, d, -, hhit, he, -, hd, hentries, hmax⟩
  · obtain ⟨rfl, rfl⟩ : found = none ∧ c' = c := by
      simpa using hrun.symm.trans hmiss
    exact h.withCache hc (h.maxCacheSize c' hcache)
      (hpinned.congr (users_goto_of_eq (s := s.withCache c') hi rfl) rfl) (by simp)
  · obtain ⟨rfl, rfl⟩ : found = some a ∧ c' = d := by
      simpa using hrun.symm.trans hhit
    refine h.withCache hd (hmax.trans (h.maxCacheSize c hcache)) (hpinned.add he ?_ ?_ hentries)
      (by simp)
    · have husers := users_goto (s := s.withCache c') hi (.hit a) a
      simp only [Position.entry, if_true, reduceCtorEq, if_false] at husers
      exact_mod_cast husers
    · intro b hb
      have husers := users_goto (s := s.withCache c') hi (.hit a) b
      simp only [Position.entry, Option.some.injEq, hb.symm, reduceCtorEq, if_false] at husers
      exact husers

/-- Inserting a file keeps the invariant. -/
theorem Invariant.insert {line : RequestLine} {data : FileData} {address node result : ℕ}
    (h : s.Invariant maxCacheSize) (hi : s.executions[i]? = some ⟨line, .insert data⟩)
    (hcache : s.cache = some c)
    (hrun : (cacheInsert (turns c) address node data).run c = .ok (result, c')) :
    ((s.withCache c').goto i ⟨line, .insert data⟩ (.send data none)).Invariant maxCacheSize := by
  obtain ⟨chains, lru, hc⟩ := h.consistent c hcache
  have hsize := h.sized _ (List.mem_of_getElem? hi) data rfl
  rcases hc.cacheInsert_run (a := address) (n := node) hc.enough hsize with
    ⟨result', d, chains', lru', hrun', hd, hinserted⟩ | ⟨herror, -⟩
  · obtain ⟨-, rfl⟩ : result = result' ∧ c' = d := by
      simpa using hrun.symm.trans hrun'
    exact h.withCache hd (hinserted.toInserted.maxCacheSize.trans (h.maxCacheSize c hcache))
      ((h.pinned c hcache).insert (users_goto_of_eq (s := s.withCache c') hi rfl)
        hinserted.toInserted)
      (by simp)
  · exact absurd (hrun.symm.trans herror) (by simp)

/-- Releasing an entry keeps the invariant. -/
theorem Invariant.release {line : RequestLine} {response : List UInt8} {entry : ℕ} {u : Unit}
    (h : s.Invariant maxCacheSize)
    (hi : s.executions[i]? = some ⟨line, .release response entry⟩) (hcache : s.cache = some c)
    (hrun : (cacheRelease entry).run c = .ok (u, c')) :
    ((s.withCache c').goto i ⟨line, .release response entry⟩
      (.done response)).Invariant maxCacheSize := by
  obtain ⟨chains, lru, hc⟩ := h.consistent c hcache
  have hpinned := h.pinned c hcache
  have hused := users_pos hi rfl
  obtain ⟨e, he⟩ := hpinned.live entry hused
  obtain ⟨hrun', hd⟩ := hc.cacheRelease_run he (by rw [hpinned.count entry e he]; omega)
  obtain ⟨-, rfl⟩ : u = () ∧ c' = addUse entry (-1) c := by
    simpa using hrun.symm.trans hrun'
  have husers := users_goto (s := s.withCache (addUse entry (-1) c)) hi (.done response)
  refine h.withCache hd (h.maxCacheSize c hcache) (hpinned.add he ?_ ?_ rfl) (by simp)
  · have hself := husers entry
    simp only [Position.entry, if_true, reduceCtorEq, if_false] at hself
    have hsame : (s.withCache (addUse entry (-1) c)).users entry = s.users entry := rfl
    omega
  · intro b hb
    have hother := husers b
    simp only [Position.entry, Option.some.injEq, hb.symm, reduceCtorEq, if_false] at hother
    exact hother

/-- Every move keeps the invariant. -/
theorem Invariant.step (h : s.Invariant maxCacheSize) (hsized : s.Sized m)
    (hstep : s.step m = some t) : t.Invariant maxCacheSize := by
  cases Transition.of_step hstep with
  | arrive line =>
    have hstart : (Position.start line).entry = none ∧
        ∀ data, Position.start line ≠ .insert data := by
      unfold Position.start
      split <;> simp [Position.entry]
    refine ⟨h.consistent, h.maxCacheSize, fun c hc ↦ (h.pinned c hc).congr (fun a ↦ ?_) rfl, ?_⟩
    · simp [users, hstart.1]
    · intro x hx data hdata
      rcases List.mem_append.mp hx with hold | hnew
      · exact h.sized x hold data hdata
      · rw [List.mem_singleton.mp hnew] at hdata
        exact absurd hdata (hstart.2 data)
  | lookupNone hi hcache => exact h.goto hi rfl (by simp)
  | lookup hi hcache hrun => exact h.lookup hi hcache hrun
  | use hi hcache hentry => exact h.goto hi rfl (by simp)
  | readRefused hi => exact h.goto hi rfl (by simp)
  | readFilled hi =>
    refine h.goto hi rfl fun data hdata ↦ ?_
    cases hdata
    exact hsized
  | insertNone hi hcache => exact h.goto hi rfl (by simp)
  | insert hi hcache hrun => exact h.insert hi hcache hrun
  | @send _ _ _ entry hi => exact h.goto hi (by cases entry <;> rfl) (by cases entry <;> simp)
  | release hi hcache hrun => exact h.release hi hcache hrun

/-- Every reachable state satisfies the invariant. -/
theorem Reachable.invariant (h : Reachable maxCacheSize s) : s.Invariant maxCacheSize :=
  Machine.Reaches.invariant (fun _ _ _ hs hsized hstep ↦ hs.step hsized hstep) h
    (invariant_init maxCacheSize)

/-- In every interleaving of requests, for every limit above zero, the cache is consistent: the list
in the order of use is well formed and has exactly the chained entries, each once; every entry is
in the bucket of its name, no two have the same name, and the size of the cache is the sum of
their file sizes and within the limit. Moreover every section that holds the lock returns. -/
theorem cache_consistent (maxCacheSize : ℤ) (s : CacheServer) (c : Cache)
    (hreach : Reachable maxCacheSize s) (hcache : s.cache = some c) :
    (∃ chains lru, c.Consistent chains lru) ∧ c.maxCacheSize = maxCacheSize ∧
    (∀ fileName, ∃ found c', (cacheLookup (turns c) fileName).run c = .ok (found, c')) ∧
    (∀ file : FileData, 0 ≤ file.fileSize → ∀ address node, c.entries address = none →
      c.nodes node = none →
        ∃ result c', (cacheInsert (turns c) address node file).run c = .ok (result, c')) := by
  have hinv := hreach.invariant
  obtain ⟨chains, lru, hc⟩ := hinv.consistent c hcache
  refine ⟨⟨chains, lru, hc⟩, hinv.maxCacheSize c hcache, fun fileName ↦ ?_,
    fun file hsize address node haddress hnode ↦ ?_⟩
  · rcases hc.cacheLookup_run hc.enough fileName with ⟨hrun, -⟩ | ⟨x, -, -, -, c', -, hrun, -⟩
    · exact ⟨_, _, hrun⟩
    · exact ⟨_, _, hrun⟩
  · rcases hc.cacheInsert_run hc.enough hsize with ⟨result, c', -, -, hrun, -⟩ | ⟨-, hfree⟩
    · exact ⟨result, c', hrun⟩
    · exact absurd ⟨haddress, hnode⟩ hfree

/-- Two requests for a file of two bytes: the first inserts it and the second finds it. -/
def twoRequests : List Move :=
  [.arrive ⟨ascii "GET", [97]⟩, .lookup 0, .read 0 (.filled [1, 2] 2), .insert 0 7 9,
    .arrive ⟨ascii "GET", [97]⟩, .lookup 1]

/-- The cache after the two requests. -/
theorem cache_consistent_twoRequests : ∃ s c, Reachable 10 s ∧ s.cache = some c ∧ c.size = 2 ∧
    ∃ chains lru, c.Consistent chains lru := by
  have hrun : ((Machine.run Sized step (init 10) twoRequests).bind fun s ↦
      s.cache.map Cache.size) = some 2 := by
    decide +kernel
  obtain ⟨s, hs, hmap⟩ := Option.bind_eq_some_iff.mp hrun
  obtain ⟨c, hc, hsize⟩ := Option.map_eq_some_iff.mp hmap
  have hreach : Reachable 10 s := Machine.Reaches.of_run hs
  exact ⟨s, c, hreach, hc, hsize, (cache_consistent 10 s c hreach hc).1⟩

/-- In every interleaving of requests, an entry's use count is the number of executions that have
found the entry and not released it; an entry with such a user is still in the table and in the
list; the release of an entry passes its assertion; and `cache_evict` leaves every entry with a
user as it is. -/
theorem use_counts_protect (maxCacheSize : ℤ) (s : CacheServer) (c : Cache)
    (hreach : Reachable maxCacheSize s) (hcache : s.cache = some c) :
    (∀ a e, c.entries a = some e → e.inUse = s.users a) ∧
    (∃ chains lru, c.Consistent chains lru ∧ ∀ a, 0 < s.users a →
      ∃ e, c.entries a = some e ∧ a ∈ chains (bucketOf e.data.fileName) ∧
        a ∈ lru.map Prod.snd) ∧
    (∀ x ∈ s.executions, ∀ response entry, x.position = .release response entry →
      ∃ c', (cacheRelease entry).run c = .ok ((), c')) ∧
    (∀ amount, ∃ evicted c', (cacheEvict (turns c) amount).run c = .ok (evicted, c') ∧
      ∀ a, 0 < s.users a → c'.entries a = c.entries a) := by
  have hinv := hreach.invariant
  obtain ⟨chains, lru, hc⟩ := hinv.consistent c hcache
  have hpinned := hinv.pinned c hcache
  refine ⟨hpinned.count, ⟨chains, lru, hc, fun a ha ↦ ?_⟩, fun x hx response entry hposition ↦ ?_,
    fun amount ↦ ?_⟩
  · obtain ⟨e, he⟩ := hpinned.live a ha
    exact ⟨e, he, hc.mem_chain he, hc.allocated a e he⟩
  · obtain ⟨i, hi⟩ := List.mem_iff_getElem?.mp hx
    have hused := users_pos hi (a := entry) (by rw [hposition]; rfl)
    obtain ⟨e, he⟩ := hpinned.live entry hused
    exact ⟨_, (hc.cacheRelease_run he (by rw [hpinned.count entry e he]; omega)).1⟩
  · obtain ⟨evicted, c', chains', lru', hrun, -, hevicted, -⟩ := hc.cacheEvict_run hc.enough amount
    refine ⟨evicted, c', hrun, fun a ha ↦ ?_⟩
    rcases hevicted.entries a with heq | ⟨-, e, he, hidle⟩
    · exact heq
    · rw [hpinned.count a e he] at hidle
      omega

/-- The second of the two requests is a user of the entry. -/
theorem use_counts_protect_twoRequests : ∃ s c e, Reachable 10 s ∧ s.cache = some c ∧
    s.users 7 = 1 ∧ c.entries 7 = some e ∧ e.inUse = 1 := by
  have hrun : ((Machine.run Sized step (init 10) twoRequests).bind fun s ↦
      s.cache.bind fun c ↦ (c.entries 7).map fun _ ↦ s.users 7) = some 1 := by
    decide +kernel
  obtain ⟨s, hs, hbind⟩ := Option.bind_eq_some_iff.mp hrun
  obtain ⟨c, hc, hmap⟩ := Option.bind_eq_some_iff.mp hbind
  obtain ⟨e, he, husers⟩ := Option.map_eq_some_iff.mp hmap
  have hreach : Reachable 10 s := Machine.Reaches.of_run hs
  refine ⟨s, c, e, hreach, hc, husers, he, ?_⟩
  rw [(use_counts_protect 10 s c hreach hc).1 7 e he, husers]
  rfl

end CacheServer

end OperatingSystems.Webserver
