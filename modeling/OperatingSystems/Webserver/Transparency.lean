import OperatingSystems.Webserver.CacheServer

/-!
# The cache does not show in the responses

Along runs in which every `request_readfile` finds the same `disk`, an entry of the cache holds what
`request_readfile` fills in for its name (`OnDisk`), and so does the data an execution is about to
insert or to send. A response that is sent is therefore `respond disk` of the request line, with
or without a cache and whatever the other executions do.

The step that needs the use counts is taking the data of a found entry over: between the lookup
and that step the entry is held, so it is neither evicted nor replaced.
-/

set_option autoImplicit false
set_option relaxedAutoImplicit false

namespace OperatingSystems.Webserver

open Library Cache

variable {disk : List UInt8 → FileStatus}

/-- The response to a request line, if the process does not exit. -/
def respond (disk : List UInt8 → FileStatus) (line : RequestLine) : Option (List UInt8) :=
  match requestInit line with
  | .error response => some response
  | .ok fileName =>
    match requestReadfile disk fileName with
    | .refused response => some response
    | .filled fileBuf fileSize => some (requestSendfile ⟨fileName, fileBuf, fileSize⟩)
    | .exits => none

/-- The name of the file that an execution reads next. -/
def Execution.readName (x : Execution) : Option (List UInt8) :=
  match x.position with
  | .read fileName => some fileName
  | _ => none

theorem Execution.readName_eq_some_iff {x : Execution} {fileName : List UInt8} :
    x.readName = some fileName ↔ x = ⟨x.line, .read fileName⟩ := by
  obtain ⟨line, position⟩ := x
  cases position <;> simp [Execution.readName]

/-- The data is what `request_readfile` fills in for the name. -/
def OnDisk (disk : List UInt8 → FileStatus) (data : FileData) : Prop :=
  requestReadfile disk data.fileName = .filled data.fileBuf data.fileSize

/-- A file that is read has a size that is not negative. -/
theorem fileSize_nonneg_of_requestReadfile {fileName fileBuf : List UInt8} {fileSize : ℤ}
    (h : requestReadfile disk fileName = .filled fileBuf fileSize) : 0 ≤ fileSize := by
  simp only [requestReadfile] at h
  split_ifs at h with h₁ h₂ h₃
  split at h
  · cases h
  · cases h
  · split_ifs at h with hneg
    rw [← (ReadOutcome.filled.inj h).2]
    exact Int.not_lt.mp hneg

/-- The data that is sent for a request line makes its response. -/
theorem respond_of_onDisk {line : RequestLine} {data : FileData}
    (hline : requestInit line = .ok data.fileName) (hdata : OnDisk disk data) :
    respond disk line = some (requestSendfile data) := by
  rw [OnDisk] at hdata
  simp only [respond, hline, hdata]

namespace CacheServer

variable {s t : CacheServer} {m : Move} {c c' : Cache} {maxCacheSize : ℤ} {i : ℕ} {x : Execution}
  {position : Position}

/-- Every read finds the same disk. -/
def ReadsFrom (disk : List UInt8 → FileStatus) (s : CacheServer) : Move → Prop
  | .read i outcome => ∀ line fileName, s.executions[i]? = some ⟨line, .read fileName⟩ →
    outcome = requestReadfile disk fileName
  | _ => True

/-- Whether a read finds the disk can be computed. -/
instance (disk : List UInt8 → FileStatus) (s : CacheServer) (m : Move) :
    Decidable (s.ReadsFrom disk m) :=
  match m with
  | .read i outcome =>
    decidable_of_iff (∀ x ∈ s.executions[i]?, ∀ fileName ∈ x.readName,
        outcome = requestReadfile disk fileName) <| by
      refine ⟨fun h line fileName hi ↦ h ⟨line, .read fileName⟩ hi fileName rfl,
        fun h x hx fileName hname ↦ h x.line fileName ?_⟩
      rw [← Execution.readName_eq_some_iff.mp hname]
      exact hx
  | .arrive _ | .lookup _ | .use _ | .insert .. | .send _ | .release _ =>
    inferInstanceAs (Decidable True)

/-- The server sends the response for a request line in some interleaving of requests that all read
from the disk. -/
def Sends (disk : List UInt8 → FileStatus) (maxCacheSize : ℤ) (line : RequestLine)
    (response : List UInt8) : Prop :=
  ∃ s, Machine.Reaches (ReadsFrom disk) step (init maxCacheSize) s ∧
    ⟨line, .done response⟩ ∈ s.executions

/-- What an execution has at hand is right for its request line. -/
def Right (disk : List UInt8 → FileStatus) (cache : Option Cache) (line : RequestLine) :
    Position → Prop
  | .lookup fileName | .read fileName => requestInit line = .ok fileName
  | .hit entry => ∀ c e, cache = some c → c.entries entry = some e →
    requestInit line = .ok e.data.fileName
  | .insert data | .send data _ => requestInit line = .ok data.fileName ∧ OnDisk disk data
  | .release response _ | .done response => respond disk line = some response

/-- The cache and the executions hold what is on the disk. -/
structure Faithful (disk : List UInt8 → FileStatus) (s : CacheServer) : Prop where
  cached : ∀ c, s.cache = some c → ∀ a e, c.entries a = some e → OnDisk disk e.data
  right : ∀ x ∈ s.executions, Right disk s.cache x.line x.position

/-- What an execution has at hand depends on the cache only through the entry it holds. -/
theorem Right.congr {cache cache' : Option Cache} {line : RequestLine}
    (h : Right disk cache line position)
    (hentry : ∀ a, position.entry = some a → ∀ c' e', cache' = some c' → c'.entries a = some e' →
      ∃ c e, cache = some c ∧ c.entries a = some e ∧ e.data = e'.data) :
    Right disk cache' line position := by
  cases position with
  | hit a =>
    intro c' e' hc' he'
    obtain ⟨c, e, hc, he, hdata⟩ := hentry a rfl c' e' hc' he'
    rw [← hdata]
    exact h c e hc he
  | _ => exact h

/-- A move that leaves the cache and goes to a right position. -/
theorem Faithful.goto (h : s.Faithful disk) (hright : Right disk s.cache x.line position) :
    (s.goto i x position).Faithful disk where
  cached := h.cached
  right y hy := by
    rcases mem_goto hy with hold | rfl
    · exact h.right y hold
    · exact hright

/-- A move that leaves a cache in which the entries in use have their data. -/
theorem Faithful.withCache (h : s.Faithful disk) (hcache : s.cache = some c)
    (hcached : ∀ a e, c'.entries a = some e → OnDisk disk e.data)
    (hkept : ∀ a, 0 < s.users a → ∀ e', c'.entries a = some e' →
      ∃ e, c.entries a = some e ∧ e.data = e'.data)
    (hright : Right disk (some c') x.line position) :
    ((s.withCache c').goto i x position).Faithful disk where
  cached d hd := by
    cases hd
    exact hcached
  right y hy := by
    rcases mem_goto hy with hold | rfl
    · refine (h.right y hold).congr fun a ha d e' hd he' ↦ ?_
      cases hd
      obtain ⟨j, hj⟩ := List.mem_iff_getElem?.mp hold
      obtain ⟨e, he, hdata⟩ := hkept a (users_pos hj ha) e' he'
      exact ⟨c, e, hcache, he, hdata⟩
    · exact hright

/-- The data of the entries does not change with their use counts. -/
theorem exists_of_addUse {a b : ℕ} {k : ℤ} {e' : CacheEntry}
    (he' : (addUse a k c).entries b = some e') : ∃ e, c.entries b = some e ∧ e.data = e'.data := by
  have hdata := addUse_data (c := c) (a := a) k b
  rw [he', Option.map_some, eq_comm, Option.map_eq_some_iff] at hdata
  exact hdata

/-- Every move that reads from the disk keeps what is held faithful. -/
theorem Faithful.step (h : s.Faithful disk) (hinv : s.Invariant maxCacheSize)
    (hreads : s.ReadsFrom disk m) (hstep : s.step m = some t) : t.Faithful disk := by
  cases Transition.of_step hstep with
  | arrive line =>
    refine ⟨h.cached, fun x hx ↦ ?_⟩
    rcases List.mem_append.mp hx with hold | hnew
    · exact h.right x hold
    · rw [List.mem_singleton.mp hnew]
      simp only [Position.start]
      split
      case h_1 response hline => simp only [Right, respond, hline]
      case h_2 fileName hline => exact hline
  | lookupNone hi hcache =>
    exact h.goto (h.right _ (List.mem_of_getElem? hi))
  | @lookup i line fileName c c' found hi hcache hrun =>
    have hline : requestInit line = .ok fileName := h.right _ (List.mem_of_getElem? hi)
    obtain ⟨chains, lru, hc⟩ := hinv.consistent c hcache
    rcases hc.cacheLookup_run hc.enough fileName with
      ⟨hmiss, -⟩ | ⟨⟨n, a⟩, -, -, e, d, -, hhit, he, hname, -, hentries, -⟩
    · obtain ⟨rfl, rfl⟩ : found = none ∧ c' = c := by
        simpa using hrun.symm.trans hmiss
      exact h.withCache hcache (h.cached c' hcache) (fun a _ e' he' ↦ ⟨e', he', rfl⟩) hline
    · obtain ⟨rfl, rfl⟩ : found = some a ∧ c' = d := by
        simpa using hrun.symm.trans hhit
      refine h.withCache hcache (fun b f hf ↦ ?_) (fun b _ f hf ↦ ?_) fun d f hd hf ↦ ?_
      · rw [hentries] at hf
        obtain ⟨f', hf', hdata⟩ := exists_of_addUse hf
        exact hdata ▸ h.cached c hcache b f' hf'
      · rw [hentries] at hf
        exact exists_of_addUse hf
      · cases hd
        rw [hentries] at hf
        obtain ⟨f', hf', hdata⟩ := exists_of_addUse hf
        rw [he, Option.some.injEq] at hf'
        rw [← hdata, ← hf', hname]
        exact hline
  | @use i line entry c e hi hcache hentry =>
    have hright := h.right _ (List.mem_of_getElem? hi)
    exact h.goto ⟨hright c e hcache hentry, h.cached c hcache entry e hentry⟩
  | @readRefused i line fileName response hi =>
    have hline : requestInit line = .ok fileName := h.right _ (List.mem_of_getElem? hi)
    have houtcome := hreads line fileName hi
    refine h.goto ?_
    simp only [Right, respond, hline, ← houtcome]
  | @readFilled i line fileName fileBuf fileSize hi =>
    have hline : requestInit line = .ok fileName := h.right _ (List.mem_of_getElem? hi)
    exact h.goto ⟨hline, (hreads line fileName hi).symm⟩
  | insertNone hi hcache => exact h.goto (h.right _ (List.mem_of_getElem? hi))
  | @insert i line data address node c c' result hi hcache hrun =>
    have hright : requestInit line = .ok data.fileName ∧ OnDisk disk data :=
      h.right _ (List.mem_of_getElem? hi)
    obtain ⟨chains, lru, hc⟩ := hinv.consistent c hcache
    have hpinned := hinv.pinned c hcache
    have hsize := fileSize_nonneg_of_requestReadfile hright.2
    rcases hc.cacheInsert_run (a := address) (n := node) hc.enough hsize with
      ⟨result', d, chains', lru', hrun', -, hinserted⟩ | ⟨herror, -⟩
    · obtain ⟨-, rfl⟩ : result = result' ∧ c' = d := by
        simpa using hrun.symm.trans hrun'
      refine h.withCache hcache (fun b f hf ↦ ?_) (fun b hb f hf ↦ ?_) hright
      · rcases hinserted.toInserted.entries b with heq | ⟨hnone, -⟩ | ⟨-, hnew, -⟩
        · exact h.cached c hcache b f (heq.symm.trans hf)
        · rw [hnone] at hf
          cases hf
        · rw [hnew, Option.some.injEq] at hf
          exact hf ▸ hright.2
      · -- An entry in use is neither evicted nor replaced.
        obtain ⟨e, he⟩ := hpinned.live b hb
        have hcount := hpinned.count b e he
        rcases hinserted.toInserted.entries b with heq | ⟨-, e', he', hidle⟩ | ⟨-, -, hidle⟩
        · exact ⟨f, heq.symm.trans hf, rfl⟩
        · rw [he, Option.some.injEq] at he'
          rw [← he'] at hidle
          omega
        · have hidle' := hidle e he
          omega
    · exact absurd (hrun.symm.trans herror) (by simp)
  | @send i line data entry hi =>
    have hright : requestInit line = .ok data.fileName ∧ OnDisk disk data :=
      h.right _ (List.mem_of_getElem? hi)
    have hresponse := respond_of_onDisk hright.1 hright.2
    cases entry with
    | none => exact h.goto hresponse
    | some entry => exact h.goto hresponse
  | @release i line response entry c c' u hi hcache hrun =>
    have hright : respond disk line = some response := h.right _ (List.mem_of_getElem? hi)
    obtain ⟨chains, lru, hc⟩ := hinv.consistent c hcache
    have hpinned := hinv.pinned c hcache
    obtain ⟨e, he⟩ := hpinned.live entry (users_pos hi rfl)
    have hused := users_pos hi rfl
    obtain ⟨hrun', -⟩ := hc.cacheRelease_run he (by rw [hpinned.count entry e he]; omega)
    obtain ⟨-, rfl⟩ : u = () ∧ c' = addUse entry (-1) c := by
      simpa using hrun.symm.trans hrun'
    refine h.withCache hcache (fun b f hf ↦ ?_) (fun b _ f hf ↦ exists_of_addUse hf) hright
    obtain ⟨f', hf', hdata⟩ := exists_of_addUse hf
    exact hdata ▸ h.cached c hcache b f' hf'

/-- A read that finds the disk reads a size that is not negative. -/
theorem ReadsFrom.sized (h : s.ReadsFrom disk m) (hstep : s.step m = some t) : s.Sized m := by
  cases Transition.of_step hstep with
  | @readFilled i line fileName fileBuf fileSize hi =>
    exact fileSize_nonneg_of_requestReadfile (h line fileName hi).symm
  | _ => trivial

/-- Every state reached by reads from the disk. -/
theorem invariant_and_faithful_of_reaches
    (h : Machine.Reaches (ReadsFrom disk) step (init maxCacheSize) s) :
    s.Invariant maxCacheSize ∧ s.Faithful disk := by
  refine Machine.Reaches.invariant (I := fun s ↦ s.Invariant maxCacheSize ∧ s.Faithful disk)
    (fun s m t hs hreads hstep ↦
      ⟨hs.1.step (hreads.sized hstep) hstep, hs.2.step hs.1 hreads hstep⟩) h
    ⟨invariant_init maxCacheSize, ?_, ?_⟩
  · intro c hc a e he
    simp only [init] at hc
    split_ifs at hc
    cases hc
    cases he
  · intro x hx
    cases hx

/-- What is sent for a request line is its response. -/
theorem Sends.respond_eq {line : RequestLine} {response : List UInt8}
    (h : Sends disk maxCacheSize line response) : respond disk line = some response := by
  obtain ⟨s, hreach, hmem⟩ := h
  exact (invariant_and_faithful_of_reaches hreach).2.right _ hmem

/-- A server without a cache and with one execution. -/
def alone (line : RequestLine) (position : Position) : CacheServer := ⟨none, [⟨line, position⟩]⟩

/-- A server without a cache sends the response to a request line. -/
theorem sends_of_respond {line : RequestLine} {response : List UInt8}
    (h : respond disk line = some response) : Sends disk 0 line response := by
  have harrive : Machine.Reaches (ReadsFrom disk) step (init 0) (alone line (.start line)) :=
    Relation.ReflTransGen.single ⟨.arrive line, trivial, rfl⟩
  suffices hdone : Machine.Reaches (ReadsFrom disk) step (alone line (.start line))
      (alone line (.done response)) from
    ⟨alone line (.done response), harrive.trans hdone, List.mem_singleton_self _⟩
  unfold respond at h
  unfold Position.start
  cases hline : requestInit line with
  | error r =>
    rw [hline] at h
    cases h
    exact Relation.ReflTransGen.refl
  | ok fileName =>
    rw [hline] at h
    dsimp only at h ⊢
    have hlookup : Machine.Reaches (ReadsFrom disk) step (alone line (.lookup fileName))
        (alone line (.read fileName)) :=
      Relation.ReflTransGen.single ⟨.lookup 0, trivial, rfl⟩
    have hreads : (alone line (.read fileName)).ReadsFrom disk
        (.read 0 (requestReadfile disk fileName)) := by
      rintro line' fileName' hi
      cases hi
      rfl
    refine hlookup.trans ?_
    cases houtcome : requestReadfile disk fileName with
    | refused r =>
      rw [houtcome] at h hreads
      cases h
      exact Relation.ReflTransGen.single ⟨_, hreads, rfl⟩
    | filled fileBuf fileSize =>
      rw [houtcome] at h hreads
      cases h
      have hread : Machine.Reaches (ReadsFrom disk) step (alone line (.read fileName))
          (alone line (.insert ⟨fileName, fileBuf, fileSize⟩)) :=
        Relation.ReflTransGen.single ⟨_, hreads, rfl⟩
      exact (hread.tail ⟨.insert 0 0 0, trivial, rfl⟩).tail ⟨.send 0, trivial, rfl⟩
    | exits =>
      rw [houtcome] at h
      cases h

/-- Assumes: all reads find the same disk. For every limit of the cache and in every interleaving,
the response that is sent for a request line is the one that a server without a cache sends for
it; and a name that `request_readfile` refuses is never in the cache. -/
theorem cache_transparent (disk : List UInt8 → FileStatus) (maxCacheSize : ℤ) :
    (∀ line response, Sends disk maxCacheSize line response →
      ∀ response', Sends disk 0 line response' ↔ response' = response) ∧
    (∀ s c, Machine.Reaches (ReadsFrom disk) step (init maxCacheSize) s → s.cache = some c →
      ∀ a e r, c.entries a = some e → requestReadfile disk e.data.fileName ≠ .refused r) := by
  refine ⟨fun line response h response' ↦ ⟨fun h' ↦ ?_, ?_⟩, fun s c hreach hcache a e r he ↦ ?_⟩
  · have heq := h'.respond_eq.symm.trans h.respond_eq
    rw [Option.some.injEq] at heq
    exact heq
  · rintro rfl
    exact sends_of_respond h.respond_eq
  · have hdata := (invariant_and_faithful_of_reaches hreach).2.cached c hcache a e he
    rw [OnDisk] at hdata
    rw [hdata]
    exact ReadOutcome.noConfusion

/-- A disk on which every file holds two bytes. -/
def twoBytes : List UInt8 → FileStatus := fun _ ↦ .regular [1, 2]

/-- Two requests for a file, one after the other: the first reads the file and inserts it, and the
second sends the data of the entry and releases it. -/
def secondFromCache : List Move :=
  [.arrive ⟨ascii "GET", [97]⟩, .lookup 0, .read 0 (.filled [1, 2] 2), .insert 0 7 9, .send 0,
    .arrive ⟨ascii "GET", [97]⟩, .lookup 1, .use 1, .send 1, .release 1]

/-- Both have got the response that a server without a cache sends. -/
theorem cache_transparent_secondFromCache : ∃ s response,
    Machine.run (ReadsFrom twoBytes) step (init 10) secondFromCache = some s ∧
    s.executions = List.replicate 2 ⟨⟨ascii "GET", [97]⟩, .done response⟩ ∧
    ∀ response', Sends twoBytes 0 ⟨ascii "GET", [97]⟩ response' ↔ response' = response := by
  have hrun : (Machine.run (ReadsFrom twoBytes) step (init 10) secondFromCache).map executions =
      some (List.replicate 2 ⟨⟨ascii "GET", [97]⟩,
        .done (requestSendfile ⟨ascii "./a", [1, 2], 2⟩)⟩) := by
    decide +kernel
  obtain ⟨s, hs, hdone⟩ := Option.map_eq_some_iff.mp hrun
  refine ⟨s, _, hs, hdone, (cache_transparent twoBytes 10).1 _ _ ⟨s, Machine.Reaches.of_run hs, ?_⟩⟩
  rw [hdone]
  exact List.mem_cons_self

end CacheServer

end OperatingSystems.Webserver
