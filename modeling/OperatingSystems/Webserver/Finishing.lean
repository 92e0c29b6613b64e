import OperatingSystems.Webserver.ErrorBody
import OperatingSystems.Webserver.Transparency

/-!
# An execution on its own

What an execution of `do_server_request` does next is possible in every reachable state: the loops
of the cache end, and an entry that it holds is there. So an execution that moves while the others
stand still sends its response (`execution_finishes`).

The addresses that `malloc` returns are free ones, and there always are some: the entries are in the
list of the cache, and all nodes are below a bound that only `add_to_LRU` raises (`NodesBelow`).

Scope. A section that holds `cache->lock` is one move, so the others stand outside of these
sections, wherever else they are; that an execution waits for the lock of one that is inside is not
part of this. `malloc` does not fail.
-/

set_option autoImplicit false
set_option relaxedAutoImplicit false

namespace OperatingSystems.Webserver

open Library Library.Program Library.LinkedQueue Cache

/-- The process can answer a request line, with this response: it does not exit when it reads the
file, and a message stays within its array. -/
structure Answerable (disk : List UInt8 → FileStatus) (line : RequestLine)
    (response : List UInt8) : Prop where
  responds : respond disk line = some response
  fits : MessageFits disk line

namespace Cache

/-! ### Free addresses -/

/-- Every node is below a bound. -/
def NodesBelow (bound : ℕ) (c : Cache) : Prop := ∀ n, bound ≤ n → c.nodes n = none

variable {bound turns n target address node amount : ℕ} {file : FileData} {fileName : List UInt8}
  {c c' : Cache} {chains : ℕ → List ℕ} {lru : List (ℕ × ℕ)}

theorem NodesBelow.mono {bound' : ℕ} (h : c.NodesBelow bound) (hle : bound ≤ bound') :
    c.NodesBelow bound' := fun n hn ↦ h n (hle.trans hn)

/-- A change of other fields keeps the bound. -/
theorem preserves_modify_of_nodes (f : Cache → Cache) (h : ∀ c, (f c).nodes = c.nodes) :
    Preserves (NodesBelow bound) (modify f : Program Cache Fault Unit) :=
  preserves_modify fun c hc n hn ↦ by rw [h, hc n hn]

theorem preserves_deref (a : ℕ) : Preserves (NodesBelow bound) (deref a) := by
  refine (preserves_gets _).bind fun found ↦ ?_
  cases found with
  | none => exact preserves_halt _
  | some e => exact preserves_pure e

theorem preserves_derefNode (n : ℕ) : Preserves (NodesBelow bound) (derefNode n) := by
  refine (preserves_gets _).bind fun found ↦ ?_
  cases found with
  | none => exact preserves_halt _
  | some a => exact preserves_pure a

theorem preserves_nextOf (entry : EntryPtr) : Preserves (NodesBelow bound) (nextOf entry) := by
  cases entry with
  | bucket key => exact preserves_gets _
  | node a => exact (preserves_deref a).bind fun _ ↦ preserves_gets _

theorem preserves_findName (fileName : List UInt8) (n : ℕ) : ∀ entry : EntryPtr,
    Preserves (NodesBelow bound) (findName fileName n entry) := by
  induction n with
  | zero => exact fun _ ↦ preserves_halt _
  | succ n ih =>
    refine fun entry ↦ (preserves_nextOf entry).bind fun next ↦ ?_
    cases next with
    | none => exact preserves_pure none
    | some a =>
      exact (preserves_deref a).bind fun e ↦
        .ite (fun _ ↦ preserves_pure (some a)) fun _ ↦ ih (.node a)

theorem preserves_findPrev (target n : ℕ) : ∀ entry : EntryPtr,
    Preserves (NodesBelow bound) (findPrev target n entry) := by
  induction n with
  | zero => exact fun _ ↦ preserves_halt _
  | succ n ih =>
    refine fun entry ↦ (preserves_nextOf entry).bind fun next ↦ ?_
    cases next with
    | none => exact preserves_pure none
    | some a => exact .ite (fun _ ↦ preserves_pure (some entry)) fun _ ↦ ih (.node a)

theorem preserves_findLast (n : ℕ) : ∀ entry : EntryPtr,
    Preserves (NodesBelow bound) (findLast n entry) := by
  induction n with
  | zero => exact fun _ ↦ preserves_halt _
  | succ n ih =>
    refine fun entry ↦ (preserves_nextOf entry).bind fun next ↦ ?_
    cases next with
    | none => exact preserves_pure entry
    | some a => exact ih (.node a)

theorem preserves_onLRU
    (op : (ℕ → Option ℕ) → Queue ℕ → Option ((ℕ → Option ℕ) × Queue ℕ)) :
    Preserves (NodesBelow bound) (onLRU op) := by
  refine (preserves_gets _).bind fun result ↦ ?_
  cases result with
  | none => exact preserves_halt _
  | some result => exact preserves_modify_of_nodes _ fun _ ↦ rfl

theorem preserves_findInLRUWithPrev (target n : ℕ) : ∀ prev current : Option ℕ,
    Preserves (NodesBelow bound) (findInLRUWithPrev target n prev current) := by
  induction n with
  | zero => exact fun _ _ ↦ preserves_halt _
  | succ n ih =>
    intro prev current
    cases current with
    | none => exact preserves_pure _
    | some current =>
      exact (preserves_derefNode current).bind fun a ↦
        .ite (fun _ ↦ preserves_pure _) fun _ ↦ (preserves_gets _).bind fun next ↦ ih _ next

theorem preserves_moveNodeToEnd (turns entry : ℕ) :
    Preserves (NodesBelow bound) (moveNodeToEnd turns entry) := by
  refine (preserves_gets _).bind fun lru ↦ .ite (fun _ ↦ preserves_pure ()) fun _ ↦
    (preserves_findInLRUWithPrev entry turns none lru.head).bind fun found ↦ ?_
  obtain ⟨prev, node⟩ := found
  cases node with
  | none => exact preserves_pure ()
  | some node =>
    refine (preserves_gets _).bind fun lru ↦ .ite (fun _ ↦ preserves_onLRU _) fun _ ↦
      .ite (fun _ ↦ ?_) fun _ ↦ preserves_pure ()
    cases prev with
    | none => exact preserves_halt _
    | some p => exact preserves_onLRU _

theorem preserves_removeNodeFromLRU (target : ℕ) (prev : Option ℕ) :
    Preserves (NodesBelow bound) (removeNodeFromLRU target prev) := by
  refine (preserves_gets _).bind fun result ↦ ?_
  cases result with
  | none => exact preserves_halt _
  | some result =>
    obtain ⟨ret, nodeNext, lru⟩ := result
    refine (preserves_modify fun c hc n hn ↦ ?_).bind fun _ ↦ preserves_pure ret
    by_cases hnode : n = target
    · rw [hnode]
      exact Function.update_self ..
    · exact (Function.update_of_ne hnode ..).trans (hc n hn)

theorem preserves_removeFromCache (turns target : ℕ) :
    Preserves (NodesBelow bound) (removeFromCache turns target) := by
  refine (preserves_deref target).bind fun e ↦ (preserves_findPrev target turns _).bind fun prev ↦
    ?_
  cases prev with
  | none => exact preserves_pure ()
  | some prev => exact preserves_modify_of_nodes _ fun _ ↦ rfl

theorem preserves_evictLoop (turns amount n : ℕ) : ∀ (current prev : Option ℕ) (evicted : ℕ),
    Preserves (NodesBelow bound) (evictLoop turns amount n current prev evicted) := by
  induction n with
  | zero => exact fun _ _ _ ↦ preserves_halt _
  | succ n ih =>
    intro current prev evicted
    cases current with
    | none => exact preserves_pure evicted
    | some current =>
      refine (preserves_derefNode current).bind fun entry ↦ (preserves_deref entry).bind fun e ↦
        .ite (fun _ ↦ (preserves_gets _).bind fun next ↦ ih next _ evicted) fun _ ↦ ?_
      refine (preserves_removeNodeFromLRU current prev).bind fun next ↦
        (preserves_removeFromCache turns entry).bind fun _ ↦ ?_
      exact .ite (fun _ ↦ preserves_pure _) fun _ ↦ ih next prev _

theorem preserves_makeRoom (turns : ℕ) (file : FileData) :
    Preserves (NodesBelow bound) (makeRoom turns file) := by
  refine Preserves.bind (preserves_gets id) fun c ↦ .ite (fun _ ↦ ?_) fun _ ↦ preserves_pure true
  refine Preserves.bind ?_ fun _ ↦ preserves_gets _
  exact (preserves_gets _).bind fun head ↦ preserves_evictLoop turns _ turns head none 0

/-- A node at an address below the bound is added. -/
theorem preserves_appendEntry (hnode : node < bound) :
    Preserves (NodesBelow bound) (appendEntry turns address node file) := by
  refine (preserves_findLast turns _).bind fun last ↦ (preserves_gets _).bind fun e ↦
    (preserves_check _ _).bind fun _ ↦
    (preserves_modify_of_nodes (newEntry address file last) fun _ ↦ rfl).bind fun _ ↦
    (preserves_gets _).bind fun a ↦ (preserves_check _ _).bind fun _ ↦
    (preserves_modify fun c hc n hn ↦ ?_).bind fun _ ↦ preserves_onLRU _
  exact (Function.update_of_ne (by omega) ..).trans (hc n hn)

theorem preserves_cacheInsert (hnode : node < bound) :
    Preserves (NodesBelow bound) (cacheInsert turns address node file) := by
  refine (preserves_findName file.fileName turns _).bind fun found ↦ ?_
  cases found with
  | some a => exact preserves_pure 0
  | none =>
    refine (preserves_gets _).bind fun limit ↦ .ite (fun _ ↦ preserves_pure 0) fun _ ↦
      (preserves_makeRoom turns file).bind fun room ↦ .ite (fun _ ↦ ?_) fun _ ↦ preserves_pure 0
    exact (preserves_appendEntry hnode).bind fun _ ↦ preserves_pure 1

theorem preserves_cacheLookup (turns : ℕ) (fileName : List UInt8) :
    Preserves (NodesBelow bound) (cacheLookup turns fileName) := by
  refine (preserves_findName fileName turns _).bind fun found ↦ ?_
  cases found with
  | none => exact preserves_pure none
  | some a =>
    exact (preserves_modify_of_nodes (addUse a 1) fun _ ↦ rfl).bind fun _ ↦
      (preserves_moveNodeToEnd turns a).bind fun _ ↦ preserves_pure (some a)

theorem preserves_cacheRelease (a : ℕ) : Preserves (NodesBelow bound) (cacheRelease a) :=
  (preserves_deref a).bind fun _ ↦
    (preserves_modify_of_nodes (addUse a (-1)) fun _ ↦ rfl).bind fun _ ↦
      (preserves_deref a).bind fun _ ↦ preserves_check _ _

/-- There is an address without an entry: the entries are in the list. -/
theorem Consistent.exists_free (h : c.Consistent chains lru) : ∃ a, c.entries a = none := by
  obtain ⟨a, ha⟩ := Infinite.exists_notMem_finset (lru.map Prod.snd).toFinset
  rw [List.mem_toFinset] at ha
  refine ⟨a, Option.eq_none_iff_forall_ne_some.mpr fun e he ↦ ha (h.allocated a e he)⟩

end Cache

namespace CacheServer

/-! ### One move of one execution -/

/-- The execution that moves. -/
def Move.execution : Move → Option ℕ
  | .arrive _ => none
  | .lookup i | .use i | .read i _ | .insert i _ _ | .send i | .release i => some i

/-- An execution goes from one state to the other in so many moves, and no other execution moves. -/
inductive Alone (disk : List UInt8 → FileStatus) (i : ℕ) :
    ℕ → CacheServer → CacheServer → Prop
  | refl (s : CacheServer) : Alone disk i 0 s s
  | step {k : ℕ} {m : Move} {s t u : CacheServer} (hm : m.execution = some i)
    (hreads : s.ReadsFrom disk m) (hstep : s.step m = some t) (hrest : Alone disk i k t u) :
    Alone disk i (k + 1) s u

theorem Alone.reaches {disk : List UInt8 → FileStatus} {i k : ℕ} {s t : CacheServer}
    (h : Alone disk i k s t) : Machine.Reaches (ReadsFrom disk) CacheServer.step s t := by
  induction h with
  | refl s => exact Relation.ReflTransGen.refl
  | step hm hreads hstep hrest ih => exact Relation.ReflTransGen.head ⟨_, hreads, hstep⟩ ih

/-- The number of moves that are left at a position, at most. -/
def remaining : Position → ℕ
  | .lookup _ => 4
  | .hit _ | .read _ => 3
  | .insert _ | .send _ (some _) => 2
  | .send _ none | .release _ _ => 1
  | .done _ => 0

variable {disk : List UInt8 → FileStatus} {s t : CacheServer} {m : Move} {c c' : Cache}
  {maxCacheSize : ℤ} {i : ℕ} {x : Execution} {position : Position} {line : RequestLine}
  {response fileName : List UInt8}

/-- What is known of every state that is reached by reads from the disk. -/
structure Ready (disk : List UInt8 → FileStatus) (maxCacheSize : ℤ) (s : CacheServer) : Prop where
  inv : s.Invariant maxCacheSize
  faithful : s.Faithful disk
  nodes : ∃ bound, ∀ c, s.cache = some c → c.NodesBelow bound
  noEntry : s.cache = none → ∀ x ∈ s.executions, x.position.entry = none

/-- The nodes stay below some bound. -/
theorem nodes_step (h : ∃ bound, ∀ c, s.cache = some c → c.NodesBelow bound)
    (hstep : s.step m = some t) : ∃ bound, ∀ c, t.cache = some c → c.NodesBelow bound := by
  obtain ⟨bound, hbound⟩ := h
  cases Transition.of_step hstep with
  | lookup hi hcache hrun =>
    refine ⟨bound, fun d hd ↦ ?_⟩
    cases hd
    exact preserves_cacheLookup _ _ (hbound _ hcache) hrun
  | @insert i line data address node c c' result hi hcache hrun =>
    refine ⟨max bound (node + 1), fun d hd ↦ ?_⟩
    cases hd
    exact preserves_cacheInsert (by omega) ((hbound _ hcache).mono (le_max_left _ _)) hrun
  | release hi hcache hrun =>
    refine ⟨bound, fun d hd ↦ ?_⟩
    cases hd
    exact preserves_cacheRelease _ (hbound _ hcache) hrun
  | _ => exact ⟨bound, hbound⟩

/-- Without a cache no execution holds an entry. -/
theorem noEntry_step (h : s.cache = none → ∀ x ∈ s.executions, x.position.entry = none)
    (hstep : s.step m = some t) : t.cache = none → ∀ x ∈ t.executions, x.position.entry = none := by
  have hgoto : ∀ {i : ℕ} {x : Execution} {position : Position}, s.executions[i]? = some x →
      position.entry = x.position.entry →
      s.cache = none → ∀ y ∈ (s.goto i x position).executions, y.position.entry = none := by
    intro i x position hi hentry hcache y hy
    rcases mem_goto hy with hold | rfl
    · exact h hcache y hold
    · exact hentry.trans (h hcache x (List.mem_of_getElem? hi))
  cases Transition.of_step hstep with
  | arrive line =>
    intro hcache x hx
    rcases List.mem_append.mp hx with hold | hnew
    · exact h hcache x hold
    · rw [List.mem_singleton.mp hnew]
      unfold Position.start
      split <;> rfl
  | lookupNone hi hcache => exact hgoto hi rfl
  | use hi hcache hentry => exact hgoto hi rfl
  | readRefused hi => exact hgoto hi rfl
  | readFilled hi => exact hgoto hi rfl
  | insertNone hi hcache => exact hgoto hi rfl
  | @send i line data entry hi => exact hgoto hi (by cases entry <;> rfl)
  | lookup hi hcache hrun => exact nofun
  | insert hi hcache hrun => exact nofun
  | release hi hcache hrun => exact nofun

/-- Every state that is reached by reads from the disk. -/
theorem ready_of_reaches (h : Machine.Reaches (ReadsFrom disk) step (init maxCacheSize) s) :
    s.Ready disk maxCacheSize := by
  obtain ⟨hinv, hfaithful⟩ := invariant_and_faithful_of_reaches h
  refine ⟨hinv, hfaithful, ?_, ?_⟩
  · refine Machine.Reaches.invariant (I := fun s ↦ ∃ bound, ∀ c, s.cache = some c →
      c.NodesBelow bound) (fun _ _ _ hs _ hstep ↦ nodes_step hs hstep) h ⟨0, fun c hc n _ ↦ ?_⟩
    simp only [init] at hc
    split_ifs at hc
    cases hc
    rfl
  · exact Machine.Reaches.invariant (I := fun s ↦ s.cache = none → ∀ x ∈ s.executions,
      x.position.entry = none) (fun _ _ _ hs _ hstep ↦ noEntry_step hs hstep) h fun _ x hx ↦
        absurd hx List.not_mem_nil

/-- A move that reads from the disk leads to such a state again. -/
theorem Ready.step (h : s.Ready disk maxCacheSize) (hreads : s.ReadsFrom disk m)
    (hstep : s.step m = some t) : t.Ready disk maxCacheSize where
  inv := h.inv.step (hreads.sized hstep) hstep
  faithful := h.faithful.step h.inv hreads hstep
  nodes := nodes_step h.nodes hstep
  noEntry := noEntry_step h.noEntry hstep

/-- What the next move of an execution does: it brings the execution closer to its end, and leaves
the others where they are. -/
def Advances (disk : List UInt8 → FileStatus) (s : CacheServer) (i : ℕ) (x : Execution) : Prop :=
  ∃ m t position, m.execution = some i ∧ s.ReadsFrom disk m ∧ s.step m = some t ∧
    t.executions = s.executions.set i ⟨x.line, position⟩ ∧ remaining position < remaining x.position

section Move

variable (h : s.Ready disk maxCacheSize)

include h

theorem advances_lookup (hi : s.executions[i]? = some ⟨line, .lookup fileName⟩) :
    s.Advances disk i ⟨line, .lookup fileName⟩ := by
  cases hcache : s.cache with
  | none =>
    refine ⟨.lookup i, s.goto i ⟨line, .lookup fileName⟩ (.read fileName), .read fileName, rfl,
      trivial, ?_, rfl, Nat.lt_succ_self 3⟩
    simp only [step, hi, stepLookup, hcache]
  | some c =>
    obtain ⟨chains, lru, hc⟩ := h.inv.consistent c hcache
    rcases hc.cacheLookup_run hc.enough fileName with ⟨hrun, -⟩ | ⟨x, -, -, -, c', -, hrun, -⟩
    · refine ⟨.lookup i, (s.withCache c).goto i ⟨line, .lookup fileName⟩ (.read fileName),
        .read fileName, rfl, trivial, ?_, rfl, Nat.lt_succ_self 3⟩
      simp only [step, hi, stepLookup, hcache, turns, hrun]
    · refine ⟨.lookup i, (s.withCache c').goto i ⟨line, .lookup fileName⟩ (.hit x.2),
        .hit x.2, rfl, trivial, ?_, rfl, Nat.lt_succ_self 3⟩
      simp only [step, hi, stepLookup, hcache, turns, hrun]

/-- An entry that an execution holds is there. -/
theorem exists_entry {entry : ℕ} (hi : s.executions[i]? = some x)
    (hentry : x.position.entry = some entry) :
    ∃ c e, s.cache = some c ∧ c.entries entry = some e := by
  cases hcache : s.cache with
  | none =>
    have hnone := h.noEntry hcache x (List.mem_of_getElem? hi)
    rw [hentry] at hnone
    cases hnone
  | some c =>
    obtain ⟨e, he⟩ := (h.inv.pinned c hcache).live entry (users_pos hi hentry)
    exact ⟨c, e, rfl, he⟩

theorem advances_hit {entry : ℕ} (hi : s.executions[i]? = some ⟨line, .hit entry⟩) :
    s.Advances disk i ⟨line, .hit entry⟩ := by
  obtain ⟨c, e, hcache, he⟩ := exists_entry h hi rfl
  refine ⟨.use i, s.goto i ⟨line, .hit entry⟩ (.send e.data (some entry)),
    .send e.data (some entry), rfl, trivial, ?_, rfl, Nat.lt_succ_self 2⟩
  simp only [step, hi, stepUse, hcache, he, Option.bind_eq_bind, Option.bind_some]

/-- Reading the file. The process does not exit, since there is a response. -/
theorem advances_read (hi : s.executions[i]? = some ⟨line, .read fileName⟩)
    (hresponse : respond disk line = some response) :
    s.Advances disk i ⟨line, .read fileName⟩ := by
  have hline : requestInit line = .ok fileName := h.faithful.right _ (List.mem_of_getElem? hi)
  have hreads : s.ReadsFrom disk (.read i (requestReadfile disk fileName)) := by
    intro line' fileName' hi'
    rw [hi] at hi'
    cases hi'
    rfl
  cases houtcome : requestReadfile disk fileName with
  | refused r =>
    refine ⟨_, s.goto i ⟨line, .read fileName⟩ (.done r), .done r, rfl, hreads, ?_, rfl,
      Nat.succ_pos 2⟩
    simp only [step, hi, houtcome, stepRead]
  | filled fileBuf fileSize =>
    refine ⟨_, s.goto i ⟨line, .read fileName⟩ (.insert ⟨fileName, fileBuf, fileSize⟩),
      .insert ⟨fileName, fileBuf, fileSize⟩, rfl, hreads, ?_, rfl, Nat.lt_succ_self 2⟩
    simp only [step, hi, houtcome, stepRead]
  | exits =>
    simp only [respond, hline, houtcome] at hresponse
    cases hresponse

/-- Inserting the file, at addresses that are free. -/
theorem advances_insert {data : FileData} (hi : s.executions[i]? = some ⟨line, .insert data⟩) :
    s.Advances disk i ⟨line, .insert data⟩ := by
  cases hcache : s.cache with
  | none =>
    refine ⟨.insert i 0 0, s.goto i ⟨line, .insert data⟩ (.send data none), .send data none, rfl,
      trivial, ?_, rfl, Nat.lt_succ_self 1⟩
    simp only [step, hi, stepInsert, hcache]
  | some c =>
    obtain ⟨chains, lru, hc⟩ := h.inv.consistent c hcache
    obtain ⟨address, haddress⟩ := hc.exists_free
    obtain ⟨node, hnode⟩ := h.nodes
    have hsize := h.inv.sized _ (List.mem_of_getElem? hi) data rfl
    rcases hc.cacheInsert_run (a := address) (n := node) hc.enough hsize with
      ⟨result, c', -, -, hrun, -⟩ | ⟨-, hfree⟩
    · refine ⟨.insert i address node,
        (s.withCache c').goto i ⟨line, .insert data⟩ (.send data none), .send data none, rfl,
        trivial, ?_, rfl, Nat.lt_succ_self 1⟩
      simp only [step, hi, stepInsert, hcache, turns, hrun]
    · exact absurd ⟨haddress, hnode c hcache node le_rfl⟩ hfree

theorem advances_release {entry : ℕ}
    (hi : s.executions[i]? = some ⟨line, .release response entry⟩) :
    s.Advances disk i ⟨line, .release response entry⟩ := by
  obtain ⟨c, e, hcache, he⟩ := exists_entry h hi rfl
  obtain ⟨chains, lru, hc⟩ := h.inv.consistent c hcache
  have hpinned := h.inv.pinned c hcache
  have hused := users_pos (a := entry) hi rfl
  obtain ⟨hrun, -⟩ := hc.cacheRelease_run he (by rw [hpinned.count entry e he]; omega)
  refine ⟨.release i, (s.withCache (addUse entry (-1) c)).goto i ⟨line, .release response entry⟩
    (.done response), .done response, rfl, trivial, ?_, rfl, Nat.succ_pos 0⟩
  simp only [step, hi, stepRelease, hcache, hrun]

/-- An execution that is not at its end can move on. -/
theorem advances (hi : s.executions[i]? = some x) (hresponse : respond disk x.line = some response)
    (hleft : remaining x.position ≠ 0) : s.Advances disk i x := by
  obtain ⟨line, position⟩ := x
  cases position with
  | lookup fileName => exact advances_lookup h hi
  | hit entry => exact advances_hit h hi
  | read fileName => exact advances_read h hi hresponse
  | insert data => exact advances_insert h hi
  | send data entry =>
    cases entry with
    | none =>
      refine ⟨.send i, s.stepSend i ⟨line, .send data none⟩ data none,
        .done (requestSendfile data), rfl, trivial, ?_, rfl, Nat.succ_pos 0⟩
      simp only [step, hi]
    | some entry =>
      refine ⟨.send i, s.stepSend i ⟨line, .send data (some entry)⟩ data (some entry),
        .release (requestSendfile data) entry, rfl, trivial, ?_, rfl, Nat.lt_succ_self 1⟩
      simp only [step, hi]
  | release response entry => exact advances_release h hi
  | done response => exact absurd rfl hleft

end Move

/-! ### Runs of one execution -/

theorem remaining_le (position : Position) : remaining position ≤ 4 := by
  unfold remaining
  split <;> decide

/-- At the end of an execution its response is sent. -/
theorem eq_done (h : s.Ready disk maxCacheSize) (hi : s.executions[i]? = some x)
    (hresponse : respond disk x.line = some response) (hleft : remaining x.position = 0) :
    x = ⟨x.line, .done response⟩ := by
  obtain ⟨line, position⟩ := x
  have hright := h.faithful.right _ (List.mem_of_getElem? hi)
  cases position with
  | done r =>
    have hr : respond disk line = some r := hright
    rw [hr, Option.some.injEq] at hresponse
    rw [hresponse]
  | send data entry => cases entry <;> cases hleft
  | _ => cases hleft

/-- An execution that runs alone sends its response. -/
theorem exists_alone (h : s.Ready disk maxCacheSize) (hi : s.executions[i]? = some x)
    (hresponse : respond disk x.line = some response) :
    ∃ k ≤ remaining x.position, ∃ t, Alone disk i k s t ∧
      t.executions = s.executions.set i ⟨x.line, .done response⟩ := by
  induction hleft : remaining x.position using Nat.strongRecOn generalizing s x with
  | _ left ih =>
    subst hleft
    by_cases hzero : remaining x.position = 0
    · refine ⟨0, Nat.zero_le _, s, .refl s, ?_⟩
      obtain ⟨hlt, hx⟩ := List.getElem?_eq_some_iff.mp hi
      rw [← eq_done h hi hresponse hzero, ← hx, List.set_getElem_self]
    · obtain ⟨m, t, position, hm, hreads, hstep, hset, hless⟩ := advances h hi hresponse hzero
      obtain ⟨hlt, -⟩ := List.getElem?_eq_some_iff.mp hi
      have hi' : t.executions[i]? = some ⟨x.line, position⟩ := by
        rw [hset, List.getElem?_set_self hlt]
      obtain ⟨k, hk, u, halone, hdone⟩ := ih _ hless (h.step hreads hstep) hi' hresponse rfl
      refine ⟨k + 1, by omega, u, .step hm hreads hstep halone, ?_⟩
      rw [hdone, hset, List.set_set]

/-- Assumes: all reads find the same disk, and the process can answer the request: it does not exit
for it, and a message stays within its array. In every state between two moves of any interleaving,
an execution that moves alone has sent its response after at most four moves, and the others are
where they were. -/
theorem execution_finishes (disk : List UInt8 → FileStatus) (maxCacheSize : ℤ) (s : CacheServer)
    (hreach : Machine.Reaches (ReadsFrom disk) step (init maxCacheSize) s) (i : ℕ) (x : Execution)
    (hi : s.executions[i]? = some x) (response : List UInt8)
    (hresponse : Answerable disk x.line response) :
    ∃ k ≤ 4, ∃ t, Alone disk i k s t ∧
      t.executions = s.executions.set i ⟨x.line, .done response⟩ := by
  obtain ⟨k, hk, hdone⟩ := exists_alone (ready_of_reaches hreach) hi hresponse.responds
  exact ⟨k, hk.trans (remaining_le x.position), hdone⟩

/-- What the server can send for a request line is its response, and nothing else. -/
theorem sends_iff (disk : List UInt8 → FileStatus) (maxCacheSize : ℤ) (line : RequestLine)
    (response : List UInt8) :
    Sends disk maxCacheSize line response ↔ respond disk line = some response := by
  refine ⟨Sends.respond_eq, fun hresponse ↦ ?_⟩
  have harrive : Machine.Reaches (ReadsFrom disk) step (init maxCacheSize)
      { init maxCacheSize with executions := [⟨line, .start line⟩] } :=
    Relation.ReflTransGen.single ⟨.arrive line, trivial, rfl⟩
  obtain ⟨k, -, t, halone, hdone⟩ := exists_alone (ready_of_reaches harrive)
    (i := 0) (x := ⟨line, .start line⟩) rfl hresponse
  exact ⟨t, harrive.trans halone.reaches, by rw [hdone]; exact List.mem_singleton_self _⟩

/-- The second of three requests for the same file goes on alone: the first has inserted the file
and not sent it, the third has just arrived, and the second has found the entry. -/
def threeForA : List Move :=
  [.arrive ⟨ascii "GET", [97]⟩, .lookup 0, .read 0 (.filled [1, 2] 2), .insert 0 0 0,
    .arrive ⟨ascii "GET", [97]⟩, .arrive ⟨ascii "GET", [97]⟩, .lookup 1]

/-- It is answered with the file in the cache, and the others are where they were. -/
theorem execution_finishes_second : ∃ s, ∃ k ≤ 4, ∃ t, Alone twoBytes 1 k s t ∧
    s.executions = [⟨⟨ascii "GET", [97]⟩, .send ⟨ascii "./a", [1, 2], 2⟩ none⟩,
      ⟨⟨ascii "GET", [97]⟩, .hit 0⟩, ⟨⟨ascii "GET", [97]⟩, .lookup (ascii "./a")⟩] ∧
    t.executions = s.executions.set 1
      ⟨⟨ascii "GET", [97]⟩, .done (requestSendfile ⟨ascii "./a", [1, 2], 2⟩)⟩ := by
  have hrun : (Machine.run (ReadsFrom twoBytes) step (init 10) threeForA).map executions =
      some [⟨⟨ascii "GET", [97]⟩, .send ⟨ascii "./a", [1, 2], 2⟩ none⟩,
        ⟨⟨ascii "GET", [97]⟩, .hit 0⟩, ⟨⟨ascii "GET", [97]⟩, .lookup (ascii "./a")⟩] := by
    decide +kernel
  obtain ⟨s, hs, hpositions⟩ := Option.map_eq_some_iff.mp hrun
  obtain ⟨k, hk, t, halone, hdone⟩ := execution_finishes twoBytes 10 s (Machine.Reaches.of_run hs) 1
    ⟨⟨ascii "GET", [97]⟩, .hit 0⟩ (by rw [hpositions]; rfl)
    (requestSendfile ⟨ascii "./a", [1, 2], 2⟩) ⟨by decide +kernel, by decide +kernel⟩
  exact ⟨s, k, hk, t, halone, hpositions, hdone⟩

end CacheServer

end OperatingSystems.Webserver
