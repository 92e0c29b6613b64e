import OperatingSystems.Webserver.CacheServer

/-!
# The order of the list, and what is evicted

`History` is the cache with a clock that counts calls and, for every entry, the time of its last
use: the call that inserted it or the last call that found it. The list of the cache is in the order
of these times (`Ordered`), whatever calls were made. Every cache of the server has such a history
(`CacheServer.Reachable.history`).

An insertion that makes room leaves what `Eviction.leave` does. That it drops no more than it has to
is `Eviction.leave_eq`; that it drops every entry not in use when even this is not enough is
`Consistent.refused_run`.
-/

set_option autoImplicit false
set_option relaxedAutoImplicit false

namespace OperatingSystems.Webserver

open Library Library.Eviction Cache CacheServer

/-- A cache, the number of calls made, and the number of the call that last used an entry, by the
address of the entry. -/
structure History where
  cache : Cache
  clock : ℕ
  lastUse : ℕ → ℕ

namespace History

/-- The calls on the cache. -/
inductive Call
  /-- `cache_lookup`. -/
  | lookup (fileName : List UInt8)
  /-- `cache_insert`, with the addresses that `malloc` returns. -/
  | insert (file : FileData) (address node : ℕ)
  /-- The decrement of `in_use`. -/
  | release (entry : ℕ)

/-- A new cache. -/
def init (maxCacheSize : ℤ) : History := ⟨Cache.init maxCacheSize, 0, fun _ ↦ 0⟩

/-- After a call that used an entry. -/
def used (h : History) (c : Cache) (entry : ℕ) : History :=
  ⟨c, h.clock + 1, Function.update h.lastUse entry h.clock⟩

/-- After a call that used no entry. -/
def passed (h : History) (c : Cache) : History := ⟨c, h.clock + 1, h.lastUse⟩

/-- One call that returns. A hit uses the entry it finds, and an insertion that succeeds the entry
it makes. -/
def step (h : History) : Call → Option History
  | .lookup fileName =>
    match (cacheLookup (turns h.cache) fileName).run h.cache with
    | .ok (some entry, c) => some (h.used c entry)
    | .ok (none, c) => some (h.passed c)
    | .error _ => none
  | .insert file address node =>
    match (cacheInsert (turns h.cache) address node file).run h.cache with
    | .ok (1, c) => some (h.used c address)
    | .ok (_, c) => some (h.passed c)
    | .error _ => none
  | .release entry =>
    match (cacheRelease entry).run h.cache with
    | .ok (_, c) => some (h.passed c)
    | .error _ => none

/-- The size of a file is not negative. -/
def Sized (_ : History) : Call → Prop
  | .insert file _ _ => 0 ≤ file.fileSize
  | .lookup _ | .release _ => True

instance (h : History) (call : Call) : Decidable (h.Sized call) :=
  match call with
  | .insert file _ _ => inferInstanceAs (Decidable (0 ≤ file.fileSize))
  | .lookup _ | .release _ => inferInstanceAs (Decidable True)

/-- The state is reached by some sequence of calls. -/
def Reachable (maxCacheSize : ℤ) (h : History) : Prop :=
  Machine.Reaches Sized step (init maxCacheSize) h

/-! ### The order of the list -/

variable {h h' : History} {c c' : Cache} {chains : ℕ → List ℕ} {lru lru' : List (ℕ × ℕ)}
  {call : Call} {maxCacheSize : ℤ}

/-- The nodes are in the order of the last uses of their entries, all of which are past. -/
structure Ordered (h : History) (lru : List (ℕ × ℕ)) : Prop where
  increasing : lru.Pairwise fun x y ↦ h.lastUse x.2 < h.lastUse y.2
  past : ∀ x ∈ lru, h.lastUse x.2 < h.clock

/-- A call that uses no entry and adds no node keeps the order. -/
theorem Ordered.passed (hord : h.Ordered lru) (hsub : lru'.Sublist lru) :
    (h.passed c).Ordered lru' where
  increasing := hord.increasing.sublist hsub
  past x hx := (hord.past x (hsub.mem hx)).trans (Nat.lt_succ_self _)

/-- The order of a list to whose end the used entry is put. -/
theorem Ordered.used {x : ℕ × ℕ} (hord : h.Ordered lru) (hsub : lru'.Sublist lru)
    (hx : x.2 ∉ lru'.map Prod.snd) : (h.used c x.2).Ordered (lru' ++ [x]) := by
  have hself : (h.used c x.2).lastUse x.2 = h.clock := Function.update_self ..
  have hother : ∀ y ∈ lru', (h.used c x.2).lastUse y.2 = h.lastUse y.2 := fun y hy ↦
    Function.update_of_ne (ne_of_mem_of_not_mem (List.mem_map_of_mem hy) hx) ..
  constructor
  · refine List.pairwise_append.mpr ⟨?_, List.pairwise_singleton .., fun y hy z hz ↦ ?_⟩
    · refine (hord.increasing.sublist hsub).imp_of_mem fun hy hz hlt ↦ ?_
      rw [hother _ hy, hother _ hz]
      exact hlt
    · rw [List.mem_singleton.mp hz, hself, hother y hy]
      exact hord.past y (hsub.mem hy)
  · intro y hy
    rcases List.mem_append.mp hy with hy | hy
    · rw [hother y hy]
      exact (hord.past y (hsub.mem hy)).trans (Nat.lt_succ_self _)
    · rw [List.mem_singleton.mp hy, hself]
      exact Nat.lt_succ_self _

/-- The cache is consistent and its list ordered. -/
structure Invariant (maxCacheSize : ℤ) (h : History) : Prop where
  maxCacheSize : h.cache.maxCacheSize = maxCacheSize
  ordered : ∃ chains lru, h.cache.Consistent chains lru ∧ h.Ordered lru

/-- Making room adds no node. -/
theorem roomList_sublist (c : Cache) (file : FileData) (lru : List (ℕ × ℕ)) :
    (c.roomList file lru).Sublist lru := by
  unfold roomList
  split_ifs
  · exact leave_sublist 0 lru
  · exact List.Sublist.refl lru

/-- Looking a name up keeps the list ordered. -/
theorem Invariant.lookup {fileName : List UInt8} (hinv : h.Invariant maxCacheSize)
    (hstep : h.step (.lookup fileName) = some h') : h'.Invariant maxCacheSize := by
  obtain ⟨chains, lru, hc, hord⟩ := hinv.ordered
  have hmax := hinv.maxCacheSize
  simp only [step, turns] at hstep
  rcases hc.cacheLookup_run hc.enough fileName with
    ⟨hrun, -⟩ | ⟨x, r, s, e, c', rfl, hrun, -, -, hc', -, hmax'⟩
  · rw [hrun] at hstep
    cases hstep
    exact ⟨hmax, chains, lru, hc, hord.passed (List.Sublist.refl lru)⟩
  · rw [hrun] at hstep
    cases hstep
    have hnodup := hc'.nodup
    rw [List.map_append, List.map_singleton] at hnodup
    have hx : x.2 ∉ (r ++ s).map Prod.snd := fun hmem ↦
      (List.nodup_append.mp hnodup).2.2 x.2 hmem x.2 (List.mem_singleton_self _) rfl
    have hsub : (r ++ s).Sublist (r ++ x :: s) := (List.sublist_cons_self x s).append_left r
    exact ⟨hmax'.trans hmax, chains, _, hc', hord.used hsub hx⟩

/-- Assumes: a limit in the range of an `int`. Inserting a file keeps the list ordered. -/
theorem Invariant.insert {file : FileData} {address node : ℕ} (hinv : h.Invariant maxCacheSize)
    (hlt : maxCacheSize < 2 ^ 31) (hsize : 0 ≤ file.fileSize)
    (hstep : h.step (.insert file address node) = some h') : h'.Invariant maxCacheSize := by
  obtain ⟨chains, lru, hc, hord⟩ := hinv.ordered
  have hmax := hinv.maxCacheSize
  simp only [step, turns] at hstep
  rcases hc.cacheInsert_run (a := address) (n := node) hc.enough hsize with
    ⟨result, c', chains', lru', hrun, hc', houtcome⟩ | ⟨hrun, -⟩
  · rw [hrun] at hstep
    have hmax' := houtcome.toInserted.maxCacheSize.trans hmax
    cases houtcome with
    | present hb hname =>
      cases hstep
      exact ⟨hmax', chains', lru, hc', hord.passed (List.Sublist.refl lru)⟩
    | large hlarge =>
      cases hstep
      exact ⟨hmax', chains', lru, hc', hord.passed (List.Sublist.refl lru)⟩
    | refused hname hlarge hevicted hlru hroom =>
      cases hstep
      refine ⟨hmax', chains', lru', hc', hord.passed ?_⟩
      rw [hlru (by omega)]
      exact roomList_sublist ..
    | @inserted c₁ _ lru₁ hevicted hfree hlru hentries hmax₁ =>
      cases hstep
      have hnodup := hc'.nodup
      rw [List.map_append, List.map_singleton] at hnodup
      have hx : address ∉ lru₁.map Prod.snd := fun hmem ↦
        (List.nodup_append.mp hnodup).2.2 address hmem address (List.mem_singleton_self _) rfl
      have hsub : lru₁.Sublist lru := by
        rw [hlru (by omega)]
        exact roomList_sublist ..
      exact ⟨hmax', chains', _, hc', hord.used (x := (node, address)) hsub hx⟩
  · rw [hrun] at hstep
    cases hstep

/-- Releasing an entry keeps the list ordered. -/
theorem Invariant.release {entry : ℕ} (hinv : h.Invariant maxCacheSize)
    (hstep : h.step (.release entry) = some h') : h'.Invariant maxCacheSize := by
  obtain ⟨chains, lru, hc, hord⟩ := hinv.ordered
  simp only [step] at hstep
  split at hstep
  case h_1 u c' hrun =>
    cases hstep
    obtain rfl := cacheRelease_eq hrun
    exact ⟨hinv.maxCacheSize, chains, lru, hc.addUse entry (-1),
      hord.passed (List.Sublist.refl lru)⟩
  case h_2 => cases hstep

/-- Assumes: a limit in the range of an `int`. Every call keeps the list ordered. -/
theorem Invariant.step (hinv : h.Invariant maxCacheSize) (hlt : maxCacheSize < 2 ^ 31)
    (hsized : h.Sized call) (hstep : h.step call = some h') : h'.Invariant maxCacheSize := by
  cases call with
  | lookup fileName => exact hinv.lookup hstep
  | insert file address node => exact hinv.insert hlt hsized hstep
  | release entry => exact hinv.release hstep

/-- Assumes: a limit in the range of an `int` that is not negative. The list is ordered after every
sequence of calls. -/
theorem Reachable.invariant (hreach : Reachable maxCacheSize h) (hmax : 0 ≤ maxCacheSize)
    (hlt : maxCacheSize < 2 ^ 31) : h.Invariant maxCacheSize :=
  Machine.Reaches.invariant (fun _ _ _ hinv hsized hstep ↦ hinv.step hlt hsized hstep) hreach
    ⟨rfl, _, [], Consistent.init hmax, List.Pairwise.nil, fun _ hx ↦ by cases hx⟩

/-- One more call. -/
theorem Reachable.step (hreach : Reachable maxCacheSize h) (call : Call) (hsized : h.Sized call)
    (hstep : h.step call = some h') : Reachable maxCacheSize h' :=
  Relation.ReflTransGen.tail hreach ⟨call, hsized, hstep⟩

end History

/-! ### Histories of the server's cache -/

section Server

variable {s t : CacheServer} {m : CacheServer.Move} {c c' : Cache} {maxCacheSize : ℤ}

/-- The server's cache, if there is one, is that of some history. -/
def CacheServer.Recorded (maxCacheSize : ℤ) (s : CacheServer) : Prop :=
  ∀ c, s.cache = some c → ∃ h, History.Reachable maxCacheSize h ∧ h.cache = c

/-- Every move of the server is no call or one call. -/
theorem CacheServer.Recorded.step (hrec : s.Recorded maxCacheSize)
    (hinv : s.Invariant maxCacheSize) (hstep : s.step m = some t) : t.Recorded maxCacheSize := by
  intro d hd
  cases Transition.of_step hstep with
  | arrive line => exact hrec d hd
  | lookupNone hi hcache => exact hrec d hd
  | @lookup _ _ fileName c _ found hi hcache hrun =>
    cases hd
    obtain ⟨h, hreach, rfl⟩ := hrec c hcache
    cases found with
    | none =>
      exact ⟨h.passed d, hreach.step (.lookup fileName) trivial
        (by simp only [History.step, hrun]), rfl⟩
    | some entry =>
      exact ⟨h.used d entry, hreach.step (.lookup fileName) trivial
        (by simp only [History.step, hrun]), rfl⟩
  | use hi hcache hentry => exact hrec d hd
  | readRefused hi => exact hrec d hd
  | readFilled hi => exact hrec d hd
  | insertNone hi hcache => exact hrec d hd
  | @insert _ _ data address node c _ result hi hcache hrun =>
    cases hd
    obtain ⟨h, hreach, rfl⟩ := hrec c hcache
    have hsize : 0 ≤ data.fileSize := hinv.sized _ (List.mem_of_getElem? hi) data rfl
    by_cases hone : result = 1
    · subst hone
      exact ⟨h.used d address, hreach.step (.insert data address node) hsize
        (by simp only [History.step, hrun]), rfl⟩
    · exact ⟨h.passed d, hreach.step (.insert data address node) hsize
        (by simp only [History.step, hrun]), rfl⟩
  | @send _ _ _ entry hi => exact hrec d hd
  | @release _ _ _ entry c _ u hi hcache hrun =>
    cases hd
    obtain ⟨h, hreach, rfl⟩ := hrec c hcache
    exact ⟨h.passed d, hreach.step (.release entry) trivial
      (by simp only [History.step, hrun]), rfl⟩

/-- In every reachable state the server's cache has a history. -/
theorem CacheServer.Reachable.history (hreach : CacheServer.Reachable maxCacheSize s)
    (hcache : s.cache = some c) : ∃ h, History.Reachable maxCacheSize h ∧ h.cache = c := by
  have hinit : (CacheServer.init maxCacheSize).Recorded maxCacheSize := by
    intro d hd
    simp only [CacheServer.init] at hd
    split_ifs at hd
    cases hd
    exact ⟨History.init maxCacheSize, Relation.ReflTransGen.refl, rfl⟩
  have hboth : s.Invariant maxCacheSize ∧ s.Recorded maxCacheSize :=
    Machine.Reaches.invariant (I := fun s ↦ s.Invariant maxCacheSize ∧ s.Recorded maxCacheSize)
      (fun _ _ _ hs hsized hstep ↦ ⟨hs.1.step hsized hstep, hs.2.step hs.1 hstep⟩) hreach
      ⟨invariant_init maxCacheSize, hinit⟩
  exact hboth.2 c hcache

end Server

/-! ### What is evicted -/

section Evicted

variable {c c' : Cache} {chains chains' : ℕ → List ℕ} {lru lru' dropped : List (ℕ × ℕ)}
  {file : FileData} {maxCacheSize : ℤ}

/-- The entries that an eviction leaves in the list are not changed. -/
theorem Cache.Evicted.entries_eq (h : c.Evicted c') (hc' : c'.Consistent chains lru) {x : ℕ × ℕ}
    (hx : x ∈ lru) : c'.entries x.2 = c.entries x.2 := by
  obtain ⟨k, hk, hmem⟩ := (hc'.mem x.2).mp (List.mem_map_of_mem hx)
  obtain ⟨e, he, -⟩ := hc'.entry k hk x.2 hmem
  refine (h.entries x.2).elim id fun hnone ↦ ?_
  rw [he] at hnone
  cases hnone.1

/-- An entry that is not in the list is not allocated. -/
theorem Cache.Consistent.entries_eq_none (h : c.Consistent chains lru) {a : ℕ}
    (ha : a ∉ lru.map Prod.snd) : c.entries a = none := by
  cases he : c.entries a with
  | none => rfl
  | some e => exact absurd (h.allocated a e he) ha

/-- An entry is in the list exactly if it is allocated. -/
theorem Cache.Consistent.mem_iff_isSome (h : c.Consistent chains lru) (a : ℕ) :
    a ∈ lru.map Prod.snd ↔ (c.entries a).isSome := by
  refine ⟨fun ha ↦ ?_, fun ha ↦ ?_⟩
  · obtain ⟨k, hk, hmem⟩ := (h.mem a).mp ha
    obtain ⟨e, he, -⟩ := h.entry k hk a hmem
    rw [he]
    rfl
  · obtain ⟨e, he⟩ := Option.isSome_iff_exists.mp ha
    exact h.allocated a e he

/-- The nodes of a list are different. -/
theorem Cache.Consistent.nodup_nodes (h : c.Consistent chains lru) : lru.Nodup :=
  List.Nodup.of_map _ h.nodup

/-- The file fits if what stays in the list leaves the space that was missing. -/
theorem Cache.Consistent.fits_of_total_le (h : c.Consistent chains lru)
    (h' : c'.Consistent chains' lru') (hevicted : c.Evicted c')
    (hfull : c.size + file.fileSize > c.maxCacheSize)
    (hle : c.missing file + total c.fileSizeOf lru' ≤ total c.fileSizeOf lru) :
    c'.size + file.fileSize ≤ c'.maxCacheSize := by
  have hsame : total c'.fileSizeOf lru' = total c.fileSizeOf lru' :=
    total_congr fun x hx ↦ fileSizeOf_congr (hevicted.entries_eq h' hx)
  have hsize := h.size_eq_total
  have hsize' := h'.size_eq_total
  have hmax := hevicted.maxCacheSize
  have hmissing : (c.missing file : ℤ) = file.fileSize - (c.maxCacheSize - c.size) :=
    Int.toNat_of_nonneg (by omega)
  omega

/-- Assumes: a limit in the range of an `int`. An insertion that had to make room and succeeds has
dropped the shortest part of the entries not in use, from the front of the list, that comes to the
missing space. -/
theorem Cache.Consistent.inserted_run {address node : ℕ} (h : c.Consistent chains lru)
    (hlt : c.maxCacheSize < 2 ^ 31) (hsize : 0 ≤ file.fileSize)
    (hfull : c.size + file.fileSize > c.maxCacheSize)
    (hrun : (cacheInsert (turns c) address node file).run c = .ok (1, c')) :
    ∃ chains' k, k ≤ (idle c.pinned lru).length ∧
      c'.Consistent chains'
        (lru.filter (· ∉ (idle c.pinned lru).take k) ++ [(node, address)]) ∧
      (∀ x ∈ lru, x ∉ (idle c.pinned lru).take k → c'.entries x.2 = c.entries x.2) ∧
      c'.entries address = some ⟨file, 0⟩ ∧
      c.missing file ≤ total c.fileSizeOf ((idle c.pinned lru).take k) ∧
      ∀ j < k, total c.fileSizeOf ((idle c.pinned lru).take j) < c.missing file := by
  rcases h.cacheInsert_run (a := address) (n := node) h.enough hsize with
    ⟨result, d, chains', lru', hrun', hd, houtcome⟩ | ⟨herror, -⟩
  · obtain ⟨rfl, rfl⟩ : result = 1 ∧ d = c' := by
      simpa using hrun'.symm.trans hrun
    cases houtcome with
    | @inserted c₁ _ lru₁ hevicted hfree hlru hentries hmax =>
      obtain rfl := hlru (by omega)
      -- The entries of the nodes that stay are the old ones.
      have hnodup := hd.nodup
      rw [List.map_append, List.nodup_append] at hnodup
      have hold : ∀ x ∈ c.roomList file lru, d.entries x.2 = c.entries x.2 := by
        intro x hx
        have hne : x.2 ≠ address := fun heq ↦ hnodup.2.2 x.2 (List.mem_map_of_mem hx) address
          (List.mem_singleton_self _) heq
        have hsome : (d.entries x.2).isSome := (hd.mem_iff_isSome x.2).mp
          (List.mem_map_of_mem (List.mem_append_left _ hx))
        rw [hentries, Function.update_of_ne hne] at hsome ⊢
        refine (hevicted.entries x.2).elim id fun hnone ↦ ?_
        rw [hnone.1] at hsome
        cases hsome
      have hnew : d.entries address = some ⟨file, 0⟩ := by
        rw [hentries]
        exact Function.update_self ..
      have hmissing : (c.missing file : ℤ) = file.fileSize - (c.maxCacheSize - c.size) :=
        Int.toNat_of_nonneg (by omega)
      have hroom : c.roomList file lru = leave c.pinned c.fileSizeOf (c.missing file) 0 lru :=
        if_pos hfull
      have henough : c.missing file ≤ 0 + total c.fileSizeOf (idle c.pinned lru) := by
        by_contra hless
        -- Everything not in use is dropped, and then the file is over the limit.
        have hfilter := hroom.trans (leave_eq_filter (not_le.mp hless))
        have htotal : total d.fileSizeOf (c.roomList file lru) =
            total c.fileSizeOf (lru.filter c.pinned) := by
          rw [← hfilter]
          exact total_congr fun x hx ↦ fileSizeOf_congr (hold x hx)
        have hlast : d.fileSizeOf (node, address) = file.fileSize.toNat := by
          simp [fileSizeOf, sizeAt, hnew]
        have hd_size := hd.size_eq_total
        rw [total_append, total_cons, total_nil, htotal, hlast] at hd_size
        have hc_size := h.size_eq_total
        have hparts := @total_filter_add_idle _ c.pinned c.fileSizeOf lru
        have hd_le := hd.le
        rw [hmax, hevicted.maxCacheSize] at hd_le
        omega
      obtain ⟨k, hk, hleave, hcomes, hleast⟩ :=
        leave_eq h.nodup_nodes (n := 0) (by omega) henough
      rw [hroom, hleave] at hd hold
      refine ⟨chains', k, hk, hd, fun x hx hstay ↦ hold x ?_, hnew, by omega, fun j hj ↦ ?_⟩
      · exact List.mem_filter.mpr ⟨hx, by simpa using hstay⟩
      · have hless := hleast j hj
        omega
  · exact absurd (hrun.symm.trans herror) (by simp)

/-- Assumes: a limit in the range of an `int`. An insertion that is refused leaves the cache if the
name is cached or the file larger than the limit; otherwise exactly the entries in use stay. -/
theorem Cache.Consistent.refused_run {address node : ℕ} (h : c.Consistent chains lru)
    (hlt : c.maxCacheSize < 2 ^ 31) (hsize : 0 ≤ file.fileSize)
    (hrun : (cacheInsert (turns c) address node file).run c = .ok (0, c')) :
    (((∃ b e, c.entries b = some e ∧ e.data.fileName = file.fileName) ∨
        c.maxCacheSize < file.fileSize) ∧ c' = c) ∨
    (¬((∃ b e, c.entries b = some e ∧ e.data.fileName = file.fileName) ∨
        c.maxCacheSize < file.fileSize) ∧
      (∃ chains', c'.Consistent chains' (lru.filter c.pinned)) ∧
      ∀ x ∈ lru, c.pinned x → c'.entries x.2 = c.entries x.2) := by
  rcases h.cacheInsert_run (a := address) (n := node) h.enough hsize with
    ⟨result, d, chains', lru', hrun', hd, houtcome⟩ | ⟨herror, -⟩
  · obtain ⟨rfl, rfl⟩ : result = 0 ∧ d = c' := by
      simpa using hrun'.symm.trans hrun
    cases houtcome with
    | present hb hname => exact .inl ⟨.inl ⟨_, _, hb, hname⟩, rfl⟩
    | large hlarge => exact .inl ⟨.inr hlarge, rfl⟩
    | refused hname hlarge hevicted hlru hroom =>
      have hstay := hlru (by omega)
      have hfull : c.size + file.fileSize > c.maxCacheSize := by
        by_contra hfits
        rw [roomList, if_neg hfits] at hstay
        subst hstay
        have hsame : total d.fileSizeOf lru' = total c.fileSizeOf lru' :=
          total_congr fun x hx ↦ fileSizeOf_congr (hevicted.entries_eq hd hx)
        have hsize' := hd.size_eq_total
        have hsize := h.size_eq_total
        have hmax := hevicted.maxCacheSize
        omega
      rw [roomList, if_pos hfull] at hstay
      have hfilter : lru' = lru.filter c.pinned := by
        rw [hstay]
        refine (leave_eq_filter_or 0 lru).resolve_right fun hle ↦ ?_
        rw [← hstay, Nat.zero_add] at hle
        have hfits := h.fits_of_total_le hd hevicted hfull hle
        omega
      subst hfilter
      refine .inr ⟨?_, ⟨chains', hd⟩, fun x hx hpinned ↦ ?_⟩
      · rintro (⟨b, e, hb, heq⟩ | hlarge')
        · exact hname b e hb heq
        · exact hlarge hlarge'
      · exact hevicted.entries_eq hd (List.mem_filter.mpr ⟨hx, hpinned⟩)
  · exact absurd (hrun.symm.trans herror) (by simp)

/-- The entries, their use counts, their order and the size of the cache are as before. -/
def Cache.Undisturbed (c c' : Cache) : Prop :=
  c'.entries = c.entries ∧ c'.size = c.size ∧
    ∃ chains chains' lru, c.Consistent chains lru ∧ c'.Consistent chains' lru

/-- Assumes: exactly the entries in use stay. Then nothing has changed exactly if all are in use. -/
theorem Cache.Consistent.undisturbed_iff (h : c.Consistent chains lru)
    (h' : c'.Consistent chains' (lru.filter c.pinned))
    (hstay : ∀ x ∈ lru, c.pinned x → c'.entries x.2 = c.entries x.2) :
    c.Undisturbed c' ↔ ∀ x ∈ lru, c.pinned x := by
  constructor
  · rintro ⟨hentries, -, -⟩ x hx
    have hsome := (h.mem_iff_isSome x.2).mp (List.mem_map_of_mem hx)
    rw [← hentries, ← h'.mem_iff_isSome] at hsome
    obtain ⟨y, hy, heq⟩ := List.mem_map.mp hsome
    have hpinned := (List.mem_filter.mp hy).2
    rw [pinned, heq] at hpinned
    exact hpinned
  · intro hall
    have hfilter : lru.filter c.pinned = lru := List.filter_eq_self.mpr hall
    rw [hfilter] at h'
    refine ⟨funext fun a ↦ ?_, ?_, chains, chains', lru, h, h'⟩
    · by_cases ha : a ∈ lru.map Prod.snd
      · obtain ⟨x, hx, rfl⟩ := List.mem_map.mp ha
        exact hstay x hx (hall x hx)
      · rw [h.entries_eq_none ha, h'.entries_eq_none ha]
    · rw [h.size, h'.size]
      exact sum_sizeAt_congr fun x hx ↦ hstay x hx (hall x hx)

end Evicted

/-! ### Main results -/

/-- Assumes: a limit above zero in the range of an `int`. After every sequence of calls the list has
exactly the cached entries, in increasing order of their last use. A successful insertion that had
to make room evicts the shortest part, in that order, of the entries not in use whose sizes come to
the missing space; the others keep their order and the new entry is the last. -/
theorem lru_order_and_minimal_eviction (maxCacheSize : ℤ) (hmax : 0 < maxCacheSize)
    (hlt : maxCacheSize < 2 ^ 31) (h : History) (hreach : History.Reachable maxCacheSize h) :
    ∃ chains lru, h.cache.Consistent chains lru ∧
      (∀ a, a ∈ lru.map Prod.snd ↔ (h.cache.entries a).isSome) ∧
      lru.Pairwise (fun x y ↦ h.lastUse x.2 < h.lastUse y.2) ∧
      ∀ (file : FileData) (address node : ℕ) (c' : Cache), 0 ≤ file.fileSize →
        (cacheInsert (turns h.cache) address node file).run h.cache = .ok (1, c') →
        h.cache.size + file.fileSize > maxCacheSize →
        ∃ chains' k, k ≤ (idle h.cache.pinned lru).length ∧
          c'.Consistent chains'
            (lru.filter (· ∉ (idle h.cache.pinned lru).take k) ++ [(node, address)]) ∧
          (∀ x ∈ lru, x ∉ (idle h.cache.pinned lru).take k →
            c'.entries x.2 = h.cache.entries x.2) ∧
          c'.entries address = some ⟨file, 0⟩ ∧
          h.cache.missing file ≤ total h.cache.fileSizeOf ((idle h.cache.pinned lru).take k) ∧
          ∀ j < k, total h.cache.fileSizeOf ((idle h.cache.pinned lru).take j) <
            h.cache.missing file := by
  have hinv := hreach.invariant hmax.le hlt
  obtain ⟨chains, lru, hc, hord⟩ := hinv.ordered
  have hlimit := hinv.maxCacheSize
  refine ⟨chains, lru, hc, hc.mem_iff_isSome, hord.increasing,
    fun file address node c' hsize hrun hfull ↦ ?_⟩
  exact hc.inserted_run (by omega) hsize (by omega) hrun

/-- Two files of four bytes are inserted and the first is looked up. -/
def twoFiles : List History.Call :=
  [.insert ⟨[97], [], 4⟩ 1 11, .insert ⟨[98], [], 4⟩ 2 12, .lookup [97]]

/-- A third file of six bytes takes the place of the second, which was not used since. -/
theorem lru_order_and_minimal_eviction_twoFiles : ∃ h c' chains lru chains' k,
    History.Reachable 10 h ∧ h.cache.Consistent chains lru ∧
    (cacheInsert (turns h.cache) 3 13 ⟨[99], [], 6⟩).run h.cache = .ok (1, c') ∧
    (h.cache.entries 2).isSome ∧ (c'.entries 2).isNone ∧ (c'.entries 1).isSome ∧
    c'.Consistent chains'
      (lru.filter (· ∉ (idle h.cache.pinned lru).take k) ++ [(13, 3)]) := by
  have hrun : ((Machine.run History.Sized History.step (.init 10) twoFiles).bind fun h ↦
      ((cacheInsert (turns h.cache) 3 13 ⟨[99], [], 6⟩).run h.cache).toOption.map fun r ↦
        (decide (h.cache.size = 8), (h.cache.entries 2).isSome, r.1, (r.2.entries 2).isNone,
          (r.2.entries 1).isSome)) = some (true, true, 1, true, true) := by
    decide +kernel
  obtain ⟨h, hcalls, hinsert⟩ := Option.bind_eq_some_iff.mp hrun
  have hreach : History.Reachable 10 h := Machine.Reaches.of_run hcalls
  cases hok : (cacheInsert (turns h.cache) 3 13 ⟨[99], [], 6⟩).run h.cache with
  | error fault =>
    rw [hok] at hinsert
    cases hinsert
  | ok r =>
    obtain ⟨result, c'⟩ := r
    simp only [hok, Except.toOption, Option.map_some, Option.some.injEq, Prod.mk.injEq,
      decide_eq_true_eq] at hinsert
    obtain ⟨hsize, htwo, rfl, hgone, hkept⟩ := hinsert
    obtain ⟨chains, lru, hc, -, -, hevict⟩ :=
      lru_order_and_minimal_eviction 10 (by decide) (by decide) h hreach
    obtain ⟨chains', k, -, hc', -⟩ := hevict ⟨[99], [], 6⟩ 3 13 c' (by decide) hok (by
      rw [hsize]
      decide)
    exact ⟨h, c', chains, lru, chains', k, hreach, hc, hok, htwo, hgone, hkept, hc'⟩

namespace CacheServer

/-- Assumes: a limit in the range of an `int`. An insertion that is refused leaves the cache if the
name is cached or the file larger than the limit. Otherwise it has evicted every entry not in use,
and the entries in use stay as they are, in their order. So nothing has changed exactly if the name
is cached, the file is too large or every entry is in use. -/
theorem refused_insert (maxCacheSize : ℤ) (hlt : maxCacheSize < 2 ^ 31) (s : CacheServer)
    (c c' : Cache) (hreach : Reachable maxCacheSize s) (hcache : s.cache = some c)
    (file : FileData) (hsize : 0 ≤ file.fileSize) (address node : ℕ)
    (hrun : (cacheInsert (turns c) address node file).run c = .ok (0, c')) :
    ∃ chains lru, c.Consistent chains lru ∧
      ((∃ b e, c.entries b = some e ∧ e.data.fileName = file.fileName) ∨
        maxCacheSize < file.fileSize → c' = c) ∧
      (¬((∃ b e, c.entries b = some e ∧ e.data.fileName = file.fileName) ∨
          maxCacheSize < file.fileSize) →
        (∃ chains', c'.Consistent chains' (lru.filter c.pinned)) ∧
        ∀ x ∈ lru, c.pinned x → c'.entries x.2 = c.entries x.2) ∧
      (c.Undisturbed c' ↔
        (∃ b e, c.entries b = some e ∧ e.data.fileName = file.fileName) ∨
          maxCacheSize < file.fileSize ∨ ∀ x ∈ lru, c.pinned x) := by
  have hinv := hreach.invariant
  obtain ⟨chains, lru, hc⟩ := hinv.consistent c hcache
  have hlimit := hinv.maxCacheSize c hcache
  refine ⟨chains, lru, hc, ?_⟩
  rcases hc.refused_run (by omega) hsize hrun with ⟨hsame, rfl⟩ | ⟨hother, ⟨chains', hc'⟩, hstay⟩
  · rw [hlimit] at hsame
    refine ⟨fun _ ↦ rfl, fun hnot ↦ absurd hsame hnot, ?_⟩
    exact iff_of_true ⟨rfl, rfl, chains, chains, lru, hc, hc⟩ (hsame.imp_right .inl)
  · rw [hlimit] at hother
    refine ⟨fun hsame ↦ absurd hsame hother, fun _ ↦ ⟨⟨chains', hc'⟩, hstay⟩, ?_⟩
    rw [hc.undisturbed_iff hc' hstay]
    exact ⟨fun hall ↦ .inr (.inr hall), fun hcase ↦ (or_assoc.mpr hcase).resolve_left hother⟩

/-- Two files of four bytes are inserted, the second is found by a request that has not released
it, and a file of eight bytes is to be inserted. -/
def oneInUse : List Move :=
  [.arrive ⟨ascii "GET", [97]⟩, .lookup 0, .read 0 (.filled [1, 2, 3, 4] 4), .insert 0 1 11,
    .arrive ⟨ascii "GET", [98]⟩, .lookup 1, .read 1 (.filled [1, 2, 3, 4] 4), .insert 1 2 12,
    .arrive ⟨ascii "GET", [98]⟩, .lookup 2,
    .arrive ⟨ascii "GET", [99]⟩, .lookup 3, .read 3 (.filled [1, 2, 3, 4, 5, 6, 7, 8] 8)]

/-- The insertion that is refused, in a cache that has evicted the first file. -/
theorem refused_insert_oneInUse : ∃ s c c', Reachable 10 s ∧ s.cache = some c ∧
    (cacheInsert (turns c) 3 13 ⟨[99], [1, 2, 3, 4, 5, 6, 7, 8], 8⟩).run c = .ok (0, c') ∧
    (c.entries 1).isSome ∧ (c'.entries 1).isNone := by
  have hrun : ((Machine.run Sized step (init 10) oneInUse).bind fun s ↦ s.cache.bind fun c ↦
      ((cacheInsert (turns c) 3 13 ⟨[99], [1, 2, 3, 4, 5, 6, 7, 8], 8⟩).run c).toOption.map
        fun r ↦ (r.1, (c.entries 1).isSome, (r.2.entries 1).isNone)) = some (0, true, true) := by
    decide +kernel
  obtain ⟨s, hs, hbind⟩ := Option.bind_eq_some_iff.mp hrun
  obtain ⟨c, hc, hinsert⟩ := Option.bind_eq_some_iff.mp hbind
  cases hok : (cacheInsert (turns c) 3 13 ⟨[99], [1, 2, 3, 4, 5, 6, 7, 8], 8⟩).run c with
  | error fault =>
    rw [hok] at hinsert
    cases hinsert
  | ok r =>
    obtain ⟨result, c'⟩ := r
    simp only [hok, Except.toOption, Option.map_some, Option.some.injEq, Prod.mk.injEq] at hinsert
    obtain ⟨rfl, hone, hgone⟩ := hinsert
    exact ⟨s, c, c', Machine.Reaches.of_run hs, hc, hok, hone, hgone⟩

/-- Not every entry is in use there. -/
theorem refused_insert_at_oneInUse : ∃ s c chains lru, Reachable 10 s ∧ s.cache = some c ∧
    c.Consistent chains lru ∧ ¬∀ x ∈ lru, c.pinned x := by
  obtain ⟨s, c, c', hreach, hcache, hrun, hone, hgone⟩ := refused_insert_oneInUse
  obtain ⟨chains, lru, hc, -, -, hiff⟩ := refused_insert 10 (by decide) s c c' hreach hcache
    ⟨[99], [1, 2, 3, 4, 5, 6, 7, 8], 8⟩ (by decide) 3 13 hrun
  refine ⟨s, c, chains, lru, hreach, hcache, hc, fun hall ↦ ?_⟩
  have hentries := (hiff.mpr (.inr (.inr hall))).1
  rw [hentries, Option.isNone_iff_eq_none] at hgone
  rw [hgone] at hone
  cases hone

/-- A refused insertion can change the cache. -/
theorem not_refused_insert_undisturbed : ¬∀ (maxCacheSize : ℤ) (s : CacheServer) (c c' : Cache)
    (file : FileData) (address node : ℕ), Reachable maxCacheSize s → s.cache = some c →
    (cacheInsert (turns c) address node file).run c = .ok (0, c') → c.Undisturbed c' := by
  intro hall
  obtain ⟨s, c, c', hreach, hcache, hrun, hone, hgone⟩ := refused_insert_oneInUse
  have hentries := (hall 10 s c c' _ 3 13 hreach hcache hrun).1
  rw [hentries] at hgone
  rw [Option.isNone_iff_eq_none.mp hgone] at hone
  cases hone

end CacheServer

end OperatingSystems.Webserver
