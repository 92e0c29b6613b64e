import Mathlib.Algebra.BigOperators.Group.List.Basic
import OperatingSystems.Library.Eviction
import OperatingSystems.Webserver.Cache

/-!
# The cache as lists

`Consistent c chains lru` relates the linked structures of the cache to lists: `chains k` are the
entries chained in bucket `k`, and `lru` the nodes of the list in the order of use, each with the
entry it is for. It says that the list is well formed, that it has exactly the chained entries, each
once, that every entry is in the bucket of its name, that no two entries have the same name, and
that `size` is the sum of the file sizes and within its limit.

Every function of the cache returns from such a state, given enough turns for its loops, and leaves
such a state: `cacheLookup_run`, `cacheInsert_run` and `cacheRelease_run`. Between taking a node off
the list and taking its entry off its chain, `cache_evict` is in a state that is not consistent;
`evictOne_run` treats the two steps together.
-/

set_option autoImplicit false
set_option relaxedAutoImplicit false

namespace OperatingSystems.Webserver.Cache

open Library Library.LinkedQueue Library.Eviction

variable {c c' : Cache} {next : EntryPtr → Option ℕ} {p : EntryPtr} {a b n : ℕ} {l : List ℕ}
  {e : CacheEntry} {name : List UInt8}

/-! ### Chains -/

/-- The `next` pointers as pointers between entries. -/
def link (next : EntryPtr → Option ℕ) (p : EntryPtr) : Option EntryPtr := (next p).map .node

/-- The allocated entries after an entry, to the end of the chain. -/
def Chain (next : EntryPtr → Option ℕ) (p : EntryPtr) (l : List ℕ) : Prop :=
  Path (link next) (some p) (p :: l.map .node) none

theorem link_update (next : EntryPtr → Option ℕ) (p : EntryPtr) (v : Option ℕ) :
    link (Function.update next p v) = Function.update (link next) p (v.map .node) := by
  funext q
  by_cases hq : q = p
  · subst hq
    rw [link, Function.update_self, Function.update_self]
  · rw [link, Function.update_of_ne hq, Function.update_of_ne hq, link]

theorem chain_nil : Chain next p [] ↔ next p = none := by
  simp [Chain, link]

theorem chain_cons : Chain next p (a :: l) ↔ next p = some a ∧ Chain next (.node a) l := by
  simp only [Chain, List.map_cons, path_cons, link, Option.map_eq_some_iff, EntryPtr.node.injEq,
    exists_eq_right, true_and]

/-- A chain depends on the pointers of its own entries only. -/
theorem Chain.congr {next' : EntryPtr → Option ℕ} (h : Chain next p l)
    (hnext : ∀ q ∈ p :: l.map .node, next' q = next q) : Chain next' p l :=
  Path.congr h fun q hq ↦ by rw [link, link, hnext q hq]

/-- No entry is twice in a chain. -/
theorem Chain.nodup (h : Chain next (.bucket n) l) : l.Nodup := by
  have hnodup := (List.nodup_cons.mp (Path.nodup h)).2
  exact List.Nodup.of_map _ hnodup

/-! ### Following pointers -/

/-- The entry may be followed. -/
def Allocated (c : Cache) : EntryPtr → Prop
  | .bucket _ => True
  | .node a => ∃ e, c.entries a = some e

theorem deref_run (h : c.entries a = some e) : (deref a).run c = .ok (e, c) := by
  simp [deref, h]

theorem derefNode_run (h : c.nodes n = some a) : (derefNode n).run c = .ok (a, c) := by
  simp [derefNode, h]

theorem nextOf_run (h : c.Allocated p) : (nextOf p).run c = .ok (c.next p, c) := by
  cases p with
  | bucket key => rfl
  | node a =>
    obtain ⟨e, he⟩ := h
    rw [nextOf, Program.run_bind (deref_run he)]
    rfl

/-- The entry at the address has the name. -/
def named (c : Cache) (name : List UInt8) (a : ℕ) : Bool :=
  (c.entries a).any fun e ↦ e.data.fileName == name

/-- The search for a name finds the first entry of the chain that has it. -/
theorem findName_run {turns : ℕ} (h : Chain c.next p l) (hp : c.Allocated p)
    (hl : ∀ a ∈ l, ∃ e, c.entries a = some e) (hturns : l.length < turns) :
    (findName name turns p).run c = .ok (l.find? (c.named name), c) := by
  induction l generalizing p turns with
  | nil =>
    obtain ⟨turns, rfl⟩ := Nat.exists_eq_succ_of_ne_zero (Nat.ne_zero_of_lt hturns)
    rw [findName, Program.run_bind (nextOf_run hp), chain_nil.mp h]
    rfl
  | cons a l ih =>
    obtain ⟨turns, rfl⟩ := Nat.exists_eq_succ_of_ne_zero (Nat.ne_zero_of_lt hturns)
    obtain ⟨hnext, hchain⟩ := chain_cons.mp h
    obtain ⟨e, he⟩ := hl a List.mem_cons_self
    rw [findName, Program.run_bind (nextOf_run hp), hnext, Program.run_bind (deref_run he)]
    have hnamed : c.named name a = (e.data.fileName == name) := by simp [named, he]
    by_cases hname : e.data.fileName = name
    · rw [if_pos hname, List.find?_cons_of_pos (by simp [hnamed, hname])]
      rfl
    · rw [if_neg hname, List.find?_cons_of_neg (by simp [hnamed, hname])]
      exact ih hchain ⟨e, he⟩ (fun b hb ↦ hl b (List.mem_cons_of_mem a hb))
        (Nat.lt_of_succ_lt_succ hturns)

/-- The search for the last entry of a chain. -/
theorem findLast_run {turns : ℕ} (h : Chain c.next p l) (hp : c.Allocated p)
    (hl : ∀ a ∈ l, ∃ e, c.entries a = some e) (hturns : l.length < turns) :
    ∃ r x, p :: l.map .node = r ++ [x] ∧ (findLast turns p).run c = .ok (x, c) := by
  induction l generalizing p turns with
  | nil =>
    obtain ⟨turns, rfl⟩ := Nat.exists_eq_succ_of_ne_zero (Nat.ne_zero_of_lt hturns)
    refine ⟨[], p, rfl, ?_⟩
    rw [findLast, Program.run_bind (nextOf_run hp), chain_nil.mp h]
    rfl
  | cons a l ih =>
    obtain ⟨turns, rfl⟩ := Nat.exists_eq_succ_of_ne_zero (Nat.ne_zero_of_lt hturns)
    obtain ⟨hnext, hchain⟩ := chain_cons.mp h
    obtain ⟨r, x, hlist, hrun⟩ := ih hchain (hl a List.mem_cons_self)
      (fun b hb ↦ hl b (List.mem_cons_of_mem a hb)) (Nat.lt_of_succ_lt_succ hturns)
    refine ⟨p :: r, x, by rw [List.map_cons, hlist, List.cons_append], ?_⟩
    rw [findLast, Program.run_bind (nextOf_run hp), hnext]
    exact hrun

/-- The search for the predecessor of an entry of a chain. -/
theorem findPrev_run {turns : ℕ} (h : Chain c.next p l) (hp : c.Allocated p)
    (hl : ∀ a ∈ l, ∃ e, c.entries a = some e) (hturns : l.length < turns) (ha : a ∈ l) :
    ∃ u v r x, l = u ++ a :: v ∧ p :: u.map .node = r ++ [x] ∧
      (findPrev a turns p).run c = .ok (some x, c) := by
  induction l generalizing p turns with
  | nil => cases ha
  | cons b l ih =>
    obtain ⟨turns, rfl⟩ := Nat.exists_eq_succ_of_ne_zero (Nat.ne_zero_of_lt hturns)
    obtain ⟨hnext, hchain⟩ := chain_cons.mp h
    rw [findPrev, Program.run_bind (nextOf_run hp), hnext]
    dsimp only
    by_cases hba : b = a
    · subst hba
      exact ⟨[], l, [], p, rfl, rfl, by rw [if_pos rfl]; rfl⟩
    · obtain ⟨u, v, r, x, hl', hlist, hrun⟩ := ih hchain (hl b List.mem_cons_self)
        (fun d hd ↦ hl d (List.mem_cons_of_mem b hd)) (Nat.lt_of_succ_lt_succ hturns)
        ((List.mem_cons.mp ha).resolve_left fun h ↦ hba h.symm)
      refine ⟨b :: u, v, p :: r, x, by rw [hl', List.cons_append],
        by rw [List.map_cons, hlist, List.cons_append], ?_⟩
      rw [if_neg hba]
      exact hrun

/-! ### The list in the order of use -/

section Order

variable {nodeNext : ℕ → Option ℕ} {q : Queue ℕ} {r : List ℕ}

/-- An operation on the list that succeeds. -/
theorem onLRU_run {op : (ℕ → Option ℕ) → Queue ℕ → Option ((ℕ → Option ℕ) × Queue ℕ)}
    (h : op c.nodeNext c.lru = some (nodeNext, q)) :
    (onLRU op).run c = .ok ((), { c with nodeNext := nodeNext, lru := q }) := by
  rw [onLRU, Program.gets_bind_run, h]
  rfl

/-- Taking a node off the list, given its predecessor, yields its successor. -/
theorem unlinkNode_run (h : IsQueue nodeNext q (l ++ n :: r)) :
    ∃ nodeNext' q', unlinkNode n l.getLast? nodeNext q = some (r.head?, nodeNext', q') ∧
      IsQueue nodeNext' q' (l ++ r) := by
  have hsize := h.size
  rw [List.length_append, List.length_cons] at hsize
  unfold unlinkNode
  by_cases hone : q.size = 1
  · obtain ⟨rfl, rfl⟩ : l = [] ∧ r = [] := by
      rw [← List.length_eq_zero_iff, ← List.length_eq_zero_iff]
      omega
    rw [if_pos hone, hone]
    exact ⟨nodeNext, _, rfl, IsQueue.empty⟩
  · rw [if_neg hone]
    rcases List.eq_nil_or_concat l with rfl | ⟨l', p, rfl⟩
    · obtain ⟨q', hpop, hq'⟩ := h.pop
      have hhead := h.head_eq
      rw [LinkedQueue.pop, hhead] at hpop
      simp only [List.nil_append, List.head?_cons, Option.bind_eq_bind, Option.bind_some,
        Option.some.injEq, Prod.mk.injEq, true_and] at hpop
      subst hpop
      refine ⟨_, _, ?_, hq'⟩
      rw [List.getLast?_nil, hhead]
      simp [← hq'.head_eq]
    · rw [List.concat_eq_append, List.append_assoc] at h
      refine ⟨_, _, ?_, by
        rw [List.concat_eq_append, List.append_assoc]
        exact h.unlink⟩
      have hpath := (path_append.mp h.unlink.path).choose_spec.2.2
      rw [List.concat_eq_append, List.getLast?_concat]
      simp only [Option.some.injEq, Prod.mk.injEq, and_true]
      cases r with
      | nil => exact hpath
      | cons b r => exact hpath.1

end Order

/-! ### Consistent caches -/

/-- The file size of the entry at an address. -/
def sizeAt (c : Cache) (a : ℕ) : ℤ := ((c.entries a).map fun e ↦ e.data.fileSize).getD 0

/-- The linked structures of the cache are these lists, and agree with each other. -/
structure Consistent (c : Cache) (chains : ℕ → List ℕ) (lru : List (ℕ × ℕ)) : Prop where
  chain : ∀ k < capacity, Chain c.next (.bucket k) (chains k)
  entry : ∀ k < capacity, ∀ a ∈ chains k,
    ∃ e, c.entries a = some e ∧ bucketOf e.data.fileName = k ∧ 0 ≤ e.data.fileSize
  queue : IsQueue c.nodeNext c.lru (lru.map Prod.fst)
  node : ∀ x ∈ lru, c.nodes x.1 = some x.2
  nodup : (lru.map Prod.snd).Nodup
  mem : ∀ a, a ∈ lru.map Prod.snd ↔ ∃ k < capacity, a ∈ chains k
  allocated : ∀ a e, c.entries a = some e → a ∈ lru.map Prod.snd
  names : ∀ k < capacity, ∀ a ∈ chains k, ∀ b ∈ chains k, ∀ e f, c.entries a = some e →
    c.entries b = some f → e.data.fileName = f.data.fileName → a = b
  size : c.size = (lru.map fun x ↦ c.sizeAt x.2).sum
  le : c.size ≤ c.maxCacheSize

/-- There are enough turns for every loop. -/
structure Enough (chains : ℕ → List ℕ) (lru : List (ℕ × ℕ)) (turns : ℕ) : Prop where
  chain : ∀ k < capacity, (chains k).length < turns
  lru : lru.length < turns

section Consistent

variable {chains : ℕ → List ℕ} {lru : List (ℕ × ℕ)} {k turns : ℕ}

theorem bucketOf_lt (name : List UInt8) : bucketOf name < capacity := Nat.mod_lt _ (by decide)

namespace Consistent

/-- An entry is in one chain only. -/
theorem bucket_eq (h : c.Consistent chains lru) {j : ℕ} (hk : k < capacity) (hj : j < capacity)
    (hak : a ∈ chains k) (haj : a ∈ chains j) : j = k := by
  obtain ⟨e, he, hek, -⟩ := h.entry k hk a hak
  obtain ⟨f, hf, hfj, -⟩ := h.entry j hj a haj
  rw [he, Option.some.injEq] at hf
  rw [← hfj, ← hf, hek]

/-- The entries of a chain may be followed. -/
theorem exists_entry (h : c.Consistent chains lru) (hk : k < capacity) :
    ∀ a ∈ chains k, ∃ e, c.entries a = some e := fun a ha ↦
  (h.entry k hk a ha).imp fun _ he ↦ he.1

/-- An allocated entry is in the chain of its name. -/
theorem mem_chain (h : c.Consistent chains lru) (he : c.entries a = some e) :
    a ∈ chains (bucketOf e.data.fileName) := by
  obtain ⟨k, hk, ha⟩ := (h.mem a).mp (h.allocated a e he)
  obtain ⟨f, hf, hfk, -⟩ := h.entry k hk a ha
  rw [he, Option.some.injEq] at hf
  rw [hf, hfk]
  exact ha

/-- The file size of an entry is not negative. -/
theorem fileSize_nonneg (h : c.Consistent chains lru) (he : c.entries a = some e) :
    0 ≤ e.data.fileSize := by
  obtain ⟨f, hf, -, hsize⟩ := h.entry _ (bucketOf_lt _) a (h.mem_chain he)
  rw [he, Option.some.injEq] at hf
  rw [hf]
  exact hsize

/-- Allocated entries with the same name are the same. -/
theorem eq_of_name (h : c.Consistent chains lru) {f : CacheEntry} (he : c.entries a = some e)
    (hf : c.entries b = some f) (hname : e.data.fileName = f.data.fileName) : a = b := by
  refine h.names _ (bucketOf_lt _) a (h.mem_chain he) b ?_ e f he hf hname
  rw [hname]
  exact h.mem_chain hf

/-- As many turns as the list has nodes, and one more, are enough for every loop. -/
theorem enough (h : c.Consistent chains lru) : Enough chains lru (c.lru.size.toNat + 1) := by
  have hsize : c.lru.size.toNat = lru.length := by
    rw [h.queue.size, List.length_map, Int.toNat_natCast]
  rw [hsize]
  refine ⟨fun k hk ↦ Nat.lt_succ_of_le ?_, Nat.lt_succ_self _⟩
  have hsub : chains k ⊆ lru.map Prod.snd := fun a ha ↦ (h.mem a).mpr ⟨k, hk, ha⟩
  have hlength := ((h.chain k hk).nodup.subperm hsub).length_le
  rw [List.length_map] at hlength
  exact hlength

/-- The pointers of one chain are none of those of another. -/
theorem ptr_ne (h : c.Consistent chains lru) {j : ℕ} (hk : k < capacity) (hj : j < capacity)
    (hne : j ≠ k) {x y : EntryPtr} (hx : x ∈ EntryPtr.bucket k :: (chains k).map .node)
    (hy : y ∈ EntryPtr.bucket j :: (chains j).map .node) : y ≠ x := by
  rintro rfl
  simp only [List.mem_cons, List.mem_map] at hx hy
  rcases hx with rfl | ⟨a, ha, rfl⟩
  · rcases hy with hy | ⟨b, -, hy⟩
    · exact hne (EntryPtr.bucket.inj hy).symm
    · cases hy
  · rcases hy with hy | ⟨b, hb, hy⟩
    · cases hy
    · rw [EntryPtr.node.inj hy] at hb
      exact hne (h.bucket_eq hk hj ha hb)

end Consistent

/-- An entry is taken out of its chain and every other chain stays. -/
theorem Consistent.chain_drop {u v : List ℕ} {w : List EntryPtr} {x : EntryPtr}
    (h : c.Consistent chains lru) (hk : k < capacity) (hsplit : chains k = u ++ a :: v)
    (hprev : EntryPtr.bucket k :: u.map .node = w ++ [x]) {j : ℕ} (hj : j < capacity) :
    Chain (Function.update (Function.update c.next x (c.next (.node a))) (.node a) none)
      (.bucket j) (Function.update chains k (u ++ v) j) := by
  have hlist : EntryPtr.bucket k :: (chains k).map .node = w ++ x :: .node a :: v.map .node := by
    rw [hsplit, List.map_append, List.map_cons, ← List.cons_append, hprev, List.append_assoc,
      List.singleton_append]
  by_cases hjk : j = k
  · subst hjk
    have hpath := h.chain j hj
    rw [Chain, hlist] at hpath
    rw [Function.update_self, Chain, List.map_append, ← List.cons_append, hprev, List.append_assoc,
      List.singleton_append, link_update, link_update]
    exact hpath.unlink none
  · rw [Function.update_of_ne hjk]
    refine (h.chain j hj).congr fun y hy ↦ ?_
    rw [Function.update_of_ne (h.ptr_ne hk hj hjk (by rw [hlist]; simp) hy),
      Function.update_of_ne (h.ptr_ne hk hj hjk (by rw [hlist]; simp) hy)]

/-- A chain without one of its entries has the others. -/
theorem Consistent.mem_update_iff {u v : List ℕ} (h : c.Consistent chains lru) (hk : k < capacity)
    (hsplit : chains k = u ++ a :: v) {j : ℕ} (hj : j < capacity) :
    b ∈ Function.update chains k (u ++ v) j ↔ b ∈ chains j ∧ b ≠ a := by
  have hak : a ∈ chains k := by
    rw [hsplit]
    simp
  by_cases hjk : j = k
  · subst hjk
    have hnodup := (h.chain j hj).nodup
    rw [hsplit, List.nodup_append, List.nodup_cons] at hnodup
    rw [Function.update_self, hsplit]
    simp only [List.mem_append, List.mem_cons]
    have hau : a ∉ u := fun hu ↦ hnodup.2.2 a hu a List.mem_cons_self rfl
    have hav : a ∉ v := hnodup.2.1.1
    constructor
    · rintro (hb | hb)
      · exact ⟨.inl hb, ne_of_mem_of_not_mem hb hau⟩
      · exact ⟨.inr (.inr hb), ne_of_mem_of_not_mem hb hav⟩
    · rintro ⟨hb | hb | hb, hne⟩
      · exact .inl hb
      · exact absurd hb hne
      · exact .inr hb
  · rw [Function.update_of_ne hjk]
    refine ⟨fun hb ↦ ⟨hb, ?_⟩, And.left⟩
    rintro rfl
    exact hjk (h.bucket_eq hk hj hak hb)

/-- The sum of the file sizes depends on the entries of the list only. -/
theorem sum_sizeAt_congr {s : List (ℕ × ℕ)}
    (h : ∀ x ∈ s, c'.entries x.2 = c.entries x.2) :
    (s.map fun x ↦ c'.sizeAt x.2).sum = (s.map fun x ↦ c.sizeAt x.2).sum := by
  congr 1
  exact List.map_congr_left fun x hx ↦ by rw [sizeAt, sizeAt, h x hx]

/-- Taking the node of an entry off the list and then the entry off its chain. -/
theorem Consistent.evictOne_run {r s : List (ℕ × ℕ)} (h : c.Consistent chains (r ++ (n, a) :: s))
    (he : c.entries a = some e) (hturns : ∀ k < capacity, (chains k).length < turns) :
    ∃ c₁ c' chains', (removeNodeFromLRU n (r.map Prod.fst).getLast?).run c =
        .ok ((s.map Prod.fst).head?, c₁) ∧ (removeFromCache turns a).run c₁ = .ok ((), c') ∧
      c'.Consistent chains' (r ++ s) ∧ c'.entries = Function.update c.entries a none ∧
      c'.nodes = Function.update c.nodes n none ∧ c'.maxCacheSize = c.maxCacheSize ∧
      ∀ k, (chains' k).length ≤ (chains k).length := by
  have hqueue := h.queue
  rw [List.map_append, List.map_cons] at hqueue
  obtain ⟨nodeNext, lru, hunlink, hlru⟩ := unlinkNode_run hqueue
  obtain ⟨k, hkdef⟩ : ∃ k, k = bucketOf e.data.fileName := ⟨_, rfl⟩
  have hk : k < capacity := hkdef ▸ bucketOf_lt _
  have hak : a ∈ chains k := hkdef ▸ h.mem_chain he
  obtain ⟨c₁, hc₁⟩ : ∃ c₁ : Cache, c₁ =
    { c with nodes := Function.update c.nodes n none, nodeNext := nodeNext, lru := lru } := ⟨_, rfl⟩
  have hchain₁ : Chain c₁.next (.bucket k) (chains k) := by
    rw [hc₁]
    exact h.chain k hk
  obtain ⟨u, v, w, x, hsplit, hprev, hfind⟩ := findPrev_run hchain₁ trivial
    (by rw [hc₁]; exact h.exists_entry hk) (hturns k hk) hak
  have hmap : ((r ++ s).map Prod.fst) = r.map Prod.fst ++ s.map Prod.fst := List.map_append ..
  -- The entries and nodes that stay are not those that leave.
  have hsnd := h.nodup
  rw [List.map_append, List.map_cons, List.nodup_append, List.nodup_cons] at hsnd
  have hfst := h.queue.nodup
  rw [List.map_append, List.map_cons, List.nodup_append, List.nodup_cons] at hfst
  have hnode : ∀ y ∈ r ++ s, y.1 ≠ n ∧ y.2 ≠ a := by
    intro y hy
    rcases List.mem_append.mp hy with hr | hs
    · exact ⟨hfst.2.2 y.1 (List.mem_map_of_mem hr) n List.mem_cons_self,
        hsnd.2.2 y.2 (List.mem_map_of_mem hr) a List.mem_cons_self⟩
    · exact ⟨ne_of_mem_of_not_mem (List.mem_map_of_mem hs) hfst.2.1.1,
        ne_of_mem_of_not_mem (List.mem_map_of_mem hs) hsnd.2.1.1⟩
  have hmem : ∀ b, b ∈ (r ++ s).map Prod.snd ↔ b ∈ (r ++ (n, a) :: s).map Prod.snd ∧ b ≠ a := by
    intro b
    simp only [List.map_append, List.map_cons, List.mem_append, List.mem_cons]
    constructor
    · intro hb
      have hba : b ≠ a := by
        rw [← List.mem_append, ← List.map_append] at hb
        obtain ⟨y, hy, rfl⟩ := List.mem_map.mp hb
        exact (hnode y hy).2
      exact ⟨hb.imp id .inr, hba⟩
    · rintro ⟨hb | hb | hb, hne⟩
      · exact .inl hb
      · exact absurd hb hne
      · exact .inr hb
  refine ⟨c₁, dropEntry a e x c₁, Function.update chains k (u ++ v), ?_, ?_, ?_, ?_, ?_, ?_, ?_⟩
  · rw [removeNodeFromLRU, Program.gets_bind_run, hunlink, hc₁]
    rfl
  · rw [removeFromCache, Program.run_bind (deref_run (by rw [hc₁]; exact he)), ← hkdef,
      Program.run_bind hfind]
    rfl
  · rw [hc₁]
    constructor
    · intro j hj
      exact h.chain_drop hk hsplit hprev hj
    · intro j hj b hb
      obtain ⟨hbj, hba⟩ := (h.mem_update_iff hk hsplit hj).mp hb
      simp only [dropEntry]
      rw [Function.update_of_ne hba]
      exact h.entry j hj b hbj
    · rw [hmap]
      exact hlru
    · intro y hy
      simp only [dropEntry]
      rw [Function.update_of_ne (hnode y hy).1]
      refine h.node y ?_
      rcases List.mem_append.mp hy with hr | hs
      · exact List.mem_append_left _ hr
      · exact List.mem_append_right _ (List.mem_cons_of_mem _ hs)
    · rw [List.map_append, List.nodup_append]
      exact ⟨hsnd.1, hsnd.2.1.2, fun b hb d hd ↦ hsnd.2.2 b hb d (List.mem_cons_of_mem _ hd)⟩
    · intro b
      rw [hmem, h.mem]
      constructor
      · rintro ⟨⟨j, hj, hbj⟩, hba⟩
        exact ⟨j, hj, (h.mem_update_iff hk hsplit hj).mpr ⟨hbj, hba⟩⟩
      · rintro ⟨j, hj, hb⟩
        obtain ⟨hbj, hba⟩ := (h.mem_update_iff hk hsplit hj).mp hb
        exact ⟨⟨j, hj, hbj⟩, hba⟩
    · intro b f hf
      simp only [dropEntry] at hf
      by_cases hba : b = a
      · rw [hba, Function.update_self] at hf
        cases hf
      · rw [Function.update_of_ne hba] at hf
        exact (hmem b).mpr ⟨h.allocated b f hf, hba⟩
    · intro j hj b hb d hd f g hf hg
      obtain ⟨hbj, hba⟩ := (h.mem_update_iff hk hsplit hj).mp hb
      obtain ⟨hdj, hda⟩ := (h.mem_update_iff hk hsplit hj).mp hd
      simp only [dropEntry] at hf hg
      rw [Function.update_of_ne hba] at hf
      rw [Function.update_of_ne hda] at hg
      exact h.names j hj b hbj d hdj f g hf hg
    · have hold := h.size
      rw [List.map_append, List.map_cons, List.sum_append, List.sum_cons] at hold
      have hat : c.sizeAt a = e.data.fileSize := by simp [sizeAt, he]
      rw [sum_sizeAt_congr (c := c), List.map_append, List.sum_append]
      · simp only [dropEntry]
        rw [hold, hat]
        omega
      · intro y hy
        exact Function.update_of_ne (hnode y hy).2 ..
    · have hle := h.le
      have hnonneg := h.fileSize_nonneg he
      simp only [dropEntry]
      omega
  · rw [hc₁]
    rfl
  · rw [hc₁]
    rfl
  · rw [hc₁]
    rfl
  · intro j
    by_cases hjk : j = k
    · rw [hjk, Function.update_self, hsplit, List.length_append, List.length_append,
        List.length_cons]
      omega
    · rw [Function.update_of_ne hjk]

/-- What an eviction leaves of the cache: entries in use stay, and no entry is changed. -/
structure Evicted (c c' : Cache) : Prop where
  entries : ∀ a, c'.entries a = c.entries a ∨
    (c'.entries a = none ∧ ∃ e, c.entries a = some e ∧ e.inUse ≤ 0)
  nodes : ∀ n, c'.nodes n = c.nodes n ∨ c'.nodes n = none
  maxCacheSize : c'.maxCacheSize = c.maxCacheSize

theorem Evicted.refl (c : Cache) : c.Evicted c := ⟨fun _ ↦ .inl rfl, fun _ ↦ .inl rfl, rfl⟩

theorem Evicted.trans {c'' : Cache} (h : c.Evicted c') (h' : c'.Evicted c'') : c.Evicted c'' where
  entries a := by
    rcases h.entries a with heq | ⟨hnone, he⟩
    · rw [← heq]
      exact h'.entries a
    · rcases h'.entries a with heq' | ⟨-, e, he', -⟩
      · exact .inr ⟨heq'.trans hnone, he⟩
      · rw [hnone] at he'
        cases he'
  nodes n := by
    rcases h'.nodes n with heq | hnone
    · rw [heq]
      exact h.nodes n
    · exact .inr hnone
  maxCacheSize := h'.maxCacheSize.trans h.maxCacheSize

/-- The entry of a node is in use. -/
def pinned (c : Cache) (x : ℕ × ℕ) : Bool := (c.entries x.2).any fun e ↦ 0 < e.inUse

/-- The file size of the entry of a node. -/
def fileSizeOf (c : Cache) (x : ℕ × ℕ) : ℕ := (c.sizeAt x.2).toNat

theorem pinned_congr {x : ℕ × ℕ} (h : c'.entries x.2 = c.entries x.2) :
    c'.pinned x = c.pinned x := by
  rw [pinned, pinned, h]

theorem fileSizeOf_congr {x : ℕ × ℕ} (h : c'.entries x.2 = c.entries x.2) :
    c'.fileSizeOf x = c.fileSizeOf x := by
  rw [fileSizeOf, fileSizeOf, sizeAt, sizeAt, h]

/-- The size of the cache is that of the files of its nodes. -/
theorem Consistent.size_eq_total (h : c.Consistent chains lru) :
    c.size = total c.fileSizeOf lru := by
  have hsum : ∀ s : List (ℕ × ℕ), (∀ x ∈ s, 0 ≤ c.sizeAt x.2) →
      (s.map fun x ↦ c.sizeAt x.2).sum = total c.fileSizeOf s := by
    intro s hs
    induction s with
    | nil => rfl
    | cons x s ih =>
      rw [List.map_cons, List.sum_cons, total_cons, ih fun y hy ↦ hs y (List.mem_cons_of_mem x hy),
        Nat.cast_add, fileSizeOf, Int.toNat_of_nonneg (hs x List.mem_cons_self)]
  rw [h.size]
  refine hsum lru fun x hx ↦ ?_
  obtain ⟨k, hk, hmem⟩ := (h.mem x.2).mp (List.mem_map_of_mem hx)
  obtain ⟨e, he, -, hsize⟩ := h.entry k hk x.2 hmem
  simpa [sizeAt, he] using hsize

/-- The conversion of a number that `unsigned long` has room for. -/
theorem asUnsignedLong_of_lt {x : ℤ} (hx : 0 ≤ x) (hlt : x < 2 ^ 64) :
    asUnsignedLong x = x.toNat := by
  rw [asUnsignedLong, Int.emod_eq_of_lt hx hlt]

/-- The loop of `cache_evict` from any place of the list: `r` is the part already walked and `s` the
part to come. If the sizes have room in an `unsigned long`, the loop leaves what `Eviction.leave`
does. -/
theorem Consistent.evictLoop_run {r s : List (ℕ × ℕ)} {m : ℕ} (amount evicted : ℕ)
    (h : c.Consistent chains (r ++ s)) (hm : s.length < m)
    (hturns : ∀ k < capacity, (chains k).length < turns) :
    ∃ result c' chains' lru', (evictLoop turns amount m (s.map Prod.fst).head?
        (r.map Prod.fst).getLast? evicted).run c = .ok (result, c') ∧
      c'.Consistent chains' lru' ∧ c.Evicted c' ∧
      (∀ k, (chains' k).length ≤ (chains k).length) ∧ lru'.length ≤ (r ++ s).length ∧
      (evicted + total c.fileSizeOf s < 2 ^ 64 →
        lru' = r ++ leave c.pinned c.fileSizeOf amount evicted s) := by
  induction s generalizing c chains r m evicted with
  | nil =>
    obtain ⟨m, rfl⟩ := Nat.exists_eq_succ_of_ne_zero (Nat.ne_zero_of_lt hm)
    exact ⟨evicted, c, chains, _, rfl, h, .refl c, fun _ ↦ Nat.le_refl _, Nat.le_refl _,
      fun _ ↦ rfl⟩
  | cons x s ih =>
    obtain ⟨n, a⟩ := x
    obtain ⟨m, rfl⟩ := Nat.exists_eq_succ_of_ne_zero (Nat.ne_zero_of_lt hm)
    have hm' : s.length < m := Nat.lt_of_succ_lt_succ hm
    have hnode := h.node (n, a) (by simp)
    obtain ⟨k, hk, hak⟩ := (h.mem a).mp (by simp)
    obtain ⟨e, he⟩ := h.exists_entry hk a hak
    have hpinned : c.pinned (n, a) = true ↔ e.inUse > 0 := by simp [pinned, he]
    simp only [List.map_cons, List.head?_cons, evictLoop]
    rw [Program.run_bind (derefNode_run hnode), Program.run_bind (deref_run he)]
    by_cases huse : e.inUse > 0
    · -- A pinned entry is walked over.
      have hpath : c.nodeNext n = (s.map Prod.fst).head? := by
        have hpath := h.queue.path
        rw [List.map_append, List.map_cons, path_append] at hpath
        obtain ⟨-, -, -, hrest⟩ := hpath
        cases s with
        | nil => exact hrest
        | cons y s => exact hrest.1
      have hsplit : r ++ (n, a) :: s = (r ++ [(n, a)]) ++ s := by simp
      rw [hsplit] at h
      obtain ⟨result, c', chains', lru', hrun, hc', hevicted, hlength, hlru, hleave⟩ :=
        ih evicted h hm' hturns
      refine ⟨result, c', chains', lru', ?_, hc', hevicted, hlength, hsplit ▸ hlru, fun hfit ↦ ?_⟩
      · rw [if_pos huse, Program.gets_bind_run, hpath]
        rw [List.map_append, List.map_singleton, List.getLast?_concat] at hrun
        exact hrun
      · rw [total_cons] at hfit
        rw [hleave (by omega), leave, if_pos (hpinned.mpr huse), List.append_assoc]
        rfl
    · obtain ⟨c₁, c₂, chains₂, hnode', hentry, hc₂, hentries, hnodes, hmax, hlength⟩ :=
        h.evictOne_run he hturns
      rw [if_neg huse, Program.run_bind hnode', Program.run_bind hentry]
      have hevicted : c.Evicted c₂ := by
        refine ⟨fun b ↦ ?_, fun m ↦ ?_, hmax⟩
        · rw [hentries]
          by_cases hb : b = a
          · rw [hb, Function.update_self]
            exact .inr ⟨rfl, e, he, Int.not_lt.mp huse⟩
          · exact .inl (Function.update_of_ne hb ..)
        · rw [hnodes]
          by_cases hm : m = n
          · rw [hm, Function.update_self]
            exact .inr rfl
          · exact .inl (Function.update_of_ne hm ..)
      have hshorter : (r ++ s).length ≤ (r ++ (n, a) :: s).length := by simp
      -- The count of what is evicted does not wrap around.
      have hcount : evicted + total c.fileSizeOf ((n, a) :: s) < 2 ^ 64 →
          (evicted + asUnsignedLong e.data.fileSize) % 2 ^ 64 = evicted + c.fileSizeOf (n, a) := by
        intro hfit
        rw [total_cons] at hfit
        have hsize : c.fileSizeOf (n, a) = e.data.fileSize.toNat := by simp [fileSizeOf, sizeAt, he]
        have hnonneg := h.fileSize_nonneg he
        rw [asUnsignedLong_of_lt hnonneg (by omega), ← hsize, Nat.mod_eq_of_lt (by omega)]
      split_ifs with hdone
      · refine ⟨_, c₂, chains₂, _, rfl, hc₂, hevicted, hlength, hshorter, fun hfit ↦ ?_⟩
        rw [hcount hfit] at hdone
        rw [leave, if_neg (mt hpinned.mp huse), if_pos hdone]
      · obtain ⟨result, c', chains', lru', hrun, hc', hevicted', hlength', hlru', hleave⟩ :=
          ih _ hc₂ hm' fun k hk ↦ (hlength k).trans_lt (hturns k hk)
        refine ⟨result, c', chains', lru', hrun, hc', hevicted.trans hevicted',
          fun k ↦ (hlength' k).trans (hlength k), hlru'.trans hshorter, fun hfit ↦ ?_⟩
        rw [hcount hfit] at hdone hleave
        have hsame : ∀ y ∈ s, c₂.entries y.2 = c.entries y.2 := by
          intro y hy
          have hya := (List.nodup_cons.mp (List.nodup_append.mp (by
            have hnodup := h.nodup
            rw [List.map_append, List.map_cons] at hnodup
            exact hnodup)).2.1).1
          rw [hentries]
          exact Function.update_of_ne (ne_of_mem_of_not_mem (List.mem_map_of_mem hy) hya) ..
        have htotal : total c₂.fileSizeOf s = total c.fileSizeOf s :=
          total_congr fun y hy ↦ fileSizeOf_congr (hsame y hy)
        have hsame' : leave c₂.pinned c₂.fileSizeOf amount (evicted + c.fileSizeOf (n, a)) s =
            leave c.pinned c.fileSizeOf amount (evicted + c.fileSizeOf (n, a)) s :=
          leave_congr (fun y hy ↦ pinned_congr (hsame y hy))
            (fun y hy ↦ fileSizeOf_congr (hsame y hy)) _
        rw [htotal, hsame'] at hleave
        rw [total_cons] at hfit
        rw [leave, if_neg (mt hpinned.mp huse), if_neg hdone]
        exact hleave (by omega)

/-- `cache_evict`. -/
theorem Consistent.cacheEvict_run (h : c.Consistent chains lru) (hturns : Enough chains lru turns)
    (amount : ℕ) :
    ∃ result c' chains' lru', (cacheEvict turns amount).run c = .ok (result, c') ∧
      c'.Consistent chains' lru' ∧ c.Evicted c' ∧ Enough chains' lru' turns ∧
      (c.maxCacheSize < 2 ^ 64 → lru' = leave c.pinned c.fileSizeOf amount 0 lru) := by
  obtain ⟨result, c', chains', lru', hrun, hc', hevicted, hlength, hlru, hleave⟩ :=
    Consistent.evictLoop_run (r := []) (s := lru) amount 0 h hturns.lru hturns.chain
  refine ⟨result, c', chains', lru', ?_, hc', hevicted,
    ⟨fun k hk ↦ (hlength k).trans_lt (hturns.chain k hk), hlru.trans_lt hturns.lru⟩, fun hmax ↦ ?_⟩
  · rw [cacheEvict, Program.gets_bind_run, h.queue.head_eq]
    exact hrun
  · have hsize := h.size_eq_total
    have hle := h.le
    exact hleave (by omega)

/-! ### Inserting -/

/-- A new entry is behind its chain and every other chain stays. -/
theorem Consistent.chain_new {w : List EntryPtr} {x : EntryPtr} (h : c.Consistent chains lru)
    (hk : k < capacity) (ha : c.entries a = none)
    (hlast : EntryPtr.bucket k :: (chains k).map .node = w ++ [x]) {j : ℕ} (hj : j < capacity) :
    Chain (Function.update (Function.update c.next x (some a)) (.node a) none) (.bucket j)
      (Function.update chains k (chains k ++ [a]) j) := by
  have hnew : ∀ i < capacity, EntryPtr.node a ∉ EntryPtr.bucket i :: (chains i).map .node := by
    intro i hi hmem
    simp only [List.mem_cons, reduceCtorEq, List.mem_map, EntryPtr.node.injEq, exists_eq_right,
      false_or] at hmem
    obtain ⟨e, he⟩ := h.exists_entry hi a hmem
    rw [ha] at he
    cases he
  have hxa : x ≠ .node a := by
    rintro rfl
    exact hnew k hk (by rw [hlast]; simp)
  by_cases hjk : j = k
  · subst hjk
    have hpath : Chain (Function.update c.next (.node a) none) (.bucket j) (chains j) :=
      (h.chain j hj).congr fun y hy ↦ Function.update_of_ne (ne_of_mem_of_not_mem hy (hnew j hj)) ..
    rw [Chain, hlast] at hpath
    have hnull : link (Function.update c.next (.node a) none) (.node a) = none := by
      rw [link, Function.update_self, Option.map_none]
    have hsnoc := hpath.snoc (by rw [← hlast]; exact hnew j hj) hnull
    rw [Function.update_self, Chain, List.map_append, ← List.cons_append, hlast,
      Function.update_comm hxa, link_update]
    exact hsnoc
  · rw [Function.update_of_ne hjk]
    refine (h.chain j hj).congr fun y hy ↦ ?_
    rw [Function.update_of_ne (ne_of_mem_of_not_mem hy (hnew j hj)),
      Function.update_of_ne (h.ptr_ne hk hj hjk (by rw [hlast]; simp) hy)]

/-- What `cache_insert` does to the entries: it may evict some that are not in use, and it may add
one for the file. -/
structure Inserted (address : ℕ) (file : FileData) (c c' : Cache) : Prop where
  entries : ∀ a, c'.entries a = c.entries a ∨
    (c'.entries a = none ∧ ∃ e, c.entries a = some e ∧ e.inUse ≤ 0) ∨
    (a = address ∧ c'.entries a = some ⟨file, 0⟩ ∧ ∀ e, c.entries a = some e → e.inUse ≤ 0)
  maxCacheSize : c'.maxCacheSize = c.maxCacheSize

/-- An eviction is a special case. -/
theorem Evicted.inserted (h : c.Evicted c') (address : ℕ) (file : FileData) :
    c.Inserted address file c' where
  entries a := (h.entries a).imp id .inl
  maxCacheSize := h.maxCacheSize

/-- Assumes: addresses that are free, room for the file, and no entry of its name. The file is
appended to the chain of its name and to the list. -/
theorem Consistent.appendEntry_run {file : FileData} (h : c.Consistent chains lru)
    (hturns : Enough chains lru turns) (ha : c.entries a = none) (hn : c.nodes n = none)
    (hsize : 0 ≤ file.fileSize) (hroom : c.size + file.fileSize ≤ c.maxCacheSize)
    (hname : ∀ b e, c.entries b = some e → e.data.fileName ≠ file.fileName) :
    ∃ c' chains', (appendEntry turns a n file).run c = .ok ((), c') ∧
      c'.Consistent chains' (lru ++ [(n, a)]) ∧
      c'.entries = Function.update c.entries a (some ⟨file, 0⟩) ∧
      c'.maxCacheSize = c.maxCacheSize := by
  obtain ⟨k, hkdef⟩ : ∃ k, k = bucketOf file.fileName := ⟨_, rfl⟩
  have hk : k < capacity := hkdef ▸ bucketOf_lt _
  obtain ⟨w, x, hlast, hfind⟩ := findLast_run (h.chain k hk) trivial (h.exists_entry hk)
    (hturns.chain k hk)
  have hanew : a ∉ lru.map Prod.snd := by
    intro hmem
    obtain ⟨j, hj, haj⟩ := (h.mem a).mp hmem
    obtain ⟨e, he⟩ := h.exists_entry hj a haj
    rw [ha] at he
    cases he
  have hnnew : n ∉ lru.map Prod.fst := by
    intro hmem
    obtain ⟨y, hy, rfl⟩ := List.mem_map.mp hmem
    have hnode := h.node y hy
    rw [hn] at hnode
    cases hnode
  have hqueue : IsQueue (Function.update c.nodeNext n none) c.lru (lru.map Prod.fst) :=
    h.queue.congr fun m hm ↦ Function.update_of_ne (ne_of_mem_of_not_mem hm hnnew) ..
  obtain ⟨nodeNext, q, happend, hq, -⟩ := hqueue.append hnnew (Function.update_self ..)
  have hold : ∀ b, b ≠ a → (newEntry a file x c).entries b = c.entries b := fun b hb ↦
    Function.update_of_ne hb ..
  have hself : (newEntry a file x c).entries a = some ⟨file, 0⟩ := Function.update_self ..
  have hmem : ∀ {j : ℕ}, j < capacity → ∀ b, b ∈ Function.update chains k (chains k ++ [a]) j ↔
      b ∈ chains j ∨ (b = a ∧ j = k) := by
    intro j hj b
    by_cases hjk : j = k
    · subst hjk
      rw [Function.update_self, List.mem_append, List.mem_singleton]
      simp
    · rw [Function.update_of_ne hjk]
      simp [hjk]
  have hchain_ne : ∀ {j : ℕ}, j < capacity → ∀ b ∈ chains j, b ≠ a := by
    rintro j hj b hb rfl
    exact hanew ((h.mem b).mpr ⟨j, hj, hb⟩)
  refine ⟨{ newEntry a file x c with
      nodes := Function.update c.nodes n (some a), nodeNext := nodeNext, lru := q },
    Function.update chains k (chains k ++ [a]), ?_, ?_, rfl, rfl⟩
  · rw [appendEntry, ← hkdef, Program.run_bind hfind, Program.gets_bind_run,
      Program.check_bind_run ha, Program.modify_bind_run, addToLRU, Program.gets_bind_run]
    refine (Program.check_bind_run (by exact hn) _ _ _).trans ?_
    rw [Program.modify_bind_run]
    exact onLRU_run happend
  · constructor
    · intro j hj
      exact h.chain_new hk ha hlast hj
    · intro j hj b hb
      rcases (hmem hj b).mp hb with hold' | ⟨rfl, rfl⟩
      · obtain ⟨e, he⟩ := h.entry j hj b hold'
        exact ⟨e, (hold b (hchain_ne hj b hold')).trans he.1, he.2⟩
      · exact ⟨⟨file, 0⟩, Function.update_self .., hkdef.symm, hsize⟩
    · rw [List.map_append]
      exact hq
    · intro y hy
      rcases List.mem_append.mp hy with hold' | hnew
      · exact (Function.update_of_ne
          (ne_of_mem_of_not_mem (List.mem_map_of_mem hold') hnnew) ..).trans (h.node y hold')
      · rw [List.mem_singleton.mp hnew]
        exact Function.update_self ..
    · rw [List.map_append, List.nodup_append]
      refine ⟨h.nodup, by simp, fun b hb d hd ↦ ?_⟩
      rw [List.map_singleton, List.mem_singleton] at hd
      rw [hd]
      exact ne_of_mem_of_not_mem hb hanew
    · intro b
      rw [List.map_append, List.mem_append, h.mem, List.map_singleton, List.mem_singleton]
      constructor
      · rintro (⟨j, hj, hbj⟩ | rfl)
        · exact ⟨j, hj, (hmem hj b).mpr (.inl hbj)⟩
        · exact ⟨k, hk, (hmem hk b).mpr (.inr ⟨rfl, rfl⟩)⟩
      · rintro ⟨j, hj, hb⟩
        rcases (hmem hj b).mp hb with hold' | ⟨rfl, -⟩
        · exact .inl ⟨j, hj, hold'⟩
        · exact .inr rfl
    · intro b e he
      rw [List.map_append, List.mem_append]
      by_cases hb : b = a
      · exact .inr (by simp [hb])
      · exact .inl (h.allocated b e ((hold b hb).symm.trans he))
    · intro j hj b hb d hd e f he hf hsame
      by_cases hba : b = a
      · by_cases hda : d = a
        · rw [hba, hda]
        · -- An entry of the same name would have been found.
          have hf' : c.entries d = some f := (hold d hda).symm.trans hf
          rw [hba] at he
          have he' : some ⟨file, 0⟩ = some e := hself.symm.trans he
          rw [Option.some.injEq] at he'
          exact absurd (hsame.symm.trans (by rw [← he'])) (hname d f hf')
      · have he' : c.entries b = some e := (hold b hba).symm.trans he
        by_cases hda : d = a
        · rw [hda] at hf
          have hf' : some ⟨file, 0⟩ = some f := hself.symm.trans hf
          rw [Option.some.injEq] at hf'
          exact absurd (hsame.trans (by rw [← hf'])) (hname b e he')
        · exact h.eq_of_name he' ((hold d hda).symm.trans hf) hsame
    · rw [List.map_append, List.sum_append, List.map_singleton, List.sum_singleton,
        sum_sizeAt_congr (c := c), ← h.size]
      · have hat : (newEntry a file x c).sizeAt a = file.fileSize := by
          simp [sizeAt, newEntry]
        exact congrArg (c.size + ·) hat.symm
      · intro y hy
        exact hold y.2 (ne_of_mem_of_not_mem (List.mem_map_of_mem hy) hanew)
    · exact hroom

/-- The space that is missing for a file. -/
def missing (c : Cache) (file : FileData) : ℕ :=
  (file.fileSize - (c.maxCacheSize - c.size)).toNat

/-- The nodes that stay in the list when room is made for a file. -/
def roomList (c : Cache) (file : FileData) (lru : List (ℕ × ℕ)) : List (ℕ × ℕ) :=
  if c.size + file.fileSize > c.maxCacheSize then
    leave c.pinned c.fileSizeOf (c.missing file) 0 lru
  else lru

/-- Making room for a file that is not larger than the limit. -/
theorem Consistent.makeRoom_run (h : c.Consistent chains lru) (hturns : Enough chains lru turns)
    {file : FileData} (hlarge : ¬file.fileSize > c.maxCacheSize) :
    ∃ c' chains' lru', (makeRoom turns file).run c =
        .ok (decide (c'.size + file.fileSize ≤ c'.maxCacheSize), c') ∧
      c'.Consistent chains' lru' ∧ c.Evicted c' ∧ Enough chains' lru' turns ∧
      (c.maxCacheSize < 2 ^ 63 → lru' = c.roomList file lru) := by
  rw [makeRoom, Program.get_bind_run, roomList]
  by_cases hsmall : c.size + file.fileSize > c.maxCacheSize
  · obtain ⟨result, c', chains', lru', hrun, hc', hevicted, hturns', hleave⟩ :=
      h.cacheEvict_run hturns (asUnsignedLong (file.fileSize - (c.maxCacheSize - c.size)))
    refine ⟨c', chains', lru', ?_, hc', hevicted, hturns', fun hmax ↦ ?_⟩
    · rw [if_pos hsmall, Program.run_bind hrun]
      rfl
    · have hle := h.le
      rw [if_pos hsmall, hleave (by omega), asUnsignedLong_of_lt (by omega) (by omega), missing]
  · refine ⟨c, chains, lru, ?_, h, .refl c, hturns, fun _ ↦ (if_neg hsmall).symm⟩
    rw [if_neg hsmall, decide_eq_true (not_lt.mp hsmall)]
    rfl

/-- Appending an entry at addresses that are not free. -/
theorem Consistent.appendEntry_error {file : FileData} (h : c.Consistent chains lru)
    (hturns : Enough chains lru turns) (hfree : ¬(c.entries a = none ∧ c.nodes n = none)) :
    (appendEntry turns a n file).run c = .error .malloc := by
  have hk : bucketOf file.fileName < capacity := bucketOf_lt _
  obtain ⟨w, x, -, hfind⟩ := findLast_run (h.chain _ hk) trivial (h.exists_entry hk)
    (hturns.chain _ hk)
  rw [appendEntry, Program.run_bind hfind, Program.gets_bind_run, Program.check]
  split_ifs with ha
  · have hn : ¬(newEntry a file x c).nodes n = none := fun hn ↦ hfree ⟨ha, hn⟩
    rw [Program.pure_bind_run, Program.modify_bind_run, addToLRU, Program.gets_bind_run,
      Program.check, if_neg hn]
    rfl
  · rfl

/-- What `cache_insert` can do, with what it returns and the cache and the list it leaves. -/
inductive InsertOutcome (c : Cache) (lru : List (ℕ × ℕ)) (address node : ℕ) (file : FileData) :
    ℕ → Cache → List (ℕ × ℕ) → Prop
  /-- There is an entry of the name. -/
  | present {b : ℕ} {e : CacheEntry} (hb : c.entries b = some e)
    (hname : e.data.fileName = file.fileName) : InsertOutcome c lru address node file 0 c lru
  /-- The file is too large. -/
  | large (hlarge : c.maxCacheSize < file.fileSize) : InsertOutcome c lru address node file 0 c lru
  /-- Not enough could be evicted. -/
  | refused {c' : Cache} {lru' : List (ℕ × ℕ)}
    (hname : ∀ b e, c.entries b = some e → e.data.fileName ≠ file.fileName)
    (hlarge : ¬c.maxCacheSize < file.fileSize) (hevicted : c.Evicted c')
    (hlru : c.maxCacheSize < 2 ^ 63 → lru' = c.roomList file lru)
    (hroom : c'.maxCacheSize < c'.size + file.fileSize) :
    InsertOutcome c lru address node file 0 c' lru'
  /-- There is room and the file gets an entry. -/
  | inserted {c₁ c' : Cache} {lru₁ : List (ℕ × ℕ)} (hevicted : c.Evicted c₁)
    (hfree : c₁.entries address = none)
    (hlru : c.maxCacheSize < 2 ^ 63 → lru₁ = c.roomList file lru)
    (hentries : c'.entries = Function.update c₁.entries address (some ⟨file, 0⟩))
    (hmax : c'.maxCacheSize = c₁.maxCacheSize) :
    InsertOutcome c lru address node file 1 c' (lru₁ ++ [(node, address)])

/-- What every outcome does to the entries. -/
theorem InsertOutcome.toInserted {lru' : List (ℕ × ℕ)} {file : FileData} {result : ℕ}
    (h : c.InsertOutcome lru a n file result c' lru') : c.Inserted a file c' := by
  cases h with
  | present hb hname => exact (Evicted.refl c).inserted a file
  | large hlarge => exact (Evicted.refl c).inserted a file
  | refused hname hlarge hevicted hlru hroom => exact hevicted.inserted a file
  | inserted hevicted hfree hlru hentries hmax =>
    refine ⟨fun b ↦ ?_, hmax.trans hevicted.maxCacheSize⟩
    rw [hentries]
    by_cases hb : b = a
    · subst hb
      refine .inr (.inr ⟨rfl, Function.update_self .., fun e he ↦ ?_⟩)
      rcases hevicted.entries b with heq | ⟨-, f, hf, huse⟩
      · rw [heq, he] at hfree
        cases hfree
      · rw [he, Option.some.injEq] at hf
        rw [hf]
        exact huse
    · rw [Function.update_of_ne hb]
      exact (hevicted.entries b).imp id .inl

/-- `cache_insert`: with enough turns it returns, unless an address it is given is not free. -/
theorem Consistent.cacheInsert_run {file : FileData} (h : c.Consistent chains lru)
    (hturns : Enough chains lru turns) (hsize : 0 ≤ file.fileSize) :
    (∃ result c' chains' lru', (cacheInsert turns a n file).run c = .ok (result, c') ∧
      c'.Consistent chains' lru' ∧ c.InsertOutcome lru a n file result c' lru') ∨
    (cacheInsert turns a n file).run c = .error .malloc ∧
      ¬(c.entries a = none ∧ c.nodes n = none) := by
  have hk : bucketOf file.fileName < capacity := bucketOf_lt _
  rw [cacheInsert, Program.run_bind (findName_run (h.chain _ hk) trivial (h.exists_entry hk)
    (hturns.chain _ hk))]
  cases hfound : (chains (bucketOf file.fileName)).find? (c.named file.fileName) with
  | some b =>
    obtain ⟨e, he⟩ := h.exists_entry hk b (List.mem_of_find?_eq_some hfound)
    have hnamed := List.find?_some hfound
    exact .inl ⟨0, c, chains, lru, rfl, h, .present he (by simpa [named, he] using hnamed)⟩
  | none =>
    have hname : ∀ b e, c.entries b = some e → e.data.fileName ≠ file.fileName := by
      intro b e he heq
      have hb := h.mem_chain he
      rw [heq] at hb
      have hnamed := List.find?_eq_none.mp hfound b hb
      simp [named, he, heq] at hnamed
    dsimp only
    rw [Program.gets_bind_run]
    by_cases hlarge : file.fileSize > c.maxCacheSize
    · rw [if_pos hlarge]
      exact .inl ⟨0, c, chains, lru, rfl, h, .large hlarge⟩
    · obtain ⟨c₁, chains₁, lru₁, hrun, hc₁, hevicted, hturns₁, hlru⟩ :=
        h.makeRoom_run hturns hlarge
      rw [if_neg hlarge, Program.run_bind hrun]
      have hfresh : c.entries a = none → c₁.entries a = none := fun ha ↦
        (hevicted.entries a).elim (fun heq ↦ heq.trans ha) And.left
      by_cases hroom : c₁.size + file.fileSize ≤ c₁.maxCacheSize
      · rw [if_pos (decide_eq_true hroom)]
        by_cases hfree : c₁.entries a = none ∧ c₁.nodes n = none
        · obtain ⟨c', chains', happend, hc', hentries, hmax⟩ := hc₁.appendEntry_run hturns₁ hfree.1
            hfree.2 hsize hroom fun b e he ↦ by
              rcases hevicted.entries b with heq | ⟨hnone, -⟩
              · exact hname b e (heq.symm.trans he)
              · rw [hnone] at he
                cases he
          refine .inl ⟨1, c', chains', _, ?_, hc', .inserted hevicted hfree.1 hlru hentries hmax⟩
          rw [Program.run_bind happend]
          rfl
        · refine .inr ⟨?_, fun hfree' ↦ hfree ⟨hfresh hfree'.1, ?_⟩⟩
          · rw [Program.bind_run, hc₁.appendEntry_error hturns₁ hfree]
          · exact (hevicted.nodes n).elim (fun heq ↦ heq.trans hfree'.2) id
      · rw [if_neg (by simpa using hroom)]
        exact .inl ⟨0, c₁, chains₁, lru₁, rfl, hc₁,
          .refused hname hlarge hevicted hlru (not_le.mp hroom)⟩

/-! ### Looking up and releasing -/

theorem addUse_entries_self {u : ℤ} (he : c.entries a = some e) :
    (addUse a u c).entries a = some { e with inUse := e.inUse + u } := by
  simp [addUse, he]

theorem addUse_entries_of_ne {u : ℤ} (hb : b ≠ a) : (addUse a u c).entries b = c.entries b :=
  Function.update_of_ne hb ..

/-- The files of the entries do not change with their use counts. -/
theorem addUse_data (u : ℤ) (b : ℕ) :
    ((addUse a u c).entries b).map CacheEntry.data = (c.entries b).map CacheEntry.data := by
  by_cases hb : b = a
  · subst hb
    cases h : c.entries b <;> simp [addUse, h]
  · rw [addUse_entries_of_ne hb]

/-- Changing a use count leaves the cache consistent. -/
theorem Consistent.addUse (h : c.Consistent chains lru) (a : ℕ) (u : ℤ) :
    (addUse a u c).Consistent chains lru := by
  have hdata : ∀ b e, (Cache.addUse a u c).entries b = some e →
      ∃ f, c.entries b = some f ∧ f.data = e.data := by
    intro b e he
    have hmap := addUse_data (c := c) (a := a) u b
    rw [he, Option.map_some, eq_comm, Option.map_eq_some_iff] at hmap
    exact hmap
  constructor
  · exact h.chain
  · intro k hk b hb
    obtain ⟨e, he, hbucket, hsize⟩ := h.entry k hk b hb
    have hmap := addUse_data (c := c) (a := a) u b
    rw [he, Option.map_some, Option.map_eq_some_iff] at hmap
    obtain ⟨f, hf, hfe⟩ := hmap
    exact ⟨f, hf, by rw [hfe]; exact hbucket, by rw [hfe]; exact hsize⟩
  · exact h.queue
  · exact h.node
  · exact h.nodup
  · exact h.mem
  · intro b e he
    obtain ⟨f, hf, -⟩ := hdata b e he
    exact h.allocated b f hf
  · intro k hk b hb d hd e f he hf hname
    obtain ⟨e', he', hee⟩ := hdata b e he
    obtain ⟨f', hf', hff⟩ := hdata d f hf
    exact h.names k hk b hb d hd e' f' he' hf' (by rw [hee, hff, hname])
  · have hsum : ∀ x : ℕ × ℕ, (Cache.addUse a u c).sizeAt x.2 = c.sizeAt x.2 := by
      intro x
      have hmap := congrArg (Option.map FileData.fileSize) (addUse_data (c := c) (a := a) u x.2)
      simp only [Option.map_map] at hmap
      exact congrArg (·.getD 0) hmap
    simp only [hsum]
    exact h.size
  · exact h.le

/-- A list with the same nodes in another order. -/
theorem Consistent.reorder {lru' : List (ℕ × ℕ)} {nodeNext : ℕ → Option ℕ} {q : Queue ℕ}
    (h : c.Consistent chains lru) (hqueue : IsQueue nodeNext q (lru'.map Prod.fst))
    (hperm : lru'.Perm lru) :
    ({ c with nodeNext := nodeNext, lru := q } : Cache).Consistent chains lru' where
  chain := h.chain
  entry := h.entry
  queue := hqueue
  node x hx := h.node x (hperm.mem_iff.mp hx)
  nodup := (hperm.map Prod.snd).nodup_iff.mpr h.nodup
  mem a := by
    rw [(hperm.map Prod.snd).mem_iff]
    exact h.mem a
  allocated a e he := (hperm.map Prod.snd).mem_iff.mpr (h.allocated a e he)
  names := h.names
  size := h.size.trans (hperm.map _).sum_eq.symm
  le := h.le

/-- The search for the node of an entry in the list. -/
theorem findInLRUWithPrev_run {r s : List (ℕ × ℕ)} {m : ℕ} {prev head : Option ℕ}
    (hpath : Path c.nodeNext head ((r ++ (n, a) :: s).map Prod.fst) none)
    (hnode : ∀ x ∈ r ++ (n, a) :: s, c.nodes x.1 = some x.2) (hr : a ∉ r.map Prod.snd)
    (hm : r.length < m) :
    (findInLRUWithPrev a m prev head).run c =
      .ok (((r.map Prod.fst).getLast?.or prev, some n), c) := by
  induction r generalizing m prev head with
  | nil =>
    obtain ⟨m, rfl⟩ := Nat.exists_eq_succ_of_ne_zero (Nat.ne_zero_of_lt hm)
    obtain ⟨rfl, -⟩ := hpath
    rw [findInLRUWithPrev, Program.run_bind (derefNode_run (hnode (n, a) List.mem_cons_self)),
      if_pos rfl]
    rfl
  | cons x r ih =>
    obtain ⟨m, rfl⟩ := Nat.exists_eq_succ_of_ne_zero (Nat.ne_zero_of_lt hm)
    obtain ⟨rfl, hrest⟩ := hpath
    rw [List.map_cons, List.mem_cons, not_or] at hr
    rw [findInLRUWithPrev, Program.run_bind (derefNode_run (hnode x List.mem_cons_self)),
      if_neg fun heq ↦ hr.1 heq.symm, Program.gets_bind_run,
      ih hrest (fun y hy ↦ hnode y (List.mem_cons_of_mem x hy)) hr.2 (Nat.lt_of_succ_lt_succ hm)]
    rw [List.map_cons, List.getLast?_cons]
    cases (r.map Prod.fst).getLast? <;> rfl

/-- `move_node_to_end` moves the node of an entry to the end of the list. -/
theorem Consistent.moveNodeToEnd_run {r s : List (ℕ × ℕ)}
    (h : c.Consistent chains (r ++ (n, a) :: s)) (hturns : (r ++ (n, a) :: s).length < turns) :
    ∃ nodeNext q, (moveNodeToEnd turns a).run c =
        .ok ((), { c with nodeNext := nodeNext, lru := q }) ∧
      IsQueue nodeNext q ((r ++ s ++ [(n, a)]).map Prod.fst) := by
  have hqueue := h.queue
  have hsize := h.queue.size
  rw [List.map_append, List.map_cons] at hqueue
  rw [List.length_map, List.length_append, List.length_cons] at hsize
  have hnodup := h.nodup
  rw [List.map_append, List.map_cons, List.nodup_append] at hnodup
  have har : a ∉ r.map Prod.snd := fun hmem ↦ hnodup.2.2 a hmem a List.mem_cons_self rfl
  rw [moveNodeToEnd, Program.gets_bind_run]
  split_ifs with hone
  · obtain ⟨rfl, rfl⟩ : r = [] ∧ s = [] := by
      rw [← List.length_eq_zero_iff, ← List.length_eq_zero_iff]
      omega
    exact ⟨c.nodeNext, c.lru, rfl, h.queue⟩
  · have hr : r.length < turns := by
      rw [List.length_append] at hturns
      omega
    rw [Program.run_bind (findInLRUWithPrev_run h.queue.path h.node har hr), Option.or_none]
    dsimp only
    rw [moveFoundToEnd.eq_def, Program.gets_bind_run, List.map_append, List.map_append,
      List.map_singleton]
    rcases List.eq_nil_or_concat (r.map Prod.fst) with hr | ⟨r', p, hr⟩
    · -- The node is the first one.
      rw [hr, List.nil_append] at hqueue ⊢
      obtain ⟨nodeNext, q, hmove, hq, -⟩ := hqueue.moveHeadToEnd
      rw [if_pos hqueue.path.1]
      exact ⟨nodeNext, q, onLRU_run hmove, hq⟩
    · rw [List.concat_eq_append] at hr
      rw [hr, List.append_assoc, List.singleton_append] at hqueue
      obtain ⟨-, hnr, hpn, -, -⟩ := hqueue.path.middle
      have hhead : c.lru.head ≠ some n := by
        rw [hqueue.head_eq]
        cases r' with
        | nil => simpa using hpn
        | cons b r' =>
          rw [List.cons_append, List.head?_cons, Ne, Option.some.injEq]
          rintro rfl
          exact hnr List.mem_cons_self
      rw [if_neg hhead, hr]
      by_cases hs : s = []
      · -- The node is the last one already.
        subst hs
        have htail := hqueue.tail (r' ++ [p]) n (by simp)
        rw [if_neg (by simpa using htail)]
        exact ⟨c.nodeNext, c.lru, rfl, by simpa using hqueue⟩
      · have hs' : s.map Prod.fst ≠ [] := by simpa using hs
        have htail : c.lru.tail ≠ some n := by
          obtain ⟨s', t, hst⟩ := (List.eq_nil_or_concat (s.map Prod.fst)).resolve_left hs'
          rw [List.concat_eq_append] at hst
          rw [hqueue.tail (r' ++ p :: n :: s') t (by rw [hst]; simp), Ne, Option.some.injEq]
          rintro rfl
          exact hqueue.path.middle.2.2.2.2 (by rw [hst]; simp)
        obtain ⟨nodeNext, q, hmove, hq, -⟩ := hqueue.moveToEnd hs'
        rw [if_pos htail, List.getLast?_concat]
        refine ⟨nodeNext, q, onLRU_run hmove, ?_⟩
        rw [List.append_assoc r', List.singleton_append]
        exact hq

/-- `cache_lookup`: with enough turns it returns the entry of the name, with its use count raised,
or nothing if there is none. -/
theorem Consistent.cacheLookup_run (h : c.Consistent chains lru) (hturns : Enough chains lru turns)
    (name : List UInt8) :
    ((cacheLookup turns name).run c = .ok (none, c) ∧
      ∀ b e, c.entries b = some e → e.data.fileName ≠ name) ∨
    ∃ x r s e c', lru = r ++ x :: s ∧ (cacheLookup turns name).run c = .ok (some x.2, c') ∧
      c.entries x.2 = some e ∧ e.data.fileName = name ∧ c'.Consistent chains (r ++ s ++ [x]) ∧
      c'.entries = (Cache.addUse x.2 1 c).entries ∧ c'.maxCacheSize = c.maxCacheSize := by
  have hk : bucketOf name < capacity := bucketOf_lt _
  rw [cacheLookup, Program.run_bind (findName_run (h.chain _ hk) trivial (h.exists_entry hk)
    (hturns.chain _ hk))]
  cases hfound : (chains (bucketOf name)).find? (c.named name) with
  | none =>
    refine .inl ⟨rfl, fun b e he heq ↦ ?_⟩
    have hb := h.mem_chain he
    rw [heq] at hb
    have hnamed := List.find?_eq_none.mp hfound b hb
    simp [named, he, heq] at hnamed
  | some a =>
    have ha := List.mem_of_find?_eq_some hfound
    obtain ⟨e, he⟩ := h.exists_entry hk a ha
    have hname : e.data.fileName = name := by
      have hnamed := List.find?_some hfound
      simpa [named, he] using hnamed
    obtain ⟨x, hx, rfl⟩ := List.mem_map.mp ((h.mem a).mpr ⟨_, hk, ha⟩)
    obtain ⟨r, s, rfl⟩ := List.append_of_mem hx
    obtain ⟨nodeNext, q, hmove, hq⟩ := (h.addUse x.2 1).moveNodeToEnd_run hturns.lru
    refine .inr ⟨x, r, s, e, { Cache.addUse x.2 1 c with nodeNext := nodeNext, lru := q }, rfl, ?_,
      he, hname, (h.addUse x.2 1).reorder hq ?_, rfl, rfl⟩
    · dsimp only
      rw [Program.modify_bind_run, Program.run_bind hmove]
      rfl
    · rw [List.append_assoc]
      exact List.Perm.append_left r List.perm_append_comm

/-- The release of an entry: it returns if the use count is positive. -/
theorem Consistent.cacheRelease_run (h : c.Consistent chains lru) (he : c.entries a = some e)
    (huse : 1 ≤ e.inUse) :
    (cacheRelease a).run c = .ok ((), Cache.addUse a (-1) c) ∧
      (Cache.addUse a (-1) c).Consistent chains lru := by
  refine ⟨?_, h.addUse a (-1)⟩
  rw [cacheRelease, Program.run_bind (deref_run he), Program.modify_bind_run,
    Program.run_bind (deref_run (addUse_entries_self he))]
  exact Program.check_run (by dsimp only; omega) _ _

theorem deref_eq_ok (h : (deref a).run c = .ok (e, c')) : c' = c := by
  cases he : c.entries a with
  | none => simp [deref, he] at h
  | some f =>
    rw [deref_run he] at h
    exact (Prod.mk.inj (Except.ok.inj h)).2.symm

/-- A release that returns has changed the use count only. -/
theorem cacheRelease_eq {u : Unit} (hrun : (cacheRelease a).run c = .ok (u, c')) :
    c' = Cache.addUse a (-1) c := by
  obtain ⟨e, c₁, hderef, hrest⟩ := Program.bind_eq_ok_iff.mp hrun
  obtain rfl := deref_eq_ok hderef
  rw [Program.modify_bind_run] at hrest
  obtain ⟨f, c₂, hderef', hcheck⟩ := Program.bind_eq_ok_iff.mp hrest
  obtain rfl := deref_eq_ok hderef'
  exact (Program.check_eq_ok_iff.mp hcheck).2

/-- The cache of a new server. -/
theorem Consistent.init {maxCacheSize : ℤ} (hmax : 0 ≤ maxCacheSize) :
    (Cache.init maxCacheSize).Consistent (fun _ ↦ []) [] where
  chain _ _ := chain_nil.mpr rfl
  entry _ _ _ ha := by cases ha
  queue := IsQueue.empty
  node _ hx := by cases hx
  nodup := List.nodup_nil
  mem a := by simp
  allocated a e he := by cases he
  names _ _ _ ha := by cases ha
  size := rfl
  le := hmax

end Consistent

end OperatingSystems.Webserver.Cache
