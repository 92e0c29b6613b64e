import Mathlib.Data.List.Induction
import Mathlib.Logic.Function.Basic
import Mathlib.Tactic.Common

/-!
# Lists whose nodes point back at the pointer to them

A list of a hash table begins at a head, which has one pointer, to the first node. A node has the
pointer `next` and the pointer `pprev`, which is not to the node before it but to the pointer that
points to it: that of the head, or `next` of the node before. With it a node is taken out without
knowing its list (`Heap.del`).

`Chain m k l` says that the pointer `k` leads through the nodes of `l` to the null pointer, and
that each of them points back at the pointer to it. This alone makes the lists of different heads
disjoint and each of them free of repetitions (`Holds.nodup`, `Holds.eq_of_mem`), as every node
tells the way back to its head.
-/

set_option autoImplicit false
set_option relaxedAutoImplicit false

namespace OperatingSystems.Library.HashList

universe u

variable {H A : Type u}

/-! ### The heap -/

/-- A place that holds a pointer to a node. -/
inductive Link (H A : Type u)
  | first (h : H)
  | next (a : A)
  deriving DecidableEq

/-- The pointers of all heads and nodes. -/
structure Heap (H A : Type u) where
  first : H → Option A
  next : A → Option A
  pprev : A → Option (Link H A)

namespace Heap

/-- The pointer at a place. -/
def read (m : Heap H A) : Link H A → Option A
  | .first h => m.first h
  | .next a => m.next a

/-- Walk along `next` to the first node with a property, for a number of nodes at most. -/
def find (m : Heap H A) (p : A → Bool) : ℕ → Option A → Option (Option A)
  | _, none => some none
  | 0, some _ => none
  | n + 1, some a => if p a = true then some (some a) else m.find p n (m.next a)

variable [DecidableEq H] [DecidableEq A]

/-- Store a pointer at a place. -/
def write (m : Heap H A) (k : Link H A) (p : Option A) : Heap H A :=
  match k with
  | .first h => { m with first := Function.update m.first h p }
  | .next a => { m with next := Function.update m.next a p }

/-- Let a node point back at a place, if there is a node. -/
def setPprev (m : Heap H A) (p : Option A) (k : Link H A) : Heap H A :=
  match p with
  | none => m
  | some a => { m with pprev := Function.update m.pprev a (some k) }

/-- Clear the pointers of a node. -/
def initNode (m : Heap H A) (a : A) : Heap H A :=
  { m with next := Function.update m.next a none, pprev := Function.update m.pprev a none }

/-- Put a node in front of the list of a head. -/
def addHead (m : Heap H A) (a : A) (h : H) : Heap H A :=
  (((m.write (.next a) (m.first h)).setPprev (m.first h) (.next a)).write (.first h)
    (some a)).setPprev (some a) (.first h)

/-- Take a node out of its list. It must point back at a place. -/
def del (m : Heap H A) (a : A) : Option (Heap H A) :=
  (m.pprev a).map fun k ↦ ((m.write k (m.next a)).setPprev (m.next a) k).initNode a

end Heap

/-! ### Chains -/

/-- From the place on the nodes of the list follow, and then the null pointer. -/
def Chain (m : Heap H A) : Link H A → List A → Prop
  | k, [] => m.read k = none
  | k, a :: l => m.read k = some a ∧ m.pprev a = some k ∧ Chain m (.next a) l

/-- From the first place on the nodes of the list follow, and then the second place. -/
def Segment (m : Heap H A) : Link H A → List A → Link H A → Prop
  | k, [], k' => k = k'
  | k, a :: l, k' => m.read k = some a ∧ m.pprev a = some k ∧ Segment m (.next a) l k'

/-- Every head has its list. -/
def Holds (m : Heap H A) (lists : H → List A) : Prop := ∀ h, Chain m (.first h) (lists h)

section Chains

variable {m m' : Heap H A} {k k' : Link H A} {h h' : H} {l l' r : List A} {a : A}
  {lists : H → List A}

theorem chain_append : Chain m k (l ++ r) ↔ ∃ k', Segment m k l k' ∧ Chain m k' r := by
  induction l generalizing k with
  | nil => simp [Segment]
  | cons a l ih =>
    rw [List.cons_append]
    simp only [Chain, Segment, ih, and_assoc, exists_and_left]

theorem segment_append_singleton : Segment m k (l ++ [a]) k' ↔
    ∃ j, Segment m k l j ∧ m.read j = some a ∧ m.pprev a = some j ∧ k' = .next a := by
  induction l generalizing k with
  | nil => simp [Segment, eq_comm]
  | cons b l ih =>
    rw [List.cons_append]
    simp only [Segment, ih, and_assoc, exists_and_left]

/-- The nodes before a place, and the head they begin at, are determined by it. -/
theorem Segment.unique (hl : Segment m (.first h) l k) (hl' : Segment m (.first h') l' k) :
    h = h' ∧ l = l' := by
  induction l using List.reverseRecOn generalizing l' k with
  | nil =>
    obtain rfl : Link.first h = k := hl
    cases l' using List.reverseRecOn with
    | nil => exact ⟨(Link.first.inj hl').symm, rfl⟩
    | append_singleton l' a =>
      obtain ⟨j, -, -, -, heq⟩ := segment_append_singleton.mp hl'
      cases heq
  | append_singleton l a ih =>
    obtain ⟨j, hj, -, hback, rfl⟩ := segment_append_singleton.mp hl
    cases l' using List.reverseRecOn with
    | nil => cases hl'
    | append_singleton l' a' =>
      obtain ⟨j', hj', -, hback', heq⟩ := segment_append_singleton.mp hl'
      obtain rfl := Link.next.inj heq
      obtain rfl := Option.some.inj (hback.symm.trans hback')
      obtain ⟨rfl, rfl⟩ := ih hj hj'
      exact ⟨rfl, rfl⟩

/-- A node of a list points back at the place before it. -/
theorem Chain.split (hl : Chain m k (l ++ a :: r)) :
    ∃ j, Segment m k l j ∧ m.read j = some a ∧ m.pprev a = some j ∧ Chain m (.next a) r := by
  obtain ⟨j, hj, hread, hback, hr⟩ := chain_append.mp hl
  exact ⟨j, hj, hread, hback, hr⟩

/-- Different heads have different nodes. -/
theorem Holds.split_unique (hm : Holds m lists) {l₁ r₁ l₂ r₂ : List A}
    (h₁ : lists h = l₁ ++ a :: r₁) (h₂ : lists h' = l₂ ++ a :: r₂) : h = h' ∧ l₁ = l₂ := by
  have hfirst := hm h
  have hsecond := hm h'
  rw [h₁] at hfirst
  rw [h₂] at hsecond
  obtain ⟨j, hj, -, hback, -⟩ := hfirst.split
  obtain ⟨j', hj', -, hback', -⟩ := hsecond.split
  obtain rfl := Option.some.inj (hback.symm.trans hback')
  exact hj.unique hj'

theorem Holds.eq_of_mem (hm : Holds m lists) (ha : a ∈ lists h) (ha' : a ∈ lists h') : h = h' := by
  obtain ⟨l₁, r₁, h₁⟩ := List.append_of_mem ha
  obtain ⟨l₂, r₂, h₂⟩ := List.append_of_mem ha'
  exact (hm.split_unique h₁ h₂).1

/-- No list has a node twice. -/
theorem Holds.nodup (hm : Holds m lists) (h : H) : (lists h).Nodup := by
  have hrest : ∀ r l : List A, lists h = l ++ r → r.Nodup := by
    intro r
    induction r with
    | nil => exact fun _ _ ↦ List.nodup_nil
    | cons a r ih =>
      intro l hsplit
      refine List.nodup_cons.mpr ⟨fun ha ↦ ?_, ih (l ++ [a]) (by simp [hsplit])⟩
      -- Two splits of the list at one node have the same part before it.
      obtain ⟨l₂, r₂, rfl⟩ := List.append_of_mem ha
      have hsplit' : lists h = (l ++ a :: l₂) ++ a :: r₂ := by simp [hsplit]
      have hlength := congrArg List.length (hm.split_unique hsplit hsplit').2
      simp only [List.length_append, List.length_cons] at hlength
      omega
  exact hrest (lists h) [] rfl

/-- The first node of a list is the one that its head points to. -/
theorem Chain.mem_of_read (hl : Chain m k l) (hk : m.read k = some a) :
    a ∈ l := by
  cases l with
  | nil => exact absurd (hk.symm.trans hl) (by simp)
  | cons b l =>
    obtain rfl := Option.some.inj (hk.symm.trans hl.1)
    exact List.mem_cons_self

/-- A chain depends on the pointers at its own places only. -/
theorem Chain.congr (hl : Chain m k l) (hread : m'.read k = m.read k)
    (hnext : ∀ c ∈ l, m'.next c = m.next c) (hback : ∀ c ∈ l, m'.pprev c = m.pprev c) :
    Chain m' k l := by
  induction l generalizing k with
  | nil => exact hread.trans hl
  | cons a l ih =>
    obtain ⟨ha, hpprev, hl⟩ := hl
    exact ⟨hread.trans ha, (hback a List.mem_cons_self).trans hpprev,
      ih hl (hnext a List.mem_cons_self) (fun c hc ↦ hnext c (List.mem_cons_of_mem a hc))
        fun c hc ↦ hback c (List.mem_cons_of_mem a hc)⟩

/-- A segment ends at its place or at `next` of one of its nodes. -/
theorem Segment.eq_or_mem (hl : Segment m k l k') : k' = k ∨ ∃ c ∈ l, k' = .next c := by
  induction l generalizing k with
  | nil => exact Or.inl hl.symm
  | cons a l ih =>
    obtain ⟨-, -, hl⟩ := hl
    obtain rfl | ⟨c, hc, rfl⟩ := ih hl
    · exact Or.inr ⟨a, List.mem_cons_self, rfl⟩
    · exact Or.inr ⟨c, List.mem_cons_of_mem a hc, rfl⟩

/-- So does a segment, which does not depend on the pointer at its end. -/
theorem Segment.congr (hl : Segment m k l k') (hend : ∀ c ∈ l, k ≠ .next c) (hnodup : l.Nodup)
    (hread : k ≠ k' → m'.read k = m.read k)
    (hnext : ∀ c ∈ l, k' ≠ .next c → m'.next c = m.next c)
    (hback : ∀ c ∈ l, m'.pprev c = m.pprev c) : Segment m' k l k' := by
  induction l generalizing k with
  | nil => exact hl
  | cons a l ih =>
    obtain ⟨ha, hpprev, hl⟩ := hl
    obtain ⟨hal, hnodup⟩ := List.nodup_cons.mp hnodup
    refine ⟨?_, (hback a List.mem_cons_self).trans hpprev, ?_⟩
    · refine (hread fun heq ↦ ?_).trans ha
      obtain hk | ⟨c, hc, hk⟩ := hl.eq_or_mem
      · exact hend a List.mem_cons_self (heq.trans hk)
      · exact hend c (List.mem_cons_of_mem a hc) (heq.trans hk)
    · refine ih hl (fun c hc ↦ ?_) hnodup (fun hne ↦ hnext a List.mem_cons_self hne.symm)
        (fun c hc ↦ hnext c (List.mem_cons_of_mem a hc))
        fun c hc ↦ hback c (List.mem_cons_of_mem a hc)
      rintro ⟨⟩
      exact hal hc

/-- A walk that ends has found the first node with the property. -/
theorem Chain.find_eq (hl : Chain m k l) {p : A → Bool} {n : ℕ} {found : Option A}
    (h : m.find p n (m.read k) = some found) : found = l.find? p := by
  induction l generalizing k n with
  | nil =>
    rw [show m.read k = none from hl] at h
    cases n <;> exact (Option.some.inj h).symm
  | cons a l ih =>
    obtain ⟨ha, -, hl⟩ := hl
    rw [ha] at h
    cases n with
    | zero => cases h
    | succ n =>
      rw [Heap.find] at h
      cases hp : p a with
      | true =>
        rw [hp, if_pos rfl] at h
        rw [List.find?_cons_of_pos hp]
        exact (Option.some.inj h).symm
      | false =>
        rw [hp, if_neg Bool.false_ne_true] at h
        rw [List.find?_cons_of_neg (by simp [hp])]
        exact ih hl h

/-- The walk from a place finds the first node with the property. -/
theorem Chain.find (hl : Chain m k l) (p : A → Bool) {n : ℕ} (hn : l.length ≤ n) :
    m.find p n (m.read k) = some (l.find? p) := by
  induction l generalizing k n with
  | nil =>
    rw [show m.read k = none from hl]
    cases n <;> rfl
  | cons a l ih =>
    obtain ⟨ha, -, hl⟩ := hl
    cases n with
    | zero => cases hn
    | succ n =>
      rw [ha, Heap.find]
      cases hp : p a with
      | true => rw [if_pos rfl, List.find?_cons_of_pos hp]
      | false =>
        rw [if_neg Bool.false_ne_true, List.find?_cons_of_neg (by simp [hp])]
        exact ih hl (Nat.le_of_succ_le_succ hn)

end Chains

/-! ### What the operations store -/

namespace Heap

section Effects

variable [DecidableEq A] {m : Heap H A} {k j : Link H A} {a b : A} {p : Option A}

@[simp]
theorem read_setPprev (m : Heap H A) (p : Option A) (k j : Link H A) :
    (m.setPprev p k).read j = m.read j := by
  cases p <;> cases j <;> rfl

theorem pprev_setPprev_self (m : Heap H A) (k : Link H A) (a : A) :
    (m.setPprev (some a) k).pprev a = some k := Function.update_self ..

theorem pprev_setPprev_of_ne (hp : p ≠ some b) : (m.setPprev p k).pprev b = m.pprev b := by
  cases p with
  | none => rfl
  | some a => exact Function.update_of_ne (fun heq ↦ hp (by rw [heq])) ..

theorem read_initNode_of_ne (hj : j ≠ .next a) : (m.initNode a).read j = m.read j := by
  cases j with
  | first h => rfl
  | next b => exact Function.update_of_ne (fun heq ↦ hj (by rw [heq])) ..

theorem pprev_initNode_of_ne (hb : b ≠ a) : (m.initNode a).pprev b = m.pprev b :=
  Function.update_of_ne hb ..

variable [DecidableEq H]

theorem read_write_self (m : Heap H A) (k : Link H A) (p : Option A) :
    (m.write k p).read k = p := by
  cases k <;> simp [write, read]

theorem read_write_of_ne (hj : j ≠ k) : (m.write k p).read j = m.read j := by
  cases k <;> cases j <;> simp_all [write, read]

@[simp]
theorem pprev_write (m : Heap H A) (k : Link H A) (p : Option A) :
    (m.write k p).pprev = m.pprev := by
  cases k <;> rfl

end Effects

end Heap

/-! ### Putting a node in and taking it out -/

section Operations

variable [DecidableEq A] {m : Heap H A} {h : H} {l r : List A} {a : A} {lists : H → List A}

/-- Clearing the pointers of a node that is in no list. -/
theorem Holds.initNode (hm : Holds m lists) (hnew : ∀ h', a ∉ lists h') :
    Holds (m.initNode a) lists := by
  intro h'
  have hne : ∀ c ∈ lists h', c ≠ a := fun c hc heq ↦ hnew h' (heq ▸ hc)
  refine (hm h').congr rfl (fun c hc ↦ ?_) fun c hc ↦ Heap.pprev_initNode_of_ne (hne c hc)
  exact Heap.read_initNode_of_ne (j := .next c) fun heq ↦ hne c hc (Link.next.inj heq)

variable [DecidableEq H]

/-- A new node is put in front of the list of one head. -/
theorem Holds.addHead (hm : Holds m lists) (hnew : ∀ h', a ∉ lists h') (h : H) :
    Holds (m.addHead a h) (Function.update lists h (a :: lists h)) := by
  have hne : ∀ {h' : H} {c : A}, c ∈ lists h' → c ≠ a := fun hc heq ↦ hnew _ (heq ▸ hc)
  have hnext : ∀ c ≠ a, (m.addHead a h).next c = m.next c := by
    intro c hc
    change (m.addHead a h).read (.next c) = m.read (.next c)
    rw [Heap.addHead, Heap.read_setPprev, Heap.read_write_of_ne (by simp), Heap.read_setPprev,
      Heap.read_write_of_ne (by simpa using hc)]
  have hback : ∀ c ≠ a, m.first h ≠ some c → (m.addHead a h).pprev c = m.pprev c := by
    intro c hc hfirst
    rw [Heap.addHead, Heap.pprev_setPprev_of_ne (by simpa using Ne.symm hc), Heap.pprev_write,
      Heap.pprev_setPprev_of_ne hfirst, Heap.pprev_write]
  intro h'
  by_cases hh : h' = h
  · subst hh
    have hread : (m.addHead a h').read (.next a) = m.first h' := by
      rw [Heap.addHead, Heap.read_setPprev, Heap.read_write_of_ne (by simp), Heap.read_setPprev,
        Heap.read_write_self]
    rw [Function.update_self]
    refine ⟨?_, Heap.pprev_setPprev_self .., ?_⟩
    · rw [Heap.addHead, Heap.read_setPprev, Heap.read_write_self]
    · have hl := hm h'
      have hnodup := hm.nodup h'
      have hmem : ∀ c ∈ lists h', c ≠ a := fun c hc ↦ hne hc
      cases hlist : lists h' with
      | nil =>
        rw [hlist] at hl
        exact hread.trans hl
      | cons b l =>
        rw [hlist] at hl hnodup hmem
        obtain ⟨hb, -, hl⟩ := hl
        have hfirst : m.first h' = some b := hb
        have hba := hmem b List.mem_cons_self
        refine ⟨hread.trans hb, ?_, ?_⟩
        · rw [Heap.addHead, Heap.pprev_setPprev_of_ne (by simpa using Ne.symm hba),
            Heap.pprev_write, hfirst, Heap.pprev_setPprev_self]
        · refine hl.congr (hnext b hba)
            (fun c hc ↦ hnext c (hmem c (List.mem_cons_of_mem b hc))) fun c hc ↦ ?_
          refine hback c (hmem c (List.mem_cons_of_mem b hc)) fun heq ↦ ?_
          obtain rfl := Option.some.inj (hfirst.symm.trans heq)
          exact (List.nodup_cons.mp hnodup).1 hc
  · rw [Function.update_of_ne hh]
    refine (hm h').congr ?_ (fun c hc ↦ hnext c (hne hc)) fun c hc ↦ hback c (hne hc) fun heq ↦ ?_
    · rw [Heap.addHead, Heap.read_setPprev, Heap.read_write_of_ne (by simpa using hh),
        Heap.read_setPprev, Heap.read_write_of_ne (by simp)]
    · exact hh (hm.eq_of_mem hc ((hm h).mem_of_read heq))

/-- A node of a list is taken out, and its pointers are cleared. -/
theorem Holds.del (hm : Holds m lists) (hsplit : lists h = l ++ a :: r) :
    ∃ m', m.del a = some m' ∧ Holds m' (Function.update lists h (l ++ r)) ∧
      m'.next a = none ∧ m'.pprev a = none := by
  have hchain := hm h
  have hnodup := hm.nodup h
  rw [hsplit] at hchain hnodup
  obtain ⟨k, hk, hread, hpprev, hr⟩ := hchain.split
  obtain ⟨hl, har, hdisjoint⟩ := List.nodup_append.mp hnodup
  obtain ⟨har, hrnodup⟩ := List.nodup_cons.mp har
  have hal : a ∉ l := fun ha ↦ hdisjoint a ha a List.mem_cons_self rfl
  obtain ⟨m', hm'⟩ : ∃ m', m' = ((m.write k (m.next a)).setPprev (m.next a) k).initNode a :=
    ⟨_, rfl⟩
  have hka : k ≠ .next a := by
    rintro rfl
    obtain heq | ⟨c, hc, heq⟩ := hk.eq_or_mem
    · cases heq
    · exact hal (Link.next.inj heq ▸ hc)
  have hplaces : ∀ j, j ≠ .next a → j ≠ k → m'.read j = m.read j := by
    intro j hja hjk
    rw [hm', Heap.read_initNode_of_ne hja, Heap.read_setPprev, Heap.read_write_of_ne hjk]
  have hplace : m'.read k = m.next a := by
    rw [hm', Heap.read_initNode_of_ne hka, Heap.read_setPprev, Heap.read_write_self]
  have hback : ∀ c ≠ a, m.next a ≠ some c → m'.pprev c = m.pprev c := by
    intro c hc hnext
    rw [hm', Heap.pprev_initNode_of_ne hc, Heap.pprev_setPprev_of_ne hnext, Heap.pprev_write]
  -- The node behind the one that is taken out, if there is one, is the first of `r`.
  have hbehind : ∀ {c : A}, m.next a = some c → c ∈ r := fun hc ↦ hr.mem_of_read hc
  have hafter : ∀ c ∈ r, m'.next c = m.next c := by
    intro c hc
    refine hplaces (.next c) (fun heq ↦ har (Link.next.inj heq ▸ hc)) ?_
    rintro rfl
    obtain heq | ⟨c', hc', heq⟩ := hk.eq_or_mem
    · cases heq
    · obtain rfl := Link.next.inj heq
      exact hdisjoint c hc' c (List.mem_cons_of_mem a hc) rfl
  refine ⟨m', by rw [Heap.del, hpprev, hm']; rfl, fun h' ↦ ?_, ?_, ?_⟩
  · by_cases hh : h' = h
    · subst hh
      rw [Function.update_self, chain_append]
      refine ⟨k, ?_, ?_⟩
      · refine hk.congr (fun c _ ↦ by simp) hl (fun hne ↦ hplaces _ (by simp) hne) (fun c hc hne ↦
          ?_)
          fun c hc ↦ ?_
        · exact hplaces (.next c) (fun heq ↦ hal (Link.next.inj heq ▸ hc)) hne.symm
        · refine hback c (fun heq ↦ hal (heq ▸ hc)) fun hnext ↦ ?_
          exact hdisjoint c hc c (List.mem_cons_of_mem a (hbehind hnext)) rfl
      · cases r with
        | nil => exact hplace.trans hr
        | cons b r =>
          obtain ⟨hb, -, hr⟩ := hr
          have hba : b ≠ a := fun heq ↦ har (heq ▸ List.mem_cons_self)
          refine ⟨hplace.trans hb, ?_, hr.congr ?_ (fun c hc ↦ ?_) fun c hc ↦ ?_⟩
          · have hnext : m.next a = some b := hb
            rw [hm', Heap.pprev_initNode_of_ne hba, hnext, Heap.pprev_setPprev_self]
          · exact hafter b List.mem_cons_self
          · exact hafter c (List.mem_cons_of_mem b hc)
          · refine hback c (fun heq ↦ har (heq ▸ List.mem_cons_of_mem b hc)) fun heq ↦ ?_
            obtain rfl := Option.some.inj (Eq.trans heq.symm hb)
            exact (List.nodup_cons.mp hrnodup).1 hc
    · have hother : ∀ c ∈ lists h', c ∉ lists h := fun c hc hc' ↦ hh (hm.eq_of_mem hc hc')
      have hca : ∀ c ∈ lists h', c ≠ a := fun c hc heq ↦ hother c hc (by simp [hsplit, heq])
      rw [Function.update_of_ne hh]
      refine (hm h').congr (hplaces _ (by simp) ?_) (fun c hc ↦ ?_) fun c hc ↦ ?_
      · rintro rfl
        obtain heq | ⟨c, -, heq⟩ := hk.eq_or_mem
        · exact hh (Link.first.inj heq)
        · cases heq
      · refine hplaces (.next c) (fun heq ↦ hca c hc (Link.next.inj heq)) ?_
        rintro rfl
        obtain heq | ⟨c', hc', heq⟩ := hk.eq_or_mem
        · cases heq
        · obtain rfl := Link.next.inj heq
          exact hother c hc (by simp [hsplit, hc'])
      · exact hback c (hca c hc) fun heq ↦ hother c hc (by simp [hsplit, hbehind heq])
  · rw [hm']
    exact Function.update_self ..
  · rw [hm']
    exact Function.update_self ..

end Operations

end OperatingSystems.Library.HashList
