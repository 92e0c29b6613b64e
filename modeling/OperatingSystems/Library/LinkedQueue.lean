import Mathlib.Data.Int.Basic
import Mathlib.Data.List.Basic
import Mathlib.Logic.Function.Basic
import Mathlib.Tactic.Common

/-!
# Queues kept as singly linked lists

A heap of list nodes is a map `next` from each node to the node it points to, and a queue is a
record of its first node, its last node and its length. `Path next p l q` says that following
`next` from the pointer `p` passes the nodes of `l` and arrives at `q`; `IsQueue next q l` says that
the record `q` describes the list `l` of nodes, from its head to the null pointer. The tail of an
empty queue is not constrained.

The operations are those of a queue written with pointers: append a node, take the first node
off, move the first node to the end, move an inner node to the end or to the front, and unlink a
node whose predecessor is known. Each changes `next` at nodes of its own queue only and yields
`none` where it would follow a null pointer. For each there is one lemma that says what becomes of
the list.
-/

set_option autoImplicit false
set_option relaxedAutoImplicit false

namespace OperatingSystems.Library.LinkedQueue

universe u

variable {A : Type u}

/-! ### Paths -/

/-- Following `next` from the first pointer passes the nodes of the list and arrives at the second
pointer. -/
def Path (next : A → Option A) : Option A → List A → Option A → Prop
  | p, [], q => p = q
  | p, a :: l, q => p = some a ∧ Path next (next a) l q

section Path

variable {next next' : A → Option A} {p q : Option A} {a b : A} {l r : List A}

@[simp]
theorem path_nil : Path next p [] q ↔ p = q := Iff.rfl

@[simp]
theorem path_cons : Path next p (a :: l) q ↔ p = some a ∧ Path next (next a) l q := Iff.rfl

/-- A path over two lists is a path over the first and then one over the second. -/
theorem path_append :
    Path next p (l ++ r) q ↔ ∃ m, Path next p l m ∧ Path next m r q := by
  induction l generalizing p with
  | nil => simp
  | cons a l ih =>
    rw [List.cons_append, path_cons, ih]
    simp only [path_cons, and_assoc, exists_and_left]

/-- A path depends on `next` at its own nodes only. -/
theorem Path.congr (h : Path next p l q) (hnext : ∀ a ∈ l, next' a = next a) :
    Path next' p l q := by
  induction l generalizing p with
  | nil => exact h
  | cons a l ih =>
    obtain ⟨hp, hl⟩ := h
    refine ⟨hp, ?_⟩
    rw [hnext a List.mem_cons_self]
    exact ih hl fun b hb ↦ hnext b (List.mem_cons_of_mem a hb)

/-- A path that ends at the null pointer is determined by its start. -/
theorem Path.eq (h : Path next p l none) (h' : Path next p r none) : l = r := by
  induction l generalizing p r with
  | nil =>
    cases r with
    | nil => rfl
    | cons b r => exact absurd (h.symm.trans h'.1) (by simp)
  | cons a l ih =>
    cases r with
    | nil => exact absurd (h.1.symm.trans h') (by simp)
    | cons b r =>
      have hab : a = b := Option.some.inj (h.1.symm.trans h'.1)
      subst hab
      rw [ih h.2 h'.2]

/-- A path that ends at the null pointer begins with its first node. -/
theorem Path.mem_of_head (h : Path next p l none) (hp : p = some a) : a ∈ l := by
  cases l with
  | nil => exact absurd (h.symm.trans hp) (by simp)
  | cons b l =>
    obtain rfl := Option.some.inj (h.1.symm.trans hp)
    exact List.mem_cons_self

/-- A path that ends at the null pointer passes no node twice. -/
theorem Path.nodup (h : Path next p l none) : l.Nodup := by
  induction l generalizing p with
  | nil => exact List.nodup_nil
  | cons a l ih =>
    refine List.nodup_cons.mpr ⟨fun ha ↦ ?_, ih h.2⟩
    -- From the second visit of `a` the path would go on as from the first, and never end.
    obtain ⟨before, after, hl⟩ := List.append_of_mem ha
    have hrest := h.2
    rw [hl] at hrest
    obtain ⟨m, -, hm⟩ := path_append.mp hrest
    have hsame := hm.2.eq h.2
    rw [hl] at hsame
    have hlength := congrArg List.length hsame
    simp only [List.length_append, List.length_cons] at hlength
    omega

/-- A path through two neighbours. -/
theorem path_middle : Path next p (l ++ a :: b :: r) q ↔
    Path next p l (some a) ∧ next a = some b ∧ Path next (next b) r q := by
  rw [path_append]
  constructor
  · rintro ⟨m, hl, rfl, hb, hr⟩
    exact ⟨hl, hb, hr⟩
  · rintro ⟨hl, hb, hr⟩
    exact ⟨some a, hl, rfl, hb, hr⟩

variable [DecidableEq A]

/-- A node with a null pointer is attached behind the last node of a path. -/
theorem Path.snoc (h : Path next p (l ++ [a]) none) (hb : b ∉ l ++ [a]) (hnull : next b = none) :
    Path (Function.update next a (some b)) p (l ++ [a] ++ [b]) none := by
  have hnodup := h.nodup
  rw [List.nodup_append] at hnodup
  have hal : a ∉ l := fun ha ↦ hnodup.2.2 a ha a (List.mem_singleton_self a) rfl
  have hba : b ≠ a := fun heq ↦ hb (by simp [heq])
  obtain ⟨m, hl, rfl, -⟩ := path_append.mp h
  rw [List.append_assoc, List.singleton_append, path_middle]
  refine ⟨hl.congr fun c hc ↦ ?_, Function.update_self .., ?_⟩
  · exact Function.update_of_ne (ne_of_mem_of_not_mem hc hal) ..
  · rw [path_nil, Function.update_of_ne hba]
    exact hnull

/-- A node with a null pointer is attached behind some node: a path that passes that node ends with
the new one, and every other path is as before. -/
theorem Path.attach (h : Path next p l none) (a : A) (hb : b ∉ l) (hba : b ≠ a)
    (hnull : next b = none) :
    ∃ l', Path (Function.update next a (some b)) p l' none ∧ ∀ c ∈ l', c ∈ l ∨ c = b := by
  by_cases ha : a ∈ l
  · obtain ⟨before, after, rfl⟩ := List.append_of_mem ha
    have hbefore : a ∉ before := fun hmem ↦ by
      have hnodup := h.nodup
      rw [List.nodup_append] at hnodup
      exact hnodup.2.2 a hmem a List.mem_cons_self rfl
    obtain ⟨m, hl, rfl, -⟩ := path_append.mp h
    refine ⟨before ++ a :: b :: [], path_middle.mpr ⟨hl.congr fun c hc ↦ ?_, ?_, ?_⟩, ?_⟩
    · exact Function.update_of_ne (ne_of_mem_of_not_mem hc hbefore) ..
    · exact Function.update_self ..
    · rw [path_nil, Function.update_of_ne hba]
      exact hnull
    · simp only [List.mem_append, List.mem_cons, List.not_mem_nil, or_false]
      tauto
  · refine ⟨l, h.congr fun c hc ↦ ?_, fun c hc ↦ .inl hc⟩
    exact Function.update_of_ne (ne_of_mem_of_not_mem hc ha) ..

omit [DecidableEq A] in
/-- The nodes of a path around two neighbours. -/
theorem Path.middle (h : Path next p (l ++ a :: b :: r) none) :
    a ∉ l ∧ b ∉ l ∧ a ≠ b ∧ a ∉ r ∧ b ∉ r := by
  have hnodup := h.nodup
  simp only [List.nodup_append, List.nodup_cons, List.mem_cons, ne_eq] at hnodup
  grind

/-- A node is taken out of a path. -/
theorem Path.unlink (h : Path next p (l ++ a :: b :: r) none) (v : Option A) :
    Path (Function.update (Function.update next a (next b)) b v) p (l ++ a :: r) none := by
  obtain ⟨hal, hbl, hab, har, hbr⟩ := h.middle
  obtain ⟨hl, hb, hpath⟩ := path_middle.mp h
  refine path_append.mpr ⟨some a, hl.congr fun c hc ↦ ?_, rfl, ?_⟩
  · rw [Function.update_of_ne (ne_of_mem_of_not_mem hc hbl),
      Function.update_of_ne (ne_of_mem_of_not_mem hc hal)]
  · rw [Function.update_of_ne hab, Function.update_self]
    refine hpath.congr fun c hc ↦ ?_
    rw [Function.update_of_ne (ne_of_mem_of_not_mem hc hbr),
      Function.update_of_ne (ne_of_mem_of_not_mem hc har)]

end Path

/-! ### Queues -/

/-- The record of a queue. -/
structure Queue (A : Type u) where
  head : Option A
  tail : Option A
  size : ℤ
  deriving DecidableEq

/-- The queue without nodes. -/
def Queue.empty : Queue A := ⟨none, none, 0⟩

/-- The record describes the list of nodes. -/
structure IsQueue (next : A → Option A) (q : Queue A) (l : List A) : Prop where
  path : Path next q.head l none
  tail : ∀ r a, l = r ++ [a] → q.tail = some a
  size : q.size = l.length

section Operations

variable [DecidableEq A] (next : A → Option A) (q : Queue A)

/-- Append a node whose own pointer is null. -/
def append (n : A) : Option ((A → Option A) × Queue A) :=
  match q.head with
  | none => some (next, ⟨some n, some n, q.size + 1⟩)
  | some _ => do
    let t ← q.tail
    some (Function.update next t (some n), ⟨q.head, some n, q.size + 1⟩)

/-- Take the first node off and clear its pointer. -/
def pop : Option (A × (A → Option A) × Queue A) := do
  let h ← q.head
  some (h, Function.update next h none, ⟨next h, q.tail, q.size - 1⟩)

/-- Move the first node to the end, unless it is the only one. -/
def moveHeadToEnd : Option ((A → Option A) × Queue A) :=
  if q.size ≤ 1 then some (next, q)
  else do
    let h ← q.head
    let t ← q.tail
    some (Function.update (Function.update next t (some h)) h none, ⟨next h, some h, q.size⟩)

/-- Move the node `n` after `p` to the end. -/
def moveToEnd (p n : A) : Option ((A → Option A) × Queue A) := do
  let t ← q.tail
  some (Function.update (Function.update (Function.update next p (next n)) n none) t (some n),
    ⟨q.head, some n, q.size⟩)

/-- Move the node `n` after `p` to the front. -/
def moveToHead (p n : A) : (A → Option A) × Queue A :=
  (Function.update (Function.update next p (next n)) n q.head,
    ⟨some n, if q.tail = some n then some p else q.tail, q.size⟩)

/-- Unlink the node `n` after `p`. -/
def unlink (p n : A) : (A → Option A) × Queue A :=
  (Function.update (Function.update next p (next n)) n none,
    ⟨q.head, if q.tail = some n then some p else q.tail, q.size - 1⟩)

end Operations

namespace IsQueue

variable {next next' : A → Option A} {q : Queue A} {a p n : A} {l r : List A}

/-- The empty queue has no nodes. -/
theorem empty : IsQueue next Queue.empty [] where
  path := rfl
  tail r a h := absurd h.symm (by simp)
  size := rfl

/-- No node is twice in a queue. -/
theorem nodup (h : IsQueue next q l) : l.Nodup := h.path.nodup

/-- A record describes one list at most. -/
theorem eq (h : IsQueue next q l) (h' : IsQueue next q r) : l = r := h.path.eq h'.path

/-- A queue depends on `next` at its own nodes only. -/
theorem congr (h : IsQueue next q l) (hnext : ∀ a ∈ l, next' a = next a) : IsQueue next' q l :=
  ⟨h.path.congr hnext, h.tail, h.size⟩

/-- The head of a queue is its first node. -/
theorem head_eq (h : IsQueue next q l) : q.head = l.head? := by
  cases l with
  | nil => exact h.path
  | cons a l => exact h.path.1

/-- A node that has a node before it is not the head. -/
theorem head_ne (h : IsQueue next q (l ++ p :: n :: r)) : q.head ≠ some n := by
  obtain ⟨-, hnl, hpn, -, -⟩ := h.path.middle
  rw [h.head_eq]
  cases l with
  | nil => simpa using hpn
  | cons b l =>
    rw [List.cons_append, List.head?_cons, ne_eq, Option.some.injEq]
    exact fun heq ↦ hnl (by simp [heq])

/-- The tail of a queue that has nodes is its last node. -/
theorem exists_tail (h : IsQueue next q l) (hl : l ≠ []) :
    ∃ r t, l = r ++ [t] ∧ q.tail = some t := by
  obtain ⟨r, t, rfl⟩ := List.eq_nil_or_concat l |>.resolve_left hl
  exact ⟨r, t, List.concat_eq_append .., h.tail r t (List.concat_eq_append ..)⟩

variable [DecidableEq A]

/-- Assumes: a node of no queue, with a null pointer. It is last after it is appended. -/
theorem append (h : IsQueue next q l) (hn : n ∉ l) (hnull : next n = none) :
    ∃ next' q', LinkedQueue.append next q n = some (next', q') ∧ IsQueue next' q' (l ++ [n]) ∧
      ∀ a ∉ l, next' a = next a := by
  have hsize : q.size + 1 = ((l ++ [n]).length : ℤ) := by simp [h.size]
  have htail : ∀ r a, l ++ [n] = r ++ [a] → some n = some a := fun r a heq ↦ by
    rw [(List.append_inj' heq rfl).2 |> List.singleton_inj.mp]
  by_cases hl : l = []
  · subst hl
    have hhead : q.head = none := h.path
    refine ⟨next, ⟨some n, some n, q.size + 1⟩, ?_, ⟨⟨rfl, hnull⟩, htail, hsize⟩, fun _ _ ↦ rfl⟩
    simp only [LinkedQueue.append, hhead]
  · obtain ⟨r, t, rfl, ht⟩ := h.exists_tail hl
    obtain ⟨first, hfirst⟩ : ∃ first, q.head = some first := by
      cases r with
      | nil => exact ⟨t, h.path.1⟩
      | cons b r => exact ⟨b, h.path.1⟩
    refine ⟨Function.update next t (some n), ⟨q.head, some n, q.size + 1⟩, ?_, ⟨?_, htail, hsize⟩,
      fun a ha ↦ Function.update_of_ne (fun heq ↦ ha (by simp [heq])) ..⟩
    · simp only [LinkedQueue.append, hfirst, ht, Option.bind_eq_bind, Option.bind_some]
    · exact h.path.snoc hn hnull

/-- The first node is taken off. -/
theorem pop (h : IsQueue next q (n :: l)) :
    ∃ q', LinkedQueue.pop next q = some (n, Function.update next n none, q') ∧
      IsQueue (Function.update next n none) q' l := by
  have hnodup := List.nodup_cons.mp h.nodup
  refine ⟨⟨next n, q.tail, q.size - 1⟩, ?_, ?_, ?_, ?_⟩
  · simp only [LinkedQueue.pop, h.path.1, Option.bind_eq_bind, Option.bind_some]
  · exact h.path.2.congr fun a ha ↦ Function.update_of_ne (ne_of_mem_of_not_mem ha hnodup.1) ..
  · intro r a heq
    exact h.tail (n :: r) a (by rw [heq, List.cons_append])
  · have hsize := h.size
    rw [List.length_cons] at hsize
    push_cast at hsize
    show q.size - 1 = _
    omega

/-- The first node is moved to the end. -/
theorem moveHeadToEnd (h : IsQueue next q (n :: l)) :
    ∃ next' q', LinkedQueue.moveHeadToEnd next q = some (next', q') ∧
      IsQueue next' q' (l ++ [n]) ∧ ∀ a ∉ n :: l, next' a = next a := by
  have hnodup := List.nodup_cons.mp h.nodup
  have hsize := h.size
  rw [List.length_cons] at hsize
  by_cases hl : l = []
  · subst hl
    refine ⟨next, q, ?_, h, fun _ _ ↦ rfl⟩
    rw [LinkedQueue.moveHeadToEnd, if_pos (by simp [hsize])]
  · obtain ⟨r, t, rfl⟩ : ∃ r t, l = r ++ [t] :=
      (List.eq_nil_or_concat l).resolve_left hl |>.imp fun r ⟨t, ht⟩ ↦ ⟨t, by simpa using ht⟩
    have ht : q.tail = some t := h.tail (n :: r) t (List.cons_append ..).symm
    have htn : t ≠ n := fun heq ↦ hnodup.1 (by simp [heq])
    have htr : t ∉ r := by
      have hnodup' := hnodup.2
      rw [List.nodup_append] at hnodup'
      exact fun ht ↦ hnodup'.2.2 t ht t (List.mem_singleton_self t) rfl
    refine ⟨Function.update (Function.update next t (some n)) n none, ⟨next n, some n, q.size⟩,
      ?_, ⟨?_, ?_, ?_⟩, ?_⟩
    · have hmany : ¬q.size ≤ 1 := by
        simp only [List.length_append, List.length_cons, List.length_nil] at hsize
        omega
      rw [LinkedQueue.moveHeadToEnd, if_neg hmany, h.path.1, ht]
      rfl
    · rw [List.append_assoc, List.singleton_append, path_middle]
      obtain ⟨m, hr, hm, -⟩ := path_append.mp h.path.2
      refine ⟨?_, ?_, ?_⟩
      · rw [← hm]
        refine hr.congr fun a ha ↦ ?_
        rw [Function.update_of_ne (ne_of_mem_of_not_mem ha fun hmem ↦ hnodup.1 (by simp [hmem])),
          Function.update_of_ne (ne_of_mem_of_not_mem ha htr)]
      · rw [Function.update_of_ne htn, Function.update_self]
      · rw [path_nil, Function.update_self]
    · intro r' a heq
      rw [(List.append_inj' heq rfl).2 |> List.singleton_inj.mp]
    · show q.size = _
      rw [hsize, List.length_append, List.length_append]
      simp
    · intro a ha
      rw [Function.update_of_ne (fun heq ↦ ha (by simp [heq])),
        Function.update_of_ne (fun heq ↦ ha (by simp [heq]))]

/-- An inner node that is not the last is moved to the end. -/
theorem moveToEnd (h : IsQueue next q (l ++ p :: n :: r)) (hr : r ≠ []) :
    ∃ next' q', LinkedQueue.moveToEnd next q p n = some (next', q') ∧
      IsQueue next' q' (l ++ p :: r ++ [n]) ∧ ∀ a ∉ l ++ p :: n :: r, next' a = next a := by
  obtain ⟨hpl, hnl, hpn, hpr, hnr⟩ := h.path.middle
  obtain ⟨hl, hp, hpath⟩ := path_middle.mp h.path
  obtain ⟨r, t, rfl⟩ : ∃ r' t, r = r' ++ [t] :=
    (List.eq_nil_or_concat r).resolve_left hr |>.imp fun r' ⟨t, ht⟩ ↦ ⟨t, by simpa using ht⟩
  have ht : q.tail = some t := h.tail (l ++ p :: n :: r) t (by simp)
  have htn : t ≠ n := fun heq ↦ hnr (by simp [heq])
  have htp : t ≠ p := fun heq ↦ hpr (by simp [heq])
  have hnodup := h.nodup
  have htl : t ∉ l := fun hmem ↦ by
    rw [List.nodup_append] at hnodup
    exact hnodup.2.2 t hmem t (by simp) rfl
  have htr : t ∉ r := fun hmem ↦ by
    simp only [List.nodup_append, List.nodup_cons] at hnodup
    exact hnodup.2.1.2.2.2.2 t hmem t (List.mem_singleton_self t) rfl
  refine ⟨_, _, by rw [LinkedQueue.moveToEnd, ht]; rfl, ⟨?_, ?_, ?_⟩, ?_⟩
  · obtain ⟨m, hr', hm, -⟩ := path_append.mp hpath
    rw [show l ++ p :: (r ++ [t]) ++ [n] = (l ++ p :: r) ++ t :: n :: [] by simp, path_middle]
    refine ⟨?_, Function.update_self .., ?_⟩
    · refine path_append.mpr ⟨some p, hl.congr fun a ha ↦ ?_, rfl, ?_⟩
      · rw [Function.update_of_ne (ne_of_mem_of_not_mem ha htl),
          Function.update_of_ne (ne_of_mem_of_not_mem ha hnl),
          Function.update_of_ne (ne_of_mem_of_not_mem ha hpl)]
      · rw [Function.update_of_ne htp.symm, Function.update_of_ne hpn, Function.update_self, ← hm]
        refine hr'.congr fun a ha ↦ ?_
        rw [Function.update_of_ne (ne_of_mem_of_not_mem ha htr),
          Function.update_of_ne (fun heq ↦ hnr (by simp [← heq, ha])),
          Function.update_of_ne (fun heq ↦ hpr (by simp [← heq, ha]))]
    · rw [path_nil, Function.update_of_ne htn.symm, Function.update_self]
  · intro r' a heq
    rw [(List.append_inj' heq rfl).2 |> List.singleton_inj.mp]
  · show q.size = _
    rw [h.size]
    simp only [List.length_append, List.length_cons, List.length_nil]
    push_cast
    omega
  · intro a ha
    rw [Function.update_of_ne (fun heq ↦ ha (by simp [heq])),
      Function.update_of_ne (fun heq ↦ ha (by simp [heq])),
      Function.update_of_ne (fun heq ↦ ha (by simp [heq]))]

/-- The tail after the node `n` after `p` has left its place. -/
theorem tail_of_middle (h : IsQueue next q (l ++ p :: n :: r)) {r' : List A} {a : A}
    (heq : l ++ p :: r = r' ++ [a]) : (if q.tail = some n then some p else q.tail) = some a := by
  rcases List.eq_nil_or_concat r with rfl | ⟨s, t, hs⟩
  · have htail := h.tail (l ++ [p]) n (by simp)
    rw [if_pos htail, (List.append_inj' heq rfl).2 |> List.singleton_inj.mp]
  · rw [List.concat_eq_append] at hs
    subst hs
    have htail := h.tail (l ++ p :: n :: s) t (by simp)
    have hta : t = a := by
      rw [← List.cons_append, ← List.append_assoc] at heq
      exact (List.append_inj' heq rfl).2 |> List.singleton_inj.mp
    have htn : t ≠ n := fun h' ↦ h.path.middle.2.2.2.2 (by simp [h'])
    rw [htail, if_neg (by simpa using htn), hta]

/-- An inner node is unlinked. -/
theorem unlink (h : IsQueue next q (l ++ p :: n :: r)) :
    IsQueue (LinkedQueue.unlink next q p n).1 (LinkedQueue.unlink next q p n).2 (l ++ p :: r) := by
  refine ⟨h.path.unlink none, fun r' a heq ↦ h.tail_of_middle heq, ?_⟩
  show q.size - 1 = _
  rw [h.size]
  simp only [List.length_append, List.length_cons]
  push_cast
  omega

/-- An inner node is moved to the front. -/
theorem moveToHead (h : IsQueue next q (l ++ p :: n :: r)) :
    IsQueue (LinkedQueue.moveToHead next q p n).1 (LinkedQueue.moveToHead next q p n).2
      (n :: (l ++ p :: r)) := by
  refine ⟨⟨rfl, ?_⟩, ?_, ?_⟩
  · simp only [LinkedQueue.moveToHead]
    rw [Function.update_self]
    exact h.path.unlink q.head
  · intro r' a heq
    cases r' with
    | nil =>
      have hlength := congrArg List.length heq
      simp at hlength
    | cons b r' =>
      rw [List.cons_append, List.cons.injEq] at heq
      exact h.tail_of_middle heq.2
  · show q.size = _
    rw [h.size]
    simp only [List.length_append, List.length_cons]
    push_cast
    omega

end IsQueue

end OperatingSystems.Library.LinkedQueue
