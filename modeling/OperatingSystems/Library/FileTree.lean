import Mathlib.Data.List.Infix
import Mathlib.Logic.Function.Basic
import Mathlib.Tactic.Common

/-!
# Trees of files

The nodes of a file tree, found by their paths. What is stored at a node is of any type, and a test
says which nodes are directories. The laws are fields: a node that is not the root is in a
directory, and no path is longer than the height. Nodes can be made and modified.
-/

set_option autoImplicit false
set_option relaxedAutoImplicit false

namespace OperatingSystems.Library

universe u v

/-- The nodes at the paths of a file tree. -/
structure FileTree (N : Type u) (A : Type v) (isDir : A → Bool) where
  node : List N → Option A
  height : ℕ
  exists_dir : ∀ {p n}, (node (p ++ [n])).isSome → ∃ a, node p = some a ∧ isDir a
  length_le : ∀ {p}, (node p).isSome → p.length ≤ height

namespace FileTree

variable {N : Type u} {A : Type v} {isDir : A → Bool} (t : FileTree N A isDir)

/-! ### What is below a node -/

/-- Only a directory has something below it. -/
theorem node_append_eq_none {p : List N} (h : ∀ a, t.node p = some a → isDir a = false)
    {r : List N} (hr : r ≠ []) : t.node (p ++ r) = none := by
  induction r using List.reverseRecOn with
  | nil => exact absurd rfl hr
  | append_singleton r n ih =>
    by_contra hsome
    rw [← List.append_assoc] at hsome
    obtain ⟨a, ha, hdir⟩ := t.exists_dir (Option.isSome_iff_ne_none.mpr hsome)
    by_cases hnil : r = []
    · rw [hnil, List.append_nil] at ha
      rw [h a ha] at hdir
      cases hdir
    · rw [ih hnil] at ha
      cases ha

/-- Below a path without a node there is none. -/
theorem node_eq_none {p q : List N} (h : t.node p = none) (hq : p <+: q) : t.node q = none := by
  obtain ⟨r, rfl⟩ := hq
  by_cases hnil : r = []
  · rw [hnil, List.append_nil, h]
  · refine t.node_append_eq_none (fun a ha ↦ ?_) hnil
    rw [h] at ha
    cases ha

/-! ### Where a node can be made -/

/-- There is no node at the path, and it is in a directory. -/
def Room (q : List N) : Prop :=
  q ≠ [] ∧ t.node q = none ∧ (t.node q.dropLast).any isDir = true

instance (q : List N) : Decidable (t.Room q) :=
  inferInstanceAs (Decidable (_ ∧ _ ∧ _))

theorem Room.exists_dir {t : FileTree N A isDir} {q : List N} (h : t.Room q) :
    ∃ a, t.node q.dropLast = some a ∧ isDir a = true := by
  obtain ⟨-, -, hany⟩ := h
  cases ha : t.node q.dropLast with
  | none =>
    rw [ha] at hany
    cases hany
  | some a =>
    rw [ha, Option.any_some] at hany
    exact ⟨a, rfl, hany⟩

/-! ### Modifying a node -/

variable [DecidableEq N]

/-- Change what is stored at a node, if there is one. Directories stay directories. -/
def modify (q : List N) (f : A → A) (hf : ∀ a, isDir (f a) = isDir a) : FileTree N A isDir :=
  have hsome : ∀ p, (Function.update t.node q ((t.node q).map f) p).isSome = (t.node p).isSome := by
    intro p
    by_cases hp : p = q
    · rw [hp, Function.update_self, Option.isSome_map]
    · rw [Function.update_of_ne hp]
  { node := Function.update t.node q ((t.node q).map f)
    height := t.height
    exists_dir := by
      intro p n hn
      rw [hsome] at hn
      obtain ⟨a, ha, hdir⟩ := t.exists_dir hn
      by_cases hp : p = q
      · subst hp
        exact ⟨f a, by rw [Function.update_self, ha, Option.map_some], (hf a).trans hdir⟩
      · exact ⟨a, by rw [Function.update_of_ne hp, ha], hdir⟩
    length_le := fun {p} hp ↦ t.length_le (by rwa [hsome] at hp) }

@[simp] theorem node_modify_self (q : List N) (f : A → A) (hf : ∀ a, isDir (f a) = isDir a) :
    (t.modify q f hf).node q = (t.node q).map f :=
  Function.update_self ..

theorem node_modify_of_ne {p q : List N} (hp : p ≠ q) (f : A → A)
    (hf : ∀ a, isDir (f a) = isDir a) : (t.modify q f hf).node p = t.node p :=
  Function.update_of_ne hp ..

/-! ### Making a node -/

/-- A new node. -/
def make (q : List N) (x : A) (h : t.Room q) : FileTree N A isDir :=
  have hne : q.dropLast ≠ q := fun heq ↦ by
    obtain ⟨a, ha, -⟩ := h.exists_dir
    rw [heq, h.2.1] at ha
    cases ha
  { node := Function.update t.node q (some x)
    height := max t.height q.length
    exists_dir := by
      intro p n hn
      by_cases hnew : p ++ [n] = q
      · obtain rfl : q.dropLast = p := by rw [← hnew, List.dropLast_concat]
        obtain ⟨a, ha, hdir⟩ := h.exists_dir
        exact ⟨a, by rw [Function.update_of_ne hne, ha], hdir⟩
      · rw [Function.update_of_ne hnew] at hn
        obtain ⟨a, ha, hdir⟩ := t.exists_dir hn
        refine ⟨a, ?_, hdir⟩
        rw [Function.update_of_ne ?_, ha]
        rintro rfl
        rw [h.2.1] at ha
        cases ha
    length_le := by
      intro p hp
      by_cases hnew : p = q
      · rw [hnew]
        exact Nat.le_max_right ..
      · rw [Function.update_of_ne hnew] at hp
        exact (t.length_le hp).trans (Nat.le_max_left ..) }

@[simp] theorem node_make_self {q : List N} (x : A) (h : t.Room q) :
    (t.make q x h).node q = some x :=
  Function.update_self ..

theorem node_make_of_ne {p q : List N} (hp : p ≠ q) (x : A) (h : t.Room q) :
    (t.make q x h).node p = t.node p :=
  Function.update_of_ne hp ..

/-! ### The root -/

/-- The tree that has only its root. -/
def single (x : A) : FileTree N A isDir where
  node p := if p = [] then some x else none
  height := 0
  exists_dir := by simp
  length_le := by
    intro p hp
    by_cases hnil : p = []
    · rw [hnil, List.length_nil]
    · rw [if_neg hnil] at hp
      cases hp

end FileTree

end OperatingSystems.Library
