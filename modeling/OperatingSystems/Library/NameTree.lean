import Mathlib.Tactic.Common
import Mathlib.Logic.Function.Iterate

/-!
# Trees of named nodes

A tree of nodes in which directories have named entries: every present node other than the root
has exactly one entry, and every directory knows the directory it is entered in. The laws are
fields, so a value of the type is a tree. New nodes can be entered and leaves removed.

A directory reaches the root through its parents (`exists_iterate_parent`); the names met on the
way are its path (`IsPath`).
-/

set_option autoImplicit false
set_option relaxedAutoImplicit false

namespace OperatingSystems.Library

/-- A tree of named nodes. The depth witnesses that no directory is below itself. -/
structure NameTree (I N : Type) where
  present : I → Prop
  isDir : I → Prop
  root : I
  entry : I → N → Option I
  parent : I → I
  depth : I → ℕ
  isDir_root : isDir root
  present_of_isDir : ∀ {i}, isDir i → present i
  entry_present : ∀ {d n c}, isDir d → entry d n = some c → present c ∧ c ≠ root
  entry_inj : ∀ {d d' n n' c}, isDir d → isDir d' → entry d n = some c → entry d' n' = some c →
    d = d' ∧ n = n'
  exists_entry : ∀ {c}, present c → c ≠ root → ∃ d n, isDir d ∧ entry d n = some c
  parent_root : parent root = root
  isDir_parent : ∀ {c}, isDir c → isDir (parent c)
  parent_entry : ∀ {c}, isDir c → c ≠ root → ∃ n, entry (parent c) n = some c
  depth_parent : ∀ {c}, isDir c → c ≠ root → depth c = depth (parent c) + 1

namespace NameTree

variable {I N : Type} (T : NameTree I N)

/-! ### Paths -/

/-- Following parents ends at the root. -/
theorem exists_iterate_parent {c : I} (hc : T.isDir c) : ∃ k, T.parent^[k] c = T.root := by
  -- The depth goes down by one in every step that does not start at the root.
  induction hdepth : T.depth c using Nat.strongRecOn generalizing c with
  | ind m ih =>
    by_cases hroot : c = T.root
    · exact ⟨0, hroot⟩
    · have hlt : T.depth (T.parent c) < m := by
        rw [← hdepth, T.depth_parent hc hroot]
        omega
      obtain ⟨k, hk⟩ := ih _ hlt (T.isDir_parent hc) rfl
      exact ⟨k + 1, hk⟩

/-- A directory that is its own parent is the root. -/
theorem eq_root_of_parent_eq {c : I} (hc : T.isDir c) (hself : T.parent c = c) : c = T.root := by
  by_contra hroot
  have hdepth := T.depth_parent hc hroot
  rw [hself] at hdepth
  omega

/-- No directory is entered in itself. -/
theorem entry_ne {d c : I} {n : N} (hd : T.isDir d) (hn : T.entry d n = some c) : d ≠ c := by
  rintro rfl
  have hroot := (T.entry_present hd hn).2
  obtain ⟨m, hm⟩ := T.parent_entry hd hroot
  exact hroot (T.eq_root_of_parent_eq hd (T.entry_inj (T.isDir_parent hd) hd hm hn).1)

/-- An entry that is a directory has the directory as its parent. -/
theorem depth_entry {d c : I} {n : N} (hd : T.isDir d)
    (hc : T.isDir c) (hn : T.entry d n = some c) : T.depth c = T.depth d + 1 := by
  have hroot := (T.entry_present hd hn).2
  obtain ⟨m, hm⟩ := T.parent_entry hc hroot
  rw [T.depth_parent hc hroot, (T.entry_inj (T.isDir_parent hc) hd hm hn).1]

/-- The names of the entries from the root down to a directory. -/
inductive IsPath : I → List N → Prop
  | root : IsPath T.root []
  | step {c : I} {n : N} {ns : List N} (hc : T.isDir c) (hroot : c ≠ T.root)
      (hentry : T.entry (T.parent c) n = some c) (hpath : IsPath (T.parent c) ns) :
      IsPath c (ns ++ [n])

/-! ### Only the root -/

/-- The tree that has only its root. -/
def single (root : I) : NameTree I N where
  present := fun i ↦ i = root
  isDir := fun i ↦ i = root
  root := root
  entry := fun _ _ ↦ none
  parent := fun _ ↦ root
  depth := fun _ ↦ 0
  isDir_root := rfl
  present_of_isDir := id
  entry_present := fun _ hn ↦ absurd hn (by simp)
  entry_inj := fun _ _ hn ↦ absurd hn (by simp)
  exists_entry := fun hc hroot ↦ absurd hc hroot
  parent_root := rfl
  isDir_parent := fun _ ↦ rfl
  parent_entry := fun hc hroot ↦ absurd hc hroot
  depth_parent := fun hc hroot ↦ absurd hc hroot

/-! ### Entering a node -/

variable [DecidableEq I] [DecidableEq N]

/-- The tree with a new node `c` entered under a free name of the directory `d`. A new directory
has no entries. -/
def add (d c : I) (n : N) (asDir : Prop) (hd : T.isDir d) (hn : T.entry d n = none)
    (hc : ¬ T.present c) : NameTree I N :=
  have hdc : d ≠ c := fun heq ↦ hc (heq ▸ T.present_of_isDir hd)
  have hdir : ∀ {e}, T.isDir e → e ≠ c := fun he heq ↦ hc (heq ▸ T.present_of_isDir he)
  { present := fun i ↦ T.present i ∨ i = c
    isDir := fun i ↦ T.isDir i ∨ asDir ∧ i = c
    root := T.root
    entry := fun e m ↦ if e = d ∧ m = n then some c else if e = c then none else T.entry e m
    parent := fun i ↦ if i = c then d else T.parent i
    depth := fun i ↦ if i = c then T.depth d + 1 else T.depth i
    isDir_root := Or.inl T.isDir_root
    present_of_isDir := fun hi ↦ hi.imp T.present_of_isDir fun hand ↦ hand.2
    entry_present := by
      intro e m x he hx
      split_ifs at hx with hnew hself
      · obtain rfl := Option.some.inj hx
        exact ⟨Or.inr rfl, (hdir T.isDir_root).symm⟩
      · have he' : T.isDir e := he.resolve_right fun hand ↦ hself hand.2
        exact ⟨Or.inl (T.entry_present he' hx).1, (T.entry_present he' hx).2⟩
    entry_inj := by
      intro e e' m m' x he he' hx hx'
      have hold : ∀ {a b}, (T.isDir a ∨ asDir ∧ a = c) → a ≠ c → T.entry a b = some c → False :=
        fun ha hne hb ↦ hc (T.entry_present (ha.resolve_right fun hand ↦ hne hand.2) hb).1
      split_ifs at hx hx' with h₁ h₂ h₂ h₃ h₄
      · exact ⟨h₁.1.trans h₂.1.symm, h₁.2.trans h₂.2.symm⟩
      · obtain rfl := Option.some.inj hx
        exact (hold he' (by assumption) hx').elim
      · obtain rfl := Option.some.inj hx'
        exact (hold he (by assumption) hx).elim
      · exact T.entry_inj (he.resolve_right fun hand ↦ by tauto)
          (he'.resolve_right fun hand ↦ by tauto) hx hx'
    exists_entry := by
      intro x hx hroot
      rcases hx with hx | rfl
      · obtain ⟨e, m, he, hm⟩ := T.exists_entry hx hroot
        refine ⟨e, m, Or.inl he, ?_⟩
        have hnew : ¬ (e = d ∧ m = n) := by
          rintro ⟨rfl, rfl⟩
          rw [hn] at hm
          exact absurd hm (by simp)
        rw [if_neg hnew, if_neg (hdir he), hm]
      · exact ⟨d, n, Or.inl hd, by rw [if_pos ⟨rfl, rfl⟩]⟩
    parent_root := by rw [if_neg (hdir T.isDir_root), T.parent_root]
    isDir_parent := by
      intro x hx
      by_cases hxc : x = c
      · rw [if_pos hxc]
        exact Or.inl hd
      · rw [if_neg hxc]
        exact Or.inl (T.isDir_parent (hx.resolve_right fun hand ↦ hxc hand.2))
    parent_entry := by
      intro x hx hroot
      by_cases hxc : x = c
      · exact ⟨n, by rw [if_pos hxc, if_pos ⟨rfl, rfl⟩, hxc]⟩
      · have hx' : T.isDir x := hx.resolve_right fun hand ↦ hxc hand.2
        obtain ⟨m, hm⟩ := T.parent_entry hx' hroot
        refine ⟨m, ?_⟩
        have hnew : ¬ (T.parent x = d ∧ m = n) := by
          rintro ⟨heq, rfl⟩
          rw [heq, hn] at hm
          exact absurd hm (by simp)
        rw [if_neg hxc, if_neg hnew, if_neg (hdir (T.isDir_parent hx')), hm]
    depth_parent := by
      intro x hx hroot
      by_cases hxc : x = c
      · rw [if_pos hxc, if_pos hxc, if_neg hdc]
      · have hx' : T.isDir x := hx.resolve_right fun hand ↦ hxc hand.2
        rw [if_neg hxc, if_neg hxc, if_neg (hdir (T.isDir_parent hx')), T.depth_parent hx' hroot] }

/-! ### Removing a node -/

/-- The tree without the node `c`, which has no entries of its own. -/
def remove (d c : I) (n : N) (hd : T.isDir d) (hn : T.entry d n = some c)
    (hleaf : T.isDir c → ∀ m, T.entry c m = none) : NameTree I N :=
  have hroot : c ≠ T.root := (T.entry_present hd hn).2
  have hkeep : ∀ {e m x}, T.isDir e → T.entry e m = some x → x ≠ c →
      (if e = d ∧ m = n then none else T.entry e m) = some x := by
    intro e m x he hx hne
    rw [if_neg, hx]
    rintro ⟨rfl, rfl⟩
    rw [hn] at hx
    exact hne (Option.some.inj hx).symm
  { present := fun i ↦ T.present i ∧ i ≠ c
    isDir := fun i ↦ T.isDir i ∧ i ≠ c
    root := T.root
    entry := fun e m ↦ if e = d ∧ m = n then none else T.entry e m
    parent := T.parent
    depth := T.depth
    isDir_root := ⟨T.isDir_root, hroot.symm⟩
    present_of_isDir := fun hi ↦ ⟨T.present_of_isDir hi.1, hi.2⟩
    entry_present := by
      intro e m x he hx
      split_ifs at hx with hold
      have hpresent := T.entry_present he.1 hx
      refine ⟨⟨hpresent.1, ?_⟩, hpresent.2⟩
      rintro rfl
      exact hold (T.entry_inj he.1 hd hx hn)
    entry_inj := by
      intro e e' m m' x he he' hx hx'
      split_ifs at hx hx'
      exact T.entry_inj he.1 he'.1 hx hx'
    exists_entry := by
      intro x hx hxroot
      obtain ⟨e, m, he, hm⟩ := T.exists_entry hx.1 hxroot
      refine ⟨e, m, ⟨he, ?_⟩, hkeep he hm hx.2⟩
      rintro rfl
      rw [hleaf he m] at hm
      exact absurd hm (by simp)
    parent_root := T.parent_root
    isDir_parent := by
      intro x hx
      refine ⟨T.isDir_parent hx.1, ?_⟩
      by_cases hxroot : x = T.root
      · rw [hxroot, T.parent_root]
        exact hroot.symm
      · obtain ⟨m, hm⟩ := T.parent_entry hx.1 hxroot
        intro heq
        have hdirc : T.isDir c := heq ▸ T.isDir_parent hx.1
        rw [heq, hleaf hdirc m] at hm
        exact absurd hm (by simp)
    parent_entry := by
      intro x hx hxroot
      obtain ⟨m, hm⟩ := T.parent_entry hx.1 hxroot
      exact ⟨m, hkeep (T.isDir_parent hx.1) hm hx.2⟩
    depth_parent := fun hx ↦ T.depth_parent hx.1 }

end NameTree

end OperatingSystems.Library
