import Mathlib.Data.List.Nodup
import OperatingSystems.Library.NameTree

/-!
# Going through a tree of named nodes

`preorder` goes through the rows of a directory, and after each row that leads to a directory
through the rows of that directory. The rows are of any type and may be more than the entries of
the tree; `Enumerates` says that each entry that is a directory has exactly one row that leads to
it. Then every row of every directory at or below the first is met (`mem_preorder_iff`), and none
twice (`nodup_preorder`).
-/

set_option autoImplicit false
set_option relaxedAutoImplicit false

namespace OperatingSystems.Library.NameTree

variable {I N : Type} (T : NameTree I N)

/-! ### What is below a directory -/

/-- Following parents leads from one node to the other. -/
def Below (e d : I) : Prop := ∃ k, T.parent^[k] e = d

variable {T} {c c' d e : I}

theorem Below.refl (d : I) : T.Below d d := ⟨0, rfl⟩

/-- What is below a directory is below its parent. -/
theorem Below.trans_parent (h : T.Below e c) : T.Below e (T.parent c) := by
  obtain ⟨k, rfl⟩ := h
  exact ⟨k + 1, Function.iterate_succ_apply' ..⟩

theorem isDir_iterate (he : T.isDir e) (k : ℕ) : T.isDir (T.parent^[k] e) := by
  induction k with
  | zero => exact he
  | succ k ih =>
    rw [Function.iterate_succ_apply']
    exact T.isDir_parent ih

/-- Going up reaches the root or a lower depth. -/
theorem depth_iterate (he : T.isDir e) (k : ℕ) :
    T.parent^[k] e = T.root ∨ T.depth (T.parent^[k] e) + k = T.depth e := by
  induction k with
  | zero => exact .inr rfl
  | succ k ih =>
    rw [Function.iterate_succ_apply']
    by_cases hroot : T.parent^[k] e = T.root
    · rw [hroot, T.parent_root]
      exact .inl rfl
    · have hdepth := T.depth_parent (isDir_iterate he k) hroot
      have hsum := ih.resolve_left hroot
      exact .inr (by omega)

/-- Nothing is less deep than the root. -/
theorem depth_root_le (he : T.isDir e) : T.depth T.root ≤ T.depth e := by
  obtain ⟨k, hk⟩ := T.exists_iterate_parent he
  induction k generalizing e with
  | zero => exact hk ▸ Nat.le_refl _
  | succ k ih =>
    by_cases hroot : e = T.root
    · exact hroot ▸ Nat.le_refl _
    · have hdepth := T.depth_parent he hroot
      have hle := ih (T.isDir_parent he) hk
      omega

theorem Below.depth_le (h : T.Below e d) (he : T.isDir e) : T.depth d ≤ T.depth e := by
  obtain ⟨k, rfl⟩ := h
  rcases depth_iterate he k with hroot | hdepth
  · rw [hroot]
    exact depth_root_le he
  · omega

/-- Of two directories of the same depth, a node is below one at most. -/
theorem Below.eq_of_depth (h : T.Below e c) (h' : T.Below e c') (he : T.isDir e)
    (hdepth : T.depth c = T.depth c') : c = c' := by
  wlog hle : h.choose ≤ h'.choose generalizing c c' h h' with hswap
  · exact (hswap h' h hdepth.symm (by omega)).symm
  obtain ⟨j, hj⟩ := Nat.exists_eq_add_of_le hle
  have hc := h.choose_spec
  have hc' := h'.choose_spec
  rw [hj, Nat.add_comm, Function.iterate_add_apply, hc] at hc'
  have hdir : T.isDir c := hc ▸ isDir_iterate he _
  rcases Nat.eq_zero_or_pos j with rfl | hpos
  · exact hc'
  · obtain ⟨i, rfl⟩ : ∃ i, j = i + 1 := ⟨j - 1, by omega⟩
    by_cases hroot : c = T.root
    · have hfix : ∀ m, T.parent^[m] T.root = T.root := fun m ↦
        Function.iterate_fixed T.parent_root m
      rw [hroot, hfix] at hc'
      rw [hroot, hc']
    · have hup := T.depth_parent hdir hroot
      rw [Function.iterate_succ_apply] at hc'
      have hlow : T.depth c' ≤ T.depth (T.parent c) :=
        Below.depth_le ⟨i, hc'⟩ (T.isDir_parent hdir)
      omega

/-- What is below a directory is the directory, or below one of its entries. -/
theorem below_iff (hd : T.isDir d) (he : T.isDir e) :
    T.Below e d ↔ e = d ∨ ∃ c n, T.isDir c ∧ T.entry d n = some c ∧ T.Below e c := by
  constructor
  · rintro ⟨k, hk⟩
    induction k with
    | zero => exact .inl hk
    | succ k ih =>
      rw [Function.iterate_succ_apply'] at hk
      have hdir := isDir_iterate he k
      by_cases hroot : T.parent^[k] e = T.root
      · rw [hroot, T.parent_root] at hk
        exact ih (hroot.trans hk)
      · obtain ⟨n, hn⟩ := T.parent_entry hdir hroot
        rw [hk] at hn
        exact .inr ⟨_, n, hdir, hn, k, rfl⟩
  · rintro (rfl | ⟨c, n, hc, hn, hbelow⟩)
    · exact Below.refl e
    · obtain ⟨m, hm⟩ := T.parent_entry hc (T.entry_present hd hn).2
      have hparent := (T.entry_inj (T.isDir_parent hc) hd hm hn).1
      exact hparent ▸ hbelow.trans_parent

/-! ### The rows of a directory -/

variable {R : Type}

/-- Go through the rows of a directory, and after a row that leads to a directory through those of
that directory, to the given depth. -/
def preorder (rows : I → List R) (next : R → Option I) : ℕ → I → List (I × R)
  | 0, _ => []
  | depth + 1, d =>
    (rows d).flatMap fun r ↦ (d, r) :: (next r).elim [] (preorder rows next depth)

/-- The rows of each directory are distinct, and those that lead to a directory are its entries that
are directories. -/
structure Enumerates (T : NameTree I N) (rows : I → List R) (next : R → Option I) : Prop where
  nodup : ∀ {d}, T.isDir d → (rows d).Nodup
  sound : ∀ {d r c}, T.isDir d → r ∈ rows d → next r = some c →
    T.isDir c ∧ ∃ n, T.entry d n = some c
  complete : ∀ {d c n}, T.isDir d → T.isDir c → T.entry d n = some c →
    ∃ r ∈ rows d, next r = some c
  inj : ∀ {d r r' c}, T.isDir d → r ∈ rows d → r' ∈ rows d → next r = some c → next r' = some c →
    r = r'

variable {rows : I → List R} {next : R → Option I} {bound : ℕ} {r : R}

/-- Assumes: the depth is enough. The rows that are met are those of the directories at or below
the first. -/
theorem Enumerates.mem_preorder_iff (h : T.Enumerates rows next)
    (hbound : ∀ d, T.isDir d → T.depth d ≤ bound) (depth : ℕ) : ∀ {d : I}, T.isDir d →
    bound < T.depth d + depth →
    ((e, r) ∈ preorder rows next depth d ↔ T.isDir e ∧ T.Below e d ∧ r ∈ rows e) := by
  induction depth with
  | zero => exact fun hd hlt ↦ absurd (hbound _ hd) (Nat.not_le_of_lt hlt)
  | succ depth ih =>
    intro d hd hlt
    have hchild : ∀ {r' c}, r' ∈ rows d → next r' = some c → T.isDir c ∧
        ((e, r) ∈ preorder rows next depth c ↔ T.isDir e ∧ T.Below e c ∧ r ∈ rows e) := by
      intro r' c hr' hc
      obtain ⟨hdir, n, hn⟩ := h.sound hd hr' hc
      have hdepth := T.depth_entry hd hdir hn
      exact ⟨hdir, ih hdir (by omega)⟩
    rw [preorder, List.mem_flatMap]
    constructor
    · rintro ⟨r', hr', hmem⟩
      rcases List.mem_cons.mp hmem with heq | hmem
      · obtain ⟨rfl, rfl⟩ := Prod.mk.inj heq
        exact ⟨hd, Below.refl e, hr'⟩
      · cases hnext : next r' with
        | none =>
          rw [hnext] at hmem
          cases hmem
        | some c =>
          rw [hnext] at hmem
          obtain ⟨hc, hiff⟩ := hchild hr' hnext
          obtain ⟨he, hbelow, hr⟩ := hiff.mp hmem
          obtain ⟨-, n, hn⟩ := h.sound hd hr' hnext
          exact ⟨he, (below_iff hd he).mpr (.inr ⟨c, n, hc, hn, hbelow⟩), hr⟩
    · rintro ⟨he, hbelow, hr⟩
      rcases (below_iff hd he).mp hbelow with rfl | ⟨c, n, hc, hn, hbelow⟩
      · exact ⟨r, hr, List.mem_cons_self⟩
      · obtain ⟨r', hr', hnext⟩ := h.complete hd hc hn
        refine ⟨r', hr', List.mem_cons_of_mem _ ?_⟩
        rw [hnext]
        exact (hchild hr' hnext).2.mpr ⟨he, hbelow, hr⟩

/-- Assumes: the depth is enough. No row of a directory is met twice. -/
theorem Enumerates.nodup_preorder (h : T.Enumerates rows next)
    (hbound : ∀ d, T.isDir d → T.depth d ≤ bound) (depth : ℕ) : ∀ {d : I}, T.isDir d →
    bound < T.depth d + depth → (preorder rows next depth d).Nodup := by
  induction depth with
  | zero => exact fun _ _ ↦ List.nodup_nil
  | succ depth ih =>
    intro d hd hlt
    -- The directories of the rows that are met after a row.
    have hbelow : ∀ {r r' : R} {e : I}, r ∈ rows d →
        (e, r') ∈ (next r).elim [] (preorder rows next depth) →
        ∃ c, next r = some c ∧ T.isDir e ∧ T.Below e c ∧ T.depth c = T.depth d + 1 := by
      intro r r' e hr hmem
      cases hnext : next r with
      | none =>
        rw [hnext] at hmem
        cases hmem
      | some c =>
        rw [hnext] at hmem
        obtain ⟨hc, n, hn⟩ := h.sound hd hr hnext
        have hdepth := T.depth_entry hd hc hn
        obtain ⟨he, hbelow, -⟩ := (h.mem_preorder_iff hbound depth hc (by omega)).mp hmem
        exact ⟨c, rfl, he, hbelow, hdepth⟩
    have hdeeper : ∀ {r r' : R}, r ∈ rows d →
        (d, r') ∉ (next r).elim [] (preorder rows next depth) := by
      intro r r' hr hmem
      obtain ⟨c, -, hdir, hc, hdepth⟩ := hbelow hr hmem
      have hle := hc.depth_le hdir
      omega
    rw [preorder, List.nodup_flatMap]
    refine ⟨fun r hr ↦ List.nodup_cons.mpr ⟨hdeeper hr, ?_⟩, ?_⟩
    · cases hnext : next r with
      | none => exact List.nodup_nil
      | some c =>
        obtain ⟨hc, n, hn⟩ := h.sound hd hr hnext
        have hdepth := T.depth_entry hd hc hn
        exact ih hc (by omega)
    · refine (h.nodup hd).pairwise_of_forall_ne fun r hr r' hr' hne ↦ ?_
      rintro ⟨e, r''⟩ hmem hmem'
      rcases List.mem_cons.mp hmem with heq | hmem <;> rcases List.mem_cons.mp hmem' with
          heq' | hmem'
      · exact hne ((Prod.mk.inj heq).2.symm.trans (Prod.mk.inj heq').2)
      · exact hdeeper hr' ((Prod.mk.inj heq).1 ▸ hmem')
      · exact hdeeper hr ((Prod.mk.inj heq').1 ▸ hmem)
      · obtain ⟨c, hnext, he, hc, hdepth⟩ := hbelow hr hmem
        obtain ⟨c', hnext', -, hc', hdepth'⟩ := hbelow hr' hmem'
        rw [hc.eq_of_depth hc' he (hdepth.trans hdepth'.symm)] at hnext
        exact hne (h.inj hd hr hr' hnext hnext')

end OperatingSystems.Library.NameTree
