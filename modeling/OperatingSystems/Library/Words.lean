import Mathlib.Data.List.TakeWhile

/-!
# The words of a text

`words sep l` are the maximal runs of `l` without a separator, in their order. A tokenizer takes
them from the front, one by one: `words_eq_nil_iff` and `words_eq_cons` say what the first word is
and what remains. A scanner that goes through the text once (`scan`) has all words but the one that
the text ends with, if it does (`words_eq_scan`).
-/

set_option autoImplicit false
set_option relaxedAutoImplicit false

namespace OperatingSystems.Library

universe u

variable {α : Type u} {sep : α → Bool}

/-- The maximal runs of a list without a separator. -/
def words (sep : α → Bool) (l : List α) : List (List α) :=
  (l.splitOnP sep).filter fun w ↦ !w.isEmpty

@[simp] theorem words_nil : words sep [] = [] := rfl

/-- A separator in front of a text is no part of a word. -/
theorem words_cons_of_sep {c : α} (hc : sep c = true) (l : List α) :
    words sep (c :: l) = words sep l := by
  rw [words, List.splitOnP_cons_eq_if_modifyHead, if_pos hc]
  rfl

/-- The words on both sides of a separator. -/
theorem words_append_sep_cons {c : α} (hc : sep c = true) (l r : List α) :
    words sep (l ++ c :: r) = words sep l ++ words sep r := by
  rw [words, List.splitOnP_append_cons l r hc, List.filter_append, words, words]

/-- A run that is ended by a separator is a word. -/
theorem words_append_cons {w : List α} {c : α} (hw : ∀ d ∈ w, sep d = false) (hne : w ≠ [])
    (hc : sep c = true) (l : List α) : words sep (w ++ c :: l) = w :: words sep l := by
  rw [words, List.splitOnP_append_cons_of_forall_mem hw c hc]
  exact List.filter_cons_of_pos (by simpa using hne)

/-- A run that the text ends with is a word. -/
theorem words_eq_singleton {w : List α} (hw : ∀ d ∈ w, sep d = false) (hne : w ≠ []) :
    words sep w = [w] := by
  rw [words, List.splitOnP_eq_singleton hw]
  exact List.filter_cons_of_pos (by simpa using hne)

/-- Separators in front of a text are no part of a word. -/
theorem words_append_of_sep {r : List α} (hr : ∀ c ∈ r, sep c = true) (l : List α) :
    words sep (r ++ l) = words sep l := by
  induction r with
  | nil => rfl
  | cons c r ih =>
    rw [List.cons_append, words_cons_of_sep (hr c List.mem_cons_self),
      ih fun d hd ↦ hr d (List.mem_cons_of_mem c hd)]

/-- A text of separators has no word. -/
theorem words_eq_nil {r : List α} (hr : ∀ c ∈ r, sep c = true) : words sep r = [] := by
  rw [← List.append_nil r, words_append_of_sep hr, words_nil]

/-- Separators behind a text are no part of a word. -/
theorem words_append_right_of_sep {r : List α} (hr : ∀ c ∈ r, sep c = true) (l : List α) :
    words sep (l ++ r) = words sep l := by
  cases r with
  | nil => rw [List.append_nil]
  | cons c r =>
    rw [words_append_sep_cons (hr c List.mem_cons_self),
      words_eq_nil fun d hd ↦ hr d (List.mem_cons_of_mem c hd), List.append_nil]

theorem words_dropWhile (l : List α) : words sep (l.dropWhile sep) = words sep l := by
  have hskip : ∀ c ∈ l.takeWhile sep, sep c = true := fun c hc ↦ List.mem_takeWhile_imp hc
  have hsplit := words_append_of_sep hskip (l.dropWhile sep)
  rw [List.takeWhile_append_dropWhile] at hsplit
  exact hsplit.symm

/-- The first word is the run after the separators in front, and the other words are those of what
follows it. -/
theorem words_eq_cons {l : List α} (h : l.dropWhile sep ≠ []) :
    (l.dropWhile sep).takeWhile (fun c ↦ !sep c) ≠ [] ∧
      words sep l = (l.dropWhile sep).takeWhile (fun c ↦ !sep c) ::
        words sep ((l.dropWhile sep).dropWhile fun c ↦ !sep c) := by
  have hhead := List.head_dropWhile_not sep h
  rw [← words_dropWhile]
  generalize l.dropWhile sep = t at h hhead ⊢
  have hrun : ∀ d ∈ t.takeWhile (fun c ↦ !sep c), sep d = false := fun d hd ↦ by
    simpa using List.mem_takeWhile_imp hd
  have hne : t.takeWhile (fun c ↦ !sep c) ≠ [] := by
    obtain ⟨c, r, rfl⟩ := List.exists_cons_of_ne_nil h
    rw [List.head_cons] at hhead
    rw [List.takeWhile_cons_of_pos (by rw [hhead]; rfl)]
    exact List.cons_ne_nil _ _
  refine ⟨hne, ?_⟩
  have hsplit := @List.takeWhile_append_dropWhile _ (fun c ↦ !sep c) t
  cases hrest : t.dropWhile fun c ↦ !sep c with
  | nil =>
    rw [hrest, List.append_nil] at hsplit
    rw [hsplit, words_nil]
    exact words_eq_singleton (hsplit ▸ hrun) h
  | cons c r =>
    have hc := List.head?_dropWhile_not (fun c ↦ !sep c) t
    rw [hrest] at hc
    have hc' : sep c = true := by simpa using hc
    have hwords := words_append_cons hrun hne hc' r
    rw [← hrest, hsplit] at hwords
    rw [hwords, words_cons_of_sep hc']

/-- There is no word exactly if there are separators only. -/
theorem words_eq_nil_iff {l : List α} : words sep l = [] ↔ l.dropWhile sep = [] := by
  refine ⟨fun h ↦ ?_, fun h ↦ ?_⟩
  · by_contra hne
    rw [(words_eq_cons hne).2] at h
    cases h
  · rw [← words_dropWhile, h, words_nil]

/-- A run in front of a text is part of its first word. -/
theorem exists_word_of_run {r : List α} (hr : ∀ c ∈ r, sep c = false) (hne : r ≠ []) (l : List α) :
    ∃ w ∈ words sep (r ++ l), r <+: w := by
  have hskip : (r ++ l).dropWhile sep = r ++ l := by
    obtain ⟨c, r, rfl⟩ := List.exists_cons_of_ne_nil hne
    exact List.dropWhile_cons_of_neg (by simp [hr c List.mem_cons_self])
  have hdrop : (r ++ l).dropWhile sep ≠ [] := by
    rw [hskip]
    exact List.append_ne_nil_of_left_ne_nil hne l
  have hwords := words_eq_cons hdrop
  rw [hskip, List.takeWhile_append_of_pos fun c hc ↦ by rw [hr c hc]; rfl] at hwords
  rw [hwords.2]
  exact ⟨_, List.mem_cons_self, List.prefix_append r _⟩

/-! ### Scanning -/

/-- Go through a text with a run at hand: the words that are ended by a separator, and the run at
the end. -/
def scan (sep : α → Bool) : List α → List α → List (List α) × List α
  | run, [] => ([], run)
  | run, c :: l =>
    if sep c then
      if run = [] then scan sep [] l else (run :: (scan sep [] l).1, (scan sep [] l).2)
    else scan sep (run ++ [c]) l

variable {run : List α}

/-- A separator joins no run. -/
theorem forall_mem_snoc {c : α} (hrun : ∀ d ∈ run, sep d = false) (hc : ¬sep c = true) :
    ∀ d ∈ run ++ [c], sep d = false := by
  intro d hd
  rcases List.mem_append.mp hd with hd | hd
  · exact hrun d hd
  · rw [List.mem_singleton.mp hd]
    exact Bool.eq_false_iff.mpr hc

/-- The words of a text are those the scanner has and the run it ends with. -/
theorem words_append_eq_scan (hrun : ∀ d ∈ run, sep d = false) (l : List α) :
    words sep (run ++ l) =
      (scan sep run l).1 ++ if (scan sep run l).2 = [] then [] else [(scan sep run l).2] := by
  induction l generalizing run with
  | nil =>
    rw [List.append_nil, scan, List.nil_append]
    by_cases hne : run = []
    · rw [if_pos hne, hne, words_nil]
    · rw [if_neg hne]
      exact words_eq_singleton hrun hne
  | cons c l ih =>
    rw [scan]
    by_cases hc : sep c = true
    · have hrest := ih (List.forall_mem_nil _)
      rw [List.nil_append] at hrest
      rw [if_pos hc]
      by_cases hne : run = []
      · rw [if_pos hne, hne, List.nil_append, words_cons_of_sep hc, hrest]
      · rw [if_neg hne, words_append_cons hrun hne hc, hrest]
        rfl
    · rw [if_neg hc, ← ih (forall_mem_snoc hrun hc), List.append_assoc, List.singleton_append]

/-- The words of a text are those the scanner has and the run it ends with. -/
theorem words_eq_scan (l : List α) :
    words sep l = (scan sep [] l).1 ++ if (scan sep [] l).2 = [] then [] else [(scan sep [] l).2] :=
  words_append_eq_scan (List.forall_mem_nil _) l

/-- There is no run at the end exactly if the text is empty or ends with a separator. -/
theorem scan_snd_eq_nil_iff (hrun : ∀ d ∈ run, sep d = false) (l : List α) :
    (scan sep run l).2 = [] ↔ ∀ c ∈ (run ++ l).getLast?, sep c = true := by
  induction l generalizing run with
  | nil =>
    rw [scan, List.append_nil]
    refine ⟨fun h ↦ ?_, fun h ↦ ?_⟩
    · have hempty : run = [] := h
      simp [hempty]
    · by_contra hne
      have hlast := h _ (List.getLast?_eq_some_getLast hne)
      rw [hrun _ (List.getLast_mem hne)] at hlast
      cases hlast
  | cons c l ih =>
    rw [scan]
    by_cases hc : sep c = true
    · have hrest := ih (List.forall_mem_nil _)
      rw [List.nil_append] at hrest
      have hsnd : (if run = [] then scan sep [] l
          else (run :: (scan sep [] l).1, (scan sep [] l).2)).2 = (scan sep [] l).2 := by
        split_ifs <;> rfl
      rw [if_pos hc, hsnd, hrest, List.getLast?_append, List.getLast?_cons]
      cases hlast : l.getLast? with
      | none => simp [hc]
      | some d => simp
    · rw [if_neg hc, ih (forall_mem_snoc hrun hc), List.append_assoc, List.singleton_append]

/-- Nothing the scanner has contains a separator. -/
theorem not_sep_of_scan (hrun : ∀ d ∈ run, sep d = false) (l : List α) :
    (∀ w ∈ (scan sep run l).1, ∀ d ∈ w, sep d = false) ∧ ∀ d ∈ (scan sep run l).2,
      sep d = false := by
  induction l generalizing run with
  | nil => exact ⟨List.forall_mem_nil _, hrun⟩
  | cons c l ih =>
    rw [scan]
    by_cases hc : sep c = true
    · obtain ⟨hwords, hend⟩ := ih (List.forall_mem_nil _)
      rw [if_pos hc]
      split_ifs
      · exact ⟨hwords, hend⟩
      · refine ⟨fun w hw ↦ ?_, hend⟩
        rcases List.mem_cons.mp hw with rfl | hw
        · exact hrun
        · exact hwords w hw
    · rw [if_neg hc]
      exact ih (forall_mem_snoc hrun hc)

/-- A word has no separator. -/
theorem not_sep_of_mem_words {l w : List α} (hw : w ∈ words sep l) : ∀ d ∈ w, sep d = false := by
  obtain ⟨hwords, hend⟩ := @not_sep_of_scan _ sep [] (List.forall_mem_nil _) l
  rw [words_eq_scan, List.mem_append] at hw
  rcases hw with hw | hw
  · exact hwords w hw
  · split_ifs at hw
    · cases hw
    · rw [List.mem_singleton.mp hw]
      exact hend

/-! ### The first separator -/

/-- A text is split at the first occurrence of a character in one way. -/
theorem eq_of_append_cons [DecidableEq α] {l l' r r' : List α} {c : α} (hl : c ∉ l) (hl' : c ∉ l')
    (h : l ++ c :: r = l' ++ c :: r') : l = l' ∧ r = r' := by
  have htake : ∀ (m s : List α), c ∉ m → (m ++ c :: s).takeWhile (fun d ↦ decide (d ≠ c)) = m := by
    intro m s hm
    rw [List.takeWhile_append_of_pos fun d hd ↦
      decide_eq_true (ne_of_mem_of_not_mem hd hm), List.takeWhile_cons_of_neg (by simp),
      List.append_nil]
  have heq : l = l' := by rw [← htake l r hl, h, htake l' r' hl']
  subst heq
  exact ⟨rfl, (List.cons.inj (List.append_cancel_left h)).2⟩

end OperatingSystems.Library
