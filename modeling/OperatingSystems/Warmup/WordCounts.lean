import OperatingSystems.Warmup.Wc

/-!
# What the word counter prints

`wcLoop_eq` says that the loop of `wc_init` adds to the table the words that a scanner of the text
has, and runs over its counter exactly on a text of `2 ^ 31` characters or more. `Counts` is what
the table says about the words added to it, whatever their hashes: it is kept by every addition
(`Counts.addWord`), and with it `wc_output` may stop when it has printed as many elements as there
are (`Counts.outputLoop_eq`).

The word that a text ends with is not among those the scanner has, so the output is right exactly if
there is no such word.
-/

set_option autoImplicit false
set_option relaxedAutoImplicit false

namespace OperatingSystems.Warmup

open Library

variable {wc : Wc} {text word w : List UInt8} {added : List (List UInt8)} {n i : ℕ}
  {chain : List WcEle}

/-! ### The loop over the text -/

theorem cString_eq (h : 0 ∉ text) : cString text = text :=
  List.takeWhile_eq_self_iff.mpr fun _ hc ↦ decide_eq_true (ne_of_mem_of_not_mem hc h)

/-- The turns of the loop, given the words before it. -/
theorem wcLoop_eq {currentWord rest : List UInt8} (hnul : 0 ∉ currentWord ++ rest)
    (hrun : ∀ c ∈ currentWord, isspace c = false)
    (hshort : ∀ w ∈ words isspace (currentWord ++ rest), w.length < 100) (hi : i < 2 ^ 31) :
    wcLoop i currentWord wc rest =
      if i + rest.length < 2 ^ 31 then
        .ok ((scan isspace currentWord rest).1.foldl addWord wc)
      else .error .intOverflow := by
  induction rest generalizing i currentWord wc with
  | nil => rw [wcLoop, List.length_nil, Nat.add_zero, if_pos hi, scan, List.foldl_nil]
  | cons c rest ih =>
    -- The increment fails exactly if the rest is too long.
    have hnext : ∀ {currentWord : List UInt8} {wc : Wc}, 0 ∉ currentWord ++ rest →
        (∀ c ∈ currentWord, isspace c = false) →
        (∀ w ∈ words isspace (currentWord ++ rest), w.length < 100) →
        (if i + 1 = 2 ^ 31 then .error .intOverflow else wcLoop (i + 1) currentWord wc rest) =
          if i + (c :: rest).length < 2 ^ 31 then
            .ok ((scan isspace currentWord rest).1.foldl addWord wc)
          else .error .intOverflow := by
      intro currentWord wc hnul hrun hshort
      rw [List.length_cons]
      by_cases hlast : i + 1 = 2 ^ 31
      · rw [if_pos hlast, if_neg (by omega)]
      · rw [if_neg hlast, ih hnul hrun hshort (by omega)]
        congr 2
        omega
    have hcurrent : 0 ∉ currentWord := fun hmem ↦ hnul (List.mem_append_left _ hmem)
    have hrest : 0 ∉ rest := fun hmem ↦ hnul (List.mem_append_right _ (List.mem_cons_of_mem c hmem))
    rw [wcLoop, scan]
    by_cases hc : isspace c = true
    · rw [if_pos hc, if_pos hc, cString_eq hcurrent]
      by_cases hempty : currentWord = []
      · subst hempty
        rw [if_pos rfl, if_pos rfl]
        rw [List.nil_append, words_cons_of_sep hc] at hshort
        exact hnext hrest (List.forall_mem_nil _) hshort
      · rw [if_neg hempty, if_neg hempty]
        rw [words_append_cons hrun hempty hc] at hshort
        exact hnext hrest (List.forall_mem_nil _) fun w hw ↦ hshort w (List.mem_cons_of_mem _ hw)
    · have hsnoc : currentWord ++ c :: rest = currentWord ++ [c] ++ rest := by simp
      rw [hsnoc] at hnul hshort
      obtain ⟨w, hw, hlength⟩ := exists_word_of_run (forall_mem_snoc hrun hc)
        (List.concat_ne_nil c currentWord) rest
      have hfits : currentWord.length + 1 < 100 := by
        have hle := hlength.length_le
        rw [List.length_append, List.length_singleton] at hle
        exact hle.trans_lt (hshort w hw)
      rw [if_neg hc, if_neg hc, if_pos hfits]
      exact hnext hnul (forall_mem_snoc hrun hc) hshort

/-! ### Chains -/

/-- What the search of a chain does to the elements of a word: it counts one more, or makes the
first. -/
theorem mem_addToChain_self (hnodup : (chain.map WcEle.word).Nodup) :
    ⟨word, n⟩ ∈ (addToChain word chain).1 ↔
      (∃ m, ⟨word, m⟩ ∈ chain ∧ n = m + 1) ∨ (word ∉ chain.map WcEle.word ∧ n = 1) := by
  induction chain with
  | nil => simp [addToChain]
  | cons ele chain ih =>
    obtain ⟨v, k⟩ := ele
    rw [List.map_cons, List.nodup_cons] at hnodup
    rw [addToChain]
    by_cases hv : v = word
    · subst hv
      have hnot : ∀ m, ⟨v, m⟩ ∉ chain := fun m hm ↦
        hnodup.1 (List.mem_map.mpr ⟨⟨v, m⟩, hm, rfl⟩)
      simp [hnot]
    · have hne : ∀ m, (⟨word, m⟩ : WcEle) ≠ ⟨v, k⟩ := fun m heq ↦ hv (WcEle.mk.inj heq).1.symm
      simp only [if_neg hv, List.mem_cons, hne, false_or, ih hnodup.2, List.map_cons, not_or]
      have hvw : word ≠ v := fun heq ↦ hv heq.symm
      simp [hvw]

/-- The elements of other words stay. -/
theorem mem_addToChain_of_ne (hw : w ≠ word) :
    ⟨w, n⟩ ∈ (addToChain word chain).1 ↔ ⟨w, n⟩ ∈ chain := by
  induction chain with
  | nil => simp [addToChain, hw]
  | cons ele chain ih =>
    rw [addToChain]
    by_cases hv : ele.word = word
    · rw [if_pos hv, List.mem_cons, List.mem_cons]
      have hne : ∀ k, (⟨w, n⟩ : WcEle) ≠ ⟨ele.word, k⟩ := fun k heq ↦
        hw ((WcEle.mk.inj heq).1.trans hv)
      simp only [hne, false_or]
    · rw [if_neg hv, List.mem_cons, List.mem_cons, ih]

/-- The words of a chain after the search. -/
theorem map_word_addToChain : (addToChain word chain).1.map WcEle.word =
    if word ∈ chain.map WcEle.word then chain.map WcEle.word
    else chain.map WcEle.word ++ [word] := by
  induction chain with
  | nil => rfl
  | cons ele chain ih =>
    rw [addToChain]
    by_cases hv : ele.word = word
    · rw [if_pos hv, if_pos (by rw [List.map_cons, hv]; exact List.mem_cons_self)]
      rfl
    · have hvw : word ≠ ele.word := fun heq ↦ hv heq.symm
      rw [if_neg hv, List.map_cons, ih, List.map_cons]
      by_cases hmem : word ∈ chain.map WcEle.word
      · rw [if_pos hmem, if_pos (List.mem_cons_of_mem _ hmem)]
      · rw [if_neg hmem, if_neg fun hcons ↦ (List.mem_cons.mp hcons).elim hvw hmem,
          List.cons_append]

/-- Whether an element was appended. -/
theorem addToChain_snd : (addToChain word chain).2 = decide (word ∉ chain.map WcEle.word) := by
  induction chain with
  | nil => rfl
  | cons ele chain ih =>
    rw [addToChain]
    by_cases hv : ele.word = word
    · rw [if_pos hv, eq_comm, decide_eq_false_iff_not, not_not, List.map_cons, hv]
      exact List.mem_cons_self
    · have hvw : word ≠ ele.word := fun heq ↦ hv heq.symm
      rw [if_neg hv, ih]
      simp [hvw]

/-! ### The table -/

/-- The bucket of a word. -/
def bucketOf (wc : Wc) (word : List UInt8) : ℕ := (hash word).toNat % wc.capacity

/-- The elements of a number of buckets, in the order of the table. -/
def elements (wc : Wc) (start n : ℕ) : List WcEle := (List.range' start n).flatMap wc.hashTable

/-- The table has an element for every word that was added, with the number of times, and no
others. -/
structure Counts (wc : Wc) (added : List (List UInt8)) : Prop where
  bucket : ∀ i, ∀ ele ∈ wc.hashTable i, bucketOf wc ele.word = i
  nodup : ∀ i, ((wc.hashTable i).map WcEle.word).Nodup
  mem : ∀ w n, ⟨w, n⟩ ∈ wc.hashTable (bucketOf wc w) ↔ w ∈ added ∧ n = added.count w
  size : wc.size = (elements wc 0 wc.capacity).length

/-- A word has an element exactly if it was added. -/
theorem Counts.mem_map_iff (h : Counts wc added) (w : List UInt8) :
    w ∈ (wc.hashTable (bucketOf wc w)).map WcEle.word ↔ w ∈ added := by
  constructor
  · intro hw
    obtain ⟨ele, hele, rfl⟩ := List.mem_map.mp hw
    exact ((h.mem ele.word ele.numOccurrences).mp hele).1
  · exact fun hw ↦ List.mem_map.mpr ⟨_, (h.mem w (added.count w)).mpr ⟨hw, rfl⟩, rfl⟩

/-- The number of elements when one bucket changes. -/
theorem length_elements_update {k start : ℕ} (hk : start ≤ k) (hlt : k < start + n)
    (table : ℕ → List WcEle) (chain : List WcEle) :
    ((List.range' start n).flatMap (Function.update table k chain)).length + (table k).length =
      ((List.range' start n).flatMap table).length + chain.length := by
  induction n generalizing start with
  | zero => omega
  | succ n ih =>
    rw [List.range'_succ, List.flatMap_cons, List.flatMap_cons, List.length_append,
      List.length_append]
    by_cases heq : start = k
    · subst heq
      have hrest : (List.range' (start + 1) n).flatMap (Function.update table start chain) =
          (List.range' (start + 1) n).flatMap table := by
        refine List.flatMap_congr fun j hj ↦ Function.update_of_ne ?_ ..
        have hrange := (List.mem_range'_1.mp hj).1
        omega
      rw [hrest, Function.update_self]
      omega
    · rw [Function.update_of_ne heq]
      have hrest := @ih (start + 1) (by omega) (by omega)
      omega

/-- Adding a word counts it. -/
theorem Counts.addWord (h : Counts wc added) (hcapacity : 0 < wc.capacity) (word : List UInt8) :
    Counts (addWord wc word) (added ++ [word]) := by
  obtain ⟨k, hk⟩ : ∃ k, k = bucketOf wc word := ⟨_, rfl⟩
  have htable : (Warmup.addWord wc word).hashTable =
      Function.update wc.hashTable k (addToChain word (wc.hashTable k)).1 := by
    rw [hk]
    rfl
  have hbucket : ∀ w, bucketOf (Warmup.addWord wc word) w = bucketOf wc w := fun _ ↦ rfl
  have hword := h.mem_map_iff word
  rw [← hk] at hword
  constructor
  · intro i ele hele
    rw [htable] at hele
    rw [hbucket]
    by_cases hi : i = k
    · subst hi
      rw [Function.update_self] at hele
      by_cases hw : ele.word = word
      · rw [hw, hk]
      · exact h.bucket _ ele ((mem_addToChain_of_ne hw).mp hele)
    · rw [Function.update_of_ne hi] at hele
      exact h.bucket i ele hele
  · intro i
    rw [htable]
    by_cases hi : i = k
    · subst hi
      rw [Function.update_self, map_word_addToChain]
      split_ifs with hmem
      · exact h.nodup i
      · exact List.nodup_append.mpr ⟨h.nodup i, List.nodup_singleton word, fun v hv u hu ↦ by
          rw [List.mem_singleton.mp hu]
          exact ne_of_mem_of_not_mem hv hmem⟩
    · rw [Function.update_of_ne hi]
      exact h.nodup i
  · intro w n
    rw [hbucket, htable, List.mem_append, List.mem_singleton, List.count_append]
    by_cases hw : w = word
    · subst hw
      rw [← hk, Function.update_self, mem_addToChain_self (h.nodup k), hword,
        List.count_singleton_self]
      have hold : ∀ m, ⟨w, m⟩ ∈ wc.hashTable k ↔ w ∈ added ∧ m = added.count w := fun m ↦ by
        rw [hk]
        exact h.mem w m
      simp only [hold]
      constructor
      · rintro (⟨m, ⟨-, rfl⟩, rfl⟩ | ⟨hnew, rfl⟩)
        · exact ⟨.inr trivial, rfl⟩
        · exact ⟨.inr trivial, by rw [List.count_eq_zero_of_not_mem hnew]⟩
      · rintro ⟨-, rfl⟩
        by_cases hmem : w ∈ added
        · exact .inl ⟨_, ⟨hmem, rfl⟩, rfl⟩
        · exact .inr ⟨hmem, by rw [List.count_eq_zero_of_not_mem hmem]⟩
    · have hcount : [word].count w = 0 := List.count_eq_zero_of_not_mem (by simpa using hw)
      rw [hcount, Nat.add_zero, or_iff_left hw, ← h.mem w n]
      by_cases hi : bucketOf wc w = k
      · rw [hi, Function.update_self, mem_addToChain_of_ne hw]
      · rw [Function.update_of_ne hi]
  · have hlt : k < 0 + wc.capacity := by
      rw [hk, Nat.zero_add]
      exact Nat.mod_lt _ hcapacity
    have hlength := length_elements_update (Nat.zero_le k) hlt wc.hashTable
      (addToChain word (wc.hashTable k)).1
    have hchain := congrArg List.length (@map_word_addToChain word (wc.hashTable k))
    have hsize : (Warmup.addWord wc word).size =
        if (addToChain word (wc.hashTable k)).2 then wc.size + 1 else wc.size := by
      rw [hk]
      rfl
    have helements : elements (Warmup.addWord wc word) 0 (Warmup.addWord wc word).capacity =
        (List.range' 0 wc.capacity).flatMap
          (Function.update wc.hashTable k (addToChain word (wc.hashTable k)).1) := by
      rw [elements, htable]
      rfl
    rw [hsize, helements, addToChain_snd, h.size, elements]
    rw [List.length_map] at hchain
    by_cases hmem : word ∈ (wc.hashTable k).map WcEle.word
    · rw [if_pos hmem, List.length_map] at hchain
      simp only [hmem, not_true_eq_false, decide_false, Bool.false_eq_true, if_false]
      omega
    · rw [if_neg hmem, List.length_append, List.length_map, List.length_singleton] at hchain
      simp only [hmem, not_false_eq_true, decide_true, if_true]
      omega

/-- The table of a new counter. -/
theorem Counts.init (capacity : ℕ) : Counts ⟨fun _ ↦ [], 0, capacity⟩ [] where
  bucket _ _ h := by cases h
  nodup _ := List.nodup_nil
  mem w n := by simp
  size := by simp [elements]

/-- Adding words counts them. -/
theorem Counts.foldl (h : Counts wc added) (hcapacity : 0 < wc.capacity)
    (new : List (List UInt8)) :
    Counts (new.foldl Warmup.addWord wc) (added ++ new) ∧
      (new.foldl Warmup.addWord wc).capacity = wc.capacity := by
  induction new generalizing wc added with
  | nil => exact ⟨by rw [List.append_nil]; exact h, rfl⟩
  | cons w new ih =>
    obtain ⟨hcounts, hsame⟩ := ih (h.addWord hcapacity w) hcapacity
    rw [List.append_assoc, List.singleton_append] at hcounts
    exact ⟨hcounts, hsame⟩

/-! ### The output -/

theorem elements_succ (wc : Wc) (start n : ℕ) :
    elements wc start (n + 1) = wc.hashTable start ++ elements wc (start + 1) n := by
  rw [elements, List.range'_succ, List.flatMap_cons, elements]

/-- Assumes: the elements printed and those to come are as many as there are. The loop that stops
early prints what is to come. -/
theorem outputLoop_eq {start numPrinted : ℕ}
    (h : wc.size = numPrinted + (elements wc start n).length) :
    outputLoop wc n start numPrinted = elements wc start n := by
  induction n generalizing start numPrinted with
  | zero => rfl
  | succ n ih =>
    rw [elements_succ, List.length_append] at h
    rw [outputLoop, elements_succ]
    split_ifs with hdone
    · have hnone : elements wc (start + 1) n = [] := List.length_eq_zero_iff.mp (by omega)
      rw [hnone]
    · rw [ih (by omega)]

/-- The elements of the whole table. -/
theorem Counts.mem_elements (h : Counts wc added) (hcapacity : 0 < wc.capacity) (w : List UInt8)
    (n : ℕ) : ⟨w, n⟩ ∈ elements wc 0 wc.capacity ↔ w ∈ added ∧ n = added.count w := by
  rw [elements, List.mem_flatMap, ← h.mem]
  constructor
  · rintro ⟨i, -, hele⟩
    rw [← h.bucket i _ hele] at hele
    exact hele
  · intro hele
    refine ⟨bucketOf wc w, List.mem_range'_1.mpr ⟨Nat.zero_le _, ?_⟩, hele⟩
    rw [Nat.zero_add]
    exact Nat.mod_lt _ hcapacity

/-- No word has two elements. -/
theorem Counts.nodup_elements (h : Counts wc added) (start n : ℕ) :
    ((elements wc start n).map WcEle.word).Nodup := by
  induction n generalizing start with
  | zero => exact List.nodup_nil
  | succ n ih =>
    rw [elements_succ, List.map_append, List.nodup_append]
    refine ⟨h.nodup start, ih (start + 1), fun v hv u hu heq ↦ ?_⟩
    obtain ⟨ele, hele, rfl⟩ := List.mem_map.mp hv
    obtain ⟨ele', hele', rfl⟩ := List.mem_map.mp hu
    obtain ⟨i, hi, hmem⟩ := List.mem_flatMap.mp hele'
    -- Elements of one word are in one bucket.
    have hfirst := h.bucket start ele hele
    have hsecond := h.bucket i ele' hmem
    have hrange := (List.mem_range'_1.mp hi).1
    rw [heq, hsecond] at hfirst
    omega

/-- The line of an element determines it. -/
theorem outputLine_append_inj {ele ele' : WcEle} {r r' : List UInt8} (hele : 10 ∉ ele.word)
    (hele' : 10 ∉ ele'.word) (h : outputLine ele ++ r = outputLine ele' ++ r') :
    ele = ele' ∧ r = r' := by
  have hdigit : ∀ {k : ℕ} {c : UInt8}, c.toNat < 48 ∨ 57 < c.toNat → c ∉ digitBytes k := by
    intro k c hc hmem
    have hrange := range_of_mem_digitBytes hmem
    omega
  have hline : ∀ {e : WcEle}, 10 ∉ e.word →
      (10 : UInt8) ∉ e.word ++ 58 :: digitBytes e.numOccurrences := by
    intro e he hmem
    rcases List.mem_append.mp hmem with hw | hw
    · exact he hw
    · rcases List.mem_cons.mp hw with hcolon | hdigits
      · exact absurd hcolon (by decide)
      · exact hdigit (by decide) hdigits
  have hsplit : ∀ (e : WcEle) (s : List UInt8),
      outputLine e ++ s = (e.word ++ 58 :: digitBytes e.numOccurrences) ++ 10 :: s := fun e s ↦ by
    simp [outputLine]
  rw [hsplit, hsplit] at h
  obtain ⟨hbody, hrest⟩ := eq_of_append_cons (hline hele) (hline hele') h
  -- The number is what follows the last colon.
  have hreverse := congrArg List.reverse hbody
  rw [List.reverse_append, List.reverse_append, List.reverse_cons, List.reverse_cons,
    List.append_assoc, List.append_assoc, List.singleton_append, List.singleton_append] at hreverse
  obtain ⟨hdigits, hword⟩ := eq_of_append_cons
    (by rw [List.mem_reverse]; exact hdigit (by decide))
    (by rw [List.mem_reverse]; exact hdigit (by decide)) hreverse
  have hnum := digitBytes_injective (List.reverse_injective hdigits)
  have hsame := List.reverse_injective hword
  obtain ⟨v, k⟩ := ele
  obtain ⟨v', k'⟩ := ele'
  obtain rfl : v = v' := hsame
  obtain rfl : k = k' := hnum
  exact ⟨rfl, hrest⟩

/-- The lines of elements determine them. -/
theorem flatMap_outputLine_inj {eles eles' : List WcEle} (heles : ∀ ele ∈ eles, 10 ∉ ele.word)
    (heles' : ∀ ele ∈ eles', 10 ∉ ele.word)
    (h : eles.flatMap outputLine = eles'.flatMap outputLine) : eles = eles' := by
  have hne : ∀ (ele : WcEle) (r : List UInt8), outputLine ele ++ r ≠ [] := fun ele r heq ↦ by
    simp [outputLine] at heq
  induction eles generalizing eles' with
  | nil =>
    cases eles' with
    | nil => rfl
    | cons ele' eles' => exact absurd h.symm (hne ele' _)
  | cons ele eles ih =>
    cases eles' with
    | nil => exact absurd h (hne ele _)
    | cons ele' eles' =>
      rw [List.flatMap_cons, List.flatMap_cons] at h
      obtain ⟨rfl, hrest⟩ := outputLine_append_inj (heles ele List.mem_cons_self)
        (heles' ele' List.mem_cons_self) h
      rw [ih (fun e he ↦ heles e (List.mem_cons_of_mem _ he))
        (fun e he ↦ heles' e (List.mem_cons_of_mem _ he)) hrest]

/-! ### Main results -/

/-- The output lists each word once, with the number of its occurrences, and nothing else. -/
def IsWordCount (wordArray output : List UInt8) : Prop :=
  ∃ eles : List WcEle, output = eles.flatMap outputLine ∧ (eles.map WcEle.word).Nodup ∧
    ∀ w n, ⟨w, n⟩ ∈ eles ↔
      w ∈ words isspace wordArray ∧ n = (words isspace wordArray).count w

/-- Assumes: no NUL, and no word too long for the array. What is printed are the words that are
followed by a space, if the text is not too long for the counter. -/
theorem wcRun_eq {wordArray : List UInt8} (hnul : 0 ∉ wordArray)
    (hshort : ∀ w ∈ words isspace wordArray, w.length < 100) :
    (wordArray.length < 2 ^ 31 → ∃ eles : List WcEle,
      wcRun wordArray = .ok (eles.flatMap outputLine) ∧ (eles.map WcEle.word).Nodup ∧
      ∀ w n, ⟨w, n⟩ ∈ eles ↔ w ∈ (scan isspace [] wordArray).1 ∧
        n = (scan isspace [] wordArray).1.count w) ∧
    (¬wordArray.length < 2 ^ 31 → wcRun wordArray = .error .intOverflow) := by
  have hloop := @wcLoop_eq ⟨fun _ ↦ [], 0, wordArray.length⟩ 0 [] wordArray hnul
    (List.forall_mem_nil _) hshort (by decide)
  rw [Nat.zero_add] at hloop
  refine ⟨fun hlt ↦ ?_, fun hlt ↦ ?_⟩
  · rw [if_pos hlt] at hloop
    by_cases hempty : wordArray = []
    · subst hempty
      exact ⟨[], rfl, List.nodup_nil, fun w n ↦ by simp [scan]⟩
    · have hcapacity : 0 < wordArray.length := List.length_pos_iff.mpr hempty
      obtain ⟨hcounts, hsame⟩ := (Counts.init wordArray.length).foldl hcapacity
        (scan isspace [] wordArray).1
      rw [List.nil_append] at hcounts
      refine ⟨_, ?_, hcounts.nodup_elements 0 _,
        hcounts.mem_elements (by rw [hsame]; exact hcapacity)⟩
      rw [wcRun, wcInit, hloop, Except.map, wcOutput, outputLoop_eq]
      rw [Nat.zero_add]
      exact hcounts.size
  · rw [if_neg hlt] at hloop
    rw [wcRun, wcInit, hloop]
    rfl

/-- Assumes: no NUL, and no word of 100 characters or more. The output is right exactly if the
counter of the loop does not overflow and the text is empty or ends with a space: a word that the
text ends with is not counted. -/
theorem word_counts_exact_iff (wordArray : List UInt8) (hnul : 0 ∉ wordArray)
    (hshort : ∀ w ∈ words isspace wordArray, w.length < 100) :
    (∃ output, wcRun wordArray = .ok output ∧ IsWordCount wordArray output) ↔
      wordArray.length < 2 ^ 31 ∧ ∀ c ∈ wordArray.getLast?, isspace c = true := by
  obtain ⟨hfits, hlong⟩ := wcRun_eq hnul hshort
  have hend := @scan_snd_eq_nil_iff _ isspace [] (List.forall_mem_nil _) wordArray
  rw [List.nil_append] at hend
  rw [← hend]
  have hwords : words isspace wordArray = _ := words_eq_scan wordArray
  constructor
  · rintro ⟨output, hrun, eles', rfl, hnodup', hmem'⟩
    have hlt : wordArray.length < 2 ^ 31 := by
      by_contra hlt
      rw [hlong hlt] at hrun
      cases hrun
    refine ⟨hlt, ?_⟩
    obtain ⟨eles, hrun', -, hmem⟩ := hfits hlt
    by_contra hlast
    rw [if_neg hlast] at hwords
    have hspace : ∀ w ∈ words isspace wordArray, (10 : UInt8) ∉ w := fun w hw hten ↦
      absurd (not_sep_of_mem_words hw 10 hten) (by decide)
    have heq : eles = eles' := by
      refine flatMap_outputLine_inj (fun ele hele ↦ ?_) (fun ele hele ↦ ?_)
        (Except.ok.inj (hrun'.symm.trans hrun))
      · refine hspace ele.word ?_
        rw [hwords]
        exact List.mem_append_left _ ((hmem ele.word ele.numOccurrences).mp hele).1
      · exact hspace ele.word ((hmem' ele.word ele.numOccurrences).mp hele).1
    -- The last word has one occurrence more than it is counted.
    have hcount := (hmem' (scan isspace [] wordArray).2 _).mpr ⟨by rw [hwords]; simp, rfl⟩
    rw [← heq, hmem, hwords, List.count_append, List.count_singleton_self] at hcount
    omega
  · rintro ⟨hlt, hlast⟩
    obtain ⟨eles, hrun, hnodup, hmem⟩ := hfits hlt
    rw [if_pos hlast, List.append_nil] at hwords
    exact ⟨_, hrun, eles, rfl, hnodup, fun w n ↦ by rw [hwords]; exact hmem w n⟩

/-- The text `a b a` and a newline. -/
theorem word_counts_exact_iff_newline :
    ∃ output, wcRun [97, 32, 98, 32, 97, 10] = .ok output ∧
      IsWordCount [97, 32, 98, 32, 97, 10] output :=
  (word_counts_exact_iff [97, 32, 98, 32, 97, 10] (by decide +kernel) (by decide +kernel)).mpr
    ⟨by decide +kernel, by decide +kernel⟩

/-- Of a text that is one word and no space nothing is printed. -/
theorem not_word_counts_exact : ¬∀ wordArray : List UInt8, 0 ∉ wordArray →
    (∀ w ∈ words isspace wordArray, w.length < 100) →
    ∃ output, wcRun wordArray = .ok output ∧ IsWordCount wordArray output := by
  intro hall
  obtain ⟨output, hrun, eles, rfl, -, hmem⟩ := hall [97] (by decide +kernel) (by decide +kernel)
  have hempty : wcRun [97] = .ok [] := by decide +kernel
  have hele : ⟨[97], 1⟩ ∈ eles := (hmem [97] 1).mpr ⟨by decide +kernel, by decide +kernel⟩
  have hnil := List.flatMap_eq_nil_iff.mp (Except.ok.inj (hrun.symm.trans hempty)) _ hele
  simp [outputLine] at hnil

end OperatingSystems.Warmup
