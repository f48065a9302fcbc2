import Mathlib.Data.List.Perm.Basic
import YangDoc.Section
import YangDoc.Tree.Printer

/-!
# Section order

Canonical order gives every item a rank and goes through the ranks one after the other. Taking the
items of one rank at a time is a stable sort, the same as a merge sort by rank, and most of what is
said here follows from that alone: the order is a permutation, ranks do not decrease, and items of
one rank keep their order.

What is particular to the ranks is how comments get theirs, from the item that follows. A run of
comments has the rank of the statement it introduces, nothing of that rank stands between them, and
so they stay together; comments that introduce nothing have the last rank and stay at the end. For
the same reason ranking the sorted items once more gives the ranks they were sorted by, and sorting
twice is sorting once.
-/

namespace YangDoc

theorem Keyword.sectionRank_le (keyword : String) : sectionRank keyword ≤ bodyRank := by
  have htable : ∀ entry ∈ sections, entry.2 ≤ bodyRank := by decide
  unfold sectionRank
  cases hlookup : sections.lookup keyword with
  | none => exact Nat.le_refl _
  | some rank =>
    obtain ⟨before, after, hsplit, -⟩ := List.lookup_eq_some_iff.1 hlookup
    apply htable (keyword, rank)
    rw [hsplit]
    exact List.mem_append_right _ List.mem_cons_self

namespace Section

variable {α : Type}

/-! ### Sorting by rank -/

/-- The items of the first `n` ranks, one rank after the other. -/
def sortedBelow (items : List (Nat × α)) (n : Nat) : List (Nat × α) :=
  (List.range n).flatMap fun rank => items.filter fun item => item.1 == rank

def sorted (items : List (Nat × α)) : List (Nat × α) :=
  sortedBelow items (Keyword.bodyRank + 1)

variable {items : List (Nat × α)}

theorem sortedBelow_succ (items : List (Nat × α)) (n : Nat) :
    sortedBelow items (n + 1) = sortedBelow items n ++ items.filter fun item => item.1 == n := by
  rw [sortedBelow, List.range_succ, List.flatMap_append, List.flatMap_singleton, sortedBelow]

theorem sortedBelow_perm (items : List (Nat × α)) (n : Nat) :
    (sortedBelow items n).Perm (items.filter fun item => item.1 < n) := by
  induction n with
  | zero => simp [sortedBelow]
  | succ n ih =>
    have hless : (items.filter fun item => item.1 < n) =
        (items.filter fun item => item.1 < n + 1).filter fun item => item.1 < n := by
      rw [List.filter_filter]
      apply List.filter_congr
      intro item _
      grind
    have hequal : (items.filter fun item => item.1 == n) =
        (items.filter fun item => item.1 < n + 1).filter fun item => !decide (item.1 < n) := by
      rw [List.filter_filter]
      apply List.filter_congr
      intro item _
      grind
    rw [sortedBelow_succ, hequal]
    rw [hless] at ih
    exact (ih.append_right _).trans (List.filter_append_perm _ _)

theorem filter_lt_bodyRank_succ (hrank : ∀ item ∈ items, item.1 ≤ Keyword.bodyRank) :
    (items.filter fun item => item.1 < Keyword.bodyRank + 1) = items := by
  rw [List.filter_eq_self]
  intro item hitem
  have := hrank item hitem
  exact decide_eq_true (by omega)

theorem sorted_perm (hrank : ∀ item ∈ items, item.1 ≤ Keyword.bodyRank) :
    (sorted items).Perm items := by
  have hperm := sortedBelow_perm items (Keyword.bodyRank + 1)
  rwa [filter_lt_bodyRank_succ hrank] at hperm

theorem sorted_pairwise (items : List (Nat × α)) :
    (sorted items).Pairwise fun a b => a.1 ≤ b.1 := by
  have hrank : ∀ {rank : Nat} {item : Nat × α}, item ∈ items.filter (fun item => item.1 == rank) →
      item.1 = rank := fun hitem => beq_iff_eq.1 (List.mem_filter.1 hitem).2
  rw [sorted, sortedBelow, List.pairwise_flatMap]
  constructor
  · intro rank _
    apply List.pairwise_of_forall_mem_list
    intro a ha b hb
    exact Nat.le_of_eq ((hrank ha).trans (hrank hb).symm)
  · apply List.pairwise_lt_range.imp
    intro rank rank' hlt a ha b hb
    rw [hrank ha, hrank hb]
    omega

theorem filter_sortedBelow {choose : Nat × α → Bool} {rank : Nat}
    (hchoose : ∀ item ∈ items, choose item = true → item.1 = rank) (n : Nat) :
    (sortedBelow items n).filter choose = if rank < n then items.filter choose else [] := by
  induction n with
  | zero => simp [sortedBelow]
  | succ n ih =>
    have hlast : (items.filter fun item => item.1 == n).filter choose =
        if rank = n then items.filter choose else [] := by
      rw [List.filter_filter]
      split
      · apply List.filter_congr
        intro item hitem
        cases hchosen : choose item with
        | false => rfl
        | true =>
          have := hchoose item hitem hchosen
          simp only [Bool.true_and, beq_iff_eq]
          omega
      · rw [List.filter_eq_nil_iff]
        intro item hitem hboth
        rw [Bool.and_eq_true, beq_iff_eq] at hboth
        have := hchoose item hitem hboth.1
        omega
    rw [sortedBelow_succ, List.filter_append, ih, hlast]
    rcases Nat.lt_trichotomy rank n with hlt | heq | hgt
    · rw [if_pos hlt, if_neg (by omega), if_pos (by omega), List.append_nil]
    · rw [if_neg (by omega), if_pos heq, if_pos (by omega), List.nil_append]
    · rw [if_neg (by omega), if_neg (by omega), if_neg (by omega), List.nil_append]

theorem filter_sorted {choose : Nat × α → Bool} (rank : Nat)
    (hrank : ∀ item ∈ items, item.1 ≤ Keyword.bodyRank)
    (hchoose : ∀ item ∈ items, choose item = true → item.1 = rank) :
    (sorted items).filter choose = items.filter choose := by
  rw [sorted, filter_sortedBelow hchoose]
  split
  · rfl
  · symm
    rw [List.filter_eq_nil_iff]
    intro item hitem hchosen
    have := hrank item hitem
    have := hchoose item hitem hchosen
    omega

theorem filter_lt_succ (hsorted : items.Pairwise fun a b => a.1 ≤ b.1) (n : Nat) :
    (items.filter fun item => item.1 < n + 1) =
      (items.filter fun item => item.1 < n) ++ items.filter fun item => item.1 == n := by
  induction items with
  | nil => rfl
  | cons item rest ih =>
    obtain ⟨hfirst, hrest⟩ := List.pairwise_cons.1 hsorted
    by_cases hlt : item.1 < n
    · rw [List.filter_cons, if_pos (decide_eq_true (Nat.lt_succ_of_lt hlt)), ih hrest,
        List.filter_cons, if_pos (decide_eq_true hlt), List.filter_cons,
        if_neg (by simpa using Nat.ne_of_lt hlt), List.cons_append]
    · -- what follows is not less either, so only the items of rank `n` are left
      have hnone : ((item :: rest).filter fun item => item.1 < n) = [] := by
        rw [List.filter_eq_nil_iff]
        intro other hother
        rw [decide_eq_true_iff]
        rcases List.mem_cons.1 hother with rfl | hother
        · exact hlt
        · have := hfirst other hother
          omega
      rw [hnone, List.nil_append]
      apply List.filter_congr
      intro other hother
      have hge := List.filter_eq_nil_iff.1 hnone other hother
      rw [decide_eq_true_iff] at hge
      rw [Bool.eq_iff_iff, decide_eq_true_iff, beq_iff_eq]
      omega

theorem sorted_of_pairwise (hrank : ∀ item ∈ items, item.1 ≤ Keyword.bodyRank)
    (hsorted : items.Pairwise fun a b => a.1 ≤ b.1) : sorted items = items := by
  have hbelow : ∀ n, sortedBelow items n = items.filter fun item => item.1 < n := by
    intro n
    induction n with
    | zero => simp [sortedBelow]
    | succ n ih => rw [sortedBelow_succ, ih, filter_lt_succ hsorted]
  rw [sorted, hbelow, filter_lt_bodyRank_succ hrank]

def rankLE (a b : Nat × α) : Bool :=
  a.1 ≤ b.1

theorem rankLE_iff {a b : Nat × α} : rankLE a b = true ↔ a.1 ≤ b.1 :=
  decide_eq_true_iff

theorem rankLE_trans (a b c : Nat × α) (hab : rankLE a b = true) (hbc : rankLE b c = true) :
    rankLE a c = true := by
  rw [rankLE_iff] at *
  omega

theorem rankLE_total (a b : Nat × α) : (rankLE a b || rankLE b a) = true := by
  rw [Bool.or_eq_true, rankLE_iff, rankLE_iff]
  omega

theorem filter_mergeSort (items : List (Nat × α)) (rank : Nat) :
    ((items.mergeSort rankLE).filter fun item => item.1 == rank) =
      items.filter fun item => item.1 == rank := by
  have hsorted : (items.filter fun item => item.1 == rank).Pairwise (rankLE · · = true) := by
    apply List.pairwise_of_forall_mem_list
    intro a ha b hb
    have hrank := beq_iff_eq.1 (List.mem_filter.1 ha).2
    have hrank' := beq_iff_eq.1 (List.mem_filter.1 hb).2
    exact rankLE_iff.2 (Nat.le_of_eq (hrank.trans hrank'.symm))
  have hsublist := (List.sublist_mergeSort rankLE_trans rankLE_total hsorted
    List.filter_sublist).filter fun item => item.1 == rank
  simp only [List.filter_filter, Bool.and_self] at hsublist
  exact (hsublist.eq_of_length ((List.mergeSort_perm items rankLE).filter _).length_eq.symm).symm

theorem sorted_eq_mergeSort (hrank : ∀ item ∈ items, item.1 ≤ Keyword.bodyRank) :
    sorted items = items.mergeSort rankLE := by
  have hsame : sorted (items.mergeSort rankLE) = sorted items :=
    List.flatMap_congr fun rank _ => filter_mergeSort items rank
  rw [← hsame]
  apply sorted_of_pairwise
  · intro item hitem
    exact hrank item (List.mem_mergeSort.1 hitem)
  · exact (List.pairwise_mergeSort rankLE_trans rankLE_total items).imp rankLE_iff.1

/-! ### Ranks -/

variable {keyword : α → String} {xs : List α}

theorem map_snd_ranked (keyword : α → String) (xs : List α) :
    (ranked keyword xs).map Prod.snd = xs := by
  induction xs with
  | nil => rfl
  | cons x xs ih => rw [ranked, List.map_cons, ih]

theorem canonical_eq (keyword : α → String) (xs : List α) :
    canonical keyword xs = (sorted (ranked keyword xs)).map Prod.snd := by
  rw [sorted, sortedBelow, List.map_flatMap]
  rfl

theorem leadingRank_le {items : List (Nat × α)}
    (hrank : ∀ item ∈ items, item.1 ≤ Keyword.bodyRank) : leadingRank items ≤ Keyword.bodyRank := by
  cases items with
  | nil => exact Nat.le_refl _
  | cons item rest => exact hrank item List.mem_cons_self

theorem ranked_le (keyword : α → String) (xs : List α) :
    ∀ item ∈ ranked keyword xs, item.1 ≤ Keyword.bodyRank := by
  induction xs with
  | nil => simp [ranked]
  | cons x xs ih =>
    rw [ranked, List.forall_mem_cons]
    refine ⟨?_, ih⟩
    dsimp only
    split
    · exact leadingRank_le ih
    · exact Keyword.sectionRank_le _

/-- Section order is a stable sort by rank. -/
theorem canonical_eq_mergeSort (keyword : α → String) (xs : List α) :
    canonical keyword xs = ((ranked keyword xs).mergeSort rankLE).map Prod.snd := by
  rw [canonical_eq, sorted_eq_mergeSort (ranked_le keyword xs)]

theorem ranked_of_statement {item : Nat × α} (hitem : item ∈ ranked keyword xs)
    (hstatement : Keyword.isComment (keyword item.2) = false) :
    item.1 = Keyword.sectionRank (keyword item.2) := by
  induction xs with
  | nil => simp [ranked] at hitem
  | cons x xs ih =>
    rw [ranked] at hitem
    rcases List.mem_cons.1 hitem with rfl | hrest
    · dsimp only at hstatement ⊢
      rw [hstatement, if_neg Bool.false_ne_true]
    · exact ih hrest

theorem ranked_run {run : List α} (hrun : ∀ c ∈ run, Keyword.isComment (keyword c) = true)
    (rest : List α) :
    ranked keyword (run ++ rest) =
      run.map (Prod.mk (leadingRank (ranked keyword rest))) ++ ranked keyword rest := by
  induction run with
  | nil => rfl
  | cons c run ih =>
    rw [List.forall_mem_cons] at hrun
    have hnext : leadingRank (run.map (Prod.mk (leadingRank (ranked keyword rest))) ++
        ranked keyword rest) = leadingRank (ranked keyword rest) := by
      cases run with
      | nil => rfl
      | cons c' run => rfl
    rw [List.cons_append, ranked, ih hrun.2, if_pos hrun.1, hnext]
    rfl

theorem ranked_append (keyword : α → String) (before rest : List α) :
    ∃ items, ranked keyword (before ++ rest) = items ++ ranked keyword rest := by
  induction before with
  | nil => exact ⟨[], rfl⟩
  | cons x before ih =>
    obtain ⟨items, hitems⟩ := ih
    rw [List.cons_append, ranked, hitems]
    exact ⟨_ :: items, rfl⟩

/-! ### Runs of comments -/

theorem ofRank_infix {rank : Nat} (hrank : rank ≤ Keyword.bodyRank) (keyword : α → String)
    (xs : List α) : ofRank rank (ranked keyword xs) <:+: canonical keyword xs := by
  apply List.infix_of_mem_flatten
  apply List.mem_map_of_mem
  rw [List.mem_range]
  omega

theorem ofRank_cons (rank : Nat) (item : Nat × α) (items : List (Nat × α)) :
    ofRank rank (item :: items) =
      if item.1 = rank then item.2 :: ofRank rank items else ofRank rank items := by
  rw [ofRank, List.filter_cons]
  simp only [beq_iff_eq]
  split
  · rfl
  · rfl

theorem ofRank_append (rank : Nat) (items items' : List (Nat × α)) :
    ofRank rank (items ++ items') = ofRank rank items ++ ofRank rank items' := by
  rw [ofRank, List.filter_append, List.map_append, ofRank, ofRank]

theorem ofRank_map_mk (rank : Nat) (run : List α) :
    ofRank rank (run.map (Prod.mk rank)) = run := by
  rw [ofRank, List.filter_eq_self.2, List.map_map]
  · exact List.map_id run
  · intro item hitem
    obtain ⟨c, -, rfl⟩ := List.mem_map.1 hitem
    exact beq_self_eq_true rank

/-- A run of comments stays together with the statement it introduces. -/
theorem run_infix_canonical {before run after : List α} {s : α}
    (hrun : ∀ c ∈ run, Keyword.isComment (keyword c) = true)
    (hs : Keyword.isComment (keyword s) = false) :
    run ++ [s] <:+: canonical keyword (before ++ (run ++ s :: after)) := by
  have hstatement : ranked keyword (s :: after) =
      (Keyword.sectionRank (keyword s), s) :: ranked keyword after := by
    rw [ranked, hs, if_neg Bool.false_ne_true]
  obtain ⟨items, hitems⟩ := ranked_append keyword before (run ++ s :: after)
  have hsection := ofRank_infix (Keyword.sectionRank_le (keyword s)) keyword
    (before ++ (run ++ s :: after))
  have hsplit : ofRank (Keyword.sectionRank (keyword s))
      (ranked keyword (before ++ (run ++ s :: after))) =
      ofRank (Keyword.sectionRank (keyword s)) items ++ (run ++ [s]) ++
        ofRank (Keyword.sectionRank (keyword s)) (ranked keyword after) := by
    have hfirst : ofRank (Keyword.sectionRank (keyword s)) (ranked keyword (s :: after)) =
        s :: ofRank (Keyword.sectionRank (keyword s)) (ranked keyword after) := by
      rw [hstatement, ofRank_cons, if_pos rfl]
    rw [hitems, ranked_run hrun, ofRank_append, ofRank_append, hfirst, hstatement, leadingRank,
      ofRank_map_mk]
    simp only [List.append_assoc, List.singleton_append]
  rw [hsplit] at hsection
  exact (List.infix_append _ _ _).trans hsection

theorem run_suffix_canonical {before run : List α}
    (hrun : ∀ c ∈ run, Keyword.isComment (keyword c) = true) :
    run <:+ canonical keyword (before ++ run) := by
  obtain ⟨items, hitems⟩ := ranked_append keyword before run
  have hranked : ranked keyword run = run.map (Prod.mk Keyword.bodyRank) := by
    have hrun := ranked_run hrun []
    rwa [List.append_nil, ranked, List.append_nil] at hrun
  rw [canonical, List.range_succ, List.flatMap_append, List.flatMap_singleton, hitems, hranked,
    ofRank_append, ofRank_map_mk, ← List.append_assoc]
  exact List.suffix_append _ _

/-! ### The order -/

/-- What section order does to the items of a module. -/
structure Ordered (keyword : α → String) (xs out : List α) : Prop where
  perm : out.Perm xs
  /-- Statements come in the order of their sections. -/
  sorted : (out.filter fun x => !Keyword.isComment (keyword x)).Pairwise fun a b =>
    Keyword.sectionRank (keyword a) ≤ Keyword.sectionRank (keyword b)
  /-- Statements of one section keep their order. -/
  stable : ∀ rank,
    (out.filter fun x =>
        !Keyword.isComment (keyword x) && Keyword.sectionRank (keyword x) == rank) =
      xs.filter fun x => !Keyword.isComment (keyword x) && Keyword.sectionRank (keyword x) == rank
  /-- The comments before a statement stay in order right before it. -/
  introduced : ∀ before run s after, xs = before ++ (run ++ s :: after) →
    (∀ c ∈ run, Keyword.isComment (keyword c) = true) → Keyword.isComment (keyword s) = false →
    run ++ [s] <:+: out
  /-- The comments after the last statement stay in order at the end. -/
  trailing : ∀ before run, xs = before ++ run →
    (∀ c ∈ run, Keyword.isComment (keyword c) = true) → run <:+ out

theorem canonical_perm (keyword : α → String) (xs : List α) : (canonical keyword xs).Perm xs := by
  have hperm := (sorted_perm (ranked_le keyword xs)).map Prod.snd
  rwa [← canonical_eq, map_snd_ranked] at hperm

theorem canonical_pairwise (keyword : α → String) (xs : List α) :
    ((canonical keyword xs).filter fun x => !Keyword.isComment (keyword x)).Pairwise fun a b =>
      Keyword.sectionRank (keyword a) ≤ Keyword.sectionRank (keyword b) := by
  have hrank : ∀ item ∈ (Section.sorted (ranked keyword xs)).filter
      ((fun x => !Keyword.isComment (keyword x)) ∘ Prod.snd),
      item.1 = Keyword.sectionRank (keyword item.2) := by
    intro item hitem
    obtain ⟨hmem, hstatement⟩ := List.mem_filter.1 hitem
    apply ranked_of_statement ((sorted_perm (ranked_le keyword xs)).mem_iff.1 hmem)
    simpa using hstatement
  rw [canonical_eq, List.filter_map, List.pairwise_map]
  apply ((sorted_pairwise (ranked keyword xs)).filter _).imp_of_mem
  intro a b ha hb hle
  rwa [← hrank a ha, ← hrank b hb]

theorem filter_canonical {choose : α → Bool} (rank : Nat)
    (hchoose : ∀ x, choose x = true →
      Keyword.isComment (keyword x) = false ∧ Keyword.sectionRank (keyword x) = rank) :
    (canonical keyword xs).filter choose = xs.filter choose := by
  have hitems : ∀ item ∈ ranked keyword xs, (choose ∘ Prod.snd) item = true → item.1 = rank := by
    intro item hitem hchosen
    obtain ⟨hstatement, heq⟩ := hchoose item.2 hchosen
    rw [ranked_of_statement hitem hstatement, heq]
  rw [canonical_eq, List.filter_map, filter_sorted rank (ranked_le keyword xs) hitems,
    ← List.filter_map, map_snd_ranked]

theorem ordered_canonical (keyword : α → String) (xs : List α) :
    Ordered keyword xs (canonical keyword xs) where
  perm := canonical_perm keyword xs
  sorted := canonical_pairwise keyword xs
  stable := by
    intro rank
    apply filter_canonical rank
    intro x hx
    simpa using hx
  introduced := by
    intro before run s after heq hrun hs
    rw [heq]
    exact run_infix_canonical hrun hs
  trailing := by
    intro before run heq hrun
    rw [heq]
    exact run_suffix_canonical hrun

/-! ### Sorting once more -/

theorem leadingRank_filter (items : List (Nat × α)) :
    leadingRank (items.filter fun item => item.1 == leadingRank items) = leadingRank items := by
  cases items with
  | nil => rfl
  | cons item rest =>
    rw [leadingRank, List.filter_cons, beq_self_eq_true, if_pos rfl]
    rfl

/-- The items of one rank have that rank also by themselves. -/
theorem ranked_ofRank (keyword : α → String) (rank : Nat) (xs : List α) :
    ranked keyword (ofRank rank (ranked keyword xs)) =
      (ranked keyword xs).filter fun item => item.1 == rank := by
  induction xs with
  | nil => rfl
  | cons x xs ih =>
    by_cases heq : (if Keyword.isComment (keyword x) then leadingRank (ranked keyword xs)
        else Keyword.sectionRank (keyword x)) = rank
    · -- a comment of this rank stands before an item of this rank, or before none
      have hsame : (if Keyword.isComment (keyword x) then
          leadingRank ((ranked keyword xs).filter fun item => item.1 == rank)
          else Keyword.sectionRank (keyword x)) = rank := by
        by_cases hcomment : Keyword.isComment (keyword x) = true
        · rw [if_pos hcomment] at heq ⊢
          rw [← heq, leadingRank_filter]
        · rwa [if_neg hcomment] at heq ⊢
      rw [ranked, heq, ofRank_cons, if_pos rfl, ranked, ih, hsame, List.filter_cons,
        beq_self_eq_true, if_pos rfl]
    · rw [ranked, ofRank_cons, if_neg heq, ih, List.filter_cons_of_neg (by simpa using heq)]

/-- Items none of which has the last rank are ranked as if nothing came after them. -/
theorem ranked_append_of_ne {ys zs : List α}
    (hys : ∀ item ∈ ranked keyword ys, item.1 ≠ Keyword.bodyRank) :
    ranked keyword (ys ++ zs) = ranked keyword ys ++ ranked keyword zs := by
  induction ys with
  | nil => rfl
  | cons y ys ih =>
    rw [ranked, List.forall_mem_cons] at hys
    have hnext : Keyword.isComment (keyword y) = true →
        leadingRank (ranked keyword ys ++ ranked keyword zs) = leadingRank (ranked keyword ys) := by
      intro hcomment
      -- a comment at the end would have the last rank
      cases hrest : ranked keyword ys with
      | nil =>
        rw [hrest, if_pos hcomment] at hys
        exact absurd rfl hys.1
      | cons item rest => rfl
    rw [List.cons_append, ranked, ih hys.2, ranked]
    by_cases hcomment : Keyword.isComment (keyword y) = true
    · rw [if_pos hcomment, if_pos hcomment, hnext hcomment]
      rfl
    · rw [if_neg hcomment, if_neg hcomment]
      rfl

theorem ranked_sortedBelow (keyword : α → String) (xs : List α) {n : Nat}
    (hn : n ≤ Keyword.bodyRank + 1) :
    ranked keyword ((sortedBelow (ranked keyword xs) n).map Prod.snd) =
      sortedBelow (ranked keyword xs) n := by
  induction n with
  | zero => rfl
  | succ n ih =>
    have hbelow := ih (by omega)
    have hfirst : ∀ item ∈ ranked keyword ((sortedBelow (ranked keyword xs) n).map Prod.snd),
        item.1 ≠ Keyword.bodyRank := by
      intro item hitem
      rw [hbelow] at hitem
      have hless := (List.mem_filter.1 ((sortedBelow_perm _ n).mem_iff.1 hitem)).2
      have := of_decide_eq_true hless
      omega
    rw [sortedBelow_succ, List.map_append, ranked_append_of_ne hfirst, hbelow]
    exact congrArg _ (ranked_ofRank keyword n xs)

/-- Ranking the sorted items gives the ranks they were sorted by. -/
theorem ranked_canonical (keyword : α → String) (xs : List α) :
    ranked keyword (canonical keyword xs) = sorted (ranked keyword xs) := by
  rw [canonical_eq]
  exact ranked_sortedBelow keyword xs (Nat.le_refl _)

theorem sorted_sorted (hrank : ∀ item ∈ items, item.1 ≤ Keyword.bodyRank) :
    sorted (sorted items) = sorted items := by
  apply sorted_of_pairwise _ (sorted_pairwise items)
  intro item hitem
  exact hrank item ((sorted_perm hrank).mem_iff.1 hitem)

theorem canonical_canonical (keyword : α → String) (xs : List α) :
    canonical keyword (canonical keyword xs) = canonical keyword xs := by
  rw [canonical_eq, ranked_canonical, sorted_sorted (ranked_le keyword xs), canonical_eq]

end Section

/-- In canonical order the substatements of a module are sorted by section, stably and with each run
of comments before the statement it introduces. Elsewhere, and in any other layout, substatements
are printed in the order they have. -/
theorem Tree.printOrder_ordered (t : Tree) (layout : Layout) (m : NodeId) :
    if layout.bySection = true ∧ Keyword.isRoot (t.keyword m) = true then
      Section.Ordered t.keyword (t.children m) (t.printOrder layout m)
    else t.printOrder layout m = t.children m := by
  rw [printOrder]
  split
  · rename_i hmodule
    rw [if_pos (by rw [hmodule.1, hmodule.2]; rfl)]
    exact Section.ordered_canonical t.keyword (t.children m)
  · rename_i hother
    exact if_neg fun hboth => hother (Bool.and_eq_true_iff.1 hboth)

example : Section.canonical id ["leaf", "_comment", "prefix", "namespace", "_comment"] =
    ["namespace", "_comment", "prefix", "leaf", "_comment"] := by
  decide

end YangDoc
