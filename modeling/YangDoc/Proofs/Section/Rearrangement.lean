import YangDoc.Proofs.Section.Order
import YangDoc.Proofs.Statement.Observation
import YangDoc.Proofs.Tree.Preorder
import YangDoc.Proofs.Tree.Replacement

/-!
# Documents put in section order

Printing in canonical order sorts the substatements of modules on the way and leaves the document as
it is. The document itself can be sorted instead, by replacing the substatements of each module by
themselves in section order. That is always possible, it changes nothing but the order of those
lists, and a document that has been sorted is printed by itself as it was printed in canonical order
before.

The structural checks then see the same statements in another order. What they look up by keyword
they find as before, because section order is stable: the first substatement with a keyword stays
the first. So they report the same diagnostics, those about prefixes perhaps in another order.
-/

namespace YangDoc

theorem Structural.isComment_of_mem_required {keyword : String} {entry : String × String}
    (hentry : entry ∈ required keyword) : Keyword.isComment entry.1 = false := by
  unfold required at hentry
  split at hentry
  · revert entry
    decide
  · split at hentry
    · revert entry
      decide
    · simp at hentry

namespace Tree

variable {t t' u : Tree} {m p x : Nat}

/-! ### Lists in another order -/

/-- Two tables that differ in the lists of substatements only. -/
structure SameButLists (t t' : Tree) : Prop where
  source_eq : t'.source = t.source
  size_eq : t'.size = t.size
  header_eq : ∀ x, t'.header x = t.header x
  recorded_eq : ∀ x, t'.recorded x = t.recorded x

namespace SameButLists

theorem refl (t : Tree) : t.SameButLists t :=
  ⟨rfl, rfl, fun _ => rfl, fun _ => rfl⟩

theorem trans (h : t.SameButLists t') (h' : t'.SameButLists u) : t.SameButLists u :=
  ⟨h'.source_eq.trans h.source_eq, h'.size_eq.trans h.size_eq,
    fun x => (h'.header_eq x).trans (h.header_eq x),
    fun x => (h'.recorded_eq x).trans (h.recorded_eq x)⟩

theorem keyword_eq (h : t.SameButLists t') : t'.keyword = t.keyword := by
  funext x
  exact congrArg Prod.fst (h.header_eq x)

theorem argument_eq (h : t.SameButLists t') : t'.argument = t.argument := by
  funext x
  exact congrArg Prod.snd (h.header_eq x)

theorem eq (h : t.SameButLists t') (hlists : ∀ x, t'.children x = t.children x) : t' = t := by
  have hrow : ∀ x, t'.row x = t.row x := by
    intro x
    have hkeyword : (t'.row x).keyword = (t.row x).keyword := congrFun h.keyword_eq x
    have hargument : (t'.row x).argument = (t.row x).argument := congrFun h.argument_eq x
    have hchildren : (t'.row x).children = (t.row x).children := hlists x
    have hparent : (t'.row x).parent = (t.row x).parent := h.recorded_eq x
    cases hr : t'.row x
    cases hr' : t.row x
    rw [hr, hr'] at hkeyword hargument hchildren hparent
    rw [Row.mk.injEq]
    exact ⟨hkeyword, hargument, hchildren, hparent⟩
  have hrows : t'.rows = t.rows := by
    apply Array.ext h.size_eq
    intro x hx hx'
    have hget := hrow x
    rwa [row, row, Array.getElem?_eq_getElem hx, Array.getElem?_eq_getElem hx'] at hget
  cases t
  cases t'
  exact congrArg₂ Tree.mk h.source_eq hrows

end SameButLists

/-- Where the statements put in place are those that were there, only their order changes. -/
theorem Forest.replaceChildren_perm (h : t.Forest) (hx : x < t.size) {ids : List Nat}
    (hids : ids.Perm (t.children x)) (hok : t.replaceChildren x ids = (.ok (), t')) :
    t.SameButLists t' ∧ ∀ y, t'.children y = if y = x then ids else t.children y := by
  have hlists : ∀ c, c ∈ ids ↔ t.Lists x c := fun c => hids.mem_iff
  have hreplaced := h.replaced hx (fun c hc => h.listed_lt ((hlists c).1 hc)) hok
  refine ⟨⟨hreplaced.source_eq, hreplaced.size_eq, hreplaced.header_eq, ?_⟩, ?_⟩
  · intro y
    rw [hreplaced.recorded_eq]
    by_cases hy : y ∈ ids
    · rw [if_pos hy, h.recorded_eq ((hlists y).1 hy)]
    · have hnot : y ∉ t.children x := fun hmem => hy ((hlists y).2 hmem)
      rw [if_neg hy, if_neg hnot]
  · intro y
    by_cases hy : y = x
    · have hnodup : ids.Nodup := hids.nodup_iff.2 (h.nodup x)
      rw [if_pos hy, hy, hreplaced.children_eq, hnodup.dedup]
    · rw [if_neg hy, hreplaced.children_of_ne y hy, List.filter_eq_self]
      intro c hc
      rw [decide_eq_true_eq]
      intro hmem
      exact hy (h.lists_unique hc ((hlists c).1 hmem))

/-! ### Sorting modules -/

/-- The substatements in the order in which canonical printing has them. -/
def sectionOrder (t : Tree) (x : NodeId) : List NodeId :=
  t.printOrder { bySection := true } x

def arrange (t : Tree) (x : NodeId) : Except Error Unit × Tree :=
  t.replaceChildren x (t.sectionOrder x)

def arrangeAll (t : Tree) : List NodeId → Except Error Unit × Tree
  | [] => (.ok (), t)
  | x :: rest =>
    match t.arrange x with
    | (.ok (), t') => arrangeAll t' rest
    | (.error e, t') => (.error e, t')

def modules (t : Tree) (m : NodeId) : List NodeId :=
  (t.preorder .all m).filter fun x => Keyword.isRoot (t.keyword x)

theorem lt_size_of_isRoot (hx : Keyword.isRoot (t.keyword x) = true) : x < t.size := by
  by_contra hnot
  rw [keyword, row_of_size_le (by omega)] at hx
  revert hx
  decide

theorem mem_modules (h : t.Forest) :
    x ∈ t.modules m ↔ t.Above m x ∧ Keyword.isRoot (t.keyword x) = true := by
  rw [modules, List.mem_filter, h.mem_preorder_iff]

theorem sectionOrder_eq (t : Tree) (x : NodeId) : t.sectionOrder x =
    if Keyword.isRoot (t.keyword x) then Section.canonical t.keyword (t.children x)
    else t.children x :=
  rfl

theorem sectionOrder_perm (t : Tree) (x : NodeId) : (t.sectionOrder x).Perm (t.children x) := by
  rw [sectionOrder_eq]
  split
  · exact Section.canonical_perm t.keyword (t.children x)
  · exact .refl _

/-- Section order depends on keywords and lists only, and a list in section order stays as it is. -/
theorem SameButLists.sectionOrder_eq (h : t.SameButLists t')
    (hlist : t'.children x = t.children x ∨ t'.children x = t.sectionOrder x) :
    t'.sectionOrder x = t.sectionOrder x := by
  rw [Tree.sectionOrder_eq, Tree.sectionOrder_eq, h.keyword_eq]
  split
  · rename_i hroot
    rcases hlist with hsame | hsorted
    · rw [hsame]
    · rw [hsorted, Tree.sectionOrder_eq, if_pos hroot, Section.canonical_canonical]
  · rename_i hroot
    rcases hlist with hsame | hsorted
    · exact hsame
    · rw [hsorted, Tree.sectionOrder_eq, if_neg hroot]

/-- What a table has become when the lists of some statements were put in section order. -/
structure Arranged (t : Tree) (xs : List Nat) (t' : Tree) : Prop extends t.SameButLists t' where
  children_eq : ∀ x, t'.children x = if x ∈ xs then t.sectionOrder x else t.children x

theorem Arranged.sectionOrder_eq {xs : List Nat} (h : t.Arranged xs t') (x : Nat) :
    t'.sectionOrder x = t.sectionOrder x := by
  apply h.toSameButLists.sectionOrder_eq
  rw [h.children_eq]
  split
  · exact .inr rfl
  · exact .inl rfl

theorem Arranged.cons {xs : List Nat} (hfirst : t.Arranged [x] t') (hrest : t'.Arranged xs u) :
    t.Arranged (x :: xs) u where
  toSameButLists := hfirst.toSameButLists.trans hrest.toSameButLists
  children_eq := by
    intro y
    rw [hrest.children_eq, hfirst.sectionOrder_eq, hfirst.children_eq]
    by_cases hy : y ∈ xs
    · rw [if_pos hy, if_pos (List.mem_cons_of_mem x hy)]
    · rw [if_neg hy]
      simp only [List.mem_cons, List.not_mem_nil, hy]

theorem Forest.arrange_ok (h : t.Forest) (hx : x < t.size) :
    ∃ t', t.arrange x = (.ok (), t') ∧ t'.Forest ∧ t.Arranged [x] t' := by
  have hperm := t.sectionOrder_perm x
  have hallowed : ∀ c ∈ t.sectionOrder x, c < t.size ∧ c ≠ root ∧ ¬ t.Above c x := by
    intro c hc
    have hlist : t.Lists x c := hperm.mem_iff.1 hc
    refine ⟨h.listed_lt hlist, ?_, fun habove => h.not_lists_of_above habove hlist⟩
    intro hroot
    exact h.not_lists_root x (hroot ▸ hlist)
  obtain ⟨t', hok, hforest⟩ := h.replaceChildren_ok hx hallowed
  obtain ⟨hsame, hchildren⟩ := h.replaceChildren_perm hx hperm hok
  refine ⟨t', hok, hforest, ⟨hsame, ?_⟩⟩
  intro y
  rw [hchildren]
  by_cases hy : y = x
  · rw [if_pos hy, if_pos (List.mem_singleton.2 hy), hy]
  · rw [if_neg hy, if_neg fun hmem => hy (List.mem_singleton.1 hmem)]

theorem Forest.arrangeAll_ok (h : t.Forest) {xs : List Nat} (hxs : ∀ x ∈ xs, x < t.size) :
    ∃ t', t.arrangeAll xs = (.ok (), t') ∧ t'.Forest ∧ t.Arranged xs t' := by
  induction xs generalizing t with
  | nil => exact ⟨t, rfl, h, ⟨.refl t, fun _ => rfl⟩⟩
  | cons x xs ih =>
    rw [List.forall_mem_cons] at hxs
    obtain ⟨t₁, hok, hforest, hfirst⟩ := h.arrange_ok hxs.1
    obtain ⟨t', hrest, hforest', harranged⟩ := ih hforest fun y hy => by
      rw [hfirst.size_eq]
      exact hxs.2 y hy
    refine ⟨t', ?_, hforest', hfirst.cons harranged⟩
    rw [arrangeAll, hok]
    exact hrest

/-- Lists that are in section order are left as they are. -/
theorem Arranged.arrangeAll_eq {xs ys : List Nat} (h : t.Arranged xs t') (ht : t'.Forest)
    (hys : ∀ y ∈ ys, y ∈ xs ∧ y < t'.size) : t'.arrangeAll ys = (.ok (), t') := by
  obtain ⟨u, hok, -, hagain⟩ := ht.arrangeAll_ok fun y hy => (hys y hy).2
  have hsame : u = t' := by
    apply hagain.toSameButLists.eq
    intro y
    rw [hagain.children_eq]
    split
    · rename_i hy
      rw [h.sectionOrder_eq, h.children_eq, if_pos (hys y hy).1]
    · rfl
  rw [hok, hsame]

/-! ### What is printed -/

/-- A table in which the modules at and below a statement have been sorted. -/
structure SortedBelow (t : Tree) (m : Nat) (t' : Tree) : Prop extends t.SameButLists t' where
  children_eq : ∀ x, t.Above m x → t'.children x = t.sectionOrder x

theorem Arranged.sortedBelow {xs : List Nat} (h : t.Arranged xs t') (ht : t.Forest)
    (hxs : ∀ x, x ∈ xs ↔ x ∈ t.modules m) : t.SortedBelow m t' where
  toSameButLists := h.toSameButLists
  children_eq := by
    intro x hx
    rw [h.children_eq]
    split
    · rfl
    · rename_i hnot
      rw [hxs, mem_modules ht] at hnot
      rw [Tree.sectionOrder_eq, if_neg fun hroot => hnot ⟨hx, hroot⟩]

theorem SortedBelow.printAt_eq (h : t.SortedBelow m t') (layout : Layout) (depth : Nat) :
    ∀ level x, t.Above m x → t'.printAt { layout with bySection := false } depth level x =
      t.printAt { layout with bySection := true } depth level x := by
  induction depth with
  | zero =>
    intro level x _
    rfl
  | succ depth ih =>
    intro level x hx
    have hsorted := h.children_eq x hx
    have hempty : t'.children x = [] ↔ t.children x = [] := by
      rw [hsorted, ← List.length_eq_zero_iff, (t.sectionOrder_perm x).length_eq,
        List.length_eq_zero_iff]
    have htexts : (t'.printOrder { layout with bySection := false } x).map
        (t'.printAt { layout with bySection := false } depth (level + 1)) =
        (t.printOrder { layout with bySection := true } x).map
          (t.printAt { layout with bySection := true } depth (level + 1)) := by
      show (t'.children x).map _ = (t.sectionOrder x).map _
      rw [hsorted]
      apply List.map_congr_left
      intro c hc
      have hlist : t.Lists x c := (t.sectionOrder_perm x).mem_iff.1 hc
      exact ih (level + 1) c (hx.tail hlist)
    rw [printAt, printAt, h.keyword_eq, h.argument_eq, htexts]
    simp only [hempty]
    rfl

theorem SortedBelow.print_eq (h : t.SortedBelow m t') (layout : Layout) :
    t'.print { layout with bySection := false } m =
      t.print { layout with bySection := true } m := by
  rw [print, print, h.size_eq]
  exact h.printAt_eq layout _ _ m .refl

/-! ### What is reported -/

theorem filter_sectionOrder (t : Tree) (x : NodeId) {keyword : String}
    (hkeyword : Keyword.isComment keyword = false) :
    ((t.sectionOrder x).filter fun c => t.keyword c == keyword) =
      (t.children x).filter fun c => t.keyword c == keyword := by
  rw [sectionOrder_eq]
  split
  · apply Section.filter_canonical (Keyword.sectionRank keyword)
    intro c hc
    rw [beq_iff_eq.1 hc]
    exact ⟨hkeyword, rfl⟩
  · rfl

theorem child?_eq_head? (t : Tree) (x : NodeId) (keyword : String) :
    t.child? x keyword = ((t.children x).filter fun c => t.keyword c == keyword).head? :=
  List.head?_filter.symm

theorem lists_of_child? {c : NodeId} {keyword : String} (hc : t.child? x keyword = some c) :
    t.Lists x c :=
  List.mem_of_find?_eq_some hc

namespace SortedBelow

theorem locate_eq (h : t.SortedBelow m t') : t'.locate = t.locate := by
  funext x d
  rw [locate, locate, h.source_eq, h.keyword_eq, h.argument_eq]

theorem filter_children (h : t.SortedBelow m t') (hx : t.Above m x) {keyword : String}
    (hkeyword : Keyword.isComment keyword = false) :
    ((t'.children x).filter fun c => t'.keyword c == keyword) =
      (t.children x).filter fun c => t.keyword c == keyword := by
  rw [h.children_eq x hx, h.keyword_eq, t.filter_sectionOrder x hkeyword]

theorem child?_eq (h : t.SortedBelow m t') (hx : t.Above m x) {keyword : String}
    (hkeyword : Keyword.isComment keyword = false) :
    t'.child? x keyword = t.child? x keyword := by
  rw [child?_eq_head?, child?_eq_head?, h.filter_children hx hkeyword]

theorem headerReport_eq (h : t.SortedBelow m t') :
    Structural.headerReport t' m = Structural.headerReport t m := by
  rw [Structural.headerReport, Structural.headerReport, h.argument_eq, h.keyword_eq]
  congr 1
  apply List.filterMap_congr
  intro entry hentry
  dsimp only
  rw [h.child?_eq .refl (Structural.isComment_of_mem_required hentry)]

theorem ownPrefix_eq (h : t.SortedBelow m t') :
    Structural.ownPrefix t' m = Structural.ownPrefix t m := by
  have hbelow : ((t'.child? m "belongs-to").bind fun b => t'.child? b "prefix") =
      (t.child? m "belongs-to").bind fun b => t.child? b "prefix" := by
    rw [h.child?_eq .refl (by decide)]
    cases hb : t.child? m "belongs-to" with
    | none => rfl
    | some b => exact h.child?_eq (.single (lists_of_child? hb)) (by decide)
  rw [Structural.ownPrefix, Structural.ownPrefix, hbelow, h.child?_eq .refl (by decide),
    h.argument_eq]

theorem imports_eq (h : t.SortedBelow m t') :
    Structural.imports t' m = Structural.imports t m := by
  rw [Structural.imports, Structural.imports, select_keyword, select_keyword,
    h.filter_children .refl (by decide)]
  apply List.filterMap_congr
  intro i hi
  have hlist : t.Lists m i := List.mem_of_mem_filter hi
  rw [h.child?_eq (.single hlist) (by decide), h.argument_eq]

theorem usedBy_eq (h : t.SortedBelow m t') : Structural.usedBy t' = Structural.usedBy t := by
  funext x
  rw [Structural.usedBy, Structural.usedBy, h.keyword_eq, h.argument_eq]

theorem preorder_perm (h : t.SortedBelow m t') (ht : t.Forest) (ht' : t'.Forest) (scope : Scope)
    (hx : t.Above m x) : (t'.preorder scope x).Perm (t.preorder scope x) := by
  induction x using ht.induction_below with
  | step x ih =>
    have hadmitted : (t'.admitted scope x).Perm (t.admitted scope x) := by
      rw [admitted, admitted, h.keyword_eq, h.children_eq x hx]
      exact (t.sectionOrder_perm x).filter _
    rw [ht'.preorder_eq, ht.preorder_eq]
    apply List.Perm.cons
    apply hadmitted.flatMap
    intro c hc
    have hlist : t.Lists x c := List.mem_of_mem_filter (hadmitted.mem_iff.1 hc)
    exact ih c hlist (hx.tail hlist)

theorem report_perm (h : t.SortedBelow m t') (ht : t.Forest) (ht' : t'.Forest) :
    (Structural.report t' m).Perm (Structural.report t m) := by
  have hvisited := h.preorder_perm ht ht' .statements .refl
  have hused : ∀ q, (((t'.preorder .statements m).flatMap (Structural.usedBy t)).contains q) =
      ((t.preorder .statements m).flatMap (Structural.usedBy t)).contains q := by
    intro q
    rw [Bool.eq_iff_iff, List.contains_iff_mem, List.contains_iff_mem]
    exact (hvisited.flatMap_right _).mem_iff
  unfold Structural.report
  simp only [h.imports_eq, h.ownPrefix_eq, h.headerReport_eq, h.locate_eq, h.usedBy_eq,
    h.keyword_eq, hused]
  exact ((hvisited.filterMap _).append_left _).append_right _

end SortedBelow

end Tree

theorem Verdict.valid_eq_of_perm {ds ds' : List Diagnostic} (hperm : ds.Perm ds')
    (allowWarnings : Bool) :
    (Verdict.of (!ds.any Diagnostic.isError) allowWarnings ds).valid =
      (Verdict.of (!ds'.any Diagnostic.isError) allowWarnings ds').valid := by
  simp only [Verdict.of, hperm.any_eq]

namespace Workspace

variable {w : Workspace} {n : Node}

/-- The modules at and below a module can be put in section order one after the other. The document
is then printed as it was printed in canonical order before, sorting it again changes nothing, and
the structural checks report the same diagnostics, perhaps in another order. -/
theorem print_rearranged (ht : (n.tree w).Reachable) (hroot : Keyword.isRoot (n.keyword w) = true)
    {xs : List NodeId} (hxs : xs.Perm ((n.tree w).modules n.id)) :
    ∃ t', (n.tree w).arrangeAll xs = (.ok (), t') ∧
      (∀ layout : Layout, n.print (w.setTree n.document t') { layout with bySection := false } =
        n.print w { layout with bySection := true }) ∧
      (∀ ys : List NodeId, ys.Perm (t'.modules n.id) → t'.arrangeAll ys = (.ok (), t')) ∧
      (Structural.report t' n.id).Perm (Structural.report (n.tree w) n.id) ∧
      ∀ context allowWarnings, ∃ before after : Verdict,
        ((n.validate (m := StateM Workspace) Structural.validator context allowWarnings).run
          w).1.1 = .ok before ∧
        ((n.validate (m := StateM Workspace) Structural.validator context allowWarnings).run
          (w.setTree n.document t')).1.1 = .ok after ∧
        after.diagnostics.Perm before.diagnostics ∧ after.valid = before.valid := by
  have hforest := ht.forest
  have hmodules : ∀ x, x ∈ xs ↔ x ∈ (n.tree w).modules n.id := fun x => hxs.mem_iff
  have hlive : ∀ x ∈ xs, x < (n.tree w).size := by
    intro x hx
    exact Tree.lt_size_of_isRoot ((Tree.mem_modules hforest).1 ((hmodules x).1 hx)).2
  obtain ⟨t', hok, hforest', harranged⟩ := hforest.arrangeAll_ok hlive
  have hsorted := harranged.sortedBelow hforest hmodules
  have htree : n.tree (w.setTree n.document t') = t' :=
    tree_setTree (Node.Live.has (Tree.lt_size_of_isRoot hroot))
  have hreport := hsorted.report_perm hforest hforest'
  refine ⟨t', hok, ?_, ?_, hreport, ?_⟩
  · intro layout
    rw [Node.print, htree]
    exact hsorted.print_eq layout
  · intro ys hys
    apply harranged.arrangeAll_eq hforest'
    intro y hy
    obtain ⟨habove, hy⟩ := (Tree.mem_modules hforest').1 (hys.mem_iff.1 hy)
    refine ⟨?_, Tree.lt_size_of_isRoot hy⟩
    rw [hmodules, Tree.mem_modules hforest, ← hforest.mem_preorder_iff,
      ← (hsorted.preorder_perm hforest hforest' .all .refl).mem_iff, hforest'.mem_preorder_iff,
      ← hsorted.keyword_eq]
    exact ⟨habove, hy⟩
  · intro context allowWarnings
    have hroot' : Keyword.isRoot (n.keyword (w.setTree n.document t')) = true := by
      rw [Node.keyword, htree, hsorted.keyword_eq]
      exact hroot
    refine ⟨_, _, Node.validate_root hroot context allowWarnings,
      Node.validate_root hroot' context allowWarnings, ?_, ?_⟩
    · rw [htree]
      exact hreport
    · rw [htree]
      exact Verdict.valid_eq_of_perm hreport allowWarnings

/-- A module with a comment and a second module in it, both modules out of section order. -/
def unsorted : Workspace :=
  (({} : Workspace).add (Tree.ofStatement ⟨"module", some "m", [⟨"x:y", none, []⟩,
    ⟨Keyword.comment, some "// c", []⟩, ⟨"prefix", some "p", []⟩, ⟨"module", some "n",
      [⟨"leaf", some "l", []⟩, ⟨"prefix", some "q", []⟩]⟩, ⟨"namespace", some "u", []⟩]⟩)).1

theorem print_rearranged_unsorted :
    (unsorted.tree ⟨0⟩).Reachable ∧ ∃ t', (unsorted.tree ⟨0⟩).arrangeAll [4, 0] = (.ok (), t') ∧
      t'.children 0 = [7, 2, 3, 1, 4] ∧ t'.children 4 = [6, 5] ∧
      (⟨⟨0⟩, 0⟩ : Node).print (unsorted.setTree ⟨0⟩ t') {} =
        (⟨⟨0⟩, 0⟩ : Node).print unsorted { bySection := true } ∧
      (Structural.report t' 0).Perm (Structural.report (unsorted.tree ⟨0⟩) 0) := by
  have ht : (unsorted.tree ⟨0⟩).Reachable := .ofStatement _
  have hmodules : [4, 0].Perm ((unsorted.tree ⟨0⟩).modules 0) := by decide
  obtain ⟨t', hok, hprint, -, hreport, -⟩ :=
    print_rearranged (w := unsorted) (n := ⟨⟨0⟩, 0⟩) ht (by decide) hmodules
  have ht' : t' = ((unsorted.tree ⟨0⟩).arrangeAll [4, 0]).2 := (congrArg Prod.snd hok).symm
  refine ⟨ht, t', hok, ?_, ?_, hprint {}, hreport⟩
  · rw [ht']
    decide
  · rw [ht']
    decide

end Workspace

end YangDoc
