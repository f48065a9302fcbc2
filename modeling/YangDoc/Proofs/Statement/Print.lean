import YangDoc.Proofs.Tree.Forest
import YangDoc.Tree.Copy
import YangDoc.Tree.Printer

/-!
# The text of a statement

Printing reads rows of a table, but what it prints depends on the statement that the rows spell out
and on nothing else. The text of a statement by itself is defined here by recursion on the
statement, and printing at a position of a forest gives the text of the snapshot taken there.
-/

namespace YangDoc

namespace Section

variable {α β : Type} (f : α → β) (keyword : β → String) (xs : List α)

theorem ranked_map :
    ranked keyword (xs.map f) = (ranked (keyword ∘ f) xs).map (Prod.map id f) := by
  induction xs with
  | nil => rfl
  | cons x xs ih =>
    have hrank : leadingRank ((ranked (keyword ∘ f) xs).map (Prod.map id f)) =
        leadingRank (ranked (keyword ∘ f) xs) := by
      cases ranked (keyword ∘ f) xs <;> rfl
    rw [List.map_cons, ranked, ih, hrank]
    rfl

theorem canonical_map :
    canonical keyword (xs.map f) = (canonical (keyword ∘ f) xs).map f := by
  have hrank : ∀ rank, ofRank rank (ranked keyword (xs.map f)) =
      (ofRank rank (ranked (keyword ∘ f) xs)).map f := by
    intro rank
    rw [ranked_map, ofRank, ofRank, List.filter_map, List.map_map, List.map_map]
    rfl
  simp only [canonical, hrank, List.map_flatMap]

end Section

namespace Statement

/-- The order in which texts, each with its keyword, are printed below a statement. -/
def arranged (layout : Layout) (keyword : String) (texts : List (String × String)) :
    List (String × String) :=
  if layout.bySection && Keyword.isRoot keyword then Section.canonical Prod.fst texts else texts

mutual

def print (layout : Layout) (level : Nat) : Statement → String
  | ⟨keyword, argument, children⟩ =>
    if Keyword.isComment keyword then
      Layout.commentText (layout.indent level) (argument.getD "")
    else
      layout.statementText level keyword argument <|
        if children = [] then none
        else
          let texts := arranged layout keyword (printAll layout (level + 1) children)
          some (String.join (texts.map Prod.snd))

def printAll (layout : Layout) (level : Nat) : List Statement → List (String × String)
  | [] => []
  | s :: rest => (s.keyword, print layout level s) :: printAll layout level rest

end

theorem printAll_eq_map (layout : Layout) (level : Nat) (ss : List Statement) :
    printAll layout level ss = ss.map fun s => (s.keyword, s.print layout level) := by
  induction ss with
  | nil => rfl
  | cons s rest ih => rw [printAll, ih, List.map_cons]

end Statement

namespace Tree

variable {t : Tree} {layout : Layout}

theorem keyword_unfold (depth : Nat) (id : NodeId) : (t.unfold depth id).keyword = t.keyword id := by
  cases depth <;> rfl

theorem map_printOrder (text : NodeId → String) (id : NodeId) :
    (t.printOrder layout id).map text =
      (Statement.arranged layout (t.keyword id)
        ((t.children id).map fun c => (t.keyword c, text c))).map Prod.snd := by
  rw [printOrder, Statement.arranged]
  split
  · rw [Section.canonical_map, List.map_map]
    rfl
  · rw [List.map_map]
    rfl

-- the printer counts down one step more than the snapshot, to tell a leaf from the end of the count
theorem printAt_eq_print_unfold {height : Nat → Nat}
    (hheight : ∀ {p c}, t.Lists p c → height c < height p) (depth : Nat) :
    ∀ id level, height id ≤ depth →
      t.printAt layout (depth + 1) level id = (t.unfold depth id).print layout level := by
  induction depth with
  | zero =>
    intro id level hid
    have hchildren : t.children id = [] := by
      rw [List.eq_nil_iff_forall_not_mem]
      intro c hc
      have := hheight hc
      omega
    rw [printAt, unfold, Statement.print, hchildren, if_pos rfl, if_pos rfl]
  | succ depth ih =>
    intro id level hid
    have hbelow : (t.children id).map (fun c => (t.keyword c, t.printAt layout (depth + 1)
        (level + 1) c)) = Statement.printAll layout (level + 1)
          ((t.children id).map (t.unfold depth)) := by
      rw [Statement.printAll_eq_map, List.map_map]
      apply List.map_congr_left
      intro c hc
      have hlt := hheight hc
      rw [Function.comp_apply, keyword_unfold, ih c (level + 1) (by omega)]
    rw [printAt, unfold, Statement.print, map_printOrder, hbelow]
    simp only [List.map_eq_nil_iff]

/-- Printing at a position gives the text of the statement found there. -/
theorem Forest.print_eq (h : t.Forest) (layout : Layout) (id : NodeId) :
    t.print layout id = (t.snapshot id).print layout layout.startLevel := by
  obtain ⟨height, hlt, hle⟩ := h.exists_height
  exact printAt_eq_print_unfold hlt t.size id layout.startLevel (hle id)

end Tree

end YangDoc
