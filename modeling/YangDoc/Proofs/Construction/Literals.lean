import YangDoc.Proofs.Construction.Reachable
import YangDoc.Proofs.Construction.Receiving
import YangDoc.Proofs.Statement.Print
import YangDoc.Proofs.Tree.Numbering
import YangDoc.Proofs.Tree.SingleRoot

/-!
# Statements given literally

A statement can be given by value, as nested tuples, or as nested arrays in JSON. A value is
planted, which goes from the top down and looks at nothing; tuples are built from the bottom up,
with all the checks that building makes; and arrays are read as tuples first. All three add the same
statement to the document and nothing else. They differ in the numbers of the new rows: the first
numbers them in pre-order, the other two in post-order.
-/

namespace YangDoc

namespace Statement

mutual

def toTuple : Statement → Expr
  | ⟨keyword, argument, children⟩ => .tuple keyword argument (toTuples children)

def toTuples : List Statement → List Expr
  | [] => []
  | s :: rest => toTuple s :: toTuples rest

end

mutual

/-- The statement as nested arrays, each of a keyword, the argument or `null`, and an array of
substatements. -/
def toJson : Statement → Json
  | ⟨keyword, argument, children⟩ =>
    .array [.string keyword, argument.elim .null .string, .array (toJsons children)]

def toJsons : List Statement → List Json
  | [] => []
  | s :: rest => toJson s :: toJsons rest

end

mutual

theorem ofJson_toJson : (s : Statement) → Expr.ofJson s.toJson = .ok s.toTuple
  | ⟨keyword, argument, children⟩ => by
    have hargument : Expr.argumentOfJson (argument.elim .null .string) = .ok argument := by
      cases argument <;> rfl
    rw [toJson, Expr.ofJson, hargument, ofJsonAll_toJsons children]
    rfl

theorem ofJsonAll_toJsons : (ss : List Statement) → Expr.ofJsonAll (toJsons ss) = .ok (toTuples ss)
  | [] => rfl
  | s :: rest => by
    rw [toJsons, Expr.ofJsonAll, ofJson_toJson s, ofJsonAll_toJsons rest]
    rfl

end

theorem nodesAll_toTuples (ss : List Statement) : Expr.nodesAll (toTuples ss) = [] :=
  Expr.nodes_ofJson (ofJson_toJson ⟨"", none, ss⟩)

/-- Every keyword, at any depth, can be that of a substatement. -/
def Ordinary (s : Statement) : Prop :=
  ∀ k ∈ s.keywords, k ≠ "" ∧ Keyword.isRoot k = false

instance (s : Statement) : Decidable s.Ordinary :=
  inferInstanceAs (Decidable (∀ k ∈ s.keywords, k ≠ "" ∧ Keyword.isRoot k = false))

theorem ordinary_iff {keyword : String} {argument : Option String} {children : List Statement} :
    Ordinary ⟨keyword, argument, children⟩ ↔
      (keyword ≠ "" ∧ Keyword.isRoot keyword = false) ∧ ∀ s ∈ children, s.Ordinary := by
  simp only [Ordinary, keywords, List.forall_mem_cons, mem_keywordsAll]
  refine and_congr_right fun _ => ⟨fun h s hs k hk => h k ⟨s, hs, hk⟩, ?_⟩
  rintro h k ⟨s, hs, hk⟩
  exact h s hs k hk

end Statement

namespace Document

variable {w w' : Workspace} {d : Document} {s : Statement} {id : Nat} {t : Tree}

/-! ### Building tuples -/

theorem guardMoves_of_no_nodes {exprs : List Expr} (hnodes : Expr.nodesAll exprs = []) :
    (d.guardMoves none false exprs).outcome w = (.ok (), w) := by
  rcases guardMoves_cases w d none false exprs with ⟨hok, -⟩ | ⟨-, e, he, m, hm, -⟩
  · exact hok
  · rw [Expr.moving_false] at hm
    have hmem := Expr.mem_nodesAll.2 ⟨e, he, hm⟩
    rw [hnodes] at hmem
    simp at hmem

theorem construct_raised {k : String} (arg : Option String) {children : List Expr}
    {received : Build (List NodeId)} {ss : List Statement} {ids : List Nat} (hd : w.Has d)
    (hroot : Tree.root < (w.tree d).size) (hk : k ≠ "" ∧ Keyword.isRoot k = false)
    (hnodes : Expr.nodesAll children = [])
    (hreceived : received.outcome w = (.ok ids, w.setTree d t))
    (hraised : (w.tree d).Raised ss ids t) :
    ∃ t', (d.construct k arg none children received).outcome w =
        (.ok t.size, w.setTree d t') ∧ (w.tree d).Raised [⟨k, arg, ss⟩] [t.size] t' := by
  obtain ⟨t', hassemble, hraised'⟩ := hraised.assemble hroot hk.2 arg
  refine ⟨t', ?_, hraised'⟩
  have hparent : ((none : Option Node).mapM d.ownId).outcome w = (.ok none, w) := rfl
  rw [construct_of_ne d hk.1, Build.outcome_bind_of_ok hparent,
    Build.outcome_bind_of_ok (guardMoves_of_no_nodes hnodes), Build.outcome_bind_of_ok hreceived,
    outcome_edit, Workspace.tree_setTree hd, hassemble, Workspace.setTree_setTree]

mutual

theorem receive_toTuple : ∀ {w : Workspace} (s : Statement), w.Has d → (w.tree d).Forest →
    s.Ordinary → ∃ (id : Nat) (t : Tree),
      (d.receive false s.toTuple).outcome w = (.ok id, w.setTree d t) ∧
      (w.tree d).Raised [s] [id] t
  | w, ⟨k, arg, cs⟩, hd, hforest, hs => by
    rw [Statement.ordinary_iff] at hs
    obtain ⟨ids, t, hok, hraised⟩ := receiveAll_toTuples cs hd hforest hs.2
    obtain ⟨t', hok', hraised'⟩ := construct_raised arg hd hforest.root_lt hs.1
      (Statement.nodesAll_toTuples cs) hok hraised
    exact ⟨t.size, t', hok', hraised'⟩

theorem receiveAll_toTuples : ∀ {w : Workspace} (ss : List Statement), w.Has d →
    (w.tree d).Forest → (∀ s ∈ ss, s.Ordinary) →
    ∃ ids t, (d.receiveAll (Statement.toTuples ss)).outcome w = (.ok ids, w.setTree d t) ∧
      (w.tree d).Raised ss ids t
  | w, [], _, hforest, _ => ⟨[], w.tree d, by rw [Workspace.setTree_tree]; rfl, .nil hforest⟩
  | w, s :: rest, hd, hforest, hss => by
    rw [List.forall_mem_cons] at hss
    obtain ⟨id, t₁, hid, hfirst⟩ := receive_toTuple s hd hforest hss.1
    have htree : (w.setTree d t₁).tree d = t₁ := Workspace.tree_setTree hd
    have hnext : ((w.setTree d t₁).tree d).Forest := by
      rw [htree]
      exact hfirst.forest
    obtain ⟨ids, t, hids, hrest⟩ :=
      receiveAll_toTuples rest (Workspace.has_setTree.2 hd) hnext hss.2
    rw [htree] at hrest
    rw [Workspace.setTree_setTree] at hids
    refine ⟨id :: ids, t, ?_, hfirst.cons hrest⟩
    rw [Statement.toTuples, receiveAll, Build.outcome_bind_of_ok hid, Build.outcome_bind_of_ok hids]
    rfl

end

/-! ### What the document has gained -/

/-- The statement has been added to the document under `n`, which has no parent. As many rows are
new as the statement has parts, and every row that there was, of any document, is as it was. -/
structure Added (d : Document) (s : Statement) (w : Workspace) (n : Node) (w' : Workspace) :
    Prop where
  document_eq : n.document = d
  parent?_eq : n.parent? w' = none
  statement_eq : n.statement w' = s
  print_eq : ∀ layout, n.print w' layout = s.print layout layout.startLevel
  size_eq : (w'.tree d).size = (w.tree d).size + s.size
  row_eq : ∀ m : Node, m.Live w → (m.tree w').row m.id = (m.tree w).row m.id
  source_eq : ∀ d', (w'.tree d').source = (w.tree d').source
  tree_eq : ∀ d', d' ≠ d → w'.tree d' = w.tree d'

theorem Added.of_tree (hd : w.Has d) (hforest : t.Forest)
    (hsize : t.size = (w.tree d).size + s.size)
    (hrow : ∀ x, x < (w.tree d).size → t.row x = (w.tree d).row x)
    (hsource : t.source = (w.tree d).source) (hfree : ∀ q, ¬ t.Lists q id) (hs : t.Holds id s) :
    d.Added s w ⟨d, id⟩ (w.setTree d t) := by
  have htree : (w.setTree d t).tree d = t := Workspace.tree_setTree hd
  have hsnapshot : t.snapshot id = s := hforest.snapshot_eq_of_holds hs
  refine ⟨rfl, ?_, ?_, ?_, ?_, ?_, ?_, fun d' hne => Workspace.tree_setTree_of_ne hne⟩
  · rw [Node.parent?, Node.tree, htree, hforest.parent?_eq_none.2 hfree]
    rfl
  · rw [Node.statement, Node.tree, htree, hsnapshot]
  · intro layout
    rw [Node.print, Node.tree, htree, hforest.print_eq, hsnapshot]
  · rw [htree, hsize]
  · intro m hm
    by_cases hdoc : m.document = d
    · subst hdoc
      rw [Node.tree, htree]
      exact hrow m.id hm
    · rw [Node.tree, Workspace.tree_setTree_of_ne hdoc]
      rfl
  · intro d'
    by_cases hdoc : d' = d
    · rw [hdoc, htree, hsource]
    · rw [Workspace.tree_setTree_of_ne hdoc]

theorem express_statement (hd : w.Has d) (hforest : (w.tree d).Forest) (s : Statement) :
    ∃ w', (d.express (.statement s)).outcome w = (.ok ⟨d, (w.tree d).size⟩, w') ∧
      d.Added s w ⟨d, (w.tree d).size⟩ w' ∧
      (w'.tree d).preorder .all (w.tree d).size = List.range' (w.tree d).size s.size := by
  have hplanted := (w.tree d).planted s
  have htree : (w.setTree d ((w.tree d).plant s).1).tree d = ((w.tree d).plant s).1 :=
    Workspace.tree_setTree hd
  have hparent : ((none : Option Node).mapM d.ownId).outcome w = (.ok none, w) := rfl
  refine ⟨w.setTree d ((w.tree d).plant s).1, ?_, ?_, ?_⟩
  · have hrecord := outcome_edit (w.setTree d ((w.tree d).plant s).1) d
      fun t => (.ok (), t.setParent (w.tree d).size none)
    rw [htree, Tree.setParent_none hplanted.recorded_eq, Workspace.setTree_setTree] at hrecord
    rw [express, Build.outcome_bind_of_ok hparent, Build.outcome_bind_of_ok (outcome_plant w d s),
      Build.outcome_bind_of_ok hrecord]
    rfl
  · exact .of_tree hd (hplanted.forest hforest) hplanted.size_eq hplanted.row_eq
      (Tree.source_plant _ s) (hplanted.not_lists hforest.listed_lt) hplanted.holds
  · rw [htree, Tree.preorder_plant]

theorem express_toTuple (hd : w.Has d) (hforest : (w.tree d).Forest) (hs : s.Ordinary) :
    ∃ w', (d.express s.toTuple).outcome w = (.ok ⟨d, (w.tree d).size + s.size - 1⟩, w') ∧
      d.Added s w ⟨d, (w.tree d).size + s.size - 1⟩ w' ∧
      (w'.tree d).postorder ((w.tree d).size + s.size - 1) =
        List.range' (w.tree d).size s.size := by
  obtain ⟨id, t, hok, hraised⟩ := receive_toTuple s hd hforest hs
  have hall : Statement.sizeAll [s] = s.size := by
    rw [Statement.sizeAll, Statement.sizeAll, Nat.add_zero]
  have horder : t.postorder id = List.range' (w.tree d).size s.size := by
    rw [← List.flatMap_singleton t.postorder id, hraised.postorder_eq, hall]
  obtain rfl : id = (w.tree d).size + s.size - 1 := by
    have := hraised.forest.add_one_of_postorder horder
    omega
  refine ⟨w.setTree d t, ?_, ?_, ?_⟩
  · obtain ⟨k, arg, cs⟩ := s
    exact Build.outcome_bind_of_ok hok
  · exact .of_tree hd hraised.forest (hall ▸ hraised.size_eq) hraised.row_eq hraised.source_eq
      (hraised.not_lists (List.mem_singleton_self _)) (Tree.holdsAll_singleton.1 hraised.holds)
  · rw [Workspace.tree_setTree hd, horder]

end Document

namespace Workspace

/-- A statement given by value, as tuples or in JSON is added in the same way, without parent and
without a change to what there was. By value its rows are numbered in pre-order, so that it comes
first itself; otherwise they are numbered in post-order, and it comes last. -/
theorem literals_agree {w : Workspace} (hw : w.Reachable) {d : Document} (hd : w.Has d)
    {s : Statement} (hs : s.Ordinary) :
    let size := (w.tree d).size
    ∃ w₁ w₂,
      (d.express (.statement s)).outcome w = (.ok ⟨d, size⟩, w₁) ∧
      (d.express s.toTuple).outcome w = (.ok ⟨d, size + s.size - 1⟩, w₂) ∧
      (d.ofJson s.toJson).outcome w = (.ok ⟨d, size + s.size - 1⟩, w₂) ∧
      d.Added s w ⟨d, size⟩ w₁ ∧ d.Added s w ⟨d, size + s.size - 1⟩ w₂ ∧
      (w₁.tree d).preorder .all size = List.range' size s.size ∧
      (w₂.tree d).postorder (size + s.size - 1) = List.range' size s.size := by
  intro size
  have hforest := hw.sound d hd
  obtain ⟨w₁, hvalue, hadded, hpreorder⟩ := Document.express_statement hd hforest s
  obtain ⟨w₂, htuple, hadded', hpostorder⟩ := Document.express_toTuple hd hforest hs
  refine ⟨w₁, w₂, hvalue, htuple, ?_, hadded, hadded', hpreorder, hpostorder⟩
  rw [Document.ofJson, Statement.ofJson_toJson]
  exact htuple

/-- A list with two substatements, one of which has a substatement of its own, becomes the fourth
row of the document or the seventh. -/
theorem literals_agree_sample :
    sample.Reachable ∧ ∃ (s : Statement) (w₁ w₂ : Workspace), s.Ordinary ∧ s.size = 4 ∧
      ((⟨0⟩ : Document).express (.statement s)).outcome sample = (.ok ⟨⟨0⟩, 3⟩, w₁) ∧
      ((⟨0⟩ : Document).ofJson s.toJson).outcome sample = (.ok ⟨⟨0⟩, 6⟩, w₂) ∧
      (⟨⟨0⟩, 3⟩ : Node).statement w₁ = (⟨⟨0⟩, 6⟩ : Node).statement w₂ ∧
      (w₁.tree ⟨0⟩).children 3 = [4, 6] ∧ (w₂.tree ⟨0⟩).children 6 = [4, 5] := by
  obtain ⟨w₁, w₂, hvalue, -, hjson, hadded, hadded', -, -⟩ := literals_agree reachable_sample
    (d := ⟨0⟩) (by decide) (s := ⟨"list", some "x",
      [⟨"container", some "y", [⟨"leaf", some "z", []⟩]⟩, ⟨"description", none, []⟩]⟩) (by decide)
  refine ⟨reachable_sample, _, w₁, w₂, by decide, rfl, hvalue, hjson, ?_, ?_, ?_⟩
  · exact hadded.statement_eq.trans hadded'.statement_eq.symm
  · rw [← (Prod.mk.inj hvalue).2]
    decide
  · rw [← (Prod.mk.inj hjson).2]
    decide

end Workspace

end YangDoc
