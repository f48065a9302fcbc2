import YangDoc.Proofs.Construction.Safety

/-!
# Workspaces that can be reached

A caller starts documents and then calls the library, with nodes it got from earlier calls, in any
order and whether or not a call is refused. The workspaces that come about in this way are the
reachable ones. In each of them every document is a forest, so a statement is among the
substatements of exactly the node that it gives as its parent.
-/

namespace YangDoc

/-- A call that builds, with all it is given. -/
inductive Call where
  | build (d : Document) (keyword : String) (input : Input) (parent : Option Node)
  | buildByMethod (d : Document) (method : String) (qualifier : Option String) (input : Input)
  | comment (d : Document) (text : String)
  | blankLine (d : Document)
  | express (d : Document) (e : Expr) (parent : Option Node)
  | ofJson (d : Document) (value : Json)
  | buildBelow (n : Node) (keyword : String) (input : Input)
  | buildBelowByMethod (n : Node) (method : String) (qualifier : Option String) (input : Input)
  | commentBelow (n : Node) (text : String)
  | blankLineBelow (n : Node)
  | expressBelow (n : Node) (e : Expr)
  | append (n : Node) (items : List Expr) (copy : Bool)
  | buildBelowAll (nodes : NodeList) (keyword : String) (input : Input)
  | buildBelowAllByMethod (nodes : NodeList) (method : String) (input : Input)

namespace Call

/-- The computation that the call starts. What it returns is left to the caller. -/
def run : Call → Build Unit
  | build d keyword input parent => discard (d.build keyword input parent)
  | buildByMethod d method qualifier input => discard (d.buildByMethod method qualifier input)
  | comment d text => discard (d.comment text)
  | blankLine d => discard d.blankLine
  | express d e parent => discard (d.express e parent)
  | ofJson d value => discard (d.ofJson value)
  | buildBelow n keyword input => discard (n.build keyword input)
  | buildBelowByMethod n method qualifier input => discard (n.buildByMethod method qualifier input)
  | commentBelow n text => discard (n.comment text)
  | blankLineBelow n => discard n.blankLine
  | expressBelow n e => discard (n.express e)
  | append n items copy => n.append items copy
  | buildBelowAll nodes keyword input => discard (nodes.build keyword input)
  | buildBelowAllByMethod nodes method input => discard (nodes.buildByMethod method input)

def documents : Call → List Document
  | build d .. | buildByMethod d .. | comment d _ | blankLine d | express d .. | ofJson d _ => [d]
  | _ => []

def nodes : Call → List Node
  | build _ _ input parent => parent.toList ++ Expr.nodesAll input.children
  | buildByMethod _ _ _ input => Expr.nodesAll input.children
  | express _ e parent => parent.toList ++ e.nodes
  | comment .. | blankLine _ | ofJson .. => []
  | buildBelow n _ input | buildBelowByMethod n _ _ input => n :: Expr.nodesAll input.children
  | commentBelow n _ | blankLineBelow n => [n]
  | expressBelow n e => n :: e.nodes
  | append n items _ => n :: Expr.nodesAll items
  | buildBelowAll nodes _ input | buildBelowAllByMethod nodes _ input =>
    nodes ++ Expr.nodesAll input.children

structure Live (c : Call) (w : Workspace) : Prop where
  documents : ∀ d ∈ c.documents, w.Has d
  nodes : ∀ n ∈ c.nodes, n.Live w

end Call

namespace Build

variable {α : Type} {w : Workspace} {good : α → Workspace → Prop}

theorem Safe.discard {m : Build α} (hm : m.Safe w good) :
    (Functor.discard m : Build Unit).Safe w fun _ _ => True :=
  hm.bind (f := fun _ => Pure.pure ()) fun _ _ _ _ => .pure trivial

end Build

/-- Whatever the call and however it ends, it makes edits only. -/
theorem Call.run_safe {w : Workspace} (hw : w.Sound) {c : Call} (hc : c.Live w) :
    c.run.Safe w fun _ _ => True := by
  obtain ⟨hdocuments, hnodes⟩ := hc
  cases c with
  | build d keyword input parent =>
    refine (Document.build_safe hw (hdocuments d (List.mem_singleton_self d)) ?_).discard
    exact fun n hn => hnodes n (List.mem_append_right _ hn)
  | buildByMethod d method qualifier input =>
    exact (Document.build_safe hw (hdocuments d (List.mem_singleton_self d)) hnodes).discard
  | comment d text =>
    exact (Document.build_safe hw (hdocuments d (List.mem_singleton_self d))
      (by simp [Expr.nodesAll])).discard
  | blankLine d =>
    exact (Document.build_safe hw (hdocuments d (List.mem_singleton_self d))
      (by simp [Expr.nodesAll])).discard
  | express d e parent =>
    refine (Document.express_safe hw (hdocuments d (List.mem_singleton_self d)) ?_ parent).discard
    exact fun n hn => hnodes n (List.mem_append_right _ hn)
  | ofJson d value =>
    exact (Document.ofJson_safe hw (hdocuments d (List.mem_singleton_self d)) value).discard
  | buildBelow n keyword input =>
    refine (Node.build_safe hw (hnodes n List.mem_cons_self) ?_).discard
    exact fun m hm => hnodes m (List.mem_cons_of_mem n hm)
  | buildBelowByMethod n method qualifier input =>
    refine (Node.build_safe hw (hnodes n List.mem_cons_self) ?_).discard
    exact fun m hm => hnodes m (List.mem_cons_of_mem n hm)
  | commentBelow n text =>
    exact (Node.comment_safe hw (hnodes n List.mem_cons_self) text).discard
  | blankLineBelow n =>
    exact (Node.blankLine_safe hw (hnodes n List.mem_cons_self)).discard
  | expressBelow n e =>
    refine (Node.express_safe hw (hnodes n List.mem_cons_self) ?_).discard
    exact fun m hm => hnodes m (List.mem_cons_of_mem n hm)
  | append n items copy =>
    refine Node.append_safe hw (hnodes n List.mem_cons_self) (fun e he m hm => ?_) copy
    exact hnodes m (List.mem_cons_of_mem n (Expr.mem_nodesAll.2 ⟨e, he, hm⟩))
  | buildBelowAll nodes keyword input =>
    refine (NodeList.build_safe hw ?_ keyword input).discard
    exact fun n hn => hnodes n (List.mem_append_left _ hn)
  | buildBelowAllByMethod nodes method input =>
    refine (NodeList.build_safe hw ?_ _ input).discard
    exact fun n hn => hnodes n (List.mem_append_left _ hn)

namespace Workspace

/-- The workspaces that come about by starting documents and calling the library. -/
inductive Reachable : Workspace → Prop where
  | empty : Reachable {}
  | new {w : Workspace} (hw : Reachable w) (source : String) :
      Reachable (w.add (Tree.new source "module")).1
  | ofStatement {w : Workspace} (hw : Reachable w) (top : Statement) :
      Reachable (w.add (Tree.ofStatement top)).1
  | call {w : Workspace} (hw : Reachable w) (c : Call) (hc : c.Live w) :
      Reachable (c.run.outcome w).2

theorem has_add_cases {w : Workspace} {t : Tree} {d : Document} (hd : (w.add t).1.Has d) :
    (w.add t).1.tree d = t ∨ w.Has d ∧ (w.add t).1.tree d = w.tree d := by
  have hsize : d.index < w.trees.size + 1 := by
    simpa [Has, Workspace.add] using hd
  by_cases hnew : d.index = w.trees.size
  · left
    simp [tree, Workspace.add, hnew]
  · right
    have hold : d.index < w.trees.size := by omega
    refine ⟨hold, ?_⟩
    simp [tree, Workspace.add, Array.getElem?_push, hnew]

theorem Sound.add {w : Workspace} (hw : w.Sound) {t : Tree} (ht : t.Forest) :
    (w.add t).1.Sound := by
  intro d hd
  rcases has_add_cases hd with htree | ⟨hold, htree⟩
  · rw [htree]
    exact ht
  · rw [htree]
    exact hw d hold

theorem Reachable.sound {w : Workspace} (hw : w.Reachable) : w.Sound := by
  induction hw with
  | empty => exact fun d hd => absurd hd (Nat.not_lt_zero _)
  | new _ source ih => exact ih.add (Tree.forest_new source "module")
  | ofStatement _ top ih => exact ih.add (Tree.forest_ofStatement top)
  | call _ c hc ih => exact (Call.run_safe ih hc).edits.sound ih

theorem Reachable.tree {w : Workspace} (hw : w.Reachable) {d : Document} (hd : w.Has d) :
    (w.tree d).Reachable := by
  induction hw with
  | empty => exact absurd hd (Nat.not_lt_zero _)
  | new _ source ih =>
    rcases has_add_cases hd with htree | ⟨hold, htree⟩
    · rw [htree]
      exact .new source "module"
    · rw [htree]
      exact ih hold
  | ofStatement _ top ih =>
    rcases has_add_cases hd with htree | ⟨hold, htree⟩
    · rw [htree]
      exact .ofStatement top
    · rw [htree]
      exact ih hold
  | call hold c hc ih =>
    have hedits := (Call.run_safe hold.sound hc).edits
    exact (ih (hedits.has_iff.1 hd)).edits (hedits.tree d)

/-- Two documents, the first with a leaf in a container. -/
def sample : Workspace :=
  ((Call.buildBelow ⟨⟨0⟩, 0⟩ "container"
    { argument := some "c", children := [.tuple "leaf" (some "l") []] }).run.outcome
      ((({} : Workspace).add (Tree.new "a" "module")).1.add (Tree.new "b" "module")).1).2

theorem reachable_sample : sample.Reachable := by
  refine ((Reachable.empty.new "a").new "b").call _ ⟨by simp [Call.documents], ?_⟩
  intro n hn
  rw [List.mem_singleton.1 hn]
  exact Nat.zero_lt_one

/-! ### Parents and substatements -/

variable {w : Workspace} {n c : Node}

theorem mem_children_iff :
    c ∈ n.children w ↔ c.document = n.document ∧ (n.tree w).Lists n.id c.id := by
  obtain ⟨d, id⟩ := c
  rw [Node.children, List.mem_map]
  constructor
  · intro hchild
    obtain ⟨x, hx, heq⟩ := hchild
    obtain ⟨rfl, rfl⟩ := Node.mk.inj heq
    exact ⟨rfl, hx⟩
  · intro hlisted
    obtain ⟨hdoc, hlist⟩ := hlisted
    exact ⟨id, hlist, congrArg (Node.mk · id) hdoc.symm⟩

theorem parent?_eq_some_iff :
    c.parent? w = some n ↔ c.document = n.document ∧ (c.tree w).parent? c.id = some n.id := by
  obtain ⟨d, id⟩ := n
  rw [Node.parent?, Option.map_eq_some_iff]
  constructor
  · intro hparent
    obtain ⟨p, hp, heq⟩ := hparent
    obtain ⟨rfl, rfl⟩ := Node.mk.inj heq
    exact ⟨rfl, hp⟩
  · intro hlisted
    obtain ⟨hdoc, hp⟩ := hlisted
    exact ⟨id, hp, by rw [hdoc]⟩

theorem Sound.mem_children_iff_parent? (hw : w.Sound) :
    c ∈ n.children w ↔ c.parent? w = some n := by
  rw [mem_children_iff, parent?_eq_some_iff]
  apply and_congr_right
  intro hdoc
  rw [Node.tree, Node.tree, hdoc]
  by_cases hd : w.Has n.document
  · exact (hw _ hd).parent?_eq_some.symm
  · -- outside the workspace nothing is listed, so nothing counts as a parent either
    have hnone : ¬ (w.tree n.document).Lists n.id c.id := fun hlist =>
      hd (Node.Live.has (n := n) hlist.lt_size)
    rw [Tree.parent?_eq_some_iff]
    exact ⟨fun hlist => absurd hlist hnone, fun h => h.2⟩

/-- In a reachable workspace every document is a forest: its root is on no list, a statement is a
substatement of exactly the node that it gives as its parent, and of no two nodes. -/
theorem reachable_forest (hw : w.Reachable) :
    (∀ d, w.Has d → (w.tree d).Forest) ∧
      (∀ (d : Document) (n : Node), w.Has d → d.root ∉ n.children w) ∧
      (∀ n c : Node, c ∈ n.children w ↔ c.parent? w = some n) ∧
      ∀ n m c : Node, c ∈ n.children w → c ∈ m.children w → n = m := by
  have hsound := hw.sound
  refine ⟨hsound, ?_, fun n c => hsound.mem_children_iff_parent?, ?_⟩
  · intro d n hd hroot
    obtain ⟨hdoc, hlist⟩ := mem_children_iff.1 hroot
    rw [Node.tree, ← hdoc] at hlist
    exact (hsound d hd).not_lists_root n.id hlist
  · intro n m c hn hm
    rw [hsound.mem_children_iff_parent?] at hn hm
    exact Option.some.inj (hn.symm.trans hm)

theorem reachable_forest_sample :
    sample.Reachable ∧ (sample.tree ⟨0⟩).Forest ∧
      ((⟨⟨0⟩, 1⟩ : Node) ∈ (⟨⟨0⟩, 2⟩ : Node).children sample ↔
        (⟨⟨0⟩, 1⟩ : Node).parent? sample = some ⟨⟨0⟩, 2⟩) := by
  obtain ⟨hforest, -, hiff, -⟩ := reachable_forest reachable_sample
  exact ⟨reachable_sample, hforest ⟨0⟩ (by decide), hiff _ _⟩

end Workspace

end YangDoc
