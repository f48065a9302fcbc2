import YangDoc.Proofs.Construction.RootKeywords
import YangDoc.Proofs.Expr.Denotation

/-!
# One root for each document

A call that succeeds leaves the roots as the only statements with a root keyword exactly when it is
given no value with one and copies no root. So the root is the only one in every run of such calls,
and the first other call that succeeds ends this; a root keyword is then nested below any node that
is asked to take it.
-/

namespace YangDoc

variable {w : Workspace} {d : Document}

/-! ### Calls -/

namespace Call

/-- The statements that the call plants by value; a broadcast does so for each member. -/
def values : Call → List Statement
  | build _ _ input _ | buildByMethod _ _ _ input | buildBelow _ _ input
  | buildBelowByMethod _ _ _ input => Expr.valuesAll input.children
  | express _ e _ | expressBelow _ e => e.values
  | append _ items _ => Expr.valuesAll items
  | buildBelowAll nodes _ input | buildBelowAllByMethod nodes _ input =>
    nodes.flatMap fun _ => Expr.valuesAll input.children
  | comment .. | blankLine _ | ofJson .. | commentBelow .. | blankLineBelow _ => []

def copied : Call → List Node
  | build d _ input _ | buildByMethod d _ _ input => Expr.copiedAll d input.children
  | express d e _ => Expr.copiedAll d e.children
  | buildBelow n _ input | buildBelowByMethod n _ _ input =>
    Expr.copiedAll n.document input.children
  | expressBelow n e => e.copied n.document false
  | append n items copy => items.flatMap (·.copied n.document copy)
  | buildBelowAll nodes _ input | buildBelowAllByMethod nodes _ input =>
    nodes.flatMap fun _ => Expr.nodesAll input.children
  | comment .. | blankLine _ | ofJson .. | commentBelow .. | blankLineBelow _ => []

/-- The call brings no root keyword into a document: it is given no value with one, and it copies
no root. -/
def Rootless (c : Call) : Prop :=
  (∀ s ∈ c.values, s.Rootless) ∧ ∀ n ∈ c.copied, n.id ≠ Tree.root

theorem rootless_append_iff {n : Node} {items : List Expr} {copy : Bool} :
    (append n items copy).Rootless ↔ ∀ e ∈ items, e.Rootless n.document copy := by
  simp only [Rootless, values, copied, Expr.mem_valuesAll, List.mem_flatMap, Expr.Rootless,
    forall_exists_index, and_imp]
  exact ⟨fun h e he => ⟨fun s hs => h.1 s e he hs, fun m hm => h.2 m e he hm⟩,
    fun h => ⟨fun s e he hs => (h e he).1 s hs, fun m e he hm => (h e he).2 m hm⟩⟩

theorem rootless_buildBelowAll_iff {nodes : NodeList} (keyword : String) {input : Input} :
    (buildBelowAll nodes keyword input).Rootless ↔ ∀ _n ∈ nodes,
      (∀ s ∈ Expr.valuesAll input.children, s.Rootless) ∧
        ∀ m ∈ Expr.nodesAll input.children, m.id ≠ Tree.root := by
  simp only [Rootless, values, copied, List.mem_flatMap, forall_exists_index, and_imp]
  exact ⟨fun h n hn => ⟨fun s hs => h.1 s n hn hs, fun m hm => h.2 m n hn hm⟩,
    fun h => ⟨fun s n hn hs => (h n hn).1 s hs, fun m n hn hm => (h n hn).2 m hm⟩⟩

theorem run_brings (hw : w.Rooted) {c : Call} (hc : c.Live w) : c.run.Brings w c.Rootless := by
  have hdocuments := hc.documents
  have hnodes : ∀ n ∈ c.nodes, w.Has n.document := fun n hn => (hc.nodes n hn).has
  have hnone : ∀ {m : Build Unit}, m.Brings w True →
      m.Brings w ((∀ s ∈ ([] : List Statement), s.Rootless) ∧
        ∀ n ∈ ([] : List Node), n.id ≠ Tree.root) :=
    fun hm => hm.congr fun _ => by simp
  cases c with
  | build d keyword input parent =>
    refine (Document.build_brings hw (hdocuments d (List.mem_singleton_self d)) keyword parent
      fun n hn => ?_).discard
    exact hnodes n (List.mem_append_right _ hn)
  | buildByMethod d method qualifier input =>
    exact (Document.build_brings hw (hdocuments d (List.mem_singleton_self d)) _ none
      hnodes).discard
  | comment d text =>
    have hd := hdocuments d (List.mem_singleton_self d)
    exact hnone (Document.comment_brings hw hd _).discard
  | blankLine d =>
    have hd := hdocuments d (List.mem_singleton_self d)
    exact hnone (Document.comment_brings hw hd _).discard
  | express d e parent =>
    refine (Document.express_brings hw (hdocuments d (List.mem_singleton_self d)) parent
      fun n hn => ?_).discard
    exact hnodes n (List.mem_append_right _ hn)
  | ofJson d value =>
    have hd := hdocuments d (List.mem_singleton_self d)
    exact hnone (Document.ofJson_brings hw hd value).discard
  | buildBelow n keyword input =>
    rw [nodes, List.forall_mem_cons] at hnodes
    exact (Node.build_brings hw hnodes.1 keyword hnodes.2).discard
  | buildBelowByMethod n method qualifier input =>
    rw [nodes, List.forall_mem_cons] at hnodes
    exact (Node.build_brings hw hnodes.1 _ hnodes.2).discard
  | commentBelow n text =>
    have hn := hnodes n (List.mem_singleton_self n)
    exact hnone (Node.attach_built_brings hn (Document.comment_brings hw hn _)).discard
  | blankLineBelow n =>
    have hn := hnodes n (List.mem_singleton_self n)
    exact hnone (Node.attach_built_brings hn (Document.comment_brings hw hn _)).discard
  | expressBelow n e =>
    rw [nodes, List.forall_mem_cons] at hnodes
    exact (Node.express_brings hw hnodes.1 hnodes.2).discard
  | append n items copy =>
    rw [nodes, List.forall_mem_cons] at hnodes
    exact (Node.append_brings hw hnodes.1 copy hnodes.2).congr fun _ => rootless_append_iff
  | buildBelowAll members keyword input =>
    rw [nodes, List.forall_mem_append] at hnodes
    exact (NodeList.build_brings hw hnodes.1 keyword hnodes.2).discard.congr
      fun _ => rootless_buildBelowAll_iff keyword
  | buildBelowAllByMethod members method input =>
    rw [nodes, List.forall_mem_append] at hnodes
    exact (NodeList.build_brings hw hnodes.1 _ hnodes.2).discard.congr
      fun _ => rootless_buildBelowAll_iff (Keyword.ofMethod method none)

end Call

/-! ### Copies under a node -/

/-- The document receives the expression as a copy. -/
def Expr.Copied (d : Document) (copy : Bool) : Expr → Prop
  | .node n => copy = true ∨ n.document ≠ d
  | .statement _ => True
  | .tuple .. => False

theorem Document.receive_copied {e : Expr} {copy : Bool} (hd : w.Has d) (he : e.Copied d copy) :
    ∃ w', (d.receive copy e).outcome w = (.ok (w.tree d).size, w') ∧
      w'.tree d = ((w.tree d).plant (e.denote w)).1 := by
  cases e with
  | tuple keyword argument children => exact he.elim
  | statement s =>
    rw [receive]
    exact ⟨_, outcome_plant w d s, Workspace.tree_setTree hd⟩
  | node n =>
    rw [receive]
    by_cases hdoc : n.document = d
    · obtain rfl : copy = true := he.resolve_right fun hne => hne hdoc
      exact ⟨_, outcome_receiveNode_own w d hdoc true, Workspace.tree_setTree hd⟩
    · refine ⟨_, outcome_receiveNode_foreign w d hdoc copy, ?_⟩
      cases copy with
      | true => exact Workspace.tree_setTree hd
      | false =>
        exact (Workspace.tree_setTree_of_ne (Ne.symm hdoc)).trans (Workspace.tree_setTree hd)

/-- A copy is accepted below any node, and it keeps its keyword, whatever that is. -/
theorem Node.append_copied (hw : w.Sound) {n : Node} (hn : n.Live w) {e : Expr} {copy : Bool}
    (he : e.Copied n.document copy) :
    ∃ w', (n.append [e] copy).outcome w = (.ok (), w') ∧
      ∃ c ∈ n.children w', c.keyword w' = (e.denote w).keyword := by
  obtain ⟨w₁, hreceive, htree⟩ := Document.receive_copied hn.has he
  have hd₁ : w₁.Has n.document := by
    have hplanted := ((n.tree w).planted (e.denote w)).size_eq
    refine Node.Live.has (n := n) (Nat.lt_of_lt_of_le hn ?_)
    rw [Node.tree, Node.tree, htree]
    exact Nat.le.intro hplanted.symm
  obtain ⟨t, hattach, hlist, hkeyword⟩ :=
    ((n.tree w).planted (e.denote w)).attach_ok (hw _ hn.has) hn
  have hguard : (n.document.guardMoves (some n.id) copy [e]).outcome w = (.ok (), w) := by
    have hnone : e.refusal? (n.tree w) n.document (some n.id) copy = none := by
      cases e with
      | tuple keyword argument children => exact he.elim
      | statement s => rw [Expr.refusal?]
      | node m =>
        rw [Expr.refusal?, if_neg]
        rintro ⟨rfl, hdoc⟩
        exact he.elim Bool.false_ne_true fun hne => hne hdoc
    rw [Document.outcome_guardMoves, List.findSome?_cons, ← Node.tree, hnone]
    rfl
  have hlast : (n.document.attach n.id (n.tree w).size).outcome w₁ =
      (.ok (), w₁.setTree n.document t) := by
    rw [Document.outcome_attach, htree, Tree.attachAll, ← Node.tree, hattach]
    rfl
  have hreceived : (n.receive copy e).outcome w =
      (.ok (n.tree w).size, w₁.setTree n.document t) :=
    (Build.outcome_bind_of_ok hreceive).trans (Build.outcome_bind_of_ok hlast)
  have htree' : (w₁.setTree n.document t).tree n.document = t := Workspace.tree_setTree hd₁
  refine ⟨w₁.setTree n.document t, ?_, ⟨n.document, (n.tree w).size⟩, ?_, ?_⟩
  · exact (Build.outcome_bind_of_ok hguard).trans
      (Build.outcome_bind_of_ok (Build.outcome_bind_of_ok hreceived))
  · rw [Workspace.mem_children_iff]
    exact ⟨rfl, by rwa [Node.tree, htree']⟩
  · rw [Node.keyword, Node.tree, htree']
    exact hkeyword

/-! ### Runs -/

namespace Workspace

/-- The workspaces that come about by starting documents under a name and making calls that are
allowed. -/
inductive Run (allowed : Call → Prop) : Workspace → Prop where
  | empty : Run allowed {}
  | new {w : Workspace} (hw : Run allowed w) (source : String) :
      Run allowed (w.add (Tree.new source "module")).1
  | call {w : Workspace} (hw : Run allowed w) (c : Call) (hc : c.Live w) (hallowed : allowed c) :
      Run allowed (c.run.outcome w).2

theorem Run.reachable {allowed : Call → Prop} (hw : Run allowed w) : w.Reachable := by
  induction hw with
  | empty => exact .empty
  | new _ source ih => exact ih.new source
  | call _ c hc _ ih => exact ih.call c hc

theorem Run.rooted {allowed : Call → Prop} (hw : Run allowed w) : w.Rooted := by
  induction hw with
  | empty => exact fun d hd => absurd hd (Nat.not_lt_zero _)
  | new _ source ih =>
    intro d hd
    rcases has_add_cases hd with htree | ⟨hold, htree⟩
    · rw [htree]
      exact Tree.rooted_new source
    · rw [htree]
      exact ih d hold
  | call _ c hc _ ih => exact (Call.run_brings ih hc).rooted

theorem Run.onlyRoots (hw : Run Call.Rootless w) : w.OnlyRoots := by
  induction hw with
  | empty => exact fun d hd => absurd hd (Nat.not_lt_zero _)
  | new _ source ih =>
    intro d hd
    rcases has_add_cases hd with htree | ⟨hold, htree⟩
    · rw [htree]
      exact Tree.onlyRoot_new source
    · rw [htree]
      exact ih d hold
  | call hold c hc hallowed ih => exact (Call.run_brings hold.rooted hc).onlyRoots ih hallowed

/-- While no call brings in a root keyword by value or copies a root, a root keyword is the mark of
the root, and no substatement has one. A call that succeeds leaves it so only if it is such a call
itself; for every node accepts any copy as a substatement, whatever its keyword. -/
theorem root_keyword_iff {w : Workspace} (hw : Run Call.Rootless w) :
    w.SingleRooted ∧
    (∀ n c : Node, c ∈ n.children w → Keyword.isRoot (c.keyword w) = false) ∧
    (∀ (c : Call) w', c.Live w → c.run.outcome w = (.ok (), w') →
      (w'.SingleRooted ↔ c.Rootless)) ∧
    ∀ (n : Node) (e : Expr) copy, n.Live w → e.Copied n.document copy →
      ∃ w', (n.append [e] copy).outcome w = (.ok (), w') ∧
        ∃ c ∈ n.children w', c.keyword w' = (e.denote w).keyword := by
  have hrooted := hw.rooted
  have honly := hw.onlyRoots
  refine ⟨hrooted.singleRooted_iff.2 honly, ?_, ?_, ?_⟩
  · intro n c hc
    obtain ⟨hdoc, hlist⟩ := mem_children_iff.1 hc
    have hd : w.Has n.document := Node.Live.has (n := n) hlist.lt_size
    rw [Node.keyword, Node.tree, hdoc, ← Bool.not_eq_true]
    intro hroot
    rw [honly _ hd c.id hroot] at hlist
    exact (hrooted _ hd).unlisted n.id hlist
  · intro c w' hc hok
    have hbrings := Call.run_brings hrooted hc
    obtain ⟨hrooted', -, hkept, hof⟩ := hbrings
    rw [hok] at hrooted' hkept hof
    rw [hrooted'.singleRooted_iff]
    exact ⟨fun honly' => (hof () rfl honly').2, hkept honly⟩
  · exact fun n e copy hn he => Node.append_copied hw.reachable.sound hn he

theorem root_keyword_iff_sample :
    Run Call.Rootless sample ∧ Keyword.isRoot ((⟨⟨0⟩, 2⟩ : Node).keyword sample) = false ∧
      ∃ w', ((⟨⟨0⟩, 2⟩ : Node).append [.node ⟨⟨1⟩, 0⟩]).outcome sample = (.ok (), w') ∧
        ¬ w'.SingleRooted ∧
        ∃ c ∈ (⟨⟨0⟩, 2⟩ : Node).children w', c.keyword w' = "module" := by
  have hrun : Run Call.Rootless sample := by
    refine ((Run.empty.new "a").new "b").call _ ⟨by simp [Call.documents], ?_⟩
      ⟨by decide, by decide⟩
    decide
  obtain ⟨-, hlisted, hexact, hnested⟩ := root_keyword_iff hrun
  refine ⟨hrun, hlisted ⟨⟨0⟩, 0⟩ ⟨⟨0⟩, 2⟩ (by decide), ?_⟩
  obtain ⟨w', hok, hchild⟩ := hnested ⟨⟨0⟩, 2⟩ (.node ⟨⟨1⟩, 0⟩) false (by decide)
    (.inr (by decide))
  refine ⟨w', hok, fun hsingle => ?_, hchild⟩
  have hrootless := (hexact (.append ⟨⟨0⟩, 2⟩ [.node ⟨⟨1⟩, 0⟩] false) w'
    ⟨by simp [Call.documents], by decide⟩ hok).1 hsingle
  exact hrootless.2 ⟨⟨1⟩, 0⟩ (by decide) rfl

/-- A value with a root keyword, below the root. -/
theorem root_keyword_nested :
    ¬ ∀ w, Run (fun _ => True) w → ∀ n c : Node, c ∈ n.children w →
      Keyword.isRoot (c.keyword w) = false := by
  intro h
  have hempty : Run (fun _ => True) {} := .empty
  have hrun := (hempty.new "m").call
    (.append ⟨⟨0⟩, 0⟩ [.statement ⟨"module", some "x", []⟩] false)
    ⟨by simp [Call.documents], by decide⟩ trivial
  exact absurd (h _ hrun ⟨⟨0⟩, 0⟩ ⟨⟨0⟩, 1⟩ (by decide)) (by decide)

end Workspace

end YangDoc
