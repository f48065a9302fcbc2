import YangDoc.Proofs.Construction.Preflight

/-!
# Calls that fail

What is left of a workspace after a call that failed. With ordinary keywords it is the workspace
before the call, and the calls that fail are exactly those that would nest the root or put a node
beneath itself. With other keywords the check does not see the failure coming, and the call may have
done something by then: a tuple with a root keyword whose parts are ordinary overwrites the root
before its place below a node is refused, and one without a keyword is refused after the expressions
before it have been appended.
-/

namespace YangDoc

variable {w : Workspace} {d : Document}

/-! ### Making nodes of expressions -/

def Expr.children : Expr → List Expr
  | .node _ => []
  | .statement _ => []
  | .tuple _ _ children => children

namespace Document

/-- Why no node is made of an expression at all. -/
def RefusesExpr (d : Document) (w : Workspace) (parent : Option Node) : Expr → Prop
  | .node _ => False
  | .statement _ => ∃ p ∈ parent, p.document ≠ d
  | .tuple keyword _ children => d.Refuses w keyword parent children

theorem express_checked (hw : w.Sound) (hd : w.Has d) {e : Expr} (he : e.Live w)
    (parent : Option Node) :
    (d.express e parent).Checked w (d.RefusesExpr w parent e) e.children := by
  cases e with
  | node n => exact ⟨False.elim, fun _ _ => ⟨n, w, rfl⟩, by simp [Expr.children]⟩
  | tuple keyword argument children => exact build_checked hw hd keyword argument parent he
  | statement s =>
    refine ⟨?_, ?_, by simp [Expr.children]⟩
    · intro hparent
      obtain ⟨p, hp, hforeign⟩ := hparent
      rcases mapM_ownId_cases w d parent with ⟨-, hown⟩ | ⟨⟨err, herr⟩, -⟩
      · exact absurd (hown p hp) hforeign
      · exact ⟨err, Build.outcome_bind_of_error herr⟩
    · intro hnot _
      rcases mapM_ownId_cases w d parent with ⟨hok, -⟩ | ⟨-, hforeign⟩
      · have hplant := outcome_plant w d s
        have hrecord := outcome_edit (w.setTree d ((w.tree d).plant s).1) d
          fun t => (.ok (), t.setParent (w.tree d).size (parent.map Node.id))
        simp only [express, Build.outcome_bind_of_ok hok, Build.outcome_bind_of_ok hplant,
          Build.outcome_bind_of_ok hrecord]
        exact ⟨_, _, rfl⟩
      · exact absurd hforeign hnot

/-- Why no node is made of a JSON value at all: it is malformed, or the expression is refused. -/
def RefusesJson (d : Document) (w : Workspace) (value : Json) : Prop :=
  ∀ e, Expr.ofJson value = .ok e → d.RefusesExpr w none e

def jsonChildren (value : Json) : List Expr :=
  match Expr.ofJson value with
  | .ok e => e.children
  | .error _ => []

theorem ofJson_checked (hw : w.Sound) (hd : w.Has d) (value : Json) :
    (d.ofJson value).Checked w (d.RefusesJson w value) (jsonChildren value) := by
  unfold ofJson jsonChildren RefusesJson
  cases hvalue : Expr.ofJson value with
  | error fault => exact ⟨fun _ => ⟨_, rfl⟩, by simp, by simp⟩
  | ok e =>
    have hlive : e.Live w := by
      intro n hn
      rw [Expr.nodes_ofJson hvalue] at hn
      simp at hn
    simpa using express_checked hw hd hlive none

end Document

namespace Node

/-! ### What a call leaves behind -/

variable {n : Node} {copy : Bool} {argument : Option String}

theorem express_root (hw : w.Sound) (hn : n.Live w) {keyword : String} {children : List Expr}
    (hlive : ∀ m ∈ Expr.nodesAll children, m.Live w) (hroot : Keyword.isRoot keyword = true)
    (hordinary : ∀ e ∈ children, e.Ordinary)
    (hmoves : ∀ m ∈ Expr.nodesAll children, ¬ n.document.Blocks w (some n) m) :
    ∃ err w', (n.express (.tuple keyword argument children)).outcome w = (.error err, w') ∧
      (n.tree w').header Tree.root = (keyword, argument) := by
  have hguard : (n.document.guardMoves (some n.id) false
      [.tuple keyword argument children]).outcome w = (.ok (), w) := by
    apply Document.guardMoves_ok hw hn.has (some n)
    intro e he
    rw [List.mem_singleton.1 he]
    exact hmoves
  have hpasses : n.document.Passes w keyword none children := by
    apply Document.passes_of_not_refuses hw hn.has
    rintro (rfl | ⟨p, hp, -⟩ | ⟨e, he, m, hm, hblocks⟩)
    · exact absurd hroot (by decide)
    · simp at hp
    · have hm' : m = n.document.root := by simpa [Document.Blocks] using hblocks
      exact hmoves m (Expr.mem_nodesAll.2 ⟨e, he, hm⟩) (.inl hm')
  obtain ⟨w', hconstruct, hheader⟩ := hpasses.construct_root_ok hw hn.has hlive hordinary hroot
    argument
  have hattach : (n.document.attach n.id Tree.root).outcome w' =
      (.error (.rootNested (n.document.root.keyword w')), w') := by
    rw [Document.outcome_attach, Tree.attachAll, Tree.attach, Tree.refusal?, if_pos rfl,
      Workspace.setTree_tree]
    rfl
  have hreceive : (n.receive false (.tuple keyword argument children)).outcome w =
      (.error (.rootNested (n.document.root.keyword w')), w') := by
    unfold receive
    rw [Document.receive, Build.outcome_bind_of_ok hconstruct, Build.outcome_bind_of_error hattach]
  have hexpress : (n.express (.tuple keyword argument children)).outcome w =
      (.error (.rootNested (n.document.root.keyword w')), w') :=
    (Build.outcome_bind_of_ok hguard).trans (Build.outcome_bind_of_error hreceive)
  exact ⟨_, w', hexpress, hheader⟩

theorem append_empty (hw : w.Sound) (hn : n.Live w) {items rest children : List Expr}
    (hlive : ∀ e ∈ items, e.Live w) (hordinary : ∀ e ∈ items, e.Ordinary)
    (hmoves : ∀ e ∈ items ++ .tuple "" argument children :: rest, ∀ m ∈ e.moving copy,
      ¬ n.document.Blocks w (some n) m) :
    (n.append (items ++ .tuple "" argument children :: rest) copy).outcome w =
      (.error .emptyKeyword, ((n.append items copy).outcome w).2) := by
  have hbefore : ∀ e ∈ items, ∀ m ∈ e.moving copy, ¬ n.document.Blocks w (some n) m :=
    fun e he => hmoves e (List.mem_append_left _ he)
  obtain ⟨w', hloop⟩ := receiveEach_ok hw hn hlive hordinary hbefore
  have hitems : (n.append items copy).outcome w = (.ok (), w') :=
    (Build.outcome_bind_of_ok (Document.guardMoves_ok hw hn.has (some n) hbefore)).trans hloop
  have hempty : (n.receive copy (.tuple "" argument children)).outcome w' =
      (.error .emptyKeyword, w') := by
    unfold receive
    rw [Document.receive]
    exact Build.outcome_bind_of_error (Document.outcome_construct_empty ..)
  have hguard : (n.document.guardMoves (some n.id) copy _).outcome w = (.ok (), w) :=
    Document.guardMoves_ok hw hn.has (some n) hmoves
  rw [hitems]
  unfold append
  rw [Build.outcome_bind_of_ok hguard, List.forM_eq_forM, List.forM_append,
    ← List.forM_eq_forM, Build.outcome_bind_of_ok hloop]
  exact Build.outcome_bind_of_error (Build.outcome_bind_of_error hempty)

end Node

namespace Workspace

/-! ### Where the check is exact -/

/-- With ordinary keywords, the calls that fail are exactly those that would move the root, or a
node to a place beneath itself, as the workspace stands before the call; and they change nothing. -/
theorem check_exact (hw : w.Reachable) {n : Node} (hn : n.Live w) (items : List Expr)
    (hlive : ∀ e ∈ items, e.Live w) (hordinary : ∀ e ∈ items, e.Ordinary) :
    (∀ copy,
      ((n.append items copy).Fails w ↔
        ∃ e ∈ items, ∃ m ∈ e.moving copy, m = n.document.root ∨
          m.document = n.document ∧ (n.tree w).Above m.id n.id) ∧
      ((n.append items copy).Fails w → ((n.append items copy).outcome w).2 = w)) ∧
    (∀ e ∈ items,
      ((n.express e).Fails w ↔
        ∃ m ∈ e.nodes, m = n.document.root ∨
          m.document = n.document ∧ (n.tree w).Above m.id n.id) ∧
      ((n.express e).Fails w → ((n.express e).outcome w).2 = w)) ∧
    (∀ keyword argument, keyword ≠ "" → Keyword.isRoot keyword = false →
      ((n.build keyword { argument, children := items }).Fails w ↔
        ∃ e ∈ items, ∃ m ∈ e.nodes, m = n.document.root ∨
          m.document = n.document ∧ (n.tree w).Above m.id n.id) ∧
      ((n.build keyword { argument, children := items }).Fails w →
        ((n.build keyword { argument, children := items }).outcome w).2 = w)) ∧
    ∀ d keyword argument, w.Has d → keyword ≠ "" →
      ((d.build keyword { argument, children := items }).Fails w ↔
        ∃ e ∈ items, d.root ∈ e.nodes) ∧
      ((d.build keyword { argument, children := items }).Fails w →
        ((d.build keyword { argument, children := items }).outcome w).2 = w) := by
  have hsound := hw.sound
  have hnodes : ∀ m ∈ Expr.nodesAll items, m.Live w := by
    intro m hm
    obtain ⟨e, he, hmem⟩ := Expr.mem_nodesAll.1 hm
    exact hlive e he m hmem
  have hblocks : ∀ m : Node, n.document.Blocks w (some n) m ↔
      m = n.document.root ∨ m.document = n.document ∧ (n.tree w).Above m.id n.id := by
    intro m
    simp [Document.Blocks, Node.tree]
  refine ⟨?_, ?_, ?_, ?_⟩
  · intro copy
    have hexact := (Node.append_checked hsound hn hlive copy).exact hordinary
    simpa only [hblocks] using hexact
  · intro e he
    have hexact := (Node.express_checked hsound hn (hlive e he)).exact
      (by simpa using hordinary e he)
    simpa only [hblocks] using hexact
  · intro keyword argument hkeyword hroot
    have hexact := (Node.build_checked hsound hn keyword argument hnodes).exact hordinary
    simpa [Document.Refuses, hkeyword, hroot, hblocks] using hexact
  · intro d keyword argument hd hkeyword
    have hexact := (Document.build_checked hsound hd keyword argument none hnodes).exact hordinary
    simpa [Document.Refuses, hkeyword, Document.Blocks] using hexact

theorem check_exact_sample :
    sample.Reachable ∧
      ¬ ((⟨⟨0⟩, 2⟩ : Node).append [.node ⟨⟨0⟩, 1⟩, .tuple "list" none [.node ⟨⟨1⟩, 0⟩]]).Fails
        sample ∧
      ((⟨⟨0⟩, 2⟩ : Node).append [.node ⟨⟨0⟩, 1⟩, .tuple "list" none [.node ⟨⟨0⟩, 2⟩]]).Fails
        sample ∧
      (((⟨⟨0⟩, 2⟩ : Node).append [.node ⟨⟨0⟩, 1⟩, .tuple "list" none [.node ⟨⟨0⟩, 2⟩]]).outcome
        sample).2 = sample := by
  have hleaf : ¬ (sample.tree ⟨0⟩).Above 1 2 := by
    rw [← (reachable_sample.sound ⟨0⟩ (by decide)).isAncestor_iff]
    decide
  have hmoves := (check_exact reachable_sample (n := ⟨⟨0⟩, 2⟩) (by decide)
    [.node ⟨⟨0⟩, 1⟩, .tuple "list" none [.node ⟨⟨1⟩, 0⟩]]
    (by decide) (by decide)).1 false
  have hrefused := (check_exact reachable_sample (n := ⟨⟨0⟩, 2⟩) (by decide)
    [.node ⟨⟨0⟩, 1⟩, .tuple "list" none [.node ⟨⟨0⟩, 2⟩]]
    (by decide) (by decide)).1 false
  have hfails := hrefused.1.2 ⟨_, List.mem_cons_of_mem _ (List.mem_singleton_self _), ⟨⟨0⟩, 2⟩,
    List.mem_singleton_self _, .inr ⟨rfl, .refl⟩⟩
  refine ⟨reachable_sample, ?_, hfails, hrefused.2 hfails⟩
  rw [hmoves.1]
  intro hblocked
  obtain ⟨e, he, m, hm, hblocks⟩ := hblocked
  simp only [List.mem_cons, List.not_mem_nil, or_false] at he
  obtain rfl | rfl := he
  · obtain rfl := List.mem_singleton.1 hm
    rcases hblocks with hroot | ⟨-, habove⟩
    · exact absurd hroot (by decide)
    · exact hleaf habove
  · obtain rfl := List.mem_singleton.1 hm
    rcases hblocks with hroot | ⟨hdoc, -⟩
    · exact absurd hroot (by decide)
    · exact absurd hdoc (by decide)

/-! ### Where a call fails half way -/

/-- Every call that fails is refused by its check or is given a tuple with a keyword that is not
ordinary. Unless it is both past its check and given such a tuple, nothing changes. Of the calls past
their check two are told in full: making a single tuple with a root keyword and ordinary parts the
last substatement of a node leaves its keyword and argument on the root, and appending ordinary
expressions with a tuple without a keyword behind them leaves those expressions appended. -/
theorem failing_calls (hw : w.Reachable) :
    (∀ (d : Document) keyword argument children parent, w.Has d → (∀ e ∈ children, Expr.Live e w) →
      (d.build keyword { argument, children } parent).FailsCleanly w
        (d.Refuses w keyword parent children) children) ∧
    (∀ (d : Document) (e : Expr) parent, w.Has d → e.Live w →
      (d.express e parent).FailsCleanly w (d.RefusesExpr w parent e) e.children) ∧
    (∀ (d : Document) value, w.Has d →
      (d.ofJson value).FailsCleanly w (d.RefusesJson w value) (Document.jsonChildren value)) ∧
    (∀ (n : Node) keyword argument children, n.Live w → (∀ e ∈ children, Expr.Live e w) →
      (n.build keyword { argument, children }).FailsCleanly w
        (Keyword.isRoot keyword = true ∨ n.document.Refuses w keyword (some n) children)
        children) ∧
    (∀ (n : Node) (e : Expr), n.Live w → e.Live w →
      (n.express e).FailsCleanly w (∃ m ∈ e.nodes, n.document.Blocks w (some n) m) [e]) ∧
    (∀ (n : Node) (items : List Expr) copy, n.Live w → (∀ e ∈ items, e.Live w) →
      (n.append items copy).FailsCleanly w
        (∃ e ∈ items, ∃ m ∈ e.moving copy, n.document.Blocks w (some n) m) items) ∧
    (∀ (n : Node) keyword argument children, n.Live w → (∀ e ∈ children, Expr.Live e w) →
      Keyword.isRoot keyword = true → (∀ e ∈ children, Expr.Ordinary e) →
      (∀ m ∈ Expr.nodesAll children, ¬ n.document.Blocks w (some n) m) →
      ∃ err w', (n.express (.tuple keyword argument children)).outcome w = (.error err, w') ∧
        (n.tree w').header Tree.root = (keyword, argument)) ∧
    ∀ (n : Node) (items : List Expr) argument children rest copy, n.Live w →
      (∀ e ∈ items, e.Live w) → (∀ e ∈ items, e.Ordinary) →
      (∀ e ∈ items ++ .tuple "" argument children :: rest, ∀ m ∈ e.moving copy,
        ¬ n.document.Blocks w (some n) m) →
      (n.append (items ++ .tuple "" argument children :: rest) copy).outcome w =
        (.error .emptyKeyword, ((n.append items copy).outcome w).2) := by
  have hsound := hw.sound
  have hnodes : ∀ {es : List Expr}, (∀ e ∈ es, e.Live w) → ∀ m ∈ Expr.nodesAll es, m.Live w := by
    intro es hes m hm
    obtain ⟨e, he, hmem⟩ := Expr.mem_nodesAll.1 hm
    exact hes e he m hmem
  refine ⟨?_, ?_, ?_, ?_, ?_, ?_, ?_, ?_⟩
  · intro d keyword argument children parent hd hlive
    exact (Document.build_checked hsound hd keyword argument parent (hnodes hlive)).failsCleanly
  · intro d e parent hd hlive
    exact (Document.express_checked hsound hd hlive parent).failsCleanly
  · intro d value hd
    exact (Document.ofJson_checked hsound hd value).failsCleanly
  · intro n keyword argument children hn hlive
    exact (Node.build_checked hsound hn keyword argument (hnodes hlive)).failsCleanly
  · intro n e hn hlive
    exact (Node.express_checked hsound hn hlive).failsCleanly
  · intro n items copy hn hlive
    exact (Node.append_checked hsound hn hlive copy).failsCleanly
  · intro n keyword argument children hn hlive hroot hordinary hmoves
    exact Node.express_root hsound hn (hnodes hlive) hroot hordinary hmoves
  · intro n items argument children rest copy hn hlive hordinary hmoves
    exact Node.append_empty hsound hn hlive hordinary hmoves

theorem failing_calls_sample :
    sample.Reachable ∧
      ((⟨⟨0⟩, 2⟩ : Node).append [.node ⟨⟨0⟩, 1⟩, .tuple "" none [.node ⟨⟨0⟩, 0⟩]]).Fails sample ∧
      (((⟨⟨0⟩, 2⟩ : Node).append [.node ⟨⟨0⟩, 1⟩, .tuple "" none [.node ⟨⟨0⟩, 0⟩]]).outcome
        sample).2 = sample := by
  obtain ⟨-, -, -, -, -, happend, -, -⟩ := failing_calls reachable_sample
  obtain ⟨hiff, hunchanged⟩ := happend ⟨⟨0⟩, 2⟩
    [.node ⟨⟨0⟩, 1⟩, .tuple "" none [.node ⟨⟨0⟩, 0⟩]] false (by decide) (by decide)
  have hrefused : ∃ e ∈ [Expr.node ⟨⟨0⟩, 1⟩, .tuple "" none [.node ⟨⟨0⟩, 0⟩]],
      ∃ m ∈ e.moving false, Document.Blocks ⟨0⟩ sample (some ⟨⟨0⟩, 2⟩) m :=
    ⟨_, List.mem_cons_of_mem _ (List.mem_singleton_self _), ⟨⟨0⟩, 0⟩, List.mem_singleton_self _,
      .inl rfl⟩
  have hfails := hiff.2 (.inl hrefused)
  exact ⟨reachable_sample, hfails, hunchanged hfails (.inl hrefused)⟩

/-- A tuple with a root keyword, and one without a keyword. -/
theorem failing_calls_half_way :
    sample.Reachable ∧
      ((⟨⟨0⟩, 0⟩ : Node).build "container"
        { children := [.tuple "submodule" (some "x") []] }).Fails sample ∧
      (⟨⟨0⟩, 0⟩ : Node).keyword sample = "module" ∧
      (⟨⟨0⟩, 0⟩ : Node).children sample = [⟨⟨0⟩, 2⟩] ∧
      (⟨⟨0⟩, 0⟩ : Node).keyword (((⟨⟨0⟩, 0⟩ : Node).build "container"
        { children := [.tuple "submodule" (some "x") []] }).outcome sample).2 = "submodule" ∧
      (⟨⟨0⟩, 0⟩ : Node).children (((⟨⟨0⟩, 0⟩ : Node).build "container"
        { children := [.tuple "submodule" (some "x") []] }).outcome sample).2 = [] ∧
      ((⟨⟨0⟩, 0⟩ : Node).append [.node ⟨⟨0⟩, 1⟩, .tuple "" none []]).Fails sample ∧
      (⟨⟨0⟩, 1⟩ : Node).parent? sample = some ⟨⟨0⟩, 2⟩ ∧
      (⟨⟨0⟩, 1⟩ : Node).parent? (((⟨⟨0⟩, 0⟩ : Node).append
        [.node ⟨⟨0⟩, 1⟩, .tuple "" none []]).outcome sample).2 = some ⟨⟨0⟩, 0⟩ := by
  refine ⟨reachable_sample, ⟨_, rfl⟩, ?_, ?_, ?_, ?_, ⟨_, rfl⟩, ?_, ?_⟩
  all_goals decide

end Workspace

end YangDoc
