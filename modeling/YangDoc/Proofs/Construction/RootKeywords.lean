import YangDoc.Proofs.Construction.Failure
import YangDoc.Proofs.Tree.SingleRoot

/-!
# What building brings in

Every construction keeps the roots of all documents. What it brings in for other statements is
followed through the constructions, one lemma for each: tuples cannot put a root keyword anywhere
but at a root, but statements given by value and nodes that are copied are planted as they are, and
nothing looks at their keywords.
-/

namespace YangDoc

variable {w w' : Workspace} {d : Document} {P Q : Prop}

namespace Workspace

def Rooted (w : Workspace) : Prop :=
  ∀ d, w.Has d → (w.tree d).Rooted

def OnlyRoots (w : Workspace) : Prop :=
  ∀ d, w.Has d → (w.tree d).OnlyRoot

theorem Rooted.setTree (hw : w.Rooted) {t : Tree} (ht : t.Rooted) : (w.setTree d t).Rooted := by
  intro d' hd'
  rw [has_setTree] at hd'
  by_cases heq : d' = d
  · subst heq
    rwa [tree_setTree hd']
  · rw [tree_setTree_of_ne heq]
    exact hw d' hd'

theorem onlyRoots_setTree (hd : w.Has d) {t : Tree} (ht : (w.tree d).Brings t P) :
    (w.setTree d t).OnlyRoots ↔ w.OnlyRoots ∧ P := by
  constructor
  · intro honly
    have hnew := honly d (has_setTree.2 hd)
    rw [tree_setTree hd, ht.onlyRoot_iff] at hnew
    refine ⟨fun d' hd' => ?_, hnew.2⟩
    by_cases heq : d' = d
    · rw [heq]
      exact hnew.1
    · have hold := honly d' (has_setTree.2 hd')
      rwa [tree_setTree_of_ne heq] at hold
  · rintro ⟨honly, hP⟩ d' hd'
    rw [has_setTree] at hd'
    by_cases heq : d' = d
    · subst heq
      rw [tree_setTree hd, ht.onlyRoot_iff]
      exact ⟨honly d' hd, hP⟩
    · rw [tree_setTree_of_ne heq]
      exact honly d' hd'

theorem Rooted.rootless_statement_iff (hw : w.Rooted) (honly : w.OnlyRoots) {n : Node}
    (hn : w.Has n.document) : (n.statement w).Rootless ↔ n.id ≠ Tree.root :=
  (hw _ hn).rootless_snapshot_iff (honly _ hn)

/-- A root keyword is the mark of a root. -/
def SingleRooted (w : Workspace) : Prop :=
  ∀ n : Node, n.Live w → (Keyword.isRoot (n.keyword w) = true ↔ n = n.document.root)

theorem Rooted.singleRooted_iff (hw : w.Rooted) : w.SingleRooted ↔ w.OnlyRoots := by
  constructor
  · intro hsingle d hd x hx
    have hlive : (⟨d, x⟩ : Node).Live w := by
      by_contra hdead
      have hsize : (w.tree d).size ≤ x := Nat.not_lt.1 hdead
      rw [Tree.keyword, Tree.row_of_size_le hsize] at hx
      exact absurd hx (by decide)
    exact congrArg Node.id ((hsingle ⟨d, x⟩ hlive).1 hx)
  · rintro honly ⟨d, id⟩ hn
    refine ⟨fun hroot => congrArg (Node.mk d) (honly d hn.has id hroot), fun heq => ?_⟩
    rw [heq]
    exact (hw d hn.has).isRoot

end Workspace

/-! ### What a computation brings in -/

namespace Build

variable {α β : Type}

/-- Started in `w`, the computation keeps all roots. If `P` holds it brings in no root keyword for
another statement, and if it succeeds it brings in none only then. -/
structure Brings (m : Build α) (w : Workspace) (P : Prop) : Prop where
  rooted : (m.outcome w).2.Rooted
  has_iff : ∀ d, (m.outcome w).2.Has d ↔ w.Has d
  onlyRoots : w.OnlyRoots → P → (m.outcome w).2.OnlyRoots
  of_onlyRoots : ∀ a, (m.outcome w).1 = .ok a → (m.outcome w).2.OnlyRoots → w.OnlyRoots ∧ P

namespace Brings

variable {m : Build α} {f : α → Build β}

theorem of_error (hw : w.Rooted) {e : Error} (hm : m.outcome w = (.error e, w)) :
    m.Brings w P := by
  refine ⟨?_, ?_, ?_, ?_⟩ <;> rw [hm]
  · exact hw
  · exact fun _ => Iff.rfl
  · exact fun honly _ => honly
  · simp

theorem pure (hw : w.Rooted) (a : α) : (Pure.pure a : Build α).Brings w True :=
  ⟨hw, fun _ => Iff.rfl, fun honly _ => honly, fun _ _ honly => ⟨honly, trivial⟩⟩

theorem congr (hm : m.Brings w P) (hQ : w.OnlyRoots → (Q ↔ P)) : m.Brings w Q := by
  refine ⟨hm.rooted, hm.has_iff, fun honly h => hm.onlyRoots honly ((hQ honly).1 h), ?_⟩
  intro a ha honly
  obtain ⟨hold, hP⟩ := hm.of_onlyRoots a ha honly
  exact ⟨hold, (hQ hold).2 hP⟩

theorem bind (hm : m.Brings w P)
    (hf : ∀ a w', w'.Rooted → (∀ d, w'.Has d ↔ w.Has d) → (f a).Brings w' Q) :
    (m >>= f).Brings w (P ∧ Q) := by
  obtain ⟨hrooted, hhas, honly, hof⟩ := hm
  rcases hrun : m.outcome w with ⟨e | a, w'⟩
  · rw [hrun] at hrooted hhas honly
    refine ⟨?_, ?_, ?_, ?_⟩ <;> rw [outcome_bind_of_error hrun]
    · exact hrooted
    · exact hhas
    · exact fun hold hPQ => honly hold hPQ.1
    · simp
  · rw [hrun] at hrooted hhas honly hof
    obtain ⟨hrooted', hhas', honly', hof'⟩ := hf a w' hrooted hhas
    refine ⟨?_, ?_, ?_, ?_⟩ <;> rw [outcome_bind_of_ok hrun]
    · exact hrooted'
    · exact fun d => (hhas' d).trans (hhas d)
    · exact fun hold hPQ => honly' (honly hold hPQ.1) hPQ.2
    · intro b hb hnew
      obtain ⟨hmiddle, hQ⟩ := hof' b hb hnew
      obtain ⟨hold, hP⟩ := hof a rfl hmiddle
      exact ⟨hold, hP, hQ⟩

theorem bind_true (hm : m.Brings w P)
    (hf : ∀ a w', w'.Rooted → (∀ d, w'.Has d ↔ w.Has d) → (f a).Brings w' True) :
    (m >>= f).Brings w P :=
  (hm.bind hf).congr fun _ => by simp

theorem unchanged_bind (hw : w.Rooted) (hm : (m.outcome w).2 = w) (hf : ∀ a, (f a).Brings w P) :
    (m >>= f).Brings w P := by
  rcases hrun : m.outcome w with ⟨e | a, w'⟩
  · obtain rfl : w' = w := by rw [← hm, hrun]
    exact of_error hw (outcome_bind_of_error hrun)
  · obtain rfl : w' = w := by rw [← hm, hrun]
    obtain ⟨hrooted, hhas, honly, hof⟩ := hf a
    refine ⟨?_, ?_, ?_, ?_⟩ <;> rwa [outcome_bind_of_ok hrun]

theorem get_bind {f : Workspace → Build β} (hf : (f w).Brings w P) : (get >>= f).Brings w P := by
  obtain ⟨hrooted, hhas, honly, hof⟩ := hf
  refine ⟨?_, ?_, ?_, ?_⟩ <;> rwa [outcome_bind_of_ok (outcome_get w)]

theorem discard (hm : m.Brings w P) : (Functor.discard m : Build Unit).Brings w P :=
  hm.bind_true (f := fun _ => Pure.pure ()) fun _ _ hw' _ => .pure hw' ()

theorem mapM {l : List α} {P : α → Prop} (hw : w.Rooted)
    (hf : ∀ a ∈ l, ∀ w', w'.Rooted → (∀ d, w'.Has d ↔ w.Has d) → (f a).Brings w' (P a)) :
    (l.mapM f).Brings w (∀ a ∈ l, P a) := by
  induction l generalizing w with
  | nil => exact (Brings.pure hw []).congr fun _ => by simp
  | cons a l ih =>
    rw [List.forall_mem_cons] at hf
    rw [List.mapM_cons]
    refine ((hf.1 w hw fun _ => Iff.rfl).bind fun b w₁ hw₁ hhas => ?_).congr
      fun _ => List.forall_mem_cons
    refine (ih hw₁ fun c hc w₂ hw₂ hhas₂ => ?_).bind_true fun _ _ hw₃ _ => .pure hw₃ _
    exact hf.2 c hc w₂ hw₂ fun d => (hhas₂ d).trans (hhas d)

theorem forM {l : List α} {f : α → Build PUnit} {P : α → Prop} (hw : w.Rooted)
    (hf : ∀ a ∈ l, ∀ w', w'.Rooted → (∀ d, w'.Has d ↔ w.Has d) → (f a).Brings w' (P a)) :
    (l.forM f).Brings w (∀ a ∈ l, P a) := by
  induction l generalizing w with
  | nil => exact (Brings.pure hw PUnit.unit).congr fun _ => by simp
  | cons a l ih =>
    rw [List.forall_mem_cons] at hf
    refine ((hf.1 w hw fun _ => Iff.rfl).bind fun _ w₁ hw₁ hhas => ?_).congr
      fun _ => List.forall_mem_cons
    exact ih hw₁ fun c hc w₂ hw₂ hhas₂ => hf.2 c hc w₂ hw₂ fun d => (hhas₂ d).trans (hhas d)

end Brings

end Build

open Build

/-- Of what the expression brings into the document, nothing has a root keyword. -/
def Expr.Rootless (d : Document) (copy : Bool) (e : Expr) : Prop :=
  (∀ s ∈ e.values, s.Rootless) ∧ ∀ n ∈ e.copied d copy, n.id ≠ Tree.root

def Expr.RootlessAll (d : Document) (es : List Expr) : Prop :=
  (∀ s ∈ valuesAll es, s.Rootless) ∧ ∀ n ∈ copiedAll d es, n.id ≠ Tree.root

theorem Expr.rootlessAll_cons {e : Expr} {rest : List Expr} :
    RootlessAll d (e :: rest) ↔ e.Rootless d false ∧ RootlessAll d rest := by
  rw [RootlessAll, valuesAll, copiedAll, List.forall_mem_append, List.forall_mem_append]
  exact and_and_and_comm

namespace Document

theorem edit_brings (hw : w.Rooted) (hd : w.Has d) {α : Type} {f : Tree → Except Error α × Tree}
    (hf : (w.tree d).Brings (f (w.tree d)).2 P) : (d.edit f).Brings w P := by
  have honly := Workspace.onlyRoots_setTree hd hf
  refine ⟨?_, ?_, ?_, ?_⟩ <;> rw [outcome_edit]
  · exact hw.setTree hf.rooted
  · exact fun _ => Workspace.has_setTree
  · exact fun hold hP => honly.2 ⟨hold, hP⟩
  · exact fun _ _ => honly.1

theorem plant_brings (hw : w.Rooted) (hd : w.Has d) (s : Statement) :
    (d.plant s).Brings w s.Rootless :=
  edit_brings hw hd ((hw d hd).plant s)

theorem attach_brings (hw : w.Rooted) (hd : w.Has d) (p c : NodeId) :
    (d.attach p c).Brings w True :=
  edit_brings hw hd ((hw d hd).attachAll p [c])

theorem receiveNode_brings (hw : w.Rooted) (hd : w.Has d) {n : Node} (hn : w.Has n.document)
    (copy : Bool) :
    (d.receiveNode copy n).Brings w (∀ m ∈ (Expr.node n).copied d copy, m.id ≠ Tree.root) := by
  have hcopy : (d.plant (n.statement w)).Brings w (n.id ≠ Tree.root) :=
    (plant_brings hw hd _).congr fun honly => (hw.rootless_statement_iff honly hn).symm
  unfold receiveNode
  by_cases hdoc : n.document = d
  · rw [if_pos hdoc]
    cases copy with
    | false => exact (Brings.pure hw n.id).congr fun _ => by simp [Expr.copied, hdoc]
    | true => exact (Brings.get_bind hcopy).congr fun _ => by simp [Expr.copied]
  · rw [if_neg hdoc]
    refine (Brings.get_bind (hcopy.bind_true fun id w' hw' hhas => ?_)).congr
      fun _ => by simp [Expr.copied, hdoc]
    cases copy with
    | true => exact .pure hw' id
    | false =>
      have hn' := (hhas n.document).2 hn
      have hdetach : (n.document.detach n.id).Brings w' True :=
        edit_brings hw' hn' ((hw' _ hn').detach n.id)
      exact hdetach.bind_true fun _ _ hw'' _ => .pure hw'' id

theorem construct_brings (hw : w.Rooted) (hd : w.Has d) (keyword : String)
    (argument : Option String) (parent : Option Node) (children : List Expr)
    {received : Build (List NodeId)} (hreceived : received.Brings w P) :
    (d.construct keyword argument parent children received).Brings w P := by
  by_cases hkeyword : keyword = ""
  · subst hkeyword
    exact .of_error hw (outcome_construct_empty ..)
  · rw [construct_of_ne d hkeyword]
    refine .unchanged_bind hw (mapM_ownId_snd ..) fun parentId => ?_
    refine .unchanged_bind hw (guardMoves_snd ..) fun _ => ?_
    refine hreceived.bind_true fun ids w' hw' hhas => ?_
    have hd' := (hhas d).2 hd
    exact edit_brings hw' hd' ((hw' d hd').assemble keyword argument parentId ids)

mutual

theorem receive_brings (copy : Bool) : ∀ {w : Workspace} (e : Expr), w.Rooted → w.Has d →
    (∀ n ∈ e.nodes, w.Has n.document) → (d.receive copy e).Brings w (e.Rootless d copy)
  | _, .node n, hw, hd, hnodes => by
    rw [receive]
    have hn := hnodes n (List.mem_singleton_self n)
    exact (receiveNode_brings hw hd hn copy).congr fun _ => by simp [Expr.Rootless, Expr.values]
  | _, .statement s, hw, hd, _ => by
    rw [receive]
    exact (plant_brings hw hd s).congr fun _ => by
      simp [Expr.Rootless, Expr.values, Expr.copied]
  | _, .tuple keyword argument children, hw, hd, hnodes => by
    rw [receive]
    exact construct_brings hw hd keyword argument none children
      (receiveAll_brings children hw hd hnodes)

theorem receiveAll_brings : ∀ {w : Workspace} (es : List Expr), w.Rooted → w.Has d →
    (∀ n ∈ Expr.nodesAll es, w.Has n.document) →
    (d.receiveAll es).Brings w (Expr.RootlessAll d es)
  | _, [], hw, _, _ => by
    rw [receiveAll]
    exact (Brings.pure hw []).congr fun _ => by
      simp [Expr.RootlessAll, Expr.valuesAll, Expr.copiedAll]
  | _, e :: rest, hw, hd, hnodes => by
    rw [Expr.nodesAll, List.forall_mem_append] at hnodes
    rw [receiveAll]
    have hfirst := receive_brings false e hw hd hnodes.1
    refine (hfirst.bind fun id w' hw' hhas => ?_).congr fun _ => Expr.rootlessAll_cons
    have hrest := receiveAll_brings rest hw' ((hhas d).2 hd) fun n hn => (hhas _).2 (hnodes.2 n hn)
    exact hrest.bind_true fun _ _ hw'' _ => .pure hw'' _

end

theorem build_brings (hw : w.Rooted) (hd : w.Has d) (keyword : String) {input : Input}
    (parent : Option Node) (hnodes : ∀ n ∈ Expr.nodesAll input.children, w.Has n.document) :
    (d.build keyword input parent).Brings w (Expr.RootlessAll d input.children) :=
  (construct_brings hw hd keyword input.argument parent input.children
    (receiveAll_brings input.children hw hd hnodes)).bind_true fun _ _ hw' _ => .pure hw' _

theorem comment_brings (hw : w.Rooted) (hd : w.Has d) (argument : Option String) :
    (d.build Keyword.comment { argument }).Brings w True :=
  (build_brings hw hd _ none (by simp [Expr.nodesAll])).congr fun _ => by
    simp [Expr.RootlessAll, Expr.valuesAll, Expr.copiedAll]

theorem express_brings (hw : w.Rooted) (hd : w.Has d) {e : Expr} (parent : Option Node)
    (hnodes : ∀ n ∈ e.nodes, w.Has n.document) :
    (d.express e parent).Brings w
      ((∀ s ∈ e.values, s.Rootless) ∧ ∀ n ∈ Expr.copiedAll d e.children, n.id ≠ Tree.root) := by
  cases e with
  | node n =>
    exact (Brings.pure hw n).congr fun _ => by
      simp [Expr.values, Expr.children, Expr.copiedAll]
  | tuple keyword argument children => exact build_brings hw hd keyword parent hnodes
  | statement s =>
    have hplant : (d.express (.statement s) parent).Brings w s.Rootless := by
      refine .unchanged_bind hw (mapM_ownId_snd ..) fun parentId => ?_
      refine (plant_brings hw hd s).bind_true fun id w' hw' hhas => ?_
      have hd' := (hhas d).2 hd
      have hrecord : (d.edit fun t => (.ok (), t.setParent id parentId)).Brings w' True :=
        edit_brings hw' hd' ((hw' d hd').setParent id parentId)
      exact hrecord.bind_true fun _ _ hw'' _ => .pure hw'' _
    exact hplant.congr fun _ => by simp [Expr.values, Expr.children, Expr.copiedAll]

theorem ofJson_brings (hw : w.Rooted) (hd : w.Has d) (value : Json) :
    (d.ofJson value).Brings w True := by
  unfold ofJson
  cases hvalue : Expr.ofJson value with
  | error fault => exact .of_error hw rfl
  | ok e =>
    have hnodes := Expr.nodes_ofJson hvalue
    refine (express_brings hw hd none (by simp [hnodes])).congr fun _ => ?_
    refine iff_of_true trivial ⟨by simp [Expr.values_ofJson hvalue], ?_⟩
    cases e with
    | node n => simp [Expr.children, Expr.copiedAll]
    | statement s => simp [Expr.children, Expr.copiedAll]
    | tuple keyword argument children =>
      intro n hn
      have hmem := Expr.copiedAll_subset_nodesAll d children hn
      rw [Expr.nodes] at hnodes
      simp [hnodes] at hmem

end Document

namespace Node

theorem attach_built_brings {m : Build Node} {n : Node} (hn : w.Has n.document)
    (hm : m.Brings w P) :
    (do
      let child ← m
      n.document.attach n.id child.id
      return child : Build Node).Brings w P := by
  refine hm.bind_true fun child w' hw' hhas => ?_
  exact (Document.attach_brings hw' ((hhas _).2 hn) n.id child.id).bind_true
    fun _ _ hw'' _ => .pure hw'' child

/-- Building below a node with a root keyword is refused, whatever comes with it. -/
theorem build_brings (hw : w.Rooted) {n : Node} (hn : w.Has n.document) (keyword : String)
    {input : Input} (hnodes : ∀ m ∈ Expr.nodesAll input.children, w.Has m.document) :
    (n.build keyword input).Brings w (Expr.RootlessAll n.document input.children) := by
  cases hroot : Keyword.isRoot keyword with
  | true => exact .of_error hw (outcome_build_root w n hroot input)
  | false =>
    rw [build_of_not_root n hroot]
    exact attach_built_brings hn (Document.build_brings hw hn keyword (some n) hnodes)

theorem receive_brings (hw : w.Rooted) {n : Node} (hn : w.Has n.document) (copy : Bool) {e : Expr}
    (hnodes : ∀ m ∈ e.nodes, w.Has m.document) :
    (n.receive copy e).Brings w (e.Rootless n.document copy) := by
  refine (Document.receive_brings copy e hw hn hnodes).bind_true fun id w' hw' hhas => ?_
  exact (Document.attach_brings hw' ((hhas _).2 hn) n.id id).bind_true
    fun _ _ hw'' _ => .pure hw'' id

theorem express_brings (hw : w.Rooted) {n : Node} (hn : w.Has n.document) {e : Expr}
    (hnodes : ∀ m ∈ e.nodes, w.Has m.document) :
    (n.express e).Brings w (e.Rootless n.document false) := by
  refine .unchanged_bind hw (Document.guardMoves_snd ..) fun _ => ?_
  exact (receive_brings hw hn false hnodes).bind_true fun _ _ hw' _ => .pure hw' _

theorem append_brings (hw : w.Rooted) {n : Node} (hn : w.Has n.document) {items : List Expr}
    (copy : Bool) (hnodes : ∀ m ∈ Expr.nodesAll items, w.Has m.document) :
    (n.append items copy).Brings w (∀ e ∈ items, e.Rootless n.document copy) := by
  refine .unchanged_bind hw (Document.guardMoves_snd ..) fun _ => ?_
  refine .forM hw fun e he w' hw' hhas => ?_
  refine (receive_brings hw' ((hhas _).2 hn) copy fun m hm => ?_).bind_true
    fun _ _ hw'' _ => .pure hw'' _
  exact (hhas _).2 (hnodes m (Expr.mem_nodesAll.2 ⟨e, he, hm⟩))

end Node

/-- A broadcast copies every node that it is given, for each member. -/
theorem NodeList.build_brings (hw : w.Rooted) {nodes : NodeList}
    (hmembers : ∀ n ∈ nodes, w.Has n.document) (keyword : String) {input : Input}
    (hnodes : ∀ m ∈ Expr.nodesAll input.children, w.Has m.document) :
    (nodes.build keyword input).Brings w (∀ _n ∈ nodes,
      (∀ s ∈ Expr.valuesAll input.children, s.Rootless) ∧
        ∀ m ∈ Expr.nodesAll input.children, m.id ≠ Tree.root) := by
  refine .mapM hw fun n hn w' hw' hhas => .get_bind ?_
  have hfrozen : Expr.nodesAll (input.frozen w').children = [] := Expr.nodesAll_frozenAll w' _
  refine (Node.build_brings hw' ((hhas _).2 (hmembers n hn)) keyword (by simp [hfrozen])).congr
    fun honly => ?_
  have hcopied : Expr.copiedAll n.document (input.frozen w').children = [] :=
    List.subset_nil.1 (hfrozen ▸ Expr.copiedAll_subset_nodesAll n.document _)
  have hvalue : ∀ m ∈ Expr.nodesAll input.children,
      ((m.statement w').Rootless ↔ m.id ≠ Tree.root) := fun m hm =>
    hw'.rootless_statement_iff honly ((hhas _).2 (hnodes m hm))
  rw [Expr.RootlessAll, hcopied, Input.frozen]
  simp only [Expr.mem_valuesAll_frozenAll, or_imp, forall_and]
  constructor
  · rintro ⟨hvalues, hroots⟩
    refine ⟨⟨hvalues, ?_⟩, by simp⟩
    rintro _ ⟨m, hm, rfl⟩
    exact (hvalue m hm).2 (hroots m hm)
  · rintro ⟨⟨hvalues, hroots⟩, -⟩
    exact ⟨hvalues, fun m hm => (hvalue m hm).1 (hroots _ ⟨m, hm, rfl⟩)⟩

end YangDoc
