import YangDoc.Proofs.Construction.Safety

/-!
# Nodes taken out of other documents

Building in one document takes nodes out of their lists in others, and changes nothing else there.
A computation that is refused half way has taken out some of the nodes it was given to move, and
one that returns has taken out all of them. `Takes` says both, and the nodes taken by the steps of
a computation add up.
-/

namespace YangDoc

namespace Workspace

/-- The nodes `gone` have left the lists of the document, and nothing else in it is different. -/
structure Lost (d : Document) (gone : List Node) (w w' : Workspace) : Prop where
  size_eq : (w'.tree d).size = (w.tree d).size
  source_eq : (w'.tree d).source = (w.tree d).source
  header_eq : ∀ x, (w'.tree d).header x = (w.tree d).header x
  children_eq : ∀ x, (w'.tree d).children x =
    ((w.tree d).children x).filter fun c => (⟨d, c⟩ : Node) ∉ gone

namespace Lost

variable {w w' w'' : Workspace} {d : Document} {gone gone' : List Node}

theorem of_tree_eq (htree : w'.tree d = w.tree d) (hgone : ∀ n ∈ gone, n.document ≠ d) :
    Lost d gone w w' := by
  refine ⟨by rw [htree], by rw [htree], fun x => by rw [htree], fun x => ?_⟩
  rw [htree]
  symm
  apply List.filter_eq_self.2
  intro c _
  rw [decide_eq_true_eq]
  intro hmem
  exact hgone _ hmem rfl

theorem refl (d : Document) (w : Workspace) : Lost d [] w w :=
  of_tree_eq rfl (by simp)

theorem trans (h : Lost d gone w w') (h' : Lost d gone' w' w'') :
    Lost d (gone ++ gone') w w'' := by
  refine ⟨h'.size_eq.trans h.size_eq, h'.source_eq.trans h.source_eq,
    fun x => (h'.header_eq x).trans (h.header_eq x), fun x => ?_⟩
  rw [h'.children_eq, h.children_eq, List.filter_filter]
  congr
  funext c
  simp only [List.mem_append, not_or, Bool.decide_and]
  exact Bool.and_comm ..

theorem samePlace (h : Lost d [] w w') (x : Nat) : (w.tree d).SamePlace (w'.tree d) x := by
  intro q
  rw [Tree.Lists, Tree.Lists, h.children_eq]
  simp

theorem of_detach {n : Node} (hforest : (n.tree w).Forest)
    (htree : n.tree w' = (n.tree w).detach n.id) : Lost n.document [n] w w' := by
  have hsource : ((n.tree w).detach n.id).source = (n.tree w).source := by
    unfold Tree.detach
    dsimp only
    split <;> rfl
  rw [Node.tree] at htree
  refine ⟨?_, ?_, ?_, ?_⟩
  · rw [htree, Tree.size_detach, Node.tree]
  · rw [htree, hsource, Node.tree]
  · intro x
    rw [htree, Tree.header_detach, Node.tree]
  · intro x
    rw [htree, hforest.children_detach, Node.tree]
    congr
    funext c
    have hiff : (⟨n.document, c⟩ : Node) ∈ [n] ↔ c = n.id := by
      obtain ⟨d, id⟩ := n
      simp
    simp [hiff, bne, decide_not, beq_eq_decide]

end Lost

end Workspace

/-! ### Computations that take nodes out -/

namespace Build

variable {α β : Type} {w : Workspace} {d : Document} {taken taken' : List Node}

/-- Started in `w`, the computation takes out of the lists of the document at most the given nodes,
and all of them if it returns. -/
structure Takes (m : Build α) (w : Workspace) (d : Document) (taken : List Node) : Prop where
  partly : ∃ gone, gone ⊆ taken ∧ Workspace.Lost d gone w (m.outcome w).2
  fully : ∀ a, (m.outcome w).1 = .ok a → Workspace.Lost d taken w (m.outcome w).2

namespace Takes

variable {m : Build α} {f : α → Build β}

theorem of_lost (h : Workspace.Lost d taken w (m.outcome w).2) : m.Takes w d taken :=
  ⟨⟨taken, List.Subset.refl _, h⟩, fun _ _ => h⟩

theorem of_error {e : Error} (hm : m.outcome w = (.error e, w)) : m.Takes w d taken := by
  refine ⟨⟨[], List.nil_subset _, ?_⟩, ?_⟩
  · rw [hm]
    exact .refl d w
  · intro a ha
    rw [hm] at ha
    simp at ha

theorem pure (a : α) : (Pure.pure a : Build α).Takes w d [] :=
  of_lost (.refl d w)

theorem bind (hm : m.Takes w d taken)
    (hf : ∀ a w', m.outcome w = (.ok a, w') → (f a).Takes w' d taken') :
    (m >>= f).Takes w d (taken ++ taken') := by
  obtain ⟨⟨gone, hgone, hpartly⟩, hfully⟩ := hm
  rcases hrun : m.outcome w with ⟨e | a, w'⟩
  · rw [hrun] at hpartly
    refine ⟨⟨gone, List.subset_append_of_subset_left _ hgone, ?_⟩, ?_⟩
    · rw [outcome_bind_of_error hrun]
      exact hpartly
    · rw [outcome_bind_of_error hrun]
      simp
  · rw [hrun] at hfully
    have hfirst := hfully a rfl
    obtain ⟨⟨gone', hgone', hpartly'⟩, hfully'⟩ := hf a w' hrun
    refine ⟨⟨taken ++ gone', ?_, ?_⟩, ?_⟩
    · exact List.append_subset.2
        ⟨List.subset_append_left .., List.subset_append_of_subset_right _ hgone'⟩
    · rw [outcome_bind_of_ok hrun]
      exact hfirst.trans hpartly'
    · rw [outcome_bind_of_ok hrun]
      exact fun b hb => hfirst.trans (hfully' b hb)

theorem bind_nil (hm : m.Takes w d taken)
    (hf : ∀ a w', m.outcome w = (.ok a, w') → (f a).Takes w' d []) :
    (m >>= f).Takes w d taken :=
  List.append_nil taken ▸ hm.bind hf

theorem unchanged_bind (hm : (m.outcome w).2 = w) (hf : ∀ a, (f a).Takes w d taken) :
    (m >>= f).Takes w d taken := by
  have hnothing : m.Takes w d [] := by
    apply of_lost
    rw [hm]
    exact .refl d w
  show (m >>= f).Takes w d ([] ++ taken)
  refine hnothing.bind fun a w' hrun => ?_
  obtain rfl : w' = w := by rw [← hm, hrun]
  exact hf a

theorem get_bind {f : Workspace → Build β} (hf : (f w).Takes w d taken) :
    (get >>= f).Takes w d taken := by
  obtain ⟨hpartly, hfully⟩ := hf
  refine ⟨?_, ?_⟩ <;> rwa [outcome_bind_of_ok (outcome_get w)]

theorem discard (hm : m.Takes w d taken) : (Functor.discard m : Build Unit).Takes w d taken :=
  hm.bind_nil (f := fun _ => Pure.pure ()) fun _ _ _ => .pure ()

theorem forM {l : List α} {f : α → Build PUnit} {takes : α → List Node}
    (hsafe : ∀ a ∈ l, ∀ w', w.Edits w' → (f a).Safe w' fun _ _ => True)
    (hf : ∀ a ∈ l, ∀ w', w.Edits w' → (f a).Takes w' d (takes a)) :
    (l.forM f).Takes w d (l.flatMap takes) := by
  induction l generalizing w with
  | nil => exact .pure PUnit.unit
  | cons a l ih =>
    rw [List.forall_mem_cons] at hsafe hf
    rw [List.flatMap_cons]
    show (f a >>= fun _ => l.forM f).Takes w d _
    refine (hf.1 w .refl).bind fun _ w' hrun => ?_
    have hedits := ((hsafe.1 w .refl).of_ok hrun).1
    exact ih (fun b hb w'' hedits' => hsafe.2 b hb w'' (hedits.trans hedits'))
      fun b hb w'' hedits' => hf.2 b hb w'' (hedits.trans hedits')

theorem mapM {l : List α} {f : α → Build β}
    (hsafe : ∀ a ∈ l, ∀ w', w.Edits w' → (f a).Safe w' fun _ _ => True)
    (hf : ∀ a ∈ l, ∀ w', w.Edits w' → (f a).Takes w' d []) : (l.mapM f).Takes w d [] := by
  induction l generalizing w with
  | nil => exact .pure []
  | cons a l ih =>
    rw [List.forall_mem_cons] at hsafe hf
    rw [List.mapM_cons]
    refine (hf.1 w .refl).bind_nil fun b w' hrun => ?_
    have hedits := ((hsafe.1 w .refl).of_ok hrun).1
    refine Takes.bind_nil (ih ?_ ?_) fun _ _ _ => .pure _
    · exact fun c hc w'' hedits' => hsafe.2 c hc w'' (hedits.trans hedits')
    · exact fun c hc w'' hedits' => hf.2 c hc w'' (hedits.trans hedits')

end Takes

end Build

open Build

variable {w : Workspace} {d d' : Document} {taken : List Node}

namespace Document

/-! ### Building in a document -/

theorem edit_takes (hne : d' ≠ d) {α : Type} (f : Tree → Except Error α × Tree) :
    (d.edit f).Takes w d' [] := by
  apply Takes.of_lost
  rw [outcome_edit]
  exact .of_tree_eq (Workspace.tree_setTree_of_ne hne) (by simp)

theorem receiveNode_takes (hw : w.Sound) (hne : d' ≠ d) {n : Node} (hn : n.Live w) (copy : Bool) :
    (d.receiveNode copy n).Takes w d' ((Expr.node n).moving copy) := by
  have hplanted : (w.setTree d ((w.tree d).plant (n.statement w)).1).tree d' = w.tree d' :=
    Workspace.tree_setTree_of_ne hne
  apply Takes.of_lost
  by_cases hdoc : n.document = d
  · have hown : ∀ m ∈ (Expr.node n).moving copy, m.document ≠ d' := by
      intro m hm heq
      have hmem : m ∈ [n] := by
        cases copy with
        | true => simp [Expr.moving] at hm
        | false => exact hm
      rw [List.mem_singleton.1 hmem, hdoc] at heq
      exact hne heq.symm
    rw [outcome_receiveNode_own w d hdoc]
    cases copy with
    | true => exact .of_tree_eq hplanted hown
    | false => exact .of_tree_eq rfl hown
  · rw [outcome_receiveNode_foreign w d hdoc]
    cases copy with
    | true => exact .of_tree_eq hplanted (by simp [Expr.moving])
    | false =>
      by_cases hd' : n.document = d'
      · subst hd'
        refine .of_detach (hw _ hn.has) ?_
        exact Workspace.tree_setTree (Workspace.has_setTree.2 hn.has)
      · refine .of_tree_eq ?_ (by simpa [Expr.moving] using hd')
        exact (Workspace.tree_setTree_of_ne (Ne.symm hd')).trans hplanted

theorem construct_takes (hne : d' ≠ d) (keyword : String) (argument : Option String)
    (parent : Option Node) (children : List Expr) {received : Build (List NodeId)}
    (hreceived : received.Takes w d' taken) :
    (d.construct keyword argument parent children received).Takes w d' taken := by
  by_cases hkeyword : keyword = ""
  · subst hkeyword
    exact .of_error (outcome_construct_empty ..)
  · rw [construct_of_ne d hkeyword]
    refine .unchanged_bind (mapM_ownId_snd ..) fun parentId => ?_
    refine .unchanged_bind (guardMoves_snd ..) fun _ => ?_
    exact hreceived.bind_nil fun ids w' _ => edit_takes hne _

mutual

theorem receive_takes (copy : Bool) (hne : d' ≠ d) : ∀ {w : Workspace} (e : Expr), w.Sound →
    w.Has d → e.Live w → (d.receive copy e).Takes w d' (e.moving copy)
  | _, .node n, hw, _, hlive => by
    rw [receive]
    exact receiveNode_takes hw hne (hlive n (List.mem_singleton_self n)) copy
  | _, .statement s, _, _, _ => by
    rw [receive]
    exact edit_takes hne _
  | _, .tuple keyword argument children, hw, hd, hlive => by
    rw [receive]
    exact construct_takes hne keyword argument none children
      (receiveAll_takes hne children hw hd hlive)

theorem receiveAll_takes (hne : d' ≠ d) : ∀ {w : Workspace} (es : List Expr), w.Sound →
    w.Has d → (∀ n ∈ Expr.nodesAll es, n.Live w) →
    (d.receiveAll es).Takes w d' (Expr.nodesAll es)
  | _, [], _, _, _ => by
    rw [receiveAll]
    exact .pure []
  | w, e :: rest, hw, hd, hlive => by
    rw [Expr.nodesAll, List.forall_mem_append] at hlive
    rw [receiveAll, Expr.nodesAll, ← Expr.moving_false]
    refine (receive_takes false hne e hw hd hlive.1).bind fun id w' hrun => ?_
    have hedits := ((receive_safe false e hw hd hlive.1).of_ok hrun).1
    have hrest := receiveAll_takes hne rest (hedits.sound hw) (hedits.has_iff.2 hd)
      fun n hn => hedits.live (hlive.2 n hn)
    exact hrest.bind_nil fun _ _ _ => .pure _

end

theorem build_takes (hw : w.Sound) (hd : w.Has d) (hne : d' ≠ d) (keyword : String)
    {input : Input} (parent : Option Node)
    (hlive : ∀ n ∈ Expr.nodesAll input.children, n.Live w) :
    (d.build keyword input parent).Takes w d' (Expr.nodesAll input.children) :=
  (construct_takes hne keyword input.argument parent input.children
    (receiveAll_takes hne input.children hw hd hlive)).bind_nil fun _ _ _ => .pure _

/-- A node that is expressed by itself stays where it is. -/
theorem express_takes (hw : w.Sound) (hd : w.Has d) (hne : d' ≠ d) {e : Expr}
    (parent : Option Node) (hlive : e.Live w) :
    (d.express e parent).Takes w d' (e.moving true) := by
  cases e with
  | node n => exact .pure n
  | tuple keyword argument children => exact build_takes hw hd hne keyword parent hlive
  | statement s =>
    refine .unchanged_bind (mapM_ownId_snd ..) fun parentId => ?_
    refine (edit_takes hne _).bind_nil fun id w' _ => ?_
    exact (edit_takes hne _).bind_nil fun _ _ _ => .pure _

theorem ofJson_takes (hw : w.Sound) (hd : w.Has d) (hne : d' ≠ d) (value : Json) :
    (d.ofJson value).Takes w d' [] := by
  unfold ofJson
  cases hvalue : Expr.ofJson value with
  | error fault => exact .of_error rfl
  | ok e =>
    have hnodes := Expr.nodes_ofJson hvalue
    have hexpress := express_takes hw hd hne none (e := e) (by simp [Expr.Live, hnodes])
    have hmoving : e.moving true = [] := by
      cases e with
      | node n => rfl
      | statement s => rfl
      | tuple keyword argument children => exact hnodes
    rwa [hmoving] at hexpress

end Document

namespace Node

/-! ### Building below a node -/

variable {n : Node}

theorem attach_built_takes {m : Build Node} (hne : d' ≠ n.document) (hm : m.Takes w d' taken) :
    (do
      let child ← m
      n.document.attach n.id child.id
      return child : Build Node).Takes w d' taken := by
  refine hm.bind_nil fun child w' _ => ?_
  exact (Document.edit_takes hne _).bind_nil fun _ _ _ => .pure child

theorem build_takes (hw : w.Sound) (hn : n.Live w) (hne : d' ≠ n.document) (keyword : String)
    {input : Input} (hlive : ∀ m ∈ Expr.nodesAll input.children, m.Live w) :
    (n.build keyword input).Takes w d' (Expr.nodesAll input.children) := by
  cases hroot : Keyword.isRoot keyword with
  | true => exact .of_error (outcome_build_root w n hroot input)
  | false =>
    rw [build_of_not_root n hroot]
    exact attach_built_takes hne (Document.build_takes hw hn.has hne keyword (some n) hlive)

theorem receive_takes (hw : w.Sound) (hn : n.Live w) (hne : d' ≠ n.document) (copy : Bool)
    {e : Expr} (hlive : e.Live w) : (n.receive copy e).Takes w d' (e.moving copy) := by
  refine (Document.receive_takes copy hne e hw hn.has hlive).bind_nil fun id w' _ => ?_
  exact (Document.edit_takes hne _).bind_nil fun _ _ _ => .pure id

theorem express_takes (hw : w.Sound) (hn : n.Live w) (hne : d' ≠ n.document) {e : Expr}
    (hlive : e.Live w) : (n.express e).Takes w d' e.nodes := by
  refine .unchanged_bind (Document.guardMoves_snd ..) fun _ => ?_
  rw [← Expr.moving_false]
  exact (receive_takes hw hn hne false hlive).bind_nil fun _ _ _ => .pure _

theorem append_takes (hw : w.Sound) (hn : n.Live w) (hne : d' ≠ n.document) {items : List Expr}
    (copy : Bool) (hlive : ∀ e ∈ items, e.Live w) :
    (n.append items copy).Takes w d' (items.flatMap (·.moving copy)) := by
  refine .unchanged_bind (Document.guardMoves_snd ..) fun _ => .forM ?_ ?_
  · intro e he w' hedits
    exact (receive_safe (hedits.sound hw) (hedits.live hn) (hedits.liveExpr (hlive e he))
      copy).bind fun _ _ _ _ => .pure trivial
  · intro e he w' hedits
    exact (receive_takes (hedits.sound hw) (hedits.live hn) hne copy
      (hedits.liveExpr (hlive e he))).bind_nil fun _ _ _ => .pure _

end Node

/-- What is built below every member is built from values, so nothing is taken. -/
theorem NodeList.build_takes (hw : w.Sound) {nodes : NodeList} (hnodes : ∀ n ∈ nodes, n.Live w)
    (hne : ∀ n ∈ nodes, d' ≠ n.document) (keyword : String) (input : Input) :
    (nodes.build keyword input).Takes w d' [] := by
  refine .mapM ?_ ?_
  · intro n hn w' hedits
    apply Safe.get_bind
    exact Safe.mono (Node.build_safe (hedits.sound hw) (hedits.live (hnodes n hn))
      (Expr.live_of_mem_frozenAll w' input.children)) fun _ _ _ _ => trivial
  · intro n hn w' hedits
    apply Takes.get_bind
    have hbuild : (n.build keyword (input.frozen w')).Takes w' d' _ :=
      Node.build_takes (hedits.sound hw) (hedits.live (hnodes n hn)) (hne n hn) keyword
        (Expr.live_of_mem_frozenAll w' input.children)
    rwa [Input.frozen, Expr.nodesAll_frozenAll] at hbuild

end YangDoc
