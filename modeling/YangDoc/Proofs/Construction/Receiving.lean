import YangDoc.Proofs.Construction.Safety

/-!
# Receiving expressions

Once the nodes that would move have been checked, receiving expressions with ordinary keywords
cannot fail. What it brings into the document is either new or one of the nodes that were to move,
and a statement that was not to move keeps its place. These two facts let the next expression be
judged by the check that was made before the first.
-/

namespace YangDoc

variable {w w' w'' : Workspace} {d : Document} {t : Tree} {parent : Option NodeId} {copy : Bool}

/-! ### The check of the moves -/

namespace Expr

mutual

theorem refusal?_eq_none_iff (copy : Bool) : (e : Expr) →
    (e.refusal? t d parent copy = none ↔
      ∀ m ∈ e.moving copy, m.document = d → t.refusal? parent m.id = none)
  | .node n => by
    rw [refusal?, moving]
    cases copy with
    | true => simp
    | false => simp
  | .statement s => by simp [refusal?, moving]
  | .tuple keyword argument children => by
    rw [refusal?, moving]
    exact refusalAmong?_eq_none_iff children

theorem refusalAmong?_eq_none_iff : (es : List Expr) →
    (refusalAmong? t d parent es = none ↔
      ∀ m ∈ nodesAll es, m.document = d → t.refusal? parent m.id = none)
  | [] => by simp [refusalAmong?, nodesAll]
  | e :: rest => by
    rw [refusalAmong?, Option.or_eq_none_iff, refusal?_eq_none_iff false e,
      refusalAmong?_eq_none_iff rest, moving_false, nodesAll, List.forall_mem_append]

end

end Expr

namespace Document

theorem guardMoves_cases (w : Workspace) (d : Document) (parent : Option NodeId) (copy : Bool)
    (exprs : List Expr) :
    ((d.guardMoves parent copy exprs).outcome w = (.ok (), w) ∧
        ∀ e ∈ exprs, ∀ m ∈ e.moving copy, m.document = d →
          (w.tree d).refusal? parent m.id = none) ∨
      ((∃ err, (d.guardMoves parent copy exprs).outcome w = (.error err, w)) ∧
        ∃ e ∈ exprs, ∃ m ∈ e.moving copy, m.document = d ∧
          (w.tree d).refusal? parent m.id ≠ none) := by
  rw [outcome_guardMoves]
  cases hfind : exprs.findSome? (·.refusal? (w.tree d) d parent copy) with
  | none =>
    refine .inl ⟨rfl, fun e he => ?_⟩
    rw [← Expr.refusal?_eq_none_iff]
    exact List.findSome?_eq_none_iff.1 hfind e he
  | some err =>
    refine .inr ⟨⟨err, rfl⟩, ?_⟩
    obtain ⟨e, he, herr⟩ := List.exists_of_findSome?_eq_some hfind
    have hsome : e.refusal? (w.tree d) d parent copy ≠ none := by simp [herr]
    rw [ne_eq, Expr.refusal?_eq_none_iff] at hsome
    push Not at hsome
    exact ⟨e, he, hsome⟩

/-- The node may not go under `parent`: it is the root of the document, or the parent itself, or it
lies above the parent. Without a parent only the root is excluded. -/
def Blocks (d : Document) (w : Workspace) (parent : Option Node) (m : Node) : Prop :=
  m = d.root ∨ m.document = d ∧ ∃ p ∈ parent, (w.tree d).Above m.id p.id

theorem blocks_iff (hw : w.Sound) (hd : w.Has d) {parent : Option Node} {m : Node} :
    d.Blocks w parent m ↔
      m.document = d ∧ (w.tree d).refusal? (parent.map Node.id) m.id ≠ none := by
  have hroot : m = d.root ↔ m.document = d ∧ m.id = Tree.root := by
    obtain ⟨md, mid⟩ := m
    exact Node.mk.injEq .. ▸ .rfl
  rw [Blocks, ne_eq, (hw d hd).refusal?_eq_none_iff, hroot, ← and_or_left, not_and_or, not_not]
  cases parent with
  | none => simp
  | some p => simp

/-- The check fails exactly for a node that may not go under the parent, and changes nothing. -/
theorem guardMoves_blocks (hw : w.Sound) (hd : w.Has d) (parent : Option Node) (copy : Bool)
    (exprs : List Expr) :
    ((d.guardMoves (parent.map Node.id) copy exprs).outcome w = (.ok (), w) ∧
        ∀ e ∈ exprs, ∀ m ∈ e.moving copy, ¬ d.Blocks w parent m) ∨
      ((∃ err, (d.guardMoves (parent.map Node.id) copy exprs).outcome w = (.error err, w)) ∧
        ∃ e ∈ exprs, ∃ m ∈ e.moving copy, d.Blocks w parent m) := by
  simp only [blocks_iff hw hd, not_and, not_not]
  exact guardMoves_cases w d (parent.map Node.id) copy exprs

theorem guardMoves_ok (hw : w.Sound) (hd : w.Has d) (parent : Option Node) {exprs : List Expr}
    (hmoves : ∀ e ∈ exprs, ∀ m ∈ e.moving copy, ¬ d.Blocks w parent m) :
    (d.guardMoves (parent.map Node.id) copy exprs).outcome w = (.ok (), w) := by
  rcases guardMoves_blocks hw hd parent copy exprs with ⟨hok, -⟩ | ⟨-, e, he, m, hm, hblocks⟩
  · exact hok
  · exact absurd hblocks (hmoves e he m hm)

theorem guardMoves_error (hw : w.Sound) (hd : w.Has d) (parent : Option Node) {exprs : List Expr}
    (hblocked : ∃ e ∈ exprs, ∃ m ∈ e.moving copy, d.Blocks w parent m) :
    ∃ err, (d.guardMoves (parent.map Node.id) copy exprs).outcome w = (.error err, w) := by
  obtain ⟨e, he, m, hm, hblocks⟩ := hblocked
  rcases guardMoves_blocks hw hd parent copy exprs with ⟨-, hnone⟩ | ⟨herr, -⟩
  · exact absurd hblocks (hnone e he m hm)
  · exact herr

/-! ### Receiving what was checked -/

/-- What receiving has brought into the document under `ids`, when the nodes in `moved` were to
move. -/
structure Received (d : Document) (moved : List Node) (w : Workspace) (ids : List Nat)
    (w' : Workspace) : Prop where
  ne_root : ∀ id : Nat, id ∈ ids → id ≠ Tree.root
  source : ∀ id : Nat, id ∈ ids → (w.tree d).size ≤ id ∨ (⟨d, id⟩ : Node) ∈ moved
  samePlace : ∀ x : Nat, x < (w.tree d).size → (⟨d, x⟩ : Node) ∉ moved →
    (w.tree d).SamePlace (w'.tree d) x

variable {moved moved' : List Node} {ids : List Nat} {id : Nat}

theorem Received.cons (h : d.Received moved w [id] w') (hrest : d.Received moved' w' ids w'')
    (hsize : (w.tree d).size ≤ (w'.tree d).size) :
    d.Received (moved ++ moved') w (id :: ids) w'' := by
  refine ⟨?_, ?_, ?_⟩
  · rw [List.forall_mem_cons]
    exact ⟨h.ne_root id (List.mem_singleton_self id), hrest.ne_root⟩
  · rw [List.forall_mem_cons]
    refine ⟨?_, fun x hx => ?_⟩
    · exact (h.source id (List.mem_singleton_self id)).imp_right (List.mem_append_left _)
    · rcases hrest.source x hx with hfresh | hmoved
      · exact .inl (hsize.trans hfresh)
      · exact .inr (List.mem_append_right _ hmoved)
  · intro x hx hnot
    rw [List.mem_append, not_or] at hnot
    exact (h.samePlace x hx hnot.1).trans (hrest.samePlace x (by omega) hnot.2)

theorem Received.not_mem (h : d.Received moved w ids w') {x : Nat} (hx : x < (w.tree d).size)
    (hnot : (⟨d, x⟩ : Node) ∉ moved) : x ∉ ids := by
  intro hmem
  rcases h.source x hmem with hfresh | hmoved
  · omega
  · exact hnot hmoved

theorem received_plant (hw : w.Sound) (hd : w.Has d) (s : Statement) (moved : List Node)
    (hplant : w'.tree d = ((w.tree d).plant s).1) :
    d.Received moved w [(w.tree d).size] w' := by
  have hplanted := (w.tree d).planted s
  have hroot := (hw d hd).root_lt
  refine ⟨?_, ?_, ?_⟩
  · intro id hid
    rw [List.mem_singleton.1 hid]
    exact Nat.ne_of_gt hroot
  · intro id hid
    rw [List.mem_singleton.1 hid]
    exact .inl le_rfl
  · intro x hx _
    rw [hplant]
    exact hplanted.samePlace hx

theorem receiveNode_ok (hw : w.Sound) (hd : w.Has d) {n : Node}
    (hroot : d.root ∉ (Expr.node n).moving copy) :
    ∃ id w', (d.receiveNode copy n).outcome w = (.ok id, w') ∧
      d.Received ((Expr.node n).moving copy) w [id] w' := by
  by_cases hdoc : n.document = d
  · cases copy with
    | true =>
      refine ⟨_, _, outcome_receiveNode_own w d hdoc true, ?_⟩
      exact received_plant hw hd _ _ (Workspace.tree_setTree hd)
    | false =>
      refine ⟨_, _, outcome_receiveNode_own w d hdoc false, ?_⟩
      subst hdoc
      rw [Expr.moving_false, Expr.nodes, List.mem_singleton] at hroot
      refine ⟨?_, ?_, fun _ _ _ _ => .rfl⟩
      · intro id hid
        rw [List.mem_singleton.1 hid]
        intro heq
        exact hroot (Node.mk.injEq .. ▸ ⟨rfl, heq.symm⟩)
      · intro id hid
        rw [List.mem_singleton.1 hid]
        exact .inr (List.mem_singleton_self n)
  · refine ⟨_, _, outcome_receiveNode_foreign w d hdoc copy, ?_⟩
    refine received_plant hw hd (n.statement w) _ ?_
    cases copy with
    | true => exact Workspace.tree_setTree hd
    | false => exact (Workspace.tree_setTree_of_ne (Ne.symm hdoc)).trans (Workspace.tree_setTree hd)

theorem construct_ok {keyword : String} (argument : Option String) {parent : Option Node}
    {parentId : Option NodeId} {children : List Expr} {received : Build (List NodeId)}
    (hw : w'.Sound) (hd : w'.Has d) (hkeyword : keyword ≠ "" ∧ Keyword.isRoot keyword = false)
    (hparent : (parent.mapM d.ownId).outcome w = (.ok parentId, w))
    (hguard : (d.guardMoves parentId false children).outcome w = (.ok (), w))
    (hreceived : received.outcome w = (.ok ids, w')) (hids : d.Received moved w ids w')
    (hfits : ∀ id : Nat, id ∈ ids → d.Fits id w')
    (hsize : (w.tree d).size ≤ (w'.tree d).size) :
    ∃ id w'', (d.construct keyword argument parent children received).outcome w = (.ok id, w'') ∧
      d.Received moved w [id] w'' := by
  obtain ⟨t, hassemble, hplace⟩ := (hw d hd).assemble_ok hkeyword.2 argument parentId
    fun c hc => ⟨hfits c hc, hids.ne_root c hc⟩
  refine ⟨(w'.tree d).size, w'.setTree d t, ?_, ?_, ?_, ?_⟩
  · rw [construct_of_ne d hkeyword.1, Build.outcome_bind_of_ok hparent,
      Build.outcome_bind_of_ok hguard, Build.outcome_bind_of_ok hreceived, outcome_edit, hassemble]
  · intro id hid
    rw [List.mem_singleton.1 hid]
    exact Nat.ne_of_gt (hw d hd).root_lt
  · intro id hid
    rw [List.mem_singleton.1 hid]
    exact .inl hsize
  · intro x hx hnot
    rw [Workspace.tree_setTree hd]
    exact (hids.samePlace x hx hnot).trans (hplace x (hids.not_mem hx hnot))

mutual

theorem receive_ok (copy : Bool) : ∀ {w : Workspace} (e : Expr), w.Sound → w.Has d → e.Live w →
    e.Ordinary → d.root ∉ e.moving copy →
    ∃ id w', (d.receive copy e).outcome w = (.ok id, w') ∧ d.Received (e.moving copy) w [id] w'
  | _, .node n, hw, hd, _, _, hroot => by
    rw [receive]
    exact receiveNode_ok hw hd hroot
  | _, .statement s, hw, hd, _, _, _ => by
    rw [receive]
    exact ⟨_, _, outcome_plant _ d s, received_plant hw hd s _ (Workspace.tree_setTree hd)⟩
  | w, .tuple keyword argument children, hw, hd, hlive, hordinary, hroot => by
    rw [Expr.ordinary_tuple_iff] at hordinary
    obtain ⟨hkeyword, hordinary⟩ := hordinary
    have hguard : (d.guardMoves none false children).outcome w = (.ok (), w) := by
      refine guardMoves_ok hw hd none fun e he m hm hblocks => hroot ?_
      obtain rfl : m = d.root := by simpa [Blocks] using hblocks
      rw [Expr.moving_false] at hm
      exact Expr.mem_nodesAll.2 ⟨e, he, hm⟩
    obtain ⟨ids, w', hids, hreceived⟩ := receiveAll_ok children hw hd hlive hordinary hroot
    obtain ⟨hedits, hfits⟩ := (receiveAll_safe children hw hd hlive).of_ok hids
    rw [receive]
    exact construct_ok argument (hedits.sound hw) (hedits.has_iff.2 hd) hkeyword rfl hguard hids
      hreceived hfits (hedits.size_le d)

theorem receiveAll_ok : ∀ {w : Workspace} (es : List Expr), w.Sound → w.Has d →
    (∀ n ∈ Expr.nodesAll es, n.Live w) → (∀ e ∈ es, e.Ordinary) → d.root ∉ Expr.nodesAll es →
    ∃ ids w', (d.receiveAll es).outcome w = (.ok ids, w') ∧
      d.Received (Expr.nodesAll es) w ids w'
  | w, [], _, _, _, _, _ => by
    rw [receiveAll]
    exact ⟨[], w, rfl, ⟨by simp, by simp, fun _ _ _ _ => .rfl⟩⟩
  | w, e :: rest, hw, hd, hlive, hordinary, hroot => by
    rw [Expr.nodesAll, List.mem_append, not_or] at hroot
    have he : e.Live w := fun n hn => hlive n (List.mem_append_left _ hn)
    obtain ⟨id, w₁, hid, hfirst⟩ := receive_ok false e hw hd he (hordinary e List.mem_cons_self)
      (by simpa using hroot.1)
    have hedits := ((receive_safe false e hw hd he).of_ok hid).1
    obtain ⟨ids, w₂, hids, hnext⟩ := receiveAll_ok rest (hedits.sound hw) (hedits.has_iff.2 hd)
      (fun n hn => hedits.live (hlive n (List.mem_append_right _ hn)))
      (fun e he => hordinary e (List.mem_cons_of_mem _ he)) hroot.2
    refine ⟨id :: ids, w₂, ?_, ?_⟩
    · rw [receiveAll, Build.outcome_bind_of_ok hid, Build.outcome_bind_of_ok hids]
      rfl
    · rw [Expr.moving_false] at hfirst
      exact hfirst.cons hnext (hedits.size_le d)

end

/-! ### Failing on a keyword -/

/-- A statement was built only if the check let its substatements pass, they were received, and the
table took them in. -/
theorem construct_inv {keyword : String} {argument : Option String} {parent : Option Node}
    {children : List Expr} {received : Build (List NodeId)} {id : NodeId}
    (hok : (d.construct keyword argument parent children received).outcome w = (.ok id, w'')) :
    keyword ≠ "" ∧ ∃ parentId ids w' t,
      (d.guardMoves parentId false children).outcome w = (.ok (), w) ∧
        received.outcome w = (.ok ids, w') ∧
        (w'.tree d).assemble keyword argument parentId ids = (.ok id, t) ∧
          w'' = w'.setTree d t := by
  have hkeyword : keyword ≠ "" := by
    rintro rfl
    rw [outcome_construct_empty] at hok
    simp at hok
  rw [construct_of_ne d hkeyword] at hok
  obtain ⟨parentId, w₁, hparent, hrest⟩ := Build.outcome_bind_eq_ok hok
  have hw₁ : w₁ = w := by simpa [hparent] using mapM_ownId_snd w d parent
  rw [hw₁] at hrest
  obtain ⟨_, w₂, hguard, hrest'⟩ := Build.outcome_bind_eq_ok hrest
  have hw₂ : w₂ = w := by simpa [hguard] using guardMoves_snd w d parentId false children
  rw [hw₂] at hrest' hguard
  obtain ⟨ids, w', hids, hedit⟩ := Build.outcome_bind_eq_ok hrest'
  rw [outcome_edit] at hedit
  obtain ⟨hresult, hspace⟩ := Prod.mk.inj hedit
  exact ⟨hkeyword, parentId, ids, w', _, hguard, hids, Prod.ext hresult rfl, hspace.symm⟩

theorem construct_eq_ok {keyword : String} {argument : Option String} {parent : Option Node}
    {children : List Expr} {received : Build (List NodeId)} {id : NodeId}
    (hok : (d.construct keyword argument parent children received).outcome w = (.ok id, w'')) :
    keyword ≠ "" ∧ (Keyword.isRoot keyword = true → id = Tree.root) ∧
      ∃ ids w', received.outcome w = (.ok ids, w') ∧ ∀ i ∈ ids, i ≠ Tree.root := by
  obtain ⟨hkeyword, parentId, ids, w', t, -, hids, hassemble, -⟩ := construct_inv hok
  have hresult := congrArg Prod.fst hassemble
  refine ⟨hkeyword, fun hroot => ?_, ids, w', hids, Tree.ne_root_of_assemble hresult⟩
  exact Tree.eq_root_of_assemble hroot hresult

mutual

theorem ordinary_of_receive : ∀ {w w' : Workspace} {copy : Bool} {id : NodeId} (e : Expr),
    (d.receive copy e).outcome w = (.ok id, w') → id ≠ Tree.root → e.Ordinary
  | _, _, _, _, .node n, _, _ => by simp [Expr.Ordinary, Expr.keywords]
  | _, _, _, _, .statement s, _, _ => by simp [Expr.Ordinary, Expr.keywords]
  | _, _, _, _, .tuple keyword argument children, hok, hid => by
    rw [receive] at hok
    obtain ⟨hkeyword, hroot, ids, w₁, hids, hne⟩ := construct_eq_ok hok
    rw [Expr.ordinary_tuple_iff, ← Bool.not_eq_true]
    exact ⟨⟨hkeyword, fun h => hid (hroot h)⟩, ordinary_of_receiveAll children hids hne⟩

theorem ordinary_of_receiveAll : ∀ {w w' : Workspace} {ids : List NodeId} (es : List Expr),
    (d.receiveAll es).outcome w = (.ok ids, w') → (∀ i ∈ ids, i ≠ Tree.root) →
    ∀ e ∈ es, e.Ordinary
  | _, _, _, [], _, _ => by simp
  | _, _, _, e :: rest, hok, hne => by
    rw [receiveAll] at hok
    obtain ⟨id, w₁, hid, hrest⟩ := Build.outcome_bind_eq_ok hok
    obtain ⟨ids, w₂, hids, hlast⟩ := Build.outcome_bind_eq_ok hrest
    rw [← Except.ok.inj (congrArg Prod.fst hlast), List.forall_mem_cons] at hne
    rw [List.forall_mem_cons]
    exact ⟨ordinary_of_receive e hid hne.1, ordinary_of_receiveAll rest hids hne.2⟩

end

end Document

end YangDoc
