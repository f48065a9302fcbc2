import YangDoc.Proofs.Construction.Materialization
import YangDoc.Proofs.Construction.Turns
import YangDoc.Proofs.Tree.Insertion

/-!
# Building first and appending later

A statement can be built together with its substatements, or it can be built without them and they
are appended to it. Built together, the statement is made last, and what was received stays on its
old list until then. Built without them it is made first, and takes each substatement as soon as it
is received. The two ways are followed side by side here: up to the end the tables of the document
differ by the one row that was made earlier and by what it has taken, and the other documents do not
differ at all.
-/

namespace YangDoc

variable {d : Document} {gap : Nat} {head : String × Option String} {taken ids : List Nat}
  {w w' w₁ w₁' : Workspace}

theorem Workspace.Edits.liveAll (hedits : w.Edits w') {es : List Expr}
    (hes : ∀ m ∈ Expr.nodesAll es, m.Live w) : ∀ e ∈ es, e.Live w' :=
  fun e he m hm => hedits.live (hes m (Expr.mem_nodesAll.2 ⟨e, he, hm⟩))

namespace Document

/-- The second workspace has one more row in the table of the document, and is otherwise like the
first. -/
structure Ahead (d : Document) (gap : Nat) (head : String × Option String) (taken : List Nat)
    (w w' : Workspace) : Prop where
  table : (w.tree d).Inserted gap head taken (w'.tree d)
  others : ∀ d', d' ≠ d → w'.tree d' = w.tree d'

/-- Those of the nodes that belong to the document are old, none of them is the root, and none has
been taken. -/
def Free (d : Document) (gap : Nat) (taken : List Nat) (nodes : List Node) : Prop :=
  ∀ x : Nat, (⟨d, x⟩ : Node) ∈ nodes → x ≠ Tree.root ∧ x < gap ∧ x ∉ taken

namespace Free

variable {nodes rest : List Node} {id : Nat}

theorem root_not_mem (h : d.Free gap taken nodes) : d.root ∉ nodes :=
  fun hmem => (h Tree.root hmem).1 rfl

theorem left (h : d.Free gap taken (nodes ++ rest)) : d.Free gap taken nodes :=
  fun x hx => h x (List.mem_append_left _ hx)

theorem right (h : d.Free gap taken (nodes ++ rest)) : d.Free gap taken rest :=
  fun x hx => h x (List.mem_append_right _ hx)

/-- Where each node of the document is named once, taking what comes first takes nothing of what
comes later. -/
theorem take (h : d.Free gap taken (nodes ++ rest))
    (honce : ((nodes ++ rest).filter (·.document = d)).Nodup)
    (hsource : gap ≤ id ∨ (⟨d, id⟩ : Node) ∈ nodes) : d.Free gap (taken ++ [id]) rest := by
  intro x hx
  obtain ⟨hroot, hold, hnot⟩ := h.right x hx
  refine ⟨hroot, hold, fun hmem => ?_⟩
  rcases List.mem_append.1 hmem with hmem | hmem
  · exact hnot hmem
  · obtain rfl := List.mem_singleton.1 hmem
    rcases hsource with hnew | hmoved
    · omega
    · rw [List.filter_append, List.nodup_append] at honce
      exact honce.2.2 _ (List.mem_filter.2 ⟨hmoved, decide_eq_true rfl⟩) _
        (List.mem_filter.2 ⟨hx, decide_eq_true rfl⟩) rfl

end Free

namespace Ahead

theorem setTree {t t' : Tree} (h : d.Ahead gap head taken w w') (hd : w.Has d) (hd' : w'.Has d)
    (ht : t.Inserted gap head ids t') :
    d.Ahead gap head ids (w.setTree d t) (w'.setTree d t') := by
  refine ⟨?_, fun d' hne => ?_⟩
  · rwa [Workspace.tree_setTree hd, Workspace.tree_setTree hd']
  · rw [Workspace.tree_setTree_of_ne hne, Workspace.tree_setTree_of_ne hne, h.others d' hne]

theorem setTree_other (h : d.Ahead gap head taken w w') {d₁ : Document} (hne : d₁ ≠ d)
    (hd : w.Has d₁) (hd' : w'.Has d₁) (t : Tree) :
    d.Ahead gap head taken (w.setTree d₁ t) (w'.setTree d₁ t) := by
  refine ⟨?_, fun d' hne' => ?_⟩
  · rw [Workspace.tree_setTree_of_ne (Ne.symm hne), Workspace.tree_setTree_of_ne (Ne.symm hne)]
    exact h.table
  · by_cases heq : d' = d₁
    · rw [heq, Workspace.tree_setTree hd, Workspace.tree_setTree hd']
    · rw [Workspace.tree_setTree_of_ne heq, Workspace.tree_setTree_of_ne heq, h.others d' hne']

theorem live_gap (h : d.Ahead gap head taken w w') : (⟨d, gap⟩ : Node).Live w' := by
  change gap < (w'.tree d).size
  rw [h.table.size_eq]
  exact Nat.lt_succ_of_le h.table.gap_le

theorem live (h : d.Ahead gap head taken w w') {nodes : List Node} (hfree : d.Free gap taken nodes)
    (hlive : ∀ m ∈ nodes, m.Live w) : ∀ m ∈ nodes, m.Live w' := by
  rintro ⟨d', x⟩ hm
  by_cases hdoc : d' = d
  · subst hdoc
    exact (hfree x hm).2.1.trans h.live_gap
  · rw [Node.Live, Node.tree, h.others d' hdoc]
    exact hlive _ hm

theorem plant (h : d.Ahead gap head taken w w') (hd : w.Has d) (hd' : w'.Has d) (s : Statement) :
    d.Ahead gap head taken (w.setTree d ((w.tree d).plant s).1)
      (w'.setTree d ((w'.tree d).plant s).1) :=
  h.setTree hd hd' (h.table.plant s)

/-- What is received is new or was free before, so it has not been taken. -/
theorem not_mem_taken (h : d.Ahead gap head taken w w') {nodes : List Node} {id : Nat}
    (hfree : d.Free gap taken nodes)
    (hsource : (w.tree d).size ≤ id ∨ (⟨d, id⟩ : Node) ∈ nodes) : id ∉ taken := by
  rcases hsource with hnew | hmoved
  · exact h.table.not_mem_of_size_le hnew
  · exact (hfree id hmoved).2.2

end Ahead

/-! ### Receiving side by side -/

theorem receiveNode_ahead {n : Node} {id id' : Nat} (hd : w.Has d) (hd' : w'.Has d)
    (hn : n.Live w) (hn' : n.Live w') (hfree : d.Free gap taken [n])
    (h : d.Ahead gap head taken w w') (hok : (d.receiveNode false n).outcome w = (.ok id, w₁))
    (hok' : (d.receiveNode false n).outcome w' = (.ok id', w₁')) :
    id' = Tree.shift gap id ∧ d.Ahead gap head taken w₁ w₁' := by
  by_cases hdoc : n.document = d
  · rw [outcome_receiveNode_own w d hdoc, if_neg Bool.false_ne_true] at hok
    rw [outcome_receiveNode_own w' d hdoc, if_neg Bool.false_ne_true] at hok'
    obtain ⟨rfl, rfl⟩ := Build.ok_inj hok
    obtain ⟨rfl, rfl⟩ := Build.ok_inj hok'
    subst hdoc
    have hold := (hfree n.id (List.mem_singleton_self n)).2.1
    exact ⟨(Tree.shift_of_lt hold).symm, h⟩
  · have hsame : n.tree w' = n.tree w := h.others n.document hdoc
    rw [outcome_receiveNode_foreign w d hdoc, if_neg Bool.false_ne_true] at hok
    rw [outcome_receiveNode_foreign w' d hdoc, if_neg Bool.false_ne_true, Node.statement,
      hsame] at hok'
    obtain ⟨rfl, rfl⟩ := Build.ok_inj hok
    obtain ⟨rfl, rfl⟩ := Build.ok_inj hok'
    refine ⟨h.table.size_eq_shift, ?_⟩
    exact (h.plant hd hd' _).setTree_other hdoc (Workspace.has_setTree.2 hn.has)
      (Workspace.has_setTree.2 hn'.has) _

theorem construct_ahead {keyword : String} {argument : Option String} {children : List Expr}
    {id id' : Nat} (hw : w.Sound) (hd : w.Has d) (hw' : w'.Sound) (hd' : w'.Has d)
    (hlive : ∀ m ∈ Expr.nodesAll children, m.Live w) (hroot : Keyword.isRoot keyword = false)
    (hordinary : ∀ e ∈ children, e.Ordinary) (hfree : d.Free gap taken (Expr.nodesAll children))
    (h : d.Ahead gap head taken w w')
    (hchildren : ∀ ids ids' w₁ w₁', (d.receiveAll children).outcome w = (.ok ids, w₁) →
      (d.receiveAll children).outcome w' = (.ok ids', w₁') →
      ids' = ids.map (Tree.shift gap) ∧ d.Ahead gap head taken w₁ w₁')
    (hok : (d.construct keyword argument none children (d.receiveAll children)).outcome w =
      (.ok id, w₁))
    (hok' : (d.construct keyword argument none children (d.receiveAll children)).outcome w' =
      (.ok id', w₁')) :
    id' = Tree.shift gap id ∧ d.Ahead gap head taken w₁ w₁' := by
  obtain ⟨-, parent, ids, w₂, t, -, hids, hassemble, rfl⟩ := construct_inv hok
  obtain ⟨-, parent', ids', w₂', t', -, hids', hassemble', rfl⟩ := construct_inv hok'
  obtain ⟨rfl, h₂⟩ := hchildren ids ids' w₂ w₂' hids hids'
  obtain ⟨hedits, hfits⟩ := (receiveAll_safe children hw hd hlive).of_ok hids
  obtain ⟨hedits', hfits'⟩ :=
    (receiveAll_safe children hw' hd' (h.live hfree hlive)).of_ok hids'
  obtain ⟨_, _, hagain, hreceived⟩ :=
    receiveAll_ok children hw hd hlive hordinary hfree.root_not_mem
  obtain ⟨rfl, rfl⟩ := Build.ok_inj (hids.symm.trans hagain)
  have hd₂ := hedits.has_iff.2 hd
  have hd₂' := hedits'.has_iff.2 hd'
  obtain ⟨rfl, hnew⟩ := (hedits.sound hw d hd₂).assembled_new hroot hfits hassemble
  obtain ⟨rfl, hnew'⟩ := (hedits'.sound hw' d hd₂').assembled_new hroot hfits' hassemble'
  have hnone : ∀ c ∈ ids, c ∉ taken := fun c hc =>
    h.not_mem_taken hfree (hreceived.source c hc)
  have hboth := h₂.table.assembled hnew hnew' (Tree.size_assemble hroot hassemble)
    (Tree.size_assemble hroot hassemble') hnone
  exact ⟨h₂.table.size_eq_shift, h₂.setTree hd₂ hd₂' hboth⟩

mutual

theorem receive_ahead : ∀ {w w' w₁ w₁' : Workspace} {id id' : Nat} (e : Expr), w.Sound →
    w.Has d → w'.Sound → w'.Has d → e.Live w → e.Ordinary → d.Free gap taken e.nodes →
    d.Ahead gap head taken w w' → (d.receive false e).outcome w = (.ok id, w₁) →
    (d.receive false e).outcome w' = (.ok id', w₁') →
    id' = Tree.shift gap id ∧ d.Ahead gap head taken w₁ w₁'
  | _, _, _, _, _, _, .node n, _, hd, _, hd', hlive, _, hfree, h, hok, hok' => by
    rw [receive] at hok hok'
    have hmem : n ∈ [n] := List.mem_singleton_self n
    exact receiveNode_ahead hd hd' (hlive n hmem) (h.live hfree hlive n hmem) hfree h hok hok'
  | _, _, _, _, _, _, .statement s, _, hd, _, hd', _, _, _, h, hok, hok' => by
    rw [receive, outcome_plant] at hok hok'
    obtain ⟨rfl, rfl⟩ := Build.ok_inj hok
    obtain ⟨rfl, rfl⟩ := Build.ok_inj hok'
    exact ⟨h.table.size_eq_shift, h.plant hd hd' s⟩
  | _, _, _, _, _, _, .tuple keyword argument children, hw, hd, hw', hd', hlive, hordinary, hfree,
      h, hok, hok' => by
    rw [receive] at hok hok'
    rw [Expr.ordinary_tuple_iff] at hordinary
    exact construct_ahead hw hd hw' hd' hlive hordinary.1.2 hordinary.2 hfree h
      (fun _ _ _ _ hids hids' =>
        receiveAll_ahead children hw hd hw' hd' hlive hordinary.2 hfree h hids hids') hok hok'

theorem receiveAll_ahead : ∀ {w w' w₁ w₁' : Workspace} {ids ids' : List Nat} (es : List Expr),
    w.Sound → w.Has d → w'.Sound → w'.Has d → (∀ m ∈ Expr.nodesAll es, m.Live w) →
    (∀ e ∈ es, e.Ordinary) → d.Free gap taken (Expr.nodesAll es) →
    d.Ahead gap head taken w w' → (d.receiveAll es).outcome w = (.ok ids, w₁) →
    (d.receiveAll es).outcome w' = (.ok ids', w₁') →
    ids' = ids.map (Tree.shift gap) ∧ d.Ahead gap head taken w₁ w₁'
  | _, _, _, _, _, _, [], _, _, _, _, _, _, _, h, hok, hok' => by
    rw [receiveAll] at hok hok'
    obtain ⟨rfl, rfl⟩ := Build.ok_inj hok
    obtain ⟨rfl, rfl⟩ := Build.ok_inj hok'
    exact ⟨rfl, h⟩
  | w, w', _, _, _, _, e :: rest, hw, hd, hw', hd', hlive, hordinary, hfree, h, hok, hok' => by
    rw [receiveAll] at hok hok'
    obtain ⟨id, w₂, hid, hrest⟩ := Build.outcome_bind_eq_ok hok
    obtain ⟨ids, w₃, hids, hlast⟩ := Build.outcome_bind_eq_ok hrest
    obtain ⟨rfl, rfl⟩ := Build.ok_inj hlast
    obtain ⟨id', w₂', hid', hrest'⟩ := Build.outcome_bind_eq_ok hok'
    obtain ⟨ids', w₃', hids', hlast'⟩ := Build.outcome_bind_eq_ok hrest'
    obtain ⟨rfl, rfl⟩ := Build.ok_inj hlast'
    rw [List.forall_mem_cons] at hordinary
    have hlive' := h.live hfree hlive
    rw [Expr.nodesAll, List.forall_mem_append] at hlive hlive'
    have hedits := ((receive_safe false e hw hd hlive.1).of_ok hid).1
    have hedits' := ((receive_safe false e hw' hd' hlive'.1).of_ok hid').1
    obtain ⟨rfl, h₂⟩ :=
      receive_ahead e hw hd hw' hd' hlive.1 hordinary.1 hfree.left h hid hid'
    obtain ⟨rfl, h₃⟩ := receiveAll_ahead rest (hedits.sound hw) (hedits.has_iff.2 hd)
      (hedits'.sound hw') (hedits'.has_iff.2 hd') (fun m hm => hedits.live (hlive.2 m hm))
      hordinary.2 hfree.right h₂ hids hids'
    exact ⟨rfl, h₃⟩

end

theorem receive_source {e : Expr} {id : Nat} (hw : w.Sound) (hd : w.Has d) (hlive : e.Live w)
    (hordinary : e.Ordinary) (hroot : d.root ∉ e.nodes)
    (hok : (d.receive false e).outcome w = (.ok id, w₁)) :
    (w.tree d).size ≤ id ∨ (⟨d, id⟩ : Node) ∈ e.nodes := by
  rw [← Expr.moving_false] at hroot
  obtain ⟨_, _, hagain, hreceived⟩ := receive_ok false e hw hd hlive hordinary hroot
  obtain ⟨rfl, rfl⟩ := Build.ok_inj (hok.symm.trans hagain)
  rw [Expr.moving_false] at hreceived
  exact hreceived.source id (List.mem_singleton_self id)

theorem receive_take_ahead {e : Expr} {id id' : Nat} (hw : w.Sound) (hd : w.Has d)
    (hw' : w'.Sound) (hd' : w'.Has d) (hlive : e.Live w) (hordinary : e.Ordinary)
    (hfree : d.Free gap taken e.nodes) (h : d.Ahead gap head taken w w')
    (hok : (d.receive false e).outcome w = (.ok id, w₁))
    (hok' : ((⟨d, gap⟩ : Node).receive false e).outcome w' = (.ok id', w₁')) :
    d.Ahead gap head (taken ++ [id]) w₁ w₁' := by
  unfold Node.receive at hok'
  obtain ⟨x, w₂, hx, hrest⟩ := Build.outcome_bind_eq_ok hok'
  obtain ⟨_, w₃, hattach, hlast⟩ := Build.outcome_bind_eq_ok hrest
  obtain ⟨-, rfl⟩ := Build.ok_inj hlast
  obtain ⟨hedits, hfits⟩ := (receive_safe false e hw hd hlive).of_ok hok
  have hedits' := ((receive_safe false e hw' hd' (h.live hfree hlive)).of_ok hx).1
  have hd₂ := hedits'.has_iff.2 hd'
  obtain ⟨rfl, h₂⟩ := receive_ahead e hw hd hw' hd' hlive hordinary hfree h hok hx
  obtain ⟨t, ht, rfl⟩ := attach_eq_ok hattach
  have hnot := h.not_mem_taken hfree
    (receive_source hw hd hlive hordinary hfree.root_not_mem hok)
  have htaken := h₂.table.take (hedits'.sound hw' d hd₂) hfits hnot ht
  have hset := h₂.setTree (hedits.has_iff.2 hd) hd₂ htaken
  rwa [Workspace.setTree_tree] at hset

/-- While one workspace receives all that a statement is to be built from, in the other the
statement is there already and takes each part as it comes. -/
theorem receiveEach_ahead {items : List Expr} (hw : w.Sound) (hd : w.Has d) (hw' : w'.Sound)
    (hd' : w'.Has d) (hlive : ∀ m ∈ Expr.nodesAll items, m.Live w)
    (hordinary : ∀ e ∈ items, e.Ordinary) (hfree : d.Free gap taken (Expr.nodesAll items))
    (honce : ((Expr.nodesAll items).filter (·.document = d)).Nodup)
    (h : d.Ahead gap head taken w w') (hok : (d.receiveAll items).outcome w = (.ok ids, w₁))
    (hok' : (items.forM fun e => (do
      let _ ← (⟨d, gap⟩ : Node).receive false e : Build PUnit)).outcome w' = (.ok (), w₁')) :
    d.Ahead gap head (taken ++ ids) w₁ w₁' := by
  induction items generalizing w w' taken ids with
  | nil =>
    rw [receiveAll] at hok
    obtain ⟨rfl, rfl⟩ := Build.ok_inj hok
    obtain ⟨-, rfl⟩ := Build.ok_inj hok'
    rwa [List.append_nil]
  | cons e rest ih =>
    rw [receiveAll] at hok
    obtain ⟨id, w₂, hid, hrest⟩ := Build.outcome_bind_eq_ok hok
    obtain ⟨ids, w₃, hids, hlast⟩ := Build.outcome_bind_eq_ok hrest
    obtain ⟨rfl, rfl⟩ := Build.ok_inj hlast
    obtain ⟨_, w₂', hfirst', hrest'⟩ := Build.outcome_bind_eq_ok hok'
    obtain ⟨id', w₃', hid', hskip⟩ := Build.outcome_bind_eq_ok hfirst'
    obtain ⟨-, rfl⟩ := Build.ok_inj hskip
    have hlive' := h.live hfree hlive
    rw [List.forall_mem_cons] at hordinary
    rw [Expr.nodesAll, List.forall_mem_append] at hlive hlive'
    rw [Expr.nodesAll] at hfree honce
    have hedits := ((receive_safe false e hw hd hlive.1).of_ok hid).1
    have hedits' := ((Node.receive_safe hw' h.live_gap hlive'.1 false).of_ok hid').1
    have hsource := receive_source hw hd hlive.1 hordinary.1 hfree.left.root_not_mem hid
    have hafter := hfree.take honce (hsource.imp_left h.table.gap_le.trans)
    have honce' := (List.nodup_append.1 (List.filter_append .. ▸ honce)).2.1
    have h₂ := receive_take_ahead hw hd hw' hd' hlive.1 hordinary.1 hfree.left h hid hid'
    have h₃ := ih (hedits.sound hw) (hedits.has_iff.2 hd) (hedits'.sound hw')
      (hedits'.has_iff.2 hd') (fun m hm => hedits.live (hlive.2 m hm)) hordinary.2 hafter
      honce' h₂ hids hrest'
    rwa [List.append_assoc, List.singleton_append] at h₃

/-! ### The two ways to build -/

def buildAndAppend (d : Document) (keyword : String) (input : Input) : Build Node := do
  let n ← d.build keyword { argument := input.argument }
  n.append input.children
  return n

variable {keyword : String} {argument : Option String} {children : List Expr} {n n' : Node}

theorem build_leaf_ahead (hw : w.Sound) (hd : w.Has d) (hroot : Keyword.isRoot keyword = false)
    (hok : (d.build keyword { argument }).outcome w = (.ok n, w')) :
    n = ⟨d, (w.tree d).size⟩ ∧ w.Edits w' ∧
      d.Ahead (w.tree d).size (keyword, argument) [] w w' := by
  have hsafe : (d.build keyword { argument }).Safe w _ := build_safe hw hd (by simp [Expr.nodesAll])
  have hedits := (hsafe.of_ok hok).1
  obtain ⟨id, w₂, hconstruct, hlast⟩ := Build.outcome_bind_eq_ok hok
  obtain ⟨rfl, rfl⟩ := Build.ok_inj hlast
  obtain ⟨-, parent, ids, w₁, t, -, hids, hassemble, rfl⟩ := construct_inv hconstruct
  rw [receiveAll] at hids
  obtain ⟨rfl, rfl⟩ := Build.ok_inj hids
  obtain ⟨rfl, hnew⟩ := (hw d hd).assembled_new hroot (by simp) hassemble
  refine ⟨rfl, hedits, ?_, fun d' hne => Workspace.tree_setTree_of_ne hne⟩
  rw [Workspace.tree_setTree hd]
  exact hnew.inserted (Tree.size_assemble hroot hassemble) (hw d hd)

theorem build_returns_iff (hw : w.Sound) (hd : w.Has d) (hkeyword : keyword ≠ "")
    (hlive : ∀ m ∈ Expr.nodesAll children, m.Live w) (hordinary : ∀ e ∈ children, e.Ordinary) :
    (∃ n w', (d.build keyword { argument, children }).outcome w = (.ok n, w')) ↔
      d.root ∉ Expr.nodesAll children := by
  rw [(build_checked hw hd keyword argument none hlive).ok_iff, and_iff_left hordinary]
  simp [Refuses, Blocks, hkeyword, Expr.mem_nodesAll]

/-- Nothing else lies above the new statement, so only the root cannot be appended to it. -/
theorem Ahead.blocks_iff (h : d.Ahead (w.tree d).size head taken w w') {m : Node}
    (hm : m.Live w) : d.Blocks w' (some ⟨d, (w.tree d).size⟩) m ↔ m = d.root := by
  refine ⟨?_, .inl⟩
  rintro (hroot | ⟨rfl, p, hp, habove⟩)
  · exact hroot
  · obtain rfl := Option.some.inj hp
    rw [Tree.above_of_not_lists h.table.not_lists_gap] at habove
    exact absurd hm (Nat.not_lt.2 habove.ge)

theorem buildAndAppend_inv (hw : w.Sound) (hd : w.Has d) (hroot : Keyword.isRoot keyword = false)
    (hlive : ∀ m ∈ Expr.nodesAll children, m.Live w)
    (hok : (d.buildAndAppend keyword { argument, children }).outcome w = (.ok n, w')) :
    n = ⟨d, (w.tree d).size⟩ ∧ ∃ w₁, w.Edits w₁ ∧ w₁.Edits w' ∧
      d.Ahead (w.tree d).size (keyword, argument) [] w w₁ ∧
      (n.append children).outcome w₁ = (.ok (), w') := by
  obtain ⟨n, w₁, hbuild, hrest⟩ := Build.outcome_bind_eq_ok hok
  obtain ⟨_, w₂, happend, hlast⟩ := Build.outcome_bind_eq_ok hrest
  obtain ⟨rfl, rfl⟩ := Build.ok_inj hlast
  obtain ⟨rfl, hedits, h⟩ := build_leaf_ahead hw hd hroot hbuild
  have hsafe := Node.append_safe (hedits.sound hw) h.live_gap (hedits.liveAll hlive) false
  exact ⟨rfl, w₁, hedits, (hsafe.of_ok happend).1, h, happend⟩

theorem buildAndAppend_returns_iff (hw : w.Sound) (hd : w.Has d)
    (hkeyword : keyword ≠ "" ∧ Keyword.isRoot keyword = false)
    (hlive : ∀ m ∈ Expr.nodesAll children, m.Live w) (hordinary : ∀ e ∈ children, e.Ordinary) :
    (∃ n w', (d.buildAndAppend keyword { argument, children }).outcome w = (.ok n, w')) ↔
      d.root ∉ Expr.nodesAll children := by
  constructor
  · rintro ⟨n, w', hok⟩ hroot
    obtain ⟨rfl, w₁, hedits, -, h, happend⟩ := buildAndAppend_inv hw hd hkeyword.2 hlive hok
    obtain ⟨e, he, hmem⟩ := Expr.mem_nodesAll.1 hroot
    rw [← Expr.moving_false] at hmem
    have hmoves := ((Node.append_eq_ok_iff (hedits.sound hw) h.live_gap).1 happend).1
    exact hmoves e he d.root hmem (.inl rfl)
  · intro hroot
    have hreturns : ∃ n w₁, (d.build keyword { argument }).outcome w = (.ok n, w₁) :=
      (build_returns_iff hw hd hkeyword.1 (by simp [Expr.nodesAll]) (by simp)).2
        (by simp [Expr.nodesAll])
    obtain ⟨n, w₁, hbuild⟩ := hreturns
    obtain ⟨rfl, hedits, h⟩ := build_leaf_ahead hw hd hkeyword.2 hbuild
    have hnone : ¬ ∃ e ∈ children, ∃ m ∈ e.moving false,
        d.Blocks w₁ (some ⟨d, (w.tree d).size⟩) m := by
      rintro ⟨e, he, m, hm, hblocks⟩
      rw [Expr.moving_false] at hm
      have hmem := Expr.mem_nodesAll.2 ⟨e, he, hm⟩
      exact hroot ((h.blocks_iff (hlive m hmem)).1 hblocks ▸ hmem)
    obtain ⟨_, w₂, happend⟩ := (Node.append_checked (hedits.sound hw) h.live_gap
      (hedits.liveAll hlive) false).returns hnone hordinary
    refine ⟨⟨d, (w.tree d).size⟩, w₂, ?_⟩
    exact (Build.outcome_bind_of_ok hbuild).trans (Build.outcome_bind_of_ok happend)

/-- The two ways lead to workspaces that differ in the numbering of the new statements only. -/
theorem buildAndAppend_renamed (hw : w.Sound) (hd : w.Has d)
    (hroot : Keyword.isRoot keyword = false)
    (hlive : ∀ m ∈ Expr.nodesAll children, m.Live w) (hordinary : ∀ e ∈ children, e.Ordinary)
    (honce : ((Expr.nodesAll children).filter (·.document = d)).Nodup)
    (hok : (d.build keyword { argument, children }).outcome w = (.ok n, w₁))
    (hok' : (d.buildAndAppend keyword { argument, children }).outcome w = (.ok n', w₁')) :
    ∃ count, n = ⟨d, (w.tree d).size + count⟩ ∧ n' = ⟨d, (w.tree d).size⟩ ∧
      (w₁.tree d).Renamed (Tree.hoist (w.tree d).size count) (w₁'.tree d) ∧
      (∀ d', d' ≠ d → w₁'.tree d' = w₁.tree d') ∧
      ∀ x c, x < (w.tree d).size → (w₁.tree d).Lists x c → c < (w.tree d).size := by
  obtain ⟨id, w₂, hconstruct, hlast⟩ := Build.outcome_bind_eq_ok hok
  obtain ⟨rfl, rfl⟩ := Build.ok_inj hlast
  obtain ⟨hkeyword, parent, ids, w₂, t, -, hids, hassemble, rfl⟩ := construct_inv hconstruct
  obtain ⟨rfl, w₀, hedits₀, hedits', h, happend⟩ := buildAndAppend_inv hw hd hroot hlive hok'
  have hw₀ := hedits₀.sound hw
  have hd₀ := hedits₀.has_iff.2 hd
  -- at first nothing has been taken, and in the end all that was received
  have hfree : d.Free (w.tree d).size [] (Expr.nodesAll children) := by
    have hnot := (build_returns_iff hw hd hkeyword hlive hordinary).1 ⟨_, _, hok⟩
    intro x hx
    refine ⟨?_, hlive _ hx, List.not_mem_nil⟩
    rintro rfl
    exact hnot hx
  have h₂ := receiveEach_ahead hw hd hw₀ hd₀ hlive hordinary hfree honce h hids
    ((Node.append_eq_ok_iff hw₀ h.live_gap).1 happend).2
  rw [List.nil_append] at h₂
  obtain ⟨hedits, hfits⟩ := (receiveAll_safe children hw hd hlive).of_ok hids
  have hd₂ := hedits.has_iff.2 hd
  have hforest := hedits.sound hw d hd₂
  have hforest' := hedits'.sound hw₀ d (hedits'.has_iff.2 hd₀)
  obtain ⟨rfl, hnew⟩ := hforest.assembled_new hroot hfits hassemble
  have hsize := Tree.size_assemble hroot hassemble
  obtain ⟨count, hcount⟩ := Nat.exists_eq_add_of_le h₂.table.gap_le
  refine ⟨count, by rw [hcount], rfl, ?_, ?_, ?_⟩
  · rw [Workspace.tree_setTree hd₂]
    exact h₂.table.renamed hforest hforest' hnew hsize hcount
  · intro d' hne
    rw [Workspace.tree_setTree_of_ne hne, h₂.others d' hne]
  · intro x c hx hlist
    have hne : x ≠ (w₂.tree d).size := by omega
    rw [Workspace.tree_setTree hd₂, Tree.Lists, hnew.children_of_ne x hne] at hlist
    exact h₂.table.closed hx (List.mem_of_mem_filter hlist)

/-- A permutation of the positions in one document, as one of all nodes. -/
def permute (d : Document) (f : Equiv.Perm Nat) : Equiv.Perm Node where
  toFun m := if m.document = d then ⟨d, f m.id⟩ else m
  invFun m := if m.document = d then ⟨d, f.symm m.id⟩ else m
  left_inv m := by
    by_cases hm : m.document = d
    · subst hm
      simp
    · simp [hm]
  right_inv m := by
    by_cases hm : m.document = d
    · subst hm
      simp
    · simp [hm]

theorem permute_own (d : Document) (f : Equiv.Perm Nat) (x : Nat) :
    d.permute f ⟨d, x⟩ = ⟨d, f x⟩ :=
  if_pos rfl

theorem permute_foreign (f : Equiv.Perm Nat) {m : Node} (hm : m.document ≠ d) :
    d.permute f m = m :=
  if_neg hm

theorem permute_hoist_old (count : Nat) {m : Node} (hm : m.document = d → m.id < gap) :
    d.permute (Tree.hoist gap count) m = m := by
  by_cases hdoc : m.document = d
  · subst hdoc
    rw [permute_own, Tree.hoist_of_lt gap count (hm rfl)]
  · exact permute_foreign _ hdoc

theorem permute_hoist_last (d : Document) (gap count : Nat) :
    d.permute (Tree.hoist gap count) ⟨d, gap + count⟩ = ⟨d, gap⟩ := by
  rw [permute_own, Tree.hoist_last]

end Document

namespace Workspace

/-- The second workspace is the first one with its nodes permuted. -/
structure Renamed (f : Equiv.Perm Node) (w w' : Workspace) : Prop where
  statement_eq : ∀ m : Node, (f m).statement w' = m.statement w
  children_eq : ∀ m : Node, (f m).children w' = (m.children w).map f

theorem Renamed.parent?_eq {f : Equiv.Perm Node} (h : w.Renamed f w') (hw : w.Sound)
    (hw' : w'.Sound) (m : Node) : (f m).parent? w' = (m.parent? w).map f := by
  ext q
  obtain ⟨p, rfl⟩ := f.surjective q
  rw [← hw'.mem_children_iff_parent?, h.children_eq, List.mem_map_of_injective f.injective,
    hw.mem_children_iff_parent?, Option.map_eq_some_iff]
  simp

theorem Renamed.children_of_fixed {f : Equiv.Perm Node} (h : w.Renamed f w') {m : Node}
    (hm : f m = m) (hchildren : ∀ c ∈ m.children w, f c = c) : m.children w' = m.children w := by
  have hmap := h.children_eq m
  rwa [hm, List.map_congr_left hchildren, List.map_id'] at hmap

theorem Renamed.of_tree {f : Equiv.Perm Nat} (ht : (w.tree d).Forest) (ht' : (w'.tree d).Forest)
    (h : (w.tree d).Renamed f (w'.tree d)) (hothers : ∀ d', d' ≠ d → w'.tree d' = w.tree d') :
    w.Renamed (d.permute f) w' := by
  have hown : ∀ x, d.permute f ⟨d, x⟩ = ⟨d, f x⟩ := d.permute_own f
  refine ⟨?_, ?_⟩
  · rintro ⟨d', x⟩
    by_cases hdoc : d' = d
    · subst hdoc
      rw [hown]
      exact h.snapshot_eq ht ht' x
    · rw [Document.permute_foreign f hdoc, Node.statement, Node.tree, hothers d' hdoc]
      rfl
  · rintro ⟨d', x⟩
    by_cases hdoc : d' = d
    · subst hdoc
      rw [hown, Node.children, Node.children, List.map_map]
      change ((w'.tree d').children (f x)).map _ = ((w.tree d').children x).map _
      rw [h.children_eq, List.map_map]
      exact List.map_congr_left fun c _ => (hown c).symm
    · have hkeep : ∀ c ∈ (⟨d', x⟩ : Node).children w, d.permute f c = c := by
        intro c hc
        apply Document.permute_foreign f
        rw [(mem_children_iff.1 hc).1]
        exact hdoc
      rw [Document.permute_foreign f hdoc, List.map_congr_left hkeep, List.map_id', Node.children,
        Node.tree, hothers d' hdoc]
      rfl

variable {keyword : String} {children : List Expr}

/-- Whether a statement is built with its substatements, or without them and they are appended to
it, makes no difference, provided that no node of its document is named twice. One way succeeds
exactly if the other does. The statement has the same value, what existed has the same lists and
parents, and new nodes differ in their numbers only. -/
theorem build_and_append (hw : w.Reachable) (hd : w.Has d)
    (hkeyword : keyword ≠ "" ∧ Keyword.isRoot keyword = false)
    (hlive : ∀ m ∈ Expr.nodesAll children, m.Live w) (hordinary : ∀ e ∈ children, e.Ordinary)
    (honce : ((Expr.nodesAll children).filter (·.document = d)).Nodup)
    (argument : Option String) :
    ((∃ n w', (d.build keyword { argument, children }).outcome w = (.ok n, w')) ↔
      ∃ n w', (d.buildAndAppend keyword { argument, children }).outcome w = (.ok n, w')) ∧
    ∀ n w₁ n' w₂, (d.build keyword { argument, children }).outcome w = (.ok n, w₁) →
      (d.buildAndAppend keyword { argument, children }).outcome w = (.ok n', w₂) →
      n'.statement w₂ = n.statement w₁ ∧
      ∃ f : Equiv.Perm Node, f n = n' ∧ w₁.Renamed f w₂ ∧
        ∀ m : Node, m.Live w → f m = m ∧ m.children w₂ = m.children w₁ ∧
          m.parent? w₂ = (m.parent? w₁).map f := by
  have hsound := hw.sound
  refine ⟨?_, ?_⟩
  · rw [Document.build_returns_iff hsound hd hkeyword.1 hlive hordinary,
      Document.buildAndAppend_returns_iff hsound hd hkeyword hlive hordinary]
  · intro n w₁ n' w₂ hok hok'
    obtain ⟨count, rfl, rfl, htable, hothers, hclosed⟩ :=
      Document.buildAndAppend_renamed hsound hd hkeyword.2 hlive hordinary honce hok hok'
    have hsafe : (d.build keyword { argument, children }).Safe w _ :=
      Document.build_safe hsound hd hlive
    have hedits := (hsafe.of_ok hok).1
    obtain ⟨-, w₀, hedits₀, hedits₂, -⟩ :=
      Document.buildAndAppend_inv hsound hd hkeyword.2 hlive hok'
    have hedits' : w.Edits w₂ := hedits₀.trans hedits₂
    have hw₁ := hedits.sound hsound
    have hw₂ := hedits'.sound hsound
    have hrenamed := Renamed.of_tree (hw₁ d (hedits.has_iff.2 hd))
      (hw₂ d (hedits'.has_iff.2 hd)) htable hothers
    have hnew := d.permute_hoist_last (w.tree d).size count
    refine ⟨?_, d.permute (Tree.hoist (w.tree d).size count), hnew, hrenamed, ?_⟩
    · rw [← hnew]
      exact hrenamed.statement_eq _
    · intro m hm
      have hfixed : d.permute (Tree.hoist (w.tree d).size count) m = m :=
        Document.permute_hoist_old count fun hdoc => hdoc ▸ hm
      refine ⟨hfixed, hrenamed.children_of_fixed hfixed fun c hc => ?_, ?_⟩
      · -- what existed lists only what existed
        obtain ⟨hsame, hlist⟩ := mem_children_iff.1 hc
        apply Document.permute_hoist_old count
        intro hdoc
        rw [hsame] at hdoc
        subst hdoc
        exact hclosed m.id c.id hm hlist
      · have hparent := hrenamed.parent?_eq hw₁ hw₂ m
        rwa [hfixed] at hparent

/-- A container, a tuple around the leaf inside it, and a node of the other document, twice. -/
theorem build_and_append_widened :
    let children : List Expr := [.node ⟨⟨0⟩, 2⟩,
      .tuple "list" none [.node ⟨⟨0⟩, 1⟩, .node ⟨⟨1⟩, 1⟩], .node ⟨⟨1⟩, 1⟩,
      .statement ⟨"leaf", some "m", []⟩]
    let build := (⟨0⟩ : Document).build "list" { argument := some "l", children }
    let buildAndAppend := (⟨0⟩ : Document).buildAndAppend "list" { argument := some "l", children }
    widened.Reachable ∧ ∃ n w₁ n' w₂ f,
      build.outcome widened = (.ok n, w₁) ∧ buildAndAppend.outcome widened = (.ok n', w₂) ∧
      n'.statement w₂ = n.statement w₁ ∧ f n = n' ∧ w₁.Renamed f w₂ ∧
      (⟨⟨0⟩, 2⟩ : Node).children w₂ = (⟨⟨0⟩, 2⟩ : Node).children w₁ ∧
      (⟨⟨0⟩, 1⟩ : Node).parent? w₂ = ((⟨⟨0⟩, 1⟩ : Node).parent? w₁).map f := by
  intro children build buildAndAppend
  have hlive : ∀ m ∈ Expr.nodesAll children, m.Live widened := by decide
  obtain ⟨hiff, hboth⟩ := build_and_append reachable_widened (by decide : widened.Has ⟨0⟩)
    (⟨by decide, by decide⟩ : "list" ≠ "" ∧ Keyword.isRoot "list" = false) hlive (by decide)
    (by decide) (some "l")
  have hreturns : ∃ n w₁, build.outcome widened = (.ok n, w₁) :=
    (Document.build_returns_iff reachable_widened.sound (by decide) (by decide) hlive
      (by decide)).2 (by decide)
  obtain ⟨n, w₁, hok⟩ := hreturns
  obtain ⟨n', w₂, hok'⟩ := hiff.1 ⟨n, w₁, hok⟩
  obtain ⟨hvalue, f, hf, hrenamed, hold⟩ := hboth n w₁ n' w₂ hok hok'
  exact ⟨reachable_widened, n, w₁, n', w₂, f, hok, hok', hvalue, hf, hrenamed,
    (hold ⟨⟨0⟩, 2⟩ (by decide)).2.1, (hold ⟨⟨0⟩, 1⟩ (by decide)).2.2⟩

end Workspace

end YangDoc
