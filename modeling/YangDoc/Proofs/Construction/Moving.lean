import YangDoc.Proofs.Construction.Frame
import YangDoc.Proofs.Construction.Turns
import YangDoc.Proofs.Tree.Preorder

/-!
# Moving nodes

Nodes that are appended to a node of their own document move there one after the other. A later move
may take a node out of one that has moved before it, or move it once more; in the end the lists are
what one would write down at once, the old ones without the nodes that moved and these at the end of
their new list, each in the place of its last mention. Nothing is lost on the way: below a node that
lies above all of it there are the same statements as before.
-/

namespace YangDoc

namespace Tree

variable {t t' : Tree} {p c r x : Nat}

/-- A move within the subtree of a statement leaves the same statements in it. -/
theorem Forest.above_attach_iff (h : t.Forest) (hp : p < t.size) (hok : t.attach p c = .ok t')
    (hrp : t.Above r p) (hrc : t.Above r c) : t'.Above r x ↔ t.Above r x := by
  have hlists := fun q x => h.lists_attach (q := q) (x := x) hp hok
  constructor
  · intro hx
    induction hx with
    | refl => exact .refl
    | tail _ hlist ih =>
      rcases (hlists _ _).1 hlist with ⟨hold, -⟩ | ⟨-, rfl⟩
      · exact ih.tail hold
      · exact hrc
  · intro hx
    induction hx with
    | refl => exact .refl
    | @tail q x _ hlist ih =>
      by_cases hxc : x = c
      · -- what has moved lies below its new parent, whose ancestors are the old ones
        have hrp' : t'.Above r p := (h.above_attach hp hok).2 hrp
        exact hrp'.tail ((hlists p x).2 (.inr ⟨rfl, hxc⟩))
      · exact ih.tail ((hlists q x).2 (.inl ⟨hlist, hxc⟩))

theorem Forest.above_attachAll_iff (h : t.Forest) (hp : p < t.size) {cs : List Nat}
    (hcs : ∀ c ∈ cs, c < t.size) (hok : t.attachAll p cs = (.ok (), t')) (hrp : t.Above r p)
    (hrcs : ∀ c ∈ cs, t.Above r c) : t'.Above r x ↔ t.Above r x := by
  induction cs generalizing t with
  | nil =>
    obtain rfl : t = t' := congrArg Prod.snd hok
    exact .rfl
  | cons c cs ih =>
    rw [List.forall_mem_cons] at hcs hrcs
    obtain ⟨t₁, hc, hrest⟩ := attachAll_cons_eq_ok hok
    have hsize := size_attach hc
    have hfirst : ∀ {x}, t₁.Above r x ↔ t.Above r x := h.above_attach_iff hp hc hrp hrcs.1
    rw [ih (h.attach hp hcs.1 hc) (hsize ▸ hp) (fun y hy => hsize ▸ hcs.2 y hy) hrest
      (hfirst.2 hrp) (fun y hy => hfirst.2 (hrcs.2 y hy)), hfirst]

end Tree

namespace Node

variable {w w' : Workspace} {n m : Node} {ids : List Nat}

theorem receive_own {d : Document} {p c : Nat} {id : NodeId}
    (hok : ((⟨d, p⟩ : Node).receive false (.node ⟨d, c⟩)).outcome w = (.ok id, w')) :
    ∃ t, (w.tree d).attach p c = .ok t ∧ w' = w.setTree d t := by
  unfold receive at hok
  obtain ⟨id', w₁, hid, hrest⟩ := Build.outcome_bind_eq_ok hok
  rw [Document.receive, Document.outcome_receiveNode_own w d rfl, if_neg Bool.false_ne_true] at hid
  obtain ⟨rfl, rfl⟩ := Build.ok_inj hid
  obtain ⟨_, w₂, hattach, hlast⟩ := Build.outcome_bind_eq_ok hrest
  obtain ⟨-, rfl⟩ := Build.ok_inj hlast
  exact Document.attach_eq_ok hattach

theorem append_own {d : Document} {p : Nat} (hw : w.Sound) (hp : (⟨d, p⟩ : Node).Live w)
    (hok : ((⟨d, p⟩ : Node).append (ids.map fun c => .node ⟨d, c⟩)).outcome w = (.ok (), w')) :
    ∃ t, (w.tree d).attachAll p ids = (.ok (), t) ∧ w' = w.setTree d t := by
  have hd : w.Has d := hp.has
  have hloop := ((append_eq_ok_iff hw hp).1 hok).2
  clear hok hw hp
  induction ids generalizing w with
  | nil =>
    obtain ⟨-, rfl⟩ := Build.ok_inj hloop
    exact ⟨w.tree d, rfl, Workspace.setTree_tree.symm⟩
  | cons c ids ih =>
    obtain ⟨_, w₁, hfirst, hrest⟩ := Build.outcome_bind_eq_ok hloop
    obtain ⟨id, w₂, hid, hskip⟩ := Build.outcome_bind_eq_ok hfirst
    obtain ⟨-, rfl⟩ := Build.ok_inj hskip
    obtain ⟨t, ht, rfl⟩ := receive_own hid
    obtain ⟨t', ht', rfl⟩ := ih (Workspace.has_setTree.2 hd) hrest
    rw [Workspace.tree_setTree hd] at ht'
    refine ⟨t', ?_, Workspace.setTree_setTree⟩
    rw [Tree.attachAll, ht]
    exact ht'

theorem children_append_own {d : Document} {p : Nat} (hw : w.Sound) (hp : (⟨d, p⟩ : Node).Live w)
    (hids : ∀ c ∈ ids, (⟨d, c⟩ : Node).Live w)
    (hok : ((⟨d, p⟩ : Node).append (ids.map fun c => .node ⟨d, c⟩)).outcome w = (.ok (), w'))
    (m : Node) :
    m.children w' = (m.children w).filter (· ∉ ids.map (Node.mk d)) ++
      if m = ⟨d, p⟩ then (ids.map (Node.mk d)).dedup else [] := by
  obtain ⟨t, ht, rfl⟩ := append_own hw hp hok
  by_cases hm : m.document = d
  · obtain ⟨d', x⟩ := m
    obtain rfl : d' = d := hm
    have hmem : ∀ c, (Node.mk d' c ∈ ids.map (Node.mk d')) ↔ c ∈ ids := fun c =>
      List.mem_map_of_injective (mk_injective d')
    rw [children, tree, Workspace.tree_setTree hp.has,
      (hw d' hp.has).children_attachAll hp hids ht, children, List.map_append, List.filter_map,
      List.dedup_map_of_injective (mk_injective d')]
    congr 1
    · simp only [Function.comp_def, hmem, tree]
    · by_cases hx : x = p
      · rw [if_pos hx, if_pos (by rw [hx])]
      · rw [if_neg hx, if_neg fun heq => hx (Node.mk.inj heq).2, List.map_nil]
  · -- nothing moves in another document
    have hkeep : ∀ c ∈ m.children w, c ∉ ids.map (Node.mk d) := by
      intro c hc hmem
      obtain ⟨x, -, rfl⟩ := List.mem_map.1 hmem
      exact hm (Workspace.mem_children_iff.1 hc).1.symm
    rw [List.filter_eq_self.2 fun c hc => decide_eq_true (hkeep c hc),
      if_neg fun heq : m = ⟨d, p⟩ => hm (by rw [heq]), List.append_nil, children, tree,
      Workspace.tree_setTree_of_ne hm]
    rfl

theorem header_append_own {d : Document} {p : Nat} (hw : w.Sound) (hp : (⟨d, p⟩ : Node).Live w)
    (hok : ((⟨d, p⟩ : Node).append (ids.map fun c => .node ⟨d, c⟩)).outcome w = (.ok (), w'))
    (d' : Document) :
    (w'.tree d').size = (w.tree d').size ∧
      ∀ x, (w'.tree d').header x = (w.tree d').header x := by
  obtain ⟨t, ht, rfl⟩ := append_own hw hp hok
  by_cases hd : d' = d
  · subst hd
    have hsize := (w.tree d').size_attachAll p ids
    have hheader := (w.tree d').header_attachAll p ids
    rw [ht] at hsize hheader
    rw [Workspace.tree_setTree hp.has]
    exact ⟨hsize, hheader⟩
  · rw [Workspace.tree_setTree_of_ne hd]
    exact ⟨rfl, fun _ => rfl⟩

theorem preorder_append_own {d : Document} {p r : Nat} (hw : w.Sound)
    (hp : (⟨d, p⟩ : Node).Live w) (hids : ∀ c ∈ ids, (⟨d, c⟩ : Node).Live w)
    (hok : ((⟨d, p⟩ : Node).append (ids.map fun c => .node ⟨d, c⟩)).outcome w = (.ok (), w'))
    (hrp : (w.tree d).Above r p) (hrids : ∀ c ∈ ids, (w.tree d).Above r c) :
    ((w'.tree d).preorder .all r).Perm ((w.tree d).preorder .all r) := by
  obtain ⟨t, ht, rfl⟩ := append_own hw hp hok
  have hforest := hw d hp.has
  have hforest' := hforest.attachAll_edits hp ids hids
  rw [ht] at hforest'
  rw [Workspace.tree_setTree hp.has, hforest.preorder_perm_iff (hforest'.forest hforest)]
  exact fun x => hforest.above_attachAll_iff hp hids ht hrp hrids

end Node

namespace Workspace

variable {w w' : Workspace} {n : Node} {items : List Node}

/-- Where nodes are appended to a node of their own document, each of them leaves the list it was on
and joins that of the node, at the place of its last mention. Headers and tables stay as they are,
and the subtree of whatever contains both the node and the items is walked in another order only. -/
theorem append_moves (hw : w.Reachable) (hn : n.Live w)
    (hitems : ∀ m ∈ items, m.document = n.document ∧ m.Live w)
    (hok : (n.append (items.map .node)).outcome w = (.ok (), w')) :
    n.children w' = (n.children w).filter (· ∉ items) ++ items.dedup ∧
    (∀ m, m ≠ n → m.children w' = (m.children w).filter (· ∉ items)) ∧
    (∀ m : Node, m.keyword w' = m.keyword w ∧ m.argument w' = m.argument w) ∧
    (∀ d, (w'.tree d).size = (w.tree d).size) ∧
    ∀ r : Node, r.Contains n w → (∀ m ∈ items, r.Contains m w) →
      (r.preorder w' .all).Perm (r.preorder w .all) := by
  have hsound := hw.sound
  obtain ⟨d, p⟩ := n
  obtain ⟨ids, rfl⟩ : ∃ ids, items = List.map (Node.mk d) ids := by
    refine ⟨items.map Node.id, ?_⟩
    rw [List.map_map]
    refine (List.map_id items).symm.trans (List.map_congr_left fun m hm => ?_)
    obtain ⟨d', c⟩ := m
    exact congrArg (Node.mk · c) (hitems _ hm).1
  rw [List.map_map] at hok
  rw [List.forall_mem_map] at hitems
  have hlive : ∀ c ∈ ids, (⟨d, c⟩ : Node).Live w := fun c hc => (hitems c hc).2
  have hchildren := Node.children_append_own hsound hn hlive hok
  have hheader := Node.header_append_own hsound hn hok
  refine ⟨?_, ?_, ?_, fun d' => (hheader d').1, ?_⟩
  · rw [hchildren, if_pos rfl]
  · intro m hm
    rw [hchildren, if_neg hm, List.append_nil]
  · intro m
    have hsame := (hheader m.document).2 m.id
    exact ⟨congrArg Prod.fst hsame, congrArg Prod.snd hsame⟩
  · intro r hrn hritems
    obtain ⟨d', x⟩ := r
    obtain rfl : d = d' := hrn.1
    rw [List.forall_mem_map] at hritems
    exact (Node.preorder_append_own hsound hn hlive hok hrn.2 fun c hc => (hritems c hc).2).map _

/-- A container of the root moves to the end of the root's list, out of it its leaf, and the
container again: the leaf comes first. -/
theorem append_moves_sample :
    sample.Reachable ∧ ∃ w',
      ((⟨⟨0⟩, 0⟩ : Node).append [.node ⟨⟨0⟩, 2⟩, .node ⟨⟨0⟩, 1⟩, .node ⟨⟨0⟩, 2⟩]).outcome sample =
        (.ok (), w') ∧
      (⟨⟨0⟩, 0⟩ : Node).children w' = [⟨⟨0⟩, 1⟩, ⟨⟨0⟩, 2⟩] ∧
      (⟨⟨0⟩, 2⟩ : Node).children w' = [] ∧
      ((⟨⟨0⟩, 0⟩ : Node).preorder w' .all).Perm ((⟨⟨0⟩, 0⟩ : Node).preorder sample .all) := by
  have hforest : (sample.tree ⟨0⟩).Forest := reachable_sample.sound ⟨0⟩ (by decide)
  have hbelow : ∀ x ∈ [0, 1, 2], (⟨⟨0⟩, 0⟩ : Node).Contains ⟨⟨0⟩, x⟩ sample := by
    intro x hx
    refine ⟨rfl, hforest.isAncestor_iff.1 ?_⟩
    revert x
    decide
  obtain ⟨w', hok⟩ : ∃ w', ((⟨⟨0⟩, 0⟩ : Node).append
      [.node ⟨⟨0⟩, 2⟩, .node ⟨⟨0⟩, 1⟩, .node ⟨⟨0⟩, 2⟩]).outcome sample = (.ok (), w') := ⟨_, rfl⟩
  obtain ⟨hroot, hothers, -, -, hwalk⟩ :=
    @append_moves sample w' ⟨⟨0⟩, 0⟩ [⟨⟨0⟩, 2⟩, ⟨⟨0⟩, 1⟩, ⟨⟨0⟩, 2⟩] reachable_sample (by decide)
      (by decide) hok
  refine ⟨reachable_sample, w', hok, hroot.trans (by decide),
    (hothers ⟨⟨0⟩, 2⟩ (by decide)).trans (by decide), ?_⟩
  apply hwalk ⟨⟨0⟩, 0⟩ (hbelow 0 (by decide))
  simpa using ⟨hbelow 2 (by decide), hbelow 1 (by decide), hbelow 2 (by decide)⟩

end Workspace

end YangDoc
