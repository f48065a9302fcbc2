import YangDoc.Proofs.Construction.Materialization
import YangDoc.Proofs.Construction.Preflight
import YangDoc.Proofs.Construction.Taking

/-!
# Nodes that gain substatements

A statement that is built below a node from values alone moves nothing. What existed keeps its
keyword, its argument and its parent, and its list, except that the node gets the new statement at
the end of its list. `Gained` says this of any number of new statements, each with the node that it
was built below. Such growth shows in the value of a node exactly when a node at or below it has
gained something.
-/

namespace YangDoc

@[simp] theorem Node.map_id_children (n : Node) (w : Workspace) :
    (n.children w).map Node.id = (n.tree w).children n.id := by
  rw [Node.children, List.map_map]
  exact List.map_id _

theorem Node.parent?_eq_iff_samePlace {m : Node} {w w' : Workspace} (h : (m.tree w).Forest)
    (h' : (m.tree w').Forest) :
    m.parent? w' = m.parent? w ↔ (m.tree w).SamePlace (m.tree w') m.id := by
  rw [Node.parent?, Node.parent?, (Option.map_injective (Node.mk_injective _)).eq_iff,
    Option.ext_iff]
  apply forall_congr'
  intro q
  rw [h.parent?_eq_some, h'.parent?_eq_some]

/-! ### Joining a list -/

namespace Node

variable {w w' : Workspace} {n c m : Node}

theorem edits_attach (hw : w.Sound) (hn : n.Live w) (hc : c.Live w)
    (hdoc : c.document = n.document)
    (hok : (n.document.attach n.id c.id).outcome w = (.ok (), w')) : w.Edits w' := by
  have hid : n.document.Fits c.id w := by
    rw [← hdoc]
    exact hc
  exact ((Document.attach_safe hw hn.has hn hid).of_ok hok).1

/-- A node that does not list the statement that joins a list gets it at the end, if the list is its
own, and is otherwise the same. -/
theorem attach_other (hw : w.Sound) (hn : n.Live w) (hc : c.Live w)
    (hdoc : c.document = n.document)
    (hok : (n.document.attach n.id c.id).outcome w = (.ok (), w')) (hne : m ≠ c)
    (hfree : c ∉ m.children w) :
    (m.keyword w' = m.keyword w ∧ m.argument w' = m.argument w) ∧
      m.children w' = m.children w ++ (if m = n then [c] else []) ∧
      m.parent? w' = m.parent? w := by
  have hw' := (edits_attach hw hn hc hdoc hok).sound hw
  obtain ⟨t, ht, rfl⟩ := Document.attach_eq_ok hok
  by_cases hm : m.document = n.document
  · obtain ⟨d, x⟩ := m
    obtain ⟨d', p⟩ := n
    obtain ⟨d'', id⟩ := c
    obtain rfl : d = d' := hm
    obtain rfl : d'' = d := hdoc
    have hforest := hw d'' hn.has
    have htree : (w.setTree d'' t).tree d'' = t := Workspace.tree_setTree hn.has
    have hforest' := hw' d'' (Workspace.has_setTree.2 hn.has)
    have hheader := Tree.header_attach ht x
    have hx : x ≠ id := fun heq => hne (heq ▸ rfl)
    have hunlisted : ¬ (w.tree d'').Lists x id := fun hlist => hfree (List.mem_map_of_mem hlist)
    refine ⟨?_, ?_, ?_⟩
    · rw [keyword, argument, tree, htree]
      exact ⟨congrArg Prod.fst hheader, congrArg Prod.snd hheader⟩
    · rw [children, tree, htree, hforest.children_attach_of_not_lists hn ht hunlisted,
        List.map_append]
      by_cases hp : x = p
      · simp [hp, children, tree]
      · simp [hp, children, tree]
    · apply (parent?_eq_iff_samePlace (m := ⟨d'', x⟩) hforest hforest').2
      intro q
      rw [tree, htree, hforest.lists_attach hn ht]
      simp [hx, tree]
  · have hsame : m.tree (w.setTree n.document t) = m.tree w := Workspace.tree_setTree_of_ne hm
    have hnm : m ≠ n := fun heq => hm (heq ▸ rfl)
    rw [keyword, argument, children, parent?, hsame, if_neg hnm, List.append_nil]
    exact ⟨⟨rfl, rfl⟩, rfl, rfl⟩

end Node

namespace Workspace

/-- The pairs of `added` are a node and a statement that it has gained, in the order in which they
were gained, and nothing else about what existed is different. -/
structure Gained (added : List (Node × Node)) (w w' : Workspace) : Prop where
  live : ∀ {m : Node}, m.Live w → m.Live w'
  header_eq : ∀ {m : Node}, m.Live w → m.keyword w' = m.keyword w ∧ m.argument w' = m.argument w
  children_eq : ∀ {m : Node}, m.Live w →
    m.children w' = m.children w ++ (added.filter (·.1 = m)).map Prod.snd
  parent?_eq : ∀ {m : Node}, m.Live w → m.parent? w' = m.parent? w
  /-- What was gained is new and in the document of the node that gained it. -/
  fresh : ∀ p ∈ added, p.2.document = p.1.document ∧ ¬ p.2.Live w ∧ p.2.Live w'
  nodup : (added.map Prod.snd).Nodup

namespace Gained

variable {w w' w'' : Workspace} {added added' : List (Node × Node)} {n m c : Node}

theorem refl (w : Workspace) : w.Gained [] w := by
  refine ⟨id, fun _ => ⟨rfl, rfl⟩, fun _ => ?_, fun _ => rfl, by simp, List.nodup_nil⟩
  rw [List.filter_nil, List.map_nil, List.append_nil]

theorem trans (h : w.Gained added w') (h' : w'.Gained added' w'') :
    w.Gained (added ++ added') w'' := by
  refine ⟨fun hm => h'.live (h.live hm), ?_, ?_, ?_, ?_, ?_⟩
  · intro m hm
    have hfirst := h.header_eq hm
    have hlast := h'.header_eq (h.live hm)
    exact ⟨hlast.1.trans hfirst.1, hlast.2.trans hfirst.2⟩
  · intro m hm
    rw [h'.children_eq (h.live hm), h.children_eq hm, List.filter_append, List.map_append,
      List.append_assoc]
  · intro m hm
    exact (h'.parent?_eq (h.live hm)).trans (h.parent?_eq hm)
  · rw [List.forall_mem_append]
    refine ⟨fun p hp => ?_, fun p hp => ?_⟩
    · obtain ⟨hdoc, hnew, hlive⟩ := h.fresh p hp
      exact ⟨hdoc, hnew, h'.live hlive⟩
    · obtain ⟨hdoc, hnew, hlive⟩ := h'.fresh p hp
      exact ⟨hdoc, fun hold => hnew (h.live hold), hlive⟩
  · rw [List.map_append]
    refine List.Nodup.append h.nodup h'.nodup ?_
    -- what was gained first exists by the time the rest is gained
    intro c hc hc'
    obtain ⟨p, hp, rfl⟩ := List.mem_map.1 hc
    obtain ⟨q, hq, heq⟩ := List.mem_map.1 hc'
    exact (h'.fresh q hq).2.1 (heq ▸ (h.fresh p hp).2.2)

/-- Nothing that existed has come to lie below another statement, or has ceased to. -/
theorem contains_iff (h : w.Gained added w') (hw : w.Sound) (hw' : w'.Sound) (hm : m.Live w) :
    n.Contains m w' ↔ n.Contains m w := by
  have hforest := hw _ hm.has
  have hforest' := hw' _ (h.live hm).has
  apply and_congr_right
  intro hdoc
  rw [Node.tree, Node.tree, ← hdoc]
  apply Tree.above_congr
  intro x hx
  have hlive : (⟨m.document, x⟩ : Node).Live w := hx.lt_size hm
  exact (Node.parent?_eq_iff_samePlace (m := ⟨m.document, x⟩) hforest hforest').1
    (h.parent?_eq hlive)

theorem not_contains_fresh (h : w.Gained added w') (hw : w.Sound) (hw' : w'.Sound)
    (hm : m.Live w) (hc : ¬ c.Live w) : ¬ c.Contains m w' := by
  intro hcontains
  obtain ⟨hdoc, habove⟩ := (h.contains_iff hw hw' hm).1 hcontains
  rw [Node.tree, ← hdoc] at habove
  apply hc
  rw [Node.Live, Node.tree, ← hdoc]
  exact habove.lt_size hm

theorem prefix_children (h : w.Gained added w') (hm : m.Live w) :
    (m.tree w).children m.id <+: (m.tree w').children m.id := by
  rw [← Node.map_id_children, ← Node.map_id_children, h.children_eq hm, List.map_append]
  exact List.prefix_append ..

theorem children_eq_iff (h : w.Gained added w') (hm : m.Live w) :
    (m.tree w').children m.id = (m.tree w).children m.id ↔ ∀ p ∈ added, p.1 ≠ m := by
  rw [← Node.map_id_children, ← Node.map_id_children, h.children_eq hm, List.map_append,
    List.append_right_eq_self, List.map_eq_nil_iff, List.map_eq_nil_iff, List.filter_eq_nil_iff]
  simp

/-- The value of a node changes exactly if a node at or below it has gained something. -/
theorem statement_eq_iff (h : w.Gained added w') (hw : w.Sound) (hw' : w'.Sound) (hm : m.Live w) :
    m.statement w' = m.statement w ↔ ∀ p ∈ added, ¬ m.Contains p.1 w := by
  have hforest := hw _ hm.has
  have hforest' := hw' _ (h.live hm).has
  have hlive : ∀ {x : Nat}, x < (m.tree w).size → (⟨m.document, x⟩ : Node).Live w := id
  have hsame : m.statement w' = m.statement w ↔ (m.tree w).SameBelow (m.tree w') m.id :=
    hforest.snapshot_eq_iff_sameBelow hforest' hm fun x hx hlength =>
      ((h.prefix_children (hlive hx)).eq_of_length hlength.symm).symm
  rw [hsame]
  -- a list is longer exactly where its node is among those that have gained
  constructor
  · intro hbelow p hp hcontains
    obtain ⟨hdoc, habove⟩ := hcontains
    have hx := hlive (hforest.above_lt_size habove hm)
    apply (h.children_eq_iff hx).1 (hbelow p.1.id habove).2 p hp
    rw [← hdoc]
  · intro hnone x hx
    have hold := hlive (hforest.above_lt_size hx hm)
    obtain ⟨hkeyword, hargument⟩ := h.header_eq hold
    refine ⟨Prod.ext hkeyword hargument, (h.children_eq_iff hold).2 fun p hp heq => ?_⟩
    apply hnone p hp
    rw [heq]
    exact ⟨rfl, hx⟩

theorem attach (h : w.Gained [] w') (hw : w.Sound) (hw' : w'.Sound) (hn : n.Live w)
    (hdoc : c.document = n.document) (hc : ¬ c.Live w) (hc' : c.Live w')
    (hok : (n.document.attach n.id c.id).outcome w' = (.ok (), w'')) :
    w.Gained [(n, c)] w'' := by
  have hlist : ∀ {m : Node}, m.Live w → m.children w' = m.children w := by
    intro m hm
    rw [h.children_eq hm, List.filter_nil, List.map_nil, List.append_nil]
  -- what existed is not the new statement, and lists only what existed
  have hkept : ∀ {m : Node}, m.Live w →
      (m.keyword w'' = m.keyword w' ∧ m.argument w'' = m.argument w') ∧
      m.children w'' = m.children w' ++ (if m = n then [c] else []) ∧
      m.parent? w'' = m.parent? w' := by
    intro m hm
    refine Node.attach_other hw' (h.live hn) hc' hdoc hok (fun heq => hc (heq ▸ hm)) ?_
    intro hmem
    rw [hlist hm, mem_children_iff] at hmem
    apply hc
    rw [Node.Live, Node.tree, hmem.1]
    exact (hw _ hm.has).listed_lt hmem.2
  have hedits := Node.edits_attach hw' (h.live hn) hc' hdoc hok
  refine ⟨fun hm => hedits.live (h.live hm), ?_, ?_, ?_, ?_, List.nodup_singleton _⟩
  · intro m hm
    rw [(hkept hm).1.1, (hkept hm).1.2]
    exact h.header_eq hm
  · intro m hm
    rw [(hkept hm).2.1, hlist hm]
    by_cases heq : m = n
    · simp [heq]
    · simp [heq, Ne.symm heq]
  · intro m hm
    rw [(hkept hm).2.2, h.parent?_eq hm]
  · intro q hq
    rw [List.mem_singleton.1 hq]
    exact ⟨hdoc, hc, hedits.live hc'⟩

end Gained

end Workspace

/-! ### Building from values -/

section

variable {w w' : Workspace} {keyword : String} {argument : Option String} {children : List Expr}
  {c : Node}

namespace Document

variable {d : Document} {parent : Option Node}

-- in the document itself only nodes to be received could change their place, and other documents
-- lose only such nodes
theorem build_samePlace (hw : w.Sound) (hd : w.Has d) (hvalues : Expr.nodesAll children = [])
    (hroot : Keyword.isRoot keyword = false)
    (hok : (d.build keyword { argument, children } parent).outcome w = (.ok c, w'))
    {m : Node} (hm : m.Live w) : (m.tree w).SamePlace (m.tree w') m.id := by
  have hlive : ∀ n ∈ Expr.nodesAll children, n.Live w := by simp [hvalues]
  by_cases hdoc : m.document = d
  · subst hdoc
    obtain ⟨hnot, hordinary⟩ :=
      (build_checked hw hd keyword argument parent hlive).ok_iff.1 ⟨c, w', hok⟩
    obtain ⟨id, w₁, hid, hreceived⟩ := (passes_of_not_refuses hw hd hnot).build_ok hw hd hlive
      hordinary hroot argument
    obtain ⟨rfl, rfl⟩ := Build.ok_inj (hok.symm.trans hid)
    apply hreceived.samePlace m.id hm
    simp [hvalues]
  · have htakes : (d.build keyword { argument, children } parent).Takes w m.document _ :=
      build_takes hw hd hdoc keyword parent hlive
    have hlost := htakes.fully c (by rw [hok])
    rw [hok, hvalues] at hlost
    exact hlost.samePlace m.id

theorem build_gained (hw : w.Sound) (hd : w.Has d) (hvalues : Expr.nodesAll children = [])
    (hroot : Keyword.isRoot keyword = false)
    (hok : (d.build keyword { argument, children } parent).outcome w = (.ok c, w')) :
    w.Gained [] w' ∧ c.document = d ∧ ¬ c.Live w ∧ c.Live w' := by
  have hlive : ∀ n ∈ Expr.nodesAll children, n.Live w := by simp [hvalues]
  have hsep : Expr.Separate children w := by simp [Expr.Separate, hvalues]
  have hordinary := (build_checked hw hd keyword argument parent hlive).ordinary c w' hok
  have hsafe : (d.build keyword { argument, children } parent).Safe w _ := build_safe hw hd hlive
  obtain ⟨hedits, rfl, hc⟩ := hsafe.of_ok hok
  have hmaterialized := build_materialized hw hd hlive hordinary hsep hroot hok
  have hbuilt := build_built hw hd hlive hordinary hsep hok
  have hkept : w.Kept [] w' := by
    simpa [Expr.nodesAll_singleton, Expr.nodes, hvalues] using hmaterialized.kept
  have hrow : ∀ {m : Node}, m.Live w → (m.tree w').header m.id = (m.tree w).header m.id ∧
      (m.tree w').children m.id = (m.tree w).children m.id := by
    intro m hm
    exact (hkept m.document).sameBelow (hw _ hm.has) hm (by simp) m.id .refl
  refine ⟨⟨hedits.live, ?_, ?_, ?_, by simp, List.nodup_nil⟩, rfl, ?_, hc⟩
  · intro m hm
    exact ⟨congrArg Prod.fst (hrow hm).1, congrArg Prod.snd (hrow hm).1⟩
  · intro m hm
    rw [Node.children, (hrow hm).2, List.filter_nil, List.map_nil, List.append_nil, Node.children]
  · intro m hm
    apply (Node.parent?_eq_iff_samePlace (hw _ hm.has) (hedits.sound hw _ (hedits.live hm).has)).2
    exact build_samePlace hw hd hvalues hroot hok hm
  · have hplace := hbuilt.place
    rw [hroot, if_neg Bool.false_ne_true] at hplace
    exact Nat.not_lt.2 hplace

end Document

theorem Node.build_gained {n : Node} (hw : w.Sound) (hn : n.Live w)
    (hvalues : Expr.nodesAll children = [])
    (hok : (n.build keyword { argument, children }).outcome w = (.ok c, w')) :
    w.Gained [(n, c)] w' := by
  cases hroot : Keyword.isRoot keyword with
  | true =>
    rw [outcome_build_root w n hroot] at hok
    simp at hok
  | false =>
    rw [build_of_not_root n hroot] at hok
    obtain ⟨child, w₁, hchild, hrest⟩ := Build.outcome_bind_eq_ok hok
    obtain ⟨_, w₂, hattach, hlast⟩ := Build.outcome_bind_eq_ok hrest
    obtain ⟨rfl, rfl⟩ := Build.ok_inj hlast
    have hsafe : (n.document.build keyword { argument, children } (some n)).Safe w _ :=
      Document.build_safe hw hn.has (by simp [hvalues])
    have hw₁ := (hsafe.of_ok hchild).1.sound hw
    obtain ⟨hgained, hdoc, hnew, hlive⟩ :=
      Document.build_gained hw hn.has hvalues hroot hchild
    exact hgained.attach hw hw₁ hn hdoc hnew hlive hattach

end

end YangDoc
