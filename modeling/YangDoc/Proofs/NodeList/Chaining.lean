import Mathlib.Data.List.Perm.Basic
import YangDoc.Proofs.Construction.WalkAndBuild

/-!
# Chained queries

A search goes to every member of a list and joins what the members give. The members of a list
without repetitions have no substatement in common, because no statement is on two lists, so the
search repeats nothing; it comes in the order of the members and, for each of them, in the order of
its substatements. Walks are another matter: two subtrees have something in common as soon as one
node contains the other, and only then.

Every node of a subtree but the first is a substatement of exactly one node of the subtree. So
walking a subtree and then searching finds, in another order, what a walk selects by itself.
-/

namespace YangDoc

open Relation

/-- What lies at different places of a list without repetitions is found at different positions, the
earlier one first. -/
theorem pairwise_idxOf_lt {α : Type} [DecidableEq α] {xs : List α} (h : xs.Nodup) :
    xs.Pairwise fun x y => xs.idxOf x < xs.idxOf y := by
  rw [List.pairwise_iff_getElem]
  intro i j hi hj hij
  rwa [h.idxOf_getElem, h.idxOf_getElem]

namespace Node

variable {w : Workspace} {n m c : Node}

theorem find_eq_filter (n : Node) (w : Workspace) (query : Query) :
    n.find w query = (n.children w).filter (Node.selectedBy query.accepts w) := by
  rw [find, children, Tree.select, List.filter_map]
  rfl

theorem nodup_children (hw : w.Sound) (n : Node) : (n.children w).Nodup := by
  by_cases hn : n.Live w
  · exact ((hw _ hn.has).nodup n.id).map (mk_injective n.document)
  · rw [children, Tree.children_of_size_le (Nat.not_lt.1 hn)]
    exact List.nodup_nil

theorem nodup_preorder (hw : w.Sound) (hn : n.Live w) (scope : Scope) :
    (n.preorder w scope).Nodup :=
  ((hw _ hn.has).nodup_preorder scope n.id).map (mk_injective n.document)

theorem mem_preorder_iff (hw : w.Sound) (hn : n.Live w) :
    m ∈ n.preorder w .all ↔ n.Contains m w := by
  obtain ⟨d, x⟩ := m
  rw [preorder, List.mem_map, Contains]
  constructor
  · intro hvisited
    obtain ⟨y, hy, heq⟩ := hvisited
    obtain ⟨rfl, rfl⟩ := Node.mk.inj heq
    exact ⟨rfl, (hw _ hn.has).mem_preorder_iff.1 hy⟩
  · intro hcontains
    obtain ⟨hdoc, habove⟩ := hcontains
    exact ⟨x, (hw _ hn.has).mem_preorder_iff.2 habove, congrArg (Node.mk · x) hdoc.symm⟩

theorem mem_preorder_self (hw : w.Sound) (hn : n.Live w) : n ∈ n.preorder w .all :=
  (mem_preorder_iff hw hn).2 ⟨rfl, .refl⟩

theorem contains_total (hw : w.Sound) (hn : n.Live w) (hnc : n.Contains c w)
    (hmc : m.Contains c w) : n.Contains m w ∨ m.Contains n w := by
  have hdoc : m.document = n.document := hmc.1.symm.trans hnc.1
  have hmc' : (n.tree w).Above m.id c.id := by
    have habove := hmc.2
    rwa [tree, hdoc] at habove
  rcases (hw _ hn.has).above_total hnc.2 hmc' with habove | habove
  · exact .inl ⟨hdoc, habove⟩
  · refine .inr ⟨hdoc.symm, ?_⟩
    rwa [tree, hdoc]

theorem exists_parent?_contains_iff (hw : w.Sound) (hn : n.Live w) :
    (∃ p, n.Contains p w ∧ c.parent? w = some p) ↔ n.Contains c w ∧ c ≠ n := by
  have hforest : (n.tree w).Forest := hw _ hn.has
  constructor
  · intro hbelow
    obtain ⟨p, hp, hparent⟩ := hbelow
    obtain ⟨hdoc, hlist⟩ := Workspace.mem_children_iff.1 (hw.mem_children_iff_parent?.2 hparent)
    rw [tree, hp.1] at hlist
    refine ⟨⟨hdoc.trans hp.1, hp.2.tail hlist⟩, ?_⟩
    intro heq
    rw [heq] at hlist
    exact hforest.not_lists_of_above hp.2 hlist
  · intro hbelow
    obtain ⟨hcontains, hne⟩ := hbelow
    rcases Tree.above_cases hcontains.2 with heq | ⟨p, hlist, habove⟩
    · exact absurd (congrArg₂ Node.mk hcontains.1 heq) hne
    · refine ⟨⟨n.document, p⟩, ⟨rfl, habove⟩, hw.mem_children_iff_parent?.1 ?_⟩
      exact Workspace.mem_children_iff.2 ⟨hcontains.1, hlist⟩

end Node

namespace NodeList

variable {w : Workspace} {nodes : NodeList} {query : Query} {n c : Node}

theorem mem_find_iff (hw : w.Sound) (nodes : NodeList) (query : Query) (c : Node) :
    c ∈ nodes.find w query ↔
      (∃ n ∈ nodes, c.parent? w = some n) ∧ query.accepts (c.keyword w) (c.argument w) = true := by
  simp only [find, List.mem_flatMap, Node.find_eq_filter, List.mem_filter,
    hw.mem_children_iff_parent?, Node.selectedBy]
  constructor
  · intro hfound
    obtain ⟨n, hn, hparent, haccepts⟩ := hfound
    exact ⟨⟨n, hn, hparent⟩, haccepts⟩
  · intro hfound
    obtain ⟨⟨n, hn, hparent⟩, haccepts⟩ := hfound
    exact ⟨n, hn, hparent, haccepts⟩

/-- The first node comes before the second by the position of its parent in the list, or else by its
own position among the substatements of the parent. -/
def Earlier (nodes : NodeList) (w : Workspace) (b c : Node) : Prop :=
  ∃ m n, b.parent? w = some m ∧ c.parent? w = some n ∧
    (nodes.idxOf m < nodes.idxOf n ∨
      m = n ∧ (m.children w).idxOf b < (m.children w).idxOf c)

theorem not_earlier_self (nodes : NodeList) (w : Workspace) (c : Node) :
    ¬ nodes.Earlier w c c := by
  intro hearlier
  obtain ⟨m, n, hm, hn, hless⟩ := hearlier
  obtain rfl : m = n := Option.some.inj (hm.symm.trans hn)
  rcases hless with hless | ⟨-, hless⟩
  · exact Nat.lt_irrefl _ hless
  · exact Nat.lt_irrefl _ hless

theorem find_pairwise (hw : w.Sound) (hnodup : nodes.Nodup) (query : Query) :
    (nodes.find w query).Pairwise (nodes.Earlier w) := by
  have hparent : ∀ {n c : Node}, c ∈ n.find w query → c.parent? w = some n := by
    intro n c hc
    rw [Node.find_eq_filter] at hc
    exact hw.mem_children_iff_parent?.1 (List.mem_of_mem_filter hc)
  rw [find, List.pairwise_flatMap]
  constructor
  · -- below one member the substatements keep their order
    intro n hn
    have hfound : (n.find w query).Pairwise fun b c =>
        (n.children w).idxOf b < (n.children w).idxOf c := by
      rw [Node.find_eq_filter]
      exact (pairwise_idxOf_lt (Node.nodup_children hw n)).filter _
    refine hfound.imp_of_mem fun hb hc hless => ?_
    exact ⟨n, n, hparent hb, hparent hc, .inr ⟨rfl, hless⟩⟩
  · refine (pairwise_idxOf_lt hnodup).imp fun {m n} hless b hb c hc => ?_
    exact ⟨m, n, hparent hb, hparent hc, .inl hless⟩

theorem nodup_find (hw : w.Sound) (hnodup : nodes.Nodup) (query : Query) :
    (nodes.find w query).Nodup := by
  refine (find_pairwise hw hnodup query).imp fun {b c} hearlier heq => ?_
  rw [heq] at hearlier
  exact not_earlier_self nodes w c hearlier

theorem nodup_walk_iff (hw : w.Sound) (hlive : ∀ n ∈ nodes, n.Live w) (hnodup : nodes.Nodup) :
    (nodes.walk w).Nodup ↔ ∀ m ∈ nodes, ∀ n ∈ nodes, m.Contains n w → m = n := by
  rw [walk, List.nodup_flatMap]
  constructor
  · intro hwalk m hm n hn hcontains
    by_contra hne
    have hsymm : Std.Symm (Function.onFun List.Disjoint fun n : Node => n.preorder w .all) :=
      ⟨fun _ _ hdisjoint => hdisjoint.symm⟩
    have hdisjoint := hwalk.2.forall hm hn hne
    exact hdisjoint ((Node.mem_preorder_iff hw (hlive m hm)).2 hcontains)
      (Node.mem_preorder_self hw (hlive n hn))
  · intro hapart
    refine ⟨fun n hn => Node.nodup_preorder hw (hlive n hn) .all, ?_⟩
    refine hnodup.imp_of_mem fun {m n} hm hn hne c hmc hnc => hne ?_
    have hmc := (Node.mem_preorder_iff hw (hlive m hm)).1 hmc
    have hnc := (Node.mem_preorder_iff hw (hlive n hn)).1 hnc
    rcases Node.contains_total hw (hlive m hm) hmc hnc with hcontains | hcontains
    · exact hapart m hm n hn hcontains
    · exact (hapart n hn m hm hcontains).symm

/-- Searching below every node of a subtree finds what meets the query in it, except the first
node. -/
theorem find_preorder_perm (hw : w.Sound) (hn : n.Live w) (query : Query) :
    (find (n.preorder w .all) w query).Perm
      (((n.preorder w .all).filter (Node.selectedBy query.accepts w)).filter (· ≠ n)) := by
  have hnodup := Node.nodup_preorder hw hn .all
  rw [List.perm_ext_iff_of_nodup (nodup_find hw hnodup query) ((hnodup.filter _).filter _)]
  intro c
  simp only [mem_find_iff hw, List.mem_filter, Node.mem_preorder_iff hw hn,
    Node.exists_parent?_contains_iff hw hn, decide_eq_true_eq, Node.selectedBy]
  tauto

end NodeList

theorem Node.run_walkFilterM (select : Workspace → Node → Bool) (w : Workspace) (n : Node) :
    (n.walkFilterM (observing select)).run w = ((n.preorder w .all).filter (select w), w) := by
  have hwalk := run_selectMapM select (fun _ m => m) w (n.preorder w .all)
  rw [List.map_id'] at hwalk
  exact hwalk

namespace Workspace

variable {w : Workspace} {nodes : NodeList}

/-- A search from several different nodes gives each substatement of theirs that meets the query
once, in order; walks from them repeat nothing exactly if none of them contains another. What a
search finds from all nodes of a subtree is what a walk of the subtree selects, except the node
where it starts, in some order. -/
theorem chained_queries (hw : w.Reachable) (hlive : ∀ n ∈ nodes, n.Live w) (hnodup : nodes.Nodup)
    (query : Query) :
    (nodes.find w query).Nodup ∧
    (∀ c, c ∈ nodes.find w query ↔
      (∃ n ∈ nodes, c.parent? w = some n) ∧
        query.accepts (c.keyword w) (c.argument w) = true) ∧
    (nodes.find w query).Pairwise (nodes.Earlier w) ∧
    ((nodes.walk w).Nodup ↔ ∀ m ∈ nodes, ∀ n ∈ nodes, m.Contains n w → m = n) ∧
    ∀ n : Node, n.Live w → ∃ selected,
      (n.walkFilterM (observing (Node.selectedBy query.accepts))).run w = (selected, w) ∧
      (NodeList.find (n.preorder w .all) w query).Perm (selected.filter (· ≠ n)) := by
  have hsound := hw.sound
  refine ⟨NodeList.nodup_find hsound hnodup query, NodeList.mem_find_iff hsound nodes query,
    NodeList.find_pairwise hsound hnodup query, NodeList.nodup_walk_iff hsound hlive hnodup, ?_⟩
  intro n hn
  exact ⟨_, Node.run_walkFilterM _ w n, NodeList.find_preorder_perm hsound hn query⟩

/-- The leaf in the container comes before the container, as the container is named before the root;
and the walk from the root meets the container a second time. -/
theorem chained_queries_sample :
    let nodes : NodeList := [⟨⟨0⟩, 2⟩, ⟨⟨0⟩, 0⟩]
    sample.Reachable ∧
      nodes.find sample {} = [⟨⟨0⟩, 1⟩, ⟨⟨0⟩, 2⟩] ∧
      (nodes.find sample {}).Pairwise (nodes.Earlier sample) ∧
      ((⟨⟨0⟩, 1⟩ : Node) ∈ nodes.find sample {} ↔
        (∃ n ∈ nodes, (⟨⟨0⟩, 1⟩ : Node).parent? sample = some n) ∧
          Query.accepts {} ((⟨⟨0⟩, 1⟩ : Node).keyword sample)
            ((⟨⟨0⟩, 1⟩ : Node).argument sample) = true) ∧
      ¬ (nodes.walk sample).Nodup ∧
      (NodeList.find ((⟨⟨0⟩, 0⟩ : Node).preorder sample .all) sample {}).Perm
        [⟨⟨0⟩, 2⟩, ⟨⟨0⟩, 1⟩] := by
  intro nodes
  obtain ⟨-, hmem, horder, hwalk, hpermuted⟩ :=
    @chained_queries sample nodes reachable_sample (by decide) (by decide) {}
  obtain ⟨selected, hrun, hperm⟩ := hpermuted ⟨⟨0⟩, 0⟩ (by decide)
  have hselected : selected = [⟨⟨0⟩, 0⟩, ⟨⟨0⟩, 2⟩, ⟨⟨0⟩, 1⟩] :=
    (congrArg Prod.fst hrun).symm.trans (by decide)
  have hforest : (sample.tree ⟨0⟩).Forest := reachable_sample.sound ⟨0⟩ (by decide)
  have hcontains : (⟨⟨0⟩, 0⟩ : Node).Contains ⟨⟨0⟩, 2⟩ sample :=
    ⟨rfl, hforest.isAncestor_iff.1 (by decide)⟩
  refine ⟨reachable_sample, by decide, horder, hmem _, ?_, ?_⟩
  · intro hnodup
    have heq := hwalk.1 hnodup ⟨⟨0⟩, 0⟩ (by decide) ⟨⟨0⟩, 2⟩ (by decide) hcontains
    exact absurd heq (by decide)
  · rw [hselected] at hperm
    exact hperm

end Workspace

end YangDoc
