import Mathlib.Data.List.Count
import YangDoc.Proofs.Construction.Broadcast
import YangDoc.Proofs.Tree.Insertion
import YangDoc.Proofs.Tree.Traversal

/-!
# Building at every stop of a walk

A walk may build below the nodes that it selects. The nodes to be visited are fixed when the walk
starts, so what it builds is not visited itself; and what it builds changes neither the keyword nor
the argument of a node still to come, so the same nodes are selected as if nothing were built. Each
of them gains one statement at the end of its list. What this does to the value of the node where
the walk started is a recursion on that value.
-/

namespace YangDoc

/-! ### Values with more substatements -/

namespace Statement

mutual

/-- The statement with `new` as an additional last substatement wherever a traversal goes and the
header is selected. -/
def extended (scope : Scope) (selects : String → Option String → Bool) (new : Statement) :
    Statement → Statement
  | ⟨keyword, argument, children⟩ =>
    ⟨keyword, argument,
      extendedAll scope selects new children ++ if selects keyword argument then [new] else []⟩

/-- A statement that is not admitted stays as it is, with all below it. -/
def extendedAll (scope : Scope) (selects : String → Option String → Bool) (new : Statement) :
    List Statement → List Statement
  | [] => []
  | s :: rest =>
    (if scope.admits s.keyword then extended scope selects new s else s) ::
      extendedAll scope selects new rest

end

theorem extendedAll_eq_map (scope : Scope) (selects : String → Option String → Bool)
    (new : Statement) (ss : List Statement) :
    extendedAll scope selects new ss =
      ss.map fun s => if scope.admits s.keyword then extended scope selects new s else s := by
  induction ss with
  | nil => rfl
  | cons s rest ih => rw [extendedAll, ih, List.map_cons]

end Statement

namespace Tree

variable {t t' : Tree} {scope : Scope} {selects : String → Option String → Bool} {new : Statement}
  {c r x : Nat}

/-- Whether a statement is visited is decided on the way down to it. -/
theorem Forest.mem_preorder_of_lists (h : t.Forest) (hc : t.Lists r c) (hx : t.Above c x) :
    x ∈ t.preorder scope r ↔ scope.admits (t.keyword c) = true ∧ x ∈ t.preorder scope c := by
  have hne : x ≠ r := by
    rintro rfl
    exact h.not_lists_of_above hx hc
  rw [h.preorder_eq, List.mem_cons, or_iff_right hne, List.mem_flatMap]
  constructor
  · intro hvisited
    obtain ⟨b, hb, hmem⟩ := hvisited
    rw [admitted, List.mem_filter] at hb
    -- of the substatements only `c` lies above `x`
    obtain rfl : b = c := by
      by_contra hbc
      exact h.apart_of_siblings hb.1 hc hbc x (h.above_of_mem_preorder hmem) hx
    exact ⟨hb.2, hmem⟩
  · intro hvisited
    exact ⟨c, List.mem_filter.2 ⟨hc, hvisited.1⟩, hvisited.2⟩

/-- Where each list has grown by the new statement exactly if its owner is visited and selected, the
value has been extended. -/
theorem Forest.snapshot_extended (h : t.Forest) (h' : t'.Forest)
    (hheader : ∀ x, t.Above r x → t'.header x = t.header x)
    (hchildren : ∀ x, t.Above r x → ∃ gained, t'.children x = t.children x ++ gained ∧
      gained.map t'.snapshot =
        if x ∈ t.preorder scope r ∧ selects (t.keyword x) (t.argument x) = true then [new]
        else []) :
    t'.snapshot r = Statement.extended scope selects new (t.snapshot r) := by
  induction r using h.induction_below with
  | step r ih =>
    have hbelow : ∀ c ∈ t.children r, t'.snapshot c =
        if scope.admits (t.snapshot c).keyword then
          Statement.extended scope selects new (t.snapshot c)
        else t.snapshot c := by
      intro c hc
      have hkeyword : (t.snapshot c).keyword = t.keyword c := by
        rw [h.snapshot_eq c]
      rw [hkeyword]
      split
      · next hadmits =>
        refine ih c hc (fun x hx => hheader x (hx.head hc)) fun x hx => ?_
        obtain ⟨gained, hlist, hvalue⟩ := hchildren x (hx.head hc)
        simp only [h.mem_preorder_of_lists hc hx, hadmits, true_and] at hvalue
        exact ⟨gained, hlist, hvalue⟩
      · next hnot =>
        have hsame : t.SameBelow t' c := by
          intro x hx
          obtain ⟨gained, hlist, hvalue⟩ := hchildren x (hx.head hc)
          rw [if_neg fun hvisited => hnot ((h.mem_preorder_of_lists hc hx).1 hvisited.1).1,
            List.map_eq_nil_iff] at hvalue
          exact ⟨hheader x (hx.head hc), by rw [hlist, hvalue, List.append_nil]⟩
        exact hsame.snapshot_eq h h'
    obtain ⟨gained, hlist, hvalue⟩ := hchildren r .refl
    have hkeyword : t'.keyword r = t.keyword r := congrArg Prod.fst (hheader r .refl)
    have hargument : t'.argument r = t.argument r := congrArg Prod.snd (hheader r .refl)
    rw [h'.snapshot_eq r, h.snapshot_eq r, Statement.extended, Statement.extendedAll_eq_map,
      List.map_map, hkeyword, hargument, hlist, List.map_append, hvalue,
      List.map_congr_left hbelow]
    simp only [h.mem_preorder_self scope r, true_and]
    rfl

end Tree

/-! ### One stop -/

section

variable {w w' : Workspace} {n c : Node} {keyword : String} {argument : Option String}

theorem Document.build_leaf_inv {d : Document} {parent : Option Node} (hw : w.Sound) (hd : w.Has d)
    (hroot : Keyword.isRoot keyword = false)
    (hok : (d.build keyword { argument } parent).outcome w = (.ok c, w')) :
    c = ⟨d, (w.tree d).size⟩ ∧ (w'.tree d).size = (w.tree d).size + 1 := by
  obtain ⟨id, w₂, hconstruct, hlast⟩ := Build.outcome_bind_eq_ok hok
  obtain ⟨rfl, rfl⟩ := Build.ok_inj hlast
  obtain ⟨-, parentId, ids, w₁, t, -, hids, hassemble, rfl⟩ := construct_inv hconstruct
  rw [receiveAll] at hids
  obtain ⟨rfl, rfl⟩ := Build.ok_inj hids
  obtain ⟨rfl, -⟩ := (hw d hd).assembled_new hroot (by simp) hassemble
  exact ⟨rfl, by rw [Workspace.tree_setTree hd, Tree.size_assemble hroot hassemble]⟩

namespace Node

theorem build_leaf (hw : w.Sound) (hn : n.Live w)
    (hkeyword : keyword ≠ "" ∧ Keyword.isRoot keyword = false) (argument : Option String) :
    ∃ w', (n.build keyword { argument }).outcome w =
        (.ok ⟨n.document, (n.tree w).size⟩, w') ∧
      w'.Sound ∧ (n.tree w').size = (n.tree w).size + 1 ∧
      w.Gained [(n, ⟨n.document, (n.tree w).size⟩)] w' ∧
      (⟨n.document, (n.tree w).size⟩ : Node).statement w' = ⟨keyword, argument, []⟩ := by
  have hvalues : Expr.nodesAll [] = [] := rfl
  have hlive : ∀ m ∈ Expr.nodesAll [], m.Live w := by simp [hvalues]
  obtain ⟨c, w', hok⟩ := (build_checked hw hn keyword argument hlive).ok_iff.2
    ⟨by simp [refuses_values_iff hvalues, hkeyword], by simp⟩
  have hw' := ((build_safe hw hn hlive).of_ok hok).1.sound hw
  have hgained := build_gained hw hn hvalues hok
  have hbuilt := build_built hw hn hlive (by simp) (by simp [Expr.Separate, hvalues]) hok
  have hinv := hok
  rw [build_of_not_root n hkeyword.2] at hinv
  obtain ⟨child, w₁, hchild, hrest⟩ := Build.outcome_bind_eq_ok hinv
  obtain ⟨_, w₂, hattach, hlast⟩ := Build.outcome_bind_eq_ok hrest
  obtain ⟨rfl, rfl⟩ := Build.ok_inj hlast
  obtain ⟨rfl, hsize⟩ := Document.build_leaf_inv hw hn.has hkeyword.2 hchild
  obtain ⟨t, ht, rfl⟩ := Document.attach_eq_ok hattach
  refine ⟨_, hok, hw', ?_, hgained, hbuilt.statement_eq⟩
  have hd : w₁.Has n.document :=
    (Document.build_gained hw hn.has hvalues hkeyword.2 hchild).1.live hn |>.has
  rw [tree, Workspace.tree_setTree hd, Tree.size_attach ht, hsize]
  rfl

end Node

end

/-! ### The whole walk -/

def Node.selectedBy (selects : String → Option String → Bool) (w : Workspace) (n : Node) : Bool :=
  selects (n.keyword w) (n.argument w)

theorem run_selectMapM_cons {α : Type} (select : Workspace → Node → Bool)
    (apply : Node → StateM Workspace α) (w : Workspace) (n : Node) (rest : List Node) :
    (selectMapM (observing select) apply (n :: rest)).run w =
      if select w n then Prod.map (((apply n).run w).1 :: ·) id
        ((selectMapM (observing select) apply rest).run ((apply n).run w).2)
      else (selectMapM (observing select) apply rest).run w := by
  show StateT.run (if select w n = true then _ else _) w = _
  split
  · rfl
  · rfl

namespace Workspace

variable {w w' : Workspace} {d : Document} {nodes : List Node}
  {selects : String → Option String → Bool} {keyword : String}

theorem Gained.filter_selectedBy {added : List (Node × Node)} (h : w.Gained added w')
    (hnodes : ∀ n ∈ nodes, n.Live w) :
    nodes.filter (Node.selectedBy selects w') = nodes.filter (Node.selectedBy selects w) := by
  apply List.filter_congr
  intro n hn
  obtain ⟨hkeyword, hargument⟩ := h.header_eq (hnodes n hn)
  rw [Node.selectedBy, Node.selectedBy, hkeyword, hargument]

theorem run_builds (selects : String → Option String → Bool)
    (hkeyword : keyword ≠ "" ∧ Keyword.isRoot keyword = false) (argument : Option String)
    (hw : w.Sound) (hnodes : ∀ n ∈ nodes, n.Live w) (hdoc : ∀ n ∈ nodes, n.document = d) :
    let selected := nodes.filter (Node.selectedBy selects w)
    let built := (List.range' (w.tree d).size selected.length).map (Node.mk d)
    ∃ w', (selectMapM (observing (Node.selectedBy selects))
        (fun n => (n.build keyword { argument }).run) nodes).run w = (built.map .ok, w') ∧
      w'.Sound ∧ w.Gained (selected.zip built) w' ∧
      ∀ c ∈ built, c.statement w' = ⟨keyword, argument, []⟩ := by
  induction nodes generalizing w with
  | nil => exact ⟨w, rfl, hw, .refl w, by simp⟩
  | cons n rest ih =>
    rw [List.forall_mem_cons] at hnodes hdoc
    rw [run_selectMapM_cons, List.filter_cons]
    by_cases hselected : Node.selectedBy selects w n = true
    · obtain rfl : n.document = d := hdoc.1
      obtain ⟨w₁, hok, hw₁, hsize, hgained, hvalue⟩ :=
        Node.build_leaf hw hnodes.1 hkeyword argument
      have hrun : ((n.build keyword { argument }).run.run w) = _ := hok
      obtain ⟨w', hrest, hw', hlater, hvalues⟩ :=
        ih hw₁ (fun m hm => hgained.live (hnodes.2 m hm)) hdoc.2
      have htree : (w₁.tree n.document).size = (n.tree w).size + 1 := hsize
      rw [hgained.filter_selectedBy hnodes.2, htree] at hrest hlater hvalues
      simp only [if_pos hselected, List.length_cons, List.range'_succ, List.map_cons,
        List.zip_cons_cons, List.forall_mem_cons]
      refine ⟨w', ?_, hw', hgained.trans hlater, ?_, hvalues⟩
      · rw [hrun, hrest]
        rfl
      · -- what is built later is built below nodes that existed, and none of them lies below it
        rw [← hvalue]
        refine (hlater.statement_eq_iff hw₁ hw' (hgained.fresh _ (List.mem_singleton_self _)).2.2).2
          fun p hp => ?_
        have hmem : p.1 ∈ rest := List.mem_of_mem_filter (List.of_mem_zip hp).1
        exact hgained.not_contains_fresh hw hw₁ (hnodes.2 _ hmem)
          (hgained.fresh _ (List.mem_singleton_self _)).2.1
    · rw [if_neg hselected, if_neg hselected]
      exact ih hw hnodes.2 hdoc.2

theorem length_filter_zip {α β : Type} [DecidableEq α] {as : List α} {bs : List β}
    (hlength : as.length = bs.length) (hnodup : as.Nodup) (a : α) :
    ((as.zip bs).filter (·.1 = a)).length = if a ∈ as then 1 else 0 := by
  have hcount : as.count a = (as.zip bs).countP (·.1 = a) := by
    conv_lhs => rw [← List.map_fst_zip hlength.le, List.count, List.countP_map]
    rfl
  rw [← List.countP_eq_length_filter, ← hcount, hnodup.count]

/-- The value of the node where a walk started, when each node that it selected has gained the same
new statement. -/
theorem Gained.statement_extended {n : Node} {scope : Scope} {selected built : List Node}
    {new : Statement} (h : w.Gained (selected.zip built) w') (hw : w.Sound) (hw' : w'.Sound)
    (hn : n.Live w) (hselected : selected = (n.preorder w scope).filter (Node.selectedBy selects w))
    (hlength : selected.length = built.length) (hvalues : ∀ c ∈ built, c.statement w' = new) :
    n.statement w' = Statement.extended scope selects new (n.statement w) := by
  have hforest : (n.tree w).Forest := hw _ hn.has
  have hlive : ∀ x, (n.tree w).Above n.id x → (⟨n.document, x⟩ : Node).Live w := fun x hx =>
    hforest.above_lt_size hx hn
  have hnodup : selected.Nodup := by
    rw [hselected]
    exact ((hforest.nodup_preorder scope n.id).map (Node.mk_injective _)).filter _
  refine hforest.snapshot_extended (hw' _ (h.live hn).has) (fun x hx => ?_) fun x hx => ?_
  · obtain ⟨hkeyword, hargument⟩ := h.header_eq (hlive x hx)
    exact Prod.ext hkeyword hargument
  · have hmem : (⟨n.document, x⟩ : Node) ∈ selected ↔ x ∈ (n.tree w).preorder scope n.id ∧
        selects ((n.tree w).keyword x) ((n.tree w).argument x) = true := by
      rw [hselected, List.mem_filter, Node.preorder,
        List.mem_map_of_injective (Node.mk_injective _)]
      rfl
    have hlist := congrArg (List.map Node.id) (h.children_eq (hlive x hx))
    rw [List.map_append, Node.map_id_children, Node.map_id_children, List.map_map] at hlist
    refine ⟨_, hlist, ?_⟩
    have hnew : ∀ p ∈ (selected.zip built).filter (·.1 = (⟨n.document, x⟩ : Node)),
        (n.tree w').snapshot p.2.id = new := by
      intro p hp
      rw [List.mem_filter, decide_eq_true_eq] at hp
      have hdoc : p.2.document = n.document := by
        rw [(h.fresh p hp.1).1, hp.2]
      rw [← hvalues p.2 (List.of_mem_zip hp.1).2, Node.statement, Node.tree, Node.tree, hdoc]
    rw [List.map_map]
    refine (List.map_congr_left hnew).trans ?_
    rw [List.map_const', length_filter_zip hlength hnodup]
    simp only [hmem]
    split
    · rfl
    · rfl

/-- A walk that builds a statement below each node that it selects. It visits the nodes that it
would visit if nothing were built, and all statements are built, in the rows from the old end of the
table on. The node where it started has the value that it had, extended at the selected nodes, and
nothing else that existed has changed. -/
theorem walk_builds (hw : w.Reachable) {n : Node} (hn : n.Live w) (scope : Scope)
    (selects : String → Option String → Bool)
    (hkeyword : keyword ≠ "" ∧ Keyword.isRoot keyword = false) (argument : Option String) :
    let selected := (n.preorder w scope).filter (Node.selectedBy selects w)
    let built := (List.range' (n.tree w).size selected.length).map (Node.mk n.document)
    ∃ w', (n.walkMapM (observing (Node.selectedBy selects))
        (fun m => (m.build keyword { argument }).run) scope).run w = (built.map .ok, w') ∧
      w.Gained (selected.zip built) w' ∧
      (∀ c ∈ built, c.statement w' = ⟨keyword, argument, []⟩) ∧
      n.statement w' = Statement.extended scope selects ⟨keyword, argument, []⟩ (n.statement w) := by
  intro selected built
  have hforest := hw.sound _ hn.has
  have hvisited : ∀ m ∈ n.preorder w scope, m.Live w ∧ m.document = n.document := by
    intro m hm
    obtain ⟨x, hx, rfl⟩ := List.mem_map.1 hm
    exact ⟨hforest.above_lt_size (hforest.above_of_mem_preorder hx) hn, rfl⟩
  obtain ⟨w', hrun, hw', hgained, hvalues⟩ := run_builds selects hkeyword argument
    hw.sound (fun m hm => (hvisited m hm).1) fun m hm => (hvisited m hm).2
  refine ⟨w', hrun, hgained, hvalues, ?_⟩
  refine hgained.statement_extended hw.sound hw' hn rfl ?_ hvalues
  rw [List.length_map, List.length_range']

/-- A document with a comment, and with leaves below the comment and elsewhere. -/
def commented : Workspace :=
  (({} : Workspace).add Tree.withComment).1

/-- Leaves and containers gain a leaf, but not the leaf below the comment, which is not visited, nor
the leaves that are new. -/
theorem walk_builds_comment :
    let selects : String → Option String → Bool := fun k _ => k == "leaf" || k == "container"
    commented.Reachable ∧ ∃ w',
      ((⟨⟨0⟩, 0⟩ : Node).walkMapM (observing (Node.selectedBy selects))
        (fun m => (m.build "leaf").run) .statements).run commented =
          ([.ok ⟨⟨0⟩, 5⟩, .ok ⟨⟨0⟩, 6⟩], w') ∧
      (⟨⟨0⟩, 0⟩ : Node).statement w' = ⟨"module", some "m",
        [⟨Keyword.comment, some "// c", [⟨"leaf", some "x", []⟩]⟩,
          ⟨"container", some "c",
            [⟨"leaf", some "l", [⟨"leaf", none, []⟩]⟩, ⟨"leaf", none, []⟩]⟩]⟩ := by
  intro selects
  have hw : commented.Reachable := .ofStatement .empty _
  have hkeyword : "leaf" ≠ "" ∧ Keyword.isRoot "leaf" = false := by decide
  have hselected : ((⟨⟨0⟩, 0⟩ : Node).preorder commented .statements).filter
      (Node.selectedBy selects commented) = [⟨⟨0⟩, 3⟩, ⟨⟨0⟩, 4⟩] := by decide
  have hsize : (Node.tree ⟨⟨0⟩, 0⟩ commented).size = 5 := by decide
  obtain ⟨w', hrun, -, -, hvalue⟩ :=
    walk_builds (n := ⟨⟨0⟩, 0⟩) hw (by decide) .statements selects hkeyword none
  rw [hselected, hsize] at hrun
  refine ⟨hw, w', hrun, ?_⟩
  rw [hvalue]
  decide

end Workspace

end YangDoc
