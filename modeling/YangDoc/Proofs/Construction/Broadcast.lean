import YangDoc.Proofs.Construction.Growth

/-!
# Building below every member of a list

A broadcast goes to the members of a list in turn, and for each of them it takes the present values
of the nodes in its input. So it moves nothing: each member gains one new statement for every time
it is on the list, and all else that existed stays as it was. But what one member has gained is
seen by those after it: the statements that are built have the value that the input had before the
call exactly when no member but the last is one of the nodes in the input or lies below one.
-/

namespace YangDoc

variable {w w' : Workspace} {n c : Node} {nodes earlier later built : NodeList} {keyword : String}
  {input : Input}

/-! ### One member -/

namespace Node

/-- Below one member a new statement is built, with the value that the input has at the time. -/
theorem build_frozen (hw : w.Sound) (hn : n.Live w)
    (hok : (n.build keyword (input.frozen w)).outcome w = (.ok c, w')) :
    w'.Sound ∧ w.Gained [(n, c)] w' ∧
      c.statement w' = ⟨keyword, input.argument, Expr.denoteAll w input.children⟩ := by
  rw [Input.frozen] at hok
  have hvalues := Expr.nodesAll_frozenAll w input.children
  have hlive : ∀ m ∈ Expr.nodesAll (Expr.frozenAll w input.children), m.Live w :=
    Expr.live_of_mem_frozenAll w input.children
  have hsep : Expr.Separate (Expr.frozenAll w input.children) w := by
    rw [Expr.Separate, hvalues]
    exact .nil
  have hordinary := (build_checked hw hn keyword input.argument hlive).ordinary c w' hok
  have hbuilt := build_built hw hn hlive hordinary hsep hok
  refine ⟨((build_safe hw hn hlive).of_ok hok).1.sound hw, build_gained hw hn hvalues hok, ?_⟩
  rw [hbuilt.statement_eq, ← Expr.denoteAll_eq_map, Expr.denoteAll_frozenAll]

/-- Values may go anywhere, so only the keyword can be in the way. -/
theorem refuses_values_iff {children : List Expr} (hvalues : Expr.nodesAll children = []) :
    n.document.Refuses w keyword (some n) children ↔ keyword = "" := by
  have hown : ¬ ∃ p ∈ some n, p.document ≠ n.document := by simp
  have hmoves : ¬ ∃ e ∈ children, ∃ m ∈ e.nodes, n.document.Blocks w (some n) m := by
    intro hblocked
    obtain ⟨e, he, m, hm, -⟩ := hblocked
    have hmem := Expr.mem_nodesAll.2 ⟨e, he, hm⟩
    simp [hvalues] at hmem
  rw [Document.Refuses, or_iff_left (not_or.2 ⟨hown, hmoves⟩)]

theorem build_frozen_ok_iff (hw : w.Sound) (hn : n.Live w) :
    (∃ c w', (n.build keyword (input.frozen w)).outcome w = (.ok c, w')) ↔
      (Expr.tuple keyword input.argument input.children).Ordinary := by
  have hchecked := build_checked hw hn keyword input.argument
    (Expr.live_of_mem_frozenAll w input.children)
  rw [Input.frozen, hchecked.ok_iff, refuses_values_iff (Expr.nodesAll_frozenAll w input.children),
    ← Expr.ordinary_frozen (w := w), Expr.frozen, Expr.ordinary_tuple_iff, not_or, Bool.not_eq_true,
    and_comm (a := Keyword.isRoot keyword = false)]

end Node

/-! ### All members -/

namespace NodeList

theorem build_cons_inv
    (hok : (build (n :: later) keyword input).outcome w = (.ok built, w')) :
    ∃ c rest w₁, (n.build keyword (input.frozen w)).outcome w = (.ok c, w₁) ∧
      (later.build keyword input).outcome w₁ = (.ok rest, w') ∧ built = c :: rest := by
  unfold build at hok
  rw [List.mapM_cons] at hok
  obtain ⟨c, w₁, hfirst, hrest⟩ := Build.outcome_bind_eq_ok hok
  rw [Build.outcome_bind_of_ok (Build.outcome_get w)] at hfirst
  obtain ⟨rest, w₂, hlater, hlast⟩ := Build.outcome_bind_eq_ok hrest
  obtain ⟨rfl, rfl⟩ := Build.ok_inj hlast
  exact ⟨c, rest, w₁, hfirst, hlater, rfl⟩

theorem build_append_inv
    (hok : (build (earlier ++ later) keyword input).outcome w = (.ok built, w')) :
    ∃ first rest w₁, (earlier.build keyword input).outcome w = (.ok first, w₁) ∧
      (later.build keyword input).outcome w₁ = (.ok rest, w') ∧ built = first ++ rest := by
  unfold build at hok
  rw [List.mapM_append] at hok
  obtain ⟨first, w₁, hearlier, hrest⟩ := Build.outcome_bind_eq_ok hok
  obtain ⟨rest, w₂, hlater, hlast⟩ := Build.outcome_bind_eq_ok hrest
  obtain ⟨rfl, rfl⟩ := Build.ok_inj hlast
  exact ⟨first, rest, w₁, hearlier, hlater, rfl⟩

theorem build_gained (hw : w.Sound) (hnodes : ∀ n ∈ nodes, n.Live w)
    (hok : (nodes.build keyword input).outcome w = (.ok built, w')) :
    w'.Sound ∧ built.length = nodes.length ∧ w.Gained (nodes.zip built) w' := by
  induction nodes generalizing w built with
  | nil =>
    obtain ⟨rfl, rfl⟩ := Build.ok_inj hok
    exact ⟨hw, rfl, .refl w⟩
  | cons n later ih =>
    obtain ⟨c, rest, w₁, hfirst, hlater, rfl⟩ := build_cons_inv hok
    rw [List.forall_mem_cons] at hnodes
    obtain ⟨hw₁, hgained, -⟩ := Node.build_frozen hw hnodes.1 hfirst
    obtain ⟨hw', hlength, hrest⟩ := ih hw₁ (fun m hm => hgained.live (hnodes.2 m hm)) hlater
    exact ⟨hw', congrArg (· + 1) hlength, hgained.trans hrest⟩

theorem build_ok_iff (hw : w.Sound) (hnodes : ∀ n ∈ nodes, n.Live w) :
    (∃ built w', (nodes.build keyword input).outcome w = (.ok built, w')) ↔
      nodes = [] ∨ (Expr.tuple keyword input.argument input.children).Ordinary := by
  constructor
  · intro hok
    obtain ⟨built, w', hok⟩ := hok
    cases nodes with
    | nil => exact .inl rfl
    | cons n later =>
      obtain ⟨c, rest, w₁, hfirst, -, -⟩ := build_cons_inv hok
      have hn := hnodes n List.mem_cons_self
      exact .inr ((Node.build_frozen_ok_iff hw hn).1 ⟨c, w₁, hfirst⟩)
  · intro hcase
    rcases hcase with rfl | hordinary
    · exact ⟨[], w, rfl⟩
    · induction nodes generalizing w with
      | nil => exact ⟨[], w, rfl⟩
      | cons n later ih =>
        rw [List.forall_mem_cons] at hnodes
        obtain ⟨c, w₁, hfirst⟩ := (Node.build_frozen_ok_iff hw hnodes.1).2 hordinary
        obtain ⟨hw₁, hgained, -⟩ := Node.build_frozen hw hnodes.1 hfirst
        obtain ⟨rest, w₂, hlater⟩ := ih hw₁ fun m hm => hgained.live (hnodes.2 m hm)
        refine ⟨c :: rest, w₂, ?_⟩
        unfold build at hlater ⊢
        rw [List.mapM_cons, Build.outcome_bind_of_ok, Build.outcome_bind_of_ok hlater]
        · rfl
        · rw [Build.outcome_bind_of_ok (Build.outcome_get w)]
          exact hfirst

theorem build_statement (hw : w.Sound) (hearlier : ∀ m ∈ earlier, m.Live w) (hn : n.Live w)
    (hlater : ∀ m ∈ later, m.Live w)
    (hok : (build (earlier ++ n :: later) keyword input).outcome w = (.ok built, w')) :
    ∃ first c rest w₁, (earlier.build keyword input).outcome w = (.ok first, w₁) ∧
      built = first ++ c :: rest ∧
      c.statement w' = ⟨keyword, input.argument, Expr.denoteAll w₁ input.children⟩ := by
  obtain ⟨first, others, w₁, hfirst, hothers, rfl⟩ := build_append_inv hok
  obtain ⟨c, rest, w₂, hc, hrest, rfl⟩ := build_cons_inv hothers
  obtain ⟨hw₁, -, hgained₁⟩ := build_gained hw hearlier hfirst
  obtain ⟨hw₂, hgained₂, hvalue⟩ := Node.build_frozen hw₁ (hgained₁.live hn) hc
  have hlive : ∀ m ∈ later, m.Live w₁ := fun m hm => hgained₁.live (hlater m hm)
  obtain ⟨hw', -, hgained⟩ := build_gained hw₂ (fun m hm => hgained₂.live (hlive m hm)) hrest
  obtain ⟨-, hnew, hc⟩ := hgained₂.fresh (n, c) (List.mem_singleton_self _)
  refine ⟨first, c, rest, w₁, hfirst, rfl, ?_⟩
  rw [← hvalue, hgained.statement_eq_iff hw₂ hw' hc]
  -- the members still to come existed before the new statement, so none of them lies below it
  intro p hp
  exact hgained₂.not_contains_fresh hw₁ hw₂ (hlive p.1 (List.of_mem_zip hp).1) hnew

/-- The statement below a member is what the input stood for before the call exactly if none of the
members before it is a node of the input or lies below one. -/
theorem build_statement_iff (hw : w.Sound) (hnodes : ∀ n ∈ nodes, n.Live w)
    (hinput : ∀ m ∈ Expr.nodesAll input.children, m.Live w)
    (hok : (nodes.build keyword input).outcome w = (.ok built, w')) {i : Nat}
    (hc : built[i]? = some c) :
    c.statement w' = ⟨keyword, input.argument, Expr.denoteAll
        ((build (nodes.take i) keyword input).outcome w).2 input.children⟩ ∧
      (c.statement w' = ⟨keyword, input.argument, Expr.denoteAll w input.children⟩ ↔
        ∀ n ∈ nodes.take i, ∀ m ∈ Expr.nodesAll input.children, ¬ m.Contains n w) := by
  have hlength := (build_gained hw hnodes hok).2.1
  have hi : i < nodes.length := by
    rw [← hlength]
    exact (List.getElem?_eq_some_iff.1 hc).1
  have htake : ∀ n ∈ nodes.take i, n.Live w := fun n hn => hnodes n (List.mem_of_mem_take hn)
  -- the run splits into the members before this one, this one, and those after it
  rw [← List.take_append_drop i nodes, List.drop_eq_getElem_cons hi] at hok
  obtain ⟨first, c', rest, w₁, hfirst, rfl, hvalue⟩ := build_statement hw htake
    (hnodes _ (List.getElem_mem hi)) (fun n hn => hnodes n (List.mem_of_mem_drop hn)) hok
  obtain ⟨hw₁, hcount, hgained⟩ := build_gained hw htake hfirst
  rw [List.length_take, Nat.min_eq_left hi.le] at hcount
  obtain rfl : c' = c := by simpa [← hcount] using hc
  have hmap : ((nodes.take i).zip first).map Prod.fst = nodes.take i := by
    apply List.map_fst_zip
    rw [hcount]
    exact List.length_take_le i nodes
  refine ⟨?_, ?_⟩
  · rw [hfirst]
    exact hvalue
  · rw [hvalue, Statement.mk.injEq, Expr.denoteAll_eq_iff]
    simp only [true_and]
    constructor
    · intro hsame n hn m hm
      rw [← hmap] at hn
      obtain ⟨p, hp, rfl⟩ := List.mem_map.1 hn
      exact (hgained.statement_eq_iff hw hw₁ (hinput m hm)).1 (hsame m hm) p hp
    · intro hfree m hm
      apply (hgained.statement_eq_iff hw hw₁ (hinput m hm)).2
      intro p hp
      exact hfree p.1 (List.of_mem_zip hp).1 m hm

end NodeList

namespace Workspace

/-- A broadcast goes through if it has no members or all its keywords may be nested, and only then.
It returns one new statement for each member, in their order; each node that existed has gained the
statements that were built for it, in that order, and is otherwise where and what it was. -/
theorem broadcast_gained (hw : w.Reachable) (hnodes : ∀ n ∈ nodes, n.Live w) (keyword : String)
    (input : Input) :
    ((∃ built w', (nodes.build keyword input).outcome w = (.ok built, w')) ↔
      nodes = [] ∨ (Expr.tuple keyword input.argument input.children).Ordinary) ∧
    ∀ built w', (nodes.build keyword input).outcome w = (.ok built, w') →
      built.length = nodes.length ∧ w.Gained (nodes.zip built) w' :=
  ⟨NodeList.build_ok_iff hw.sound hnodes,
    fun _ _ hok => (NodeList.build_gained hw.sound hnodes hok).2⟩

/-- A container, its leaf and the container again gain a statement around a copy of the leaf, which
stays where it is. -/
theorem broadcast_gained_sample :
    sample.Reachable ∧ ∃ w',
      (NodeList.build [⟨⟨0⟩, 2⟩, ⟨⟨0⟩, 1⟩, ⟨⟨0⟩, 2⟩] "list"
        { children := [.tuple "case" none [.node ⟨⟨0⟩, 1⟩]] }).outcome sample =
          (.ok [⟨⟨0⟩, 5⟩, ⟨⟨0⟩, 8⟩, ⟨⟨0⟩, 14⟩], w') ∧
      sample.Gained
        [(⟨⟨0⟩, 2⟩, ⟨⟨0⟩, 5⟩), (⟨⟨0⟩, 1⟩, ⟨⟨0⟩, 8⟩), (⟨⟨0⟩, 2⟩, ⟨⟨0⟩, 14⟩)] w' ∧
      (⟨⟨0⟩, 2⟩ : Node).children w' = [⟨⟨0⟩, 1⟩, ⟨⟨0⟩, 5⟩, ⟨⟨0⟩, 14⟩] ∧
      (⟨⟨0⟩, 1⟩ : Node).parent? w' = some ⟨⟨0⟩, 2⟩ := by
  have hlive : ∀ n ∈ ([⟨⟨0⟩, 2⟩, ⟨⟨0⟩, 1⟩, ⟨⟨0⟩, 2⟩] : NodeList), n.Live sample := by decide
  obtain ⟨-, hgained⟩ := broadcast_gained reachable_sample hlive "list"
    { children := [.tuple "case" none [.node ⟨⟨0⟩, 1⟩]] }
  exact ⟨reachable_sample, _, rfl, (hgained _ _ rfl).2, by decide, by decide⟩

/-- A broadcast returns statements with the value that its input had when each of them was built.
All of them have the value from before the call exactly if no member but the last is a node of the
input or lies below one. -/
theorem broadcast_statements (hw : w.Reachable) (hnodes : ∀ n ∈ nodes, n.Live w)
    (hinput : ∀ m ∈ Expr.nodesAll input.children, m.Live w)
    (hok : (nodes.build keyword input).outcome w = (.ok built, w')) :
    (∀ i c, built[i]? = some c →
      c.statement w' = ⟨keyword, input.argument, input.children.map (Expr.denote
        ((NodeList.build (nodes.take i) keyword input).outcome w).2)⟩ ∧
      (c.statement w' = ⟨keyword, input.argument, input.children.map (Expr.denote w)⟩ ↔
        ∀ n ∈ nodes.take i, ∀ m ∈ Expr.nodesAll input.children, ¬ m.Contains n w)) ∧
    ((∀ c ∈ built, c.statement w' =
        ⟨keyword, input.argument, input.children.map (Expr.denote w)⟩) ↔
      ∀ n ∈ nodes.dropLast, ∀ m ∈ Expr.nodesAll input.children, ¬ m.Contains n w) := by
  have hlength := (NodeList.build_gained hw.sound hnodes hok).2.1
  simp only [← Expr.denoteAll_eq_map]
  have hmember : ∀ i c, built[i]? = some c → _ := fun i c hc =>
    NodeList.build_statement_iff hw.sound hnodes hinput hok hc
  rw [List.dropLast_eq_take]
  refine ⟨hmember, ?_, ?_⟩
  · -- the last member comes after all the others
    intro hall n hn
    have hpos : 0 < nodes.length := List.length_pos_of_mem (List.mem_of_mem_take hn)
    have hlast : nodes.length - 1 < built.length := by omega
    exact (hmember _ _ (List.getElem?_eq_getElem hlast)).2.1 (hall _ (List.getElem_mem hlast)) n hn
  · intro hfree c hc
    obtain ⟨i, hi, rfl⟩ := List.mem_iff_getElem.1 hc
    apply (hmember i _ (List.getElem?_eq_getElem hi)).2.2
    intro n hn
    exact hfree n (List.take_subset_take_left nodes (by omega) hn)

/-- A container, the root of another document and the leaf of the container, with the leaf as input:
of the members only the last is at or below the leaf, so all gain the same. -/
theorem broadcast_statements_sample :
    sample.Reachable ∧ ∃ w',
      (NodeList.build [⟨⟨0⟩, 2⟩, ⟨⟨1⟩, 0⟩, ⟨⟨0⟩, 1⟩] "must"
        { argument := some "x", children := [.node ⟨⟨0⟩, 1⟩] }).outcome sample =
          (.ok [⟨⟨0⟩, 4⟩, ⟨⟨1⟩, 2⟩, ⟨⟨0⟩, 6⟩], w') ∧
      ∀ c ∈ ([⟨⟨0⟩, 4⟩, ⟨⟨1⟩, 2⟩, ⟨⟨0⟩, 6⟩] : NodeList),
        c.statement w' = ⟨"must", some "x", [⟨"leaf", some "l", []⟩]⟩ := by
  have hcontainer : ¬ (⟨⟨0⟩, 1⟩ : Node).Contains ⟨⟨0⟩, 2⟩ sample := by
    intro hcontains
    have hforest : (sample.tree ⟨0⟩).Forest := reachable_sample.sound ⟨0⟩ (by decide)
    exact absurd (hforest.isAncestor_iff.2 hcontains.2) (by decide)
  have hforeign : ¬ (⟨⟨0⟩, 1⟩ : Node).Contains ⟨⟨1⟩, 0⟩ sample := fun h =>
    absurd h.1 (by decide)
  have hlive : ∀ n ∈ ([⟨⟨0⟩, 2⟩, ⟨⟨1⟩, 0⟩, ⟨⟨0⟩, 1⟩] : NodeList), n.Live sample := by decide
  have hleaf : ∀ m ∈ Expr.nodesAll [.node ⟨⟨0⟩, 1⟩], m.Live sample := by decide
  obtain ⟨w', hok⟩ : ∃ w', (NodeList.build [⟨⟨0⟩, 2⟩, ⟨⟨1⟩, 0⟩, ⟨⟨0⟩, 1⟩] "must"
      { argument := some "x", children := [.node ⟨⟨0⟩, 1⟩] }).outcome sample =
        (.ok [⟨⟨0⟩, 4⟩, ⟨⟨1⟩, 2⟩, ⟨⟨0⟩, 6⟩], w') := ⟨_, rfl⟩
  refine ⟨reachable_sample, w', hok, ?_⟩
  apply (broadcast_statements reachable_sample hlive hleaf hok).2.2
  simp [Expr.nodesAll, Expr.nodes, hcontainer, hforeign]

/-- A leaf that is on the list twice and also the input: the second statement copies the leaf with
the first one in it. -/
theorem broadcast_statements_unequal :
    sample.Reachable ∧ ∃ built w',
      (NodeList.build [⟨⟨0⟩, 1⟩, ⟨⟨0⟩, 1⟩] "must" { children := [.node ⟨⟨0⟩, 1⟩] }).outcome sample =
        (.ok built, w') ∧
      ¬ ∀ c ∈ built, c.statement w' =
        ⟨"must", none, [(Expr.node ⟨⟨0⟩, 1⟩).denote sample]⟩ := by
  refine ⟨reachable_sample, _, _, rfl, ?_⟩
  decide

end Workspace

end YangDoc
