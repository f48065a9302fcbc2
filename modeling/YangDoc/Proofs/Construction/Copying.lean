import YangDoc.Proofs.Construction.Growth
import YangDoc.Proofs.Construction.Turns

/-!
# Appending copies

A copy is planted in rows of its own and listed under the node that it is appended to. So copies are
always accepted, wherever the node lies, and what existed stays what it was except that the list of
the node has grown. The node may lie inside the statement that is copied; then the copies that come
first are part of what is copied later, and each copy has the value that its item had in its turn.
-/

namespace YangDoc

namespace Workspace

variable {w w' w'' : Workspace} {d : Document} {n : Node}

theorem row_plant (hd : w.Has d) (s : Statement) {m : Node} (hm : m.Live w) :
    (m.tree (w.setTree d ((w.tree d).plant s).1)).row m.id = (m.tree w).row m.id := by
  by_cases hdoc : m.document = d
  · subst hdoc
    rw [Node.tree, tree_setTree hd]
    exact ((w.tree m.document).planted s).row_eq m.id hm
  · rw [Node.tree, tree_setTree_of_ne hdoc]
    rfl

theorem Gained.plant (hw : w.Sound) (hd : w.Has d) (s : Statement) :
    w.Gained [] (w.setTree d ((w.tree d).plant s).1) := by
  have hedits : w.Edits (w.setTree d ((w.tree d).plant s).1) :=
    edits_setTree hd (.single (.plant s))
  refine ⟨hedits.live, ?_, ?_, ?_, by simp, List.nodup_nil⟩
  · intro m hm
    rw [Node.keyword, Node.argument, Tree.keyword, Tree.argument, row_plant hd s hm]
    exact ⟨rfl, rfl⟩
  · intro m hm
    rw [Node.children, Tree.children, row_plant hd s hm, List.filter_nil, List.map_nil,
      List.append_nil]
    rfl
  · intro m hm
    apply (Node.parent?_eq_iff_samePlace (hw _ hm.has) (hedits.sound hw _ (hedits.live hm).has)).2
    by_cases hdoc : m.document = d
    · subst hdoc
      rw [Node.tree, Node.tree, tree_setTree hd]
      exact ((w.tree m.document).planted s).samePlace hm
    · rw [Node.tree, Node.tree, tree_setTree_of_ne hdoc]
      exact fun _ => .rfl

/-- The node has gained the copies. Recorded parents and other documents are the same as before. -/
structure Copied (n : Node) (copies : List Node) (w w' : Workspace) : Prop where
  gained : w.Gained (copies.map (Prod.mk n)) w'
  recorded_eq : ∀ {m : Node}, m.Live w → (m.tree w').recorded m.id = (m.tree w).recorded m.id
  tree_eq : ∀ d, d ≠ n.document → w'.tree d = w.tree d

namespace Copied

variable {copies copies' : List Node}

theorem refl (n : Node) (w : Workspace) : w.Copied n [] w :=
  ⟨.refl w, fun _ => rfl, fun _ _ => rfl⟩

theorem trans (h : w.Copied n copies w') (h' : w'.Copied n copies' w'') :
    w.Copied n (copies ++ copies') w'' := by
  refine ⟨?_, ?_, ?_⟩
  · rw [List.map_append]
    exact h.gained.trans h'.gained
  · intro m hm
    rw [h'.recorded_eq (h.gained.live hm), h.recorded_eq hm]
  · intro d hd
    rw [h'.tree_eq d hd, h.tree_eq d hd]

theorem children_eq (h : w.Copied n copies w') (hn : n.Live w) :
    n.children w' = n.children w ++ copies := by
  have hall : (copies.map (Prod.mk n)).filter (·.1 = n) = copies.map (Prod.mk n) := by
    apply List.filter_eq_self.2
    simp
  rw [h.gained.children_eq hn, hall, List.map_map]
  exact congrArg _ (List.map_id copies)

theorem children_of_ne (h : w.Copied n copies w') {m : Node} (hm : m.Live w) (hne : m ≠ n) :
    m.children w' = m.children w := by
  have hnone : (copies.map (Prod.mk n)).filter (·.1 = m) = [] := by
    apply List.filter_eq_nil_iff.2
    simp [Ne.symm hne]
  rw [h.gained.children_eq hm, hnone, List.map_nil, List.append_nil]

theorem fresh (h : w.Copied n copies w') {c : Node} (hc : c ∈ copies) :
    c.document = n.document ∧ ¬ c.Live w ∧ c.Live w' :=
  h.gained.fresh (n, c) (List.mem_map_of_mem hc)

theorem nodup (h : w.Copied n copies w') : copies.Nodup := by
  have hnodup := h.gained.nodup
  rw [List.map_map] at hnodup
  exact List.map_id copies ▸ hnodup

/-- A copy keeps its value while more copies are appended to a node that does not lie below it. -/
theorem statement_eq (h : w.Copied n copies w') (hw : w.Sound) (hw' : w'.Sound) {c : Node}
    (hc : c.Live w) (hbelow : ¬ c.Contains n w) : c.statement w' = c.statement w := by
  apply (h.gained.statement_eq_iff hw hw' hc).2
  rw [List.forall_mem_map]
  exact fun _ _ => hbelow

end Copied

end Workspace

theorem Document.outcome_receiveNode_copy (d : Document) (m : Node) (w : Workspace) :
    (d.receiveNode true m).outcome w =
      (.ok (w.tree d).size, w.setTree d ((w.tree d).plant (m.statement w)).1) := by
  by_cases hdoc : m.document = d
  · rw [outcome_receiveNode_own w d hdoc, if_pos rfl]
  · rw [outcome_receiveNode_foreign w d hdoc, if_pos rfl]

namespace Node

variable {w w' : Workspace} {n m : Node} {items : List Node}

/-- Copies are accepted everywhere: nothing moves, so nothing can be in the way. -/
theorem append_copies_ok (hw : w.Sound) (hn : n.Live w) (hitems : ∀ m ∈ items, m.Live w) :
    ∃ w', (n.append (items.map .node) true).outcome w = (.ok (), w') := by
  have hlive : ∀ e ∈ items.map Expr.node, e.Live w := by
    simpa [Expr.Live, Expr.nodes] using hitems
  obtain ⟨_, w', hok⟩ := (append_checked hw hn hlive true).returns
    (by simp [Expr.moving]) (by simp [Expr.Ordinary, Expr.keywords])
  exact ⟨w', hok⟩

theorem append_copy_eq_ok {d : Document} {p : Nat} (hw : w.Sound) (hp : (⟨d, p⟩ : Node).Live w)
    (hok : ((⟨d, p⟩ : Node).append [.node m] true).outcome w = (.ok (), w')) :
    (d.attach p (w.tree d).size).outcome (w.setTree d ((w.tree d).plant (m.statement w)).1) =
      (.ok (), w') := by
  obtain ⟨-, id, hid⟩ := (append_singleton_eq_ok_iff hw hp).1 hok
  unfold receive at hid
  obtain ⟨id', w₁, hplant, hrest⟩ := Build.outcome_bind_eq_ok hid
  rw [Document.receive, Document.outcome_receiveNode_copy] at hplant
  obtain ⟨rfl, rfl⟩ := Build.ok_inj hplant
  obtain ⟨_, w₂, hattach, hlast⟩ := Build.outcome_bind_eq_ok hrest
  obtain ⟨-, rfl⟩ := Build.ok_inj hlast
  exact hattach

theorem append_copy (hw : w.Sound) (hn : n.Live w)
    (hok : (n.append [.node m] true).outcome w = (.ok (), w')) :
    ∃ c : Node, w.Copied n [c] w' ∧ c.statement w' = m.statement w := by
  obtain ⟨d, p⟩ := n
  have hd : w.Has d := hn.has
  have hp : p < (w.tree d).size := hn
  have hattach := append_copy_eq_ok hw hn hok
  have hplanted := (w.tree d).planted (m.statement w)
  have hgained := Workspace.Gained.plant hw hd (m.statement w)
  have hforest := hplanted.forest (hw d hd)
  have hw₁ := (Workspace.edits_setTree hd (.single (.plant (m.statement w)))).sound hw
  have hsize := hplanted.size_eq
  have hpos := (m.statement w).size_pos
  have hnew : (w.tree d).size < ((w.tree d).plant (m.statement w)).1.size := by omega
  have hold := Nat.lt_trans hp hnew
  obtain ⟨t, ht, rfl⟩ := Document.attach_eq_ok hattach
  rw [Workspace.tree_setTree hd] at ht
  rw [Workspace.setTree_setTree] at hattach ⊢
  have htree : (w.setTree d t).tree d = t := Workspace.tree_setTree hd
  refine ⟨⟨d, (w.tree d).size⟩, ⟨?_, ?_, ?_⟩, ?_⟩
  · refine hgained.attach hw hw₁ hn rfl (Nat.lt_irrefl _) ?_ hattach
    change _ < ((w.setTree d _).tree d).size
    rwa [Workspace.tree_setTree hd]
  · rintro ⟨d', x⟩ hx
    by_cases hdoc : d' = d
    · subst hdoc
      have hne : x ≠ (w.tree d').size := Nat.ne_of_lt hx
      rw [tree, htree, Tree.recorded_attach hnew ht, if_neg hne, Tree.recorded,
        hplanted.row_eq x hx]
      rfl
    · rw [tree, Workspace.tree_setTree_of_ne hdoc]
      rfl
  · intro d' hne
    exact Workspace.tree_setTree_of_ne hne
  · have hbelow := hforest.sameBelow_attach hold ht
    rw [statement, tree, htree]
    exact (hforest.attach hold hnew ht).snapshot_eq_of_holds (hbelow.holds hplanted.holds)

/-- Any number of copies. Each has the value of its item at the time when it was its turn. -/
theorem append_copies_in_turn (hw : w.Sound) (hn : n.Live w) (hitems : ∀ m ∈ items, m.Live w)
    (hok : (n.append (items.map .node) true).outcome w = (.ok (), w')) :
    ∃ copies, w.Copied n copies w' ∧ copies.length = items.length ∧
      ∀ i m c w₁, items[i]? = some m → copies[i]? = some c →
        (n.append ((items.take i).map .node) true).outcome w = (.ok (), w₁) →
        c.statement w' = m.statement w₁ := by
  induction items generalizing w with
  | nil =>
    obtain ⟨-, rfl⟩ := Build.ok_inj hok
    exact ⟨[], .refl n w, rfl, by simp⟩
  | cons m items ih =>
    rw [List.forall_mem_cons] at hitems
    have hlive : (Expr.node m).Live w := by simpa [Expr.Live, Expr.nodes] using hitems.1
    obtain ⟨w₁, hfirst, hrest⟩ := (append_cons_eq_ok_iff hw hn hlive).1 hok
    obtain ⟨c, hcopied, hvalue⟩ := append_copy hw hn hfirst
    have hedits := ((append_safe hw hn (by simpa using hlive) true).of_ok hfirst).1
    have hw₁ := hedits.sound hw
    have hn₁ := hedits.live hn
    have hitems₁ : ∀ m ∈ items, m.Live w₁ := fun m hm => hedits.live (hitems.2 m hm)
    have hlive₁ : ∀ e ∈ items.map Expr.node, e.Live w₁ := by
      simpa [Expr.Live, Expr.nodes] using hitems₁
    have hw' := ((append_safe hw₁ hn₁ hlive₁ true).of_ok hrest).1.sound hw₁
    obtain ⟨copies, hcopies, hlength, hvalues⟩ := ih hw₁ hn₁ hitems₁ hrest
    refine ⟨c :: copies, hcopied.trans hcopies, by rw [List.length_cons, hlength, List.length_cons],
      ?_⟩
    intro i
    cases i with
    | zero =>
      intro m' c' w₂ hm hc hprefix
      obtain rfl := Option.some.inj hm
      obtain rfl := Option.some.inj hc
      obtain ⟨-, rfl⟩ := Build.ok_inj hprefix
      -- the node does not lie below the copy, which is new, so the copy stays as it is
      have hnew := (hcopied.fresh List.mem_cons_self).2
      rw [← hvalue]
      exact hcopies.statement_eq hw₁ hw' hnew.2
        (hcopied.gained.not_contains_fresh hw hw₁ hn hnew.1)
    | succ i =>
      intro m' c' w₂ hm hc hprefix
      obtain ⟨w₃, hfirst', hrest'⟩ := (append_cons_eq_ok_iff hw hn hlive).1 hprefix
      obtain ⟨-, rfl⟩ := Build.ok_inj (hfirst.symm.trans hfirst')
      exact hvalues i m' c' w₂ hm hc hrest'

end Node

namespace Workspace

variable {w : Workspace} {n : Node} {items : List Node}

/-- Copies can be appended to any node, in any number and of whatever nodes there are, also of the
node itself and of those that contain it. They are new statements at the end of the list of the
node, and nothing else is different. The value of each copy is the one that its item has after the
copies before it. -/
theorem append_copies (hw : w.Reachable) (hn : n.Live w) (hitems : ∀ m ∈ items, m.Live w) :
    ∃ copies w', (n.append (items.map .node) true).outcome w = (.ok (), w') ∧
      (∀ m : Node, m.Live w → m.keyword w' = m.keyword w ∧ m.argument w' = m.argument w ∧
        (m.tree w').recorded m.id = (m.tree w).recorded m.id ∧
        (m ≠ n → m.children w' = m.children w)) ∧
      n.children w' = n.children w ++ copies ∧
      copies.length = items.length ∧ copies.Nodup ∧
      (∀ c ∈ copies, c.document = n.document ∧ ¬ c.Live w ∧ c.Live w') ∧
      (∀ d, d ≠ n.document → w'.tree d = w.tree d) ∧
      ∀ i m c, items[i]? = some m → copies[i]? = some c →
        ∃ w₁, (n.append ((items.take i).map .node) true).outcome w = (.ok (), w₁) ∧
          c.statement w' = m.statement w₁ := by
  obtain ⟨w', hok⟩ := Node.append_copies_ok hw.sound hn hitems
  obtain ⟨copies, hcopied, hlength, hvalues⟩ := Node.append_copies_in_turn hw.sound hn hitems hok
  refine ⟨copies, w', hok, ?_, hcopied.children_eq hn, hlength, hcopied.nodup,
    fun c hc => hcopied.fresh hc, hcopied.tree_eq, ?_⟩
  · intro m hm
    obtain ⟨hkeyword, hargument⟩ := hcopied.gained.header_eq hm
    exact ⟨hkeyword, hargument, hcopied.recorded_eq hm, hcopied.children_of_ne hm⟩
  · intro i m c hm hc
    obtain ⟨w₁, hprefix⟩ := Node.append_copies_ok hw.sound hn
      fun m hm => hitems m (List.mem_of_mem_take hm)
    exact ⟨w₁, hprefix, hvalues i m c w₁ hm hc hprefix⟩

/-- A container receives a copy of itself and then one of the root, in which the first one shows. -/
theorem append_copies_sample :
    sample.Reachable ∧ ∃ itself top w',
      ((⟨⟨0⟩, 2⟩ : Node).append [.node ⟨⟨0⟩, 2⟩, .node ⟨⟨0⟩, 0⟩] true).outcome sample =
        (.ok (), w') ∧
      (⟨⟨0⟩, 2⟩ : Node).children w' = [⟨⟨0⟩, 1⟩, itself, top] ∧
      itself.statement w' = ⟨"container", some "c", [⟨"leaf", some "l", []⟩]⟩ ∧
      top.statement w' = ⟨"module", some "a", [⟨"container", some "c", [⟨"leaf", some "l", []⟩,
        ⟨"container", some "c", [⟨"leaf", some "l", []⟩]⟩]⟩]⟩ := by
  obtain ⟨copies, w', hok, -, hchildren, hlength, -, -, -, hvalues⟩ :=
    @append_copies sample ⟨⟨0⟩, 2⟩ [⟨⟨0⟩, 2⟩, ⟨⟨0⟩, 0⟩] reachable_sample (by decide) (by decide)
  obtain ⟨itself, top, rfl⟩ := List.length_eq_two.1 hlength
  obtain ⟨w₁, hnone, hitself⟩ := hvalues 0 _ itself rfl rfl
  obtain ⟨w₂, hone, htop⟩ := hvalues 1 _ top rfl rfl
  obtain rfl := congrArg Prod.snd hnone
  obtain rfl := congrArg Prod.snd hone
  refine ⟨reachable_sample, itself, top, w', hok, hchildren.trans rfl, ?_, ?_⟩
  · exact hitself.trans (by decide)
  · exact htop.trans (by decide)

end Workspace

end YangDoc
