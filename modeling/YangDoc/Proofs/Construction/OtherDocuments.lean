import YangDoc.Proofs.Construction.Reachable
import YangDoc.Proofs.Construction.Taking

/-!
# What a call does to other documents

A call is made on one document. From another document it reads values, and it takes out of their
lists the nodes that it moves; nothing else changes there. Which nodes these are is read off the
call: all that its expressions name, except where it copies.
-/

namespace YangDoc

variable {w : Workspace} {d d' : Document}

namespace Call

/-- The call is made on the document: on the document itself, below one of its nodes, or below
nodes all of which belong to it. -/
def On (d : Document) : Call → Prop
  | build d' .. | buildByMethod d' .. | comment d' _ | blankLine d' | express d' .. | ofJson d' _ =>
    d' = d
  | buildBelow n .. | buildBelowByMethod n .. | commentBelow n _ | blankLineBelow n
  | expressBelow n _ | append n .. => n.document = d
  | buildBelowAll nodes .. | buildBelowAllByMethod nodes .. => ∀ n ∈ nodes, n.document = d

def exprs : Call → List Expr
  | build _ _ input _ | buildByMethod _ _ _ input | buildBelow _ _ input
  | buildBelowByMethod _ _ _ input | buildBelowAll _ _ input | buildBelowAllByMethod _ _ input =>
    input.children
  | express _ e _ | expressBelow _ e => [e]
  | append _ items _ => items
  | comment .. | blankLine _ | ofJson .. | commentBelow .. | blankLineBelow _ => []

/-- The nodes that the call takes out of their places, at any depth of its expressions. An item
that is to be copied and a node that is expressed by itself stay, and so do all nodes given to a
broadcast. -/
def leaving : Call → List Node
  | build _ _ input _ | buildByMethod _ _ _ input | buildBelow _ _ input
  | buildBelowByMethod _ _ _ input => Expr.nodesAll input.children
  | express _ e _ => e.moving true
  | expressBelow _ e => e.nodes
  | append _ items copy => items.flatMap (·.moving copy)
  | comment .. | blankLine _ | ofJson .. | commentBelow .. | blankLineBelow _
  | buildBelowAll .. | buildBelowAllByMethod .. => []

theorem leaving_subset (c : Call) : c.leaving ⊆ Expr.nodesAll c.exprs := by
  have hmoving : ∀ {copy : Bool} {e : Expr} {es : List Expr}, e ∈ es →
      e.moving copy ⊆ Expr.nodesAll es := by
    intro copy e es he n hn
    refine Expr.mem_nodesAll.2 ⟨e, he, ?_⟩
    cases e with
    | tuple keyword argument children => exact hn
    | statement s => exact hn
    | node m =>
      cases copy with
      | true => simp [Expr.moving] at hn
      | false => exact hn
  cases c with
  | build | buildByMethod | buildBelow | buildBelowByMethod => exact List.Subset.refl _
  | express d e parent => exact hmoving (List.mem_singleton_self e)
  | expressBelow n e =>
    rw [leaving, ← Expr.moving_false]
    exact hmoving (List.mem_singleton_self e)
  | append n items copy =>
    intro m hm
    obtain ⟨e, he, hmem⟩ := List.mem_flatMap.1 hm
    exact hmoving he hmem
  | comment | blankLine | ofJson | commentBelow | blankLineBelow | buildBelowAll
  | buildBelowAllByMethod => exact List.nil_subset _

theorem run_takes (hw : w.Sound) {c : Call} (hc : c.Live w) (hon : c.On d) (hne : d' ≠ d) :
    c.run.Takes w d' c.leaving := by
  obtain ⟨hdocuments, hnodes⟩ := hc
  have hcomment : ∀ (d : Document) argument, w.Has d → d' ≠ d →
      (d.build Keyword.comment { argument }).Takes w d' [] := fun d argument hd hne =>
    Document.build_takes hw hd hne Keyword.comment none (by simp [Expr.nodesAll])
  cases c with
  | build d keyword input parent =>
    obtain rfl : d = _ := hon
    refine (Document.build_takes hw (hdocuments d (List.mem_singleton_self d)) hne keyword parent
      ?_).discard
    exact fun n hn => hnodes n (List.mem_append_right _ hn)
  | buildByMethod d method qualifier input =>
    obtain rfl : d = _ := hon
    exact (Document.build_takes hw (hdocuments d (List.mem_singleton_self d)) hne _ none
      hnodes).discard
  | comment d text =>
    obtain rfl : d = _ := hon
    exact (hcomment d _ (hdocuments d (List.mem_singleton_self d)) hne).discard
  | blankLine d =>
    obtain rfl : d = _ := hon
    exact (hcomment d _ (hdocuments d (List.mem_singleton_self d)) hne).discard
  | express d e parent =>
    obtain rfl : d = _ := hon
    refine (Document.express_takes hw (hdocuments d (List.mem_singleton_self d)) hne parent
      ?_).discard
    exact fun n hn => hnodes n (List.mem_append_right _ hn)
  | ofJson d value =>
    obtain rfl : d = _ := hon
    exact (Document.ofJson_takes hw (hdocuments d (List.mem_singleton_self d)) hne value).discard
  | buildBelow n keyword input =>
    obtain rfl : n.document = _ := hon
    rw [nodes, List.forall_mem_cons] at hnodes
    exact (Node.build_takes hw hnodes.1 hne keyword hnodes.2).discard
  | buildBelowByMethod n method qualifier input =>
    obtain rfl : n.document = _ := hon
    rw [nodes, List.forall_mem_cons] at hnodes
    exact (Node.build_takes hw hnodes.1 hne _ hnodes.2).discard
  | commentBelow n text =>
    obtain rfl : n.document = _ := hon
    have hn := (hnodes n (List.mem_singleton_self n)).has
    exact (Node.attach_built_takes hne (hcomment _ _ hn hne)).discard
  | blankLineBelow n =>
    obtain rfl : n.document = _ := hon
    have hn := (hnodes n (List.mem_singleton_self n)).has
    exact (Node.attach_built_takes hne (hcomment _ _ hn hne)).discard
  | expressBelow n e =>
    obtain rfl : n.document = _ := hon
    rw [nodes, List.forall_mem_cons] at hnodes
    exact (Node.express_takes hw hnodes.1 hne hnodes.2).discard
  | append n items copy =>
    obtain rfl : n.document = _ := hon
    rw [nodes, List.forall_mem_cons] at hnodes
    exact Node.append_takes hw hnodes.1 hne copy fun e he m hm =>
      hnodes.2 m (Expr.mem_nodesAll.2 ⟨e, he, hm⟩)
  | buildBelowAll members keyword input =>
    rw [nodes, List.forall_mem_append] at hnodes
    exact (NodeList.build_takes hw hnodes.1 (fun n hn => hon n hn ▸ hne) keyword input).discard
  | buildBelowAllByMethod members method input =>
    rw [nodes, List.forall_mem_append] at hnodes
    exact (NodeList.build_takes hw hnodes.1 (fun n hn => hon n hn ▸ hne) _ input).discard

end Call

namespace Workspace

/-- Whatever the call and however it ends, another document keeps its statements, and its lists
lose at most nodes that the call was given to move; they lose all of these if it succeeds. -/
theorem other_documents (hw : w.Reachable) {c : Call} (hc : c.Live w) (hon : c.On d)
    (hne : d' ≠ d) :
    c.leaving ⊆ Expr.nodesAll c.exprs ∧
    (∃ gone, gone ⊆ c.leaving ∧ Lost d' gone w (c.run.outcome w).2) ∧
    ((c.run.outcome w).1 = .ok () → Lost d' c.leaving w (c.run.outcome w).2) := by
  have htakes := Call.run_takes hw.sound hc hon hne
  exact ⟨c.leaving_subset, htakes.partly, htakes.fully ()⟩

/-- Of two nodes of the first document that are copied to the second, the one inside a tuple leaves
its list. -/
theorem other_documents_sample :
    sample.Reachable ∧ ∃ w',
      ((⟨⟨1⟩, 0⟩ : Node).append
        [.node ⟨⟨0⟩, 2⟩, .tuple "list" none [.node ⟨⟨0⟩, 1⟩]] true).outcome sample = (.ok (), w') ∧
      Lost ⟨0⟩ [⟨⟨0⟩, 1⟩] sample w' ∧
      (⟨⟨0⟩, 0⟩ : Node).children w' = [⟨⟨0⟩, 2⟩] ∧ (⟨⟨0⟩, 2⟩ : Node).children w' = [] := by
  obtain ⟨-, -, hlost⟩ := other_documents reachable_sample
    (c := .append ⟨⟨1⟩, 0⟩ [.node ⟨⟨0⟩, 2⟩, .tuple "list" none [.node ⟨⟨0⟩, 1⟩]] true)
    (d := ⟨1⟩) ⟨by simp [Call.documents], by decide⟩ rfl (show (⟨0⟩ : Document) ≠ ⟨1⟩ by decide)
  exact ⟨reachable_sample, _, rfl, hlost rfl, by decide, by decide⟩

end Workspace

end YangDoc
