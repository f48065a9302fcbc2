import YangDoc.Proofs.Construction.Frame
import YangDoc.Proofs.Construction.Reachable
import YangDoc.Proofs.Construction.Receiving
import YangDoc.Proofs.Expr.Denotation

/-!
# Building means what the expressions say

A statement that was built holds what the expressions stood for before the call, in their order.
The expressions are received one after the other, and each may move nodes that were named; so the
argument needs that no node named lies at or below another. Then nothing that has been received is
touched again: below it there are only new statements and what lay below the nodes that its own
expression names.
-/

namespace YangDoc

open Relation

/-- No node that the expressions name lies at or below another one. -/
def Expr.Separate (es : List Expr) (w : Workspace) : Prop :=
  (nodesAll es).Pairwise fun n m => ¬ n.Contains m w ∧ ¬ m.Contains n w

@[simp] theorem Expr.nodesAll_singleton (e : Expr) : nodesAll [e] = e.nodes := by
  rw [nodesAll, nodesAll, List.append_nil]

namespace Document

/-- The expressions have been received under `ids`. -/
structure Materialized (d : Document) (w : Workspace) (es : List Expr) (ids : List Nat)
    (w' : Workspace) : Prop where
  kept : w.Kept (Expr.nodesAll es) w'
  holds : (w'.tree d).HoldsAll ids (Expr.denoteAll w es)
  realizes : Expr.RealizesAll (w'.tree d) d (w.tree d).size ids es
  below : ∀ id ∈ ids, ∀ x, (w'.tree d).Above id x →
    (w.tree d).size ≤ x ∨ ∃ n ∈ Expr.nodesAll es, n.Contains ⟨d, x⟩ w
  apart : ids.Pairwise (w'.tree d).Apart
  fits : ∀ id ∈ ids, d.Fits id w'

variable {w w' w'' : Workspace} {d : Document} {e : Expr} {es : List Expr} {ids : List Nat}
  {id : Nat} {t : Tree}

namespace Materialized

/-- What has been received shares nothing with a node that lies apart from all nodes named. -/
theorem not_contains (h : d.Materialized w es ids w') (hw : w.Sound) {m : Node} (hm : m.Live w)
    (hapart : ∀ n ∈ Expr.nodesAll es, ¬ n.Contains m w ∧ ¬ m.Contains n w) (hid : id ∈ ids)
    {x : Nat} (hx : (w'.tree d).Above id x) : ¬ m.Contains ⟨d, x⟩ w := by
  rintro ⟨rfl, hmx⟩
  have hforest := hw _ hm.has
  have hlt := hforest.above_lt_size hmx hm
  rcases h.below id hid x hx with hnew | ⟨n, hn, hdoc, hnx⟩
  · exact absurd hlt (Nat.not_lt.2 hnew)
  · -- `n` and `m` both lie above `x`, so one lies above the other
    obtain ⟨hnm, hmn⟩ := hapart n hn
    have hnx' : (m.tree w).Above n.id x := by
      rw [Node.tree, hdoc]
      exact hnx
    rcases hforest.above_total hnx' hmx with habove | habove
    · exact hnm ⟨hdoc, by rwa [Node.tree, ← hdoc]⟩
    · exact hmn ⟨hdoc.symm, habove⟩

theorem cons {rest : List Expr} (hw : w.Sound) (hw' : w'.Sound) (hd : w'.Has d)
    (hlive : ∀ n ∈ Expr.nodesAll (e :: rest), n.Live w) (hsep : Expr.Separate (e :: rest) w)
    (h : d.Materialized w [e] [id] w') (hrest : d.Materialized w' rest ids w'') :
    d.Materialized w (e :: rest) (id :: ids) w'' := by
  rw [Expr.Separate, Expr.nodesAll, List.pairwise_append] at hsep
  rw [Expr.nodesAll, List.forall_mem_append] at hlive
  have hkept : w.Kept e.nodes w' := Expr.nodesAll_singleton e ▸ h.kept
  have hsize : (w.tree d).size ≤ (w'.tree d).size := (hkept d).size_le
  have hid : id ∈ [id] := List.mem_singleton_self id
  have hfits := h.fits id hid
  have hlive' : ∀ m ∈ Expr.nodesAll rest, m.Live w' := fun m hm =>
    Nat.lt_of_lt_of_le (hlive.2 m hm) (hkept m.document).size_le
  -- nothing below `id` is named by the expressions that follow
  have hfree : ∀ m ∈ Expr.nodesAll rest, ∀ x, (w'.tree d).Above id x → ¬ m.Contains ⟨d, x⟩ w := by
    intro m hm x hx
    refine h.not_contains hw (hlive.2 m hm) ?_ hid hx
    rw [Expr.nodesAll_singleton]
    exact fun n hn => hsep.2.2 n hn m hm
  have hsame : (w'.tree d).SameBelow (w''.tree d) id :=
    (hrest.kept d).sameBelow (hw' d hd) hfits fun c hc hmoved =>
      hfree _ hmoved c hc ⟨rfl, .refl⟩
  have hdenote : Expr.denoteAll w' rest = Expr.denoteAll w rest :=
    (Expr.denoteAll_eq_iff rest).2 fun m hm => hkept.statement_eq hw hw' (hlive.2 m hm)
      (hlive' m hm) fun n hn => (hsep.2.2 n hn m hm).2
  refine ⟨?_, ⟨_, _, rfl, ?_, hdenote ▸ hrest.holds⟩, ⟨_, _, rfl, ?_, ?_⟩, ?_, ?_, ?_⟩
  · exact (hkept.mono (List.subset_append_left ..)).trans
      (hrest.kept.mono (List.subset_append_right ..))
  · exact hsame.holds (Tree.holdsAll_singleton.1 h.holds)
  · exact (Expr.realizesAll_singleton.1 h.realizes).congr le_rfl e hsame
  · exact hrest.realizes.congr hsize rest fun c _ => .refl _ c
  · rw [List.forall_mem_cons]
    refine ⟨fun x hx => ?_, fun i hi x hx => ?_⟩
    · rcases h.below id hid x (hsame.above hx) with hnew | ⟨n, hn, hnx⟩
      · exact .inl hnew
      · rw [Expr.nodesAll_singleton] at hn
        exact .inr ⟨n, List.mem_append_left _ hn, hnx⟩
    · rcases hrest.below i hi x hx with hnew | ⟨m, hm, hmx⟩
      · exact .inl (hsize.trans hnew)
      · exact .inr ⟨m, List.mem_append_right _ hm, hkept.contains hw (hlive.2 m hm) hmx⟩
  · rw [List.pairwise_cons]
    refine ⟨fun i hi x hidx hix => ?_, hrest.apart⟩
    have hx := hsame.above hidx
    rcases hrest.below i hi x hix with hnew | ⟨m, hm, hmx⟩
    · exact absurd ((hw' d hd).above_lt_size hx hfits) (Nat.not_lt.2 hnew)
    · exact hfree m hm x hx (hkept.contains hw (hlive.2 m hm) hmx)
  · rw [List.forall_mem_cons]
    exact ⟨Nat.lt_of_lt_of_le hfits (hrest.kept d).size_le, hrest.fits⟩

theorem assembled {k : String} {arg : Option String} (h : d.Materialized w es ids w')
    (hw' : w'.Sound) (hd : w'.Has d) (ht : (w'.tree d).Assembled k arg ids id t) :
    t.Holds id ⟨k, arg, Expr.denoteAll w es⟩ ∧
      Expr.RealizesAll t d (w.tree d).size (t.children id) es := by
  refine ⟨ht.holds (hw' d hd) h.fits h.apart h.holds, ?_⟩
  rw [ht.children_of_apart h.apart]
  exact h.realizes.congr le_rfl es (ht.sameBelow (hw' d hd) h.fits h.apart)

theorem tuple {k : String} {arg : Option String} (h : d.Materialized w es ids w')
    (hw' : w'.Sound) (hd : w'.Has d) (hsize : (w'.tree d).size < t.size)
    (ht : (w'.tree d).Assembled k arg ids (w'.tree d).size t) :
    d.Materialized w [.tuple k arg es] [(w'.tree d).size] (w'.setTree d t) := by
  obtain ⟨hholds, hrealizes⟩ := h.assembled hw' hd ht
  have hold : (w.tree d).size ≤ (w'.tree d).size := (h.kept d).size_le
  have htree : (w'.setTree d t).tree d = t := Workspace.tree_setTree hd
  refine ⟨?_, ?_, ?_, ?_, List.pairwise_singleton .., ?_⟩
  · intro d'
    rw [Expr.nodesAll_singleton, Expr.nodes]
    by_cases heq : d' = d
    · subst heq
      rw [htree]
      refine (h.kept d').trans (ht.kept hsize.le) fun c hc hmem => ?_
      exact (h.realizes.le_or_mem c hmem).resolve_left (Nat.not_le.2 hc)
    · rw [Workspace.tree_setTree_of_ne heq]
      exact h.kept d'
  · rw [htree]
    exact Tree.holdsAll_singleton.2 hholds
  · rw [htree]
    exact Expr.realizesAll_singleton.2 ⟨hold, hrealizes⟩
  · intro i hi x hx
    rw [List.mem_singleton.1 hi, htree] at hx
    rw [Expr.nodesAll_singleton, Expr.nodes]
    rcases ReflTransGen.cases_head hx with rfl | ⟨c, hc, hcx⟩
    · exact .inl hold
    · have hmem : c ∈ ids := by
        rwa [Tree.Lists, ht.children_of_apart h.apart] at hc
      exact h.below c hmem x ((ht.sameBelow (hw' d hd) h.fits h.apart c hmem).above hcx)
  · intro i hi
    rw [List.mem_singleton.1 hi, Fits, htree]
    exact hsize

end Materialized

/-! ### Receiving -/

theorem materialized_copy (hkept : w.Kept e.nodes w')
    (htree : w'.tree d = ((w.tree d).plant (e.denote w)).1)
    (he : ∀ t size id, (∀ x, t.Above id x → size ≤ x) → e.Realizes t d size id) :
    d.Materialized w [e] [(w.tree d).size] w' := by
  have hplanted := (w.tree d).planted (e.denote w)
  rw [← htree] at hplanted
  have hnew : ∀ x, (w'.tree d).Above (w.tree d).size x → (w.tree d).size ≤ x := by
    intro x hx
    exact hx.mem_of_closed (S := fun x => (w.tree d).size ≤ x)
      (fun hq hlist => (hplanted.fresh hq hlist).1.le) le_rfl
  refine ⟨?_, Tree.holdsAll_singleton.2 hplanted.holds,
    Expr.realizesAll_singleton.2 (he _ _ _ hnew), ?_, List.pairwise_singleton .., ?_⟩
  · rwa [Expr.nodesAll_singleton]
  · intro id hid x hx
    rw [List.mem_singleton.1 hid] at hx
    exact .inl (hnew x hx)
  · intro id hid
    have hsize := hplanted.size_eq
    have hpos := (e.denote w).size_pos
    rw [List.mem_singleton.1 hid, Fits]
    omega

theorem receiveNode_materialized (hw : w.Sound) (hd : w.Has d) {n : Node} (hn : n.Live w)
    (hok : (d.receiveNode false n).outcome w = (.ok id, w')) :
    d.Materialized w [.node n] [id] w' := by
  by_cases hdoc : n.document = d
  · rw [outcome_receiveNode_own w d hdoc] at hok
    obtain ⟨rfl, rfl⟩ := Build.ok_inj hok
    subst hdoc
    refine ⟨.refl _ _, Tree.holdsAll_singleton.2 ((hw _ hd).holds_snapshot n.id),
      Expr.realizesAll_singleton.2 ?_, ?_, List.pairwise_singleton .., ?_⟩
    · rw [Expr.Realizes, if_pos rfl]
    · intro i hi x hx
      rw [List.mem_singleton.1 hi] at hx
      exact .inr ⟨n, by simp [Expr.nodes], rfl, hx⟩
    · intro i hi
      rw [List.mem_singleton.1 hi]
      exact hn
  · rw [outcome_receiveNode_foreign w d hdoc, if_neg Bool.false_ne_true] at hok
    obtain ⟨rfl, rfl⟩ := Build.ok_inj hok
    have hplant : w.Kept [n] (w.setTree d ((w.tree d).plant (n.statement w)).1) :=
      Workspace.Kept.setTree hd (((w.tree d).planted _).kept _)
    have hdetach : (n.tree w).Kept (fun c => (⟨n.document, c⟩ : Node) ∈ [n])
        ((n.tree w).detach n.id) := (hw _ hn.has).kept_detach (List.mem_singleton_self n)
    refine materialized_copy (hplant.trans ?_) ?_ ?_
    · refine Workspace.Kept.setTree (Workspace.has_setTree.2 hn.has) ?_
      rwa [Workspace.tree_setTree_of_ne hdoc]
    · rw [Workspace.tree_setTree_of_ne (Ne.symm hdoc), Workspace.tree_setTree hd]
      rfl
    · intro t size id hnew
      rwa [Expr.Realizes, if_neg hdoc]

theorem construct_materialized {keyword : String} {argument : Option String}
    {parent : Option Node} {children : List Expr} (hw : w.Sound) (hd : w.Has d)
    (hlive : ∀ n ∈ Expr.nodesAll children, n.Live w) (hroot : Keyword.isRoot keyword = false)
    (hchildren : ∀ ids w₁, (d.receiveAll children).outcome w = (.ok ids, w₁) →
      d.Materialized w children ids w₁)
    (hok : (d.construct keyword argument parent children (d.receiveAll children)).outcome w =
      (.ok id, w')) :
    d.Materialized w [.tuple keyword argument children] [id] w' := by
  obtain ⟨-, parentId, ids, w₁, t, -, hids, hassemble, rfl⟩ := construct_inv hok
  have hedits := ((receiveAll_safe children hw hd hlive).of_ok hids).1
  have hw₁ := hedits.sound hw
  have hd₁ := hedits.has_iff.2 hd
  have hall := hchildren ids w₁ hids
  obtain ⟨rfl, hnew⟩ := (hw₁ d hd₁).assembled_new hroot hall.fits hassemble
  have hsize := ((hw₁ d hd₁).assemble_edits keyword argument parentId ids hall.fits).2
    (w₁.tree d).size (by rw [hassemble])
  rw [hassemble] at hsize
  exact hall.tuple hw₁ hd₁ hsize hnew

mutual

theorem receive_materialized : ∀ {w w' : Workspace} {id : Nat} (e : Expr), w.Sound → w.Has d →
    e.Live w → e.Ordinary → Expr.Separate [e] w →
    (d.receive false e).outcome w = (.ok id, w') → d.Materialized w [e] [id] w'
  | _, _, _, .node n, hw, hd, hlive, _, _, hok => by
    rw [receive] at hok
    exact receiveNode_materialized hw hd (hlive n (List.mem_singleton_self n)) hok
  | w, _, _, .statement s, _, hd, _, _, _, hok => by
    rw [receive, outcome_plant] at hok
    obtain ⟨rfl, rfl⟩ := Build.ok_inj hok
    exact materialized_copy (Workspace.Kept.setTree hd (((w.tree d).planted s).kept _))
      (Workspace.tree_setTree hd) fun _ _ _ hnew => hnew
  | w, _, _, .tuple keyword argument children, hw, hd, hlive, hordinary, hsep, hok => by
    rw [Expr.ordinary_tuple_iff] at hordinary
    rw [Expr.Separate, Expr.nodesAll_singleton, Expr.nodes] at hsep
    rw [receive] at hok
    exact construct_materialized hw hd hlive hordinary.1.2
      (fun _ _ hids => receiveAll_materialized children hw hd hlive hordinary.2 hsep hids) hok

theorem receiveAll_materialized : ∀ {w w' : Workspace} {ids : List Nat} (es : List Expr),
    w.Sound → w.Has d → (∀ n ∈ Expr.nodesAll es, n.Live w) → (∀ e ∈ es, e.Ordinary) →
    Expr.Separate es w → (d.receiveAll es).outcome w = (.ok ids, w') → d.Materialized w es ids w'
  | _, _, _, [], _, _, _, _, _, hok => by
    rw [receiveAll] at hok
    obtain ⟨rfl, rfl⟩ := Build.ok_inj hok
    exact ⟨.refl _ _, rfl, rfl, by simp, .nil, by simp⟩
  | w, _, _, e :: rest, hw, hd, hlive, hordinary, hsep, hok => by
    rw [receiveAll] at hok
    obtain ⟨id, w₁, hid, hrest⟩ := Build.outcome_bind_eq_ok hok
    obtain ⟨ids, w₂, hids, hlast⟩ := Build.outcome_bind_eq_ok hrest
    obtain ⟨rfl, rfl⟩ := Build.ok_inj hlast
    have he : e.Live w := fun n hn => hlive n (List.mem_append_left _ hn)
    have hedits := ((receive_safe false e hw hd he).of_ok hid).1
    have hw₁ := hedits.sound hw
    have hd₁ := hedits.has_iff.2 hd
    have hsplit := hsep
    rw [Expr.Separate, Expr.nodesAll, List.pairwise_append] at hsplit
    rw [List.forall_mem_cons] at hordinary
    have hfirst := receive_materialized e hw hd he hordinary.1
      (by rw [Expr.Separate, Expr.nodesAll_singleton]; exact hsplit.1) hid
    have hkept : w.Kept e.nodes w₁ := Expr.nodesAll_singleton e ▸ hfirst.kept
    have hlater : ∀ m ∈ Expr.nodesAll rest, m.Live w := fun m hm =>
      hlive m (List.mem_append_right _ hm)
    have hnext := receiveAll_materialized rest hw₁ hd₁ (fun m hm => hedits.live (hlater m hm))
      hordinary.2 (hsplit.2.1.imp_of_mem fun hn hm h =>
        ⟨fun hc => h.1 (hkept.contains hw (hlater _ hn) hc),
          fun hc => h.2 (hkept.contains hw (hlater _ hm) hc)⟩) hids
    exact hfirst.cons hw hw₁ hd₁ hlive hsep hnext

end

/-! ### Building -/

/-- The node is what the tuple of these parts says: its value is the one that the tuple stood for,
nodes of the document are in it under their old positions, and all else in it is new. With a root
keyword it is the root of the document. -/
structure Built (d : Document) (w : Workspace) (keyword : String) (argument : Option String)
    (children : List Expr) (n : Node) (w' : Workspace) : Prop where
  document_eq : n.document = d
  statement_eq : n.statement w' = ⟨keyword, argument, children.map (Expr.denote w)⟩
  realizes : Expr.RealizesAll (n.tree w') d (w.tree d).size ((n.tree w').children n.id) children
  place : if Keyword.isRoot keyword then n = d.root else (w.tree d).size ≤ n.id

variable {keyword : String} {argument : Option String} {children : List Expr}

theorem build_built (hw : w.Sound) (hd : w.Has d)
    (hlive : ∀ n ∈ Expr.nodesAll children, n.Live w) (hordinary : ∀ e ∈ children, e.Ordinary)
    (hsep : Expr.Separate children w) {parent : Option Node} {n : Node}
    (hok : (d.build keyword { argument, children } parent).outcome w = (.ok n, w')) :
    d.Built w keyword argument children n w' := by
  obtain ⟨id, w₂, hconstruct, hlast⟩ := Build.outcome_bind_eq_ok hok
  obtain ⟨rfl, rfl⟩ := Build.ok_inj hlast
  obtain ⟨-, parentId, ids, w₁, t, -, hids, hassemble, rfl⟩ := construct_inv hconstruct
  have hedits := ((receiveAll_safe children hw hd hlive).of_ok hids).1
  have hw₁ := hedits.sound hw
  have hd₁ := hedits.has_iff.2 hd
  have hall := receiveAll_materialized children hw hd hlive hordinary hsep hids
  -- the old list of the root goes only once everything has been received
  have hassembled : (w₁.tree d).Assembled keyword argument ids id t ∧
      if Keyword.isRoot keyword then (⟨d, id⟩ : Node) = d.root else (w.tree d).size ≤ id := by
    cases hroot : Keyword.isRoot keyword with
    | true =>
      obtain ⟨rfl, ht⟩ := (hw₁ d hd₁).assembled_root hroot hall.fits hassemble
      exact ⟨ht, rfl⟩
    | false =>
      obtain ⟨rfl, ht⟩ := (hw₁ d hd₁).assembled_new hroot hall.fits hassemble
      exact ⟨ht, (hall.kept d).size_le⟩
  obtain ⟨ht, hplace⟩ := hassembled
  obtain ⟨hholds, hrealizes⟩ := hall.assembled hw₁ hd₁ ht
  have htree : (w₁.setTree d t).tree d = t := Workspace.tree_setTree hd₁
  have hforest : t.Forest := by
    have hedited := ((hw₁ d hd₁).assemble_edits keyword argument parentId ids hall.fits).1
    rw [hassemble] at hedited
    exact hedited.forest (hw₁ d hd₁)
  refine ⟨rfl, ?_, ?_, hplace⟩
  · rw [Node.statement, Node.tree, htree, ← Expr.denoteAll_eq_map]
    exact hforest.snapshot_eq_of_holds hholds
  · rwa [Node.tree, htree]

theorem build_materialized (hw : w.Sound) (hd : w.Has d)
    (hlive : ∀ n ∈ Expr.nodesAll children, n.Live w) (hordinary : ∀ e ∈ children, e.Ordinary)
    (hsep : Expr.Separate children w) (hroot : Keyword.isRoot keyword = false)
    {parent : Option Node} {n : Node}
    (hok : (d.build keyword { argument, children } parent).outcome w = (.ok n, w')) :
    d.Materialized w [.tuple keyword argument children] [n.id] w' := by
  obtain ⟨id, w₂, hconstruct, hlast⟩ := Build.outcome_bind_eq_ok hok
  obtain ⟨rfl, rfl⟩ := Build.ok_inj hlast
  exact construct_materialized hw hd hlive hroot
    (fun _ _ hids => receiveAll_materialized children hw hd hlive hordinary hsep hids) hconstruct

theorem Built.attach (h : d.Built w keyword argument children ⟨d, id⟩ w') (hw' : w'.Sound)
    (hd : w'.Has d) {p : Nat} (hp : d.Fits p w') (hid : d.Fits id w')
    (hok : (d.attach p id).outcome w' = (.ok (), w'')) :
    d.Built w keyword argument children ⟨d, id⟩ w'' := by
  obtain ⟨t, ht, rfl⟩ := attach_eq_ok hok
  have hsame := (hw' d hd).sameBelow_attach hp ht
  have htree : (w'.setTree d t).tree d = t := Workspace.tree_setTree hd
  refine ⟨rfl, ?_, ?_, h.place⟩
  · rw [← h.statement_eq, Node.statement, Node.tree, htree]
    exact hsame.snapshot_eq (hw' d hd) ((hw' d hd).attach hp hid ht)
  · rw [Node.tree, htree, (hsame id .refl).2]
    exact h.realizes.congr le_rfl children fun c hc => hsame.mono (.single hc)

end Document

theorem Node.build_built {w w' : Workspace} {keyword : String} {argument : Option String}
    {children : List Expr} (hw : w.Sound) {p n : Node} (hp : p.Live w)
    (hlive : ∀ n ∈ Expr.nodesAll children, n.Live w) (hordinary : ∀ e ∈ children, e.Ordinary)
    (hsep : Expr.Separate children w)
    (hok : (p.build keyword { argument, children }).outcome w = (.ok n, w')) :
    p.document.Built w keyword argument children n w' := by
  cases hroot : Keyword.isRoot keyword with
  | true =>
    rw [outcome_build_root w p hroot] at hok
    simp at hok
  | false =>
    rw [build_of_not_root p hroot] at hok
    obtain ⟨child, w₁, hchild, hrest⟩ := Build.outcome_bind_eq_ok hok
    obtain ⟨_, w₂, hattach, hlast⟩ := Build.outcome_bind_eq_ok hrest
    obtain ⟨rfl, rfl⟩ := Build.ok_inj hlast
    have hbuilt := Document.build_built hw hp.has hlive hordinary hsep hchild
    have hsafe : (p.document.build keyword { argument, children } (some p)).Safe w _ :=
      Document.build_safe hw hp.has hlive
    obtain ⟨hedits, -, hfits⟩ := hsafe.of_ok hchild
    obtain ⟨d, id⟩ := child
    obtain rfl : d = p.document := hbuilt.document_eq
    exact hbuilt.attach (hedits.sound hw) (hedits.has_iff.2 hp.has) (hedits.live hp) hfits hattach

namespace Workspace

/-- Whatever is built, in a document or below a node, is what the expressions said before the
call. -/
theorem built_of_expressions {w : Workspace} (hw : w.Reachable) {children : List Expr}
    (hlive : ∀ n ∈ Expr.nodesAll children, n.Live w) (hordinary : ∀ e ∈ children, e.Ordinary)
    (hsep : Expr.Separate children w) (keyword : String) (argument : Option String) :
    (∀ (d : Document) parent n w', w.Has d →
      (d.build keyword { argument, children } parent).outcome w = (.ok n, w') →
      d.Built w keyword argument children n w') ∧
    (∀ (d : Document) parent n w', w.Has d →
      (d.express (.tuple keyword argument children) parent).outcome w = (.ok n, w') →
      d.Built w keyword argument children n w') ∧
    ∀ (p n : Node) w', p.Live w →
      (p.build keyword { argument, children }).outcome w = (.ok n, w') →
      p.document.Built w keyword argument children n w' :=
  ⟨fun _ _ _ _ hd hok => Document.build_built hw.sound hd hlive hordinary hsep hok,
    fun _ _ _ _ hd hok => Document.build_built hw.sound hd hlive hordinary hsep hok,
    fun _ _ _ hp hok => Node.build_built hw.sound hp hlive hordinary hsep hok⟩

/-- The sample with one more subtree in each of its documents. -/
def widened : Workspace :=
  ((Call.buildBelow ⟨⟨1⟩, 0⟩ "container" { argument := some "k" }).run.outcome
    ((Call.buildBelow ⟨⟨0⟩, 0⟩ "grouping" { argument := some "g" }).run.outcome sample).2).2

theorem reachable_widened : widened.Reachable := by
  refine (reachable_sample.call _ ⟨by simp [Call.documents], ?_⟩).call _
    ⟨by simp [Call.documents], ?_⟩
  · decide
  · decide

/-- The root is rebuilt around a statement from deep inside it, a copy from the other document and
one of its old substatements. -/
theorem built_of_expressions_widened :
    widened.Reachable ∧ ∃ w',
      ((⟨0⟩ : Document).build "module" { argument := some "a", children :=
        [.tuple "list" none [.node ⟨⟨0⟩, 1⟩], .node ⟨⟨1⟩, 1⟩, .node ⟨⟨0⟩, 3⟩] }).outcome widened =
          (.ok ⟨⟨0⟩, 0⟩, w') ∧
      (⟨⟨0⟩, 0⟩ : Node).statement w' = ⟨"module", some "a",
        [⟨"list", none, [⟨"leaf", some "l", []⟩]⟩, ⟨"container", some "k", []⟩,
          ⟨"grouping", some "g", []⟩]⟩ := by
  have hsep : Expr.Separate [.tuple "list" none [.node ⟨⟨0⟩, 1⟩], .node ⟨⟨1⟩, 1⟩, .node ⟨⟨0⟩, 3⟩]
      widened := by
    have hforest : (widened.tree ⟨0⟩).Forest := reachable_widened.sound ⟨0⟩ (by decide)
    have hleaf : ¬ (widened.tree ⟨0⟩).Above 1 3 := fun h =>
      absurd (hforest.isAncestor_iff.2 h) (by decide)
    have hgrouping : ¬ (widened.tree ⟨0⟩).Above 3 1 := fun h =>
      absurd (hforest.isAncestor_iff.2 h) (by decide)
    simp [Expr.Separate, Expr.nodesAll, Expr.nodes, Node.Contains, Node.tree, hleaf, hgrouping]
  obtain ⟨hbuild, -, -⟩ := built_of_expressions reachable_widened (by decide) (by decide) hsep
    "module" (some "a")
  refine ⟨reachable_widened, _, rfl, ?_⟩
  exact (hbuild ⟨0⟩ none _ _ (by decide) rfl).statement_eq.trans (by decide)

end Workspace

end YangDoc
