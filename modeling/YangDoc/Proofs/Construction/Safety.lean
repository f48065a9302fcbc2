import YangDoc.Proofs.Construction.Edits

/-!
# Every construction is made of edits

One lemma for each way of building, from receiving a single expression up to building below every
member of a list. None of them asks whether the call succeeds.
-/

namespace YangDoc

open Build

variable {w : Workspace} {d : Document}

namespace Build

variable {α β : Type}

theorem Safe.forM {l : List α} {f : α → Build PUnit}
    (hf : ∀ a ∈ l, ∀ w', w.Edits w' → (f a).Safe w' fun _ _ => True) :
    (l.forM f).Safe w fun _ _ => True := by
  induction l generalizing w with
  | nil => exact .pure trivial
  | cons a l ih =>
    change (f a >>= fun _ => l.forM f).Safe w _
    refine (hf a List.mem_cons_self w .refl).bind fun _ w' hedits _ => ih fun b hb w'' hedits' => ?_
    exact hf b (List.mem_cons_of_mem a hb) w'' (hedits.trans hedits')

theorem Safe.mapM {l : List α} {f : α → Build β}
    (hf : ∀ a ∈ l, ∀ w', w.Edits w' → (f a).Safe w' fun _ _ => True) :
    (l.mapM f).Safe w fun _ _ => True := by
  induction l generalizing w with
  | nil => exact .pure trivial
  | cons a l ih =>
    rw [List.mapM_cons]
    apply (hf a List.mem_cons_self w .refl).bind
    intro b w' hedits _
    refine Safe.bind (ih fun b hb w'' hedits' => ?_) fun _ _ _ _ => .pure trivial
    exact hf b (List.mem_cons_of_mem a hb) w'' (hedits.trans hedits')

end Build

namespace Document

/-! ### Receiving expressions -/

theorem receiveNode_safe (hw : w.Sound) (hd : w.Has d) {n : Node} (hn : n.Live w) (copy : Bool) :
    (d.receiveNode copy n).Safe w d.Fits := by
  have hplant : (d.plant (n.statement w)).Safe w d.Fits :=
    (plant_safe hw hd _).mono fun _ _ _ h => h.1
  unfold receiveNode
  by_cases hdoc : n.document = d
  · rw [if_pos hdoc]
    cases copy with
    | false =>
      refine .pure ?_
      rw [Fits, ← hdoc]
      exact hn
    | true =>
      exact hplant.get_bind
  · rw [if_neg hdoc]
    apply Safe.get_bind
    apply hplant.bind
    intro id w' hedits hid
    cases copy with
    | true => exact .pure hid
    | false =>
      have hdetach : (n.document.detach n.id).Safe w' fun _ w'' => d.Fits id w'' := by
        apply edit_safe ((hedits.live hn).has) (.single (.detach n.id))
        intro _ _
        rw [Fits, Workspace.tree_setTree_of_ne (Ne.symm hdoc)]
        exact hid
      exact hdetach.bind fun _ _ _ hid' => .pure hid'

theorem construct_safe (hw : w.Sound) (hd : w.Has d) {keyword : String} {argument : Option String}
    {parent : Option Node} {children : List Expr} {received : Build (List NodeId)}
    (hreceived : received.Safe w fun ids w' => ∀ id ∈ ids, d.Fits id w') :
    (d.construct keyword argument parent children received).Safe w d.Fits := by
  by_cases hkeyword : keyword = ""
  · subst hkeyword
    apply (Safe.of_unchanged rfl).mono
    intro id w' _ h
    rw [outcome_construct_empty] at h
    simp at h
  · rw [construct_of_ne d hkeyword]
    apply (Safe.of_unchanged (mapM_ownId_snd ..)).bind
    intro parent' w₁ _ hw₁
    rw [hw₁.2]
    apply (Safe.of_unchanged (guardMoves_snd ..)).bind
    intro _ w₂ _ hw₂
    rw [hw₂.2]
    apply hreceived.bind
    intro ids w' hedits hids
    have hd' : w'.Has d := hedits.has_iff.2 hd
    obtain ⟨hassemble, hfits⟩ := ((hedits.sound hw) d hd').assemble_edits keyword argument parent'
      ids hids
    apply edit_safe hd' hassemble
    intro id hid
    rw [Fits, Workspace.tree_setTree hd']
    exact hfits id hid

mutual

theorem receive_safe (copy : Bool) : ∀ {w : Workspace} (e : Expr), w.Sound → w.Has d → e.Live w →
    (d.receive copy e).Safe w d.Fits
  | _, .node n, hw, hd, he => by
    rw [receive]
    exact receiveNode_safe hw hd (he n (List.mem_singleton_self n)) copy
  | _, .statement s, hw, hd, _ => by
    rw [receive]
    exact (plant_safe hw hd s).mono fun _ _ _ h => h.1
  | _, .tuple keyword argument children, hw, hd, he => by
    rw [receive]
    exact construct_safe hw hd (receiveAll_safe children hw hd he)

theorem receiveAll_safe : ∀ {w : Workspace} (es : List Expr), w.Sound → w.Has d →
    (∀ n ∈ Expr.nodesAll es, n.Live w) →
    (d.receiveAll es).Safe w fun ids w' => ∀ id ∈ ids, d.Fits id w'
  | _, [], _, _, _ => by
    rw [receiveAll]
    exact .pure (by simp)
  | _, e :: rest, hw, hd, hes => by
    rw [receiveAll]
    have he : e.Live _ := fun n hn => hes n (List.mem_append_left _ hn)
    apply (receive_safe false e hw hd he).bind
    intro id w₁ hedits hid
    have hrest := receiveAll_safe rest (hedits.sound hw) (hedits.has_iff.2 hd) fun n hn =>
      hedits.live (hes n (List.mem_append_right _ hn))
    refine hrest.bind fun ids w₂ hedits' hids => .pure ?_
    intro i hi
    rcases List.mem_cons.1 hi with rfl | hi
    · exact hid.mono hedits'
    · exact hids i hi

end

/-! ### Building in a document -/

theorem build_safe (hw : w.Sound) (hd : w.Has d) {keyword : String} {input : Input}
    {parent : Option Node} (hinput : ∀ n ∈ Expr.nodesAll input.children, n.Live w) :
    (d.build keyword input parent).Safe w fun n w' => n.document = d ∧ n.Live w' := by
  unfold build
  apply (construct_safe hw hd (receiveAll_safe _ hw hd hinput)).bind
  intro id w' _ hid
  exact .pure ⟨rfl, hid⟩

theorem express_safe (hw : w.Sound) (hd : w.Has d) {e : Expr} (he : e.Live w)
    (parent : Option Node) : (d.express e parent).Safe w fun n w' => n.Live w' := by
  cases e with
  | node n => exact .pure (he n (List.mem_singleton_self n))
  | tuple keyword argument children =>
    refine Safe.mono (build_safe hw hd ?_) fun _ _ _ hn => hn.2
    exact he
  | statement s =>
    apply (Safe.of_unchanged (mapM_ownId_snd ..)).bind
    intro parent' w₁ _ hw₁
    rw [hw₁.2]
    apply (plant_safe hw hd s).bind
    intro id w' hedits hplanted
    obtain ⟨hid, hfree⟩ := hplanted
    have hd' : w'.Has d := hedits.has_iff.2 hd
    have hrecord : (d.edit fun t => (.ok (), t.setParent id parent')).Safe w'
        fun _ w'' => d.Fits id w'' := by
      apply edit_safe hd' (.single (.record id parent' hfree))
      intro _ _
      rw [Fits, Workspace.tree_setTree hd', Tree.size_setParent]
      exact hid
    exact hrecord.bind fun _ _ _ hid' => .pure hid'

theorem ofJson_safe (hw : w.Sound) (hd : w.Has d) (value : Json) :
    (d.ofJson value).Safe w fun n w' => n.Live w' := by
  unfold ofJson
  cases hvalue : Expr.ofJson value with
  | error fault =>
    apply (Safe.of_unchanged rfl).mono
    intro id w' _ h
    simp at h
  | ok e =>
    refine express_safe hw hd ?_ none
    intro n hn
    rw [Expr.nodes_ofJson hvalue] at hn
    simp at hn

end Document

namespace Node

/-! ### Building below a node -/

theorem attach_child_safe {n child : Node} (hw : w.Sound) (hn : n.Live w)
    (hchild : child.document = n.document ∧ child.Live w) :
    (do n.document.attach n.id child.id; return child : Build Node).Safe w
      fun m w' => m.Live w' := by
  have hfits : n.document.Fits child.id w := by
    rw [Document.Fits, ← hchild.1]
    exact hchild.2
  apply (Document.attach_safe hw hn.has hn hfits).bind
  intro _ w' hedits _
  exact .pure (hedits.live hchild.2)

theorem build_safe (hw : w.Sound) {n : Node} (hn : n.Live w) {keyword : String} {input : Input}
    (hinput : ∀ m ∈ Expr.nodesAll input.children, m.Live w) :
    (n.build keyword input).Safe w fun m w' => m.Live w' := by
  cases hroot : Keyword.isRoot keyword with
  | true =>
    have hrun := outcome_build_root w n hroot input
    apply (Safe.of_unchanged (by rw [hrun])).mono
    intro m w' _ h
    rw [hrun] at h
    simp at h
  | false =>
    rw [build_of_not_root n hroot]
    apply (Document.build_safe hw hn.has hinput).bind
    intro child w' hedits hchild
    exact attach_child_safe (hedits.sound hw) (hedits.live hn) hchild

theorem comment_safe (hw : w.Sound) {n : Node} (hn : n.Live w) (text : String) :
    (n.comment text).Safe w fun m w' => m.Live w' := by
  unfold comment Document.comment
  refine (Document.build_safe hw hn.has (by simp [Expr.nodesAll])).bind
    fun child w' hedits hchild => ?_
  exact attach_child_safe (hedits.sound hw) (hedits.live hn) hchild

theorem blankLine_safe (hw : w.Sound) {n : Node} (hn : n.Live w) :
    n.blankLine.Safe w fun m w' => m.Live w' := by
  unfold blankLine Document.blankLine
  refine (Document.build_safe hw hn.has (by simp [Expr.nodesAll])).bind
    fun child w' hedits hchild => ?_
  exact attach_child_safe (hedits.sound hw) (hedits.live hn) hchild

theorem receive_safe (hw : w.Sound) {n : Node} (hn : n.Live w) {e : Expr} (he : e.Live w)
    (copy : Bool) : (n.receive copy e).Safe w n.document.Fits := by
  unfold receive
  apply (Document.receive_safe copy e hw hn.has he).bind
  intro id w' hedits hid
  refine (Document.attach_safe (hedits.sound hw) (hedits.has_iff.2 hn.has) (hedits.live hn)
    hid).bind fun _ w'' hedits' _ => ?_
  exact .pure (hid.mono hedits')

theorem express_safe (hw : w.Sound) {n : Node} (hn : n.Live w) {e : Expr} (he : e.Live w) :
    (n.express e).Safe w fun m w' => m.Live w' := by
  unfold express
  apply (Safe.of_unchanged (Document.guardMoves_snd ..)).bind
  intro _ w₁ _ hw₁
  rw [hw₁.2]
  exact (receive_safe hw hn he false).bind fun id w' _ hid => .pure hid

theorem append_safe (hw : w.Sound) {n : Node} (hn : n.Live w) {items : List Expr}
    (hitems : ∀ e ∈ items, e.Live w) (copy : Bool) :
    (n.append items copy).Safe w fun _ _ => True := by
  unfold append
  apply (Safe.of_unchanged (Document.guardMoves_snd ..)).bind
  intro _ w₁ _ hw₁
  rw [hw₁.2]
  apply Safe.forM
  intro e he w' hedits
  refine (receive_safe (hedits.sound hw) (hedits.live hn) ?_ copy).bind fun _ _ _ _ => .pure trivial
  exact hedits.liveExpr (hitems e he)

end Node

theorem NodeList.build_safe (hw : w.Sound) {nodes : NodeList} (hnodes : ∀ n ∈ nodes, n.Live w)
    (keyword : String) (input : Input) : (nodes.build keyword input).Safe w fun _ _ => True := by
  unfold NodeList.build
  apply Safe.mapM
  intro n hn w' hedits
  apply Safe.get_bind
  exact Safe.mono (Node.build_safe (hedits.sound hw) (hedits.live (hnodes n hn))
    (Expr.live_of_mem_frozenAll w' input.children)) fun _ _ _ _ => trivial

end YangDoc
