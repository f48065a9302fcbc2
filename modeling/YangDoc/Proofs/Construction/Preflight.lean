import YangDoc.Proofs.Construction.Reachable
import YangDoc.Proofs.Construction.Receiving

/-!
# The check before a call

A call that builds looks at its keyword, its parent and the nodes that it would move before it
changes anything. Once it has passed this check, it fails only on a tuple with a keyword that no
nested statement can have: none at all, or one that belongs to the root. Such a tuple is met while
the call is under way, after other expressions have been received, and building one with a root
keyword has already overwritten the root by the time it turns out that the root cannot be nested.
Where all keywords are ordinary the check is exact, and a call that fails changes nothing.
-/

namespace YangDoc

variable {w w' w'' : Workspace} {d : Document} {copy : Bool} {keyword : String}
  {parent : Option Node} {children : List Expr}

namespace Build

variable {α : Type}

def Fails (m : Build α) (w : Workspace) : Prop :=
  ∃ err, (m.outcome w).1 = .error err

/-- The computation is refused at once, or it returns if the expressions it is given are ordinary,
and only then. -/
structure Checked (m : Build α) (w : Workspace) (refused : Prop) (exprs : List Expr) : Prop where
  unchanged : refused → ∃ err, m.outcome w = (.error err, w)
  returns : ¬ refused → (∀ e ∈ exprs, e.Ordinary) → ∃ a w', m.outcome w = (.ok a, w')
  ordinary : ∀ a w', m.outcome w = (.ok a, w') → ∀ e ∈ exprs, e.Ordinary

variable {m : Build α} {refused : Prop} {exprs : List Expr}

theorem Checked.fails_iff (h : m.Checked w refused exprs) :
    m.Fails w ↔ refused ∨ ∃ e ∈ exprs, ¬ e.Ordinary := by
  constructor
  · intro hfails
    obtain ⟨err, herr⟩ := hfails
    by_contra hnot
    push Not at hnot
    obtain ⟨a, w', hok⟩ := h.returns hnot.1 hnot.2
    simp [hok] at herr
  · rintro (hrefused | ⟨e, he, hnot⟩)
    · obtain ⟨err, herr⟩ := h.unchanged hrefused
      exact ⟨err, by rw [herr]⟩
    · rcases hrun : m.outcome w with ⟨err | a, w'⟩
      · exact ⟨err, by rw [hrun]⟩
      · exact absurd (h.ordinary a w' hrun e he) hnot

theorem Checked.ok_iff (h : m.Checked w refused exprs) :
    (∃ a w', m.outcome w = (.ok a, w')) ↔ ¬ refused ∧ ∀ e ∈ exprs, e.Ordinary := by
  constructor
  · intro hok
    obtain ⟨a, w', hok⟩ := hok
    refine ⟨fun hrefused => ?_, h.ordinary a w' hok⟩
    obtain ⟨err, herr⟩ := h.unchanged hrefused
    rw [hok] at herr
    simp at herr
  · intro hordinary
    exact h.returns hordinary.1 hordinary.2

/-- The computation fails when it is refused or one of the expressions is not ordinary, and it
changes nothing when it is refused or all of them are ordinary. -/
structure FailsCleanly (m : Build α) (w : Workspace) (refused : Prop) (exprs : List Expr) :
    Prop where
  fails_iff : m.Fails w ↔ refused ∨ ∃ e ∈ exprs, ¬ e.Ordinary
  unchanged : m.Fails w → refused ∨ (∀ e ∈ exprs, e.Ordinary) → (m.outcome w).2 = w

theorem Checked.failsCleanly (h : m.Checked w refused exprs) : m.FailsCleanly w refused exprs := by
  refine ⟨h.fails_iff, ?_⟩
  intro hfails hclean
  have hrefused : refused := by
    rcases h.fails_iff.1 hfails with hrefused | ⟨e, he, hnot⟩
    · exact hrefused
    · exact hclean.resolve_right fun hexprs => hnot (hexprs e he)
  obtain ⟨err, herr⟩ := h.unchanged hrefused
  rw [herr]

theorem Checked.exact (h : m.Checked w refused exprs) (hexprs : ∀ e ∈ exprs, e.Ordinary) :
    (m.Fails w ↔ refused) ∧ (m.Fails w → (m.outcome w).2 = w) := by
  refine ⟨?_, fun hfails => h.failsCleanly.unchanged hfails (.inr hexprs)⟩
  rw [h.fails_iff, or_iff_left]
  intro hexists
  obtain ⟨e, he, hnot⟩ := hexists
  exact hnot (hexprs e he)

end Build

namespace Document

/-! ### Building in a document -/

theorem mapM_ownId_cases (w : Workspace) (d : Document) (parent : Option Node) :
    ((parent.mapM d.ownId).outcome w = (.ok (parent.map Node.id), w) ∧
        ∀ p ∈ parent, p.document = d) ∨
      ((∃ err, (parent.mapM d.ownId).outcome w = (.error err, w)) ∧
        ∃ p ∈ parent, p.document ≠ d) := by
  cases parent with
  | none => exact .inl ⟨rfl, by simp⟩
  | some p =>
    rw [outcome_mapM_ownId]
    by_cases hp : p.document = d
    · exact .inl ⟨by rw [if_pos hp]; rfl, by simpa using hp⟩
    · exact .inr ⟨⟨_, if_neg hp⟩, p, rfl, hp⟩

/-- Why a statement is not built at all: it has no keyword, its parent is in another document, or
one of its substatements would move a node that may not go under the parent. -/
def Refuses (d : Document) (w : Workspace) (keyword : String) (parent : Option Node)
    (children : List Expr) : Prop :=
  keyword = "" ∨ (∃ p ∈ parent, p.document ≠ d) ∨
    ∃ e ∈ children, ∃ m ∈ e.nodes, d.Blocks w parent m

/-- The parts of the check that stand before the first change. -/
structure Passes (d : Document) (w : Workspace) (keyword : String) (parent : Option Node)
    (children : List Expr) : Prop where
  keyword_ne : keyword ≠ ""
  own : (parent.mapM d.ownId).outcome w = (.ok (parent.map Node.id), w)
  guard : (d.guardMoves (parent.map Node.id) false children).outcome w = (.ok (), w)
  root_not_mem : d.root ∉ Expr.nodesAll children

theorem passes_of_not_refuses (hw : w.Sound) (hd : w.Has d)
    (hnot : ¬ d.Refuses w keyword parent children) : d.Passes w keyword parent children := by
  rw [Refuses, not_or, not_or] at hnot
  obtain ⟨hkeyword, hforeign, hblocked⟩ := hnot
  refine ⟨hkeyword, ?_, ?_, ?_⟩
  · rcases mapM_ownId_cases w d parent with ⟨hok, -⟩ | ⟨-, hp⟩
    · exact hok
    · exact absurd hp hforeign
  · refine guardMoves_ok hw hd parent fun e he m hm hblocks => hblocked ?_
    rw [Expr.moving_false] at hm
    exact ⟨e, he, m, hm, hblocks⟩
  · intro hroot
    obtain ⟨e, he, hmem⟩ := Expr.mem_nodesAll.1 hroot
    exact hblocked ⟨e, he, d.root, hmem, .inl rfl⟩

theorem construct_refused (hw : w.Sound) (hd : w.Has d)
    (hrefuses : d.Refuses w keyword parent children) (argument : Option String)
    (received : Build (List NodeId)) :
    ∃ err, (d.construct keyword argument parent children received).outcome w = (.error err, w) := by
  by_cases hkeyword : keyword = ""
  · subst hkeyword
    exact ⟨_, outcome_construct_empty w d argument parent children received⟩
  · rw [construct_of_ne d hkeyword]
    rcases mapM_ownId_cases w d parent with ⟨hok, hown⟩ | ⟨⟨err, herr⟩, -⟩
    · have hblocked : ∃ e ∈ children, ∃ m ∈ e.moving false, d.Blocks w parent m := by
        rcases hrefuses with hempty | ⟨p, hp, hforeign⟩ | hblocked
        · exact absurd hempty hkeyword
        · exact absurd (hown p hp) hforeign
        · simpa using hblocked
      obtain ⟨err, herr⟩ := guardMoves_error hw hd parent hblocked
      exact ⟨err, (Build.outcome_bind_of_ok hok).trans (Build.outcome_bind_of_error herr)⟩
    · exact ⟨err, Build.outcome_bind_of_error herr⟩

theorem Passes.receiveAll_ok (h : d.Passes w keyword parent children) (hw : w.Sound)
    (hd : w.Has d) (hlive : ∀ m ∈ Expr.nodesAll children, m.Live w)
    (hordinary : ∀ e ∈ children, e.Ordinary) :
    ∃ (ids : List Nat) (w' : Workspace), (d.receiveAll children).outcome w = (.ok ids, w') ∧
      w.Edits w' ∧ (∀ id : Nat, id ∈ ids → d.Fits id w') ∧
      d.Received (Expr.nodesAll children) w ids w' := by
  obtain ⟨ids, w', hids, hreceived⟩ :=
    Document.receiveAll_ok children hw hd hlive hordinary h.root_not_mem
  obtain ⟨hedits, hfits⟩ := (receiveAll_safe children hw hd hlive).of_ok hids
  exact ⟨ids, w', hids, hedits, hfits, hreceived⟩

theorem Passes.build_ok (h : d.Passes w keyword parent children) (hw : w.Sound) (hd : w.Has d)
    (hlive : ∀ m ∈ Expr.nodesAll children, m.Live w) (hordinary : ∀ e ∈ children, e.Ordinary)
    (hroot : Keyword.isRoot keyword = false) (argument : Option String) :
    ∃ (id : Nat) (w' : Workspace),
      (d.build keyword { argument, children } parent).outcome w = (.ok ⟨d, id⟩, w') ∧
      d.Received (Expr.nodesAll children) w [id] w' := by
  obtain ⟨ids, w₁, hids, hedits, hfits, hreceived⟩ := h.receiveAll_ok hw hd hlive hordinary
  obtain ⟨id, w', hid, hnew⟩ := construct_ok argument (hedits.sound hw)
    (hedits.has_iff.2 hd) ⟨h.keyword_ne, hroot⟩ h.own h.guard hids hreceived hfits
    (hedits.size_le d)
  exact ⟨id, w', Build.outcome_bind_of_ok hid, hnew⟩

theorem Passes.construct_root_ok (h : d.Passes w keyword parent children) (hw : w.Sound)
    (hd : w.Has d) (hlive : ∀ m ∈ Expr.nodesAll children, m.Live w)
    (hordinary : ∀ e ∈ children, e.Ordinary) (hroot : Keyword.isRoot keyword = true)
    (argument : Option String) :
    ∃ w', (d.construct keyword argument parent children (d.receiveAll children)).outcome w =
        (.ok Tree.root, w') ∧ (w'.tree d).header Tree.root = (keyword, argument) := by
  obtain ⟨ids, w₁, hids, hedits, hfits, hreceived⟩ := h.receiveAll_ok hw hd hlive hordinary
  have hd₁ : w₁.Has d := hedits.has_iff.2 hd
  obtain ⟨t, hassemble, hheader⟩ := (hedits.sound hw d hd₁).assemble_root_ok hroot argument
    (parent.map Node.id) fun c hc => ⟨hfits c hc, hreceived.ne_root c hc⟩
  refine ⟨w₁.setTree d t, ?_, by rw [Workspace.tree_setTree hd₁, hheader]⟩
  rw [construct_of_ne d h.keyword_ne, Build.outcome_bind_of_ok h.own,
    Build.outcome_bind_of_ok h.guard, Build.outcome_bind_of_ok hids, outcome_edit, hassemble]

theorem build_checked (hw : w.Sound) (hd : w.Has d) (keyword : String)
    (argument : Option String) (parent : Option Node)
    (hlive : ∀ m ∈ Expr.nodesAll children, m.Live w) :
    (d.build keyword { argument, children } parent).Checked w
      (d.Refuses w keyword parent children) children := by
  refine ⟨?_, ?_, ?_⟩
  · intro hrefuses
    obtain ⟨err, herr⟩ := construct_refused hw hd hrefuses argument (d.receiveAll children)
    exact ⟨err, Build.outcome_bind_of_error herr⟩
  · intro hnot hordinary
    have hpasses := passes_of_not_refuses hw hd hnot
    cases hroot : Keyword.isRoot keyword with
    | true =>
      obtain ⟨w', hconstruct, -⟩ := hpasses.construct_root_ok hw hd hlive hordinary hroot argument
      exact ⟨d.root, w', Build.outcome_bind_of_ok hconstruct⟩
    | false =>
      obtain ⟨id, w', hid, -⟩ := hpasses.build_ok hw hd hlive hordinary hroot argument
      exact ⟨_, w', hid⟩
  · intro n w' hok
    unfold build at hok
    obtain ⟨id, w₁, hid, -⟩ := Build.outcome_bind_eq_ok hok
    obtain ⟨-, -, ids, w₂, hids, hne⟩ := construct_eq_ok hid
    exact ordinary_of_receiveAll children hids hne

end Document

namespace Node

/-! ### Building below a node -/

variable {n m : Node} {e : Expr} {items : List Expr}

/-- What was received goes under a node that the moves were checked against, and the ancestors of
that node stay what they were. -/
theorem attach_received {moved : List Node} {id : Nat} (hw : w.Sound) (hedits : w.Edits w')
    (hn : n.Live w) (hreceived : n.document.Received moved w [id] w')
    (hfits : n.document.Fits id w') (hmoved : ∀ m ∈ moved, ¬ n.document.Blocks w (some n) m) :
    ∃ w'', (n.document.attach n.id id).outcome w' = (.ok (), w'') ∧
      ∀ a, (n.tree w'').Above a n.id ↔ (n.tree w).Above a n.id := by
  have hd' : w'.Has n.document := hedits.has_iff.2 hn.has
  have hstays : ∀ x : Nat, (n.tree w).Above x n.id → (⟨n.document, x⟩ : Node) ∉ moved :=
    fun x hx hmem => hmoved _ hmem (.inr ⟨rfl, n, rfl, hx⟩)
  have hsame : ∀ a, (n.tree w').Above a n.id ↔ (n.tree w).Above a n.id := fun a =>
    Tree.above_congr fun y hy => hreceived.samePlace y (hy.lt_size hn) (hstays y hy)
  have hbelow : ¬ (n.tree w').Above id n.id := by
    rw [hsame]
    intro habove
    exact hreceived.not_mem (habove.lt_size hn) (hstays id habove) (List.mem_singleton_self id)
  obtain ⟨t, hattach, hplace⟩ := ((hedits.sound hw) n.document hd').attachAll_ok
    (hedits.live hn) [id] (by
      intro c hc
      rw [List.mem_singleton.1 hc]
      exact ⟨hfits, hreceived.ne_root id (List.mem_singleton_self id), hbelow⟩)
  refine ⟨w'.setTree n.document t, ?_, fun a => ?_⟩
  · rw [Document.outcome_attach, hattach]
  · rw [← hsame, Node.tree, Workspace.tree_setTree hd']
    refine Tree.above_congr fun y hy => hplace y ?_
    intro hmem
    exact hbelow (List.mem_singleton.1 hmem ▸ hy)

theorem receive_ok (copy : Bool) (hw : w.Sound) (hn : n.Live w) (he : e.Live w)
    (hordinary : e.Ordinary) (hmoving : ∀ m ∈ e.moving copy, ¬ n.document.Blocks w (some n) m) :
    ∃ id w', (n.receive copy e).outcome w = (.ok id, w') ∧
      ∀ m, n.document.Blocks w' (some n) m ↔ n.document.Blocks w (some n) m := by
  have hroot : n.document.root ∉ e.moving copy := fun hmem => hmoving _ hmem (.inl rfl)
  obtain ⟨id, w₁, hid, hreceived⟩ := Document.receive_ok copy e hw hn.has he hordinary hroot
  obtain ⟨hedits, hfits⟩ := (Document.receive_safe copy e hw hn.has he).of_ok hid
  obtain ⟨w', hattach, hsame⟩ := attach_received hw hedits hn hreceived hfits hmoving
  refine ⟨id, w', ?_, fun m => ?_⟩
  · unfold receive
    rw [Build.outcome_bind_of_ok hid, Build.outcome_bind_of_ok hattach]
    rfl
  · rw [Document.Blocks, Document.Blocks]
    simpa [Node.tree] using or_congr_right (and_congr_right fun _ => hsame m.id)

theorem ordinary_of_receive {id : NodeId} (hok : (n.receive copy e).outcome w = (.ok id, w')) :
    e.Ordinary := by
  unfold receive at hok
  obtain ⟨x, w₁, hx, hrest⟩ := Build.outcome_bind_eq_ok hok
  obtain ⟨_, w₂, hattach, -⟩ := Build.outcome_bind_eq_ok hrest
  rw [Document.outcome_attach] at hattach
  apply Document.ordinary_of_receive e hx
  exact Tree.ne_root_of_attachAll (congrArg Prod.fst hattach) x (List.mem_singleton_self x)

theorem express_checked (hw : w.Sound) (hn : n.Live w) (he : e.Live w) :
    (n.express e).Checked w (∃ m ∈ e.nodes, n.document.Blocks w (some n) m) [e] := by
  refine ⟨?_, ?_, ?_⟩
  · intro hblocked
    have hguard : ∃ err, (n.document.guardMoves (some n.id) false [e]).outcome w =
        (.error err, w) :=
      Document.guardMoves_error hw hn.has (some n) (by simpa using hblocked)
    obtain ⟨err, herr⟩ := hguard
    exact ⟨err, Build.outcome_bind_of_error herr⟩
  · intro hnot hordinary
    have hmoves : ∀ m ∈ e.moving false, ¬ n.document.Blocks w (some n) m := by
      simpa using hnot
    have hguard : (n.document.guardMoves (some n.id) false [e]).outcome w = (.ok (), w) :=
      Document.guardMoves_ok hw hn.has (some n) (by simpa using hmoves)
    obtain ⟨id, w', hid, -⟩ := receive_ok false hw hn he
      (hordinary e (List.mem_singleton_self e)) hmoves
    refine ⟨⟨n.document, id⟩, w', ?_⟩
    exact (Build.outcome_bind_of_ok hguard).trans (Build.outcome_bind_of_ok hid)
  · intro m w' hok
    unfold express at hok
    obtain ⟨_, w₁, -, hrest⟩ := Build.outcome_bind_eq_ok hok
    obtain ⟨id, w₂, hid, -⟩ := Build.outcome_bind_eq_ok hrest
    simpa using ordinary_of_receive hid

theorem receiveEach_ok (hw : w.Sound) (hn : n.Live w) (hlive : ∀ e ∈ items, e.Live w)
    (hordinary : ∀ e ∈ items, e.Ordinary)
    (hmoving : ∀ e ∈ items, ∀ m ∈ e.moving copy, ¬ n.document.Blocks w (some n) m) :
    ∃ w', (items.forM fun e => (do let _ ← n.receive copy e : Build PUnit)).outcome w =
      (.ok (), w') := by
  induction items generalizing w with
  | nil => exact ⟨w, rfl⟩
  | cons e rest ih =>
    rw [List.forall_mem_cons] at hlive hordinary hmoving
    obtain ⟨id, w₁, hid, hsame⟩ := receive_ok copy hw hn hlive.1 hordinary.1 hmoving.1
    have hedits := ((receive_safe hw hn hlive.1 copy).of_ok hid).1
    -- the moves still to come are judged as they were before this one
    obtain ⟨w', hrest⟩ := ih (hedits.sound hw) (hedits.live hn)
      (fun e he => hedits.liveExpr (hlive.2 e he)) hordinary.2
      (fun e he m hm => (hsame m).not.2 (hmoving.2 e he m hm))
    refine ⟨w', ?_⟩
    rw [← hrest]
    exact Build.outcome_bind_of_ok (Build.outcome_bind_of_ok hid)

theorem ordinary_of_receiveEach
    (hok : (items.forM fun e => (do let _ ← n.receive copy e : Build PUnit)).outcome w =
      (.ok (), w')) : ∀ e ∈ items, e.Ordinary := by
  induction items generalizing w with
  | nil => simp
  | cons e rest ih =>
    obtain ⟨_, w₁, hfirst, hrest⟩ := Build.outcome_bind_eq_ok hok
    obtain ⟨id, w₂, hid, -⟩ := Build.outcome_bind_eq_ok hfirst
    rw [List.forall_mem_cons]
    exact ⟨ordinary_of_receive hid, ih hrest⟩

theorem append_checked (hw : w.Sound) (hn : n.Live w) (hlive : ∀ e ∈ items, e.Live w)
    (copy : Bool) :
    (n.append items copy).Checked w
      (∃ e ∈ items, ∃ m ∈ e.moving copy, n.document.Blocks w (some n) m) items := by
  refine ⟨?_, ?_, ?_⟩
  · intro hblocked
    obtain ⟨err, herr⟩ := Document.guardMoves_error hw hn.has (some n) hblocked
    exact ⟨err, Build.outcome_bind_of_error herr⟩
  · intro hnot hordinary
    have hmoves : ∀ e ∈ items, ∀ m ∈ e.moving copy, ¬ n.document.Blocks w (some n) m :=
      fun e he m hm hblocks => hnot ⟨e, he, m, hm, hblocks⟩
    have hguard := Document.guardMoves_ok hw hn.has (some n) hmoves
    obtain ⟨w', hloop⟩ := receiveEach_ok hw hn hlive hordinary hmoves
    exact ⟨(), w', (Build.outcome_bind_of_ok hguard).trans hloop⟩
  · intro _ w' hok
    unfold append at hok
    obtain ⟨_, w₁, -, hloop⟩ := Build.outcome_bind_eq_ok hok
    exact ordinary_of_receiveEach hloop

theorem build_checked (hw : w.Sound) (hn : n.Live w) (keyword : String)
    (argument : Option String) (hlive : ∀ m ∈ Expr.nodesAll children, m.Live w) :
    (n.build keyword { argument, children }).Checked w
      (Keyword.isRoot keyword = true ∨ n.document.Refuses w keyword (some n) children)
      children := by
  cases hroot : Keyword.isRoot keyword with
  | true =>
    have herr := outcome_build_root w n hroot { argument, children }
    refine ⟨fun _ => ⟨_, herr⟩, by simp, fun m w' hok => ?_⟩
    rw [herr] at hok
    simp at hok
  | false =>
    have hbuild := Document.build_checked hw hn.has keyword argument (some n) hlive
    rw [build_of_not_root n hroot]
    refine ⟨?_, ?_, ?_⟩
    · intro hrefused
      obtain ⟨err, herr⟩ := hbuild.unchanged (by simpa using hrefused)
      exact ⟨err, Build.outcome_bind_of_error herr⟩
    · intro hnot hordinary
      have hnot' : ¬ n.document.Refuses w keyword (some n) children := by simpa using hnot
      have hpasses := Document.passes_of_not_refuses hw hn.has hnot'
      obtain ⟨id, w₁, hid, hreceived⟩ := hpasses.build_ok hw hn.has hlive hordinary hroot
        argument
      have hsafe : (n.document.build keyword { argument, children } (some n)).Safe w _ :=
        Document.build_safe hw hn.has hlive
      obtain ⟨hedits, -, hchild⟩ := hsafe.of_ok hid
      obtain ⟨w', hattach, -⟩ := attach_received hw hedits hn hreceived hchild (by
        intro m hm hblocks
        obtain ⟨e, he, hmem⟩ := Expr.mem_nodesAll.1 hm
        exact hnot' (.inr (.inr ⟨e, he, m, hmem, hblocks⟩)))
      refine ⟨⟨n.document, id⟩, w', ?_⟩
      rw [Build.outcome_bind_of_ok hid]
      exact Build.outcome_bind_of_ok hattach
    · intro m w' hok
      obtain ⟨child, w₁, hchild, -⟩ := Build.outcome_bind_eq_ok hok
      exact hbuild.ordinary child w₁ hchild

end Node

end YangDoc
