import Mathlib.Tactic.Common
import YangDoc.NodeList

/-!
# Outcomes of building

A computation that builds starts in a workspace and ends in one, with a result that may be an
error. `outcome` names the pair, and this module computes it for the steps that every construction
is made of. A refused step ends the computation, but what was done before it stays done.
-/

namespace YangDoc

namespace Workspace

def Has (w : Workspace) (d : Document) : Prop :=
  d.index < w.trees.size

instance (w : Workspace) (d : Document) : Decidable (w.Has d) :=
  inferInstanceAs (Decidable (d.index < w.trees.size))

variable {w : Workspace} {d d' : Document} {t u : Tree}

theorem tree_setTree (hd : w.Has d) : (w.setTree d t).tree d = t := by
  have hd' : d.index < w.trees.size := hd
  simp [setTree, tree, hd']

theorem tree_setTree_of_ne (hne : d' ≠ d) : (w.setTree d t).tree d' = w.tree d' := by
  have hindex : d.index ≠ d'.index := by
    intro heq
    apply hne
    obtain ⟨i⟩ := d
    obtain ⟨j⟩ := d'
    exact congrArg Document.mk heq.symm
  simp [setTree, tree, Array.getElem?_setIfInBounds_ne hindex]

theorem setTree_of_not_has (hd : ¬ w.Has d) : w.setTree d t = w := by
  have hd' : w.trees.size ≤ d.index := Nat.not_lt.1 hd
  simp [setTree, Array.setIfInBounds_eq_of_size_le hd']

@[simp] theorem has_setTree : (w.setTree d t).Has d' ↔ w.Has d' := by
  simp [Has, setTree]

@[simp] theorem setTree_setTree : (w.setTree d t).setTree d u = w.setTree d u := by
  simp [setTree, Array.setIfInBounds_setIfInBounds]

@[simp] theorem setTree_tree : w.setTree d (w.tree d) = w := by
  by_cases hd : w.Has d
  · have hd' : d.index < w.trees.size := hd
    obtain ⟨trees⟩ := w
    simp only [setTree, tree]
    congr
    ext i hi hi'
    · simp
    · by_cases heq : d.index = i
      · subst heq
        simp [hi']
      · rw [Array.getElem_setIfInBounds_ne _ heq]
  · exact setTree_of_not_has hd

end Workspace

namespace Build

variable {α β : Type}

/-- The result of a computation that starts in `w`, and the workspace that it leaves behind. -/
def outcome (m : Build α) (w : Workspace) : Except Error α × Workspace :=
  m.run.run w

variable (w : Workspace)

@[simp] theorem outcome_pure (a : α) : (pure a : Build α).outcome w = (.ok a, w) :=
  rfl

@[simp] theorem outcome_throw (e : Error) : (throw e : Build α).outcome w = (.error e, w) :=
  rfl

@[simp] theorem outcome_get : (get : Build Workspace).outcome w = (.ok w, w) :=
  rfl

theorem ok_inj {w w' : Workspace} {a b : α}
    (h : ((.ok a, w) : Except Error α × Workspace) = (.ok b, w')) : a = b ∧ w = w' := by
  obtain ⟨hresult, hw⟩ := Prod.mk.inj h
  exact ⟨Except.ok.inj hresult, hw⟩

theorem outcome_bind (m : Build α) (f : α → Build β) :
    (m >>= f).outcome w =
      match m.outcome w with
      | (.ok a, w') => (f a).outcome w'
      | (.error e, w') => (.error e, w') := by
  change (ExceptT.run (m >>= f)).run w = _
  rw [ExceptT.run_bind, StateT.run_bind]
  rcases hm : m.outcome w with ⟨_ | a, w'⟩
  · rw [show (ExceptT.run m).run w = _ from hm]
    rfl
  · rw [show (ExceptT.run m).run w = _ from hm]
    rfl

theorem outcome_bind_of_ok {w w' : Workspace} {m : Build α} {f : α → Build β} {a : α}
    (hm : m.outcome w = (.ok a, w')) : (m >>= f).outcome w = (f a).outcome w' := by
  rw [outcome_bind, hm]

theorem outcome_bind_of_error {w w' : Workspace} {m : Build α} {f : α → Build β} {e : Error}
    (hm : m.outcome w = (.error e, w')) : (m >>= f).outcome w = (.error e, w') := by
  rw [outcome_bind, hm]

theorem outcome_bind_eq_ok {w w'' : Workspace} {m : Build α} {f : α → Build β} {b : β}
    (h : (m >>= f).outcome w = (.ok b, w'')) :
    ∃ a w', m.outcome w = (.ok a, w') ∧ (f a).outcome w' = (.ok b, w'') := by
  rw [outcome_bind] at h
  rcases hm : m.outcome w with ⟨_ | a, w'⟩
  · rw [hm] at h
    simp at h
  · rw [hm] at h
    exact ⟨a, w', rfl, h⟩

end Build

namespace Document

variable {α : Type} (w : Workspace) (d : Document)

/-- Changing the table of a document keeps the change also when it ends in an error. -/
theorem outcome_edit (f : Tree → Except Error α × Tree) :
    (d.edit f).outcome w = ((f (w.tree d)).1, w.setTree d (f (w.tree d)).2) := by
  unfold edit
  rw [Build.outcome_bind, Build.outcome_get]
  dsimp only
  rw [Build.outcome_bind]
  change (match (Except.ok (), w.setTree d (f (w.tree d)).2) with
    | (Except.ok a, w') => Build.outcome _ w'
    | (Except.error e, w') => (Except.error e, w')) = _
  dsimp only
  rcases f (w.tree d) with ⟨_ | a, t⟩
  · rfl
  · rfl

theorem outcome_plant (s : Statement) :
    (d.plant s).outcome w = (.ok (w.tree d).size, w.setTree d ((w.tree d).plant s).1) := by
  have hsnd : ((w.tree d).plant s).2 = (w.tree d).size := by
    obtain ⟨k, a, cs⟩ := s
    rfl
  rw [plant, outcome_edit, ← hsnd]

theorem outcome_detach (id : NodeId) :
    (d.detach id).outcome w = (.ok (), w.setTree d ((w.tree d).detach id)) := by
  rw [detach, outcome_edit]

theorem outcome_attach (p c : NodeId) :
    (d.attach p c).outcome w =
      (((w.tree d).attachAll p [c]).1, w.setTree d ((w.tree d).attachAll p [c]).2) := by
  rw [attach, outcome_edit]

theorem attach_eq_ok {w w' : Workspace} {d : Document} {p c : NodeId}
    (hok : (d.attach p c).outcome w = (.ok (), w')) :
    ∃ t, (w.tree d).attach p c = .ok t ∧ w' = w.setTree d t := by
  rw [outcome_attach, Tree.attachAll] at hok
  cases hattach : (w.tree d).attach p c with
  | error e =>
    rw [hattach] at hok
    simp at hok
  | ok t =>
    rw [hattach] at hok
    exact ⟨t, rfl, (Prod.mk.inj hok).2.symm⟩

theorem outcome_guardMoves (parent : Option NodeId) (copy : Bool) (exprs : List Expr) :
    (d.guardMoves parent copy exprs).outcome w =
      match exprs.findSome? (·.refusal? (w.tree d) d parent copy) with
      | some e => (.error e, w)
      | none => (.ok (), w) := by
  unfold guardMoves
  rw [Build.outcome_bind, Build.outcome_get]
  dsimp only
  cases exprs.findSome? (·.refusal? (w.tree d) d parent copy) with
  | none => rfl
  | some e => rfl

theorem outcome_ownId (n : Node) :
    (d.ownId n).outcome w =
      if n.document = d then (.ok n.id, w) else (.error (.foreignParent (n.keyword w)), w) := by
  unfold ownId
  by_cases hd : n.document = d
  · rw [if_pos hd, if_pos hd]
    rfl
  · rw [if_neg hd, if_neg hd]
    rfl

theorem outcome_mapM_ownId (p : Node) :
    ((some p).mapM d.ownId).outcome w =
      if p.document = d then (.ok (some p.id), w)
      else (.error (.foreignParent (p.keyword w)), w) := by
  change ((d.ownId p) >>= fun id => pure (some id)).outcome w = _
  rw [Build.outcome_bind, outcome_ownId]
  by_cases hd : p.document = d
  · rw [if_pos hd, if_pos hd]
    rfl
  · rw [if_neg hd, if_neg hd]

theorem mapM_ownId_snd (parent : Option Node) : ((parent.mapM d.ownId).outcome w).2 = w := by
  cases parent with
  | none => rfl
  | some p =>
    rw [outcome_mapM_ownId]
    split <;> rfl

theorem guardMoves_snd (parent : Option NodeId) (copy : Bool) (exprs : List Expr) :
    ((d.guardMoves parent copy exprs).outcome w).2 = w := by
  rw [outcome_guardMoves]
  split <;> rfl

/-! ### Receiving and building -/

theorem outcome_receiveNode_own {n : Node} (hd : n.document = d) (copy : Bool) :
    (d.receiveNode copy n).outcome w =
      if copy then (.ok (w.tree d).size, w.setTree d ((w.tree d).plant (n.statement w)).1)
      else (.ok n.id, w) := by
  unfold receiveNode
  rw [if_pos hd]
  cases copy with
  | false => rfl
  | true =>
    rw [if_pos rfl, if_pos rfl, Build.outcome_bind_of_ok (Build.outcome_get w), outcome_plant]

theorem outcome_receiveNode_foreign {n : Node} (hd : n.document ≠ d) (copy : Bool) :
    (d.receiveNode copy n).outcome w =
      (.ok (w.tree d).size,
        if copy then w.setTree d ((w.tree d).plant (n.statement w)).1
        else (w.setTree d ((w.tree d).plant (n.statement w)).1).setTree n.document
          ((n.tree w).detach n.id)) := by
  unfold receiveNode
  rw [if_neg hd, Build.outcome_bind_of_ok (Build.outcome_get w),
    Build.outcome_bind_of_ok (outcome_plant w d (n.statement w))]
  cases copy with
  | true => rfl
  | false =>
    have hdetach := outcome_detach (w.setTree d ((w.tree d).plant (n.statement w)).1)
      n.document n.id
    rw [Workspace.tree_setTree_of_ne hd] at hdetach
    exact Build.outcome_bind_of_ok hdetach

theorem outcome_construct_empty (argument : Option String) (parent : Option Node)
    (children : List Expr) (received : Build (List NodeId)) :
    (d.construct "" argument parent children received).outcome w = (.error .emptyKeyword, w) :=
  rfl

theorem construct_of_ne {keyword : String} (hkeyword : keyword ≠ "") (argument : Option String)
    (parent : Option Node) (children : List Expr) (received : Build (List NodeId)) :
    d.construct keyword argument parent children received = (do
      let parent ← parent.mapM d.ownId
      d.guardMoves parent false children
      let ids ← received
      d.edit (·.assemble keyword argument parent ids)) := by
  unfold construct
  rw [if_neg hkeyword]

end Document

theorem Node.outcome_build_root (w : Workspace) (n : Node) {keyword : String}
    (hroot : Keyword.isRoot keyword = true) (input : Input) :
    (n.build keyword input).outcome w = (.error (.rootKeywordNested keyword (n.keyword w)), w) := by
  unfold Node.build
  rw [if_pos hroot]
  rfl

theorem Node.build_of_not_root (n : Node) {keyword : String}
    (hroot : Keyword.isRoot keyword = false) (input : Input) :
    n.build keyword input = (do
      let child ← n.document.build keyword input (some n)
      n.document.attach n.id child.id
      return child) := by
  unfold Node.build
  rw [hroot]
  rfl

end YangDoc
