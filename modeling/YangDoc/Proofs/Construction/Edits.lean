import YangDoc.Proofs.Construction.Outcome
import YangDoc.Proofs.Expr.Nodes
import YangDoc.Proofs.Tree.Moves

/-!
# Building is a sequence of edits

Every construction, whether it succeeds or is refused half way, takes the workspace through a
sequence of edits of single tables. This is proved once, by going through the constructions; what
follows about all of building is then a matter of single edits. The nodes that a construction is
given have to exist, as nodes do that a caller holds: nothing is ever removed, so they keep
existing while earlier parts of the same call run.
-/

namespace YangDoc

open Relation

/-! ### Nodes that exist -/

def Node.Live (n : Node) (w : Workspace) : Prop :=
  n.id < (n.tree w).size

instance (n : Node) (w : Workspace) : Decidable (n.Live w) :=
  inferInstanceAs (Decidable (n.id < (n.tree w).size))

def Expr.Live (e : Expr) (w : Workspace) : Prop :=
  ∀ n ∈ e.nodes, n.Live w

instance (e : Expr) (w : Workspace) : Decidable (e.Live w) :=
  inferInstanceAs (Decidable (∀ n ∈ e.nodes, n.Live w))

/-- What has been frozen names no nodes, so there is none that might not exist. -/
theorem Expr.live_of_mem_frozenAll (w : Workspace) (es : List Expr) {w' : Workspace} :
    ∀ n ∈ nodesAll (frozenAll w es), n.Live w' := by
  rw [nodesAll_frozenAll]
  simp

namespace Workspace

/-- The tables of all documents are forests. -/
def Sound (w : Workspace) : Prop :=
  ∀ d, w.Has d → (w.tree d).Forest

inductive Edit (w : Workspace) : Workspace → Prop where
  | tree (d : Document) {t : Tree} (hd : w.Has d) (hedit : (w.tree d).Edit t) :
      Edit w (w.setTree d t)

def Edits : Workspace → Workspace → Prop :=
  ReflTransGen Edit

variable {w w' : Workspace} {d : Document} {t : Tree}

theorem Edit.has_iff (hedit : w.Edit w') : w'.Has d ↔ w.Has d := by
  obtain ⟨d', -, -⟩ := hedit
  exact has_setTree

theorem Edit.size_le (hedit : w.Edit w') (d : Document) :
    (w.tree d).size ≤ (w'.tree d).size := by
  obtain ⟨d', hd', hedit⟩ := hedit
  by_cases heq : d = d'
  · subst heq
    rw [tree_setTree hd']
    exact hedit.size_le
  · rw [tree_setTree_of_ne heq]

theorem Edit.sound (hedit : w.Edit w') (hw : w.Sound) : w'.Sound := by
  intro d hd
  rw [hedit.has_iff] at hd
  obtain ⟨d', hd', hedit⟩ := hedit
  by_cases heq : d = d'
  · subst heq
    rw [tree_setTree hd']
    exact hedit.forest (hw d hd)
  · rw [tree_setTree_of_ne heq]
    exact hw d hd

theorem Edits.has_iff (hedits : w.Edits w') : w'.Has d ↔ w.Has d := by
  induction hedits with
  | refl => rfl
  | tail _ hedit ih => exact hedit.has_iff.trans ih

theorem Edits.size_le (hedits : w.Edits w') (d : Document) :
    (w.tree d).size ≤ (w'.tree d).size := by
  induction hedits with
  | refl => exact le_rfl
  | tail _ hedit ih => exact ih.trans (hedit.size_le d)

theorem Edits.sound (hedits : w.Edits w') (hw : w.Sound) : w'.Sound := by
  induction hedits with
  | refl => exact hw
  | tail _ hedit ih => exact hedit.sound ih

theorem Edits.tree (hedits : w.Edits w') (d : Document) : (w.tree d).Edits (w'.tree d) := by
  induction hedits with
  | refl => exact .refl
  | @tail w₁ w₂ _ hedit ih =>
    obtain ⟨d', hd', hedit⟩ := hedit
    by_cases heq : d = d'
    · subst heq
      rw [tree_setTree hd']
      exact ih.tail hedit
    · rw [tree_setTree_of_ne heq]
      exact ih

theorem Edits.live {n : Node} (hedits : w.Edits w') (hn : n.Live w) : n.Live w' :=
  Nat.lt_of_lt_of_le hn (hedits.size_le n.document)

theorem Edits.liveExpr {e : Expr} (hedits : w.Edits w') (he : e.Live w) : e.Live w' :=
  fun n hn => hedits.live (he n hn)

theorem edits_setTree (hd : w.Has d) (hedits : (w.tree d).Edits t) : w.Edits (w.setTree d t) := by
  induction hedits with
  | refl =>
    rw [setTree_tree]
    exact .refl
  | @tail u v _ hedit ih =>
    have hstep : ((w.setTree d u).tree d).Edit v := by
      rwa [tree_setTree hd]
    have hlast := Edit.tree d (has_setTree.2 hd) hstep
    rw [setTree_setTree] at hlast
    exact ih.tail hlast

end Workspace

theorem Node.Live.has {n : Node} {w : Workspace} (hn : n.Live w) : w.Has n.document := by
  by_contra hnot
  have hindex : w.trees.size ≤ n.document.index := Nat.not_lt.1 hnot
  have hempty : (n.tree w).size = 0 := by
    simp [Node.tree, Workspace.tree, Array.getElem?_eq_none hindex, Tree.size]
    rfl
  rw [Node.Live, hempty] at hn
  exact Nat.not_lt_zero _ hn

/-! ### Computations made of edits -/

namespace Build

variable {α β : Type}

/-- Started in `w`, the computation makes edits only, and a result that it returns is good in the
workspace where it ends. -/
structure Safe (m : Build α) (w : Workspace) (good : α → Workspace → Prop) : Prop where
  edits : w.Edits (m.outcome w).2
  good : ∀ a, (m.outcome w).1 = .ok a → good a (m.outcome w).2

variable {w : Workspace} {good : α → Workspace → Prop} {next : β → Workspace → Prop}

theorem Safe.of_ok {m : Build α} {a : α} {w' : Workspace} (hm : m.Safe w good)
    (hok : m.outcome w = (.ok a, w')) : w.Edits w' ∧ good a w' := by
  obtain ⟨hedits, hgood⟩ := hm
  rw [hok] at hedits hgood
  exact ⟨hedits, hgood a rfl⟩

theorem Safe.of_unchanged {m : Build α} (hm : (m.outcome w).2 = w) :
    m.Safe w fun a w' => m.outcome w = (.ok a, w) ∧ w' = w := by
  refine ⟨?_, fun a ha => ⟨Prod.ext ha hm, hm⟩⟩
  rw [hm]
  exact .refl

theorem Safe.bind {m : Build α} {f : α → Build β} (hm : m.Safe w good)
    (hf : ∀ a w', w.Edits w' → good a w' → (f a).Safe w' next) : (m >>= f).Safe w next := by
  obtain ⟨hedits, hgood⟩ := hm
  rcases hrun : m.outcome w with ⟨e | a, w'⟩
  · rw [hrun] at hedits
    refine ⟨?_, ?_⟩
    · rw [outcome_bind_of_error hrun]
      exact hedits
    · rw [outcome_bind_of_error hrun]
      simp
  · rw [hrun] at hedits hgood
    obtain ⟨hrest, hnext⟩ := hf a w' hedits (hgood a rfl)
    refine ⟨?_, ?_⟩
    · rw [outcome_bind_of_ok hrun]
      exact hedits.trans hrest
    · rw [outcome_bind_of_ok hrun]
      exact hnext

theorem Safe.mono {m : Build α} {good' : α → Workspace → Prop} (hm : m.Safe w good)
    (hgood : ∀ a w', w.Edits w' → good a w' → good' a w') : m.Safe w good' :=
  ⟨hm.edits, fun a ha => hgood a _ hm.edits (hm.good a ha)⟩

theorem Safe.pure {a : α} (ha : good a w) : (Pure.pure a : Build α).Safe w good :=
  (Safe.of_unchanged rfl).mono fun _ _ _ h => by
    rw [← Except.ok.inj (congrArg Prod.fst h.1), h.2]
    exact ha

theorem Safe.get_bind {f : Workspace → Build β} (hf : (f w).Safe w next) :
    (get >>= f).Safe w next := by
  apply (Safe.of_unchanged rfl).bind
  intro w₀ w₁ _ hread
  rw [← Except.ok.inj (congrArg Prod.fst hread.1), hread.2]
  exact hf

end Build

namespace Document

variable {α : Type} {w : Workspace} {d : Document}

theorem edit_safe {f : Tree → Except Error α × Tree} {good : α → Workspace → Prop}
    (hd : w.Has d) (hedits : (w.tree d).Edits (f (w.tree d)).2)
    (hgood : ∀ a, (f (w.tree d)).1 = .ok a → good a (w.setTree d (f (w.tree d)).2)) :
    (d.edit f).Safe w good := by
  refine ⟨?_, ?_⟩
  · rw [outcome_edit]
    exact Workspace.edits_setTree hd hedits
  · rw [outcome_edit]
    exact hgood

/-- The position is one of the document's table. -/
def Fits (d : Document) (id : Nat) (w : Workspace) : Prop :=
  id < (w.tree d).size

theorem Fits.mono {id : Nat} {w w' : Workspace} (hedits : w.Edits w') (hid : d.Fits id w) :
    d.Fits id w' :=
  Nat.lt_of_lt_of_le hid (hedits.size_le d)

theorem plant_safe (hw : w.Sound) (hd : w.Has d) (s : Statement) :
    (d.plant s).Safe w fun id w' => d.Fits id w' ∧ ∀ q, ¬ (w'.tree d).Lists q id := by
  refine edit_safe hd (.single (.plant s)) ?_
  intro id hid
  have hplanted := (w.tree d).planted s
  have hsize := hplanted.size_eq
  have hpos := s.size_pos
  have heq : (w.tree d).size = id := ((w.tree d).plant_snd s).symm.trans (Except.ok.inj hid)
  rw [Workspace.tree_setTree hd, Fits, Workspace.tree_setTree hd, ← heq]
  refine ⟨?_, hplanted.not_lists (hw d hd).listed_lt⟩
  change (w.tree d).size < ((w.tree d).plant s).1.size
  omega

theorem attach_safe (hw : w.Sound) (hd : w.Has d) {p c : Nat} (hp : d.Fits p w)
    (hc : d.Fits c w) : (d.attach p c).Safe w fun _ _ => True := by
  refine edit_safe hd ((hw d hd).attachAll_edits hp [c] ?_) fun _ _ => trivial
  intro x hx
  rw [List.mem_singleton.1 hx]
  exact hc

end Document

end YangDoc
