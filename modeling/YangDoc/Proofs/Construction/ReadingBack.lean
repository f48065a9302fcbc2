import Mathlib.Algebra.Group.Nat.Defs
import YangDoc.Proofs.Construction.Copying
import YangDoc.Proofs.Tree.Numbering

/-!
# Planting and reading back

Planting a statement and taking a snapshot undo each other. This does not depend on what the table
holds already: the rows before the new ones may list anything, also what does not exist or each
other in a circle, since nothing leads from the new rows to them.

A copy is a snapshot that is planted. It has the value of what was copied and only rows that are
new, so the two have no node in common even where they are in the same document.
-/

namespace YangDoc

namespace Tree

variable {t : Tree} {a : Nat}

theorem Forest.preorder_plant_of_lt (h : t.Forest) (ha : a < t.size) (scope : Scope)
    (s : Statement) : (t.plant s).1.preorder scope a = t.preorder scope a := by
  have hplanted := t.planted s
  exact (h.sameBelow_of_row_eq hplanted.row_eq ha).preorder_eq h (hplanted.forest h)

theorem Forest.disjoint_preorder_plant (h : t.Forest) (ha : a < t.size) (s : Statement) :
    ((t.plant s).1.preorder .all t.size).Disjoint ((t.plant s).1.preorder .all a) := by
  rw [preorder_plant, h.preorder_plant_of_lt ha]
  intro x hnew hold
  have hlt := h.above_lt_size (h.above_of_mem_preorder hold) ha
  rw [List.mem_range'_1] at hnew
  omega

theorem parent?_plant (t : Tree) (s : Statement) : (t.plant s).1.parent? t.size = none := by
  rw [Option.eq_none_iff_forall_ne_some]
  intro p hparent
  have hrecorded := (parent?_eq_some_iff.1 hparent).1
  rw [(t.planted s).recorded_eq] at hrecorded
  cases hrecorded

/-- In a table of at most `2 ^ 32` rows the new positions are words of 32 bits. -/
theorem toNat_ofNat_of_mem_preorder_plant {s : Statement} (hrows : t.size + s.size ≤ 2 ^ 32)
    {x : Nat} (hx : x ∈ (t.plant s).1.preorder .all t.size) : (UInt32.ofNat x).toNat = x := by
  rw [preorder_plant, List.mem_range'_1] at hx
  apply UInt32.toNat_ofNat_of_lt'
  show x < 2 ^ 32
  omega

end Tree

namespace Workspace

variable {w : Workspace} {d : Document} {n : Node}

theorem forest_tree_plant (hd : w.Has d) (h : (n.tree w).Forest) (s : Statement) :
    (n.tree (w.setTree d ((w.tree d).plant s).1)).Forest := by
  by_cases hdoc : n.document = d
  · subst hdoc
    rw [Node.tree, tree_setTree hd]
    exact ((w.tree n.document).planted s).forest h
  · rw [Node.tree, tree_setTree_of_ne hdoc]
    exact h

theorem statement_plant_of_live (hd : w.Has d) (hn : n.Live w) (h : (n.tree w).Forest)
    (s : Statement) : n.statement (w.setTree d ((w.tree d).plant s).1) = n.statement w := by
  have hsame : (n.tree w).SameBelow (n.tree (w.setTree d ((w.tree d).plant s).1)) n.id := by
    refine h.sameBelow_of_row_eq (fun x hx => ?_) hn
    exact row_plant hd s (m := ⟨n.document, x⟩) hx
  exact hsame.snapshot_eq h (forest_tree_plant hd h s)

theorem statement_planted (hd : w.Has d) (s : Statement) :
    (⟨d, (w.tree d).size⟩ : Node).statement (w.setTree d ((w.tree d).plant s).1) = s := by
  rw [Node.statement, Node.tree, tree_setTree hd, Tree.snapshot_plant]

theorem disjoint_preorder_planted (hd : w.Has d) (hn : n.Live w) (h : (n.tree w).Forest)
    (s : Statement) :
    let w' := w.setTree d ((w.tree d).plant s).1
    ((⟨d, (w.tree d).size⟩ : Node).preorder w' .all).Disjoint (n.preorder w' .all) := by
  intro w' m hnew hold
  rw [Node.preorder, List.mem_map] at hnew hold
  obtain ⟨x, hx, rfl⟩ := hnew
  obtain ⟨y, hy, heq⟩ := hold
  obtain ⟨hdoc, rfl⟩ := Node.mk.inj heq
  -- both are in the document that has received the statement
  subst hdoc
  rw [Node.tree, tree_setTree hd] at hx hy
  exact h.disjoint_preorder_plant hn s hx hy

end Workspace

namespace Tree

/-- A statement that is planted in any table takes up as many new rows as it has parts, in
pre-order from the old end of the table on; no row that there was changes, it has no parent, and
reading it gives the statement back. So a document around a statement holds that statement, and a
copy of a node, made in any document, has the value of the node, which the node keeps, and shares no
node with it. -/
theorem plant_snapshot_inverse (t : Tree) :
    (∀ s : Statement,
      (t.plant s).2 = t.size ∧ (t.plant s).1.size = t.size + s.size ∧
      (∀ x, x < t.size → (t.plant s).1.row x = t.row x) ∧
      (t.plant s).1.parent? t.size = none ∧
      (t.plant s).1.snapshot t.size = s ∧
      (t.plant s).1.preorder .all t.size = List.range' t.size s.size ∧
      (t.size + s.size ≤ 2 ^ 32 →
        ∀ x ∈ (t.plant s).1.preorder .all t.size, (UInt32.ofNat x).toNat = x)) ∧
    (∀ top : Statement, (ofStatement top).snapshot root = top) ∧
    ∀ (w : Workspace) (d : Document) (n : Node), w.Has d → w.tree d = t → n.Live w →
      (n.tree w).Reachable →
      let copied := t.copyFrom (n.tree w) n.id
      let w' := w.setTree d copied.1
      (⟨d, copied.2⟩ : Node).statement w' = n.statement w ∧
        n.statement w' = n.statement w ∧
        ((⟨d, copied.2⟩ : Node).preorder w' .all).Disjoint (n.preorder w' .all) := by
  refine ⟨fun s => ?_, snapshot_ofStatement, ?_⟩
  · have hplanted := t.planted s
    exact ⟨plant_snd t s, hplanted.size_eq, hplanted.row_eq, parent?_plant t s, snapshot_plant t s,
      preorder_plant t s, fun hrows x hx => toNat_ofNat_of_mem_preorder_plant hrows hx⟩
  · intro w d n hd htree hn hreachable
    subst htree
    have h := hreachable.forest
    dsimp only [copyFrom]
    rw [plant_snd]
    exact ⟨Workspace.statement_planted hd _, Workspace.statement_plant_of_live hd hn h _,
      Workspace.disjoint_preorder_planted hd hn h _⟩

/-- Two rows that list each other, and the first also a row that does not exist. -/
def circular : Tree :=
  { source := "m", rows := #[{ keyword := "a", children := [1, 2] },
    { keyword := "b", children := [0], parent := some 0 }] }

/-- A container is read back from the row that was listed before it existed. In the sample, where
such a container is the third row, its copy becomes the fourth. -/
theorem plant_snapshot_inverse_circular :
    let s : Statement := ⟨"container", some "c", [⟨"leaf", some "l", []⟩]⟩
    let t := (circular.plant s).1
    (circular.Lists 0 circular.size ∧ circular.size + s.size ≤ 2 ^ 32 ∧ t.parent? 2 = none ∧
      t.snapshot 2 = s ∧ t.preorder .all 2 = [2, 3] ∧
      ∀ x ∈ t.preorder .all 2, (UInt32.ofNat x).toNat = x) ∧
    (Workspace.sample.tree ⟨0⟩).Reachable ∧
      let copied := (Workspace.sample.tree ⟨0⟩).copyFrom (Workspace.sample.tree ⟨0⟩) 2
      let w := Workspace.sample.setTree ⟨0⟩ copied.1
      copied.2 = 3 ∧ (⟨⟨0⟩, 3⟩ : Node).statement w = s ∧ (⟨⟨0⟩, 2⟩ : Node).statement w = s ∧
        ((⟨⟨0⟩, 3⟩ : Node).preorder w .all).Disjoint ((⟨⟨0⟩, 2⟩ : Node).preorder w .all) := by
  intro s t
  have hrows : circular.size + s.size ≤ 2 ^ 32 := by decide
  obtain ⟨-, -, -, hparent, hvalue, horder, hwords⟩ := (plant_snapshot_inverse circular).1 s
  have hreachable := Workspace.reachable_sample.tree (d := ⟨0⟩) (by decide)
  obtain ⟨hcopy, hkept, hdisjoint⟩ := (plant_snapshot_inverse _).2.2 Workspace.sample ⟨0⟩
    ⟨⟨0⟩, 2⟩ (by decide) rfl (by decide) hreachable
  have hsample : (⟨⟨0⟩, 2⟩ : Node).statement Workspace.sample = s := by decide
  exact ⟨⟨by rw [Lists]; decide, hrows, hparent, hvalue, horder, hwords hrows⟩, hreachable, rfl,
    hcopy.trans hsample, hkept.trans hsample, hdisjoint⟩

end Tree

end YangDoc
