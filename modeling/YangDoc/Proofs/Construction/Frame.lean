import YangDoc.Proofs.Construction.Edits
import YangDoc.Proofs.Tree.Below

/-!
# What building leaves alone

While expressions are received, old statements keep their headers, and their lists lose at most
nodes that are to move. So a statement with no such node below it keeps its value, and no old
statement comes to lie below another: the frame says all that later steps of the same call need to
know about earlier ones.
-/

namespace YangDoc

namespace Tree

/-- Old statements keep their headers, and their lists have lost at most statements that were to
move. -/
structure Kept (moved : Nat → Prop) (t t' : Tree) : Prop where
  size_le : t.size ≤ t'.size
  header_eq : ∀ x, x < t.size → t'.header x = t.header x
  children_eq : ∀ x, x < t.size → ∃ keep : Nat → Bool, t'.children x = (t.children x).filter keep ∧
    ∀ c, c < t.size → ¬ moved c → keep c = true

variable {t t' t'' : Tree} {moved moved' : Nat → Prop} {a c x : Nat}

namespace Kept

theorem refl (moved : Nat → Prop) (t : Tree) : t.Kept moved t :=
  ⟨le_rfl, fun _ _ => rfl, fun _ _ =>
    ⟨fun _ => true, (List.filter_eq_self.2 fun _ _ => rfl).symm, fun _ _ _ => rfl⟩⟩

theorem trans (h : t.Kept moved t') (h' : t'.Kept moved' t'')
    (hmoved : ∀ c, c < t.size → moved' c → moved c) : t.Kept moved t'' := by
  have hsize := h.size_le
  refine ⟨hsize.trans h'.size_le, ?_, ?_⟩
  · intro x hx
    rw [h'.header_eq x (by omega), h.header_eq x hx]
  · intro x hx
    obtain ⟨keep, hkeep, hkept⟩ := h.children_eq x hx
    obtain ⟨keep', hkeep', hkept'⟩ := h'.children_eq x (by omega)
    refine ⟨fun c => keep' c && keep c, ?_, ?_⟩
    · rw [hkeep', hkeep, List.filter_filter]
    · intro c hc hnot
      have hlater := hkept' c (by omega) fun hm => hnot (hmoved c hc hm)
      simp [hlater, hkept c hc hnot]

theorem mono (h : t.Kept moved t') (hmoved : ∀ c, moved c → moved' c) : t.Kept moved' t' := by
  refine ⟨h.size_le, h.header_eq, fun x hx => ?_⟩
  obtain ⟨keep, hkeep, hkept⟩ := h.children_eq x hx
  exact ⟨keep, hkeep, fun c hc hnot => hkept c hc fun hm => hnot (hmoved c hm)⟩

theorem lists (h : t.Kept moved t') (hx : x < t.size) (hlist : t'.Lists x c) : t.Lists x c := by
  obtain ⟨keep, hkeep, -⟩ := h.children_eq x hx
  rw [Lists, hkeep] at hlist
  exact List.mem_of_mem_filter hlist

theorem above (h : t.Kept moved t') (ht : t.Forest) (ha : a < t.size) (hx : t'.Above a x) :
    t.Above a x :=
  (hx.of_closed (S := (· < t.size)) (fun _ hlist => ht.listed_lt hlist)
    (fun hq hlist => h.lists hq hlist) ha).1

theorem sameBelow (h : t.Kept moved t') (ht : t.Forest) (ha : a < t.size)
    (hfree : ∀ c, t.Above a c → ¬ moved c) : t.SameBelow t' a := by
  intro x hx
  have hlt := ht.above_lt_size hx ha
  obtain ⟨keep, hkeep, hkept⟩ := h.children_eq x hlt
  refine ⟨h.header_eq x hlt, ?_⟩
  rw [hkeep, List.filter_eq_self]
  exact fun c hc => hkept c (ht.listed_lt hc) (hfree c (hx.tail hc))

end Kept

theorem Planted.kept {s : Statement} (h : Planted t s t') (moved : Nat → Prop) :
    t.Kept moved t' := by
  refine ⟨by have := h.size_eq; omega, ?_, fun x hx => ⟨fun _ => true, ?_, fun _ _ _ => rfl⟩⟩
  · intro x hx
    rw [header, keyword, argument, h.row_eq x hx]
    rfl
  · rw [List.filter_eq_self.2 fun _ _ => rfl, children, h.row_eq x hx]
    rfl

theorem Forest.kept_detach (h : t.Forest) (hc : moved c) : t.Kept moved (t.detach c) := by
  refine ⟨by rw [size_detach], fun x _ => header_detach t c x, fun x _ => ⟨(· != c), ?_, ?_⟩⟩
  · rw [h.children_detach]
  · intro y _ hnot
    rw [bne_iff_ne]
    rintro rfl
    exact hnot hc

theorem Assembled.kept {k : String} {arg : Option String} {ids : List Nat}
    (h : t.Assembled k arg ids t.size t') (hsize : t.size ≤ t'.size) : t.Kept (· ∈ ids) t' := by
  refine ⟨hsize, fun x hx => h.header_of_ne x hx (by omega), fun x hx => ?_⟩
  exact ⟨fun c => decide (c ∉ ids), h.children_of_ne x (by omega),
    fun c _ hnot => decide_eq_true hnot⟩

end Tree

/-! ### Subtrees of nodes -/

theorem Node.mk_injective (d : Document) : Function.Injective (Node.mk d) := by
  intro x y heq
  exact (Node.mk.inj heq).2

/-- The second node lies at or below the first. -/
def Node.Contains (n m : Node) (w : Workspace) : Prop :=
  m.document = n.document ∧ (n.tree w).Above n.id m.id

namespace Workspace

/-- Old statements of every document keep their headers, and their lists have lost at most nodes
that were to move. -/
def Kept (moved : List Node) (w w' : Workspace) : Prop :=
  ∀ d, (w.tree d).Kept (fun c => (⟨d, c⟩ : Node) ∈ moved) (w'.tree d)

variable {w w' w'' : Workspace} {d : Document} {t : Tree} {moved moved' : List Node} {n m : Node}

namespace Kept

theorem refl (moved : List Node) (w : Workspace) : w.Kept moved w :=
  fun d => Tree.Kept.refl _ (w.tree d)

theorem mono (h : w.Kept moved w') (hsub : moved ⊆ moved') : w.Kept moved' w' :=
  fun d => (h d).mono fun _ hm => hsub hm

theorem trans (h : w.Kept moved w') (h' : w'.Kept moved w'') : w.Kept moved w'' :=
  fun d => (h d).trans (h' d) fun _ _ hm => hm

theorem setTree (hd : w.Has d) (h : (w.tree d).Kept (fun c => (⟨d, c⟩ : Node) ∈ moved) t) :
    w.Kept moved (w.setTree d t) := by
  intro d'
  by_cases heq : d' = d
  · subst heq
    rwa [tree_setTree hd]
  · rw [tree_setTree_of_ne heq]
    exact Tree.Kept.refl _ _

theorem contains (h : w.Kept moved w') (hw : w.Sound) (hn : n.Live w) (hm : n.Contains m w') :
    n.Contains m w :=
  ⟨hm.1, (h n.document).above (hw _ hn.has) hn hm.2⟩

/-- A node keeps its value when nothing below it was to move. -/
theorem statement_eq (h : w.Kept moved w') (hw : w.Sound) (hw' : w'.Sound) (hn : n.Live w)
    (hn' : n.Live w') (hfree : ∀ m ∈ moved, ¬ n.Contains m w) :
    n.statement w' = n.statement w := by
  have hsame : (n.tree w).SameBelow (n.tree w') n.id :=
    (h n.document).sameBelow (hw _ hn.has) hn fun c hc hmoved => hfree _ hmoved ⟨rfl, hc⟩
  exact hsame.snapshot_eq (hw _ hn.has) (hw' _ hn'.has)

end Kept

end Workspace

end YangDoc
