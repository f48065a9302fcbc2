import YangDoc.Proofs.Statement.Print
import YangDoc.Proofs.Tree.Below

/-!
# Moves are local

A move changes two lists: the one that the statement leaves and the one that it joins. The value and
the text of a statement are spelled out by the rows at and below it, so only a statement from which
one of the two lists can be reached may read differently afterwards. In a forest these are the two
parents and what lies above them, and the statement that moves is not among them.

All of them do read differently, because a list that was left or joined has another length. Only a
statement that moves to the end of the list it was on may leave everything as it was.
-/

namespace YangDoc.Tree

variable {t t' : Tree} {p c x : Nat}

/-- The statement has the same value, and the same text in every layout, in both tables. -/
structure ReadsAlike (t t' : Tree) (x : Nat) : Prop where
  snapshot_eq : t'.snapshot x = t.snapshot x
  print_eq : ∀ layout, t'.print layout x = t.print layout x

namespace Forest

theorem readsAlike_iff (h : t.Forest) (h' : t'.Forest) :
    t.ReadsAlike t' x ↔ t'.snapshot x = t.snapshot x := by
  refine ⟨fun hsame => hsame.snapshot_eq, fun hsame => ⟨hsame, fun layout => ?_⟩⟩
  rw [h.print_eq, h'.print_eq, hsame]

theorem readsAlike_of_sameBelow (h : t.Forest) (h' : t'.Forest) (hsame : t.SameBelow t' x) :
    t.ReadsAlike t' x :=
  (h.readsAlike_iff h').2 (hsame.snapshot_eq h h')

/-! ### Leaving a list -/

theorem snapshot_detach_eq_iff (h : t.Forest) :
    (t.detach c).snapshot x = t.snapshot x ↔ ∀ q, t.Lists q c → ¬ t.Above x q := by
  constructor
  · intro hsame q hlist habove
    have hbelow : t.SameBelow (t.detach c) x := by
      refine (h.snapshot_eq_iff_sameBelow (h.detach c) (habove.lt_size hlist.lt_size) ?_).1 hsame
      intro y _ hlength
      rw [h.children_detach] at hlength ⊢
      exact List.filter_sublist.eq_of_length hlength
    have hstays : (t.detach c).Lists q c := by
      rw [Lists, (hbelow q habove).2]
      exact hlist
    exact (h.lists_detach.1 hstays).2 rfl
  · intro hleft
    exact (h.sameBelow_detach hleft).snapshot_eq h (h.detach c)

/-! ### Joining a list -/

theorem children_eq_of_attach_of_length (h : t.Forest) (hp : p < t.size)
    (hok : t.attach p c = .ok t') (hother : ¬ t.Lists p c)
    (hlength : (t'.children x).length = (t.children x).length) :
    t'.children x = t.children x := by
  by_cases hx : x = p
  · subst hx
    rw [h.children_attach_of_not_lists hp hok hother, if_pos rfl, List.length_append] at hlength
    simp at hlength
  · rw [h.children_attach hp hok, if_neg hx, List.append_nil] at hlength ⊢
    exact List.filter_sublist.eq_of_length hlength

/-- A move from one list to another changes the values at and above both lists, and no others. -/
theorem snapshot_attach_eq_iff (h : t.Forest) (hp : p < t.size) (hc : c < t.size)
    (hok : t.attach p c = .ok t') (hother : ¬ t.Lists p c) :
    t'.snapshot x = t.snapshot x ↔ ¬ t.Above x p ∧ ∀ q, t.Lists q c → ¬ t.Above x q := by
  have h' := h.attach hp hc hok
  constructor
  · intro hsame
    -- a list at or below the statement is as it was, unlike those that were left and joined
    have hlists : ∀ q, q < t.size → t.Above x q → (t'.Lists q c ↔ t.Lists q c) := by
      intro q hq habove
      have hbelow := (h.snapshot_eq_iff_sameBelow h' (habove.lt_size hq) fun y _ =>
        h.children_eq_of_attach_of_length hp hok hother).1 hsame
      rw [Lists, Lists, (hbelow q habove).2]
    refine ⟨fun habove => ?_, fun q hlist habove => ?_⟩
    · have hjoined : t'.Lists p c := (h.lists_attach hp hok).2 (.inr ⟨rfl, rfl⟩)
      exact hother ((hlists p hp habove).1 hjoined)
    · have hstays := (hlists q hlist.lt_size habove).2 hlist
      rcases (h.lists_attach hp hok).1 hstays with ⟨-, hne⟩ | ⟨heq, -⟩
      · exact hne rfl
      · exact hother (heq ▸ hlist)
  · intro hclear
    exact (h.sameBelow_attach_of_not_above hp hok hclear.1 hclear.2).snapshot_eq h h'

end Forest

/-- A move leaves the value and the text of every statement as they were, except for the new parent,
the one before and what lies above them; the statement that moves keeps its own. If the two parents
are different, none of the excepted statements reads as before. Taking a statement out of its list
changes what its parent reads as, and all above it, and nothing else. -/
theorem moves_local (ht : t.Reachable) (hp : p < t.size) (hc : c < t.size) :
    (∀ t', t.attach p c = .ok t' →
      (∀ x, t.isAncestor x p = false → (∀ q, t.parent? c = some q → t.isAncestor x q = false) →
        t.ReadsAlike t' x) ∧
      t.ReadsAlike t' c ∧
      (t.parent? c ≠ some p → ∀ x, t.ReadsAlike t' x →
        t.isAncestor x p = false ∧ ∀ q, t.parent? c = some q → t.isAncestor x q = false)) ∧
    ∀ x, t.ReadsAlike (t.detach c) x ↔ ∀ q, t.parent? c = some q → t.isAncestor x q = false := by
  have h := ht.forest
  simp only [← Bool.not_eq_true, h.isAncestor_iff, h.parent?_eq_some, ne_eq]
  constructor
  · intro t' hok
    have h' := h.attach hp hc hok
    refine ⟨fun x hjoined hleft => ?_, ?_, fun hother x hsame => ?_⟩
    · exact h.readsAlike_of_sameBelow h'
        (h.sameBelow_attach_of_not_above hp hok hjoined hleft)
    · exact h.readsAlike_of_sameBelow h' (h.sameBelow_attach hp hok)
    · exact (h.snapshot_attach_eq_iff hp hc hok hother).1 hsame.snapshot_eq
  · intro x
    rw [h.readsAlike_iff (h.detach c), h.snapshot_detach_eq_iff]

/-- Three containers, with two leaves, none and one. -/
def withThreeContainers : Tree :=
  ofStatement ⟨"module", some "m",
    [⟨"container", some "a", [⟨"leaf", some "x", []⟩, ⟨"leaf", some "y", []⟩]⟩,
      ⟨"container", some "b", []⟩, ⟨"container", some "c", [⟨"leaf", some "z", []⟩]⟩]⟩

/-- The first leaf moves to the second container. The third container and the leaves read as before,
the root and the other containers do not. -/
theorem moves_local_containers :
    withThreeContainers.Reachable ∧
      (∃ t', withThreeContainers.attach 4 2 = .ok t' ∧
        withThreeContainers.ReadsAlike t' 5 ∧ withThreeContainers.ReadsAlike t' 3 ∧
        withThreeContainers.ReadsAlike t' 2 ∧ ¬ withThreeContainers.ReadsAlike t' 0 ∧
        ¬ withThreeContainers.ReadsAlike t' 1) ∧
      withThreeContainers.ReadsAlike (withThreeContainers.detach 2) 4 ∧
      ¬ withThreeContainers.ReadsAlike (withThreeContainers.detach 2) 0 := by
  have ht : withThreeContainers.Reachable := .ofStatement _
  have hparent : withThreeContainers.parent? 2 = some 1 := by decide
  obtain ⟨hattach, hdetach⟩ := moves_local (p := 4) (c := 2) ht (by decide) (by decide)
  obtain ⟨hkept, hmoved, hchanged⟩ := hattach _ rfl
  have hclear : ∀ x, withThreeContainers.isAncestor x 1 = false →
      ∀ q, withThreeContainers.parent? 2 = some q →
        withThreeContainers.isAncestor x q = false := by
    intro x hx q hq
    rw [hparent] at hq
    rwa [← Option.some.inj hq]
  have hother : withThreeContainers.parent? 2 ≠ some 4 := by decide
  refine ⟨ht, ⟨_, rfl, ?_, ?_, hmoved, fun hsame => ?_, fun hsame => ?_⟩, ?_, fun hsame => ?_⟩
  · exact hkept 5 (by decide) (hclear 5 (by decide))
  · exact hkept 3 (by decide) (hclear 3 (by decide))
  · exact absurd (hchanged hother 0 hsame).1 (by decide)
  · exact absurd ((hchanged hother 1 hsame).2 1 hparent) (by decide)
  · exact (hdetach 4).2 (hclear 4 (by decide))
  · exact absurd ((hdetach 0).1 hsame 1 hparent) (by decide)

end YangDoc.Tree
