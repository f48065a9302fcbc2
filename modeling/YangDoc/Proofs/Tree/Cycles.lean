import YangDoc.Proofs.Tree.Preorder

/-!
# Cycles are found on the way up

Whether a move would put a statement beneath itself is a question about what lies below that
statement, and it is answered from the other end, by following parents upward from the target. Both
ends see the same lists: a recorded parent counts only where it lists the statement, and in a forest
nothing else can list it. So the way up is finite, it meets exactly the statements that have the
target in their pre-order, and a move is refused exactly when it would close a cycle or nest the
root.
-/

namespace YangDoc.Tree

open Relation

variable {t t' : Tree} {a c p x : Nat}

/-! ### The way up -/

/-- Where so many steps to the parent lead, if there are as many statements above. -/
def climb (t : Tree) : (steps : Nat) → NodeId → Option NodeId
  | 0, x => some x
  | steps + 1, x => (t.parent? x).bind (climb t steps)

theorem climb_of_depth_lt (h : t.Forest) {depth : Nat → Nat}
    (hdepth : ∀ {p c}, t.Lists p c → depth p < depth c) (steps : Nat) :
    ∀ x, depth x < steps → t.climb steps x = none := by
  induction steps with
  | zero =>
    intro x hx
    omega
  | succ steps ih =>
    intro x hx
    rw [climb]
    cases hparent : t.parent? x with
    | none => rfl
    | some p =>
      have hless := hdepth (h.parent?_eq_some.1 hparent)
      exact ih p (by omega)

namespace Forest

/-- The way up from a statement ends within as many steps as the table has rows. -/
theorem climb_eq_none (h : t.Forest) (x : Nat) : t.climb (t.size + 1) x = none := by
  obtain ⟨depth, hlt, hle⟩ := h.exists_depth
  apply climb_of_depth_lt h hlt
  have := hle x
  omega

theorem above_iff_climb (h : t.Forest) : t.Above a x ↔ ∃ steps, t.climb steps x = some a := by
  constructor
  · intro habove
    induction habove with
    | refl => exact ⟨0, rfl⟩
    | @tail p x _ hlist ih =>
      obtain ⟨steps, hsteps⟩ := ih
      use steps + 1
      rw [climb, h.parent?_eq_some.2 hlist]
      exact hsteps
  · intro hclimb
    obtain ⟨steps, hsteps⟩ := hclimb
    induction steps generalizing x with
    | zero =>
      rw [Option.some.inj hsteps]
      exact .refl
    | succ steps ih =>
      rw [climb, Option.bind_eq_some_iff] at hsteps
      obtain ⟨p, hparent, hp⟩ := hsteps
      exact (ih hp).tail (h.parent?_eq_some.1 hparent)

end Forest

/-! ### Moves that are made and moves that are refused -/

/-- What a table has become when `c` has moved to the end of the list of `p`. -/
structure Moved (t : Tree) (p c : Nat) (t' : Tree) : Prop where
  source_eq : t'.source = t.source
  size_eq : t'.size = t.size
  header_eq : ∀ x, t'.header x = t.header x
  children_eq : t'.children p = (t.children p).filter (· != c) ++ [c]
  children_of_ne : ∀ x, x ≠ p → t'.children x = (t.children x).filter (· != c)
  recorded_eq : t'.recorded c = some p
  recorded_of_ne : ∀ x, x ≠ c → t'.recorded x = t.recorded x

namespace Forest

theorem moved_of_attach (h : t.Forest) (hp : p < t.size) (hc : c < t.size)
    (hok : t.attach p c = .ok t') : t.Moved p c t' where
  source_eq := source_attach hok
  size_eq := size_attach hok
  header_eq := header_attach hok
  children_eq := by rw [h.children_attach hp hok, if_pos rfl]
  children_of_ne := by
    intro x hx
    rw [h.children_attach hp hok, if_neg hx, List.append_nil]
  recorded_eq := by rw [recorded_attach hc hok, if_pos rfl]
  recorded_of_ne := by
    intro x hx
    rw [recorded_attach hc hok, if_neg hx]

/-- A move is refused when it would nest the root or close a cycle, and made otherwise. -/
theorem attach_cases (h : t.Forest) (hp : p < t.size) (hc : c < t.size) :
    if c = root ∨ p ∈ t.preorder .all c then ∃ e, t.attach p c = .error e
    else ∃ t', t.attach p c = .ok t' ∧ t.Moved p c t' := by
  have hallowed : t.refusal? (some p) c = none ↔ ¬ (c = root ∨ p ∈ t.preorder .all c) := by
    rw [h.refusal?_eq_none_iff, h.mem_preorder_iff, not_or]
    simp
  cases hrefusal : t.refusal? (some p) c with
  | some e =>
    have hrefused : c = root ∨ p ∈ t.preorder .all c := by
      by_contra hnot
      rw [hallowed.2 hnot] at hrefusal
      cases hrefusal
    rw [if_pos hrefused]
    use e
    rw [Tree.attach, hrefusal]
  | none =>
    rw [if_neg (hallowed.1 hrefusal)]
    have hok : t.attach p c = .ok ((t.detach c).link p c) := by
      rw [Tree.attach, hrefusal]
    exact ⟨_, hok, h.moved_of_attach hp hc hok⟩

end Forest

/-- Looking upward from a statement ends, and it finds exactly the statements that have it in their
pre-order. So a move is refused, and the table kept, exactly when it would nest the root or put a
statement beneath itself; any other move takes the statement off the list it was on to the end of
the new one, and changes nothing else. -/
theorem cycle_detection_exact (ht : t.Reachable) :
    (∀ a x, t.climb (t.size + 1) x = none ∧
      (t.isAncestor a x = true ↔ ∃ steps, t.climb steps x = some a) ∧
      (t.isAncestor a x = true ↔ x ∈ t.preorder .all a)) ∧
    ∀ p c, p < t.size → c < t.size →
      if c = root ∨ p ∈ t.preorder .all c then
        ∃ e, t.attach p c = .error e ∧ t.attachAll p [c] = (.error e, t)
      else ∃ t', t.attach p c = .ok t' ∧ t.Moved p c t' := by
  have h := ht.forest
  constructor
  · intro a x
    rw [h.isAncestor_iff]
    exact ⟨h.climb_eq_none x, h.above_iff_climb, h.mem_preorder_iff.symm⟩
  · intro p c hp hc
    have hcases := h.attach_cases hp hc
    split
    · rename_i hrefused
      rw [if_pos hrefused] at hcases
      obtain ⟨e, he⟩ := hcases
      refine ⟨e, he, ?_⟩
      rw [attachAll, he]
    · rename_i hallowed
      rwa [if_neg hallowed] at hcases

/-- A container with a leaf, and a leaf beside them that records the container as its parent but is
on no list. -/
def withStrayLeaf : Tree :=
  ((ofStatement ⟨"module", some "m", [⟨"container", some "c", [⟨"leaf", some "l", []⟩]⟩]⟩).push
    "leaf" none).1.setParent 3 (some 1)

theorem reachable_withStrayLeaf : withStrayLeaf.Reachable := by
  refine ((Reachable.ofStatement _).edit (.push "leaf" none)).edit (.record 3 (some 1) ?_)
  intro q hq
  rw [Lists, children_push] at hq
  exact (forest_ofStatement _).not_lists_size q hq

/-- The container may not move under its own leaf, but it may move under the leaf that only records
it. -/
theorem cycle_detection_exact_stray :
    withStrayLeaf.Reachable ∧
      (∃ e, withStrayLeaf.attach 2 1 = .error e ∧
        withStrayLeaf.attachAll 2 [1] = (.error e, withStrayLeaf)) ∧
      ∃ t', withStrayLeaf.attach 3 1 = .ok t' ∧ withStrayLeaf.Moved 3 1 t' := by
  have hmoves := (cycle_detection_exact reachable_withStrayLeaf).2
  have hunder := hmoves 2 1 (by decide) (by decide)
  have hbeside := hmoves 3 1 (by decide) (by decide)
  rw [if_pos (by decide)] at hunder
  rw [if_neg (by decide)] at hbeside
  exact ⟨reachable_withStrayLeaf, hunder, hbeside⟩

end YangDoc.Tree
