import YangDoc.Node.Walk
import YangDoc.Proofs.Tree.Preorder

/-!
# The loop of a traversal

A traversal is a loop around a stack: each round takes the first statement off the stack and puts
its admitted substatements on. That it stops at all, and visits nothing twice, is not to be seen in
the loop; it holds because the lists of the table form a forest. Then the rounds are as many as the
statements visited, never more than the table has rows, and the order is the recursive one.

What a traversal of statements leaves out are the comments below the statement it starts from, each
with all that lies below it. What a walk selects has no influence on where it goes.
-/

namespace YangDoc

namespace Tree

open Relation

variable {t : Tree} {scope : Scope} {a b c p r x : Nat}

/-! ### The rounds of the loop -/

/-- The stack that is left after so many rounds of a traversal. -/
def pending (t : Tree) (scope : Scope) : (rounds : Nat) → (stack : List NodeId) → List NodeId
  | 0, stack => stack
  | _ + 1, [] => []
  | rounds + 1, id :: stack => pending t scope rounds (t.admitted scope id ++ stack)

namespace Forest

/-- One round for each statement at or below those on the stack visits them all and leaves nothing
on the stack. -/
theorem pending_eq_nil (h : t.Forest) (scope : Scope) (rounds : Nat) :
    ∀ stack : List Nat, (stack.flatMap (t.preorder scope)).length = rounds →
      t.pending scope rounds stack = [] ∧
        t.visit scope rounds stack = stack.flatMap (t.preorder scope) := by
  induction rounds with
  | zero =>
    intro stack hrounds
    cases stack with
    | nil => exact ⟨rfl, rfl⟩
    | cons x stack =>
      rw [List.flatMap_cons, h.preorder_eq] at hrounds
      simp at hrounds
  | succ rounds ih =>
    intro stack hrounds
    cases stack with
    | nil => simp at hrounds
    | cons x stack =>
      have hround : (x :: stack).flatMap (t.preorder scope) =
          x :: (t.admitted scope x ++ stack).flatMap (t.preorder scope) := by
        rw [List.flatMap_cons, List.flatMap_append, h.preorder_eq, List.cons_append]
      rw [hround, List.length_cons, Nat.add_right_cancel_iff] at hrounds
      obtain ⟨hempty, hvisit⟩ := ih _ hrounds
      rw [pending, visit, hround, hvisit]
      exact ⟨hempty, rfl⟩

theorem length_preorder_le (h : t.Forest) (scope : Scope) (hr : r < t.size) :
    (t.preorder scope r).length ≤ t.size := by
  have hsub : t.preorder scope r ⊆ List.range t.size := by
    intro x hx
    rw [List.mem_range]
    exact h.above_lt_size (h.above_of_mem_preorder hx) hr
  have hle := ((h.nodup_preorder scope r).subperm hsub).length_le
  rwa [List.length_range] at hle

theorem preorder_rounds (h : t.Forest) (scope : Scope) (hr : r < t.size) :
    ∃ rounds ≤ t.size, t.pending scope rounds [r] = [] ∧
      t.visit scope rounds [r] = t.preorder scope r := by
  have hloop := h.pending_eq_nil scope _ [r] rfl
  rw [List.flatMap_singleton] at hloop
  exact ⟨_, h.length_preorder_le scope hr, hloop⟩

/-! ### The order of the statements visited -/

private theorem sublist_flatMap {f : Nat → List Nat} (hf : ∀ x, x ∈ f x) (xs : List Nat) :
    xs.Sublist (xs.flatMap f) := by
  induction xs with
  | nil => exact List.nil_sublist _
  | cons x xs ih =>
    rw [List.flatMap_cons]
    exact (List.singleton_sublist.2 (hf x)).append ih

theorem cons_admitted_sublist (h : t.Forest) (hx : x ∈ t.preorder scope r) :
    (x :: t.admitted scope x).Sublist (t.preorder scope r) := by
  induction r using h.induction_below with
  | step r ih =>
    rw [h.preorder_eq] at hx ⊢
    rcases List.mem_cons.1 hx with heq | hbelow
    · rw [heq]
      exact (sublist_flatMap (h.mem_preorder_self scope) _).cons_cons r
    · obtain ⟨c, hc, hxc⟩ := List.mem_flatMap.1 hbelow
      have hlist : t.Lists r c := List.mem_of_mem_filter hc
      have hsub := ih c hlist hxc
      have hpart : (t.preorder scope c).Sublist ((t.admitted scope r).flatMap (t.preorder scope)) :=
        List.sublist_flatten_of_mem (List.mem_map_of_mem hc)
      exact (hsub.trans hpart).cons r

end Forest

/-! ### Comments left out -/

/-- Whether `x` is, or lies below, a comment of the subtree of `r` other than `r`. -/
def inComment (t : Tree) (r x : NodeId) : Bool :=
  (t.preorder .all r).any fun c =>
    c != r && Keyword.isComment (t.keyword c) && t.isAncestor c x

namespace Forest

theorem inComment_iff (h : t.Forest) : t.inComment r x = true ↔
    ∃ c, t.Above r c ∧ c ≠ r ∧ Keyword.isComment (t.keyword c) = true ∧ t.Above c x := by
  rw [inComment, List.any_eq_true]
  simp only [h.mem_preorder_iff, Bool.and_eq_true, bne_iff_ne, h.isAncestor_iff, and_assoc]

theorem above_antisymm (h : t.Forest) (hab : t.Above a b) (hba : t.Above b a) : a = b := by
  rcases above_cases hba with heq | ⟨p, hlist, hbp⟩
  · exact heq
  · exact absurd hlist (h.not_lists_of_above (hab.trans hbp))

theorem not_inComment_self (h : t.Forest) (r : Nat) : t.inComment r r = false := by
  rw [← Bool.not_eq_true, h.inComment_iff]
  intro hcomment
  obtain ⟨c, hrc, hne, -, hcr⟩ := hcomment
  exact hne (h.above_antisymm hcr hrc)

theorem inComment_of_comment (h : t.Forest) (hc : t.Lists r c)
    (hcomment : Keyword.isComment (t.keyword c) = true) (hx : t.Above c x) :
    t.inComment r x = true := by
  have hne : c ≠ r := by
    intro heq
    exact h.not_lists_of_above .refl (heq ▸ hc)
  exact h.inComment_iff.2 ⟨c, .single hc, hne, hcomment, hx⟩

/-- Below a substatement that is no comment it makes no difference where the traversal started. -/
theorem inComment_congr (h : t.Forest) (hc : t.Lists r c)
    (hstatement : Keyword.isComment (t.keyword c) = false) (hx : t.Above c x) :
    t.inComment r x = t.inComment c x := by
  rw [Bool.eq_iff_iff, h.inComment_iff, h.inComment_iff]
  constructor
  · intro hcomment
    obtain ⟨b, hrb, hne, hb, hbx⟩ := hcomment
    refine ⟨b, ?_, ?_, hb, hbx⟩
    · -- of the two on the way to `x` the comment is the lower one
      rcases h.above_total hbx hx with hbc | hcb
      · rcases above_cases hbc with heq | ⟨p, hpc, hbp⟩
        · exact heq ▸ .refl
        · rw [h.lists_unique hpc hc] at hbp
          exact absurd (h.above_antisymm hbp hrb) hne
      · exact hcb
    · intro heq
      rw [heq, hstatement] at hb
      cases hb
  · intro hcomment
    obtain ⟨b, hcb, -, hb, hbx⟩ := hcomment
    refine ⟨b, hcb.head hc, ?_, hb, hbx⟩
    intro heq
    exact h.not_lists_of_above hcb (heq ▸ hc)

/-- Of a substatement nothing is left if it is a comment, and otherwise what a traversal from there
leaves. -/
theorem filter_inComment (h : t.Forest) (hc : t.Lists r c) :
    (t.preorder .all c).filter (fun x => !t.inComment r x) =
      if Scope.statements.admits (t.keyword c) then
        (t.preorder .all c).filter fun x => !t.inComment c x
      else [] := by
  rw [Scope.admits]
  cases hcomment : Keyword.isComment (t.keyword c) with
  | true =>
    rw [Bool.not_true, if_neg Bool.false_ne_true, List.filter_eq_nil_iff]
    intro x hx
    rw [h.inComment_of_comment hc hcomment (h.mem_preorder_iff.1 hx)]
    exact Bool.false_ne_true
  | false =>
    rw [Bool.not_false, if_pos rfl]
    apply List.filter_congr
    intro x hx
    rw [h.inComment_congr hc hcomment (h.mem_preorder_iff.1 hx)]

private theorem flatMap_filter (keep : Nat → Bool) (f : Nat → List Nat) (xs : List Nat) :
    (xs.filter keep).flatMap f = xs.flatMap fun x => if keep x then f x else [] := by
  induction xs with
  | nil => rfl
  | cons x xs ih =>
    rw [List.filter_cons, List.flatMap_cons]
    split
    · rw [List.flatMap_cons, ih]
    · rw [List.nil_append, ih]

/-- A traversal of statements visits what the full one does, except the comments below its start
and what lies below them. -/
theorem preorder_statements (h : t.Forest) (r : Nat) :
    t.preorder .statements r = (t.preorder .all r).filter fun x => !t.inComment r x := by
  induction r using h.induction_below with
  | step r ih =>
    have hall : t.admitted .all r = t.children r := by
      rw [admitted, List.filter_eq_self]
      exact fun _ _ => rfl
    rw [h.preorder_eq, h.preorder_eq .all, hall,
      List.filter_cons_of_pos (by rw [h.not_inComment_self, Bool.not_false]),
      List.filter_flatMap, admitted, flatMap_filter]
    congr 1
    apply List.flatMap_congr
    intro c hc
    rw [h.filter_inComment hc, ih c hc]

end Forest

end Tree

/-! ### Walks that only look -/

section Walk

variable {α : Type}

/-- A function of a node that looks at the workspace and leaves it as it is. -/
def observing (f : Workspace → Node → α) (n : Node) : StateM Workspace α := do
  return f (← get) n

theorem run_selectMapM (select : Workspace → Node → Bool) (apply : Workspace → Node → α)
    (w : Workspace) (nodes : List Node) :
    (selectMapM (observing select) (observing apply) nodes).run w =
      ((nodes.filter (select w)).map (apply w), w) := by
  induction nodes with
  | nil => rfl
  | cons n nodes ih =>
    have hstep : (selectMapM (observing select) (observing apply) (n :: nodes)).run w =
        if select w n then Prod.map (apply w n :: ·) id
          ((selectMapM (observing select) (observing apply) nodes).run w)
        else (selectMapM (observing select) (observing apply) nodes).run w := by
      show StateT.run (if select w n = true then _ else _) w = _
      split
      · rfl
      · rfl
    rw [hstep, ih, List.filter_cons]
    split
    · rfl
    · rfl

end Walk

namespace Tree

variable {t : Tree} {r : Nat}

/-- The loop of a traversal ends after at most as many rounds as the table has rows, and what it has
visited is the recursive pre-order. Nothing is visited twice, all that lies below is reached, a
statement comes before its substatements and these in order; a traversal of statements leaves out
exactly the comments below its start with what lies below them. The headers met are those of the
snapshot, and a walk that only looks gives what is selected from this order. -/
theorem preorder_exact (ht : t.Reachable) (hr : r < t.size) (scope : Scope) :
    (∃ rounds ≤ t.size, t.pending scope rounds [r] = [] ∧
      t.visit scope rounds [r] = t.preorder scope r) ∧
    t.preorder scope r = r :: (t.admitted scope r).flatMap (t.preorder scope) ∧
    (t.preorder scope r).Nodup ∧
    (∀ x, x ∈ t.preorder .all r ↔ t.Above r x) ∧
    (∀ x ∈ t.preorder scope r, (x :: t.admitted scope x).Sublist (t.preorder scope r)) ∧
    t.preorder .statements r = (t.preorder .all r).filter (fun x => !t.inComment r x) ∧
    (t.preorder .all r).map t.header = (t.snapshot r).headers .all ∧
    ∀ (w : Workspace) (d : Document), w.tree d = t →
      ∀ {α : Type} (select : Workspace → Node → Bool) (apply : Workspace → Node → α),
        ((⟨d, r⟩ : Node).walkMapM (observing select) (observing apply) scope).run w =
          ((((t.preorder scope r).map (Node.mk d)).filter (select w)).map (apply w), w) := by
  have h := ht.forest
  refine ⟨h.preorder_rounds scope hr, h.preorder_eq scope r, h.nodup_preorder scope r,
    fun _ => h.mem_preorder_iff, fun _ => h.cons_admitted_sublist, h.preorder_statements r,
    h.map_header_preorder .all r, ?_⟩
  intro w d htree α select apply
  have hvisited : (⟨d, r⟩ : Node).preorder w scope = (t.preorder scope r).map (Node.mk d) := by
    rw [Node.preorder, Node.tree, htree]
  rw [← hvisited]
  exact run_selectMapM select apply w _

/-- A comment with a leaf below it, and a container with another. -/
def withComment : Tree :=
  ofStatement ⟨"module", some "m", [⟨Keyword.comment, some "// c", [⟨"leaf", some "x", []⟩]⟩,
    ⟨"container", some "c", [⟨"leaf", some "l", []⟩]⟩]⟩

theorem preorder_exact_comment :
    withComment.Reachable ∧ withComment.preorder .all 0 = [0, 1, 2, 3, 4] ∧
      (∃ rounds ≤ withComment.size, withComment.pending .statements rounds [0] = [] ∧
        withComment.visit .statements rounds [0] = withComment.preorder .statements 0) ∧
      withComment.preorder .statements 0 = [0, 3, 4] ∧
      (withComment.preorder .all 0).map withComment.header =
        (withComment.snapshot 0).headers .all := by
  have ht : withComment.Reachable := .ofStatement _
  obtain ⟨hrounds, -, -, -, -, hstatements, hheaders, -⟩ :=
    preorder_exact (r := 0) ht (by decide) .statements
  exact ⟨ht, by decide, hrounds, hstatements.trans (by decide), hheaders⟩

end Tree

end YangDoc
