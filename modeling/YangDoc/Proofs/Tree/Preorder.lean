import Mathlib.Data.List.Nodup
import YangDoc.Proofs.Statement.Walk

/-!
# Pre-order

A traversal keeps a stack, and what it visits is the subtrees of the statements on the stack, one
after the other: so the pre-order of a statement is the statement followed by the pre-orders of its
admitted substatements. In a forest no two of these have anything in common, which is why nothing
is visited twice, and a traversal that leaves nothing out visits exactly what lies below.
-/

namespace YangDoc.Tree

open Relation

variable {t : Tree} {scope : Scope} {a b c p x : Nat}

/-- What a traversal goes down to takes up less room than the statement above it. -/
theorem Forest.sizeAll_admitted_lt (h : t.Forest) (scope : Scope) (x : Nat) :
    Statement.sizeAll ((t.admitted scope x).map t.snapshot) < (t.snapshot x).size := by
  have hadmitted : (t.admitted scope x).map t.snapshot =
      ((t.children x).map t.snapshot).filter fun s => scope.admits s.keyword := by
    rw [admitted, List.filter_map]
    congr
    funext c
    rw [Function.comp_apply, h.snapshot_eq c]
  have hle := Statement.sizeAll_filter_le (fun s => scope.admits s.keyword)
    ((t.children x).map t.snapshot)
  rw [hadmitted, h.snapshot_eq x, Statement.size]
  omega

theorem preorder_eq_cons_visit (t : Tree) (scope : Scope) (x : Nat) :
    t.preorder scope x =
      x :: t.visit scope ((t.snapshot x).size - 1) (t.admitted scope x) := by
  obtain ⟨room, hroom⟩ : ∃ room, (t.snapshot x).size = room + 1 :=
    Nat.exists_eq_add_one.2 (t.snapshot x).size_pos
  rw [preorder, hroom, visit, List.append_nil, Nat.add_sub_cancel]

-- a bound on the fuel instead of the fuel itself, so that the fuel of a subtree is covered too
private theorem visit_eq_flatMap_of_le (h : t.Forest) (scope : Scope) (bound : Nat) :
    ∀ fuel ≤ bound, ∀ stack : List Nat, Statement.sizeAll (stack.map t.snapshot) ≤ fuel →
      t.visit scope fuel stack = stack.flatMap (t.preorder scope) := by
  induction bound with
  | zero =>
    intro fuel hfuel stack hsize
    cases stack with
    | nil =>
      cases fuel <;> rfl
    | cons x stack =>
      rw [List.map_cons, Statement.sizeAll] at hsize
      have := (t.snapshot x).size_pos
      omega
  | succ bound ih =>
    intro fuel hfuel stack hsize
    cases stack with
    | nil =>
      cases fuel <;> rfl
    | cons x stack =>
      rw [List.map_cons, Statement.sizeAll] at hsize
      have hless := h.sizeAll_admitted_lt scope x
      have hbelow : t.preorder scope x = x :: (t.admitted scope x).flatMap (t.preorder scope) := by
        rw [preorder_eq_cons_visit, ih _ (by omega) _ (by omega)]
      obtain ⟨fuel, rfl⟩ : ∃ rest, fuel = rest + 1 := Nat.exists_eq_add_one.2 (by omega)
      have hrest : Statement.sizeAll ((t.admitted scope x ++ stack).map t.snapshot) ≤ fuel := by
        rw [List.map_append, Statement.sizeAll_append]
        omega
      rw [visit, ih fuel (by omega) _ hrest, List.flatMap_append, List.flatMap_cons, hbelow,
        List.cons_append]

namespace Forest

/-- A traversal visits the subtrees of the statements on its stack, one after the other. -/
theorem visit_eq_flatMap (h : t.Forest) (scope : Scope) {fuel : Nat} {stack : List Nat}
    (hsize : Statement.sizeAll (stack.map t.snapshot) ≤ fuel) :
    t.visit scope fuel stack = stack.flatMap (t.preorder scope) :=
  visit_eq_flatMap_of_le h scope fuel fuel le_rfl stack hsize

theorem preorder_eq (h : t.Forest) (scope : Scope) (x : Nat) :
    t.preorder scope x = x :: (t.admitted scope x).flatMap (t.preorder scope) := by
  have hless := h.sizeAll_admitted_lt scope x
  rw [preorder_eq_cons_visit, h.visit_eq_flatMap scope (by omega)]

theorem above_of_mem_preorder (h : t.Forest) (hx : x ∈ t.preorder scope a) : t.Above a x := by
  induction a using h.induction_below with
  | step a ih =>
    rw [h.preorder_eq, List.mem_cons, List.mem_flatMap] at hx
    rcases hx with rfl | ⟨c, hc, hx⟩
    · exact .refl
    · have hlist : t.Lists a c := List.mem_of_mem_filter hc
      exact (ih c hlist hx).head hlist

theorem mem_preorder_self (h : t.Forest) (scope : Scope) (a : Nat) : a ∈ t.preorder scope a := by
  rw [h.preorder_eq]
  exact List.mem_cons_self

theorem mem_preorder_iff (h : t.Forest) : x ∈ t.preorder .all a ↔ t.Above a x := by
  refine ⟨h.above_of_mem_preorder, fun hx => ?_⟩
  induction hx using ReflTransGen.head_induction_on with
  | refl => exact h.mem_preorder_self .all x
  | @head a c hlist _ ih =>
    rw [h.preorder_eq, List.mem_cons, List.mem_flatMap]
    refine .inr ⟨c, ?_, ih⟩
    rw [admitted, List.mem_filter]
    exact ⟨hlist, rfl⟩

theorem apart_of_siblings (h : t.Forest) (hb : t.Lists p b) (hc : t.Lists p c) (hne : b ≠ c) :
    t.Apart b c := by
  -- of two siblings above one statement, one would lie above the other and so above the parent
  have hnot : ∀ {b c}, t.Lists p b → t.Lists p c → b ≠ c → ¬ t.Above b c := by
    intro b c hb hc hne habove
    rcases above_cases habove with heq | ⟨q, hq, hbq⟩
    · exact hne heq.symm
    · rw [h.lists_unique hq hc] at hbq
      exact h.not_lists_of_above hbq hb
  intro x hbx hcx
  rcases h.above_total hbx hcx with habove | habove
  · exact hnot hb hc hne habove
  · exact hnot hc hb (Ne.symm hne) habove

theorem nodup_preorder (h : t.Forest) (scope : Scope) (a : Nat) : (t.preorder scope a).Nodup := by
  induction a using h.induction_below with
  | step a ih =>
    have hlists : ∀ c ∈ t.admitted scope a, t.Lists a c := fun c hc => List.mem_of_mem_filter hc
    rw [h.preorder_eq, List.nodup_cons, List.nodup_flatMap, List.mem_flatMap]
    refine ⟨?_, ?_, ?_⟩
    · rintro ⟨c, hc, ha⟩
      exact h.not_lists_of_above (h.above_of_mem_preorder ha) (hlists c hc)
    · intro c hc
      exact ih c (hlists c hc)
    · have hnodup : (t.admitted scope a).Nodup := (h.nodup a).filter _
      refine hnodup.imp_of_mem fun hb hc hne x hbx hcx => ?_
      exact h.apart_of_siblings (hlists _ hb) (hlists _ hc) hne x (h.above_of_mem_preorder hbx)
        (h.above_of_mem_preorder hcx)

end Forest

/-- Below one statement two forests hold the same statements exactly if their pre-orders differ in
nothing but the order. -/
theorem Forest.preorder_perm_iff {t' : Tree} (h : t.Forest) (h' : t'.Forest) :
    (t'.preorder .all a).Perm (t.preorder .all a) ↔ ∀ x, t'.Above a x ↔ t.Above a x := by
  rw [List.perm_ext_iff_of_nodup (h'.nodup_preorder .all a) (h.nodup_preorder .all a)]
  simp only [h.mem_preorder_iff, h'.mem_preorder_iff]

end YangDoc.Tree
