import YangDoc.Proofs.Tree.Below
import YangDoc.Tree.Walk

/-!
# The headers of a statement in pre-order

A traversal of a table keeps a stack of positions. What it meets there, keyword and argument of
each statement in turn, depends only on the statement that the rows spell out: it is the list of
headers that a recursion on the statement gives. The stack stands for the statements still to be
visited, and their sizes together bound the steps that are left.
-/

namespace YangDoc

namespace Statement

mutual

/-- Keyword and argument of the statement, then of those below it that a traversal goes down to. -/
def headers (scope : Scope) : Statement → List (String × Option String)
  | ⟨keyword, argument, children⟩ => (keyword, argument) :: headersAll scope children

/-- The headers of several statements. One that is not admitted is left out with all below it. -/
def headersAll (scope : Scope) : List Statement → List (String × Option String)
  | [] => []
  | s :: rest =>
    (if scope.admits s.keyword then headers scope s else []) ++ headersAll scope rest

end

theorem headersAll_eq_flatMap (scope : Scope) (ss : List Statement) :
    headersAll scope ss =
      (ss.filter fun s => scope.admits s.keyword).flatMap (headers scope) := by
  induction ss with
  | nil => rfl
  | cons s rest ih =>
    rw [headersAll, ih, List.filter_cons]
    split
    · rw [List.flatMap_cons]
    · rw [List.nil_append]

theorem sizeAll_append (ss ss' : List Statement) :
    sizeAll (ss ++ ss') = sizeAll ss + sizeAll ss' := by
  induction ss with
  | nil => rw [List.nil_append, sizeAll, Nat.zero_add]
  | cons s rest ih =>
    rw [List.cons_append, sizeAll, sizeAll, ih]
    omega

theorem sizeAll_filter_le (keep : Statement → Bool) (ss : List Statement) :
    sizeAll (ss.filter keep) ≤ sizeAll ss := by
  induction ss with
  | nil => exact le_rfl
  | cons s rest ih =>
    rw [List.filter_cons]
    split
    · rw [sizeAll, sizeAll]
      omega
    · rw [sizeAll]
      omega

end Statement

namespace Tree

variable {t : Tree}

/-- Visiting the stack meets the headers of the statements it stands for, in order. -/
theorem Forest.map_header_visit (h : t.Forest) (scope : Scope) (fuel : Nat) :
    ∀ stack : List Nat, Statement.sizeAll (stack.map t.snapshot) ≤ fuel →
      (t.visit scope fuel stack).map t.header =
        (stack.map t.snapshot).flatMap (Statement.headers scope) := by
  induction fuel with
  | zero =>
    intro stack hsize
    cases stack with
    | nil => rfl
    | cons id stack =>
      rw [List.map_cons, Statement.sizeAll] at hsize
      have := (t.snapshot id).size_pos
      omega
  | succ fuel ih =>
    intro stack hsize
    cases stack with
    | nil => rfl
    | cons id stack =>
      -- the admitted substatements take the place of the statement on the stack
      have hadmitted : (t.admitted scope id).map t.snapshot =
          ((t.children id).map t.snapshot).filter fun s => scope.admits s.keyword := by
        rw [admitted, List.filter_map]
        congr
        funext c
        rw [Function.comp_apply, h.snapshot_eq c]
      rw [List.map_cons, h.snapshot_eq id, Statement.sizeAll, Statement.size] at hsize
      have hfewer : Statement.sizeAll ((t.admitted scope id ++ stack).map t.snapshot) ≤ fuel := by
        have hle := Statement.sizeAll_filter_le (fun s => scope.admits s.keyword)
          ((t.children id).map t.snapshot)
        rw [List.map_append, hadmitted, Statement.sizeAll_append]
        omega
      rw [visit, List.map_cons, ih _ hfewer, List.map_append, hadmitted, List.flatMap_append,
        ← Statement.headersAll_eq_flatMap, List.map_cons, List.flatMap_cons, h.snapshot_eq id]
      rfl

theorem Forest.map_header_preorder (h : t.Forest) (scope : Scope) (id : Nat) :
    (t.preorder scope id).map t.header = (t.snapshot id).headers scope := by
  have hsize : Statement.sizeAll ([id].map t.snapshot) ≤ (t.snapshot id).size := by
    rw [List.map_singleton, Statement.sizeAll, Statement.sizeAll]
    omega
  rw [preorder, h.map_header_visit scope _ _ hsize, List.map_singleton, List.flatMap_singleton]

end Tree

end YangDoc
