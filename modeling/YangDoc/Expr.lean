import YangDoc.Workspace

/-!
# Expressions

A substatement can be given as a node that exists already, as a statement by value, or as a tuple
of keyword, argument and further expressions. What follows the keyword when a statement is built is
an `Input`: the argument, if any, and the substatements.
-/

namespace YangDoc

inductive Expr where
  | node (n : Node)
  | statement (s : Statement)
  | tuple (keyword : String) (argument : Option String) (children : List Expr)
deriving Inhabited, Repr

structure Input where
  argument : Option String := none
  children : List Expr := []
deriving Inhabited, Repr

namespace Expr

mutual

/-- The expression with every node replaced by its present value. -/
def frozen (w : Workspace) : Expr → Expr
  | .node n => .statement (n.statement w)
  | .statement s => .statement s
  | .tuple keyword argument children => .tuple keyword argument (frozenAll w children)

def frozenAll (w : Workspace) : List Expr → List Expr
  | [] => []
  | e :: rest => frozen w e :: frozenAll w rest

end

end Expr

/-- The input with every node replaced by its present value, so that it can be used many times. -/
def Input.frozen (w : Workspace) (input : Input) : Input :=
  { input with children := Expr.frozenAll w input.children }

end YangDoc
