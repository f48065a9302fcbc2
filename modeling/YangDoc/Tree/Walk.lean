import YangDoc.Query
import YangDoc.Tree.Copy

/-!
# Searching a document

`select` filters given statements by a query. `preorder` lists a subtree, each statement before
those below it, with a stack of the statements still to be visited: the next one is taken off the
stack and its admitted substatements are put on in its place. The size of the snapshot counts the
visits, so it bounds the loop.
-/

namespace YangDoc.Tree

/-- The substatements that a traversal goes down to. -/
def admitted (t : Tree) (scope : Scope) (id : NodeId) : List NodeId :=
  (t.children id).filter fun c => scope.admits (t.keyword c)

/-- Visit the statements on the stack and all below them, in at most `fuel` steps. -/
def visit (t : Tree) (scope : Scope) : (fuel : Nat) → (stack : List NodeId) → List NodeId
  | 0, _ => []
  | _ + 1, [] => []
  | fuel + 1, id :: stack => id :: visit t scope fuel (t.admitted scope id ++ stack)

def preorder (t : Tree) (scope : Scope) (id : NodeId) : List NodeId :=
  t.visit scope (t.snapshot id).size [id]

def select (t : Tree) (query : Query) (candidates : List NodeId) : List NodeId :=
  candidates.filter fun id => query.accepts (t.keyword id) (t.argument id)

end YangDoc.Tree
