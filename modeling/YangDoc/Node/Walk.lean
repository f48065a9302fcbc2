import YangDoc.Workspace

/-!
# Walks with effects

A walk visits the subtree that a node has when the walk starts. At each node it first asks whether
the node is selected and then, if so, applies a function to it, and both may change the workspace:
what happens at a node sees the changes made at the nodes before it, but the nodes visited stay the
same.
-/

namespace YangDoc

variable {m : Type → Type} [Monad m] {α : Type}

/-- Apply a function to the selected members of a list, one after the other. -/
def selectMapM (select : Node → m Bool) (apply : Node → m α) : List Node → m (List α)
  | [] => return []
  | n :: rest => do
    if ← select n then
      let a ← apply n
      return a :: (← selectMapM select apply rest)
    else selectMapM select apply rest

namespace Node

variable [MonadStateOf Workspace m]

def walkMapM (n : Node) (select : Node → m Bool) (apply : Node → m α) (scope : Scope) :
    m (List α) := do
  selectMapM select apply (n.preorder (← get) scope)

def walkFilterM (n : Node) (select : Node → m Bool) : m (List Node) :=
  n.walkMapM select pure .all

end Node

end YangDoc
