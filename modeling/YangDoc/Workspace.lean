import YangDoc.Query
import YangDoc.Tree.Copy
import YangDoc.Tree.Printer
import YangDoc.Tree.Walk

/-!
# Workspaces

Several documents side by side. A document is named by its place in the workspace, and a node by
its document together with its place in the table there, so two nodes are equal exactly when they
are the same statement. Documents are never removed.
-/

namespace YangDoc

/-- Place of a document in its workspace. -/
structure Document where
  index : Nat
deriving DecidableEq, Inhabited, Repr

/-- A statement of a document. -/
structure Node where
  document : Document
  id : NodeId
deriving DecidableEq, Inhabited, Repr

structure Workspace where
  trees : Array Tree := #[]
deriving DecidableEq, Inhabited, Repr

namespace Workspace

def tree (w : Workspace) (d : Document) : Tree :=
  w.trees[d.index]?.getD default

def setTree (w : Workspace) (d : Document) (t : Tree) : Workspace :=
  { w with trees := w.trees.setIfInBounds d.index t }

def add (w : Workspace) (t : Tree) : Workspace × Document :=
  ({ w with trees := w.trees.push t }, ⟨w.trees.size⟩)

end Workspace

def Document.root (d : Document) : Node :=
  ⟨d, Tree.root⟩

namespace Node

def tree (n : Node) (w : Workspace) : Tree :=
  w.tree n.document

def keyword (n : Node) (w : Workspace) : String :=
  (n.tree w).keyword n.id

def argument (n : Node) (w : Workspace) : Option String :=
  (n.tree w).argument n.id

def source (n : Node) (w : Workspace) : String :=
  (n.tree w).source

def children (n : Node) (w : Workspace) : List Node :=
  ((n.tree w).children n.id).map (⟨n.document, ·⟩)

def parent? (n : Node) (w : Workspace) : Option Node :=
  ((n.tree w).parent? n.id).map (⟨n.document, ·⟩)

def isRoot (n : Node) : Bool :=
  n.id == Tree.root

def isComment (n : Node) (w : Workspace) : Bool :=
  Keyword.isComment (n.keyword w)

/-- The subtree of the node as a value. -/
def statement (n : Node) (w : Workspace) : Statement :=
  (n.tree w).snapshot n.id

def print (n : Node) (w : Workspace) (layout : Layout) : String :=
  (n.tree w).print layout n.id

def find (n : Node) (w : Workspace) (query : Query) : List Node :=
  ((n.tree w).select query ((n.tree w).children n.id)).map (⟨n.document, ·⟩)

/-- The subtree in pre-order, the node itself first. -/
def preorder (n : Node) (w : Workspace) (scope : Scope) : List Node :=
  ((n.tree w).preorder scope n.id).map (⟨n.document, ·⟩)

end Node

end YangDoc
