import YangDoc.Construction
import YangDoc.Node.Walk

/-!
# Lists of nodes

Verbs that go to every member of a list of nodes in turn. What the members give back is joined
into one list, so that searches can be chained.
-/

namespace YangDoc

abbrev NodeList := List Node

inductive Bound where
  | unbounded
  | included (position : UInt64)
  | excluded (position : UInt64)
deriving DecidableEq, Repr

/-- The next position, or the same at the largest. -/
def nextPosition (position : UInt64) : UInt64 :=
  if position = 0xFFFFFFFFFFFFFFFF then position else position + 1

namespace NodeList

def find (nodes : NodeList) (w : Workspace) (query : Query) : NodeList :=
  nodes.flatMap (·.find w query)

def walk (nodes : NodeList) (w : Workspace) : NodeList :=
  nodes.flatMap (·.preorder w .all)

section

variable {m : Type → Type} [Monad m] {α : Type}

def flatMapM (nodes : NodeList) (f : Node → m (List α)) : m (List α) := do
  return (← nodes.mapM f).flatten

def walkFilterM [MonadStateOf Workspace m] (nodes : NodeList) (select : Node → m Bool) :
    m NodeList :=
  nodes.flatMapM fun n => n.walkFilterM select

end

/-- Build a statement below every member. Nodes in the input are copied for each member and stay
where they are. -/
def build (nodes : NodeList) (keyword : String) (input : Input := {}) : Build NodeList :=
  nodes.mapM fun n => do n.build keyword (input.frozen (← get))

def buildByMethod (nodes : NodeList) (method : String) (input : Input := {}) : Build NodeList :=
  nodes.build (Keyword.ofMethod method none) input

def repeated (nodes : NodeList) (n : Nat) : NodeList :=
  (List.replicate n nodes).flatten

def slice (nodes : NodeList) (start stop : Bound) : NodeList :=
  let first :=
    match start with
    | .unbounded => 0
    | .included i => i.toNat
    | .excluded i => (nextPosition i).toNat
  let last :=
    match stop with
    | .unbounded => nodes.length
    | .included i => (nextPosition i).toNat
    | .excluded i => i.toNat
  (nodes.take last).drop first

/-- The members in the order of a key; members with equal keys keep their order. -/
def sortBy {κ : Type} (nodes : NodeList) (key : Node → κ) (le : κ → κ → Bool) : NodeList :=
  nodes.mergeSort fun a b => le (key a) (key b)

end NodeList

end YangDoc
