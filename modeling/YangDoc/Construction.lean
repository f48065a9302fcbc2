import YangDoc.Comment
import YangDoc.Expr.OfJson
import YangDoc.Keyword.Method
import YangDoc.Tree.Move

/-!
# Building documents

Statements are built in a document, or below one of its nodes, from expressions. Before anything
moves, the nodes named by the expressions are checked: none may be the root, and none may end up
beneath itself. Then the expressions are received one after the other and the new statement takes
them as its substatements.

A node of the same document moves to its new place; a node of another document is copied and taken
out of its old place. A statement with a root keyword is never new: building one overwrites the
root of the document and replaces its substatements.

A refused call leaves behind what it had done until then, so a computation that builds is a
function from a workspace to a result, which may be an error, and the workspace after it.
-/

namespace YangDoc

abbrev Build := ExceptT Error (StateM Workspace)

namespace Tree

/-- The statement of a build, from substatements that are in the document already. -/
def assemble (t : Tree) (keyword : String) (argument : Option String) (parent : Option NodeId)
    (children : List NodeId) : Except Error NodeId × Tree :=
  if Keyword.isRoot keyword then
    let (result, t) := (t.rename root keyword argument).replaceChildren root children
    (result.map fun _ => root, t)
  else
    let (t, id) := t.push keyword argument
    let (result, t) := (t.setParent id parent).attachAll id children
    (result.map fun _ => id, t)

end Tree

namespace Expr

mutual

/-- Why the nodes of document `d` that the expression would move may not go under `parent`. With
`copy` the expression itself does not move, but the nodes inside a tuple always do. -/
def refusal? (t : Tree) (d : Document) (parent : Option NodeId) (copy : Bool) :
    Expr → Option Error
  | .node n => if copy = false ∧ n.document = d then t.refusal? parent n.id else none
  | .statement _ => none
  | .tuple _ _ children => refusalAmong? t d parent children

def refusalAmong? (t : Tree) (d : Document) (parent : Option NodeId) : List Expr → Option Error
  | [] => none
  | e :: rest => (refusal? t d parent false e).or (refusalAmong? t d parent rest)

end

end Expr

namespace Document

def edit {α : Type} (d : Document) (f : Tree → Except Error α × Tree) : Build α := do
  let (result, t) := f ((← get).tree d)
  modify (·.setTree d t)
  match result with
  | .ok a => return a
  | .error e => throw e

def plant (d : Document) (s : Statement) : Build NodeId :=
  d.edit fun t =>
    let (t, id) := t.plant s
    (.ok id, t)

def detach (d : Document) (id : NodeId) : Build Unit :=
  d.edit fun t => (.ok (), t.detach id)

def attach (d : Document) (parent child : NodeId) : Build Unit :=
  d.edit fun t => t.attachAll parent [child]

def guardMoves (d : Document) (parent : Option NodeId) (copy : Bool) (exprs : List Expr) :
    Build Unit := do
  let t := (← get).tree d
  match exprs.findSome? (·.refusal? t d parent copy) with
  | some e => throw e
  | none => return ()

/-- The place of a node in the document, which it must belong to. -/
def ownId (d : Document) (n : Node) : Build NodeId := do
  if n.document = d then return n.id
  else throw (.foreignParent (n.keyword (← get)))

/-- Bring a node into the document. Within the document it keeps its identity, unless a copy is
wanted; from another document it is copied and, unless a copy is wanted, taken out of its place
there. -/
def receiveNode (d : Document) (copy : Bool) (n : Node) : Build NodeId := do
  if n.document = d then
    if copy then d.plant (n.statement (← get)) else return n.id
  else
    let id ← d.plant (n.statement (← get))
    unless copy do n.document.detach n.id
    return id

/-- Build a statement around its substatements; `received` brings them into the document. -/
def construct (d : Document) (keyword : String) (argument : Option String) (parent : Option Node)
    (children : List Expr) (received : Build (List NodeId)) : Build NodeId := do
  if keyword = "" then throw .emptyKeyword
  let parent ← parent.mapM d.ownId
  d.guardMoves parent false children
  let ids ← received
  d.edit (·.assemble keyword argument parent ids)

mutual

/-- Bring an expression into the document, ready to be listed under a parent. -/
def receive (d : Document) (copy : Bool) : Expr → Build NodeId
  | .node n => d.receiveNode copy n
  | .statement s => d.plant s
  | .tuple keyword argument children =>
    d.construct keyword argument none children (receiveAll d children)

def receiveAll (d : Document) : List Expr → Build (List NodeId)
  | [] => return []
  | e :: rest => do
    let id ← receive d false e
    return id :: (← receiveAll d rest)

end

/-- Build a statement and record its parent, if one is given. The parent does not list it yet. -/
def build (d : Document) (keyword : String) (input : Input := {}) (parent : Option Node := none) :
    Build Node := do
  let id ← d.construct keyword input.argument parent input.children (d.receiveAll input.children)
  return ⟨d, id⟩

def buildByMethod (d : Document) (method : String) (qualifier : Option String)
    (input : Input := {}) : Build Node :=
  d.build (Keyword.ofMethod method qualifier) input

def comment (d : Document) (text : String) : Build Node :=
  d.build Keyword.comment { argument := some (Comment.ofText text) }

def blankLine (d : Document) : Build Node :=
  d.build Keyword.comment { argument := some Comment.blank }

/-- Make a node of an expression and record its parent, if one is given. A node stays what and
where it is. -/
def express (d : Document) (e : Expr) (parent : Option Node := none) : Build Node :=
  match e with
  | .node n => return n
  | .statement s => do
    let parent ← parent.mapM d.ownId
    let id ← d.plant s
    d.edit fun t => (.ok (), t.setParent id parent)
    return ⟨d, id⟩
  | .tuple keyword argument children => d.build keyword { argument, children } parent

def ofJson (d : Document) (value : Json) : Build Node :=
  match Expr.ofJson value with
  | .ok e => d.express e
  | .error fault => throw (.malformed fault)

end Document

namespace Node

def build (n : Node) (keyword : String) (input : Input := {}) : Build Node := do
  if Keyword.isRoot keyword then
    throw (.rootKeywordNested keyword (n.keyword (← get)))
  let child ← n.document.build keyword input (some n)
  n.document.attach n.id child.id
  return child

def buildByMethod (n : Node) (method : String) (qualifier : Option String) (input : Input := {}) :
    Build Node :=
  n.build (Keyword.ofMethod method qualifier) input

def comment (n : Node) (text : String) : Build Node := do
  let child ← n.document.comment text
  n.document.attach n.id child.id
  return child

def blankLine (n : Node) : Build Node := do
  let child ← n.document.blankLine
  n.document.attach n.id child.id
  return child

def receive (n : Node) (copy : Bool) (e : Expr) : Build NodeId := do
  let id ← n.document.receive copy e
  n.document.attach n.id id
  return id

/-- Make an expression the last substatement of the node. -/
def express (n : Node) (e : Expr) : Build Node := do
  n.document.guardMoves (some n.id) false [e]
  let id ← n.receive false e
  return ⟨n.document, id⟩

/-- Make each expression in turn the last substatement of the node. All are checked before the
first one moves. -/
def append (n : Node) (items : List Expr) (copy : Bool := false) : Build Unit := do
  n.document.guardMoves (some n.id) copy items
  items.forM fun e => do
    let _ ← n.receive copy e

end Node

end YangDoc
