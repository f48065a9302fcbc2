import YangDoc.Error
import YangDoc.Tree.Basic

/-!
# Moving statements

A statement moves by leaving the list of its recorded parent and joining the end of another list.
A move is refused when it would nest the root or put a statement beneath itself; a refused move
changes nothing.

Following parents upward visits each row at most once in a document without cycles, so as many
steps as there are rows decide whether one statement lies above another. Parents recorded by hand
can run in a circle of rows that list each other. The way upward then has no end: it is left after
as many steps, and what was not met by then counts as not above.
-/

namespace YangDoc.Tree

/-- Whether `ancestor` is met within `fuel` steps from `id` upward, `id` itself included. -/
def isAncestorWithin (t : Tree) (ancestor : NodeId) : (fuel : Nat) → (id : NodeId) → Bool
  | 0, id => id == ancestor
  | fuel + 1, id =>
    id == ancestor ||
      match t.parent? id with
      | none => false
      | some p => isAncestorWithin t ancestor fuel p

def isAncestor (t : Tree) (ancestor id : NodeId) : Bool :=
  t.isAncestorWithin ancestor t.size id

/-- Why `child` may not be moved under `parent`, or under a statement that has no place yet. -/
def refusal? (t : Tree) (parent : Option NodeId) (child : NodeId) : Option Error :=
  if child = root then some (.rootNested (t.keyword child))
  else if parent.any (t.isAncestor child) then some (.beneathItself (t.keyword child))
  else none

/-- Take `child` out of the list of its recorded parent and forget that parent. -/
def detach (t : Tree) (child : NodeId) : Tree :=
  let unlisted :=
    match (t.row child).parent with
    | none => t
    | some p => t.modify p fun r => { r with children := r.children.filter (· != child) }
  unlisted.modify child fun r => { r with parent := none }

def attach (t : Tree) (parent child : NodeId) : Except Error Tree :=
  match t.refusal? (some parent) child with
  | some e => .error e
  | none => .ok ((t.detach child).link parent child)

/-- Move several statements in turn, up to the first that is refused. -/
def attachAll (t : Tree) (parent : NodeId) : List NodeId → Except Error Unit × Tree
  | [] => (.ok (), t)
  | child :: rest =>
    match t.attach parent child with
    | .ok t' => attachAll t' parent rest
    | .error e => (.error e, t)

/-- Empty the list of a statement; those that were on it have no parent any more. -/
def dropChildren (t : Tree) (parent : NodeId) : Tree :=
  (t.children parent).foldl (fun t c => t.modify c fun r => { r with parent := none })
    (t.modify parent fun r => { r with children := [] })

/-- Replace the substatements of `parent`. The old ones are dropped first, also when one of the new
ones is then refused. -/
def replaceChildren (t : Tree) (parent : NodeId) (children : List NodeId) :
    Except Error Unit × Tree :=
  (t.dropChildren parent).attachAll parent children

end YangDoc.Tree
