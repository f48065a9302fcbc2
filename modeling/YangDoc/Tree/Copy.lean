import YangDoc.Tree.Basic

/-!
# Snapshots and copies

A snapshot unfolds the rows below a statement into a value; planting writes such a value into a
table, each statement before its substatements. Copying between documents, or within one, is a
snapshot followed by planting.
-/

namespace YangDoc.Tree

/-- The statement at `id`, down to `depth` levels below it. -/
def unfold (t : Tree) : (depth : Nat) → NodeId → Statement
  | 0, id => ⟨t.keyword id, t.argument id, []⟩
  | depth + 1, id => ⟨t.keyword id, t.argument id, (t.children id).map (unfold t depth)⟩

/-- The statement at `id` as a value. No path in a document without cycles is longer than the
table, so nothing is cut off. -/
def snapshot (t : Tree) (id : NodeId) : Statement :=
  t.unfold t.size id

mutual

/-- Write a statement into the table; it has no parent there. -/
def plant (t : Tree) : Statement → Tree × NodeId
  | ⟨keyword, argument, children⟩ =>
    let (t', id) := t.push keyword argument
    (plantAll t' id children, id)

/-- Write statements into the table and list them under `parent`. -/
def plantAll (t : Tree) (parent : NodeId) : List Statement → Tree
  | [] => t
  | s :: rest =>
    let (t', id) := plant t s
    plantAll (t'.link parent id) parent rest

end

/-- A document around its outermost statement, whose argument names the source. -/
def ofStatement (top : Statement) : Tree :=
  let t := new (top.argument.getD defaultSource) top.keyword
  (t.rename root top.keyword top.argument).plantAll root top.children

def copyFrom (t other : Tree) (id : NodeId) : Tree × NodeId :=
  t.plant (other.snapshot id)

end YangDoc.Tree
