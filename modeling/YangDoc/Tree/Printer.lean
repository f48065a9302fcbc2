import YangDoc.Layout
import YangDoc.Section
import YangDoc.Tree.Basic

/-!
# Printing a document

The text of a statement and of everything below it. The substatements of a comment are not
printed, and those of a module may be put in section order on the way. The level of indentation is
assumed not to overflow, as in the layout.
-/

namespace YangDoc.Tree

def printOrder (t : Tree) (layout : Layout) (id : NodeId) : List NodeId :=
  if layout.bySection && Keyword.isRoot (t.keyword id) then
    Section.canonical t.keyword (t.children id)
  else t.children id

/-- The text of the statement at `id`, at a level of indentation, with those at most `depth - 1`
levels below it. -/
def printAt (t : Tree) (layout : Layout) : (depth : Nat) → (level : Nat) → NodeId → String
  | 0, _, _ => ""
  | depth + 1, level, id =>
    if Keyword.isComment (t.keyword id) then
      Layout.commentText (layout.indent level) ((t.argument id).getD "")
    else
      layout.statementText level (t.keyword id) (t.argument id) <|
        if t.children id = [] then none
        else some (String.join ((t.printOrder layout id).map (printAt t layout depth (level + 1))))

def print (t : Tree) (layout : Layout) (id : NodeId) : String :=
  t.printAt layout (t.size + 1) layout.startLevel id

end YangDoc.Tree
