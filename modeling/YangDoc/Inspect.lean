import YangDoc.Argument
import YangDoc.Text.Literal
import YangDoc.Workspace

/-!
# Inspection

Short forms of documents, nodes and lists of nodes, for looking at them while working. Documents
and lists also have a form with one part a line.
-/

namespace YangDoc

def Document.inspect (d : Document) (w : Workspace) (multiline : Bool) : String :=
  let source := "source: " ++ Text.literal (w.tree d).source
  let statements := "statements: " ++ Argument.ofInteger (w.tree d).size
  if multiline then
    "Builder \x7b\n    " ++ source ++ ",\n    " ++ statements ++ ",\n\x7d"
  else "Builder \x7b " ++ source ++ ", " ++ statements ++ " \x7d"

def Node.inspect (n : Node) (w : Workspace) : String :=
  "Node(" ++ n.keyword w ++ ((n.argument w).map fun a => " " ++ Text.literal a).getD "" ++ ")"

/-- The text with every line after the first moved four columns to the right. -/
def indentAfterBreaks (s : String) : String :=
  String.ofList (s.toList.flatMap fun c => if c == '\n' then "\n    ".toList else [c])

def inspectNodes (nodes : List Node) (w : Workspace) (multiline : Bool) : String :=
  let items := nodes.map (·.inspect w)
  if items.isEmpty then "[]"
  else if multiline then
    "[\n" ++ String.join (items.map fun s => "    " ++ indentAfterBreaks s ++ ",\n") ++ "]"
  else "[" ++ String.intercalate ", " items ++ "]"

end YangDoc
