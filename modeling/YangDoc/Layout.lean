import YangDoc.Keyword
import YangDoc.Quoting
import YangDoc.Text.Lines

/-!
# Layout

How one statement is laid out as text: its indentation, its argument, a comment, and the braces
around its substatements. The text of the substatements is a parameter here, so the same layout
serves statements in a document and statements by themselves.

Levels and numbers of columns are natural numbers, which do not overflow: it is assumed that
`width * level` and the levels below `startLevel` stay under `2 ^ 64`.
-/

namespace YangDoc

structure Layout where
  /-- Spaces per level, when spaces are used. -/
  width : Nat := 2
  /-- Indent with spaces instead of tabs. -/
  useSpaces : Bool := true
  /-- Level of the outermost statement printed. -/
  startLevel : Nat := 0
  /-- Print the statements of a module in section order. -/
  bySection : Bool := false
deriving DecidableEq, Repr

namespace Layout

def indent (layout : Layout) (level : Nat) : String :=
  if layout.useSpaces then Text.repeated ' ' (layout.width * level)
  else Text.repeated '\t' level

/-- The characters of a quoted argument after its opening quote. A line after a break starts one
column past the opening quote, an empty line stays empty, and a closing quote on a line of its own
stands below the opening one; `pad` reaches up to that column. -/
def quotedBody (pad : List Char) : List Char → List Char
  | [] => []
  | '\n' :: [] => '\n' :: pad
  | '\n' :: '\n' :: cs => '\n' :: quotedBody pad ('\n' :: cs)
  | '\n' :: c :: cs => '\n' :: pad ++ ' ' :: quotedBody pad (c :: cs)
  | c :: cs => Quoting.escapeChar c ++ quotedBody pad cs

def quoted (indent keyword argument : String) : String :=
  let pad := indent.toList ++ List.replicate (keyword.length + 1) ' '
  "\"" ++ String.ofList (quotedBody pad argument.toList) ++ "\""

def argumentText (indent keyword argument : String) : String :=
  if Keyword.argumentKind keyword = .identifier ∧ Quoting.needed argument = false then
    " " ++ argument
  else " " ++ quoted indent keyword argument

/-- A line of a comment. A star at its start is moved below that of the opening. -/
def commentLine (indent : String) (line : List Char) : String :=
  indent ++ (if line.head? = some '*' then " " else "") ++ String.ofList line ++ "\n"

/-- A comment as it is printed; one of blanks only is an empty line. -/
def commentText (indent text : String) : String :=
  if Text.trim text.toList = [] then "\n"
  else String.join ((Text.lines text.toList).map (commentLine indent))

/-- A statement at a level, around the text of its substatements; `none` when it has none. -/
def statementText (layout : Layout) (level : Nat) (keyword : String) (argument : Option String)
    (body : Option String) : String :=
  let indent := layout.indent level
  let head := indent ++ keyword ++ (argument.map (argumentText indent keyword)).getD ""
  match body with
  | none => head ++ ";\n"
  | some text => head ++ " \x7b\n" ++ text ++ indent ++ "\x7d\n"

end Layout

end YangDoc
