import YangDoc.Text.Blank
import YangDoc.Text.Lines

/-!
# Comments

The text kept by a comment node, made from what the author of the comment wrote. One line becomes
a line comment; several lines, or none, become a block whose lines begin with a star.
-/

namespace YangDoc.Comment

def starred (line : List Char) : List Char :=
  '*' :: ' ' :: line

/-- The comment, with its delimiters, that says `text`. -/
def ofText (text : String) : String :=
  match Text.lines (Text.trim text.toList) with
  | [line] => String.ofList ("// ".toList ++ line)
  | lines =>
    "/*\n" ++ String.intercalate "\n" (lines.map fun line => String.ofList (starred line)) ++ "\n*/"

/-- The text of a node that is printed as an empty line. -/
def blank : String :=
  " "

end YangDoc.Comment
