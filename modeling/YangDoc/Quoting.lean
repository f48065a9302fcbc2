import YangDoc.Text.Blank

/-!
# Quoting of arguments

When an argument cannot stand bare, and what is escaped between double quotes. Line breaks are not
escaped: a quoted argument may run over several lines, which the layout pads.
-/

namespace YangDoc.Quoting

/-- Characters that end a bare argument or open a quoted one. -/
def isDelimiter (c : Char) : Bool :=
  ['"', '\x27', ';', '\x7b', '\x7d'].contains c

/-- Whether the opening of a comment, or the end of one, occurs in the text. -/
def hasCommentMark : List Char → Bool
  | '/' :: '/' :: _ => true
  | '/' :: '*' :: _ => true
  | '*' :: '/' :: _ => true
  | _ :: cs => hasCommentMark cs
  | [] => false

/-- Whether an argument must be quoted wherever it stands. -/
def needed (argument : String) : Bool :=
  let cs := argument.toList
  cs.isEmpty || cs.any (fun c => Text.isBlank c || isDelimiter c) || hasCommentMark cs

def escapeChar (c : Char) : List Char :=
  if c == '\\' then ['\\', '\\']
  else if c == '"' then ['\\', '"']
  else if c == '\t' then ['\\', 't']
  else [c]

def escape (argument : String) : String :=
  String.ofList (argument.toList.flatMap escapeChar)

end YangDoc.Quoting
