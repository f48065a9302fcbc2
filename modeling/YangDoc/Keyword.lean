/-!
# Statement keywords

What the keyword of a statement decides: whether the statement is a document root or a comment,
whether its argument is printed bare, and in which section of a module it belongs. No keyword is
ever rejected here; a keyword outside the tables is an extension or a body statement.

A keyword or an argument may be qualified, `qualifier:name`, where the first colon divides the two
parts.
-/

namespace YangDoc.Keyword

/-- Keywords of the outermost statement of a document. -/
def roots : List String :=
  ["module", "submodule"]

def isRoot (keyword : String) : Bool :=
  roots.contains keyword

/-- Keyword of the nodes that stand for comments and blank lines. -/
def comment : String :=
  "_comment"

def isComment (keyword : String) : Bool :=
  keyword == comment

/-- The qualifier before the first colon, if there is a colon, and the name after it. -/
def split (value : String) : Option String × String :=
  match value.toList.span (· != ':') with
  | (_, []) => (none, value)
  | (qualifier, _ :: name) => (some (String.ofList qualifier), String.ofList name)

def qualifier? (value : String) : Option String :=
  (split value).1

def localName (value : String) : String :=
  (split value).2

inductive ArgumentKind where
  /-- Bare, unless the argument itself needs quotes. -/
  | identifier
  /-- Always between quotes. -/
  | text
deriving DecidableEq, Repr

/-- Keywords whose arguments are identifiers, dates, numbers or enumerated values. -/
def identifierKeywords : List String :=
  ["module", "submodule", "yang-version", "import", "include", "prefix", "belongs-to", "revision",
   "revision-date", "extension", "argument", "yin-element", "identity", "base", "feature",
   "if-feature", "typedef", "type", "fraction-digits", "bit", "position", "require-instance",
   "status", "config", "mandatory", "ordered-by", "min-elements", "max-elements", "value",
   "grouping", "container", "leaf", "leaf-list", "list", "choice", "case", "anyxml", "anydata",
   "uses", "rpc", "action", "notification", "deviate"]

def argumentKind (keyword : String) : ArgumentKind :=
  if identifierKeywords.contains keyword then .identifier else .text

/-- Rank of the statements that make up the body of a module. -/
def bodyRank : Nat :=
  9

/-- The header, linkage, meta and revision statements of a module with the rank of their section. -/
def sections : List (String × Nat) :=
  [("yang-version", 0), ("namespace", 1), ("belongs-to", 1), ("prefix", 2), ("import", 3),
   ("include", 3), ("organization", 4), ("contact", 5), ("description", 6), ("reference", 7),
   ("revision", 8)]

def sectionRank (keyword : String) : Nat :=
  (sections.lookup keyword).getD bodyRank

end YangDoc.Keyword
