import YangDoc.Text.Blank
import YangDoc.Text.Lines
import YangDoc.Validation

/-!
# Structural checks

Checks that need no knowledge of a schema: the statements that the header of a module or submodule
must have, the prefixes of extension keywords, and imports whose prefix no statement refers to.
Comments, with everything below them, take no part.
-/

namespace YangDoc

namespace Tree

def locate (t : Tree) (id : NodeId) (d : Diagnostic) : Diagnostic :=
  { d with source := some t.source, keyword := some (t.keyword id), argument := t.argument id }

def child? (t : Tree) (id : NodeId) (keyword : String) : Option NodeId :=
  (t.children id).find? fun c => t.keyword c == keyword

end Tree

namespace Structural

/-- Keywords whose arguments are prose or addresses and refer to no prefix. -/
def proseKeywords : List String :=
  ["namespace", "organization", "contact", "description", "reference", "error-message"]

/-- The substatements that a document must have, each with the code of its absence. -/
def required (keyword : String) : List (String × String) :=
  if keyword = "module" then [("namespace", "E0002"), ("prefix", "E0003")]
  else if keyword = "submodule" then [("belongs-to", "E0004")]
  else []

def missingName : Diagnostic where
  severity := .error
  code := some "E0001"
  message := "top-level statement has no name"

def missing (keyword code : String) : Diagnostic where
  severity := .error
  code := some code
  message := "missing `" ++ keyword ++ "` statement"

def undeclared (qualifier : String) : Diagnostic where
  severity := .error
  code := some "E0005"
  message := "prefix `" ++ qualifier ++ "` is not declared"

def unused (qualifier : String) : Diagnostic where
  severity := .warning
  code := some "W0001"
  message := "imported prefix `" ++ qualifier ++ "` is never used"

/-- Whether a character separates the names in an argument. -/
def isSeparator (c : Char) : Bool :=
  Text.isBlank c || "/[]()=|+,'\"".toList.contains c

/-- The prefixes of the qualified names in an argument. -/
def referenced (argument : String) : List String :=
  (Text.pieces isSeparator argument.toList).filterMap fun token =>
    (Keyword.qualifier? (String.ofList token)).filter (· != "")

/-- The prefixes that a statement uses, in its keyword or in its argument. -/
def usedBy (t : Tree) (id : NodeId) : List String :=
  (Keyword.qualifier? (t.keyword id)).toList ++
    if proseKeywords.contains (t.keyword id) then []
    else (t.argument id).elim [] referenced

def ownPrefix (t : Tree) (root : NodeId) : Option String :=
  ((t.child? root "prefix").or
    ((t.child? root "belongs-to").bind fun b => t.child? b "prefix")).bind t.argument

def imports (t : Tree) (root : NodeId) : List (NodeId × String) :=
  (t.select { keyword := some "import" } (t.children root)).filterMap fun i =>
    ((t.child? i "prefix").bind t.argument).map (i, ·)

def headerReport (t : Tree) (root : NodeId) : List Diagnostic :=
  (if (t.argument root).isNone then [missingName] else []) ++
    (required (t.keyword root)).filterMap fun (keyword, code) =>
      if (t.child? root keyword).isNone then some (missing keyword code) else none

/-- The diagnostics of a document, in the order in which they are reported. -/
def report (t : Tree) (root : NodeId) : List Diagnostic :=
  let imports := imports t root
  let declared := (ownPrefix t root).toList ++ imports.map (·.2)
  let statements := t.preorder .statements root
  let used := statements.flatMap (usedBy t)
  (headerReport t root).map (t.locate root) ++
    (statements.filterMap fun id =>
      ((Keyword.qualifier? (t.keyword id)).filter (!declared.contains ·)).map fun q =>
        t.locate id (undeclared q)) ++
    imports.filterMap fun (id, q) =>
      if used.contains q then none else some (t.locate id (unused q))

/-- The validator that makes the structural checks and accepts a document without errors. -/
def validator {m : Type → Type} [Monad m] [MonadStateOf Workspace m] : Validator m where
  newContext := return {}
  check n context := do
    let after := (report (n.tree (← get)) n.id).foldl Context.push context
    return (!after.hasErrors, after)

end Structural

end YangDoc
