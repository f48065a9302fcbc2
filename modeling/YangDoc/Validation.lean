import YangDoc.Diagnostic
import YangDoc.Error
import YangDoc.Workspace

/-!
# Validation

A validator checks a document from its root and reports diagnostics into a context. A context may
be shared by many runs: what it held before a run is set aside, the diagnostics of the run become
the verdict, and the context is given back as it was.
-/

namespace YangDoc

/-- Diagnostics collected over several runs. -/
structure Context where
  diagnostics : List Diagnostic := []
deriving DecidableEq, Inhabited, Repr

namespace Context

def push (c : Context) (d : Diagnostic) : Context :=
  { c with diagnostics := c.diagnostics ++ [d] }

def errors (c : Context) : List Diagnostic :=
  c.diagnostics.filter Diagnostic.isError

def warnings (c : Context) : List Diagnostic :=
  c.diagnostics.filter fun d => !d.isError

def hasErrors (c : Context) : Bool :=
  c.diagnostics.any Diagnostic.isError

def clear (c : Context) : Context :=
  { c with diagnostics := [] }

end Context

structure Verdict where
  valid : Bool
  diagnostics : List Diagnostic
deriving DecidableEq, Repr

namespace Verdict

def errors (v : Verdict) : List Diagnostic :=
  v.diagnostics.filter Diagnostic.isError

def warnings (v : Verdict) : List Diagnostic :=
  v.diagnostics.filter fun d => !d.isError

end Verdict

structure Validator (m : Type → Type) where
  /-- The context of a run that is given none. -/
  newContext : m Context
  /-- Check a document from its root; says whether it is accepted. -/
  check : Node → Context → m (Bool × Context)

def Diagnostic.locate (d : Diagnostic) (w : Workspace) (n : Node) : Diagnostic :=
  { d with source := some (n.source w), keyword := some (n.keyword w), argument := n.argument w }

/-- The verdict on the diagnostics of a run. -/
def Verdict.of (accepted allowWarnings : Bool) (diagnostics : List Diagnostic) : Verdict where
  valid := accepted && !diagnostics.any Diagnostic.isError &&
    (allowWarnings || !diagnostics.any fun d => !d.isError)
  diagnostics

namespace Node

variable {m : Type → Type} [Monad m] [MonadStateOf Workspace m]

/-- Validate the document with this root. The context after the run is given back with the
verdict. -/
def validate (n : Node) (validator : Validator m) (context : Option Context)
    (allowWarnings : Bool) : m (Except Error Verdict × Option Context) := do
  let keyword := n.keyword (← get)
  if Keyword.isRoot keyword then
    let before ← context.getDM validator.newContext
    let (accepted, after) ← validator.check n before.clear
    let verdict := Verdict.of accepted allowWarnings after.diagnostics
    return (.ok verdict, context.map fun _ => { after with diagnostics := before.diagnostics })
  else return (.error (.notTopLevel keyword), context)

/-- Validate the document with this root, where an invalid document is an error. -/
def validateStrict (n : Node) (validator : Validator m) (context : Option Context)
    (allowWarnings : Bool) : m (Except Error Verdict × Option Context) := do
  let (result, context) ← n.validate validator context allowWarnings
  match result with
  | .error e => return (.error e, context)
  | .ok verdict =>
    if verdict.valid then return (.ok verdict, context)
    else return (.error (.validationFailed verdict.diagnostics), context)

end Node

end YangDoc
