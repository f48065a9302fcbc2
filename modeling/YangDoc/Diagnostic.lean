/-!
# Diagnostics

What a validator reports: a severity, an optional code, a message, and, once located, the source
of the document with the keyword and the argument of the statement at fault.
-/

namespace YangDoc

inductive Severity where
  | error
  | warning
deriving DecidableEq, Repr

def Severity.name : Severity → String
  | .error => "error"
  | .warning => "warning"

structure Diagnostic where
  severity : Severity
  code : Option String := none
  message : String
  source : Option String := none
  keyword : Option String := none
  argument : Option String := none
deriving DecidableEq, Repr

namespace Diagnostic

def isError (d : Diagnostic) : Bool :=
  d.severity == .error

/-- The place of the diagnostic, in words; empty when it has none. -/
def place (d : Diagnostic) : String :=
  match d.keyword, d.argument with
  | some keyword, some argument => " (at `" ++ keyword ++ " " ++ argument ++ "`)"
  | some keyword, none => " (at `" ++ keyword ++ "`)"
  | none, _ => ""

/-- The diagnostic on one line, unless its parts have line breaks. -/
def display (d : Diagnostic) : String :=
  (d.source.map (· ++ ": ")).getD "" ++ d.severity.name ++
    (d.code.map fun code => "[" ++ code ++ "]").getD "" ++ ": " ++ d.message ++ d.place

end Diagnostic

end YangDoc
