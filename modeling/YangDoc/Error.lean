import YangDoc.Argument
import YangDoc.Diagnostic
import YangDoc.Json.Basic

/-!
# Errors

The causes for which a construction or a validation is refused, and their wording.
-/

namespace YangDoc

/-- What is wrong with a JSON value that should be an expression. -/
inductive Fault where
  | notArray (given : Json.Kind)
  | empty
  | keywordNotString (given : Json.Kind)
  | argumentNotScalar (given : Json.Kind)
  | childrenNotArray (given : Json.Kind)
  | tooManyElements (keyword : String) (count : Nat)
deriving DecidableEq, Repr

def Fault.message : Fault → String
  | .notArray given => "expression should be an array, " ++ given.name ++ " given"
  | .empty => "empty expression"
  | .keywordNotString given =>
    "expression keyword should be a string, " ++ given.name ++ " given"
  | .argumentNotScalar given =>
    "expression argument should be a string, boolean or number, " ++ given.name ++ " given"
  | .childrenNotArray given =>
    "expression children should be an array, " ++ given.name ++ " given"
  | .tooManyElements keyword count =>
    "expression `" ++ keyword ++ "` has " ++ Argument.ofInteger count ++
      " elements, at most 3 allowed"

inductive Error where
  | emptyKeyword
  /-- The parent given to a new statement is in another document. -/
  | foreignParent (keyword : String)
  /-- The root of the document was to become a substatement. -/
  | rootNested (keyword : String)
  /-- A statement was to become a substatement of itself or of one below it. -/
  | beneathItself (keyword : String)
  /-- A statement with a root keyword was to be built below another. -/
  | rootKeywordNested (keyword under : String)
  | malformed (fault : Fault)
  /-- Only documents are validated. -/
  | notTopLevel (keyword : String)
  /-- A strict validation found the document invalid. -/
  | validationFailed (diagnostics : List Diagnostic)
deriving DecidableEq, Repr

namespace Error

inductive Category where
  | invalidArgument
  | invalidState
  | validationFailure
deriving DecidableEq, Repr

def category : Error → Category
  | .notTopLevel _ => .invalidState
  | .validationFailed _ => .validationFailure
  | _ => .invalidArgument

/-- Number of errors among the diagnostics of a failed validation. -/
def errorCount (diagnostics : List Diagnostic) : Nat :=
  diagnostics.countP Diagnostic.isError

def message : Error → String
  | .emptyKeyword => "invalid argument: statement keyword must not be empty"
  | .foreignParent keyword =>
    "invalid argument: parent `" ++ keyword ++ "` belongs to another document"
  | .rootNested keyword =>
    "invalid argument: the document root `" ++ keyword ++ "` cannot be nested"
  | .beneathItself keyword => "invalid argument: cannot append `" ++ keyword ++ "` beneath itself"
  | .rootKeywordNested keyword under =>
    "invalid argument: `" ++ keyword ++ "` is a document root and cannot be nested under `" ++
      under ++ "`"
  | .malformed fault => "invalid argument: " ++ fault.message
  | .notTopLevel keyword =>
    "invalid state: cannot validate `" ++ keyword ++
      "`, only top-level statements (module, submodule)"
  | .validationFailed diagnostics =>
    "validation failed with " ++ Argument.ofInteger (errorCount diagnostics) ++ " error(s)"

end Error

end YangDoc
