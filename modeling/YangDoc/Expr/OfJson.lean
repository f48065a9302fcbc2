import YangDoc.Error
import YangDoc.Expr
import YangDoc.Json.Number

/-!
# Expressions from JSON

A tuple is written in JSON as an array: the keyword, then the argument or `null`, then an array of
further tuples, of which the last two may be left out. An array in the second place is the
substatements of a tuple without argument. A value is looked at before the values inside it, so the
first fault from the left and the top is the one reported.
-/

namespace YangDoc.Expr

/-- The text of a scalar; `null` stands for no argument. -/
def argumentOfJson : Json → Except Fault (Option String)
  | .null => .ok none
  | .string value => .ok (some value)
  | .bool value => .ok (some (Argument.ofFlag value))
  | .number value => .ok (some value.toText)
  | value => .error (.argumentNotScalar value.kind)

mutual

def ofJson : Json → Except Fault Expr
  | .array [] => .error .empty
  | .array [.string keyword] => .ok (.tuple keyword none [])
  | .array [.string keyword, .array children] => do
    return .tuple keyword none (← ofJsonAll children)
  | .array [.string keyword, argument] => do
    return .tuple keyword (← argumentOfJson argument) []
  | .array [.string keyword, argument, .array children] => do
    let argument ← argumentOfJson argument
    return .tuple keyword argument (← ofJsonAll children)
  | .array [.string _, _, children] => .error (.childrenNotArray children.kind)
  | .array (.string keyword :: rest) => .error (.tooManyElements keyword (rest.length + 1))
  | .array (keyword :: _) => .error (.keywordNotString keyword.kind)
  | value => .error (.notArray value.kind)

def ofJsonAll : List Json → Except Fault (List Expr)
  | [] => .ok []
  | value :: rest => do
    let e ← ofJson value
    return e :: (← ofJsonAll rest)

end

end YangDoc.Expr
