/-!
# Scalar arguments

The scalars that may be given as the argument of a statement. A statement keeps only their text:
`true` and `false` for flags, decimal digits for integers.
-/

namespace YangDoc

inductive Argument where
  | text (value : String)
  | flag (value : Bool)
  | integer (value : Int)
deriving DecidableEq, Repr

namespace Argument

def ofFlag (value : Bool) : String :=
  if value then "true" else "false"

def ofInteger : Int → String
  | .ofNat n => String.ofList (Nat.toDigits 10 n)
  | .negSucc n => "-" ++ String.ofList (Nat.toDigits 10 (n + 1))

def toText : Argument → String
  | .text value => value
  | .flag value => ofFlag value
  | .integer value => ofInteger value

end Argument

end YangDoc
