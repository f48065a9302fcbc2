import YangDoc.Keyword

/-!
# Queries

Criteria on the keyword and the argument of a statement. A criterion that is not set accepts
anything, and one on the argument accepts no statement without argument.
-/

namespace YangDoc

structure Query where
  keyword : Option String := none
  argument : Option String := none
  /-- Compare names without their qualifiers, on both sides. -/
  ignoreQualifier : Bool := false
deriving DecidableEq, Repr

namespace Query

def same (q : Query) (expected actual : String) : Bool :=
  if q.ignoreQualifier then Keyword.localName expected == Keyword.localName actual
  else expected == actual

/-- Whether a statement with this keyword and argument meets the criteria. -/
def accepts (q : Query) (keyword : String) (argument : Option String) : Bool :=
  q.keyword.all (q.same · keyword) &&
    q.argument.all fun expected => argument.any (q.same expected)

end Query

/-- Which substatements a traversal goes down to. -/
inductive Scope where
  | all
  /-- Comments are left out, with everything below them. -/
  | statements
deriving DecidableEq, Repr

namespace Scope

def admits : Scope → String → Bool
  | .all, _ => true
  | .statements, keyword => !Keyword.isComment keyword

end Scope

end YangDoc
