import YangDoc.Keyword

/-!
# Keywords spelled as method names

A method name has no hyphens and no colons, so a keyword is spelled in it with underscores: two of
them stand for the colon behind a qualifier, one for a hyphen. Pairs are taken from the left, so of
an odd run the last underscore is the hyphen. A leading `r#`, which lets a reserved word be used as
a name, is not part of the keyword.
-/

namespace YangDoc.Keyword

def respell : List Char → List Char
  | [] => []
  | '_' :: '_' :: cs => ':' :: respell cs
  | '_' :: cs => '-' :: respell cs
  | c :: cs => c :: respell cs

def unmarked : List Char → List Char
  | 'r' :: '#' :: cs => cs
  | cs => cs

/-- The keyword that a method name spells. A given qualifier replaces the one spelled in the
name. -/
def ofMethod (method : String) (qualifier : Option String) : String :=
  let keyword := String.ofList (respell (unmarked method.toList))
  match qualifier with
  | none => keyword
  | some q => q ++ ":" ++ localName keyword

end YangDoc.Keyword
