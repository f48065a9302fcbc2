/-!
# Lines and pieces

Two ways of cutting a text. `lines` ends a line at each line feed, drops one carriage return
directly before it, and yields no empty last line; `pieces` cuts at every separator and always
yields one piece more than there are separators.
-/

namespace YangDoc.Text

def lines : List Char → List (List Char)
  | [] => []
  | '\n' :: cs => [] :: lines cs
  | '\r' :: '\n' :: cs => [] :: lines cs
  | c :: cs =>
    match lines cs with
    | [] => [[c]]
    | l :: ls => (c :: l) :: ls

/-- The maximal stretches between the characters that satisfy `cut`. -/
def pieces (cut : Char → Bool) : List Char → List (List Char)
  | [] => [[]]
  | c :: cs =>
    if cut c then [] :: pieces cut cs
    else
      match pieces cut cs with
      | [] => [[c]]
      | p :: ps => (c :: p) :: ps

def repeated (c : Char) (n : Nat) : String :=
  String.ofList (List.replicate n c)

@[simp]
theorem toList_repeated (c : Char) (n : Nat) : (repeated c n).toList = List.replicate n c := by
  simp [repeated]

end YangDoc.Text
