import YangDoc.Keyword

/-!
# Section order

In canonical order the statements of a module come section by section, and within a section in the
order they had. A comment takes the rank of the statement that follows it, so a run of comments
travels with the statement it introduces; comments after the last statement rank with the body.
-/

namespace YangDoc.Section

variable {α : Type}

/-- Rank of the first item, or that of the body when there is none. -/
def leadingRank : List (Nat × α) → Nat
  | [] => Keyword.bodyRank
  | (rank, _) :: _ => rank

/-- Each item with its rank, comments ranked with what follows them. -/
def ranked (keyword : α → String) : List α → List (Nat × α)
  | [] => []
  | x :: xs =>
    let rest := ranked keyword xs
    let rank :=
      if Keyword.isComment (keyword x) then leadingRank rest else Keyword.sectionRank (keyword x)
    (rank, x) :: rest

def ofRank (rank : Nat) (items : List (Nat × α)) : List α :=
  (items.filter fun item => item.1 == rank).map (·.2)

/-- The items in canonical order: one section after the other, the body last. -/
def canonical (keyword : α → String) (xs : List α) : List α :=
  (List.range (Keyword.bodyRank + 1)).flatMap fun rank => ofRank rank (ranked keyword xs)

end YangDoc.Section
